import CaceProofs.Guarantees.SingleCommand
import CaceProofs.Library.BeliefExchange

/-!
# Agreement at rest

Agents that only distribute one variable, with three way handshakes, exchange beliefs about it.
They rest with one value as long as what is sent with the greatest time stamp names one value and
its senders keep to it.
-/
namespace CaceProofs.Guarantees
open Source Library

section Beliefs

/-- What a message says about the variable. -/
def beliefIn (x : Name) (m : Message) : Option (Belief Int Bytes) :=
  (m.report?.filter fun report => report.variableName == x).map reported

/-- What has been published about the variable. -/
def beliefsSent (x : Name) (history : List Observation) : List (Belief Int Bytes) :=
  history.filterMap fun o => o.published?.bind (beliefIn x)

/-- The agents of a system, and what is in flight, as far as the variable is concerned. -/
def network (x : Name) (s : System) : Network Int Bytes where
  peers id :=
    { register := registerAt (s.agents id) x
      time := (s.agents id).lamportTime.time
      sent := beliefsSent x (s.agents id).history }
  pending id b := ∃ m, (id, m) ∈ s.flight ∧ beliefIn x m = some b

/-- What an event means for the variable. -/
def act : System.Event → Network.Act Int Bytes
  | .call id _ (.distributeValue _ value _ _) => .decide id value
  | .deliver id _ (.command m) => .answer id ⟨m.senderID, m.lamportTime, m.value⟩
  | .deliver id _ (.acknowledge m) => .record id ⟨m.senderID, m.lamportTime, m.value⟩
  | .call id _ _ | .deliver id _ _ | .duplicate id _ _ | .lose id _ => .skip id

/-- The variable is distributed, or a message arrives. -/
def Exchanges (x : Name) : System.Event → Prop
  | .call _ _ (.distributeValue name _ _ strategy) => name = x ∧ strategy = .threeWayHandShake
  | .deliver _ _ _ => True
  | .call _ _ _ | .duplicate _ _ _ | .lose _ _ => False

variable {x : Name} {m : Message}

theorem beliefIn_command {cmd : CaceCommand} (here : cmd.variableName = x) :
    beliefIn x (.command cmd) = some ⟨cmd.senderID, cmd.lamportTime, cmd.value⟩ := by
  simp [beliefIn, Message.report?, reported, here]

theorem beliefIn_acknowledge {a : CaceAcknowledge} (here : a.variableName = x) :
    beliefIn x (.acknowledge a) = some ⟨a.senderID, a.lamportTime, a.value⟩ := by
  simp [beliefIn, Message.report?, reported, here]

theorem beliefsSent_append (front back : List Observation) :
    beliefsSent x (front ++ back) = beliefsSent x front ++ beliefsSent x back :=
  List.filterMap_append

theorem mem_beliefsSent {history : List Observation} {b : Belief Int Bytes} :
    b ∈ beliefsSent x history ↔ ∃ m t, .published m t ∈ history ∧ beliefIn x m = some b := by
  unfold beliefsSent
  rw [List.mem_filterMap]
  constructor
  · rintro ⟨o, member, about⟩
    cases o with
    | published m t => exact ⟨m, t, member, about⟩
    | received | applied | notified => cases about
  · rintro ⟨m, t, member, about⟩
    exact ⟨_, member, about⟩

end Beliefs

section Members

/-- What an agent publishes: broadcasts about the variable, and short acknowledges. -/
inductive Talk (x : Name) (id : Int) : Message → Prop
  | command {m : CaceCommand} (sender : m.senderID = id) (receivers : m.receiverID = [broadcastID])
      (level : m.level = AcceptStrategy.threeWayHandShake.code) (name : m.variableName = x) :
      Talk x id (.command m)
  | acknowledge {a : CaceAcknowledge} (sender : a.senderID = id)
      (receivers : a.receiverID = [broadcastID]) (name : a.variableName = x) :
      Talk x id (.acknowledge a)
  | shortAck {sa : CaceShortAck} (sender : sa.senderID = id) : Talk x id (.shortAck sa)

theorem Talk.sender {x : Name} {id : Int} {m : Message} (talk : Talk x id m) : m.senderID = id := by
  cases talk <;> assumption

/-- An agent that takes part. -/
structure Member (x : Name) (ids : List Int) (id : Int) (c : Cace) : Prop where
  threeWay : ∀ cv, c.getVariable x = some cv → ThreeWay x cv
  plain : Plain c
  ownID : c.ownID = id
  spaceOwnID : c.spaceOwnID = id
  short : toShort id = id
  unlisted : ∀ k ∈ ids, k ≠ id → k ∉ c.agentBlacklist
  talks : ∀ m t, .published m t ∈ c.history → Talk x id m

variable {x : Name} {ids : List Int} {id : Int} {r : Readings} {c c' : Cace} {m : Message}
  {answers : List Message} {new : List Job} {acks : List CaceShortAck}

/-- The agent is the same after it has published these messages. -/
theorem Member.later (before : Member x ids id c)
    (threeWay : ∀ cv, c'.getVariable x = some cv → ThreeWay x cv)
    (same : Guarantees.config c' = Guarantees.config c)
    (talks : ∀ m t, .published m t ∈ c'.history → .published m t ∈ c.history ∨ Talk x id m) :
    Member x ids id c' where
  threeWay := threeWay
  plain := before.plain.of_config same
  ownID := (congrArg Config.ownID same).trans before.ownID
  spaceOwnID := (congrArg Config.spaceOwnID same).trans before.spaceOwnID
  short := before.short
  unlisted := by
    have listed : c'.agentBlacklist = c.agentBlacklist := congrArg Config.agentBlacklist same
    rw [listed]
    exact before.unlisted
  talks m t published := (talks m t published).elim (before.talks m t) fun talk => talk

/-- What an agent publishes in an event, and the agent after it. -/
structure Moves (x : Name) (ids : List Int) (id : Int) (c c' : Cace)
    (sent : List (Belief Int Bytes)) : Prop where
  member : Member x ids id c'
  history : ∃ later, c'.history = c.history ++ later ∧ beliefsSent x later = sent

/-- A message that is handled. -/
theorem Member.moves (before : Member x ids id c) (turn : Turn c c' m answers new acks)
    (threeWay : ∀ cv, c'.getVariable x = some cv → ThreeWay x cv)
    (talks : ∀ a ∈ answers, Talk x id a) :
    Moves x ids id c c' (answers.filterMap (beliefIn x)) := by
  refine ⟨before.later threeWay turn.config fun m t published => ?_, ?_⟩
  · exact (turn.published.mp published).imp_right fun ⟨answer, _⟩ => talks m answer
  · obtain ⟨seen, history, silent⟩ := turn.history
    refine ⟨.received m :: seen ++ answers.map fun m => .published m .first, ?_, ?_⟩
    · rw [history, List.append_assoc]
    · have nothing : beliefsSent x (.received m :: seen) = [] := by
        refine List.filterMap_eq_nil_iff.mpr fun o member => ?_
        rcases List.mem_cons.mp member with rfl | later
        · rfl
        · rcases silent o later with rfl | ⟨name, rfl⟩ <;> rfl
      rw [beliefsSent_append, nothing, List.nil_append, beliefsSent, List.filterMap_map]
      rfl

/-- A call of `distributeValue`. -/
theorem Member.decides {value : Bytes} {type : Int} (before : Member x ids id c) :
    Moves x ids id c (CaceSpace.distributeValue r c x value type .threeWayHandShake)
        [⟨id, c.lamportTime.tick.time, value⟩] ∧
      registerAt (CaceSpace.distributeValue r c x value type .threeWayHandShake) x =
        some (Register.decide id c.lamportTime.time value (registerAt c x)) ∧
      (CaceSpace.distributeValue r c x value type .threeWayHandShake).lamportTime =
        c.lamportTime.tick := by
  obtain ⟨cmd, j, cv, call⟩ := @distributes x r c value type before.plain before.threeWay
  have sender : cmd.senderID = id :=
    call.sender.trans ((congrArg toShort before.ownID).trans before.short)
  refine ⟨⟨before.later (fun cv' found => ?_) call.config fun m t published => ?_, _,
    call.history, ?_⟩, ?_, call.clock⟩
  · exact Option.some.inj (call.stored.symm.trans found) ▸ call.threeWay
  · rw [call.history] at published
    refine (List.mem_append.mp published).imp_right fun last => ?_
    obtain ⟨rfl, -⟩ := Observation.published.inj (List.mem_singleton.mp last)
    exact .command sender call.receivers call.level call.name
  · have said := beliefIn_command call.name
    rw [sender, call.stamp, call.carries] at said
    exact List.filterMap_cons_some said
  · rw [registerAt, call.stored, Option.map_some, call.register, before.spaceOwnID]

/-- A command arrives, and is answered with what the agent believes then. -/
theorem Member.takesCommand {k : Int} {cmd : CaceCommand} (before : Member x ids id c)
    (source : k ∈ ids) (other : k ≠ id) (talk : Talk x k (.command cmd)) :
    ∃ reg, reg = Register.receive id ⟨cmd.senderID, cmd.lamportTime, cmd.value⟩ (registerAt c x) ∧
      registerAt (c.handle r (.command cmd)) x = some reg ∧
      Moves x ids id c (c.handle r (.command cmd))
        [⟨id, (c.lamportTime.witness cmd.lamportTime).time, reg.own.value⟩] ∧
      (c.handle r (.command cmd)).lamportTime = c.lamportTime.witness cmd.lamportTime := by
  obtain ⟨sender, receivers, level, here⟩ : cmd.senderID = k ∧ cmd.receiverID = [broadcastID] ∧
      cmd.level = AcceptStrategy.threeWayHandShake.code ∧ cmd.variableName = x := by
    cases talk
    exact ⟨‹_›, ‹_›, ‹_›, ‹_›⟩
  have reaches : Reaches (.command cmd) c cmd.receiverID :=
    ⟨fun listed => before.unlisted k source other (sender ▸ listed),
      receivers ▸ addressed_broadcast c⟩
  obtain ⟨cv, applied, ⟨job, -, -, -, turn⟩, clock⟩ :=
    @takes_command x r c cmd before.plain reaches level here before.threeWay
  have name : (answerOf c cmd cv).variableName = x := (applied.threeWay _ List.mem_cons_self).1
  have answerer : (answerOf c cmd cv).senderID = id :=
    (congrArg toShort before.ownID).trans before.short
  have moves := before.moves turn
    (fun cv' found => Option.some.inj (applied.stored.symm.trans found) ▸ applied.threeWay)
    fun a answer => List.mem_singleton.mp answer ▸ .acknowledge answerer rfl name
  have said := beliefIn_acknowledge name
  rw [answerer] at said
  rw [List.filterMap_cons_some said, List.filterMap_nil] at moves
  refine ⟨registerOf cv, before.ownID ▸ applied.register, ?_, moves, clock⟩
  rw [registerAt, applied.stored, Option.map_some]

/-- An acknowledge arrives. What goes back says nothing about the value. -/
theorem Member.takesAcknowledge {k : Int} {a : CaceAcknowledge} (before : Member x ids id c)
    (source : k ∈ ids) (other : k ≠ id) (talk : Talk x k (.acknowledge a)) :
    registerAt (c.handle r (.acknowledge a)) x = some (Register.receive id
        ⟨a.senderID, a.lamportTime, a.value⟩ (registerAt c x)) ∧
      Moves x ids id c (c.handle r (.acknowledge a)) [] ∧
      (c.handle r (.acknowledge a)).lamportTime = (c.lamportTime.witness a.lamportTime).tick := by
  obtain ⟨sender, receivers, here⟩ : a.senderID = k ∧ a.receiverID = [broadcastID] ∧
      a.variableName = x := by
    cases talk
    exact ⟨‹_›, ‹_›, ‹_›⟩
  have reaches : Reaches (.acknowledge a) c a.receiverID :=
    ⟨fun listed => before.unlisted k source other (sender ▸ listed),
      receivers ▸ addressed_broadcast c⟩
  obtain ⟨cv, applied, ⟨job, turn⟩, clock⟩ :=
    @takes_acknowledge x r c a before.plain reaches here before.threeWay
  have answerer : (confirmationOf c a cv).senderID = id :=
    (congrArg toShort before.ownID).trans before.short
  refine ⟨before.ownID ▸ applied.registerAt, ?_, clock⟩
  exact before.moves turn
    (fun cv' found => Option.some.inj (applied.stored.symm.trans found) ▸ applied.threeWay)
    fun m answer => List.mem_singleton.mp answer ▸ .shortAck answerer

/-- A short acknowledge arrives. -/
theorem Member.takesShortAck {k : Int} {sa : CaceShortAck} (before : Member x ids id c)
    (source : k ∈ ids) (other : k ≠ id) (talk : Talk x k (.shortAck sa)) :
    registerAt (c.handle r (.shortAck sa)) x = registerAt c x ∧
      Moves x ids id c (c.handle r (.shortAck sa)) [] ∧
      (c.handle r (.shortAck sa)).lamportTime = c.lamportTime.witness sa.lamportTime := by
  have unlisted : sa.senderID ∉ c.agentBlacklist := fun listed =>
    before.unlisted k source other (talk.sender ▸ listed)
  obtain ⟨acks, handled⟩ : ∃ acks, c.handle r (.shortAck sa) =
      { c.receive (.shortAck sa) with shortAcks := c.shortAcks ++ acks } := by
    cases addressed : c.addressed sa.receiverID with
    | true => exact ⟨[sa], handle_shortAck ⟨unlisted, addressed⟩⟩
    | false =>
      refine ⟨[], ?_⟩
      rw [handle_shortAck_other unlisted addressed, List.append_nil]
      rfl
  have store : (c.handle r (.shortAck sa)).getVariable x = c.getVariable x := by
    rw [handled]
    exact congrArg (fun store => store.lookup x) (receive_store c _)
  refine ⟨registerAt_eq store, ?_, by rw [handled]; rfl⟩
  exact before.moves (turn_of_receive handled) (fun cv found => before.threeWay cv (store ▸ found))
    (by simp)

end Members

section Systems

variable {x : Name} {s s' : System}

/-- The agents of a system take part, and what is in flight is what they publish. -/
structure Company (x : Name) (s : System) : Prop where
  traced : Traced s
  members : ∀ id ∈ s.ids, Member x s.ids id (s.agents id)
  steady : ∀ id ∈ s.ids, Network.Steady id ((network x s).peers id)

/-- What is in flight has been published by another member. -/
theorem Company.inFlight (before : Company x s) {id : Int} {m : Message}
    (inFlight : (id, m) ∈ s.flight) : id ∈ s.ids ∧ ∃ k ∈ s.ids, k ≠ id ∧ Talk x k m ∧
      ∃ t, .published m t ∈ (s.agents k).history := by
  obtain ⟨k, member, other, t, published⟩ := before.traced.inFlight id m inFlight
  exact ⟨before.traced.routed _ inFlight, k, member, other,
    (before.members k member).talks m t published, t, published⟩

theorem Company.sourced (before : Company x s) : Network.Sourced s.ids (network x s) where
  steady := before.steady
  pending := by
    rintro id b ⟨m, inFlight, about⟩
    obtain ⟨-, k, member, other, talk, t, published⟩ := before.inFlight inFlight
    refine ⟨?_, k, member, mem_beliefsSent.mpr ⟨m, t, published, about⟩⟩
    have sender : b.id = m.senderID := by
      obtain ⟨report, reports, rfl⟩ := Option.map_eq_some_iff.mp about
      exact (Message.report?_stamp (Option.filter_eq_some_iff.mp reports).1).1.symm
    rw [sender, talk.sender]
    exact other

/-- What an agent does in an event of the system, seen in the network. -/
theorem Moves.turn {id : Int} {c : Cace} {sent : List (Belief Int Bytes)}
    {heard : Option (Belief Int Bytes)} (moves : Moves x s.ids id (s.agents id) c sent)
    (called : Called s s' id c) (member : id ∈ s.ids)
    (kept : ∀ j m, (j, m) ∈ s.flight → (j = id ∧ beliefIn x m = heard) ∨ (j, m) ∈ s'.flight) :
    Network.Turn s.ids (network x s) (network x s') id heard.toList sent := by
  obtain ⟨later, history, sends⟩ := moves.history
  refine ⟨member, fun j other => ?_, ?_, fun j b ⟨m, inFlight, about⟩ => ?_,
    fun b new j member' other => ?_⟩
  · simp only [network, called.away j other]
  · simp only [network, called.here, history, beliefsSent_append, sends]
  · rcases kept j m inFlight with ⟨here, same⟩ | still
    · exact .inl ⟨here, Option.mem_toList.mpr (same ▸ about)⟩
    · exact .inr ⟨m, still, about⟩
  · rw [← sends] at new
    obtain ⟨m, t, published, about⟩ := mem_beliefsSent.mp new
    exact ⟨m, called.sends later m t history published j member' other, about⟩

/-- A delivery is a move of its receiver. -/
theorem Delivered.called {id : Int} {m : Message} {c : Cace} (delivered : Delivered s s' id m c) :
    Called s s' id c :=
  ⟨delivered.here, delivered.away, delivered.sends⟩

theorem Delivered.waits {id : Int} {m : Message} {c : Cace} (delivered : Delivered s s' id m c) :
    ∀ j m', (j, m') ∈ s.flight →
      (j = id ∧ beliefIn x m' = beliefIn x m) ∨ (j, m') ∈ s'.flight := by
  intro j m' inFlight
  by_cases same : (j, m') = (id, m)
  · obtain ⟨rfl, rfl⟩ := Prod.mk.inj same
    exact .inl ⟨rfl, rfl⟩
  · exact .inr (delivered.kept _ inFlight same)

/-- A call takes nothing out of flight. -/
theorem call_kept {id : Int} {r : Readings} {e : Cace.Event} (next : s.Next (.call id r e) s') :
    id ∈ s.ids ∧ s.flight ⊆ s'.flight := by
  unfold System.Next System.exec at next
  dsimp only at next
  split at next
  next member =>
    split at next
    · cases next
    · split at next
      · obtain rfl := Option.some.inj next
        exact ⟨member, List.subset_append_left _ _⟩
      · cases next
  next => cases next

/-- The members after a step of one of them. -/
theorem Company.later {a : Network.Act Int Bytes} {id : Int} {c : Cace}
    {sent : List (Belief Int Bytes)} (before : Company x s) (traced : Traced s')
    (ids : s'.ids = s.ids) (moves : Moves x s.ids id (s.agents id) c sent)
    (called : Called s s' id c) (step : Network.Step s.ids (network x s) a (network x s')) :
    Company x s' := by
  refine ⟨traced, fun j member => ?_, fun j member => ?_⟩
  · rw [ids] at member ⊢
    by_cases here : j = id
    · subst here
      rw [called.here]
      exact moves.member
    · rw [called.away j here]
      exact before.members j member
  · exact step.steady before.sourced j (ids ▸ member)

/-- A call is a decision. -/
theorem Company.call {id : Int} {r : Readings} {value : Bytes} {type : Int}
    (before : Company x s)
    (next : s.Next (.call id r (.distributeValue x value type .threeWayHandShake)) s')
    (unwrapped : ∀ id ∈ s.ids, (s'.agents id).lamportTime.wraps = 0) :
    Company x s' ∧ Network.Step s.ids (network x s) (.decide id value) (network x s') := by
  obtain ⟨member, stays⟩ := call_kept next
  have called := call_spec next
  obtain ⟨moves, register, clock⟩ :=
    @Member.decides _ _ _ r _ value type (before.members id member)
  have time : (s.agents id).lamportTime.tick.time = (s.agents id).lamportTime.time + 1 := by
    have ticked := unwrapped id member
    rw [called.here, clock] at ticked
    exact LamportClock.tick_time ticked
  have step : Network.Step s.ids (network x s) (.decide id value) (network x s') := by
    refine .decide ?_ ?_ ?_
    · have turn := @Moves.turn x s s' id _ _ none moves called member fun j m inFlight =>
        .inr (stays inFlight)
      rw [time] at turn
      exact turn
    · simp only [network, called.here, register]
    · simp only [network, called.here, clock, time]
      exact Nat.le_refl _
  exact ⟨before.later (before.traced.step next) (system_ids next) moves called step, step⟩

/-- The clock after a message. -/
theorem heardTime_eq {c : LamportTime} {seen : Nat} (unwrapped : (c.witness seen).wraps = 0) :
    (c.witness seen).time = Network.heardTime c.time seen :=
  LamportClock.witness_time unwrapped

/-- A delivered message is answered, recorded, or says nothing about the value. -/
theorem Company.delivers {id : Int} {r : Readings} {m : Message} (before : Company x s)
    (next : s.Next (.deliver id r m) s')
    (unwrapped : ∀ id ∈ s.ids, (s'.agents id).lamportTime.wraps = 0) :
    Company x s' ∧ Network.Step s.ids (network x s) (act (.deliver id r m)) (network x s') := by
  have delivered := deliver_spec next
  have called := delivered.called
  obtain ⟨member, k, source, other, talk, -⟩ := before.inFlight delivered.inFlight
  have participant := before.members id member
  have ends := unwrapped id member
  rw [called.here] at ends
  suffices step : Network.Step s.ids (network x s) (act (.deliver id r m)) (network x s') ∧
      ∃ sent, Moves x s.ids id (s.agents id) ((s.agents id).handle r m) sent by
    obtain ⟨step, sent, moves⟩ := step
    exact ⟨before.later (before.traced.step next) (system_ids next) moves called step, step⟩
  have kind := talk
  cases kind with
  | @command cmd sender receivers level name =>
    obtain ⟨reg, received, register, moves, clock⟩ :=
      @Member.takesCommand _ _ _ r _ _ cmd participant source other talk
    rw [clock] at ends
    have turn := moves.turn called member delivered.waits
    rw [beliefIn_command name, heardTime_eq ends] at turn
    subst received
    refine ⟨.answer ⟨_, delivered.inFlight, beliefIn_command name⟩ turn ?_ ?_, _, moves⟩
    · simp only [network, called.here, register]
    · simp only [network, called.here, clock, heardTime_eq ends]
      exact Nat.le_refl _
  | @acknowledge a sender receivers name =>
    obtain ⟨register, moves, clock⟩ :=
      @Member.takesAcknowledge _ _ _ r _ _ a participant source other talk
    rw [clock] at ends
    have turn := moves.turn called member delivered.waits
    rw [beliefIn_acknowledge name] at turn
    refine ⟨.record ⟨_, delivered.inFlight, beliefIn_acknowledge name⟩ turn ?_ ?_, _, moves⟩
    · simp only [network, called.here, register]
    · obtain ⟨witnessed, later⟩ := LamportClock.le_tick _ ends
      simp only [network, called.here, clock, ← heardTime_eq witnessed]
      exact later
  | @shortAck sa sender =>
    obtain ⟨register, moves, clock⟩ :=
      @Member.takesShortAck _ _ _ r _ _ sa participant source other talk
    rw [clock] at ends
    refine ⟨.skip (moves.turn called member delivered.waits) ?_ ?_, _, moves⟩
    · simp only [network, called.here, register]
    · simp only [network, called.here, clock]
      exact (LamportClock.le_witness _ _ ends).2

/-- Every event of the exchange is a step of the network. -/
theorem Company.step {e : System.Event} (before : Company x s) (allowed : Exchanges x e)
    (next : s.Next e s') (unwrapped : ∀ id ∈ s.ids, (s'.agents id).lamportTime.wraps = 0) :
    Company x s' ∧ Network.Step s.ids (network x s) (act e) (network x s') := by
  cases e with
  | call id r e =>
    cases e with
    | distributeValue name value type strategy =>
      obtain ⟨rfl, rfl⟩ := allowed
      exact before.call next unwrapped
    | distributeVariable | addVariable | writeVariable | requestVariable | pNoBlock | v
    | agentEngangement | step | handle => exact allowed.elim
  | deliver => exact before.delivers next unwrapped
  | duplicate | lose => exact allowed.elim

/-- Nobody knows the variable yet. -/
theorem Circle.company (circle : Circle x s) :
    Company x s ∧ Network.Agreed s.ids (network x s) := by
  have register : ∀ id ∈ s.ids, registerAt (s.agents id) x = none := fun id member => by
    rw [registerAt, circle.unknown id member]
    rfl
  have history : ∀ id, (s.agents id).history = [] := fun id => (circle.quiescent.idle id).history
  refine ⟨⟨circle.quiescent.traced, fun id member => ?_, fun id member => ?_⟩,
    .inl fun id member => ⟨register id member, ?_⟩⟩
  · exact
      { threeWay := by simp [circle.unknown id member]
        plain := circle.plain id member
        ownID := (circle.ownID id member).1
        spaceOwnID := (circle.ownID id member).2
        short := (circle.short id member).1
        unlisted := circle.unlisted id member
        talks := by simp [history id] }
  · refine ⟨?_, ?_, ?_, ?_⟩
    · simp [network, register id member]
    · simp [network, register id member]
    · simp [network, register id member]
    · simp [network, history id, beliefsSent]
  · simp [network, history id, beliefsSent]

/-- What every step complies with, the run keeps. -/
theorem Circle.agrees {start : System} {trace : List (System × System.Event)}
    (circle : Circle x start) (run : start.Runs trace s)
    (allowed : ∀ p ∈ trace, Exchanges x p.2)
    (uncontested : ∀ p ∈ trace, Network.Uncontested p.1.ids (network x p.1) (act p.2))
    (unwrapped : ∀ id ∈ start.ids, (s.agents id).lamportTime.wraps = 0) :
    s.ids = start.ids ∧ Company x s ∧ Network.Agreed s.ids (network x s) := by
  induction run with
  | nil => exact ⟨rfl, circle.company⟩
  | @step trace d d' e run next ih =>
    have earlier : ∀ id ∈ start.ids, (d.agents id).lamportTime.wraps = 0 := fun id member =>
      ((circle.quiescent.traced.runs run).clock (Run.nil.step next) id (unwrapped id member)).1
    obtain ⟨same, company, agreed⟩ := ih (fun p member => allowed p (List.mem_append_left _ member))
      (fun p member => uncontested p (List.mem_append_left _ member)) earlier
    obtain ⟨after, step⟩ := company.step (allowed (d, e) (by simp)) next (same ▸ unwrapped)
    have ids := system_ids next
    refine ⟨ids.trans same, after, ?_⟩
    rw [ids]
    exact agreed.step company.sourced (uncontested (d, e) (by simp)) step

/-- In every run in which whatever is sent with the greatest time stamp so far has one value, and
those who have sent it prefer this value, the agents rest with one value. -/
theorem agreement_at_rest {start : System} {trace : List (System × System.Event)}
    (circle : Circle x start) (run : start.Runs trace s)
    (allowed : ∀ p ∈ trace, Exchanges x p.2)
    (uncontested : ∀ p ∈ trace, Network.Uncontested p.1.ids (network x p.1) (act p.2))
    (unwrapped : ∀ id ∈ start.ids, (s.agents id).lamportTime.wraps = 0) (rest : s.flight = []) :
    ∀ i ∈ start.ids, ∀ j ∈ start.ids, ∀ u v, ownValue (s.agents i) x = some u →
      ownValue (s.agents j) x = some v → u = v := by
  obtain ⟨ids, -, agreed⟩ := circle.agrees run allowed uncontested unwrapped
  have silent : ∀ i b, ¬ (network x s).pending i b := by
    rintro i b ⟨m, inFlight, -⟩
    rw [rest] at inFlight
    cases inFlight
  intro i member j member' u v known known'
  rw [ownValue_eq] at known known'
  obtain ⟨reg, register, rfl⟩ := Option.map_eq_some_iff.mp known
  obtain ⟨reg', register', rfl⟩ := Option.map_eq_some_iff.mp known'
  exact agreed.at_rest silent i (ids ▸ member) j (ids ▸ member') reg reg' register register'

end Systems

section Examples

/-- Two agents distribute the variable before they have heard of each other. -/
def crossing (time1 time2 : Nat) : List System.Event :=
  [.call 1 .zero (.distributeValue ['x'] [7] 0 .threeWayHandShake),
    .call 2 .zero (.distributeValue ['x'] [8] 0 .threeWayHandShake),
    .deliver 2 .zero (.command ⟨1, [0], ['x'], [7], 0, longMax, 70, time1 + 100, time1 + 1, 0⟩),
    .deliver 1 .zero
      (.command ⟨2, [0], ['x'], [8], 0, longMax, 70, 2 * (time2 + 100), time2 + 1, 0⟩)]

/-- The clock of agent 1 is ahead. -/
def crossedApart : List System.Event :=
  crossing 5 3 ++
    [.deliver 1 .zero (.acknowledge ⟨2, [0], ['x'], [7], 105, 7, 0⟩),
      .deliver 2 .zero (.acknowledge ⟨1, [0], ['x'], [7], 206, 6, 0⟩),
      .deliver 2 .zero (.shortAck ⟨1, [2], ['x'], 105, 9⟩),
      .deliver 1 .zero (.shortAck ⟨2, [1], ['x'], 206, 8⟩)]

/-- The clocks are equal. -/
def crossedTied : List System.Event :=
  crossing 1 1 ++
    [.deliver 1 .zero (.acknowledge ⟨2, [0], ['x'], [7], 101, 2, 0⟩),
      .deliver 2 .zero (.acknowledge ⟨1, [0], ['x'], [8], 202, 2, 0⟩),
      .deliver 2 .zero (.shortAck ⟨1, [2], ['x'], 101, 3⟩),
      .deliver 1 .zero (.shortAck ⟨2, [1], ['x'], 202, 3⟩)]

/-- Both agents rest with the value of agent 1. -/
theorem agreement_at_rest_crossing : ∃ trace s,
    (pair 5).play crossedApart = some (trace, s) ∧ ownValue (s.agents 1) ['x'] = some [7] ∧
      ∀ i ∈ [1, 2], ∀ j ∈ [1, 2], ∀ u v, ownValue (s.agents i) ['x'] = some u →
        ownValue (s.agents j) ['x'] = some v → u = v := by
  have played : (pair 5).play crossedApart = some _ := rfl
  obtain ⟨run, events⟩ := System.play_runs played
  refine ⟨_, _, played, by decide,
    agreement_at_rest (pair_circle ['x'] 5) run ?_ (by decide) (by decide) rfl⟩
  exact @allowed_of_events _ _ (fun _ => Exchanges ['x']) _ _ events fun e member _ =>
    (by simp [crossedApart, crossing, Exchanges] : ∀ e ∈ crossedApart, Exchanges ['x'] e) e member

/-- Both commands carry one time stamp. Each agent takes over the value of the other, and drops the
acknowledge, which is as old as the command. -/
theorem agreement_at_rest_swapped : ∃ trace s,
    Circle ['x'] (circleOf [1, 2] fun _ => 1) ∧
      (circleOf [1, 2] fun _ => 1).play crossedTied = some (trace, s) ∧
      (∀ p ∈ trace, Exchanges ['x'] p.2) ∧ s.flight = [] ∧
      ownValue (s.agents 1) ['x'] = some [8] ∧ ownValue (s.agents 2) ['x'] = some [7] := by
  have played : (circleOf [1, 2] fun _ => 1).play crossedTied = some _ := rfl
  obtain ⟨-, events⟩ := System.play_runs played
  refine ⟨_, _, circleOf_circle ['x'] (by decide) (by decide), played, ?_, rfl, by decide,
    by decide⟩
  exact @allowed_of_events _ _ (fun _ => Exchanges ['x']) _ _ events fun e member _ =>
    (by simp [crossedTied, crossing, Exchanges] : ∀ e ∈ crossedTied, Exchanges ['x'] e) e member

end Examples

end CaceProofs.Guarantees
