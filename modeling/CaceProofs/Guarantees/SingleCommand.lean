import CaceProofs.Guarantees.ShortAckRouting
import CaceProofs.Guarantees.ThreeWayHandshake

/-!
# A single command

One agent commands a variable that nobody knows, and everything published is delivered. At rest
everybody believes the value and has a record of everybody else, and no job waits any more.
-/
namespace CaceProofs.Guarantees
open Source Library

/-- A command that an agent has just sent to everyone. -/
structure Opening where
  ids : List Int
  initiator : Int
  clock : Nat
  command : CaceCommand
  distinct : ids.Nodup
  member : initiator ∈ ids
  short : ∀ id ∈ ids, toShort id = id ∧ id ≠ broadcastID
  sender : command.senderID = initiator
  receivers : command.receiverID = [broadcastID]
  level : command.level = AcceptStrategy.threeWayHandShake.code
  word : toShort command.msgID = command.msgID
  later : clock ≤ command.lamportTime

/-- What an agent may publish in the exchange that follows. -/
inductive Part (o : Opening) (id : Int) : Message → Prop
  | command (initiates : id = o.initiator) : Part o id (.command o.command)
  | acknowledge {a : CaceAcknowledge} (other : id ≠ o.initiator) (sender : a.senderID = id)
      (receivers : a.receiverID = [broadcastID]) (name : a.variableName = o.command.variableName)
      (value : a.value = o.command.value) (msgID : a.msgID = o.command.msgID)
      (later : o.clock ≤ a.lamportTime) : Part o id (.acknowledge a)
  | shortAck {sa : CaceShortAck} (receiver : Int) (sender : sa.senderID = id)
      (receivers : sa.receiverID = [receiver]) (msgID : sa.msgID = o.command.msgID) :
      Part o id (.shortAck sa)

section Holding

variable {o : Opening} {id : Int} {r : Readings} {c c' : Cace}

/-- The variable at an agent: of everything it has heard, the value is the same. -/
structure Holding (o : Opening) (id : Int) (c : Cace) : Prop where
  threeWay : ∀ cv, c.getVariable o.command.variableName = some cv →
    ThreeWay o.command.variableName cv
  sound : ∀ reg, registerAt c o.command.variableName = some reg → Register.Sound id reg
  unanimous : ∀ reg, registerAt c o.command.variableName = some reg →
    ∀ a ∈ reg.beliefs, a.value = o.command.value
  later : ∀ reg, registerAt c o.command.variableName = some reg →
    ∀ a ∈ reg.records, o.clock ≤ a.age ∧ a.id ∈ o.ids

theorem Holding.of_store (before : Holding o id c) (same : c'.store = c.store) :
    Holding o id c' := by
  have stored : c'.getVariable o.command.variableName =
      c.getVariable o.command.variableName := by rw [Cace.getVariable, same]; rfl
  have register := registerAt_eq stored
  refine ⟨stored ▸ before.threeWay, ?_, ?_, ?_⟩
  · rw [register]
    exact before.sound
  · rw [register]
    exact before.unanimous
  · rw [register]
    exact before.later

/-- A report of the value. -/
structure Agrees (o : Opening) (id : Int) (u : ProposalUpdate) : Prop where
  owner : u.ownID = id
  name : u.variableName = o.command.variableName
  value : u.value = o.command.value
  sender : u.senderID ∈ o.ids
  other : u.senderID ≠ id
  later : o.clock ≤ u.lamportTime
  level : ∀ s, u.message.strategy? = some s → s = .threeWayHandShake

theorem Agrees.default {u : ProposalUpdate} (agrees : Agrees o id u) : DefaultUpdate u := by
  intro s level
  rw [agrees.level s level]
  rfl

theorem Holding.register {u : ProposalUpdate} (before : Holding o id c) (agrees : Agrees o id u) :
    registerAt (c.updateVariable u) o.command.variableName = some (Register.receive id
      (reported u.toReport) (registerAt c o.command.variableName)) := by
  rw [registerAt_updateVariable agrees.default
    (fun cv stored => (before.threeWay cv stored).default) agrees.name, agrees.owner]

theorem Holding.update {u : ProposalUpdate} (before : Holding o id c) (agrees : Agrees o id u) :
    Holding o id (c.updateVariable u) := by
  have register := before.register agrees
  refine ⟨fun cv stored => ?_, fun reg known => ?_, fun reg known => ?_,
    fun reg known a member => ?_⟩
  · rw [getVariable_updateVariable, if_pos agrees.name.symm] at stored
    obtain rfl := Option.some.inj stored
    refine ThreeWay.updated agrees.name agrees.level fun cv old => before.threeWay cv ?_
    rw [← agrees.name]
    exact old
  all_goals
    rw [register] at known
    obtain rfl := Option.some.inj known
  · exact Register.receive_sound before.sound agrees.other
  · exact Register.receive_unanimous agrees.value before.unanimous
  · rcases Register.mem_receive member with rfl | ⟨old, stored, inRecords⟩
    · exact ⟨agrees.later, agrees.sender⟩
    · exact before.later old stored a inRecords

/-- Those the agent has a record of. -/
def senders (o : Opening) (c : Cace) : List Int :=
  ((registerAt c o.command.variableName).map fun reg => reg.records.map Belief.id).getD []

theorem senders_of_store (same : c'.store = c.store) : senders o c' = senders o c := by
  unfold senders registerAt Cace.getVariable
  rw [same]

theorem Holding.senders_update {u : ProposalUpdate} (before : Holding o id c)
    (agrees : Agrees o id u) {k : Int} (known : k = u.senderID ∨ k ∈ senders o c) :
    k ∈ senders o (c.updateVariable u) := by
  unfold senders at known ⊢
  rw [before.register agrees]
  refine Register.receive_covers (known.imp_right fun old => ?_)
  cases register : registerAt c o.command.variableName with
  | none =>
    rw [register] at old
    cases old
  | some reg =>
    rw [register] at old
    exact ⟨reg, rfl, old⟩

end Holding

section Participants

variable {o : Opening} {id : Int} {r : Readings} {c c' : Cace}

/-- The jobs of the exchange, which wait for the others. -/
def Fits (o : Opening) (id : Int) : Job → Prop
  | .command j => id = o.initiator ∧ j.lamportTime = o.clock ∧
      j.variablePtr = .stored o.command.variableName ∧
      ∀ k ∈ j.expectedRobotIDs, k ∈ o.ids ∧ k ≠ id
  | .commandAcknowledge j => id ≠ o.initiator ∧ j.msgID = o.command.msgID ∧
      j.updatedOwnBelieve = true ∧ ∀ k ∈ j.expectedRobotIDs, k ∈ o.ids ∧ k ≠ id
  | _ => True

/-- An agent in the exchange. -/
structure Participant (o : Opening) (id : Int) (c : Cace) : Prop extends Holding o id c where
  plain : Plain c
  ownID : c.ownID = id
  unlisted : ∀ k ∈ o.ids, k ≠ id → k ∉ c.agentBlacklist
  active : ∀ k ∈ c.activeRobots, k ∈ o.ids ∧ k ≠ id
  received : ∀ m, .received m ∈ c.history → ∃ k ∈ o.ids, k ≠ id ∧ Part o k m
  published : ∀ m t, .published m t ∈ c.history → Part o id m
  heard : ∀ m report, .received m ∈ c.history → m.report? = some report →
    report.senderID ∈ senders o c
  begun : id = o.initiator → c.getVariable o.command.variableName ≠ none
  answered : ∀ m, .received (.command m) ∈ c.history →
    ∃ a, .published (.acknowledge a) .first ∈ c.history
  confirmed : ∀ a, .received (.acknowledge a) ∈ c.history → ∃ sa,
    .published (.shortAck sa) .first ∈ c.history ∧ sa.receiverID = [a.senderID]
  queue : ∀ sa, .received (.shortAck sa) ∈ c.history → sa.receiverID = [id] → sa ∈ c.shortAcks
  jobs : ∀ job ∈ c.jobs, Fits o id job
  starts : id = o.initiator → ∃ j, .command j ∈ c.jobs
  waits : ∀ m, .received (.command m) ∈ c.history → ∃ j, .commandAcknowledge j ∈ c.jobs

variable {m : Message} {answers : List Message} {new : List Job} {acks : List CaceShortAck}

/-- A turn of the exchange: what comes in is recorded, and answered as it has to be. -/
structure Contributes (o : Opening) (id : Int) (c c' : Cace) (m : Message)
    (answers : List Message) (new : List Job) (acks : List CaceShortAck) : Prop where
  turn : Turn c c' m answers new acks
  source : ∃ k ∈ o.ids, k ≠ id ∧ Part o k m
  holding : Holding o id c'
  kept : ∀ k ∈ senders o c, k ∈ senders o c'
  heard : ∀ report, m.report? = some report → report.senderID ∈ senders o c'
  known : c.getVariable o.command.variableName ≠ none →
    c'.getVariable o.command.variableName ≠ none
  parts : ∀ a ∈ answers, Part o id a
  answered : ∀ cmd, m = .command cmd →
    (∃ a, .acknowledge a ∈ answers) ∧ ∃ j, .commandAcknowledge j ∈ new
  confirmed : ∀ a, m = .acknowledge a → ∃ sa, .shortAck sa ∈ answers ∧ sa.receiverID = [a.senderID]
  queue : ∀ sa, m = .shortAck sa → sa.receiverID = [id] → sa ∈ acks
  jobs : ∀ job ∈ new, Fits o id job

theorem Participant.turn (before : Participant o id c)
    (step : Contributes o id c c' m answers new acks) : Participant o id c' := by
  have turn := step.turn
  have robots := turn.robots
  have earlier : ∀ {m' t}, .published m' t ∈ c.history → .published m' t ∈ c'.history :=
    fun old => turn.published.mpr (.inl old)
  have now : ∀ {m'}, m' ∈ answers → .published m' .first ∈ c'.history :=
    fun answer => turn.published.mpr (.inr ⟨answer, rfl⟩)
  have stays : ∀ {job}, job ∈ c.jobs → job ∈ c'.jobs := by
    intro job old
    rw [turn.jobs]
    exact List.mem_append_left _ old
  have joins : ∀ {job}, job ∈ new → job ∈ c'.jobs := by
    intro job member
    rw [turn.jobs]
    exact List.mem_append_right _ member
  refine
    { toHolding := step.holding
      plain := before.plain.of_config turn.config
      ownID := (congrArg Config.ownID turn.config).trans before.ownID
      unlisted := fun k member other => ?_
      active := robots ▸ before.active
      received := fun m' new => ?_
      published := fun m' t new => ?_
      heard := fun m' report new reports => ?_
      begun := fun initiates => step.known (before.begun initiates)
      answered := fun cmd new => ?_
      confirmed := fun a new => ?_
      queue := fun sa new toMe => ?_
      jobs := fun job member => ?_
      starts := fun initiates => (before.starts initiates).imp fun _ => stays
      waits := fun cmd new => ?_ }
  · have listed : c'.agentBlacklist = c.agentBlacklist :=
      congrArg Config.agentBlacklist turn.config
    rw [listed]
    exact before.unlisted k member other
  · rcases turn.received.mp new with old | rfl
    · exact before.received m' old
    · exact step.source
  · rcases turn.published.mp new with old | ⟨answer, -⟩
    · exact before.published m' t old
    · exact step.parts m' answer
  · rcases turn.received.mp new with old | rfl
    · exact step.kept _ (before.heard m' report old reports)
    · exact step.heard report reports
  · rcases turn.received.mp new with old | here
    · exact (before.answered cmd old).imp fun _ => earlier
    · exact (step.answered cmd here.symm).1.imp fun _ => now
  · rcases turn.received.mp new with old | here
    · exact (before.confirmed a old).imp fun _ => And.imp_left earlier
    · exact (step.confirmed a here.symm).imp fun _ => And.imp_left now
  · rw [turn.shortAcks]
    rcases turn.received.mp new with old | here
    · exact List.mem_append_left _ (before.queue sa old toMe)
    · exact List.mem_append_right _ (step.queue sa here.symm toMe)
  · rw [turn.jobs] at member
    rcases List.mem_append.mp member with old | last
    · exact before.jobs job old
    · exact step.jobs job last
  · rcases turn.received.mp new with old | here
    · exact (before.waits cmd old).imp fun _ => stays
    · exact (step.answered cmd here.symm).2.imp fun _ => joins

/-- What the variable holds once a report of the value has been applied. -/
theorem Holding.updated_variable {u : ProposalUpdate} (before : Holding o id c)
    (agrees : Agrees o id u) : ∃ cv,
      (c.updateVariable u).getVariable o.command.variableName = some cv ∧
        cv.name = o.command.variableName ∧ cv.strategy = .threeWayHandShake ∧
        cv.val = o.command.value := by
  obtain ⟨cv, stored, register⟩ := Option.map_eq_some_iff.mp (before.register agrees)
  have after := before.update agrees
  obtain ⟨name, strategy⟩ := after.threeWay cv stored _ List.mem_cons_self
  refine ⟨cv, stored, name, strategy, ?_⟩
  exact after.unanimous (registerOf cv) (by simp [registerAt, stored]) _ List.mem_cons_self

/-- What an applied report of the value leaves behind. -/
structure Recorded (o : Opening) (id : Int) (c c' : Cace) (m : Message) : Prop where
  holding : Holding o id c'
  kept : ∀ k ∈ senders o c, k ∈ senders o c'
  heard : ∀ report, m.report? = some report → report.senderID ∈ senders o c'
  known : c'.getVariable o.command.variableName ≠ none

theorem Holding.recorded {u : ProposalUpdate} (before : Holding o id c) (agrees : Agrees o id u)
    (message : u.message = m) (store : c'.store = ((c.receive m).updateVariable u).store) :
    Recorded o id c c' m := by
  have received : Holding o id (c.receive m) := before.of_store (receive_store c m)
  obtain ⟨cv, stored, -⟩ := received.updated_variable agrees
  refine ⟨(received.update agrees).of_store store, fun k old => ?_, fun report reports => ?_, ?_⟩
  · rw [senders_of_store store]
    refine received.senders_update agrees (.inr ?_)
    rwa [senders_of_store (receive_store c m)]
  · rw [← message, u.message_report] at reports
    obtain rfl := Option.some.inj reports
    rw [senders_of_store store]
    exact received.senders_update agrees (.inl rfl)
  · have here : c'.getVariable o.command.variableName = some cv := by
      rw [Cace.getVariable, store]
      exact stored
    rw [here]
    exact Option.some_ne_none cv

theorem Participant.receive_ownID (before : Participant o id c) (m : Message) :
    (c.receive m).ownID = id :=
  (congrArg Config.ownID (receive_config c m)).trans before.ownID

theorem Participant.unlisted_sender (before : Participant o id c) {k : Int} (member : k ∈ o.ids)
    (other : k ≠ id) {m : Message} (sender : m.senderID = k) : m.senderID ∉ c.agentBlacklist :=
  sender ▸ before.unlisted k member other

/-- The command reaches an agent, which answers it. -/
theorem Participant.takesCommand (before : Participant o id c) (member : id ∈ o.ids)
    (other : id ≠ o.initiator)
    (unwrapped : (c.handle r (.command o.command)).lamportTime.wraps = 0) :
    ∃ answers new,
      Contributes o id c (c.handle r (.command o.command)) (.command o.command) answers new [] := by
  have agrees : Agrees o id
      (commandUpdate r (c.receive (.command o.command)).ownID o.command) := by
    refine ⟨before.receive_ownID _, rfl, rfl, ?_, ?_, o.later, fun s level => ?_⟩
    · change o.command.senderID ∈ o.ids
      rw [o.sender]
      exact o.member
    · exact fun same => other (same.symm.trans o.sender)
    · rw [← Option.some.inj level]
      exact congrArg AcceptStrategy.mk o.level
  have reaches : Reaches (.command o.command) c o.command.receiverID :=
    ⟨before.unlisted_sender o.member (Ne.symm other) o.sender,
      o.receivers ▸ addressed_broadcast c⟩
  have recorded : Recorded o id c (c.handle r (.command o.command)) (.command o.command) := by
    refine before.toHolding.recorded agrees rfl ?_
    exact handle_command_store before.plain reaches
  obtain ⟨cv, applied, ⟨job, msgID, updates, expected, turn⟩, clock⟩ :=
    @takes_command _ r c o.command before.plain reaches o.level rfl before.threeWay
  have value : cv.val = o.command.value :=
    recorded.holding.unanimous (registerOf cv) (by simp [registerAt, applied.stored]) _
      List.mem_cons_self
  rw [clock] at unwrapped
  refine ⟨_, _, turn, ⟨_, o.member, Ne.symm other, .command rfl⟩, recorded.holding, recorded.kept,
    recorded.heard, fun _ => recorded.known, fun a answer => ?_, fun cmd _ => ?_, fun a same => ?_,
    fun sa same => ?_, fun job' new => ?_⟩
  · obtain rfl := List.mem_singleton.mp answer
    refine .acknowledge other ?_ rfl (applied.threeWay _ List.mem_cons_self).1 value ?_ ?_
    · exact (congrArg toShort before.ownID).trans (o.short id member).1
    · change toShort (toShort o.command.msgID) = o.command.msgID
      rw [o.word, o.word]
    · exact Nat.le_trans o.later (LamportClock.le_witness_time unwrapped)
  · exact ⟨⟨_, List.mem_singleton_self _⟩, _, List.mem_singleton_self _⟩
  · cases same
  · cases same
  · obtain rfl := List.mem_singleton.mp new
    exact ⟨other, msgID.trans o.word, updates, expected ▸ before.active⟩

/-- An acknowledge reaches an agent, which confirms it. -/
theorem Participant.takesAcknowledge (before : Participant o id c) (member : id ∈ o.ids)
    {k : Int} {a : CaceAcknowledge} (source : k ∈ o.ids) (other : k ≠ id)
    (part : Part o k (.acknowledge a)) :
    ∃ answers new,
      Contributes o id c (c.handle r (.acknowledge a)) (.acknowledge a) answers new [] := by
  obtain ⟨notInitiator, sender, receivers, about, carries, msgID, later⟩ :
      k ≠ o.initiator ∧ a.senderID = k ∧ a.receiverID = [broadcastID] ∧
        a.variableName = o.command.variableName ∧ a.value = o.command.value ∧
        a.msgID = o.command.msgID ∧ o.clock ≤ a.lamportTime := by
    cases part
    exact ⟨‹_›, ‹_›, ‹_›, ‹_›, ‹_›, ‹_›, ‹_›⟩
  have agrees : Agrees o id (acknowledgeUpdate r (c.receive (.acknowledge a)).ownID a) := by
    refine ⟨before.receive_ownID _, about, carries, ?_, ?_, later, fun s none => by cases none⟩
    · change a.senderID ∈ o.ids
      rwa [sender]
    · exact fun same => other (sender.symm.trans same)
  have reaches : Reaches (.acknowledge a) c a.receiverID :=
    ⟨before.unlisted_sender source other sender, receivers ▸ addressed_broadcast c⟩
  obtain ⟨cv, applied, ⟨job, turn⟩, -⟩ :=
    @takes_acknowledge _ r c a before.plain reaches about before.threeWay
  have recorded : Recorded o id c (c.handle r (.acknowledge a)) (.acknowledge a) := by
    refine before.toHolding.recorded agrees rfl ?_
    rw [handle_acknowledge before.plain reaches]
    split <;> rfl
  refine ⟨_, _, turn, ⟨k, source, other, part⟩, recorded.holding, recorded.kept, recorded.heard,
    fun _ => recorded.known, fun m answer => ?_, fun cmd same => ?_, fun a' same => ?_,
    fun sa same => ?_, fun job new => ?_⟩
  · obtain rfl := List.mem_singleton.mp answer
    refine .shortAck (toShort a.senderID) ?_ rfl ?_
    · exact (congrArg toShort before.ownID).trans (o.short id member).1
    · change toShort a.msgID = o.command.msgID
      rw [msgID, o.word]
  · cases same
  · obtain rfl := Message.acknowledge.inj same
    refine ⟨_, List.mem_singleton_self _, ?_⟩
    change [toShort a.senderID] = [a.senderID]
    rw [sender, (o.short k source).1]
  · cases same
  · obtain rfl := List.mem_singleton.mp new
    trivial

/-- A short acknowledge waits in the queue of its receiver, and all others ignore it. -/
theorem Participant.takesShortAck (before : Participant o id c) (member : id ∈ o.ids) {k : Int}
    {sa : CaceShortAck} (source : k ∈ o.ids) (other : k ≠ id) (part : Part o k (.shortAck sa)) :
    ∃ acks, Contributes o id c (c.handle r (.shortAck sa)) (.shortAck sa) [] [] acks := by
  have sender : sa.senderID = k := by
    cases part
    assumption
  have unlisted : sa.senderID ∉ c.agentBlacklist :=
    before.unlisted_sender source other (m := .shortAck sa) sender
  have handled : ∃ acks, c.handle r (.shortAck sa) =
      { c.receive (.shortAck sa) with shortAcks := c.shortAcks ++ acks } ∧
        (sa.receiverID = [id] → sa ∈ acks) := by
    cases addressed : c.addressed sa.receiverID with
    | true =>
      exact ⟨[sa], handle_shortAck ⟨unlisted, addressed⟩, fun _ => List.mem_singleton_self _⟩
    | false =>
      refine ⟨[], ?_, fun toMe => ?_⟩
      · rw [handle_shortAck_other unlisted addressed, List.append_nil]
        rfl
      · rw [toMe, Cace.addressed, before.ownID, (o.short id member).1] at addressed
        simp at addressed
  obtain ⟨acks, handled, queued⟩ := handled
  have store : (c.handle r (.shortAck sa)).store = c.store := by
    rw [handled]
    exact receive_store c _
  refine ⟨acks, turn_of_receive handled, ⟨k, source, other, part⟩, before.toHolding.of_store store,
    fun k' old => ?_, fun report none => ?_, fun known => ?_, by simp, fun cmd same => ?_,
    fun a same => ?_, fun sa' same => ?_, by simp⟩
  · rwa [senders_of_store store]
  · cases none
  · rwa [Cace.getVariable, store]
  · cases same
  · cases same
  · obtain rfl := Message.shortAck.inj same
    exact queued

/-- An agent that handles a message of the exchange stays in it. -/
theorem Participant.handles (before : Participant o id c) (member : id ∈ o.ids) {k : Int}
    (source : k ∈ o.ids) (other : k ≠ id) (part : Part o k m)
    (unwrapped : (c.handle r m).lamportTime.wraps = 0) :
    ∃ answers new acks, Contributes o id c (c.handle r m) m answers new acks := by
  cases part with
  | command initiates =>
    have notInitiator : id ≠ o.initiator := fun same => other (initiates.trans same.symm)
    obtain ⟨answers, new, step⟩ := before.takesCommand member notInitiator unwrapped
    exact ⟨answers, new, [], step⟩
  | acknowledge notInitiator sender receivers name value msgID later =>
    obtain ⟨answers, new, step⟩ := @Participant.takesAcknowledge o id r c before member k _ source
      other (.acknowledge notInitiator sender receivers name value msgID later)
    exact ⟨answers, new, [], step⟩
  | shortAck receiver sender receivers msgID =>
    obtain ⟨acks, step⟩ := @Participant.takesShortAck o id r c before member k _ source other
      (.shortAck receiver sender receivers msgID)
    exact ⟨[], [], acks, step⟩

end Participants

section System

variable {o : Opening} {s s' : System}

/-- The exchange, in a system that loses nothing. -/
structure Exchange (o : Opening) (s : System) : Prop where
  ids : s.ids = o.ids
  traced : Traced s
  participants : ∀ id ∈ o.ids, Participant o id (s.agents id)
  circulates : ∀ i ∈ o.ids, ∀ m t, .published m t ∈ (s.agents i).history →
    ∀ j ∈ o.ids, j ≠ i → (j, m) ∈ s.flight ∨ .received m ∈ (s.agents j).history
  opened : ∃ t, .published (.command o.command) t ∈ (s.agents o.initiator).history

/-- What is in flight belongs to the exchange. -/
theorem Exchange.inFlight (before : Exchange o s) {id : Int} {m : Message}
    (inFlight : (id, m) ∈ s.flight) : id ∈ o.ids ∧ ∃ k ∈ o.ids, k ≠ id ∧ Part o k m := by
  obtain ⟨k, member, other, t, published⟩ := before.traced.inFlight id m inFlight
  rw [before.ids] at member
  refine ⟨before.ids ▸ before.traced.routed _ inFlight, k, member, other, ?_⟩
  exact (before.participants k member).published m t published

/-- What a delivery does to the system. -/
structure Delivered (s s' : System) (id : Int) (m : Message) (c : Cace) : Prop where
  inFlight : (id, m) ∈ s.flight
  here : s'.agents id = c
  away : ∀ j, j ≠ id → s'.agents j = s.agents j
  kept : ∀ p ∈ s.flight, p ≠ (id, m) → p ∈ s'.flight
  sends : ∀ later m' t, c.history = (s.agents id).history ++ later → .published m' t ∈ later →
    ∀ j ∈ s.ids, j ≠ id → (j, m') ∈ s'.flight

theorem deliver_spec {id : Int} {r : Readings} {m : Message}
    (next : s.Next (.deliver id r m) s') :
    Delivered s s' id m ((s.agents id).handle r m) := by
  unfold System.Next System.exec at next
  dsimp only at next
  split at next
  next inFlight =>
    obtain rfl := Option.some.inj next
    refine ⟨inFlight, Function.update_self .., fun j other => Function.update_of_ne other _ _,
      fun p waits differs => ?_, fun later m' t history new j member other => ?_⟩
    · exact List.mem_append_left _ ((List.mem_erase_of_ne differs).mpr waits)
    · exact commit_sends history new member other
  next => cases next

/-- A delivery: what is published stays in flight until it has been received. -/
theorem Exchange.deliver {id : Int} {r : Readings} {m : Message} (before : Exchange o s)
    (next : s.Next (.deliver id r m) s') (unwrapped : (s'.agents id).lamportTime.wraps = 0) :
    Exchange o s' := by
  obtain ⟨inFlight, here, away, kept, sends⟩ := deliver_spec next
  obtain ⟨member, k, source, other, part⟩ := before.inFlight inFlight
  obtain ⟨answers, new, acks, step⟩ := (before.participants id member).handles member source other
    part (here ▸ unwrapped)
  have turn := step.turn
  have under : ∀ j m', (j, m') ∈ s.flight ∨ .received m' ∈ (s.agents j).history →
      (j, m') ∈ s'.flight ∨ .received m' ∈ (s'.agents j).history := by
    rintro j m' (waits | old)
    · by_cases delivered : (j, m') = (id, m)
      · obtain ⟨rfl, rfl⟩ := Prod.mk.inj delivered
        right
        rw [here]
        exact turn.received.mpr (.inr rfl)
      · exact .inl (kept _ waits delivered)
    · right
      by_cases own : j = id
      · subst own
        rw [here]
        exact turn.received.mpr (.inl old)
      · rw [away j own]
        exact old
  refine ⟨(system_ids next).trans before.ids, before.traced.step next, fun j inIds => ?_,
    fun i inIds m' t published j inIds' differs => ?_, ?_⟩
  · by_cases own : j = id
    · subst own
      rw [here]
      exact (before.participants j inIds).turn step
    · rw [away j own]
      exact before.participants j inIds
  · by_cases own : i = id
    · subst own
      rw [here] at published
      rcases turn.published.mp published with old | ⟨answer, rfl⟩
      · exact under j m' (before.circulates i inIds m' t old j inIds' differs)
      · obtain ⟨seen, history, -⟩ := turn.history
        rw [List.append_assoc] at history
        exact .inl (sends _ m' _ history (List.mem_append_right _ (List.mem_map_of_mem answer)) j
          (before.ids ▸ inIds') differs)
    · rw [away i own] at published
      exact under j m' (before.circulates i inIds m' t published j inIds' differs)
  · obtain ⟨t, published⟩ := before.opened
    refine ⟨t, ?_⟩
    by_cases own : o.initiator = id
    · rw [own, here]
      exact turn.published.mpr (.inl (own ▸ published))
    · rw [away _ own]
      exact published

/-- The deliveries that follow. -/
theorem Exchange.run {trace : List (System × System.Event)} (before : Exchange o s)
    (run : s.Runs trace s') (delivers : ∀ p ∈ trace, ∃ id r m, p.2 = .deliver id r m)
    (unwrapped : ∀ id ∈ o.ids, (s'.agents id).lamportTime.wraps = 0) : Exchange o s' := by
  induction run with
  | nil => exact before
  | @step trace d d' e run next ih =>
    obtain ⟨id, r, m, rfl⟩ := delivers (d, e) (by simp)
    have exchange : Exchange o d := by
      refine ih (fun p member => delivers p (List.mem_append_left _ member)) fun k member => ?_
      exact ((before.traced.runs run).clock (Run.nil.step next) k (unwrapped k member)).1
    obtain ⟨member, -⟩ := exchange.inFlight (deliver_spec next).inFlight
    exact exchange.deliver next (unwrapped id member)

/-- At rest everything published has been received. -/
theorem Exchange.arrived (before : Exchange o s) (rest : s.flight = []) {i j : Int} {m : Message}
    {t : Transmission} (member : i ∈ o.ids) (published : .published m t ∈ (s.agents i).history)
    (member' : j ∈ o.ids) (differs : j ≠ i) : .received m ∈ (s.agents j).history := by
  rcases before.circulates i member m t published j member' differs with waits | received
  · simp [rest] at waits
  · exact received

/-- At rest the command has arrived. -/
theorem Exchange.commanded (before : Exchange o s) (rest : s.flight = []) {id : Int}
    (member : id ∈ o.ids) (other : id ≠ o.initiator) :
    .received (.command o.command) ∈ (s.agents id).history := by
  obtain ⟨t, published⟩ := before.opened
  exact before.arrived rest o.member published member other

/-- At rest the answer of every agent but the initiator has arrived. -/
theorem Exchange.acknowledged (before : Exchange o s) (rest : s.flight = []) {id : Int}
    (member : id ∈ o.ids) (other : id ≠ o.initiator) : ∃ a, a.senderID = id ∧
      ∀ k ∈ o.ids, k ≠ id → .received (.acknowledge a) ∈ (s.agents k).history := by
  have participant := before.participants id member
  obtain ⟨a, published⟩ := participant.answered _ (before.commanded rest member other)
  refine ⟨a, ?_, fun k member' differs => before.arrived rest member published member' differs⟩
  cases participant.published _ _ published
  assumption

/-- At rest every agent has a record of every other one. -/
theorem Exchange.records (before : Exchange o s) (rest : s.flight = []) {id k : Int}
    (member : id ∈ o.ids) (member' : k ∈ o.ids) (differs : k ≠ id) :
    k ∈ senders o (s.agents id) := by
  have participant := before.participants id member
  by_cases initiates : k = o.initiator
  · have arrived := before.commanded rest member fun same => differs (initiates.trans same.symm)
    rw [initiates, ← o.sender]
    exact participant.heard _ _ arrived rfl
  · obtain ⟨a, rfl, arrived⟩ := before.acknowledged rest member' initiates
    exact participant.heard _ _ (arrived id member (Ne.symm differs)) rfl

/-- At rest the short acknowledges of all others wait at an agent that has answered. -/
theorem Exchange.confirmations (before : Exchange o s) (rest : s.flight = []) {id k : Int}
    (member : id ∈ o.ids) (other : id ≠ o.initiator) (member' : k ∈ o.ids) (differs : k ≠ id) :
    ∃ sa ∈ (s.agents id).shortAcks, sa.senderID = k ∧ sa.msgID = o.command.msgID := by
  obtain ⟨a, sender, arrived⟩ := before.acknowledged rest member other
  have confirming := before.participants k member'
  obtain ⟨sa, published, receivers⟩ := confirming.confirmed a (arrived k member' differs)
  have part := confirming.published _ _ published
  refine ⟨sa, ?_, ?_⟩
  · refine (before.participants id member).queue sa ?_ (sender ▸ receivers)
    exact before.arrived rest member' published member (Ne.symm differs)
  · cases part
    exact ⟨‹_›, ‹_›⟩

/-- What everybody ends with: the value, one proposal with it of everybody else, and no job
that still waits for an answer. -/
structure Complete (x : Name) (value : Bytes) (ids : List Int) (initiator id : Int) (c : Cace) :
    Prop where
  own : ∃ cv, c.getVariable x = some cv ∧ cv.val = value ∧
    (cv.proposals.map fun p => p.robotID).Perm (ids.erase id) ∧ ∀ p ∈ cv.proposals, p.val = value
  starts : id = initiator → ∃ j, .command j ∈ c.jobs
  waits : id ≠ initiator → ∃ j, .commandAcknowledge j ∈ c.jobs
  commands : ∀ j r, .command j ∈ c.jobs →
    (j.process r c).2.2 = true ∧ (j.process r c).2.1.expectedRobotIDs = []
  acknowledges : ∀ j r, .commandAcknowledge j ∈ c.jobs →
    (j.process r c).2.2 = true ∧ (j.process r c).2.1.expectedRobotIDs = []

theorem Exchange.variable (before : Exchange o s) (rest : s.flight = []) {id : Int}
    (member : id ∈ o.ids) : ∃ cv,
      (s.agents id).getVariable o.command.variableName = some cv ∧ cv.val = o.command.value ∧
        (cv.proposals.map fun p => p.robotID).Perm (o.ids.erase id) ∧
        ∀ p ∈ cv.proposals, p.val = o.command.value := by
  have participant := before.participants id member
  have known : (s.agents id).getVariable o.command.variableName ≠ none := by
    by_cases initiates : id = o.initiator
    · exact participant.begun initiates
    · intro none
      have recorded := before.records rest member o.member (Ne.symm initiates)
      simp [senders, registerAt, none] at recorded
  obtain ⟨cv, stored⟩ := Option.ne_none_iff_exists'.mp known
  have register : registerAt (s.agents id) o.command.variableName = some (registerOf cv) := by
    simp [registerAt, stored]
  have sound := participant.sound _ register
  have unanimous := participant.unanimous _ register
  have robots : cv.proposals.map (fun p => p.robotID) = (registerOf cv).records.map Belief.id := by
    simp [registerOf, beliefOf]
  refine ⟨cv, stored, unanimous _ List.mem_cons_self, ?_, fun p proposal => ?_⟩
  · rw [robots, List.perm_ext_iff_of_nodup sound.distinct (o.distinct.erase id)]
    intro k
    rw [o.distinct.mem_erase_iff]
    constructor
    · intro recorded
      obtain ⟨a, inRecords, rfl⟩ := List.mem_map.mp recorded
      exact ⟨sound.foreign a inRecords, (participant.later _ register a inRecords).2⟩
    · rintro ⟨differs, member'⟩
      have recorded := before.records rest member member' differs
      simpa [senders, register] using recorded
  · exact unanimous (beliefOf p) (List.mem_cons_of_mem _ (List.mem_map_of_mem proposal))

/-- Nobody is left whom the command job waits for. -/
theorem Exchange.commandDone (before : Exchange o s) (rest : s.flight = []) {id : Int}
    (member : id ∈ o.ids) {j : CommandJob} (r : Readings)
    (job : .command j ∈ (s.agents id).jobs) :
    (j.process r (s.agents id)).2.1.expectedRobotIDs = [] := by
  have participant := before.participants id member
  obtain ⟨-, clock, pointer, expects⟩ := participant.jobs _ job
  obtain ⟨cv, stored, -, robots, -⟩ := before.variable rest member
  have register : registerAt (s.agents id) o.command.variableName = some (registerOf cv) := by
    simp [registerAt, stored]
  refine List.eq_nil_iff_forall_not_mem.mpr fun k left => ?_
  have erased : (j.process r (s.agents id)).2.1.expectedRobotIDs =
      eraseUpdated ((s.agents id).deref j.variablePtr).proposals j.lamportTime
        j.expectedRobotIDs := rfl
  rw [erased, eraseUpdated, eraseIf_eq_filter, pointer, deref_stored, stored] at left
  obtain ⟨expected, outdated⟩ := List.mem_filter.mp left
  obtain ⟨member', differs⟩ := expects k expected
  have recorded : k ∈ cv.proposals.map fun p => p.robotID :=
    robots.mem_iff.mpr (o.distinct.mem_erase_iff.mpr ⟨differs, member'⟩)
  obtain ⟨p, proposal, rfl⟩ := List.mem_map.mp recorded
  have newer : j.lamportTime ≤ p.lamportAge := by
    rw [clock]
    exact (participant.later _ register (beliefOf p) (List.mem_map_of_mem proposal)).1
  have updated : cv.proposals.any (fun var => var.robotID == p.robotID &&
      decide (j.lamportTime ≤ var.lamportAge)) = true :=
    List.any_eq_true.mpr ⟨p, proposal, by simp [newer]⟩
  simp [updated] at outdated

/-- Nobody is left whom an answering job waits for. -/
theorem Exchange.acknowledgeDone (before : Exchange o s) (rest : s.flight = []) {id : Int}
    (member : id ∈ o.ids) {j : CommandAcknowledgeJob} (r : Readings)
    (job : .commandAcknowledge j ∈ (s.agents id).jobs) :
    (j.process r (s.agents id)).2.1.expectedRobotIDs = [] ∧
      (j.process r (s.agents id)).2.2 = true := by
  have participant := before.participants id member
  obtain ⟨other, msgID, updates, expects⟩ := participant.jobs _ job
  have caught : j.catchUp r (s.agents id) = (s.agents id, j) := by
    simp [CommandAcknowledgeJob.catchUp, participant.plain.direct]
  have answered : eraseAnswered ((s.agents id).getCaceShortAcksAndRemove j.msgID).1
      j.expectedRobotIDs = [] := by
    refine List.eq_nil_iff_forall_not_mem.mpr fun k left => ?_
    obtain ⟨expected, silent⟩ := mem_eraseAnswered_iff.mp left
    obtain ⟨member', differs⟩ := expects k expected
    obtain ⟨sa, waits, sender, same⟩ :=
      before.confirmations rest member other member' differs
    refine silent sa ?_ sender
    exact List.mem_filter.mpr ⟨waits, by simp [same, msgID]⟩
  unfold CommandAcknowledgeJob.process
  simp only [caught, updates, if_true, answered]
  exact ⟨trivial, rfl⟩

/-- At rest the exchange is complete. -/
theorem Exchange.complete (before : Exchange o s) (rest : s.flight = []) {id : Int}
    (member : id ∈ o.ids) : Complete o.command.variableName o.command.value o.ids o.initiator id
      (s.agents id) where
  own := before.variable rest member
  starts := (before.participants id member).starts
  waits other := (before.participants id member).waits _ (before.commanded rest member other)
  commands j r job := by
    have done := before.commandDone rest member r job
    refine ⟨?_, done⟩
    have finished : ((j.process r (s.agents id)).2.1.expectedRobotIDs.isEmpty ||
        decide ((j.process r (s.agents id)).2.1.remainingRetrys ≤ 0) ||
        decide (((s.agents id).deref j.variablePtr).strategy ≤ .fireAndForget)) =
          (j.process r (s.agents id)).2.2 := rfl
    rw [← finished, done]
    rfl
  acknowledges j r job := (before.acknowledgeDone rest member r job).symm

end System

section Call

variable {x : Name} {s s' : System}

/-- Agents that list and do not ignore each other, do not know the variable and have nothing to
do. -/
structure Circle (x : Name) (s : System) : Prop where
  quiescent : Quiescent s
  distinct : s.ids.Nodup
  short : ∀ id ∈ s.ids, toShort id = id ∧ id ≠ broadcastID
  plain : ∀ id ∈ s.ids, Plain (s.agents id)
  ownID : ∀ id ∈ s.ids, (s.agents id).ownID = id ∧ (s.agents id).spaceOwnID = id
  unlisted : ∀ id ∈ s.ids, ∀ k ∈ s.ids, k ≠ id → k ∉ (s.agents id).agentBlacklist
  active : ∀ id ∈ s.ids, ∀ k, k ∈ (s.agents id).activeRobots ↔ k ∈ s.ids ∧ k ≠ id
  unknown : ∀ id ∈ s.ids, (s.agents id).getVariable x = none

/-- What a call does to the system. -/
structure Called (s s' : System) (id : Int) (c : Cace) : Prop where
  here : s'.agents id = c
  away : ∀ j, j ≠ id → s'.agents j = s.agents j
  sends : ∀ later m t, c.history = (s.agents id).history ++ later → .published m t ∈ later →
    ∀ j ∈ s.ids, j ≠ id → (j, m) ∈ s'.flight

theorem call_spec {id : Int} {r : Readings} {value : Bytes} {type : Int}
    {strategy : AcceptStrategy}
    (next : s.Next (.call id r (.distributeValue x value type strategy)) s') :
    Called s s' id (CaceSpace.distributeValue r (s.agents id) x value type strategy) := by
  unfold System.Next System.exec at next
  dsimp only at next
  split at next
  · unfold Cace.exec at next
    obtain rfl := Option.some.inj next
    exact ⟨Function.update_self .., fun j other => Function.update_of_ne other _ _,
      fun later m t history new j member other => commit_sends history new member other⟩
  · cases next

/-- An agent that has heard nothing takes part in any exchange about an unknown variable. -/
theorem Circle.participant {o : Opening} (circle : Circle x s) (ids : o.ids = s.ids)
    (about : o.command.variableName = x) {id : Int} (member : id ∈ s.ids)
    (other : id ≠ o.initiator) : Participant o id (s.agents id) := by
  have idle := circle.quiescent.idle id
  have unknown : (s.agents id).getVariable o.command.variableName = none :=
    about ▸ circle.unknown id member
  have noRegister : registerAt (s.agents id) o.command.variableName = none := by
    simp [registerAt, unknown]
  exact
    { threeWay := by simp [unknown]
      sound := by simp [noRegister]
      unanimous := by simp [noRegister]
      later := by simp [noRegister]
      plain := circle.plain id member
      ownID := (circle.ownID id member).1
      unlisted := ids ▸ circle.unlisted id member
      active := fun k active => ids ▸ (circle.active id member k).mp active
      received := by simp [idle.history]
      published := by simp [idle.history]
      heard := by simp [idle.history]
      begun := fun initiates => absurd initiates other
      answered := by simp [idle.history]
      confirmed := by simp [idle.history]
      queue := by simp [idle.history]
      jobs := by simp [idle.jobs]
      starts := fun initiates => absurd initiates other
      waits := by simp [idle.history] }

/-- The agent that opens an exchange, right after its call. -/
structure Initiates (o : Opening) (c : Cace) : Prop where
  known : ∃ cv, c.getVariable o.command.variableName = some cv ∧
    ThreeWay o.command.variableName cv
  register : registerAt c o.command.variableName =
    some ⟨⟨o.initiator, o.clock, o.command.value⟩, []⟩
  history : c.history = [.published (.command o.command) .first]
  job : ∃ j : CommandJob, c.jobs = [.command j] ∧ j.lamportTime = o.clock ∧
    j.variablePtr = .stored o.command.variableName ∧ j.expectedRobotIDs = c.activeRobots
  plain : Plain c
  ownID : c.ownID = o.initiator
  unlisted : ∀ k ∈ o.ids, k ≠ o.initiator → k ∉ c.agentBlacklist
  active : ∀ k ∈ c.activeRobots, k ∈ o.ids ∧ k ≠ o.initiator

/-- It takes part in the exchange. -/
theorem Initiates.participant {o : Opening} {c : Cace} (initiates : Initiates o c) :
    Participant o o.initiator c := by
  obtain ⟨cv, known, threeWay⟩ := initiates.known
  obtain ⟨j, jobs, clock, pointer, expected⟩ := initiates.job
  have only := initiates.history
  exact
    { threeWay := fun cv' found => by
        obtain rfl := Option.some.inj (known.symm.trans found)
        exact threeWay
      sound := fun reg found => by
        obtain rfl := Option.some.inj (initiates.register.symm.trans found)
        exact ⟨rfl, List.nodup_nil, by simp⟩
      unanimous := fun reg found a inRegister => by
        obtain rfl := Option.some.inj (initiates.register.symm.trans found)
        obtain rfl := List.mem_singleton.mp inRegister
        rfl
      later := fun reg found a inRecords => by
        obtain rfl := Option.some.inj (initiates.register.symm.trans found)
        cases inRecords
      plain := initiates.plain
      ownID := initiates.ownID
      unlisted := initiates.unlisted
      active := initiates.active
      received := by simp [only]
      published := fun m t published => by
        obtain ⟨rfl, -⟩ : m = .command o.command ∧ t = .first := by simpa [only] using published
        exact .command rfl
      heard := by simp [only]
      begun := fun _ => by
        rw [known]
        exact Option.some_ne_none _
      answered := by simp [only]
      confirmed := by simp [only]
      queue := by simp [only]
      jobs := fun job here => by
        rw [jobs] at here
        obtain rfl := List.mem_singleton.mp here
        refine ⟨rfl, clock, pointer, ?_⟩
        rw [expected]
        exact initiates.active
      starts := fun _ => ⟨j, jobs ▸ List.mem_singleton_self _⟩
      waits := by simp [only] }

/-- The other agents have heard nothing yet, and the command is on its way to each of them. -/
theorem Circle.exchange {o : Opening} {c : Cace} (circle : Circle x s) (ids : o.ids = s.ids)
    (about : o.command.variableName = x) (same : s'.ids = s.ids) (traced : Traced s')
    (called : Called s s' o.initiator c) (initiates : Initiates o (s'.agents o.initiator)) :
    Exchange o s' := by
  have idle := circle.quiescent.idle o.initiator
  have only := initiates.history
  refine ⟨same.trans ids.symm, traced, fun j inIds => ?_,
    fun i inIds m t published j inIds' differs => ?_, .first, ?_⟩
  · by_cases here : j = o.initiator
    · rw [here]
      exact initiates.participant
    · rw [called.away j here]
      exact circle.participant ids about (ids ▸ inIds) here
  · by_cases here : i = o.initiator
    · subst here
      have sent : c.history = (s.agents o.initiator).history ++
          [.published (.command o.command) .first] := by
        rw [← called.here, only, idle.history, List.nil_append]
      refine .inl (called.sends _ m t sent ?_ j (ids ▸ inIds') differs)
      simpa [only] using published
    · rw [called.away i here, (circle.quiescent.idle i).history] at published
      cases published
  · rw [only]
    exact List.mem_singleton_self _

/-- The opening of a call. -/
def Circle.opening {id : Int} {value : Bytes} {cmd : CaceCommand} {j : CommandJob}
    (circle : Circle x s) (member : id ∈ s.ids) (opens : Opens x value (s.agents id) cmd j)
    (unwrapped : (s.agents id).lamportTime.tick.wraps = 0) : Opening where
  ids := s.ids
  initiator := id
  clock := (s.agents id).lamportTime.time
  command := cmd
  distinct := circle.distinct
  member := member
  short := circle.short
  sender := by
    rw [opens.sender, (circle.ownID id member).1]
    exact (circle.short id member).1
  receivers := opens.receivers
  level := opens.level
  word := opens.word
  later := by
    rw [opens.stamp, LamportClock.tick_time unwrapped]
    exact Nat.le_succ _

/-- The call opens the exchange. -/
theorem Circle.call {id : Int} {r : Readings} {value : Bytes} {type : Int}
    (circle : Circle x s) (member : id ∈ s.ids)
    (next : s.Next (.call id r (.distributeValue x value type .threeWayHandShake)) s')
    (unwrapped : (s'.agents id).lamportTime.wraps = 0) :
    ∃ o : Opening, Exchange o s' ∧ o.ids = s.ids ∧ o.initiator = id ∧
      o.command.variableName = x ∧ o.command.value = value := by
  have spec := call_spec next
  have idle := circle.quiescent.idle id
  obtain ⟨cmd, j, cv, call⟩ := @distributes x r (s.agents id) value type (circle.plain id member)
    (by simp [circle.unknown id member])
  rw [← spec.here] at call
  have about := call.name
  let o := circle.opening member call.toOpens (call.clock ▸ unwrapped)
  have initiates : Initiates o (s'.agents id) :=
    { known := ⟨cv, about ▸ call.stored, about ▸ call.threeWay⟩
      register := by
        have none : registerAt (s.agents id) x = none := by
          simp [registerAt, circle.unknown id member]
        have register := call.register
        rw [none, (circle.ownID id member).2] at register
        change registerAt (s'.agents id) cmd.variableName = some ⟨⟨id, _, cmd.value⟩, []⟩
        rw [about, call.carries, registerAt, call.stored, Option.map_some, register]
        rfl
      history := by
        rw [call.history, idle.history]
        rfl
      job := by
        refine ⟨j, ?_, call.waits, about ▸ call.pointer, call.expected.trans call.robots.symm⟩
        rw [call.jobs, idle.jobs]
        rfl
      plain := (circle.plain id member).of_config call.config
      ownID := (congrArg Config.ownID call.config).trans (circle.ownID id member).1
      unlisted := fun k member' other => by
        have listed : (s'.agents id).agentBlacklist = (s.agents id).agentBlacklist :=
          congrArg Config.agentBlacklist call.config
        rw [listed]
        exact circle.unlisted id member k member' other
      active := fun k active => by
        rw [call.robots] at active
        exact (circle.active id member k).mp active }
  refine ⟨o, ?_, rfl, rfl, about, call.carries⟩
  exact circle.exchange rfl about (system_ids next) (circle.quiescent.traced.step next) spec
    initiates

/-- A single command of a circle completes, in whatever order everything is delivered, unless a
clock wraps. -/
theorem single_command_completes {start : System} {trace : List (System × System.Event)}
    (circle : Circle x start) {id : Int} (member : id ∈ start.ids) {r : Readings} {value : Bytes}
    {type : Int}
    (called : start.Next (.call id r (.distributeValue x value type .threeWayHandShake)) s)
    (run : s.Runs trace s') (delivers : ∀ p ∈ trace, ∃ k r m, p.2 = .deliver k r m)
    (rest : s'.flight = [])
    (unwrapped : ∀ k ∈ start.ids, (s'.agents k).lamportTime.wraps = 0) :
    ∀ k ∈ start.ids, Complete x value start.ids id k (s'.agents k) := by
  have traced : Traced s := circle.quiescent.traced.step called
  have earlier := (traced.clock run id (unwrapped id member)).1
  obtain ⟨o, opened, ids, rfl, rfl, rfl⟩ := circle.call member called earlier
  rw [← ids] at unwrapped ⊢
  have exchange := opened.run run delivers unwrapped
  exact fun k inIds => exchange.complete rest inIds

end Call

section Examples

/-- New agents that list each other, at these times. -/
def circleOf (ids : List Int) (clock : Int → Nat) : System where
  ids := ids
  agents id :=
    { Cace.construct id false 10 with
      lamportTime := { time := clock id }
      activeRobots := ids.erase id }
  flight := []

theorem circleOf_circle {ids : List Int} {clock : Int → Nat} (x : Name) (distinct : ids.Nodup)
    (short : ∀ id ∈ ids, toShort id = id ∧ id ≠ broadcastID) : Circle x (circleOf ids clock) where
  quiescent := ⟨fun _ => ⟨rfl, rfl, rfl, rfl, rfl, rfl⟩, rfl⟩
  distinct := distinct
  short := short
  plain _ _ := ⟨rfl, rfl⟩
  ownID id member := ⟨(short id member).1, (short id member).1⟩
  unlisted id member k _ other := by
    change k ∉ [toShort id]
    rw [(short id member).1]
    exact fun listed => other (List.mem_singleton.mp listed)
  active id member k := distinct.mem_erase_iff.trans And.comm
  unknown _ _ := rfl

/-- Both agents of a circle of two, with the clock of agent 1 at `time`. -/
def pair (time : Nat) : System :=
  circleOf [1, 2] fun id => if id = 1 then time else 3

theorem pair_circle (x : Name) (time : Nat) : Circle x (pair time) :=
  circleOf_circle x (by decide) (by decide)

/-- The call of agent 1. -/
def pairCommanded (time : Nat) : System :=
  (pair time).commit 1
    (CaceSpace.distributeValue .zero ((pair time).agents 1) ['x'] [7] 0 .threeWayHandShake)

theorem pairCommanded_next (time : Nat) :
    (pair time).Next (.call 1 .zero (.distributeValue ['x'] [7] 0 .threeWayHandShake))
      (pairCommanded time) := rfl

/-- The command, its acknowledge and the short acknowledge. -/
def roundTrip (msgID : Int) (command acknowledge shortAck : Nat) : List System.Event :=
  [.deliver 2 .zero (.command ⟨1, [0], ['x'], [7], 0, longMax, 70, msgID, command, 0⟩),
    .deliver 1 .zero (.acknowledge ⟨2, [0], ['x'], [7], msgID, acknowledge, 0⟩),
    .deliver 2 .zero (.shortAck ⟨1, [2], ['x'], msgID, shortAck⟩)]

theorem roundTrip_delivers {start s : System} {msgID : Int} {command acknowledge shortAck : Nat}
    {trace : List (System × System.Event)}
    (played : start.play (roundTrip msgID command acknowledge shortAck) = some (trace, s)) :
    ∀ p ∈ trace, ∃ k r m, p.2 = .deliver k r m := by
  intro p member
  have event := List.mem_map_of_mem (f := Prod.snd) member
  rw [(System.play_runs played).2] at event
  simp only [roundTrip, List.mem_cons, List.not_mem_nil, or_false] at event
  rcases event with event | event | event <;> exact ⟨_, _, _, event⟩

/-- The exchange between two agents. -/
theorem single_command_completes_pair : ∃ trace s,
    (pairCommanded 5).play (roundTrip 105 6 7 9) = some (trace, s) ∧
      ∀ k ∈ [1, 2], Complete ['x'] [7] [1, 2] 1 k (s.agents k) := by
  have played : (pairCommanded 5).play (roundTrip 105 6 7 9) = some _ := rfl
  refine ⟨_, _, played, single_command_completes (pair_circle ['x'] 5) (by decide)
    (pairCommanded_next 5) (System.play_runs played).1 (roundTrip_delivers played) rfl ?_⟩
  decide

/-- A clock that wraps: the command carries the time zero, and agent 1 still waits for a proposal
that is as late as its own belief. -/
theorem single_command_completes_wraps : ∃ trace s,
    Circle ['x'] (pair (2 ^ 64 - 1)) ∧
      (pair (2 ^ 64 - 1)).Next
        (.call 1 .zero (.distributeValue ['x'] [7] 0 .threeWayHandShake))
        (pairCommanded (2 ^ 64 - 1)) ∧
      (pairCommanded (2 ^ 64 - 1)).Runs trace s ∧ (∀ p ∈ trace, ∃ k r m, p.2 = .deliver k r m) ∧
      s.flight = [] ∧ ¬ ∀ k ∈ [1, 2], Complete ['x'] [7] [1, 2] 1 k (s.agents k) := by
  have played : (pairCommanded (2 ^ 64 - 1)).play (roundTrip 99 0 3 5) = some _ := rfl
  refine ⟨_, _, pair_circle ['x'] _, pairCommanded_next _, (System.play_runs played).1,
    roundTrip_delivers played, rfl, fun complete => ?_⟩
  have process := (complete 1 (by decide)).commands _ .zero List.mem_cons_self
  revert process
  decide

end Examples

end CaceProofs.Guarantees
