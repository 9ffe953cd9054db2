import CaceProofs.Guarantees.Retransmission
import CaceProofs.Guarantees.SingleWriter

/-!
# The three way handshake

What `distributeValue` and the handlers of commands and acknowledges do to an agent whose variable
has the level of the three way handshake: what the variable is afterwards, and what goes out.
-/
namespace CaceProofs.Guarantees
open Source Library

section Variable

/-- The variable and its proposals have that name and the level of the three way handshake. -/
def ThreeWay (x : Name) (cv : ConsensusVariable) : Prop :=
  ∀ b ∈ cv.toBelieve :: cv.proposals, b.name = x ∧ b.strategy = .threeWayHandShake

variable {x : Name}

theorem ThreeWay.default {cv : ConsensusVariable} (threeWay : ThreeWay x cv) :
    DefaultStrategies cv := by
  intro b member
  rw [(threeWay b member).2]
  rfl

/-- A report that carries no other level leaves it that way. -/
theorem ThreeWay.updated {u : ProposalUpdate} {old : Option ConsensusVariable}
    (here : u.variableName = x) (level : ∀ s, u.message.strategy? = some s → s = .threeWayHandShake)
    (before : ∀ cv, old = some cv → ThreeWay x cv) : ThreeWay x (updated u old) := by
  refine @Graded.strategy_updated x (fun s => s = .threeWayHandShake) u old here level ?_ before
  intro absent
  cases carried : u.message.strategy? with
  | none => rfl
  | some s => exact level s carried

end Variable

section Turns

variable {c c' : Cace}

/-- An agent handles a message: what it answers, what waits for the others, and what it keeps. -/
structure Turn (c c' : Cace) (m : Message) (answers : List Message) (new : List Job)
    (acks : List CaceShortAck) : Prop where
  config : Guarantees.config c' = Guarantees.config c
  robots : c'.activeRobots = c.activeRobots
  history : ∃ seen, c'.history =
    c.history ++ .received m :: seen ++ answers.map (fun m => .published m .first) ∧
      ∀ o ∈ seen, o = .applied m ∨ ∃ name, o = .notified name
  jobs : c'.jobs = c.jobs ++ new
  shortAcks : c'.shortAcks = c.shortAcks ++ acks

variable {m : Message} {answers : List Message} {new : List Job} {acks : List CaceShortAck}

theorem Turn.received (turn : Turn c c' m answers new acks) {m' : Message} :
    .received m' ∈ c'.history ↔ .received m' ∈ c.history ∨ m' = m := by
  obtain ⟨seen, history, silent⟩ := turn.history
  have none : .received m' ∉ seen := by
    intro member
    rcases silent _ member with applied | ⟨name, notified⟩
    · cases applied
    · cases notified
  rw [history]
  simp [none]

theorem Turn.published (turn : Turn c c' m answers new acks) {m' : Message} {t : Transmission} :
    .published m' t ∈ c'.history ↔
      .published m' t ∈ c.history ∨ m' ∈ answers ∧ t = .first := by
  obtain ⟨seen, history, silent⟩ := turn.history
  have none : .published m' t ∉ seen := by
    intro member
    rcases silent _ member with applied | ⟨name, notified⟩
    · cases applied
    · cases notified
  rw [history]
  simp [none, eq_comm]

/-- An answer at the next time, and the job that waits for what comes back. -/
theorem answer_tick (c : Cace) (answer : Message) (job : Job) :
    (c.tickLamportTime.publish answer .first).appendJob job =
      { c with
        lamportTime := c.lamportTime.tick
        history := c.history ++ [.published answer .first]
        jobs := c.jobs ++ [job] } := rfl

/-- A report that is received and applied, with an answer and a job at the end. -/
theorem turn_of_update {u : ProposalUpdate} {answer : Message} {job : Job} {t : LamportTime}
    {updated : Cace} (update : updated = (c.receive m).updateVariable u) (message : u.message = m)
    (same : c' =
      { updated with
        lamportTime := t
        history := updated.history ++ [.published answer .first]
        jobs := updated.jobs ++ [job] }) :
    Turn c c' m [answer] [job] [] := by
  have frame := updateVariable_frame (c.receive m) u
  have received := receive_config c m
  obtain ⟨seen, history, notified⟩ := updateVariable_history (c.receive m) u
  subst update same
  refine ⟨?_, ?_, ⟨.applied m :: seen, ?_, fun o member => ?_⟩, ?_, ?_⟩
  · rw [← received, frame]
    rfl
  · rw [frame]
    unfold Cace.receive
    split <;> rfl
  · simp [history, receive_history, message]
  · rcases List.mem_cons.mp member with rfl | later
    · exact .inl rfl
    · exact .inr ⟨_, notified o later⟩
  · rw [frame]
    unfold Cace.receive
    split <;> rfl
  · rw [frame, List.append_nil]
    unfold Cace.receive
    split <;> rfl

theorem addressed_broadcast (c : Cace) : c.addressed [broadcastID] = true := by
  simp [Cace.addressed]

theorem receive_robots (c : Cace) (m : Message) : (c.receive m).activeRobots = c.activeRobots := by
  unfold Cace.receive
  split <;> rfl

/-- A message that is received, and queued if it is for the agent. -/
theorem turn_of_receive (same : c' = { c.receive m with shortAcks := c.shortAcks ++ acks }) :
    Turn c c' m [] [] acks := by
  have received := receive_config c m
  subst same
  refine ⟨received, receive_robots c m, ⟨[], ?_, by simp⟩, ?_, rfl⟩
  · simp [receive_history]
  · rw [List.append_nil]
    unfold Cace.receive
    split <;> rfl

end Turns

section Handlers

variable {x : Name} {r : Readings} {c c' : Cace}

/-- The variable of an agent that has applied a report. -/
structure Applied (x : Name) (c c' : Cace) (b : Belief Int Bytes) (cv : ConsensusVariable) :
    Prop where
  stored : c'.getVariable x = some cv
  threeWay : ThreeWay x cv
  register : registerOf cv = Register.receive c.ownID b (registerAt c x)

theorem Applied.registerAt {b : Belief Int Bytes} {cv : ConsensusVariable}
    (applied : Applied x c c' b cv) :
    registerAt c' x = some (Register.receive c.ownID b (Guarantees.registerAt c x)) := by
  rw [Guarantees.registerAt, applied.stored, ← applied.register]
  rfl

/-- A report that is received and applied. -/
theorem applied_update {m : Message} {u : ProposalUpdate}
    (before : ∀ cv, c.getVariable x = some cv → ThreeWay x cv) (own : u.ownID = c.ownID)
    (here : u.variableName = x)
    (level : ∀ s, u.message.strategy? = some s → s = .threeWayHandShake) :
    ∃ cv, Applied x c ((c.receive m).updateVariable u) (reported u.toReport) cv := by
  have known : (c.receive m).getVariable x = c.getVariable x :=
    congrArg (fun store => store.lookup x) (receive_store c m)
  have register := @registerAt_updateVariable (c.receive m) x u
    (fun s carried => by rw [level s carried]; rfl)
    (fun cv stored => (before cv (known ▸ stored)).default) here
  rw [registerAt_receive, own] at register
  obtain ⟨cv, stored, same⟩ := Option.map_eq_some_iff.mp register
  refine ⟨cv, stored, ?_, same⟩
  rw [getVariable_updateVariable, if_pos here.symm] at stored
  obtain rfl := Option.some.inj stored
  refine ThreeWay.updated here level fun cv old => before cv ?_
  rw [← known, ← here]
  exact old

/-- The acknowledge of a command, with what the agent believes then. -/
def answerOf (c : Cace) (cmd : CaceCommand) (cv : ConsensusVariable) : CaceAcknowledge where
  senderID := toShort c.ownID
  receiverID := [broadcastID]
  variableName := cv.name
  value := cv.val
  msgID := toShort (toShort cmd.msgID)
  lamportTime := (c.lamportTime.witness cmd.lamportTime).time
  type := toTypeTag cv.type

/-- A command of the handshake is applied and answered. -/
theorem takes_command {cmd : CaceCommand} (plain : Plain c)
    (reaches : Reaches (.command cmd) c cmd.receiverID)
    (level : cmd.level = AcceptStrategy.threeWayHandShake.code) (here : cmd.variableName = x)
    (before : ∀ cv, c.getVariable x = some cv → ThreeWay x cv) :
    ∃ cv, Applied x c (c.handle r (.command cmd)) ⟨cmd.senderID, cmd.lamportTime, cmd.value⟩ cv ∧
      (∃ job : CommandAcknowledgeJob, job.msgID = toShort cmd.msgID ∧
        job.updatedOwnBelieve = true ∧ job.expectedRobotIDs = c.activeRobots ∧
        Turn c (c.handle r (.command cmd)) (.command cmd) [.acknowledge (answerOf c cmd cv)]
          [.commandAcknowledge job] []) ∧
      (c.handle r (.command cmd)).lamportTime = c.lamportTime.witness cmd.lamportTime := by
  have answered : AcceptStrategy.fireAndForget.code < cmd.level := by
    rw [level]
    decide
  have own : (c.receive (.command cmd)).ownID = c.ownID :=
    congrArg Config.ownID (receive_config c (.command cmd))
  obtain ⟨cv, applied⟩ := @applied_update _ c (.command cmd)
    (commandUpdate r (c.receive (.command cmd)).ownID cmd) before own here
    fun s carried => Option.some.inj carried ▸ congrArg AcceptStrategy.mk level
  have stored : (tookCommand r c cmd).getVariable x = some cv := applied.stored
  have frame := tookCommand_frame r c cmd
  have clock : (tookCommand r c cmd).lamportTime = c.lamportTime.witness cmd.lamportTime := by
    rw [frame]
    rfl
  have deref : (tookCommand r c cmd).deref (.stored cmd.variableName) = cv := by
    rw [here, deref_stored, stored, Option.getD_some]
  have answer : commandAnswer (tookCommand r c cmd) cmd = answerOf c cmd cv := by
    have sender : (tookCommand r c cmd).ownID = c.ownID := by
      rw [frame]
      exact own
    unfold commandAnswer answerOf
    rw [deref, clock, sender]
    rfl
  have handled := @handle_command r c cmd plain reaches answered
  rw [answer] at handled
  have after : (c.handle r (.command cmd)).getVariable x = some cv := by
    rw [handled]
    exact stored
  refine ⟨cv, ⟨after, applied.threeWay, applied.register⟩, ⟨_, rfl, rfl, ?_,
    @turn_of_update c _ _ (commandUpdate r _ cmd) _ _ _ (tookCommand r c cmd) rfl rfl handled⟩, ?_⟩
  · change (tookCommand r c cmd).activeRobots = c.activeRobots
    rw [frame]
    exact receive_robots c _
  · rw [handled]
    exact clock

/-- The short acknowledge of an acknowledge. -/
def confirmationOf (c : Cace) (a : CaceAcknowledge) (cv : ConsensusVariable) : CaceShortAck where
  senderID := toShort c.ownID
  receiverID := [toShort a.senderID]
  variableName := cv.name
  msgID := toShort a.msgID
  lamportTime := (c.lamportTime.witness a.lamportTime).tick.time

/-- An acknowledge of the handshake is applied and confirmed. -/
theorem takes_acknowledge {a : CaceAcknowledge} (plain : Plain c)
    (reaches : Reaches (.acknowledge a) c a.receiverID) (here : a.variableName = x)
    (before : ∀ cv, c.getVariable x = some cv → ThreeWay x cv) :
    ∃ cv, Applied x c (c.handle r (.acknowledge a)) ⟨a.senderID, a.lamportTime, a.value⟩ cv ∧
      (∃ job : ShortAckJob, Turn c (c.handle r (.acknowledge a)) (.acknowledge a)
        [.shortAck (confirmationOf c a cv)] [.shortAck job] []) ∧
      (c.handle r (.acknowledge a)).lamportTime = (c.lamportTime.witness a.lamportTime).tick := by
  have own : (c.receive (.acknowledge a)).ownID = c.ownID :=
    congrArg Config.ownID (receive_config c (.acknowledge a))
  obtain ⟨cv, applied⟩ := @applied_update _ c (.acknowledge a)
    (acknowledgeUpdate r (c.receive (.acknowledge a)).ownID a) before own here
    fun s none => by cases none
  have stored : (tookAcknowledge r c a).getVariable x = some cv := applied.stored
  have frame := tookAcknowledge_frame r c a
  have clock : (tookAcknowledge r c a).lamportTime = c.lamportTime.witness a.lamportTime := by
    rw [frame]
    rfl
  have deref : (tookAcknowledge r c a).deref (.stored a.variableName) = cv := by
    rw [here, deref_stored, stored, Option.getD_some]
  have confirms : .twoWayHandShake <
      ((tookAcknowledge r c a).deref (.stored a.variableName)).strategy := by
    rw [deref, (applied.threeWay _ List.mem_cons_self).2]
    decide
  have answer : acknowledgeAnswer (tookAcknowledge r c a) a = confirmationOf c a cv := by
    have sender : (tookAcknowledge r c a).ownID = c.ownID := by
      rw [frame]
      exact own
    unfold acknowledgeAnswer confirmationOf
    rw [deref, clock, sender]
  have handled := @handle_acknowledge r c a plain reaches
  rw [if_pos confirms, answer, answer_tick] at handled
  have after : (c.handle r (.acknowledge a)).getVariable x = some cv := by
    rw [handled]
    exact stored
  refine ⟨cv, ⟨after, applied.threeWay, applied.register⟩, ⟨_,
    @turn_of_update c _ _ (acknowledgeUpdate r _ a) _ _ _ (tookAcknowledge r c a) rfl rfl
      handled⟩, ?_⟩
  rw [handled]
  change (tookAcknowledge r c a).lamportTime.tick = _
  rw [clock]

end Handlers

section Calls

variable {x : Name} {r : Readings} {c c' : Cace} {value : Bytes} {type : Int}

theorem distributedCommand_word (c : Cace) (name : Name) (value : Bytes) :
    toShort (distributedCommand c name value).msgID = (distributedCommand c name value).msgID := by
  unfold distributedCommand Cace.commandMessage
  dsimp only
  rw [makeMsgID_short c, makeMsgID_short c]

/-- The command of a call, and the job that waits for its answers. -/
structure Opens (x : Name) (value : Bytes) (c : Cace) (cmd : CaceCommand) (j : CommandJob) :
    Prop where
  sender : cmd.senderID = toShort c.ownID
  receivers : cmd.receiverID = [broadcastID]
  level : cmd.level = AcceptStrategy.threeWayHandShake.code
  name : cmd.variableName = x
  carries : cmd.value = value
  word : toShort cmd.msgID = cmd.msgID
  stamp : cmd.lamportTime = c.lamportTime.tick.time
  waits : j.lamportTime = c.lamportTime.time
  pointer : j.variablePtr = .stored x
  expected : j.expectedRobotIDs = c.activeRobots

/-- The agent after a call that has distributed the variable. -/
structure Distributed (x : Name) (value : Bytes) (c c' : Cace) (cmd : CaceCommand)
    (j : CommandJob) (cv : ConsensusVariable) : Prop extends Opens x value c cmd j where
  stored : c'.getVariable x = some cv
  threeWay : ThreeWay x cv
  register : registerOf cv =
    Register.decide c.spaceOwnID c.lamportTime.time value (registerAt c x)
  config : Guarantees.config c' = Guarantees.config c
  robots : c'.activeRobots = c.activeRobots
  clock : c'.lamportTime = c.lamportTime.tick
  history : c'.history = c.history ++ [.published (.command cmd) .first]
  jobs : c'.jobs = c.jobs ++ [.command j]

/-- The level of the variable after a call. -/
theorem threeWay_decided (before : ∀ cv, c.getVariable x = some cv → ThreeWay x cv) :
    ThreeWay x (decided r c x value type .threeWayHandShake (c.getVariable x)) := by
  cases known : c.getVariable x with
  | none =>
    intro b member
    obtain rfl := List.mem_singleton.mp member
    exact ⟨rfl, rfl⟩
  | some cv =>
    intro b member
    rcases List.mem_cons.mp member with rfl | proposal
    · exact ⟨(before cv known _ List.mem_cons_self).1, rfl⟩
    · exact before cv known b (List.mem_cons_of_mem _ proposal)

theorem distributes (plain : Plain c) (before : ∀ cv, c.getVariable x = some cv → ThreeWay x cv) :
    ∃ cmd j cv, Distributed x value c
      (CaceSpace.distributeValue r c x value type .threeWayHandShake) cmd j cv := by
  have sent := @distributeValue_plain r c x value type .threeWayHandShake plain (by decide)
  have frame := decideValue_frame r c x value type .threeWayHandShake
  have stored := getVariable_decideValue r c x value type .threeWayHandShake x
  have register := registerAt_decideValue r c x value type .threeWayHandShake
  have threeWay := @threeWay_decided x r c value type before
  dsimp only at sent
  rw [if_pos rfl] at stored
  generalize CaceSpace.decideValue r c x value type .threeWayHandShake = d
    at sent frame stored register
  generalize decided r c x value type .threeWayHandShake (c.getVariable x) = cv at stored threeWay
  have deref : d.deref (.stored x) = cv := by
    rw [deref_stored, stored, Option.getD_some]
  obtain ⟨name, level⟩ := threeWay _ List.mem_cons_self
  have clock : d.lamportTime = c.lamportTime := by rw [frame]
  rw [sent]
  refine ⟨distributedCommand d x value, distributedJob r d x value, cv,
    { sender := ?_, receivers := rfl, level := ?_, name := ?_, carries := rfl
      word := distributedCommand_word d x value, stamp := ?_
      waits := congrArg LamportClock.time clock, pointer := rfl, expected := ?_
      stored := stored, threeWay := threeWay, register := ?_, config := ?_, robots := ?_
      clock := congrArg LamportClock.tick clock, history := ?_, jobs := ?_ }⟩
  · change toShort d.ownID = toShort c.ownID
    rw [frame]
  · change toShort (d.deref (.stored x)).strategy.code = _
    rw [deref, level]
    rfl
  · change (d.deref (.stored x)).name = x
    rw [deref]
    exact name
  · change d.lamportTime.tick.time = _
    rw [clock]
  · change d.activeRobots = c.activeRobots
    rw [frame]
  · rw [registerAt, stored] at register
    exact Option.some.inj register
  · rw [frame]
    rfl
  · rw [frame]
    rfl
  · change d.history ++ _ = _
    rw [frame]
  · change d.jobs ++ _ = c.jobs ++ _
    rw [frame]

end Calls

end CaceProofs.Guarantees
