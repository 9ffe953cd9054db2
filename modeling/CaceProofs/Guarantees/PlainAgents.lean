import CaceProofs.Guarantees.Acceptance
import CaceProofs.Guarantees.EventEffects

/-!
# The handshake at a plain agent

An agent with the standard communication module and safe step mode off answers at once.
What the handlers of the three handshake messages and `distributeValue` leave behind is
written out here in full.
-/
namespace CaceProofs.Guarantees
open Source Library

/-- The communication module is not the quiet one and safe step mode is off. -/
structure Plain (c : Cace) : Prop where
  loud : c.quiet = false
  direct : c.safeStepMode = false

theorem Plain.of_config {c c' : Cace} (plain : Plain c)
    (same : Guarantees.config c' = Guarantees.config c) : Plain c' :=
  ⟨(congrArg Config.quiet same).trans plain.loud,
    (congrArg Config.safeStepMode same).trans plain.direct⟩

theorem deref_stored (c : Cace) (name : Name) :
    c.deref (.stored name) = (c.getVariable name).getD default := rfl

/-- The agent after a command has been received and has updated the variable. -/
def tookCommand (r : Readings) (c : Cace) (m : CaceCommand) : Cace :=
  CommandAcknowledgeJob.doVariableUpdate r (c.receive (.command m)) m

/-- The acknowledge of a command. -/
def commandAnswer (c : Cace) (m : CaceCommand) : CaceAcknowledge :=
  let cv := c.deref (.stored m.variableName)
  { senderID := toShort c.ownID
    receiverID := [toShort 0]
    variableName := cv.name
    value := cv.val
    msgID := toShort (toShort m.msgID)
    lamportTime := c.lamportTime.time
    type := toTypeTag cv.type }

/-- The job that waits for the short acknowledges of the answer. -/
def commandAnswerJob (r : Readings) (c : Cace) (m : CaceCommand) : CommandAcknowledgeJob where
  expectedRobotIDs := c.activeRobots
  lamportTime := c.lamportTime.time
  attempts := 0
  msgID := toShort m.msgID
  command := m
  remainingRetrys := 1
  cv := some (.stored m.variableName)
  updatedOwnBelieve := true
  entities := makeEntities (r.startTimes c.jobs.length) c.activeRobots maxRetrys
  ownLamportTime := 0

theorem tookCommand_frame (r : Readings) (c : Cace) (m : CaceCommand) :
    tookCommand r c m =
      { c.receive (.command m) with
        store := (tookCommand r c m).store
        history := (tookCommand r c m).history } :=
  updateVariable_frame _ _

/-- A command that asks for an answer. -/
theorem handle_command {r : Readings} {c : Cace} {m : CaceCommand} (plain : Plain c)
    (reaches : Reaches (.command m) c m.receiverID)
    (answered : AcceptStrategy.fireAndForget.code < m.level) :
    c.handle r (.command m) =
      ((tookCommand r c m).publish (.acknowledge (commandAnswer (tookCommand r c m) m))
        .first).appendJob (.commandAcknowledge (commandAnswerJob r (tookCommand r c m) m)) := by
  have stamped : c.stampedCommand m = m := by simp [Cace.stampedCommand, plain.loud]
  have passes : c.isBlacklisted m.senderID = false := by
    simpa [Cace.isBlacklisted, Message.senderID] using reaches.unlisted
  have here : (c.receive (.command m)).addressed m.receiverID = true := reaches.addressed
  have direct : (c.receive (.command m)).safeStepMode = false := plain.direct
  have frame := tookCommand_frame r c m
  have loud : (tookCommand r c m).quiet = false := by rw [frame]; exact plain.loud
  have clock : (tookCommand r c m).lamportTime = (c.receive (.command m)).lamportTime := by
    rw [frame]
  have robots : (tookCommand r c m).activeRobots = (c.receive (.command m)).activeRobots := by
    rw [frame]
  unfold Cace.handle
  dsimp only
  rw [stamped]
  unfold Cace.handleCaceCommand
  rw [passes]
  change (if (c.receive (.command m)).addressed m.receiverID = true then _ else _) = _
  rw [if_pos here]
  change (CommandAcknowledgeJob.construct r (c.receive (.command m)) _ _ m).1.appendJob
    (.commandAcknowledge (CommandAcknowledgeJob.construct r (c.receive (.command m)) _ _ m).2) = _
  unfold CommandAcknowledgeJob.construct
  simp only [direct, answered, if_true]
  change ((tookCommand r c m).sendCaceAcknowledgeAt _ _ _ _ _ _ _).appendJob _ = _
  unfold Cace.sendCaceAcknowledgeAt Cace.publishUnlessQuiet
  simp only [loud]
  unfold commandAnswerJob commandAnswer
  rw [clock, robots]
  rfl

/-- The store after a command of any level, at an agent of either module. -/
theorem handle_command_stored {r : Readings} {c : Cace} {m : CaceCommand}
    (direct : c.safeStepMode = false) (reaches : Reaches (.command m) c m.receiverID) :
    (c.handle r (.command m)).store = (tookCommand r c (c.stampedCommand m)).store := by
  obtain ⟨sender, receivers⟩ : (c.stampedCommand m).senderID = m.senderID ∧
      (c.stampedCommand m).receiverID = m.receiverID := by
    unfold Cace.stampedCommand
    split <;> exact ⟨rfl, rfl⟩
  have passes : c.isBlacklisted (c.stampedCommand m).senderID = false := by
    rw [sender]
    simpa [Cace.isBlacklisted, Message.senderID] using reaches.unlisted
  have here : c.addressed (c.stampedCommand m).receiverID = true := by
    rw [receivers]
    exact reaches.addressed
  have built : ∀ (d : Cace) (cmd : CaceCommand) (ids : List Int) (t : Nat),
      d.safeStepMode = false → (CommandAcknowledgeJob.construct r d ids t cmd).1.store =
        (CommandAcknowledgeJob.doVariableUpdate r d cmd).store := by
    intro d cmd ids t off
    unfold CommandAcknowledgeJob.construct Cace.sendCaceAcknowledgeAt Cace.publishUnlessQuiet
    simp only [off, Bool.false_eq_true, if_false]
    generalize CommandAcknowledgeJob.doVariableUpdate r d cmd = d'
    split
    · dsimp only
      split <;> rfl
    · rfl
  simp only [Cace.handle]
  generalize c.stampedCommand m = cmd at passes here ⊢
  have accepted : (c.receive (.command cmd)).addressed cmd.receiverID = true := here
  unfold Cace.handleCaceCommand
  rw [passes]
  change (if (c.receive (.command cmd)).addressed cmd.receiverID = true then _ else _ :
    Cace).store = _
  rw [if_pos accepted]
  exact built (c.receive (.command cmd)) cmd _ _ direct

/-- The store after a command of any level. -/
theorem handle_command_store {r : Readings} {c : Cace} {m : CaceCommand} (plain : Plain c)
    (reaches : Reaches (.command m) c m.receiverID) :
    (c.handle r (.command m)).store = (tookCommand r c m).store := by
  have stamped : c.stampedCommand m = m := by simp [Cace.stampedCommand, plain.loud]
  rw [handle_command_stored plain.direct reaches, stamped]

/-- What is observed of an agent that answers a command. -/
theorem handle_command_history {r : Readings} {c : Cace} {m : CaceCommand} (plain : Plain c)
    (reaches : Reaches (.command m) c m.receiverID)
    (answered : AcceptStrategy.fireAndForget.code < m.level) :
    ∃ seen, (c.handle r (.command m)).history = c.history ++
        [.received (.command m), .applied (.command m)] ++ seen ++
        [.published (.acknowledge (commandAnswer (tookCommand r c m) m)) .first] ∧
      ∀ o ∈ seen, o = .notified m.variableName := by
  obtain ⟨seen, equal, notified⟩ := updateVariable_history (c.receive (.command m))
    (commandUpdate r (c.receive (.command m)).ownID m)
  have history : (tookCommand r c m).history = c.history ++
      [.received (.command m), .applied (.command m)] ++ seen := by
    unfold tookCommand CommandAcknowledgeJob.doVariableUpdate
    rw [equal, receive_history]
    simp [commandUpdate]
  refine ⟨seen, ?_, notified⟩
  rw [handle_command plain reaches answered]
  unfold Cace.appendJob Cace.publish Cace.observe
  dsimp only
  rw [history]

/-- The agent after an acknowledge has been received and has updated the variable. -/
def tookAcknowledge (r : Readings) (c : Cace) (m : CaceAcknowledge) : Cace :=
  ShortAckJob.doVariableUpdate r (c.receive (.acknowledge m)) m

/-- The short acknowledge of an acknowledge. -/
def acknowledgeAnswer (c : Cace) (m : CaceAcknowledge) : CaceShortAck where
  senderID := toShort c.ownID
  receiverID := [toShort m.senderID]
  variableName := (c.deref (.stored m.variableName)).name
  msgID := toShort m.msgID
  lamportTime := c.lamportTime.tick.time

def acknowledgeAnswerJob (c : Cace) (m : CaceAcknowledge) : ShortAckJob where
  expectedRobotIDs := []
  lamportTime := c.lamportTime.time
  attempts := 0
  ack := m

theorem tookAcknowledge_frame (r : Readings) (c : Cace) (m : CaceAcknowledge) :
    tookAcknowledge r c m =
      { c.receive (.acknowledge m) with
        store := (tookAcknowledge r c m).store
        history := (tookAcknowledge r c m).history } :=
  updateVariable_frame _ _

/-- An acknowledge; a short one goes back where the level of the variable asks for it. -/
theorem handle_acknowledge {r : Readings} {c : Cace} {m : CaceAcknowledge} (plain : Plain c)
    (reaches : Reaches (.acknowledge m) c m.receiverID) :
    c.handle r (.acknowledge m) =
      (if .twoWayHandShake < ((tookAcknowledge r c m).deref (.stored m.variableName)).strategy then
        (tookAcknowledge r c m).tickLamportTime.publish
          (.shortAck (acknowledgeAnswer (tookAcknowledge r c m) m)) .first
      else tookAcknowledge r c m).appendJob
        (.shortAck (acknowledgeAnswerJob (tookAcknowledge r c m) m)) := by
  have stamped : c.stampedAcknowledge m = m := by simp [Cace.stampedAcknowledge, plain.loud]
  have passes : c.isBlacklisted m.senderID = false := by
    simpa [Cace.isBlacklisted, Message.senderID] using reaches.unlisted
  have here : (c.receive (.acknowledge m)).addressed m.receiverID = true := reaches.addressed
  have direct : (c.receive (.acknowledge m)).safeStepMode = false := plain.direct
  have frame := tookAcknowledge_frame r c m
  have loud : (tookAcknowledge r c m).tickLamportTime.quiet = false := by
    rw [frame]
    exact plain.loud
  have clock : (tookAcknowledge r c m).lamportTime = (c.receive (.acknowledge m)).lamportTime := by
    rw [frame]
  unfold Cace.handle
  dsimp only
  rw [stamped]
  unfold Cace.handleCaceAcknowledge
  rw [passes]
  change (if (c.receive (.acknowledge m)).addressed m.receiverID = true then _ else _) = _
  rw [if_pos here]
  change (ShortAckJob.construct r (c.receive (.acknowledge m)) []
      (c.receive (.acknowledge m)).lamportTime.time m).1.appendJob
    (.shortAck (ShortAckJob.construct r (c.receive (.acknowledge m)) []
      (c.receive (.acknowledge m)).lamportTime.time m).2) = _
  unfold ShortAckJob.construct
  simp only [direct]
  unfold acknowledgeAnswerJob
  rw [clock]
  congr 1
  change (if _ then (tookAcknowledge r c m).sendCaceShortAck _ _ _ else tookAcknowledge r c m) = _
  unfold Cace.sendCaceShortAck Cace.sendCaceShortAckAt Cace.publishUnlessQuiet
  simp only [loud]
  rfl

/-- A short acknowledge waits for the next step. -/
theorem handle_shortAck {r : Readings} {c : Cace} {m : CaceShortAck}
    (reaches : Reaches (.shortAck m) c m.receiverID) :
    c.handle r (.shortAck m) =
      { c.receive (.shortAck m) with shortAcks := c.shortAcks ++ [m] } := by
  have passes : c.isBlacklisted m.senderID = false := by
    simpa [Cace.isBlacklisted, Message.senderID] using reaches.unlisted
  have here : (c.receive (.shortAck m)).addressed m.receiverID = true := reaches.addressed
  unfold Cace.handle Cace.handleCaceShortAck
  dsimp only
  rw [passes]
  change (if (c.receive (.shortAck m)).addressed m.receiverID = true then _ else _) = _
  rw [if_pos here]
  rfl

/-- A short acknowledge for another agent. -/
theorem handle_shortAck_other {r : Readings} {c : Cace} {m : CaceShortAck}
    (unlisted : m.senderID ∉ c.agentBlacklist) (other : c.addressed m.receiverID = false) :
    c.handle r (.shortAck m) = c.receive (.shortAck m) := by
  have passes : c.isBlacklisted m.senderID = false := by
    simpa [Cace.isBlacklisted] using unlisted
  have away : (c.receive (.shortAck m)).addressed m.receiverID = false := other
  unfold Cace.handle Cace.handleCaceShortAck
  dsimp only
  rw [passes]
  change (if (c.receive (.shortAck m)).addressed m.receiverID = true then _ else _) = _
  rw [away]
  rfl

/-- The command of `distributeValue`, sent to everyone. -/
def distributedCommand (c : Cace) (name : Name) (value : Bytes) : CaceCommand :=
  c.tickLamportTime.commandMessage (c.deref (.stored name)) c.makeMsgID value 0
    c.lamportTime.tick.time

/-- The job that waits for the proposals of the active robots. -/
def distributedJob (r : Readings) (c : Cace) (name : Name) (value : Bytes) : CommandJob where
  expectedRobotIDs := c.activeRobots
  lamportTime := c.lamportTime.time
  attempts := 0
  variablePtr := .stored name
  entities := makeEntities (r.startTimes c.jobs.length) c.activeRobots maxRetrys
  msgID := c.makeMsgID
  value := value
  remainingRetrys := 1

/-- A value that is distributed. -/
theorem distributeValue_loud {r : Readings} {c : Cace} {name : Name} {value : Bytes} {type : Int}
    {strategy : AcceptStrategy} (speaks : c.quiet = false)
    (distributed : .noDistribution < strategy) :
    CaceSpace.distributeValue r c name value type strategy =
      (let d := CaceSpace.decideValue r c name value type strategy
      (d.tickLamportTime.publish (.command (distributedCommand d name value)) .first).appendJob
        (.command (distributedJob r d name value))) := by
  have frame := decideValue_frame r c name value type strategy
  have loud : (CaceSpace.decideValue r c name value type strategy).tickLamportTime.quiet =
      false := by
    rw [frame]
    exact speaks
  have level : ((CaceSpace.decideValue r c name value type strategy).deref
      (.stored name)).strategy = strategy := by
    rw [deref_stored, getVariable_decideValue, if_pos rfl]
    cases c.getVariable name <;> rfl
  unfold CaceSpace.distributeValue CommandJob.construct
  simp only [level, distributed, if_true]
  unfold Cace.sendCaceCommand Cace.sendCaceCommandAt Cace.publishUnlessQuiet
  simp only [loud]
  rfl

theorem distributeValue_plain {r : Readings} {c : Cace} {name : Name} {value : Bytes} {type : Int}
    {strategy : AcceptStrategy} (plain : Plain c) (distributed : .noDistribution < strategy) :
    CaceSpace.distributeValue r c name value type strategy =
      (let d := CaceSpace.decideValue r c name value type strategy
      (d.tickLamportTime.publish (.command (distributedCommand d name value)) .first).appendJob
        (.command (distributedJob r d name value))) :=
  distributeValue_loud plain.loud distributed

end CaceProofs.Guarantees
