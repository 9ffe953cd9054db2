import CaceProofs.Library.Runs
import CaceProofs.Source.Agent

/-!
# What an event can do to an agent

Every function of the model decomposed into a few kinds of effects. An invariant of
one agent is proved for the effects and then holds in every run.
-/
namespace CaceProofs.Source

/-- The messages a job keeps. -/
def Job.held : Job → List Message
  | .commandAcknowledge j => [.command j.command]
  | .believeAcknowledge j => [.believeNotification j.notification]
  | .shortAck j => [.acknowledge j.ack]
  | .writeAck j => [.write j.cmd]
  | .write j => j.acks.map .writeAck
  | .command _ | .believeNotification _ | .request _ => []

/-- The queues of an agent: received messages, jobs, responses. -/
structure Queues where
  commands : List CaceCommand
  believeNotifications : List CaceBelieveNotification
  shortAcks : List CaceShortAck
  writeAcknowledges : List CaceShortAck
  jobs : List Job
  agentsToRemove : List Int
  responses : List ConsensusVariable

namespace Queues

def held (q : Queues) : List Message :=
  q.commands.map .command ++ q.believeNotifications.map .believeNotification ++
    q.shortAcks.map .shortAck ++ q.writeAcknowledges.map .writeAck ++ q.jobs.flatMap Job.held

end Queues

namespace Cace

def queues (c : Cace) : Queues :=
  ⟨c.commands, c.believeNotifications, c.shortAcks, c.writeAcknowledges, c.jobs,
    c.agentsToRemove, c.responses⟩

def setQueues (c : Cace) (q : Queues) : Cace :=
  { c with
    commands := q.commands
    believeNotifications := q.believeNotifications
    shortAcks := q.shortAcks
    writeAcknowledges := q.writeAcknowledges
    jobs := q.jobs
    agentsToRemove := q.agentsToRemove
    responses := q.responses }

/-- A message passes the blacklist: it is observed, and its time stamp is witnessed. -/
def receive (c : Cace) (m : Message) : Cace :=
  match m.lamportTime with
  | some t => (c.observe (.received m)).updateLamportTime t
  | none => c.observe (.received m)

/-- Every queued message was received, and no command waits: the handler of a command
starts its job at once. -/
structure Queued (c : Cace) : Prop where
  received : ∀ m ∈ c.queues.held, .received m ∈ c.history
  noCommands : c.commands = []

end Cace

end CaceProofs.Source

namespace CaceProofs.Guarantees
open Source Library

/-- What may happen to an agent: the variables the application passes in, the names it
decides a value for, the messages that arrive, the reports that update a variable, the
states in which a command is acknowledged without an increment of the clock, those in which a job
repeats its command, and whether variables expire. -/
structure Licence where
  passes : ConsensusVariable → Prop := fun _ => True
  decides : Name → Prop := fun _ => True
  receives : Message → Prop := fun _ => True
  applies : Message → Prop := fun _ => True
  acks : Cace → Prop := fun _ => True
  repeats : Cace → CommandJob → Prop := fun _ _ => True
  expires : Prop := True

/-- The members that no modelled function assigns. -/
structure Config where
  quiet : Bool
  ownID : Int
  agentBlacklist : List Int
  spaceOwnID : Int
  localScope : List Name
  safeStepMode : Bool
  quietMode : Bool
  maxCommandRetrys : Int

def config (c : Cace) : Config :=
  ⟨c.quiet, c.ownID, c.agentBlacklist, c.spaceOwnID, c.localScope, c.safeStepMode, c.quietMode,
    c.maxCommandRetrys⟩

section Contents

/-- The acknowledge that `sendCaceAcknowledge` fills for a variable. -/
def acknowledgeOf (c : Cace) (cv : ConsensusVariable) (msgID receiver : Int) (t : Nat) :
    CaceAcknowledge where
  senderID := toShort c.ownID
  receiverID := [toShort receiver]
  variableName := cv.name
  value := cv.val
  msgID := toShort msgID
  lamportTime := t
  type := toTypeTag cv.type

/-- The notification that `sendCaceBelieveNotification` fills from a variable. -/
def notificationOf (c : Cace) (cv : ConsensusVariable) (receiver msgID : Int) (t : Nat) :
    CaceBelieveNotification where
  senderID := toShort c.ownID
  receiverID := [toShort receiver]
  variableName := cv.name
  value := cv.val
  decissionTime := cv.decissionTime
  validityTime := cv.validityTime
  level := toShort cv.strategy.code
  msgID := toShort msgID
  lamportTime := t
  type := toTypeTag cv.type

/-- The short acknowledge that `sendCaceShortAck` fills. -/
def shortAckOf (c : Cace) (name : Name) (msgID receiver : Int) (t : Nat) : CaceShortAck where
  senderID := toShort c.ownID
  receiverID := [toShort receiver]
  variableName := name
  msgID := toShort msgID
  lamportTime := t

/-- The pointers that an event hands to a job. -/
def Pointed (may : Licence) : VariablePtr → Prop
  | .stored _ => True
  | .detached cv => may.passes cv

/-- What is sent for the first time, with the time stamp `t`: what a job announces, and the
answers to what has been received. The acknowledge of a write is a short one. -/
inductive Sent (may : Licence) (c : Cace) (t : Nat) : Message → Prop
  | command (variablePtr : VariablePtr) (pointed : Pointed may variablePtr)
      (level : .noDistribution < (c.deref variablePtr).strategy) :
      Sent may c t (.command (c.commandMessage (c.deref variablePtr) c.makeMsgID
        (c.deref variablePtr).val 0 t))
  | acknowledge (cmd : CaceCommand) (id : Int) (received : .received (.command cmd) ∈ c.history)
      (named : id = toShort cmd.msgID ∨
        ∃ j, .commandAcknowledge j ∈ c.jobs ∧ j.command = cmd ∧ j.msgID = id)
      (applied : .applied (.command cmd) ∈ c.history) :
      Sent may c t (.acknowledge
        (acknowledgeOf c (c.deref (.stored cmd.variableName)) id 0 t))
  | answer (cbn : CaceBelieveNotification) (id receiver : Int)
      (received : .received (.believeNotification cbn) ∈ c.history)
      (named : id = toShort cbn.msgID ∨
        ∃ j, .believeAcknowledge j ∈ c.jobs ∧ j.notification = cbn ∧ j.msgID = id)
      (applied : .applied (.believeNotification cbn) ∈ c.history) :
      Sent may c t (.acknowledge
        (acknowledgeOf c (c.deref (.stored cbn.variableName)) id receiver t))
  | shortAck (ack : CaceAcknowledge) (received : .received (.acknowledge ack) ∈ c.history)
      (level : .twoWayHandShake < (c.deref (.stored ack.variableName)).strategy) :
      Sent may c t (.shortAck
        (shortAckOf c (c.deref (.stored ack.variableName)).name ack.msgID ack.senderID t))
  | writeAck (cmd : CaceCommand) (received : .received (.write cmd) ∈ c.history) :
      Sent may c t (.shortAck
        (shortAckOf c (c.deref (.stored cmd.variableName)).name cmd.msgID cmd.senderID t))
  | notification (name : Name) (receiver msgID : Int)
      (level : .noDistribution < (c.deref (.stored name)).strategy) :
      Sent may c t (.believeNotification
        (notificationOf c (c.deref (.stored name)) receiver msgID t))
  | write (variablePtr : VariablePtr) (target : Int) :
      Sent may c t (.write (c.commandMessage (c.deref variablePtr) c.makeMsgID
        (c.deref variablePtr).val target t))
  | request (name : Name) (target : Int) :
      Sent may c t (.variableRequest
        ⟨toShort c.ownID, [toShort target], name, toShort c.makeMsgID⟩)
  | response (cv : ConsensusVariable) (msgID receiver : Int) :
      Sent may c t (.response (c.commandMessage cv msgID cv.val receiver t))

/-- What the resend loop of a job sends to a robot. -/
inductive Resent (c : Cace) : Job → Message → Prop
  | command (j : CommandJob) (i : Int)
      (level : .fireAndForget < (c.deref j.variablePtr).strategy) :
      Resent c (.command j) (.command
        (c.commandMessage (c.deref j.variablePtr) j.msgID j.value i j.lamportTime))
  | acknowledge (j : CommandAcknowledgeJob) (i : Int) (variablePtr : Option VariablePtr) (t : Nat)
      (pointer : variablePtr = j.cv ∧ ¬ (j.attempts = 0 ∧ c.safeStepMode = true) ∨
        variablePtr = some (.stored j.command.variableName) ∧
          .applied (.command j.command) ∈ c.history)
      (time : t = j.ownLamportTime ∨ c.safeStepMode = true ∧ j.attempts = 0) :
      Resent c (.commandAcknowledge j) (.acknowledge
        (acknowledgeOf c ((variablePtr.map c.deref).getD default) j.msgID i t))
  | notification (j : BelieveNotificationJob) (i : Int)
      (level : .fireAndForget < (c.deref j.variablePtr).strategy) :
      Resent c (.believeNotification j) (.believeNotification
        (notificationOf c (c.deref j.variablePtr) j.msgID i j.lamportTime))
  | answer (j : BelieveAcknowledgeJob) (i : Int) (t : Nat)
      (time : t = j.ownLamportTime ∨ c.safeStepMode = true ∧ j.attempts = 0) :
      Resent c (.believeAcknowledge j) (.acknowledge
        { senderID := toShort c.ownID
          receiverID := [toShort i]
          variableName := j.notification.variableName
          value := j.notification.value
          msgID := toShort j.msgID
          lamportTime := t
          type := toTypeTag j.notification.type })
  | write (j : WriteJob) (i : Int) :
      Resent c (.write j) (.write (c.commandMessage (c.deref j.variablePtr) j.msgID
        (c.deref j.variablePtr).val i c.lamportTime.time))
  | request (j : RequestJob) (i : Int) :
      Resent c (.request j) (.variableRequest
        ⟨toShort c.ownID, [toShort i], j.name, toShort j.msgID⟩)

/-- A new job, and the state in which its constructor leaves the agent. -/
inductive Created (r : Readings) (may : Licence) (c : Cace) : Cace → Job → Prop
  | command (variablePtr : VariablePtr) (pointed : Pointed may variablePtr) :
      Created r may c
        (CommandJob.construct r c variablePtr (c.deref variablePtr).val c.activeRobots
          c.lamportTime.time).1
        (.command (CommandJob.construct r c variablePtr (c.deref variablePtr).val c.activeRobots
          c.lamportTime.time).2)
  | commandAcknowledge (cmd : CaceCommand) (received : .received (.command cmd) ∈ c.history) :
      Created r may c
        (CommandAcknowledgeJob.construct r c c.activeRobots c.lamportTime.time cmd).1
        (.commandAcknowledge
          (CommandAcknowledgeJob.construct r c c.activeRobots c.lamportTime.time cmd).2)
  | believeNotification (name : Name) (id : Int) (t : Nat) :
      Created r may c (BelieveNotificationJob.construct r c (.stored name) [id] t).1
        (.believeNotification (BelieveNotificationJob.construct r c (.stored name) [id] t).2)
  | believeAcknowledge (cbn : CaceBelieveNotification)
      (received : .received (.believeNotification cbn) ∈ c.history) :
      Created r may c (BelieveAcknowledgeJob.construct r c [cbn.senderID] c.lamportTime.time cbn).1
        (.believeAcknowledge
          (BelieveAcknowledgeJob.construct r c [cbn.senderID] c.lamportTime.time cbn).2)
  | shortAck (ack : CaceAcknowledge) (received : .received (.acknowledge ack) ∈ c.history) :
      Created r may c (ShortAckJob.construct r c [] c.lamportTime.time ack).1
        (.shortAck (ShortAckJob.construct r c [] c.lamportTime.time ack).2)
  | write (variablePtr : VariablePtr) (target : Int) :
      Created r may c (WriteJob.construct r c variablePtr target c.lamportTime.time).1
        (.write (WriteJob.construct r c variablePtr target c.lamportTime.time).2)
  | writeAck (cmd : CaceCommand) (received : .received (.write cmd) ∈ c.history) :
      Created r may c (WriteAckJob.construct r c [] c.lamportTime.time cmd).1
        (.writeAck (WriteAckJob.construct r c [] c.lamportTime.time cmd).2)
  | request (name : Name) (target : Int) :
      Created r may c (RequestJob.construct r c name target c.lamportTime.time).1
        (.request (RequestJob.construct r c name target c.lamportTime.time).2)

/-- A state of the same agent at an earlier moment. -/
structure Earlier (d c : Cace) : Prop where
  config : config d = config c
  history : d.history <+: c.history
  clock : d.lamportTime ≤ c.lamportTime
  queued : d.Queued

/-- A job of the next list of jobs: it was there, `process()` left it, or it is new. -/
inductive Continues (r : Readings) (may : Licence) (c : Cace) (job : Job) : Prop
  | kept (member : job ∈ c.jobs)
  | processed (old : Job) (d d' : Cace) (finished : Bool) (k : Nat) (member : old ∈ c.jobs)
      (earlier : Earlier d c) (done : old.process (r.forJob k) d = .ok (d', job, finished))
      (later : d'.history <+: c.history)
  | created (d d' : Cace) (earlier : Earlier d c) (made : Created r may d d' job)
      (later : d'.history <+: c.history)

end Contents

/-- The kinds of effects. -/
inductive Effect (r : Readings) (may : Licence) : Cace → Cace → Prop
  | receive {c : Cace} {m : Message} (unlisted : m.senderID ∉ c.agentBlacklist)
      (heard : may.receives m) :
      Effect r may c (c.receive m)
  | tick {c : Cace} : Effect r may c c.tickLamportTime
  | send {c : Cace} {m : Message}
      (stamped : ∀ t, m.lamportTime = some t → t = c.lamportTime.tick.time)
      (content : Sent may c c.lamportTime.tick.time m) :
      Effect r may c (c.tickLamportTime.publish m .first)
  | acknowledge {c : Cace} {m : Message} (allowed : may.acks c)
      (stamped : m.lamportTime = some c.lamportTime.time)
      (content : Sent may c c.lamportTime.time m) :
      Effect r may c (c.publish m .first)
  | resend {c : Cace} {m : Message} (job : Job) (member : job ∈ c.jobs)
      (content : Resent c job m) (allowed : ∀ j, job = .command j → may.repeats c j) :
      Effect r may c (c.publish m .again)
  | apply {c : Cace} (u : ProposalUpdate) (own : u.ownID = c.ownID)
      (received : .received u.message ∈ c.history) (admitted : may.applies u.message) :
      Effect r may c (c.updateVariable u)
  | write {c : Cace} (cmd : CaceCommand) (received : .received (.write cmd) ∈ c.history) :
      Effect r may c (WriteAckJob.doVariableUpdate r c cmd)
  | decide {c : Cace} (name : Name) (value : Bytes) (type : Int) (strategy : AcceptStrategy)
      (chosen : may.decides name) :
      Effect r may c (CaceSpace.decideValue r c name value type strategy)
  | insert {c : Cace} {var : ConsensusVariable} (given : may.passes var) :
      Effect r may c (c.insertVariable var)
  | overwrite {c : Cace} {var inStoreVar : ConsensusVariable} (given : may.passes var)
      (stored : c.getVariable var.name = some inStoreVar) :
      Effect r may c (c.setVariable var.name (inStoreVar.update var))
  | engage {c : Cace} {id : Int} (other : id ≠ c.ownID) (fresh : id ∉ c.activeRobots) :
      Effect r may c { c with activeRobots := c.activeRobots ++ [id] }
  | invalidate {c : Cace} (t : Nat) (allowed : may.expires) : Effect r may c (c.invalidate t)
  | queue {c : Cace} {q : Queues} (held : ∀ m ∈ q.held, .received m ∈ c.history)
      (noCommands : q.commands = []) (jobs : ∀ job ∈ q.jobs, Continues r may c job)
      (answers : ∀ sa ∈ q.shortAcks, sa ∈ c.shortAcks ∨ c.addressed sa.receiverID = true) :
      Effect r may c (c.setQueues q)

/-- A sequence of effects. -/
abbrev Path (r : Readings) (may : Licence) : Cace → Cace → Prop :=
  Relation.ReflTransGen (Effect r may)

variable {r : Readings} {may : Licence}

section Readings

/-- The readings of one job are readings of the event. -/
theorem Created.ofJob {k : Nat} {c c' : Cace} {job : Job}
    (created : Created (r.forJob k) may c c' job) : Created r may c c' job := by
  cases created with
  | command variablePtr pointed => exact .command variablePtr pointed
  | commandAcknowledge cmd received => exact .commandAcknowledge cmd received
  | believeNotification name id t => exact .believeNotification name id t
  | believeAcknowledge cbn received => exact .believeAcknowledge cbn received
  | shortAck ack received => exact .shortAck ack received
  | write variablePtr target => exact .write variablePtr target
  | writeAck cmd received => exact .writeAck cmd received
  | request name target => exact .request name target

theorem Continues.ofJob {k : Nat} {c : Cace} {job : Job}
    (continues : Continues (r.forJob k) may c job) : Continues r may c job := by
  cases continues with
  | kept member => exact .kept member
  | processed old d d' finished k' member earlier done later =>
    exact .processed old d d' finished k' member earlier done later
  | created d d' earlier made later => exact .created d d' earlier made.ofJob later

theorem Effect.ofJob {k : Nat} {c c' : Cace} (effect : Effect (r.forJob k) may c c') :
    Effect r may c c' := by
  cases effect with
  | receive unlisted heard => exact .receive unlisted heard
  | tick => exact .tick
  | send stamped content => exact .send stamped content
  | acknowledge allowed stamped content => exact .acknowledge allowed stamped content
  | resend job member content allowed => exact .resend job member content allowed
  | apply u own received admitted => exact .apply u own received admitted
  | write cmd received => exact .write cmd received
  | decide name value type strategy chosen => exact .decide name value type strategy chosen
  | insert given => exact .insert given
  | overwrite given stored => exact .overwrite given stored
  | engage other fresh => exact .engage other fresh
  | invalidate t allowed => exact .invalidate t allowed
  | queue held noCommands jobs answers =>
    exact .queue held noCommands (fun job member => (jobs job member).ofJob) answers

theorem Path.ofJob {k : Nat} {c c' : Cace} (path : Path (r.forJob k) may c c') :
    Path r may c c' := by
  induction path with
  | refl => exact .refl
  | tail _ effect ih => exact ih.tail effect.ofJob

end Readings

section Frames

/-- Inserting a variable changes the store only. -/
theorem insertVariable_frame (c : Cace) (cv : ConsensusVariable) :
    c.insertVariable cv = { c with store := (c.insertVariable cv).store } := by
  unfold Cace.insertVariable
  split <;> rfl

/-- A variable update changes the store and the history. -/
theorem updateVariable_frame (c : Cace) (u : ProposalUpdate) :
    c.updateVariable u =
      { c with
        store := (c.updateVariable u).store
        history := (c.updateVariable u).history } := by
  unfold Cace.updateVariable
  dsimp only
  split
  · split <;> rfl
  · rw [insertVariable_frame]
    rfl

theorem updateVariable_history (c : Cace) (u : ProposalUpdate) :
    ∃ seen, (c.updateVariable u).history = c.history ++ .applied u.message :: seen ∧
      ∀ o ∈ seen, o = .notified u.variableName := by
  unfold Cace.updateVariable
  dsimp only
  split
  · split
    · exact ⟨[.notified u.variableName], by simp [Cace.notify, Cace.observe, Cace.setVariable],
        by simp⟩
    · exact ⟨[], rfl, by simp⟩
  · rw [insertVariable_frame]
    exact ⟨[.notified u.variableName], by simp [Cace.notify, Cace.observe], by simp⟩

theorem applied_updateVariable (c : Cace) (u : ProposalUpdate) :
    .applied u.message ∈ (c.updateVariable u).history := by
  obtain ⟨seen, equal, -⟩ := updateVariable_history c u
  rw [equal]
  simp

theorem writeUpdate_frame (r : Readings) (c : Cace) (cmd : CaceCommand) :
    WriteAckJob.doVariableUpdate r c cmd =
      { c with
        store := (WriteAckJob.doVariableUpdate r c cmd).store
        history := (WriteAckJob.doVariableUpdate r c cmd).history } := by
  unfold WriteAckJob.doVariableUpdate
  dsimp only
  split
  · rfl
  · rw [insertVariable_frame]
    rfl

theorem writeUpdate_history (r : Readings) (c : Cace) (cmd : CaceCommand) :
    ∃ seen, (WriteAckJob.doVariableUpdate r c cmd).history =
      c.history ++ .applied (.write cmd) :: seen ∧ ∀ o ∈ seen, o = .notified cmd.variableName := by
  unfold WriteAckJob.doVariableUpdate
  dsimp only
  split
  · exact ⟨[.notified cmd.variableName], by simp [Cace.notify, Cace.observe, Cace.setVariable],
      by simp⟩
  · rw [insertVariable_frame]
    exact ⟨[], rfl, by simp⟩

theorem decideValue_frame (r : Readings) (c : Cace) (name : Name) (value : Bytes) (type : Int)
    (strategy : AcceptStrategy) :
    CaceSpace.decideValue r c name value type strategy =
      { c with store := (CaceSpace.decideValue r c name value type strategy).store } := by
  unfold CaceSpace.decideValue
  split
  · rw [insertVariable_frame]
  · rfl

end Frames

theorem receive_history (c : Cace) (m : Message) :
    (c.receive m).history = c.history ++ [.received m] := by
  unfold Cace.receive
  split <;> rfl

theorem receive_config (c : Cace) (m : Message) : config (c.receive m) = config c := by
  unfold Cace.receive
  split <;> rfl

theorem receive_store (c : Cace) (m : Message) : (c.receive m).store = c.store := by
  unfold Cace.receive
  split <;> rfl

namespace Effect

theorem config {c c' : Cace} (effect : Effect r may c c') :
    Guarantees.config c' = Guarantees.config c := by
  cases effect with
  | receive => unfold Cace.receive; split <;> rfl
  | apply => rw [updateVariable_frame]; rfl
  | write => rw [writeUpdate_frame]; rfl
  | decide => rw [decideValue_frame]; rfl
  | insert => rw [insertVariable_frame]; rfl
  | tick | send | acknowledge | resend | overwrite | engage | invalidate | queue => rfl

/-- What has been observed stays observed. -/
theorem history {c c' : Cace} (effect : Effect r may c c') :
    c.history <+: c'.history := by
  cases effect with
  | receive => unfold Cace.receive; split <;> exact List.prefix_append _ _
  | apply u =>
    obtain ⟨seen, equal, -⟩ := updateVariable_history c u
    exact ⟨_, equal.symm⟩
  | write cmd =>
    obtain ⟨seen, equal, -⟩ := writeUpdate_history r c cmd
    exact ⟨_, equal.symm⟩
  | decide => exact (decideValue_frame ..) ▸ List.prefix_rfl
  | insert => exact (insertVariable_frame ..) ▸ List.prefix_rfl
  | send | acknowledge | resend => exact List.prefix_append _ _
  | tick | overwrite | engage | invalidate | queue => exact List.prefix_rfl

/-- No effect sets the clock back. -/
theorem clock {c c' : Cace} (effect : Effect r may c c') :
    c.lamportTime ≤ c'.lamportTime := by
  cases effect with
  | receive =>
    unfold Cace.receive
    split
    · exact LamportClock.le_witness _ _
    · exact le_refl _
  | apply => rw [updateVariable_frame]
  | write => rw [writeUpdate_frame]
  | decide => rw [decideValue_frame]
  | insert => rw [insertVariable_frame]
  | tick | send => exact LamportClock.le_tick _
  | acknowledge | resend | overwrite | engage | invalidate | queue => exact le_refl _

/-- Only a queue effect changes a queue. -/
theorem queued {c c' : Cace} (effect : Effect r may c c') (before : c.Queued) :
    c'.Queued := by
  have kept : ∀ d : Cace, d.queues = c.queues → c.history <+: d.history → d.Queued := by
    intro d same longer
    have commands : d.commands = c.commands := congrArg Queues.commands same
    refine ⟨fun m member => longer.subset (before.received m ?_), commands.trans before.noCommands⟩
    rwa [← same]
  have longer := effect.history
  cases effect with
  | queue held noCommands => exact ⟨held, noCommands⟩
  | receive => exact kept _ (by unfold Cace.receive; split <;> rfl) longer
  | apply => exact kept _ (by rw [updateVariable_frame]; rfl) longer
  | write => exact kept _ (by rw [writeUpdate_frame]; rfl) longer
  | decide => exact kept _ (by rw [decideValue_frame]; rfl) longer
  | insert => exact kept _ (by rw [insertVariable_frame]; rfl) longer
  | tick | send | acknowledge | resend | overwrite | engage | invalidate =>
    exact kept _ rfl longer

/-- The received messages after an effect. -/
theorem received {c c' : Cace} {m : Message} (effect : Effect r may c c')
    (received : .received m ∈ c'.history) :
    .received m ∈ c.history ∨
      (m.senderID ∉ c.agentBlacklist ∧ may.receives m ∧ c' = c.receive m) := by
  cases effect with
  | receive unlisted heard =>
    rw [receive_history] at received
    rcases List.mem_append.mp received with old | new
    · exact .inl old
    · obtain rfl : m = _ := by simpa using new
      exact .inr ⟨unlisted, heard, rfl⟩
  | apply u =>
    obtain ⟨seen, equal, notified⟩ := updateVariable_history c u
    rw [equal] at received
    rcases List.mem_append.mp received with old | new
    · exact .inl old
    · rcases List.mem_cons.mp new with applied | later
      · cases applied
      · cases notified _ later
  | write cmd =>
    obtain ⟨seen, equal, notified⟩ := writeUpdate_history r c cmd
    rw [equal] at received
    rcases List.mem_append.mp received with old | new
    · exact .inl old
    · rcases List.mem_cons.mp new with applied | later
      · cases applied
      · cases notified _ later
  | send | acknowledge | resend =>
    left
    simpa [Cace.publish, Cace.observe, Cace.tickLamportTime] using received
  | decide => rw [decideValue_frame] at received; exact .inl received
  | insert => rw [insertVariable_frame] at received; exact .inl received
  | tick | overwrite | engage | invalidate | queue => exact .inl received

end Effect

namespace Path

theorem config {c c' : Cace} (path : Path r may c c') :
    Guarantees.config c' = Guarantees.config c := by
  induction path with
  | refl => rfl
  | tail _ effect ih => exact effect.config.trans ih

theorem history {c c' : Cace} (path : Path r may c c') : c.history <+: c'.history := by
  induction path with
  | refl => exact List.prefix_rfl
  | tail _ effect ih => exact ih.trans effect.history

theorem clock {c c' : Cace} (path : Path r may c c') :
    c.lamportTime ≤ c'.lamportTime := by
  induction path with
  | refl => exact le_refl _
  | tail _ effect ih => exact le_trans ih effect.clock

theorem queued {c c' : Cace} (path : Path r may c c') (before : c.Queued) : c'.Queued :=
  preserved_by_steps (fun _ _ effect => effect.queued) path before

end Path

section Sends

/-- Only the clock and the history move. -/
structure OnlySends (c d : Cace) : Prop where
  frame : d = { c with lamportTime := d.lamportTime, history := d.history }
  history : c.history <+: d.history

theorem OnlySends.refl (c : Cace) : OnlySends c c :=
  ⟨rfl, List.prefix_rfl⟩

theorem OnlySends.trans {a b c : Cace} (first : OnlySends a b) (second : OnlySends b c) :
    OnlySends a c where
  frame := by
    rw [second.frame, first.frame]
  history := first.history.trans second.history

theorem OnlySends.deref {c d : Cace} (sends : OnlySends c d) : d.deref = c.deref := by
  rw [sends.frame]
  rfl

theorem OnlySends.jobs {c d : Cace} (sends : OnlySends c d) : d.jobs = c.jobs := by
  rw [sends.frame]

theorem OnlySends.config {c d : Cace} (sends : OnlySends c d) :
    Guarantees.config d = Guarantees.config c := by
  rw [sends.frame]
  rfl

variable {c : Cace} {m : Message}

private theorem publishUnlessQuiet_path
    (stamped : ∀ t, m.lamportTime = some t → t = c.lamportTime.tick.time)
    (content : Sent may c c.lamportTime.tick.time m) :
    Path r may c (c.tickLamportTime.publishUnlessQuiet m .first) := by
  unfold Cace.publishUnlessQuiet
  split
  · exact .single .tick
  · exact .single (.send stamped content)

private theorem resendUnlessQuiet_path (job : Job) (member : job ∈ c.jobs)
    (content : Resent c job m)
    (allowed : c.quiet = false → ∀ j, job = .command j → may.repeats c j) :
    Path r may c (c.publishUnlessQuiet m .again) := by
  unfold Cace.publishUnlessQuiet
  split
  next => exact .refl
  next loud => exact .single (.resend job member content (allowed (Bool.not_eq_true _ ▸ loud)))

theorem publishUnlessQuiet_onlySends (c : Cace) (m : Message) (transmission : Transmission) :
    OnlySends c (c.publishUnlessQuiet m transmission) := by
  unfold Cace.publishUnlessQuiet
  split
  · exact .refl c
  · exact ⟨rfl, List.prefix_append _ _⟩

theorem send_onlySends (c : Cace) (m : Message) (transmission : Transmission) :
    OnlySends c (c.tickLamportTime.publishUnlessQuiet m transmission) :=
  @OnlySends.trans c c.tickLamportTime _ ⟨rfl, List.prefix_rfl⟩
    (publishUnlessQuiet_onlySends _ m transmission)

theorem publish_onlySends (c : Cace) (m : Message) (transmission : Transmission) :
    OnlySends c (c.tickLamportTime.publish m transmission) :=
  ⟨rfl, List.prefix_append _ _⟩

theorem sendCaceCommand_path (variablePtr : VariablePtr) (pointed : Pointed may variablePtr)
    (level : .noDistribution < (c.deref variablePtr).strategy) :
    Path r may c (c.sendCaceCommand (c.deref variablePtr) c.makeMsgID
      (c.deref variablePtr).val 0) :=
  publishUnlessQuiet_path (fun _ h => (Option.some.inj h).symm) (.command variablePtr pointed level)

theorem sendCaceCommandAt_again_path {j : CommandJob} (member : .command j ∈ c.jobs) (i : Int)
    (level : .fireAndForget < (c.deref j.variablePtr).strategy)
    (allowed : c.quiet = false → may.repeats c j) :
    Path r may c (c.sendCaceCommandAt (c.deref j.variablePtr) j.msgID j.value i j.lamportTime
      .again) :=
  resendUnlessQuiet_path _ member (.command j i level) fun loud _ same =>
    Job.command.inj same ▸ allowed loud

theorem sendCaceResponse_path {cv : ConsensusVariable} {msgID receiver : Int} :
    Path r may c (c.sendCaceResponse cv msgID receiver) :=
  .single (.send (fun _ h => (Option.some.inj h).symm) (.response cv msgID receiver))

theorem sendWriteCommand_first_path (variablePtr : VariablePtr) (target : Int) :
    Path r may c (c.sendWriteCommand (c.deref variablePtr) c.makeMsgID target .first) :=
  .single (.send (fun _ h => (Option.some.inj h).symm) (.write variablePtr target))

theorem sendWriteCommand_again_path {j : WriteJob} (member : .write j ∈ c.jobs) (i : Int) :
    Path r may c (c.sendWriteCommand (c.deref j.variablePtr) j.msgID i .again) :=
  (Relation.ReflTransGen.single .tick).tail (@Effect.resend r may c.tickLamportTime _ _ member
    (.write j i) nofun)

theorem sendCaceAcknowledge_command_path {j : CommandAcknowledgeJob}
    (received : .received (.command j.command) ∈ c.history)
    (member : .commandAcknowledge j ∈ c.jobs)
    (applied : .applied (.command j.command) ∈ c.history) :
    Path r may c (c.sendCaceAcknowledge (c.deref (.stored j.command.variableName)).name
      (c.deref (.stored j.command.variableName)).val j.msgID 0
      (c.deref (.stored j.command.variableName)).type) :=
  publishUnlessQuiet_path (fun _ h => (Option.some.inj h).symm)
    (.acknowledge j.command j.msgID received (.inr ⟨j, member, rfl, rfl⟩) applied)

theorem sendCaceAcknowledge_notification_path {cbn : CaceBelieveNotification} {id : Int}
    (received : .received (.believeNotification cbn) ∈ c.history)
    (named : id = toShort cbn.msgID ∨
      ∃ j, .believeAcknowledge j ∈ c.jobs ∧ j.notification = cbn ∧ j.msgID = id)
    (applied : .applied (.believeNotification cbn) ∈ c.history) (receiver : Int) :
    Path r may c (c.sendCaceAcknowledge (c.deref (.stored cbn.variableName)).name
      (c.deref (.stored cbn.variableName)).val id receiver
      (c.deref (.stored cbn.variableName)).type) :=
  publishUnlessQuiet_path (fun _ h => (Option.some.inj h).symm)
    (.answer cbn id receiver received named applied)

theorem resendAcknowledge_path {job : Job} {ack : CaceAcknowledge} (member : job ∈ c.jobs)
    (content : Resent c job (.acknowledge ack)) :
    Path r may c (c.publishUnlessQuiet (.acknowledge ack) .again) :=
  resendUnlessQuiet_path job member content fun _ j same => by
    subst same
    cases content

/-- The one send that carries the clock as it is. -/
theorem sendCaceAcknowledgeAt_first_path {cmd : CaceCommand}
    (received : .received (.command cmd) ∈ c.history)
    (applied : .applied (.command cmd) ∈ c.history) (allowed : c.quiet = false → may.acks c) :
    Path r may c (c.sendCaceAcknowledgeAt (c.deref (.stored cmd.variableName)).name
      (c.deref (.stored cmd.variableName)).val (toShort cmd.msgID) 0
      (c.deref (.stored cmd.variableName)).type c.lamportTime.time .first) := by
  unfold Cace.sendCaceAcknowledgeAt Cace.publishUnlessQuiet
  split
  next => exact .refl
  next loud =>
    exact .single (.acknowledge (allowed (Bool.not_eq_true _ ▸ loud)) rfl
      (.acknowledge cmd _ received (.inl rfl) applied))

theorem sendCaceBelieveNotification_path (name : Name) (receiverID msgID : Int)
    (level : .noDistribution < (c.deref (.stored name)).strategy) :
    Path r may c (c.sendCaceBelieveNotification (c.deref (.stored name)) receiverID msgID) :=
  publishUnlessQuiet_path (fun _ h => (Option.some.inj h).symm)
    (.notification name receiverID msgID level)

theorem sendCaceBelieveNotificationAt_again_path {j : BelieveNotificationJob}
    (member : .believeNotification j ∈ c.jobs) (i : Int)
    (level : .fireAndForget < (c.deref j.variablePtr).strategy) :
    Path r may c (c.sendCaceBelieveNotificationAt (c.deref j.variablePtr) j.msgID i j.lamportTime
      .again) :=
  resendUnlessQuiet_path _ member (.notification j i level) nofun

theorem sendCaceShortAck_path {ack : CaceAcknowledge}
    (received : .received (.acknowledge ack) ∈ c.history)
    (level : .twoWayHandShake < (c.deref (.stored ack.variableName)).strategy) :
    Path r may c (c.sendCaceShortAck (c.deref (.stored ack.variableName)).name ack.msgID
      ack.senderID) :=
  publishUnlessQuiet_path (fun _ h => (Option.some.inj h).symm) (.shortAck ack received level)

theorem sendCaceWriteAck_path {cmd : CaceCommand}
    (received : .received (.write cmd) ∈ c.history) :
    Path r may c (c.sendCaceWriteAck (c.deref (.stored cmd.variableName)).name cmd.msgID
      cmd.senderID) :=
  publishUnlessQuiet_path (fun _ h => (Option.some.inj h).symm) (.writeAck cmd received)

theorem sendCaceVariableRequest_path (name : Name) (target : Int) :
    Path r may c (c.sendCaceVariableRequest target c.makeMsgID name) :=
  .single (.send (fun _ h => nomatch h) (.request name target))

theorem sendCaceVariableRequestAt_again_path {j : RequestJob} (member : .request j ∈ c.jobs)
    (i : Int) : Path r may c (c.sendCaceVariableRequestAt i j.msgID j.name .again) :=
  (Relation.ReflTransGen.single .tick).tail (@Effect.resend r may c.tickLamportTime _ _ member
    (.request j i) nofun)

end Sends

end CaceProofs.Guarantees
