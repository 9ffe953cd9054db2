import CaceProofs.Guarantees.Effects

/-!
# The effects of the jobs

Constructing and processing a job is a sequence of effects, provided that what is
queued has been received; and a processed job keeps only received messages.
-/
namespace CaceProofs.Guarantees
open Source Library

variable {r : Readings} {may : Licence}

section Loop

/-- The deadline of an entity has passed at a reading of the clock. -/
def Overdue (r : Readings) (k : Nat) (jse : JobStateEntity) : Prop :=
  toULong (jse.lastSent + r.estimatedResendTime jse.robotID)
    < r.resendTime k / timeResolutionDevisor

instance (r : Readings) (k : Nat) (jse : JobStateEntity) : Decidable (Overdue r k jse) :=
  inferInstanceAs (Decidable (_ < _))

/-- An entity after a transmission for its robot; the clock is read again. -/
def resent (r : Readings) (k : Nat) (jse : JobStateEntity) : JobStateEntity :=
  { jse with
    lastSent := r.resendTime (k + 1) / timeResolutionDevisor
    retrys := jse.retrys - 1 }

/-- One pass of the inner resend loop without the sending: the entity, the robots sent to so far
and the readings so far. -/
def logStep (r : Readings) (state : JobStateEntity × List Int × Nat) (i : Int) :
    JobStateEntity × List Int × Nat :=
  let (jse, log, k) := state
  if i = jse.robotID ∧ 0 < jse.retrys then
    if Overdue r k jse then (resent r k jse, log ++ [i], k + 2) else (jse, log, k + 1)
  else (jse, log, k)

/-- The robots whose deadline has passed, from the k-th reading on. -/
def resendLogFrom (r : Readings) (expected : List Int) : Nat → List JobStateEntity → List Int
  | _, [] => []
  | k, jse :: entities =>
    let inner := expected.foldl (logStep r) (jse, [], k)
    inner.2.1 ++ resendLogFrom r expected inner.2.2 entities

/-- The robots whose deadline has passed, in the order in which the resend loop sends. -/
def resendLog (r : Readings) (expected : List Int) (entities : List JobStateEntity) : List Int :=
  resendLogFrom r expected 0 entities

variable {r : Readings} {send : Cace → Int → Cace} {expected : List Int}

theorem resendLog_nil : resendLog r expected [] = [] := rfl

/-- A pass sends to the robot that it adds to the log. -/
theorem resendStep_log {c start : Cace} {log : List Int} (sent : c = log.foldl send start)
    (remaining : Int) (jse : JobStateEntity) (k : Nat) (i : Int) : ∃ remaining',
      resendStep r send (c, remaining, jse, k) i =
        ((logStep r (jse, log, k) i).2.1.foldl send start, remaining',
          (logStep r (jse, log, k) i).1, (logStep r (jse, log, k) i).2.2) := by
  unfold resendStep logStep
  by_cases here : i = jse.robotID
  · subst here
    refine ⟨remaining + max jse.retrys 0, ?_⟩
    by_cases left : 0 < jse.retrys
    · by_cases late : Overdue r k jse
      · have passed : toULong (jse.lastSent + r.estimatedResendTime jse.robotID) <
            r.resendTime k / timeResolutionDevisor := late
        simp only [true_and, left, if_true, late, passed, List.foldl_append, ← sent, resent]
        rfl
      · have waits : ¬ toULong (jse.lastSent + r.estimatedResendTime jse.robotID) <
            r.resendTime k / timeResolutionDevisor := late
        simp only [true_and, left, if_true, late, waits, if_false, ← sent]
    · simp only [true_and, left, if_true, if_false, ← sent]
  · exact ⟨remaining, by simp only [here, false_and, if_false, ← sent]⟩

theorem resendFold_log (l : List Int) {c start : Cace} {log : List Int}
    (sent : c = log.foldl send start) (remaining : Int) (jse : JobStateEntity) (k : Nat) :
    ∃ remaining', l.foldl (resendStep r send) (c, remaining, jse, k) =
      ((l.foldl (logStep r) (jse, log, k)).2.1.foldl send start, remaining',
        (l.foldl (logStep r) (jse, log, k)).1, (l.foldl (logStep r) (jse, log, k)).2.2) := by
  induction l generalizing c remaining jse log k with
  | nil => exact ⟨remaining, by rw [sent]; rfl⟩
  | cons i l ih =>
    obtain ⟨remaining', step⟩ := resendStep_log (r := r) sent remaining jse k i
    rw [List.foldl_cons, List.foldl_cons, step]
    exact ih rfl _ _ _

/-- The resend loop sends to the robots of the log. -/
theorem resendLoop_cace (r : Readings) (send : Cace → Int → Cace) (expected : List Int)
    (entities : List JobStateEntity) (c : Cace) :
    (resendLoop r send expected entities c).cace =
      (resendLog r expected entities).foldl send c := by
  unfold resendLoop resendLog
  generalize (0 : Int) = remaining
  generalize 0 = k
  induction entities generalizing c remaining k with
  | nil => rfl
  | cons jse entities ih =>
    obtain ⟨remaining', inner⟩ := @resendFold_log r send expected c c [] rfl remaining jse k
    unfold resendEntities resendLogFrom
    dsimp only
    rw [inner, List.foldl_append, ih]

/-- The resend loop only sends. -/
theorem resendLoop_onlySends {c : Cace} (entities : List JobStateEntity)
    (sends : ∀ d i, OnlySends d (send d i)) :
    OnlySends c (resendLoop r send expected entities c).cace := by
  rw [resendLoop_cace]
  generalize resendLog r expected entities = log
  induction log generalizing c with
  | nil => exact .refl c
  | cons i log ih => exact (sends c i).trans ih

/-- The states that it sends from differ in the clock and the history. -/
theorem resendLoop_path {c : Cace} (entities : List JobStateEntity)
    (paths : ∀ d, ∀ i ∈ resendLog r expected entities, OnlySends c d → Path r may d (send d i))
    (sends : ∀ d i, OnlySends d (send d i)) :
    Path r may c (resendLoop r send expected entities c).cace ∧
      OnlySends c (resendLoop r send expected entities c).cace := by
  refine ⟨?_, resendLoop_onlySends entities sends⟩
  rw [resendLoop_cace]
  generalize resendLog r expected entities = log at paths ⊢
  have fold : ∀ d, OnlySends c d → Path r may d (log.foldl send d) := by
    induction log with
    | nil => exact fun _ _ => .refl
    | cons i log ih =>
      intro d now
      exact (paths d i List.mem_cons_self now).trans
        (ih (fun d j member => paths d j (List.mem_cons_of_mem _ member)) _ (now.trans (sends d i)))
  exact fold c (.refl c)

end Loop

section Queue

theorem mem_held {c : Cace} {m : Message} : m ∈ c.queues.held ↔
    (∃ cc ∈ c.commands, .command cc = m) ∨
    (∃ cbn ∈ c.believeNotifications, .believeNotification cbn = m) ∨
    (∃ sa ∈ c.shortAcks, .shortAck sa = m) ∨ (∃ ca ∈ c.writeAcknowledges, .writeAck ca = m) ∨
    ∃ job ∈ c.jobs, m ∈ job.held := by
  simp only [Queues.held, Cace.queues, List.mem_append, List.mem_map, List.mem_flatMap, or_assoc]

theorem idle_queued {c : Cace} (idle : c.Idle) : c.Queued where
  received m member := by
    simp [mem_held, idle.commands, idle.believeNotifications, idle.shortAcks,
      idle.writeAcknowledges, idle.jobs] at member
  noCommands := idle.commands

/-- Queues that shrink hold less. -/
theorem held_subset {q q' : Queues} (commands : q.commands ⊆ q'.commands)
    (notifications : q.believeNotifications ⊆ q'.believeNotifications)
    (shortAcks : q.shortAcks ⊆ q'.shortAcks)
    (writeAcknowledges : q.writeAcknowledges ⊆ q'.writeAcknowledges) (jobs : q.jobs ⊆ q'.jobs) :
    q.held ⊆ q'.held := by
  intro m member
  simp only [Queues.held, List.mem_append] at member ⊢
  rcases member with (((cc | cbn) | sa) | ca) | job
  · exact .inl (.inl (.inl (.inl (List.map_subset _ commands cc))))
  · exact .inl (.inl (.inl (.inr (List.map_subset _ notifications cbn))))
  · exact .inl (.inl (.inr (List.map_subset _ shortAcks sa)))
  · exact .inl (.inr (List.map_subset _ writeAcknowledges ca))
  · obtain ⟨j, inJobs, held⟩ := List.mem_flatMap.mp job
    exact .inr (List.mem_flatMap.mpr ⟨j, jobs inJobs, held⟩)

/-- A change of the queues that adds received messages, and jobs for a reason. -/
theorem setQueues_path {c : Cace} (q : Queues) (queued : c.Queued)
    (held : ∀ m ∈ q.held, m ∈ c.queues.held ∨ .received m ∈ c.history)
    (noCommands : q.commands = []) (jobs : ∀ job ∈ q.jobs, Continues r may c job)
    (answers : ∀ sa ∈ q.shortAcks, sa ∈ c.shortAcks ∨ c.addressed sa.receiverID = true) :
    Path r may c (c.setQueues q) :=
  .single (.queue (fun m member => (held m member).elim (queued.received m) id) noCommands jobs
    answers)

/-- Queues that shrink. -/
theorem shrinkQueues_path {c : Cace} (q : Queues) (queued : c.Queued)
    (held : q.held ⊆ c.queues.held) (noCommands : q.commands = []) (jobs : q.jobs ⊆ c.jobs)
    (shortAcks : q.shortAcks ⊆ c.shortAcks) : Path r may c (c.setQueues q) :=
  setQueues_path q queued (fun _ member => .inl (held member)) noCommands
    (fun _ member => .kept (jobs member)) fun _ member => .inl (shortAcks member)

theorem appendJob_path {c : Cace} {job : Job} (queued : c.Queued)
    (held : ∀ m ∈ job.held, .received m ∈ c.history) (fresh : Continues r may c job) :
    Path r may c (c.appendJob job) := by
  refine setQueues_path { c.queues with jobs := c.jobs ++ [job] } queued ?_ queued.noCommands ?_
    fun _ member => .inl member
  · intro m member
    simp only [Queues.held, List.flatMap_append, List.mem_append, List.flatMap_cons,
      List.flatMap_nil, List.append_nil] at member
    rcases member with earlier | later | fresh
    · left
      simp only [Queues.held, List.mem_append]
      exact .inl earlier
    · left
      simp only [Queues.held, List.mem_append]
      exact .inr later
    · exact .inr (held m fresh)
  · intro job' member
    rcases List.mem_append.mp member with old | new
    · exact .kept old
    · rw [List.mem_singleton.mp new]
      exact fresh

theorem getCaceShortAcksAndRemove_path {c : Cace} (queued : c.Queued) (msgID : Int) :
    Path r may c (c.getCaceShortAcksAndRemove msgID).2 := by
  let fewer : Queues :=
    { c.queues with shortAcks := c.shortAcks.filter fun sa => sa.msgID != msgID }
  have held : fewer.held ⊆ c.queues.held :=
    held_subset (fun _ => id) (fun _ => id) (fun _ => List.mem_of_mem_filter) (fun _ => id)
      (fun _ => id)
  exact shrinkQueues_path fewer queued held queued.noCommands (fun _ => id)
    fun _ => List.mem_of_mem_filter

theorem getWriteAcknowledgesAndRemove_path {c : Cace} (queued : c.Queued) (msgID : Int) :
    Path r may c (c.getWriteAcknowledgesAndRemove msgID).2 := by
  let fewer : Queues :=
    { c.queues with
      writeAcknowledges := c.writeAcknowledges.filter fun sa => sa.msgID != msgID }
  have held : fewer.held ⊆ c.queues.held :=
    held_subset (fun _ => id) (fun _ => id) (fun _ => id) (fun _ => List.mem_of_mem_filter)
      (fun _ => id)
  exact shrinkQueues_path fewer queued held queued.noCommands (fun _ => id) fun _ => id

end Queue

/-- The start of a path is an earlier state. -/
theorem Path.earlier {c c' : Cace} (path : Path r may c c') (queued : c.Queued) : Earlier c c' :=
  ⟨path.config.symm, path.history, path.clock, queued⟩

theorem Earlier.trans {a b c : Cace} (first : Earlier a b) (second : Earlier b c) :
    Earlier a c :=
  ⟨first.config.trans second.config, first.history.trans second.history,
    le_trans first.clock second.clock, first.queued⟩

section Constructors

theorem commandJob_path {c : Cace} {variablePtr : VariablePtr} {robotids : List Int}
    {lamportTime : Nat} (pointed : Pointed may variablePtr) :
    Path r may c (CommandJob.construct r c variablePtr (c.deref variablePtr).val robotids
      lamportTime).1 := by
  unfold CommandJob.construct
  dsimp only
  split
  next level => exact sendCaceCommand_path variablePtr pointed level
  next => exact .refl

theorem commandUpdate_path {c : Cace} {cmd : CaceCommand}
    (received : .received (.command cmd) ∈ c.history) (applies : may.applies (.command cmd)) :
    Path r may c (CommandAcknowledgeJob.doVariableUpdate r c cmd) :=
  .single (.apply (commandUpdate r c.ownID cmd) rfl received applies)

theorem applied_commandUpdate (r : Readings) (c : Cace) (cmd : CaceCommand) :
    .applied (.command cmd) ∈ (CommandAcknowledgeJob.doVariableUpdate r c cmd).history :=
  applied_updateVariable c (commandUpdate r c.ownID cmd)

theorem commandAcknowledgeJob_path {c : Cace} {robotids : List Int} {cmd : CaceCommand}
    (received : .received (.command cmd) ∈ c.history)
    (applies : c.safeStepMode = false → may.applies (.command cmd))
    (allowed : c.quiet = false → c.safeStepMode = false →
      AcceptStrategy.fireAndForget.code < cmd.level →
      may.acks (CommandAcknowledgeJob.doVariableUpdate r c cmd)) :
    Path r may c
      (CommandAcknowledgeJob.construct r c robotids c.lamportTime.time cmd).1 := by
  have updated : c.safeStepMode = false →
      Path r may c (CommandAcknowledgeJob.doVariableUpdate r c cmd) :=
    fun direct => commandUpdate_path received (applies direct)
  have clock : (CommandAcknowledgeJob.doVariableUpdate r c cmd).lamportTime = c.lamportTime := by
    rw [CommandAcknowledgeJob.doVariableUpdate, updateVariable_frame]
  unfold CommandAcknowledgeJob.construct
  dsimp only
  split
  next => exact .refl
  next unsafeMode =>
    have direct : c.safeStepMode = false := Bool.not_eq_true _ ▸ unsafeMode
    split
    next sent =>
      rw [← clock]
      exact (updated direct).trans
        (sendCaceAcknowledgeAt_first_path ((updated direct).history.subset received)
          (applied_commandUpdate r c cmd) fun loud => allowed (by
            rw [CommandAcknowledgeJob.doVariableUpdate, updateVariable_frame] at loud
            exact loud) direct sent)
    next => exact updated direct

theorem believeNotificationJob_path {c : Cace} {name : Name} {id : Int} {lamportTime : Nat} :
    Path r may c
      (BelieveNotificationJob.construct r c (.stored name) [id] lamportTime).1 := by
  unfold BelieveNotificationJob.construct
  dsimp only
  split
  next level => exact sendCaceBelieveNotification_path name id _ level
  next => exact .refl

theorem notificationUpdate_path {c : Cace} {cbn : CaceBelieveNotification}
    (received : .received (.believeNotification cbn) ∈ c.history)
    (applies : may.applies (.believeNotification cbn)) :
    Path r may c (BelieveAcknowledgeJob.doVariableUpdate r c cbn) :=
  .single (.apply (notificationUpdate r c.ownID cbn) rfl received applies)

theorem applied_notificationUpdate (r : Readings) (c : Cace) (cbn : CaceBelieveNotification) :
    .applied (.believeNotification cbn) ∈
      (BelieveAcknowledgeJob.doVariableUpdate r c cbn).history :=
  applied_updateVariable c (notificationUpdate r c.ownID cbn)

theorem believeAcknowledge_path {c : Cace} {cbn : CaceBelieveNotification} {id : Int}
    {expected : List Int} (received : .received (.believeNotification cbn) ∈ c.history)
    (named : id = toShort cbn.msgID ∨
      ∃ j, .believeAcknowledge j ∈ c.jobs ∧ j.notification = cbn ∧ j.msgID = id)
    (applied : .applied (.believeNotification cbn) ∈ c.history) :
    Path r may c (BelieveAcknowledgeJob.acknowledge c cbn id expected) ∧
      OnlySends c (BelieveAcknowledgeJob.acknowledge c cbn id expected) := by
  unfold BelieveAcknowledgeJob.acknowledge
  dsimp only
  have fold (robots : List Int) : ∀ d, OnlySends c d →
      Path r may d (robots.foldl (fun d robot => d.sendCaceAcknowledge
        (c.deref (.stored cbn.variableName)).name (c.deref (.stored cbn.variableName)).val
        id robot (c.deref (.stored cbn.variableName)).type) d) ∧
      OnlySends c (robots.foldl (fun d robot => d.sendCaceAcknowledge
        (c.deref (.stored cbn.variableName)).name (c.deref (.stored cbn.variableName)).val
        id robot (c.deref (.stored cbn.variableName)).type) d) := by
    induction robots with
    | nil => exact fun d now => ⟨.refl, now⟩
    | cons robot robots ih =>
      intro d now
      have sent := @sendCaceAcknowledge_notification_path r may d cbn id
        (now.history.subset received) (by rw [now.jobs]; exact named)
        (now.history.subset applied) robot
      rw [now.deref] at sent
      obtain ⟨rest, only⟩ := ih _ (now.trans (send_onlySends d _ _))
      exact ⟨sent.trans rest, only⟩
  exact fold expected c (.refl c)

theorem believeAcknowledgeJob_path {c : Cace} {robotids : List Int} {lamportTime : Nat}
    {cbn : CaceBelieveNotification} (received : .received (.believeNotification cbn) ∈ c.history)
    (applies : may.applies (.believeNotification cbn)) :
    Path r may c
      (BelieveAcknowledgeJob.construct r c robotids lamportTime cbn).1 := by
  have updated : Path r may c (BelieveAcknowledgeJob.doVariableUpdate r c cbn) :=
    notificationUpdate_path received applies
  unfold BelieveAcknowledgeJob.construct
  dsimp only
  split
  · exact .refl
  · split
    · exact updated.trans
        (believeAcknowledge_path (updated.history.subset received) (.inl rfl)
          (applied_notificationUpdate r c cbn)).1
    · exact updated

theorem shortAckAnswer_path {c : Cace} {ack : CaceAcknowledge}
    (received : .received (.acknowledge ack) ∈ c.history)
    (applies : may.applies (.acknowledge ack)) :
    Path r may c (ShortAckJob.answer r c ack) := by
  have updated : Path r may c (ShortAckJob.doVariableUpdate r c ack) :=
    .single (.apply (acknowledgeUpdate r c.ownID ack) rfl received applies)
  unfold ShortAckJob.answer
  dsimp only
  split
  next level =>
    exact updated.trans (sendCaceShortAck_path (updated.history.subset received) level)
  next => exact updated

theorem writeAckAnswer_path {c : Cace} {cmd : CaceCommand}
    (received : .received (.write cmd) ∈ c.history) :
    Path r may c (WriteAckJob.answer r c cmd) := by
  have written : Path r may c (WriteAckJob.doVariableUpdate r c cmd) :=
    .single (.write cmd received)
  exact written.trans (sendCaceWriteAck_path (written.history.subset received))

end Constructors

section Process

/-- What `process()` owes: effects, a job that keeps received messages only, and no other
list of jobs. -/
structure Processed (r : Readings) (may : Licence) (c c' : Cace) (job : Job) : Prop where
  path : Path r may c c'
  held : ∀ m ∈ job.held, .received m ∈ c'.history
  jobs : c'.jobs = c.jobs

/-- A path keeps the messages of a job received. -/
private theorem processed_of_path {c c' : Cace} {job job' : Job}
    (path : Path r may c c') (held : ∀ m ∈ job.held, .received m ∈ c.history)
    (same : job'.held = job.held) (jobs : c'.jobs = c.jobs) : Processed r may c c' job' :=
  ⟨path, fun m member => path.history.subset (held m (same ▸ member)), jobs⟩

/-- In this state the job sends its command again. -/
def ResendsCommand (r : Readings) (c : Cace) (job : CommandJob) : Prop :=
  .fireAndForget < (c.deref job.variablePtr).strategy ∧ c.quiet = false ∧
    resendLog r (eraseUpdated (c.deref job.variablePtr).proposals job.lamportTime
      job.expectedRobotIDs) job.entities ≠ []

instance (r : Readings) (c : Cace) (job : CommandJob) : Decidable (ResendsCommand r c job) :=
  inferInstanceAs (Decidable (_ ∧ _ ∧ _))

/-- If the job sends its command again, it does so within the licence. -/
def ResendsWithin (may : Licence) (r : Readings) (c : Cace) (job : Job) : Prop :=
  ∀ j, job = .command j → ResendsCommand r c j → ∀ d, OnlySends c d → may.repeats d j

theorem commandJob_process {c : Cace} {job : CommandJob} (member : .command job ∈ c.jobs)
    (repeats : ResendsWithin may r c (.command job)) :
    Processed r may c (job.process r c).1 (.command (job.process r c).2.1) := by
  have loop := @resendLoop_path may r
    (fun d i => d.sendCaceCommandAt (c.deref job.variablePtr) job.msgID job.value i job.lamportTime
      .again)
    (eraseUpdated (c.deref job.variablePtr).proposals job.lamportTime job.expectedRobotIDs) c
    job.entities
  unfold CommandJob.process
  dsimp only
  split
  next level =>
    obtain ⟨path, only⟩ := loop
      (fun d i late only => by
        rw [← only.deref]
        refine sendCaceCommandAt_again_path (only.jobs ▸ member) i (only.deref ▸ level) fun loud =>
          repeats job rfl ⟨level, ?_, List.ne_nil_of_mem late⟩ d only
        exact (congrArg Config.quiet only.config).symm.trans loud)
      fun d i => publishUnlessQuiet_onlySends d _ _
    exact ⟨path, by simp [Job.held], only.jobs⟩
  next => exact ⟨.refl, by simp [Job.held], rfl⟩

theorem believeNotificationJob_process {c : Cace} {job : BelieveNotificationJob}
    (member : .believeNotification job ∈ c.jobs) :
    Processed r may c (job.process r c).1 (.believeNotification (job.process r c).2.1) := by
  have loop := @resendLoop_path may r
    (fun d i => d.sendCaceBelieveNotificationAt (c.deref job.variablePtr) job.msgID i
      job.lamportTime .again)
    (eraseUpdated (c.deref job.variablePtr).proposals job.lamportTime job.expectedRobotIDs) c
    job.entities
  unfold BelieveNotificationJob.process
  dsimp only
  split
  next level =>
    obtain ⟨path, only⟩ := loop
      (fun d i _ only => by
        rw [← only.deref]
        exact sendCaceBelieveNotificationAt_again_path (only.jobs ▸ member) i (only.deref ▸ level))
      fun d i => publishUnlessQuiet_onlySends d _ _
    exact ⟨path, by simp [Job.held], only.jobs⟩
  next => exact ⟨.refl, by simp [Job.held], rfl⟩

/-- What catching up leaves of the job, as far as the messages show it. -/
structure CatchesUp (c c' : Cace) (job caught : CommandAcknowledgeJob) : Prop where
  command : caught.command = job.command
  msgID : caught.msgID = job.msgID
  pointer : caught.cv = job.cv ∧ ¬ (job.attempts = 0 ∧ c.safeStepMode = true) ∨
    caught.cv = some (.stored job.command.variableName) ∧
      .applied (.command job.command) ∈ c'.history
  time : caught.ownLamportTime = job.ownLamportTime ∨ c.safeStepMode = true ∧ job.attempts = 0

theorem commandAcknowledgeJob_catchUp {c : Cace} {job : CommandAcknowledgeJob}
    (member : .commandAcknowledge job ∈ c.jobs)
    (received : .received (.command job.command) ∈ c.history)
    (applies : c.safeStepMode = true → may.applies (.command job.command)) :
    Path r may c (job.catchUp r c).1 ∧ (job.catchUp r c).1.jobs = c.jobs ∧
      CatchesUp c (job.catchUp r c).1 job (job.catchUp r c).2 := by
  have frame := updateVariable_frame c (commandUpdate r c.ownID job.command)
  have jobs : (CommandAcknowledgeJob.doVariableUpdate r c job.command).jobs = c.jobs := by
    rw [CommandAcknowledgeJob.doVariableUpdate, frame]
  unfold CommandAcknowledgeJob.catchUp
  dsimp only
  split
  next late =>
    have updated : Path r may c (CommandAcknowledgeJob.doVariableUpdate r c job.command) :=
      commandUpdate_path received (applies late.2)
    have applied := applied_commandUpdate r c job.command
    split
    · have sends := send_onlySends (CommandAcknowledgeJob.doVariableUpdate r c job.command)
      refine ⟨updated.trans (sendCaceAcknowledge_command_path (updated.history.subset received)
        (jobs.symm ▸ member) applied), (sends _ _).jobs.trans jobs, rfl, rfl,
        .inr ⟨rfl, (sends _ _).history.subset applied⟩, .inr ⟨late.2, late.1⟩⟩
    · exact ⟨updated, jobs, rfl, rfl, .inr ⟨rfl, applied⟩, .inl rfl⟩
  next early => exact ⟨.refl, rfl, rfl, rfl, .inl ⟨rfl, early⟩, .inl rfl⟩

theorem commandAcknowledgeJob_process {c : Cace} {job : CommandAcknowledgeJob}
    (queued : c.Queued) (member : .commandAcknowledge job ∈ c.jobs)
    (received : .received (.command job.command) ∈ c.history)
    (applies : c.safeStepMode = true → may.applies (.command job.command)) :
    Processed r may c (job.process r c).1
      (.commandAcknowledge (job.process r c).2.1) := by
  obtain ⟨caught, jobs, same⟩ := @commandAcknowledgeJob_catchUp r may c job member received applies
  have held : ∀ m ∈ (Job.commandAcknowledge job).held, .received m ∈ c.history := by
    intro m member
    obtain rfl : m = .command job.command := by simpa [Job.held] using member
    exact received
  let answered := ((job.catchUp r c).1.getCaceShortAcksAndRemove (job.catchUp r c).2.msgID).2
  have taken : Path r may c answered :=
    caught.trans (getCaceShortAcksAndRemove_path (caught.queued queued) _)
  have config : config answered = config c := taken.config
  let cv := ((job.catchUp r c).2.cv.map answered.deref).getD default
  have loop := @resendLoop_path may r
    (fun d i => d.sendCaceAcknowledgeAt cv.name cv.val (job.catchUp r c).2.msgID i cv.type
      (job.catchUp r c).2.ownLamportTime .again)
    (eraseAnswered ((job.catchUp r c).1.getCaceShortAcksAndRemove (job.catchUp r c).2.msgID).1
      (job.catchUp r c).2.expectedRobotIDs) answered (job.catchUp r c).2.entities
    (fun d i _ only => by
      have there : .commandAcknowledge job ∈ d.jobs := only.jobs ▸ jobs ▸ member
      have mode : d.safeStepMode = c.safeStepMode :=
        congrArg Config.safeStepMode (only.config.trans config)
      have content := Resent.acknowledge (c := d) job i (job.catchUp r c).2.cv
        (job.catchUp r c).2.ownLamportTime
        (same.pointer.imp (by rw [mode]; exact id) (.imp_right (only.history.subset ·)))
        (by rw [mode]; exact same.time)
      rw [only.deref, ← same.msgID] at content
      exact resendAcknowledge_path there content)
    fun d i => publishUnlessQuiet_onlySends d _ _
  unfold CommandAcknowledgeJob.process
  dsimp only
  split
  · split
    · exact processed_of_path (taken.trans loop.1) held
        (congrArg (fun command => [Message.command command]) same.command)
        (loop.2.jobs.trans jobs)
    · exact processed_of_path taken held
        (congrArg (fun command => [Message.command command]) same.command) jobs
  · exact processed_of_path caught held
      (congrArg (fun command => [Message.command command]) same.command) jobs

theorem believeAcknowledgeJob_catchUp {c : Cace} {job : BelieveAcknowledgeJob}
    (member : .believeAcknowledge job ∈ c.jobs)
    (received : .received (.believeNotification job.notification) ∈ c.history)
    (applies : c.safeStepMode = true → may.applies (.believeNotification job.notification)) :
    Path r may c (job.catchUp r c).1 ∧ (job.catchUp r c).1.jobs = c.jobs ∧
      (job.catchUp r c).2.notification = job.notification ∧
      (job.catchUp r c).2.msgID = job.msgID ∧
      ((job.catchUp r c).2.ownLamportTime = job.ownLamportTime ∨
        c.safeStepMode = true ∧ job.attempts = 0) := by
  have frame := updateVariable_frame c (notificationUpdate r c.ownID job.notification)
  have jobs : (BelieveAcknowledgeJob.doVariableUpdate r c job.notification).jobs = c.jobs := by
    rw [BelieveAcknowledgeJob.doVariableUpdate, frame]
  unfold BelieveAcknowledgeJob.catchUp
  dsimp only
  split
  next late =>
    have updated : Path r may c
        (BelieveAcknowledgeJob.doVariableUpdate r c job.notification) :=
      notificationUpdate_path received (applies late.2)
    split
    · obtain ⟨sent, only⟩ := @believeAcknowledge_path r may _ _ _ job.expectedRobotIDs
        (updated.history.subset received) (.inr ⟨job, jobs.symm ▸ member, rfl, rfl⟩)
        (applied_notificationUpdate r c job.notification)
      exact ⟨updated.trans sent, only.jobs.trans jobs, rfl, rfl, .inr ⟨late.2, late.1⟩⟩
    · exact ⟨updated, jobs, rfl, rfl, .inl rfl⟩
  next => exact ⟨.refl, rfl, rfl, rfl, .inl rfl⟩

theorem believeAcknowledgeJob_process {c : Cace} {job : BelieveAcknowledgeJob}
    (queued : c.Queued) (member : .believeAcknowledge job ∈ c.jobs)
    (received : .received (.believeNotification job.notification) ∈ c.history)
    (applies : c.safeStepMode = true → may.applies (.believeNotification job.notification)) :
    Processed r may c (job.process r c).1
      (.believeAcknowledge (job.process r c).2.1) := by
  obtain ⟨caught, jobs, same, msgID, time⟩ :=
    @believeAcknowledgeJob_catchUp r may c job member received applies
  have held : ∀ m ∈ (Job.believeAcknowledge job).held, .received m ∈ c.history := by
    intro m member
    obtain rfl : m = .believeNotification job.notification := by simpa [Job.held] using member
    exact received
  let answered := ((job.catchUp r c).1.getCaceShortAcksAndRemove (job.catchUp r c).2.msgID).2
  have taken : Path r may c answered :=
    caught.trans (getCaceShortAcksAndRemove_path (caught.queued queued) _)
  have config : config answered = config c := taken.config
  have loop := @resendLoop_path may r
    (fun d i => d.sendCaceAcknowledgeAt (job.catchUp r c).2.notification.variableName
      (job.catchUp r c).2.notification.value (job.catchUp r c).2.msgID i
      (job.catchUp r c).2.notification.type (job.catchUp r c).2.ownLamportTime .again)
    (eraseAnswered ((job.catchUp r c).1.getCaceShortAcksAndRemove (job.catchUp r c).2.msgID).1
      (job.catchUp r c).2.expectedRobotIDs) answered (job.catchUp r c).2.entities
    (fun d i _ only => by
      have there : .believeAcknowledge job ∈ d.jobs := only.jobs ▸ jobs ▸ member
      have mode : d.safeStepMode = c.safeStepMode :=
        congrArg Config.safeStepMode (only.config.trans config)
      have content := Resent.answer (c := d) job i (job.catchUp r c).2.ownLamportTime
        (by rw [mode]; exact time)
      rw [← same, ← msgID] at content
      exact resendAcknowledge_path there content)
    fun d i => publishUnlessQuiet_onlySends d _ _
  unfold BelieveAcknowledgeJob.process
  dsimp only
  split
  · split
    · exact processed_of_path (taken.trans loop.1) held
        (congrArg (fun notification => [Message.believeNotification notification]) same)
        (loop.2.jobs.trans jobs)
    · exact processed_of_path taken held
        (congrArg (fun notification => [Message.believeNotification notification]) same) jobs
  · exact processed_of_path caught held
      (congrArg (fun notification => [Message.believeNotification notification]) same) jobs

theorem shortAckAnswer_jobs (r : Readings) (c : Cace) (ack : CaceAcknowledge) :
    (ShortAckJob.answer r c ack).jobs = c.jobs := by
  have frame := updateVariable_frame c (acknowledgeUpdate r c.ownID ack)
  have jobs : (ShortAckJob.doVariableUpdate r c ack).jobs = c.jobs := by
    rw [ShortAckJob.doVariableUpdate, frame]
  unfold ShortAckJob.answer
  dsimp only
  split
  · exact (send_onlySends _ _ _).jobs.trans jobs
  · exact jobs

theorem writeAckAnswer_jobs (r : Readings) (c : Cace) (cmd : CaceCommand) :
    (WriteAckJob.answer r c cmd).jobs = c.jobs := by
  have jobs : (WriteAckJob.doVariableUpdate r c cmd).jobs = c.jobs := by
    rw [writeUpdate_frame]
  exact (send_onlySends _ _ _).jobs.trans jobs

theorem shortAckJob_process {c : Cace} {job : ShortAckJob}
    (received : .received (.acknowledge job.ack) ∈ c.history)
    (applies : c.safeStepMode = true → may.applies (.acknowledge job.ack)) :
    Processed r may c (job.process r c).1 (.shortAck (job.process r c).2.1) := by
  have held : ∀ m ∈ (Job.shortAck job).held, .received m ∈ c.history := by
    simpa [Job.held] using received
  unfold ShortAckJob.process
  dsimp only
  split
  next late =>
    exact processed_of_path (shortAckAnswer_path received (applies late.2)) held rfl
      (shortAckAnswer_jobs r c job.ack)
  next => exact processed_of_path .refl held rfl rfl

theorem writeAckJob_process {c : Cace} {job : WriteAckJob}
    (received : .received (.write job.cmd) ∈ c.history) :
    Processed r may c (job.process r c).1 (.writeAck (job.process r c).2.1) := by
  have held : ∀ m ∈ (Job.writeAck job).held, .received m ∈ c.history := by
    simpa [Job.held] using received
  unfold WriteAckJob.process
  dsimp only
  split
  · exact processed_of_path (writeAckAnswer_path received) held rfl
      (writeAckAnswer_jobs r c job.cmd)
  · exact processed_of_path .refl held rfl rfl

theorem writeJob_process {c : Cace} {job : WriteJob} {p : Cace × WriteJob × Bool}
    (queued : c.Queued) (member : .write job ∈ c.jobs)
    (held : ∀ m ∈ (Job.write job).held, .received m ∈ c.history)
    (success : job.process r c = .ok p) :
    Processed r may c p.1 (.write p.2.1) := by
  let answered := (c.getWriteAcknowledgesAndRemove job.msgID).2
  have taken : Path r may c answered := getWriteAcknowledgesAndRemove_path queued job.msgID
  unfold WriteJob.process at success
  dsimp only at success
  split at success
  next => cases success
  next expected _ =>
    have loop := @resendLoop_path may r
      (fun d i => d.sendWriteCommand (answered.deref job.variablePtr) job.msgID i .again)
      expected answered job.entities (fun d i _ only => by
        rw [← only.deref]
        exact sendWriteCommand_again_path (only.jobs ▸ member) i)
      fun d i => publish_onlySends d _ _
    have path : Path r may c p.1 := by
      rw [← Except.ok.inj success]
      exact taken.trans loop.1
    refine ⟨path, ?_, by rw [← Except.ok.inj success]; exact loop.2.jobs⟩
    intro m keeps
    rw [← Except.ok.inj success] at keeps
    simp only [Job.held, List.map_append, List.mem_append] at keeps
    rcases keeps with kept | taken
    · exact path.history.subset (held m (by simpa [Job.held] using kept))
    · refine path.history.subset (queued.received m (mem_held.mpr ?_))
      obtain ⟨ca, caMember, rfl⟩ := List.mem_map.mp taken
      exact .inr (.inr (.inr (.inl ⟨ca, List.mem_of_mem_filter caMember, rfl⟩)))

theorem requestJob_process {c : Cace} {job : RequestJob} (member : .request job ∈ c.jobs) :
    Processed r may c (job.process r c).1 (.request (job.process r c).2.1) := by
  have loop := @resendLoop_path may r
    (fun d i => d.sendCaceVariableRequestAt i job.msgID job.name .again)
    job.expectedRobotIDs c job.entities
    (fun d i _ only => sendCaceVariableRequestAt_again_path (only.jobs ▸ member) i)
    fun d i => publish_onlySends d _ _
  unfold RequestJob.process
  dsimp only
  split
  · exact ⟨.refl, by simp [Job.held], rfl⟩
  · exact ⟨loop.1, by simp [Job.held], loop.2.jobs⟩

/-- `process()` of any job. -/
theorem job_process {c c' : Cace} {job job' : Job} {finished : Bool} (queued : c.Queued)
    (member : job ∈ c.jobs)
    (applies : c.safeStepMode = true → ∀ m ∈ job.held, may.applies m)
    (repeats : ResendsWithin may r c job) (success : job.process r c = .ok (c', job', finished)) :
    Processed r may c c' job' := by
  have held : ∀ m ∈ job.held, .received m ∈ c.history := fun m keeps =>
    queued.received m (mem_held.mpr (.inr (.inr (.inr (.inr ⟨job, member, keeps⟩)))))
  cases job with
  | write j =>
    simp only [Job.process] at success
    split at success
    next p done =>
      obtain ⟨rfl, rfl, rfl⟩ := by simpa using success
      exact writeJob_process queued member held done
    next => cases success
  | command j =>
    obtain ⟨rfl, rfl, rfl⟩ := by simpa [Job.process] using success
    exact commandJob_process member repeats
  | commandAcknowledge j =>
    obtain ⟨rfl, rfl, rfl⟩ := by simpa [Job.process] using success
    exact commandAcknowledgeJob_process queued member (held _ (by simp [Job.held]))
      fun late => applies late _ (by simp [Job.held])
  | believeNotification j =>
    obtain ⟨rfl, rfl, rfl⟩ := by simpa [Job.process] using success
    exact believeNotificationJob_process member
  | believeAcknowledge j =>
    obtain ⟨rfl, rfl, rfl⟩ := by simpa [Job.process] using success
    exact believeAcknowledgeJob_process queued member (held _ (by simp [Job.held]))
      fun late => applies late _ (by simp [Job.held])
  | shortAck j =>
    obtain ⟨rfl, rfl, rfl⟩ := by simpa [Job.process] using success
    exact shortAckJob_process (held _ (by simp [Job.held]))
      fun late => applies late _ (by simp [Job.held])
  | writeAck j =>
    obtain ⟨rfl, rfl, rfl⟩ := by simpa [Job.process] using success
    exact writeAckJob_process (held _ (by simp [Job.held]))
  | request j =>
    obtain ⟨rfl, rfl, rfl⟩ := by simpa [Job.process] using success
    exact requestJob_process member

end Process

end CaceProofs.Guarantees
