import CaceProofs.Guarantees.Retransmission
import CaceProofs.Guarantees.StoreView

/-!
# The messages that act on the store

Sends, resends and queues leave the store alone; the update of a message acts on it. A job
runs its update when it is built or, in safe step mode, in `process()`.
-/
namespace CaceProofs.Source

/-- The update that a job runs in the step, if safe step mode is on. -/
def Job.due : Job → List Message
  | .commandAcknowledge j => if j.attempts = 0 then [.command j.command] else []
  | .believeAcknowledge j => if j.attempts = 0 then [.believeNotification j.notification] else []
  | .shortAck j => if j.attempts = 0 then [.acknowledge j.ack] else []
  | .writeAck j => if j.attempts = 0 then [.write j.cmd] else []
  | .command _ | .believeNotification _ | .write _ | .request _ => []

/-- The messages that update a variable. -/
def Message.acts : Message → Bool
  | .command _ | .believeNotification _ | .acknowledge _ | .write _ => true
  | .shortAck _ | .time _ | .variableRequest _ | .writeAck _ | .response _ => false

/-- Whether `process()` gets through, where no write acknowledge is queued. -/
def Job.sound : Job → Bool
  | .write j =>
    (WriteJob.eraseAcknowledged j.acks j.expectedRobotIDs.length j.expectedRobotIDs 0).toBool
  | _ => true

end CaceProofs.Source

namespace CaceProofs.Guarantees
open Source Library

/-- The messages whose variable updates have been run, in order. -/
def appliedMessages (history : List Observation) : List Message :=
  history.filterMap fun
    | .applied m => some m
    | .received _ | .published _ _ | .notified _ => none

theorem appliedMessages_notified {seen : List Observation} {name : Name}
    (notified : ∀ o ∈ seen, o = .notified name) : appliedMessages seen = [] := by
  refine List.filterMap_eq_nil_iff.mpr fun o member => ?_
  rw [notified o member]

/-- What a function of the model does that runs the updates of the messages and leaves what
waits for an update as it is. -/
structure Applies (ms : List Message) (c c' : Cace) : Prop where
  config : config c' = config c
  jobs : c'.jobs = c.jobs
  commands : c'.commands = c.commands
  believeNotifications : c'.believeNotifications = c.believeNotifications
  applied : appliedMessages c'.history = appliedMessages c.history ++ ms

namespace Applies

variable {ms ms' : List Message} {a b c c' : Cace}

/-- No update is run. -/
theorem silent (config : Guarantees.config c' = Guarantees.config c) (jobs : c'.jobs = c.jobs)
    (commands : c'.commands = c.commands)
    (believeNotifications : c'.believeNotifications = c.believeNotifications)
    (applied : appliedMessages c'.history = appliedMessages c.history) : Applies [] c c' :=
  ⟨config, jobs, commands, believeNotifications, applied.trans (List.append_nil _).symm⟩

theorem refl (c : Cace) : Applies [] c c := .silent rfl rfl rfl rfl rfl

theorem trans (first : Applies ms a b) (second : Applies ms' b c) :
    Applies (ms ++ ms') a c where
  config := second.config.trans first.config
  jobs := second.jobs.trans first.jobs
  commands := second.commands.trans first.commands
  believeNotifications := second.believeNotifications.trans first.believeNotifications
  applied := by rw [second.applied, first.applied, List.append_assoc]

/-- No update is run after those of the messages. -/
theorem still (first : Applies ms a b) (second : Applies [] b c) : Applies ms a c :=
  List.append_nil ms ▸ first.trans second

end Applies

/-- What a function of the model does in which messages act on the store: nothing else that
a later update could depend on changes. -/
structure Absorbs (ms : List Message) (c c' : Cace) : Prop extends Applies ms c c' where
  writeAcknowledges : c.writeAcknowledges = [] → c'.writeAcknowledges = []
  view : view c' = ms.foldl (StoreView.absorb c.ownID) (view c)

namespace Absorbs

variable {ms ms' : List Message} {a b c c' : Cace}

theorem refl (c : Cace) : Absorbs [] c c :=
  ⟨.refl c, id, rfl⟩

theorem trans (first : Absorbs ms a b) (second : Absorbs ms' b c) : Absorbs (ms ++ ms') a c where
  toApplies := first.toApplies.trans second.toApplies
  writeAcknowledges none := second.writeAcknowledges (first.writeAcknowledges none)
  view := by
    have same : b.ownID = a.ownID := congrArg Config.ownID first.config
    rw [second.view, first.view, same, List.foldl_append]

/-- Nothing acts on the store after the messages. -/
theorem still (first : Absorbs ms a b) (second : Absorbs [] b c) : Absorbs ms a c :=
  List.append_nil ms ▸ first.trans second

theorem foldl {α : Type} {f : Cace → α → Cace} (each : ∀ c a, Absorbs [] c (f c a)) (l : List α)
    (c : Cace) : Absorbs [] c (l.foldl f c) := by
  induction l generalizing c with
  | nil => exact refl c
  | cons x l ih => exact (each c x).still (ih _)

end Absorbs

section Sends

variable (c : Cace) (m : Message) (t : Transmission)

theorem tick_absorbs : Absorbs [] c c.tickLamportTime :=
  ⟨.silent rfl rfl rfl rfl rfl, id, rfl⟩

theorem publish_absorbs : Absorbs [] c (c.publish m t) := by
  refine ⟨.silent rfl rfl rfl rfl ?_, id, rfl⟩
  simp [Cace.publish, Cace.observe, appliedMessages]

theorem publishUnlessQuiet_absorbs : Absorbs [] c (c.publishUnlessQuiet m t) := by
  unfold Cace.publishUnlessQuiet
  split
  · exact .refl c
  · exact publish_absorbs c m t

theorem send_absorbs : Absorbs [] c (c.tickLamportTime.publishUnlessQuiet m t) :=
  (tick_absorbs c).still (publishUnlessQuiet_absorbs _ m t)

theorem resendLoop_absorbs {r : Readings} {send : Cace → Int → Cace}
    (each : ∀ c i, Absorbs [] c (send c i)) (expected : List Int)
    (entities : List JobStateEntity) (c : Cace) :
    Absorbs [] c (resendLoop r send expected entities c).cace := by
  rw [resendLoop_cace]
  exact .foldl each _ c

end Sends

section Updates

variable (r : Readings) (c : Cace)

theorem applyMessage_frame (m : Message) :
    applyMessage r c m =
      { c with
        store := (applyMessage r c m).store
        history := (applyMessage r c m).history } := by
  cases m with
  | command | believeNotification | acknowledge => exact updateVariable_frame c _
  | write cmd => exact writeUpdate_frame r c cmd
  | shortAck | time | variableRequest | writeAck | response => rfl

theorem applyMessage_history {m : Message} (acts : m.acts = true) : ∃ seen name,
    (applyMessage r c m).history = c.history ++ .applied m :: seen ∧
      ∀ o ∈ seen, o = .notified name := by
  cases m with
  | command | believeNotification | acknowledge =>
    obtain ⟨seen, history, notified⟩ := updateVariable_history c _
    exact ⟨seen, _, history, notified⟩
  | write cmd =>
    obtain ⟨seen, history, notified⟩ := writeUpdate_history r c cmd
    exact ⟨seen, _, history, notified⟩
  | shortAck | time | variableRequest | writeAck | response => cases acts

theorem applyMessage_absorbs {m : Message} (acts : m.acts = true) :
    Absorbs [m] c (applyMessage r c m) := by
  have frame := applyMessage_frame r c m
  refine ⟨⟨?_, ?_, ?_, ?_, ?_⟩, fun none => ?_, view_applyMessage r c m⟩
  · rw [frame]; rfl
  · rw [frame]
  · rw [frame]
  · rw [frame]
  · obtain ⟨seen, name, history, notified⟩ := applyMessage_history r c acts
    have after := appliedMessages_notified notified
    unfold appliedMessages at after ⊢
    rw [history, List.filterMap_append, List.filterMap_cons, after]
  · rw [frame]; exact none

theorem shortAckAnswer_absorbs (ack : CaceAcknowledge) :
    Absorbs [.acknowledge ack] c (ShortAckJob.answer r c ack) := by
  have updated : Absorbs [.acknowledge ack] c (ShortAckJob.doVariableUpdate r c ack) :=
    applyMessage_absorbs r c rfl
  unfold ShortAckJob.answer
  dsimp only
  split
  · exact updated.still (send_absorbs _ _ _)
  · exact updated

theorem writeAckAnswer_absorbs (cmd : CaceCommand) :
    Absorbs [.write cmd] c (WriteAckJob.answer r c cmd) :=
  (applyMessage_absorbs r c (m := .write cmd) rfl).still (send_absorbs _ _ _)

theorem acknowledge_absorbs (cbn : CaceBelieveNotification) (msgID : Int) (ids : List Int) :
    Absorbs [] c (BelieveAcknowledgeJob.acknowledge c cbn msgID ids) :=
  .foldl (fun _ _ => send_absorbs _ _ _) ids c

end Updates

section Process

variable (r : Readings) (c : Cace)

/-- The messages that the processing of a job lets act on the store. -/
def dueIn (c : Cace) (job : Job) : List Message :=
  if c.safeStepMode then job.due else []

theorem dueIn_config {c c' : Cace} (same : config c' = config c) : dueIn c' = dueIn c := by
  have mode : c'.safeStepMode = c.safeStepMode := congrArg Config.safeStepMode same
  funext job
  rw [dueIn, mode]
  rfl

theorem commandAcknowledge_catchUp_absorbs (j : CommandAcknowledgeJob) :
    Absorbs (dueIn c (.commandAcknowledge j)) c (j.catchUp r c).1 := by
  have updated : Absorbs [.command j.command] c
      (CommandAcknowledgeJob.doVariableUpdate r c j.command) := applyMessage_absorbs r c rfl
  unfold CommandAcknowledgeJob.catchUp
  dsimp only
  split
  next late =>
    have due : dueIn c (.commandAcknowledge j) = [.command j.command] := by
      simp [dueIn, Job.due, late]
    rw [due]
    split
    · exact updated.still (send_absorbs _ _ _)
    · exact updated
  next early =>
    have due : dueIn c (.commandAcknowledge j) = [] := by
      simp only [dueIn, Job.due, ite_eq_right_iff, List.cons_ne_nil, imp_false]
      exact fun safe new => early ⟨new, safe⟩
    rw [due]
    exact .refl c

theorem believeAcknowledge_catchUp_absorbs (j : BelieveAcknowledgeJob) :
    Absorbs (dueIn c (.believeAcknowledge j)) c (j.catchUp r c).1 := by
  have updated : Absorbs [.believeNotification j.notification] c
      (BelieveAcknowledgeJob.doVariableUpdate r c j.notification) := applyMessage_absorbs r c rfl
  unfold BelieveAcknowledgeJob.catchUp
  dsimp only
  split
  next late =>
    have due : dueIn c (.believeAcknowledge j) = [.believeNotification j.notification] := by
      simp [dueIn, Job.due, late]
    rw [due]
    split
    · exact updated.still (acknowledge_absorbs _ _ _ _)
    · exact updated
  next early =>
    have due : dueIn c (.believeAcknowledge j) = [] := by
      simp only [dueIn, Job.due, ite_eq_right_iff, List.cons_ne_nil, imp_false]
      exact fun safe new => early ⟨new, safe⟩
    rw [due]
    exact .refl c

/-- An answering job answers in the step or not at all. -/
theorem answer_absorbs {c' : Cace} {attempts : Nat} {m : Message} (job : Job)
    (due : job.due = if attempts = 0 then [m] else []) (answered : Absorbs [m] c c') :
    Absorbs (dueIn c job) c (if attempts = 0 ∧ c.safeStepMode then c' else c) := by
  unfold dueIn
  rw [due]
  by_cases safe : c.safeStepMode = true
  · by_cases new : attempts = 0
    · simpa [safe, new] using answered
    · simpa [safe, new] using Absorbs.refl c
  · simpa [safe] using Absorbs.refl c

theorem shortAcks_absorbs (msgID : Int) : Absorbs [] c (c.getCaceShortAcksAndRemove msgID).2 :=
  ⟨.silent rfl rfl rfl rfl rfl, id, rfl⟩

theorem commandAcknowledge_absorbs (j : CommandAcknowledgeJob) :
    Absorbs (dueIn c (.commandAcknowledge j)) c (j.process r c).1 := by
  have caught := commandAcknowledge_catchUp_absorbs r c j
  have answered := caught.still
    (shortAcks_absorbs (j.catchUp r c).1 (j.catchUp r c).2.msgID)
  unfold CommandAcknowledgeJob.process
  dsimp only
  split
  · split
    · exact answered.still (resendLoop_absorbs (fun _ _ => publishUnlessQuiet_absorbs _ _ _) _ _ _)
    · exact answered
  · exact caught

theorem believeAcknowledge_absorbs (j : BelieveAcknowledgeJob) :
    Absorbs (dueIn c (.believeAcknowledge j)) c (j.process r c).1 := by
  have caught := believeAcknowledge_catchUp_absorbs r c j
  have answered := caught.still
    (shortAcks_absorbs (j.catchUp r c).1 (j.catchUp r c).2.msgID)
  unfold BelieveAcknowledgeJob.process
  dsimp only
  split
  · split
    · exact answered.still (resendLoop_absorbs (fun _ _ => publishUnlessQuiet_absorbs _ _ _) _ _ _)
    · exact answered
  · exact caught

theorem dueIn_none (job : Job) (due : job.due = []) : dueIn c job = [] := by
  simp [dueIn, due]

/-- `process()` of a write job, if it gets through. -/
theorem write_absorbs {j j' : WriteJob} {c c' : Cace} {finished : Bool}
    (done : j.process r c = .ok (c', j', finished)) : Absorbs [] c c' := by
  have taken : Absorbs [] c (c.getWriteAcknowledgesAndRemove j.msgID).2 :=
    ⟨.silent rfl rfl rfl rfl rfl,
      fun none => by simp [Cace.getWriteAcknowledgesAndRemove, none], rfl⟩
  unfold WriteJob.process at done
  dsimp only at done
  split at done
  · cases done
  · cases done
    exact taken.still
      (resendLoop_absorbs (fun d _ => (tick_absorbs d).still (publish_absorbs _ _ _)) _ _ _)

/-- `process()` of any job that gets through lets what is due act. -/
theorem process_absorbs {job job' : Job} {c c' : Cace} {finished : Bool}
    (done : job.process r c = .ok (c', job', finished)) : Absorbs (dueIn c job) c c' := by
  cases job with
  | command j =>
    cases done
    rw [dueIn_none c (.command j) rfl]
    unfold CommandJob.process
    dsimp only
    split
    · exact resendLoop_absorbs (fun _ _ => publishUnlessQuiet_absorbs _ _ _) _ _ _
    · exact .refl c
  | believeNotification j =>
    cases done
    rw [dueIn_none c (.believeNotification j) rfl]
    unfold BelieveNotificationJob.process
    dsimp only
    split
    · exact resendLoop_absorbs (fun _ _ => publishUnlessQuiet_absorbs _ _ _) _ _ _
    · exact .refl c
  | commandAcknowledge j =>
    cases done
    exact commandAcknowledge_absorbs r c j
  | believeAcknowledge j =>
    cases done
    exact believeAcknowledge_absorbs r c j
  | shortAck j =>
    cases done
    exact answer_absorbs c _ rfl (shortAckAnswer_absorbs r c j.ack)
  | writeAck j =>
    cases done
    exact answer_absorbs c _ rfl (writeAckAnswer_absorbs r c j.cmd)
  | write j =>
    rw [dueIn_none c (.write j) rfl]
    cases processed : j.process r c with
    | ok p =>
      obtain ⟨d, j', ended⟩ := p
      simp only [Job.process, processed] at done
      cases done
      exact write_absorbs r processed
    | error fault =>
      simp only [Job.process, processed] at done
      cases done
  | request j =>
    cases done
    rw [dueIn_none c (.request j) rfl]
    unfold RequestJob.process
    dsimp only
    split
    · exact .refl c
    · exact resendLoop_absorbs (fun d _ => (tick_absorbs d).still (publish_absorbs _ _ _)) _ _ _

/-- `process()` gets through if the job is sound. -/
theorem process_sound (job : Job) (none : c.writeAcknowledges = []) :
    (job.process r c).toBool = job.sound := by
  cases job with
  | write j =>
    have acks : j.acks ++ (c.getWriteAcknowledgesAndRemove j.msgID).1 = j.acks := by
      simp [Cace.getWriteAcknowledgesAndRemove, none]
    simp only [Job.process, Job.sound]
    unfold WriteJob.process
    dsimp only
    rw [acks]
    cases WriteJob.eraseAcknowledged j.acks j.expectedRobotIDs.length j.expectedRobotIDs 0 <;> rfl
  | command | commandAcknowledge | believeNotification | believeAcknowledge | shortAck | writeAck
  | request => rfl

/-- An agent as the loop over the jobs leaves it where a job fails. -/
theorem remove_absorbs (c : Cace) (agents : List Int) (removes : Bool) :
    Absorbs [] c (if removes then { c with agentsToRemove := agents } else c) := by
  split
  · exact ⟨.silent rfl rfl rfl rfl rfl, id, rfl⟩
  · exact .refl c

/-- The loop over the jobs lets what is due act in the order of the jobs. -/
theorem processJobsLoop_absorbs {k : Nat} {jobs stay : List Job} {c c' : Cace}
    (done : c.processJobsLoop r k jobs = .ok (c', stay)) :
    Absorbs (jobs.flatMap (dueIn c)) c c' := by
  induction jobs generalizing k stay c with
  | nil =>
    cases done
    exact .refl _
  | cons job jobs ih =>
    unfold Cace.processJobsLoop at done
    split at done
    next => cases done
    next c1 job1 finished first =>
      have absorbed := (process_absorbs (r.forJob k) first).still
        (remove_absorbs c1 (c1.agentsToRemove ++ job1.base.expectedRobotIDs)
          (finished && job1.failed))
      dsimp only at done
      split at done
      next => cases done
      next c3 stay3 rest =>
        cases done
        have others := ih rest
        rw [dueIn_config absorbed.config] at others
        exact absorbed.trans others

/-- The loop gets through if all jobs are sound. -/
theorem processJobsLoop_sound (k : Nat) (jobs : List Job) (c : Cace)
    (none : c.writeAcknowledges = []) :
    (c.processJobsLoop r k jobs).toBool = jobs.all Job.sound := by
  induction jobs generalizing c k with
  | nil => rfl
  | cons job jobs ih =>
    have first := process_sound (r.forJob k) c job none
    unfold Cace.processJobsLoop
    rw [List.all_cons, ← first]
    cases done : job.process (r.forJob k) c with
    | error fault => rfl
    | ok p =>
      obtain ⟨c1, job1, finished⟩ := p
      have absorbed := (process_absorbs (r.forJob k) done).still
        (remove_absorbs c1 (c1.agentsToRemove ++ job1.base.expectedRobotIDs)
          (finished && job1.failed))
      dsimp only
      rw [← ih (k + 1) _ (absorbed.writeAcknowledges none)]
      cases Cace.processJobsLoop r (k + 1) jobs _ <;> rfl

end Process

end CaceProofs.Guarantees
