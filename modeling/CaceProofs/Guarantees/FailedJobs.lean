import CaceProofs.Guarantees.ConfirmedRobots
import CaceProofs.Guarantees.RetryBudget

/-!
# Failed jobs

A job that is done says that it has failed. `process()` counts the retries of the robots that
are still expected, so the count is zero when there is no such robot, and `failed()` cannot tell
success from exhaustion.
-/
namespace CaceProofs.Guarantees
open Source Library

variable {r : Readings} {c c' : Cace} {job job' : Job} {finished : Bool}

/-- A job as one of the constructors leaves it. -/
inductive BuiltJob : Job → Prop
  | command (r : Readings) (c : Cace) (variablePtr : VariablePtr) (value : Bytes)
      (robotids : List Int) (lamportTime : Nat) :
      BuiltJob (.command (CommandJob.construct r c variablePtr value robotids lamportTime).2)
  | believeNotification (r : Readings) (c : Cace) (variablePtr : VariablePtr)
      (robotids : List Int) (lamportTime : Nat) :
      BuiltJob (.believeNotification
        (BelieveNotificationJob.construct r c variablePtr robotids lamportTime).2)
  | commandAcknowledge (r : Readings) (c : Cace) (robotids : List Int) (lamportTime : Nat)
      (cmd : CaceCommand) :
      BuiltJob (.commandAcknowledge
        (CommandAcknowledgeJob.construct r c robotids lamportTime cmd).2)
  | write (r : Readings) (c : Cace) (variablePtr : VariablePtr) (target : Int)
      (lamportTime : Nat) :
      BuiltJob (.write (WriteJob.construct r c variablePtr target lamportTime).2)

/-- A `process()` call, whatever has become of the agent since the one before. -/
def CallOn (job : Job) (call : Readings × Cace × Cace) (job' : Job) : Prop :=
  ∃ finished, job.process call.1 call.2.1 = .ok (call.2.2, job', finished)

/-- The levels at which the job waits for confirmations. -/
def Confirms (c : Cace) : Job → Prop
  | .command j => .fireAndForget < (c.deref j.variablePtr).strategy
  | .believeNotification j => .fireAndForget < (c.deref j.variablePtr).strategy
  | .commandAcknowledge j => AcceptStrategy.twoWayHandShake.code < j.command.level
  | .write _ => True
  | .believeAcknowledge _ | .shortAck _ | .writeAck _ | .request _ => False

/-- The robot has confirmed, as far as the agent knows when `process()` is called. -/
def HasConfirmed (c : Cace) : Job → Int → Prop
  | .command j, id => acknowledgedBy (c.deref j.variablePtr).proposals j.lamportTime id = true
  | .believeNotification j, id =>
    acknowledgedBy (c.deref j.variablePtr).proposals j.lamportTime id = true
  | .commandAcknowledge j, id => ∃ ca ∈ c.shortAcks, ca.msgID = j.msgID ∧ ca.senderID = id
  | .write j, id =>
    (∃ ca ∈ j.acks, ca.senderID = id) ∨
      ∃ ca ∈ c.writeAcknowledges, ca.msgID = j.msgID ∧ ca.senderID = id
  | .believeAcknowledge _, _ | .shortAck _, _ | .writeAck _, _ | .request _, _ => False

/-- When the job is done, `failed()` says whether robots are left. -/
def ReportsMissing (job' : Job) (finished : Bool) : Prop :=
  finished = true → (job'.failed = true ↔ job'.base.expectedRobotIDs ≠ [])

section Count

/-- Nobody is expected, and nobody's retries are counted. -/
theorem resendLoop_nobody {send : Cace → Int → Cace} {entities : List JobStateEntity}
    {expected : List Int} (empty : expected = []) :
    (resendLoop r send expected entities c).remainingRetrys ≤ 0 := by
  by_contra left
  obtain ⟨jse, -, member, -⟩ := resendLoop_remaining left
  rw [empty] at member
  cases member

/-- Done is either way of finishing, and failed is the second, which the first implies. -/
theorem reportsMissing_iff {expected : List Int} {remaining : Int} {level : Bool}
    (robots : job'.base.expectedRobotIDs = expected)
    (failed : job'.failed = decide (remaining ≤ 0)) (deep : level = false)
    (done : finished = (expected.isEmpty || decide (remaining ≤ 0) || level))
    (nobody : expected = [] → remaining ≤ 0) :
    ReportsMissing job' finished ↔ expected ≠ [] := by
  unfold ReportsMissing
  rw [robots, failed, done, deep, Bool.or_false, decide_eq_true_eq]
  by_cases empty : expected = []
  · have exhausted := nobody empty
    simp [empty, exhausted]
  · have some_ : expected.isEmpty = false := List.isEmpty_eq_false_iff.mpr empty
    rw [some_, Bool.false_or, decide_eq_true_eq]
    exact ⟨fun _ => empty, fun _ exhausted => ⟨fun _ => empty, fun _ => exhausted⟩⟩

theorem filter_ne_nil_iff {l : List Int} {p : Int → Bool} {Q : Int → Prop}
    (same : ∀ id ∈ l, p id = true ↔ ¬ Q id) :
    l.filter p ≠ [] ↔ ∃ id ∈ l, ¬ Q id := by
  rw [Ne, List.filter_eq_nil_iff]
  push Not
  exact exists_congr fun id => and_congr_right fun member => same id member

end Count

section Calls

theorem eraseUpdated_ne_nil {proposals : List Believe} {lamportTime : Nat} {expected : List Int} :
    eraseUpdated proposals lamportTime expected ≠ [] ↔
      ∃ id ∈ expected, ¬ acknowledgedBy proposals lamportTime id = true := by
  unfold eraseUpdated
  rw [eraseIf_eq_filter]
  exact filter_ne_nil_iff fun id _ => by simp [acknowledgedBy]

theorem command_reports {j : CommandJob} (above : .fireAndForget < (c.deref j.variablePtr).strategy) :
    ReportsMissing (.command (j.process r c).2.1) (j.process r c).2.2 ↔
      ∃ id ∈ j.expectedRobotIDs, ¬ HasConfirmed c (.command j) id := by
  have level : decide ((c.deref j.variablePtr).strategy ≤ .fireAndForget) = false :=
    decide_eq_false (Int.not_le.mpr above)
  refine Iff.trans ?_ eraseUpdated_ne_nil
  unfold CommandJob.process
  simp only [if_pos above]
  exact reportsMissing_iff rfl rfl level rfl resendLoop_nobody

theorem believeNotification_reports {j : BelieveNotificationJob}
    (above : .fireAndForget < (c.deref j.variablePtr).strategy) :
    ReportsMissing (.believeNotification (j.process r c).2.1) (j.process r c).2.2 ↔
      ∃ id ∈ j.expectedRobotIDs, ¬ HasConfirmed c (.believeNotification j) id := by
  have level : decide ((c.deref j.variablePtr).strategy ≤ .noDistribution) = false :=
    decide_eq_false (Int.not_le.mpr (Int.lt_trans (by decide) above))
  refine Iff.trans ?_ eraseUpdated_ne_nil
  unfold BelieveNotificationJob.process
  simp only [if_pos above]
  exact reportsMissing_iff rfl rfl level rfl resendLoop_nobody

theorem commandAcknowledge_reports {j : CommandAcknowledgeJob}
    (above : AcceptStrategy.twoWayHandShake.code < j.command.level)
    (updates : j.updatedOwnBelieve = true) :
    ReportsMissing (.commandAcknowledge (j.process r c).2.1) (j.process r c).2.2 ↔
      ∃ id ∈ j.expectedRobotIDs, ¬ HasConfirmed c (.commandAcknowledge j) id := by
  have sent : AcceptStrategy.fireAndForget.code < j.command.level :=
    Int.lt_trans (by decide) above
  have level : decide (j.command.level ≤ AcceptStrategy.twoWayHandShake.code) = false :=
    decide_eq_false (Int.not_le.mpr above)
  obtain ⟨caught, expected, msgID, command, same⟩ := commandAcknowledge_catchUp r c j
  have acks : ((j.catchUp r c).1.getCaceShortAcksAndRemove (j.catchUp r c).2.msgID).1 =
      c.shortAcks.filter fun sa => sa.msgID == j.msgID := by
    rw [msgID, Cace.getCaceShortAcksAndRemove, caught.shortAcks]
  have left : eraseAnswered (c.shortAcks.filter fun sa => sa.msgID == j.msgID)
      j.expectedRobotIDs ≠ [] ↔
      ∃ id ∈ j.expectedRobotIDs, ¬ HasConfirmed c (.commandAcknowledge j) id := by
    rw [eraseAnswered_eq]
    refine filter_ne_nil_iff fun id _ => ?_
    simp only [HasConfirmed, decide_eq_true_eq, List.mem_filter, beq_iff_eq]
    push Not
    exact forall_congr' fun ca => and_imp
  refine Iff.trans ?_ left
  unfold CommandAcknowledgeJob.process
  simp only [same, updates, if_true, command, if_pos sent, expected, acks]
  exact reportsMissing_iff rfl rfl level rfl resendLoop_nobody

theorem write_reports {j j' : WriteJob} (done : j.process r c = .ok (c', j', finished)) :
    ReportsMissing (.write j') finished ↔
      ∃ id ∈ j.expectedRobotIDs, ¬ HasConfirmed c (.write j) id := by
  unfold WriteJob.process at done
  dsimp only at done
  rw [eraseAcknowledged_spec _ _ (le_refl _)] at done
  split at done
  next => cases done
  next expected erased =>
    split at erased
    next => cases erased
    next =>
      have kept := Except.ok.inj erased
      have left : expected ≠ [] ↔ ∃ id ∈ j.expectedRobotIDs, ¬ HasConfirmed c (.write j) id := by
        rw [← kept]
        refine filter_ne_nil_iff fun id _ => ?_
        simp only [HasConfirmed, Cace.getWriteAcknowledgesAndRemove, List.all_eq_true,
          List.mem_append, List.mem_filter, beq_iff_eq, bne_iff_ne, or_imp, forall_and]
        push Not
        exact and_congr_right fun _ => forall_congr' fun ca => and_imp
      obtain ⟨rfl, rfl, rfl⟩ := by simpa using Except.ok.inj done
      refine Iff.trans ?_ left
      exact reportsMissing_iff rfl rfl rfl (Bool.or_false _).symm resendLoop_nobody

/-- What a call does to a job that waits for confirmations. -/
theorem call_reports (confirms : Confirms c job)
    (updates : ∀ j, job = .commandAcknowledge j → j.updatedOwnBelieve = true)
    (success : job.process r c = .ok (c', job', finished)) :
    ReportsMissing job' finished ↔
      ∃ id ∈ job.base.expectedRobotIDs, ¬ HasConfirmed c job id := by
  cases job with
  | command j =>
    obtain ⟨rfl, rfl, rfl⟩ := by simpa [Job.process] using success
    exact command_reports confirms
  | believeNotification j =>
    obtain ⟨rfl, rfl, rfl⟩ := by simpa [Job.process] using success
    exact believeNotification_reports confirms
  | commandAcknowledge j =>
    obtain ⟨rfl, rfl, rfl⟩ := by simpa [Job.process] using success
    exact commandAcknowledge_reports confirms (updates j rfl)
  | write j =>
    simp only [Job.process] at success
    split at success
    next p done =>
      obtain ⟨rfl, rfl, rfl⟩ := by simpa using success
      exact write_reports done
    next => cases success
  | believeAcknowledge | shortAck | writeAck | request => cases confirms

/-- No constructor and no call turns the update off. -/
def KeepsUpdating (job : Job) : Prop :=
  ∀ j, job = .commandAcknowledge j → j.updatedOwnBelieve = true

theorem BuiltJob.updates (built : BuiltJob job) : KeepsUpdating job := by
  intro j same
  cases built with
  | commandAcknowledge r c robotids lamportTime cmd =>
    cases same
    unfold CommandAcknowledgeJob.construct
    dsimp only
    split
    · rfl
    · split <;> rfl
  | command | believeNotification | write => cases same

theorem KeepsUpdating.kept {call : Readings × Cace × Cace} (before : KeepsUpdating job)
    (called : CallOn job call job') : KeepsUpdating job' := by
  obtain ⟨r, c, c'⟩ := call
  obtain ⟨finished, success⟩ := called
  rintro j' rfl
  cases job with
  | commandAcknowledge j =>
    obtain ⟨-, -, -, -, same⟩ := commandAcknowledge_catchUp r c j
    obtain ⟨-, rfl, -⟩ := by simpa [Job.process] using success
    unfold CommandAcknowledgeJob.process
    simp only [same, before j rfl, if_true]
  | write j =>
    simp only [Job.process] at success
    split at success <;> cases success
  | command | believeNotification | believeAcknowledge | shortAck | writeAck | request =>
    simp [Job.process] at success

/-- In any history of calls, and whatever the replies to it, `failed()` reports the missing
confirmations of a call exactly if some robot that is expected before it has not confirmed:
where the last confirmations are in, it reports a failure. -/
theorem failed_reports_iff {trace : List (Job × Readings × Cace × Cace)}
    (built : BuiltJob job) {last : Job} (run : Run CallOn job trace last)
    (confirms : Confirms c last) (success : last.process r c = .ok (c', job', finished)) :
    ReportsMissing job' finished ↔
      ∃ id ∈ last.base.expectedRobotIDs, ¬ HasConfirmed c last id := by
  have updates : KeepsUpdating last := @Run.preserves _ _ _ _ _ _ KeepsUpdating (fun _ _ => True) run
    (fun job call job' _ called before => before.kept called) (fun _ _ => trivial)
    built.updates
  exact call_reports confirms updates success

/-- Agent 1 with the acknowledge of agent 2 to what it has distributed. -/
def answeredBy2 : Cace :=
  distributed.handle .zero (.acknowledge ⟨2, [1], ['x'], [8], 0, 102, 3⟩)

/-- Agent 1 without any retries. -/
def impatient : Cace :=
  CaceSpace.distributeValue .zero (.construct 1 false 0) ['x'] [8] 0 .threeWayHandShake

theorem failed_reports_exhausted : ∃ c' job',
    (Job.write (WriteJob.construct .zero impatient (.stored ['x']) 2 2).2).process late impatient
      = .ok (c', job', true) ∧ ReportsMissing job' true := by
  obtain ⟨c', job', success⟩ : ∃ c' job',
      (Job.write (WriteJob.construct .zero impatient (.stored ['x']) 2 2).2).process late impatient
        = .ok (c', job', true) := ⟨_, _, rfl⟩
  have reports := failed_reports_iff (BuiltJob.write .zero impatient (.stored ['x']) 2 2) .nil
    trivial success
  refine ⟨c', job', success, reports.mpr ⟨2, by decide, ?_⟩⟩
  rintro (⟨ca, none, -⟩ | ⟨ca, none, -⟩) <;> cases none

theorem failed_reports_success :
    ¬ ReportsMissing (.command ((CommandJob.construct .zero distributed (.stored ['x']) [8] [2]
      2).2.process late answeredBy2).2.1)
      ((CommandJob.construct .zero distributed (.stored ['x']) [8] [2] 2).2.process late
        answeredBy2).2.2 := by
  unfold ReportsMissing
  decide

end Calls

end CaceProofs.Guarantees
