import CaceProofs.Guarantees.AcknowledgeQueues
import CaceProofs.Guarantees.ShortAckRouting
import Mathlib

/-!
# Retry budgets

The resend loops pay for each transmission with one retry of the robot it is for. So `process()`
transmits no more often than the budgets allow, and a job whose robots do not answer runs out of
them.
-/
namespace CaceProofs.Guarantees
open Source Library

section Loop

/-- A transmission for a robot that is waited for: one entity of it is overdue, at a reading of
the clock that the call makes, and pays. -/
structure Spends (r : Readings) (expected : List Int) (i : Int)
    (before after : List JobStateEntity) : Prop where
  awaited : i ∈ expected
  pays : ∃ k front jse back, before = front ++ jse :: back ∧ jse.robotID = i ∧ 0 < jse.retrys ∧
    Overdue r k jse ∧ after = front ++ resent r k jse :: back

/-- The transmissions of a resend loop, one after the other. -/
inductive SpendsAll (r : Readings) (expected : List Int) :
    List Int → List JobStateEntity → List JobStateEntity → Prop
  | none (entities : List JobStateEntity) : SpendsAll r expected [] entities entities
  | more {i : Int} {robots : List Int} {before between after : List JobStateEntity}
      (first : SpendsAll r expected robots before between)
      (last : Spends r expected i between after) : SpendsAll r expected (robots ++ [i]) before after

variable {r : Readings} {expected robots robots' : List Int} {i : Int}
  {before between after entities : List JobStateEntity} {jse : JobStateEntity}

theorem SpendsAll.trans (first : SpendsAll r expected robots before between)
    (second : SpendsAll r expected robots' between after) :
    SpendsAll r expected (robots ++ robots') before after := by
  induction second with
  | none => simpa using first
  | more _ last ih =>
    rw [← List.append_assoc]
    exact (ih first).more last

/-- The retries that are left, over all entities. -/
def budget (entities : List JobStateEntity) : Nat :=
  (entities.map fun jse => jse.retrys.toNat).sum

theorem Spends.budget (spends : Spends r expected i before after) :
    budget before = budget after + 1 := by
  obtain ⟨k, front, jse, back, rfl, -, left, -, rfl⟩ := spends.pays
  have one : jse.retrys.toNat = (resent r k jse).retrys.toNat + 1 := by
    simp only [resent]
    omega
  simp only [Guarantees.budget, List.map_append, List.map_cons, List.sum_append, List.sum_cons,
    one]
  omega

theorem SpendsAll.budget (spends : SpendsAll r expected robots before after) :
    budget before = budget after + robots.length := by
  induction spends with
  | none => rfl
  | more _ last ih =>
    rw [ih, last.budget, List.length_append, List.length_singleton]
    omega

/-- The robot that the inner loop meets is served, or nothing happens. -/
theorem logStep_cases (r : Readings) (jse : JobStateEntity) (log : List Int) (k : Nat) (i : Int) :
    (i = jse.robotID ∧ 0 < jse.retrys ∧ Overdue r k jse ∧
        logStep r (jse, log, k) i = (resent r k jse, log ++ [i], k + 2)) ∨
      ((i = jse.robotID → 0 < jse.retrys → ¬ Overdue r k jse) ∧
        ∃ k', logStep r (jse, log, k) i = (jse, log, k')) := by
  by_cases served : i = jse.robotID ∧ 0 < jse.retrys
  · by_cases late : Overdue r k jse
    · exact .inl ⟨served.1, served.2, late, by simp only [logStep, if_pos served, if_pos late]⟩
    · exact .inr ⟨fun _ _ => late, k + 1, by simp only [logStep, if_pos served, if_neg late]⟩
  · exact .inr ⟨fun here left => absurd ⟨here, left⟩ served, k,
      by simp only [logStep, if_neg served]⟩

/-- The inner loop spends; what has been sent before does not matter to it. -/
theorem inner_spends (front back : List JobStateEntity) (l : List Int)
    (among : ∀ i ∈ l, i ∈ expected) (jse : JobStateEntity) (log : List Int) (k : Nat) :
    ∃ robots, (l.foldl (logStep r) (jse, log, k)).2.1 = log ++ robots ∧
      SpendsAll r expected robots (front ++ jse :: back)
        (front ++ (l.foldl (logStep r) (jse, log, k)).1 :: back) := by
  induction l generalizing jse log k with
  | nil => exact ⟨[], (List.append_nil _).symm, .none _⟩
  | cons i l ih =>
    have later := ih fun j member => among j (List.mem_cons_of_mem _ member)
    rw [List.foldl_cons]
    rcases logStep_cases r jse log k i with ⟨here, left, overdue, same⟩ | ⟨-, k', same⟩
    · rw [same]
      obtain ⟨robots, sent, spends⟩ := later (resent r k jse) (log ++ [i]) (k + 2)
      refine ⟨[i] ++ robots, by rw [sent, List.append_assoc], SpendsAll.trans ?_ spends⟩
      exact @SpendsAll.more _ _ _ [] _ _ _ (.none _)
        ⟨among i List.mem_cons_self, k, front, jse, back, rfl, here.symm, left, overdue, rfl⟩
    · rw [same]
      exact later jse log k'

/-- The entities after the loop, from the k-th reading on. -/
def visitedFrom (r : Readings) (expected : List Int) :
    Nat → List JobStateEntity → List JobStateEntity
  | _, [] => []
  | k, jse :: entities =>
    let inner := expected.foldl (logStep r) (jse, [], k)
    inner.1 :: visitedFrom r expected inner.2.2 entities

/-- The resend loop spends. -/
theorem loop_spends (r : Readings) (expected : List Int) (entities : List JobStateEntity) :
    SpendsAll r expected (resendLog r expected entities) entities
      (visitedFrom r expected 0 entities) := by
  have walk : ∀ (k : Nat) (front : List JobStateEntity),
      SpendsAll r expected (resendLogFrom r expected k entities) (front ++ entities)
        (front ++ visitedFrom r expected k entities) := by
    induction entities with
    | nil => exact fun k front => .none _
    | cons jse entities ih =>
      intro k front
      obtain ⟨robots, sent, here⟩ :=
        inner_spends front entities expected (fun i member => member) jse [] k (r := r)
      have rest := ih (expected.foldl (logStep r) (jse, [], k)).2.2
        (front ++ [(expected.foldl (logStep r) (jse, [], k)).1])
      rw [List.append_assoc, List.append_assoc] at rest
      unfold resendLogFrom visitedFrom
      dsimp only
      rw [sent]
      exact here.trans rest
  exact walk 0 []

theorem resendEntities_entities {send : Cace → Int → Cace} (c : Cace) (remaining : Int) (k : Nat)
    (entities : List JobStateEntity) :
    (resendEntities r send expected c remaining k entities).entities =
      visitedFrom r expected k entities := by
  induction entities generalizing c remaining k with
  | nil => rfl
  | cons jse entities ih =>
    obtain ⟨remaining', inner⟩ := @resendFold_log r send expected c c [] rfl remaining jse k
    unfold resendEntities visitedFrom
    dsimp only
    rw [inner, ih]

/-- The inner loop keeps the robot of an entity and adds no retry; a robot that is waited for
costs its entity one, where the deadline has passed at every reading. -/
theorem inner_retrys (l : List Int) (jse : JobStateEntity) (log : List Int) (k : Nat) :
    (l.foldl (logStep r) (jse, log, k)).1.robotID = jse.robotID ∧
      (l.foldl (logStep r) (jse, log, k)).1.retrys ≤ jse.retrys ∧
      (jse.robotID ∈ l → 0 < jse.retrys → (∀ k, Overdue r k jse) →
        (l.foldl (logStep r) (jse, log, k)).1.retrys < jse.retrys) := by
  induction l generalizing jse log k with
  | nil => exact ⟨rfl, le_refl _, fun member => absurd member List.not_mem_nil⟩
  | cons i l ih =>
    rw [List.foldl_cons]
    rcases logStep_cases r jse log k i with ⟨-, -, -, same⟩ | ⟨waits, k', same⟩
    · rw [same]
      obtain ⟨robot, fewer, -⟩ := ih (resent r k jse) (log ++ [i]) (k + 2)
      have one : (resent r k jse).retrys = jse.retrys - 1 := rfl
      exact ⟨robot, by omega, fun _ _ _ => by omega⟩
    · rw [same]
      obtain ⟨robot, fewer, spent⟩ := ih jse log k'
      refine ⟨robot, fewer, fun member left overdue => ?_⟩
      rcases List.mem_cons.mp member with here | later
      · exact absurd (overdue k) (waits here.symm left)
      · exact spent later left overdue

/-- Each entity after the loop is one from before it, after an inner loop. -/
theorem mem_visitedFrom {k : Nat} {jse' : JobStateEntity}
    (member : jse' ∈ visitedFrom r expected k entities) :
    ∃ jse ∈ entities, ∃ k, jse' = (expected.foldl (logStep r) (jse, [], k)).1 := by
  induction entities generalizing k with
  | nil => cases member
  | cons jse entities ih =>
    unfold visitedFrom at member
    rcases List.mem_cons.mp member with here | later
    · exact ⟨jse, List.mem_cons_self, k, here⟩
    · obtain ⟨jse, inRest, rest⟩ := ih later
      exact ⟨jse, List.mem_cons_of_mem _ inRest, rest⟩

/-- Where no robot that is waited for has a retry left, the loop counts none. -/
theorem resendEntities_spent {send : Cace → Int → Cace} (c : Cace) (remaining : Int) (k : Nat)
    (entities : List JobStateEntity)
    (spent : ∀ jse ∈ entities, jse.robotID ∈ expected → jse.retrys ≤ 0) :
    (resendEntities r send expected c remaining k entities).remainingRetrys = remaining := by
  have inner : ∀ jse : JobStateEntity, (jse.robotID ∈ expected → jse.retrys ≤ 0) →
      ∀ (l : List Int), (∀ i ∈ l, i ∈ expected) → ∀ c remaining k,
        (l.foldl (resendStep r send) (c, remaining, jse, k)).2.1 = remaining := by
    intro jse none l among
    induction l with
    | nil => exact fun c remaining k => rfl
    | cons i l ih =>
      intro c remaining k
      have first : resendStep r send (c, remaining, jse, k) i = (c, remaining, jse, k) := by
        unfold resendStep
        by_cases here : i = jse.robotID
        · have noRetry := none (here ▸ among i List.mem_cons_self)
          simp [here, not_lt.mpr noRetry, max_eq_right noRetry]
        · simp only [if_neg here]
      rw [List.foldl_cons, first]
      exact ih (fun j member => among j (List.mem_cons_of_mem _ member)) c remaining k
  induction entities generalizing c remaining k with
  | nil => rfl
  | cons jse entities ih =>
    unfold resendEntities
    dsimp only
    rw [ih _ _ _ fun other member => spent other (List.mem_cons_of_mem _ member)]
    exact inner jse (spent jse List.mem_cons_self) expected (fun i member => member) c remaining k

theorem resendLoop_remaining {send : Cace → Int → Cace} {c : Cace}
    (left : ¬ (resendLoop r send expected entities c).remainingRetrys ≤ 0) :
    ∃ jse ∈ entities, jse.robotID ∈ expected ∧ 0 < jse.retrys := by
  by_contra none
  push Not at none
  refine left (le_of_eq ?_)
  exact resendEntities_spent c 0 0 entities none

end Loop

section Calls

/-- What a job that waits for others has recorded of its sends. -/
def entitiesOf : Job → List JobStateEntity
  | .command j => j.entities
  | .commandAcknowledge j => j.entities
  | .believeNotification j => j.entities
  | .believeAcknowledge j => j.entities
  | .write j => j.entities
  | .request j => j.entities
  | .shortAck _ | .writeAck _ => []

/-- A call that goes through the resend loop. -/
structure Looped (r : Readings) (c : Cace) (job job' : Job) (finished : Bool) : Prop where
  expected : job'.base.expectedRobotIDs = awaited c job
  entities : entitiesOf job' = visitedFrom r (awaited c job) 0 (entitiesOf job)
  robots : resentTo r c job = resendLog r (awaited c job) (entitiesOf job) ∨ resentTo r c job = []
  waits : finished = false →
    ∃ jse ∈ entitiesOf job, jse.robotID ∈ awaited c job ∧ 0 < jse.retrys

/-- A call that neither finishes nor comes to the resend loop: at the levels at which a
notification is not repeated, while robots are waited for and the last count of retries was
positive, or where the loop of a write job walks off the front of its list. -/
def Stuck (c : Cace) : Job → Prop
  | .believeNotification j =>
    .noDistribution < (c.deref j.variablePtr).strategy ∧
      (c.deref j.variablePtr).strategy ≤ .fireAndForget ∧
      awaited c (.believeNotification j) ≠ [] ∧ 0 < j.remainingRetrys
  | .believeAcknowledge j =>
    j.updatedOwnBelieve = true ∧ j.notification.level ≤ AcceptStrategy.fireAndForget.code ∧
      awaited c (.believeAcknowledge j) ≠ [] ∧ 0 < j.remainingRetrys
  | .write j =>
    overruns ((j.acks ++ (c.getWriteAcknowledgesAndRemove j.msgID).1).map CaceShortAck.senderID)
      j.expectedRobotIDs = true
  | .command _ | .commandAcknowledge _ | .shortAck _ | .writeAck _ | .request _ => False

/-- The call that sends for the first time, in safe step mode, and waits for answers. -/
def SendsFirst (c : Cace) : Job → Prop
  | .commandAcknowledge j =>
    j.attempts = 0 ∧ c.safeStepMode = true ∧ AcceptStrategy.twoWayHandShake.code < j.command.level
  | .believeAcknowledge j =>
    j.attempts = 0 ∧ c.safeStepMode = true ∧
      AcceptStrategy.fireAndForget.code < j.notification.level
  | .command _ | .believeNotification _ | .shortAck _ | .write _ | .writeAck _ | .request _ => False

variable {r : Readings} {c c' d : Cace} {job job' : Job} {finished : Bool}

/-- A resend loop over what the job waits for. -/
theorem looped_of {send : Cace → Int → Cace}
    (expected : job'.base.expectedRobotIDs = awaited c job)
    (entities : entitiesOf job' =
      (resendLoop r send (awaited c job) (entitiesOf job) d).entities)
    (robots : deadlines r c job = entitiesOf job ∨ deadlines r c job = [])
    (waits : finished = false →
      ¬ (resendLoop r send (awaited c job) (entitiesOf job) d).remainingRetrys ≤ 0) :
    Looped r c job job' finished where
  expected := expected
  entities := entities.trans (resendEntities_entities d 0 0 (entitiesOf job))
  robots := by
    rcases robots with all | none
    · exact .inl (by rw [resentTo, all])
    · exact .inr (by rw [resentTo, none]; rfl)
  waits unfinished := resendLoop_remaining (waits unfinished)

/-- The quiet module sends nothing. -/
theorem loud_or_silent {P : Prop} [Decidable P] (sent : P) (entities : List JobStateEntity) :
    (if P ∧ c.quiet = false then entities else []) = entities ∨
      (if P ∧ c.quiet = false then entities else []) = [] := by
  cases c.quiet with
  | false => exact .inl (if_pos ⟨sent, rfl⟩)
  | true => exact .inr (if_neg fun both => absurd both.2 (by decide))

theorem strategy_le {a b : AcceptStrategy} (above : ¬ a < b) : b ≤ a :=
  Int.not_lt.mp above

theorem strategy_lt {a b : AcceptStrategy} (above : ¬ a ≤ b) : b < a :=
  Int.not_le.mp above

theorem command_looped (j : CommandJob)
    (sent : .fireAndForget < (c.deref j.variablePtr).strategy) :
    Looped r c (.command j) (.command (j.process r c).2.1) (j.process r c).2.2 := by
  unfold CommandJob.process
  simp only [if_pos sent]
  refine looped_of rfl rfl (loud_or_silent sent _) fun unfinished => ?_
  simp only [Bool.or_eq_false_iff, decide_eq_false_iff_not] at unfinished
  exact unfinished.1.2

theorem believeNotification_looped (j : BelieveNotificationJob)
    (sent : .fireAndForget < (c.deref j.variablePtr).strategy) :
    Looped r c (.believeNotification j) (.believeNotification (j.process r c).2.1)
      (j.process r c).2.2 := by
  unfold BelieveNotificationJob.process
  simp only [if_pos sent]
  refine looped_of rfl rfl (loud_or_silent sent _) fun unfinished => ?_
  simp only [Bool.or_eq_false_iff, decide_eq_false_iff_not] at unfinished
  exact unfinished.1.2

theorem commandAcknowledge_looped (j : CommandAcknowledgeJob) (direct : j.catchUp r c = (c, j))
    (updates : j.updatedOwnBelieve = true)
    (sent : AcceptStrategy.fireAndForget.code < j.command.level) :
    Looped r c (.commandAcknowledge j) (.commandAcknowledge (j.process r c).2.1)
      (j.process r c).2.2 := by
  unfold CommandAcknowledgeJob.process
  simp only [direct, if_pos updates, if_pos sent]
  refine looped_of rfl rfl ?_ fun unfinished => ?_
  · simp only [deadlines, direct]
    exact loud_or_silent ⟨updates, sent⟩ _
  · simp only [Bool.or_eq_false_iff, decide_eq_false_iff_not] at unfinished
    exact unfinished.1.2

theorem believeAcknowledge_looped (j : BelieveAcknowledgeJob) (direct : j.catchUp r c = (c, j))
    (updates : j.updatedOwnBelieve = true)
    (sent : AcceptStrategy.fireAndForget.code < j.notification.level) :
    Looped r c (.believeAcknowledge j) (.believeAcknowledge (j.process r c).2.1)
      (j.process r c).2.2 := by
  unfold BelieveAcknowledgeJob.process
  simp only [direct, if_pos updates, if_pos sent]
  refine looped_of rfl rfl ?_ fun unfinished => ?_
  · simp only [deadlines, direct]
    exact loud_or_silent ⟨updates, sent⟩ _
  · simp only [Bool.or_eq_false_iff, decide_eq_false_iff_not] at unfinished
    exact unfinished.2

theorem write_looped {j : WriteJob} {p : Cace × WriteJob × Bool}
    (success : j.process r c = .ok p) : Looped r c (.write j) (.write p.2.1) p.2.2 := by
  unfold WriteJob.process at success
  dsimp only at success
  split at success
  next => cases success
  next expected erased =>
    have waits : awaited c (.write j) = expected := by
      simp only [awaited, erased, Except.toOption, Option.getD_some]
    rw [← Except.ok.inj success]
    refine looped_of waits.symm (by rw [waits]; rfl) (.inl rfl) fun unfinished => ?_
    simp only [Bool.or_eq_false_iff, decide_eq_false_iff_not] at unfinished
    rw [waits]
    exact unfinished.2

theorem request_looped (j : RequestJob) (waiting : c.existsResponse j.name ≠ true) :
    Looped r c (.request j) (.request (j.process r c).2.1) (j.process r c).2.2 := by
  unfold RequestJob.process
  simp only [if_neg waiting]
  refine looped_of rfl rfl ?_ fun unfinished => ?_
  · exact .inl (if_neg waiting)
  · simp only [Bool.or_eq_false_iff, decide_eq_false_iff_not] at unfinished
    exact unfinished.2

theorem commandAcknowledge_direct (r : Readings) (j : CommandAcknowledgeJob)
    (later : ¬ (j.attempts = 0 ∧ c.safeStepMode = true)) : j.catchUp r c = (c, j) :=
  if_neg later

theorem believeAcknowledge_direct (r : Readings) (j : BelieveAcknowledgeJob)
    (later : ¬ (j.attempts = 0 ∧ c.safeStepMode = true)) : j.catchUp r c = (c, j) :=
  if_neg later

/-- At the levels without an acknowledge the exit test looks at the last count of retries. -/
theorem believeAcknowledge_silent (r : Readings) (c : Cace) (j : BelieveAcknowledgeJob)
    (updates : j.updatedOwnBelieve = true)
    (silent : ¬ AcceptStrategy.fireAndForget.code < j.notification.level) :
    (j.process r c).2 =
      ({ j with
          attempts := j.attempts + 1
          expectedRobotIDs := awaited c (.believeAcknowledge j) },
        (awaited c (.believeAcknowledge j)).isEmpty || decide (j.remainingRetrys ≤ 0)) := by
  obtain ⟨caught, -⟩ := believeAcknowledge_catchUp r c j
  have unchanged : (j.catchUp r c).2 = j := by
    unfold BelieveAcknowledgeJob.catchUp
    simp only [silent, and_false, if_false]
    split <;> rfl
  have acks : ((j.catchUp r c).1.getCaceShortAcksAndRemove j.msgID).1 =
      (c.getCaceShortAcksAndRemove j.msgID).1 := by
    unfold Cace.getCaceShortAcksAndRemove
    rw [caught.shortAcks]
  unfold BelieveAcknowledgeJob.process
  simp only [unchanged, if_pos updates, if_neg silent, awaited, acks]

/-- A call goes through the resend loop or leaves the budgets and sends nothing. -/
theorem process_looped (waits : job.msgID?.isSome) (direct : c.safeStepMode = false)
    (success : job.process r c = .ok (c', job', finished)) :
    Looped r c job job' finished ∨ entitiesOf job' = entitiesOf job ∧ resentTo r c job = [] := by
  have later : ∀ n : Nat, ¬ (n = 0 ∧ c.safeStepMode = true) := by simp [direct]
  cases job with
  | command j =>
    obtain ⟨rfl, rfl, rfl⟩ := by simpa [Job.process] using success
    by_cases sent : .fireAndForget < (c.deref j.variablePtr).strategy
    · exact .inl (command_looped j sent)
    · refine .inr ⟨?_, by simp [resentTo, deadlines, sent, resendLog_nil]⟩
      unfold CommandJob.process
      simp only [if_neg sent, entitiesOf]
  | commandAcknowledge j =>
    obtain ⟨rfl, rfl, rfl⟩ := by simpa [Job.process] using success
    have caught := commandAcknowledge_direct r j (later j.attempts)
    by_cases sent : j.updatedOwnBelieve = true ∧
        AcceptStrategy.fireAndForget.code < j.command.level
    · exact .inl (commandAcknowledge_looped j caught sent.1 sent.2)
    · refine .inr ⟨?_, by simp only [resentTo, deadlines, sent, false_and, if_false]; rfl⟩
      unfold CommandAcknowledgeJob.process
      simp only [caught]
      split
      next updates =>
        simp only [if_neg fun level => sent ⟨updates, level⟩, entitiesOf]
      next => rfl
  | believeNotification j =>
    obtain ⟨rfl, rfl, rfl⟩ := by simpa [Job.process] using success
    by_cases sent : .fireAndForget < (c.deref j.variablePtr).strategy
    · exact .inl (believeNotification_looped j sent)
    · refine .inr ⟨?_, by simp [resentTo, deadlines, sent, resendLog_nil]⟩
      unfold BelieveNotificationJob.process
      simp only [if_neg sent, entitiesOf]
  | believeAcknowledge j =>
    obtain ⟨rfl, rfl, rfl⟩ := by simpa [Job.process] using success
    have caught := believeAcknowledge_direct r j (later j.attempts)
    by_cases sent : j.updatedOwnBelieve = true ∧
        AcceptStrategy.fireAndForget.code < j.notification.level
    · exact .inl (believeAcknowledge_looped j caught sent.1 sent.2)
    · refine .inr ⟨?_, by simp only [resentTo, deadlines, sent, false_and, if_false]; rfl⟩
      unfold BelieveAcknowledgeJob.process
      simp only [caught]
      split
      next updates =>
        simp only [if_neg fun level => sent ⟨updates, level⟩, entitiesOf]
      next => rfl
  | write j =>
    simp only [Job.process] at success
    split at success
    next p done =>
      obtain ⟨rfl, rfl, rfl⟩ := by simpa using success
      exact .inl (write_looped done)
    next => cases success
  | request j =>
    obtain ⟨rfl, rfl, rfl⟩ := by simpa [Job.process] using success
    by_cases answered : c.existsResponse j.name = true
    · refine .inr ⟨?_, by simp [resentTo, deadlines, answered, resendLog_nil]⟩
      unfold RequestJob.process
      simp only [if_pos answered, entitiesOf]
    · exact .inl (request_looped j answered)
  | shortAck | writeAck => cases waits

/-- What a call sends, it pays for. -/
theorem process_spends (waits : job.msgID?.isSome) (direct : c.safeStepMode = false)
    (success : job.process r c = .ok (c', job', finished)) :
    ∃ robots, (resentTo r c job = robots ∨ resentTo r c job = []) ∧
      SpendsAll r job'.base.expectedRobotIDs robots (entitiesOf job) (entitiesOf job') := by
  rcases process_looped waits direct success with looped | ⟨same, silent⟩
  · refine ⟨_, looped.robots, ?_⟩
    rw [looped.expected, looped.entities]
    exact loop_spends r (awaited c job) (entitiesOf job)
  · exact ⟨[], .inr silent, by rw [same]; exact .none _⟩

end Calls

section Retransmissions

/-- A `process()` call of a job at an agent that is not in safe step mode; the agent may be any
other one, or the same one at any other time, at each call. -/
def Processes (job : Job) (call : Readings × Cace × Cace) (job' : Job) : Prop :=
  call.2.1.safeStepMode = false ∧
    ∃ finished, job.process call.1 call.2.1 = .ok (call.2.2, job', finished)

/-- A message that is not sent for the first time. -/
def isRetransmission : Observation → Bool
  | .published _ .again => true
  | .published _ .first | .received _ | .applied _ | .notified _ => false

/-- How often a call has published such a message. -/
def retransmissions (call : Readings × Cace × Cace) : Nat :=
  (call.2.2.history.drop call.2.1.history.length).countP isRetransmission

/-- What a call transmits: messages for some robots, each of them paid for by an overdue entity
of a robot that the job still waits for. -/
def TransmitsWithin (job : Job) (call : Readings × Cace × Cace) (job' : Job) : Prop :=
  ∃ sent robots, Transmits job sent call.2.1 call.2.2 ∧ (sent = robots ∨ sent = []) ∧
    SpendsAll call.1 job'.base.expectedRobotIDs robots (entitiesOf job) (entitiesOf job')

variable {job job' : Job} {call : Readings × Cace × Cace}

theorem Transmits.count {robots : List Int} (transmits : Transmits job robots call.2.1 call.2.2) :
    retransmissions call = robots.length := by
  obtain ⟨seen, ms, history, fresh, -, all⟩ := transmits
  unfold retransmissions
  rw [history, List.append_assoc, List.drop_left, List.countP_append, all.length_eq]
  have none : seen.countP isRetransmission = 0 := by
    rw [List.countP_eq_zero]
    intro o member again
    cases o with
    | published m t =>
      cases t with
      | first => cases again
      | again => exact fresh m member
    | received | applied | notified => cases again
  rw [none, Nat.zero_add, List.countP_map, List.countP_eq_length.mpr]
  intro m _
  rfl

theorem processes_within (waits : job.msgID?.isSome) (next : Processes job call job') :
    TransmitsWithin job call job' ∧ job'.msgID?.isSome := by
  obtain ⟨direct, finished, success⟩ := next
  obtain ⟨id, named⟩ := Option.isSome_iff_exists.mp waits
  obtain ⟨transmits, same⟩ := job_transmits named success
  obtain ⟨robots, sent, spends⟩ := process_spends waits direct success
  exact ⟨⟨_, robots, transmits, sent, spends⟩, same ▸ waits⟩

theorem TransmitsWithin.budget (within : TransmitsWithin job call job') :
    retransmissions call + budget (entitiesOf job') ≤ budget (entitiesOf job) := by
  obtain ⟨sent, robots, transmits, all, spends⟩ := within
  rw [transmits.count, spends.budget]
  rcases all with rfl | rfl
  · omega
  · simp

/-- Over any calls, every transmission is for a robot that is waited for and overdue, and pays
with one retry; together they are at most as many as the positive initial budgets. -/
theorem bounded_retransmission {trace : List (Job × Readings × Cace × Cace)}
    (waits : job.msgID?.isSome) (run : Run Processes job trace job') :
    (∀ p ∈ trace, ∀ job'', Processes p.1 p.2 job'' → TransmitsWithin p.1 p.2 job'') ∧
      (trace.map fun p => retransmissions p.2).sum + budget (entitiesOf job') ≤
        budget (entitiesOf job) := by
  have all : (∀ p ∈ trace, p.1.msgID?.isSome) ∧ job'.msgID?.isSome ∧
      (trace.map fun p => retransmissions p.2).sum + budget (entitiesOf job') ≤
        budget (entitiesOf job) := by
    induction run with
    | nil => simp [waits]
    | @step trace job' job'' call run next ih =>
      obtain ⟨earlier, here, sum⟩ := ih
      obtain ⟨within, after⟩ := processes_within here next
      have pays := within.budget
      refine ⟨?_, after, ?_⟩
      · intro p member
        rcases List.mem_append.mp member with old | last
        · exact earlier p old
        · obtain rfl := List.mem_singleton.mp last
          exact here
      · rw [List.map_append, List.sum_append, List.map_singleton, List.sum_singleton]
        change _ + retransmissions call + _ ≤ _
        omega
  exact ⟨fun p member job'' next => (processes_within (all.1 p member) next).1, all.2.2⟩

theorem processes_command (r : Readings) {c : Cace} (j : CommandJob)
    (direct : c.safeStepMode = false) :
    Processes (.command j) (r, c, (j.process r c).1) (.command (j.process r c).2.1) :=
  ⟨direct, _, rfl⟩

/-- A clock that moves on with every reading. -/
def ticking : Readings := { late with resendTimes := fun _ k => k + 1 }

/-- Agent 1 waits for agent 2 twice, and its clock moves on while it resends: one call sends its
command four times, and pays with four of twenty retries. -/
theorem bounded_retransmission_ticking : ∃ job call job',
    Processes job call job' ∧ retransmissions call = 4 ∧ budget (entitiesOf job') = 16 ∧
      retransmissions call + budget (entitiesOf job') ≤ budget (entitiesOf job) := by
  have next := processes_command ticking (c := distributed)
    (CommandJob.construct .zero distributed (.stored ['x']) [8] [2, 2] 2).2 rfl
  have bounded := (bounded_retransmission (by decide) (Run.nil.step next)).2
  exact ⟨_, _, _, next, by decide, by decide, bounded⟩

end Retransmissions

section Termination

variable {r : Readings} {c c' : Cace} {job job' : Job}

/-- A job waits for no robot that it did not wait for before. -/
theorem awaited_subset {i : Int} (member : i ∈ awaited c job) :
    i ∈ job.base.expectedRobotIDs := by
  cases job with
  | command j | believeNotification j =>
    simp only [awaited, eraseUpdated, eraseIf_eq_filter] at member
    exact List.mem_of_mem_filter member
  | commandAcknowledge j | believeAcknowledge j => exact (mem_eraseAnswered_iff.mp member).1
  | write j =>
    simp only [awaited, eraseAcknowledged_spec _ _ (le_refl _)] at member
    split at member
    · cases member
    · exact List.mem_of_mem_filter member
  | request j => exact member
  | shortAck | writeAck => cases member

/-- A call that does not finish either goes through the resend loop, or is stuck, or sends for
the first time. -/
theorem unfinished_call (waits : job.msgID?.isSome)
    (success : job.process r c = .ok (c', job', false)) :
    Looped r c job job' false ∨ Stuck c job ∨ SendsFirst c job := by
  cases job with
  | command j =>
    obtain ⟨rfl, rfl, finished⟩ := by simpa [Job.process] using success
    by_cases sent : .fireAndForget < (c.deref j.variablePtr).strategy
    · exact .inl (finished ▸ command_looped j sent)
    · unfold CommandJob.process at finished
      simp [strategy_le sent] at finished
  | commandAcknowledge j =>
    obtain ⟨rfl, rfl, finished⟩ := by simpa [Job.process] using success
    obtain ⟨-, -, -, command, updates⟩ := commandAcknowledge_catchUp r c j
    have handshake : j.updatedOwnBelieve = true ∧
        AcceptStrategy.twoWayHandShake.code < j.command.level := by
      unfold CommandAcknowledgeJob.process at finished
      dsimp only at finished
      split at finished
      next open_ =>
        simp only [Bool.or_eq_false_iff, decide_eq_false_iff_not, not_le, command] at finished
        exact ⟨updates ▸ open_, finished.2⟩
      next => cases finished
    have sent : AcceptStrategy.fireAndForget.code < j.command.level :=
      lt_trans (by decide) handshake.2
    by_cases first : j.attempts = 0 ∧ c.safeStepMode = true
    · exact .inr (.inr ⟨first.1, first.2, handshake.2⟩)
    · have direct := commandAcknowledge_direct r j first
      exact .inl (finished ▸ commandAcknowledge_looped j direct handshake.1 sent)
  | believeNotification j =>
    obtain ⟨rfl, rfl, finished⟩ := by simpa [Job.process] using success
    by_cases sent : .fireAndForget < (c.deref j.variablePtr).strategy
    · exact .inl (finished ▸ believeNotification_looped j sent)
    · unfold BelieveNotificationJob.process at finished
      simp only [if_neg sent, Bool.or_eq_false_iff, decide_eq_false_iff_not, not_le,
        List.isEmpty_eq_false_iff] at finished
      exact .inr (.inl ⟨strategy_lt finished.2, strategy_le sent, finished.1.1, finished.1.2⟩)
  | believeAcknowledge j =>
    obtain ⟨rfl, rfl, finished⟩ := by simpa [Job.process] using success
    have updates : j.updatedOwnBelieve = true := by
      rw [← (believeAcknowledge_catchUp r c j).2.2.2.2]
      unfold BelieveAcknowledgeJob.process at finished
      dsimp only at finished
      split at finished
      next open_ => exact open_
      next => cases finished
    by_cases sent : AcceptStrategy.fireAndForget.code < j.notification.level
    · by_cases first : j.attempts = 0 ∧ c.safeStepMode = true
      · exact .inr (.inr ⟨first.1, first.2, sent⟩)
      · have direct := believeAcknowledge_direct r j first
        exact .inl (finished ▸ believeAcknowledge_looped j direct updates sent)
    · have silent := believeAcknowledge_silent r c j updates sent
      rw [silent, Bool.or_eq_false_iff, decide_eq_false_iff_not, not_le] at finished
      exact .inr (.inl ⟨updates, not_lt.mp sent, List.isEmpty_eq_false_iff.mp finished.1,
        finished.2⟩)
  | write j =>
    simp only [Job.process] at success
    split at success
    next p done =>
      obtain ⟨rfl, rfl, finished⟩ := by simpa using success
      exact .inl (finished ▸ write_looped done)
    next => cases success
  | request j =>
    obtain ⟨rfl, rfl, finished⟩ := by simpa [Job.process] using success
    by_cases answered : c.existsResponse j.name = true
    · unfold RequestJob.process at finished
      simp [answered] at finished
    · exact .inl (finished ▸ request_looped j answered)
  | shortAck | writeAck => cases waits

/-- A call throws only where a write job walks off the front of its list. -/
theorem throws_stuck {fault : Fault} (throws : job.process r c = .error fault) : Stuck c job := by
  cases job with
  | write j =>
    simp only [Job.process] at throws
    split at throws
    next => cases throws
    next fault' thrown =>
      unfold WriteJob.process at thrown
      dsimp only at thrown
      rw [eraseAcknowledged_spec _ _ (le_refl _)] at thrown
      by_contra fits
      simp only [Stuck] at fits
      rw [if_neg fits] at thrown
      cases thrown
  | command | commandAcknowledge | believeNotification | believeAcknowledge | shortAck | writeAck
  | request => cases throws

/-- `process()` is called at one reading and state after the other, and returns true. -/
def Ends : List (Readings × Cace) → Job → Prop
  | [], _ => False
  | call :: calls, job => ∃ c' job' finished,
    job.process call.1 call.2 = .ok (c', job', finished) ∧ (finished = true ∨ Ends calls job')

/-- What holds of every call up to the one that returns true. -/
def UntilEnd (P : Readings → Cace → Job → Prop) : List (Readings × Cace) → Job → Prop
  | [], _ => True
  | call :: calls, job => P call.1 call.2 job ∧
    ∀ c' job', job.process call.1 call.2 = .ok (c', job', false) → UntilEnd P calls job'

/-- No robot that is waited for has more retries left. -/
def LeftAtMost (n : Nat) (job : Job) : Prop :=
  ∀ jse ∈ entitiesOf job, jse.robotID ∈ job.base.expectedRobotIDs → jse.retrys ≤ n

/-- A call after the deadlines that loops without an end costs every robot a retry. -/
theorem Looped.leftAtMost {n : Nat} (looped : Looped r c job job' false)
    (overdue : ∀ jse ∈ entitiesOf job, ∀ k, Overdue r k jse) (left : LeftAtMost n job) :
    ∃ m, n = m + 1 ∧ LeftAtMost m job' := by
  obtain ⟨some_, member, waiting, retry⟩ := looped.waits rfl
  have most := left some_ member (awaited_subset waiting)
  obtain ⟨m, rfl⟩ := Nat.exists_eq_succ_of_ne_zero (n := n) (by omega)
  refine ⟨m, rfl, ?_⟩
  intro jse' inAfter expected
  rw [looped.entities] at inAfter
  rw [looped.expected] at expected
  obtain ⟨jse, inBefore, k, rfl⟩ := mem_visitedFrom inAfter
  obtain ⟨robot, least, spent⟩ := @inner_retrys r (awaited c job) jse [] k
  rw [robot] at expected
  have before := left jse inBefore (awaited_subset expected)
  by_cases positive : 0 < jse.retrys
  · have fewer := spent expected positive (overdue jse inBefore)
    omega
  · omega

/-- The largest budget, or zero. -/
def largestBudget (job : Job) : Nat :=
  ((entitiesOf job).map fun jse => jse.retrys.toNat).foldr max 0

theorem leftAtMost_largest (job : Job) : LeftAtMost (largestBudget job) job := by
  intro jse member _
  unfold largestBudget
  generalize entitiesOf job = entities at member ⊢
  induction entities with
  | nil => cases member
  | cons first rest ih =>
    simp only [List.map_cons, List.foldr_cons]
    rcases List.mem_cons.mp member with rfl | later
    · omega
    · have inRest := ih later
      omega

/-- A call that can take a waiting job further: the deadlines have passed whenever it reads the
clock, and it neither gets stuck nor is the one that sends for the first time. -/
def Timely (r : Readings) (c : Cace) (job : Job) : Prop :=
  (∀ jse ∈ entitiesOf job, ∀ k, Overdue r k jse) ∧ ¬ Stuck c job ∧ ¬ SendsFirst c job

theorem ends_within {n : Nat} {calls : List (Readings × Cace)} (waits : job.msgID?.isSome)
    (left : LeftAtMost n job) (timely : UntilEnd Timely calls job)
    (enough : n + 1 ≤ calls.length) : Ends calls job := by
  induction calls generalizing n job with
  | nil => cases enough
  | cons call calls ih =>
    obtain ⟨⟨overdue, moves, again⟩, later⟩ := timely
    cases called : job.process call.1 call.2 with
    | error fault => exact absurd (throws_stuck called) moves
    | ok result =>
      obtain ⟨c', job', finished⟩ := result
      refine ⟨c', job', finished, called, ?_⟩
      cases finished with
      | true => exact .inl rfl
      | false =>
        refine .inr ?_
        have looped := ((unfinished_call waits called).resolve_right
          fun either => either.elim moves again)
        obtain ⟨m, rfl, fewer⟩ := looped.leftAtMost overdue left
        obtain ⟨id, named⟩ := Option.isSome_iff_exists.mp waits
        have same := (job_transmits named called).2
        exact ih (same ▸ waits) fewer (later c' job' called)
          (Nat.le_of_succ_le_succ enough)

/-- A stuck call throws, or returns false and leaves the retries as they are. -/
theorem stuck_call {finished : Bool} (stuck : Stuck c job)
    (success : job.process r c = .ok (c', job', finished)) :
    finished = false ∧ entitiesOf job' = entitiesOf job := by
  cases job with
  | believeNotification j =>
    obtain ⟨rfl, rfl, rfl⟩ := by simpa [Job.process] using success
    obtain ⟨level, silent, waiting, counted⟩ := stuck
    have unsent : ¬ .fireAndForget < (c.deref j.variablePtr).strategy := Int.not_lt.mpr silent
    have stays : ¬ (c.deref j.variablePtr).strategy ≤ .noDistribution := Int.not_le.mpr level
    unfold BelieveNotificationJob.process
    simp only [if_neg unsent, entitiesOf, and_true, Bool.or_eq_false_iff,
      decide_eq_false_iff_not, not_le, List.isEmpty_eq_false_iff]
    exact ⟨⟨waiting, counted⟩, stays⟩
  | believeAcknowledge j =>
    obtain ⟨rfl, rfl, rfl⟩ := by simpa [Job.process] using success
    obtain ⟨updates, silent, waiting, counted⟩ := stuck
    rw [believeAcknowledge_silent r c j updates (not_lt.mpr silent)]
    simp only [entitiesOf, and_true, Bool.or_eq_false_iff, decide_eq_false_iff_not, not_le,
      List.isEmpty_eq_false_iff]
    exact ⟨waiting, counted⟩
  | write j =>
    have walks : overruns ((j.acks ++ (c.getWriteAcknowledgesAndRemove j.msgID).1).map
      CaceShortAck.senderID) j.expectedRobotIDs = true := stuck
    simp only [Job.process, WriteJob.process, eraseAcknowledged_spec _ _ (le_refl _), walks,
      if_true] at success
    cases success
  | command | commandAcknowledge | shortAck | writeAck | request => exact stuck.elim

/-- After the largest budget and one more call a job that waits for others has ended, if no call
up to the end is stuck; a stuck call takes it no further. -/
theorem retry_jobs_end {calls : List (Readings × Cace)} (waits : job.msgID?.isSome)
    (timely : UntilEnd Timely calls job) (enough : largestBudget job + 1 ≤ calls.length) :
    Ends calls job ∧ ∀ r c job c' job' finished, Stuck c job →
      job.process r c = .ok (c', job', finished) →
        finished = false ∧ entitiesOf job' = entitiesOf job :=
  ⟨ends_within waits (leftAtMost_largest job) timely enough,
    fun _ _ _ _ _ _ => stuck_call⟩

/-- Agent 1, which repeats a notification twice. -/
def twice : Cace :=
  CaceSpace.distributeValue .zero (.construct 1 false 2) ['x'] [8] 0 .threeWayHandShake

/-- Its notification of agents 2 and 3. -/
def notified : Job :=
  .believeNotification (BelieveNotificationJob.construct .zero twice (.stored ['x']) [2, 3] 2).2

/-- Of a clock that stands still during a call one reading tells them all. -/
theorem overdue_still {t d : Nat} {entities : List JobStateEntity}
    (overdue : ∀ jse ∈ entities, Overdue (.still t d) 0 jse) :
    ∀ jse ∈ entities, ∀ k, Overdue (.still t d) k jse :=
  fun jse member _ => overdue jse member

/-- Agent 1 repeats its notification of both agents twice and gives up with the third call. -/
theorem retry_jobs_end_notified : ∃ calls, UntilEnd Timely calls notified ∧
    largestBudget notified = 2 ∧ calls.length = 3 ∧ Ends calls notified := by
  have timely : UntilEnd Timely
      [(.still 1 0, twice), (.still 2 0, twice), (.still 3 0, twice)] notified := by
    have waits : ¬ Stuck twice notified := fun stuck => absurd stuck.2.1 (by decide)
    refine ⟨⟨overdue_still (by decide), waits, id⟩, fun c1 job1 first => ?_⟩
    obtain ⟨-, rfl, -⟩ := by simpa [notified, Job.process] using first
    refine ⟨⟨overdue_still (by decide), fun stuck => absurd stuck.2.1 (by decide), id⟩,
      fun c2 job2 second => ?_⟩
    obtain ⟨-, rfl, -⟩ := by simpa [Job.process] using second
    exact ⟨⟨overdue_still (by decide), fun stuck => absurd stuck.2.1 (by decide), id⟩,
      fun _ _ _ => trivial⟩
  exact ⟨_, timely, rfl, rfl, (retry_jobs_end rfl timely (by decide)).1⟩

/-- Agent 1, which sends without handshakes and has told agent 2 about its variable. -/
def told : Cace :=
  CaceSpace.distributeValue .zero (.construct 1 false 10) ['x'] [8] 0 .fireAndForget

/-- The notification job of that variable after some calls. -/
def untold (attempts : Nat) : BelieveNotificationJob :=
  { (BelieveNotificationJob.construct .zero told (.stored ['x']) [2] 2).2 with
    attempts := attempts }

theorem untold_process (attempts : Nat) :
    (Job.believeNotification (untold attempts)).process late told =
      .ok (told, .believeNotification (untold (attempts + 1)), false) := by
  have level : (told.deref (.stored ['x'])).strategy = .fireAndForget := by decide
  have unanswered : (told.deref (.stored ['x'])).proposals = [] := by decide
  have job : (BelieveNotificationJob.construct .zero told (.stored ['x']) [2] 2).2 =
    ⟨⟨[2], 2, 0⟩, .stored ['x'], [⟨2, 10, 0⟩], 102, 1⟩ := by decide
  have silent : ¬ AcceptStrategy.fireAndForget < .fireAndForget := by decide
  have stays : ¬ AcceptStrategy.fireAndForget ≤ .noDistribution := by decide
  simp [Job.process, BelieveNotificationJob.process, untold, job, level, unanswered, eraseUpdated,
    silent, stays]

/-- The job has ten retries and does not end, however often it is called after the deadline. -/
theorem retry_jobs_end_silent :
    (∀ n, UntilEnd (fun r _ job => ∀ jse ∈ entitiesOf job, ∀ k, Overdue r k jse)
        (List.replicate n (late, told)) (.believeNotification (untold 0))) ∧
      largestBudget (.believeNotification (untold 0)) = 10 ∧
      ∀ n, ¬ Ends (List.replicate n (late, told)) (.believeNotification (untold 0)) := by
  refine ⟨fun n => ?_, rfl, fun n => ?_⟩
  · generalize 0 = attempts
    induction n generalizing attempts with
    | zero => trivial
    | succ n ih =>
      refine ⟨fun jse member => ?_, fun c' job' success => ?_⟩
      · have passed : ∀ jse ∈ entitiesOf (.believeNotification (untold 0)), Overdue late 0 jse := by
          decide
        exact overdue_still passed jse member
      · rw [untold_process] at success
        obtain ⟨-, rfl⟩ := by simpa using success
        exact ih (attempts + 1)
  · generalize 0 = attempts
    induction n generalizing attempts with
    | zero => exact id
    | succ n ih =>
      rintro ⟨c', job', finished, success, ends⟩
      rw [untold_process] at success
      obtain ⟨-, rfl, rfl⟩ := by simpa using success
      rcases ends with ended | later
      · cases ended
      · exact ih (attempts + 1) later

end Termination

end CaceProofs.Guarantees
