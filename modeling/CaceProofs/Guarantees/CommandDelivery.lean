import CaceProofs.Guarantees.Redelivery
import CaceProofs.Guarantees.ShortAckRouting

/-!
# When a command counts as delivered

A command job strikes out a robot whose recorded proposal is at least as new as the time stamp
of the job. That is the clock before the broadcast, one less than what the broadcast carries.
-/
namespace CaceProofs.Guarantees
open Source Library

section Broadcast

variable {r : Readings} {may : Licence} {c c' : Cace}

/-- The time stamp of the broadcast of a job: the clock of its construction, incremented. -/
def broadcastTime (j : CommandJob) : Nat :=
  (LamportClock.tick { time := j.lamportTime : LamportTime }).time

/-- A job that waits for the answer to a broadcast has sent it. -/
def Announced (c : Cace) (j : CommandJob) : Prop :=
  c.quiet = false → j.entities ≠ [] → ∃ m, .published (.command m) .first ∈ c.history ∧
    m.msgID = toShort j.msgID ∧ m.lamportTime = broadcastTime j

theorem Announced.later {j : CommandJob} (announced : Announced c j)
    (longer : c.history <+: c'.history) (same : config c' = config c) : Announced c' j := by
  intro loud waits
  have quiet : c'.quiet = c.quiet := congrArg Config.quiet same
  obtain ⟨m, published, rest⟩ := announced (quiet ▸ loud) waits
  exact ⟨m, longer.subset published, rest⟩

theorem construct_announced {variablePtr : VariablePtr} {value : Bytes} {robotids : List Int}
    (earlier : config c = config c')
    (later : (CommandJob.construct r c variablePtr value robotids
      c.lamportTime.time).1.history <+: c'.history) :
    Announced c'
      (CommandJob.construct r c variablePtr value robotids c.lamportTime.time).2 := by
  have quiet : c.quiet = c'.quiet := congrArg Config.quiet earlier
  revert later
  unfold CommandJob.construct
  dsimp only
  split
  next level =>
    intro later loud waits
    unfold Cace.sendCaceCommand Cace.sendCaceCommandAt Cace.publishUnlessQuiet at later
    rw [if_neg (by simp [Cace.tickLamportTime, quiet, loud])] at later
    refine ⟨_, later.subset (List.mem_append_right _ (List.mem_singleton_self _)), ?_, ?_⟩
    · simp only [Cace.commandMessage]
    · unfold broadcastTime Cace.commandMessage Cace.tickLamportTime LamportClock.tick
        LamportClock.setTime
      dsimp only
      split <;> rfl
  next => exact fun _ _ waits => absurd rfl waits

theorem resendEntities_nil {send : Cace → Int → Cace} {expected : List Int} {remaining : Int}
    {k : Nat} {entities : List JobStateEntity}
    (waits : (resendEntities r send expected c remaining k entities).entities ≠ []) :
    entities ≠ [] := by
  rintro rfl
  exact waits rfl

/-- `process()` keeps the job what it is. -/
theorem Announced.processed {j : CommandJob} (announced : Announced c j) (r : Readings)
    (d : Cace) : Announced c (j.process r d).2.1 := by
  intro loud waits
  refine announced loud ?_
  revert waits
  unfold CommandJob.process
  dsimp only
  split
  · exact resendEntities_nil
  · exact id

def AllAnnounced (c : Cace) : Prop :=
  ∀ j, .command j ∈ c.jobs → Announced c j

theorem AllAnnounced.effect (effect : Effect r may c c') (before : AllAnnounced c) :
    AllAnnounced c' := by
  intro j member
  refine Announced.later (c := c) ?_ effect.history effect.config
  cases effect.jobs member with
  | kept old => exact before j old
  | processed old d d' finished k there earlier done =>
    cases old with
    | command old =>
      obtain rfl : (old.process (r.forJob k) d).2.1 = j := by cases done; rfl
      exact (before old there).processed (r.forJob k) d
    | commandAcknowledge | believeNotification | believeAcknowledge | shortAck | writeAck
    | request => cases done
    | write old =>
      simp only [Job.process] at done
      split at done <;> cases done
  | created d d' earlier made later =>
    cases made with
    | command variablePtr pointed => exact construct_announced earlier.config later

theorem AllAnnounced.path (path : Path r may c c') (before : AllAnnounced c) : AllAnnounced c' :=
  preserved_by_steps (fun _ _ step before => .effect step before) path before

end Broadcast

section Removal

variable {r : Readings} {c : Cace} {j : CommandJob}

/-- The proposals that the removal test of the job looks at. -/
def recorded (c : Cace) (j : CommandJob) (robot : Int) : List Believe :=
  sentBy robot (c.deref j.variablePtr).proposals

/-- `process()` strikes out the robots with a proposal at least as new as the job. -/
theorem struck_iff {robot : Int} (expected : robot ∈ j.expectedRobotIDs) :
    robot ∉ (j.process r c).2.1.expectedRobotIDs ↔
      ∃ p ∈ recorded c j robot, j.lamportTime ≤ p.lamportAge := by
  have erased : (j.process r c).2.1.expectedRobotIDs =
      eraseUpdated (c.deref j.variablePtr).proposals j.lamportTime j.expectedRobotIDs := rfl
  rw [erased, eraseUpdated, eraseIf_eq_filter]
  simp [expected, recorded, sentBy, and_assoc]

theorem process_expected {robot : Int}
    (here : robot ∈ (j.process r c).2.1.expectedRobotIDs) : robot ∈ j.expectedRobotIDs := by
  have erased : (j.process r c).2.1.expectedRobotIDs =
      eraseUpdated (c.deref j.variablePtr).proposals j.lamportTime j.expectedRobotIDs := rfl
  rw [erased, eraseUpdated, eraseIf_eq_filter] at here
  exact (List.mem_filter.mp here).1

theorem recorded_stored {x : Name} {robot : Int} (stored : j.variablePtr = .stored x) :
    recorded c j robot = sentBy robot (proposalsOf c x) := by
  unfold recorded
  rw [stored, proposalsOf_eq]
  simp only [Cace.deref]
  cases c.getVariable x <;> rfl

/-- The newest proposal of the robot has exactly the time stamp of the job. -/
structure Tied (c : Cace) (j : CommandJob) (robot : Int) : Prop where
  equal : ∃ p ∈ recorded c j robot, p.lamportAge = j.lamportTime
  newest : ∀ p ∈ recorded c j robot, p.lamportAge ≤ j.lamportTime

theorem untied (differ : ∀ robot ∈ j.expectedRobotIDs, ∀ p ∈ recorded c j robot,
    p.lamportAge ≠ j.lamportTime) : ∀ robot ∈ j.expectedRobotIDs, ¬ Tied c j robot := by
  intro robot expected tied
  obtain ⟨p, member, equal⟩ := tied.equal
  exact differ robot expected p member equal

/-- No robot is struck out for a proposal older than the broadcast. -/
def Deliberate (r : Readings) (c : Cace) (j : CommandJob) (broadcast : Nat) : Prop :=
  ∀ robot ∈ j.expectedRobotIDs, robot ∉ (j.process r c).2.1.expectedRobotIDs →
    ∃ p ∈ recorded c j robot, broadcast ≤ p.lamportAge

theorem deliberate_iff : Deliberate r c j (broadcastTime j) ↔
    2 ^ 64 ≤ j.lamportTime + 1 ∨ ∀ robot ∈ j.expectedRobotIDs, ¬ Tied c j robot := by
  have stamp : broadcastTime j =
      if j.lamportTime + 1 < 2 ^ 64 then j.lamportTime + 1 else (j.lamportTime + 1) % 2 ^ 64 := by
    unfold broadcastTime LamportClock.tick LamportClock.setTime
    split <;> rfl
  rw [stamp]
  by_cases wraps : 2 ^ 64 ≤ j.lamportTime + 1
  · rw [if_neg (Nat.not_lt.mpr wraps)]
    refine ⟨fun _ => .inl wraps, fun _ robot expected struck => ?_⟩
    obtain ⟨p, member, newer⟩ := (struck_iff expected).mp struck
    refine ⟨p, member, ?_⟩
    -- the clock has wrapped, and the broadcast is older than the job
    omega
  · rw [if_pos (Nat.not_le.mp wraps)]
    constructor
    · refine fun deliberate => .inr fun robot expected tied => ?_
      obtain ⟨p, member, equal⟩ := tied.equal
      obtain ⟨q, member, newer⟩ :=
        deliberate robot expected ((struck_iff expected).mpr ⟨p, member, equal.ge⟩)
      have bound := tied.newest q member
      omega
    · rintro (wrapped | untied) robot expected struck
      · exact absurd wrapped wraps
      · obtain ⟨p, member, newer⟩ := (struck_iff expected).mp struck
        by_contra older
        refine untied robot expected ⟨⟨p, member, ?_⟩, fun q member => ?_⟩
        · have bound : ¬ j.lamportTime + 1 ≤ p.lamportAge := fun le => older ⟨p, member, le⟩
          omega
        · have bound : ¬ j.lamportTime + 1 ≤ q.lamportAge := fun le => older ⟨q, member, le⟩
          omega

end Removal

section System

variable {start s : System} {trace : List (System × System.Event)}

/-- At every moment of every run the broadcast of a command job carries its time stamp plus one,
and the job strikes robots out for proposals at least as new as that only, exactly if no expected
robot is tied or the clock has wrapped. -/
theorem strikes_deliberately_iff (quiescent : Quiescent start) (run : start.Runs trace s)
    {id : Int} {r : Readings} {c : Cace} (moment : Path r (courier s id) (s.agents id) c)
    {j : CommandJob} (member : .command j ∈ c.jobs) :
    Announced c j ∧ ∀ r', Deliberate r' c j (broadcastTime j) ↔
      2 ^ 64 ≤ j.lamportTime + 1 ∨ ∀ robot ∈ j.expectedRobotIDs, ¬ Tied c j robot := by
  have begun : AllAnnounced (s.agents id) := agents_keep AllAnnounced.effect quiescent
    (fun c idle j => by simp [idle.jobs]) run id
  exact ⟨AllAnnounced.path moment begun j member, fun r' => deliberate_iff⟩

/-- Agent 2 commands `x`, agent 1 answers, and commands `x` itself. -/
def overtaken (y : List System.Event) : List System.Event :=
  [.call 2 .zero (.distributeValue ['x'] [7] 0 .threeWayHandShake),
    .call 1 .zero (.agentEngangement 2 false)] ++ y ++
    [.deliver 1 .zero (.command ⟨2, [0], ['x'], [7], 0, longMax, 70, 202, 2, 0⟩),
      .call 1 .zero (.distributeValue ['x'] [9] 0 .threeWayHandShake)]

/-- Agent 1 commands `x`, and gets the answer of agent 2. -/
def answeredCommand : List System.Event :=
  [.call 1 .zero (.agentEngangement 2 false),
    .call 1 .zero (.distributeValue ['x'] [9] 0 .threeWayHandShake),
    .deliver 2 .zero (.command ⟨1, [0], ['x'], [9], 0, longMax, 70, 101, 2, 0⟩),
    .deliver 1 .zero (.acknowledge ⟨2, [0], ['x'], [9], 101, 3, 0⟩)]

/-- The proposal of agent 2 is newer than the broadcast, and agent 2 is struck out. -/
theorem strikes_deliberately_answered : ∃ trace s j ack,
    (newSystem [1, 2]).play answeredCommand = some (trace, s) ∧
      (s.agents 1).jobs = [.command j, ack] ∧ 2 ∈ j.expectedRobotIDs ∧
      2 ∉ (j.process .zero (s.agents 1)).2.1.expectedRobotIDs ∧
      Deliberate .zero (s.agents 1) j (broadcastTime j) := by
  have played : (newSystem [1, 2]).play answeredCommand = some _ := rfl
  obtain ⟨run, -⟩ := System.play_runs played
  obtain ⟨-, iff⟩ := @strikes_deliberately_iff _ _ _ (newSystem_quiescent [1, 2]) run 1 .zero _
    .refl _ List.mem_cons_self
  exact ⟨_, _, _, _, played, rfl, by decide, by decide, (iff .zero).mpr (.inr (untied (by decide)))⟩

/-- Agent 1 has distributed `y` before, so that its clock equals the time stamp of the command:
the next command of agent 1 carries 3, and its job strikes out agent 2 for a proposal of age 2. -/
theorem strikes_deliberately_tied : ∃ trace s y ack j m,
    (newSystem [1, 2]).play
        (overtaken [.call 1 .zero (.distributeValue ['y'] [8] 0 .threeWayHandShake)]) =
      some (trace, s) ∧ (s.agents 1).jobs = [y, ack, .command j] ∧
      .published (.command m) .first ∈ (s.agents 1).history ∧ m.variableName = ['x'] ∧
      m.msgID = j.msgID ∧ m.lamportTime = 3 ∧ 2 ∈ j.expectedRobotIDs ∧
      2 ∉ (j.process .zero (s.agents 1)).2.1.expectedRobotIDs ∧
      ∀ p ∈ recorded (s.agents 1) j 2, p.lamportAge < m.lamportTime := by
  refine ⟨_, _, _, _, _, ⟨1, [0], ['x'], [9], 0, longMax, 70, 102, 3, 0⟩, rfl, rfl, ?_⟩
  decide

end System

section Answers

variable {r : Readings} {may : Licence} {c c' : Cace}

/-- Every acknowledge that has reached its handler has been applied. -/
def AcksApplied (c : Cace) : Prop :=
  ∀ a, .received (.acknowledge a) ∈ c.history → c.addressed a.receiverID = true →
    .applied (.acknowledge a) ∈ c.history

theorem shortAckAnswer_applied (r : Readings) (c : Cace) (a : CaceAcknowledge) :
    .applied (.acknowledge a) ∈ (ShortAckJob.answer r c a).history := by
  have updated : .applied (.acknowledge a) ∈ (ShortAckJob.doVariableUpdate r c a).history := by
    obtain ⟨seen, history, -⟩ := updateVariable_history c (acknowledgeUpdate r c.ownID a)
    rw [ShortAckJob.doVariableUpdate, history]
    exact List.mem_append_right _ List.mem_cons_self
  unfold ShortAckJob.answer
  dsimp only
  split
  · exact (send_onlySends _ _ _).history.subset updated
  · exact updated

theorem handleCaceAcknowledge_applied {a : CaceAcknowledge} (direct : c.safeStepMode = false)
    (received : .received (.acknowledge a) ∉ c.history)
    (now : .received (.acknowledge a) ∈ (c.handleCaceAcknowledge r a).history)
    (addressed : c.addressed a.receiverID = true) :
    .applied (.acknowledge a) ∈ (c.handleCaceAcknowledge r a).history := by
  have reaches : ((c.observe (.received (.acknowledge a))).updateLamportTime
      a.lamportTime).addressed a.receiverID = true := addressed
  revert now
  unfold Cace.handleCaceAcknowledge
  dsimp only
  split
  next => exact fun old => absurd old received
  next =>
    intro _
    unfold ShortAckJob.construct
    dsimp only
    rw [if_neg (by simp [Cace.updateLamportTime, Cace.observe, direct])]
    exact shortAckAnswer_applied r _ a

/-- In direct mode the update of an acknowledge does not wait. -/
theorem AcksApplied.next {e : Readings × Cace.Event} (direct : c.safeStepMode = false)
    (queued : c.Queued) (next : c.Next e c') (before : AcksApplied c) : AcksApplied c' := by
  have path : Path e.1 { receives := fun m => ∃ m', e.2 = .handle m' ∧ m = heard c m' } c c' :=
    exec_hears queued (fun m handled => ⟨m, handled, rfl⟩) next
  have own : c'.ownID = c.ownID := congrArg Config.ownID path.config
  intro a received addressed
  unfold Cace.addressed at addressed
  rw [own] at addressed
  by_cases old : .received (.acknowledge a) ∈ c.history
  · exact path.history.subset (before a old addressed)
  · rcases path.received received with here | ⟨m, handled, same⟩
    · exact absurd here old
    · have done : c.handle e.1 m = c' := by
        unfold Cace.Next at next
        rw [handled] at next
        exact Except.ok.inj next
      obtain ⟨a', rfl, -⟩ := heard_acknowledge same
      obtain rfl : a = c.stampedAcknowledge a' := by cases same; rfl
      subst done
      exact handleCaceAcknowledge_applied direct old received addressed

/-- The clock is behind nothing that has been received. -/
def Caught (c : Cace) : Prop :=
  c.lamportTime.wraps = 0 → ∀ m t, .received m ∈ c.history → m.lamportTime = some t →
    t ≤ c.lamportTime.time

theorem Caught.effect (effect : Effect r may c c') (before : Caught c) : Caught c' := by
  intro unwrapped m t received stamped
  obtain ⟨unwrapped₀, later⟩ := effect.clock unwrapped
  rcases effect.received received with old | ⟨-, -, rfl⟩
  · exact Nat.le_trans (before unwrapped₀ m t old stamped) later
  · unfold Cace.receive at unwrapped ⊢
    simp only [stamped] at unwrapped ⊢
    exact LamportClock.le_witness_time unwrapped

/-- The acknowledge is as new as a message that it answers. -/
def UpToDate (c : Cace) (a : CaceAcknowledge) : Prop :=
  ∃ m order t, .received m ∈ c.history ∧ m.order? = some order ∧
    a.msgID = toShort order.msgID ∧ m.lamportTime = some t ∧ t ≤ a.lamportTime

/-- The time stamps of the acknowledges of an agent in direct mode. -/
structure Stamps (c : Cace) : Prop where
  attributed : Attributed c
  caught : Caught c
  direct : c.safeStepMode = false
  first : c.lamportTime.wraps = 0 → ∀ a, .published (.acknowledge a) .first ∈ c.history →
    UpToDate c a
  again : ∀ a, .published (.acknowledge a) .again ∈ c.history → a.lamportTime = 0
  commands : ∀ j, .commandAcknowledge j ∈ c.jobs → j.ownLamportTime = 0
  notifications : ∀ j, .believeAcknowledge j ∈ c.jobs → j.ownLamportTime = 0

namespace Stamps

theorem first_effect (effect : Effect r may c c') (before : Stamps c)
    (unwrapped : c'.lamportTime.wraps = 0) {a : CaceAcknowledge}
    (published : .published (.acknowledge a) .first ∈ c'.history) : UpToDate c' a := by
  have kept : ∀ m, .received m ∈ c.history → .received m ∈ c'.history := fun m old =>
    effect.history.subset old
  rcases effect.published published with old | ⟨d, moment, rfl, ⟨-, content⟩ | ⟨again, -⟩⟩
  · obtain ⟨m, order, t, received, rest⟩ := before.first (effect.clock unwrapped).1 a old
    exact ⟨m, order, t, kept m received, rest⟩
  · have caught : ∀ m t, .received m ∈ c.history → m.lamportTime = some t →
        t ≤ d.lamportTime.time := by
      intro m t received stamped
      obtain ⟨unwrapped₀, later⟩ := effect.clock unwrapped
      exact Nat.le_trans (before.caught unwrapped₀ m t received stamped) later
    cases content with
    | acknowledge cmd id received source =>
      refine ⟨_, _, _, kept _ received, rfl, ?_, rfl, caught _ _ received rfl⟩
      rw [before.attributed.named source]
      exact toShort_toShort _
    | answer cbn id receiver received source =>
      refine ⟨_, _, _, kept _ received, rfl, ?_, rfl, caught _ _ received rfl⟩
      rw [before.attributed.named_notification source]
      exact toShort_toShort _
  · cases again

theorem again_effect (effect : Effect r may c c') (before : Stamps c) {a : CaceAcknowledge}
    (published : .published (.acknowledge a) .again ∈ c'.history) : a.lamportTime = 0 := by
  rcases effect.published published with old | ⟨d, -, -, ⟨first, -⟩ | ⟨-, job, member, content, -⟩⟩
  · exact before.again a old
  · cases first
  · have direct : ¬ c.safeStepMode = true := by simp [before.direct]
    cases content with
    | acknowledge j i variablePtr t pointer time =>
      rcases time with rfl | ⟨safe, -⟩
      · exact before.commands j member
      · exact absurd safe direct
    | answer j i t time =>
      rcases time with rfl | ⟨safe, -⟩
      · exact before.notifications j member
      · exact absurd safe direct

theorem commandAcknowledge_ownTime (direct : c.safeStepMode = false) (j : CommandAcknowledgeJob) :
    (j.process r c).2.1.ownLamportTime = j.ownLamportTime := by
  have caught : (j.catchUp r c).2 = j := by simp [CommandAcknowledgeJob.catchUp, direct]
  unfold CommandAcknowledgeJob.process
  dsimp only
  split <;> rw [caught]

theorem believeAcknowledge_ownTime (direct : c.safeStepMode = false) (j : BelieveAcknowledgeJob) :
    (j.process r c).2.1.ownLamportTime = j.ownLamportTime := by
  have caught : (j.catchUp r c).2 = j := by simp [BelieveAcknowledgeJob.catchUp, direct]
  unfold BelieveAcknowledgeJob.process
  dsimp only
  split <;> rw [caught]

theorem commands_effect (effect : Effect r may c c') (before : Stamps c)
    {j : CommandAcknowledgeJob} (member : .commandAcknowledge j ∈ c'.jobs) :
    j.ownLamportTime = 0 := by
  cases effect.jobs member with
  | kept old => exact before.commands j old
  | processed old d d' finished k there earlier done =>
    cases old with
    | commandAcknowledge old =>
      have direct : d.safeStepMode = false :=
        (congrArg Config.safeStepMode earlier.config).trans before.direct
      obtain rfl : (old.process (r.forJob k) d).2.1 = j := by cases done; rfl
      exact (commandAcknowledge_ownTime direct old).trans (before.commands old there)
    | command | believeNotification | believeAcknowledge | shortAck | writeAck | request =>
      cases done
    | write old =>
      simp only [Job.process] at done
      split at done <;> cases done
  | created d d' earlier made later =>
    cases made with
    | commandAcknowledge cmd =>
      unfold CommandAcknowledgeJob.construct
      dsimp only
      split
      · rfl
      · split <;> rfl

theorem notifications_effect (effect : Effect r may c c') (before : Stamps c)
    {j : BelieveAcknowledgeJob} (member : .believeAcknowledge j ∈ c'.jobs) :
    j.ownLamportTime = 0 := by
  cases effect.jobs member with
  | kept old => exact before.notifications j old
  | processed old d d' finished k there earlier done =>
    cases old with
    | believeAcknowledge old =>
      have direct : d.safeStepMode = false :=
        (congrArg Config.safeStepMode earlier.config).trans before.direct
      obtain rfl : (old.process (r.forJob k) d).2.1 = j := by cases done; rfl
      exact (believeAcknowledge_ownTime direct old).trans (before.notifications old there)
    | command | believeNotification | commandAcknowledge | shortAck | writeAck | request =>
      cases done
    | write old =>
      simp only [Job.process] at done
      split at done <;> cases done
  | created d d' earlier made later =>
    cases made with
    | believeAcknowledge cbn =>
      unfold BelieveAcknowledgeJob.construct
      dsimp only
      split
      · rfl
      · split <;> rfl

theorem effect (effect : Effect r may c c') (before : Stamps c) : Stamps c' where
  attributed := .effect effect before.attributed
  caught := before.caught.effect effect
  direct := (congrArg Config.safeStepMode effect.config).trans before.direct
  first unwrapped _ published := before.first_effect effect unwrapped published
  again _ published := before.again_effect effect published
  commands _ member := before.commands_effect effect member
  notifications _ member := before.notifications_effect effect member

theorem of_idle (idle : c.Idle) (direct : c.safeStepMode = false) : Stamps c where
  attributed := .of_idle idle
  caught _ m t received := by simp [idle.history] at received
  direct := direct
  first _ a published := by simp [idle.history] at published
  again a published := by simp [idle.history] at published
  commands j member := by simp [idle.jobs] at member
  notifications j member := by simp [idle.jobs] at member

end Stamps

end Answers

section Acknowledged

variable {start s : System} {trace : List (System × System.Event)}

/-- What an agent in direct mode maintains from event to event. -/
structure Direct (x : Name) (c : Cace) : Prop where
  stamps : Stamps c
  covered : Covered x c
  applied : AcksApplied c

theorem direct_run {x : Name} (quiescent : Quiescent start)
    (direct : ∀ id, (start.agents id).safeStepMode = false) (run : start.Runs trace s) (id : Int) :
    Direct x (s.agents id) := by
  have init : Direct x (start.agents id) := by
    have idle := quiescent.idle id
    refine ⟨.of_idle idle (direct id), ⟨idle_queued idle, fun report applied => ?_⟩, fun a => ?_⟩
    · simp [appliedReports, idle.history] at applied
    · simp [idle.history]
  refine (local_runs run id).preserves (fun c e c' (_ : True) next before => ?_)
    (fun _ _ => trivial) init
  have path : Path e.1 {} c c' := exec_path_any before.covered.queued next
  exact ⟨preserved_by_steps (fun _ _ step before => .effect step before) path before.stamps,
    before.covered.path path, before.applied.next before.stamps.direct before.covered.queued next⟩

/-- What happens while an agent makes a step: nothing is received, and no call is made. -/
def stepping : Licence where
  passes _ := False
  decides _ := False
  receives _ := False
  acks _ := False

/-- Without proposals that the application passes in, a robot is struck out for a message only. -/
theorem struck_report {x : Name} {robot : Int} (quiescent : Quiescent start)
    (run : start.Runs trace s) {id : Int}
    (unheard : ∀ cv, (start.agents id).getVariable x = some cv → cv.proposals = [])
    (bare : ∀ p ∈ localTrace id trace, BarePassed p.1 p.2) {r r' : Readings} {c : Cace}
    (moment : Path r stepping (s.agents id) c) {j : CommandJob} (stored : j.variablePtr = .stored x)
    (expected : robot ∈ j.expectedRobotIDs)
    (struck : robot ∉ (j.process r' c).2.1.expectedRobotIDs) :
    ∃ report ∈ reportsOf c x robot, j.lamportTime ≤ report.lamportTime := by
  have init : Registers x robot (start.agents id) := by
    refine ⟨idle_queued (quiescent.idle id),
      .inl ⟨by simp [reportsOf, appliedReports, (quiescent.idle id).history], ?_⟩⟩
    unfold sentBy proposalsOf
    cases known : (start.agents id).getVariable x with
    | none => rfl
    | some cv => simp [unheard cv known]
  have begun : Registers x robot (s.agents id) :=
    (local_runs run id).preserves registers_step bare init
  have now : Registers x robot c := @preserved_by_steps _ _ (Registers x robot)
    (fun _ _ effect => registers_effect effect fun _ (given : False) => given.elim) _ _ moment begun
  obtain ⟨p, member, newer⟩ := (struck_iff expected).mp struck
  rw [recorded_stored stored] at member
  rcases now.tracks with ⟨-, none⟩ | ⟨q, report, records, fresh, -, -, age⟩
  · rw [none] at member
    cases member
  · rw [records] at member
    obtain rfl := List.mem_singleton.mp member
    exact ⟨report, fresh.mem, age ▸ newer⟩

/-- In direct mode an acknowledge about the stored variable of a command job whose time stamp is
not below that of the job satisfies the job for its sender, and nothing but a message with such a
time stamp does. First transmissions are as new as a message that they answer; retransmissions
carry zero. -/
theorem acknowledges_satisfy (quiescent : Quiescent start)
    (direct : ∀ id, (start.agents id).safeStepMode = false) (run : start.Runs trace s) {id : Int}
    {r : Readings} {c : Cace} (moment : Path r stepping (s.agents id) c) {j : CommandJob}
    {x : Name} (stored : j.variablePtr = .stored x) :
    (∀ a, .received (.acknowledge a) ∈ (s.agents id).history →
      (s.agents id).addressed a.receiverID = true → a.variableName = x →
      j.lamportTime ≤ a.lamportTime → ∀ r', a.senderID ∉ (j.process r' c).2.1.expectedRobotIDs) ∧
    ((∀ cv, (start.agents id).getVariable x = some cv → cv.proposals = []) →
      (∀ p ∈ localTrace id trace, BarePassed p.1 p.2) → ∀ robot ∈ j.expectedRobotIDs, ∀ r',
      robot ∉ (j.process r' c).2.1.expectedRobotIDs →
        ∃ report ∈ reportsOf c x robot, j.lamportTime ≤ report.lamportTime) ∧
    ∀ i a, (.published (.acknowledge a) .first ∈ (s.agents i).history →
        (s.agents i).lamportTime.wraps = 0 → UpToDate (s.agents i) a) ∧
      (.published (.acknowledge a) .again ∈ (s.agents i).history → a.lamportTime = 0) := by
  have all := direct_run (x := x) quiescent direct run
  refine ⟨fun a received addressed about newer r' => ?_,
    fun unheard bare robot expected r' struck =>
      struck_report quiescent run unheard bare moment stored expected struck, fun i a =>
    ⟨fun published unwrapped => (all i).stamps.first unwrapped a published,
      fun published => (all i).stamps.again a published⟩⟩
  have covered := Covered.path moment (all id).covered
  have applied : Report.mk a.variableName a.senderID a.value a.type a.lamportTime ∈
      appliedReports c.history :=
    List.mem_filterMap.mpr
      ⟨_, moment.history.subset ((all id).applied a received addressed), rfl⟩
  obtain ⟨known, current⟩ := covered.covers _ applied about
  obtain ⟨p, member⟩ := List.exists_mem_of_ne_nil _ known
  by_cases expected : a.senderID ∈ j.expectedRobotIDs
  · have bound := Nat.le_trans newer (current p member)
    rw [← recorded_stored stored] at member
    exact (struck_iff expected).mpr ⟨p, member, bound⟩
  · exact fun here => expected (process_expected here)

/-- Agent 1 commands `x`; the acknowledge of agent 2 comes or is lost; then agent 2 resends it. -/
def acknowledging (rest : List System.Event) : List System.Event :=
  [.call 1 .zero (.agentEngangement 2 false), .call 2 .zero (.agentEngangement 1 false),
    .call 1 .zero (.distributeValue ['x'] [7] 0 .threeWayHandShake),
    .deliver 2 .zero (.command ⟨1, [0], ['x'], [7], 0, longMax, 70, 101, 2, 0⟩)] ++ rest

/-- The first transmission is handled. -/
theorem acknowledges_satisfy_first : ∃ trace s j,
    (newSystem [1, 2]).play
        (acknowledging [.deliver 1 .zero (.acknowledge ⟨2, [0], ['x'], [7], 101, 3, 0⟩)]) =
      some (trace, s) ∧ (s.agents 1).jobs.head? = some (.command j) ∧ 2 ∈ j.expectedRobotIDs ∧
      2 ∉ (j.process .zero (s.agents 1)).2.1.expectedRobotIDs := by
  have played : (newSystem [1, 2]).play
      (acknowledging [.deliver 1 .zero (.acknowledge ⟨2, [0], ['x'], [7], 101, 3, 0⟩)]) =
        some _ := rfl
  obtain ⟨run, -⟩ := System.play_runs played
  refine ⟨_, _, _, played, rfl, by decide, ?_⟩
  exact (@acknowledges_satisfy _ _ _ (newSystem_quiescent [1, 2]) (fun _ => rfl) run 1 .zero _ .refl
    _ ['x'] rfl).1 ⟨2, [0], ['x'], [7], 101, 3, 0⟩ (by decide) (by decide) rfl (by decide) .zero

/-- The first transmission is lost, and agent 2 retransmits: its acknowledge carries 0, and the
job with the time stamp 1 goes on waiting. -/
theorem acknowledges_satisfy_resent : ∃ trace s j,
    (newSystem [1, 2]).play
        (acknowledging [.lose 1 (.acknowledge ⟨2, [0], ['x'], [7], 101, 3, 0⟩), .call 2 late .step,
          .deliver 1 .zero (.acknowledge ⟨2, [1], ['x'], [7], 101, 0, 0⟩)]) =
      some (trace, s) ∧ (s.agents 1).jobs.head? = some (.command j) ∧
      .published (.acknowledge ⟨2, [1], ['x'], [7], 101, 0, 0⟩) .again ∈ (s.agents 2).history ∧
      .received (.acknowledge ⟨2, [1], ['x'], [7], 101, 0, 0⟩) ∈ (s.agents 1).history ∧
      2 ∈ j.expectedRobotIDs ∧ 2 ∈ (j.process .zero (s.agents 1)).2.1.expectedRobotIDs :=
  ⟨_, _, _, rfl, rfl, by decide⟩

end Acknowledged

end CaceProofs.Guarantees
