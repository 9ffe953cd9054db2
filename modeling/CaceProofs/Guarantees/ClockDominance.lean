import CaceProofs.Guarantees.StoreWellFormed

/-!
# The clock dominates what an agent knows

As long as nothing wraps, the clock of an agent never goes back and is never behind an
age in the store, a proposal, or a message in a queue or a job.
-/
namespace CaceProofs.Guarantees
open Source Library

/-- The own age and the ages of all proposals are at most `t`. -/
def AgesBelow (t : Nat) (cv : ConsensusVariable) : Prop :=
  ∀ b ∈ cv.toBelieve :: cv.proposals, b.lamportAge ≤ t

theorem AgesBelow.mono {s t : Nat} {cv : ConsensusVariable} (below : AgesBelow s cv)
    (le : s ≤ t) : AgesBelow t cv :=
  fun b member => Nat.le_trans (below b member) le

theorem agesBelow_mk {t : Nat} {cv : ConsensusVariable} (own : cv.lamportAge ≤ t)
    (proposals : ∀ p ∈ cv.proposals, p.lamportAge ≤ t) : AgesBelow t cv := by
  intro b member
  rcases List.mem_cons.mp member with rfl | proposal
  · exact own
  · exact proposals b proposal

theorem AgesBelow.own {t : Nat} {cv : ConsensusVariable} (below : AgesBelow t cv) :
    cv.lamportAge ≤ t :=
  below _ List.mem_cons_self

theorem AgesBelow.proposals {t : Nat} {cv : ConsensusVariable} (below : AgesBelow t cv) :
    ∀ p ∈ cv.proposals, p.lamportAge ≤ t :=
  fun p member => below p (List.mem_cons_of_mem _ member)

theorem AgesBelow.acceptProposals {t : Nat} {cv : ConsensusVariable} (below : AgesBelow t cv)
    (value : Option Bytes) : AgesBelow t (cv.acceptProposals value) := by
  refine agesBelow_mk ?_ below.proposals
  obtain ⟨-, ⟨-, age⟩ | ⟨winner, member, -, age⟩⟩ := acceptProposals_spec cv value
  · exact age ▸ below.own
  · exact age ▸ below.proposals winner member

/-- An update with a message that the clock dominates. -/
theorem AgesBelow.updated {t : Nat} {u : ProposalUpdate} {old : Option ConsensusVariable}
    (seen : u.lamportTime ≤ t) (before : ∀ cv, old = some cv → AgesBelow t cv) :
    AgesBelow t (updated u old) := by
  cases old with
  | none =>
    refine AgesBelow.acceptProposals (agesBelow_mk (Nat.le_trans u.own_fresh.2 seen) ?_) _
    intro p member
    obtain rfl := List.mem_singleton.mp member
    rw [u.co_records.2.2.2]
    exact seen
  | some cv =>
    have below := before cv rfl
    unfold Guarantees.updated
    dsimp only
    split
    next recorded found =>
      refine AgesBelow.acceptProposals (agesBelow_mk ?_ ?_) none
      · rw [recordProposal_own found]
        exact below.own
      · intro p member
        rcases mem_recordProposal found member with old | rfl | ⟨old, oldMember, -, rfl⟩
        · exact below.proposals p old
        · rw [(u.fresh_records _).2.2.2]
          exact seen
        · rw [(u.overwrite_records old).2.2.2]
          exact seen
    next => exact below

/-- Nothing stored or queued is newer than the clock. -/
structure ClockDominates (c : Cace) : Prop where
  stored : ∀ name cv, c.getVariable name = some cv → AgesBelow c.lamportTime.time cv
  queued : ∀ m ∈ c.queues.held, ∀ t, m.lamportTime = some t → t ≤ c.lamportTime.time

/-- What carries it: the clock dominates everything received. -/
structure Dominated (c : Cace) : Prop where
  stored : ∀ name cv, c.getVariable name = some cv → AgesBelow c.lamportTime.time cv
  received : ∀ m t, .received m ∈ c.history → m.lamportTime = some t → t ≤ c.lamportTime.time

theorem Dominated.effect {r : Readings} {t : Nat} {c c' : Cace}
    (effect : Effect r { passes := AgesBelow t } c c') (unwrapped : c'.lamportTime.wraps = 0)
    (reached : t ≤ c.lamportTime.time) (before : Dominated c) : Dominated c' := by
  have later : c.lamportTime.time ≤ c'.lamportTime.time := (effect.clock unwrapped).2
  refine ⟨?_, ?_⟩
  · intro name cv found
    rcases effect_variable effect found with ⟨old, stored, equal⟩ | ⟨u, -, -, received, rfl⟩
      | ⟨cmd, -, received, rfl⟩ | ⟨value, type, strategy, -, rfl⟩ | ⟨var, given, -, equal⟩
    · have below := (before.stored name old stored).mono later
      rcases equal with rfl | rfl
      · exact below
      · exact agesBelow_mk below.own below.proposals
    · refine (AgesBelow.updated ?_ fun cv stored => before.stored name cv stored).mono later
      exact before.received _ _ received (Message.report?_stamp u.message_report).2
    · have seen := before.received _ _ received rfl
      cases stored : c.getVariable name with
      | none => exact agesBelow_mk (Nat.le_trans seen later) (by simp [written])
      | some old =>
        have below := (before.stored name old stored).mono later
        exact agesBelow_mk (Nat.le_trans seen later) below.proposals
    · cases stored : c.getVariable name with
      | none => exact agesBelow_mk later (by simp [decided])
      | some old => exact agesBelow_mk later ((before.stored name old stored).mono later).proposals
    · have given := given.mono (Nat.le_trans reached later)
      rcases equal with rfl | ⟨old, stored, rfl⟩
      · exact given
      · exact agesBelow_mk given.own ((before.stored name old stored).mono later).proposals
  · intro m t received stamped
    rcases effect.received received with old | ⟨-, -, rfl⟩
    · exact Nat.le_trans (before.received m t old stamped) later
    · unfold Cace.receive at unwrapped ⊢
      simp only [stamped] at unwrapped ⊢
      exact LamportClock.le_witness_time unwrapped

/-- What the application passes in has no age above the clock. -/
def AgesPassed (c : Cace) (e : Readings × Cace.Event) : Prop :=
  match e.2 with
  | .distributeVariable (.detached cv) => AgesBelow c.lamportTime.time cv
  | .addVariable cv _ => AgesBelow c.lamportTime.time cv
  | _ => True

/-- The invariant of a run. -/
structure ClockInvariant (c : Cace) : Prop where
  queued : c.Queued
  dominated : c.lamportTime.wraps = 0 → Dominated c

/-- The path of an event whose variables the clock dominates. -/
theorem agesPassed_path {c c' : Cace} {e : Readings × Cace.Event} (passed : AgesPassed c e)
    (next : c.Next e c') (unwrapped : c.lamportTime.wraps = 0) (before : ClockInvariant c) :
    Path e.1 { passes := AgesBelow c.lamportTime.time } c c' := by
  obtain ⟨r, e⟩ := e
  refine exec_path before.queued ?_ next
  refine admits_any ?_ ?_ (fun _ => trivial) (fun _ => trivial) (fun _ => trivial)
    (fun _ _ _ => trivial) (fun _ _ => trivial) trivial
  · rintro variablePtr rfl
    cases variablePtr with
    | stored name =>
      left
      have read : c.deref (.stored name) = (c.getVariable name).getD default := rfl
      rw [read]
      cases stored : c.getVariable name with
      | none =>
        refine agesBelow_mk (Nat.zero_le _) fun p member => ?_
        cases (member : p ∈ ([] : List Believe))
      | some cv => exact (before.dominated unwrapped).stored name cv stored
    | detached cv => exact .inl passed
  · rintro var distribute rfl
    exact passed

/-- No event sets the clock back. -/
theorem clock_mono (c : Cace) (e : Readings × Cace.Event) (c' : Cace) (next : c.Next e c')
    (queued : c.Queued) : c.lamportTime ≤ c'.lamportTime ∧ c'.Queued := by
  have path : Path e.1 {} c c' :=
    exec_path_any queued next
  exact ⟨path.clock, path.queued queued⟩

theorem clockInvariant_step (c : Cace) (e : Readings × Cace.Event) (c' : Cace)
    (passed : AgesPassed c e) (next : c.Next e c') (before : ClockInvariant c) :
    ClockInvariant c' := by
  obtain ⟨forward, queued⟩ := clock_mono c e c' next before.queued
  refine ⟨queued, fun unwrapped => ?_⟩
  have unwrapped0 := (forward unwrapped).1
  have path := agesPassed_path passed next unwrapped0 before
  have init := before.dominated unwrapped0
  have steps : ∀ d, Path e.1 { passes := AgesBelow c.lamportTime.time } c d →
      d.lamportTime.wraps = 0 → Dominated d := by
    intro d reached
    induction reached with
    | refl => exact fun _ => init
    | tail earlier effect ih =>
      intro unwrapped
      have middle := (effect.clock unwrapped).1
      exact (ih middle).effect effect unwrapped (Path.clock earlier middle).2
  exact steps c' path unwrapped

/-- The clock along a run. -/
theorem run_clock_mono {start c : Cace} {trace : List (Cace × Readings × Cace.Event)}
    (queued : start.Queued) (run : start.Runs trace c) :
    c.Queued ∧ ∀ p ∈ trace, p.1.lamportTime ≤ c.lamportTime := by
  refine run.carries
    (fun trace c => c.Queued ∧ ∀ p ∈ trace, p.1.lamportTime ≤ c.lamportTime)
    (fun trace s e s' _ (_ : True) next before => ?_) (fun _ _ => trivial) ?_
  · obtain ⟨queued1, earlier⟩ := before
    obtain ⟨forward, queued2⟩ := clock_mono s e s' next queued1
    refine ⟨queued2, fun p member => ?_⟩
    rcases List.mem_append.mp member with before | last
    · exact le_trans (earlier p before) forward
    · obtain rfl := List.mem_singleton.mp last
      exact forward
  · exact ⟨queued, by simp⟩

/-- The clock never decreases and dominates every age, in every run of a fresh agent that
has not wrapped. -/
theorem clock_dominates {start c : Cace} {trace : List (Cace × Readings × Cace.Event)}
    (fresh : start.Fresh) (run : start.Runs trace c)
    (passed : ∀ p ∈ trace, AgesPassed p.1 p.2) (unwrapped : c.lamportTime.wraps = 0) :
    (∀ p ∈ trace, p.1.lamportTime.time ≤ c.lamportTime.time) ∧ ClockDominates c := by
  have init : ClockInvariant start := by
    refine ⟨idle_queued fresh.toIdle, fun _ => ⟨?_, ?_⟩⟩
    · intro name cv found
      simp [Cace.getVariable, fresh.store] at found
    · intro m t received
      simp [fresh.history] at received
  have final : ClockInvariant c := run.preserves clockInvariant_step passed init
  have dominated := final.dominated unwrapped
  refine ⟨?_, dominated.stored, ?_⟩
  · intro p member
    exact ((run_clock_mono (idle_queued fresh.toIdle) run).2 p member unwrapped).2
  · intro m member t stamped
    exact dominated.received m t (final.queued.received m member) stamped

/-- An agent that takes a command and distributes a value itself. -/
theorem clock_dominates_distribution : ∃ trace c,
    (Cace.construct 1 false 10).play
      [(.zero, .handle (.command ⟨2, [0], ['x'], [7], 0, 0, 70, 1, 5, 0⟩)),
        (.zero, .distributeValue ['x'] [8] 0 .threeWayHandShake)] = some (trace, c) ∧
      (∀ p ∈ trace, p.1.lamportTime.time ≤ c.lamportTime.time) ∧ ClockDominates c ∧
      c.lamportTime.time = 7 ∧ (c.getVariable ['x']).map (fun cv => cv.lamportAge) = some 6 := by
  have played : (Cace.construct 1 false 10).play
      [(.zero, .handle (.command ⟨2, [0], ['x'], [7], 0, 0, 70, 1, 5, 0⟩)),
        (.zero, .distributeValue ['x'] [8] 0 .threeWayHandShake)] = some _ := rfl
  obtain ⟨run, events⟩ := Cace.play_runs played
  have dominates := clock_dominates (Cace.construct_fresh 1 false 10) run ?_ (by decide)
  · exact ⟨_, _, played, dominates.1, dominates.2, by decide, by decide⟩
  refine allowed_of_events events ?_
  intro e member c
  simp only [List.mem_cons, List.not_mem_nil, or_false] at member
  rcases member with rfl | rfl <;> trivial

end CaceProofs.Guarantees
