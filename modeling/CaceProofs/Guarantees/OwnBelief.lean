import CaceProofs.Guarantees.ClockDominance
import CaceProofs.Guarantees.DefaultStrategy

/-!
# The own belief is never behind

With default strategies the own age of a variable never decreases and is never below a
recorded proposal, and the own value is one that somebody believed at exactly that age.
-/
namespace CaceProofs.Guarantees
open Source Library

/-- Value and clock of the last call that distributed the variable. -/
def lastDistributed (x : Name) (trace : List (Cace × Readings × Cace.Event)) :
    Option (Bytes × Nat) :=
  (trace.filterMap fun p =>
    match p.2.2 with
    | .distributeValue name value _ _ =>
      if name = x then some (value, p.1.lamportTime.time) else none
    | _ => none).getLast?

/-- The agent distributes the variable with default levels, and writes it in no other way. -/
def Follows (x : Name) (c : Cace) (e : Readings × Cace.Event) : Prop :=
  match e.2 with
  | .distributeValue name _ _ strategy => name = x → strategy.acceptFunction = .default
  | e => Admits (leaves x) c e

/-- Where age and value of the own belief come from. -/
structure Explained (x : Name) (last : Option (Bytes × Nat)) (c : Cace) : Prop
    extends DefaultAt x c where
  ahead : ∀ r, registerAt c x = some r → r.Ahead
  recorded : ∀ r, registerAt c x = some r → ∀ a ∈ r.records, a ∈ beliefsAbout x c
  origin : ∀ r, registerAt c x = some r →
    (∃ b ∈ beliefsAbout x c, b.age = r.own.age ∧ b.value = r.own.value) ∨
      last = some (r.own.value, r.own.age)

/-- The variable stays known, and its own age does not decrease. -/
def Grows (x : Name) (c c' : Cace) : Prop :=
  ∀ r, registerAt c x = some r → ∃ r', registerAt c' x = some r' ∧ r.own.age ≤ r'.own.age

theorem Grows.refl (x : Name) (c : Cace) : Grows x c c :=
  fun r known => ⟨r, known, Nat.le_refl _⟩

theorem Grows.trans {x : Name} {a b c : Cace} (first : Grows x a b) (second : Grows x b c) :
    Grows x a c := by
  intro r known
  obtain ⟨r1, known1, le1⟩ := first r known
  obtain ⟨r2, known2, le2⟩ := second r1 known1
  exact ⟨r2, known2, Nat.le_trans le1 le2⟩

variable {r : Readings} {x : Name} {last : Option (Bytes × Nat)} {c c' : Cace}

/-- A report moves the own belief to an age and a value that were reported. -/
theorem Explained.effect (effect : Effect r (leaves x) c c') (before : Explained x last c) :
    Explained x last c' ∧ Grows x c c' := by
  obtain ⟨step, default⟩ := effect_reportStep (leaves_leaves x) effect before.toDefaultAt
  rcases step with ⟨same, reports⟩ | ⟨u, -, -, received, reports⟩
  · refine ⟨⟨default, ?_, ?_, ?_⟩, ?_⟩
    · rw [same]; exact before.ahead
    · rw [same, reports]; exact before.recorded
    · rw [same, reports]; exact before.origin
    · intro reg known
      exact ⟨reg, same.trans known, Nat.le_refl _⟩
  · have new : reported u.toReport ∈ beliefsAbout x c' := by simp [reports]
    have old : ∀ b ∈ beliefsAbout x c, b ∈ beliefsAbout x c' := by simp [reports]; tauto
    refine ⟨⟨default, ?_, ?_, ?_⟩, ?_⟩
    · intro reg known
      rw [received] at known
      rw [← Option.some.inj known]
      exact Register.receive_ahead before.ahead
    · intro reg known a member
      rw [received] at known
      rw [← Option.some.inj known] at member
      rcases Register.mem_receive member with rfl | ⟨before', stored, inRecords⟩
      · exact new
      · exact old a (before.recorded before' stored a inRecords)
    · intro reg known
      rw [received] at known
      rw [← Option.some.inj known]
      cases stored : registerAt c x with
      | none => exact .inl ⟨_, new, rfl, rfl⟩
      | some reg0 =>
        obtain ⟨a, member, age, value⟩ :=
          Register.receive_origin c.ownID (reported u.toReport) reg0
        rw [age, value]
        rcases List.mem_cons.mp member with rfl | member
        · rcases before.origin reg0 stored with ⟨b, inReports, same⟩ | distributed
          · exact .inl ⟨b, old b inReports, same⟩
          · exact .inr distributed
        · rcases List.mem_cons.mp member with rfl | inRecords
          · exact .inl ⟨_, new, rfl, rfl⟩
          · exact .inl ⟨a, old a (before.recorded reg0 stored a inRecords), rfl, rfl⟩
    · intro reg known
      rw [known] at received
      exact ⟨_, received, Register.own_le_receive _ _ _⟩

theorem Explained.path (path : Path r (leaves x) c c') (before : Explained x last c) :
    Explained x last c' ∧ Grows x c c' := by
  induction path with
  | refl => exact ⟨before, .refl x c⟩
  | tail _ effect ih =>
    obtain ⟨after, grows⟩ := ih.1.effect effect
    exact ⟨after, ih.2.trans grows⟩

/-- The register after the first half of `distributeValue`. -/
theorem registerAt_decideValue (r : Readings) (c : Cace) (x : Name) (value : Bytes) (type : Int)
    (strategy : AcceptStrategy) :
    registerAt (CaceSpace.decideValue r c x value type strategy) x =
      some (Register.decide c.spaceOwnID c.lamportTime.time value (registerAt c x)) := by
  unfold registerAt
  rw [getVariable_decideValue, if_pos rfl]
  cases c.getVariable x with
  | none => rfl
  | some cv => rfl

/-- A decision with a default strategy. -/
theorem DefaultAt.decideValue {value : Bytes} {type : Int} {strategy : AcceptStrategy}
    (before : DefaultAt x c) (default : strategy.acceptFunction = .default) :
    DefaultAt x (CaceSpace.decideValue r c x value type strategy) := by
  have effect : Effect r {} c (CaceSpace.decideValue r c x value type strategy) :=
    .decide x value type strategy trivial
  have history : (CaceSpace.decideValue r c x value type strategy).history = c.history := by
    rw [decideValue_frame]
  refine ⟨effect.queued before.queued, ?_, ?_⟩
  · rw [history]
    exact before.received
  · intro cv stored b member
    rw [getVariable_decideValue, if_pos rfl] at stored
    rw [← Option.some.inj stored] at member
    cases known : c.getVariable x with
    | none =>
      rw [known] at member
      rcases List.mem_cons.mp member with rfl | proposal
      · exact default
      · cases proposal
    | some old =>
      rw [known] at member
      rcases List.mem_cons.mp member with rfl | proposal
      · exact default
      · exact before.stored old known b (List.mem_cons_of_mem _ proposal)

/-- A decision at a clock that dominates the store. -/
theorem Explained.decideValue {value : Bytes} {type : Int} {strategy : AcceptStrategy}
    (before : Explained x last c) (default : strategy.acceptFunction = .default)
    (dominated : Dominated c) :
    Explained x (some (value, c.lamportTime.time))
        (CaceSpace.decideValue r c x value type strategy) ∧
      Grows x c (CaceSpace.decideValue r c x value type strategy) := by
  have register := registerAt_decideValue r c x value type strategy
  have reports : beliefsAbout x (CaceSpace.decideValue r c x value type strategy) =
      beliefsAbout x c := by
    unfold beliefsAbout
    rw [decideValue_frame]
  have below : ∀ reg, registerAt c x = some reg → reg.own.age ≤ c.lamportTime.time ∧
      ∀ a ∈ reg.records, a.age ≤ c.lamportTime.time := by
    intro reg known
    obtain ⟨cv, stored, rfl⟩ := Option.map_eq_some_iff.mp known
    have ages := dominated.stored x cv stored
    refine ⟨ages.own, fun a member => ?_⟩
    obtain ⟨p, inProposals, rfl⟩ := List.mem_map.mp member
    exact ages.proposals p inProposals
  refine ⟨⟨before.toDefaultAt.decideValue default, ?_, ?_, ?_⟩, ?_⟩
  · intro reg known a member
    rw [register] at known
    rw [← Option.some.inj known] at member ⊢
    cases stored : registerAt c x with
    | none =>
      rw [stored] at member
      cases member
    | some old =>
      rw [stored] at member
      exact (below old stored).2 a member
  · intro reg known a member
    rw [register] at known
    rw [← Option.some.inj known] at member
    rw [reports]
    cases stored : registerAt c x with
    | none =>
      rw [stored] at member
      cases member
    | some old =>
      rw [stored] at member
      exact before.recorded old stored a member
  · intro reg known
    rw [register] at known
    rw [← Option.some.inj known]
    cases registerAt c x with
    | none => exact .inr rfl
    | some old => exact .inr rfl
  · intro old known
    rw [known] at register
    exact ⟨_, register, (below old known).1⟩

/-- What a trace distributed last, one event later. -/
theorem lastDistributed_append (x : Name) (trace : List (Cace × Readings × Cace.Event))
    (p : Cace × Readings × Cace.Event) :
    lastDistributed x (trace ++ [p]) =
      (match p.2.2 with
        | .distributeValue name value _ _ =>
          if name = x then some (value, p.1.lamportTime.time) else none
        | _ => none).or (lastDistributed x trace) := by
  unfold lastDistributed
  rw [List.filterMap_append, List.getLast?_append]
  congr 1
  rw [List.filterMap_cons, List.filterMap_nil]
  split <;> simp_all

/-- One event. -/
theorem explained_step {trace : List (Cace × Readings × Cace.Event)}
    {e : Readings × Cace.Event} (follows : Follows x c e) (next : c.Next e c')
    (dominated : Dominated c) (before : Explained x (lastDistributed x trace) c) :
    Explained x (lastDistributed x (trace ++ [(c, e)])) c' ∧ Grows x c c' := by
  obtain ⟨r, e⟩ := e
  have other : Admits (leaves x) c e →
      Explained x (lastDistributed x trace) c' ∧ Grows x c c' :=
    fun admitted => before.path (exec_path before.queued admitted next)
  rw [lastDistributed_append]
  cases e with
  | distributeValue name value type strategy =>
    dsimp only
    by_cases here : name = x
    · subst here
      rw [if_pos rfl]
      obtain ⟨decided, first⟩ :=
        @Explained.decideValue r name _ c value type strategy before (follows rfl) dominated
      have rest : Path r (leaves name) _ _ := distributeValue_rest decided.queued
      obtain ⟨after, second⟩ := decided.path rest
      exact Except.ok.inj next ▸ ⟨after, first.trans second⟩
    · rw [if_neg here]
      exact other here
  | _ => exact other follows

/-- Over a run the own age has not decreased; it is not below a proposal, and the own value was
believed at that age. -/
def OwnBeliefCurrent (x : Name) (trace : List (Cace × Readings × Cace.Event)) (c : Cace) :
    Prop :=
  (∀ p ∈ trace, ∀ cv, p.1.getVariable x = some cv →
    ∃ cv', c.getVariable x = some cv' ∧ cv.lamportAge ≤ cv'.lamportAge) ∧
  ∀ cv, c.getVariable x = some cv →
    (∀ p ∈ cv.proposals, p.lamportAge ≤ cv.lamportAge) ∧
    ((∃ m ∈ appliedReports c.history, m.variableName = x ∧ m.lamportTime = cv.lamportAge ∧
        m.value = cv.val) ∨
      lastDistributed x trace = some (cv.val, cv.lamportAge))

/-- The invariant of a run that has not wrapped. -/
structure Followed (x : Name) (trace : List (Cace × Readings × Cace.Event)) (c : Cace) : Prop
    where
  clock : ClockInvariant c
  explained : c.lamportTime.wraps = 0 → Explained x (lastDistributed x trace) c
  grows : c.lamportTime.wraps = 0 → ∀ p ∈ trace, Grows x p.1 c

theorem followed_run {start : Cace} {trace : List (Cace × Readings × Cace.Event)}
    (run : start.Runs trace c) (ages : ∀ p ∈ trace, AgesPassed p.1 p.2)
    (follows : ∀ p ∈ trace, Follows x p.1 p.2) (init : Followed x [] start) :
    Followed x trace c := by
  refine run.carries (Followed x)
    (fun trace c e c' _ (may : AgesPassed c e ∧ Follows x c e) next before => ?_)
    (fun p member => ⟨ages p member, follows p member⟩) init
  · have clock := clockInvariant_step c e c' may.1 next before.clock
    have step : c'.lamportTime.wraps = 0 →
        Explained x (lastDistributed x (trace ++ [(c, e)])) c' ∧ Grows x c c' ∧
          ∀ p ∈ trace, Grows x p.1 c := by
      intro unwrapped
      have unwrapped0 := ((clock_mono c e c' next before.clock.queued).1 unwrapped).1
      obtain ⟨after, grows⟩ := explained_step may.2 next
        (before.clock.dominated unwrapped0) (before.explained unwrapped0)
      exact ⟨after, grows, before.grows unwrapped0⟩
    refine ⟨clock, fun unwrapped => (step unwrapped).1, fun unwrapped p member => ?_⟩
    obtain ⟨-, grows, earlier⟩ := step unwrapped
    rcases List.mem_append.mp member with old | new
    · exact (earlier p old).trans grows
    · rw [List.mem_singleton.mp new]
      exact grows

/-- The own belief is never behind, in every run that has not wrapped. -/
theorem own_belief_current {start : Cace} {trace : List (Cace × Readings × Cace.Event)}
    (idle : start.Idle) (unknown : start.getVariable x = none)
    (behind : ∀ name cv, start.getVariable name = some cv →
      AgesBelow start.lamportTime.time cv)
    (run : start.Runs trace c) (ages : ∀ p ∈ trace, AgesPassed p.1 p.2)
    (follows : ∀ p ∈ trace, Follows x p.1 p.2) (unwrapped : c.lamportTime.wraps = 0) :
    OwnBeliefCurrent x trace c := by
  have noRegister : registerAt start x = none := by simp [registerAt, unknown]
  have init : Followed x [] start := by
    refine ⟨⟨idle_queued idle, fun _ => ⟨behind, ?_⟩⟩, fun _ => ⟨⟨idle_queued idle, ?_, ?_⟩, ?_,
      ?_, ?_⟩, by simp⟩
    · simp [idle.history]
    · simp [idle.history]
    · simp [unknown]
    all_goals simp [noRegister]
  have final := followed_run run ages follows init
  have explained := final.explained unwrapped
  refine ⟨fun p member cv known => ?_, fun cv known => ?_⟩
  · obtain ⟨reg, stored, le⟩ := final.grows unwrapped p member (registerOf cv) (by
      simp [registerAt, known])
    obtain ⟨cv', known', rfl⟩ := Option.map_eq_some_iff.mp stored
    exact ⟨cv', known', le⟩
  · have register : registerAt c x = some (registerOf cv) := by simp [registerAt, known]
    refine ⟨fun p member => ?_, ?_⟩
    · exact explained.ahead _ register (beliefOf p) (List.mem_map_of_mem member)
    · rcases explained.origin _ register with ⟨b, inReports, age, value⟩ | distributed
      · obtain ⟨m, applied, rfl⟩ := List.mem_map.mp inReports
        obtain ⟨inHistory, here⟩ := List.mem_filter.mp applied
        exact .inl ⟨m, inHistory, by simpa using here, age, value⟩
      · exact .inr distributed

/-- A command, a call of the agent itself, and an acknowledge that comes late. -/
theorem own_belief_current_late : ∃ trace c,
    (Cace.construct 1 false 10).play
      [(.zero, .handle (.command ⟨2, [0], ['x'], [7], 0, 0, 70, 1, 5, 0⟩)),
        (.zero, .distributeValue ['x'] [8] 0 .threeWayHandShake),
        (.zero, .handle (.acknowledge ⟨3, [0], ['x'], [7], 1, 6, 0⟩))] = some (trace, c) ∧
      OwnBeliefCurrent ['x'] trace c := by
  have played : (Cace.construct 1 false 10).play
      [(.zero, .handle (.command ⟨2, [0], ['x'], [7], 0, 0, 70, 1, 5, 0⟩)),
        (.zero, .distributeValue ['x'] [8] 0 .threeWayHandShake),
        (.zero, .handle (.acknowledge ⟨3, [0], ['x'], [7], 1, 6, 0⟩))] = some _ := rfl
  obtain ⟨run, events⟩ := Cace.play_runs played
  have fresh := Cace.construct_fresh 1 false 10
  refine ⟨_, _, played, own_belief_current fresh.toIdle rfl ?_ run ?_ ?_ (by decide)⟩
  · intro name cv stored
    simp [Cace.getVariable, fresh.store] at stored
  · refine allowed_of_events events fun e member c => ?_
    simp only [List.mem_cons, List.not_mem_nil, or_false] at member
    rcases member with rfl | rfl | rfl <;> trivial
  · refine allowed_of_events events fun e member c => ?_
    simp only [List.mem_cons, List.not_mem_nil, or_false] at member
    rcases member with rfl | rfl | rfl
    · exact admits_leaves_handle (by simp) (by rintro s ⟨⟩; rfl)
    · exact fun _ => rfl
    · exact admits_leaves_handle (by simp) (by rintro s ⟨⟩)

/-- A clock that wraps: after a command with the last time stamp the clock starts over at
zero, and a call of the agent itself sets the own age back. -/
theorem own_belief_wraps : ∃ trace c,
    (Cace.construct 1 false 10).play
      [(.zero, .handle (.command ⟨2, [0], ['x'], [7], 0, 0, 70, 1, 2 ^ 64 - 1, 0⟩)),
        (.zero, .distributeValue ['x'] [8] 0 .threeWayHandShake)] = some (trace, c) ∧
      (Cace.construct 1 false 10).Fresh ∧ (∀ p ∈ trace, AgesPassed p.1 p.2) ∧
      (∀ p ∈ trace, Follows ['x'] p.1 p.2) ∧ ¬ OwnBeliefCurrent ['x'] trace c := by
  have played : (Cace.construct 1 false 10).play
      [(.zero, .handle (.command ⟨2, [0], ['x'], [7], 0, 0, 70, 1, 2 ^ 64 - 1, 0⟩)),
        (.zero, .distributeValue ['x'] [8] 0 .threeWayHandShake)] = some _ := rfl
  obtain ⟨-, events⟩ := Cace.play_runs played
  refine ⟨_, _, played, Cace.construct_fresh 1 false 10, ?_, ?_, ?_⟩
  · refine allowed_of_events events fun e member c => ?_
    simp only [List.mem_cons, List.not_mem_nil, or_false] at member
    rcases member with rfl | rfl <;> trivial
  · refine allowed_of_events events fun e member c => ?_
    simp only [List.mem_cons, List.not_mem_nil, or_false] at member
    rcases member with rfl | rfl
    · exact admits_leaves_handle (by simp) (by rintro s ⟨⟩; rfl)
    · exact fun _ => rfl
  · rintro ⟨grows, -⟩
    obtain ⟨cv, known, le⟩ := grows _ (List.mem_cons_of_mem _ List.mem_cons_self) _ rfl
    obtain rfl := Option.some.inj known
    revert le
    decide

end CaceProofs.Guarantees
