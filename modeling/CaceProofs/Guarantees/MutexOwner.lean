import Mathlib.Data.List.Induction
import CaceProofs.Source.MutexPolling
import CaceProofs.Guarantees.Acceptance

/-!
# Owning a mutex

`isOwner` counts the proposals that believe in the owner and compares the count with the
number of robots; it does not look whose proposals they are. `pNoBlock` asks whether the
mutex is free before it asks for the owner, so it never reports a mutex as acquired.
-/
namespace CaceProofs.Guarantees
open Source

variable {m : ConsensusVariable} {strict : Bool} {robotID : Int} {robots : List Int}

/-- The believe is that the mutex belongs to `robotID`. -/
def Believes (robotID : Int) (b : Believe) : Prop :=
  b.hasValue = true ∧ b.type = typeCInt ∧ Believe.deserializeInt b.val = robotID

/-- The own value and those of all the robots are `robotID`. -/
def OwnedBy (m : ConsensusVariable) (robotID : Int) (robots : List Int) : Prop :=
  Believes robotID m.toBelieve ∧
    ∀ i ∈ robots, ∃ v ∈ m.proposals, v.robotID = i ∧ Believes robotID v

/-- The values of the proposals are ints. -/
def IntProposals (l : List Believe) : Prop :=
  ∀ v ∈ l, v.hasValue = true → v.type = typeCInt

theorem believes_iff (positive : 0 < robotID) (b : Believe) :
    Believes robotID b ↔ b.hasValue = true ∧ b.getValueInt 0 = robotID := by
  unfold Believes Believe.getValueInt
  by_cases typed : b.type = typeCInt
  · simp [typed]
  · simp only [typed, false_and, and_false, if_false, false_iff, not_and]
    omega

theorem getValueInt_typed {v : Believe} (typed : v.type = typeCInt) (out : Int) :
    v.getValueInt out = v.getValueInt 0 := by
  simp [Believe.getValueInt, typed]

section Loops

variable {l : List Believe}

/-- The strict loop goes through if every proposal believes in the owner, and counts them. -/
theorem ownerStep_loop (ints : IntProposals l) (bel : Int) (own : Bool) (believer : Nat) :
    ((l.foldl (CaceMutex.ownerStep robotID) (bel, own, believer)).2.1 = true ↔
      own = true ∧ ∀ v ∈ l, v.hasValue = true ∧ v.getValueInt 0 = robotID) ∧
    ((l.foldl (CaceMutex.ownerStep robotID) (bel, own, believer)).2.1 = true →
      (l.foldl (CaceMutex.ownerStep robotID) (bel, own, believer)).2.2
        = believer + l.length) := by
  induction l generalizing bel own believer with
  | nil => simp
  | cons v l ih =>
    have rest := @ih fun w member => ints w (List.mem_cons_of_mem _ member)
    rw [List.foldl_cons]
    cases valued : v.hasValue with
    | false =>
      have step : CaceMutex.ownerStep robotID (bel, own, believer) v = (bel, false, believer) := by
        simp [CaceMutex.ownerStep, valued]
      obtain ⟨passes, -⟩ := rest bel false believer
      rw [step]
      simp [passes, valued]
    | true =>
      have read := getValueInt_typed (ints v List.mem_cons_self valued) bel
      by_cases same : v.getValueInt 0 = robotID
      · have step : CaceMutex.ownerStep robotID (bel, own, believer) v
            = (robotID, own, believer + 1) := by
          simp [CaceMutex.ownerStep, valued, read, same]
        obtain ⟨passes, count⟩ := rest robotID own (believer + 1)
        rw [step]
        refine ⟨by simp [passes, valued, same], fun through => ?_⟩
        rw [count through, List.length_cons]
        omega
      · have step : CaceMutex.ownerStep robotID (bel, own, believer) v
            = (v.getValueInt 0, false, believer) := by
          simp [CaceMutex.ownerStep, valued, read, same]
        obtain ⟨passes, -⟩ := rest (v.getValueInt 0) false believer
        rw [step]
        simp [passes, valued, same]

/-- The variable `bel` after some proposals: the last value read. -/
def lastRead (bel : Int) (l : List Believe) : Int :=
  ((l.filter Believe.hasValue).getLast?.map fun v => v.getValueInt 0).getD bel

/-- A proposal that makes the non-strict loop refuse: for another robot of the list, or
without a value while `bel` is a robot of the list. -/
def Objection (bel robotID : Int) (robots : List Int) (l : List Believe) : Prop :=
  ∃ before v, before ++ [v] <+: l ∧
    if v.hasValue then v.getValueInt 0 ≠ robotID ∧ v.getValueInt 0 ∈ robots
    else lastRead bel before ∈ robots

theorem objection_concat (bel : Int) (l : List Believe) (a : Believe) :
    Objection bel robotID robots (l ++ [a]) ↔ Objection bel robotID robots l ∨
      if a.hasValue then a.getValueInt 0 ≠ robotID ∧ a.getValueInt 0 ∈ robots
      else lastRead bel l ∈ robots := by
  constructor
  · rintro ⟨before, v, short, objects⟩
    rcases List.prefix_concat_iff.mp short with whole | inner
    · obtain ⟨rfl, rfl⟩ : before = l ∧ v = a := by simpa using whole
      exact .inr objects
    · exact .inl ⟨before, v, inner, objects⟩
  · rintro (⟨before, v, short, objects⟩ | objects)
    · exact ⟨before, v, short.trans (List.prefix_append _ _), objects⟩
    · exact ⟨l, a, List.prefix_rfl, objects⟩

/-- The non-strict loop goes through if nobody objects, and counts the values. -/
theorem ownerStepNonStrict_loop (ints : IntProposals l) (bel : Int) (own : Bool) :
    (l.foldl (CaceMutex.ownerStepNonStrict robotID robots) (bel, own, 0)).1 = lastRead bel l ∧
    ((l.foldl (CaceMutex.ownerStepNonStrict robotID robots) (bel, own, 0)).2.1 = true ↔
      own = true ∧ ¬Objection bel robotID robots l) ∧
    ((l.foldl (CaceMutex.ownerStepNonStrict robotID robots) (bel, own, 0)).2.1 = true →
      (l.foldl (CaceMutex.ownerStepNonStrict robotID robots) (bel, own, 0)).2.2
        = (l.filter Believe.hasValue).length) := by
  induction l using List.reverseRecOn with
  | nil => simp [lastRead, Objection]
  | append_singleton l a ih =>
    obtain ⟨read, passes, count⟩ := ih fun w member => ints w (List.mem_append_left _ member)
    rw [List.foldl_append, List.foldl_cons, List.foldl_nil, objection_concat]
    generalize l.foldl (CaceMutex.ownerStepNonStrict robotID robots) (bel, own, 0) = state
      at read passes count ⊢
    obtain ⟨last, own', believer⟩ := state
    obtain rfl : last = lastRead bel l := read
    cases valued : a.hasValue with
    | false =>
      have step : CaceMutex.ownerStepNonStrict robotID robots (lastRead bel l, own', believer) a
          = (lastRead bel l, own' && !robots.contains (lastRead bel l), believer) := by
        simp [CaceMutex.ownerStepNonStrict, valued]
      rw [step]
      refine ⟨by simp [lastRead, valued], ?_, fun through => ?_⟩
      · simp [passes, and_assoc]
      · have through' : own' = true := (Bool.and_eq_true _ _ ▸ through).1
        simpa [valued] using count through'
    | true =>
      have typed := getValueInt_typed (ints a (by simp) valued) (lastRead bel l)
      have now : lastRead bel (l ++ [a]) = a.getValueInt 0 := by simp [lastRead, valued]
      rw [now]
      by_cases objects : a.getValueInt 0 ≠ robotID ∧ a.getValueInt 0 ∈ robots
      · have step : CaceMutex.ownerStepNonStrict robotID robots
            (lastRead bel l, own', believer) a = (a.getValueInt 0, false, believer) := by
          simp [CaceMutex.ownerStepNonStrict, valued, typed, objects.1, objects.2]
        rw [step]
        simp [objects.1, objects.2]
      · have step : CaceMutex.ownerStepNonStrict robotID robots
            (lastRead bel l, own', believer) a = (a.getValueInt 0, own', believer + 1) := by
          unfold CaceMutex.ownerStepNonStrict
          simp only [valued, typed, if_true, if_neg objects]
        rw [step]
        refine ⟨rfl, ?_, fun through => ?_⟩
        · simp only [if_true, objects, or_false]
          exact passes
        · have counted : believer = (l.filter Believe.hasValue).length := count through
          simp [valued, counted]

end Loops

section Soundness

/-- The own value is another one, there are fewer votes than robots, or a proposal objects:
in strict mode one that does not believe in the owner. -/
def Refuses (m : ConsensusVariable) (strict : Bool) (robotID : Int) (robots : List Int) : Prop :=
  ¬(m.hasValue = true ∧ m.getValueInt 0 = robotID) ∨
    if strict then
      ¬(∀ v ∈ m.proposals, v.hasValue = true ∧ v.getValueInt 0 = robotID) ∨
        m.proposals.length < robots.length
    else
      Objection robotID robotID robots m.proposals ∨
        (m.proposals.filter Believe.hasValue).length < robots.length

theorem isOwner_eq (ints : IntProposals m.proposals) :
    CaceMutex.isOwner m strict robotID robots = true ↔ ¬Refuses m strict robotID robots := by
  unfold CaceMutex.isOwner CaceMutex.believed Refuses
  by_cases own : m.hasValue = true ∧ m.getValueInt 0 = robotID
  · obtain ⟨valued, same⟩ := own
    simp only [valued, same, beq_self_eq_true, Bool.and_true, Bool.and_eq_true, decide_eq_true_eq,
      and_self, not_true_eq_false, false_or]
    cases strict with
    | true =>
      obtain ⟨passes, count⟩ := @ownerStep_loop robotID _ ints robotID true 0
      simp only [if_true, not_or, not_not, not_lt]
      constructor
      · rintro ⟨through, enough⟩
        rw [count through, Nat.zero_add] at enough
        exact ⟨fun v member => (passes.mp through).2 v member, enough⟩
      · rintro ⟨all, enough⟩
        have through := passes.mpr ⟨rfl, all⟩
        rw [count through, Nat.zero_add]
        exact ⟨through, enough⟩
    | false =>
      obtain ⟨-, passes, count⟩ := @ownerStepNonStrict_loop robotID robots _ ints robotID true
      simp only [Bool.false_eq_true, if_false, not_or, not_lt]
      constructor
      · rintro ⟨through, enough⟩
        rw [count through] at enough
        exact ⟨(passes.mp through).2, enough⟩
      · rintro ⟨unopposed, enough⟩
        have through := passes.mpr ⟨rfl, unopposed⟩
        rw [count through]
        exact ⟨through, enough⟩
  · have doubt : (m.hasValue && m.getValueInt 0 == robotID) = false := by
      simpa using own
    simp only [doubt, Bool.and_eq_true, own, not_false_eq_true, true_or, not_true_eq_false,
      iff_false]
    rintro ⟨through, -⟩
    cases strict with
    | true =>
      have passes := (@ownerStep_loop robotID _ ints (m.getValueInt 0) false 0).1
      exact absurd (passes.mp through).1 Bool.false_ne_true
    | false =>
      have passes := (@ownerStepNonStrict_loop robotID robots _ ints (m.getValueInt 0) false).2.1
      exact absurd (passes.mp through).1 Bool.false_ne_true

/-- `isOwner` does not notice that a robot has not agreed: it has no proposal with a value,
or only one for somebody who is not in the list. -/
def Overlooked (m : ConsensusVariable) (robotID : Int) (robots : List Int) (i : Int) : Prop :=
  ∀ v ∈ m.proposals, v.robotID = i → v.hasValue = true →
    v.getValueInt 0 ≠ robotID ∧ v.getValueInt 0 ∉ robots

/-- A proposal that nobody objects to is for the owner or for somebody outside the list. -/
theorem vote_of_accepted {v : Believe} (accepted : ¬Refuses m strict robotID robots)
    (member : v ∈ m.proposals) (valued : v.hasValue = true) :
    v.getValueInt 0 = robotID ∨ v.getValueInt 0 ∉ robots := by
  unfold Refuses at accepted
  cases strict with
  | true =>
    simp only [if_true, not_or, not_not] at accepted
    exact .inl (accepted.2.1 v member).2
  | false =>
    simp only [Bool.false_eq_true, if_false, not_or] at accepted
    by_contra other
    push Not at other
    obtain ⟨before, after, split⟩ := List.append_of_mem member
    apply accepted.2.1
    refine ⟨before, v, ⟨after, by simp [split]⟩, ?_⟩
    rw [if_pos valued]
    exact other

/-- `isOwner` is sound if and only if it refuses, or does not overlook a robot of the list. -/
theorem isOwner_sound_iff (positive : 0 < robotID) (ints : IntProposals m.proposals) :
    (CaceMutex.isOwner m strict robotID robots = true → OwnedBy m robotID robots) ↔
      Refuses m strict robotID robots ∨ ∀ i ∈ robots, ¬Overlooked m robotID robots i := by
  rw [isOwner_eq ints]
  constructor
  · intro sound
    rw [or_iff_not_imp_left]
    intro accepted i listed overlooked
    obtain ⟨v, member, sender, believes⟩ := (sound accepted).2 i listed
    obtain ⟨valued, same⟩ := (believes_iff positive v).mp believes
    exact (overlooked v member sender valued).1 same
  · rintro (refuses | noticed) accepted
    · exact absurd refuses accepted
    · have own : m.hasValue = true ∧ m.getValueInt 0 = robotID := by
        by_contra other
        exact accepted (.inl other)
      refine ⟨(believes_iff positive m.toBelieve).mpr own, fun i listed => ?_⟩
      have agreed := noticed i listed
      unfold Overlooked at agreed
      push Not at agreed
      obtain ⟨v, member, sender, valued, vote⟩ := agreed
      refine ⟨v, member, sender, (believes_iff positive v).mpr ⟨valued, ?_⟩⟩
      by_contra other
      rcases vote_of_accepted accepted member valued with same | outside
      · exact other same
      · exact outside (vote other)

/-- A mutex variable as `distributeValue` leaves it. -/
def mutexBelieve (id value : Int) : Believe :=
  { Believe.construct ['m'] .threeWayHandShake longMax id 0 1 typeCInt with
    val := Believe.intBytes value, hasValue := true }

/-- Robots 2 and 3 have agreed. -/
theorem isOwner_sound_agreed :
    OwnedBy ⟨mutexBelieve 1 1, [mutexBelieve 2 1, mutexBelieve 3 1]⟩ 1 [2, 3] :=
  (@isOwner_sound_iff ⟨mutexBelieve 1 1, [mutexBelieve 2 1, mutexBelieve 3 1]⟩ true 1 [2, 3]
    (by decide) (by unfold IntProposals; decide)).mpr
      (.inr (by unfold Overlooked; decide)) (by decide)

/-- Robot 3, which is not in the list, has agreed, and robot 2 has not. -/
theorem isOwner_unsound :
    let m : ConsensusVariable := ⟨mutexBelieve 1 1, [mutexBelieve 3 1]⟩
    IntProposals m.proposals ∧ (∀ strict, CaceMutex.isOwner m strict 1 [2] = true) ∧
      ¬OwnedBy m 1 [2] := by
  refine ⟨by unfold IntProposals; decide, by decide, fun owned => ?_⟩
  obtain ⟨v, member, sender, -⟩ := owned.2 2 (by simp)
  obtain rfl : v = mutexBelieve 3 1 := by simpa using member
  cases sender

end Soundness

section Acquiring

variable {r : Readings} {c c' : Cace} {name : Name}

/-- An owned mutex is not free. -/
theorem isFree_of_isOwner (uninitialised : Nat → Int) (positive : 0 < robotID)
    (owner : CaceMutex.isOwner m strict robotID robots = true) :
    CaceMutex.isFree uninitialised m strict robots = false := by
  have refused : ∀ (step : Int × Bool × Nat → Believe → Int × Bool × Nat) (bel : Int) (n : Nat),
      (∀ s v, s.2.1 = false → (step s v).2.1 = false) →
      (m.proposals.foldl step (bel, false, n)).2.1 = false := by
    intro step bel n keeps
    generalize m.proposals = l
    have all : ∀ s : Int × Bool × Nat, s.2.1 = false → (l.foldl step s).2.1 = false := by
      induction l with
      | nil => exact fun s no => no
      | cons v l ih => exact fun s no => ih (step s v) (keeps s v no)
    exact all _ rfl
  have own : m.hasValue = true ∧ CaceMutex.believed m = robotID := by
    by_contra other
    have doubt : (m.hasValue && CaceMutex.believed m == robotID) = false := by simpa using other
    unfold CaceMutex.isOwner at owner
    simp only [doubt, Bool.and_eq_true] at owner
    rw [refused] at owner
    · simp at owner
    · rintro ⟨bel, own, n⟩ v no
      obtain rfl : own = false := no
      cases strict with
      | true =>
        simp only [if_true, CaceMutex.ownerStep]
        split
        · split <;> rfl
        · rfl
      | false =>
        simp only [Bool.false_eq_true, if_false, CaceMutex.ownerStepNonStrict]
        split
        · split <;> rfl
        · rfl
  unfold CaceMutex.isFree
  simp [own.1, own.2, positive]

/-- `pNoBlock` never tells that the mutex is acquired. -/
theorem pNoBlock_false (positive : 0 < c.ownID) :
    (CaceMutex.pNoBlock r c name strict robots).2 = false := by
  unfold CaceMutex.pNoBlock
  dsimp only
  split
  next free =>
    split
    next owner =>
      have taken := isFree_of_isOwner r.uninitialised positive owner
      rw [free] at taken
      cases taken
    next => split <;> rfl
  next => rfl

/-- The mutex with the own ID as its value. -/
def claimed (m : ConsensusVariable) (ownID : Int) : ConsensusVariable :=
  { m with toBelieve :=
      { m.toBelieve with val := Believe.intBytes ownID, hasValue := true, type := typeCInt } }

/-- What a poll leaves behind: only a free mutex that everybody knows is claimed. -/
theorem pNoBlock_getVariable (stored : c.getVariable name = some m) (named : m.name = name) :
    ∃ m', (CaceMutex.pNoBlock r c name strict robots).1.getVariable name = some m' ∧
      CaceMutex.isOwner m' strict c.ownID robots =
        if CaceMutex.isFree r.uninitialised m strict robots = true ∧
            CaceMutex.isOwner m strict c.ownID robots = false ∧
            m.isAcknowledged c.activeRobots = true then
          CaceMutex.isOwner (claimed m c.ownID) strict c.ownID robots
        else CaceMutex.isOwner m strict c.ownID robots := by
  have mutex : c.deref (.stored name) = m := by simp [Cace.deref, stored]
  unfold CaceMutex.pNoBlock
  simp only [mutex]
  by_cases free : CaceMutex.isFree r.uninitialised m strict robots = true
  · cases owner : CaceMutex.isOwner m strict c.ownID robots with
    | true => exact ⟨m, by simp [free, stored], by simp [owner]⟩
    | false =>
      by_cases known : m.isAcknowledged c.activeRobots = true
      · refine ⟨decided r c name (Believe.intBytes c.ownID) typeCInt m.strategy (some m), ?_, ?_⟩
        · simp only [free, if_true, Bool.false_eq_true, if_false, known]
          unfold CaceSpace.distributeInt
          rw [distributeValue_getVariable, getVariable_decideValue, named, if_pos rfl, stored]
        · rw [if_pos ⟨free, rfl, known⟩]
          rfl
      · exact ⟨m, by simp [free, known, stored], by simp [known, owner]⟩
  · exact ⟨m, by simp [free, stored], by simp [free]⟩

theorem pNoBlock_ownID : (CaceMutex.pNoBlock r c name strict robots).1.ownID = c.ownID := by
  have decides : ∀ value type strategy q,
      (CaceSpace.distributeValue r c q value type strategy).ownID = c.ownID := by
    intro value type strategy q
    have decided : (CaceSpace.decideValue r c q value type strategy).ownID = c.ownID := by
      rw [decideValue_frame]
    unfold CaceSpace.distributeValue CommandJob.construct
    dsimp only
    split
    · exact (congrArg Cace.ownID (send_onlySends _ _ _).frame).trans decided
    · exact decided
  unfold CaceMutex.pNoBlock
  dsimp only
  split
  · split
    · rfl
    · split
      · exact decides _ _ _ _
      · rfl
  · rfl

/-- `p` returns after its first poll. -/
theorem p_iff (positive : 0 < c.ownID) :
    CaceMutex.P name strict robots c c' ↔
      ∃ r, c' = (CaceMutex.pNoBlock r c name strict robots).1 := by
  constructor
  · intro returned
    cases returned with
    | returns r => exact ⟨r, rfl⟩
    | sleeps r polled =>
      rw [pNoBlock_false positive] at polled
      cases polled
  · rintro ⟨r, rfl⟩
    exact .returns r (pNoBlock_false positive)

/-- `pNoBlock` tells the truth about the owner exactly where the mutex is not owned; `p` returns
only as the owner exactly where the mutex is owned, or is free whatever is in the variable that
`isFree` does not initialise, known to all active robots, and owned as soon as the own value is the
own ID. -/
theorem mutex_acquired_iff (positive : 0 < c.ownID) (stored : c.getVariable name = some m)
    (named : m.name = name) :
    (((CaceMutex.pNoBlock r c name strict robots).2 = true ↔
        CaceMutex.isOwner m strict c.ownID robots = true) ↔
      CaceMutex.isOwner m strict c.ownID robots = false) ∧
    ((∀ c', CaceMutex.P name strict robots c c' → ∃ m', c'.getVariable name = some m' ∧
        CaceMutex.isOwner m' strict c'.ownID robots = true) ↔
      CaceMutex.isOwner m strict c.ownID robots = true ∨
        ((∀ uninitialised, CaceMutex.isFree uninitialised m strict robots = true) ∧
          m.isAcknowledged c.activeRobots = true ∧
          CaceMutex.isOwner (claimed m c.ownID) strict c.ownID robots = true)) := by
  refine ⟨by simp [pNoBlock_false positive], ?_⟩
  have polled : ∀ r m', (CaceMutex.pNoBlock r c name strict robots).1.getVariable name = some m' →
      (CaceMutex.isOwner m' strict c.ownID robots = true ↔
        CaceMutex.isOwner m strict c.ownID robots = true ∨
          (CaceMutex.isFree r.uninitialised m strict robots = true ∧
            m.isAcknowledged c.activeRobots = true ∧
              CaceMutex.isOwner (claimed m c.ownID) strict c.ownID robots = true)) := by
    intro r m' found
    obtain ⟨m'', left, owner⟩ := @pNoBlock_getVariable m strict robots r c name stored named
    obtain rfl : m' = m'' := Option.some.inj (found.symm.trans left)
    rw [owner]
    split
    next claims => simp [claims.1, claims.2.1, claims.2.2]
    next keeps =>
      cases owns : CaceMutex.isOwner m strict c.ownID robots with
      | true => simp
      | false =>
        simp only [Bool.false_eq_true, false_or, false_iff]
        rintro ⟨free, known, -⟩
        exact keeps ⟨free, owns, known⟩
  constructor
  · intro acquires
    have owns : ∀ r : Readings, CaceMutex.isOwner m strict c.ownID robots = true ∨
        (CaceMutex.isFree r.uninitialised m strict robots = true ∧
          m.isAcknowledged c.activeRobots = true ∧
          CaceMutex.isOwner (claimed m c.ownID) strict c.ownID robots = true) := by
      intro r
      obtain ⟨m', found, owner⟩ := acquires _ ((p_iff positive).mpr ⟨r, rfl⟩)
      rw [pNoBlock_ownID] at owner
      exact (polled r m' found).mp owner
    by_cases already : CaceMutex.isOwner m strict c.ownID robots = true
    · exact .inl already
    · have claims := fun u => (owns { r with uninitialised := u }).resolve_left already
      exact .inr ⟨fun u => (claims u).1, (claims fun _ => 0).2⟩
  · rintro condition c' returned
    obtain ⟨r', rfl⟩ := (p_iff positive).mp returned
    obtain ⟨m', found, -⟩ := @pNoBlock_getVariable m strict robots r' c name stored named
    rw [pNoBlock_ownID]
    exact ⟨m', found, (polled r' m' found).mpr (condition.imp_right fun ⟨free, rest⟩ =>
      ⟨free r'.uninitialised, rest⟩)⟩

/-- An agent with a mutex variable. -/
def mutexHolder (m : ConsensusVariable) : Cace :=
  { Cace.construct 1 false 5 with store := [(['m'], m)] }

/-- Agent 1 owns the mutex, alone; `p` returns as the owner, and `pNoBlock` denies it. -/
theorem mutex_acquired_alone :
    let c := mutexHolder ⟨mutexBelieve 1 1, []⟩
    ∀ c', CaceMutex.P ['m'] true [] c c' → ∃ m', c'.getVariable ['m'] = some m' ∧
      CaceMutex.isOwner m' true c'.ownID [] = true :=
  (@mutex_acquired_iff ⟨mutexBelieve 1 1, []⟩ true [] .zero
    (mutexHolder ⟨mutexBelieve 1 1, []⟩) ['m'] (by decide) (by decide) (by decide)).2.mpr
      (.inl (by decide))

/-- Agent 1 owns the mutex and `pNoBlock` says no; and while agent 2 owns it, `p` returns. -/
theorem mutex_not_acquired :
    ((CaceMutex.pNoBlock .zero (mutexHolder ⟨mutexBelieve 1 1, []⟩) ['m'] true []).2 = false ∧
      CaceMutex.isOwner ⟨mutexBelieve 1 1, []⟩ true 1 [] = true) ∧
    CaceMutex.P ['m'] true [2] (mutexHolder ⟨mutexBelieve 1 2, [mutexBelieve 2 2]⟩)
        (mutexHolder ⟨mutexBelieve 1 2, [mutexBelieve 2 2]⟩) ∧
      CaceMutex.isOwner ⟨mutexBelieve 1 2, [mutexBelieve 2 2]⟩ true 1 [2] = false :=
  ⟨by decide, .returns .zero (by decide), by decide⟩

end Acquiring

end CaceProofs.Guarantees
