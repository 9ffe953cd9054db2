import Mathlib.Data.List.Dedup
import Mathlib.Data.List.Perm.Basic
import CaceProofs.Source.ConsensusVariable

/-!
# Agreement of the active robots

`isAgreed` compares the number of proposals with the number of active robots and then looks
at all proposals, whoever sent them; agreement is a matter of the active robots' own ones.
-/
namespace CaceProofs.Guarantees
open Source

variable {cv : ConsensusVariable} {active : List Int}

/-- The proposal is as new as the variable and has its value. -/
def Supports (cv : ConsensusVariable) (v : Believe) : Prop :=
  cv.lamportAge ≤ v.lamportAge ∧ v.val = cv.val

/-- Every active robot has a proposal that supports the variable. -/
def AgreedBy (cv : ConsensusVariable) (active : List Int) : Prop :=
  ∀ i ∈ active, ∃ v ∈ cv.proposals, v.robotID = i ∧ Supports cv v

/-- No proposal of an active robot objects. -/
def Unopposed (cv : ConsensusVariable) (active : List Int) : Prop :=
  ∀ v ∈ cv.proposals, v.robotID ∈ active → Supports cv v

/-- What `isAgreed` looks at besides: enough proposals, and none of the others is stale. -/
def EnoughFresh (cv : ConsensusVariable) (active : List Int) : Prop :=
  active.length ≤ cv.proposals.length ∧
    ∀ v ∈ cv.proposals, v.robotID ∉ active → cv.lamportAge ≤ v.lamportAge

/-- Every active robot has a proposal. -/
def AllHeard (cv : ConsensusVariable) (active : List Int) : Prop :=
  ∀ i ∈ active, ∃ v ∈ cv.proposals, v.robotID = i

theorem isAcknowledged_iff :
    cv.isAcknowledged active = true ↔ active.length ≤ cv.proposals.length ∧
      ∀ v ∈ cv.proposals, cv.lamportAge ≤ v.lamportAge := by
  simp [ConsensusVariable.isAcknowledged]

theorem checkConflict_iff (valued : cv.hasValue = true) :
    cv.checkConflict active = true ↔
      ∃ v ∈ cv.proposals, v.robotID ∈ active ∧ v.val ≠ cv.val := by
  have differs : ∀ v : Believe, cv.val ≠ v.val ↔ v.val ≠ cv.val := fun v => ne_comm
  simp [ConsensusVariable.checkConflict, Believe.valueEqual, valued, differs]

/-- What `isAgreed` decides. -/
theorem isAgreed_eq (valued : cv.hasValue = true) :
    cv.isAgreed active = true ↔ Unopposed cv active ∧ EnoughFresh cv active := by
  rw [ConsensusVariable.isAgreed, Bool.and_eq_true, isAcknowledged_iff, Bool.not_eq_true',
    ← Bool.not_eq_true, checkConflict_iff valued]
  constructor
  · rintro ⟨⟨enough, fresh⟩, agree⟩
    refine ⟨fun v member isActive => ⟨fresh v member, ?_⟩, enough, fun v member _ => fresh v member⟩
    by_contra other
    exact agree ⟨v, member, isActive, other⟩
  · rintro ⟨unopposed, enough, fresh⟩
    refine ⟨⟨enough, fun v member => ?_⟩, ?_⟩
    · by_cases isActive : v.robotID ∈ active
      · exact (unopposed v member isActive).1
      · exact fresh v member isActive
    · rintro ⟨v, member, isActive, other⟩
      exact other (unopposed v member isActive).2

/-- Where each robot has one proposal, it is the one that counts. -/
theorem agreedBy_iff (distinct : (cv.proposals.map Believe.robotID).Nodup) :
    AgreedBy cv active ↔ Unopposed cv active ∧ AllHeard cv active := by
  constructor
  · intro agreed
    refine ⟨fun v member isActive => ?_, fun i isActive => ?_⟩
    · obtain ⟨w, other, same, supports⟩ := agreed v.robotID isActive
      obtain rfl : w = v := List.inj_on_of_nodup_map distinct other member same
      exact supports
    · obtain ⟨v, member, isSender, -⟩ := agreed i isActive
      exact ⟨v, member, isSender⟩
  · rintro ⟨unopposed, heard⟩ i isActive
    obtain ⟨v, member, rfl⟩ := heard i isActive
    exact ⟨v, member, rfl, unopposed v member isActive⟩

section Overlap

/-- The proposals of robots that are not active. -/
def outsiders (cv : ConsensusVariable) (active : List Int) : List Believe :=
  cv.proposals.filter fun v => decide (v.robotID ∉ active)

/-- The active robots without a proposal. -/
def unheard (cv : ConsensusVariable) (active : List Int) : List Int :=
  active.dedup.filter fun i => decide (i ∉ cv.proposals.map Believe.robotID)

/-- How often active robots are listed again. -/
def repeats (active : List Int) : Nat := active.length - active.dedup.length

theorem allHeard_iff : AllHeard cv active ↔ unheard cv active = [] := by
  unfold AllHeard unheard
  rw [List.filter_eq_nil_iff]
  simp only [List.mem_dedup, List.mem_map, decide_eq_true_eq, not_not]

/-- The active robots with a proposal are those that the other proposals are from. -/
theorem heard_length (distinct : (cv.proposals.map Believe.robotID).Nodup) :
    (active.dedup.filter fun i => decide (i ∈ cv.proposals.map Believe.robotID)).length =
      (cv.proposals.filter fun v => decide (v.robotID ∈ active)).length := by
  have senders : ((cv.proposals.filter fun v => decide (v.robotID ∈ active)).map
      Believe.robotID).Nodup := distinct.sublist (List.filter_sublist.map _)
  have heard : (active.dedup.filter fun i =>
      decide (i ∈ cv.proposals.map Believe.robotID)).Nodup := active.nodup_dedup.filter _
  rw [← @List.length_map _ _ (cv.proposals.filter _) Believe.robotID]
  refine ((List.perm_ext_iff_of_nodup heard senders).mpr fun i => ?_).length_eq
  simp only [List.mem_filter, List.mem_dedup, List.mem_map, decide_eq_true_eq]
  constructor
  · rintro ⟨isActive, v, member, rfl⟩
    exact ⟨v, ⟨member, isActive⟩, rfl⟩
  · rintro ⟨v, ⟨member, isActive⟩, rfl⟩
    exact ⟨isActive, v, member, rfl⟩

/-- There are enough proposals if those of other robots make up for the missing ones. -/
theorem enough_iff (distinct : (cv.proposals.map Believe.robotID).Nodup) :
    active.length ≤ cv.proposals.length ↔
      (unheard cv active).length + repeats active ≤ (outsiders cv active).length := by
  have robots := List.length_eq_length_filter_add (l := active.dedup)
    fun i => decide (i ∈ cv.proposals.map Believe.robotID)
  have proposals := List.length_eq_length_filter_add (l := cv.proposals)
    fun v => decide (v.robotID ∈ active)
  have fewer := active.dedup_sublist.length_le
  rw [heard_length distinct] at robots
  simp only [← decide_not] at robots proposals
  unfold unheard outsiders repeats
  omega

/-- `isAgreed` tells whether every active robot agrees in just three cases: a proposal of an active
robot objects; or some have not proposed, and the proposals of robots that are not active are
fewer than the missing and the repeated entries or one of them is stale; or all have proposed,
and the others' proposals are fresh and at least as many as the repeated entries. -/
theorem isAgreed_agreed_iff (valued : cv.hasValue = true)
    (distinct : (cv.proposals.map Believe.robotID).Nodup) :
    (cv.isAgreed active = true ↔ AgreedBy cv active) ↔
      (∃ v ∈ cv.proposals, v.robotID ∈ active ∧ ¬ Supports cv v) ∨
      (unheard cv active ≠ [] ∧
        ((outsiders cv active).length < (unheard cv active).length + repeats active ∨
          ∃ v ∈ outsiders cv active, v.lamportAge < cv.lamportAge)) ∨
      (unheard cv active = [] ∧ repeats active ≤ (outsiders cv active).length ∧
        ∀ v ∈ outsiders cv active, cv.lamportAge ≤ v.lamportAge) := by
  rw [isAgreed_eq valued, agreedBy_iff distinct, and_congr_right_iff, allHeard_iff, EnoughFresh,
    enough_iff distinct]
  have others : (∀ v ∈ cv.proposals, v.robotID ∉ active → cv.lamportAge ≤ v.lamportAge) ↔
      ∀ v ∈ outsiders cv active, cv.lamportAge ≤ v.lamportAge := by
    simp only [outsiders, List.mem_filter, decide_eq_true_eq, and_imp]
  rw [others]
  by_cases unopposed : Unopposed cv active
  · have nobody : ¬ ∃ v ∈ cv.proposals, v.robotID ∈ active ∧ ¬ Supports cv v :=
      fun ⟨v, member, isActive, objects⟩ => objects (unopposed v member isActive)
    by_cases heard : unheard cv active = []
    · simp only [unopposed, heard, nobody, ne_eq, not_true, List.length_nil, Nat.zero_add,
        true_and, false_and, false_or, iff_true, forall_const]
    · simp only [unopposed, heard, nobody, ne_eq, not_false_iff, true_and, false_and, false_or,
        or_false, iff_false, forall_const, not_and_or, Nat.not_le, not_forall, exists_prop]
  · have objects : ∃ v ∈ cv.proposals, v.robotID ∈ active ∧ ¬ Supports cv v := by
      simpa only [Unopposed, not_forall, exists_prop] using unopposed
    exact iff_of_true (fun free => absurd free unopposed) (.inl objects)

end Overlap

/-- A variable decided at time 3 with the value 1, as a command leaves it. -/
def agreedVariable (proposals : List Believe) : ConsensusVariable where
  name := ['x']
  strategy := .threeWayHandShake
  val := [1]
  hasValue := true
  type := typeCInt
  robotID := 1
  arrivalTime := 0
  decissionTime := 0
  validityTime := longMax
  lamportAge := 3
  proposals := proposals

/-- Two active robots have answered, and a third one that is no longer active. -/
theorem isAgreed_agreed_answered :
    let v := (agreedVariable []).toBelieve
    let cv := agreedVariable
      [{ v with robotID := 2 }, { v with robotID := 4 }, { v with robotID := 3 }]
    cv.isAgreed [2, 3] = true ↔ AgreedBy cv [2, 3] :=
  (isAgreed_agreed_iff rfl (by decide)).mpr (.inr (.inr (by decide)))

/-- Robot 3, which is not active, has answered, and robot 2 has not. -/
theorem isAgreed_of_inactive :
    let cv := agreedVariable [{ (agreedVariable []).toBelieve with robotID := 3 }]
    cv.hasValue = true ∧ (cv.proposals.map Believe.robotID).Nodup ∧
      ¬(cv.isAgreed [2] = true ↔ AgreedBy cv [2]) := by
  refine ⟨rfl, by decide, fun agreement => ?_⟩
  obtain ⟨v, member, sender, -⟩ := agreement.mp (by decide) 2 (by simp)
  obtain rfl : v = { (agreedVariable []).toBelieve with robotID := 3 } := by
    simpa [agreedVariable] using member
  cases sender

end CaceProofs.Guarantees
