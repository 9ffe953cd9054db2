import CaceProofs.Guarantees.DefaultStrategy
import CaceProofs.Library.Contest
import Mathlib.Data.List.Perm.Basic

/-!
# The accepted belief

`acceptProposals` is a contest for the own belief. Which proposal it ends with is told here
for every level, and for which proposals the order of their arrival does not matter.
-/
namespace CaceProofs.Guarantees
open Source Library

section Contest

/-- Whether an accept function lets `lt` take the place of `gt`. -/
def prefers : AcceptFunction → Believe → Believe → Bool
  | .default, gt, lt =>
    !(decide (lt.lamportAge < gt.lamportAge) ||
      (gt.lamportAge == lt.lamportAge && decide (lt.robotID < gt.robotID)))
  | .lowestID, gt, lt => lt.hasValue && decide (lt.robotID < gt.robotID)
  | .mostRecent, gt, lt => lt.hasValue && decide (gt.decissionTime < lt.decissionTime)
  | .election, _, _ => false
  | .list, _, _ => true

/-- The own belief once an accept function has looked at a proposal. -/
def touched (value : Option Bytes) (this : Believe) : Believe :=
  if this.strategy.acceptFunction = .election then this.electionAcceptStrategy.1
  else this.setCommanded value

variable (value : Option Bytes) (this gt lt : Believe)

theorem accept_eq : this.accept gt lt value =
    (touched value this, !prefers this.strategy.acceptFunction gt lt) := by
  unfold Believe.accept touched
  cases this.strategy.acceptFunction with
  | default => simp [prefers, Believe.defaultAcceptStrategy]
  | lowestID => simp [prefers, Believe.lowestIDAcceptStrategy]
  | mostRecent => simp [prefers, Believe.mostRecentAcceptStrategy]
  | election =>
    change this.electionAcceptStrategy = (this.electionAcceptStrategy.1, true)
    unfold Believe.electionAcceptStrategy
    cases this.hasValue <;> rfl
  | list => rfl

/-- Everything that the accept functions compare stays. -/
structure SameKeys (b b' : Believe) : Prop where
  strategy : b'.strategy = b.strategy
  robotID : b'.robotID = b.robotID
  lamportAge : b'.lamportAge = b.lamportAge
  decissionTime : b'.decissionTime = b.decissionTime

theorem touched_keys : SameKeys this (touched value this) := by
  unfold touched
  split
  · unfold Believe.electionAcceptStrategy
    split <;> exact ⟨rfl, rfl, rfl, rfl⟩
  · cases value <;> exact ⟨rfl, rfl, rfl, rfl⟩

theorem touched_touched : touched value (touched value this) = touched value this := by
  have strategy := (touched_keys value this).strategy
  unfold touched at strategy ⊢
  rw [strategy]
  split
  · unfold Believe.electionAcceptStrategy
    cases valued : this.hasValue with
    | true => simp [valued]
    | false => rfl
  · cases value <;> rfl

theorem prefers_touched (fn : AcceptFunction) :
    prefers fn (touched value this) lt = prefers fn this lt := by
  obtain ⟨-, robotID, lamportAge, decissionTime⟩ := touched_keys value this
  cases fn <;> simp only [prefers, robotID, lamportAge, decissionTime]

/-- The loop of `acceptProposals` is a contest. -/
theorem acceptLoop_eq (proposals : List Believe) :
    proposals.foldl (Believe.acceptStep value) (this, none) =
      (if proposals = [] then this else touched value this,
        contest (prefers this.strategy.acceptFunction) this proposals) := by
  induction proposals using List.reverseRecOn with
  | nil => rfl
  | append_singleton proposals p ih =>
    rw [List.foldl_append, ih, contest_append]
    have judged : ∀ b : Believe, b = this ∨ b = touched value this →
        Believe.acceptStep value
          (b, contest (prefers this.strategy.acceptFunction) this proposals) p =
        (touched value this,
          if prefers this.strategy.acceptFunction
            ((contest (prefers this.strategy.acceptFunction) this proposals).getD this) p then
            some p
          else contest (prefers this.strategy.acceptFunction) this proposals) := by
      intro b here
      have keys := touched_keys value this
      have touches : touched value b = touched value this := by
        rcases here with rfl | rfl
        · rfl
        · exact touched_touched value this
      have strategy : b.strategy = this.strategy := by
        rcases here with rfl | rfl
        · rfl
        · exact keys.strategy
      have prefer : prefers this.strategy.acceptFunction
          ((contest (prefers this.strategy.acceptFunction) this proposals).getD b) p =
          prefers this.strategy.acceptFunction
          ((contest (prefers this.strategy.acceptFunction) this proposals).getD this) p := by
        cases contest (prefers this.strategy.acceptFunction) this proposals with
        | some w => rfl
        | none =>
          rcases here with rfl | rfl
          · rfl
          · exact prefers_touched value this p _
      unfold Believe.acceptStep
      dsimp only
      rw [accept_eq, touches, strategy, prefer]
      cases prefers this.strategy.acceptFunction
        ((contest (prefers this.strategy.acceptFunction) this proposals).getD this) p <;> rfl
    by_cases first : proposals = []
    · simpa [first] using judged this (.inl rfl)
    · simpa [first] using judged _ (.inr rfl)

/-- What a winner leaves of the own belief. -/
theorem acceptProposals_eq (cv : ConsensusVariable) :
    cv.acceptProposals value =
      { cv with
        toBelieve :=
          ((contest (prefers cv.strategy.acceptFunction) cv.toBelieve cv.proposals).map
              (touched value cv.toBelieve).update).getD
            (if cv.proposals = [] then cv.toBelieve else touched value cv.toBelieve) } := by
  unfold ConsensusVariable.acceptProposals
  rw [acceptLoop_eq]
  cases won : contest (prefers cv.strategy.acceptFunction) cv.toBelieve cv.proposals with
  | none => rfl
  | some w =>
    have nonempty : cv.proposals ≠ [] := List.ne_nil_of_mem (contest_mem won)
    rw [if_neg nonempty]
    rfl

end Contest

section Orders

variable {own : Believe} {proposals : List Believe}

/-- Among holders of different IDs the default levels prefer the greater rank. -/
theorem contest_default (distinct : ((own :: proposals).map Believe.robotID).Nodup) :
    contest (prefers .default) own proposals =
      contest (scored (fun b => (beliefOf b).rank) fun _ => true) own proposals := by
  refine contest_congr ((List.pairwise_map.mp distinct).imp fun {a b} differ => ?_)
  rw [Bool.eq_iff_iff]
  simp only [prefers, scored, Bool.not_eq_true', Bool.or_eq_false_iff, decide_eq_false_iff_not,
    Bool.true_and, decide_eq_true_eq, Belief.rank_lt, beliefOf, Bool.and_eq_false_iff,
    beq_eq_false_iff_ne]
  constructor
  · rintro ⟨notOlder, different | notBelow⟩
    · omega
    · omega
  · intro above
    omega

theorem contest_lowestID :
    contest (prefers .lowestID) own proposals =
      contest (scored (fun b => OrderDual.toDual b.robotID) Believe.hasValue) own proposals := rfl

theorem contest_mostRecent :
    contest (prefers .mostRecent) own proposals =
      contest (scored Believe.decissionTime Believe.hasValue) own proposals := rfl

end Orders

section Extremes

variable {cv : ConsensusVariable}

/-- Value and age are those of the belief. -/
def Takes (cv : ConsensusVariable) (b : Believe) : Prop :=
  cv.val = b.val ∧ cv.lamportAge = b.lamportAge

/-- No commanded value: the own belief changes only if a proposal wins. -/
theorem acceptProposals_none (level : cv.strategy.acceptFunction ≠ .election) :
    (contest (prefers cv.strategy.acceptFunction) cv.toBelieve cv.proposals = none ∧
        cv.acceptProposals none = cv) ∨
      ∃ w, contest (prefers cv.strategy.acceptFunction) cv.toBelieve cv.proposals = some w ∧
        Takes (cv.acceptProposals none) w := by
  have untouched : touched none cv.toBelieve = cv.toBelieve := if_neg level
  rw [acceptProposals_eq, untouched]
  cases contest (prefers cv.strategy.acceptFunction) cv.toBelieve cv.proposals with
  | none =>
    refine .inl ⟨rfl, ?_⟩
    rw [ite_self]
    rfl
  | some w => exact .inr ⟨w, rfl, rfl, rfl⟩

/-- The greatest rank, the own one included. -/
def AcceptsGreatest (cv : ConsensusVariable) : Prop :=
  ∃ b ∈ cv.toBelieve :: cv.proposals,
    (∀ a ∈ cv.toBelieve :: cv.proposals, (beliefOf a).rank ≤ (beliefOf b).rank) ∧
      Takes (cv.acceptProposals none) b

/-- The least ID below the own one among the proposals that have a value. -/
def AcceptsLowestID (cv : ConsensusVariable) : Prop :=
  (∃ b ∈ cv.proposals, b.hasValue = true ∧ b.robotID < cv.robotID ∧
      (∀ a ∈ cv.proposals, a.hasValue = true → b.robotID ≤ a.robotID) ∧
      Takes (cv.acceptProposals none) b) ∨
    (∀ a ∈ cv.proposals, a.hasValue = true → cv.robotID ≤ a.robotID) ∧
      cv.acceptProposals none = cv

/-- The first with the greatest decision time, above the own one, among the proposals that
have a value. -/
def AcceptsMostRecent (cv : ConsensusVariable) : Prop :=
  (∃ before b after, cv.proposals = before ++ b :: after ∧ b.hasValue = true ∧
      cv.decissionTime < b.decissionTime ∧
      (∀ a ∈ before, a.hasValue = true → a.decissionTime < b.decissionTime) ∧
      (∀ a ∈ after, a.hasValue = true → a.decissionTime ≤ b.decissionTime) ∧
      Takes (cv.acceptProposals none) b) ∨
    (∀ a ∈ cv.proposals, a.hasValue = true → a.decissionTime ≤ cv.decissionTime) ∧
      cv.acceptProposals none = cv

theorem accepts_greatest (level : cv.strategy.acceptFunction = .default)
    (distinct : ((cv.toBelieve :: cv.proposals).map Believe.robotID).Nodup) :
    AcceptsGreatest cv := by
  have election : cv.strategy.acceptFunction ≠ .election := by simp [level]
  rcases acceptProposals_none election with ⟨kept, same⟩ | ⟨w, won, takes⟩
  · rw [level, contest_default distinct] at kept
    refine ⟨cv.toBelieve, List.mem_cons_self, fun a member => ?_, by rw [same]; exact ⟨rfl, rfl⟩⟩
    rcases List.mem_cons.mp member with rfl | proposal
    · exact le_refl _
    · exact contest_kept kept a proposal rfl
  · rw [level, contest_default distinct] at won
    have best := contest_taken won
    refine ⟨w, List.mem_cons_of_mem _ best.mem, fun a member => ?_, takes⟩
    rcases List.mem_cons.mp member with rfl | proposal
    · exact le_of_lt best.above
    · exact best.le a proposal rfl

theorem accepts_lowestID (level : cv.strategy.acceptFunction = .lowestID) :
    AcceptsLowestID cv := by
  have election : cv.strategy.acceptFunction ≠ .election := by simp [level]
  rcases acceptProposals_none election with ⟨kept, same⟩ | ⟨w, won, takes⟩
  · rw [level, contest_lowestID] at kept
    exact .inr ⟨contest_kept kept, same⟩
  · rw [level, contest_lowestID] at won
    have best := contest_taken won
    exact .inl ⟨w, best.mem, best.suits, best.above, best.le, takes⟩

theorem accepts_mostRecent (level : cv.strategy.acceptFunction = .mostRecent) :
    AcceptsMostRecent cv := by
  have election : cv.strategy.acceptFunction ≠ .election := by simp [level]
  rcases acceptProposals_none election with ⟨kept, same⟩ | ⟨w, won, takes⟩
  · rw [level, contest_mostRecent] at kept
    exact .inr ⟨contest_kept kept, same⟩
  · rw [level, contest_mostRecent] at won
    have best := contest_taken won
    obtain ⟨before, after, split, less, le⟩ := best.first
    exact .inl ⟨before, w, after, split, best.suits, best.above, less, le, takes⟩

/-- Every level that compares picks its extreme belief, and the own ID and the proposals
stay. -/
theorem accepted_belief (cv : ConsensusVariable)
    (distinct : ((cv.toBelieve :: cv.proposals).map Believe.robotID).Nodup) :
    (cv.strategy.acceptFunction = .default → AcceptsGreatest cv) ∧
      (cv.strategy.acceptFunction = .lowestID → AcceptsLowestID cv) ∧
      (cv.strategy.acceptFunction = .mostRecent → AcceptsMostRecent cv) ∧
      (cv.acceptProposals none).robotID = cv.robotID ∧
      (cv.acceptProposals none).proposals = cv.proposals :=
  ⟨fun level => accepts_greatest level distinct, accepts_lowestID, accepts_mostRecent,
    (acceptProposals_spec cv none).1, acceptProposals_proposals cv none⟩

end Extremes

section Permutations

variable {cv : ConsensusVariable} {value : Option Bytes} {l l' : List Believe}

/-- The same value, age and type. -/
def SameBelief (cv cv' : ConsensusVariable) : Prop :=
  cv.val = cv'.val ∧ cv.lamportAge = cv'.lamportAge ∧ cv.type = cv'.type

/-- Two winners that leave the same value, age and type. -/
def Concur (own a b : Believe) : Prop :=
  a.val = b.val ∧ a.lamportAge = b.lamportAge ∧ (own.update a).type = (own.update b).type

/-- The order in which the proposals are listed does not matter. -/
def OrderFree (value : Option Bytes) (cv : ConsensusVariable) : Prop :=
  ∀ l l', l.Perm cv.proposals → l'.Perm cv.proposals →
    SameBelief ({ cv with proposals := l }.acceptProposals value)
      ({ cv with proposals := l' }.acceptProposals value)

/-- A proposal with a value and the greatest decision time, above the own one. -/
structure TopRecent (cv : ConsensusVariable) (b : Believe) : Prop where
  member : b ∈ cv.proposals
  valued : b.hasValue = true
  above : cv.decissionTime < b.decissionTime
  greatest : ∀ a ∈ cv.proposals, a.hasValue = true → a.decissionTime ≤ b.decissionTime

/-- The proposals between which only their order decides are alike. -/
structure TiesAlike (cv : ConsensusVariable) : Prop where
  mostRecent : cv.strategy.acceptFunction = .mostRecent →
    ∀ a b, TopRecent cv a → TopRecent cv b → Concur cv.toBelieve a b
  list : cv.strategy.acceptFunction = .list →
    ∀ a ∈ cv.proposals, ∀ b ∈ cv.proposals, Concur cv.toBelieve a b

/-- What a winner leaves. -/
theorem acceptProposals_some {w : Believe} (level : cv.strategy.acceptFunction ≠ .election)
    (won : contest (prefers cv.strategy.acceptFunction) cv.toBelieve cv.proposals = some w) :
    (cv.acceptProposals value).val = w.val ∧
      (cv.acceptProposals value).lamportAge = w.lamportAge ∧
      (cv.acceptProposals value).type = (cv.toBelieve.update w).type := by
  have sameType : (touched value cv.toBelieve).type = cv.type := by
    unfold touched
    rw [if_neg level]
    cases value <;> rfl
  rw [acceptProposals_eq, won]
  refine ⟨rfl, rfl, ?_⟩
  change (if w.type ≠ 0 then w.type else (touched value cv.toBelieve).type) = _
  rw [sameType]
  rfl

theorem sameBelief_of_alike (level : cv.strategy.acceptFunction ≠ .election) {a b : Believe}
    (won : contest (prefers cv.strategy.acceptFunction) cv.toBelieve l = some a)
    (won' : contest (prefers cv.strategy.acceptFunction) cv.toBelieve l' = some b) :
    SameBelief ({ cv with proposals := l }.acceptProposals value)
        ({ cv with proposals := l' }.acceptProposals value) ↔ Concur cv.toBelieve a b := by
  obtain ⟨val, age, type⟩ :=
    @acceptProposals_some { cv with proposals := l } value a level won
  obtain ⟨val', age', type'⟩ :=
    @acceptProposals_some { cv with proposals := l' } value b level won'
  unfold SameBelief Concur
  rw [val, age, type, val', age', type']

theorem sameBelief_of_kept (empty : l = [] ↔ l' = [])
    (kept : contest (prefers cv.strategy.acceptFunction) cv.toBelieve l = none)
    (kept' : contest (prefers cv.strategy.acceptFunction) cv.toBelieve l' = none) :
    SameBelief ({ cv with proposals := l }.acceptProposals value)
      ({ cv with proposals := l' }.acceptProposals value) := by
  rw [acceptProposals_eq, acceptProposals_eq]
  dsimp only
  rw [kept, kept']
  simp only [empty]
  exact ⟨rfl, rfl, rfl⟩

/-- A contest by scores: it is enough that winners of the same score are alike. -/
theorem sameBelief_of_scores {β : Type} [LinearOrder β] {score : Believe → β}
    {eligible : Believe → Bool} (level : cv.strategy.acceptFunction ≠ .election)
    (perm : l.Perm l')
    (scores : contest (prefers cv.strategy.acceptFunction) cv.toBelieve l =
      contest (scored score eligible) cv.toBelieve l)
    (scores' : contest (prefers cv.strategy.acceptFunction) cv.toBelieve l' =
      contest (scored score eligible) cv.toBelieve l')
    (alike : ∀ a b, FirstBest score eligible cv.toBelieve l a →
      FirstBest score eligible cv.toBelieve l' b → score a = score b →
        Concur cv.toBelieve a b) :
    SameBelief ({ cv with proposals := l }.acceptProposals value)
      ({ cv with proposals := l' }.acceptProposals value) := by
  have empty : l = [] ↔ l' = [] := by
    rw [← List.length_eq_zero_iff, ← List.length_eq_zero_iff, perm.length_eq]
  rcases @contest_perm _ _ _ score eligible cv.toBelieve l l' fun a => perm.mem_iff with
    ⟨kept, kept'⟩ | ⟨a, b, won, won', same⟩
  · exact sameBelief_of_kept empty (scores.trans kept) (scores'.trans kept')
  · exact (sameBelief_of_alike level (scores.trans won) (scores'.trans won')).mpr
      (alike a b (contest_taken won) (contest_taken won') same)

theorem Concur.refl (own a : Believe) : Concur own a a := ⟨rfl, rfl, rfl⟩

/-- The IDs tell the proposals apart. -/
theorem eq_of_robotID (distinct : ((cv.toBelieve :: cv.proposals).map Believe.robotID).Nodup)
    {a b : Believe} (member : a ∈ cv.proposals) (member' : b ∈ cv.proposals)
    (same : a.robotID = b.robotID) : a = b :=
  List.inj_on_of_nodup_map (List.nodup_cons.mp distinct).2 member member' same

theorem orderFree_of_tiesAlike
    (distinct : ((cv.toBelieve :: cv.proposals).map Believe.robotID).Nodup)
    (alike : TiesAlike cv) : OrderFree value cv := by
  intro l l' perm perm'
  have both := perm.trans perm'.symm
  have among : ∀ {a}, a ∈ l → a ∈ cv.proposals := perm.mem_iff.mp
  have among' : ∀ {a}, a ∈ l' → a ∈ cv.proposals := perm'.mem_iff.mp
  have empty : l = [] ↔ l' = [] := by
    rw [← List.length_eq_zero_iff, ← List.length_eq_zero_iff, both.length_eq]
  cases level : cv.strategy.acceptFunction with
  | default =>
    have ids : ∀ {m : List Believe}, m.Perm cv.proposals →
        ((cv.toBelieve :: m).map Believe.robotID).Nodup := fun same =>
      (((same.cons _).map Believe.robotID).nodup_iff).mpr distinct
    refine sameBelief_of_scores (by simp [level]) both
      (level ▸ contest_default (ids perm)) (level ▸ contest_default (ids perm'))
      fun a b best best' same => ?_
    have robotID : a.robotID = b.robotID := congrArg (fun rank => (ofLex rank).2) same
    rw [eq_of_robotID distinct (among best.mem) (among' best'.mem) robotID]
    exact .refl _ _
  | lowestID =>
    refine sameBelief_of_scores (by simp [level]) both
      (level ▸ contest_lowestID) (level ▸ contest_lowestID) fun a b best best' same => ?_
    rw [eq_of_robotID distinct (among best.mem) (among' best'.mem)
      (OrderDual.toDual.injective same)]
    exact .refl _ _
  | mostRecent =>
    refine sameBelief_of_scores (by simp [level]) both
      (level ▸ contest_mostRecent) (level ▸ contest_mostRecent) fun a b best best' _ => ?_
    have top : ∀ {m : List Believe} {w}, m.Perm cv.proposals →
        FirstBest Believe.decissionTime Believe.hasValue cv.toBelieve m w → TopRecent cv w :=
      fun same first => ⟨same.mem_iff.mp first.mem, first.suits, first.above,
        fun c member => first.le c (same.mem_iff.mpr member)⟩
    exact alike.mostRecent level a b (top perm best) (top perm' best')
  | election =>
    have never : ∀ m, contest (prefers cv.strategy.acceptFunction) cv.toBelieve m = none := by
      intro m
      rw [level]
      exact contest_never fun _ _ => rfl
    exact sameBelief_of_kept empty (never l) (never l')
  | list =>
    have last : ∀ m a, contest (prefers cv.strategy.acceptFunction) cv.toBelieve (m ++ [a]) =
        some a := by
      intro m a
      rw [level]
      exact contest_last fun _ _ => rfl
    rcases List.eq_nil_or_concat' l with none | ⟨m, a, here⟩
    · rw [none, empty.mp none]
      exact ⟨rfl, rfl, rfl⟩
    · rcases List.eq_nil_or_concat' l' with none' | ⟨m', b, here'⟩
      · rw [none', empty.mpr none']
        exact ⟨rfl, rfl, rfl⟩
      · subst here here'
        refine (sameBelief_of_alike (by simp [level]) (last m a) (last m' b)).mpr ?_
        exact alike.list level a (among (by simp)) b (among' (by simp))

theorem tiesAlike_of_orderFree (free : OrderFree value cv) : TiesAlike cv where
  mostRecent level a b top top' := by
    have first : ∀ {w}, TopRecent cv w →
        contest (prefers cv.strategy.acceptFunction) cv.toBelieve
          (w :: cv.proposals.erase w) = some w := by
      intro w top
      rw [level, contest_mostRecent]
      exact contest_cons top.valued top.above fun c member =>
        top.greatest c (List.mem_of_mem_erase member)
    exact (sameBelief_of_alike (by simp [level]) (first top) (first top')).mp
      (free _ _ (List.perm_cons_erase top.member).symm (List.perm_cons_erase top'.member).symm)
  list level a member b member' := by
    have last : ∀ w, contest (prefers cv.strategy.acceptFunction) cv.toBelieve
        (cv.proposals.erase w ++ [w]) = some w := by
      intro w
      rw [level]
      exact contest_last fun _ _ => rfl
    have moved : ∀ {w}, w ∈ cv.proposals → (cv.proposals.erase w ++ [w]).Perm cv.proposals :=
      fun here => (List.perm_append_singleton _ _).trans (List.perm_cons_erase here).symm
    exact (sameBelief_of_alike (by simp [level]) (last a) (last b)).mp
      (free _ _ (moved member) (moved member'))

/-- The order of the proposals does not matter exactly if those that tie for the most recent
decision, and at the set levels all of them, are alike. -/
theorem order_free_iff (cv : ConsensusVariable) (value : Option Bytes)
    (distinct : ((cv.toBelieve :: cv.proposals).map Believe.robotID).Nodup) :
    OrderFree value cv ↔ TiesAlike cv :=
  ⟨tiesAlike_of_orderFree, orderFree_of_tiesAlike distinct⟩

end Permutations

section Examples

/-- A belief of an agent about `x`. -/
def opinion (strategy : AcceptStrategy) (id : Int) (time : Nat) (value : UInt8) : Believe :=
  (Believe.construct ['x'] strategy longMax id time time typeCInt).setValue [value]

/-- Agent 1 with the proposals of the agents 2 and 3, both made at time 5. -/
def undecided (strategy : AcceptStrategy) : ConsensusVariable :=
  { opinion strategy 1 4 6 with proposals := [opinion strategy 2 5 7, opinion strategy 3 5 8] }

theorem undecided_distinct (strategy : AcceptStrategy) :
    (((undecided strategy).toBelieve :: (undecided strategy).proposals).map
      Believe.robotID).Nodup := by
  change [(1 : Int), 2, 3].Nodup
  decide

/-- The greater ID decides between equally old proposals. -/
theorem accepted_belief_tie : AcceptsGreatest (undecided .threeWayHandShake) :=
  (accepted_belief (undecided .threeWayHandShake) (undecided_distinct _)).1 rfl

/-- The other levels that compare leave nothing to the order. -/
theorem order_free_lowestID : OrderFree none (undecided .twoWayHandShakeLowestID) :=
  (order_free_iff (undecided .twoWayHandShakeLowestID) none (undecided_distinct _)).mpr
    ⟨fun level => absurd level (by decide), fun level => absurd level (by decide)⟩

theorem not_orderFree {strategy : AcceptStrategy}
    (swapped : ({ undecided strategy with
        proposals := [opinion strategy 2 5 7, opinion strategy 3 5 8] }.acceptProposals none).val ≠
      ({ undecided strategy with
        proposals := [opinion strategy 3 5 8, opinion strategy 2 5 7] }.acceptProposals none).val) :
    ¬ OrderFree none (undecided strategy) := fun free =>
  swapped (free _ _ (.refl _) (.swap _ _ _)).1

/-- At a set level the last proposal wins, and among equally recent ones the first. -/
theorem order_free_ties :
    (∀ strategy, (((undecided strategy).toBelieve :: (undecided strategy).proposals).map
        Believe.robotID).Nodup) ∧
      ¬ OrderFree none (undecided .threeWayHandShakeSet) ∧
      ¬ OrderFree none (undecided .threeWayHandShakeMostRecent) :=
  ⟨undecided_distinct, not_orderFree (by decide), not_orderFree (by decide)⟩

end Examples

end CaceProofs.Guarantees
