import Mathlib
import CaceProofs.Guarantees.ElectionAgreement

/-!
# The winner of an election

`getWinner` keeps a running maximum that starts at the least positive normal double. The
maximum it should find is that of the bids alone; a highest bid that does not exceed the
start, or comes from robot 0, is not told from no bid at all.
-/
namespace CaceProofs.Guarantees
open Source

variable {cv : ConsensusVariable}

/-- The believes that have a value, the own one first. -/
def valuedBids (cv : ConsensusVariable) : List Believe :=
  (cv.toBelieve :: cv.proposals).filter Believe.hasValue

/-- Every value is a double. -/
def AllDoubles (cv : ConsensusVariable) : Prop :=
  ∀ b ∈ cv.toBelieve :: cv.proposals, b.hasValue = true → b.type = typeCDouble

theorem valuedBids_isBid (doubles : AllDoubles cv) : ∀ b ∈ valuedBids cv, IsBid b := by
  intro b member
  obtain ⟨inVariable, valued⟩ := List.mem_filter.mp member
  exact ⟨valued, doubles b inVariable valued⟩

/-- A believe without a value leaves the scan as it is. -/
theorem scan_valued (l : List Believe) (scan : Election.Scan) :
    l.foldl Election.scanStep scan
      = (l.filter Believe.hasValue).foldl Election.scanStep scan := by
  induction l generalizing scan with
  | nil => rfl
  | cons b l ih =>
    rw [List.foldl_cons, ih]
    cases valued : b.hasValue with
    | false => simp [Election.scanStep, valued]
    | true => simp [valued]

/-- Where the scan has got after some bids: at the first of the highest, if that exceeds the
start. -/
theorem scan_argmax {bids : List Believe} (areBids : ∀ b ∈ bids, IsBid b) :
    (∀ b ∈ bids.argmax bidOf, leastBid < bidOf b →
      (bids.foldl Election.scanStep ⟨leastBid, leastBid, 0⟩).bet = bidOf b ∧
        (bids.foldl Election.scanStep ⟨leastBid, leastBid, 0⟩).ret = b.robotID) ∧
    ((∀ b ∈ bids.argmax bidOf, bidOf b ≤ leastBid) →
      (bids.foldl Election.scanStep ⟨leastBid, leastBid, 0⟩).bet = leastBid ∧
        (bids.foldl Election.scanStep ⟨leastBid, leastBid, 0⟩).ret = 0) := by
  induction bids using List.reverseRecOn with
  | nil => simp
  | append_singleton bids a ih =>
    obtain ⟨above, below⟩ := ih fun b member => areBids b (List.mem_append_left _ member)
    rw [List.foldl_append, List.foldl_cons, List.foldl_nil, scanStep_bid (areBids a (by simp)),
      List.argmax_concat]
    cases best : bids.argmax bidOf with
    | none =>
      obtain ⟨bet, ret⟩ := below (by simp [best])
      simp only [Option.mem_def, Option.some.injEq, forall_eq', bet]
      constructor
      · intro higher
        simp [if_pos higher]
      · intro lower
        rw [if_neg (by omega)]
        exact ⟨rfl, ret⟩
    | some b =>
      by_cases start : leastBid < bidOf b
      · obtain ⟨bet, ret⟩ := above b best start
        by_cases higher : bidOf b < bidOf a
        · simp only [if_pos higher, bet, Option.mem_def, Option.some.injEq, forall_eq']
          exact ⟨fun _ => by simp, fun lower => by omega⟩
        · simp only [if_neg higher, bet, Option.mem_def, Option.some.injEq, forall_eq']
          exact ⟨fun _ => by simp [ret], fun lower => by omega⟩
      · obtain ⟨bet, ret⟩ := below fun c same => by
          obtain rfl : b = c := by simpa [best] using same
          omega
        by_cases higher : bidOf b < bidOf a
        · simp only [if_pos higher, bet, Option.mem_def, Option.some.injEq, forall_eq']
          constructor
          · intro exceeds
            simp [if_pos exceeds]
          · intro lower
            rw [if_neg (by omega)]
            exact ⟨rfl, ret⟩
        · simp only [if_neg higher, bet, Option.mem_def, Option.some.injEq, forall_eq']
          rw [if_neg (by omega)]
          exact ⟨fun exceeds => by omega, fun _ => ⟨rfl, ret⟩⟩

/-- The winner holds the highest bid, which is what the reference is set to, and 0 stands
for an election without bids. -/
structure ElectsHighest (cv : ConsensusVariable) : Prop where
  winner : valuedBids cv ≠ [] → ∃ b ∈ valuedBids cv,
    b.robotID = (Election.getWinnerBet cv).1 ∧ bidOf b = (Election.getWinnerBet cv).2 ∧
      ∀ c ∈ valuedBids cv, bidOf c ≤ bidOf b
  nobody : (Election.getWinnerBet cv).1 = 0 → valuedBids cv = []

theorem getWinnerBet_eq (cv : ConsensusVariable) :
    Election.getWinnerBet cv =
      (((valuedBids cv).foldl Election.scanStep ⟨leastBid, leastBid, 0⟩).ret,
        ((valuedBids cv).foldl Election.scanStep ⟨leastBid, leastBid, 0⟩).bet) := by
  unfold valuedBids
  rw [← scan_valued]
  rfl

/-- `getWinner` finds the highest bid if and only if that bid, where there is one, exceeds
the least positive normal double and the first robot to hold it is not number 0. -/
theorem electsHighest_iff (doubles : AllDoubles cv) :
    ElectsHighest cv ↔
      ∀ b ∈ (valuedBids cv).argmax bidOf, leastBid < bidOf b ∧ b.robotID ≠ 0 := by
  obtain ⟨above, below⟩ := scan_argmax (valuedBids_isBid doubles)
  constructor
  · intro elects b best
    have present : valuedBids cv ≠ [] := List.ne_nil_of_mem (List.argmax_mem best)
    have winner : (Election.getWinnerBet cv).1 ≠ 0 := mt elects.nobody present
    have exceeds : leastBid < bidOf b := by
      by_contra low
      apply winner
      rw [getWinnerBet_eq]
      refine (below fun c same => ?_).2
      obtain rfl : b = c := Option.some.inj (best.symm.trans same)
      omega
    refine ⟨exceeds, fun zero => winner ?_⟩
    rw [getWinnerBet_eq]
    exact (above b best exceeds).2.trans zero
  · intro electable
    cases best : (valuedBids cv).argmax bidOf with
    | none =>
      have absent : valuedBids cv = [] := List.argmax_eq_none.mp best
      exact ⟨fun present => absurd absent present, fun _ => absent⟩
    | some b =>
      obtain ⟨exceeds, nonzero⟩ := electable b best
      obtain ⟨bet, ret⟩ := above b best exceeds
      rw [← Option.mem_def] at best
      constructor
      · intro _
        refine ⟨b, List.argmax_mem best, ?_, ?_, fun c member => List.le_of_mem_argmax member best⟩
        · rw [getWinnerBet_eq]
          exact ret.symm
        · rw [getWinnerBet_eq]
          exact bet.symm
      · intro zero
        rw [getWinnerBet_eq] at zero
        exact absurd (ret.symm.trans zero) nonzero

/-- The own bid is 2, and agent 2 bids 5. -/
theorem electsHighest_five :
    ElectsHighest ⟨bidBelieve 1 bidTwo, [bidBelieve 2 bidFive]⟩ :=
  (electsHighest_iff (by unfold AllDoubles; decide)).mpr (by decide +kernel)

/-- The only bid is -1, and nobody wins. -/
theorem electsHighest_negative :
    let bid := bidBelieve 2 [0, 0, 0, 0, 0, 0, 240, 191]
    let cv : ConsensusVariable := ⟨{ bidBelieve 1 [] with hasValue := false }, [bid]⟩
    AllDoubles cv ∧ (cv.proposals.map Believe.robotID).Nodup ∧ ¬ElectsHighest cv := by
  refine ⟨by unfold AllDoubles; decide, by decide, fun elects => ?_⟩
  have none := elects.nobody (by decide +kernel)
  cases none

end CaceProofs.Guarantees
