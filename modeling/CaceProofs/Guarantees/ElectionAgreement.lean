import Mathlib.Data.List.Nodup
import Mathlib.Data.List.Perm.Basic
import CaceProofs.Source.Election

/-!
# Agreement of an election

Every agent scans its own bid first, and only a strictly higher bid changes the winner. A
unique highest bid wins everywhere; agents that share the highest bid elect themselves.
-/
namespace CaceProofs.Guarantees
open Source

/-- A bid as the number it stands for. -/
def bidOf (b : Believe) : Int :=
  deserializeDouble b.val

/-- What a bid has to exceed. -/
def leastBid : Int :=
  deserializeDouble Believe.doubleMin

/-- A believe with a value of type double. -/
structure IsBid (b : Believe) : Prop where
  hasValue : b.hasValue = true
  type : b.type = typeCDouble

section Scan

variable {scan : Election.Scan} {b : Believe} {l : List Believe}

theorem scanStep_bid (isBid : IsBid b) :
    Election.scanStep scan b =
      if scan.bet < bidOf b then ⟨bidOf b, bidOf b, b.robotID⟩
      else { scan with val := bidOf b } := by
  unfold Election.scanStep Believe.getValueDouble
  rw [isBid.hasValue, isBid.type]
  rfl

/-- The scan ends at the highest bid: where it started, or at a bid that is on the list. -/
theorem scan_spec (bids : ∀ b ∈ l, IsBid b) (scan : Election.Scan) :
    (∀ b ∈ l, bidOf b ≤ (l.foldl Election.scanStep scan).bet) ∧
      (((l.foldl Election.scanStep scan).bet = scan.bet ∧
          (l.foldl Election.scanStep scan).ret = scan.ret) ∨
        scan.bet < (l.foldl Election.scanStep scan).bet ∧
          ∃ b ∈ l, bidOf b = (l.foldl Election.scanStep scan).bet ∧
            b.robotID = (l.foldl Election.scanStep scan).ret) := by
  induction l generalizing scan with
  | nil => simp
  | cons b l ih =>
    have isBid := bids b List.mem_cons_self
    obtain ⟨upper, origin⟩ := ih (fun b member => bids b (List.mem_cons_of_mem _ member))
      (Election.scanStep scan b)
    rw [List.foldl_cons]
    rw [scanStep_bid isBid] at upper origin ⊢
    by_cases higher : scan.bet < bidOf b
    · rw [if_pos higher] at upper origin ⊢
      rcases origin with ⟨same, winner⟩ | ⟨above, c, member, bid, winner⟩
      · rw [same, winner]
        refine ⟨?_, .inr ⟨higher, b, List.mem_cons_self, rfl, rfl⟩⟩
        intro c member
        rcases List.mem_cons.mp member with rfl | later
        · exact Int.le_refl _
        · exact same ▸ upper c later
      · refine ⟨?_, .inr ⟨Int.lt_trans higher above, c, List.mem_cons_of_mem _ member, bid, winner⟩⟩
        intro d member
        rcases List.mem_cons.mp member with rfl | later
        · exact Int.le_of_lt above
        · exact upper d later
    · rw [if_neg higher] at upper origin ⊢
      have reached : scan.bet ≤ (l.foldl Election.scanStep { scan with val := bidOf b }).bet := by
        rcases origin with ⟨same, -⟩ | ⟨above, -⟩
        · exact Int.le_of_eq same.symm
        · exact Int.le_of_lt above
      refine ⟨?_, ?_⟩
      · intro c member
        rcases List.mem_cons.mp member with rfl | later
        · omega
        · exact upper c later
      · rcases origin with start | ⟨above, c, member, found⟩
        · exact .inl start
        · exact .inr ⟨above, c, List.mem_cons_of_mem _ member, found⟩

/-- Nothing above the start: the scan stays there. -/
theorem scan_stays (bids : ∀ b ∈ l, IsBid b) (below : ∀ b ∈ l, bidOf b ≤ scan.bet) :
    (l.foldl Election.scanStep scan).ret = scan.ret := by
  rcases (scan_spec bids scan).2 with ⟨-, same⟩ | ⟨above, b, member, bid, -⟩
  · exact same
  · have bound := below b member
    omega

/-- The winner of an election: nobody, or one with the highest bid. -/
theorem getWinner_spec {cv : ConsensusVariable}
    (bids : ∀ b ∈ cv.toBelieve :: cv.proposals, IsBid b) :
    (Election.getWinner cv = 0 ∧ ∀ b ∈ cv.toBelieve :: cv.proposals, bidOf b ≤ leastBid) ∨
      ∃ b ∈ cv.toBelieve :: cv.proposals, leastBid < bidOf b ∧
        b.robotID = Election.getWinner cv ∧
        ∀ c ∈ cv.toBelieve :: cv.proposals, bidOf c ≤ bidOf b := by
  obtain ⟨upper, origin⟩ := scan_spec bids ⟨leastBid, leastBid, 0⟩
  rcases origin with ⟨bet, ret⟩ | ⟨above, b, member, bid, ret⟩
  · refine .inl ⟨ret, fun b member => ?_⟩
    have bound := upper b member
    rwa [bet] at bound
  · exact .inr ⟨b, member, bid ▸ above, ret, fun c other => bid ▸ upper c other⟩

/-- Who holds the highest bid elects himself. -/
theorem getWinner_own {cv : ConsensusVariable}
    (bids : ∀ b ∈ cv.toBelieve :: cv.proposals, IsBid b) (electable : leastBid < bidOf cv.toBelieve)
    (highest : ∀ b ∈ cv.proposals, bidOf b ≤ bidOf cv.toBelieve) :
    Election.getWinner cv = cv.robotID := by
  have own : Election.scanStep ⟨leastBid, leastBid, 0⟩ cv.toBelieve =
      ⟨bidOf cv.toBelieve, bidOf cv.toBelieve, cv.robotID⟩ := by
    rw [scanStep_bid (bids _ List.mem_cons_self)]
    exact if_pos electable
  have stays := @scan_stays ⟨bidOf cv.toBelieve, bidOf cv.toBelieve, cv.robotID⟩ cv.proposals
    (fun b member => bids b (List.mem_cons_of_mem _ member)) highest
  rw [← own] at stays
  exact stays.trans (congrArg Election.Scan.ret own)

end Scan

/-- Agent `id` holds its own bid and exactly those of all others, in any order. -/
structure FullInformation (ids : List Int) (bid : Int → Bytes) (id : Int)
    (cv : ConsensusVariable) : Prop where
  own : cv.robotID = id
  others : (cv.proposals.map Believe.robotID).Perm (ids.erase id)
  isBid : ∀ b ∈ cv.toBelieve :: cv.proposals, IsBid b
  values : ∀ b ∈ cv.toBelieve :: cv.proposals, b.val = bid b.robotID

namespace FullInformation

variable {ids : List Int} {bid : Int → Bytes} {id : Int} {cv : ConsensusVariable}

/-- The holders of the believes are the agents. -/
theorem holders (full : FullInformation ids bid id cv) (known : id ∈ ids) (j : Int) :
    (∃ b ∈ cv.toBelieve :: cv.proposals, b.robotID = j) ↔ j ∈ ids := by
  have all : ((cv.toBelieve :: cv.proposals).map Believe.robotID).Perm ids := by
    rw [List.map_cons, full.own]
    exact (full.others.cons id).trans (List.perm_cons_erase known).symm
  rw [← all.mem_iff, List.mem_map]

theorem bidOf_eq (full : FullInformation ids bid id cv) {b : Believe}
    (member : b ∈ cv.toBelieve :: cv.proposals) :
    bidOf b = deserializeDouble (bid b.robotID) := by
  unfold bidOf
  rw [full.values b member]

/-- The winner at an agent, in terms of the bids. -/
theorem winner (full : FullInformation ids bid id cv) (known : id ∈ ids) :
    (Election.getWinner cv = 0 ∧ ∀ j ∈ ids, deserializeDouble (bid j) ≤ leastBid) ∨
      Election.getWinner cv ∈ ids ∧
        leastBid < deserializeDouble (bid (Election.getWinner cv)) ∧
        ∀ j ∈ ids, deserializeDouble (bid j) ≤
          deserializeDouble (bid (Election.getWinner cv)) := by
  rcases getWinner_spec full.isBid with ⟨nobody, low⟩ | ⟨b, member, above, elected, highest⟩
  · refine .inl ⟨nobody, fun j inIds => ?_⟩
    obtain ⟨c, holds, rfl⟩ := (full.holders known j).mpr inIds
    exact full.bidOf_eq holds ▸ low c holds
  · rw [full.bidOf_eq member, elected] at above
    refine .inr ⟨(full.holders known _).mp ⟨b, member, elected⟩, above, fun j inIds => ?_⟩
    obtain ⟨c, holds, rfl⟩ := (full.holders known j).mpr inIds
    have below := highest c holds
    rwa [full.bidOf_eq holds, full.bidOf_eq member, elected] at below

end FullInformation

/-- All agents elect the same one exactly if no two of them share the highest bid, where a
bid counts only above the least one. -/
theorem election_agreement {ids : List Int} {bid : Int → Bytes} {held : Int → ConsensusVariable}
    (full : ∀ i ∈ ids, FullInformation ids bid i (held i)) :
    (∀ i ∈ ids, ∀ j ∈ ids, Election.getWinner (held i) = Election.getWinner (held j)) ↔
      ∀ i ∈ ids, ∀ j ∈ ids, leastBid < deserializeDouble (bid i) →
        (∀ k ∈ ids, deserializeDouble (bid k) ≤ deserializeDouble (bid i)) →
        deserializeDouble (bid j) = deserializeDouble (bid i) → i = j := by
  have elects : ∀ i ∈ ids, leastBid < deserializeDouble (bid i) →
      (∀ k ∈ ids, deserializeDouble (bid k) ≤ deserializeDouble (bid i)) →
      Election.getWinner (held i) = i := by
    intro i known above highest
    have info := full i known
    have own : bidOf (held i).toBelieve = deserializeDouble (bid i) := by
      rw [info.bidOf_eq List.mem_cons_self, info.own]
    refine (getWinner_own info.isBid (own ▸ above) fun b member => ?_).trans info.own
    have inList := List.mem_cons_of_mem (held i).toBelieve member
    rw [own, info.bidOf_eq inList]
    exact highest _ ((info.holders known _).mp ⟨b, inList, rfl⟩)
  constructor
  · intro agree i knownI j knownJ above highest tie
    have first := elects i knownI above highest
    have second := elects j knownJ (tie ▸ above) (tie ▸ highest)
    rw [← first, ← second]
    exact agree i knownI j knownJ
  · intro unique i knownI j knownJ
    rcases (full i knownI).winner knownI with ⟨none, low⟩ | ⟨mine, above, highest⟩
    · rcases (full j knownJ).winner knownJ with ⟨none', -⟩ | ⟨other, above, -⟩
      · rw [none, none']
      · have bound := low _ other
        omega
    · rcases (full j knownJ).winner knownJ with ⟨-, low⟩ | ⟨other, -, highest'⟩
      · have bound := low _ mine
        omega
      · have tie := Int.le_antisymm (highest _ other) (highest' _ mine)
        exact unique _ mine _ other above highest tie

/-- A believe that holds a bid. -/
def bidBelieve (id : Int) (val : Bytes) : Believe :=
  { Believe.construct ['e'] .twoWayHandShakeElection longMax id 0 1 typeCDouble with
    val := val, hasValue := true }

/-- The doubles 2 and 5. -/
def bidTwo : Bytes := [0, 0, 0, 0, 0, 0, 0, 64]
def bidFive : Bytes := [0, 0, 0, 0, 0, 0, 20, 64]

/-- Full information of two agents. -/
def heldBy (bid : Int → Bytes) (id : Int) : ConsensusVariable :=
  ⟨bidBelieve id (bid id), [bidBelieve (3 - id) (bid (3 - id))]⟩

theorem heldBy_full (bid : Int → Bytes) : ∀ id ∈ [1, 2], FullInformation [1, 2] bid id
    (heldBy bid id) := by
  intro id member
  refine ⟨rfl, ?_, ?_, ?_⟩
  · rcases List.mem_pair.mp member with rfl | rfl <;> exact List.Perm.refl _
  · intro b inVariable
    rcases List.mem_pair.mp inVariable with rfl | rfl <;> exact ⟨rfl, rfl⟩
  · intro b inVariable
    rcases List.mem_pair.mp inVariable with rfl | rfl <;> rfl

/-- Agents 1 and 2 bid 2 and 5. -/
theorem election_agreement_unique :
    Election.getWinner (heldBy (fun id => if id = 1 then bidTwo else bidFive) 1) =
      Election.getWinner (heldBy (fun id => if id = 1 then bidTwo else bidFive) 2) :=
  (election_agreement (heldBy_full _)).mpr (by decide +kernel) 1 (by simp) 2 (by simp)

/-- Both agents bid 5, and each elects itself. -/
theorem election_agreement_tied :
    (∀ id ∈ [1, 2], FullInformation [1, 2] (fun _ => bidFive) id (heldBy (fun _ => bidFive) id)) ∧
      Election.getWinner (heldBy (fun _ => bidFive) 1) = 1 ∧
      Election.getWinner (heldBy (fun _ => bidFive) 2) = 2 :=
  ⟨heldBy_full _, by decide +kernel, by decide +kernel⟩

end CaceProofs.Guarantees
