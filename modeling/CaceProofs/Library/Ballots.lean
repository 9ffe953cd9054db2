import Mathlib.Data.Finset.Card
import Mathlib.Data.Finset.Union
import Mathlib.Order.Basic

/-!
# Voting in ballots

Members vote for values in ballots, and a value is chosen in a ballot by the votes of a quorum,
where any two quorums have a member in common. A ballot proposes one value, and a proposal is
safe if in every earlier ballot some quorum has left that ballot with no vote for another value.
-/
namespace CaceProofs.Library

/-- Sets of members of which any two have a member in common. -/
structure Quorums (α : Type) where
  quorum : Finset α → Prop
  meet : ∀ {Q R}, quorum Q → quorum R → ∃ a ∈ Q, a ∈ R

/-- The majorities among the first `n` members. -/
def majorities (n : Nat) : Quorums Nat where
  quorum Q := Q ⊆ Finset.range n ∧ n < 2 * Q.card
  meet := by
    rintro Q R ⟨inQ, manyQ⟩ ⟨inR, manyR⟩
    by_contra apart
    push Not at apart
    have disjoint : Disjoint Q R := Finset.disjoint_left.mpr apart
    have all : (Q ∪ R).card ≤ n := by
      simpa using Finset.card_le_card (Finset.union_subset inQ inR)
    rw [Finset.card_union_of_disjoint disjoint] at all
    omega

/-- The votes given, the proposals made, and the ballots that a member votes in no more. -/
structure Voting (α β V : Type) where
  voted : α → β → V → Prop
  proposed : β → V → Prop
  left : α → β → Prop

namespace Voting

variable {α β V : Type} [LinearOrder β] (quorums : Quorums α) {s s' : Voting α β V} {b c d : β}
  {v w : V}

/-- A quorum has left the ballot, and none of its members voted for another value in it. -/
def Blocks (s : Voting α β V) (c : β) (v : V) : Prop :=
  ∃ Q, quorums.quorum Q ∧ ∀ a ∈ Q, s.left a c ∧ ∀ w, s.voted a c w → w = v

def SafeAt (s : Voting α β V) (b : β) (v : V) : Prop :=
  ∀ c < b, s.Blocks quorums c v

def Chosen (s : Voting α β V) (b : β) (v : V) : Prop :=
  ∃ Q, quorums.quorum Q ∧ ∀ a ∈ Q, s.voted a b v

/-- Votes are for proposals, a ballot has one proposal, and every proposal is safe. -/
structure Lawful (s : Voting α β V) : Prop where
  votes : ∀ {a b v}, s.voted a b v → s.proposed b v
  one : ∀ {b v w}, s.proposed b v → s.proposed b w → v = w
  safe : ∀ {b v}, s.proposed b v → s.SafeAt quorums b v

/-- A later state: the votes that a member adds are in ballots it had not left. -/
structure Extends (s s' : Voting α β V) : Prop where
  left : ∀ {a c}, s.left a c → s'.left a c
  voted : ∀ {a c v}, s'.voted a c v → s.voted a c v ∨ ¬ s.left a c

variable {quorums}

theorem SafeAt.extends (later : s.Extends s') (safe : s.SafeAt quorums b v) :
    s'.SafeAt quorums b v := by
  intro c less
  obtain ⟨Q, quorum, blocks⟩ := safe c less
  refine ⟨Q, quorum, fun a member => ?_⟩
  obtain ⟨left, only⟩ := blocks a member
  exact ⟨later.left left, fun w vote => only w ((later.voted vote).resolve_right (not_not.mpr left))⟩

/-- A value chosen earlier is the one of every later proposal. -/
theorem Lawful.chosen_proposed (lawful : s.Lawful quorums) (less : c < b)
    (chosen : s.Chosen quorums c w) (proposed : s.proposed b v) : w = v := by
  obtain ⟨Q, quorumQ, votes⟩ := chosen
  obtain ⟨R, quorumR, blocks⟩ := lawful.safe proposed c less
  obtain ⟨a, inQ, inR⟩ := quorums.meet quorumQ quorumR
  exact (blocks a inR).2 w (votes a inQ)

/-- A chosen value was proposed. -/
theorem Lawful.proposed_of_chosen (lawful : s.Lawful quorums) (chosen : s.Chosen quorums b v) :
    s.proposed b v := by
  obtain ⟨Q, quorum, votes⟩ := chosen
  obtain ⟨a, member, -⟩ := quorums.meet quorum quorum
  exact lawful.votes (votes a member)

/-- All chosen values are equal. -/
theorem Lawful.agreement (lawful : s.Lawful quorums) (first : s.Chosen quorums b v)
    (second : s.Chosen quorums c w) : v = w := by
  have proposedV := lawful.proposed_of_chosen first
  have proposedW := lawful.proposed_of_chosen second
  rcases lt_trichotomy b c with less | rfl | greater
  · exact lawful.chosen_proposed less first proposedW
  · exact lawful.one proposedV proposedW
  · exact (lawful.chosen_proposed greater second proposedV).symm

/-- A quorum that has left all earlier ballots with no vote in them leaves every value safe. -/
theorem safeAt_of_unvoted {Q : Finset α} (quorum : quorums.quorum Q)
    (left : ∀ a ∈ Q, ∀ c < b, s.left a c) (unvoted : ∀ a ∈ Q, ∀ c < b, ∀ w, ¬ s.voted a c w) :
    s.SafeAt quorums b v :=
  fun c less => ⟨Q, quorum, fun a member =>
    ⟨left a member c less, fun w vote => absurd vote (unvoted a member c less w)⟩⟩

/-- A quorum that has left all earlier ballots makes safe the proposal of the last ballot that
one of its members voted in. -/
theorem Lawful.safeAt_of_last (lawful : s.Lawful quorums) {Q : Finset α}
    (quorum : quorums.quorum Q) (left : ∀ a ∈ Q, ∀ c < b, s.left a c)
    (last : ∀ a ∈ Q, ∀ c < b, ∀ w, s.voted a c w → c ≤ d) (proposed : s.proposed d v) :
    s.SafeAt quorums b v := by
  intro c less
  rcases lt_trichotomy c d with before | rfl | after
  · exact lawful.safe proposed c before
  · exact ⟨Q, quorum, fun a member =>
      ⟨left a member c less, fun w vote => lawful.one (lawful.votes vote) proposed⟩⟩
  · exact ⟨Q, quorum, fun a member =>
      ⟨left a member c less, fun w vote => absurd (last a member c less w vote) after.not_ge⟩⟩

end Voting

end CaceProofs.Library
