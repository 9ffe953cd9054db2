import Mathlib.Data.List.Basic

/-!
# The freshest of a sequence

The earliest element of a sequence among those with the latest time: what a register
keeps that only a strictly newer write overwrites.
-/
namespace CaceProofs.Library

variable {α : Type} {time : α → Nat}

/-- `m` is the first of the elements of `l` with the greatest time. -/
def Freshest (time : α → Nat) (l : List α) (m : α) : Prop :=
  ∃ before after, l = before ++ m :: after ∧ (∀ a ∈ before, time a < time m) ∧
    ∀ a ∈ after, time a ≤ time m

namespace Freshest

variable {l : List α} {m n : α}

theorem singleton (m : α) : Freshest time [m] m :=
  ⟨[], [], rfl, by simp, by simp⟩

theorem mem (fresh : Freshest time l m) : m ∈ l := by
  obtain ⟨before, after, rfl, -, -⟩ := fresh
  simp

theorem le (fresh : Freshest time l m) : ∀ a ∈ l, time a ≤ time m := by
  obtain ⟨before, after, rfl, older, notNewer⟩ := fresh
  intro a member
  rcases List.mem_append.mp member with first | rest
  · exact Nat.le_of_lt (older a first)
  · rcases List.mem_cons.mp rest with rfl | later
    · exact Nat.le_refl _
    · exact notNewer a later

/-- A strictly newer element takes over. -/
theorem append_newer (fresh : Freshest time l m) (newer : time m < time n) :
    Freshest time (l ++ [n]) n :=
  ⟨l, [], by simp, fun a member => Nat.lt_of_le_of_lt (fresh.le a member) newer, by simp⟩

/-- Any other does not. -/
theorem append_older (fresh : Freshest time l m) (older : time n ≤ time m) :
    Freshest time (l ++ [n]) m := by
  obtain ⟨before, after, rfl, strictly, notNewer⟩ := fresh
  refine ⟨before, after ++ [n], by simp, strictly, ?_⟩
  intro a member
  rcases List.mem_append.mp member with first | last
  · exact notNewer a first
  · rw [List.mem_singleton.mp last]
    exact older

/-- Where the times tell the elements apart, the order does not matter. -/
theorem eq_of_distinct (fresh : Freshest time l m)
    (distinct : ∀ a ∈ l, ∀ b ∈ l, time a = time b → a = b) (member : n ∈ l)
    (greatest : ∀ a ∈ l, time a ≤ time n) : m = n :=
  distinct m fresh.mem n member (Nat.le_antisymm (greatest m fresh.mem) (fresh.le n member))

end Freshest

end CaceProofs.Library
