import Mathlib.Algebra.BigOperators.Ring.List
import Mathlib.Algebra.Order.BigOperators.Group.List
import Mathlib.Algebra.Order.Field.Basic
import Mathlib.Algebra.Order.Field.Rat
import Mathlib.Tactic.Linarith
import Mathlib.Tactic.Ring

/-!
# Sliding windows

A list that takes new elements at its end and is cut back to its newest ones, and the mean of a
window that is formed from rounded quotients.
-/
namespace CaceProofs.Library

variable {α : Type}

/-- `while (data.size() > n) data.erase(data.begin());` -/
def evict (n : Nat) : List α → List α
  | [] => []
  | a :: rest => if n < (a :: rest).length then evict n rest else a :: rest

/-- The newest `n` elements. -/
def newest (n : Nat) (l : List α) : List α :=
  l.drop (l.length - n)

theorem evict_eq_newest (n : Nat) (l : List α) : evict n l = newest n l := by
  induction l with
  | nil => exact (List.drop_nil).symm
  | cons a rest ih =>
    unfold evict
    by_cases full : n < (a :: rest).length
    · have one : (a :: rest).length - n = (rest.length - n) + 1 := by
        rw [List.length_cons] at full ⊢
        omega
      rw [if_pos full, ih, newest, newest, one, List.drop_succ_cons]
    · have none : (a :: rest).length - n = 0 := by omega
      rw [if_neg full, newest, none, List.drop_zero]

theorem length_newest (n : Nat) (l : List α) : (newest n l).length = min l.length n := by
  rw [newest, List.length_drop]
  omega

theorem newest_subset (n : Nat) (l : List α) : newest n l ⊆ l :=
  List.drop_subset _ l

/-- What has been evicted does not come back into the window. -/
theorem newest_newest_append (n : Nat) (l : List α) (a : α) :
    newest n (newest n l ++ [a]) = newest n (l ++ [a]) := by
  by_cases short : l.length ≤ n
  · have whole : newest n l = l := by
      rw [newest, Nat.sub_eq_zero_of_le short, List.drop_zero]
    rw [whole]
  · have split : l ++ [a] = l.take (l.length - n) ++ (newest n l ++ [a]) := by
      rw [newest, ← List.append_assoc, List.take_append_drop]
    have dropped : (l.take (l.length - n)).length = l.length - n := by
      rw [List.length_take]
      omega
    have kept : (newest n l ++ [a]).length = n + 1 := by
      rw [List.length_append, length_newest, List.length_singleton]
      omega
    have newer : newest n (newest n l ++ [a]) = (newest n l ++ [a]).drop 1 := by
      rw [newest, kept, Nat.add_sub_cancel_left]
    have cut : (l ++ [a]).length - n = (l.take (l.length - n)).length + 1 := by
      rw [dropped, List.length_append, List.length_singleton]
      omega
    rw [newer]
    change _ = (l ++ [a]).drop ((l ++ [a]).length - n)
    rw [cut, split, List.drop_length_add_append]

section Mean

/-- The quotients of the elements are at most as many as fit into the sum, and each one loses
less than one. -/
theorem sum_ediv_bounds {n : Int} (pos : 0 < n) (l : List Int) :
    n * (l.map (· / n)).sum ≤ l.sum ∧
      l.sum ≤ n * (l.map (· / n)).sum + l.length * (n - 1) := by
  induction l with
  | nil => simp
  | cons a rest ih =>
    have division := Int.emod_add_mul_ediv a n
    have below := Int.emod_lt_of_pos a pos
    have above := Int.emod_nonneg a (by omega : n ≠ 0)
    rw [List.map_cons, List.sum_cons, List.sum_cons, List.length_cons, mul_add, Nat.cast_succ,
      add_mul]
    omega

/-- Quotients by at least the number of the elements add up to no more than the largest. -/
theorem sum_ediv_le {n b : Int} {l : List Int} (many : l.length ≤ n) (pos : 0 < n)
    (nonneg : 0 ≤ b) (each : ∀ a ∈ l, a ≤ b) : (l.map (· / n)).sum ≤ b := by
  have bounds := (sum_ediv_bounds pos l).1
  have total : l.sum ≤ l.length * b := by
    simpa using List.sum_le_card_nsmul l b each
  have grown : (l.length : Int) * b ≤ n * b := Int.mul_le_mul_of_nonneg_right many nonneg
  exact Int.le_of_mul_le_mul_left (bounds.trans (total.trans grown)) pos

/-- Of two sums, one term by term at most the other, equality is equality of the terms. -/
theorem sum_map_eq_iff {f g : α → Int} {l : List α} (le : ∀ a ∈ l, f a ≤ g a) :
    (l.map g).sum = (l.map f).sum ↔ ∀ a ∈ l, g a = f a := by
  induction l with
  | nil => simp
  | cons a rest ih =>
    have le' : ∀ a' ∈ rest, f a' ≤ g a' := fun a' member => le a' (List.mem_cons_of_mem a member)
    have first := le a List.mem_cons_self
    have others : (rest.map f).sum ≤ (rest.map g).sum := List.sum_le_sum le'
    rw [List.map_cons, List.map_cons, List.sum_cons, List.sum_cons, List.forall_mem_cons,
      ← ih le']
    omega

/-- The sum of the quotients by the number of the elements is the mean up to rounding. -/
theorem mean_bounds {l : List Int} (nonempty : l ≠ []) :
    ((l.map (· / (l.length : Int))).sum : ℚ) ≤ (l.sum : ℚ) / l.length ∧
      (l.sum : ℚ) / l.length - (l.length - 1) ≤ ((l.map (· / (l.length : Int))).sum : ℚ) := by
  have length : 0 < l.length := List.length_pos_of_ne_nil nonempty
  have bounds := sum_ediv_bounds (n := l.length) (by omega) l
  have pos : (0 : ℚ) < l.length := by exact_mod_cast length
  constructor
  · rw [le_div_iff₀ pos, mul_comm]
    exact_mod_cast bounds.1
  · rw [sub_le_iff_le_add, div_le_iff₀ pos]
    have upper : (l.sum : ℚ) ≤
        l.length * ((l.map (· / (l.length : Int))).sum : ℚ) + l.length * (l.length - 1) := by
      exact_mod_cast bounds.2
    calc (l.sum : ℚ)
        ≤ l.length * ((l.map (· / (l.length : Int))).sum : ℚ) + l.length * (l.length - 1) := upper
      _ = (((l.map (· / (l.length : Int))).sum : ℚ) + (l.length - 1)) * l.length := by ring

end Mean

end CaceProofs.Library
