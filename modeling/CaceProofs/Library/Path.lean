import Mathlib.Data.List.Basic
import Mathlib.Data.List.DropRight

/-!
# Paths in a string

A path is a list of components; printed, each component is followed by the separator. What
a string has in front of its last separator is such a printed path, and one printed path is
a prefix of another exactly if the components are.
-/
namespace CaceProofs.Library

variable {α : Type}

/-- The components, each with the separator behind it. -/
def terminated (sep : α) (path : List (List α)) : List α :=
  path.flatMap fun component => component ++ [sep]

@[simp] theorem terminated_nil (sep : α) : terminated sep [] = [] := rfl

@[simp] theorem terminated_cons (sep : α) (component : List α) (path : List (List α)) :
    terminated sep (component :: path) = component ++ sep :: terminated sep path := by
  simp [terminated]

theorem append_sep_prefix_iff {sep : α} {a b r r' : List α} (cleanA : sep ∉ a) (cleanB : sep ∉ b) :
    a ++ sep :: r <+: b ++ sep :: r' ↔ a = b ∧ r <+: r' := by
  induction a generalizing b with
  | nil =>
    cases b with
    | nil => simp [List.cons_prefix_cons]
    | cons y b =>
      have apart : sep ≠ y := fun same => cleanB (same ▸ List.mem_cons_self)
      simp [List.cons_prefix_cons, apart]
  | cons x a ih =>
    have cleanA' : sep ∉ a := fun member => cleanA (List.mem_cons_of_mem _ member)
    cases b with
    | nil =>
      have apart : x ≠ sep := fun same => cleanA (same ▸ List.mem_cons_self)
      simp [List.cons_prefix_cons, apart]
    | cons y b =>
      have cleanB' : sep ∉ b := fun member => cleanB (List.mem_cons_of_mem _ member)
      have tails := ih cleanA' cleanB'
      simp only [List.cons_append, List.cons_prefix_cons, List.cons.injEq, tails, and_assoc]

/-- The prefix test on printed paths is the one on paths. -/
theorem terminated_prefix_iff {sep : α} {path scope : List (List α)}
    (cleanPath : ∀ component ∈ path, sep ∉ component)
    (cleanScope : ∀ component ∈ scope, sep ∉ component) :
    terminated sep path <+: terminated sep scope ↔ path <+: scope := by
  induction path generalizing scope with
  | nil => simp
  | cons first path ih =>
    cases scope with
    | nil => simp
    | cons outer scope =>
      have tails := ih (fun component member => cleanPath component (List.mem_cons_of_mem _ member))
        fun component member => cleanScope component (List.mem_cons_of_mem _ member)
      rw [terminated_cons, terminated_cons, List.cons_prefix_cons, ← tails]
      exact append_sep_prefix_iff (cleanPath first List.mem_cons_self)
        (cleanScope outer List.mem_cons_self)

variable [DecidableEq α]

/-- The components in front of the last one. -/
def pathOf (sep : α) (name : List α) : List (List α) :=
  (name.splitOn sep).dropLast

/-- A string is a printed path and a last component without a separator. -/
theorem splitOn_spec (sep : α) (name : List α) :
    ∃ base, name.splitOn sep = pathOf sep name ++ [base] ∧
      name = terminated sep (pathOf sep name) ++ base ∧ sep ∉ base ∧
      ∀ component ∈ pathOf sep name, sep ∉ component := by
  unfold pathOf
  induction name with
  | nil => exact ⟨[], by simp [terminated]⟩
  | cons a name ih =>
    obtain ⟨base, pieces, whole, clean, cleanPath⟩ := ih
    generalize (name.splitOn sep).dropLast = path at pieces whole cleanPath
    rw [List.splitOn_eq_splitOnP] at pieces ⊢
    rw [List.splitOnP_cons_eq_if_modifyHead, pieces]
    by_cases separates : a = sep
    · refine ⟨base, ?_⟩
      simp only [separates, beq_self_eq_true, if_true]
      rw [show ([] : List α) :: (path ++ [base]) = ([] :: path) ++ [base] from rfl,
        List.dropLast_concat]
      refine ⟨rfl, by simp [← whole], clean, ?_⟩
      simpa using cleanPath
    · have apart : sep ≠ a := fun same => separates same.symm
      simp only [beq_iff_eq, separates, if_false]
      cases path with
      | nil =>
        refine ⟨a :: base, rfl, by simpa using whole, ?_, by simp⟩
        simp [apart, clean]
      | cons first rest =>
        refine ⟨base, ?_⟩
        rw [show (first :: rest ++ [base]).modifyHead (List.cons a)
            = ((a :: first) :: rest) ++ [base] from rfl, List.dropLast_concat]
        refine ⟨rfl, ?_, clean, ?_⟩
        · rw [terminated_cons] at whole ⊢
          simp [whole]
        · simpa [apart] using cleanPath

/-- What is left of a string when everything behind its last separator is dropped. -/
theorem rdropWhile_path (sep : α) (name : List α) :
    name.rdropWhile (· ≠ sep) = terminated sep (pathOf sep name) := by
  obtain ⟨base, -, whole, clean, -⟩ := splitOn_spec sep name
  generalize pathOf sep name = path at whole ⊢
  have dropped : (terminated sep path ++ base).rdropWhile (· ≠ sep)
      = (terminated sep path).rdropWhile (· ≠ sep) := by
    unfold List.rdropWhile
    rw [List.reverse_append, List.dropWhile_append_of_pos]
    intro a member
    have other : a ≠ sep := fun same => clean (same ▸ List.mem_reverse.mp member)
    simpa using other
  rw [whole, dropped]
  rcases List.eq_nil_or_concat path with rfl | ⟨front, last, rfl⟩
  · rfl
  · have ends : terminated sep (front ++ [last]) = (terminated sep front ++ last) ++ [sep] := by
      simp [terminated]
    rw [List.concat_eq_append, ends, List.rdropWhile_concat]
    simp

/-- A string has a path exactly if it has a separator. -/
theorem pathOf_eq_nil_iff (sep : α) (name : List α) : pathOf sep name = [] ↔ sep ∉ name := by
  obtain ⟨base, -, whole, clean, -⟩ := splitOn_spec sep name
  generalize pathOf sep name = path at whole ⊢
  rw [whole]
  cases path with
  | nil => simp [clean]
  | cons first rest => simp

end CaceProofs.Library
