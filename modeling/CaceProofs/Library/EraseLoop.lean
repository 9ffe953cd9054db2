import Mathlib.Data.List.Basic

/-!
# The erase-while-iterating loop

`for (i = 0; i < v.size(); i++) if (p(v.at(i))) { v.erase(v.begin() + i); i--; }`
walked by index. Fuel bounds the number of iterations; the length of the vector is
enough, and the result is the filtered vector.
-/
namespace CaceProofs.Library

variable {α : Type}

def eraseLoop (p : α → Bool) : Nat → List α → Nat → List α
  | 0, v, _ => v
  | fuel + 1, v, i =>
    match v[i]? with
    | none => v
    | some a => if p a then eraseLoop p fuel (v.eraseIdx i) i else eraseLoop p fuel v (i + 1)

/-- The loop from its start. -/
def eraseIf (p : α → Bool) (v : List α) : List α :=
  eraseLoop p v.length v 0

theorem eraseLoop_append (p : α → Bool) (kept rest : List α) :
    eraseLoop p rest.length (kept ++ rest) kept.length = kept ++ rest.filter fun a => !p a := by
  induction rest generalizing kept with
  | nil => simp [eraseLoop]
  | cons a rest ih =>
    have here : (kept ++ a :: rest)[kept.length]? = some a := by simp
    simp only [List.length_cons, eraseLoop, here]
    by_cases erased : p a
    · have shrunk : (kept ++ a :: rest).eraseIdx kept.length = kept ++ rest := by
        simp [List.eraseIdx_append_of_length_le]
      rw [if_pos erased, shrunk, ih kept]
      simp [erased]
    · have next := ih (kept ++ [a])
      simp only [List.append_assoc, List.singleton_append, List.length_append,
        List.length_singleton] at next
      rw [if_neg erased, next]
      simp [erased]

@[simp] theorem eraseIf_eq_filter (p : α → Bool) (v : List α) :
    eraseIf p v = v.filter fun a => !p a :=
  eraseLoop_append p [] v

end CaceProofs.Library
