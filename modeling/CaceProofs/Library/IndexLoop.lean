import Mathlib.Data.List.Basic
import Mathlib.Algebra.Group.Nat.Defs
import Mathlib.Algebra.Ring.Int.Defs

/-!
# Loops with a signed index

`for (int i = 0; i < v.size(); i++) body`, where the body may erase the element at the index and
then step back, before the first element too. An access outside of the vector is a fault, and so
is a loop that is still running when its fuel is used up.
-/
namespace CaceProofs.Library

inductive IndexFault where
  | outOfRange
  | unfinished
  deriving DecidableEq, Repr

variable {α : Type}

/-- `(size_t)i` -/
def asSize (i : Int) : Nat :=
  if i < 0 then (i + 2 ^ 64).toNat else i.toNat

/-- `v.at(i)` -/
def elementAt (v : List α) (i : Int) : Except IndexFault α :=
  match v[asSize i]? with
  | some a => .ok a
  | none => .error .outOfRange

/-- `v.erase(v.begin() + i)` -/
def eraseAt (v : List α) (i : Int) : Except IndexFault (List α) :=
  if 0 ≤ i ∧ i < v.length then .ok (v.eraseIdx i.toNat) else .error .outOfRange

def indexLoop (body : List α → Int → Except IndexFault (List α × Int)) :
    Nat → List α → Int → Except IndexFault (List α)
  | 0, _, _ => .error .unfinished
  | fuel + 1, v, i =>
    if asSize i < v.length then
      match body v i with
      | .ok (v, i) => indexLoop body fuel v (i + 1)
      | .error fault => .error fault
    else .ok v

theorem asSize_natCast (n : Nat) : asSize n = n := by
  unfold asSize
  rw [if_neg (by omega), Int.toNat_natCast]

theorem elementAt_append (kept rest : List α) (a : α) :
    elementAt (kept ++ a :: rest) kept.length = .ok a := by
  have here : (kept ++ a :: rest)[kept.length]? = some a := by simp
  unfold elementAt
  rw [asSize_natCast, here]

theorem eraseAt_append (kept rest : List α) (a : α) :
    eraseAt (kept ++ a :: rest) kept.length = .ok (kept ++ rest) := by
  have inside : (0 : Int) ≤ kept.length ∧ (kept.length : Int) < (kept ++ a :: rest).length := by
    rw [List.length_append, List.length_cons]
    omega
  have shrunk : (kept ++ a :: rest).eraseIdx kept.length = kept ++ rest := by
    simp [List.eraseIdx_append_of_length_le]
  unfold eraseAt
  rw [if_pos inside, Int.toNat_natCast, shrunk]

/-- The body, with a fault where the index is not below `limit`. -/
def below (limit : Nat) (body : List α → Int → Except IndexFault (List α × Int)) (v : List α)
    (i : Int) : Except IndexFault (List α × Int) :=
  if 0 ≤ i ∧ i < limit then body v i else .error .outOfRange

/-- What one pass does to the element at the index, up to a limit: it is erased and the index
stepped back, or nothing changes. -/
structure Removes (limit : Nat) (body : List α → Int → Except IndexFault (List α × Int))
    (p : α → Bool) : Prop where
  erases : ∀ kept a rest, kept.length < limit → p a = true →
    body (kept ++ a :: rest) kept.length = .ok (kept ++ rest, kept.length - 1)
  keeps : ∀ kept a rest, kept.length < limit → p a = false →
    body (kept ++ a :: rest) kept.length = .ok (kept ++ a :: rest, kept.length)

variable {body : List α → Int → Except IndexFault (List α × Int)} {p : α → Bool} {limit : Nat}

theorem Removes.below (removes : Removes limit body p) : Removes limit (below limit body) p where
  erases kept a rest inside removed := by
    rw [Library.below, if_pos ⟨by omega, by omega⟩]
    exact removes.erases kept a rest inside removed
  keeps kept a rest inside other := by
    rw [Library.below, if_pos ⟨by omega, by omega⟩]
    exact removes.keeps kept a rest inside other

/-- The loop ends once it has passed every element, and has erased those to be removed. The
elements before the index have been kept. -/
theorem Removes.indexLoop_append (removes : Removes limit body p) (kept rest : List α)
    {fuel : Nat} (enough : rest.length < fuel) (within : (kept ++ rest).length ≤ limit) :
    indexLoop body fuel (kept ++ rest) kept.length =
      .ok (kept ++ rest.filter fun a => !p a) := by
  induction rest generalizing kept fuel with
  | nil =>
    obtain ⟨fuel, rfl⟩ := Nat.exists_eq_succ_of_ne_zero (Nat.ne_of_gt enough)
    unfold indexLoop
    rw [asSize_natCast, List.append_nil, if_neg (Nat.lt_irrefl _), List.filter_nil,
      List.append_nil]
  | cons a rest ih =>
    obtain ⟨fuel, rfl⟩ := Nat.exists_eq_succ_of_ne_zero (Nat.ne_of_gt (Nat.zero_lt_of_lt enough))
    have enough' : rest.length < fuel := Nat.lt_of_succ_lt_succ enough
    rw [List.length_append, List.length_cons] at within
    have inside : kept.length < (kept ++ a :: rest).length := by
      rw [List.length_append, List.length_cons]
      omega
    unfold indexLoop
    rw [asSize_natCast, if_pos inside]
    cases removed : p a with
    | true =>
      rw [removes.erases kept a rest (by omega) removed]
      have next : (kept.length : Int) - 1 + 1 = kept.length := by omega
      have within' : (kept ++ rest).length ≤ limit := by
        rw [List.length_append]
        omega
      dsimp only
      rw [next, ih kept enough' within', List.filter_cons_of_neg (by simp [removed])]
    | false =>
      rw [removes.keeps kept a rest (by omega) removed]
      have next : (kept.length : Int) + 1 = (kept ++ [a]).length := by simp
      have split : kept ++ a :: rest = (kept ++ [a]) ++ rest := by simp
      have within' : ((kept ++ [a]) ++ rest).length ≤ limit := by
        rw [← split, List.length_append, List.length_cons]
        exact within
      dsimp only
      rw [next, split, ih (kept ++ [a]) enough' within',
        List.filter_cons_of_pos (by simp [removed]), List.append_assoc, List.singleton_append]

theorem Removes.indexLoop_eq (removes : Removes limit body p) (v : List α) {fuel : Nat}
    (enough : v.length < fuel) (within : v.length ≤ limit) :
    indexLoop body fuel v 0 = .ok (v.filter fun a => !p a) :=
  removes.indexLoop_append [] v enough within

/-- The body is only run with indexes of the vector: a fault at all the others changes nothing. -/
theorem Removes.indexLoop_below (removes : Removes limit body p) (v : List α) {fuel : Nat}
    (enough : v.length < fuel) (within : v.length ≤ limit) :
    indexLoop (Library.below limit body) fuel v 0 = indexLoop body fuel v 0 :=
  (removes.below.indexLoop_eq v enough within).trans (removes.indexLoop_eq v enough within).symm

end CaceProofs.Library
