import Mathlib.Data.List.Basic

/-!
# Taking elements out of a linked list through an iterator

`while (it != l.end()) { if (p(*it)) { ret.push_back(*it); tmp = it; it--; l.erase(tmp); }
it++; }`. An iterator is its distance from `begin()`. Decrementing `begin()` has no
meaning, so the loop ends there with a fault. Fuel bounds the number of passes, and a
loop that is still running when it is used up says so.
-/
namespace CaceProofs.Library

inductive IteratorFault where
  | beforeBegin
  | unfinished
  deriving DecidableEq, Repr

variable {α : Type}

def takeLoop (p : α → Bool) :
    Nat → List α → List α → Nat → Except IteratorFault (List α × List α)
  | 0, _, _, _ => .error .unfinished
  | fuel + 1, ret, queue, it =>
    match queue[it]? with
    | none => .ok (ret, queue)
    | some a =>
      if p a then
        match it with
        | 0 => .error .beforeBegin
        | before + 1 => takeLoop p fuel (ret ++ [a]) (queue.eraseIdx (before + 1)) (before + 1)
      else takeLoop p fuel ret queue (it + 1)

/-- The loop from its start. -/
def takeIf (p : α → Bool) (fuel : Nat) (queue : List α) :
    Except IteratorFault (List α × List α) :=
  takeLoop p fuel [] queue 0

/-- Behind an element that stays, the loop has somewhere to step back to. -/
theorem takeLoop_append (p : α → Bool) (ret kept rest : List α) {fuel : Nat}
    (behind : 0 < kept.length) (enough : rest.length < fuel) :
    takeLoop p fuel ret (kept ++ rest) kept.length
      = .ok (ret ++ rest.filter p, kept ++ rest.filter fun a => !p a) := by
  induction rest generalizing ret kept fuel with
  | nil =>
    obtain ⟨fuel, rfl⟩ := Nat.exists_eq_succ_of_ne_zero (Nat.ne_of_gt enough)
    simp [takeLoop]
  | cons a rest ih =>
    obtain ⟨fuel, rfl⟩ := Nat.exists_eq_succ_of_ne_zero (Nat.ne_of_gt (Nat.zero_lt_of_lt enough))
    have enough : rest.length < fuel := by simpa using enough
    have here : (kept ++ a :: rest)[kept.length]? = some a := by simp
    obtain ⟨before, stepsBack⟩ := Nat.exists_eq_succ_of_ne_zero (Nat.ne_of_gt behind)
    simp only [takeLoop, here]
    by_cases taken : p a
    · have shrunk : (kept ++ a :: rest).eraseIdx kept.length = kept ++ rest := by
        simp [List.eraseIdx_append_of_length_le]
      simp only [taken, if_true, stepsBack]
      rw [← Nat.succ_eq_add_one, ← stepsBack, shrunk, ih _ kept behind enough]
      simp [taken]
    · have next := ih ret (kept ++ [a]) (by simp) enough
      simp only [List.append_assoc, List.singleton_append, List.length_append,
        List.length_singleton] at next
      rw [if_neg taken, next]
      simp [taken]

/-- The first element decides: the loop must not take it. -/
theorem takeIf_eq (p : α → Bool) (queue : List α) {fuel : Nat} (enough : queue.length < fuel) :
    takeIf p fuel queue
      = if queue.head?.any p then .error .beforeBegin
        else .ok (queue.filter p, queue.filter fun a => !p a) := by
  obtain ⟨fuel, rfl⟩ := Nat.exists_eq_succ_of_ne_zero (Nat.ne_of_gt (Nat.zero_lt_of_lt enough))
  cases queue with
  | nil => simp [takeIf, takeLoop]
  | cons a rest =>
    by_cases taken : p a
    · simp [takeIf, takeLoop, taken]
    · have enough : rest.length < fuel := by simpa using enough
      have behind := takeLoop_append p [] [a] rest (by simp) enough
      simp only [List.singleton_append, List.length_singleton, List.nil_append] at behind
      simp [takeIf, takeLoop, taken, behind]

end CaceProofs.Library
