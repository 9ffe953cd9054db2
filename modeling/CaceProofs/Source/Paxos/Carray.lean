import Mathlib.Algebra.Group.Nat.Defs

/-!
# The queue of values

The queue of `carray.c`, a ring in an array that doubles when it is full. Nothing is left of it
where the code would read or write outside the array, read a cell that was never written or
pass an int.
-/
namespace CaceProofs.Source.Paxos

/-- A cell that no push has written holds nothing. -/
structure Carray (α : Type) where
  head : Nat
  tail : Nat
  size : Nat
  count : Nat
  array : List (Option α)

namespace Carray

variable {α σ : Type}

/-- `carray_new`. -/
def new (size : Nat) : Carray α := ⟨0, 0, size, 0, .replicate size none⟩

def empty (a : Carray α) : Bool := a.count == 0

def full (a : Carray α) : Bool := a.count == a.size

/-- `carray_at`. -/
def valueAt (a : Carray α) (i : Nat) : Option α :=
  if a.head + i < 2 ^ 31 then (a.array[(a.head + i) % a.size]?).join else none

/-- What `carray_push_back` does once the array is not full. -/
def write (a : Carray α) (x : α) : Option (Carray α) :=
  if a.tail < a.array.length then
    some { a with
      array := a.array.set a.tail (some x)
      tail := (a.tail + 1) % a.size
      count := a.count + 1 }
  else none

/-- The loop of `carray_grow`, by the push that it calls. -/
def copy (push : Carray α → α → Option (Carray α)) (a : Carray α) :
    List Nat → Carray α → Option (Carray α)
  | [], tmp => some tmp
  | i :: rest, tmp => (a.valueAt i).bind fun x => (push tmp x).bind (copy push a rest)

/-- `carray_grow`. -/
def grow (push : Carray α → α → Option (Carray α)) (a : Carray α) : Option (Carray α) :=
  if a.size * 2 < 2 ^ 31 then
    (copy push a (List.range a.count) (new (a.size * 2))).map fun tmp =>
      { a with head := 0, tail := tmp.tail, size := tmp.size, array := tmp.array }
  else none

/-- `carray_push_back`, which `carray_grow` calls in turn, by the calls that may be open. -/
def pushBackWithin : Nat → Carray α → α → Option (Carray α)
  | 0, _, _ => none
  | calls + 1, a, x =>
    (if a.full then a.grow (pushBackWithin calls) else some a).bind (·.write x)

def pushBack (a : Carray α) (x : α) : Option (Carray α) := pushBackWithin 2 a x

/-- `carray_pop_front`: the null pointer of an empty queue, or its first value. -/
def popFront (a : Carray α) : Option (Option α × Carray α) :=
  if a.empty then some (none, a)
  else (a.array[a.head]?).join.map fun x =>
    (some x, { a with head := (a.head + 1) % a.size, count := a.count - 1 })

/-- The loop of `carray_foreach`. -/
def foreachLoop (cb : σ → α → σ) (a : Carray α) : List Nat → σ → Option σ
  | [], s => some s
  | i :: rest, s => (a.valueAt i).bind fun x => foreachLoop cb a rest (cb s x)

def foreach (cb : σ → α → σ) (a : Carray α) (s : σ) : Option σ :=
  foreachLoop cb a (List.range a.count) s

end Carray

end CaceProofs.Source.Paxos
