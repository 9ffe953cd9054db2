import Mathlib.Algebra.Group.Nat.Defs
import Mathlib.Data.List.Basic

/-!
# Writers and readers at a cursor

A writer fills a buffer whose length is fixed beforehand, a reader takes a value off what is
left of one. `Puts` says what a writer writes and `NeedsRoom` where it fails, `Yields` what a
reader reads; they are closed under sequence and repetition, so a format is verified along the recursion of its two halves.
-/
namespace CaceProofs.Library

variable {α β γ : Type}

/-- An iterator into a buffer: the elements before it and those from it on. -/
structure Cursor (α : Type) where
  before : List α
  after : List α

namespace Cursor

/-- A buffer with an iterator at an offset. -/
def seek (buffer : List α) (offset : Nat) : Cursor α :=
  ⟨buffer.take offset, buffer.drop offset⟩

def buffer (it : Cursor α) : List α :=
  it.before ++ it.after

/-- Overwrites what stands at the iterator and moves behind it. The buffer does not grow. -/
def put (xs : List α) : StateT (Cursor α) Option PUnit := fun it =>
  if xs.length ≤ it.after.length then
    some (⟨⟩, ⟨it.before ++ xs, it.after.drop xs.length⟩)
  else none

end Cursor

/-- Where there is room for `xs`, the writer writes `xs` and nothing else. -/
def Puts (w : StateT (Cursor α) Option PUnit) (xs : List α) : Prop :=
  ∀ it : Cursor α, xs.length ≤ it.after.length →
    w.run it = some (⟨⟩, ⟨it.before ++ xs, it.after.drop xs.length⟩)

namespace Puts

theorem put (xs : List α) : Puts (Cursor.put xs) xs := by
  intro it room
  simp [Cursor.put, StateT.run, room]

theorem nothing : Puts (pure ⟨⟩) ([] : List α) := by
  intro it _
  simp

theorem seq {v w : StateT (Cursor α) Option PUnit} {xs ys : List α} (first : Puts v xs)
    (second : Puts w ys) : Puts (do v; w) (xs ++ ys) := by
  intro it room
  rw [List.length_append] at room
  have left : ys.length ≤ (it.after.drop xs.length).length := by
    rw [List.length_drop]
    omega
  simp only [StateT.run_bind, first it (by omega), Option.bind_eq_bind, Option.bind_some]
  rw [second _ left, List.append_assoc, List.drop_drop, List.length_append]

theorem forM {w : β → StateT (Cursor α) Option PUnit} {encode : β → List α} {bs : List β}
    (each : ∀ b ∈ bs, Puts (w b) (encode b)) : Puts (bs.forM w) (bs.flatMap encode) := by
  induction bs with
  | nil => exact nothing
  | cons b bs ih =>
    have rest : Puts (bs.forM w) (bs.flatMap encode) :=
      ih fun b' member => each b' (List.mem_cons_of_mem b member)
    rw [List.flatMap_cons]
    exact seq (each b List.mem_cons_self) rest

end Puts

/-- Where there is no room for `xs`, the writer fails. -/
def NeedsRoom (w : StateT (Cursor α) Option PUnit) (xs : List α) : Prop :=
  ∀ it : Cursor α, it.after.length < xs.length → w.run it = none

namespace NeedsRoom

theorem put (xs : List α) : NeedsRoom (Cursor.put xs) xs := by
  intro it small
  simp [Cursor.put, StateT.run, Nat.not_le.mpr small]

theorem nothing : NeedsRoom (pure ⟨⟩) ([] : List α) := by
  intro it small
  simp at small

theorem seq {v w : StateT (Cursor α) Option PUnit} {xs ys : List α} (first : Puts v xs)
    (needs : NeedsRoom v xs) (second : NeedsRoom w ys) : NeedsRoom (do v; w) (xs ++ ys) := by
  intro it small
  rw [List.length_append] at small
  rw [StateT.run_bind]
  by_cases room : xs.length ≤ it.after.length
  · have left : (it.after.drop xs.length).length < ys.length := by
      rw [List.length_drop]
      omega
    rw [first it room, Option.bind_eq_bind, Option.bind_some]
    exact second _ left
  · rw [needs it (by omega)]
    rfl

theorem forM {w : β → StateT (Cursor α) Option PUnit} {encode : β → List α} {bs : List β}
    (each : ∀ b ∈ bs, Puts (w b) (encode b)) (needs : ∀ b ∈ bs, NeedsRoom (w b) (encode b)) :
    NeedsRoom (bs.forM w) (bs.flatMap encode) := by
  induction bs with
  | nil => exact nothing
  | cons b bs ih =>
    have rest : NeedsRoom (bs.forM w) (bs.flatMap encode) := by
      apply ih
      · exact fun b' member => each b' (List.mem_cons_of_mem b member)
      · exact fun b' member => needs b' (List.mem_cons_of_mem b member)
    rw [List.flatMap_cons]
    exact seq (each b List.mem_cons_self) (needs b List.mem_cons_self) rest

end NeedsRoom

/-- The next `n` elements of what is left. -/
def take (n : Nat) : StateT (List α) Option { xs : List α // xs.length = n } := fun rest =>
  if enough : n ≤ rest.length then
    some (⟨rest.take n, List.length_take_of_le enough⟩, rest.drop n)
  else none

/-- `n` values, one after the other. -/
def times (r : StateT (List α) Option β) : Nat → StateT (List α) Option (List β)
  | 0 => pure []
  | n + 1 => do
    let b ← r
    let bs ← times r n
    pure (b :: bs)

/-- Off a buffer that starts with `xs`, whatever follows, the reader takes `xs` and returns `b`. -/
def Yields (r : StateT (List α) Option β) (xs : List α) (b : β) : Prop :=
  ∀ rest, r.run (xs ++ rest) = some (b, rest)

namespace Yields

theorem nothing (b : β) : Yields (pure b) ([] : List α) b := by
  intro rest
  simp

theorem take {n : Nat} (xs : { xs : List α // xs.length = n }) : Yields (take n) xs.1 xs := by
  intro rest
  obtain ⟨xs, rfl⟩ := xs
  simp [Library.take, StateT.run]

theorem bind {r : StateT (List α) Option β} {next : β → StateT (List α) Option γ}
    {xs ys : List α} {b : β} {c : γ} (first : Yields r xs b) (second : Yields (next b) ys c) :
    Yields (r >>= next) (xs ++ ys) c := by
  intro rest
  rw [List.append_assoc, StateT.run_bind, first]
  exact second rest

theorem map {r : StateT (List α) Option β} {xs : List α} {b : β} (reads : Yields r xs b)
    (f : β → γ) : Yields (do return f (← r)) xs (f b) := by
  have last : Yields (do return f (← r)) (xs ++ []) (f b) := bind reads (nothing (f b))
  rwa [List.append_nil] at last

theorem times {r : StateT (List α) Option β} {encode : β → List α} {bs : List β}
    (each : ∀ b ∈ bs, Yields r (encode b) b) :
    Yields (times r bs.length) (bs.flatMap encode) bs := by
  induction bs with
  | nil => exact nothing []
  | cons b bs ih =>
    have rest := ih fun b' member => each b' (List.mem_cons_of_mem b member)
    rw [List.flatMap_cons, List.length_cons, Library.times]
    exact bind (each b List.mem_cons_self) (map rest _)

end Yields

/-- Elements of at least one position each are not more than the positions they take. -/
theorem length_le_flatMap {encode : β → List α} (bs : List β)
    (each : ∀ b ∈ bs, 0 < (encode b).length) : bs.length ≤ (bs.flatMap encode).length := by
  induction bs with
  | nil => exact Nat.zero_le _
  | cons b bs ih =>
    have first := each b List.mem_cons_self
    have rest := ih fun b' member => each b' (List.mem_cons_of_mem b member)
    rw [List.length_cons, List.flatMap_cons, List.length_append]
    omega

theorem length_le_flatMap_of_mem {encode : β → List α} {bs : List β} {b : β}
    (member : b ∈ bs) : (encode b).length ≤ (bs.flatMap encode).length := by
  obtain ⟨before, after, rfl⟩ := List.append_of_mem member
  rw [List.flatMap_append, List.flatMap_cons, List.length_append, List.length_append]
  omega

/-- The bytes of a number in memory, least significant first. -/
def wordBytes : (width : Nat) → Nat → { xs : List UInt8 // xs.length = width }
  | 0, _ => ⟨[], rfl⟩
  | width + 1, n => ⟨UInt8.ofNat n :: (wordBytes width (n / 2 ^ 8)).1, by
      rw [List.length_cons, (wordBytes width _).2]⟩

/-- The number that bytes in memory stand for. -/
def wordValue (xs : List UInt8) : Nat :=
  xs.foldr (fun byte rest => byte.toNat + 2 ^ 8 * rest) 0

theorem wordValue_lt (xs : List UInt8) : wordValue xs < (2 ^ 8) ^ xs.length := by
  induction xs with
  | nil => decide
  | cons byte xs ih =>
    have digit := byte.toNat_lt
    have digits : (2 ^ 8) ^ (xs.length + 1) = 2 ^ 8 * (2 ^ 8) ^ xs.length := Nat.pow_succ'
    unfold wordValue at ih ⊢
    rw [List.length_cons, digits, List.foldr_cons]
    omega

theorem wordValue_wordBytes (width n : Nat) :
    wordValue (wordBytes width n).1 = n % (2 ^ 8) ^ width := by
  induction width generalizing n with
  | zero => simp [wordBytes, wordValue, Nat.mod_one]
  | succ width ih =>
    have digits : (2 ^ 8) ^ (width + 1) = 2 ^ 8 * (2 ^ 8) ^ width := Nat.pow_succ'
    have rest := ih (n / 2 ^ 8)
    unfold wordValue at rest ⊢
    rw [wordBytes, List.foldr_cons, rest, UInt8.toNat_ofNat', digits, Nat.mod_mul]

theorem wordValue_wordBytes_of_lt {width n : Nat} (fits : n < (2 ^ 8) ^ width) :
    wordValue (wordBytes width n).1 = n := by
  rw [wordValue_wordBytes, Nat.mod_eq_of_lt fits]

end CaceProofs.Library
