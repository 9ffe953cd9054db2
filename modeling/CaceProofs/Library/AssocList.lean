import Mathlib.Data.List.Basic

/-!
# Ordered association lists

A map as a list of key/value pairs in key order, with insertion of an absent key
and replacement of a present one. `List.lookup` is the read.
-/
namespace CaceProofs.Library

variable {α β : Type} [DecidableEq α]

/-- Inserts a pair before the first larger key. -/
def insertOrdered [LT α] [DecidableLT α] (k : α) (v : β) : List (α × β) → List (α × β)
  | [] => [(k, v)]
  | e :: es => if k < e.1 then (k, v) :: e :: es else e :: insertOrdered k v es

/-- Replaces the value stored under a key; a missing key stays missing. -/
def replaceValue (k : α) (v : β) (es : List (α × β)) : List (α × β) :=
  es.map fun e => if e.1 = k then (e.1, v) else e

variable [BEq α] [LawfulBEq α]

theorem lookup_cons_if {k q : α} {v : β} {es : List (α × β)} :
    ((k, v) :: es).lookup q = if q = k then some v else es.lookup q := by
  rw [List.lookup_cons]
  by_cases same : q = k
  · simp [same]
  · simp [beq_eq_false_iff_ne.mpr same, same]

theorem lookup_insertOrdered [LT α] [DecidableLT α] {k q : α} {v : β} {es : List (α × β)}
    (absent : es.lookup k = none) :
    (insertOrdered k v es).lookup q = if q = k then some v else es.lookup q := by
  induction es with
  | nil => simp [insertOrdered, lookup_cons_if]
  | cons head tail ih =>
    obtain ⟨key, value⟩ := head
    rw [lookup_cons_if] at absent
    have different : k ≠ key := by
      intro same
      simp [same] at absent
    rw [if_neg different] at absent
    unfold insertOrdered
    split
    · exact lookup_cons_if
    · rw [lookup_cons_if, lookup_cons_if, ih absent]
      by_cases atHead : q = key
      · simp [atHead, Ne.symm different]
      · simp [atHead]

theorem lookup_replaceValue {k q : α} {v : β} {es : List (α × β)} :
    (replaceValue k v es).lookup q =
      if q = k then (es.lookup k).map (fun _ => v) else es.lookup q := by
  induction es with
  | nil => simp [replaceValue]
  | cons head tail ih =>
    obtain ⟨key, value⟩ := head
    have unfolded : replaceValue k v ((key, value) :: tail) =
        (key, if key = k then v else value) :: replaceValue k v tail := by
      by_cases keyed : key = k <;> simp [replaceValue, keyed]
    rw [unfolded, lookup_cons_if, lookup_cons_if, lookup_cons_if, ih]
    by_cases atKey : q = k
    · subst q
      by_cases keyed : k = key <;> simp [keyed]
    · by_cases atHead : q = key
      · have away : key ≠ k := fun same => atKey (atHead.trans same)
        simp [atHead, away]
      · simp [atKey, atHead]

end CaceProofs.Library
