import CaceProofs.Library.Codec

/-!
# What a reader accepts

A format is a set of lists. A reader recognises a format if it takes exactly a list of the
format off its input, whatever follows, and fails where the input does not begin with one. As
`Puts` and `Yields` do, this goes along sequence and repetition.
-/
namespace CaceProofs.Library

variable {α β γ δ : Type}

theorem run_bind_eq_some {r : StateT (List α) Option β} {next : β → StateT (List α) Option γ}
    {input rest : List α} {c : γ} : (r >>= next).run input = some (c, rest) ↔
      ∃ b left, r.run input = some (b, left) ∧ (next b).run left = some (c, rest) := by
  rw [StateT.run_bind, Option.bind_eq_bind, Option.bind_eq_some_iff]
  exact Prod.exists

/-- A number of elements of length one. -/
theorem singles_iff {n : Nat} {xs : List α} :
    (∃ items : List (List α), xs = items.flatten ∧ items.length = n ∧
      ∀ item ∈ items, item.length = 1) ↔ xs.length = n := by
  constructor
  · rintro ⟨items, rfl, rfl, single⟩
    rw [List.length_flatten, List.map_congr_left single]
    simp
  · rintro rfl
    have joined : (xs.map fun x => [x]).flatten = xs := by
      rw [← List.flatMap_def, List.flatMap_singleton']
    exact ⟨xs.map fun x => [x], joined.symm, by simp, by simp⟩

/-- The reader takes off the lists of the format and no others. -/
structure Recognises (r : StateT (List α) Option β) (format : List α → Prop) : Prop where
  sound : ∀ {input b rest}, r.run input = some (b, rest) → ∃ xs, input = xs ++ rest ∧ format xs
  complete : ∀ {xs}, format xs → ∀ rest, ∃ b, r.run (xs ++ rest) = some (b, rest)

namespace Recognises

variable {r : StateT (List α) Option β} {format : List α → Prop}

theorem congr {format' : List α → Prop} (recognises : Recognises r format)
    (same : ∀ xs, format xs ↔ format' xs) : Recognises r format' where
  sound read := by
    obtain ⟨xs, split, form⟩ := recognises.sound read
    exact ⟨xs, split, (same xs).mp form⟩
  complete form := recognises.complete ((same _).mpr form)

theorem nothing (b : β) : Recognises (pure b : StateT (List α) Option β) fun xs => xs = [] where
  sound read := by
    obtain ⟨-, rfl⟩ := by simpa using read
    exact ⟨[], rfl, rfl⟩
  complete {xs} empty rest := ⟨b, by simp [empty]⟩

/-- What a reader does after it has taken `n` elements may depend on them. -/
theorem take_bind {n : Nat} {next : { xs : List α // xs.length = n } → StateT (List α) Option β}
    {format : List α → List α → Prop} (after : ∀ xs, Recognises (next xs) (format xs.1)) :
    Recognises (take n >>= next) fun xs =>
      ∃ ys zs, xs = ys ++ zs ∧ ys.length = n ∧ format ys zs where
  sound {input c rest} read := by
    obtain ⟨ys, left, taken, read⟩ := run_bind_eq_some.mp read
    obtain ⟨zs, split, form⟩ := (after ys).sound read
    have head : input = ys.1 ++ left := by
      unfold Library.take at taken
      simp only [StateT.run] at taken
      split at taken
      · obtain ⟨rfl, rfl⟩ := by simpa using taken
        exact (List.take_append_drop n input).symm
      · cases taken
    exact ⟨ys.1 ++ zs, by rw [head, split, List.append_assoc], ys.1, zs, rfl, ys.2, form⟩
  complete {xs} form rest := by
    obtain ⟨ys, zs, rfl, size, form⟩ := form
    obtain ⟨c, read⟩ := (after ⟨ys, size⟩).complete form rest
    have taken := Yields.take ⟨ys, size⟩ (zs ++ rest)
    exact ⟨c, by rw [List.append_assoc]; exact run_bind_eq_some.mpr ⟨_, _, taken, read⟩⟩

theorem take {n : Nat} (f : { xs : List α // xs.length = n } → β) :
    Recognises (do return f (← take n)) fun xs => xs.length = n := by
  have returned := @take_bind α β n (fun ys => pure (f ys)) (fun _ zs => zs = []) fun ys =>
    nothing (f ys)
  apply returned.congr
  intro xs
  constructor
  · rintro ⟨ys, zs, rfl, size, rfl⟩
    rwa [List.append_nil]
  · intro size
    exact ⟨xs, [], (List.append_nil xs).symm, size, rfl⟩

theorem seq {s : StateT (List α) Option γ} {format' : List α → Prop} (f : β → γ → δ)
    (first : Recognises r format) (second : Recognises s format') :
    Recognises (do let b ← r; let c ← s; return f b c) fun xs =>
      ∃ ys zs, xs = ys ++ zs ∧ format ys ∧ format' zs where
  sound {input d rest} read := by
    obtain ⟨b, left, readFirst, read⟩ := run_bind_eq_some.mp read
    obtain ⟨c, left', readSecond, read⟩ := run_bind_eq_some.mp read
    obtain ⟨-, rfl⟩ := by simpa using read
    obtain ⟨ys, rfl, formFirst⟩ := first.sound readFirst
    obtain ⟨zs, rfl, formSecond⟩ := second.sound readSecond
    exact ⟨ys ++ zs, (List.append_assoc _ _ _).symm, ys, zs, rfl, formFirst, formSecond⟩
  complete {xs} form rest := by
    obtain ⟨ys, zs, rfl, formFirst, formSecond⟩ := form
    obtain ⟨b, readFirst⟩ := first.complete formFirst (zs ++ rest)
    obtain ⟨c, readSecond⟩ := second.complete formSecond rest
    refine ⟨f b c, ?_⟩
    rw [List.append_assoc]
    exact run_bind_eq_some.mpr ⟨b, _, readFirst, run_bind_eq_some.mpr ⟨c, _, readSecond, rfl⟩⟩

theorem times (recognises : Recognises r format) (n : Nat) :
    Recognises (times r n) fun xs =>
      ∃ items : List (List α), xs = items.flatten ∧ items.length = n ∧
        ∀ item ∈ items, format item := by
  induction n with
  | zero =>
    apply (nothing []).congr
    intro xs
    constructor
    · rintro rfl
      exact ⟨[], rfl, rfl, by simp⟩
    · rintro ⟨items, rfl, none, -⟩
      rw [List.eq_nil_of_length_eq_zero none, List.flatten_nil]
  | succ n ih =>
    apply (seq List.cons recognises ih).congr
    intro xs
    constructor
    · rintro ⟨item, rest, rfl, form, items, rfl, count, forms⟩
      exact ⟨item :: items, rfl, by rw [List.length_cons, count],
        List.forall_mem_cons.mpr ⟨form, forms⟩⟩
    · rintro ⟨items, rfl, count, forms⟩
      cases items with
      | nil => simp at count
      | cons item items =>
        obtain ⟨form, forms⟩ := List.forall_mem_cons.mp forms
        exact ⟨item, items.flatten, rfl, form, items, rfl, by simpa using count, forms⟩

/-- The reader gets through exactly where the input begins with a list of the format. -/
theorem run'_isSome (recognises : Recognises r format) (input : List α) :
    (r.run' input).isSome ↔ ∃ xs, xs <+: input ∧ format xs := by
  rw [StateT.run'_eq, Option.map_eq_map, Option.isSome_map, Option.isSome_iff_exists]
  constructor
  · rintro ⟨⟨b, rest⟩, read⟩
    obtain ⟨xs, rfl, form⟩ := recognises.sound read
    exact ⟨xs, List.prefix_append xs rest, form⟩
  · rintro ⟨xs, ⟨rest, rfl⟩, form⟩
    obtain ⟨b, read⟩ := recognises.complete form rest
    exact ⟨(b, rest), read⟩

end Recognises

end CaceProofs.Library
