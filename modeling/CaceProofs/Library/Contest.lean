import Mathlib.Data.List.Basic
import Mathlib.Data.List.Induction
import Mathlib.Order.Lattice

/-!
# Contests

A place is contested by a list of challengers, one after the other: whoever is preferred to
its holder takes it. Where the preference compares scores, the holder at the end is the first
of the best.
-/
namespace CaceProofs.Library

section Contest

variable {α : Type} {prefers prefers' : α → α → Bool} {own a w : α} {l : List α}

/-- The challenger that holds the place in the end; `none` if `own` still has it. -/
def contest (prefers : α → α → Bool) (own : α) (l : List α) : Option α :=
  l.foldl (fun w a => if prefers (w.getD own) a then some a else w) none

@[simp] theorem contest_nil : contest prefers own [] = none := rfl

theorem contest_append (prefers : α → α → Bool) (own : α) (l : List α) (a : α) :
    contest prefers own (l ++ [a]) =
      if prefers ((contest prefers own l).getD own) a then some a else contest prefers own l := by
  unfold contest
  rw [List.foldl_append]
  rfl

theorem contest_mem (won : contest prefers own l = some w) : w ∈ l := by
  induction l using List.reverseRecOn with
  | nil => cases won
  | append_singleton l a ih =>
    rw [contest_append] at won
    split at won
    · obtain rfl := Option.some.inj won
      simp
    · exact List.mem_append_left _ (ih won)

/-- The holder is `own` or one of the challengers. -/
theorem contest_holder (prefers : α → α → Bool) (own : α) (l : List α) :
    (contest prefers own l).getD own ∈ own :: l := by
  cases won : contest prefers own l with
  | none => exact List.mem_cons_self
  | some w => exact List.mem_cons_of_mem _ (contest_mem won)

/-- Only the preferences between earlier and later ones matter. -/
theorem contest_congr (agree : (own :: l).Pairwise fun x a => prefers x a = prefers' x a) :
    contest prefers own l = contest prefers' own l := by
  induction l using List.reverseRecOn with
  | nil => rfl
  | append_singleton l a ih =>
    rw [← List.cons_append, List.pairwise_append] at agree
    obtain ⟨earlier, -, last⟩ := agree
    have same := last _ (contest_holder prefers own l) a (List.mem_singleton_self a)
    rw [contest_append, contest_append, ← ih earlier, same]

/-- If every challenger is preferred, the last one wins. -/
theorem contest_last (always : ∀ x a, prefers x a = true) :
    contest prefers own (l ++ [a]) = some a := by
  rw [contest_append, if_pos (always _ a)]

theorem contest_never (never : ∀ x a, prefers x a = false) : contest prefers own l = none := by
  induction l using List.reverseRecOn with
  | nil => rfl
  | append_singleton l a ih => rw [contest_append, never, ih, if_neg Bool.false_ne_true]

end Contest

section Scores

variable {α β : Type} [LinearOrder β] {score : α → β} {eligible : α → Bool} {own w : α}
  {l l' : List α}

/-- An eligible challenger of a greater score is preferred. -/
def scored (score : α → β) (eligible : α → Bool) (holder a : α) : Bool :=
  eligible a && decide (score holder < score a)

/-- The first of the eligible challengers with the greatest score, above that of `own`. -/
structure FirstBest (score : α → β) (eligible : α → Bool) (own : α) (l : List α) (w : α) :
    Prop where
  suits : eligible w = true
  above : score own < score w
  first : ∃ before after, l = before ++ w :: after ∧
    (∀ a ∈ before, eligible a = true → score a < score w) ∧
    ∀ a ∈ after, eligible a = true → score a ≤ score w

namespace FirstBest

theorem mem (best : FirstBest score eligible own l w) : w ∈ l := by
  obtain ⟨before, after, rfl, -, -⟩ := best.first
  simp

theorem le (best : FirstBest score eligible own l w) :
    ∀ a ∈ l, eligible a = true → score a ≤ score w := by
  obtain ⟨before, after, rfl, less, le⟩ := best.first
  intro a member suits
  rcases List.mem_append.mp member with early | rest
  · exact le_of_lt (less a early suits)
  · rcases List.mem_cons.mp rest with rfl | late
    · exact le_refl _
    · exact le a late suits

end FirstBest

/-- Who holds the place in the end. -/
inductive Outcome (score : α → β) (eligible : α → Bool) (own : α) (l : List α) :
    Option α → Prop where
  | kept (best : ∀ a ∈ l, eligible a = true → score a ≤ score own) :
      Outcome score eligible own l none
  | taken {w : α} (best : FirstBest score eligible own l w) :
      Outcome score eligible own l (some w)

theorem contest_outcome (score : α → β) (eligible : α → Bool) (own : α) (l : List α) :
    Outcome score eligible own l (contest (scored score eligible) own l) := by
  induction l using List.reverseRecOn with
  | nil => exact .kept (by simp)
  | append_singleton l a ih =>
    rw [contest_append]
    by_cases preferred : scored score eligible ((contest (scored score eligible) own l).getD own) a
    · rw [if_pos preferred]
      obtain ⟨suits, less⟩ : eligible a = true ∧
          score ((contest (scored score eligible) own l).getD own) < score a := by
        simpa [scored] using preferred
      cases won : contest (scored score eligible) own l with
      | none =>
        rw [won] at ih less
        cases ih with
        | kept best =>
          exact .taken ⟨suits, less, l, [], rfl,
            fun b member fits => lt_of_le_of_lt (best b member fits) less, by simp⟩
      | some w =>
        rw [won] at ih less
        cases ih with
        | taken best =>
          exact .taken ⟨suits, lt_trans best.above less, l, [], rfl,
            fun b member fits => lt_of_le_of_lt (best.le b member fits) less, by simp⟩
    · rw [if_neg preferred]
      have below : eligible a = true →
          score a ≤ score ((contest (scored score eligible) own l).getD own) := by
        simpa [scored] using preferred
      cases won : contest (scored score eligible) own l with
      | none =>
        rw [won] at ih below
        cases ih with
        | kept best =>
          refine .kept fun b member fits => ?_
          rcases List.mem_append.mp member with old | last
          · exact best b old fits
          · obtain rfl := List.mem_singleton.mp last
            exact below fits
      | some w =>
        rw [won] at ih below
        cases ih with
        | taken best =>
          obtain ⟨before, after, rfl, less, le⟩ := best.first
          refine .taken ⟨best.suits, best.above, before, after ++ [a], by simp, less, ?_⟩
          intro b member fits
          rcases List.mem_append.mp member with old | last
          · exact le b old fits
          · obtain rfl := List.mem_singleton.mp last
            exact below fits

theorem contest_taken (won : contest (scored score eligible) own l = some w) :
    FirstBest score eligible own l w := by
  have outcome := contest_outcome score eligible own l
  rw [won] at outcome
  cases outcome with
  | taken best => exact best

theorem contest_kept (kept : contest (scored score eligible) own l = none) :
    ∀ a ∈ l, eligible a = true → score a ≤ score own := by
  have outcome := contest_outcome score eligible own l
  rw [kept] at outcome
  cases outcome with
  | kept best => exact best

/-- Two orders of the same challengers keep or lose the place together, to equal scores. -/
theorem contest_perm (same : ∀ a, a ∈ l ↔ a ∈ l') :
    (contest (scored score eligible) own l = none ∧
        contest (scored score eligible) own l' = none) ∨
      ∃ w w', contest (scored score eligible) own l = some w ∧
        contest (scored score eligible) own l' = some w' ∧ score w = score w' := by
  cases won : contest (scored score eligible) own l with
  | none =>
    cases won' : contest (scored score eligible) own l' with
    | none => exact .inl ⟨rfl, rfl⟩
    | some w' =>
      have best := contest_taken won'
      have below := contest_kept won w' ((same w').mpr best.mem) best.suits
      exact absurd best.above (not_lt.mpr below)
  | some w =>
    have best := contest_taken won
    cases won' : contest (scored score eligible) own l' with
    | none =>
      have below := contest_kept won' w ((same w).mp best.mem) best.suits
      exact absurd best.above (not_lt.mpr below)
    | some w' =>
      have best' := contest_taken won'
      exact .inr ⟨w, w', rfl, rfl,
        le_antisymm (best'.le w ((same w).mp best.mem) best.suits)
          (best.le w' ((same w').mpr best'.mem) best'.suits)⟩

/-- A best challenger in front of the others wins. -/
theorem contest_cons (suits : eligible w = true) (above : score own < score w)
    (best : ∀ a ∈ l, eligible a = true → score a ≤ score w) :
    contest (scored score eligible) own (w :: l) = some w := by
  induction l using List.reverseRecOn with
  | nil => simp [contest, scored, suits, above]
  | append_singleton l a ih =>
    have here := ih fun b member => best b (List.mem_append_left _ member)
    have last := best a (by simp)
    rw [← List.cons_append, contest_append, here]
    refine if_neg ?_
    simpa [scored] using last

end Scores

end CaceProofs.Library
