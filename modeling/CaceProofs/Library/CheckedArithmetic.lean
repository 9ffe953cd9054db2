import Mathlib.Algebra.Group.Nat.Defs
import Mathlib.Algebra.Order.Group.Int
import Mathlib.Algebra.Ring.Int.Defs

/-!
# Checked arithmetic

Signed 64-bit arithmetic in which an overflow is a fault, and the loop that adds up a term of
each element. Terms that are not negative can be added up exactly where their sum fits.
-/
namespace CaceProofs.Library

variable {α : Type}

inductive ArithmeticFault where
  | overflow | divisionByZero
  deriving DecidableEq, Repr

/-- The range of a `long`. -/
def Fits (x : Int) : Prop :=
  -2 ^ 63 ≤ x ∧ x < 2 ^ 63

instance (x : Int) : Decidable (Fits x) :=
  inferInstanceAs (Decidable (_ ∧ _))

/-- A result of type `long`. -/
def checked (x : Int) : Except ArithmeticFault Int :=
  if Fits x then .ok x else .error .overflow

theorem checked_of_fits {x : Int} (fits : Fits x) : checked x = .ok x :=
  if_pos fits

theorem checked_bind_of_fits {β : Type} {x : Int} (next : Int → Except ArithmeticFault β)
    (fits : Fits x) : (checked x >>= next) = next x := by
  rw [checked_of_fits fits]
  rfl

theorem checked_eq_ok {x y : Int} : checked x = .ok y ↔ Fits x ∧ x = y := by
  unfold checked
  by_cases fits : Fits x
  · simp [fits]
  · simp [fits]

/-- Behind a checked operation. -/
theorem checked_bind_eq_ok {β : Type} {x : Int} {next : Int → Except ArithmeticFault β} {b : β} :
    (checked x >>= next) = .ok b ↔ Fits x ∧ next x = .ok b := by
  unfold checked
  by_cases fits : Fits x
  · rw [if_pos fits]
    exact ⟨fun run => ⟨fits, run⟩, fun run => run.2⟩
  · rw [if_neg fits]
    constructor
    · intro run
      cases run
    · intro run
      exact absurd run.1 fits

theorem ok_bind_eq_ok {β γ : Type} {x : Except ArithmeticFault β}
    {next : β → Except ArithmeticFault γ} {c : γ} :
    (x >>= next) = .ok c ↔ ∃ b, x = .ok b ∧ next b = .ok c := by
  cases x with
  | error fault =>
    constructor
    · intro run
      cases run
    · rintro ⟨b, impossible, -⟩
      cases impossible
  | ok b =>
    constructor
    · exact fun run => ⟨b, rfl, run⟩
    · rintro ⟨b', same, run⟩
      cases same
      exact run

/-- `s += term(a)` for each element. -/
def accumulateFrom (term : α → Except ArithmeticFault Int) :
    Int → List α → Except ArithmeticFault Int
  | s, [] => .ok s
  | s, a :: rest => do
    let t ← term a
    let s ← checked (s + t)
    accumulateFrom term s rest

/-- The loop from zero. -/
def accumulate (term : α → Except ArithmeticFault Int) (l : List α) :
    Except ArithmeticFault Int :=
  accumulateFrom term 0 l

section Loop

variable {term : α → Except ArithmeticFault Int} {value : α → Int} {l : List α}

theorem sum_nonneg (nonneg : ∀ a ∈ l, 0 ≤ value a) : 0 ≤ (l.map value).sum := by
  induction l with
  | nil => exact Int.le_refl 0
  | cons a rest ih =>
    have first := nonneg a List.mem_cons_self
    have others := ih fun a' member => nonneg a' (List.mem_cons_of_mem a member)
    rw [List.map_cons, List.sum_cons]
    omega

theorem accumulateFrom_eq_ok (nonneg : ∀ a ∈ l, 0 ≤ value a)
    (exactly : ∀ a ∈ l, ∀ t, term a = .ok t → t = value a) {s r : Int} (start : 0 ≤ s)
    (fits : s < 2 ^ 63) :
    accumulateFrom term s l = .ok r ↔
      (∀ a ∈ l, term a = .ok (value a)) ∧ s + (l.map value).sum < 2 ^ 63 ∧
        r = s + (l.map value).sum := by
  induction l generalizing s with
  | nil =>
    simp only [accumulateFrom, List.map_nil, List.sum_nil, Except.ok.injEq, List.not_mem_nil,
      false_implies, implies_true, true_and]
    omega
  | cons a rest ih =>
    have first := nonneg a List.mem_cons_self
    have nonneg' : ∀ a' ∈ rest, 0 ≤ value a' :=
      fun a' member => nonneg a' (List.mem_cons_of_mem a member)
    have others := sum_nonneg nonneg'
    rw [List.map_cons, List.sum_cons]
    constructor
    · intro run
      rw [accumulateFrom] at run
      cases taken : term a with
      | error fault =>
        rw [taken] at run
        cases run
      | ok t =>
        have same := exactly a List.mem_cons_self t taken
        subst same
        rw [taken] at run
        have step := checked_bind_eq_ok.mp run
        have tail := (ih nonneg' (fun a' member => exactly a' (List.mem_cons_of_mem a member))
          (by omega) step.1.2).mp step.2
        refine ⟨?_, by omega, by omega⟩
        intro a' member
        rcases List.mem_cons.mp member with rfl | member
        · exact taken
        · exact tail.1 a' member
    · rintro ⟨terms, bounded, rfl⟩
      rw [accumulateFrom, terms a List.mem_cons_self]
      refine checked_bind_eq_ok.mpr ⟨⟨by omega, by omega⟩, ?_⟩
      refine (ih nonneg' (fun a' member => exactly a' (List.mem_cons_of_mem a member))
        (by omega) (by omega)).mpr ⟨?_, by omega, by omega⟩
      exact fun a' member => terms a' (List.mem_cons_of_mem a member)

/-- The loop ends with the sum if every term can be computed and the sum fits. -/
theorem accumulate_eq_ok (nonneg : ∀ a ∈ l, 0 ≤ value a)
    (exactly : ∀ a ∈ l, ∀ t, term a = .ok t → t = value a) {r : Int} :
    accumulate term l = .ok r ↔
      (∀ a ∈ l, term a = .ok (value a)) ∧ (l.map value).sum < 2 ^ 63 ∧
        r = (l.map value).sum := by
  have whole := accumulateFrom_eq_ok nonneg exactly (r := r) (le_refl 0) (by decide)
  rwa [Int.zero_add] at whole

theorem accumulate_map_eq_ok {β : Type} {g : Int → β} (nonneg : ∀ a ∈ l, 0 ≤ value a)
    (exactly : ∀ a ∈ l, ∀ t, term a = .ok t → t = value a) {b : β} :
    (do return g (← accumulate term l)) = (.ok b : Except ArithmeticFault β) ↔
      (∀ a ∈ l, term a = .ok (value a)) ∧ (l.map value).sum < 2 ^ 63 ∧
        b = g (l.map value).sum := by
  constructor
  · intro run
    cases sum : accumulate term l with
    | error fault =>
      rw [sum] at run
      cases run
    | ok s =>
      rw [sum] at run
      obtain ⟨terms, fits, rfl⟩ := (accumulate_eq_ok nonneg exactly).mp sum
      injection run with same
      exact ⟨terms, fits, same.symm⟩
  · rintro ⟨terms, fits, rfl⟩
    rw [(accumulate_eq_ok nonneg exactly).mpr ⟨terms, fits, rfl⟩]
    rfl

end Loop

end CaceProofs.Library
