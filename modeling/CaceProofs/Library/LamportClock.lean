import Mathlib.Order.Basic

/-!
# Lamport clocks on a machine word

A Lamport clock kept in a word of `bound` values. `tick` is the increment before
a send, `witness` the catch-up after a receive: it raises the clock above a seen
time only if the clock is strictly behind it. Both wrap at `bound`.

`wraps` counts the overflows. No operation reads it; it is the history variable
that lets a statement say "as long as nothing has wrapped".
-/
namespace CaceProofs.Library

structure LamportClock (bound : Nat) where
  time : Nat
  wraps : Nat := 0
  deriving DecidableEq, Repr

namespace LamportClock

variable {bound : Nat}

/-- Assignment of a computed time to the word. -/
def setTime (c : LamportClock bound) (t : Nat) : LamportClock bound :=
  if t < bound then { c with time := t } else { time := t % bound, wraps := c.wraps + 1 }

def tick (c : LamportClock bound) : LamportClock bound :=
  c.setTime (c.time + 1)

def witness (c : LamportClock bound) (seen : Nat) : LamportClock bound :=
  if c.time < seen then c.setTime (seen + 1) else c

/-- `c ≤ d`: if `d` has never wrapped then neither has `c`, and `d` reads no less. -/
instance : Preorder (LamportClock bound) where
  le c d := d.wraps = 0 → c.wraps = 0 ∧ c.time ≤ d.time
  le_refl _ h := ⟨h, Nat.le_refl _⟩
  le_trans _ _ _ hab hbc h :=
    have hb := hbc h
    have ha := hab hb.1
    ⟨ha.1, Nat.le_trans ha.2 hb.2⟩

theorem setTime_unwrapped {c : LamportClock bound} {t : Nat} (h : (c.setTime t).wraps = 0) :
    c.wraps = 0 ∧ (c.setTime t).time = t := by
  unfold setTime at h ⊢
  split at h
  next fits => simpa [fits] using h
  next => simp at h

theorem le_setTime {c : LamportClock bound} {t : Nat} (ahead : c.time ≤ t) : c ≤ c.setTime t := by
  intro h
  obtain ⟨unwrapped, reads⟩ := setTime_unwrapped h
  exact ⟨unwrapped, by omega⟩

theorem le_tick (c : LamportClock bound) : c ≤ c.tick :=
  le_setTime (Nat.le_succ _)

theorem le_witness (c : LamportClock bound) (seen : Nat) : c ≤ c.witness seen := by
  unfold witness
  split
  · exact le_setTime (by omega)
  · exact le_refl c

/-- An unwrapped tick reads one more. -/
theorem tick_time {c : LamportClock bound} (h : c.tick.wraps = 0) : c.tick.time = c.time + 1 :=
  (setTime_unwrapped h).2

/-- After witnessing a time the clock is not behind it. -/
theorem le_witness_time {c : LamportClock bound} {seen : Nat} (h : (c.witness seen).wraps = 0) :
    seen ≤ (c.witness seen).time := by
  unfold witness at h ⊢
  split at h
  next behind =>
    rw [if_pos behind, (setTime_unwrapped h).2]
    omega
  next ahead =>
    rw [if_neg ahead]
    omega

/-- The exact reading after witnessing a time. -/
theorem witness_time {c : LamportClock bound} {seen : Nat} (h : (c.witness seen).wraps = 0) :
    (c.witness seen).time = if c.time < seen then seen + 1 else c.time := by
  unfold witness at h ⊢
  split at h
  next behind => simp only [if_pos behind, (setTime_unwrapped h).2]
  next ahead => simp only [if_neg ahead]

/-- A clock that is not at its end reads one more after a tick. -/
theorem tick_fits {c : LamportClock bound} (fits : c.time + 1 < bound) :
    c.tick.time = c.time + 1 := by
  rw [tick, setTime, if_pos fits]

theorem witness_fits {c : LamportClock bound} {seen : Nat} (fits : seen + 1 < bound) :
    (c.witness seen).time = if c.time < seen then seen + 1 else c.time := by
  rw [witness, setTime, if_pos fits]
  split <;> rfl

end LamportClock

end CaceProofs.Library
