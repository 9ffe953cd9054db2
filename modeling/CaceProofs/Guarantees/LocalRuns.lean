import Mathlib.Logic.Function.Basic
import CaceProofs.Source.System

/-!
# What one agent sees of a run of the system

Every run of the system is a run of each of its agents.
-/
namespace CaceProofs.Guarantees
open Source Library

/-- An event of the system as one of the agent it happens to. -/
def localEvent (id : Int) : System.Event → Option (Readings × Cace.Event)
  | .call i r e => if i = id then some (r, e) else none
  | .deliver i r m | .duplicate i r m => if i = id then some (r, .handle m) else none
  | .lose _ _ => none

/-- The events of a trace that happen to an agent, with its states before them. -/
def localTrace (id : Int) (trace : List (System × System.Event)) :
    List (Cace × Readings × Cace.Event) :=
  trace.filterMap fun p => (localEvent id p.2).map fun e => (p.1.agents id, e)

/-- A call happens to its agent only. -/
theorem local_call {P : Readings × Cace.Event → Prop} {i id : Int} {r : Readings}
    {e : Cace.Event} (here : i = id → P (r, e)) : ∀ l ∈ localEvent id (.call i r e), P l := by
  intro l event
  obtain ⟨same, rfl⟩ : i = id ∧ (r, e) = l := by simpa [localEvent] using event
  exact here same

/-- A delivery happens to its receiver only. -/
theorem local_deliver {P : Readings × Cace.Event → Prop} {i id : Int} {r : Readings}
    {m : Message} (here : i = id → P (r, .handle m)) :
    ∀ l ∈ localEvent id (.deliver i r m), P l := by
  intro l event
  obtain ⟨same, rfl⟩ : i = id ∧ (r, Cace.Event.handle m) = l := by
    simpa [localEvent] using event
  exact here same

/-- One event of the system: the agent it happens to makes a step, the others stay. -/
theorem system_next {s s' : System} {e : System.Event} (next : s.Next e s') (id : Int) :
    match localEvent id e with
    | some l => (s.agents id).Next l (s'.agents id)
    | none => s'.agents id = s.agents id := by
  have committed : ∀ (t : System) (i : Int) (c : Cace),
      (t.commit i c).agents id = if i = id then c else t.agents id := by
    intro t i c
    by_cases here : i = id
    · subst here
      simp [System.commit]
    · rw [if_neg here]
      exact Function.update_of_ne (Ne.symm here) _ _
  unfold System.Next System.exec at next
  cases e with
  | call i r e =>
    dsimp only at next
    split at next
    next known =>
      split at next
      next => cases next
      next notHandled =>
        split at next
        next c done =>
          obtain rfl := Option.some.inj next
          rw [committed]
          by_cases here : i = id
          · subst here
            simpa [localEvent, Cace.Next] using done
          · simp [localEvent, here]
        next => cases next
    next => cases next
  | deliver i r m =>
    dsimp only at next
    split at next
    · obtain rfl := Option.some.inj next
      rw [committed]
      by_cases here : i = id
      · subst here
        simp [localEvent, Cace.Next, Cace.exec]
      · simp [localEvent, here]
    · cases next
  | duplicate i r m =>
    dsimp only at next
    split at next
    · obtain rfl := Option.some.inj next
      rw [committed]
      by_cases here : i = id
      · subst here
        simp [localEvent, Cace.Next, Cace.exec]
      · simp [localEvent, here]
    · cases next
  | lose i m =>
    dsimp only at next
    split at next
    · obtain rfl := Option.some.inj next
      rfl
    · cases next

theorem localTrace_append (id : Int) (trace : List (System × System.Event)) (s : System)
    (e : System.Event) : localTrace id (trace ++ [(s, e)]) = localTrace id trace ++
      ((localEvent id e).map fun l => (s.agents id, l)).toList := by
  unfold localTrace
  rw [List.filterMap_append]
  cases event : localEvent id e <;> simp [event]

/-- The run that an agent sees. -/
theorem local_runs {start s : System} {trace : List (System × System.Event)}
    (run : start.Runs trace s) (id : Int) :
    (start.agents id).Runs (localTrace id trace) (s.agents id) := by
  induction run with
  | nil => exact .nil
  | @step trace s s' e run next ih =>
    have step := system_next next id
    rw [localTrace_append]
    cases event : localEvent id e with
    | none =>
      rw [event] at step
      simpa [step] using ih
    | some l =>
      rw [event] at step
      exact ih.step step

end CaceProofs.Guarantees
