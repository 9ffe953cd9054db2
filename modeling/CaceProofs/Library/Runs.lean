import Mathlib.Logic.Relation

/-!
# Runs

A transition system given by its step relation, and its runs: the events with the
states before them. What every allowed step keeps, every run of allowed steps keeps.
-/
namespace CaceProofs.Library

variable {State Event : Type}

inductive Run (Next : State → Event → State → Prop) (start : State) :
    List (State × Event) → State → Prop
  | nil : Run Next start [] start
  | step {trace : List (State × Event)} {s s' : State} {e : Event}
      (run : Run Next start trace s) (next : Next s e s') :
      Run Next start (trace ++ [(s, e)]) s'

namespace Run

variable {Next : State → Event → State → Prop} {start s : State} {trace : List (State × Event)}

/-- The induction over a run: what every allowed step carries on, of the history and the
state. -/
theorem carries (Holds : List (State × Event) → State → Prop) {allowed : State → Event → Prop}
    (run : Run Next start trace s)
    (keeps : ∀ trace s e s', Run Next start trace s → allowed s e → Next s e s' →
      Holds trace s → Holds (trace ++ [(s, e)]) s')
    (all : ∀ p ∈ trace, allowed p.1 p.2) (init : Holds [] start) : Holds trace s := by
  induction run with
  | nil => exact init
  | @step trace s s' e run next ih =>
    have before := ih fun p member => all p (List.mem_append_left _ member)
    exact keeps trace s e s' run (all (s, e) (by simp)) next before

/-- An invariant of the allowed steps. -/
theorem preserves {Inv : State → Prop} {allowed : State → Event → Prop}
    (run : Run Next start trace s) (keeps : ∀ s e s', allowed s e → Next s e s' → Inv s → Inv s')
    (all : ∀ p ∈ trace, allowed p.1 p.2) (init : Inv start) : Inv s :=
  run.carries (fun _ s => Inv s) (fun _ s e s' _ => keeps s e s') all init

/-- A property of the history and the state that holds from the start holds in every state
of a run of allowed events exactly if every step meets what the property needs of it. -/
theorem throughout_iff {allowed : State → Event → Prop}
    {Holds : List (State × Event) → State → Prop}
    {meets : List (State × Event) → State → Event → Prop}
    (steps : ∀ trace s e s', Run Next start trace s → (∀ p ∈ trace, allowed p.1 p.2) →
      allowed s e → Next s e s' → Holds trace s →
      (Holds (trace ++ [(s, e)]) s' ↔ meets trace s e))
    (run : Run Next start trace s) (all : ∀ p ∈ trace, allowed p.1 p.2) (init : Holds [] start) :
    ((∀ before p, before ++ [p] <+: trace → Holds before p.1) ∧ Holds trace s) ↔
      ∀ before p, before ++ [p] <+: trace → meets before p.1 p.2 := by
  induction run with
  | nil => simp [init]
  | @step trace s s' e run next ih =>
    have allBefore : ∀ p ∈ trace, allowed p.1 p.2 := fun p member =>
      all p (List.mem_append_left _ member)
    have last := steps trace s e s' run allBefore (all (s, e) (by simp)) next
    have inner : ∀ {l : List (State × Event)}, l <+: trace → l <+: trace ++ [(s, e)] :=
      fun short => short.trans (List.prefix_append _ _)
    constructor
    · rintro ⟨earlier, final⟩ before p first
      have holds := earlier trace (s, e) List.prefix_rfl
      rcases List.prefix_concat_iff.mp first with whole | short
      · obtain ⟨rfl, rfl⟩ : before = trace ∧ p = (s, e) := by simpa using whole
        exact (last holds).mp final
      · exact (ih allBefore).mp
          ⟨fun before p short => earlier before p (inner short), holds⟩ before p short
    · intro met
      obtain ⟨earlier, holds⟩ :=
        (ih allBefore).mpr fun before p short => met before p (inner short)
      refine ⟨fun before p first => ?_, ?_⟩
      · rcases List.prefix_concat_iff.mp first with whole | short
        · obtain ⟨rfl, rfl⟩ : before = trace ∧ p = (s, e) := by simpa using whole
          exact holds
        · exact earlier before p short
      · exact (last holds).mpr (met trace (s, e) List.prefix_rfl)

/-- The same of an invariant of the states alone. -/
theorem everywhere_iff {Inv : State → Prop} {meets : State → Event → Prop}
    (steps : ∀ s e s', Next s e s' → Inv s → (Inv s' ↔ meets s e)) (run : Run Next start trace s)
    (init : Inv start) :
    ((∀ p ∈ trace, Inv p.1) ∧ Inv s) ↔ ∀ p ∈ trace, meets p.1 p.2 := by
  induction run with
  | nil => simp [init]
  | @step trace s s' e run next ih =>
    simp only [List.forall_mem_append, List.forall_mem_singleton]
    rw [← ih]
    exact and_congr_right fun holds => steps s e s' next holds.2

/-- A run split at one of its events. -/
theorem split {p : State × Event} (run : Run Next start trace s) (member : p ∈ trace) :
    ∃ before after s', Run Next start before p.1 ∧ Next p.1 p.2 s' ∧
      trace = before ++ p :: after ∧ Run Next s' after s := by
  induction run with
  | nil => simp at member
  | @step trace s s' e run next ih =>
    rcases List.mem_append.mp member with earlier | last
    · obtain ⟨before, after, mid, first, here, equal, rest⟩ := ih earlier
      exact ⟨before, after ++ [(s, e)], mid, first, here, by simp [equal], rest.step next⟩
    · obtain rfl : p = (s, e) := by simpa using last
      exact ⟨trace, [], s', run, next, rfl, .nil⟩

/-- The run up to one of its events. -/
theorem upTo {before : List (State × Event)} {p : State × Event} (run : Run Next start trace s)
    (first : before ++ [p] <+: trace) : Run Next start before p.1 := by
  induction run with
  | nil => simp at first
  | @step trace s s' e run next ih =>
    rcases List.prefix_concat_iff.mp first with whole | short
    · obtain ⟨rfl, rfl⟩ : before = trace ∧ p = (s, e) := by simpa using whole
      exact run
    · exact ih short

end Run

/-- Runs a list of events where the next state is computed. -/
def play (next : State → Event → Option State) (trace : List (State × Event)) (s : State) :
    List Event → Option (List (State × Event) × State)
  | [] => some (trace, s)
  | e :: events =>
    match next s e with
    | some s' => play next (trace ++ [(s, e)]) s' events
    | none => none

/-- What `play` computes is a run, and its events are those of the list. -/
theorem play_run {Next : State → Event → State → Prop} {next : State → Event → Option State}
    (sound : ∀ s e s', next s e = some s' → Next s e s') {start s s' : State}
    {trace trace' : List (State × Event)} {events : List Event} (run : Run Next start trace s)
    (played : play next trace s events = some (trace', s')) :
    Run Next start trace' s' ∧ trace'.map Prod.snd = trace.map Prod.snd ++ events := by
  induction events generalizing trace s with
  | nil =>
    obtain ⟨rfl, rfl⟩ := by simpa [play] using played
    exact ⟨run, by simp⟩
  | cons e events ih =>
    unfold play at played
    split at played
    next s1 here =>
      obtain ⟨run', same⟩ := ih (run.step (sound s e s1 here)) played
      exact ⟨run', by simpa using same⟩
    next => cases played

/-- A condition on the events alone is one on the trace. -/
theorem allowed_of_events {allowed : State → Event → Prop} {trace : List (State × Event)}
    {events : List Event} (same : trace.map Prod.snd = events)
    (all : ∀ e ∈ events, ∀ s, allowed s e) : ∀ p ∈ trace, allowed p.1 p.2 :=
  fun p member => all p.2 (same ▸ List.mem_map_of_mem member) p.1

/-- What holds at every step of a trace, step by step. -/
theorem forall_steps_cons {α : Type} {P : List α → α → Prop} {a : α} {l : List α} :
    (∀ before p, before ++ [p] <+: a :: l → P before p) ↔
      P [] a ∧ ∀ before p, before ++ [p] <+: l → P (a :: before) p := by
  constructor
  · intro all
    exact ⟨all [] a (by simp), fun before p short => all (a :: before) p (by simpa using short)⟩
  · rintro ⟨first, later⟩ before p short
    cases before with
    | nil =>
      obtain rfl : p = a := by simpa using short
      exact first
    | cons q before =>
      obtain ⟨rfl, rest⟩ := List.cons_prefix_cons.mp short
      exact later before p rest

/-- An invariant of a relation is one of its reflexive transitive closure. -/
theorem preserved_by_steps {R : State → State → Prop} {Inv : State → Prop}
    (keeps : ∀ s s', R s s' → Inv s → Inv s') {s s' : State}
    (steps : Relation.ReflTransGen R s s') (init : Inv s) : Inv s' := by
  induction steps with
  | refl => exact init
  | tail _ step ih => exact keeps _ _ step ih

end CaceProofs.Library
