import CaceProofs.Source.Agent

/-!
# Several agents

Agents that share the channels. A published message is a copy in flight to every other
agent; the handler of the receiver looks whether it is addressed. Copies can be
delivered in any order. A copy can also be lost, or delivered and stay in flight.
-/
namespace CaceProofs.Source

namespace Observation

/-- The message of a publication. -/
def published? : Observation → Option Message
  | published m _ => some m
  | _ => none

end Observation

structure System where
  agents : Int → Cace
  ids : List Int
  flight : List (Int × Message)

namespace System

inductive Event where
  | call (id : Int) (r : Readings) (e : Cace.Event)
  | deliver (id : Int) (r : Readings) (m : Message)
  | duplicate (id : Int) (r : Readings) (m : Message)
  | lose (id : Int) (m : Message)

/-- What the agent published on the way to `c`. -/
def newlyPublished (s : System) (id : Int) (c : Cace) : List Message :=
  (c.history.drop (s.agents id).history.length).filterMap Observation.published?

/-- The agent goes to `c`, and what it published goes to everyone else. -/
def commit (s : System) (id : Int) (c : Cace) : System :=
  { s with
    agents := Function.update s.agents id c
    flight := s.flight ++ (s.newlyPublished id c).flatMap fun m =>
      (s.ids.filter fun j => j != id).map fun j => (j, m) }

/-- One event of the system; `none` where it cannot happen. -/
def exec (s : System) : Event → Option System
  | .call id r e =>
    if id ∈ s.ids then
      match e with
      | .handle _ => none
      | e =>
        match (s.agents id).exec r e with
        | .ok c => some (s.commit id c)
        | .error _ => none
    else none
  | .deliver id r m =>
    if (id, m) ∈ s.flight then
      some ({ s with flight := s.flight.erase (id, m) }.commit id ((s.agents id).handle r m))
    else none
  | .duplicate id r m =>
    if (id, m) ∈ s.flight then some (s.commit id ((s.agents id).handle r m)) else none
  | .lose id m =>
    if (id, m) ∈ s.flight then some { s with flight := s.flight.erase (id, m) } else none

def Next (s : System) (e : Event) (s' : System) : Prop :=
  s.exec e = some s'

/-- The runs of the agents together. -/
abbrev Runs (start : System) : List (System × Event) → System → Prop :=
  Library.Run Next start

/-- Runs a list of events. -/
def play (s : System) (events : List Event) : Option (List (System × Event) × System) :=
  Library.play exec [] s events

theorem play_runs {s s' : System} {events : List Event} {trace : List (System × Event)}
    (played : s.play events = some (trace, s')) :
    s.Runs trace s' ∧ trace.map Prod.snd = events :=
  Library.play_run (fun _ _ _ done => done) .nil played

end System

end CaceProofs.Source
