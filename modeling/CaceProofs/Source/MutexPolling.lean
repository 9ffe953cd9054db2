import Mathlib.Logic.Relation
import CaceProofs.Source.Agent

/-!
# The blocking mutex

`CaceMutex::p` polls `pNoBlock`; while it sleeps, the agent handles messages and steps.
-/
namespace CaceProofs.Source.CaceMutex

/-- One thing that happens to the agent while `p` sleeps. -/
def Meanwhile (c c' : Cace) : Prop :=
  (∃ r m, c' = c.handle r m) ∨ ∃ r, c.step r = .ok c'

/-- `p(robots)`, from the state at its call to the one in which it returns. -/
inductive P (name : Name) (strict : Bool) (robots : List Int) : Cace → Cace → Prop
  | returns (r : Readings) {c : Cace} (polled : (pNoBlock r c name strict robots).2 = false) :
      P name strict robots c (pNoBlock r c name strict robots).1
  | sleeps (r : Readings) {c d c' : Cace} (polled : (pNoBlock r c name strict robots).2 = true)
      (slept : Relation.ReflTransGen Meanwhile (pNoBlock r c name strict robots).1 d)
      (again : P name strict robots d c') : P name strict robots c c'

end CaceProofs.Source.CaceMutex
