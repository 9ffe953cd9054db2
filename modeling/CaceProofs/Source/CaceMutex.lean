import CaceProofs.Source.CaceSpace

/-!
# CaceMutex

The mutual exclusion variable: its value is the ID of the agent that has it, or a
number that is not positive. `robots` is the list of agents that count.
-/
namespace CaceProofs.Source.CaceMutex

/-- `int bel = 0; getValue(&bel)` -/
def believed (m : ConsensusVariable) : Int :=
  m.getValueInt 0

/-- `isFree`. The source reads each proposal into a variable that it does not initialise; one
that is not an int leaves there whatever it holds. -/
def isFree (uninitialised : Nat → Int) (m : ConsensusVariable) (strict : Bool)
    (robots : List Int) : Bool :=
  !(m.hasValue && decide (0 < believed m)) &&
    m.proposals.zipIdx.all fun (v, k) =>
      !(v.hasValue && decide (0 < v.getValueInt (uninitialised k)) &&
        (strict || robots.contains v.robotID))

/-- One pass of the loop of the strict `isOwner`; `bel` keeps the last int it read. -/
def ownerStep (robotID : Int) (state : Int × Bool × Nat) (v : Believe) : Int × Bool × Nat :=
  let (bel, own, believer) := state
  if v.hasValue then
    let bel := v.getValueInt bel
    if bel = robotID then (bel, own, believer + 1) else (bel, false, believer)
  else (bel, false, believer)

/-- One pass of the loop of the non-strict `isOwner`: what is looked up in `robots` is
the believed owner. -/
def ownerStepNonStrict (robotID : Int) (robots : List Int) (state : Int × Bool × Nat)
    (v : Believe) : Int × Bool × Nat :=
  let (bel, own, believer) := state
  if v.hasValue then
    let bel := v.getValueInt bel
    if bel ≠ robotID ∧ bel ∈ robots then (bel, false, believer) else (bel, own, believer + 1)
  else (bel, own && !robots.contains bel, believer)

/-- `isOwner` -/
def isOwner (m : ConsensusVariable) (strict : Bool) (robotID : Int) (robots : List Int) : Bool :=
  let bel := believed m
  let own := m.hasValue && bel == robotID
  let loop :=
    m.proposals.foldl
      (if strict then ownerStep robotID else ownerStepNonStrict robotID robots) (bel, own, 0)
  loop.2.1 && decide (robots.length ≤ loop.2.2)

/-- `pNoBlock`, with the value it returns. -/
def pNoBlock (r : Readings) (c : Cace) (name : Name) (strict : Bool) (robots : List Int) :
    Cace × Bool :=
  let m := c.deref (.stored name)
  if isFree r.uninitialised m strict robots then
    if isOwner m strict c.ownID robots then (c, true)
    else if m.isAcknowledged c.activeRobots then
      (CaceSpace.distributeInt r c m.name c.ownID m.strategy, false)
    else (c, false)
  else (c, false)

/-- `v`, with the value it returns. -/
def v (r : Readings) (c : Cace) (name : Name) : Cace × Bool :=
  let m := c.deref (.stored name)
  if believed m = c.ownID then (CaceSpace.distributeInt r c m.name (-1) m.strategy, true)
  else (c, false)

end CaceProofs.Source.CaceMutex
