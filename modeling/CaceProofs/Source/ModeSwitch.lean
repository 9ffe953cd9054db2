import CaceProofs.Source.Handlers

/-!
# Exchanging the communication module

`Cace::substituteCaceCommunication`, `setQuiet` and `unsetQuiet`, for an ID other than zero. The
store, the worker with its jobs and the variable space stay; the new module has empty queues, and
a new TimeManager starts its clock at 1.
-/
namespace CaceProofs.Source

/-- The members of a new communication module. -/
structure CaceCommunication where
  quiet : Bool
  ownID : Int
  agentBlacklist : List Int
  deriving DecidableEq, Repr

/-- The constructors, with `setOwnID((short)id)`. -/
def CaceCommunication.construct (quiet : Bool) (id : Int) : CaceCommunication :=
  ⟨quiet, toShort id, [toShort id]⟩

namespace Cace

/-- `substituteCaceCommunication` -/
def substituteCaceCommunication (c : Cace) (cc : CaceCommunication) : Cace :=
  { c with
    quiet := cc.quiet
    ownID := cc.ownID
    agentBlacklist := cc.agentBlacklist
    commands := []
    believeNotifications := []
    shortAcks := []
    writeAcknowledges := []
    lamportTime := { time := 1 } }

/-- `setQuiet` -/
def setQuiet (c : Cace) (id : Int) : Cace :=
  { c with quietMode := true }.substituteCaceCommunication (.construct true id)

/-- `unsetQuiet`, which does the work of `substituteCaceCommunication` itself. -/
def unsetQuiet (c : Cace) (id : Int) : Cace :=
  { c with quietMode := false }.substituteCaceCommunication (.construct false id)

end Cace

end CaceProofs.Source
