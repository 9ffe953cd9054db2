import CaceProofs.Source.Handlers

/-!
# CaceSpace

The operations on the variable space that an application calls.
-/
namespace CaceProofs.Source

/-- A `double` as the bytes that it has in memory. -/
structure CDouble where
  bytes : Bytes
  size : bytes.length = 8

namespace CaceSpace

/-- The first half of `distributeValue`: the new own believe, of the clock's age. -/
def decideValue (r : Readings) (c : Cace) (name : Name) (value : Bytes) (type : Int)
    (strategy : AcceptStrategy) : Cace :=
  match c.getVariable name with
  | none =>
    c.insertVariable
      { (Believe.construct name strategy longMax c.spaceOwnID r.distributedTime
          c.lamportTime.time type).setValue value with proposals := [] }
  | some cv =>
    c.setVariable name
      { cv.setValue value with
        type := type
        lamportAge := c.lamportTime.time
        strategy := strategy
        decissionTime := r.distributedTime }

/-- `distributeValue(string, vector<uint8_t>, short, acceptStrategy)` -/
def distributeValue (r : Readings) (c : Cace) (name : Name) (value : Bytes) (type : Int)
    (strategy : AcceptStrategy) : Cace :=
  let c := decideValue r c name value type strategy
  let (c, job) :=
    CommandJob.construct r c (.stored name) value c.activeRobots c.lamportTime.time
  c.appendJob (.command job)

/-- `distributeValue(string, int, acceptStrategy)` -/
def distributeInt (r : Readings) (c : Cace) (name : Name) (value : Int)
    (strategy : AcceptStrategy) : Cace :=
  distributeValue r c name (Believe.intBytes value) typeCInt strategy

/-- `distributeValue(string, double, acceptStrategy)` -/
def distributeDouble (r : Readings) (c : Cace) (name : Name) (value : CDouble)
    (strategy : AcceptStrategy) : Cace :=
  distributeValue r c name value.bytes typeCDouble strategy

/-- `requestVariable` -/
def requestVariable (r : Readings) (c : Cace) (name : Name) (agentID : Int) : Cace :=
  let c := c.deleteResponse name
  let (c, job) := RequestJob.construct r c name (toShort agentID) c.lamportTime.time
  c.appendJob (.request job)

/-- `getRequestedVariable` -/
def getRequestedVariable (c : Cace) (name : Name) : Option ConsensusVariable × Cace :=
  c.getResponse name

/-- `writeVariable` -/
def writeVariable (r : Readings) (c : Cace) (variablePtr : VariablePtr) (agentID : Int) : Cace :=
  let (c, job) := WriteJob.construct r c variablePtr (toShort agentID) c.lamportTime.time
  c.appendJob (.write job)

/-- The job that `addVariable` and `distributeVariable` append for a variable. -/
def command (r : Readings) (c : Cace) (variablePtr : VariablePtr) : Cace :=
  let (c, job) :=
    CommandJob.construct r c variablePtr (c.deref variablePtr).val c.activeRobots
      c.lamportTime.time
  c.appendJob (.command job)

/-- `addVariable` of a variable that is not in the store; it is refused where the name
is taken, and distributed all the same. -/
def addVariable (r : Readings) (c : Cace) (var : ConsensusVariable) (distribute : Bool) : Cace :=
  let variablePtr : VariablePtr :=
    if (c.getVariable var.name).isSome then .detached var else .stored var.name
  let c := c.insertVariable var
  if distribute then command r c variablePtr else c

/-- `distributeVariable` -/
def distributeVariable (r : Readings) (c : Cace) (variablePtr : VariablePtr) : Cace :=
  let var := c.deref variablePtr
  match c.getVariable var.name with
  | some inStoreVar =>
    if variablePtr = .stored var.name then command r c variablePtr
    else command r (c.setVariable var.name (inStoreVar.update var)) (.stored var.name)
  | none => addVariable r c var true

end CaceSpace

end CaceProofs.Source
