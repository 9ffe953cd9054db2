import CaceProofs.Source.Serialize

/-!
# Typed accessors

The overloads of `ConsensusVariable::setValue` and `getValue` for typed values, and the
template for any other type.
-/
namespace CaceProofs.Source
namespace Believe

/-- `val.clear(); serialize(in, val); hasValue = true; type = …` -/
def setTyped (t : CType) (type : Int) (this : Believe) (value : t.Value) : Option Believe := do
  let val ← serialize t value []
  return { this with val := val, hasValue := true, type := type }

/-- `if (type == …) { out = deserialize<T>(val); } return type == …`: `out` after the call,
and the result. -/
def getTyped (t : CType) (type : Int) (this : Believe) (out : t.Value) :
    Option (t.Value × Bool) :=
  if this.type = type then do
    let out ← deserialize t this.val
    return (out, true)
  else return (out, false)

def setDouble (this : Believe) (value : CDouble) : Option Believe :=
  this.setTyped (.scalar .double) typeCDouble value

def getDouble (this : Believe) (out : CDouble) : Option (CDouble × Bool) :=
  this.getTyped (.scalar .double) typeCDouble out

def setInt (this : Believe) (value : Int32) : Option Believe :=
  this.setTyped (.scalar .int) typeCInt value

def getInt (this : Believe) (out : Int32) : Option (Int32 × Bool) :=
  this.getTyped (.scalar .int) typeCInt out

def setLong (this : Believe) (value : Int64) : Option Believe :=
  this.setTyped (.scalar .long) typeCLong value

def getLong (this : Believe) (out : Int64) : Option (Int64 × Bool) :=
  this.getTyped (.scalar .long) typeCLong out

def setString (this : Believe) (value : Bytes) : Option Believe :=
  this.setTyped .string typeCString value

def getString (this : Believe) (out : Bytes) : Option (Bytes × Bool) :=
  this.getTyped .string typeCString out

def setDoubleList (this : Believe) (value : List CDouble) : Option Believe :=
  this.setTyped (.vector (.scalar .double)) typeCDoubleList value

def getDoubleList (this : Believe) (out : List CDouble) : Option (List CDouble × Bool) :=
  this.getTyped (.vector (.scalar .double)) typeCDoubleList out

def setIntList (this : Believe) (value : List Int32) : Option Believe :=
  this.setTyped (.vector (.scalar .int)) typeCIntList value

def getIntList (this : Believe) (out : List Int32) : Option (List Int32 × Bool) :=
  this.getTyped (.vector (.scalar .int)) typeCIntList out

def setStringList (this : Believe) (value : List Bytes) : Option Believe :=
  this.setTyped (.vector .string) typeCStringList value

def getStringList (this : Believe) (out : List Bytes) : Option (List Bytes × Bool) :=
  this.getTyped (.vector .string) typeCStringList out

/-- The template; unlike the overloads, it leaves `hasValue` as it is. -/
def setCustom (t : CType) (this : Believe) (obj : t.Value) : Option Believe := do
  let val ← serialize t obj []
  return { this with val := val, type := typeCustom }

def getCustom (t : CType) (this : Believe) (obj : t.Value) : Option (t.Value × Bool) :=
  this.getTyped t typeCustom obj

end Believe

/-- The pairs of a `setValue` and the `getValue` that matches it. -/
inductive Overload where
  | double | int | long | string | doubleList | intList | stringList
  | custom (t : CType)

namespace Overload

/-- The type of the argument. -/
def ctype : Overload → CType
  | double => .scalar .double
  | int => .scalar .int
  | long => .scalar .long
  | string => .string
  | doubleList => .vector (.scalar .double)
  | intList => .vector (.scalar .int)
  | stringList => .vector .string
  | custom t => t

abbrev Value (o : Overload) : Type :=
  o.ctype.Value

/-- The tag that `setValue` leaves and `getValue` expects. -/
def tag : Overload → Int
  | double => typeCDouble
  | int => typeCInt
  | long => typeCLong
  | string => typeCString
  | doubleList => typeCDoubleList
  | intList => typeCIntList
  | stringList => typeCStringList
  | custom _ => typeCustom

def setValue : (o : Overload) → Believe → o.Value → Option Believe
  | double, this, value => this.setDouble value
  | int, this, value => this.setInt value
  | long, this, value => this.setLong value
  | string, this, value => this.setString value
  | doubleList, this, value => this.setDoubleList value
  | intList, this, value => this.setIntList value
  | stringList, this, value => this.setStringList value
  | custom t, this, obj => this.setCustom t obj

def getValue : (o : Overload) → Believe → o.Value → Option (o.Value × Bool)
  | double, this, out => this.getDouble out
  | int, this, out => this.getInt out
  | long, this, out => this.getLong out
  | string, this, out => this.getString out
  | doubleList, this, out => this.getDoubleList out
  | intList, this, out => this.getIntList out
  | stringList, this, out => this.getStringList out
  | custom t, this, obj => this.getCustom t obj

end Overload

/-- A call of `setValue` with its argument. -/
structure SetCall where
  overload : Overload
  value : overload.Value

namespace SetCall

def run (call : SetCall) (this : Believe) : Option Believe :=
  call.overload.setValue this call.value

end SetCall

/-- The copy constructor. -/
def Believe.copy (v : Believe) : Believe where
  name := v.name
  strategy := v.strategy
  val := v.val
  hasValue := v.hasValue
  type := v.type
  robotID := v.robotID
  arrivalTime := v.arrivalTime
  decissionTime := v.decissionTime
  validityTime := v.validityTime
  lamportAge := v.lamportAge

/-- The calls that give a variable its value; `copy` goes on with a copy of it. -/
inductive ValueCall where
  | setValue (value : Bytes)
  | typed (call : SetCall)
  | update (v : Believe)
  | copy

namespace ValueCall

def run : ValueCall → Believe → Option Believe
  | setValue value, this => some (this.setValue value)
  | typed call, this => call.run this
  | update v, this => some (this.update v)
  | copy, this => some this.copy

end ValueCall

end CaceProofs.Source
