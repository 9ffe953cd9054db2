import Mathlib.Data.PNat.Notation
import CaceProofs.Library.Codec
import CaceProofs.Source.CaceSpace

/-!
# serialize.h

The templates are instantiated by the type of their argument: a type of the language is a
`CType` here, and each template a recursion over it. A type without a specialisation is a
scalar: it is copied as it is in memory (little-endian, `int` of four bytes, `long` and `size_t`
of eight). A failed assertion or an access outside of the stream is `none`.
-/
namespace CaceProofs.Source
open Library

/-- The types that are copied from memory. `plain` stands for any other one: its value is its
bytes. -/
inductive Scalar where
  | char | int | long | sizeT | double
  | plain (size : ℕ+)

namespace Scalar

def sizeof : Scalar → Nat
  | char => 1
  | int => 4
  | long | sizeT | double => 8
  | plain size => size

/-- As many bytes as a value of the type has in memory. -/
abbrev Memory (s : Scalar) : Type :=
  { bytes : Bytes // bytes.length = s.sizeof }

abbrev Value : Scalar → Type
  | char => UInt8
  | int => Int32
  | long => Int64
  | sizeT => UInt64
  | double => CDouble
  | plain size => { bytes : Bytes // bytes.length = size }

/-- `reinterpret_cast<const uint8_t*>(&obj)` -/
def toMemory : (s : Scalar) → s.Value → s.Memory
  | char, (obj : UInt8) => wordBytes 1 obj.toNat
  | int, (obj : Int32) => wordBytes 4 obj.toBitVec.toNat
  | long, (obj : Int64) => wordBytes 8 obj.toBitVec.toNat
  | sizeT, (obj : UInt64) => wordBytes 8 obj.toNat
  | double, (obj : CDouble) => ⟨obj.bytes, obj.size⟩
  | plain _, obj => obj

/-- `reinterpret_cast<uint8_t*>(&val)`, written to. -/
def ofMemory : (s : Scalar) → s.Memory → s.Value
  | char, m => UInt8.ofNat (wordValue m.1)
  | int, m => Int32.ofBitVec (BitVec.ofNat 32 (wordValue m.1))
  | long, m => Int64.ofBitVec (BitVec.ofNat 64 (wordValue m.1))
  | sizeT, m => UInt64.ofNat (wordValue m.1)
  | double, m => (⟨m.1, m.2⟩ : CDouble)
  | plain _, m => m

/-- The last `serialize_helper` -/
def serializer (s : Scalar) (obj : s.Value) : StateT (Cursor UInt8) Option PUnit :=
  Cursor.put (s.toMemory obj).1

/-- The first `deserialize_helper` -/
def deserializeHelper (s : Scalar) : StateT Bytes Option s.Value := do
  return s.ofMemory (← take s.sizeof)

end Scalar

mutual

/-- The types that have a specialisation of the templates. -/
inductive CType where
  | scalar (s : Scalar)
  | string
  | vector (t : CType)
  | list (t : CType)
  | tuple (ts : Components)

/-- The types of a tuple's components, of which there is at least one. -/
inductive Components where
  | last (t : CType)
  | cons (t : CType) (ts : Components)

end

mutual

/-- A `std::string` is its chars, a byte each. -/
@[reducible] def CType.Value : CType → Type
  | .scalar s => s.Value
  | .string => Bytes
  | .vector t => List t.Value
  | .list t => List t.Value
  | .tuple ts => ts.Value

@[reducible] def Components.Value : Components → Type
  | .last t => t.Value
  | .cons t ts => t.Value × ts.Value

end

mutual

/-- `get_size`, in the arithmetic of `size_t`. -/
def getSize : (t : CType) → t.Value → UInt64
  | .scalar s, _ => UInt64.ofNat s.sizeof
  | .string, (obj : Bytes) => 8 + UInt64.ofNat obj.length * 1
  | .vector t, (obj : List t.Value) => obj.foldl (fun acc cur => acc + getSize t cur) 8
  | .list t, (obj : List t.Value) => obj.foldl (fun acc cur => acc + getSize t cur) 8
  | .tuple ts, obj => getTupleSize ts obj

/-- `get_tuple_size` -/
def getTupleSize : (ts : Components) → ts.Value → UInt64
  | .last t, obj => getSize t obj
  | .cons t ts, (obj : t.Value × ts.Value) => getSize t obj.1 + getTupleSize ts obj.2

end

mutual

/-- `detail::serializer`, with the iterator as state. -/
def serializer : (t : CType) → t.Value → StateT (Cursor UInt8) Option PUnit
  | .scalar s, obj => s.serializer obj
  | .string, (obj : Bytes) => do
    Scalar.sizeT.serializer (UInt64.ofNat obj.length)
    obj.forM Scalar.char.serializer
  | .vector t, (obj : List t.Value) => do
    Scalar.sizeT.serializer (UInt64.ofNat obj.length)
    obj.forM fun cur => serializer t cur
  | .list t, (obj : List t.Value) => do
    Scalar.sizeT.serializer (UInt64.ofNat obj.length)
    obj.forM fun cur => serializer t cur
  | .tuple ts, obj => serializeTuple ts obj

/-- `serialize_tuple` -/
def serializeTuple : (ts : Components) → ts.Value → StateT (Cursor UInt8) Option PUnit
  | .last t, obj => serializer t obj
  | .cons t ts, (obj : t.Value × ts.Value) => do
    serializer t obj.1
    serializeTuple ts obj.2

end

/-- `std::vector::resize` -/
def resize (res : Bytes) (n : Nat) : Bytes :=
  res.take n ++ List.replicate (n - res.length) 0

/-- `serialize`: the stream `res` after the call. -/
def serialize (t : CType) (obj : t.Value) (res : Bytes) : Option Bytes := do
  let offset : UInt64 := UInt64.ofNat res.length
  let size := getSize t obj
  let res := resize res (UInt64.ofNat res.length + size).toNat
  let (_, it) ← (serializer t obj).run (Cursor.seek res offset.toNat)
  if (offset + size).toNat = it.before.length then return it.buffer else none

mutual

/-- `deserialize_helper<T>::apply`; the state is what `begin` and `end` enclose. -/
def deserializeHelper : (t : CType) → StateT Bytes Option t.Value
  | .scalar s => s.deserializeHelper
  | .string => do
    let size : UInt64 ← Scalar.sizeT.deserializeHelper
    if size = 0 then return []
    times Scalar.char.deserializeHelper size.toNat
  | .vector t => do
    let size : UInt64 ← Scalar.sizeT.deserializeHelper
    times (deserializeHelper t) size.toNat
  | .list t => do
    let size : UInt64 ← Scalar.sizeT.deserializeHelper
    times (deserializeHelper t) size.toNat
  | .tuple ts => deserializeTuple ts

/-- `deserialize_tuple` -/
def deserializeTuple : (ts : Components) → StateT Bytes Option ts.Value
  | .last t => deserializeHelper t
  | .cons t ts => do
    let first ← deserializeHelper t
    let rest ← deserializeTuple ts
    return (first, rest)

end

/-- `deserialize<T>(res)`; bytes behind the value are left alone. -/
def deserialize (t : CType) (res : Bytes) : Option t.Value :=
  (deserializeHelper t).run' res

end CaceProofs.Source
