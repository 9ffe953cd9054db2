import CaceProofs.Source.Accessors
import CaceProofs.Source.Election

/-!
# The text of a value

`ConsensusVariable::valueAsString`, with the `std::to_string` of its numbers.
-/
namespace CaceProofs.Source

/-- `std::to_string(int)` and `std::to_string(long)` -/
def toStringInteger (i : Int) : Name :=
  (toString i).toList

/-- The text `%f` has for a number of millionths. -/
def fixedPoint (millionths : Nat) : Name :=
  let fraction := (toString (millionths % 10 ^ 6)).toList
  (toString (millionths / 10 ^ 6)).toList ++ ['.'] ++
    List.replicate (6 - fraction.length) '0' ++ fraction

/-- `std::to_string(double)`: six digits after the point, ties to even. -/
def toStringDouble (value : CDouble) : Name :=
  let bits := doubleBits value.bytes
  let sign : Name := if bits / 2 ^ 63 % 2 = 1 then ['-'] else []
  if bits / 2 ^ 52 % 2 ^ 11 = 2 ^ 11 - 1 then
    sign ++ if bits % 2 ^ 52 = 0 then ['i', 'n', 'f'] else ['n', 'a', 'n']
  else
    -- The number comes in units of 2 ^ -1074.
    let scaled := (deserializeDouble value.bytes).natAbs * 10 ^ 6
    let whole := scaled / 2 ^ 1074
    let rest := scaled % 2 ^ 1074
    let up := 2 ^ 1073 < rest ∨ rest = 2 ^ 1073 ∧ whole % 2 = 1
    sign ++ fixedPoint (if up then whole + 1 else whole)

/-- The chars of a `std::string` that was read as bytes. -/
def chars (bytes : Bytes) : Name :=
  bytes.map fun byte => Char.ofNat byte.toNat

/-- `ret` after the loop over a list. -/
def listText (opening : Name) (items : List Name) : Name :=
  opening ++ ['|'].intercalate items ++ [')']

def noConversion : Name :=
  " [No Conversion] ".toList

namespace Believe

/-- `valueAsString`; `none` where its `getValue` fails. -/
def valueAsString (this : Believe) : Option Name :=
  if !this.hasValue then some [' ']
  else if this.type = typeCDouble then do
    let (t, _) ← this.getDouble ⟨List.replicate 8 0, rfl⟩
    return toStringDouble t ++ ['d']
  else if this.type = typeCInt then do
    let (tmp, _) ← this.getInt 0
    return toStringInteger tmp.toInt ++ ['i']
  else if this.type = typeCLong then do
    let (tmp, _) ← this.getLong 0
    return toStringInteger tmp.toInt ++ ['l']
  else if this.type = typeCString then do
    let (s, _) ← this.getString []
    return chars s
  else if this.type = typeCIntList then do
    let (l, read) ← this.getIntList []
    return if read then listText "il(".toList (l.map fun i => toStringInteger i.toInt)
      else noConversion
  else if this.type = typeCDoubleList then do
    let (l, read) ← this.getDoubleList []
    return if read then listText "dl(".toList (l.map toStringDouble) else noConversion
  else if this.type = typeCStringList then do
    let (l, read) ← this.getStringList []
    return if read then listText "sl(".toList (l.map chars) else noConversion
  else some noConversion

end Believe

end CaceProofs.Source
