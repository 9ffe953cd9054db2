import CaceProofs.Source.ConsensusVariable

/-!
# Election

The election variable: every agent's own believe is its bid.
-/
namespace CaceProofs.Source

/-- The bit pattern of a `double` in memory; bytes the vector lacks (an assertion in the
source) read as zero. -/
def doubleBits (val : Bytes) : Nat :=
  (val.take 8).foldr (fun byte rest => byte.toNat + 2 ^ 8 * rest) 0

/-- `deserialize<double>` as an exact number, in units of the least positive double. The
infinities are beyond all other numbers; a pattern that is not a number has no meaning. -/
def deserializeDouble (val : Bytes) : Int :=
  let bits := doubleBits val
  let exponent : Nat := bits / 2 ^ 52 % 2 ^ 11
  let fraction : Nat := bits % 2 ^ 52
  let magnitude : Nat :=
    if exponent = 0 then fraction else (2 ^ 52 + fraction) * 2 ^ (exponent - 1)
  if bits / 2 ^ 63 % 2 = 1 then -(magnitude : Int) else magnitude

/-- `getValue(double* out)`: the value of `*out` after the call. -/
def Believe.getValueDouble (this : Believe) (out : Int) : Int :=
  if this.type = typeCDouble then deserializeDouble this.val else out

namespace Election

/-- The locals of `getWinner`. -/
structure Scan where
  val : Int
  bet : Int
  ret : Int
  deriving DecidableEq, Repr

/-- One pass of `getWinner`; `val` keeps the last double it read. -/
def scanStep (scan : Scan) (v : Believe) : Scan :=
  if v.hasValue then
    let val := v.getValueDouble scan.val
    if scan.bet < val then ⟨val, val, v.robotID⟩ else { scan with val := val }
  else scan

/-- `getWinner(double& bet)`: the winner, and the bet the reference is set to. -/
def getWinnerBet (cv : ConsensusVariable) : Int × Int :=
  let bet := deserializeDouble Believe.doubleMin
  let own := scanStep ⟨bet, bet, 0⟩ cv.toBelieve
  let scan := cv.proposals.foldl scanStep own
  (scan.ret, scan.bet)

/-- `getWinner()` -/
def getWinner (cv : ConsensusVariable) : Int :=
  (getWinnerBet cv).1

end Election

end CaceProofs.Source
