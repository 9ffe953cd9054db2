import CaceProofs.Source.Types

/-!
# Consensus variables

ConsensusVariable.cpp. `Believe` holds the scalar members of a variable; proposals
are variables that never carry proposals of their own. The accept function is not
stored: every modelled path sets it together with the strategy.
-/
namespace CaceProofs.Source

structure Believe where
  name : Name
  strategy : AcceptStrategy
  val : Bytes
  hasValue : Bool
  type : Int
  robotID : Int
  arrivalTime : Nat
  decissionTime : Nat
  validityTime : Nat
  lamportAge : Nat
  deriving DecidableEq, Repr, Inhabited

structure ConsensusVariable extends Believe where
  proposals : List Believe
  deriving DecidableEq, Repr, Inhabited

/-- `setAcceptStrategy` -/
def AcceptStrategy.acceptFunction (aS : AcceptStrategy) : AcceptFunction :=
  if aS = .threeWayHandShakeElection ∨ aS = .twoWayHandShakeElection
      ∨ aS = .fireAndForgetElection then .election
  else if aS = .threeWayHandShakeSet ∨ aS = .twoWayHandShakeSet ∨ aS = .fireAndForgetSet then .list
  else if aS = .threeWayHandShakeLowestID ∨ aS = .twoWayHandShakeLowestID then .lowestID
  else if aS = .threeWayHandShakeMostRecent ∨ aS = .twoWayHandShakeMostRecent then .mostRecent
  else .default

namespace Believe

/-- The constructor `ConsensusVariable(name, strategy, ...)`. -/
def construct (name : Name) (strategy : AcceptStrategy) (validityTime : Nat) (robotID : Int)
    (decissionTime lamportAge : Nat) (type : Int) : Believe where
  name := name
  strategy := strategy
  val := []
  hasValue := false
  type := type
  robotID := robotID
  arrivalTime := decissionTime
  decissionTime := decissionTime
  validityTime := validityTime
  lamportAge := lamportAge

/-- `setValue(vector<uint8_t>)` -/
def setValue (this : Believe) (value : Bytes) : Believe :=
  { this with val := value, hasValue := !value.isEmpty }

/-- `update`: robotID stays, the two times are skipped where they are the maximum. -/
def update (this v : Believe) : Believe :=
  { this with
    name := v.name
    arrivalTime := v.arrivalTime
    strategy := v.strategy
    validityTime := if v.validityTime ≠ longMax then v.validityTime else this.validityTime
    decissionTime := if v.decissionTime ≠ longMax then v.decissionTime else this.decissionTime
    lamportAge := v.lamportAge
    type := if v.type ≠ 0 then v.type else this.type
    val := v.val
    hasValue := !v.val.isEmpty }

/-- `valueEqual`; `none` is the null pointer. -/
def valueEqual (this : Believe) (cmp : Option Bytes) : Bool :=
  match cmp with
  | none => !this.hasValue
  | some cmp => this.hasValue && this.val == cmp

/-- `if (commandedValue != nullptr) setValue(*commandedValue)` -/
def setCommanded (this : Believe) : Option Bytes → Believe
  | some value => this.setValue value
  | none => this

def defaultAcceptStrategy (this gt lt : Believe) (commandedValue : Option Bytes) :
    Believe × Bool :=
  (this.setCommanded commandedValue,
    lt.lamportAge < gt.lamportAge ||
      (gt.lamportAge == lt.lamportAge && lt.robotID < gt.robotID))

def lowestIDAcceptStrategy (this gt lt : Believe) (commandedValue : Option Bytes) :
    Believe × Bool :=
  (this.setCommanded commandedValue, !(lt.hasValue && lt.robotID < gt.robotID))

def mostRecentAcceptStrategy (this gt lt : Believe) (commandedValue : Option Bytes) :
    Believe × Bool :=
  (this.setCommanded commandedValue, !(lt.hasValue && gt.decissionTime < lt.decissionTime))

/-- The eight bytes of `std::numeric_limits<double>::min()`, least significant first. -/
def doubleMin : Bytes := [0, 0, 0, 0, 0, 0, 16, 0]

def electionAcceptStrategy (this : Believe) : Believe × Bool :=
  if this.hasValue then (this, true)
  else ({ this with val := doubleMin, hasValue := true, type := typeCDouble }, true)

/-- The loop that should look for newer data is empty, so `newest` stays `this`. -/
def listAcceptStrategy (this : Believe) (commandedValue : Option Bytes) : Believe × Bool :=
  (this.setCommanded commandedValue, false)

/-- `(this->*acceptFunction)(gt, lt, cace, commandedValue)` -/
def accept (this gt lt : Believe) (commandedValue : Option Bytes) : Believe × Bool :=
  match this.strategy.acceptFunction with
  | .default => this.defaultAcceptStrategy gt lt commandedValue
  | .lowestID => this.lowestIDAcceptStrategy gt lt commandedValue
  | .mostRecent => this.mostRecentAcceptStrategy gt lt commandedValue
  | .election => this.electionAcceptStrategy
  | .list => this.listAcceptStrategy commandedValue

/-- One iteration of the loop of `acceptProposals`; the winner `none` is `this`. -/
def acceptStep (value : Option Bytes) (state : Believe × Option Believe) (cv : Believe) :
    Believe × Option Believe :=
  let judged := state.1.accept (state.2.getD state.1) cv value
  (judged.1, if judged.2 then state.2 else some cv)

/-- The four bytes of an `int` in memory, least significant first. -/
def intBytes (value : Int) : Bytes :=
  let word := (value % 2 ^ 32).toNat
  [UInt8.ofNat word, UInt8.ofNat (word / 2 ^ 8), UInt8.ofNat (word / 2 ^ 16),
    UInt8.ofNat (word / 2 ^ 24)]

/-- `deserialize<int>`; bytes the vector lacks (an assertion in the source) read as zero. -/
def deserializeInt (val : Bytes) : Int :=
  toInt (((val.take 4).foldr (fun byte rest => byte.toNat + 2 ^ 8 * rest) 0 : Nat) : Int)

/-- `getValue(int* out)`: the value of `*out` after the call. -/
def getValueInt (this : Believe) (out : Int) : Int :=
  if this.type = typeCInt then deserializeInt this.val else out

end Believe

namespace ConsensusVariable

/-- `acceptProposals`, up to the `notify()` at its end; it always returns false. -/
def acceptProposals (cv : ConsensusVariable) (value : Option Bytes) : ConsensusVariable :=
  let loop := cv.proposals.foldl (Believe.acceptStep value) (cv.toBelieve, none)
  { cv with
    toBelieve := match loop.2 with
      | some winner => loop.1.update winner
      | none => loop.1 }

def setValue (cv : ConsensusVariable) (value : Bytes) : ConsensusVariable :=
  { cv with toBelieve := cv.toBelieve.setValue value }

def update (cv v : ConsensusVariable) : ConsensusVariable :=
  { cv with toBelieve := cv.toBelieve.update v.toBelieve }

/-- `isAcknowledged`, with the number of active robots as argument. -/
def isAcknowledged (cv : ConsensusVariable) (activeRobots : List Int) : Bool :=
  decide (activeRobots.length ≤ cv.proposals.length) &&
    cv.proposals.all fun v => decide (cv.lamportAge ≤ v.lamportAge)

/-- `checkConflict`, with the active robots as argument. -/
def checkConflict (cv : ConsensusVariable) (activeRobots : List Int) : Bool :=
  cv.proposals.any fun v =>
    activeRobots.any fun i => i == v.robotID && !cv.valueEqual (some v.val)

/-- `isAgreed`, with the active robots as argument. -/
def isAgreed (cv : ConsensusVariable) (activeRobots : List Int) : Bool :=
  cv.isAcknowledged activeRobots && !cv.checkConflict activeRobots

/-- `getScope` -/
def getScope (cv : ConsensusVariable) : Name :=
  if '/' ∈ cv.name then (cv.name.reverse.dropWhile (· ≠ '/')).reverse else ['/']

/-- The write to the recorded proposals in the three `doVariableUpdate` functions. A
proposal of the sender is overwritten if it is older than the message, a sender
without one gets `fresh`; `none` is `proposalsUpdated == false`, nothing written. -/
def recordProposal (cv : ConsensusVariable) (senderID : Int) (lamportTime : Nat)
    (overwrite : Believe → Believe) (fresh : Believe) : Option ConsensusVariable :=
  if cv.proposals.any fun var => var.robotID == senderID then
    if cv.proposals.any fun var => var.robotID == senderID && decide (var.lamportAge < lamportTime)
    then some { cv with
      proposals := cv.proposals.map fun var =>
        if var.robotID = senderID ∧ var.lamportAge < lamportTime then overwrite var else var }
    else none
  else some { cv with proposals := cv.proposals ++ [fresh] }

end ConsensusVariable

end CaceProofs.Source
