import Mathlib.Algebra.Group.Nat.Defs
import Mathlib.Algebra.Ring.Int.Defs
import CaceProofs.Library.LamportClock

/-!
# Basic types and messages

CaceTypes.h, msg/*.msg, msg/CaceType.msg and JobStateEntity.h. A `std::string` is
the list of its characters and a `vector<uint8_t>` a list of bytes. IDs, levels,
type tags and message IDs are integers; where the source narrows one to `short` or
`char`, so does the model. Times are natural numbers; the Lamport time is a clock
on a 64-bit word.
-/
namespace CaceProofs.Source
open Library

abbrev Name := List Char
abbrev Bytes := List UInt8

/-- The clock behind `TimeManager::lamportTime` (unsigned long). -/
abbrev LamportTime := LamportClock (2 ^ 64)

/-- `std::numeric_limits<long>::max()` -/
def longMax : Nat := 2 ^ 63 - 1

/-- `(short)i` -/
def toShort (i : Int) : Int := i.bmod (2 ^ 16)

/-- `(int)i` -/
def toInt (i : Int) : Int := i.bmod (2 ^ 32)

/-- `(char)t` stored in the uint8 type field of a message. -/
def toTypeTag (t : Int) : Int := t % 256

/-- Assignment of a computed time to an unsigned long. -/
def toULong (t : Nat) : Nat := t % 2 ^ 64

/-- The enum is unscoped, travels as an int16 `level` and is cast back without a
check, so a strategy is a code; the named members are the codes below. -/
structure AcceptStrategy where
  code : Int
  deriving DecidableEq, Repr, Inhabited

namespace AcceptStrategy

def noDistribution : AcceptStrategy := ⟨0⟩
def fireAndForgetSet : AcceptStrategy := ⟨8⟩
def fireAndForgetElection : AcceptStrategy := ⟨9⟩
def fireAndForget : AcceptStrategy := ⟨10⟩
def twoWayHandShakeSet : AcceptStrategy := ⟨36⟩
def twoWayHandShakeElection : AcceptStrategy := ⟨37⟩
def twoWayHandShakeMostRecent : AcceptStrategy := ⟨38⟩
def twoWayHandShakeLowestID : AcceptStrategy := ⟨39⟩
def twoWayHandShake : AcceptStrategy := ⟨40⟩
def threeWayHandShakeSet : AcceptStrategy := ⟨66⟩
def threeWayHandShakeElection : AcceptStrategy := ⟨67⟩
def threeWayHandShakeMostRecent : AcceptStrategy := ⟨68⟩
def threeWayHandShakeLowestID : AcceptStrategy := ⟨69⟩
def threeWayHandShake : AcceptStrategy := ⟨70⟩

instance : LE AcceptStrategy := ⟨fun a b => a.code ≤ b.code⟩
instance : LT AcceptStrategy := ⟨fun a b => a.code < b.code⟩
instance : DecidableLE AcceptStrategy := fun a b => inferInstanceAs (Decidable (a.code ≤ b.code))
instance : DecidableLT AcceptStrategy := fun a b => inferInstanceAs (Decidable (a.code < b.code))

end AcceptStrategy

/-- The member function that `setAcceptStrategy` selects. -/
inductive AcceptFunction where
  | election | list | lowestID | mostRecent | default
  deriving DecidableEq, Repr

/-- CaceType.msg, the tags the modelled functions read or write. -/
def typeCDouble : Int := 1
def typeCInt : Int := 2
def typeCString : Int := 3
def typeCLong : Int := 5
def typeCDoubleList : Int := 10
def typeCIntList : Int := 20
def typeCStringList : Int := 30
def typeCustom : Int := 254

/-- `const int16_t CaceCommunication::broadcastID` -/
def broadcastID : Int := 0

/-- CaceCommand.msg; also the payload of the response and the write channel. -/
structure CaceCommand where
  senderID : Int
  receiverID : List Int
  variableName : Name
  value : Bytes
  decissionTime : Nat
  validityTime : Nat
  level : Int
  msgID : Int
  lamportTime : Nat
  type : Int
  deriving DecidableEq, Repr

/-- CaceBelieveNotification.msg -/
structure CaceBelieveNotification where
  senderID : Int
  receiverID : List Int
  variableName : Name
  value : Bytes
  decissionTime : Nat
  validityTime : Nat
  level : Int
  msgID : Int
  lamportTime : Nat
  type : Int
  deriving DecidableEq, Repr

/-- CaceAcknowledge.msg -/
structure CaceAcknowledge where
  senderID : Int
  receiverID : List Int
  variableName : Name
  value : Bytes
  msgID : Int
  lamportTime : Nat
  type : Int
  deriving DecidableEq, Repr

/-- CaceShortAck.msg; also the payload of the write acknowledge channel. -/
structure CaceShortAck where
  senderID : Int
  receiverID : List Int
  variableName : Name
  msgID : Int
  lamportTime : Nat
  deriving DecidableEq, Repr

/-- CaceTime.msg -/
structure CaceTime where
  senderID : Int
  localtime : Nat
  distributedTime : Nat
  lamportTime : Nat
  deriving DecidableEq, Repr

/-- CaceVariableRequest.msg, the one message without a Lamport time. -/
structure CaceVariableRequest where
  senderID : Int
  receiverID : List Int
  variableName : Name
  msgID : Int
  deriving DecidableEq, Repr

/-- A message on its channel. -/
inductive Message where
  | command (m : CaceCommand)
  | acknowledge (m : CaceAcknowledge)
  | shortAck (m : CaceShortAck)
  | believeNotification (m : CaceBelieveNotification)
  | time (m : CaceTime)
  | variableRequest (m : CaceVariableRequest)
  | write (m : CaceCommand)
  | writeAck (m : CaceShortAck)
  | response (m : CaceCommand)
  deriving DecidableEq, Repr

namespace Message

def senderID : Message → Int
  | command m | write m | response m => m.senderID
  | acknowledge m => m.senderID
  | shortAck m | writeAck m => m.senderID
  | believeNotification m => m.senderID
  | time m => m.senderID
  | variableRequest m => m.senderID

def lamportTime : Message → Option Nat
  | command m | write m | response m => some m.lamportTime
  | acknowledge m => some m.lamportTime
  | shortAck m | writeAck m => some m.lamportTime
  | believeNotification m => some m.lamportTime
  | time m => some m.lamportTime
  | variableRequest _ => none

/-- `none` stands for the time message, which has no receiver field. -/
def receiverID : Message → Option (List Int)
  | command m | write m | response m => some m.receiverID
  | acknowledge m => some m.receiverID
  | shortAck m | writeAck m => some m.receiverID
  | believeNotification m => some m.receiverID
  | time _ => none
  | variableRequest m => some m.receiverID

end Message

/-- What a command, a notification and an acknowledge all report: the sender's value of
a variable. -/
structure Report where
  variableName : Name
  senderID : Int
  value : Bytes
  type : Int
  lamportTime : Nat
  deriving DecidableEq, Repr

namespace Message

def report? : Message → Option Report
  | command m => some ⟨m.variableName, m.senderID, m.value, m.type, m.lamportTime⟩
  | believeNotification m => some ⟨m.variableName, m.senderID, m.value, m.type, m.lamportTime⟩
  | acknowledge m => some ⟨m.variableName, m.senderID, m.value, m.type, m.lamportTime⟩
  | shortAck _ | time _ | variableRequest _ | write _ | writeAck _ | response _ => none

theorem report?_stamp {m : Message} {report : Report} (reports : m.report? = some report) :
    m.senderID = report.senderID ∧ m.lamportTime = some report.lamportTime := by
  cases m with
  | command | believeNotification | acknowledge =>
    obtain rfl := Option.some.inj reports
    exact ⟨rfl, rfl⟩
  | shortAck | time | variableRequest | write | writeAck | response => cases reports

/-- The level of a command or a notification as a strategy; an acknowledge has none. -/
def strategy? : Message → Option AcceptStrategy
  | command m => some ⟨m.level⟩
  | believeNotification m => some ⟨m.level⟩
  | acknowledge _ | shortAck _ | time _ | variableRequest _ | write _ | writeAck _
  | response _ => none

/-- The decision time of a command or a notification; an acknowledge has none. -/
def decissionTime? : Message → Option Nat
  | command m => some m.decissionTime
  | believeNotification m => some m.decissionTime
  | acknowledge _ | shortAck _ | time _ | variableRequest _ | write _ | writeAck _
  | response _ => none

end Message

/-- Whether a message is sent for the first time or by a resend loop. -/
inductive Transmission where
  | first | again
  deriving DecidableEq, Repr

/-- What can be observed of an agent: a message a handler let through, a message whose
variable update a job has run, a message sent, a call of a variable's `notify()`. -/
inductive Observation where
  | received (m : Message)
  | applied (m : Message)
  | published (m : Message) (transmission : Transmission)
  | notified (name : Name)
  deriving DecidableEq, Repr

/-- The reports that the jobs have applied to a variable, in order. -/
def Observation.report? : Observation → Option Report
  | applied m => m.report?
  | received _ | published _ _ | notified _ => none

def appliedReports (history : List Observation) : List Report :=
  history.filterMap Observation.report?

/-- JobStateEntity.h -/
structure JobStateEntity where
  robotID : Int
  retrys : Int
  lastSent : Nat
  deriving DecidableEq, Repr

/-- What the environment supplies while one event runs: the clock readings of the time manager
and its resend estimate for a robot (a function of the recorded time data). The clock is read
anew for each entity of a new job, by the number of the job, and at each test and each send of
a resend loop, by the job that is processed. The last field is what the local variables hold that
the source does not initialise. -/
structure Readings where
  localTime : Nat
  distributedTime : Nat
  estimatedResendTime : Int → Nat
  startTimes : Nat → Nat → Nat
  resendTimes : Nat → Nat → Nat
  job : Nat
  uninitialised : Nat → Int

namespace Readings

/-- A clock that stands still. -/
def still (localTime distributedTime : Nat) : Readings :=
  ⟨localTime, distributedTime, fun _ => 0, fun _ _ => localTime, fun _ _ => localTime, 0,
    fun _ => 0⟩

/-- Time sources that stand at zero. -/
def zero : Readings := still 0 0

/-- The readings for one of the jobs that are processed. -/
def forJob (r : Readings) (job : Nat) : Readings := { r with job := job }

/-- The readings of the resend loop, in the order in which it makes them. -/
def resendTime (r : Readings) (k : Nat) : Nat := r.resendTimes r.job k

end Readings

/-- `TimeManager::timeResolutionDevisor`, a static that nothing assigns. -/
def timeResolutionDevisor : Nat := 1

end CaceProofs.Source
