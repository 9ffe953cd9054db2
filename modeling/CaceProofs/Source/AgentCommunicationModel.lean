import Mathlib.Algebra.Order.Group.Unbundled.Abs
import Mathlib.Data.Rat.Floor
import CaceProofs.Library.AssocList
import CaceProofs.Library.CheckedArithmetic
import CaceProofs.Library.SlidingWindow
import CaceProofs.Source.Types

/-!
# Time messages and the network estimates

AgentTimeData.h, AgentCommunicationModel.cpp and the part of TimeManager.cpp that feeds it. The
estimators mix `long` and `unsigned long` (`ctime`); an overflow of the former is a fault.
Doubles are rational numbers; what the processor and the mathematical functions make of them is
a parameter.
-/
namespace CaceProofs.Source
open Library

/-- `(long)t` -/
def toLong (t : UInt64) : Int := (t.toNat : Int).bmod (2 ^ 64)

/-- `(ctime)x` -/
def toCtime (x : Int) : UInt64 := UInt64.ofInt x

structure AgentTimeData where
  localTime : UInt64
  distributedTime : UInt64
  distributedMessageArrivalTime : UInt64
  localMessageArrivalTime : UInt64
  robotID : Int
  deriving DecidableEq, Repr

/-- The configured statics of AgentCommunicationModel and TimeManager. -/
structure TimeConfig where
  defaultDelay : UInt64
  defaultDelayVariance : UInt64
  timeMessageInterval : UInt64

/-- Floating point: how a result is rounded, `sqrt`, and the value that `gSLLambertW1e` leaves
for a probability below and from 0.5 on. -/
structure Doubles where
  rounded : ℚ → ℚ
  sqrt : Int → ℚ
  lambertW1 : ℚ → ℚ

namespace Doubles

/-- `(double)x` -/
def ofLong (f : Doubles) (x : Int) : ℚ := f.rounded x

/-- `(long)x`, towards zero. -/
def toLong (x : ℚ) : Except ArithmeticFault Int :=
  checked (if 0 ≤ x then ⌊x⌋ else ⌈x⌉)

end Doubles

/-- AgentCommunicationModel, with the `maxEntrys` that the constructor sets. -/
structure AgentCommunicationModel where
  robotID : Int
  data : List AgentTimeData := []
  maxEntrys : Nat := 30
  deriving DecidableEq

namespace AgentCommunicationModel

variable (f : Doubles) (config : TimeConfig) (acm : AgentCommunicationModel)

def addData (adt : AgentTimeData) : AgentCommunicationModel :=
  { acm with data := evict acm.maxEntrys (acm.data ++ [adt]) }

/-- What an entry adds to the delay. -/
def delayTerm (num : Int) (atd : AgentTimeData) : Except ArithmeticFault Int := do
  let difference ←
    checked (toLong atd.distributedMessageArrivalTime - toLong atd.distributedTime)
  let delay ← checked |difference|
  return (toLong (toCtime delay)).tdiv num

def getMaxLikelihoodDelay : Except ArithmeticFault Int :=
  let num : Int := acm.data.length
  if acm.data.length ≤ 1 then return toLong config.defaultDelay
  else do
    let m ← accumulate (delayTerm num) acm.data
    return toLong (toCtime m)

/-- What an entry adds to the sum of squares, in milliseconds. -/
def squareTerm (atd : AgentTimeData) : Except ArithmeticFault Int := do
  let delay ← checked
    |(toLong atd.distributedMessageArrivalTime).tdiv 1000000
      - (toLong atd.distributedTime).tdiv 1000000|
  checked (delay * delay)

def getWeightedDelay : Except ArithmeticFault Int :=
  let num : Int := acm.data.length
  if acm.data.length ≤ 1 then return toLong config.defaultDelay
  else do
    let m ← accumulate squareTerm acm.data
    Doubles.toLong (f.rounded (f.rounded (f.sqrt m * 1000000) / f.ofLong num))

/-- What an entry adds to the variance. -/
def varianceTerm (num averageDelay : Int) (atd : AgentTimeData) :
    Except ArithmeticFault Int := do
  let delay ← checked (toLong atd.distributedMessageArrivalTime - toLong atd.distributedTime)
  let deviation ← checked (delay - averageDelay)
  let size ← checked |deviation|
  return size.tdiv num

def getMaxLikelihoodDelayVariance (averageDelay : UInt64) : Except ArithmeticFault UInt64 :=
  let num : Int := acm.data.length
  if acm.data.length ≤ 1 then return config.defaultDelayVariance
  else do
    let v ← accumulate (varianceTerm num (toLong averageDelay)) acm.data
    return toCtime v

/-- What an entry adds to the difference of the clocks. -/
def differenceTerm (delay : Int) (atd : AgentTimeData) : Except ArithmeticFault Int :=
  checked (toLong (atd.localTime + toCtime delay) - toLong atd.localMessageArrivalTime)

def getEstimatedTimeDifference : Except ArithmeticFault Int := do
  let delay ← acm.getWeightedDelay f config
  let ret ← accumulate (differenceTerm delay) acm.data
  if acm.data.length = 0 then throw .divisionByZero
  else return ret.tdiv acm.data.length

/-- The loop's `oldest` and `newest`. -/
def extremes (found : Option AgentTimeData × Option AgentTimeData) (atd : AgentTimeData) :
    Option AgentTimeData × Option AgentTimeData :=
  let oldest := found.1.getD atd
  let newest := found.2.getD atd
  (some (if atd.distributedTime < oldest.distributedTime then atd else oldest),
    some (if newest.distributedTime < atd.distributedTime then atd else newest))

/-- The message interval in nanoseconds, a product of type `unsigned long`. -/
def interval : UInt64 := config.timeMessageInterval * 1000000

/-- Division by a zero interval is infinite, and what is divided by it then zero. -/
def getProbabilityForPacketLoss : ℚ :=
  if acm.data.length < 2 then 1 / 10
  else
    match acm.data.foldl extremes (none, none) with
    | (some oldest, some newest) =>
      let diff := newest.distributedTime - oldest.distributedTime
      if diff = 0 then 1 / 10
      else if interval config = 0 then 0
      else (acm.data.length : ℚ) / (1 + (diff.toNat : ℚ) / ((interval config).toNat : ℚ))
    | _ => 1 / 10

/-- The double that `getEstimatedResendTime` casts to `ret`. -/
def quantile (v : Int) (propability : ℚ) : ℚ :=
  let val := f.rounded (f.lambertW1 propability + 2)
  if 1 / 2 ≤ propability then f.rounded (-f.ofLong v * val) else f.rounded (f.ofLong v * val)

/-- `getEstimatedResendTime(double propability)` -/
def getEstimatedResendTime (propability : ℚ) : Except ArithmeticFault UInt64 := do
  let m ← acm.getMaxLikelihoodDelay config
  let v := toLong (← acm.getMaxLikelihoodDelayVariance config (toCtime m))
  let ret ← Doubles.toLong (quantile f v propability)
  let twice ← checked (2 * m)
  let ret ← checked (ret + twice)
  return toCtime ret

/-- `trails` of `getPropabilityConsensus(ctime, double)`. -/
def consensusTrails (timeSincePacketSend : UInt64) (minResendProbability : ℚ) :
    Except ArithmeticFault Int := do
  let resendTime ← acm.getEstimatedResendTime f config minResendProbability
  if resendTime = 0 then throw .divisionByZero
  else return toInt (timeSincePacketSend / resendTime).toNat

end AgentCommunicationModel

/-- The members of TimeManager that time messages use. -/
structure TimeManager where
  timeDiff : Int := 0
  timeReceiveEvalOffeset : Int := 0
  agentModels : List (Int × AgentCommunicationModel) := []
  deriving DecidableEq

namespace TimeManager

variable (f : Doubles) (config : TimeConfig) (tm : TimeManager)

/-- The entry that `addTimeMessage` makes. -/
def timeData (ct : CaceTime) (receivedTime : UInt64) : Except ArithmeticFault AgentTimeData := do
  let receivedTime := receivedTime + toCtime tm.timeReceiveEvalOffeset
  let arrival ← checked (toLong receivedTime + tm.timeDiff)
  return {
    localTime := UInt64.ofNat ct.localtime
    distributedTime := UInt64.ofNat ct.distributedTime
    distributedMessageArrivalTime := toCtime arrival
    localMessageArrivalTime := receivedTime
    robotID := ct.senderID }

/-- `addTimeMessage` up to the call of `addData`. -/
def addEntry (agt : AgentTimeData) : TimeManager :=
  match tm.agentModels.lookup agt.robotID with
  | some model =>
    { tm with agentModels := replaceValue agt.robotID (model.addData agt) tm.agentModels }
  | none =>
    { tm with
      agentModels := insertOrdered agt.robotID
        (AgentCommunicationModel.addData { robotID := agt.robotID } agt) tm.agentModels }

/-- `addTimeMessage` from the call of `addData` on. -/
def adjust : Except ArithmeticFault TimeManager := do
  let measured := tm.agentModels.filter fun e => 1 < e.2.data.length
  let diffSum ← accumulate (fun e => e.2.getEstimatedTimeDifference f config) measured
  let correction ← checked (diffSum.tdiv (measured.length + 1) - tm.timeDiff)
  let timeDiff ← Doubles.toLong
    (f.rounded (f.ofLong tm.timeDiff + f.rounded (f.ofLong correction * f.rounded (3 / 10))))
  return { tm with timeDiff := timeDiff }

def addTimeMessage (ct : CaceTime) (receivedTime : UInt64) :
    Except ArithmeticFault TimeManager := do
  let agt ← tm.timeData ct receivedTime
  (tm.addEntry agt).adjust f config

end TimeManager

end CaceProofs.Source
