import CaceProofs.Library.EraseLoop
import CaceProofs.Source.Communication
import CaceProofs.Source.VariableUpdate

/-!
# The communication jobs

The constructors and `process()` of the eight job classes. A constructor may update a
variable and send; `process()` returns the job as it is afterwards and whether it is
finished. `agentDisengangement`, which the resend loops call, does nothing.
-/
namespace CaceProofs.Source
open Library

/-- A C++ exception that leaves the modelled code. -/
inductive Fault where
  | outOfRange
  deriving DecidableEq, Repr

/-- `CommandJob::maxRetrys` and `CommandAcknowledgeJob::maxRetrys` -/
def maxRetrys : Int := 10

/-- `(short)((int)(lamportTime + 100) * ownID)` -/
def Cace.makeMsgID (c : Cace) : Int :=
  toShort (toInt (c.lamportTime.time + 100) * c.ownID)

/-- The entities of a job, each with a reading of the clock. -/
def makeEntities (times : Nat → Nat) (robotids : List Int) (retrys : Int) : List JobStateEntity :=
  robotids.zipIdx.map fun entry => ⟨entry.1, retrys, times entry.2 / timeResolutionDevisor⟩

/-- The state of the resend loop that ends most `process()` functions. -/
structure Resend where
  cace : Cace
  remainingRetrys : Int
  entities : List JobStateEntity

/-- One pass of the inner loop: `remainingRetrys` adds up, and a robot whose last message is too
old is sent another one. The number counts the readings of the clock so far; without a retry
left it is not read. -/
def resendStep (r : Readings) (send : Cace → Int → Cace)
    (state : Cace × Int × JobStateEntity × Nat) (i : Int) : Cace × Int × JobStateEntity × Nat :=
  let (c, remainingRetrys, jse, k) := state
  if i = jse.robotID then
    let remainingRetrys := remainingRetrys + max jse.retrys 0
    if 0 < jse.retrys then
      if toULong (jse.lastSent + r.estimatedResendTime i)
          < r.resendTime k / timeResolutionDevisor then
        (send c i, remainingRetrys,
          { jse with
            lastSent := r.resendTime (k + 1) / timeResolutionDevisor
            retrys := jse.retrys - 1 }, k + 2)
      else (c, remainingRetrys, jse, k + 1)
    else (c, remainingRetrys, jse, k)
  else (c, remainingRetrys, jse, k)

def resendEntities (r : Readings) (send : Cace → Int → Cace) (expected : List Int) (c : Cace)
    (remainingRetrys : Int) (k : Nat) : List JobStateEntity → Resend
  | [] => ⟨c, remainingRetrys, []⟩
  | jse :: entities =>
    let inner := expected.foldl (resendStep r send) (c, remainingRetrys, jse, k)
    let rest := resendEntities r send expected inner.1 inner.2.1 inner.2.2.2 entities
    { rest with entities := inner.2.2.1 :: rest.entities }

/-- `remainingRetrys = 0` and the two nested loops. -/
def resendLoop (r : Readings) (send : Cace → Int → Cace) (expected : List Int)
    (entities : List JobStateEntity) (c : Cace) : Resend :=
  resendEntities r send expected c 0 0 entities

/-- The loop that erases the robots with a proposal at least as new as the job. -/
def eraseUpdated (proposals : List Believe) (lamportTime : Nat) (expected : List Int) : List Int :=
  eraseIf
    (fun id => proposals.any fun var => var.robotID == id && decide (lamportTime ≤ var.lamportAge))
    expected

/-- The loop that erases the senders of the acknowledges. -/
def eraseAnswered (newAcks : List CaceShortAck) (expected : List Int) : List Int :=
  newAcks.foldl (fun expected ca => eraseIf (fun id => id == ca.senderID) expected) expected

namespace CommandJob

def construct (r : Readings) (c : Cace) (variablePtr : VariablePtr) (value : Bytes)
    (robotids : List Int) (lamportTime : Nat) : Cace × CommandJob :=
  let cv := c.deref variablePtr
  let job : CommandJob :=
    { expectedRobotIDs := robotids
      lamportTime := lamportTime
      attempts := 0
      variablePtr := variablePtr
      entities := []
      msgID := c.makeMsgID
      value := value
      remainingRetrys := 1 }
  if .noDistribution < cv.strategy then
    (c.sendCaceCommand cv job.msgID value 0,
      { job with entities := makeEntities (r.startTimes c.jobs.length) robotids maxRetrys })
  else (c, job)

def process (r : Readings) (c : Cace) (job : CommandJob) : Cace × CommandJob × Bool :=
  let cv := c.deref job.variablePtr
  let expected := eraseUpdated cv.proposals job.lamportTime job.expectedRobotIDs
  let resend :=
    if .fireAndForget < cv.strategy then
      resendLoop r
        (fun c i => c.sendCaceCommandAt cv job.msgID job.value i job.lamportTime .again)
        expected job.entities c
    else ⟨c, job.remainingRetrys, job.entities⟩
  (resend.cace,
    { job with
      attempts := job.attempts + 1
      expectedRobotIDs := expected
      remainingRetrys := resend.remainingRetrys
      entities := resend.entities },
    expected.isEmpty || decide (resend.remainingRetrys ≤ 0) ||
      decide (cv.strategy ≤ .fireAndForget))

end CommandJob

namespace CommandAcknowledgeJob

/-- The acknowledge carries the time stamp that the handler passed; the assignment to
`lamportTime` after it changes the parameter, not a member. -/
def construct (r : Readings) (c : Cace) (robotids : List Int) (lamportTime : Nat)
    (cmd : CaceCommand) : Cace × CommandAcknowledgeJob :=
  let job : CommandAcknowledgeJob :=
    { expectedRobotIDs := robotids
      lamportTime := lamportTime
      attempts := 0
      msgID := toShort cmd.msgID
      command := cmd
      remainingRetrys := 1
      cv := none
      updatedOwnBelieve := true
      entities := []
      ownLamportTime := 0 }
  if c.safeStepMode then (c, job)
  else
    let c := doVariableUpdate r c cmd
    let job := { job with cv := some (.stored cmd.variableName) }
    if AcceptStrategy.fireAndForget.code < cmd.level then
      let cv := c.deref (.stored cmd.variableName)
      (c.sendCaceAcknowledgeAt cv.name cv.val job.msgID 0 cv.type lamportTime .first,
        { job with entities := makeEntities (r.startTimes c.jobs.length) robotids maxRetrys })
    else (c, job)

/-- The part of `process()` that does the constructor's work in safe step mode. -/
def catchUp (r : Readings) (c : Cace) (job : CommandAcknowledgeJob) :
    Cace × CommandAcknowledgeJob :=
  if job.attempts = 0 ∧ c.safeStepMode then
    let c := doVariableUpdate r c job.command
    let job := { job with cv := some (.stored job.command.variableName) }
    if job.updatedOwnBelieve ∧ AcceptStrategy.fireAndForget.code < job.command.level then
      let cv := c.deref (.stored job.command.variableName)
      let c := c.sendCaceAcknowledge cv.name cv.val job.msgID 0 cv.type
      (c, { job with
        ownLamportTime := c.lamportTime.time
        entities := job.entities ++
          makeEntities (r.startTimes r.job) job.expectedRobotIDs maxRetrys })
    else (c, job)
  else (c, job)

def process (r : Readings) (c : Cace) (job : CommandAcknowledgeJob) :
    Cace × CommandAcknowledgeJob × Bool :=
  let (c, job) := job.catchUp r c
  if job.updatedOwnBelieve then
    let (newAcks, c) := c.getCaceShortAcksAndRemove job.msgID
    let expected := eraseAnswered newAcks job.expectedRobotIDs
    let cv := (job.cv.map c.deref).getD default
    let resend :=
      if AcceptStrategy.fireAndForget.code < job.command.level then
        resendLoop r
          (fun c i => c.sendCaceAcknowledgeAt cv.name cv.val job.msgID i cv.type
            job.ownLamportTime .again)
          expected job.entities c
      else ⟨c, job.remainingRetrys, job.entities⟩
    (resend.cace,
      { job with
        attempts := job.attempts + 1
        expectedRobotIDs := expected
        remainingRetrys := resend.remainingRetrys
        entities := resend.entities },
      expected.isEmpty || decide (resend.remainingRetrys ≤ 0) ||
        decide (job.command.level ≤ AcceptStrategy.twoWayHandShake.code))
  else (c, job, true)

end CommandAcknowledgeJob

namespace BelieveNotificationJob

def construct (r : Readings) (c : Cace) (variablePtr : VariablePtr) (robotids : List Int)
    (lamportTime : Nat) : Cace × BelieveNotificationJob :=
  let cv := c.deref variablePtr
  let job : BelieveNotificationJob :=
    { expectedRobotIDs := robotids
      lamportTime := lamportTime
      attempts := 0
      variablePtr := variablePtr
      entities := []
      msgID := c.makeMsgID
      remainingRetrys := 1 }
  if .noDistribution < cv.strategy then
    (robotids.foldl (fun c id => c.sendCaceBelieveNotification cv id job.msgID) c,
      { job with
        entities := makeEntities (r.startTimes c.jobs.length) robotids c.maxCommandRetrys })
  else (c, job)

/-- The resend passes the message ID as the receiver and the robot as the message ID. -/
def process (r : Readings) (c : Cace) (job : BelieveNotificationJob) :
    Cace × BelieveNotificationJob × Bool :=
  let cv := c.deref job.variablePtr
  let expected := eraseUpdated cv.proposals job.lamportTime job.expectedRobotIDs
  let resend :=
    if .fireAndForget < cv.strategy then
      resendLoop r
        (fun c i => c.sendCaceBelieveNotificationAt cv job.msgID i job.lamportTime .again)
        expected job.entities c
    else ⟨c, job.remainingRetrys, job.entities⟩
  (resend.cace,
    { job with
      attempts := job.attempts + 1
      expectedRobotIDs := expected
      remainingRetrys := resend.remainingRetrys
      entities := resend.entities },
    expected.isEmpty || decide (resend.remainingRetrys ≤ 0) ||
      decide (cv.strategy ≤ .noDistribution))

end BelieveNotificationJob

namespace BelieveAcknowledgeJob

/-- The acknowledges to the expected robots, one each. -/
def acknowledge (c : Cace) (notification : CaceBelieveNotification) (msgID : Int)
    (expected : List Int) : Cace :=
  let cv := c.deref (.stored notification.variableName)
  expected.foldl (fun c id => c.sendCaceAcknowledge cv.name cv.val msgID id cv.type) c

/-- Here too the assignment to `lamportTime` only changes the parameter. -/
def construct (r : Readings) (c : Cace) (robotids : List Int) (lamportTime : Nat)
    (notification : CaceBelieveNotification) : Cace × BelieveAcknowledgeJob :=
  let job : BelieveAcknowledgeJob :=
    { expectedRobotIDs := robotids
      lamportTime := lamportTime
      attempts := 0
      msgID := toShort notification.msgID
      notification := notification
      remainingRetrys := 1
      updatedOwnBelieve := true
      entities := []
      ownLamportTime := 0
      maxRetrys := c.maxCommandRetrys }
  if c.safeStepMode then (c, job)
  else
    let c := doVariableUpdate r c notification
    if AcceptStrategy.fireAndForget.code < notification.level then
      (acknowledge c notification job.msgID robotids,
        { job with entities := makeEntities (r.startTimes c.jobs.length) robotids job.maxRetrys })
    else (c, job)

/-- The part of `process()` that does the constructor's work in safe step mode. -/
def catchUp (r : Readings) (c : Cace) (job : BelieveAcknowledgeJob) :
    Cace × BelieveAcknowledgeJob :=
  if job.attempts = 0 ∧ c.safeStepMode then
    let c := doVariableUpdate r c job.notification
    if job.updatedOwnBelieve ∧ AcceptStrategy.fireAndForget.code < job.notification.level then
      let c := acknowledge c job.notification job.msgID job.expectedRobotIDs
      (c, { job with
        ownLamportTime :=
          if job.expectedRobotIDs.isEmpty then job.ownLamportTime else c.lamportTime.time
        entities := job.entities ++
          makeEntities (r.startTimes r.job) job.expectedRobotIDs job.maxRetrys })
    else (c, job)
  else (c, job)

def process (r : Readings) (c : Cace) (job : BelieveAcknowledgeJob) :
    Cace × BelieveAcknowledgeJob × Bool :=
  let (c, job) := job.catchUp r c
  if job.updatedOwnBelieve then
    let (newAcks, c) := c.getCaceShortAcksAndRemove job.msgID
    let expected := eraseAnswered newAcks job.expectedRobotIDs
    let resend :=
      if AcceptStrategy.fireAndForget.code < job.notification.level then
        resendLoop r
          (fun c i => c.sendCaceAcknowledgeAt job.notification.variableName
            job.notification.value job.msgID i job.notification.type job.ownLamportTime .again)
          expected job.entities c
      else ⟨c, job.remainingRetrys, job.entities⟩
    (resend.cace,
      { job with
        attempts := job.attempts + 1
        expectedRobotIDs := expected
        remainingRetrys := resend.remainingRetrys
        entities := resend.entities },
      expected.isEmpty || decide (resend.remainingRetrys ≤ 0))
  else (c, job, true)

end BelieveAcknowledgeJob

namespace ShortAckJob

/-- The update and the short acknowledge that follows it. -/
def answer (r : Readings) (c : Cace) (ack : CaceAcknowledge) : Cace :=
  let c := doVariableUpdate r c ack
  let cv := c.deref (.stored ack.variableName)
  if .twoWayHandShake < cv.strategy then c.sendCaceShortAck cv.name ack.msgID ack.senderID else c

def construct (r : Readings) (c : Cace) (robotids : List Int) (lamportTime : Nat)
    (ack : CaceAcknowledge) : Cace × ShortAckJob :=
  let job : ShortAckJob :=
    { expectedRobotIDs := robotids, lamportTime := lamportTime, attempts := 0, ack := ack }
  (if c.safeStepMode then c else answer r c ack, job)

def process (r : Readings) (c : Cace) (job : ShortAckJob) : Cace × ShortAckJob × Bool :=
  (if job.attempts = 0 ∧ c.safeStepMode then answer r c job.ack else c,
    { job with attempts := job.attempts + 1 }, true)

end ShortAckJob

namespace WriteAckJob

/-- The update and the acknowledge that follows it. -/
def answer (r : Readings) (c : Cace) (cmd : CaceCommand) : Cace :=
  let c := doVariableUpdate r c cmd
  c.sendCaceWriteAck (c.deref (.stored cmd.variableName)).name cmd.msgID cmd.senderID

def construct (r : Readings) (c : Cace) (robotids : List Int) (lamportTime : Nat)
    (cmd : CaceCommand) : Cace × WriteAckJob :=
  let job : WriteAckJob :=
    { expectedRobotIDs := robotids, lamportTime := lamportTime, attempts := 0, cmd := cmd }
  (if c.safeStepMode then c else answer r c cmd, job)

def process (r : Readings) (c : Cace) (job : WriteAckJob) : Cace × WriteAckJob × Bool :=
  (if job.attempts = 0 ∧ c.safeStepMode then answer r c job.cmd else c,
    { job with attempts := job.attempts + 1 }, true)

end WriteAckJob

namespace WriteJob

/-- `robotids` is the single target. -/
def construct (r : Readings) (c : Cace) (variablePtr : VariablePtr) (target : Int)
    (lamportTime : Nat) : Cace × WriteJob :=
  let job : WriteJob :=
    { expectedRobotIDs := [target]
      lamportTime := lamportTime
      attempts := 0
      variablePtr := variablePtr
      msgID := c.makeMsgID
      acks := []
      entities := makeEntities (r.startTimes c.jobs.length) [target] c.maxCommandRetrys
      remainingRetrys := 1 }
  (c.sendWriteCommand (c.deref variablePtr) job.msgID target .first, job)

/-- The inner loop over the acknowledges; `at(i)` throws once `i` has become -1. -/
def scanAcks : List CaceShortAck → List Int → Int → Except Fault (List Int × Int)
  | [], expected, i => .ok (expected, i)
  | ack :: acks, expected, i =>
    if 0 ≤ i then
      match expected[i.toNat]? with
      | some id =>
        if ack.senderID = id then scanAcks acks (expected.eraseIdx i.toNat) (i - 1)
        else scanAcks acks expected i
      | none => .error .outOfRange
    else .error .outOfRange

/-- The outer loop; the length of the vector bounds the number of its passes. -/
def eraseAcknowledged (acks : List CaceShortAck) :
    Nat → List Int → Int → Except Fault (List Int)
  | 0, expected, _ => .ok expected
  | fuel + 1, expected, i =>
    if i < expected.length then
      match scanAcks acks expected i with
      | .ok (expected, i) => eraseAcknowledged acks fuel expected (i + 1)
      | .error fault => .error fault
    else .ok expected

def process (r : Readings) (c : Cace) (job : WriteJob) :
    Except Fault (Cace × WriteJob × Bool) :=
  let (newAcks, c) := c.getWriteAcknowledgesAndRemove job.msgID
  let acks := job.acks ++ newAcks
  match eraseAcknowledged acks job.expectedRobotIDs.length job.expectedRobotIDs 0 with
  | .error fault => .error fault
  | .ok expected =>
    let cv := c.deref job.variablePtr
    let resend :=
      resendLoop r (fun c i => c.sendWriteCommand cv job.msgID i .again) expected job.entities c
    .ok (resend.cace,
      { job with
        attempts := job.attempts + 1
        acks := acks
        expectedRobotIDs := expected
        remainingRetrys := resend.remainingRetrys
        entities := resend.entities },
      expected.isEmpty || decide (resend.remainingRetrys ≤ 0))

end WriteJob

namespace RequestJob

/-- `robotids` is the single target. -/
def construct (r : Readings) (c : Cace) (name : Name) (target : Int) (lamportTime : Nat) :
    Cace × RequestJob :=
  let job : RequestJob :=
    { expectedRobotIDs := [target]
      lamportTime := lamportTime
      attempts := 0
      msgID := c.makeMsgID
      entities := makeEntities (r.startTimes c.jobs.length) [target] c.maxCommandRetrys
      remainingRetrys := 1
      name := name
      ownLamportTime := 0 }
  (c.sendCaceVariableRequest target job.msgID name, job)

def process (r : Readings) (c : Cace) (job : RequestJob) : Cace × RequestJob × Bool :=
  let job := { job with attempts := job.attempts + 1 }
  if c.existsResponse job.name then (c, { job with expectedRobotIDs := [] }, true)
  else
    let expected := job.expectedRobotIDs
    let resend :=
      resendLoop r (fun c i => c.sendCaceVariableRequestAt i job.msgID job.name .again)
        expected job.entities c
    (resend.cace,
      { job with remainingRetrys := resend.remainingRetrys, entities := resend.entities },
      expected.isEmpty || decide (resend.remainingRetrys ≤ 0))

end RequestJob

/-- The virtual `process()`. -/
def Job.process (r : Readings) (c : Cace) : Job → Except Fault (Cace × Job × Bool)
  | .command j => let p := j.process r c; .ok (p.1, .command p.2.1, p.2.2)
  | .commandAcknowledge j =>
    let p := j.process r c; .ok (p.1, .commandAcknowledge p.2.1, p.2.2)
  | .believeNotification j =>
    let p := j.process r c; .ok (p.1, .believeNotification p.2.1, p.2.2)
  | .believeAcknowledge j =>
    let p := j.process r c; .ok (p.1, .believeAcknowledge p.2.1, p.2.2)
  | .shortAck j => let p := j.process r c; .ok (p.1, .shortAck p.2.1, p.2.2)
  | .write j =>
    match j.process r c with
    | .ok p => .ok (p.1, .write p.2.1, p.2.2)
    | .error fault => .error fault
  | .writeAck j => let p := j.process r c; .ok (p.1, .writeAck p.2.1, p.2.2)
  | .request j => let p := j.process r c; .ok (p.1, .request p.2.1, p.2.2)

namespace Cace

/-- The loop of `CommunicationWorker::processJobs` from the k-th job on, with the jobs that
stay. -/
def processJobsLoop (r : Readings) : Nat → List Job → Cace → Except Fault (Cace × List Job)
  | _, [], c => .ok (c, [])
  | k, job :: jobs, c =>
    match job.process (r.forJob k) c with
    | .error fault => .error fault
    | .ok (c, job, finished) =>
      let c :=
        if finished && job.failed then
          { c with agentsToRemove := c.agentsToRemove ++ job.base.expectedRobotIDs }
        else c
      match processJobsLoop r (k + 1) jobs c with
      | .error fault => .error fault
      | .ok (c, stay) => .ok (c, if finished then stay else job :: stay)

/-- `CommunicationWorker::processJobs` -/
def processJobs (r : Readings) (c : Cace) : Except Fault Cace :=
  match processJobsLoop r 0 c.jobs c with
  | .error fault => .error fault
  | .ok (c, stay) => .ok { c with jobs := stay }

end Cace

end CaceProofs.Source
