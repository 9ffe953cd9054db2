import CaceProofs.Source.ConsensusVariable
import CaceProofs.Library.AssocList

/-!
# Jobs and the state of one agent

The members of the job classes (include/communication/jobs), of Cace,
CaceCommunication, CommunicationWorker, TimeManager, CVariableStore and CaceSpace
that the modelled functions read or write.

A `shared_ptr` to a variable is either the name it is stored under or a variable
that is not in the store; jobs only read through it, and the store never replaces
the variable of a name.
-/
namespace CaceProofs.Source

inductive VariablePtr where
  | stored (name : Name)
  | detached (cv : ConsensusVariable)
  deriving DecidableEq, Repr

structure AbstractCommunicationJob where
  expectedRobotIDs : List Int
  lamportTime : Nat
  attempts : Nat
  deriving DecidableEq, Repr

structure CommandJob extends AbstractCommunicationJob where
  variablePtr : VariablePtr
  entities : List JobStateEntity
  msgID : Int
  value : Bytes
  remainingRetrys : Int
  deriving DecidableEq, Repr

/-- `ownLamportTime` is the member `lamportTime` that this class declares again: it
hides the one of the base class, which is what the base constructor sets. -/
structure CommandAcknowledgeJob extends AbstractCommunicationJob where
  msgID : Int
  command : CaceCommand
  remainingRetrys : Int
  cv : Option VariablePtr
  updatedOwnBelieve : Bool
  entities : List JobStateEntity
  ownLamportTime : Nat
  deriving DecidableEq, Repr

structure BelieveNotificationJob extends AbstractCommunicationJob where
  variablePtr : VariablePtr
  entities : List JobStateEntity
  msgID : Int
  remainingRetrys : Int
  deriving DecidableEq, Repr

/-- `ownLamportTime` as in `CommandAcknowledgeJob`. -/
structure BelieveAcknowledgeJob extends AbstractCommunicationJob where
  msgID : Int
  notification : CaceBelieveNotification
  remainingRetrys : Int
  updatedOwnBelieve : Bool
  entities : List JobStateEntity
  ownLamportTime : Nat
  maxRetrys : Int
  deriving DecidableEq, Repr

structure ShortAckJob extends AbstractCommunicationJob where
  ack : CaceAcknowledge
  deriving DecidableEq, Repr

structure WriteJob extends AbstractCommunicationJob where
  variablePtr : VariablePtr
  msgID : Int
  acks : List CaceShortAck
  entities : List JobStateEntity
  remainingRetrys : Int
  deriving DecidableEq, Repr

structure WriteAckJob extends AbstractCommunicationJob where
  cmd : CaceCommand
  deriving DecidableEq, Repr

/-- `ownLamportTime` as in `CommandAcknowledgeJob`. -/
structure RequestJob extends AbstractCommunicationJob where
  msgID : Int
  entities : List JobStateEntity
  remainingRetrys : Int
  name : Name
  ownLamportTime : Nat
  deriving DecidableEq, Repr

inductive Job where
  | command (j : CommandJob)
  | commandAcknowledge (j : CommandAcknowledgeJob)
  | believeNotification (j : BelieveNotificationJob)
  | believeAcknowledge (j : BelieveAcknowledgeJob)
  | shortAck (j : ShortAckJob)
  | write (j : WriteJob)
  | writeAck (j : WriteAckJob)
  | request (j : RequestJob)
  deriving DecidableEq, Repr

namespace Job

/-- The part every job shares. -/
def base : Job → AbstractCommunicationJob
  | command j => j.toAbstractCommunicationJob
  | commandAcknowledge j => j.toAbstractCommunicationJob
  | believeNotification j => j.toAbstractCommunicationJob
  | believeAcknowledge j => j.toAbstractCommunicationJob
  | shortAck j => j.toAbstractCommunicationJob
  | write j => j.toAbstractCommunicationJob
  | writeAck j => j.toAbstractCommunicationJob
  | request j => j.toAbstractCommunicationJob

/-- `failed()`; the two answering jobs keep the base class version. -/
def failed : Job → Bool
  | command j => decide (j.remainingRetrys ≤ 0)
  | commandAcknowledge j => decide (j.remainingRetrys ≤ 0)
  | believeNotification j => decide (j.remainingRetrys ≤ 0)
  | believeAcknowledge j => decide (j.remainingRetrys ≤ 0)
  | shortAck _ => false
  | write j => decide (j.remainingRetrys ≤ 0)
  | writeAck _ => false
  | request j => decide (j.remainingRetrys ≤ 0)

end Job

/-- One agent. `quiet` tells whether the communication module is the quiet one.
`history` lists what has been observed of the agent; no modelled function reads it. -/
structure Cace where
  quiet : Bool
  ownID : Int
  agentBlacklist : List Int
  commands : List CaceCommand
  believeNotifications : List CaceBelieveNotification
  shortAcks : List CaceShortAck
  writeAcknowledges : List CaceShortAck
  jobs : List Job
  agentsToRemove : List Int
  lamportTime : LamportTime
  store : List (Name × ConsensusVariable)
  responses : List ConsensusVariable
  spaceOwnID : Int
  activeRobots : List Int
  localScope : List Name
  safeStepMode : Bool
  quietMode : Bool
  maxCommandRetrys : Int
  history : List Observation
  deriving DecidableEq, Repr

namespace Cace

/-- The constructor `Cace(prefix, id, quiet)`, for an ID other than zero. -/
def construct (id : Int) (quiet : Bool) (maxCommandRetrys : Int) : Cace where
  quiet := quiet
  ownID := toShort id
  agentBlacklist := [toShort id]
  commands := []
  believeNotifications := []
  shortAcks := []
  writeAcknowledges := []
  jobs := []
  agentsToRemove := []
  lamportTime := { time := 1 }
  store := []
  responses := []
  spaceOwnID := toShort id
  activeRobots := []
  localScope := []
  safeStepMode := false
  quietMode := false
  maxCommandRetrys := maxCommandRetrys
  history := []

/-- `CVariableStore::getVariable`; `existsVariable` is whether it finds one. -/
def getVariable (c : Cace) (name : Name) : Option ConsensusVariable :=
  c.store.lookup name

/-- Assignment through the pointer that `getVariable` returned. -/
def setVariable (c : Cace) (name : Name) (cv : ConsensusVariable) : Cace :=
  { c with store := Library.replaceValue name cv c.store }

/-- The effect of `CVariableStore::addVariable`. -/
def insertVariable (c : Cace) (cv : ConsensusVariable) : Cace :=
  if (c.getVariable cv.name).isSome then c
  else { c with store := Library.insertOrdered cv.name cv c.store }

/-- Dereferences a variable pointer. -/
def deref (c : Cace) : VariablePtr → ConsensusVariable
  | .stored name => (c.getVariable name).getD default
  | .detached cv => cv

/-- `CommunicationWorker::appendJob` -/
def appendJob (c : Cace) (job : Job) : Cace :=
  { c with jobs := c.jobs ++ [job] }

def observe (c : Cace) (o : Observation) : Cace :=
  { c with history := c.history ++ [o] }

/-- `ConsensusVariable::notify` of the variable with that name. -/
def notify (c : Cace) (name : Name) : Cace :=
  c.observe (.notified name)

/-- `timeManager->lamportTime++` -/
def tickLamportTime (c : Cace) : Cace :=
  { c with lamportTime := c.lamportTime.tick }

/-- `TimeManager::updateLamportTime` -/
def updateLamportTime (c : Cace) (seenTime : Nat) : Cace :=
  { c with lamportTime := c.lamportTime.witness seenTime }

/-- `CVariableStore::invalidate` -/
def invalidate (c : Cace) (distributedTime : Nat) : Cace :=
  { c with
    store := c.store.map fun e =>
      if e.2.validityTime < distributedTime then (e.1, { e.2 with hasValue := false }) else e }

/-- `CVariableStore::existsResponse` -/
def existsResponse (c : Cace) (name : Name) : Bool :=
  c.responses.any fun v => v.name == name

/-- The loop of `CVariableStore::deleteResponse`: after an erase the index still moves
on, so the response behind an erased one is not looked at. -/
def deleteResponseLoop (name : Name) : List ConsensusVariable → List ConsensusVariable
  | [] => []
  | v :: rest =>
    if v.name = name then
      match rest with
      | [] => []
      | skipped :: rest => skipped :: deleteResponseLoop name rest
    else v :: deleteResponseLoop name rest

def deleteResponse (c : Cace) (name : Name) : Cace :=
  { c with responses := deleteResponseLoop name c.responses }

/-- The loop of `CVariableStore::getResponse`: the first response of the name, erased. -/
def getResponseLoop (name : Name) :
    List ConsensusVariable → Option ConsensusVariable × List ConsensusVariable
  | [] => (none, [])
  | v :: rest =>
    if v.name = name then (some v, rest)
    else
      let found := getResponseLoop name rest
      (found.1, v :: found.2)

def getResponse (c : Cace) (name : Name) : Option ConsensusVariable × Cace :=
  let found := getResponseLoop name c.responses
  (found.1, { c with responses := found.2 })

end Cace

end CaceProofs.Source
