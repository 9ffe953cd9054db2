import CaceProofs.Source.Paxos.Messages
import Mathlib.Logic.Function.Basic

/-!
# The learner

The learner of `learner.c`, and the handlers of `evlearner.c`. A delivery is a call of the
callback with an instance number and a value.
-/
namespace CaceProofs.Source.Paxos

namespace Learner

/-- The `struct instance` of the learner. -/
structure Instance where
  iid : Nat
  lastUpdateBallot : Nat
  acks : Nat → Option PaxosAccepted
  finalValue : Option PaxosAccepted

namespace Instance

/-- `instance_new`. -/
def new : Instance := ⟨0, 0, fun _ => none, none⟩

/-- The acceptors whose answer has the ballot of the last update. -/
def agreeing (inst : Instance) (acceptors : Nat) : List Nat :=
  (List.range acceptors).filter fun i =>
    (inst.acks i).any fun ack => ack.ballot = inst.lastUpdateBallot

/-- `instance_has_quorum`, which also sets the final value. -/
def hasQuorum (inst : Instance) (acceptors : Nat) : Instance × Bool :=
  if inst.finalValue.isSome then (inst, true)
  else if paxosQuorum acceptors ≤ (inst.agreeing acceptors).length then
    ({ inst with finalValue := (inst.agreeing acceptors).getLast?.bind inst.acks }, true)
  else (inst, false)

/-- `instance_add_accept`. -/
def addAccept (inst : Instance) (accepted : PaxosAccepted) (aid : Nat) : Instance :=
  { inst with
    acks := Function.update inst.acks aid (some accepted)
    lastUpdateBallot := accepted.ballot }

/-- The first message names the instance. -/
def begin (inst : Instance) (accepted : PaxosAccepted) : Instance :=
  if inst.iid = 0 then
    { inst with iid := accepted.iid, lastUpdateBallot := accepted.ballot }
  else inst

/-- `instance_update`. -/
def update (inst : Instance) (accepted : PaxosAccepted) (fromId acceptors : Nat) : Instance :=
  let (inst, closed) := (inst.begin accepted).hasQuorum acceptors
  if closed then inst
  else if (inst.acks fromId).any fun prev => accepted.ballot ≤ prev.ballot then inst
  else inst.addAccept accepted fromId

end Instance

end Learner

structure Learner where
  acceptors : Nat
  lateStart : Bool
  currentIid : Nat
  highestIidClosed : Nat
  instances : Khash Learner.Instance

namespace Learner

/-- `learner_new`. -/
def new (acceptors : Nat) (catchUp : Bool) : Learner := ⟨acceptors, !catchUp, 1, 1, []⟩

def setInstanceId (l : Learner) (iid : Nat) : Learner :=
  { l with currentIid := u32 (iid + 1), highestIidClosed := iid }

/-- `learner_get_instance_or_create`. -/
def getInstanceOrCreate (l : Learner) (iid : Nat) : Khash Instance × Instance :=
  match l.instances.get iid with
  | some inst => (l.instances, inst)
  | none => (l.instances ++ [(iid, .new)], .new)

/-- A late starter begins with the first instance that it hears of. -/
def begin (l : Learner) (ack : PaxosAccepted) : Learner :=
  if l.lateStart then { l with lateStart := false, currentIid := ack.iid } else l

def receiveAccepted (l : Learner) (ack : PaxosAccepted) (fromId : Nat) : Learner :=
  let l := l.begin ack
  if ack.iid < l.currentIid then l
  else
    let (table, inst) := l.getInstanceOrCreate ack.iid
    let (inst, closed) := (inst.update ack fromId l.acceptors).hasQuorum l.acceptors
    { l with
      instances := table.set ack.iid inst
      highestIidClosed :=
        if closed ∧ l.highestIidClosed < inst.iid then inst.iid else l.highestIidClosed }

/-- `learner_deliver_next`. -/
def deliverNext (l : Learner) : Option (Learner × PaxosAccepted) :=
  (l.instances.get l.currentIid).bind fun inst =>
    let (inst, closed) := inst.hasQuorum l.acceptors
    if closed then
      inst.finalValue.map fun out =>
        ({ l with
          instances := l.instances.del inst.iid
          currentIid := u32 (l.currentIid + 1) }, out)
    else none

/-- `learner_has_holes`. -/
def hasHoles (l : Learner) : Option PaxosRepeat :=
  if l.currentIid < l.highestIidClosed then some ⟨l.currentIid, l.highestIidClosed⟩ else none

/-- `evlearner_check_holes`. -/
def checkHoles (l : Learner) : List PaxosMessage :=
  l.hasHoles.toList.map fun msg =>
    .repeat (if 10 < msg.toIid - msg.fromIid then { msg with toIid := msg.fromIid + 10 } else msg)

/-- The loop of `evlearner_deliver_next_closed`: each turn removes an instance. -/
def deliverLoop : Nat → Learner → Learner × List (Nat × PaxosValue)
  | 0, l => (l, [])
  | turns + 1, l =>
    match l.deliverNext with
    | none => (l, [])
    | some (l, out) =>
      ((deliverLoop turns l).1, (out.iid, out.value) :: (deliverLoop turns l).2)

def handleAccepted (l : Learner) (ack : PaxosAccepted) (fromId : Nat) :
    Learner × List (Nat × PaxosValue) :=
  let l := l.receiveAccepted ack fromId
  deliverLoop (l.instances.length + 1) l

/-- The handler that `evlearner_init_internal` subscribes. -/
def handle (l : Learner) (fromId : Nat) : PaxosMessage → Learner × List (Nat × PaxosValue)
  | .accepted m => l.handleAccepted m fromId
  | _ => (l, [])

end Learner

end CaceProofs.Source.Paxos
