import CaceProofs.Source.Paxos.Carray
import CaceProofs.Source.Paxos.System

/-!
# The calls on the queue

The calls that the functions of `proposer.c` make on their array of values, in their order, and
the array that a run leaves of the one that `proposer_new` makes.
-/
namespace CaceProofs.Source.Paxos

inductive QueueCall (α : Type) where
  | pushBack (x : α)
  | popFront

/-- The array after the calls, and what the pops return. -/
def Carray.play {α : Type} : List (QueueCall α) → Carray α → Option (Carray α × List (Option α))
  | [], a => some (a, [])
  | .pushBack x :: rest, a => (a.pushBack x).bind (play rest)
  | .popFront :: rest, a =>
    a.popFront.bind fun first => (play rest first.2).map fun last => (last.1, first.1 :: last.2)

namespace Proposer

/-- Of `proposer_accept`. -/
def acceptCalls (p : Proposer) : List (QueueCall PaxosValue) :=
  match smallest p.prepareInstances with
  | none => []
  | some inst => if inst.quorum.reached && inst.value.isNone then [.popFront] else []

/-- Of `proposer_receive_accepted`. -/
def receiveAcceptedCalls (p : Proposer) (ack : PaxosAccepted) (fromId : Nat) :
    List (QueueCall PaxosValue) :=
  match p.acceptInstances.get ack.iid with
  | none => []
  | some inst =>
    if ack.ballot = inst.ballot then
      match inst.quorum.add fromId with
      | none => []
      | some quorum => if quorum.reached then (givesBack inst).map .pushBack else []
    else []

/-- Of `proposer_receive_acceptor_state`. -/
def receiveAcceptorStateCalls (p : Proposer) (state : PaxosAcceptorState) (bucket : Nat → Nat) :
    List (QueueCall PaxosValue) :=
  if state.trimIid < p.maxTrimIid then []
  else
    ((trimInstances bucket p.prepareInstances state.trimIid).1 ++
      (trimInstances bucket p.acceptInstances state.trimIid).1).map .pushBack

/-- Of the loop of `try_accept`. -/
def acceptLoopCalls : Nat → Proposer → List (QueueCall PaxosValue)
  | 0, _ => []
  | turns + 1, p =>
    p.acceptCalls ++
      match p.accept with
      | some (p, some _) => acceptLoopCalls turns p
      | _ => []

def tryAcceptCalls (p : Proposer) : List (QueueCall PaxosValue) :=
  acceptLoopCalls (p.preparedCount + 1) p

def handleClientValueCalls (p : Proposer) (m : PaxosClientValue) : List (QueueCall PaxosValue) :=
  .pushBack m.value :: (p.propose m.value).tryAcceptCalls

/-- Of the handlers. -/
def handleCalls (now : Int) (bucket : Nat → Nat) (fromId : Nat) (p : Proposer) :
    PaxosMessage → List (QueueCall PaxosValue)
  | .promise m => (p.receivePromise m fromId now).1.tryAcceptCalls
  | .accepted m =>
    p.receiveAcceptedCalls m fromId ++
      if (p.receiveAccepted m fromId).2 then (p.receiveAccepted m fromId).1.tryAcceptCalls else []
  | .preempted m =>
    match p.receivePreempted m now with
    | some (p, some _) => p.tryAcceptCalls
    | _ => []
  | .clientValue m => p.handleClientValueCalls m
  | .acceptorState m => p.receiveAcceptorStateCalls m bucket
  | _ => []

end Proposer

namespace System

/-- The calls of the proposer when the event happens. -/
def queueCalls (id : Nat) (p : Proposer) : Event → List (QueueCall PaxosValue)
  | .submit k _ value => if k = id then p.handleClientValueCalls ⟨value⟩ else []
  | .proposerReceives k now bucket packet =>
    if k = id then p.handleCalls now bucket packet.source packet.message else []
  | _ => []

/-- The array of the proposer after a step, from the one before it. -/
def arrayStep (id : Nat) (array : Option (Carray PaxosValue)) (step : System × Event) :
    Option (Carray PaxosValue) :=
  match step.1.proposers id with
  | none => array
  | some p => (array.bind (Carray.play (queueCalls id p step.2))).map (·.1)

/-- The array of the proposer after a run. -/
def arrayAfter (id : Nat) (trace : List (System × Event)) : Option (Carray PaxosValue) :=
  trace.foldl (arrayStep id) (some (.new 128))

end System

end CaceProofs.Source.Paxos
