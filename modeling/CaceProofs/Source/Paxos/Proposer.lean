import CaceProofs.Source.Paxos.Messages

/-!
# The proposer

The proposer of `proposer.c`, and the handlers of `evproposer.c`. Times are the seconds that
`gettimeofday` gives. A failed assertion ends the process.
-/
namespace CaceProofs.Source.Paxos

def maxNOfProposers : Nat := 10

structure Instance where
  iid : Nat
  ballot : Nat
  value : Option PaxosValue
  promisedValue : Option PaxosValue
  valueBallot : Nat
  quorum : Quorum
  createdAt : Int

namespace Instance

/-- `instance_new`; nothing where its assertion fails. -/
def new (iid ballot acceptors : Nat) (now : Int) : Option Instance :=
  if 0 < iid then some ⟨iid, ballot, none, none, 0, .init acceptors, now⟩ else none

def hasTimedout (inst : Instance) (timeout now : Int) : Bool := timeout ≤ now - inst.createdAt

/-- `instance_to_accept`. The callers have a value or a promised value. -/
def toAccept (inst : Instance) : PaxosAccept :=
  ⟨inst.iid, inst.ballot, (inst.promisedValue.orElse fun _ => inst.value).getD []⟩

/-- What `proposer_receive_promise` keeps of the promise of a newly counted acceptor. -/
def takePromise (inst : Instance) (quorum : Quorum) (ack : PaxosPromise) : Instance :=
  if 0 < ack.value.length ∧ inst.valueBallot < ack.valueBallot then
    { inst with quorum, valueBallot := ack.valueBallot, promisedValue := some ack.value }
  else { inst with quorum }

end Instance

structure Proposer where
  id : Nat
  acceptors : Nat
  values : List PaxosValue
  maxTrimIid : Nat
  nextPrepareIid : Nat
  prepareInstances : Khash Instance
  acceptInstances : Khash Instance

namespace Proposer

/-- `proposer_new`. -/
def new (id acceptors : Nat) : Proposer := ⟨id, acceptors, [], 0, 0, [], []⟩

def propose (p : Proposer) (value : PaxosValue) : Proposer :=
  { p with values := p.values ++ [value] }

def preparedCount (p : Proposer) : Nat := p.prepareInstances.length

def setInstanceId (p : Proposer) (iid : Nat) : Proposer := { p with nextPrepareIid := iid }

def nextBallot (p : Proposer) (b : Nat) : Nat :=
  if 0 < b then u32 (maxNOfProposers + b) else u32 (maxNOfProposers + p.id)

/-- `proposer_prepare`. -/
def prepare (p : Proposer) (now : Int) : Option (Proposer × PaxosPrepare) :=
  let iid := u32 (p.nextPrepareIid + 1)
  (Instance.new iid (p.nextBallot 0) p.acceptors now).bind fun inst =>
    (p.prepareInstances.put iid inst).map fun table =>
      ({ p with nextPrepareIid := iid, prepareInstances := table }, ⟨inst.iid, inst.ballot⟩)

/-- `proposer_preempt`, of the instance. -/
def preempt (p : Proposer) (inst : Instance) (now : Int) : Instance :=
  { inst with
    ballot := p.nextBallot inst.ballot
    valueBallot := 0
    promisedValue := none
    quorum := inst.quorum.clear
    createdAt := now }

/-- `proposer_move_instance`: the tables without and with the instance. -/
def moveInstance (f t : Khash Instance) (inst : Instance) :
    Option (Khash Instance × Khash Instance) :=
  match f.get inst.iid with
  | none => none
  | some _ =>
    (t.put inst.iid { inst with quorum := inst.quorum.clear }).map fun t => (f.del inst.iid, t)

def receivePromise (p : Proposer) (ack : PaxosPromise) (fromId : Nat) (now : Int) :
    Proposer × Option PaxosPrepare :=
  match p.prepareInstances.get ack.iid with
  | none => (p, none)
  | some inst =>
    if ack.ballot < inst.ballot then (p, none)
    else if inst.ballot < ack.ballot then
      let inst := p.preempt inst now
      ({ p with prepareInstances := p.prepareInstances.set ack.iid inst },
        some ⟨inst.iid, inst.ballot⟩)
    else
      match inst.quorum.add fromId with
      | none => (p, none)
      | some quorum =>
        ({ p with prepareInstances :=
            p.prepareInstances.set ack.iid (inst.takePromise quorum ack) }, none)

/-- A pass of the loop of `proposer_accept`. -/
def smaller (inst : Option Instance) (entry : Nat × Instance) : Option Instance :=
  match inst with
  | none => some entry.2
  | some inst => if entry.2.iid < inst.iid then some entry.2 else some inst

/-- The instance with the smallest number. -/
def smallest (table : Khash Instance) : Option Instance := table.foldl smaller none

/-- The instance with a value of the queue, if it has none of its own, and what is left of the
queue. -/
def takeValue (p : Proposer) (inst : Instance) : Instance × List PaxosValue :=
  match inst.value with
  | some _ => (inst, p.values)
  | none => ({ inst with value := p.values.head? }, p.values.tail)

/-- `proposer_accept`: nothing where an assertion fails, else the accept request, if any. -/
def accept (p : Proposer) : Option (Proposer × Option PaxosAccept) :=
  match smallest p.prepareInstances with
  | none => some (p, none)
  | some inst =>
    if !inst.quorum.reached then some (p, none)
    else
      let (inst, values) := p.takeValue inst
      -- without a value the queue was empty, and nothing has changed
      if inst.value.isNone ∧ inst.promisedValue.isNone then some (p, none)
      else
        (moveInstance p.prepareInstances p.acceptInstances inst).map fun (f, t) =>
          ({ p with values, prepareInstances := f, acceptInstances := t }, some inst.toAccept)

/-- The own value that a closed instance gives back, unless it was the one accepted. -/
def givesBack (inst : Instance) : List PaxosValue :=
  match inst.value, inst.promisedValue with
  | some value, some promised => if value ≠ promised then [value] else []
  | _, _ => []

def receiveAccepted (p : Proposer) (ack : PaxosAccepted) (fromId : Nat) : Proposer × Bool :=
  match p.acceptInstances.get ack.iid with
  | none => (p, false)
  | some inst =>
    if ack.ballot = inst.ballot then
      match inst.quorum.add fromId with
      | none => (p, false)
      | some quorum =>
        if quorum.reached then
          ({ p with
            values := p.values ++ givesBack inst
            acceptInstances := p.acceptInstances.del ack.iid }, true)
        else
          ({ p with acceptInstances := p.acceptInstances.set ack.iid { inst with quorum } }, true)
    else (p, false)

def receivePreempted (p : Proposer) (ack : PaxosPreempted) (now : Int) :
    Option (Proposer × Option PaxosPrepare) :=
  match p.acceptInstances.get ack.iid with
  | none => some (p, none)
  | some inst =>
    if inst.ballot < ack.ballot then
      (moveInstance p.acceptInstances p.prepareInstances inst).map fun (f, t) =>
        let inst := p.preempt inst now
        ({ p with acceptInstances := f, prepareInstances := t.set ack.iid inst },
          some ⟨inst.iid, inst.ballot⟩)
    else some (p, none)

/-- `proposer_trim_instances`: the values given back in the order of the buckets that the keys
are in, and the table that is left. -/
def trimInstances (bucket : Nat → Nat) (table : Khash Instance) (iid : Nat) :
    List PaxosValue × Khash Instance :=
  (((table.filter (·.2.iid ≤ iid)).mergeSort fun e e' => bucket e.1 ≤ bucket e'.1).filterMap
      (·.2.value),
    table.filter fun e => ¬ e.2.iid ≤ iid)

def receiveAcceptorState (p : Proposer) (state : PaxosAcceptorState) (bucket : Nat → Nat) :
    Proposer :=
  if state.trimIid < p.maxTrimIid then p
  else
    let prepares := trimInstances bucket p.prepareInstances state.trimIid
    let accepts := trimInstances bucket p.acceptInstances state.trimIid
    { p with
      maxTrimIid := state.trimIid
      nextPrepareIid :=
        if p.nextPrepareIid < state.trimIid then state.trimIid else p.nextPrepareIid
      values := p.values ++ prepares.1 ++ accepts.1
      prepareInstances := prepares.2
      acceptInstances := accepts.2 }

/-- `proposer_preexecute`, for the number of instances that the window leaves. -/
def preexecuteLoop (now : Int) : Nat → Proposer → Outcome Proposer
  | 0, p => ⟨some p, []⟩
  | count + 1, p =>
    match p.prepare now with
    | none => ⟨none, []⟩
    | some (p, pr) => (Outcome.mk (some p) [.prepare pr]).andThen (preexecuteLoop now count)

def preexecute (window : Nat) (now : Int) (p : Proposer) : Outcome Proposer :=
  preexecuteLoop now (window - p.preparedCount) p

/-- The loop of `try_accept`: each turn moves an instance out of the prepare table. -/
def acceptLoop : Nat → Proposer → Outcome Proposer
  | 0, p => ⟨some p, []⟩
  | turns + 1, p =>
    match p.accept with
    | none => ⟨none, []⟩
    | some (p, none) => ⟨some p, []⟩
    | some (p, some acc) => (Outcome.mk (some p) [.accept acc]).andThen (acceptLoop turns)

def tryAccept (window : Nat) (now : Int) (p : Proposer) : Outcome Proposer :=
  (acceptLoop (p.preparedCount + 1) p).andThen (preexecute window now)

def handlePromise (window : Nat) (now : Int) (fromId : Nat) (m : PaxosPromise) (p : Proposer) :
    Outcome Proposer :=
  let (p, out) := p.receivePromise m fromId now
  (Outcome.mk (some p) (out.map .prepare).toList).andThen (tryAccept window now)

def handleAccepted (window : Nat) (now : Int) (fromId : Nat) (m : PaxosAccepted) (p : Proposer) :
    Outcome Proposer :=
  let (p, counted) := p.receiveAccepted m fromId
  if counted then tryAccept window now p else ⟨some p, []⟩

def handlePreempted (window : Nat) (now : Int) (m : PaxosPreempted) (p : Proposer) :
    Outcome Proposer :=
  match p.receivePreempted m now with
  | none => ⟨none, []⟩
  | some (p, none) => ⟨some p, []⟩
  | some (p, some pr) => (Outcome.mk (some p) [.prepare pr]).andThen (tryAccept window now)

def handleClientValue (window : Nat) (now : Int) (m : PaxosClientValue) (p : Proposer) :
    Outcome Proposer :=
  tryAccept window now (p.propose m.value)

/-- The handlers that `evproposer_init_internal` subscribes. -/
def handle (window : Nat) (now : Int) (bucket : Nat → Nat) (fromId : Nat) (p : Proposer) :
    PaxosMessage → Outcome Proposer
  | .promise m => p.handlePromise window now fromId m
  | .accepted m => p.handleAccepted window now fromId m
  | .preempted m => p.handlePreempted window now m
  | .clientValue m => p.handleClientValue window now m
  | .acceptorState m => ⟨some (p.receiveAcceptorState m bucket), []⟩
  | _ => ⟨some p, []⟩

/-- Whether the timeout iterator stops at an instance. -/
def resends (timeout now : Int) (inst : Instance) : Bool :=
  !inst.quorum.reached && inst.hasTimedout timeout now

/-- The table after a pass of the timeout iterator. -/
def restamp (timeout now : Int) (table : Khash Instance) : Khash Instance :=
  table.map fun entry =>
    (entry.1, if resends timeout now entry.2 then { entry.2 with createdAt := now } else entry.2)

/-- `evproposer_check_timeouts`, of a positive timeout. -/
def checkTimeouts (timeout now : Int) (p : Proposer) : Outcome Proposer :=
  let due := fun (table : Khash Instance) => (table.map (·.2)).filter (resends timeout now)
  ⟨some { p with
      prepareInstances := restamp timeout now p.prepareInstances
      acceptInstances := restamp timeout now p.acceptInstances },
    (due p.prepareInstances).map (fun inst => .prepare ⟨inst.iid, inst.ballot⟩) ++
      (due p.acceptInstances).map fun inst => .accept inst.toAccept⟩

end Proposer

end CaceProofs.Source.Paxos
