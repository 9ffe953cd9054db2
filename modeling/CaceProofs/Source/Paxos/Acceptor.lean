import CaceProofs.Source.Paxos.Messages
import Mathlib.Logic.Function.Basic

/-!
# The acceptor and its storage

The acceptor of `acceptor.c` over the storage of `storage_mem.c`, and the handlers of
`evacceptor.c`. The storage ends the process when it is asked for an instance that a later one
has replaced.
-/
namespace CaceProofs.Source.Paxos

def maxRecords : Nat := 4 * 1024

/-- A record of zeros. -/
def PaxosAccepted.zero : PaxosAccepted := ⟨0, 0, 0, []⟩

structure MemStorage where
  records : Nat → PaxosAccepted

namespace MemStorage

/-- `mem_storage_new`. -/
def new : MemStorage := ⟨fun _ => .zero⟩

/-- The record in the slot of the instance. -/
def slot (s : MemStorage) (iid : Nat) : PaxosAccepted := s.records (iid % maxRecords)

/-- `mem_storage_get`: nothing at the exit of the process, else the record if it is the
instance's. -/
def get (s : MemStorage) (iid : Nat) : Option (Option PaxosAccepted) :=
  if iid < (s.slot iid).iid then none
  else if iid = (s.slot iid).iid then some (some (s.slot iid)) else some none

def put (s : MemStorage) (acc : PaxosAccepted) : MemStorage :=
  ⟨Function.update s.records (acc.iid % maxRecords) acc⟩

/-- `mem_storage_trim`. -/
def trim (s : MemStorage) (_iid : Nat) : MemStorage := s

/-- `mem_storage_get_trim_instance`. -/
def getTrimInstance (_s : MemStorage) : Nat := 0

end MemStorage

structure Acceptor where
  trimIid : Nat
  store : MemStorage

def paxosAcceptedToPromise (acc : PaxosAccepted) : PaxosPromise :=
  ⟨acc.iid, acc.ballot, acc.valueBallot, acc.value⟩

def paxosAcceptToAccepted (acc : PaxosAccept) : PaxosAccepted :=
  ⟨acc.iid, acc.ballot, acc.ballot, acc.value⟩

def paxosAcceptedToPreempted (acc : PaxosAccepted) : PaxosPreempted := ⟨acc.iid, acc.ballot⟩

namespace Acceptor

/-- `acceptor_new`. -/
def new : Acceptor := ⟨MemStorage.new.getTrimInstance, .new⟩

/-- `acceptor_receive_prepare`: nothing at the exit of the process, else the answer, if any. -/
def receivePrepare (a : Acceptor) (req : PaxosPrepare) :
    Option (Acceptor × Option PaxosMessage) :=
  if req.iid ≤ a.trimIid then some (a, none)
  else
    (a.store.get req.iid).map fun found =>
      let acc := found.getD .zero
      if found = none ∨ acc.ballot ≤ req.ballot then
        let acc := { acc with iid := req.iid, ballot := req.ballot }
        ({ a with store := a.store.put acc }, some (.promise (paxosAcceptedToPromise acc)))
      else (a, some (.promise (paxosAcceptedToPromise acc)))

/-- `acceptor_receive_accept`. -/
def receiveAccept (a : Acceptor) (req : PaxosAccept) : Option (Acceptor × Option PaxosMessage) :=
  if req.iid ≤ a.trimIid then some (a, none)
  else
    (a.store.get req.iid).map fun found =>
      let acc := found.getD .zero
      if found = none ∨ acc.ballot ≤ req.ballot then
        let out := paxosAcceptToAccepted req
        ({ a with store := a.store.put out }, some (.accepted out))
      else (a, some (.preempted (paxosAcceptedToPreempted acc)))

/-- `acceptor_receive_repeat`: a record with a value is answered as it is stored. -/
def receiveRepeat (a : Acceptor) (iid : Nat) : Option (Option PaxosAccepted) :=
  (a.store.get iid).map fun found => found.filter fun acc => 0 < acc.value.length

/-- `acceptor_receive_trim`. -/
def receiveTrim (a : Acceptor) (trim : PaxosTrim) : Acceptor :=
  if trim.iid ≤ a.trimIid then a
  else { a with trimIid := trim.iid, store := a.store.trim trim.iid }

/-- `acceptor_set_current_state`. -/
def setCurrentState (a : Acceptor) : PaxosAcceptorState := ⟨a.trimIid⟩

/-- What is sent of an answer. -/
def answer : Option (Acceptor × Option PaxosMessage) → Outcome Acceptor
  | none => ⟨none, []⟩
  | some (a, out) => ⟨some a, out.toList⟩

/-- The loop of `evacceptor_handle_repeat`. -/
def repeatLoop (a : Acceptor) : List Nat → Outcome Acceptor
  | [] => ⟨some a, []⟩
  | iid :: iids =>
    match a.receiveRepeat iid with
    | none => ⟨none, []⟩
    | some out =>
      ⟨(a.repeatLoop iids).party, (out.map .accepted).toList ++ (a.repeatLoop iids).sent⟩

/-- `evacceptor_handle_repeat`: where the counter wraps, the loop ends with the process or never,
and handles no other message. -/
def handleRepeat (a : Acceptor) (m : PaxosRepeat) : Outcome Acceptor :=
  let answered := a.repeatLoop m.iids
  if m.wraps then { answered with party := none } else answered

/-- The handlers that `evacceptor_init_internal` subscribes. -/
def handle (a : Acceptor) : PaxosMessage → Outcome Acceptor
  | .prepare m => answer (a.receivePrepare m)
  | .accept m => answer (a.receiveAccept m)
  | .repeat m => a.handleRepeat m
  | .trim m => ⟨some (a.receiveTrim m), []⟩
  | _ => ⟨some a, []⟩

/-- `send_acceptor_state`. -/
def sendAcceptorState (a : Acceptor) : Outcome Acceptor :=
  ⟨some a, [.acceptorState a.setCurrentState]⟩

end Acceptor

end CaceProofs.Source.Paxos
