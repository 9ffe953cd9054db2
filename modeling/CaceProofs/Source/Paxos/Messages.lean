import CaceProofs.Source.Types
import Mathlib.Data.Finset.Insert
import Mathlib.Data.Finset.Card

/-!
# Messages and quorums of the Paxos library

Instance numbers and ballots are of 32 bits, and a value of length 0 is the one that is absent.
A hash table is the list of its entries.
-/
namespace CaceProofs.Source.Paxos

/-- The value of an `iid_t` or a `ballot_t`. -/
def u32 (n : Nat) : Nat := n % 2 ^ 32

abbrev PaxosValue := Bytes

structure PaxosPrepare where
  iid : Nat
  ballot : Nat
  deriving DecidableEq

structure PaxosPromise where
  iid : Nat
  ballot : Nat
  valueBallot : Nat
  value : PaxosValue
  deriving DecidableEq

structure PaxosAccept where
  iid : Nat
  ballot : Nat
  value : PaxosValue
  deriving DecidableEq

@[ext] structure PaxosAccepted where
  iid : Nat
  ballot : Nat
  valueBallot : Nat
  value : PaxosValue
  deriving DecidableEq

structure PaxosPreempted where
  iid : Nat
  ballot : Nat
  deriving DecidableEq

structure PaxosRepeat where
  fromIid : Nat
  toIid : Nat
  deriving DecidableEq

/-- The counter of the loop over the instances never exceeds the last 32-bit number. -/
def PaxosRepeat.wraps (m : PaxosRepeat) : Bool := u32 (m.toIid + 1) ≤ m.toIid

/-- The instances that the loop comes to, each listed at its first turn and, where the counter
wraps, at the next one. -/
def PaxosRepeat.iids (m : PaxosRepeat) : List Nat :=
  List.range' m.fromIid (m.toIid + 1 - m.fromIid) ++ if m.wraps then List.range (2 ^ 32) else []

structure PaxosTrim where
  iid : Nat
  deriving DecidableEq

structure PaxosAcceptorState where
  trimIid : Nat
  deriving DecidableEq

structure PaxosClientValue where
  value : PaxosValue
  deriving DecidableEq

inductive PaxosMessage where
  | prepare (m : PaxosPrepare)
  | promise (m : PaxosPromise)
  | accept (m : PaxosAccept)
  | accepted (m : PaxosAccepted)
  | preempted (m : PaxosPreempted)
  | repeat (m : PaxosRepeat)
  | trim (m : PaxosTrim)
  | acceptorState (m : PaxosAcceptorState)
  | clientValue (m : PaxosClientValue)
  deriving DecidableEq

/-- The repeat request that a message is. -/
def PaxosMessage.repeat? : PaxosMessage → Option PaxosRepeat
  | .repeat m => some m
  | _ => none

/-- What a handler leaves: the party, unless its process ended, and the messages that it sent. -/
structure Outcome (Party : Type) where
  party : Option Party
  sent : List PaxosMessage

namespace Outcome

variable {Party : Type}

def andThen (o : Outcome Party) (next : Party → Outcome Party) : Outcome Party :=
  match o.party with
  | none => o
  | some party => ⟨(next party).party, o.sent ++ (next party).sent⟩

end Outcome

def paxosQuorum (acceptors : Nat) : Nat := acceptors / 2 + 1

structure Quorum where
  acceptors : Nat
  quorum : Nat
  count : Nat
  acceptorIds : Finset Nat
  majority : quorum = paxosQuorum acceptors
  counted : count = acceptorIds.card

namespace Quorum

/-- `quorum_init`. -/
def init (acceptors : Nat) : Quorum := ⟨acceptors, paxosQuorum acceptors, 0, ∅, rfl, rfl⟩

def clear (q : Quorum) : Quorum := { q with count := 0, acceptorIds := ∅, counted := rfl }

/-- `quorum_add`: nothing where the acceptor has been counted. -/
def add (q : Quorum) (id : Nat) : Option Quorum :=
  if fresh : id ∈ q.acceptorIds then none
  else
    some { q with
      count := q.count + 1
      acceptorIds := insert id q.acceptorIds
      counted := by rw [Finset.card_insert_of_notMem fresh, q.counted] }

def reached (q : Quorum) : Bool := q.quorum ≤ q.count

theorem add_spec {q q' : Quorum} {id : Nat} (added : q.add id = some q') :
    q'.acceptors = q.acceptors ∧ q'.acceptorIds = insert id q.acceptorIds := by
  unfold add at added
  split at added
  · cases added
  · cases added
    exact ⟨rfl, rfl⟩

end Quorum

/-- A `khash_t` keyed by instance number. -/
abbrev Khash (α : Type) := List (Nat × α)

namespace Khash

variable {α : Type}

def get (table : Khash α) (iid : Nat) : Option α := List.lookup iid table

/-- `kh_put` of a key that the table must not have: nothing where the assertion fails. -/
def put (table : Khash α) (iid : Nat) (inst : α) : Option (Khash α) :=
  if table.any (·.1 = iid) then none else some (table ++ [(iid, inst)])

/-- An update of the instance that the table points to. -/
def set (table : Khash α) (iid : Nat) (inst : α) : Khash α :=
  table.map fun entry => if entry.1 = iid then (iid, inst) else entry

def del (table : Khash α) (iid : Nat) : Khash α := table.filter (·.1 ≠ iid)

end Khash

end CaceProofs.Source.Paxos
