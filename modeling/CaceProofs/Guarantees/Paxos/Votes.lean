import CaceProofs.Library.Ballots
import CaceProofs.Source.Paxos.System

/-!
# Votes for the values of an instance

What the messages sent so far say about the votes of the acceptors, and what the records of the
acceptors promise. Each acceptor keeps its last vote, and answers a prepare request with it.
-/
namespace CaceProofs.Guarantees.Paxos
open Source.Paxos Library

/-- The acceptor accepted the value in the ballot. -/
def Voted (net : List Packet) (iid a b : Nat) (v : PaxosValue) : Prop :=
  ⟨a, .accepted ⟨iid, b, b, v⟩⟩ ∈ net

/-- An accept request for the value in the ballot was sent. -/
def Proposed (net : List Packet) (iid b : Nat) (v : PaxosValue) : Prop :=
  ∃ id, ⟨id, .accept ⟨iid, b, v⟩⟩ ∈ net

/-- The acceptor accepts nothing of the instance in the ballot any more. -/
def Past (acceptor : Option Acceptor) (iid c : Nat) : Prop :=
  ∀ a ∈ acceptor, iid ≤ a.trimIid ∨ iid < (a.store.slot iid).iid ∨
    (a.store.slot iid).iid = iid ∧ c < (a.store.slot iid).ballot

/-- The votes, the proposals and the ballots left, of one instance. -/
def voting (net : List Packet) (acceptors : Nat → Option Acceptor) (iid : Nat) :
    Voting Nat Nat PaxosValue where
  voted := Voted net iid
  proposed := Proposed net iid
  left a := Past (acceptors a) iid

/-- A quorum of acceptors accepted the value in the ballot. -/
def Chosen (n : Nat) (net : List Packet) (iid b : Nat) (v : PaxosValue) : Prop :=
  ∃ Q, (majorities n).quorum Q ∧ ∀ a ∈ Q, Voted net iid a b v

/-- More was sent, and acceptors accepted only in ballots they had not left. -/
structure Grows (net : List Packet) (acceptors : Nat → Option Acceptor) (net' : List Packet)
    (acceptors' : Nat → Option Acceptor) : Prop where
  sent : net ⊆ net'
  votes : ∀ {iid a b v}, Voted net' iid a b v → Voted net iid a b v ∨ ¬ Past (acceptors a) iid b
  past : ∀ {a iid c}, Past (acceptors a) iid c → Past (acceptors' a) iid c

/-- What an acceptor said in a promise. -/
structure Kept (net : List Packet) (acceptors : Nat → Option Acceptor) (a : Nat)
    (m : PaxosPromise) : Prop where
  past : ∀ c < m.ballot, Past (acceptors a) m.iid c
  last : ∀ c < m.ballot, ∀ w, Voted net m.iid a c w → m.value ≠ [] ∧ c ≤ m.valueBallot
  vote : m.value ≠ [] → Voted net m.iid a m.valueBallot m.value

/-- What an acceptor has on record is its last vote. -/
structure Faithful (net : List Packet) (a : Nat) (acceptor : Acceptor) : Prop where
  trim : acceptor.trimIid < 2 ^ 32
  unvoted : ∀ {iid}, (acceptor.store.slot iid).iid < iid → ∀ b v, ¬ Voted net iid a b v
  last : ∀ {iid}, (acceptor.store.slot iid).iid = iid → ∀ b v, Voted net iid a b v →
    (acceptor.store.slot iid).value ≠ [] ∧ b ≤ (acceptor.store.slot iid).valueBallot
  vote : ∀ {iid}, (acceptor.store.slot iid).iid = iid → (acceptor.store.slot iid).value ≠ [] →
    Voted net iid a (acceptor.store.slot iid).valueBallot (acceptor.store.slot iid).value
  ordered : ∀ iid, (acceptor.store.slot iid).valueBallot ≤ (acceptor.store.slot iid).ballot

/-- What a message that was sent says, where `P` holds of all values submitted. -/
def Sent (n : Nat) (P : PaxosValue → Prop) (net : List Packet)
    (acceptors : Nat → Option Acceptor) (p : Packet) : Prop :=
  match p.message with
  | .promise m => p.source < n ∧ Kept net acceptors p.source m
  | .accepted m =>
    p.source < n ∧ m.valueBallot = m.ballot ∧ Proposed net m.iid m.ballot m.value ∧ 0 < m.iid
  | .accept m =>
    (voting net acceptors m.iid).SafeAt (majorities n) m.ballot m.value ∧ P m.value ∧
      (0 < m.ballot ∧ m.iid < 2 ^ 32) ∧ ∀ w, Proposed net m.iid m.ballot w → w = m.value
  | .trim m => m.iid < 2 ^ 32
  | .acceptorState m => m.trimIid < 2 ^ 32
  -- the clients hand their values to a proposer themselves
  | .clientValue _ => False
  | _ => True

/-- The messages sent so far and the records of the acceptors. -/
structure Coherent (n : Nat) (P : PaxosValue → Prop) (net : List Packet)
    (acceptors : Nat → Option Acceptor) : Prop where
  sent : ∀ p ∈ net, Sent n P net acceptors p
  faithful : ∀ {a}, ∀ acceptor ∈ acceptors a, a < n ∧ Faithful net a acceptor

section

variable {n : Nat} {P : PaxosValue → Prop} {net net' net'' : List Packet}
  {acceptors acceptors' acceptors'' : Nat → Option Acceptor} {iid a b c : Nat} {v w : PaxosValue}

theorem Coherent.one (coherent : Coherent n P net acceptors) (first : Proposed net iid b v)
    (second : Proposed net iid b w) : v = w := by
  obtain ⟨id, request⟩ := first
  exact ((coherent.sent _ request).2.2.2 w second).symm

theorem Coherent.submitted (coherent : Coherent n P net acceptors)
    (proposed : Proposed net iid b v) : P v := by
  obtain ⟨id, request⟩ := proposed
  exact (coherent.sent _ request).2.1

theorem Coherent.positive (coherent : Coherent n P net acceptors)
    (proposed : Proposed net iid b v) : 0 < b ∧ iid < 2 ^ 32 := by
  obtain ⟨id, request⟩ := proposed
  exact (coherent.sent _ request).2.2.1

theorem Coherent.proposed_of_voted (coherent : Coherent n P net acceptors)
    (vote : Voted net iid a b v) : a < n ∧ Proposed net iid b v :=
  ⟨(coherent.sent _ vote).1, (coherent.sent _ vote).2.2.1⟩

theorem Coherent.lawful (coherent : Coherent n P net acceptors) (iid : Nat) :
    (voting net acceptors iid).Lawful (majorities n) where
  votes vote := (coherent.proposed_of_voted vote).2
  one := coherent.one
  safe := by
    rintro b v ⟨id, request⟩
    exact (coherent.sent _ request).1

/-- The values chosen for an instance are equal. -/
theorem Coherent.agreement (coherent : Coherent n P net acceptors)
    (first : Chosen n net iid b v) (second : Chosen n net iid c w) : v = w :=
  (coherent.lawful iid).agreement first second

/-- A chosen value was submitted. -/
theorem Coherent.chosen_submitted (coherent : Coherent n P net acceptors)
    (chosen : Chosen n net iid b v) : P v :=
  coherent.submitted ((coherent.lawful iid).proposed_of_chosen chosen)

theorem Voted.mono (sent : net ⊆ net') (vote : Voted net iid a b v) : Voted net' iid a b v :=
  sent vote

theorem Proposed.mono (sent : net ⊆ net') (proposed : Proposed net iid b v) :
    Proposed net' iid b v :=
  proposed.imp fun _ request => sent request

/-- An acceptor that does not vote stays faithful. -/
theorem Faithful.mono {acceptor : Acceptor} (sent : net ⊆ net')
    (same : ∀ {iid b v}, Voted net' iid a b v → Voted net iid a b v)
    (before : Faithful net a acceptor) : Faithful net' a acceptor where
  trim := before.trim
  unvoted behind b v vote := before.unvoted behind b v (same vote)
  last current b v vote := before.last current b v (same vote)
  vote current filled := (before.vote current filled).mono sent
  ordered := before.ordered

theorem Chosen.mono (sent : net ⊆ net') (chosen : Chosen n net iid b v) :
    Chosen n net' iid b v := by
  obtain ⟨Q, quorum, votes⟩ := chosen
  exact ⟨Q, quorum, fun a member => (votes a member).mono sent⟩

namespace Grows

theorem refl : Grows net acceptors net acceptors := ⟨List.Subset.refl _, .inl, id⟩

theorem trans (first : Grows net acceptors net' acceptors')
    (second : Grows net' acceptors' net'' acceptors'') : Grows net acceptors net'' acceptors'' where
  sent := List.Subset.trans first.sent second.sent
  votes vote := by
    rcases second.votes vote with earlier | open_
    · exact first.votes earlier
    · exact .inr fun past => open_ (first.past past)
  past held := second.past (first.past held)

/-- A vote in a ballot left was given before. -/
theorem earlier (grows : Grows net acceptors net' acceptors') (past : Past (acceptors a) iid c)
    (vote : Voted net' iid a c v) : Voted net iid a c v :=
  (grows.votes vote).resolve_right (not_not.mpr past)

theorem safeAt (grows : Grows net acceptors net' acceptors')
    (safe : (voting net acceptors iid).SafeAt (majorities n) b v) :
    (voting net' acceptors' iid).SafeAt (majorities n) b v := by
  have later : (voting net acceptors iid).Extends (voting net' acceptors' iid) :=
    ⟨grows.past, grows.votes⟩
  exact safe.extends later

theorem kept {m : PaxosPromise} (grows : Grows net acceptors net' acceptors')
    (kept : Kept net acceptors a m) : Kept net' acceptors' a m where
  past c less := grows.past (kept.past c less)
  last c less w vote := kept.last c less w (grows.earlier (kept.past c less) vote)
  vote filled := (kept.vote filled).mono grows.sent

/-- What was sent before is still true, if all that is new is. -/
theorem coherent (grows : Grows net acceptors net' acceptors')
    (before : Coherent n P net acceptors)
    (new : ∀ p ∈ net', p ∈ net ∨ Sent n P net' acceptors' p)
    (faithful : ∀ {a}, ∀ acceptor ∈ acceptors' a, a < n ∧ Faithful net' a acceptor) :
    Coherent n P net' acceptors' := by
  refine ⟨fun p member => ?_, faithful⟩
  rcases new p member with old | sent
  · obtain ⟨source, m⟩ := p
    have said := before.sent _ old
    cases m with
    | promise m => exact ⟨said.1, grows.kept said.2⟩
    | accepted m => exact ⟨said.1, said.2.1, said.2.2.1.mono grows.sent, said.2.2.2⟩
    | accept m =>
      obtain ⟨safe, submitted, positive, only⟩ := said
      refine ⟨grows.safeAt safe, submitted, positive, ?_⟩
      rintro w ⟨id, request⟩
      rcases new _ request with earlier | later
      · exact only w ⟨id, earlier⟩
      · exact (later.2.2.2 m.value ⟨source, member⟩).symm
    | _ => exact said
  · exact sent

end Grows

end

end CaceProofs.Guarantees.Paxos
