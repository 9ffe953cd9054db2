import CaceProofs.Library.Runs
import CaceProofs.Source.Paxos.Acceptor
import CaceProofs.Source.Paxos.Learner
import CaceProofs.Source.Paxos.Proposer

/-!
# Acceptors, proposers and learners together

The parties and every message sent so far. A message can be delivered any number of times, to
any party that subscribed to its type, or never. No process is started again.
-/
namespace CaceProofs.Source.Paxos

structure Packet where
  source : Nat
  message : PaxosMessage
  deriving DecidableEq

structure System where
  acceptors : Nat → Option Acceptor
  proposers : Nat → Option Proposer
  learners : Nat → Learner
  delivered : Nat → List (Nat × PaxosValue)
  net : List Packet
  preexecWindow : Nat
  proposerTimeout : Int

namespace System

inductive Event where
  | submit (id : Nat) (now : Int) (value : PaxosValue)
  | sendTrim (iid : Nat)
  | acceptorReceives (a : Nat) (packet : Packet)
  | acceptorTimer (a : Nat)
  | proposerReceives (id : Nat) (now : Int) (bucket : Nat → Nat) (packet : Packet)
  | preexecOnce (id : Nat) (now : Int)
  | checkTimeouts (id : Nat) (now : Int)
  | setInstanceId (id iid : Nat)
  | learnerReceives (l : Nat) (packet : Packet)
  | checkHoles (l : Nat)
  | setLearnerInstanceId (l iid : Nat)

def send (s : System) (source : Nat) (sent : List PaxosMessage) : List Packet :=
  s.net ++ sent.map (Packet.mk source)

/-- The acceptor handles something, if its process runs. -/
def atAcceptor (s : System) (a : Nat) (handler : Acceptor → Outcome Acceptor) : Option System :=
  (s.acceptors a).map fun acceptor =>
    { s with
      acceptors := Function.update s.acceptors a (handler acceptor).party
      net := s.send a (handler acceptor).sent }

/-- The proposer handles something, if its process runs. -/
def atProposer (s : System) (id : Nat) (handler : Proposer → Outcome Proposer) : Option System :=
  (s.proposers id).map fun proposer =>
    { s with
      proposers := Function.update s.proposers id (handler proposer).party
      net := s.send id (handler proposer).sent }

def receives (s : System) (packet : Packet) (next : Option System) : Option System :=
  if packet ∈ s.net then next else none

/-- One event of the system; `none` where it cannot happen. -/
def exec (s : System) : Event → Option System
  | .submit id now value =>
    s.atProposer id (Proposer.handleClientValue s.preexecWindow now ⟨value⟩)
  | .sendTrim iid => if iid < 2 ^ 32 then some { s with net := s.send 0 [.trim ⟨iid⟩] } else none
  | .acceptorReceives a packet =>
    s.receives packet (s.atAcceptor a fun acceptor => acceptor.handle packet.message)
  | .acceptorTimer a => s.atAcceptor a Acceptor.sendAcceptorState
  | .proposerReceives id now bucket packet =>
    s.receives packet (s.atProposer id fun p =>
      p.handle s.preexecWindow now bucket packet.source packet.message)
  | .preexecOnce id now => s.atProposer id (Proposer.preexecute s.preexecWindow now)
  | .checkTimeouts id now => s.atProposer id (Proposer.checkTimeouts s.proposerTimeout now)
  | .setInstanceId id iid =>
    if iid < 2 ^ 32 then s.atProposer id fun p => ⟨some (p.setInstanceId iid), []⟩ else none
  | .learnerReceives l packet =>
    s.receives packet (some
      { s with
        learners := Function.update s.learners l
          ((s.learners l).handle packet.source packet.message).1
        delivered := Function.update s.delivered l
          (s.delivered l ++ ((s.learners l).handle packet.source packet.message).2) })
  | .checkHoles l => some { s with net := s.send l (s.learners l).checkHoles }
  | .setLearnerInstanceId l iid =>
    some { s with learners := Function.update s.learners l ((s.learners l).setInstanceId iid) }

def Next (s : System) (e : Event) (s' : System) : Prop := s.exec e = some s'

abbrev Runs (start : System) : List (System × Event) → System → Prop := Library.Run Next start

/-- Runs a list of events. -/
def play (s : System) (events : List Event) : Option (List (System × Event) × System) :=
  Library.play exec [] s events

theorem play_runs {s s' : System} {events : List Event} {trace : List (System × Event)}
    (played : s.play events = some (trace, s')) : s.Runs trace s' :=
  (Library.play_run (fun _ _ _ done => done) .nil played).1

/-- `n` acceptors, proposers of the valid numbers, and learners, all just started. -/
structure Started (n : Nat) (s : System) : Prop where
  acceptors : ∀ a, s.acceptors a = if a < n then some .new else none
  proposers : ∀ id, ∀ p ∈ s.proposers id, id < maxNOfProposers ∧ p = .new id n
  learners : ∀ l, ∃ catchUp, s.learners l = .new n catchUp
  delivered : ∀ l, s.delivered l = []
  net : s.net = []

end System

end CaceProofs.Source.Paxos
