import CaceProofs.Guarantees.Paxos.Proposals

/-!
# Learners

A learner closes an instance when a quorum of acceptors has answered with one ballot, and
delivers what those acceptors accepted.
-/
namespace CaceProofs.Guarantees.Paxos
open Source.Paxos Library

/-- What a learner has of an instance: answers that were sent, and a value that was chosen. -/
structure Learns (n : Nat) (net : List Packet) (iid : Nat) (inst : Learner.Instance) : Prop where
  acks : ∀ a, ∀ r ∈ inst.acks a, ⟨a, .accepted r⟩ ∈ net ∧ r.iid = iid
  final : ∀ r ∈ inst.finalValue, r.iid = iid ∧ ∃ b, Chosen n net r.iid b r.value

structure Informed (n : Nat) (net : List Packet) (l : Learner) : Prop where
  members : l.acceptors = n
  held : ∀ e ∈ l.instances, Learns n net e.1 e.2

variable {n : Nat} {P : PaxosValue → Prop} {net net' : List Packet}
  {acceptors : Nat → Option Acceptor} {inst : Learner.Instance} {l l' : Learner} {iid a : Nat}
  {m : PaxosAccepted}

theorem Learns.mono (sent : net ⊆ net') (learns : Learns n net iid inst) :
    Learns n net' iid inst where
  acks a r known := ⟨sent (learns.acks a r known).1, (learns.acks a r known).2⟩
  final r known := (learns.final r known).imp_right fun ⟨b, chosen⟩ => ⟨b, chosen.mono sent⟩

theorem Informed.mono (sent : net ⊆ net') (informed : Informed n net l) : Informed n net' l where
  members := informed.members
  held e member := (informed.held e member).mono sent

/-- The answers that agree in their ballot are the votes of their acceptors for one value. -/
theorem Learns.voted (coherent : Coherent n P net acceptors) (learns : Learns n net iid inst)
    {k : Nat} {r r' : PaxosAccepted} (known : inst.acks a = some r) (known' : inst.acks k = some r')
    (ballot : r'.ballot = r.ballot) : Voted net r.iid k r.ballot r.value := by
  obtain ⟨sent, here⟩ := learns.acks a r known
  obtain ⟨sent', here'⟩ := learns.acks k r' known'
  obtain ⟨-, -, proposed, -⟩ := coherent.sent _ sent
  obtain ⟨-, same, proposed', -⟩ := coherent.sent _ sent'
  have key : r'.iid = r.iid := here'.trans here.symm
  have value : r'.value = r.value := by
    rw [key, ballot] at proposed'
    exact coherent.one proposed' proposed
  have record : r' = ⟨r.iid, r.ballot, r.ballot, r.value⟩ :=
    PaxosAccepted.ext key ballot (same.trans ballot) value
  rw [record] at sent'
  exact sent'

/-- The final value of a closed instance was chosen. -/
theorem Learns.hasQuorum (coherent : Coherent n P net acceptors) (learns : Learns n net iid inst) :
    Learns n net iid (inst.hasQuorum n).1 := by
  unfold Learner.Instance.hasQuorum
  split
  · exact learns
  · split
    next enough =>
      refine ⟨learns.acks, fun r final => ?_⟩
      have agrees : ∀ {k}, k ∈ inst.agreeing n ↔
          k < n ∧ ∃ r', inst.acks k = some r' ∧ r'.ballot = inst.lastUpdateBallot := by
        intro k
        simp [Learner.Instance.agreeing, Option.any_eq_true]
      obtain ⟨i, last, known⟩ := Option.bind_eq_some_iff.mp final
      obtain ⟨-, r', known', ballot⟩ := agrees.mp (List.mem_of_getLast? last)
      obtain rfl : r' = r := Option.some.inj (known'.symm.trans known)
      refine ⟨(learns.acks i r' known).2, r'.ballot, (inst.agreeing n).toFinset,
        ⟨fun k member => ?_, ?_⟩, fun k member => ?_⟩
      · exact Finset.mem_range.mpr (agrees.mp (List.mem_toFinset.mp member)).1
      · have distinct : (inst.agreeing n).Nodup := List.nodup_range.filter _
        rw [List.toFinset_card_of_nodup distinct]
        unfold paxosQuorum at enough
        omega
      · obtain ⟨-, r'', known'', ballot''⟩ := agrees.mp (List.mem_toFinset.mp member)
        exact learns.voted coherent known known'' (ballot''.trans ballot.symm)
    · exact learns

theorem Learns.update (coherent : Coherent n P net acceptors) (learns : Learns n net m.iid inst)
    (received : ⟨a, .accepted m⟩ ∈ net) : Learns n net m.iid (inst.update m a n) := by
  have begun : Learns n net m.iid (inst.begin m) := by
    unfold Learner.Instance.begin
    split
    · exact ⟨learns.acks, learns.final⟩
    · exact learns
  have counted := begun.hasQuorum coherent
  unfold Learner.Instance.update
  dsimp only
  split
  · exact counted
  · split
    · exact counted
    · refine ⟨fun k r known => ?_, counted.final⟩
      simp only [Learner.Instance.addAccept, Function.update_apply] at known
      split at known
      next same =>
        obtain rfl := Option.some.inj known
        exact same ▸ ⟨received, rfl⟩
      next => exact counted.acks k r known

theorem Informed.receiveAccepted (coherent : Coherent n P net acceptors)
    (informed : Informed n net l) (received : ⟨a, .accepted m⟩ ∈ net) :
    Informed n net (l.receiveAccepted m a) := by
  have begun : Informed n net (l.begin m) := by
    unfold Learner.begin
    split
    · exact ⟨informed.members, informed.held⟩
    · exact informed
  unfold Learner.receiveAccepted
  dsimp only
  split
  · exact begun
  · have fresh : Learns n net m.iid .new := ⟨nofun, nofun⟩
    have created : (∀ e ∈ ((l.begin m).getInstanceOrCreate m.iid).1, Learns n net e.1 e.2) ∧
        Learns n net m.iid ((l.begin m).getInstanceOrCreate m.iid).2 := by
      unfold Learner.getInstanceOrCreate
      split
      next inst got => exact ⟨begun.held, begun.held _ (mem_of_get got)⟩
      next =>
        refine ⟨fun e member => ?_, fresh⟩
        rcases List.mem_append.mp member with old | new
        · exact begun.held e old
        · exact List.mem_singleton.mp new ▸ fresh
    refine ⟨begun.members, fun e member => ?_⟩
    rcases mem_of_set member with rfl | ⟨old, -⟩
    · rw [begun.members]
      exact (created.2.update coherent received).hasQuorum coherent
    · exact created.1 e old

/-- What is delivered was chosen. -/
theorem Informed.deliverNext (coherent : Coherent n P net acceptors) (informed : Informed n net l)
    {out : PaxosAccepted} (done : l.deliverNext = some (l', out)) :
    Informed n net l' ∧ out.iid = l.currentIid ∧ ∃ b, Chosen n net out.iid b out.value := by
  obtain ⟨inst, got, taken⟩ := Option.bind_eq_some_iff.mp done
  dsimp only at taken
  split at taken
  · obtain ⟨r, final, result⟩ := Option.map_eq_some_iff.mp taken
    cases result
    have learns := (informed.held _ (mem_of_get got)).hasQuorum coherent
    rw [informed.members] at final
    exact ⟨⟨informed.members, fun e left => informed.held e (mem_of_del left).1⟩,
      learns.final _ final⟩
  · cases taken

theorem Informed.deliverLoop (turns : Nat) (coherent : Coherent n P net acceptors)
    (informed : Informed n net l) :
    Informed n net (Learner.deliverLoop turns l).1 ∧
      ∀ d ∈ (Learner.deliverLoop turns l).2, ∃ b, Chosen n net d.1 b d.2 := by
  induction turns generalizing l with
  | zero => exact ⟨informed, nofun⟩
  | succ turns ih =>
    unfold Learner.deliverLoop
    split
    next => exact ⟨informed, nofun⟩
    next l' out done =>
      obtain ⟨next, -, chosen⟩ := informed.deliverNext coherent done
      obtain ⟨rest, later⟩ := ih next
      exact ⟨rest, List.forall_mem_cons.mpr ⟨chosen, later⟩⟩

theorem Informed.handle (coherent : Coherent n P net acceptors) (informed : Informed n net l)
    {m : PaxosMessage} (received : ⟨a, m⟩ ∈ net) :
    Informed n net (l.handle a m).1 ∧
      ∀ d ∈ (l.handle a m).2, ∃ b, Chosen n net d.1 b d.2 := by
  cases m with
  | accepted m => exact (informed.receiveAccepted coherent received).deliverLoop _ coherent
  | _ => exact ⟨informed, nofun⟩

end CaceProofs.Guarantees.Paxos
