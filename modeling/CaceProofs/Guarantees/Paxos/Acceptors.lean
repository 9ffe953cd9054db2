import CaceProofs.Guarantees.Paxos.Votes

/-!
# Acceptors

What an acceptor does with a message keeps its record faithful, and what it answers is true. An
answer to a repeat request is a vote if the record has not been promised to a later ballot.
-/
namespace CaceProofs.Guarantees.Paxos
open Source.Paxos Library

variable {n : Nat} {P : PaxosValue → Prop} {net : List Packet}
  {acceptors : Nat → Option Acceptor} {acceptor : Acceptor} {iid a b c : Nat} {v w : PaxosValue}
  {acc : PaxosAccepted}

theorem slot_put (s : MemStorage) (acc : PaxosAccepted) (iid : Nat) :
    (s.put acc).slot iid =
      if iid % maxRecords = acc.iid % maxRecords then acc else s.slot iid := by
  simp only [MemStorage.put, MemStorage.slot, Function.update_apply]

theorem slot_congr {s : MemStorage} {iid iid' : Nat}
    (same : iid % maxRecords = iid' % maxRecords) : s.slot iid = s.slot iid' := by
  simp only [MemStorage.slot, same]

/-- The storage gives what is in the slot, or nothing where that is of an earlier instance. -/
theorem get_cases {s : MemStorage} {found : Option PaxosAccepted} (got : s.get iid = some found) :
    (found = some (s.slot iid) ∧ (s.slot iid).iid = iid) ∨
      (found = none ∧ (s.slot iid).iid < iid) := by
  unfold MemStorage.get at got
  split at got
  · cases got
  · split at got
    next same =>
      cases got
      exact .inl ⟨rfl, same.symm⟩
    next differs =>
      cases got
      exact .inr ⟨rfl, by omega⟩

/-- The acceptor with a record stored. -/
def stored (acceptor : Acceptor) (acc : PaxosAccepted) : Acceptor :=
  { acceptor with store := acceptor.store.put acc }

/-- A record that may be stored: the slot is of an earlier instance, or of an earlier ballot. -/
structure Storable (acceptor : Acceptor) (acc : PaxosAccepted) : Prop where
  untrimmed : acceptor.trimIid < acc.iid
  slot : (acceptor.store.slot acc.iid).iid ≤ acc.iid
  ballot : (acceptor.store.slot acc.iid).iid = acc.iid →
    (acceptor.store.slot acc.iid).ballot ≤ acc.ballot

/-- Storing a record leaves no ballot open again. -/
theorem Storable.past (storable : Storable acceptor acc) (past : Past (some acceptor) iid c) :
    Past (some (stored acceptor acc)) iid c := by
  rintro _ ⟨⟩
  simp only [stored, slot_put]
  by_cases here : iid % maxRecords = acc.iid % maxRecords
  · have held := past acceptor rfl
    rw [slot_congr here] at held
    have slot := storable.slot
    have ballot := storable.ballot
    rw [if_pos here]
    rcases held with trimmed | later | ⟨same, less⟩
    · exact .inl trimmed
    · exact .inr (.inl (by omega))
    · by_cases current : acc.iid = iid
      · exact .inr (.inr ⟨current, Nat.lt_of_lt_of_le less (ballot (same.trans current.symm))⟩)
      · exact .inr (.inl (by omega))
  · rw [if_neg here]
    exact past acceptor rfl

/-- A record that may be stored is in a ballot that the acceptor had not left. -/
theorem Storable.open_ (storable : Storable acceptor acc) :
    ¬ Past (some acceptor) acc.iid acc.ballot := by
  intro past
  have slot := storable.slot
  have untrimmed := storable.untrimmed
  rcases past acceptor rfl with trimmed | later | ⟨same, less⟩
  · omega
  · omega
  · exact absurd (storable.ballot same) (Nat.not_le.mpr less)

/-- The acceptor leaves the ballots before that of its record. -/
theorem past_of_slot (same : (acceptor.store.slot iid).iid = iid)
    (less : c < (acceptor.store.slot iid).ballot) : Past (some acceptor) iid c := by
  rintro _ ⟨⟩
  exact .inr (.inr ⟨same, less⟩)

/-- A promise with the record of a faithful acceptor. -/
theorem Faithful.promise (faithful : Faithful net a acceptor) (here : acceptors a = some acceptor)
    (same : (acceptor.store.slot iid).iid = iid) :
    Kept net acceptors a (paxosAcceptedToPromise (acceptor.store.slot iid)) where
  past c less := by
    change Past (acceptors a) (acceptor.store.slot iid).iid c
    rw [same, here]
    exact past_of_slot same less
  last c _ w vote := by
    change Voted net (acceptor.store.slot iid).iid a c w at vote
    rw [same] at vote
    exact faithful.last same c w vote
  vote filled := by
    change Voted net (acceptor.store.slot iid).iid a _ _
    rw [same]
    exact faithful.vote same filled

/-- The record of a promise repeats the last vote, if there was one. -/
def Repeats (acceptor : Acceptor) (acc : PaxosAccepted) : Prop :=
  ((acceptor.store.slot acc.iid).iid = acc.iid ∧
      acc.value = (acceptor.store.slot acc.iid).value ∧
      acc.valueBallot = (acceptor.store.slot acc.iid).valueBallot) ∨
    ((acceptor.store.slot acc.iid).iid < acc.iid ∧ acc.value = [] ∧ acc.valueBallot = 0)

/-- A faithful acceptor stores a promise. -/
theorem Faithful.storesPromise (before : Faithful net a acceptor)
    (storable : Storable acceptor acc) (repeats : Repeats acceptor acc) :
    Faithful net a (stored acceptor acc) where
  trim := before.trim
  unvoted {iid} behind b v vote := by
    simp only [stored, slot_put] at behind
    split at behind
    next here =>
      refine before.unvoted ?_ b v vote
      rw [slot_congr here]
      exact Nat.lt_of_le_of_lt storable.slot behind
    next => exact before.unvoted behind b v vote
  last {iid} current b v vote := by
    simp only [stored, slot_put] at current ⊢
    split at current
    next here =>
      subst current
      rw [if_pos rfl]
      rcases repeats with ⟨same, value, valueBallot⟩ | ⟨behind, -, -⟩
      · rw [value, valueBallot]
        exact before.last same b v vote
      · exact absurd vote (before.unvoted behind b v)
    next here =>
      rw [if_neg here]
      exact before.last current b v vote
  vote {iid} current filled := by
    simp only [stored, slot_put] at current filled ⊢
    split at current
    next here =>
      subst current
      rw [if_pos rfl] at filled ⊢
      rcases repeats with ⟨same, value, valueBallot⟩ | ⟨-, empty, -⟩
      · rw [value] at filled
        rw [value, valueBallot]
        exact before.vote same filled
      · exact absurd empty filled
    next here =>
      rw [if_neg here] at filled ⊢
      exact before.vote current filled
  ordered iid := by
    simp only [stored, slot_put]
    split
    · rcases repeats with ⟨same, -, valueBallot⟩ | ⟨-, -, zero⟩
      · rw [valueBallot]
        exact (before.ordered _).trans (storable.ballot same)
      · exact zero ▸ Nat.zero_le _
    · exact before.ordered iid

/-- A faithful acceptor stores a vote that it sends. -/
theorem Faithful.storesVote {net' : List Packet} (before : Faithful net a acceptor)
    (storable : Storable acceptor ⟨iid, b, b, v⟩) (filled : v ≠ []) (sent : net ⊆ net')
    (vote : Voted net' iid a b v)
    (only : ∀ {j c w}, Voted net' j a c w → Voted net j a c w ∨ j = iid ∧ c = b ∧ w = v) :
    Faithful net' a (stored acceptor ⟨iid, b, b, v⟩) where
  trim := before.trim
  unvoted {j} behind c w other := by
    simp only [stored, slot_put] at behind
    rcases only other with earlier | ⟨rfl, -, -⟩
    · split at behind
      next here =>
        refine before.unvoted ?_ c w earlier
        rw [slot_congr here]
        exact Nat.lt_of_le_of_lt storable.slot behind
      next => exact before.unvoted behind c w earlier
    · simp at behind
  last {j} current c w other := by
    simp only [stored, slot_put] at current ⊢
    split at current
    next here =>
      subst current
      rw [if_pos rfl]
      refine ⟨filled, ?_⟩
      rcases only other with earlier | ⟨-, same, -⟩
      · rcases Nat.lt_or_eq_of_le storable.slot with behind | same
        · exact absurd earlier (before.unvoted behind c w)
        · exact (before.last same c w earlier).2.trans
            ((before.ordered _).trans (storable.ballot same))
      · exact Nat.le_of_eq same
    next here =>
      rw [if_neg here]
      rcases only other with earlier | ⟨same, -, -⟩
      · exact before.last current c w earlier
      · exact absurd (congrArg (· % maxRecords) same) here
  vote {j} current full := by
    simp only [stored, slot_put] at current full ⊢
    split at current
    next here =>
      subst current
      rw [if_pos rfl]
      exact vote
    next here =>
      rw [if_neg here] at full ⊢
      exact (before.vote current full).mono sent
  ordered j := by
    simp only [stored, slot_put]
    split
    · exact Nat.le_refl _
    · exact before.ordered j

/-- The messages after those of a party. -/
def after (net : List Packet) (source : Nat) (sent : List PaxosMessage) : List Packet :=
  net ++ sent.map (Packet.mk source)

theorem mem_after {source : Nat} {sent : List PaxosMessage} {p : Packet} :
    p ∈ after net source sent ↔ p ∈ net ∨ p.source = source ∧ p.message ∈ sent := by
  obtain ⟨from_, m⟩ := p
  simp only [after, List.mem_append, List.mem_map, Packet.mk.injEq]
  constructor
  · rintro (old | ⟨m', member, rfl, rfl⟩)
    · exact .inl old
    · exact .inr ⟨rfl, member⟩
  · rintro (old | ⟨rfl, member⟩)
    · exact .inl old
    · exact .inr ⟨m, member, rfl, rfl⟩

theorem subset_after {source : Nat} {sent : List PaxosMessage} : net ⊆ after net source sent :=
  List.subset_append_left _ _

/-- What an acceptor's handler must have done. -/
structure Answered (n : Nat) (P : PaxosValue → Prop) (net : List Packet)
    (acceptors : Nat → Option Acceptor) (a : Nat) (o : Outcome Acceptor) : Prop where
  coherent : Coherent n P (after net a o.sent) (Function.update acceptors a o.party)
  grows : Grows net acceptors (after net a o.sent) (Function.update acceptors a o.party)
  requests : ∀ {iid b v}, Proposed (after net a o.sent) iid b v → Proposed net iid b v

/-- A handler keeps the messages and the acceptors coherent if it opens no ballot, sends what
is true, and votes in ballots it had not left. -/
theorem Coherent.answered {o : Outcome Acceptor} (before : Coherent n P net acceptors)
    (here : acceptors a = some acceptor)
    (past : ∀ {iid c}, Past (some acceptor) iid c → Past o.party iid c)
    (new : ∀ m ∈ o.sent, ⟨a, m⟩ ∈ net ∨
      Sent n P (after net a o.sent) (Function.update acceptors a o.party) ⟨a, m⟩)
    (quiet : ∀ m ∈ o.sent, ∀ req, m ≠ .accept req)
    (votes : ∀ m ∈ o.sent, ∀ acc, m = .accepted acc →
      ⟨a, .accepted acc⟩ ∈ net ∨ ¬ Past (some acceptor) acc.iid acc.ballot)
    (faithful : ∀ acceptor' ∈ o.party, Faithful (after net a o.sent) a acceptor') :
    Answered n P net acceptors a o := by
  have grows : Grows net acceptors (after net a o.sent) (Function.update acceptors a o.party) := by
    refine ⟨subset_after, fun {iid k b v} vote => ?_, fun {k iid c} held => ?_⟩
    · rcases mem_after.mp vote with old | ⟨rfl, member⟩
      · exact .inl old
      · exact (votes _ member _ rfl).imp id fun open_ => here ▸ open_
    · by_cases same : k = a
      · subst same
        rw [Function.update_self]
        exact past (here ▸ held)
      · rwa [Function.update_of_ne same]
  refine ⟨grows.coherent before (fun p member => ?_) fun {k} acceptor' known => ?_, grows, ?_⟩
  · rcases mem_after.mp member with old | ⟨source, sent⟩
    · exact .inl old
    · obtain ⟨_, m⟩ := p
      subst source
      exact new m sent
  · by_cases same : k = a
    · subst same
      rw [Function.update_self] at known
      exact ⟨(before.faithful acceptor here).1, faithful acceptor' known⟩
    · rw [Function.update_of_ne same] at known
      obtain ⟨member, kept⟩ := before.faithful acceptor' known
      refine ⟨member, kept.mono subset_after fun vote => ?_⟩
      rcases mem_after.mp vote with old | ⟨source, -⟩
      · exact old
      · exact absurd source same
  · rintro iid b v ⟨id, request⟩
    rcases mem_after.mp request with old | ⟨-, sent⟩
    · exact ⟨id, old⟩
    · exact absurd rfl (quiet _ sent _)

/-- No vote is new where every answer was sent before. -/
theorem voted_after {k : Nat} {sent : List PaxosMessage}
    (old : ∀ m ∈ sent, ∀ acc, m = .accepted acc → ⟨a, .accepted acc⟩ ∈ net)
    (vote : Voted (after net a sent) iid k b v) : Voted net iid k b v := by
  rcases mem_after.mp vote with earlier | ⟨rfl, member⟩
  · exact earlier
  · exact old _ member _ rfl

/-- Nothing is sent, and the process may have ended. -/
theorem Coherent.silent {party : Option Acceptor} (before : Coherent n P net acceptors)
    (here : acceptors a = some acceptor)
    (past : ∀ {iid c}, Past (some acceptor) iid c → Past party iid c)
    (faithful : ∀ acceptor' ∈ party, Faithful net a acceptor') :
    Answered n P net acceptors a ⟨party, []⟩ := by
  have same : after net a [] = net := List.append_nil net
  exact before.answered here past (by simp) (by simp) (by simp) (by rwa [same])

/-- A handler that only answers with the state of the acceptor. -/
theorem Coherent.tells {m : PaxosMessage} {acceptor' : Acceptor}
    (before : Coherent n P net acceptors) (here : acceptors a = some acceptor)
    (past : ∀ {iid c}, Past (some acceptor) iid c → Past (some acceptor') iid c)
    (faithful : Faithful net a acceptor') (plain : ∀ acc, m ≠ .accepted acc)
    (quiet : ∀ req, m ≠ .accept req)
    (said : ∀ {net'}, Faithful net' a acceptor' →
      Sent n P net' (Function.update acceptors a (some acceptor')) ⟨a, m⟩) :
    Answered n P net acceptors a ⟨some acceptor', [m]⟩ := by
  have kept : Faithful (after net a [m]) a acceptor' :=
    faithful.mono subset_after (voted_after (by simp [plain]))
  refine before.answered here past (by simpa using .inr (said kept)) (by simpa using quiet) ?_
    (by simpa using kept)
  simpa using fun acc same => absurd same (plain acc)

/-- An acceptor stores a promise and answers with it. -/
theorem Coherent.promises (before : Coherent n P net acceptors)
    (here : acceptors a = some acceptor) (storable : Storable acceptor acc)
    (repeats : Repeats acceptor acc) :
    Answered n P net acceptors a
      ⟨some (stored acceptor acc), [.promise (paxosAcceptedToPromise acc)]⟩ := by
  obtain ⟨member, faithful⟩ := before.faithful acceptor here
  have promised := faithful.storesPromise storable repeats
  have slot : (stored acceptor acc).store.slot acc.iid = acc := by
    rw [stored, slot_put, if_pos rfl]
  refine before.tells here storable.past promised (by simp) (by simp) fun kept => ⟨member, ?_⟩
  have own := kept.promise (Function.update_self a _ acceptors) (congrArg PaxosAccepted.iid slot)
  rwa [slot] at own

theorem Coherent.receivesPrepare (before : Coherent n P net acceptors)
    (here : acceptors a = some acceptor) (req : PaxosPrepare) :
    Answered n P net acceptors a (Acceptor.answer (acceptor.receivePrepare req)) := by
  obtain ⟨member, faithful⟩ := before.faithful acceptor here
  unfold Acceptor.receivePrepare
  split
  · exact before.silent here id (by simpa using faithful)
  next untrimmed =>
    cases got : acceptor.store.get req.iid with
    | none => exact before.silent here (fun _ => nofun) nofun
    | some found =>
      rcases get_cases got with ⟨rfl, same⟩ | ⟨rfl, behind⟩
      · simp only [Option.map_some, Option.getD_some, reduceCtorEq, false_or]
        split
        next free =>
          exact before.promises here
            ⟨Nat.lt_of_not_le untrimmed, Nat.le_of_eq same, fun _ => free⟩ (.inl ⟨same, rfl, rfl⟩)
        next taken =>
          refine before.tells here id faithful (by simp) (by simp) fun kept => ⟨member, ?_⟩
          exact kept.promise (Function.update_self a _ acceptors) same
      · simp only [Option.map_some, Option.getD_none, true_or, if_true]
        exact before.promises here
          ⟨Nat.lt_of_not_le untrimmed, Nat.le_of_lt behind, fun same => absurd same behind.ne⟩
          (.inr ⟨behind, rfl, rfl⟩)

/-- An acceptor votes, and says so. -/
theorem Coherent.votes (filled : ∀ v, P v → v ≠ []) (before : Coherent n P net acceptors)
    (here : acceptors a = some acceptor) (storable : Storable acceptor ⟨iid, b, b, v⟩)
    (proposed : Proposed net iid b v) :
    Answered n P net acceptors a
      ⟨some (stored acceptor ⟨iid, b, b, v⟩), [.accepted ⟨iid, b, b, v⟩]⟩ := by
  obtain ⟨member, faithful⟩ := before.faithful acceptor here
  refine before.answered here storable.past ?_ (by simp) ?_ ?_
  · simp only [List.mem_singleton, forall_eq]
    exact .inr ⟨member, rfl, proposed.mono subset_after,
      Nat.lt_of_le_of_lt (Nat.zero_le _) storable.untrimmed⟩
  · simp only [List.mem_singleton, forall_eq, PaxosMessage.accepted.injEq, forall_eq']
    exact .inr storable.open_
  · rintro _ ⟨⟩
    refine faithful.storesVote storable (filled v (before.submitted proposed)) subset_after
      (mem_after.mpr (.inr ⟨rfl, List.mem_singleton_self _⟩)) fun {j c w} vote => ?_
    rcases mem_after.mp vote with earlier | ⟨-, new⟩
    · exact .inl earlier
    · have same : j = iid ∧ c = b ∧ c = b ∧ w = v := by simpa using new
      exact .inr ⟨same.1, same.2.1, same.2.2.2⟩

theorem Coherent.receivesAccept (filled : ∀ v, P v → v ≠ []) (before : Coherent n P net acceptors)
    (here : acceptors a = some acceptor) {req : PaxosAccept}
    (proposed : Proposed net req.iid req.ballot req.value) :
    Answered n P net acceptors a (Acceptor.answer (acceptor.receiveAccept req)) := by
  obtain ⟨member, faithful⟩ := before.faithful acceptor here
  unfold Acceptor.receiveAccept
  split
  · exact before.silent here id (by simpa using faithful)
  next untrimmed =>
    cases got : acceptor.store.get req.iid with
    | none => exact before.silent here (fun _ => nofun) nofun
    | some found =>
      rcases get_cases got with ⟨rfl, same⟩ | ⟨rfl, behind⟩
      · simp only [Option.map_some, Option.getD_some, reduceCtorEq, false_or]
        split
        next free =>
          exact before.votes filled here
            ⟨Nat.lt_of_not_le untrimmed, Nat.le_of_eq same, fun _ => free⟩ proposed
        next taken =>
          exact before.tells here id faithful (by simp) (by simp) fun _ => trivial
      · simp only [Option.map_some, Option.getD_none, true_or, if_true]
        exact before.votes filled here
          ⟨Nat.lt_of_not_le untrimmed, Nat.le_of_lt behind, fun same => absurd same behind.ne⟩
          proposed

/-- No record of the instances asked for has been promised to a ballot after its vote. -/
def Unpromised (acceptor : Acceptor) (m : PaxosRepeat) : Prop :=
  ∀ iid ∈ m.iids, (acceptor.store.slot iid).iid = iid → (acceptor.store.slot iid).value ≠ [] →
    (acceptor.store.slot iid).ballot = (acceptor.store.slot iid).valueBallot

instance (acceptor : Acceptor) (m : PaxosRepeat) : Decidable (Unpromised acceptor m) :=
  inferInstanceAs (Decidable (∀ iid ∈ m.iids, _))

/-- The answers of the loop are votes that were sent before, and the acceptor is the same. -/
theorem repeatLoop_spec (faithful : Faithful net a acceptor) (iids : List Nat)
    (unpromised : ∀ iid ∈ iids, (acceptor.store.slot iid).iid = iid →
      (acceptor.store.slot iid).value ≠ [] →
      (acceptor.store.slot iid).ballot = (acceptor.store.slot iid).valueBallot) :
    (∀ acceptor' ∈ (acceptor.repeatLoop iids).party, acceptor' = acceptor) ∧
      ∀ m ∈ (acceptor.repeatLoop iids).sent, ⟨a, m⟩ ∈ net ∧ ∀ req, m ≠ .accept req := by
  induction iids with
  | nil => simp [Acceptor.repeatLoop]
  | cons iid iids ih =>
    obtain ⟨party, sent⟩ := ih fun j member => unpromised j (List.mem_cons_of_mem _ member)
    unfold Acceptor.repeatLoop
    cases got : acceptor.receiveRepeat iid with
    | none => simp
    | some out =>
      refine ⟨party, fun m member => ?_⟩
      rcases List.mem_append.mp member with first | later
      · obtain ⟨acc, rfl, rfl⟩ : ∃ acc, out = some acc ∧ PaxosMessage.accepted acc = m := by
          simpa [Option.mem_toList] using first
        obtain ⟨found, stored, kept⟩ : ∃ found, acceptor.store.get iid = some found ∧
            found.filter (fun acc => 0 < acc.value.length) = some acc := by
          simpa [Acceptor.receiveRepeat] using got
        obtain ⟨rfl, nonempty⟩ : found = some acc ∧ 0 < acc.value.length := by
          simpa [Option.filter_eq_some_iff] using kept
        rcases get_cases stored with ⟨slot, same⟩ | ⟨absent, -⟩
        · cases slot
          have filled := List.ne_nil_of_length_pos nonempty
          have vote := faithful.vote same filled
          have ballot := unpromised iid List.mem_cons_self same filled
          have record : acceptor.store.slot iid = ⟨iid, (acceptor.store.slot iid).valueBallot,
              (acceptor.store.slot iid).valueBallot, (acceptor.store.slot iid).value⟩ := by
            rw [PaxosAccepted.mk.injEq]
            exact ⟨same, ballot, rfl, rfl⟩
          exact ⟨by rw [record]; exact vote, by simp⟩
        · cases absent
      · exact sent m later

theorem handleRepeat_spec (faithful : Faithful net a acceptor) {m : PaxosRepeat}
    (unpromised : Unpromised acceptor m) :
    (∀ acceptor' ∈ (acceptor.handleRepeat m).party, acceptor' = acceptor) ∧
      ∀ m' ∈ (acceptor.handleRepeat m).sent, ⟨a, m'⟩ ∈ net ∧ ∀ req, m' ≠ .accept req := by
  obtain ⟨party, sent⟩ := repeatLoop_spec faithful m.iids unpromised
  unfold Acceptor.handleRepeat
  split
  · exact ⟨by simp, sent⟩
  · exact ⟨party, sent⟩

theorem Coherent.receivesRepeat (before : Coherent n P net acceptors)
    (here : acceptors a = some acceptor) {m : PaxosRepeat} (unpromised : Unpromised acceptor m) :
    Answered n P net acceptors a (acceptor.handle (.repeat m)) := by
  obtain ⟨member, faithful⟩ := before.faithful acceptor here
  obtain ⟨party, sent⟩ := handleRepeat_spec faithful unpromised
  refine before.answered here (fun {iid c} past acceptor' known => ?_)
    (fun m' told => .inl (sent m' told).1) (fun m' told => (sent m' told).2)
    (fun m' told acc same => .inl (same ▸ (sent m' told).1)) fun acceptor' known => ?_
  · exact party acceptor' known ▸ past acceptor rfl
  · rw [party acceptor' known]
    exact faithful.mono subset_after (voted_after fun m' told acc same => same ▸ (sent m' told).1)

/-- Every handler of an acceptor that may answer the repeat requests. -/
theorem Coherent.acceptorHandles (filled : ∀ v, P v → v ≠ []) (before : Coherent n P net acceptors)
    (here : acceptors a = some acceptor) {p : Packet} (received : p ∈ net)
    (unpromised : ∀ m ∈ p.message.repeat?, Unpromised acceptor m) :
    Answered n P net acceptors a (acceptor.handle p.message) := by
  obtain ⟨member, faithful⟩ := before.faithful acceptor here
  obtain ⟨source, m⟩ := p
  cases m with
  | prepare req => exact before.receivesPrepare here req
  | accept req => exact before.receivesAccept filled here ⟨source, received⟩
  | «repeat» req => exact before.receivesRepeat here (unpromised req rfl)
  | trim m =>
    have bound : m.iid < 2 ^ 32 := before.sent _ received
    simp only [Acceptor.handle, Acceptor.receiveTrim]
    split
    · exact before.silent here id (by simpa using faithful)
    next later =>
      refine before.silent here (fun {iid c} past acceptor' known => ?_) fun acceptor' known => ?_
      · cases known
        rcases past acceptor rfl with trimmed | open_
        · exact .inl (trimmed.trans (Nat.le_of_not_le later))
        · exact .inr open_
      · cases known
        exact { faithful with trim := bound }
  | _ => exact before.silent here id (by simpa using faithful)

theorem Coherent.acceptorTimer (before : Coherent n P net acceptors)
    (here : acceptors a = some acceptor) :
    Answered n P net acceptors a acceptor.sendAcceptorState :=
  before.tells here id (before.faithful acceptor here).2 (by simp) (by simp) fun kept => kept.trim

end CaceProofs.Guarantees.Paxos
