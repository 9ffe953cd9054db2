import CaceProofs.Guarantees.Paxos.Agreement

/-!
# The slots of the storage

The storage in memory keeps the record of an instance until a later one needs its slot. An
acceptor ends exactly when it is asked for an instance whose slot it has given away.
-/
namespace CaceProofs.Guarantees.Paxos
open Source.Paxos Library

variable {n a k id iid : Nat} {net : List Packet} {sent : List PaxosMessage}
  {acceptor acceptor' : Acceptor} {acc : PaxosAccepted} {m : PaxosMessage}
  {s s' start : System} {e : System.Event} {trace : List (System × System.Event)}

/-- The instance that a message answers for. -/
def answers : PaxosMessage → Option Nat
  | .promise m => some m.iid
  | .accepted m => some m.iid
  | _ => none

/-- The acceptor has answered for the instance. -/
def Replied (net : List Packet) (a iid : Nat) : Prop :=
  ∃ p ∈ net, p.source = a ∧ answers p.message = some iid

/-- The instances that a message has an acceptor look up, unless it ends before. -/
def asks (acceptor : Acceptor) : PaxosMessage → List Nat
  | .prepare m => if acceptor.trimIid < m.iid then [m.iid] else []
  | .accept m => if acceptor.trimIid < m.iid then [m.iid] else []
  | .repeat m => m.iids
  | _ => []

section Storage

theorem get_isNone (store : MemStorage) : store.get iid = none ↔ iid < (store.slot iid).iid := by
  unfold MemStorage.get
  split
  next less => simp [less]
  next notLess => split <;> simp [notLess]

/-- The loop over a repeat request ends at the first instance that is gone. -/
theorem repeatLoop_ends (iids : List Nat) : (acceptor.repeatLoop iids).party = none ↔
    ∃ iid ∈ iids, iid < (acceptor.store.slot iid).iid := by
  induction iids with
  | nil => simp [Acceptor.repeatLoop]
  | cons iid iids ih =>
    unfold Acceptor.repeatLoop Acceptor.receiveRepeat
    cases got : acceptor.store.get iid with
    | none => simp [(get_isNone acceptor.store).mp got]
    | some found =>
      have kept : ¬ iid < (acceptor.store.slot iid).iid := fun gone => by
        rw [(get_isNone acceptor.store).mpr gone] at got
        cases got
      simp [ih, kept]

theorem repeatLoop_party (iids : List Nat)
    (known : (acceptor.repeatLoop iids).party = some acceptor') : acceptor' = acceptor := by
  induction iids with
  | nil =>
    cases known
    rfl
  | cons iid iids ih =>
    unfold Acceptor.repeatLoop at known
    split at known
    · cases known
    · exact ih known

theorem handleRepeat_party {req : PaxosRepeat}
    (known : (acceptor.handleRepeat req).party = some acceptor') : acceptor' = acceptor := by
  unfold Acceptor.handleRepeat at known
  split at known
  · cases known
  · exact repeatLoop_party req.iids known

theorem handleRepeat_sent (req : PaxosRepeat) :
    (acceptor.handleRepeat req).sent = (acceptor.repeatLoop req.iids).sent := by
  unfold Acceptor.handleRepeat
  split <;> rfl

/-- A repeat request whose counter wraps leaves no acceptor, gone instance or not. -/
theorem handleRepeat_ends (req : PaxosRepeat) : (acceptor.handleRepeat req).party = none ↔
    req.wraps = true ∨ ∃ iid ∈ req.iids, iid < (acceptor.store.slot iid).iid := by
  rw [← repeatLoop_ends]
  unfold Acceptor.handleRepeat
  split <;> simp [*]

/-- The loop answers with what the slots hold. -/
theorem repeatLoop_answers (iids : List Nat) :
    ∀ m ∈ (acceptor.repeatLoop iids).sent, ∀ iid, answers m = some iid →
      iid ≤ (acceptor.store.slot iid).iid := by
  induction iids with
  | nil => simp [Acceptor.repeatLoop]
  | cons i iids ih =>
    unfold Acceptor.repeatLoop
    split
    next => simp
    next out looked =>
      intro m member iid about
      rcases List.mem_append.mp member with first | later
      · obtain ⟨acc, sent, rfl⟩ : ∃ acc, out = some acc ∧ .accepted acc = m := by
          simpa using first
        obtain rfl := Option.some.inj about
        obtain ⟨found, got, filtered⟩ := Option.map_eq_some_iff.mp looked
        rw [sent] at filtered
        obtain ⟨found, -⟩ := Option.filter_eq_some_iff.mp filtered
        rcases get_cases got with ⟨rfl, same⟩ | ⟨rfl, -⟩
        · obtain rfl := Option.some.inj found
          rw [same, same]
        · cases found
      · exact ih m later iid about

theorem answer_party (looked : Option (Acceptor × Option PaxosMessage)) :
    (Acceptor.answer looked).party = looked.map Prod.fst := by
  cases looked <;> rfl

/-- An acceptor ends where it looks up an instance whose slot holds a later one, and where the
counter of its loop wraps. -/
theorem handle_ends (m : PaxosMessage) : (acceptor.handle m).party = none ↔
    (∃ req ∈ m.repeat?, req.wraps = true) ∨
      ∃ iid ∈ asks acceptor m, iid < (acceptor.store.slot iid).iid := by
  cases m with
  | prepare req =>
    simp only [Acceptor.handle, answer_party, Option.map_eq_none_iff, asks]
    unfold Acceptor.receivePrepare
    by_cases untrimmed : acceptor.trimIid < req.iid
    · simp [Nat.not_le.mpr untrimmed, untrimmed, get_isNone, PaxosMessage.repeat?]
    · simp [Nat.not_lt.mp untrimmed, untrimmed, PaxosMessage.repeat?]
  | accept req =>
    simp only [Acceptor.handle, answer_party, Option.map_eq_none_iff, asks]
    unfold Acceptor.receiveAccept
    by_cases untrimmed : acceptor.trimIid < req.iid
    · simp [Nat.not_le.mpr untrimmed, untrimmed, get_isNone, PaxosMessage.repeat?]
    · simp [Nat.not_lt.mp untrimmed, untrimmed, PaxosMessage.repeat?]
  | «repeat» req =>
    rw [Acceptor.handle, handleRepeat_ends]
    simp [PaxosMessage.repeat?, asks]
  | _ => simp [Acceptor.handle, asks, PaxosMessage.repeat?]

end Storage

/-- The slots hold the latest instances that the acceptor has answered for. -/
structure Slots (net : List Packet) (a : Nat) (acceptor : Acceptor) : Prop where
  replied : ∀ i, (acceptor.store.slot i).iid ≠ 0 →
    (acceptor.store.slot i).iid % maxRecords = i % maxRecords ∧
      Replied net a (acceptor.store.slot i).iid
  latest : ∀ iid, Replied net a iid → iid ≤ (acceptor.store.slot iid).iid

theorem replied_after : Replied (after net k sent) a iid ↔
    Replied net a iid ∨ k = a ∧ ∃ m ∈ sent, answers m = some iid := by
  constructor
  · rintro ⟨p, member, source, about⟩
    rcases mem_after.mp member with old | ⟨from_, new⟩
    · exact .inl ⟨p, old, source, about⟩
    · exact .inr ⟨from_.symm.trans source, _, new, about⟩
  · rintro (⟨p, member, rest⟩ | ⟨rfl, m, member, about⟩)
    · exact ⟨p, mem_after.mpr (.inl member), rest⟩
    · exact ⟨⟨k, m⟩, mem_after.mpr (.inr ⟨rfl, member⟩), rfl, about⟩

namespace Slots

/-- Answers for what the slots hold. -/
theorem answer (slots : Slots net a acceptor) (same : acceptor'.store = acceptor.store)
    (current : ∀ m ∈ sent, k = a → ∀ iid, answers m = some iid →
      iid ≤ (acceptor.store.slot iid).iid) : Slots (after net k sent) a acceptor' := by
  refine ⟨fun i filled => ?_, fun iid reply => ?_⟩
  · rw [same] at filled ⊢
    exact (slots.replied i filled).imp_right fun old => replied_after.mpr (.inl old)
  · rw [same]
    rcases replied_after.mp reply with old | ⟨here, m, member, about⟩
    · exact slots.latest iid old
    · exact current m member here iid about

/-- The answer to a request whose record is stored. -/
theorem store (slots : Slots net a acceptor) (above : (acceptor.store.slot acc.iid).iid ≤ acc.iid)
    (about : answers m = some acc.iid) : Slots (after net a [m]) a (stored acceptor acc) := by
  refine ⟨fun i filled => ?_, fun iid reply => ?_⟩
  · simp only [stored, slot_put] at filled ⊢
    split
    next here =>
      exact ⟨here.symm, replied_after.mpr (.inr ⟨rfl, m, List.mem_singleton_self m, about⟩)⟩
    next away =>
      rw [if_neg away] at filled
      exact (slots.replied i filled).imp_right fun old => replied_after.mpr (.inl old)
  · have before : iid = acc.iid ∨ iid ≤ (acceptor.store.slot iid).iid := by
      rcases replied_after.mp reply with old | ⟨-, m', member, about'⟩
      · exact .inr (slots.latest iid old)
      · rw [List.mem_singleton.mp member, about] at about'
        exact .inl (Option.some.inj about').symm
    simp only [stored, slot_put]
    split
    next here =>
      rcases before with same | old
      · exact same.le
      · rw [slot_congr here] at old
        exact old.trans above
    next away =>
      rcases before with rfl | old
      · exact absurd rfl away
      · exact old

theorem receivePrepare {req : PaxosPrepare} {out : Option PaxosMessage}
    (slots : Slots net a acceptor) (done : acceptor.receivePrepare req = some (acceptor', out)) :
    Slots (after net a out.toList) a acceptor' := by
  unfold Acceptor.receivePrepare at done
  split at done
  · cases done
    exact slots.answer rfl (by simp)
  · obtain ⟨found, got, result⟩ := Option.map_eq_some_iff.mp done
    dsimp only at result
    rcases get_cases got with ⟨rfl, same⟩ | ⟨rfl, less⟩
    · split at result
      · cases result
        exact slots.store same.le rfl
      · cases result
        refine slots.answer rfl fun m member _ iid about => ?_
        obtain rfl := List.mem_singleton.mp member
        obtain rfl := Option.some.inj about
        change (acceptor.store.slot req.iid).iid ≤
          (acceptor.store.slot (acceptor.store.slot req.iid).iid).iid
        rw [same, same]
    · rw [if_pos (.inl rfl)] at result
      cases result
      exact slots.store less.le rfl

theorem receiveAccept {req : PaxosAccept} {out : Option PaxosMessage}
    (slots : Slots net a acceptor) (done : acceptor.receiveAccept req = some (acceptor', out)) :
    Slots (after net a out.toList) a acceptor' := by
  unfold Acceptor.receiveAccept at done
  split at done
  · cases done
    exact slots.answer rfl (by simp)
  · obtain ⟨found, got, result⟩ := Option.map_eq_some_iff.mp done
    dsimp only at result
    have above : (acceptor.store.slot req.iid).iid ≤ req.iid := by
      rcases get_cases got with ⟨-, same⟩ | ⟨-, less⟩
      · exact same.le
      · exact less.le
    split at result
    · cases result
      exact @store _ _ _ (paxosAcceptToAccepted req) _ slots above rfl
    · cases result
      exact slots.answer rfl (by simp [answers])

/-- What a handler leaves. -/
theorem handle (slots : Slots net a acceptor) (m : PaxosMessage)
    (known : (acceptor.handle m).party = some acceptor') :
    Slots (after net a (acceptor.handle m).sent) a acceptor' := by
  cases m with
  | prepare req =>
    cases looked : acceptor.receivePrepare req with
    | none => simp [Acceptor.handle, looked, Acceptor.answer] at known
    | some answered =>
      obtain ⟨next, out⟩ := answered
      simp only [Acceptor.handle, looked, Acceptor.answer] at known ⊢
      exact Option.some.inj known ▸ slots.receivePrepare looked
  | accept req =>
    cases looked : acceptor.receiveAccept req with
    | none => simp [Acceptor.handle, looked, Acceptor.answer] at known
    | some answered =>
      obtain ⟨next, out⟩ := answered
      simp only [Acceptor.handle, looked, Acceptor.answer] at known ⊢
      exact Option.some.inj known ▸ slots.receiveAccept looked
  | «repeat» req =>
    obtain rfl := handleRepeat_party known
    refine slots.answer rfl fun m member _ => repeatLoop_answers req.iids m ?_
    exact handleRepeat_sent req ▸ member
  | trim req =>
    cases known
    refine slots.answer ?_ (by simp [Acceptor.handle])
    unfold Acceptor.receiveTrim
    split <;> rfl
  | _ =>
    cases known
    exact slots.answer rfl (by simp [Acceptor.handle])

end Slots

section Requests

variable {p : Proposer} {window source : Nat} {now timeout : Int} {bucket : Nat → Nat}

/-- Messages that answer for no instance. -/
def Requests (sent : List PaxosMessage) : Prop := ∀ m ∈ sent, answers m = none

theorem Requests.andThen {o : Outcome Proposer} {f : Proposer → Outcome Proposer}
    (first : Requests o.sent) (rest : ∀ p, Requests (f p).sent) :
    Requests (o.andThen f).sent := by
  unfold Outcome.andThen
  split
  · exact first
  · exact fun m member => (List.mem_append.mp member).elim (first m) (rest _ m)

theorem preexecuteLoop_requests (count : Nat) (p : Proposer) :
    Requests (Proposer.preexecuteLoop now count p).sent := by
  induction count generalizing p with
  | zero => simp [Proposer.preexecuteLoop, Requests]
  | succ count ih =>
    unfold Proposer.preexecuteLoop
    split
    · simp [Requests]
    · exact Requests.andThen (by simp [Requests, answers]) ih

theorem acceptLoop_requests (turns : Nat) (p : Proposer) :
    Requests (Proposer.acceptLoop turns p).sent := by
  induction turns generalizing p with
  | zero => simp [Proposer.acceptLoop, Requests]
  | succ turns ih =>
    unfold Proposer.acceptLoop
    split
    · simp [Requests]
    · simp [Requests]
    · exact Requests.andThen (by simp [Requests, answers]) ih

theorem tryAccept_requests (p : Proposer) : Requests (Proposer.tryAccept window now p).sent :=
  (acceptLoop_requests _ p).andThen fun _ => preexecuteLoop_requests _ _

/-- A proposer answers for no instance. -/
theorem proposer_requests (p : Proposer) (m : PaxosMessage) :
    Requests (p.handle window now bucket source m).sent := by
  cases m with
  | promise m =>
    refine Requests.andThen (fun m' member => ?_) tryAccept_requests
    simp only [Option.mem_toList] at member
    obtain ⟨_, -, rfl⟩ := Option.map_eq_some_iff.mp member
    rfl
  | accepted m =>
    simp only [Proposer.handle, Proposer.handleAccepted]
    split
    · exact tryAccept_requests _
    · simp [Requests]
  | preempted m =>
    simp only [Proposer.handle, Proposer.handlePreempted]
    split
    · simp [Requests]
    · simp [Requests]
    · exact Requests.andThen (by simp [Requests, answers]) tryAccept_requests
  | clientValue m => exact tryAccept_requests _
  | _ => simp [Proposer.handle, Requests]

theorem checkTimeouts_requests (p : Proposer) :
    Requests (p.checkTimeouts timeout now).sent := by
  intro m member
  rcases List.mem_append.mp member with prepare | accept
  · obtain ⟨_, -, rfl⟩ := List.mem_map.mp prepare
    rfl
  · obtain ⟨_, -, rfl⟩ := List.mem_map.mp accept
    rfl

end Requests

/-- The slots of every acceptor that runs. -/
def Slotted (s : System) : Prop := ∀ a, ∀ acceptor ∈ s.acceptors a, Slots s.net a acceptor

/-- Another party has sent something. -/
theorem Slotted.sends (slotted : Slotted s) (requests : Requests sent)
    (same : s'.acceptors = s.acceptors) (net : s'.net = after s.net k sent) : Slotted s' := by
  intro a acceptor known
  rw [same] at known
  rw [net]
  refine (slotted a acceptor known).answer rfl fun m member _ iid about => ?_
  rw [requests m member] at about
  cases about

theorem Slotted.atProposer {f : Proposer → Outcome Proposer} (slotted : Slotted s)
    (requests : ∀ p, Requests (f p).sent) (done : s.atProposer id f = some s') : Slotted s' := by
  obtain ⟨p, -, rfl⟩ := Option.map_eq_some_iff.mp done
  exact slotted.sends (requests p) rfl rfl

theorem Slotted.atAcceptor {f : Acceptor → Outcome Acceptor} (slotted : Slotted s)
    (leaves : ∀ acceptor acceptor', Slots s.net a acceptor →
      (f acceptor).party = some acceptor' → Slots (after s.net a (f acceptor).sent) a acceptor')
    (done : s.atAcceptor a f = some s') : Slotted s' := by
  obtain ⟨acceptor, here, rfl⟩ := Option.map_eq_some_iff.mp done
  intro b acceptor' known
  by_cases same : b = a
  · subst same
    exact leaves acceptor acceptor' (slotted b acceptor here) (by simpa using known)
  · have other : s.acceptors b = some acceptor' := by simpa [same] using known
    exact (slotted b acceptor' other).answer rfl fun _ _ here => absurd here.symm same

theorem Slotted.step (slotted : Slotted s) (next : System.Next s e s') : Slotted s' := by
  unfold System.Next System.exec at next
  cases e with
  | submit k now value => exact slotted.atProposer (fun p => tryAccept_requests _) next
  | proposerReceives k now bucket packet =>
    exact slotted.atProposer (fun p => proposer_requests p _) (receives_spec next).2
  | preexecOnce k now =>
    exact slotted.atProposer (fun p => preexecuteLoop_requests _ p) next
  | checkTimeouts k now => exact slotted.atProposer checkTimeouts_requests next
  | setInstanceId k iid =>
    dsimp only at next
    split at next
    · exact slotted.atProposer (fun p => by simp [Requests]) next
    · cases next
  | acceptorReceives a packet =>
    exact slotted.atAcceptor (fun acceptor acceptor' slots known => slots.handle _ known)
      (receives_spec next).2
  | acceptorTimer a =>
    refine slotted.atAcceptor (fun acceptor acceptor' slots known => ?_) next
    cases known
    exact slots.answer rfl (by simp [Acceptor.sendAcceptorState, answers])
  | sendTrim iid =>
    dsimp only at next
    split at next
    · obtain rfl := Option.some.inj next
      have trims : Requests [.trim ⟨iid⟩] := by simp [Requests, answers]
      exact slotted.sends trims rfl rfl
    · cases next
  | learnerReceives l packet =>
    obtain rfl := Option.some.inj (receives_spec next).2
    exact slotted
  | checkHoles l =>
    obtain rfl := Option.some.inj next
    have repeats : Requests (s.learners l).checkHoles := fun m member => by
      obtain ⟨_, -, rfl⟩ := List.mem_map.mp member
      rfl
    exact slotted.sends repeats rfl rfl
  | setLearnerInstanceId l iid =>
    obtain rfl := Option.some.inj next
    exact slotted

theorem Slotted.started (started : s.Started n) : Slotted s := by
  intro a acceptor known
  rw [started.acceptors a] at known
  split at known
  · cases known
    exact ⟨fun i filled => absurd rfl filled, fun iid ⟨p, member, _⟩ => by
      rw [started.net] at member
      cases member⟩
  · cases known

/-- In every run a message is the last one that an acceptor handles exactly if it is a repeat
request up to the last 32-bit number, or if it asks for an instance and the acceptor has answered
for a later one, later by a multiple of the number of records. -/
theorem acceptor_ends_iff (started : start.Started n) (run : start.Runs trace s) {packet : Packet}
    (known : s.acceptors a = some acceptor) (next : s.Next (.acceptorReceives a packet) s') :
    s'.acceptors a = none ↔ (∃ req ∈ packet.message.repeat?, req.wraps = true) ∨
      ∃ iid ∈ asks acceptor packet.message, ∃ later,
        Replied s.net a later ∧ iid < later ∧ later % maxRecords = iid % maxRecords := by
  have slotted : Slotted s := run.preserves
    (fun _ _ _ (_ : True) next before => before.step next) (fun _ _ => trivial) (.started started)
  have slots := slotted a acceptor known
  have ends : s'.acceptors a = (acceptor.handle packet.message).party := by
    obtain ⟨here, same, rfl⟩ := Option.map_eq_some_iff.mp (receives_spec next).2
    rw [known] at same
    cases same
    exact Function.update_self _ _ _
  rw [ends, handle_ends]
  refine or_congr_right ?_
  constructor
  · rintro ⟨iid, asked, gone⟩
    obtain ⟨slot, replied⟩ := slots.replied iid (Nat.ne_zero_of_lt gone)
    exact ⟨iid, asked, _, replied, gone, slot⟩
  · rintro ⟨iid, asked, later, replied, behind, slot⟩
    refine ⟨iid, asked, behind.trans_le ?_⟩
    rw [← slot_congr slot]
    exact slots.latest later replied

/-- Proposer 0 starts at instance 4097, and proposer 1 at instance 1. -/
def outrun : List System.Event :=
  [.setInstanceId 0 4096, .preexecOnce 0 0, .preexecOnce 1 0,
    .acceptorReceives 0 ⟨0, .prepare ⟨4097, 10⟩⟩]

theorem acceptor_ends_iff_outrun : ∃ trace s acceptor s', threeAndTwo.Runs trace s ∧
    s.acceptors 0 = some acceptor ∧ s.Next (.acceptorReceives 0 ⟨1, .prepare ⟨1, 11⟩⟩) s' ∧
      s'.acceptors 0 = none ∧ ∃ iid ∈ asks acceptor (.prepare ⟨1, 11⟩), ∃ later,
        Replied s.net 0 later ∧ iid < later ∧ later % maxRecords = iid % maxRecords := by
  obtain ⟨trace, s, run, -, final⟩ := @play_any threeAndTwo outrun (fun _ => true)
    (fun s => (s.acceptors 0).isSome &&
      (s.exec (.acceptorReceives 0 ⟨1, .prepare ⟨1, 11⟩⟩)).any fun s' => (s'.acceptors 0).isNone)
    (by decide +kernel)
  obtain ⟨alive, ends⟩ := Bool.and_eq_true_iff.mp final
  obtain ⟨acceptor, known⟩ := Option.isSome_iff_exists.mp alive
  obtain ⟨s', next, ended⟩ := (Option.any_eq_true _ _).mp ends
  have gone : s'.acceptors 0 = none := Option.isNone_iff_eq_none.mp ended
  refine ⟨trace, s, acceptor, s', run, known, next, gone, ?_⟩
  rcases (acceptor_ends_iff threeAndTwo_started run known next).mp gone with endless | lookedUp
  · simp [PaxosMessage.repeat?] at endless
  · exact lookedUp

end CaceProofs.Guarantees.Paxos
