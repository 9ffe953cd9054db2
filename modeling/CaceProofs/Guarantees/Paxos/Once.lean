import CaceProofs.Guarantees.Paxos.Logs
import CaceProofs.Guarantees.Paxos.Values
import Mathlib.Algebra.BigOperators.Group.Finset.Piecewise
import Mathlib.Algebra.Order.BigOperators.Group.Finset

/-!
# No value is delivered twice

The proposer that first asked for a value in an instance has it there as its own until the
instance is closed. Each instance of a log is therefore a submission of its own, unless a
proposer is told to give up an instance that is still open, and submits its value again.
-/
namespace CaceProofs.Guarantees.Paxos
open Source.Paxos Library

variable {n id iid k : Nat} {P : PaxosValue → Prop} {net : List Packet}
  {acceptors : Nat → Option Acceptor} {p p' p'' : Proposer} {table : Khash Instance}
  {inst inst' : Instance} {v : PaxosValue} {closed settled : List (Nat × PaxosValue)}
  {gained : List PaxosValue} {sent sent' : List PaxosMessage} {window : Nat} {now : Int}
  {s s' start : System} {e : System.Event} {trace : List (System × System.Event)}

section Own

/-- The table has an instance with the own value. -/
def Has (table : Khash Instance) (iid : Nat) (v : PaxosValue) : Prop :=
  ∃ inst, (iid, inst) ∈ table ∧ inst.value = some v

/-- The proposer has the value as its own in the instance. -/
def Owns (p : Proposer) (iid : Nat) (v : PaxosValue) : Prop :=
  Has p.prepareInstances iid v ∨ Has p.acceptInstances iid v

theorem Has.subset {table' : Khash Instance} (has : Has table iid v) (more : table ⊆ table') :
    Has table' iid v :=
  has.imp fun _ held => ⟨more held.1, held.2⟩

theorem Has.set (has : Has table iid v) (got : table.get k = some inst)
    (distinct : (keys table).Nodup) (value : inst'.value = inst.value) :
    Has (table.set k inst') iid v := by
  obtain ⟨held, member, own⟩ := has
  by_cases here : iid = k
  · subst here
    obtain rfl : held = inst := Option.some.inj ((get_of_mem member distinct).symm.trans got)
    exact ⟨inst', mem_set_of_mem member, value.trans own⟩
  · exact ⟨held, mem_set_of_ne member here, own⟩

theorem Has.del (has : Has table iid v) (other : iid ≠ k) : Has (table.del k) iid v :=
  has.imp fun _ held => ⟨List.mem_filter.mpr ⟨held.1, by simpa using other⟩, held.2⟩

/-- The instance is the one that moves, or it stays. -/
theorem Has.moves (has : Has table iid v) (got : table.get k = some inst)
    (distinct : (keys table).Nodup) : Has (table.del k) iid v ∨ iid = k ∧ inst.value = some v := by
  obtain ⟨held, member, own⟩ := has
  by_cases here : iid = k
  · subst here
    obtain rfl : held = inst := Option.some.inj ((get_of_mem member distinct).symm.trans got)
    exact .inr ⟨rfl, own⟩
  · exact .inl (Has.del ⟨held, member, own⟩ here)

theorem Has.last (value : inst.value = some v) : Has (table ++ [(iid, inst)]) iid v :=
  ⟨inst, List.mem_append_right _ (List.mem_singleton_self _), value⟩

/-- Values that were promised have been asked for. -/
def Sourced (net : List Packet) (p : Proposer) : Prop :=
  ∀ e ∈ p.prepareInstances, ∀ v ∈ e.2.promisedValue, ∃ b, Proposed net e.1 b v

theorem Honest.sourced (honest : Honest n P net acceptors id p) : Sourced net p :=
  fun e member v promised => ⟨_, (honest.prepared e member).source v promised⟩

/-- The proposer keeps what it has, and asks for what it has or what was asked for. -/
structure Retains (net : List Packet) (p p' : Proposer) (sent : List PaxosMessage) : Prop where
  owns : ∀ {iid v}, Owns p iid v → Owns p' iid v
  sourced : Sourced net p'
  requests : ∀ acc, .accept acc ∈ sent →
    Owns p' acc.iid acc.value ∨ ∃ b, Proposed net acc.iid b acc.value

theorem Retains.trans (first : Retains net p p' sent) (second : Retains net p' p'' sent') :
    Retains net p p'' (sent ++ sent') where
  owns own := second.owns (first.owns own)
  sourced := second.sourced
  requests acc member := (List.mem_append.mp member).elim
    (fun old => (first.requests acc old).imp_left second.owns) (second.requests acc)

theorem Retains.refl (sourced : Sourced net p) : Retains net p p [] := ⟨id, sourced, by simp⟩

theorem Retains.prepare {pr : PaxosPrepare} (sourced : Sourced net p)
    (done : p.prepare now = some (p', pr)) : Retains net p p' [.prepare pr] := by
  obtain ⟨-, rfl⟩ := prepare_spec done
  refine ⟨fun own => own.imp_left fun has => has.subset (List.subset_append_left _ _),
    fun e member => ?_, by simp⟩
  rcases List.mem_append.mp member with old | new
  · exact sourced e old
  · rw [List.mem_singleton.mp new]
    simp

theorem preexecuteLoop_retains (count : Nat) (sourced : Sourced net p) :
    ∀ q ∈ (Proposer.preexecuteLoop now count p).party,
      Retains net p q (Proposer.preexecuteLoop now count p).sent := by
  induction count generalizing p with
  | zero => exact fun q known => Option.some.inj known ▸ .refl sourced
  | succ count ih =>
    unfold Proposer.preexecuteLoop
    split
    next => exact fun q known => by cases known
    next p' pr prepared =>
      intro q known
      have first := Retains.prepare sourced prepared
      exact first.trans (ih first.sourced q known)

/-- An accept request for an instance that moves on with a value. -/
theorem Retains.accept {acc : PaxosAccept} (ledger : Ledger p closed) (sourced : Sourced net p)
    (done : p.accept = some (p', some acc)) : Retains net p p' [.accept acc] := by
  obtain ⟨iid, inst, f, t, member, -, filled, moved, rfl, rfl⟩ := accept_spec done
  have key : inst.iid = iid := ledger.keyed _ (List.mem_append_left _ member)
  have got := get_of_mem member ledger.prepares
  have same : (p.takeValue inst).1.iid = iid := (takeValue_spec p inst).1.trans key
  have promised : (p.takeValue inst).1.promisedValue = inst.promisedValue := by
    unfold Proposer.takeValue
    split <;> rfl
  have kept : ∀ v, inst.value = some v → (p.takeValue inst).1.value = some v := by
    intro v own
    simp only [Proposer.takeValue, own]
  obtain ⟨rfl, rfl, -⟩ := moveInstance_spec moved
  rw [same]
  generalize (p.takeValue inst).1 = taken at *
  refine ⟨fun own => ?_, fun e left => sourced e (mem_of_del left).1, fun acc asked => ?_⟩
  · rcases own with has | has
    · rcases has.moves got ledger.prepares with stays | ⟨rfl, own⟩
      · exact .inl stays
      · exact .inr (Has.last (kept _ own))
    · exact .inr (has.subset (List.subset_append_left _ _))
  · obtain rfl : acc = taken.toAccept := by simpa using asked
    cases known : taken.promisedValue with
    | some u =>
      have value : taken.toAccept.value = u := by simp [Instance.toAccept, known]
      rw [show taken.toAccept.iid = iid from same, value]
      exact .inr (sourced _ member u (promised ▸ known))
    | none =>
      cases own : taken.value with
      | none => simp [known, own] at filled
      | some u =>
        have value : taken.toAccept.value = u := by simp [Instance.toAccept, known, own]
        rw [show taken.toAccept.iid = iid from same, value]
        exact .inl (.inr (Has.last rfl))

theorem acceptLoop_retains (turns : Nat) (ledger : Ledger p closed) (sourced : Sourced net p) :
    ∀ q ∈ (Proposer.acceptLoop turns p).party,
      Retains net p q (Proposer.acceptLoop turns p).sent := by
  induction turns generalizing p with
  | zero => exact fun q known => Option.some.inj known ▸ .refl sourced
  | succ turns ih =>
    unfold Proposer.acceptLoop
    split
    next => exact fun q known => by cases known
    next p' stopped =>
      intro q known
      obtain rfl := Option.some.inj known
      rw [accept_none stopped]
      exact .refl sourced
    next p' acc accepted =>
      intro q known
      have first := Retains.accept ledger sourced accepted
      have next := (ledger.accept accepted).ledger
      rw [List.append_nil] at next
      exact first.trans (ih next first.sourced q known)

theorem tryAccept_retains (ledger : Ledger p closed) (sourced : Sourced net p) :
    ∀ q ∈ (Proposer.tryAccept window now p).party,
      Retains net p q (Proposer.tryAccept window now p).sent := by
  unfold Proposer.tryAccept Outcome.andThen
  split
  next none =>
    intro q known
    rw [none] at known
    cases known
  next p' middle =>
    intro q known
    have first := acceptLoop_retains _ ledger sourced p' middle
    exact first.trans (preexecuteLoop_retains _ first.sourced q known)

theorem receivePromise_owns (ledger : Ledger p closed) (m : PaxosPromise) (a : Nat)
    (own : Owns p iid v) : Owns (p.receivePromise m a now).1 iid v := by
  unfold Proposer.receivePromise
  split
  next => exact own
  next inst got =>
    split
    · exact own
    · split
      · exact own.imp_left fun has => has.set got ledger.prepares rfl
      · split
        next => exact own
        next =>
          refine own.imp_left fun has => has.set got ledger.prepares ?_
          unfold Instance.takePromise
          split <;> rfl

theorem receivePreempted_owns {m : PaxosPreempted} {out : Option PaxosPrepare}
    (ledger : Ledger p closed) (done : p.receivePreempted m now = some (p', out))
    (own : Owns p iid v) : Owns p' iid v := by
  unfold Proposer.receivePreempted at done
  split at done
  next =>
    cases done
    exact own
  next inst got =>
    have key : inst.iid = m.iid := ledger.keyed _ (List.mem_append_right _ (mem_of_get got))
    split at done
    · obtain ⟨⟨f, t⟩, moved, result⟩ := Option.map_eq_some_iff.mp done
      cases result
      obtain ⟨rfl, rfl, absent⟩ := moveInstance_spec moved
      rw [key] at absent ⊢
      rw [set_append absent]
      rcases own with has | has
      · exact .inl (has.subset (List.subset_append_left _ _))
      · rcases has.moves got ledger.accepts with stays | ⟨rfl, own⟩
        · exact .inr stays
        · exact .inl (Has.last own)
    · cases done
      exact own

/-- A trim takes no instance with a later number away. -/
theorem receiveAcceptorState_owns {m : PaxosAcceptorState} (ledger : Ledger p closed)
    (later : ∀ e ∈ p.prepareInstances ++ p.acceptInstances, m.trimIid < e.1)
    (bucket : Nat → Nat) (own : Owns p iid v) : Owns (p.receiveAcceptorState m bucket) iid v := by
  unfold Proposer.receiveAcceptorState
  split
  · exact own
  · have left : ∀ {inst}, (iid, inst) ∈ p.prepareInstances ++ p.acceptInstances →
        ¬ inst.iid ≤ m.trimIid := by
      intro inst member
      have number : inst.iid = iid := ledger.keyed _ member
      have above : m.trimIid < iid := later _ member
      omega
    rcases own with ⟨inst, member, own⟩ | ⟨inst, member, own⟩
    · have stays := left (List.mem_append_left _ member)
      exact .inl ⟨inst, List.mem_filter.mpr ⟨member, by simpa using stays⟩, own⟩
    · have stays := left (List.mem_append_right _ member)
      exact .inr ⟨inst, List.mem_filter.mpr ⟨member, by simpa using stays⟩, own⟩

theorem Has.restamp (has : Has table iid v) (timeout : Int) :
    Has (Proposer.restamp timeout now table) iid v := by
  obtain ⟨inst, member, own⟩ := has
  refine ⟨_, List.mem_map.mpr ⟨_, member, rfl⟩, ?_⟩
  dsimp only
  split <;> exact own

end Own

section Handlers

/-- Another value was chosen. -/
def Outvoted (n : Nat) (net : List Packet) (iid : Nat) (v : PaxosValue) : Prop :=
  ∃ b w, w ≠ v ∧ Chosen n net iid b w

/-- The value is the proposer's own in the instance, or it was settled there, or outvoted. -/
def Claims (n : Nat) (net : List Packet) (p : Proposer) (closed : List (Nat × PaxosValue))
    (iid : Nat) (v : PaxosValue) : Prop :=
  Owns p iid v ∨ (iid, v) ∈ closed ∨ Outvoted n net iid v

/-- What a handler of a proposer does to the values that it has in its instances. -/
structure Traced (n : Nat) (net : List Packet) (p : Proposer) (closed : List (Nat × PaxosValue))
    (gained : List PaxosValue) (p' : Proposer) (settled : List (Nat × PaxosValue))
    (sent : List PaxosMessage) : Prop extends Settles p closed gained p' settled where
  chosen : ∀ d ∈ settled, ∃ b, Chosen n net d.1 b d.2
  owns : ∀ {iid v}, Owns p iid v → Claims n net p' settled iid v
  requests : ∀ acc, .accept acc ∈ sent →
    Owns p' acc.iid acc.value ∨ ∃ b, Proposed net acc.iid b acc.value

/-- Every way in which a handler ends is traced. -/
def Traces (n : Nat) (net : List Packet) (p : Proposer) (closed : List (Nat × PaxosValue))
    (gained : List PaxosValue) (o : Outcome Proposer) : Prop :=
  ∀ p' ∈ o.party, ∃ settled, Traced n net p closed gained p' settled o.sent

theorem Accounts.traces {o : Outcome Proposer} (accounts : Accounts n net p closed gained o)
    (retains : ∀ p' ∈ o.party, Retains net p p' o.sent) : Traces n net p closed gained o := by
  intro p' known
  obtain ⟨settled, settles, chosen⟩ := accounts p' known
  have kept := retains p' known
  exact ⟨settled, settles, chosen, fun own => .inl (kept.owns own), kept.requests⟩

/-- A step of the proposer that sends no accept request, and then it tries to ask for values. -/
theorem Retains.tryAccept (owns : ∀ {iid v}, Owns p iid v → Owns p' iid v)
    (ledger : Ledger p' closed) (sourced : Sourced net p') {sent : List PaxosMessage}
    (quiet : ∀ acc, .accept acc ∉ sent) :
    ∀ q ∈ ((Outcome.mk (some p') sent).andThen (Proposer.tryAccept window now)).party,
      Retains net p q ((Outcome.mk (some p') sent).andThen (Proposer.tryAccept window now)).sent :=
  fun q known =>
    have first : Retains net p p' sent :=
      ⟨owns, sourced, fun acc asked => absurd asked (quiet acc)⟩
    first.trans (tryAccept_retains ledger sourced q known)

/-- A quorum closes an instance: its own value was chosen, or another one. -/
theorem Honest.close_owns {m : PaxosAccepted} {source : Nat} {quorum : Quorum}
    (coherent : Coherent n P net acceptors) (honest : Honest n P net acceptors id p)
    (received : ⟨source, .accepted m⟩ ∈ net) (ledger : Ledger p closed)
    (got : p.acceptInstances.get m.iid = some inst) (ballot : m.ballot = inst.ballot)
    (added : inst.quorum.add source = some quorum) (reached : quorum.reached = true)
    (own : Owns p iid v) :
    Claims n net { p with
      values := p.values ++ Proposer.givesBack inst
      acceptInstances := p.acceptInstances.del m.iid } (closes inst) iid v := by
  have accepting : Accepting n P net id p.nextPrepareIid m.iid inst :=
    honest.accepting _ (mem_of_get got)
  have chosen := accepting.chosen coherent received ballot added reached
  rcases own with has | has
  · exact .inl (.inl has)
  · rcases has.moves got ledger.accepts with stays | ⟨rfl, own⟩
    · exact .inl (.inr stays)
    · by_cases same : inst.toAccept.value = v
      · refine .inr (.inl ?_)
        have kept : Proposer.givesBack inst = [] := by
          unfold Proposer.givesBack
          cases promised : inst.promisedValue with
          | none => simp
          | some w => simp_all [Instance.toAccept]
        simp [closes, kept, own, accepting.key]
      · exact .inr (.inr ⟨inst.ballot, inst.toAccept.value, same, chosen⟩)

/-- The instance number up to which a message trims. -/
def trims : PaxosMessage → Option Nat
  | .acceptorState m => some m.trimIid
  | _ => none

theorem Honest.traces {m : PaxosMessage} {source : Nat} {bucket : Nat → Nat}
    (coherent : Coherent n P net acceptors) (honest : Honest n P net acceptors id p)
    (received : ⟨source, m⟩ ∈ net) (fits : Fits p) (ledger : Ledger p closed)
    (later : ∀ k ∈ trims m, ∀ e ∈ p.prepareInstances ++ p.acceptInstances, k < e.1) :
    Traces n net p closed [] (p.handle window now bucket source m) := by
  have accounts : Accounts n net p closed [] (p.handle window now bucket source m) :=
    honest.accounts coherent received ledger
  cases m with
  | promise m =>
    have taken := honest.receivePromise now coherent received fun e member =>
      fits e (List.mem_append_left _ member)
    have first : Settles p closed [] (p.receivePromise m source now).1 [] :=
      ledger.receivePromise m source
    refine accounts.traces (Retains.tryAccept (receivePromise_owns ledger m source) first.ledger
      taken.sourced ?_)
    simp
  | accepted m =>
    have sourced : ∀ {values f}, Sourced net { p with values, acceptInstances := f } :=
      fun e member => honest.sourced e member
    simp only [Proposer.handle, Proposer.handleAccepted] at accounts ⊢
    rcases receiveAccepted_spec p m source with
      same | ⟨inst, quorum, got, ballot, added, ⟨reached, same⟩ | same⟩
    all_goals rw [same] at accounts ⊢
    · exact accounts.traces fun q known => Option.some.inj known ▸ .refl honest.sourced
    · intro q known
      have first := ledger.close got
      have kept := tryAccept_retains first.ledger sourced q known
      refine ⟨closes inst, by simpa using first.trans (first.ledger.tryAccept window q known),
        honest.closes_chosen coherent received got ballot added reached, fun own => ?_,
        kept.requests⟩
      exact (honest.close_owns coherent received ledger got ballot added reached own).imp_left
        kept.owns
    · have first : Settles p closed [] { p with
          acceptInstances := p.acceptInstances.set m.iid { inst with quorum } } [] :=
        ledger.setAccepting got
      refine accounts.traces fun q known => ?_
      have kept := tryAccept_retains first.ledger sourced q known
      exact ⟨fun own => kept.owns (own.imp_right fun has => has.set got ledger.accepts rfl),
        kept.sourced, kept.requests⟩
  | preempted m =>
    simp only [Proposer.handle, Proposer.handlePreempted] at accounts ⊢
    cases done : p.receivePreempted m now with
    | none => exact fun q known => by cases known
    | some result =>
      obtain ⟨q, out⟩ := result
      have taken := honest.receivePreempted (fun e member =>
        fits e (List.mem_append_right _ member)) done
      rw [done] at accounts
      cases out with
      | none =>
        exact accounts.traces fun q' known => Option.some.inj known ▸
          ⟨receivePreempted_owns ledger done, taken.sourced, by simp⟩
      | some pr =>
        exact accounts.traces (Retains.tryAccept (receivePreempted_owns ledger done)
          (ledger.receivePreempted done).ledger taken.sourced (by simp))
  | acceptorState m =>
    have small : m.trimIid < 2 ^ 32 := coherent.sent _ received
    exact accounts.traces fun q known => Option.some.inj known ▸
      ⟨receiveAcceptorState_owns ledger (later _ rfl) bucket,
        (honest.receiveAcceptorState small bucket).sourced, by simp [Proposer.handle]⟩
  | clientValue m => exact (coherent.sent _ received).elim
  | _ => exact accounts.traces fun q known => Option.some.inj known ▸ .refl honest.sourced

theorem Honest.checkTimeouts_retains (honest : Honest n P net acceptors id p) (timeout : Int) :
    ∀ q ∈ (p.checkTimeouts timeout now).party,
      Retains net p q (p.checkTimeouts timeout now).sent := by
  intro q known
  obtain rfl := Option.some.inj known
  refine ⟨fun own => own.imp (fun has => has.restamp timeout) fun has => has.restamp timeout,
    (honest.restamp timeout).sourced, fun acc asked => .inr ?_⟩
  rcases List.mem_append.mp asked with prepare | accept
  · obtain ⟨inst, -, same⟩ := List.mem_map.mp prepare
    cases same
  · obtain ⟨inst, due, same⟩ := List.mem_map.mp accept
    obtain ⟨e, held, rfl⟩ := List.mem_map.mp (List.mem_filter.mp due).1
    cases same
    have accepting := honest.accepting e held
    refine ⟨e.2.ballot, ?_⟩
    change Proposed net e.2.iid _ _
    rw [accepting.key]
    exact accepting.requested

end Handlers

/-- A proposer that gets the state of an acceptor has closed the instances that it is to trim. -/
def Untrimmed (s : System) : System.Event → Prop
  | .proposerReceives id _ _ packet => ∀ p ∈ s.proposers id, ∀ k ∈ trims packet.message,
      ∀ e ∈ p.prepareInstances ++ p.acceptInstances, k < e.1
  | _ => True

instance (s : System) (e : System.Event) : Decidable (Untrimmed s e) :=
  System.Event.casesOn (motive := fun e => Decidable (Untrimmed s e)) e
    (fun _ _ _ => isTrue trivial) (fun _ => isTrue trivial) (fun _ _ => isTrue trivial)
    (fun _ => isTrue trivial)
    (fun id _ _ packet => inferInstanceAs (Decidable (∀ p ∈ s.proposers id,
      ∀ k ∈ trims packet.message, ∀ e ∈ p.prepareInstances ++ p.acceptInstances, k < e.1)))
    (fun _ _ => isTrue trivial) (fun _ _ => isTrue trivial) (fun _ _ => isTrue trivial)
    (fun _ _ => isTrue trivial) (fun _ => isTrue trivial) (fun _ _ => isTrue trivial)

/-- The turn of a proposer is traced. -/
theorem Sound.traces {handler : Proposer → Outcome Proposer} (sound : Sound n P s)
    (careful : Careful s e) (untrimmed : Untrimmed s e) (next : System.Next s e s')
    (here : s.proposers id = some p) (turn : proposerTurn s e = some (id, handler))
    (ledger : Ledger p closed) :
    Traces n s.net p closed (submittedTo id e).toList (handler p) := by
  have honest := sound.honest p here
  unfold System.Next System.exec at next
  cases e with
  | submit k now value =>
    cases turn
    have first := ledger.propose value
    simp only [submittedTo, if_true, Option.toList_some]
    have accounts : Accounts n s.net p closed [value]
        (Proposer.handleClientValue s.preexecWindow now ⟨value⟩ p) := first.tryAccept (by simp)
    refine accounts.traces fun q known => ?_
    have sourced : Sourced s.net (p.propose value) := honest.sourced
    have kept := tryAccept_retains first.ledger sourced q known
    exact ⟨fun own => kept.owns own, kept.sourced, kept.requests⟩
  | proposerReceives k now bucket packet =>
    cases turn
    exact honest.traces sound.coherent (receives_spec next).1 (careful p here) ledger
      (untrimmed p here)
  | preexecOnce k now =>
    cases turn
    exact (accounts_of_settles (ledger.preexecuteLoop _)).traces
      (preexecuteLoop_retains _ honest.sourced)
  | checkTimeouts k now =>
    cases turn
    exact (accounts_of_settles fun q known => Option.some.inj known ▸ ledger.restamp _).traces
      (honest.checkTimeouts_retains _)
  | setInstanceId k iid =>
    cases turn
    dsimp only at next
    split at next
    next small =>
      refine (accounts_of_settles fun q known =>
        Option.some.inj known ▸ ledger.setInstanceId (careful p here) small).traces ?_
      exact fun q known => Option.some.inj known ▸ ⟨fun own => own, honest.sourced, by simp⟩
    next => cases next
  | acceptorTimer | acceptorReceives | sendTrim | learnerReceives | checkHoles
  | setLearnerInstanceId => cases turn

/-- Only proposers ask for values. -/
theorem Sound.asks (filled : ∀ v, P v → v ≠ []) (sound : Sound n P s) (careful : Careful s e)
    (next : System.Next s e s') (still : proposerTurn s e = none) {b : Nat}
    (request : Proposed s'.net iid b v) : Proposed s.net iid b v := by
  have plain : ∀ {source : Nat} {sent : List PaxosMessage}, (∀ req, .accept req ∉ sent) →
      Proposed (after s.net source sent) iid b v → Proposed s.net iid b v := by
    rintro source sent quiet ⟨from_, asked⟩
    rcases mem_after.mp asked with old | ⟨-, new⟩
    · exact ⟨from_, old⟩
    · exact absurd new (quiet _)
  unfold System.Next System.exec at next
  cases e with
  | acceptorReceives a packet =>
    obtain ⟨received, done⟩ := receives_spec next
    obtain ⟨acceptor, here, rfl⟩ := Option.map_eq_some_iff.mp done
    exact (sound.coherent.acceptorHandles filled here received (careful acceptor here)).requests
      request
  | acceptorTimer a =>
    obtain ⟨acceptor, here, rfl⟩ := Option.map_eq_some_iff.mp next
    exact (sound.coherent.acceptorTimer here).requests request
  | sendTrim k =>
    dsimp only at next
    split at next
    · obtain rfl := Option.some.inj next
      exact plain (by simp) request
    · cases next
  | learnerReceives l packet =>
    obtain ⟨-, done⟩ := receives_spec next
    obtain rfl := Option.some.inj done
    exact request
  | checkHoles l =>
    obtain rfl := Option.some.inj next
    refine plain (fun req member => ?_) request
    obtain ⟨m, -, same⟩ := List.mem_map.mp member
    cases same
  | setLearnerInstanceId l k =>
    obtain rfl := Option.some.inj next
    exact request
  | submit | proposerReceives | preexecOnce | checkTimeouts | setInstanceId => cases still

theorem Claims.mono {net' : List Packet} (sent : net ⊆ net')
    (claims : Claims n net p closed iid v) : Claims n net' p closed iid v :=
  claims.imp_right fun rest => rest.imp_right fun ⟨b, w, other, chosen⟩ =>
    ⟨b, w, other, chosen.mono sent⟩

/-- A claim outlives a handler. -/
theorem Claims.traced (claims : Claims n net p closed iid v)
    (traced : Traced n net p closed gained p' settled sent) :
    Claims n net p' (closed ++ settled) iid v := by
  rcases claims with own | old | outvoted
  · rcases traced.owns own with own | new | outvoted
    · exact .inl own
    · exact .inr (.inl (List.mem_append_right _ new))
    · exact .inr (.inr outvoted)
  · exact .inr (.inl (List.mem_append_left _ old))
  · exact .inr (.inr outvoted)

/-- Each value asked for is claimed by a proposer, and each proposer accounts for its values. -/
structure Claimed (n : Nat) (P : PaxosValue → Prop) (before : List (System × System.Event))
    (s : System) (closed : Nat → List (Nat × PaxosValue)) : Prop where
  sound : Sound n P s
  accounts : ∀ {id}, ∀ p ∈ s.proposers id, Accounted n id before s.net p (closed id)
  claims : ∀ {iid b v}, Proposed s.net iid b v →
    ∃ id, ∃ p ∈ s.proposers id, Claims n s.net p (closed id) iid v

theorem Claimed.started (started : s.Started n) : Claimed n P [] s fun _ => [] where
  sound := .started started
  accounts := by
    intro id p here
    obtain ⟨-, rfl⟩ := started.proposers id p here
    exact ⟨⟨nofun, .nil, nofun, Nat.two_pow_pos 32⟩, nofun, .nil⟩
  claims := by
    rintro iid b v ⟨id, request⟩
    rw [started.net] at request
    cases request

/-- A turn of a proposer submits nothing to another one. -/
theorem submittedTo_turn {handler : Proposer → Outcome Proposer}
    (turn : proposerTurn s e = some (id, handler)) (other : k ≠ id) : submittedTo k e = none := by
  cases e with
  | submit =>
    cases turn
    exact if_neg (Ne.symm other)
  | _ => rfl

/-- What a step keeps of the claims: only the proposer whose turn it is settles anything. -/
theorem Claimed.step {closed : Nat → List (Nat × PaxosValue)} (filled : ∀ v, P v → v ≠ [])
    (claimed : Claimed n P trace s closed) (submits : ∀ id now v, e = .submit id now v → P v)
    (careful : Careful s e) (roomy : Roomy s e) (untrimmed : Untrimmed s e)
    (next : System.Next s e s') : ∃ closed, Claimed n P (trace ++ [(s, e)]) s' closed := by
  have sound : Sound n P s' := claimed.sound.step filled submits careful next
  have sent := next_sent next
  cases turn : proposerTurn s e with
  | none =>
    have alone : ∀ id, s'.proposers id = s.proposers id ∧ submittedTo id e = none := by
      intro id
      rcases next_proposers next id with ⟨same, -⟩ | ⟨p, handler, -, moves, -⟩
      · refine ⟨same, ?_⟩
        cases e with
        | submit => cases turn
        | _ => rfl
      · rw [turn] at moves
        cases moves
    refine ⟨closed, sound, fun {id} p known => ?_, fun request => ?_⟩
    · rw [(alone id).1] at known
      exact (claimed.accounts p known).keeps next (alone id).2
    · obtain ⟨id, p, known, claims⟩ :=
        claimed.claims (claimed.sound.asks filled careful next turn request)
      exact ⟨id, p, by rwa [(alone id).1], claims.mono sent⟩
  | some moves =>
    obtain ⟨id, handler⟩ := moves
    cases next_turn next with
    | acceptor _ _ still | sends _ _ still | hears _ still =>
      rw [turn] at still
      cases still
    | moves moved =>
      rw [moved] at turn
      cases turn
    | @proposer j p handler' here turn' =>
      obtain ⟨rfl, rfl⟩ : id = j ∧ handler = handler' := by
        simpa using Option.some.inj (turn.symm.trans turn')
      have alive : (Function.update s.proposers id (handler p).party id).isSome = true :=
        next_alive roomy next (fun _ q known => ⟨_, (claimed.accounts q known).ledger⟩)
          (by rw [here]; rfl)
      rw [Function.update_self] at alive
      obtain ⟨p', known⟩ := Option.isSome_iff_exists.mp alive
      obtain ⟨settled, traced⟩ := claimed.sound.traces careful untrimmed next here turn
        (claimed.accounts p here).ledger p' known
      -- a claim stays with its proposer
      have carried : ∀ {iid v}, (∃ k, ∃ q ∈ s.proposers k, Claims n s.net q (closed k) iid v) →
          ∃ k, ∃ q ∈ Function.update s.proposers id (handler p).party k,
            Claims n (s.send id (handler p).sent) q
              (Function.update closed id (closed id ++ settled) k) iid v := by
        rintro iid v ⟨k, q, held, claims⟩
        by_cases same : k = id
        · subst same
          obtain rfl : p = q := Option.some.inj (here.symm.trans held)
          exact ⟨k, p', by simpa using known, by simpa using (claims.traced traced).mono sent⟩
        · exact ⟨k, q, by simpa [same] using held, by simpa [same] using claims.mono sent⟩
      refine ⟨Function.update closed id (closed id ++ settled), sound, fun {k} q held => ?_,
        fun {iid b v} request => ?_⟩
      · by_cases same : k = id
        · subst same
          simp only [Function.update_self] at held ⊢
          obtain rfl : p' = q := Option.some.inj (known.symm.trans held)
          exact (claimed.accounts p here).settles next traced.toSettles traced.chosen
        · simp only [Function.update_of_ne same] at held ⊢
          exact (claimed.accounts q held).keeps next (submittedTo_turn turn same)
      · obtain ⟨source, asked⟩ := request
        rcases mem_after.mp asked with old | ⟨-, new⟩
        · exact carried (claimed.claims ⟨source, old⟩)
        · rcases traced.requests _ new with own | ⟨b', earlier⟩
          · exact ⟨id, p', by simpa using known, .inl own⟩
          · exact carried (claimed.claims earlier)

/-- The own values of a proposer with the instances that they are in, and the settled ones. -/
def placed (p : Proposer) (closed : List (Nat × PaxosValue)) : List (Nat × PaxosValue) :=
  (p.prepareInstances ++ p.acceptInstances).filterMap (fun e => e.2.value.map (e.1, ·)) ++ closed

theorem placed_of_claims (claims : Claims n net p closed iid v) (kept : ¬ Outvoted n net iid v) :
    (iid, v) ∈ placed p closed := by
  have owned : ∀ {inst : Instance}, (iid, inst) ∈ p.prepareInstances ++ p.acceptInstances →
      inst.value = some v → (iid, v) ∈ placed p closed := fun member own =>
    List.mem_append_left _ (List.mem_filterMap.mpr ⟨_, member, by simp [own]⟩)
  rcases claims with (⟨inst, member, own⟩ | ⟨inst, member, own⟩) | old | outvoted
  · exact owned (List.mem_append_left _ member) own
  · exact owned (List.mem_append_right _ member) own
  · exact List.mem_append_right _ old
  · exact absurd outvoted kept

/-- The proposer holds or has settled each of them. -/
theorem count_placed (p : Proposer) (closed : List (Nat × PaxosValue)) (v : PaxosValue) :
    ((placed p closed).map Prod.snd).count v ≤ (holdings p ++ closed.map Prod.snd).count v := by
  have values : (placed p closed).map Prod.snd =
      ownValues p.prepareInstances ++ ownValues p.acceptInstances ++ closed.map Prod.snd := by
    simp [placed, ownValues, List.map_filterMap, Function.comp_def]
  rw [values]
  simp only [holdings, List.count_append]
  omega

/-- The instances that a list has a value in. -/
def placesOf (entries : List (Nat × PaxosValue)) (v : PaxosValue) : List Nat :=
  (entries.filter (·.2 = v)).map Prod.fst

theorem length_placesOf (entries : List (Nat × PaxosValue)) (v : PaxosValue) :
    (placesOf entries v).length = (entries.map Prod.snd).count v := by
  rw [placesOf, List.length_map, ← List.countP_eq_length_filter, List.count, List.countP_map]
  exact List.countP_congr fun e _ => by simp

theorem mem_placesOf {entries : List (Nat × PaxosValue)} :
    iid ∈ placesOf entries v ↔ (iid, v) ∈ entries := by
  simp [placesOf]

/-- Whether a client submits the value. -/
def submits (v : PaxosValue) : System.Event → Bool
  | .submit _ _ value => value = v
  | _ => false

/-- Each submission is to one proposer. -/
theorem sum_submittedTo_le (trace : List (System × System.Event)) (v : PaxosValue) :
    ∑ id ∈ Finset.range maxNOfProposers,
      (trace.filterMap fun step => submittedTo id step.2).count v ≤
        trace.countP fun step => submits v step.2 := by
  induction trace with
  | nil => simp
  | cons step rest ih =>
    obtain ⟨s, e⟩ := step
    have one : ∑ id ∈ Finset.range maxNOfProposers, (submittedTo id e).toList.count v ≤
        if submits v e then 1 else 0 := by
      cases e with
      | submit k now value =>
        have toOne : ∀ id, (submittedTo id (.submit k now value)).toList.count v =
            if k = id then [value].count v else 0 := by
          intro id
          simp only [submittedTo]
          split <;> rfl
        simp only [toOne, Finset.sum_ite_eq, submits, decide_eq_true_eq, List.count_singleton]
        split <;> simp_all
      | _ => simp [submittedTo]
    have split : ∀ id, (((s, e) :: rest).filterMap fun step => submittedTo id step.2).count v =
        (submittedTo id e).toList.count v +
          (rest.filterMap fun step => submittedTo id step.2).count v := by
      intro id
      cases here : submittedTo id e <;> simp [here, List.count_cons, Nat.add_comm]
    simp only [split, Finset.sum_add_distrib, List.countP_cons]
    omega

theorem InOrder.nodup {learner : Learner} {log : List (Nat × PaxosValue)}
    (ordered : InOrder learner log) : (log.map Prod.fst).Nodup := by
  rcases ordered with ⟨-, rfl⟩ | ⟨first, counting⟩
  · exact .nil
  · rw [counting.numbers]
    exact List.nodup_range'

/-- The places of a proposer whose process runs. -/
def placesAt (s : System) (closed : Nat → List (Nat × PaxosValue)) (v : PaxosValue) (id : Nat) :
    List Nat :=
  placesOf ((s.proposers id).elim [] fun p => placed p (closed id)) v

/-- What is delivered is in its instance with a proposer. -/
theorem Claimed.places {closed : Nat → List (Nat × PaxosValue)}
    (claimed : Claimed n P trace s closed) (l : Nat) (v : PaxosValue) :
    (placesOf (s.delivered l) v).toFinset ⊆
      (Finset.range maxNOfProposers).biUnion fun id => (placesAt s closed v id).toFinset := by
  intro iid member
  have entry : (iid, v) ∈ s.delivered l := mem_placesOf.mp (List.mem_toFinset.mp member)
  have coherent := claimed.sound.coherent
  obtain ⟨b, chosen⟩ := claimed.sound.delivered l _ entry
  obtain ⟨id, p, known, claims⟩ :=
    claimed.claims ((coherent.lawful iid).proposed_of_chosen chosen)
  refine Finset.mem_biUnion.mpr ⟨id, Finset.mem_range.mpr (claimed.sound.honest p known).named.2,
    List.mem_toFinset.mpr ?_⟩
  have running : s.proposers id = some p := known
  rw [placesAt, running]
  exact mem_placesOf.mpr (placed_of_claims claims fun ⟨c, w, other, instead⟩ =>
    other (coherent.agreement instead chosen))

theorem Claimed.card_places {closed : Nat → List (Nat × PaxosValue)}
    (claimed : Claimed n P trace s closed) (id : Nat) (v : PaxosValue) :
    (placesAt s closed v id).toFinset.card ≤
      (trace.filterMap fun step => submittedTo id step.2).count v := by
  refine (List.toFinset_card_le _).trans ?_
  rw [placesAt, length_placesOf]
  cases known : s.proposers id with
  | none => exact Nat.zero_le _
  | some p =>
    have values := (claimed.accounts p known).values
    exact (count_placed p (closed id) v).trans (Nat.le_of_eq (values.count_eq v))

/-- In a careful run in which no instance number runs out, and no proposer is told to trim an
instance that it has not closed, a learner delivers no value more often than it was submitted. -/
theorem delivered_once (started : start.Started n) (run : start.Runs trace s)
    (careful : ∀ p ∈ trace, Careful p.1 p.2) (roomy : ∀ p ∈ trace, Roomy p.1 p.2)
    (untrimmed : ∀ p ∈ trace, Untrimmed p.1 p.2)
    (fixed : ∀ p ∈ trace, movesLearner p.2 = false) (l : Nat) (v : PaxosValue) :
    ((s.delivered l).map Prod.snd).count v ≤ trace.countP fun p => submits v p.2 := by
  have keeps : ∀ before s e s', System.Runs start before s →
      ((Careful s e ∧ ∀ id now v, e = .submit id now v → Submitted trace v) ∧
        Roomy s e ∧ Untrimmed s e) → System.Next s e s' →
      (∃ closed, Claimed n (Submitted trace) before s closed) →
        ∃ closed, Claimed n (Submitted trace) (before ++ [(s, e)]) s' closed := by
    rintro before s e s' - ⟨may, room, held⟩ next ⟨closed, claimed⟩
    exact claimed.step (fun v good => good.1) may.2 may.1 room held next
  obtain ⟨closed, claimed⟩ := run.carries _ keeps (fun p member =>
    ⟨allowed_of_careful careful p member, roomy p member, untrimmed p member⟩)
    ⟨_, .started started⟩
  have distinct : (placesOf (s.delivered l) v).Nodup :=
    (log_ordered started run careful fixed l).nodup.sublist (List.filter_sublist.map Prod.fst)
  calc ((s.delivered l).map Prod.snd).count v
      = (placesOf (s.delivered l) v).toFinset.card := by
        rw [List.toFinset_card_of_nodup distinct, length_placesOf]
    _ ≤ ∑ id ∈ Finset.range maxNOfProposers, (placesAt s closed v id).toFinset.card :=
        (Finset.card_le_card (claimed.places l v)).trans Finset.card_biUnion_le
    _ ≤ ∑ id ∈ Finset.range maxNOfProposers,
          (trace.filterMap fun step => submittedTo id step.2).count v :=
        Finset.sum_le_sum fun id _ => claimed.card_places id v
    _ ≤ trace.countP fun p => submits v p.2 := sum_submittedTo_le trace v

theorem delivered_once_takenOver : ∃ trace s, threeAndTwo.Runs trace s ∧
    (1, [7]) ∈ s.delivered 0 ∧
      ((s.delivered 0).map Prod.snd).count [7] ≤ trace.countP fun p => submits [7] p.2 := by
  obtain ⟨trace, s, run, steps, delivered⟩ := @play_any threeAndTwo takenOver
    (fun p => decide (Careful p.1 p.2) && decide (Roomy p.1 p.2) && decide (Untrimmed p.1 p.2) &&
      !movesLearner p.2) (fun s => (s.delivered 0).contains (1, [7])) (by decide +kernel)
  have passed : ∀ p ∈ trace, ((Careful p.1 p.2 ∧ Roomy p.1 p.2) ∧ Untrimmed p.1 p.2) ∧
      movesLearner p.2 = false := fun p member => by simpa using steps p member
  exact ⟨trace, s, run, by simpa using delivered, delivered_once threeAndTwo_started run
    (fun p member => (passed p member).1.1.1) (fun p member => (passed p member).1.1.2)
    (fun p member => (passed p member).1.2) (fun p member => (passed p member).2) 0 [7]⟩

/-- Proposer 0 gets the trim of an instance before the answers to its accept request, and asks
for the value again in the next one. -/
def trimmedOpen : List System.Event :=
  let bucket := fun iid : Nat => iid
  let prepare := fun iid => Packet.mk 0 (.prepare ⟨iid, 10⟩)
  let promise := fun a iid => Packet.mk a (.promise ⟨iid, 10, 0, []⟩)
  let accept := fun iid => Packet.mk 0 (.accept ⟨iid, 10, [7]⟩)
  let accepted := fun a iid => Packet.mk a (.accepted ⟨iid, 10, 10, [7]⟩)
  let opens := fun iid =>
    [.acceptorReceives 0 (prepare iid), .acceptorReceives 1 (prepare iid),
      .proposerReceives 0 0 bucket (promise 0 iid), .proposerReceives 0 0 bucket (promise 1 iid)]
  let chooses := fun iid =>
    [.acceptorReceives 0 (accept iid), .acceptorReceives 1 (accept iid),
      .learnerReceives 0 (accepted 0 iid), .learnerReceives 0 (accepted 1 iid)]
  [.preexecOnce 0 0] ++ opens 1 ++ [.submit 0 0 [7]] ++ chooses 1 ++
    [.sendTrim 1, .acceptorReceives 0 ⟨0, .trim ⟨1⟩⟩, .acceptorTimer 0,
      .proposerReceives 0 0 bucket ⟨0, .acceptorState ⟨1⟩⟩] ++ opens 2 ++ chooses 2

/-- A proposer that trims an instance which it has not closed can have its value delivered twice. -/
theorem delivered_twice : ∃ trace s, threeAndTwo.Runs trace s ∧
    (∀ p ∈ trace, Careful p.1 p.2 ∧ Roomy p.1 p.2) ∧
      s.delivered 0 = [(1, [7]), (2, [7])] ∧ (trace.countP fun p => submits [7] p.2) = 1 := by
  obtain ⟨⟨trace, s⟩, played, passed⟩ : ∃ r, threeAndTwo.play trimmedOpen = some r ∧
      ((r.1.all fun p => decide (Careful p.1 p.2) && decide (Roomy p.1 p.2)) &&
        decide (r.2.delivered 0 = [(1, [7]), (2, [7])]) &&
          decide ((r.1.countP fun p => submits [7] p.2) = 1)) = true :=
    (Option.any_eq_true _ _).mp (by decide +kernel)
  obtain ⟨⟨careful, delivered⟩, once⟩ : ((∀ p ∈ trace, Careful p.1 p.2 ∧ Roomy p.1 p.2) ∧
      s.delivered 0 = [(1, [7]), (2, [7])]) ∧ (trace.countP fun p => submits [7] p.2) = 1 := by
    simpa [List.all_eq_true] using passed
  exact ⟨trace, s, System.play_runs played, careful, delivered, once⟩

end CaceProofs.Guarantees.Paxos
