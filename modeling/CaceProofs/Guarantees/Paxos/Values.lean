import CaceProofs.Guarantees.Paxos.Ledger

/-!
# No value is lost

In every run a proposer still holds each value that a client submitted to it, or the value was
chosen for an instance of its own. No assertion of a proposer fails.
-/
namespace CaceProofs.Guarantees.Paxos
open Source.Paxos Library

variable {n id : Nat} {P : PaxosValue → Prop} {net : List Packet}
  {acceptors : Nat → Option Acceptor} {p p' : Proposer} {closed : List (Nat × PaxosValue)}
  {now : Int} {window : Nat}

/-- What a handler of a proposer does to its values: those that it settles were chosen. -/
def Accounts (n : Nat) (net : List Packet) (p : Proposer) (closed : List (Nat × PaxosValue))
    (gained : List PaxosValue) (o : Outcome Proposer) : Prop :=
  ∀ p' ∈ o.party, ∃ settled, Settles p closed gained p' settled ∧
    ∀ d ∈ settled, ∃ b, Chosen n net d.1 b d.2

/-- A handler that settles nothing. -/
theorem accounts_of_settles {gained : List PaxosValue} {o : Outcome Proposer}
    (settles : ∀ p' ∈ o.party, Settles p closed gained p' []) :
    Accounts n net p closed gained o :=
  fun p' known => ⟨[], settles p' known, by simp⟩

/-- What follows a step of the proposer, where it tries to ask for values. -/
theorem Settles.tryAccept {gained : List PaxosValue} {settled : List (Nat × PaxosValue)}
    (first : Settles p closed gained p' settled)
    (chosen : ∀ d ∈ settled, ∃ b, Chosen n net d.1 b d.2) :
    Accounts n net p closed gained (Proposer.tryAccept window now p') := by
  intro q known
  refine ⟨settled, ?_, chosen⟩
  simpa using first.trans (first.ledger.tryAccept window q known)

/-- The value of an instance that a quorum closes was chosen. -/
theorem Honest.closes_chosen {m : PaxosAccepted} {source : Nat} {inst : Instance} {quorum : Quorum}
    (coherent : Coherent n P net acceptors) (honest : Honest n P net acceptors id p)
    (received : ⟨source, .accepted m⟩ ∈ net) (got : p.acceptInstances.get m.iid = some inst)
    (ballot : m.ballot = inst.ballot) (added : inst.quorum.add source = some quorum)
    (reached : quorum.reached = true) : ∀ d ∈ closes inst, ∃ b, Chosen n net d.1 b d.2 := by
  intro d member
  obtain rfl := (closes_spec inst).2.1 d member
  have accepting : Accepting n P net id p.nextPrepareIid m.iid inst :=
    honest.accepting _ (mem_of_get got)
  refine ⟨inst.ballot, ?_⟩
  dsimp only
  rw [accepting.key]
  exact accepting.chosen coherent received ballot added reached

/-- Every handler of a proposer keeps the values that it holds, or they are chosen. -/
theorem Honest.accounts {m : PaxosMessage} {source : Nat} {bucket : Nat → Nat}
    (coherent : Coherent n P net acceptors) (honest : Honest n P net acceptors id p)
    (received : ⟨source, m⟩ ∈ net) (ledger : Ledger p closed) :
    Accounts n net p closed [] (p.handle window now bucket source m) := by
  cases m with
  | promise m =>
    have first : Settles p closed [] (p.receivePromise m source now).1 [] :=
      ledger.receivePromise m source
    exact first.tryAccept (by simp)
  | accepted m =>
    simp only [Proposer.handle, Proposer.handleAccepted]
    rcases receiveAccepted_spec p m source with
      same | ⟨inst, quorum, got, ballot, added, ⟨reached, same⟩ | same⟩
    all_goals rw [same]
    · exact accounts_of_settles fun q known => Option.some.inj known ▸ ledger.refl
    · exact (ledger.close got).tryAccept
        (honest.closes_chosen coherent received got ballot added reached)
    · exact (ledger.setAccepting got).tryAccept (by simp)
  | preempted m =>
    simp only [Proposer.handle, Proposer.handlePreempted]
    split
    next => exact fun q known => by cases known
    next q done => exact accounts_of_settles fun q' known =>
      Option.some.inj known ▸ ledger.receivePreempted done
    next q pr done => exact (ledger.receivePreempted done).tryAccept (by simp)
  | acceptorState m =>
    have small : m.trimIid < 2 ^ 32 := coherent.sent _ received
    exact accounts_of_settles fun q known =>
      Option.some.inj known ▸ ledger.receiveAcceptorState small bucket
  | clientValue m => exact (coherent.sent _ received).elim
  | _ => exact accounts_of_settles fun q known => Option.some.inj known ▸ ledger.refl

variable {s s' start : System} {e : System.Event} {trace : List (System × System.Event)}

/-- The value that an event submits to a proposer. -/
def submittedTo (id : Nat) : System.Event → Option PaxosValue
  | .submit k _ value => if k = id then some value else none
  | _ => none

/-- A step leaves a proposer alone, or the proposer handles something. -/
theorem next_proposer (sound : Sound n P s) (careful : Careful s e) (next : System.Next s e s')
    (id : Nat) : (s'.proposers id = s.proposers id ∧ submittedTo id e = none) ∨
      ∃ p o, s.proposers id = some p ∧ s'.proposers id = o.party ∧ ∀ closed, Ledger p closed →
        Accounts n s.net p closed (submittedTo id e).toList o := by
  rcases next_proposers next id with ⟨same, other⟩ | ⟨p, handler, here, turn, result⟩
  · refine .inl ⟨same, ?_⟩
    cases e with
    | submit k now value => exact if_neg fun here => other _ (by rw [here, proposerTurn])
    | _ => rfl
  refine .inr ⟨p, handler p, here, result, fun closed ledger => ?_⟩
  unfold System.Next System.exec at next
  cases e with
  | submit k now value =>
    cases turn
    simp only [submittedTo, if_true, Option.toList_some]
    exact (ledger.propose value).tryAccept (by simp)
  | proposerReceives k now bucket q =>
    cases turn
    exact (sound.honest p here).accounts sound.coherent (receives_spec next).1 ledger
  | preexecOnce k now =>
    cases turn
    exact accounts_of_settles (ledger.preexecuteLoop _)
  | checkTimeouts k now =>
    cases turn
    exact accounts_of_settles fun q known => Option.some.inj known ▸ ledger.restamp _
  | setInstanceId k iid =>
    cases turn
    dsimp only at next
    split at next
    next small =>
      exact accounts_of_settles fun q known =>
        Option.some.inj known ▸ ledger.setInstanceId (careful p here) small
    next => cases next
  | acceptorTimer | acceptorReceives | sendTrim | learnerReceives | checkHoles
  | setLearnerInstanceId => cases turn

/-- What a proposer holds, and what of the values submitted to it was chosen. -/
structure Accounted (n id : Nat) (trace : List (System × System.Event)) (net : List Packet)
    (p : Proposer) (closed : List (Nat × PaxosValue)) : Prop where
  ledger : Ledger p closed
  chosen : ∀ d ∈ closed, ∃ b, Chosen n net d.1 b d.2
  values : (holdings p ++ closed.map Prod.snd).Perm
    (trace.filterMap fun step => submittedTo id step.2)

/-- A step that leaves the proposer alone keeps its account. -/
theorem Accounted.keeps (next : System.Next s e s') (none : submittedTo id e = none)
    (account : Accounted n id trace s.net p closed) :
    Accounted n id (trace ++ [(s, e)]) s'.net p closed where
  ledger := account.ledger
  chosen d member := (account.chosen d member).imp fun _ chosen => chosen.mono (next_sent next)
  values := by
    rw [List.filterMap_append]
    simpa [none] using account.values

/-- What the proposer settles is accounted with what it settled before. -/
theorem Accounted.settles {settled : List (Nat × PaxosValue)} (next : System.Next s e s')
    (account : Accounted n id trace s.net p closed)
    (settles : Settles p closed (submittedTo id e).toList p' settled)
    (chosen : ∀ d ∈ settled, ∃ b, Chosen n s.net d.1 b d.2) :
    Accounted n id (trace ++ [(s, e)]) s'.net p' (closed ++ settled) where
  ledger := settles.ledger
  chosen d member := by
    have chosenHere : ∃ b, Chosen n s.net d.1 b d.2 :=
      (List.mem_append.mp member).elim (account.chosen d) (chosen d)
    exact chosenHere.imp fun _ chosen => chosen.mono (next_sent next)
  values := by
    have values := settles.values
    have earlier := account.values
    rw [List.perm_iff_count] at values earlier ⊢
    intro v
    have here := values v
    have before := earlier v
    have gained : (([(s, e)] : List (System × System.Event)).filterMap fun step =>
        submittedTo id step.2) = (submittedTo id e).toList := by
      cases submits : submittedTo id e <;> simp [submits]
    simp only [List.filterMap_append, gained, List.map_append, List.count_append] at here before ⊢
    omega

/-- What a step keeps of the account of a proposer. -/
theorem Accounted.step (sound : Sound n P s) (careful : Careful s e) (next : System.Next s e s')
    (before : ∀ p ∈ s.proposers id, ∃ closed, Accounted n id trace s.net p closed) :
    ∀ p ∈ s'.proposers id, ∃ closed, Accounted n id (trace ++ [(s, e)]) s'.net p closed := by
  intro p' known
  rcases next_proposer sound careful next id with ⟨same, none⟩ | ⟨p, o, here, result, accounts⟩
  · exact (before p' (same ▸ known)).imp fun _ account => account.keeps next none
  · obtain ⟨closed, account⟩ := before p here
    obtain ⟨settled, settles, chosen⟩ := accounts closed account.ledger p' (result ▸ known)
    exact ⟨closed ++ settled, account.settles next settles chosen⟩

/-- What a run keeps of its messages and of all proposers. -/
structure Tracked (n : Nat) (P : PaxosValue → Prop) (before : List (System × System.Event))
    (s : System) : Prop where
  sound : Sound n P s
  accounts : ∀ {id}, ∀ p ∈ s.proposers id, ∃ closed, Accounted n id before s.net p closed

theorem Tracked.started (started : s.Started n) : Tracked n P [] s where
  sound := .started started
  accounts := by
    intro id p here
    obtain ⟨-, rfl⟩ := started.proposers id p here
    exact ⟨[], ⟨nofun, .nil, nofun, Nat.two_pow_pos 32⟩, nofun, .nil⟩

theorem Tracked.step (filled : ∀ v, P v → v ≠ []) (tracked : Tracked n P trace s)
    (submits : ∀ id now v, e = .submit id now v → P v) (careful : Careful s e)
    (next : System.Next s e s') : Tracked n P (trace ++ [(s, e)]) s' where
  sound := tracked.sound.step filled submits careful next
  accounts := Accounted.step tracked.sound careful next tracked.accounts

/-- In a careful run a proposer whose process has not ended still holds each value submitted to
it, in its queue or in an instance, or the value was chosen: each in an instance of its own. -/
theorem values_accounted (started : start.Started n) (run : start.Runs trace s)
    (careful : ∀ p ∈ trace, Careful p.1 p.2) (known : s.proposers id = some p) :
    ∃ closed : List (Nat × PaxosValue), (closed.map Prod.fst).Nodup ∧
      (∀ d ∈ closed, ∃ b, Chosen n s.net d.1 b d.2) ∧
      (holdings p ++ closed.map Prod.snd).Perm
        (trace.filterMap fun step => submittedTo id step.2) := by
  have keeps : ∀ before s e s', System.Runs start before s →
      (Careful s e ∧ ∀ id now v, e = .submit id now v → Submitted trace v) → System.Next s e s' →
      Tracked n (Submitted trace) before s →
        Tracked n (Submitted trace) (before ++ [(s, e)]) s' :=
    fun before s e s' _ may next held => held.step (fun v good => good.1) may.2 may.1 next
  have tracked := run.carries _ keeps (allowed_of_careful careful) (.started started)
  obtain ⟨closed, account⟩ := tracked.accounts p known
  refine ⟨closed, ?_, account.chosen, account.values⟩
  exact (List.nodup_append'.mp account.ledger.distinct).2.1

theorem values_accounted_takenOver : ∃ trace s p, threeAndTwo.Runs trace s ∧
    s.proposers 1 = some p ∧
      ∃ closed : List (Nat × PaxosValue), (closed.map Prod.fst).Nodup ∧
        (∀ d ∈ closed, ∃ b, Chosen 3 s.net d.1 b d.2) ∧
          (holdings p ++ closed.map Prod.snd).Perm
            (trace.filterMap fun step => submittedTo 1 step.2) := by
  obtain ⟨trace, s, run, steps, alive⟩ := @play_any threeAndTwo takenOver
    (fun p => Careful p.1 p.2) (fun s => (s.proposers 1).isSome) (by decide +kernel)
  obtain ⟨p, known⟩ := Option.isSome_iff_exists.mp alive
  exact ⟨trace, s, p, run, known, values_accounted threeAndTwo_started run
    (fun p member => by simpa using steps p member) known⟩

/-- A proposer that is to open instances has as many instance numbers left. -/
def Roomy (s : System) : System.Event → Prop
  | .submit id _ _ | .proposerReceives id _ _ _ | .preexecOnce id _ =>
    ∀ p ∈ s.proposers id, p.nextPrepareIid + s.preexecWindow < 2 ^ 32
  | _ => True

instance (s : System) (e : System.Event) : Decidable (Roomy s e) :=
  have opening (id : Nat) :
      Decidable (∀ p ∈ s.proposers id, p.nextPrepareIid + s.preexecWindow < 2 ^ 32) :=
    inferInstance
  System.Event.casesOn (motive := fun e => Decidable (Roomy s e)) e (fun id _ _ => opening id)
    (fun _ => isTrue trivial) (fun _ _ => isTrue trivial) (fun _ => isTrue trivial)
    (fun id _ _ _ => opening id) (fun id _ => opening id) (fun _ _ => isTrue trivial)
    (fun _ _ => isTrue trivial) (fun _ _ => isTrue trivial) (fun _ => isTrue trivial)
    (fun _ _ => isTrue trivial)

/-- A promise changes the prepare table only. -/
theorem receivePromise_frame (m : PaxosPromise) (a : Nat) :
    ∃ table, (p.receivePromise m a now).1 = { p with prepareInstances := table } := by
  unfold Proposer.receivePromise
  split
  · exact ⟨_, rfl⟩
  · split
    · exact ⟨_, rfl⟩
    · split
      · exact ⟨_, rfl⟩
      · split <;> exact ⟨_, rfl⟩

/-- A preemption changes the two tables only. -/
theorem receivePreempted_frame {m : PaxosPreempted} {p' : Proposer} {sent : Option PaxosPrepare}
    (done : p.receivePreempted m now = some (p', sent)) :
    ∃ f t, p' = { p with acceptInstances := f, prepareInstances := t } := by
  unfold Proposer.receivePreempted at done
  split at done
  · cases done
    exact ⟨_, _, rfl⟩
  · split at done
    · obtain ⟨_, -, result⟩ := Option.map_eq_some_iff.mp done
      cases result
      exact ⟨_, _, rfl⟩
    · cases done
      exact ⟨_, _, rfl⟩

/-- No handler of a proposer fails an assertion. -/
theorem Ledger.handle_isSome {m : PaxosMessage} {source : Nat} {bucket : Nat → Nat}
    (ledger : Ledger p closed) (room : p.nextPrepareIid + window < 2 ^ 32) :
    (p.handle window now bucket source m).party.isSome = true := by
  have tries : ∀ {q settled}, Settles p closed [] q settled →
      q.nextPrepareIid = p.nextPrepareIid → (Proposer.tryAccept window now q).party.isSome = true :=
    fun first next => first.ledger.tryAccept_isSome (next ▸ room)
  cases m with
  | promise m =>
    obtain ⟨table, frame⟩ := @receivePromise_frame p now m source
    have next : (p.receivePromise m source now).1.nextPrepareIid = p.nextPrepareIid := by rw [frame]
    exact tries (ledger.receivePromise m source) next
  | accepted m =>
    simp only [Proposer.handle, Proposer.handleAccepted]
    rcases receiveAccepted_spec p m source with
      same | ⟨inst, quorum, got, -, -, ⟨-, same⟩ | same⟩
    all_goals rw [same]
    · rfl
    · exact tries (ledger.close got) rfl
    · exact tries (ledger.setAccepting got) rfl
  | preempted m =>
    have alive : (p.receivePreempted m now).isSome = true := ledger.receivePreempted_isSome m
    simp only [Proposer.handle, Proposer.handlePreempted]
    split
    next none => simp [none] at alive
    next => rfl
    next q pr done =>
      obtain ⟨f, t, frame⟩ := receivePreempted_frame done
      have next : q.nextPrepareIid = p.nextPrepareIid := by rw [frame]
      exact tries (ledger.receivePreempted done) next
  | clientValue m =>
    exact (ledger.propose m.value).ledger.tryAccept_isSome room
  | _ => rfl

/-- A step ends no proposer. -/
theorem next_alive (roomy : Roomy s e) (next : System.Next s e s')
    (accounted : ∀ k, ∀ p ∈ s.proposers k, ∃ closed, Ledger p closed)
    (alive : (s.proposers id).isSome = true) : (s'.proposers id).isSome = true := by
  rcases next_proposers next id with ⟨same, -⟩ | ⟨p, handler, here, turn, result⟩
  · rwa [same]
  rw [result]
  obtain ⟨closed, ledger⟩ := accounted id p here
  cases e with
  | submit k now value =>
    cases turn
    exact (ledger.propose value).ledger.tryAccept_isSome (roomy p here)
  | proposerReceives k now bucket q =>
    cases turn
    exact ledger.handle_isSome (roomy p here)
  | preexecOnce k now =>
    cases turn
    have room := roomy p here
    exact ledger.preexecuteLoop_isSome _ (by omega)
  | checkTimeouts | setInstanceId =>
    cases turn
    rfl
  | acceptorTimer | acceptorReceives | sendTrim | learnerReceives | checkHoles
  | setLearnerInstanceId => cases turn

/-- In a careful run in which the instance numbers do not run out no assertion of a proposer
fails: its process goes on. -/
theorem proposers_last (started : start.Started n) (run : start.Runs trace s)
    (careful : ∀ p ∈ trace, Careful p.1 p.2) (roomy : ∀ p ∈ trace, Roomy p.1 p.2)
    (begun : (start.proposers id).isSome = true) : (s.proposers id).isSome = true := by
  have keeps : ∀ before s e s', System.Runs start before s →
      ((Careful s e ∧ ∀ id now v, e = .submit id now v → Submitted trace v) ∧ Roomy s e) →
      System.Next s e s' →
      (Tracked n (Submitted trace) before s ∧ (s.proposers id).isSome = true) →
      Tracked n (Submitted trace) (before ++ [(s, e)]) s' ∧ (s'.proposers id).isSome = true := by
    rintro before s e s' - ⟨may, room⟩ next ⟨tracked, alive⟩
    refine ⟨tracked.step (fun v good => good.1) may.2 may.1 next,
      next_alive room next (fun k p known => ?_) alive⟩
    exact (tracked.accounts p known).imp fun _ account => account.ledger
  exact (run.carries _ keeps (fun p member =>
    ⟨allowed_of_careful careful p member, roomy p member⟩) ⟨.started started, begun⟩).2

theorem proposers_last_takenOver : ∃ trace s, threeAndTwo.Runs trace s ∧
    (1, [7]) ∈ s.delivered 0 ∧ (s.proposers 0).isSome = true := by
  obtain ⟨trace, s, run, steps, delivered⟩ := @play_any threeAndTwo takenOver
    (fun p => decide (Careful p.1 p.2) && decide (Roomy p.1 p.2))
    (fun s => (s.delivered 0).contains (1, [7])) (by decide +kernel)
  have passed : ∀ p ∈ trace, Careful p.1 p.2 ∧ Roomy p.1 p.2 := fun p member => by
    simpa using steps p member
  exact ⟨trace, s, run, by simpa using delivered, proposers_last threeAndTwo_started run
    (fun p member => (passed p member).1) (fun p member => (passed p member).2) rfl⟩

end CaceProofs.Guarantees.Paxos
