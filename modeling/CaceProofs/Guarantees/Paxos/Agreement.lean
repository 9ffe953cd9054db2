import CaceProofs.Guarantees.Paxos.Learners

/-!
# Agreement

The learners of a run deliver the same value for an instance, and one that a client submitted,
however messages are lost, repeated or reordered and whichever processes end.
-/
namespace CaceProofs.Guarantees.Paxos
open Source.Paxos Library

/-- The events of a run. Submitted values are not empty, and proposers are only moved forward.
The ballots of a proposer that gets a message can still be raised. An acceptor that gets a
repeat request has promised none of the records to a ballot after its vote. -/
def Careful (s : System) : System.Event → Prop
  | .submit _ _ value => value ≠ []
  | .acceptorReceives a packet =>
    ∀ acceptor ∈ s.acceptors a, ∀ m ∈ packet.message.repeat?, Unpromised acceptor m
  | .proposerReceives id _ _ _ => ∀ p ∈ s.proposers id, Fits p
  | .setInstanceId id iid => ∀ p ∈ s.proposers id, p.nextPrepareIid ≤ iid
  | _ => True

instance (s : System) (e : System.Event) : Decidable (Careful s e) := by
  cases e <;> unfold Careful <;> infer_instance

/-- What every state of a run keeps, where `P` holds of all values submitted. -/
structure Sound (n : Nat) (P : PaxosValue → Prop) (s : System) : Prop where
  coherent : Coherent n P s.net s.acceptors
  honest : ∀ {id}, ∀ p ∈ s.proposers id, Honest n P s.net s.acceptors id p
  informed : ∀ l, Informed n s.net (s.learners l)
  delivered : ∀ l, ∀ d ∈ s.delivered l, ∃ b, Chosen n s.net d.1 b d.2

variable {n : Nat} {P : PaxosValue → Prop} {s s' start : System} {e : System.Event}
  {trace : List (System × System.Event)} {a id : Nat}

theorem Sound.learn (sound : Sound n P s) {net : List Packet} (sent : s.net ⊆ net) :
    (∀ l, Informed n net (s.learners l)) ∧
      ∀ l, ∀ d ∈ s.delivered l, ∃ b, Chosen n net d.1 b d.2 :=
  ⟨fun l => (sound.informed l).mono sent, fun l d member =>
    (sound.delivered l d member).imp fun _ chosen => chosen.mono sent⟩

/-- An acceptor has handled something. -/
theorem Sound.atAcceptor {f : Acceptor → Outcome Acceptor} (sound : Sound n P s)
    (answered : ∀ acceptor ∈ s.acceptors a, Answered n P s.net s.acceptors a (f acceptor))
    (done : s.atAcceptor a f = some s') : Sound n P s' := by
  obtain ⟨acceptor, here, rfl⟩ := Option.map_eq_some_iff.mp done
  have o := answered acceptor here
  obtain ⟨informed, delivered⟩ := sound.learn o.grows.sent
  exact ⟨o.coherent, fun p known => (sound.honest p known).grows o.grows fun request _ =>
    o.requests request, informed, delivered⟩

/-- A proposer has handled something. -/
theorem Sound.atProposer {f : Proposer → Outcome Proposer} (sound : Sound n P s)
    (proposes : ∀ p ∈ s.proposers id, Proposes n P s.net s.acceptors id (f p))
    (done : s.atProposer id f = some s') : Sound n P s' := by
  obtain ⟨p, here, rfl⟩ := Option.map_eq_some_iff.mp done
  have o := proposes p here
  have grows : Grows s.net s.acceptors (after s.net id (f p).sent) s.acceptors :=
    ⟨subset_after, fun vote => .inl (o.votes vote), fun held => held⟩
  obtain ⟨informed, delivered⟩ := sound.learn grows.sent
  refine ⟨o.coherent, fun {k} q known => ?_, informed, delivered⟩
  by_cases same : k = id
  · subst same
    dsimp only at known
    rw [Function.update_self] at known
    exact o.honest q known
  · dsimp only at known
    rw [Function.update_of_ne same] at known
    exact (sound.honest q known).grows grows fun request mine =>
      (o.requests request).resolve_right fun other => same (mine.symm.trans other)

/-- Messages that say nothing about ballots have been sent. -/
theorem Sound.sends (sound : Sound n P s) {source : Nat} {sent : List PaxosMessage}
    (said : ∀ m ∈ sent, Sent n P (after s.net source sent) s.acceptors ⟨source, m⟩)
    (plain : ∀ m ∈ sent, (∀ acc, m ≠ .accepted acc) ∧ ∀ req, m ≠ .accept req) :
    Sound n P { s with net := s.send source sent } := by
  have votes : ∀ {iid k b v}, Voted (after s.net source sent) iid k b v → Voted s.net iid k b v :=
    voted_after fun m member acc same => absurd same ((plain m member).1 acc)
  have requests : ∀ {iid b v}, Proposed (after s.net source sent) iid b v →
      Proposed s.net iid b v := by
    rintro iid b v ⟨from_, request⟩
    rcases mem_after.mp request with old | ⟨-, new⟩
    · exact ⟨from_, old⟩
    · exact absurd rfl ((plain _ new).2 _)
  have grows : Grows s.net s.acceptors (after s.net source sent) s.acceptors :=
    ⟨subset_after, fun vote => .inl (votes vote), fun held => held⟩
  obtain ⟨informed, delivered⟩ := sound.learn grows.sent
  refine ⟨grows.coherent sound.coherent (fun p member => ?_) fun acceptor known => ?_,
    fun p known => (sound.honest p known).grows grows fun request _ => requests request,
    informed, delivered⟩
  · rcases mem_after.mp member with old | ⟨from_, new⟩
    · exact .inl old
    · obtain ⟨_, m⟩ := p
      subst from_
      exact .inr (said m new)
  · obtain ⟨member, kept⟩ := sound.coherent.faithful acceptor known
    exact ⟨member, kept.mono subset_after votes⟩

/-- A learner has handled something. -/
theorem Sound.learner (sound : Sound n P s) {l : Nat} {learner : Learner}
    {deliveries : List (Nat × PaxosValue)} (informed : Informed n s.net learner)
    (chosen : ∀ d ∈ deliveries, ∃ b, Chosen n s.net d.1 b d.2) :
    Sound n P { s with
      learners := Function.update s.learners l learner
      delivered := Function.update s.delivered l (s.delivered l ++ deliveries) } := by
  refine { sound with informed := fun k => ?_, delivered := fun k d member => ?_ }
  · by_cases same : k = l
    · subst same
      simpa using informed
    · simpa [same] using sound.informed k
  · by_cases same : k = l
    · subst same
      simp only [Function.update_self] at member
      rcases List.mem_append.mp member with old | new
      · exact sound.delivered k d old
      · exact chosen d new
    · simp only [Function.update_of_ne same] at member
      exact sound.delivered k d member

/-- A message is received if it was sent. -/
theorem receives_spec {p : Packet} {o : Option System} (done : s.receives p o = some s') :
    p ∈ s.net ∧ o = some s' := by
  unfold System.receives at done
  split at done
  next member => exact ⟨member, done⟩
  next => cases done

/-- What an event has a proposer do. -/
def proposerTurn (s : System) : System.Event → Option (Nat × (Proposer → Outcome Proposer))
  | .submit id now value => some (id, Proposer.handleClientValue s.preexecWindow now ⟨value⟩)
  | .proposerReceives id now bucket packet =>
    some (id, fun p => p.handle s.preexecWindow now bucket packet.source packet.message)
  | .preexecOnce id now => some (id, Proposer.preexecute s.preexecWindow now)
  | .checkTimeouts id now => some (id, Proposer.checkTimeouts s.proposerTimeout now)
  | .setInstanceId id iid => some (id, fun p => ⟨some (p.setInstanceId iid), []⟩)
  | _ => none

/-- Whose turn a step is, and what it changes. -/
inductive Turn (s : System) (e : System.Event) : System → Prop
  | acceptor {a : Nat} {acceptor : Acceptor} (o : Outcome Acceptor)
      (here : s.acceptors a = some acceptor) (still : proposerTurn s e = none) :
      Turn s e { s with
        acceptors := Function.update s.acceptors a o.party
        net := s.send a o.sent }
  | proposer {id : Nat} {p : Proposer} {handler : Proposer → Outcome Proposer}
      (here : s.proposers id = some p) (turn : proposerTurn s e = some (id, handler)) :
      Turn s e { s with
        proposers := Function.update s.proposers id (handler p).party
        net := s.send id (handler p).sent }
  | sends (source : Nat) (sent : List PaxosMessage) (still : proposerTurn s e = none) :
      Turn s e { s with net := s.send source sent }
  | hears {l : Nat} {packet : Packet} (received : packet ∈ s.net)
      (still : proposerTurn s e = none) :
      Turn s e { s with
        learners := Function.update s.learners l
          ((s.learners l).handle packet.source packet.message).1
        delivered := Function.update s.delivered l
          (s.delivered l ++ ((s.learners l).handle packet.source packet.message).2) }
  | moves {l iid : Nat} (moved : e = .setLearnerInstanceId l iid) :
      Turn s e { s with
        learners := Function.update s.learners l ((s.learners l).setInstanceId iid) }

theorem next_turn (next : System.Next s e s') : Turn s e s' := by
  have acceptor : ∀ {a f}, s.atAcceptor a f = some s' → proposerTurn s e = none →
      Turn s e s' := by
    intro a f done still
    obtain ⟨acceptor, here, rfl⟩ := Option.map_eq_some_iff.mp done
    exact .acceptor _ here still
  have proposer : ∀ {id f}, s.atProposer id f = some s' → proposerTurn s e = some (id, f) →
      Turn s e s' := by
    intro id f done turn
    obtain ⟨p, here, rfl⟩ := Option.map_eq_some_iff.mp done
    exact .proposer here turn
  unfold System.Next System.exec at next
  cases e with
  | submit | preexecOnce | checkTimeouts => exact proposer next rfl
  | proposerReceives => exact proposer (receives_spec next).2 rfl
  | setInstanceId =>
    dsimp only at next
    split at next
    · exact proposer next rfl
    · cases next
  | acceptorTimer => exact acceptor next rfl
  | acceptorReceives => exact acceptor (receives_spec next).2 rfl
  | sendTrim iid =>
    dsimp only at next
    split at next
    · obtain rfl := Option.some.inj next
      exact .sends 0 [.trim ⟨iid⟩] rfl
    · cases next
  | learnerReceives =>
    obtain ⟨received, done⟩ := receives_spec next
    obtain rfl := Option.some.inj done
    exact .hears received rfl
  | checkHoles l =>
    obtain rfl := Option.some.inj next
    exact .sends l (s.learners l).checkHoles rfl
  | setLearnerInstanceId =>
    obtain rfl := Option.some.inj next
    exact .moves rfl

/-- No step takes a message back. -/
theorem next_sent (next : System.Next s e s') : s.net ⊆ s'.net := by
  cases next_turn next with
  | acceptor | proposer | sends => exact List.subset_append_left _ _
  | hears | moves => exact List.Subset.refl _

/-- A step that is no turn of a proposer leaves the proposer alone. -/
theorem next_proposers (next : System.Next s e s') (id : Nat) :
    (s'.proposers id = s.proposers id ∧ ∀ handler, proposerTurn s e ≠ some (id, handler)) ∨
      ∃ p handler, s.proposers id = some p ∧ proposerTurn s e = some (id, handler) ∧
        s'.proposers id = (handler p).party := by
  cases next_turn next with
  | @proposer k p handler here turn =>
    by_cases same : id = k
    · subst same
      exact .inr ⟨p, handler, here, turn, Function.update_self _ _ _⟩
    · refine .inl ⟨Function.update_of_ne same _ _, fun handler' turn' => same ?_⟩
      rw [turn'] at turn
      exact congrArg Prod.fst (Option.some.inj turn)
  | acceptor _ _ still | sends _ _ still | hears _ still => exact .inl ⟨rfl, by simp [still]⟩
  | moves moved => exact .inl ⟨rfl, by simp [moved, proposerTurn]⟩

/-- What a step keeps. -/
theorem Sound.step (filled : ∀ v, P v → v ≠ []) (sound : Sound n P s)
    (submits : ∀ id now v, e = .submit id now v → P v) (careful : Careful s e)
    (next : System.Next s e s') : Sound n P s' := by
  unfold System.Next System.exec at next
  cases e with
  | submit id now value =>
    refine sound.atProposer (fun p known => ?_) next
    exact ((sound.honest p known).propose (submits id now value rfl)).tryAccept _ sound.coherent
  | sendTrim iid =>
    dsimp only at next
    split at next
    next small =>
      cases next
      exact sound.sends (by simpa [Sent] using small) (by simp)
    next => cases next
  | acceptorReceives a p =>
    obtain ⟨received, done⟩ := receives_spec next
    exact sound.atAcceptor (fun acceptor known =>
      sound.coherent.acceptorHandles filled known received (careful acceptor known)) done
  | acceptorTimer a =>
    exact sound.atAcceptor (fun acceptor known => sound.coherent.acceptorTimer known) next
  | proposerReceives id now bucket p =>
    obtain ⟨received, done⟩ := receives_spec next
    exact sound.atProposer (fun q known =>
      (sound.honest q known).handle sound.coherent received (careful q known)) done
  | preexecOnce id now =>
    exact sound.atProposer (fun q known =>
      (sound.honest q known).preexecuteLoop _ sound.coherent) next
  | checkTimeouts id now =>
    exact sound.atProposer (fun q known =>
      (sound.honest q known).checkTimeouts _ sound.coherent) next
  | setInstanceId id iid =>
    dsimp only at next
    split at next
    next small =>
      refine sound.atProposer (fun q known => sound.coherent.sendsNothing fun _ same => ?_) next
      exact Option.some.inj same ▸ (sound.honest q known).setInstanceId small (careful q known)
    next => cases next
  | learnerReceives l p =>
    obtain ⟨received, done⟩ := receives_spec next
    obtain rfl := Option.some.inj done
    obtain ⟨informed, chosen⟩ := (sound.informed l).handle sound.coherent received
    exact sound.learner informed chosen
  | checkHoles l =>
    cases next
    refine sound.sends (fun m member => ?_) fun m member => ?_
    all_goals
      obtain ⟨msg, -, rfl⟩ := List.mem_map.mp member
    · trivial
    · simp
  | setLearnerInstanceId l iid =>
    cases next
    have informed : Informed n s.net ((s.learners l).setInstanceId iid) :=
      ⟨(sound.informed l).members, (sound.informed l).held⟩
    simpa using @Sound.learner _ _ _ sound l _ [] informed nofun

/-- Before anything has been sent. -/
theorem Sound.started (started : s.Started n) : Sound n P s := by
  have acceptors : ∀ a acceptor, s.acceptors a = some acceptor → a < n ∧ acceptor = .new := by
    intro a acceptor known
    rw [started.acceptors] at known
    split at known
    next member => exact ⟨member, (Option.some.inj known).symm⟩
    next => cases known
  have nothing : ∀ p : Packet, p ∉ s.net := by simp [started.net]
  refine ⟨⟨fun p member => absurd member (nothing p), fun acceptor known => ?_⟩,
    fun p known => ?_, fun l => ?_, fun l d member => ?_⟩
  · obtain ⟨member, rfl⟩ := acceptors _ acceptor known
    exact ⟨member,
      { trim := by decide
        unvoted := fun _ b v vote => nothing _ vote
        last := fun _ b v vote => absurd vote (nothing _)
        vote := fun _ filled => absurd rfl filled
        ordered := fun _ => Nat.le_refl _ }⟩
  · obtain ⟨small, rfl⟩ := started.proposers _ p known
    exact
      { named := ⟨rfl, small⟩
        members := rfl
        bound := Nat.two_pow_pos 32
        values := nofun
        begun := fun iid b v ⟨id, request⟩ _ => absurd request (nothing _)
        prepared := nofun
        accepting := nofun }
  · obtain ⟨catchUp, same⟩ := started.learners l
    rw [same]
    exact ⟨rfl, nofun⟩
  · rw [started.delivered] at member
    cases member

/-- A value that a client submitted in the run, and that is not empty. -/
def Submitted (trace : List (System × System.Event)) (v : PaxosValue) : Prop :=
  v ≠ [] ∧ ∃ p ∈ trace, ∃ id now, p.2 = .submit id now v

theorem allowed_of_careful (careful : ∀ p ∈ trace, Careful p.1 p.2) : ∀ p ∈ trace,
    Careful p.1 p.2 ∧ ∀ id now v, p.2 = .submit id now v → Submitted trace v := by
  refine fun p member => ⟨careful p member, fun id now v same => ⟨?_, p, member, id, now, same⟩⟩
  have filled := careful p member
  rw [same] at filled
  exact filled

/-- In a run of careful events all learners deliver the same value for an instance, and a client
submitted it. -/
theorem learners_agree (started : start.Started n) (run : start.Runs trace s)
    (careful : ∀ p ∈ trace, Careful p.1 p.2) {l l' iid : Nat} {v w : PaxosValue}
    (first : (iid, v) ∈ s.delivered l) (second : (iid, w) ∈ s.delivered l') :
    v = w ∧ ∃ p ∈ trace, ∃ id now, p.2 = .submit id now v := by
  have keeps : ∀ s e s',
      (Careful s e ∧ ∀ id now v, e = .submit id now v → Submitted trace v) →
      System.Next s e s' → Sound n (Submitted trace) s → Sound n (Submitted trace) s' :=
    fun s e s' may next before => before.step (fun v good => good.1) may.2 may.1 next
  have sound : Sound n (Submitted trace) s :=
    run.preserves keeps (allowed_of_careful careful) (.started started)
  obtain ⟨b, chosen⟩ := sound.delivered l _ first
  obtain ⟨c, chosen'⟩ := sound.delivered l' _ second
  exact ⟨sound.coherent.agreement chosen chosen', (sound.coherent.chosen_submitted chosen).2⟩

/-- Three acceptors, two proposers that prepare one instance ahead, and learners. -/
def threeAndTwo : System where
  acceptors a := if a < 3 then some .new else none
  proposers id := if id < 2 then some (.new id 3) else none
  learners _ := .new 3 true
  delivered _ := []
  net := []
  preexecWindow := 1
  proposerTimeout := 1

theorem threeAndTwo_started : threeAndTwo.Started 3 where
  acceptors _ := rfl
  proposers id p known := by
    change (if id < 2 then some (Proposer.new id 3) else none) = some p at known
    split at known
    next small => exact ⟨by unfold maxNOfProposers; omega, (Option.some.inj known).symm⟩
    next => cases known
  learners _ := ⟨true, rfl⟩
  delivered _ := rfl
  net := rfl

/-- A run of a list of events, as far as its steps and its end pass a test. -/
theorem play_any {events : List System.Event} {steps : System × System.Event → Bool}
    {final : System → Bool}
    (passes : ((start.play events).any fun r => r.1.all steps && final r.2) = true) :
    ∃ trace s, start.Runs trace s ∧ (∀ p ∈ trace, steps p = true) ∧ final s = true := by
  obtain ⟨⟨trace, s⟩, played, both⟩ := (Option.any_eq_true _ _).mp passes
  obtain ⟨all, good⟩ := Bool.and_eq_true_iff.mp both
  exact ⟨trace, s, System.play_runs played, List.all_eq_true.mp all, good⟩

/-- Proposer 0 gets a value accepted by acceptor 0 alone. Proposer 1 learns of it with its
promises, and asks for that value in place of its own. -/
def takenOver : List System.Event :=
  let bucket := fun iid : Nat => iid
  let prepare := fun id b => Packet.mk id (.prepare ⟨1, b⟩)
  let promise := fun a b => Packet.mk a (.promise ⟨1, b, 0, []⟩)
  [.preexecOnce 0 0, .preexecOnce 1 0, .acceptorReceives 0 (prepare 0 10),
    .acceptorReceives 1 (prepare 0 10), .proposerReceives 0 0 bucket (promise 0 10),
    .proposerReceives 0 0 bucket (promise 1 10), .submit 0 0 [7],
    .acceptorReceives 0 ⟨0, .accept ⟨1, 10, [7]⟩⟩, .acceptorReceives 0 (prepare 1 11),
    .acceptorReceives 2 (prepare 1 11),
    .proposerReceives 1 0 bucket ⟨0, .promise ⟨1, 11, 10, [7]⟩⟩, .submit 1 0 [8],
    .proposerReceives 1 0 bucket (promise 2 11), .acceptorReceives 0 ⟨1, .accept ⟨1, 11, [7]⟩⟩,
    .acceptorReceives 2 ⟨1, .accept ⟨1, 11, [7]⟩⟩,
    .learnerReceives 0 ⟨0, .accepted ⟨1, 11, 11, [7]⟩⟩,
    .learnerReceives 0 ⟨2, .accepted ⟨1, 11, 11, [7]⟩⟩,
    .learnerReceives 1 ⟨2, .accepted ⟨1, 11, 11, [7]⟩⟩,
    .learnerReceives 1 ⟨0, .accepted ⟨1, 10, 10, [7]⟩⟩,
    .learnerReceives 1 ⟨0, .accepted ⟨1, 11, 11, [7]⟩⟩]

theorem learners_agree_takenOver : ∃ trace s, threeAndTwo.Runs trace s ∧
    (1, [7]) ∈ s.delivered 0 ∧ ∃ p ∈ trace, ∃ id now, p.2 = .submit id now [7] := by
  obtain ⟨trace, s, run, careful, delivered⟩ := @play_any threeAndTwo takenOver
    (fun p => Careful p.1 p.2)
    (fun s => (s.delivered 0).contains (1, [7]) && (s.delivered 1).contains (1, [7]))
    (by decide +kernel)
  obtain ⟨first, second⟩ : (1, [7]) ∈ s.delivered 0 ∧ (1, [7]) ∈ s.delivered 1 := by
    simpa using delivered
  exact ⟨trace, s, run, first, (learners_agree threeAndTwo_started run
    (fun p member => by simpa using careful p member) first second).2⟩

/-- Whether an acceptor gets a repeat request. -/
def repeats : System.Event → Bool
  | .acceptorReceives _ packet => packet.message.repeat?.isSome
  | _ => false

/-- Acceptor 2 alone accepts `[7]`, and promises a later ballot, in which the others accept
`[8]`. Learner 1 has closed the next instance, and asks for the first one again. -/
def repeated : List System.Event :=
  let bucket := fun iid : Nat => iid
  let prepare := fun id iid b => Packet.mk id (.prepare ⟨iid, b⟩)
  let promise := fun a iid b => Packet.mk a (.promise ⟨iid, b, 0, []⟩)
  let accept := fun id iid b v => Packet.mk id (.accept ⟨iid, b, [v]⟩)
  let accepted := fun a iid b v => Packet.mk a (.accepted ⟨iid, b, b, [v]⟩)
  [.preexecOnce 0 0, .preexecOnce 1 0, .acceptorReceives 1 (prepare 0 1 10),
    .acceptorReceives 2 (prepare 0 1 10), .proposerReceives 0 0 bucket (promise 1 1 10),
    .proposerReceives 0 0 bucket (promise 2 1 10), .submit 0 0 [7],
    .acceptorReceives 2 (accept 0 1 10 7), .acceptorReceives 0 (prepare 0 2 10),
    .acceptorReceives 1 (prepare 0 2 10), .proposerReceives 0 0 bucket (promise 0 2 10),
    .proposerReceives 0 0 bucket (promise 1 2 10), .submit 0 0 [9],
    .acceptorReceives 0 (accept 0 2 10 9), .acceptorReceives 1 (accept 0 2 10 9),
    .learnerReceives 1 (accepted 0 2 10 9), .learnerReceives 1 (accepted 1 2 10 9),
    .checkHoles 1, .acceptorReceives 0 (prepare 1 1 11), .acceptorReceives 1 (prepare 1 1 11),
    .acceptorReceives 2 (prepare 1 1 11), .proposerReceives 1 0 bucket (promise 0 1 11),
    .proposerReceives 1 0 bucket (promise 1 1 11), .submit 1 0 [8],
    .acceptorReceives 0 (accept 1 1 11 8), .acceptorReceives 1 (accept 1 1 11 8),
    .learnerReceives 0 (accepted 0 1 11 8), .learnerReceives 0 (accepted 1 1 11 8),
    .acceptorReceives 2 ⟨1, .repeat ⟨1, 2⟩⟩, .learnerReceives 1 (accepted 0 1 11 8),
    .learnerReceives 1 ⟨2, .accepted ⟨1, 11, 10, [7]⟩⟩]

/-- With a repeat request for a record promised to a later ballot, two learners can deliver
different values for an instance. -/
theorem learners_disagree : ∃ trace s, threeAndTwo.Runs trace s ∧
    (∀ p ∈ trace, Careful p.1 p.2 ∨ repeats p.2 = true) ∧
      (1, [8]) ∈ s.delivered 0 ∧ (1, [7]) ∈ s.delivered 1 := by
  obtain ⟨trace, s, run, careful, delivered⟩ := @play_any threeAndTwo repeated
    (fun p => decide (Careful p.1 p.2) || repeats p.2)
    (fun s => (s.delivered 0).contains (1, [8]) && (s.delivered 1).contains (1, [7]))
    (by decide +kernel)
  exact ⟨trace, s, run, fun p member => by simpa using careful p member, by simpa using delivered⟩

end CaceProofs.Guarantees.Paxos
