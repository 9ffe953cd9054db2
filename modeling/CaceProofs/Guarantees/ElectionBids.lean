import CaceProofs.Guarantees.OwnBelief
import CaceProofs.Guarantees.Provenance

/-!
# The bids of an election

Under an election level the own value of a variable is a bid that no proposal replaces. It
stays the agent's own as long as the agent does not learn of the variable from an acknowledge,
which carries no level.
-/
namespace CaceProofs.Guarantees
open Source Library

/-- One of the three election levels. -/
def Elective (strategy : AcceptStrategy) : Prop :=
  strategy.acceptFunction = .election

instance (strategy : AcceptStrategy) : Decidable (Elective strategy) :=
  inferInstanceAs (Decidable (_ = _))

theorem Elective.named {strategy : AcceptStrategy} (elective : Elective strategy) :
    strategy = .threeWayHandShakeElection ∨ strategy = .twoWayHandShakeElection ∨
      strategy = .fireAndForgetElection := by
  by_contra other
  unfold Elective AcceptStrategy.acceptFunction at elective
  rw [if_neg other] at elective
  split at elective
  · cases elective
  · split at elective
    · cases elective
    · split at elective <;> cases elective

/-- A level travels as an int16. -/
theorem Elective.sent {strategy : AcceptStrategy} (elective : Elective strategy) :
    Elective ⟨toShort strategy.code⟩ := by
  rcases elective.named with rfl | rfl | rfl <;> decide

section Variable

/-- A variable of that name that holds the bid `b`. -/
structure Bidding (x : Name) (b : Bytes) (cv : ConsensusVariable) : Prop where
  name : cv.name = x
  elective : Elective cv.strategy
  val : cv.val = b
  hasValue : cv.hasValue = true

/-- No proposal wins against a bid, and none changes it. -/
theorem electionLoop_bid (value : Option Bytes) {own : Believe} (elective : Elective own.strategy)
    (bid : own.hasValue = true) (proposals : List Believe) :
    proposals.foldl (Believe.acceptStep value) (own, none) = (own, none) := by
  induction proposals with
  | nil => rfl
  | cons p proposals ih =>
    have first : Believe.acceptStep value (own, none) p = (own, none) := by
      unfold Believe.acceptStep Believe.accept
      rw [show own.strategy.acceptFunction = .election from elective]
      simp [Believe.electionAcceptStrategy, bid]
    rw [List.foldl_cons, first]
    exact ih

theorem acceptProposals_bid {cv : ConsensusVariable} (value : Option Bytes)
    (elective : Elective cv.strategy) (bid : cv.hasValue = true) :
    cv.acceptProposals value = cv := by
  unfold ConsensusVariable.acceptProposals
  rw [electionLoop_bid value elective bid]

theorem Bidding.updated {x : Name} {b : Bytes} {cv : ConsensusVariable} (bidding : Bidding x b cv)
    (u : ProposalUpdate) : Bidding x b (updated u (some cv)) := by
  unfold Guarantees.updated
  dsimp only
  split
  next recorded found =>
    have own := recordProposal_own found
    rw [acceptProposals_bid none (own ▸ bidding.elective) (own ▸ bidding.hasValue)]
    exact ⟨own ▸ bidding.name, own ▸ bidding.elective, own ▸ bidding.val, own ▸ bidding.hasValue⟩
  next => exact bidding

/-- A variable that a message with an election level creates holds the placeholder. -/
theorem created_bidding {u : ProposalUpdate} {strategy : AcceptStrategy}
    (level : u.message.strategy? = some strategy) (elective : Elective strategy) :
    Bidding u.variableName Believe.doubleMin (Guarantees.updated u none) := by
  have own : Elective u.own.strategy := by
    rw [u.strategies.2.2.1, level]
    exact elective
  unfold Guarantees.updated ConsensusVariable.acceptProposals
  simp only [List.foldl_cons, List.foldl_nil, Believe.acceptStep, Believe.accept,
    show u.own.strategy.acceptFunction = .election from own, Believe.electionAcceptStrategy,
    u.own_unset.1, Bool.false_eq_true, if_false, if_true]
  exact ⟨u.named.2.2.1, own, rfl, rfl⟩

end Variable

section Agent

variable {r : Readings} {x : Name} {b : Bytes} {c c' : Cace}

/-- A command or a notification about the variable carries an election level. -/
def Electoral (x : Name) (m : Message) : Prop :=
  ∀ report, m.report? = some report → report.variableName = x →
    ∀ strategy, m.strategy? = some strategy → Elective strategy

/-- Another variable, with proposals for another variable. -/
def Elsewhere (x : Name) (cv : ConsensusVariable) : Prop :=
  cv.name ≠ x ∧ ∀ p ∈ cv.proposals, p.name ≠ x

/-- An update for another variable leaves it another one. -/
theorem Elsewhere.updated {u : ProposalUpdate} {old : Option ConsensusVariable}
    (other : u.variableName ≠ x) (before : ∀ cv, old = some cv → Elsewhere x cv) :
    Elsewhere x (updated u old) := by
  have accepts : ∀ (cv : ConsensusVariable) (value : Option Bytes), Elsewhere x cv →
      Elsewhere x (cv.acceptProposals value) := by
    intro cv value elsewhere
    obtain ⟨-, ⟨name, -⟩ | ⟨winner, member, name, -⟩⟩ := acceptProposals_spec cv value
    · exact ⟨name ▸ elsewhere.1, elsewhere.2⟩
    · exact ⟨name ▸ elsewhere.2 winner member, elsewhere.2⟩
  cases old with
  | none =>
    refine accepts _ _ ⟨?_, fun p member => ?_⟩
    · exact fun same => other (u.named.2.2.1.symm.trans same)
    · rw [List.mem_singleton.mp member, u.named.2.2.2]
      exact other
  | some cv =>
    have elsewhere := before cv rfl
    unfold Guarantees.updated
    dsimp only
    split
    next recorded found =>
      refine accepts _ _ ⟨recordProposal_own found ▸ elsewhere.1, fun p member => ?_⟩
      rcases mem_recordProposal found member with old | rfl | ⟨old, inRecords, -, rfl⟩
      · exact elsewhere.2 p old
      · rw [u.named.2.1]
        exact other
      · rw [u.named.1]
        exact elsewhere.2 old inRecords
    next => exact elsewhere

/-- What leaves a bid alone: election levels, no write, no expiry. -/
def electing (x : Name) : Licence where
  passes := Elsewhere x
  decides name := name ≠ x
  receives m := Electoral x m ∧ ∀ cmd, m = .write cmd → cmd.variableName ≠ x
  expires := False

/-- The variable that a job announces is a stored one or not the elected one. -/
def Announces (x : Name) : Job → Prop
  | .command j => Pointed (electing x) j.variablePtr
  | .believeNotification j => Pointed (electing x) j.variablePtr
  | .commandAcknowledge _ | .believeAcknowledge _ | .shortAck _ | .write _ | .writeAck _
  | .request _ => True

/-- The report about the variable that a job has applied. -/
def openings (x : Name) (history : List Observation) : List Message :=
  history.filterMap fun
    | .applied m => if m.report?.map Report.variableName = some x then some m else none
    | _ => none

/-- The first report about the variable is no acknowledge. -/
def Opened (x : Name) (c : Cace) : Prop :=
  ∀ m ∈ (openings x c.history).head?, m.strategy?.isSome = true

instance (x : Name) (c : Cace) : Decidable (Opened x c) :=
  inferInstanceAs (Decidable (∀ m ∈ (openings x c.history).head?, m.strategy?.isSome = true))

/-- What holds of everything but the bid itself. -/
structure Electorate (x : Name) (c : Cace) : Prop where
  queued : c.Queued
  received : ∀ m, .received m ∈ c.history → (electing x).receives m
  published : ∀ m t, .published m t ∈ c.history → Electoral x m
  others : ∀ name cv, c.getVariable name = some cv → name ≠ x → Elsewhere x cv
  announces : ∀ job ∈ c.jobs, Announces x job

/-- Only an update of the variable reports about it. -/
theorem effect_openings {may : Licence} (effect : Effect r may c c') :
    (∃ u : ProposalUpdate, u.variableName = x ∧ .received u.message ∈ c.history ∧
        c' = c.updateVariable u) ∨
      openings x c'.history = openings x c.history := by
  have appended : ∀ (seen : List Observation), openings x seen = [] →
      openings x (c.history ++ seen) = openings x c.history := by
    intro seen none
    unfold openings at none ⊢
    rw [List.filterMap_append, none, List.append_nil]
  have notified : ∀ (o : Observation) (seen : List Observation) (name : Name),
      openings x [o] = [] → (∀ o ∈ seen, o = .notified name) → openings x (o :: seen) = [] := by
    intro o seen name first rest
    refine List.filterMap_eq_nil_iff.mpr fun a member => ?_
    rcases List.mem_cons.mp member with rfl | later
    · exact List.filterMap_eq_nil_iff.mp first a (by simp)
    · rw [rest a later]
  cases effect with
  | @receive m =>
    rw [receive_history]
    exact .inr (appended _ rfl)
  | apply u own received =>
    by_cases here : u.variableName = x
    · exact .inl ⟨u, here, received, rfl⟩
    · obtain ⟨seen, history, rest⟩ := updateVariable_history c u
      rw [history]
      refine .inr (appended _ (notified _ seen _ ?_ rest))
      simp [openings, u.message_report, here]
  | write cmd received =>
    obtain ⟨seen, history, rest⟩ := writeUpdate_history r c cmd
    rw [history]
    exact .inr (appended _ (notified _ seen _ rfl rest))
  | decide => exact .inr (by rw [decideValue_frame])
  | insert => exact .inr (by rw [insertVariable_frame])
  | send | acknowledge | resend => exact .inr (appended _ rfl)
  | tick | engage | queue | overwrite | invalidate => exact .inr rfl

/-- An effect changes the variable of an election by a report about it only. -/
theorem effect_election (effect : Effect r (electing x) c c') (before : Electorate x c) :
    (∃ u : ProposalUpdate, u.variableName = x ∧ .received u.message ∈ c.history ∧
        c' = c.updateVariable u) ∨
      c'.getVariable x = c.getVariable x ∧ openings x c'.history = openings x c.history := by
  refine (effect_openings effect).elim .inl fun seen => ?_
  cases effect with
  | receive => exact .inr ⟨by unfold Cace.receive; split <;> rfl, seen⟩
  | apply u own received =>
    by_cases here : u.variableName = x
    · exact .inl ⟨u, here, received, rfl⟩
    · exact .inr ⟨by rw [getVariable_updateVariable, if_neg (Ne.symm here)], seen⟩
  | write cmd received =>
    have other := (before.received _ received).2 cmd rfl
    exact .inr ⟨by rw [getVariable_write, if_neg (Ne.symm other)], seen⟩
  | decide name value type strategy chosen =>
    exact .inr ⟨by rw [getVariable_decideValue, if_neg (Ne.symm chosen)], seen⟩
  | @insert var given =>
    exact .inr ⟨by rw [getVariable_insertVariable, if_neg fun here => given.1 here.1.symm], seen⟩
  | @overwrite var old given stored =>
    exact .inr ⟨by rw [getVariable_setVariable, if_neg (Ne.symm given.1)], seen⟩
  | invalidate t allowed => exact allowed.elim
  | send | acknowledge | resend | tick | engage | queue => exact .inr ⟨rfl, seen⟩

/-- An agent in an election: a known variable holds the bid `b`. -/
structure Bids (x : Name) (b : Bytes) (c : Cace) : Prop extends Electorate x c where
  bid : ∀ cv, c.getVariable x = some cv → Bidding x b cv
  unheard : c.getVariable x = none → openings x c.history = []
  placeholder : c.getVariable x = none → b = Believe.doubleMin

/-- An effect leaves the other variables other ones. -/
theorem Elsewhere.effect {may : Licence} (effect : Effect r may c c')
    (before : ∀ name cv, c.getVariable name = some cv → name ≠ x → Elsewhere x cv)
    (passes : ∀ cv, may.passes cv → cv.name ≠ x → Elsewhere x cv) (name : Name)
    (cv : ConsensusVariable) (found : c'.getVariable name = some cv) (other : name ≠ x) :
    Elsewhere x cv := by
  rcases effect_variable effect found with ⟨old, stored, rfl | rfl⟩ | ⟨u, here, -, -, rfl⟩
    | ⟨cmd, here, -, rfl⟩ | ⟨value, type, strategy, -, rfl⟩ | ⟨var, given, named, equal⟩
  · exact before name cv stored other
  · exact before name old stored other
  · exact Elsewhere.updated (here ▸ other) fun cv stored => before name cv stored other
  · cases stored : c.getVariable name with
    | none => exact ⟨fun same => other (here.symm.trans same), by simp [written]⟩
    | some old => exact before name old stored other
  · cases stored : c.getVariable name with
    | none => exact ⟨other, by simp [decided]⟩
    | some old => exact before name old stored other
  · have elsewhere := passes var given fun same => other (named.symm.trans same)
    rcases equal with rfl | ⟨old, stored, rfl⟩
    · exact elsewhere
    · exact ⟨elsewhere.1, (before name old stored other).2⟩

/-- What is announced under the name of the variable is passed in, or is what is stored. -/
theorem announced_stored
    (others : ∀ name cv, c.getVariable name = some cv → name ≠ x → cv.name ≠ x)
    {variablePtr : VariablePtr} (level : .noDistribution < (c.deref variablePtr).strategy)
    (about : (c.deref variablePtr).name = x) :
    (∃ cv, variablePtr = .detached cv) ∨ c.getVariable x = some (c.deref variablePtr) := by
  cases variablePtr with
  | stored name =>
    rw [deref_stored] at level about ⊢
    cases stored : c.getVariable name with
    | none =>
      rw [stored] at level
      exact absurd level (by decide)
    | some cv =>
      rw [stored] at about
      by_cases here : name = x
      · exact .inr (here ▸ stored)
      · exact absurd about (others name cv stored here)
  | detached cv => exact .inl ⟨cv, rfl⟩

namespace Bids

/-- What a job announces under the name of the variable has an election level. -/
theorem announced (before : Bids x b c) {variablePtr : VariablePtr}
    (pointed : Pointed (electing x) variablePtr)
    (level : .noDistribution < (c.deref variablePtr).strategy)
    (about : (c.deref variablePtr).name = x) : Elective (c.deref variablePtr).strategy := by
  have others : ∀ name cv, c.getVariable name = some cv → name ≠ x → cv.name ≠ x :=
    fun name cv stored other => (before.others name cv stored other).1
  rcases announced_stored others level about with ⟨cv, rfl⟩ | stored
  · exact absurd about pointed.1
  · exact (before.bid _ stored).elective

/-- What is announced is what is presented. -/
theorem presents (before : Bids x b c) : ∀ job ∈ c.jobs, Presents (electing x) job := by
  intro job member
  have announces := before.announces job member
  cases job <;> exact announces

theorem published_effect (effect : Effect r (electing x) c c') (before : Bids x b c) {m : Message}
    {t : Transmission} (published : .published m t ∈ c'.history) : Electoral x m := by
  intro report reports about strategy level
  rcases effect.tells before.presents published reports level with
    old | ⟨variablePtr, pointed, distributed, named, rfl, -⟩
  · exact before.published m t old report reports about strategy level
  · exact (before.announced pointed distributed (named.trans about)).sent

theorem announces_effect (effect : Effect r (electing x) c c') (before : Bids x b c) {job : Job}
    (member : job ∈ c'.jobs) : Announces x job := by
  have presents := effect.presents before.presents member
  cases job <;> exact presents

/-- A report about the variable, which is the first one if the variable is unknown. -/
theorem reported {u : ProposalUpdate} (before : Bids x b c) (here : u.variableName = x)
    (received : .received u.message ∈ c.history)
    (opened : c.getVariable x = none → Opened x (c.updateVariable u)) :
    Bidding x b (updated u (c.getVariable x)) := by
  cases stored : c.getVariable x with
  | some cv => exact (before.bid cv stored).updated u
  | none =>
    obtain ⟨seen, history, -⟩ := updateVariable_history c u
    have first : (openings x (c.updateVariable u).history).head? = some u.message := by
      have none := before.unheard stored
      unfold openings at none ⊢
      rw [history, List.filterMap_append, none]
      simp [u.message_report, here]
    obtain ⟨strategy, level⟩ :=
      Option.isSome_iff_exists.mp (opened stored u.message first)
    have elective : Elective strategy :=
      (before.received _ received).1 _ u.message_report here strategy level
    have created := created_bidding level elective
    rwa [here, ← before.placeholder stored] at created

/-- The bid survives an effect that does not open the variable with an acknowledge. -/
theorem effect (effect : Effect r (electing x) c c') (before : Bids x b c)
    (opened : c.getVariable x = none → Opened x c') : Bids x b c' := by
  have electorate : Electorate x c' := by
    refine ⟨effect.queued before.queued, fun m received => ?_, fun m t published =>
      before.published_effect effect published, Elsewhere.effect effect before.others
      fun _ given _ => given, fun job member => before.announces_effect effect member⟩
    rcases effect.received received with old | ⟨-, heard, -⟩
    · exact before.received m old
    · exact heard
  rcases effect_election effect before.toElectorate with ⟨u, here, received, rfl⟩ | ⟨same, seen⟩
  · have now : (c.updateVariable u).getVariable x = some (updated u (c.getVariable x)) := by
      rw [getVariable_updateVariable, here, if_pos rfl]
    refine ⟨electorate, fun cv found => ?_, fun absent => ?_, fun absent => ?_⟩
    · obtain rfl := Option.some.inj (now.symm.trans found)
      exact before.reported here received opened
    all_goals
      rw [now] at absent
      cases absent
  · refine ⟨electorate, fun cv found => before.bid cv (same ▸ found), fun absent => ?_,
      fun absent => before.placeholder (same ▸ absent)⟩
    rw [seen]
    exact before.unheard (same ▸ absent)

end Bids

/-- What is known stays known. -/
theorem known_effect (effect : Effect r (electing x) c c') (before : Electorate x c)
    (absent : c'.getVariable x = none) : c.getVariable x = none := by
  rcases effect_election effect before with ⟨u, here, -, rfl⟩ | ⟨same, -⟩
  · rw [getVariable_updateVariable, here, if_pos rfl] at absent
    cases absent
  · exact same ▸ absent

/-- The first report stays the first one. -/
theorem Opened.earlier (opened : Opened x c') (longer : c.history <+: c'.history) :
    Opened x c := by
  intro m first
  obtain ⟨rest, same⟩ := longer
  refine opened m ?_
  unfold openings at first ⊢
  rw [← same, List.filterMap_append, List.head?_append, first]
  rfl

theorem Bids.path (path : Path r (electing x) c c') (before : Bids x b c)
    (opened : c.getVariable x = none → Opened x c') : Bids x b c' := by
  suffices both : Bids x b c' ∧ (c'.getVariable x = none → c.getVariable x = none) from both.1
  induction path with
  | refl => exact ⟨before, id⟩
  | @tail d e path effect ih =>
    obtain ⟨bids, known⟩ := ih fun absent => (opened absent).earlier effect.history
    exact ⟨bids.effect effect fun absent => opened (known absent),
      fun absent => known (known_effect effect bids.toElectorate absent)⟩

/-- Levels and expiry as an election needs them: the agent distributes the variable with an
election level only, handles no write of it, and does not let it expire. -/
def Electing (x : Name) (c : Cace) (e : Readings × Cace.Event) : Prop :=
  match e.2 with
  | .distributeValue name _ _ strategy => name = x → Elective strategy
  | .distributeVariable variablePtr => Given (Elsewhere x) c variablePtr
  | .addVariable var _ => Elsewhere x var
  | .pNoBlock name _ _ | .v name => (c.deref (.stored name)).name ≠ x
  | .handle m => ∀ cmd, m = .write cmd → cmd.variableName ≠ x
  | .step => ∀ c', c.Next e c' → ∀ cv, c'.getVariable x = some cv →
      e.1.distributedTime ≤ cv.validityTime
  | .writeVariable _ _ | .requestVariable _ _ | .agentEngangement _ _ => True

/-- No call decides the empty value, which is no bid, and no event makes the variable known by
an acknowledge. -/
structure Introduced (x : Name) (c : Cace) (e : Readings × Cace.Event) : Prop where
  opened : c.getVariable x = none → ∀ c', c.Next e c' → Opened x c'
  filled : ∀ type strategy, e.2 ≠ .distributeValue x [] type strategy

/-- The bid after an event: a call sets it. -/
def nextBid (x : Name) (b : Bytes) : Cace.Event → Bytes
  | .distributeValue name value _ _ => if name = x then value else b
  | _ => b

theorem Electoral.heard {m : Message} (electoral : Electoral x m) :
    Electoral x (Guarantees.heard c m) := by
  intro report reports about strategy level
  obtain ⟨t, sent⟩ := heard_report reports
  rw [heard_strategy] at level
  exact electoral _ sent about strategy level

namespace Bids

/-- The agent's own call sets its bid. -/
theorem decideValue {value : Bytes} {type : Int} {strategy : AcceptStrategy}
    (before : Bids x b c) (elective : Elective strategy) (filled : value ≠ []) :
    Bids x value (CaceSpace.decideValue r c x value type strategy) := by
  have effect : Effect r {} c (CaceSpace.decideValue r c x value type strategy) :=
    .decide x value type strategy trivial
  have now : (CaceSpace.decideValue r c x value type strategy).getVariable x =
      some (decided r c x value type strategy (c.getVariable x)) := by
    rw [getVariable_decideValue, if_pos rfl]
  have history : (CaceSpace.decideValue r c x value type strategy).history = c.history := by
    rw [decideValue_frame]
  have hasValue : (!value.isEmpty) = true := by simpa using filled
  refine ⟨⟨effect.queued before.queued, ?_, ?_, fun name cv found other => ?_, ?_⟩,
    fun cv found => ?_, fun absent => ?_, fun absent => ?_⟩
  · rw [history]
    exact before.received
  · rw [history]
    exact before.published
  · rw [getVariable_decideValue, if_neg other] at found
    exact before.others name cv found other
  · intro job member
    refine before.announces job ?_
    rwa [decideValue_frame] at member
  · obtain rfl := Option.some.inj (now.symm.trans found)
    cases stored : c.getVariable x with
    | none => exact ⟨rfl, elective, rfl, hasValue⟩
    | some old => exact ⟨(before.bid old stored).name, elective, rfl, hasValue⟩
  all_goals
    rw [now] at absent
    cases absent

/-- Nothing happens to a variable that does not expire. -/
theorem invalidate {t : Nat} (before : Bids x b c)
    (valid : ∀ cv, (c.invalidate t).getVariable x = some cv → t ≤ cv.validityTime) :
    Bids x b (c.invalidate t) := by
  have same : (c.invalidate t).getVariable x = c.getVariable x := by
    rw [getVariable_invalidate] at valid ⊢
    cases stored : c.getVariable x with
    | none => rfl
    | some cv =>
      have late := valid _ (congrArg _ stored)
      dsimp only at late
      rw [Option.map_some]
      split at late
      next expired => exact absurd expired (Nat.not_lt.mpr late)
      next fresh => rw [if_neg fresh]
  have effect : Effect .zero { passes := fun _ => False } c (c.invalidate t) :=
    .invalidate t trivial
  exact ⟨⟨effect.queued before.queued, before.received, before.published,
    Elsewhere.effect effect before.others fun _ none => none.elim, before.announces⟩,
    fun cv found => before.bid cv (same ▸ found), fun absent => before.unheard (same ▸ absent),
    fun absent => before.placeholder (same ▸ absent)⟩

/-- One event. -/
theorem next {e : Readings × Cace.Event} (next : c.Next e c') (electing : Electing x c e)
    (introduced : Introduced x c e) (hears : ∀ m, e.2 = .handle m → Electoral x m)
    (before : Bids x b c) : Bids x (nextBid x b e.2) c' := by
  obtain ⟨r, e⟩ := e
  have opened : c.getVariable x = none → Opened x c' := fun absent =>
    introduced.opened absent c' next
  have admitted : Admits (Guarantees.electing x) c e → Bids x b c' := fun admitted =>
    before.path (exec_path before.queued admitted next) opened
  cases e with
  | distributeValue name value type strategy =>
    unfold nextBid
    dsimp only
    by_cases here : name = x
    · subst here
      rw [if_pos rfl]
      have filled : value ≠ [] := by
        rintro rfl
        exact introduced.filled type strategy rfl
      have decided : Bids name value (CaceSpace.decideValue r c name value type strategy) :=
        before.decideValue (electing rfl) filled
      obtain rfl := Except.ok.inj next
      refine decided.path (distributeValue_rest decided.queued) fun absent => ?_
      rw [getVariable_decideValue, if_pos rfl] at absent
      cases absent
    · rw [if_neg here]
      exact admitted here
  | step =>
    obtain ⟨d, path, rfl⟩ := @step_split r (Guarantees.electing x) c c' before.queued
      (fun _ _ => trivial) (fun _ _ _ _ _ => trivial) (fun _ _ _ _ _ _ _ => trivial) next
    exact (before.path path opened).invalidate (electing _ next)
  | handle m =>
    refine admitted ⟨⟨(hears m rfl).heard, fun cmd same => ?_⟩, fun _ => trivial,
      fun _ _ _ => trivial⟩
    cases m with
    | write => exact Message.write.inj same ▸ electing _ rfl
    | command | acknowledge | believeNotification | shortAck | writeAck | time | variableRequest
    | response => cases same
  | distributeVariable | addVariable | pNoBlock | v => exact admitted electing
  | writeVariable | requestVariable | agentEngangement => exact admitted trivial

end Bids

end Agent

section System

variable {x : Name} {start s : System} {trace : List (System × System.Event)}

/-- Every agent has a bid: its last call, or the placeholder. -/
structure Bidders (x : Name) (trace : List (System × System.Event)) (s : System) : Prop where
  traced : Traced s
  bids : ∀ id, Bids x
    (((lastDistributed x (localTrace id trace)).map Prod.fst).getD Believe.doubleMin) (s.agents id)

/-- What the bid of an agent is, one event of the agent later. -/
theorem lastDistributed_nextBid (x : Name) (trace : List (Cace × Readings × Cace.Event)) (c : Cace)
    (e : Readings × Cace.Event) :
    ((lastDistributed x (trace ++ [(c, e)])).map Prod.fst).getD Believe.doubleMin =
      nextBid x (((lastDistributed x trace).map Prod.fst).getD Believe.doubleMin) e.2 := by
  rw [lastDistributed_append]
  obtain ⟨r, e⟩ := e
  cases e with
  | distributeValue name =>
    unfold nextBid
    dsimp only
    split <;> rfl
  | distributeVariable | addVariable | writeVariable | requestVariable | pNoBlock | v
  | agentEngangement | step | handle => rfl

theorem Bidders.step {s' : System} {e : System.Event} (before : Bidders x trace s)
    (next : s.Next e s') (electing : ∀ id, ∀ l ∈ localEvent id e, Electing x (s.agents id) l)
    (introduced : ∀ id, ∀ l ∈ localEvent id e, Introduced x (s.agents id) l) :
    Bidders x (trace ++ [(s, e)]) s' := by
  refine ⟨before.traced.step next, fun id => ?_⟩
  have agent := system_next next id
  rw [localTrace_append]
  cases event : localEvent id e with
  | none =>
    rw [event] at agent
    rw [agent]
    simpa using before.bids id
  | some l =>
    rw [event] at agent
    rw [Option.map_some, Option.toList_some, lastDistributed_nextBid]
    refine (before.bids id).next agent (electing id l event) (introduced id l event) ?_
    -- what it handles, another agent has published
    intro m handled
    obtain ⟨r, e'⟩ := l
    obtain rfl := handled
    have inFlight : (id, m) ∈ s.flight := local_flight next event
    obtain ⟨i, -, -, t, published⟩ := before.traced.inFlight id m inFlight
    exact (before.bids i).published m t published

theorem bidders_run (quiescent : Quiescent start) (unknown : ∀ id, (start.agents id).store = [])
    (run : start.Runs trace s)
    (electing : ∀ p ∈ trace, ∀ id, ∀ l ∈ localEvent id p.2, Electing x (p.1.agents id) l)
    (introduced : ∀ p ∈ trace, ∀ id, ∀ l ∈ localEvent id p.2, Introduced x (p.1.agents id) l) :
    Bidders x trace s := by
  refine run.carries (Bidders x) (fun _ s e s' _
    (may : (∀ id, ∀ l ∈ localEvent id e, Electing x (s.agents id) l) ∧
      ∀ id, ∀ l ∈ localEvent id e, Introduced x (s.agents id) l) next before => ?_)
    (fun p member => ⟨electing p member, introduced p member⟩) ?_
  · exact before.step next may.1 may.2
  · refine ⟨quiescent.traced, fun id => ?_⟩
    have idle := quiescent.idle id
    have none := getVariable_of_empty (unknown id)
    refine ⟨⟨idle_queued idle, ?_, ?_, ?_, ?_⟩, ?_, ?_, fun _ => rfl⟩
    · simp [idle.history]
    · simp [idle.history]
    · simp [none]
    · simp [idle.jobs]
    · simp [none]
    · simp [idle.history, openings]

/-- In a run in which no acknowledge makes the variable known to an agent, the own value of
every agent is its own bid. -/
theorem bids_own (quiescent : Quiescent start) (unknown : ∀ id, (start.agents id).store = [])
    (run : start.Runs trace s)
    (electing : ∀ p ∈ trace, ∀ id, ∀ l ∈ localEvent id p.2, Electing x (p.1.agents id) l)
    (introduced : ∀ p ∈ trace, ∀ id, ∀ l ∈ localEvent id p.2, Introduced x (p.1.agents id) l)
    (id : Int) (cv : ConsensusVariable) (known : (s.agents id).getVariable x = some cv) :
    cv.val = ((lastDistributed x (localTrace id trace)).map Prod.fst).getD Believe.doubleMin := by
  have bidders := bidders_run quiescent unknown run electing introduced
  exact ((bidders.bids id).bid cv known).val

end System

/-- A command introduces agent 2, which has made no call. -/
theorem bids_own_placeholder : ∃ trace s,
    (newSystem [1, 2]).play
      [.call 1 .zero (.distributeValue ['x'] [7] 0 .twoWayHandShakeElection),
        .deliver 2 .zero (.command ⟨1, [0], ['x'], [7], 0, longMax, 37, 101, 2, 0⟩)] =
        some (trace, s) ∧ ((s.agents 2).getVariable ['x']).isSome = true ∧
      ∀ cv, (s.agents 2).getVariable ['x'] = some cv →
        cv.val = ((lastDistributed ['x'] (localTrace 2 trace)).map Prod.fst).getD
          Believe.doubleMin := by
  have played : (newSystem [1, 2]).play
      [.call 1 .zero (.distributeValue ['x'] [7] 0 .twoWayHandShakeElection),
        .deliver 2 .zero (.command ⟨1, [0], ['x'], [7], 0, longMax, 37, 101, 2, 0⟩)] =
        some _ := rfl
  obtain ⟨run, -⟩ := System.play_runs played
  refine ⟨_, _, played, by decide,
    bids_own (newSystem_quiescent [1, 2]) (fun _ => rfl) run ?_ ?_ 2⟩
  · refine List.forall_mem_cons.mpr ⟨fun id => local_call ?_,
      List.forall_mem_cons.mpr ⟨fun id => local_deliver ?_, by simp⟩⟩
    · exact fun _ _ => by decide
    · intro _ cmd same
      cases same
  · refine List.forall_mem_cons.mpr ⟨fun id => local_call ?_,
      List.forall_mem_cons.mpr ⟨fun id => local_deliver ?_, by simp⟩⟩
    · rintro rfl
      refine ⟨fun _ c' next => ?_, fun type strategy same => by cases same⟩
      obtain rfl := Except.ok.inj next
      decide
    · rintro rfl
      refine ⟨fun _ c' next => ?_, fun type strategy same => by cases same⟩
      obtain rfl := Except.ok.inj next
      decide

/-- The commands do not reach agent 3. The acknowledge of agent 2 makes the variable known to it,
with the default level and with the bid of agent 2. -/
theorem bids_own_borrowed : ∃ trace s,
    (newSystem [1, 2, 3]).play
      [.call 2 .zero (.distributeValue ['x'] [9] 0 .twoWayHandShakeElection),
        .call 1 .zero (.distributeValue ['x'] [7] 0 .twoWayHandShakeElection),
        .deliver 2 .zero (.command ⟨1, [0], ['x'], [7], 0, longMax, 37, 101, 2, 0⟩),
        .deliver 3 .zero (.acknowledge ⟨2, [0], ['x'], [9], 101, 2, 0⟩)] = some (trace, s) ∧
      Quiescent (newSystem [1, 2, 3]) ∧ (∀ id, ((newSystem [1, 2, 3]).agents id).store = []) ∧
      (∀ p ∈ trace, ∀ id, ∀ l ∈ localEvent id p.2, Electing ['x'] (p.1.agents id) l) ∧
      lastDistributed ['x'] (localTrace 3 trace) = none ∧
      ((s.agents 3).getVariable ['x']).map (fun cv => cv.val) = some [9] := by
  have played : (newSystem [1, 2, 3]).play
      [.call 2 .zero (.distributeValue ['x'] [9] 0 .twoWayHandShakeElection),
        .call 1 .zero (.distributeValue ['x'] [7] 0 .twoWayHandShakeElection),
        .deliver 2 .zero (.command ⟨1, [0], ['x'], [7], 0, longMax, 37, 101, 2, 0⟩),
        .deliver 3 .zero (.acknowledge ⟨2, [0], ['x'], [9], 101, 2, 0⟩)] = some _ := rfl
  refine ⟨_, _, played, newSystem_quiescent [1, 2, 3], fun _ => rfl, ?_, by decide, by decide⟩
  refine List.forall_mem_cons.mpr ⟨fun id => local_call ?_,
    List.forall_mem_cons.mpr ⟨fun id => local_call ?_,
      List.forall_mem_cons.mpr ⟨fun id => local_deliver ?_,
        List.forall_mem_cons.mpr ⟨fun id => local_deliver ?_, by simp⟩⟩⟩⟩
  · exact fun _ _ => by decide
  · exact fun _ _ => by decide
  all_goals
    intro _ cmd same
    cases same

end CaceProofs.Guarantees
