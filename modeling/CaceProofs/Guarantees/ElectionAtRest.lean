import CaceProofs.Guarantees.Electors

/-!
# An election at rest

Every agent makes bids, and every message arrives, in any order. When nothing is in flight any
more, each agent knows the last bid of each other one, and all see the same winner.
-/
namespace CaceProofs.Guarantees
open Source Library

section Systems

variable {x : Name} {trace : List (System × System.Event)} {s s' : System} {e : System.Event}

/-- Bids are made, and messages arrive, again or not. -/
def Votes (x : Name) : System.Event → Prop
  | .call _ _ (.distributeValue name value type strategy) =>
    name = x ∧ Elective strategy ∧ type = typeCDouble ∧ value ≠ []
  | .deliver _ _ _ | .duplicate _ _ _ => True
  | .call _ _ _ | .lose _ _ => False

/-- No acknowledge reaches an agent that does not know the variable. -/
def Heralded (x : Name) (s : System) : System.Event → Prop
  | .deliver id _ (.acknowledge _) | .duplicate id _ (.acknowledge _) =>
    ((s.agents id).getVariable x).isSome = true
  | _ => True

instance (x : Name) (s : System) (e : System.Event) : Decidable (Heralded x s e) := by
  unfold Heralded
  split <;> infer_instance

/-- The last bid that an agent has made, or the placeholder. -/
def lastBid (x : Name) (trace : List (System × System.Event)) (id : Int) : Bytes :=
  ((lastDistributed x (localTrace id trace)).map Prod.fst).getD Believe.doubleMin

/-- Whether the agent has made a bid. -/
def HasBid (x : Name) (trace : List (System × System.Event)) (id : Int) : Prop :=
  (lastDistributed x (localTrace id trace)).isSome = true

instance (x : Name) (trace : List (System × System.Event)) (id : Int) :
    Decidable (HasBid x trace id) :=
  inferInstanceAs (Decidable (_ = _))

theorem lastBid_here {id : Int} {l : Readings × Cace.Event} (event : localEvent id e = some l) :
    lastBid x (trace ++ [(s, e)]) id = nextBid x (lastBid x trace id) l.2 := by
  unfold lastBid
  rw [localTrace_append, event]
  exact lastDistributed_nextBid x (localTrace id trace) (s.agents id) l

theorem localTrace_away {id : Int} (event : localEvent id e = none) :
    localTrace id (trace ++ [(s, e)]) = localTrace id trace := by
  rw [localTrace_append, event]
  exact List.append_nil _

/-- The agents of an election: what one of them has published, the others have applied, or it is
still in flight to them. -/
structure Electors (x : Name) (trace : List (System × System.Event)) (s : System) : Prop
    extends Bidders x trace s where
  electors : ∀ id ∈ s.ids, Elector x s.ids id (lastBid x trace id) (s.agents id)
  spread : ∀ i ∈ s.ids, ∀ k ∈ s.ids, i ≠ k → ∀ m t report,
    .published m t ∈ (s.agents k).history → m.report? = some report →
      (i, m) ∈ s.flight ∨ .applied m ∈ (s.agents i).history
  heard : ∀ id ∈ s.ids, ∀ m, .applied m ∈ (s.agents id).history → FromOther s id m
  announced : ∀ id ∈ s.ids, HasBid x trace id → (∃ report, Reported (s.agents id).history report) ∧
    ((s.agents id).getVariable x).isSome = true

/-- What is in flight, an elector has published. -/
theorem Electors.inFlight (before : Electors x trace s) {id : Int} {m : Message}
    (inFlight : (id, m) ∈ s.flight) : id ∈ s.ids ∧ ∃ k ∈ s.ids, k ≠ id ∧ Ballot x k m := by
  obtain ⟨k, member, other, t, published⟩ := before.traced.inFlight id m inFlight
  exact ⟨before.traced.routed _ inFlight, k, member, other,
    (before.electors k member).ballots m t published⟩

/-- A message that is handled again stays in flight. -/
theorem duplicate_spec {id : Int} {r : Readings} {m : Message}
    (next : s.Next (.duplicate id r m) s') : Delivered s s' id m ((s.agents id).handle r m) := by
  unfold System.Next System.exec at next
  dsimp only at next
  split at next
  next inFlight =>
    obtain rfl := Option.some.inj next
    exact ⟨inFlight, Function.update_self .., fun j other => Function.update_of_ne other _ _,
      fun p waits _ => List.mem_append_left _ waits,
      fun later m' t history new j member other => commit_sends history new member other⟩
  next => cases next

/-- One elector moves, and what it publishes comes into flight. -/
theorem Electors.moves {id : Int} {c : Cace} {l : Readings × Cace.Event}
    {later : List Observation} (before : Electors x trace s)
    (bidders : Bidders x (trace ++ [(s, e)]) s') (ids : s'.ids = s.ids)
    (event : localEvent id e = some l) (away : ∀ k, k ≠ id → localEvent k e = none)
    (called : Called s s' id c)
    (elector : Elector x s.ids id (lastBid x (trace ++ [(s, e)]) id) c)
    (history : c.history = (s.agents id).history ++ later)
    (kept : ∀ j m, (j, m) ∈ s.flight → (j, m) ∈ s'.flight ∨
      j = id ∧ ∀ report, m.report? = some report → .applied m ∈ c.history)
    (heard : ∀ m, .applied m ∈ later → FromOther s id m)
    (announced : HasBid x (trace ++ [(s, e)]) id → (∃ report, Reported c.history report) ∧
      (c.getVariable x).isSome = true) :
    Electors x (trace ++ [(s, e)]) s' := by
  have grows : ∀ k, (s.agents k).history <+: (s'.agents k).history := by
    intro k
    by_cases here : k = id
    · subst here
      exact ⟨later, by rw [called.here, history]⟩
    · exact (called.away k here).symm ▸ List.prefix_rfl
  have stays : ∀ k m, FromOther s k m → FromOther s' k m := by
    rintro k m ⟨i, member, other, t, published⟩
    exact ⟨i, ids ▸ member, other, t, (grows i).subset published⟩
  refine ⟨bidders, fun k member => ?_, fun i memberI k memberK other m t report published reports
    => ?_, fun k member m applied => ?_, fun k member made => ?_⟩
  · rw [ids] at member ⊢
    by_cases here : k = id
    · subst here
      exact called.here ▸ elector
    · rw [called.away k here, lastBid, localTrace_away (away k here)]
      exact before.electors k member
  · rw [ids] at memberI memberK
    have old : .published m t ∈ (s.agents k).history →
        (i, m) ∈ s'.flight ∨ .applied m ∈ (s'.agents i).history := by
      intro published
      rcases before.spread i memberI k memberK other m t report published reports with
        inFlight | applied
      · rcases kept i m inFlight with still | ⟨here, applies⟩
        · exact .inl still
        · subst here
          exact .inr (called.here ▸ applies report reports)
      · exact .inr ((grows i).subset applied)
    by_cases here : k = id
    · subst here
      rw [called.here, history] at published
      rcases List.mem_append.mp published with before | new
      · exact old before
      · exact .inl (called.sends later m t history new i memberI other)
    · exact old (called.away k here ▸ published)
  · rw [ids] at member
    by_cases here : k = id
    · subst here
      rw [called.here, history] at applied
      rcases List.mem_append.mp applied with old | new
      · exact stays k m (before.heard k member m old)
      · exact stays k m (heard m new)
    · rw [called.away k here] at applied
      exact stays k m (before.heard k member m applied)
  · rw [ids] at member
    by_cases here : k = id
    · subst here
      exact called.here ▸ announced made
    · unfold HasBid at made
      rw [localTrace_away (away k here)] at made
      rw [called.away k here]
      exact before.announced k member made

/-- An elector makes a bid. -/
theorem Electors.call {id : Int} {r : Readings} {value : Bytes} {strategy : AcceptStrategy}
    (before : Electors x trace s) (elective : Elective strategy) (filled : value ≠ [])
    (next : s.Next (.call id r (.distributeValue x value typeCDouble strategy)) s')
    (bidders : Bidders x
      (trace ++ [(s, .call id r (.distributeValue x value typeCDouble strategy))]) s')
    (unwrapped : ∀ id ∈ s.ids, (s'.agents id).lamportTime.wraps = 0) :
    Electors x (trace ++ [(s, .call id r (.distributeValue x value typeCDouble strategy))]) s' := by
  obtain ⟨member, stays⟩ := call_kept next
  have called := call_spec next
  have ends := unwrapped id member
  rw [called.here] at ends
  have event : localEvent id (.call id r (.distributeValue x value typeCDouble strategy)) =
      some (r, .distributeValue x value typeCDouble strategy) := if_pos rfl
  obtain ⟨elector, known, later, history, reported, none⟩ :=
    (before.electors id member).distributes elective filled ends
  refine before.moves bidders (system_ids next) event (fun k other => if_neg (Ne.symm other)) called
    ?_ history (fun j m inFlight => .inl (stays inFlight)) (fun m applied => absurd applied (none m))
    fun _ => ⟨?_, known⟩
  · rw [lastBid_here event, nextBid, if_pos rfl]
    exact elector
  · obtain ⟨report, m, t, published, reports⟩ := reported
    exact ⟨report, m, t, history ▸ List.mem_append_right _ published, reports⟩

/-- An elector handles a message. -/
theorem Electors.handles {id : Int} {r : Readings} {m : Message} (before : Electors x trace s)
    (bidders : Bidders x (trace ++ [(s, e)]) s') (ids : s'.ids = s.ids)
    (event : localEvent id e = some (r, .handle m)) (away : ∀ k, k ≠ id → localEvent k e = none)
    (delivered : Delivered s s' id m ((s.agents id).handle r m))
    (unwrapped : ∀ id ∈ s.ids, (s'.agents id).lamportTime.wraps = 0) :
    Electors x (trace ++ [(s, e)]) s' := by
  obtain ⟨member, k, source, other, ballot⟩ := before.inFlight delivered.inFlight
  have ends := unwrapped id member
  rw [delivered.here] at ends
  have bid : lastBid x (trace ++ [(s, e)]) id = lastBid x trace id := lastBid_here event
  have own : ∀ cv, ((s.agents id).handle r m).getVariable x = some cv →
      cv.val = lastBid x trace id := by
    intro cv known
    rw [← delivered.here] at known
    exact ((bidders.bids id).bid cv known).val.trans bid
  have elector := (before.electors id member).handles source other ballot own ends
  have takes := (before.electors id member).takesIn (r := r) source other ballot
  obtain ⟨later, history⟩ := takes.longer
  refine before.moves bidders ids event away delivered.called (bid ▸ elector) history.symm
    (fun j m' inFlight => ?_) (fun m' applied => ?_) fun made => ?_
  · by_cases same : (j, m') = (id, m)
    · obtain ⟨rfl, rfl⟩ := Prod.mk.inj same
      exact .inr ⟨rfl, takes.applies⟩
    · exact .inl (delivered.kept _ inFlight same)
  · have now : .applied m' ∈ ((s.agents id).handle r m).history :=
      history ▸ List.mem_append_right _ applied
    rcases takes.only m' now with old | rfl
    · exact before.heard id member m' old
    · exact before.traced.inFlight id m' delivered.inFlight
  · have made : HasBid x trace id := by
      unfold HasBid at made ⊢
      rw [localTrace_append, event, Option.map_some, Option.toList_some, lastDistributed_append]
        at made
      exact made
    obtain ⟨⟨report, m', t, published, reports⟩, known⟩ := before.announced id member made
    exact ⟨⟨report, m', t, takes.longer.subset published, reports⟩, takes.known known⟩

/-- A message that is handled makes the variable known by a report with a level, if at all. -/
theorem Electors.introduced {id : Int} {r : Readings} {m : Message} (before : Electors x trace s)
    (inFlight : (id, m) ∈ s.flight)
    (heralded : (∃ a, m = .acknowledge a) → ((s.agents id).getVariable x).isSome = true) :
    Introduced x (s.agents id) (r, .handle m) := by
  obtain ⟨member, k, source, other, ballot⟩ := before.inFlight inFlight
  refine ⟨fun absent c' next => ?_, nofun⟩
  obtain rfl := Except.ok.inj next
  refine ((before.electors id member).takesIn source other ballot).opened
    ((before.bids id).unheard absent) fun report reports => ?_
  cases ballot with
  | command => rfl
  | acknowledge =>
    rw [absent] at heralded
    cases heralded ⟨_, rfl⟩
  | shortAck => cases reports

/-- Every event of the election keeps its agents electors. -/
theorem Electors.step (before : Electors x trace s) (votes : Votes x e) (heralded : Heralded x s e)
    (next : s.Next e s') (unwrapped : ∀ id ∈ s.ids, (s'.agents id).lamportTime.wraps = 0) :
    Electors x (trace ++ [(s, e)]) s' := by
  have ids := system_ids next
  -- no write is in flight
  have handles : ∀ {id m}, (id, m) ∈ s.flight → ∀ cmd, m = .write cmd → cmd.variableName ≠ x := by
    rintro id m inFlight cmd rfl
    obtain ⟨-, k, -, -, ballot⟩ := before.inFlight inFlight
    cases ballot
  cases e with
  | call id r e =>
    cases e with
    | distributeValue name value type strategy =>
      obtain ⟨rfl, elective, rfl, filled⟩ := votes
      have called := call_spec next
      obtain ⟨member, -⟩ := call_kept next
      have ends := unwrapped id member
      rw [called.here] at ends
      obtain ⟨-, -, later, history, -, none⟩ :=
        (before.electors id member).distributes elective filled ends
      refine before.call elective filled next (before.toBidders.step next
        (fun id => local_call fun _ _ => elective) fun id => local_call ?_) unwrapped
      rintro rfl
      refine ⟨fun absent c' happened => ?_, fun type strategy same => ?_⟩
      · obtain rfl := Except.ok.inj happened
        -- a call applies nothing
        have quiet : openings name later = [] := List.filterMap_eq_nil_iff.mpr fun o inLater => by
          cases o with
          | applied m => exact absurd inLater (none m)
          | received | published | notified => rfl
        unfold Opened
        rw [history]
        have unheard := (before.bids id).unheard absent
        unfold openings at unheard quiet ⊢
        rw [List.filterMap_append, unheard, quiet]
        exact nofun
      · cases same
        exact filled rfl
    | distributeVariable | addVariable | writeVariable | requestVariable | pNoBlock | v
    | agentEngangement | step | handle => exact votes.elim
  | deliver id r m =>
    have delivered := deliver_spec next
    refine before.handles (before.toBidders.step next
      (fun i => local_deliver fun _ => handles delivered.inFlight) fun i => local_deliver ?_) ids
      (if_pos rfl) (fun k other => if_neg (Ne.symm other)) delivered unwrapped
    rintro rfl
    refine before.introduced delivered.inFlight ?_
    rintro ⟨a, rfl⟩
    exact heralded
  | duplicate id r m =>
    have delivered := duplicate_spec next
    refine before.handles (before.toBidders.step next
      (fun i => @local_deliver (Electing x (s.agents i)) id i r m fun _ =>
        handles delivered.inFlight)
      fun i => @local_deliver (Introduced x (s.agents i)) id i r m ?_) ids
      (if_pos rfl) (fun k other => if_neg (Ne.symm other)) delivered unwrapped
    rintro rfl
    refine before.introduced delivered.inFlight ?_
    rintro ⟨a, rfl⟩
    exact heralded
  | lose => exact votes.elim

/-- At first nobody knows the variable, and nothing has been published. -/
theorem Circle.electors (circle : Circle x s) (empty : ∀ id, (s.agents id).store = []) :
    Electors x [] s := by
  have history : ∀ id, (s.agents id).history = [] := fun id => (circle.quiescent.idle id).history
  have bidders : Bidders x [] s := bidders_run circle.quiescent empty .nil nofun nofun
  refine ⟨bidders, fun id member => ?_, ?_, ?_, fun id member made => nomatch made⟩
  · exact
      { bids := by simp [circle.unknown id member]
        plain := circle.plain id member
        ownID := (circle.ownID id member).1
        spaceOwnID := (circle.ownID id member).2
        short := (circle.short id member).1
        unlisted := circle.unlisted id member
        ballots := by simp [history id]
        dated := by simp [Reported, history id]
        latest := by simp [Reported, history id] }
  · simp [history]
  · simp [history]

/-- The agents stay electors. -/
theorem Circle.votes {start : System} (circle : Circle x start)
    (empty : ∀ id, (start.agents id).store = []) (run : start.Runs trace s)
    (votes : ∀ p ∈ trace, Votes x p.2)
    (heralded : ∀ p ∈ trace, Heralded x p.1 p.2)
    (unwrapped : ∀ id ∈ start.ids, (s.agents id).lamportTime.wraps = 0) :
    s.ids = start.ids ∧ Electors x trace s := by
  induction run with
  | nil => exact ⟨rfl, circle.electors empty⟩
  | @step trace d d' e run next ih =>
    have earlier : ∀ id ∈ start.ids, (d.agents id).lamportTime.wraps = 0 := fun id member =>
      ((circle.quiescent.traced.runs run).clock (Run.nil.step next) id (unwrapped id member)).1
    obtain ⟨same, electors⟩ := ih (fun p member => votes p (List.mem_append_left _ member))
      (fun p member => heralded p (List.mem_append_left _ member)) earlier
    exact ⟨(system_ids next).trans same, electors.step (votes (d, e) (by simp))
      (heralded (d, e) (by simp)) next (same ▸ unwrapped)⟩

/-- Every register holds the freshest report of its sender. -/
theorem registers_votes {start : System} (quiescent : Quiescent start)
    (unknown : ∀ id, (start.agents id).store = []) (run : start.Runs trace s)
    (votes : ∀ p ∈ trace, Votes x p.2) (id k : Int) : Registers x k (s.agents id) := by
  refine (local_runs run id).preserves registers_step (fun q member => ?_)
    ⟨idle_queued (quiescent.idle id),
      .inl ⟨by simp [reportsOf, appliedReports, (quiescent.idle id).history], ?_⟩⟩
  · obtain ⟨p, inTrace, happens⟩ := List.mem_filterMap.mp member
    obtain ⟨l, event, rfl⟩ := Option.map_eq_some_iff.mp happens
    have vote := votes p inTrace
    obtain ⟨s, e⟩ := p
    -- the calls are distributions, and the other events are deliveries
    cases e with
    | call i r e =>
      obtain ⟨-, rfl⟩ : i = id ∧ (r, e) = l := by simpa [localEvent] using event
      cases e with
      | distributeValue => trivial
      | distributeVariable | addVariable | writeVariable | requestVariable | pNoBlock | v
      | agentEngangement | step | handle => exact vote.elim
    | deliver i r m | duplicate i r m =>
      obtain ⟨-, rfl⟩ : i = id ∧ (r, Cace.Event.handle m) = l := by simpa [localEvent] using event
      trivial
    | lose => cases event
  · have none : proposalsOf (start.agents id) x = [] := by
      unfold proposalsOf
      rw [getVariable_of_empty (unknown id)]
    rw [none]
    rfl

/-- A report of another agent that an elector has applied. -/
theorem mem_reportsOf {c : Cace} {k : Int} {report : Report} :
    report ∈ reportsOf c x k ↔ (∃ m, .applied m ∈ c.history ∧ m.report? = some report) ∧
      report.variableName = x ∧ report.senderID = k := by
  unfold reportsOf appliedReports
  rw [List.mem_filter, List.mem_filterMap]
  simp only [Bool.and_eq_true, beq_iff_eq]
  refine and_congr_left fun _ => ⟨?_, fun ⟨m, applied, reports⟩ => ⟨_, applied, reports⟩⟩
  rintro ⟨o, member, reports⟩
  cases o with
  | applied m => exact ⟨m, member, reports⟩
  | received | published | notified => cases reports

section Rest

variable {i k : Int} {cv : ConsensusVariable}

/-- What another agent has reported, and no more, is what an elector at rest has applied. -/
theorem Electors.applied (electors : Electors x trace s) (rest : s.flight = []) (member : i ∈ s.ids)
    (source : k ∈ s.ids) (other : i ≠ k) (report : Report) :
    report ∈ reportsOf (s.agents i) x k ↔ Reported (s.agents k).history report := by
  rw [mem_reportsOf]
  constructor
  · rintro ⟨⟨m, applied, reports⟩, -, sender⟩
    obtain ⟨k', source', -, t, published⟩ := electors.heard i member m applied
    have ballot := (electors.electors k' source').ballots m t published
    obtain rfl := (ballot.report reports).2.1.symm.trans sender
    exact ⟨m, t, published, reports⟩
  · rintro ⟨m, t, published, reports⟩
    have ballot := (electors.electors k source).ballots m t published
    obtain ⟨name, sender, -, -⟩ := ballot.report reports
    rcases electors.spread i member k source other m t report published reports with
      inFlight | applied
    · rw [rest] at inFlight
      cases inFlight
    · exact ⟨⟨m, applied, reports⟩, name, sender⟩

/-- A record at rest is the last bid of its agent. -/
theorem Electors.record (electors : Electors x trace s) (rest : s.flight = []) (member : i ∈ s.ids)
    (source : k ∈ s.ids) (other : i ≠ k) (registers : Registers x k (s.agents i))
    (known : (s.agents i).getVariable x = some cv) :
    ∀ p ∈ sentBy k cv.proposals, p.val = lastBid x trace k := by
  have proposals : proposalsOf (s.agents i) x = cv.proposals := by rw [proposalsOf, known]
  have applied := fun report => electors.applied rest member source other report
  intro p inRecords
  rcases registers.tracks with ⟨-, none⟩ | ⟨q, report, records, fresh, value, -, -⟩
  · rw [← proposals, none] at inRecords
    cases inRecords
  · rw [← proposals, records] at inRecords
    obtain rfl := List.mem_singleton.mp inRecords
    rw [value]
    refine (electors.electors k source).latest report ((applied report).mp fresh.mem)
      fun newer reported => fresh.le newer ((applied newer).mpr reported)

/-- Whose records an elector at rest has. -/
theorem Electors.recorded (electors : Electors x trace s) (rest : s.flight = [])
    (made : ∀ id ∈ s.ids, HasBid x trace id) (member : i ∈ s.ids)
    (registers : ∀ k, Registers x k (s.agents i))
    (known : (s.agents i).getVariable x = some cv) (k : Int) :
    sentBy k cv.proposals ≠ [] ↔ k ≠ i ∧ k ∈ s.ids := by
  have proposals : proposalsOf (s.agents i) x = cv.proposals := by rw [proposalsOf, known]
  constructor
  · intro some
    rcases (registers k).tracks with ⟨-, none⟩ | ⟨q, report, -, fresh, -⟩
    · exact absurd (proposals ▸ none) some
    · obtain ⟨⟨m, applied, reports⟩, -, sender⟩ := mem_reportsOf.mp fresh.mem
      obtain ⟨k', source, other, t, published⟩ := electors.heard i member m applied
      have ballot := (electors.electors k' source).ballots m t published
      obtain rfl := (ballot.report reports).2.1.symm.trans sender
      exact ⟨other, source⟩
  · rintro ⟨other, source⟩ none
    obtain ⟨⟨report, reported⟩, -⟩ := electors.announced k source (made k source)
    have applied := (electors.applied rest member source (Ne.symm other) report).mpr reported
    rcases (registers k).tracks with ⟨nothing, -⟩ | ⟨q, -, records, -⟩
    · rw [nothing] at applied
      cases applied
    · rw [proposals, none] at records
      cases records

/-- At rest an elector knows the last bid of everyone. -/
theorem Electors.full (electors : Electors x trace s) (distinct : s.ids.Nodup)
    (rest : s.flight = []) (made : ∀ id ∈ s.ids, HasBid x trace id) (member : i ∈ s.ids)
    (registers : ∀ k, Registers x k (s.agents i))
    (known : (s.agents i).getVariable x = some cv) :
    FullInformation s.ids (lastBid x trace) i cv := by
  obtain ⟨own, graded⟩ := (electors.electors i member).bids cv known
  have proposals : proposalsOf (s.agents i) x = cv.proposals := by rw [proposalsOf, known]
  have recorded := electors.recorded rest made member registers known
  have holder : ∀ k, k ∈ cv.proposals.map Believe.robotID ↔ sentBy k cv.proposals ≠ [] := by
    intro k
    unfold sentBy
    simp [List.filter_eq_nil_iff]
  refine ⟨own, (List.perm_ext_iff_of_nodup ?_ (distinct.erase i)).mpr fun k => ?_,
    fun b inList => (graded b inList).2.toIsBid, fun b inList => ?_⟩
  · -- no sender has two records
    rw [List.nodup_iff_count_le_one]
    intro k
    have single : (sentBy k cv.proposals).length ≤ 1 := by
      rcases (registers k).tracks with ⟨-, none⟩ | ⟨q, -, records, -⟩
      · rw [← proposals, none]
        exact Nat.zero_le 1
      · rw [← proposals, records]
        exact Nat.le_refl 1
    rw [List.count_eq_countP, List.countP_map, List.countP_eq_length_filter]
    exact single
  · rw [holder, recorded, distinct.mem_erase_iff]
  · rcases List.mem_cons.mp inList with rfl | proposal
    · rw [own]
      exact ((electors.bids i).bid cv known).val
    · have here : b ∈ sentBy b.robotID cv.proposals :=
        List.mem_filter.mpr ⟨proposal, beq_self_eq_true _⟩
      obtain ⟨other, source⟩ := (recorded b.robotID).mp (List.ne_nil_of_mem here)
      exact electors.record rest member source (Ne.symm other) (registers _) known b here

end Rest

/-- When every agent has made a bid and every message has arrived, each agent knows the last bid
of every other one. If one of these is the highest, and above the least bid, all agents see its
agent as the winner. -/
theorem election_at_rest {start : System} (circle : Circle x start)
    (empty : ∀ id, (start.agents id).store = []) (run : start.Runs trace s)
    (votes : ∀ p ∈ trace, Votes x p.2)
    (heralded : ∀ p ∈ trace, Heralded x p.1 p.2)
    (unwrapped : ∀ id ∈ start.ids, (s.agents id).lamportTime.wraps = 0)
    (made : ∀ id ∈ start.ids, HasBid x trace id) (rest : s.flight = []) :
    ∀ i ∈ start.ids, ∃ cv, (s.agents i).getVariable x = some cv ∧
      FullInformation start.ids (lastBid x trace) i cv ∧
      ∀ k ∈ start.ids, leastBid < deserializeDouble (lastBid x trace k) →
        (∀ j ∈ start.ids, j ≠ k → deserializeDouble (lastBid x trace j) <
          deserializeDouble (lastBid x trace k)) → Election.getWinner cv = k := by
  obtain ⟨ids, electors⟩ := circle.votes empty run votes heralded unwrapped
  intro i member
  rw [← ids] at made member
  obtain ⟨cv, known⟩ := Option.isSome_iff_exists.mp (electors.announced i member (made i member)).2
  have full := electors.full (ids ▸ circle.distinct) rest made member
    (registers_votes circle.quiescent empty run votes i) known
  rw [ids] at full member
  refine ⟨cv, known, full, fun k source above highest => ?_⟩
  rcases full.winner member with ⟨-, low⟩ | ⟨elected, -, top⟩
  · -- nobody is elected only where no bid is above the least one
    have below := low k source
    omega
  · by_contra other
    have lower := highest _ elected other
    have upper := top k source
    omega

end Systems

section Examples

/-- A command of an election. -/
def bidCommand (id : Int) (bid : Bytes) (msgID : Int) (time : Nat) : Message :=
  .command ⟨id, [0], ['x'], bid, 0, longMax, 37, msgID, time, 1⟩

def bidAcknowledge (id : Int) (bid : Bytes) (msgID : Int) (time : Nat) : Message :=
  .acknowledge ⟨id, [0], ['x'], bid, msgID, time, 1⟩

/-- Agent 1 bids 2 and then 5, agent 2 bids 2. What agent 2 has answered first arrives last. -/
def lateAnswer : List System.Event :=
  let bids (id : Int) (bid : Bytes) : System.Event :=
    .call id .zero (.distributeValue ['x'] bid typeCDouble .twoWayHandShakeElection)
  [bids 1 bidTwo, .deliver 2 .zero (bidCommand 1 bidTwo 103 4), bids 2 bidTwo, bids 1 bidFive,
    .deliver 1 .zero (bidCommand 2 bidTwo 210 6), .deliver 2 .zero (bidCommand 1 bidFive 104 5),
    .deliver 1 .zero (bidAcknowledge 2 bidTwo 104 6),
    .deliver 2 .zero (bidAcknowledge 1 bidFive 210 7),
    .deliver 1 .zero (bidAcknowledge 2 Believe.doubleMin 103 5)]

/-- Both agents see agent 1 as the winner. -/
theorem election_at_rest_late : ∃ trace s,
    (circleOf [1, 2] fun _ => 3).play lateAnswer = some (trace, s) ∧ s.flight = [] ∧
      ∀ i ∈ [1, 2], ∃ cv, (s.agents i).getVariable ['x'] = some cv ∧ Election.getWinner cv = 1 := by
  have played : (circleOf [1, 2] fun _ => 3).play lateAnswer = some _ := rfl
  obtain ⟨run, events⟩ := System.play_runs played
  refine ⟨_, _, played, rfl, fun i member => ?_⟩
  have votes := @allowed_of_events _ _ (fun _ => Votes ['x']) _ _ events fun e inEvents _ =>
    (by simp [lateAnswer, Votes, bidTwo, bidFive]; decide : ∀ e ∈ lateAnswer, Votes ['x'] e) e inEvents
  obtain ⟨cv, known, -, wins⟩ := election_at_rest
    (circleOf_circle ['x'] (by decide) (by decide)) (fun _ => rfl) run votes (by decide) (by decide)
    (by decide) rfl i member
  exact ⟨cv, known, wins 1 (by decide) (by decide +kernel) (by decide +kernel)⟩

end Examples

end CaceProofs.Guarantees
