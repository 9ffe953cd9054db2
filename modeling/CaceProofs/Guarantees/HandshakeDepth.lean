import CaceProofs.Guarantees.ElectionBids
import CaceProofs.Guarantees.RepeatedWrites

/-!
# The depth of the handshake

The level of a variable travels with its commands and notifications. An acknowledge carries
none, and an agent that learns of the variable from one takes the deepest level.
-/
namespace CaceProofs.Guarantees
open Source Library

section Store

variable {r : Readings} {may : Licence} {G : Believe → Prop} {x : Name} {c c' : Cace}

/-- The variable has the property wherever it is stored, and the other variables are others. -/
structure Shelved (G : Believe → Prop) (x : Name) (c : Cace) : Prop where
  known : ∀ cv, c.getVariable x = some cv → Graded G x cv
  others : ∀ name cv, c.getVariable name = some cv → name ≠ x → Elsewhere x cv

/-- What an application may pass. -/
def Presentable (G : Believe → Prop) (x : Name) (cv : ConsensusVariable) : Prop :=
  Elsewhere x cv ∨ Graded G x cv

/-- An effect keeps the property where an update does and nothing is written or decided. -/
theorem Shelved.effect (effect : Effect r may c c') (before : Shelved G x c)
    (passes : ∀ cv, may.passes cv → Presentable G x cv) (undecided : ¬ may.decides x)
    (unwritten : ∀ cmd, .received (.write cmd) ∈ c.history → cmd.variableName ≠ x)
    (expires : ∀ b, G b → G { b with hasValue := false })
    (overwrites : ∀ b v, G b → G v → G (b.update v))
    (updates : ∀ u : ProposalUpdate, c' = c.updateVariable u → u.variableName = x →
      .received u.message ∈ c.history → Graded G x (updated u (c.getVariable x))) :
    Shelved G x c' := by
  refine ⟨fun cv found => ?_, Elsewhere.effect effect before.others fun var given named => ?_⟩
  · rcases effect_update effect found with ⟨old, stored, rfl | rfl⟩
      | ⟨u, here, about, -, heard, rfl⟩
      | ⟨cmd, here, heard, -⟩ | ⟨-, -, -, chosen, -⟩ | ⟨var, given, named, equal⟩
    · exact before.known cv stored
    · intro b member
      rcases List.mem_cons.mp member with rfl | proposal
      · obtain ⟨name, holds⟩ := before.known old stored _ List.mem_cons_self
        exact ⟨name, expires _ holds⟩
      · exact before.known old stored b (List.mem_cons_of_mem _ proposal)
    · exact updates u here about heard
    · exact absurd here (unwritten cmd heard)
    · exact absurd chosen undecided
    · have graded := (passes var given).resolve_left fun elsewhere => elsewhere.1 named
      rcases equal with rfl | ⟨old, stored, rfl⟩
      · exact graded
      · have stays := before.known old stored
        intro b member
        rcases List.mem_cons.mp member with rfl | proposal
        · exact ⟨named, overwrites _ _ (stays _ List.mem_cons_self).2
            (graded _ List.mem_cons_self).2⟩
        · exact stays b (List.mem_cons_of_mem _ proposal)
  · exact (passes var given).resolve_right fun graded => named (graded _ List.mem_cons_self).1

/-- The agent decides a value. -/
theorem Shelved.decideValue {name : Name} {value : Bytes} {type : Int}
    {strategy : AcceptStrategy} (before : Shelved G x c)
    (own : name = x → G (decided r c x value type strategy (c.getVariable x)).toBelieve) :
    Shelved G x (CaceSpace.decideValue r c name value type strategy) := by
  have effect : Effect r { passes := fun _ => False } c
      (CaceSpace.decideValue r c name value type strategy) :=
    .decide name value type strategy trivial
  refine ⟨fun cv found => ?_, Elsewhere.effect effect before.others
    fun _ none => none.elim⟩
  · rw [getVariable_decideValue] at found
    split at found
    next here =>
      subst here
      obtain rfl := Option.some.inj found
      have holds := own rfl
      cases stored : c.getVariable x with
      | none =>
        intro b member
        obtain rfl := List.mem_singleton.mp member
        exact ⟨rfl, stored ▸ holds⟩
      | some old =>
        have graded := before.known old stored
        intro b member
        rcases List.mem_cons.mp member with rfl | proposal
        · exact ⟨(graded _ List.mem_cons_self).1, stored ▸ holds⟩
        · exact graded b (List.mem_cons_of_mem _ proposal)
    next => exact before.known cv found

/-- What is announced under the name of the variable is the variable. -/
theorem Shelved.announced (before : Shelved G x c) {variablePtr : VariablePtr}
    (pointed : ∀ cv, variablePtr = .detached cv → Presentable G x cv)
    (level : .noDistribution < (c.deref variablePtr).strategy)
    (about : (c.deref variablePtr).name = x) : Graded G x (c.deref variablePtr) := by
  have others : ∀ name cv, c.getVariable name = some cv → name ≠ x → cv.name ≠ x :=
    fun name cv stored other => (before.others name cv stored other).1
  rcases announced_stored others level about with ⟨cv, rfl⟩ | stored
  · exact (pointed cv rfl).resolve_left fun elsewhere => elsewhere.1 about
  · exact before.known _ stored

end Store

section Levels

/-- The default levels up to the two way handshake. -/
def Shallow (strategy : AcceptStrategy) : Prop :=
  strategy = .noDistribution ∨ strategy = .fireAndForget ∨ strategy = .twoWayHandShake

theorem Shallow.le {strategy : AcceptStrategy} (shallow : Shallow strategy) :
    strategy ≤ .twoWayHandShake := by
  rcases shallow with rfl | rfl | rfl <;> decide

/-- A level travels as an int16. -/
theorem Shallow.sent {strategy : AcceptStrategy} (shallow : Shallow strategy) :
    Shallow ⟨toShort strategy.code⟩ := by
  rcases shallow with rfl | rfl | rfl
  · exact .inl (by decide)
  · exact .inr (.inl (by decide))
  · exact .inr (.inr (by decide))

variable {x : Name}

/-- The levels of a variable and its proposals. -/
abbrev AllShallow (x : Name) (cv : ConsensusVariable) : Prop :=
  Graded (fun b => Shallow b.strategy) x cv

/-- A command or a notification about the variable carries such a level. -/
def Carries (P : AcceptStrategy → Prop) (x : Name) (m : Message) : Prop :=
  ∀ report, m.report? = some report → report.variableName = x →
    ∀ strategy, m.strategy? = some strategy → P strategy

/-- The handler of a quiet agent changes the time stamp only. -/
theorem Carries.heard {P : AcceptStrategy → Prop} {c : Cace} {m : Message}
    (carries : Carries P x m) : Carries P x (Guarantees.heard c m) := by
  intro report reports about strategy level
  obtain ⟨t, sent⟩ := heard_report reports
  rw [heard_strategy] at level
  exact carries _ sent about strategy level

/-- An update with a shallow level keeps the levels, and so does one without a level at a known
variable. -/
theorem AllShallow.updated {u : ProposalUpdate} {old : Option ConsensusVariable}
    (here : u.variableName = x) (carries : Carries Shallow x u.message)
    (opens : old = none → u.message.strategy?.isSome = true)
    (before : ∀ cv, old = some cv → AllShallow x cv) : AllShallow x (updated u old) := by
  have level : ∀ s, u.message.strategy? = some s → Shallow s := carries _ u.message_report here
  refine Graded.strategy_updated here level (fun absent => ?_) before
  obtain ⟨s, carried⟩ := Option.isSome_iff_exists.mp (opens absent)
  rw [carried]
  exact level s carried

end Levels

section Agent

variable {r : Readings} {x : Name} {c c' : Cace}

/-- What the application passes and what is heard of the variable is shallow, it is not
written, and it is decided at shallow levels only: by the calls themselves. An agent answers a
write of a variable it does not store under the empty name. -/
def shallowly (x : Name) : Licence where
  passes := Presentable (fun b => Shallow b.strategy) x
  decides name := name ≠ x
  receives m := Carries Shallow x m ∧ ∀ cmd, m = .write cmd → cmd.variableName ≠ x ∧ x ≠ []

/-- An agent at which the variable is shallow. -/
structure Unconfirmed (x : Name) (c : Cace) : Prop where
  queued : c.Queued
  received : ∀ m, .received m ∈ c.history → (shallowly x).receives m
  published : ∀ m t, .published m t ∈ c.history →
    Carries Shallow x m ∧ ∀ sa, m = .shortAck sa → sa.variableName ≠ x
  shelved : Shelved (fun b => Shallow b.strategy) x c
  presents : ∀ job ∈ c.jobs, Presents (shallowly x) job
  unheard : c.getVariable x = none → openings x c.history = []

namespace Unconfirmed

theorem announced (before : Unconfirmed x c) {variablePtr : VariablePtr}
    (pointed : Pointed (shallowly x) variablePtr)
    (level : .noDistribution < (c.deref variablePtr).strategy)
    (about : (c.deref variablePtr).name = x) : AllShallow x (c.deref variablePtr) :=
  before.shelved.announced (by rintro cv rfl; exact pointed) level about

theorem published_effect (effect : Effect r (shallowly x) c c') (before : Unconfirmed x c)
    {m : Message} {t : Transmission} (published : .published m t ∈ c'.history) :
    Carries Shallow x m ∧ ∀ sa, m = .shortAck sa → sa.variableName ≠ x := by
  refine ⟨fun report reports about strategy level => ?_, fun sa same about => ?_⟩
  · rcases effect.tells before.presents published reports level with
      old | ⟨variablePtr, pointed, distributed, named, rfl, -⟩
    · exact (before.published m t old).1 report reports about strategy level
    · have graded := before.announced pointed distributed (named.trans about)
      exact (graded _ List.mem_cons_self).2.sent
  · subst same
    rcases effect.published published with
      old | ⟨d, moment, -, ⟨-, content⟩ | ⟨-, job, member, content, -⟩⟩
    · exact (before.published _ t old).2 sa rfl about
    · cases content with
      | shortAck ack received level =>
        have deep : .twoWayHandShake < (c.deref (.stored ack.variableName)).strategy := level
        have distributed : .noDistribution < (c.deref (.stored ack.variableName)).strategy :=
          lt_trans (by decide : (0 : Int) < 40) deep
        have graded : AllShallow x (c.deref (.stored ack.variableName)) :=
          @announced x c before _ trivial distributed about
        have shallow := (graded _ List.mem_cons_self).2.le
        exact absurd deep (Int.not_lt.mpr shallow)
      | writeAck cmd received =>
        obtain ⟨other, named⟩ := (before.received _ received).2 cmd rfl
        have here : (c.deref (.stored cmd.variableName)).name = x := about
        rw [deref_stored] at here
        cases stored : c.getVariable cmd.variableName with
        | none =>
          rw [stored] at here
          exact named here.symm
        | some cv =>
          rw [stored] at here
          exact (before.shelved.others _ cv stored other).1 here
    · cases content

/-- An effect that does not open the variable with an acknowledge keeps it shallow. -/
theorem effect (effect : Effect r (shallowly x) c c') (before : Unconfirmed x c)
    (opened : c.getVariable x = none → Opened x c') : Unconfirmed x c' := by
  refine ⟨effect.queued before.queued, fun m received => ?_, fun m t published =>
    before.published_effect effect published, ?_, fun job member =>
    effect.presents before.presents member, fun absent => ?_⟩
  · rcases effect.received received with old | ⟨-, heard, -⟩
    · exact before.received m old
    · exact heard
  · refine before.shelved.effect effect (fun _ given => given) (fun chosen => chosen rfl)
      (fun cmd heard => ((before.received _ heard).2 cmd rfl).1) (fun _ holds => holds)
      (fun _ _ _ holds => holds) ?_
    rintro u rfl here heard
    refine AllShallow.updated here (before.received _ heard).1 (fun absent => ?_) fun cv stored =>
      before.shelved.known cv stored
    obtain ⟨seen, history, -⟩ := updateVariable_history c u
    refine opened absent u.message ?_
    have none := before.unheard absent
    unfold openings at none ⊢
    rw [history, List.filterMap_append, none]
    simp [u.message_report, here]
  · have unknown : c.getVariable x = none := by
      by_contra known
      exact effect.known known absent
    rcases @effect_openings r x c c' _ effect with ⟨u, here, -, rfl⟩ | same
    · rw [getVariable_updateVariable, here, if_pos rfl] at absent
      cases absent
    · rw [same]
      exact before.unheard unknown

theorem path (path : Path r (shallowly x) c c') (before : Unconfirmed x c)
    (opened : c.getVariable x = none → Opened x c') : Unconfirmed x c' := by
  suffices both : Unconfirmed x c' ∧ (c.getVariable x ≠ none → c'.getVariable x ≠ none) from
    both.1
  induction path with
  | refl => exact ⟨before, id⟩
  | @tail d e path effect ih =>
    obtain ⟨unconfirmed, known⟩ := ih fun absent => (opened absent).earlier effect.history
    refine ⟨unconfirmed.effect effect fun absent => opened ?_,
      fun there => effect.known (known there)⟩
    by_contra there
    exact known there absent

/-- The agent decides a value at a shallow level. -/
theorem decideValue {value : Bytes} {type : Int} {strategy : AcceptStrategy}
    (before : Unconfirmed x c) (level : Shallow strategy) :
    Unconfirmed x (CaceSpace.decideValue r c x value type strategy) := by
  have effect : Effect r {} c (CaceSpace.decideValue r c x value type strategy) :=
    .decide x value type strategy trivial
  have history : (CaceSpace.decideValue r c x value type strategy).history = c.history := by
    rw [decideValue_frame]
  refine ⟨effect.queued before.queued, ?_, ?_, ?_, fun job member => ?_, fun absent => ?_⟩
  · rw [history]
    exact before.received
  · rw [history]
    exact before.published
  · refine before.shelved.decideValue fun _ => ?_
    cases c.getVariable x <;> exact level
  · refine before.presents job ?_
    rwa [decideValue_frame] at member
  · rw [getVariable_decideValue, if_pos rfl] at absent
    cases absent

theorem distributeValue {name : Name} {value : Bytes} {type : Int} {strategy : AcceptStrategy}
    (before : Unconfirmed x c) (level : name = x → Shallow strategy)
    (opened : c.getVariable x = none →
      Opened x (CaceSpace.distributeValue r c name value type strategy)) :
    Unconfirmed x (CaceSpace.distributeValue r c name value type strategy) := by
  by_cases here : name = x
  · subst here
    have decided : Unconfirmed name (CaceSpace.decideValue r c name value type strategy) :=
      before.decideValue (level rfl)
    refine decided.path (distributeValue_rest decided.queued) fun absent => ?_
    rw [getVariable_decideValue, if_pos rfl] at absent
    cases absent
  · exact before.path (distributeValue_path before.queued here) opened

/-- A variable that bears the name is stored under it, or is the unknown one. -/
theorem level_stored (before : Unconfirmed x c) (name : Name)
    (about : (c.deref (.stored name)).name = x) :
    Shallow (c.deref (.stored name)).strategy := by
  rw [deref_stored] at about ⊢
  cases stored : c.getVariable name with
  | none => exact .inl rfl
  | some cv =>
    rw [stored] at about
    by_cases here : name = x
    · exact (before.shelved.known cv (here ▸ stored) _ List.mem_cons_self).2
    · exact absurd about (before.shelved.others name cv stored here).1

end Unconfirmed

/-- The variable is only ever distributed, at shallow levels: no write of it is handled. -/
def Distributes (x : Name) (c : Cace) (e : Readings × Cace.Event) : Prop :=
  match e.2 with
  | .distributeValue name _ _ strategy => name = x → Shallow strategy
  | .distributeVariable variablePtr => Given (shallowly x).passes c variablePtr
  | .addVariable var _ => (shallowly x).passes var
  | .handle m => ∀ cmd, m = .write cmd → cmd.variableName ≠ x ∧ x ≠ []
  | .pNoBlock _ _ _ | .v _ | .step | .writeVariable _ _ | .requestVariable _ _
  | .agentEngangement _ _ => True

/-- The event does not make the variable known by an acknowledge. -/
def Introduces (x : Name) (c : Cace) (e : Readings × Cace.Event) : Prop :=
  c.getVariable x = none → ∀ c', c.Next e c' → Opened x c'

/-- One event. -/
theorem Unconfirmed.next {e : Readings × Cace.Event} (next : c.Next e c')
    (distributes : Distributes x c e) (introduces : Introduces x c e)
    (hears : ∀ m, e.2 = .handle m → Carries Shallow x m) (before : Unconfirmed x c) :
    Unconfirmed x c' := by
  obtain ⟨r, e⟩ := e
  have opened : c.getVariable x = none → Opened x c' := fun absent => introduces absent c' next
  have admitted : Admits (shallowly x) c e → Unconfirmed x c' := fun admitted =>
    before.path (exec_path before.queued admitted next) opened
  cases e with
  | distributeValue name value type strategy =>
    obtain rfl := Except.ok.inj next
    exact before.distributeValue distributes opened
  | pNoBlock name strict robots =>
    obtain rfl := Except.ok.inj next
    revert opened
    unfold CaceMutex.pNoBlock
    dsimp only
    split
    · split
      · exact fun _ => before
      · split
        · exact before.distributeValue (before.level_stored name)
        · exact fun _ => before
    · exact fun _ => before
  | v name =>
    obtain rfl := Except.ok.inj next
    revert opened
    unfold CaceMutex.v
    dsimp only
    split
    · exact before.distributeValue (before.level_stored name)
    · exact fun _ => before
  | handle m =>
    refine admitted ⟨⟨(hears m rfl).heard, fun cmd same => ?_⟩, fun _ => trivial,
      fun _ _ _ => trivial⟩
    cases m with
    | write => exact Message.write.inj same ▸ distributes _ rfl
    | command | acknowledge | believeNotification | shortAck | writeAck | time | variableRequest
    | response => cases same
  | step =>
    exact admitted ⟨fun _ _ => trivial, fun _ _ _ _ _ => trivial, fun _ _ => trivial, trivial⟩
  | distributeVariable | addVariable => exact admitted distributes
  | writeVariable | requestVariable | agentEngangement => exact admitted trivial

end Agent

section System

variable {x : Name} {start s : System} {trace : List (System × System.Event)}

/-- One event of the system. -/
theorem unconfirmed_step {s' : System} {e : System.Event} (traced : Traced s)
    (before : ∀ id, Unconfirmed x (s.agents id)) (next : s.Next e s')
    (distributes : ∀ id, ∀ l ∈ localEvent id e, Distributes x (s.agents id) l)
    (introduces : ∀ id, ∀ l ∈ localEvent id e, Introduces x (s.agents id) l) (id : Int) :
    Unconfirmed x (s'.agents id) := by
  have agent := system_next next id
  cases event : localEvent id e with
  | none =>
    rw [event] at agent
    exact agent ▸ before id
  | some l =>
    rw [event] at agent
    refine (before id).next agent (distributes id l event) (introduces id l event) ?_
    -- what it handles, another agent has published
    intro m handled
    obtain ⟨r, e'⟩ := l
    obtain rfl := handled
    obtain ⟨i, -, -, t, published⟩ := traced.inFlight id m (local_flight next event)
    exact ((before i).published m t published).1

theorem unconfirmed_run (quiescent : Quiescent start)
    (unknown : ∀ id, (start.agents id).store = []) (run : start.Runs trace s)
    (distributes : ∀ p ∈ trace, ∀ id, ∀ l ∈ localEvent id p.2, Distributes x (p.1.agents id) l)
    (introduces : ∀ p ∈ trace, ∀ id, ∀ l ∈ localEvent id p.2, Introduces x (p.1.agents id) l) :
    ∀ id, Unconfirmed x (s.agents id) := by
  refine run.carries (fun _ s => ∀ id, Unconfirmed x (s.agents id)) (fun _ s e s' run
    (may : (∀ id, ∀ l ∈ localEvent id e, Distributes x (s.agents id) l) ∧
      ∀ id, ∀ l ∈ localEvent id e, Introduces x (s.agents id) l) next before => ?_)
    (fun p member => ⟨distributes p member, introduces p member⟩) ?_
  · exact unconfirmed_step (traced quiescent run) before next may.1 may.2
  · intro id
    have idle := quiescent.idle id
    have none := getVariable_of_empty (unknown id)
    refine ⟨idle_queued idle, ?_, ?_, ⟨?_, ?_⟩, ?_, fun _ => ?_⟩
    · simp [idle.history]
    · simp [idle.history]
    · simp [none]
    · simp [none]
    · simp [idle.jobs]
    · simp [idle.history, openings]

/-- In a run in which no acknowledge makes a variable known to an agent, a variable that is
distributed up to the two way handshake is never confirmed by a short acknowledge, and never
has a deeper level. -/
theorem handshake_depth (quiescent : Quiescent start)
    (unknown : ∀ id, (start.agents id).store = []) (run : start.Runs trace s)
    (distributes : ∀ p ∈ trace, ∀ id, ∀ l ∈ localEvent id p.2, Distributes x (p.1.agents id) l)
    (introduces : ∀ p ∈ trace, ∀ id, ∀ l ∈ localEvent id p.2, Introduces x (p.1.agents id) l)
    (id : Int) :
    (∀ sa t, .published (.shortAck sa) t ∈ (s.agents id).history → sa.variableName ≠ x) ∧
      ∀ cv, (s.agents id).getVariable x = some cv → ∀ b ∈ cv.toBelieve :: cv.proposals,
        b.strategy ≤ .twoWayHandShake := by
  have agent := unconfirmed_run quiescent unknown run distributes introduces id
  exact ⟨fun sa t published => (agent.published _ t published).2 sa rfl,
    fun cv known b member => (agent.shelved.known cv known b member).2.le⟩

end System

/-- A command introduces agent 2, and its acknowledge returns to agent 1. -/
theorem handshake_depth_pair : ∃ trace s,
    (newSystem [1, 2]).play
      [.call 1 .zero (.distributeValue ['x'] [7] 0 .twoWayHandShake),
        .deliver 2 .zero (.command ⟨1, [0], ['x'], [7], 0, longMax, 40, 101, 2, 0⟩),
        .deliver 1 .zero (.acknowledge ⟨2, [0], ['x'], [7], 101, 3, 0⟩)] = some (trace, s) ∧
      ((s.agents 2).getVariable ['x']).isSome = true ∧
      ∀ id, (∀ sa t, .published (.shortAck sa) t ∈ (s.agents id).history →
          sa.variableName ≠ ['x']) ∧
        ∀ cv, (s.agents id).getVariable ['x'] = some cv → ∀ b ∈ cv.toBelieve :: cv.proposals,
          b.strategy ≤ .twoWayHandShake := by
  have played : (newSystem [1, 2]).play
      [.call 1 .zero (.distributeValue ['x'] [7] 0 .twoWayHandShake),
        .deliver 2 .zero (.command ⟨1, [0], ['x'], [7], 0, longMax, 40, 101, 2, 0⟩),
        .deliver 1 .zero (.acknowledge ⟨2, [0], ['x'], [7], 101, 3, 0⟩)] = some _ := rfl
  obtain ⟨run, -⟩ := System.play_runs played
  refine ⟨_, _, played, by decide,
    handshake_depth (newSystem_quiescent [1, 2]) (fun _ => rfl) run ?_ ?_⟩
  · refine List.forall_mem_cons.mpr ⟨fun id => local_call ?_,
      List.forall_mem_cons.mpr ⟨fun id => local_deliver ?_,
        List.forall_mem_cons.mpr ⟨fun id => local_deliver ?_, by simp⟩⟩⟩
    · exact fun _ _ => .inr (.inr rfl)
    all_goals
      intro _ cmd same
      cases same
  · refine List.forall_mem_cons.mpr ⟨fun id => local_call ?_,
      List.forall_mem_cons.mpr ⟨fun id => local_deliver ?_,
        List.forall_mem_cons.mpr ⟨fun id => local_deliver ?_, by simp⟩⟩⟩
    · rintro rfl _ c' next
      obtain rfl := Except.ok.inj next
      decide
    · rintro rfl _ c' next
      obtain rfl := Except.ok.inj next
      decide
    · rintro rfl absent
      exact absurd absent (by decide)

/-- The acknowledge of agent 2 overtakes the command on its way to agent 3, which takes the
variable to be at the three way handshake and confirms the acknowledge. -/
theorem handshake_depth_overtaken : ∃ trace s,
    (newSystem [1, 2, 3]).play
      [.call 1 .zero (.distributeValue ['x'] [7] 0 .twoWayHandShake),
        .deliver 2 .zero (.command ⟨1, [0], ['x'], [7], 0, longMax, 40, 101, 2, 0⟩),
        .deliver 3 .zero (.acknowledge ⟨2, [0], ['x'], [7], 101, 3, 0⟩)] = some (trace, s) ∧
      Quiescent (newSystem [1, 2, 3]) ∧ (∀ id, ((newSystem [1, 2, 3]).agents id).store = []) ∧
      (∀ p ∈ trace, ∀ id, ∀ l ∈ localEvent id p.2, Distributes ['x'] (p.1.agents id) l) ∧
      (∃ sa, .published (.shortAck sa) .first ∈ (s.agents 3).history ∧ sa.variableName = ['x']) ∧
      ((s.agents 3).getVariable ['x']).map (fun cv => cv.strategy) = some .threeWayHandShake := by
  have played : (newSystem [1, 2, 3]).play
      [.call 1 .zero (.distributeValue ['x'] [7] 0 .twoWayHandShake),
        .deliver 2 .zero (.command ⟨1, [0], ['x'], [7], 0, longMax, 40, 101, 2, 0⟩),
        .deliver 3 .zero (.acknowledge ⟨2, [0], ['x'], [7], 101, 3, 0⟩)] = some _ := rfl
  refine ⟨_, _, played, newSystem_quiescent [1, 2, 3], fun _ => rfl, ?_,
    ⟨⟨3, [2], ['x'], 101, 5⟩, by decide, rfl⟩, by decide⟩
  refine List.forall_mem_cons.mpr ⟨fun id => local_call ?_,
    List.forall_mem_cons.mpr ⟨fun id => local_deliver ?_,
      List.forall_mem_cons.mpr ⟨fun id => local_deliver ?_, by simp⟩⟩⟩
  · exact fun _ _ => .inr (.inr rfl)
  all_goals
    intro _ cmd same
    cases same

end CaceProofs.Guarantees
