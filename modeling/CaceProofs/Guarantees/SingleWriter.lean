import CaceProofs.Guarantees.LocalRuns
import CaceProofs.Guarantees.OwnBelief
import CaceProofs.Guarantees.PlainAgents
import CaceProofs.Guarantees.StrictStamps

/-!
# A single writer

Only one agent distributes a variable. A late acknowledge of an earlier value competes
with its newest value, and can win: the time stamp of the acknowledge is the clock of
the other agent.
-/
namespace CaceProofs.Guarantees
open Source Library

section Reports

variable {r : Readings} {c : Cace} {x : Name}

/-- An update of the variable is the receipt of its report. -/
theorem registerAt_updateVariable {u : ProposalUpdate} (default : DefaultUpdate u)
    (stored : ∀ cv, c.getVariable x = some cv → DefaultStrategies cv) (here : u.variableName = x) :
    registerAt (c.updateVariable u) x =
      some (Register.receive u.ownID (reported u.toReport) (registerAt c x)) := by
  subst here
  unfold registerAt
  rw [getVariable_updateVariable, if_pos rfl, Option.map_some,
    (registerOf_updated default stored).1]

theorem registerAt_receive (c : Cace) (m : Message) (x : Name) :
    registerAt (c.receive m) x = registerAt c x := by
  unfold Cace.receive
  split <;> rfl

/-- A command that is applied at once. -/
theorem handle_command_register {m : CaceCommand} {report : Report} (plain : Plain c)
    (before : DefaultAt x c) (harmless : Harmless x (.command m))
    (reaches : Reaches (.command m) c m.receiverID)
    (reports : (Message.command m).report? = some report) (here : report.variableName = x) :
    registerAt (c.handle r (.command m)) x =
      some (Register.receive c.ownID (reported report) (registerAt c x)) := by
  obtain rfl := Option.some.inj reports
  have default : DefaultUpdate (commandUpdate r c.ownID m) := fun s level =>
    harmless.default _ s rfl here level
  have took : registerAt (tookCommand r c m) x =
      some (Register.receive c.ownID (reported ⟨m.variableName, m.senderID, m.value, m.type,
        m.lamportTime⟩) (registerAt c x)) := by
    rw [← registerAt_receive c (.command m) x]
    exact registerAt_updateVariable default before.stored here
  rw [← took]
  exact registerAt_eq (congrArg (fun store => store.lookup x)
    (handle_command_store plain reaches))

/-- An acknowledge that is applied at once. -/
theorem handle_acknowledge_register {m : CaceAcknowledge} {report : Report} (plain : Plain c)
    (before : DefaultAt x c) (reaches : Reaches (.acknowledge m) c m.receiverID)
    (reports : (Message.acknowledge m).report? = some report) (here : report.variableName = x) :
    registerAt (c.handle r (.acknowledge m)) x =
      some (Register.receive c.ownID (reported report) (registerAt c x)) := by
  obtain rfl := Option.some.inj reports
  have default : DefaultUpdate (acknowledgeUpdate r c.ownID m) := fun s level => nomatch level
  have took : registerAt (tookAcknowledge r c m) x =
      some (Register.receive c.ownID (reported ⟨m.variableName, m.senderID, m.value, m.type,
        m.lamportTime⟩) (registerAt c x)) := by
    rw [← registerAt_receive c (.acknowledge m) x]
    exact registerAt_updateVariable default before.stored here
  rw [← took, handle_acknowledge plain reaches]
  split <;> rfl

/-- A message about a variable that is no notification is applied at once. -/
theorem handle_report_register {m : Message} {report : Report} (plain : Plain c)
    (before : DefaultAt x c) (harmless : Harmless x m) (applicable : Applicable c m)
    (notNotified : ∀ cbn, m ≠ .believeNotification cbn) (reports : m.report? = some report)
    (here : report.variableName = x) :
    registerAt (c.handle r m) x =
      some (Register.receive c.ownID (reported report) (registerAt c x)) := by
  obtain ⟨receivers, addressed, reaches⟩ := applicable
  cases m with
  | command m =>
    obtain rfl := Option.some.inj addressed
    exact handle_command_register plain before harmless reaches reports here
  | acknowledge m =>
    obtain rfl := Option.some.inj addressed
    exact handle_acknowledge_register plain before reaches reports here
  | believeNotification cbn => exact absurd rfl (notNotified cbn)
  | shortAck | time | variableRequest | write | writeAck | response => cases reports

end Reports

section Events

/-- A message that may arrive: no write and no notification of the variable, and default
levels if it is a command. -/
structure Handshake (x : Name) (m : Message) : Prop extends Harmless x m where
  notNotified : ∀ cbn, m = .believeNotification cbn → cbn.variableName ≠ x

/-- The standard communication module hands on what arrives. -/
theorem heard_plain {c : Cace} (plain : Plain c) (m : Message) : heard c m = m := by
  cases m with
  | command m => simp [heard, Cace.stampedCommand, plain.loud]
  | acknowledge m => simp [heard, Cace.stampedAcknowledge, plain.loud]
  | _ => rfl

/-- The licence under which nothing reaches the variable. -/
def undisturbed (x : Name) : Licence :=
  { leaves x with
    receives := Handshake x
    applies := fun m => ∀ report, m.report? = some report → report.variableName ≠ x }

theorem leaves_undisturbed (x : Name) : Leaves x (undisturbed x) :=
  ⟨fun _ => id, fun _ => id, fun _ heard => heard.toHarmless⟩

/-- The agent distributes the variable with two or three way handshakes, and otherwise only
messages of the handshakes reach it. -/
def WritesAlone (x : Name) (c : Cace) : Cace.Event → Prop
  | .distributeValue name _ _ strategy =>
    name = x → strategy = .twoWayHandShake ∨ strategy = .threeWayHandShake
  | .handle m => Handshake x m
  | .distributeVariable variablePtr => Given (undisturbed x).passes c variablePtr
  | .addVariable var _ => var.name ≠ x
  | .pNoBlock name _ _ | .v name => (c.deref (.stored name)).name ≠ x
  | .writeVariable _ _ | .requestVariable _ _ | .agentEngangement _ _ | .step => True

/-- What the events keep. -/
structure Writing (x : Name) (c : Cace) : Prop extends DefaultAt x c where
  plain : Plain c
  ownListed : c.ownID ∈ c.agentBlacklist
  spaceOwnID : c.spaceOwnID = c.ownID
  handshakes : ∀ m, .received m ∈ c.history → Handshake x m
  sound : ∀ reg, registerAt c x = some reg → Register.Sound c.ownID reg

variable {c c' : Cace} {x : Name}

theorem Writing.of_path {r : Readings} {c c' : Cace} {x : Name} {may : Licence}
    (path : Path r may c c') (heard : ∀ m, may.receives m → Handshake x m)
    (before : Writing x c) (default : DefaultAt x c')
    (sound : ∀ reg, registerAt c' x = some reg → Register.Sound c.ownID reg) : Writing x c' := by
  have config := path.config
  have own : c'.ownID = c.ownID := congrArg Config.ownID config
  have listed : c'.agentBlacklist = c.agentBlacklist := congrArg Config.agentBlacklist config
  have space : c'.spaceOwnID = c.spaceOwnID := congrArg Config.spaceOwnID config
  refine ⟨default, before.plain.of_config config, ?_, ?_, ?_, own ▸ sound⟩
  · rw [own, listed]
    exact before.ownListed
  · rw [own, space]
    exact before.spaceOwnID
  · have start := before.handshakes
    clear default sound config own listed space
    induction path with
    | refl => exact start
    | tail _ effect ih =>
      intro m received
      rcases effect.received received with old | ⟨-, new, -⟩
      · exact ih m old
      · exact heard m new

/-- Events that do not reach the variable leave its register alone. -/
theorem undisturbed_path {r : Readings} (path : Path r (undisturbed x) c c')
    (before : Writing x c) : Writing x c' ∧ registerAt c' x = registerAt c x := by
  have steps : DefaultAt x c' ∧ registerAt c' x = registerAt c x := by
    have start := before.toDefaultAt
    clear before
    induction path with
    | refl => exact ⟨start, rfl⟩
    | tail _ effect ih =>
      obtain ⟨step, default⟩ := effect_reportStep (leaves_undisturbed x) effect ih.1
      rcases step with ⟨same, -⟩ | ⟨u, here, applied, -⟩
      · exact ⟨default, same.trans ih.2⟩
      · exact absurd here (applied _ u.message_report)
  exact ⟨before.of_path path (fun _ => id) steps.1 (steps.2 ▸ before.sound), steps.2⟩

/-- A message that is applied to the variable. -/
def Reporting (x : Name) (c : Cace) (e : Cace.Event) (report : Report) : Prop :=
  ∃ m, e = .handle m ∧ Applicable c m ∧ m.report? = some report ∧ report.variableName = x

/-- The events that neither distribute the variable nor report about it. -/
theorem other_event {r : Readings} {e : Cace.Event} (before : Writing x c)
    (allowed : WritesAlone x c e) (noCall : ∀ v t s, e ≠ .distributeValue x v t s)
    (noReport : ∀ report, ¬ Reporting x c e report) (next : c.exec r e = .ok c') :
    Writing x c' ∧ registerAt c' x = registerAt c x := by
  have same := heard_plain before.plain
  refine undisturbed_path (exec_path before.queued ?_ next) before
  cases e with
  | distributeValue name value type strategy =>
    intro here
    exact noCall value type strategy (by rw [here])
  | handle m =>
    refine ⟨by rw [same]; exact allowed, fun applicable report reports here => ?_,
      fun _ _ _ => trivial⟩
    rw [same] at applicable reports
    exact noReport report ⟨m, rfl, applicable, reports, here⟩
  | step =>
    refine ⟨fun cbn waits report reports here => ?_, fun late => ?_, fun _ _ => trivial, trivial⟩
    · obtain rfl := Option.some.inj reports
      have received := before.queued.received (.believeNotification cbn)
        (mem_held.mpr (.inr (.inl ⟨cbn, waits, rfl⟩)))
      exact absurd here ((before.handshakes _ received).notNotified cbn rfl)
    · rw [before.plain.direct] at late
      cases late
  | distributeVariable | addVariable | pNoBlock | v => exact allowed
  | writeVariable | requestVariable | agentEngangement => trivial

/-- A call that distributes the variable. -/
theorem distribute_event {r : Readings} {value : Bytes} {type : Int} {strategy : AcceptStrategy}
    (before : Writing x c)
    (shake : strategy = .twoWayHandShake ∨ strategy = .threeWayHandShake)
    (next : c.exec r (.distributeValue x value type strategy) = .ok c') :
    Writing x c' ∧ registerAt c' x =
      some (Register.decide c.ownID c.lamportTime.time value (registerAt c x)) := by
  have default : strategy.acceptFunction = .default := by
    rcases shake with rfl | rfl <;> rfl
  have register := registerAt_decideValue r c x value type strategy
  rw [before.spaceOwnID] at register
  have decided : Writing x (CaceSpace.decideValue r c x value type strategy) := by
    have path : Path r { undisturbed x with decides := fun _ => True } c
        (CaceSpace.decideValue r c x value type strategy) :=
      .single (.decide x value type strategy trivial)
    refine before.of_path path (fun _ => id) (before.toDefaultAt.decideValue default) ?_
    intro reg known
    rw [register] at known
    rw [← Option.some.inj known]
    exact Register.decide_sound before.sound
  obtain ⟨after, same⟩ := undisturbed_path (distributeValue_rest decided.queued) decided
  exact Except.ok.inj next ▸ ⟨after, same.trans register⟩

/-- A report about the variable. -/
theorem report_event {r : Readings} {e : Cace.Event} {report : Report} (before : Writing x c)
    (allowed : WritesAlone x c e) (reporting : Reporting x c e report)
    (next : c.exec r e = .ok c') :
    Writing x c' ∧ report.senderID ≠ c.ownID ∧
      registerAt c' x =
        some (Register.receive c.ownID (reported report) (registerAt c x)) := by
  obtain ⟨m, rfl, applicable, reports, here⟩ := reporting
  have handshake : Handshake x m := allowed
  have notNotified : ∀ cbn, m ≠ .believeNotification cbn := by
    rintro cbn rfl
    obtain rfl := Option.some.inj reports
    exact handshake.notNotified cbn rfl here
  have register := @handle_report_register r c x m report before.plain before.toDefaultAt
    handshake.toHarmless applicable notNotified reports here
  have other : report.senderID ≠ c.ownID := by
    intro own
    obtain ⟨receivers, -, reaches⟩ := applicable
    rw [← (Message.report?_stamp reports).1] at own
    exact reaches.unlisted (own ▸ before.ownListed)
  let may : Licence := { leaves x with receives := Handshake x }
  have leave : Leaves x may := ⟨fun _ => id, fun _ => id, fun _ heard => heard.toHarmless⟩
  have admitted : AdmitsMessage may c m := by
    refine ⟨?_, fun _ => trivial, fun _ _ _ => trivial⟩
    rw [heard_plain before.plain]
    exact handshake
  have path : Path r may c c' := @exec_path r may c c' (.handle m) before.queued admitted next
  obtain rfl : c.handle r m = c' := Except.ok.inj next
  refine ⟨before.of_path path (fun _ => id) (before.toDefaultAt.path leave path) ?_, other,
    register⟩
  intro reg known
  rw [register] at known
  rw [← Option.some.inj known]
  exact Register.receive_sound before.sound other

end Events

section Updates

/-- The value the agent holds for a variable, if it knows it. -/
def ownValue (c : Cace) (x : Name) : Option Bytes :=
  (c.getVariable x).map fun cv => cv.val

theorem ownValue_eq (c : Cace) (x : Name) :
    ownValue c x = (registerAt c x).map fun reg => reg.own.value := by
  unfold ownValue registerAt
  rw [Option.map_map]
  rfl

/-- After the first call of a trace the own value is that of the last one. -/
def ValueKept (x : Name) (trace : List (Cace × Readings × Cace.Event)) (c : Cace) : Prop :=
  ∀ last ∈ lastDistributed x trace, ownValue c x = some last.1

/-- Whatever the event reports, beliefs of another value than the own one stay below one of
the own value. -/
def Survives (x : Name) (c : Cace) (e : Cace.Event) : Prop :=
  ∀ report, Reporting x c e report → ∀ reg, registerAt c x = some reg →
    reg.KeepsValue (reported report)

variable {c c' : Cace} {x : Name} {trace : List (Cace × Readings × Cace.Event)}
  {e : Readings × Cace.Event}

/-- An event of a single writer. -/
theorem writing_step (before : Writing x c) (allowed : WritesAlone x c e.2)
    (next : c.Next e c') : Writing x c' := by
  obtain ⟨r, e⟩ := e
  by_cases call : ∃ value type strategy, e = .distributeValue x value type strategy
  · obtain ⟨value, type, strategy, rfl⟩ := call
    exact (distribute_event before (allowed rfl) next).1
  · by_cases reports : ∃ report, Reporting x c e report
    · obtain ⟨report, reporting⟩ := reports
      exact (report_event before allowed reporting next).1
    · exact (other_event before allowed (fun v t s same => call ⟨v, t, s, same⟩)
        (fun report reporting => reports ⟨report, reporting⟩) next).1

/-- An event keeps the value exactly if it survives what the event reports. -/
theorem valueKept_step (before : Writing x c) (allowed : WritesAlone x c e.2)
    (next : c.Next e c') (kept : ValueKept x trace c) :
    ValueKept x (trace ++ [(c, e)]) c' ↔
      ((lastDistributed x trace).isSome → Survives x c e.2) := by
  obtain ⟨r, e⟩ := e
  have silent : (∀ value type strategy, e ≠ .distributeValue x value type strategy) →
      lastDistributed x (trace ++ [(c, r, e)]) = lastDistributed x trace := by
    intro noCall
    rw [lastDistributed_append]
    cases e with
    | distributeValue name value type strategy =>
      have elsewhere : name ≠ x := fun here => noCall value type strategy (by rw [here])
      simp [elsewhere]
    | _ => rfl
  by_cases call : ∃ value type strategy, e = .distributeValue x value type strategy
  · obtain ⟨value, type, strategy, rfl⟩ := call
    have register := (distribute_event before (allowed rfl) next).2
    refine ⟨fun _ _ report ⟨m, handled, _⟩ => (nomatch handled), fun _ last decided => ?_⟩
    rw [lastDistributed_append] at decided
    obtain rfl : (value, c.lamportTime.time) = last := by simpa using decided
    rw [ownValue_eq, register]
    cases registerAt c x <;> rfl
  · have noCall : ∀ value type strategy, e ≠ .distributeValue x value type strategy :=
      fun value type strategy same => call ⟨value, type, strategy, same⟩
    unfold ValueKept
    rw [silent noCall]
    by_cases reports : ∃ report, Reporting x c e report
    · obtain ⟨report, reporting⟩ := reports
      obtain ⟨-, other, register⟩ := report_event before allowed reporting next
      have only : ∀ report', Reporting x c e report' → report' = report := by
        rintro report' ⟨m', handled', -, reports', -⟩
        obtain ⟨m, handled, -, reports, -⟩ := reporting
        obtain rfl : m = m' := Cace.Event.handle.inj (handled.symm.trans handled')
        exact Option.some.inj (reports'.symm.trans reports)
      cases decided : lastDistributed x trace with
      | none => simp
      | some last =>
        have held := kept last decided
        rw [ownValue_eq] at held
        obtain ⟨reg, known, value⟩ := Option.map_eq_some_iff.mp held
        rw [known] at register
        have after : ownValue c' x =
            some (Register.receive c.ownID (reported report) (some reg)).own.value := by
          rw [ownValue_eq, register]
          rfl
        have kept_iff : ownValue c' x = some last.1 ↔ reg.KeepsValue (reported report) := by
          rw [after, Option.some.injEq, ← value]
          exact Register.receive_value_iff (before.sound reg known) other
        constructor
        · intro keeps _ report' reporting' reg' known'
          obtain rfl := only report' reporting'
          obtain rfl := Option.some.inj (known.symm.trans known')
          exact kept_iff.mp (keeps last rfl)
        · intro survives last' same
          obtain rfl := Option.some.inj same
          exact kept_iff.mpr (survives rfl report reporting reg known)
    · have same := (other_event before allowed noCall
        (fun report reporting => reports ⟨report, reporting⟩) next).2
      refine ⟨fun _ _ report reporting => absurd ⟨report, reporting⟩ reports,
        fun _ last decided => ?_⟩
      rw [ownValue_eq, same, ← ownValue_eq]
      exact kept last decided

end Updates

section Systems

/-- Only one agent calls `distributeValue` for the variable, nothing else writes it, and the
messages about it that arrive are those of the handshakes. -/
def OnlyWriter (x : Name) (writer : Int) (s : System) : System.Event → Prop
  | .call id _ e =>
    if id = writer then WritesAlone x (s.agents id) e else Admits (leaves x) (s.agents id) e
  | .deliver _ _ m | .duplicate _ _ m => Handshake x m
  | .lose _ _ => True

variable {x : Name} {writer : Int} {start s s' : System} {e : System.Event}
  {trace : List (System × System.Event)}

theorem writesAlone_of_onlyWriter {l : Readings × Cace.Event} (allowed : OnlyWriter x writer s e)
    (here : localEvent writer e = some l) : WritesAlone x (s.agents writer) l.2 := by
  cases e with
  | call id r e =>
    obtain ⟨known, rfl⟩ : id = writer ∧ (r, e) = l := by simpa [localEvent] using here
    simpa [OnlyWriter, known] using allowed
  | deliver id r m | duplicate id r m =>
    obtain ⟨-, rfl⟩ : id = writer ∧ (r, Cace.Event.handle m) = l := by
      simpa [localEvent] using here
    exact allowed
  | lose => cases here

/-- What the writer keeps in every run. -/
theorem writing_run (run : start.Runs trace s)
    (allowed : ∀ p ∈ trace, OnlyWriter x writer p.1 p.2)
    (init : Writing x (start.agents writer)) : Writing x (s.agents writer) := by
  refine run.carries (fun _ s => Writing x (s.agents writer))
    (fun _ s e s' _ (here : OnlyWriter x writer s e) next before => ?_) allowed init
  have step := system_next next writer
  cases event : localEvent writer e with
  | none =>
    rw [event] at step
    exact step ▸ before
  | some l =>
    rw [event] at step
    exact writing_step before (writesAlone_of_onlyWriter here event) step

/-- The writer as it starts. -/
theorem writing_init {c : Cace} (idle : c.Idle) (plain : Plain c)
    (ownListed : c.ownID ∈ c.agentBlacklist) (spaceOwnID : c.spaceOwnID = c.ownID)
    (unknown : c.getVariable x = none) : Writing x c := by
  refine ⟨⟨idle_queued idle, ?_, ?_⟩, plain, ownListed, spaceOwnID, ?_, ?_⟩
  · simp [idle.history]
  · simp [unknown]
  · simp [idle.history]
  · simp [registerAt, unknown]

/-- In every run with a single writer the writer holds the value of its last call, after the
first one and in every state, exactly if this value survives every report. -/
theorem no_lost_update (idle : (start.agents writer).Idle) (plain : Plain (start.agents writer))
    (ownListed : (start.agents writer).ownID ∈ (start.agents writer).agentBlacklist)
    (spaceOwnID : (start.agents writer).spaceOwnID = (start.agents writer).ownID)
    (unknown : (start.agents writer).getVariable x = none) (run : start.Runs trace s)
    (allowed : ∀ p ∈ trace, OnlyWriter x writer p.1 p.2) :
    ((∀ before p, before ++ [p] <+: trace →
        ValueKept x (localTrace writer before) (p.1.agents writer)) ∧
      ValueKept x (localTrace writer trace) (s.agents writer)) ↔
      ∀ before p, before ++ [p] <+: trace →
        (lastDistributed x (localTrace writer before)).isSome →
          ∀ l ∈ localEvent writer p.2, Survives x (p.1.agents writer) l.2 := by
  have init := writing_init idle plain ownListed spaceOwnID unknown
  refine @Run.throughout_iff System System.Event System.Next start s trace (OnlyWriter x writer)
    (fun trace s => ValueKept x (localTrace writer trace) (s.agents writer))
    (fun trace s e => (lastDistributed x (localTrace writer trace)).isSome →
      ∀ l ∈ localEvent writer e, Survives x (s.agents writer) l.2)
    ?_ run allowed (fun _ none => nomatch none)
  intro trace s e s' run all here next kept
  have step := system_next next writer
  have before := writing_run run all init
  rw [localTrace_append]
  cases event : localEvent writer e with
  | none =>
    rw [event] at step
    simp only [Option.map_none, Option.toList_none, List.append_nil, step]
    exact ⟨fun _ _ _ none => (nomatch none), fun _ => kept⟩
  | some l =>
    rw [event] at step
    rw [Option.map_some, Option.toList_some,
      valueKept_step before (writesAlone_of_onlyWriter here event) step kept]
    simp

end Systems

instance (x : Name) (trace : List (Cace × Readings × Cace.Event)) (c : Cace) :
    Decidable (ValueKept x trace c) :=
  inferInstanceAs (Decidable (∀ last ∈ lastDistributed x trace, ownValue c x = some last.1))

/-- Commands and acknowledges of a default level belong to the handshakes. -/
theorem handshake_command {x : Name} {m : CaceCommand}
    (default : AcceptStrategy.acceptFunction ⟨m.level⟩ = .default) : Handshake x (.command m) :=
  ⟨⟨fun _ same => (nomatch same), fun _ _ _ _ level => Option.some.inj level ▸ default⟩,
    fun _ same => nomatch same⟩

theorem handshake_acknowledge (x : Name) (m : CaceAcknowledge) : Handshake x (.acknowledge m) :=
  ⟨⟨fun _ same => (nomatch same), fun _ _ _ _ level => nomatch level⟩, fun _ same => nomatch same⟩

/-- The handshake of one call. -/
theorem no_lost_update_handshake : ∃ trace s,
    (newSystem [1, 2]).play
      [.call 1 .zero (.distributeValue ['x'] [7] 0 .threeWayHandShake),
        .deliver 2 .zero (.command ⟨1, [0], ['x'], [7], 0, longMax, 70, 101, 2, 0⟩),
        .deliver 1 .zero (.acknowledge ⟨2, [0], ['x'], [7], 101, 3, 0⟩)] = some (trace, s) ∧
      ∀ before p, before ++ [p] <+: trace →
        (lastDistributed ['x'] (localTrace 1 before)).isSome →
          ∀ l ∈ localEvent 1 p.2, Survives ['x'] (p.1.agents 1) l.2 := by
  have played : (newSystem [1, 2]).play
      [.call 1 .zero (.distributeValue ['x'] [7] 0 .threeWayHandShake),
        .deliver 2 .zero (.command ⟨1, [0], ['x'], [7], 0, longMax, 70, 101, 2, 0⟩),
        .deliver 1 .zero (.acknowledge ⟨2, [0], ['x'], [7], 101, 3, 0⟩)] = some _ := rfl
  obtain ⟨run, events⟩ := System.play_runs played
  refine ⟨_, _, played, (no_lost_update (newSystem_idle [1, 2] 1 (by simp))
    (newSystem_plain [1, 2] 1 (by simp)) (by decide) rfl rfl run ?_).mp ⟨?_, by decide⟩⟩
  · refine allowed_of_events events fun e member s => ?_
    simp only [List.mem_cons, List.not_mem_nil, or_false] at member
    rcases member with rfl | rfl | rfl
    · exact fun _ => .inr rfl
    · exact handshake_command rfl
    · exact handshake_acknowledge _ _
  · refine forall_steps_cons.mpr ⟨by decide, forall_steps_cons.mpr ⟨by decide,
      forall_steps_cons.mpr ⟨by decide, by simp⟩⟩⟩

/-- Two calls before the acknowledge of the first one arrives: the acknowledge carries the
clock of agent 2, which the command has raised above the age of the second call. -/
theorem no_lost_update_reverted : ∃ trace s,
    (newSystem [1, 2]).play
      [.call 1 .zero (.distributeValue ['x'] [7] 0 .threeWayHandShake),
        .call 1 .zero (.distributeValue ['x'] [8] 0 .threeWayHandShake),
        .deliver 2 .zero (.command ⟨1, [0], ['x'], [7], 0, longMax, 70, 101, 2, 0⟩),
        .deliver 1 .zero (.acknowledge ⟨2, [0], ['x'], [7], 101, 3, 0⟩)] = some (trace, s) ∧
      (∀ id ∈ [1, 2], ((newSystem [1, 2]).agents id).Idle) ∧
      (∀ id ∈ [1, 2], Plain ((newSystem [1, 2]).agents id)) ∧
      (∀ id ∈ [1, 2], ((newSystem [1, 2]).agents id).getVariable ['x'] = none) ∧
      (∀ p ∈ trace, OnlyWriter ['x'] 1 p.1 p.2) ∧
      lastDistributed ['x'] (localTrace 1 trace) = some ([8], 2) ∧
      ownValue (s.agents 1) ['x'] = some [7] ∧
      ¬ ValueKept ['x'] (localTrace 1 trace) (s.agents 1) := by
  have played : (newSystem [1, 2]).play
      [.call 1 .zero (.distributeValue ['x'] [7] 0 .threeWayHandShake),
        .call 1 .zero (.distributeValue ['x'] [8] 0 .threeWayHandShake),
        .deliver 2 .zero (.command ⟨1, [0], ['x'], [7], 0, longMax, 70, 101, 2, 0⟩),
        .deliver 1 .zero (.acknowledge ⟨2, [0], ['x'], [7], 101, 3, 0⟩)] = some _ := rfl
  obtain ⟨-, events⟩ := System.play_runs played
  refine ⟨_, _, played, newSystem_idle [1, 2], newSystem_plain [1, 2], fun _ _ => rfl, ?_,
    by decide, by decide, by decide⟩
  refine allowed_of_events events fun e member s => ?_
  simp only [List.mem_cons, List.not_mem_nil, or_false] at member
  rcases member with rfl | rfl | rfl | rfl
  · exact fun _ => .inr rfl
  · exact fun _ => .inr rfl
  · exact handshake_command rfl
  · exact handshake_acknowledge _ _

end CaceProofs.Guarantees
