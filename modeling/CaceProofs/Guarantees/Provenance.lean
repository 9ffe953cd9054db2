import CaceProofs.Guarantees.StrictStamps

/-!
# Where messages come from

What an agent of a system receives, another agent has published. An invariant of what the
agents publish is therefore one of what they receive.
-/
namespace CaceProofs.Guarantees
open Source Library

section Agent

variable {r : Readings} {may : Licence} {c c' : Cace}

/-- What is received on a path is within the licence. -/
theorem Path.received {m : Message} (path : Path r may c c') (new : .received m ∈ c'.history) :
    .received m ∈ c.history ∨ may.receives m := by
  induction path with
  | refl => exact .inl new
  | tail _ effect ih =>
    rcases effect.received new with old | ⟨-, heard, -⟩
    · exact ih old
    · exact .inr heard

/-- An event receives nothing but the message it handles. -/
theorem exec_hears {receives : Message → Prop} {e : Cace.Event} (queued : c.Queued)
    (hears : ∀ m, e = .handle m → receives (heard c m)) (success : c.exec r e = .ok c') :
    Path r { receives := receives } c c' := by
  refine exec_path queued ?_ success
  cases e with
  | handle m => exact ⟨hears m rfl, fun _ => trivial, fun _ _ _ => trivial⟩
  | distributeVariable => exact .inl trivial
  | step => exact ⟨fun _ _ => trivial, fun _ _ _ _ _ => trivial, fun _ _ => trivial, trivial⟩
  | distributeValue | addVariable | writeVariable | requestVariable | pNoBlock | v
  | agentEngangement => exact trivial

/-- The jobs after an effect. -/
theorem Effect.jobs {job : Job} (effect : Effect r may c c') (member : job ∈ c'.jobs) :
    Continues r may c job := by
  have same : c'.jobs = c.jobs → Continues r may c job := fun same => .kept (same ▸ member)
  cases effect with
  | queue held noCommands jobs => exact jobs job member
  | receive => exact same (by unfold Cace.receive; split <;> rfl)
  | apply => exact same (by rw [updateVariable_frame])
  | write => exact same (by rw [writeUpdate_frame])
  | decide => exact same (by rw [decideValue_frame])
  | insert => exact same (by rw [insertVariable_frame])
  | tick | send | acknowledge | resend | overwrite | engage | invalidate => exact same rfl

/-- The variable that a job announces is a stored one or one that the application passed. -/
def Presents (may : Licence) : Job → Prop
  | .command j => Pointed may j.variablePtr
  | .believeNotification j => Pointed may j.variablePtr
  | .commandAcknowledge _ | .believeAcknowledge _ | .shortAck _ | .write _ | .writeAck _
  | .request _ => True

theorem Effect.presents (effect : Effect r may c c') (before : ∀ job ∈ c.jobs, Presents may job)
    {job : Job} (member : job ∈ c'.jobs) : Presents may job := by
  cases effect.jobs member with
  | kept old => exact before job old
  | processed old d d' finished k there earlier done =>
    have presents := before old there
    cases old with
    | command | believeNotification => cases done; exact presents
    | commandAcknowledge | believeAcknowledge | shortAck | writeAck | request =>
      cases done
      trivial
    | write old =>
      simp only [Job.process] at done
      split at done
      · cases done
        trivial
      · cases done
  | created d d' earlier made later =>
    cases made with
    | command variablePtr pointed =>
      unfold CommandJob.construct
      dsimp only
      split <;> exact pointed
    | believeNotification name =>
      unfold BelieveNotificationJob.construct
      dsimp only
      split <;> trivial
    | commandAcknowledge | believeAcknowledge | shortAck | write | writeAck | request => trivial

/-- The queued short acknowledges after an effect. -/
theorem Effect.shortAcks {sa : CaceShortAck} (effect : Effect r may c c')
    (member : sa ∈ c'.shortAcks) : sa ∈ c.shortAcks ∨ c.addressed sa.receiverID = true := by
  have same : c'.shortAcks = c.shortAcks → sa ∈ c.shortAcks ∨ c.addressed sa.receiverID = true :=
    fun same => .inl (same ▸ member)
  cases effect with
  | queue held noCommands jobs answers => exact answers sa member
  | receive => exact same (by unfold Cace.receive; split <;> rfl)
  | apply => exact same (by rw [updateVariable_frame])
  | write => exact same (by rw [writeUpdate_frame])
  | decide => exact same (by rw [decideValue_frame])
  | insert => exact same (by rw [insertVariable_frame])
  | tick | send | acknowledge | resend | overwrite | engage | invalidate => exact same rfl

/-- What an effect publishes, it publishes last, and with a content that the state before it
gives the message. -/
theorem Effect.published {m : Message} {transmission : Transmission} (effect : Effect r may c c')
    (new : .published m transmission ∈ c'.history) :
    .published m transmission ∈ c.history ∨
      ∃ d, (d = c ∨ d = c.tickLamportTime) ∧ c' = d.publish m transmission ∧
        ((transmission = .first ∧ Sent may c d.lamportTime.time m) ∨
          (transmission = .again ∧ ∃ job ∈ c.jobs, Resent c job m ∧
            ∀ j, job = .command j → may.repeats c j)) := by
  have silent : c'.history = c.history → .published m transmission ∈ c.history := fun same =>
    same ▸ new
  cases effect with
  | @send m' stamped content =>
    rcases List.mem_append.mp new with old | last
    · exact .inl old
    · obtain ⟨rfl, rfl⟩ : m = m' ∧ transmission = .first := by simpa using last
      exact .inr ⟨_, .inr rfl, rfl, .inl ⟨rfl, content⟩⟩
  | @acknowledge m' allowed stamped content =>
    rcases List.mem_append.mp new with old | last
    · exact .inl old
    · obtain ⟨rfl, rfl⟩ : m = m' ∧ transmission = .first := by simpa using last
      exact .inr ⟨_, .inl rfl, rfl, .inl ⟨rfl, content⟩⟩
  | @resend m' job member content allowed =>
    rcases List.mem_append.mp new with old | last
    · exact .inl old
    · obtain ⟨rfl, rfl⟩ : m = m' ∧ transmission = .again := by simpa using last
      exact .inr ⟨_, .inl rfl, rfl, .inr ⟨rfl, job, member, content, allowed⟩⟩
  | @receive m' =>
    rw [receive_history] at new
    exact .inl (by simpa using new)
  | apply u =>
    obtain ⟨seen, equal, notified⟩ := updateVariable_history c u
    rw [equal] at new
    rcases List.mem_append.mp new with old | later
    · exact .inl old
    · rcases List.mem_cons.mp later with applied | rest
      · cases applied
      · cases notified _ rest
  | write cmd =>
    obtain ⟨seen, equal, notified⟩ := writeUpdate_history r c cmd
    rw [equal] at new
    rcases List.mem_append.mp new with old | later
    · exact .inl old
    · rcases List.mem_cons.mp later with applied | rest
      · cases applied
      · cases notified _ rest
  | decide => exact .inl (silent (by rw [decideValue_frame]))
  | insert => exact .inl (silent (by rw [insertVariable_frame]))
  | tick | overwrite | engage | invalidate | queue => exact .inl (silent rfl)

/-- A message is applied by its own update only. -/
theorem Effect.applied {m : Message} (effect : Effect r may c c')
    (new : .applied m ∈ c'.history) :
    .applied m ∈ c.history ∨ (∃ u : ProposalUpdate, m = u.message ∧ c' = c.updateVariable u) ∨
      ∃ w, m = .write w ∧ c' = WriteAckJob.doVariableUpdate r c w := by
  have silent : c'.history = c.history → .applied m ∈ c.history := fun same => same ▸ new
  have appended : ∀ o, c'.history = c.history ++ [o] → o ≠ .applied m →
      .applied m ∈ c.history := by
    intro o history other
    rw [history] at new
    rcases List.mem_append.mp new with old | last
    · exact old
    · exact absurd (List.mem_singleton.mp last).symm other
  cases effect with
  | @receive m' => exact .inl (appended _ (receive_history c m') (by simp))
  | send | acknowledge | resend => exact .inl (appended _ rfl (by simp))
  | apply u =>
    obtain ⟨seen, history, notified⟩ := updateVariable_history c u
    rw [history] at new
    rcases List.mem_append.mp new with old | later
    · exact .inl old
    · rcases List.mem_cons.mp later with applied | rest
      · exact .inr (.inl ⟨u, Observation.applied.inj applied, rfl⟩)
      · cases notified _ rest
  | write w =>
    obtain ⟨seen, history, notified⟩ := writeUpdate_history r c w
    rw [history] at new
    rcases List.mem_append.mp new with old | later
    · exact .inl old
    · rcases List.mem_cons.mp later with applied | rest
      · exact .inr (.inr ⟨w, Observation.applied.inj applied, rfl⟩)
      · cases notified _ rest
  | decide => exact .inl (silent (by rw [decideValue_frame]))
  | insert => exact .inl (silent (by rw [insertVariable_frame]))
  | tick | overwrite | engage | invalidate | queue => exact .inl (silent rfl)

/-- No effect takes a variable away. -/
theorem Effect.known {x : Name} (effect : Effect r may c c') (known : c.getVariable x ≠ none) :
    c'.getVariable x ≠ none := by
  have kept : c'.store = c.store → c'.getVariable x ≠ none := by
    intro same
    rwa [Cace.getVariable, same]
  cases effect with
  | receive => exact kept (receive_store c _)
  | apply u =>
    rw [getVariable_updateVariable]
    split
    · exact Option.some_ne_none _
    · exact known
  | write cmd =>
    rw [getVariable_write]
    split
    · exact Option.some_ne_none _
    · exact known
  | decide name value type strategy =>
    rw [getVariable_decideValue]
    split
    · exact Option.some_ne_none _
    · exact known
  | insert =>
    rw [getVariable_insertVariable]
    split
    · exact Option.some_ne_none _
    · exact known
  | overwrite given stored =>
    rw [getVariable_setVariable]
    split
    next here => simpa [← here] using known
    next => exact known
  | invalidate t =>
    rw [getVariable_invalidate]
    simpa using known
  | tick | send | acknowledge | resend | engage | queue => exact kept rfl

/-- A variable that a report has updated is stored. -/
def KnowsReported (c : Cace) : Prop :=
  ∀ m report, .applied m ∈ c.history → m.report? = some report →
    c.getVariable report.variableName ≠ none

theorem KnowsReported.effect (effect : Effect r may c c') (before : KnowsReported c) :
    KnowsReported c' := by
  intro m report applied reports
  rcases effect.applied applied with old | ⟨u, rfl, rfl⟩ | ⟨w, rfl, -⟩
  · exact effect.known (before m report old reports)
  · obtain rfl := Option.some.inj (u.message_report.symm.trans reports)
    rw [getVariable_updateVariable, if_pos rfl]
    exact Option.some_ne_none _
  · cases reports

theorem handshake_distributed {strategy : AcceptStrategy}
    (level : .fireAndForget < strategy) : .noDistribution < strategy := by
  have above : (10 : Int) < strategy.code := level
  change (0 : Int) < strategy.code
  omega

/-- A published command or notification says of the variable that a pointer of the agent reads
what it is. -/
theorem Effect.tells {m : Message} {transmission : Transmission} {report : Report}
    {strategy : AcceptStrategy} (effect : Effect r may c c')
    (presents : ∀ job ∈ c.jobs, Presents may job)
    (new : .published m transmission ∈ c'.history) (reports : m.report? = some report)
    (level : m.strategy? = some strategy) :
    .published m transmission ∈ c.history ∨
      ∃ variablePtr, Pointed may variablePtr ∧ .noDistribution < (c.deref variablePtr).strategy ∧
        (c.deref variablePtr).name = report.variableName ∧
        strategy = ⟨toShort (c.deref variablePtr).strategy.code⟩ ∧
        m.decissionTime? = some (c.deref variablePtr).decissionTime := by
  have filled : ∀ variablePtr, Pointed may variablePtr →
      .noDistribution < (c.deref variablePtr).strategy →
      m.report?.map Report.variableName = some (c.deref variablePtr).name →
      m.strategy? = some ⟨toShort (c.deref variablePtr).strategy.code⟩ →
      m.decissionTime? = some (c.deref variablePtr).decissionTime →
      ∃ variablePtr, Pointed may variablePtr ∧ .noDistribution < (c.deref variablePtr).strategy ∧
        (c.deref variablePtr).name = report.variableName ∧
        strategy = ⟨toShort (c.deref variablePtr).strategy.code⟩ ∧
        m.decissionTime? = some (c.deref variablePtr).decissionTime := by
    intro variablePtr pointed distributed named carried time
    rw [reports] at named
    exact ⟨variablePtr, pointed, distributed, (Option.some.inj named).symm,
      Option.some.inj (level.symm.trans carried), time⟩
  rcases effect.published new with
    old | ⟨d, moment, -, ⟨-, content⟩ | ⟨-, job, member, content, -⟩⟩
  · exact .inl old
  · right
    cases content with
    | command variablePtr pointed distributed =>
      exact filled variablePtr pointed distributed rfl rfl rfl
    | notification name receiver msgID distributed =>
      exact filled (.stored name) trivial distributed rfl rfl rfl
    | acknowledge | answer | shortAck | writeAck | write | request | response => cases level
  · right
    have pointed := presents job member
    cases content with
    | command j i shaken =>
      exact filled j.variablePtr pointed (handshake_distributed shaken) rfl rfl rfl
    | notification j i shaken =>
      exact filled j.variablePtr pointed (handshake_distributed shaken) rfl rfl rfl
    | acknowledge | answer | write | request => cases level

/-- The later moments of an agent. -/
abbrev Leads : Cace → Cace → Prop :=
  Relation.ReflTransGen fun c c' => ∃ r may, Effect r may c c'

theorem Path.leads (path : Path r may c c') : Leads c c' :=
  Relation.ReflTransGen.mono (fun _ _ effect => ⟨r, may, effect⟩) _ _ path

theorem Leads.config (leads : Leads c c') : Guarantees.config c' = Guarantees.config c := by
  induction leads with
  | refl => rfl
  | tail _ effect ih =>
    obtain ⟨r, may, effect⟩ := effect
    exact effect.config.trans ih

theorem Leads.history (leads : Leads c c') : c.history <+: c'.history := by
  induction leads with
  | refl => exact List.prefix_rfl
  | tail _ effect ih =>
    obtain ⟨r, may, effect⟩ := effect
    exact ih.trans effect.history

theorem Leads.queued (leads : Leads c c') (queued : c.Queued) : c'.Queued := by
  induction leads with
  | refl => exact queued
  | tail _ effect ih =>
    obtain ⟨r, may, effect⟩ := effect
    exact effect.queued ih

/-- A run of an agent leads from its start to its end. -/
theorem runs_leads {start : Cace} {trace : List (Cace × Readings × Cace.Event)}
    (queued : start.Queued) (run : start.Runs trace c) : Leads start c := by
  refine run.preserves (fun d e d' (_ : True) next before => ?_) (fun _ _ => trivial) .refl
  have path : Path e.1 {} d d' := exec_path_any (before.queued queued) next
  exact before.trans path.leads

end Agent

section System

variable {s s' : System}

/-- Only what is in flight to an agent reaches it. -/
def courier (s : System) (id : Int) : Licence where
  receives m := ∃ sent, (id, sent) ∈ s.flight ∧ m = heard (s.agents id) sent

/-- What an agent handles is in flight to it. -/
theorem local_flight {e : System.Event} (next : s.Next e s') {id : Int} {r : Readings}
    {m : Message} (event : localEvent id e = some (r, .handle m)) : (id, m) ∈ s.flight := by
  unfold System.Next System.exec at next
  cases e with
  | call i r' e =>
    obtain ⟨-, -, rfl⟩ : i = id ∧ r' = r ∧ e = .handle m := by
      simpa [localEvent] using event
    simp at next
  | deliver i r' m' | duplicate i r' m' =>
    obtain ⟨rfl, -, rfl⟩ : i = id ∧ r' = r ∧ m' = m := by
      simpa [localEvent] using event
    dsimp only at next
    split at next
    next inFlight => exact inFlight
    next => cases next
  | lose => cases event

/-- What an event of the system does to one agent. -/
theorem system_path {e : System.Event} (next : s.Next e s') (id : Int)
    (queued : (s.agents id).Queued) :
    ∃ r, Path r (courier s id) (s.agents id) (s'.agents id) := by
  have step := system_next next id
  cases event : localEvent id e with
  | none =>
    rw [event] at step
    exact ⟨.zero, by rw [step]⟩
  | some l =>
    rw [event] at step
    obtain ⟨r, l⟩ := l
    refine ⟨r, exec_hears queued ?_ step⟩
    rintro m rfl
    exact ⟨m, local_flight next event, rfl⟩

theorem system_ids {e : System.Event} (next : s.Next e s') : s'.ids = s.ids := by
  unfold System.Next System.exec at next
  cases e with
  | call =>
    dsimp only at next
    split at next
    · split at next
      · cases next
      · split at next
        · rw [← Option.some.inj next]; rfl
        · cases next
    · cases next
  | deliver | duplicate =>
    dsimp only at next
    split at next
    · rw [← Option.some.inj next]; rfl
    · cases next
  | lose =>
    dsimp only at next
    split at next
    · rw [← Option.some.inj next]
    · cases next

/-- What is new in flight after a commit, the agent has published. -/
theorem commit_flight {i id : Int} {c : Cace} {m : Message}
    (inFlight : (id, m) ∈ (s.commit i c).flight) :
    (id, m) ∈ s.flight ∨
      id ∈ s.ids ∧ i ≠ id ∧ ∃ t, .published m t ∈ ((s.commit i c).agents i).history := by
  rcases List.mem_append.mp inFlight with old | new
  · exact .inl old
  · obtain ⟨m', published, copies⟩ := List.mem_flatMap.mp new
    obtain ⟨j, others, same⟩ := List.mem_map.mp copies
    obtain ⟨rfl, rfl⟩ : j = id ∧ m' = m := by simpa using same
    obtain ⟨known, differs⟩ := List.mem_filter.mp others
    obtain ⟨o, inHistory, message⟩ := List.mem_filterMap.mp published
    have later := List.mem_of_mem_drop inHistory
    refine .inr ⟨known, fun here => by simp [here] at differs, ?_⟩
    cases o with
    | published m'' transmission =>
      obtain rfl := Option.some.inj message
      exact ⟨transmission, by simpa [System.commit] using later⟩
    | received | applied | notified => cases message

/-- What is published on the way to a commit, every other agent is sent. -/
theorem commit_sends {i id : Int} {c : Cace} {m : Message} {t : Transmission}
    {later : List Observation} (history : c.history = (s.agents i).history ++ later)
    (new : .published m t ∈ later) (member : id ∈ s.ids) (other : id ≠ i) :
    (id, m) ∈ (s.commit i c).flight := by
  refine List.mem_append_right _ (List.mem_flatMap.mpr ⟨m, ?_, ?_⟩)
  · refine List.mem_filterMap.mpr ⟨.published m t, ?_, rfl⟩
    rw [history, List.drop_left]
    exact new
  · exact List.mem_map.mpr ⟨id, List.mem_filter.mpr ⟨member, by simpa using other⟩, rfl⟩

/-- Only the agents of the system are sent anything. -/
def Routed (s : System) : Prop :=
  ∀ p ∈ s.flight, p.1 ∈ s.ids

/-- The messages in flight are those of before and those that another agent has published. -/
theorem system_flight {e : System.Event} {id : Int} {m : Message} (routed : Routed s)
    (next : s.Next e s') (inFlight : (id, m) ∈ s'.flight) :
    (id, m) ∈ s.flight ∨
      id ∈ s.ids ∧ ∃ i ∈ s.ids, i ≠ id ∧ ∃ t, .published m t ∈ (s'.agents i).history := by
  unfold System.Next System.exec at next
  cases e with
  | call i r e =>
    dsimp only at next
    split at next
    next member =>
      split at next
      · cases next
      · split at next
        next c done =>
          obtain rfl := Option.some.inj next
          exact (commit_flight inFlight).imp_right fun ⟨known, other, published⟩ =>
            ⟨known, i, member, other, published⟩
        next => cases next
    next => cases next
  | deliver i r m' =>
    dsimp only at next
    split at next
    next there =>
      obtain rfl := Option.some.inj next
      rcases commit_flight inFlight with old | ⟨known, other, published⟩
      · exact .inl (List.mem_of_mem_erase old)
      · exact .inr ⟨known, i, routed _ there, other, published⟩
    next => cases next
  | duplicate i r m' =>
    dsimp only at next
    split at next
    next there =>
      obtain rfl := Option.some.inj next
      exact (commit_flight inFlight).imp_right fun ⟨known, other, published⟩ =>
        ⟨known, i, routed _ there, other, published⟩
    next => cases next
  | lose i m' =>
    dsimp only at next
    split at next
    · obtain rfl := Option.some.inj next
      exact .inl (List.mem_of_mem_erase inFlight)
    · cases next

/-- Another agent of the system has published the message. -/
def FromOther (s : System) (id : Int) (m : Message) : Prop :=
  ∃ i ∈ s.ids, i ≠ id ∧ ∃ t, .published m t ∈ (s.agents i).history

/-- What is in flight to an agent, and what it has received, comes from another one. -/
structure Traced (s : System) : Prop where
  queued : ∀ id, (s.agents id).Queued
  routed : Routed s
  inFlight : ∀ id m, (id, m) ∈ s.flight → FromOther s id m
  received : ∀ id m, .received m ∈ (s.agents id).history →
    ∃ c sent, m = heard c sent ∧ FromOther s id sent

theorem Traced.step {e : System.Event} (before : Traced s) (next : s.Next e s') : Traced s' := by
  have paths := fun id => system_path next id (before.queued id)
  have ids := system_ids next
  have stays : ∀ id m, FromOther s id m → FromOther s' id m := by
    rintro id m ⟨i, member, other, t, published⟩
    obtain ⟨r, path⟩ := paths i
    exact ⟨i, ids ▸ member, other, t, path.history.subset published⟩
  refine ⟨fun id => ?_, fun p member => ?_, fun id m inFlight => ?_, fun id m received => ?_⟩
  · obtain ⟨r, path⟩ := paths id
    exact path.queued (before.queued id)
  · rw [ids]
    rcases system_flight before.routed next member with old | ⟨known, -⟩
    · exact before.routed p old
    · exact known
  · rcases system_flight before.routed next inFlight with old | ⟨-, i, member, other, published⟩
    · exact stays id m (before.inFlight id m old)
    · exact ⟨i, ids ▸ member, other, published⟩
  · obtain ⟨r, path⟩ := paths id
    rcases path.received received with old | ⟨sent, inFlight, rfl⟩
    · obtain ⟨c, sent, same, other⟩ := before.received id m old
      exact ⟨c, sent, same, stays id sent other⟩
    · exact ⟨_, sent, rfl, stays id sent (before.inFlight id sent inFlight)⟩

/-- Agents with nothing queued, and nothing in flight. -/
structure Quiescent (s : System) : Prop where
  idle : ∀ id, (s.agents id).Idle
  flight : s.flight = []

theorem Quiescent.traced (start : Quiescent s) : Traced s where
  queued id := idle_queued (start.idle id)
  routed p member := by simp [start.flight] at member
  inFlight id m member := by simp [start.flight] at member
  received id m member := by simp [(start.idle id).history] at member

theorem newSystem_quiescent (ids : List Int) : Quiescent (newSystem ids) where
  idle id := (Cace.construct_fresh id false 10).toIdle
  flight := rfl

theorem Traced.runs {trace : List (System × System.Event)} (before : Traced s)
    (run : s.Runs trace s') : Traced s' :=
  run.preserves (fun _ _ _ (_ : True) next before => before.step next) (fun _ _ => trivial) before

/-- No clock of an agent runs backwards. -/
theorem Traced.clock {trace : List (System × System.Event)} (before : Traced s)
    (run : s.Runs trace s') (id : Int) :
    (s.agents id).lamportTime ≤ (s'.agents id).lamportTime := by
  induction run with
  | nil => exact le_refl _
  | @step trace d d' e run next ih =>
    obtain ⟨r, path⟩ := system_path next id ((before.runs run).queued id)
    exact le_trans ih path.clock

theorem traced {start : System} {trace : List (System × System.Event)}
    (quiescent : Quiescent start) (run : start.Runs trace s) : Traced s :=
  quiescent.traced.runs run

/-- What every effect keeps, each agent keeps in every run of the system. -/
theorem agents_keep {start : System} {trace : List (System × System.Event)} {Inv : Cace → Prop}
    (keeps : ∀ {r may c c'}, Effect r may c c' → Inv c → Inv c') (quiescent : Quiescent start)
    (init : ∀ c : Cace, c.Idle → Inv c) (run : start.Runs trace s) (id : Int) :
    Inv (s.agents id) := by
  refine run.carries (fun _ s => Inv (s.agents id)) (fun _ s e s' run (_ : True) next before => ?_)
    (fun _ _ => trivial) (init _ (quiescent.idle id))
  obtain ⟨r, path⟩ := system_path next id ((traced quiescent run).queued id)
  exact @preserved_by_steps _ _ Inv (fun _ _ effect => keeps effect) _ _ path before

end System

end CaceProofs.Guarantees
