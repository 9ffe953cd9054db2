import CaceProofs.Guarantees.Provenance

/-!
# The write handshake

A write is acknowledged on the channel of the short acknowledges. The queue that WriteJob
drains stays empty, and the job waits for its target until its retries are used up.
-/
namespace CaceProofs.Guarantees
open Source Library

section Waiting

variable {r : Readings} {may : Licence} {c c' : Cace}

/-- No write acknowledge has arrived. -/
def NoWriteAcks (c : Cace) : Prop :=
  ∀ sa, .received (.writeAck sa) ∉ c.history

/-- Without write acknowledges nothing is there to be drained. -/
theorem NoWriteAcks.queue (none : NoWriteAcks c) (queued : c.Queued) :
    c.writeAcknowledges = [] := by
  refine List.eq_nil_iff_forall_not_mem.mpr fun sa member => none sa (queued.received _ ?_)
  exact mem_held.mpr (.inr (.inr (.inr (.inl ⟨sa, member, rfl⟩))))

theorem NoWriteAcks.job (none : NoWriteAcks c) (queued : c.Queued) {j : WriteJob}
    (member : .write j ∈ c.jobs) : j.acks = [] := by
  refine List.eq_nil_iff_forall_not_mem.mpr fun sa acked => none sa (queued.received _ ?_)
  exact mem_held.mpr (.inr (.inr (.inr (.inr ⟨_, member, List.mem_map_of_mem acked⟩))))

/-- `process()` of a write job that has no acknowledge. -/
theorem writeJob_waits {j : WriteJob} {target : Int} (drained : c.writeAcknowledges = [])
    (acks : j.acks = []) (waits : j.expectedRobotIDs = [target]) :
    ∃ p, j.process r c = .ok p ∧ p.2.1.expectedRobotIDs = [target] := by
  unfold WriteJob.process Cace.getWriteAcknowledgesAndRemove
  simp only [drained, acks, waits, List.filter_nil, List.append_nil, List.length_singleton,
    WriteJob.eraseAcknowledged, WriteJob.scanAcks]
  exact ⟨_, rfl, rfl⟩

/-- Every write job waits for its target. -/
structure Unanswered (c : Cace) : Prop where
  queued : c.Queued
  none : NoWriteAcks c
  published : ∀ sa t, .published (.writeAck sa) t ∉ c.history
  waits : ∀ j, .write j ∈ c.jobs → ∃ target, j.expectedRobotIDs = [target]

theorem Unanswered.effect (effect : Effect r may c c')
    (silent : ∀ sa, ¬ may.receives (.writeAck sa)) (before : Unanswered c) : Unanswered c' := by
  refine ⟨effect.queued before.queued, fun sa received => ?_, fun sa t published => ?_,
    fun j member => ?_⟩
  · rcases effect.received received with old | ⟨-, heard, -⟩
    · exact before.none sa old
    · exact silent sa heard
  · rcases effect.published published with old | ⟨d, -, -, ⟨-, content⟩ | ⟨-, job, -, content, -⟩⟩
    · exact before.published sa _ old
    · cases content
    · cases content
  · cases effect.jobs member with
    | kept old => exact before.waits j old
    | processed old d d' finished k there earlier done =>
      cases old with
      | write old =>
        obtain ⟨target, waits⟩ := before.waits old there
        have none : NoWriteAcks d := fun sa received =>
          before.none sa (earlier.history.subset received)
        obtain ⟨p, success, still⟩ :=
          @writeJob_waits (r.forJob k) d old target (none.queue earlier.queued)
            (before.none.job before.queued there) waits
        simp only [Job.process, success] at done
        cases done
        exact ⟨target, still⟩
      | command | commandAcknowledge | believeNotification | believeAcknowledge | shortAck
      | writeAck | request => cases done
    | created d d' earlier made later =>
      cases made with
      | write => exact ⟨_, rfl⟩

theorem Unanswered.path (path : Path r may c c') (silent : ∀ sa, ¬ may.receives (.writeAck sa))
    (before : Unanswered c) : Unanswered c' :=
  preserved_by_steps (fun _ _ effect => .effect effect silent) path before

end Waiting

section System

variable {start s : System} {trace : List (System × System.Event)}

/-- No agent publishes a write acknowledge, so no agent gets one. -/
theorem courier_silent (traced : Traced s) (unanswered : ∀ id, Unanswered (s.agents id)) (id : Int)
    (sa : CaceShortAck) : ¬ (courier s id).receives (.writeAck sa) := by
  rintro ⟨sent, inFlight, same⟩
  obtain ⟨i, -, -, t, published⟩ := traced.inFlight id sent inFlight
  cases sent with
  | writeAck sa' => exact (unanswered i).published sa' t published
  | command | acknowledge | shortAck | believeNotification | time | variableRequest | write
  | response => cases same

/-- No write acknowledge anywhere. -/
structure Silent (s : System) : Prop where
  traced : Traced s
  agents : ∀ id, Unanswered (s.agents id)

theorem Silent.step {s' : System} {e : System.Event} (before : Silent s) (next : s.Next e s') :
    Silent s' := by
  refine ⟨before.traced.step next, fun id => ?_⟩
  obtain ⟨r, path⟩ := system_path next id (before.traced.queued id)
  exact .path path (courier_silent before.traced before.agents id) (before.agents id)

theorem Quiescent.silent (quiescent : Quiescent s) : Silent s where
  traced := quiescent.traced
  agents id :=
    have idle := quiescent.idle id
    ⟨idle_queued idle, fun sa => by simp [idle.history], fun sa t => by simp [idle.history],
      fun j => by simp [idle.jobs]⟩

theorem silent (quiescent : Quiescent start) (run : start.Runs trace s) : Silent s :=
  run.preserves (fun _ _ _ (_ : True) next before => before.step next) (fun _ _ => trivial)
    quiescent.silent

/-- Whatever the target of a write and everyone else have sent and the writer has handled,
`process()` of the job leaves the target among the expected robots. -/
theorem write_never_answered (quiescent : Quiescent start) (run : start.Runs trace s) {id : Int}
    {r : Readings} {c : Cace} (moment : Path r (courier s id) (s.agents id) c) {j : WriteJob}
    (member : .write j ∈ c.jobs) (r' : Readings) :
    ∃ target p, j.process r' c = .ok p ∧ p.2.1.expectedRobotIDs = [target] := by
  have all := silent quiescent run
  have now := Unanswered.path moment (courier_silent all.traced all.agents id) (all.agents id)
  obtain ⟨target, waits⟩ := now.waits j member
  exact ⟨target, writeJob_waits (now.none.queue now.queued) (now.none.job now.queued member) waits⟩

/-- A variable as an application fills it. -/
def filled (name : Name) (value : Bytes) : ConsensusVariable :=
  { (Believe.construct name .threeWayHandShake longMax 1 0 1 0).setValue value with
    proposals := [] }

/-- Agent 1 writes to agent 2, which handles the write, and agent 1 its answer. -/
def handshake : List System.Event :=
  [.call 1 .zero (.addVariable (filled ['x'] [7]) false),
    .call 1 .zero (.writeVariable (.stored ['x']) 2),
    .deliver 2 .zero (.write ⟨1, [2], ['x'], [7], 0, longMax, 70, 101, 2, 0⟩),
    .deliver 1 .zero (.shortAck ⟨2, [1], ['x'], 101, 4⟩)]

/-- In the handshake nothing is lost, and the job waits all the same. -/
theorem write_never_answered_waits : ∃ trace s j target p,
    (newSystem [1, 2]).play handshake = some (trace, s) ∧ (s.agents 1).jobs = [.write j] ∧
      j.process .zero (s.agents 1) = .ok p ∧ p.2.1.expectedRobotIDs = [target] := by
  have played : (newSystem [1, 2]).play handshake = some _ := rfl
  obtain ⟨run, -⟩ := System.play_runs played
  obtain ⟨target, p, success, waits⟩ := @write_never_answered _ _ _ (newSystem_quiescent [1, 2])
    run 1 .zero _ .refl _ (List.mem_singleton_self _) .zero
  exact ⟨_, _, _, target, p, played, rfl, success, waits⟩

/-- All messages of the handshake have been handled and the value has been written, but the
next `process()` neither returns true nor clears the expected robots. -/
theorem write_never_answered_handshake : ∃ trace s j p,
    (newSystem [1, 2]).play handshake = some (trace, s) ∧ s.flight = [] ∧
      ((s.agents 2).getVariable ['x']).map (·.val) = some [7] ∧ (s.agents 1).jobs = [.write j] ∧
      j.process .zero (s.agents 1) = .ok p ∧
      ¬ (p.2.2 = true ∧ p.2.1.expectedRobotIDs = []) :=
  ⟨_, _, _, _, rfl, by decide, by decide, rfl, rfl, by decide⟩

end System

end CaceProofs.Guarantees
