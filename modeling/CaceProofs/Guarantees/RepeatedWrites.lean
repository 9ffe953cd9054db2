import CaceProofs.Guarantees.Retransmission
import CaceProofs.Guarantees.SingleWriter
import CaceProofs.Guarantees.WriteHandshake

/-!
# Repeated writes

A write that arrives once more is applied once more: WriteAckJob assigns the value whatever
the target has done with its variable since. Only a repetition that carries the value which the
target holds does no harm.
-/
namespace CaceProofs.Guarantees
open Source Library

section Target

variable {r : Readings} {c c' d d' : Cace} {x : Name}

/-- Two messages of one write job. -/
structure SameWrite (first second : CaceCommand) : Prop where
  senderID : first.senderID = second.senderID
  msgID : first.msgID = second.msgID
  variableName : first.variableName = second.variableName

/-- An event deals with a write between the states `d` and `d'`: the handler with the one that
arrives, and the loop of a step, once it has processed the jobs before, with the one that a job
holds. The flag says whether its update is due there. -/
inductive Serves (r : Readings) (c : Cace) :
    Cace.Event → Cace → Cace → CaceCommand → Bool → Prop
  | arrived (cmd : CaceCommand) :
      Serves r c (.handle (.write cmd)) c (c.handle r (.write cmd)) cmd
        (!c.isBlacklisted cmd.senderID && c.addressed cmd.receiverID && !c.safeStepMode)
  | deferred {d : Cace} {jobs later stay : List Job} (j : WriteAckJob)
      (listed : ((c.acceptCommands r).acceptNotifications r).jobs = jobs ++ .writeAck j :: later)
      (reached : ((c.acceptCommands r).acceptNotifications r).processJobsLoop r 0 jobs =
        .ok (d, stay)) :
      Serves r c .step d (j.process (r.forJob jobs.length) d).1 j.cmd
        (j.attempts == 0 && d.safeStepMode)

/-- The target has applied a write of the same job, and has distributed the variable itself
since. -/
def Settled (trace : List (Cace × Readings × Cace.Event)) (cmd : CaceCommand) : Prop :=
  ∃ q ∈ trace, (∃ value type strategy,
      q.2.2 = .distributeValue cmd.variableName value type strategy) ∧
    ∃ first, .applied (.write first) ∈ q.1.history ∧ SameWrite first cmd

theorem ownValue_eq_of_store (same : d.store = c.store) : ownValue d x = ownValue c x := by
  unfold ownValue Cace.getVariable
  rw [same]

/-- The assignment does not look at what is stored. -/
theorem ownValue_answer (r : Readings) (c : Cace) (cmd : CaceCommand) :
    ownValue (WriteAckJob.answer r c cmd) cmd.variableName = some cmd.value := by
  have sends : OnlySends (WriteAckJob.doVariableUpdate r c cmd) (WriteAckJob.answer r c cmd) :=
    send_onlySends _ _ _
  rw [ownValue_eq_of_store (congrArg Cace.store sends.frame), ownValue]
  change (Cace.getVariable (WriteAckJob.doVariableUpdate r c cmd) _).map _ = _
  rw [getVariable_write, if_pos rfl]
  cases c.getVariable cmd.variableName <;> rfl

/-- A due update assigns the value of the write, and any other changes nothing. -/
theorem ownValue_handleCaceWrite (r : Readings) (c : Cace) (cmd : CaceCommand) :
    ownValue (c.handle r (.write cmd)) cmd.variableName =
      if !c.isBlacklisted cmd.senderID && c.addressed cmd.receiverID && !c.safeStepMode
      then some cmd.value else ownValue c cmd.variableName := by
  have received := receive_store c (.write cmd)
  change ownValue (c.handleCaceWrite r cmd) cmd.variableName = _
  unfold Cace.handleCaceWrite
  cases listed : c.isBlacklisted cmd.senderID with
  | true => rfl
  | false =>
    have addressed : ((c.observe (.received (.write cmd))).updateLamportTime
        cmd.lamportTime).addressed cmd.receiverID = c.addressed cmd.receiverID := rfl
    simp only [Bool.false_eq_true, if_false, addressed]
    cases c.addressed cmd.receiverID with
    | false => exact ownValue_eq_of_store received
    | true =>
      unfold WriteAckJob.construct
      cases safe : c.safeStepMode with
      | true =>
        have mode : ((c.observe (.received (.write cmd))).updateLamportTime
            cmd.lamportTime).safeStepMode = true := safe
        simp only [mode, if_true]
        exact ownValue_eq_of_store received
      | false =>
        have mode : ((c.observe (.received (.write cmd))).updateLamportTime
            cmd.lamportTime).safeStepMode = false := safe
        simp only [mode]
        exact ownValue_answer r _ cmd

theorem ownValue_writeAckJob (r : Readings) (c : Cace) (j : WriteAckJob) :
    ownValue (j.process r c).1 j.cmd.variableName =
      if j.attempts == 0 && c.safeStepMode then some j.cmd.value
      else ownValue c j.cmd.variableName := by
  unfold WriteAckJob.process
  by_cases due : j.attempts = 0 ∧ c.safeStepMode = true
  · rw [if_pos due, if_pos (by simp [due])]
    exact ownValue_answer r c j.cmd
  · rw [if_neg due, if_neg (by simpa using due)]

theorem Serves.ownValue {e : Cace.Event} {cmd : CaceCommand} {due : Bool}
    (serves : Serves r c e d d' cmd due) : ownValue d' cmd.variableName =
      if due then some cmd.value else ownValue d cmd.variableName := by
  cases serves with
  | arrived => exact ownValue_handleCaceWrite r c cmd
  | deferred j => exact ownValue_writeAckJob r d j

/-- A write leaves the value as it is exactly if its update is not due or carries that value. -/
theorem Serves.keeps_iff {e : Cace.Event} {cmd : CaceCommand} {due : Bool}
    (serves : Serves r c e d d' cmd due) :
    Guarantees.ownValue d' cmd.variableName = Guarantees.ownValue d cmd.variableName ↔
      (due = true → Guarantees.ownValue d cmd.variableName = some cmd.value) := by
  rw [serves.ownValue]
  cases due with
  | true => simp [eq_comm]
  | false => simp

end Target

section Knowledge

variable {r : Readings} {may : Licence} {c c' d d' : Cace} {x : Name}

theorem Leads.known (leads : Leads c c') (known : c.getVariable x ≠ none) :
    c'.getVariable x ≠ none := by
  refine @preserved_by_steps _ _ (fun c => c.getVariable x ≠ none) ?_ _ _ leads known
  intro d d' step before
  obtain ⟨r, may, effect⟩ := step
  exact effect.known before

/-- A write is applied by its own update only. -/
theorem Effect.written {w : CaceCommand} (effect : Effect r may c c')
    (new : .applied (.write w) ∈ c'.history) :
    .applied (.write w) ∈ c.history ∨ c' = WriteAckJob.doVariableUpdate r c w := by
  rcases effect.applied new with old | ⟨u, same, -⟩ | ⟨w', same, rfl⟩
  · exact .inl old
  · have report := u.message_report
    rw [← same] at report
    cases report
  · exact .inr (by rw [Message.write.inj same])

/-- A variable that has been written is stored. -/
def KnowsWritten (c : Cace) : Prop :=
  ∀ w, .applied (.write w) ∈ c.history → c.getVariable w.variableName ≠ none

theorem KnowsWritten.effect (effect : Effect r may c c') (before : KnowsWritten c) :
    KnowsWritten c' := by
  intro w applied
  rcases effect.written applied with old | rfl
  · exact effect.known (before w old)
  · rw [getVariable_write, if_pos rfl]
    exact Option.some_ne_none _

theorem Leads.knowsWritten (leads : Leads c c') (before : KnowsWritten c) : KnowsWritten c' := by
  refine @preserved_by_steps _ _ KnowsWritten ?_ _ _ leads before
  intro d d' step before
  obtain ⟨r, may, effect⟩ := step
  exact before.effect effect

/-- The state in which a job of the loop finds the agent. -/
theorem Serves.path {e : Cace.Event} {cmd : CaceCommand} {due : Bool} (queued : c.Queued)
    (serves : Serves r c e d d' cmd due) : Path r {} c d := by
  cases serves with
  | arrived => exact .refl
  | @deferred _ jobs later stay j listed reached =>
    rw [acceptCommands_eq queued] at listed reached
    have accepted : Path r {} c (c.acceptNotifications r) :=
      acceptNotifications_path queued fun _ _ => trivial
    have loop := @processJobsLoop_path r {} _ d 0 jobs stay (accepted.queued queued)
      (listed ▸ List.subset_append_left _ _) (fun _ _ _ _ _ => trivial)
      (fun _ _ _ _ _ _ _ => trivial) reached
    exact accepted.trans loop.1

end Knowledge

section Runs

variable {start s : System} {trace : List (System × System.Event)}

/-- Wherever an event deals with a write that the target has settled, the variable is stored. -/
theorem settled_known {start c d d' : Cace} {trace : List (Cace × Readings × Cace.Event)}
    {l : Readings × Cace.Event} {cmd : CaceCommand} {due : Bool} (idle : start.Idle)
    (run : start.Runs trace c) (settled : Settled trace cmd)
    (serves : Serves l.1 c l.2 d d' cmd due) : d.getVariable cmd.variableName ≠ none := by
  obtain ⟨q, member, -, first, applied, same⟩ := settled
  obtain ⟨before, after, c1, toCall, call, -, rest⟩ := run.split member
  have reached : Leads start q.1 := runs_leads (idle_queued idle) toCall
  have queued : q.1.Queued := reached.queued (idle_queued idle)
  have knows : KnowsWritten q.1 := reached.knowsWritten fun w => by simp [idle.history]
  have called : Path q.2.1 {} q.1 c1 := exec_path_any queued call
  have since : Leads q.1 c := called.leads.trans (runs_leads (called.queued queued) rest)
  have moment : Leads q.1 d := since.trans (serves.path (since.queued queued)).leads
  rw [← same.variableName]
  exact moment.known (knows first applied)

/-- Dealing with a write that the target has settled leaves the value that the target holds. -/
def RepeatsKeep (trace : List (Cace × Readings × Cace.Event)) (c : Cace)
    (l : Readings × Cace.Event) : Prop :=
  ∀ d d' cmd due, Serves l.1 c l.2 d d' cmd due → Settled trace cmd →
    ∃ v, ownValue d cmd.variableName = some v ∧ ownValue d' cmd.variableName = some v

/-- A due write that the target has settled carries the value that the target holds. -/
def RepeatsAgree (trace : List (Cace × Readings × Cace.Event)) (c : Cace)
    (l : Readings × Cace.Event) : Prop :=
  ∀ d d' cmd, Serves l.1 c l.2 d d' cmd true → Settled trace cmd →
    ownValue d cmd.variableName = some cmd.value

theorem repeatsKeep_iff {start c : Cace} {trace : List (Cace × Readings × Cace.Event)}
    {l : Readings × Cace.Event} (idle : start.Idle) (run : start.Runs trace c) :
    RepeatsKeep trace c l ↔ RepeatsAgree trace c l := by
  constructor
  · intro keep d d' cmd serves settled
    obtain ⟨v, held, kept⟩ := keep d d' cmd true serves settled
    exact serves.keeps_iff.mp (kept.trans held.symm) rfl
  · intro agree d d' cmd due serves settled
    obtain ⟨cv, stored⟩ := Option.ne_none_iff_exists'.mp (settled_known idle run settled serves)
    have held : ownValue d cmd.variableName = some cv.val := by
      rw [ownValue, stored, Option.map_some]
    refine ⟨cv.val, held, (serves.keeps_iff.mpr fun now => ?_).trans held⟩
    subst now
    exact agree d d' cmd serves settled

/-- In every run of the system, and in both step modes, no repetition of a write changes a value
that the target has distributed since, exactly if every repetition that is applied carries the
value that the target then holds. -/
theorem repeated_writes_keep_iff (quiescent : Quiescent start) (run : start.Runs trace s)
    (target : Int) :
    (∀ before p, before ++ [p] <+: trace → ∀ l ∈ localEvent target p.2,
        RepeatsKeep (localTrace target before) (p.1.agents target) l) ↔
      ∀ before p, before ++ [p] <+: trace → ∀ l ∈ localEvent target p.2,
        RepeatsAgree (localTrace target before) (p.1.agents target) l := by
  refine forall_congr' fun before => forall_congr' fun p => forall_congr' fun first => ?_
  have here := local_runs (run.upTo first) target
  exact forall₂_congr fun l _ => repeatsKeep_iff (quiescent.idle target) here

/-- Without a step only the write that arrives matters. -/
theorem RepeatsAgree.of_handle {c : Cace} {trace : List (Cace × Readings × Cace.Event)}
    {l : Readings × Cace.Event} (noStep : l.2 ≠ .step)
    (agrees : ∀ cmd, l.2 = .handle (.write cmd) → Settled trace cmd →
      ownValue c cmd.variableName = some cmd.value) : RepeatsAgree trace c l := by
  intro d d' cmd serves settled
  obtain ⟨r, e⟩ := l
  generalize true = due at serves
  cases serves with
  | arrived => exact agrees cmd rfl settled
  | deferred => exact absurd rfl noStep

end Runs

section Examples

/-- Agent 1 writes `x` of agent 2, which then distributes a value of its own. -/
def takenBack : List System.Event :=
  [.call 1 .zero (.addVariable (filled ['x'] [7]) false),
    .call 1 .zero (.writeVariable (.stored ['x']) 2),
    .deliver 2 .zero (.write ⟨1, [2], ['x'], [7], 0, longMax, 70, 101, 2, 0⟩),
    .call 2 .zero (.distributeValue ['x'] [8] 0 .threeWayHandShake)]

/-- The command of agent 2 reaches agent 1 before it repeats the write. -/
theorem repeated_writes_keep_adopted : ∃ trace s,
    (newSystem [1, 2]).play (takenBack ++
      [.deliver 1 .zero (.command ⟨2, [0], ['x'], [8], 0, longMax, 70, 208, 5, 0⟩),
        .call 1 late .step,
        .deliver 2 .zero (.write ⟨1, [2], ['x'], [8], 0, longMax, 70, 101, 7, 0⟩)]) =
        some (trace, s) ∧
      ∀ before p, before ++ [p] <+: trace → ∀ l ∈ localEvent 2 p.2,
        RepeatsKeep (localTrace 2 before) (p.1.agents 2) l := by
  have played : (newSystem [1, 2]).play (takenBack ++
      [.deliver 1 .zero (.command ⟨2, [0], ['x'], [8], 0, longMax, 70, 208, 5, 0⟩),
        .call 1 late .step,
        .deliver 2 .zero (.write ⟨1, [2], ['x'], [8], 0, longMax, 70, 101, 7, 0⟩)]) =
        some _ := rfl
  obtain ⟨run, -⟩ := System.play_runs played
  refine ⟨_, _, played, (repeated_writes_keep_iff (newSystem_quiescent [1, 2]) run 2).mpr ?_⟩
  have unsettled : ∀ cmd, ¬ Settled [] cmd := by simp [Settled]
  have away : ∀ P : Prop, (1 : Int) = 2 → P := fun P two => absurd two (by decide)
  refine forall_steps_cons.mpr ⟨local_call (away _), forall_steps_cons.mpr ⟨local_call (away _),
    forall_steps_cons.mpr ⟨local_deliver fun _ => ?_, forall_steps_cons.mpr ⟨local_call fun _ => ?_,
      forall_steps_cons.mpr ⟨local_deliver (away _), forall_steps_cons.mpr ⟨local_call (away _),
        forall_steps_cons.mpr ⟨local_deliver fun _ => ?_, by simp⟩⟩⟩⟩⟩⟩⟩
  · exact .of_handle (by simp) fun cmd _ settled => absurd settled (unsettled cmd)
  · exact .of_handle (by simp) fun cmd same => by cases same
  · refine .of_handle (by simp) fun cmd same _ => ?_
    cases same
    rfl

/-- The command is late: agent 1 repeats the write with its own value, and agent 2 loses what it
has distributed. -/
theorem repeated_writes_keep_reverted : ∃ trace s s' w,
    (newSystem [1, 2]).play (takenBack ++ [.call 1 late .step]) = some (trace, s) ∧
      .published (.write w) .again ∈ (s.agents 1).history ∧ Settled (localTrace 2 trace) w ∧
      s.Next (.deliver 2 .zero (.write w)) s' ∧ w.variableName = ['x'] ∧
      ownValue (s.agents 2) ['x'] = some [8] ∧ ownValue (s'.agents 2) ['x'] = some [7] := by
  have played : (newSystem [1, 2]).play (takenBack ++ [.call 1 late .step]) = some _ := rfl
  refine ⟨_, _, _, ⟨1, [2], ['x'], [7], 0, longMax, 70, 101, 3, 0⟩, played, by decide, ?_, rfl, rfl,
    by decide, by decide⟩
  exact ⟨_, List.mem_cons_of_mem _ (List.mem_singleton_self _), ⟨_, _, _, rfl⟩,
    ⟨1, [2], ['x'], [7], 0, longMax, 70, 101, 2, 0⟩, by decide, rfl, rfl, rfl⟩

end Examples

end CaceProofs.Guarantees
