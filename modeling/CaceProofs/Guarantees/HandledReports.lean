import CaceProofs.Guarantees.DeferredUpdates

/-!
# What is delivered is handled

The update of a command or an acknowledge is run on arrival or, in safe step mode, in the next
step, that of a notification in the next step. So the events of an agent alone tell which
messages have been handled, and in which order.
-/
namespace CaceProofs.Guarantees
open Source Library

/-- What has been delivered to an agent: the messages whose updates have been run, and those that
wait for the next step, in a job or in the queue of the notifications. -/
structure Deliveries where
  handled : List Message
  inJobs : List Message
  queued : List Message

namespace Deliveries

/-- Messages that get a job on arrival. -/
def take (d : Deliveries) (safeStepMode : Bool) (ms : List Message) : Deliveries :=
  if safeStepMode then { d with inJobs := d.inJobs ++ ms }
  else { d with handled := d.handled ++ ms }

/-- A message that the handlers get. -/
def hear (d : Deliveries) (c : Cace) (m : Message) : Deliveries :=
  let d := d.take c.safeStepMode (arrived c m)
  { d with queued := d.queued ++ (noted c m).map Message.believeNotification }

/-- One more event. -/
def after (d : Deliveries) (c : Cace) : Cace.Event → Deliveries
  | .handle m => d.hear c (heard c m)
  | .step => ⟨d.handled ++ d.inJobs ++ d.queued, [], []⟩
  | .distributeValue _ _ _ _ | .distributeVariable _ | .addVariable _ _ | .writeVariable _ _
  | .requestVariable _ _ | .pNoBlock _ _ _ | .v _ | .agentEngangement _ _ => d

end Deliveries

/-- What the events of a run have delivered. -/
def deliveries (trace : List (Cace × Readings × Cace.Event)) : Deliveries :=
  trace.foldl (fun d p => d.after p.1 p.2.2) ⟨[], [], []⟩

/-- The agent has run just the updates of what has been handled, and what waits is due. -/
structure Served (d : Deliveries) (c : Cace) : Prop where
  commands : c.commands = []
  queued : c.believeNotifications.map Message.believeNotification = d.queued
  inJobs : c.jobs.flatMap (dueIn c) = d.inJobs
  handled : appliedMessages c.history = d.handled

namespace Served

variable {d : Deliveries} {c c' : Cace}

/-- No update is run. -/
theorem still (before : Served d c) (silent : Applies [] c c') : Served d c' where
  commands := silent.commands.trans before.commands
  queued := by rw [silent.believeNotifications, before.queued]
  inJobs := by rw [silent.jobs, dueIn_config silent.config, before.inJobs]
  handled := by rw [silent.applied, List.append_nil, before.handled]

/-- A job joins that runs no update. -/
theorem append (before : Served d c) {job : Job} (due : job.due = []) :
    Served d (c.appendJob job) where
  commands := before.commands
  queued := before.queued
  inJobs := by
    have none : dueIn c job = [] := dueIn_none c job due
    change (c.jobs ++ [job]).flatMap (dueIn c) = _
    rw [List.flatMap_append, List.flatMap_singleton, none, List.append_nil, before.inJobs]
  handled := before.handled

/-- A job joins whose update is done or due. -/
theorem start_job (before : Served d c) {m : Message} {job : Job} (starts : Starts m c c' job) :
    Served (d.take c.safeStepMode [m]) (c'.appendJob job) := by
  have mode : dueIn c' = dueIn c := dueIn_config starts.absorbs.config
  have applied := starts.absorbs.applied
  have jobs : (c'.appendJob job).jobs.flatMap (dueIn (c'.appendJob job)) =
      d.inJobs ++ dueIn c job := by
    change (c'.jobs ++ [job]).flatMap (dueIn c') = _
    rw [List.flatMap_append, List.flatMap_singleton, mode, starts.absorbs.jobs, before.inJobs]
  have queued : c'.believeNotifications.map Message.believeNotification = d.queued := by
    rw [starts.absorbs.believeNotifications, before.queued]
  unfold Deliveries.take
  split
  next safe =>
    rw [if_pos safe, List.append_nil] at applied
    refine ⟨starts.absorbs.commands.trans before.commands, queued, ?_,
      applied.trans before.handled⟩
    rw [jobs, dueIn, if_pos safe, starts.due]
  next direct =>
    rw [if_neg direct] at applied
    refine ⟨starts.absorbs.commands.trans before.commands, queued, ?_,
      applied.trans (by rw [before.handled])⟩
    rw [jobs, dueIn, if_neg direct, List.append_nil]

end Served

section Handlers

variable {r : Readings} {d : Deliveries} {c : Cace} {m : Message}

theorem receive_applies (c : Cace) (m : Message) : Applies [] c (c.receive m) := by
  refine .silent (receive_config c m) ?_ ?_ ?_ ?_
  · unfold Cace.receive; split <;> rfl
  · unfold Cace.receive; split <;> rfl
  · unfold Cace.receive; split <;> rfl
  · rw [receive_history]
    simp [appliedMessages]

/-- What an agent does not take gets no job and is not queued. -/
theorem arrived_refused (refused : accepts c m = false) : arrived c m = [] ∧ noted c m = [] := by
  cases m <;> simp [arrived, noted, refused]

theorem arrived_unattended (unattended : attends c m = false) :
    arrived c m = [] ∧ noted c m = [] := by
  cases m with
  | time | shortAck | variableRequest | writeAck | response => exact ⟨rfl, rfl⟩
  | command | acknowledge | write | believeNotification =>
    refine arrived_refused ?_
    rw [accepts, Bool.and_eq_false_iff]
    exact .inr unattended

theorem arrived_attended (passes : c.isBlacklisted m.senderID = false)
    (attended : attends c m = true) (addressed : m.receiverID.isSome = true) :
    accepts c m = true := by
  cases m with
  | time => cases addressed
  | shortAck | variableRequest | writeAck | response | command | acknowledge | write
  | believeNotification =>
    rw [accepts, Bool.and_eq_true, Bool.not_eq_true']
    exact ⟨passes, attended⟩

theorem hear_nothing (none : arrived c m = [] ∧ noted c m = []) : d.hear c m = d := by
  simp [Deliveries.hear, Deliveries.take, none]

theorem hear_arrived (job : arrived c m = [m]) (unqueued : noted c m = []) :
    d.hear c m = d.take c.safeStepMode [m] := by
  simp [Deliveries.hear, job, unqueued]

/-- The agent does what a message that it takes asks for. -/
theorem Served.respond (before : Served d c) (passes : c.isBlacklisted m.senderID = false)
    (attended : attends c m = true) :
    Served (d.hear c m) (respond r (c.receive m) m) := by
  have received := before.still (receive_applies c m)
  have mode : (c.receive m).safeStepMode = c.safeStepMode :=
    congrArg Config.safeStepMode (receive_config c m)
  have accepted := arrived_attended passes attended
  cases m with
  | command cc =>
    rw [hear_arrived (m := .command cc) (if_pos (accepted rfl)) rfl, ← mode]
    exact received.start_job (commandAcknowledge_starts r _ _ _ cc)
  | acknowledge ca =>
    rw [hear_arrived (m := .acknowledge ca) (if_pos (accepted rfl)) rfl, ← mode]
    exact received.start_job (shortAck_starts r _ _ _ ca)
  | write cc =>
    rw [hear_arrived (m := .write cc) (if_pos (accepted rfl)) rfl, ← mode]
    exact received.start_job (writeAck_starts r _ _ _ cc)
  | believeNotification cbn =>
    have queues : d.hear c (.believeNotification cbn) =
        { d with queued := d.queued ++ [.believeNotification cbn] } := by
      simp [Deliveries.hear, Deliveries.take, arrived, noted, accepted rfl]
    rw [queues]
    refine ⟨received.commands, ?_, received.inJobs, received.handled⟩
    exact List.map_append.trans (congrArg (· ++ _) received.queued)
  | time ct =>
    rw [hear_nothing ⟨rfl, rfl⟩]
    exact agentEngangement_keeps (fun _ _ absorbs now => now.still absorbs.toApplies)
      (fun _ _ due _ now => now.append due) received
  | shortAck | writeAck | response =>
    rw [hear_nothing ⟨rfl, rfl⟩]
    exact received.still (.silent rfl rfl rfl rfl rfl)
  | variableRequest cvr =>
    have sent : ∀ cv, Served d ((c.receive (.variableRequest cvr)).sendCaceResponse cv
        cvr.msgID cvr.senderID) := fun cv =>
      received.still ((tick_absorbs _).still (publish_absorbs _ _ _)).toApplies
    rw [hear_nothing ⟨rfl, rfl⟩]
    unfold Guarantees.respond
    dsimp only
    split
    · exact sent _
    · exact sent _

/-- A message is delivered. -/
theorem Served.handle (before : Served d c) (r : Readings) (m : Message) :
    Served (d.hear c (heard c m)) (c.handle r m) := by
  rw [handle_eq]
  split
  next listed =>
    rw [hear_nothing (arrived_refused (by simp [accepts, listed]))]
    exact before
  next passes =>
    split
    next attended => exact before.respond (Bool.not_eq_true _ ▸ passes) attended
    next ignored =>
      rw [hear_nothing (arrived_unattended (Bool.not_eq_true _ ▸ ignored))]
      exact before.still (receive_applies c _)

end Handlers

section Calls

variable {r : Readings} {d : Deliveries} {c : Cace}

theorem decideValue_applies (r : Readings) (c : Cace) (name : Name) (value : Bytes) (type : Int)
    (strategy : AcceptStrategy) :
    Applies [] c (CaceSpace.decideValue r c name value type strategy) := by
  rw [decideValue_frame]
  exact .silent rfl rfl rfl rfl rfl

theorem insertVariable_applies (c : Cace) (var : ConsensusVariable) :
    Applies [] c (c.insertVariable var) := by
  rw [insertVariable_frame]
  exact .silent rfl rfl rfl rfl rfl

/-- A command job announces itself. -/
theorem Served.command (before : Served d c) (variablePtr : VariablePtr) (value : Bytes)
    (ids : List Int) (t : Nat) :
    Served d ((CommandJob.construct r c variablePtr value ids t).1.appendJob
      (.command (CommandJob.construct r c variablePtr value ids t).2)) := by
  unfold CommandJob.construct
  dsimp only
  split
  · exact (before.still (send_absorbs _ _ _).toApplies).append rfl
  · exact before.append rfl

theorem Served.distributeValue (before : Served d c) (name : Name) (value : Bytes) (type : Int)
    (strategy : AcceptStrategy) :
    Served d (CaceSpace.distributeValue r c name value type strategy) :=
  (before.still (decideValue_applies r c name value type strategy)).command _ _ _ _

theorem Served.addVariable (before : Served d c) (var : ConsensusVariable) (distribute : Bool) :
    Served d (CaceSpace.addVariable r c var distribute) := by
  have inserted := before.still (insertVariable_applies c var)
  unfold CaceSpace.addVariable
  dsimp only
  split
  · exact inserted.command _ _ _ _
  · exact inserted

theorem Served.distributeVariable (before : Served d c) (variablePtr : VariablePtr) :
    Served d (CaceSpace.distributeVariable r c variablePtr) := by
  unfold CaceSpace.distributeVariable
  dsimp only
  split
  · split
    · exact before.command _ _ _ _
    · refine Served.command (before.still ?_) _ _ _ _
      exact .silent rfl rfl rfl rfl rfl
  · exact before.addVariable _ _

theorem Served.writeVariable (before : Served d c) (variablePtr : VariablePtr) (agentID : Int) :
    Served d (CaceSpace.writeVariable r c variablePtr agentID) :=
  (before.still ((tick_absorbs _).still (publish_absorbs _ _ _)).toApplies).append rfl

theorem Served.requestVariable (before : Served d c) (name : Name) (agentID : Int) :
    Served d (CaceSpace.requestVariable r c name agentID) := by
  have deleted : Served d (c.deleteResponse name) :=
    before.still (.silent rfl rfl rfl rfl rfl)
  exact (deleted.still ((tick_absorbs _).still (publish_absorbs _ _ _)).toApplies).append rfl

theorem Served.pNoBlock (before : Served d c) (name : Name) (strict : Bool) (robots : List Int) :
    Served d (CaceMutex.pNoBlock r c name strict robots).1 := by
  unfold CaceMutex.pNoBlock
  dsimp only
  split
  · split
    · exact before
    · split
      · exact before.distributeValue _ _ _ _
      · exact before
  · exact before

theorem Served.v (before : Served d c) (name : Name) :
    Served d (CaceMutex.v r c name).1 := by
  unfold CaceMutex.v
  dsimp only
  split
  · exact before.distributeValue _ _ _ _
  · exact before

end Calls

section Step

variable {r : Readings} {d : Deliveries} {c c' : Cace}

/-- A job that stays has had its update. -/
theorem process_settles {job job' : Job} {finished : Bool}
    (done : job.process r c = .ok (c', job', finished)) : finished = true ∨ job'.due = [] := by
  cases job with
  | command | believeNotification | request =>
    cases done
    exact .inr rfl
  | commandAcknowledge j =>
    cases done
    unfold CommandAcknowledgeJob.process
    dsimp only
    split
    · exact .inr (by simp [Job.due])
    · exact .inl rfl
  | believeAcknowledge j =>
    cases done
    unfold BelieveAcknowledgeJob.process
    dsimp only
    split
    · exact .inr (by simp [Job.due])
    · exact .inl rfl
  | shortAck j =>
    cases done
    exact .inl rfl
  | writeAck j =>
    cases done
    exact .inl rfl
  | write j =>
    cases processed : j.process r c with
    | ok p =>
      simp only [Job.process, processed] at done
      cases done
      exact .inr rfl
    | error fault =>
      simp only [Job.process, processed] at done
      cases done

theorem processJobsLoop_settles {k : Nat} {jobs stay : List Job}
    (done : c.processJobsLoop r k jobs = .ok (c', stay)) : ∀ job ∈ stay, job.due = [] := by
  induction jobs generalizing c k stay with
  | nil =>
    cases done
    simp
  | cons job jobs ih =>
    unfold Cace.processJobsLoop at done
    split at done
    next => cases done
    next c1 job1 finished first =>
      dsimp only at done
      split at done
      next => cases done
      next c3 stay3 rest =>
        cases done
        rcases process_settles first with ended | settled
        · rw [if_pos ended]
          exact ih rest
        · split
          · exact ih rest
          · exact List.forall_mem_cons.mpr ⟨settled, ih rest⟩

theorem Served.acceptNotifications (before : Served d c) :
    Served ((⟨d.handled, d.inJobs, []⟩ : Deliveries).take c.safeStepMode d.queued)
      (c.acceptNotifications r) := by
  have fold (l : List CaceBelieveNotification) : ∀ (d : Deliveries) (c : Cace), Served d c →
      Served (d.take c.safeStepMode (l.map Message.believeNotification))
        (l.foldl (fun c cbn =>
          (BelieveAcknowledgeJob.construct r c [cbn.senderID] c.lamportTime.time cbn).1.appendJob
            (.believeAcknowledge (BelieveAcknowledgeJob.construct r c [cbn.senderID]
              c.lamportTime.time cbn).2)) c) := by
    induction l with
    | nil => exact fun d c now => by simpa [Deliveries.take] using now
    | cons cbn l ih =>
      intro d c now
      have starts := believeAcknowledge_starts r c [cbn.senderID] c.lamportTime.time cbn
      have rest := ih _ _ (now.start_job starts)
      have mode : (BelieveAcknowledgeJob.construct r c [cbn.senderID] c.lamportTime.time
          cbn).1.safeStepMode = c.safeStepMode :=
        congrArg Config.safeStepMode starts.absorbs.config
      change Served ((d.take c.safeStepMode _).take (BelieveAcknowledgeJob.construct r c
        [cbn.senderID] c.lamportTime.time cbn).1.safeStepMode _) _ at rest
      rw [mode] at rest
      unfold Deliveries.take at rest ⊢
      split at rest <;> simpa [*] using rest
  unfold Cace.acceptNotifications
  rw [← before.queued]
  exact fold c.believeNotifications ⟨d.handled, d.inJobs, []⟩ { c with believeNotifications := [] }
    ⟨before.commands, rfl, before.inJobs, before.handled⟩

/-- In direct mode no update waits in a job. -/
theorem Served.inJobs_direct (before : Served d c) (direct : ¬ c.safeStepMode = true) :
    d.inJobs = [] := by
  rw [← before.inJobs, List.flatMap_eq_nil_iff]
  exact fun job _ => if_neg direct

/-- The step runs the updates that wait: those in the jobs, then the notifications. -/
theorem Served.step (before : Served d c) (done : c.step r = .ok c') :
    Served ⟨d.handled ++ d.inJobs ++ d.queued, [], []⟩ c' := by
  have commands : c.acceptCommands r = c := by
    unfold Cace.acceptCommands
    rw [before.commands]
    exact congrArg (fun commands => { c with commands := commands }) before.commands.symm
  have accepted := before.acceptNotifications (r := r)
  unfold Cace.step Cace.processJobs at done
  rw [commands] at done
  cases processed : (c.acceptNotifications r).processJobsLoop r 0
      (c.acceptNotifications r).jobs with
  | error fault =>
    rw [processed] at done
    cases done
  | ok p =>
    obtain ⟨c1, stay⟩ := p
    rw [processed] at done
    cases done
    have absorbed := processJobsLoop_absorbs r processed
    have settled := processJobsLoop_settles processed
    have handled : appliedMessages c1.history = d.handled ++ d.inJobs ++ d.queued := by
      rw [absorbed.applied, accepted.inJobs, accepted.handled]
      unfold Deliveries.take
      split
      next => exact (List.append_assoc _ _ _).symm
      next direct => simp [before.inJobs_direct direct]
    have queued : c1.believeNotifications.map Message.believeNotification = [] := by
      rw [absorbed.believeNotifications, accepted.queued]
      unfold Deliveries.take
      split <;> rfl
    have inJobs : ∀ c2 : Cace, stay.flatMap (dueIn c2) = [] := fun c2 =>
      List.flatMap_eq_nil_iff.mpr fun job member => dueIn_none c2 job (settled job member)
    dsimp only
    split
    · exact ⟨rfl, rfl, inJobs _, handled⟩
    · exact ⟨absorbed.commands.trans accepted.commands, queued, inJobs _, handled⟩

end Step

section Runs

variable {start c c' : Cace} {trace : List (Cace × Readings × Cace.Event)} {d : Deliveries}

/-- One event. -/
theorem Served.next (before : Served d c) {e : Readings × Cace.Event} (next : c.Next e c') :
    Served (d.after c e.2) c' := by
  obtain ⟨r, e⟩ := e
  cases e with
  | handle m =>
    cases next
    exact before.handle r m
  | step => exact before.step next
  | distributeValue name value type strategy =>
    cases next
    exact before.distributeValue _ _ _ _
  | distributeVariable variablePtr =>
    cases next
    exact before.distributeVariable _
  | addVariable var distribute =>
    cases next
    exact before.addVariable _ _
  | writeVariable variablePtr agentID =>
    cases next
    exact before.writeVariable _ _
  | requestVariable name agentID =>
    cases next
    exact before.requestVariable _ _
  | pNoBlock name strict robots =>
    cases next
    exact before.pNoBlock _ _ _
  | v name =>
    cases next
    exact before.v _
  | agentEngangement id sendBeliveUpdates =>
    cases next
    exact agentEngangement_keeps (fun _ _ absorbs now => now.still absorbs.toApplies)
      (fun _ _ due _ now => now.append due) before

/-- In every run the updates that an agent has run are those of the messages delivered to it, in
the order in which they are handled. -/
theorem served (idle : start.Idle) (run : start.Runs trace c) : Served (deliveries trace) c := by
  induction run with
  | nil =>
    exact ⟨idle.commands, by simp [idle.believeNotifications, deliveries],
      by simp [idle.jobs, deliveries], by simp [idle.history, deliveries, appliedMessages]⟩
  | @step trace c c' e run next ih =>
    have after := ih.next next
    unfold deliveries at after ⊢
    rw [List.foldl_append]
    exact after

end Runs

section Records

variable {start c : Cace} {trace : List (Cace × Readings × Cace.Event)} {x : Name}
  {senderID : Int}

/-- The reports of one sender about a variable that have been delivered and handled, in order. -/
def handledReports (trace : List (Cace × Readings × Cace.Event)) (x : Name) (senderID : Int) :
    List Report :=
  ((deliveries trace).handled.filterMap Message.report?).filter fun m =>
    m.variableName == x && m.senderID == senderID

theorem appliedReports_eq (history : List Observation) :
    appliedReports history = (appliedMessages history).filterMap Message.report? := by
  unfold appliedReports appliedMessages
  rw [List.filterMap_filterMap]
  congr 1
  funext o
  cases o <;> rfl

/-- The reports that the agent has applied are those handled. -/
theorem reportsOf_eq (idle : start.Idle) (run : start.Runs trace c) :
    reportsOf c x senderID = handledReports trace x senderID := by
  rw [reportsOf, handledReports, appliedReports_eq, (served idle run).handled]

/-- Freshest record per sender: the one proposal of a sender is that of the earliest of its handled
reports with the latest time stamp; where the time stamps tell the reports apart, it is that of
the latest one, in whatever order they came. -/
theorem freshest_record (idle : start.Idle)
    (unheard : ∀ cv, start.getVariable x = some cv → ∀ p ∈ cv.proposals, p.robotID ≠ senderID)
    (run : start.Runs trace c) (bare : ∀ p ∈ trace, BarePassed p.1 p.2)
    (handled : handledReports trace x senderID ≠ []) :
    ∃ cv p m, c.getVariable x = some cv ∧
      cv.proposals.filter (fun q => q.robotID == senderID) = [p] ∧
      Freshest Report.lamportTime (handledReports trace x senderID) m ∧
      (p.val = m.value ∧ p.type = m.type ∧ p.lamportAge = m.lamportTime) ∧
      ∀ n ∈ handledReports trace x senderID,
        (∀ a ∈ handledReports trace x senderID, a.lamportTime ≤ n.lamportTime) →
        (∀ a ∈ handledReports trace x senderID, ∀ b ∈ handledReports trace x senderID,
          a.lamportTime = b.lamportTime → a = b) →
        p.val = n.value ∧ p.type = n.type ∧ p.lamportAge = n.lamportTime := by
  have registers := registers_run idle unheard run bare
  have tracks := registers.tracks
  rw [reportsOf_eq idle run] at tracks
  obtain ⟨none, -⟩ | ⟨p, m, records, fresh, value, type, age⟩ := tracks
  · exact absurd none handled
  · unfold sentBy proposalsOf at records
    cases stored : c.getVariable x with
    | none => simp [stored] at records
    | some cv =>
      rw [stored] at records
      refine ⟨cv, p, m, rfl, records, fresh, ⟨value, type, age⟩, ?_⟩
      intro n member greatest distinct
      rw [← fresh.eq_of_distinct distinct member greatest]
      exact ⟨value, type, age⟩

/-- A command that comes twice, with an older acknowledge and a newer notification in between, a
local call and a step: the notification is handled after the second command, and is the freshest. -/
theorem freshest_record_duplicates : ∃ trace c cv p,
    (Cace.construct 1 false 10).play
      [(.zero, .handle (.command ⟨2, [0], ['x'], [7], 0, 0, 70, 1, 5, 0⟩)),
        (.zero, .handle (.believeNotification ⟨2, [1], ['x'], [6], 0, 0, 70, 2, 8, 0⟩)),
        (.zero, .distributeValue ['x'] [8] 0 .threeWayHandShake),
        (.zero, .handle (.acknowledge ⟨2, [0], ['x'], [9], 1, 3, 0⟩)),
        (.zero, .handle (.command ⟨2, [0], ['x'], [7], 0, 0, 70, 1, 5, 0⟩)),
        (.zero, .step)] = some (trace, c) ∧
      (handledReports trace ['x'] 2).map Report.lamportTime = [5, 3, 5, 8] ∧
      c.getVariable ['x'] = some cv ∧ cv.proposals.filter (fun q => q.robotID == 2) = [p] ∧
      p.val = [6] ∧ p.type = 0 ∧ p.lamportAge = 8 := by
  have played : (Cace.construct 1 false 10).play
      [(.zero, .handle (.command ⟨2, [0], ['x'], [7], 0, 0, 70, 1, 5, 0⟩)),
        (.zero, .handle (.believeNotification ⟨2, [1], ['x'], [6], 0, 0, 70, 2, 8, 0⟩)),
        (.zero, .distributeValue ['x'] [8] 0 .threeWayHandShake),
        (.zero, .handle (.acknowledge ⟨2, [0], ['x'], [9], 1, 3, 0⟩)),
        (.zero, .handle (.command ⟨2, [0], ['x'], [7], 0, 0, 70, 1, 5, 0⟩)),
        (.zero, .step)] = some _ := rfl
  obtain ⟨run, events⟩ := Cace.play_runs played
  have bare := @allowed_of_events _ _ BarePassed _ _ events (by
    intro e member c
    simp only [List.mem_cons, List.not_mem_nil, or_false] at member
    rcases member with rfl | rfl | rfl | rfl | rfl | rfl <;> trivial)
  obtain ⟨cv, p, m, stored, records, -, -, latest⟩ :=
    @freshest_record _ _ _ ['x'] 2 (Cace.construct_fresh 1 false 10).toIdle (by decide) run bare
      (by decide)
  exact ⟨_, _, cv, p, played, by decide, stored, records,
    latest ⟨['x'], 2, [6], 0, 8⟩ (by decide) (by decide) (by decide)⟩

end Records

end CaceProofs.Guarantees
