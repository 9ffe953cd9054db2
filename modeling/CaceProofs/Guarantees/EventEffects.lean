import CaceProofs.Guarantees.Acceptance
import CaceProofs.Guarantees.JobEffects

/-!
# The effects of the events

Every event of an agent is a sequence of effects. Invariants of one agent, over all
its runs, are proved from this decomposition.
-/
namespace CaceProofs.Guarantees
open Source Library

variable {r : Readings} {may : Licence}

section Step

/-- A job that stays: `process()` left it and keeps received messages only. -/
structure Stays (r : Readings) (jobs : List Job) (c : Cace) (job : Job) : Prop where
  held : ∀ m ∈ job.held, .received m ∈ c.history
  origin : ∃ old d d' finished k, old ∈ jobs ∧ Earlier d c ∧
    old.process (r.forJob k) d = .ok (d', job, finished) ∧ d'.history <+: c.history

theorem Stays.later {jobs jobs' : List Job} {c c' : Cace} {job : Job}
    (before : Stays r jobs c job) (listed : jobs ⊆ jobs') (path : Path r may c c') :
    Stays r jobs' c' job := by
  obtain ⟨old, d, d', finished, k, member, earlier, done, after⟩ := before.origin
  exact ⟨fun m keeps => path.history.subset (before.held m keeps), old, d, d', finished, k,
    listed member, ⟨earlier.config.trans path.config.symm, earlier.history.trans path.history,
      le_trans earlier.clock path.clock, earlier.queued⟩, done, after.trans path.history⟩

/-- The jobs that the loop of a step comes to, each with its place and the state right before its
`process()`. -/
def visits (r : Readings) : Nat → List Job → Cace → List (Nat × Job × Cace)
  | _, [], _ => []
  | k, job :: jobs, c =>
    (k, job, c) ::
      match job.process (r.forJob k) c with
      | .error _ => []
      | .ok (c, job, finished) =>
        visits r (k + 1) jobs
          (if finished && job.failed then
            { c with agentsToRemove := c.agentsToRemove ++ job.base.expectedRobotIDs }
          else c)

/-- The jobs of the list that send a command again do so within the licence. -/
def LoopWithin (may : Licence) (r : Readings) (k : Nat) (jobs : List Job) (c : Cace) : Prop :=
  ∀ v ∈ visits r k jobs c, ResendsWithin may (r.forJob v.1) v.2.2 v.2.1

theorem processJobsLoop_path {c c' : Cace} {k : Nat} {jobs stay : List Job} (queued : c.Queued)
    (listed : jobs ⊆ c.jobs)
    (applies : c.safeStepMode = true → ∀ job ∈ jobs, ∀ m ∈ job.held, may.applies m)
    (repeats : LoopWithin may r k jobs c)
    (success : c.processJobsLoop r k jobs = .ok (c', stay)) :
    Path r may c c' ∧ c'.jobs = c.jobs ∧ ∀ job ∈ stay, Stays r jobs c' job := by
  induction jobs generalizing c k stay with
  | nil =>
    obtain ⟨rfl, rfl⟩ := by simpa [Cace.processJobsLoop] using success
    exact ⟨.refl, rfl, by simp⟩
  | cons job jobs ih =>
    unfold Cace.processJobsLoop at success
    split at success
    next => cases success
    next c1 job1 finished done =>
      obtain ⟨path1', held1, jobs1⟩ := @job_process (r.forJob k) may c c1 job job1
        finished queued (listed List.mem_cons_self)
        (fun late => applies late job List.mem_cons_self) (repeats _ List.mem_cons_self) done
      have path1 : Path r may c c1 := path1'.ofJob
      have queued1 := path1.queued queued
      have mode : c1.safeStepMode = c.safeStepMode := congrArg Config.safeStepMode path1.config
      have removed : ∀ d : Cace, d = (if finished && job1.failed then
          { c1 with agentsToRemove := c1.agentsToRemove ++ job1.base.expectedRobotIDs }
          else c1) → Path r may c1 d ∧ d.jobs = c1.jobs ∧ d.safeStepMode = c1.safeStepMode := by
        rintro d rfl
        split
        · exact ⟨shrinkQueues_path
            { c1.queues with
              agentsToRemove := c1.agentsToRemove ++ job1.base.expectedRobotIDs }
            queued1 (fun _ => id) queued1.noCommands (fun _ => id) fun _ => id, rfl, rfl⟩
        · exact ⟨.refl, rfl, rfl⟩
      obtain ⟨path2, jobs2, mode2⟩ := removed _ rfl
      dsimp only at success
      split at success
      next => cases success
      next c3 stay3 rest =>
        obtain ⟨rfl, rfl⟩ := by simpa using success
        have all := jobs2.trans jobs1
        obtain ⟨path3, jobs3, stays3⟩ := ih (path2.queued queued1)
          (fun job' member => all.symm ▸ listed (List.mem_cons_of_mem _ member))
          (fun late job' member => applies ((mode.symm.trans mode2.symm).trans late) job'
            (List.mem_cons_of_mem _ member))
          (fun v member => repeats v (by
            unfold visits
            rw [done]
            exact List.mem_cons_of_mem _ member)) rest
        have path : Path r may c c3 := (path1.trans path2).trans path3
        refine ⟨path, jobs3.trans all, ?_⟩
        intro job' member
        have tail : ∀ job' ∈ stay3, Stays r (job :: jobs) c3 job' := fun job' inTail =>
          (stays3 job' inTail).later (List.subset_cons_self _ _) (@Relation.ReflTransGen.refl _
            (Effect r may) c3)
        split at member
        · exact tail job' member
        · rcases List.mem_cons.mp member with rfl | later
          · have after : Path r may c1 c3 := path2.trans path3
            exact ⟨fun m keeps => after.history.subset (held1 m keeps), job, c, c1, finished, _,
              List.mem_cons_self, path.earlier queued, done, after.history⟩
          · exact tail job' later

theorem processJobs_path {c c' : Cace} (queued : c.Queued)
    (applies : c.safeStepMode = true → ∀ job ∈ c.jobs, ∀ m ∈ job.held, may.applies m)
    (repeats : LoopWithin may r 0 c.jobs c) (success : c.processJobs r = .ok c') :
    Path r may c c' := by
  unfold Cace.processJobs at success
  split at success
  next => cases success
  next c1 stay loop =>
    obtain rfl := Except.ok.inj success
    obtain ⟨path, jobs, stays⟩ := @processJobsLoop_path r may c c1 0 c.jobs stay queued
      (fun _ => id) applies repeats loop
    have queued1 := path.queued queued
    refine path.trans (setQueues_path { c1.queues with jobs := stay } queued1 ?_
      queued1.noCommands ?_ fun _ => .inl)
    · intro m member
      simp only [Queues.held, List.mem_append] at member
      rcases member with earlier | later
      · left
        simp only [Queues.held, List.mem_append]
        exact .inl earlier
      · obtain ⟨job, inStay, keeps⟩ := List.mem_flatMap.mp later
        exact .inr ((stays job inStay).held m keeps)
    · intro job inStay
      obtain ⟨old, d, d', finished, k, member, earlier, done, later⟩ := (stays job inStay).origin
      exact .processed old d d' finished k (jobs.symm ▸ member) earlier done later

private theorem notificationFold_path {c : Cace} {notifications : List CaceBelieveNotification}
    (queued : c.Queued)
    (received : ∀ cbn ∈ notifications, .received (.believeNotification cbn) ∈ c.history)
    (applies : ∀ cbn ∈ notifications, may.applies (.believeNotification cbn)) :
    Path r may c
      (notifications.foldl
        (fun c cbn =>
          let (c, job) :=
            BelieveAcknowledgeJob.construct r c [cbn.senderID] c.lamportTime.time cbn
          c.appendJob (.believeAcknowledge job)) c) := by
  induction notifications generalizing c with
  | nil => exact .refl
  | cons cbn rest ih =>
    have built := @believeAcknowledgeJob_path r may c [cbn.senderID] c.lamportTime.time
      cbn (received cbn List.mem_cons_self) (applies cbn List.mem_cons_self)
    have notification : (BelieveAcknowledgeJob.construct r c [cbn.senderID] c.lamportTime.time
        cbn).2.notification = cbn := by
      unfold BelieveAcknowledgeJob.construct
      dsimp only
      split
      · rfl
      · split <;> rfl
    have held : ∀ m ∈ (Job.believeAcknowledge (BelieveAcknowledgeJob.construct r c
        [cbn.senderID] c.lamportTime.time cbn).2).held, .received m ∈
          (BelieveAcknowledgeJob.construct r c [cbn.senderID] c.lamportTime.time
            cbn).1.history := by
      intro m member
      obtain rfl : m = .believeNotification cbn := by
        simpa [Job.held, notification] using member
      exact built.history.subset (received cbn List.mem_cons_self)
    have appended := built.trans (appendJob_path (built.queued queued) held
      (.created c _ (built.earlier queued)
        (.believeAcknowledge cbn (received cbn List.mem_cons_self)) List.prefix_rfl))
    refine appended.trans (ih (Path.queued appended queued) (fun other member => ?_)
      fun other member => applies other (List.mem_cons_of_mem _ member))
    exact (Path.history appended).subset (received other (List.mem_cons_of_mem _ member))

theorem acceptNotifications_path {c : Cace} (queued : c.Queued)
    (applies : ∀ cbn ∈ c.believeNotifications, may.applies (.believeNotification cbn)) :
    Path r may c (c.acceptNotifications r) := by
  let fewer : Queues := { c.queues with believeNotifications := [] }
  have held : fewer.held ⊆ c.queues.held :=
    held_subset (fun _ => id) (List.nil_subset _) (fun _ => id) (fun _ => id) (fun _ => id)
  have cleared : Path r may c (c.setQueues fewer) :=
    shrinkQueues_path fewer queued held queued.noCommands (fun _ => id) fun _ => id
  refine cleared.trans (notificationFold_path (cleared.queued queued) ?_ applies)
  intro cbn member
  exact queued.received _ (mem_held.mpr (.inr (.inl ⟨cbn, member, rfl⟩)))

private theorem sendBelieveAcknowledges_jobs (c : Cace) (cv : ConsensusVariable) (msgID : Int)
    (ids : List Int) :
    (ids.foldl (fun c id => c.sendCaceAcknowledge cv.name cv.val msgID id cv.type) c).jobs =
      c.jobs := by
  induction ids generalizing c with
  | nil => rfl
  | cons id ids ih =>
    rw [List.foldl_cons, ih]
    unfold Cace.sendCaceAcknowledge Cace.sendCaceAcknowledgeAt Cace.publishUnlessQuiet
    dsimp only
    split <;> rfl

/-- The job of a notification is the only new one. -/
private theorem believeAcknowledgeJob_jobs (r : Readings) (c : Cace) (ids : List Int) (t : Nat)
    (cbn : CaceBelieveNotification) :
    (BelieveAcknowledgeJob.construct r c ids t cbn).1.jobs = c.jobs ∧
      (Job.believeAcknowledge (BelieveAcknowledgeJob.construct r c ids t cbn).2).held =
        [.believeNotification cbn] := by
  have updated : (BelieveAcknowledgeJob.doVariableUpdate r c cbn).jobs = c.jobs := by
    rw [BelieveAcknowledgeJob.doVariableUpdate, updateVariable_frame]
  unfold BelieveAcknowledgeJob.construct
  dsimp only
  split
  · exact ⟨rfl, rfl⟩
  · split
    · exact ⟨(sendBelieveAcknowledges_jobs _ _ _ _).trans updated, rfl⟩
    · exact ⟨updated, rfl⟩

/-- The jobs after the notifications have been accepted. -/
theorem acceptNotifications_jobs (r : Readings) (c : Cace) :
    ∀ job ∈ (c.acceptNotifications r).jobs, job ∈ c.jobs ∨
      ∃ cbn ∈ c.believeNotifications, job.held = [.believeNotification cbn] := by
  unfold Cace.acceptNotifications
  generalize c.believeNotifications = notifications
  have cleared : ∀ job ∈ ({ c with believeNotifications := [] } : Cace).jobs, job ∈ c.jobs ∨
      ∃ cbn ∈ notifications, job.held = [.believeNotification cbn] :=
    fun job member => .inl member
  suffices fold : ∀ (l : List CaceBelieveNotification) (d : Cace),
      (∀ job ∈ d.jobs, job ∈ c.jobs ∨
        ∃ cbn ∈ notifications, job.held = [.believeNotification cbn]) →
      (∀ cbn ∈ l, cbn ∈ notifications) →
      ∀ job ∈ (l.foldl (fun c cbn =>
        let (c, job) :=
          BelieveAcknowledgeJob.construct r c [cbn.senderID] c.lamportTime.time cbn
        c.appendJob (.believeAcknowledge job)) d).jobs, job ∈ c.jobs ∨
          ∃ cbn ∈ notifications, job.held = [.believeNotification cbn] from
    fold notifications _ cleared fun _ => id
  intro l
  induction l with
  | nil => exact fun d before _ => before
  | cons cbn l ih =>
    intro d before listed
    refine ih _ ?_ fun other member => listed other (List.mem_cons_of_mem _ member)
    obtain ⟨jobs, held⟩ :=
      believeAcknowledgeJob_jobs r d [cbn.senderID] d.lamportTime.time cbn
    intro job member
    simp only [Cace.appendJob, List.mem_append, jobs, List.mem_singleton] at member
    rcases member with old | rfl
    · exact before job old
    · exact .inr ⟨cbn, listed cbn List.mem_cons_self, held⟩

theorem acceptCommands_eq {c : Cace} (queued : c.Queued) : c.acceptCommands r = c := by
  have none := queued.noCommands
  unfold Cace.acceptCommands
  rw [none]
  exact congrArg (fun commands => { c with commands := commands }) none.symm

/-- The jobs that a step comes to. -/
def stepVisits (r : Readings) (c : Cace) : List (Nat × Job × Cace) :=
  let c := (c.acceptCommands r).acceptNotifications r
  visits r 0 c.jobs c

/-- A step up to the expiry of variables at its end. -/
theorem step_split {c c' : Cace} (queued : c.Queued)
    (notified : ∀ cbn ∈ c.believeNotifications, may.applies (.believeNotification cbn))
    (late : c.safeStepMode = true → ∀ job ∈ c.jobs, ∀ m ∈ job.held, may.applies m)
    (repeats : ∀ v ∈ stepVisits r c, ResendsWithin may (r.forJob v.1) v.2.2 v.2.1)
    (success : c.step r = .ok c') :
    ∃ d, Path r may c d ∧ c' = d.invalidate r.distributedTime := by
  unfold Cace.step at success
  unfold stepVisits at repeats
  rw [acceptCommands_eq queued] at success repeats
  have accepted := @acceptNotifications_path r may c queued notified
  have mode : (c.acceptNotifications r).safeStepMode = c.safeStepMode :=
    congrArg Config.safeStepMode accepted.config
  split at success
  next => cases success
  next c1 processed =>
    obtain rfl := Except.ok.inj success
    have jobs : Path r may c c1 := by
      refine accepted.trans (processJobs_path (accepted.queued queued) ?_ repeats processed)
      intro safe job member m held
      rcases acceptNotifications_jobs r c job member with old | ⟨cbn, inQueue, own⟩
      · exact late (mode.symm.trans safe) job old m held
      · rw [own] at held
        rw [List.mem_singleton.mp held]
        exact notified cbn inQueue
    have queued1 := jobs.queued queued
    let calm : Queues := { c1.queues with agentsToRemove := [] }
    have removed : Path r may c1 (c1.setQueues calm) :=
      shrinkQueues_path calm queued1 (fun _ => id) queued1.noCommands (fun _ => id) fun _ => id
    have queued2 := removed.queued queued1
    refine ⟨_, (jobs.trans removed).trans ?_, rfl⟩
    split
    · let empty : Queues :=
        { calm with
          commands := [], writeAcknowledges := [], shortAcks := [], believeNotifications := [] }
      have held : empty.held ⊆ calm.held :=
        held_subset (List.nil_subset _) (List.nil_subset _) (List.nil_subset _)
          (List.nil_subset _) (fun _ => id)
      exact shrinkQueues_path empty queued2 held rfl (fun _ => id) (List.nil_subset _)
    · exact .refl

theorem step_path {c c' : Cace} (queued : c.Queued)
    (notified : ∀ cbn ∈ c.believeNotifications, may.applies (.believeNotification cbn))
    (late : c.safeStepMode = true → ∀ job ∈ c.jobs, ∀ m ∈ job.held, may.applies m)
    (repeats : ∀ v ∈ stepVisits r c, ResendsWithin may (r.forJob v.1) v.2.2 v.2.1)
    (expires : may.expires) (success : c.step r = .ok c') : Path r may c c' := by
  obtain ⟨d, path, rfl⟩ := @step_split r may c c' queued notified late repeats success
  exact path.tail (.invalidate r.distributedTime expires)

end Step

section Engagement

private theorem sendBelieveUpdate_path {c : Cace} {id : Int} {scope : Name} {lamportTime : Nat}
    (e : Name × ConsensusVariable) (queued : c.Queued) :
    Path r may c (Cace.sendBelieveUpdate r id scope lamportTime c e) := by
  unfold Cace.sendBelieveUpdate
  dsimp only
  split
  · split
    · have built := @believeNotificationJob_path r may c e.1 id lamportTime
      exact built.trans (appendJob_path (built.queued queued) (by simp [Job.held])
        (.created c _ (built.earlier queued) (.believeNotification e.1 id lamportTime)
          List.prefix_rfl))
    · exact .refl
  · exact .refl

private theorem sendBelieveUpdates_path {c : Cace} {id : Int} {scope : Name} {lamportTime : Nat}
    (queued : c.Queued) : Path r may c (c.sendBelieveUpdates r id scope lamportTime) := by
  unfold Cace.sendBelieveUpdates
  generalize c.store = store
  induction store generalizing c with
  | nil => exact .refl
  | cons e store ih =>
    have first := @sendBelieveUpdate_path r may c id scope lamportTime e queued
    exact first.trans (ih (first.queued queued))

theorem agentEngangement_path {c : Cace} {id : Int} {updates : Bool} (queued : c.Queued) :
    Path r may c (c.agentEngangement r id updates) := by
  unfold Cace.agentEngangement
  split
  next => exact .refl
  next other =>
    split
    next => exact .refl
    next fresh =>
      have engaged : Path r may c { c with activeRobots := c.activeRobots ++ [id] } :=
        .single (.engage other (by simpa using fresh))
      dsimp only
      split
      · exact engaged.trans (sendBelieveUpdates_path (engaged.queued queued))
      · exact engaged

end Engagement

section Handlers

/-- The message is not filtered out, and it is addressed to the agent. -/
structure Reaches (m : Message) (c : Cace) (receivers : List Int) : Prop where
  unlisted : m.senderID ∉ c.agentBlacklist
  addressed : c.addressed receivers = true

private theorem unlisted {c : Cace} {m : Message} (heard : may.receives m)
    (passes : ¬ c.isBlacklisted m.senderID = true) : Path r may c (c.receive m) :=
  .single (.receive (by simpa [Cace.isBlacklisted] using passes) heard)

/-- A received message is put into a queue. -/
private theorem push_path {c : Cace} {m : Message} (q : Queues) (queued : c.Queued)
    (received : .received m ∈ c.history)
    (pushed : ∀ m' ∈ q.held, m' ∈ c.queues.held ∨ m' = m) (noCommands : q.commands = [])
    (jobs : q.jobs = c.jobs)
    (answers : ∀ sa ∈ q.shortAcks, sa ∈ c.shortAcks ∨ c.addressed sa.receiverID = true) :
    Path r may c (c.setQueues q) :=
  setQueues_path q queued
    (fun m' member => (pushed m' member).imp_right fun (same : m' = m) => same ▸ received)
    noCommands (fun _ member => .kept (jobs ▸ member)) answers

private theorem received_self (c : Cace) (m : Message) :
    .received m ∈ (c.receive m).history := by
  simp [receive_history]

theorem handleCaceVariableRequest_path {c : Cace} {cvr : CaceVariableRequest}
    (heard : may.receives (.variableRequest cvr)) :
    Path r may c (c.handleCaceVariableRequest cvr) := by
  unfold Cace.handleCaceVariableRequest
  split
  next => exact .refl
  next passes =>
    have taken : Path r may c (c.receive (.variableRequest cvr)) := unlisted heard passes
    dsimp only
    split
    · split
      · exact taken.trans sendCaceResponse_path
      · exact taken.trans sendCaceResponse_path
    · exact taken

theorem handleCaceResponse_path {c : Cace} {cc : CaceCommand} (queued : c.Queued)
    (heard : may.receives (.response cc)) :
    Path r may c (c.handleCaceResponse r cc) := by
  unfold Cace.handleCaceResponse
  split
  next => exact .refl
  next passes =>
    have taken : Path r may c (c.receive (.response cc)) := unlisted heard passes
    have queued1 := taken.queued queued
    dsimp only
    split
    · refine taken.trans (shrinkQueues_path { (c.receive (.response cc)).queues with
        responses := _ } queued1 (fun _ => id) queued1.noCommands (fun _ => id) fun _ => id)
    · exact taken

theorem handleCaceWrite_path {c : Cace} {cc : CaceCommand} (queued : c.Queued)
    (heard : may.receives (.write cc)) :
    Path r may c (c.handleCaceWrite r cc) := by
  unfold Cace.handleCaceWrite
  split
  next => exact .refl
  next passes =>
    have taken : Path r may c (c.receive (.write cc)) := unlisted heard passes
    have received := received_self c (.write cc)
    dsimp only
    split
    · have built : Path r may (c.receive (.write cc))
          (WriteAckJob.construct r (c.receive (.write cc)) []
            (c.receive (.write cc)).lamportTime.time cc).1 := by
        unfold WriteAckJob.construct
        dsimp only
        split
        · exact .refl
        · exact writeAckAnswer_path received
      refine (taken.trans built).trans (appendJob_path (built.queued (taken.queued queued)) ?_
        (.created _ _ (built.earlier (taken.queued queued)) (.writeAck cc received)
          List.prefix_rfl))
      intro m member
      obtain rfl : m = .write cc := by simpa [Job.held, WriteAckJob.construct] using member
      exact built.history.subset received
    · exact taken

theorem handleCaceWriteAck_path {c : Cace} {ca : CaceShortAck} (queued : c.Queued)
    (heard : may.receives (.writeAck ca)) :
    Path r may c (c.handleCaceWriteAck ca) := by
  unfold Cace.handleCaceWriteAck
  split
  next => exact .refl
  next passes =>
    have taken : Path r may c (c.receive (.writeAck ca)) := unlisted heard passes
    have queued1 := taken.queued queued
    dsimp only
    split
    · refine taken.trans (push_path { (c.receive (.writeAck ca)).queues with
        writeAcknowledges := (c.receive (.writeAck ca)).writeAcknowledges ++ [ca] }
        queued1 (received_self c (.writeAck ca)) ?_ queued1.noCommands rfl fun _ => .inl)
      intro m member
      simp only [Queues.held, List.map_append, List.mem_append, List.map_cons, List.map_nil,
        List.mem_singleton] at member ⊢
      tauto
    · exact taken

theorem handleCaceCommand_path {c : Cace} {cc : CaceCommand} (queued : c.Queued)
    (heard : may.receives (.command cc))
    (applies : Reaches (.command cc) c cc.receiverID → may.applies (.command cc))
    (allowed : c.quiet = false → c.safeStepMode = false → Reaches (.command cc) c cc.receiverID →
      AcceptStrategy.fireAndForget.code < cc.level →
        may.acks (CommandAcknowledgeJob.doVariableUpdate r (c.receive (.command cc)) cc)) :
    Path r may c (c.handleCaceCommand r cc) := by
  unfold Cace.handleCaceCommand
  split
  next => exact .refl
  next passes =>
    have taken : Path r may c (c.receive (.command cc)) := unlisted heard passes
    have received := received_self c (.command cc)
    dsimp only
    split
    next addressed =>
      have reaches : Reaches (.command cc) c cc.receiverID :=
        ⟨by simpa [Cace.isBlacklisted, Message.senderID] using passes, addressed⟩
      have built := @commandAcknowledgeJob_path r may (c.receive (.command cc))
        (c.receive (.command cc)).activeRobots cc received (fun _ => applies reaches)
        fun loud direct => allowed loud direct reaches
      refine (taken.trans built).trans (appendJob_path (built.queued (taken.queued queued)) ?_
        (.created _ _ (built.earlier (taken.queued queued)) (.commandAcknowledge cc received)
          List.prefix_rfl))
      intro m member
      have command : (CommandAcknowledgeJob.construct r (c.receive (.command cc))
          (c.receive (.command cc)).activeRobots (c.receive (.command cc)).lamportTime.time
          cc).2.command = cc := by
        unfold CommandAcknowledgeJob.construct
        dsimp only
        split
        · rfl
        · split <;> rfl
      obtain rfl : m = .command cc := by
        have held : m = .command (CommandAcknowledgeJob.construct r (c.receive (.command cc))
          (c.receive (.command cc)).activeRobots (c.receive (.command cc)).lamportTime.time
          cc).2.command := List.mem_singleton.mp member
        rw [held, command]
      exact built.history.subset received
    next => exact taken

theorem handleCaceAcknowledge_path {c : Cace} {ca : CaceAcknowledge} (queued : c.Queued)
    (heard : may.receives (.acknowledge ca))
    (applies : Reaches (.acknowledge ca) c ca.receiverID → may.applies (.acknowledge ca)) :
    Path r may c (c.handleCaceAcknowledge r ca) := by
  unfold Cace.handleCaceAcknowledge
  split
  next => exact .refl
  next passes =>
    have taken : Path r may c (c.receive (.acknowledge ca)) := unlisted heard passes
    have received := received_self c (.acknowledge ca)
    dsimp only
    split
    next addressed =>
      have reaches : Reaches (.acknowledge ca) c ca.receiverID :=
        ⟨by simpa [Cace.isBlacklisted, Message.senderID] using passes, addressed⟩
      have built : Path r may (c.receive (.acknowledge ca))
          (ShortAckJob.construct r (c.receive (.acknowledge ca)) []
            (c.receive (.acknowledge ca)).lamportTime.time ca).1 := by
        unfold ShortAckJob.construct
        dsimp only
        split
        · exact .refl
        · exact shortAckAnswer_path received (applies reaches)
      refine (taken.trans built).trans (appendJob_path (built.queued (taken.queued queued)) ?_
        (.created _ _ (built.earlier (taken.queued queued)) (.shortAck ca received)
          List.prefix_rfl))
      intro m member
      obtain rfl : m = .acknowledge ca := by
        simpa [Job.held, ShortAckJob.construct] using member
      exact built.history.subset received
    next => exact taken

theorem handleCaceBelieveNotification_path {c : Cace} {cbn : CaceBelieveNotification}
    (queued : c.Queued) (heard : may.receives (.believeNotification cbn)) :
    Path r may c (c.handleCaceBelieveNotification cbn) := by
  unfold Cace.handleCaceBelieveNotification
  split
  next => exact .refl
  next passes =>
    have taken : Path r may c (c.receive (.believeNotification cbn)) := unlisted heard passes
    have queued1 := taken.queued queued
    dsimp only
    split
    · refine taken.trans (push_path { (c.receive (.believeNotification cbn)).queues with
        believeNotifications :=
          (c.receive (.believeNotification cbn)).believeNotifications ++ [cbn] }
        queued1 (received_self c (.believeNotification cbn)) ?_ queued1.noCommands rfl
        fun _ => .inl)
      intro m member
      simp only [Queues.held, List.map_append, List.mem_append, List.map_cons, List.map_nil,
        List.mem_singleton] at member ⊢
      tauto
    · exact taken

theorem handleCaceShortAck_path {c : Cace} {sa : CaceShortAck} (queued : c.Queued)
    (heard : may.receives (.shortAck sa)) :
    Path r may c (c.handleCaceShortAck sa) := by
  unfold Cace.handleCaceShortAck
  split
  next => exact .refl
  next passes =>
    have taken : Path r may c (c.receive (.shortAck sa)) := unlisted heard passes
    have queued1 := taken.queued queued
    dsimp only
    split
    next addressed =>
      refine taken.trans (push_path { (c.receive (.shortAck sa)).queues with
        shortAcks := (c.receive (.shortAck sa)).shortAcks ++ [sa] }
        queued1 (received_self c (.shortAck sa)) ?_ queued1.noCommands rfl ?_)
      · intro m member
        simp only [Queues.held, List.map_append, List.mem_append, List.map_cons, List.map_nil,
          List.mem_singleton] at member ⊢
        tauto
      · intro sa' member
        rcases List.mem_append.mp member with old | new
        · exact .inl old
        · rw [List.mem_singleton.mp new]
          exact .inr addressed
    next => exact taken

theorem handleCaceTime_path {c : Cace} {ct : CaceTime} (queued : c.Queued)
    (heard : may.receives (.time ct)) :
    Path r may c (c.handleCaceTime r ct) := by
  unfold Cace.handleCaceTime
  split
  next => exact .refl
  next passes =>
    have taken : Path r may c (c.receive (.time ct)) := unlisted heard passes
    dsimp only
    split
    · exact taken
    · exact taken.trans (agentEngangement_path (taken.queued queued))

/-- What reaches the handler of a message: the quiet module stamps some anew. -/
def heard (c : Cace) : Message → Message
  | .command cc => .command (c.stampedCommand cc)
  | .acknowledge ca => .acknowledge (c.stampedAcknowledge ca)
  | m => m

/-- Whether the handler goes on with a message that has passed the blacklist. -/
def attends (c : Cace) : Message → Bool
  | .time ct => !c.activeRobots.contains ct.senderID
  | m => c.addressed (m.receiverID.getD [])

/-- What the handler does then. -/
def respond (r : Readings) (c : Cace) : Message → Cace
  | .command cc =>
    let built := CommandAcknowledgeJob.construct r c c.activeRobots c.lamportTime.time cc
    built.1.appendJob (.commandAcknowledge built.2)
  | .acknowledge ca =>
    let built := ShortAckJob.construct r c [] c.lamportTime.time ca
    built.1.appendJob (.shortAck built.2)
  | .shortAck sa => { c with shortAcks := c.shortAcks ++ [sa] }
  | .believeNotification cbn =>
    { c with believeNotifications := c.believeNotifications ++ [cbn] }
  | .time ct => c.agentEngangement r ct.senderID true
  | .variableRequest cvr =>
    match c.getVariable cvr.variableName with
    | some cv => c.sendCaceResponse cv cvr.msgID cvr.senderID
    | none =>
      let cv := { Believe.construct cvr.variableName .noDistribution 0 c.ownID 0 0 0 with
        proposals := [] }
      c.sendCaceResponse cv cvr.msgID cvr.senderID
  | .write cc =>
    let built := WriteAckJob.construct r c [] c.lamportTime.time cc
    built.1.appendJob (.writeAck built.2)
  | .writeAck ca => { c with writeAcknowledges := c.writeAcknowledges ++ [ca] }
  | .response cc =>
    let cv := Believe.construct cc.variableName ⟨cc.level⟩ cc.validityTime cc.senderID
      cc.decissionTime cc.lamportTime (toShort cc.type)
    let cv :=
      if cc.value.isEmpty then cv
      else { cv.setValue cc.value with arrivalTime := r.localTime }
    { c with responses := c.responses ++ [{ cv with proposals := [] }] }

/-- The handlers differ in `attends` and `respond` only. -/
theorem handle_eq (r : Readings) (c : Cace) (m : Message) :
    c.handle r m =
      if c.isBlacklisted (heard c m).senderID then c
      else if attends c (heard c m) then respond r (c.receive (heard c m)) (heard c m)
      else c.receive (heard c m) := by
  cases m with
  | time ct =>
    change (if c.isBlacklisted ct.senderID then c
      else if c.activeRobots.contains ct.senderID then c.receive (.time ct)
      else respond r (c.receive (.time ct)) (.time ct)) =
        if c.isBlacklisted ct.senderID then c
        else if !c.activeRobots.contains ct.senderID then
          respond r (c.receive (.time ct)) (.time ct)
        else c.receive (.time ct)
    cases c.activeRobots.contains ct.senderID <;> rfl
  | command | acknowledge | shortAck | believeNotification | variableRequest | write | writeAck
  | response => rfl

theorem handle_cases (r : Readings) (c : Cace) (m : Message) :
    c.handle r m = c ∨ c.handle r m = c.receive (heard c m) ∨
      (c.isBlacklisted (heard c m).senderID = false ∧ attends c (heard c m) = true ∧
        c.handle r m = respond r (c.receive (heard c m)) (heard c m)) := by
  rw [handle_eq]
  split
  · exact .inl rfl
  next passes =>
    split
    next listens => exact .inr (.inr ⟨by simpa using passes, listens, rfl⟩)
    next => exact .inr (.inl rfl)

/-- The stamping changes nothing else. -/
theorem heard_report {c : Cace} {m : Message} {report : Report}
    (reports : (heard c m).report? = some report) :
    ∃ t, m.report? = some { report with lamportTime := t } := by
  cases m with
  | command cc =>
    refine ⟨cc.lamportTime, ?_⟩
    obtain rfl := Option.some.inj reports
    unfold Cace.stampedCommand
    split <;> rfl
  | acknowledge ca =>
    refine ⟨ca.lamportTime, ?_⟩
    obtain rfl := Option.some.inj reports
    unfold Cace.stampedAcknowledge
    split <;> rfl
  | believeNotification | shortAck | write | writeAck | time | variableRequest | response =>
    exact ⟨report.lamportTime, reports⟩

@[simp] theorem heard_strategy (c : Cace) (m : Message) :
    (heard c m).strategy? = m.strategy? := by
  cases m with
  | command cc =>
    simp only [heard, Cace.stampedCommand]
    split <;> rfl
  | acknowledge | believeNotification | shortAck | write | writeAck | time | variableRequest
  | response => rfl

@[simp] theorem heard_decissionTime (c : Cace) (m : Message) :
    (heard c m).decissionTime? = m.decissionTime? := by
  cases m with
  | command cc =>
    simp only [heard, Cace.stampedCommand]
    split <;> rfl
  | acknowledge | believeNotification | shortAck | write | writeAck | time | variableRequest
  | response => rfl

/-- Whether what the handler gets would be applied: it passes and is addressed. -/
def Applicable (c : Cace) (m : Message) : Prop :=
  ∃ receivers, m.receiverID = some receivers ∧ Reaches m c receivers

theorem handle_path {c : Cace} {m : Message} (queued : c.Queued)
    (received : may.receives (heard c m))
    (applies : Applicable c (heard c m) → may.applies (heard c m))
    (allowed : ∀ cc, m = .command cc → ∀ d, may.acks d) : Path r may c (c.handle r m) := by
  cases m with
  | command cc =>
    exact handleCaceCommand_path queued received (fun reaches => applies ⟨_, rfl, reaches⟩)
      fun _ _ _ _ => allowed cc rfl _
  | acknowledge =>
    exact handleCaceAcknowledge_path queued received fun reaches => applies ⟨_, rfl, reaches⟩
  | shortAck => exact handleCaceShortAck_path queued received
  | believeNotification => exact handleCaceBelieveNotification_path queued received
  | time => exact handleCaceTime_path queued received
  | variableRequest => exact handleCaceVariableRequest_path received
  | write => exact handleCaceWrite_path queued received
  | writeAck => exact handleCaceWriteAck_path queued received
  | response => exact handleCaceResponse_path queued received

end Handlers

section Calls

/-- The second half of `distributeValue`: the job and its command. -/
theorem distributeValue_rest {c : Cace} {name : Name} {value : Bytes} {type : Int}
    {strategy : AcceptStrategy}
    (queued : (CaceSpace.decideValue r c name value type strategy).Queued) :
    Path r may (CaceSpace.decideValue r c name value type strategy)
      (CaceSpace.distributeValue r c name value type strategy) := by
  let d := CaceSpace.decideValue r c name value type strategy
  have decided : (d.deref (.stored name)).val = value := by
    simp only [d, Cace.deref, getVariable_decideValue, if_true, Option.getD_some]
    cases c.getVariable name <;> rfl
  have built := @commandJob_path r may d (.stored name) d.activeRobots d.lamportTime.time trivial
  have appended := built.trans (appendJob_path (built.queued queued) (by simp [Job.held])
    (.created d _ (built.earlier queued) (.command (.stored name) trivial)
      List.prefix_rfl))
  rw [decided] at appended
  exact appended

theorem distributeValue_path {c : Cace} {name : Name} {value : Bytes} {type : Int}
    {strategy : AcceptStrategy} (queued : c.Queued) (chosen : may.decides name) :
    Path r may c (CaceSpace.distributeValue r c name value type strategy) := by
  have decided : Path r may c (CaceSpace.decideValue r c name value type strategy) :=
    .single (.decide name value type strategy chosen)
  exact decided.trans (distributeValue_rest (decided.queued queued))

theorem command_path {c : Cace} {variablePtr : VariablePtr} (queued : c.Queued)
    (pointed : Pointed may variablePtr) : Path r may c (CaceSpace.command r c variablePtr) := by
  have built := @commandJob_path r may c variablePtr c.activeRobots c.lamportTime.time pointed
  exact built.trans (appendJob_path (built.queued queued) (by simp [Job.held])
    (.created c _ (built.earlier queued) (.command variablePtr pointed)
      List.prefix_rfl))

theorem addVariable_path {c : Cace} {var : ConsensusVariable} {distribute : Bool}
    (queued : c.Queued) (given : may.passes var) :
    Path r may c (CaceSpace.addVariable r c var distribute) := by
  have added : Path r may c (c.insertVariable var) := .single (.insert given)
  unfold CaceSpace.addVariable
  dsimp only
  split
  · refine added.trans (command_path (added.queued queued) ?_)
    split
    · exact given
    · trivial
  · exact added

/-- The variable that `distributeVariable` gets is passed in, or is the one stored under
its own name. -/
def Given (passed : ConsensusVariable → Prop) (c : Cace) (variablePtr : VariablePtr) : Prop :=
  passed (c.deref variablePtr) ∨
    ∃ name cv, variablePtr = .stored name ∧ c.getVariable name = some cv ∧ cv.name = name

theorem distributeVariable_path {c : Cace} {variablePtr : VariablePtr} (queued : c.Queued)
    (given : Given may.passes c variablePtr) :
    Path r may c (CaceSpace.distributeVariable r c variablePtr) := by
  unfold CaceSpace.distributeVariable
  dsimp only
  rcases given with given | ⟨name, cv, rfl, stored, named⟩
  · have pointed : Pointed may variablePtr := by
      cases variablePtr with
      | stored => trivial
      | detached => exact given
    split
    next inStoreVar stored =>
      split
      · exact command_path queued pointed
      · have written : Path r may c (c.setVariable (c.deref variablePtr).name
            (inStoreVar.update (c.deref variablePtr))) := .single (.overwrite given stored)
        exact written.trans (command_path (written.queued queued) trivial)
    next => exact addVariable_path queued given
  · have read : c.deref (.stored name) = cv := by simp [Cace.deref, stored]
    rw [read, named, stored]
    simp only [if_true]
    exact command_path queued trivial

theorem pNoBlock_path {c : Cace} {name : Name} {strict : Bool} {robots : List Int}
    (queued : c.Queued) (chosen : may.decides (c.deref (.stored name)).name) :
    Path r may c (CaceMutex.pNoBlock r c name strict robots).1 := by
  unfold CaceMutex.pNoBlock
  dsimp only
  split
  · split
    · exact .refl
    · split
      · exact distributeValue_path queued chosen
      · exact .refl
  · exact .refl

theorem v_path {c : Cace} {name : Name} (queued : c.Queued)
    (chosen : may.decides (c.deref (.stored name)).name) :
    Path r may c (CaceMutex.v r c name).1 := by
  unfold CaceMutex.v
  dsimp only
  split
  · exact distributeValue_path queued chosen
  · exact .refl

theorem requestVariable_path {c : Cace} {name : Name} {agentID : Int} (queued : c.Queued) :
    Path r may c (CaceSpace.requestVariable r c name agentID) := by
  have cleared : Path r may c (c.deleteResponse name) :=
    shrinkQueues_path { c.queues with responses := Cace.deleteResponseLoop name c.responses }
      queued (fun _ => id) queued.noCommands (fun _ => id) fun _ => id
  have built : Path r may (c.deleteResponse name)
      (RequestJob.construct r (c.deleteResponse name) name (toShort agentID)
        (c.deleteResponse name).lamportTime.time).1 := by
    unfold RequestJob.construct
    dsimp only
    exact sendCaceVariableRequest_path name (toShort agentID)
  have queued1 := cleared.queued queued
  exact (cleared.trans built).trans (appendJob_path (built.queued queued1) (by
    simp [Job.held, RequestJob.construct])
    (.created _ _ (built.earlier queued1) (.request name (toShort agentID))
      List.prefix_rfl))

theorem writeVariable_path {c : Cace} {variablePtr : VariablePtr} {agentID : Int}
    (queued : c.Queued) :
    Path r may c (CaceSpace.writeVariable r c variablePtr agentID) := by
  have built : Path r may c (WriteJob.construct r c variablePtr (toShort agentID)
      c.lamportTime.time).1 := by
    unfold WriteJob.construct
    dsimp only
    exact sendWriteCommand_first_path variablePtr (toShort agentID)
  exact built.trans (appendJob_path (built.queued queued) (by
    simp [Job.held, WriteJob.construct])
    (.created c _ (built.earlier queued) (.write variablePtr (toShort agentID))
      List.prefix_rfl))

end Calls

/-- A message within a licence. -/
structure AdmitsMessage (may : Licence) (c : Cace) (m : Message) : Prop where
  receives : may.receives (heard c m)
  applies : Applicable c (heard c m) → may.applies (heard c m)
  acks : ∀ cc, m = .command cc → ∀ d, may.acks d

/-- A step within a licence: notifications are applied, in safe step mode what the jobs hold,
commands are repeated, and variables expire. -/
structure AdmitsStep (may : Licence) (c : Cace) : Prop where
  notified : ∀ cbn ∈ c.believeNotifications, may.applies (.believeNotification cbn)
  late : c.safeStepMode = true → ∀ job ∈ c.jobs, ∀ m ∈ job.held, may.applies m
  repeats : ∀ d j, may.repeats d j
  expires : may.expires

/-- An event within a licence. -/
def Admits (may : Licence) (c : Cace) : Cace.Event → Prop
  | .distributeValue name _ _ _ => may.decides name
  | .distributeVariable variablePtr => Given may.passes c variablePtr
  | .addVariable var _ => may.passes var
  | .pNoBlock name _ _ | .v name => may.decides (c.deref (.stored name)).name
  | .handle m => AdmitsMessage may c m
  | .step => AdmitsStep may c
  | .writeVariable _ _ | .requestVariable _ _ | .agentEngangement _ _ => True

/-- A licence without limits on what is received, applied and acknowledged. -/
theorem admits_any {c : Cace} {e : Cace.Event}
    (passes : ∀ variablePtr, e = .distributeVariable variablePtr → Given may.passes c variablePtr)
    (adds : ∀ var distribute, e = .addVariable var distribute → may.passes var)
    (decides : ∀ name, may.decides name) (receives : ∀ m, may.receives m)
    (applies : ∀ m, may.applies m)
    (acks : ∀ cc, e = .handle (.command cc) → ∀ d, may.acks d)
    (repeats : ∀ d j, may.repeats d j) (expires : may.expires) : Admits may c e := by
  cases e with
  | distributeVariable variablePtr => exact passes variablePtr rfl
  | distributeValue name => exact decides name
  | addVariable var distribute => exact adds var distribute rfl
  | pNoBlock | v => exact decides _
  | handle m =>
    exact ⟨receives _, fun _ => applies _,
      fun cc command => acks cc (congrArg Cace.Event.handle command)⟩
  | step => exact ⟨fun _ _ => applies _, fun _ _ _ _ _ => applies _, repeats, expires⟩
  | writeVariable | requestVariable | agentEngangement => trivial

/-- Every event is a sequence of effects. -/
theorem exec_path {c c' : Cace} {e : Cace.Event} (queued : c.Queued) (admitted : Admits may c e)
    (success : c.exec r e = .ok c') : Path r may c c' := by
  cases e with
  | distributeValue name value type strategy =>
    exact Except.ok.inj success ▸ distributeValue_path queued admitted
  | distributeVariable variablePtr =>
    exact Except.ok.inj success ▸ distributeVariable_path queued admitted
  | addVariable var distribute =>
    exact Except.ok.inj success ▸ addVariable_path queued admitted
  | writeVariable variablePtr agentID => exact Except.ok.inj success ▸ writeVariable_path queued
  | requestVariable name agentID => exact Except.ok.inj success ▸ requestVariable_path queued
  | pNoBlock name strict robots => exact Except.ok.inj success ▸ pNoBlock_path queued admitted
  | v name => exact Except.ok.inj success ▸ v_path queued admitted
  | agentEngangement id updates => exact Except.ok.inj success ▸ agentEngangement_path queued
  | step =>
    exact step_path queued admitted.notified admitted.late
      (fun _ _ j _ _ d _ => admitted.repeats d j) admitted.expires success
  | handle m =>
    exact Except.ok.inj success ▸
      handle_path queued admitted.receives admitted.applies admitted.acks

/-- An event without any limits. -/
theorem exec_path_any {c c' : Cace} {e : Cace.Event} (queued : c.Queued)
    (success : c.exec r e = .ok c') : Path r {} c c' :=
  exec_path queued (admits_any (fun _ _ => .inl trivial) (fun _ _ _ => trivial)
    (fun _ => trivial) (fun _ => trivial) (fun _ => trivial) (fun _ _ _ => trivial)
    (fun _ _ => trivial) trivial) success

end CaceProofs.Guarantees
