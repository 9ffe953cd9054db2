import CaceProofs.Guarantees.Absorption

/-!
# A quiet agent

The quiet module overrides the sends of the jobs that answer, but not the response. So a quiet
agent that nobody calls says nothing until somebody asks it for a variable.
-/
namespace CaceProofs.Guarantees
open Source Library

/-- A message that goes out, for the first time or again. -/
def isPublished : Observation → Bool
  | .published _ _ => true
  | .received _ | .applied _ | .notified _ => false

/-- What an agent has said. -/
def spoken (c : Cace) : List Observation :=
  c.history.filter isPublished

/-- The two jobs that the quiet module lets speak. -/
def asks : Job → Bool
  | .write _ | .request _ => true
  | .command _ | .commandAcknowledge _ | .believeNotification _ | .believeAcknowledge _
  | .shortAck _ | .writeAck _ => false

/-- What a function of the model does that says nothing at a quiet agent, and starts no job that
would. -/
structure Mute (c c' : Cace) : Prop where
  quiet : c'.quiet = c.quiet
  jobs : ∀ job ∈ c'.jobs, job ∈ c.jobs ∨ asks job = false
  spoken : c.quiet = true → spoken c' = spoken c

/-- A quiet agent without a job that asks. -/
structure Reticent (c : Cace) : Prop where
  quiet : c.quiet = true
  jobs : ∀ job ∈ c.jobs, asks job = false

namespace Mute

variable {a b c c' : Cace}

theorem refl (c : Cace) : Mute c c :=
  ⟨rfl, fun _ => .inl, fun _ => rfl⟩

theorem trans (first : Mute a b) (second : Mute b c) : Mute a c where
  quiet := second.quiet.trans first.quiet
  jobs job member := by
    rcases second.jobs job member with old | silent
    · exact first.jobs job old
    · exact .inr silent
  spoken quiet := (second.spoken (first.quiet.trans quiet)).trans (first.spoken quiet)

theorem foldl {α : Type} {f : Cace → α → Cace} (each : ∀ c a, Mute c (f c a)) (l : List α)
    (c : Cace) : Mute c (l.foldl f c) := by
  induction l generalizing c with
  | nil => exact refl c
  | cons x l ih => exact (each c x).trans (ih _)

theorem reticent (mute : Mute c c') (before : Reticent c) : Reticent c' where
  quiet := mute.quiet.trans before.quiet
  jobs job member := (mute.jobs job member).elim (before.jobs job) id

/-- A new job that does not ask. -/
theorem append_job {job : Job} (mute : Mute c c') (silent : asks job = false) :
    Mute c (c'.appendJob job) where
  quiet := mute.quiet
  jobs j member := by
    rcases List.mem_append.mp member with old | new
    · exact mute.jobs j old
    · exact .inr (List.mem_singleton.mp new ▸ silent)
  spoken := mute.spoken

end Mute

section Sends

variable (c : Cace) (m : Message) (t : Transmission)

theorem tick_mute : Mute c c.tickLamportTime :=
  ⟨rfl, fun _ => .inl, fun _ => rfl⟩

theorem publishUnlessQuiet_mute : Mute c (c.publishUnlessQuiet m t) := by
  unfold Cace.publishUnlessQuiet
  split
  next => exact .refl c
  next loud => exact ⟨rfl, fun _ => .inl, fun quiet => absurd quiet loud⟩

theorem send_mute : Mute c (c.tickLamportTime.publishUnlessQuiet m t) :=
  (tick_mute c).trans (publishUnlessQuiet_mute _ m t)

theorem resendLoop_mute {r : Readings} {send : Cace → Int → Cace}
    (each : ∀ c i, Mute c (send c i)) (expected : List Int) (entities : List JobStateEntity)
    (c : Cace) : Mute c (resendLoop r send expected entities c).cace := by
  rw [resendLoop_cace]
  exact .foldl each _ c

/-- Received, applied and notified things are not said. -/
theorem mute_of_history {c' : Cace} {seen : List Observation} (quiet : c'.quiet = c.quiet)
    (jobs : c'.jobs = c.jobs) (history : c'.history = c.history ++ seen)
    (silent : ∀ o ∈ seen, isPublished o = false) : Mute c c' := by
  refine ⟨quiet, fun job member => .inl (jobs ▸ member), fun _ => ?_⟩
  have none : seen.filter isPublished = [] := List.filter_eq_nil_iff.mpr fun o member => by
    simp [silent o member]
  rw [spoken, history, List.filter_append, none, List.append_nil]
  rfl

end Sends

section Jobs

variable {r : Readings} {c c' : Cace} {job job' : Job} {finished : Bool}

theorem applyMessage_mute (r : Readings) (c : Cace) (m : Message) :
    Mute c (applyMessage r c m) := by
  have update : ∀ u : ProposalUpdate, Mute c (c.updateVariable u) := by
    intro u
    obtain ⟨seen, history, notified⟩ := updateVariable_history c u
    refine mute_of_history c (by rw [updateVariable_frame]) (by rw [updateVariable_frame])
      history fun o member => ?_
    rcases List.mem_cons.mp member with rfl | later
    · rfl
    · rw [notified o later]
      rfl
  cases m with
  | command | believeNotification | acknowledge => exact update _
  | write cmd =>
    obtain ⟨seen, history, notified⟩ := writeUpdate_history r c cmd
    refine mute_of_history c (by simp only [applyMessage]; rw [writeUpdate_frame])
      (by simp only [applyMessage]; rw [writeUpdate_frame]) history fun o member => ?_
    rcases List.mem_cons.mp member with rfl | later
    · rfl
    · rw [notified o later]
      rfl
  | shortAck | time | variableRequest | writeAck | response => exact .refl c

theorem shortAckAnswer_mute (r : Readings) (c : Cace) (ack : CaceAcknowledge) :
    Mute c (ShortAckJob.answer r c ack) := by
  have updated := applyMessage_mute r c (.acknowledge ack)
  unfold ShortAckJob.answer
  dsimp only
  split
  · exact updated.trans (send_mute _ _ _)
  · exact updated

theorem writeAckAnswer_mute (r : Readings) (c : Cace) (cmd : CaceCommand) :
    Mute c (WriteAckJob.answer r c cmd) :=
  (applyMessage_mute r c (.write cmd)).trans (send_mute _ _ _)

theorem acknowledge_mute (c : Cace) (cbn : CaceBelieveNotification) (msgID : Int)
    (ids : List Int) : Mute c (BelieveAcknowledgeJob.acknowledge c cbn msgID ids) :=
  .foldl (fun _ _ => send_mute _ _ _) ids c

theorem commandAcknowledge_catchUp_mute (r : Readings) (c : Cace) (j : CommandAcknowledgeJob) :
    Mute c (j.catchUp r c).1 := by
  have updated := applyMessage_mute r c (.command j.command)
  unfold CommandAcknowledgeJob.catchUp
  dsimp only
  split
  · split
    · exact updated.trans (send_mute _ _ _)
    · exact updated
  · exact .refl c

theorem believeAcknowledge_catchUp_mute (r : Readings) (c : Cace) (j : BelieveAcknowledgeJob) :
    Mute c (j.catchUp r c).1 := by
  have updated := applyMessage_mute r c (.believeNotification j.notification)
  unfold BelieveAcknowledgeJob.catchUp
  dsimp only
  split
  · split
    · exact updated.trans (acknowledge_mute _ _ _ _)
    · exact updated
  · exact .refl c

theorem shortAcks_mute (c : Cace) (msgID : Int) :
    Mute c (c.getCaceShortAcksAndRemove msgID).2 :=
  ⟨rfl, fun _ => .inl, fun _ => rfl⟩

theorem process_mute (silent : asks job = false)
    (success : job.process r c = .ok (c', job', finished)) :
    Mute c c' ∧ asks job' = false := by
  have unlessQuiet : ∀ {send : Cace → Int → Cace} {expected entities},
      (∀ c i, ∃ m t, send c i = c.publishUnlessQuiet m t) → ∀ c,
        Mute c (resendLoop r send expected entities c).cace := by
    intro send expected entities sends c
    refine resendLoop_mute (fun c i => ?_) expected entities c
    obtain ⟨m, t, same⟩ := sends c i
    rw [same]
    exact publishUnlessQuiet_mute c m t
  cases job with
  | command j =>
    obtain ⟨rfl, rfl, rfl⟩ := by simpa [Job.process] using success
    refine ⟨?_, rfl⟩
    unfold CommandJob.process
    dsimp only
    split
    · exact unlessQuiet (fun _ _ => ⟨_, _, rfl⟩) _
    · exact .refl c
  | believeNotification j =>
    obtain ⟨rfl, rfl, rfl⟩ := by simpa [Job.process] using success
    refine ⟨?_, rfl⟩
    unfold BelieveNotificationJob.process
    dsimp only
    split
    · exact unlessQuiet (fun _ _ => ⟨_, _, rfl⟩) _
    · exact .refl c
  | commandAcknowledge j =>
    obtain ⟨rfl, rfl, rfl⟩ := by simpa [Job.process] using success
    refine ⟨?_, rfl⟩
    have caught := commandAcknowledge_catchUp_mute r c j
    have answered := caught.trans
      (shortAcks_mute (j.catchUp r c).1 (j.catchUp r c).2.msgID)
    unfold CommandAcknowledgeJob.process
    dsimp only
    split
    · split
      · exact answered.trans (unlessQuiet (fun _ _ => ⟨_, _, rfl⟩) _)
      · exact answered
    · exact caught
  | believeAcknowledge j =>
    obtain ⟨rfl, rfl, rfl⟩ := by simpa [Job.process] using success
    refine ⟨?_, rfl⟩
    have caught := believeAcknowledge_catchUp_mute r c j
    have answered := caught.trans
      (shortAcks_mute (j.catchUp r c).1 (j.catchUp r c).2.msgID)
    unfold BelieveAcknowledgeJob.process
    dsimp only
    split
    · split
      · exact answered.trans (unlessQuiet (fun _ _ => ⟨_, _, rfl⟩) _)
      · exact answered
    · exact caught
  | shortAck j =>
    obtain ⟨rfl, rfl, rfl⟩ := by simpa [Job.process] using success
    refine ⟨?_, rfl⟩
    unfold ShortAckJob.process
    dsimp only
    split
    · exact shortAckAnswer_mute r c j.ack
    · exact .refl c
  | writeAck j =>
    obtain ⟨rfl, rfl, rfl⟩ := by simpa [Job.process] using success
    refine ⟨?_, rfl⟩
    unfold WriteAckJob.process
    dsimp only
    split
    · exact writeAckAnswer_mute r c j.cmd
    · exact .refl c
  | write | request => cases silent

end Jobs

section Constructors

variable (r : Readings) (c : Cace)

theorem commandAcknowledge_construct_mute (ids : List Int) (t : Nat) (cmd : CaceCommand) :
    Mute c (CommandAcknowledgeJob.construct r c ids t cmd).1 := by
  have updated := applyMessage_mute r c (.command cmd)
  unfold CommandAcknowledgeJob.construct
  dsimp only
  split
  · exact .refl c
  · split
    · exact updated.trans (publishUnlessQuiet_mute _ _ _)
    · exact updated

theorem believeAcknowledge_construct_mute (ids : List Int) (t : Nat)
    (cbn : CaceBelieveNotification) :
    Mute c (BelieveAcknowledgeJob.construct r c ids t cbn).1 := by
  have updated := applyMessage_mute r c (.believeNotification cbn)
  unfold BelieveAcknowledgeJob.construct
  dsimp only
  split
  · exact .refl c
  · split
    · exact updated.trans (acknowledge_mute _ _ _ _)
    · exact updated

theorem believeNotification_construct_mute (name : Name) (ids : List Int) (t : Nat) :
    Mute c (BelieveNotificationJob.construct r c (.stored name) ids t).1 := by
  unfold BelieveNotificationJob.construct
  dsimp only
  split
  · exact .foldl (fun _ _ => send_mute _ _ _) ids c
  · exact .refl c

theorem shortAck_construct_mute (ids : List Int) (t : Nat) (ack : CaceAcknowledge) :
    Mute c (ShortAckJob.construct r c ids t ack).1 := by
  unfold ShortAckJob.construct
  dsimp only
  split
  · exact .refl c
  · exact shortAckAnswer_mute r c ack

theorem writeAck_construct_mute (ids : List Int) (t : Nat) (cmd : CaceCommand) :
    Mute c (WriteAckJob.construct r c ids t cmd).1 := by
  unfold WriteAckJob.construct
  dsimp only
  split
  · exact .refl c
  · exact writeAckAnswer_mute r c cmd

end Constructors

section Step

variable {r : Readings} {c c' : Cace}

theorem processJobsLoop_mute {k : Nat} {jobs stay : List Job}
    (silent : ∀ job ∈ jobs, asks job = false)
    (success : c.processJobsLoop r k jobs = .ok (c', stay)) :
    Mute c c' ∧ ∀ job ∈ stay, asks job = false := by
  induction jobs generalizing c c' k stay with
  | nil =>
    obtain ⟨rfl, rfl⟩ := by simpa [Cace.processJobsLoop] using success
    exact ⟨.refl c, by simp⟩
  | cons job jobs ih =>
    unfold Cace.processJobsLoop at success
    split at success
    next => cases success
    next c1 job1 finished done =>
      obtain ⟨first, kept⟩ := process_mute (silent job List.mem_cons_self) done
      dsimp only at success
      have removed : Mute c (if finished && job1.failed then
          { c1 with agentsToRemove := c1.agentsToRemove ++ job1.base.expectedRobotIDs }
          else c1) := by
        split
        · exact ⟨first.quiet, first.jobs, first.spoken⟩
        · exact first
      split at success
      next => cases success
      next c2 stay2 later =>
        obtain ⟨rest, stays⟩ := ih (fun j member => silent j (List.mem_cons_of_mem _ member)) later
        obtain ⟨rfl, rfl⟩ := by simpa using success
        refine ⟨removed.trans rest, ?_⟩
        cases finished with
        | true => exact stays
        | false => exact List.forall_mem_cons.mpr ⟨kept, stays⟩

theorem processJobs_mute (silent : ∀ job ∈ c.jobs, asks job = false)
    (success : c.processJobs r = .ok c') : Mute c c' := by
  unfold Cace.processJobs at success
  split at success
  next => cases success
  next d stay done =>
    obtain ⟨mute, stays⟩ := processJobsLoop_mute silent done
    obtain rfl := Except.ok.inj success
    exact ⟨mute.quiet, fun job member => .inr (stays job member), mute.spoken⟩

theorem acceptNotifications_mute (r : Readings) (c : Cace) : Mute c (c.acceptNotifications r) := by
  have cleared : Mute c { c with believeNotifications := [] } :=
    ⟨rfl, fun _ => .inl, fun _ => rfl⟩
  exact cleared.trans (.foldl (fun d cbn =>
    (believeAcknowledge_construct_mute r d _ _ cbn).append_job rfl) _ _)

theorem acceptCommands_mute (r : Readings) (c : Cace) : Mute c (c.acceptCommands r) := by
  have cleared : Mute c { c with commands := [] } := ⟨rfl, fun _ => .inl, fun _ => rfl⟩
  exact cleared.trans (.foldl (fun d cmd =>
    (commandAcknowledge_construct_mute r d _ _ cmd).append_job rfl) _ _)

theorem step_mute (reticent : Reticent c) (success : c.step r = .ok c') : Mute c c' := by
  have accepted := (acceptCommands_mute r c).trans (acceptNotifications_mute r _)
  unfold Cace.step at success
  split at success
  next => cases success
  next d done =>
    have processed := accepted.trans
      (processJobs_mute (accepted.reticent reticent).jobs done)
    obtain rfl := Except.ok.inj success
    refine processed.trans ?_
    split
    · exact ⟨rfl, fun _ => .inl, fun _ => rfl⟩
    · exact ⟨rfl, fun _ => .inl, fun _ => rfl⟩

end Step

section Handlers

variable (r : Readings) (c : Cace)

theorem agentEngangement_mute (id : Int) (sendBeliveUpdates : Bool) :
    Mute c (c.agentEngangement r id sendBeliveUpdates) := by
  unfold Cace.agentEngangement
  split
  · exact .refl c
  · split
    · exact .refl c
    · have engaged : Mute c { c with activeRobots := c.activeRobots ++ [id] } :=
        ⟨rfl, fun _ => .inl, fun _ => rfl⟩
      dsimp only
      split
      · refine engaged.trans (.foldl (fun d e => ?_) _ _)
        unfold Cace.sendBelieveUpdate
        split
        · split
          · exact (believeNotification_construct_mute r d e.1 _ _).append_job rfl
          · exact .refl d
        · exact .refl d
      · exact engaged

theorem receive_mute (m : Message) : Mute c (c.receive m) := by
  have quiet : (c.receive m).quiet = c.quiet := by
    unfold Cace.receive
    split <;> rfl
  have jobs : (c.receive m).jobs = c.jobs := by
    unfold Cace.receive
    split <;> rfl
  exact mute_of_history c quiet jobs (receive_history c m) (by simp [isPublished])

/-- A question that the agent answers. -/
def Asked (c : Cace) (m : CaceVariableRequest) : Prop :=
  c.isBlacklisted m.senderID = false ∧ c.addressed m.receiverID = true

/-- The events that are no calls of the variable space. -/
def Remote : Cace.Event → Prop
  | .agentEngangement _ _ | .step | .handle _ => True
  | .distributeValue _ _ _ _ | .distributeVariable _ | .addVariable _ _ | .writeVariable _ _
  | .requestVariable _ _ | .pNoBlock _ _ _ | .v _ => False

/-- The events at which even a quiet agent speaks. -/
def Provokes (c : Cace) : Cace.Event → Prop
  | .handle (.variableRequest m) => Asked c m
  | .handle (.command _) | .handle (.acknowledge _) | .handle (.shortAck _)
  | .handle (.believeNotification _) | .handle (.time _) | .handle (.write _)
  | .handle (.writeAck _) | .handle (.response _) | .agentEngangement _ _ | .step
  | .distributeValue _ _ _ _ | .distributeVariable _ | .addVariable _ _ | .writeVariable _ _
  | .requestVariable _ _ | .pNoBlock _ _ _ | .v _ => False

/-- Only a request for a variable makes a handler speak. -/
theorem respond_mute (m : Message) (calm : ∀ cvr, m ≠ .variableRequest cvr) :
    Mute c (respond r c m) := by
  cases m with
  | command => exact (commandAcknowledge_construct_mute r _ _ _ _).append_job rfl
  | acknowledge => exact (shortAck_construct_mute r _ _ _ _).append_job rfl
  | write => exact (writeAck_construct_mute r _ _ _ _).append_job rfl
  | time => exact agentEngangement_mute r _ _ _
  | shortAck | believeNotification | writeAck | response => exact ⟨rfl, fun _ => .inl, fun _ => rfl⟩
  | variableRequest cvr => exact absurd rfl (calm cvr)

theorem handle_mute (m : Message) (calm : ¬ Provokes c (.handle m)) :
    Mute c (c.handle r m) := by
  rcases handle_cases r c m with same | same | ⟨passes, attended, same⟩
  · rw [same]
    exact .refl c
  · rw [same]
    exact receive_mute c _
  · rw [same]
    refine (receive_mute c _).trans (respond_mute r _ _ fun cvr asked => calm ?_)
    cases m with
    | variableRequest => exact ⟨passes, attended⟩
    | command | acknowledge | shortAck | believeNotification | time | write | writeAck
    | response => cases asked

/-- The response goes out, quiet or not. -/
theorem handle_asked {m : CaceVariableRequest} (asked : Asked c m) :
    (c.handle r (.variableRequest m)).quiet = c.quiet ∧
      (c.handle r (.variableRequest m)).jobs = c.jobs ∧
      ∃ answer, spoken (c.handle r (.variableRequest m)) =
        spoken c ++ [.published (.response answer) .first] := by
  have passes : ¬ c.isBlacklisted m.senderID = true := by simp [asked.1]
  have said : ∀ answer, (c.history ++ [Observation.received (.variableRequest m)] ++
      [Observation.published (.response answer) .first]).filter isPublished =
        spoken c ++ [.published (.response answer) .first] := by
    intro answer
    rw [List.filter_append, List.filter_append, spoken]
    simp [isPublished]
  have addressed : (c.observe (.received (.variableRequest m))).addressed m.receiverID = true :=
    asked.2
  simp only [Cace.handle, Cace.handleCaceVariableRequest, if_neg passes, if_pos addressed]
  split
  · exact ⟨rfl, rfl, _, said _⟩
  · exact ⟨rfl, rfl, _, said _⟩

end Handlers

section Runs

/-- One event that is no call of the variable space: a quiet agent says nothing, or it answers a
question. -/
theorem quiet_step {r : Readings} {c c' : Cace} {e : Cace.Event} (reticent : Reticent c)
    (remote : Remote e) (next : c.Next (r, e) c') :
    Reticent c' ∧ (spoken c' = spoken c ∧ ¬ Provokes c e ∨
      (∃ answer, spoken c' = spoken c ++ [.published (.response answer) .first]) ∧
        Provokes c e) := by
  have calm : ∀ {d}, Mute c d → ¬ Provokes c e → Reticent d ∧ (spoken d = spoken c ∧
      ¬ Provokes c e ∨ (∃ answer, spoken d = spoken c ++ [.published (.response answer) .first]) ∧
        Provokes c e) :=
    fun mute calm => ⟨mute.reticent reticent, .inl ⟨mute.spoken reticent.quiet, calm⟩⟩
  cases e with
  | agentEngangement id update =>
    obtain rfl := Except.ok.inj next
    exact calm (agentEngangement_mute r c id update) not_false
  | step => exact calm (step_mute reticent next) not_false
  | handle m =>
    obtain rfl := Except.ok.inj next
    by_cases provokes : Provokes c (.handle m)
    · cases m with
      | variableRequest m =>
        obtain ⟨quiet, jobs, said⟩ := handle_asked r c provokes
        refine ⟨⟨quiet.trans reticent.quiet, fun job member => ?_⟩, .inr ⟨said, provokes⟩⟩
        exact reticent.jobs job (jobs ▸ member)
      | command | acknowledge | shortAck | believeNotification | time | write | writeAck
      | response => exact provokes.elim
    · exact calm (handle_mute r c m provokes) provokes
  | distributeValue | distributeVariable | addVariable | writeVariable | requestVariable
  | pNoBlock | v => exact remote.elim

/-- A quiet agent that nobody calls publishes nothing, exactly as long as it is not asked for a
variable. -/
theorem quiet_agent_silent {c c' : Cace} {trace : List (Cace × Readings × Cace.Event)}
    (idle : c.Idle) (quiet : c.quiet = true) (run : c.Runs trace c')
    (remote : ∀ p ∈ trace, Remote p.2.2) :
    (∀ m t, .published m t ∉ c'.history) ↔ ∀ p ∈ trace, ¬ Provokes p.1 p.2.2 := by
  have silent : ∀ d : Cace, (∀ m t, .published m t ∉ d.history) ↔ spoken d = [] := by
    intro d
    rw [spoken, List.filter_eq_nil_iff]
    constructor
    · intro none o member said
      cases o with
      | published m t => exact none m t member
      | received | applied | notified => cases said
    · exact fun none m t member => none _ member rfl
  have all : Reticent c' ∧ (spoken c' = [] ↔ ∀ p ∈ trace, ¬ Provokes p.1 p.2.2) := by
    induction run with
    | nil =>
      refine ⟨⟨quiet, by simp [idle.jobs]⟩, ?_⟩
      simp [spoken, idle.history]
    | @step trace d d' e run next ih =>
      obtain ⟨before, said⟩ := ih fun p member => remote p (List.mem_append_left _ member)
      obtain ⟨after, step⟩ := quiet_step before (remote (d, e) (by simp)) next
      refine ⟨after, ?_⟩
      rw [List.forall_mem_append, List.forall_mem_singleton, ← said]
      rcases step with ⟨same, calm⟩ | ⟨⟨answer, more⟩, provokes⟩
      · rw [same]
        exact (and_iff_left calm).symm
      · rw [more]
        simp [provokes]
  rw [silent, all.2]

/-- A quiet agent. -/
def listener : Cace := .construct 1 true 10

/-- The listener hears a command and would repeat its acknowledge. -/
def overhears : List (Readings × Cace.Event) :=
  [(.zero, .agentEngangement 2 true),
    (.zero, .handle (.command ⟨2, [0], ['x'], [7], 0, 0, 70, 1, 5, 0⟩)), (late, .step)]

theorem quiet_agent_silent_command : ∃ trace c', listener.play overhears = some (trace, c') ∧
    c'.jobs ≠ [] ∧ ∀ m t, .published m t ∉ c'.history := by
  have played : listener.play overhears = some _ := rfl
  obtain ⟨run, events⟩ := Cace.play_runs played
  have calm : ∀ p ∈ overhears, ∀ c, Remote p.2 ∧ ¬ Provokes c p.2 := by
    simp [overhears, Remote, Provokes]
  have all := allowed_of_events events calm
  refine ⟨_, _, played, by decide, ?_⟩
  exact (quiet_agent_silent (Cace.construct_fresh 1 true 10).toIdle rfl run
    fun p member => (all p member).1).mpr fun p member => (all p member).2

/-- Agent 2 asks for a variable that the listener does not know, and it responds. -/
theorem quiet_agent_silent_asked : ∃ trace c', listener.Idle ∧ listener.quiet = true ∧
    listener.Runs trace c' ∧ (∀ p ∈ trace, Remote p.2.2) ∧
    ∃ m, .published m .first ∈ c'.history := by
  have next : listener.Next (.zero, .handle (.variableRequest ⟨2, [1], ['x'], 7⟩))
    (listener.handle .zero (.variableRequest ⟨2, [1], ['x'], 7⟩)) := rfl
  refine ⟨_, _, (Cace.construct_fresh 1 true 10).toIdle, rfl, Run.nil.step next, ?_, ?_⟩
  · simp [Remote]
  · exact ⟨_, List.mem_cons_of_mem _ List.mem_cons_self⟩

end Runs

end CaceProofs.Guarantees
