import CaceProofs.Guarantees.EventEffects

/-!
# Requested variables

A request deletes the stored responses of its name, and an application takes them out
one by one. The loop that deletes steps over the response behind a deleted one, so an
old response outlives the request exactly where two of the name stand side by side.
-/
namespace CaceProofs.Guarantees
open Library Source

section Deletion

variable {name : Name}

/-- No two responses of the name stand side by side. -/
def Apart (name : Name) (responses : List ConsensusVariable) : Prop :=
  responses.IsChain fun v next => ¬(v.name = name ∧ next.name = name)

theorem apart_cons_other {v : ConsensusVariable} {rest : List ConsensusVariable}
    (other : v.name ≠ name) : Apart name (v :: rest) ↔ Apart name rest := by
  cases rest with
  | nil => simp [Apart]
  | cons next rest => simp [Apart, other]

theorem apart_cons_named {v next : ConsensusVariable} {rest : List ConsensusVariable}
    (named : v.name = name) :
    Apart name (v :: next :: rest) ↔ next.name ≠ name ∧ Apart name rest := by
  by_cases both : next.name = name
  · simp [Apart, named, both]
  · have skipped : Apart name (next :: rest) ↔ Apart name rest := apart_cons_other both
    simp only [Apart, List.isChain_cons_cons, named, both, and_false, not_false_eq_true,
      true_and, ne_eq] at skipped ⊢
    exact skipped

/-- Where they stand apart, deletion is the filter; elsewhere one of them is left. -/
theorem deleteResponseLoop_spec (name : Name) (responses : List ConsensusVariable) :
    (Apart name responses →
      Cace.deleteResponseLoop name responses = responses.filter fun v => v.name ≠ name) ∧
    (¬Apart name responses → ∃ v ∈ Cace.deleteResponseLoop name responses, v.name = name) := by
  induction responses using Cace.deleteResponseLoop.induct name with
  | case1 => exact ⟨fun _ => rfl, fun close => absurd List.IsChain.nil close⟩
  | case2 v named =>
    refine ⟨fun _ => ?_, fun close => absurd (List.IsChain.singleton v) close⟩
    simp [Cace.deleteResponseLoop, named]
  | case3 v named skipped rest ih =>
    rw [apart_cons_named named]
    have deleted : Cace.deleteResponseLoop name (v :: skipped :: rest)
        = skipped :: Cace.deleteResponseLoop name rest := by
      rw [Cace.deleteResponseLoop, if_pos named]
    rw [deleted]
    constructor
    · rintro ⟨other, apart⟩
      simp [ih.1 apart, named, other]
    · intro close
      by_cases both : skipped.name = name
      · exact ⟨skipped, List.mem_cons_self, both⟩
      · obtain ⟨left, member, isNamed⟩ := ih.2 fun apart => close ⟨both, apart⟩
        exact ⟨left, List.mem_cons_of_mem _ member, isNamed⟩
  | case4 v rest other ih =>
    have kept : Cace.deleteResponseLoop name (v :: rest)
        = v :: Cace.deleteResponseLoop name rest := by
      rw [Cace.deleteResponseLoop.eq_def]
      simp [other]
    rw [apart_cons_other other, kept]
    constructor
    · intro apart
      simp [ih.1 apart, other]
    · intro close
      obtain ⟨left, member, isNamed⟩ := ih.2 close
      exact ⟨left, List.mem_cons_of_mem _ member, isNamed⟩

theorem deleteResponse_exact_iff (c : Cace) (name : Name) :
    (c.deleteResponse name).responses = c.responses.filter (fun v => v.name ≠ name)
      ↔ Apart name c.responses := by
  have spec := deleteResponseLoop_spec name c.responses
  constructor
  · intro exact
    by_contra close
    obtain ⟨v, left, named⟩ := spec.2 close
    have filtered : v ∈ (c.deleteResponse name).responses := left
    rw [exact] at filtered
    simp [named] at filtered
  · exact spec.1

theorem deleteResponseLoop_subset (name : Name) (responses : List ConsensusVariable) :
    Cace.deleteResponseLoop name responses ⊆ responses := by
  induction responses using Cace.deleteResponseLoop.induct name with
  | case1 => exact List.Subset.refl _
  | case2 v named => simp [Cace.deleteResponseLoop, named]
  | case3 v named skipped rest ih =>
    rw [Cace.deleteResponseLoop, if_pos named]
    exact List.Subset.trans (List.cons_subset_cons _ ih) (List.subset_cons_self _ _)
  | case4 v rest other ih =>
    rw [Cace.deleteResponseLoop.eq_def]
    simpa [other] using List.Subset.trans ih (List.subset_cons_self v rest)

end Deletion

section Taking

/-- What `getResponse` returns has the name and was stored; nothing is added. -/
theorem getResponseLoop_spec (name : Name) (responses : List ConsensusVariable) :
    (∀ v, (Cace.getResponseLoop name responses).1 = some v → v ∈ responses ∧ v.name = name) ∧
      (Cace.getResponseLoop name responses).2 ⊆ responses := by
  induction responses with
  | nil => simp [Cace.getResponseLoop]
  | cons v rest ih =>
    by_cases named : v.name = name
    · simp [Cace.getResponseLoop, named]
    · simp only [Cace.getResponseLoop, named, if_false]
      refine ⟨fun w found => ?_, List.cons_subset_cons _ ih.2⟩
      have earlier := ih.1 w found
      exact ⟨List.mem_cons_of_mem _ earlier.1, earlier.2⟩

/-- A stored response of the name is enough for one to be returned. -/
theorem getResponseLoop_finds {name : Name} {responses : List ConsensusVariable}
    {v : ConsensusVariable} (stored : v ∈ responses) (named : v.name = name) :
    ∃ w, (Cace.getResponseLoop name responses).1 = some w := by
  induction responses with
  | nil => simp at stored
  | cons first rest ih =>
    by_cases here : first.name = name
    · exact ⟨first, by simp [Cace.getResponseLoop, here]⟩
    · have later : v ∈ rest := by
        rcases List.mem_cons.mp stored with rfl | later
        · exact absurd named here
        · exact later
      simpa [Cace.getResponseLoop, here] using ih later

end Taking

section Frame

variable {r : Readings} {c : Cace}

@[simp] theorem publish_responses (m : Message) (transmission : Transmission) :
    (c.publish m transmission).responses = c.responses := rfl

@[simp] theorem publishUnlessQuiet_responses (m : Message) (transmission : Transmission) :
    (c.publishUnlessQuiet m transmission).responses = c.responses := by
  rw [(publishUnlessQuiet_onlySends c m transmission).frame]

theorem insertVariable_responses (cv : ConsensusVariable) :
    (c.insertVariable cv).responses = c.responses := by
  rw [insertVariable_frame]

theorem updateVariable_responses (u : ProposalUpdate) :
    (c.updateVariable u).responses = c.responses := by
  rw [updateVariable_frame]

/-- A loop of sends. -/
theorem foldl_responses {α : Type} {send : Cace → α → Cace} (l : List α)
    (keeps : ∀ c a, (send c a).responses = c.responses) (c : Cace) :
    (l.foldl send c).responses = c.responses := by
  induction l generalizing c with
  | nil => rfl
  | cons a l ih => exact (ih (send c a)).trans (keeps c a)

theorem resendLoop_responses {send : Cace → Int → Cace} (expected : List Int)
    (entities : List JobStateEntity) (keeps : ∀ c i, (send c i).responses = c.responses) :
    (resendLoop r send expected entities c).cace.responses = c.responses := by
  rw [resendLoop_cace]
  exact foldl_responses _ keeps c

theorem commandJob_responses (variablePtr : VariablePtr) (value : Bytes) (robotids : List Int)
    (lamportTime : Nat) :
    (CommandJob.construct r c variablePtr value robotids lamportTime).1.responses
      = c.responses := by
  unfold CommandJob.construct
  dsimp only
  split
  · exact publishUnlessQuiet_responses _ _
  · rfl

theorem commandAcknowledgeJob_responses (robotids : List Int) (lamportTime : Nat)
    (cmd : CaceCommand) :
    (CommandAcknowledgeJob.construct r c robotids lamportTime cmd).1.responses
      = c.responses := by
  unfold CommandAcknowledgeJob.construct
  dsimp only
  split
  · rfl
  · split
    · exact (publishUnlessQuiet_responses _ _).trans (updateVariable_responses _)
    · exact updateVariable_responses _

theorem believeNotificationJob_responses (variablePtr : VariablePtr) (robotids : List Int)
    (lamportTime : Nat) :
    (BelieveNotificationJob.construct r c variablePtr robotids lamportTime).1.responses
      = c.responses := by
  unfold BelieveNotificationJob.construct
  dsimp only
  split
  · refine foldl_responses robotids ?_ c
    exact fun _ _ => publishUnlessQuiet_responses _ _
  · rfl

theorem believeAcknowledge_responses (notification : CaceBelieveNotification) (msgID : Int)
    (expected : List Int) :
    (BelieveAcknowledgeJob.acknowledge c notification msgID expected).responses = c.responses := by
  refine foldl_responses expected ?_ c
  exact fun _ _ => publishUnlessQuiet_responses _ _

theorem believeAcknowledgeJob_responses (robotids : List Int) (lamportTime : Nat)
    (notification : CaceBelieveNotification) :
    (BelieveAcknowledgeJob.construct r c robotids lamportTime notification).1.responses
      = c.responses := by
  unfold BelieveAcknowledgeJob.construct
  dsimp only
  split
  · rfl
  · split
    · exact (believeAcknowledge_responses _ _ _).trans (updateVariable_responses _)
    · exact updateVariable_responses _

theorem shortAckAnswer_responses (ack : CaceAcknowledge) :
    (ShortAckJob.answer r c ack).responses = c.responses := by
  unfold ShortAckJob.answer
  dsimp only
  split
  · exact (publishUnlessQuiet_responses _ _).trans (updateVariable_responses _)
  · exact updateVariable_responses _

theorem writeAckAnswer_responses (cmd : CaceCommand) :
    (WriteAckJob.answer r c cmd).responses = c.responses := by
  refine (publishUnlessQuiet_responses _ _).trans ?_
  unfold WriteAckJob.doVariableUpdate
  dsimp only
  split
  · rfl
  · exact insertVariable_responses _

theorem shortAckJob_responses (robotids : List Int) (lamportTime : Nat) (ack : CaceAcknowledge) :
    (ShortAckJob.construct r c robotids lamportTime ack).1.responses = c.responses := by
  unfold ShortAckJob.construct
  dsimp only
  split
  · rfl
  · exact shortAckAnswer_responses ack

theorem writeAckJob_responses (robotids : List Int) (lamportTime : Nat) (cmd : CaceCommand) :
    (WriteAckJob.construct r c robotids lamportTime cmd).1.responses = c.responses := by
  unfold WriteAckJob.construct
  dsimp only
  split
  · rfl
  · exact writeAckAnswer_responses cmd

theorem commandAcknowledgeJob_catchUp_responses (job : CommandAcknowledgeJob) :
    (job.catchUp r c).1.responses = c.responses := by
  unfold CommandAcknowledgeJob.catchUp
  split
  · dsimp only
    split
    · exact (publishUnlessQuiet_responses _ _).trans (updateVariable_responses _)
    · exact updateVariable_responses _
  · rfl

theorem believeAcknowledgeJob_catchUp_responses (job : BelieveAcknowledgeJob) :
    (job.catchUp r c).1.responses = c.responses := by
  unfold BelieveAcknowledgeJob.catchUp
  split
  · dsimp only
    split
    · exact (believeAcknowledge_responses _ _ _).trans (updateVariable_responses _)
    · exact updateVariable_responses _
  · rfl

/-- The loop that ends a `process()`, run under a condition. -/
theorem resend_responses {send : Cace → Int → Cace} {expected : List Int}
    {entities : List JobStateEntity} {resends : Prop} [Decidable resends] {other : Resend}
    (keeps : ∀ c i, (send c i).responses = c.responses)
    (skipped : other.cace.responses = c.responses) :
    (if resends then resendLoop r send expected entities c else other).cace.responses
      = c.responses := by
  split
  · exact resendLoop_responses expected entities keeps
  · exact skipped

/-- No job touches the responses. -/
theorem job_process_responses {c' : Cace} {job job' : Job} {finished : Bool}
    (processed : job.process r c = .ok (c', job', finished)) : c'.responses = c.responses := by
  have acknowledged : ∀ c : Cace, ∀ m t, (c.publishUnlessQuiet m t).responses = c.responses :=
    fun _ m t => publishUnlessQuiet_responses m t
  cases job with
  | command j =>
    cases processed
    exact resend_responses (fun _ _ => acknowledged _ _ _) rfl
  | commandAcknowledge j =>
    cases processed
    unfold CommandAcknowledgeJob.process
    dsimp only
    split
    · refine (resend_responses (fun _ _ => acknowledged _ _ _) rfl).trans ?_
      exact commandAcknowledgeJob_catchUp_responses j
    · exact commandAcknowledgeJob_catchUp_responses j
  | believeNotification j =>
    cases processed
    exact resend_responses (fun _ _ => acknowledged _ _ _) rfl
  | believeAcknowledge j =>
    cases processed
    unfold BelieveAcknowledgeJob.process
    dsimp only
    split
    · refine (resend_responses (fun _ _ => acknowledged _ _ _) rfl).trans ?_
      exact believeAcknowledgeJob_catchUp_responses j
    · exact believeAcknowledgeJob_catchUp_responses j
  | shortAck j =>
    cases processed
    unfold ShortAckJob.process
    dsimp only
    split
    · exact shortAckAnswer_responses _
    · rfl
  | write j =>
    simp only [Job.process, WriteJob.process] at processed
    split at processed
    next p written =>
      cases processed
      split at written
      · cases written
      · cases written
        exact resendLoop_responses _ _ fun _ _ => rfl
    next => cases processed
  | writeAck j =>
    cases processed
    unfold WriteAckJob.process
    dsimp only
    split
    · exact writeAckAnswer_responses _
    · rfl
  | request j =>
    cases processed
    unfold RequestJob.process
    dsimp only
    split
    · rfl
    · exact resendLoop_responses _ _ fun _ _ => rfl

theorem processJobsLoop_responses {k : Nat} {jobs stay : List Job} {c' : Cace}
    (processed : Cace.processJobsLoop r k jobs c = .ok (c', stay)) :
    c'.responses = c.responses := by
  induction jobs generalizing c k stay with
  | nil => cases processed; rfl
  | cons job jobs ih =>
    unfold Cace.processJobsLoop at processed
    split at processed
    next => cases processed
    next d job' finished here =>
      dsimp only at processed
      split at processed
      next => cases processed
      next rest later =>
        cases processed
        have keeps := job_process_responses here
        have rest := ih later
        split at rest
        · exact rest.trans keeps
        · exact rest.trans keeps

theorem step_responses {c' : Cace} (stepped : c.step r = .ok c') :
    c'.responses = c.responses := by
  unfold Cace.step at stepped
  split at stepped
  next => cases stepped
  next d processed =>
    have commands : (c.acceptCommands r).responses = c.responses := by
      refine foldl_responses c.commands ?_ { c with commands := [] }
      exact fun _ cc => commandAcknowledgeJob_responses _ _ cc
    have notifications : ((c.acceptCommands r).acceptNotifications r).responses
        = (c.acceptCommands r).responses := by
      refine foldl_responses (c.acceptCommands r).believeNotifications ?_
        { c.acceptCommands r with believeNotifications := [] }
      exact fun _ cbn => believeAcknowledgeJob_responses _ _ cbn
    have jobs : d.responses = ((c.acceptCommands r).acceptNotifications r).responses := by
      unfold Cace.processJobs at processed
      split at processed
      next => cases processed
      next e stay looped =>
        cases processed
        have kept := processJobsLoop_responses looped
        exact kept
    cases stepped
    refine Eq.trans ?_ (jobs.trans (notifications.trans commands))
    dsimp only [Cace.invalidate]
    split <;> rfl

theorem agentEngangement_responses (id : Int) (updates : Bool) :
    (c.agentEngangement r id updates).responses = c.responses := by
  unfold Cace.agentEngangement
  split
  · rfl
  · split
    · rfl
    · dsimp only
      split
      · refine foldl_responses c.store ?_ { c with activeRobots := c.activeRobots ++ [id] }
        intro d e
        unfold Cace.sendBelieveUpdate
        split
        · split
          · exact believeNotificationJob_responses _ _ _
          · rfl
        · rfl
      · rfl

theorem distributeValue_responses (name : Name) (value : Bytes) (type : Int)
    (strategy : AcceptStrategy) :
    (CaceSpace.distributeValue r c name value type strategy).responses = c.responses := by
  have decided : (CaceSpace.decideValue r c name value type strategy).responses
      = c.responses := by
    unfold CaceSpace.decideValue
    split
    · exact insertVariable_responses _
    · rfl
  exact (commandJob_responses _ _ _ _).trans decided

theorem command_responses (variablePtr : VariablePtr) :
    (CaceSpace.command r c variablePtr).responses = c.responses :=
  commandJob_responses _ _ _ _

theorem addVariable_responses (var : ConsensusVariable) (distribute : Bool) :
    (CaceSpace.addVariable r c var distribute).responses = c.responses := by
  unfold CaceSpace.addVariable
  dsimp only
  split
  · exact (command_responses _).trans (insertVariable_responses var)
  · exact insertVariable_responses var

theorem distributeVariable_responses (variablePtr : VariablePtr) :
    (CaceSpace.distributeVariable r c variablePtr).responses = c.responses := by
  unfold CaceSpace.distributeVariable
  dsimp only
  split
  · split
    · exact command_responses _
    · exact command_responses _
  · exact addVariable_responses _ _

theorem pNoBlock_responses (name : Name) (strict : Bool) (robots : List Int) :
    (CaceMutex.pNoBlock r c name strict robots).1.responses = c.responses := by
  unfold CaceMutex.pNoBlock
  dsimp only
  split
  · split
    · rfl
    · split
      · exact distributeValue_responses _ _ _ _
      · rfl
  · rfl

theorem v_responses (name : Name) : (CaceMutex.v r c name).1.responses = c.responses := by
  unfold CaceMutex.v
  dsimp only
  split
  · exact distributeValue_responses _ _ _ _
  · rfl

/-- A handler either puts one response behind the others, or leaves them as they are. -/
theorem respond_responses (m : Message) :
    (respond r c m).responses = c.responses ∨
      ∃ cc v, m = .response cc ∧ (respond r c m).responses = c.responses ++ [v] := by
  cases m with
  | command => exact .inl (commandAcknowledgeJob_responses _ _ _)
  | acknowledge => exact .inl (shortAckJob_responses _ _ _)
  | write => exact .inl (writeAckJob_responses _ _ _)
  | time => exact .inl (agentEngangement_responses _ _)
  | shortAck | believeNotification | writeAck => exact .inl rfl
  | variableRequest =>
    left
    dsimp only [respond]
    split <;> rfl
  | response cc => exact .inr ⟨cc, _, rfl, rfl⟩

theorem handle_responses (m : Message) :
    (c.handle r m).responses = c.responses ∨
      ∃ cc v, m = .response cc ∧ (c.handle r m).responses = c.responses ++ [v] := by
  have received : (c.receive (heard c m)).responses = c.responses := by
    unfold Cace.receive
    split <;> rfl
  rcases handle_cases r c m with same | same | ⟨-, -, same⟩
  · exact .inl (congrArg Cace.responses same)
  · exact .inl ((congrArg Cace.responses same).trans received)
  · rw [same, ← received]
    refine (respond_responses (heard c m)).imp_right ?_
    rintro ⟨cc, v, response, added⟩
    refine ⟨cc, v, ?_, added⟩
    cases m with
    | response => exact response
    | command | acknowledge | shortAck | believeNotification | time | variableRequest | write
    | writeAck => cases response

private theorem subset_of_same {c' : Cace} (same : c'.responses = c.responses) :
    c'.responses ⊆ c.responses :=
  same ▸ List.Subset.refl _

/-- What an event adds to the responses is an arrived response. -/
theorem exec_responses {c' : Cace} {e : Cace.Event} (success : c.exec r e = .ok c') :
    c'.responses ⊆ c.responses ∨
      ∃ cc v, e = .handle (.response cc) ∧ c'.responses = c.responses ++ [v] := by
  cases e with
  | handle m =>
    obtain rfl := Except.ok.inj success
    rcases handle_responses m with same | ⟨cc, v, rfl, added⟩
    · exact .inl (subset_of_same same)
    · exact .inr ⟨cc, v, rfl, added⟩
  | requestVariable name agentID =>
    obtain rfl := Except.ok.inj success
    exact .inl (deleteResponseLoop_subset name c.responses)
  | step => exact .inl (subset_of_same (step_responses success))
  | distributeValue =>
    exact .inl (subset_of_same (Except.ok.inj success ▸ distributeValue_responses _ _ _ _))
  | distributeVariable =>
    exact .inl (subset_of_same (Except.ok.inj success ▸ distributeVariable_responses _))
  | addVariable =>
    exact .inl (subset_of_same (Except.ok.inj success ▸ addVariable_responses _ _))
  | writeVariable => exact .inl (subset_of_same (Except.ok.inj success ▸ rfl))
  | pNoBlock =>
    exact .inl (subset_of_same (Except.ok.inj success ▸ pNoBlock_responses _ _ _))
  | v => exact .inl (subset_of_same (Except.ok.inj success ▸ v_responses _))
  | agentEngangement =>
    exact .inl (subset_of_same (Except.ok.inj success ▸ agentEngangement_responses _ _))

end Frame

section Requests

/-- A call or event, or the application takes a requested variable. -/
inductive Call where
  | event (r : Readings) (e : Cace.Event)
  | getRequestedVariable (name : Name)

/-- What a call does to the agent. -/
def Calls (c : Cace) : Call → Cace → Prop
  | .event r e, c' => c.exec r e = .ok c'
  | .getRequestedVariable name, c' => (CaceSpace.getRequestedVariable c name).2 = c'

/-- In one of the steps of a run the handler of a response has stored this one. -/
def Arrived (trace : List (Cace × Call)) (v : ConsensusVariable) : Prop :=
  ∃ before r cc, (before, .event r (.handle (.response cc))) ∈ trace ∧
    (before.handleCaceResponse r cc).responses = before.responses ++ [v]

/-- Whatever the agent does after a request, what it gets for the name has arrived since. -/
def StartsClean (requested : Cace) (name : Name) : Prop :=
  ∀ trace c v, Run Calls requested trace c →
    (CaceSpace.getRequestedVariable c name).1 = some v → Arrived trace v

/-- The responses of the name that are not there at the start have arrived. -/
theorem responses_arrived {start c : Cace} {name : Name} {trace : List (Cace × Call)}
    (run : Run Calls start trace c) (clean : ∀ v ∈ start.responses, v.name ≠ name) :
    ∀ v ∈ c.responses, v.name = name → Arrived trace v := by
  refine run.carries (fun trace c => ∀ v ∈ c.responses, v.name = name → Arrived trace v)
    (fun trace c call c' _ (_ : True) next ih => ?_) (fun _ _ => trivial) ?_
  · have earlier : ∀ v ∈ c.responses, v.name = name → Arrived (trace ++ [(c, call)]) v := by
      intro v stored named
      obtain ⟨before, r, cc, member, added⟩ := ih v stored named
      exact ⟨before, r, cc, List.mem_append_left _ member, added⟩
    cases call with
    | event r e =>
      rcases exec_responses next with shrinks | ⟨cc, w, rfl, added⟩
      · exact fun v stored => earlier v (shrinks stored)
      · intro v stored named
        rw [added] at stored
        rcases List.mem_append.mp stored with old | new
        · exact earlier v old named
        · obtain rfl : v = w := by simpa using new
          refine ⟨c, r, cc, by simp, ?_⟩
          rw [← added]
          exact congrArg Cace.responses (Except.ok.inj next)
    | getRequestedVariable other =>
      obtain rfl : _ = c' := next
      exact fun v stored => earlier v ((getResponseLoop_spec other c.responses).2 stored)
  · exact fun v stored named => absurd named (clean v stored)

theorem startsClean_of_apart {r : Readings} {c : Cace} {name : Name} {agentID : Int}
    (apart : Apart name c.responses) :
    StartsClean (CaceSpace.requestVariable r c name agentID) name := by
  intro trace d v run returned
  have requested : (CaceSpace.requestVariable r c name agentID).responses
      = (c.deleteResponse name).responses := rfl
  obtain ⟨stored, named⟩ := (getResponseLoop_spec name d.responses).1 v returned
  refine responses_arrived run ?_ v stored named
  intro w old
  rw [requested, (deleteResponse_exact_iff c name).mpr apart] at old
  simpa using (List.mem_filter.mp old).2

/-- Where two stand side by side, one of them is what the application gets at once. -/
theorem not_startsClean_of_close {r : Readings} {c : Cace} {name : Name} {agentID : Int}
    (close : ¬Apart name c.responses) :
    ¬StartsClean (CaceSpace.requestVariable r c name agentID) name := by
  intro clean
  obtain ⟨v, left, named⟩ := (deleteResponseLoop_spec name c.responses).2 close
  obtain ⟨w, returned⟩ := getResponseLoop_finds left named
  obtain ⟨before, r', cc, member, -⟩ := clean [] _ w .nil returned
  cases member

/-- Deletion is exact, and a request starts clean whoever answers it and whatever else the
agent does, each if and only if no two stored responses of the name stand side by side. -/
theorem request_starts_clean_iff (r : Readings) (c : Cace) (name : Name) (agentID : Int) :
    ((c.deleteResponse name).responses = c.responses.filter (fun v => v.name ≠ name)
      ↔ Apart name c.responses) ∧
    (StartsClean (CaceSpace.requestVariable r c name agentID) name
      ↔ Apart name c.responses) := by
  refine ⟨deleteResponse_exact_iff c name, fun clean => ?_, startsClean_of_apart⟩
  by_contra close
  exact not_startsClean_of_close close clean

/-- Two agents have answered an earlier request of the same name. -/
theorem request_starts_unclean :
    let response : ConsensusVariable :=
      { Believe.construct ['x'] .fireAndForget 0 2 0 3 typeCInt with proposals := [] }
    let c : Cace :=
      { Cace.construct 1 false 5 with responses := [response, { response with robotID := 3 }] }
    (c.deleteResponse ['x']).responses ≠ c.responses.filter (fun v => v.name ≠ ['x']) := by
  decide

end Requests

end CaceProofs.Guarantees
