import CaceProofs.Guarantees.Effects

/-!
# Accepting proposals and updating a variable

What `acceptProposals` and the variable updates leave alone, and the store after each
effect that writes to it.
-/
namespace CaceProofs.Guarantees
open Source Library

section Accept

/-- The accept functions only set the value: with `setValue`, or to the least double. -/
theorem accept_frame (this gt lt : Believe) (value : Option Bytes) :
    ∃ val hasValue type, (this.accept gt lt value).1 =
      { this with val := val, hasValue := hasValue, type := type } := by
  have commanded : ∃ val hasValue type, this.setCommanded value =
      { this with val := val, hasValue := hasValue, type := type } := by
    cases value with
    | none => exact ⟨this.val, this.hasValue, this.type, rfl⟩
    | some value => exact ⟨value, !value.isEmpty, this.type, rfl⟩
  unfold Believe.accept
  split
  · exact commanded
  · exact commanded
  · exact commanded
  · unfold Believe.electionAcceptStrategy
    split
    · exact ⟨this.val, this.hasValue, this.type, rfl⟩
    · exact ⟨_, _, _, rfl⟩
  · exact commanded

/-- Two believes that differ in the value members at most. -/
structure SameBut (b b' : Believe) : Prop where
  name : b'.name = b.name
  strategy : b'.strategy = b.strategy
  robotID : b'.robotID = b.robotID
  lamportAge : b'.lamportAge = b.lamportAge

/-- The loop of `acceptProposals`: the winner is a proposal or the variable itself. -/
theorem acceptLoop_spec (value : Option Bytes) (proposals : List Believe)
    (state : Believe × Option Believe) :
    SameBut state.1 (proposals.foldl (Believe.acceptStep value) state).1 ∧
      ∀ winner, (proposals.foldl (Believe.acceptStep value) state).2 = some winner →
        winner ∈ proposals ∨ state.2 = some winner := by
  induction proposals generalizing state with
  | nil => exact ⟨⟨rfl, rfl, rfl, rfl⟩, fun winner h => .inr h⟩
  | cons cv proposals ih =>
    obtain ⟨same, won⟩ := ih (Believe.acceptStep value state cv)
    obtain ⟨val, hasValue, type, judged⟩ :=
      accept_frame state.1 (state.2.getD state.1) cv value
    have first : (Believe.acceptStep value state cv).1 =
        { state.1 with val := val, hasValue := hasValue, type := type } := judged
    rw [first] at same
    refine ⟨⟨same.name, same.strategy, same.robotID, same.lamportAge⟩, ?_⟩
    intro winner h
    rcases won winner h with member | here
    · exact .inl (List.mem_cons_of_mem _ member)
    · unfold Believe.acceptStep at here
      dsimp only at here
      split at here
      · exact .inr here
      · obtain rfl := Option.some.inj here
        exact .inl List.mem_cons_self

@[simp] theorem acceptProposals_proposals (cv : ConsensusVariable) (value : Option Bytes) :
    (cv.acceptProposals value).proposals = cv.proposals := rfl

/-- The own robot ID survives; name and age stay or are those of a proposal. -/
theorem acceptProposals_spec (cv : ConsensusVariable) (value : Option Bytes) :
    (cv.acceptProposals value).robotID = cv.robotID ∧
      ((cv.acceptProposals value).name = cv.name ∧
          (cv.acceptProposals value).lamportAge = cv.lamportAge ∨
        ∃ winner ∈ cv.proposals, (cv.acceptProposals value).name = winner.name ∧
          (cv.acceptProposals value).lamportAge = winner.lamportAge) := by
  obtain ⟨same, won⟩ := acceptLoop_spec value cv.proposals (cv.toBelieve, none)
  unfold ConsensusVariable.acceptProposals
  dsimp only
  split
  next winner found =>
    refine ⟨same.robotID, .inr ⟨winner, ?_, rfl, rfl⟩⟩
    simpa using won winner found
  next => exact ⟨same.robotID, .inl ⟨same.name, same.lamportAge⟩⟩

end Accept

section Record

/-- The recorded proposals after a message: old ones, or one with the message's data. -/
theorem mem_recordProposal {cv recorded : ConsensusVariable} {senderID : Int}
    {lamportTime : Nat} {overwrite : Believe → Believe} {fresh p : Believe}
    (success : cv.recordProposal senderID lamportTime overwrite fresh = some recorded)
    (member : p ∈ recorded.proposals) :
    p ∈ cv.proposals ∨ p = fresh ∨
      ∃ old ∈ cv.proposals, old.robotID = senderID ∧ p = overwrite old := by
  unfold ConsensusVariable.recordProposal at success
  split at success
  · split at success
    · obtain rfl := Option.some.inj success
      obtain ⟨old, oldMember, rfl⟩ := List.mem_map.mp member
      split
      next older => exact .inr (.inr ⟨old, oldMember, older.1, rfl⟩)
      next => exact .inl oldMember
    · cases success
  · obtain rfl := Option.some.inj success
    rcases List.mem_append.mp member with old | new
    · exact .inl old
    · exact .inr (.inl (List.mem_singleton.mp new))

theorem recordProposal_own {cv recorded : ConsensusVariable} {senderID : Int}
    {lamportTime : Nat} {overwrite : Believe → Believe} {fresh : Believe}
    (success : cv.recordProposal senderID lamportTime overwrite fresh = some recorded) :
    recorded.toBelieve = cv.toBelieve := by
  unfold ConsensusVariable.recordProposal at success
  split at success
  · split at success
    · obtain rfl := Option.some.inj success
      rfl
    · cases success
  · obtain rfl := Option.some.inj success
    rfl

/-- The senders on record: those of before, and the message's. -/
theorem recordProposal_senders {cv recorded : ConsensusVariable} {senderID : Int}
    {lamportTime : Nat} {overwrite : Believe → Believe} {fresh : Believe}
    (keeps : ∀ var, (overwrite var).robotID = var.robotID) (own : fresh.robotID = senderID)
    (success : cv.recordProposal senderID lamportTime overwrite fresh = some recorded) :
    recorded.proposals.map Believe.robotID = cv.proposals.map Believe.robotID ∨
      (senderID ∉ cv.proposals.map Believe.robotID ∧
        recorded.proposals.map Believe.robotID =
          cv.proposals.map Believe.robotID ++ [senderID]) := by
  unfold ConsensusVariable.recordProposal at success
  split at success
  · split at success
    · obtain rfl := Option.some.inj success
      left
      rw [List.map_map]
      refine List.map_congr_left fun var _ => ?_
      simp only [Function.comp]
      split
      · exact keeps var
      · rfl
    · cases success
  next absent =>
    obtain rfl := Option.some.inj success
    right
    refine ⟨?_, by simp [own]⟩
    intro member
    obtain ⟨var, varMember, same⟩ := List.mem_map.mp member
    exact absent (List.any_eq_true.mpr ⟨var, varMember, by simp [same]⟩)

end Record

section Update

/-- The variable that an update leaves in the store, from the one it finds there. -/
def updated (u : ProposalUpdate) : Option ConsensusVariable → ConsensusVariable
  | some cv =>
    match cv.recordProposal u.senderID u.lamportTime u.overwrite (u.fresh cv.toBelieve) with
    | some recorded => recorded.acceptProposals none
    | none => cv
  | none => { u.own with proposals := [u.co] : ConsensusVariable }.acceptProposals (some u.value)

theorem updated_created_name (u : ProposalUpdate) : (updated u none).name = u.variableName := by
  obtain ⟨-, own | ⟨winner, member, name, -⟩⟩ :=
    acceptProposals_spec { u.own with proposals := [u.co] } (some u.value)
  · exact own.1.trans u.named.2.2.1
  · obtain rfl := List.mem_singleton.mp member
    exact name.trans u.named.2.2.2

end Update

section Graded

variable {G : Believe → Prop} {x : Name}

/-- The variable and its proposals have that name and the property. -/
def Graded (G : Believe → Prop) (x : Name) (cv : ConsensusVariable) : Prop :=
  ∀ b ∈ cv.toBelieve :: cv.proposals, b.name = x ∧ G b

theorem Graded.acceptProposals {cv : ConsensusVariable} {value : Option Bytes}
    (graded : Graded G x cv) (own : G (cv.acceptProposals value).toBelieve) :
    Graded G x (cv.acceptProposals value) := by
  intro b member
  rcases List.mem_cons.mp member with rfl | proposal
  · refine ⟨?_, own⟩
    rcases (acceptProposals_spec cv value).2 with ⟨same, -⟩ | ⟨winner, inProposals, taken, -⟩
    · exact same.trans (graded _ List.mem_cons_self).1
    · exact taken.trans (graded winner (List.mem_cons_of_mem _ inProposals)).1
  · exact graded b (List.mem_cons_of_mem _ proposal)

/-- A property that accepting, and what the update records, keeps. -/
structure Gradual (G : Believe → Prop) (x : Name) (u : ProposalUpdate) : Prop where
  accepts : ∀ cv, Graded G x cv → G (cv.acceptProposals none).toBelieve
  overwrites : ∀ b, G b → G (u.overwrite b)
  freshens : ∀ b, G b → G (u.fresh b)

theorem Graded.updated {u : ProposalUpdate} {old : Option ConsensusVariable}
    (here : u.variableName = x) (gradual : Gradual G x u)
    (creates : old = none → G u.co ∧ G (updated u none).toBelieve)
    (before : ∀ cv, old = some cv → Graded G x cv) : Graded G x (updated u old) := by
  obtain ⟨overwriteName, freshName, ownName, coName⟩ := u.named
  cases old with
  | none =>
    obtain ⟨co, own⟩ := creates rfl
    intro b member
    rcases List.mem_cons.mp member with rfl | proposal
    · exact ⟨(updated_created_name u).trans here, own⟩
    · rw [List.mem_singleton.mp proposal]
      exact ⟨coName.trans here, co⟩
  | some cv =>
    have graded := before cv rfl
    have own := graded _ List.mem_cons_self
    unfold Guarantees.updated
    dsimp only
    split
    next recorded found =>
      have all : Graded G x recorded := by
        intro b member
        rcases List.mem_cons.mp member with rfl | proposal
        · rw [recordProposal_own found]
          exact own
        · rcases mem_recordProposal found proposal with old | rfl | ⟨old, inRecords, -, rfl⟩
          · exact graded b (List.mem_cons_of_mem _ old)
          · exact ⟨(freshName _).trans here, gradual.freshens _ own.2⟩
          · obtain ⟨name, holds⟩ := graded _ (List.mem_cons_of_mem _ inRecords)
            exact ⟨(overwriteName _).trans name, gradual.overwrites _ holds⟩
      exact all.acceptProposals (gradual.accepts recorded all)
    next => exact graded

/-- What accepting leaves has the level of the variable or of a proposal. -/
theorem Graded.strategy_accepted {P : AcceptStrategy → Prop} {cv : ConsensusVariable}
    (graded : Graded (fun b => P b.strategy) x cv) (value : Option Bytes) :
    P (cv.acceptProposals value).strategy := by
  obtain ⟨same, won⟩ := acceptLoop_spec value cv.proposals (cv.toBelieve, none)
  unfold ConsensusVariable.acceptProposals
  dsimp only
  split
  next winner found =>
    rcases won winner found with inProposals | none
    · exact (graded winner (List.mem_cons_of_mem _ inProposals)).2
    · cases none
  next => exact same.strategy ▸ (graded _ List.mem_cons_self).2

/-- An update with a level keeps what holds for it; a variable that it makes known without one is
at the three way handshake. -/
theorem Graded.strategy_updated {P : AcceptStrategy → Prop} {u : ProposalUpdate}
    {old : Option ConsensusVariable} (here : u.variableName = x)
    (level : ∀ s, u.message.strategy? = some s → P s)
    (opens : old = none → P (u.message.strategy?.getD .threeWayHandShake))
    (before : ∀ cv, old = some cv → Graded (fun b => P b.strategy) x cv) :
    Graded (fun b => P b.strategy) x (Guarantees.updated u old) := by
  have kept : ∀ s : AcceptStrategy, P s → P (u.message.strategy?.getD s) := by
    intro s holds
    cases carried : u.message.strategy? with
    | none => exact holds
    | some s' => exact level s' carried
  obtain ⟨overwrites, freshens, owns, joins⟩ := u.strategies
  refine Graded.updated here ⟨fun cv graded => graded.strategy_accepted none, fun b holds => ?_,
    fun b holds => ?_⟩ (fun absent => ?_) before
  · exact overwrites b ▸ kept _ holds
  · exact freshens b ▸ kept _ holds
  · have own : P u.own.strategy := owns ▸ opens absent
    have co : P u.co.strategy := joins ▸ opens absent
    have created : Graded (fun b => P b.strategy) u.variableName
        { u.own with proposals := [u.co] } := by
      intro b member
      rcases List.mem_cons.mp member with rfl | proposal
      · exact ⟨u.named.2.2.1, own⟩
      · rw [List.mem_singleton.mp proposal]
        exact ⟨u.named.2.2.2, co⟩
    exact ⟨co, created.strategy_accepted (some u.value)⟩

end Graded

section Stored

theorem publishUnlessQuiet_getVariable (c : Cace) (message : Message)
    (transmission : Transmission) (q : Name) :
    (c.publishUnlessQuiet message transmission).getVariable q = c.getVariable q := by
  rw [(publishUnlessQuiet_onlySends c message transmission).frame]
  rfl

theorem getVariable_of_empty {c : Cace} (empty : c.store = []) (name : Name) :
    c.getVariable name = none := by
  simp [Cace.getVariable, empty]

theorem getVariable_setVariable (c : Cace) (name q : Name) (cv : ConsensusVariable) :
    (c.setVariable name cv).getVariable q =
      if q = name then (c.getVariable name).map fun _ => cv else c.getVariable q :=
  lookup_replaceValue

theorem getVariable_insertVariable (c : Cace) (q : Name) (cv : ConsensusVariable) :
    (c.insertVariable cv).getVariable q =
      if q = cv.name ∧ c.getVariable cv.name = none then some cv else c.getVariable q := by
  unfold Cace.insertVariable
  split
  next taken => simp [Option.isSome_iff_ne_none.mp taken]
  next free =>
    have absent : c.store.lookup cv.name = none := by
      simpa only [Cace.getVariable, Option.not_isSome_iff_eq_none] using free
    simp only [Cace.getVariable, lookup_insertOrdered absent, absent, and_true]

/-- The variables after an update: one changed, the others as before. -/
theorem getVariable_updateVariable (c : Cace) (u : ProposalUpdate) (q : Name) :
    (c.updateVariable u).getVariable q =
      if q = u.variableName then some (updated u (c.getVariable u.variableName))
      else c.getVariable q := by
  unfold Cace.updateVariable
  change Cace.getVariable (match c.getVariable u.variableName with
    | some cv => _
    | none => _) q = _
  split
  next cv stored =>
    split
    next recorded found =>
      change (Cace.setVariable (c.observe (.applied u.message)) u.variableName _).getVariable q = _
      rw [getVariable_setVariable]
      change (if q = u.variableName then (c.getVariable u.variableName).map _ else _) = _
      rw [stored]
      simp [updated, found]
      rfl
    next same =>
      rw [stored]
      by_cases here : q = u.variableName
      · subst here
        have kept : (c.observe (.applied u.message)).getVariable u.variableName = some cv := stored
        simpa [updated, same] using kept
      · simp only [if_neg here]
        rfl
  next absent =>
    rw [getVariable_insertVariable]
    change (if q = (updated u none).name ∧ c.getVariable (updated u none).name = none
      then some (updated u none) else c.getVariable q) = _
    simp [updated_created_name, absent]

/-- The variable that a remote write leaves in the store. -/
def written (r : Readings) (c : Cace) (cmd : CaceCommand) :
    Option ConsensusVariable → ConsensusVariable
  | some cv =>
    { cv.setValue cmd.value with
      arrivalTime := r.localTime
      decissionTime := cmd.decissionTime
      validityTime := cmd.validityTime
      lamportAge := cmd.lamportTime
      type := cmd.type
      strategy := ⟨cmd.level⟩
      robotID := c.ownID }
  | none =>
    { (Believe.construct cmd.variableName ⟨cmd.level⟩ cmd.validityTime c.ownID
        cmd.decissionTime cmd.lamportTime cmd.type).setValue cmd.value with
      arrivalTime := r.localTime
      proposals := [] }

theorem getVariable_write (r : Readings) (c : Cace) (cmd : CaceCommand) (q : Name) :
    (WriteAckJob.doVariableUpdate r c cmd).getVariable q =
      if q = cmd.variableName then some (written r c cmd (c.getVariable cmd.variableName))
      else c.getVariable q := by
  unfold WriteAckJob.doVariableUpdate
  change Cace.getVariable (match c.getVariable cmd.variableName with
    | some cv => _
    | none => _) q = _
  split
  next cv stored =>
    change (Cace.setVariable (c.observe (.applied (.write cmd))) cmd.variableName _).getVariable q
      = _
    rw [getVariable_setVariable]
    change (if q = cmd.variableName then (c.getVariable cmd.variableName).map _ else _) = _
    rw [stored]
    rfl
  next absent =>
    rw [getVariable_insertVariable]
    change (if q = cmd.variableName ∧ c.getVariable cmd.variableName = none
      then some (written r c cmd none) else c.getVariable q) = _
    simp [absent]

/-- The variable that the first half of `distributeValue` leaves in the store. -/
def decided (r : Readings) (c : Cace) (name : Name) (value : Bytes) (type : Int)
    (strategy : AcceptStrategy) : Option ConsensusVariable → ConsensusVariable
  | some cv =>
    { cv.setValue value with
      type := type
      lamportAge := c.lamportTime.time
      strategy := strategy
      decissionTime := r.distributedTime }
  | none =>
    { (Believe.construct name strategy longMax c.spaceOwnID r.distributedTime
        c.lamportTime.time type).setValue value with proposals := [] }

theorem getVariable_decideValue (r : Readings) (c : Cace) (name : Name) (value : Bytes)
    (type : Int) (strategy : AcceptStrategy) (q : Name) :
    (CaceSpace.decideValue r c name value type strategy).getVariable q =
      if q = name then some (decided r c name value type strategy (c.getVariable name))
      else c.getVariable q := by
  unfold CaceSpace.decideValue
  split
  next absent =>
    rw [getVariable_insertVariable]
    change (if q = name ∧ c.getVariable name = none
      then some (decided r c name value type strategy none) else c.getVariable q) = _
    simp [absent]
  next cv stored =>
    rw [getVariable_setVariable, stored]
    rfl

/-- The job of `distributeValue` leaves the store as `decideValue` has left it. -/
theorem distributeValue_getVariable (r : Readings) (c : Cace) (name : Name) (value : Bytes)
    (type : Int) (strategy : AcceptStrategy) (q : Name) :
    (CaceSpace.distributeValue r c name value type strategy).getVariable q
      = (CaceSpace.decideValue r c name value type strategy).getVariable q := by
  unfold CaceSpace.distributeValue CommandJob.construct
  dsimp only
  split
  · exact publishUnlessQuiet_getVariable _ _ _ q
  · rfl

/-- `invalidate` takes the value of an expired variable away. -/
theorem getVariable_invalidate (c : Cace) (t : Nat) (q : Name) :
    (c.invalidate t).getVariable q = (c.getVariable q).map fun cv =>
      if cv.validityTime < t then { cv with hasValue := false } else cv := by
  unfold Cace.invalidate Cace.getVariable
  dsimp only
  induction c.store with
  | nil => rfl
  | cons e es ih =>
    obtain ⟨name, cv⟩ := e
    by_cases expired : cv.validityTime < t
    · simp only [List.map_cons, expired, if_true, lookup_cons_if, ih]
      split
      · simp [expired]
      · rfl
    · simp only [List.map_cons, expired, if_false, lookup_cons_if, ih]
      split
      · simp [expired]
      · rfl

end Stored

/-- What a variable in the store can be after an effect, with the update that changed it. -/
theorem effect_update {r : Readings} {may : Licence} {c c' : Cace} {q : Name}
    {cv' : ConsensusVariable} (effect : Effect r may c c')
    (found : c'.getVariable q = some cv') :
    (∃ cv, c.getVariable q = some cv ∧ (cv' = cv ∨ cv' = { cv with hasValue := false })) ∨
    (∃ u : ProposalUpdate, c' = c.updateVariable u ∧ u.variableName = q ∧ u.ownID = c.ownID ∧
      .received u.message ∈ c.history ∧ cv' = updated u (c.getVariable q)) ∨
    (∃ cmd : CaceCommand, cmd.variableName = q ∧ .received (.write cmd) ∈ c.history ∧
      cv' = written r c cmd (c.getVariable q)) ∨
    (∃ value type strategy, may.decides q ∧
      cv' = decided r c q value type strategy (c.getVariable q)) ∨
    ∃ var, may.passes var ∧ var.name = q ∧
      (cv' = var ∨ ∃ old, c.getVariable q = some old ∧ cv' = old.update var) := by
  have unchanged : c'.getVariable q = c.getVariable q →
      ∃ cv, c.getVariable q = some cv ∧ (cv' = cv ∨ cv' = { cv with hasValue := false }) :=
    fun same => ⟨cv', same ▸ found, .inl rfl⟩
  cases effect with
  | receive => exact .inl (unchanged (by unfold Cace.receive; split <;> rfl))
  | apply u own received =>
    rw [getVariable_updateVariable] at found
    split at found
    next here => exact .inr (.inl ⟨u, rfl, here.symm, own, received, by
      rw [here]; exact (Option.some.inj found).symm⟩)
    next => exact .inl ⟨cv', found, .inl rfl⟩
  | write cmd received =>
    rw [getVariable_write] at found
    split at found
    next here => exact .inr (.inr (.inl ⟨cmd, here.symm, received, by
      rw [here]; exact (Option.some.inj found).symm⟩))
    next => exact .inl ⟨cv', found, .inl rfl⟩
  | decide name value type strategy chosen =>
    rw [getVariable_decideValue] at found
    split at found
    next here =>
      subst here
      exact .inr (.inr (.inr (.inl ⟨value, type, strategy, chosen, (Option.some.inj found).symm⟩)))
    next => exact .inl ⟨cv', found, .inl rfl⟩
  | @insert var given =>
    rw [getVariable_insertVariable] at found
    split at found
    next here => exact .inr (.inr (.inr (.inr ⟨var, given, here.1.symm,
      .inl (Option.some.inj found).symm⟩)))
    next => exact .inl ⟨cv', found, .inl rfl⟩
  | @overwrite var old given stored =>
    rw [getVariable_setVariable] at found
    split at found
    next here =>
      subst here
      rw [stored] at found
      exact .inr (.inr (.inr (.inr ⟨var, given, rfl, .inr ⟨old, stored,
        (Option.some.inj found).symm⟩⟩)))
    next => exact .inl ⟨cv', found, .inl rfl⟩
  | invalidate t =>
    rw [getVariable_invalidate] at found
    obtain ⟨cv, stored, equal⟩ := Option.map_eq_some_iff.mp found
    left
    refine ⟨cv, stored, ?_⟩
    split at equal
    · exact .inr equal.symm
    · exact .inl equal.symm
  | tick | send | acknowledge | resend | engage | queue => exact .inl (unchanged rfl)

/-- What a variable in the store can be after an effect. -/
theorem effect_variable {r : Readings} {may : Licence} {c c' : Cace} {q : Name}
    {cv' : ConsensusVariable} (effect : Effect r may c c')
    (found : c'.getVariable q = some cv') :
    (∃ cv, c.getVariable q = some cv ∧ (cv' = cv ∨ cv' = { cv with hasValue := false })) ∨
    (∃ u : ProposalUpdate, u.variableName = q ∧ u.ownID = c.ownID ∧
      .received u.message ∈ c.history ∧ cv' = updated u (c.getVariable q)) ∨
    (∃ cmd : CaceCommand, cmd.variableName = q ∧ .received (.write cmd) ∈ c.history ∧
      cv' = written r c cmd (c.getVariable q)) ∨
    (∃ value type strategy, may.decides q ∧
      cv' = decided r c q value type strategy (c.getVariable q)) ∨
    ∃ var, may.passes var ∧ var.name = q ∧
      (cv' = var ∨ ∃ old, c.getVariable q = some old ∧ cv' = old.update var) :=
  (effect_update effect found).imp_right (Or.imp_left fun ⟨u, _, rest⟩ => ⟨u, rest⟩)

end CaceProofs.Guarantees
