import CaceProofs.Library.BeliefRegister
import CaceProofs.Guarantees.EventEffects
import CaceProofs.Guarantees.FreshestRecord

/-!
# The default strategy is a register of beliefs

A variable whose own believe and proposals have a default strategy refines a register
of beliefs: recording a report and accepting proposals is receiving the report.
-/
namespace CaceProofs.Guarantees
open Source Library

def beliefOf (b : Believe) : Belief Int Bytes :=
  ⟨b.robotID, b.lamportAge, b.val⟩

def registerOf (cv : ConsensusVariable) : Register Int Bytes :=
  ⟨beliefOf cv.toBelieve, cv.proposals.map beliefOf⟩

/-- What a report says, as a belief of its sender. -/
def reported (m : Report) : Belief Int Bytes :=
  ⟨m.senderID, m.lamportTime, m.value⟩

/-- The own believe and every proposal is accepted by default. -/
def DefaultStrategies (cv : ConsensusVariable) : Prop :=
  ∀ b ∈ cv.toBelieve :: cv.proposals, b.strategy.acceptFunction = .default

section Accept

/-- The default strategy compares ranks. -/
theorem accept_default {own : Believe} (gt lt : Believe)
    (default : own.strategy.acceptFunction = .default) :
    own.accept gt lt none = (own, decide ((beliefOf lt).rank < (beliefOf gt).rank)) := by
  have compares : (decide (lt.lamportAge < gt.lamportAge) ||
      (gt.lamportAge == lt.lamportAge && decide (lt.robotID < gt.robotID))) =
      decide ((beliefOf lt).rank < (beliefOf gt).rank) := by
    rw [Bool.eq_iff_iff]
    simp only [Bool.or_eq_true, Bool.and_eq_true, decide_eq_true_eq, beq_iff_eq,
      Belief.rank_lt, beliefOf]
    tauto
  unfold Believe.accept
  rw [default]
  exact congrArg (Prod.mk own) compares

/-- The loop of `acceptProposals` looks for the champion. -/
theorem acceptLoop_default {own : Believe} (default : own.strategy.acceptFunction = .default)
    (proposals : List Believe) (winner : Option Believe) :
    ∃ winner', proposals.foldl (Believe.acceptStep none) (own, winner) = (own, winner') ∧
      winner'.getD own ∈ winner.getD own :: proposals ∧
      beliefOf (winner'.getD own) =
        champion Belief.rank (beliefOf (winner.getD own)) (proposals.map beliefOf) := by
  induction proposals generalizing winner with
  | nil => exact ⟨winner, rfl, List.mem_singleton_self _, rfl⟩
  | cons cv proposals ih =>
    have first : Believe.acceptStep none (own, winner) cv =
        (own, if (beliefOf cv).rank < (beliefOf (winner.getD own)).rank then winner
          else some cv) := by
      unfold Believe.acceptStep
      simp only [accept_default _ _ default, decide_eq_true_eq]
    obtain ⟨winner', loop, member, best⟩ :=
      ih (if (beliefOf cv).rank < (beliefOf (winner.getD own)).rank then winner else some cv)
    refine ⟨winner', by rw [List.foldl_cons, first, loop], ?_, ?_⟩
    · split at member
      · rcases List.mem_cons.mp member with same | later
        · exact List.mem_cons.mpr (.inl same)
        · exact List.mem_cons_of_mem _ (List.mem_cons_of_mem _ later)
      · exact List.mem_cons_of_mem _ member
    · rw [best]
      unfold champion
      rw [List.map_cons, List.foldl_cons]
      split <;> rfl

/-- Accepting proposals is adopting the leading belief. -/
theorem registerOf_acceptProposals {cv : ConsensusVariable} (default : DefaultStrategies cv) :
    registerOf (cv.acceptProposals none) = (registerOf cv).adopt ∧
      DefaultStrategies (cv.acceptProposals none) := by
  obtain ⟨winner, loop, member, best⟩ :=
    acceptLoop_default (default _ List.mem_cons_self) cv.proposals none
  have strategy := default _ member
  have leads : beliefOf (winner.getD cv.toBelieve) = (registerOf cv).leader := best
  unfold Register.adopt
  rw [← leads]
  unfold ConsensusVariable.acceptProposals
  rw [loop]
  cases winner with
  | none => exact ⟨rfl, default⟩
  | some w =>
    refine ⟨rfl, fun b inVariable => ?_⟩
    rcases List.mem_cons.mp inVariable with rfl | proposal
    · exact strategy
    · exact default b (List.mem_cons_of_mem _ proposal)

end Accept

section Update

/-- The level of the update's message, if it has one, is a default one. -/
def DefaultUpdate (u : ProposalUpdate) : Prop :=
  ∀ s, u.message.strategy? = some s → s.acceptFunction = .default

theorem DefaultUpdate.getD {u : ProposalUpdate} (default : DefaultUpdate u)
    {strategy : AcceptStrategy} (own : strategy.acceptFunction = .default) :
    (u.message.strategy?.getD strategy).acceptFunction = .default := by
  cases level : u.message.strategy? with
  | none => exact own
  | some s => exact default s level

/-- Recording the proposal is recording the report. -/
theorem recordProposal_recordReport (cv : ConsensusVariable) (u : ProposalUpdate) :
    (cv.recordProposal u.senderID u.lamportTime u.overwrite (u.fresh cv.toBelieve)).map
        (fun recorded => recorded.proposals.map beliefOf) =
      recordReport (reported u.toReport) (cv.proposals.map beliefOf) := by
  have known : ((cv.proposals.map beliefOf).any fun a => a.id == (reported u.toReport).id) =
      cv.proposals.any fun var => var.robotID == u.senderID := by
    rw [List.any_map]
    rfl
  have older : ((cv.proposals.map beliefOf).any fun a => a.id == (reported u.toReport).id &&
      decide (a.age < (reported u.toReport).age)) =
      cv.proposals.any fun var => var.robotID == u.senderID &&
        decide (var.lamportAge < u.lamportTime) := by
    rw [List.any_map]
    rfl
  unfold ConsensusVariable.recordProposal recordReport
  rw [known, older]
  split
  · split
    · simp only [Option.map_some, List.map_map]
      refine congrArg some (List.map_congr_left fun var _ => ?_)
      simp only [Function.comp]
      by_cases replaced : var.robotID = u.senderID ∧ var.lamportAge < u.lamportTime
      · obtain ⟨sender, value, -, age⟩ := u.overwrite_records var
        have same : beliefOf (u.overwrite var) = reported u.toReport := by
          simp only [beliefOf, reported, sender, value, age, replaced.1]
        simpa [replaced, beliefOf, reported] using same
      · simp [replaced, beliefOf, reported]
    · rfl
  · obtain ⟨sender, value, -, age⟩ := u.fresh_records cv.toBelieve
    simp [beliefOf, reported, sender, value, age]

/-- The recorded proposals keep default strategies. -/
theorem recordProposal_default {cv recorded : ConsensusVariable} {u : ProposalUpdate}
    (default : DefaultStrategies cv) (update : DefaultUpdate u)
    (success : cv.recordProposal u.senderID u.lamportTime u.overwrite (u.fresh cv.toBelieve) =
      some recorded) : DefaultStrategies recorded := by
  have own := default _ List.mem_cons_self
  intro b member
  rcases List.mem_cons.mp member with rfl | proposal
  · rw [recordProposal_own success]
    exact own
  · rcases mem_recordProposal success proposal with old | rfl | ⟨old, oldMember, -, rfl⟩
    · exact default b (List.mem_cons_of_mem _ old)
    · rw [u.strategies.2.1]
      exact update.getD own
    · rw [u.strategies.1]
      exact update.getD (default old (List.mem_cons_of_mem _ oldMember))

/-- The variable that the first report creates. -/
theorem registerOf_created {u : ProposalUpdate} (update : DefaultUpdate u) :
    registerOf (updated u none) = Register.receive u.ownID (reported u.toReport) none ∧
      DefaultStrategies (updated u none) := by
  obtain ⟨coSender, coValue, -, coAge⟩ := u.co_records
  have ownDefault : u.own.strategy.acceptFunction = .default := by
    rw [u.strategies.2.2.1]
    exact update.getD rfl
  have coDefault : u.co.strategy.acceptFunction = .default := by
    rw [u.strategies.2.2.2]
    exact update.getD rfl
  have judged : u.own.accept u.own u.co (some u.value) = (u.own.setValue u.value,
      decide (u.co.lamportAge < u.own.lamportAge) ||
        (u.own.lamportAge == u.co.lamportAge && decide (u.co.robotID < u.own.robotID))) := by
    unfold Believe.accept
    rw [ownDefault]
    rfl
  have loop : [u.co].foldl (Believe.acceptStep (some u.value)) (u.own, none) =
      (u.own.setValue u.value, if (decide (u.co.lamportAge < u.own.lamportAge) ||
        (u.own.lamportAge == u.co.lamportAge && decide (u.co.robotID < u.own.robotID))) = true
        then none else some u.co) := by
    simp only [List.foldl_cons, List.foldl_nil, Believe.acceptStep, Option.getD_none, judged]
  unfold updated ConsensusVariable.acceptProposals
  dsimp only
  rw [loop]
  have record : [u.co].map beliefOf = [reported u.toReport] := by
    simp [beliefOf, reported, coSender, coValue, coAge]
  split
  next winner found =>
    obtain ⟨-, rfl⟩ : _ ∧ u.co = winner := by simpa using found
    refine ⟨?_, ?_⟩
    · unfold registerOf Register.receive
      dsimp only
      rw [record]
      simp [beliefOf, reported, Believe.update, Believe.setValue, coValue, coAge, u.own_fresh.1]
    · intro b member
      rcases List.mem_cons.mp member with rfl | proposal
      · exact coDefault
      · rw [List.mem_singleton.mp proposal]
        exact coDefault
  next notFound =>
    have tie : u.own.lamportAge = u.lamportTime := by
      have notNewer := u.own_fresh.2
      simp [coAge] at notFound
      omega
    refine ⟨?_, ?_⟩
    · unfold registerOf Register.receive
      dsimp only
      rw [record]
      simp [beliefOf, reported, Believe.setValue, tie, u.own_fresh.1]
    · intro b member
      rcases List.mem_cons.mp member with rfl | proposal
      · exact ownDefault
      · rw [List.mem_singleton.mp proposal]
        exact coDefault

/-- An update is the receipt of its report. -/
theorem registerOf_updated {u : ProposalUpdate} {old : Option ConsensusVariable}
    (update : DefaultUpdate u) (default : ∀ cv, old = some cv → DefaultStrategies cv) :
    registerOf (updated u old) =
        Register.receive u.ownID (reported u.toReport) (old.map registerOf) ∧
      DefaultStrategies (updated u old) := by
  cases old with
  | none => exact registerOf_created update
  | some cv =>
    have before := default cv rfl
    have records := recordProposal_recordReport cv u
    simp only [Option.map_some, Register.receive, registerOf]
    rw [← records]
    unfold updated
    dsimp only
    cases found : cv.recordProposal u.senderID u.lamportTime u.overwrite (u.fresh cv.toBelieve) with
    | none => exact ⟨rfl, before⟩
    | some recorded =>
      obtain ⟨adopted, kept⟩ :=
        registerOf_acceptProposals (recordProposal_default before update found)
      refine ⟨?_, kept⟩
      simp only [Option.map_some]
      rw [← recordProposal_own found]
      exact adopted

end Update

section Effects

/-- The register of a variable of an agent. -/
def registerAt (c : Cace) (x : Name) : Option (Register Int Bytes) :=
  (c.getVariable x).map registerOf

/-- The beliefs about a variable that were applied, in order. -/
def beliefsAbout (x : Name) (c : Cace) : List (Belief Int Bytes) :=
  ((appliedReports c.history).filter fun m => m.variableName == x).map reported

/-- A message that is no write of the variable, and has a default level if it reports
about it. -/
structure Harmless (x : Name) (m : Message) : Prop where
  notWrite : ∀ cmd, m = .write cmd → cmd.variableName ≠ x
  default : ∀ report s, m.report? = some report → report.variableName = x →
    m.strategy? = some s → s.acceptFunction = .default

/-- A licence that leaves a variable to the reports about it. -/
structure Leaves (x : Name) (may : Licence) : Prop where
  passes : ∀ var, may.passes var → var.name ≠ x
  decides : ∀ name, may.decides name → name ≠ x
  receives : ∀ m, may.receives m → Harmless x m

/-- The greatest of these licences. -/
def leaves (x : Name) : Licence where
  passes var := var.name ≠ x
  decides name := name ≠ x
  receives m := Harmless x m

theorem leaves_leaves (x : Name) : Leaves x (leaves x) :=
  ⟨fun _ => id, fun _ => id, fun _ => id⟩

/-- A handled message that is no write and whose level, if any, is a default one. -/
theorem admits_leaves_handle {x : Name} {c : Cace} {m : Message} (noWrite : ∀ cmd, m ≠ .write cmd)
    (default : ∀ s, m.strategy? = some s → s.acceptFunction = .default) :
    Admits (leaves x) c (.handle m) := by
  have level : (heard c m).strategy? = m.strategy? := by
    cases m with
    | command cc =>
      unfold heard Cace.stampedCommand
      dsimp only
      split <;> rfl
    | _ => rfl
  have harmless : Harmless x (heard c m) := by
    refine ⟨fun cmd same => ?_, fun _ s _ _ here => default s (level ▸ here)⟩
    cases m with
    | write cmd => exact absurd rfl (noWrite cmd)
    | _ => cases same
  exact ⟨harmless, fun _ => trivial, fun _ _ _ => trivial⟩

/-- A variable that only default strategies have reached. -/
structure DefaultAt (x : Name) (c : Cace) : Prop where
  queued : c.Queued
  received : ∀ m, .received m ∈ c.history → Harmless x m
  stored : ∀ cv, c.getVariable x = some cv → DefaultStrategies cv

variable {r : Readings} {may : Licence} {x : Name} {c c' : Cace}

theorem registerAt_eq (same : c'.getVariable x = c.getVariable x) :
    registerAt c' x = registerAt c x :=
  congrArg (Option.map registerOf) same

/-- What the reports do to a variable: nothing, or one more is received. -/
def ReportStep (may : Licence) (x : Name) (c c' : Cace) : Prop :=
  (registerAt c' x = registerAt c x ∧ beliefsAbout x c' = beliefsAbout x c) ∨
    ∃ u : ProposalUpdate, u.variableName = x ∧ may.applies u.message ∧
      registerAt c' x =
        some (Register.receive c.ownID (reported u.toReport) (registerAt c x)) ∧
      beliefsAbout x c' = beliefsAbout x c ++ [reported u.toReport]

/-- An update where the variable has default strategies only. -/
theorem updateVariable_reportStep (before : DefaultAt x c) (u : ProposalUpdate)
    (own : u.ownID = c.ownID) (received : .received u.message ∈ c.history)
    (admitted : may.applies u.message) :
    ReportStep may x c (c.updateVariable u) ∧
      ∀ cv, (c.updateVariable u).getVariable x = some cv → DefaultStrategies cv := by
  unfold ReportStep registerAt beliefsAbout
  rw [appliedReports_updateVariable, getVariable_updateVariable, List.filter_append]
  by_cases here : x = u.variableName
  · have update : DefaultUpdate u := fun s level =>
      (before.received _ received).default u.toReport s u.message_report here.symm level
    obtain ⟨received', kept⟩ :=
      registerOf_updated update fun cv stored => before.stored cv (here ▸ stored)
    rw [if_pos here, Option.map_some, received', own, here]
    refine ⟨.inr ⟨u, rfl, admitted, rfl, by simp⟩, ?_⟩
    intro cv stored
    rw [← Option.some.inj stored]
    exact kept
  · rw [if_neg here]
    exact ⟨.inl ⟨rfl, by simp [Ne.symm here]⟩, before.stored⟩

/-- A variable that an effect leaves as it is, up to its expiry. -/
theorem reportStep_of_unchanged (before : DefaultAt x c)
    (reports : appliedReports c'.history = appliedReports c.history)
    (same : c'.getVariable x = c.getVariable x) :
    ReportStep may x c c' ∧ ∀ cv, c'.getVariable x = some cv → DefaultStrategies cv :=
  ⟨.inl ⟨registerAt_eq same, by unfold beliefsAbout; rw [reports]⟩,
    fun cv stored => before.stored cv (same ▸ stored)⟩

/-- The effects that leave a variable to the reports. -/
theorem effect_reportStep (leave : Leaves x may) (effect : Effect r may c c')
    (before : DefaultAt x c) : ReportStep may x c c' ∧ DefaultAt x c' := by
  have step : ReportStep may x c c' ∧
      ∀ cv, c'.getVariable x = some cv → DefaultStrategies cv := by
    cases effect with
    | apply u own received admitted =>
      exact updateVariable_reportStep before u own received admitted
    | @receive m unlisted heard =>
      refine reportStep_of_unchanged before ?_ (by unfold Cace.receive; split <;> rfl)
      rw [receive_history, appliedReports_append]
      simp [appliedReports, Observation.report?]
    | write cmd received =>
      obtain ⟨seen, equal, notified⟩ := writeUpdate_history r c cmd
      have applied : appliedReports (.applied (.write cmd) :: seen) = appliedReports seen :=
        List.filterMap_cons_none rfl
      have elsewhere := (before.received _ received).notWrite cmd rfl
      refine reportStep_of_unchanged before ?_ ?_
      · rw [equal, appliedReports_append, applied, appliedReports_notified notified,
          List.append_nil]
      · rw [getVariable_write, if_neg (Ne.symm elsewhere)]
    | decide name value type strategy chosen =>
      refine reportStep_of_unchanged before (by rw [decideValue_frame]) ?_
      rw [getVariable_decideValue, if_neg (Ne.symm (leave.decides name chosen))]
    | @insert var given =>
      refine reportStep_of_unchanged before (by rw [insertVariable_frame]) ?_
      rw [getVariable_insertVariable, if_neg fun new => leave.passes var given new.1.symm]
    | @overwrite var old given stored =>
      refine reportStep_of_unchanged before rfl ?_
      rw [getVariable_setVariable, if_neg (Ne.symm (leave.passes var given))]
    | invalidate t =>
      have expired : (c.invalidate t).getVariable x = (c.getVariable x).map fun cv =>
          if cv.validityTime < t then { cv with hasValue := false } else cv :=
        getVariable_invalidate c t x
      refine ⟨.inl ⟨?_, rfl⟩, ?_⟩
      · unfold registerAt
        rw [expired]
        cases c.getVariable x with
        | none => rfl
        | some cv =>
          simp only [Option.map_some]
          split <;> rfl
      · intro cv stored
        rw [expired] at stored
        obtain ⟨old, found, rfl⟩ := Option.map_eq_some_iff.mp stored
        have default := before.stored old found
        split
        · intro b member
          rcases List.mem_cons.mp member with rfl | proposal
          · exact default old.toBelieve List.mem_cons_self
          · exact default b (List.mem_cons_of_mem _ proposal)
        · exact default
    | send | acknowledge | resend =>
      refine reportStep_of_unchanged before ?_ rfl
      simp [Cace.publish, Cace.observe, Cace.tickLamportTime, appliedReports,
        Observation.report?]
    | tick | engage | queue => exact reportStep_of_unchanged before rfl rfl
  refine ⟨step.1, effect.queued before.queued, fun m received => ?_, step.2⟩
  rcases effect.received received with old | ⟨-, heard, -⟩
  · exact before.received m old
  · exact leave.receives m heard

theorem DefaultAt.path (leave : Leaves x may) (path : Path r may c c') (before : DefaultAt x c) :
    DefaultAt x c' := by
  induction path with
  | refl => exact before
  | tail _ effect ih => exact (effect_reportStep leave effect ih).2

end Effects

end CaceProofs.Guarantees
