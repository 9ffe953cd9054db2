import CaceProofs.Guarantees.EventEffects
import CaceProofs.Guarantees.Acceptance
import CaceProofs.Library.Freshest

/-!
# Each sender has its freshest report on record

The three jobs keep, for each sender, a last-writer-wins register among the proposals
of a variable, whatever the accept function does to the own believe in between.
-/
namespace CaceProofs.Guarantees
open Source Library

/-- The recorded proposals of a variable; none where it is unknown. -/
def proposalsOf (c : Cace) (x : Name) : List Believe :=
  match c.getVariable x with
  | some cv => cv.proposals
  | none => []

/-- The proposals of one sender in a list. -/
def sentBy (senderID : Int) (proposals : List Believe) : List Believe :=
  proposals.filter fun p => p.robotID == senderID

/-- The reports of one sender about a variable that were applied, in order. -/
def reportsOf (c : Cace) (x : Name) (senderID : Int) : List Report :=
  (appliedReports c.history).filter fun m => m.variableName == x && m.senderID == senderID

section Reports

theorem appliedReports_append (h h' : List Observation) :
    appliedReports (h ++ h') = appliedReports h ++ appliedReports h' :=
  List.filterMap_append

theorem appliedReports_notified {seen : List Observation} {name : Name}
    (notified : ∀ o ∈ seen, o = .notified name) : appliedReports seen = [] := by
  refine List.filterMap_eq_nil_iff.mpr fun o member => ?_
  rw [notified o member]
  rfl

/-- The applied reports after an update: the update's own is new. -/
theorem appliedReports_updateVariable (c : Cace) (u : ProposalUpdate) :
    appliedReports (c.updateVariable u).history =
      appliedReports c.history ++ [u.toReport] := by
  obtain ⟨seen, equal, notified⟩ := updateVariable_history c u
  have applied : appliedReports (.applied u.message :: seen) =
      u.toReport :: appliedReports seen :=
    List.filterMap_cons_some u.message_report
  rw [equal, appliedReports_append, applied, appliedReports_notified notified]

theorem proposalsOf_updateVariable (c : Cace) (u : ProposalUpdate) (x : Name) :
    proposalsOf (c.updateVariable u) x =
      if x = u.variableName then (updated u (c.getVariable u.variableName)).proposals
      else proposalsOf c x := by
  unfold proposalsOf
  rw [getVariable_updateVariable]
  by_cases here : x = u.variableName <;> simp [here]

/-- Only an update changes a recorded proposal or applies a report; an unknown variable may
come with proposals of its own. -/
theorem effect_records {r : Readings} {may : Licence} {c c' : Cace} (effect : Effect r may c c') :
    (∃ u : ProposalUpdate, .received u.message ∈ c.history ∧ may.applies u.message ∧
        c' = c.updateVariable u) ∨
      (appliedReports c'.history = appliedReports c.history ∧
        ∀ x, proposalsOf c' x = proposalsOf c x ∨ (c.getVariable x = none ∧
          ∃ var, may.passes var ∧ proposalsOf c' x = var.proposals)) := by
  cases effect with
  | apply u own received admitted => exact .inl ⟨u, received, admitted, rfl⟩
  | receive =>
    refine .inr ⟨?_, fun x => .inl ?_⟩
    · rw [receive_history, appliedReports_append]
      simp [appliedReports, Observation.report?]
    · unfold Cace.receive
      split <;> rfl
  | write cmd =>
    obtain ⟨seen, equal, notified⟩ := writeUpdate_history r c cmd
    refine .inr ⟨?_, fun x => .inl ?_⟩
    · have applied : appliedReports (.applied (.write cmd) :: seen) = appliedReports seen :=
        List.filterMap_cons_none rfl
      rw [equal, appliedReports_append, applied, appliedReports_notified notified,
        List.append_nil]
    · unfold proposalsOf
      rw [getVariable_write]
      by_cases here : x = cmd.variableName
      · subst here
        cases stored : c.getVariable cmd.variableName with
        | none => simp [written]
        | some cv => simp [written, ConsensusVariable.setValue]
      · simp [here]
  | decide name value type strategy =>
    refine .inr ⟨by rw [decideValue_frame], fun x => .inl ?_⟩
    unfold proposalsOf
    rw [getVariable_decideValue]
    by_cases here : x = name
    · subst here
      cases stored : c.getVariable x with
      | none => simp [decided]
      | some cv => simp [decided, ConsensusVariable.setValue]
    · simp [here]
  | @insert var given =>
    refine .inr ⟨by rw [insertVariable_frame], fun x => ?_⟩
    unfold proposalsOf
    rw [getVariable_insertVariable]
    by_cases new : x = var.name ∧ c.getVariable var.name = none
    · rw [if_pos new]
      obtain ⟨rfl, absent⟩ := new
      exact .inr ⟨absent, var, given, rfl⟩
    · rw [if_neg new]
      exact .inl rfl
  | @overwrite var old given stored =>
    refine .inr ⟨rfl, fun x => .inl ?_⟩
    unfold proposalsOf
    rw [getVariable_setVariable]
    by_cases here : x = var.name
    · subst here
      simp [stored, ConsensusVariable.update]
    · simp [here]
  | invalidate t =>
    refine .inr ⟨rfl, fun x => .inl ?_⟩
    unfold proposalsOf
    rw [getVariable_invalidate]
    cases c.getVariable x with
    | none => rfl
    | some cv =>
      simp only [Option.map_some]
      split <;> rfl
  | send | acknowledge | resend =>
    refine .inr ⟨?_, fun x => .inl rfl⟩
    simp [Cace.publish, Cace.observe, Cace.tickLamportTime, appliedReports,
      Observation.report?]
  | tick | engage | queue => exact .inr ⟨rfl, fun x => .inl rfl⟩

end Reports

section Register

/-- What a sender's register holds after the reports `l`: nothing, or the freshest. -/
def Tracks (l : List Report) (records : List Believe) : Prop :=
  (l = [] ∧ records = []) ∨
    ∃ p m, records = [p] ∧ Freshest Report.lamportTime l m ∧ p.val = m.value ∧
      p.type = m.type ∧ p.lamportAge = m.lamportTime

/-- Recording a message leaves the other senders' proposals alone. -/
theorem sentBy_recordProposal_other {cv recorded : ConsensusVariable} {u : ProposalUpdate}
    {senderID : Int} (other : senderID ≠ u.senderID)
    (success : cv.recordProposal u.senderID u.lamportTime u.overwrite (u.fresh cv.toBelieve) =
      some recorded) : sentBy senderID recorded.proposals = sentBy senderID cv.proposals := by
  unfold ConsensusVariable.recordProposal at success
  split at success
  · split at success
    · obtain rfl := Option.some.inj success
      unfold sentBy
      dsimp only
      induction cv.proposals with
      | nil => rfl
      | cons p rest ih =>
        simp only [List.map_cons, List.filter_cons, ih]
        by_cases older : p.robotID = u.senderID ∧ p.lamportAge < u.lamportTime
        · simp [older, (u.overwrite_records p).1, Ne.symm other]
        · simp [older]
    · cases success
  · obtain rfl := Option.some.inj success
    simp [sentBy, (u.fresh_records cv.toBelieve).1, Ne.symm other]

/-- Recording a message in the register of its sender. -/
theorem sentBy_recordProposal_own {cv recorded : ConsensusVariable} {u : ProposalUpdate}
    (success : cv.recordProposal u.senderID u.lamportTime u.overwrite (u.fresh cv.toBelieve) =
      some recorded) :
    sentBy u.senderID recorded.proposals =
      if sentBy u.senderID cv.proposals = [] then [u.fresh cv.toBelieve]
      else (sentBy u.senderID cv.proposals).map fun p =>
        if p.lamportAge < u.lamportTime then u.overwrite p else p := by
  unfold ConsensusVariable.recordProposal at success
  split at success
  next known =>
    have some : sentBy u.senderID cv.proposals ≠ [] := by
      obtain ⟨p, member, sent⟩ := List.any_eq_true.mp known
      exact List.ne_nil_of_mem (List.mem_filter.mpr ⟨member, sent⟩)
    rw [if_neg some]
    split at success
    · obtain rfl := Option.some.inj success
      unfold sentBy
      dsimp only
      clear known some
      induction cv.proposals with
      | nil => rfl
      | cons p rest ih =>
        simp only [List.map_cons, List.filter_cons, ih]
        by_cases sent : p.robotID = u.senderID
        · by_cases older : p.lamportAge < u.lamportTime
          · simp [sent, older, (u.overwrite_records p).1]
          · simp [sent, older]
        · simp [sent]
    · cases success
  next unknown =>
    obtain rfl := Option.some.inj success
    have none : sentBy u.senderID cv.proposals = [] := by
      refine List.filter_eq_nil_iff.mpr fun p member sent => unknown ?_
      exact List.any_eq_true.mpr ⟨p, member, sent⟩
    rw [if_pos none]
    unfold sentBy at none ⊢
    simp [none, (u.fresh_records cv.toBelieve).1]

/-- Nothing is recorded where every proposal of the sender is at least as new. -/
theorem recordProposal_none {cv : ConsensusVariable} {u : ProposalUpdate}
    (unchanged : cv.recordProposal u.senderID u.lamportTime u.overwrite
      (u.fresh cv.toBelieve) = none) :
    sentBy u.senderID cv.proposals ≠ [] ∧
      ∀ p ∈ sentBy u.senderID cv.proposals, u.lamportTime ≤ p.lamportAge := by
  unfold ConsensusVariable.recordProposal at unchanged
  split at unchanged
  next known =>
    split at unchanged
    next => cases unchanged
    next current =>
      obtain ⟨p, member, sent⟩ := List.any_eq_true.mp known
      refine ⟨List.ne_nil_of_mem (List.mem_filter.mpr ⟨member, sent⟩), fun q inRecords => ?_⟩
      obtain ⟨inProposals, sentToo⟩ := List.mem_filter.mp inRecords
      by_contra newer
      exact current (List.any_eq_true.mpr ⟨q, inProposals, by
        simpa using ⟨by simpa using sentToo, Nat.lt_of_not_le newer⟩⟩)
  next => cases unchanged

/-- The register step: the report of a sender goes into its register. -/
theorem Tracks.updated {l : List Report} {u : ProposalUpdate} {old : Option ConsensusVariable}
    (tracks : Tracks l (sentBy u.senderID ((old.map ConsensusVariable.proposals).getD []))) :
    Tracks (l ++ [u.toReport]) (sentBy u.senderID (updated u old).proposals) := by
  have started : ∀ p : Believe, l = [] → p.val = u.value → p.type = u.type →
      p.lamportAge = u.lamportTime → Tracks (l ++ [u.toReport]) [p] := by
    rintro p rfl value type age
    exact .inr ⟨p, u.toReport, rfl, .singleton _, value, type, age⟩
  cases old with
  | none =>
    obtain ⟨empty, -⟩ | ⟨p, m, records, -⟩ := tracks
    · have created : sentBy u.senderID (Guarantees.updated u none).proposals = [u.co] := by
        simp [Guarantees.updated, sentBy, u.co_records.1]
      rw [created]
      exact started u.co empty u.co_records.2.1 u.co_records.2.2.1 u.co_records.2.2.2
    · cases records
  | some cv =>
    simp only [Option.map_some, Option.getD_some] at tracks
    unfold Guarantees.updated
    dsimp only
    split
    next recorded found =>
      rw [acceptProposals_proposals, sentBy_recordProposal_own found]
      obtain ⟨empty, records⟩ | ⟨p, m, records, fresh, value, type, age⟩ := tracks
      · have carries := u.fresh_records cv.toBelieve
        rw [if_pos records]
        exact started _ empty carries.2.1 carries.2.2.1 carries.2.2.2
      · rw [if_neg (by simp [records]), records, List.map_singleton]
        by_cases older : p.lamportAge < u.lamportTime
        · have carries := u.overwrite_records p
          rw [if_pos older]
          exact .inr ⟨_, u.toReport, rfl, fresh.append_newer (age ▸ older), carries.2.1,
            carries.2.2.1, carries.2.2.2⟩
        · rw [if_neg older]
          exact .inr ⟨p, m, rfl, fresh.append_older (age ▸ Nat.le_of_not_lt older), value, type,
            age⟩
    next unchanged =>
      obtain ⟨known, current⟩ := recordProposal_none unchanged
      obtain ⟨-, records⟩ | ⟨p, m, records, fresh, value, type, age⟩ := tracks
      · exact absurd records known
      · have newEnough := current p (by simp [records])
        exact .inr ⟨p, m, records, fresh.append_older (age ▸ newEnough), value, type, age⟩

/-- An update of another sender leaves the register alone. -/
theorem sentBy_updated_other {u : ProposalUpdate} {old : Option ConsensusVariable}
    {senderID : Int} (other : senderID ≠ u.senderID) :
    sentBy senderID (updated u old).proposals =
      sentBy senderID ((old.map ConsensusVariable.proposals).getD []) := by
  cases old with
  | none => simp [updated, sentBy, u.co_records.1, Ne.symm other]
  | some cv =>
    unfold updated
    dsimp only
    split
    next recorded found =>
      rw [acceptProposals_proposals]
      exact sentBy_recordProposal_other other found
    next => rfl

end Register

section Run

/-- The invariant: every register holds the freshest of the reports applied to it. -/
structure Registers (x : Name) (senderID : Int) (c : Cace) : Prop where
  queued : c.Queued
  tracks : Tracks (reportsOf c x senderID) (sentBy senderID (proposalsOf c x))

theorem registers_effect {r : Readings} {may : Licence} {c c' : Cace} {x : Name} {senderID : Int}
    (effect : Effect r may c c') (bare : ∀ var, may.passes var → var.proposals = [])
    (before : Registers x senderID c) : Registers x senderID c' := by
  have old : ∀ q,
      proposalsOf c q = ((c.getVariable q).map ConsensusVariable.proposals).getD [] := by
    intro q
    unfold proposalsOf
    cases c.getVariable q <;> rfl
  refine ⟨effect.queued before.queued, ?_⟩
  have tracks := before.tracks
  rcases effect_records effect with ⟨u, -, -, rfl⟩ | ⟨sameReports, proposals⟩
  · unfold reportsOf at tracks ⊢
    rw [appliedReports_updateVariable, proposalsOf_updateVariable, List.filter_append]
    by_cases here : x = u.variableName
    · subst here
      rw [if_pos rfl]
      by_cases sent : senderID = u.senderID
      · subst sent
        rw [old] at tracks
        simpa using tracks.updated
      · rw [sentBy_updated_other sent, ← old]
        simpa [Ne.symm sent] using tracks
    · rw [if_neg here]
      simpa [Ne.symm here] using tracks
  · have sameProposals : proposalsOf c' x = proposalsOf c x := by
      rcases proposals x with same | ⟨absent, var, given, own⟩
      · exact same
      · rw [own, bare var given]
        simp [proposalsOf, absent]
    unfold reportsOf at tracks ⊢
    rw [sameReports, sameProposals]
    exact tracks

/-- What the application passes in brings no proposals along. -/
def BarePassed (c : Cace) (e : Readings × Cace.Event) : Prop :=
  match e.2 with
  | .distributeVariable variablePtr => Given (fun var => var.proposals = []) c variablePtr
  | .addVariable cv _ => cv.proposals = []
  | _ => True

theorem registers_step {x : Name} {senderID : Int} (c : Cace) (e : Readings × Cace.Event)
    (c' : Cace) (bare : BarePassed c e) (next : c.Next e c') (before : Registers x senderID c) :
    Registers x senderID c' := by
  obtain ⟨r, e⟩ := e
  have admitted : Admits { passes := fun var => var.proposals = [] } c e := by
    refine admits_any ?_ ?_ (fun _ => trivial) (fun _ => trivial) (fun _ => trivial)
      (fun _ _ _ => trivial) (fun _ _ => trivial) trivial
    · rintro variablePtr rfl
      exact bare
    · rintro var distribute rfl
      exact bare
  have path : Path r { passes := fun var => var.proposals = [] } c c' :=
    exec_path before.queued admitted next
  clear next
  induction path with
  | refl => exact before
  | tail _ effect ih => exact registers_effect effect (fun _ given => given) ih

theorem registers_run {start c : Cace} {trace : List (Cace × Readings × Cace.Event)}
    {x : Name} {senderID : Int} (idle : start.Idle)
    (unheard : ∀ cv, start.getVariable x = some cv → ∀ p ∈ cv.proposals, p.robotID ≠ senderID)
    (run : start.Runs trace c) (bare : ∀ p ∈ trace, BarePassed p.1 p.2) :
    Registers x senderID c := by
  refine run.preserves registers_step bare ⟨idle_queued idle, .inl ⟨?_, ?_⟩⟩
  · simp [reportsOf, appliedReports, idle.history]
  · unfold sentBy proposalsOf
    cases stored : start.getVariable x with
    | none => rfl
    | some cv =>
      refine List.filter_eq_nil_iff.mpr fun p member => ?_
      simpa using unheard cv stored p member

end Run

end CaceProofs.Guarantees
