import CaceProofs.Guarantees.FreshestRecord

/-!
# Handling a message again

The record of a sender is never older than a report of it that has been applied. A message
that comes again is therefore not newer than the record, and its update writes nothing.
-/
namespace CaceProofs.Guarantees
open Source Library

/-- The variable update that the job of a message runs. -/
def applyMessage (r : Readings) (c : Cace) : Message → Cace
  | .command m => CommandAcknowledgeJob.doVariableUpdate r c m
  | .believeNotification m => BelieveAcknowledgeJob.doVariableUpdate r c m
  | .acknowledge m => ShortAckJob.doVariableUpdate r c m
  | .write m => WriteAckJob.doVariableUpdate r c m
  | .shortAck _ | .time _ | .variableRequest _ | .writeAck _ | .response _ => c

/-- The update of a report. -/
theorem applyMessage_report {m : Message} {report : Report} (r : Readings) (c : Cace)
    (reports : m.report? = some report) :
    ∃ u : ProposalUpdate, u.message = m ∧ u.toReport = report ∧
      applyMessage r c m = c.updateVariable u := by
  cases m with
  | command m => exact ⟨commandUpdate r c.ownID m, rfl, Option.some.inj reports, rfl⟩
  | believeNotification m =>
    exact ⟨notificationUpdate r c.ownID m, rfl, Option.some.inj reports, rfl⟩
  | acknowledge m => exact ⟨acknowledgeUpdate r c.ownID m, rfl, Option.some.inj reports, rfl⟩
  | shortAck | time | variableRequest | write | writeAck | response => cases reports

theorem mem_appliedReports {history : List Observation} {m : Message} {report : Report}
    (applied : .applied m ∈ history) (reports : m.report? = some report) :
    report ∈ appliedReports history :=
  List.mem_filterMap.mpr ⟨.applied m, applied, reports⟩

section Records

/-- The sender's record after its report: as new as the report and as an old record. -/
theorem sentBy_updated_own (u : ProposalUpdate) (old : Option ConsensusVariable) :
    sentBy u.senderID (updated u old).proposals ≠ [] ∧
      ∀ p ∈ sentBy u.senderID (updated u old).proposals, u.lamportTime ≤ p.lamportAge ∧
        (sentBy u.senderID ((old.map ConsensusVariable.proposals).getD []) ≠ [] →
          ∃ q ∈ sentBy u.senderID ((old.map ConsensusVariable.proposals).getD []),
            q.lamportAge ≤ p.lamportAge) := by
  cases old with
  | none =>
    have created : sentBy u.senderID (updated u none).proposals = [u.co] := by
      simp [updated, sentBy, u.co_records.1]
    rw [created]
    refine ⟨by simp, fun p member => ?_⟩
    rw [List.mem_singleton.mp member, u.co_records.2.2.2]
    exact ⟨Nat.le_refl _, fun known => absurd rfl known⟩
  | some cv =>
    simp only [Option.map_some, Option.getD_some]
    unfold updated
    dsimp only
    split
    next recorded found =>
      rw [acceptProposals_proposals, sentBy_recordProposal_own found]
      by_cases unknown : sentBy u.senderID cv.proposals = []
      · rw [if_pos unknown]
        refine ⟨by simp, fun p member => ?_⟩
        rw [List.mem_singleton.mp member, (u.fresh_records _).2.2.2]
        exact ⟨Nat.le_refl _, fun known => absurd unknown known⟩
      · rw [if_neg unknown]
        refine ⟨by simpa using unknown, fun p member => ?_⟩
        obtain ⟨q, inRecords, rfl⟩ := List.mem_map.mp member
        split
        next older =>
          rw [(u.overwrite_records q).2.2.2]
          exact ⟨Nat.le_refl _, fun _ => ⟨q, inRecords, Nat.le_of_lt older⟩⟩
        next current => exact ⟨Nat.le_of_not_lt current, fun _ => ⟨q, inRecords, Nat.le_refl _⟩⟩
    next unchanged =>
      obtain ⟨known, current⟩ := recordProposal_none unchanged
      exact ⟨known, fun p member => ⟨current p member, fun _ => ⟨p, member, Nat.le_refl _⟩⟩⟩

/-- A report as old as every record of its sender is not recorded. -/
theorem recordProposal_stale {cv : ConsensusVariable} {u : ProposalUpdate}
    (known : sentBy u.senderID cv.proposals ≠ [])
    (current : ∀ p ∈ sentBy u.senderID cv.proposals, u.lamportTime ≤ p.lamportAge) :
    cv.recordProposal u.senderID u.lamportTime u.overwrite (u.fresh cv.toBelieve) = none := by
  obtain ⟨p, member⟩ := List.exists_mem_of_ne_nil _ known
  obtain ⟨inProposals, sent⟩ := List.mem_filter.mp member
  unfold ConsensusVariable.recordProposal
  rw [if_pos (List.any_eq_true.mpr ⟨p, inProposals, sent⟩), if_neg]
  intro newer
  obtain ⟨q, inProposals, older⟩ := List.any_eq_true.mp newer
  obtain ⟨sent, age⟩ : (q.robotID == u.senderID) = true ∧ q.lamportAge < u.lamportTime := by
    simpa using older
  have bound := current q (List.mem_filter.mpr ⟨inProposals, sent⟩)
  omega

end Records

/-- Of every sender of an applied report there is a record, and none is older. -/
structure Covered (x : Name) (c : Cace) : Prop where
  queued : c.Queued
  covers : ∀ report ∈ appliedReports c.history, report.variableName = x →
    sentBy report.senderID (proposalsOf c x) ≠ [] ∧
      ∀ p ∈ sentBy report.senderID (proposalsOf c x), report.lamportTime ≤ p.lamportAge

section Invariant

variable {r : Readings} {may : Licence} {c c' : Cace} {x : Name}

theorem proposalsOf_eq (c : Cace) (x : Name) :
    proposalsOf c x = ((c.getVariable x).map ConsensusVariable.proposals).getD [] := by
  unfold proposalsOf
  cases c.getVariable x <;> rfl

theorem Covered.effect (effect : Effect r may c c') (before : Covered x c) : Covered x c' := by
  refine ⟨effect.queued before.queued, ?_⟩
  rcases effect_records effect with ⟨u, -, -, rfl⟩ | ⟨reports, proposals⟩
  · intro report applied about
    rw [appliedReports_updateVariable] at applied
    rw [proposalsOf_updateVariable]
    by_cases here : x = u.variableName
    · rw [if_pos here]
      obtain ⟨known, newer⟩ := sentBy_updated_own u (c.getVariable u.variableName)
      rw [← here, ← proposalsOf_eq] at newer
      rw [← here] at known ⊢
      rcases List.mem_append.mp applied with old | new
      · obtain ⟨some, covered⟩ := before.covers report old about
        by_cases sent : report.senderID = u.senderID
        · rw [sent] at some covered ⊢
          refine ⟨known, fun p member => ?_⟩
          obtain ⟨q, inRecords, le⟩ := (newer p member).2 some
          exact Nat.le_trans (covered q inRecords) le
        · rw [sentBy_updated_other sent, ← proposalsOf_eq]
          exact ⟨some, covered⟩
      · rw [List.mem_singleton.mp new]
        exact ⟨known, fun p member => (newer p member).1⟩
    · rw [if_neg here]
      rcases List.mem_append.mp applied with old | new
      · exact before.covers report old about
      · rw [List.mem_singleton.mp new] at about
        exact absurd about.symm here
  · intro report applied about
    rw [reports] at applied
    have covered := before.covers report applied about
    rcases proposals x with same | ⟨absent, -⟩
    · rw [same]
      exact covered
    · refine absurd ?_ covered.1
      simp [proposalsOf, absent, sentBy]

theorem Covered.path (path : Path r may c c') (before : Covered x c) : Covered x c' := by
  induction path with
  | refl => exact before
  | tail _ effect ih => exact ih.effect effect

/-- The update of a report that has been applied before. -/
theorem Covered.update_again {u : ProposalUpdate} (before : Covered u.variableName c)
    (applied : u.toReport ∈ appliedReports c.history) :
    c.updateVariable u = c.observe (.applied u.message) := by
  obtain ⟨known, covered⟩ := before.covers _ applied rfl
  have stored : ∃ cv, c.getVariable u.variableName = some cv := by
    cases stored : c.getVariable u.variableName with
    | none => exact absurd (by simp [proposalsOf, stored, sentBy]) known
    | some cv => exact ⟨cv, rfl⟩
  obtain ⟨cv, stored⟩ := stored
  have proposals : proposalsOf c u.variableName = cv.proposals := by simp [proposalsOf, stored]
  rw [proposals] at known covered
  have kept : (c.observe (.applied u.message)).getVariable u.variableName = some cv := stored
  unfold Cace.updateVariable
  simp only [kept, recordProposal_stale known covered]

end Invariant

section Events

/-- The variable stays, up to its expiry, and no change is notified. -/
structure Untouched (x : Name) (c c' : Cace) : Prop where
  stays : c'.getVariable x = c.getVariable x ∨
    ∃ cv, c.getVariable x = some cv ∧ c'.getVariable x = some { cv with hasValue := false }
  silent : ∃ seen, c'.history = c.history ++ seen ∧ .notified x ∉ seen

theorem Untouched.refl (x : Name) (c : Cace) : Untouched x c c :=
  ⟨.inl rfl, [], by simp, by simp⟩

theorem Untouched.trans {x : Name} {a b c : Cace} (first : Untouched x a b)
    (second : Untouched x b c) : Untouched x a c := by
  refine ⟨?_, ?_⟩
  · rcases first.stays with same | ⟨cv, stored, expired⟩
    · rw [← same]
      exact second.stays
    · rcases second.stays with same' | ⟨cv', stored', expired'⟩
      · exact .inr ⟨cv, stored, same'.trans expired⟩
      · obtain rfl := Option.some.inj (expired.symm.trans stored')
        exact .inr ⟨cv, stored, expired'⟩
  · obtain ⟨seen, history, silent⟩ := first.silent
    obtain ⟨seen', history', silent'⟩ := second.silent
    refine ⟨seen ++ seen', by rw [history', history, List.append_assoc], ?_⟩
    rw [List.mem_append]
    exact not_or.mpr ⟨silent, silent'⟩

/-- What is applied to the variable has been applied before, and nothing is written. -/
def repeating (x : Name) (c : Cace) : Licence where
  passes _ := False
  decides _ := False
  receives m := ∀ cmd, m = .write cmd → cmd.variableName ≠ x
  applies m := ∀ report, m.report? = some report → report.variableName = x →
    .applied m ∈ c.history

/-- An event that brings nothing new about the variable: a message, or a step at which every
pending update is one of before. -/
def Repeats (x : Name) (c : Cace) : Cace.Event → Prop
  | .handle m => (∀ cmd, m = .write cmd → cmd.variableName ≠ x) ∧
    ∀ report, m.report? = some report → report.variableName = x → .applied m ∈ c.history
  | .step =>
    (∀ cbn ∈ c.believeNotifications, cbn.variableName = x →
      .applied (.believeNotification cbn) ∈ c.history) ∧
    (c.safeStepMode = true → ∀ job ∈ c.jobs, ∀ m ∈ job.held, ∀ report, m.report? = some report →
      report.variableName = x → .applied m ∈ c.history)
  | _ => False

/-- The variable of a write that has arrived. -/
def writeTo? : Observation → Option Name
  | .received (.write cmd) => some cmd.variableName
  | _ => none

/-- No write of the variable has arrived. -/
def Unwritten (x : Name) (c : Cace) : Prop :=
  ∀ o ∈ c.history, writeTo? o ≠ some x

theorem Unwritten.elsewhere {x : Name} {c : Cace} (unwritten : Unwritten x c) {cmd : CaceCommand}
    (received : .received (.write cmd) ∈ c.history) : cmd.variableName ≠ x :=
  fun here => unwritten _ received (congrArg some here)

variable {r : Readings} {start c c' : Cace} {x : Name}

theorem untouched_effect (effect : Effect r (repeating x start) c c')
    (longer : start.history <+: c.history) (covered : Covered x c) (unwritten : Unwritten x c) :
    Untouched x c c' ∧ Unwritten x c' := by
  have kept : Unwritten x c' := by
    intro o member here
    unfold writeTo? at here
    split at here
    next cmd =>
      rcases effect.received member with old | ⟨-, heard, -⟩
      · exact unwritten.elsewhere old (Option.some.inj here)
      · exact heard cmd rfl (Option.some.inj here)
    next => cases here
  refine ⟨?_, kept⟩
  cases effect with
  | apply u own received admitted =>
    by_cases here : u.variableName = x
    · subst here
      have applied := longer.subset (admitted u.toReport u.message_report rfl)
      rw [covered.update_again (mem_appliedReports applied u.message_report)]
      exact ⟨.inl rfl, [.applied u.message], rfl, by simp⟩
    · refine ⟨.inl ?_, ?_⟩
      · rw [getVariable_updateVariable, if_neg (Ne.symm here)]
      · obtain ⟨seen, equal, notified⟩ := updateVariable_history c u
        refine ⟨_, equal, fun member => ?_⟩
        rcases List.mem_cons.mp member with applied | later
        · cases applied
        · exact here (Observation.notified.inj (notified _ later)).symm
  | write cmd received =>
    have elsewhere := unwritten.elsewhere received
    refine ⟨.inl ?_, ?_⟩
    · rw [getVariable_write, if_neg (Ne.symm elsewhere)]
    · obtain ⟨seen, equal, notified⟩ := writeUpdate_history r c cmd
      refine ⟨_, equal, fun member => ?_⟩
      rcases List.mem_cons.mp member with applied | later
      · cases applied
      · exact elsewhere (Observation.notified.inj (notified _ later)).symm
  | decide name value type strategy chosen => exact chosen.elim
  | insert given => exact given.elim
  | overwrite given => exact given.elim
  | @receive m =>
    refine ⟨.inl (by unfold Cace.receive; split <;> rfl), _, receive_history c m, by simp⟩
  | invalidate t =>
    refine ⟨?_, [], by simp [Cace.invalidate], by simp⟩
    rw [getVariable_invalidate]
    cases c.getVariable x with
    | none => exact .inl rfl
    | some cv =>
      simp only [Option.map_some]
      split
      · exact .inr ⟨cv, rfl, rfl⟩
      · exact .inl rfl
  | send | acknowledge | resend => exact ⟨.inl rfl, _, rfl, by simp⟩
  | tick | engage | queue => exact ⟨.inl rfl, [], (List.append_nil _).symm, by simp⟩

theorem untouched_path (path : Path r (repeating x c) c c') (covered : Covered x c)
    (unwritten : Unwritten x c) : Untouched x c c' := by
  have steps : Untouched x c c' ∧ Covered x c' ∧ Unwritten x c' ∧ c.history <+: c'.history := by
    induction path with
    | refl => exact ⟨.refl x c, covered, unwritten, List.prefix_rfl⟩
    | tail _ effect ih =>
      obtain ⟨before, covered1, unwritten1, longer⟩ := ih
      obtain ⟨after, unwritten2⟩ := untouched_effect effect longer covered1 unwritten1
      exact ⟨before.trans after, covered1.effect effect, unwritten2, longer.trans effect.history⟩
  exact steps.1

end Events

/-- Without the quiet module a handler gets the message that arrives. -/
theorem heard_loud {c : Cace} (loud : c.quiet = false) (m : Message) : heard c m = m := by
  cases m with
  | command m => simp [heard, Cace.stampedCommand, loud]
  | acknowledge m => simp [heard, Cace.stampedAcknowledge, loud]
  | _ => rfl

theorem admits_repeating {c : Cace} {x : Name} {e : Cace.Event} (loud : c.quiet = false)
    (repeats : Repeats x c e) : Admits (repeating x c) c e := by
  cases e with
  | handle m =>
    refine ⟨?_, fun _ => ?_, fun _ _ _ => trivial⟩
    · rw [heard_loud loud]
      exact repeats.1
    · rw [heard_loud loud]
      exact repeats.2
  | step =>
    refine ⟨fun cbn waits report reports about => ?_, repeats.2, fun _ _ => trivial, trivial⟩
    obtain rfl := Option.some.inj reports
    exact repeats.1 cbn waits about
  | distributeValue | distributeVariable | addVariable | writeVariable | requestVariable
  | pNoBlock | v | agentEngangement => exact repeats.elim

/-- Handling a message again is harmless. At any moment of a run, between two events or inside
the next one, the update of a message that has been applied writes nothing; and events that
bring such messages only leave the variable alone and notify no change. -/
theorem redelivery_harmless {start c : Cace} {trace : List (Cace × Readings × Cace.Event)}
    {x : Name} (idle : start.Idle) (loud : start.quiet = false) (run : start.Runs trace c) :
    (∀ r may d m report, Path r may c d → m.report? = some report → report.variableName = x →
      .applied m ∈ d.history → applyMessage r d m = d.observe (.applied m)) ∧
    (Unwritten x c → ∀ r e c', Repeats x c e → c.exec r e = .ok c' → Untouched x c c') := by
  have invariant : Covered x c ∧ c.quiet = false := by
    refine run.carries (fun _ c => Covered x c ∧ c.quiet = false)
      (fun _ c e c' _ (_ : True) next before => ?_) (fun _ _ => trivial) ?_
    · have path := exec_path_any before.1.queued next
      exact ⟨before.1.path path, (congrArg Config.quiet path.config).trans before.2⟩
    · exact ⟨⟨idle_queued idle, by simp [idle.history, appliedReports]⟩, loud⟩
  obtain ⟨covered, loud⟩ := invariant
  refine ⟨?_, ?_⟩
  · intro r may d m report path reports about applied
    obtain ⟨u, message, same, update⟩ := applyMessage_report r d reports
    subst message same
    rw [update]
    exact (about ▸ covered.path path).update_again (mem_appliedReports applied reports)
  · intro unwritten r e c' repeats success
    exact untouched_path (exec_path covered.queued (admits_repeating loud repeats) success) covered
      unwritten

/-- A command that comes again after a local call and a command of another agent. -/
theorem redelivery_harmless_command : ∃ trace c,
    (Cace.construct 1 false 10).play
      [(.zero, .handle (.command ⟨2, [0], ['x'], [7], 0, 0, 70, 1, 5, 0⟩)),
        (.zero, .distributeValue ['x'] [8] 0 .threeWayHandShake),
        (.zero, .handle (.command ⟨3, [0], ['x'], [9], 0, 0, 70, 1, 9, 0⟩))] = some (trace, c) ∧
      Untouched ['x'] c (c.handle .zero (.command ⟨2, [0], ['x'], [7], 0, 0, 70, 1, 5, 0⟩)) := by
  have played : (Cace.construct 1 false 10).play
      [(.zero, .handle (.command ⟨2, [0], ['x'], [7], 0, 0, 70, 1, 5, 0⟩)),
        (.zero, .distributeValue ['x'] [8] 0 .threeWayHandShake),
        (.zero, .handle (.command ⟨3, [0], ['x'], [9], 0, 0, 70, 1, 9, 0⟩))] = some _ := rfl
  obtain ⟨run, -⟩ := Cace.play_runs played
  have harmless := @redelivery_harmless _ _ _ ['x'] (Cace.construct_fresh 1 false 10).toIdle rfl run
  refine ⟨_, _, played, harmless.2 ?_ .zero (.handle _) _ ?_ rfl⟩
  · unfold Unwritten
    decide
  · exact ⟨by simp, fun _ _ _ => by decide⟩

end CaceProofs.Guarantees
