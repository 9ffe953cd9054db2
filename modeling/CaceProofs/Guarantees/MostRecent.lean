import CaceProofs.Guarantees.AcceptedBelief
import CaceProofs.Guarantees.HandledReports
import CaceProofs.Guarantees.HandshakeDepth

/-!
# The most recent decision

Under the MostRecent levels an agent takes over what was decided last. An acknowledge carries no
decision time: where its sender is on record, the record gets the greatest time there is.
-/
namespace CaceProofs.Guarantees
open Source Library

/-- What can change the own value: a call of the agent, or an applied report. -/
inductive Input where
  | call (time : Nat) (value : Bytes)
  | report (m : Message)

namespace Input

/-- The decision that a call, a command or a notification makes known. -/
def decision? : Input → Option (Nat × Bytes)
  | call time value => some (time, value)
  | report (.command m) => some (m.decissionTime, m.value)
  | report (.believeNotification m) => some (m.decissionTime, m.value)
  | report _ => none

/-- The message that was applied. -/
def message? : Input → Option Message
  | call _ _ => none
  | report m => some m

/-- The report as a belief of its sender. -/
def belief? : Input → Option (Belief Int Bytes)
  | call _ _ => none
  | report m => m.report?.map reported

end Input

def decisions (l : List Input) : List (Nat × Bytes) :=
  l.filterMap Input.decision?

def reports (l : List Input) : List (Belief Int Bytes) :=
  l.filterMap Input.belief?

/-- A report that is newer than the others of its sender counts. -/
def Counts (seen : List (Belief Int Bytes)) (b : Belief Int Bytes) : Prop :=
  ∀ a ∈ seen, a.id = b.id → a.age < b.age

instance (seen : List (Belief Int Bytes)) (b : Belief Int Bytes) : Decidable (Counts seen b) :=
  inferInstanceAs (Decidable (∀ a ∈ seen, a.id = b.id → a.age < b.age))

/-- A report that counts takes the mark from its sender, and one without a time sets a new one
if the sender has reported before. -/
def markStep (state : List (Belief Int Bytes) × List (Int × Bytes)) (i : Input) :
    List (Belief Int Bytes) × List (Int × Bytes) :=
  match i.belief? with
  | none => state
  | some b =>
    (state.1 ++ [b],
      if Counts state.1 b then
        (if i.decision? = none ∧ ∃ a ∈ state.1, a.id = b.id then [(b.id, b.value)] else []) ++
          state.2.filter fun k => k.1 ≠ b.id
      else state.2)

/-- The senders whose record has the greatest time there is, with what they acknowledged. -/
def marks (l : List Input) : List (Int × Bytes) :=
  (l.foldl markStep ([], [])).2

/-- What was decided last has that value. -/
def LastValue (l : List Input) (value : Bytes) : Prop :=
  ∀ d ∈ decisions l, (∀ e ∈ decisions l, e.1 ≤ d.1) → d.2 = value

/-- A report that is decided later is not empty, is newer than the others of its sender, and comes
when no other record is marked. An acknowledge does not come first. Whenever a report counts, the
marked records have the value that was decided last. -/
def ProperReport (l : List Input) (m : Message) (report : Report) : Prop :=
  (∀ t ∈ m.decissionTime?, (∃ d ∈ decisions l, t ≤ d.1) ∨ decisions l = [] ∨
    (report.value ≠ [] ∧ Counts (reports l) (reported report) ∧
      marks (l ++ [.report m]) = [])) ∧
  (m.decissionTime? = none → decisions l ≠ []) ∧
  (Counts (reports l) (reported report) → ∀ k ∈ marks (l ++ [.report m]), LastValue l k.2)

/-- A call decides later than all that is known. -/
def Proper (l : List Input) : Input → Prop
  | .call time _ => ∀ d ∈ decisions l, d.1 < time
  | .report m => ∀ report ∈ m.report?, ProperReport l m report

instance (l : List Input) (value : Bytes) : Decidable (LastValue l value) :=
  inferInstanceAs (Decidable (∀ d ∈ decisions l, (∀ e ∈ decisions l, e.1 ≤ d.1) → d.2 = value))

instance (l : List Input) (m : Message) (report : Report) :
    Decidable (ProperReport l m report) := by
  delta ProperReport
  infer_instance

instance (l : List Input) : (i : Input) → Decidable (Proper l i)
  | .call time _ => inferInstanceAs (Decidable (∀ d ∈ decisions l, d.1 < time))
  | .report m => inferInstanceAs (Decidable (∀ report ∈ m.report?, ProperReport l m report))

/-- Every input is proper after those before it. -/
def Orderly (l : List Input) : Prop :=
  ∀ before i after, l = before ++ i :: after → Proper before i

section Inputs

variable {l : List Input} {m : Message} {report : Report}

theorem Orderly.left {l' : List Input} (orderly : Orderly (l ++ l')) : Orderly l := by
  intro before i after same
  exact orderly before i (after ++ l') (by simp [same])

theorem Orderly.last {i : Input} (orderly : Orderly (l ++ [i])) : Proper l i :=
  orderly l i [] rfl

theorem Orderly.nil : Orderly [] := by
  intro before i after none
  have length := congrArg List.length none
  simp at length

theorem Orderly.snoc {i : Input} (orderly : Orderly l) (proper : Proper l i) :
    Orderly (l ++ [i]) := by
  intro before j after same
  rcases List.eq_nil_or_concat' after with rfl | ⟨rest, last, rfl⟩
  · obtain ⟨rfl, equal⟩ := List.append_inj' same rfl
    exact List.head_eq_of_cons_eq equal ▸ proper
  · rw [← List.cons_append, ← List.append_assoc] at same
    obtain ⟨rfl, -⟩ := List.append_inj' same rfl
    exact orderly before j rest rfl

theorem decision_report (about : m.report? = some report) :
    (Input.report m).decision? = m.decissionTime?.map fun t => (t, report.value) := by
  cases m with
  | command | believeNotification | acknowledge =>
    obtain rfl := Option.some.inj about
    rfl
  | shortAck | time | variableRequest | write | writeAck | response => cases about

theorem decisions_append_report (about : m.report? = some report) :
    decisions (l ++ [.report m]) =
      decisions l ++ (m.decissionTime?.map fun t => (t, report.value)).toList := by
  unfold decisions
  rw [List.filterMap_append, ← decision_report about]
  cases found : (Input.report m).decision? <;> simp [found]

theorem reports_append_report (about : m.report? = some report) :
    reports (l ++ [.report m]) = reports l ++ [reported report] := by
  simp [reports, Input.belief?, about]

theorem marks_append (i : Input) :
    marks (l ++ [i]) = (markStep (reports l, marks l) i).2 := by
  have seen : (l.foldl markStep ([], [])).1 = reports l := by
    induction l using List.reverseRecOn with
    | nil => rfl
    | append_singleton l j ih =>
      unfold reports at ih ⊢
      rw [List.foldl_append, List.foldl_cons, List.foldl_nil, List.filterMap_append, ← ih]
      cases found : j.belief? <;> simp [markStep, found]
  unfold marks
  rw [List.foldl_append, List.foldl_cons, List.foldl_nil, ← seen]

/-- A report that does not count leaves the marks. -/
theorem marks_stale (about : m.report? = some report)
    (stale : ¬ Counts (reports l) (reported report)) : marks (l ++ [.report m]) = marks l := by
  rw [marks_append, markStep, Input.belief?, about]
  exact if_neg stale

theorem marks_counts (about : m.report? = some report)
    (counts : Counts (reports l) (reported report)) : marks (l ++ [.report m]) =
      (if m.decissionTime? = none ∧ ∃ a ∈ reports l, a.id = report.senderID then
        [(report.senderID, report.value)] else []) ++
        (marks l).filter fun k => k.1 ≠ report.senderID := by
  have timeless : (Input.report m).decision? = none ↔ m.decissionTime? = none := by
    rw [decision_report about, Option.map_eq_none_iff]
  rw [marks_append, markStep, Input.belief?, about]
  dsimp only [Option.map_some]
  rw [if_pos counts]
  congr 1
  exact if_congr (and_congr_left' timeless) rfl rfl

end Inputs

section Variable

variable {l : List Input} {cv recorded : ConsensusVariable} {u : ProposalUpdate}

/-- One of the MostRecent levels. -/
def Latest (strategy : AcceptStrategy) : Prop :=
  strategy.acceptFunction = .mostRecent

/-- The own belief is the latest decision, and a proposal claims a later time only with a mark. -/
structure Ruled (l : List Input) (cv : ConsensusVariable) : Prop where
  decision : (cv.decissionTime, cv.val) ∈ decisions l
  greatest : ∀ d ∈ decisions l, d.1 ≤ cv.decissionTime
  finite : cv.decissionTime < longMax
  below : ∀ p ∈ cv.proposals, p.decissionTime ≤ cv.decissionTime ∨
    p.decissionTime = longMax ∧ (p.robotID, p.val) ∈ marks l
  levels : ∀ b ∈ cv.toBelieve :: cv.proposals, Latest b.strategy
  tallies : Tallies (reports l) (cv.proposals.map beliefOf)

/-- What accepting leaves under a MostRecent level: the own belief, or a proposal decided later. -/
theorem acceptProposals_latest (level : Latest cv.strategy) :
    (cv.acceptProposals none = cv ∧
        ∀ a ∈ cv.proposals, a.hasValue = true → a.decissionTime ≤ cv.decissionTime) ∨
      ∃ w ∈ cv.proposals, cv.decissionTime < w.decissionTime ∧
        cv.acceptProposals none = { cv with toBelieve := cv.toBelieve.update w } := by
  have function : cv.strategy.acceptFunction = .mostRecent := level
  have untouched : touched none cv.toBelieve = cv.toBelieve := if_neg (by simp [function])
  have accepted := @acceptProposals_eq none cv
  rw [untouched, function, contest_mostRecent] at accepted
  cases won : contest (scored Believe.decissionTime Believe.hasValue) cv.toBelieve cv.proposals with
  | none =>
    refine .inl ⟨?_, contest_kept won⟩
    rw [accepted, won, Option.map_none, Option.getD_none, ite_self]
  | some w =>
    refine .inr ⟨w, contest_mem won, (contest_taken won).above, ?_⟩
    rw [accepted, won, Option.map_some, Option.getD_some]

/-- Recording a report: the beliefs on record are old ones and its own. -/
theorem recorded_beliefs
    (success : cv.recordProposal u.senderID u.lamportTime u.overwrite (u.fresh cv.toBelieve) =
      some recorded) :
    recordReport (reported u.toReport) (cv.proposals.map beliefOf) =
        some (recorded.proposals.map beliefOf) ∧
      ∀ p ∈ recorded.proposals, p ∈ cv.proposals ∨ p = u.fresh cv.toBelieve ∨
        ∃ old ∈ cv.proposals, old.robotID = u.senderID ∧ p = u.overwrite old := by
  have same := recordProposal_recordReport cv u
  rw [success, Option.map_some] at same
  exact ⟨same.symm, fun p member => mem_recordProposal success member⟩

namespace Ruled

/-- The levels after recording. -/
theorem recorded_levels (ruled : Ruled l cv)
    (carries : ∀ s, u.message.strategy? = some s → Latest s)
    (success : cv.recordProposal u.senderID u.lamportTime u.overwrite (u.fresh cv.toBelieve) =
      some recorded) : ∀ b ∈ recorded.toBelieve :: recorded.proposals, Latest b.strategy := by
  have kept : ∀ s : AcceptStrategy, Latest s → Latest (u.message.strategy?.getD s) := by
    intro s level
    cases carried : u.message.strategy? with
    | none => exact level
    | some s' => exact carries s' carried
  obtain ⟨overwrites, freshens, -⟩ := u.strategies
  have own := ruled.levels _ List.mem_cons_self
  intro b member
  rcases List.mem_cons.mp member with rfl | proposal
  · rw [recordProposal_own success]
    exact own
  · rcases mem_recordProposal success proposal with old | rfl | ⟨old, inRecords, -, rfl⟩
    · exact ruled.levels b (List.mem_cons_of_mem _ old)
    · exact freshens _ ▸ kept _ own
    · exact overwrites old ▸ kept _ (ruled.levels old (List.mem_cons_of_mem _ inRecords))

theorem lastValue (ruled : Ruled l cv) {value : Bytes} (last : LastValue l value) :
    cv.val = value :=
  last _ ruled.decision ruled.greatest

/-- A report is recorded if it counts. -/
theorem counts (ruled : Ruled l cv)
    (success : cv.recordProposal u.senderID u.lamportTime u.overwrite (u.fresh cv.toBelieve) =
      some recorded) : Counts (reports l) (reported u.toReport) :=
  ruled.tallies.newer (recorded_beliefs success).1

/-- A proposal that is still there after recording a report is one of another sender. -/
theorem others (ruled : Ruled l cv)
    (success : cv.recordProposal u.senderID u.lamportTime u.overwrite (u.fresh cv.toBelieve) =
      some recorded) {p : Believe} (before : p ∈ cv.proposals) (after : p ∈ recorded.proposals) :
    p.robotID ≠ u.senderID := by
  intro sender
  obtain ⟨records, -⟩ := recorded_beliefs success
  have same : beliefOf p = reported u.toReport :=
    List.inj_on_of_nodup_map (recordReport_distinct records ruled.tallies.distinct)
      (List.mem_map_of_mem after) (recordReport_self records) sender
  obtain ⟨a, inReports, reporter, le⟩ := ruled.tallies.known _ (List.mem_map_of_mem before)
  have less := ruled.counts success a inReports (reporter.trans sender)
  rw [same] at le
  omega

/-- Such a proposal has its time or its mark still. -/
theorem still_below (ruled : Ruled l cv)
    (success : cv.recordProposal u.senderID u.lamportTime u.overwrite (u.fresh cv.toBelieve) =
      some recorded) {p : Believe} (before : p ∈ cv.proposals) (after : p ∈ recorded.proposals) :
    p.decissionTime ≤ cv.decissionTime ∨
      p.decissionTime = longMax ∧ (p.robotID, p.val) ∈ marks (l ++ [.report u.message]) := by
  refine (ruled.below p before).imp id fun ⟨time, marked⟩ => ⟨time, ?_⟩
  rw [marks_counts u.message_report (ruled.counts success)]
  refine List.mem_append_right _ (List.mem_filter.mpr ⟨marked, ?_⟩)
  simpa using ruled.others success before after

/-- One that is not recorded does not. -/
theorem uncounted (ruled : Ruled l cv)
    (stale : cv.recordProposal u.senderID u.lamportTime u.overwrite (u.fresh cv.toBelieve) =
      none) : recordReport (reported u.toReport) (cv.proposals.map beliefOf) = none ∧
      ¬ Counts (reports l) (reported u.toReport) := by
  have unrecorded : recordReport (reported u.toReport) (cv.proposals.map beliefOf) = none := by
    rw [← recordProposal_recordReport, stale]
    rfl
  refine ⟨unrecorded, fun counts => ?_⟩
  obtain ⟨a, member, sender, le⟩ := ruled.tallies.current unrecorded
  have less := counts a member sender
  omega

/-- A report that is not recorded changes nothing. -/
theorem dropped (ruled : Ruled l cv)
    (stale : cv.recordProposal u.senderID u.lamportTime u.overwrite (u.fresh cv.toBelieve) = none)
    (known : ∀ d ∈ decisions (l ++ [.report u.message]), d ∈ decisions l ∨
      ∃ e ∈ decisions l, d.1 ≤ e.1)
    (stays : decisions l ⊆ decisions (l ++ [.report u.message])) :
    Ruled (l ++ [.report u.message]) cv := by
  have about := u.message_report
  obtain ⟨unrecorded, uncounted⟩ := ruled.uncounted stale
  have same : marks (l ++ [.report u.message]) = marks l := marks_stale about uncounted
  refine ⟨stays ruled.decision, fun d member => ?_, ruled.finite, same ▸ ruled.below,
    ruled.levels, @reports_append_report l _ _ about ▸ ruled.tallies.drop unrecorded⟩
  rcases known d member with old | ⟨e, inDecisions, le⟩
  · exact ruled.greatest d old
  · exact le.trans (ruled.greatest e inDecisions)

/-- A recorded report that tells of no later decision: what is accepted has the value that was
decided last. -/
theorem settled (ruled : Ruled l cv) (proper : Proper l (.report u.message))
    (carries : ∀ s, u.message.strategy? = some s → Latest s)
    (success : cv.recordProposal u.senderID u.lamportTime u.overwrite (u.fresh cv.toBelieve) =
      some recorded)
    (known : ∀ d ∈ decisions (l ++ [.report u.message]), d ∈ decisions l ∨
      ∃ e ∈ decisions l, d.1 ≤ e.1)
    (stays : decisions l ⊆ decisions (l ++ [.report u.message]))
    (below : ∀ p ∈ recorded.proposals, p.decissionTime ≤ cv.decissionTime ∨
      p.decissionTime = longMax ∧ (p.robotID, p.val) ∈ marks (l ++ [.report u.message])) :
    Ruled (l ++ [.report u.message]) (recorded.acceptProposals none) := by
  have about := u.message_report
  obtain ⟨records, -⟩ := recorded_beliefs success
  have levels := ruled.recorded_levels carries success
  have own := recordProposal_own success
  have greatest : ∀ d ∈ decisions (l ++ [.report u.message]), d.1 ≤ cv.decissionTime := by
    intro d member
    rcases known d member with old | ⟨e, inDecisions, le⟩
    · exact ruled.greatest d old
    · exact le.trans (ruled.greatest e inDecisions)
  have tallies : Tallies (reports (l ++ [.report u.message]))
      (recorded.proposals.map beliefOf) :=
    @reports_append_report l _ _ about ▸ ruled.tallies.record records
  rcases acceptProposals_latest (levels _ List.mem_cons_self) with
    ⟨same, -⟩ | ⟨w, member, above, taken⟩
  · rw [same]
    exact ⟨own ▸ stays ruled.decision, own ▸ greatest, own ▸ ruled.finite, own ▸ below, levels,
      tallies⟩
  · rw [own] at above
    obtain ⟨time, marked⟩ := (below w member).resolve_left (Nat.not_le.mpr above)
    have value : cv.val = w.val :=
      ruled.lastValue ((proper _ about).2.2 (ruled.counts success) _ marked)
    have kept : (recorded.toBelieve.update w).decissionTime = cv.decissionTime := by
      change (if w.decissionTime ≠ longMax then _ else recorded.decissionTime) = _
      rw [if_neg (not_not_intro time), own]
    rw [taken]
    refine ⟨?_, fun d inDecisions => ?_, ?_, fun p inProposals => ?_, fun b inLevels => ?_,
      tallies⟩
    · have same : ((recorded.toBelieve.update w).decissionTime, w.val) =
          (cv.decissionTime, cv.val) := by rw [kept, value]
      exact same ▸ stays ruled.decision
    · exact kept ▸ greatest d inDecisions
    · exact kept ▸ ruled.finite
    · exact kept ▸ below p inProposals
    · rcases List.mem_cons.mp inLevels with rfl | proposal
      · exact levels w (List.mem_cons_of_mem _ member)
      · exact levels b (List.mem_cons_of_mem _ proposal)

/-- A recorded report of a later decision is taken over. -/
theorem news {t : Nat} (ruled : Ruled l cv) (time : u.message.decissionTime? = some t)
    (bounded : t < longMax) (later : cv.decissionTime < t) (filled : u.value ≠ [])
    (unmarked : marks (l ++ [.report u.message]) = [])
    (carries : ∀ s, u.message.strategy? = some s → Latest s)
    (success : cv.recordProposal u.senderID u.lamportTime u.overwrite (u.fresh cv.toBelieve) =
      some recorded) : Ruled (l ++ [.report u.message]) (recorded.acceptProposals none) := by
  have about := u.message_report
  have grown : decisions (l ++ [.report u.message]) = decisions l ++ [(t, u.value)] := by
    rw [decisions_append_report about, time]
    rfl
  obtain ⟨records, members⟩ := recorded_beliefs success
  have levels := ruled.recorded_levels carries success
  have own := recordProposal_own success
  -- a proposal is not decided later than the own belief, or is what is reported
  have either : ∀ p ∈ recorded.proposals, p.decissionTime ≤ cv.decissionTime ∨
      p.decissionTime = t ∧ p.val = u.value ∧ p.hasValue = true := by
    have valued : (!u.value.isEmpty) = true := by simpa using filled
    obtain ⟨overwrites, freshens, -⟩ := u.times
    intro p member
    rcases members p member with before | rfl | ⟨b, -, -, rfl⟩
    · refine .inl ((ruled.still_below success before member).resolve_right fun marked => ?_)
      rw [unmarked] at marked
      cases marked.2
    · rw [freshens, time, (u.fresh_records _).2.1, u.valued.2]
      exact .inr ⟨rfl, rfl, valued⟩
    · rw [overwrites, time, (u.overwrite_records _).2.1, u.valued.1]
      exact .inr ⟨rfl, rfl, valued⟩
  rcases acceptProposals_latest (levels _ List.mem_cons_self) with
    ⟨-, kept⟩ | ⟨w, member, above, taken⟩
  · -- the report itself is on record
    obtain ⟨p, member, here⟩ := List.mem_map.mp (recordReport_self records)
    rcases members p member with before | rfl | ⟨b, -, -, rfl⟩
    · exact absurd (congrArg Belief.id here) (ruled.others success before member)
    · have le := own ▸ kept _ member (by rw [u.valued.2]; simpa using filled)
      rw [u.times.2.1, time] at le
      exact absurd le (Nat.not_le.mpr later)
    · have le := own ▸ kept _ member (by rw [u.valued.1]; simpa using filled)
      rw [u.times.1, time] at le
      exact absurd le (Nat.not_le.mpr later)
  · rw [own] at above
    obtain ⟨here, value, -⟩ := (either w member).resolve_left (Nat.not_le.mpr above)
    have adopted : (recorded.toBelieve.update w).decissionTime = t := by
      change (if w.decissionTime ≠ longMax then w.decissionTime else _) = t
      rw [if_pos (here ▸ bounded.ne), here]
    rw [taken]
    refine ⟨?_, fun d inDecisions => ?_, adopted.trans_lt bounded, fun p inProposals => .inl ?_,
      fun b inLevels => ?_, @reports_append_report l _ _ about ▸ ruled.tallies.record records⟩
    · rw [grown]
      exact List.mem_append_right _ (List.mem_singleton.mpr (Prod.ext adopted value))
    · refine le_of_le_of_eq ?_ adopted.symm
      rw [grown] at inDecisions
      rcases List.mem_append.mp inDecisions with before | new
      · exact (ruled.greatest d before).trans later.le
      · exact (congrArg Prod.fst (List.mem_singleton.mp new)).le
    · refine le_of_le_of_eq ?_ adopted.symm
      rcases either p inProposals with le | ⟨equal, -⟩
      · exact le.trans later.le
      · exact equal.le
    · rcases List.mem_cons.mp inLevels with rfl | proposal
      · exact levels w (List.mem_cons_of_mem _ member)
      · exact levels b (List.mem_cons_of_mem _ proposal)

/-- A command or a notification of a known variable. -/
theorem told {t : Nat} (ruled : Ruled l cv) (proper : Proper l (.report u.message))
    (time : u.message.decissionTime? = some t) (bounded : t < longMax)
    (carries : ∀ s, u.message.strategy? = some s → Latest s) :
    Ruled (l ++ [.report u.message]) (updated u (some cv)) := by
  have about := u.message_report
  have grown : decisions (l ++ [.report u.message]) = decisions l ++ [(t, u.value)] := by
    rw [decisions_append_report about, time]
    rfl
  have stays : decisions l ⊆ decisions (l ++ [.report u.message]) :=
    grown ▸ List.subset_append_left _ _
  have known : t ≤ cv.decissionTime → ∀ d ∈ decisions (l ++ [.report u.message]),
      d ∈ decisions l ∨ ∃ e ∈ decisions l, d.1 ≤ e.1 := by
    intro le d member
    rw [grown] at member
    rcases List.mem_append.mp member with old | new
    · exact .inl old
    · exact .inr ⟨_, ruled.decision, List.mem_singleton.mp new ▸ le⟩
  have timely : t ≤ cv.decissionTime ∨ u.value ≠ [] ∧
      Counts (reports l) (reported u.toReport) ∧ marks (l ++ [.report u.message]) = [] := by
    rcases (proper _ about).1 t time with ⟨d, inDecisions, le⟩ | none | news
    · exact .inl (le.trans (ruled.greatest d inDecisions))
    · exact absurd none (List.ne_nil_of_mem ruled.decision)
    · exact .inr news
  unfold Guarantees.updated
  dsimp only
  cases success : cv.recordProposal u.senderID u.lamportTime u.overwrite
      (u.fresh cv.toBelieve) with
  | none =>
    refine ruled.dropped success (known ?_) stays
    rcases timely with le | ⟨-, counts, -⟩
    · exact le
    · exact absurd counts (ruled.uncounted success).2
  | some recorded =>
    dsimp only
    by_cases late : t ≤ cv.decissionTime
    · refine ruled.settled proper carries success (known late) stays fun p member => ?_
      rcases (recorded_beliefs success).2 p member with before | rfl | ⟨b, -, -, rfl⟩
      · exact ruled.still_below success before member
      · rw [u.times.2.1, time]
        exact .inl late
      · rw [u.times.1, time]
        exact .inl late
    · obtain ⟨filled, -, unmarked⟩ := timely.resolve_left late
      exact ruled.news time bounded (Nat.not_le.mp late) filled unmarked carries success

/-- An acknowledge of a known variable. -/
theorem acked (ruled : Ruled l cv) (proper : Proper l (.report u.message))
    (timeless : u.message.decissionTime? = none)
    (carries : ∀ s, u.message.strategy? = some s → Latest s) :
    Ruled (l ++ [.report u.message]) (updated u (some cv)) := by
  have about := u.message_report
  have same : decisions (l ++ [.report u.message]) = decisions l := by
    rw [decisions_append_report about, timeless, Option.map_none, Option.toList_none,
      List.append_nil]
  have known : ∀ d ∈ decisions (l ++ [.report u.message]), d ∈ decisions l ∨
      ∃ e ∈ decisions l, d.1 ≤ e.1 := fun d member => .inl (same ▸ member)
  have stays : decisions l ⊆ decisions (l ++ [.report u.message]) := fun d member =>
    same.symm ▸ member
  unfold Guarantees.updated
  dsimp only
  cases success : cv.recordProposal u.senderID u.lamportTime u.overwrite
      (u.fresh cv.toBelieve) with
  | none => exact ruled.dropped success known stays
  | some recorded =>
    dsimp only
    refine ruled.settled proper carries success known stays fun p member => ?_
    rcases (recorded_beliefs success).2 p member with before | rfl | ⟨b, inProposals, sender, rfl⟩
    · exact ruled.still_below success before member
    · rw [u.times.2.1, timeless]
      exact .inl le_rfl
    · -- the sender is on record, and gets a mark
      obtain ⟨a, inReports, reporter, -⟩ :=
        ruled.tallies.known _ (List.mem_map_of_mem inProposals)
      refine .inr ⟨by rw [u.times.1, timeless]; rfl, ?_⟩
      obtain ⟨robot, value, -⟩ := u.overwrite_records b
      rw [marks_counts about (ruled.counts success), robot, value,
        if_pos ⟨timeless, a, inReports, reporter.trans sender⟩, show b.robotID = _ from sender]
      exact List.mem_append_left _ (List.mem_singleton_self _)

/-- The command or notification that makes the variable known. -/
theorem created {u : ProposalUpdate} {t : Nat} (time : u.message.decissionTime? = some t)
    (bounded : t < longMax) (levelled : ∃ s, u.message.strategy? = some s ∧ Latest s) :
    Ruled [.report u.message] (updated u none) := by
  have about := u.message_report
  have decided : decisions [.report u.message] = [(t, u.value)] := by
    have grown := @decisions_append_report [] _ _ about
    rw [time] at grown
    exact grown
  have heard : reports [.report u.message] = [reported u.toReport] :=
    @reports_append_report [] _ _ about
  obtain ⟨s, carried, level⟩ := levelled
  obtain ⟨-, -, ownLevel, coLevel⟩ := u.strategies
  rw [carried, Option.getD_some] at ownLevel coLevel
  obtain ⟨-, -, ownTime, coTime⟩ := u.times
  rw [time, Option.getD_some] at ownTime coTime
  have function : u.own.strategy.acceptFunction = .mostRecent := by
    rw [ownLevel]
    exact level
  have none : contest (prefers u.own.strategy.acceptFunction) u.own [u.co] = none := by
    rw [function]
    simp [contest, prefers, ownTime, coTime]
  have commanded : touched (some u.value) u.own = u.own.setValue u.value :=
    if_neg (by simp [function])
  have accepted : Guarantees.updated u Option.none =
      { u.own.setValue u.value with proposals := [u.co] : ConsensusVariable } := by
    unfold Guarantees.updated
    rw [acceptProposals_eq]
    dsimp only
    rw [none, Option.map_none, Option.getD_none, if_neg (List.cons_ne_nil _ _), commanded]
  rw [accepted]
  refine ⟨?_, fun d member => ?_, ownTime.trans_lt bounded, fun p member => ?_,
    fun b member => ?_, ?_⟩
  · rw [decided]
    exact List.mem_singleton.mpr (Prod.ext ownTime rfl)
  · rw [decided] at member
    rw [List.mem_singleton.mp member]
    exact ownTime.ge
  · rw [List.mem_singleton.mp member]
    exact .inl (coTime.trans ownTime.symm).le
  · rcases List.mem_cons.mp member with rfl | proposal
    · exact function
    · rw [List.mem_singleton.mp proposal, coLevel]
      exact level
  · have record : [u.co].map beliefOf = [reported u.toReport] := by
      obtain ⟨sender, value, -, age⟩ := u.co_records
      simp [beliefOf, reported, sender, value, age]
    rw [heard]
    change Tallies _ ([u.co].map beliefOf)
    rw [record]
    exact Tallies.nil.record rfl

/-- The agent's own call. -/
theorem called {old : Option ConsensusVariable}
    (ruled : ∀ before, old = some before → Ruled l before) (unknown : old = none → l = [])
    (level : Latest cv.strategy) (finite : cv.decissionTime < longMax)
    (proposals : cv.proposals = (old.map fun before => before.proposals).getD [])
    (proper : Proper l (.call cv.decissionTime cv.val)) :
    Ruled (l ++ [.call cv.decissionTime cv.val]) cv := by
  have grown : decisions (l ++ [.call cv.decissionTime cv.val]) =
      decisions l ++ [(cv.decissionTime, cv.val)] := by
    simp [decisions, Input.decision?]
  have heard : reports (l ++ [.call cv.decissionTime cv.val]) = reports l := by
    simp [reports, Input.belief?]
  have greatest : ∀ d ∈ decisions (l ++ [.call cv.decissionTime cv.val]),
      d.1 ≤ cv.decissionTime := by
    intro d member
    rw [grown] at member
    rcases List.mem_append.mp member with earlier | new
    · exact (proper d earlier).le
    · exact (congrArg Prod.fst (List.mem_singleton.mp new)).le
  have last : (cv.decissionTime, cv.val) ∈ decisions (l ++ [.call cv.decissionTime cv.val]) := by
    rw [grown]
    exact List.mem_append_right _ (List.mem_singleton_self _)
  have unmarked : marks (l ++ [.call cv.decissionTime cv.val]) = marks l := by
    rw [marks_append, markStep, Input.belief?]
  have rest : (∀ p ∈ cv.proposals, (p.decissionTime ≤ cv.decissionTime ∨
      p.decissionTime = longMax ∧ (p.robotID, p.val) ∈ marks l) ∧ Latest p.strategy) ∧
      Tallies (reports l) (cv.proposals.map beliefOf) := by
    rw [proposals]
    cases old with
    | none =>
      obtain rfl := unknown rfl
      exact ⟨by simp, Tallies.nil⟩
    | some before =>
      have kept := ruled before rfl
      have decidedBefore := proper _ kept.decision
      refine ⟨fun p member => ⟨?_, kept.levels p (List.mem_cons_of_mem _ member)⟩, kept.tallies⟩
      exact (kept.below p member).imp (fun le => le.trans decidedBefore.le) id
  refine ⟨last, greatest, finite, unmarked ▸ fun p member => (rest.1 p member).1,
    fun b member => ?_, heard ▸ rest.2⟩
  rcases List.mem_cons.mp member with rfl | proposal
  · exact level
  · exact (rest.1 b proposal).2

end Ruled

end Variable

section Agent

variable {r : Readings} {x : Name} {c c' : Cace} {l : List Input}

theorem Latest.sent {strategy : AcceptStrategy} (level : Latest strategy) :
    Latest ⟨toShort strategy.code⟩ := by
  have either : strategy = .threeWayHandShakeMostRecent ∨
      strategy = .twoWayHandShakeMostRecent := by
    unfold Latest AcceptStrategy.acceptFunction at level
    split at level
    · cases level
    · split at level
      · cases level
      · split at level
        · cases level
        · split at level
          next chosen => exact chosen
          next => cases level
  unfold Latest
  rcases either with rfl | rfl <;> decide

/-- A command or a notification about the variable has a decision time below the maximum. -/
def Dated (x : Name) (m : Message) : Prop :=
  ∀ report, m.report? = some report → report.variableName = x →
    ∀ t, m.decissionTime? = some t → t < longMax

theorem Dated.heard {m : Message} (dated : Dated x m) : Dated x (Guarantees.heard c m) := by
  intro report reports about t time
  obtain ⟨sentTime, sent⟩ := heard_report reports
  rw [heard_decissionTime] at time
  exact dated _ sent about t time

/-- A message has a level if it has a decision time. -/
theorem level_of_time {m : Message} {t : Nat} (time : m.decissionTime? = some t) :
    ∃ s, m.strategy? = some s := by
  cases m with
  | command | believeNotification => exact ⟨_, rfl⟩
  | acknowledge | shortAck | write | writeAck | time | variableRequest | response => cases time

/-- The calls decide the variable themselves, and it is not written. -/
def recently (x : Name) : Licence where
  passes := Elsewhere x
  decides name := name ≠ x
  receives m := (Carries Latest x m ∧ Dated x m) ∧ ∀ cmd, m = .write cmd → cmd.variableName ≠ x

/-- An agent that says nothing else of the variable, and stores it at such a level. -/
structure Clocked (x : Name) (c : Cace) : Prop where
  queued : c.Queued
  received : ∀ m, .received m ∈ c.history → (recently x).receives m
  published : ∀ m t, .published m t ∈ c.history → Carries Latest x m ∧ Dated x m
  shelved : Shelved (fun b => Latest b.strategy) x c
  presents : ∀ job ∈ c.jobs, Presents (recently x) job

/-- An agent at which the variable is ruled by the inputs. -/
structure Current (x : Name) (l : List Input) (c : Cace) : Prop where
  clocked : Clocked x c
  unknown : c.getVariable x = none → l = []
  ruled : ∀ cv, c.getVariable x = some cv → Ruled l cv

namespace Clocked

/-- What is announced under the name of the variable is what is stored. -/
theorem announced (before : Clocked x c) {variablePtr : VariablePtr}
    (pointed : Pointed (recently x) variablePtr)
    (level : .noDistribution < (c.deref variablePtr).strategy)
    (about : (c.deref variablePtr).name = x) :
    c.getVariable x = some (c.deref variablePtr) := by
  have others : ∀ name cv, c.getVariable name = some cv → name ≠ x → cv.name ≠ x :=
    fun name cv stored other => (before.shelved.others name cv stored other).1
  rcases announced_stored others level about with ⟨cv, rfl⟩ | stored
  · exact absurd about pointed.1
  · exact stored

theorem published_effect (effect : Effect r (recently x) c c') (before : Clocked x c)
    (finite : ∀ cv, c.getVariable x = some cv → cv.decissionTime < longMax)
    {m : Message} {t : Transmission} (published : .published m t ∈ c'.history) :
    Carries Latest x m ∧ Dated x m := by
  refine ⟨fun report reports about strategy level => ?_, fun report reports about t' time => ?_⟩
  · rcases effect.tells before.presents published reports level with
      old | ⟨variablePtr, pointed, distributed, named, rfl, -⟩
    · exact (before.published m t old).1 report reports about strategy level
    · have stored := before.announced pointed distributed (named.trans about)
      exact (before.shelved.known _ stored _ List.mem_cons_self).2.sent
  · obtain ⟨strategy, level⟩ := level_of_time time
    rcases effect.tells before.presents published reports level with
      old | ⟨variablePtr, pointed, distributed, named, -, decided⟩
    · exact (before.published m t old).2 report reports about t' time
    · obtain rfl := Option.some.inj (decided.symm.trans time)
      exact finite _ (before.announced pointed distributed (named.trans about))

theorem effect (effect : Effect r (recently x) c c') (before : Clocked x c)
    (finite : ∀ cv, c.getVariable x = some cv → cv.decissionTime < longMax)
    (updates : ∀ u : ProposalUpdate, c' = c.updateVariable u → u.variableName = x →
      ∀ b ∈ (updated u (c.getVariable x)).toBelieve :: (updated u (c.getVariable x)).proposals,
        Latest b.strategy) : Clocked x c' := by
  refine ⟨effect.queued before.queued, fun m received => ?_, fun m t published =>
    before.published_effect effect finite published, ?_, fun job member =>
    effect.presents before.presents member⟩
  · rcases effect.received received with old | ⟨-, heard, -⟩
    · exact before.received m old
    · exact heard
  · refine before.shelved.effect effect (fun _ => .inl) (fun chosen => chosen rfl)
      (fun cmd heard => (before.received _ heard).2 cmd rfl) (fun _ latest => latest)
      (fun _ _ _ latest => latest) fun u same here _ => ?_
    -- the names stay, whatever the levels
    have named : Graded (fun _ => True) x (updated u (c.getVariable x)) := by
      refine Graded.updated here ⟨fun _ _ => trivial, fun _ _ => trivial, fun _ _ => trivial⟩
        (fun _ => ⟨trivial, trivial⟩) fun cv stored b member => ?_
      exact ⟨(before.shelved.known cv stored b member).1, trivial⟩
    exact fun b member => ⟨(named b member).1, updates u same here b member⟩

end Clocked

namespace Current

/-- A report about the variable. -/
theorem update {u : ProposalUpdate} (before : Current x l c) (here : u.variableName = x)
    (heard : .received u.message ∈ c.history) (proper : Proper l (.report u.message)) :
    Ruled (l ++ [.report u.message]) (updated u (c.getVariable x)) := by
  obtain ⟨⟨carries, dated⟩, -⟩ := before.clocked.received _ heard
  have levels : ∀ s, u.message.strategy? = some s → Latest s := carries _ u.message_report here
  cases time : u.message.decissionTime? with
  | some t =>
    have bounded : t < longMax := dated _ u.message_report here t time
    cases stored : c.getVariable x with
    | some cv => exact (before.ruled cv stored).told proper time bounded levels
    | none =>
      obtain rfl := before.unknown stored
      obtain ⟨s, carried⟩ := level_of_time time
      exact Ruled.created time bounded ⟨s, carried, levels s carried⟩
  | none =>
    cases stored : c.getVariable x with
    | some cv => exact (before.ruled cv stored).acked proper time levels
    | none =>
      -- an acknowledge does not come first
      obtain rfl := before.unknown stored
      exact absurd rfl ((proper _ u.message_report).2.1 time)

/-- An effect: at most one more report. -/
theorem effect (effect : Effect r (recently x) c c') : ∃ new,
    openings x c'.history = openings x c.history ++ new ∧
      ∀ l, Current x l c → Orderly (l ++ new.map .report) →
        Current x (l ++ new.map .report) c' := by
  rcases @effect_openings r x c c' _ effect with ⟨u, here, heard, rfl⟩ | same
  · obtain ⟨seen, history, notified⟩ := updateVariable_history c u
    have silent : openings x seen = [] := by
      refine List.filterMap_eq_nil_iff.mpr fun o member => ?_
      rw [notified o member]
    refine ⟨[u.message], ?_, fun l before orderly => ?_⟩
    · unfold openings at silent ⊢
      rw [history, List.filterMap_append, List.filterMap_cons, silent]
      simp [u.message_report, here]
    · have ruled := before.update here heard orderly.last
      have now : (c.updateVariable u).getVariable x = some (updated u (c.getVariable x)) := by
        rw [getVariable_updateVariable, here, if_pos rfl]
      refine ⟨before.clocked.effect effect (fun cv stored => (before.ruled cv stored).finite)
        fun u' same here' => ?_, fun absent => ?_, fun cv found => ?_⟩
      · have stored : (c.updateVariable u').getVariable x =
            some (updated u' (c.getVariable x)) := by
          rw [getVariable_updateVariable, here', if_pos rfl]
        rw [same, stored] at now
        exact Option.some.inj now ▸ ruled.levels
      · rw [now] at absent
        cases absent
      · obtain rfl := Option.some.inj (now.symm.trans found)
        exact ruled
  · refine ⟨[], by rw [same, List.append_nil], fun l before _ => ?_⟩
    rw [List.map_nil, List.append_nil]
    have none : ∀ u : ProposalUpdate, c' = c.updateVariable u → u.variableName ≠ x := by
      rintro u rfl here
      obtain ⟨seen, history, -⟩ := updateVariable_history c u
      unfold openings at same
      rw [history, List.filterMap_append] at same
      have none := List.append_cancel_left (same.trans (List.append_nil _).symm)
      simp [u.message_report, here] at none
    refine ⟨before.clocked.effect effect (fun cv stored => (before.ruled cv stored).finite)
      fun u update here => absurd here (none u update), fun absent => before.unknown ?_,
      fun cv found => ?_⟩
    · by_contra known
      exact effect.known known absent
    · rcases effect_update effect found with ⟨old, stored, rfl | rfl⟩ | ⟨u, update, about, -⟩
        | ⟨cmd, here, heard, -⟩ | ⟨-, -, -, chosen, -⟩ | ⟨var, given, named, -⟩
      · exact before.ruled cv stored
      · obtain ⟨decision, greatest, finite, below, levels, tallies⟩ := before.ruled old stored
        refine ⟨decision, greatest, finite, below, fun b member => ?_, tallies⟩
        rcases List.mem_cons.mp member with rfl | proposal
        · exact levels old.toBelieve List.mem_cons_self
        · exact levels b (List.mem_cons_of_mem _ proposal)
      · exact absurd about (none u update)
      · exact absurd here ((before.clocked.received _ heard).2 cmd rfl)
      · exact absurd rfl chosen
      · exact absurd named given.1

theorem path (path : Path r (recently x) c c') : ∃ new,
    openings x c'.history = openings x c.history ++ new ∧
      ∀ l, Current x l c → Orderly (l ++ new.map .report) →
        Current x (l ++ new.map .report) c' := by
  induction path with
  | refl => exact ⟨[], by simp, fun l before _ => by simpa using before⟩
  | @tail d e path effect ih =>
    obtain ⟨early, openings, ruled⟩ := ih
    obtain ⟨late, openings', ruled'⟩ := Current.effect effect
    refine ⟨early ++ late, ?_, fun l before orderly => ?_⟩
    · rw [openings', openings, List.append_assoc]
    · rw [List.map_append, ← List.append_assoc] at orderly ⊢
      exact ruled' _ (ruled l before orderly.left) orderly

end Current

end Agent

section Events

variable {r : Readings} {x : Name} {c c' d : Cace} {l : List Input} {cv : ConsensusVariable}

/-- The variable as the application has just decided it. -/
structure Assigned (x : Name) (c d : Cace) (cv : ConsensusVariable) : Prop where
  frame : d = { c with store := d.store }
  own : d.getVariable x = some cv
  others : ∀ q, q ≠ x → d.getVariable q = c.getVariable q
  name : cv.name = x
  proposals : cv.proposals = ((c.getVariable x).map fun old => old.proposals).getD []

namespace Current

theorem assigned (before : Current x l c) (assigned : Assigned x c d cv)
    (level : Latest cv.strategy) (finite : cv.decissionTime < longMax)
    (proper : Proper l (.call cv.decissionTime cv.val)) :
    Current x (l ++ [.call cv.decissionTime cv.val]) d := by
  have ruled : Ruled (l ++ [.call cv.decissionTime cv.val]) cv :=
    Ruled.called before.ruled before.unknown level finite assigned.proposals proper
  obtain ⟨frame, own, others, name, proposals⟩ := assigned
  have graded : Graded (fun b => Latest b.strategy) x cv := by
    intro b member
    refine ⟨?_, ruled.levels b member⟩
    rcases List.mem_cons.mp member with rfl | proposal
    · exact name
    · rw [proposals] at proposal
      cases stored : c.getVariable x with
      | none =>
        rw [stored] at proposal
        cases proposal
      | some old =>
        rw [stored] at proposal
        exact (before.clocked.shelved.known old stored b (List.mem_cons_of_mem _ proposal)).1
  obtain ⟨queued, received, published, shelved, presents⟩ := before.clocked
  obtain ⟨store, rfl⟩ : ∃ store, d = { c with store := store } := ⟨_, frame⟩
  refine ⟨⟨⟨queued.received, queued.noCommands⟩, received, published, ⟨?_, ?_⟩, presents⟩, ?_, ?_⟩
  · intro cv' found
    obtain rfl := Option.some.inj (own.symm.trans found)
    exact graded
  · intro q cv' found other
    exact shelved.others q cv' ((others q other).symm.trans found) other
  · intro absent
    rw [own] at absent
    cases absent
  · intro cv' found
    obtain rfl := Option.some.inj (own.symm.trans found)
    exact ruled

theorem decideValue (before : Current x l c) (value : Bytes) (type : Int)
    (strategy : AcceptStrategy) : Assigned x c (CaceSpace.decideValue r c x value type strategy)
      (decided r c x value type strategy (c.getVariable x)) where
  frame := decideValue_frame r c x value type strategy
  own := by rw [getVariable_decideValue, if_pos rfl]
  others q other := by rw [getVariable_decideValue, if_neg other]
  name := by
    cases stored : c.getVariable x with
    | none => rfl
    | some old => exact (before.clocked.shelved.known old stored _ List.mem_cons_self).1
  proposals := by cases c.getVariable x <;> rfl

end Current

/-- A variable of the application's own, which comes without proposals. -/
theorem distributeVariable_assigned {var : ConsensusVariable} (named : var.name = x)
    (fresh : var.proposals = []) (finite : var.decissionTime < longMax) :
    ∃ d cv, Assigned x c d cv ∧ cv.strategy = var.strategy ∧
      cv.decissionTime = var.decissionTime ∧ cv.val = var.val ∧
      (d.Queued → Path r (recently x) d (CaceSpace.distributeVariable r c (.detached var))) := by
  subst named
  unfold CaceSpace.distributeVariable
  dsimp only [Cace.deref]
  cases stored : c.getVariable var.name with
  | some old =>
    dsimp only
    rw [if_neg (by intro same; cases same)]
    refine ⟨_, old.update var, ⟨rfl, ?_, fun q other => ?_, rfl, ?_⟩, rfl, if_pos finite.ne, rfl,
      fun queued => command_path queued trivial⟩
    · rw [getVariable_setVariable, if_pos rfl, stored, Option.map_some]
    · rw [getVariable_setVariable, if_neg other]
    · rw [stored]
      rfl
  | none =>
    refine ⟨c.insertVariable var, var, ⟨insertVariable_frame c var, ?_, fun q other => ?_, rfl, ?_⟩,
      rfl, rfl, rfl, fun queued => ?_⟩
    · rw [getVariable_insertVariable, if_pos ⟨rfl, stored⟩]
    · rw [getVariable_insertVariable, if_neg fun same => other same.1]
    · rw [fresh, stored]
      rfl
    · unfold CaceSpace.addVariable
      rw [stored]
      exact command_path queued trivial

/-- What the application decides of the variable itself. -/
def called (x : Name) (e : Readings × Cace.Event) : List Input :=
  match e.2 with
  | .distributeValue name value _ _ =>
    if name = x then [.call e.1.distributedTime value] else []
  | .distributeVariable (.detached var) =>
    if var.name = x then [.call var.decissionTime var.val] else []
  | .distributeVariable (.stored _) | .addVariable _ _ | .writeVariable _ _
  | .requestVariable _ _ | .pNoBlock _ _ _ | .v _ | .agentEngangement _ _ | .step | .handle _ => []

/-- A call, and the reports about the variable that the event applies. -/
def eventInputs (x : Name) (p : Cace × Readings × Cace.Event) : List Input :=
  called x p.2 ++ match p.1.exec p.2.1 p.2.2 with
    | .ok c' => ((openings x c'.history).drop (openings x p.1.history).length).map .report
    | .error _ => []

def inputs (x : Name) (trace : List (Cace × Readings × Cace.Event)) : List Input :=
  trace.flatMap (eventInputs x)

/-- The variable is only ever distributed, at the MostRecent levels and with times below the
maximum: no write of it is handled. -/
def DistributesLatest (x : Name) (c : Cace) (e : Readings × Cace.Event) : Prop :=
  match e.2 with
  | .distributeValue name _ _ strategy =>
    name = x → Latest strategy ∧ e.1.distributedTime < longMax
  | .distributeVariable (.detached var) =>
    Elsewhere x var ∨ var.name = x ∧ Latest var.strategy ∧ var.decissionTime < longMax ∧
      var.proposals = []
  | .distributeVariable (.stored name) => Given (Elsewhere x) c (.stored name)
  | .addVariable var _ => Elsewhere x var
  | .pNoBlock name _ _ | .v name => (c.deref (.stored name)).name ≠ x
  | .handle m => ∀ cmd, m = .write cmd → cmd.variableName ≠ x
  | .writeVariable _ _ | .requestVariable _ _ | .agentEngangement _ _ | .step => True

theorem eventInputs_eq {e : Readings × Cace.Event} {new : List Message} (next : c.Next e c')
    (more : openings x c'.history = openings x c.history ++ new) :
    eventInputs x (c, e) = called x e ++ new.map .report := by
  have done : c.exec e.1 e.2 = .ok c' := next
  unfold eventInputs
  dsimp only
  rw [done]
  dsimp only
  rw [more, List.drop_left]

/-- The delivered messages about the variable that have been handled, in order. -/
def handledAbout (x : Name) (trace : List (Cace × Readings × Cace.Event)) : List Message :=
  (deliveries trace).handled.filter fun m => decide (m.report?.map Report.variableName = some x)

theorem openings_eq (x : Name) (history : List Observation) : openings x history =
    (appliedMessages history).filter
      fun m => decide (m.report?.map Report.variableName = some x) := by
  unfold openings appliedMessages
  rw [List.filter_filterMap]
  congr 1
  funext o
  cases o with
  | applied m =>
    dsimp only
    rw [Option.filter_some]
    by_cases about : m.report?.map Report.variableName = some x
    · rw [if_pos about, if_pos (decide_eq_true about)]
    · rw [if_neg about, if_neg (by simpa using about)]
  | received | published | notified => rfl

/-- The reports among the inputs are those that have been delivered and handled. -/
theorem inputs_delivered {start : Cace} {trace : List (Cace × Readings × Cace.Event)}
    (idle : start.Idle) (run : start.Runs trace c) :
    (inputs x trace).filterMap Input.message? = handledAbout x trace := by
  rw [handledAbout, ← (served idle run).handled, ← openings_eq]
  induction run with
  | nil => simp [inputs, openings, idle.history]
  | @step trace c c' e run next ih =>
    have queued : c.Queued := (runs_leads (idle_queued idle) run).queued (idle_queued idle)
    obtain ⟨more, longer⟩ := (exec_path_any queued next).history
    have opened : openings x c'.history = openings x c.history ++ openings x more := by
      rw [← longer]
      exact List.filterMap_append
    have called : (called x e).filterMap Input.message? = [] := by
      unfold Guarantees.called
      repeat' split
      all_goals rfl
    have reported : ((openings x more).map Input.report).filterMap Input.message? =
        openings x more := by
      rw [List.filterMap_map]
      exact List.filterMap_some
    rw [inputs, List.flatMap_append, List.flatMap_singleton, eventInputs_eq next opened,
      List.filterMap_append, List.filterMap_append, called, reported, opened, ← ih]
    rfl

/-- One event. -/
theorem Current.next {e : Readings × Cace.Event} (next : c.Next e c')
    (distributes : DistributesLatest x c e)
    (hears : ∀ m, e.2 = .handle m → Carries Latest x m ∧ Dated x m)
    (orderly : Orderly (l ++ eventInputs x (c, e))) (before : Current x l c) :
    Current x (l ++ eventInputs x (c, e)) c' := by
  -- the variable is not decided
  have admitted : Admits (recently x) c e.2 → called x e = [] →
      Current x (l ++ eventInputs x (c, e)) c' := by
    intro admitted none
    obtain ⟨new, more, ruled⟩ := Current.path (exec_path before.clocked.queued admitted next)
    rw [eventInputs_eq next more, none, List.nil_append] at orderly ⊢
    exact ruled l before orderly
  -- it is decided, and the rest follows
  have decided : ∀ d cv, Assigned x c d cv → Latest cv.strategy → cv.decissionTime < longMax →
      called x e = [.call cv.decissionTime cv.val] → (d.Queued → Path e.1 (recently x) d c') →
      Current x (l ++ eventInputs x (c, e)) c' := by
    intro d cv assigned level finite call rest
    have history : d.history = c.history := by rw [assigned.frame]
    have queues : d.queues = c.queues := by rw [assigned.frame]; rfl
    have queued : d.Queued := by
      refine ⟨fun m held => ?_, ?_⟩
      · rw [history]
        exact before.clocked.queued.received m (queues ▸ held)
      · rw [assigned.frame]
        exact before.clocked.queued.noCommands
    obtain ⟨new, more, ruled⟩ := Current.path (rest queued)
    rw [history] at more
    rw [eventInputs_eq next more, call, ← List.append_assoc] at orderly ⊢
    exact ruled _ (before.assigned assigned level finite orderly.left.last) orderly
  obtain ⟨r, e⟩ := e
  cases e with
  | distributeValue name value type strategy =>
    by_cases here : name = x
    · subst here
      obtain ⟨level, bounded⟩ := distributes rfl
      obtain rfl := Except.ok.inj next
      have time : (Guarantees.decided r c name value type strategy
          (c.getVariable name)).decissionTime = r.distributedTime := by
        cases c.getVariable name <;> rfl
      have val : (Guarantees.decided r c name value type strategy
          (c.getVariable name)).val = value := by
        cases c.getVariable name <;> rfl
      refine decided _ _ (before.decideValue value type strategy) ?_ (time ▸ bounded) ?_
        fun queued => distributeValue_rest queued
      · cases c.getVariable name <;> exact level
      · rw [time, val]
        exact if_pos rfl
    · exact admitted here (if_neg here)
  | distributeVariable variablePtr =>
    cases variablePtr with
    | stored => exact admitted distributes rfl
    | detached var =>
      rcases distributes with elsewhere | ⟨named, latest, finite, fresh⟩
      · exact admitted (.inl elsewhere) (if_neg elsewhere.1)
      · obtain rfl := Except.ok.inj next
        obtain ⟨d, cv, assigned, level, time, val, rest⟩ :=
          @distributeVariable_assigned r x c var named fresh finite
        refine decided d cv assigned (level ▸ latest) (time ▸ finite) ?_ rest
        rw [time, val]
        exact if_pos named
  | handle m =>
    refine admitted ⟨⟨⟨(hears m rfl).1.heard, (hears m rfl).2.heard⟩, fun cmd same => ?_⟩,
      fun _ => trivial, fun _ _ _ => trivial⟩ rfl
    cases m with
    | write => exact Message.write.inj same ▸ distributes _ rfl
    | command | acknowledge | believeNotification | shortAck | writeAck | time | variableRequest
    | response => cases same
  | step =>
    exact admitted ⟨fun _ _ => trivial, fun _ _ _ _ _ => trivial, fun _ _ => trivial, trivial⟩ rfl
  | addVariable | pNoBlock | v => exact admitted distributes rfl
  | writeVariable | requestVariable | agentEngangement => exact admitted trivial rfl

end Events

section System

variable {x : Name} {start s : System} {trace : List (System × System.Event)}

/-- What the inputs of an agent are, one event of the system later. -/
theorem inputs_localTrace (x : Name) (trace : List (System × System.Event)) (s : System)
    (e : System.Event) (id : Int) : inputs x (localTrace id (trace ++ [(s, e)])) =
      inputs x (localTrace id trace) ++
        (localEvent id e).toList.flatMap fun l => eventInputs x (s.agents id, l) := by
  unfold inputs
  rw [localTrace_append, List.flatMap_append]
  cases localEvent id e with
  | none => rfl
  | some l => rfl

/-- An agent to which nothing happens has no inputs. -/
theorem inputs_silent {id : Int} (silent : ∀ p ∈ trace, localEvent id p.2 = none) :
    inputs x (localTrace id trace) = [] := by
  have none : localTrace id trace = [] := by
    refine List.filterMap_eq_nil_iff.mpr fun p member => ?_
    rw [silent p member, Option.map_none]
  rw [none]
  rfl

/-- One event of the system. -/
theorem current_step {s' : System} {e : System.Event} (traced : Traced s)
    (before : ∀ id, Current x (inputs x (localTrace id trace)) (s.agents id))
    (next : s.Next e s')
    (distributes : ∀ id, ∀ l ∈ localEvent id e, DistributesLatest x (s.agents id) l)
    (orderly : ∀ id, Orderly (inputs x (localTrace id (trace ++ [(s, e)])))) (id : Int) :
    Current x (inputs x (localTrace id (trace ++ [(s, e)]))) (s'.agents id) := by
  have agent := system_next next id
  have ordered := orderly id
  rw [inputs_localTrace] at ordered ⊢
  cases event : localEvent id e with
  | none =>
    rw [event] at agent
    rw [Option.toList_none, List.flatMap_nil, List.append_nil, agent]
    exact before id
  | some l =>
    rw [event] at agent ordered
    rw [Option.toList_some, List.flatMap_singleton] at ordered ⊢
    refine (before id).next agent (distributes id l event) ?_ ordered
    -- what it handles, another agent has published
    intro m handled
    obtain ⟨r, e'⟩ := l
    obtain rfl := handled
    obtain ⟨i, -, -, t, published⟩ := traced.inFlight id m (local_flight next event)
    exact (before i).clocked.published m t published

theorem current_run (quiescent : Quiescent start) (unknown : ∀ id, (start.agents id).store = [])
    (run : start.Runs trace s)
    (distributes : ∀ p ∈ trace, ∀ id, ∀ l ∈ localEvent id p.2,
      DistributesLatest x (p.1.agents id) l)
    (orderly : ∀ id, Orderly (inputs x (localTrace id trace))) :
    ∀ id, Current x (inputs x (localTrace id trace)) (s.agents id) := by
  induction run with
  | nil =>
    intro id
    have idle := quiescent.idle id
    have none := getVariable_of_empty (unknown id)
    refine ⟨⟨idle_queued idle, ?_, ?_, ⟨?_, ?_⟩, ?_⟩, fun _ => rfl, ?_⟩
    · simp [idle.history]
    · simp [idle.history]
    · simp [none]
    · simp [none]
    · simp [idle.jobs]
    · simp [none]
  | @step trace s s' e run next ih =>
    have last : (s, e) ∈ trace ++ [(s, e)] := by simp
    have ordered : ∀ id, Orderly (inputs x (localTrace id trace)) := fun id =>
      (inputs_localTrace x trace s e id ▸ orderly id).left
    have before := ih (fun p member => distributes p (List.mem_append_left _ member)) ordered
    exact current_step (traced quiescent run) before next (distributes _ last) orderly

/-- In a run in which every input is proper, the own value of every agent is that of the latest
decision it has made or heard of. The reports among the inputs are the messages delivered to it. -/
theorem latest_decision (quiescent : Quiescent start)
    (unknown : ∀ id, (start.agents id).store = []) (run : start.Runs trace s)
    (distributes : ∀ p ∈ trace, ∀ id, ∀ l ∈ localEvent id p.2,
      DistributesLatest x (p.1.agents id) l)
    (orderly : ∀ id, Orderly (inputs x (localTrace id trace))) (id : Int) :
    (inputs x (localTrace id trace)).filterMap Input.message? =
        handledAbout x (localTrace id trace) ∧
      ((s.agents id).getVariable x = none → inputs x (localTrace id trace) = []) ∧
      ∀ cv, (s.agents id).getVariable x = some cv →
        (cv.decissionTime, cv.val) ∈ decisions (inputs x (localTrace id trace)) ∧
          ∀ d ∈ decisions (inputs x (localTrace id trace)), d.1 ≤ cv.decissionTime := by
  have current := current_run quiescent unknown run distributes orderly id
  exact ⟨inputs_delivered (quiescent.idle id) (local_runs run id), current.unknown, fun cv known =>
    ⟨(current.ruled cv known).decision, (current.ruled cv known).greatest⟩⟩

end System

section Examples

/-- A reading of the distributed time. -/
def timeIs (t : Nat) : Readings := { Readings.zero with distributedTime := t }

/-- Agent 1 distributes twice, and each time waits for the acknowledge of agent 2. The second one
leaves a mark, with the value that was decided last. -/
theorem latest_decision_awaited : ∃ trace s,
    (newSystem [1, 2]).play
      [.call 1 (timeIs 1) (.distributeValue ['x'] [7] 0 .twoWayHandShakeMostRecent),
        .deliver 2 .zero (.command ⟨1, [0], ['x'], [7], 1, longMax, 38, 101, 2, 0⟩),
        .deliver 1 .zero (.acknowledge ⟨2, [0], ['x'], [7], 101, 3, 0⟩),
        .call 1 (timeIs 2) (.distributeValue ['x'] [8] 0 .twoWayHandShakeMostRecent),
        .deliver 2 .zero (.command ⟨1, [0], ['x'], [8], 2, longMax, 38, 104, 5, 0⟩),
        .deliver 1 .zero (.acknowledge ⟨2, [0], ['x'], [8], 104, 6, 0⟩)] = some (trace, s) ∧
      marks (inputs ['x'] (localTrace 1 trace)) = [(2, [8])] ∧
      handledAbout ['x'] (localTrace 1 trace) = [.acknowledge ⟨2, [0], ['x'], [7], 101, 3, 0⟩,
        .acknowledge ⟨2, [0], ['x'], [8], 104, 6, 0⟩] ∧
      ∀ id, ((s.agents id).getVariable ['x'] = none → inputs ['x'] (localTrace id trace) = []) ∧
        ∀ cv, (s.agents id).getVariable ['x'] = some cv →
          (cv.decissionTime, cv.val) ∈ decisions (inputs ['x'] (localTrace id trace)) ∧
            ∀ d ∈ decisions (inputs ['x'] (localTrace id trace)), d.1 ≤ cv.decissionTime := by
  have played : (newSystem [1, 2]).play
      [.call 1 (timeIs 1) (.distributeValue ['x'] [7] 0 .twoWayHandShakeMostRecent),
        .deliver 2 .zero (.command ⟨1, [0], ['x'], [7], 1, longMax, 38, 101, 2, 0⟩),
        .deliver 1 .zero (.acknowledge ⟨2, [0], ['x'], [7], 101, 3, 0⟩),
        .call 1 (timeIs 2) (.distributeValue ['x'] [8] 0 .twoWayHandShakeMostRecent),
        .deliver 2 .zero (.command ⟨1, [0], ['x'], [8], 2, longMax, 38, 104, 5, 0⟩),
        .deliver 1 .zero (.acknowledge ⟨2, [0], ['x'], [8], 104, 6, 0⟩)] = some _ := rfl
  obtain ⟨run, -⟩ := System.play_runs played
  refine ⟨_, _, played, by decide, by decide, fun id =>
    (latest_decision (newSystem_quiescent [1, 2]) (fun _ => rfl) run ?_ ?_ id).2⟩
  · refine List.forall_mem_cons.mpr ⟨fun id => local_call fun _ _ => ⟨rfl, by decide⟩,
      List.forall_mem_cons.mpr ⟨fun id => local_deliver ?_,
        List.forall_mem_cons.mpr ⟨fun id => local_deliver ?_,
          List.forall_mem_cons.mpr ⟨fun id => local_call fun _ _ => ⟨rfl, by decide⟩,
            List.forall_mem_cons.mpr ⟨fun id => local_deliver ?_,
              List.forall_mem_cons.mpr ⟨fun id => local_deliver ?_, by simp⟩⟩⟩⟩⟩⟩
    all_goals
      intro _ cmd same
      cases same
  · intro id
    by_cases one : id = 1
    · subst one
      change Orderly [.call 1 [7], .report (.acknowledge ⟨2, [0], ['x'], [7], 101, 3, 0⟩),
        .call 2 [8], .report (.acknowledge ⟨2, [0], ['x'], [8], 104, 6, 0⟩)]
      exact (((Orderly.nil.snoc (by decide)).snoc (by decide)).snoc (by decide)).snoc (by decide)
    · by_cases two : id = 2
      · subst two
        change Orderly [.report (.command ⟨1, [0], ['x'], [7], 1, longMax, 38, 101, 2, 0⟩),
          .report (.command ⟨1, [0], ['x'], [8], 2, longMax, 38, 104, 5, 0⟩)]
        exact (Orderly.nil.snoc (by decide)).snoc (by decide)
      · rw [inputs_silent]
        · exact Orderly.nil
        · have other : ∀ i : Int, i = 1 ∨ i = 2 → i ≠ id := by omega
          refine List.forall_mem_cons.mpr ⟨if_neg (other 1 (by simp)),
            List.forall_mem_cons.mpr ⟨if_neg (other 2 (by simp)),
              List.forall_mem_cons.mpr ⟨if_neg (other 1 (by simp)),
                List.forall_mem_cons.mpr ⟨if_neg (other 1 (by simp)),
                  List.forall_mem_cons.mpr ⟨if_neg (other 2 (by simp)),
                    List.forall_mem_cons.mpr ⟨if_neg (other 1 (by simp)), by simp⟩⟩⟩⟩⟩⟩

/-- The acknowledge of the second value arrives when agent 1 has distributed the third: agent 1
takes its own earlier value back. -/
theorem latest_decision_outranked : ∃ trace s,
    (newSystem [1, 2]).play
      [.call 1 (timeIs 1) (.distributeValue ['x'] [7] 0 .twoWayHandShakeMostRecent),
        .deliver 2 .zero (.command ⟨1, [0], ['x'], [7], 1, longMax, 38, 101, 2, 0⟩),
        .deliver 1 .zero (.acknowledge ⟨2, [0], ['x'], [7], 101, 3, 0⟩),
        .call 1 (timeIs 2) (.distributeValue ['x'] [8] 0 .twoWayHandShakeMostRecent),
        .deliver 2 .zero (.command ⟨1, [0], ['x'], [8], 2, longMax, 38, 104, 5, 0⟩),
        .call 1 (timeIs 3) (.distributeValue ['x'] [9] 0 .twoWayHandShakeMostRecent),
        .deliver 1 .zero (.acknowledge ⟨2, [0], ['x'], [8], 104, 6, 0⟩)] = some (trace, s) ∧
      Quiescent (newSystem [1, 2]) ∧ (∀ id, ((newSystem [1, 2]).agents id).store = []) ∧
      (∀ p ∈ trace, ∀ id, ∀ l ∈ localEvent id p.2,
        DistributesLatest ['x'] (p.1.agents id) l) ∧
      decisions (inputs ['x'] (localTrace 1 trace)) = [(1, [7]), (2, [8]), (3, [9])] ∧
      ((s.agents 1).getVariable ['x']).map (fun cv => cv.val) = some [8] := by
  have played : (newSystem [1, 2]).play
      [.call 1 (timeIs 1) (.distributeValue ['x'] [7] 0 .twoWayHandShakeMostRecent),
        .deliver 2 .zero (.command ⟨1, [0], ['x'], [7], 1, longMax, 38, 101, 2, 0⟩),
        .deliver 1 .zero (.acknowledge ⟨2, [0], ['x'], [7], 101, 3, 0⟩),
        .call 1 (timeIs 2) (.distributeValue ['x'] [8] 0 .twoWayHandShakeMostRecent),
        .deliver 2 .zero (.command ⟨1, [0], ['x'], [8], 2, longMax, 38, 104, 5, 0⟩),
        .call 1 (timeIs 3) (.distributeValue ['x'] [9] 0 .twoWayHandShakeMostRecent),
        .deliver 1 .zero (.acknowledge ⟨2, [0], ['x'], [8], 104, 6, 0⟩)] = some _ := rfl
  refine ⟨_, _, played, newSystem_quiescent [1, 2], fun _ => rfl, ?_, by decide, by decide⟩
  refine List.forall_mem_cons.mpr ⟨fun id => local_call fun _ _ => ⟨rfl, by decide⟩,
    List.forall_mem_cons.mpr ⟨fun id => local_deliver ?_,
      List.forall_mem_cons.mpr ⟨fun id => local_deliver ?_,
        List.forall_mem_cons.mpr ⟨fun id => local_call fun _ _ => ⟨rfl, by decide⟩,
          List.forall_mem_cons.mpr ⟨fun id => local_deliver ?_,
            List.forall_mem_cons.mpr ⟨fun id => local_call fun _ _ => ⟨rfl, by decide⟩,
              List.forall_mem_cons.mpr ⟨fun id => local_deliver ?_, by simp⟩⟩⟩⟩⟩⟩⟩
  all_goals
    intro _ cmd same
    cases same

end Examples

end CaceProofs.Guarantees
