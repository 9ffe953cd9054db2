import CaceProofs.Guarantees.AcceptedBelief
import CaceProofs.Guarantees.EventEffects

/-!
# The expiry of an adopted value

Commands arrive with validity times, and `invalidate` takes the value of an expired variable
away. `update` copies the validity time of the proposal it adopts, except the greatest one,
so the own validity time may be that of an earlier command.
-/
namespace CaceProofs.Guarantees.Expiry
open Source Library

/-- A command is handled, or the variables are checked at a distributed time. -/
inductive Event where
  | command (r : Readings) (cc : CaceCommand)
  | invalidate (distributedTime : Nat)

def Next (c : Cace) : Event → Cace → Prop
  | .command r cc, c' => c' = c.handle r (.command cc)
  | .invalidate t, c' => c' = c.invalidate t

abbrev Trace := List (Cace × Event)

/-- The handler of the command updates the variable at once. -/
def Updates (x : Name) (c : Cace) (cc : CaceCommand) : Prop :=
  c.isBlacklisted cc.senderID = false ∧ c.addressed cc.receiverID = true ∧
    c.safeStepMode = false ∧ cc.variableName = x

instance (x : Name) (c : Cace) (cc : CaceCommand) : Decidable (Updates x c cc) := by
  delta Updates
  infer_instance

/-- The proposal that an update of the variable adopts, if it adopts one. -/
def adopts (u : ProposalUpdate) : Option ConsensusVariable → Option Believe
  | some cv =>
    match cv.recordProposal u.senderID u.lamportTime u.overwrite (u.fresh cv.toBelieve) with
    | some recorded =>
      contest (prefers recorded.strategy.acceptFunction) recorded.toBelieve recorded.proposals
    | none => none
  | none => some u.co

/-- What the handler of the command writes. -/
def updateOf (r : Readings) (c : Cace) (cc : CaceCommand) : ProposalUpdate :=
  commandUpdate r c.ownID (c.stampedCommand cc)

/-- The proposal that an event adopts. -/
def adoptsIn (x : Name) (p : Cace × Event) : Option Believe :=
  match p.2 with
  | .command r cc =>
    if Updates x p.1 cc then adopts (updateOf r p.1 cc) (p.1.getVariable x) else none
  | .invalidate _ => none

/-- The proposal that the own value comes from: the one adopted last. -/
def adopted (x : Name) (trace : Trace) : Option Believe :=
  trace.foldl (fun w p => (adoptsIn x p).or w) none

theorem adopted_append (x : Name) (trace : Trace) (p : Cace × Event) :
    adopted x (trace ++ [p]) = (adoptsIn x p).or (adopted x trace) := by
  simp [adopted]

/-- The proposal is what a handled command has left on record. -/
def CarriedBy (x : Name) (trace : Trace) (w : Believe) (cc : CaceCommand) : Prop :=
  ∃ c r, (c, .command r cc) ∈ trace ∧ Updates x c cc ∧ w.robotID = cc.senderID ∧
    w.val = cc.value ∧ w.validityTime = cc.validityTime ∧
    w.lamportAge = (c.stampedCommand cc).lamportTime

/-- Whenever the value expires, the command that it was adopted from has expired. -/
def ExpiresWithCommand (x : Name) (trace : Trace) : Prop :=
  ∀ before c t cv, before ++ [(c, .invalidate t)] <+: trace →
    c.getVariable x = some cv → cv.hasValue = true →
    (c.invalidate t).getVariable x = some { cv with hasValue := false } →
    ∃ w cc, adopted x before = some w ∧ CarriedBy x before w cc ∧ cv.val = cc.value ∧
      cc.validityTime < t

/-- The levels of the commands are default ones. -/
def DefaultLevel (x : Name) (p : Cace × Event) : Prop :=
  ∀ r cc, p.2 = .command r cc → cc.variableName = x →
    (⟨cc.level⟩ : AcceptStrategy).acceptFunction = .default

/-- A proposal that is valid forever is adopted only in place of one that is. -/
def Replaces (x : Name) (p : Cace × Event) : Prop :=
  ∀ cv w, p.1.getVariable x = some cv → adoptsIn x p = some w → w.validityTime = longMax →
    cv.validityTime = longMax

section Handled

variable {r : Readings} {c : Cace} {x : Name} {cc : CaceCommand}

theorem stampedCommand_same (c : Cace) (cc : CaceCommand) :
    (c.stampedCommand cc).senderID = cc.senderID ∧
      (c.stampedCommand cc).receiverID = cc.receiverID ∧
      (c.stampedCommand cc).variableName = cc.variableName ∧
      (c.stampedCommand cc).value = cc.value ∧ (c.stampedCommand cc).level = cc.level ∧
      (c.stampedCommand cc).validityTime = cc.validityTime := by
  unfold Cace.stampedCommand
  split <;> exact ⟨rfl, rfl, rfl, rfl, rfl, rfl⟩

/-- The variable after its command was handled. -/
theorem handleCommand_getVariable (r : Readings) (c : Cace) (x : Name) (cc : CaceCommand) :
    (c.handle r (.command cc)).getVariable x =
      if Updates x c cc then some (updated (updateOf r c cc) (c.getVariable x))
      else c.getVariable x := by
  obtain ⟨sender, receivers, name, -⟩ := stampedCommand_same c cc
  unfold Cace.handle Cace.handleCaceCommand
  dsimp only
  rw [sender, receivers]
  cases listed : c.isBlacklisted cc.senderID with
  | true => simp [Updates, listed]
  | false =>
    simp only [Bool.false_eq_true, if_false]
    cases addressed : c.addressed cc.receiverID with
    | false =>
      have missed : ((c.observe (.received (.command (c.stampedCommand cc)))).updateLamportTime
          (c.stampedCommand cc).lamportTime).addressed cc.receiverID = false := addressed
      simp only [missed, Updates, addressed]
      simp [Cace.getVariable, Cace.updateLamportTime, Cace.observe]
    | true =>
      have reached : ((c.observe (.received (.command (c.stampedCommand cc)))).updateLamportTime
          (c.stampedCommand cc).lamportTime).addressed cc.receiverID = true := addressed
      simp only [reached, if_true]
      unfold CommandAcknowledgeJob.construct
      cases safe : c.safeStepMode with
      | true =>
        have waits : ((c.observe (.received (.command (c.stampedCommand cc)))).updateLamportTime
            (c.stampedCommand cc).lamportTime).safeStepMode = true := safe
        simp only [waits, if_true, Updates, safe]
        simp [Cace.getVariable, Cace.updateLamportTime, Cace.observe, Cace.appendJob]
      | false =>
        have direct : ((c.observe (.received (.command (c.stampedCommand cc)))).updateLamportTime
            (c.stampedCommand cc).lamportTime).safeStepMode = false := safe
        have written : ∀ q, (CommandAcknowledgeJob.doVariableUpdate r
            ((c.observe (.received (.command (c.stampedCommand cc)))).updateLamportTime
              (c.stampedCommand cc).lamportTime) (c.stampedCommand cc)).getVariable q =
            if q = cc.variableName then
              some (updated (updateOf r c cc) (c.getVariable cc.variableName))
            else c.getVariable q := by
          intro q
          unfold CommandAcknowledgeJob.doVariableUpdate
          rw [getVariable_updateVariable]
          change (if q = (c.stampedCommand cc).variableName then
            some (updated (updateOf r c cc) (c.getVariable (c.stampedCommand cc).variableName))
              else c.getVariable q) = _
          rw [name]
        have here : Updates x c cc ↔ x = cc.variableName := by
          simp [Updates, listed, addressed, safe, eq_comm]
        simp only [direct, Bool.false_eq_true, if_false, here]
        have result : ∀ d : Cace, (∀ q, d.getVariable q =
            if q = cc.variableName then
              some (updated (updateOf r c cc) (c.getVariable cc.variableName))
            else c.getVariable q) →
            d.getVariable x = if x = cc.variableName then
              some (updated (updateOf r c cc) (c.getVariable x)) else c.getVariable x := by
          intro d after
          rw [after x]
          split
          next same => rw [same]
          next => rfl
        split
        · exact result _ fun q => (publishUnlessQuiet_getVariable _ _ _ q).trans (written q)
        · exact result _ written

end Handled

section Invariant

variable {x : Name} {trace : Trace} {c c' : Cace} {e : Event}

/-- A proposal on record: of a default level, from a handled command. -/
def OnRecord (x : Name) (trace : Trace) (b : Believe) : Prop :=
  b.strategy.acceptFunction = .default ∧ ∃ cc, CarriedBy x trace b cc

/-- Value and validity time of the variable are those of the proposal adopted last. -/
structure Tracked (x : Name) (trace : Trace) (cv : ConsensusVariable) : Prop where
  level : cv.strategy.acceptFunction = .default
  recorded : ∀ b ∈ cv.proposals, OnRecord x trace b
  origin : ∃ w, adopted x trace = some w ∧ OnRecord x trace w ∧ cv.val = w.val ∧
    cv.validityTime = w.validityTime

theorem OnRecord.mono {b : Believe} (before : OnRecord x trace b) (p : Cace × Event) :
    OnRecord x (trace ++ [p]) b := by
  obtain ⟨level, cc, d, r, member, updates⟩ := before
  exact ⟨level, cc, d, r, List.mem_append_left _ member, updates⟩

/-- An event that adopts nothing and leaves value and validity time. -/
theorem Tracked.keep {cv cv' : ConsensusVariable} {p : Cace × Event} (before : Tracked x trace cv)
    (silent : adoptsIn x p = none)
    (level : cv'.strategy = cv.strategy) (recorded : ∀ b ∈ cv'.proposals, OnRecord x (trace ++ [p]) b)
    (value : cv'.val = cv.val) (validity : cv'.validityTime = cv.validityTime) :
    Tracked x (trace ++ [p]) cv' := by
  obtain ⟨w, last, onRecord, sameValue, sameTime⟩ := before.origin
  refine ⟨level ▸ before.level, recorded, w, ?_, onRecord.mono p, value.trans sameValue,
    validity.trans sameTime⟩
  rw [adopted_append, silent]
  exact last

/-- An event that adopts a proposal with its value and its validity time. -/
theorem Tracked.adopt {cv' : ConsensusVariable} {p : Cace × Event} {w : Believe}
    (takes : adoptsIn x p = some w) (onRecord : OnRecord x (trace ++ [p]) w)
    (level : cv'.strategy = w.strategy) (recorded : ∀ b ∈ cv'.proposals, OnRecord x (trace ++ [p]) b)
    (value : cv'.val = w.val) (validity : cv'.validityTime = w.validityTime) :
    Tracked x (trace ++ [p]) cv' := by
  refine ⟨level ▸ onRecord.1, recorded, w, ?_, onRecord, value, validity⟩
  rw [adopted_append, takes]
  rfl

/-- The proposals after a command of a default level are on record. -/
theorem recorded_onRecord {r : Readings} {cc : CaceCommand} {cv recorded : ConsensusVariable}
    (updates : Updates x c cc) (level : (⟨cc.level⟩ : AcceptStrategy).acceptFunction = .default)
    (old : ∀ b ∈ cv.proposals, OnRecord x trace b)
    (success : cv.recordProposal (updateOf r c cc).senderID (updateOf r c cc).lamportTime
      (updateOf r c cc).overwrite ((updateOf r c cc).fresh cv.toBelieve) = some recorded) :
    ∀ b ∈ recorded.proposals, OnRecord x (trace ++ [(c, .command r cc)]) b := by
  obtain ⟨sender, -, -, value, sameLevel, validity⟩ := stampedCommand_same c cc
  have here : ((c, .command r cc) : Cace × Event) ∈ trace ++ [(c, .command r cc)] := by simp
  have levels : (⟨(c.stampedCommand cc).level⟩ : AcceptStrategy).acceptFunction = .default := by
    rw [sameLevel]
    exact level
  intro b member
  rcases mem_recordProposal success member with stays | rfl | ⟨p, -, robot, rfl⟩
  · exact (old b stays).mono _
  · exact ⟨levels, cc, c, r, here, updates, sender, value, validity, rfl⟩
  · exact ⟨levels, cc, c, r, here, updates, robot.trans sender, value, validity, rfl⟩

/-- The variable that its first command creates. -/
theorem created_tracked {r : Readings} {cc : CaceCommand} (updates : Updates x c cc)
    (level : (⟨cc.level⟩ : AcceptStrategy).acceptFunction = .default)
    (unknown : c.getVariable x = none) :
    Tracked x (trace ++ [(c, .command r cc)]) (updated (updateOf r c cc) none) := by
  obtain ⟨sender, -, -, value, sameLevel, validity⟩ := stampedCommand_same c cc
  have levels : (⟨(c.stampedCommand cc).level⟩ : AcceptStrategy).acceptFunction = .default := by
    rw [sameLevel]
    exact level
  have co : OnRecord x (trace ++ [(c, .command r cc)]) (updateOf r c cc).co :=
    ⟨levels, cc, c, r, by simp, updates, sender, value, validity, rfl⟩
  have takes : adoptsIn x (c, .command r cc) = some (updateOf r c cc).co := by
    simp only [adoptsIn, if_pos updates, unknown]
    rfl
  have plain : touched (some (updateOf r c cc).value) (updateOf r c cc).own
      = (updateOf r c cc).own.setValue (updateOf r c cc).value := by
    have notElection : (updateOf r c cc).own.strategy.acceptFunction ≠ .election := by
      change (⟨(c.stampedCommand cc).level⟩ : AcceptStrategy).acceptFunction ≠ .election
      rw [levels]
      decide
    exact if_neg notElection
  have only : ∀ b ∈ [(updateOf r c cc).co], OnRecord x (trace ++ [(c, .command r cc)]) b := by
    simpa using co
  unfold updated
  dsimp only
  rw [acceptProposals_eq, plain]
  cases won : contest (prefers (updateOf r c cc).own.strategy.acceptFunction)
      (updateOf r c cc).own [(updateOf r c cc).co] with
  | none => exact .adopt takes co rfl only rfl rfl
  | some w =>
    obtain rfl := List.mem_singleton.mp (contest_mem won)
    refine .adopt takes co rfl only rfl ?_
    change (if (updateOf r c cc).co.validityTime ≠ longMax then (updateOf r c cc).co.validityTime
      else (updateOf r c cc).own.validityTime) = (updateOf r c cc).co.validityTime
    split <;> rfl

/-- What a handled command keeps of the tracking. -/
theorem updated_tracked {r : Readings} {cc : CaceCommand} {cv : ConsensusVariable}
    (updates : Updates x c cc) (level : (⟨cc.level⟩ : AcceptStrategy).acceptFunction = .default)
    (known : c.getVariable x = some cv) (replaces : Replaces x (c, .command r cc))
    (before : Tracked x trace cv) :
    Tracked x (trace ++ [(c, .command r cc)]) (updated (updateOf r c cc) (some cv)) := by
  have takes : adoptsIn x (c, .command r cc) = adopts (updateOf r c cc) (some cv) := by
    simp only [adoptsIn, if_pos updates, known]
  unfold updated
  dsimp only
  unfold adopts at takes
  dsimp only at takes
  split
  next recorded success =>
    have onRecord := @recorded_onRecord x trace c r cc cv recorded updates level before.recorded success
    have own := recordProposal_own success
    rw [success] at takes
    dsimp only at takes
    have strategy : recorded.strategy = cv.strategy := by rw [own]
    have untouched : touched none recorded.toBelieve = recorded.toBelieve := by
      refine if_neg ?_
      rw [strategy, before.level]
      decide
    rw [acceptProposals_eq, untouched, ite_self]
    cases won : contest (prefers recorded.strategy.acceptFunction) recorded.toBelieve
        recorded.proposals with
    | none =>
      rw [won] at takes
      refine before.keep takes strategy onRecord ?_ ?_
      · exact congrArg Believe.val own
      · exact congrArg Believe.validityTime own
    | some w =>
      rw [won] at takes
      refine .adopt takes (onRecord w (contest_mem won)) rfl onRecord rfl ?_
      change (if w.validityTime ≠ longMax then w.validityTime else recorded.validityTime) = _
      split
      next => rfl
      next forever =>
        have forever := not_not.mp forever
        rw [own, replaces cv w known takes forever, forever]
  next unchanged =>
    rw [unchanged] at takes
    exact before.keep takes rfl (fun b member => (before.recorded b member).mono _) rfl rfl

/-- What one event keeps. -/
theorem tracked_step (next : Next c e c') (level : DefaultLevel x (c, e))
    (replaces : Replaces x (c, e)) (before : ∀ cv, c.getVariable x = some cv → Tracked x trace cv) :
    ∀ cv, c'.getVariable x = some cv → Tracked x (trace ++ [(c, e)]) cv := by
  intro cv' known'
  cases e with
  | invalidate t =>
    obtain rfl : c' = c.invalidate t := next
    rw [getVariable_invalidate, Option.map_eq_some_iff] at known'
    obtain ⟨cv, known, rfl⟩ := known'
    have tracked := before cv known
    have recorded : ∀ b ∈ cv.proposals, OnRecord x (trace ++ [(c, .invalidate t)]) b :=
      fun b member => (tracked.recorded b member).mono _
    split
    · exact tracked.keep rfl rfl recorded rfl rfl
    · exact tracked.keep rfl rfl recorded rfl rfl
  | command r cc =>
    obtain rfl : c' = c.handle r (.command cc) := next
    rw [handleCommand_getVariable] at known'
    by_cases updates : Updates x c cc
    · rw [if_pos updates] at known'
      obtain rfl := Option.some.inj known'
      have levels := level r cc rfl updates.2.2.2
      cases known : c.getVariable x with
      | none => exact created_tracked updates levels known
      | some cv => exact updated_tracked updates levels known replaces (before cv known)
    · rw [if_neg updates] at known'
      have tracked := before cv' known'
      have silent : adoptsIn x (c, .command r cc) = none := if_neg updates
      exact tracked.keep silent rfl (fun b member => (tracked.recorded b member).mono _) rfl rfl

/-- What a run keeps. -/
theorem tracked_run {start : Cace} (unknown : start.getVariable x = none)
    (run : Run Next start trace c) (levels : ∀ p ∈ trace, DefaultLevel x p)
    (replaces : ∀ p ∈ trace, Replaces x p) :
    ∀ cv, c.getVariable x = some cv → Tracked x trace cv := by
  refine run.carries (fun trace c => ∀ cv, c.getVariable x = some cv → Tracked x trace cv)
    (fun trace c e c' _ (may : DefaultLevel x (c, e) ∧ Replaces x (c, e)) next before => ?_)
    (fun p member => ⟨levels p member, replaces p member⟩) ?_
  · exact tracked_step next may.1 may.2 before
  · intro cv known
    rw [unknown] at known
    cases known

/-- In every run in which a proposal that is valid forever is adopted only in place of one that
is, a value expires only with the command it was adopted from. -/
theorem expires_with_command {start : Cace} (unknown : start.getVariable x = none)
    (run : Run Next start trace c) (levels : ∀ p ∈ trace, DefaultLevel x p)
    (replaces : ∀ p ∈ trace, Replaces x p) : ExpiresWithCommand x trace := by
  intro before d t cv first known valued cleared
  have earlier : ∀ p ∈ before, p ∈ trace := fun p member =>
    first.subset (List.mem_append_left _ member)
  have tracked := tracked_run unknown (run.upTo first) (fun p member => levels p (earlier p member))
    (fun p member => replaces p (earlier p member)) cv known
  obtain ⟨w, last, ⟨-, cc, carried⟩, value, validity⟩ := tracked.origin
  obtain ⟨-, -, -, -, -, sameValue, sameTime, -⟩ := id carried
  refine ⟨w, cc, last, carried, value.trans sameValue, ?_⟩
  have expired : cv.validityTime < t := by
    by_contra valid
    rw [getVariable_invalidate, known, Option.map_some, if_neg valid] at cleared
    have kept := congrArg (fun cv => cv.hasValue) (Option.some.inj cleared)
    rw [valued] at kept
    cases kept
  omega

end Invariant

section Runs

/-- Agent 2 sets `x` at time 1 for a while, and later to another value. -/
def shortLived (validityTime : Nat) : CaceCommand :=
  ⟨2, [0], ['x'], [1], 0, validityTime, AcceptStrategy.twoWayHandShake.code, 1, 1, 20⟩

def successor (validityTime : Nat) : CaceCommand :=
  { shortLived validityTime with value := [2], lamportTime := 2 }

/-- Both commands are handled, and the time is checked. -/
def commandedTrace (validityTime validityTime' t : Nat) : Trace :=
  let start := Cace.construct 1 false 5
  let first := start.handle .zero (.command (shortLived validityTime))
  let second := first.handle .zero (.command (successor validityTime'))
  [(start, .command .zero (shortLived validityTime)),
    (first, .command .zero (successor validityTime')), (second, .invalidate t)]

theorem commandedTrace_run (validityTime validityTime' t : Nat) :
    Run Next (Cace.construct 1 false 5) (commandedTrace validityTime validityTime' t)
      ((((Cace.construct 1 false 5).handle .zero (.command (shortLived validityTime))).handle .zero
        (.command (successor validityTime'))).invalidate t) :=
  ((Run.nil.step rfl).step rfl).step rfl

theorem commandedTrace_level (validityTime validityTime' t : Nat) :
    ∀ p ∈ commandedTrace validityTime validityTime' t, DefaultLevel ['x'] p := by
  simp only [commandedTrace, List.forall_mem_cons, List.not_mem_nil, false_implies, implies_true,
    and_true]
  refine ⟨?_, ?_, ?_⟩
  · rintro r cc handled -
    cases handled
    rfl
  · rintro r cc handled -
    cases handled
    rfl
  · rintro r cc handled -
    cases handled

/-- Both commands are valid forever: the second one is adopted in place of the first one, and the
value expires when the time is past that. -/
theorem expires_with_command_forever :
    (adoptsIn ['x'] ((Cace.construct 1 false 5).handle .zero (.command (shortLived longMax)),
        .command .zero (successor longMax))).map Believe.validityTime = some longMax ∧
      ExpiresWithCommand ['x'] (commandedTrace longMax longMax (longMax + 1)) := by
  refine ⟨rfl, expires_with_command rfl (commandedTrace_run longMax longMax (longMax + 1))
    (commandedTrace_level longMax longMax (longMax + 1)) ?_⟩
  simp only [commandedTrace, List.forall_mem_cons, List.not_mem_nil, false_implies, implies_true,
    and_true]
  refine ⟨?_, ?_, ?_⟩
  · rintro cv w known
    cases known
  · rintro cv w known takes -
    have record : adoptsIn ['x'] (_, .command .zero (successor longMax)) = some w := takes
    cases record
    cases known
    rfl
  · rintro cv w - takes
    cases takes

/-- The second command is valid forever, and its value expires with the first one. -/
theorem expires_with_earlier_command :
    Run Next (Cace.construct 1 false 5) (commandedTrace 10 longMax 11)
        ((((Cace.construct 1 false 5).handle .zero (.command (shortLived 10))).handle .zero
          (.command (successor longMax))).invalidate 11) ∧
      (∀ p ∈ commandedTrace 10 longMax 11, DefaultLevel ['x'] p) ∧
      ¬ExpiresWithCommand ['x'] (commandedTrace 10 longMax 11) := by
  refine ⟨commandedTrace_run 10 longMax 11, commandedTrace_level 10 longMax 11, fun expires => ?_⟩
  let second := ((Cace.construct 1 false 5).handle .zero (.command (shortLived 10))).handle .zero
    (.command (successor longMax))
  let before := (commandedTrace 10 longMax 11).take 2
  have present : (second.getVariable ['x']).isSome = true := by decide
  obtain ⟨cv, known⟩ := Option.isSome_iff_exists.mp present
  have valued : (second.getVariable ['x']).map (fun cv => cv.hasValue) = some true := by decide
  have time : (second.getVariable ['x']).map (fun cv => cv.validityTime) = some 10 := by decide
  rw [known, Option.map_some, Option.some.injEq] at valued time
  have cleared : (second.invalidate 11).getVariable ['x'] = some { cv with hasValue := false } := by
    rw [getVariable_invalidate, known, Option.map_some, if_pos (by omega)]
  obtain ⟨w, cc, last, ⟨-, -, -, -, -, -, validity, -⟩, -, early⟩ :=
    expires before second 11 cv ⟨[], rfl⟩ known valued cleared
  have forever : (adopted ['x'] before).map Believe.validityTime = some longMax := by decide
  rw [last, Option.map_some, Option.some.injEq, validity] at forever
  rw [forever] at early
  exact absurd early (by decide)

end Runs

end CaceProofs.Guarantees.Expiry
