import Mathlib.Logic.Function.Basic
import CaceProofs.Guarantees.Redelivery

/-!
# The store as a value

What an application can tell of the store: the variable of each name, up to arrival times.
The update of a message acts on this value alone, whatever the readings and the rest of the
agent are.
-/
namespace CaceProofs.Source

/-- Up to the arrival time. -/
def Believe.timeless (b : Believe) : Believe := { b with arrivalTime := 0 }

def ConsensusVariable.timeless (cv : ConsensusVariable) : ConsensusVariable :=
  ⟨cv.toBelieve.timeless, cv.proposals.map Believe.timeless⟩

end CaceProofs.Source

namespace CaceProofs.Guarantees
open Source Library

section Timeless

theorem accept_timeless (this gt lt : Believe) (value : Option Bytes) :
    this.timeless.accept gt.timeless lt.timeless value =
      ((this.accept gt lt value).1.timeless, (this.accept gt lt value).2) := by
  have same : this.timeless.strategy.acceptFunction = this.strategy.acceptFunction := rfl
  unfold Believe.accept
  rw [same]
  cases this.strategy.acceptFunction with
  | default | lowestID | mostRecent | list => cases value <;> rfl
  | election =>
    dsimp only
    unfold Believe.electionAcceptStrategy
    change (if this.hasValue = true then _ else _) = _
    split <;> rfl

theorem acceptStep_timeless (value : Option Bytes) (state : Believe × Option Believe)
    (cv : Believe) :
    Believe.acceptStep value (state.1.timeless, state.2.map Believe.timeless) cv.timeless =
      ((Believe.acceptStep value state cv).1.timeless,
        (Believe.acceptStep value state cv).2.map Believe.timeless) := by
  obtain ⟨this, winner⟩ := state
  have judged := accept_timeless this (winner.getD this) cv value
  have best : (winner.map Believe.timeless).getD this.timeless = (winner.getD this).timeless := by
    cases winner <;> rfl
  unfold Believe.acceptStep
  dsimp only
  rw [best, judged]
  dsimp only
  split <;> rfl

theorem acceptProposals_timeless (cv : ConsensusVariable) (value : Option Bytes) :
    cv.timeless.acceptProposals value = (cv.acceptProposals value).timeless := by
  have loop : ∀ (proposals : List Believe) (state : Believe × Option Believe),
      (proposals.map Believe.timeless).foldl (Believe.acceptStep value)
        (state.1.timeless, state.2.map Believe.timeless) =
      ((proposals.foldl (Believe.acceptStep value) state).1.timeless,
        (proposals.foldl (Believe.acceptStep value) state).2.map Believe.timeless) := by
    intro proposals
    induction proposals with
    | nil => exact fun _ => rfl
    | cons b proposals ih =>
      intro state
      rw [List.map_cons, List.foldl_cons, List.foldl_cons, acceptStep_timeless, ih]
  have all : cv.timeless.proposals.foldl (Believe.acceptStep value) (cv.timeless.toBelieve, none) =
      ((cv.proposals.foldl (Believe.acceptStep value) (cv.toBelieve, none)).1.timeless,
        (cv.proposals.foldl (Believe.acceptStep value) (cv.toBelieve, none)).2.map
          Believe.timeless) := loop cv.proposals (cv.toBelieve, none)
  unfold ConsensusVariable.acceptProposals
  dsimp only
  rw [all]
  cases (cv.proposals.foldl (Believe.acceptStep value) (cv.toBelieve, none)).2 <;> rfl

/-- Two updates that differ in arrival times at most. -/
structure Alike (u u' : ProposalUpdate) : Prop where
  report : u.toReport = u'.toReport
  overwrite : ∀ var, (u.overwrite var).timeless = (u'.overwrite var.timeless).timeless
  fresh : ∀ var, (u.fresh var).timeless = (u'.fresh var.timeless).timeless
  own : u.own.timeless = u'.own.timeless
  co : u.co.timeless = u'.co.timeless

theorem recordProposal_timeless {u u' : ProposalUpdate} (alike : Alike u u')
    (cv : ConsensusVariable) :
    (cv.recordProposal u.senderID u.lamportTime u.overwrite (u.fresh cv.toBelieve)).map
        ConsensusVariable.timeless =
      (cv.timeless.recordProposal u'.senderID u'.lamportTime u'.overwrite
        (u'.fresh cv.timeless.toBelieve)).map ConsensusVariable.timeless := by
  have tests (p : Believe → Bool) (ageless : ∀ b, p b.timeless = p b) :
      cv.timeless.proposals.any p = cv.proposals.any p := by
    change (cv.proposals.map Believe.timeless).any p = _
    rw [List.any_map]
    exact congrArg cv.proposals.any (funext ageless)
  unfold ConsensusVariable.recordProposal
  rw [← alike.report, tests _ fun _ => rfl, tests _ fun _ => rfl]
  split
  · split
    · have each (b : Believe) :
          Believe.timeless (if b.robotID = u.senderID ∧ b.lamportAge < u.lamportTime then
            u.overwrite b else b) =
          Believe.timeless (if b.timeless.robotID = u.senderID ∧
            b.timeless.lamportAge < u.lamportTime then u'.overwrite b.timeless
            else b.timeless) := by
        change _ = Believe.timeless (if b.robotID = u.senderID ∧ b.lamportAge < u.lamportTime
          then _ else _)
        split
        · exact alike.overwrite b
        · rfl
      simp only [Option.map_some, ConsensusVariable.timeless, List.map_map]
      exact congrArg (fun proposals => some (ConsensusVariable.mk cv.toBelieve.timeless proposals))
        (List.map_congr_left fun b _ => each b)
    · rfl
  · have fresh := alike.fresh cv.toBelieve
    simp only [Option.map_some, ConsensusVariable.timeless, List.map_append, List.map_map,
      List.map_cons, List.map_nil]
    rw [fresh]
    rfl

/-- What an update leaves does not depend on arrival times. -/
theorem updated_timeless {u u' : ProposalUpdate} (alike : Alike u u')
    (old : Option ConsensusVariable) :
    (updated u old).timeless = (updated u' (old.map ConsensusVariable.timeless)).timeless := by
  cases old with
  | none =>
    unfold updated
    simp only [Option.map_none]
    rw [← acceptProposals_timeless, ← acceptProposals_timeless, alike.report]
    simp only [ConsensusVariable.timeless, List.map_cons, List.map_nil, alike.own, alike.co]
  | some cv =>
    have records := recordProposal_timeless alike cv
    unfold updated
    simp only [Option.map_some]
    cases recorded : cv.recordProposal u.senderID u.lamportTime u.overwrite
        (u.fresh cv.toBelieve) with
    | none =>
      rw [recorded, Option.map_none, eq_comm, Option.map_eq_none_iff] at records
      simp only [records]
      simp [ConsensusVariable.timeless, Believe.timeless]
    | some cv1 =>
      rw [recorded, Option.map_some, eq_comm, Option.map_eq_some_iff] at records
      obtain ⟨cv2, recorded2, same⟩ := records
      simp only [recorded2]
      rw [← acceptProposals_timeless, ← same, acceptProposals_timeless]

end Timeless

section View

/-- The variables of an agent by name. -/
def view (c : Cace) (x : Name) : Option ConsensusVariable :=
  (c.getVariable x).map ConsensusVariable.timeless

/-- A store as a value. -/
abbrev StoreView := Name → Option ConsensusVariable

/-- What a report does to the store. -/
def StoreView.record (v : StoreView) (u : ProposalUpdate) : StoreView :=
  Function.update v u.variableName (some (updated u (v u.variableName)).timeless)

/-- The own believe that a write leaves. -/
def writtenBelieve (ownID : Int) (cmd : CaceCommand) (name : Name) : Believe :=
  { (Believe.construct name ⟨cmd.level⟩ cmd.validityTime ownID cmd.decissionTime cmd.lamportTime
      cmd.type).setValue cmd.value with arrivalTime := 0 }

/-- What a message does to the store of an agent. -/
def StoreView.absorb (ownID : Int) (v : StoreView) : Message → StoreView
  | .command m => v.record (commandUpdate .zero ownID m)
  | .believeNotification m => v.record (notificationUpdate .zero ownID m)
  | .acknowledge m => v.record (acknowledgeUpdate .zero ownID m)
  | .write cmd =>
    Function.update v cmd.variableName (some
      ⟨writtenBelieve ownID cmd (((v cmd.variableName).map fun cv => cv.name).getD
        cmd.variableName), ((v cmd.variableName).map ConsensusVariable.proposals).getD []⟩)
  | .shortAck _ | .time _ | .variableRequest _ | .writeAck _ | .response _ => v

/-- The expiry at the end of a step. -/
def StoreView.expire (t : Nat) (v : StoreView) : StoreView := fun x =>
  (v x).map fun cv => if cv.validityTime < t then { cv with hasValue := false } else cv

theorem view_updateVariable {u u' : ProposalUpdate} (alike : Alike u u') (c : Cace) :
    view (c.updateVariable u) = StoreView.record (view c) u' := by
  funext x
  unfold view StoreView.record
  rw [getVariable_updateVariable, Function.update_apply, ← alike.report]
  by_cases here : x = u.variableName
  · rw [if_pos here, if_pos here, Option.map_some, updated_timeless alike]
  · rw [if_neg here, if_neg here]

theorem view_write (r : Readings) (c : Cace) (cmd : CaceCommand) :
    view (WriteAckJob.doVariableUpdate r c cmd) =
      StoreView.absorb c.ownID (view c) (.write cmd) := by
  funext x
  unfold view StoreView.absorb
  dsimp only
  rw [getVariable_write, Function.update_apply]
  by_cases here : x = cmd.variableName
  · rw [if_pos here, if_pos here]
    cases c.getVariable cmd.variableName <;> rfl
  · rw [if_neg here, if_neg here]

/-- The update of a message acts on the value of the store. -/
theorem view_applyMessage (r : Readings) (c : Cace) (m : Message) :
    view (applyMessage r c m) = StoreView.absorb c.ownID (view c) m := by
  cases m with
  | command m =>
    exact @view_updateVariable (commandUpdate r c.ownID m) (commandUpdate .zero c.ownID m)
      ⟨rfl, fun _ => rfl, fun _ => rfl, rfl, rfl⟩ c
  | believeNotification m =>
    exact @view_updateVariable (notificationUpdate r c.ownID m) (notificationUpdate .zero c.ownID m)
      ⟨rfl, fun _ => rfl, fun _ => rfl, rfl, rfl⟩ c
  | acknowledge m =>
    exact @view_updateVariable (acknowledgeUpdate r c.ownID m) (acknowledgeUpdate .zero c.ownID m)
      ⟨rfl, fun _ => rfl, fun _ => rfl, rfl, rfl⟩ c
  | write cmd => exact view_write r c cmd
  | shortAck | time | variableRequest | writeAck | response => rfl

theorem view_invalidate (c : Cace) (t : Nat) :
    view (c.invalidate t) = StoreView.expire t (view c) := by
  funext x
  simp only [view, StoreView.expire, getVariable_invalidate, Option.map_map]
  refine congrArg (fun f => Option.map f (c.getVariable x)) (funext fun cv => ?_)
  change ConsensusVariable.timeless (if cv.validityTime < t then _ else _) =
    if cv.validityTime < t then _ else _
  split <;> rfl

end View

end CaceProofs.Guarantees
