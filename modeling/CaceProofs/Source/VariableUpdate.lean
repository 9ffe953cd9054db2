import CaceProofs.Source.State

/-!
# The variable updates of the jobs

`doVariableUpdate` of CommandAcknowledgeJob, BelieveAcknowledgeJob, ShortAckJob and
WriteAckJob. The first three are one function of what they write: the same loop over
the recorded proposals, then `acceptProposals`.
-/
namespace CaceProofs.Source

/-- What an answering job writes for a report: `overwrite` into an older proposal of the
sender, `fresh` (from the own believe) as a new proposal, `own` and `co` where the variable
is unknown. The last fields are what the three jobs have in common. -/
structure ProposalUpdate extends Report where
  ownID : Int
  message : Message
  overwrite : Believe → Believe
  fresh : Believe → Believe
  own : Believe
  co : Believe
  message_report : message.report? = some toReport
  overwrite_records : ∀ var, (overwrite var).robotID = var.robotID ∧
    (overwrite var).val = value ∧ (overwrite var).type = type ∧
    (overwrite var).lamportAge = lamportTime
  fresh_records : ∀ var, (fresh var).robotID = senderID ∧
    (fresh var).val = value ∧ (fresh var).type = type ∧ (fresh var).lamportAge = lamportTime
  co_records : co.robotID = senderID ∧ co.val = value ∧ co.type = type ∧
    co.lamportAge = lamportTime
  named : (∀ var, (overwrite var).name = var.name) ∧ (∀ var, (fresh var).name = variableName) ∧
    own.name = variableName ∧ co.name = variableName
  own_fresh : own.robotID = ownID ∧ own.lamportAge ≤ lamportTime
  own_unset : own.hasValue = false ∧ own.type = type
  times : (∀ var, (overwrite var).decissionTime = message.decissionTime?.getD longMax) ∧
    (∀ var, (fresh var).decissionTime = message.decissionTime?.getD var.decissionTime) ∧
    own.decissionTime = message.decissionTime?.getD (longMax - 1) ∧
    co.decissionTime = message.decissionTime?.getD longMax
  valued : (∀ var, (overwrite var).hasValue = !value.isEmpty) ∧
    ∀ var, (fresh var).hasValue = !value.isEmpty
  strategies : (∀ var, (overwrite var).strategy = message.strategy?.getD var.strategy) ∧
    (∀ var, (fresh var).strategy = message.strategy?.getD var.strategy) ∧
    own.strategy = message.strategy?.getD .threeWayHandShake ∧
    co.strategy = message.strategy?.getD .threeWayHandShake

namespace Cace

/-- The common body of the three updates; the variable it returns is the stored one. -/
def updateVariable (c : Cace) (u : ProposalUpdate) : Cace :=
  let c := c.observe (.applied u.message)
  match c.getVariable u.variableName with
  | some cv =>
    match cv.recordProposal u.senderID u.lamportTime u.overwrite (u.fresh cv.toBelieve) with
    | some recorded =>
      (c.setVariable u.variableName (recorded.acceptProposals none)).notify u.variableName
    | none => c
  | none =>
    let cv : ConsensusVariable := { u.own with proposals := [u.co] }
    (c.notify u.variableName).insertVariable (cv.acceptProposals (some u.value))

end Cace

/-- What `CommandAcknowledgeJob` writes. -/
def commandUpdate (r : Readings) (ownID : Int) (command : CaceCommand) : ProposalUpdate where
  ownID := ownID
  message := .command command
  variableName := command.variableName
  senderID := command.senderID
  value := command.value
  type := command.type
  lamportTime := command.lamportTime
  overwrite var :=
    { var.setValue command.value with
      arrivalTime := r.localTime
      decissionTime := command.decissionTime
      validityTime := command.validityTime
      lamportAge := command.lamportTime
      strategy := ⟨command.level⟩
      type := command.type }
  fresh _ :=
    { (Believe.construct command.variableName ⟨command.level⟩ command.validityTime
        command.senderID command.decissionTime command.lamportTime command.type).setValue
          command.value with
      arrivalTime := r.localTime
      robotID := command.senderID }
  own := Believe.construct command.variableName ⟨command.level⟩ command.validityTime
    ownID command.decissionTime command.lamportTime command.type
  co :=
    { (Believe.construct command.variableName ⟨command.level⟩ command.validityTime
        command.senderID command.decissionTime command.lamportTime command.type).setValue
          command.value with
      arrivalTime := r.localTime }
  message_report := rfl
  overwrite_records _ := ⟨rfl, rfl, rfl, rfl⟩
  fresh_records _ := ⟨rfl, rfl, rfl, rfl⟩
  co_records := ⟨rfl, rfl, rfl, rfl⟩
  named := ⟨fun _ => rfl, fun _ => rfl, rfl, rfl⟩
  own_fresh := ⟨rfl, Nat.le_refl _⟩
  own_unset := ⟨rfl, rfl⟩
  times := ⟨fun _ => rfl, fun _ => rfl, rfl, rfl⟩
  valued := ⟨fun _ => rfl, fun _ => rfl⟩
  strategies := ⟨fun _ => rfl, fun _ => rfl, rfl, rfl⟩

/-- What `BelieveAcknowledgeJob` writes. -/
def notificationUpdate (r : Readings) (ownID : Int) (notification : CaceBelieveNotification) :
    ProposalUpdate where
  ownID := ownID
  message := .believeNotification notification
  variableName := notification.variableName
  senderID := notification.senderID
  value := notification.value
  type := notification.type
  lamportTime := notification.lamportTime
  overwrite var :=
    { var.setValue notification.value with
      arrivalTime := r.localTime
      decissionTime := notification.decissionTime
      validityTime := notification.validityTime
      lamportAge := notification.lamportTime
      strategy := ⟨notification.level⟩
      type := notification.type }
  fresh _ :=
    { (Believe.construct notification.variableName ⟨notification.level⟩
        notification.validityTime notification.senderID notification.decissionTime
        notification.lamportTime notification.type).setValue notification.value with
      arrivalTime := r.localTime
      robotID := notification.senderID }
  own := Believe.construct notification.variableName ⟨notification.level⟩
    notification.validityTime ownID notification.decissionTime notification.lamportTime
    notification.type
  co :=
    { (Believe.construct notification.variableName ⟨notification.level⟩
        notification.validityTime notification.senderID notification.decissionTime
        notification.lamportTime notification.type).setValue notification.value with
      arrivalTime := r.localTime }
  message_report := rfl
  overwrite_records _ := ⟨rfl, rfl, rfl, rfl⟩
  fresh_records _ := ⟨rfl, rfl, rfl, rfl⟩
  co_records := ⟨rfl, rfl, rfl, rfl⟩
  named := ⟨fun _ => rfl, fun _ => rfl, rfl, rfl⟩
  own_fresh := ⟨rfl, Nat.le_refl _⟩
  own_unset := ⟨rfl, rfl⟩
  times := ⟨fun _ => rfl, fun _ => rfl, rfl, rfl⟩
  valued := ⟨fun _ => rfl, fun _ => rfl⟩
  strategies := ⟨fun _ => rfl, fun _ => rfl, rfl, rfl⟩

/-- What `ShortAckJob` writes: an acknowledge has no level and no times. -/
def acknowledgeUpdate (r : Readings) (ownID : Int) (ack : CaceAcknowledge) : ProposalUpdate where
  ownID := ownID
  message := .acknowledge ack
  variableName := ack.variableName
  senderID := ack.senderID
  value := ack.value
  type := ack.type
  lamportTime := ack.lamportTime
  overwrite var :=
    { var.setValue ack.value with
      arrivalTime := r.localTime
      decissionTime := longMax
      validityTime := longMax
      lamportAge := ack.lamportTime
      type := ack.type }
  fresh cv :=
    { (Believe.construct ack.variableName cv.strategy cv.validityTime ack.senderID
        cv.decissionTime ack.lamportTime ack.type).setValue ack.value with
      arrivalTime := r.localTime
      robotID := ack.senderID }
  own := Believe.construct ack.variableName .threeWayHandShake (longMax - 1) ownID
    (longMax - 1) 0 ack.type
  co :=
    { (Believe.construct ack.variableName .threeWayHandShake longMax ack.senderID longMax
        ack.lamportTime ack.type).setValue ack.value with
      arrivalTime := r.localTime }
  message_report := rfl
  overwrite_records _ := ⟨rfl, rfl, rfl, rfl⟩
  fresh_records _ := ⟨rfl, rfl, rfl, rfl⟩
  co_records := ⟨rfl, rfl, rfl, rfl⟩
  named := ⟨fun _ => rfl, fun _ => rfl, rfl, rfl⟩
  own_fresh := ⟨rfl, Nat.zero_le _⟩
  own_unset := ⟨rfl, rfl⟩
  times := ⟨fun _ => rfl, fun _ => rfl, rfl, rfl⟩
  valued := ⟨fun _ => rfl, fun _ => rfl⟩
  strategies := ⟨fun _ => rfl, fun _ => rfl, rfl, rfl⟩

namespace CommandAcknowledgeJob

def doVariableUpdate (r : Readings) (c : Cace) (command : CaceCommand) : Cace :=
  c.updateVariable (commandUpdate r c.ownID command)

end CommandAcknowledgeJob

namespace BelieveAcknowledgeJob

def doVariableUpdate (r : Readings) (c : Cace) (notification : CaceBelieveNotification) : Cace :=
  c.updateVariable (notificationUpdate r c.ownID notification)

end BelieveAcknowledgeJob

namespace ShortAckJob

def doVariableUpdate (r : Readings) (c : Cace) (ack : CaceAcknowledge) : Cace :=
  c.updateVariable (acknowledgeUpdate r c.ownID ack)

end ShortAckJob

namespace WriteAckJob

/-- A write replaces the own believe itself; the proposals stay. -/
def doVariableUpdate (r : Readings) (c : Cace) (cmd : CaceCommand) : Cace :=
  let c := c.observe (.applied (.write cmd))
  match c.getVariable cmd.variableName with
  | some cv =>
    (c.setVariable cmd.variableName
      { cv.setValue cmd.value with
        arrivalTime := r.localTime
        decissionTime := cmd.decissionTime
        validityTime := cmd.validityTime
        lamportAge := cmd.lamportTime
        type := cmd.type
        strategy := ⟨cmd.level⟩
        robotID := c.ownID }).notify cmd.variableName
  | none =>
    c.insertVariable
      { (Believe.construct cmd.variableName ⟨cmd.level⟩ cmd.validityTime c.ownID
          cmd.decissionTime cmd.lamportTime cmd.type).setValue cmd.value with
        arrivalTime := r.localTime
        proposals := [] }

end WriteAckJob

end CaceProofs.Source
