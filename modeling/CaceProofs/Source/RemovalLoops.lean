import CaceProofs.Library.IndexLoop
import CaceProofs.Source.Jobs

/-!
# The removal loops of the jobs

The loops that take the robots that have answered off `expectedRobotIDs`, step by step and with
their signed index, an `int` in the source and here an integer of any size. Jobs.lean has them as
what they compute.
-/
namespace CaceProofs.Source
open Library

/-- The inner loop over the proposals; it ends with the robot at the index. -/
def scanProposals (lamportTime : Nat) :
    List Believe → List Int → Int → Except IndexFault (List Int × Int)
  | [], expected, i => .ok (expected, i)
  | var :: proposals, expected, i =>
    match elementAt expected i with
    | .error fault => .error fault
    | .ok id =>
      if var.robotID = id ∧ lamportTime ≤ var.lamportAge then
        match eraseAt expected i with
        | .ok expected => .ok (expected, i - 1)
        | .error fault => .error fault
      else scanProposals lamportTime proposals expected i

/-- The body of the loop over the robots for one acknowledge, without a break. -/
def scanSender (senderID : Int) (expected : List Int) (i : Int) :
    Except IndexFault (List Int × Int) :=
  match elementAt expected i with
  | .error fault => .error fault
  | .ok id =>
    if id = senderID then
      match eraseAt expected i with
      | .ok expected => .ok (expected, i - 1)
      | .error fault => .error fault
    else .ok (expected, i)

/-- A loop over the robots for each acknowledge. -/
def removeSenders (fuel : Nat) : List CaceShortAck → List Int → Except IndexFault (List Int)
  | [], expected => .ok expected
  | ca :: newAcks, expected =>
    match indexLoop (scanSender ca.senderID) fuel expected 0 with
    | .ok expected => removeSenders fuel newAcks expected
    | .error fault => .error fault

def CommandJob.removeConfirmed (fuel : Nat) (proposals : List Believe) (lamportTime : Nat)
    (expected : List Int) : Except IndexFault (List Int) :=
  indexLoop (scanProposals lamportTime proposals) fuel expected 0

def BelieveNotificationJob.removeConfirmed (fuel : Nat) (proposals : List Believe)
    (lamportTime : Nat) (expected : List Int) : Except IndexFault (List Int) :=
  indexLoop (scanProposals lamportTime proposals) fuel expected 0

def CommandAcknowledgeJob.removeConfirmed (fuel : Nat) (newAcks : List CaceShortAck)
    (expected : List Int) : Except IndexFault (List Int) :=
  removeSenders fuel newAcks expected

def BelieveAcknowledgeJob.removeConfirmed (fuel : Nat) (newAcks : List CaceShortAck)
    (expected : List Int) : Except IndexFault (List Int) :=
  removeSenders fuel newAcks expected

end CaceProofs.Source
