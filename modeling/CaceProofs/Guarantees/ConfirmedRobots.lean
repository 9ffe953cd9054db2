import CaceProofs.Source.RemovalLoops

/-!
# Confirmed robots

The removal loops of the jobs that wait for proposals or for short acknowledges end, inside their
vector, with the robots that have not answered.
-/
namespace CaceProofs.Guarantees
open Source Library

section Removal

variable {limit : Nat}

/-- A proposal of the robot is at least as new as the job. -/
def acknowledgedBy (proposals : List Believe) (lamportTime : Nat) (id : Int) : Bool :=
  proposals.any fun var => var.robotID == id && decide (lamportTime ≤ var.lamportAge)

/-- Up to the confirmation, if there is one, the inner loop changes nothing. -/
theorem scanProposals_append (lamportTime : Nat) (proposals : List Believe) (kept rest : List Int)
    (id : Int) :
    scanProposals lamportTime proposals (kept ++ id :: rest) kept.length =
      if acknowledgedBy proposals lamportTime id then .ok (kept ++ rest, kept.length - 1)
      else .ok (kept ++ id :: rest, kept.length) := by
  induction proposals with
  | nil => rfl
  | cons var proposals ih =>
    unfold scanProposals acknowledgedBy
    rw [elementAt_append, eraseAt_append, List.any_cons]
    dsimp only
    by_cases here : var.robotID = id ∧ lamportTime ≤ var.lamportAge
    · have found : (var.robotID == id && decide (lamportTime ≤ var.lamportAge)) = true := by
        simpa using here
      rw [if_pos here, found, Bool.true_or, if_pos rfl]
    · have other : (var.robotID == id && decide (lamportTime ≤ var.lamportAge)) = false := by
        rw [Bool.eq_false_iff]
        simpa using here
      rw [if_neg here, other, Bool.false_or]
      exact ih

theorem scanProposals_removes (lamportTime : Nat) (proposals : List Believe) :
    Removes limit (scanProposals lamportTime proposals)
      (acknowledgedBy proposals lamportTime) where
  erases kept id rest _ found := by rw [scanProposals_append, if_pos found]
  keeps kept id rest _ none := by rw [scanProposals_append, none, if_neg Bool.false_ne_true]

theorem scanSender_removes (senderID : Int) :
    Removes limit (scanSender senderID) fun id => id == senderID where
  erases kept id rest _ same := by
    unfold scanSender
    rw [elementAt_append, eraseAt_append]
    exact if_pos (by simpa using same)
  keeps kept id rest _ other := by
    unfold scanSender
    rw [elementAt_append]
    exact if_neg (by simpa using other)

/-- Where the vector has fewer than 2^31 robots, the loops use no index that is not an `int`, nor
does the increment leave the `int`s: a fault there changes nothing. -/
theorem indexes_fit {fuel : Nat} (proposals : List Believe) (lamportTime : Nat)
    (expected : List Int) (enough : expected.length < fuel) (short : expected.length < 2 ^ 31) :
    indexLoop (below (2 ^ 31 - 1) (scanProposals lamportTime proposals)) fuel expected 0 =
        indexLoop (scanProposals lamportTime proposals) fuel expected 0 ∧
      ∀ senderID, indexLoop (below (2 ^ 31 - 1) (scanSender senderID)) fuel expected 0 =
        indexLoop (scanSender senderID) fuel expected 0 :=
  have within : expected.length ≤ 2 ^ 31 - 1 := by omega
  ⟨(scanProposals_removes lamportTime proposals).indexLoop_below expected enough within,
    fun senderID => (scanSender_removes senderID).indexLoop_below expected enough within⟩

/-- The loop over the proposals computes what `process()` goes on with. -/
theorem removeConfirmed_proposals {fuel : Nat} (proposals : List Believe) (lamportTime : Nat)
    (expected : List Int) (enough : expected.length < fuel) :
    CommandJob.removeConfirmed fuel proposals lamportTime expected =
      .ok (eraseUpdated proposals lamportTime expected) := by
  unfold CommandJob.removeConfirmed eraseUpdated
  rw [eraseIf_eq_filter]
  exact (scanProposals_removes lamportTime proposals).indexLoop_eq expected enough le_rfl

theorem removeSenders_eq {fuel : Nat} (newAcks : List CaceShortAck) (expected : List Int)
    (enough : expected.length < fuel) :
    removeSenders fuel newAcks expected = .ok (eraseAnswered newAcks expected) := by
  induction newAcks generalizing expected with
  | nil => rfl
  | cons ca newAcks ih =>
    have shorter : (expected.filter fun id => !(id == ca.senderID)).length < fuel :=
      Nat.lt_of_le_of_lt (List.length_filter_le _ _) enough
    unfold removeSenders
    rw [(scanSender_removes ca.senderID).indexLoop_eq expected enough le_rfl]
    unfold eraseAnswered
    rw [List.foldl_cons, eraseIf_eq_filter]
    exact ih _ shorter

theorem eraseUpdated_eq (proposals : List Believe) (lamportTime : Nat) (expected : List Int) :
    eraseUpdated proposals lamportTime expected =
      expected.filter fun id =>
        decide (∀ var ∈ proposals, var.robotID = id → var.lamportAge < lamportTime) := by
  unfold eraseUpdated
  rw [eraseIf_eq_filter]
  refine List.filter_congr fun id _ => ?_
  rw [Bool.eq_iff_iff]
  simp

theorem eraseAnswered_eq (newAcks : List CaceShortAck) (expected : List Int) :
    eraseAnswered newAcks expected =
      expected.filter fun id => decide (∀ ca ∈ newAcks, ca.senderID ≠ id) := by
  unfold eraseAnswered
  induction newAcks generalizing expected with
  | nil => simp
  | cons ca newAcks ih =>
    rw [List.foldl_cons, ih, eraseIf_eq_filter, List.filter_filter]
    refine List.filter_congr fun id _ => ?_
    rw [Bool.eq_iff_iff]
    simp only [Bool.and_eq_true, decide_eq_true_eq, Bool.not_eq_true', beq_eq_false_iff_ne,
      List.forall_mem_cons]
    constructor
    · exact fun both => ⟨both.2.symm, both.1⟩
    · exact fun both => ⟨both.2, both.1.symm⟩

/-- After enough passes each of the four loops has ended, without a fault, with exactly the
robots that have not confirmed: in their order, and as often as they were expected. -/
theorem confirmed_removed (proposals : List Believe) (lamportTime : Nat)
    (newAcks : List CaceShortAck) (expected : List Int) :
    ∃ passes, ∀ fuel, passes ≤ fuel →
      CommandJob.removeConfirmed fuel proposals lamportTime expected =
        .ok (expected.filter fun id =>
          decide (∀ var ∈ proposals, var.robotID = id → var.lamportAge < lamportTime)) ∧
      BelieveNotificationJob.removeConfirmed fuel proposals lamportTime expected =
        .ok (expected.filter fun id =>
          decide (∀ var ∈ proposals, var.robotID = id → var.lamportAge < lamportTime)) ∧
      CommandAcknowledgeJob.removeConfirmed fuel newAcks expected =
        .ok (expected.filter fun id => decide (∀ ca ∈ newAcks, ca.senderID ≠ id)) ∧
      BelieveAcknowledgeJob.removeConfirmed fuel newAcks expected =
        .ok (expected.filter fun id => decide (∀ ca ∈ newAcks, ca.senderID ≠ id)) := by
  refine ⟨expected.length + 1, fun fuel enough => ?_⟩
  have updates := removeConfirmed_proposals proposals lamportTime expected enough
  have answers := removeSenders_eq newAcks expected enough
  rw [eraseUpdated_eq] at updates
  rw [eraseAnswered_eq] at answers
  exact ⟨updates, updates, answers, answers⟩

end Removal

end CaceProofs.Guarantees
