import CaceProofs.Source.AckQueue
import CaceProofs.Source.Jobs

/-!
# Acknowledges taken and counted

Taking the acknowledges of a message splits their queue, unless the first one in it is
taken. The removal loop of `WriteJob::process` keeps exactly the robots without an
acknowledge, unless its index runs off the front.
-/
namespace CaceProofs.Guarantees
open Library Source

section Taking

/-- With passes to spare, taking ends like `Cace`'s own version, or in front of `begin()`. -/
theorem getWriteAcknowledgesAndRemove_eq (c : Cace) (msgID : Int) {fuel : Nat}
    (enough : c.writeAcknowledges.length < fuel) :
    CaceCommunication.getWriteAcknowledgesAndRemove c msgID fuel
      = if c.writeAcknowledges.head?.any fun sa => sa.msgID == msgID then .error .beforeBegin
        else .ok (c.getWriteAcknowledgesAndRemove msgID) := by
  unfold CaceCommunication.getWriteAcknowledgesAndRemove
  rw [takeIf_eq _ _ enough]
  split
  · rfl
  · rfl

theorem getCaceShortAcksAndRemove_eq (c : Cace) (msgID : Int) {fuel : Nat}
    (enough : c.shortAcks.length < fuel) :
    CaceCommunication.getCaceShortAcksAndRemove c msgID fuel
      = if c.shortAcks.head?.any fun sa => sa.msgID == msgID then .error .beforeBegin
        else .ok (c.getCaceShortAcksAndRemove msgID) := by
  unfold CaceCommunication.getCaceShortAcksAndRemove
  rw [takeIf_eq _ _ enough]
  split
  · rfl
  · rfl

/-- A run that its fuel does not decide ends well exactly where the first message stays. -/
private theorem ends_iff {α : Type} {run : Nat → Except IteratorFault α} {result : α}
    {queue : List CaceShortAck} {msgID : Int}
    (ends : ∀ fuel, queue.length < fuel →
      run fuel = if queue.head?.any fun sa => sa.msgID == msgID then .error .beforeBegin
        else .ok result) :
    (∃ passes, ∀ fuel, passes ≤ fuel → run fuel = .ok result)
      ↔ ∀ ack ∈ queue.head?, ack.msgID ≠ msgID := by
  have stays : (∀ ack ∈ queue.head?, ack.msgID ≠ msgID)
      ↔ ¬(queue.head?.any fun sa => sa.msgID == msgID) = true := by
    cases queue.head? <;> simp
  rw [stays]
  constructor
  · rintro ⟨passes, finished⟩ taken
    have faulty := ends (passes + queue.length + 1) (by omega)
    rw [finished _ (by omega), if_pos taken] at faulty
    cases faulty
  · intro kept
    refine ⟨queue.length + 1, fun fuel enough => ?_⟩
    rw [ends fuel enough, if_neg kept]

/-- Both functions end, inside the list, with the queue split by the message ID, exactly
where the first message in the queue is not one to take. -/
theorem acks_partitioned_iff (c : Cace) (msgID : Int) :
    ((∃ passes, ∀ fuel, passes ≤ fuel →
        CaceCommunication.getCaceShortAcksAndRemove c msgID fuel
          = .ok (c.shortAcks.filter fun sa => sa.msgID == msgID,
              { c with shortAcks := c.shortAcks.filter fun sa => sa.msgID != msgID }))
      ↔ ∀ ack ∈ c.shortAcks.head?, ack.msgID ≠ msgID) ∧
    ((∃ passes, ∀ fuel, passes ≤ fuel →
        CaceCommunication.getWriteAcknowledgesAndRemove c msgID fuel
          = .ok (c.writeAcknowledges.filter fun sa => sa.msgID == msgID,
              { c with
                writeAcknowledges := c.writeAcknowledges.filter fun sa => sa.msgID != msgID }))
      ↔ ∀ ack ∈ c.writeAcknowledges.head?, ack.msgID ≠ msgID) :=
  ⟨ends_iff fun _ enough => getCaceShortAcksAndRemove_eq c msgID enough,
    ends_iff fun _ enough => getWriteAcknowledgesAndRemove_eq c msgID enough⟩

/-- One short acknowledge in the queue, and it is the one asked for. -/
theorem acks_partition_fails :
    let c : Cace := { Cace.construct 1 false 5 with shortAcks := [⟨2, [1], ['x'], 7, 3⟩] }
    ¬∃ passes, ∀ fuel, passes ≤ fuel →
      CaceCommunication.getCaceShortAcksAndRemove c 7 fuel
        = .ok (c.shortAcks.filter fun sa => sa.msgID == 7,
            { c with shortAcks := c.shortAcks.filter fun sa => sa.msgID != 7 }) := by
  intro c
  rintro ⟨passes, finished⟩
  have steppedBack := finished (passes + 1) (by omega)
  cases steppedBack

end Taking

section Acknowledged

open WriteJob

/-- The loop of a write job walks off the front of its list: the first robot is erased while
further acknowledges are to be looked at. -/
def overruns (senders : List Int) : List Int → Bool
  | [] => false
  | id :: rest =>
    if id ∈ senders.dropLast then true
    else if senders.getLast? = some id then overruns senders rest
    else false

/-- Acknowledges from nobody on the list erase nothing. -/
theorem scanAcks_other {acks : List CaceShortAck} {expected : List Int} {i : Nat} {id : Int}
    (here : expected[i]? = some id) (other : ∀ ack ∈ acks, ack.senderID ≠ id) :
    scanAcks acks expected i = .ok (expected, i) := by
  induction acks with
  | nil => rfl
  | cons ack acks ih =>
    have next := ih fun a member => other a (List.mem_cons_of_mem _ member)
    unfold scanAcks
    simp only [Int.natCast_nonneg, if_true, Int.toNat_natCast, here,
      if_neg (other ack List.mem_cons_self)]
    exact next

/-- The first acknowledge of a robot behind the front erases it, and the others nothing more. -/
theorem scanAcks_behind {acks : List CaceShortAck} {kept rest : List Int} {id : Int}
    (nonempty : kept ≠ []) (silent : ∀ ack ∈ acks, ack.senderID ∉ kept)
    (answered : ∃ ack ∈ acks, ack.senderID = id) :
    scanAcks acks (kept ++ id :: rest) kept.length = .ok (kept ++ rest, kept.length - 1) := by
  have here : (kept ++ id :: rest)[kept.length]? = some id := by simp
  induction acks with
  | nil => simp at answered
  | cons ack acks ih =>
    have later : ∀ a ∈ acks, a.senderID ∉ kept := fun a member =>
      silent a (List.mem_cons_of_mem _ member)
    unfold scanAcks
    simp only [Int.natCast_nonneg, if_true, Int.toNat_natCast, here]
    by_cases sender : ack.senderID = id
    · have shrunk : (kept ++ id :: rest).eraseIdx kept.length = kept ++ rest := by
        simp [List.eraseIdx_append_of_length_le]
      rw [if_pos sender, shrunk]
      have positive := List.length_pos_of_ne_nil nonempty
      have index : ((kept.length : Int) - 1) = ((kept.length - 1 : Nat) : Int) := by omega
      rw [index]
      have before : (kept ++ rest)[kept.length - 1]? = some (kept.getLast nonempty) := by
        rw [List.getElem?_append_left (by omega), List.getLast_eq_getElem,
          List.getElem?_eq_getElem (by omega)]
      refine scanAcks_other before fun a member same => later a member ?_
      rw [same]
      exact List.getLast_mem nonempty
    · rw [if_neg sender]
      refine ih later ?_
      obtain ⟨a, member, same⟩ := answered
      rcases List.mem_cons.mp member with rfl | rest
      · exact absurd same sender
      · exact ⟨a, rest, same⟩

/-- Behind a robot that stays, the loop erases whoever has acknowledged. -/
theorem eraseAcknowledged_behind {acks : List CaceShortAck} (rest kept : List Int) {fuel : Nat}
    (enough : rest.length ≤ fuel) (nonempty : kept ≠ [])
    (silent : ∀ ack ∈ acks, ack.senderID ∉ kept) :
    eraseAcknowledged acks fuel (kept ++ rest) kept.length =
      .ok (kept ++ rest.filter fun id => acks.all fun ack => ack.senderID != id) := by
  induction rest generalizing kept fuel with
  | nil =>
    cases fuel with
    | zero => simp [eraseAcknowledged]
    | succ fuel => simp [eraseAcknowledged]
  | cons id rest ih =>
    obtain ⟨fuel, rfl⟩ := Nat.exists_eq_succ_of_ne_zero
      (Nat.pos_iff_ne_zero.mp (Nat.lt_of_lt_of_le (Nat.zero_lt_succ _) enough))
    have shorter : rest.length ≤ fuel := Nat.le_of_succ_le_succ enough
    have inside : (kept.length : Int) < ((kept ++ id :: rest).length : Int) := by
      simp only [List.length_append, List.length_cons]
      omega
    unfold eraseAcknowledged
    rw [if_pos inside]
    by_cases answered : ∃ ack ∈ acks, ack.senderID = id
    · rw [scanAcks_behind nonempty silent answered]
      have erased : (acks.all fun ack => ack.senderID != id) = false := by
        obtain ⟨ack, member, same⟩ := answered
        rw [List.all_eq_false]
        exact ⟨ack, member, by simp [same]⟩
      rw [List.filter_cons_of_neg (by simp [erased])]
      simp only [sub_add_cancel]
      exact ih kept shorter nonempty silent
    · have stays : ∀ ack ∈ acks, ack.senderID ≠ id := fun ack member same =>
        answered ⟨ack, member, same⟩
      have here : (kept ++ id :: rest)[kept.length]? = some id := by simp
      rw [scanAcks_other here stays]
      have kept' : (acks.all fun ack => ack.senderID != id) = true := by
        rw [List.all_eq_true]
        exact fun ack member => by simpa using stays ack member
      rw [List.filter_cons_of_pos (by simpa using kept')]
      have next := ih (kept ++ [id]) shorter (by simp) fun ack member inKept => by
        rcases List.mem_append.mp inKept with old | new
        · exact silent ack member old
        · exact stays ack member (List.mem_singleton.mp new)
      simpa using next

/-- At the front an acknowledge that is not the last one leaves the list with the index -1. -/
theorem scanAcks_front (acks : List CaceShortAck) (id : Int) (rest : List Int) :
    scanAcks acks (id :: rest) 0 =
      if id ∈ (acks.map CaceShortAck.senderID).dropLast then .error .outOfRange
      else if (acks.map CaceShortAck.senderID).getLast? = some id then .ok (rest, -1)
      else .ok (id :: rest, 0) := by
  induction acks with
  | nil => simp [scanAcks]
  | cons ack acks ih =>
    unfold scanAcks
    by_cases sender : ack.senderID = id
    · cases acks with
      | nil => simp [scanAcks, sender]
      | cons next acks => simp [scanAcks, sender]
    · have other : id ≠ ack.senderID := fun same => sender same.symm
      cases acks with
      | nil => simp [scanAcks, sender]
      | cons next acks =>
        simp only [Int.le_refl, if_true, Int.toNat_zero, List.getElem?_cons_zero, if_neg sender, ih,
          List.map_cons, List.dropLast_cons_cons, List.mem_cons, other, false_or,
          List.getLast?_cons_cons]

/-- The erase loop of a write job. -/
theorem eraseAcknowledged_spec (acks : List CaceShortAck) (expected : List Int) {fuel : Nat}
    (enough : expected.length ≤ fuel) :
    eraseAcknowledged acks fuel expected 0 =
      if overruns (acks.map CaceShortAck.senderID) expected then .error .outOfRange
      else .ok (expected.filter fun id => acks.all fun ack => ack.senderID != id) := by
  induction expected generalizing fuel with
  | nil => cases fuel <;> simp [eraseAcknowledged, overruns]
  | cons id rest ih =>
    obtain ⟨fuel, rfl⟩ := Nat.exists_eq_succ_of_ne_zero
      (Nat.pos_iff_ne_zero.mp (Nat.lt_of_lt_of_le (Nat.zero_lt_succ _) enough))
    have shorter : rest.length ≤ fuel := Nat.le_of_succ_le_succ enough
    have inside : (0 : Int) < ((id :: rest).length : Int) := by
      simp only [List.length_cons]
      omega
    unfold eraseAcknowledged overruns
    rw [if_pos inside, scanAcks_front]
    by_cases early : id ∈ (acks.map CaceShortAck.senderID).dropLast
    · simp only [if_pos early, if_true]
    by_cases last : (acks.map CaceShortAck.senderID).getLast? = some id
    · have answered : (acks.all fun ack => ack.senderID != id) = false := by
        obtain ⟨ack, member, same⟩ := List.mem_map.mp (List.mem_of_getLast? last)
        rw [List.all_eq_false]
        exact ⟨ack, member, by simp [same]⟩
      rw [List.filter_cons_of_neg (by simpa using answered)]
      simp only [if_neg early, if_pos last, neg_add_cancel]
      exact ih shorter
    · have stays : ∀ ack ∈ acks, ack.senderID ≠ id := by
        intro ack member same
        have sender : id ∈ acks.map CaceShortAck.senderID := List.mem_map.mpr ⟨ack, member, same⟩
        rcases List.eq_nil_or_concat (acks.map CaceShortAck.senderID) with none | ⟨ids, z, eq⟩
        · rw [none] at sender
          cases sender
        · rw [List.concat_eq_append] at eq
          rw [eq, List.dropLast_concat] at early
          rw [eq, List.getLast?_concat] at last
          rw [eq] at sender
          rcases List.mem_append.mp sender with before | here
          · exact early before
          · exact last (congrArg some (List.mem_singleton.mp here).symm)
      have kept : (acks.all fun ack => ack.senderID != id) = true := by
        rw [List.all_eq_true]
        exact fun ack member => by simpa using stays ack member
      rw [List.filter_cons_of_pos (by simpa using kept)]
      simp only [if_neg early, if_neg last, Bool.false_eq_true, if_false]
      exact eraseAcknowledged_behind rest [id] shorter (by simp) (by simpa using stays)

/-- The robots that the loop erases at the front of its list have sent no acknowledge before
the last one. -/
def FrontAnswersLast (acks : List CaceShortAck) (expected : List Int) : Prop :=
  ∀ id ∈ expected.takeWhile fun id => acks.any fun ack => ack.senderID == id,
    ∀ ack ∈ acks.dropLast, ack.senderID ≠ id

theorem mem_dropLast_or_getLast {senders : List Int} {id : Int} :
    id ∈ senders ↔ id ∈ senders.dropLast ∨ senders.getLast? = some id := by
  rcases List.eq_nil_or_concat senders with rfl | ⟨before, last, rfl⟩
  · simp
  · simp [eq_comm]

theorem overruns_iff (acks : List CaceShortAck) (expected : List Int) :
    overruns (acks.map CaceShortAck.senderID) expected = false ↔ FrontAnswersLast acks expected := by
  have early : ∀ id, id ∉ (acks.map CaceShortAck.senderID).dropLast
      ↔ ∀ ack ∈ acks.dropLast, ack.senderID ≠ id := by
    intro id
    simp [← List.map_dropLast]
  induction expected with
  | nil => simp [overruns, FrontAnswersLast]
  | cons id rest ih =>
    unfold overruns
    by_cases answeredEarly : id ∈ (acks.map CaceShortAck.senderID).dropLast
    · have sender := mem_dropLast_or_getLast.mpr (.inl answeredEarly)
      have answered : (acks.any fun ack => ack.senderID == id) = true := by simpa using sender
      have failing := mt (early id).mpr (not_not.mpr answeredEarly)
      simp [answeredEarly, FrontAnswersLast, answered, failing]
    · rw [if_neg answeredEarly]
      by_cases last : (acks.map CaceShortAck.senderID).getLast? = some id
      · have sender := mem_dropLast_or_getLast.mpr (.inr last)
        have answered : (acks.any fun ack => ack.senderID == id) = true := by simpa using sender
        rw [if_pos last]
        refine ih.trans ?_
        simp only [FrontAnswersLast, List.takeWhile_cons, answered, if_true, List.forall_mem_cons]
        exact ⟨fun others => ⟨(early id).mp answeredEarly, others⟩, And.right⟩
      · have silent : id ∉ acks.map CaceShortAck.senderID := fun sender =>
          (mem_dropLast_or_getLast.mp sender).elim answeredEarly last
        have unanswered : (acks.any fun ack => ack.senderID == id) = false := by
          simpa using silent
        rw [if_neg last]
        simp [FrontAnswersLast, unanswered]

/-- The removal loop stays inside its vector and keeps, in order, exactly the robots that
no acknowledge comes from, if and only if the robots it erases at the front of the vector
have sent no acknowledge before the last one in the list. -/
theorem removal_loop_exact_iff (acks : List CaceShortAck) (expected : List Int) :
    WriteJob.eraseAcknowledged acks expected.length expected 0
        = .ok (expected.filter fun id => acks.all fun ack => ack.senderID != id)
      ↔ FrontAnswersLast acks expected := by
  rw [eraseAcknowledged_spec acks expected (le_refl _), ← overruns_iff]
  cases overruns (acks.map CaceShortAck.senderID) expected <;> simp

/-- One expected robot that has acknowledged twice. -/
theorem removal_loop_throws :
    let acks : List CaceShortAck := [⟨2, [1], ['x'], 7, 3⟩, ⟨2, [1], ['x'], 7, 4⟩]
    WriteJob.eraseAcknowledged acks 1 [2] 0 ≠
      .ok ([2].filter fun id => acks.all fun ack => ack.senderID != id) := by
  decide

end Acknowledged

end CaceProofs.Guarantees
