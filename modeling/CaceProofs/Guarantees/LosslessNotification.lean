import CaceProofs.Guarantees.AcceptedBelief
import CaceProofs.Guarantees.CommandDelivery
import CaceProofs.Guarantees.PlainAgents
import CaceProofs.Guarantees.StoreWellFormed

/-!
# A notification that gets through

One agent tells another one about a variable, and whatever they send each other in answer
arrives. The job of the first is satisfied by the acknowledge; the job of the second waits for a
short acknowledge, which is sent at the deepest handshake only.
-/
namespace CaceProofs.Guarantees
open Source Library

section Newest

variable {cv : ConsensusVariable}

/-- A proposal that is newer than all other beliefs wins at the default levels. -/
theorem accepts_newest {p : Believe} (level : cv.strategy.acceptFunction = .default)
    (distinct : ((cv.toBelieve :: cv.proposals).map Believe.robotID).Nodup)
    (member : p ∈ cv.proposals) (own : cv.lamportAge < p.lamportAge)
    (newest : ∀ b ∈ cv.proposals, b ≠ p → b.lamportAge < p.lamportAge) :
    (cv.acceptProposals none).toBelieve = cv.toBelieve.update p := by
  have untouched : touched none cv.toBelieve = cv.toBelieve := if_neg (by simp [level])
  rw [acceptProposals_eq, untouched, level, contest_default distinct]
  cases won : contest (scored (fun b => (beliefOf b).rank) fun _ => true) cv.toBelieve
      cv.proposals with
  | none =>
    have below := contest_kept won p member rfl
    have age : p.lamportAge ≤ cv.lamportAge := Belief.age_le_of_rank_le below
    omega
  | some w =>
    have best := contest_taken won
    have above := best.le p member rfl
    have age : p.lamportAge ≤ w.lamportAge := Belief.age_le_of_rank_le above
    by_cases same : w = p
    · rw [same]
      rfl
    · have older := newest w best.mem same
      omega

/-- The level that a report without one leaves to the record of its sender. -/
def recordLevel (cv : ConsensusVariable) (senderID : Int) : AcceptStrategy :=
  ((sentBy senderID cv.proposals).head?.map Believe.strategy).getD cv.strategy

/-- A report that is newer than everything known makes its sender's level the own one. -/
theorem updated_level {u : ProposalUpdate} (level : cv.strategy.acceptFunction = .default)
    (distinct : ((cv.toBelieve :: cv.proposals).map Believe.robotID).Nodup)
    (other : cv.robotID ≠ u.senderID)
    (newer : ∀ b ∈ cv.toBelieve :: cv.proposals, b.lamportAge < u.lamportTime) :
    (updated u (some cv)).strategy = u.message.strategy?.getD (recordLevel cv u.senderID) := by
  obtain ⟨overwrites, freshens, -, -⟩ := u.strategies
  cases success : cv.recordProposal u.senderID u.lamportTime u.overwrite
      (u.fresh cv.toBelieve) with
  | none =>
    obtain ⟨some_, current⟩ := sentBy_updated_own u (some cv)
    obtain ⟨p, member⟩ := List.exists_mem_of_ne_nil _ some_
    have age := (current p member).1
    have kept : updated u (some cv) = cv := by simp [updated, success]
    rw [kept] at member
    have older := newer p (List.mem_cons_of_mem _ (List.mem_filter.mp member).1)
    omega
  | some recorded =>
    have own := recordProposal_own success
    have result : updated u (some cv) = recorded.acceptProposals none := by
      simp [updated, success]
    have records := sentBy_recordProposal_own success
    have senders : ((recorded.toBelieve :: recorded.proposals).map Believe.robotID).Nodup := by
      rw [List.map_cons, own]
      rcases recordProposal_senders (fun var => (u.overwrite_records var).1)
          (u.fresh_records _).1 success with same | ⟨new, more⟩
      · rw [same]
        exact distinct
      · rw [List.map_cons, List.nodup_cons] at distinct
        rw [more, List.nodup_cons, List.mem_append, List.mem_singleton]
        refine ⟨fun either => either.elim distinct.1 other, ?_⟩
        exact List.nodup_append.mpr ⟨distinct.2, List.nodup_singleton _, by simpa using new⟩
    have record : ∃ p ∈ sentBy u.senderID recorded.proposals, p.lamportAge = u.lamportTime ∧
        p.strategy = u.message.strategy?.getD (recordLevel cv u.senderID) := by
      unfold recordLevel
      rw [records]
      cases known : sentBy u.senderID cv.proposals with
      | nil =>
        rw [if_pos rfl]
        exact ⟨_, List.mem_singleton_self _, (u.fresh_records _).2.2.2, freshens _⟩
      | cons q rest =>
        have member : q ∈ sentBy u.senderID cv.proposals := known ▸ List.mem_cons_self
        have older := newer q (List.mem_cons_of_mem _ (List.mem_filter.mp member).1)
        rw [if_neg (List.cons_ne_nil _ _), List.map_cons, if_pos older]
        exact ⟨_, List.mem_cons_self, (u.overwrite_records q).2.2.2, overwrites q⟩
    obtain ⟨p, sent, age, strategy⟩ := record
    obtain ⟨member, sender⟩ : p ∈ recorded.proposals ∧ p.robotID = u.senderID := by
      simpa [sentBy] using sent
    rw [result, ← strategy]
    have newest : ∀ b ∈ recorded.proposals, b ≠ p → b.lamportAge < p.lamportAge := by
      intro b inRecords different
      rw [age]
      have others : b.robotID ≠ u.senderID := fun same =>
        different (eq_of_robotID senders inRecords member (same.trans sender.symm))
      rcases mem_recordProposal success inRecords with old | rfl | ⟨q, -, from_, rfl⟩
      · exact newer b (List.mem_cons_of_mem _ old)
      · exact absurd (u.fresh_records _).1 others
      · exact absurd ((u.overwrite_records q).1.trans from_) others
    have wins := accepts_newest (by rw [own]; exact level) senders member
      (by rw [own, age]; exact newer _ List.mem_cons_self) newest
    exact (congrArg Believe.strategy wins).trans rfl

end Newest

/-- Messages that an agent handles one after the other. -/
def handOver (r : Readings) (c : Cace) (ms : List Message) : Cace :=
  ms.foldl (fun c m => c.handle r m) c

def published? : Observation → Option Message
  | .published m _ => some m
  | .received _ | .applied _ | .notified _ => none

/-- What an agent has published since an earlier state. -/
def newlySent (before after : Cace) : List Message :=
  (after.history.drop before.history.length).filterMap published?

/-- Two agents and a variable that the first tells the second about, with the readings at each
turn. -/
structure Dialogue where
  teller : Cace
  listener : Cace
  name : Name
  r : Nat → Readings

namespace Dialogue

variable (d : Dialogue)

def variableOf : ConsensusVariable :=
  d.teller.deref (.stored d.name)

/-- The teller builds its job, which sends the notification. -/
def told : Cace × BelieveNotificationJob :=
  BelieveNotificationJob.construct (d.r 0) d.teller (.stored d.name) [d.listener.ownID]
    d.teller.lamportTime.time

def notification : CaceBelieveNotification :=
  notificationOf d.teller d.variableOf d.listener.ownID d.teller.makeMsgID
    d.teller.lamportTime.tick.time

/-- The listener handles what the teller has sent. -/
def heard : Cace :=
  handOver (d.r 1) d.listener (newlySent d.teller d.told.1)

/-- The step of the listener builds a job for the notification, which sends the acknowledge. -/
def taken : Cace × BelieveAcknowledgeJob :=
  BelieveAcknowledgeJob.construct (d.r 2) d.heard [d.notification.senderID]
    d.heard.lamportTime.time d.notification

/-- The teller handles what the listener has sent. -/
def answered : Cace :=
  handOver (d.r 3) d.told.1 (newlySent d.heard d.taken.1)

/-- The listener handles what the teller has sent in return. -/
def confirmed : Cace :=
  handOver (d.r 4) d.taken.1 (newlySent d.told.1 d.answered)

/-- The job of the teller after calls that did not strike anybody out. -/
def StillTells (j : BelieveNotificationJob) : Prop :=
  j.expectedRobotIDs = d.told.2.expectedRobotIDs ∧ j.lamportTime = d.told.2.lamportTime ∧
    j.variablePtr = d.told.2.variablePtr

/-- The job of the listener after such calls. -/
def StillListens (j : BelieveAcknowledgeJob) : Prop :=
  j.expectedRobotIDs = d.taken.2.expectedRobotIDs ∧ j.msgID = d.taken.2.msgID ∧
    j.updatedOwnBelieve = d.taken.2.updatedOwnBelieve

/-- The next calls return true and wait for nobody. -/
def NoRetry : Prop :=
  (∀ j, d.StillTells j →
    (j.process (d.r 5) d.answered).2.1.expectedRobotIDs = [] ∧
      (j.process (d.r 5) d.answered).2.2 = true) ∧
    ∀ j, d.StillListens j →
      (j.process (d.r 6) d.confirmed).2.1.expectedRobotIDs = [] ∧
        (j.process (d.r 6) d.confirmed).2.2 = true

/-- What the two agents bring along: well formed variables, and clocks that are not at their
end. -/
structure Lossless : Prop where
  teller : Plain d.teller
  listener : Plain d.listener
  stored : d.teller.getVariable d.name = some d.variableOf
  own : OwnVariable d.teller.ownID d.name d.variableOf
  listed : ∀ cv, d.listener.getVariable d.name = some cv → OwnVariable d.listener.ownID d.name cv
  level : d.variableOf.strategy = .twoWayHandShake ∨ d.variableOf.strategy = .threeWayHandShake
  ages : ∀ b ∈ d.variableOf.toBelieve :: d.variableOf.proposals,
    b.lamportAge ≤ d.teller.lamportTime.time
  short : toShort d.teller.ownID = d.teller.ownID ∧ toShort d.listener.ownID = d.listener.ownID
  other : d.teller.ownID ≠ d.listener.ownID
  welcome : d.teller.ownID ∉ d.listener.agentBlacklist ∧
    d.listener.ownID ∉ d.teller.agentBlacklist
  early : d.teller.lamportTime.time + 4 < 2 ^ 64 ∧ d.listener.lamportTime.time + 4 < 2 ^ 64
  unused : ∀ sa ∈ d.listener.shortAcks, sa.msgID ≠ d.teller.makeMsgID

end Dialogue

section Turns

theorem send_rest (c : Cace) (m : Message) (t : Transmission) :
    config (c.tickLamportTime.publish m t) = config c ∧
      (c.tickLamportTime.publish m t).shortAcks = c.shortAcks :=
  ⟨rfl, rfl⟩

theorem newlySent_append {before after : Cace} {seen : List Observation}
    (history : after.history = before.history ++ seen) :
    newlySent before after = seen.filterMap published? := by
  rw [newlySent, history, List.drop_left]

theorem sent_history (c : Cace) (m : Message) (t : Transmission) (job : Job) :
    ((c.tickLamportTime.publish m t).appendJob job).history = c.history ++ [.published m t] :=
  rfl

theorem sent_store (c : Cace) (m : Message) (t : Transmission) (job : Job) :
    ((c.tickLamportTime.publish m t).appendJob job).store = c.store :=
  rfl

theorem appendJob_store (c : Cace) (job : Job) : (c.appendJob job).store = c.store :=
  rfl

theorem getVariable_of_store {c c' : Cace} (same : c'.store = c.store) (name : Name) :
    c'.getVariable name = c.getVariable name := by
  rw [Cace.getVariable, Cace.getVariable, same]

variable {d : Dialogue} (lossless : d.Lossless)

include lossless

theorem told_spec :
    d.told.1 = d.teller.tickLamportTime.publish (.believeNotification d.notification) .first ∧
      d.told.2.expectedRobotIDs = [d.listener.ownID] ∧
      d.told.2.lamportTime = d.teller.lamportTime.time ∧
      d.told.2.variablePtr = .stored d.name := by
  have sent : .noDistribution < (d.teller.deref (.stored d.name)).strategy := by
    rcases lossless.level with two | three
    · exact two ▸ (by decide)
    · exact three ▸ (by decide)
  have loud := lossless.teller.loud
  unfold Dialogue.told BelieveNotificationJob.construct
  simp only [if_pos sent, List.foldl_cons, List.foldl_nil]
  refine ⟨?_, trivial, trivial, trivial⟩
  unfold Cace.sendCaceBelieveNotification Cace.sendCaceBelieveNotificationAt
    Cace.publishUnlessQuiet
  rw [if_neg (by simp [Cace.tickLamportTime, loud])]
  rfl

theorem heard_spec :
    d.heard = { d.listener.receive (.believeNotification d.notification) with
      believeNotifications := d.listener.believeNotifications ++ [d.notification] } := by
  have sent : newlySent d.teller d.told.1 = [.believeNotification d.notification] := by
    rw [(told_spec lossless).1]
    exact @newlySent_append d.teller _
      [.published (.believeNotification d.notification) .first] rfl
  have sender : d.notification.senderID = d.teller.ownID := lossless.short.1
  have passes : d.listener.isBlacklisted d.notification.senderID = false := by
    simpa [Cace.isBlacklisted, sender] using lossless.welcome.1
  have here : (d.listener.receive (.believeNotification d.notification)).addressed
      d.notification.receiverID = true := by
    simp [Cace.addressed, Cace.receive, Cace.observe, Cace.updateLamportTime, Dialogue.notification,
      notificationOf, Message.lamportTime]
  unfold Dialogue.heard handOver
  rw [sent]
  simp only [List.foldl_cons, List.foldl_nil, Cace.handle, Cace.handleCaceBelieveNotification,
    passes, Bool.false_eq_true, if_false]
  exact if_pos here

theorem heard_rest : config d.heard = config d.listener ∧ d.heard.store = d.listener.store ∧
    d.heard.shortAcks = d.listener.shortAcks ∧
    d.heard.lamportTime = d.listener.lamportTime.witness d.teller.lamportTime.tick.time := by
  rw [heard_spec lossless]
  exact ⟨rfl, rfl, rfl, rfl⟩

/-- The listener after the notification has updated the variable. -/
def informed (d : Dialogue) : Cace :=
  BelieveAcknowledgeJob.doVariableUpdate (d.r 2) d.heard d.notification

theorem informed_rest : config (informed d) = config d.listener ∧
    (informed d).shortAcks = d.listener.shortAcks ∧
    (informed d).lamportTime =
      d.listener.lamportTime.witness d.teller.lamportTime.tick.time := by
  obtain ⟨same, -, acks, clock⟩ := heard_rest lossless
  have frame : informed d = _ := updateVariable_frame _ _
  rw [frame]
  exact ⟨same, acks, clock⟩

/-- The acknowledge of the listener. -/
def acknowledgement (d : Dialogue) : CaceAcknowledge :=
  acknowledgeOf (informed d) ((informed d).deref (.stored d.notification.variableName))
    (toShort d.notification.msgID) d.notification.senderID (informed d).lamportTime.tick.time

theorem taken_spec :
    d.taken.1 = (informed d).tickLamportTime.publish (.acknowledge (acknowledgement d)) .first ∧
      d.taken.2.expectedRobotIDs = [d.teller.ownID] ∧
      d.taken.2.msgID = d.teller.makeMsgID ∧ d.taken.2.updatedOwnBelieve = true := by
  have direct : d.heard.safeStepMode = false :=
    (congrArg Config.safeStepMode (heard_rest lossless).1).trans lossless.listener.direct
  have loud : (informed d).tickLamportTime.quiet = false :=
    (congrArg Config.quiet (informed_rest lossless).1).trans lossless.listener.loud
  have sender : d.notification.senderID = d.teller.ownID := lossless.short.1
  have word : toShort d.notification.msgID = d.teller.makeMsgID := by
    simp [Dialogue.notification, notificationOf, makeMsgID_short]
  have answers : AcceptStrategy.fireAndForget.code < d.notification.level := by
    have level : d.notification.level = toShort d.variableOf.strategy.code := rfl
    rcases lossless.level with two | three
    · rw [level, two]
      decide
    · rw [level, three]
      decide
  unfold Dialogue.taken BelieveAcknowledgeJob.construct
  simp only [direct, Bool.false_eq_true, if_false, if_pos answers, sender, word, and_true]
  change (BelieveAcknowledgeJob.acknowledge (informed d) d.notification d.teller.makeMsgID
    [d.teller.ownID]) = _
  unfold BelieveAcknowledgeJob.acknowledge Cace.sendCaceAcknowledge Cace.sendCaceAcknowledgeAt
    Cace.publishUnlessQuiet
  simp only [List.foldl_cons, List.foldl_nil, loud, Bool.false_eq_true, if_false]
  rw [acknowledgement, word, sender]
  rfl

theorem acknowledgement_time : d.teller.lamportTime.time + 2 ≤ (acknowledgement d).lamportTime := by
  obtain ⟨teller, listener⟩ := lossless.early
  have told : d.teller.lamportTime.tick.time = d.teller.lamportTime.time + 1 :=
    LamportClock.tick_fits (by omega)
  have clock : (acknowledgement d).lamportTime = (informed d).lamportTime.tick.time := rfl
  have heard : (informed d).lamportTime.time = if d.listener.lamportTime.time <
      d.teller.lamportTime.time + 1 then d.teller.lamportTime.time + 1 + 1
        else d.listener.lamportTime.time := by
    rw [(informed_rest lossless).2.2, told]
    exact LamportClock.witness_fits (by omega)
  rw [clock, LamportClock.tick_fits (by rw [heard]; split <;> omega), heard]
  split <;> omega

theorem acknowledgement_sender : (acknowledgement d).senderID = d.listener.ownID := by
  have owner : (informed d).ownID = d.listener.ownID :=
    congrArg Config.ownID (informed_rest lossless).1
  exact (congrArg toShort owner).trans lossless.short.2

theorem acknowledgement_name : (acknowledgement d).variableName = d.name := by
  obtain ⟨same, store, -⟩ := heard_rest lossless
  have here : d.notification.variableName = d.name := lossless.own.keyed
  have owner : d.heard.ownID = d.listener.ownID := congrArg Config.ownID same
  have sender : d.notification.senderID = d.teller.ownID := lossless.short.1
  have name : (acknowledgement d).variableName =
      ((informed d).deref (.stored d.notification.variableName)).name := rfl
  have stored : d.heard.getVariable d.name = d.listener.getVariable d.name := by
    rw [Cace.getVariable, store]
    rfl
  let u := notificationUpdate (d.r 2) d.heard.ownID d.notification
  have known : (informed d).getVariable d.notification.variableName =
      some (updated u (d.heard.getVariable d.notification.variableName)) := by
    refine (getVariable_updateVariable d.heard u _).trans ?_
    exact if_pos rfl
  rw [name, deref_stored, known, here, stored]
  have other : u.senderID ≠ u.ownID := by
    simp only [u, notificationUpdate, sender, owner]
    exact lossless.other
  have listed : ∀ cv, d.listener.getVariable d.name = some cv →
      OwnVariable u.ownID d.name cv := by
    intro cv old
    change OwnVariable d.heard.ownID d.name cv
    rw [owner]
    exact lossless.listed cv old
  exact (OwnVariable.updated (u := u) here other listed).keyed

theorem answered_eq :
    d.answered = d.told.1.handle (d.r 3) (.acknowledge (acknowledgement d)) := by
  obtain ⟨seen, history, notified⟩ := updateVariable_history d.heard
    (notificationUpdate (d.r 2) d.heard.ownID d.notification)
  have sent : newlySent d.heard d.taken.1 = [.acknowledge (acknowledgement d)] := by
    have all : d.taken.1.history = d.heard.history ++
        (.applied (.believeNotification d.notification) :: seen ++
          [.published (.acknowledge (acknowledgement d)) .first]) := by
      rw [(taken_spec lossless).1, ← List.append_assoc]
      exact congrArg (· ++ _) history
    have silent : seen.filterMap published? = [] :=
      List.filterMap_eq_nil_iff.mpr fun o member => by rw [notified o member]; rfl
    rw [newlySent_append all, List.filterMap_append, List.filterMap_cons]
    simp [published?, silent]
  rw [Dialogue.answered, sent]
  rfl

/-- The teller after the acknowledge has updated the variable. -/
def satisfied (d : Dialogue) : Cace :=
  tookAcknowledge (d.r 3) d.told.1 (acknowledgement d)

theorem told_config : config d.told.1 = config d.teller := by
  rw [(told_spec lossless).1]
  rfl

theorem answered_spec :
    d.answered = (if .twoWayHandShake < ((satisfied d).deref (.stored d.name)).strategy then
        (satisfied d).tickLamportTime.publish
          (.shortAck (acknowledgeAnswer (satisfied d) (acknowledgement d))) .first
      else satisfied d).appendJob
        (.shortAck (acknowledgeAnswerJob (satisfied d) (acknowledgement d))) := by
  have same := told_config lossless
  have reaches : Reaches (.acknowledge (acknowledgement d)) d.told.1
      (acknowledgement d).receiverID := by
    have listed : d.told.1.agentBlacklist = d.teller.agentBlacklist :=
      congrArg Config.agentBlacklist same
    have owner : d.told.1.ownID = d.teller.ownID := congrArg Config.ownID same
    refine ⟨?_, ?_⟩
    · have sender : (Message.acknowledge (acknowledgement d)).senderID = d.listener.ownID :=
        acknowledgement_sender lossless
      rw [listed, sender]
      exact lossless.welcome.2
    · have receiver : (acknowledgement d).receiverID = [toShort (toShort d.teller.ownID)] := rfl
      simp [Cace.addressed, receiver, owner, lossless.short.1]
  rw [answered_eq lossless, handle_acknowledge (lossless.teller.of_config same) reaches,
    acknowledgement_name lossless]
  rfl

/-- The variable of the teller at the end. -/
theorem satisfied_variable :
    (satisfied d).getVariable d.name =
      some (updated (acknowledgeUpdate (d.r 3) d.told.1.ownID (acknowledgement d))
        (some d.variableOf)) := by
  have name := acknowledgement_name lossless
  have stored : (d.told.1.receive (.acknowledge (acknowledgement d))).getVariable d.name =
      some d.variableOf := by
    have store : (d.told.1.receive (.acknowledge (acknowledgement d))).store = d.teller.store := by
      rw [receive_store, (told_spec lossless).1]
      rfl
    exact (getVariable_of_store store d.name).trans lossless.stored
  let u := acknowledgeUpdate (d.r 3) d.told.1.ownID (acknowledgement d)
  have here : d.name = u.variableName := name.symm
  refine (getVariable_updateVariable _ u _).trans ?_
  rw [if_pos here, ← here, stored]

theorem satisfied_level :
    ((satisfied d).deref (.stored d.name)).strategy =
      recordLevel d.variableOf d.listener.ownID := by
  have level : d.variableOf.strategy.acceptFunction = .default := by
    rcases lossless.level with two | three
    · exact two ▸ rfl
    · exact three ▸ rfl
  have time := acknowledgement_time lossless
  have sender := acknowledgement_sender lossless
  have distinct : ((d.variableOf.toBelieve :: d.variableOf.proposals).map
      Believe.robotID).Nodup := by
    rw [List.map_cons, lossless.own.own]
    exact List.nodup_cons.mpr ⟨lossless.own.foreign, lossless.own.distinct⟩
  let u := acknowledgeUpdate (d.r 3) d.told.1.ownID (acknowledgement d)
  have other : d.variableOf.robotID ≠ u.senderID := by
    have from_ : u.senderID = d.listener.ownID := sender
    rw [lossless.own.own, from_]
    exact lossless.other
  have newest := updated_level (u := u) level distinct other
    (fun b member => by
      have age := lossless.ages b member
      change b.lamportAge < (acknowledgement d).lamportTime
      omega)
  rw [deref_stored, satisfied_variable lossless, Option.getD_some, newest]
  exact congrArg (recordLevel d.variableOf) sender

/-- The short acknowledge goes back exactly if the level of the record asks for it. -/
theorem confirmed_eq :
    d.confirmed = if .twoWayHandShake < recordLevel d.variableOf d.listener.ownID then
      d.taken.1.handle (d.r 4) (.shortAck (acknowledgeAnswer (satisfied d) (acknowledgement d)))
    else d.taken.1 := by
  obtain ⟨seen, history, notified⟩ := updateVariable_history
    (d.told.1.receive (.acknowledge (acknowledgement d)))
    (acknowledgeUpdate (d.r 3) d.told.1.ownID (acknowledgement d))
  have silent : (.received (.acknowledge (acknowledgement d)) ::
      .applied (.acknowledge (acknowledgement d)) :: seen).filterMap published? = [] := by
    rw [List.filterMap_eq_nil_iff]
    intro o member
    simp only [List.mem_cons] at member
    rcases member with rfl | rfl | later
    · rfl
    · rfl
    · rw [notified o later]
      rfl
  have all : (satisfied d).history = d.told.1.history ++
      (.received (.acknowledge (acknowledgement d)) ::
        .applied (.acknowledge (acknowledgement d)) :: seen) := by
    refine history.trans ?_
    rw [receive_history, List.append_assoc]
    rfl
  have level := satisfied_level lossless
  unfold Dialogue.confirmed
  rw [answered_spec lossless, level]
  by_cases deep : .twoWayHandShake < recordLevel d.variableOf d.listener.ownID
  · simp only [if_pos deep]
    have sent := @newlySent_append d.told.1
      (((satisfied d).tickLamportTime.publish (.shortAck (acknowledgeAnswer (satisfied d)
        (acknowledgement d))) .first).appendJob
          (.shortAck (acknowledgeAnswerJob (satisfied d) (acknowledgement d))))
      ((.received (.acknowledge (acknowledgement d)) ::
        .applied (.acknowledge (acknowledgement d)) :: seen) ++
          [.published (.shortAck (acknowledgeAnswer (satisfied d) (acknowledgement d))) .first])
      (by rw [sent_history, all, List.append_assoc])
    rw [sent, List.filterMap_append, silent]
    rfl
  · simp only [if_neg deep]
    have sent := @newlySent_append d.told.1
      ((satisfied d).appendJob
        (.shortAck (acknowledgeAnswerJob (satisfied d) (acknowledgement d)))) _ all
    rw [sent, silent]
    rfl

end Turns

section Calls

variable {r : Readings} {c : Cace}

/-- Everybody has answered with a proposal that is new enough. -/
theorem notification_done {j : BelieveNotificationJob}
    (all : ∀ i ∈ j.expectedRobotIDs, ∃ p ∈ sentBy i (c.deref j.variablePtr).proposals,
      j.lamportTime ≤ p.lamportAge) :
    (j.process r c).2.1.expectedRobotIDs = [] ∧ (j.process r c).2.2 = true := by
  have none : eraseUpdated (c.deref j.variablePtr).proposals j.lamportTime
      j.expectedRobotIDs = [] := by
    rw [eraseUpdated, eraseIf_eq_filter, List.filter_eq_nil_iff]
    intro i member
    obtain ⟨p, sent, newer⟩ := all i member
    obtain ⟨inProposals, sender⟩ := List.mem_filter.mp sent
    simp only [Bool.not_eq_true', Bool.not_eq_false]
    exact List.any_eq_true.mpr ⟨p, inProposals, by simp [newer, sender]⟩
  have expected : (j.process r c).2.1.expectedRobotIDs = [] := none
  refine ⟨expected, ?_⟩
  unfold BelieveNotificationJob.process
  simp only [none, List.isEmpty_nil, Bool.true_or]

theorem acknowledge_done {j : BelieveAcknowledgeJob} (direct : c.safeStepMode = false)
    (updates : j.updatedOwnBelieve = true) :
    (j.process r c).2.1.expectedRobotIDs =
        eraseAnswered (c.getCaceShortAcksAndRemove j.msgID).1 j.expectedRobotIDs ∧
      (eraseAnswered (c.getCaceShortAcksAndRemove j.msgID).1 j.expectedRobotIDs = [] →
        (j.process r c).2.2 = true) := by
  have caught : j.catchUp r c = (c, j) := if_neg (by simp [direct])
  unfold BelieveAcknowledgeJob.process
  simp only [caught, if_pos updates]
  refine ⟨trivial, fun none => ?_⟩
  rw [none]
  rfl

end Calls

section Ends

variable {d : Dialogue} (lossless : d.Lossless)

include lossless

/-- The acknowledge satisfies the job of the teller. -/
theorem teller_done {j : BelieveNotificationJob} (waits : d.StillTells j) :
    (j.process (d.r 5) d.answered).2.1.expectedRobotIDs = [] ∧
      (j.process (d.r 5) d.answered).2.2 = true := by
  obtain ⟨-, robots, clock, pointer⟩ := told_spec lossless
  obtain ⟨expected, time, points⟩ := waits
  have store : d.answered.store = (satisfied d).store := by
    rw [answered_spec lossless]
    split
    · exact sent_store _ _ _ _
    · exact appendJob_store _ _
  have variable_ := getVariable_of_store store d.name
  have proposals : (d.answered.deref j.variablePtr).proposals =
      (updated (acknowledgeUpdate (d.r 3) d.told.1.ownID (acknowledgement d))
        (some d.variableOf)).proposals := by
    rw [points, pointer, deref_stored, variable_, satisfied_variable lossless]
    rfl
  refine notification_done fun i member => ?_
  rw [expected, robots, List.mem_singleton] at member
  obtain ⟨some_, current⟩ := sentBy_updated_own
    (acknowledgeUpdate (d.r 3) d.told.1.ownID (acknowledgement d)) (some d.variableOf)
  obtain ⟨p, sent⟩ := List.exists_mem_of_ne_nil _ some_
  have age : (acknowledgement d).lamportTime ≤ p.lamportAge := (current p sent).1
  have later := acknowledgement_time lossless
  refine ⟨p, ?_, by rw [time, clock]; omega⟩
  rw [proposals, member, ← acknowledgement_sender lossless]
  exact sent

/-- The job of the listener is satisfied by the short acknowledge only. -/
theorem listener_done {j : BelieveAcknowledgeJob} (waits : d.StillListens j) :
    ((j.process (d.r 6) d.confirmed).2.1.expectedRobotIDs = [] ∧
        (j.process (d.r 6) d.confirmed).2.2 = true) ↔
      .twoWayHandShake < recordLevel d.variableOf d.listener.ownID := by
  obtain ⟨-, robots, word, open_⟩ := taken_spec lossless
  obtain ⟨expected, named, updates⟩ := waits
  obtain ⟨same, queue, -⟩ := informed_rest lossless
  have taken : config d.taken.1 = config d.listener := by
    rw [(taken_spec lossless).1, (send_rest _ _ _).1, same]
  have queued : d.taken.1.shortAcks = d.listener.shortAcks := by
    rw [(taken_spec lossless).1, (send_rest _ _ _).2, queue]
  rw [confirmed_eq lossless]
  by_cases deep : .twoWayHandShake < recordLevel d.variableOf d.listener.ownID
  · rw [if_pos deep]
    refine iff_of_true ?_ deep
    generalize answer : acknowledgeAnswer (satisfied d) (acknowledgement d) = sa
    have owner : (satisfied d).ownID = d.teller.ownID := by
      rw [satisfied, tookAcknowledge_frame]
      exact (congrArg Config.ownID (receive_config _ _)).trans
        (congrArg Config.ownID (told_config lossless))
    have sender : sa.senderID = d.teller.ownID := by
      rw [← answer]
      exact (congrArg toShort owner).trans lossless.short.1
    have receiver : sa.receiverID = [d.listener.ownID] := by
      rw [← answer, acknowledgeAnswer, acknowledgement_sender lossless, lossless.short.2]
    have id : sa.msgID = d.teller.makeMsgID := by
      rw [← answer]
      have word' : toShort d.notification.msgID = d.teller.makeMsgID := by
        simp [Dialogue.notification, notificationOf, makeMsgID_short]
      simp only [acknowledgeAnswer, acknowledgement, acknowledgeOf, word', makeMsgID_short]
    have reaches : Reaches (.shortAck sa) d.taken.1 sa.receiverID := by
      have listed : d.taken.1.agentBlacklist = d.listener.agentBlacklist :=
        congrArg Config.agentBlacklist taken
      have here : d.taken.1.ownID = d.listener.ownID := congrArg Config.ownID taken
      refine ⟨?_, ?_⟩
      · rw [listed]
        exact (congrArg (· ∉ d.listener.agentBlacklist) sender).mpr lossless.welcome.1
      · simp [Cace.addressed, receiver, here, lossless.short.2]
    rw [handle_shortAck reaches]
    have rest := receive_config d.taken.1 (.shortAck sa)
    generalize d.taken.1.receive (.shortAck sa) = c at rest ⊢
    have direct : c.safeStepMode = false :=
      (congrArg Config.safeStepMode (rest.trans taken)).trans lossless.listener.direct
    have gone : eraseAnswered (Cace.getCaceShortAcksAndRemove
        { c with shortAcks := d.taken.1.shortAcks ++ [sa] } j.msgID).1 j.expectedRobotIDs = [] := by
      rw [List.eq_nil_iff_forall_not_mem]
      intro i stays
      obtain ⟨member, silent⟩ := mem_eraseAnswered_iff.mp stays
      rw [expected, robots, List.mem_singleton] at member
      refine silent sa ?_ (sender.trans member.symm)
      refine List.mem_filter.mpr ⟨List.mem_append_right _ (List.mem_singleton_self sa), ?_⟩
      simp [named, word, id]
    have done := @acknowledge_done (d.r 6)
      { c with shortAcks := d.taken.1.shortAcks ++ [sa] } j direct (updates.trans open_)
    exact ⟨done.1.trans gone, done.2 gone⟩
  · rw [if_neg deep]
    refine iff_of_false ?_ deep
    have direct : d.taken.1.safeStepMode = false :=
      (congrArg Config.safeStepMode taken).trans lossless.listener.direct
    have acks : (d.taken.1.getCaceShortAcksAndRemove j.msgID).1 = [] := by
      rw [Cace.getCaceShortAcksAndRemove, queued, named, word, List.filter_eq_nil_iff]
      intro sa member
      simpa using lossless.unused sa member
    rintro ⟨none, -⟩
    rw [(acknowledge_done direct (updates.trans open_)).1, acks, expected, robots] at none
    cases none

/-- A notification that gets through needs no retry exactly if the short acknowledge is sent. -/
theorem lossless_notification :
    d.NoRetry ↔ .twoWayHandShake < recordLevel d.variableOf d.listener.ownID := by
  constructor
  · intro ends
    exact (listener_done lossless ⟨rfl, rfl, rfl⟩).mp (ends.2 d.taken.2 ⟨rfl, rfl, rfl⟩)
  · intro deep
    exact ⟨fun _ waits => teller_done lossless waits,
      fun _ waits => (listener_done lossless waits).mpr deep⟩

end Ends

section Examples

/-- Agent 1 has distributed a variable and tells agent 2, which does not know it. -/
def conversation (strategy : AcceptStrategy) : Dialogue where
  teller := CaceSpace.distributeValue .zero (.construct 1 false 10) ['x'] [8] 0 strategy
  listener := .construct 2 false 10
  name := ['x']
  r := fun _ => .zero

theorem conversation_lossless {strategy : AcceptStrategy}
    (level : strategy = .twoWayHandShake ∨ strategy = .threeWayHandShake) :
    (conversation strategy).Lossless := by
  rcases level with rfl | rfl
  all_goals
    exact
      { teller := ⟨rfl, rfl⟩
        listener := ⟨rfl, rfl⟩
        stored := rfl
        own := ⟨rfl, rfl, by decide, by decide, by decide⟩
        listed := by intro cv stored; cases stored
        level := by decide
        ages := by decide
        short := by decide
        other := by decide
        welcome := by decide
        early := by decide
        unused := by decide }

/-- The deepest handshake. -/
theorem lossless_notification_threeWay : (conversation .threeWayHandShake).NoRetry :=
  (lossless_notification (conversation_lossless (.inr rfl))).mpr (by decide)

/-- At the handshake before, the listener waits for a short acknowledge that is never sent. -/
theorem lossless_notification_twoWay : ∃ d : Dialogue, d.Lossless ∧ ¬ d.NoRetry := by
  refine ⟨conversation .twoWayHandShake, conversation_lossless (.inl rfl), fun ends => ?_⟩
  have waits := (ends.2 (conversation .twoWayHandShake).taken.2 ⟨rfl, rfl, rfl⟩).1
  revert waits
  decide

end Examples

end CaceProofs.Guarantees
