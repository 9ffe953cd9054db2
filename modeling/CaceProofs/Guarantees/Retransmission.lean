import CaceProofs.Guarantees.JobEffects

/-!
# Retransmissions

For each robot whose resend deadline has passed, `process()` sends one message. Five of the
six jobs address it to the robot and repeat the message ID; the notification job hands the
two arguments over in the other order.
-/
namespace CaceProofs.Source

namespace Message

/-- The message ID; a time message has none. -/
def msgID? : Message → Option Int
  | command m | write m | response m => some m.msgID
  | acknowledge m => some m.msgID
  | shortAck m | writeAck m => some m.msgID
  | believeNotification m => some m.msgID
  | variableRequest m => some m.msgID
  | time _ => none

end Message

/-- The message ID of a job that waits for others. -/
def Job.msgID? : Job → Option Int
  | .command j => some j.msgID
  | .commandAcknowledge j => some j.msgID
  | .believeNotification j => some j.msgID
  | .believeAcknowledge j => some j.msgID
  | .write j => some j.msgID
  | .request j => some j.msgID
  | .shortAck _ | .writeAck _ => none

end CaceProofs.Source

namespace CaceProofs.Guarantees
open Source Library

section Transmissions

/-- The receiver and the message ID that the resend of a job fills in for a robot. -/
def sentAs : Job → Int → Int × Option Int
  | .believeNotification j, i => (toShort j.msgID, some (toShort i))
  | job, i => (toShort i, job.msgID?.map toShort)

/-- A message as a job resends it for a robot. -/
def ResentFor (job : Job) (i : Int) (m : Message) : Prop :=
  m.receiverID = some [(sentAs job i).1] ∧ m.msgID? = (sentAs job i).2

/-- The robots that a job still waits for when its resend loop runs. -/
def awaited (c : Cace) : Job → List Int
  | .command j => eraseUpdated (c.deref j.variablePtr).proposals j.lamportTime j.expectedRobotIDs
  | .believeNotification j =>
    eraseUpdated (c.deref j.variablePtr).proposals j.lamportTime j.expectedRobotIDs
  | .commandAcknowledge j =>
    eraseAnswered (c.getCaceShortAcksAndRemove j.msgID).1 j.expectedRobotIDs
  | .believeAcknowledge j =>
    eraseAnswered (c.getCaceShortAcksAndRemove j.msgID).1 j.expectedRobotIDs
  | .write j =>
    ((WriteJob.eraseAcknowledged (j.acks ++ (c.getWriteAcknowledgesAndRemove j.msgID).1)
      j.expectedRobotIDs.length j.expectedRobotIDs 0).toOption).getD []
  | .request j => j.expectedRobotIDs
  | .shortAck _ | .writeAck _ => []

/-- What a job knows of its last sends when its resend loop runs; a job on which the loop
does not send knows nothing. -/
def deadlines (r : Readings) (c : Cace) : Job → List JobStateEntity
  | .command j =>
    if .fireAndForget < (c.deref j.variablePtr).strategy ∧ c.quiet = false then j.entities else []
  | .believeNotification j =>
    if .fireAndForget < (c.deref j.variablePtr).strategy ∧ c.quiet = false then j.entities else []
  | .commandAcknowledge j =>
    if (j.updatedOwnBelieve ∧ AcceptStrategy.fireAndForget.code < j.command.level) ∧
        c.quiet = false then
      (j.catchUp r c).2.entities
    else []
  | .believeAcknowledge j =>
    if (j.updatedOwnBelieve ∧ AcceptStrategy.fireAndForget.code < j.notification.level) ∧
        c.quiet = false then
      (j.catchUp r c).2.entities
    else []
  | .write j => j.entities
  | .request j => if c.existsResponse j.name then [] else j.entities
  | .shortAck _ | .writeAck _ => []

/-- The robots that `process()` sends to because their deadline has passed. -/
def resentTo (r : Readings) (c : Cace) (job : Job) : List Int :=
  resendLog r (awaited c job) (deadlines r c job)

/-- The observations of a `process()`: first the work it makes up for, whose messages go out
for the first time, then one resend for each robot. -/
def Transmits (job : Job) (robots : List Int) (c c' : Cace) : Prop :=
  ∃ seen ms, c'.history = c.history ++ seen ++ ms.map (fun m => .published m .again) ∧
    (∀ m, .published m .again ∉ seen) ∧
    (∀ id m, job.msgID? = some id → .published m .first ∈ seen →
      m.msgID? = some (toShort id)) ∧
    List.Forall₂ (ResentFor job) robots ms

variable {r : Readings} {c : Cace} {job : Job}

/-- Sends that publish one message each. -/
theorem foldl_send_history {send : Cace → Int → Cace} {quiet : Bool} (robots : List Int)
    (sends : ∀ c i, c.quiet = quiet → ∃ m, ResentFor job i m ∧
      (send c i).history = c.history ++ [.published m .again] ∧ (send c i).quiet = quiet)
    (mode : c.quiet = quiet) :
    ∃ ms, (robots.foldl send c).history = c.history ++ ms.map (fun m => .published m .again) ∧
      List.Forall₂ (ResentFor job) robots ms := by
  induction robots generalizing c with
  | nil => exact ⟨[], by simp, .nil⟩
  | cons i robots ih =>
    obtain ⟨m, good, first, mode1⟩ := sends c i mode
    obtain ⟨ms, rest, all⟩ := ih mode1
    refine ⟨m :: ms, ?_, .cons good all⟩
    rw [List.foldl_cons, rest, first]
    simp

/-- The quiet module sends nothing. -/
theorem foldl_quiet {send : Cace → Int → Cace} (robots : List Int)
    (silent : ∀ i, send c i = c) : robots.foldl send c = c := by
  induction robots with
  | nil => rfl
  | cons i robots ih => rw [List.foldl_cons, silent, ih]

/-- A resend loop whose send the quiet module overrides. -/
theorem transmits_unlessQuiet {send : Cace → Int → Message} {d : Cace} {seen : List Observation}
    (expected : List Int) (entities : List JobStateEntity) (mode : d.quiet = c.quiet)
    (history : d.history = c.history ++ seen) (fresh : ∀ m, .published m .again ∉ seen)
    (answered : ∀ id m, job.msgID? = some id → .published m .first ∈ seen →
      m.msgID? = some (toShort id))
    (sends : ∀ c i, ResentFor job i (send c i)) :
    Transmits job (resendLog r expected (if c.quiet = false then entities else [])) c
      (resendLoop r (fun c i => c.publishUnlessQuiet (send c i) .again) expected entities
        d).cace := by
  rw [resendLoop_cace]
  cases quiet : c.quiet with
  | false =>
    rw [quiet] at mode
    obtain ⟨ms, sent, all⟩ := @foldl_send_history d job
      (fun c i => c.publishUnlessQuiet (send c i) .again) false (resendLog r expected entities)
      (fun c i loud => ⟨send c i, sends c i, by simp [Cace.publishUnlessQuiet, loud, Cace.publish,
        Cace.observe], by simp [Cace.publishUnlessQuiet, loud, Cace.publish, Cace.observe]⟩) mode
    exact ⟨seen, ms, by rw [sent, history], fresh, answered, by simpa using all⟩
  | true =>
    rw [quiet] at mode
    rw [@foldl_quiet d (fun c i => c.publishUnlessQuiet (send c i) .again) _
      (fun i => by simp [Cace.publishUnlessQuiet, mode])]
    exact ⟨seen, [], by simp [history], fresh, answered, .nil⟩

/-- A `process()` that resends nothing. -/
theorem transmits_none {d : Cace} {seen : List Observation} (expected : List Int)
    (history : d.history = c.history ++ seen) (fresh : ∀ m, .published m .again ∉ seen)
    (answered : ∀ id m, job.msgID? = some id → .published m .first ∈ seen →
      m.msgID? = some (toShort id)) : Transmits job (resendLog r expected []) c d :=
  ⟨seen, [], by simp [history], fresh, answered, .nil⟩

theorem command_transmits (r : Readings) (c : Cace) (j : CommandJob) :
    Transmits (.command j) (resentTo r c (.command j)) c (j.process r c).1 := by
  simp only [resentTo, awaited, deadlines]
  by_cases sent : .fireAndForget < (c.deref j.variablePtr).strategy
  · have loop := @transmits_unlessQuiet r c (.command j)
      (fun d i => .command
        (d.commandMessage (c.deref j.variablePtr) j.msgID j.value i j.lamportTime))
      c [] (awaited c (.command j)) j.entities rfl (by simp) (by simp) (by simp)
      (fun d i => ⟨rfl, rfl⟩)
    simpa [sent, awaited, CommandJob.process, Cace.sendCaceCommandAt] using loop
  · simpa [sent, CommandJob.process] using
      @transmits_none r c (.command j) c [] _ (by simp) (by simp) (by simp)

theorem believeNotification_transmits (r : Readings) (c : Cace) (j : BelieveNotificationJob) :
    Transmits (.believeNotification j) (resentTo r c (.believeNotification j)) c
      (j.process r c).1 := by
  simp only [resentTo, awaited, deadlines]
  by_cases sent : .fireAndForget < (c.deref j.variablePtr).strategy
  · let cv := c.deref j.variablePtr
    have loop := @transmits_unlessQuiet r c (.believeNotification j)
      (fun d i => .believeNotification
        { senderID := toShort d.ownID
          receiverID := [toShort j.msgID]
          variableName := cv.name
          value := cv.val
          decissionTime := cv.decissionTime
          validityTime := cv.validityTime
          level := toShort cv.strategy.code
          msgID := toShort i
          lamportTime := j.lamportTime
          type := toTypeTag cv.type })
      c [] (awaited c (.believeNotification j)) j.entities rfl (by simp) (by simp) (by simp)
      (fun d i => ⟨rfl, rfl⟩)
    simpa [sent, awaited, BelieveNotificationJob.process,
      Cace.sendCaceBelieveNotificationAt] using loop
  · simpa [sent, BelieveNotificationJob.process] using
      @transmits_none r c (.believeNotification j) c [] _ (by simp) (by simp) (by simp)

/-- What catching up with an update adds: the update's observations, then acknowledges. -/
structure CaughtUp (id : Int) (c d : Cace) : Prop where
  quiet : d.quiet = c.quiet
  shortAcks : d.shortAcks = c.shortAcks
  history : ∃ seen, d.history = c.history ++ seen ∧ (∀ m, .published m .again ∉ seen) ∧
    ∀ m, .published m .first ∈ seen → m.msgID? = some (toShort id)

theorem CaughtUp.refl (id : Int) (c : Cace) : CaughtUp id c c :=
  ⟨rfl, rfl, [], by simp, by simp, by simp⟩

theorem CaughtUp.trans {id : Int} {a b c : Cace} (first : CaughtUp id a b)
    (second : CaughtUp id b c) : CaughtUp id a c := by
  obtain ⟨seen, history, fresh, answered⟩ := first.history
  obtain ⟨seen', history', fresh', answered'⟩ := second.history
  refine ⟨second.quiet.trans first.quiet, second.shortAcks.trans first.shortAcks, seen ++ seen',
    by rw [history', history, List.append_assoc], fun m => ?_, fun m member => ?_⟩
  · rw [List.mem_append]
    exact not_or.mpr ⟨fresh m, fresh' m⟩
  · rcases List.mem_append.mp member with old | new
    · exact answered m old
    · exact answered' m new

theorem caughtUp_update (id : Int) (c : Cace) (u : ProposalUpdate) :
    CaughtUp id c (c.updateVariable u) := by
  obtain ⟨seen, history, notified⟩ := updateVariable_history c u
  have silent : ∀ m t, .published m t ∉ .applied u.message :: seen := by
    intro m t member
    rcases List.mem_cons.mp member with applied | later
    · cases applied
    · cases notified _ later
  exact ⟨by rw [updateVariable_frame], by rw [updateVariable_frame], _, history,
    fun m => silent m .again,
    fun m member => absurd member (silent m .first)⟩

theorem caughtUp_acknowledge (c : Cace) (name : Name) (value : Bytes)
    (messageID receiver type : Int) :
    CaughtUp messageID c (c.sendCaceAcknowledge name value messageID receiver type) := by
  unfold Cace.sendCaceAcknowledge Cace.sendCaceAcknowledgeAt Cace.publishUnlessQuiet
  dsimp only
  split
  · exact ⟨rfl, rfl, [], (List.append_nil _).symm, by simp, by simp⟩
  · exact ⟨rfl, rfl, _, rfl, by simp, by simp [Message.msgID?]⟩

theorem caughtUp_acknowledges (c : Cace) (cbn : CaceBelieveNotification) (msgID : Int)
    (expected : List Int) :
    CaughtUp msgID c (BelieveAcknowledgeJob.acknowledge c cbn msgID expected) := by
  unfold BelieveAcknowledgeJob.acknowledge
  dsimp only
  generalize c.deref (.stored cbn.variableName) = cv
  induction expected generalizing c with
  | nil => exact .refl msgID c
  | cons id expected ih =>
    exact (caughtUp_acknowledge c cv.name cv.val msgID id cv.type).trans (ih _)

theorem commandAcknowledge_catchUp (r : Readings) (c : Cace) (j : CommandAcknowledgeJob) :
    CaughtUp j.msgID c (j.catchUp r c).1 ∧ (j.catchUp r c).2.expectedRobotIDs = j.expectedRobotIDs ∧
      (j.catchUp r c).2.msgID = j.msgID ∧
      (j.catchUp r c).2.command = j.command ∧
      (j.catchUp r c).2.updatedOwnBelieve = j.updatedOwnBelieve := by
  have updated : CaughtUp j.msgID c (CommandAcknowledgeJob.doVariableUpdate r c j.command) :=
    caughtUp_update j.msgID c _
  unfold CommandAcknowledgeJob.catchUp
  dsimp only
  split
  · split
    · exact ⟨updated.trans (caughtUp_acknowledge _ _ _ _ _ _), rfl, rfl, rfl, rfl⟩
    · exact ⟨updated, rfl, rfl, rfl, rfl⟩
  · exact ⟨.refl _ _, rfl, rfl, rfl, rfl⟩

theorem believeAcknowledge_catchUp (r : Readings) (c : Cace) (j : BelieveAcknowledgeJob) :
    CaughtUp j.msgID c (j.catchUp r c).1 ∧ (j.catchUp r c).2.expectedRobotIDs = j.expectedRobotIDs ∧
      (j.catchUp r c).2.msgID = j.msgID ∧
      (j.catchUp r c).2.notification = j.notification ∧
      (j.catchUp r c).2.updatedOwnBelieve = j.updatedOwnBelieve := by
  have updated : CaughtUp j.msgID c
      (BelieveAcknowledgeJob.doVariableUpdate r c j.notification) := caughtUp_update j.msgID c _
  unfold BelieveAcknowledgeJob.catchUp
  dsimp only
  split
  · split
    · exact ⟨updated.trans (caughtUp_acknowledges _ _ _ _), rfl, rfl, rfl, rfl⟩
    · exact ⟨updated, rfl, rfl, rfl, rfl⟩
  · exact ⟨.refl _ _, rfl, rfl, rfl, rfl⟩

theorem commandAcknowledge_transmits (r : Readings) (c : Cace) (j : CommandAcknowledgeJob) :
    Transmits (.commandAcknowledge j) (resentTo r c (.commandAcknowledge j)) c
      (j.process r c).1 := by
  obtain ⟨caught, expected, msgID, command, updates⟩ := commandAcknowledge_catchUp r c j
  have acks : ((j.catchUp r c).1.getCaceShortAcksAndRemove (j.catchUp r c).2.msgID).1 =
      (c.getCaceShortAcksAndRemove j.msgID).1 := by
    rw [msgID, Cace.getCaceShortAcksAndRemove, caught.shortAcks]
    rfl
  obtain ⟨seen, history, fresh, answered⟩ := caught.history
  have first : ∀ id m, (Job.commandAcknowledge j).msgID? = some id →
      .published m .first ∈ seen → m.msgID? = some (toShort id) := by
    rintro id m ⟨⟩
    exact answered m
  simp only [resentTo, awaited, deadlines]
  by_cases sent : j.updatedOwnBelieve = true ∧ AcceptStrategy.fireAndForget.code < j.command.level
  · let cv := ((j.catchUp r c).2.cv.map
      ((j.catchUp r c).1.getCaceShortAcksAndRemove (j.catchUp r c).2.msgID).2.deref).getD default
    have loop := @transmits_unlessQuiet r c (.commandAcknowledge j)
      (fun d i => .acknowledge
        { senderID := toShort d.ownID
          receiverID := [toShort i]
          variableName := cv.name
          value := cv.val
          msgID := toShort (j.catchUp r c).2.msgID
          lamportTime := (j.catchUp r c).2.ownLamportTime
          type := toTypeTag cv.type })
      ((j.catchUp r c).1.getCaceShortAcksAndRemove (j.catchUp r c).2.msgID).2 seen
      (awaited c (.commandAcknowledge j)) (j.catchUp r c).2.entities caught.quiet history fresh
      first (fun d i => ⟨rfl, by rw [msgID]; rfl⟩)
    simpa [sent, awaited, CommandAcknowledgeJob.process, updates, command, acks, expected,
      Cace.sendCaceAcknowledgeAt] using loop
  · have none : (j.process r c).1.history = c.history ++ seen := by
      unfold CommandAcknowledgeJob.process
      dsimp only
      rw [updates, command]
      split
      next own =>
        rw [if_neg fun level => sent ⟨own, level⟩]
        exact history
      next => exact history
    simpa [sent] using @transmits_none r c _ (j.process r c).1 seen _ none fresh first

theorem believeAcknowledge_transmits (r : Readings) (c : Cace) (j : BelieveAcknowledgeJob) :
    Transmits (.believeAcknowledge j) (resentTo r c (.believeAcknowledge j)) c
      (j.process r c).1 := by
  obtain ⟨caught, expected, msgID, notification, updates⟩ := believeAcknowledge_catchUp r c j
  have acks : ((j.catchUp r c).1.getCaceShortAcksAndRemove (j.catchUp r c).2.msgID).1 =
      (c.getCaceShortAcksAndRemove j.msgID).1 := by
    rw [msgID, Cace.getCaceShortAcksAndRemove, caught.shortAcks]
    rfl
  obtain ⟨seen, history, fresh, answered⟩ := caught.history
  have first : ∀ id m, (Job.believeAcknowledge j).msgID? = some id →
      .published m .first ∈ seen → m.msgID? = some (toShort id) := by
    rintro id m ⟨⟩
    exact answered m
  simp only [resentTo, awaited, deadlines]
  by_cases sent : j.updatedOwnBelieve = true ∧
      AcceptStrategy.fireAndForget.code < j.notification.level
  · have loop := @transmits_unlessQuiet r c (.believeAcknowledge j)
      (fun d i => .acknowledge
        { senderID := toShort d.ownID
          receiverID := [toShort i]
          variableName := j.notification.variableName
          value := j.notification.value
          msgID := toShort (j.catchUp r c).2.msgID
          lamportTime := (j.catchUp r c).2.ownLamportTime
          type := toTypeTag j.notification.type })
      ((j.catchUp r c).1.getCaceShortAcksAndRemove (j.catchUp r c).2.msgID).2 seen
      (awaited c (.believeAcknowledge j)) (j.catchUp r c).2.entities caught.quiet history fresh
      first (fun d i => ⟨rfl, by rw [msgID]; rfl⟩)
    simpa [sent, awaited, BelieveAcknowledgeJob.process, updates, notification, acks, expected,
      Cace.sendCaceAcknowledgeAt] using loop
  · have none : (j.process r c).1.history = c.history ++ seen := by
      unfold BelieveAcknowledgeJob.process
      dsimp only
      rw [updates, notification]
      split
      next own =>
        rw [if_neg fun level => sent ⟨own, level⟩]
        exact history
      next => exact history
    simpa [sent] using @transmits_none r c _ (j.process r c).1 seen _ none fresh first

/-- A resend loop whose send the quiet module leaves as it is. -/
theorem transmits_loud {send : Cace → Int → Cace} {d : Cace} (expected : List Int)
    (entities : List JobStateEntity) (history : d.history = c.history)
    (sends : ∀ c i, ∃ m, ResentFor job i m ∧
      (send c i).history = c.history ++ [.published m .again] ∧ (send c i).quiet = c.quiet) :
    Transmits job (resendLog r expected entities) c
      (resendLoop r send expected entities d).cace := by
  rw [resendLoop_cace]
  obtain ⟨ms, sent, all⟩ := @foldl_send_history d job send d.quiet
    (resendLog r expected entities) (fun c i same => by
      obtain ⟨m, good, history, mode⟩ := sends c i
      exact ⟨m, good, history, mode.trans same⟩) rfl
  exact ⟨[], ms, by rw [sent, history, List.append_nil], by simp, by simp, all⟩

theorem write_transmits {j : WriteJob} {p : Cace × WriteJob × Bool}
    (success : j.process r c = .ok p) :
    Transmits (.write j) (resentTo r c (.write j)) c p.1 := by
  unfold WriteJob.process at success
  dsimp only at success
  split at success
  next => cases success
  next expected erased =>
    have waits : awaited c (.write j) = expected := by
      simp only [awaited, erased, Except.toOption, Option.getD_some]
    let cv := (c.getWriteAcknowledgesAndRemove j.msgID).2.deref j.variablePtr
    have loop := @transmits_loud r c (.write j)
      (fun d i => d.sendWriteCommand cv j.msgID i .again)
      (c.getWriteAcknowledgesAndRemove j.msgID).2 expected j.entities rfl
      (fun d i => ⟨_, ⟨rfl, rfl⟩, rfl, rfl⟩)
    rw [← Except.ok.inj success, resentTo, waits]
    exact loop

theorem request_transmits (r : Readings) (c : Cace) (j : RequestJob) :
    Transmits (.request j) (resentTo r c (.request j)) c (j.process r c).1 := by
  simp only [resentTo, awaited, deadlines]
  unfold RequestJob.process
  split
  next answered =>
    rw [if_pos answered]
    exact transmits_none _ (List.append_nil c.history).symm (by simp) (by simp)
  next waiting =>
    rw [if_neg waiting]
    exact @transmits_loud r c (.request j) (fun d i => d.sendCaceVariableRequestAt i j.msgID j.name
      .again) c j.expectedRobotIDs j.entities rfl (fun d i => ⟨_, ⟨rfl, rfl⟩, rfl, rfl⟩)

/-- `process()` of the six jobs. -/
theorem job_transmits {c' : Cace} {job' : Job} {finished : Bool} {id : Int}
    (waits : job.msgID? = some id) (success : job.process r c = .ok (c', job', finished)) :
    Transmits job (resentTo r c job) c c' ∧ job'.msgID? = job.msgID? := by
  cases job with
  | command j =>
    obtain ⟨rfl, rfl, rfl⟩ := by simpa [Job.process] using success
    exact ⟨command_transmits r c j, rfl⟩
  | commandAcknowledge j =>
    obtain ⟨rfl, rfl, rfl⟩ := by simpa [Job.process] using success
    refine ⟨commandAcknowledge_transmits r c j, congrArg some ?_⟩
    have same := (commandAcknowledge_catchUp r c j).2.2.1
    unfold CommandAcknowledgeJob.process
    dsimp only
    split <;> exact same
  | believeNotification j =>
    obtain ⟨rfl, rfl, rfl⟩ := by simpa [Job.process] using success
    exact ⟨believeNotification_transmits r c j, rfl⟩
  | believeAcknowledge j =>
    obtain ⟨rfl, rfl, rfl⟩ := by simpa [Job.process] using success
    refine ⟨believeAcknowledge_transmits r c j, congrArg some ?_⟩
    have same := (believeAcknowledge_catchUp r c j).2.2.1
    unfold BelieveAcknowledgeJob.process
    dsimp only
    split <;> exact same
  | write j =>
    simp only [Job.process] at success
    split at success
    next p done =>
      obtain ⟨rfl, rfl, rfl⟩ := by simpa using success
      refine ⟨write_transmits done, ?_⟩
      unfold WriteJob.process at done
      dsimp only at done
      split at done
      next => cases done
      next => rw [← Except.ok.inj done]; rfl
    next => cases success
  | request j =>
    obtain ⟨rfl, rfl, rfl⟩ := by simpa [Job.process] using success
    refine ⟨request_transmits r c j, ?_⟩
    unfold RequestJob.process
    dsimp only
    split <;> rfl
  | shortAck | writeAck => cases waits

end Transmissions

section Constructors

/-- The constructors of the six jobs: the state they leave and the job they build. -/
inductive Constructed (r : Readings) (c : Cace) : Cace → Job → Prop
  | command (variablePtr : VariablePtr) (value : Bytes) (robotids : List Int) (t : Nat) :
      Constructed r c (CommandJob.construct r c variablePtr value robotids t).1
        (.command (CommandJob.construct r c variablePtr value robotids t).2)
  | commandAcknowledge (robotids : List Int) (t : Nat) (cmd : CaceCommand) :
      Constructed r c (CommandAcknowledgeJob.construct r c robotids t cmd).1
        (.commandAcknowledge (CommandAcknowledgeJob.construct r c robotids t cmd).2)
  | believeNotification (variablePtr : VariablePtr) (robotids : List Int) (t : Nat) :
      Constructed r c (BelieveNotificationJob.construct r c variablePtr robotids t).1
        (.believeNotification (BelieveNotificationJob.construct r c variablePtr robotids t).2)
  | believeAcknowledge (robotids : List Int) (t : Nat) (cbn : CaceBelieveNotification) :
      Constructed r c (BelieveAcknowledgeJob.construct r c robotids t cbn).1
        (.believeAcknowledge (BelieveAcknowledgeJob.construct r c robotids t cbn).2)
  | write (variablePtr : VariablePtr) (target : Int) (t : Nat) :
      Constructed r c (WriteJob.construct r c variablePtr target t).1
        (.write (WriteJob.construct r c variablePtr target t).2)
  | request (name : Name) (target : Int) (t : Nat) :
      Constructed r c (RequestJob.construct r c name target t).1
        (.request (RequestJob.construct r c name target t).2)

theorem toShort_toShort (i : Int) : toShort (toShort i) = toShort i :=
  Int.bmod_bmod

theorem makeMsgID_short (c : Cace) : toShort c.makeMsgID = c.makeMsgID := by
  unfold Cace.makeMsgID
  exact toShort_toShort _

variable {r : Readings} {c c' : Cace} {job : Job}

/-- The history of an update, and then of nothing more than sends for the first time. -/
theorem CaughtUp.first {id : Int} (caught : CaughtUp id c c') (word : toShort id = id) :
    ∃ seen, c'.history = c.history ++ seen ∧
      ∀ m, .published m .first ∈ seen → m.msgID? = some id := by
  obtain ⟨seen, history, -, answered⟩ := caught.history
  rw [word] at answered
  exact ⟨seen, history, answered⟩

theorem caughtUp_publish {id : Int} {m : Message} (named : m.msgID? = some (toShort id)) :
    CaughtUp id c (c.tickLamportTime.publishUnlessQuiet m .first) := by
  unfold Cace.publishUnlessQuiet
  split
  · exact ⟨rfl, rfl, [], (List.append_nil _).symm, by simp, by simp⟩
  · exact ⟨rfl, rfl, _, rfl, by simp, by simp [named]⟩

/-- A new job has a message ID that fits, and the messages it sends carry it. -/
theorem constructed_first (constructed : Constructed r c c' job) :
    ∃ id seen, job.msgID? = some id ∧ toShort id = id ∧ c'.history = c.history ++ seen ∧
      ∀ m, .published m .first ∈ seen → m.msgID? = some id := by
  suffices caught : ∃ id, job.msgID? = some id ∧ toShort id = id ∧ CaughtUp id c c' by
    obtain ⟨id, same, word, caught⟩ := caught
    obtain ⟨seen, history, answered⟩ := caught.first word
    exact ⟨id, seen, same, word, history, answered⟩
  cases constructed with
  | command variablePtr value robotids t =>
    refine ⟨c.makeMsgID, ?_⟩
    unfold CommandJob.construct
    dsimp only
    split
    · exact ⟨by simp only [Job.msgID?], makeMsgID_short c,
        caughtUp_publish (by simp only [Message.msgID?, Cace.commandMessage])⟩
    · exact ⟨by simp only [Job.msgID?], makeMsgID_short c, .refl _ c⟩
  | commandAcknowledge robotids t cmd =>
    refine ⟨toShort cmd.msgID, ?_⟩
    have updated : CaughtUp (toShort cmd.msgID) c
        (CommandAcknowledgeJob.doVariableUpdate r c cmd) := caughtUp_update _ c _
    unfold CommandAcknowledgeJob.construct
    dsimp only
    split
    · exact ⟨by simp only [Job.msgID?], toShort_toShort _, .refl _ c⟩
    · split
      · refine ⟨by simp only [Job.msgID?], toShort_toShort _, updated.trans ?_⟩
        unfold Cace.sendCaceAcknowledgeAt Cace.publishUnlessQuiet
        split
        · exact .refl _ _
        · exact ⟨rfl, rfl, _, rfl, by simp, by simp [Message.msgID?]⟩
      · exact ⟨by simp only [Job.msgID?], toShort_toShort _, updated⟩
  | believeNotification variablePtr robotids t =>
    refine ⟨c.makeMsgID, ?_⟩
    have notified (cv : ConsensusVariable) (d : Cace) : CaughtUp c.makeMsgID d
        (robotids.foldl (fun d id => d.sendCaceBelieveNotification cv id c.makeMsgID) d) := by
      induction robotids generalizing d with
      | nil => exact .refl _ d
      | cons id robotids ih =>
        exact .trans (caughtUp_publish (by simp only [Message.msgID?])) (ih _)
    unfold BelieveNotificationJob.construct
    dsimp only
    split
    · exact ⟨by simp only [Job.msgID?], makeMsgID_short c, notified _ c⟩
    · exact ⟨by simp only [Job.msgID?], makeMsgID_short c, .refl _ c⟩
  | believeAcknowledge robotids t cbn =>
    refine ⟨toShort cbn.msgID, ?_⟩
    have updated : CaughtUp (toShort cbn.msgID) c
        (BelieveAcknowledgeJob.doVariableUpdate r c cbn) := caughtUp_update _ c _
    unfold BelieveAcknowledgeJob.construct
    dsimp only
    split
    · exact ⟨by simp only [Job.msgID?], toShort_toShort _, .refl _ c⟩
    · split
      · exact ⟨by simp only [Job.msgID?], toShort_toShort _,
          updated.trans (caughtUp_acknowledges _ _ _ _)⟩
      · exact ⟨by simp only [Job.msgID?], toShort_toShort _, updated⟩
  | write variablePtr target t =>
    exact ⟨c.makeMsgID, by simp only [Job.msgID?, WriteJob.construct], makeMsgID_short c, rfl, rfl,
      _, rfl, by simp, by simp [Message.msgID?, Cace.commandMessage]⟩
  | request name target t =>
    exact ⟨c.makeMsgID, by simp only [Job.msgID?, RequestJob.construct], makeMsgID_short c, rfl,
      rfl, _, rfl, by simp, by simp [Message.msgID?]⟩

end Constructors

/-- The resend for a robot goes to the robot: its ID fits the message, or, for the job that
hands the arguments over in the other order, it is the message ID. -/
def Hits (job : Job) (i : Int) : Prop :=
  match job with
  | .believeNotification j => i = j.msgID
  | _ => toShort i = i

theorem resentFor_right {job : Job} {i : Int} {m : Message}
    (word : ∀ id, job.msgID? = some id → toShort id = id) (sent : ResentFor job i m) :
    (m.receiverID = some [i] ∧ m.msgID? = job.msgID?) ↔ Hits job i := by
  obtain ⟨receiver, named⟩ := sent
  rw [receiver, named]
  cases job with
  | believeNotification j =>
    have same : toShort j.msgID = j.msgID := word _ rfl
    simp only [sentAs, same, Hits, Job.msgID?, Option.some.injEq, List.cons.injEq, and_true]
    constructor
    · exact fun both => both.1.symm
    · rintro rfl
      exact ⟨rfl, same⟩
  | command j | commandAcknowledge j | believeAcknowledge j | write j | request j =>
    have same := word _ rfl
    simp [sentAs, Hits, Job.msgID?, same]
  | shortAck | writeAck => simp [sentAs, Hits, Job.msgID?]

/-- What `process()` resends goes to the robots whose deadline has passed, with the job's message
ID, exactly when each of them is hit; it is the ID that the job was built with, and that its
first messages carry. -/
theorem retransmissions_reach {r : Readings} {c c' : Cace} {job job' : Job} {finished : Bool}
    {id : Int} (waits : job.msgID? = some id) (word : toShort id = id)
    (success : job.process r c = .ok (c', job', finished)) :
    (∃ seen ms, c'.history = c.history ++ seen ++ ms.map (fun m => .published m .again) ∧
      (∀ m, .published m .again ∉ seen) ∧
      (∀ m, .published m .first ∈ seen → m.msgID? = some id) ∧
      (List.Forall₂ (fun i m => m.receiverID = some [i] ∧ m.msgID? = some id)
        (resentTo r c job) ms ↔ ∀ i ∈ resentTo r c job, Hits job i)) ∧
    job'.msgID? = some id ∧
    ∀ r c c' job, Constructed r c c' job → ∃ id seen, job.msgID? = some id ∧ toShort id = id ∧
      c'.history = c.history ++ seen ∧
      ∀ m, .published m .first ∈ seen → m.msgID? = some id := by
  obtain ⟨⟨seen, ms, history, fresh, answered, all⟩, same⟩ := job_transmits waits success
  refine ⟨⟨seen, ms, history, fresh, fun m member => ?_, ?_⟩, same.trans waits,
    fun r c c' job => constructed_first⟩
  · rw [answered id m waits member, word]
  · rw [← waits]
    have words : ∀ i, job.msgID? = some i → toShort i = i := by
      intro i here
      obtain rfl := Option.some.inj (waits.symm.trans here)
      exact word
    clear history
    generalize resentTo r c job = robots at all
    induction all with
    | nil => simp
    | cons sent _ ih =>
      rw [List.forall₂_cons, List.forall_mem_cons, resentFor_right words sent]
      exact and_congr_right fun _ => ih

/-- Readings after the deadlines. -/
def late : Readings := .still 1 0

/-- Agent 1, which has distributed a variable, as it commands it. -/
def distributed : Cace :=
  CaceSpace.distributeValue .zero (.construct 1 false 10) ['x'] [8] 0 .threeWayHandShake

/-- The command of agent 1 is resent to agent 2. -/
theorem retransmissions_reach_command :
    resentTo late distributed
        (.command (CommandJob.construct .zero distributed (.stored ['x']) [8] [2] 2).2) = [2] ∧
      ∃ seen ms, (((CommandJob.construct .zero distributed (.stored ['x']) [8] [2] 2).2.process late
          distributed).1.history = distributed.history ++ seen ++
            ms.map (fun m => .published m .again)) ∧
        List.Forall₂ (fun i m => m.receiverID = some [i] ∧ m.msgID? = some 102) [2] ms := by
  have reach := @retransmissions_reach late distributed _
    (.command (CommandJob.construct .zero distributed (.stored ['x']) [8] [2] 2).2) _ _ 102
    (by decide) (by decide) rfl
  obtain ⟨⟨seen, ms, history, -, -, right⟩, -⟩ := reach
  have robots : resentTo late distributed
      (.command (CommandJob.construct .zero distributed (.stored ['x']) [8] [2] 2).2) = [2] := rfl
  rw [robots] at right
  exact ⟨robots, seen, ms, history, right.mpr (by simp [Hits, toShort])⟩

/-- Agent 1 has told agent 2 about a variable, and its notification job resends to agent 102,
with the message ID 2. -/
theorem retransmissions_reach_swapped : ∃ c job c' job' finished m,
    Constructed .zero distributed c job ∧
    job.process late c = .ok (c', job', finished) ∧ resentTo late c job = [2] ∧
    c'.history = c.history ++ [.published m .again] ∧ m.receiverID ≠ some [2] ∧
    m.msgID? ≠ job.msgID? :=
  ⟨_, _, _, _, _, _, .believeNotification (.stored ['x']) [2] 2, rfl, rfl, rfl, by decide,
    by decide⟩

end CaceProofs.Guarantees
