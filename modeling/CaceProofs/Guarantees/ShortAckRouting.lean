import CaceProofs.Guarantees.WriteHandshake
import CaceProofs.Guarantees.Retransmission

/-!
# Whose short acknowledges a job takes

A job takes the short acknowledges with its message ID from a queue that all jobs share.
They answer the job as long as no two commands or notifications, and no write of the agent,
share a message ID.
-/
namespace CaceProofs.Source

/-- The command or notification that a job answers. -/
def Job.answers : Job → Option Message
  | .commandAcknowledge j => some (.command j.command)
  | .believeAcknowledge j => some (.believeNotification j.notification)
  | .command _ | .believeNotification _ | .shortAck _ | .write _ | .writeAck _ | .request _ => none

/-- What tells commands and notifications apart, and a command does not lose when it is sent
again: with the message ID, which two commands of one sender can share, the clock at its call. -/
structure Order where
  notification : Bool
  variableName : Name
  senderID : Int
  msgID : Int
  issued : Nat
  deriving DecidableEq, Repr

/-- The clock of the sender when the command was given. The first transmission, which goes to
all, increments the clock before it stamps; a later one carries the time stamp of the job. -/
def CaceCommand.issued (m : CaceCommand) : Nat :=
  if m.receiverID.contains broadcastID then m.lamportTime - 1 else m.lamportTime

def Message.order? : Message → Option Order
  | .command m => some ⟨false, m.variableName, m.senderID, m.msgID, m.issued⟩
  | .believeNotification m => some ⟨true, m.variableName, m.senderID, m.msgID, m.lamportTime⟩
  | .acknowledge _ | .shortAck _ | .time _ | .variableRequest _ | .write _ | .writeAck _
  | .response _ => none

namespace Observation

/-- The command or notification that has been received. -/
def order? : Observation → Option Order
  | received m => m.order?
  | applied _ | published _ _ | notified _ => none

end Observation

end CaceProofs.Source

namespace CaceProofs.Guarantees
open Source Library

section Contents

variable {r : Readings} {may : Licence} {c c' : Cace}

/-- The agent has published the acknowledge at an earlier moment `d`, in answer to the command
or notification `m`. -/
inductive Acknowledges (c : Cace) (a : CaceAcknowledge) : Message → Prop
  | command (d : Cace) (cmd : CaceCommand) (id receiver : Int) (t : Nat)
      (variablePtr : Option VariablePtr) (transmission : Transmission)
      (received : .received (.command cmd) ∈ d.history) (named : id = toShort cmd.msgID)
      (pointer : variablePtr = none ∨ variablePtr = some (.stored cmd.variableName))
      (content : a = acknowledgeOf d ((variablePtr.map d.deref).getD default) id receiver t)
      (later : Leads (d.publish (.acknowledge a) transmission) c) : Acknowledges c a (.command cmd)
  | notification (d : Cace) (cbn : CaceBelieveNotification) (id receiver : Int) (t : Nat)
      (transmission : Transmission) (received : .received (.believeNotification cbn) ∈ d.history)
      (named : id = toShort cbn.msgID)
      (content : a =
          acknowledgeOf d (d.deref (.stored cbn.variableName)) id receiver t ∨
        a = ⟨toShort d.ownID, [toShort receiver], cbn.variableName, cbn.value, toShort id, t,
          toTypeTag cbn.type⟩)
      (later : Leads (d.publish (.acknowledge a) transmission) c) :
      Acknowledges c a (.believeNotification cbn)

theorem Acknowledges.later {a : CaceAcknowledge} {m : Message} (acknowledges : Acknowledges c a m)
    (leads : Leads c c') : Acknowledges c' a m := by
  cases acknowledges with
  | command d cmd id receiver t variablePtr transmission received named pointer content later =>
    exact .command d cmd id receiver t variablePtr transmission received named pointer content
      (later.trans leads)
  | notification d cbn id receiver t transmission received named content later =>
    exact .notification d cbn id receiver t transmission received named content
      (later.trans leads)

/-- What an acknowledge says about the message it answers. -/
theorem Acknowledges.names {a : CaceAcknowledge} {m : Message} (acknowledges : Acknowledges c a m) :
    a.senderID = toShort c.ownID ∧ .received m ∈ c.history ∧
      ∃ order, m.order? = some order ∧ a.msgID = toShort order.msgID := by
  have inHistory : ∀ (d : Cace) (m : Message) (transmission : Transmission),
      .received m ∈ d.history → Leads (d.publish (.acknowledge a) transmission) c →
        .received m ∈ c.history := fun d m transmission received later =>
    later.history.subset (List.mem_append_left _ received)
  have own : ∀ (d : Cace) (transmission : Transmission),
      Leads (d.publish (.acknowledge a) transmission) c → d.ownID = c.ownID :=
    fun d transmission later => (congrArg Config.ownID later.config).symm
  cases acknowledges with
  | command d cmd id receiver t variablePtr transmission received named pointer content later =>
    refine ⟨?_, inHistory d _ transmission received later, _, rfl, ?_⟩
    · rw [content]
      exact congrArg toShort (own d transmission later)
    · rw [content, named]
      exact toShort_toShort _
  | notification d cbn id receiver t transmission received named content later =>
    refine ⟨?_, inHistory d _ transmission received later, _, rfl, ?_⟩
    · rw [← own d transmission later]
      rcases content with rfl | rfl <;> rfl
    · subst named
      rcases content with rfl | rfl <;> exact toShort_toShort _

/-- What a short acknowledge repeats of the acknowledge it answers. -/
structure Answers (sa : CaceShortAck) (msgID senderID : Int) : Prop where
  msgID : sa.msgID = toShort msgID
  receiver : sa.receiverID = [toShort senderID]

/-- What the jobs of an agent and its messages have to do with what it has received. -/
structure Attributed (c : Cace) : Prop where
  queued : c.Queued
  jobs : ∀ job ∈ c.jobs, ∀ m, job.answers = some m →
    ∃ order, m.order? = some order ∧ job.msgID? = some (toShort order.msgID)
  pointers : ∀ j, .commandAcknowledge j ∈ c.jobs →
    j.cv = none ∨ j.cv = some (.stored j.command.variableName)
  addressed : ∀ sa ∈ c.shortAcks, c.addressed sa.receiverID = true
  acks : ∀ a t, .published (.acknowledge a) t ∈ c.history → ∃ m, Acknowledges c a m
  shortAcks : ∀ sa t, .published (.shortAck sa) t ∈ c.history → sa.senderID = toShort c.ownID ∧
    ((∃ a, .received (.acknowledge a) ∈ c.history ∧ Answers sa a.msgID a.senderID) ∨
      ∃ w, .received (.write w) ∈ c.history ∧ Answers sa w.msgID w.senderID)
  writes : ∀ w t, .published (.write w) t ∈ c.history → w.senderID = toShort c.ownID

/-- The loop keeps those who have sent none of the short acknowledges. -/
theorem mem_eraseAnswered_iff {acks : List CaceShortAck} {expected : List Int} {i : Int} :
    i ∈ eraseAnswered acks expected ↔ i ∈ expected ∧ ∀ sa ∈ acks, sa.senderID ≠ i := by
  unfold eraseAnswered
  induction acks generalizing expected with
  | nil => simp
  | cons ca acks ih =>
    rw [List.foldl_cons, ih, eraseIf_eq_filter, List.mem_filter]
    simp only [List.forall_mem_cons, Bool.not_eq_true', beq_eq_false_iff_ne, ne_eq]
    rw [and_assoc, eq_comm]

theorem mem_eraseAnswered {acks : List CaceShortAck} {expected : List Int} {i : Int}
    (member : i ∈ expected) (erased : i ∉ eraseAnswered acks expected) :
    ∃ sa ∈ acks, sa.senderID = i := by
  by_contra silent
  exact erased (mem_eraseAnswered_iff.mpr ⟨member, fun sa sent same => silent ⟨sa, sent, same⟩⟩)

/-- `process()` of an answering job: it stays the same job, and a robot that it strikes out is
the sender of a short acknowledge with its message ID. -/
structure Strikes (c : Cace) (job job' : Job) : Prop where
  answers : job'.answers = job.answers
  msgID : job'.msgID? = job.msgID?
  struck : ∀ i ∈ job.base.expectedRobotIDs, i ∉ job'.base.expectedRobotIDs →
    ∃ sa ∈ c.shortAcks, job.msgID? = some sa.msgID ∧ sa.senderID = i

theorem commandAcknowledge_strikes (r : Readings) (c : Cace) (j : CommandAcknowledgeJob) :
    Strikes c (.commandAcknowledge j) (.commandAcknowledge (j.process r c).2.1) := by
  obtain ⟨caught, expected, msgID, command, -⟩ := commandAcknowledge_catchUp r c j
  unfold CommandAcknowledgeJob.process
  dsimp only
  split
  next =>
    refine ⟨congrArg (fun cmd => some (Message.command cmd)) command, congrArg some msgID,
      fun i member struck => ?_⟩
    have erased := struck
    simp only [Job.base, Cace.getCaceShortAcksAndRemove, caught.shortAcks, msgID, expected]
      at erased
    obtain ⟨sa, taken, sender⟩ := mem_eraseAnswered member erased
    obtain ⟨inQueue, same⟩ := List.mem_filter.mp taken
    exact ⟨sa, inQueue, congrArg some (beq_iff_eq.mp same).symm, sender⟩
  next =>
    refine ⟨congrArg (fun cmd => some (Message.command cmd)) command, congrArg some msgID,
      fun i member struck => absurd member ?_⟩
    simpa only [Job.base, expected] using struck

theorem believeAcknowledge_strikes (r : Readings) (c : Cace) (j : BelieveAcknowledgeJob) :
    Strikes c (.believeAcknowledge j) (.believeAcknowledge (j.process r c).2.1) := by
  obtain ⟨caught, expected, msgID, notification, -⟩ := believeAcknowledge_catchUp r c j
  unfold BelieveAcknowledgeJob.process
  dsimp only
  split
  next =>
    refine ⟨congrArg (fun cbn => some (Message.believeNotification cbn)) notification,
      congrArg some msgID, fun i member struck => ?_⟩
    have erased := struck
    simp only [Job.base, Cace.getCaceShortAcksAndRemove, caught.shortAcks, msgID, expected]
      at erased
    obtain ⟨sa, taken, sender⟩ := mem_eraseAnswered member erased
    obtain ⟨inQueue, same⟩ := List.mem_filter.mp taken
    exact ⟨sa, inQueue, congrArg some (beq_iff_eq.mp same).symm, sender⟩
  next =>
    refine ⟨congrArg (fun cbn => some (Message.believeNotification cbn)) notification,
      congrArg some msgID, fun i member struck => absurd member ?_⟩
    simpa only [Job.base, expected] using struck

/-- Only an answering job becomes one. -/
theorem process_strikes {job job' : Job} {finished : Bool} {m : Message}
    (answering : job.answers = some m ∨ job'.answers = some m)
    (done : job.process r c = .ok (c', job', finished)) : Strikes c job job' := by
  cases job with
  | commandAcknowledge j => cases done; exact commandAcknowledge_strikes r c j
  | believeAcknowledge j => cases done; exact believeAcknowledge_strikes r c j
  | command | believeNotification | shortAck | writeAck | request =>
    cases done
    rcases answering with none | none <;> cases none
  | write j =>
    simp only [Job.process] at done
    split at done
    · cases done
      rcases answering with none | none <;> cases none
    · cases done

theorem created_answers {job : Job} {m : Message} (made : Created r may c c' job)
    (answering : job.answers = some m) :
    ∃ order, m.order? = some order ∧ job.msgID? = some (toShort order.msgID) := by
  cases made with
  | commandAcknowledge cmd =>
    cases answering
    refine ⟨⟨false, cmd.variableName, cmd.senderID, cmd.msgID, cmd.issued⟩, ?_, ?_⟩
    all_goals
      unfold CommandAcknowledgeJob.construct
      dsimp only
      split
      · rfl
      · split <;> rfl
  | believeAcknowledge cbn =>
    cases answering
    refine ⟨⟨true, cbn.variableName, cbn.senderID, cbn.msgID, cbn.lamportTime⟩, ?_, ?_⟩
    all_goals
      unfold BelieveAcknowledgeJob.construct
      dsimp only
      split
      · rfl
      · split <;> rfl
  | command | believeNotification | shortAck | write | writeAck | request => cases answering

theorem commandAcknowledge_pointer (r : Readings) (c : Cace) (j : CommandAcknowledgeJob)
    (before : j.cv = none ∨ j.cv = some (.stored j.command.variableName)) :
    (j.process r c).2.1.cv = none ∨
      (j.process r c).2.1.cv = some (.stored (j.process r c).2.1.command.variableName) := by
  have caught : (j.catchUp r c).2.cv = none ∨
      (j.catchUp r c).2.cv = some (.stored (j.catchUp r c).2.command.variableName) := by
    unfold CommandAcknowledgeJob.catchUp
    dsimp only
    split
    · split <;> exact .inr rfl
    · exact before
  unfold CommandAcknowledgeJob.process
  dsimp only
  split <;> exact caught

namespace Attributed

theorem jobs_effect (effect : Effect r may c c') (before : Attributed c) {job : Job} {m : Message}
    (member : job ∈ c'.jobs) (answering : job.answers = some m) :
    ∃ order, m.order? = some order ∧ job.msgID? = some (toShort order.msgID) := by
  cases effect.jobs member with
  | kept old => exact before.jobs job old m answering
  | processed old d d' finished k there earlier done =>
    have strikes := process_strikes (.inr answering) done
    rw [strikes.msgID]
    exact before.jobs old there m (strikes.answers.symm.trans answering)
  | created d d' earlier made later => exact created_answers made answering

theorem pointers_effect (effect : Effect r may c c') (before : Attributed c)
    {j : CommandAcknowledgeJob} (member : .commandAcknowledge j ∈ c'.jobs) :
    j.cv = none ∨ j.cv = some (.stored j.command.variableName) := by
  cases effect.jobs member with
  | kept old => exact before.pointers j old
  | processed old d d' finished k there earlier done =>
    cases old with
    | commandAcknowledge old =>
      obtain rfl : (old.process (r.forJob k) d).2.1 = j := by cases done; rfl
      exact commandAcknowledge_pointer (r.forJob k) d old (before.pointers old there)
    | command | believeNotification | believeAcknowledge | shortAck | writeAck | request =>
      cases done
    | write old =>
      simp only [Job.process] at done
      split at done <;> cases done
  | created d d' earlier made later =>
    cases made with
    | commandAcknowledge cmd =>
      unfold CommandAcknowledgeJob.construct
      dsimp only
      split
      · exact .inl rfl
      · split <;> exact .inr rfl

/-- The ID under which a job answers a command. -/
theorem named (before : Attributed c) {cmd : CaceCommand} {id : Int}
    (named : id = toShort cmd.msgID ∨
      ∃ j, .commandAcknowledge j ∈ c.jobs ∧ j.command = cmd ∧ j.msgID = id) :
    id = toShort cmd.msgID := by
  rcases named with here | ⟨j, member, rfl, rfl⟩
  · exact here
  · obtain ⟨order, same, msgID⟩ := before.jobs _ member _ rfl
    obtain rfl := Option.some.inj same
    exact Option.some.inj msgID

theorem named_notification (before : Attributed c) {cbn : CaceBelieveNotification} {id : Int}
    (named : id = toShort cbn.msgID ∨
      ∃ j, .believeAcknowledge j ∈ c.jobs ∧ j.notification = cbn ∧ j.msgID = id) :
    id = toShort cbn.msgID := by
  rcases named with here | ⟨j, member, rfl, rfl⟩
  · exact here
  · obtain ⟨order, same, msgID⟩ := before.jobs _ member _ rfl
    obtain rfl := Option.some.inj same
    exact Option.some.inj msgID

theorem acks_effect (effect : Effect r may c c') (before : Attributed c) {a : CaceAcknowledge}
    {t : Transmission} (published : .published (.acknowledge a) t ∈ c'.history) :
    ∃ m, Acknowledges c' a m := by
  rcases effect.published published with old | ⟨d, moment, rfl, source⟩
  · obtain ⟨m, acknowledges⟩ := before.acks a t old
    exact ⟨m, acknowledges.later (.single ⟨r, may, effect⟩)⟩
  have history : d.history = c.history := by rcases moment with rfl | rfl <;> rfl
  have deref : d.deref = c.deref := by rcases moment with rfl | rfl <;> rfl
  have own : d.ownID = c.ownID := by rcases moment with rfl | rfl <;> rfl
  have filled : ∀ (cv : ConsensusVariable) (id receiver : Int) (t : Nat),
      acknowledgeOf c cv id receiver t = acknowledgeOf d cv id receiver t := by
    intro cv id receiver t
    unfold acknowledgeOf
    rw [own]
  rcases source with ⟨rfl, content⟩ | ⟨rfl, job, member, content, -⟩
  · cases content with
    | acknowledge cmd id received source =>
      refine ⟨_, .command d cmd id 0 d.lamportTime.time (some (.stored cmd.variableName)) .first
        (history ▸ received) (before.named source) (.inr rfl) ?_ .refl⟩
      rw [filled, ← deref]
      rfl
    | answer cbn id receiver received source =>
      refine ⟨_, .notification d cbn id receiver d.lamportTime.time .first (history ▸ received)
        (before.named_notification source) (.inl ?_) .refl⟩
      rw [filled, ← deref]
  · have held : ∀ m ∈ job.held, .received m ∈ d.history := fun m inJob =>
      history ▸ before.queued.received m
        (mem_held.mpr (.inr (.inr (.inr (.inr ⟨job, member, inJob⟩)))))
    cases content with
    | acknowledge j i variablePtr t pointer =>
      refine ⟨_, .command d j.command j.msgID i t variablePtr .again
        (held _ (List.mem_singleton_self _)) (before.named (.inr ⟨j, member, rfl, rfl⟩)) ?_ ?_
        .refl⟩
      · rcases pointer with ⟨rfl, -⟩ | ⟨rfl, -⟩
        · exact before.pointers j member
        · exact .inr rfl
      · rw [filled, ← deref]
    | answer j i t =>
      refine ⟨_, .notification d j.notification j.msgID i t .again
        (held _ (List.mem_singleton_self _))
        (before.named_notification (.inr ⟨j, member, rfl, rfl⟩)) (.inr ?_) .refl⟩
      rw [own]

theorem shortAcks_effect (effect : Effect r may c c') (before : Attributed c) {sa : CaceShortAck}
    {t : Transmission} (published : .published (.shortAck sa) t ∈ c'.history) :
    sa.senderID = toShort c'.ownID ∧
      ((∃ a, .received (.acknowledge a) ∈ c'.history ∧ Answers sa a.msgID a.senderID) ∨
        ∃ w, .received (.write w) ∈ c'.history ∧ Answers sa w.msgID w.senderID) := by
  have longer := effect.history
  have own : c'.ownID = c.ownID := congrArg Config.ownID effect.config
  rw [own]
  rcases effect.published published with old | ⟨d, -, -, ⟨-, content⟩ | ⟨-, job, -, content, -⟩⟩
  · obtain ⟨sender, answer⟩ := before.shortAcks sa t old
    exact ⟨sender, answer.imp (fun ⟨a, received, rest⟩ => ⟨a, longer.subset received, rest⟩)
      fun ⟨w, received, rest⟩ => ⟨w, longer.subset received, rest⟩⟩
  · cases content with
    | shortAck ack received => exact ⟨rfl, .inl ⟨ack, longer.subset received, rfl, rfl⟩⟩
    | writeAck cmd received => exact ⟨rfl, .inr ⟨cmd, longer.subset received, rfl, rfl⟩⟩
  · cases content

theorem writes_effect (effect : Effect r may c c') (before : Attributed c) {w : CaceCommand}
    {t : Transmission} (published : .published (.write w) t ∈ c'.history) :
    w.senderID = toShort c'.ownID := by
  have own : c'.ownID = c.ownID := congrArg Config.ownID effect.config
  rw [own]
  rcases effect.published published with old | ⟨d, -, -, ⟨-, content⟩ | ⟨-, job, -, content, -⟩⟩
  · exact before.writes w t old
  · cases content with
    | write => rfl
  · cases content with
    | write => rfl

theorem effect (effect : Effect r may c c') (before : Attributed c) : Attributed c' where
  queued := effect.queued before.queued
  jobs _ member _ answering := before.jobs_effect effect member answering
  pointers _ member := before.pointers_effect effect member
  addressed sa member := by
    have own : c'.ownID = c.ownID := congrArg Config.ownID effect.config
    unfold Cace.addressed
    rw [own]
    exact (effect.shortAcks member).elim (before.addressed sa) id
  acks _ _ published := before.acks_effect effect published
  shortAcks _ _ published := before.shortAcks_effect effect published
  writes _ _ published := before.writes_effect effect published

theorem path (path : Path r may c c') (before : Attributed c) : Attributed c' :=
  preserved_by_steps (fun _ _ step before => .effect step before) path before

theorem of_idle (idle : c.Idle) : Attributed c where
  queued := idle_queued idle
  jobs job member := by simp [idle.jobs] at member
  pointers j member := by simp [idle.jobs] at member
  addressed sa member := by simp [idle.shortAcks] at member
  acks a t member := by simp [idle.history] at member
  shortAcks sa t member := by simp [idle.history] at member
  writes w t member := by simp [idle.history] at member

end Attributed

end Contents

section System

variable {start s : System} {trace : List (System × System.Event)}

/-- The IDs are distinct as 16-bit numbers, and none is the broadcast ID. -/
def Numbered (s : System) : Prop :=
  ∀ id ∈ s.ids, toShort (s.agents id).ownID = id ∧ id ≠ broadcastID

/-- Every message of the system is accounted for. -/
structure Accounted (s : System) : Prop where
  traced : Traced s
  numbered : Numbered s
  attributed : ∀ id, Attributed (s.agents id)

theorem Accounted.step {s' : System} {e : System.Event} (before : Accounted s)
    (next : s.Next e s') : Accounted s' := by
  have paths := fun id => system_path next id (before.traced.queued id)
  refine ⟨before.traced.step next, fun id member => ?_, fun id => ?_⟩
  · obtain ⟨r, path⟩ := paths id
    have own : (s'.agents id).ownID = (s.agents id).ownID := congrArg Config.ownID path.config
    rw [own]
    exact before.numbered id (system_ids next ▸ member)
  · obtain ⟨r, path⟩ := paths id
    exact .path path (before.attributed id)

theorem accounted (quiescent : Quiescent start) (numbered : Numbered start)
    (run : start.Runs trace s) : Accounted s :=
  run.preserves (fun _ _ _ (_ : True) next before => before.step next) (fun _ _ => trivial)
    ⟨quiescent.traced, numbered, fun id => .of_idle (quiescent.idle id)⟩

theorem heard_acknowledge {d : Cace} {sent : Message} {a : CaceAcknowledge}
    (same : .acknowledge a = heard d sent) :
    ∃ a', sent = .acknowledge a' ∧ a.msgID = a'.msgID ∧ a.senderID = a'.senderID := by
  cases sent with
  | acknowledge a' =>
    refine ⟨a', rfl, ?_⟩
    obtain rfl : a = d.stampedAcknowledge a' := by cases same; rfl
    unfold Cace.stampedAcknowledge
    split <;> exact ⟨rfl, rfl⟩
  | command | shortAck | believeNotification | time | variableRequest | write | writeAck
  | response => cases same

/-- The receiver that an agent with the number `k` is addressed by. -/
theorem Accounted.receiver (accounted : Accounted s) {id k : Int} {c : Cace}
    (own : c.ownID = (s.agents id).ownID) (here : id ∈ s.ids) (member : k ∈ s.ids) {senderID : Int}
    (sender : senderID = toShort (s.agents k).ownID)
    (addressed : c.addressed [toShort senderID] = true) : k = id := by
  have number := accounted.numbered k member
  rw [sender, toShort_toShort, number.1] at addressed
  unfold Cace.addressed at addressed
  rw [own, (accounted.numbered id here).1] at addressed
  simp only [List.contains_eq_mem, List.mem_singleton, Bool.or_eq_true, decide_eq_true_eq]
    at addressed
  rcases addressed with broadcast | same
  · exact absurd broadcast.symm number.2
  · exact same.symm

/-- Agent 1 commands `x`, and the acknowledge of agent 2 gets its short acknowledge. -/
def answered : List System.Event :=
  [.call 2 .zero (.agentEngangement 1 false),
    .call 1 .zero (.distributeValue ['x'] [7] 0 .threeWayHandShake),
    .deliver 2 .zero (.command ⟨1, [0], ['x'], [7], 0, longMax, 70, 101, 2, 0⟩),
    .deliver 1 .zero (.acknowledge ⟨2, [0], ['x'], [7], 101, 3, 0⟩),
    .deliver 2 .zero (.shortAck ⟨1, [2], ['x'], 101, 5⟩)]

/-- Agent 102 writes `y` to agent 101 under the message ID of the command that agent 101 gives. -/
def crossed : List System.Event :=
  [.call 102 .zero (.agentEngangement 101 false),
    .call 102 .zero (.addVariable (filled ['y'] [7]) false),
    .call 102 .zero (.writeVariable (.stored ['y']) 101),
    .call 101 .zero (.distributeValue ['z'] [9] 0 .fireAndForget),
    .call 101 .zero (.distributeValue ['x'] [8] 0 .threeWayHandShake),
    .deliver 102 .zero (.command ⟨101, [0], ['x'], [8], 0, longMax, 70, 10302, 3, 0⟩),
    .deliver 101 .zero (.write ⟨102, [101], ['y'], [7], 0, longMax, 70, 10302, 2, 0⟩),
    .deliver 102 .zero (.shortAck ⟨101, [102], ['y'], 10302, 4⟩)]

end System

end CaceProofs.Guarantees
