import CaceProofs.Guarantees.Absorption

/-!
# Immediate and deferred processing

Without safe step mode a job runs its variable update when it is built, with it in the step.
Either way the step leaves in the store what the received messages do to it in one order:
commands, acknowledges and writes as they arrived, then the notifications.
-/
namespace CaceProofs.Guarantees
open Source Library

section Constructors

variable (r : Readings) (c : Cace)

/-- A new job has its update done or due. -/
structure Starts (m : Message) (c c' : Cace) (job : Job) : Prop where
  absorbs : Absorbs (if c.safeStepMode then [] else [m]) c c'
  due : job.due = [m]
  sound : job.sound = true

theorem commandAcknowledge_starts (ids : List Int) (t : Nat) (cmd : CaceCommand) :
    Starts (.command cmd) c (CommandAcknowledgeJob.construct r c ids t cmd).1
      (.commandAcknowledge (CommandAcknowledgeJob.construct r c ids t cmd).2) := by
  have updated : Absorbs [.command cmd] c (CommandAcknowledgeJob.doVariableUpdate r c cmd) :=
    applyMessage_absorbs r c rfl
  unfold CommandAcknowledgeJob.construct
  dsimp only
  split
  next safe => exact ⟨if_pos safe ▸ .refl c, rfl, rfl⟩
  next direct =>
    split
    · exact ⟨if_neg direct ▸ updated.still (publishUnlessQuiet_absorbs _ _ _), rfl, rfl⟩
    · exact ⟨if_neg direct ▸ updated, rfl, rfl⟩

theorem believeAcknowledge_starts (ids : List Int) (t : Nat) (cbn : CaceBelieveNotification) :
    Starts (.believeNotification cbn) c (BelieveAcknowledgeJob.construct r c ids t cbn).1
      (.believeAcknowledge (BelieveAcknowledgeJob.construct r c ids t cbn).2) := by
  have updated : Absorbs [.believeNotification cbn] c
      (BelieveAcknowledgeJob.doVariableUpdate r c cbn) :=
    applyMessage_absorbs r c rfl
  unfold BelieveAcknowledgeJob.construct
  dsimp only
  split
  next safe => exact ⟨if_pos safe ▸ .refl c, rfl, rfl⟩
  next direct =>
    split
    · exact ⟨if_neg direct ▸ updated.still (acknowledge_absorbs _ _ _ _), rfl, rfl⟩
    · exact ⟨if_neg direct ▸ updated, rfl, rfl⟩

theorem shortAck_starts (ids : List Int) (t : Nat) (ack : CaceAcknowledge) :
    Starts (.acknowledge ack) c (ShortAckJob.construct r c ids t ack).1
      (.shortAck (ShortAckJob.construct r c ids t ack).2) := by
  refine ⟨?_, rfl, rfl⟩
  unfold ShortAckJob.construct
  dsimp only
  split
  · exact .refl c
  · exact shortAckAnswer_absorbs r c ack

theorem writeAck_starts (ids : List Int) (t : Nat) (cmd : CaceCommand) :
    Starts (.write cmd) c (WriteAckJob.construct r c ids t cmd).1
      (.writeAck (WriteAckJob.construct r c ids t cmd).2) := by
  refine ⟨?_, rfl, rfl⟩
  unfold WriteAckJob.construct
  dsimp only
  split
  · exact .refl c
  · exact writeAckAnswer_absorbs r c cmd

end Constructors

/-- An agent on the way from `start` to its step: the messages `done` have acted on the
store or wait in the jobs, in this order, and the notifications `notes` are queued. -/
structure Underway (start : Cace) (done : List Message) (notes : List CaceBelieveNotification)
    (c : Cace) : Prop where
  config : config c = config start
  commands : c.commands = []
  writeAcknowledges : c.writeAcknowledges = []
  believeNotifications : c.believeNotifications = notes
  sound : c.jobs.all Job.sound = start.jobs.all Job.sound
  view : (c.jobs.flatMap (dueIn c)).foldl (StoreView.absorb c.ownID) (view c) =
    done.foldl (StoreView.absorb start.ownID) (view start)

namespace Underway

variable {start c c' : Cace} {done : List Message} {notes : List CaceBelieveNotification}

/-- Nothing acts on the store. -/
theorem still (before : Underway start done notes c) (absorbs : Absorbs [] c c') :
    Underway start done notes c' where
  config := absorbs.config.trans before.config
  commands := absorbs.commands.trans before.commands
  writeAcknowledges := absorbs.writeAcknowledges before.writeAcknowledges
  believeNotifications := absorbs.believeNotifications.trans before.believeNotifications
  sound := by rw [absorbs.jobs]; exact before.sound
  view := by
    have same : c'.ownID = c.ownID := congrArg Config.ownID absorbs.config
    rw [absorbs.jobs, dueIn_config absorbs.config, absorbs.view, same]
    exact before.view

/-- A job joins that has nothing to do with the store. -/
theorem append (before : Underway start done notes c) {job : Job} (due : job.due = [])
    (sound : job.sound = true) : Underway start done notes (c.appendJob job) where
  config := before.config
  commands := before.commands
  writeAcknowledges := before.writeAcknowledges
  believeNotifications := before.believeNotifications
  sound := by
    unfold Cace.appendJob
    dsimp only
    rw [List.all_append, before.sound]
    simp [sound]
  view := by
    have none : dueIn c job = [] := dueIn_none c job due
    have kept := before.view
    unfold Cace.appendJob
    change ((c.jobs ++ [job]).flatMap (dueIn c)).foldl (StoreView.absorb c.ownID)
      (Guarantees.view c) = _
    rw [List.flatMap_append, List.flatMap_cons, none]
    simpa using kept

/-- A job joins whose update is done or due. -/
theorem start_job (before : Underway start done notes c) {m : Message} {job : Job}
    (starts : Starts m c c' job) : Underway start (done ++ [m]) notes (c'.appendJob job) where
  config := starts.absorbs.config.trans before.config
  commands := starts.absorbs.commands.trans before.commands
  writeAcknowledges := starts.absorbs.writeAcknowledges before.writeAcknowledges
  believeNotifications := starts.absorbs.believeNotifications.trans before.believeNotifications
  sound := by
    unfold Cace.appendJob
    dsimp only
    rw [List.all_append, starts.absorbs.jobs, before.sound]
    simp [starts.sound]
  view := by
    have same : c'.ownID = c.ownID := congrArg Config.ownID starts.absorbs.config
    have own : c.ownID = start.ownID := congrArg Config.ownID before.config
    have kept := before.view
    unfold Cace.appendJob
    change ((c'.jobs ++ [job]).flatMap (dueIn c')).foldl (StoreView.absorb c'.ownID)
      (Guarantees.view c') = _
    rw [dueIn_config starts.absorbs.config, same, starts.absorbs.jobs, starts.absorbs.view,
      List.flatMap_append, List.foldl_append, List.foldl_append, ← kept, ← own]
    by_cases safe : c.safeStepMode = true
    · -- the update waits behind those that already wait
      simp [dueIn, safe, starts.due]
    · -- no job waits, and the update is done
      have none : c.jobs.flatMap (dueIn c) = [] := by simp [List.flatMap_eq_nil_iff, dueIn, safe]
      simp [none, safe, dueIn]

end Underway

section Handlers

/-- Whether a message gets past the blacklist and is addressed to the agent. -/
def accepts (c : Cace) (m : Message) : Bool :=
  !c.isBlacklisted m.senderID && (m.receiverID.map c.addressed).getD true

/-- The message as one that gets a job on arrival. -/
def arrived (c : Cace) : Message → List Message
  | .command cc => if accepts c (.command cc) then [.command cc] else []
  | .acknowledge ca => if accepts c (.acknowledge ca) then [.acknowledge ca] else []
  | .write cc => if accepts c (.write cc) then [.write cc] else []
  | _ => []

/-- The message as a notification, which is queued. -/
def noted (c : Cace) : Message → List CaceBelieveNotification
  | .believeNotification cbn => if accepts c (.believeNotification cbn) then [cbn] else []
  | _ => []

/-- The messages of the sequences that the two modes agree on. -/
def Updating : Message → Prop
  | .command _ | .acknowledge _ | .write _ | .believeNotification _ | .shortAck _ | .time _ => True
  | .variableRequest _ | .writeAck _ | .response _ => False

variable {r : Readings} {start c : Cace} {done : List Message}
  {notes : List CaceBelieveNotification}

theorem accepts_config {c c' : Cace} (same : config c' = config c) (m : Message) :
    accepts c' m = accepts c m := by
  have list : c'.agentBlacklist = c.agentBlacklist := congrArg Config.agentBlacklist same
  have own : c'.ownID = c.ownID := congrArg Config.ownID same
  unfold accepts Cace.isBlacklisted
  rw [list, show c'.addressed = c.addressed from funext fun l => by
    unfold Cace.addressed
    rw [own]]

theorem received_absorbs (c : Cace) (m : Message) (t : Nat) :
    Absorbs [] c ((c.observe (.received m)).updateLamportTime t) := by
  refine ⟨.silent rfl rfl rfl rfl ?_, id, rfl⟩
  simp [Cace.updateLamportTime, Cace.observe, appliedMessages]

/-- What survives messages that are sent and jobs that have nothing to do with the store survives
an engagement. -/
theorem agentEngangement_keeps {Holds : Cace → Prop} {id : Int} {updates : Bool}
    (still : ∀ c c', Absorbs [] c c' → Holds c → Holds c')
    (append : ∀ c job, job.due = [] → job.sound = true → Holds c → Holds (c.appendJob job))
    (before : Holds c) : Holds (c.agentEngangement r id updates) := by
  have told (scope : Name) (t : Nat) (entries : List (Name × ConsensusVariable)) :
      ∀ d, Holds d → Holds (entries.foldl (Cace.sendBelieveUpdate r id scope t) d) := by
    induction entries with
    | nil => exact fun _ now => now
    | cons e entries ih =>
      intro d now
      refine ih _ ?_
      unfold Cace.sendBelieveUpdate BelieveNotificationJob.construct
      dsimp only
      split
      · split
        · split
          · exact append _ _ rfl rfl (still _ _ (.foldl (fun _ _ => send_absorbs _ _ _) _ _) now)
          · exact append _ _ rfl rfl now
        · exact now
      · exact now
  have engaged : Absorbs [] c { c with activeRobots := c.activeRobots ++ [id] } :=
    ⟨.silent rfl rfl rfl rfl rfl, fun none => none, rfl⟩
  unfold Cace.agentEngangement
  dsimp only
  split
  · exact before
  · split
    · exact before
    · split
      · exact told _ _ _ _ (still _ _ engaged before)
      · exact still _ _ engaged before

/-- The tests that the handlers begin with. -/
theorem filtered_underway (m : Message) (receivers : List Int) (t : Nat) {c' : Cace}
    {more : List Message} {queued : List CaceBelieveNotification}
    (before : Underway start done notes c) (fields : m.receiverID = some receivers)
    (refused : accepts c m = false → more = [] ∧ queued = [])
    (taken : accepts c m = true →
      Underway start done notes ((c.observe (.received m)).updateLamportTime t) →
      Underway start (done ++ more) (notes ++ queued) c') :
    Underway start (done ++ more) (notes ++ queued)
      (if c.isBlacklisted m.senderID then c
      else if ((c.observe (.received m)).updateLamportTime t).addressed receivers then c'
      else (c.observe (.received m)).updateLamportTime t) := by
  have received := before.still (received_absorbs c m t)
  have tests : accepts c m = (!c.isBlacklisted m.senderID && c.addressed receivers) := by
    rw [accepts, fields]
    rfl
  split
  next listed =>
    obtain ⟨rfl, rfl⟩ := refused (by simp [tests, listed])
    simpa using before
  next passes =>
    split
    next addressed =>
      have known : c.addressed receivers = true := addressed
      exact taken (by simp [tests, passes, known]) received
    next elsewhere =>
      have unknown : ¬ c.addressed receivers = true := elsewhere
      obtain ⟨rfl, rfl⟩ := refused (by simp [tests, unknown])
      simpa using received

theorem handle_underway {m : Message} (before : Underway start done notes c)
    (loud : start.quiet = false) (kind : Updating m) :
    Underway start (done ++ arrived start m) (notes ++ noted start m) (c.handle r m) := by
  have quiet : c.quiet = false := (congrArg Config.quiet before.config).trans loud
  have accepted := accepts_config before.config m
  cases m with
  | command cc =>
    have heard : c.stampedCommand cc = cc := by simp [Cace.stampedCommand, quiet]
    simp only [arrived, noted, Cace.handle, heard, ← accepted]
    refine filtered_underway (.command cc) cc.receiverID cc.lamportTime before rfl
       (fun refused => by simp [refused]) fun taken now => ?_
    rw [if_pos taken, List.append_nil]
    exact now.start_job (commandAcknowledge_starts r _ _ _ cc)
  | acknowledge ca =>
    have heard : c.stampedAcknowledge ca = ca := by simp [Cace.stampedAcknowledge, quiet]
    simp only [arrived, noted, Cace.handle, heard, ← accepted]
    refine filtered_underway (.acknowledge ca) ca.receiverID ca.lamportTime before rfl
       (fun refused => by simp [refused]) fun taken now => ?_
    rw [if_pos taken, List.append_nil]
    exact now.start_job (shortAck_starts r _ _ _ ca)
  | write cc =>
    simp only [arrived, noted, Cace.handle, ← accepted]
    refine filtered_underway (.write cc) cc.receiverID cc.lamportTime before rfl
       (fun refused => by simp [refused]) fun taken now => ?_
    rw [if_pos taken, List.append_nil]
    exact now.start_job (writeAck_starts r _ _ _ cc)
  | believeNotification cbn =>
    simp only [arrived, noted, Cace.handle, ← accepted]
    refine filtered_underway (.believeNotification cbn) cbn.receiverID cbn.lamportTime before rfl
       (fun refused => by simp [refused]) fun taken now => ?_
    rw [if_pos taken, List.append_nil]
    exact { now with
      believeNotifications := congrArg (fun l => l ++ [cbn]) now.believeNotifications }
  | shortAck sa =>
    simp only [arrived, noted, Cace.handle]
    refine filtered_underway (.shortAck sa) sa.receiverID sa.lamportTime before rfl
       (fun _ => ⟨rfl, rfl⟩) fun _ now => ?_
    rw [List.append_nil, List.append_nil]
    exact now.still ⟨.silent rfl rfl rfl rfl rfl, id, rfl⟩
  | time ct =>
    simp only [arrived, noted, Cace.handle, List.append_nil]
    unfold Cace.handleCaceTime
    have received := before.still (received_absorbs c (.time ct) ct.lamportTime)
    dsimp only
    split
    · exact before
    · split
      · exact received
      · exact agentEngangement_keeps (fun _ _ absorbs now => now.still absorbs)
          (fun _ _ due sound now => now.append due sound) received
  | variableRequest | writeAck | response => exact kind.elim

/-- A sequence of received messages, each with the readings of its handler. -/
def deliver (c : Cace) (arrivals : List (Readings × Message)) : Cace :=
  arrivals.foldl (fun c a => c.handle a.1 a.2) c

theorem deliver_underway {arrivals : List (Readings × Message)} {more : List Message}
    {queued : List CaceBelieveNotification} (before : Underway start more queued c)
    (loud : start.quiet = false) (kinds : ∀ a ∈ arrivals, Updating a.2) :
    Underway start (more ++ (arrivals.map Prod.snd).flatMap (arrived start))
      (queued ++ (arrivals.map Prod.snd).flatMap (noted start)) (deliver c arrivals) := by
  induction arrivals generalizing c more queued with
  | nil => simpa [deliver] using before
  | cons a arrivals ih =>
    have rest := ih (handle_underway (r := a.1) before loud (kinds a List.mem_cons_self))
      fun b member => kinds b (List.mem_cons_of_mem _ member)
    simpa [deliver] using rest

end Handlers

section Step

variable {r : Readings} {start c : Cace} {done : List Message}
  {notes : List CaceBelieveNotification}

theorem acceptCommands_underway (before : Underway start done notes c) :
    Underway start done notes (c.acceptCommands r) := by
  unfold Cace.acceptCommands
  rw [before.commands]
  exact { before with commands := rfl }

theorem acceptNotifications_underway (before : Underway start done notes c) :
    Underway start (done ++ notes.map .believeNotification) [] (c.acceptNotifications r) := by
  have fold (l : List CaceBelieveNotification) : ∀ (more : List Message) (d : Cace),
      Underway start more [] d → Underway start (more ++ l.map .believeNotification) []
        (l.foldl (fun c cbn =>
          (BelieveAcknowledgeJob.construct r c [cbn.senderID] c.lamportTime.time cbn).1.appendJob
            (.believeAcknowledge (BelieveAcknowledgeJob.construct r c [cbn.senderID]
              c.lamportTime.time cbn).2)) d) := by
    induction l with
    | nil => exact fun more d now => by simpa using now
    | cons cbn l ih =>
      intro more d now
      have rest := ih _ _ (now.start_job
        (believeAcknowledge_starts r d [cbn.senderID] d.lamportTime.time cbn))
      simpa using rest
  unfold Cace.acceptNotifications
  rw [before.believeNotifications]
  exact fold notes done _ { before with believeNotifications := rfl }

/-- The step lets everything act that waits, and takes expired values away. -/
theorem step_settles (r : Readings) (before : Underway start done notes c) :
    match c.step r with
    | .ok c' => start.jobs.all Job.sound = true ∧
        view c' = StoreView.expire r.distributedTime
          ((done ++ notes.map Message.believeNotification).foldl (StoreView.absorb start.ownID)
            (view start))
    | .error _ => start.jobs.all Job.sound = false := by
  have accepted : Underway start (done ++ notes.map .believeNotification) []
      ((c.acceptCommands r).acceptNotifications r) :=
    acceptNotifications_underway (acceptCommands_underway before)
  have sound := processJobsLoop_sound r 0 ((c.acceptCommands r).acceptNotifications r).jobs _
    accepted.writeAcknowledges
  rw [accepted.sound] at sound
  unfold Cace.step Cace.processJobs
  cases processed : ((c.acceptCommands r).acceptNotifications r).processJobsLoop r 0
      ((c.acceptCommands r).acceptNotifications r).jobs with
  | error fault =>
    rw [processed] at sound
    exact sound.symm
  | ok p =>
    rw [processed] at sound
    refine ⟨sound.symm, ?_⟩
    dsimp only
    rw [view_invalidate, ← accepted.view, ← (processJobsLoop_absorbs r processed).view]
    split <;> rfl

end Step

/-- A non-quiet agent before messages arrive: nothing is queued, and no job has its update
still to do. -/
structure Calm (c : Cace) : Prop where
  loud : c.quiet = false
  commands : c.commands = []
  believeNotifications : c.believeNotifications = []
  shortAcks : c.shortAcks = []
  writeAcknowledges : c.writeAcknowledges = []
  settled : ∀ job ∈ c.jobs, job.due = []

/-- The agent with safe step mode on or off. -/
def inMode (safe : Bool) (c : Cace) : Cace :=
  { c with safeStepMode := safe }

/-- What a sequence of received messages and the step after it leave of the store. -/
def settledView (c : Cace) (t : Nat) (ms : List Message) : StoreView :=
  StoreView.expire t
    ((ms.flatMap (arrived c) ++ (ms.flatMap (noted c)).map Message.believeNotification).foldl
      (StoreView.absorb c.ownID) (view c))

/-- In either mode. -/
theorem mode_settles {c : Cace} (safe : Bool) (r : Readings)
    {arrivals : List (Readings × Message)} (calm : Calm c)
    (kinds : ∀ a ∈ arrivals, Updating a.2) :
    match (deliver (inMode safe c) arrivals).step r with
    | .ok c' => c.jobs.all Job.sound = true ∧
        view c' = settledView c r.distributedTime (arrivals.map Prod.snd)
    | .error _ => c.jobs.all Job.sound = false := by
  have none : (inMode safe c).jobs.flatMap (dueIn (inMode safe c)) = [] :=
    List.flatMap_eq_nil_iff.mpr fun job member => dueIn_none _ job (calm.settled job member)
  have begun : Underway (inMode safe c) [] [] (inMode safe c) :=
    ⟨rfl, calm.commands, calm.writeAcknowledges, calm.believeNotifications, rfl, by rw [none]⟩
  have arrivedSame : arrived (inMode safe c) = arrived c := rfl
  have notedSame : noted (inMode safe c) = noted c := rfl
  have settles := step_settles r (deliver_underway begun calm.loud kinds)
  rw [List.nil_append, List.nil_append, arrivedSame, notedSame] at settles
  exact settles

/-- Both steps leave the same store, up to arrival times, or both fail. -/
inductive SameStore : Except Fault Cace → Except Fault Cace → Prop
  | ok {direct deferred : Cace}
      (views : ∀ x, (direct.getVariable x).map ConsensusVariable.timeless =
        (deferred.getVariable x).map ConsensusVariable.timeless) :
      SameStore (.ok direct) (.ok deferred)
  | error (fault fault' : Fault) : SameStore (.error fault) (.error fault')

/-- Safe step mode makes no difference to the store after the step. -/
theorem deferred_agrees {c : Cace} {arrivals arrivals' : List (Readings × Message)}
    {r r' : Readings} (calm : Calm c) (same : arrivals.map Prod.snd = arrivals'.map Prod.snd)
    (kinds : ∀ a ∈ arrivals, Updating a.2) (time : r.distributedTime = r'.distributedTime) :
    SameStore ((deliver (inMode false c) arrivals).step r)
      ((deliver (inMode true c) arrivals').step r') := by
  have kinds' : ∀ a ∈ arrivals', Updating a.2 := by
    intro a member
    obtain ⟨b, inList, equal⟩ := List.mem_map.mp (same ▸ List.mem_map_of_mem member :
      a.2 ∈ arrivals.map Prod.snd)
    exact equal ▸ kinds b inList
  have direct := mode_settles false r calm kinds
  have deferred := mode_settles true r' calm kinds'
  cases first : (deliver (inMode false c) arrivals).step r with
  | ok d =>
    rw [first] at direct
    cases second : (deliver (inMode true c) arrivals').step r' with
    | ok d' =>
      rw [second] at deferred
      have views : view d = view d' := by rw [direct.2, deferred.2, same, time]
      exact .ok fun x => congrFun views x
    | error fault =>
      rw [second] at deferred
      exact absurd direct.1 (by simp [deferred])
  | error fault =>
    rw [first] at direct
    cases second : (deliver (inMode true c) arrivals').step r' with
    | ok d' =>
      rw [second] at deferred
      exact absurd deferred.1 (by simp [direct])
    | error fault' => exact .error fault fault'

/-- A notification that arrives before a command of another agent, which acts first. -/
def mixed : List Message :=
  [.time ⟨2, 0, 0, 4⟩,
    .believeNotification ⟨2, [1], ['x'], [7], 0, longMax, 70, 1, 5, 0⟩,
    .command ⟨3, [0], ['x'], [9], 0, longMax, 70, 1, 6, 0⟩,
    .write ⟨4, [1], ['y'], [3], 0, longMax, 70, 2, 7, 0⟩,
    .acknowledge ⟨2, [0], ['x'], [9], 1, 8, 0⟩]

theorem deferred_agrees_mixed :
    SameStore
      ((deliver (inMode false (.construct 1 false 10)) (mixed.map (Prod.mk .zero))).step .zero)
      ((deliver (inMode true (.construct 1 false 10)) (mixed.map (Prod.mk late))).step late) :=
  deferred_agrees ⟨rfl, rfl, rfl, rfl, rfl, by simp [Cace.construct]⟩ rfl
    (by simp [mixed, Updating]) rfl

end CaceProofs.Guarantees
