import CaceProofs.Guarantees.HandshakeDepth
import CaceProofs.Guarantees.ModeSwitches

/-!
# Typed values

A value travels with its type tag. A job that repeats its command takes the value from when it
was made, and the tag from the variable as it is by then.
-/
namespace CaceProofs.Guarantees
open Source Library

/-- What a typed call of `distributeValue` hands over. -/
inductive Typed : Int → Bytes → Prop
  | int (value : Int) : Typed typeCInt (Believe.intBytes value)
  | double (value : CDouble) : Typed typeCDouble value.bytes

/-- Such a call is one of the two. -/
theorem Typed.call {type : Int} {value : Bytes} (typed : Typed type value) (r : Readings)
    (c : Cace) (name : Name) (strategy : AcceptStrategy) :
    (∃ i, CaceSpace.distributeValue r c name value type strategy =
        CaceSpace.distributeInt r c name i strategy) ∨
      ∃ d, CaceSpace.distributeValue r c name value type strategy =
        CaceSpace.distributeDouble r c name d strategy := by
  cases typed with
  | int i => exact .inl ⟨i, rfl⟩
  | double d => exact .inr ⟨d, rfl⟩

theorem Typed.length {type : Int} {value : Bytes} (typed : Typed type value) :
    (type = typeCInt ∧ value.length = 4) ∨ (type = typeCDouble ∧ value.length = 8) := by
  cases typed with
  | int => exact .inl ⟨rfl, rfl⟩
  | double value => exact .inr ⟨rfl, value.size⟩

/-- The tag survives the cast to a byte, and is not the one that `update` skips. -/
theorem Typed.tag {type : Int} {value : Bytes} (typed : Typed type value) :
    toTypeTag type = type ∧ type ≠ 0 := by
  cases typed <;> decide

/-- The pairs that the calls hand over for one variable. -/
structure Offers where
  pairs : List (Int × Bytes)
  typed : ∀ p ∈ pairs, Typed p.1 p.2

section Variable

variable {o : Offers} {x : Name} {cv : ConsensusVariable}

/-- A belief in one of the pairs, at a level that is distributed. -/
def Held (o : Offers) (b : Believe) : Prop :=
  DefaultLevel b.strategy ∧ (b.type, b.val) ∈ o.pairs

/-- An update copies value and tag of the other belief together. -/
theorem Held.update {b v : Believe} (held : Held o v) : Held o (b.update v) := by
  refine ⟨held.1, ?_⟩
  have tagged := (o.typed _ held.2).tag.2
  simpa [Believe.update, tagged] using held.2

theorem Held.accepted (held : Graded (Held o) x cv) :
    Held o (cv.acceptProposals none).toBelieve := by
  have own := held _ List.mem_cons_self
  obtain ⟨winner, loop, member, -⟩ := acceptLoop_default own.2.1.default cv.proposals none
  unfold ConsensusVariable.acceptProposals
  rw [loop]
  cases winner with
  | none => exact own.2
  | some v => exact Held.update (held v member).2

/-- The first update of a variable takes over what is reported. -/
theorem Held.created {u : ProposalUpdate}
    (level : DefaultLevel u.own.strategy ∧ DefaultLevel u.co.strategy)
    (offered : (u.type, u.value) ∈ o.pairs) :
    Held o u.co ∧ Held o (Guarantees.updated u none).toBelieve := by
  have co : Held o u.co := by
    refine ⟨level.2, ?_⟩
    rw [u.co_records.2.1, u.co_records.2.2.1]
    exact offered
  refine ⟨co, ?_⟩
  unfold Guarantees.updated ConsensusVariable.acceptProposals
  simp only [List.foldl_cons, List.foldl_nil, Believe.acceptStep, Believe.accept,
    level.1.default, Believe.defaultAcceptStrategy, Believe.setCommanded, Option.getD_none]
  split
  next winner found =>
    split at found
    · cases found
    · exact Option.some.inj found ▸ Held.update co
  next =>
    refine ⟨level.1, ?_⟩
    have type : (u.own.setValue u.value).type = u.type := u.own_unset.2
    rw [type]
    exact offered

/-- A report about the variable says one of the pairs. -/
def Paired (o : Offers) (x : Name) (m : Message) : Prop :=
  ∀ report, m.report? = some report → report.variableName = x →
    (report.type, report.value) ∈ o.pairs

theorem Paired.heard {c : Cace} {m : Message} (paired : Paired o x m) :
    Paired o x (Guarantees.heard c m) := by
  intro report reports about
  obtain ⟨t, sent⟩ := heard_report reports
  exact paired { report with lamportTime := t } sent about

theorem Held.updated {u : ProposalUpdate} {old : Option ConsensusVariable}
    (here : u.variableName = x) (carries : Carries DefaultLevel x u.message)
    (paired : Paired o x u.message) (before : ∀ cv, old = some cv → Graded (Held o) x cv) :
    Graded (Held o) x (updated u old) := by
  have offered : (u.type, u.value) ∈ o.pairs := paired _ u.message_report here
  have kept : ∀ s : AcceptStrategy, DefaultLevel s →
      DefaultLevel (u.message.strategy?.getD s) := by
    intro s level
    cases carried : u.message.strategy? with
    | none => exact level
    | some s' => exact carries _ u.message_report here s' carried
  obtain ⟨overwrites, freshens, owns, joins⟩ := u.strategies
  refine Graded.updated here ⟨fun cv held => Held.accepted held, fun b held => ?_,
    fun b held => ?_⟩ (fun _ => ?_) before
  · obtain ⟨-, value, type, -⟩ := u.overwrite_records b
    refine ⟨overwrites b ▸ kept _ held.1, ?_⟩
    rw [value, type]
    exact offered
  · obtain ⟨-, value, type, -⟩ := u.fresh_records b
    refine ⟨freshens b ▸ kept _ held.1, ?_⟩
    rw [value, type]
    exact offered
  · refine Held.created ?_ offered
    rw [owns, joins]
    exact ⟨kept _ (.inr (.inr rfl)), kept _ (.inr (.inr rfl))⟩

end Variable

section Agent

variable {o : Offers} {r : Readings} {x : Name} {c c' : Cace}

/-- The command of a first transmission. -/
def firstCommand? : Observation → Option CaceCommand
  | .published (.command cmd) .first => some cmd
  | .published _ _ | .received _ | .applied _ | .notified _ => none

/-- The commands that an agent has sent for the first time. -/
def commandsSent (c : Cace) : List CaceCommand :=
  c.history.filterMap firstCommand?

theorem mem_commandsSent {cmd : CaceCommand} :
    cmd ∈ commandsSent c ↔ .published (.command cmd) .first ∈ c.history := by
  constructor
  · intro member
    obtain ⟨observed, inHistory, same⟩ := List.mem_filterMap.mp member
    unfold firstCommand? at same
    split at same
    next => exact Option.some.inj same ▸ inHistory
    all_goals cases same
  · exact fun published => List.mem_filterMap.mpr ⟨_, published, rfl⟩

/-- The variable of a job still has the tag that its command was first sent with. -/
def TagKept (c : Cace) (j : CommandJob) : Prop :=
  ∃ cmd ∈ commandsSent c, cmd.variableName = (c.deref j.variablePtr).name ∧
    cmd.msgID = toShort j.msgID ∧ cmd.value = j.value ∧
    cmd.type = toTypeTag (c.deref j.variablePtr).type

instance (c : Cace) (j : CommandJob) : Decidable (TagKept c j) :=
  inferInstanceAs (Decidable (∃ cmd ∈ commandsSent c, _ ∧ _ ∧ _ ∧ _))

theorem TagKept.later {d : Cace} {j : CommandJob} (kept : TagKept c j) (only : OnlySends c d) :
    TagKept d j := by
  obtain ⟨cmd, first, same⟩ := kept
  refine ⟨cmd, mem_commandsSent.mpr (only.history.subset (mem_commandsSent.mp first)), ?_⟩
  rw [only.deref]
  exact same

/-- The calls decide the variable themselves, nothing is passed or written, what is heard of
the variable is one of the pairs, and commands about it are repeated with their tag only. -/
def typedly (o : Offers) (x : Name) : Licence where
  passes _ := False
  decides name := name ≠ x
  receives m := Paired o x m ∧ Carries DefaultLevel x m ∧ ∀ cmd, m ≠ .write cmd
  repeats c j := (c.deref j.variablePtr).name = x → TagKept c j

/-- The job that answers a command points at nothing before its update, and then at the variable
that it has updated. -/
structure Points (c : Cace) (j : CommandAcknowledgeJob) : Prop where
  none : j.cv = none → j.attempts = 0 ∧ c.safeStepMode = true
  some : ∀ variablePtr, j.cv = some variablePtr →
    variablePtr = .stored j.command.variableName ∧ .applied (.command j.command) ∈ c.history

/-- An agent that holds and says nothing but the pairs. -/
structure Honest (o : Offers) (x : Name) (c : Cace) : Prop where
  queued : c.Queued
  received : ∀ m, .received m ∈ c.history → (typedly o x).receives m
  published : ∀ m t, .published m t ∈ c.history → Carries DefaultLevel x m ∧ Paired o x m
  shelved : Shelved (Held o) x c
  presents : ∀ job ∈ c.jobs, Presents (typedly o x) job
  knows : KnowsReported c
  points : ∀ j, .commandAcknowledge j ∈ c.jobs → Points c j

/-- What a variable says of itself. -/
theorem Held.tells {cv : ConsensusVariable} (held : Graded (Held o) x cv) :
    (toTypeTag cv.type, cv.val) ∈ o.pairs ∧ DefaultLevel ⟨toShort cv.strategy.code⟩ := by
  obtain ⟨level, pair⟩ := (held _ List.mem_cons_self).2
  rw [(o.typed _ pair).tag.1]
  exact ⟨pair, level.sent⟩

namespace Honest

/-- Whatever a report has updated under the name is the variable. -/
theorem updated (before : Honest o x c) {m : Message} {report : Report}
    (applied : .applied m ∈ c.history) (reports : m.report? = some report)
    (about : (c.deref (.stored report.variableName)).name = x) :
    Graded (Held o) x (c.deref (.stored report.variableName)) := by
  obtain ⟨cv, known⟩ := Option.ne_none_iff_exists'.mp (before.knows m report applied reports)
  rw [deref_stored, known] at about ⊢
  by_cases here : report.variableName = x
  · exact before.shelved.known cv (here ▸ known)
  · exact absurd about (before.shelved.others _ cv known here).1

/-- What is announced under the name is the variable. -/
theorem announced (before : Honest o x c) {variablePtr : VariablePtr}
    (pointed : Pointed (typedly o x) variablePtr)
    (level : .noDistribution < (c.deref variablePtr).strategy)
    (about : (c.deref variablePtr).name = x) : Graded (Held o) x (c.deref variablePtr) := by
  refine before.shelved.announced ?_ level about
  rintro cv rfl
  exact pointed.elim

/-- The job that answers a command reads the variable that it has updated. -/
theorem answers (before : Honest o x c) {j : CommandAcknowledgeJob}
    (member : .commandAcknowledge j ∈ c.jobs) {variablePtr : Option VariablePtr}
    (pointer : variablePtr = j.cv ∧ ¬ (j.attempts = 0 ∧ c.safeStepMode = true) ∨
      variablePtr = some (.stored j.command.variableName) ∧
        .applied (.command j.command) ∈ c.history) :
    variablePtr = some (.stored j.command.variableName) ∧
      .applied (.command j.command) ∈ c.history := by
  rcases pointer with ⟨rfl, early⟩ | now
  · have points := before.points j member
    cases pointed : j.cv with
    | none => exact absurd (points.none pointed) early
    | some variablePtr =>
      obtain ⟨rfl, applied⟩ := points.some variablePtr pointed
      exact ⟨rfl, applied⟩
  · exact now

theorem published_effect (effect : Effect r (typedly o x) c c') (before : Honest o x c)
    {m : Message} {t : Transmission} (published : .published m t ∈ c'.history) :
    Carries DefaultLevel x m ∧ Paired o x m := by
  have silent : ∀ {m : Message}, m.report? = none → Carries DefaultLevel x m ∧ Paired o x m := by
    intro m reportless
    refine ⟨fun report reports => ?_, fun report reports => ?_⟩
    all_goals
      rw [reportless] at reports
      cases reports
  have tells : ∀ (m : Message) (cv : ConsensusVariable) (report : Report),
      (cv.name = x → Graded (Held o) x cv) → m.report? = some report →
      report.variableName = cv.name → report.type = toTypeTag cv.type → report.value = cv.val →
      (∀ strategy, m.strategy? = some strategy → strategy = ⟨toShort cv.strategy.code⟩) →
      Carries DefaultLevel x m ∧ Paired o x m := by
    intro m cv report graded reports name type value level
    refine ⟨fun report' reports' about strategy carried => ?_, fun report' reports' about => ?_⟩
    all_goals
      obtain rfl := Option.some.inj (reports.symm.trans reports')
      have held := Held.tells (graded (name.symm.trans about))
    · exact level strategy carried ▸ held.2
    · rw [type, value]
      exact held.1
  rcases effect.published published with
    old | ⟨d, moment, -, ⟨-, content⟩ | ⟨rfl, job, member, content, allowed⟩⟩
  · exact before.published m t old
  · cases content with
    | command variablePtr pointed level =>
      exact tells _ _ _ (before.announced pointed level) rfl rfl rfl rfl fun strategy carried =>
        (Option.some.inj carried).symm
    | notification name receiver msgID level =>
      have pointed : Pointed (typedly o x) (.stored name) := trivial
      exact tells _ _ _ (before.announced pointed level) rfl rfl rfl rfl fun strategy carried =>
        (Option.some.inj carried).symm
    | acknowledge cmd id received named applied =>
      exact tells _ _ _ (before.updated applied rfl) rfl rfl rfl rfl fun strategy none => by
        cases none
    | answer cbn id receiver received named applied =>
      exact tells _ _ _ (before.updated applied rfl) rfl rfl rfl rfl fun strategy none => by
        cases none
    | shortAck | writeAck | write | request | response => exact silent rfl
  · have presents := before.presents job member
    cases content with
    | command j i level =>
      have graded := before.announced presents (handshake_distributed level)
      refine ⟨fun report reports about strategy carried => ?_, fun report reports about => ?_⟩
      · obtain rfl := Option.some.inj reports
        obtain rfl := Option.some.inj carried
        exact (Held.tells (graded about)).2
      · -- the pair is the one of the first transmission
        obtain rfl := Option.some.inj reports
        obtain ⟨cmd, first, name, -, value, type⟩ := allowed j rfl about
        have pair : (cmd.type, cmd.value) ∈ o.pairs :=
          (before.published _ _ (mem_commandsSent.mp first)).2 _ rfl (name.trans about)
        rw [value, type] at pair
        exact pair
    | notification j i level =>
      exact tells _ _ _ (before.announced presents (handshake_distributed level)) rfl rfl rfl rfl
        fun strategy carried => (Option.some.inj carried).symm
    | acknowledge j i variablePtr time pointer =>
      obtain ⟨rfl, applied⟩ := before.answers member pointer
      exact tells _ _ _ (before.updated applied rfl) rfl rfl rfl rfl fun strategy none => by
        cases none
    | answer j i =>
      have held : Message.believeNotification j.notification ∈ c.queues.held :=
        List.mem_append_right _ (List.mem_flatMap.mpr ⟨_, member, List.mem_singleton_self _⟩)
      obtain ⟨paired, -⟩ := before.received _ (before.queued.received _ held)
      refine ⟨fun report reports about strategy none => (by cases none),
        fun report reports about => ?_⟩
      obtain rfl := Option.some.inj reports
      have pair : (j.notification.type, j.notification.value) ∈ o.pairs := paired _ rfl about
      rw [show toTypeTag j.notification.type = j.notification.type from (o.typed _ pair).tag.1]
      exact pair
    | write | request => exact silent rfl

/-- What catching up leaves the job pointing at. -/
theorem points_catchUp {d : Cace} {j : CommandAcknowledgeJob} (points : Points c j)
    (mode : d.safeStepMode = c.safeStepMode) :
    (j.catchUp r d).2.command = j.command ∧
      (j.catchUp r d).2.cv = some (.stored j.command.variableName) ∧
      (.applied (.command j.command) ∈ c.history ∨
        .applied (.command j.command) ∈ (j.catchUp r d).1.history) := by
  have applied := applied_commandUpdate r d j.command
  unfold CommandAcknowledgeJob.catchUp
  dsimp only
  split
  next late =>
    split
    · exact ⟨rfl, rfl, .inr ((send_onlySends _ _ _).history.subset applied)⟩
    · exact ⟨rfl, rfl, .inr applied⟩
  next early =>
    cases pointed : j.cv with
    | none => exact absurd (mode ▸ points.none pointed) early
    | some variablePtr =>
      obtain ⟨rfl, earlier⟩ := points.some variablePtr pointed
      exact ⟨rfl, rfl, .inl earlier⟩

/-- So does `process()`, which answers later. -/
theorem points_process {d : Cace} {j : CommandAcknowledgeJob} (points : Points c j)
    (mode : d.safeStepMode = c.safeStepMode) :
    (j.process r d).2.1.command = j.command ∧
      (j.process r d).2.1.cv = some (.stored j.command.variableName) ∧
      (.applied (.command j.command) ∈ c.history ∨
        .applied (.command j.command) ∈ (j.process r d).1.history) := by
  obtain ⟨same, pointed, applied⟩ := @points_catchUp r c d j points mode
  unfold CommandAcknowledgeJob.process
  dsimp only
  split
  · refine ⟨same, pointed, applied.imp_right fun now => ?_⟩
    split
    · exact (resendLoop_onlySends _ fun d i =>
        publishUnlessQuiet_onlySends d _ _).history.subset now
    · exact now
  · exact ⟨same, pointed, applied⟩

theorem points_effect (effect : Effect r (typedly o x) c c') (before : Honest o x c)
    {j : CommandAcknowledgeJob} (member : .commandAcknowledge j ∈ c'.jobs) : Points c' j := by
  have modes : c'.safeStepMode = c.safeStepMode := congrArg Config.safeStepMode effect.config
  cases effect.jobs member with
  | kept old =>
    have points := before.points j old
    exact ⟨fun none => modes ▸ points.none none, fun variablePtr pointed =>
      ⟨(points.some _ pointed).1, effect.history.subset (points.some _ pointed).2⟩⟩
  | processed old d d' finished k there earlier done later =>
    cases old with
    | commandAcknowledge old =>
      obtain ⟨rfl, rfl, -⟩ : d' = (old.process (r.forJob k) d).1 ∧
          j = (old.process (r.forJob k) d).2.1 ∧ finished = (old.process (r.forJob k) d).2.2 := by
        simpa [Job.process, eq_comm] using done
      obtain ⟨same, pointed, applied⟩ := @points_process (r.forJob k) c d old
        (before.points old there) (congrArg Config.safeStepMode earlier.config)
      have now : .applied (.command old.command) ∈ c.history :=
        applied.elim id (later.subset ·)
      refine ⟨fun none => ?_, fun variablePtr points => ?_⟩
      · rw [pointed] at none
        cases none
      · rw [same]
        exact ⟨(Option.some.inj (pointed.symm.trans points)).symm, effect.history.subset now⟩
    | write old =>
      simp only [Job.process] at done
      split at done
      · cases done
      · cases done
    | command | believeNotification | believeAcknowledge | shortAck | writeAck | request =>
      cases done
  | created d d' earlier made later =>
    cases made with
    | commandAcknowledge cmd =>
      have mode : d.safeStepMode = c'.safeStepMode :=
        (congrArg Config.safeStepMode earlier.config).trans modes.symm
      have applied := applied_commandUpdate r d cmd
      unfold CommandAcknowledgeJob.construct at later ⊢
      dsimp only at later ⊢
      split
      next safe =>
        exact ⟨fun _ => ⟨rfl, mode ▸ safe⟩, fun p none => absurd none (Option.some_ne_none p).symm⟩
      next direct =>
        rw [if_neg direct] at later
        have now : .applied (.command cmd) ∈ c.history := by
          split at later
          · exact later.subset ((publishUnlessQuiet_onlySends _ _ _).history.subset applied)
          · exact later.subset applied
        have stored : ∀ variablePtr, some (VariablePtr.stored cmd.variableName) = some variablePtr →
            variablePtr = .stored cmd.variableName ∧ .applied (.command cmd) ∈ c'.history :=
          fun _ same => ⟨(Option.some.inj same).symm, effect.history.subset now⟩
        split
        · exact ⟨fun none => absurd none (Option.some_ne_none _), stored⟩
        · exact ⟨fun none => absurd none (Option.some_ne_none _), stored⟩

theorem effect (effect : Effect r (typedly o x) c c') (before : Honest o x c) :
    Honest o x c' := by
  refine ⟨effect.queued before.queued, fun m received => ?_, fun m t published =>
    before.published_effect effect published, ?_, fun job member =>
    effect.presents before.presents member, before.knows.effect effect,
    fun j member => before.points_effect effect member⟩
  · rcases effect.received received with old | ⟨-, heard, -⟩
    · exact before.received m old
    · exact heard
  · refine before.shelved.effect effect (fun _ given => given.elim) (fun chosen => chosen rfl)
      (fun cmd heard => absurd rfl ((before.received _ heard).2.2 cmd)) (fun _ held => held)
      (fun _ _ _ held => held.update) ?_
    rintro u - here heard
    obtain ⟨paired, carries, -⟩ := before.received _ heard
    exact Held.updated here carries paired fun cv stored => before.shelved.known cv stored

theorem path (path : Path r (typedly o x) c c') (before : Honest o x c) : Honest o x c' :=
  preserved_by_steps (fun _ _ step before => before.effect step) path before

/-- The pairs can only become more. -/
theorem mono {o' : Offers} (more : o.pairs ⊆ o'.pairs) (before : Honest o x c) :
    Honest o' x c := by
  have paired : ∀ m, Paired o x m → Paired o' x m := fun m paired report reports about =>
    more (paired report reports about)
  have graded : ∀ cv, Graded (Held o) x cv → Graded (Held o') x cv := fun cv held b member =>
    ⟨(held b member).1, (held b member).2.1, more (held b member).2.2⟩
  refine ⟨before.queued, fun m received => ?_, fun m t published => ?_,
    ⟨fun cv known => graded cv (before.shelved.known cv known), before.shelved.others⟩,
    fun job member => ?_, before.knows, before.points⟩
  · obtain ⟨said, rest⟩ := before.received m received
    exact ⟨paired m said, rest⟩
  · obtain ⟨carries, said⟩ := before.published m t published
    exact ⟨carries, paired m said⟩
  · have presents := before.presents job member
    cases job <;> exact presents

/-- The agent decides one of the pairs. -/
theorem decideValue {value : Bytes} {type : Int} {strategy : AcceptStrategy}
    (before : Honest o x c) (level : DefaultLevel strategy) (offered : (type, value) ∈ o.pairs) :
    Honest o x (CaceSpace.decideValue r c x value type strategy) := by
  have effect : Effect r {} c (CaceSpace.decideValue r c x value type strategy) :=
    .decide x value type strategy trivial
  have frame := decideValue_frame r c x value type strategy
  have history : (CaceSpace.decideValue r c x value type strategy).history = c.history := by
    rw [frame]
  have jobs : (CaceSpace.decideValue r c x value type strategy).jobs = c.jobs := by
    rw [frame]
  refine ⟨effect.queued before.queued, ?_, ?_, ?_, ?_, before.knows.effect effect, ?_⟩
  · rw [history]
    exact before.received
  · rw [history]
    exact before.published
  · refine before.shelved.decideValue fun _ => ⟨?_, ?_⟩
    · cases c.getVariable x <;> exact level
    · cases c.getVariable x <;> exact offered
  · rw [jobs]
    exact before.presents
  · intro j member
    rw [jobs] at member
    obtain ⟨none, some⟩ := before.points j member
    have mode : (CaceSpace.decideValue r c x value type strategy).safeStepMode =
        c.safeStepMode := by
      rw [frame]
    exact ⟨mode ▸ none, history ▸ some⟩

end Honest

/-- Variables are written by the typed calls only, at the default levels. -/
def WritesTyped (e : Readings × Cace.Event) : Prop :=
  match e.2 with
  | .distributeValue _ value type strategy => Typed type value ∧ DefaultLevel strategy
  | .handle m => ∀ cmd, m ≠ .write cmd
  | .distributeVariable _ | .addVariable _ _ | .writeVariable _ _ | .pNoBlock _ _ _ | .v _ => False
  | .requestVariable _ _ | .agentEngangement _ _ | .step => True

/-- A job that is about to send a command about the variable again finds the tag as it was. -/
def KeepsTag (x : Name) (r : Readings) (c : Cace) : Job → Prop
  | .command j => ResendsCommand r c j → (c.deref j.variablePtr).name = x → TagKept c j
  | .commandAcknowledge _ | .believeNotification _ | .believeAcknowledge _ | .shortAck _ | .write _
  | .writeAck _ | .request _ => True

instance (x : Name) (r : Readings) (c : Cace) : DecidablePred (KeepsTag x r c)
  | .command j => inferInstanceAs (Decidable (_ → _ → TagKept c j))
  | .commandAcknowledge _ | .believeNotification _ | .believeAcknowledge _ | .shortAck _ | .write _
  | .writeAck _ | .request _ => inferInstanceAs (Decidable True)

/-- In a step, every job finds the tag as it was when its `process()` begins. -/
def KeepsTags (x : Name) (c : Cace) : Readings × Cace.Event → Prop
  | (r, .step) => ∀ v ∈ stepVisits r c, KeepsTag x (r.forJob v.1) v.2.2 v.2.1
  | _ => True

theorem KeepsTag.within {job : Job} (keeps : KeepsTag x r c job) :
    ResendsWithin (typedly o x) r c job := by
  rintro j rfl resends d only about
  rw [only.deref] at about
  exact TagKept.later (keeps resends about) only

/-- One event whose pair, if it hands one over for the variable, is among the pairs. -/
theorem Honest.next {e : Readings × Cace.Event} (next : c.Next e c') (writes : WritesTyped e)
    (keeps : KeepsTags x c e)
    (offered : ∀ value type strategy, e.2 = .distributeValue x value type strategy →
      (type, value) ∈ o.pairs)
    (hears : ∀ m, e.2 = .handle m → Paired o x m ∧ Carries DefaultLevel x m)
    (before : Honest o x c) : Honest o x c' := by
  obtain ⟨r, e⟩ := e
  have admitted : Admits (typedly o x) c e → Honest o x c' := fun admitted =>
    before.path (exec_path before.queued admitted next)
  cases e with
  | distributeValue name value type strategy =>
    by_cases here : name = x
    · subst here
      obtain rfl := Except.ok.inj next
      have decided : Honest o name (CaceSpace.decideValue r c name value type strategy) :=
        before.decideValue writes.2 (offered value type strategy rfl)
      exact decided.path (distributeValue_rest decided.queued)
    · exact admitted here
  | handle m =>
    obtain ⟨paired, carries⟩ := hears m rfl
    refine admitted ⟨⟨paired.heard, carries.heard, fun cmd same => ?_⟩, fun _ => trivial,
      fun _ _ _ => trivial⟩
    cases m with
    | write => exact writes _ rfl
    | command | acknowledge | believeNotification | shortAck | writeAck | time | variableRequest
    | response => cases same
  | step =>
    exact before.path (step_path before.queued (fun _ _ => trivial) (fun _ _ _ _ _ => trivial)
      (fun v member => (keeps v member).within) trivial next)
  | requestVariable | agentEngangement => exact admitted trivial
  | distributeVariable | addVariable | writeVariable | pNoBlock | v => exact writes.elim

end Agent

section System

variable {x : Name} {start s : System} {trace : List (System × System.Event)}

/-- The pair that an event hands over for a variable. -/
def offer? (x : Name) : System.Event → Option (Int × Bytes)
  | .call _ _ (.distributeValue name value type _) =>
    if name = x then some (type, value) else none
  | .call _ _ _ | .deliver _ _ _ | .duplicate _ _ _ | .lose _ _ => none

/-- The pairs that the calls of a run hand over for a variable. -/
def offers (x : Name) (trace : List (System × System.Event)) : List (Int × Bytes) :=
  trace.filterMap fun p => offer? x p.2

theorem local_offer {e : System.Event} {id : Int} {r : Readings} {value : Bytes} {type : Int}
    {strategy : AcceptStrategy}
    (event : localEvent id e = some (r, .distributeValue x value type strategy)) :
    offer? x e = some (type, value) := by
  cases e with
  | call i r' e =>
    obtain ⟨-, -, rfl⟩ : i = id ∧ r' = r ∧ e = .distributeValue x value type strategy := by
      simpa [localEvent] using event
    simp [offer?]
  | deliver i r' m | duplicate i r' m =>
    simp [localEvent] at event
  | lose => cases event

/-- All that the agents hold and say are pairs of calls. -/
def AllHonest (o : Offers) (x : Name) (s : System) : Prop :=
  ∀ id, Honest o x (s.agents id)

theorem AllHonest.step {o o' : Offers} {s' : System} {e : System.Event} (traced : Traced s)
    (before : AllHonest o x s) (next : s.Next e s') (more : o.pairs ⊆ o'.pairs)
    (offered : ∀ p ∈ offer? x e, p ∈ o'.pairs)
    (writes : ∀ id, ∀ l ∈ localEvent id e, WritesTyped l)
    (keeps : ∀ id, ∀ l ∈ localEvent id e, KeepsTags x (s.agents id) l) : AllHonest o' x s' := by
  intro id
  have agent := system_next next id
  cases event : localEvent id e with
  | none =>
    rw [event] at agent
    exact agent ▸ (before id).mono more
  | some l =>
    rw [event] at agent
    refine ((before id).mono more).next agent (writes id l event) (keeps id l event) ?_ ?_
    · rintro value type strategy called
      obtain ⟨r, e'⟩ := l
      obtain rfl := called
      exact offered _ (local_offer event)
    · -- what it handles, another agent has published
      intro m handled
      obtain ⟨r, e'⟩ := l
      obtain rfl := handled
      obtain ⟨i, -, -, t, published⟩ := traced.inFlight id m (local_flight next event)
      obtain ⟨carries, paired⟩ := ((before i).mono more).published m t published
      exact ⟨paired, carries⟩

theorem typed_offers (writes : ∀ p ∈ trace, ∀ id, ∀ l ∈ localEvent id p.2, WritesTyped l) :
    ∀ p ∈ offers x trace, Typed p.1 p.2 := by
  intro p member
  obtain ⟨⟨s, e⟩, inTrace, offered⟩ := List.mem_filterMap.mp member
  cases e with
  | call i r e =>
    have typed := writes _ inTrace i (r, e) (by simp [localEvent])
    cases e with
    | distributeValue name value type strategy =>
      dsimp only [offer?] at offered
      split at offered
      · obtain rfl := Option.some.inj offered
        exact typed.1
      · cases offered
    | distributeVariable | addVariable | writeVariable | requestVariable | pNoBlock | v
    | agentEngangement | step | handle => cases offered
  | deliver | duplicate | lose => cases offered

theorem allHonest_run (quiescent : Quiescent start)
    (unknown : ∀ id, (start.agents id).store = []) (run : start.Runs trace s)
    (writes : ∀ p ∈ trace, ∀ id, ∀ l ∈ localEvent id p.2, WritesTyped l)
    (keeps : ∀ p ∈ trace, ∀ id, ∀ l ∈ localEvent id p.2, KeepsTags x (p.1.agents id) l) :
    AllHonest ⟨offers x trace, typed_offers writes⟩ x s := by
  induction run with
  | nil =>
    intro id
    have idle := quiescent.idle id
    have none := getVariable_of_empty (unknown id)
    refine ⟨idle_queued idle, ?_, ?_, ⟨?_, ?_⟩, ?_, ?_, ?_⟩
    · simp [idle.history]
    · simp [idle.history]
    · simp [none]
    · simp [none]
    · simp [idle.jobs]
    · simp [KnowsReported, idle.history]
    · simp [idle.jobs]
  | @step trace s s' e run next ih =>
    have last : (s, e) ∈ trace ++ [(s, e)] := by simp
    have before := ih (fun p member => writes p (List.mem_append_left _ member))
      fun p member => keeps p (List.mem_append_left _ member)
    have grown : offers x (trace ++ [(s, e)]) = offers x trace ++ (offer? x e).toList := by
      unfold offers
      rw [List.filterMap_append]
      cases offered : offer? x e <;> simp [offered]
    refine before.step (traced quiescent run) next ?_ ?_ (writes _ last) (keeps _ last)
    · change offers x trace ⊆ offers x (trace ++ [(s, e)])
      rw [grown]
      exact List.subset_append_left _ _
    · intro p offered
      change p ∈ offers x (trace ++ [(s, e)])
      rw [grown]
      exact List.mem_append_right _ (Option.mem_toList.mpr offered)

/-- In a run in which every job that sends a command again finds the tag that it was first sent
with, every pair of tag and value that is held or in flight for a variable is one that a typed
call handed over. -/
theorem typed_values (quiescent : Quiescent start)
    (unknown : ∀ id, (start.agents id).store = []) (run : start.Runs trace s)
    (writes : ∀ p ∈ trace, ∀ id, ∀ l ∈ localEvent id p.2, WritesTyped l)
    (keeps : ∀ p ∈ trace, ∀ id, ∀ l ∈ localEvent id p.2, KeepsTags x (p.1.agents id) l) :
    (∀ p ∈ offers x trace, Typed p.1 p.2) ∧
      (∀ id cv, (s.agents id).getVariable x = some cv → ∀ b ∈ cv.toBelieve :: cv.proposals,
        (b.type, b.val) ∈ offers x trace) ∧
      ∀ id m report, (id, m) ∈ s.flight → m.report? = some report → report.variableName = x →
        (report.type, report.value) ∈ offers x trace := by
  have honest := allHonest_run quiescent unknown run writes keeps
  refine ⟨typed_offers writes, fun id cv known b member => ?_,
    fun id m report inFlight reports about => ?_⟩
  · exact ((honest id).shelved.known cv known b member).2.2
  · obtain ⟨i, -, -, t, published⟩ := (traced quiescent run).inFlight id m inFlight
    exact ((honest i).published m t published).2 report reports about

end System

section Examples

/-- One tick later. -/
def later : Readings := .still 1 1

/-- Agent 1 knows agent 2, and distributes the int 7 and a double of zeros. It repeats its
commands between the two calls, or after them. -/
def retyping (between : Bool) : List System.Event :=
  let int := .distributeValue ['x'] (Believe.intBytes 7) typeCInt .twoWayHandShake
  let double := .distributeValue ['x'] (List.replicate 8 0) typeCDouble .twoWayHandShake
  .call 1 .zero (.agentEngangement 2 false) :: .call 1 .zero int ::
    if between then [.call 1 later .step, .call 1 .zero double]
    else [.call 1 .zero double, .call 1 later .step]

theorem retyping_typed :
    (∀ strategy, DefaultLevel strategy → ∀ r, WritesTyped (r, .distributeValue ['x']
      (Believe.intBytes 7) typeCInt strategy)) ∧
    ∀ strategy, DefaultLevel strategy → ∀ r, WritesTyped (r, .distributeValue ['x']
      (List.replicate 8 0) typeCDouble strategy) :=
  ⟨fun _ level _ => ⟨.int 7, level⟩, fun _ level _ => ⟨.double ⟨List.replicate 8 0, rfl⟩, level⟩⟩

/-- Repeated before the second call, the first command is the same again. -/
theorem typed_values_settled : ∃ trace s,
    (newSystem [1, 2]).play (retyping true) = some (trace, s) ∧
      offers ['x'] trace = [(2, [7, 0, 0, 0]), (1, List.replicate 8 0)] ∧
      ∀ id m report, (id, m) ∈ s.flight → m.report? = some report → report.variableName = ['x'] →
        (report.type, report.value) ∈ offers ['x'] trace := by
  have played : (newSystem [1, 2]).play (retyping true) = some _ := rfl
  obtain ⟨run, -⟩ := System.play_runs played
  refine ⟨_, _, played, by decide,
    (typed_values (newSystem_quiescent [1, 2]) (fun _ => rfl) run ?_ ?_).2.2⟩
  · refine List.forall_mem_cons.mpr ⟨fun id => local_call fun _ => trivial,
      List.forall_mem_cons.mpr ⟨fun id => local_call fun _ => ?_,
        List.forall_mem_cons.mpr ⟨fun id => local_call fun _ => trivial,
          List.forall_mem_cons.mpr ⟨fun id => local_call fun _ => ?_, by simp⟩⟩⟩⟩
    · exact retyping_typed.1 _ (.inr (.inl rfl)) _
    · exact retyping_typed.2 _ (.inr (.inl rfl)) _
  · refine List.forall_mem_cons.mpr ⟨fun id => local_call fun _ => trivial,
      List.forall_mem_cons.mpr ⟨fun id => local_call fun _ => trivial,
        List.forall_mem_cons.mpr ⟨fun id => local_call ?_,
          List.forall_mem_cons.mpr ⟨fun id => local_call fun _ => trivial, by simp⟩⟩⟩⟩
    rintro rfl
    change ∀ v ∈ stepVisits later _, KeepsTag ['x'] (later.forJob v.1) v.2.2 v.2.1
    decide

/-- After it, the command carries the four bytes of the int under the tag of the double. -/
theorem typed_values_retyped : ∃ trace s,
    (newSystem [1, 2]).play (retyping false) = some (trace, s) ∧
      Quiescent (newSystem [1, 2]) ∧ (∀ id, ((newSystem [1, 2]).agents id).store = []) ∧
      (∀ p ∈ trace, ∀ id, ∀ l ∈ localEvent id p.2, WritesTyped l) ∧
      ∃ m report, (2, m) ∈ s.flight ∧ m.report? = some report ∧ report.variableName = ['x'] ∧
        (report.type, report.value) = (typeCDouble, Believe.intBytes 7) ∧
        (report.type, report.value) ∉ offers ['x'] trace := by
  have played : (newSystem [1, 2]).play (retyping false) = some _ := rfl
  refine ⟨_, _, played, newSystem_quiescent [1, 2], fun _ => rfl, ?_,
    .command ⟨1, [2], ['x'], [7, 0, 0, 0], 0, longMax, 40, 101, 1, 1⟩, _, by decide, rfl, rfl,
    by decide, by decide⟩
  refine List.forall_mem_cons.mpr ⟨fun id => local_call fun _ => trivial,
    List.forall_mem_cons.mpr ⟨fun id => local_call fun _ => ?_,
      List.forall_mem_cons.mpr ⟨fun id => local_call fun _ => ?_,
        List.forall_mem_cons.mpr ⟨fun id => local_call fun _ => trivial, by simp⟩⟩⟩⟩
  · exact retyping_typed.1 _ (.inr (.inl rfl)) _
  · exact retyping_typed.2 _ (.inr (.inl rfl)) _

end Examples

end CaceProofs.Guarantees
