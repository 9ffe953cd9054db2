import CaceProofs.Guarantees.AgreementAtRest
import CaceProofs.Guarantees.MutexOwner
import CaceProofs.Library.CrossedVotes

/-!
# Contenders for a mutex

An agent with a mutex variable: it polls the mutex and gives it back, distributes other variables
and handles what the others send. Whatever it says about the mutex is what it then believes.
-/
namespace CaceProofs.Guarantees
open Source Library

section Agents

/-- What a believe about the mutex is like. -/
def MutexBelieve (b : Believe) : Prop :=
  b.strategy = .threeWayHandShake ∧ b.type = typeCInt

/-- What a contender publishes: reports to everyone, those about the mutex with an int, and short
acknowledges. -/
inductive Utters (x : Name) (id : Int) : Message → Prop
  | command {m : CaceCommand} (sender : m.senderID = id) (receivers : m.receiverID = [broadcastID])
      (about : m.variableName = x →
        m.level = AcceptStrategy.threeWayHandShake.code ∧ m.type = typeCInt) :
      Utters x id (.command m)
  | acknowledge {a : CaceAcknowledge} (sender : a.senderID = id)
      (receivers : a.receiverID = [broadcastID]) (about : a.variableName = x → a.type = typeCInt) :
      Utters x id (.acknowledge a)
  | shortAck {sa : CaceShortAck} (sender : sa.senderID = id) : Utters x id (.shortAck sa)

theorem Utters.sender {x : Name} {id : Int} {m : Message} (utters : Utters x id m) :
    m.senderID = id := by
  cases utters <;> assumption

/-- An agent that contends for a mutex. -/
structure Contender (x : Name) (ids : List Int) (id : Int) (c : Cace) : Prop where
  mutex : ∃ cv, c.getVariable x = some cv ∧ Graded MutexBelieve x cv
  named : ∀ y cv, c.getVariable y = some cv → Graded (fun _ => True) y cv
  records : ∀ k ∈ ids, k ≠ id → ∃ b ∈ Register.recorded (registerAt c x), b.id = k
  loud : c.quiet = false
  ownID : c.ownID = id
  spaceOwnID : c.spaceOwnID = id
  short : toShort id = id
  utters : ∀ m t, .published m t ∈ c.history → Utters x id m

/-- The register after an event: as before, with the decision, or with what has been heard. -/
def Revises (x : Name) (id : Int) (decision : Option Bytes) (heard : Option (Belief Int Bytes))
    (c c' : Cace) : Prop :=
  registerAt c' x = registerAt c x ∨
    (∃ value ∈ decision, ∃ age,
      registerAt c' x = some (Register.decide id age value (registerAt c x))) ∨
    ∃ b ∈ heard, registerAt c' x = some (Register.receive id b (registerAt c x))

/-- A message says of the mutex what the agent believes. -/
def Honestly (x : Name) (id : Int) (c : Cace) (m : Message) : Prop :=
  ∀ b ∈ beliefIn x m, b.id = id ∧ ∃ reg ∈ registerAt c x, reg.own.value = b.value

/-- What a contender does in an event. -/
structure Plays (x : Name) (ids : List Int) (id : Int) (decision : Option Bytes)
    (heard : Option (Belief Int Bytes)) (c c' : Cace) : Prop where
  contender : Contender x ids id c'
  revises : Revises x id decision heard c c'
  history : ∃ later, c'.history = c.history ++ later ∧
    ∀ m t, .published m t ∈ later → Honestly x id c' m

variable {x y : Name} {ids : List Int} {id : Int} {r : Readings} {c c' : Cace}
  {decision : Option Bytes} {heard : Option (Belief Int Bytes)}

/-- The mutex is called by its name. -/
theorem Contender.threeWay (before : Contender x ids id c) :
    ∀ cv, c.getVariable x = some cv → ThreeWay x cv := by
  obtain ⟨cv, known, graded⟩ := before.mutex
  intro cv' known'
  obtain rfl := Option.some.inj (known.symm.trans known')
  exact fun b member => ⟨(graded b member).1, (graded b member).2.1⟩

/-- A record stays, or makes way for another one of the same agent. -/
theorem Revises.records (revises : Revises x id decision heard c c')
    {k : Int} (before : ∃ b ∈ Register.recorded (registerAt c x), b.id = k) :
    ∃ b ∈ Register.recorded (registerAt c' x), b.id = k := by
  rcases revises with same | ⟨value, -, age, decided⟩ | ⟨b, -, received⟩
  · rw [same]
    exact before
  · rw [decided]
    change ∃ b ∈ (Register.decide id age value (registerAt c x)).records, b.id = k
    rw [Register.decide_recorded]
    exact before
  · rw [received]
    change ∃ a ∈ (Register.receive id b (registerAt c x)).records, a.id = k
    rw [Register.receive_recorded]
    cases success : recordReport b (Register.recorded (registerAt c x)) with
    | none => exact before
    | some records =>
      obtain ⟨a, member, rfl⟩ := before
      obtain ⟨a', member', same, -⟩ := recordReport_covers success member
      exact ⟨a', member', same⟩

/-- A contender after an event. -/
theorem Contender.plays {later : List Observation}
    (before : Contender x ids id c)
    (mutex : ∃ cv, c'.getVariable x = some cv ∧ Graded MutexBelieve x cv)
    (named : ∀ y cv, c'.getVariable y = some cv → Graded (fun _ => True) y cv)
    (same : Guarantees.config c' = Guarantees.config c) (revises : Revises x id decision heard c c')
    (history : c'.history = c.history ++ later)
    (honest : ∀ m t, .published m t ∈ later → Utters x id m ∧ Honestly x id c' m) :
    Plays x ids id decision heard c c' := by
  refine ⟨⟨mutex, named, fun k member other => revises.records (before.records k member other),
    (congrArg Config.quiet same).trans before.loud, (congrArg Config.ownID same).trans before.ownID,
    (congrArg Config.spaceOwnID same).trans before.spaceOwnID, before.short,
    fun m t published => ?_⟩, revises, later, history, fun m t published =>
    (honest m t published).2⟩
  rw [history] at published
  exact (List.mem_append.mp published).elim (before.utters m t) fun new => (honest m t new).1

/-- A contender that does nothing. -/
theorem Contender.rests {decision : Option Bytes} {heard : Option (Belief Int Bytes)}
    (before : Contender x ids id c) : Plays x ids id decision heard c c :=
  before.plays before.mutex before.named rfl (.inl rfl) (List.append_nil _).symm nofun

theorem beliefIn_other {m : Message} {report : Report} (reports : m.report? = some report)
    (other : report.variableName ≠ x) : beliefIn x m = none := by
  simp [beliefIn, reports, other]

/-- What says nothing of the mutex is honest. -/
theorem honestly_other {m : Message} (silent : beliefIn x m = none) : Honestly x id c m := by
  intro b member
  rw [silent] at member
  cases member

end Agents

section Calls

variable {x y : Name} {ids : List Int} {id : Int} {r : Readings} {c c' : Cace} {value : Bytes}
  {type : Int} {strategy : AcceptStrategy}

/-- A decided believe has its name, and keeps the proposals of before. -/
theorem Graded.decided {G : Believe → Prop} {old : Option ConsensusVariable}
    (own : G (decided r c y value type strategy old).toBelieve)
    (before : ∀ cv, old = some cv → Graded G y cv) :
    Graded G y (decided r c y value type strategy old) := by
  cases old with
  | none =>
    intro b member
    obtain rfl := List.mem_singleton.mp member
    exact ⟨rfl, own⟩
  | some cv =>
    intro b member
    rcases List.mem_cons.mp member with rfl | proposal
    · exact ⟨(before cv rfl _ List.mem_cons_self).1, own⟩
    · exact before cv rfl b (List.mem_cons_of_mem _ proposal)

theorem registerAt_distributeValue :
    registerAt (CaceSpace.distributeValue r c y value type strategy) x =
      if x = y then some (Register.decide c.spaceOwnID c.lamportTime.time value (registerAt c x))
      else registerAt c x := by
  rw [registerAt, distributeValue_getVariable]
  by_cases here : x = y
  · subst here
    rw [if_pos rfl]
    exact registerAt_decideValue r c x value type strategy
  · rw [getVariable_decideValue, if_neg here, if_neg here]
    rfl

/-- The command of a call, if the value is distributed. -/
theorem distributeValue_publishes (speaks : c.quiet = false) :
    let c' := CaceSpace.distributeValue r c y value type strategy
    Guarantees.config c' = Guarantees.config c ∧
      ∃ later, c'.history = c.history ++ later ∧ ∀ m t, .published m t ∈ later →
        m = .command (distributedCommand (CaceSpace.decideValue r c y value type strategy) y
          value) := by
  dsimp only
  have frame := decideValue_frame r c y value type strategy
  by_cases loud : .noDistribution < strategy
  · rw [distributeValue_loud speaks loud]
    generalize CaceSpace.decideValue r c y value type strategy = d at frame ⊢
    refine ⟨?_, [.published (.command (distributedCommand d y value)) .first], ?_,
      fun m t published => ?_⟩
    · rw [frame]
      rfl
    · change d.history ++ _ = _
      rw [frame]
    · obtain ⟨rfl, -⟩ := Observation.published.inj (List.mem_singleton.mp published)
      rfl
  · have level : ((CaceSpace.decideValue r c y value type strategy).deref (.stored y)).strategy =
        strategy := by
      rw [deref_stored, getVariable_decideValue, if_pos rfl]
      cases c.getVariable y <;> rfl
    have silent : CaceSpace.distributeValue r c y value type strategy =
        (CaceSpace.decideValue r c y value type strategy).appendJob
          (.command (CommandJob.construct r (CaceSpace.decideValue r c y value type strategy)
            (.stored y) value (CaceSpace.decideValue r c y value type strategy).activeRobots
            (CaceSpace.decideValue r c y value type strategy).lamportTime.time).2) := by
      unfold CaceSpace.distributeValue CommandJob.construct
      dsimp only
      rw [level, if_neg loud]
    rw [silent]
    generalize CaceSpace.decideValue r c y value type strategy = d at frame ⊢
    refine ⟨?_, [], ?_, fun m t none => nomatch none⟩
    · rw [frame]
      rfl
    · rw [List.append_nil]
      change d.history = _
      rw [frame]

/-- The command reads the variable as it is decided. -/
theorem distributedCommand_decided :
    let cmd := distributedCommand (CaceSpace.decideValue r c y value type strategy) y value
    let cv := decided r c y value type strategy (c.getVariable y)
    cmd.senderID = toShort c.ownID ∧ cmd.receiverID = [broadcastID] ∧ cmd.variableName = cv.name ∧
      cmd.value = value ∧ cmd.level = toShort strategy.code ∧ cmd.type = toTypeTag type := by
  dsimp only
  have frame := decideValue_frame r c y value type strategy
  have stored := getVariable_decideValue r c y value type strategy y
  rw [if_pos rfl] at stored
  have shape : (decided r c y value type strategy (c.getVariable y)).strategy = strategy ∧
      (decided r c y value type strategy (c.getVariable y)).type = type := by
    cases c.getVariable y <;> exact ⟨rfl, rfl⟩
  generalize CaceSpace.decideValue r c y value type strategy = d at frame stored ⊢
  generalize decided r c y value type strategy (c.getVariable y) = cv at stored shape ⊢
  have deref : d.deref (.stored y) = cv := by
    rw [deref_stored, stored, Option.getD_some]
  refine ⟨?_, rfl, ?_, rfl, ?_, ?_⟩
  · change toShort d.ownID = toShort c.ownID
    rw [frame]
  · change (d.deref (.stored y)).name = cv.name
    rw [deref]
  · change toShort (d.deref (.stored y)).strategy.code = _
    rw [deref, shape.1]
  · change toTypeTag (d.deref (.stored y)).type = _
    rw [deref, shape.2]

/-- A call that distributes another variable, or an int with the three way handshake. -/
theorem Contender.distributes (before : Contender x ids id c)
    (shape : y = x → strategy = .threeWayHandShake ∧ type = typeCInt) :
    Plays x ids id (if y = x then some value else none) none c
      (CaceSpace.distributeValue r c y value type strategy) := by
  obtain ⟨config, later, history, publishes⟩ :=
    @distributeValue_publishes y r c value type strategy before.loud
  have register := @registerAt_distributeValue x y r c value type strategy
  have stored := fun q => (distributeValue_getVariable r c y value type strategy q).trans
    (getVariable_decideValue r c y value type strategy q)
  have named : ∀ q cv,
      (CaceSpace.distributeValue r c y value type strategy).getVariable q = some cv →
      Graded (fun _ => True) q cv := by
    intro q cv known
    rw [stored] at known
    split at known
    next here =>
      subst here
      exact Option.some.inj known ▸ Graded.decided trivial (before.named q)
    next => exact before.named q cv known
  have revises : Revises x id (if y = x then some value else none) none c
      (CaceSpace.distributeValue r c y value type strategy) := by
    by_cases here : x = y
    · rw [if_pos here, before.spaceOwnID] at register
      exact .inr (.inl ⟨value, if_pos here.symm, _, register⟩)
    · rw [if_neg here] at register
      exact .inl register
  refine before.plays ?_ named config revises history fun m t published => ?_
  · obtain ⟨cv, known, graded⟩ := before.mutex
    by_cases here : x = y
    · subst here
      refine ⟨_, (stored x).trans (if_pos rfl), Graded.decided ?_ fun cv' known' => ?_⟩
      · obtain ⟨rfl, rfl⟩ := shape rfl
        rw [known]
        exact ⟨rfl, rfl⟩
      · exact Option.some.inj (known.symm.trans known') ▸ graded
    · exact ⟨cv, (stored x).trans (if_neg here ▸ known), graded⟩
  · obtain rfl := publishes m t published
    obtain ⟨sender, receivers, name, carries, level, tag⟩ :=
      @distributedCommand_decided y r c value type strategy
    generalize distributedCommand (CaceSpace.decideValue r c y value type strategy) y value = cmd
      at sender receivers name carries level tag ⊢
    have called : cmd.variableName = y :=
      name.trans (Graded.decided (G := fun _ => True) trivial (before.named y) _
        List.mem_cons_self).1
    have own : cmd.senderID = id :=
      sender.trans ((congrArg toShort before.ownID).trans before.short)
    refine ⟨.command own receivers fun about => ?_, ?_⟩
    · obtain ⟨rfl, rfl⟩ := shape (called.symm.trans about)
      exact ⟨level, tag⟩
    · by_cases here : x = y
      · rw [if_pos here] at register
        intro b member
        rw [beliefIn_command (called.trans here.symm)] at member
        obtain rfl := Option.some.inj member
        refine ⟨own, _, register, ?_⟩
        rw [carries]
        cases registerAt c x <;> rfl
      · exact honestly_other (beliefIn_other rfl fun about => here (about.symm.trans called))

/-- What an application may pass beside the mutex: a variable under another name, with proposals
about itself only. -/
def Beside (x : Name) (cv : ConsensusVariable) : Prop :=
  cv.name ≠ x ∧ Graded (fun _ => True) cv.name cv

/-- The job for a variable, and its command. -/
theorem command_publishes (speaks : c.quiet = false) (variablePtr : VariablePtr) :
    let c' := CaceSpace.command r c variablePtr
    Guarantees.config c' = Guarantees.config c ∧ (∀ q, c'.getVariable q = c.getVariable q) ∧
      ∃ later, c'.history = c.history ++ later ∧ ∀ m t, .published m t ∈ later →
        m = .command (c.commandMessage (c.deref variablePtr) c.makeMsgID (c.deref variablePtr).val 0
          c.lamportTime.tick.time) := by
  have loud : c.tickLamportTime.quiet = false := speaks
  unfold CaceSpace.command CommandJob.construct Cace.sendCaceCommand Cace.sendCaceCommandAt
    Cace.publishUnlessQuiet
  dsimp only
  split
  · simp only [loud]
    refine ⟨rfl, fun _ => rfl, [_], rfl, fun m t published => ?_⟩
    exact (Observation.published.inj (List.mem_singleton.mp published)).1
  · exact ⟨rfl, fun _ => rfl, [], (List.append_nil _).symm, nofun⟩

/-- A contender announces another variable, which it may have changed for that. -/
theorem Contender.announces {d : Cace} {variablePtr : VariablePtr} (before : Contender x ids id c)
    (mutex : d.getVariable x = c.getVariable x)
    (named : ∀ y cv, d.getVariable y = some cv → Graded (fun _ => True) y cv)
    (same : Guarantees.config d = Guarantees.config c) (history : d.history = c.history)
    (beside : (d.deref variablePtr).name ≠ x) :
    Plays x ids id none none c (CaceSpace.command r d variablePtr) := by
  have speaks : d.quiet = false := (congrArg Config.quiet same).trans before.loud
  have own : toShort d.ownID = id :=
    (congrArg toShort ((congrArg Config.ownID same).trans before.ownID)).trans before.short
  obtain ⟨config, stored, later, observed, publishes⟩ := @command_publishes r d speaks variablePtr
  rw [history] at observed
  refine before.plays ?_ (fun y cv known => named y cv (stored y ▸ known)) (config.trans same)
    (.inl (registerAt_eq ((stored x).trans mutex))) observed fun m t published => ?_
  · rw [stored, mutex]
    exact before.mutex
  · obtain rfl := publishes m t published
    exact ⟨.command own rfl fun about => absurd about beside,
      honestly_other (beliefIn_other rfl beside)⟩

theorem insertVariable_named {var : ConsensusVariable} (given : Graded (fun _ => True) var.name var)
    (named : ∀ y cv, c.getVariable y = some cv → Graded (fun _ => True) y cv) :
    ∀ y cv, (c.insertVariable var).getVariable y = some cv → Graded (fun _ => True) y cv := by
  intro y cv known
  rw [getVariable_insertVariable] at known
  split at known
  next fresh =>
    obtain rfl := Option.some.inj known
    exact fresh.1 ▸ given
  next => exact named y cv known

/-- A contender takes up another variable. -/
theorem Contender.adds {var : ConsensusVariable} {distribute : Bool} (before : Contender x ids id c)
    (beside : Beside x var) :
    Plays x ids id none none c (CaceSpace.addVariable r c var distribute) := by
  have frame := insertVariable_frame c var
  have mutex : (c.insertVariable var).getVariable x = c.getVariable x := by
    rw [getVariable_insertVariable, if_neg fun here => beside.1 here.1.symm]
  have named := insertVariable_named beside.2 before.named
  have same : Guarantees.config (c.insertVariable var) = Guarantees.config c := by
    rw [frame]
    rfl
  have history : (c.insertVariable var).history = c.history := by rw [frame]
  unfold CaceSpace.addVariable
  dsimp only
  split
  · refine before.announces mutex named same history ?_
    split
    · exact beside.1
    next free =>
      have fresh : c.getVariable var.name = none := by simpa using free
      rw [deref_stored, getVariable_insertVariable, if_pos ⟨rfl, fresh⟩]
      exact beside.1
  · exact before.plays (mutex ▸ before.mutex) named same (.inl (registerAt_eq mutex))
      (history.trans (List.append_nil _).symm) nofun

/-- A contender distributes another variable by its pointer. -/
theorem Contender.presents {variablePtr : VariablePtr} (before : Contender x ids id c)
    (beside : Beside x (c.deref variablePtr)) :
    Plays x ids id none none c (CaceSpace.distributeVariable r c variablePtr) := by
  unfold CaceSpace.distributeVariable
  dsimp only
  split
  next inStoreVar stored =>
    split
    · exact before.announces rfl before.named rfl rfl beside.1
    · have changed := getVariable_setVariable c (c.deref variablePtr).name
      rw [stored] at changed
      have graded := before.named _ _ stored
      refine before.announces ?_ (fun y cv known => ?_) rfl rfl ?_
      · rw [changed, if_neg beside.1.symm]
      · rw [changed] at known
        split at known
        next here =>
          subst here
          obtain rfl := Option.some.inj known
          intro b member
          rcases List.mem_cons.mp member with rfl | proposal
          · exact ⟨rfl, trivial⟩
          · exact graded b (List.mem_cons_of_mem _ proposal)
        next => exact before.named y cv known
      · rw [deref_stored, changed, if_pos rfl]
        exact beside.1
  next => exact before.adds beside

end Calls

section Reports

variable {x : Name} {ids : List Int} {id : Int} {r : Readings} {c c' : Cace} {u : ProposalUpdate}
  {old : Option ConsensusVariable}

theorem MutexBelieve.update {b v : Believe} (mutex : MutexBelieve v) : MutexBelieve (b.update v) :=
  ⟨mutex.1, by simp [Believe.update, mutex.2, typeCInt]⟩

/-- The mutex after a report with an int at its level. -/
theorem MutexBelieve.updated {cv : ConsensusVariable} (here : u.variableName = x)
    (level : ∀ s, u.message.strategy? = some s → s = .threeWayHandShake) (int : u.type = typeCInt)
    (before : Graded MutexBelieve x cv) : Graded MutexBelieve x (updated u (some cv)) := by
  obtain ⟨overwrites, freshens, -, -⟩ := u.strategies
  have kept : ∀ s, s = .threeWayHandShake → u.message.strategy?.getD s = .threeWayHandShake := by
    rintro s rfl
    cases carried : u.message.strategy? with
    | none => rfl
    | some s => exact level s carried
  refine Graded.updated here ⟨fun cv graded => ?_, fun b mutex => ?_, fun b mutex => ?_⟩ nofun
    fun cv' same => Option.some.inj same ▸ before
  · have own := (graded _ List.mem_cons_self).2
    have default : cv.strategy.acceptFunction = .default := by
      rw [own.1]
      rfl
    obtain ⟨winner, loop, member, -⟩ := acceptLoop_default default cv.proposals none
    unfold ConsensusVariable.acceptProposals
    rw [loop]
    cases winner with
    | none => exact own
    | some v => exact MutexBelieve.update (graded v member).2
  · exact ⟨overwrites b ▸ kept _ mutex.1, (u.overwrite_records b).2.2.1.trans int⟩
  · exact ⟨freshens b ▸ kept _ mutex.1, (u.fresh_records b).2.2.1.trans int⟩

/-- An update leaves the name of a variable alone. -/
theorem named_updated (before : ∀ cv, old = some cv → Graded (fun _ => True) u.variableName cv) :
    Graded (fun _ => True) u.variableName (updated u old) :=
  Graded.updated rfl ⟨fun _ _ => trivial, fun _ _ => trivial, fun _ _ => trivial⟩
    (fun _ => ⟨trivial, trivial⟩) before

/-- A contender still has the mutex after a report. -/
theorem Contender.mutex_updated (before : Contender x ids id c)
    (shape : u.variableName = x →
      (∀ s, u.message.strategy? = some s → s = .threeWayHandShake) ∧ u.type = typeCInt) :
    ∃ cv, (c.updateVariable u).getVariable x = some cv ∧ Graded MutexBelieve x cv := by
  obtain ⟨cv, known, graded⟩ := before.mutex
  rw [getVariable_updateVariable]
  by_cases here : x = u.variableName
  · obtain ⟨level, int⟩ := shape here.symm
    refine ⟨_, if_pos here, ?_⟩
    rw [← here, known]
    exact MutexBelieve.updated here.symm level int graded
  · exact ⟨cv, (if_neg here).trans known, graded⟩

/-- A report is applied, and the agent publishes what it then believes. -/
theorem Contender.updates {l : List Message} {d : Cace} (before : Contender x ids id c)
    (update : c.updateVariable u = d) (own : u.ownID = c.ownID)
    (shape : u.variableName = x →
      (∀ s, u.message.strategy? = some s → s = .threeWayHandShake) ∧ u.type = typeCInt)
    (stored : ∀ q, c'.getVariable q = d.getVariable q)
    (same : Guarantees.config c' = Guarantees.config d)
    (history : c'.history = d.history ++ l.map fun m => .published m .first)
    (honest : ∀ m ∈ l, Utters x id m ∧ Honestly x id c' m) :
    Plays x ids id none (beliefIn x u.message) c c' := by
  subst update
  obtain ⟨seen, observed, notified⟩ := updateVariable_history c u
  rw [observed, List.append_assoc] at history
  have lookups := fun q => (stored q).trans (getVariable_updateVariable c u q)
  refine before.plays ?_ (fun q cv' found => ?_) ?_ ?_ history fun m t published => ?_
  · rw [stored]
    exact before.mutex_updated shape
  · rw [lookups] at found
    split at found
    next here =>
      subst here
      exact Option.some.inj found ▸ named_updated (before.named u.variableName)
    next => exact before.named q cv' found
  · rw [same, updateVariable_frame]
    rfl
  · by_cases here : x = u.variableName
    · obtain ⟨level, -⟩ := shape here.symm
      refine .inr (.inr ⟨reported u.toReport, ?_, ?_⟩)
      · simp [beliefIn, u.message_report, here]
      · have register := @registerAt_updateVariable c x u
          (fun s carried => by rw [level s carried]; rfl)
          (fun cv stored => (before.threeWay cv stored).default) here.symm
        rw [own, before.ownID] at register
        rw [← register]
        exact registerAt_eq (stored x)
    · exact .inl (registerAt_eq ((lookups x).trans (if_neg here)))
  · rcases List.mem_append.mp published with quiet | answer
    · rcases List.mem_cons.mp quiet with applied | later
      · cases applied
      · cases notified _ later
    · obtain ⟨m', member, same⟩ := List.mem_map.mp answer
      obtain ⟨rfl, -⟩ := Observation.published.inj same
      exact honest m' member

/-- The agent is the same contender when it has received a message. -/
theorem Contender.receives (before : Contender x ids id c) (m : Message) :
    Contender x ids id (c.receive m) := by
  have same := receive_config c m
  have received : ∀ q, (c.receive m).getVariable q = c.getVariable q := fun q =>
    congrArg (fun store => store.lookup q) (receive_store c m)
  refine ⟨?_, fun q cv known => before.named q cv (received q ▸ known), ?_,
    (congrArg Config.quiet same).trans before.loud, (congrArg Config.ownID same).trans before.ownID,
    (congrArg Config.spaceOwnID same).trans before.spaceOwnID, before.short,
    fun m' t published => before.utters m' t ?_⟩
  · rw [received]
    exact before.mutex
  · rw [registerAt_receive]
    exact before.records
  · rw [receive_history] at published
    exact (List.mem_append.mp published).resolve_right (by simp)

theorem Plays.of_receive {m : Message} {decision : Option Bytes}
    {heard : Option (Belief Int Bytes)}
    (plays : Plays x ids id decision heard (c.receive m) c') :
    Plays x ids id decision heard c c' := by
  obtain ⟨later, history, honest⟩ := plays.history
  rw [receive_history, List.append_assoc] at history
  refine ⟨plays.contender, ?_, _, history, fun m' t published => honest m' t ?_⟩
  · have revises := plays.revises
    unfold Revises at revises ⊢
    rwa [registerAt_receive] at revises
  · exact (List.mem_append.mp published).resolve_left (by simp)

end Reports

section Handlers

variable {x : Name} {ids : List Int} {id : Int} {r : Readings} {c c' : Cace}

/-- A command that asks for no answer. -/
theorem handle_command_unanswered {m : CaceCommand} (plain : Plain c)
    (reaches : Reaches (.command m) c m.receiverID)
    (unanswered : ¬ AcceptStrategy.fireAndForget.code < m.level) :
    ∃ job, c.handle r (.command m) = (tookCommand r c m).appendJob job := by
  have stamped : c.stampedCommand m = m := by simp [Cace.stampedCommand, plain.loud]
  have passes : c.isBlacklisted m.senderID = false := by
    simpa [Cace.isBlacklisted, Message.senderID] using reaches.unlisted
  have here : (c.receive (.command m)).addressed m.receiverID = true := reaches.addressed
  have direct : (c.receive (.command m)).safeStepMode = false := plain.direct
  unfold Cace.handle
  dsimp only
  rw [stamped]
  unfold Cace.handleCaceCommand
  rw [passes]
  change ∃ job, (if (c.receive (.command m)).addressed m.receiverID = true then _ else _) = _
  rw [if_pos here]
  change ∃ job, (CommandAcknowledgeJob.construct r (c.receive (.command m)) _ _ m).1.appendJob
    (.commandAcknowledge (CommandAcknowledgeJob.construct r (c.receive (.command m)) _ _ m).2) = _
  unfold CommandAcknowledgeJob.construct
  simp only [direct, unanswered, if_false, Bool.false_eq_true]
  exact ⟨_, rfl⟩

/-- The name that an answer reads is that of the report. -/
theorem Contender.answers_name {u : ProposalUpdate} (before : Contender x ids id c) :
    ((c.updateVariable u).deref (.stored u.variableName)).name = u.variableName := by
  rw [deref_stored, getVariable_updateVariable, if_pos rfl, Option.getD_some]
  exact (named_updated (before.named u.variableName) _ List.mem_cons_self).1

/-- An acknowledge reads the mutex where it is about it. -/
theorem acknowledges {a : CaceAcknowledge} (sender : a.senderID = id)
    (receivers : a.receiverID = [broadcastID])
    (mutex : ∃ cv, c.getVariable x = some cv ∧ Graded MutexBelieve x cv)
    (reads : a.variableName = x → a.value = (c.deref (.stored x)).val ∧
      a.type = toTypeTag (c.deref (.stored x)).type) :
    Utters x id (.acknowledge a) ∧ Honestly x id c (.acknowledge a) := by
  obtain ⟨cv, known, graded⟩ := mutex
  rw [deref_stored, known, Option.getD_some] at reads
  refine ⟨.acknowledge sender receivers fun here => ?_, ?_⟩
  · rw [(reads here).2, (graded _ List.mem_cons_self).2.2]
    rfl
  · by_cases here : a.variableName = x
    · intro b member
      rw [beliefIn_acknowledge here] at member
      obtain rfl := Option.some.inj member
      refine ⟨sender, registerOf cv, ?_, (reads here).1.symm⟩
      rw [registerAt, known]
      rfl
    · exact honestly_other (beliefIn_other rfl here)

/-- What an agent takes in of a message at once. -/
def heardBelief (x : Name) (c : Cace) (m : Message) : Option (Belief Int Bytes) :=
  if c.isBlacklisted m.senderID || c.safeStepMode then none else beliefIn x m

/-- A message that is filtered out, or waits in a job for the next step. -/
theorem Contender.postpones {m : Message} {heard : Option (Belief Int Bytes)}
    (before : Contender x ids id c)
    (waits : c.handle r m = c ∨ ∃ job, c.handle r m = (c.receive m).appendJob job) :
    Plays x ids id none heard c (c.handle r m) := by
  rcases waits with same | ⟨job, same⟩
  · rw [same]
    exact before.rests
  · rw [same]
    have received := before.receives m
    exact Plays.of_receive (received.plays received.mutex received.named rfl (.inl rfl)
      (List.append_nil _).symm nofun)

/-- A report to everyone is filtered out, or waits in a job for the next step. -/
theorem handle_postponed {m : Message} (stamped : heard c m = m) (here : attends c m = true)
    (job : c.safeStepMode = true → ∃ job, respond r (c.receive m) m = (c.receive m).appendJob job)
    (postponed : (c.isBlacklisted m.senderID || c.safeStepMode) = true) :
    c.handle r m = c ∨ ∃ job, c.handle r m = (c.receive m).appendJob job := by
  rw [handle_eq, stamped]
  cases listed : c.isBlacklisted m.senderID with
  | true => exact .inl (if_pos rfl)
  | false =>
    rw [listed, Bool.false_or] at postponed
    rw [if_neg Bool.false_ne_true, if_pos here]
    exact .inr (job postponed)

theorem handle_command_postponed {cmd : CaceCommand} (loud : c.quiet = false)
    (receivers : cmd.receiverID = [broadcastID])
    (postponed : (c.isBlacklisted cmd.senderID || c.safeStepMode) = true) :
    c.handle r (.command cmd) = c ∨
      ∃ job, c.handle r (.command cmd) = (c.receive (.command cmd)).appendJob job := by
  refine handle_postponed (by simp [heard, Cace.stampedCommand, loud])
    (receivers ▸ addressed_broadcast c : c.addressed cmd.receiverID = true) (fun safe => ?_)
    postponed
  have safe : (c.receive (.command cmd)).safeStepMode = true := safe
  simp only [respond, CommandAcknowledgeJob.construct, safe, if_true]
  exact ⟨_, rfl⟩

theorem handle_acknowledge_postponed {a : CaceAcknowledge} (loud : c.quiet = false)
    (receivers : a.receiverID = [broadcastID])
    (postponed : (c.isBlacklisted a.senderID || c.safeStepMode) = true) :
    c.handle r (.acknowledge a) = c ∨
      ∃ job, c.handle r (.acknowledge a) = (c.receive (.acknowledge a)).appendJob job := by
  refine handle_postponed (by simp [heard, Cace.stampedAcknowledge, loud])
    (receivers ▸ addressed_broadcast c : c.addressed a.receiverID = true) (fun safe => ?_)
    postponed
  have safe : (c.receive (.acknowledge a)).safeStepMode = true := safe
  simp only [respond, ShortAckJob.construct, safe, if_true]
  exact ⟨_, rfl⟩

/-- A report to everyone that is not filtered out, where nothing waits for a step. -/
theorem Contender.hears {m : Message} {receivers : List Int} (before : Contender x ids id c)
    (everyone : receivers = [broadcastID])
    (attentive : (c.isBlacklisted m.senderID || c.safeStepMode) = false) :
    heardBelief x c m = beliefIn x m ∧ Plain c ∧ Reaches m c receivers := by
  have hears : heardBelief x c m = beliefIn x m := by
    unfold heardBelief
    rw [attentive, if_neg Bool.false_ne_true]
  rw [Bool.or_eq_false_iff] at attentive
  have unlisted : m.senderID ∉ c.agentBlacklist := by
    simpa [Cace.isBlacklisted] using attentive.1
  exact ⟨hears, ⟨before.loud, attentive.2⟩, unlisted, everyone ▸ addressed_broadcast c⟩

/-- What a contender does with a command. -/
theorem Contender.takesCommand {k : Int} {cmd : CaceCommand} (before : Contender x ids id c)
    (utters : Utters x k (.command cmd)) :
    Plays x ids id none (heardBelief x c (.command cmd)) c (c.handle r (.command cmd)) := by
  obtain ⟨sender, receivers, about⟩ : cmd.senderID = k ∧ cmd.receiverID = [broadcastID] ∧
      (cmd.variableName = x →
        cmd.level = AcceptStrategy.threeWayHandShake.code ∧ cmd.type = typeCInt) := by
    cases utters
    exact ⟨‹_›, ‹_›, ‹_›⟩
  cases attentive : c.isBlacklisted cmd.senderID || c.safeStepMode with
  | true =>
    exact before.postpones (handle_command_postponed before.loud receivers attentive)
  | false => ?_
  obtain ⟨hears, plain, reaches⟩ := @Contender.hears x ids id c (.command cmd) cmd.receiverID
    before receivers attentive
  rw [hears]
  have received := before.receives (.command cmd)
  let u := commandUpdate r (c.receive (.command cmd)).ownID cmd
  have took : tookCommand r c cmd = (c.receive (.command cmd)).updateVariable u := rfl
  have shape : u.variableName = x →
      (∀ s, u.message.strategy? = some s → s = .threeWayHandShake) ∧ u.type = typeCInt :=
    fun here => ⟨fun s carried =>
      Option.some.inj carried ▸ congrArg AcceptStrategy.mk (about here).1, (about here).2⟩
  refine Plays.of_receive (m := .command cmd) ?_
  have own : (tookCommand r c cmd).ownID = id := by
    rw [took, updateVariable_frame]
    exact received.ownID
  have mutex := received.mutex_updated shape
  have name := received.answers_name (u := u)
  rw [← took] at mutex name
  by_cases answered : AcceptStrategy.fireAndForget.code < cmd.level
  · rw [@handle_command r c cmd plain reaches answered]
    generalize tookCommand r c cmd = d at took own mutex name
    refine received.updates (l := [_]) took.symm rfl shape (fun q => rfl) rfl rfl
      fun m answer => ?_
    obtain rfl := List.mem_singleton.mp answer
    refine acknowledges ((congrArg toShort own).trans before.short) rfl mutex fun about => ?_
    have here : cmd.variableName = x := name.symm.trans about
    exact here ▸ ⟨rfl, rfl⟩
  · obtain ⟨job, handled⟩ := @handle_command_unanswered r c cmd plain reaches answered
    rw [handled]
    exact received.updates (l := []) took.symm rfl shape (fun q => rfl) rfl
      (List.append_nil _).symm fun m none => absurd none List.not_mem_nil

/-- What a contender does with an acknowledge. -/
theorem Contender.takesAcknowledge {k : Int} {a : CaceAcknowledge} (before : Contender x ids id c)
    (utters : Utters x k (.acknowledge a)) :
    Plays x ids id none (heardBelief x c (.acknowledge a)) c (c.handle r (.acknowledge a)) := by
  obtain ⟨sender, receivers, about⟩ : a.senderID = k ∧ a.receiverID = [broadcastID] ∧
      (a.variableName = x → a.type = typeCInt) := by
    cases utters
    exact ⟨‹_›, ‹_›, ‹_›⟩
  cases attentive : c.isBlacklisted a.senderID || c.safeStepMode with
  | true =>
    exact before.postpones (handle_acknowledge_postponed before.loud receivers attentive)
  | false => ?_
  obtain ⟨hears, plain, reaches⟩ := @Contender.hears x ids id c (.acknowledge a) a.receiverID
    before receivers attentive
  rw [hears]
  have received := before.receives (.acknowledge a)
  let u := acknowledgeUpdate r (c.receive (.acknowledge a)).ownID a
  have took : tookAcknowledge r c a = (c.receive (.acknowledge a)).updateVariable u := rfl
  have shape : u.variableName = x →
      (∀ s, u.message.strategy? = some s → s = .threeWayHandShake) ∧ u.type = typeCInt :=
    fun here => ⟨fun s none => absurd none (Option.some_ne_none s).symm, about here⟩
  have own : (tookAcknowledge r c a).ownID = id := by
    rw [took, updateVariable_frame]
    exact received.ownID
  rw [@handle_acknowledge r c a plain reaches]
  refine Plays.of_receive (m := .acknowledge a) ?_
  generalize tookAcknowledge r c a = d at took own
  split
  · refine received.updates (l := [_]) took.symm rfl shape (fun q => rfl) rfl rfl
      fun m answer => ?_
    obtain rfl := List.mem_singleton.mp answer
    exact ⟨.shortAck ((congrArg toShort own).trans before.short), honestly_other rfl⟩
  · exact received.updates (l := []) took.symm rfl shape (fun q => rfl) rfl
      (List.append_nil _).symm fun m none => absurd none List.not_mem_nil

/-- What a contender does with a short acknowledge. -/
theorem Contender.takesShortAck {sa : CaceShortAck} (before : Contender x ids id c) :
    Plays x ids id none none c (c.handle r (.shortAck sa)) := by
  cases listed : c.isBlacklisted sa.senderID with
  | true =>
    exact before.postpones (.inl ((handle_eq r c (.shortAck sa)).trans (if_pos listed)))
  | false => ?_
  have unlisted : sa.senderID ∉ c.agentBlacklist := by simpa [Cace.isBlacklisted] using listed
  have received := before.receives (.shortAck sa)
  have queued : ∀ acks, Plays x ids id none none (c.receive (.shortAck sa))
      { c.receive (.shortAck sa) with shortAcks := acks } := fun acks =>
    received.plays received.mutex received.named rfl (.inl rfl) (List.append_nil _).symm
      fun m t none => absurd none List.not_mem_nil
  refine Plays.of_receive (m := .shortAck sa) ?_
  cases addressed : c.addressed sa.receiverID with
  | true =>
    rw [handle_shortAck ⟨unlisted, addressed⟩]
    exact queued _
  | false =>
    rw [handle_shortAck_other unlisted addressed]
    exact queued _

/-- What a contender does with a message of another one. -/
theorem Contender.handles {k : Int} {m : Message} (before : Contender x ids id c)
    (utters : Utters x k m) : Plays x ids id none (heardBelief x c m) c (c.handle r m) := by
  cases m with
  | command => exact before.takesCommand utters
  | acknowledge => exact before.takesAcknowledge utters
  | shortAck sa =>
    have silent : heardBelief x c (.shortAck sa) = none := by
      unfold heardBelief
      split <;> rfl
    rw [silent]
    exact before.takesShortAck
  | believeNotification | time | variableRequest | write | writeAck | response => cases utters

end Handlers

section Mutex

variable {x : Name} {ids : List Int} {id : Int} {r : Readings} {c : Cace}

/-- Whom a value of the mutex names. -/
abbrev holderOf : Bytes → Int := Believe.deserializeInt

/-- The agent asks for the mutex if it is free, not its own, and acknowledged. -/
def Requests (r : Readings) (c : Cace) (x : Name) (strict : Bool) (robots : List Int) : Prop :=
  CaceMutex.isFree r.uninitialised (c.deref (.stored x)) strict robots = true ∧
    CaceMutex.isOwner (c.deref (.stored x)) strict c.ownID robots = false ∧
      (c.deref (.stored x)).isAcknowledged c.activeRobots = true

instance (r : Readings) (c : Cace) (x : Name) (strict : Bool) (robots : List Int) :
    Decidable (Requests r c x strict robots) :=
  inferInstanceAs (Decidable (_ ∧ _ ∧ _))

/-- A contender polls the mutex. -/
theorem Contender.polls {strict : Bool} {robots : List Int} (before : Contender x ids id c) :
    Plays x ids id (some (Believe.intBytes c.ownID)) none c
        (CaceMutex.pNoBlock r c x strict robots).1 ∧
      (¬ Requests r c x strict robots → (CaceMutex.pNoBlock r c x strict robots).1 = c) := by
  obtain ⟨m, known, graded⟩ := before.mutex
  have mutex : c.deref (.stored x) = m := by rw [deref_stored, known, Option.getD_some]
  obtain ⟨name, level, -⟩ := graded _ List.mem_cons_self
  have request := @Contender.distributes x x ids id r c (Believe.intBytes c.ownID) typeCInt
    .threeWayHandShake before fun _ => ⟨rfl, rfl⟩
  rw [if_pos rfl] at request
  unfold Requests CaceMutex.pNoBlock
  simp only [mutex]
  by_cases free : CaceMutex.isFree r.uninitialised m strict robots = true
  · cases owner : CaceMutex.isOwner m strict c.ownID robots with
    | true => simpa [free] using before.rests
    | false =>
      by_cases known : m.isAcknowledged c.activeRobots = true
      · simp only [free, known, if_true, Bool.false_eq_true, if_false]
        rw [level, name]
        exact ⟨request, fun refuses => by simp at refuses⟩
      · simpa [free, known] using before.rests
  · simpa [free] using before.rests

/-- A contender gives the mutex back. -/
theorem Contender.gives (before : Contender x ids id c) :
    Plays x ids id (some (Believe.intBytes (-1))) none c (CaceMutex.v r c x).1 := by
  obtain ⟨m, known, graded⟩ := before.mutex
  have mutex : c.deref (.stored x) = m := by rw [deref_stored, known, Option.getD_some]
  obtain ⟨name, level, -⟩ := graded _ List.mem_cons_self
  have release := @Contender.distributes x x ids id r c (Believe.intBytes (-1)) typeCInt
    .threeWayHandShake before fun _ => ⟨rfl, rfl⟩
  rw [if_pos rfl] at release
  unfold CaceMutex.v
  simp only [mutex]
  split
  · rw [level, name]
    exact release
  · exact before.rests

end Mutex

end CaceProofs.Guarantees
