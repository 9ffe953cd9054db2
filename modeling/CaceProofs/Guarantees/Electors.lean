import CaceProofs.Guarantees.Contenders
import CaceProofs.Guarantees.ElectionBids
import CaceProofs.Guarantees.ElectionAgreement

/-!
# Electors

An agent that distributes bids for an election variable and handles what the others send. The
freshest of what it has published about the election carries its bid.
-/
namespace CaceProofs.Guarantees
open Source Library

section Bids

variable {x : Name} {u : ProposalUpdate} {old : Option ConsensusVariable}

/-- A believe with a double that is not the empty value. -/
structure GivesBid (b : Believe) : Prop extends IsBid b where
  filled : b.val ≠ []

/-- Accepting leaves a bid a bid, and makes one of a commanded value. -/
theorem accept_givesBid {this : Believe} {value : Option Bytes} (gt lt : Believe)
    (double : this.type = typeCDouble) (given : this.hasValue = true → this.val ≠ [])
    (valued : this.hasValue = true ∨ value.isSome = true) (filled : ∀ v ∈ value, v ≠ []) :
    GivesBid (this.accept gt lt value).1 := by
  have commanded : GivesBid (this.setCommanded value) := by
    cases value with
    | none =>
      have has := valued.resolve_right (by simp)
      exact ⟨⟨has, double⟩, given has⟩
    | some v =>
      have some := filled v rfl
      exact ⟨⟨by simpa [Believe.setCommanded, Believe.setValue] using some, double⟩, some⟩
  unfold Believe.accept
  split
  case h_4 =>
    unfold Believe.electionAcceptStrategy
    split
    next has => exact ⟨⟨has, double⟩, given has⟩
    next => exact ⟨⟨rfl, rfl⟩, List.cons_ne_nil _ _⟩
  all_goals exact commanded

/-- The loop of `acceptProposals` over bids. -/
theorem acceptLoop_givesBid {value : Option Bytes} {this : Believe} {winner : Option Believe}
    {proposals : List Believe} (filled : ∀ v ∈ value, v ≠ []) (bid : GivesBid this) :
    GivesBid (proposals.foldl (Believe.acceptStep value) (this, winner)).1 := by
  induction proposals generalizing this winner with
  | nil => exact bid
  | cons p proposals ih =>
    exact ih (accept_givesBid (winner.getD this) p bid.type (fun _ => bid.filled)
      (.inl bid.hasValue) filled)

theorem GivesBid.update {b v : Believe} (bid : GivesBid v) : GivesBid (b.update v) where
  hasValue := by simpa [Believe.update] using bid.filled
  type := by simp [Believe.update, bid.type, typeCDouble]
  filled := bid.filled

/-- Accepting proposals that are bids. -/
theorem acceptProposals_givesBid {cv : ConsensusVariable} {value : Option Bytes}
    (own : GivesBid (cv.proposals.foldl (Believe.acceptStep value) (cv.toBelieve, none)).1)
    (bids : ∀ p ∈ cv.proposals, GivesBid p) : GivesBid (cv.acceptProposals value).toBelieve := by
  obtain ⟨-, won⟩ := acceptLoop_spec value cv.proposals (cv.toBelieve, none)
  unfold ConsensusVariable.acceptProposals
  dsimp only
  split
  next winner found =>
    have member : winner ∈ cv.proposals := by simpa using won winner found
    exact (bids winner member).update
  next => exact own

/-- The variable after a report with a double. -/
theorem updated_givesBid (here : u.variableName = x) (double : u.type = typeCDouble)
    (filled : u.value ≠ []) (joins : u.co.hasValue = true)
    (before : ∀ cv, old = some cv → Graded GivesBid x cv) : Graded GivesBid x (updated u old) := by
  have recorded : (!u.value.isEmpty) = true := by simpa using filled
  have co : GivesBid u.co :=
    ⟨⟨joins, u.co_records.2.2.1.trans double⟩, u.co_records.2.1 ▸ filled⟩
  refine Graded.updated here ⟨fun cv graded => ?_, fun b _ => ?_, fun b _ => ?_⟩
    (fun _ => ⟨co, ?_⟩) before
  · refine acceptProposals_givesBid (acceptLoop_givesBid nofun (graded _ List.mem_cons_self).2)
      fun p member => (graded p (List.mem_cons_of_mem _ member)).2
  · exact ⟨⟨(u.valued.1 b).trans recorded, (u.overwrite_records b).2.2.1.trans double⟩,
      (u.overwrite_records b).2.1 ▸ filled⟩
  · exact ⟨⟨(u.valued.2 b).trans recorded, (u.fresh_records b).2.2.1.trans double⟩,
      (u.fresh_records b).2.1 ▸ filled⟩
  · -- the own believe has no value yet, and takes that of the report
    have value : ∀ v ∈ some u.value, v ≠ [] := fun v same => Option.some.inj same ▸ filled
    have unset := u.own_unset
    refine acceptProposals_givesBid (@acceptLoop_givesBid _ _ _ [] value ?_)
      fun p member => List.mem_singleton.mp member ▸ co
    refine accept_givesBid _ _ (unset.2.trans double) (fun has => ?_) (.inr rfl) value
    exact absurd (unset.1.symm.trans has) nofun

/-- An update leaves the holder of a variable alone. -/
theorem updated_robotID {id : Int} (own : u.ownID = id)
    (before : ∀ cv, old = some cv → cv.robotID = id) : (updated u old).robotID = id := by
  cases old with
  | none =>
    exact (acceptProposals_spec { u.own with proposals := [u.co] } (some u.value)).1.trans
      (u.own_fresh.1.trans own)
  | some cv =>
    unfold updated
    dsimp only
    split
    next recorded found =>
      rw [(acceptProposals_spec recorded none).1, recordProposal_own found]
      exact before cv rfl
    next => exact before cv rfl

end Bids

section Agents

/-- What an elector publishes: reports with a double to everyone, and short acknowledges. -/
inductive Ballot (x : Name) (id : Int) : Message → Prop
  | command {m : CaceCommand} (sender : m.senderID = id) (receivers : m.receiverID = [broadcastID])
      (name : m.variableName = x) (double : m.type = typeCDouble) (filled : m.value ≠ []) :
      Ballot x id (.command m)
  | acknowledge {a : CaceAcknowledge} (sender : a.senderID = id)
      (receivers : a.receiverID = [broadcastID]) (name : a.variableName = x)
      (double : a.type = typeCDouble) (filled : a.value ≠ []) : Ballot x id (.acknowledge a)
  | shortAck {sa : CaceShortAck} (sender : sa.senderID = id) : Ballot x id (.shortAck sa)

variable {x : Name} {ids : List Int} {id : Int} {b b' : Bytes} {r : Readings} {c c' : Cace}

theorem Ballot.sender {m : Message} (ballot : Ballot x id m) : m.senderID = id := by
  cases ballot <;> assumption

theorem Ballot.report {m : Message} {report : Report} (ballot : Ballot x id m)
    (reports : m.report? = some report) : report.variableName = x ∧ report.senderID = id ∧
      report.type = typeCDouble ∧ report.value ≠ [] := by
  cases ballot with
  | command sender _ name double filled =>
    obtain rfl := Option.some.inj reports
    exact ⟨name, sender, double, filled⟩
  | acknowledge sender _ name double filled =>
    obtain rfl := Option.some.inj reports
    exact ⟨name, sender, double, filled⟩
  | shortAck => cases reports

/-- What has been reported in a history. -/
def Reported (history : List Observation) (report : Report) : Prop :=
  ∃ m t, .published m t ∈ history ∧ m.report? = some report

/-- An agent in an election with the bid `b`. -/
structure Elector (x : Name) (ids : List Int) (id : Int) (b : Bytes) (c : Cace) : Prop where
  bids : ∀ cv, c.getVariable x = some cv → cv.robotID = id ∧ Graded GivesBid x cv
  plain : Plain c
  ownID : c.ownID = id
  spaceOwnID : c.spaceOwnID = id
  short : toShort id = id
  unlisted : ∀ k ∈ ids, k ≠ id → k ∉ c.agentBlacklist
  ballots : ∀ m t, .published m t ∈ c.history → Ballot x id m
  dated : ∀ report, Reported c.history report → report.lamportTime ≤ c.lamportTime.time
  latest : ∀ report, Reported c.history report →
    (∀ other, Reported c.history other → other.lamportTime ≤ report.lamportTime) → report.value = b

/-- What an elector publishes in an event has its bid, and is newer than all before where the bid
changes. -/
theorem Elector.grow {later : List Observation} (before : Elector x ids id b c)
    (bids : ∀ cv, c'.getVariable x = some cv → cv.robotID = id ∧ Graded GivesBid x cv)
    (same : Guarantees.config c' = Guarantees.config c)
    (history : c'.history = c.history ++ later) (clock : c.lamportTime.time ≤ c'.lamportTime.time)
    (ballots : ∀ m t, .published m t ∈ later → Ballot x id m)
    (carries : ∀ report, Reported later report →
      report.value = b' ∧ report.lamportTime ≤ c'.lamportTime.time)
    (turns : b' = b ∨ ∃ report, Reported later report ∧
      c.lamportTime.time < report.lamportTime) : Elector x ids id b' c' := by
  have listed : c'.agentBlacklist = c.agentBlacklist := congrArg Config.agentBlacklist same
  have split : ∀ report, Reported c'.history report ↔
      Reported c.history report ∨ Reported later report := by
    intro report
    unfold Reported
    rw [history]
    simp only [List.mem_append]
    constructor
    · rintro ⟨m, t, old | new, reports⟩
      · exact .inl ⟨m, t, old, reports⟩
      · exact .inr ⟨m, t, new, reports⟩
    · rintro (⟨m, t, old, reports⟩ | ⟨m, t, new, reports⟩)
      · exact ⟨m, t, .inl old, reports⟩
      · exact ⟨m, t, .inr new, reports⟩
  refine
    { bids := bids
      plain := before.plain.of_config same
      ownID := (congrArg Config.ownID same).trans before.ownID
      spaceOwnID := (congrArg Config.spaceOwnID same).trans before.spaceOwnID
      short := before.short
      unlisted := listed ▸ before.unlisted
      ballots := fun m t published => ?_
      dated := fun report reported => ?_
      latest := fun report reported newest => ?_ }
  · rw [history] at published
    exact (List.mem_append.mp published).elim (before.ballots m t) (ballots m t)
  · rcases (split report).mp reported with old | new
    · exact Nat.le_trans (before.dated report old) clock
    · exact (carries report new).2
  · rcases (split report).mp reported with old | new
    · rcases turns with rfl | ⟨other, new, newer⟩
      · exact before.latest report old fun other older => newest other ((split other).mpr (.inl older))
      · -- a report of before is not newer than the new one
        have above := newest other ((split other).mpr (.inr new))
        have below := before.dated report old
        omega
    · exact (carries report new).1

end Agents

section Events

variable {x : Name} {ids : List Int} {id : Int} {b : Bytes} {r : Readings} {c c' : Cace}

theorem reported_singleton {m : Message} {t : Transmission} {report : Report}
    (reported : Reported [.published m t] report) : m.report? = some report := by
  obtain ⟨m', t', member, reports⟩ := reported
  obtain ⟨rfl, -⟩ := Observation.published.inj (List.mem_singleton.mp member)
  exact reports

/-- What the agent applies when it handles a message about the variable: that message. -/
structure TakesIn (x : Name) (m : Message) (c c' : Cace) : Prop where
  longer : c.history <+: c'.history
  known : (c.getVariable x).isSome = true → (c'.getVariable x).isSome = true
  applies : ∀ report, m.report? = some report → .applied m ∈ c'.history
  only : ∀ m', .applied m' ∈ c'.history → .applied m' ∈ c.history ∨ m' = m

theorem TakesIn.of_receive {m : Message} (takes : TakesIn x m (c.receive m) c') :
    TakesIn x m c c' := by
  have history := receive_history c m
  refine ⟨List.IsPrefix.trans ⟨_, history.symm⟩ takes.longer, fun known => takes.known ?_,
    takes.applies, fun m' applied => ?_⟩
  · rwa [Cace.getVariable, receive_store]
  · refine (takes.only m' applied).imp_left fun old => ?_
    rw [history] at old
    exact (List.mem_append.mp old).resolve_right (by simp)

/-- A report is applied, and no other one. -/
theorem TakesIn.of_update {u : ProposalUpdate} {l : List Message} {d : Cace}
    (update : c.updateVariable u = d) (here : u.variableName = x)
    (stored : c'.getVariable x = d.getVariable x)
    (history : c'.history = d.history ++ l.map fun m => .published m .first) :
    TakesIn x u.message c c' := by
  subst update
  obtain ⟨seen, observed, notified⟩ := updateVariable_history c u
  rw [observed, List.append_assoc] at history
  refine ⟨⟨_, history.symm⟩, fun _ => ?_, fun _ _ => ?_, fun m' applied => ?_⟩
  · rw [stored, getVariable_updateVariable, if_pos here.symm]
    rfl
  · rw [history]
    simp
  · rw [history] at applied
    refine (List.mem_append.mp applied).imp_right fun new => ?_
    rcases List.mem_append.mp new with quiet | answer
    · rcases List.mem_cons.mp quiet with same | later
      · exact Observation.applied.inj same
      · cases notified _ later
    · obtain ⟨m, -, same⟩ := List.mem_map.mp answer
      cases same

/-- An elector makes a bid. -/
theorem Elector.distributes {value : Bytes} {strategy : AcceptStrategy}
    (before : Elector x ids id b c) (elective : Elective strategy) (filled : value ≠ [])
    (unwrapped : (CaceSpace.distributeValue r c x value typeCDouble strategy).lamportTime.wraps = 0) :
    Elector x ids id value (CaceSpace.distributeValue r c x value typeCDouble strategy) ∧
      ((CaceSpace.distributeValue r c x value typeCDouble strategy).getVariable x).isSome = true ∧
      ∃ later, (CaceSpace.distributeValue r c x value typeCDouble strategy).history =
        c.history ++ later ∧ (∃ report, Reported later report) ∧ ∀ m, .applied m ∉ later := by
  have loud : AcceptStrategy.noDistribution < strategy := by
    rcases elective.named with rfl | rfl | rfl <;> decide
  have stored := fun q => (distributeValue_getVariable r c x value typeCDouble strategy q).trans
    (getVariable_decideValue r c x value typeCDouble strategy q)
  have command := @distributedCommand_decided x r c value typeCDouble strategy
  have frame := decideValue_frame r c x value typeCDouble strategy
  have shape : CaceSpace.distributeValue r c x value typeCDouble strategy = _ :=
    distributeValue_plain before.plain loud
  dsimp only at command shape
  rw [shape] at unwrapped stored ⊢
  generalize CaceSpace.decideValue r c x value typeCDouble strategy = d
    at command frame unwrapped stored ⊢
  obtain ⟨sender, receivers, name, carries, -, tag⟩ := command
  have clock : d.lamportTime = c.lamportTime := by rw [frame]
  have ticked : c.lamportTime.tick.time = c.lamportTime.time + 1 := by
    rw [← clock]
    exact LamportClock.tick_time unwrapped
  have stamp : (distributedCommand d x value).lamportTime = c.lamportTime.tick.time :=
    congrArg (fun clock : LamportTime => clock.tick.time) clock
  have now : (d.tickLamportTime.lamportTime).time = c.lamportTime.tick.time := stamp
  generalize distributedCommand d x value = cmd at sender receivers name carries tag stamp stored ⊢
  have bids : ∀ cv, decided r c x value typeCDouble strategy (c.getVariable x) = cv →
      cv.robotID = id ∧ Graded GivesBid x cv := by
    rintro cv rfl
    have own : GivesBid (decided r c x value typeCDouble strategy (c.getVariable x)).toBelieve := by
      have has : (!value.isEmpty) = true := by simpa using filled
      cases c.getVariable x <;> exact ⟨⟨has, rfl⟩, filled⟩
    refine ⟨?_, Graded.decided own fun cv known => (before.bids cv known).2⟩
    cases known : c.getVariable x with
    | none => exact before.spaceOwnID
    | some cv => exact (before.bids cv known).1
  have called : cmd.variableName = x := name.trans ((bids _ rfl).2 _ List.mem_cons_self).1
  have report : Reported [.published (.command cmd) .first]
      ⟨cmd.variableName, cmd.senderID, cmd.value, cmd.type, cmd.lamportTime⟩ :=
    ⟨_, _, List.mem_singleton_self _, rfl⟩
  have history : d.history = c.history := by rw [frame]
  refine ⟨@Elector.grow _ _ _ _ _ _ _ [.published (.command cmd) .first] before
    (fun cv known => ?_) ?_ ?_ ?_
    (fun m t published => ?_) (fun other reported => ?_) (.inr ⟨_, report, ?_⟩), ?_, _, ?_, ⟨_, report⟩,
    by simp⟩
  · exact bids cv (Option.some.inj (((stored x).trans (if_pos rfl)).symm.trans known))
  · rw [frame]
    rfl
  · exact congrArg (· ++ _) history
  · change c.lamportTime.time ≤ d.tickLamportTime.lamportTime.time
    omega
  · obtain ⟨rfl, -⟩ := Observation.published.inj (List.mem_singleton.mp published)
    exact .command (sender.trans ((congrArg toShort before.ownID).trans before.short)) receivers
      called tag (carries ▸ filled)
  · obtain rfl := Option.some.inj (reported_singleton reported)
    exact ⟨carries, Nat.le_of_eq (stamp.trans now.symm)⟩
  · change c.lamportTime.time < cmd.lamportTime
    omega
  · exact congrArg Option.isSome ((stored x).trans (if_pos rfl))
  · exact congrArg (· ++ _) history

/-- The agent is the same elector when it has received a message. -/
theorem Elector.receives (before : Elector x ids id b c) (m : Message)
    (unwrapped : (c.receive m).lamportTime.wraps = 0) : Elector x ids id b (c.receive m) := by
  have clock : c.lamportTime.time ≤ (c.receive m).lamportTime.time := by
    unfold Cace.receive at unwrapped ⊢
    split
    next t stamped =>
      simp only [stamped] at unwrapped
      exact (LamportClock.le_witness _ _ unwrapped).2
    next => exact Nat.le_refl _
  refine before.grow (fun cv known => ?_) (receive_config c m) (receive_history c m) clock
    (fun m' t published => ?_) (fun report reported => ?_) (.inl rfl)
  · rw [Cace.getVariable, receive_store] at known
    exact before.bids cv known
  · cases List.mem_singleton.mp published
  · obtain ⟨m', t, member, -⟩ := reported
    cases List.mem_singleton.mp member

/-- A report is applied, and the agent publishes what it then believes. -/
theorem Elector.updates {u : ProposalUpdate} {l : List Message} {d : Cace}
    (before : Elector x ids id b c) (update : c.updateVariable u = d) (own : u.ownID = c.ownID)
    (here : u.variableName = x) (double : u.type = typeCDouble) (filled : u.value ≠ [])
    (joins : u.co.hasValue = true) (stored : c'.getVariable x = d.getVariable x)
    (same : Guarantees.config c' = Guarantees.config d)
    (clock : c.lamportTime.time ≤ c'.lamportTime.time)
    (history : c'.history = d.history ++ l.map fun m => .published m .first)
    (answers : ∀ m ∈ l, Ballot x id m ∧ ∀ report, m.report? = some report →
      report.value = b ∧ report.lamportTime ≤ c'.lamportTime.time) :
    Elector x ids id b c' := by
  subst update
  obtain ⟨seen, observed, notified⟩ := updateVariable_history c u
  rw [observed, List.append_assoc] at history
  have quiet : ∀ {m t}, .published m t ∈ (.applied u.message :: seen) ++
      l.map (fun m => Observation.published m .first) → m ∈ l := by
    intro m t published
    rcases List.mem_append.mp published with quiet | answer
    · rcases List.mem_cons.mp quiet with applied | later
      · cases applied
      · cases notified _ later
    · obtain ⟨m', member, same⟩ := List.mem_map.mp answer
      obtain ⟨rfl, -⟩ := Observation.published.inj same
      exact member
  refine before.grow (fun cv known => ?_) ?_ history clock (fun m t published =>
    (answers m (quiet published)).1) (fun report reported => ?_) (.inl rfl)
  · rw [stored, getVariable_updateVariable, if_pos here.symm, here] at known
    obtain rfl := Option.some.inj known
    exact ⟨updated_robotID (own.trans before.ownID) fun cv old => (before.bids cv old).1,
      updated_givesBid here double filled joins fun cv old => (before.bids cv old).2⟩
  · rw [same, updateVariable_frame]
    rfl
  · obtain ⟨m, t, published, reports⟩ := reported
    exact (answers m (quiet published)).2 report reports

/-- An elector takes a command, and acknowledges it with its bid where the level asks for it. -/
theorem Elector.takesCommand {k : Int} {cmd : CaceCommand} (before : Elector x ids id b c)
    (source : k ∈ ids) (other : k ≠ id) (ballot : Ballot x k (.command cmd))
    (own : ∀ cv, (c.handle r (.command cmd)).getVariable x = some cv → cv.val = b)
    (unwrapped : (c.handle r (.command cmd)).lamportTime.wraps = 0) :
    Elector x ids id b (c.handle r (.command cmd)) := by
  obtain ⟨sender, receivers, here, double, filled⟩ : cmd.senderID = k ∧
      cmd.receiverID = [broadcastID] ∧ cmd.variableName = x ∧ cmd.type = typeCDouble ∧
        cmd.value ≠ [] := by
    cases ballot
    exact ⟨‹_›, ‹_›, ‹_›, ‹_›, ‹_›⟩
  have reaches : Reaches (.command cmd) c cmd.receiverID :=
    ⟨fun listed => before.unlisted k source other (sender ▸ listed),
      receivers ▸ addressed_broadcast c⟩
  let u := commandUpdate r (c.receive (.command cmd)).ownID cmd
  have took : (c.receive (.command cmd)).updateVariable u = tookCommand r c cmd := rfl
  have joins : u.co.hasValue = true := by
    simpa [u, commandUpdate, Believe.setValue] using filled
  have config : Guarantees.config (tookCommand r c cmd) = Guarantees.config c := by
    rw [tookCommand_frame]
    exact receive_config c _
  have clock : (tookCommand r c cmd).lamportTime = (c.receive (.command cmd)).lamportTime := by
    rw [tookCommand_frame]
  have stored : (tookCommand r c cmd).getVariable x =
      some (updated u ((c.receive (.command cmd)).getVariable x)) := by
    have named : u.variableName = x := here
    rw [← took, getVariable_updateVariable, named, if_pos rfl]
  by_cases answered : AcceptStrategy.fireAndForget.code < cmd.level
  · rw [@handle_command r c cmd before.plain reaches answered] at own unwrapped ⊢
    have received := before.receives (.command cmd) (clock ▸ unwrapped)
    have bids : (updated u ((c.receive (.command cmd)).getVariable x)).val = b := own _ stored
    have graded : Graded GivesBid x (updated u ((c.receive (.command cmd)).getVariable x)) :=
      updated_givesBid here double filled joins fun cv known => (received.bids cv known).2
    have deref : (tookCommand r c cmd).deref (.stored cmd.variableName) =
        updated u ((c.receive (.command cmd)).getVariable x) := by
      rw [here, deref_stored, stored, Option.getD_some]
    refine received.updates (l := [_]) took rfl here double filled joins rfl rfl
      (Nat.le_of_eq (congrArg LamportClock.time clock.symm)) rfl fun m answer => ?_
    obtain rfl := List.mem_singleton.mp answer
    obtain ⟨name, isBid⟩ := graded _ List.mem_cons_self
    refine ⟨.acknowledge ?_ rfl ?_ ?_ ?_, fun report reports => ?_⟩
    · exact (congrArg toShort ((congrArg Config.ownID config).trans before.ownID)).trans
        before.short
    · exact (congrArg (fun cv : ConsensusVariable => cv.name) deref).trans name
    · rw [commandAnswer, deref]
      exact congrArg toTypeTag isBid.type
    · rw [commandAnswer, deref]
      exact isBid.filled
    · obtain rfl := Option.some.inj reports
      exact ⟨(congrArg (fun cv : ConsensusVariable => cv.val) deref).trans bids, Nat.le_refl _⟩
  · obtain ⟨job, handled⟩ := @handle_command_unanswered r c cmd before.plain reaches answered
    rw [handled] at unwrapped ⊢
    have received := before.receives (.command cmd) (clock ▸ unwrapped)
    exact received.updates (l := []) took rfl here double filled joins rfl rfl
      (Nat.le_of_eq (congrArg LamportClock.time clock.symm)) (List.append_nil _).symm (by simp)

/-- An elector takes an acknowledge. What goes back is no report. -/
theorem Elector.takesAcknowledge {k : Int} {a : CaceAcknowledge} (before : Elector x ids id b c)
    (source : k ∈ ids) (other : k ≠ id) (ballot : Ballot x k (.acknowledge a))
    (unwrapped : (c.handle r (.acknowledge a)).lamportTime.wraps = 0) :
    Elector x ids id b (c.handle r (.acknowledge a)) := by
  obtain ⟨sender, receivers, here, double, filled⟩ : a.senderID = k ∧
      a.receiverID = [broadcastID] ∧ a.variableName = x ∧ a.type = typeCDouble ∧
        a.value ≠ [] := by
    cases ballot
    exact ⟨‹_›, ‹_›, ‹_›, ‹_›, ‹_›⟩
  have reaches : Reaches (.acknowledge a) c a.receiverID :=
    ⟨fun listed => before.unlisted k source other (sender ▸ listed),
      receivers ▸ addressed_broadcast c⟩
  let u := acknowledgeUpdate r (c.receive (.acknowledge a)).ownID a
  have took : (c.receive (.acknowledge a)).updateVariable u = tookAcknowledge r c a := rfl
  have joins : u.co.hasValue = true := by
    simpa [u, acknowledgeUpdate, Believe.setValue] using filled
  have clock : (tookAcknowledge r c a).lamportTime = (c.receive (.acknowledge a)).lamportTime := by
    rw [tookAcknowledge_frame]
  have sender' : (tookAcknowledge r c a).ownID = id := by
    rw [tookAcknowledge_frame]
    exact (congrArg Config.ownID (receive_config c _)).trans before.ownID
  rw [@handle_acknowledge r c a before.plain reaches] at unwrapped ⊢
  generalize tookAcknowledge r c a = d at took clock sender' unwrapped ⊢
  split at unwrapped
  next asks =>
    obtain ⟨began, later⟩ := LamportClock.le_tick d.lamportTime unwrapped
    have received := before.receives (.acknowledge a) (clock ▸ began)
    rw [if_pos asks]
    refine received.updates (l := [_]) took rfl here double filled joins rfl rfl ?_ rfl
      fun m answer => ?_
    · exact Nat.le_trans (Nat.le_of_eq (congrArg LamportClock.time clock.symm)) later
    · obtain rfl := List.mem_singleton.mp answer
      exact ⟨.shortAck ((congrArg toShort sender').trans before.short), by simp [Message.report?]⟩
  next asks =>
    have received := before.receives (.acknowledge a) (clock ▸ unwrapped)
    rw [if_neg asks]
    exact received.updates (l := []) took rfl here double filled joins rfl rfl
      (Nat.le_of_eq (congrArg LamportClock.time clock.symm)) (List.append_nil _).symm (by simp)

/-- An elector takes a short acknowledge. -/
theorem Elector.takesShortAck {k : Int} {sa : CaceShortAck} (before : Elector x ids id b c)
    (source : k ∈ ids) (other : k ≠ id) (ballot : Ballot x k (.shortAck sa))
    (unwrapped : (c.handle r (.shortAck sa)).lamportTime.wraps = 0) :
    Elector x ids id b (c.handle r (.shortAck sa)) := by
  have unlisted : sa.senderID ∉ c.agentBlacklist := fun listed =>
    before.unlisted k source other (ballot.sender ▸ listed)
  have queued : ∀ acks, (c.receive (.shortAck sa)).lamportTime.wraps = 0 →
      Elector x ids id b { c.receive (.shortAck sa) with shortAcks := acks } := by
    intro acks unwrapped
    have received := before.receives (.shortAck sa) unwrapped
    exact received.grow received.bids rfl (List.append_nil _).symm (Nat.le_refl _) nofun
      (fun report ⟨m, t, absent, _⟩ => nomatch absent) (.inl rfl)
  cases addressed : c.addressed sa.receiverID with
  | true =>
    rw [handle_shortAck ⟨unlisted, addressed⟩] at unwrapped ⊢
    exact queued _ unwrapped
  | false =>
    rw [handle_shortAck_other unlisted addressed] at unwrapped ⊢
    exact queued _ unwrapped

/-- What an elector does with a message of another one. -/
theorem Elector.handles {k : Int} {m : Message} (before : Elector x ids id b c)
    (source : k ∈ ids) (other : k ≠ id) (ballot : Ballot x k m)
    (own : ∀ cv, (c.handle r m).getVariable x = some cv → cv.val = b)
    (unwrapped : (c.handle r m).lamportTime.wraps = 0) :
    Elector x ids id b (c.handle r m) := by
  cases m with
  | command => exact before.takesCommand source other ballot own unwrapped
  | acknowledge => exact before.takesAcknowledge source other ballot unwrapped
  | shortAck => exact before.takesShortAck source other ballot unwrapped
  | believeNotification | time | variableRequest | write | writeAck | response => cases ballot

/-- An elector applies the report that it handles, and no other one. -/
theorem Elector.takesIn {k : Int} {m : Message} (before : Elector x ids id b c)
    (source : k ∈ ids) (other : k ≠ id) (ballot : Ballot x k m) :
    TakesIn x m c (c.handle r m) := by
  have unlisted : m.senderID ∉ c.agentBlacklist := fun listed =>
    before.unlisted k source other (ballot.sender ▸ listed)
  refine .of_receive ?_
  cases ballot with
  | @command cmd sender receivers here double filled =>
    have reaches : Reaches (.command cmd) c cmd.receiverID :=
      ⟨unlisted, receivers ▸ addressed_broadcast c⟩
    have took : (c.receive (.command cmd)).updateVariable
        (commandUpdate r (c.receive (.command cmd)).ownID cmd) = tookCommand r c cmd := rfl
    by_cases answered : AcceptStrategy.fireAndForget.code < cmd.level
    · rw [@handle_command r c cmd before.plain reaches answered]
      generalize tookCommand r c cmd = d at took ⊢
      exact .of_update (l := [_]) took here rfl rfl
    · obtain ⟨job, handled⟩ := @handle_command_unanswered r c cmd before.plain reaches answered
      rw [handled]
      exact .of_update (l := []) took here rfl (List.append_nil _).symm
  | @acknowledge a sender receivers here double filled =>
    have reaches : Reaches (.acknowledge a) c a.receiverID :=
      ⟨unlisted, receivers ▸ addressed_broadcast c⟩
    have took : (c.receive (.acknowledge a)).updateVariable
        (acknowledgeUpdate r (c.receive (.acknowledge a)).ownID a) = tookAcknowledge r c a := rfl
    rw [@handle_acknowledge r c a before.plain reaches]
    generalize tookAcknowledge r c a = d at took ⊢
    split
    · exact .of_update (l := [_]) took here rfl rfl
    · exact .of_update (l := []) took here rfl (List.append_nil _).symm
  | @shortAck sa sender =>
    have queued : ∀ acks, TakesIn x (.shortAck sa) (c.receive (.shortAck sa))
        { c.receive (.shortAck sa) with shortAcks := acks } := fun acks =>
      ⟨List.prefix_rfl, fun known => known, nofun, fun m' => .inl⟩
    cases addressed : c.addressed sa.receiverID with
    | true =>
      rw [handle_shortAck ⟨unlisted, addressed⟩]
      exact queued _
    | false =>
      rw [handle_shortAck_other unlisted addressed]
      exact queued _

/-- A report with a level opens the variable where nothing has been heard of it. -/
theorem TakesIn.opened {m : Message} (takes : TakesIn x m c c') (unheard : openings x c.history = [])
    (leveled : ∀ report, m.report? = some report → m.strategy?.isSome = true) : Opened x c' := by
  intro first head
  obtain ⟨o, member, opening⟩ := List.mem_filterMap.mp (List.mem_of_head? head)
  cases o with
  | applied m' =>
    simp only at opening
    split at opening
    next about =>
      obtain rfl := Option.some.inj opening
      obtain ⟨report, reports, -⟩ := Option.map_eq_some_iff.mp about
      rcases takes.only m' member with old | rfl
      · have heard : m' ∈ openings x c.history :=
          List.mem_filterMap.mpr ⟨.applied m', old, by simp [about]⟩
        rw [unheard] at heard
        cases heard
      · exact leveled report reports
    next => cases opening
  | received | published | notified => cases opening

end Events

end CaceProofs.Guarantees
