import CaceProofs.Guarantees.PlainAgents
import CaceProofs.Guarantees.SingleWriter
import CaceProofs.Guarantees.StoreWellFormed
import CaceProofs.Source.ModeSwitch

/-!
# Values across mode switches

A new communication module comes with a new clock. A value that is distributed afterwards may
carry an older stamp than the value before, and a peer that knows that one ignores it.
-/
namespace CaceProofs.Guarantees
open Source Library

/-- What happens to an agent between two values: its module is exchanged, or it hears
something. -/
inductive Interlude where
  | setQuiet (id : Int)
  | unsetQuiet (id : Int)
  | substitute (cc : CaceCommunication)
  | hear (r : Readings) (m : Message)

def Interlude.exec (c : Cace) : Interlude → Cace
  | .setQuiet id => c.setQuiet id
  | .unsetQuiet id => c.unsetQuiet id
  | .substitute cc => c.substituteCaceCommunication cc
  | .hear r m => c.handle r m

/-- The levels of the default strategy that are distributed. -/
def DefaultLevel (s : AcceptStrategy) : Prop :=
  s = .fireAndForget ∨ s = .twoWayHandShake ∨ s = .threeWayHandShake

/-- A value that an agent distributes. -/
structure Offer where
  r : Readings
  value : Bytes
  type : Int
  strategy : AcceptStrategy

/-- The command of an offer. -/
def Offer.command (o : Offer) (c : Cace) (x : Name) : CaceCommand :=
  distributedCommand (CaceSpace.decideValue o.r c x o.value o.type o.strategy) x o.value

def Offer.distribute (o : Offer) (c : Cace) (x : Name) : Cace :=
  CaceSpace.distributeValue o.r c x o.value o.type o.strategy

section Stamps

variable {o : Offer} {c : Cace} {x : Name}

theorem DefaultLevel.default {strategy : AcceptStrategy} (level : DefaultLevel strategy) :
    strategy.acceptFunction = .default := by
  rcases level with rfl | rfl | rfl <;> rfl

/-- A level travels as an int16. -/
theorem DefaultLevel.sent {strategy : AcceptStrategy} (level : DefaultLevel strategy) :
    DefaultLevel ⟨toShort strategy.code⟩ := by
  rcases level with rfl | rfl | rfl
  · exact .inl (by decide)
  · exact .inr (.inl (by decide))
  · exact .inr (.inr (by decide))

theorem sent_of {s : AcceptStrategy} (level : DefaultLevel s) : .noDistribution < s := by
  rcases level with one | two | three
  · exact one ▸ (by decide)
  · exact two ▸ (by decide)
  · exact three ▸ (by decide)

theorem offer_command : (o.command c x).senderID = toShort c.ownID ∧
    (o.command c x).receiverID = [broadcastID] ∧ (o.command c x).value = o.value ∧
    (o.command c x).lamportTime = c.lamportTime.tick.time ∧
    (o.command c x).level = toShort o.strategy.code := by
  have frame := decideValue_frame o.r c x o.value o.type o.strategy
  have strategy : ((CaceSpace.decideValue o.r c x o.value o.type o.strategy).deref
      (.stored x)).strategy = o.strategy := by
    rw [deref_stored, getVariable_decideValue, if_pos rfl]
    cases c.getVariable x <;> rfl
  have owner : (CaceSpace.decideValue o.r c x o.value o.type o.strategy).ownID = c.ownID := by
    rw [frame]
  have clock : (CaceSpace.decideValue o.r c x o.value o.type o.strategy).lamportTime =
      c.lamportTime := by rw [frame]
  unfold Offer.command distributedCommand Cace.commandMessage
  rw [strategy, clock]
  exact ⟨congrArg toShort owner, rfl, rfl, rfl, rfl⟩

end Stamps

section Names

variable {x : Name} {c c' : Cace}

/-- The variable and its proposals have that name. -/
def Bears (x : Name) (cv : ConsensusVariable) : Prop :=
  cv.name = x ∧ ∀ p ∈ cv.proposals, p.name = x

theorem Bears.acceptProposals {cv : ConsensusVariable} (bears : Bears x cv)
    (value : Option Bytes) : Bears x (cv.acceptProposals value) := by
  refine ⟨?_, bears.2⟩
  rcases (acceptProposals_spec cv value).2 with ⟨same, -⟩ | ⟨winner, inProposals, taken, -⟩
  · exact same.trans bears.1
  · exact taken.trans (bears.2 winner inProposals)

theorem Bears.updated {u : ProposalUpdate} {old : Option ConsensusVariable}
    (here : u.variableName = x) (before : ∀ cv, old = some cv → Bears x cv) :
    Bears x (updated u old) := by
  obtain ⟨overwriteName, freshName, ownName, coName⟩ := u.named
  cases old with
  | none =>
    refine Bears.acceptProposals ⟨ownName.trans here, fun p member => ?_⟩ _
    exact List.mem_singleton.mp member ▸ coName.trans here
  | some cv =>
    have bears := before cv rfl
    unfold Guarantees.updated
    dsimp only
    split
    next recorded found =>
      refine Bears.acceptProposals ⟨?_, fun p member => ?_⟩ _
      · rw [recordProposal_own found]
        exact bears.1
      · rcases mem_recordProposal found member with old | rfl | ⟨old, inProposals, -, rfl⟩
        · exact bears.2 p old
        · exact (freshName _).trans here
        · exact (overwriteName old).trans (bears.2 old inProposals)
    next => exact bears

/-- The name under which a variable is stored is its own. -/
def NamedAt (x : Name) (c : Cace) : Prop :=
  ∀ cv, c.getVariable x = some cv → Bears x cv

/-- What is heard leaves the names alone. -/
theorem NamedAt.path {r : Readings} (path : Path r { passes := fun _ => False } c c')
    (before : NamedAt x c) : NamedAt x c' := by
  refine preserved_by_steps (fun c c' effect before cv found => ?_) path before
  rcases effect_variable effect found with ⟨old, stored, rfl | rfl⟩ | ⟨u, here, -, -, rfl⟩ |
    ⟨cmd, rfl, -, rfl⟩ | ⟨value, type, strategy, -, rfl⟩ | ⟨var, given, -⟩
  · exact before cv stored
  · exact ⟨(before old stored).1, (before old stored).2⟩
  · exact Bears.updated here fun cv stored => before cv stored
  · cases stored : c.getVariable cmd.variableName with
    | none => exact ⟨rfl, fun _ member => (List.not_mem_nil member).elim⟩
    | some cv => exact ⟨(before cv stored).1, (before cv stored).2⟩
  · cases stored : c.getVariable x with
    | none => exact ⟨rfl, fun _ member => (List.not_mem_nil member).elim⟩
    | some cv => exact ⟨(before cv stored).1, (before cv stored).2⟩
  · exact given.elim

end Names

/-- An agent distributes a value, has its interludes, and distributes another value. A peer
handles the first command, and later the second one. -/
structure Succession where
  name : Name
  sender : Cace
  first : Offer
  interludes : List Interlude
  second : Offer
  peer : Cace
  between : Cace
  r : Readings
  r' : Readings

namespace Succession

variable (s : Succession)

/-- The sender before the second value. -/
def paused : Cace :=
  s.interludes.foldl Interlude.exec (s.first.distribute s.sender s.name)

def firstCommand : CaceCommand :=
  s.first.command s.sender s.name

def secondCommand : CaceCommand :=
  s.second.command s.paused s.name

def informed : Cace :=
  s.peer.handle s.r (.command s.firstCommand)

def final : Cace :=
  s.between.handle s.r' (.command s.secondCommand)

/-- The age that the first command has for the peer: the clock of the sender, or of a quiet
peer itself. -/
def firstStamp : Nat :=
  if s.peer.quiet then s.peer.lamportTime.tick.time else s.sender.lamportTime.tick.time

def secondStamp : Nat :=
  if s.between.quiet then s.between.lamportTime.tick.time else s.paused.lamportTime.tick.time

/-- What the second command reports to the peer. -/
def report : Belief Int Bytes :=
  ⟨toShort s.sender.ownID, s.secondStamp, s.second.value⟩

/-- The peer believes the second value. -/
def Superseded : Prop :=
  (s.final.getVariable s.name).map (fun cv => cv.val) = some s.second.value

/-- Both values are published under the same ID to a peer that listens and takes what it hears
at once. -/
structure Proper : Prop where
  queued : s.sender.Queued
  named : NamedAt s.name s.sender
  levels : DefaultLevel s.first.strategy ∧ DefaultLevel s.second.strategy
  publishes : s.sender.quiet = false ∧ s.paused.quiet = false
  again : s.paused.ownID = s.sender.ownID
  direct : s.between.safeStepMode = false
  listens : toShort s.sender.ownID ∉ s.between.agentBlacklist
  ownListed : s.between.ownID ∈ s.between.agentBlacklist
  own : ∀ cv, s.between.getVariable s.name = some cv →
    OwnVariable s.between.ownID s.name cv ∧ DefaultStrategies cv

/-- The first command is the newest thing that the peer hears of before the second one. -/
structure Undisturbed : Prop where
  peer : config s.between = config s.peer
  own : ∀ cv, s.peer.getVariable s.name = some cv →
    OwnVariable s.peer.ownID s.name cv ∧ DefaultStrategies cv
  older : ∀ cv, s.peer.getVariable s.name = some cv → ∀ b ∈ cv.toBelieve :: cv.proposals,
    b.lamportAge < s.firstStamp
  between : s.between.getVariable s.name = s.informed.getVariable s.name

end Succession

section Successions

variable {s : Succession}

/-- The interludes keep the names. -/
theorem paused_named (proper : s.Proper) : NamedAt s.name s.paused := by
  have keeps : ∀ (l : List Interlude) (c : Cace), c.Queued → NamedAt s.name c →
      NamedAt s.name (l.foldl Interlude.exec c) := by
    intro l
    induction l with
    | nil => exact fun c _ named => named
    | cons i l ih =>
      intro c queued named
      have switched : ∀ cc, (c.substituteCaceCommunication cc).Queued := by
        intro cc
        have fewer : (c.substituteCaceCommunication cc).queues.held ⊆ c.queues.held :=
          held_subset (List.nil_subset _) (List.nil_subset _) (List.nil_subset _)
            (List.nil_subset _) (List.Subset.refl _)
        exact ⟨fun m member => queued.received m (fewer member), rfl⟩
      cases i with
      | setQuiet id => exact ih _ ⟨(switched (.construct true id)).received, rfl⟩ named
      | unsetQuiet id => exact ih _ ⟨(switched (.construct false id)).received, rfl⟩ named
      | substitute cc => exact ih _ (switched cc) named
      | hear r m =>
        have path : Path r { passes := fun _ => False } c (c.handle r m) :=
          handle_path queued trivial (fun _ => trivial) fun _ _ _ => trivial
        exact ih _ (path.queued queued) (NamedAt.path path named)
  have start : (s.first.distribute s.sender s.name).Queued ∧
      NamedAt s.name (s.first.distribute s.sender s.name) := by
    have path : Path s.first.r { passes := fun _ => False } s.sender
        (s.first.distribute s.sender s.name) := distributeValue_path proper.queued trivial
    exact ⟨path.queued proper.queued, NamedAt.path path proper.named⟩
  exact keeps s.interludes _ start.1 start.2

theorem command_name {o : Offer} {c : Cace} {x : Name} (named : NamedAt x c) :
    (o.command c x).variableName = x := by
  have stored : (CaceSpace.decideValue o.r c x o.value o.type o.strategy).deref (.stored x) =
      decided o.r c x o.value o.type o.strategy (c.getVariable x) := by
    rw [deref_stored, getVariable_decideValue, if_pos rfl]
    rfl
  have name : (o.command c x).variableName =
      ((CaceSpace.decideValue o.r c x o.value o.type o.strategy).deref (.stored x)).name := rfl
  rw [name, stored]
  cases known : c.getVariable x with
  | none => rfl
  | some cv => exact (named cv known).1

/-- A command of a default level at a peer is the receipt of its report. -/
theorem registerAt_command {d : Cace} {m : CaceCommand} {x : Name} {r : Readings}
    (direct : d.safeStepMode = false) (reaches : Reaches (.command m) d m.receiverID)
    (here : m.variableName = x) (level : (⟨m.level⟩ : AcceptStrategy).acceptFunction = .default)
    (default : ∀ cv, d.getVariable x = some cv → DefaultStrategies cv) :
    registerAt (d.handle r (.command m)) x = some (Register.receive d.ownID
        ⟨m.senderID, (d.stampedCommand m).lamportTime, m.value⟩ (registerAt d x)) ∧
      ∀ cv, (d.handle r (.command m)).getVariable x = some cv → DefaultStrategies cv := by
  obtain ⟨sender, value, level', name⟩ : (d.stampedCommand m).senderID = m.senderID ∧
      (d.stampedCommand m).value = m.value ∧ (d.stampedCommand m).level = m.level ∧
      (d.stampedCommand m).variableName = m.variableName := by
    unfold Cace.stampedCommand
    split <;> exact ⟨rfl, rfl, rfl, rfl⟩
  have stored := handle_command_stored (r := r) direct reaches
  have same : (d.handle r (.command m)).getVariable x =
      (tookCommand r d (d.stampedCommand m)).getVariable x := by
    rw [Cace.getVariable, stored]
    rfl
  rw [registerAt_eq same, same]
  generalize d.stampedCommand m = cmd at sender value level' name ⊢
  have received : (d.receive (.command cmd)).getVariable x = d.getVariable x := by
    rw [Cace.getVariable, receive_store]
    rfl
  have default' : ∀ cv, (d.receive (.command cmd)).getVariable x = some cv →
      DefaultStrategies cv := received.symm ▸ default
  let u := commandUpdate r (d.receive (.command cmd)).ownID cmd
  have update : DefaultUpdate u := by
    intro s carried
    obtain rfl : (⟨cmd.level⟩ : AcceptStrategy) = s := Option.some.inj carried
    rw [level']
    exact level
  have about : u.variableName = x := name.trans here
  refine ⟨?_, ?_⟩
  · have register := registerAt_updateVariable update default' about
    have owner : u.ownID = d.ownID := congrArg Config.ownID (receive_config d _)
    rw [registerAt_eq received, owner] at register
    refine register.trans ?_
    rw [← sender, ← value]
    rfl
  · intro cv found
    have known := getVariable_updateVariable (d.receive (.command cmd)) u x
    rw [if_pos about.symm] at known
    obtain rfl := Option.some.inj (known.symm.trans found)
    exact (registerOf_updated update fun cv old => default' cv (about ▸ old)).2

/-- The command of an offer, at a peer that listens. -/
theorem registerAt_offer {o : Offer} {c d : Cace} {x : Name} {r : Readings}
    (named : NamedAt x c) (level : DefaultLevel o.strategy) (direct : d.safeStepMode = false)
    (listens : toShort c.ownID ∉ d.agentBlacklist)
    (default : ∀ cv, d.getVariable x = some cv → DefaultStrategies cv) :
    registerAt (d.handle r (.command (o.command c x))) x = some (Register.receive d.ownID
        ⟨toShort c.ownID, if d.quiet then d.lamportTime.tick.time else c.lamportTime.tick.time,
          o.value⟩ (registerAt d x)) ∧
      ∀ cv, (d.handle r (.command (o.command c x))).getVariable x = some cv →
        DefaultStrategies cv := by
  obtain ⟨sender, receivers, value, clock, code⟩ := @offer_command o c x
  have stamp : (d.stampedCommand (o.command c x)).lamportTime =
      if d.quiet then d.lamportTime.tick.time else c.lamportTime.tick.time := by
    unfold Cace.stampedCommand
    split
    · rfl
    · exact clock
  have reaches : Reaches (.command (o.command c x)) d (o.command c x).receiverID := by
    refine ⟨?_, ?_⟩
    · exact (congrArg (· ∉ d.agentBlacklist) sender).mpr listens
    · simp [Cace.addressed, receivers]
  have handled := registerAt_command (r := r) direct reaches (command_name named)
    ((congrArg (fun l => (⟨l⟩ : AcceptStrategy).acceptFunction) code).trans level.sent.default)
    default
  rw [stamp, sender, value] at handled
  exact handled

theorem registerOf_sound {c : Cace} {x : Name}
    (own : ∀ cv, c.getVariable x = some cv → OwnVariable c.ownID x cv ∧ DefaultStrategies cv) :
    ∀ reg, registerAt c x = some reg → Register.Sound c.ownID reg := by
  intro reg known
  obtain ⟨cv, stored, rfl⟩ := Option.map_eq_some_iff.mp known
  obtain ⟨own, -⟩ := own cv stored
  refine ⟨own.own, ?_, fun a record => ?_⟩
  · simpa [registerOf, List.map_map, Function.comp_def, beliefOf] using own.distinct
  · obtain ⟨p, proposal, rfl⟩ := List.mem_map.mp record
    exact fun same => own.foreign (List.mem_map.mpr ⟨p, proposal, same⟩)

/-- The value that the peer ends with. -/
theorem final_value (proper : s.Proper) : s.Superseded ↔
    (Register.receive s.between.ownID s.report (registerAt s.between s.name)).own.value =
      s.second.value := by
  have listens : toShort s.paused.ownID ∉ s.between.agentBlacklist := by
    rw [proper.again]
    exact proper.listens
  obtain ⟨final, -⟩ := @registerAt_offer _ _ _ _ s.r' (paused_named proper) proper.levels.2
    proper.direct listens fun cv stored => (proper.own cv stored).2
  have believed : (s.final.getVariable s.name).map (fun cv => cv.val) =
      (registerAt s.final s.name).map fun reg => reg.own.value := by
    unfold registerAt
    rw [Option.map_map]
    rfl
  unfold Succession.Superseded
  rw [believed]
  refine (congrArg (fun reg => Option.map (fun reg : Register Int Bytes => reg.own.value) reg =
    some s.second.value) final).to_iff.trans ?_
  rw [Option.map_some, Option.some.injEq, proper.again]
  exact Iff.rfl

/-- The peer ends with the second value exactly if the report of the second command supersedes
what it holds. If nothing came between the two, this is so exactly if the second value is the
first one again, or carries the newer stamp. -/
theorem later_value_supersedes (proper : s.Proper) :
    (s.Superseded ↔ ∀ reg, registerAt s.between s.name = some reg → reg.Supersedes s.report) ∧
      (s.Undisturbed →
        (s.Superseded ↔ s.first.value = s.second.value ∨ s.firstStamp < s.secondStamp)) := by
  have other : s.report.id ≠ s.between.ownID := by
    intro same
    exact proper.listens (same.symm ▸ proper.ownListed : s.report.id ∈ s.between.agentBlacklist)
  have sound := registerOf_sound proper.own
  refine ⟨?_, fun undisturbed => ?_⟩
  · rw [final_value proper]
    cases known : registerAt s.between s.name with
    | none => exact iff_of_true rfl fun reg held => by cases held
    | some reg =>
      rw [show s.second.value = s.report.value from rfl,
        Register.receive_supersedes (sound reg known) other]
      exact ⟨fun holds reg' held => Option.some.inj held ▸ holds, fun all => all reg rfl⟩
  · have listed : s.between.agentBlacklist = s.peer.agentBlacklist :=
      congrArg Config.agentBlacklist undisturbed.peer
    have owner : s.between.ownID = s.peer.ownID := congrArg Config.ownID undisturbed.peer
    have direct : s.peer.safeStepMode = false :=
      (congrArg Config.safeStepMode undisturbed.peer).symm.trans proper.direct
    obtain ⟨informed, -⟩ := registerAt_offer (r := s.r) proper.named proper.levels.1 direct
      (listed ▸ proper.listens) fun cv stored => (undisturbed.own cv stored).2
    have middle : registerAt s.between s.name = registerAt s.informed s.name :=
      registerAt_eq undisturbed.between
    have newest : ∀ reg, registerAt s.peer s.name = some reg → ∀ a ∈ reg.beliefs,
        a.age < s.firstStamp := by
      intro reg known a member
      obtain ⟨cv, stored, rfl⟩ := Option.map_eq_some_iff.mp known
      have all := undisturbed.older cv stored
      rcases List.mem_cons.mp member with rfl | record
      · exact all _ List.mem_cons_self
      · obtain ⟨p, proposal, rfl⟩ := List.mem_map.mp record
        exact all p (List.mem_cons_of_mem _ proposal)
    let b : Belief Int Bytes := ⟨toShort s.sender.ownID, s.firstStamp, s.first.value⟩
    rw [final_value proper, middle, Succession.informed, Succession.firstCommand, informed, owner]
    exact @Register.receive_twice _ _ _ _ b s.report _ newest (registerOf_sound undisturbed.own)
      (owner ▸ other) rfl

/-- As long as the module stays and the clock does not wrap, the second stamp is the newer
one. -/
theorem stamps_advance (proper : s.Proper)
    (heard : ∀ i ∈ s.interludes, ∃ r m, i = .hear r m)
    (unwrapped : s.paused.lamportTime.tick.wraps = 0) :
    s.sender.lamportTime.tick.time < s.paused.lamportTime.tick.time := by
  have keeps : ∀ (l : List Interlude) (c : Cace), (∀ i ∈ l, ∃ r m, i = .hear r m) → c.Queued →
      c.lamportTime ≤ (l.foldl Interlude.exec c).lamportTime := by
    intro l
    induction l with
    | nil => exact fun c _ _ => le_refl _
    | cons i l ih =>
      intro c all queued
      obtain ⟨r, m, rfl⟩ := all i List.mem_cons_self
      have path : Path r {} c (c.handle r m) :=
        handle_path queued trivial (fun _ => trivial) fun _ _ _ => trivial
      exact le_trans path.clock
        (ih _ (fun i member => all i (List.mem_cons_of_mem _ member)) (path.queued queued))
  have path : Path s.first.r {} s.sender (s.first.distribute s.sender s.name) :=
    distributeValue_path proper.queued trivial
  have later : s.sender.lamportTime.tick ≤ s.paused.lamportTime := by
    have first : (s.first.distribute s.sender s.name).lamportTime = s.sender.lamportTime.tick := by
      rw [Offer.distribute, distributeValue_loud proper.publishes.1 (sent_of proper.levels.1)]
      have frame := decideValue_frame s.first.r s.sender s.name s.first.value s.first.type
        s.first.strategy
      have clock : (CaceSpace.decideValue s.first.r s.sender s.name s.first.value s.first.type
          s.first.strategy).lamportTime = s.sender.lamportTime := by rw [frame]
      exact congrArg LamportClock.tick clock
    exact first ▸ keeps s.interludes _ heard (path.queued proper.queued)
  have paused := LamportClock.tick_time unwrapped
  have before := later (LamportClock.le_tick _ unwrapped).1
  omega

end Successions

section Examples

/-- An agent that has been told that x is 7. -/
def toldSeven : Cace :=
  (Cace.construct 2 false 10).handle .zero
    (.command (Offer.command ⟨.zero, [7], 0, .fireAndForget⟩ (.construct 1 false 10) ['x']))

theorem toldSeven_own : ∀ cv, toldSeven.getVariable ['x'] = some cv →
    OwnVariable toldSeven.ownID ['x'] cv ∧ DefaultStrategies cv := by
  intro cv stored
  obtain rfl := Option.some.inj stored
  refine ⟨⟨by decide, by decide, by decide, by decide, by decide⟩, ?_⟩
  unfold DefaultStrategies
  decide

/-- The values 7 and 8 under the ID 1, and a peer that hears nothing else. -/
def renewal (interludes : List Interlude) : Succession where
  name := ['x']
  sender := .construct 1 false 10
  first := ⟨.zero, [7], 0, .fireAndForget⟩
  interludes := interludes
  second := ⟨.zero, [8], 0, .fireAndForget⟩
  peer := .construct 2 false 10
  between := toldSeven
  r := .zero
  r' := .zero

theorem renewal_proper {interludes : List Interlude}
    (publishes : (renewal interludes).paused.quiet = false)
    (again : (renewal interludes).paused.ownID = 1) : (renewal interludes).Proper where
  queued := ⟨fun m held => (List.not_mem_nil held).elim, rfl⟩
  named := by
    intro cv stored
    cases stored
  levels := ⟨.inl rfl, .inl rfl⟩
  publishes := ⟨rfl, publishes⟩
  again := again
  direct := show toldSeven.safeStepMode = false by decide
  listens := show toShort 1 ∉ toldSeven.agentBlacklist by decide
  ownListed := show toldSeven.ownID ∈ toldSeven.agentBlacklist by decide
  own := toldSeven_own

theorem renewal_undisturbed (interludes : List Interlude) :
    (renewal interludes).Undisturbed where
  peer := show config toldSeven = config (.construct 2 false 10) from rfl
  own := by
    intro cv stored
    cases stored
  older := by
    intro cv stored
    cases stored
  between := rfl

/-- With a switch to quiet and back, after which the sender hears a later message of another
agent about another variable. -/
theorem later_value_supersedes_caughtUp :
    (renewal [.setQuiet 1, .unsetQuiet 1,
      .hear .zero (.command ⟨3, [0], ['y'], [5], 0, 0, 10, 300, 4, 0⟩)]).Superseded :=
  ((later_value_supersedes (renewal_proper (by decide) (by decide))).2
    (renewal_undisturbed _)).mpr (.inr (by decide))

theorem not_superseded : ¬ (renewal [.setQuiet 1, .unsetQuiet 1]).Superseded := by
  unfold Succession.Superseded
  decide

/-- With one, the second value carries the stamp of the first one. -/
theorem later_value_supersedes_switched :
    ∃ s : Succession, s.Proper ∧ s.Undisturbed ∧ ¬ s.Superseded :=
  ⟨renewal [.setQuiet 1, .unsetQuiet 1], renewal_proper rfl (by decide),
    renewal_undisturbed _, not_superseded⟩

end Examples

end CaceProofs.Guarantees
