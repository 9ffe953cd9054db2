import CaceProofs.Guarantees.Contenders

/-!
# Mutual exclusion

Agents that contend for a mutex are a poll about who has it. In the strict mode an agent finds
itself the owner when it believes in itself and all the others are on record as believing so. Two
agents can do that only if one of them has turned to itself against crossing votes.
-/
namespace CaceProofs.Guarantees
open Source Library

section Systems

variable {x : Name} {s s' : System}

/-- The registers of the agents, and what is in flight to each of them about the mutex. -/
def poll (x : Name) (s : System) : Poll Int Bytes where
  register id := registerAt (s.agents id) x
  pending id := s.flight.filterMap fun p => if p.1 = id then beliefIn x p.2 else none

theorem mem_pending {id : Int} {b : Belief Int Bytes} :
    b ∈ (poll x s).pending id ↔ ∃ m, (id, m) ∈ s.flight ∧ beliefIn x m = some b := by
  unfold poll
  simp only [List.mem_filterMap]
  constructor
  · rintro ⟨⟨j, m⟩, inFlight, about⟩
    dsimp only at about
    split at about
    next here => exact ⟨m, here ▸ inFlight, about⟩
    next => cases about
  · rintro ⟨m, inFlight, about⟩
    exact ⟨(id, m), inFlight, (if_pos rfl).trans about⟩

/-- The agents of a system contend for the mutex. -/
structure Contest (x : Name) (s : System) : Prop where
  traced : Traced s
  contenders : ∀ id ∈ s.ids, Contender x s.ids id (s.agents id)

/-- The mutex is polled or given back, another variable is added or distributed, or a message
arrives, again or never. -/
def Contends (x : Name) (s : System) : System.Event → Prop
  | .call _ _ (.pNoBlock name _ _) | .call _ _ (.v name) => name = x
  | .call _ _ (.distributeValue name _ _ _) => name ≠ x
  | .call _ _ (.addVariable var _) => Beside x var
  | .call id _ (.distributeVariable variablePtr) => Beside x ((s.agents id).deref variablePtr)
  | .deliver _ _ _ | .duplicate _ _ _ | .lose _ _ => True
  | .call _ _ _ => False

/-- The agent that may come to believe in itself in an event, judged from the state before. -/
def turning (x : Name) (s : System) : System.Event → Option Int
  | .call id r (.pNoBlock _ strict robots) =>
    if Requests r (s.agents id) x strict robots then some id else none
  | .deliver id _ m | .duplicate id _ m =>
    (heardBelief x (s.agents id) m).bind fun b =>
      if Poll.Elects holderOf id b (registerAt (s.agents id) x) then some id else none
  | .call _ _ _ | .lose _ _ => none

/-- No agent turns to itself while another believes in itself, with votes of both for each other
recorded or still to be recorded. -/
def TurnsUnopposed (x : Name) (s : System) (e : System.Event) : Prop :=
  ∀ i ∈ turning x s e, ¬ (poll x s).Stands holderOf i → (poll x s).Unopposed holderOf s.ids i

instance (x : Name) (s : System) (e : System.Event) : Decidable (TurnsUnopposed x s e) :=
  inferInstanceAs (Decidable (∀ i ∈ turning x s e, ¬ (poll x s).Stands holderOf i →
    (poll x s).Unopposed holderOf s.ids i))

/-- What is new in flight after a commit has been published on the way to it. -/
theorem commit_inFlight {i j : Int} {c : Cace} {m : Message} {later : List Observation}
    (history : c.history = (s.agents i).history ++ later)
    (inFlight : (j, m) ∈ (s.commit i c).flight) :
    (j, m) ∈ s.flight ∨ j ≠ i ∧ ∃ t, .published m t ∈ later := by
  refine (List.mem_append.mp inFlight).imp_right fun new => ?_
  obtain ⟨m', published, copies⟩ := List.mem_flatMap.mp new
  obtain ⟨k, others, same⟩ := List.mem_map.mp copies
  obtain ⟨rfl, rfl⟩ := Prod.mk.inj same
  obtain ⟨o, inLater, message⟩ := List.mem_filterMap.mp published
  rw [history, List.drop_left] at inLater
  refine ⟨by simpa using (List.mem_filter.mp others).2, ?_⟩
  cases o with
  | published m t =>
    obtain rfl := Option.some.inj message
    exact ⟨t, inLater⟩
  | received | applied | notified => cases message

/-- A contender plays; nothing else comes into flight. -/
theorem Plays.turn {i : Int} {c : Cace} {decision : Option Bytes}
    {heard : Option (Belief Int Bytes)} {flight : List (Int × Message)}
    (plays : Plays x s.ids i decision heard (s.agents i) c)
    (kept : flight ⊆ s.flight) (reported : ∀ b ∈ heard, b ∈ (poll x s).pending i) :
    Poll.Turn (poll x s) (poll x ({ s with flight := flight }.commit i c)) i := by
  obtain ⟨later, history, honest⟩ := plays.history
  have here : ({ s with flight := flight }.commit i c).agents i = c := Function.update_self ..
  refine ⟨fun j other => ?_, ?_, fun j b waits => ?_⟩
  · exact congrArg (fun c => registerAt c x) (Function.update_of_ne other _ _)
  · simp only [poll, here]
    rcases plays.revises with same | ⟨value, -, age, decided⟩ | ⟨b, inHeard, received⟩
    · exact .inl same
    · exact .inr (.inl ⟨age, value, decided⟩)
    · exact .inr (.inr ⟨b, reported b inHeard, received⟩)
  · obtain ⟨m, inFlight, about⟩ := mem_pending.mp waits
    rcases @commit_inFlight { s with flight := flight } i j c m later history inFlight with
      old | ⟨other, t, published⟩
    · exact .inl (mem_pending.mpr ⟨m, kept old, about⟩)
    · obtain ⟨sender, reg, known, value⟩ := honest m t published b about
      refine .inr ⟨other, sender, reg, ?_, value⟩
      simp only [poll, here]
      exact known

/-- A contender plays; the others stay contenders. -/
theorem Contest.plays {i : Int} {c : Cace} {decision : Option Bytes}
    {heard : Option (Belief Int Bytes)} {flight : List (Int × Message)} (before : Contest x s)
    (plays : Plays x s.ids i decision heard (s.agents i) c)
    (traced : Traced ({ s with flight := flight }.commit i c)) :
    Contest x ({ s with flight := flight }.commit i c) := by
  refine ⟨traced, fun j member => ?_⟩
  by_cases here : j = i
  · subst here
    change Contender x s.ids j (Function.update s.agents j c j)
    rw [Function.update_self]
    exact plays.contender
  · change Contender x s.ids j (Function.update s.agents i c j)
    rw [Function.update_of_ne here]
    exact before.contenders j member

/-- What is in flight, a contender has published. -/
theorem Contest.inFlight (before : Contest x s) {id : Int} {m : Message}
    (inFlight : (id, m) ∈ s.flight) : id ∈ s.ids ∧ ∃ k ∈ s.ids, k ≠ id ∧ Utters x k m := by
  obtain ⟨k, member, other, t, published⟩ := before.traced.inFlight id m inFlight
  exact ⟨before.traced.routed _ inFlight, k, member, other,
    (before.contenders k member).utters m t published⟩

/-- An event is a turn of the poll, in which only an agent can turn to itself that the state before
elects. -/
structure Contest.Advances (x : Name) (s : System) (e : System.Event) (s' : System) : Prop where
  contest : Contest x s'
  turn : ∃ i, Poll.Turn (poll x s) (poll x s') i ∧
    ((poll x s').Stands holderOf i → ¬ (poll x s).Stands holderOf i → turning x s e = some i)

/-- A contender plays, and turns to itself at most where the state before elects it. -/
theorem Contest.advances {i : Int} {c : Cace} {decision : Option Bytes}
    {heard : Option (Belief Int Bytes)} {flight : List (Int × Message)} {e : System.Event}
    (before : Contest x s) (plays : Plays x s.ids i decision heard (s.agents i) c)
    (kept : flight ⊆ s.flight) (reported : ∀ b ∈ heard, b ∈ (poll x s).pending i)
    (traced : Traced ({ s with flight := flight }.commit i c))
    (decides : ∀ value ∈ decision, holderOf value = i →
      registerAt c x = registerAt (s.agents i) x ∨ turning x s e = some i)
    (elects : ∀ b ∈ heard, Poll.Elects holderOf i b (registerAt (s.agents i) x) →
      turning x s e = some i) :
    Contest.Advances x s e ({ s with flight := flight }.commit i c) := by
  have register : (poll x ({ s with flight := flight }.commit i c)).register i =
      registerAt c x := by
    change registerAt (Function.update s.agents i c i) x = _
    rw [Function.update_self]
  refine ⟨before.plays plays traced, i, plays.turn kept reported, fun stands resigned => ?_⟩
  obtain ⟨reg, known, own⟩ := stands
  rw [register] at known
  have keeps : registerAt c x = registerAt (s.agents i) x → turning x s e = some i := fun same =>
    absurd ⟨reg, (same.symm.trans known : registerAt (s.agents i) x = some reg), own⟩ resigned
  rcases plays.revises with same | ⟨value, chosen, age, decided⟩ | ⟨b, inHeard, received⟩
  · exact keeps same
  · refine (decides value chosen ?_).elim keeps fun turns => turns
    obtain rfl := Option.some.inj (decided.symm.trans known)
    rw [← own]
    cases registerAt (s.agents i) x <;> rfl
  · obtain rfl := Option.some.inj (received.symm.trans known)
    exact elects b inHeard (Poll.elects_of_receive own)

/-- A message is handled, and may stay in flight. -/
theorem Contest.handles {id : Int} {r : Readings} {m : Message} {e : System.Event}
    {flight : List (Int × Message)} (before : Contest x s) (inFlight : (id, m) ∈ s.flight)
    (kept : flight ⊆ s.flight)
    (traced : Traced ({ s with flight := flight }.commit id ((s.agents id).handle r m)))
    (turns : ∀ b ∈ heardBelief x (s.agents id) m,
      Poll.Elects holderOf id b (registerAt (s.agents id) x) → turning x s e = some id) :
    Contest.Advances x s e ({ s with flight := flight }.commit id ((s.agents id).handle r m)) := by
  obtain ⟨member, k, -, -, utters⟩ := before.inFlight inFlight
  refine before.advances ((before.contenders id member).handles utters) kept (fun b hears => ?_)
    traced nofun turns
  unfold heardBelief at hears
  split at hears
  · cases hears
  · exact mem_pending.mpr ⟨m, inFlight, hears⟩

/-- A call of a contender. -/
theorem Contest.calls {id : Int} {r : Readings} {e : Cace.Event} (before : Contest x s)
    (positive : ∀ id ∈ s.ids, 0 < id) (allowed : Contends x s (.call id r e))
    (next : s.Next (.call id r e) s') : Contest.Advances x s (.call id r e) s' := by
  have traced := before.traced.step next
  unfold System.Next System.exec at next
  dsimp only at next
  split at next
  next member =>
    have contender := before.contenders id member
    cases e with
    | distributeValue name value type strategy =>
      obtain rfl := Option.some.inj next
      have plays := @Contender.distributes x name s.ids id r (s.agents id) value type strategy
        contender fun here => absurd here allowed
      rw [if_neg allowed] at plays
      exact before.advances plays (List.Subset.refl _) nofun traced nofun nofun
    | pNoBlock name strict robots =>
      obtain rfl := Option.some.inj next
      obtain rfl : name = x := allowed
      obtain ⟨plays, refuses⟩ := @Contender.polls name s.ids id r (s.agents id) strict robots
        contender
      refine before.advances plays (List.Subset.refl _) nofun traced (fun value _ _ => ?_) nofun
      by_cases requests : Requests r (s.agents id) name strict robots
      · exact .inr (if_pos requests)
      · exact .inl (congrArg (fun c => registerAt c name) (refuses requests))
    | v name =>
      obtain rfl := Option.some.inj next
      obtain rfl : name = x := allowed
      refine before.advances (contender.gives (r := r)) (List.Subset.refl _) nofun traced
        (fun value decided own => ?_) nofun
      -- the value that gives the mutex back names no agent
      obtain rfl := Option.some.inj decided
      have named : holderOf (Believe.intBytes (-1)) = -1 := by decide
      have above := positive id member
      omega
    | addVariable var distribute =>
      obtain rfl := Option.some.inj next
      exact before.advances (contender.adds (r := r) allowed) (List.Subset.refl _) nofun traced
        nofun nofun
    | distributeVariable variablePtr =>
      obtain rfl := Option.some.inj next
      exact before.advances (contender.presents (r := r) allowed) (List.Subset.refl _) nofun traced
        nofun nofun
    | writeVariable | requestVariable | agentEngangement | step | handle => exact allowed.elim
  next => cases next

/-- Every event of the contest is a turn. -/
theorem Contest.step {e : System.Event} (before : Contest x s) (positive : ∀ id ∈ s.ids, 0 < id)
    (allowed : Contends x s e) (next : s.Next e s') : Contest.Advances x s e s' := by
  have traced := before.traced.step next
  cases e with
  | call id r e => exact before.calls positive allowed next
  | deliver id r m =>
    unfold System.Next System.exec at next
    dsimp only at next
    split at next
    next inFlight =>
      obtain rfl := Option.some.inj next
      refine before.handles inFlight List.erase_subset traced fun b about elects => ?_
      simp only [turning, Option.mem_def.mp about, Option.bind_some, if_pos elects]
    next => cases next
  | duplicate id r m =>
    unfold System.Next System.exec at next
    dsimp only at next
    split at next
    next inFlight =>
      obtain rfl := Option.some.inj next
      refine before.handles inFlight (List.Subset.refl _) traced fun b about elects => ?_
      simp only [turning, Option.mem_def.mp about, Option.bind_some, if_pos elects]
    next => cases next
  | lose id m =>
    unfold System.Next System.exec at next
    dsimp only at next
    split at next
    next inFlight =>
      obtain rfl := Option.some.inj next
      refine ⟨⟨traced, before.contenders⟩, id, ⟨fun j other => rfl, .inl rfl, fun j b waits => ?_⟩,
        fun stands resigned => absurd stands resigned⟩
      obtain ⟨m', inFlight', about⟩ := mem_pending.mp waits
      exact .inl (mem_pending.mpr ⟨m', List.erase_subset inFlight', about⟩)
    next => cases next

/-- Agents that speak and list each other, with a mutex that is free and known to all. -/
structure MutexGroup (x : Name) (s : System) : Prop where
  quiescent : Quiescent s
  distinct : s.ids.Nodup
  positive : ∀ id ∈ s.ids, 0 < id
  short : ∀ id ∈ s.ids, toShort id = id
  loud : ∀ id ∈ s.ids, (s.agents id).quiet = false
  ownID : ∀ id ∈ s.ids, (s.agents id).ownID = id ∧ (s.agents id).spaceOwnID = id
  active : ∀ id ∈ s.ids, ∀ k, k ∈ (s.agents id).activeRobots ↔ k ∈ s.ids ∧ k ≠ id
  named : ∀ id ∈ s.ids, ∀ y cv, (s.agents id).getVariable y = some cv →
    Graded (fun _ => True) y cv
  mutex : ∀ id ∈ s.ids, ∃ cv, (s.agents id).getVariable x = some cv ∧ Graded MutexBelieve x cv ∧
    (∀ b ∈ cv.toBelieve :: cv.proposals, b.val = Believe.intBytes 0) ∧
    (∀ k ∈ s.ids, k ≠ id → ∃ b ∈ cv.proposals, b.robotID = k) ∧
    cv.isAcknowledged (s.agents id).activeRobots = true

theorem MutexGroup.contest (group : MutexGroup x s) : Contest x s := by
  refine ⟨group.quiescent.traced, fun id member => ?_⟩
  obtain ⟨cv, known, graded, -, proposals, -⟩ := group.mutex id member
  refine ⟨⟨cv, known, graded⟩, group.named id member, fun k others differs => ?_,
    group.loud id member, (group.ownID id member).1, (group.ownID id member).2,
    group.short id member, ?_⟩
  · obtain ⟨b, recorded, sender⟩ := proposals k others differs
    refine ⟨beliefOf b, ?_, sender⟩
    rw [registerAt, known]
    exact List.mem_map_of_mem recorded
  · simp [(group.quiescent.idle id).history]

/-- At first nobody believes in itself. -/
theorem MutexGroup.rests (group : MutexGroup x s) {id : Int} (member : id ∈ s.ids) :
    ¬ (poll x s).Stands holderOf id := by
  obtain ⟨cv, known, -, free, -, -⟩ := group.mutex id member
  rintro ⟨reg, register, own⟩
  have register : registerAt (s.agents id) x = some reg := register
  rw [registerAt, known] at register
  obtain rfl := Option.some.inj register
  have value : holderOf cv.val = id := own
  rw [free _ List.mem_cons_self] at value
  have named : holderOf (Believe.intBytes 0) = 0 := by decide
  have above := group.positive id member
  omega

/-- In a run in which nobody turns against crossing votes, no two agents are crossed. -/
theorem MutexGroup.uncrossed {start : System} {trace : List (System × System.Event)}
    (group : MutexGroup x start) (run : start.Runs trace s)
    (allowed : ∀ p ∈ trace, Contends x p.1 p.2)
    (unopposed : ∀ p ∈ trace, TurnsUnopposed x p.1 p.2) :
    s.ids = start.ids ∧ Contest x s ∧ ∀ i ∈ start.ids, ∀ k ∈ start.ids, i ≠ k →
      ¬ (poll x s).Crossed holderOf i k := by
  induction run with
  | nil => exact ⟨rfl, group.contest, fun i member k _ _ crossed =>
      group.rests member crossed.stands⟩
  | @step trace d d' e run next ih =>
    obtain ⟨same, contest, apart⟩ := ih (fun p member => allowed p (List.mem_append_left _ member))
      fun p member => unopposed p (List.mem_append_left _ member)
    obtain ⟨after, i, turn, turns⟩ :=
      contest.step (same ▸ group.positive) (allowed (d, e) (by simp)) next
    refine ⟨(system_ids next).trans same, after, turn.uncrossed (fun stands resigned => ?_) apart⟩
    have fair := unopposed (d, e) (by simp) i (turns stands resigned) resigned
    exact same ▸ fair

/-- An agent that finds itself the owner holds the mutex in the poll. -/
theorem Contest.holds (before : Contest x s) {id : Int} (member : id ∈ s.ids) (positive : 0 < id)
    {m : ConsensusVariable} {robots : List Int} (known : (s.agents id).getVariable x = some m)
    (owner : CaceMutex.isOwner m true id robots = true) :
    (poll x s).Holds holderOf s.ids id := by
  have contender := before.contenders id member
  obtain ⟨cv, stored, graded⟩ := contender.mutex
  obtain rfl := Option.some.inj (known.symm.trans stored)
  have ints : IntProposals m.proposals := fun v inProposals _ =>
    (graded v (List.mem_cons_of_mem _ inProposals)).2.2
  have accepted := (isOwner_eq ints).mp owner
  unfold Refuses at accepted
  simp only [if_true, not_or, not_not] at accepted
  obtain ⟨own, votes, -⟩ := accepted
  have names : ∀ {b : Believe}, b.hasValue = true ∧ b.getValueInt 0 = id → holderOf b.val = id :=
    fun {b} vote => ((believes_iff positive b).mpr vote).2.2
  have register : registerAt (s.agents id) x = some (registerOf m) := by
    rw [registerAt, known]
    rfl
  refine ⟨registerOf m, register, names own, fun k others differs => ?_⟩
  have recorded := contender.records k others differs
  rw [register] at recorded
  obtain ⟨b, inRecords, sender⟩ := recorded
  obtain ⟨v, inProposals, rfl⟩ := List.mem_map.mp inRecords
  exact ⟨beliefOf v, inRecords, sender, names (votes v inProposals)⟩

/-- In every run in which no agent turns to itself against crossing votes, at most one agent finds
itself the owner of the mutex. -/
theorem mutual_exclusion {start : System} {trace : List (System × System.Event)}
    (group : MutexGroup x start) (run : start.Runs trace s)
    (allowed : ∀ p ∈ trace, Contends x p.1 p.2)
    (unopposed : ∀ p ∈ trace, TurnsUnopposed x p.1 p.2) :
    ∀ i ∈ start.ids, ∀ k ∈ start.ids, ∀ m m',
      (s.agents i).getVariable x = some m → (s.agents k).getVariable x = some m' →
      CaceMutex.isOwner m true i (s.agents i).activeRobots = true →
      CaceMutex.isOwner m' true k (s.agents k).activeRobots = true → i = k := by
  obtain ⟨ids, contest, apart⟩ := group.uncrossed run allowed unopposed
  intro i member k member' m m' known known' owner owner'
  rw [← ids] at member member' apart
  have positive : ∀ id ∈ s.ids, 0 < id := ids ▸ group.positive
  have holds := contest.holds member (positive i member) known owner
  have holds' := contest.holds member' (positive k member') known' owner'
  exact holds.unique holds' member member' fun other => apart i member k member' other

end Systems

section Examples

/-- A mutex that nobody has. -/
def freeMutex (id : Int) : Believe :=
  { Believe.construct ['m'] .threeWayHandShake longMax id 0 0 typeCInt with
    val := Believe.intBytes 0, hasValue := true }

/-- Two agents with a free mutex, the clock of agent 1 at `time1` and that of agent 2 at `time2`. -/
def rivals (time1 time2 : Nat) : System where
  ids := [1, 2]
  agents id :=
    { Cace.construct id false 10 with
      lamportTime := { time := if id = 1 then time1 else time2 }
      activeRobots := [1, 2].erase id
      store := [(['m'], ⟨freeMutex id, ([1, 2].erase id).map freeMutex⟩)] }
  flight := []

theorem freeMutex_believes (id : Int) (l : List Int) :
    ∀ b ∈ freeMutex id :: l.map freeMutex,
      b.name = ['m'] ∧ MutexBelieve b ∧ b.val = Believe.intBytes 0 := by
  intro b member
  obtain ⟨k, rfl⟩ : ∃ k, b = freeMutex k := by
    rcases List.mem_cons.mp member with rfl | proposal
    · exact ⟨id, rfl⟩
    · obtain ⟨k, -, rfl⟩ := List.mem_map.mp proposal
      exact ⟨k, rfl⟩
  exact ⟨rfl, ⟨rfl, rfl⟩, rfl⟩

theorem rivals_group (time1 time2 : Nat) : MutexGroup ['m'] (rivals time1 time2) where
  quiescent := ⟨fun _ => ⟨rfl, rfl, rfl, rfl, rfl, rfl⟩, rfl⟩
  distinct := (by decide : ([1, 2] : List Int).Nodup)
  positive := (by decide : ∀ id ∈ [1, 2], (0 : Int) < id)
  short := (by decide : ∀ id ∈ [1, 2], toShort id = id)
  loud _ _ := rfl
  ownID := (by decide : ∀ id ∈ [1, 2], toShort id = id ∧ toShort id = id)
  active id member k := (by decide : ([1, 2] : List Int).Nodup).mem_erase_iff.trans And.comm
  named id member y cv known := by
    have known : [(['m'], (⟨freeMutex id, ([1, 2].erase id).map freeMutex⟩ :
      ConsensusVariable))].lookup y = some cv := known
    rw [List.lookup_cons] at known
    split at known
    next here =>
      obtain rfl := Option.some.inj known
      exact fun b recorded => ⟨(freeMutex_believes id _ b recorded).1.trans
        (beq_iff_eq.mp here).symm, trivial⟩
    next => cases known
  mutex id member := by
    have believes := freeMutex_believes id ([1, 2].erase id)
    refine ⟨⟨freeMutex id, ([1, 2].erase id).map freeMutex⟩, rfl,
      fun b recorded => ⟨(believes b recorded).1, (believes b recorded).2.1⟩,
      fun b recorded => (believes b recorded).2.2, fun k others differs => ?_, ?_⟩
    · exact ⟨freeMutex k, List.mem_map_of_mem ((List.mem_erase_of_ne differs).mpr others), rfl⟩
    · exact (by decide : ∀ id ∈ [1, 2], ConsensusVariable.isAcknowledged
        ⟨freeMutex id, ([1, 2].erase id).map freeMutex⟩ ([1, 2].erase id) = true) id member

/-- Both agents ask for the mutex, then they do something else, then both commands arrive. -/
def rivalry (time1 time2 : Nat) (between : List System.Event) : List System.Event :=
  [.call 1 .zero (.pNoBlock ['m'] true [2]), .call 2 .zero (.pNoBlock ['m'] true [1])] ++
    between ++
    [.deliver 2 .zero (.command ⟨1, [0], ['m'], [1, 0, 0, 0], 0, longMax, 70, time1 + 100,
        time1 + 1, 2⟩),
      .deliver 1 .zero (.command ⟨2, [0], ['m'], [2, 0, 0, 0], 0, longMax, 70,
        2 * (time2 + 100), time2 + 1, 2⟩)]

/-- A variable beside the mutex. -/
def besideMutex : ConsensusVariable :=
  ⟨Believe.construct ['y'] .fireAndForget longMax 2 0 0 typeCInt, []⟩

/-- The clock of agent 1 is ahead; an acknowledge arrives twice, a short acknowledge never. -/
def rivalryApart : List System.Event :=
  rivalry 5 3 [] ++
    [.duplicate 1 .zero (.acknowledge ⟨2, [0], ['m'], [1, 0, 0, 0], 105, 7, 2⟩),
      .deliver 1 .zero (.acknowledge ⟨2, [0], ['m'], [1, 0, 0, 0], 105, 7, 2⟩),
      .deliver 2 .zero (.acknowledge ⟨1, [0], ['m'], [1, 0, 0, 0], 206, 6, 2⟩),
      .lose 2 (.shortAck ⟨1, [2], ['m'], 105, 10⟩),
      .call 2 .zero (.addVariable besideMutex true)]

/-- The clocks are equal, and both agents distribute another variable. -/
def rivalryRaised : List System.Event :=
  rivalry 5 5 ([1, 1, 2, 2].map fun id =>
      .call id .zero (.distributeValue ['y'] [7] 0 .fireAndForget)) ++
    [.deliver 1 .zero (.acknowledge ⟨2, [0], ['m'], [1, 0, 0, 0], 105, 8, 2⟩),
      .deliver 2 .zero (.acknowledge ⟨1, [0], ['m'], [2, 0, 0, 0], 210, 8, 2⟩)]

/-- The agents that find themselves the owner of the mutex. -/
def ownersIn (s : System) : List Int :=
  s.ids.filter fun id => ((s.agents id).getVariable ['m']).any fun m =>
    CaceMutex.isOwner m true id (s.agents id).activeRobots

/-- The later request wins, and its agent is the only owner. -/
theorem mutual_exclusion_apart : ∃ trace s,
    (rivals 5 3).play rivalryApart = some (trace, s) ∧ ownersIn s = [1] ∧
      ∀ i ∈ [1, 2], ∀ k ∈ [1, 2], ∀ m m',
        (s.agents i).getVariable ['m'] = some m → (s.agents k).getVariable ['m'] = some m' →
        CaceMutex.isOwner m true i (s.agents i).activeRobots = true →
        CaceMutex.isOwner m' true k (s.agents k).activeRobots = true → i = k := by
  have played : (rivals 5 3).play rivalryApart = some _ := rfl
  obtain ⟨run, events⟩ := System.play_runs played
  refine ⟨_, _, played, by decide,
    mutual_exclusion (rivals_group 5 3) run ?_ (by decide)⟩
  exact @allowed_of_events _ _ (Contends ['m']) _ _ events fun e member s =>
    (by simp [rivalryApart, rivalry, Contends, Beside, Graded, besideMutex, Believe.construct] :
      ∀ e ∈ rivalryApart, Contends ['m'] s e) e member

/-- The acknowledges are later than both requests: each agent turns back to itself, and both own
the mutex. -/
theorem mutual_exclusion_raised : MutexGroup ['m'] (rivals 5 5) ∧ ∃ trace s,
    (rivals 5 5).play rivalryRaised = some (trace, s) ∧ (rivals 5 5).Runs trace s ∧
      (∀ p ∈ trace, Contends ['m'] p.1 p.2) ∧ ownersIn s = [1, 2] := by
  have played : (rivals 5 5).play rivalryRaised = some _ := rfl
  obtain ⟨run, events⟩ := System.play_runs played
  refine ⟨rivals_group 5 5, _, _, played, run, ?_, by decide⟩
  exact @allowed_of_events _ _ (Contends ['m']) _ _ events fun e member s =>
    (by simp [rivalryRaised, rivalry, Contends] : ∀ e ∈ rivalryRaised, Contends ['m'] s e) e member

end Examples

end CaceProofs.Guarantees
