import CaceProofs.Guarantees.Paxos.Acceptors

/-!
# Proposals

What a proposer holds of its instances. It counts an acceptor for a ballot only after a promise,
keeps the value of the highest ballot that was promised, and asks for one value in a ballot.
-/
namespace CaceProofs.Guarantees.Paxos
open Source.Paxos Library

section Tables

variable {α : Type} {table table' : Khash α} {iid : Nat} {inst : α} {entry : Nat × α}

theorem mem_of_get (got : table.get iid = some inst) : (iid, inst) ∈ table := by
  unfold Khash.get at got
  induction table with
  | nil => simp at got
  | cons head tail ih =>
    obtain ⟨key, held⟩ := head
    rw [List.lookup_cons] at got
    split at got
    next same =>
      obtain rfl : held = inst := by simpa using got
      exact List.mem_cons.mpr (.inl (by simpa using same))
    next => exact List.mem_cons_of_mem _ (ih got)

theorem mem_of_set (member : entry ∈ table.set iid inst) :
    entry = (iid, inst) ∨ entry ∈ table ∧ entry.1 ≠ iid := by
  obtain ⟨old, held, rfl⟩ := List.mem_map.mp member
  split
  next => exact .inl rfl
  next differs => exact .inr ⟨held, differs⟩

theorem mem_of_del (member : entry ∈ table.del iid) : entry ∈ table ∧ entry.1 ≠ iid := by
  simpa [Khash.del] using member

theorem put_spec (done : table.put iid inst = some table') :
    table' = table ++ [(iid, inst)] ∧ ∀ entry ∈ table, entry.1 ≠ iid := by
  unfold Khash.put at done
  split at done
  · cases done
  next fresh =>
    have absent : ∀ inst, (iid, inst) ∉ table := by simpa using fresh
    exact ⟨(Option.some.inj done).symm, fun entry member same => absent entry.2 (same ▸ member)⟩

end Tables

/-- The smallest instance is one of the table. -/
theorem smallest_mem {table : Khash Instance} {inst : Instance}
    (found : Proposer.smallest table = some inst) : ∃ iid, (iid, inst) ∈ table := by
  suffices loop : ∀ (entries : Khash Instance) (seen : Option Instance),
      (∀ i ∈ seen, ∃ iid, (iid, i) ∈ table) → entries ⊆ table →
      ∀ i ∈ entries.foldl Proposer.smaller seen, ∃ iid, (iid, i) ∈ table from
    loop table none (by simp) (List.Subset.refl _) inst found
  intro entries
  induction entries with
  | nil => exact fun _ held _ => held
  | cons head tail ih =>
    intro seen held within
    refine ih _ (fun i chosen => ?_) fun e member => within (List.mem_cons_of_mem _ member)
    have first : ∃ iid, (iid, head.2) ∈ table := ⟨head.1, within List.mem_cons_self⟩
    unfold Proposer.smaller at chosen
    split at chosen
    next => exact Option.some.inj chosen ▸ first
    next i' =>
      split at chosen
      · exact Option.some.inj chosen ▸ first
      · exact held i chosen

/-- The ballots of a proposer are those that leave its number as remainder. -/
def owner (b : Nat) : Nat := b % maxNOfProposers

/-- What a proposer holds of an instance. -/
structure Held (n : Nat) (P : PaxosValue → Prop) (id next iid : Nat) (inst : Instance) : Prop where
  key : inst.iid = iid
  begun : iid ≤ next
  own : owner inst.ballot = id
  positive : 0 < inst.ballot
  members : inst.quorum.acceptors = n
  value : ∀ v ∈ inst.value, P v
  promised : ∀ v ∈ inst.promisedValue, P v
  unset : inst.promisedValue = none → inst.valueBallot = 0

/-- An instance that waits for promises: it asked for no value in its ballot, and knows the last
vote of the acceptors that it counted. -/
structure Prepared (n : Nat) (P : PaxosValue → Prop) (net : List Packet)
    (acceptors : Nat → Option Acceptor) (id next iid : Nat) (inst : Instance) : Prop extends
    Held n P id next iid inst where
  fresh : ∀ b v, Proposed net iid b v → owner b = id → b < inst.ballot
  counted : ∀ a ∈ inst.quorum.acceptorIds, a < n ∧ ∀ c < inst.ballot,
    Past (acceptors a) iid c ∧ ∀ w, Voted net iid a c w →
      inst.promisedValue ≠ none ∧ c ≤ inst.valueBallot
  source : ∀ v ∈ inst.promisedValue, Proposed net iid inst.valueBallot v

/-- An instance that waits for answers to its accept request. -/
structure Accepting (n : Nat) (P : PaxosValue → Prop) (net : List Packet)
    (id next iid : Nat) (inst : Instance) : Prop extends Held n P id next iid inst where
  fresh : ∀ b v, Proposed net iid b v → owner b = id → b ≤ inst.ballot
  requested : Proposed net iid inst.ballot inst.toAccept.value
  counted : ∀ a ∈ inst.quorum.acceptorIds, Voted net iid a inst.ballot inst.toAccept.value

structure Honest (n : Nat) (P : PaxosValue → Prop) (net : List Packet)
    (acceptors : Nat → Option Acceptor) (id : Nat) (p : Proposer) : Prop where
  named : p.id = id ∧ id < maxNOfProposers
  members : p.acceptors = n
  bound : p.nextPrepareIid < 2 ^ 32
  values : ∀ v ∈ p.values, P v
  begun : ∀ iid b v, Proposed net iid b v → owner b = id → iid ≤ p.nextPrepareIid
  prepared : ∀ e ∈ p.prepareInstances, Prepared n P net acceptors id p.nextPrepareIid e.1 e.2
  accepting : ∀ e ∈ p.acceptInstances, Accepting n P net id p.nextPrepareIid e.1 e.2

variable {n : Nat} {P : PaxosValue → Prop} {net net' : List Packet}
  {acceptors acceptors' : Nat → Option Acceptor} {p p' : Proposer} {inst : Instance}
  {id next next' iid : Nat} {now : Int}

theorem Held.later (held : Held n P id next iid inst) (le : next ≤ next') :
    Held n P id next' iid inst :=
  { held with begun := held.begun.trans le }

theorem Prepared.later (prepared : Prepared n P net acceptors id next iid inst)
    (le : next ≤ next') : Prepared n P net acceptors id next' iid inst :=
  { prepared with toHeld := prepared.toHeld.later le }

theorem Accepting.later (accepting : Accepting n P net id next iid inst) (le : next ≤ next') :
    Accepting n P net id next' iid inst :=
  { accepting with toHeld := accepting.toHeld.later le }

/-- What others send leaves what an instance knows true. -/
theorem Prepared.grows (grows : Grows net acceptors net' acceptors')
    (own : ∀ b v, Proposed net' iid b v → owner b = id → Proposed net iid b v)
    (prepared : Prepared n P net acceptors id next iid inst) :
    Prepared n P net' acceptors' id next iid inst where
  toHeld := prepared.toHeld
  fresh b v request mine := prepared.fresh b v (own b v request mine) mine
  counted a member := by
    obtain ⟨valid, said⟩ := prepared.counted a member
    refine ⟨valid, fun c less => ?_⟩
    obtain ⟨past, last⟩ := said c less
    exact ⟨grows.past past, fun w vote => last w (grows.earlier past vote)⟩
  source v known := (prepared.source v known).mono grows.sent

theorem Accepting.grows (sent : net ⊆ net')
    (own : ∀ b v, Proposed net' iid b v → owner b = id → Proposed net iid b v)
    (accepting : Accepting n P net id next iid inst) :
    Accepting n P net' id next iid inst where
  toHeld := accepting.toHeld
  fresh b v request mine := accepting.fresh b v (own b v request mine) mine
  requested := accepting.requested.mono sent
  counted a member := (accepting.counted a member).mono sent

theorem Honest.grows (grows : Grows net acceptors net' acceptors')
    (own : ∀ {iid b v}, Proposed net' iid b v → owner b = id → Proposed net iid b v)
    (honest : Honest n P net acceptors id p) : Honest n P net' acceptors' id p :=
  { honest with
    begun := fun iid b v request mine => honest.begun iid b v (own request mine) mine
    prepared := fun e member => (honest.prepared e member).grows grows fun _ _ => own
    accepting := fun e member =>
      (honest.accepting e member).grows grows.sent fun _ _ => own }

/-- A ballot of the proposer, and the next one. -/
theorem Honest.nextBallot (honest : Honest n P net acceptors id p) {b : Nat}
    (own : 0 < b → owner b = id) (fits : b + maxNOfProposers < 2 ^ 32) :
    owner (p.nextBallot b) = id ∧ b < p.nextBallot b := by
  obtain ⟨same, small⟩ := honest.named
  unfold owner maxNOfProposers at *
  unfold Proposer.nextBallot maxNOfProposers u32
  split
  next started =>
    have mine := own started
    have fit : (10 + b) % 2 ^ 32 = 10 + b := Nat.mod_eq_of_lt (by omega)
    rw [fit]
    omega
  next =>
    have fit : (10 + p.id) % 2 ^ 32 = 10 + p.id := Nat.mod_eq_of_lt (by omega)
    rw [fit]
    omega

theorem Honest.propose (honest : Honest n P net acceptors id p) {v : PaxosValue}
    (submitted : P v) : Honest n P net acceptors id (p.propose v) :=
  { honest with
    values := by
      intro w member
      rcases List.mem_append.mp member with old | new
      · exact honest.values w old
      · exact List.mem_singleton.mp new ▸ submitted }

theorem Honest.setInstanceId (honest : Honest n P net acceptors id p) (small : iid < 2 ^ 32)
    (raises : p.nextPrepareIid ≤ iid) : Honest n P net acceptors id (p.setInstanceId iid) :=
  { honest with
    bound := small
    begun := fun j b v request mine => (honest.begun j b v request mine).trans raises
    prepared := fun e member => (honest.prepared e member).later raises
    accepting := fun e member => (honest.accepting e member).later raises }

/-- What `proposer_prepare` does where its assertions hold. -/
theorem prepare_spec {pr : PaxosPrepare} (done : p.prepare now = some (p', pr)) :
    0 < u32 (p.nextPrepareIid + 1) ∧ p' = { p with
      nextPrepareIid := u32 (p.nextPrepareIid + 1)
      prepareInstances := p.prepareInstances ++ [(u32 (p.nextPrepareIid + 1),
        ⟨u32 (p.nextPrepareIid + 1), p.nextBallot 0, none, none, 0, .init p.acceptors,
          now⟩)] } := by
  obtain ⟨inst, made, table, put, result⟩ : ∃ inst,
      Instance.new (u32 (p.nextPrepareIid + 1)) (p.nextBallot 0) p.acceptors now = some inst ∧
      ∃ table, p.prepareInstances.put (u32 (p.nextPrepareIid + 1)) inst = some table ∧
        ({ p with nextPrepareIid := u32 (p.nextPrepareIid + 1), prepareInstances := table },
          PaxosPrepare.mk inst.iid inst.ballot) = (p', pr) := by
    simpa [Proposer.prepare, Option.bind_eq_some_iff] using done
  cases result
  obtain ⟨rfl, -⟩ := put_spec put
  unfold Instance.new at made
  split at made
  case isFalse => cases made
  next positive =>
    cases made
    exact ⟨positive, rfl⟩

/-- A proposer opens an instance that it has not used. -/
theorem Honest.prepare (honest : Honest n P net acceptors id p) {pr : PaxosPrepare}
    (done : p.prepare now = some (p', pr)) : Honest n P net acceptors id p' := by
  obtain ⟨positive, rfl⟩ := prepare_spec done
  have bound := honest.bound
  have step : u32 (p.nextPrepareIid + 1) = p.nextPrepareIid + 1 := by
    unfold u32 at positive ⊢
    omega
  have le : p.nextPrepareIid ≤ u32 (p.nextPrepareIid + 1) := by omega
  obtain ⟨own, positive'⟩ := honest.nextBallot (b := 0) nofun (by decide)
  refine
    { honest with
      bound := Nat.mod_lt _ (by decide)
      begun := fun j b v request mine => (honest.begun j b v request mine).trans le
      prepared := fun e member => ?_
      accepting := fun e member => (honest.accepting e member).later le }
  rcases List.mem_append.mp member with old | new
  · exact (honest.prepared e old).later le
  · obtain rfl := List.mem_singleton.mp new
    refine ⟨⟨rfl, Nat.le_refl _, own, positive', honest.members, nofun, nofun, fun _ => rfl⟩,
      fun b v request mine => ?_, fun a none => absurd none (Finset.notMem_empty a), nofun⟩
    have used := honest.begun _ b v request mine
    omega

/-- The ballot after a preemption is fresh, and no promise for it is counted. -/
theorem Held.preempted (held : Held n P id next iid inst)
    (honest : Honest n P net acceptors id p)
    (fits : inst.ballot + maxNOfProposers < 2 ^ 32)
    (used : ∀ b v, Proposed net iid b v → owner b = id → b ≤ inst.ballot) :
    Prepared n P net acceptors id next iid (p.preempt inst now) := by
  obtain ⟨own, less⟩ := honest.nextBallot (fun _ => held.own) fits
  exact
    { key := held.key
      begun := held.begun
      own := own
      positive := Nat.lt_of_le_of_lt (Nat.zero_le _) less
      members := held.members
      value := held.value
      promised := nofun
      unset := fun _ => rfl
      fresh := fun b v request mine => Nat.lt_of_le_of_lt (used b v request mine) less
      counted := fun a none => absurd none (Finset.notMem_empty a)
      source := nofun }

/-- An instance takes the promise of a newly counted acceptor. -/
theorem Prepared.takePromise {a : Nat} {m : PaxosPromise} {quorum : Quorum}
    (coherent : Coherent n P net acceptors)
    (prepared : Prepared n P net acceptors id next m.iid inst)
    (received : ⟨a, .promise m⟩ ∈ net) (ballot : m.ballot = inst.ballot)
    (added : inst.quorum.add a = some quorum) :
    Prepared n P net acceptors id next m.iid (inst.takePromise quorum m) := by
  obtain ⟨valid, kept⟩ : a < n ∧ Kept net acceptors a m := coherent.sent _ received
  obtain ⟨members, ids⟩ := Quorum.add_spec added
  have proposed : m.value ≠ [] → Proposed net m.iid m.valueBallot m.value := fun filled =>
    (coherent.proposed_of_voted (kept.vote filled)).2
  have counted : ∀ k ∈ quorum.acceptorIds, k = a ∨ k ∈ inst.quorum.acceptorIds := fun k member =>
    Finset.mem_insert.mp (ids ▸ member)
  unfold Instance.takePromise
  split
  next takes =>
    have filled : m.value ≠ [] := List.ne_nil_of_length_pos takes.1
    exact
      { prepared with
        members := members.trans prepared.members
        promised := fun v same => Option.some.inj same ▸ coherent.submitted (proposed filled)
        unset := nofun
        source := fun v same => Option.some.inj same ▸ proposed filled
        counted := by
          intro k member
          rcases counted k member with rfl | earlier
          · exact ⟨valid, fun c less => ⟨kept.past c (ballot ▸ less), fun w vote =>
              ⟨nofun, (kept.last c (ballot ▸ less) w vote).2⟩⟩⟩
          · obtain ⟨valid', said⟩ := prepared.counted k earlier
            exact ⟨valid', fun c less => ⟨(said c less).1, fun w vote =>
              ⟨nofun, ((said c less).2 w vote).2.trans (Nat.le_of_lt takes.2)⟩⟩⟩ }
  next ignores =>
    refine
      { prepared with
        members := members.trans prepared.members
        counted := fun k member => ?_ }
    rcases counted k member with rfl | earlier
    · refine ⟨valid, fun c less => ⟨kept.past c (ballot ▸ less), fun w vote => ?_⟩⟩
      obtain ⟨filled, le⟩ := kept.last c (ballot ▸ less) w vote
      -- the value was ignored for one of a ballot at least as high
      have known : m.valueBallot ≤ inst.valueBallot := by
        by_contra higher
        exact ignores ⟨List.length_pos_of_ne_nil filled, Nat.lt_of_not_le higher⟩
      have positive := (coherent.positive (proposed filled)).1
      refine ⟨fun none => ?_, le.trans known⟩
      have zero := prepared.unset none
      omega
    · exact prepared.counted k earlier

theorem Honest.receivePromise {a : Nat} {m : PaxosPromise} (now : Int)
    (coherent : Coherent n P net acceptors) (honest : Honest n P net acceptors id p)
    (received : ⟨a, .promise m⟩ ∈ net)
    (fits : ∀ e ∈ p.prepareInstances, e.2.ballot + maxNOfProposers < 2 ^ 32) :
    Honest n P net acceptors id (p.receivePromise m a now).1 := by
  unfold Proposer.receivePromise
  split
  next => exact honest
  next inst got =>
    have member := mem_of_get got
    have prepared := honest.prepared _ member
    have update : ∀ inst', Prepared n P net acceptors id p.nextPrepareIid m.iid inst' →
        Honest n P net acceptors id
          { p with prepareInstances := p.prepareInstances.set m.iid inst' } := fun inst' fine =>
      { honest with
        prepared := by
          intro e held
          rcases mem_of_set held with rfl | ⟨old, -⟩
          · exact fine
          · exact honest.prepared e old }
    split
    · exact honest
    · split
      · exact update _ (prepared.toHeld.preempted honest (fits _ member) fun b v request mine =>
          Nat.le_of_lt (prepared.fresh b v request mine))
      · split
        next => exact honest
        next quorum added =>
          exact update _ (prepared.takePromise coherent received (by omega) added)

/-- A newly counted acceptor has accepted the value asked for. -/
theorem Accepting.count {a : Nat} {m : PaxosAccepted} {quorum : Quorum}
    (coherent : Coherent n P net acceptors) (accepting : Accepting n P net id next m.iid inst)
    (received : ⟨a, .accepted m⟩ ∈ net) (ballot : m.ballot = inst.ballot)
    (added : inst.quorum.add a = some quorum) :
    ∀ k ∈ quorum.acceptorIds, Voted net m.iid k inst.ballot inst.toAccept.value := by
  obtain ⟨-, same, proposed, -⟩ := coherent.sent _ received
  have value : m.value = inst.toAccept.value := coherent.one (ballot ▸ proposed) accepting.requested
  have record : m = ⟨m.iid, inst.ballot, inst.ballot, inst.toAccept.value⟩ :=
    PaxosAccepted.ext rfl ballot (same.trans ballot) value
  intro k member
  rw [(Quorum.add_spec added).2, Finset.mem_insert] at member
  rcases member with rfl | earlier
  · rw [record] at received
    exact received
  · exact accepting.counted k earlier

/-- A value is chosen when its acceptors are a quorum. -/
theorem Accepting.chosen {a : Nat} {m : PaxosAccepted} {quorum : Quorum}
    (coherent : Coherent n P net acceptors) (accepting : Accepting n P net id next m.iid inst)
    (received : ⟨a, .accepted m⟩ ∈ net) (ballot : m.ballot = inst.ballot)
    (added : inst.quorum.add a = some quorum) (reached : quorum.reached = true) :
    Chosen n net m.iid inst.ballot inst.toAccept.value := by
  have votes := accepting.count coherent received ballot added
  refine ⟨quorum.acceptorIds, ⟨fun k member => ?_, ?_⟩, votes⟩
  · exact Finset.mem_range.mpr (coherent.proposed_of_voted (votes k member)).1
  · have enough : quorum.quorum ≤ quorum.count := by simpa [Quorum.reached] using reached
    rw [quorum.majority, quorum.counted, (Quorum.add_spec added).1, accepting.members,
      paxosQuorum] at enough
    omega

theorem Honest.receiveAccepted {a : Nat} {m : PaxosAccepted}
    (coherent : Coherent n P net acceptors) (honest : Honest n P net acceptors id p)
    (received : ⟨a, .accepted m⟩ ∈ net) :
    Honest n P net acceptors id (p.receiveAccepted m a).1 := by
  unfold Proposer.receiveAccepted
  split
  next => exact honest
  next inst got =>
    have held : Accepting n P net id p.nextPrepareIid m.iid inst :=
      honest.accepting _ (mem_of_get got)
    split
    next same =>
      split
      next => exact honest
      next quorum added =>
        have votes := held.count coherent received same added
        split
        · refine
            { honest with
              values := fun v member => ?_
              accepting := fun e left => honest.accepting e (mem_of_del left).1 }
          rcases List.mem_append.mp member with old | back
          · exact honest.values v old
          · unfold Proposer.givesBack at back
            split at back
            next value promised own _ =>
              split at back
              · obtain rfl := List.mem_singleton.mp back
                exact held.value v own
              · cases back
            next => cases back
        · refine { honest with accepting := fun e member => ?_ }
          rcases mem_of_set member with rfl | ⟨old, -⟩
          · exact
              { held with
                members := (Quorum.add_spec added).1.trans held.members
                counted := votes }
          · exact honest.accepting e old
    next => exact honest

/-- The tables after an instance has moved. -/
theorem moveInstance_spec {f t f' t' : Khash Instance}
    (done : Proposer.moveInstance f t inst = some (f', t')) :
    f' = f.del inst.iid ∧ t' = t ++ [(inst.iid, { inst with quorum := inst.quorum.clear })] ∧
      ∀ e ∈ t, e.1 ≠ inst.iid := by
  unfold Proposer.moveInstance at done
  split at done
  · cases done
  · obtain ⟨table, put, result⟩ := Option.map_eq_some_iff.mp done
    cases result
    exact ⟨rfl, put_spec put⟩

theorem Honest.receivePreempted {m : PaxosPreempted} {out : Option PaxosPrepare}
    (honest : Honest n P net acceptors id p)
    (fits : ∀ e ∈ p.acceptInstances, e.2.ballot + maxNOfProposers < 2 ^ 32)
    (done : p.receivePreempted m now = some (p', out)) : Honest n P net acceptors id p' := by
  unfold Proposer.receivePreempted at done
  split at done
  next =>
    cases done
    exact honest
  next inst got =>
    have member := mem_of_get got
    have held := honest.accepting _ member
    split at done
    · obtain ⟨⟨f, t⟩, moved, result⟩ := Option.map_eq_some_iff.mp done
      cases result
      obtain ⟨rfl, rfl, -⟩ := moveInstance_spec moved
      refine
        { honest with
          accepting := fun e left => honest.accepting e (mem_of_del left).1
          prepared := fun e table => ?_ }
      have preempted : Prepared n P net acceptors id p.nextPrepareIid m.iid
          (p.preempt inst now) := held.toHeld.preempted honest (fits _ member) held.fresh
      rcases mem_of_set table with rfl | ⟨old, differs⟩
      · exact preempted
      · rcases List.mem_append.mp old with before | moved
        · exact honest.prepared e before
        · exact absurd ((congrArg Prod.fst (List.mem_singleton.mp moved)).trans held.key) differs
    · cases done
      exact honest

/-- What a trim gives back and leaves of a table. -/
theorem trimInstances_spec (bucket : Nat → Nat) (iid : Nat) {table : Khash Instance}
    (value : ∀ e ∈ table, ∀ v ∈ e.2.value, P v) :
    (∀ v ∈ (Proposer.trimInstances bucket table iid).1, P v) ∧
      (Proposer.trimInstances bucket table iid).2 ⊆ table := by
  refine ⟨fun v given => ?_, List.filter_subset_self _⟩
  obtain ⟨e, member, own⟩ := List.mem_filterMap.mp given
  exact value e (List.mem_filter.mp (List.mem_mergeSort.mp member)).1 v own

theorem Honest.receiveAcceptorState (honest : Honest n P net acceptors id p)
    {m : PaxosAcceptorState} (small : m.trimIid < 2 ^ 32) (bucket : Nat → Nat) :
    Honest n P net acceptors id (p.receiveAcceptorState m bucket) := by
  unfold Proposer.receiveAcceptorState
  split
  · exact honest
  · obtain ⟨prepares, left⟩ := trimInstances_spec bucket m.trimIid
      fun e member => (honest.prepared e member).value
    obtain ⟨accepts, left'⟩ := trimInstances_spec bucket m.trimIid
      fun e member => (honest.accepting e member).value
    have le : p.nextPrepareIid ≤
        if p.nextPrepareIid < m.trimIid then m.trimIid else p.nextPrepareIid := by
      split <;> omega
    refine
      { honest with
        bound := ?_
        values := fun v member => ?_
        begun := fun j b v request mine => (honest.begun j b v request mine).trans le
        prepared := fun e member => (honest.prepared e (left member)).later le
        accepting := fun e member => (honest.accepting e (left' member)).later le }
    · have bound := honest.bound
      dsimp only
      split <;> assumption
    · rcases List.mem_append.mp member with before | back
      · rcases List.mem_append.mp before with old | back
        · exact honest.values v old
        · exact prepares v back
      · exact accepts v back

/-- A pass of the timeouts changes no more than the times. -/
theorem Honest.restamp (honest : Honest n P net acceptors id p) (timeout : Int) :
    Honest n P net acceptors id
      { p with
        prepareInstances := Proposer.restamp timeout now p.prepareInstances
        acceptInstances := Proposer.restamp timeout now p.acceptInstances } := by
  refine { honest with prepared := fun e member => ?_, accepting := fun e member => ?_ }
  · obtain ⟨old, held, rfl⟩ := List.mem_map.mp member
    have fine := honest.prepared old held
    dsimp only
    split
    · exact { fine with }
    · exact fine
  · obtain ⟨old, held, rfl⟩ := List.mem_map.mp member
    have fine := honest.accepting old held
    dsimp only
    split
    · exact { fine with }
    · exact fine

/-- With a quorum of promises the value to ask for is safe, and was submitted. -/
theorem Prepared.safeAt (coherent : Coherent n P net acceptors)
    (prepared : Prepared n P net acceptors id next iid inst) (reached : inst.quorum.reached = true)
    (valued : ¬ (inst.value.isNone ∧ inst.promisedValue.isNone)) :
    (voting net acceptors iid).SafeAt (majorities n) inst.ballot inst.toAccept.value ∧
      P inst.toAccept.value := by
  have quorum : (majorities n).quorum inst.quorum.acceptorIds := by
    refine ⟨fun a member => Finset.mem_range.mpr (prepared.counted a member).1, ?_⟩
    have enough : inst.quorum.quorum ≤ inst.quorum.count := by
      simpa [Quorum.reached] using reached
    rw [inst.quorum.majority, inst.quorum.counted, prepared.members, paxosQuorum] at enough
    omega
  have left : ∀ a ∈ inst.quorum.acceptorIds, ∀ c < inst.ballot, Past (acceptors a) iid c :=
    fun a member c less => ((prepared.counted a member).2 c less).1
  cases promised : inst.promisedValue with
  | none =>
    obtain ⟨v, own⟩ : ∃ v, inst.value = some v := by
      rw [← Option.isSome_iff_exists]
      by_contra none
      exact valued ⟨by simpa using none, by rw [promised]; rfl⟩
    have value : inst.toAccept.value = v := by simp [Instance.toAccept, promised, own]
    rw [value]
    refine ⟨Voting.safeAt_of_unvoted quorum left fun a member c less w vote => ?_,
      prepared.value v own⟩
    exact (((prepared.counted a member).2 c less).2 w vote).1 promised
  | some v =>
    have value : inst.toAccept.value = v := by simp [Instance.toAccept, promised]
    rw [value]
    refine ⟨(coherent.lawful iid).safeAt_of_last quorum left (fun a member c less w vote => ?_)
      (prepared.source v promised), prepared.promised v promised⟩
    exact (((prepared.counted a member).2 c less).2 w vote).2

/-- What a proposer's handler must have done. -/
structure Proposes (n : Nat) (P : PaxosValue → Prop) (net : List Packet)
    (acceptors : Nat → Option Acceptor) (id : Nat) (o : Outcome Proposer) : Prop where
  coherent : Coherent n P (after net id o.sent) acceptors
  honest : ∀ p ∈ o.party, Honest n P (after net id o.sent) acceptors id p
  votes : ∀ {iid a b v}, Voted (after net id o.sent) iid a b v → Voted net iid a b v
  requests : ∀ {iid b v}, Proposed (after net id o.sent) iid b v →
    Proposed net iid b v ∨ owner b = id

theorem after_after (net : List Packet) (source : Nat) (sent sent' : List PaxosMessage) :
    after (after net source sent) source sent' = after net source (sent ++ sent') := by
  simp [after]

/-- One handler after another. -/
theorem Proposes.andThen {o : Outcome Proposer} {f : Proposer → Outcome Proposer}
    (first : Proposes n P net acceptors id o)
    (second : ∀ p ∈ o.party, Proposes n P (after net id o.sent) acceptors id (f p)) :
    Proposes n P net acceptors id (o.andThen f) := by
  unfold Outcome.andThen
  cases known : o.party with
  | none => exact { first with }
  | some p =>
    have rest := second p known
    have all := after_after net id o.sent (f p).sent
    refine ⟨all ▸ rest.coherent, all ▸ rest.honest, fun vote => ?_, fun request => ?_⟩
    · exact first.votes (rest.votes (all ▸ vote))
    · rcases rest.requests (all ▸ request) with earlier | mine
      · exact first.requests earlier
      · exact .inr mine

/-- A handler that sends prepare requests, and accept requests that were sent before. -/
theorem Coherent.proposes {o : Outcome Proposer} (coherent : Coherent n P net acceptors)
    (plain : ∀ m ∈ o.sent, (∃ pr, m = .prepare pr) ∨
      ∃ acc, m = .accept acc ∧ Proposed net acc.iid acc.ballot acc.value)
    (honest : ∀ p ∈ o.party, Honest n P net acceptors id p) :
    Proposes n P net acceptors id o := by
  have votes : ∀ {iid a b v}, Voted (after net id o.sent) iid a b v → Voted net iid a b v :=
    voted_after fun m member acc same => by
      rcases plain m member with ⟨pr, rfl⟩ | ⟨req, rfl, -⟩ <;> cases same
  have requests : ∀ {iid b v}, Proposed (after net id o.sent) iid b v → Proposed net iid b v := by
    rintro iid b v ⟨source, request⟩
    rcases mem_after.mp request with old | ⟨-, sent⟩
    · exact ⟨source, old⟩
    · rcases plain _ sent with ⟨pr, same⟩ | ⟨acc, same, earlier⟩
      · cases same
      · cases same
        exact earlier
  have grows : Grows net acceptors (after net id o.sent) acceptors :=
    ⟨subset_after, fun vote => .inl (votes vote), fun held => held⟩
  refine ⟨grows.coherent coherent (fun p member => ?_) fun acceptor known => ?_,
    fun p known => (honest p known).grows grows fun request _ => requests request, votes,
    fun request => .inl (requests request)⟩
  · rcases mem_after.mp member with old | ⟨-, sent⟩
    · exact .inl old
    · obtain ⟨source, m⟩ := p
      rcases plain m sent with ⟨pr, rfl⟩ | ⟨acc, rfl, source', earlier⟩
      · exact .inr trivial
      · have said := grows
        obtain ⟨safe, submitted, positive, only⟩ := coherent.sent _ earlier
        exact .inr ⟨grows.safeAt safe, submitted, positive, fun w request =>
          only w (requests request)⟩
  · obtain ⟨member, kept⟩ := coherent.faithful acceptor known
    exact ⟨member, kept.mono subset_after votes⟩

/-- What `proposer_accept` gives: the smallest instance, with a quorum and a value, has moved. -/
theorem accept_spec {acc : PaxosAccept} (done : p.accept = some (p', some acc)) :
    ∃ iid inst f t, (iid, inst) ∈ p.prepareInstances ∧ inst.quorum.reached = true ∧
      ¬ ((p.takeValue inst).1.value.isNone ∧ (p.takeValue inst).1.promisedValue.isNone) ∧
      Proposer.moveInstance p.prepareInstances p.acceptInstances (p.takeValue inst).1 =
        some (f, t) ∧
      p' = { p with
        values := (p.takeValue inst).2, prepareInstances := f, acceptInstances := t } ∧
      acc = (p.takeValue inst).1.toAccept := by
  unfold Proposer.accept at done
  split at done
  · cases done
  next inst found =>
    obtain ⟨iid, member⟩ := smallest_mem found
    split at done
    · cases done
    next reached =>
      dsimp only at done
      split at done
      · cases done
      next valued =>
        obtain ⟨⟨f, t⟩, moved, result⟩ := Option.map_eq_some_iff.mp done
        cases result
        exact ⟨iid, inst, f, t, member, by simpa using reached, valued, moved, rfl, rfl⟩

/-- Without a request nothing changes. -/
theorem accept_none (done : p.accept = some (p', none)) : p' = p := by
  unfold Proposer.accept at done
  split at done
  · cases done
    rfl
  · split at done
    · cases done
      rfl
    · dsimp only at done
      split at done
      · cases done
        rfl
      · obtain ⟨_, -, result⟩ := Option.map_eq_some_iff.mp done
        cases result

/-- A value of the queue makes no difference to what an instance knows. -/
theorem Prepared.takeValue (honest : Honest n P net acceptors id p)
    (prepared : Prepared n P net acceptors id next iid inst) :
    Prepared n P net acceptors id next iid (p.takeValue inst).1 ∧
      ∀ v ∈ (p.takeValue inst).2, P v := by
  unfold Proposer.takeValue
  cases inst.value with
  | some v => exact ⟨prepared, honest.values⟩
  | none =>
    have first : ∀ v ∈ p.values.head?, P v := fun v front =>
      honest.values v (List.mem_of_mem_head? front)
    exact ⟨{ prepared with value := first }, fun v later =>
      honest.values v (List.mem_of_mem_tail later)⟩

/-- A proposer asks for a safe value in a ballot in which nothing has been asked for. -/
theorem Honest.accept {acc : PaxosAccept} (coherent : Coherent n P net acceptors)
    (honest : Honest n P net acceptors id p) (done : p.accept = some (p', some acc)) :
    Proposes n P net acceptors id ⟨some p', [.accept acc]⟩ := by
  obtain ⟨iid, inst, f, t, member, reached, valued, moved, rfl, rfl⟩ := accept_spec done
  obtain ⟨prepared, values⟩ := (honest.prepared _ member).takeValue honest
  have reached' : (p.takeValue inst).1.quorum.reached = true := by
    unfold Proposer.takeValue
    cases inst.value <;> exact reached
  generalize p.takeValue inst = taken at prepared values valued moved reached' ⊢
  obtain ⟨inst', left⟩ := taken
  dsimp only at prepared values valued moved reached' ⊢
  clear done member reached inst
  have key : inst'.iid = iid := prepared.key
  obtain ⟨rfl, rfl, -⟩ := moveInstance_spec moved
  obtain ⟨safe, submitted⟩ := prepared.safeAt coherent reached' valued
  have votes : ∀ {j a b v}, Voted (after net id [.accept inst'.toAccept]) j a b v →
      Voted net j a b v := voted_after (by simp)
  have grows : Grows net acceptors (after net id [.accept inst'.toAccept]) acceptors :=
    ⟨subset_after, fun vote => .inl (votes vote), fun held => held⟩
  have requests : ∀ {j b v}, Proposed (after net id [.accept inst'.toAccept]) j b v →
      Proposed net j b v ∨ j = iid ∧ b = inst'.ballot ∧ v = inst'.toAccept.value := by
    rintro j b v ⟨source, request⟩
    rcases mem_after.mp request with old | ⟨-, sent⟩
    · exact .inl ⟨source, old⟩
    · have same := PaxosMessage.accept.inj (List.mem_singleton.mp sent)
      exact .inr ⟨(congrArg PaxosAccept.iid same).trans key, congrArg PaxosAccept.ballot same,
        congrArg PaxosAccept.value same⟩
  have requested : Proposed (after net id [.accept inst'.toAccept]) iid inst'.ballot
      inst'.toAccept.value := by
    refine ⟨id, mem_after.mpr (.inr ⟨rfl, List.mem_singleton.mpr ?_⟩)⟩
    exact congrArg PaxosMessage.accept (by rw [← key]; rfl)
  have elsewhere : ∀ {j}, j ≠ iid → ∀ b v, Proposed (after net id [.accept inst'.toAccept]) j b v →
      owner b = id → Proposed net j b v := fun other b v request _ =>
    (requests request).resolve_right fun same => other same.1
  refine ⟨grows.coherent coherent (fun q sent => ?_) (fun acceptor known => ?_), ?_, votes,
    fun request => ?_⟩
  · rcases mem_after.mp sent with old | ⟨-, new⟩
    · exact .inl old
    · obtain ⟨source, m⟩ := q
      obtain rfl := List.mem_singleton.mp new
      have small : inst'.iid < 2 ^ 32 :=
        Nat.lt_of_le_of_lt (key.symm ▸ prepared.begun) honest.bound
      refine .inr ⟨?_, submitted, ⟨prepared.positive, small⟩, fun w request => ?_⟩
      · change (voting _ _ inst'.iid).SafeAt _ _ _
        rw [key]
        exact grows.safeAt safe
      · change Proposed _ inst'.iid _ _ at request
        rw [key] at request
        rcases requests request with earlier | ⟨-, -, same⟩
        · exact absurd (prepared.fresh _ w earlier prepared.own) (lt_irrefl _)
        · exact same
  · obtain ⟨member, kept⟩ := coherent.faithful acceptor known
    exact ⟨member, kept.mono subset_after votes⟩
  · rintro _ ⟨⟩
    refine
      { honest with
        values := values
        begun := fun j b v request mine => ?_
        prepared := fun e table => ?_
        accepting := fun e table => ?_ }
    · rcases requests request with earlier | ⟨rfl, -, -⟩
      · exact honest.begun j b v earlier mine
      · exact prepared.begun
    · obtain ⟨old, differs⟩ := mem_of_del table
      exact (honest.prepared e old).grows grows (elsewhere (key ▸ differs))
    · rcases List.mem_append.mp table with old | new
      · have differs := (moveInstance_spec moved).2.2 e old
        exact (honest.accepting e old).grows subset_after (elsewhere (key ▸ differs))
      · obtain rfl := List.mem_singleton.mp new
        refine
          { toHeld := { prepared.toHeld with key := rfl, begun := key ▸ prepared.begun }
            fresh := fun b v request mine => ?_
            requested := key.symm ▸ requested
            counted := fun a none => absurd none (Finset.notMem_empty a) }
        rcases requests request with earlier | ⟨-, same, -⟩
        · exact Nat.le_of_lt (prepared.fresh b v (key ▸ earlier) mine)
        · exact Nat.le_of_eq same
  · rcases requests request with earlier | ⟨-, rfl, -⟩
    · exact .inl earlier
    · exact .inr prepared.own

/-- Nothing is sent, and the process may have ended. -/
theorem Coherent.sendsNothing {party : Option Proposer} (coherent : Coherent n P net acceptors)
    (honest : ∀ p ∈ party, Honest n P net acceptors id p) :
    Proposes n P net acceptors id ⟨party, []⟩ :=
  coherent.proposes (by simp) honest

theorem Coherent.sendsPrepare (pr : PaxosPrepare) (coherent : Coherent n P net acceptors)
    (honest : Honest n P net acceptors id p) :
    Proposes n P net acceptors id ⟨some p, [.prepare pr]⟩ :=
  coherent.proposes (fun _ member => .inl ⟨pr, List.mem_singleton.mp member⟩)
    fun _ known => Option.some.inj known ▸ honest

/-- Opening instances, however many. -/
theorem Honest.preexecuteLoop (count : Nat) (coherent : Coherent n P net acceptors)
    (honest : Honest n P net acceptors id p) :
    Proposes n P net acceptors id (Proposer.preexecuteLoop now count p) := by
  induction count generalizing net p with
  | zero => exact coherent.sendsNothing fun _ known => Option.some.inj known ▸ honest
  | succ count ih =>
    unfold Proposer.preexecuteLoop
    cases done : p.prepare now with
    | none => exact coherent.sendsNothing nofun
    | some result =>
      obtain ⟨p', pr⟩ := result
      have first := coherent.sendsPrepare pr (honest.prepare done)
      exact first.andThen fun q known => ih first.coherent (first.honest q known)

/-- Asking for values, while there is an instance and a value. -/
theorem Honest.acceptLoop (turns : Nat) (coherent : Coherent n P net acceptors)
    (honest : Honest n P net acceptors id p) :
    Proposes n P net acceptors id (Proposer.acceptLoop turns p) := by
  induction turns generalizing net p with
  | zero => exact coherent.sendsNothing fun _ known => Option.some.inj known ▸ honest
  | succ turns ih =>
    unfold Proposer.acceptLoop
    cases done : p.accept with
    | none => exact coherent.sendsNothing nofun
    | some result =>
      obtain ⟨p', out⟩ := result
      cases out with
      | none =>
        obtain rfl := accept_none done
        exact coherent.sendsNothing fun _ known => Option.some.inj known ▸ honest
      | some acc =>
        have first := honest.accept coherent done
        exact first.andThen fun q known => ih first.coherent (first.honest q known)

theorem Honest.tryAccept (window : Nat) (coherent : Coherent n P net acceptors)
    (honest : Honest n P net acceptors id p) :
    Proposes n P net acceptors id (Proposer.tryAccept window now p) := by
  have first := honest.acceptLoop (p.preparedCount + 1) coherent
  exact first.andThen fun q known => (first.honest q known).preexecuteLoop _ first.coherent

/-- The ballots of the proposer can still be raised. -/
def Fits (p : Proposer) : Prop :=
  ∀ e ∈ p.prepareInstances ++ p.acceptInstances, e.2.ballot + maxNOfProposers < 2 ^ 32

instance (p : Proposer) : Decidable (Fits p) :=
  inferInstanceAs (Decidable (∀ e ∈ p.prepareInstances ++ p.acceptInstances, _))

theorem Honest.handle {m : PaxosMessage} {source window : Nat} {bucket : Nat → Nat}
    (coherent : Coherent n P net acceptors) (honest : Honest n P net acceptors id p)
    (received : ⟨source, m⟩ ∈ net) (fits : Fits p) :
    Proposes n P net acceptors id (p.handle window now bucket source m) := by
  cases m with
  | promise m =>
    have taken := honest.receivePromise now coherent received fun e member =>
      fits e (List.mem_append_left _ member)
    have first : Proposes n P net acceptors id ⟨some (p.receivePromise m source now).1,
        ((p.receivePromise m source now).2.map .prepare).toList⟩ := by
      refine coherent.proposes (fun m' member => .inl ?_) fun q known =>
        Option.some.inj known ▸ taken
      obtain ⟨pr, -, same⟩ := Option.map_eq_some_iff.mp (Option.mem_toList.mp member)
      exact ⟨pr, same.symm⟩
    exact first.andThen fun q known => (first.honest q known).tryAccept window first.coherent
  | accepted m =>
    have taken := honest.receiveAccepted coherent received
    simp only [Proposer.handle, Proposer.handleAccepted]
    split
    · exact taken.tryAccept window coherent
    · exact coherent.sendsNothing fun _ known => Option.some.inj known ▸ taken
  | preempted m =>
    simp only [Proposer.handle, Proposer.handlePreempted]
    split
    next => exact coherent.sendsNothing nofun
    next q done =>
      have taken := honest.receivePreempted (fun e member =>
        fits e (List.mem_append_right _ member)) done
      exact coherent.sendsNothing fun _ known => Option.some.inj known ▸ taken
    next q pr done =>
      have taken := honest.receivePreempted (fun e member =>
        fits e (List.mem_append_right _ member)) done
      have first := coherent.sendsPrepare pr taken
      exact first.andThen fun q known => (first.honest q known).tryAccept window first.coherent
  | clientValue m => exact (coherent.sent _ received).elim
  | acceptorState m =>
    have small : m.trimIid < 2 ^ 32 := coherent.sent _ received
    exact coherent.sendsNothing fun _ known =>
      Option.some.inj known ▸ honest.receiveAcceptorState small bucket
  | _ => exact coherent.sendsNothing fun _ known => Option.some.inj known ▸ honest

/-- The timeouts send again what was sent before. -/
theorem Honest.checkTimeouts (timeout : Int) (coherent : Coherent n P net acceptors)
    (honest : Honest n P net acceptors id p) :
    Proposes n P net acceptors id (p.checkTimeouts timeout now) := by
  refine coherent.proposes (fun m member => ?_) fun _ known =>
    Option.some.inj known ▸ honest.restamp timeout
  rcases List.mem_append.mp member with prepare | accept
  · obtain ⟨inst, -, rfl⟩ := List.mem_map.mp prepare
    exact .inl ⟨_, rfl⟩
  · obtain ⟨inst, due, rfl⟩ := List.mem_map.mp accept
    obtain ⟨e, held, rfl⟩ := List.mem_map.mp (List.mem_filter.mp due).1
    have accepting := honest.accepting e held
    refine .inr ⟨_, rfl, ?_⟩
    change Proposed net e.2.iid _ _
    rw [accepting.key]
    exact accepting.requested

end CaceProofs.Guarantees.Paxos
