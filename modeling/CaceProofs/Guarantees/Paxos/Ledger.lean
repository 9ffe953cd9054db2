import CaceProofs.Guarantees.Paxos.Agreement
import Mathlib.Data.List.Count
import Mathlib.Data.List.Nodup

/-!
# The values that a proposer holds

A proposer keeps each submitted value in its queue or in one of its instances, until a quorum has
accepted it. It uses no instance number twice, and so none of its assertions fails.
-/
namespace CaceProofs.Guarantees.Paxos
open Source.Paxos Library

section Tables

variable {α : Type} {table table' : Khash α} {iid : Nat} {inst inst' : α}

def keys (table : Khash α) : List Nat := table.map Prod.fst

theorem del_of_absent (absent : iid ∉ keys table) : table.del iid = table := by
  refine List.filter_eq_self.mpr fun e member => ?_
  have other : e.1 ≠ iid := fun same => absent (same ▸ List.mem_map_of_mem member)
  simpa using other

/-- A table with distinct keys is the entry of a key and the rest. -/
theorem get_perm (got : table.get iid = some inst) (distinct : (keys table).Nodup) :
    table.Perm ((iid, inst) :: table.del iid) := by
  induction table with
  | nil => cases got
  | cons head tail ih =>
    obtain ⟨key, held⟩ := head
    obtain ⟨absent, rest⟩ := List.nodup_cons.mp distinct
    unfold Khash.get at got
    rw [List.lookup_cons] at got
    split at got
    next same =>
      obtain rfl : iid = key := by simpa using same
      obtain rfl : held = inst := Option.some.inj got
      have here : Khash.del ((iid, held) :: tail) iid = tail := by
        simpa [Khash.del] using del_of_absent absent
      rw [here]
    next differs =>
      have other : key ≠ iid := fun same => by simp [same] at differs
      have here : Khash.del ((key, held) :: tail) iid = (key, held) :: Khash.del tail iid := by
        simp [Khash.del, other]
      rw [here]
      exact ((ih got rest).cons _).trans (List.Perm.swap _ _ _)

/-- An update replaces that entry. -/
theorem set_perm (got : table.get iid = some inst) (distinct : (keys table).Nodup) :
    (table.set iid inst').Perm ((iid, inst') :: table.del iid) := by
  have replaced := (get_perm got distinct).map fun entry =>
    if entry.1 = iid then (iid, inst') else entry
  refine replaced.trans (List.Perm.of_eq ?_)
  rw [List.map_cons, if_pos rfl]
  congr 1
  refine (List.map_congr_left fun e member => ?_).trans (List.map_id _)
  exact if_neg (mem_of_del member).2

theorem keys_set (table : Khash α) (inst : α) :
    keys (table.set iid inst) = keys table := by
  simp only [keys, Khash.set, List.map_map]
  refine List.map_congr_left fun e _ => ?_
  simp only [Function.comp_apply]
  split
  next same => exact same.symm
  next => rfl

theorem mem_set_of_mem {old : α} (member : (iid, old) ∈ table) :
    (iid, inst) ∈ table.set iid inst :=
  List.mem_map.mpr ⟨_, member, if_pos rfl⟩

theorem mem_set_of_ne {e : Nat × α} (member : e ∈ table)
    (other : e.1 ≠ iid) : e ∈ table.set iid inst :=
  List.mem_map.mpr ⟨e, member, if_neg other⟩

end Tables

/-- The values that the instances of a table have of their own. -/
def ownValues (table : Khash Instance) : List PaxosValue := table.filterMap (·.2.value)

theorem ownValues_append (table table' : Khash Instance) :
    ownValues (table ++ table') = ownValues table ++ ownValues table' :=
  List.filterMap_append

theorem ownValues_singleton (iid : Nat) (inst : Instance) :
    ownValues [(iid, inst)] = inst.value.toList := by
  cases value : inst.value <;> simp [ownValues, value]

/-- What a proposer holds: the queue, and the own values of its instances. -/
def holdings (p : Proposer) : List PaxosValue :=
  p.values ++ ownValues p.prepareInstances ++ ownValues p.acceptInstances

/-- The instance numbers in use, and those of the values that were closed. -/
def used (p : Proposer) (closed : List (Nat × PaxosValue)) : List Nat :=
  keys p.prepareInstances ++ keys p.acceptInstances ++ closed.map Prod.fst

/-- No instance number is used twice, and none is beyond the next one. -/
structure Ledger (p : Proposer) (closed : List (Nat × PaxosValue)) : Prop where
  keyed : ∀ e ∈ p.prepareInstances ++ p.acceptInstances, e.2.iid = e.1
  distinct : (used p closed).Nodup
  begun : ∀ iid ∈ used p closed, iid ≤ p.nextPrepareIid
  bound : p.nextPrepareIid < 2 ^ 32

/-- A proposer goes on with the values that it held and gained, up to those it settled. -/
structure Settles (p : Proposer) (closed : List (Nat × PaxosValue)) (gained : List PaxosValue)
    (p' : Proposer) (settled : List (Nat × PaxosValue)) : Prop where
  ledger : Ledger p' (closed ++ settled)
  values : (holdings p' ++ settled.map Prod.snd).Perm (holdings p ++ gained)

variable {p p' p'' : Proposer} {closed settled : List (Nat × PaxosValue)} {inst : Instance}
  {gained : List PaxosValue} {iid : Nat} {now : Int}

theorem Ledger.refl (ledger : Ledger p closed) : Settles p closed [] p [] :=
  ⟨by rwa [List.append_nil], .refl _⟩

theorem Settles.trans {settled' : List (Nat × PaxosValue)}
    (first : Settles p closed gained p' settled)
    (second : Settles p' (closed ++ settled) [] p'' settled') :
    Settles p closed gained p'' (settled ++ settled') where
  ledger := by
    rw [← List.append_assoc]
    exact second.ledger
  values := by
    have one := first.values
    have two := second.values
    rw [List.perm_iff_count] at one two ⊢
    intro v
    have atOne := one v
    have atTwo := two v
    simp only [List.map_append, List.count_append, List.count_nil] at atOne atTwo ⊢
    omega

/-- An update of the tables that uses no number more often than before. -/
theorem Ledger.update (ledger : Ledger p closed)
    (keyed : ∀ e ∈ p'.prepareInstances ++ p'.acceptInstances, e.2.iid = e.1)
    (fewer : ∀ k, (used p' (closed ++ settled)).count k ≤ (used p closed).count k)
    (next : p.nextPrepareIid ≤ p'.nextPrepareIid) (bound : p'.nextPrepareIid < 2 ^ 32) :
    Ledger p' (closed ++ settled) where
  keyed := keyed
  distinct := List.nodup_iff_count_le_one.mpr fun k =>
    (fewer k).trans (List.nodup_iff_count_le_one.mp ledger.distinct k)
  begun k member := by
    have here : 0 < (used p closed).count k :=
      Nat.lt_of_lt_of_le (List.count_pos_iff.mpr member) (fewer k)
    exact (ledger.begun k (List.count_pos_iff.mp here)).trans next
  bound := bound

theorem Ledger.prepares (ledger : Ledger p closed) : (keys p.prepareInstances).Nodup :=
  (List.nodup_append'.mp (List.nodup_append'.mp ledger.distinct).1).1

theorem Ledger.accepts (ledger : Ledger p closed) : (keys p.acceptInstances).Nodup :=
  (List.nodup_append'.mp (List.nodup_append'.mp ledger.distinct).1).2.1

/-- The numbers and the values of a table, where one entry is set apart. -/
theorem counts_of_perm {table : Khash Instance} {e : Nat × Instance} {rest : Khash Instance}
    (perm : table.Perm (e :: rest)) :
    (∀ k, (keys table).count k = [e.1].count k + (keys rest).count k) ∧
      ∀ v, (ownValues table).count v = e.2.value.toList.count v + (ownValues rest).count v := by
  refine ⟨fun k => ?_, fun v => ?_⟩
  · rw [keys, (perm.map Prod.fst).count_eq k, List.map_cons, List.count_cons]
    rw [keys, List.count_cons]
    simp [Nat.add_comm]
  · rw [ownValues, (perm.filterMap _).count_eq v]
    cases value : e.2.value with
    | none => simp [ownValues, value]
    | some w => simp [ownValues, value, List.count_cons, Nat.add_comm]

theorem Ledger.propose (ledger : Ledger p closed) (v : PaxosValue) :
    Settles p closed [v] (p.propose v) [] where
  ledger := by
    rw [List.append_nil]
    exact ⟨ledger.keyed, ledger.distinct, ledger.begun, ledger.bound⟩
  values := by
    rw [List.perm_iff_count]
    intro w
    simp only [holdings, Proposer.propose, List.count_append, List.map_nil, List.count_nil]
    omega

theorem Ledger.setInstanceId (ledger : Ledger p closed) (raises : p.nextPrepareIid ≤ iid)
    (small : iid < 2 ^ 32) : Settles p closed [] (p.setInstanceId iid) [] where
  ledger := ledger.update ledger.keyed (by simp [used, Proposer.setInstanceId]) raises small
  values := .refl _

theorem Ledger.prepare {pr : PaxosPrepare} (ledger : Ledger p closed)
    (done : p.prepare now = some (p', pr)) : Settles p closed [] p' [] := by
  obtain ⟨positive, rfl⟩ := prepare_spec done
  have step : u32 (p.nextPrepareIid + 1) = p.nextPrepareIid + 1 := by
    have bound := ledger.bound
    unfold u32 at positive ⊢
    omega
  have small : u32 (p.nextPrepareIid + 1) < 2 ^ 32 := Nat.mod_lt _ (by decide)
  rw [step] at small ⊢
  have counts : ∀ k, (used { p with
      nextPrepareIid := p.nextPrepareIid + 1
      prepareInstances := p.prepareInstances ++ [(p.nextPrepareIid + 1, ⟨p.nextPrepareIid + 1,
        p.nextBallot 0, none, none, 0, .init p.acceptors, now⟩)] } closed).count k =
      (used p closed).count k + [p.nextPrepareIid + 1].count k := by
    intro k
    simp only [used, keys, List.map_append, List.count_append, List.map_cons, List.map_nil]
    omega
  constructor
  · rw [List.append_nil]
    refine ⟨fun e member => ?_, List.nodup_iff_count_le_one.mpr fun k => ?_, fun k member => ?_,
      small⟩
    · simp only [List.mem_append, List.mem_singleton] at member
      rcases member with (old | rfl) | old
      · exact ledger.keyed e (List.mem_append_left _ old)
      · rfl
      · exact ledger.keyed e (List.mem_append_right _ old)
    · rw [counts]
      by_cases fresh : k = p.nextPrepareIid + 1
      · have unused : (used p closed).count k = 0 := by
          refine List.count_eq_zero.mpr fun member => ?_
          have old := ledger.begun k member
          omega
        rw [unused, fresh]
        simp
      · have once := List.nodup_iff_count_le_one.mp ledger.distinct k
        rw [List.count_cons_of_ne (Ne.symm fresh)]
        simpa using once
    · have here : 0 < (used p closed).count k + [p.nextPrepareIid + 1].count k :=
        counts k ▸ List.count_pos_iff.mpr member
      rcases Nat.add_pos_iff_pos_or_pos.mp here with old | new
      · exact (ledger.begun k (List.count_pos_iff.mp old)).trans (Nat.le_succ _)
      · exact Nat.le_of_eq (List.mem_singleton.mp (List.count_pos_iff.mp new))
  · simp [holdings, ownValues, List.filterMap_append]

/-- The tables are rearranged: no number is used more often, and every value is somewhere. -/
theorem Ledger.rearranged (ledger : Ledger p closed)
    (keyed : ∀ e ∈ p'.prepareInstances ++ p'.acceptInstances, e.2.iid = e.1)
    (numbers : ∀ k, (keys p'.prepareInstances).count k + (keys p'.acceptInstances).count k +
      (settled.map Prod.fst).count k ≤
        (keys p.prepareInstances).count k + (keys p.acceptInstances).count k)
    (values : ∀ v, p'.values.count v + (ownValues p'.prepareInstances).count v +
      (ownValues p'.acceptInstances).count v + (settled.map Prod.snd).count v =
        p.values.count v + (ownValues p.prepareInstances).count v +
          (ownValues p.acceptInstances).count v)
    (next : p.nextPrepareIid ≤ p'.nextPrepareIid) (bound : p'.nextPrepareIid < 2 ^ 32) :
    Settles p closed [] p' settled where
  ledger := by
    refine ledger.update keyed (fun k => ?_) next bound
    have here := numbers k
    simp only [used, List.map_append, List.count_append]
    omega
  values := by
    rw [List.perm_iff_count]
    intro v
    have here := values v
    simp only [holdings, List.count_append, List.append_nil]
    omega

/-- An instance of the prepare table has changed, but for its number and its own value. -/
theorem Ledger.setPrepared {inst' : Instance} (ledger : Ledger p closed)
    (got : p.prepareInstances.get iid = some inst) (iid' : inst'.iid = inst.iid)
    (value : inst'.value = inst.value) :
    Settles p closed [] { p with prepareInstances := p.prepareInstances.set iid inst' } [] := by
  obtain ⟨keysOld, valuesOld⟩ := counts_of_perm (get_perm got ledger.prepares)
  obtain ⟨keysNew, valuesNew⟩ := counts_of_perm
    (set_perm got ledger.prepares : (p.prepareInstances.set iid inst').Perm _)
  have key := ledger.keyed _ (List.mem_append_left _ (mem_of_get got))
  refine ledger.rearranged (fun e member => ?_) (fun k => ?_) (fun v => ?_) (Nat.le_refl _)
    ledger.bound
  · rcases List.mem_append.mp member with here | there
    · rcases mem_of_set here with rfl | ⟨old, -⟩
      · exact iid'.trans key
      · exact ledger.keyed e (List.mem_append_left _ old)
    · exact ledger.keyed e (List.mem_append_right _ there)
  · have old := keysOld k
    have new := keysNew k
    simp only [List.map_nil, List.count_nil] at old new ⊢
    omega
  · have old := valuesOld v
    have new := valuesNew v
    dsimp only at old new
    rw [value] at new
    simp only [List.map_nil, List.count_nil]
    omega

theorem Ledger.receivePromise (ledger : Ledger p closed) (m : PaxosPromise) (a : Nat) :
    Settles p closed [] (p.receivePromise m a now).1 [] := by
  unfold Proposer.receivePromise
  split
  next => exact ledger.refl
  next inst got =>
    split
    · exact ledger.refl
    · split
      · exact ledger.setPrepared got rfl rfl
      · split
        next => exact ledger.refl
        next quorum _ =>
          refine ledger.setPrepared got ?_ ?_
          all_goals
            unfold Instance.takePromise
            split <;> rfl

/-- The entry of a table with distinct keys is what the table gives. -/
theorem get_of_mem {α : Type} {table : Khash α} {inst : α} (member : (iid, inst) ∈ table)
    (distinct : (keys table).Nodup) : table.get iid = some inst := by
  cases got : table.get iid with
  | none =>
    exact absurd (List.lookup_eq_none_iff.mp got _ member) (by simp)
  | some found =>
    have same := (get_perm got distinct).mem_iff.mp member
    rcases List.mem_cons.mp same with here | rest
    · rw [(Prod.mk.inj here).2]
    · exact absurd rfl (mem_of_del rest).2

/-- What the queue and an instance have after the instance took a value. -/
theorem takeValue_spec (p : Proposer) (inst : Instance) :
    (p.takeValue inst).1.iid = inst.iid ∧
      ∀ v, (p.takeValue inst).2.count v + (p.takeValue inst).1.value.toList.count v =
        p.values.count v + inst.value.toList.count v := by
  unfold Proposer.takeValue
  cases value : inst.value with
  | some w => simp [value]
  | none =>
    refine ⟨rfl, fun v => ?_⟩
    cases p.values with
    | nil => simp
    | cons w rest => simp [List.count_cons]

theorem Ledger.accept {acc : PaxosAccept} (ledger : Ledger p closed)
    (done : p.accept = some (p', some acc)) : Settles p closed [] p' [] := by
  obtain ⟨iid, inst, f, t, member, -, -, moved, rfl, -⟩ := accept_spec done
  obtain ⟨same, taken⟩ := takeValue_spec p inst
  have key : inst.iid = iid := ledger.keyed _ (List.mem_append_left _ member)
  obtain ⟨keysOld, valuesOld⟩ :=
    counts_of_perm (get_perm (get_of_mem member ledger.prepares) ledger.prepares)
  obtain ⟨rfl, rfl, -⟩ := moveInstance_spec moved
  have moves : (p.takeValue inst).1.iid = iid := same.trans key
  generalize p.takeValue inst = r at taken moves ⊢
  obtain ⟨inst', left⟩ := r
  dsimp only at taken moves ⊢
  subst moves
  refine ledger.rearranged (fun e entry => ?_) (fun k => ?_) (fun v => ?_) (Nat.le_refl _)
    ledger.bound
  · rcases List.mem_append.mp entry with here | there
    · exact ledger.keyed e (List.mem_append_left _ (mem_of_del here).1)
    · rcases List.mem_append.mp there with old | new
      · exact ledger.keyed e (List.mem_append_right _ old)
      · obtain rfl := List.mem_singleton.mp new
        rfl
  · have old := keysOld k
    simp only [keys, List.map_append, List.count_append, List.map_cons, List.map_nil,
      List.count_nil] at old ⊢
    omega
  · have old := valuesOld v
    have queue := taken v
    simp only [ownValues_append, ownValues_singleton, List.count_append, List.map_nil,
      List.count_nil] at old queue ⊢
    omega

/-- The own value that a closed instance does not give back, with its number. -/
def closes (inst : Instance) : List (Nat × PaxosValue) :=
  if Proposer.givesBack inst = [] then inst.value.toList.map fun v => (inst.iid, v) else []

/-- A closed instance gives its own value back or has got it accepted. -/
theorem closes_spec (inst : Instance) :
    (∀ v, (Proposer.givesBack inst).count v + ((closes inst).map Prod.snd).count v =
      inst.value.toList.count v) ∧ (∀ d ∈ closes inst, d = (inst.iid, inst.toAccept.value)) ∧
        (closes inst).length ≤ 1 := by
  unfold closes Proposer.givesBack Instance.toAccept
  cases value : inst.value with
  | none => simp
  | some own =>
    cases promised : inst.promisedValue with
    | none => simp
    | some other =>
      by_cases same : own = other <;> simp [same]

/-- An acceptor is counted for an instance, and a quorum closes it, or nothing happens. -/
theorem receiveAccepted_spec (p : Proposer) (m : PaxosAccepted) (a : Nat) :
    p.receiveAccepted m a = (p, false) ∨ ∃ inst quorum,
      p.acceptInstances.get m.iid = some inst ∧ m.ballot = inst.ballot ∧
        inst.quorum.add a = some quorum ∧
          ((quorum.reached = true ∧ p.receiveAccepted m a = ({ p with
              values := p.values ++ Proposer.givesBack inst
              acceptInstances := p.acceptInstances.del m.iid }, true)) ∨
            p.receiveAccepted m a = ({ p with
              acceptInstances := p.acceptInstances.set m.iid { inst with quorum } }, true)) := by
  unfold Proposer.receiveAccepted
  split
  next => exact .inl rfl
  next inst got =>
    split
    next same =>
      split
      next => exact .inl rfl
      next quorum added =>
        refine .inr ⟨inst, quorum, got, same, added, ?_⟩
        split
        next reached => exact .inl ⟨reached, rfl⟩
        next => exact .inr rfl
    next => exact .inl rfl

/-- An instance of the accept table is closed. -/
theorem Ledger.close (ledger : Ledger p closed) (got : p.acceptInstances.get iid = some inst) :
    Settles p closed [] { p with
      values := p.values ++ Proposer.givesBack inst
      acceptInstances := p.acceptInstances.del iid } (closes inst) := by
  have key : inst.iid = iid := ledger.keyed _ (List.mem_append_right _ (mem_of_get got))
  obtain ⟨keysOld, valuesOld⟩ := counts_of_perm (get_perm got ledger.accepts)
  obtain ⟨back, only, few⟩ := closes_spec inst
  refine ledger.rearranged (fun e member => ?_) (fun k => ?_) (fun v => ?_)
    (Nat.le_refl _) ledger.bound
  · rcases List.mem_append.mp member with here | there
    · exact ledger.keyed e (List.mem_append_left _ here)
    · exact ledger.keyed e (List.mem_append_right _ (mem_of_del there).1)
  · have old := keysOld k
    have number : ((closes inst).map Prod.fst).count k ≤ [iid].count k := by
      cases closed : closes inst with
      | nil => simp
      | cons d rest =>
        rw [closed] at only few
        obtain rfl : rest = [] := List.length_eq_zero_iff.mp (by simpa using few)
        obtain rfl := only d List.mem_cons_self
        simp [key]
    dsimp only at old ⊢
    omega
  · have old := valuesOld v
    have gives := back v
    simp only [List.count_append] at old ⊢
    omega

/-- An instance of the accept table has counted an acceptor. -/
theorem Ledger.setAccepting {quorum : Quorum} (ledger : Ledger p closed)
    (got : p.acceptInstances.get iid = some inst) :
    Settles p closed [] { p with
      acceptInstances := p.acceptInstances.set iid { inst with quorum } } [] := by
  have key : inst.iid = iid := ledger.keyed _ (List.mem_append_right _ (mem_of_get got))
  obtain ⟨keysOld, valuesOld⟩ := counts_of_perm (get_perm got ledger.accepts)
  obtain ⟨keysNew, valuesNew⟩ := counts_of_perm
    (set_perm got ledger.accepts : (p.acceptInstances.set iid { inst with quorum }).Perm _)
  refine ledger.rearranged (fun e member => ?_) (fun k => ?_) (fun v => ?_)
    (Nat.le_refl _) ledger.bound
  · rcases List.mem_append.mp member with here | there
    · exact ledger.keyed e (List.mem_append_left _ here)
    · rcases mem_of_set there with rfl | ⟨old, -⟩
      · exact key
      · exact ledger.keyed e (List.mem_append_right _ old)
  · have old := keysOld k
    have new := keysNew k
    simp only [List.map_nil, List.count_nil] at old new ⊢
    omega
  · have old := valuesOld v
    have new := valuesNew v
    simp only [List.map_nil, List.count_nil] at old new ⊢
    omega

/-- An instance goes back to the prepare table. -/
theorem set_append {table : Khash Instance} {inst' : Instance}
    (absent : ∀ e ∈ table, e.1 ≠ iid) :
    Khash.set (table ++ [(iid, inst)]) iid inst' = table ++ [(iid, inst')] := by
  have same : table.map (fun entry => if entry.1 = iid then (iid, inst') else entry) = table :=
    (List.map_congr_left fun e member => if_neg (absent e member)).trans (List.map_id _)
  rw [Khash.set, List.map_append, same]
  simp

theorem Ledger.receivePreempted {m : PaxosPreempted} {out : Option PaxosPrepare}
    (ledger : Ledger p closed) (done : p.receivePreempted m now = some (p', out)) :
    Settles p closed [] p' [] := by
  unfold Proposer.receivePreempted at done
  split at done
  next =>
    cases done
    exact ledger.refl
  next inst got =>
    have key : inst.iid = m.iid := ledger.keyed _ (List.mem_append_right _ (mem_of_get got))
    obtain ⟨keysOld, valuesOld⟩ := counts_of_perm (get_perm got ledger.accepts)
    split at done
    · obtain ⟨⟨f, t⟩, moved, result⟩ := Option.map_eq_some_iff.mp done
      cases result
      obtain ⟨rfl, rfl, absent⟩ := moveInstance_spec moved
      rw [key] at absent ⊢
      rw [set_append absent]
      refine ledger.rearranged (fun e member => ?_) (fun k => ?_) (fun v => ?_) (Nat.le_refl _)
        ledger.bound
      · rcases List.mem_append.mp member with here | there
        · rcases List.mem_append.mp here with old | new
          · exact ledger.keyed e (List.mem_append_left _ old)
          · obtain rfl := List.mem_singleton.mp new
            exact key
        · exact ledger.keyed e (List.mem_append_right _ (mem_of_del there).1)
      · have old := keysOld k
        simp only [keys, List.map_append, List.count_append, List.map_cons, List.map_nil,
          List.count_nil] at old ⊢
        omega
      · have old := valuesOld v
        have kept : (p.preempt inst now).value = inst.value := rfl
        simp only [ownValues_append, ownValues_singleton, List.count_append, List.map_nil,
          List.count_nil, kept] at old ⊢
        omega
    · cases done
      exact ledger.refl

/-- A trim gives the values of the instances that it removes back. -/
theorem trim_counts (bucket : Nat → Nat) (table : Khash Instance) (trimIid : Nat) :
    (∀ v, (Proposer.trimInstances bucket table trimIid).1.count v +
      (ownValues (Proposer.trimInstances bucket table trimIid).2).count v =
        (ownValues table).count v) ∧
      (∀ k, (keys (Proposer.trimInstances bucket table trimIid).2).count k ≤
        (keys table).count k) ∧ (Proposer.trimInstances bucket table trimIid).2 ⊆ table := by
  refine ⟨fun v => ?_, fun k => ?_, List.filter_subset_self _⟩
  · have sorted := (List.mergeSort_perm (table.filter (·.2.iid ≤ trimIid))
      fun e e' => bucket e.1 ≤ bucket e'.1).filterMap (·.2.value)
    have parts := (List.filter_append_perm (fun e => decide (e.2.iid ≤ trimIid)) table).filterMap
      (·.2.value)
    rw [List.filterMap_append] at parts
    have both := parts.count_eq v
    have given := sorted.count_eq v
    rw [List.count_append] at both
    simp only [Proposer.trimInstances, ownValues, decide_not] at both given ⊢
    omega
  · exact (List.filter_sublist.map _).count_le k

theorem Ledger.receiveAcceptorState (ledger : Ledger p closed) {m : PaxosAcceptorState}
    (small : m.trimIid < 2 ^ 32) (bucket : Nat → Nat) :
    Settles p closed [] (p.receiveAcceptorState m bucket) [] := by
  unfold Proposer.receiveAcceptorState
  split
  · exact ledger.refl
  · obtain ⟨values, numbers, within⟩ := trim_counts bucket p.prepareInstances m.trimIid
    obtain ⟨values', numbers', within'⟩ := trim_counts bucket p.acceptInstances m.trimIid
    refine ledger.rearranged (fun e member => ?_) (fun k => ?_) (fun v => ?_) ?_ ?_
    · rcases List.mem_append.mp member with here | there
      · exact ledger.keyed e (List.mem_append_left _ (within here))
      · exact ledger.keyed e (List.mem_append_right _ (within' there))
    · have first := numbers k
      have second := numbers' k
      simp only [List.map_nil, List.count_nil]
      omega
    · have first := values v
      have second := values' v
      simp only [List.count_append, List.map_nil, List.count_nil]
      omega
    · dsimp only
      split <;> omega
    · have bound := ledger.bound
      dsimp only
      split <;> assumption

theorem Ledger.restamp (ledger : Ledger p closed) (timeout : Int) :
    Settles p closed [] { p with
      prepareInstances := Proposer.restamp timeout now p.prepareInstances
      acceptInstances := Proposer.restamp timeout now p.acceptInstances } [] := by
  have numbers : ∀ table, keys (Proposer.restamp timeout now table) = keys table := by
    intro table
    simp [keys, Proposer.restamp]
  have values : ∀ table, ownValues (Proposer.restamp timeout now table) = ownValues table := by
    intro table
    rw [ownValues, Proposer.restamp, List.filterMap_map]
    congr 1
    funext e
    dsimp only [Function.comp]
    split <;> rfl
  have keyed : ∀ {table : Khash Instance}, (∀ e ∈ table, e.2.iid = e.1) →
      ∀ e ∈ Proposer.restamp timeout now table, e.2.iid = e.1 := by
    intro table before e member
    obtain ⟨old, held, rfl⟩ := List.mem_map.mp member
    have same := before old held
    dsimp only
    split <;> exact same
  refine ledger.rearranged (fun e member => ?_) (fun k => ?_) (fun v => ?_) (Nat.le_refl _)
    ledger.bound
  · rcases List.mem_append.mp member with here | there
    · exact keyed (fun e held => ledger.keyed e (List.mem_append_left _ held)) e here
    · exact keyed (fun e held => ledger.keyed e (List.mem_append_right _ held)) e there
  · simp [numbers]
  · simp [values]

/-- Opening instances settles nothing. -/
theorem Ledger.preexecuteLoop (count : Nat) (ledger : Ledger p closed) :
    ∀ p' ∈ (Proposer.preexecuteLoop now count p).party, Settles p closed [] p' [] := by
  induction count generalizing p with
  | zero => exact fun _ known => Option.some.inj known ▸ ledger.refl
  | succ count ih =>
    unfold Proposer.preexecuteLoop
    cases done : p.prepare now with
    | none => simp
    | some result =>
      obtain ⟨q, pr⟩ := result
      have first := ledger.prepare done
      intro p' known
      have rest := ih (by simpa using first.ledger) p' known
      simpa using first.trans (by simpa using rest)

theorem Ledger.acceptLoop (turns : Nat) (ledger : Ledger p closed) :
    ∀ p' ∈ (Proposer.acceptLoop turns p).party,
      Settles p closed [] p' [] ∧ p'.nextPrepareIid = p.nextPrepareIid := by
  induction turns generalizing p with
  | zero => exact fun _ known => Option.some.inj known ▸ ⟨ledger.refl, rfl⟩
  | succ turns ih =>
    unfold Proposer.acceptLoop
    cases done : p.accept with
    | none => simp
    | some result =>
      obtain ⟨q, out⟩ := result
      cases out with
      | none =>
        obtain rfl := accept_none done
        exact fun _ known => Option.some.inj known ▸ ⟨ledger.refl, rfl⟩
      | some acc =>
        have first := ledger.accept done
        obtain ⟨_, _, _, _, -, -, -, -, result, -⟩ := accept_spec done
        have same : q.nextPrepareIid = p.nextPrepareIid := by rw [result]
        intro p' known
        obtain ⟨rest, next⟩ := ih (by simpa using first.ledger) p' known
        exact ⟨by simpa using first.trans (by simpa using rest), next.trans same⟩

theorem Ledger.tryAccept (window : Nat) (ledger : Ledger p closed) :
    ∀ p' ∈ (Proposer.tryAccept window now p).party, Settles p closed [] p' [] := by
  intro p' known
  unfold Proposer.tryAccept Outcome.andThen at known
  split at known
  next none => simp [none] at known
  next q middle =>
    obtain ⟨first, -⟩ := ledger.acceptLoop _ q middle
    have rest := Ledger.preexecuteLoop _ (by simpa using first.ledger) p' known
    simpa using first.trans (by simpa using rest)

/-- A number that no entry has can be put into a table. -/
theorem put_isSome {table : Khash Instance} (absent : iid ∉ keys table) :
    (table.put iid inst).isSome = true := by
  have fresh : ¬ table.any (·.1 = iid) = true := fun found => by
    obtain ⟨e, member, same⟩ := List.any_eq_true.mp found
    have key : e.1 ∈ keys table := List.mem_map_of_mem member
    exact absent (of_decide_eq_true same ▸ key)
  unfold Khash.put
  rw [if_neg fresh]
  rfl

/-- The assertions of `proposer_prepare` hold before the last instance number. -/
theorem Ledger.prepare_isSome (ledger : Ledger p closed) (room : p.nextPrepareIid + 1 < 2 ^ 32)
    (now : Int) : (p.prepare now).isSome = true := by
  have step : u32 (p.nextPrepareIid + 1) = p.nextPrepareIid + 1 := Nat.mod_eq_of_lt room
  have absent : p.nextPrepareIid + 1 ∉ keys p.prepareInstances := fun member => by
    have begun := ledger.begun _ (List.mem_append_left _ (List.mem_append_left _ member))
    omega
  unfold Proposer.prepare
  dsimp only
  rw [step, Instance.new, if_pos (Nat.succ_pos _), Option.bind_some, Option.isSome_map]
  exact put_isSome absent

/-- No instance is in both tables, so that it can move. -/
theorem moveInstance_isSome {f t : Khash Instance} {x : Instance} (got : f.get inst.iid = some x)
    (absent : inst.iid ∉ keys t) : (Proposer.moveInstance f t inst).isSome = true := by
  unfold Proposer.moveInstance
  rw [got]
  dsimp only
  rw [Option.isSome_map]
  exact put_isSome absent

theorem Ledger.apart (ledger : Ledger p closed) {k : Nat} (here : k ∈ keys p.prepareInstances) :
    k ∉ keys p.acceptInstances := fun there =>
  (List.nodup_append'.mp (List.nodup_append'.mp ledger.distinct).1).2.2 here there

theorem Ledger.accept_isSome (ledger : Ledger p closed) : p.accept.isSome = true := by
  unfold Proposer.accept
  split
  next => rfl
  next inst found =>
    obtain ⟨iid, member⟩ := smallest_mem found
    have key : inst.iid = iid := ledger.keyed _ (List.mem_append_left _ member)
    have moves : (p.takeValue inst).1.iid = iid := (takeValue_spec p inst).1.trans key
    split
    · rfl
    · dsimp only
      split
      · rfl
      · rw [Option.isSome_map]
        refine moveInstance_isSome (x := inst) ?_ ?_
        · rw [moves]
          exact get_of_mem member ledger.prepares
        · rw [moves]
          exact ledger.apart (List.mem_map_of_mem member)

theorem Ledger.receivePreempted_isSome (ledger : Ledger p closed) (m : PaxosPreempted) :
    (p.receivePreempted m now).isSome = true := by
  unfold Proposer.receivePreempted
  split
  next => rfl
  next inst got =>
    have key : inst.iid = m.iid := ledger.keyed _ (List.mem_append_right _ (mem_of_get got))
    split
    · rw [Option.isSome_map]
      refine moveInstance_isSome (x := inst) (key.symm ▸ got) fun here => ?_
      rw [key] at here
      exact ledger.apart here (List.mem_map_of_mem (mem_of_get got))
    · rfl

theorem Ledger.preexecuteLoop_isSome (count : Nat) (ledger : Ledger p closed)
    (room : p.nextPrepareIid + count < 2 ^ 32) :
    (Proposer.preexecuteLoop now count p).party.isSome = true := by
  induction count generalizing p with
  | zero => rfl
  | succ count ih =>
    unfold Proposer.preexecuteLoop
    obtain ⟨⟨q, pr⟩, done⟩ := Option.isSome_iff_exists.mp
      (ledger.prepare_isSome (by omega : p.nextPrepareIid + 1 < 2 ^ 32) now)
    have first := (ledger.prepare done).ledger
    rw [List.append_nil] at first
    obtain ⟨-, result⟩ := prepare_spec done
    have next : q.nextPrepareIid = p.nextPrepareIid + 1 := by
      rw [result]
      exact Nat.mod_eq_of_lt (by omega)
    rw [done]
    exact ih first (by omega)

theorem Ledger.acceptLoop_isSome (turns : Nat) (ledger : Ledger p closed) :
    (Proposer.acceptLoop turns p).party.isSome = true := by
  induction turns generalizing p with
  | zero => rfl
  | succ turns ih =>
    unfold Proposer.acceptLoop
    obtain ⟨⟨q, out⟩, done⟩ := Option.isSome_iff_exists.mp ledger.accept_isSome
    rw [done]
    cases out with
    | none => rfl
    | some acc =>
      have first := (ledger.accept done).ledger
      rw [List.append_nil] at first
      exact ih first

theorem Ledger.tryAccept_isSome {window : Nat} (ledger : Ledger p closed)
    (room : p.nextPrepareIid + window < 2 ^ 32) :
    (Proposer.tryAccept window now p).party.isSome = true := by
  obtain ⟨q, middle⟩ := Option.isSome_iff_exists.mp
    (ledger.acceptLoop_isSome (p.preparedCount + 1))
  obtain ⟨first, next⟩ := ledger.acceptLoop _ q middle
  have kept := first.ledger
  rw [List.append_nil] at kept
  unfold Proposer.tryAccept Outcome.andThen
  rw [middle]
  exact kept.preexecuteLoop_isSome _ (by omega)

end CaceProofs.Guarantees.Paxos
