import CaceProofs.Guarantees.Paxos.Ledger
import CaceProofs.Guarantees.Paxos.Logs

/-!
# What a learner waits for

A learner holds nothing back: it has delivered every closed instance up to the first one that
it does not know to be closed. It reports a hole exactly when a later one is closed.
-/
namespace CaceProofs.Guarantees.Paxos
open Source.Paxos Library

variable {n a iid : Nat} {inst : Learner.Instance} {m : PaxosAccepted} {l l' : Learner}

/-- The learner counts a quorum for the instance. -/
def Closed (n : Nat) (inst : Learner.Instance) : Prop := (inst.hasQuorum n).2 = true

theorem hasQuorum_iid (inst : Learner.Instance) : (inst.hasQuorum n).1.iid = inst.iid := by
  unfold Learner.Instance.hasQuorum
  split
  · rfl
  · split <;> rfl

/-- A closed instance has a final value. -/
theorem Closed.final (closed : Closed n inst) :
    (inst.hasQuorum n).1.finalValue.isSome = true := by
  unfold Closed Learner.Instance.hasQuorum at closed
  unfold Learner.Instance.hasQuorum
  split at closed
  next known =>
    rw [if_pos known]
    exact known
  next unknown =>
    rw [if_neg unknown]
    split at closed
    next enough =>
      rw [if_pos enough]
      have some' : 0 < (inst.agreeing n).length := by
        unfold paxosQuorum at enough
        omega
      obtain ⟨i, last⟩ := Option.isSome_iff_exists.mp
        (List.getLast?_isSome.mpr (List.ne_nil_of_length_pos some'))
      have agrees := List.mem_of_getLast? last
      have answered := (List.mem_filter.mp agrees).2
      obtain ⟨ack, known, -⟩ := (Option.any_eq_true _ _).mp answered
      simp [last, known]
    next => cases closed

theorem Closed.counted (closed : Closed n inst) : Closed n (inst.hasQuorum n).1 := by
  have final := closed.final
  rw [Closed, Learner.Instance.hasQuorum, if_pos final]

/-- Counting again closes nothing new. -/
theorem closed_of_counted (closed : Closed n (inst.hasQuorum n).1) : Closed n inst := by
  by_cases was : Closed n inst
  · exact was
  · have same : (inst.hasQuorum n).1 = inst := by
      unfold Closed at was
      unfold Learner.Instance.hasQuorum at was ⊢
      split
      next => rfl
      next unknown =>
        rw [if_neg unknown] at was
        split
        next enough => simp [enough] at was
        next => rfl
    rwa [same] at closed

theorem update_iid (named : inst.iid = 0 ∨ inst.iid = m.iid) :
    (inst.update m a n).iid = m.iid := by
  have begun : (inst.begin m).iid = m.iid := by
    unfold Learner.Instance.begin
    split
    next => rfl
    next filled => exact named.resolve_left filled
  unfold Learner.Instance.update
  dsimp only
  split
  · exact (hasQuorum_iid _).trans begun
  · split <;> exact (hasQuorum_iid _).trans begun

theorem Closed.update (closed : Closed n inst) (filled : inst.iid ≠ 0) :
    Closed n (inst.update m a n) := by
  have begun : inst.begin m = inst := if_neg filled
  unfold Learner.Instance.update
  dsimp only
  rw [begun, if_pos (show (inst.hasQuorum n).2 = true from closed)]
  exact closed.counted

/-- What a learner that has not passed the last instance number keeps. -/
structure Watching (l : Learner) : Prop where
  distinct : (keys l.instances).Nodup
  named : ∀ e ∈ l.instances, e.2.iid = e.1
  ahead : ∀ e ∈ l.instances, l.currentIid ≤ e.1
  below : ∀ e ∈ l.instances, Closed l.acceptors e.2 → e.1 ≤ l.highestIidClosed
  top : l.highestIidClosed ≤ l.currentIid ∨
    ∃ e ∈ l.instances, e.1 = l.highestIidClosed ∧ Closed l.acceptors e.2
  fresh : l.lateStart = true → l.instances = [] ∧ l.highestIidClosed = 1

theorem Watching.begin (watching : Watching l) (positive : 0 < m.iid) :
    Watching (l.begin m) ∧ (l.begin m).lateStart = false := by
  unfold Learner.begin
  split
  next late =>
    obtain ⟨empty, first⟩ := watching.fresh late
    refine ⟨⟨watching.distinct, watching.named, ?_, watching.below, .inl ?_, nofun⟩, rfl⟩
    · simp [empty]
    · simp only [first]
      omega
  next begun => exact ⟨watching, by simpa using begun⟩

/-- The instance of a message is in the table, and the other entries are the same. -/
theorem getInstanceOrCreate_spec (watching : Watching l) (iid : Nat) :
    let created := l.getInstanceOrCreate iid
    (keys created.1).Nodup ∧ (iid, created.2) ∈ created.1 ∧
      (created.2.iid = 0 ∨ created.2.iid = iid) ∧
      (∀ e ∈ created.1, e.1 ≠ iid → e ∈ l.instances) ∧ l.instances ⊆ created.1 := by
  dsimp only
  unfold Learner.getInstanceOrCreate
  split
  next inst got =>
    exact ⟨watching.distinct, mem_of_get got, .inr (watching.named _ (mem_of_get got)),
      fun e member _ => member, List.Subset.refl _⟩
  next none =>
    have absent : iid ∉ keys l.instances := by
      intro member
      obtain ⟨e, held, same⟩ := List.mem_map.mp member
      have differs := List.lookup_eq_none_iff.mp none e held
      simp [same] at differs
    refine ⟨?_, List.mem_append_right _ (List.mem_singleton_self _), .inl rfl,
      fun e member other => ?_, List.subset_append_left _ _⟩
    · simp only [keys, List.map_append, List.map_cons, List.map_nil]
      exact List.nodup_append'.mpr ⟨watching.distinct, List.nodup_singleton _,
        List.disjoint_singleton.mpr absent⟩
    · rcases List.mem_append.mp member with old | new
      · exact old
      · exact absurd (congrArg Prod.fst (List.mem_singleton.mp new)) other

/-- A message of an acceptor. -/
theorem Watching.receiveAccepted (watching : Watching l) (positive : 0 < m.iid) :
    Watching (l.receiveAccepted m a) := by
  obtain ⟨begun, started⟩ := watching.begin positive
  unfold Learner.receiveAccepted
  dsimp only
  split
  next => exact begun
  next notOld =>
    have late : (l.begin m).currentIid ≤ m.iid := Nat.not_lt.mp notOld
    obtain ⟨distinct, held, named, others, kept⟩ := getInstanceOrCreate_spec begun m.iid
    generalize (l.begin m).getInstanceOrCreate m.iid = created at *
    generalize l.begin m = l at *
    have about : ((created.2.update m a l.acceptors).hasQuorum l.acceptors).1.iid = m.iid :=
      (hasQuorum_iid _).trans (update_iid named)
    have highest : l.highestIidClosed ≤
        if ((created.2.update m a l.acceptors).hasQuorum l.acceptors).2 = true ∧
            l.highestIidClosed < m.iid then m.iid else l.highestIidClosed := by
      split
      next raised => exact raised.2.le
      next => exact le_rfl
    rw [about]
    refine ⟨?_, fun e member => ?_, fun e member => ?_, fun e member closed => ?_, ?_, ?_⟩
    · rw [keys_set]
      exact distinct
    · rcases mem_of_set member with rfl | ⟨old, other⟩
      · exact about
      · exact begun.named e (others e old other)
    · rcases mem_of_set member with rfl | ⟨old, other⟩
      · exact late
      · exact begun.ahead e (others e old other)
    · rcases mem_of_set member with rfl | ⟨old, other⟩
      · have now : Closed l.acceptors (created.2.update m a l.acceptors) :=
          closed_of_counted closed
        dsimp only
        unfold Closed at now
        split
        next => exact le_rfl
        next lower =>
          exact Nat.not_lt.mp fun less => lower ⟨now, less⟩
      · exact (begun.below e (others e old other) closed).trans highest
    · dsimp only
      split
      next raised => exact .inr ⟨_, mem_set_of_mem held, rfl, Closed.counted raised.1⟩
      next unraised =>
        rcases begun.top with reached | ⟨e, member, same, closed⟩
        · exact .inl reached
        · by_cases here : e.1 = m.iid
          · -- the instance was closed before the message, and still is
            have entry : e = (m.iid, created.2) :=
              List.inj_on_of_nodup_map distinct (kept member) held here
            have before : Closed l.acceptors created.2 := by rwa [entry] at closed
            have filled : created.2.iid ≠ 0 := by
              have := begun.named e member
              rw [entry] at this
              exact fun zero => positive.ne (zero.symm.trans this)
            exact .inr ⟨_, mem_set_of_mem held, here.symm.trans same,
              (before.update filled).counted⟩
          · exact .inr ⟨e, mem_set_of_ne (kept member) here, same, closed⟩
    · simp [started]

/-- What a delivery does to the learner. -/
theorem deliverNext_cases {out : PaxosAccepted} (done : l.deliverNext = some (l', out)) :
    ∃ inst, l.instances.get l.currentIid = some inst ∧
      l' = { l with
        instances := l.instances.del (inst.hasQuorum l.acceptors).1.iid
        currentIid := u32 (l.currentIid + 1) } := by
  obtain ⟨inst, got, taken⟩ := Option.bind_eq_some_iff.mp done
  dsimp only at taken
  split at taken
  · obtain ⟨r, -, result⟩ := Option.map_eq_some_iff.mp taken
    cases result
    exact ⟨inst, got, rfl⟩
  · cases taken

/-- A learner that delivers nothing waits for an instance that is not closed. -/
theorem unclosed_of_served (served : l.deliverNext = none)
    (got : l.instances.get l.currentIid = some inst) : ¬ Closed l.acceptors inst := by
  intro closed
  obtain ⟨r, final⟩ := Option.isSome_iff_exists.mp closed.final
  rw [Learner.deliverNext, got, Option.bind_some] at served
  dsimp only at served
  rw [if_pos (show (inst.hasQuorum l.acceptors).2 = true from closed), final] at served
  cases served

theorem Watching.deliverNext {out : PaxosAccepted} (watching : Watching l)
    (done : l.deliverNext = some (l', out)) (unwrapped : l'.currentIid ≠ 0)
    (bound : l.currentIid < 2 ^ 32) : Watching l' := by
  obtain ⟨inst, got, rfl⟩ := deliverNext_cases done
  have here := mem_of_get got
  have name : (inst.hasQuorum l.acceptors).1.iid = l.currentIid :=
    (hasQuorum_iid inst).trans (watching.named _ here)
  have next : u32 (l.currentIid + 1) = l.currentIid + 1 := by
    unfold u32 at unwrapped ⊢
    dsimp only at unwrapped
    omega
  rw [name, next]
  refine ⟨?_, fun e left => watching.named e (mem_of_del left).1, fun e left => ?_,
    fun e left => watching.below e (mem_of_del left).1, ?_, fun late => ?_⟩
  · exact watching.distinct.sublist ((List.filter_sublist).map _)
  · obtain ⟨member, other⟩ := mem_of_del left
    have ahead := watching.ahead e member
    dsimp only
    omega
  · dsimp only
    rcases watching.top with reached | ⟨e, member, same, closed⟩
    · exact .inl (by omega)
    · by_cases last : e.1 = l.currentIid
      · exact .inl (by omega)
      · refine .inr ⟨e, List.mem_filter.mpr ⟨member, by simpa using last⟩, same, closed⟩
  · rw [(watching.fresh late).1] at here
    cases here

/-- What a learner keeps: no instance has the number 0, so that one that has passed the last
number stays there. -/
structure Serves (l : Learner) : Prop where
  positive : ∀ e ∈ l.instances, e.1 ≠ 0
  bound : l.currentIid < 2 ^ 32
  begun : l.currentIid = 0 → l.lateStart = false
  watching : l.currentIid ≠ 0 → Watching l

theorem Serves.deliverNext {out : PaxosAccepted} (serves : Serves l)
    (done : l.deliverNext = some (l', out)) :
    Serves l' ∧ l'.instances.length < l.instances.length := by
  obtain ⟨inst, got, rfl⟩ := deliverNext_cases done
  have here := mem_of_get got
  have current : l.currentIid ≠ 0 := serves.positive _ here
  have watching := serves.watching current
  have name : (inst.hasQuorum l.acceptors).1.iid = l.currentIid :=
    (hasQuorum_iid inst).trans (watching.named _ here)
  refine ⟨⟨fun e left => serves.positive e (mem_of_del left).1, Nat.mod_lt _ (by decide),
    fun _ => ?_, fun unwrapped => watching.deliverNext done unwrapped serves.bound⟩, ?_⟩
  · by_contra late
    have empty := (watching.fresh (by simpa using late)).1
    rw [empty] at here
    cases here
  · rw [name]
    exact List.length_filter_lt_length_iff_exists.mpr ⟨_, here, by simp⟩

/-- The loop delivers until the next instance is not closed. -/
theorem Serves.deliverLoop (turns : Nat) (serves : Serves l) (enough : l.instances.length < turns) :
    Serves (Learner.deliverLoop turns l).1 ∧
      (Learner.deliverLoop turns l).1.deliverNext = none := by
  induction turns generalizing l with
  | zero => omega
  | succ turns ih =>
    unfold Learner.deliverLoop
    split
    next none => exact ⟨serves, none⟩
    next l' out done =>
      obtain ⟨next, shorter⟩ := serves.deliverNext done
      exact ih next (by omega)

theorem Serves.receiveAccepted (serves : Serves l) (positive : 0 < m.iid) (small : m.iid < 2 ^ 32) :
    Serves (l.receiveAccepted m a) := by
  obtain ⟨begun, current⟩ := receiveAccepted_begun l m a
  have kept : ∀ e ∈ (l.receiveAccepted m a).instances, e.1 ≠ 0 := by
    have same : (l.begin m).instances = l.instances := by
      unfold Learner.begin
      split <;> rfl
    unfold Learner.receiveAccepted
    dsimp only
    split
    · rw [same]
      exact serves.positive
    · intro e member
      rcases mem_of_set member with rfl | ⟨old, other⟩
      · exact positive.ne'
      · unfold Learner.getInstanceOrCreate at old
        split at old
        · exact serves.positive e (same ▸ old)
        · rcases List.mem_append.mp old with old | new
          · exact serves.positive e (same ▸ old)
          · exact absurd (congrArg Prod.fst (List.mem_singleton.mp new)) other
  refine ⟨kept, ?_, fun _ => begun, fun unwrapped => ?_⟩
  · rw [current]
    split
    · exact small
    · exact serves.bound
  · refine Watching.receiveAccepted (serves.watching fun wrapped => unwrapped ?_) positive
    rw [current, serves.begun wrapped, wrapped]
    rfl

/-- A learner that holds nothing back. -/
def Attentive (l : Learner) : Prop := Serves l ∧ l.deliverNext = none

theorem Attentive.handle {P : PaxosValue → Prop} {net : List Packet}
    {acceptors : Nat → Option Acceptor} {m : PaxosMessage} (coherent : Coherent n P net acceptors)
    (received : ⟨a, m⟩ ∈ net) (attentive : Attentive l) : Attentive (l.handle a m).1 := by
  cases m with
  | accepted m =>
    obtain ⟨-, -, proposed, positive⟩ := coherent.sent _ received
    exact (attentive.1.receiveAccepted positive (coherent.positive proposed).2).deliverLoop _
      (Nat.lt_succ_self _)
  | _ => exact attentive

theorem Attentive.new (n : Nat) (catchUp : Bool) : Attentive (.new n catchUp) := by
  refine ⟨⟨nofun, (by decide : 1 < 2 ^ 32), nofun, fun _ => ?_⟩, rfl⟩
  exact ⟨List.nodup_nil, nofun, nofun, nofun, .inl le_rfl, fun _ => ⟨rfl, rfl⟩⟩

variable {s start : System} {trace : List (System × System.Event)}

/-- In every careful run in which no learner is moved by hand, a learner that has not passed the
last instance number reports a hole exactly if it knows a closed instance that it has not
delivered. The hole begins with an instance that is not closed, and ends with the last closed
one. -/
theorem holes_exact (started : start.Started n) (run : start.Runs trace s)
    (careful : ∀ p ∈ trace, Careful p.1 p.2) (fixed : ∀ p ∈ trace, movesLearner p.2 = false)
    (k : Nat) (unwrapped : (s.learners k).currentIid ≠ 0) :
    ((s.learners k).hasHoles.isSome = true ↔ ∃ e ∈ (s.learners k).instances, Closed n e.2) ∧
      ∀ hole ∈ (s.learners k).hasHoles,
        hole.fromIid = (s.learners k).currentIid ∧
        (∀ inst ∈ (s.learners k).instances.get hole.fromIid, ¬ Closed n inst) ∧
        (∃ e ∈ (s.learners k).instances, e.1 = hole.toIid ∧ Closed n e.2) ∧
        ∀ e ∈ (s.learners k).instances, Closed n e.2 → hole.fromIid < e.1 ∧ e.1 ≤ hole.toIid := by
  have attentive : Attentive (s.learners k) ∧ (s.learners k).acceptors = n := by
    refine log_run started run careful fixed (fun l _ => Attentive l ∧ l.acceptors = n)
      (fun coherent informed received kept => ⟨kept.1.handle coherent received,
        (informed.handle coherent received).1.members⟩) ?_
    obtain ⟨catchUp, same⟩ := started.learners k
    rw [same]
    exact ⟨.new n catchUp, rfl⟩
  generalize s.learners k = l at *
  obtain ⟨⟨serves, served⟩, rfl⟩ := attentive
  have watching := serves.watching unwrapped
  -- a closed instance in the table is not the one that is waited for
  have later : ∀ e ∈ l.instances, Closed l.acceptors e.2 → l.currentIid < e.1 := by
    intro e member closed
    refine lt_of_le_of_ne (watching.ahead e member) fun same => ?_
    refine unclosed_of_served served (get_of_mem ?_ watching.distinct) closed
    rw [same]
    exact member
  have gap : ∀ hole ∈ l.hasHoles, hole = ⟨l.currentIid, l.highestIidClosed⟩ ∧
      l.currentIid < l.highestIidClosed := by
    intro hole known
    unfold Learner.hasHoles at known
    split at known
    next behind => exact ⟨(Option.some.inj known).symm, behind⟩
    next => cases known
  have last : l.currentIid < l.highestIidClosed →
      ∃ e ∈ l.instances, e.1 = l.highestIidClosed ∧ Closed l.acceptors e.2 := fun behind =>
    watching.top.resolve_left (by omega)
  refine ⟨⟨fun reported => ?_, fun ⟨e, member, closed⟩ => ?_⟩, fun hole known => ?_⟩
  · obtain ⟨hole, known⟩ := Option.isSome_iff_exists.mp reported
    obtain ⟨e, member, -, closed⟩ := last (gap hole known).2
    exact ⟨e, member, closed⟩
  · have behind := (later e member closed).trans_le (watching.below e member closed)
    rw [Learner.hasHoles, if_pos behind]
    rfl
  · obtain ⟨rfl, behind⟩ := gap hole known
    exact ⟨rfl, fun inst got => unclosed_of_served served got, last behind,
      fun e member closed => ⟨later e member closed, watching.below e member closed⟩⟩

/-- Learner 0 hears of the vote for instance 2 only. -/
def skipped : List System.Event :=
  let bucket := fun iid : Nat => iid
  let prepare := fun iid => Packet.mk 0 (.prepare ⟨iid, 10⟩)
  let promise := fun a iid => Packet.mk a (.promise ⟨iid, 10, 0, []⟩)
  let accepts := fun a => System.Event.acceptorReceives a ⟨0, .accept ⟨2, 10, [8]⟩⟩
  [.submit 0 0 [7], .acceptorReceives 0 (prepare 1), .acceptorReceives 1 (prepare 1),
    .proposerReceives 0 0 bucket (promise 0 1), .proposerReceives 0 0 bucket (promise 1 1),
    .submit 0 0 [8], .acceptorReceives 0 (prepare 2), .acceptorReceives 1 (prepare 2),
    .proposerReceives 0 0 bucket (promise 0 2), .proposerReceives 0 0 bucket (promise 1 2),
    accepts 0, accepts 1, .learnerReceives 0 ⟨0, .accepted ⟨2, 10, 10, [8]⟩⟩,
    .learnerReceives 0 ⟨1, .accepted ⟨2, 10, 10, [8]⟩⟩]

theorem holes_exact_skipped : ∃ trace s, threeAndTwo.Runs trace s ∧
    (s.learners 0).hasHoles = some ⟨1, 2⟩ ∧
      ∃ e ∈ (s.learners 0).instances, e.1 = 2 ∧ Closed 3 e.2 := by
  obtain ⟨trace, s, run, steps, final⟩ := @play_any threeAndTwo skipped
    (fun p => decide (Careful p.1 p.2) && !movesLearner p.2)
    (fun s => decide ((s.learners 0).hasHoles = some ⟨1, 2⟩ ∧ (s.learners 0).currentIid ≠ 0))
    (by decide +kernel)
  obtain ⟨hole, unwrapped⟩ := of_decide_eq_true final
  have passed : ∀ p ∈ trace, Careful p.1 p.2 ∧ movesLearner p.2 = false := fun p member => by
    simpa using steps p member
  have exact' := holes_exact threeAndTwo_started run (fun p member => (passed p member).1)
    (fun p member => (passed p member).2) 0 unwrapped
  exact ⟨trace, s, run, hole, (exact'.2 _ hole).2.2.1⟩

end CaceProofs.Guarantees.Paxos
