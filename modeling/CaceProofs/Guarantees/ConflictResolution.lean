import CaceProofs.Library.BeliefHistory
import CaceProofs.Guarantees.DefaultStrategy
import CaceProofs.Guarantees.PlainAgents

/-!
# Conflicting commands

Two agents that handle the same commands of other agents end with the same own age. The
own values agree for every order exactly where the newest commands agree or a sender of
one of them has a greater ID than both agents.
-/
namespace CaceProofs.Guarantees
open Source Library

section Reports

/-- The register of a variable is what the applied reports make of it. -/
structure Reduced (x : Name) (c : Cace) : Prop extends DefaultAt x c where
  register : registerAt c x = Register.after c.ownID (beliefsAbout x c)

theorem Reduced.effect {r : Readings} {x : Name} {c c' : Cace} (effect : Effect r (leaves x) c c')
    (before : Reduced x c) : Reduced x c' := by
  obtain ⟨step, default⟩ := effect_reportStep (leaves_leaves x) effect before.toDefaultAt
  have own : c'.ownID = c.ownID := congrArg Config.ownID effect.config
  refine ⟨default, ?_⟩
  rcases step with ⟨same, reports⟩ | ⟨u, -, -, received, reports⟩
  · rw [same, reports, own, before.register]
  · rw [received, reports, own, Register.after_append, before.register]

/-- Every run that leaves the variable to the reports. -/
theorem reduced_run {x : Name} {start c : Cace} {trace : List (Cace × Readings × Cace.Event)}
    (idle : start.Idle) (unknown : start.getVariable x = none) (run : start.Runs trace c)
    (leave : ∀ p ∈ trace, Admits (leaves x) p.1 p.2.2) :
    Reduced x c ∧ Guarantees.config c = Guarantees.config start := by
  refine run.carries
    (fun _ c => Reduced x c ∧ Guarantees.config c = Guarantees.config start)
    (fun _ c e c' _ (admits : Admits (leaves x) c e.2) next before => ?_) leave ?_
  · obtain ⟨before, same⟩ := before
    have path : Path e.1 (leaves x) c c' := exec_path before.queued admits next
    refine ⟨?_, (Path.config path).trans same⟩
    clear next
    induction path with
    | refl => exact before
    | tail _ effect ih => exact ih.effect effect
  · refine ⟨⟨⟨idle_queued idle, by simp [idle.history], by simp [unknown]⟩, ?_⟩, rfl⟩
    simp [registerAt, unknown, beliefsAbout, appliedReports, idle.history, Register.after]

end Reports

/-- What a command reports, as a belief of its sender. -/
def commanded (m : CaceCommand) : Belief Int Bytes :=
  ⟨m.senderID, m.lamportTime, m.value⟩

/-- The agent knew nothing of `x`, did not write it, and has applied exactly the commands
`M` to it. -/
structure Took (x : Name) (M : List CaceCommand) (start c : Cace) : Prop where
  idle : start.Idle
  loud : start.quiet = false
  unknown : start.getVariable x = none
  run : ∃ trace, start.Runs trace c ∧ ∀ p ∈ trace, Admits (leaves x) p.1 p.2.2
  all : ∀ m ∈ M, .applied (.command m) ∈ c.history
  only : ∀ m report, .applied m ∈ c.history → m.report? = some report →
    report.variableName = x → ∃ cc ∈ M, m = .command cc

/-- The applied beliefs are those of the commands. -/
theorem Took.beliefs {x : Name} {M : List CaceCommand} {start c : Cace} (took : Took x M start c)
    (about : ∀ m ∈ M, m.variableName = x) (b : Belief Int Bytes) :
    b ∈ beliefsAbout x c ↔ b ∈ M.map commanded := by
  constructor
  · intro member
    obtain ⟨report, applied, rfl⟩ := List.mem_map.mp member
    obtain ⟨inHistory, here⟩ := List.mem_filter.mp applied
    obtain ⟨o, observed, reports⟩ := List.mem_filterMap.mp inHistory
    cases o with
    | applied m =>
      obtain ⟨cc, inM, rfl⟩ := took.only m report observed reports (by simpa using here)
      obtain rfl := Option.some.inj reports
      exact List.mem_map.mpr ⟨cc, inM, rfl⟩
    | received | published | notified => cases reports
  · intro member
    obtain ⟨cc, inM, rfl⟩ := List.mem_map.mp member
    have applied : (⟨cc.variableName, cc.senderID, cc.value, cc.type, cc.lamportTime⟩ : Report) ∈
        appliedReports c.history :=
      List.mem_filterMap.mpr ⟨_, took.all cc inM, rfl⟩
    exact List.mem_map.mpr ⟨_, List.mem_filter.mpr ⟨applied, by simp [about cc inM]⟩, rfl⟩

/-- What two agents end with: the own value and its age. -/
def ownBelief (c : Cace) (x : Name) : Option (Bytes × Nat) :=
  (c.getVariable x).map fun cv => (cv.val, cv.lamportAge)

theorem ownBelief_register (c : Cace) (x : Name) :
    ownBelief c x = (registerAt c x).map fun r => (r.own.value, r.own.age) := by
  unfold ownBelief registerAt
  rw [Option.map_map]
  rfl

/-- Any two agents with these IDs that take the commands end alike. -/
def OrderIndependent (x : Name) (M : List CaceCommand) (id id' : Int) : Prop :=
  ∀ start start' c c', start.ownID = id → start'.ownID = id' →
    Took x M start c → Took x M start' c' → ownBelief c x = ownBelief c' x

/-- Handshake commands about the variable from other agents, told apart by sender and time stamp
and addressed to the agents `id` and `id'`. -/
structure Commands (x : Name) (M : List CaceCommand) (id id' : Int) : Prop where
  about : ∀ m ∈ M, m.variableName = x
  level : ∀ m ∈ M, m.level = AcceptStrategy.twoWayHandShake.code ∨
    m.level = AcceptStrategy.threeWayHandShake.code
  distinct : ∀ m ∈ M, ∀ n ∈ M, m.lamportTime = n.lamportTime → m.senderID = n.senderID → m = n
  foreign : ∀ m ∈ M, m.senderID ≠ id ∧ m.senderID ≠ id'
  addressed : ∀ m ∈ M, broadcastID ∈ m.receiverID ∨
    toShort id ∈ m.receiverID ∧ toShort id' ∈ m.receiverID

/-- The agent's register after the commands, in the order of its history. -/
theorem Took.after {x : Name} {M : List CaceCommand} {start c : Cace} (took : Took x M start c) :
    registerAt c x = Register.after start.ownID (beliefsAbout x c) := by
  obtain ⟨trace, run, leave⟩ := took.run
  obtain ⟨reduced, same⟩ := reduced_run took.idle took.unknown run leave
  rw [reduced.register, show c.ownID = start.ownID from congrArg Config.ownID same]

/-- Where the commands decide, the order does not matter. -/
theorem decisive_orderIndependent {x : Name} {M : List CaceCommand} {id id' : Int}
    (commands : Commands x M id id') (decisive : Register.Decisive id id' (M.map commanded)) :
    OrderIndependent x M id id' := by
  rintro start start' c c' rfl rfl took took'
  have beliefs := took.beliefs commands.about
  have beliefs' := took'.beliefs commands.about
  have same : ∀ b, b ∈ beliefsAbout x c ↔ b ∈ beliefsAbout x c' := fun b =>
    (beliefs b).trans (beliefs' b).symm
  rw [ownBelief_register, ownBelief_register, took.after, took'.after]
  by_cases empty : beliefsAbout x c = []
  · have empty' : beliefsAbout x c' = [] := by
      refine List.eq_nil_iff_forall_not_mem.mpr fun b member => ?_
      rw [← same, empty] at member
      cases member
    rw [empty, empty']
    rfl
  · have nonempty' : beliefsAbout x c' ≠ [] := by
      intro empty'
      refine empty (List.eq_nil_iff_forall_not_mem.mpr fun b member => ?_)
      rw [same, empty'] at member
      cases member
    obtain ⟨reg, reached, resolves⟩ := Register.after_resolves start.ownID _ empty
    obtain ⟨reg', reached', resolves'⟩ := Register.after_resolves start'.ownID _ nonempty'
    have unambiguous : Register.Unambiguous (beliefsAbout x c) := by
      intro a member b member' age sender
      obtain ⟨m, inM, rfl⟩ := List.mem_map.mp ((beliefs a).mp member)
      obtain ⟨n, inM', rfl⟩ := List.mem_map.mp ((beliefs b).mp member')
      rw [commands.distinct m inM n inM' age sender]
    have here : Register.Decisive start.ownID start'.ownID (beliefsAbout x c) := by
      have back : ∀ b, b ∈ M.map commanded ↔ b ∈ beliefsAbout x c := fun b => (beliefs b).symm
      rcases decisive with agree | ⟨b, newest, above⟩
      · exact .inl fun a b newest newest' =>
          agree a b (newest.of_same beliefs) (newest'.of_same beliefs)
      · exact .inr ⟨b, newest.of_same back, above⟩
    rw [reached, reached']
    simp only [Option.map_some, resolves.age_eq resolves' same,
      resolves.value_eq resolves' same unambiguous here]

section Converse

/-- A new agent with an arbitrary ID. -/
def loner (id : Int) : Cace :=
  { Cace.construct 0 false 10 with ownID := id, agentBlacklist := [id], spaceOwnID := id }

/-- The loner can be sent the commands in any order. -/
theorem commands_run {x : Name} {id : Int} (ms : List CaceCommand)
    (about : ∀ m ∈ ms, m.variableName = x)
    (level : ∀ m ∈ ms, m.level = AcceptStrategy.twoWayHandShake.code ∨
      m.level = AcceptStrategy.threeWayHandShake.code)
    (foreign : ∀ m ∈ ms, m.senderID ≠ id)
    (addressed : ∀ m ∈ ms, broadcastID ∈ m.receiverID ∨ toShort id ∈ m.receiverID) :
    ∃ c, Took x ms (loner id) c ∧ beliefsAbout x c = ms.map commanded := by
  induction ms using List.reverseRecOn with
  | nil =>
    exact ⟨loner id, ⟨⟨rfl, rfl, rfl, rfl, rfl, rfl⟩, rfl, rfl, ⟨[], .nil, by simp⟩, by simp,
      by simp [loner, Cace.construct]⟩, rfl⟩
  | append_singleton ms m ih =>
    obtain ⟨c, took, beliefs⟩ := ih (fun n member => about n (List.mem_append_left _ member))
      (fun n member => level n (List.mem_append_left _ member))
      (fun n member => foreign n (List.mem_append_left _ member))
      (fun n member => addressed n (List.mem_append_left _ member))
    have last : m ∈ ms ++ [m] := by simp
    obtain ⟨trace, run, leave⟩ := took.run
    obtain ⟨-, same⟩ := reduced_run took.idle took.unknown run leave
    have plain : Plain c := Plain.of_config ⟨rfl, rfl⟩ same
    have own : c.ownID = id := congrArg Config.ownID same
    have listed : c.agentBlacklist = [id] := congrArg Config.agentBlacklist same
    have reaches : Reaches (.command m) c m.receiverID := by
      refine ⟨by simpa [listed, Message.senderID] using foreign m last, ?_⟩
      simpa [Cace.addressed, own] using addressed m last
    have answered : AcceptStrategy.fireAndForget.code < m.level := by
      rcases level m last with two | three
      · rw [two]; decide
      · rw [three]; decide
    have next : c.Next (.zero, .handle (.command m)) (c.handle .zero (.command m)) := rfl
    obtain ⟨seen, history, notified⟩ := @handle_command_history .zero c m plain reaches answered
    have admitted : Admits (leaves x) c (.handle (.command m)) := by
      refine admits_leaves_handle (by simp) ?_
      rintro s ⟨⟩
      rcases level m last with two | three
      · rw [two]; rfl
      · rw [three]; rfl
    have applied : ∀ n, .applied n ∈ (c.handle .zero (.command m)).history ↔
        .applied n ∈ c.history ∨ n = .command m := by
      intro n
      have notSeen : .applied n ∉ seen := fun member => by cases notified _ member
      rw [history]
      simp [notSeen]
    refine ⟨_, ⟨took.idle, took.loud, took.unknown, ⟨_, run.step next, ?_⟩, ?_, ?_⟩, ?_⟩
    · intro p member
      rcases List.mem_append.mp member with old | new
      · exact leave p old
      · rw [List.mem_singleton.mp new]
        exact admitted
    · intro n member
      rcases List.mem_append.mp member with old | new
      · exact (applied _).mpr (.inl (took.all n old))
      · exact (applied _).mpr (.inr (by rw [List.mem_singleton.mp new]))
    · intro n report inHistory reports here
      rcases (applied n).mp inHistory with old | rfl
      · obtain ⟨cc, inMs, equal⟩ := took.only n report old reports here
        exact ⟨cc, List.mem_append_left _ inMs, equal⟩
      · exact ⟨m, last, rfl⟩
    · have reports : appliedReports (c.handle .zero (.command m)).history =
          appliedReports c.history ++
            [⟨m.variableName, m.senderID, m.value, m.type, m.lamportTime⟩] := by
        rw [history]
        simp only [appliedReports_append, appliedReports_notified notified,
          List.append_assoc]
        rfl
      unfold beliefsAbout at beliefs ⊢
      rw [reports, List.filter_append, List.map_append, beliefs, List.map_append]
      simp [about m last, reported, commanded]

/-- Agents that took one another's commands took the same. -/
theorem Took.of_same {x : Name} {M N : List CaceCommand} {start c : Cace} (took : Took x M start c)
    (same : ∀ m, m ∈ M ↔ m ∈ N) : Took x N start c where
  idle := took.idle
  loud := took.loud
  unknown := took.unknown
  run := took.run
  all m member := took.all m ((same m).mpr member)
  only m report applied reports here := by
    obtain ⟨cc, inM, equal⟩ := took.only m report applied reports here
    exact ⟨cc, (same cc).mp inM, equal⟩

/-- A list of the beliefs that the commands report, as a list of the commands. -/
theorem exists_commands {M : List CaceCommand} {l : List (Belief Int Bytes)}
    (reported : ∀ b ∈ l, b ∈ M.map commanded) :
    ∃ ms : List CaceCommand, ms.map commanded = l ∧ ∀ m ∈ ms, m ∈ M := by
  induction l with
  | nil => exact ⟨[], rfl, fun m member => nomatch member⟩
  | cons b l ih =>
    obtain ⟨m, inM, same⟩ := List.mem_map.mp (reported b List.mem_cons_self)
    obtain ⟨ms, rest, subset⟩ := ih fun b member => reported b (List.mem_cons_of_mem _ member)
    refine ⟨m :: ms, by rw [List.map_cons, same, rest], ?_⟩
    rintro n member
    rcases List.mem_cons.mp member with rfl | later
    · exact inM
    · exact subset n later

/-- An agent with a given ID that took the commands in a given order. -/
theorem exists_took {x : Name} {M : List CaceCommand} {id id' i : Int}
    (commands : Commands x M id id') (side : i = id ∨ i = id') {l : List (Belief Int Bytes)}
    (same : ∀ b, b ∈ l ↔ b ∈ M.map commanded) :
    ∃ c, Took x M (loner i) c ∧ registerAt c x = Register.after i l := by
  obtain ⟨ms, rfl, subset⟩ := exists_commands fun b member => (same b).mp member
  have elements : ∀ m, m ∈ ms ↔ m ∈ M := by
    refine fun m => ⟨subset m, fun inM => ?_⟩
    obtain ⟨n, inMs, equal⟩ :=
      List.mem_map.mp ((same (commanded m)).mpr (List.mem_map_of_mem inM))
    have age : n.lamportTime = m.lamportTime := congrArg Belief.age equal
    have sender : n.senderID = m.senderID := congrArg Belief.id equal
    rwa [← commands.distinct n (subset n inMs) m inM age sender]
  obtain ⟨c, took, beliefs⟩ := @commands_run x i ms
    (fun m member => commands.about m (subset m member))
    (fun m member => commands.level m (subset m member))
    (fun m member => by
      rcases side with rfl | rfl
      · exact (commands.foreign m (subset m member)).1
      · exact (commands.foreign m (subset m member)).2)
    (fun m member => (commands.addressed m (subset m member)).imp_right fun both => by
      rcases side with rfl | rfl
      · exact both.1
      · exact both.2)
  refine ⟨c, took.of_same elements, ?_⟩
  rw [took.after, beliefs]
  rfl

end Converse

/-- The commands are resolved independently of the order exactly where they decide: the
newest ones agree, or one of their senders has a greater ID than both agents. -/
theorem conflict_resolution {x : Name} {M : List CaceCommand} {id id' : Int}
    (commands : Commands x M id id') :
    OrderIndependent x M id id' ↔ Register.Decisive id id' (M.map commanded) := by
  refine ⟨fun independent => ?_, decisive_orderIndependent commands⟩
  by_contra indecisive
  have nonempty : M.map commanded ≠ [] := by
    intro empty
    refine indecisive (.inl fun a b newest => ?_)
    have member := newest.1
    rw [empty] at member
    cases member
  have foreign : ∀ b ∈ M.map commanded, b.id ≠ id ∧ b.id ≠ id' := by
    intro b member
    obtain ⟨m, inM, rfl⟩ := List.mem_map.mp member
    exact commands.foreign m inM
  obtain ⟨l₁, l₂, r₁, r₂, same₁, same₂, reached₁, reached₂, differ⟩ :=
    Register.exists_disagreement nonempty foreign indecisive
  obtain ⟨c₁, took₁, register₁⟩ := exists_took commands (.inl rfl) same₁
  obtain ⟨c₂, took₂, register₂⟩ := exists_took commands (.inr rfl) same₂
  have agree := independent _ _ c₁ c₂ rfl rfl took₁ took₂
  rw [ownBelief_register, ownBelief_register, register₁, register₂, reached₁, reached₂] at agree
  exact differ (congrArg Prod.fst (Option.some.inj agree))

/-- Two commands with the same time stamp, from the given senders. -/
def tiedCommands (senderID senderID' : Int) : List CaceCommand :=
  [⟨senderID, [0], ['x'], [7], 0, 0, 70, 1, 5, 0⟩, ⟨senderID', [0], ['x'], [8], 0, 0, 70, 1, 5, 0⟩]

theorem tiedCommands_commands {senderID senderID' id id' : Int} (differ : senderID ≠ senderID')
    (foreign : ∀ i ∈ [senderID, senderID'], i ≠ id ∧ i ≠ id') :
    Commands ['x'] (tiedCommands senderID senderID') id id' := by
  have cases : ∀ m ∈ tiedCommands senderID senderID',
      m = ⟨senderID, [0], ['x'], [7], 0, 0, 70, 1, 5, 0⟩ ∨
        m = ⟨senderID', [0], ['x'], [8], 0, 0, 70, 1, 5, 0⟩ := by
    simp [tiedCommands]
  refine ⟨fun m member => ?_, fun m member => ?_, fun m member n member' _ same => ?_,
    fun m member => ?_, fun m member => ?_⟩
  · rcases cases m member with rfl | rfl <;> rfl
  · rcases cases m member with rfl | rfl <;> exact .inr rfl
  · rcases cases m member with rfl | rfl <;> rcases cases n member' with rfl | rfl
    · rfl
    · exact absurd same differ
    · exact absurd same.symm differ
    · rfl
  · rcases cases m member with rfl | rfl
    · exact foreign senderID (by simp)
    · exact foreign senderID' (by simp)
  · rcases cases m member with rfl | rfl <;> exact .inl (List.mem_singleton_self 0)

/-- The newest commands of two senders, one of them with a greater ID than both agents. -/
theorem conflict_resolution_above : OrderIndependent ['x'] (tiedCommands 1 9) 3 4 := by
  refine (conflict_resolution (tiedCommands_commands (by decide) (by decide))).mpr
    (.inr ⟨⟨9, 5, [8]⟩, ⟨by decide, ?_⟩, by decide, by decide⟩)
  decide

/-- Agents 3 and 4 get the tied commands of agents 1 and 2 in different orders: each keeps
the value that came first. -/
theorem conflict_resolution_tied : Commands ['x'] (tiedCommands 1 2) 3 4 ∧
    ¬ OrderIndependent ['x'] (tiedCommands 1 2) 3 4 := by
  have commands := @tiedCommands_commands 1 2 3 4 (by decide) (by decide)
  refine ⟨commands, fun independent => ?_⟩
  obtain ⟨c, took, register⟩ := exists_took commands (.inl rfl) fun _ => Iff.rfl
  obtain ⟨c', took', register'⟩ :=
    @exists_took _ _ _ _ 4 commands (.inr rfl) [⟨2, 5, [8]⟩, ⟨1, 5, [7]⟩] (by
      intro b
      simp [tiedCommands, commanded, or_comm])
  have agree := independent _ _ c c' rfl rfl took took'
  rw [ownBelief_register, ownBelief_register, register, register'] at agree
  revert agree
  decide

end CaceProofs.Guarantees
