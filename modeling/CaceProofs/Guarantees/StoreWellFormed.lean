import Mathlib.Data.List.Nodup
import CaceProofs.Guarantees.Acceptance
import CaceProofs.Guarantees.EventEffects

/-!
# The variable store stays well formed

In every run of one agent each variable is stored under its own name and belongs to
the agent, and its proposals come from pairwise different other agents.
-/
namespace CaceProofs.Guarantees
open Source Library

/-- A variable that an agent may store under a name. -/
structure OwnVariable (ownID : Int) (name : Name) (cv : ConsensusVariable) : Prop where
  keyed : cv.name = name
  own : cv.robotID = ownID
  named : ∀ p ∈ cv.proposals, p.name = name
  distinct : (cv.proposals.map Believe.robotID).Nodup
  foreign : ownID ∉ cv.proposals.map Believe.robotID

/-- Accepting proposals keeps a variable in order. -/
theorem OwnVariable.acceptProposals {ownID : Int} {name : Name} {cv : ConsensusVariable}
    (before : OwnVariable ownID name cv) (value : Option Bytes) :
    OwnVariable ownID name (cv.acceptProposals value) := by
  obtain ⟨own, names⟩ := acceptProposals_spec cv value
  refine ⟨?_, own.trans before.own, before.named, before.distinct, before.foreign⟩
  rcases names with ⟨same, -⟩ | ⟨winner, member, taken, -⟩
  · exact same.trans before.keyed
  · exact taken.trans (before.named winner member)

/-- Recording the message of another agent keeps a variable in order. -/
theorem OwnVariable.recordProposal {ownID : Int} {name : Name} {cv recorded : ConsensusVariable}
    {u : ProposalUpdate} (before : OwnVariable ownID name cv) (here : u.variableName = name)
    (other : u.senderID ≠ ownID)
    (success : cv.recordProposal u.senderID u.lamportTime u.overwrite (u.fresh cv.toBelieve) =
      some recorded) : OwnVariable ownID name recorded := by
  have same := recordProposal_own success
  refine ⟨?_, ?_, ?_, ?_, ?_⟩
  · rw [same]; exact before.keyed
  · rw [same]; exact before.own
  · intro p member
    rcases mem_recordProposal success member with old | rfl | ⟨old, oldMember, -, rfl⟩
    · exact before.named p old
    · exact (u.named.2.1 _).trans here
    · exact (u.named.1 old).trans (before.named old oldMember)
  all_goals
    rcases recordProposal_senders (fun var => (u.overwrite_records var).1)
      (u.fresh_records _).1 success with senders | ⟨absent, senders⟩
    all_goals rw [senders]
  · exact before.distinct
  · exact List.Nodup.append before.distinct (List.nodup_singleton _) (by simpa using absent)
  · exact before.foreign
  · simpa using ⟨by simpa using before.foreign, Ne.symm other⟩

/-- An update for a message of another agent keeps the variable in order. -/
theorem OwnVariable.updated {name : Name} {u : ProposalUpdate} {old : Option ConsensusVariable}
    (here : u.variableName = name) (other : u.senderID ≠ u.ownID)
    (before : ∀ cv, old = some cv → OwnVariable u.ownID name cv) :
    OwnVariable u.ownID name (updated u old) := by
  cases old with
  | none =>
    refine OwnVariable.acceptProposals ⟨?_, u.own_fresh.1, ?_, ?_, ?_⟩ _
    · exact u.named.2.2.1.trans here
    · intro p member
      obtain rfl := List.mem_singleton.mp member
      exact u.named.2.2.2.trans here
    · exact List.nodup_singleton _
    · simp [u.co_records.1, Ne.symm other]
  | some cv =>
    have ok := before cv rfl
    unfold Guarantees.updated
    dsimp only
    split
    next recorded found => exact (ok.recordProposal here other found).acceptProposals none
    next => exact ok

/-- Every stored variable is the agent's own, and the active robots are distinct others. -/
structure StoreWellFormed (c : Cace) : Prop where
  stored : ∀ name cv, c.getVariable name = some cv → OwnVariable c.ownID name cv
  activeDistinct : c.activeRobots.Nodup
  activeForeign : c.ownID ∉ c.activeRobots

/-- The invariant: with it, received messages come from other agents. -/
structure StoreInvariant (c : Cace) : Prop extends StoreWellFormed c where
  unlisted : ∀ m, .received m ∈ c.history → m.senderID ∉ c.agentBlacklist
  ownListed : c.ownID ∈ c.agentBlacklist
  spaceOwnID : c.spaceOwnID = c.ownID
  queued : c.Queued

/-- What the application may pass to `addVariable` and `distributeVariable`: a variable
with the own ID and without proposals. -/
def Passable (ownID : Int) (cv : ConsensusVariable) : Prop :=
  cv.robotID = ownID ∧ cv.proposals = []

theorem StoreInvariant.effect {r : Readings} {ownID : Int} {c c' : Cace}
    (same : c.ownID = ownID) (effect : Effect r { passes := Passable ownID } c c')
    (before : StoreInvariant c) : StoreInvariant c' := by
  have config := effect.config
  have own : c'.ownID = c.ownID := congrArg Config.ownID config
  have listed : c'.agentBlacklist = c.agentBlacklist := congrArg Config.agentBlacklist config
  have space : c'.spaceOwnID = c.spaceOwnID := congrArg Config.spaceOwnID config
  have owned : ∀ name cv, c'.getVariable name = some cv → OwnVariable c.ownID name cv := by
    intro name cv found
    rcases effect_variable effect found with ⟨old, stored, equal⟩ | ⟨u, here, mine, received, rfl⟩
      | ⟨cmd, rfl, -, rfl⟩ | ⟨value, type, strategy, -, rfl⟩ | ⟨var, given, rfl, equal⟩
    · have ok := before.stored name old stored
      rcases equal with rfl | rfl
      · exact ok
      · exact ⟨ok.keyed, ok.own, ok.named, ok.distinct, ok.foreign⟩
    · have other : u.senderID ≠ u.ownID := by
        intro equal
        refine before.unlisted _ received ?_
        rw [(Message.report?_stamp u.message_report).1, equal, mine]
        exact before.ownListed
      rw [← mine]
      exact OwnVariable.updated here other fun cv stored => mine ▸ before.stored name cv stored
    · cases stored : c.getVariable cmd.variableName with
      | none => exact ⟨rfl, rfl, by simp [written], by simp [written], by simp [written]⟩
      | some cv =>
        have ok := before.stored _ cv stored
        exact ⟨ok.keyed, rfl, ok.named, ok.distinct, ok.foreign⟩
    · cases stored : c.getVariable name with
      | none =>
        exact ⟨rfl, before.spaceOwnID, by simp [decided], by simp [decided], by simp [decided]⟩
      | some cv =>
        have ok := before.stored _ cv stored
        exact ⟨ok.keyed, ok.own, ok.named, ok.distinct, ok.foreign⟩
    · rcases equal with rfl | ⟨old, stored, rfl⟩
      · exact ⟨rfl, given.1.trans same.symm, by simp [given.2], by simp [given.2],
          by simp [given.2]⟩
      · have ok := before.stored _ old stored
        exact ⟨rfl, ok.own, ok.named, ok.distinct, ok.foreign⟩
  have active : c'.activeRobots.Nodup ∧ c.ownID ∉ c'.activeRobots := by
    cases effect with
    | @engage id other fresh =>
      refine ⟨List.Nodup.append before.activeDistinct (List.nodup_singleton _)
        (by simpa using fresh), ?_⟩
      simpa using ⟨before.activeForeign, Ne.symm other⟩
    | receive =>
      unfold Cace.receive
      split <;> exact ⟨before.activeDistinct, before.activeForeign⟩
    | apply => rw [updateVariable_frame]; exact ⟨before.activeDistinct, before.activeForeign⟩
    | write => rw [writeUpdate_frame]; exact ⟨before.activeDistinct, before.activeForeign⟩
    | decide => rw [decideValue_frame]; exact ⟨before.activeDistinct, before.activeForeign⟩
    | insert => rw [insertVariable_frame]; exact ⟨before.activeDistinct, before.activeForeign⟩
    | tick | send | acknowledge | resend | overwrite | invalidate | queue =>
      exact ⟨before.activeDistinct, before.activeForeign⟩
  refine ⟨⟨own ▸ owned, active.1, own ▸ active.2⟩, ?_, ?_, ?_, effect.queued before.queued⟩
  · intro m received
    rw [listed]
    rcases effect.received received with old | ⟨fresh, -, -⟩
    · exact before.unlisted m old
    · exact fresh
  · rw [own, listed]; exact before.ownListed
  · rw [own, space]; exact before.spaceOwnID

/-- A fresh agent stores nothing. -/
theorem fresh_storeInvariant {c : Cace} (fresh : c.Fresh) : StoreInvariant c where
  stored name cv found := by simp [Cace.getVariable, fresh.store] at found
  activeDistinct := by simp [fresh.activeRobots]
  activeForeign := by simp [fresh.activeRobots]
  unlisted m received := by simp [fresh.history] at received
  ownListed := fresh.ownListed
  spaceOwnID := fresh.spaceOwnID
  queued := idle_queued fresh.toIdle

/-- What the application passes in carries the own ID and no proposals, and a stored pointer
that it passes points into the store. -/
def OwnVariables (c : Cace) (e : Readings × Cace.Event) : Prop :=
  match e.2 with
  | .distributeVariable (.stored name) => (c.getVariable name).isSome
  | .distributeVariable (.detached cv) => Passable c.ownID cv
  | .addVariable cv _ => Passable c.ownID cv
  | _ => True

theorem storeInvariant_step (c : Cace) (e : Readings × Cace.Event) (c' : Cace)
    (own : OwnVariables c e) (next : c.Next e c') (before : StoreInvariant c) :
    StoreInvariant c' := by
  obtain ⟨r, e⟩ := e
  have admitted : Admits { passes := Passable c.ownID } c e := by
    refine admits_any ?_ ?_ (fun _ => trivial) (fun _ => trivial) (fun _ => trivial)
      (fun _ _ _ => trivial) (fun _ _ => trivial) trivial
    · rintro variablePtr rfl
      cases variablePtr with
      | stored name =>
        obtain ⟨cv, stored⟩ := Option.isSome_iff_exists.mp own
        exact .inr ⟨name, cv, rfl, stored, (before.stored name cv stored).keyed⟩
      | detached cv => exact .inl own
    · rintro var distribute rfl
      exact own
  have path : Path r { passes := Passable c.ownID } c c' :=
    exec_path before.queued admitted next
  clear next
  induction path with
  | refl => exact before
  | tail earlier effect ih =>
    exact ih.effect (congrArg Config.ownID (Path.config earlier)) effect

/-- Store well-formedness in every run of a fresh agent. -/
theorem store_wellFormed {start c : Cace} {trace : List (Cace × Readings × Cace.Event)}
    (fresh : start.Fresh) (run : start.Runs trace c)
    (own : ∀ p ∈ trace, OwnVariables p.1 p.2) : StoreWellFormed c := by
  have invariant : StoreInvariant c :=
    run.preserves storeInvariant_step own (fresh_storeInvariant fresh)
  exact invariant.toStoreWellFormed

/-- A variable that agent 1 passes to its own space. -/
def ownVariable : ConsensusVariable where
  toBelieve := (Believe.construct ['y'] .threeWayHandShake 0 1 0 0 0).setValue [3]
  proposals := []

/-- An agent that meets another one, distributes a value, gets two reports about it, passes and
distributes a variable of its own and makes a step. -/
def meeting : List (Readings × Cace.Event) :=
  [(.zero, .agentEngangement 2 true),
    (.zero, .distributeValue ['x'] [7] 0 .threeWayHandShake),
    (.zero, .handle (.command ⟨2, [0], ['x'], [8], 0, 0, 70, 206, 4, 0⟩)),
    (.zero, .handle (.acknowledge ⟨3, [0], ['x'], [7], 101, 2, 0⟩)),
    (.zero, .addVariable ownVariable true),
    (.zero, .distributeVariable (.stored ['y'])),
    (.zero, .step)]

theorem store_wellFormed_meeting : ∃ trace c,
    (Cace.construct 1 false 10).play meeting = some (trace, c) ∧ StoreWellFormed c ∧
      c.activeRobots = [2] ∧
      (c.getVariable ['x']).map (fun cv => cv.proposals.map Believe.robotID) = some [2, 3] ∧
      (c.getVariable ['y']).map ConsensusVariable.proposals = some [] := by
  have played : (Cace.construct 1 false 10).play meeting = some _ := rfl
  obtain ⟨run, -⟩ := Cace.play_runs played
  refine ⟨_, _, played, store_wellFormed (Cace.construct_fresh 1 false 10) run ?_, rfl, rfl, rfl⟩
  refine List.forall_mem_cons.mpr ⟨trivial, List.forall_mem_cons.mpr ⟨trivial,
    List.forall_mem_cons.mpr ⟨trivial, List.forall_mem_cons.mpr ⟨trivial,
      List.forall_mem_cons.mpr ⟨⟨rfl, rfl⟩, List.forall_mem_cons.mpr ⟨?_,
        List.forall_mem_cons.mpr ⟨trivial, by simp⟩⟩⟩⟩⟩⟩⟩
  rfl

end CaceProofs.Guarantees
