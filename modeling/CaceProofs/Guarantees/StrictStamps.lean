import CaceProofs.Guarantees.LocalRuns
import CaceProofs.Guarantees.PlainAgents
import CaceProofs.Guarantees.ClockDominance

/-!
# The time stamps of new messages

A new message is stamped later than everything its sender handled or sent before,
except for the acknowledge of a command: it carries the clock without an increment.
-/
namespace CaceProofs.Guarantees
open Source Library

/-- The time stamp of a handled message, or of one sent for the first time. -/
def stamp? : Observation → Option Nat
  | .received m => m.lamportTime
  | .published m .first => m.lamportTime
  | .published _ .again | .applied _ | .notified _ => none

/-- The time stamp of a message sent for the first time. -/
def freshStamp? : Observation → Option Nat
  | .published m .first => m.lamportTime
  | .received _ | .published _ .again | .applied _ | .notified _ => none

theorem stamp_of_fresh {o : Observation} {t : Nat} (fresh : freshStamp? o = some t) :
    stamp? o = some t := by
  cases o with
  | published m transmission =>
    cases transmission with
    | first => exact fresh
    | again => cases fresh
  | received | applied | notified => cases fresh

/-- All time stamps seen so far are before `t`. -/
def StampsBefore (t : Nat) (history : List Observation) : Prop :=
  ∀ o ∈ history, ∀ s, stamp? o = some s → s < t

/-- Every new message is stamped later than all that was handled or sent before it. -/
def StrictStamps (history : List Observation) : Prop :=
  history.Pairwise fun o o' => ∀ t t', stamp? o = some t → freshStamp? o' = some t' → t < t'

/-- Strict time stamps, none of them after the clock. -/
structure Stamped (c : Cace) : Prop where
  strict : StrictStamps c.history
  bounded : StampsBefore (c.lamportTime.time + 1) c.history

section Effects

variable {r : Readings} {c c' : Cace}

/-- One more observation. -/
theorem Stamped.observe {o : Observation} (before : Stamped c)
    (later : c.lamportTime.time ≤ c'.lamportTime.time) (history : c'.history = c.history ++ [o])
    (bounded : ∀ t, stamp? o = some t → t ≤ c'.lamportTime.time)
    (fresh : ∀ t, freshStamp? o = some t → StampsBefore t c.history) : Stamped c' := by
  refine ⟨?_, ?_⟩
  · unfold StrictStamps
    rw [history]
    refine List.pairwise_append.mpr ⟨before.strict, List.pairwise_singleton _ _, ?_⟩
    intro a inHistory b last t t' stamped new
    rw [List.mem_singleton.mp last] at new
    exact fresh t' new a inHistory t stamped
  · intro a member t stamped
    rw [history] at member
    rcases List.mem_append.mp member with old | last
    · have bound := before.bounded a old t stamped
      omega
    · rw [List.mem_singleton.mp last] at stamped
      exact Nat.lt_succ_of_le (bounded t stamped)

/-- More observations without a time stamp. -/
theorem Stamped.unstamped {seen : List Observation} (before : Stamped c)
    (later : c.lamportTime.time ≤ c'.lamportTime.time) (history : c'.history = c.history ++ seen)
    (unstamped : ∀ o ∈ seen, stamp? o = none) : Stamped c' := by
  refine ⟨?_, ?_⟩
  · unfold StrictStamps
    rw [history]
    have none : ∀ o ∈ seen, ∀ t, freshStamp? o ≠ some t := by
      intro o member t fresh
      have stamped := stamp_of_fresh fresh
      rw [unstamped o member] at stamped
      cases stamped
    refine List.pairwise_append.mpr ⟨before.strict, ?_, ?_⟩
    · exact List.pairwise_of_forall_mem_list fun a _ b member t t' _ fresh =>
        absurd fresh (none b member t')
    · exact fun a _ b member t t' _ fresh => absurd fresh (none b member t')
  · intro a member t stamped
    rw [history] at member
    rcases List.mem_append.mp member with old | new
    · have bound := before.bounded a old t stamped
      omega
    · rw [unstamped a new] at stamped
      cases stamped

/-- Acknowledges of commands are sent where the clock is already ahead. -/
def ahead : Licence where
  acks c := StampsBefore c.lamportTime.time c.history

theorem Stamped.effect (effect : Effect r ahead c c') (unwrapped : c'.lamportTime.wraps = 0)
    (before : Stamped c) : Stamped c' := by
  have later : c.lamportTime.time ≤ c'.lamportTime.time := (effect.clock unwrapped).2
  have silent : c'.history = c.history → Stamped c' := fun same =>
    @Stamped.unstamped c c' [] before later (by simp [same]) (by simp)
  cases effect with
  | @receive m unlisted heard =>
    refine before.observe later (receive_history c m) ?_ (fun t fresh => nomatch fresh)
    intro t stamped
    have time : m.lamportTime = some t := stamped
    unfold Cace.receive at unwrapped ⊢
    simp only [time] at unwrapped ⊢
    exact LamportClock.le_witness_time unwrapped
  | @send m stamped =>
    have ticked : c.lamportTime.tick.time = c.lamportTime.time + 1 :=
      LamportClock.tick_time unwrapped
    refine before.observe later rfl ?_ ?_
    · intro t here
      exact Nat.le_of_eq (stamped t here)
    · intro t here
      rw [stamped t here, ticked]
      exact before.bounded
  | @acknowledge m allowed stamped =>
    refine before.observe later rfl ?_ ?_
    · intro t here
      exact Nat.le_of_eq (Option.some.inj (here.symm.trans stamped))
    · intro t here
      rw [show t = c.lamportTime.time from Option.some.inj (here.symm.trans stamped)]
      exact allowed
  | @resend m => exact before.observe later rfl (fun t here => nomatch here) fun t here =>
      nomatch here
  | apply u =>
    obtain ⟨seen, equal, notified⟩ := updateVariable_history c u
    refine before.unstamped later equal fun o member => ?_
    rcases List.mem_cons.mp member with rfl | rest
    · rfl
    · rw [notified o rest]
      rfl
  | write cmd =>
    obtain ⟨seen, equal, notified⟩ := writeUpdate_history r c cmd
    refine before.unstamped later equal fun o member => ?_
    rcases List.mem_cons.mp member with rfl | rest
    · rfl
    · rw [notified o rest]
      rfl
  | decide => exact silent (by rw [decideValue_frame])
  | insert => exact silent (by rw [insertVariable_frame])
  | tick | overwrite | engage | invalidate | queue => exact silent rfl

theorem Stamped.path (path : Path r ahead c c') (unwrapped : c'.lamportTime.wraps = 0)
    (before : Stamped c) : Stamped c' := by
  induction path with
  | refl => exact before
  | tail _ effect ih => exact (ih (effect.clock unwrapped).1).effect effect unwrapped

end Effects

/-- The condition on an agent's event: a command that it acknowledges is ahead of its
clock, or the clock is ahead of the command and of every time stamp before. -/
def StampAdvances (c : Cace) : Cace.Event → Prop
  | .handle (.command m) => Reaches (.command m) c m.receiverID →
      AcceptStrategy.fireAndForget.code < m.level →
      c.lamportTime.time < m.lamportTime ∨
        m.lamportTime < c.lamportTime.time ∧ StampsBefore c.lamportTime.time c.history
  | _ => True

section Agent

variable {r : Readings} {c c' : Cace}

/-- The clock is ahead of all time stamps when an admitted command is acknowledged. -/
theorem acks_ahead {m : CaceCommand} (before : Stamped c)
    (unwrapped : (c.receive (.command m)).lamportTime.wraps = 0)
    (advances : c.lamportTime.time < m.lamportTime ∨
      m.lamportTime < c.lamportTime.time ∧ StampsBefore c.lamportTime.time c.history) :
    StampsBefore (tookCommand r c m).lamportTime.time (tookCommand r c m).history := by
  have clock : (tookCommand r c m).lamportTime = c.lamportTime.witness m.lamportTime := by
    rw [tookCommand_frame]
    rfl
  have read : (tookCommand r c m).lamportTime.time =
      if c.lamportTime.time < m.lamportTime then m.lamportTime + 1 else c.lamportTime.time := by
    rw [clock]
    exact LamportClock.witness_time unwrapped
  have here : StampsBefore (tookCommand r c m).lamportTime.time
      (c.receive (.command m)).history := by
    intro o member t stamped
    rw [receive_history] at member
    rw [read]
    rcases List.mem_append.mp member with old | new
    · have bound := before.bounded o old t stamped
      rcases advances with behind | ⟨ahead, strict⟩
      · rw [if_pos behind]
        omega
      · rw [if_neg (by omega)]
        exact strict o old t stamped
    · rw [List.mem_singleton.mp new] at stamped
      obtain rfl : m.lamportTime = t := Option.some.inj stamped
      rcases advances with behind | ⟨ahead, -⟩
      · rw [if_pos behind]
        omega
      · rw [if_neg (by omega)]
        exact ahead
  obtain ⟨seen, equal, notified⟩ := updateVariable_history (c.receive (.command m))
    (commandUpdate r (c.receive (.command m)).ownID m)
  intro o member t stamped
  have inHistory : o ∈ (c.receive (.command m)).history ++ .applied _ :: seen := equal ▸ member
  rcases List.mem_append.mp inHistory with old | new
  · exact here o old t stamped
  · rcases List.mem_cons.mp new with rfl | rest
    · cases stamped
    · rw [notified o rest] at stamped
      cases stamped

/-- An event that meets the condition. -/
theorem stamped_step {e : Readings × Cace.Event} (plain : Plain c) (queued : c.Queued)
    (next : c.Next e c') (advances : StampAdvances c e.2) (unwrapped : c'.lamportTime.wraps = 0)
    (before : Stamped c) : Stamped c' := by
  obtain ⟨r, e⟩ := e
  have other : (∀ m, e ≠ .handle (.command m)) → Path r ahead c c' := fun noCommand =>
    exec_path queued (admits_any (fun _ _ => .inl trivial) (fun _ _ _ => trivial)
      (fun _ => trivial) (fun _ => trivial) (fun _ => trivial)
      (fun m here => absurd here (noCommand m)) (fun _ _ => trivial) trivial) next
  by_cases command : ∃ m, e = .handle (.command m)
  · obtain ⟨m, rfl⟩ := command
    have stamped : c.stampedCommand m = m := by simp [Cace.stampedCommand, plain.loud]
    obtain rfl : c.handle r (.command m) = c' := Except.ok.inj next
    have handled : c.handle r (.command m) = c.handleCaceCommand r m :=
      congrArg (c.handleCaceCommand r) stamped
    have path : Path r ahead c (c.handleCaceCommand r m) := by
      refine handleCaceCommand_path queued trivial (fun _ => trivial)
        fun _ _ reaches answered => ?_
      have clock : (c.handle r (.command m)).lamportTime =
          (c.receive (.command m)).lamportTime := by
        rw [handle_command plain reaches answered]
        change (tookCommand r c m).lamportTime = _
        rw [tookCommand_frame]
      exact acks_ahead before (clock ▸ unwrapped) (advances reaches answered)
    rw [handled] at unwrapped ⊢
    exact before.path path unwrapped
  · exact before.path (other fun m here => command ⟨m, here⟩) unwrapped

/-- Where the time stamps are strict after an event, it has met the condition. -/
theorem stampAdvances_of_strict {e : Readings × Cace.Event} (plain : Plain c)
    (next : c.Next e c') (unwrapped : c'.lamportTime.wraps = 0) (strict : StrictStamps c'.history) :
    StampAdvances c e.2 := by
  obtain ⟨r, e⟩ := e
  unfold StampAdvances
  dsimp only
  split
  next m =>
    intro reaches answered
    obtain rfl : c.handle r (.command m) = c' := Except.ok.inj next
    obtain ⟨seen, history, -⟩ := @handle_command_history r c m plain reaches answered
    have clock : (c.handle r (.command m)).lamportTime = c.lamportTime.witness m.lamportTime := by
      rw [handle_command plain reaches answered]
      change (tookCommand r c m).lamportTime = _
      rw [tookCommand_frame]
      rfl
    have answer : (tookCommand r c m).lamportTime = c.lamportTime.witness m.lamportTime := by
      rw [tookCommand_frame]
      rfl
    have read := LamportClock.witness_time (clock ▸ unwrapped)
    unfold StrictStamps at strict
    rw [history, List.pairwise_append] at strict
    have last := fun o member t stamped =>
      strict.2.2 o member _ (List.mem_singleton_self _) t _ stamped rfl
    have stamp : (commandAnswer (tookCommand r c m) m).lamportTime =
        (c.lamportTime.witness m.lamportTime).time := congrArg LamportClock.time answer
    by_cases behind : c.lamportTime.time < m.lamportTime
    · exact .inl behind
    · rw [if_neg behind] at read
      rw [stamp, read] at last
      exact .inr ⟨last (.received (.command m)) (by simp) _ rfl,
        fun o inHistory t stamped => last o (by simp [inHistory]) t stamped⟩
  next => trivial

/-- The time stamps of an agent are strict in a run exactly if its events meet the
condition. -/
theorem agent_strictStamps {start : Cace} {trace : List (Cace × Readings × Cace.Event)}
    (idle : start.Idle) (plain : Plain start) (run : start.Runs trace c)
    (unwrapped : c.lamportTime.wraps = 0) :
    StrictStamps c.history ↔ ∀ p ∈ trace, StampAdvances p.1 p.2.2 := by
  have both : Plain c ∧ c.Queued ∧ (c.lamportTime.wraps = 0 →
      ((∀ p ∈ trace, StampAdvances p.1 p.2.2) → Stamped c) ∧
        (StrictStamps c.history → ∀ p ∈ trace, StampAdvances p.1 p.2.2)) := by
    clear unwrapped
    induction run with
    | nil =>
      have empty : Stamped start := by
        refine ⟨?_, ?_⟩
        · unfold StrictStamps
          rw [idle.history]
          exact .nil
        · unfold StampsBefore
          rw [idle.history]
          exact fun o member => nomatch member
      exact ⟨plain, idle_queued idle, fun _ => ⟨fun _ => empty, fun _ p member => nomatch member⟩⟩
    | @step trace c c' e run next ih =>
      obtain ⟨plain, queued, before⟩ := ih
      have path : Path e.1 {} c c' :=
        exec_path_any queued next
      refine ⟨plain.of_config path.config, path.queued queued, fun unwrapped => ?_⟩
      obtain ⟨enough, needed⟩ := before (path.clock unwrapped).1
      refine ⟨fun all => ?_, fun strict => ?_⟩
      · have earlier := enough fun p member => all p (List.mem_append_left _ member)
        exact stamped_step plain queued next (all (c, e) (by simp)) unwrapped earlier
      · intro p member
        rcases List.mem_append.mp member with old | last
        · exact needed (strict.sublist path.history.sublist) p old
        · obtain rfl := List.mem_singleton.mp last
          exact stampAdvances_of_strict plain next unwrapped strict
  obtain ⟨enough, needed⟩ := both.2.2 unwrapped
  exact ⟨needed, fun all => (enough all).strict⟩

end Agent

/-- The strict Lamport condition holds for all agents of a system in a run exactly if every
acknowledged command meets the condition. -/
theorem strict_stamps {start s : System} {trace : List (System × System.Event)}
    (idle : ∀ id ∈ start.ids, (start.agents id).Idle)
    (plain : ∀ id ∈ start.ids, Plain (start.agents id)) (run : start.Runs trace s)
    (unwrapped : ∀ id ∈ start.ids, (s.agents id).lamportTime.wraps = 0) :
    (∀ id ∈ start.ids, StrictStamps (s.agents id).history) ↔
      ∀ id ∈ start.ids, ∀ p ∈ localTrace id trace, StampAdvances p.1 p.2.2 :=
  forall₂_congr fun id known =>
    agent_strictStamps (idle id known) (plain id known) (local_runs run id) (unwrapped id known)

instance (t : Nat) (history : List Observation) : Decidable (StampsBefore t history) :=
  decidable_of_iff (∀ o ∈ history, (stamp? o).all (· < t) = true) (by
    simp [StampsBefore, Option.all_eq_true])

instance (history : List Observation) : Decidable (StrictStamps history) :=
  decidable_of_iff (history.Pairwise fun o o' =>
      (stamp? o).all (fun t => (freshStamp? o').all (t < ·)) = true)
    (List.Pairwise.iff fun o o' => by
      simp only [Option.all_eq_true, decide_eq_true_eq]
      exact ⟨fun all t t' stamped => all t stamped t', fun all t stamped t' => all t t' stamped⟩)

instance (m : Message) (c : Cace) (receivers : List Int) : Decidable (Reaches m c receivers) :=
  decidable_of_iff (m.senderID ∉ c.agentBlacklist ∧ c.addressed receivers = true)
    ⟨fun both => ⟨both.1, both.2⟩, fun reaches => ⟨reaches.unlisted, reaches.addressed⟩⟩

instance (c : Cace) (e : Cace.Event) : Decidable (StampAdvances c e) := by
  unfold StampAdvances
  split <;> infer_instance

/-- New agents with the standard communication module, and no message in flight. -/
def newSystem (ids : List Int) : System where
  agents id := Cace.construct id false 10
  ids := ids
  flight := []

theorem newSystem_idle (ids : List Int) : ∀ id ∈ ids, ((newSystem ids).agents id).Idle :=
  fun id _ => (Cace.construct_fresh id false 10).toIdle

theorem newSystem_plain (ids : List Int) : ∀ id ∈ ids, Plain ((newSystem ids).agents id) :=
  fun _ _ => ⟨rfl, rfl⟩

/-- A command of agent 1, and the acknowledge of agent 2. -/
theorem strict_stamps_handshake : ∃ trace s,
    (newSystem [1, 2]).play
      [.call 1 .zero (.distributeValue ['x'] [7] 0 .threeWayHandShake),
        .deliver 2 .zero (.command ⟨1, [0], ['x'], [7], 0, longMax, 70, 101, 2, 0⟩)] =
          some (trace, s) ∧
      ∀ id ∈ [1, 2], StrictStamps (s.agents id).history := by
  have played : (newSystem [1, 2]).play
      [.call 1 .zero (.distributeValue ['x'] [7] 0 .threeWayHandShake),
        .deliver 2 .zero (.command ⟨1, [0], ['x'], [7], 0, longMax, 70, 101, 2, 0⟩)] =
          some _ := rfl
  refine ⟨_, _, played, (strict_stamps (newSystem_idle [1, 2]) (newSystem_plain [1, 2])
    (System.play_runs played).1 (by decide)).mpr (by decide)⟩

/-- Agent 2 has distributed a value when the command of agent 1 with the same time stamp
arrives: its acknowledge repeats that time stamp. -/
theorem strict_stamps_repeated : ∃ trace s,
    (newSystem [1, 2]).play
      [.call 2 .zero (.distributeValue ['y'] [8] 0 .threeWayHandShake),
        .call 1 .zero (.distributeValue ['x'] [7] 0 .threeWayHandShake),
        .deliver 2 .zero (.command ⟨1, [0], ['x'], [7], 0, longMax, 70, 101, 2, 0⟩)] =
          some (trace, s) ∧
      (∀ id ∈ [1, 2], ((newSystem [1, 2]).agents id).Idle) ∧
      (∀ id ∈ [1, 2], Plain ((newSystem [1, 2]).agents id)) ∧
      ¬ ∀ id ∈ [1, 2], StrictStamps (s.agents id).history :=
  ⟨_, _, rfl, newSystem_idle [1, 2], newSystem_plain [1, 2], by decide⟩

end CaceProofs.Guarantees
