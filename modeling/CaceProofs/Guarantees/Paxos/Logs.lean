import CaceProofs.Guarantees.Paxos.Agreement

/-!
# The logs of the learners

A learner delivers the instances one after another. Two learners that begin with the first one
therefore deliver the same sequence of values, as far as both have come.
-/
namespace CaceProofs.Guarantees.Paxos
open Source.Paxos Library

/-- Two logs with the same numbering agree as far as both go if their entries do. -/
theorem prefix_of_agree {first : Nat} {log log' : List (Nat × PaxosValue)}
    (counts : log.map Prod.fst = List.range' first log.length)
    (counts' : log'.map Prod.fst = List.range' first log'.length)
    (agree : ∀ {iid v w}, (iid, v) ∈ log → (iid, w) ∈ log' → v = w) :
    log <+: log' ∨ log' <+: log := by
  induction log generalizing first log' with
  | nil => exact .inl List.nil_prefix
  | cons d log ih =>
    cases log' with
    | nil => exact .inr List.nil_prefix
    | cons d' log' =>
      simp only [List.map_cons, List.length_cons, List.range'_succ, List.cons.injEq]
        at counts counts'
      obtain ⟨iid, v⟩ := d
      obtain ⟨iid', w⟩ := d'
      obtain rfl : iid = iid' := counts.1.trans counts'.1.symm
      obtain rfl : v = w := agree List.mem_cons_self List.mem_cons_self
      simp only [List.cons_prefix_cons, true_and]
      exact ih counts.2 counts'.2 fun here there =>
        agree (List.mem_cons_of_mem _ here) (List.mem_cons_of_mem _ there)

/-- A learner that has begun with an instance, and has delivered those from it on. -/
structure Counting (first : Nat) (l : Learner) (log : List (Nat × PaxosValue)) : Prop where
  begun : l.lateStart = false
  numbers : log.map Prod.fst = List.range' first log.length
  current : l.currentIid = first + log.length ∨ l.currentIid = 0
  bound : l.currentIid < 2 ^ 32

variable {n first a : Nat} {P : PaxosValue → Prop} {net : List Packet}
  {acceptors : Nat → Option Acceptor} {l l' : Learner} {log : List (Nat × PaxosValue)}

/-- One more delivery. No instance has the number 0, which the counter reaches when it wraps. -/
theorem Counting.deliverNext (coherent : Coherent n P net acceptors) (informed : Informed n net l)
    {out : PaxosAccepted} (counting : Counting first l log)
    (done : l.deliverNext = some (l', out)) :
    Counting first l' (log ++ [(out.iid, out.value)]) := by
  obtain ⟨-, same, b, chosen⟩ := informed.deliverNext coherent done
  obtain ⟨Q, quorum, votes⟩ := chosen
  obtain ⟨k, member, -⟩ := (majorities n).meet quorum quorum
  have positive : 0 < out.iid := (coherent.sent _ (votes k member)).2.2.2
  have current := counting.current
  have bound := counting.bound
  have here : out.iid = first + log.length := by omega
  have step : l'.currentIid = u32 (l.currentIid + 1) ∧ l'.lateStart = l.lateStart := by
    obtain ⟨inst, -, taken⟩ := Option.bind_eq_some_iff.mp done
    dsimp only at taken
    split at taken
    · obtain ⟨r, -, result⟩ := Option.map_eq_some_iff.mp taken
      cases result
      exact ⟨rfl, rfl⟩
    · cases taken
  refine ⟨step.2.trans counting.begun, ?_, ?_, ?_⟩
  · rw [List.map_append, counting.numbers, List.length_append, List.length_singleton,
      List.range'_concat]
    simp [here]
  · rw [step.1, List.length_append, List.length_singleton, u32]
    omega
  · rw [step.1, u32]
    exact Nat.mod_lt _ (by decide)

theorem Counting.deliverLoop (turns : Nat) (coherent : Coherent n P net acceptors)
    (informed : Informed n net l) (counting : Counting first l log) :
    Counting first (Learner.deliverLoop turns l).1
      (log ++ (Learner.deliverLoop turns l).2) := by
  induction turns generalizing l log with
  | zero => simpa [Learner.deliverLoop] using counting
  | succ turns ih =>
    unfold Learner.deliverLoop
    split
    next => simpa using counting
    next l' out done =>
      obtain ⟨next, -⟩ := informed.deliverNext coherent done
      simpa using ih next (counting.deliverNext coherent informed done)

/-- A message of an acceptor moves no learner that has begun; a late starter begins with it. -/
theorem receiveAccepted_begun (l : Learner) (m : PaxosAccepted) (a : Nat) :
    (l.receiveAccepted m a).lateStart = false ∧
      (l.receiveAccepted m a).currentIid = if l.lateStart then m.iid else l.currentIid := by
  have kept : (l.receiveAccepted m a).lateStart = (l.begin m).lateStart ∧
      (l.receiveAccepted m a).currentIid = (l.begin m).currentIid := by
    unfold Learner.receiveAccepted
    dsimp only
    split <;> exact ⟨rfl, rfl⟩
  rw [kept.1, kept.2, Learner.begin]
  cases late : l.lateStart <;> simp [late]

/-- What a learner keeps of its log: nothing before it has begun, and then one instance after
another. -/
def InOrder (l : Learner) (log : List (Nat × PaxosValue)) : Prop :=
  (l.lateStart = true ∧ log = []) ∨ ∃ first, Counting first l log

theorem Counting.handle (coherent : Coherent n P net acceptors) (informed : Informed n net l)
    {m : PaxosMessage} (received : ⟨a, m⟩ ∈ net) (counting : Counting first l log) :
    Counting first (l.handle a m).1 (log ++ (l.handle a m).2) := by
  cases m with
  | accepted m =>
    obtain ⟨begun, current⟩ := receiveAccepted_begun l m a
    rw [counting.begun] at current
    have same : (l.receiveAccepted m a).currentIid = l.currentIid := current
    refine Counting.deliverLoop _ coherent (informed.receiveAccepted coherent received) ?_
    exact ⟨begun, counting.numbers, same ▸ counting.current, same ▸ counting.bound⟩
  | _ => simpa [Learner.handle] using counting

theorem InOrder.handle (coherent : Coherent n P net acceptors) (informed : Informed n net l)
    {m : PaxosMessage} (received : ⟨a, m⟩ ∈ net) (ordered : InOrder l log) :
    InOrder (l.handle a m).1 (log ++ (l.handle a m).2) := by
  rcases ordered with ⟨late, rfl⟩ | ⟨first, counting⟩
  · cases m with
    | accepted m =>
      obtain ⟨begun, current⟩ := receiveAccepted_begun l m a
      rw [late] at current
      have same : (l.receiveAccepted m a).currentIid = m.iid := current
      have small : m.iid < 2 ^ 32 :=
        (coherent.positive (coherent.sent _ received).2.2.1).2
      have starts : Counting m.iid (l.receiveAccepted m a) [] :=
        ⟨begun, rfl, .inl same, same ▸ small⟩
      exact .inr ⟨m.iid, starts.deliverLoop _ coherent
        (informed.receiveAccepted coherent received)⟩
    | _ => exact .inl ⟨late, rfl⟩
  · exact .inr ⟨first, counting.handle coherent informed received⟩

variable {s s' start : System} {e : System.Event} {trace : List (System × System.Event)}

/-- Whether a learner is told where to go on. -/
def movesLearner : System.Event → Bool
  | .setLearnerInstanceId _ _ => true
  | _ => false

/-- A step leaves a learner and its log alone, or the learner gets a message. -/
theorem next_learner (next : System.Next s e s') (fixed : movesLearner e = false) (l : Nat) :
    (s'.learners l = s.learners l ∧ s'.delivered l = s.delivered l) ∨
      ∃ p ∈ s.net, s'.learners l = ((s.learners l).handle p.source p.message).1 ∧
        s'.delivered l = s.delivered l ++ ((s.learners l).handle p.source p.message).2 := by
  cases next_turn next with
  | acceptor | proposer | sends => exact .inl ⟨rfl, rfl⟩
  | @hears k p received =>
    by_cases here : l = k
    · subst here
      exact .inr ⟨p, received, by simp, by simp⟩
    · exact .inl ⟨by simp [here], by simp [here]⟩
  | moves moved =>
    rw [moved] at fixed
    cases fixed

/-- What the messages keep of a learner and its log, a careful run keeps. -/
theorem log_run (started : start.Started n) (run : start.Runs trace s)
    (careful : ∀ p ∈ trace, Careful p.1 p.2) (fixed : ∀ p ∈ trace, movesLearner p.2 = false)
    {l : Nat}
    (Keeps : Learner → List (Nat × PaxosValue) → Prop)
    (handles : ∀ {P net acceptors l log a m}, Coherent n P net acceptors → Informed n net l →
      ⟨a, m⟩ ∈ net → Keeps l log → Keeps (l.handle a m).1 (log ++ (l.handle a m).2))
    (init : Keeps (start.learners l) []) : Keeps (s.learners l) (s.delivered l) := by
  have keeps : ∀ s e s', ((Careful s e ∧ ∀ id now v, e = .submit id now v → Submitted trace v) ∧
      movesLearner e = false) → System.Next s e s' →
      (Sound n (Submitted trace) s ∧ Keeps (s.learners l) (s.delivered l)) →
      Sound n (Submitted trace) s' ∧ Keeps (s'.learners l) (s'.delivered l) := by
    rintro s e s' ⟨may, other⟩ next ⟨sound, held⟩
    refine ⟨sound.step (fun v good => good.1) may.2 may.1 next, ?_⟩
    rcases next_learner next other l with ⟨same, log⟩ | ⟨p, received, same, log⟩
    · rwa [same, log]
    · rw [same, log]
      exact handles sound.coherent (sound.informed l) received held
  refine (run.preserves keeps (fun p member =>
    ⟨allowed_of_careful careful p member, fixed p member⟩) ⟨.started started, ?_⟩).2
  rw [started.delivered]
  exact init

theorem log_ordered (started : start.Started n) (run : start.Runs trace s)
    (careful : ∀ p ∈ trace, Careful p.1 p.2) (fixed : ∀ p ∈ trace, movesLearner p.2 = false)
    (l : Nat) : InOrder (s.learners l) (s.delivered l) := by
  refine log_run started run careful fixed InOrder
    (fun coherent informed received => InOrder.handle coherent informed received) ?_
  obtain ⟨catchUp, same⟩ := started.learners l
  rw [same]
  cases catchUp with
  | true => exact .inr ⟨1, rfl, rfl, .inl rfl, (by decide : 1 < 2 ^ 32)⟩
  | false => exact .inl ⟨rfl, rfl⟩

/-- Each learner delivers consecutive instances. Of two learners that begin with the first
instance one has delivered just what the other has, or the beginning of it. -/
theorem logs_agree (started : start.Started n) (run : start.Runs trace s)
    (careful : ∀ p ∈ trace, Careful p.1 p.2)
    (fixed : ∀ p ∈ trace, movesLearner p.2 = false) (l l' : Nat) :
    (∃ first, (s.delivered l).map Prod.fst = List.range' first (s.delivered l).length) ∧
      ((start.learners l).lateStart = false → (start.learners l').lateStart = false →
        s.delivered l <+: s.delivered l' ∨ s.delivered l' <+: s.delivered l) := by
  have counting : ∀ k, (start.learners k).lateStart = false →
      Counting 1 (s.learners k) (s.delivered k) := by
    intro k early
    refine log_run started run careful fixed (Counting 1)
      (fun coherent informed received => Counting.handle coherent informed received) ?_
    obtain ⟨catchUp, same⟩ := started.learners k
    rw [same] at early ⊢
    exact ⟨early, rfl, .inl rfl, (by decide : 1 < 2 ^ 32)⟩
  have ordered := log_ordered started run careful fixed l
  refine ⟨?_, fun early early' => ?_⟩
  · rcases ordered with ⟨-, none⟩ | ⟨first, numbers⟩
    · exact ⟨0, by simp [none]⟩
    · exact ⟨first, numbers.numbers⟩
  · exact prefix_of_agree (counting l early).numbers (counting l' early').numbers
      fun here there => (learners_agree started run careful here there).1

theorem logs_agree_takenOver : ∃ trace s, threeAndTwo.Runs trace s ∧
    (1, [7]) ∈ s.delivered 0 ∧
      (s.delivered 0 <+: s.delivered 1 ∨ s.delivered 1 <+: s.delivered 0) := by
  obtain ⟨trace, s, run, steps, delivered⟩ := @play_any threeAndTwo takenOver
    (fun p => decide (Careful p.1 p.2) && !movesLearner p.2)
    (fun s => (s.delivered 0).contains (1, [7])) (by decide +kernel)
  have passed : ∀ p ∈ trace, Careful p.1 p.2 ∧ movesLearner p.2 = false := fun p member => by
    simpa using steps p member
  exact ⟨trace, s, run, by simpa using delivered, (logs_agree threeAndTwo_started run
    (fun p member => (passed p member).1) (fun p member => (passed p member).2) 0 1).2 rfl rfl⟩

end CaceProofs.Guarantees.Paxos
