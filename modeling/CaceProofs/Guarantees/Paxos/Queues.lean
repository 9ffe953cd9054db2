import CaceProofs.Guarantees.Paxos.Values
import CaceProofs.Source.Paxos.QueueCalls
import Mathlib.Data.Int.ModEq

/-!
# The queue in an array

The array of a `Carray` holds a queue in order from its head on, around its end. The steps of the
ring are those of the list, as long as the queue has fewer than 2^30 values, and `carray_grow`
calls `carray_push_back` only where it does not grow again. In every run the queue of
each proposer is in such an array.
-/
namespace CaceProofs.Guarantees.Paxos
open Source.Paxos Library

section ring

variable {α σ : Type} {a tmp : Carray α} {q rest : List α} {x : α}

/-- The array holds the queue. -/
structure Holds (a : Carray α) (q : List α) : Prop where
  doubled : ∃ k ≤ 30, a.size = 2 ^ k
  cells : a.array.length = a.size
  front : a.head < a.size
  back : a.tail = (a.head + q.length) % a.size
  counted : a.count = q.length
  fits : q.length ≤ a.size
  stored : ∀ i x, q[i]? = some x → a.array[(a.head + i) % a.size]? = some (some x)

theorem Holds.size_le (holds : Holds a q) : a.size ≤ 2 ^ 30 := by
  obtain ⟨k, small, size⟩ := holds.doubled
  exact size ▸ Nat.pow_le_pow_right (by decide) small

theorem Holds.new {k : Nat} (small : k ≤ 30) : Holds (Carray.new (2 ^ k) : Carray α) [] where
  doubled := ⟨k, small, rfl⟩
  cells := by simp [Carray.new]
  front := Nat.two_pow_pos k
  back := by simp [Carray.new]
  counted := rfl
  fits := by simp
  stored := by simp

/-- Places of the ring that are apart by less than its size are different cells. -/
theorem cell_injective {head size i j : Nat} (i_lt : i < size) (j_lt : j < size)
    (same : (head + i) % size = (head + j) % size) : i = j := by
  have congruent : i % size = j % size := Nat.ModEq.add_left_cancel' head same
  rwa [Nat.mod_eq_of_lt i_lt, Nat.mod_eq_of_lt j_lt] at congruent

theorem Holds.valueAt (holds : Holds a q) {i : Nat} (here : q[i]? = some x) :
    a.valueAt i = some x := by
  have i_lt : i < q.length := (List.getElem?_eq_some_iff.mp here).1
  have front := holds.front
  have fits := holds.fits
  have size := holds.size_le
  have narrow : a.head + i < 2 ^ 31 := by omega
  rw [Carray.valueAt, if_pos narrow, holds.stored i x here, Option.join_some]

/-- A push into an array that has room. -/
theorem Holds.write (holds : Holds a q) (room : q.length < a.size) (x : α) :
    ∃ a', a.write x = some a' ∧ Holds a' (q ++ [x]) ∧ a'.size = a.size ∧ a'.head = a.head := by
  have size_pos : 0 < a.size := by omega
  have tail_lt : a.tail < a.array.length := by
    rw [holds.back, holds.cells]
    exact Nat.mod_lt _ size_pos
  refine ⟨_, if_pos tail_lt, ?_, rfl, rfl⟩
  exact {
    doubled := holds.doubled
    cells := by simp [holds.cells]
    front := holds.front
    back := by simp [holds.back, Nat.add_assoc]
    counted := by simp [holds.counted]
    fits := by simpa using Nat.succ_le_of_lt room
    stored := by
      intro i y here
      rw [List.getElem?_append] at here
      split at here
      next before =>
        -- the cell is not the one behind the queue
        have apart : a.tail ≠ (a.head + i) % a.size := fun same =>
          before.ne (cell_injective (by omega) room (same.symm.trans holds.back))
        rw [List.getElem?_set_ne apart]
        exact holds.stored i y here
      next behind =>
        have last : i = q.length := by
          have := (List.getElem?_eq_some_iff.mp here).1
          simp only [List.length_cons, List.length_nil] at this
          omega
        subst last
        obtain rfl : x = y := by simpa using here
        rw [← holds.back, List.getElem?_set_self tail_lt] }

/-- A push that only has to do what is done in an array with room. -/
def Writes (push : Carray α → α → Option (Carray α)) : Prop :=
  ∀ a q x, Holds a q → q.length < a.size → push a x = a.write x

theorem pushBackWithin_writes (calls : Nat) :
    Writes (@Carray.pushBackWithin α (calls + 1)) := by
  intro a q x holds room
  have open' : a.full = false := by
    simp only [Carray.full, beq_eq_false_iff_ne, holds.counted]
    omega
  simp [Carray.pushBackWithin, open']

/-- The loop of `carray_grow` appends what it has not copied yet. -/
theorem Holds.copy (holds : Holds a q) {done : List α} (whole : q = done ++ rest)
    (copied : Holds tmp done) (room : q.length ≤ tmp.size) :
    ∃ tmp', (∀ push, Writes push →
        Carray.copy push a (List.range' done.length rest.length) tmp = some tmp') ∧
      Holds tmp' q ∧ tmp'.size = tmp.size ∧ tmp'.head = tmp.head := by
  induction rest generalizing done tmp with
  | nil => exact ⟨tmp, fun _ _ => rfl, by simpa [whole] using copied, rfl, rfl⟩
  | cons x rest ih =>
    have here : q[done.length]? = some x := by simp [whole]
    have shorter : done.length < tmp.size := by
      have : q.length = done.length + (rest.length + 1) := by simp [whole]
      omega
    obtain ⟨next, written, held, size, head⟩ := copied.write shorter x
    obtain ⟨tmp', runs, holds', size', head'⟩ :=
      ih (show q = (done ++ [x]) ++ rest by simp [whole]) held (size ▸ room)
    refine ⟨tmp', fun push writes => ?_, holds', size'.trans size, head'.trans head⟩
    have following := runs push writes
    simp only [List.length_append, List.length_singleton] at following
    simp only [List.length_cons, List.range'_succ, Carray.copy, holds.valueAt here,
      Option.bind_some, writes _ _ x copied shorter, written]
    exact following

/-- A full array grows into one that holds the same queue and has room. -/
theorem Holds.grow (holds : Holds a q) (full : q.length = a.size) (few : q.length < 2 ^ 30) :
    ∃ a', (∀ push, Writes push → a.grow push = some a') ∧ Holds a' q ∧ q.length < a'.size := by
  obtain ⟨k, -, size⟩ := holds.doubled
  have below : k < 30 := by
    rw [full, size] at few
    exact (Nat.pow_lt_pow_iff_right (by decide)).mp few
  have fresh : Holds (Carray.new (a.size * 2) : Carray α) [] := by
    rw [size, ← Nat.pow_succ]
    exact .new below
  obtain ⟨tmp, runs, held, tmpSize, tmpHead⟩ :=
    holds.copy (show q = [] ++ q from rfl) fresh (by simp [Carray.new]; omega)
  have small : a.size * 2 < 2 ^ 31 := by omega
  refine ⟨{ a with head := 0, tail := tmp.tail, size := tmp.size, array := tmp.array }, ?_, ?_, ?_⟩
  · intro push writes
    have copied := runs push writes
    simp only [List.length_nil, ← List.range_eq_range'] at copied
    rw [Carray.grow, if_pos small, holds.counted, copied, Option.map_some]
  · have start : tmp.head = 0 := tmpHead
    exact {
      doubled := held.doubled
      cells := held.cells
      front := start ▸ held.front
      back := start ▸ held.back
      counted := holds.counted
      fits := held.fits
      stored := start ▸ held.stored }
  · have : tmp.size = a.size * 2 := tmpSize
    have := holds.front
    simp only
    omega

/-- A push, where no call of `carray_push_back` is open twice. -/
theorem Holds.pushBack (holds : Holds a q) (few : q.length < 2 ^ 30) (x : α) :
    ∃ a', (∀ calls, a.pushBackWithin (calls + 2) x = some a') ∧ Holds a' (q ++ [x]) := by
  by_cases full : q.length = a.size
  · obtain ⟨bigger, grows, held, room⟩ := holds.grow full few
    obtain ⟨a', written, holds', -, -⟩ := held.write room x
    refine ⟨a', fun calls => ?_, holds'⟩
    have isFull : a.full = true := by simp [Carray.full, holds.counted, full]
    rw [Carray.pushBackWithin, if_pos isFull, grows _ (pushBackWithin_writes calls),
      Option.bind_some, written]
  · have room : q.length < a.size := by have := holds.fits; omega
    obtain ⟨a', written, holds', -, -⟩ := holds.write room x
    exact ⟨a', fun calls => (pushBackWithin_writes (calls + 1) a q x holds room).trans written,
      holds'⟩

/-- A pop. -/
theorem Holds.popFront (holds : Holds a q) :
    ∃ a', a.popFront = some (q.head?, a') ∧ Holds a' q.tail := by
  cases q with
  | nil =>
    have isEmpty : a.empty = true := by simp [Carray.empty, holds.counted]
    exact ⟨a, by simp [Carray.popFront, isEmpty], holds⟩
  | cons x rest =>
    have filled : a.empty = false := by simp [Carray.empty, holds.counted]
    have first : a.array[a.head]? = some (some x) := by
      simpa [Nat.mod_eq_of_lt holds.front] using holds.stored 0 x rfl
    have size_pos : 0 < a.size := by have := holds.front; omega
    have shift (i : Nat) : ((a.head + 1) % a.size + i) % a.size = (a.head + (i + 1)) % a.size := by
      rw [Nat.mod_add_mod, Nat.add_assoc, Nat.add_comm 1 i]
    refine ⟨{ a with head := (a.head + 1) % a.size, count := a.count - 1 },
      by simp [Carray.popFront, filled, first], ?_⟩
    exact {
      doubled := holds.doubled
      cells := holds.cells
      front := Nat.mod_lt _ size_pos
      back := by simpa [shift] using holds.back
      counted := by simp [holds.counted]
      fits := by have := holds.fits; simp only [List.length_cons] at this; simp; omega
      stored := fun i y here => by
        simp only [shift]
        exact holds.stored (i + 1) y here }

/-- `carray_foreach` calls back for each value of the queue, in order. -/
theorem Holds.foreach (holds : Holds a q) (cb : σ → α → σ) (s : σ) :
    a.foreach cb s = some (q.foldl cb s) := by
  have loop : ∀ (rest done : List α) s, q = done ++ rest →
      Carray.foreachLoop cb a (List.range' done.length rest.length) s = some (rest.foldl cb s) := by
    intro rest
    induction rest with
    | nil => exact fun _ _ _ => rfl
    | cons x rest ih =>
      intro done s whole
      have here : q[done.length]? = some x := by simp [whole]
      have following := ih (done ++ [x]) (cb s x) (by simp [whole])
      simp only [List.length_append, List.length_singleton] at following
      simpa [List.range'_succ, Carray.foreachLoop, holds.valueAt here] using following
  have started := loop q [] s rfl
  rwa [List.length_nil, ← List.range_eq_range', ← holds.counted] at started

end ring

section calls

variable {α : Type} {q : List α} {a : Carray α} {calls more : List (QueueCall α)}

/-- The queue after the calls, and what the pops return. -/
def onQueue : List (QueueCall α) → List α → List α × List (Option α)
  | [], q => (q, [])
  | .pushBack x :: rest, q => onQueue rest (q ++ [x])
  | .popFront :: rest, q => ((onQueue rest q.tail).1, q.head? :: (onQueue rest q.tail).2)

/-- The queue has fewer than 2^30 values at each push. -/
def Few : List (QueueCall α) → List α → Prop
  | [], _ => True
  | .pushBack x :: rest, q => q.length < 2 ^ 30 ∧ Few rest (q ++ [x])
  | .popFront :: rest, q => Few rest q.tail

theorem onQueue_append : (onQueue (calls ++ more) q).1 = (onQueue more (onQueue calls q).1).1 := by
  induction calls generalizing q with
  | nil => rfl
  | cons call rest ih => cases call <;> exact ih

theorem onQueue_pushes (values : List α) :
    (onQueue (values.map .pushBack) q).1 = q ++ values := by
  induction values generalizing q with
  | nil => simp [onQueue]
  | cons x rest ih => simpa [onQueue] using ih (q := q ++ [x])

/-- The calls on the array do what they do on the queue. -/
theorem Holds.play (holds : Holds a q) (few : Few calls q) :
    ∃ a', a.play calls = some (a', (onQueue calls q).2) ∧ Holds a' (onQueue calls q).1 := by
  induction calls generalizing a q with
  | nil => exact ⟨a, rfl, holds⟩
  | cons call rest ih =>
    cases call with
    | pushBack x =>
      obtain ⟨first, pushed, held⟩ := holds.pushBack few.1 x
      obtain ⟨last, played, held⟩ := ih held few.2
      refine ⟨last, ?_, held⟩
      have done : a.pushBack x = some first := pushed 0
      simp [Carray.play, onQueue, done, played]
    | popFront =>
      obtain ⟨first, popped, held⟩ := holds.popFront
      obtain ⟨last, played, held⟩ := ih held few
      exact ⟨last, by simp [Carray.play, onQueue, popped, played], held⟩

/-- The array of `carray.c` is a queue: of any calls on a new array of a size that is a power of
two, in which no push finds 2^30 values, the pops return what they return of a list that is
pushed to at the end and popped from at the front, no step reaches outside the array, and
`carray_foreach` visits the list that is left, in order. -/
theorem carray_is_queue {σ : Type} {k : Nat} (small : k ≤ 30) (few : Few calls []) :
    ∃ a : Carray α, (Carray.new (2 ^ k)).play calls = some (a, (onQueue calls []).2) ∧
      ∀ (cb : σ → α → σ) (s : σ), a.foreach cb s = some ((onQueue calls []).1.foldl cb s) := by
  obtain ⟨a, played, held⟩ := (Holds.new small).play few
  exact ⟨a, played, held.foreach⟩

/-- An array of two cells that is filled around its end before it grows. -/
theorem carray_is_queue_grown : ∃ a : Carray Nat,
    (Carray.new 2).play [.pushBack 1, .pushBack 2, .popFront, .pushBack 3, .pushBack 4, .popFront] =
      some (a, [some 1, some 2]) ∧
      ∀ (cb : List Nat → Nat → List Nat) s, a.foreach cb s = some ([3, 4].foldl cb s) :=
  @carray_is_queue Nat _ (List Nat) 1 (by decide) (by simp [Few])

end calls

variable {p p' : Proposer} {bucket : Nat → Nat} {window source n id : Nat} {now : Int}
  {s s' start : System} {e : System.Event} {trace : List (System × System.Event)}

theorem accept_queue {sent : Option PaxosAccept} (done : p.accept = some (p', sent)) :
    p'.values = (onQueue p.acceptCalls p.values).1 := by
  unfold Proposer.accept at done
  unfold Proposer.acceptCalls
  cases first : Proposer.smallest p.prepareInstances with
  | none =>
    simp only [first] at done
    cases done
    rfl
  | some inst =>
    simp only [first] at done ⊢
    by_cases ready : inst.quorum.reached = true
    · simp only [ready, Bool.not_true, Bool.false_eq_true, if_false] at done
      cases own : inst.value with
      | some value =>
        simp only [Proposer.takeValue, own, Option.isNone_some, Bool.false_eq_true,
          false_and, if_false] at done
        obtain ⟨_, -, result⟩ := Option.map_eq_some_iff.mp done
        cases result
        simp [onQueue]
      | none =>
        simp only [Proposer.takeValue, own] at done
        simp only [ready, Option.isNone_none, Bool.and_self, if_true, onQueue]
        split at done
        next nothing =>
          cases done
          have drained : p.values = [] := by simpa using nothing.1
          simp [drained]
        next =>
          obtain ⟨_, -, result⟩ := Option.map_eq_some_iff.mp done
          cases result
          rfl
    · simp only [ready, Bool.not_false, if_true] at done
      cases done
      simp [ready, onQueue]

theorem acceptLoop_queue (turns : Nat) (done : (Proposer.acceptLoop turns p).party = some p') :
    p'.values = (onQueue (Proposer.acceptLoopCalls turns p) p.values).1 := by
  induction turns generalizing p with
  | zero =>
    cases done
    rfl
  | succ turns ih =>
    unfold Proposer.acceptLoop at done
    unfold Proposer.acceptLoopCalls
    rw [onQueue_append]
    split at done
    next => cases done
    next q accepted =>
      cases done
      simpa [accepted, onQueue] using accept_queue accepted
    next q acc accepted =>
      simp only [Outcome.andThen] at done
      rw [← accept_queue accepted]
      simpa [accepted] using ih done

theorem preexecuteLoop_queue (count : Nat)
    (done : (Proposer.preexecuteLoop now count p).party = some p') : p'.values = p.values := by
  induction count generalizing p with
  | zero =>
    cases done
    rfl
  | succ count ih =>
    unfold Proposer.preexecuteLoop at done
    split at done
    next => cases done
    next q pr prepared =>
      simp only [Outcome.andThen] at done
      rw [ih done]
      unfold Proposer.prepare at prepared
      obtain ⟨_, -, prepared⟩ := Option.bind_eq_some_iff.mp prepared
      obtain ⟨_, -, result⟩ := Option.map_eq_some_iff.mp prepared
      cases result
      rfl

theorem tryAccept_queue (done : (Proposer.tryAccept window now p).party = some p') :
    p'.values = (onQueue p.tryAcceptCalls p.values).1 := by
  unfold Proposer.tryAccept Outcome.andThen at done
  split at done
  next failed => simp [failed] at done
  next q looped => rw [preexecuteLoop_queue _ done, acceptLoop_queue _ looped]; rfl

theorem receiveAccepted_queue (m : PaxosAccepted) :
    (p.receiveAccepted m source).1.values =
      (onQueue (p.receiveAcceptedCalls m source) p.values).1 := by
  unfold Proposer.receiveAccepted Proposer.receiveAcceptedCalls
  cases got : p.acceptInstances.get m.iid with
  | none => rfl
  | some inst =>
    by_cases current : m.ballot = inst.ballot
    · cases added : inst.quorum.add source with
      | none => simp [current, added, onQueue]
      | some quorum =>
        by_cases reached : quorum.reached = true
        · simp [current, added, reached, onQueue_pushes]
        · simp [current, added, reached, onQueue]
    · simp [current, onQueue]

theorem receiveAcceptorState_queue (m : PaxosAcceptorState) :
    (p.receiveAcceptorState m bucket).values =
      (onQueue (p.receiveAcceptorStateCalls m bucket) p.values).1 := by
  unfold Proposer.receiveAcceptorState Proposer.receiveAcceptorStateCalls
  split
  · rfl
  · rw [onQueue_pushes, ← List.append_assoc]

theorem handleClientValue_queue (m : PaxosClientValue)
    (done : (p.handleClientValue window now m).party = some p') :
    p'.values = (onQueue (p.handleClientValueCalls m) p.values).1 :=
  tryAccept_queue done

/-- A handler changes the queue as its calls do. -/
theorem handle_queue (m : PaxosMessage)
    (done : (p.handle window now bucket source m).party = some p') :
    p'.values = (onQueue (p.handleCalls now bucket source m) p.values).1 := by
  cases m with
  | promise m =>
    obtain ⟨table, frame⟩ := @receivePromise_frame p now m source
    have kept : (p.receivePromise m source now).1.values = p.values := by rw [frame]
    rw [← kept]
    exact tryAccept_queue done
  | accepted m =>
    simp only [Proposer.handle, Proposer.handleAccepted] at done
    simp only [Proposer.handleCalls, onQueue_append, ← receiveAccepted_queue]
    split at done
    next counted => simpa [counted] using tryAccept_queue done
    next dropped =>
      cases done
      simp [dropped, onQueue]
  | preempted m =>
    simp only [Proposer.handle, Proposer.handlePreempted] at done
    simp only [Proposer.handleCalls]
    split at done
    next => cases done
    next q kept =>
      cases done
      obtain ⟨f, t, rfl⟩ := receivePreempted_frame kept
      simp [kept, onQueue]
    next q pr raised =>
      have last : p'.values = (onQueue q.tryAcceptCalls q.values).1 := tryAccept_queue done
      obtain ⟨f, t, rfl⟩ := receivePreempted_frame raised
      simpa [raised] using last
  | clientValue m => exact handleClientValue_queue m done
  | acceptorState m =>
    cases done
    exact receiveAcceptorState_queue m
  | _ =>
    cases done
    rfl

/-- A proposer that goes on has the queue that its calls leave. -/
theorem next_queue (next : System.Next s e s') (known : s'.proposers id = some p') :
    ∃ p, s.proposers id = some p ∧
      p'.values = (onQueue (System.queueCalls id p e) p.values).1 := by
  rcases next_proposers next id with ⟨same, other⟩ | ⟨p, handler, here, turn, result⟩
  · refine ⟨p', same ▸ known, ?_⟩
    have silent : System.queueCalls id p' e = [] := by
      cases e with
      | submit k _ _ | proposerReceives k _ _ _ =>
        exact if_neg fun here => other _ (by rw [here, proposerTurn])
      | _ => rfl
    rw [silent]
    rfl
  have done := result.symm.trans known
  refine ⟨p, here, ?_⟩
  cases e with
  | submit k now value =>
    cases turn
    rw [System.queueCalls, if_pos rfl]
    exact handleClientValue_queue _ done
  | proposerReceives k now bucket packet =>
    cases turn
    rw [System.queueCalls, if_pos rfl]
    exact handle_queue _ done
  | preexecOnce k now =>
    cases turn
    exact preexecuteLoop_queue _ done
  | checkTimeouts | setInstanceId =>
    cases turn
    cases done
    rfl
  | acceptorTimer | acceptorReceives | sendTrim | learnerReceives | checkHoles
  | setLearnerInstanceId => cases turn

/-- In every run in which the queue of a proposer stays below 2^30 values, the array that
`carray.c` makes of the proposer's calls holds the queue. -/
theorem values_in_array (started : start.Started n) (run : start.Runs trace s)
    (few : ∀ step ∈ trace, ∀ p ∈ step.1.proposers id,
      Few (System.queueCalls id p step.2) p.values)
    (known : s.proposers id = some p) :
    ∃ a, System.arrayAfter id trace = some a ∧ Holds a p.values := by
  have keeps : ∀ trace s e s', System.Runs start trace s →
      (∀ p ∈ s.proposers id, Few (System.queueCalls id p e) p.values) → System.Next s e s' →
      (∀ p, s.proposers id = some p →
        ∃ a, System.arrayAfter id trace = some a ∧ Holds a p.values) →
      ∀ p', s'.proposers id = some p' →
        ∃ a, System.arrayAfter id (trace ++ [(s, e)]) = some a ∧ Holds a p'.values := by
    intro trace s e s' _ few next held p' known'
    obtain ⟨p, here, values⟩ := next_queue next known'
    obtain ⟨a, array, holds⟩ := held p here
    obtain ⟨a', played, holds'⟩ := holds.play (few p here)
    refine ⟨a', ?_, values ▸ holds'⟩
    rw [System.arrayAfter, List.foldl_append, ← System.arrayAfter, array]
    simp [System.arrayStep, here, played]
  refine run.carries _ keeps few (fun p known => ?_) p known
  obtain rfl := (started.proposers id p known).2
  exact ⟨_, rfl, Holds.new (k := 7) (by decide)⟩

theorem few_of_short {α : Type} {calls : List (QueueCall α)} {q : List α}
    (short : q.length + calls.length ≤ 2 ^ 30) : Few calls q := by
  induction calls generalizing q with
  | nil => trivial
  | cons call rest ih =>
    simp only [List.length_cons] at short
    cases call with
    | pushBack x =>
      refine ⟨by omega, ih ?_⟩
      simp only [List.length_append, List.length_singleton]
      omega
    | popFront =>
      refine ih ?_
      simp only [List.length_tail]
      omega

theorem values_in_array_takenOver : ∃ trace s p a, threeAndTwo.Runs trace s ∧
    s.proposers 1 = some p ∧ System.arrayAfter 1 trace = some a ∧ Holds a p.values := by
  obtain ⟨trace, s, run, steps, alive⟩ := @play_any threeAndTwo takenOver
    (fun step => (step.1.proposers 1).all fun p =>
      decide (p.values.length + (System.queueCalls 1 p step.2).length ≤ 2 ^ 30))
    (fun s => (s.proposers 1).isSome) (by decide +kernel)
  obtain ⟨p, known⟩ := Option.isSome_iff_exists.mp alive
  have few : ∀ step ∈ trace, ∀ p ∈ step.1.proposers 1,
      Few (System.queueCalls 1 p step.2) p.values := by
    intro step member p here
    have short := steps step member
    rw [Option.mem_def.mp here] at short
    exact few_of_short (by simpa using short)
  obtain ⟨a, array, holds⟩ := values_in_array threeAndTwo_started run few known
  exact ⟨trace, s, p, a, run, known, array, holds⟩

end CaceProofs.Guarantees.Paxos
