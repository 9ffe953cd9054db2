import CaceProofs.Library.BeliefRegister

/-!
# Registers that exchange beliefs

Every member keeps a register and a clock, and sends beliefs to all the others: its own
decisions, and its answers to decisions of the others. Whatever the order in which they
arrive, the members come to believe what was sent with the greatest time, as long as this
time names one value and those who have sent it stay convinced.
-/
namespace CaceProofs.Library

/-- One member: its register, its clock and the beliefs it has sent. -/
structure Peer (Id V : Type) where
  register : Option (Register Id V)
  time : Nat
  sent : List (Belief Id V)

/-- The members, and the beliefs on their way to each of them. -/
structure Network (Id V : Type) where
  peers : Id → Peer Id V
  pending : Id → Belief Id V → Prop

namespace Network

variable {Id V : Type}

/-- The clock of a member after it has seen a time. -/
def heardTime (time seen : Nat) : Nat :=
  if time < seen then seen + 1 else time

theorem seen_le_heardTime (time seen : Nat) : seen ≤ heardTime time seen := by
  unfold heardTime
  split <;> omega

theorem le_heardTime (time seen : Nat) : time ≤ heardTime time seen := by
  unfold heardTime
  split <;> omega

section Members

/-- What a member keeps. -/
structure Steady (i : Id) (p : Peer Id V) : Prop where
  sound : ∀ r, p.register = some r → Register.Sound i r
  ahead : ∀ r, p.register = some r → r.Ahead
  current : ∀ r, p.register = some r → r.own.age ≤ p.time
  stamped : ∀ b ∈ p.sent, b.age ≤ p.time

variable {i : Id} {p p' : Peer Id V}

/-- No belief of a member is ahead of its clock. -/
theorem Steady.within (steady : Steady i p) {r : Register Id V} (known : p.register = some r) :
    ∀ b ∈ r.beliefs, b.age ≤ p.time := by
  intro b member
  rcases List.mem_cons.mp member with rfl | record
  · exact steady.current r known
  · exact (steady.ahead r known b record).trans (steady.current r known)

theorem Steady.decides (steady : Steady i p) {value : V}
    (register : p'.register = some (Register.decide i p.time value p.register))
    (sends : p'.sent = p.sent ++ [⟨i, p.time + 1, value⟩]) (time : p.time + 1 ≤ p'.time) :
    Steady i p' where
  sound r known := by
    rw [register] at known
    exact Option.some.inj known ▸ Register.decide_sound steady.sound
  ahead r known := by
    rw [register] at known
    obtain rfl := Option.some.inj known
    cases old : p.register with
    | none => exact fun a member => nomatch member
    | some r => exact fun a member => steady.within old a (List.mem_cons_of_mem _ member)
  current r known := by
    rw [register] at known
    obtain rfl := Option.some.inj known
    have age : (Register.decide i p.time value p.register).own.age = p.time := by
      cases p.register <;> rfl
    omega
  stamped b member := by
    rw [sends] at member
    rcases List.mem_append.mp member with old | new
    · exact (steady.stamped b old).trans (by omega)
    · rw [List.mem_singleton.mp new]
      exact time

theorem Steady.skips (steady : Steady i p) (register : p'.register = p.register)
    (sends : p'.sent = p.sent) (time : p.time ≤ p'.time) : Steady i p' where
  sound := register ▸ steady.sound
  ahead := register ▸ steady.ahead
  current r known := (steady.current r (register ▸ known)).trans time
  stamped := sends ▸ fun b member => (steady.stamped b member).trans time

variable [LinearOrder Id]

/-- The beliefs at hand after a report are, up to their holders, the report and old ones. -/
theorem beliefs_receive {b a : Belief Id V} {old : Option (Register Id V)}
    (member : a ∈ (Register.receive i b old).beliefs) :
    ∃ d, (d = b ∨ ∃ r, old = some r ∧ d ∈ r.beliefs) ∧ a.age = d.age ∧ a.value = d.value := by
  rcases List.mem_cons.mp member with rfl | record
  · cases old with
    | none => exact ⟨b, .inl rfl, rfl, rfl⟩
    | some r =>
      obtain ⟨d, source, age, value⟩ := Register.receive_origin i b r
      refine ⟨d, ?_, age, value⟩
      rcases List.mem_cons.mp source with rfl | source
      · exact .inr ⟨r, rfl, List.mem_cons_self⟩
      · rcases List.mem_cons.mp source with rfl | source
        · exact .inl rfl
        · exact .inr ⟨r, rfl, List.mem_cons_of_mem _ source⟩
  · refine ⟨a, ?_, rfl, rfl⟩
    exact (Register.mem_receive record).imp_right fun ⟨r, known, old⟩ =>
      ⟨r, known, List.mem_cons_of_mem _ old⟩

theorem Steady.hears (steady : Steady i p) {b : Belief Id V} {sent : List (Belief Id V)}
    (other : b.id ≠ i) (register : p'.register = some (Register.receive i b p.register))
    (sends : p'.sent = p.sent ++ sent) (stamped : ∀ a ∈ sent, a.age ≤ p'.time)
    (time : heardTime p.time b.age ≤ p'.time) : Steady i p' where
  sound r known := by
    rw [register] at known
    exact Option.some.inj known ▸ Register.receive_sound steady.sound other
  ahead r known := by
    rw [register] at known
    exact Option.some.inj known ▸ Register.receive_ahead steady.ahead
  current r known := by
    rw [register] at known
    obtain rfl := Option.some.inj known
    obtain ⟨d, source, age, -⟩ :=
      @beliefs_receive _ _ i _ b _ p.register List.mem_cons_self
    rw [age]
    rcases source with rfl | ⟨r, known, member⟩
    · exact (seen_le_heardTime _ _).trans time
    · exact (steady.within known d member).trans ((le_heardTime _ _).trans time)
  stamped a member := by
    rw [sends] at member
    rcases List.mem_append.mp member with old | new
    · exact (steady.stamped a old).trans ((le_heardTime _ _).trans time)
    · exact stamped a new

end Members

section Steps

/-- What a member does: it decides, it hears a decision and answers, it hears an answer, or
none of these. -/
inductive Act (Id V : Type) where
  | decide (i : Id) (value : V)
  | answer (i : Id) (b : Belief Id V)
  | record (i : Id) (b : Belief Id V)
  | skip (i : Id)

/-- A member hears and sends; the others stay as they are. -/
structure Turn (members : List Id) (n n' : Network Id V) (i : Id)
    (heard sent : List (Belief Id V)) : Prop where
  member : i ∈ members
  away : ∀ j, j ≠ i → n'.peers j = n.peers j
  sends : (n'.peers i).sent = (n.peers i).sent ++ sent
  kept : ∀ j b, n.pending j b → (j = i ∧ b ∈ heard) ∨ n'.pending j b
  arrives : ∀ b ∈ sent, ∀ j ∈ members, j ≠ i → n'.pending j b

/-- What is not heard in a turn still is on its way. -/
theorem Turn.waits {members : List Id} {n n' : Network Id V} {i j : Id} {b : Belief Id V}
    {sent : List (Belief Id V)} (turn : Turn members n n' i [] sent) (pending : n.pending j b) :
    n'.pending j b :=
  (turn.kept j b pending).resolve_left fun ⟨_, heard⟩ => nomatch heard

/-- What is sent in a turn has been sent. -/
theorem Turn.has {members : List Id} {n n' : Network Id V} {i : Id} {b : Belief Id V}
    {heard : List (Belief Id V)} (turn : Turn members n n' i heard [b]) :
    b ∈ (n'.peers i).sent := by
  rw [turn.sends]
  exact List.mem_append_right _ (List.mem_singleton_self b)

variable [LinearOrder Id]

/-- A decision has the time of the clock and is sent with the next one; an answer is sent with
the time of the clock once it has caught up. -/
inductive Step (members : List Id) (n : Network Id V) : Act Id V → Network Id V → Prop
  | decide {i : Id} {value : V} {n' : Network Id V}
      (turn : Turn members n n' i [] [⟨i, (n.peers i).time + 1, value⟩])
      (register : (n'.peers i).register =
        some (Register.decide i (n.peers i).time value (n.peers i).register))
      (time : (n.peers i).time + 1 ≤ (n'.peers i).time) : Step members n (.decide i value) n'
  | answer {i : Id} {b : Belief Id V} {n' : Network Id V} (pending : n.pending i b)
      (turn : Turn members n n' i [b] [⟨i, heardTime (n.peers i).time b.age,
        (Register.receive i b (n.peers i).register).own.value⟩])
      (register : (n'.peers i).register = some (Register.receive i b (n.peers i).register))
      (time : heardTime (n.peers i).time b.age ≤ (n'.peers i).time) :
      Step members n (.answer i b) n'
  | record {i : Id} {b : Belief Id V} {n' : Network Id V} (pending : n.pending i b)
      (turn : Turn members n n' i [b] [])
      (register : (n'.peers i).register = some (Register.receive i b (n.peers i).register))
      (time : heardTime (n.peers i).time b.age ≤ (n'.peers i).time) :
      Step members n (.record i b) n'
  | skip {i : Id} {n' : Network Id V} (turn : Turn members n n' i [] [])
      (register : (n'.peers i).register = (n.peers i).register)
      (time : (n.peers i).time ≤ (n'.peers i).time) : Step members n (.skip i) n'

/-- Nothing has been sent with a greater time. -/
def Newest (members : List Id) (n : Network Id V) (b : Belief Id V) : Prop :=
  ∀ i ∈ members, ∀ a ∈ (n.peers i).sent, a.age ≤ b.age

/-- What is sent with this time has this value, and whoever has sent it prefers this value. -/
def Complies (n : Network Id V) (top : Nat) (value : V) : Act Id V → Prop
  | .decide i v => top = (n.peers i).time + 1 → v = value
  | .answer i a => top = heardTime (n.peers i).time a.age →
      Register.Prefers value a (n.peers i).register
  | .record i a => (∃ d ∈ (n.peers i).sent, d.age = top) →
      Register.Prefers value a (n.peers i).register
  | .skip _ => True

/-- The act complies with what has been sent with the greatest time so far. -/
def Uncontested (members : List Id) (n : Network Id V) (act : Act Id V) : Prop :=
  ∀ j ∈ members, ∀ b ∈ (n.peers j).sent, Newest members n b → Complies n b.age b.value act

instance (members : List Id) (n : Network Id V) (b : Belief Id V) :
    Decidable (Newest members n b) :=
  inferInstanceAs (Decidable (∀ i ∈ members, ∀ a ∈ (n.peers i).sent, a.age ≤ b.age))

instance [DecidableEq V] (n : Network Id V) (top : Nat) (value : V) :
    (act : Act Id V) → Decidable (Complies n top value act)
  | .decide i v => inferInstanceAs (Decidable (top = (n.peers i).time + 1 → v = value))
  | .answer i a => inferInstanceAs (Decidable (top = heardTime (n.peers i).time a.age →
      Register.Prefers value a (n.peers i).register))
  | .record i a => inferInstanceAs (Decidable ((∃ d ∈ (n.peers i).sent, d.age = top) →
      Register.Prefers value a (n.peers i).register))
  | .skip _ => isTrue trivial

instance [DecidableEq V] (members : List Id) (n : Network Id V) (act : Act Id V) :
    Decidable (Uncontested members n act) :=
  inferInstanceAs (Decidable (∀ j ∈ members, ∀ b ∈ (n.peers j).sent,
    Newest members n b → Complies n b.age b.value act))

end Steps

section Agreement

variable {members : List Id} {n n' : Network Id V}

/-- What is on its way has been sent by another member. -/
structure Sourced (members : List Id) (n : Network Id V) : Prop where
  steady : ∀ i ∈ members, Steady i (n.peers i)
  pending : ∀ i b, n.pending i b → b.id ≠ i ∧ ∃ j ∈ members, b ∈ (n.peers j).sent

/-- The member holds the value, with this time or having sent something with this time. -/
def Convinced (p : Peer Id V) (top : Nat) (value : V) : Prop :=
  ∃ r, p.register = some r ∧ r.own.value = value ∧ (r.own.age = top ∨ ∃ b ∈ p.sent, b.age = top)

/-- A belief is not newer than this time, and has the value if it is as new. -/
def Under (top : Nat) (value : V) (b : Belief Id V) : Prop :=
  b.age ≤ top ∧ (b.age = top → b.value = value)

theorem Under.of_lt {top : Nat} {value : V} {b : Belief Id V} (less : b.age < top) :
    Under top value b :=
  ⟨less.le, fun equal => absurd equal less.ne⟩

/-- One value has the greatest time, and every member is convinced of it or about to hear it. -/
structure Leads (members : List Id) (n : Network Id V) (top : Nat) (value : V) : Prop where
  attained : ∃ i ∈ members, ∃ b ∈ (n.peers i).sent, b.age = top
  sent : ∀ i ∈ members, ∀ b ∈ (n.peers i).sent, Under top value b
  held : ∀ i ∈ members, ∀ r, (n.peers i).register = some r → ∀ b ∈ r.beliefs, Under top value b
  settled : ∀ i ∈ members, Convinced (n.peers i) top value ∨ ∃ b, n.pending i b ∧ b.age = top

/-- Nobody knows anything yet, or one value leads. -/
def Agreed (members : List Id) (n : Network Id V) : Prop :=
  (∀ i ∈ members, (n.peers i).register = none ∧ (n.peers i).sent = []) ∨
    ∃ top value, Leads members n top value

/-- With nothing on its way, all members that know of the matter hold one value. -/
theorem Agreed.at_rest (agreed : Agreed members n) (rest : ∀ i b, ¬ n.pending i b) :
    ∀ i ∈ members, ∀ j ∈ members, ∀ r r', (n.peers i).register = some r →
      (n.peers j).register = some r' → r.own.value = r'.own.value := by
  intro i member j member' r r' known known'
  rcases agreed with unknown | ⟨top, value, leads⟩
  · rw [(unknown i member).1] at known
    cases known
  · have holds : ∀ i ∈ members, ∀ r, (n.peers i).register = some r → r.own.value = value := by
      intro i member r known
      rcases leads.settled i member with ⟨r', same, convinced, -⟩ | ⟨b, pending, -⟩
      · exact Option.some.inj (known.symm.trans same) ▸ convinced
      · exact absurd pending (rest i b)
    rw [holds i member r known, holds j member' r' known']

/-- A belief that is sent with a greater time than all before takes the lead. -/
theorem leads_of_newest {i : Id} {b : Belief Id V} {heard : List (Belief Id V)}
    (turn : Turn members n n' i heard [b])
    (sent : ∀ j ∈ members, ∀ a ∈ (n.peers j).sent, a.age < b.age)
    (held : ∀ j ∈ members, ∀ r, (n'.peers j).register = some r → ∀ a ∈ r.beliefs, a.age < b.age)
    (own : ∃ r, (n'.peers i).register = some r ∧ r.own.value = b.value) :
    Leads members n' b.age b.value := by
  refine ⟨⟨i, turn.member, b, turn.has, rfl⟩, fun j member a inSent => ?_,
    fun j member r known a inRegister => .of_lt (held j member r known a inRegister),
    fun j member => ?_⟩
  · by_cases here : j = i
    · subst here
      rw [turn.sends] at inSent
      rcases List.mem_append.mp inSent with old | last
      · exact .of_lt (sent j member a old)
      · obtain rfl := List.mem_singleton.mp last
        exact ⟨Nat.le_refl _, fun _ => rfl⟩
    · rw [turn.away j here] at inSent
      exact .of_lt (sent j member a inSent)
  · by_cases here : j = i
    · subst here
      obtain ⟨r, known, value⟩ := own
      exact .inl ⟨r, known, value, .inr ⟨b, turn.has, rfl⟩⟩
    · exact .inr ⟨b, turn.arrives b (List.mem_singleton_self b) j member here, rfl⟩

/-- A turn after which the member still is convinced or about to hear. -/
theorem Leads.stays {i : Id} {top : Nat} {value : V} {heard sent : List (Belief Id V)}
    (leads : Leads members n top value) (turn : Turn members n n' i heard sent)
    (sends : ∀ b ∈ sent, Under top value b)
    (held : ∀ r, (n'.peers i).register = some r → ∀ b ∈ r.beliefs, Under top value b)
    (settled : Convinced (n'.peers i) top value ∨ ∃ b, n'.pending i b ∧ b.age = top) :
    Leads members n' top value := by
  refine ⟨?_, fun j member b inSent => ?_, fun j member => ?_, fun j member => ?_⟩
  · obtain ⟨j, member, b, inSent, age⟩ := leads.attained
    refine ⟨j, member, b, ?_, age⟩
    by_cases here : j = i
    · subst here
      rw [turn.sends]
      exact List.mem_append_left _ inSent
    · rwa [turn.away j here]
  · by_cases here : j = i
    · subst here
      rw [turn.sends] at inSent
      rcases List.mem_append.mp inSent with old | new
      · exact leads.sent j member b old
      · exact sends b new
    · rw [turn.away j here] at inSent
      exact leads.sent j member b inSent
  · by_cases here : j = i
    · subst here
      exact held
    · rw [turn.away j here]
      exact leads.held j member
  · by_cases here : j = i
    · subst here
      exact settled
    · rw [turn.away j here]
      refine (leads.settled j member).imp_right fun ⟨b, pending, age⟩ => ⟨b, ?_, age⟩
      exact (turn.kept j b pending).resolve_left fun ⟨same, _⟩ => here same

section Acts

variable {i : Id} {top : Nat} {value : V}

/-- A member whose clock is behind the greatest time has yet to hear it. -/
theorem Leads.awaits (leads : Leads members n top value) (steady : Steady i (n.peers i))
    (member : i ∈ members) (behind : (n.peers i).time < top) :
    ∃ b, n.pending i b ∧ b.age = top := by
  refine (leads.settled i member).resolve_left ?_
  rintro ⟨r, known, -, age | ⟨b, inSent, age⟩⟩
  · have le := steady.current r known
    omega
  · have le := steady.stamped b inSent
    omega

/-- No belief is ahead of a decision. -/
theorem beliefs_decide {p : Peer Id V} (steady : Steady i p) {v : V} :
    ∀ a ∈ (Register.decide i p.time v p.register).beliefs, a.age ≤ p.time := by
  cases known : p.register with
  | none =>
    intro a member
    rw [List.mem_singleton.mp member]
    exact Nat.le_refl _
  | some r =>
    intro a member
    rcases List.mem_cons.mp member with rfl | record
    · exact Nat.le_refl _
    · exact steady.within known a (List.mem_cons_of_mem _ record)

variable [LinearOrder Id]

/-- The next act complies with the value that has been sent with the greatest time. -/
theorem Leads.complies {act : Act Id V} (leads : Leads members n top value)
    (uncontested : Uncontested members n act) : Complies n top value act := by
  obtain ⟨j, member, b, inSent, rfl⟩ := leads.attained
  have same : b.value = value := (leads.sent j member b inSent).2 rfl
  have newest : Newest members n b := fun k member' a sent => (leads.sent k member' a sent).1
  exact same ▸ uncontested j member b inSent newest

/-- A decision. -/
theorem Agreed.decides {v : V} (steady : Steady i (n.peers i)) (agreed : Agreed members n)
    (uncontested : Uncontested members n (.decide i v))
    (turn : Turn members n n' i [] [⟨i, (n.peers i).time + 1, v⟩])
    (register : (n'.peers i).register =
      some (Register.decide i (n.peers i).time v (n.peers i).register)) : Agreed members n' := by
  have own : (Register.decide i (n.peers i).time v (n.peers i).register).own.value = v := by
    cases (n.peers i).register <;> rfl
  have held : ∀ r, (n'.peers i).register = some r →
      ∀ a ∈ r.beliefs, a.age < (n.peers i).time + 1 := by
    intro r known a member
    rw [register] at known
    obtain rfl := Option.some.inj known
    exact Nat.lt_succ_of_le (beliefs_decide steady a member)
  -- all others are behind
  have leading : (∀ j ∈ members, ∀ a ∈ (n.peers j).sent, a.age < (n.peers i).time + 1) →
      (∀ j ∈ members, ∀ r, (n.peers j).register = some r → ∀ a ∈ r.beliefs,
        a.age < (n.peers i).time + 1) → Agreed members n' := by
    intro sent before
    refine .inr ⟨_, _, leads_of_newest turn sent (fun j member => ?_) ⟨_, register, own⟩⟩
    by_cases here : j = i
    · exact here ▸ held
    · rw [turn.away j here]
      exact before j member
  rcases agreed with unknown | ⟨top, value, leads⟩
  · refine leading (fun j member a inSent => ?_) fun j member r known => ?_
    · rw [(unknown j member).2] at inSent
      cases inSent
    · rw [(unknown j member).1] at known
      cases known
  · rcases Nat.lt_trichotomy top ((n.peers i).time + 1) with behind | equal | ahead
    · exact leading (fun j member a inSent => (leads.sent j member a inSent).1.trans_lt behind)
        fun j member r known a inRegister =>
          (leads.held j member r known a inRegister).1.trans_lt behind
    · have agrees : v = value := leads.complies uncontested equal
      refine .inr ⟨top, value, leads.stays turn (fun b last => ?_)
        (fun r known a member => .of_lt (equal ▸ held r known a member))
        (.inl ⟨_, register, own.trans agrees, .inr ⟨_, turn.has, equal.symm⟩⟩)⟩
      rw [List.mem_singleton.mp last]
      exact ⟨equal.ge, fun _ => agrees⟩
    · refine .inr ⟨top, value, leads.stays turn (fun b last => ?_)
        (fun r known a member => .of_lt ((held r known a member).trans ahead)) (.inr ?_)⟩
      · rw [List.mem_singleton.mp last]
        exact .of_lt ahead
      · obtain ⟨b, pending, age⟩ := leads.awaits steady turn.member (by omega)
        exact ⟨b, turn.waits pending, age⟩

/-- What a member believes after a report is as old as before, or as the report. -/
theorem Leads.hears {b : Belief Id V} (leads : Leads members n top value) (member : i ∈ members)
    (under : Under top value b)
    (register : (n'.peers i).register = some (Register.receive i b (n.peers i).register)) :
    ∀ r, (n'.peers i).register = some r → ∀ a ∈ r.beliefs, Under top value a := by
  intro r known a inRegister
  rw [register] at known
  obtain rfl := Option.some.inj known
  obtain ⟨d, source, age, same⟩ := beliefs_receive inRegister
  have before : Under top value d := by
    rcases source with rfl | ⟨r, known, inRecords⟩
    · exact under
    · exact leads.held i member r known d inRecords
  exact ⟨age ▸ before.1, fun equal => same.trans (before.2 (age ▸ equal))⟩

/-- A decision of another member, and the answer. -/
theorem Agreed.answers {b : Belief Id V} (sourced : Sourced members n) (agreed : Agreed members n)
    (uncontested : Uncontested members n (.answer i b)) (pending : n.pending i b)
    (turn : Turn members n n' i [b] [⟨i, heardTime (n.peers i).time b.age,
      (Register.receive i b (n.peers i).register).own.value⟩])
    (register : (n'.peers i).register = some (Register.receive i b (n.peers i).register)) :
    Agreed members n' := by
  have steady := sourced.steady i turn.member
  obtain ⟨other, j, source, inSent⟩ := sourced.pending i b pending
  rcases agreed with unknown | ⟨top, value, leads⟩
  · rw [(unknown j source).2] at inSent
    cases inSent
  · have under := leads.hears turn.member (leads.sent j source b inSent) register
    rcases Nat.lt_trichotomy top (heardTime (n.peers i).time b.age) with behind | equal | ahead
    · refine .inr ⟨_, _, leads_of_newest turn
        (fun j member a inSent => (leads.sent j member a inSent).1.trans_lt behind)
        (fun j member r known a inRegister => ?_) ⟨_, register, rfl⟩⟩
      by_cases here : j = i
      · subst here
        exact (under r known a inRegister).1.trans_lt behind
      · rw [turn.away j here] at known
        exact (leads.held j member r known a inRegister).1.trans_lt behind
    · have agrees : (Register.receive i b (n.peers i).register).own.value = value :=
        (Register.receive_prefers_iff steady.sound other).mpr (leads.complies uncontested equal)
      refine .inr ⟨top, value, leads.stays turn (fun a last => ?_) under
        (.inl ⟨_, register, agrees, .inr ⟨_, turn.has, equal.symm⟩⟩)⟩
      rw [List.mem_singleton.mp last]
      exact ⟨equal.ge, fun _ => agrees⟩
    · refine .inr ⟨top, value, leads.stays turn (fun a last => ?_) under (.inr ?_)⟩
      · rw [List.mem_singleton.mp last]
        exact .of_lt ahead
      · obtain ⟨d, waits, age⟩ := leads.awaits steady turn.member
          ((le_heardTime _ _).trans_lt ahead)
        refine ⟨d, (turn.kept i d waits).resolve_left fun ⟨_, heard⟩ => ?_, age⟩
        -- what is answered is not the newest
        have seen := seen_le_heardTime (n.peers i).time b.age
        rw [List.mem_singleton.mp heard] at age
        omega

/-- An answer of another member. -/
theorem Agreed.records {b : Belief Id V} (sourced : Sourced members n) (agreed : Agreed members n)
    (uncontested : Uncontested members n (.record i b)) (pending : n.pending i b)
    (turn : Turn members n n' i [b] [])
    (register : (n'.peers i).register = some (Register.receive i b (n.peers i).register)) :
    Agreed members n' := by
  have steady := sourced.steady i turn.member
  obtain ⟨other, j, source, inSent⟩ := sourced.pending i b pending
  rcases agreed with unknown | ⟨top, value, leads⟩
  · rw [(unknown j source).2] at inSent
    cases inSent
  · have under := leads.hears turn.member (leads.sent j source b inSent) register
    -- an own belief with the greatest time is convinced
    have reached : top ≤ (Register.receive i b (n.peers i).register).own.age →
        Convinced (n'.peers i) top value := by
      intro le
      obtain ⟨ge, names⟩ := under _ register _ List.mem_cons_self
      have equal := Nat.le_antisymm ge le
      exact ⟨_, register, names equal, .inl equal⟩
    refine .inr ⟨top, value, leads.stays turn (fun a none => nomatch none) under ?_⟩
    rcases leads.settled i turn.member with ⟨r, known, -, age | sent⟩ | ⟨d, waits, age⟩
    · refine .inl (reached ?_)
      rw [known, ← age]
      exact Register.own_le_receive i b r
    · refine .inl ⟨_, register, ?_, .inr ?_⟩
      · exact (Register.receive_prefers_iff steady.sound other).mpr
          (leads.complies uncontested sent)
      · rwa [turn.sends, List.append_nil]
    · rcases turn.kept i d waits with ⟨-, heard⟩ | still
      · refine .inl (reached ?_)
        rw [← age, List.mem_singleton.mp heard]
        exact Register.age_le_receive steady.ahead
      · exact .inr ⟨d, still, age⟩

theorem Agreed.skips (agreed : Agreed members n) (turn : Turn members n n' i [] [])
    (register : (n'.peers i).register = (n.peers i).register) : Agreed members n' := by
  have sends : (n'.peers i).sent = (n.peers i).sent := by rw [turn.sends, List.append_nil]
  rcases agreed with unknown | ⟨top, value, leads⟩
  · refine .inl fun j member => ?_
    by_cases here : j = i
    · subst here
      rw [register, sends]
      exact unknown j member
    · rw [turn.away j here]
      exact unknown j member
  · refine .inr ⟨top, value, leads.stays turn (fun a none => nomatch none)
      (register ▸ leads.held i turn.member) ?_⟩
    refine (leads.settled i turn.member).imp ?_ fun ⟨b, waits, age⟩ =>
      ⟨b, turn.waits waits, age⟩
    unfold Convinced
    rw [register, sends]
    exact id

/-- An uncontested step keeps the agreement. -/
theorem Agreed.step {act : Act Id V} (sourced : Sourced members n) (agreed : Agreed members n)
    (uncontested : Uncontested members n act) (step : Step members n act n') :
    Agreed members n' := by
  cases step with
  | decide turn register =>
    exact agreed.decides (sourced.steady _ turn.member) uncontested turn register
  | answer pending turn register => exact agreed.answers sourced uncontested pending turn register
  | record pending turn register => exact agreed.records sourced uncontested pending turn register
  | skip turn register => exact agreed.skips turn register

/-- Every step keeps the members steady. -/
theorem Step.steady {act : Act Id V} (sourced : Sourced members n) (step : Step members n act n') :
    ∀ j ∈ members, Steady j (n'.peers j) := by
  have others : ∀ {i heard sent}, Turn members n n' i heard sent → Steady i (n'.peers i) →
      ∀ j ∈ members, Steady j (n'.peers j) := by
    intro i heard sent turn here j member
    by_cases same : j = i
    · exact same ▸ here
    · rw [turn.away j same]
      exact sourced.steady j member
  cases step with
  | decide turn register time =>
    exact others turn ((sourced.steady _ turn.member).decides register turn.sends time)
  | answer pending turn register time =>
    refine others turn ((sourced.steady _ turn.member).hears (sourced.pending _ _ pending).1
      register turn.sends (fun a last => ?_) time)
    rw [List.mem_singleton.mp last]
    exact time
  | record pending turn register time =>
    exact others turn ((sourced.steady _ turn.member).hears (sourced.pending _ _ pending).1
      register turn.sends (fun a none => nomatch none) time)
  | skip turn register time =>
    exact others turn ((sourced.steady _ turn.member).skips register
      (by rw [turn.sends, List.append_nil]) time)

end Acts

end Agreement

end Network

end CaceProofs.Library
