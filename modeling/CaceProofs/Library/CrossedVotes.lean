import CaceProofs.Library.BeliefRegister

/-!
# Votes that cross

Members report whom they believe to hold a resource. One that believes in itself stands for it,
and holds it as soon as the others are on record with votes for it. Two members can only come to
hold it if they stand while each has, or is still to record, a vote of the other.
-/
namespace CaceProofs.Library

section Records

variable {Id V : Type} [LinearOrder Id] {a b d : Belief Id V} {records records' : List (Belief Id V)}

/-- A report is recorded if its sender has no record, or an older one. -/
theorem recordReport_isSome : (recordReport d records).isSome = true ↔
    ((∃ a ∈ records, a.id = d.id) → ∃ a ∈ records, a.id = d.id ∧ a.age < d.age) := by
  unfold recordReport
  split
  next known =>
    have sender : ∃ a ∈ records, a.id = d.id := by simpa using known
    split
    next older => simpa [sender] using older
    next current => simpa [sender] using current
  next unknown =>
    have none : ¬ ∃ a ∈ records, a.id = d.id := by simpa using unknown
    simp [none]

/-- What is recorded later would have been recorded before. -/
theorem recordReport_earlier (success : recordReport b records = some records')
    (later : (recordReport d records').isSome = true) : (recordReport d records).isSome = true := by
  rw [recordReport_isSome] at later ⊢
  rintro ⟨a, member, sender⟩
  obtain ⟨a', member', same, -⟩ := recordReport_covers success member
  obtain ⟨e, inRecords, holder, less⟩ := later ⟨a', member', same.trans sender⟩
  rcases mem_recordReport success inRecords with rfl | old
  · obtain ⟨e', old, sender', less'⟩ := recordReport_isSome.mp
      (by rw [success]; rfl) ⟨a, member, sender.trans holder.symm⟩
    exact ⟨e', old, sender'.trans holder, less'.trans less⟩
  · exact ⟨e, old, holder, less⟩

/-- What an unknown or a known register has on record. -/
def Register.recorded : Option (Register Id V) → List (Belief Id V)
  | some r => r.records
  | none => []

theorem Register.receive_recorded (owner : Id) (b : Belief Id V) (old : Option (Register Id V)) :
    (Register.receive owner b old).records =
      (recordReport b (Register.recorded old)).getD (Register.recorded old) := by
  cases old with
  | none => rfl
  | some r =>
    rcases Register.receive_cases owner b r with ⟨stale, same⟩ | ⟨records, success, taken⟩
    · rw [same]
      simp only [recorded, stale, Option.getD_none]
    · rw [taken]
      simp only [recorded, success, Option.getD_some]
      rfl

omit [LinearOrder Id] in
theorem Register.decide_recorded (owner : Id) (age : Nat) (value : V)
    (old : Option (Register Id V)) :
    (Register.decide owner age value old).records = Register.recorded old := by
  cases old <;> rfl

end Records

/-- The registers of the members, and the reports on their way to each of them. -/
structure Poll (Id V : Type) where
  register : Id → Option (Register Id V)
  pending : Id → List (Belief Id V)

namespace Poll

variable {Id V : Type} [LinearOrder Id] (holder : V → Id)

/-- The reports that a member has on record, and those that it would still record. -/
def votes (p : Poll Id V) (i : Id) : List (Belief Id V) :=
  Register.recorded (p.register i) ++
    (p.pending i).filter fun b => (recordReport b (Register.recorded (p.register i))).isSome

/-- Member `k` has voted for member `i`. -/
def Backs (p : Poll Id V) (k i : Id) : Prop :=
  ∃ b ∈ p.votes i, b.id = k ∧ holder b.value = i

/-- The member believes in itself. -/
def Stands (p : Poll Id V) (i : Id) : Prop :=
  ∃ r ∈ p.register i, holder r.own.value = i

/-- Both believe in themselves, and have voted for each other. -/
structure Crossed (p : Poll Id V) (i k : Id) : Prop where
  stands : p.Stands holder i
  opposed : p.Stands holder k
  backed : p.Backs holder k i
  backs : p.Backs holder i k

/-- No other member that believes in itself and this one have voted for each other. -/
def Unopposed (p : Poll Id V) (members : List Id) (i : Id) : Prop :=
  ∀ k ∈ members, k ≠ i → p.Stands holder k → ¬ (p.Backs holder k i ∧ p.Backs holder i k)

/-- The member believes in itself, with votes of all the others on record. -/
def Holds (p : Poll Id V) (members : List Id) (i : Id) : Prop :=
  ∃ r ∈ p.register i, holder r.own.value = i ∧
    ∀ k ∈ members, k ≠ i → ∃ b ∈ r.records, b.id = k ∧ holder b.value = i

/-- Once the report is on record, a belief in the member ranks highest. -/
def Elects (i : Id) (b : Belief Id V) : Option (Register Id V) → Prop
  | none => holder b.value = i
  | some r =>
    match recordReport b r.records with
    | none => holder r.own.value = i
    | some records =>
      ∃ d ∈ r.own :: records, holder d.value = i ∧ ∀ a ∈ r.own :: records, a.rank ≤ d.rank

instance (p : Poll Id V) (k i : Id) : Decidable (p.Backs holder k i) :=
  inferInstanceAs (Decidable (∃ b ∈ p.votes i, b.id = k ∧ holder b.value = i))

instance (p : Poll Id V) (i : Id) : Decidable (p.Stands holder i) :=
  inferInstanceAs (Decidable (∃ r ∈ p.register i, holder r.own.value = i))

instance (p : Poll Id V) (members : List Id) (i : Id) :
    Decidable (p.Unopposed holder members i) :=
  inferInstanceAs (Decidable (∀ k ∈ members, k ≠ i → p.Stands holder k →
    ¬ (p.Backs holder k i ∧ p.Backs holder i k)))

instance (i : Id) (b : Belief Id V) :
    (old : Option (Register Id V)) → Decidable (Elects holder i b old)
  | none => inferInstanceAs (Decidable (holder b.value = i))
  | some r =>
    match found : recordReport b r.records with
    | none => decidable_of_iff (holder r.own.value = i) (by simp only [Elects, found])
    | some records =>
      decidable_of_iff
        (∃ d ∈ r.own :: records, holder d.value = i ∧ ∀ a ∈ r.own :: records, a.rank ≤ d.rank)
        (by simp only [Elects, found])

/-- A member decides, records a report or does neither; what it says is what it believes then. -/
structure Turn (p p' : Poll Id V) (i : Id) : Prop where
  away : ∀ j, j ≠ i → p'.register j = p.register j
  register : p'.register i = p.register i ∨
    (∃ age value, p'.register i = some (Register.decide i age value (p.register i))) ∨
    ∃ b ∈ p.pending i, p'.register i = some (Register.receive i b (p.register i))
  pending : ∀ j, ∀ b ∈ p'.pending j, b ∈ p.pending j ∨
    j ≠ i ∧ b.id = i ∧ ∃ r ∈ p'.register i, r.own.value = b.value

variable {holder} {p p' : Poll Id V} {i : Id}

/-- A member that believes in itself after a report has been elected by it. -/
theorem elects_of_receive {b : Belief Id V} {old : Option (Register Id V)}
    (stands : holder (Register.receive i b old).own.value = i) : Elects holder i b old := by
  cases old with
  | none => exact stands
  | some r =>
    rcases Register.receive_cases i b r with ⟨stale, same⟩ | ⟨records, success, taken⟩
    · rw [same] at stands
      simpa only [Elects, stale] using stands
    · rw [taken, Register.adopt_value] at stands
      simp only [Elects, success]
      exact ⟨_, Register.leader_mem { r with records := records }, stands,
        Register.le_leader { r with records := records }⟩

/-- With records that only one pending report has changed, no vote is new. -/
theorem votes_receive {b d : Belief Id V} (inVotes : d ∈ p'.votes i)
    (pending : ∀ b ∈ p'.pending i, b ∈ p.pending i) (reported : b ∈ p.pending i)
    (register : p'.register i = some (Register.receive i b (p.register i))) : d ∈ p.votes i := by
  have records : Register.recorded (p'.register i) =
      (recordReport b (Register.recorded (p.register i))).getD
        (Register.recorded (p.register i)) := by
    rw [register]
    exact Register.receive_recorded i b (p.register i)
  unfold votes at inVotes ⊢
  rw [records] at inVotes
  cases success : recordReport b (Register.recorded (p.register i)) with
  | none =>
    rw [success, Option.getD_none] at inVotes
    refine (List.mem_append.mp inVotes).elim (List.mem_append_left _) fun waits => ?_
    obtain ⟨sent, news⟩ := List.mem_filter.mp waits
    exact List.mem_append_right _ (List.mem_filter.mpr ⟨pending d sent, news⟩)
  | some records =>
    rw [success, Option.getD_some] at inVotes
    rcases List.mem_append.mp inVotes with inRecords | waits
    · rcases mem_recordReport success inRecords with rfl | old
      · exact List.mem_append_right _ (List.mem_filter.mpr ⟨reported, by rw [success]; rfl⟩)
      · exact List.mem_append_left _ old
    · obtain ⟨sent, news⟩ := List.mem_filter.mp waits
      exact List.mem_append_right _
        (List.mem_filter.mpr ⟨pending d sent, recordReport_earlier success news⟩)

/-- A vote that is new after a turn has been sent in it. -/
theorem Turn.votes (turn : Turn p p' i) {j : Id} {d : Belief Id V} (inVotes : d ∈ p'.votes j) :
    d ∈ p.votes j ∨ j ≠ i ∧ d.id = i ∧ ∃ r ∈ p'.register i, r.own.value = d.value := by
  have kept : Register.recorded (p'.register j) = Register.recorded (p.register j) →
      d ∈ p.votes j ∨ j ≠ i ∧ d.id = i ∧ ∃ r ∈ p'.register i, r.own.value = d.value := by
    intro same
    unfold Poll.votes at inVotes ⊢
    rw [same] at inVotes
    rcases List.mem_append.mp inVotes with inRecords | waits
    · exact .inl (List.mem_append_left _ inRecords)
    · obtain ⟨sent, news⟩ := List.mem_filter.mp waits
      refine (turn.pending j d sent).imp_left fun old => ?_
      exact List.mem_append_right _ (List.mem_filter.mpr ⟨old, news⟩)
  by_cases here : j = i
  · subst here
    rcases turn.register with same | ⟨age, value, decided⟩ | ⟨b, reported, received⟩
    · exact kept (by rw [same])
    · refine kept ?_
      rw [decided]
      exact Register.decide_recorded j age value (p.register j)
    · refine .inl (votes_receive inVotes (fun b sent => ?_) reported received)
      exact (turn.pending j b sent).resolve_right fun new => new.1 rfl
  · exact kept (by rw [turn.away j here])

/-- Who believes in itself votes for nobody else. -/
theorem Turn.backs (turn : Turn p p' i) {j k : Id} (other : j ≠ k) (stands : p'.Stands holder k)
    (backs : p'.Backs holder k j) : p.Backs holder k j := by
  obtain ⟨d, inVotes, rfl, names⟩ := backs
  rcases turn.votes inVotes with old | ⟨-, here, r, known, value⟩
  · exact ⟨d, old, rfl, names⟩
  · obtain ⟨r', known', own⟩ := stands
    rw [here] at known' own
    obtain rfl := Option.some.inj (known.symm.trans known')
    rw [value, names] at own
    exact absurd (own.trans here.symm) other

/-- As long as no member comes to stand where crossing votes oppose it, no two are crossed. -/
theorem Turn.uncrossed {members : List Id} (turn : Turn p p' i)
    (unopposed : p'.Stands holder i → ¬ p.Stands holder i → p.Unopposed holder members i)
    (before : ∀ j ∈ members, ∀ k ∈ members, j ≠ k → ¬ p.Crossed holder j k) :
    ∀ j ∈ members, ∀ k ∈ members, j ≠ k → ¬ p'.Crossed holder j k := by
  intro j member k member' other crossed
  have backed := turn.backs other crossed.opposed crossed.backed
  have backs := turn.backs other.symm crossed.stands crossed.backs
  have earlier : ∀ l, l ≠ i → p'.Stands holder l → p.Stands holder l := by
    rintro l away ⟨r, known, own⟩
    exact ⟨r, turn.away l away ▸ known, own⟩
  by_cases first : j = i
  · subst first
    have opposed := earlier k other.symm crossed.opposed
    by_cases stood : p.Stands holder j
    · exact before j member k member' other ⟨stood, opposed, backed, backs⟩
    · exact unopposed crossed.stands stood k member' other.symm opposed ⟨backed, backs⟩
  · have stands := earlier j first crossed.stands
    by_cases second : k = i
    · subst second
      by_cases stood : p.Stands holder k
      · exact before j member k member' other ⟨stands, stood, backed, backs⟩
      · exact unopposed crossed.opposed stood j member other stands ⟨backs, backed⟩
    · exact before j member k member' other
        ⟨stands, earlier k second crossed.opposed, backed, backs⟩

/-- Where no two members are crossed, at most one of them holds the resource. -/
theorem Holds.unique {members : List Id} {j k : Id} (holds : p.Holds holder members j)
    (holds' : p.Holds holder members k) (member : j ∈ members) (member' : k ∈ members)
    (apart : j ≠ k → ¬ p.Crossed holder j k) : j = k := by
  by_contra other
  have backs : ∀ {i l : Id}, p.Holds holder members i → l ∈ members → l ≠ i →
      p.Backs holder l i := by
    rintro i l ⟨r, known, -, votes⟩ member away
    obtain ⟨b, inRecords, holds⟩ := votes l member away
    refine ⟨b, List.mem_append_left _ ?_, holds⟩
    rw [Option.mem_def.mp known]
    exact inRecords
  refine apart other ⟨?_, ?_, backs holds member' (Ne.symm other), backs holds' member other⟩
  · obtain ⟨r, known, own, -⟩ := holds
    exact ⟨r, known, own⟩
  · obtain ⟨r, known, own, -⟩ := holds'
    exact ⟨r, known, own⟩

end Poll

end CaceProofs.Library
