import Mathlib.Data.Prod.Lex
import Mathlib.Data.Int.Order.Basic
import Mathlib.Data.List.Nodup

/-!
# Registers of beliefs

A participant keeps its own belief about a value and one record for each other
participant it has heard of. A belief ranks by its age and then by its holder. A
strictly newer report replaces the record of its sender, and then the owner adopts the
age and the value of the greatest belief it has, but stays the holder of its own.
-/
namespace CaceProofs.Library

section Champion

variable {α β : Type} [LinearOrder β] (rank : α → β)

/-- The greatest of `best` and a list; among equals the latest. -/
def champion (best : α) (l : List α) : α :=
  l.foldl (fun best a => if rank a < rank best then best else a) best

theorem champion_mem (best : α) (l : List α) : champion rank best l ∈ best :: l := by
  induction l generalizing best with
  | nil => exact List.mem_singleton_self best
  | cons a l ih =>
    have next := ih (if rank a < rank best then best else a)
    unfold champion at next ⊢
    simp only [List.foldl_cons, List.mem_cons] at next ⊢
    rcases next with here | later
    · rw [here]
      split
      · exact .inl rfl
      · exact .inr (.inl rfl)
    · exact .inr (.inr later)

theorem le_champion (best : α) (l : List α) :
    ∀ a ∈ best :: l, rank a ≤ rank (champion rank best l) := by
  induction l generalizing best with
  | nil =>
    intro a member
    rw [List.mem_singleton.mp member]
    exact le_refl _
  | cons b l ih =>
    have next := ih (if rank b < rank best then best else b)
    have below : ∀ a, rank a ≤ rank (if rank b < rank best then best else b) →
        rank a ≤ rank (champion rank best (b :: l)) :=
      fun a le => le_trans le (next _ List.mem_cons_self)
    intro a member
    rcases List.mem_cons.mp member with rfl | member
    · refine below a ?_
      split
      · exact le_refl _
      next notBelow => exact not_lt.mp notBelow
    · rcases List.mem_cons.mp member with rfl | later
      · refine below a ?_
        split
        next less => exact le_of_lt less
        next => exact le_refl _
      · exact next a (List.mem_cons_of_mem _ later)

end Champion

structure Belief (Id V : Type) where
  id : Id
  age : Nat
  value : V
  deriving DecidableEq, Repr

structure Register (Id V : Type) where
  own : Belief Id V
  records : List (Belief Id V)
  deriving DecidableEq, Repr

variable {Id V : Type} [LinearOrder Id]

/-- The age first, the holder among equally old. -/
def Belief.rank (b : Belief Id V) : Nat ×ₗ Id := toLex (b.age, b.id)

theorem Belief.rank_le {b c : Belief Id V} :
    b.rank ≤ c.rank ↔ b.age < c.age ∨ (b.age = c.age ∧ b.id ≤ c.id) :=
  Prod.Lex.toLex_le_toLex

theorem Belief.rank_lt {b c : Belief Id V} :
    b.rank < c.rank ↔ b.age < c.age ∨ (b.age = c.age ∧ b.id < c.id) :=
  Prod.Lex.toLex_lt_toLex

theorem Belief.age_le_of_rank_le {b c : Belief Id V} (le : b.rank ≤ c.rank) : b.age ≤ c.age := by
  rcases Belief.rank_le.mp le with less | ⟨equal, -⟩ <;> omega

/-- The records after a report; `none` where the sender's record is not older. -/
def recordReport (b : Belief Id V) (records : List (Belief Id V)) :
    Option (List (Belief Id V)) :=
  if records.any fun a => a.id == b.id then
    if records.any fun a => a.id == b.id && decide (a.age < b.age) then
      some (records.map fun a => if a.id = b.id ∧ a.age < b.age then b else a)
    else none
  else some (records ++ [b])

namespace Register

/-- The beliefs at hand. -/
def beliefs (r : Register Id V) : List (Belief Id V) :=
  r.own :: r.records

def leader (r : Register Id V) : Belief Id V :=
  champion Belief.rank r.own r.records

/-- Age and value of the greatest belief become the owner's. -/
def adopt (r : Register Id V) : Register Id V :=
  { r with own := { id := r.own.id, age := r.leader.age, value := r.leader.value } }

/-- A report arrives; the first one creates the register. -/
def receive (owner : Id) (b : Belief Id V) : Option (Register Id V) → Register Id V
  | some r =>
    match recordReport b r.records with
    | some records => { r with records := records }.adopt
    | none => r
  | none => { own := { id := owner, age := b.age, value := b.value }, records := [b] }

/-- The owner makes up its own mind. -/
def decide (owner : Id) (age : Nat) (value : V) : Option (Register Id V) → Register Id V
  | some r => { r with own := { id := r.own.id, age := age, value := value } }
  | none => { own := { id := owner, age := age, value := value }, records := [] }

theorem leader_mem (r : Register Id V) : r.leader ∈ r.beliefs :=
  champion_mem Belief.rank r.own r.records

theorem le_leader (r : Register Id V) : ∀ b ∈ r.beliefs, b.rank ≤ r.leader.rank :=
  le_champion Belief.rank r.own r.records

end Register

section Record

variable {b : Belief Id V} {records records' : List (Belief Id V)}

/-- The records after a report: the report itself and old ones. -/
theorem mem_recordReport (success : recordReport b records = some records') {a : Belief Id V}
    (member : a ∈ records') : a = b ∨ a ∈ records := by
  unfold recordReport at success
  split at success
  · split at success
    · obtain rfl := Option.some.inj success
      obtain ⟨old, oldMember, rfl⟩ := List.mem_map.mp member
      split
      · exact .inl rfl
      · exact .inr oldMember
    · cases success
  · obtain rfl := Option.some.inj success
    rcases List.mem_append.mp member with old | new
    · exact .inr old
    · exact .inl (List.mem_singleton.mp new)

/-- A report that is taken is on record. -/
theorem recordReport_self (success : recordReport b records = some records') : b ∈ records' := by
  unfold recordReport at success
  split at success
  · split at success
    next older =>
      obtain rfl := Option.some.inj success
      obtain ⟨a, member, replaced⟩ := List.any_eq_true.mp older
      refine List.mem_map.mpr ⟨a, member, if_pos ?_⟩
      simpa using replaced
    next => cases success
  · obtain rfl := Option.some.inj success
    simp

/-- A record stays or makes way for a newer one of its sender. -/
theorem recordReport_covers (success : recordReport b records = some records')
    {a : Belief Id V} (member : a ∈ records) :
    ∃ a' ∈ records', a'.id = a.id ∧ a.age ≤ a'.age := by
  unfold recordReport at success
  split at success
  · split at success
    · obtain rfl := Option.some.inj success
      refine ⟨_, List.mem_map_of_mem member, ?_⟩
      split
      next replaced => exact ⟨replaced.1.symm, by omega⟩
      next => exact ⟨rfl, Nat.le_refl _⟩
    · cases success
  · obtain rfl := Option.some.inj success
    exact ⟨a, List.mem_append_left _ member, rfl, Nat.le_refl _⟩

/-- The records of the other senders stay. -/
theorem recordReport_other (success : recordReport b records = some records')
    {a : Belief Id V} (other : a.id ≠ b.id) : a ∈ records' ↔ a ∈ records := by
  unfold recordReport at success
  split at success
  · split at success
    · obtain rfl := Option.some.inj success
      constructor
      · intro member
        obtain ⟨old, oldMember, same⟩ := List.mem_map.mp member
        split at same
        · exact absurd (congrArg Belief.id same.symm) other
        · exact same ▸ oldMember
      · intro member
        exact List.mem_map.mpr ⟨a, member, if_neg fun replaced => other replaced.1⟩
    · cases success
  · obtain rfl := Option.some.inj success
    have different : a ≠ b := fun same => other (congrArg Belief.id same)
    simp [different]

/-- A report that is not taken has a record of its sender that is as new. -/
theorem recordReport_stale (stale : recordReport b records = none) :
    ∃ a ∈ records, a.id = b.id ∧ b.age ≤ a.age := by
  unfold recordReport at stale
  split at stale
  next known =>
    split at stale
    next => cases stale
    next current =>
      obtain ⟨a, member, sender⟩ := List.any_eq_true.mp known
      refine ⟨a, member, by simpa using sender, ?_⟩
      by_contra newer
      exact current (List.any_eq_true.mpr ⟨a, member, by
        simpa using ⟨by simpa using sender, Nat.lt_of_not_le newer⟩⟩)
  next => cases stale

/-- A report older than its sender's record is not taken. -/
theorem recordReport_newer (success : recordReport b records = some records')
    (distinct : (records.map Belief.id).Nodup) {a : Belief Id V} (member : a ∈ records)
    (sender : a.id = b.id) : a.age < b.age := by
  unfold recordReport at success
  split at success
  next =>
    split at success
    next older =>
      obtain ⟨d, inRecords, replaced⟩ := List.any_eq_true.mp older
      obtain ⟨same, less⟩ : d.id = b.id ∧ d.age < b.age := by simpa using replaced
      rwa [List.inj_on_of_nodup_map distinct member inRecords (sender.trans same.symm)]
    next => cases success
  next unknown => exact absurd (List.any_eq_true.mpr ⟨a, member, by simp [sender]⟩) unknown

/-- Recording keeps the senders different. -/
theorem recordReport_distinct
    (success : recordReport b records = some records')
    (distinct : (records.map Belief.id).Nodup) : (records'.map Belief.id).Nodup := by
  unfold recordReport at success
  split at success
  · split at success
    · obtain rfl := Option.some.inj success
      have same : (records.map fun a => if a.id = b.id ∧ a.age < b.age then b else a).map
          Belief.id = records.map Belief.id := by
        rw [List.map_map]
        refine List.map_congr_left fun a _ => ?_
        simp only [Function.comp]
        split
        next replaced => exact replaced.1.symm
        next => rfl
      rw [same]
      exact distinct
    · cases success
  next unknown =>
    obtain rfl := Option.some.inj success
    have absent : b.id ∉ records.map Belief.id := by
      intro member
      obtain ⟨a, inRecords, same⟩ := List.mem_map.mp member
      exact unknown (List.any_eq_true.mpr ⟨a, inRecords, by simp [same]⟩)
    rw [List.map_append]
    exact List.Nodup.append distinct (List.nodup_singleton _) (by simpa using absent)

/-- One record for each sender of a report, as new as its newest report. -/
structure Tallies (reports records : List (Belief Id V)) : Prop where
  distinct : (records.map Belief.id).Nodup
  heard : ∀ r ∈ reports, ∃ a ∈ records, a.id = r.id ∧ r.age ≤ a.age
  known : ∀ a ∈ records, ∃ r ∈ reports, r.id = a.id ∧ a.age ≤ r.age

namespace Tallies

variable {reports : List (Belief Id V)}

omit [LinearOrder Id] in
theorem nil : Tallies ([] : List (Belief Id V)) [] :=
  ⟨List.nodup_nil, by simp, by simp⟩

/-- A report is taken if it is newer than what its sender has reported before. -/
theorem newer (tallies : Tallies reports records)
    (success : recordReport b records = some records') :
    ∀ r ∈ reports, r.id = b.id → r.age < b.age := by
  intro r member sender
  obtain ⟨a, inRecords, same, le⟩ := tallies.heard r member
  have less := recordReport_newer success tallies.distinct inRecords (same.trans sender)
  omega

theorem current (tallies : Tallies reports records) (stale : recordReport b records = none) :
    ∃ r ∈ reports, r.id = b.id ∧ b.age ≤ r.age := by
  obtain ⟨a, inRecords, sender, le⟩ := recordReport_stale stale
  obtain ⟨r, member, same, above⟩ := tallies.known a inRecords
  exact ⟨r, member, same.trans sender, le.trans above⟩

theorem record (tallies : Tallies reports records)
    (success : recordReport b records = some records') : Tallies (reports ++ [b]) records' := by
  refine ⟨recordReport_distinct success tallies.distinct, fun r member => ?_, fun a member => ?_⟩
  · rcases List.mem_append.mp member with old | new
    · obtain ⟨a, inRecords, sender, le⟩ := tallies.heard r old
      obtain ⟨a', inRecords', same, le'⟩ := recordReport_covers success inRecords
      exact ⟨a', inRecords', same.trans sender, le.trans le'⟩
    · rw [List.mem_singleton.mp new]
      exact ⟨b, recordReport_self success, rfl, Nat.le_refl _⟩
  · rcases mem_recordReport success member with rfl | old
    · exact ⟨a, by simp, rfl, Nat.le_refl _⟩
    · obtain ⟨r, inReports, same, le⟩ := tallies.known a old
      exact ⟨r, List.mem_append_left _ inReports, same, le⟩

theorem drop (tallies : Tallies reports records) (stale : recordReport b records = none) :
    Tallies (reports ++ [b]) records := by
  refine ⟨tallies.distinct, fun r member => ?_, fun a member => ?_⟩
  · rcases List.mem_append.mp member with old | new
    · exact tallies.heard r old
    · obtain ⟨a, inRecords, sender, le⟩ := recordReport_stale stale
      rw [List.mem_singleton.mp new]
      exact ⟨a, inRecords, sender, le⟩
  · obtain ⟨r, inReports, same, le⟩ := tallies.known a member
    exact ⟨r, List.mem_append_left _ inReports, same, le⟩

end Tallies

end Record

namespace Register

variable {owner : Id} {b : Belief Id V} {r : Register Id V}

/-- Age and value of the own belief are those of the leader. -/
structure Settled (r : Register Id V) : Prop where
  age : r.own.age = r.leader.age
  value : r.own.value = r.leader.value

theorem Settled.ahead (settled : r.Settled) : ∀ a ∈ r.records, a.age ≤ r.own.age := by
  intro a member
  rw [settled.age]
  exact Belief.age_le_of_rank_le (r.le_leader a (List.mem_cons_of_mem _ member))

@[simp] theorem adopt_id (r : Register Id V) : r.adopt.own.id = r.own.id := rfl

@[simp] theorem adopt_age (r : Register Id V) : r.adopt.own.age = r.leader.age := rfl

@[simp] theorem adopt_value (r : Register Id V) : r.adopt.own.value = r.leader.value := rfl

@[simp] theorem adopt_records (r : Register Id V) : r.adopt.records = r.records := rfl

/-- After adopting, a record that still beats the own belief agrees with it. -/
theorem adopt_settled (distinct : (r.records.map Belief.id).Nodup) : r.adopt.Settled := by
  rcases List.mem_cons.mp r.adopt.leader_mem with own | record
  · exact ⟨congrArg Belief.age own.symm, congrArg Belief.value own.symm⟩
  · have upper : r.adopt.leader.rank ≤ r.leader.rank :=
      r.le_leader _ (List.mem_cons_of_mem _ record)
    rcases List.mem_cons.mp r.leader_mem with own | old
    · have same : r.adopt = r := by
        unfold adopt
        rw [own]
      rw [same] at record upper ⊢
      exact ⟨congrArg Belief.age own.symm, congrArg Belief.value own.symm⟩
    · have lower : r.leader.rank ≤ r.adopt.leader.rank :=
        r.adopt.le_leader _ (List.mem_cons_of_mem _ old)
      have holder : r.leader.id = r.adopt.leader.id :=
        congrArg (fun rank => (ofLex rank).2) (le_antisymm lower upper)
      have same : r.leader = r.adopt.leader :=
        List.inj_on_of_nodup_map distinct old record holder
      exact ⟨by rw [adopt_age, same], by rw [adopt_value, same]⟩

/-- Adopting does not make the own belief older. -/
theorem own_le_adopt (r : Register Id V) : r.own.age ≤ r.adopt.own.age :=
  Belief.age_le_of_rank_le (b := r.own) (c := r.leader) (r.le_leader _ List.mem_cons_self)

/-- A report is stale, or it is recorded and the register adopts. -/
theorem receive_cases (owner : Id) (b : Belief Id V) (r : Register Id V) :
    (recordReport b r.records = none ∧ receive owner b (some r) = r) ∨
      ∃ records, recordReport b r.records = some records ∧
        receive owner b (some r) = { r with records := records }.adopt := by
  cases found : recordReport b r.records with
  | none => exact .inl ⟨rfl, by simp only [receive, found]⟩
  | some records => exact .inr ⟨records, rfl, by simp only [receive, found]⟩

section Holders

/-- The owner holds the own belief; the records come from different other participants. -/
structure Sound (owner : Id) (r : Register Id V) : Prop where
  owned : r.own.id = owner
  distinct : (r.records.map Belief.id).Nodup
  foreign : ∀ a ∈ r.records, a.id ≠ owner

omit [LinearOrder Id] in
/-- In a sound register a belief is determined by its holder. -/
theorem Sound.eq_of_id (sound : Sound owner r) {a d : Belief Id V} (member : a ∈ r.beliefs)
    (member' : d ∈ r.beliefs) (same : a.id = d.id) : a = d := by
  rcases List.mem_cons.mp member with rfl | record
  · rcases List.mem_cons.mp member' with rfl | record'
    · rfl
    · exact absurd (same.symm.trans sound.owned) (sound.foreign d record')
  · rcases List.mem_cons.mp member' with rfl | record'
    · exact absurd (same.trans sound.owned) (sound.foreign a record)
    · exact List.inj_on_of_nodup_map sound.distinct record record' same

theorem Sound.record {records : List (Belief Id V)} (sound : Sound owner r)
    (other : b.id ≠ owner) (success : recordReport b r.records = some records) :
    Sound owner { r with records := records } where
  owned := sound.owned
  distinct := recordReport_distinct success sound.distinct
  foreign a member := by
    rcases mem_recordReport success member with rfl | old
    · exact other
    · exact sound.foreign a old

theorem receive_sound {old : Option (Register Id V)} (sound : ∀ r, old = some r → Sound owner r)
    (other : b.id ≠ owner) : Sound owner (receive owner b old) := by
  cases old with
  | none =>
    refine ⟨rfl, List.nodup_singleton _, fun a member => ?_⟩
    rw [List.mem_singleton.mp member]
    exact other
  | some r =>
    rcases receive_cases owner b r with ⟨-, same⟩ | ⟨records, success, taken⟩
    · rw [same]
      exact sound r rfl
    · rw [taken]
      have recorded := (sound r rfl).record other success
      exact ⟨recorded.owned, recorded.distinct, recorded.foreign⟩

omit [LinearOrder Id] in
theorem decide_sound {age : Nat} {value : V} {old : Option (Register Id V)}
    (sound : ∀ r, old = some r → Sound owner r) : Sound owner (decide owner age value old) := by
  cases old with
  | none => exact ⟨rfl, List.nodup_nil, fun a member => nomatch member⟩
  | some r => exact ⟨(sound r rfl).owned, (sound r rfl).distinct, (sound r rfl).foreign⟩

end Holders

section Values

/-- Once a report is on record, every belief of another value than the own one is below one
of the own value. -/
def KeepsValue (r : Register Id V) (b : Belief Id V) : Prop :=
  ∀ records, recordReport b r.records = some records →
    ∀ d ∈ r.own :: records, d.value ≠ r.own.value →
      ∃ a ∈ r.own :: records, a.value = r.own.value ∧ d.rank < a.rank

/-- Once a report is on record, every belief of another value than this one is below one of it. -/
def Prefers (value : V) (b : Belief Id V) : Option (Register Id V) → Prop
  | none => b.value = value
  | some r =>
    match recordReport b r.records with
    | none => r.own.value = value
    | some records =>
      ∀ d ∈ r.own :: records, d.value ≠ value →
        ∃ a ∈ r.own :: records, a.value = value ∧ d.rank < a.rank

instance [DecidableEq V] (value : V) (b : Belief Id V) :
    (old : Option (Register Id V)) → Decidable (Prefers value b old)
  | none => inferInstanceAs (Decidable (b.value = value))
  | some r =>
    match found : recordReport b r.records with
    | none => decidable_of_iff (r.own.value = value) (by simp only [Prefers, found])
    | some records =>
      decidable_of_iff
        (∀ d ∈ r.own :: records, d.value ≠ value →
          ∃ a ∈ r.own :: records, a.value = value ∧ d.rank < a.rank)
        (by simp only [Prefers, found])

/-- That is what makes a value the own one. -/
theorem receive_prefers_iff {value : V} {old : Option (Register Id V)}
    (sound : ∀ r, old = some r → Sound owner r) (other : b.id ≠ owner) :
    (receive owner b old).own.value = value ↔ Prefers value b old := by
  cases old with
  | none => exact Iff.rfl
  | some r =>
    rcases receive_cases owner b r with ⟨stale, same⟩ | ⟨records, success, taken⟩
    · rw [same]
      simp only [Prefers, stale]
    · have recorded := (sound r rfl).record other success
      have leads := leader_mem { r with records := records }
      have top := le_leader { r with records := records }
      rw [taken, adopt_value]
      simp only [Prefers, success]
      refine ⟨fun adopted d member differs => ?_, fun prefers => ?_⟩
      · refine ⟨_, leads, adopted, lt_of_le_of_ne (top d member) fun equal => differs ?_⟩
        have holder := congrArg (fun rank => (ofLex rank).2) equal
        rw [recorded.eq_of_id member leads holder]
        exact adopted
      · by_contra differs
        obtain ⟨a, member, -, above⟩ := prefers _ leads differs
        exact absurd above (not_lt.mpr (top a member))

/-- Keeping the own value is preferring it. -/
theorem receive_value_iff (sound : Sound owner r) (other : b.id ≠ owner) :
    (receive owner b (some r)).own.value = r.own.value ↔ r.KeepsValue b := by
  rw [receive_prefers_iff (fun r' same => Option.some.inj same ▸ sound) other]
  unfold Prefers KeepsValue
  cases success : recordReport b r.records <;> simp [success]

end Values

section Ages

/-- No record is newer than the own belief. -/
def Ahead (r : Register Id V) : Prop :=
  ∀ a ∈ r.records, a.age ≤ r.own.age

theorem adopt_ahead (r : Register Id V) : r.adopt.Ahead := fun a member =>
  Belief.age_le_of_rank_le (b := a) (c := r.leader) (r.le_leader a (List.mem_cons_of_mem _ member))

theorem receive_ahead {old : Option (Register Id V)} (ahead : ∀ r, old = some r → r.Ahead) :
    (receive owner b old).Ahead := by
  cases old with
  | none =>
    intro a member
    rw [List.mem_singleton.mp member]
    exact Nat.le_refl _
  | some r =>
    rcases receive_cases owner b r with ⟨-, same⟩ | ⟨records, -, taken⟩
    · rw [same]
      exact ahead r rfl
    · rw [taken]
      exact adopt_ahead _

/-- The own age does not decrease. -/
theorem own_le_receive (owner : Id) (b : Belief Id V) (r : Register Id V) :
    r.own.age ≤ (receive owner b (some r)).own.age := by
  rcases receive_cases owner b r with ⟨-, same⟩ | ⟨records, -, taken⟩
  · rw [same]
  · rw [taken]
    exact own_le_adopt { r with records := records }

/-- After a report the own belief is not older than it. -/
theorem age_le_receive {old : Option (Register Id V)} (ahead : ∀ r, old = some r → r.Ahead) :
    b.age ≤ (receive owner b old).own.age := by
  cases old with
  | none => exact Nat.le_refl _
  | some r =>
    rcases receive_cases owner b r with ⟨stale, same⟩ | ⟨records, success, taken⟩
    · obtain ⟨a, member, -, current⟩ := recordReport_stale stale
      rw [same]
      exact current.trans (ahead r rfl a member)
    · rw [taken]
      exact Belief.age_le_of_rank_le (b := b) (c := leader { r with records := records })
        (le_leader _ b (List.mem_cons_of_mem _ (recordReport_self success)))

/-- The own belief after a report stays, or has age and value of a record or the report. -/
theorem receive_origin (owner : Id) (b : Belief Id V) (r : Register Id V) :
    ∃ a ∈ r.own :: b :: r.records, (receive owner b (some r)).own.age = a.age ∧
      (receive owner b (some r)).own.value = a.value := by
  rcases receive_cases owner b r with ⟨-, same⟩ | ⟨records, success, taken⟩
  · rw [same]
    exact ⟨r.own, List.mem_cons_self, rfl, rfl⟩
  · rw [taken]
    refine ⟨leader { r with records := records }, ?_, rfl, rfl⟩
    rcases List.mem_cons.mp (leader_mem { r with records := records }) with own | record
    · rw [own]
      exact List.mem_cons_self
    · rcases mem_recordReport success record with new | old
      · rw [new]
        exact List.mem_cons_of_mem _ List.mem_cons_self
      · exact List.mem_cons_of_mem _ (List.mem_cons_of_mem _ old)

theorem mem_receive {old : Option (Register Id V)} {a : Belief Id V}
    (member : a ∈ (receive owner b old).records) :
    a = b ∨ ∃ r, old = some r ∧ a ∈ r.records := by
  cases old with
  | none => exact .inl (List.mem_singleton.mp member)
  | some r =>
    rcases receive_cases owner b r with ⟨-, same⟩ | ⟨records, success, taken⟩
    · rw [same] at member
      exact .inr ⟨r, rfl, member⟩
    · rw [taken] at member
      exact (mem_recordReport success member).imp_right fun old => ⟨r, rfl, old⟩

/-- After a report there is a record of its sender and of everybody there was one of. -/
theorem receive_covers {old : Option (Register Id V)} {id : Id}
    (known : id = b.id ∨ ∃ r, old = some r ∧ id ∈ r.records.map Belief.id) :
    id ∈ (receive owner b old).records.map Belief.id := by
  cases old with
  | none =>
    rcases known with rfl | ⟨r, none, -⟩
    · exact List.mem_singleton_self _
    · cases none
  | some r =>
    rcases receive_cases owner b r with ⟨stale, same⟩ | ⟨records, success, taken⟩
    · rw [same]
      rcases known with rfl | ⟨r', here, member⟩
      · obtain ⟨a, member, sender, -⟩ := recordReport_stale stale
        exact sender ▸ List.mem_map_of_mem member
      · exact Option.some.inj here ▸ member
    · rw [taken]
      rcases known with rfl | ⟨r', here, member⟩
      · exact List.mem_map_of_mem (recordReport_self success)
      · obtain rfl := Option.some.inj here
        obtain ⟨a, inRecords, rfl⟩ := List.mem_map.mp member
        obtain ⟨a', member', same, -⟩ := recordReport_covers success inRecords
        exact same ▸ List.mem_map_of_mem member'

/-- If all beliefs have one value, a report of that value keeps it so. -/
theorem receive_unanimous {old : Option (Register Id V)} {value : V} (same : b.value = value)
    (before : ∀ r, old = some r → ∀ a ∈ r.beliefs, a.value = value) :
    ∀ a ∈ (receive owner b old).beliefs, a.value = value := by
  have own : (receive owner b old).own.value = value := by
    cases old with
    | none => exact same
    | some r =>
      obtain ⟨a, member, -, equal⟩ := receive_origin owner b r
      rw [equal]
      rcases List.mem_cons.mp member with rfl | member
      · exact before r rfl _ List.mem_cons_self
      · rcases List.mem_cons.mp member with rfl | inRecords
        · exact same
        · exact before r rfl a (List.mem_cons_of_mem _ inRecords)
  intro a member
  rcases List.mem_cons.mp member with rfl | record
  · exact own
  · rcases mem_receive record with rfl | ⟨r, here, old⟩
    · exact same
    · exact before r here a (List.mem_cons_of_mem _ old)

end Ages

section Supersession

variable {owner : Id} {b b' : Belief Id V} {r : Register Id V} {old : Option (Register Id V)}

/-- The register without the record of one participant. -/
def without (id : Id) (r : Register Id V) : Register Id V :=
  { r with records := r.records.filter fun a => a.id != id }

/-- The report of `b` makes its value the own one: the value is there already and the report is
stale, or the report is taken and the greatest belief of the others is below it or agrees. -/
def Supersedes (b : Belief Id V) (r : Register Id V) : Prop :=
  ((∃ a ∈ r.records, a.id = b.id ∧ b.age ≤ a.age) ∧ r.own.value = b.value) ∨
    ((∀ a ∈ r.records, a.id = b.id → a.age < b.age) ∧
      ((r.without b.id).leader.rank < b.rank ∨ (r.without b.id).leader.value = b.value))

theorem mem_without (foreign : r.own.id ≠ b.id) {a : Belief Id V} :
    a ∈ (r.without b.id).beliefs ↔ a ∈ r.beliefs ∧ a.id ≠ b.id := by
  simp only [beliefs, without, List.mem_cons, List.mem_filter, bne_iff_ne]
  constructor
  · rintro (rfl | ⟨record, differs⟩)
    · exact ⟨.inl rfl, foreign⟩
    · exact ⟨.inr record, differs⟩
  · rintro ⟨rfl | record, differs⟩
    · exact .inl rfl
    · exact .inr ⟨record, differs⟩

/-- With a report on record, the leader is the report or leads the others. -/
theorem leader_recorded (sound : Sound owner r) (other : b.id ≠ owner)
    {records : List (Belief Id V)} (success : recordReport b r.records = some records) :
    leader { r with records := records } =
      if (r.without b.id).leader.rank < b.rank then b else (r.without b.id).leader := by
  have recorded := sound.record other success
  have foreign : r.own.id ≠ b.id := fun same => other (same.symm.trans sound.owned)
  have leads := leader_mem { r with records := records }
  have top := le_leader { r with records := records }
  have reported : b ∈ beliefs { r with records := records } :=
    List.mem_cons_of_mem _ (recordReport_self success)
  obtain ⟨inRegister, differs⟩ := (mem_without foreign).mp (r.without b.id).leader_mem
  have others : ∀ a, a.id ≠ b.id → (a ∈ beliefs { r with records := records } ↔ a ∈ r.beliefs) := by
    intro a differs
    have records := recordReport_other success differs
    simp only [beliefs, List.mem_cons, records]
  have kept := (others _ differs).mpr inRegister
  have unique : ∀ a ∈ beliefs { r with records := records },
      (leader { r with records := records }).rank ≤ a.rank →
        leader { r with records := records } = a := by
    intro a member above
    have equal := le_antisymm above (top a member)
    exact recorded.eq_of_id leads member (congrArg (fun rank => (ofLex rank).2) equal)
  by_cases sender : (leader { r with records := records }).id = b.id
  · have same := recorded.eq_of_id leads reported sender
    have below := top _ kept
    rw [same] at below
    rw [same, if_pos (lt_of_le_of_ne below fun equal => ?_)]
    exact differs (congrArg (fun rank => (ofLex rank).2) equal)
  · have among := (mem_without foreign).mpr ⟨(others _ sender).mp leads, sender⟩
    have same := unique _ kept ((r.without b.id).le_leader _ among)
    rw [← same, if_neg (not_lt.mpr (top b reported))]

theorem receive_supersedes (sound : Sound owner r) (other : b.id ≠ owner) :
    (receive owner b (some r)).own.value = b.value ↔ r.Supersedes b := by
  rcases receive_cases owner b r with ⟨stale, same⟩ | ⟨records, success, taken⟩
  · obtain ⟨a, member, sender, current⟩ := recordReport_stale stale
    rw [same]
    refine ⟨fun value => .inl ⟨⟨a, member, sender, current⟩, value⟩, ?_⟩
    rintro (⟨-, value⟩ | ⟨newer, -⟩)
    · exact value
    · exact absurd (newer a member sender) (Nat.not_lt.mpr current)
  · have newer : ∀ a ∈ r.records, a.id = b.id → a.age < b.age := fun a member sender =>
      recordReport_newer success sound.distinct member sender
    rw [taken, adopt_value, leader_recorded sound other success]
    constructor
    · intro value
      refine .inr ⟨newer, ?_⟩
      split at value
      next above => exact .inl above
      next => exact .inr value
    · rintro (⟨⟨a, member, sender, current⟩, -⟩ | ⟨-, above | value⟩)
      · exact absurd (newer a member sender) (Nat.not_lt.mpr current)
      · rw [if_pos above]
      · split
        · rfl
        · exact value

/-- A report that is newer than every belief is adopted. -/
theorem receive_newest (newest : ∀ r, old = some r → ∀ a ∈ r.beliefs, a.age < b.age) :
    (receive owner b old).own.value = b.value ∧ (receive owner b old).own.age = b.age ∧
      b ∈ (receive owner b old).records := by
  cases old with
  | none => exact ⟨rfl, rfl, List.mem_singleton_self b⟩
  | some r =>
    have newer := newest r rfl
    rcases receive_cases owner b r with ⟨stale, -⟩ | ⟨records, success, taken⟩
    · obtain ⟨a, member, -, current⟩ := recordReport_stale stale
      exact absurd (newer a (List.mem_cons_of_mem _ member)) (Nat.not_lt.mpr current)
    · have recorded := recordReport_self success
      have above := le_leader { r with records := records } b (List.mem_cons_of_mem _ recorded)
      have age : b.age ≤ (leader { r with records := records }).age :=
        Belief.age_le_of_rank_le above
      have leads : leader { r with records := records } = b := by
        rcases List.mem_cons.mp (leader_mem { r with records := records }) with own | record
        · rw [own] at age
          exact absurd (newer r.own List.mem_cons_self) (Nat.not_lt.mpr age)
        · rcases mem_recordReport success record with same | before
          · exact same
          · exact absurd (newer _ (List.mem_cons_of_mem _ before)) (Nat.not_lt.mpr age)
      rw [taken]
      exact ⟨by rw [adopt_value, leads], by rw [adopt_age, leads], recorded⟩

/-- A sender that reports twice is believed the second time exactly if it says the same again or
its second report is the newer one. -/
theorem receive_twice (newest : ∀ r, old = some r → ∀ a ∈ r.beliefs, a.age < b.age)
    (sound : ∀ r, old = some r → Sound owner r) (other : b.id ≠ owner) (sender : b'.id = b.id) :
    (receive owner b' (some (receive owner b old))).own.value = b'.value ↔
      b.value = b'.value ∨ b.age < b'.age := by
  obtain ⟨value, age, recorded⟩ := @receive_newest _ _ _ owner _ _ newest
  have kept := receive_sound sound other
  by_cases newer : b.age < b'.age
  · refine iff_of_true ?_ (.inr newer)
    refine (receive_newest fun r same a member => ?_).1
    obtain rfl := Option.some.inj same
    rcases List.mem_cons.mp member with rfl | record
    · omega
    · rcases mem_receive record with rfl | ⟨r, stored, before⟩
      · exact newer
      · have older := newest r stored a (List.mem_cons_of_mem _ before)
        omega
  · have stale : recordReport b' (receive owner b old).records = none := by
      cases success : recordReport b' (receive owner b old).records with
      | none => rfl
      | some records =>
        exact absurd (recordReport_newer success kept.distinct recorded sender.symm) newer
    have same : ∀ r : Register Id V, recordReport b' r.records = none →
        receive owner b' (some r) = r := fun r stale => by simp only [receive, stale]
    rw [same _ stale, value]
    exact ⟨.inl, fun either => either.resolve_right newer⟩

end Supersession

end Register

end CaceProofs.Library
