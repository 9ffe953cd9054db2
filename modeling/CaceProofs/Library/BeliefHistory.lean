import CaceProofs.Library.BeliefRegister
import CaceProofs.Library.Freshest
import Mathlib.Data.List.Induction

/-!
# What a register makes of a sequence of reports

The own age is the greatest reported one. The own value is that of the greatest report
of this age, if it outranks the owner; else it is that of the first one to arrive.
-/
namespace CaceProofs.Library.Register

variable {Id V : Type} [LinearOrder Id] {owner : Id} {b : Belief Id V} {r : Register Id V}

/-- The register after a sequence of reports. -/
def after (owner : Id) (l : List (Belief Id V)) : Option (Register Id V) :=
  l.foldl (fun r b => some (receive owner b r)) none

theorem after_append (owner : Id) (l : List (Belief Id V)) (b : Belief Id V) :
    after owner (l ++ [b]) = some (receive owner b (after owner l)) := by
  unfold after
  rw [List.foldl_append]
  rfl

/-- What a register has resolved from the reports `l` of other participants. -/
structure Resolves (owner : Id) (l : List (Belief Id V)) (r : Register Id V) : Prop where
  owned : r.own.id = owner
  distinct : (r.records.map Belief.id).Nodup
  settled : r.Settled
  recorded : ∀ a ∈ r.records, a ∈ l
  covered : ∀ b ∈ l, ∃ a ∈ r.records, a.id = b.id ∧ b.age ≤ a.age
  origin : ∃ b ∈ l, b.age = r.own.age ∧ b.value = r.own.value
  first : (∀ b ∈ l, b.age = r.own.age → b.id < owner) →
    ∃ m, Freshest Belief.age l m ∧ m.value = r.own.value

variable {l : List (Belief Id V)}

/-- The own age is the greatest that was reported. -/
theorem Resolves.age (resolves : Resolves owner l r) : ∀ b ∈ l, b.age ≤ r.own.age := by
  intro b member
  obtain ⟨a, inRecords, -, newer⟩ := resolves.covered b member
  exact Nat.le_trans newer (resolves.settled.ahead a inRecords)

/-- The first report. -/
theorem resolves_single (owner : Id) (b : Belief Id V) :
    Resolves owner [b] (receive owner b none) where
  owned := rfl
  distinct := List.nodup_singleton _
  settled := by
    rcases List.mem_cons.mp (receive owner b none).leader_mem with own | record
    · exact ⟨congrArg Belief.age own.symm, congrArg Belief.value own.symm⟩
    · obtain same : (receive owner b none).leader = b := List.mem_singleton.mp record
      exact ⟨(congrArg Belief.age same).symm, (congrArg Belief.value same).symm⟩
  recorded a member := member
  covered a member := ⟨a, member, rfl, Nat.le_refl _⟩
  origin := ⟨b, List.mem_singleton_self b, rfl, rfl⟩
  first _ := ⟨b, .singleton b, rfl⟩

/-- A report that its sender's record makes stale. -/
theorem Resolves.stale (resolves : Resolves owner l r)
    (stale : recordReport b r.records = none) : Resolves owner (l ++ [b]) r where
  owned := resolves.owned
  distinct := resolves.distinct
  settled := resolves.settled
  recorded a member := List.mem_append_left _ (resolves.recorded a member)
  covered a member := by
    rcases List.mem_append.mp member with old | new
    · exact resolves.covered a old
    · rw [List.mem_singleton.mp new]
      exact recordReport_stale stale
  origin := by
    obtain ⟨a, member, same⟩ := resolves.origin
    exact ⟨a, List.mem_append_left _ member, same⟩
  first lower := by
    obtain ⟨m, freshest, value⟩ :=
      resolves.first fun a member => lower a (List.mem_append_left _ member)
    obtain ⟨d, reported, age, -⟩ := resolves.origin
    obtain ⟨a, inRecords, -, newer⟩ := recordReport_stale stale
    have own := resolves.settled.ahead a inRecords
    have greatest := freshest.le d reported
    exact ⟨m, freshest.append_older (by omega), value⟩

/-- A report that is taken. -/
theorem Resolves.taken {records : List (Belief Id V)} (resolves : Resolves owner l r)
    (success : recordReport b r.records = some records) :
    Resolves owner (l ++ [b]) { r with records := records }.adopt := by
  have distinct : (records.map Belief.id).Nodup :=
    recordReport_distinct success resolves.distinct
  have recorded : ∀ a ∈ records, a ∈ l ++ [b] := by
    intro a member
    rcases mem_recordReport success member with rfl | old
    · simp
    · exact List.mem_append_left _ (resolves.recorded a old)
  refine ⟨resolves.owned, distinct, adopt_settled distinct, recorded, ?_, ?_, ?_⟩
  · intro a member
    rcases List.mem_append.mp member with old | new
    · obtain ⟨a1, inRecords, sender, newer⟩ := resolves.covered a old
      obtain ⟨a2, inRecords', sender', newer'⟩ := recordReport_covers success inRecords
      exact ⟨a2, inRecords', sender'.trans sender, Nat.le_trans newer newer'⟩
    · rw [List.mem_singleton.mp new]
      exact ⟨b, recordReport_self success, rfl, Nat.le_refl _⟩
  · rcases List.mem_cons.mp (leader_mem { r with records := records }) with own | record
    · obtain ⟨a, member, age, value⟩ := resolves.origin
      refine ⟨a, List.mem_append_left _ member, ?_, ?_⟩
      · rw [adopt_age, own]; exact age
      · rw [adopt_value, own]; exact value
    · exact ⟨_, recorded _ record, rfl, rfl⟩
  · intro lower
    have leads := leader_mem { r with records := records }
    have top := le_leader { r with records := records }
    have old : ∀ a ∈ records, a = b ∨ a.age ≤ r.own.age := fun a member =>
      (mem_recordReport success member).imp_right (resolves.settled.ahead a)
    by_cases newer : r.own.age < b.age
    · -- the report is newer than all before it
      have reaches := Belief.age_le_of_rank_le
        (top b (List.mem_cons_of_mem _ (recordReport_self success)))
      have leader : leader { r with records := records } = b := by
        rcases List.mem_cons.mp leads with own | record
        · rw [own] at reaches
          exact absurd reaches (Nat.not_le_of_lt newer)
        · rcases old _ record with same | notNewer
          · exact same
          · omega
      refine ⟨b, ⟨l, [], by simp, fun a member => ?_, by simp⟩, by rw [adopt_value, leader]⟩
      exact Nat.lt_of_le_of_lt (resolves.age a member) newer
    · -- the owner outranks every report of the greatest age, so nothing changes
      have ahead := Belief.age_le_of_rank_le (top r.own List.mem_cons_self)
      have leader : leader { r with records := records } = r.own := by
        rcases List.mem_cons.mp leads with own | record
        · exact own
        · have below := lower _ (recorded _ record) rfl
          have notNewer : (leader { r with records := records }).age ≤ r.own.age := by
            rcases old _ record with same | notNewer
            · rw [same]; omega
            · exact notNewer
          have outranked := Belief.rank_le.mp (top r.own List.mem_cons_self)
          rw [resolves.owned] at outranked
          rcases outranked with less | ⟨-, holder⟩
          · omega
          · exact absurd below (not_lt.mpr holder)
      have same : r.own.age = (adopt { r with records := records }).own.age := by
        rw [adopt_age, leader]
      obtain ⟨m, freshest, value⟩ := resolves.first fun a member age =>
        lower a (List.mem_append_left _ member) (age.trans same)
      obtain ⟨d, reported, age, -⟩ := resolves.origin
      have greatest := freshest.le d reported
      refine ⟨m, freshest.append_older (by omega), ?_⟩
      rw [value, adopt_value, leader]

/-- After reports of other participants the register has resolved them. -/
theorem after_resolves (owner : Id) (l : List (Belief Id V)) (nonempty : l ≠ []) :
    ∃ r, after owner l = some r ∧ Resolves owner l r := by
  induction l using List.reverseRecOn with
  | nil => exact absurd rfl nonempty
  | append_singleton l b ih =>
    rw [after_append]
    by_cases empty : l = []
    · subst empty
      exact ⟨_, rfl, resolves_single owner b⟩
    · obtain ⟨r, before, resolves⟩ := ih empty
      rw [before]
      rcases receive_cases owner b r with ⟨stale, same⟩ | ⟨records, success, taken⟩
      · exact ⟨r, by rw [same], resolves.stale stale⟩
      · exact ⟨_, by rw [taken], resolves.taken success⟩

/-- A report of the greatest age in a list. -/
def Newest (l : List (Belief Id V)) (b : Belief Id V) : Prop :=
  b ∈ l ∧ ∀ a ∈ l, a.age ≤ b.age

theorem Resolves.newest_age (resolves : Resolves owner l r) (newest : Newest l b) :
    b.age = r.own.age := by
  obtain ⟨a, member, age, -⟩ := resolves.origin
  have upper := resolves.age b newest.1
  have lower := newest.2 a member
  omega

theorem Resolves.newest_of_age (resolves : Resolves owner l r) (member : b ∈ l)
    (age : b.age = r.own.age) : Newest l b :=
  ⟨member, fun a inReports => age ▸ resolves.age a inReports⟩

/-- No two reports of one sender have the same age. -/
def Unambiguous (l : List (Belief Id V)) : Prop :=
  ∀ a ∈ l, ∀ b ∈ l, a.age = b.age → a.id = b.id → a = b

/-- A newest report above the owner and all other newest ones decides the value. -/
theorem Resolves.value_of_greatest (resolves : Resolves owner l r) (unambiguous : Unambiguous l)
    (newest : Newest l b) (above : owner < b.id)
    (greatest : ∀ a, Newest l a → a.id ≤ b.id) : r.own.value = b.value := by
  have age := resolves.newest_age newest
  obtain ⟨a, inRecords, sender, newer⟩ := resolves.covered b newest.1
  have reported := resolves.recorded a inRecords
  have same : a = b := by
    refine unambiguous a reported b newest.1 ?_ sender
    exact Nat.le_antisymm (newest.2 a reported) newer
  subst same
  have outranks := Belief.rank_le.mp (r.le_leader a (List.mem_cons_of_mem _ inRecords))
  have leaderAge := resolves.settled.age
  rcases List.mem_cons.mp r.leader_mem with own | record
  · rw [own] at outranks
    rcases outranks with less | ⟨-, holder⟩
    · omega
    · rw [resolves.owned] at holder
      exact absurd above (not_lt.mpr holder)
  · have leads := resolves.newest_of_age (resolves.recorded _ record) leaderAge.symm
    have equal : r.leader = a := by
      refine unambiguous _ leads.1 a newest.1 (leaderAge.symm.trans age.symm) ?_
      rcases outranks with less | ⟨-, holder⟩
      · omega
      · exact le_antisymm (greatest _ leads) holder
    rw [resolves.settled.value, equal]

/-- The own value is that of a newest report. -/
theorem Resolves.value_mem (resolves : Resolves owner l r) :
    ∃ b, Newest l b ∧ b.value = r.own.value := by
  obtain ⟨a, member, age, value⟩ := resolves.origin
  exact ⟨a, resolves.newest_of_age member age, value⟩

/-- Below its owner a register keeps the first of the newest reports. -/
theorem Resolves.value_of_first (resolves : Resolves owner (b :: l) r)
    (newest : Newest (b :: l) b) (below : ∀ a, Newest (b :: l) a → a.id < owner) :
    r.own.value = b.value := by
  obtain ⟨m, freshest, value⟩ :=
    resolves.first fun a member age => below a (resolves.newest_of_age member age)
  obtain ⟨before, rest, split, older, -⟩ := freshest
  cases before with
  | nil =>
    obtain ⟨rfl, -⟩ := List.cons.inj split
    exact value.symm
  | cons head before =>
    obtain ⟨rfl, -⟩ := List.cons.inj split
    have less := older b List.mem_cons_self
    have notOlder := newest.2 m (by rw [split]; simp)
    omega

/-- What decides for both of two owners: the newest reports agree, or one of them comes
from above both. -/
def Decisive (owner owner' : Id) (l : List (Belief Id V)) : Prop :=
  (∀ a b, Newest l a → Newest l b → a.value = b.value) ∨
    ∃ b, Newest l b ∧ owner < b.id ∧ owner' < b.id

/-- There is a greatest sender of a newest report. -/
theorem exists_greatest (newest : Newest l b) :
    ∃ g, Newest l g ∧ ∀ a, Newest l a → a.id ≤ g.id := by
  have top := le_champion Belief.rank b l
  refine ⟨champion Belief.rank b l, ⟨?_, fun a member => ?_⟩, fun a other => ?_⟩
  · rcases List.mem_cons.mp (champion_mem Belief.rank b l) with same | member
    · rw [same]
      exact newest.1
    · exact member
  · exact Belief.age_le_of_rank_le (top a (List.mem_cons_of_mem _ member))
  · have leads := top b List.mem_cons_self
    rcases Belief.rank_le.mp (top a (List.mem_cons_of_mem _ other.1)) with less | ⟨-, holder⟩
    · rcases List.mem_cons.mp (champion_mem Belief.rank b l) with same | member
      · rw [same] at less
        have notOlder := other.2 b newest.1
        omega
      · have notOlder := other.2 _ member
        omega
    · exact holder

omit [LinearOrder Id] in
theorem Newest.of_same {l' : List (Belief Id V)} (same : ∀ a, a ∈ l ↔ a ∈ l')
    (newest : Newest l b) : Newest l' b :=
  ⟨(same b).mp newest.1, fun a member => newest.2 a ((same a).mpr member)⟩

variable {owner' : Id} {r' : Register Id V} {l' : List (Belief Id V)}

/-- Two registers of the same reports have the same own age. -/
theorem Resolves.age_eq (resolves : Resolves owner l r) (resolves' : Resolves owner' l' r')
    (same : ∀ a, a ∈ l ↔ a ∈ l') : r.own.age = r'.own.age := by
  obtain ⟨b, newest, -⟩ := resolves.value_mem
  rw [← resolves.newest_age newest, ← resolves'.newest_age (newest.of_same same)]

/-- Where the reports decide, two registers of the same reports have the same own value. -/
theorem Resolves.value_eq (resolves : Resolves owner l r) (resolves' : Resolves owner' l' r')
    (same : ∀ a, a ∈ l ↔ a ∈ l') (unambiguous : Unambiguous l)
    (decisive : Decisive owner owner' l) : r.own.value = r'.own.value := by
  have back : ∀ a, a ∈ l' ↔ a ∈ l := fun a => (same a).symm
  rcases decisive with agree | ⟨b, newest, above, above'⟩
  · obtain ⟨a, newest, value⟩ := resolves.value_mem
    obtain ⟨a', newest', value'⟩ := resolves'.value_mem
    rw [← value, ← value', agree a a' newest (newest'.of_same back)]
  · obtain ⟨g, greatest, holder⟩ := exists_greatest newest
    have unambiguous' : Unambiguous l' := fun a member d member' =>
      unambiguous a ((back a).mp member) d ((back d).mp member')
    have le := holder b newest
    rw [resolves.value_of_greatest unambiguous greatest (lt_of_lt_of_le above le) holder,
      resolves'.value_of_greatest unambiguous' (greatest.of_same same)
        (lt_of_lt_of_le above' le) fun a other => holder a (other.of_same back)]

/-- An owner above all newest reports can be brought to the value of either of two. -/
theorem exists_order {a b : Belief Id V} (below : ∀ d, Newest l d → d.id < owner)
    (newest : Newest l a) (newest' : Newest l b) (differ : a.value ≠ b.value) (v : V) :
    ∃ l' r', (∀ d, d ∈ l' ↔ d ∈ l) ∧ after owner l' = some r' ∧ r'.own.value ≠ v := by
  have bring : ∀ d, Newest l d → ∃ r', (∀ e, e ∈ d :: l ↔ e ∈ l) ∧
      after owner (d :: l) = some r' ∧ r'.own.value = d.value := by
    intro d first
    have same : ∀ e, e ∈ d :: l ↔ e ∈ l := by
      intro e
      refine ⟨fun member => ?_, List.mem_cons_of_mem d⟩
      rcases List.mem_cons.mp member with rfl | later
      · exact first.1
      · exact later
    obtain ⟨r', reached, resolves⟩ := after_resolves owner (d :: l) (by simp)
    refine ⟨r', same, reached, resolves.value_of_first (first.of_same fun e => (same e).symm) ?_⟩
    exact fun e newest => below e (newest.of_same same)
  by_cases taken : a.value = v
  · obtain ⟨r', same, reached, value⟩ := bring b newest'
    exact ⟨b :: l, r', same, reached, fun equal => differ (by rw [taken, ← equal, value])⟩
  · obtain ⟨r', same, reached, value⟩ := bring a newest
    exact ⟨a :: l, r', same, reached, fun equal => taken (by rw [← value, equal])⟩

/-- Where the reports do not decide, some two orders of them end in different values. -/
theorem exists_disagreement (nonempty : l ≠ [])
    (foreign : ∀ b ∈ l, b.id ≠ owner ∧ b.id ≠ owner') (indecisive : ¬ Decisive owner owner' l) :
    ∃ l₁ l₂ r₁ r₂, (∀ d, d ∈ l₁ ↔ d ∈ l) ∧ (∀ d, d ∈ l₂ ↔ d ∈ l) ∧
      after owner l₁ = some r₁ ∧ after owner' l₂ = some r₂ ∧ r₁.own.value ≠ r₂.own.value := by
  obtain ⟨differ, noneAbove⟩ := not_or.mp indecisive
  push Not at differ noneAbove
  obtain ⟨a, b, newest, newest', differ⟩ := differ
  -- no newest sender is above both, so one of the owners is above all of them
  have below : (∀ d, Newest l d → d.id < owner) ∨ (∀ d, Newest l d → d.id < owner') := by
    obtain ⟨g, greatest, holder⟩ := exists_greatest newest
    by_cases above : owner < g.id
    · have bound := lt_of_le_of_ne (noneAbove g greatest above) (foreign g greatest.1).2
      exact .inr fun d other => lt_of_le_of_lt (holder d other) bound
    · have bound := lt_of_le_of_ne (not_lt.mp above) (foreign g greatest.1).1
      exact .inl fun d other => lt_of_le_of_lt (holder d other) bound
  rcases below with below | below
  · obtain ⟨r₂, reached, -⟩ := after_resolves owner' l nonempty
    obtain ⟨l₁, r₁, same, reached', value⟩ := exists_order below newest newest' differ r₂.own.value
    exact ⟨l₁, l, r₁, r₂, same, fun _ => Iff.rfl, reached', reached, value⟩
  · obtain ⟨r₁, reached, -⟩ := after_resolves owner l nonempty
    obtain ⟨l₂, r₂, same, reached', value⟩ := exists_order below newest newest' differ r₁.own.value
    exact ⟨l, l₂, r₁, r₂, fun _ => Iff.rfl, same, reached, reached', Ne.symm value⟩

end CaceProofs.Library.Register
