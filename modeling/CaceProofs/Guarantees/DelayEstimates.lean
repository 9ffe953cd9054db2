import CaceProofs.Source.AgentCommunicationModel
import Mathlib.Algebra.BigOperators.Ring.Finset
import Mathlib.Data.Int.Cast.Lemmas
import Mathlib.Data.List.Induction

/-!
# Delay and variance

What the integer estimators compute as long as nothing overflows: sums of quotients, one of each
entry of the window. The window keeps the newest entries.
-/
namespace CaceProofs.Guarantees
open Source Library

section Words

theorem toLong_fits (t : UInt64) : Fits (toLong t) := by
  have bits := UInt64.toNat_lt t
  unfold toLong Fits
  rw [Int.bmod_def]
  split <;> omega

theorem toLong_toCtime {x : Int} (fits : Fits x) : toLong (toCtime x) = x := by
  obtain ⟨lower, upper⟩ := fits
  have word : (toCtime x).toNat = (x % 2 ^ 64).toNat := by
    unfold toCtime UInt64.ofInt
    rw [UInt64.toNat_ofNat']
    omega
  unfold toLong
  rw [word, Int.bmod_def]
  split <;> omega

theorem toCtime_toLong (t : UInt64) : toCtime (toLong t) = t := by
  have bits := UInt64.toNat_lt t
  have word : toLong t % 2 ^ 64 = t.toNat := by
    unfold toLong
    rw [Int.bmod_def]
    split <;> omega
  unfold toCtime UInt64.ofInt
  rw [word, Int.toNat_natCast, UInt64.ofNat_toNat]

theorem toNat_toCtime {x : Int} (nonneg : 0 ≤ x) (fits : x < 2 ^ 63) :
    ((toCtime x).toNat : Int) = x := by
  unfold toCtime UInt64.ofInt
  rw [UInt64.toNat_ofNat']
  omega

theorem toCtime_eq_zero {x : Int} (fits : Fits x) : toCtime x = 0 ↔ x = 0 := by
  constructor
  · intro zero
    rw [← toLong_toCtime fits, zero]
    decide +kernel
  · rintro rfl
    decide +kernel

theorem fits_abs {x : Int} : Fits x ∧ Fits |x| ↔ |x| < 2 ^ 63 := by
  unfold Fits
  rw [abs_lt]
  rcases abs_cases x with ⟨same, _⟩ | ⟨same, _⟩ <;> rw [same] <;> omega

/-- Up to 2^62 the cast keeps the stamp. -/
theorem toLong_early {t : UInt64} (early : t.toNat < 2 ^ 62) : toLong t = t.toNat := by
  unfold toLong
  rw [Int.bmod_def]
  split <;> omega

end Words

section Estimators

/-- How much later than it was sent a time message arrived, on the distributed clock. -/
def lag (atd : AgentTimeData) : Int :=
  toLong atd.distributedMessageArrivalTime - toLong atd.distributedTime

/-- The sum of the quotients of the absolute lags. -/
def meanLag (w : List AgentTimeData) : Int :=
  (w.map fun atd => |lag atd| / (w.length : Int)).sum

/-- The sum of the quotients of the distances of the lags from a delay. -/
def deviation (w : List AgentTimeData) (m : Int) : Int :=
  (w.map fun atd => |lag atd - m| / (w.length : Int)).sum

variable {config : TimeConfig} {acm : AgentCommunicationModel}

theorem delayTerm_eq_ok {num t : Int} {atd : AgentTimeData} :
    AgentCommunicationModel.delayTerm num atd = .ok t ↔
      |lag atd| < 2 ^ 63 ∧ t = |lag atd|.tdiv num := by
  unfold AgentCommunicationModel.delayTerm
  change (checked (lag atd) >>= _) = _ ↔ _
  rw [checked_bind_eq_ok]
  rw [checked_bind_eq_ok, ← and_assoc, fits_abs]
  refine and_congr_right fun small => ?_
  have fits := (fits_abs.mpr small).2
  rw [toLong_toCtime fits]
  change Except.ok _ = Except.ok t ↔ _
  rw [Except.ok.injEq]
  exact eq_comm

theorem varianceTerm_eq_ok {num m t : Int} {atd : AgentTimeData} :
    AgentCommunicationModel.varianceTerm num m atd = .ok t ↔
      (Fits (lag atd) ∧ |lag atd - m| < 2 ^ 63) ∧ t = |lag atd - m|.tdiv num := by
  unfold AgentCommunicationModel.varianceTerm
  change (checked (lag atd) >>= _) = _ ↔ _
  rw [checked_bind_eq_ok, checked_bind_eq_ok]
  rw [checked_bind_eq_ok, ← @and_assoc (Fits (lag atd - m)), fits_abs, ← and_assoc]
  refine and_congr_right fun _ => ?_
  change Except.ok _ = Except.ok t ↔ _
  rw [Except.ok.injEq]
  exact eq_comm

/-- Quotients by the length of the window. -/
theorem quotients_fit {w : List AgentTimeData} {size : AgentTimeData → Int}
    (nonempty : w ≠ []) (nonneg : ∀ atd ∈ w, 0 ≤ size atd) (small : ∀ atd ∈ w, size atd < 2 ^ 63) :
    0 ≤ (w.map fun atd => size atd / (w.length : Int)).sum ∧
      (w.map fun atd => size atd / (w.length : Int)).sum < 2 ^ 63 := by
  have length := List.length_pos_of_ne_nil nonempty
  constructor
  · exact sum_nonneg fun atd member => Int.ediv_nonneg (nonneg atd member) (by omega)
  · have each : ∀ a ∈ w.map size, a ≤ 2 ^ 63 - 1 := by
      intro a member
      obtain ⟨atd, entry, rfl⟩ := List.mem_map.mp member
      exact Int.le_sub_one_of_lt (small atd entry)
    have many : ((w.map size).length : Int) ≤ w.length := by rw [List.length_map]
    have bound := sum_ediv_le many (by omega) (by decide) each
    rw [List.map_map] at bound
    exact Int.lt_of_le_sub_one bound

theorem getMaxLikelihoodDelay_eq_ok {d : Int} (several : 2 ≤ acm.data.length) :
    acm.getMaxLikelihoodDelay config = .ok d ↔
      (∀ atd ∈ acm.data, |lag atd| < 2 ^ 63) ∧ d = meanLag acm.data := by
  have num : (0 : Int) ≤ acm.data.length := by omega
  have quotient : ∀ atd, |lag atd|.tdiv acm.data.length = |lag atd| / acm.data.length :=
    fun atd => Int.tdiv_eq_ediv_of_nonneg (abs_nonneg _)
  have terms : (∀ atd ∈ acm.data, AgentCommunicationModel.delayTerm acm.data.length atd
        = .ok (|lag atd| / acm.data.length)) ↔ ∀ atd ∈ acm.data, |lag atd| < 2 ^ 63 :=
    forall₂_congr fun atd _ => by
      rw [delayTerm_eq_ok, quotient]
      exact and_iff_left rfl
  unfold AgentCommunicationModel.getMaxLikelihoodDelay
  rw [if_neg (by omega)]
  refine (accumulate_map_eq_ok (fun atd _ => Int.ediv_nonneg (abs_nonneg _) num)
    (fun atd _ t run => (delayTerm_eq_ok.mp run).2.trans (quotient atd))).trans ?_
  rw [terms]
  refine and_congr_right fun small => ?_
  have bounds := quotients_fit (List.ne_nil_of_length_pos (by omega))
    (fun atd _ => abs_nonneg (lag atd)) small
  rw [toLong_toCtime ⟨le_trans (by decide) bounds.1, bounds.2⟩]
  exact and_iff_right bounds.2

theorem getMaxLikelihoodDelayVariance_eq_ok {averageDelay v : UInt64}
    (several : 2 ≤ acm.data.length) :
    acm.getMaxLikelihoodDelayVariance config averageDelay = .ok v ↔
      (∀ atd ∈ acm.data, Fits (lag atd) ∧ |lag atd - toLong averageDelay| < 2 ^ 63) ∧
        v = toCtime (deviation acm.data (toLong averageDelay)) := by
  have num : (0 : Int) ≤ acm.data.length := by omega
  have quotient : ∀ x : Int, |x|.tdiv acm.data.length = |x| / acm.data.length :=
    fun x => Int.tdiv_eq_ediv_of_nonneg (abs_nonneg x)
  have terms : (∀ atd ∈ acm.data,
        AgentCommunicationModel.varianceTerm acm.data.length (toLong averageDelay) atd
          = .ok (|lag atd - toLong averageDelay| / acm.data.length)) ↔
      ∀ atd ∈ acm.data, Fits (lag atd) ∧ |lag atd - toLong averageDelay| < 2 ^ 63 :=
    forall₂_congr fun atd _ => by
      rw [varianceTerm_eq_ok, quotient]
      exact and_iff_left rfl
  unfold AgentCommunicationModel.getMaxLikelihoodDelayVariance
  rw [if_neg (by omega)]
  refine (accumulate_map_eq_ok (fun atd _ => Int.ediv_nonneg (abs_nonneg _) num)
    (fun atd _ t run => (varianceTerm_eq_ok.mp run).2.trans (quotient _))).trans ?_
  rw [terms]
  refine and_congr_right fun small => ?_
  have bounds := quotients_fit (List.ne_nil_of_length_pos (by omega))
    (fun atd _ => abs_nonneg (lag atd - toLong averageDelay)) fun atd member => (small atd member).2
  exact and_iff_right bounds.2

end Estimators

section Window

variable {config : TimeConfig} {acm : AgentCommunicationModel}

/-- The two stamps that the estimators compare, below 2^62. -/
def Early (atd : AgentTimeData) : Prop :=
  atd.distributedTime.toNat < 2 ^ 62 ∧ atd.distributedMessageArrivalTime.toNat < 2 ^ 62

theorem Early.lag_eq {atd : AgentTimeData} (early : Early atd) :
    lag atd = atd.distributedMessageArrivalTime.toNat - atd.distributedTime.toNat := by
  rw [lag, toLong_early early.1, toLong_early early.2]

theorem Early.lag_lt {atd : AgentTimeData} (early : Early atd) : |lag atd| < 2 ^ 62 := by
  have bounds := early
  unfold Early at bounds
  rw [early.lag_eq, abs_lt]
  omega

@[simp] theorem addData_maxEntrys (atd : AgentTimeData) :
    (acm.addData atd).maxEntrys = acm.maxEntrys := rfl

theorem addData_data (atd : AgentTimeData) :
    (acm.addData atd).data = newest acm.maxEntrys (acm.data ++ [atd]) :=
  evict_eq_newest _ _

/-- Added one after the other, to an empty window. -/
def added (robotID : Int) (entries : List AgentTimeData) : AgentCommunicationModel :=
  entries.foldl AgentCommunicationModel.addData { robotID := robotID }

theorem added_append (robotID : Int) (entries : List AgentTimeData) (atd : AgentTimeData) :
    added robotID (entries ++ [atd]) = (added robotID entries).addData atd := by
  rw [added, List.foldl_append]
  rfl

/-- The window holds the newest thirty entries. -/
theorem added_window (robotID : Int) (entries : List AgentTimeData) :
    (added robotID entries).maxEntrys = 30 ∧
      (added robotID entries).data = newest 30 entries := by
  induction entries using List.reverseRecOn with
  | nil => exact ⟨rfl, rfl⟩
  | append_singleton entries atd ih =>
    rw [added_append, addData_maxEntrys, addData_data, ih.1, ih.2]
    exact ⟨rfl, newest_newest_append 30 entries atd⟩

/-- The mean of the absolute differences between arrival and sending. -/
def meanDelay (w : List AgentTimeData) : ℚ :=
  (w.map fun atd =>
    |(atd.distributedMessageArrivalTime.toNat : ℚ) - atd.distributedTime.toNat|).sum / w.length

theorem meanDelay_eq {w : List AgentTimeData} (early : ∀ atd ∈ w, Early atd) :
    meanDelay w = ((w.map fun atd => |lag atd|).sum : ℚ) / w.length := by
  have each : (w.map fun atd =>
      |(atd.distributedMessageArrivalTime.toNat : ℚ) - atd.distributedTime.toNat|) =
      (w.map fun atd => |lag atd|).map Int.cast := by
    rw [List.map_map]
    refine List.map_congr_left fun atd member => ?_
    rw [Function.comp, (early atd member).lag_eq]
    push_cast
    rfl
  rw [meanDelay, each, Int.cast_list_sum]

/-- Rounding each entry costs less than one of each, and the sum of what is lost less than the
number of the entries. -/
theorem meanLag_bounds {w : List AgentTimeData} (nonempty : w ≠ [])
    (early : ∀ atd ∈ w, Early atd) :
    meanDelay w - (w.length - 1) ≤ meanLag w ∧ (meanLag w : ℚ) ≤ meanDelay w := by
  have bounds := mean_bounds (l := w.map fun atd => |lag atd|) (by simpa using nonempty)
  rw [List.length_map, List.map_map] at bounds
  rw [meanDelay_eq early]
  exact ⟨bounds.2, bounds.1⟩

/-- However many entries have been added, the window holds the newest thirty of them in their
order; and from two entries on the estimated delay comes about without an overflow and is their
mean delay, up to less than one for each entry but one. -/
theorem windowed_mean (robotID : Int) (entries : List AgentTimeData)
    (early : ∀ atd ∈ entries, Early atd) :
    (added robotID entries).data = entries.drop (entries.length - min entries.length 30) ∧
    (2 ≤ (added robotID entries).data.length →
      ∃ d, (added robotID entries).getMaxLikelihoodDelay config = .ok d ∧
        meanDelay (added robotID entries).data - ((added robotID entries).data.length - 1) ≤ d ∧
        (d : ℚ) ≤ meanDelay (added robotID entries).data) := by
  have window := (added_window robotID entries).2
  have inside : ∀ atd ∈ (added robotID entries).data, Early atd := by
    rw [window]
    exact fun atd member => early atd (newest_subset 30 entries member)
  refine ⟨?_, fun several => ?_⟩
  · rw [window, newest]
    congr 1
    omega
  · refine ⟨meanLag (added robotID entries).data, ?_, ?_⟩
    · refine (getMaxLikelihoodDelay_eq_ok several).mpr ⟨fun atd member => ?_, rfl⟩
      exact lt_trans (inside atd member).lag_lt (by decide)
    · exact meanLag_bounds (List.ne_nil_of_length_pos (by omega)) inside

/-- Exact arithmetic, with the value of the Lambert function for a probability of 0.99. -/
def tabulated : Doubles :=
  ⟨id, fun _ => 0, fun _ => -719 / 100⟩

/-- More entries than the window holds, one every 100 with delays from 10 to 41. -/
def manyEntries : List AgentTimeData :=
  (List.range 32).map fun i =>
    let sent := UInt64.ofNat (100 * i)
    ⟨0, sent, sent + UInt64.ofNat (10 + i), sent, 5⟩

/-- The first two of the 32 entries have left the window. -/
theorem windowed_mean_evicted :
    (added 1 manyEntries).data = manyEntries.drop 2 ∧
      ∃ d, (added 1 manyEntries).getMaxLikelihoodDelay ⟨0, 0, 1⟩ = .ok d ∧
        meanDelay (added 1 manyEntries).data - ((added 1 manyEntries).data.length - 1) ≤ d ∧
        (d : ℚ) ≤ meanDelay (added 1 manyEntries).data := by
  have early : ∀ atd ∈ manyEntries, Early atd := by
    unfold Early
    decide
  obtain ⟨window, mean⟩ := @windowed_mean ⟨0, 0, 1⟩ 1 manyEntries early
  refine ⟨window, mean ?_⟩
  rw [window]
  decide

end Window

section Variance

variable (config : TimeConfig) (acm : AgentCommunicationModel)

/-- The variance is the deviation of the absolute delays from the delay estimated from them;
it is small if they are equal. -/
def DescribesDelays : Prop :=
  ∃ m v, acm.getMaxLikelihoodDelay config = .ok m ∧
    acm.getMaxLikelihoodDelayVariance config (toCtime m) = .ok v ∧
    (v.toNat : Int) = (acm.data.map fun atd => |(|lag atd|) - m| / (acm.data.length : Int)).sum ∧
    ((∀ a ∈ acm.data, ∀ b ∈ acm.data, |lag a| = |lag b|) → v.toNat < acm.data.length)

/-- An entry that was received before it was sent is as far from the delay, in multiples of the
number of entries, as if it had been received as much later. -/
def Mirrored (w : List AgentTimeData) (atd : AgentTimeData) : Prop :=
  (|lag atd| + meanLag w) / (w.length : Int) = |(|lag atd|) - meanLag w| / (w.length : Int)

instance (w : List AgentTimeData) (atd : AgentTimeData) : Decidable (Mirrored w atd) :=
  inferInstanceAs (Decidable (_ = _))

variable {config acm}

theorem meanLag_nonneg (w : List AgentTimeData) : 0 ≤ meanLag w :=
  sum_nonneg fun atd _ => Int.ediv_nonneg (abs_nonneg (lag atd)) (by omega)

/-- The signed lag is never closer to the delay. -/
theorem abs_sub_cases {x m : Int} (nonneg : 0 ≤ m) :
    |(|x|) - m| ≤ |x - m| ∧ (0 ≤ x → |x - m| = |(|x|) - m|) ∧ (x < 0 → |x - m| = |x| + m) := by
  refine ⟨?_, fun positive => ?_, fun negative => ?_⟩
  · have triangle := abs_abs_sub_abs_le x m
    rwa [abs_of_nonneg nonneg] at triangle
  · rw [abs_of_nonneg positive]
  · rw [abs_of_neg negative, abs_of_neg (by omega)]
    omega

/-- Equal absolute lags are the estimated delay, up to less than the number of entries. -/
theorem deviation_of_equal {w : List AgentTimeData} (nonempty : w ≠ [])
    (equal : ∀ a ∈ w, ∀ b ∈ w, |lag a| = |lag b|) :
    (w.map fun atd => |(|lag atd|) - meanLag w| / (w.length : Int)).sum = 0 := by
  have pos : (0 : Int) < w.length := by
    have length := List.length_pos_of_ne_nil nonempty
    omega
  refine List.sum_eq_zero fun q member => ?_
  obtain ⟨atd, entry, rfl⟩ := List.mem_map.mp member
  have same : w.map (fun a => |lag a| / (w.length : Int)) =
      w.map fun _ => |lag atd| / (w.length : Int) :=
    List.map_congr_left fun a other => by rw [equal a other atd entry]
  have mean : meanLag w = w.length * (|lag atd| / (w.length : Int)) := by
    rw [meanLag, same, List.map_const', List.sum_replicate, nsmul_eq_mul]
  have rest := Int.emod_add_mul_ediv |lag atd| w.length
  have below := Int.emod_lt_of_pos |lag atd| pos
  have above := Int.emod_nonneg |lag atd| (by omega : (w.length : Int) ≠ 0)
  have distance : |(|lag atd|) - meanLag w| = |lag atd| % w.length := by
    rw [mean, abs_of_nonneg (by omega)]
    omega
  rw [distance]
  exact Int.ediv_eq_zero_of_lt above below

/-- On early stamps both estimators return, and the variance is taken from the signed lags. -/
theorem estimates_early (several : 2 ≤ acm.data.length) (early : ∀ atd ∈ acm.data, Early atd) :
    acm.getMaxLikelihoodDelay config = .ok (meanLag acm.data) ∧
      0 ≤ deviation acm.data (meanLag acm.data) ∧ deviation acm.data (meanLag acm.data) < 2 ^ 63 ∧
      acm.getMaxLikelihoodDelayVariance config (toCtime (meanLag acm.data)) =
        .ok (toCtime (deviation acm.data (meanLag acm.data))) := by
  have nonempty : acm.data ≠ [] := List.ne_nil_of_length_pos (by omega)
  have lags : ∀ atd ∈ acm.data, |lag atd| < 2 ^ 63 :=
    fun atd member => lt_trans (early atd member).lag_lt (by decide)
  have upper : meanLag acm.data ≤ 2 ^ 62 := by
    have each : ∀ a ∈ acm.data.map (fun atd => |lag atd|), a ≤ 2 ^ 62 := by
      intro a member
      obtain ⟨atd, entry, rfl⟩ := List.mem_map.mp member
      exact le_of_lt (early atd entry).lag_lt
    have many : ((acm.data.map fun atd => |lag atd|).length : Int) ≤ acm.data.length := by
      rw [List.length_map]
    have bound := sum_ediv_le many (by omega) (by decide) each
    rwa [List.map_map] at bound
  have lower := meanLag_nonneg acm.data
  have fits : Fits (meanLag acm.data) := ⟨by omega, by omega⟩
  have small : ∀ atd ∈ acm.data, |lag atd - meanLag acm.data| < 2 ^ 63 := by
    intro atd member
    have near := (early atd member).lag_lt
    rw [abs_lt] at near ⊢
    omega
  have bounds := quotients_fit nonempty (fun atd _ => abs_nonneg (lag atd - meanLag acm.data)) small
  refine ⟨(getMaxLikelihoodDelay_eq_ok several).mpr ⟨lags, rfl⟩, bounds.1, bounds.2, ?_⟩
  refine (getMaxLikelihoodDelayVariance_eq_ok several).mpr ⟨fun atd member => ?_, ?_⟩
  · rw [toLong_toCtime fits]
    exact ⟨(fits_abs.mpr (lags atd member)).1, small atd member⟩
  · rw [toLong_toCtime fits]

/-- Delay and variance describe the same delays exactly if no entry that arrived before it was
sent lies across a multiple of the number of entries from its mirror image. -/
theorem describes_delays_iff (several : 2 ≤ acm.data.length)
    (early : ∀ atd ∈ acm.data, Early atd) :
    DescribesDelays config acm ↔
      ∀ atd ∈ acm.data, atd.distributedMessageArrivalTime < atd.distributedTime →
        Mirrored acm.data atd := by
  have nonempty : acm.data ≠ [] := List.ne_nil_of_length_pos (by omega)
  have num : (0 : Int) ≤ acm.data.length := by omega
  have mean := meanLag_nonneg acm.data
  obtain ⟨delay, lower, upper, variance⟩ := @estimates_early config acm several early
  have sums := sum_map_eq_iff (l := acm.data)
    (f := fun atd => |(|lag atd|) - meanLag acm.data| / (acm.data.length : Int))
    (g := fun atd => |lag atd - meanLag acm.data| / (acm.data.length : Int))
    fun atd _ => Int.ediv_le_ediv (by omega) (abs_sub_cases mean).1
  have each : (∀ atd ∈ acm.data, |lag atd - meanLag acm.data| / (acm.data.length : Int) =
        |(|lag atd|) - meanLag acm.data| / (acm.data.length : Int)) ↔
      ∀ atd ∈ acm.data, atd.distributedMessageArrivalTime < atd.distributedTime →
        Mirrored acm.data atd := by
    refine forall₂_congr fun atd member => ?_
    have sign : atd.distributedMessageArrivalTime < atd.distributedTime ↔ lag atd < 0 := by
      rw [(early atd member).lag_eq, UInt64.lt_iff_toNat_lt]
      omega
    have cases := abs_sub_cases (x := lag atd) mean
    rw [sign]
    by_cases negative : lag atd < 0
    · rw [cases.2.2 negative]
      exact ⟨fun same _ => same, fun same => same negative⟩
    · rw [cases.2.1 (by omega)]
      exact ⟨fun _ before => absurd before negative, fun _ => rfl⟩
  rw [← each, ← sums]
  constructor
  · rintro ⟨m, v, delay', variance', formula, -⟩
    rw [delay] at delay'
    cases delay'
    rw [variance] at variance'
    cases variance'
    rwa [toNat_toCtime lower upper] at formula
  · intro same
    refine ⟨_, _, delay, variance, (toNat_toCtime lower upper).trans same, fun equal => ?_⟩
    have zero := same.trans (deviation_of_equal nonempty equal)
    have word := (toNat_toCtime lower upper).trans zero
    omega

/-- Two messages that take 33, after one from a robot whose clock was ahead by one. -/
def onceAheadEntries : List AgentTimeData :=
  [⟨0, 1, 0, 0, 5⟩, ⟨0, 100, 133, 100, 5⟩, ⟨0, 200, 233, 200, 5⟩]

/-- The delay is 22, and an entry that is off by 21 or by 23 adds the same to the variance. -/
theorem describes_delays_mirrored :
    DescribesDelays ⟨0, 0, 1⟩ (added 1 onceAheadEntries) := by
  have early : ∀ atd ∈ (added 1 onceAheadEntries).data, Early atd := by
    unfold Early
    decide
  exact (describes_delays_iff (by decide) early).mpr (by decide)

/-- Two messages from a robot whose clock is ahead by ten. -/
def aheadEntries : List AgentTimeData :=
  [⟨0, 10, 0, 0, 5⟩, ⟨0, 110, 100, 100, 5⟩]

/-- Equal delays of 10, estimated as 10, with a variance of 20. -/
theorem describes_delays_ahead : ¬ DescribesDelays ⟨0, 0, 1⟩ (added 1 aheadEntries) := by
  rintro ⟨m, v, delay, variance, formula, -⟩
  have ten : (added 1 aheadEntries).getMaxLikelihoodDelay ⟨0, 0, 1⟩ = .ok 10 := by
    decide +kernel
  rw [ten] at delay
  cases delay
  have twenty : (added 1 aheadEntries).getMaxLikelihoodDelayVariance ⟨0, 0, 1⟩ (toCtime 10) =
      .ok 20 := by
    decide +kernel
  rw [twenty] at variance
  cases variance
  exact absurd formula (by decide)

end Variance

end CaceProofs.Guarantees
