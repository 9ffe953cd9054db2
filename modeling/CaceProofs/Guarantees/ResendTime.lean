import CaceProofs.Guarantees.DelayEstimates

/-!
# The divisor of the consensus estimate

`getPropabilityConsensus` divides by the resend time, which is twice the delay and a multiple of
the variance, rounded towards zero. Nothing keeps the two from cancelling.
-/
namespace CaceProofs.Guarantees
open Source Library

variable (f : Doubles) (config : TimeConfig) (acm : AgentCommunicationModel) (p : ℚ)

/-- The delay of a window, from two entries on an estimate. -/
def delayOf (w : List AgentTimeData) : Int :=
  if w.length ≤ 1 then toLong config.defaultDelay else meanLag w

/-- The variance that goes with it. -/
def varianceOf (w : List AgentTimeData) : Int :=
  if w.length ≤ 1 then toLong config.defaultDelayVariance else deviation w (meanLag w)

/-- The lags, and what they deviate, are in the range of a `long`. -/
def Regular (w : List AgentTimeData) : Prop :=
  2 ≤ w.length → ∀ atd ∈ w, |lag atd| < 2 ^ 63 ∧ |lag atd - meanLag w| < 2 ^ 63

/-- The cast of a double to an integer. -/
def towardsZero (x : ℚ) : Int :=
  if 0 ≤ x then ⌊x⌋ else ⌈x⌉

/-- The multiple of the variance, as `getEstimatedResendTime` casts it. -/
def spread (w : List AgentTimeData) : Int :=
  towardsZero (AgentCommunicationModel.quantile f (varianceOf config w) p)

/-- No step towards the resend time leaves the range of a `long`. -/
structure InRange (w : List AgentTimeData) : Prop where
  regular : Regular w
  spread : Fits (spread f config p w)
  twice : Fits (2 * delayOf config w)
  sum : Fits (Guarantees.spread f config p w + 2 * delayOf config w)

/-- The multiple of the variance is minus twice the delay. -/
def Cancels (w : List AgentTimeData) : Prop :=
  spread f config p w = -(2 * delayOf config w)

section Estimates

variable {config acm}

/-- The two estimates come about on regular windows. -/
theorem estimates_eq_ok {m : Int} {v : UInt64} :
    acm.getMaxLikelihoodDelay config = .ok m ∧
        acm.getMaxLikelihoodDelayVariance config (toCtime m) = .ok v ↔
      Regular acm.data ∧ m = delayOf config acm.data ∧
        v = toCtime (varianceOf config acm.data) := by
  unfold Regular delayOf varianceOf
  by_cases few : acm.data.length ≤ 1
  · unfold AgentCommunicationModel.getMaxLikelihoodDelay
      AgentCommunicationModel.getMaxLikelihoodDelayVariance
    rw [if_pos few, if_pos few, if_pos few, if_pos few, toCtime_toLong]
    change Except.ok _ = Except.ok m ∧ Except.ok _ = Except.ok v ↔ _
    rw [Except.ok.injEq, Except.ok.injEq]
    constructor
    · rintro ⟨delay, variance⟩
      exact ⟨fun several => by omega, delay.symm, variance.symm⟩
    · rintro ⟨-, delay, variance⟩
      exact ⟨delay.symm, variance.symm⟩
  · have several : 2 ≤ acm.data.length := by omega
    rw [getMaxLikelihoodDelay_eq_ok several, getMaxLikelihoodDelayVariance_eq_ok several,
      if_neg few, if_neg few]
    have nonempty : acm.data ≠ [] := List.ne_nil_of_length_pos (by omega)
    have long : ∀ lags : ∀ atd ∈ acm.data, |lag atd| < 2 ^ 63,
        toLong (toCtime (meanLag acm.data)) = meanLag acm.data := by
      intro lags
      have bounds := quotients_fit nonempty (fun atd _ => abs_nonneg (lag atd)) lags
      exact toLong_toCtime ⟨le_trans (by decide) bounds.1, bounds.2⟩
    constructor
    · rintro ⟨⟨lags, rfl⟩, spread, rfl⟩
      rw [long lags] at spread ⊢
      exact ⟨fun _ atd member => ⟨lags atd member, (spread atd member).2⟩, rfl, rfl⟩
    · rintro ⟨regular, rfl, rfl⟩
      have lags := fun atd member => (regular several atd member).1
      rw [long lags]
      refine ⟨⟨lags, rfl⟩, fun atd member => ⟨?_, (regular several atd member).2⟩, rfl⟩
      exact (fits_abs.mpr (lags atd member)).1

theorem varianceOf_fits (regular : Regular acm.data) : Fits (varianceOf config acm.data) := by
  unfold varianceOf
  by_cases few : acm.data.length ≤ 1
  · rw [if_pos few]
    exact toLong_fits _
  · rw [if_neg few]
    have bounds := quotients_fit (List.ne_nil_of_length_pos (by omega))
      (fun atd _ => abs_nonneg (lag atd - meanLag acm.data))
      fun atd member => (regular (by omega) atd member).2
    exact ⟨le_trans (by decide) bounds.1, bounds.2⟩

variable {f p}

/-- The resend time comes about if nothing overflows. -/
theorem resendTime_eq_ok {t : UInt64} :
    acm.getEstimatedResendTime f config p = .ok t ↔ InRange f config p acm.data ∧
      toCtime (spread f config p acm.data + 2 * delayOf config acm.data) = t := by
  have tail : ∀ {m : Int} {x : ℚ}, (do
      let ret ← Doubles.toLong x
      let twice ← checked (2 * m)
      let ret ← checked (ret + twice)
      return toCtime ret) = (.ok t : Except ArithmeticFault UInt64) ↔
      Fits (towardsZero x) ∧ Fits (2 * m) ∧ Fits (towardsZero x + 2 * m) ∧
        toCtime (towardsZero x + 2 * m) = t := by
    intro m x
    change (checked (towardsZero x) >>= _) = _ ↔ _
    rw [checked_bind_eq_ok, checked_bind_eq_ok, checked_bind_eq_ok]
    change _ ∧ _ ∧ _ ∧ Except.ok (toCtime _) = .ok t ↔ _
    rw [Except.ok.injEq]
  unfold AgentCommunicationModel.getEstimatedResendTime
  rw [ok_bind_eq_ok]
  simp only [ok_bind_eq_ok (x := acm.getMaxLikelihoodDelayVariance config _), tail]
  constructor
  · rintro ⟨m, delay, v, variance, fits⟩
    obtain ⟨regular, rfl, rfl⟩ := estimates_eq_ok.mp ⟨delay, variance⟩
    rw [toLong_toCtime (varianceOf_fits regular)] at fits
    exact ⟨⟨regular, fits.1, fits.2.1, fits.2.2.1⟩, fits.2.2.2⟩
  · rintro ⟨range, result⟩
    obtain ⟨delay, variance⟩ := estimates_eq_ok.mpr ⟨range.regular, rfl, rfl⟩
    refine ⟨_, delay, _, variance, ?_⟩
    rw [toLong_toCtime (varianceOf_fits range.regular)]
    exact ⟨range.spread, range.twice, range.sum, result⟩

end Estimates

section Division

/-- The consensus estimate is computed, with a divisor other than zero. -/
def Divides (elapsed : UInt64) : Prop :=
  ∃ resendTime trails, acm.getEstimatedResendTime f config p = .ok resendTime ∧ resendTime ≠ 0 ∧
    acm.consensusTrails f config elapsed p = .ok trails

/-- A resend time other than zero is all that the division needs. -/
theorem divides_of_resendTime (elapsed : UInt64) :
    Divides f config acm p elapsed ↔
      ∃ resendTime, acm.getEstimatedResendTime f config p = .ok resendTime ∧ resendTime ≠ 0 := by
  constructor
  · rintro ⟨resendTime, -, resend, nonzero, -⟩
    exact ⟨resendTime, resend, nonzero⟩
  · rintro ⟨resendTime, resend, nonzero⟩
    refine ⟨resendTime, toInt (elapsed / resendTime).toNat, resend, nonzero, ?_⟩
    unfold AgentCommunicationModel.consensusTrails
    rw [resend]
    exact if_neg nonzero

/-- Whatever has been added to the window and however long ago the packet was sent, the division
is by something else than zero exactly if delay and variance are computed without an overflow and
do not cancel. -/
theorem divides_iff (robotID : Int) (entries : List AgentTimeData) (elapsed : UInt64) :
    Divides f config (added robotID entries) p elapsed ↔
      InRange f config p (added robotID entries).data ∧
        ¬ Cancels f config p (added robotID entries).data := by
  rw [divides_of_resendTime]
  constructor
  · rintro ⟨t, resend, nonzero⟩
    obtain ⟨range, rfl⟩ := resendTime_eq_ok.mp resend
    refine ⟨range, fun cancels => nonzero ((toCtime_eq_zero range.sum).mpr ?_)⟩
    unfold Cancels at cancels
    omega
  · rintro ⟨range, apart⟩
    refine ⟨_, resendTime_eq_ok.mpr ⟨range, rfl⟩, fun zero => apart ?_⟩
    have sum := (toCtime_eq_zero range.sum).mp zero
    unfold Cancels
    omega

/-- It is by zero for all probabilities if the delays are below the number of entries, as on a
network without delay; and so it is on the defaults of zero. -/
theorem cancels_of_small {w : List AgentTimeData} (unrounded : f.rounded 0 = 0)
    (few : w.length ≤ 1 → config.defaultDelay = 0 ∧ config.defaultDelayVariance = 0)
    (small : 2 ≤ w.length → ∀ atd ∈ w, |lag atd| < w.length) : Cancels f config p w := by
  have delay : delayOf config w = 0 := by
    unfold delayOf
    split
    next short =>
      rw [(few short).1]
      decide +kernel
    next long =>
      refine List.sum_eq_zero fun q member => ?_
      obtain ⟨atd, entry, rfl⟩ := List.mem_map.mp member
      exact Int.ediv_eq_zero_of_lt (abs_nonneg _) (small (by omega) atd entry)
  have variance : varianceOf config w = 0 := by
    unfold varianceOf
    unfold delayOf at delay
    split
    next short =>
      rw [(few short).2]
      decide +kernel
    next long =>
      rw [if_neg long] at delay
      refine List.sum_eq_zero fun q member => ?_
      obtain ⟨atd, entry, rfl⟩ := List.mem_map.mp member
      rw [delay, sub_zero]
      exact Int.ediv_eq_zero_of_lt (abs_nonneg _) (small (by omega) atd entry)
  unfold Cancels spread
  rw [delay, variance]
  have zero : AgentCommunicationModel.quantile f 0 p = 0 := by
    unfold AgentCommunicationModel.quantile Doubles.ofLong
    simp [unrounded]
  rw [zero]
  rfl

/-- A joined agent whose first two messages arrived within a nanosecond of being sent. -/
theorem divides_coinciding :
    ¬ Divides tabulated ⟨0, 0, 1⟩ (added 1 [⟨0, 10, 11, 11, 5⟩, ⟨0, 20, 20, 20, 5⟩]) (99 / 100)
      7 := by
  rintro ⟨t, -, resend, nonzero, -⟩
  have zero : (added 1 [⟨0, 10, 11, 11, 5⟩, ⟨0, 20, 20, 20, 5⟩]).getEstimatedResendTime tabulated
      ⟨0, 0, 1⟩ (99 / 100) = .ok 0 := by decide +kernel
  exact nonzero (Except.ok.inj (resend.symm.trans zero))

end Division

end CaceProofs.Guarantees
