import CaceProofs.Guarantees.DelayEstimates

/-!
# Squares and losses over a window

Two estimates that grow with the window: the sum of squares behind the weighted delay, which
depends on how far apart the clocks are, and the packet loss, which divides the number of the
messages by how many were to be expected.
-/
namespace CaceProofs.Guarantees
open Source Library

section Squares

/-- The absolute lag in milliseconds. -/
def milliseconds (atd : AgentTimeData) : Int :=
  |(toLong atd.distributedMessageArrivalTime).tdiv 1000000
    - (toLong atd.distributedTime).tdiv 1000000|

def squareSum (w : List AgentTimeData) : Int :=
  (w.map fun atd => milliseconds atd * milliseconds atd).sum

/-- The accumulator of `getWeightedDelay`, which runs from two entries on, has a value that fits
and is not negative before the first entry and after each one. -/
def AccumulatorFits (w : List AgentTimeData) : Prop :=
  2 ≤ w.length → ∀ before, before <+: w →
    ∃ m, accumulate AgentCommunicationModel.squareTerm before = .ok m ∧ 0 ≤ m ∧ m < 2 ^ 63

theorem tdiv_million {x : Int} (fits : Fits x) :
    -2 ^ 44 < x.tdiv 1000000 ∧ x.tdiv 1000000 < 2 ^ 44 := by
  obtain ⟨lower, upper⟩ := fits
  rcases le_total 0 x with positive | negative
  · rw [Int.tdiv_eq_ediv_of_nonneg positive]
    omega
  · have mirrored : x.tdiv 1000000 = -((-x) / 1000000) := by
      rw [← Int.tdiv_eq_ediv_of_nonneg (by omega), Int.neg_tdiv, neg_neg]
    rw [mirrored]
    omega

theorem milliseconds_fits (atd : AgentTimeData) : Fits (milliseconds atd) := by
  have arrival := tdiv_million (toLong_fits atd.distributedMessageArrivalTime)
  have sent := tdiv_million (toLong_fits atd.distributedTime)
  have difference : milliseconds atd < 2 ^ 63 := by
    unfold milliseconds
    rw [abs_lt]
    omega
  exact ⟨le_trans (by decide) (abs_nonneg _), difference⟩

theorem squareTerm_eq (atd : AgentTimeData) :
    AgentCommunicationModel.squareTerm atd =
      checked (milliseconds atd * milliseconds atd) :=
  checked_bind_of_fits (fun delay => checked (delay * delay)) (milliseconds_fits atd)

theorem squares_nonneg (w : List AgentTimeData) :
    ∀ atd ∈ w, 0 ≤ milliseconds atd * milliseconds atd :=
  fun _ _ => mul_self_nonneg _

theorem squareSum_prefix {before w : List AgentTimeData} (part : before <+: w) :
    0 ≤ squareSum before ∧ squareSum before ≤ squareSum w := by
  obtain ⟨after, rfl⟩ := part
  have first := sum_nonneg (squares_nonneg before)
  have second := sum_nonneg (squares_nonneg after)
  unfold squareSum at *
  rw [List.map_append, List.sum_append]
  omega

/-- Squares that can be added up fit one by one. -/
theorem squareSum_eq_ok {w : List AgentTimeData} {m : Int} :
    accumulate AgentCommunicationModel.squareTerm w = .ok m ↔
      squareSum w < 2 ^ 63 ∧ m = squareSum w := by
  have loop := @accumulate_eq_ok _ AgentCommunicationModel.squareTerm
    (fun atd => milliseconds atd * milliseconds atd) w (squares_nonneg w)
    (fun atd _ t run => by
      rw [squareTerm_eq] at run
      exact (checked_eq_ok.mp run).2.symm) m
  refine loop.trans (and_iff_right_of_imp fun bound atd member => ?_)
  obtain ⟨front, back, rfl⟩ := List.append_of_mem member
  have before := sum_nonneg (squares_nonneg front)
  have after := sum_nonneg (squares_nonneg back)
  have here := mul_self_nonneg (milliseconds atd)
  have whole := bound.1
  rw [List.map_append, List.map_cons, List.sum_append, List.sum_cons] at whole
  rw [squareTerm_eq]
  exact checked_of_fits ⟨by omega, by omega⟩

/-- The whole sum is the largest value. -/
theorem accumulatorFits_iff {w : List AgentTimeData} :
    AccumulatorFits w ↔ (2 ≤ w.length → squareSum w < 2 ^ 63) := by
  refine forall_congr' fun several => ?_
  constructor
  · intro fits
    obtain ⟨m, sum, -, -⟩ := fits w (List.prefix_refl w)
    exact (squareSum_eq_ok.mp sum).1
  · intro bound before part
    have bounds := squareSum_prefix part
    exact ⟨_, squareSum_eq_ok.mpr ⟨by omega, rfl⟩, bounds.1, by omega⟩

end Squares

section Messages

variable {f : Doubles} {config : TimeConfig} {tm tm' : TimeManager}
  {entries : Int → List AgentTimeData} {agt : AgentTimeData}

/-- The entries by sender, with one more. -/
def entriesWith (entries : Int → List AgentTimeData) (agt : AgentTimeData) (id : Int) :
    List AgentTimeData :=
  if id = agt.robotID then entries id ++ [agt] else entries id

variable (f config) in
/-- Time messages one after the other, with the entries that have been made for each sender. -/
inductive Timed : TimeManager → (Int → List AgentTimeData) → Prop
  | start : Timed {} fun _ => []
  | message {tm tm' : TimeManager} {entries : Int → List AgentTimeData} {agt : AgentTimeData}
      (ct : CaceTime) (receivedTime : UInt64) (before : Timed tm entries)
      (entry : tm.timeData ct receivedTime = .ok agt)
      (next : tm.addTimeMessage f config ct receivedTime = .ok tm') :
      Timed tm' (entriesWith entries agt)

/-- The model of each sender holds the newest thirty of its entries. -/
def Windows (tm : TimeManager) (entries : Int → List AgentTimeData) : Prop :=
  ∀ id, (tm.agentModels.lookup id).map (fun model => (model.maxEntrys, model.data)) =
    if entries id = [] then none else some (30, newest 30 (entries id))

theorem adjust_agentModels (next : tm.adjust f config = .ok tm') :
    tm'.agentModels = tm.agentModels := by
  unfold TimeManager.adjust at next
  obtain ⟨diffSum, -, next⟩ := ok_bind_eq_ok.mp next
  obtain ⟨correction, -, next⟩ := ok_bind_eq_ok.mp next
  obtain ⟨timeDiff, -, next⟩ := ok_bind_eq_ok.mp next
  cases next
  rfl

theorem Windows.addEntry (before : Windows tm entries) (agt : AgentTimeData) :
    Windows (tm.addEntry agt) (entriesWith entries agt) := by
  intro id
  have here := before agt.robotID
  unfold TimeManager.addEntry entriesWith
  cases found : tm.agentModels.lookup agt.robotID with
  | some model =>
    rw [found] at here
    by_cases empty : entries agt.robotID = []
    · rw [if_pos empty] at here
      cases here
    · rw [if_neg empty] at here
      injection here with here
      injection here with limit data
      by_cases same : id = agt.robotID
      · subst same
        simp only [lookup_replaceValue, found, if_true, Option.map_some]
        rw [if_neg (by simp), addData_maxEntrys, addData_data, limit, data,
          newest_newest_append]
      · simp only [lookup_replaceValue, if_neg same]
        exact before id
  | none =>
    rw [found] at here
    by_cases empty : entries agt.robotID = []
    · by_cases same : id = agt.robotID
      · subst same
        simp only [lookup_insertOrdered found, if_true, Option.map_some]
        rw [if_neg (by simp), empty]
        rfl
      · simp only [lookup_insertOrdered found, if_neg same]
        exact before id
    · rw [if_neg empty] at here
      cases here

theorem Timed.windows (timed : Timed f config tm entries) : Windows tm entries := by
  induction timed with
  | start => exact fun id => rfl
  | message ct receivedTime _ entry next ih =>
    obtain ⟨agt, entry', adjusted⟩ := ok_bind_eq_ok.mp next
    rw [entry] at entry'
    cases entry'
    intro id
    rw [adjust_agentModels adjusted]
    exact ih.addEntry _ id

/-- After any time messages and with any next entry, the accumulator runs over the newest
thirty entries of a sender, and it fits exactly if the squares of their lags in milliseconds do
not add up to 2^63. -/
theorem weighted_delay_iff (timed : Timed f config tm entries) (agt : AgentTimeData) (id : Int)
    (model : AgentCommunicationModel)
    (stored : (tm.addEntry agt).agentModels.lookup id = some model) :
    model.data = newest 30 (entriesWith entries agt id) ∧
      (AccumulatorFits model.data ↔
        (2 ≤ model.data.length → squareSum (newest 30 (entriesWith entries agt id)) < 2 ^ 63)) := by
  have window := timed.windows.addEntry agt id
  rw [stored] at window
  by_cases empty : entriesWith entries agt id = []
  · rw [if_pos empty] at window
    cases window
  · rw [if_neg empty] at window
    injection window with window
    injection window with limit data
    have kept : model.data = newest 30 (entriesWith entries agt id) := data
    refine ⟨kept, ?_⟩
    rw [← kept]
    exact accumulatorFits_iff

/-- A message that a robot sends at its time zero, as an entry for the time it is received at. -/
def sampleMessage : CaceTime := ⟨5, 0, 0, 1⟩

def sampleEntry (receivedTime : UInt64) : AgentTimeData :=
  ⟨0, 0, receivedTime, receivedTime, 5⟩

def sampleManager (entries : List AgentTimeData) : TimeManager :=
  { agentModels := [(5, { robotID := 5, data := entries })] }

/-- Two messages a day late. -/
theorem weighted_delay_day :
    AccumulatorFits [sampleEntry 86400000000000, sampleEntry 86400000000000] := by
  have entry : TimeManager.timeData {} sampleMessage 86400000000000 =
      .ok (sampleEntry 86400000000000) := by decide +kernel
  have next : TimeManager.addTimeMessage tabulated ⟨0, 0, 1⟩ {} sampleMessage 86400000000000 =
      .ok (sampleManager [sampleEntry 86400000000000]) := by decide +kernel
  have first := Timed.message sampleMessage 86400000000000 .start entry next
  have second := weighted_delay_iff first (sampleEntry 86400000000000) 5
    { robotID := 5, data := [sampleEntry 86400000000000, sampleEntry 86400000000000] }
    (by decide +kernel)
  exact second.2.mpr fun _ => by decide +kernel

/-- Two messages of a robot whose clock is five billion seconds behind: the first square of
milliseconds is more than a `long`. -/
theorem weighted_delay_apart : ∃ tm entries agt model,
    Timed tabulated ⟨0, 0, 1⟩ tm entries ∧
      tm.timeData sampleMessage 5000000000000000000 = .ok agt ∧
      (tm.addEntry agt).agentModels.lookup 5 = some model ∧ ¬ AccumulatorFits model.data := by
  have entry : TimeManager.timeData {} sampleMessage 5000000000000000000 =
      .ok (sampleEntry 5000000000000000000) := by decide +kernel
  have next :
      TimeManager.addTimeMessage tabulated ⟨0, 0, 1⟩ {} sampleMessage 5000000000000000000 =
        .ok (sampleManager [sampleEntry 5000000000000000000]) := by decide +kernel
  have first := Timed.message sampleMessage 5000000000000000000 .start entry next
  refine ⟨_, _, sampleEntry 5000000000000000000, { robotID := 5, data :=
    [sampleEntry 5000000000000000000, sampleEntry 5000000000000000000] }, first,
    by decide +kernel, by decide +kernel, ?_⟩
  intro fits
  obtain ⟨m, sum, -, -⟩ := fits (by decide) _ (List.prefix_refl _)
  have overflow : accumulate AgentCommunicationModel.squareTerm
      [sampleEntry 5000000000000000000, sampleEntry 5000000000000000000] =
        .error .overflow := by decide +kernel
  rw [overflow] at sum
  cases sum

end Messages

section Losses

variable (config : TimeConfig) (acm acm' : AgentCommunicationModel)

/-- The stamps of the oldest and of the newest message by the sender's clock. -/
def oldestTime (w : List AgentTimeData) : Nat :=
  (w.map fun atd => atd.distributedTime.toNat).min?.getD 0

def newestTime (w : List AgentTimeData) : Nat :=
  (w.map fun atd => atd.distributedTime.toNat).max?.getD 0

/-- At least two messages that were not all sent at the same time. -/
def Spread (w : List AgentTimeData) : Prop :=
  2 ≤ w.length ∧ oldestTime w ≠ newestTime w

/-- Windows with the same oldest and newest stamp. -/
def SameSpan (w w' : List AgentTimeData) : Prop :=
  Spread w ∧ Spread w' ∧ oldestTime w = oldestTime w' ∧ newestTime w = newestTime w'

/-- The estimate is a probability, and more messages over the same span are no greater loss. -/
def IsLoss : Prop :=
  (0 ≤ acm.getProbabilityForPacketLoss config ∧ acm.getProbabilityForPacketLoss config ≤ 1) ∧
    (SameSpan acm.data acm'.data → acm.data.length < acm'.data.length →
      acm'.getProbabilityForPacketLoss config ≤ acm.getProbabilityForPacketLoss config)

/-- As many messages as were to be expected in the time, or fewer. -/
def Sparse (w : List AgentTimeData) : Prop :=
  (w.length - 1) * (AgentCommunicationModel.interval config).toNat ≤ newestTime w - oldestTime w

variable {config acm acm'}

/-- The loop finds a first and a last message. -/
theorem extremes_foldl (w : List AgentTimeData) (oldest newest : AgentTimeData) :
    ∃ o n, w.foldl AgentCommunicationModel.extremes (some oldest, some newest) =
        (some o, some n) ∧
      o.distributedTime.toNat = (w.map fun atd => atd.distributedTime.toNat).foldl min
        oldest.distributedTime.toNat ∧
      n.distributedTime.toNat = (w.map fun atd => atd.distributedTime.toNat).foldl max
        newest.distributedTime.toNat := by
  induction w generalizing oldest newest with
  | nil => exact ⟨oldest, newest, rfl, rfl, rfl⟩
  | cons atd rest ih =>
    obtain ⟨o, n, run, lowest, highest⟩ := ih
      (if atd.distributedTime < oldest.distributedTime then atd else oldest)
      (if newest.distributedTime < atd.distributedTime then atd else newest)
    refine ⟨o, n, run, lowest.trans ?_, highest.trans ?_⟩
    · rw [List.map_cons, List.foldl_cons]
      congr 1
      simp only [UInt64.lt_iff_toNat_lt]
      split <;> omega
    · rw [List.map_cons, List.foldl_cons]
      congr 1
      simp only [UInt64.lt_iff_toNat_lt]
      split <;> omega

theorem extremes_window {w : List AgentTimeData} (nonempty : w ≠ []) :
    ∃ o n, w.foldl AgentCommunicationModel.extremes (none, none) = (some o, some n) ∧
      o.distributedTime.toNat = oldestTime w ∧ n.distributedTime.toNat = newestTime w := by
  cases w with
  | nil => exact absurd rfl nonempty
  | cons atd rest =>
    obtain ⟨o, n, run, lowest, highest⟩ := extremes_foldl rest atd atd
    refine ⟨o, n, ?_, lowest, highest⟩
    rw [List.foldl_cons, ← run]
    congr 1
    simp [AgentCommunicationModel.extremes]

theorem oldestTime_le (w : List AgentTimeData) : oldestTime w ≤ newestTime w := by
  unfold oldestTime newestTime
  cases lowest : (w.map fun atd => atd.distributedTime.toNat).min? with
  | none => exact Nat.zero_le _
  | some lo =>
    have least := List.min?_eq_some_iff.mp lowest
    cases highest : (w.map fun atd => atd.distributedTime.toNat).max? with
    | none =>
      rw [List.max?_eq_none_iff] at highest
      rw [highest] at least
      exact absurd least.1 List.not_mem_nil
    | some hi => exact (List.max?_eq_some_iff.mp highest).2 lo least.1

/-- What the estimate comes down to. -/
theorem loss_eq (spread : Spread acm.data) :
    acm.getProbabilityForPacketLoss config =
      if AgentCommunicationModel.interval config = 0 then 0
      else (acm.data.length : ℚ) / (1 + ((newestTime acm.data - oldestTime acm.data : Nat) : ℚ) /
        ((AgentCommunicationModel.interval config).toNat : ℚ)) := by
  obtain ⟨several, apart⟩ := spread
  obtain ⟨o, n, run, lowest, highest⟩ :=
    extremes_window (List.ne_nil_of_length_pos (by omega : 0 < acm.data.length))
  have order := oldestTime_le acm.data
  have diff : (n.distributedTime - o.distributedTime).toNat =
      newestTime acm.data - oldestTime acm.data := by
    rw [UInt64.toNat_sub_of_le _ _ (UInt64.le_iff_toNat_le.mpr (by omega)), lowest, highest]
  have nonzero : n.distributedTime - o.distributedTime ≠ 0 := by
    intro zero
    rw [zero, UInt64.toNat_zero] at diff
    omega
  unfold AgentCommunicationModel.getProbabilityForPacketLoss
  rw [if_neg (by omega), run]
  dsimp only
  rw [if_neg nonzero, diff]

/-- Without a span it is the default. -/
theorem loss_default (narrow : ¬ Spread acm.data) :
    acm.getProbabilityForPacketLoss config = 1 / 10 := by
  unfold AgentCommunicationModel.getProbabilityForPacketLoss
  by_cases few : acm.data.length < 2
  · rw [if_pos few]
  · obtain ⟨o, n, run, lowest, highest⟩ :=
      extremes_window (List.ne_nil_of_length_pos (by omega : 0 < acm.data.length))
    have together : oldestTime acm.data = newestTime acm.data :=
      not_not.mp fun apart => narrow ⟨by omega, apart⟩
    have zero : n.distributedTime - o.distributedTime = 0 := by
      have same : n.distributedTime = o.distributedTime :=
        UInt64.toNat_inj.mp (by omega)
      rw [same, UInt64.sub_self]
    rw [if_neg few, run]
    dsimp only
    rw [if_pos zero]

section Quotient

variable {n k diff interval : Nat}

theorem loss_le_one (several : 1 ≤ n) (pos : 0 < interval) :
    (n : ℚ) / (1 + (diff : ℚ) / (interval : ℚ)) ≤ 1 ↔ (n - 1) * interval ≤ diff := by
  have interval' : (0 : ℚ) < interval := by exact_mod_cast pos
  have expected : (0 : ℚ) < 1 + (diff : ℚ) / interval := by positivity
  rw [div_le_one expected, ← sub_le_iff_le_add', le_div_iff₀ interval']
  have cast : ((n - 1 : Nat) : ℚ) = (n : ℚ) - 1 := by
    rw [Nat.cast_sub several, Nat.cast_one]
  rw [← cast]
  exact_mod_cast Iff.rfl

theorem loss_le_loss (pos : 0 < interval) :
    (k : ℚ) / (1 + (diff : ℚ) / (interval : ℚ)) ≤ (n : ℚ) / (1 + (diff : ℚ) / (interval : ℚ)) ↔
      k ≤ n := by
  have interval' : (0 : ℚ) < interval := by exact_mod_cast pos
  have expected : (0 : ℚ) < 1 + (diff : ℚ) / interval := by positivity
  rw [div_le_div_iff_of_pos_right expected]
  exact_mod_cast Iff.rfl

end Quotient

theorem interval_pos (nonzero : AgentCommunicationModel.interval config ≠ 0) :
    0 < (AgentCommunicationModel.interval config).toNat := by
  refine Nat.pos_of_ne_zero fun zero => nonzero ?_
  exact UInt64.toNat_inj.mp zero

/-- The estimate is a loss exactly if there are no more messages than were to be expected, and
no second window over the same span that holds more of them; or if the interval wraps to zero. -/
theorem packet_loss_iff :
    IsLoss config acm acm' ↔
      AgentCommunicationModel.interval config = 0 ∨
        ((Spread acm.data → Sparse config acm.data) ∧
          (SameSpan acm.data acm'.data → acm'.data.length ≤ acm.data.length)) := by
  unfold IsLoss
  by_cases wrapped : AgentCommunicationModel.interval config = 0
  · refine iff_of_true ⟨?_, fun same _ => ?_⟩ (.inl wrapped)
    · by_cases spread : Spread acm.data
      · rw [loss_eq spread, if_pos wrapped]
        norm_num
      · rw [loss_default spread]
        norm_num
    · rw [loss_eq same.1, loss_eq same.2.1, if_pos wrapped, if_pos wrapped]
  · have pos := interval_pos wrapped
    rw [or_iff_right wrapped]
    refine and_congr ?_ (forall_congr' fun same => ?_)
    · by_cases spread : Spread acm.data
      · have several := spread.1
        have range : (0 : ℚ) ≤ (acm.data.length : ℚ) /
            (1 + ((newestTime acm.data - oldestTime acm.data : Nat) : ℚ) /
              ((AgentCommunicationModel.interval config).toNat : ℚ)) := by positivity
        rw [loss_eq spread, if_neg wrapped, and_iff_right range, loss_le_one (by omega) pos]
        exact ⟨fun sparse _ => sparse, fun sparse => sparse spread⟩
      · rw [loss_default spread]
        refine iff_of_true (by norm_num) fun wide => absurd wide spread
    · obtain ⟨spread, spread', oldest, newest⟩ := same
      rw [loss_eq spread, loss_eq spread', if_neg wrapped, if_neg wrapped, ← oldest, ← newest,
        loss_le_loss pos]
      omega

/-- Thirty messages, one for each interval of a millisecond. -/
def steadyEntries : List AgentTimeData :=
  (List.range 30).map fun i => ⟨0, UInt64.ofNat (i * 1000000), 0, 0, 5⟩

/-- Every message has been received, and the loss is estimated at one; of two more windows over
the same span, the one that holds more messages has the greater loss. -/
theorem packet_loss_steady :
    (added 5 steadyEntries).getProbabilityForPacketLoss ⟨0, 0, 1⟩ = 1 ∧
      ¬ IsLoss ⟨0, 0, 1⟩ (added 5 [⟨0, 0, 0, 0, 5⟩, ⟨0, 3000000, 0, 0, 5⟩])
        (added 5 [⟨0, 0, 0, 0, 5⟩, ⟨0, 1000000, 0, 0, 5⟩, ⟨0, 3000000, 0, 0, 5⟩]) := by
  refine ⟨by decide +kernel, ?_⟩
  rintro ⟨-, antitone⟩
  have same : SameSpan (added 5 [⟨0, 0, 0, 0, 5⟩, ⟨0, 3000000, 0, 0, 5⟩]).data
      (added 5 [⟨0, 0, 0, 0, 5⟩, ⟨0, 1000000, 0, 0, 5⟩, ⟨0, 3000000, 0, 0, 5⟩]).data := by
    unfold SameSpan Spread
    decide +kernel
  exact absurd (antitone same (by decide)) (by decide +kernel)

end Losses

end CaceProofs.Guarantees
