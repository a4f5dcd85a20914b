import PQL.Lib.Rounding
import PQL.Lib.While
import PQL.Transform.Spectra

/-!
# The offset of a magnified trace

`get_mag_times` finds the part of a trace in the magnify window and how far behind the left edge of
the window its first sample is drawn.  On the absolute axis that is the distance to the first sample
from the edge on.  On the relative axis sample intervals are taken off from the next whole second,
so the distance is right only if there is a sample at that second, and an edge on a sample between
two seconds is a sample interval off (`offset_set_iff`).  Times are exact.
-/

namespace PQL

/-- The window of a trace in `trcData->magnify`. -/
structure MagTimes where
  begin : ℚ
  stop : ℚ
  offset : ℚ
deriving DecidableEq

namespace SpecTrace

variable (t : SpecTrace)

/-! ## The computation -/

/-- The part of the window on the absolute axis. -/
def absTimes (m : MagTimes) (user_x1 user_x2 absStart : ℚ) : Option MagTimes :=
  if user_x1 + absStart > t.epochs + t.length_of_trace ∨ user_x2 + absStart < t.epochs then
    some { m with begin := -1 }
  else
    let stop := if user_x2 + absStart > t.epochs + t.length_of_trace then t.length_of_trace
      else user_x2 + absStart - t.epochs
    if user_x1 + absStart < t.epochs then
      some ⟨0, stop, t.epochs - (user_x1 + absStart)⟩
    else
      let begin := user_x1 + (absStart - t.epochs)
      (signed ⌈t.sps * begin⌉).map fun temp_int_2 : ℤ =>
        ⟨begin, stop, t.epochs - absStart + 1 / t.sps * temp_int_2 - user_x1⟩

/-- The loop that takes sample intervals off. -/
def reduceOffset (fuel : ℕ) (offset : ℚ) : Option ℚ :=
  whileLoop (fun offset => decide (offset > t.sampInt / 1000000))
    (fun offset => some (offset - t.sampInt / 1000000)) fuel offset

/-- The part of the window on the relative axis. -/
def relTimes (fuel : ℕ) (user_x1 user_x2 : ℚ) : Option MagTimes :=
  let begin := if user_x1 > t.length_of_trace then -1 else user_x1
  let stop := if user_x2 > t.length_of_trace then t.length_of_trace else user_x2
  (t.reduceOffset fuel (⌈user_x1⌉ - user_x1)).map fun offset => ⟨begin, stop, offset⟩

/-- `get_mag_times`, for one of the selected traces. -/
def getMagTimes (fuel : ℕ) (m : MagTimes) (user_x1 user_x2 : ℚ) (time : TimeMode) (absStart : ℚ) :
    Option MagTimes :=
  match time with
  | .ABSOLUTE => t.absTimes m user_x1 user_x2 absStart
  | .RELATIVE => t.relTimes fuel user_x1 user_x2

/-- `startPoint` of `get_mag_max_mins`. -/
def magStartPoint (m : MagTimes) : Option ℤ := signed ⌈m.begin * t.sps⌉

/-! ## What the offset should be -/

/-- The time of a sample on the axis. -/
def sampleTime (time : TimeMode) (absStart : ℚ) (k : ℤ) : ℚ :=
  match time with
  | .ABSOLUTE => t.epochs - absStart + k * (t.sampInt / 1000000)
  | .RELATIVE => k * (t.sampInt / 1000000)

/-- The samples from the left edge on. -/
def samplesFrom (time : TimeMode) (absStart user_x1 : ℚ) : Set ℤ :=
  {k | (0 ≤ k ∧ k < t.numSamples) ∧ user_x1 ≤ t.sampleTime time absStart k}

/-- The window starts with the first sample from the left edge on and has its distance. -/
structure StartsAt (time : TimeMode) (absStart user_x1 : ℚ) (m : MagTimes) (s : ℤ) : Prop where
  start : t.magStartPoint m = some s
  first : IsLeast (t.samplesFrom time absStart user_x1) s
  offset : m.offset = t.sampleTime time absStart s - user_x1
  bounds : t.sampleTime time absStart 0 ≤ user_x1 → 0 ≤ m.offset ∧ m.offset < t.sampInt / 1000000

/-- `get_mag_times` ends and, if there is something to magnify and a sample from the left edge on,
sets the offset to its distance. -/
def SetsOffset (m : MagTimes) (user_x1 user_x2 : ℚ) (time : TimeMode) (absStart : ℚ) : Prop :=
  ∃ fuel m', t.getMagTimes fuel m user_x1 user_x2 time absStart = some m' ∧
    (m'.begin ≠ -1 → (t.samplesFrom time absStart user_x1).Nonempty →
      ∃ s, t.StartsAt time absStart user_x1 m' s)

/-- There is a sample at the next whole second, and none at the edge unless that is a whole
second. -/
structure SecondsFit (user_x1 : ℚ) : Prop where
  second : ∃ k, t.sampleTime .RELATIVE 0 k = ⌈user_x1⌉
  edge : (∃ k, t.sampleTime .RELATIVE 0 k = user_x1) → user_x1 = ⌈user_x1⌉

/-! ## The absolute axis -/

section Offset

variable {t} {m m' : MagTimes} {user_x1 user_x2 absStart : ℚ} {time : TimeMode}

theorem interval_pos (hint : 0 < t.sampInt) : 0 < t.sampInt / 1000000 := by positivity

theorem mul_sps (hint : 0 < t.sampInt) (q : ℚ) : q * t.sps = q / (t.sampInt / 1000000) := by
  rw [sps]
  field_simp

theorem length_of_trace_eq (t : SpecTrace) :
    t.length_of_trace = t.numSamples * (t.sampInt / 1000000) := by
  rw [length_of_trace, sps, div_div_eq_mul_div, mul_div_assoc]

/-- The first sample at `q` seconds from the start of the trace or later. -/
theorem ceil_eq_iff (hint : 0 < t.sampInt) (q : ℚ) (s : ℤ) :
    ⌈q * t.sps⌉ = s ↔
      0 ≤ s * (t.sampInt / 1000000) - q ∧ s * (t.sampInt / 1000000) - q < t.sampInt / 1000000 := by
  rw [mul_sps hint, ceil_div_eq_iff (interval_pos hint), sub_nonneg]

theorem ceil_le_numSamples (hint : 0 < t.sampInt) {q : ℚ} (hq : q ≤ t.length_of_trace) :
    ⌈q * t.sps⌉ ≤ t.numSamples := by
  rw [mul_sps hint, Int.ceil_le, div_le_iff₀ (interval_pos hint), ← length_of_trace_eq]
  exact hq

theorem signed_ceil (hint : 0 < t.sampInt) (hn : t.numSamples < 2 ^ 31) {q : ℚ} (hq₀ : 0 ≤ q)
    (hq : q ≤ t.length_of_trace) : signed ⌈q * t.sps⌉ = some ⌈q * t.sps⌉ := by
  have hle := ceil_le_numSamples hint hq
  have hsps : 0 ≤ t.sps := by
    rw [sps]
    positivity
  have hnonneg : 0 ≤ ⌈q * t.sps⌉ := Int.ceil_nonneg (by positivity)
  exact signed_eq_some.2 ⟨rfl, by omega, by omega⟩

/-- The sample that the ceiling finds is the first one. -/
theorem isLeast_samplesFrom (hint : 0 < t.sampInt) {s : ℤ} (hs₀ : 0 ≤ s)
    (hlow : user_x1 ≤ t.sampleTime time absStart s)
    (hhigh : 0 < s → t.sampleTime time absStart s - user_x1 < t.sampInt / 1000000)
    (hne : (t.samplesFrom time absStart user_x1).Nonempty) :
    IsLeast (t.samplesFrom time absStart user_x1) s := by
  have hdt := interval_pos hint
  have hbehind : ∀ k ∈ t.samplesFrom time absStart user_x1, s ≤ k := by
    rintro k ⟨⟨hk₀, -⟩, hk⟩
    by_contra hlt
    have hstep : (k : ℚ) + 1 ≤ s := by exact_mod_cast not_le.1 hlt
    have hmul := mul_le_mul_of_nonneg_right hstep hdt.le
    have hdiff : t.sampleTime time absStart s - t.sampleTime time absStart k =
        s * (t.sampInt / 1000000) - k * (t.sampInt / 1000000) := by
      cases time
      · rfl
      · simp only [sampleTime]
        ring
    linarith [hhigh (by omega)]
  obtain ⟨k, hk⟩ := hne
  exact ⟨⟨⟨hs₀, (hbehind k hk).trans_lt hk.1.2⟩, hlow⟩, hbehind⟩

/-- On the absolute axis the offset is right. -/
theorem setsOffset_absolute (hint : 0 < t.sampInt) (hn : t.numSamples < 2 ^ 31) :
    t.SetsOffset m user_x1 user_x2 .ABSOLUTE absStart := by
  have hdt := interval_pos hint
  unfold SetsOffset
  refine ⟨0, ?_⟩
  change ∃ m', t.absTimes m user_x1 user_x2 absStart = some m' ∧ _
  unfold absTimes
  by_cases hout : user_x1 + absStart > t.epochs + t.length_of_trace ∨ user_x2 + absStart < t.epochs
  · exact ⟨_, if_pos hout, fun h => absurd rfl h⟩
  rw [if_neg hout]
  by_cases hfront : user_x1 + absStart < t.epochs
  · have hzero : t.sampleTime .ABSOLUTE absStart 0 = t.epochs - absStart := by
      simp [sampleTime]
    refine ⟨_, if_pos hfront, fun _ hne => ⟨0, ?_, ?_, ?_, fun hin => ?_⟩⟩
    · change signed ⌈(0 : ℚ) * t.sps⌉ = some 0
      rw [zero_mul, Int.ceil_zero]
      rfl
    · refine isLeast_samplesFrom hint le_rfl ?_ (fun h => absurd h (lt_irrefl 0)) hne
      rw [hzero]
      linarith
    · rw [hzero]
      ring
    · rw [hzero] at hin
      linarith
  · rw [if_neg hfront]
    simp only []
    have hbegin₀ : 0 ≤ user_x1 + (absStart - t.epochs) := by linarith [not_lt.1 hfront]
    have hbegin : user_x1 + (absStart - t.epochs) ≤ t.length_of_trace := by
      linarith [not_lt.1 (not_or.1 hout).1]
    have hsigned := signed_ceil hint hn hbegin₀ hbegin
    obtain ⟨hlow, hhigh⟩ := (ceil_eq_iff hint (user_x1 + (absStart - t.epochs)) _).1 rfl
    generalize hs : ⌈(user_x1 + (absStart - t.epochs)) * t.sps⌉ = s at hsigned hlow hhigh
    have hs₀ : 0 ≤ s := by
      by_contra hneg
      have : (s : ℚ) * (t.sampInt / 1000000) ≤ 0 :=
        mul_nonpos_of_nonpos_of_nonneg (by exact_mod_cast (not_le.1 hneg).le) hdt.le
      have hle : (s : ℚ) ≤ -1 := by exact_mod_cast Int.le_sub_one_of_lt (not_le.1 hneg)
      nlinarith
    have htime : t.sampleTime .ABSOLUTE absStart s - user_x1 =
        s * (t.sampInt / 1000000) - (user_x1 + (absStart - t.epochs)) := by
      simp only [sampleTime]
      ring
    have hoffset : t.epochs - absStart + 1 / t.sps * s - user_x1 =
        t.sampleTime .ABSOLUTE absStart s - user_x1 := by
      rw [sampleTime, sps, one_div_div, mul_comm (s : ℚ)]
    rw [mul_comm t.sps, hs, hsigned, Option.map_some]
    refine ⟨_, rfl, fun _ hne => ⟨s, ?_, ?_, hoffset, fun _ => ?_⟩⟩
    · change signed ⌈(user_x1 + (absStart - t.epochs)) * t.sps⌉ = some s
      rw [hs, hsigned]
    · exact isLeast_samplesFrom hint hs₀ (by linarith) (fun _ => by linarith) hne
    · change 0 ≤ t.epochs - absStart + 1 / t.sps * s - user_x1 ∧ _ < _
      rw [hoffset, htime]
      exact ⟨hlow, hhigh⟩

/-! ## The relative axis -/

/-- A whole number of intervals is taken off, down to at most one. -/
theorem reduceOffset_sound {fuel : ℕ} {x y : ℚ}
    (h : t.reduceOffset fuel x = some y) :
    ∃ n : ℕ, y = x - n * (t.sampInt / 1000000) ∧ (n = 0 ∨ 0 < y) ∧ y ≤ t.sampInt / 1000000 := by
  obtain ⟨⟨n, hn, hpos⟩, hend⟩ := whileLoop_sound
    (P := fun y : ℚ => ∃ n : ℕ, y = x - n * (t.sampInt / 1000000) ∧ (n = 0 ∨ 0 < y))
    (fun y y' ⟨n, hn, _⟩ hon hbody => by
      have hlarge := of_decide_eq_true hon
      obtain rfl := Option.some.inj hbody
      refine ⟨n + 1, ?_, .inr (by linarith)⟩
      push_cast
      linarith) ⟨0, by simp, .inl rfl⟩ h
  exact ⟨n, hn, hpos, not_lt.1 (of_decide_eq_false hend)⟩

theorem exists_reduceOffset (hint : 0 < t.sampInt) (x : ℚ) :
    ∃ fuel y, t.reduceOffset fuel x = some y := by
  have hdt := interval_pos hint
  obtain ⟨y, hy, -⟩ := @whileLoop_spec ℚ (fun offset => decide (offset > t.sampInt / 1000000))
    (fun offset => some (offset - t.sampInt / 1000000)) (fun _ => True)
    (fun y => ⌈y / (t.sampInt / 1000000)⌉.toNat)
    (fun y _ hon => by
      have hlarge := of_decide_eq_true hon
      have hone : 1 < y / (t.sampInt / 1000000) := (one_lt_div hdt).2 hlarge
      have hceil : 1 < ⌈y / (t.sampInt / 1000000)⌉ := Int.lt_ceil.2 (by exact_mod_cast hone)
      refine ⟨_, rfl, trivial, ?_⟩
      rw [sub_div, div_self hdt.ne', Int.ceil_sub_one]
      omega) _ x trivial (Nat.lt_succ_self _)
  exact ⟨_, y, hy⟩

/-- The offset that is left is the distance to the first sample exactly if the seconds fit. -/
theorem reduced_eq_iff (hint : 0 < t.sampInt) {y : ℚ} {n : ℕ}
    (hy : y = ⌈user_x1⌉ - user_x1 - n * (t.sampInt / 1000000)) (hn : n = 0 ∨ 0 < y)
    (hle : y ≤ t.sampInt / 1000000) :
    (∃ s : ℤ, y = s * (t.sampInt / 1000000) - user_x1 ∧ 0 ≤ y ∧ y < t.sampInt / 1000000) ↔
      t.SecondsFit user_x1 := by
  have hdt := interval_pos hint
  have hnonneg : 0 ≤ y := by
    rcases hn with rfl | hpos
    · rw [hy]
      push_cast
      linarith [Int.le_ceil user_x1]
    · exact hpos.le
  constructor
  · rintro ⟨s, hs, -, hlt⟩
    refine ⟨⟨s + n, ?_⟩, ?_⟩
    · simp only [sampleTime]
      push_cast
      linarith
    · rintro ⟨k, hk⟩
      simp only [sampleTime] at hk
      -- an offset of a whole number of intervals below one is zero
      have hzero : s = k := by
        have hlow : (k : ℚ) * (t.sampInt / 1000000) ≤ s * (t.sampInt / 1000000) := by linarith
        have hhigh : (s : ℚ) * (t.sampInt / 1000000) < (k + 1) * (t.sampInt / 1000000) := by
          linarith
        have hks : (k : ℚ) ≤ s := le_of_mul_le_mul_right hlow hdt
        have hsk : (s : ℚ) < k + 1 := lt_of_mul_lt_mul_right hhigh hdt.le
        have hks' : k ≤ s := by exact_mod_cast hks
        have hsk' : s < k + 1 := by exact_mod_cast hsk
        omega
      have hy₀ : y = 0 := by
        rw [hs, hzero]
        linarith
      obtain rfl : n = 0 := hn.resolve_right hy₀.not_gt
      push_cast at hy
      linarith
  · rintro ⟨⟨k, hk⟩, hedge⟩
    simp only [sampleTime] at hk hedge
    have hs : y = (k - n : ℤ) * (t.sampInt / 1000000) - user_x1 := by
      push_cast
      linarith
    refine ⟨k - n, hs, hnonneg, lt_of_le_of_ne hle fun heq => ?_⟩
    -- a whole interval is left only in front of a sample
    have hwhole := hedge ⟨k - n - 1, by
      push_cast
      push_cast at hs
      linarith⟩
    have hn₀ : (0 : ℚ) ≤ n * (t.sampInt / 1000000) := by positivity
    linarith

theorem samplesFrom_nonempty_iff (hint : 0 < t.sampInt) (hleft : 0 ≤ user_x1) :
    (t.samplesFrom .RELATIVE absStart user_x1).Nonempty ↔
      user_x1 ≤ t.sampleTime .RELATIVE absStart (t.numSamples - 1) := by
  have hdt := interval_pos hint
  constructor
  · rintro ⟨k, ⟨-, hk⟩, hle⟩
    refine hle.trans (mul_le_mul_of_nonneg_right ?_ hdt.le)
    exact_mod_cast Int.le_sub_one_of_lt hk
  · intro hle
    refine ⟨t.numSamples - 1, ⟨?_, by omega⟩, hle⟩
    have hnonneg : 0 ≤ ((t.numSamples - 1 : ℤ) : ℚ) * (t.sampInt / 1000000) := hleft.trans hle
    exact_mod_cast nonneg_of_mul_nonneg_left hnonneg hdt

/-- On the relative axis the offset is right if the seconds fit. -/
theorem setsOffset_relative (hint : 0 < t.sampInt) (hn : t.numSamples < 2 ^ 31)
    (hleft : 0 ≤ user_x1) :
    t.SetsOffset m user_x1 user_x2 .RELATIVE absStart ↔
      t.sampleTime .RELATIVE absStart (t.numSamples - 1) < user_x1 ∨ t.SecondsFit user_x1 := by
  have hdt := interval_pos hint
  by_cases hahead : t.sampleTime .RELATIVE absStart (t.numSamples - 1) < user_x1
  · obtain ⟨fuel, y, hy⟩ := exists_reduceOffset hint (⌈user_x1⌉ - user_x1)
    have hrun : t.getMagTimes fuel m user_x1 user_x2 .RELATIVE absStart =
        some ⟨if user_x1 > t.length_of_trace then -1 else user_x1,
          if user_x2 > t.length_of_trace then t.length_of_trace else user_x2, y⟩ := by
      change t.relTimes fuel user_x1 user_x2 = _
      rw [relTimes, hy]
      rfl
    have hnone : ¬(t.samplesFrom .RELATIVE absStart user_x1).Nonempty :=
      mt (samplesFrom_nonempty_iff hint hleft).1 hahead.not_ge
    exact iff_of_true ⟨fuel, _, hrun, fun _ hne => absurd hne hnone⟩ (.inl hahead)
  rw [or_iff_right hahead]
  have hne := (@samplesFrom_nonempty_iff t _ absStart hint hleft).2 (not_lt.1 hahead)
  have hinside : user_x1 ≤ t.length_of_trace := by
    have hlast := not_lt.1 hahead
    simp only [sampleTime] at hlast
    push_cast at hlast
    rw [length_of_trace_eq]
    linarith
  have hne₁ : user_x1 ≠ -1 := by linarith
  have hrun : ∀ fuel m', t.getMagTimes fuel m user_x1 user_x2 .RELATIVE absStart = some m' ↔
      ∃ y, t.reduceOffset fuel (⌈user_x1⌉ - user_x1) = some y ∧
        m' = ⟨user_x1, if user_x2 > t.length_of_trace then t.length_of_trace else user_x2, y⟩ := by
    intro fuel m'
    change t.relTimes fuel user_x1 user_x2 = _ ↔ _
    rw [relTimes, if_neg hinside.not_gt, Option.map_eq_some_iff]
    simp only [eq_comm]
  have hzero : t.sampleTime .RELATIVE absStart 0 = 0 := by simp [sampleTime]
  constructor
  · rintro ⟨fuel, m', hm', hsets⟩
    obtain ⟨y, hy, rfl⟩ := (hrun fuel m').1 hm'
    obtain ⟨n, heq, hpos, hle⟩ := reduceOffset_sound hy
    obtain ⟨s, hs⟩ := hsets hne₁ hne
    exact (reduced_eq_iff hint heq hpos hle).1
      ⟨s, hs.offset, hs.bounds (by rw [hzero]; exact hleft)⟩
  · intro hfits
    obtain ⟨fuel, y, hy⟩ := exists_reduceOffset hint (⌈user_x1⌉ - user_x1)
    obtain ⟨n, heq, hpos, hle⟩ := reduceOffset_sound hy
    obtain ⟨s, hs, hlow, hhigh⟩ := (reduced_eq_iff hint heq hpos hle).2 hfits
    have hceil := (ceil_eq_iff hint user_x1 s).2 (by rw [← hs]; exact ⟨hlow, hhigh⟩)
    have hs₀ : 0 ≤ s := by
      have hsps : 0 ≤ t.sps := by
        rw [sps]
        positivity
      rw [← hceil]
      exact Int.ceil_nonneg (by positivity)
    refine ⟨fuel, _, (hrun fuel _).2 ⟨y, hy, rfl⟩, fun _ _ => ⟨s, ?_, ?_, hs, fun _ => ?_⟩⟩
    · change signed ⌈user_x1 * t.sps⌉ = some s
      rw [signed_ceil hint hn hleft hinside, hceil]
    · refine isLeast_samplesFrom hint hs₀ ?_ (fun _ => ?_) hne
      · simp only [sampleTime]
        linarith
      · simp only [sampleTime]
        linarith
    · exact ⟨hlow, hhigh⟩

/-- `get_mag_times` sets the offset to the distance of the first sample if and only if the axis is
the absolute one, no sample is left from the edge on, or there is a sample at the next whole second
and none at the edge unless that is a whole second. -/
theorem offset_set_iff (hint : 0 < t.sampInt) (hn : t.numSamples < 2 ^ 31) (hleft : 0 ≤ user_x1) :
    t.SetsOffset m user_x1 user_x2 time absStart ↔
      time = .ABSOLUTE ∨ t.sampleTime time absStart (t.numSamples - 1) < user_x1 ∨
        t.SecondsFit user_x1 := by
  cases time
  · rw [setsOffset_relative hint hn hleft]
    simp
  · exact iff_of_true (setsOffset_absolute hint hn) (.inl rfl)

/-- Ten samples at an interval in microseconds. -/
def tenSamples (sampInt : ℚ) : SpecTrace := ⟨0, sampInt, 10, .BIT32 (List.replicate 10 0), none⟩

theorem sampleTime_tenSamples (sampInt : ℚ) (k : ℤ) :
    (tenSamples sampInt).sampleTime .RELATIVE 0 k = k * (sampInt / 1000000) := rfl

/-- At four samples a second, the window from 1.1 s on. -/
theorem offset_set_quarters :
    (tenSamples 250000).SetsOffset ⟨0, 0, 0⟩ (11 / 10) 2 .RELATIVE 0 := by
  have hceil : ⌈(11 / 10 : ℚ)⌉ = 2 := by norm_num [Int.ceil_eq_iff]
  refine (offset_set_iff (by norm_num [tenSamples]) (by norm_num [tenSamples]) (by norm_num)).2
    (.inr (.inr ⟨⟨8, ?_⟩, ?_⟩))
  · rw [hceil, sampleTime_tenSamples]
    norm_num
  · rintro ⟨k, hk⟩
    rw [sampleTime_tenSamples] at hk
    have h5 : (5 * k : ℤ) = 22 := by
      have : (5 * k : ℚ) = 22 := by linarith
      exact_mod_cast this
    omega

/-- At an interval of 0.3 s no sample is at 2 s: from 1.1 s on, the first one is at 1.2 s, but the
offset is 0.3 s. -/
theorem offset_not_set_thirds :
    ¬(tenSamples 300000).SetsOffset ⟨0, 0, 0⟩ (11 / 10) 2 .RELATIVE 0 := by
  have hceil : ⌈(11 / 10 : ℚ)⌉ = 2 := by norm_num [Int.ceil_eq_iff]
  rw [setsOffset_relative (by norm_num [tenSamples]) (by norm_num [tenSamples]) (by norm_num)]
  rintro (hbehind | ⟨⟨k, hk⟩, -⟩)
  · rw [sampleTime_tenSamples] at hbehind
    norm_num [tenSamples] at hbehind
  · rw [hceil, sampleTime_tenSamples] at hk
    have h3 : (3 * k : ℤ) = 20 := by
      have : (3 * k : ℚ) = 20 := by
        push_cast at hk
        linarith
      exact_mod_cast this
    omega

end Offset

end SpecTrace

end PQL
