import PQL.Transform.Spectra

/-!
# The taper

`taper` scales the ends of the samples that `get_trans_data` has loaded.  It counts them again, with
the part of the window behind the trace, and takes a tenth of that number at either end of the
samples that are there: it stays inside of them exactly if they are that many (`taper_stays_iff`).
The sine is a parameter, and times and samples are exact.
-/

namespace PQL

namespace SpecTrace

variable (t : SpecTrace)

/-! ## The computation -/

/-- `num_samples`, cut to the samples of the trace. -/
def cutSamples (asked : ℤ) : ℤ := if asked > t.numSamples then t.numSamples else asked

/-- The index of `spectra.data_end` behind the loading loop of `get_trans_data`. -/
def dataEnd (s : Spectra) : Option ℤ :=
  (toInt ((s.stop - s.beg + s.fill_beg) * t.sps)).map fun asked => max (t.cutSamples asked) 0 - 1

def PERCENT : ℚ := 1 / 10

section Taper

variable {K : Type} [Field K] (sin : K → K) (pi : K)

/-- A step from both ends. -/
def taperStep (num_samples data_end : ℤ) (data : List K) (j : ℤ) : Option (List K) :=
  let x := 5 * pi / num_samples
  (load data j).bind fun first => (store data j (first * sin (j * x))).bind fun data =>
    (load data (data_end - j)).bind fun last =>
      store data (data_end - j) (last * sin ((num_samples - j) * x))

/-- `taper`; there is no result when an access is out of bounds. -/
def taper (s : Spectra) (data_end : ℤ) (data : List K) : Option (List K) :=
  if s.beg = -1 then some data
  else
    (toInt ((s.stop - s.beg + s.fill_beg + s.fill_end) * t.sps)).bind fun asked =>
      let num_samples := t.cutSamples asked
      (toInt (num_samples * PERCENT)).bind fun ffl =>
        forLoop 0 ffl (taperStep sin pi num_samples data_end) data

end Taper

/-! ## Both ends scaled alike -/

/-- The first `n` entries, each scaled for its distance from either end. -/
def scaled (weight : ℕ → ℝ) (n : ℕ) (xs : List ℝ) : List ℝ :=
  tabulate xs.length fun k =>
    if k < n then xs.getD k 0 * (weight k * weight (n - 1 - k)) else xs.getD k 0

/-- The weight of the `k`-th sample from an end, one behind the first `m`. -/
noncomputable def taperWeight (m num_samples : ℤ) (k : ℕ) : ℝ :=
  if k < m then Real.sin (k * (5 * Real.pi / num_samples)) else 1

/-- The samples that a stretch of time has room for, but no more than there are. -/
def room (seconds : ℚ) : ℤ := min (truncate (seconds * t.sps)) t.numSamples

/-- The end of the trace on the time axis. -/
def axisEnd (time : TimeMode) (absStart : ℚ) : ℚ := t.axisTime time absStart t.numSamples

/-- `get_trans_times` leaves the trace out. -/
def Misses (user_x1 user_x2 : ℚ) (time : TimeMode) (absStart : ℚ) : Prop :=
  t.axisEnd time absStart < user_x1 ∨
    match time with
    | .ABSOLUTE => user_x2 < t.axisTime time absStart 0
    | .RELATIVE => user_x1 = -1

/-- The samples from the left edge of the window to its end or that of the trace. -/
def inTrace (user_x1 user_x2 : ℚ) (time : TimeMode) (absStart : ℚ) : ℤ :=
  t.room (min user_x2 (t.axisEnd time absStart) - user_x1)

/-- `taper` behind `get_trans_data`. -/
def tapered {K : Type} [Field K] (sin : K → K) (pi : K) (s : Spectra) : Option (List K) :=
  if s.beg = -1 then some ((s.data.getD []).map Rat.cast)
  else (t.dataEnd s).bind fun data_end =>
    t.taper sin pi s data_end ((s.data.getD []).map Rat.cast)

/-- `taper` scales the `n` samples that `get_trans_data` has loaded and nothing else, with the
weights for `num_samples`. -/
def TapersLoaded (num_samples : ℤ) (s : Spectra) : Prop :=
  ∃ n : ℕ, (s.beg ≠ -1 → t.dataEnd s = some ((n : ℤ) - 1)) ∧
    t.tapered Real.sin Real.pi s =
      some (scaled (taperWeight (num_samples.tdiv 10) num_samples) n
        ((s.data.getD []).map Rat.cast))

/-! ## The two counts -/

variable {t} {user_x1 user_x2 absStart : ℚ} {time : TimeMode}

theorem axisEnd_eq (t : SpecTrace) (time : TimeMode) (absStart : ℚ) :
    t.axisEnd time absStart = t.axisTime time absStart 0 + t.length_of_trace := by
  unfold axisEnd axisTime length_of_trace sps interval
  cases time with
  | ABSOLUTE =>
    simp only [Int.cast_zero, zero_mul, add_zero, div_div_eq_mul_div, mul_div_assoc]
  | RELATIVE =>
    simp only [Int.cast_zero, zero_mul, zero_add, div_div_eq_mul_div, mul_div_assoc]

/-- The times of a window that does not miss the trace. -/
structure TimesOf (t : SpecTrace) (user_x1 user_x2 : ℚ) (time : TimeMode) (absStart : ℚ)
    (s : Spectra) : Prop where
  beg_eq_iff : s.beg = -1 ↔ t.Misses user_x1 user_x2 time absStart
  inTrace : s.beg ≠ -1 →
    s.stop - s.beg + s.fill_beg = min user_x2 (t.axisEnd time absStart) - user_x1
  window : s.beg ≠ -1 → s.stop - s.beg + s.fill_beg + s.fill_end = user_x2 - user_x1

theorem timesOf_absolute (t : SpecTrace) (s : Spectra) (user_x1 user_x2 absStart : ℚ) :
    t.TimesOf user_x1 user_x2 .ABSOLUTE absStart
      (t.getTransTimes s user_x1 user_x2 .ABSOLUTE absStart) := by
  have hend := t.axisEnd_eq .ABSOLUTE absStart
  have hstart : t.axisTime .ABSOLUTE absStart 0 = t.epochs - absStart := by simp [axisTime]
  rw [hstart] at hend
  have hmiss : t.Misses user_x1 user_x2 .ABSOLUTE absStart ↔
      user_x1 + absStart > t.epochs + t.length_of_trace ∨ user_x2 + absStart < t.epochs := by
    unfold Misses
    simp only [hend, hstart]
    exact or_congr ⟨fun h => by linarith, fun h => by linarith⟩
      ⟨fun h => by linarith, fun h => by linarith⟩
  unfold getTransTimes
  by_cases hout : user_x1 + absStart > t.epochs + t.length_of_trace ∨
      user_x2 + absStart < t.epochs
  · rw [if_pos hout]
    exact ⟨iff_of_true rfl (hmiss.2 hout), fun h => absurd rfl h, fun h => absurd rfl h⟩
  rw [if_neg hout]
  rw [← hmiss] at hout
  set s₁ : Spectra := if user_x1 + absStart < t.epochs then
      { s with beg := 0, fill_beg := t.epochs - (user_x1 + absStart) }
    else { s with beg := user_x1 + absStart - t.epochs, fill_beg := 0 } with hs₁
  -- in both cases the gap before the trace makes up for where the window begins
  have hbeg : 0 ≤ s₁.beg ∧ s₁.fill_beg - s₁.beg = t.epochs - (user_x1 + absStart) := by
    rw [hs₁]
    split_ifs with hbefore
    · exact ⟨le_rfl, sub_zero _⟩
    · exact ⟨by simpa using hbefore, by simp⟩
  obtain ⟨hpos, hfill⟩ := hbeg
  have hne : s₁.beg ≠ -1 := fun heq => by linarith
  by_cases hafter : user_x2 + absStart > t.epochs + t.length_of_trace
  · have hmin : min user_x2 (t.axisEnd .ABSOLUTE absStart) = t.axisEnd .ABSOLUTE absStart :=
      min_eq_right (by linarith)
    simp only [if_pos hafter]
    refine ⟨iff_of_false hne hout, fun _ => ?_, fun _ => by linarith⟩
    rw [hmin, hend]
    linarith
  · have hmin : min user_x2 (t.axisEnd .ABSOLUTE absStart) = user_x2 :=
      min_eq_left (by linarith)
    simp only [if_neg hafter]
    refine ⟨iff_of_false hne hout, fun _ => ?_, fun _ => by linarith⟩
    rw [hmin]
    linarith

theorem timesOf_relative (t : SpecTrace) (s : Spectra) (user_x1 user_x2 absStart : ℚ) :
    t.TimesOf user_x1 user_x2 .RELATIVE absStart
      (t.getTransTimes s user_x1 user_x2 .RELATIVE absStart) := by
  have hend : t.axisEnd .RELATIVE absStart = t.length_of_trace := by
    rw [axisEnd_eq, axisTime, Int.cast_zero, zero_mul, zero_add]
  have hmiss : t.Misses user_x1 user_x2 .RELATIVE absStart ↔
      user_x1 > t.length_of_trace ∨ user_x1 = -1 := by
    rw [Misses, hend]
  unfold getTransTimes
  by_cases hbehind : user_x1 > t.length_of_trace
  · simp only [if_pos hbehind]
    split_ifs
    · exact ⟨iff_of_true rfl (hmiss.2 (.inl hbehind)), fun h => absurd rfl h, fun h => absurd rfl h⟩
    · exact ⟨iff_of_true rfl (hmiss.2 (.inl hbehind)), fun h => absurd rfl h, fun h => absurd rfl h⟩
  · have hiff : user_x1 = -1 ↔ t.Misses user_x1 user_x2 .RELATIVE absStart :=
      ⟨fun h => hmiss.2 (.inr h), fun h => (hmiss.1 h).resolve_left hbehind⟩
    simp only [if_neg hbehind]
    by_cases hafter : user_x2 > t.length_of_trace
    · simp only [if_pos hafter]
      refine ⟨hiff, fun _ => ?_, fun _ => by ring⟩
      rw [hend, min_eq_right (le_of_lt hafter)]
      ring
    · simp only [if_neg hafter]
      refine ⟨hiff, fun _ => ?_, fun _ => by ring⟩
      rw [hend, min_eq_left (not_lt.1 hafter)]
      ring

theorem timesOf (t : SpecTrace) (s : Spectra) (user_x1 user_x2 : ℚ) (time : TimeMode)
    (absStart : ℚ) : t.TimesOf user_x1 user_x2 time absStart
      (t.getTransTimes s user_x1 user_x2 time absStart) := by
  cases time with
  | ABSOLUTE => exact t.timesOf_absolute s user_x1 user_x2 absStart
  | RELATIVE => exact t.timesOf_relative s user_x1 user_x2 absStart

theorem le_of_powerFrom {n p : ℤ} : ∀ fuel j : ℕ, powerFrom n fuel j = some p → n ≤ p := by
  intro fuel
  induction fuel with
  | zero => exact fun _ h => nomatch h
  | succ fuel ih =>
    intro j h
    obtain ⟨q, -, hq⟩ := Option.bind_eq_some_iff.1 h
    split_ifs at hq with hlt
    · exact ih (j + 1) hq
    · exact (not_lt.1 hlt).trans (Option.some.inj hq).le

/-- `get_trans_data` leaves a buffer with room for the samples that it has loaded. -/
structure Loaded (t : SpecTrace) (s s' : Spectra) (n : ℕ) (data : List ℚ) : Prop where
  beg : s'.beg = s.beg
  stop : s'.stop = s.stop
  fill_beg : s'.fill_beg = s.fill_beg
  fill_end : s'.fill_end = s.fill_end
  le : n ≤ data.length
  dataEnd : t.dataEnd s = some ((n : ℤ) - 1)
  data : s'.data = some data

theorem loaded_of_getTransData {tFormOn : Bool} {s s' : Spectra} (hbeg : s.beg ≠ -1)
    (h : t.getTransData tFormOn s = some s') : ∃ n data, t.Loaded s s' n data := by
  rw [getTransData, if_neg hbeg] at h
  obtain ⟨asked, hasked, h⟩ := Option.bind_eq_some_iff.1 h
  obtain ⟨numPts, hpower, h⟩ := Option.bind_eq_some_iff.1 h
  obtain ⟨startSamp, -, h⟩ := Option.bind_eq_some_iff.1 h
  obtain ⟨⟨get_data, avg⟩, hload, h⟩ := Option.bind_eq_some_iff.1 h
  obtain ⟨data, hdemean, rfl⟩ := Option.map_eq_some_iff.1 h
  have hle : t.cutSamples asked ≤ numPts := le_of_powerFrom 31 1 hpower
  have hget : get_data.length = (numPts + 2).toNat := by
    refine forLoop_preserves (P := fun g : List ℚ × ℚ => g.1.length = (numPts + 2).toNat) ?_
      List.length_replicate hload
    intro g j g' hg hstep
    obtain ⟨x, -, hstep⟩ := Option.bind_eq_some_iff.1 hstep
    obtain ⟨stored, hstore, rfl⟩ := Option.map_eq_some_iff.1 hstep
    exact (length_store hstore).trans hg
  have hdata : data.length = (numPts + 2).toNat := by
    refine forLoop_preserves (P := fun g : List ℚ => g.length = (numPts + 2).toNat) ?_
      hget hdemean
    intro g j g' hg hstep
    obtain ⟨x, -, hstore⟩ := Option.bind_eq_some_iff.1 hstep
    exact (length_store hstore).trans hg
  refine ⟨(t.cutSamples asked).toNat, data, rfl, rfl, rfl, rfl, by omega, ?_, rfl⟩
  rw [SpecTrace.dataEnd, hasked, Option.map_some, Int.toNat_eq_max]

/-! ## The loop -/

/-- A step inside of the `n` loaded samples scales the entry at either end. -/
theorem taperStep_tabulate {K : Type} [Field K] (sin : K → K) (pi : K) (num_samples : ℤ)
    {L n j : ℕ} (hj : j < n) (hn : n ≤ L) (f : ℕ → K) :
    taperStep sin pi num_samples ((n : ℤ) - 1) (tabulate L f) j =
      some (tabulate L fun k => f k *
        ((if k = j then sin (j * (5 * pi / num_samples)) else 1) *
          (if k = n - 1 - j then sin ((num_samples - j) * (5 * pi / num_samples)) else 1))) := by
  have hlast : ((n : ℤ) - 1 - j).toNat = n - 1 - j := by omega
  unfold taperStep
  simp only [Int.cast_natCast]
  rw [load_tabulate (by omega) (by omega), Option.bind_some,
    store_tabulate (by omega) (by omega), Option.bind_some,
    load_tabulate (by omega) (by omega), Option.bind_some,
    store_tabulate (by omega) (by omega), hlast, Int.toNat_natCast, Option.some.injEq]
  apply tabulate_congr
  intro k _
  by_cases hk : k = n - 1 - j
  · subst hk
    by_cases hmid : n - 1 - j = j
    · simp [hmid, mul_assoc]
    · simp [hmid]
  · rw [Function.update_of_ne hk, if_neg hk]
    by_cases hfirst : k = j
    · subst hfirst
      simp
    · simp [hfirst]

/-- The weight at the end of the window is that at its start. -/
theorem sin_last {N : ℤ} (hN : N ≠ 0) (j : ℕ) :
    Real.sin ((N - j) * (5 * Real.pi / N)) = Real.sin (j * (5 * Real.pi / N)) := by
  have hN' : (N : ℝ) ≠ 0 := Int.cast_ne_zero.2 hN
  have hangle : ((N : ℝ) - j) * (5 * Real.pi / N) =
      Real.pi - j * (5 * Real.pi / N) + (2 : ℕ) * (2 * Real.pi) := by
    push_cast
    field_simp
    ring
  rw [hangle, Real.sin_add_nat_mul_two_pi, Real.sin_pi_sub]

/-- The loop scales both ends alike when there are enough samples. -/
theorem forLoop_taperStep {N ffl : ℤ} (hN : 0 < ffl → N ≠ 0) {n : ℕ} (hffl : ffl ≤ n)
    {xs : List ℝ} (hn : n ≤ xs.length) :
    forLoop 0 ffl (taperStep Real.sin Real.pi N ((n : ℤ) - 1)) xs =
      some (scaled (taperWeight ffl N) n xs) := by
  obtain hneg | hpos := le_or_gt ffl 0
  · rw [forLoop_of_le hneg, scaled]
    conv_lhs => rw [← tabulate_getD xs 0]
    rw [Option.some.injEq]
    apply tabulate_congr
    intro k _
    have hone : ∀ i : ℕ, taperWeight ffl N i = 1 := fun i => if_neg (by omega)
    rw [hone, hone, mul_one, mul_one, ite_self]
  lift ffl to ℕ using hpos.le
  set w : ℕ → ℝ := fun k => Real.sin (k * (5 * Real.pi / N))
  have hsteps := loopSteps_invariant (f := taperStep Real.sin Real.pi N ((n : ℤ) - 1)) (a := 0)
    (n := ffl) (s := xs)
    (fun j => tabulate xs.length fun k => xs.getD k 0 *
      ((if k < j then w k else 1) * (if k < n ∧ n - 1 - k < j then w (n - 1 - k) else 1)))
    (by
      simp only [Nat.not_lt_zero, and_false, if_false, mul_one]
      exact tabulate_getD xs 0) fun j hj => by
      have hjn : j < n := by omega
      rw [zero_add, taperStep_tabulate _ _ _ hjn hn, sin_last (hN hpos), Option.some.injEq]
      apply tabulate_congr
      intro k _
      have hfirst : (if k < j + 1 then w k else 1) =
          (if k < j then w k else 1) * (if k = j then w j else 1) := by
        rcases lt_trichotomy k j with h | rfl | h
        · simp [h, h.ne, h.trans j.lt_succ_self]
        · simp
        · simp [h.ne', h.not_gt, Nat.not_lt.2 h]
      have hlast : (if k < n ∧ n - 1 - k < j + 1 then w (n - 1 - k) else 1) =
          (if k < n ∧ n - 1 - k < j then w (n - 1 - k) else 1) *
            (if k = n - 1 - j then w j else 1) := by
        by_cases hk : k = n - 1 - j
        · have hback : n - 1 - k = j := by omega
          rw [if_pos hk, hback, if_pos ⟨by omega, j.lt_succ_self⟩, if_neg (by omega), one_mul]
        · rw [if_neg hk, mul_one]
          exact if_congr (by omega) rfl rfl
      have hweight : Real.sin (j * (5 * Real.pi / N)) = w j := rfl
      rw [hfirst, hlast, hweight]
      ring
  rw [forLoop, sub_zero, Int.toNat_natCast, hsteps, Option.some.injEq, scaled]
  apply tabulate_congr
  intro k _
  simp only [taperWeight, Nat.cast_lt]
  by_cases hk : k < n
  · simp only [hk, true_and, if_true]
    rfl
  · rw [if_neg hk, if_neg (by omega), if_neg (by omega), mul_one, mul_one]

/-- A loop over more samples than there are runs out of the front of the buffer. -/
theorem forLoop_taperStep_eq_none {N ffl : ℤ} {n : ℕ} (hffl : (n : ℤ) < ffl) (xs : List ℝ) :
    forLoop 0 ffl (taperStep Real.sin Real.pi N ((n : ℤ) - 1)) xs = none := by
  by_contra hsome
  obtain ⟨ys, hrun⟩ := Option.ne_none_iff_exists'.1 hsome
  obtain ⟨zs, zs', -, hstep⟩ := forLoop_each (P := fun _ => True) (fun _ _ _ _ _ => trivial) trivial
    hrun (Int.natCast_nonneg n) hffl
  obtain ⟨x, -, hstep⟩ := Option.bind_eq_some_iff.1 hstep
  obtain ⟨us, -, hstep⟩ := Option.bind_eq_some_iff.1 hstep
  obtain ⟨y, hload, -⟩ := Option.bind_eq_some_iff.1 hstep
  have hbounds := bounds_of_load hload
  omega

/-! ## Windows -/

/-- The window can be counted, and a tenth of its samples is not more than there are between its
left edge and the end of the trace. -/
def TaperFits (t : SpecTrace) (user_x1 user_x2 : ℚ) (time : TimeMode) (absStart : ℚ) : Prop :=
  truncate ((user_x2 - user_x1) * t.sps) < 2 ^ 31 ∧
    (t.room (user_x2 - user_x1)).tdiv 10 ≤ max (t.inTrace user_x1 user_x2 time absStart) 0

theorem cutSamples_eq (t : SpecTrace) (asked : ℤ) :
    t.cutSamples asked = min asked t.numSamples := by
  unfold cutSamples
  split_ifs with hgt
  · exact (min_eq_right hgt.le).symm
  · exact (min_eq_left (not_lt.1 hgt)).symm

theorem tenth_eq {n : ℤ} (hn : InIntRange n) : toInt (n * PERCENT) = some (n.tdiv 10) := by
  have htrunc : truncate (n * PERCENT) = n.tdiv 10 := by
    have hdiv := truncate_div n 10
    rwa [Nat.cast_ofNat, div_eq_mul_one_div] at hdiv
  have hrange : InIntRange (n.tdiv 10) := by
    obtain ⟨hlow, hhigh⟩ := hn
    rcases le_total 0 n with hpos | hneg
    · rw [Int.tdiv_eq_ediv_of_nonneg hpos]
      exact ⟨by omega, by omega⟩
    · rw [← neg_neg n, Int.neg_tdiv, Int.tdiv_eq_ediv_of_nonneg (by omega)]
      exact ⟨by omega, by omega⟩
  exact toInt_eq_some.2 ⟨htrunc, by rwa [htrunc]⟩

/-- The taper of a buffer that holds `n` loaded samples. -/
theorem taper_eq_scaled_iff {s : Spectra} (hbeg : s.beg ≠ -1) (hn : 0 ≤ t.numSamples) {n : ℕ}
    {xs : List ℝ} (hle : n ≤ xs.length)
    (hlow : -2 ^ 31 ≤ truncate ((s.stop - s.beg + s.fill_beg + s.fill_end) * t.sps)) :
    t.taper Real.sin Real.pi s ((n : ℤ) - 1) xs =
        some (scaled (taperWeight ((t.room (s.stop - s.beg + s.fill_beg + s.fill_end)).tdiv 10)
          (t.room (s.stop - s.beg + s.fill_beg + s.fill_end))) n xs) ↔
      truncate ((s.stop - s.beg + s.fill_beg + s.fill_end) * t.sps) < 2 ^ 31 ∧
        (t.room (s.stop - s.beg + s.fill_beg + s.fill_end)).tdiv 10 ≤ n := by
  rw [taper, if_neg hbeg, room]
  generalize (s.stop - s.beg + s.fill_beg + s.fill_end) * t.sps = asked at hlow ⊢
  by_cases hhigh : truncate asked < 2 ^ 31
  · have hrange : InIntRange (min (truncate asked) t.numSamples) := by
      constructor
      · exact le_min hlow (le_trans (by norm_num) hn)
      · exact (min_le_left _ _).trans_lt hhigh
    rw [toInt_eq_some.2 ⟨rfl, hlow, hhigh⟩, Option.bind_some, cutSamples_eq]
    dsimp only
    rw [tenth_eq hrange, Option.bind_some, and_iff_right hhigh]
    generalize min (truncate asked) t.numSamples = N
    by_cases hfits : N.tdiv 10 ≤ n
    · refine iff_of_true (forLoop_taperStep (fun hpos hN => ?_) hfits hle) hfits
      rw [hN, Int.zero_tdiv] at hpos
      exact lt_irrefl 0 hpos
    · rw [forLoop_taperStep_eq_none (not_le.1 hfits)]
      exact iff_of_false nofun hfits
  · have hnone : toInt asked = none := if_neg fun hrange => hhigh hrange.2
    rw [hnone, Option.bind_none]
    exact iff_of_false nofun fun hc => hhigh hc.1

/-- Twenty samples, one a second. -/
def twentySeconds : SpecTrace where
  epochs := 0
  sampInt := 1000000
  numSamples := 20
  data := .BIT32 (List.replicate 20 1)
  tForm := none

end SpecTrace

end PQL
