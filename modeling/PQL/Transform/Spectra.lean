import PQL.Lib.Arrays
import PQL.Lib.CInt
import PQL.Lib.Windows

/-!
# Samples for spectra

`get_trans_times` finds the part of a trace that lies in the selected window and `get_trans_data`
loads its samples, less their mean, into a buffer of zeros.  The time before the trace is added to
the number of samples, so a window that starts before the trace and ends inside it takes samples
behind its end.  Relative windows are not cut at the start of the trace.  Times and samples are
exact, conversions to `int` are not.
-/

namespace PQL

/-- The time axis of the plot. -/
inductive TimeMode where
  | RELATIVE
  | ABSOLUTE
deriving DecidableEq, Repr

/-- The sample array; its type is the data form. -/
inductive TraceData where
  | BIT32 (ptr : List ℤ)
  | BIT16 (sptr : List ℤ)
  | MY_FLOAT (lptr : List ℚ)
  | MY_DOUBLE (dptr : List ℚ)

namespace TraceData

/-- `DATAP`. -/
def datap : TraceData → ℤ → Option ℚ
  | .BIT32 ptr, c => (load ptr c).map fun n : ℤ => (n : ℚ)
  | .BIT16 sptr, c => (load sptr c).map fun n : ℤ => (n : ℚ)
  | .MY_FLOAT lptr, c => load lptr c
  | .MY_DOUBLE dptr, c => load dptr c

/-- The samples as numbers. -/
def values : TraceData → List ℚ
  | .BIT32 ptr => ptr.map fun n : ℤ => (n : ℚ)
  | .BIT16 sptr => sptr.map fun n : ℤ => (n : ℚ)
  | .MY_FLOAT lptr => lptr
  | .MY_DOUBLE dptr => dptr

theorem datap_eq_load (d : TraceData) (c : ℤ) : d.datap c = load d.values c := by
  have hmap : ∀ ns : List ℤ, (load ns c).map (fun n : ℤ => (n : ℚ)) =
      load (ns.map fun n : ℤ => (n : ℚ)) c := by
    intro ns
    unfold load
    by_cases hc : 0 ≤ c
    · simp [hc]
    · simp [hc]
  cases d with
  | BIT32 ptr => exact hmap ptr
  | BIT16 sptr => exact hmap sptr
  | MY_FLOAT lptr => rfl
  | MY_DOUBLE dptr => rfl

end TraceData

/-- A trace; `sampInt` is in microseconds and `tForm` is the transformed data if there is any. -/
structure SpecTrace where
  epochs : ℚ
  sampInt : ℚ
  numSamples : ℤ
  data : TraceData
  tForm : Option (List ℚ)

/-- The `spectra` part of a trace. -/
structure Spectra where
  avg : ℚ
  beg : ℚ
  stop : ℚ
  fill_beg : ℚ
  fill_end : ℚ
  numPts : ℤ
  data : Option (List ℚ)

namespace SpecTrace

variable (t : SpecTrace)

/-! ## The computation -/

/-- Samples per second. -/
def sps : ℚ := 1000000 / t.sampInt

def length_of_trace : ℚ := t.numSamples / t.sps

/-- `get_trans_times`: `beg` is -1 when the window has nothing of the trace. -/
def getTransTimes (s : Spectra) (user_x1 user_x2 : ℚ) (time : TimeMode) (absStart : ℚ) : Spectra :=
  match time with
  | .ABSOLUTE =>
    if user_x1 + absStart > t.epochs + t.length_of_trace ∨ user_x2 + absStart < t.epochs then
      { s with beg := -1 }
    else
      let s := if user_x1 + absStart < t.epochs then
          { s with beg := 0, fill_beg := t.epochs - (user_x1 + absStart) }
        else { s with beg := user_x1 + absStart - t.epochs, fill_beg := 0 }
      if user_x2 + absStart > t.epochs + t.length_of_trace then
        { s with
          stop := t.length_of_trace
          fill_end := user_x2 + absStart - (t.epochs + t.length_of_trace) }
      else { s with stop := user_x2 + absStart - t.epochs, fill_end := 0 }
  | .RELATIVE =>
    let s := { s with
      fill_beg := 0
      beg := if user_x1 > t.length_of_trace then -1 else user_x1 }
    if user_x2 > t.length_of_trace then
      { s with stop := t.length_of_trace, fill_end := user_x2 - t.length_of_trace }
    else { s with stop := user_x2, fill_end := 0 }

/-- `for (j = 1; (int) pow(2, j) < num_samples; ++j)` and the power behind it; no `int` can hold the
31st. -/
def powerFrom (num_samples : ℤ) : ℕ → ℕ → Option ℤ
  | 0, _ => none
  | fuel + 1, j => (signed (2 ^ j)).bind fun p =>
      if p < num_samples then powerFrom num_samples fuel (j + 1) else some p

def power (num_samples : ℤ) : Option ℤ := powerFrom num_samples 31 1

/-- The array that is read. -/
def readSample (tFormOn : Bool) (i : ℤ) : Option ℚ :=
  match tFormOn, t.tForm with
  | true, some read_flt => load read_flt i
  | _, _ => t.data.datap i

/-- A step of the loading loop: the buffer and `avg`. -/
def loadSample (tFormOn : Bool) (startSamp num_samples : ℤ) (g : List ℚ × ℚ) (j : ℤ) :
    Option (List ℚ × ℚ) :=
  (t.readSample tFormOn (startSamp + j)).bind fun x =>
    (store g.1 j x).map fun get_data => (get_data, g.2 + x / num_samples)

/-- A step of the loop that takes the mean away. -/
def demeanSample (avg : ℚ) (get_data : List ℚ) (j : ℤ) : Option (List ℚ) :=
  (load get_data j).bind fun x => store get_data j (x - avg)

/-- `get_trans_data`; there is no result when an access is out of bounds. -/
def getTransData (tFormOn : Bool) (s : Spectra) : Option Spectra :=
  if s.beg = -1 then some s
  else
    (toInt ((s.stop - s.beg + s.fill_beg) * t.sps)).bind fun asked =>
      let num_samples := if asked > t.numSamples then t.numSamples else asked
      (power num_samples).bind fun numPts =>
        (toInt (s.beg * t.sps)).bind fun startSamp =>
          (forLoop 0 num_samples (t.loadSample tFormOn startSamp num_samples)
              (List.replicate (numPts + 2).toNat 0, 0)).bind fun (get_data, avg) =>
            (forLoop 0 num_samples (demeanSample avg) get_data).map fun get_data =>
              { s with avg := avg, numPts := numPts, data := some get_data }

/-- What a new selection does with a trace: the last buffer is freed first. -/
def transform (tFormOn : Bool) (s : Spectra) (user_x1 user_x2 : ℚ) (time : TimeMode)
    (absStart : ℚ) : Option Spectra :=
  t.getTransData tFormOn
    (t.getTransTimes { s with data := none } user_x1 user_x2 time absStart)

/-! ## The samples of a window -/

/-- The samples that the spectrum is taken of. -/
def source (tFormOn : Bool) : List ℚ :=
  match tFormOn, t.tForm with
  | true, some read_flt => read_flt
  | _, _ => t.data.values

theorem readSample_eq_load (tFormOn : Bool) (i : ℤ) :
    t.readSample tFormOn i = load (t.source tFormOn) i := by
  unfold readSample source
  cases tFormOn with
  | false => exact t.data.datap_eq_load i
  | true =>
    cases t.tForm with
    | none => exact t.data.datap_eq_load i
    | some read_flt => rfl

/-- The sampling interval in seconds. -/
def interval : ℚ := t.sampInt / 1000000

/-- Where sample `k` is on the time axis. -/
def axisTime (time : TimeMode) (absStart : ℚ) (k : ℤ) : ℚ :=
  match time with
  | .ABSOLUTE => t.epochs - absStart + k * t.interval
  | .RELATIVE => k * t.interval

/-- The samples in the window `[user_x1, user_x2)`. -/
def windowSamples (tFormOn : Bool) (user_x1 user_x2 : ℚ) (time : TimeMode)
    (absStart : ℚ) : List ℚ :=
  entriesWhere (fun k : ℕ =>
      user_x1 ≤ t.axisTime time absStart k ∧ t.axisTime time absStart k < user_x2)
    (t.source tFormOn)

/-- A trace and a window from sample `a` to sample `b` of its grid. -/
structure TransInput (tFormOn : Bool) (user_x1 user_x2 : ℚ) (time : TimeMode) (absStart : ℚ)
    (a b : ℤ) : Prop where
  sampInt_pos : 0 < t.sampInt
  numSamples_eq : t.numSamples = (t.source tFormOn).length
  numSamples_lt : t.numSamples < 2 ^ 31
  left : user_x1 = t.axisTime time absStart a
  right : user_x2 = t.axisTime time absStart b
  le : a ≤ b

/-- The trace is left out. -/
def Skipped (time : TimeMode) (a b : ℤ) : Prop :=
  t.numSamples < a ∨ match time with
    | .ABSOLUTE => b < 0
    | .RELATIVE => a * t.interval = -1

instance (time : TimeMode) (a b : ℤ) : Decidable (t.Skipped time a b) := by
  cases time
  · exact inferInstanceAs (Decidable (_ ∨ _))
  · exact inferInstanceAs (Decidable (_ ∨ _))

/-- The first sample that is read. -/
def firstRead (time : TimeMode) (a : ℤ) : ℤ :=
  match time with
  | .ABSOLUTE => max a 0
  | .RELATIVE => a

variable {t} {tFormOn : Bool} {user_x1 user_x2 absStart : ℚ} {time : TimeMode} {a b : ℤ}

namespace TransInput

theorem interval_pos (h : t.TransInput tFormOn user_x1 user_x2 time absStart a b) :
    0 < t.interval := div_pos h.sampInt_pos (by norm_num)

theorem interval_mul_sps (h : t.TransInput tFormOn user_x1 user_x2 time absStart a b) :
    t.interval * t.sps = 1 := by
  have := h.sampInt_pos.ne'
  rw [interval, sps]
  field_simp

theorem length_of_trace_eq (h : t.TransInput tFormOn user_x1 user_x2 time absStart a b) :
    t.length_of_trace = t.numSamples * t.interval := by
  have hne : t.sps ≠ 0 := right_ne_zero_of_mul_eq_one h.interval_mul_sps
  rw [length_of_trace, div_eq_iff hne, mul_assoc, h.interval_mul_sps, mul_one]

/-- The window takes and drops. -/
theorem windowSamples_eq (h : t.TransInput tFormOn user_x1 user_x2 time absStart a b) :
    t.windowSamples tFormOn user_x1 user_x2 time absStart =
      ((t.source tFormOn).take b.toNat).drop a.toNat := by
  rw [← entriesWhere_interval, windowSamples]
  apply entriesWhere_congr
  intro k _
  have hpos := h.interval_pos
  rw [h.left, h.right]
  cases time with
  | ABSOLUTE =>
    simp only [axisTime, add_le_add_iff_left, add_lt_add_iff_left, mul_le_mul_iff_left₀ hpos,
      mul_lt_mul_iff_left₀ hpos]
    norm_cast
  | RELATIVE =>
    simp only [axisTime, mul_le_mul_iff_left₀ hpos, mul_lt_mul_iff_left₀ hpos]
    norm_cast

/-- Multiples of the interval are compared by their factors. -/
theorem mul_interval_lt_iff (h : t.TransInput tFormOn user_x1 user_x2 time absStart a b) {m n : ℤ} :
    m * t.interval < n * t.interval ↔ m < n := by
  rw [mul_lt_mul_iff_left₀ h.interval_pos, Int.cast_lt]

theorem mul_interval_neg_iff (h : t.TransInput tFormOn user_x1 user_x2 time absStart a b) {m : ℤ} :
    m * t.interval < 0 ↔ m < 0 := by
  simpa using h.mul_interval_lt_iff (m := m) (n := 0)

theorem stop_eq (t : SpecTrace) (b : ℤ) :
    (if t.numSamples < b then t.numSamples * t.interval else b * t.interval) =
      ((min b t.numSamples : ℤ) : ℚ) * t.interval := by
  split_ifs with hb
  · rw [min_eq_right hb.le]
  · rw [min_eq_left (not_lt.1 hb)]

/-- What `get_trans_times` leaves. -/
structure Times (t : SpecTrace) (time : TimeMode) (a b : ℤ) (s' : Spectra) : Prop where
  skipped : t.Skipped time a b → s'.beg = -1
  beg_ne : ¬t.Skipped time a b → s'.beg ≠ -1
  beg_eq : ¬t.Skipped time a b → s'.beg = firstRead time a * t.interval
  asked : ¬t.Skipped time a b →
    s'.stop - s'.beg + s'.fill_beg = ((min b t.numSamples - a : ℤ) : ℚ) * t.interval

theorem times_absolute (h : t.TransInput tFormOn user_x1 user_x2 .ABSOLUTE absStart a b)
    (s : Spectra) :
    Times t .ABSOLUTE a b (t.getTransTimes s user_x1 user_x2 .ABSOLUTE absStart) := by
  have hleft : user_x1 + absStart = t.epochs + a * t.interval := by
    rw [h.left, axisTime]
    ring
  have hright : user_x2 + absStart = t.epochs + b * t.interval := by
    rw [h.right, axisTime]
    ring
  have htimes : t.getTransTimes s user_x1 user_x2 .ABSOLUTE absStart =
      if t.Skipped .ABSOLUTE a b then { s with beg := -1 }
      else { s with
        beg := if a < 0 then 0 else a * t.interval
        fill_beg := if a < 0 then -(a * t.interval) else 0
        stop := if t.numSamples < b then t.numSamples * t.interval else b * t.interval
        fill_end := if t.numSamples < b then (b - t.numSamples) * t.interval else 0 } := by
    simp only [getTransTimes, hleft, hright, h.length_of_trace_eq, gt_iff_lt, add_lt_add_iff_left,
      h.mul_interval_lt_iff, add_lt_iff_neg_left, h.mul_interval_neg_iff]
    by_cases hskip : t.Skipped .ABSOLUTE a b
    · rw [if_pos hskip]
      exact if_pos hskip
    · rw [if_neg hskip]
      refine (if_neg hskip).trans ?_
      by_cases ha : a < 0
      all_goals by_cases hb : t.numSamples < b
      all_goals simp only [ha, hb, if_true, if_false]; congr 1 <;> ring
  rw [htimes]
  by_cases hskip : t.Skipped .ABSOLUTE a b
  · rw [if_pos hskip]
    exact ⟨fun _ => rfl, fun hno => absurd hskip hno, fun hno => absurd hskip hno,
      fun hno => absurd hskip hno⟩
  · have hfirst : (if a < 0 then 0 else a * t.interval) = ((max a 0 : ℤ) : ℚ) * t.interval := by
      split_ifs with ha
      · rw [max_eq_right ha.le, Int.cast_zero, zero_mul]
      · rw [max_eq_left (not_lt.1 ha)]
    have hnonneg : (0 : ℚ) ≤ ((max a 0 : ℤ) : ℚ) * t.interval :=
      mul_nonneg (Int.cast_nonneg (le_max_right a 0)) h.interval_pos.le
    rw [if_neg hskip, stop_eq, hfirst]
    refine ⟨fun hyes => absurd hyes hskip, fun _ => ?_, fun _ => rfl, fun _ => ?_⟩
    · dsimp only
      linarith
    · push_cast
      split_ifs with ha
      · rw [max_eq_right (by exact_mod_cast ha.le)]
        ring
      · rw [max_eq_left (by exact_mod_cast not_lt.1 ha)]
        ring

theorem times_relative (h : t.TransInput tFormOn user_x1 user_x2 .RELATIVE absStart a b)
    (s : Spectra) :
    Times t .RELATIVE a b (t.getTransTimes s user_x1 user_x2 .RELATIVE absStart) := by
  have htimes : t.getTransTimes s user_x1 user_x2 .RELATIVE absStart =
      { s with
        fill_beg := 0
        beg := if t.numSamples < a then -1 else a * t.interval
        stop := if t.numSamples < b then t.numSamples * t.interval else b * t.interval
        fill_end := if t.numSamples < b then (b - t.numSamples) * t.interval else 0 } := by
    simp only [getTransTimes, h.left, h.right, axisTime, h.length_of_trace_eq, gt_iff_lt,
      h.mul_interval_lt_iff]
    by_cases hb : t.numSamples < b
    · simp only [hb, if_true]
      congr 1
      ring
    · simp only [hb, if_false]
  rw [htimes, stop_eq]
  constructor
  · rintro (hskip | hskip)
    · exact if_pos hskip
    · dsimp only
      rw [hskip, ite_self]
  all_goals
    intro hskip
    obtain ⟨ha, hne⟩ := not_or.1 hskip
    dsimp only
    rw [if_neg ha]
  · exact hne
  · rfl
  · push_cast
    ring

theorem times (h : t.TransInput tFormOn user_x1 user_x2 time absStart a b) (s : Spectra) :
    Times t time a b (t.getTransTimes s user_x1 user_x2 time absStart) := by
  cases time with
  | ABSOLUTE => exact h.times_absolute s
  | RELATIVE => exact h.times_relative s

end TransInput

/-! ## The buffer -/

theorem powerFrom_of_le {n : ℤ} (hn : n ≤ 2 ^ 30) :
    ∀ fuel j : ℕ, j ≤ 30 → 31 ≤ j + fuel → ∃ p, powerFrom n fuel j = some p ∧ n ≤ p := by
  intro fuel
  induction fuel with
  | zero => omega
  | succ fuel ih =>
    intro j hj hfuel
    have hrange : InIntRange (2 ^ j) := by
      have hle : (2 : ℤ) ^ j ≤ 2 ^ 30 := pow_le_pow_right₀ (by norm_num) hj
      have hpos : (0 : ℤ) < 2 ^ j := by positivity
      exact ⟨by omega, by omega⟩
    rw [powerFrom, signed_eq_some.2 ⟨rfl, hrange⟩, Option.bind_some]
    by_cases hp : 2 ^ j < n
    · rw [if_pos hp]
      apply ih (j + 1)
      · rcases hj.lt_or_eq with hlt | rfl
        · exact hlt
        · omega
      · omega
    · rw [if_neg hp]
      exact ⟨_, rfl, not_lt.1 hp⟩

theorem power_of_le {n : ℤ} (hn : n ≤ 2 ^ 30) : ∃ p, power n = some p ∧ n ≤ p :=
  powerFrom_of_le hn 31 1 (by norm_num) (by norm_num)

theorem powerFrom_of_lt {n : ℤ} (hn : 2 ^ 30 < n) : ∀ fuel j : ℕ, powerFrom n fuel j = none := by
  intro fuel
  induction fuel with
  | zero => exact fun _ => rfl
  | succ fuel ih =>
    intro j
    rw [powerFrom, signed]
    by_cases hrange : InIntRange (2 ^ j)
    · have hj : j ≤ 30 := by
        by_contra hj
        have hle : (2 : ℤ) ^ 31 ≤ 2 ^ j := pow_le_pow_right₀ (by norm_num) (by omega)
        exact absurd hrange.2 hle.not_gt
      have hle : (2 : ℤ) ^ j ≤ 2 ^ 30 := pow_le_pow_right₀ (by norm_num) hj
      rw [if_pos hrange, Option.bind_some, if_pos (by omega)]
      exact ih _
    · rw [if_neg hrange, Option.bind_none]

theorem power_of_lt {n : ℤ} (hn : 2 ^ 30 < n) : power n = none := powerFrom_of_lt hn 31 1

/-- The samples that are read. -/
def readSamples (t : SpecTrace) (tFormOn : Bool) (first m : ℕ) : List ℚ :=
  ((t.source tFormOn).drop first).take m

theorem length_readSamples {first m : ℕ} (hm : first + m ≤ (t.source tFormOn).length) :
    (t.readSamples tFormOn first m).length = m := by
  rw [readSamples, List.length_take, List.length_drop]
  omega

/-- The loading loop: behind the samples that are read the buffer stays zero. -/
theorem forLoop_loadSample {first m N : ℕ} (hm : first + m ≤ (t.source tFormOn).length)
    (hN : m ≤ N) :
    forLoop 0 m (t.loadSample tFormOn first m) (List.replicate N 0, 0) =
      some (t.readSamples tFormOn first m ++ List.replicate (N - m) 0,
        mean (t.readSamples tFormOn first m)) := by
  have hlength := length_readSamples hm
  have hsteps := loopSteps_invariant (f := t.loadSample tFormOn first m) (a := 0) (n := m)
    (s := (List.replicate N (0 : ℚ), (0 : ℚ)))
    (fun k => ((t.readSamples tFormOn first m).take k ++ List.replicate (N - k) 0,
      ((t.readSamples tFormOn first m).take k).sum / m))
    (by simp) fun k hk => by
      have hentry : (t.readSamples tFormOn first m)[k]? =
          (t.source tFormOn)[first + k]? := by
        rw [readSamples, List.getElem?_take_of_lt hk, List.getElem?_drop]
      have hk' : k < (t.readSamples tFormOn first m).length := by omega
      have hload : load (t.source tFormOn) (first + (0 + k : ℤ)) =
          some (t.readSamples tFormOn first m)[k] := by
        rw [load, if_pos (by omega), ← List.getElem?_eq_getElem hk', hentry]
        congr 1
        omega
      have hzeros : List.replicate (N - k) (0 : ℚ) = 0 :: List.replicate (N - (k + 1)) 0 := by
        rw [← List.replicate_succ]
        congr 1
        omega
      have hindex : (0 + k : ℤ) = (((t.readSamples tFormOn first m).take k).length : ℤ) := by
        rw [List.length_take_of_le hk'.le, zero_add]
      rw [loadSample, readSample_eq_load, hload, Option.bind_some, hzeros]
      dsimp only
      rw [hindex, store_append_cons, Option.map_some, List.take_add_one,
        List.getElem?_eq_getElem hk', Option.toList_some, List.append_assoc, List.singleton_append,
        List.sum_append, List.sum_singleton, add_div]
      push_cast
      rfl
  rw [forLoop, sub_zero, Int.toNat_natCast, hsteps, mean, hlength,
    List.take_of_length_le hlength.le]

/-- The loop that takes the mean away. -/
theorem forLoop_demeanSample (avg : ℚ) (xs zeros : List ℚ) :
    forLoop 0 xs.length (demeanSample avg) (xs ++ zeros) = some (xs.map (· - avg) ++ zeros) := by
  have hsteps := loopSteps_invariant (f := demeanSample avg) (a := 0) (n := xs.length)
    (s := xs ++ zeros) (fun k => (xs.take k).map (· - avg) ++ (xs.drop k ++ zeros)) (by simp)
    fun k hk => by
      have hindex : (0 + k : ℤ) = (((xs.take k).map (· - avg)).length : ℤ) := by
        rw [List.length_map, List.length_take_of_le hk.le, zero_add]
      rw [List.drop_eq_getElem_cons hk, List.cons_append, demeanSample, hindex, load_append_cons,
        Option.bind_some, store_append_cons, List.take_add_one, List.getElem?_eq_getElem hk,
        Option.toList_some, List.map_append, List.append_assoc]
      rfl
  rw [forLoop, sub_zero, Int.toNat_natCast, hsteps, List.take_length, List.drop_length,
    List.nil_append]

/-- A loop that starts in front of the samples leaves the array. -/
theorem forLoop_loadSample_eq_none {first num : ℤ} (hfirst : first < 0) (hnum : 0 < num)
    (g : List ℚ × ℚ) : forLoop 0 num (t.loadSample tFormOn first num) g = none := by
  by_contra hne
  have hsome := Option.isSome_iff_ne_none.2 hne
  rw [forLoop] at hsome
  have hone := loopSteps_prefix (m := 1) (by omega) hsome
  rw [loopSteps, loopSteps, Option.bind_some, loadSample, readSample_eq_load, load,
    if_neg (by push_cast; omega)] at hone
  exact Bool.noConfusion hone

/-! ## Which windows are loaded -/

/-- The number of samples from the left edge of the window, even before the trace, to its end. -/
def asked (t : SpecTrace) (a b : ℤ) : ℤ := min b t.numSamples - a

/-- There are at most as many as the trace has. -/
def loaded (t : SpecTrace) (a b : ℤ) : ℤ := min (t.asked a b) t.numSamples

/-- The samples behind the window that are loaded when it starts before the trace. -/
def behindWindow (t : SpecTrace) (tFormOn : Bool) (a b : ℤ) : List ℚ :=
  (t.readSamples tFormOn 0 (t.loaded a b).toNat).drop b.toNat

/-- The windows that are loaded: those that do not start before the trace, unless that does no
harm. -/
def Loads (t : SpecTrace) (tFormOn : Bool) (time : TimeMode) (a b : ℤ) : Prop :=
  if t.Skipped time a b then min b t.numSamples ≤ max a 0
  else
    (t.asked a b < 2 ^ 31 ∧ t.loaded a b ≤ 2 ^ 30) ∧
      (a < 0 → match time with
        | .ABSOLUTE => ∀ x ∈ t.behindWindow tFormOn a b,
            x = mean (t.readSamples tFormOn 0 (t.loaded a b).toNat)
        | .RELATIVE => -2 ^ 31 ≤ a ∧ t.loaded a b = 0)

/-- The buffer has the samples of the window less their mean, and zeros. -/
def Holds (t : SpecTrace) (tFormOn : Bool) (user_x1 user_x2 : ℚ) (time : TimeMode) (absStart : ℚ)
    (s : Spectra) : Prop :=
  ∃ zeros, s.data.getD [] =
    demean (t.windowSamples tFormOn user_x1 user_x2 time absStart) ++ List.replicate zeros 0

namespace TransInput

theorem numSamples_nonneg (h : t.TransInput tFormOn user_x1 user_x2 time absStart a b) :
    0 ≤ t.numSamples := by
  rw [h.numSamples_eq]
  exact Int.natCast_nonneg _

theorem loaded_nonneg (h : t.TransInput tFormOn user_x1 user_x2 time absStart a b)
    (hskip : ¬t.Skipped time a b) : 0 ≤ t.loaded a b := by
  have hn := h.numSamples_nonneg
  have hle := h.le
  have ha := (not_or.1 hskip).1
  rw [loaded, asked]
  omega

/-- The steps of `get_trans_data`. -/
theorem transform_eq (h : t.TransInput tFormOn user_x1 user_x2 time absStart a b)
    (hskip : ¬t.Skipped time a b) (s : Spectra) :
    ∃ s₁ : Spectra, t.transform tFormOn s user_x1 user_x2 time absStart =
      (signed (t.asked a b)).bind fun _ => (power (t.loaded a b)).bind fun numPts =>
        (signed (firstRead time a)).bind fun startSamp =>
          (forLoop 0 (t.loaded a b) (t.loadSample tFormOn startSamp (t.loaded a b))
              (List.replicate (numPts + 2).toNat 0, 0)).bind fun (get_data, avg) =>
            (forLoop 0 (t.loaded a b) (demeanSample avg) get_data).map fun get_data =>
              { s₁ with avg := avg, numPts := numPts, data := some get_data } := by
  have htimes := h.times { s with data := none }
  refine ⟨t.getTransTimes { s with data := none } user_x1 user_x2 time absStart, ?_⟩
  have hone := h.interval_mul_sps
  rw [transform, getTransData, if_neg (htimes.beg_ne hskip), htimes.asked hskip,
    htimes.beg_eq hskip, mul_assoc, mul_assoc, hone, mul_one, mul_one, toInt, toInt,
    truncate_intCast, truncate_intCast]
  by_cases hrange : InIntRange (t.asked a b)
  · have hloaded : (if t.asked a b > t.numSamples then t.numSamples else t.asked a b) =
        t.loaded a b := by
      rw [loaded]
      split_ifs with hgt
      · exact (min_eq_right hgt.le).symm
      · exact (min_eq_left (not_lt.1 hgt)).symm
    have hsigned : signed (min b t.numSamples - a) = some (t.asked a b) :=
      signed_eq_some.2 ⟨rfl, hrange⟩
    rw [signed_eq_some.2 ⟨rfl, hrange⟩, hsigned, Option.bind_some, Option.bind_some, hloaded]
  · have hnone : signed (t.asked a b) = none := if_neg hrange
    have hsigned : signed (min b t.numSamples - a) = none := hnone
    rw [hnone, hsigned, Option.bind_none, Option.bind_none]

/-- What is loaded when nothing overflows and no access is out of bounds. -/
theorem transform_data (h : t.TransInput tFormOn user_x1 user_x2 time absStart a b)
    (hskip : ¬t.Skipped time a b) (hasked : t.asked a b < 2 ^ 31) (hloaded : t.loaded a b ≤ 2 ^ 30)
    {first : ℕ} (hfirst : firstRead time a = first)
    (hread : first + (t.loaded a b).toNat ≤ (t.source tFormOn).length) (s : Spectra) :
    ∃ s' zeros, t.transform tFormOn s user_x1 user_x2 time absStart = some s' ∧
      s'.data = some (demean (t.readSamples tFormOn first (t.loaded a b).toNat) ++
        List.replicate zeros 0) := by
  obtain ⟨s₁, heq⟩ := h.transform_eq hskip s
  have hnonneg := h.loaded_nonneg hskip
  have hlt := h.numSamples_lt
  have hn := h.numSamples_eq
  obtain ⟨numPts, hpower, hle⟩ := power_of_le hloaded
  have hsource : InIntRange (first : ℤ) := ⟨by omega, by omega⟩
  have hmin : 0 ≤ t.asked a b := hnonneg.trans (min_le_left _ _)
  obtain ⟨m, hm⟩ := Int.eq_ofNat_of_zero_le hnonneg
  rw [hm, Int.toNat_natCast] at hread ⊢
  have hlength := length_readSamples hread
  rw [heq, signed_eq_some.2 ⟨rfl, ⟨by omega, hasked⟩⟩, Option.bind_some, hpower, Option.bind_some,
    hfirst, signed_eq_some.2 ⟨rfl, hsource⟩, Option.bind_some, hm,
    forLoop_loadSample hread (N := (numPts + 2).toNat) (by omega), Option.bind_some]
  have hdemean := forLoop_demeanSample (mean (t.readSamples tFormOn first m))
    (t.readSamples tFormOn first m) (List.replicate ((numPts + 2).toNat - m) 0)
  rw [hlength] at hdemean
  dsimp only
  rw [hdemean, Option.map_some]
  exact ⟨_, _, rfl, rfl⟩

/-- The samples that are read from inside the trace are those of the window. -/
theorem readSamples_eq_window (h : t.TransInput tFormOn user_x1 user_x2 time absStart a b)
    (hskip : ¬t.Skipped time a b) (ha : 0 ≤ a) :
    t.readSamples tFormOn a.toNat (t.loaded a b).toNat =
      t.windowSamples tFormOn user_x1 user_x2 time absStart := by
  have hn := h.numSamples_eq
  have hle := h.le
  have hin := (not_or.1 hskip).1
  rw [h.windowSamples_eq, List.drop_take, readSamples, List.take_eq_take_iff, List.length_drop,
    loaded, asked]
  omega

/-- A window that starts before the trace: the samples of the window and those behind it. -/
theorem readSamples_eq_append (h : t.TransInput tFormOn user_x1 user_x2 .ABSOLUTE absStart a b)
    (hskip : ¬t.Skipped .ABSOLUTE a b) (ha : a < 0) :
    t.readSamples tFormOn 0 (t.loaded a b).toNat =
      t.windowSamples tFormOn user_x1 user_x2 .ABSOLUTE absStart ++ t.behindWindow tFormOn a b := by
  have hn := h.numSamples_eq
  have hb : 0 ≤ b := not_lt.1 (not_or.1 hskip).2
  have hwindow : t.windowSamples tFormOn user_x1 user_x2 .ABSOLUTE absStart =
      (t.readSamples tFormOn 0 (t.loaded a b).toNat).take b.toNat := by
    rw [h.windowSamples_eq, Int.toNat_of_nonpos ha.le, readSamples, List.drop_zero, List.drop_zero,
      List.take_take, List.take_eq_take_iff, loaded, asked]
    omega
  rw [hwindow, behindWindow, List.take_append_drop]

theorem windowSamples_eq_nil_iff (h : t.TransInput tFormOn user_x1 user_x2 time absStart a b) :
    t.windowSamples tFormOn user_x1 user_x2 time absStart = [] ↔ min b t.numSamples ≤ max a 0 := by
  have hn := h.numSamples_eq
  rw [h.windowSamples_eq, ← List.length_eq_zero_iff, List.length_drop, List.length_take]
  omega

end TransInput

theorem getTransTimes_data (t : SpecTrace) (s : Spectra) (user_x1 user_x2 : ℚ) (time : TimeMode)
    (absStart : ℚ) : (t.getTransTimes s user_x1 user_x2 time absStart).data = s.data := by
  cases time with
  | RELATIVE =>
    rw [getTransTimes]
    split_ifs <;> rfl
  | ABSOLUTE =>
    rw [getTransTimes]
    split_ifs <;> rfl

/-- A trace that is left out keeps no buffer. -/
theorem exists_holds_iff_of_skipped
    (h : t.TransInput tFormOn user_x1 user_x2 time absStart a b) (hskip : t.Skipped time a b)
    (s : Spectra) :
    (∃ s', t.transform tFormOn s user_x1 user_x2 time absStart = some s' ∧
      t.Holds tFormOn user_x1 user_x2 time absStart s') ↔ min b t.numSamples ≤ max a 0 := by
  have htransform : t.transform tFormOn s user_x1 user_x2 time absStart =
      some (t.getTransTimes { s with data := none } user_x1 user_x2 time absStart) := by
    rw [transform, getTransData, if_pos ((h.times _).skipped hskip)]
  have hdata := t.getTransTimes_data { s with data := none } user_x1 user_x2 time absStart
  rw [htransform, ← h.windowSamples_eq_nil_iff]
  simp only [Option.some.injEq, exists_eq_left', Holds, hdata, Option.getD_none]
  constructor
  · rintro ⟨zeros, heq⟩
    have hnil := (List.append_eq_nil_iff.1 heq.symm).1
    rw [← List.length_eq_zero_iff, length_demean] at hnil
    exact List.length_eq_zero_iff.1 hnil
  · intro hnil
    exact ⟨0, by rw [hnil]; rfl⟩

/-- Inside the trace the window is loaded. -/
theorem exists_holds_of_nonneg (h : t.TransInput tFormOn user_x1 user_x2 time absStart a b)
    (hskip : ¬t.Skipped time a b) (ha : 0 ≤ a) (hasked : t.asked a b < 2 ^ 31)
    (hloaded : t.loaded a b ≤ 2 ^ 30) (s : Spectra) :
    ∃ s', t.transform tFormOn s user_x1 user_x2 time absStart = some s' ∧
      t.Holds tFormOn user_x1 user_x2 time absStart s' := by
  have hfirst : firstRead time a = (a.toNat : ℤ) := by
    rw [Int.toNat_of_nonneg ha]
    cases time with
    | RELATIVE => rfl
    | ABSOLUTE => exact max_eq_left ha
  have hread : a.toNat + (t.loaded a b).toNat ≤ (t.source tFormOn).length := by
    have hn := h.numSamples_eq
    have hin := (not_or.1 hskip).1
    rw [loaded, asked]
    omega
  obtain ⟨s', zeros, hs', hdata⟩ := h.transform_data hskip hasked hloaded hfirst hread s
  refine ⟨s', hs', zeros, ?_⟩
  rw [hdata, Option.getD_some, h.readSamples_eq_window hskip ha]

/-- Before the trace, on the absolute axis. -/
theorem exists_holds_iff_absolute
    (h : t.TransInput tFormOn user_x1 user_x2 .ABSOLUTE absStart a b)
    (hskip : ¬t.Skipped .ABSOLUTE a b) (ha : a < 0) (hasked : t.asked a b < 2 ^ 31)
    (hloaded : t.loaded a b ≤ 2 ^ 30) (s : Spectra) :
    (∃ s', t.transform tFormOn s user_x1 user_x2 .ABSOLUTE absStart = some s' ∧
      t.Holds tFormOn user_x1 user_x2 .ABSOLUTE absStart s') ↔
      ∀ x ∈ t.behindWindow tFormOn a b,
        x = mean (t.readSamples tFormOn 0 (t.loaded a b).toNat) := by
  have hread : 0 + (t.loaded a b).toNat ≤ (t.source tFormOn).length := by
    have hn := h.numSamples_eq
    rw [loaded, asked]
    omega
  obtain ⟨s', zeros, hs', hdata⟩ :=
    h.transform_data hskip hasked hloaded (max_eq_right ha.le) hread s
  rw [hs']
  simp only [Option.some.injEq, exists_eq_left', Holds, hdata, Option.getD_some]
  rw [h.readSamples_eq_append hskip ha]
  exact demean_append_eq_iff zeros

/-- Before the trace, on the relative axis. -/
theorem exists_holds_iff_relative
    (h : t.TransInput tFormOn user_x1 user_x2 .RELATIVE absStart a b)
    (hskip : ¬t.Skipped .RELATIVE a b) (ha : a < 0) (hasked : t.asked a b < 2 ^ 31)
    (hloaded : t.loaded a b ≤ 2 ^ 30) (s : Spectra) :
    (∃ s', t.transform tFormOn s user_x1 user_x2 .RELATIVE absStart = some s' ∧
      t.Holds tFormOn user_x1 user_x2 .RELATIVE absStart s') ↔
      -2 ^ 31 ≤ a ∧ t.loaded a b = 0 := by
  obtain ⟨s₁, heq⟩ := h.transform_eq hskip s
  have hnonneg := h.loaded_nonneg hskip
  have hmin : 0 ≤ t.asked a b := hnonneg.trans (min_le_left _ _)
  obtain ⟨numPts, hpower, -⟩ := power_of_le hloaded
  rw [heq, signed_eq_some.2 ⟨rfl, ⟨by omega, hasked⟩⟩, Option.bind_some, hpower, Option.bind_some,
    firstRead]
  constructor
  · rintro ⟨s', hs', -⟩
    obtain ⟨startSamp, hstart, hs'⟩ := Option.bind_eq_some_iff.1 hs'
    obtain ⟨rfl, hrange⟩ := signed_eq_some.1 hstart
    refine ⟨hrange.1, ?_⟩
    by_contra hne
    rw [forLoop_loadSample_eq_none ha (by omega), Option.bind_none] at hs'
    exact nomatch hs'
  · rintro ⟨hrange, hzero⟩
    rw [signed_eq_some.2 ⟨rfl, ⟨hrange, by omega⟩⟩, Option.bind_some, hzero, forLoop_of_le le_rfl,
      Option.bind_some]
    dsimp only
    rw [forLoop_of_le le_rfl, Option.map_some]
    refine ⟨_, rfl, (numPts + 2).toNat, ?_⟩
    have hnil : t.windowSamples tFormOn user_x1 user_x2 .RELATIVE absStart = [] := by
      have hn := h.numSamples_nonneg
      rw [h.windowSamples_eq_nil_iff]
      rw [loaded, asked] at hzero
      omega
    rw [hnil]
    rfl

/-- `get_trans_times` and `get_trans_data` leave the samples of the window exactly when it does not
start before the trace, or harmlessly. -/
theorem transform_holds_iff (h : t.TransInput tFormOn user_x1 user_x2 time absStart a b)
    (s : Spectra) :
    (∃ s', t.transform tFormOn s user_x1 user_x2 time absStart = some s' ∧
      t.Holds tFormOn user_x1 user_x2 time absStart s') ↔ t.Loads tFormOn time a b := by
  unfold Loads
  by_cases hskip : t.Skipped time a b
  · rw [if_pos hskip]
    exact exists_holds_iff_of_skipped h hskip s
  rw [if_neg hskip]
  by_cases hfits : t.asked a b < 2 ^ 31 ∧ t.loaded a b ≤ 2 ^ 30
  · obtain ⟨hasked, hloaded⟩ := hfits
    by_cases ha : a < 0
    · cases time with
      | ABSOLUTE =>
        rw [exists_holds_iff_absolute h hskip ha hasked hloaded s]
        tauto
      | RELATIVE =>
        rw [exists_holds_iff_relative h hskip ha hasked hloaded s]
        tauto
    · have hholds := exists_holds_of_nonneg h hskip (not_lt.1 ha) hasked hloaded s
      tauto
  · refine iff_of_false ?_ fun hloads => hfits hloads.1
    rintro ⟨s', hs', -⟩
    obtain ⟨s₁, heq⟩ := h.transform_eq hskip s
    rw [heq] at hs'
    obtain ⟨asked, hasked, hs'⟩ := Option.bind_eq_some_iff.1 hs'
    obtain ⟨numPts, hpower, -⟩ := Option.bind_eq_some_iff.1 hs'
    refine hfits ⟨(signed_eq_some.1 hasked).2.2, ?_⟩
    by_contra hloaded
    rw [power_of_lt (not_le.1 hloaded)] at hpower
    exact nomatch hpower

/-- Four samples, one a second. -/
def rampTrace : SpecTrace where
  epochs := 10
  sampInt := 1000000
  numSamples := 4
  data := .BIT32 [1, 2, 4, 9]
  tForm := none

def noSpectra : Spectra := ⟨0, 0, 0, 0, 0, 0, none⟩

theorem rampTrace_input (time : TimeMode) (a b : ℤ) (hab : a ≤ b) :
    rampTrace.TransInput false (rampTrace.axisTime time 0 a) (rampTrace.axisTime time 0 b) time 0
      a b := ⟨by norm_num [rampTrace], rfl, by norm_num [rampTrace], rfl, rfl, hab⟩

theorem transform_holds_rampTrace :
    (∃ s', rampTrace.transform false noSpectra (rampTrace.axisTime .ABSOLUTE 0 1)
        (rampTrace.axisTime .ABSOLUTE 0 3) .ABSOLUTE 0 = some s' ∧
      rampTrace.Holds false (rampTrace.axisTime .ABSOLUTE 0 1) (rampTrace.axisTime .ABSOLUTE 0 3)
        .ABSOLUTE 0 s') ↔ rampTrace.Loads false .ABSOLUTE 1 3 :=
  transform_holds_iff (rampTrace_input .ABSOLUTE 1 3 (by norm_num)) noSpectra

/-- A window from two seconds before the trace to its second sample takes all four samples. -/
theorem rampTrace_loads_behind_window :
    rampTrace.TransInput false 8 12 .ABSOLUTE 0 (-2) 2 ∧
      rampTrace.windowSamples false 8 12 .ABSOLUTE 0 = [1, 2] ∧
      (rampTrace.transform false noSpectra 8 12 .ABSOLUTE 0).map Spectra.data =
        some (some [-3, -2, 0, 5, 0, 0]) ∧
      ¬∃ s', rampTrace.transform false noSpectra 8 12 .ABSOLUTE 0 = some s' ∧
        rampTrace.Holds false 8 12 .ABSOLUTE 0 s' := by
  have hwindow : rampTrace.windowSamples false 8 12 .ABSOLUTE 0 = [1, 2] := by decide +kernel
  have hdata : (rampTrace.transform false noSpectra 8 12 .ABSOLUTE 0).map Spectra.data =
      some (some [-3, -2, 0, 5, 0, 0]) := by decide +kernel
  refine ⟨⟨by norm_num [rampTrace], rfl, by norm_num [rampTrace], ?_, ?_, by norm_num⟩, hwindow,
    hdata, ?_⟩
  · norm_num [axisTime, interval, rampTrace]
  · norm_num [axisTime, interval, rampTrace]
  · rintro ⟨s', hs', zeros, hzeros⟩
    rw [hs', Option.map_some, Option.some.injEq] at hdata
    rw [hdata, hwindow] at hzeros
    exact absurd (List.cons.inj hzeros).1 (by decide +kernel)

end SpecTrace

end PQL
