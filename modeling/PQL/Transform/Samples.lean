import PQL.Lib.Arrays
import PQL.Lib.LinearFit
import PQL.Lib.Windows

/-!
# Transforms of the samples

The transforms of one trace work in place.  `detrend` takes away the least-squares line exactly if
the number of samples is even or the slope of that line is twice the mean (`detrend_iff`), as it
counts the time from half a sample off the middle otherwise.  Differentiation leaves two samples
less and integration one less, but one and two are taken off their numbers (`sampleCounts_wrong`).
Samples are exact.
-/

namespace PQL

namespace TForm

open Finset

/-! ## The transforms -/

/-- `demean`. -/
def demean (data : List ℚ) (numPts : ℤ) (mean : ℚ) : Option (List ℚ) :=
  updateAll data numPts fun _ x => x - mean

def polarityReverse (data : List ℚ) (numPts : ℤ) : Option (List ℚ) :=
  updateAll data numPts fun _ x => x * -1

/-- The time of a sample in `detrend`; `n / 2` is an integer. -/
def trendTime (n i : ℤ) : ℚ := (i - n.tdiv 2 : ℤ) + 1 / 2

def detrend (c : List ℚ) (n : ℤ) : Option (List ℚ) := do
  let ysum ← forLoop 0 n (fun ysum i => (load c i).map fun x => ysum + x) 0
  let sums ← forLoop 0 n
    (fun s i => (load c i).map fun x =>
      s + (trendTime n i * trendTime n i, trendTime n i * x)) (0, 0)
  let b : ℚ := sums.2 / sums.1
  let a : ℚ := ysum / n - b * (n - 1) / 2
  updateAll c n fun i x => x - (a + b * i)

/-- The inputs that the loop of `dxdy` has saved. -/
structure Neighbours where
  ajm2 : ℚ
  ajm1 : ℚ
  aj : ℚ
  ajp1 : ℚ

/-- A step of the loop of `dxdy`. -/
def dxdyStep (fac1 fac2 : ℚ) (s : List ℚ × Neighbours) (j : ℤ) : Option (List ℚ × Neighbours) :=
  (load s.1 (j + 3)).bind fun ajp2 =>
    (store s.1 j (fac1 * (s.2.ajp1 - s.2.ajm1) - fac2 * (ajp2 - s.2.ajm2))).map fun output =>
      (output, ⟨s.2.ajm1, s.2.aj, s.2.ajp1, ajp2⟩)

def dxdy (array : List ℚ) (number : ℤ) (sampInt : ℚ) : Option (List ℚ) := do
  let step := sampInt / 1000000
  -- the endpoints
  let a2 ← load array 2
  let a0 ← load array 0
  let dif1 := (a2 - a0) / (2 * step)
  let b2 ← load array (number - 1)
  let b0 ← load array (number - 3)
  let dif2 := (b2 - b0) / (2 * step)
  -- the interior points
  let a1 ← load array 1
  let a3 ← load array 3
  let s ← forLoop 1 (number - 3) (dxdyStep (2 / (3 * step)) (1 / (12 * step)))
    (array, ⟨a0, a1, a2, a3⟩)
  let output ← store s.1 0 dif1
  store output (number - 3) dif2

/-- A step of the loop of `integrate`: the array and `totint`. -/
def integrateStep (hstep : ℚ) (s : List ℚ × ℚ) (jy : ℤ) : Option (List ℚ × ℚ) :=
  (load s.1 jy).bind fun a => (load s.1 (jy + 1)).bind fun b =>
    let totint := s.2 + hstep * (a + b)
    (store s.1 jy totint).map fun output => (output, totint)

def integrate (array : List ℚ) (number : ℤ) (sampInt : ℚ) : Option (List ℚ) :=
  (forLoop 0 (number - 1) (integrateStep (1 / 2 * (sampInt / 1000000))) (array, 0)).map Prod.fst

/-! ## Detrending -/

section Detrend

/-- The slope that `detrend` computes. -/
def trendSlope (n : ℕ) (c : ℕ → ℚ) : ℚ :=
  (∑ i ∈ range n, trendTime n i * c i) / ∑ i ∈ range n, trendTime n i * trendTime n i

/-- `detrend` leaves the residual of a line. -/
theorem detrend_tabulate {m n : ℕ} (hnm : n ≤ m) (c : ℕ → ℚ) :
    detrend (tabulate m c) n =
      some (tabulate m fun k => if k < n then residual n c (trendSlope n c) k else c k) := by
  have hload : ∀ k : ℕ, (k : ℤ) < n → load (tabulate m c) k = some (c k) := fun k hk => by
    rw [load_tabulate (Int.natCast_nonneg k) (by omega), Int.toNat_natCast]
  have hsum := forLoop_sum (n := (n : ℤ))
    (fun ysum i => (load (tabulate m c) i).map fun x => ysum + x) c 0 fun k hk t => by
      rw [hload k hk, Option.map_some]
  have hsums := forLoop_sum (n := (n : ℤ))
    (fun s i => (load (tabulate m c) i).map fun x =>
      s + (trendTime n i * trendTime n i, trendTime n i * x))
    (fun k => (trendTime n k * trendTime n k, trendTime n k * c k)) (0, 0) fun k hk t => by
      rw [hload k hk, Option.map_some]
  unfold detrend
  rw [hsum]
  simp only [bind, Option.bind_some]
  rw [hsums]
  simp only [Option.bind_some, Int.toNat_natCast]
  rw [updateAll_tabulate _ (by omega), Option.some.injEq]
  apply tabulate_congr
  intro k _
  by_cases hk : k < n
  · rw [if_pos (by omega), if_pos hk]
    have hslope : (((0, 0) : ℚ × ℚ) + ∑ k ∈ range n, (trendTime n k * trendTime n k,
        trendTime n k * c k)).2 / (((0, 0) : ℚ × ℚ) + ∑ k ∈ range n, (trendTime n k * trendTime n k,
        trendTime n k * c k)).1 = trendSlope n c := by
      rw [Prod.snd_add, Prod.fst_add, Prod.snd_sum, Prod.fst_sum, zero_add, zero_add, trendSlope]
    rw [hslope, zero_add, residual, average, centred]
    push_cast
    ring
  · rw [if_neg (by omega), if_neg hk]

/-- The time is counted from the middle, or from half a sample in front of it. -/
theorem trendTime_eq (n i : ℕ) :
    trendTime n i = centred n i + if Even n then 0 else 1 / 2 := by
  unfold trendTime centred
  rw [Int.tdiv_eq_ediv_of_nonneg (Int.natCast_nonneg n)]
  rcases Nat.even_or_odd' n with ⟨k, rfl | rfl⟩
  · have hhalf : ((2 * k : ℕ) : ℤ) / 2 = k := by omega
    rw [hhalf, if_pos ⟨k, two_mul k⟩]
    push_cast
    ring
  · have hhalf : ((2 * k + 1 : ℕ) : ℤ) / 2 = k := by omega
    rw [hhalf, if_neg (Nat.not_even_iff_odd.2 ⟨k, rfl⟩)]
    push_cast
    ring

/-- The slope is that of the least-squares line, unless the time is not centred. -/
theorem trendSlope_eq_slope_iff {n : ℕ} (hn : 2 ≤ n) (c : ℕ → ℚ) :
    trendSlope n c = slope n c ↔ Even n ∨ slope n c = 2 * average n c := by
  have hpos := sum_centred_sq_pos hn
  have hcast : (0 : ℚ) < n := by exact_mod_cast (by omega : 0 < n)
  have hsum := sum_eq_mul_average c (by omega : n ≠ 0)
  have hfit : ∑ i ∈ range n, centred n i * c i =
      slope n c * ∑ i ∈ range n, centred n i ^ 2 := by
    rw [slope, div_mul_cancel₀ _ hpos.ne']
  by_cases heven : Even n
  · have htime : ∀ i : ℕ, trendTime n i = centred n i := fun i => by
      rw [trendTime_eq, if_pos heven, add_zero]
    refine iff_of_true ?_ (.inl heven)
    simp only [trendSlope, htime, slope, sq]
  · have htime : ∀ i : ℕ, trendTime n i = centred n i + 1 / 2 := fun i => by
      rw [trendTime_eq, if_neg heven]
    have hnum : ∑ i ∈ range n, trendTime n i * c i =
        slope n c * (∑ i ∈ range n, centred n i ^ 2) + n * average n c / 2 := by
      simp only [htime, add_mul]
      rw [sum_add_distrib, ← mul_sum, hsum, hfit]
      ring
    have hden : ∑ i ∈ range n, trendTime n i * trendTime n i =
        (∑ i ∈ range n, centred n i ^ 2) + n / 4 := by
      have hterm : ∀ i : ℕ, trendTime n i * trendTime n i =
          centred n i ^ 2 + centred n i + 1 / 4 := fun i => by
        rw [htime]
        ring
      simp only [hterm]
      rw [sum_add_distrib, sum_add_distrib, sum_centred, sum_const, card_range, nsmul_eq_mul]
      ring
    have hden_pos : 0 < (∑ i ∈ range n, centred n i ^ 2) + (n : ℚ) / 4 := by positivity
    rw [or_iff_right heven, trendSlope, hnum, hden, div_eq_iff hden_pos.ne']
    constructor
    · intro h
      have hmul : (n : ℚ) * (slope n c - 2 * average n c) = 0 := by linear_combination -4 * h
      have hzero := (mul_eq_zero.1 hmul).resolve_left hcast.ne'
      linarith
    · intro h
      rw [h]
      ring

/-- The first moment of the samples. -/
def moment (xs : List ℚ) : ℚ := ∑ i ∈ range xs.length, (i : ℚ) * xs.getD i 0

/-- Sum and first moment are zero; lines vanish, and nothing more is taken away a second time. -/
def Detrends (xs : List ℚ) : Prop :=
  ∃ ys, detrend xs xs.length = some ys ∧ ys.length = xs.length ∧
    ys.sum = 0 ∧ moment ys = 0 ∧
      ((∃ p q : ℚ, xs = tabulate xs.length fun i => p + q * i) → ∀ y ∈ ys, y = 0) ∧
        detrend ys ys.length = some ys

theorem sum_tabulate (n : ℕ) (f : ℕ → ℚ) : (tabulate n f).sum = ∑ i ∈ range n, f i := by
  induction n with
  | zero => rfl
  | succ n ih =>
    rw [sum_range_succ, ← ih, tabulate, List.range_succ, List.map_append, List.sum_append]
    simp [tabulate]

theorem moment_tabulate (n : ℕ) (f : ℕ → ℚ) :
    moment (tabulate n f) = ∑ i ∈ range n, (i : ℚ) * f i := by
  rw [moment, length_tabulate]
  apply sum_congr rfl
  intro i hi
  rw [List.getD_eq_getElem?_getD, getElem?_tabulate, if_pos (mem_range.1 hi), Option.getD_some]

/-- Detrending is right exactly for an even number of samples or a slope of twice the mean. -/
theorem detrend_iff (xs : List ℚ) (hxs : 2 ≤ xs.length) :
    Detrends xs ↔ Even xs.length ∨
      slope xs.length (fun i => xs.getD i 0) = 2 * average xs.length fun i => xs.getD i 0 := by
  generalize hc : (fun i => xs.getD i 0) = c
  generalize hn : xs.length = n at *
  have htab : xs = tabulate n c := by rw [← hc, ← hn, tabulate_getD]
  have hn0 : n ≠ 0 := by omega
  -- the residuals
  have hall : ∀ c : ℕ → ℚ, detrend (tabulate n c) n =
      some (tabulate n (residual n c (trendSlope n c))) := fun c => by
    rw [detrend_tabulate le_rfl, Option.some.injEq]
    exact tabulate_congr fun k hk => if_pos hk
  rw [← trendSlope_eq_slope_iff hxs]
  constructor
  · rintro ⟨ys, hrun, -, -, hmoment, -⟩
    rw [htab, length_tabulate, hall] at hrun
    rw [← Option.some.inj hrun, moment_tabulate] at hmoment
    exact (moment_residual_eq_zero_iff c _ hxs).1 hmoment
  · intro hslope
    have hmoment := (moment_residual_eq_zero_iff c _ hxs).2 hslope
    have hsum := sum_residual c (trendSlope n c) hn0
    refine ⟨_, by rw [hn, htab, hall], ?_, ?_, ?_, ?_, ?_⟩
    · rw [length_tabulate, hn]
    · rw [sum_tabulate, hsum]
    · rw [moment_tabulate, hmoment]
    · rintro ⟨p, q, hline⟩ y hy
      rw [hn, htab, tabulate_eq_iff] at hline
      obtain ⟨k, hk, rfl⟩ := List.mem_map.1 hy
      rw [hslope, residual_slope_congr hline (List.mem_range.1 hk), residual_line hxs]
    · rw [length_tabulate, hall, Option.some.injEq]
      obtain ⟨haverage, hzero⟩ := slope_eq_zero (residual n c (trendSlope n c)) hsum hmoment
      have hnone : trendSlope n (residual n c (trendSlope n c)) = 0 := by
        rw [(trendSlope_eq_slope_iff hxs _).2 (.inr _), hzero]
        rw [hzero, haverage, mul_zero]
      apply tabulate_congr
      intro k _
      rw [hnone, residual, haverage, zero_mul, sub_zero, sub_zero]

/-! ### Two traces -/

theorem detrend_iff_four : Detrends [1, 2, 4, 4] :=
  (detrend_iff [1, 2, 4, 4] (by decide)).2 (.inl (by decide))

/-- An impulse and two zeros are left with a first moment. -/
theorem detrend_odd :
    detrend [1, 0, 0] 3 = some [16 / 33, -1 / 3, -5 / 33] ∧ ¬ Detrends [1, 0, 0] := by
  have hrun : detrend [1, 0, 0] 3 = some [16 / 33, -1 / 3, -5 / 33] := by decide +kernel
  refine ⟨hrun, ?_⟩
  rintro ⟨ys, hys, -, -, hmoment, -⟩
  rw [List.length_cons, List.length_cons, List.length_singleton] at hys
  obtain rfl := Option.some.inj (hrun.symm.trans hys)
  rw [moment, List.length_cons, List.length_cons, List.length_singleton] at hmoment
  norm_num [sum_range_succ] at hmoment

end Detrend

/-! ## Differentiation and integration -/

section Differentiate

/-- The difference quotient over two steps. -/
def twoPoint (step : ℚ) (x : ℕ → ℚ) (i : ℕ) : ℚ := (x (i + 1) - x (i - 1)) / (2 * step)

/-- The five-point derivative, without the point itself. -/
def fivePoint (step : ℚ) (x : ℕ → ℚ) (i : ℕ) : ℚ :=
  2 / (3 * step) * (x (i + 1) - x (i - 1)) - 1 / (12 * step) * (x (i + 2) - x (i - 2))

/-- The derivative at the sample `i` of `n`. -/
def derivative (step : ℚ) (n : ℕ) (x : ℕ → ℚ) (i : ℕ) : ℚ :=
  if i = 1 ∨ i = n - 2 then twoPoint step x i else fivePoint step x i

/-- The trapezoid sum of the inputs up to `i`. -/
def trapezoid (step : ℚ) (x : ℕ → ℚ) (i : ℕ) : ℚ :=
  ∑ j ∈ range i, 1 / 2 * step * (x j + x (j + 1))

/-- The saved inputs are always the next four. -/
theorem dxdyLoop_tabulate {m n : ℕ} (hn : 3 ≤ n) (hnm : n ≤ m) (step : ℚ) (x : ℕ → ℚ) :
    ∃ saved, forLoop 1 ((n : ℤ) - 3) (dxdyStep (2 / (3 * step)) (1 / (12 * step)))
        (tabulate m x, ⟨x 0, x 1, x 2, x 3⟩) =
      some (tabulate m fun k =>
        if 1 ≤ k ∧ k + 3 < n then fivePoint step x (k + 1) else x k, saved) := by
  have hsteps := loopSteps_invariant (f := dxdyStep (2 / (3 * step)) (1 / (12 * step))) (a := 1)
    (n := n - 4) (s := (tabulate m x, ⟨x 0, x 1, x 2, x 3⟩))
    (fun i => (tabulate m fun k => if 1 ≤ k ∧ k ≤ i then fivePoint step x (k + 1) else x k,
      ⟨x i, x (i + 1), x (i + 2), x (i + 3)⟩))
    (Prod.ext (tabulate_congr fun k _ => if_neg (by omega)) rfl) fun i hi => by
      have hload : load
          (tabulate m fun k => if 1 ≤ k ∧ k ≤ i then fivePoint step x (k + 1) else x k)
          (1 + (i : ℤ) + 3) = some (x (i + 4)) := by
        have hindex : (1 + (i : ℤ) + 3).toNat = i + 4 := by omega
        rw [load_tabulate (by omega) (by omega), hindex, if_neg (by omega)]
      have hvalue : 2 / (3 * step) * (x (i + 3) - x (i + 1)) - 1 / (12 * step) * (x (i + 4) - x i) =
          fivePoint step x (i + 2) := rfl
      have hindex : (1 + (i : ℤ)).toNat = i + 1 := by omega
      unfold dxdyStep
      dsimp only
      rw [hload, Option.bind_some, hvalue, store_tabulate (by omega) (by omega), Option.map_some,
        Option.some.injEq, hindex]
      exact Prod.ext (tabulate_update_if fun k => by omega) rfl
  have hnumber : ((n : ℤ) - 3 - 1).toNat = n - 4 := by omega
  refine ⟨⟨x (n - 4), x (n - 4 + 1), x (n - 4 + 2), x (n - 4 + 3)⟩, ?_⟩
  rw [forLoop, hnumber, hsteps, Option.some.injEq]
  exact Prod.ext (tabulate_if_congr fun k => by omega) rfl

/-- What `dxdy` leaves: derivatives, and the inputs behind them. -/
theorem dxdy_tabulate {m n : ℕ} (hn : 3 ≤ n) (hnm : n ≤ m) (hm : 4 ≤ m) (sampInt : ℚ) (x : ℕ → ℚ) :
    dxdy (tabulate m x) n sampInt =
      some (tabulate m fun k =>
        if k + 2 < n then derivative (sampInt / 1000000) n x (k + 1) else x k) := by
  have hload : ∀ (i : ℤ) (k : ℕ), i = k → k < m → load (tabulate m x) i = some (x k) := by
    rintro _ k rfl hk
    rw [load_tabulate (Int.natCast_nonneg k) (by omega), Int.toNat_natCast]
  obtain ⟨saved, hloop⟩ := dxdyLoop_tabulate hn hnm (sampInt / 1000000) x
  have hlast : ((n : ℤ) - 3).toNat = n - 3 := by omega
  unfold dxdy
  simp only [bind]
  rw [hload 2 2 rfl (by omega), hload 0 0 rfl (by omega), hload _ (n - 1) (by omega) (by omega),
    hload _ (n - 3) (by omega) (by omega), hload 1 1 rfl (by omega), hload 3 3 rfl (by omega)]
  simp only [Option.bind_some]
  rw [hloop, Option.bind_some, store_tabulate le_rfl (by omega), Option.bind_some,
    store_tabulate (by omega) (by omega), Option.some.injEq, hlast]
  apply tabulate_congr
  intro k _
  unfold derivative
  by_cases hend : k = n - 3
  · -- the second endpoint
    subst hend
    have hnext : n - 3 + 1 + 1 = n - 1 := by omega
    rw [Function.update_self, if_pos (by omega), if_pos (.inr (by omega)), twoPoint, hnext,
      Nat.add_sub_cancel]
  rw [Function.update_of_ne hend]
  by_cases hzero : k = 0
  · subst hzero
    rw [Int.toNat_zero, Function.update_self, if_pos (by omega), if_pos (.inl rfl)]
    rfl
  rw [Int.toNat_zero, Function.update_of_ne hzero]
  by_cases hk : k + 2 < n
  · rw [if_pos (by omega), if_pos hk, if_neg (by omega)]
  · rw [if_neg (by omega), if_neg hk]

/-- What `integrate` leaves: trapezoid sums, and the last input. -/
theorem integrate_tabulate {m : ℕ} {n : ℤ} (hnm : n ≤ m) (sampInt : ℚ) (x : ℕ → ℚ) :
    integrate (tabulate m x) n sampInt =
      some (tabulate m fun k =>
        if (k : ℤ) < n - 1 then trapezoid (sampInt / 1000000) x (k + 1) else x k) := by
  generalize hstep : sampInt / 1000000 = step
  have hsteps := loopSteps_invariant (f := integrateStep (1 / 2 * step)) (a := 0)
    (n := (n - 1).toNat) (s := (tabulate m x, 0))
    (fun i => (tabulate m fun k => if k < i then trapezoid step x (k + 1) else x k,
      trapezoid step x i))
    (Prod.ext (tabulate_congr fun k _ => if_neg k.not_lt_zero) rfl) fun i hi => by
      have hnext : ((i : ℤ) + 1).toNat = i + 1 := by omega
      have htotal : trapezoid step x i + 1 / 2 * step * (x i + x (i + 1)) =
          trapezoid step x (i + 1) := (sum_range_succ _ i).symm
      unfold integrateStep
      dsimp only
      rw [zero_add, load_tabulate (by omega) (by omega), Int.toNat_natCast, if_neg (lt_irrefl i),
        Option.bind_some, load_tabulate (by omega) (by omega), hnext, if_neg (by omega),
        Option.bind_some, htotal, store_tabulate (by omega) (by omega), Option.map_some,
        Option.some.injEq, Int.toNat_natCast]
      exact Prod.ext (tabulate_update_if fun k => by omega) rfl
  unfold integrate
  rw [hstep, forLoop, sub_zero, hsteps, Option.map_some, Option.some.injEq]
  exact tabulate_if_congr fun k => by omega

/-! ### The numbers of samples -/

/-- A transformed trace; `sampInt` is in microseconds. -/
structure Samples where
  data : List ℚ
  numSamples : ℤ
  sampInt : ℚ

/-- `PQLDIFFERENTIATE`. -/
def differentiate (t : Samples) : Option Samples :=
  (dxdy t.data t.numSamples t.sampInt).map fun data =>
    { t with data, numSamples := t.numSamples - 1 }

/-- `PQLINTEGRATE`. -/
def integral (t : Samples) : Option Samples :=
  (integrate t.data t.numSamples t.sampInt).map fun data =>
    { t with data, numSamples := t.numSamples - 2 }

/-- The samples are the derivatives at the inputs from 1 to `n - 2`. -/
def Differentiates (xs : List ℚ) (sampInt : ℚ) : Prop :=
  ∃ t, differentiate ⟨xs, xs.length, sampInt⟩ = some t ∧ t.numSamples = xs.length - 2 ∧
    ∀ k : ℕ, (k : ℤ) < t.numSamples → load t.data k =
      some (derivative (sampInt / 1000000) xs.length (fun i => xs.getD i 0) (k + 1))

/-- The samples are the trapezoid sums up to the inputs from 1 to `n - 1`. -/
def Integrates (xs : List ℚ) (sampInt : ℚ) : Prop :=
  ∃ t, integral ⟨xs, xs.length, sampInt⟩ = some t ∧ t.numSamples = xs.length - 1 ∧
    ∀ k : ℕ, (k : ℤ) < t.numSamples → load t.data k =
      some (trapezoid (sampInt / 1000000) (fun i => xs.getD i 0) (k + 1))

theorem not_differentiates (xs : List ℚ) (sampInt : ℚ) : ¬ Differentiates xs sampInt := by
  rintro ⟨t, hrun, hnum, -⟩
  obtain ⟨data, -, rfl⟩ := Option.map_eq_some_iff.1 hrun
  dsimp only at hnum
  omega

theorem not_integrates (xs : List ℚ) (sampInt : ℚ) : ¬ Integrates xs sampInt := by
  rintro ⟨t, hrun, hnum, -⟩
  obtain ⟨data, -, rfl⟩ := Option.map_eq_some_iff.1 hrun
  dsimp only at hnum
  omega

/-- Behind the derivatives an input stays inside of the samples, and the last of the sums is cut
off. -/
theorem sampleCounts_wrong (xs : List ℚ) (sampInt : ℚ) (hxs : 5 ≤ xs.length) :
    (∃ t, differentiate ⟨xs, xs.length, sampInt⟩ = some t ∧ t.numSamples = xs.length - 1 ∧
      (∀ k : ℕ, k + 2 < xs.length → load t.data k =
        some (derivative (sampInt / 1000000) xs.length (fun i => xs.getD i 0) (k + 1))) ∧
      load t.data (xs.length - 2) = load xs (xs.length - 2)) ∧
    (∃ t, integral ⟨xs, xs.length, sampInt⟩ = some t ∧ t.numSamples = xs.length - 2 ∧
      ∀ k : ℕ, k + 1 < xs.length → load t.data k =
        some (trapezoid (sampInt / 1000000) (fun i => xs.getD i 0) (k + 1))) ∧
    ¬ Differentiates xs sampInt ∧ ¬ Integrates xs sampInt := by
  refine ⟨?_, ?_, not_differentiates xs sampInt, not_integrates xs sampInt⟩
  · have hrun := dxdy_tabulate (by omega) le_rfl (by omega : 4 ≤ xs.length) sampInt
      fun i => xs.getD i 0
    rw [tabulate_getD] at hrun
    refine ⟨_, by rw [differentiate, hrun, Option.map_some], rfl, fun k hk => ?_, ?_⟩
    · dsimp only
      rw [load_tabulate (Int.natCast_nonneg k) (by omega), Int.toNat_natCast, if_pos hk]
    · have hindex : ((xs.length : ℤ) - 2).toNat = xs.length - 2 := by omega
      have hlast : load xs (xs.length - 2) = some (xs.getD (xs.length - 2) 0) := by
        rw [load, if_pos (by omega), hindex, List.getD_eq_getElem?_getD,
          List.getElem?_eq_getElem (by omega), Option.getD_some]
      dsimp only
      rw [load_tabulate (by omega) (by omega), hindex, if_neg (by omega), hlast]
  · have hrun := integrate_tabulate (n := xs.length) le_rfl sampInt fun i => xs.getD i 0
    rw [tabulate_getD] at hrun
    refine ⟨_, by rw [integral, hrun, Option.map_some], rfl, fun k hk => ?_⟩
    dsimp only
    rw [load_tabulate (Int.natCast_nonneg k) (by omega), Int.toNat_natCast, if_pos (by omega)]

/-! ### Five squares -/

theorem sampleCounts_wrong_squares :
    ¬ Differentiates [0, 1, 4, 9, 16] 1000000 ∧ ¬ Integrates [0, 1, 4, 9, 16] 1000000 :=
  (sampleCounts_wrong [0, 1, 4, 9, 16] 1000000 (by decide)).2.2

/-- The fourth sample is still the input, and the fourth sum lies behind the samples. -/
theorem squares_counts :
    (differentiate ⟨[0, 1, 4, 9, 16], 5, 1000000⟩).map (fun t => (t.data, t.numSamples)) =
        some ([2, 4, 6, 9, 16], 4) ∧
      (integral ⟨[0, 1, 4, 9, 16], 5, 1000000⟩).map (fun t => (t.data, t.numSamples)) =
        some ([1 / 2, 3, 19 / 2, 22, 16], 3) ∧
      ¬ Differentiates [0, 1, 4, 9, 16] 1000000 ∧ ¬ Integrates [0, 1, 4, 9, 16] 1000000 :=
  ⟨by decide +kernel, by decide +kernel, not_differentiates _ _, not_integrates _ _⟩

end Differentiate

end TForm

end PQL
