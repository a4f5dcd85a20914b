import PQL.Lib.Arrays
import PQL.Lib.CInt
import PQL.Lib.Nearest
import PQL.Plot.Graph

/-!
# Plotting a spectrum and reading it out

`transform_data` leaves the amplitude of frequency bin `j` in entry `2 * j` of the buffer.
`sp_plot` draws the bins of a range of frequencies and `spec_point` reads one of them out at a
pixel; both place the first bin at the lower limit and step from there.  So the bins lie at their
frequencies only if the limit is that of a bin; the second bin is drawn without a look at the upper
limit, which `spec_point` does not know at all, and of two bins it reports none behind the second
(`spectrum_shown_iff`).  All arithmetic is exact; the logarithms of the axes are parameters.
-/

namespace PQL

namespace Spectrum

/-! ## The spectrum -/

section Transform

variable (sqrt : ℚ → ℚ)

/-- The upper bound of `transform_data`. -/
def maxFreq (xMax dt : ℚ) : ℚ := if xMax ≠ 0 then xMax else 1 / (2 * dt)

/-- A step of the loop of `transform_data`, for the bin `k`. -/
def transformStep (numPts : ℤ) (dt minFreq maxFreq : ℚ) (s : List ℚ × ℚ) (k : ℤ) :
    Option (List ℚ × ℚ) :=
  let j := 2 * k
  (load s.1 j).bind fun re => (load s.1 (j + 1)).bind fun im =>
    let amp := sqrt (re * re + im * im)
    (store s.1 j (amp * dt)).map fun udata =>
      let curFreq := (j : ℚ) / (2 * (numPts * dt))
      (udata, if (curFreq > minFreq ∧ curFreq < maxFreq) ∧ amp * dt > s.2 then amp * dt else s.2)

/-- `transform_data` behind the transform: the buffer and `ampMax`. -/
def transformData (numPts : ℤ) (dt minFreq xMax : ℚ) (udata : List ℚ) : Option (List ℚ × ℚ) :=
  forLoop 0 (numPts / 2 + 1) (transformStep sqrt numPts dt minFreq (maxFreq xMax dt)) (udata, 0)

end Transform

/-! ## The plot -/

/-- A point of the plot and its pixel. -/
structure Point where
  freq : ℚ
  amp : ℚ
  pix_x : ℤ
  pix_y : ℤ
deriving DecidableEq

section Plot

variable (L : Logs10) (gr : Graph)

/-- An amplitude outside of the limits is drawn at the limit. -/
def pixY (ymin ymax amp : ℚ) : ℤ :=
  if amp < ymin then gr.user2pixy L ymin
  else if amp > ymax then gr.user2pixy L ymax
  else gr.user2pixy L amp

def point (ymin ymax x amp : ℚ) : Point := ⟨x, amp, gr.user2pixx L x, pixY L gr ymin ymax amp⟩

/-- `delta`. -/
def binWidth (npts : ℤ) (dt : ℚ) : ℚ := 1 / (2 * dt) / npts

/-- `skip`. -/
def skipBins (npts : ℤ) (dt xmin : ℚ) : Option ℤ :=
  (toInt (xmin * 2 * npts * dt)).map fun skip => if skip < 0 then 0 else skip

/-- The loop of `sp_plot`: each line starts at the last point. -/
def plotLoop (udata : List ℚ) (delta xmax ymin ymax : ℚ) :
    ℕ → ℤ → ℚ → Point → Option (List (Point × Point))
  | 0, _, _, _ => some []
  | n + 1, i, x, last =>
    let i := i + 2
    let x := x + delta
    if x > xmax then some []
    else
      (load udata i).bind fun amp =>
        let next := point L gr ymin ymax x amp
        (plotLoop udata delta xmax ymin ymax n i x next).map ((last, next) :: ·)

/-- `sp_plot`: the lines; there is no result when an access is out of bounds. -/
def spPlot (udata : List ℚ) (npts : ℤ) (dt xmin xmax ymin ymax : ℚ) :
    Option (List (Point × Point)) :=
  let delta := binWidth npts dt
  (skipBins npts dt xmin).bind fun skip =>
    let n_data := npts - skip
    if n_data < 2 then some []
    else
      (load udata (skip * 2)).bind fun amp₀ => (load udata (skip * 2 + 2)).bind fun amp₁ =>
        let p₀ := point L gr ymin ymax xmin amp₀
        let p₁ := point L gr ymin ymax (xmin + delta) amp₁
        (plotLoop L gr udata delta xmax ymin ymax (n_data - 2).toNat (skip * 2 + 2) (xmin + delta)
          p₁).map ((p₀, p₁) :: ·)

/-! ## The read-out -/

/-- `SPECPT`. -/
structure SpecPt where
  trans_x : ℤ
  trans_y : ℤ
  trans_mouse_freq : ℚ
  trans_mouse_amp : ℚ
deriving DecidableEq

def Point.report (p : Point) : SpecPt := ⟨p.pix_x, p.pix_y, p.freq, p.amp⟩

/-- The one of two points that is reported for a pixel between them. -/
def reportCloser (s_x : ℤ) (p q : Point) : SpecPt :=
  if s_x - p.pix_x < q.pix_x - s_x then p.report else q.report

/-- The loop of `spec_point`. -/
def specLoop (udata : List ℚ) (delta ymin ymax : ℚ) (s_x : ℤ) :
    ℕ → ℤ → ℚ → Point → SpecPt → Option SpecPt
  | 0, _, _, _, specPt => some specPt
  | n + 1, i, x, last, specPt =>
    let i := i + 2
    let x := x + delta
    (load udata i).bind fun amp =>
      let next := point L gr ymin ymax x amp
      if s_x ≤ next.pix_x then some (reportCloser s_x last next)
      else
        specLoop udata delta ymin ymax s_x n i x next
          { specPt with trans_mouse_freq := x, trans_mouse_amp := amp }

/-- `spec_point`; it takes the limits from the edges of the plot. -/
def specPoint (udata : List ℚ) (numPts : ℤ) (dt : ℚ) (s_x : ℤ) : Option SpecPt :=
  let npts := numPts / 2
  let delta := binWidth npts dt
  let xmin := gr.pix2userx L gr.pix_xmin
  let ymin := gr.pix2usery L gr.pix_ymax
  let ymax := gr.pix2usery L gr.pix_ymin
  let specPt : SpecPt := ⟨0, 0, 0, 0⟩
  (skipBins npts dt xmin).bind fun skip =>
    let n_data := npts - skip
    if n_data < 2 then some specPt
    else
      (load udata (skip * 2)).bind fun amp₀ => (load udata (skip * 2 + 2)).bind fun amp₁ =>
        let p₀ := point L gr ymin ymax xmin amp₀
        let p₁ := point L gr ymin ymax (xmin + delta) amp₁
        if s_x ≤ p₀.pix_x then some p₀.report
        else if s_x ≤ p₁.pix_x then some (reportCloser s_x p₀ p₁)
        else specLoop L gr udata delta ymin ymax s_x (n_data - 2).toNat (skip * 2 + 2)
          (xmin + delta) p₁ specPt

end Plot

/-! ## What should be shown -/

/-- The frequency of a bin. -/
def binFreq (npts : ℕ) (dt : ℚ) (j : ℕ) : ℚ := j / ((2 * npts : ℕ) * dt)

/-- The first bin that is shown. -/
def firstBin (npts : ℕ) (dt xmin : ℚ) : ℕ := ⌊xmin * ((2 * npts : ℕ) * dt)⌋.toNat

/-- The bins behind the first one up to the limit. -/
def laterBins (npts : ℕ) (dt xmin xmax : ℚ) : List ℕ :=
  (List.range' (firstBin npts dt xmin + 1) (npts - (firstBin npts dt xmin + 1))).filter
    fun j => binFreq npts dt j ≤ xmax

/-- The frequencies and bins of the plot; one bin alone is not drawn. -/
def shownBins (npts : ℕ) (dt xmin xmax : ℚ) : List (ℚ × ℕ) :=
  if npts < firstBin npts dt xmin + 2 then []
  else (xmin, firstBin npts dt xmin) ::
    (laterBins npts dt xmin xmax).map fun j => (binFreq npts dt j, j)

/-- The lines from each point to the next. -/
def segments (points : List Point) : List (Point × Point) := points.zip points.tail

/-- `ampMax` is the greatest amplitude of the bins strictly between the bounds. -/
def IsAmpMax (npts : ℕ) (dt minFreq maxFreq : ℚ) (udata : List ℚ) (ampMax : ℚ) : Prop :=
  let amps := {a | ∃ j ≤ npts, minFreq < binFreq npts dt j ∧ binFreq npts dt j < maxFreq ∧
    udata[2 * j]? = some a}
  amps = ∅ ∧ ampMax = 0 ∨ IsGreatest amps ampMax

section Shown

variable (L : Logs10) (gr : Graph)

def shownPoints (udata : List ℚ) (npts : ℕ) (dt xmin xmax ymin ymax : ℚ) : List Point :=
  (shownBins npts dt xmin xmax).map fun b => point L gr ymin ymax b.1 (udata.getD (2 * b.2) 0)

def pixels (points : List Point) (k : ℕ) : ℤ := (points.map Point.pix_x).getD k 0

/-- The report is of the point of the plot that is nearest to the pixel. -/
def ReportsNearest (points : List Point) (s_x : ℤ) (r : SpecPt) : Prop :=
  ∃ i p, points[i]? = some p ∧ r.trans_mouse_freq = p.freq ∧ r.trans_mouse_amp = p.amp ∧
    NearestAround (pixels points) points.length s_x i

/-- The spectrum of a transformed buffer is plotted and read out as it should be. -/
structure Shows (sqrt : ℚ → ℚ) (raw : List ℚ) (npts : ℕ) (dt minFreq xMax xmin xmax ymin ymax : ℚ)
    (udata : List ℚ) (ampMax : ℚ) : Prop where
  transform : transformData sqrt (2 * npts : ℕ) dt minFreq xMax raw = some (udata, ampMax)
  ampMax : IsAmpMax npts dt minFreq (maxFreq xMax dt) udata ampMax
  plot : spPlot L gr udata npts dt xmin xmax ymin ymax =
    some (segments (shownPoints L gr udata npts dt xmin xmax ymin ymax))
  readOut : ∀ s_x, shownPoints L gr udata npts dt xmin xmax ymin ymax ≠ [] →
    ∃ r, specPoint L gr udata (2 * npts : ℕ) dt s_x = some r ∧
      ReportsNearest (shownPoints L gr udata npts dt xmin xmax ymin ymax) s_x r

end Shown

/-! ## The greatest amplitude -/

section AmpMax

variable {sqrt : ℚ → ℚ} {npts : ℕ} {dt minFreq maxFreq : ℚ} {raw : List ℚ}

/-- The amplitude of a bin of the transform. -/
def binAmp (sqrt : ℚ → ℚ) (dt : ℚ) (raw : List ℚ) (j : ℕ) : ℚ :=
  sqrt (raw.getD (2 * j) 0 * raw.getD (2 * j) 0 +
    raw.getD (2 * j + 1) 0 * raw.getD (2 * j + 1) 0) * dt

/-- The buffer when the amplitudes of the first `k` bins are in place. -/
def ampBuffer (sqrt : ℚ → ℚ) (dt : ℚ) (raw : List ℚ) (k : ℕ) : List ℚ :=
  tabulate raw.length fun i =>
    if i % 2 = 0 ∧ i < 2 * k then binAmp sqrt dt raw (i / 2) else raw.getD i 0

/-- `ampMax` behind the first `k` bins. -/
def runMax (inside : ℕ → Prop) [DecidablePred inside] (amp : ℕ → ℚ) : ℕ → ℚ
  | 0 => 0
  | k + 1 =>
    if inside k ∧ amp k > runMax inside amp k then amp k else runMax inside amp k

theorem transformStep_ampBuffer (hlen : raw.length = 2 * npts + 2) {k : ℕ} (hk : k ≤ npts)
    (m : ℚ) :
    transformStep sqrt (2 * npts : ℕ) dt minFreq maxFreq (ampBuffer sqrt dt raw k, m) k =
      some (ampBuffer sqrt dt raw (k + 1),
        if (minFreq < binFreq npts dt k ∧ binFreq npts dt k < maxFreq) ∧
          binAmp sqrt dt raw k > m then binAmp sqrt dt raw k else m) := by
  have hre : load (ampBuffer sqrt dt raw k) (2 * k) = some (raw.getD (2 * k) 0) := by
    rw [ampBuffer, load_tabulate (by omega) (by omega), if_neg (by omega)]
    congr 2
  have him : load (ampBuffer sqrt dt raw k) (2 * k + 1) = some (raw.getD (2 * k + 1) 0) := by
    rw [ampBuffer, load_tabulate (by omega) (by omega), if_neg (by omega)]
    congr 2
  have hstore : store (ampBuffer sqrt dt raw k) (2 * k) (binAmp sqrt dt raw k) =
      some (ampBuffer sqrt dt raw (k + 1)) := by
    have hindex : ((2 * k : ℤ)).toNat = 2 * k := by omega
    rw [ampBuffer, store_tabulate (by omega) (by omega), hindex, Option.some.injEq]
    apply tabulate_congr
    intro i _
    by_cases hi : i = 2 * k
    · subst hi
      have hhalf : 2 * k / 2 = k := by omega
      rw [Function.update_self, if_pos ⟨by omega, by omega⟩, hhalf]
    · rw [Function.update_of_ne hi]
      exact if_congr (by omega) rfl rfl
  have hfreq : ((2 * k : ℤ) : ℚ) / (2 * ((2 * npts : ℕ) * dt)) = binFreq npts dt k := by
    rw [binFreq]
    push_cast
    rw [mul_div_mul_left _ _ two_ne_zero]
  unfold transformStep
  simp only []
  rw [hre, Option.bind_some, him, Option.bind_some]
  change (store _ _ (binAmp sqrt dt raw k)).map _ = _
  rw [hstore, Option.map_some]
  simp only [Int.cast_natCast, hfreq, gt_iff_lt]
  rfl

theorem transformData_eq (hlen : raw.length = 2 * npts + 2) (xMax : ℚ) :
    transformData sqrt (2 * npts : ℕ) dt minFreq xMax raw =
      some (ampBuffer sqrt dt raw (npts + 1),
        runMax (fun j => minFreq < binFreq npts dt j ∧ binFreq npts dt j < Spectrum.maxFreq xMax dt)
          (binAmp sqrt dt raw) (npts + 1)) := by
  have hinit : ampBuffer sqrt dt raw 0 = raw := by
    rw [ampBuffer]
    conv_rhs => rw [← tabulate_getD raw 0]
    exact tabulate_congr fun i _ => if_neg (by omega)
  have hcount : ((2 * npts : ℕ) : ℤ) / 2 + 1 = (npts + 1 : ℕ) := by omega
  have hsteps := loopSteps_invariant (a := 0) (n := npts + 1) (s := (raw, (0 : ℚ)))
    (f := transformStep sqrt (2 * npts : ℕ) dt minFreq (Spectrum.maxFreq xMax dt))
    (fun k => (ampBuffer sqrt dt raw k,
      runMax (fun j => minFreq < binFreq npts dt j ∧ binFreq npts dt j < Spectrum.maxFreq xMax dt)
        (binAmp sqrt dt raw) k)) (by rw [hinit, runMax]) fun k hk => by
      rw [zero_add, transformStep_ampBuffer hlen (Nat.le_of_lt_succ hk), runMax]
  rw [transformData, hcount, forLoop, sub_zero, Int.toNat_natCast, hsteps]

/-- The running maximum of amplitudes that are not negative. -/
theorem runMax_spec (inside : ℕ → Prop) [DecidablePred inside] {amp : ℕ → ℚ}
    (hamp : ∀ j, 0 ≤ amp j) (k : ℕ) :
    ((∀ j < k, ¬inside j) ∧ runMax inside amp k = 0) ∨
      ((∃ j < k, inside j ∧ amp j = runMax inside amp k) ∧
        ∀ j < k, inside j → amp j ≤ runMax inside amp k) := by
  induction k with
  | zero => exact .inl ⟨fun j hj => absurd hj (Nat.not_lt_zero j), rfl⟩
  | succ k ih =>
    have hbefore : ∀ j < k + 1, j ≠ k → j < k := fun j hj hne => by omega
    rw [runMax]
    by_cases hnew : inside k ∧ amp k > runMax inside amp k
    · rw [if_pos hnew]
      refine .inr ⟨⟨k, k.lt_succ_self, hnew.1, rfl⟩, fun j hj hin => ?_⟩
      rcases eq_or_ne j k with rfl | hne
      · exact le_rfl
      · rcases ih with ⟨hnone, -⟩ | ⟨-, hle⟩
        · exact absurd hin (hnone j (hbefore j hj hne))
        · exact (hle j (hbefore j hj hne) hin).trans hnew.2.le
    · rw [if_neg hnew]
      have hlast : inside k → amp k ≤ runMax inside amp k :=
        fun hin => not_lt.1 fun hlt => hnew ⟨hin, hlt⟩
      rcases ih with ⟨hnone, hzero⟩ | ⟨⟨j, hj, hin, heq⟩, hle⟩
      · by_cases hin : inside k
        · refine .inr ⟨⟨k, k.lt_succ_self, hin, ?_⟩, fun j hj hinj => ?_⟩
          · exact le_antisymm (hlast hin) (hzero ▸ hamp k)
          · rcases eq_or_ne j k with rfl | hne
            · exact hlast hin
            · exact absurd hinj (hnone j (hbefore j hj hne))
        · refine .inl ⟨fun j hj => ?_, hzero⟩
          rcases eq_or_ne j k with rfl | hne
          · exact hin
          · exact hnone j (hbefore j hj hne)
      · refine .inr ⟨⟨j, hj.trans k.lt_succ_self, hin, heq⟩, fun i hi hini => ?_⟩
        rcases eq_or_ne i k with rfl | hne
        · exact hlast hini
        · exact hle i (hbefore i hi hne) hini

/-- `transform_data` leaves the amplitudes and the greatest of those between its bounds. -/
theorem isAmpMax (hsqrt : ∀ q, 0 ≤ sqrt q) (hdt : 0 < dt) (hlen : raw.length = 2 * npts + 2)
    (maxFreq : ℚ) :
    IsAmpMax npts dt minFreq maxFreq (ampBuffer sqrt dt raw (npts + 1))
      (runMax (fun j => minFreq < binFreq npts dt j ∧ binFreq npts dt j < maxFreq)
        (binAmp sqrt dt raw) (npts + 1)) := by
  have hentry : ∀ j ≤ npts, (ampBuffer sqrt dt raw (npts + 1))[2 * j]? =
      some (binAmp sqrt dt raw j) := by
    intro j hj
    have hhalf : 2 * j / 2 = j := by omega
    rw [ampBuffer, getElem?_tabulate, if_pos (by omega), if_pos ⟨by omega, by omega⟩, hhalf]
  have hamp : ∀ j, 0 ≤ binAmp sqrt dt raw j := fun j => mul_nonneg (hsqrt _) hdt.le
  rcases runMax_spec (fun j => minFreq < binFreq npts dt j ∧ binFreq npts dt j < maxFreq)
      hamp (npts + 1) with
    ⟨hnone, hzero⟩ | ⟨⟨j, hj, hin, heq⟩, hle⟩
  · refine .inl ⟨Set.eq_empty_of_forall_notMem ?_, hzero⟩
    rintro a ⟨j, hj, hlow, hhigh, -⟩
    exact hnone j (Nat.lt_succ_of_le hj) ⟨hlow, hhigh⟩
  · refine .inr ⟨⟨j, Nat.le_of_lt_succ hj, hin.1, hin.2, ?_⟩, ?_⟩
    · rw [hentry j (Nat.le_of_lt_succ hj), heq]
    · rintro a ⟨i, hi, hlow, hhigh, ha⟩
      rw [hentry i hi, Option.some.injEq] at ha
      rw [← ha]
      exact hle i (Nat.lt_succ_of_le hi) ⟨hlow, hhigh⟩

end AmpMax

/-! ## The loops -/

section Loops

variable {L : Logs10} {gr : Graph} {udata : List ℚ} {delta ymin ymax : ℚ} {freq : ℕ → ℚ}

/-- The point of a bin, at the frequency that the loops have reached for it. -/
def reached (L : Logs10) (gr : Graph) (udata : List ℚ) (ymin ymax : ℚ) (freq : ℕ → ℚ) (j : ℕ) :
    Point :=
  point L gr ymin ymax (freq j) (udata.getD (2 * j) 0)

theorem bin_index (j : ℕ) : (j : ℤ) * 2 = (2 * j : ℕ) := by omega

theorem next_bin_index (j : ℕ) : ((2 * j : ℕ) : ℤ) + 2 = (2 * (j + 1) : ℕ) := by omega

theorem later_bins_count (npts s : ℕ) : ((npts : ℤ) - s - 2).toNat = npts - (s + 2) := by omega

theorem load_bin {j : ℕ} (hj : 2 * j < udata.length) :
    load udata (2 * j : ℕ) = some (udata.getD (2 * j) 0) := by
  rw [load, if_pos (Int.natCast_nonneg _), Int.toNat_natCast, List.getElem?_eq_getElem hj,
    List.getD_eq_getElem _ _ hj]

theorem segments_cons (p q : Point) (points : List Point) :
    segments (p :: q :: points) = (p, q) :: segments (q :: points) := rfl

/-- The loop of `sp_plot` draws the bins behind the last one up to the limit. -/
theorem plotLoop_eq (hdelta : 0 ≤ delta) (hfreq : ∀ j, freq (j + 1) = freq j + delta) (xmax : ℚ)
    (n k : ℕ) (hlen : 2 * (k + n) < udata.length) :
    plotLoop L gr udata delta xmax ymin ymax n (2 * k : ℕ) (freq k)
        (reached L gr udata ymin ymax freq k) =
      some (segments (reached L gr udata ymin ymax freq k ::
        ((List.range' (k + 1) n).filter fun j => freq j ≤ xmax).map
          (reached L gr udata ymin ymax freq))) := by
  induction n generalizing k with
  | zero => rfl
  | succ n ih =>
    rw [plotLoop]
    simp only []
    rw [← hfreq, next_bin_index, List.range'_succ]
    by_cases hbehind : freq (k + 1) > xmax
    · have hmono : Monotone freq := monotone_nat_of_le_succ fun j => by linarith [hfreq j]
      have hnone : ((k + 1) :: List.range' (k + 1 + 1) n).filter (fun j => freq j ≤ xmax) = [] := by
        rw [List.filter_eq_nil_iff]
        intro j hj
        have hkj : k + 1 ≤ j := by
          rcases List.mem_cons.1 hj with rfl | hj
          · exact le_rfl
          · exact (List.mem_range'_1.1 hj).1.trans' (by omega)
        simpa using hbehind.trans_le (hmono hkj)
      rw [if_pos hbehind, hnone]
      rfl
    · rw [if_neg hbehind, load_bin (by omega), Option.bind_some, List.filter_cons_of_pos
        (by simpa using hbehind), List.map_cons, segments_cons]
      change (plotLoop L gr udata delta xmax ymin ymax n (2 * (k + 1) : ℕ) (freq (k + 1))
        (reached L gr udata ymin ymax freq (k + 1))).map _ = _
      rw [ih (k + 1) (by omega), Option.map_some]
      rfl

/-- The loop of `spec_point` stops at the first bin that the pixel is not behind. -/
theorem specLoop_spec (hfreq : ∀ j, freq (j + 1) = freq j + delta) (s_x : ℤ) (n k : ℕ)
    (specPt : SpecPt) (hlen : 2 * (k + n) < udata.length)
    (hk : (reached L gr udata ymin ymax freq k).pix_x < s_x) :
    ∃ r, specLoop L gr udata delta ymin ymax s_x n (2 * k : ℕ) (freq k)
        (reached L gr udata ymin ymax freq k) specPt = some r ∧
      ((∃ j, k ≤ j ∧ j < k + n ∧ (reached L gr udata ymin ymax freq j).pix_x < s_x ∧
          s_x ≤ (reached L gr udata ymin ymax freq (j + 1)).pix_x ∧
          r = reportCloser s_x (reached L gr udata ymin ymax freq j)
            (reached L gr udata ymin ymax freq (j + 1))) ∨
        (reached L gr udata ymin ymax freq (k + n)).pix_x < s_x ∧ (n = 0 → r = specPt) ∧
          (0 < n → r.trans_mouse_freq = freq (k + n) ∧
            r.trans_mouse_amp = udata.getD (2 * (k + n)) 0)) := by
  induction n generalizing k specPt with
  | zero => exact ⟨specPt, rfl, .inr ⟨hk, fun _ => rfl, fun h => absurd h (lt_irrefl 0)⟩⟩
  | succ n ih =>
    rw [specLoop]
    simp only []
    rw [← hfreq, next_bin_index, load_bin (by omega), Option.bind_some]
    by_cases hstop : s_x ≤ (reached L gr udata ymin ymax freq (k + 1)).pix_x
    · exact ⟨_, if_pos hstop, .inl ⟨k, le_rfl, by omega, hk, hstop, rfl⟩⟩
    · obtain ⟨r, hr, hcase⟩ := ih (k + 1) ⟨specPt.trans_x, specPt.trans_y, freq (k + 1),
        udata.getD (2 * (k + 1)) 0⟩ (by omega) (not_le.1 hstop)
      refine ⟨r, (if_neg hstop).trans hr, ?_⟩
      have hend : k + 1 + n = k + (n + 1) := by omega
      rw [hend] at hcase
      rcases hcase with ⟨j, hkj, hj, hbetween⟩ | ⟨hbehind, hnone, hlast⟩
      · exact .inl ⟨j, by omega, by omega, hbetween⟩
      · refine .inr ⟨hbehind, fun h => absurd h (Nat.succ_ne_zero n), fun _ => ?_⟩
        rcases Nat.eq_zero_or_pos n with rfl | hpos
        · rw [hnone rfl]
          exact ⟨rfl, rfl⟩
        · exact hlast hpos

end Loops

/-! ## The plot and the read-out of the bins -/

section Drawn

variable {L : Logs10} {gr : Graph} {udata : List ℚ} {npts : ℕ} {dt xmin : ℚ}

/-- The frequency at which a bin is drawn: the first one at the limit, the others from there. -/
def drawnFreq (npts : ℕ) (dt xmin : ℚ) (j : ℕ) : ℚ :=
  xmin + (j - firstBin npts dt xmin) * binWidth npts dt

theorem binFreq_eq (npts : ℕ) (dt : ℚ) (j : ℕ) : binFreq npts dt j = j * binWidth npts dt := by
  rw [binFreq, binWidth, div_div, mul_one_div]
  push_cast
  ring

theorem binWidth_pos (hnpts : 1 ≤ npts) (hdt : 0 < dt) : 0 < binWidth npts dt := by
  have : (0 : ℚ) < npts := by exact_mod_cast hnpts
  unfold binWidth
  push_cast
  positivity

theorem binFreq_strictMono (hnpts : 1 ≤ npts) (hdt : 0 < dt) : StrictMono (binFreq npts dt) := by
  intro i j hij
  rw [binFreq_eq, binFreq_eq]
  exact mul_lt_mul_of_pos_right (by exact_mod_cast hij) (binWidth_pos hnpts hdt)

theorem drawnFreq_firstBin : drawnFreq npts dt xmin (firstBin npts dt xmin) = xmin := by
  rw [drawnFreq, sub_self, zero_mul, add_zero]

theorem drawnFreq_succ (j : ℕ) :
    drawnFreq npts dt xmin (j + 1) = drawnFreq npts dt xmin j + binWidth npts dt := by
  rw [drawnFreq, drawnFreq]
  push_cast
  ring

/-- From a limit at a bin, all bins are drawn at their frequencies. -/
theorem drawnFreq_eq_binFreq (hxmin : xmin = binFreq npts dt (firstBin npts dt xmin)) (j : ℕ) :
    drawnFreq npts dt xmin j = binFreq npts dt j := by
  rw [binFreq_eq] at hxmin
  rw [drawnFreq, binFreq_eq]
  linarith

/-- A limit at a bin is at the first bin that is shown. -/
theorem eq_firstBin_of_eq_binFreq (hnpts : 1 ≤ npts) (hdt : 0 < dt) {j : ℕ}
    (hxmin : xmin = binFreq npts dt j) : j = firstBin npts dt xmin := by
  have hden : ((2 * npts : ℕ) : ℚ) * dt ≠ 0 := by
    have : (0 : ℚ) < (2 * npts : ℕ) := by exact_mod_cast (by omega : 0 < 2 * npts)
    positivity
  rw [firstBin, hxmin, binFreq, div_mul_cancel₀ _ hden, Int.floor_natCast, Int.toNat_natCast]

/-- `skip` is the first bin that is shown, if it fits into an integer. -/
theorem skipBins_eq (hdt : 0 < dt) (hxmin : 0 ≤ xmin) :
    skipBins npts dt xmin =
      if firstBin npts dt xmin < 2 ^ 31 then some (firstBin npts dt xmin : ℤ) else none := by
  have harg : xmin * 2 * (npts : ℤ) * dt = xmin * ((2 * npts : ℕ) * dt) := by
    push_cast
    ring
  have hnonneg : 0 ≤ xmin * ((2 * npts : ℕ) * dt) := by positivity
  have hskip : truncate (xmin * ((2 * npts : ℕ) * dt)) = firstBin npts dt xmin := by
    rw [truncate_of_nonneg hnonneg, firstBin, Int.toNat_of_nonneg (Int.floor_nonneg.2 hnonneg)]
  have hrange : InIntRange (firstBin npts dt xmin) ↔ firstBin npts dt xmin < 2 ^ 31 := by
    unfold InIntRange
    omega
  rw [skipBins, harg, toInt, hskip, signed]
  by_cases hfits : firstBin npts dt xmin < 2 ^ 31
  · rw [if_pos hfits, if_pos (hrange.2 hfits), Option.map_some, if_neg (by omega)]
  · rw [if_neg hfits, if_neg fun h => hfits (hrange.1 h), Option.map_none]

/-- The point of a bin as it is drawn. -/
def drawnPoint (L : Logs10) (gr : Graph) (udata : List ℚ) (npts : ℕ) (dt xmin ymin ymax : ℚ) :
    ℕ → Point :=
  reached L gr udata ymin ymax (drawnFreq npts dt xmin)

/-- `sp_plot` draws two bins, and then those up to the limit. -/
theorem spPlot_eq (hnpts : 1 ≤ npts) (hdt : 0 < dt) (hxmin : 0 ≤ xmin)
    (hfits : firstBin npts dt xmin < 2 ^ 31) (hs : firstBin npts dt xmin + 2 ≤ npts)
    (hlen : udata.length = 2 * npts + 2) (xmax ymin ymax : ℚ) :
    spPlot L gr udata npts dt xmin xmax ymin ymax =
      some (segments (drawnPoint L gr udata npts dt xmin ymin ymax (firstBin npts dt xmin) ::
        drawnPoint L gr udata npts dt xmin ymin ymax (firstBin npts dt xmin + 1) ::
        ((List.range' (firstBin npts dt xmin + 2) (npts - (firstBin npts dt xmin + 2))).filter
          fun j => drawnFreq npts dt xmin j ≤ xmax).map
          (drawnPoint L gr udata npts dt xmin ymin ymax))) := by
  have hnext : xmin + binWidth npts dt = drawnFreq npts dt xmin (firstBin npts dt xmin + 1) := by
    rw [drawnFreq_succ, drawnFreq_firstBin]
  have hpoint : drawnPoint L gr udata npts dt xmin ymin ymax (firstBin npts dt xmin) =
      point L gr ymin ymax xmin (udata.getD (2 * firstBin npts dt xmin) 0) := by
    rw [drawnPoint, reached, drawnFreq_firstBin]
  have hloop := @plotLoop_eq L gr udata _ ymin ymax _ (binWidth_pos hnpts hdt).le
    (@drawnFreq_succ npts dt xmin) xmax (npts - (firstBin npts dt xmin + 2))
    (firstBin npts dt xmin + 1) (by omega)
  rw [spPlot, skipBins_eq hdt hxmin, if_pos hfits, Option.bind_some]
  simp only []
  rw [if_neg (by omega), bin_index, next_bin_index, later_bins_count, load_bin (by omega),
    Option.bind_some, load_bin (by omega), Option.bind_some, hnext]
  change (plotLoop L gr udata _ xmax ymin ymax _ _ _ (reached L gr udata ymin ymax _ _)).map _ = _
  rw [hloop, Option.map_some, segments_cons, hpoint]
  rfl

/-- `spec_point` reports one of the two drawn bins around the pixel; behind the last bin it reports
that one if there are three of them. -/
theorem specPoint_spec (hdt : 0 < dt) (hxmin : 0 ≤ xmin) (hedge : gr.pix2userx L gr.pix_xmin = xmin)
    (hfits : firstBin npts dt xmin < 2 ^ 31) (hs : firstBin npts dt xmin + 2 ≤ npts)
    (hlen : udata.length = 2 * npts + 2) (s_x : ℤ) {p : ℕ → Point}
    (hp : drawnPoint L gr udata npts dt xmin (gr.pix2usery L gr.pix_ymax)
      (gr.pix2usery L gr.pix_ymin) = p) :
    ∃ r, specPoint L gr udata (2 * npts : ℕ) dt s_x = some r ∧
      (s_x ≤ (p (firstBin npts dt xmin)).pix_x ∧ r = (p (firstBin npts dt xmin)).report ∨
        (∃ j, firstBin npts dt xmin ≤ j ∧ j + 1 < npts ∧ (p j).pix_x < s_x ∧
          s_x ≤ (p (j + 1)).pix_x ∧ r = reportCloser s_x (p j) (p (j + 1))) ∨
        (p (npts - 1)).pix_x < s_x ∧
          (firstBin npts dt xmin + 2 = npts → r = ⟨0, 0, 0, 0⟩) ∧
          (firstBin npts dt xmin + 3 ≤ npts → r.trans_mouse_freq = (p (npts - 1)).freq ∧
            r.trans_mouse_amp = (p (npts - 1)).amp)) := by
  have hhalf : ((2 * npts : ℕ) : ℤ) / 2 = npts := by omega
  have hlast : firstBin npts dt xmin + 1 + (npts - (firstBin npts dt xmin + 2)) = npts - 1 := by
    omega
  have hnext : xmin + binWidth npts dt = drawnFreq npts dt xmin (firstBin npts dt xmin + 1) := by
    rw [drawnFreq_succ, drawnFreq_firstBin]
  have hpoint : ∀ j, point L gr (gr.pix2usery L gr.pix_ymax) (gr.pix2usery L gr.pix_ymin)
      (drawnFreq npts dt xmin j) (udata.getD (2 * j) 0) = p j := fun j => congrFun hp j
  have hpoint₀ := hpoint (firstBin npts dt xmin)
  rw [drawnFreq_firstBin] at hpoint₀
  rw [specPoint, hhalf, hedge, skipBins_eq hdt hxmin, if_pos hfits]
  simp only [Option.bind_some]
  rw [if_neg (by omega), bin_index, next_bin_index, later_bins_count, load_bin (by omega),
    Option.bind_some, load_bin (by omega), Option.bind_some, hnext, hpoint, hpoint₀]
  by_cases hfront : s_x ≤ (p (firstBin npts dt xmin)).pix_x
  · exact ⟨_, if_pos hfront, .inl ⟨hfront, rfl⟩⟩
  rw [if_neg hfront]
  by_cases hstop : s_x ≤ (p (firstBin npts dt xmin + 1)).pix_x
  · exact ⟨_, if_pos hstop, .inr (.inl ⟨_, le_rfl, by omega, not_le.1 hfront, hstop, rfl⟩)⟩
  rw [if_neg hstop]
  have hloop := @specLoop_spec L gr udata _ (gr.pix2usery L gr.pix_ymax)
    (gr.pix2usery L gr.pix_ymin) _ (@drawnFreq_succ npts dt xmin) s_x
    (npts - (firstBin npts dt xmin + 2)) (firstBin npts dt xmin + 1) ⟨0, 0, 0, 0⟩ (by omega)
  have hreached : reached L gr udata (gr.pix2usery L gr.pix_ymax) (gr.pix2usery L gr.pix_ymin)
      (drawnFreq npts dt xmin) = p := hp
  rw [hreached, hlast] at hloop
  obtain ⟨r, hr, hcase⟩ := hloop (not_le.1 hstop)
  clear hloop
  refine ⟨r, hr, .inr ?_⟩
  rcases hcase with ⟨j, hj, hjn, hbetween⟩ | ⟨hbehind, hnone, hreport⟩
  · exact .inl ⟨j, by omega, by omega, hbetween⟩
  · refine .inr ⟨hbehind, fun h => hnone (by omega), fun h => ?_⟩
    rw [← hp]
    exact hreport (by omega)

end Drawn

/-! ## When the bins are shown -/

section Shows

variable {L : Logs10} {gr : Graph} {udata : List ℚ} {npts : ℕ} {dt xmin xmax ymin ymax : ℚ}

theorem eq_of_segments_eq {p q : Point} {ps qs : List Point}
    (h : segments (p :: q :: ps) = segments qs) : qs = p :: q :: ps := by
  have htail : ∀ points : List Point, (segments points).map Prod.snd = points.tail := fun points =>
    List.map_snd_zip (by simp)
  have hsnd := congrArg (List.map Prod.snd) h
  rw [htail, htail] at hsnd
  obtain _ | ⟨a, _ | ⟨b, rest⟩⟩ := qs
  · cases hsnd
  · cases hsnd
  · rw [segments_cons, segments_cons, List.cons.injEq, Prod.mk.injEq] at h
    rw [h.1.1]
    exact congrArg (a :: ·) hsnd.symm

/-- The pixels of the drawn bins are in order. -/
theorem drawnPoint_pix_mono (hnpts : 1 ≤ npts) (hdt : 0 < dt) (hup : gr.Upright L xmin) {i j : ℕ}
    (hi : firstBin npts dt xmin ≤ i) (hij : i ≤ j) :
    (drawnPoint L gr udata npts dt xmin ymin ymax i).pix_x ≤
      (drawnPoint L gr udata npts dt xmin ymin ymax j).pix_x := by
  have hwidth := (binWidth_pos hnpts hdt).le
  have hle : ∀ a b : ℕ, a ≤ b → drawnFreq npts dt xmin a ≤ drawnFreq npts dt xmin b := by
    intro a b hab
    have hab' : (a : ℚ) ≤ b := by exact_mod_cast hab
    exact add_le_add_right (mul_le_mul_of_nonneg_right (sub_le_sub_right hab' _) hwidth) xmin
  exact hup.mono (drawnFreq_firstBin.symm.le.trans (hle _ _ hi)) (hle i j hij)

theorem mem_shownPoints {p : Point}
    (hp : p ∈ shownPoints L gr udata npts dt xmin xmax ymin ymax) :
    p.freq = xmin ∨ ∃ j ∈ laterBins npts dt xmin xmax, p.freq = binFreq npts dt j := by
  obtain ⟨b, hb, rfl⟩ := List.mem_map.1 hp
  unfold shownBins at hb
  split_ifs at hb with hfew
  · cases hb
  · rcases List.mem_cons.1 hb with rfl | hb
    · exact .inl rfl
    · obtain ⟨j, hj, rfl⟩ := List.mem_map.1 hb
      exact .inr ⟨j, hj, rfl⟩

/-- From a limit at a bin, and with all later bins below the other limit, the points are those that
are drawn. -/
theorem shownPoints_eq (hnpts : 1 ≤ npts) (hdt : 0 < dt)
    (hs : firstBin npts dt xmin + 2 ≤ npts) (hxmin : xmin = binFreq npts dt (firstBin npts dt xmin))
    (hxmax : binFreq npts dt (npts - 1) ≤ xmax) :
    shownPoints L gr udata npts dt xmin xmax ymin ymax =
      (List.range' (firstBin npts dt xmin) (npts - firstBin npts dt xmin)).map
        (drawnPoint L gr udata npts dt xmin ymin ymax) := by
  have hall : laterBins npts dt xmin xmax =
      List.range' (firstBin npts dt xmin + 1) (npts - (firstBin npts dt xmin + 1)) := by
    refine List.filter_eq_self.2 fun j hj => decide_eq_true ?_
    have hj' := List.mem_range'_1.1 hj
    exact ((binFreq_strictMono hnpts hdt).monotone (by omega)).trans hxmax
  have hcount : npts - firstBin npts dt xmin = npts - (firstBin npts dt xmin + 1) + 1 := by omega
  have hpoint : ∀ j, point L gr ymin ymax (binFreq npts dt j) (udata.getD (2 * j) 0) =
      drawnPoint L gr udata npts dt xmin ymin ymax j := fun j => by
    rw [← drawnFreq_eq_binFreq hxmin j]
    rfl
  rw [shownPoints, shownBins, if_neg (by omega), hall, hcount, List.range'_succ, List.map_cons,
    List.map_cons, List.map_map, ← hpoint, ← hxmin]
  exact congrArg _ (List.map_congr_left fun j _ => hpoint j)

/-- The points of the plot are reported as they should be. -/
theorem reportsNearest (hnpts : 1 ≤ npts) (hdt : 0 < dt) (hx₀ : 0 ≤ xmin)
    (hup : gr.Upright L xmin) (hedge : gr.pix2userx L gr.pix_xmin = xmin)
    (hfits : firstBin npts dt xmin < 2 ^ 31) (hs : firstBin npts dt xmin + 3 ≤ npts)
    (hlen : udata.length = 2 * npts + 2) (hxmin : xmin = binFreq npts dt (firstBin npts dt xmin))
    (hxmax : binFreq npts dt (npts - 1) ≤ xmax) (s_x : ℤ) :
    ∃ r, specPoint L gr udata (2 * npts : ℕ) dt s_x = some r ∧
      ReportsNearest (shownPoints L gr udata npts dt xmin xmax ymin ymax) s_x r := by
  obtain ⟨p, hp⟩ : ∃ p, drawnPoint L gr udata npts dt xmin (gr.pix2usery L gr.pix_ymax)
    (gr.pix2usery L gr.pix_ymin) = p := ⟨_, rfl⟩
  obtain ⟨r, hr, hcase⟩ := specPoint_spec hdt hx₀ hedge hfits (by omega) hlen s_x hp
  refine ⟨r, hr, ?_⟩
  set s := firstBin npts dt xmin with hsdef
  have hpoints := @shownPoints_eq L gr udata npts dt xmin xmax ymin ymax hnpts hdt (by omega) hxmin
    hxmax
  rw [hpoints]
  have hpix : ∀ k < npts - s, pixels ((List.range' s (npts - s)).map
      (drawnPoint L gr udata npts dt xmin ymin ymax)) k = (p (s + k)).pix_x := by
    intro k hk
    rw [pixels, List.getD_eq_getElem _ _ (by simpa using hk), List.getElem_map, List.getElem_map,
      List.getElem_range', one_mul, ← hp]
    rfl
  have hmono : ∀ j k, j ≤ k → k < npts - s → pixels ((List.range' s (npts - s)).map
      (drawnPoint L gr udata npts dt xmin ymin ymax)) j ≤ pixels ((List.range' s (npts - s)).map
      (drawnPoint L gr udata npts dt xmin ymin ymax)) k := by
    intro j k hjk hk
    rw [hpix j (by omega), hpix k hk, ← hp]
    exact drawnPoint_pix_mono hnpts hdt hup (by omega) (by omega)
  have hreports : ∀ i < npts - s, r.trans_mouse_freq = (p (s + i)).freq →
      r.trans_mouse_amp = (p (s + i)).amp →
      NearestAround (pixels ((List.range' s (npts - s)).map
        (drawnPoint L gr udata npts dt xmin ymin ymax))) (npts - s) s_x i →
      ReportsNearest ((List.range' s (npts - s)).map
        (drawnPoint L gr udata npts dt xmin ymin ymax)) s_x r := by
    intro i hi hfreq hamp hnear
    refine ⟨i, drawnPoint L gr udata npts dt xmin ymin ymax (s + i), ?_, ?_, ?_, ?_⟩
    · rw [List.getElem?_map, List.getElem?_range' hi, one_mul, Option.map_some]
    · rw [hfreq, ← hp]
      rfl
    · rw [hamp, ← hp]
      rfl
    · rwa [List.length_map, List.length_range']
  rcases hcase with ⟨hfront, rfl⟩ | ⟨j, hsj, hj, hlow, hhigh, rfl⟩ | ⟨hbehind, -, hlast⟩
  · refine hreports 0 (by omega) rfl rfl (nearestAround_first hmono (by omega) ?_)
    rwa [hpix 0 (by omega)]
  · obtain ⟨i, rfl⟩ := Nat.exists_eq_add_of_le hsj
    have hnear := nearestAround_closer hmono (i := i) (s := s_x) (by omega)
      (by rwa [hpix i (by omega)]) (by rwa [hpix (i + 1) (by omega)])
    rw [closer, hpix i (by omega), hpix (i + 1) (by omega)] at hnear
    have hij : s + (i + 1) = s + i + 1 := by omega
    rw [hij] at hnear
    by_cases hnearer : s_x - (p (s + i)).pix_x < (p (s + i + 1)).pix_x - s_x
    · rw [if_pos hnearer] at hnear
      rw [reportCloser, if_pos hnearer] at hreports ⊢
      exact hreports i (by omega) rfl rfl hnear
    · rw [if_neg hnearer] at hnear
      rw [reportCloser, if_neg hnearer] at hreports ⊢
      exact hreports (i + 1) (by omega) rfl rfl hnear
  · have hend : s + (npts - s - 1) = npts - 1 := by omega
    have hreport := hlast (by omega)
    rw [← hend] at hreport hbehind
    refine hreports (npts - s - 1) (by omega) hreport.1 hreport.2
      (nearestAround_last hmono (by omega) ?_)
    rwa [hpix _ (by omega)]

/-- From the fact that the lines of the plot are as they should be, its first two points. -/
theorem shownPoints_of_plot (hnpts : 1 ≤ npts) (hdt : 0 < dt) (hx₀ : 0 ≤ xmin)
    (hfits : firstBin npts dt xmin < 2 ^ 31) (hs : firstBin npts dt xmin + 2 ≤ npts)
    (hlen : udata.length = 2 * npts + 2)
    (hplot : spPlot L gr udata npts dt xmin xmax ymin ymax =
      some (segments (shownPoints L gr udata npts dt xmin xmax ymin ymax))) :
    shownPoints L gr udata npts dt xmin xmax ymin ymax =
        drawnPoint L gr udata npts dt xmin ymin ymax (firstBin npts dt xmin) ::
        drawnPoint L gr udata npts dt xmin ymin ymax (firstBin npts dt xmin + 1) ::
        ((List.range' (firstBin npts dt xmin + 2) (npts - (firstBin npts dt xmin + 2))).filter
          fun j => drawnFreq npts dt xmin j ≤ xmax).map
          (drawnPoint L gr udata npts dt xmin ymin ymax) ∧
      xmin = binFreq npts dt (firstBin npts dt xmin) := by
  rw [spPlot_eq hnpts hdt hx₀ hfits hs hlen, Option.some.injEq] at hplot
  have hpoints := eq_of_segments_eq hplot
  refine ⟨hpoints, ?_⟩
  have hmem : drawnPoint L gr udata npts dt xmin ymin ymax (firstBin npts dt xmin + 1) ∈
      shownPoints L gr udata npts dt xmin xmax ymin ymax := by
    rw [hpoints]
    exact List.mem_cons_of_mem _ List.mem_cons_self
  have hsecond : (drawnPoint L gr udata npts dt xmin ymin ymax (firstBin npts dt xmin + 1)).freq =
      xmin + binWidth npts dt := by
    change drawnFreq npts dt xmin (firstBin npts dt xmin + 1) = _
    rw [drawnFreq_succ, drawnFreq_firstBin]
  rcases mem_shownPoints hmem with hfirst | ⟨j, hj, hfreq⟩
  · linarith [binWidth_pos hnpts hdt]
  · have hpos : 1 ≤ j := by
      have := (List.mem_range'_1.1 (List.mem_filter.1 hj).1).1
      omega
    obtain ⟨i, rfl⟩ := Nat.exists_eq_add_of_le' hpos
    rw [hsecond, binFreq_eq] at hfreq
    push_cast at hfreq
    have hxmin : xmin = binFreq npts dt i := by
      rw [binFreq_eq]
      linarith
    rw [← eq_firstBin_of_eq_binFreq hnpts hdt hxmin]
    exact hxmin

/-- Behind the second of two points, that one is reported. -/
theorem freq_of_reportsNearest_pair {p q : Point} {s_x : ℤ} {r : SpecPt} (hpq : p.pix_x ≤ q.pix_x)
    (hs : q.pix_x < s_x) (h : ReportsNearest [p, q] s_x r) : r.trans_mouse_freq = q.freq := by
  have hmono : ∀ j k, j ≤ k → k < 2 → pixels [p, q] j ≤ pixels [p, q] k := by
    intro j k hjk hk
    obtain rfl | rfl : k = 0 ∨ k = 1 := by omega
    · obtain rfl : j = 0 := by omega
      exact le_rfl
    · obtain rfl | rfl : j = 0 ∨ j = 1 := by omega
      · exact hpq
      · exact le_rfl
  obtain ⟨i, p', hp', hfreq, -, hnear⟩ := h
  obtain rfl := (around_last_iff hmono two_pos hs).1 hnear.1
  rw [hfreq, ← Option.some.inj hp']

/-- From a limit at a bin, and with all later bins below the other limit, the plot is as it should
be. -/
theorem spPlot_shown (hnpts : 1 ≤ npts) (hdt : 0 < dt) (hx₀ : 0 ≤ xmin)
    (hfits : firstBin npts dt xmin < 2 ^ 31) (hs : firstBin npts dt xmin + 3 ≤ npts)
    (hlen : udata.length = 2 * npts + 2) (hxmin : xmin = binFreq npts dt (firstBin npts dt xmin))
    (hxmax : binFreq npts dt (npts - 1) ≤ xmax) :
    spPlot L gr udata npts dt xmin xmax ymin ymax =
      some (segments (shownPoints L gr udata npts dt xmin xmax ymin ymax)) := by
  have hall : (List.range' (firstBin npts dt xmin + 2)
      (npts - (firstBin npts dt xmin + 2))).filter (fun j => drawnFreq npts dt xmin j ≤ xmax) =
      List.range' (firstBin npts dt xmin + 2) (npts - (firstBin npts dt xmin + 2)) := by
    refine List.filter_eq_self.2 fun j hj => decide_eq_true ?_
    have hj' := List.mem_range'_1.1 hj
    rw [drawnFreq_eq_binFreq hxmin]
    exact ((binFreq_strictMono hnpts hdt).monotone (by omega)).trans hxmax
  have hcount : npts - firstBin npts dt xmin = npts - (firstBin npts dt xmin + 2) + 1 + 1 := by
    omega
  rw [spPlot_eq hnpts hdt hx₀ hfits (by omega) hlen, hall,
    shownPoints_eq hnpts hdt (by omega) hxmin hxmax, hcount, List.range'_succ, List.range'_succ]
  rfl

/-- Behind the last bin, `spec_point` reports that one if there are three of them. -/
theorem specPoint_behind (hnpts : 1 ≤ npts) (hdt : 0 < dt) (hx₀ : 0 ≤ xmin)
    (hup : gr.Upright L xmin) (hedge : gr.pix2userx L gr.pix_xmin = xmin)
    (hfits : firstBin npts dt xmin < 2 ^ 31) (hs : firstBin npts dt xmin + 2 ≤ npts)
    (hlen : udata.length = 2 * npts + 2) {s_x : ℤ}
    (hs_x : (drawnPoint L gr udata npts dt xmin ymin ymax (npts - 1)).pix_x < s_x) {r : SpecPt}
    (hr : specPoint L gr udata (2 * npts : ℕ) dt s_x = some r) :
    (firstBin npts dt xmin + 2 = npts → r.trans_mouse_freq = 0) ∧
      (firstBin npts dt xmin + 3 ≤ npts →
        r.trans_mouse_freq = drawnFreq npts dt xmin (npts - 1)) := by
  obtain ⟨r', hr', hcase⟩ := specPoint_spec hdt hx₀ hedge hfits hs hlen s_x rfl
  rw [hr, Option.some.injEq] at hr'
  subst hr'
  have hbehind : ∀ j, firstBin npts dt xmin ≤ j → j ≤ npts - 1 →
      (drawnPoint L gr udata npts dt xmin (gr.pix2usery L gr.pix_ymax)
        (gr.pix2usery L gr.pix_ymin) j).pix_x < s_x := fun j hj hjn =>
    (drawnPoint_pix_mono hnpts hdt hup hj hjn).trans_lt hs_x
  rcases hcase with ⟨hfront, -⟩ | ⟨j, hj, hjn, -, hhigh, -⟩ | ⟨-, htwo, hthree⟩
  · exact absurd hfront (hbehind _ le_rfl (by omega)).not_ge
  · exact absurd hhigh (hbehind (j + 1) (by omega) (by omega)).not_ge
  · exact ⟨fun h => by rw [htwo h], fun h => (hthree h).1⟩

/-- If the spectrum is shown as it should be, its limit is a bin, and the last bin is shown. -/
theorem Shows.fits {sqrt : ℚ → ℚ} {raw : List ℚ} {minFreq xMax ampMax : ℚ} (hdt : 0 < dt)
    (hnpts : 1 ≤ npts) (hraw : raw.length = 2 * npts + 2) (hx₀ : 0 ≤ xmin)
    (hup : gr.Upright L xmin) (hedge : gr.pix2userx L gr.pix_xmin = xmin)
    (h : Shows L gr sqrt raw npts dt minFreq xMax xmin xmax ymin ymax udata ampMax) :
    firstBin npts dt xmin < 2 ^ 31 ∧
      (npts < firstBin npts dt xmin + 2 ∨
        firstBin npts dt xmin + 3 ≤ npts ∧ xmin = binFreq npts dt (firstBin npts dt xmin) ∧
          binFreq npts dt (npts - 1) ≤ xmax) := by
  have htransform := @transformData_eq sqrt npts dt minFreq raw hraw xMax
  have hlen : (ampBuffer sqrt dt raw (npts + 1)).length = 2 * npts + 2 := by
    rw [ampBuffer, length_tabulate, hraw]
  obtain ⟨rfl, -⟩ := Prod.mk.inj (Option.some.inj (htransform.symm.trans h.transform))
  have hfits : firstBin npts dt xmin < 2 ^ 31 := by
    by_contra hlarge
    have hplot := h.plot
    rw [spPlot, skipBins_eq hdt hx₀, if_neg hlarge] at hplot
    cases hplot
  refine ⟨hfits, or_iff_not_imp_left.2 fun hfew => ?_⟩
  have hs : firstBin npts dt xmin + 2 ≤ npts := not_lt.1 hfew
  obtain ⟨hpoints, hxmin⟩ := shownPoints_of_plot hnpts hdt hx₀ hfits hs hlen h.plot
  have hne : shownPoints L gr (ampBuffer sqrt dt raw (npts + 1)) npts dt xmin xmax ymin ymax ≠
      [] := by
    rw [hpoints]
    exact List.cons_ne_nil _ _
  -- a pixel behind all bins
  obtain ⟨r, hr, hreport⟩ := h.readOut ((drawnPoint L gr
    (ampBuffer sqrt dt raw (npts + 1)) npts dt xmin ymin ymax (npts - 1)).pix_x + 1) hne
  obtain ⟨htwo, hthree⟩ := specPoint_behind hnpts hdt hx₀ hup hedge hfits hs hlen
    (lt_add_one _) hr
  have hsecond : ¬firstBin npts dt xmin + 2 = npts := by
    intro hend
    have hlast : npts - 1 = firstBin npts dt xmin + 1 := by omega
    rw [hend, Nat.sub_self, List.range'_zero, List.filter_nil, List.map_nil] at hpoints
    rw [hlast] at hreport
    rw [hpoints] at hreport
    have hzero := freq_of_reportsNearest_pair
      (drawnPoint_pix_mono hnpts hdt hup le_rfl (Nat.le_succ _)) (lt_add_one _) hreport
    have hwidth : r.trans_mouse_freq = xmin + binWidth npts dt := by
      rw [hzero, ← @drawnFreq_firstBin npts dt xmin, ← drawnFreq_succ,
        drawnFreq_firstBin]
      rfl
    linarith [htwo hend, binWidth_pos hnpts hdt]
  obtain ⟨i, p, hp, hfreq, -, -⟩ := hreport
  refine ⟨by omega, hxmin, ?_⟩
  have hp' : p.freq = binFreq npts dt (npts - 1) := by
    rw [← hfreq, hthree (by omega), drawnFreq_eq_binFreq hxmin]
  rcases mem_shownPoints (List.mem_of_getElem? hp) with hfirst | ⟨j, hj, hlater⟩
  · have heq := (binFreq_strictMono hnpts hdt).injective ((hp'.symm.trans hfirst).trans hxmin)
    omega
  · rw [← hp', hlater]
    exact of_decide_eq_true (List.mem_filter.1 hj).2

end Shows

/-- A linear plot of the frequencies from `xmin` to 3. -/
def linearGraph (xmin : ℚ) : Graph where
  logx := false
  logy := false
  user_xmin := xmin
  user_ymin := 0
  user_xdif := 3 - xmin
  user_ydif := 1
  pix_xmin := 0
  pix_ymin := 0
  pix_ymax := 100
  pix_xdif := 200
  pix_ydif := 100

end Spectrum

end PQL
