import PQL.Lib.Arrays
import PQL.Lib.Extremes
import PQL.Lib.Nearest
import PQL.Lib.While
import PQL.Plot.ReadOut

/-!
# The read-out of a magnified trace

`mag_point` scans the plotted points for the two around the cursor and reports the nearer one.  In a
decimated plot it reports the first of the two with the range of the block behind it, and no range
at all for the first two points; so its report is right if every sample is plotted
(`reads_pick_iff`).  A point right of the margin is never reported.  Times and samples are exact.
-/

namespace PQL

/-! ## The scan -/

/-- A magnified trace and its window. -/
structure PickWindow where
  numSamples : ℕ
  /-- The sample at `data_start`. -/
  first : ℤ
  /-- The samples in the length of the window, rounded to zero. -/
  points : ℤ
  /-- The window ends in the second that the trace ends in. -/
  atEnd : Bool
  inc : ℤ
  sampInt : ℚ
  /-- The time of the first point on the axis of the window. -/
  tm : ℚ
  /-- `states.magnify.limits.margin.right`. -/
  marginRight : ℤ
  /-- The time at which the axis begins. -/
  axisStart : ℚ
  /-- The factor from counts to volts if volts are reported. -/
  scale : Option ℚ

/-- What `mag_point` leaves in its global variables. -/
structure MagReport where
  mag_x : ℤ
  mag_y : ℤ
  mag_mouse_time : ℚ
  mag_mouse_amp : ℚ
  max_jump : ℤ
  min_jump : ℤ
deriving DecidableEq

/-- The variables of the loop of `mag_point`. -/
structure MagScan where
  ndata : ℤ
  dataLoc : ℤ
  tm : ℚ
  old_amp : ℚ
  pix_x0 : ℤ
  pix_y0 : ℤ
  report : MagReport

namespace PickWindow

variable (w : PickWindow) (L : Logs10) (gr : Graph)

def tm_inc : ℚ := w.sampInt / 1000000 * w.inc

def ndata : ℤ := if w.atEnd then w.points - w.inc else w.points

section Scan

variable (data : List ℚ) (m_x : ℤ)

/-- The range of the block at `dataLoc`, whose first sample is `val`. -/
def blockRange (ndata dataLoc : ℤ) (val : ℚ) : Option (Extremes ℚ) :=
  forLoop 1 (if dataLoc < ndata then w.inc else 1)
    (fun range i => (load data (w.first + (dataLoc + i))).map range.extend) ⟨val, val⟩

/-- A pass of the loop, and whether the cursor has been found; `old_time` is the time of the last
point. -/
def magStep (s : MagScan) : Option (MagScan × Bool) :=
  let dataLoc := s.dataLoc + w.inc
  (load data (w.first + dataLoc)).bind fun val =>
    let tm := s.tm + w.tm_inc
    let pix_x1 := gr.user2pixx L tm
    let pix_y1 := gr.user2pixy L val
    (if 1 < w.inc then (w.blockRange data s.ndata dataLoc val).map some else some none).map
      fun range =>
        if m_x > s.pix_x0 ∧ m_x ≤ pix_x1 then
          let report : MagReport := if m_x - s.pix_x0 < pix_x1 - m_x then
              ⟨s.pix_x0, s.pix_y0, s.tm, s.old_amp, s.report.max_jump, s.report.min_jump⟩
            else ⟨pix_x1, pix_y1, tm, val, s.report.max_jump, s.report.min_jump⟩
          let report := range.elim report fun range =>
            let y1 := gr.user2pixy L range.min
            let y2 := gr.user2pixy L range.max
            ⟨report.mag_x, (y1 + y2).tdiv 2, s.tm, s.old_amp, y2, y1⟩
          let report := if pix_x1 > w.marginRight then
              ⟨s.pix_x0, s.pix_y0, s.tm, s.old_amp, report.max_jump, report.min_jump⟩
            else report
          ({ s with report }, true)
        else
          (⟨s.ndata - w.inc, dataLoc, tm, val, pix_x1, pix_y1,
            { s.report with mag_mouse_time := tm, mag_mouse_amp := val }⟩, false)

/-- The loop of `mag_point`; behind it the last point is reported. -/
def magLoop (fuel : ℕ) (s : MagScan) : Option MagReport :=
  (whileLoop (fun s => !s.2 && decide (s.1.ndata ≥ w.inc)) (fun s => w.magStep L gr data m_x s.1)
    fuel (s, false)).map fun s =>
      if s.2 then s.1.report
      else { s.1.report with mag_x := s.1.pix_x0, mag_y := s.1.pix_y0 }

/-- `mag_point`; there is no result when a sample is out of bounds. -/
def mag_point (fuel : ℕ) : Option MagReport :=
  let pix_x0 := gr.user2pixx L w.tm
  let tm := w.tm + w.tm_inc
  let pix_x1 := gr.user2pixx L tm
  (load data w.first).bind fun old_amp => (load data (w.first + w.inc)).bind fun val =>
    let pix_y0 := gr.user2pixy L old_amp
    let pix_y1 := gr.user2pixy L val
    if m_x ≤ pix_x0 then some ⟨pix_x0, pix_y0, w.tm, old_amp, 0, 0⟩
    else if m_x ≤ pix_x1 then
      some (if m_x - pix_x0 < pix_x1 - m_x ∨ pix_x1 > w.marginRight then
          ⟨pix_x0, pix_y0, w.tm, old_amp, 0, 0⟩
        else ⟨pix_x1, pix_y1, tm, val, 0, 0⟩)
    else
      let ndata := w.ndata - w.inc
      w.magLoop L gr data m_x fuel ⟨ndata, w.inc, tm, val, pix_x1, pix_y1,
        if ndata < w.inc then ⟨0, 0, tm, val, 0, 0⟩ else ⟨0, 0, 0, 0, 0, 0⟩⟩

/-- The amplitudes of a report: a range, or one amplitude. -/
def amps (r : MagReport) : Extremes ℚ :=
  if r.min_jump ≠ 0 ∧ r.max_jump ≠ 0 then
    ⟨gr.pix2usery L r.min_jump, gr.pix2usery L r.max_jump⟩
  else ⟨r.mag_mouse_amp, r.mag_mouse_amp⟩

/-- `magPoint`. -/
def magPoint (fuel : ℕ) : Option PointID :=
  (w.mag_point L gr data m_x fuel).map fun r =>
    { epoch := w.axisStart + r.mag_mouse_time
      minAmp := w.scale.elim (amps L gr r).min ((amps L gr r).min * ·)
      maxAmp := w.scale.elim (amps L gr r).max ((amps L gr r).max * ·)
      xVal := r.mag_x
      yVal := r.mag_y }

end Scan

/-! ## What should be reported -/

/-- The number of plotted points. -/
def count : ℕ := (w.ndata / w.inc + 1).toNat

def time (i : ℕ) : ℚ := w.tm + i * w.tm_inc

def pixel (i : ℕ) : ℤ := gr.user2pixx L (w.time i)

/-- The samples of the block of a plotted point. -/
def block (i : ℕ) : Set ℤ := {k | i * w.inc ≤ k ∧ k < (i + 1) * w.inc ∧ k ≤ w.ndata}

/-- The range of the samples, which are all in the trace. -/
def IsRangeOf (data : List ℚ) (ks : Set ℤ) (a : Extremes ℚ) : Prop :=
  (∀ k ∈ ks, ∃ v, load data (w.first + k) = some v) ∧
    IsLeast {v | ∃ k ∈ ks, load data (w.first + k) = some v} a.min ∧
    IsGreatest {v | ∃ k ∈ ks, load data (w.first + k) = some v} a.max

/-- The report is of the `i`-th plotted point, which is nearest to the cursor. -/
structure ReportsPoint (data : List ℚ) (m_x : ℤ) (i : ℕ) (a : Extremes ℚ) (p : PointID) :
    Prop where
  plotted : i < w.count
  nearest : ∀ j < w.count, |m_x - w.pixel L gr i| ≤ |m_x - w.pixel L gr j|
  epoch : p.epoch = w.axisStart + w.time i
  single : w.inc = 1 → load data (w.first + i * w.inc) = some a.min ∧ a.max = a.min
  range : 1 < w.inc → w.IsRangeOf data (w.block i) a
  minAmp : p.minAmp = w.scale.elim a.min (a.min * ·)
  maxAmp : p.maxAmp = w.scale.elim a.max (a.max * ·)

/-- For all samples, `magPoint` reads inside of the trace and reports the nearest point. -/
def ReadsPick (m_x : ℤ) : Prop :=
  ∀ data : List ℚ, data.length = w.numSamples →
    ∃ fuel r p i, w.mag_point L gr data m_x fuel = some r ∧
      w.magPoint L gr data m_x fuel = some p ∧
      w.ReportsPoint L gr data m_x i (amps L gr r) p

/-- The cursor is at the `j`-th plotted point, or between it and the point before. -/
structure StopsAt (m_x : ℤ) (j : ℕ) : Prop where
  plotted : j < w.count
  le : m_x ≤ w.pixel L gr j
  before : ∀ i < j, w.pixel L gr i < m_x

/-- When the report is right: the samples up to the one behind the cursor are there, the nearer
point is not right of the margin, and every sample is plotted or the block has one sample. -/
structure PickFits (m_x : ℤ) (j : ℕ) : Prop where
  stops : w.StopsAt L gr m_x j
  inside : 0 ≤ w.first ∧ w.first + (max j 1 : ℕ) * w.inc < w.numSamples
  margin : j ≠ 0 → m_x - w.pixel L gr (j - 1) ≤ w.pixel L gr j - m_x ∨
    w.pixel L gr j ≤ w.marginRight
  single : w.inc = 1 ∨ w.ndata = j * w.inc ∧ (j = 0 ∨ j = 1 ∧
    w.pixel L gr 1 - m_x ≤ m_x - w.pixel L gr 0 ∧ w.pixel L gr 1 ≤ w.marginRight)

/-! ## The loop -/

section Loop

variable {w L gr} {data : List ℚ} {m_x : ℤ} {q : ℕ} {s : MagScan} {r : MagReport}

/-- The loop has passed the `q`-th plotted point. -/
structure Scanned (w : PickWindow) (L : Logs10) (gr : Graph) (data : List ℚ) (m_x : ℤ) (q : ℕ)
    (s : MagScan) : Prop where
  later : 1 ≤ q
  inside : q * w.inc ≤ w.ndata
  passed : w.pixel L gr q < m_x
  ndata : s.ndata = w.ndata - q * w.inc
  dataLoc : s.dataLoc = q * w.inc
  tm : s.tm = w.time q
  amp : load data (w.first + q * w.inc) = some s.old_amp
  pix : s.pix_x0 = w.pixel L gr q
  jumps : s.report.max_jump = 0 ∧ s.report.min_jump = 0

/-- The cursor is found behind the `q`-th plotted point. -/
structure Found (w : PickWindow) (L : Logs10) (gr : Graph) (data : List ℚ) (m_x : ℤ) (q : ℕ)
    (r : MagReport) : Prop where
  later : 1 ≤ q
  inside : (q + 1 : ℕ) * w.inc ≤ w.ndata
  passed : w.pixel L gr q < m_x
  le : m_x ≤ w.pixel L gr (q + 1)
  loaded : ∃ v, load data (w.first + (q + 1 : ℕ) * w.inc) = some v
  jumps : w.inc = 1 → r.max_jump = 0 ∧ r.min_jump = 0
  front : w.inc = 1 → m_x - w.pixel L gr q < w.pixel L gr (q + 1) - m_x ∨
      w.pixel L gr (q + 1) > w.marginRight →
    r.mag_mouse_time = w.time q ∧ load data (w.first + q * w.inc) = some r.mag_mouse_amp
  behind : w.inc = 1 → ¬(m_x - w.pixel L gr q < w.pixel L gr (q + 1) - m_x ∨
      w.pixel L gr (q + 1) > w.marginRight) →
    r.mag_mouse_time = w.time (q + 1) ∧
      load data (w.first + (q + 1 : ℕ) * w.inc) = some r.mag_mouse_amp
  several : 1 < w.inc → r.mag_mouse_time = w.time q

theorem time_succ (i : ℕ) : w.time (i + 1) = w.time i + w.tm_inc := by
  rw [time, time]
  push_cast
  ring

theorem Scanned.magStep (h : Scanned w L gr data m_x q s)
    (hon : s.ndata ≥ w.inc) {next : MagScan × Bool}
    (hstep : w.magStep L gr data m_x s = some next) :
    (next.2 = false ∧ Scanned w L gr data m_x (q + 1) next.1) ∨
      (next.2 = true ∧ Found w L gr data m_x q next.1.report) := by
  have hpoint : ((q + 1 : ℕ) : ℤ) * w.inc = q * w.inc + w.inc := by
    push_cast
    ring
  have hndata := h.ndata
  obtain ⟨val, hval, hrest⟩ := Option.bind_eq_some_iff.1 hstep
  obtain ⟨range, hrange, hnext⟩ := Option.map_eq_some_iff.1 hrest
  rw [h.dataLoc, ← hpoint] at hval
  have hpixel : gr.user2pixx L (s.tm + w.tm_inc) = w.pixel L gr (q + 1) := by
    rw [h.tm, ← time_succ]
    rfl
  rw [hpixel, h.pix] at hnext
  by_cases hhit : m_x > w.pixel L gr q ∧ m_x ≤ w.pixel L gr (q + 1)
  · right
    rw [if_pos hhit] at hnext
    subst hnext
    refine ⟨rfl, ⟨h.later, by omega, hhit.1, hhit.2, ⟨val, hval⟩, fun hone => ?_,
      fun hone hfront => ?_, fun hone hbehind => ?_, fun hmany => ?_⟩⟩
    · rw [if_neg (by omega)] at hrange
      obtain rfl := Option.some.inj hrange
      dsimp only [Option.elim_none]
      split_ifs <;> exact h.jumps
    · rw [if_neg (by omega)] at hrange
      obtain rfl := Option.some.inj hrange
      dsimp only [Option.elim_none]
      rcases hfront with hnear | hmargin
      · rw [if_pos hnear]
        split_ifs <;> exact ⟨h.tm, h.amp⟩
      · rw [if_pos hmargin]
        exact ⟨h.tm, h.amp⟩
    · rw [if_neg (by omega)] at hrange
      obtain rfl := Option.some.inj hrange
      obtain ⟨hnear, hmargin⟩ := not_or.1 hbehind
      dsimp only [Option.elim_none]
      rw [if_neg hnear, if_neg hmargin]
      exact ⟨by rw [h.tm, ← time_succ], hval⟩
    · rw [if_pos hmany] at hrange
      obtain ⟨e, -, rfl⟩ := Option.map_eq_some_iff.1 hrange
      dsimp only [Option.elim_some]
      split_ifs <;> exact h.tm
  · left
    rw [if_neg hhit] at hnext
    subst hnext
    have hpassed := h.passed
    refine ⟨rfl, ⟨by omega, by omega, by omega, ?_, ?_, ?_, hval, rfl, h.jumps⟩⟩
    · change s.ndata - w.inc = _
      omega
    · change s.dataLoc + w.inc = _
      rw [h.dataLoc, hpoint]
    · change s.tm + w.tm_inc = _
      rw [h.tm, ← time_succ]

/-- If every sample is plotted, a pass succeeds where the next sample is in the trace. -/
theorem exists_magStep (hone : w.inc = 1) {v : ℚ}
    (hv : load data (w.first + (s.dataLoc + w.inc)) = some v) :
    ∃ next, w.magStep L gr data m_x s = some next := by
  have hsingle : ¬1 < w.inc := by omega
  unfold PickWindow.magStep
  simp only []
  rw [hv, Option.bind_some, if_neg hsingle]
  exact ⟨_, rfl⟩

theorem lt_count (hnonneg : 0 ≤ w.ndata) (hinc : 1 ≤ w.inc) (i : ℕ) :
    i < w.count ↔ i * w.inc ≤ w.ndata := by
  have hquot : 0 ≤ w.ndata / w.inc := Int.ediv_nonneg hnonneg (by omega)
  rw [← Int.le_ediv_iff_mul_le (by omega), count]
  omega

/-- The loop finds the cursor in front of the `j`-th plotted point. -/
theorem found_of_magLoop (hinc : 1 ≤ w.inc) (hnonneg : 0 ≤ w.ndata) {j fuel : ℕ}
    (hj : w.StopsAt L gr m_x j) (hs : Scanned w L gr data m_x q s) (hq : q < j)
    (h : w.magLoop L gr data m_x fuel s = some r) : Found w L gr data m_x (j - 1) r := by
  obtain ⟨last, hrun, hlast⟩ := Option.map_eq_some_iff.1 h
  have hbetween : ∀ q, w.pixel L gr q < m_x → m_x ≤ w.pixel L gr (q + 1) → q < j → q = j - 1 := by
    intro q _ hle hqj
    by_contra hne
    exact absurd (hj.before (q + 1) (by omega)) hle.not_gt
  obtain ⟨hinv, hend⟩ := whileLoop_sound
    (P := fun s : MagScan × Bool => ∃ q < j, (s.2 = false ∧ Scanned w L gr data m_x q s.1) ∨
      (s.2 = true ∧ Found w L gr data m_x q s.1.report))
    (fun s s' ⟨q, hqj, hs⟩ hon hbody => by
      rw [Bool.and_eq_true, Bool.not_eq_true', decide_eq_true_eq] at hon
      rcases hs with ⟨-, hscan⟩ | ⟨hdone, -⟩
      · rcases hscan.magStep hon.2 hbody with ⟨hgo, hnext⟩ | hfound
        · have hlt : q + 1 < j := by
            by_contra hge
            have heq : q + 1 = j := by omega
            exact absurd (heq ▸ hnext.passed) hj.le.not_gt
          exact ⟨q + 1, hlt, .inl ⟨hgo, hnext⟩⟩
        · exact ⟨q, hqj, .inr hfound⟩
      · rw [hdone] at hon
        cases hon.1) ⟨q, hq, .inl ⟨rfl, hs⟩⟩ hrun
  obtain ⟨q', hqj, ⟨hgo, hscan⟩ | ⟨hdone, hfound⟩⟩ := hinv
  · -- the loop cannot end in front of the cursor
    rw [hgo, Bool.not_false, Bool.true_and, decide_eq_false_iff_not] at hend
    have hplotted := (lt_count hnonneg hinc j).1 hj.plotted
    have hmul : ((q' + 1 : ℕ) : ℤ) * w.inc ≤ j * w.inc :=
      mul_le_mul_of_nonneg_right (by exact_mod_cast hqj) (by omega)
    have hnext : ((q' + 1 : ℕ) : ℤ) * w.inc = q' * w.inc + w.inc := by
      push_cast
      ring
    have hndata := hscan.ndata
    omega
  · rw [if_pos hdone] at hlast
    subst hlast
    rwa [← hbetween q' hfound.passed hfound.le hqj]

/-- If every sample is plotted, the loop ends where the samples up to the cursor are in the
trace. -/
theorem exists_magLoop (hone : w.inc = 1) {j : ℕ} (hj : w.StopsAt L gr m_x j)
    (hs : Scanned w L gr data m_x q s) (hq : q < j)
    (hloads : ∀ k ≤ j, ∃ v, load data (w.first + k * w.inc) = some v) :
    ∃ fuel r, w.magLoop L gr data m_x fuel s = some r := by
  obtain ⟨last, hrun, -⟩ := @whileLoop_spec (MagScan × Bool)
    (fun s => !s.2 && decide (s.1.ndata ≥ w.inc)) (fun s => w.magStep L gr data m_x s.1)
    (fun s => s.2 = true ∨ ∃ q < j, Scanned w L gr data m_x q s.1)
    (fun s => if s.2 then 0 else s.1.ndata.toNat + 1)
    (fun s hs hon => by
      rw [Bool.and_eq_true, Bool.not_eq_true', decide_eq_true_eq] at hon
      obtain ⟨hgo, hmore⟩ := hon
      rcases hs with hdone | ⟨q, hqj, hscan⟩
      · rw [hgo] at hdone
        cases hdone
      · have hnext : s.1.dataLoc + w.inc = (q + 1 : ℕ) * w.inc := by
          rw [hscan.dataLoc]
          push_cast
          ring
        obtain ⟨v, hv⟩ := hloads (q + 1) hqj
        rw [← hnext] at hv
        obtain ⟨next, hbody⟩ := @exists_magStep w L gr data m_x _ hone v hv
        rcases hscan.magStep hmore hbody with ⟨hgo', hscan'⟩ | ⟨hdone', -⟩
        · have hlt : q + 1 < j := by
            by_contra hge
            have heq : q + 1 = j := by omega
            exact absurd (heq ▸ hscan'.passed) hj.le.not_gt
          refine ⟨next, hbody, .inr ⟨q + 1, hlt, hscan'⟩, ?_⟩
          have hndata := hscan.ndata
          have hndata' := hscan'.ndata
          have hstep : ((q + 1 : ℕ) : ℤ) * w.inc = q * w.inc + w.inc := by
            push_cast
            ring
          rw [hgo, hgo']
          simp only [Bool.false_eq_true, if_false]
          omega
        · refine ⟨next, hbody, .inl hdone', ?_⟩
          rw [hgo, hdone']
          simp) _ (s, false) (.inr ⟨q, hq, hs⟩) (Nat.lt_succ_self _)
  exact ⟨_, _, by rw [magLoop, hrun, Option.map_some]⟩

end Loop

/-! ## The first two points -/

section Pick

variable {w L gr} {data : List ℚ} {m_x : ℤ} {j fuel : ℕ} {r : MagReport}

/-- What `mag_point` does when the cursor is in front of the `j`-th plotted point. -/
theorem mag_point_cases (hinc : 1 ≤ w.inc) (hnonneg : 0 ≤ w.ndata) (hj : w.StopsAt L gr m_x j)
    (h : w.mag_point L gr data m_x fuel = some r) :
    (∃ v v', load data w.first = some v ∧ load data (w.first + w.inc) = some v' ∧
      (j = 0 → r.mag_mouse_time = w.time 0 ∧ amps L gr r = ⟨v, v⟩) ∧
      (j = 1 → (m_x - w.pixel L gr 0 < w.pixel L gr 1 - m_x ∨ w.pixel L gr 1 > w.marginRight →
          r.mag_mouse_time = w.time 0 ∧ amps L gr r = ⟨v, v⟩) ∧
        (¬(m_x - w.pixel L gr 0 < w.pixel L gr 1 - m_x ∨ w.pixel L gr 1 > w.marginRight) →
          r.mag_mouse_time = w.time 1 ∧ amps L gr r = ⟨v', v'⟩))) ∧
      (2 ≤ j → Found w L gr data m_x (j - 1) r) := by
  have hfirst : w.time 0 = w.tm := by simp [time]
  have hsecond : w.time 1 = w.tm + w.tm_inc := by simp [time]
  have hpixel₀ : gr.user2pixx L w.tm = w.pixel L gr 0 := by rw [pixel, hfirst]
  have hpixel₁ : gr.user2pixx L (w.tm + w.tm_inc) = w.pixel L gr 1 := by rw [pixel, hsecond]
  have hamps : ∀ (x y : ℤ) (t v : ℚ), amps L gr ⟨x, y, t, v, 0, 0⟩ = ⟨v, v⟩ := fun x y t v =>
    if_neg fun hne => hne.1 rfl
  unfold mag_point at h
  simp only [hpixel₀, hpixel₁] at h
  obtain ⟨v, hv, hrest⟩ := Option.bind_eq_some_iff.1 h
  obtain ⟨v', hv', hrun⟩ := Option.bind_eq_some_iff.1 hrest
  by_cases hfront : m_x ≤ w.pixel L gr 0
  · have hzero : j = 0 := by
      by_contra hne
      exact absurd hfront (hj.before 0 (by omega)).not_ge
    rw [if_pos hfront, Option.some.injEq] at hrun
    subst hrun
    exact ⟨⟨v, v', hv, hv', fun _ => ⟨hfirst.symm, hamps _ _ _ _⟩, fun h => by omega⟩,
      fun h => by omega⟩
  rw [if_neg hfront] at hrun
  have hj₀ : j ≠ 0 := by
    rintro rfl
    exact hfront hj.le
  by_cases hnext : m_x ≤ w.pixel L gr 1
  · have hone : j = 1 := by
      by_contra hne
      exact absurd hnext (hj.before 1 (by omega)).not_ge
    rw [if_pos hnext, Option.some.injEq] at hrun
    subst hrun
    refine ⟨⟨v, v', hv, hv', fun h => absurd h hj₀, fun _ => ⟨fun hnear => ?_, fun hnear => ?_⟩⟩,
      fun h => by omega⟩
    · rw [if_pos hnear]
      exact ⟨hfirst.symm, hamps _ _ _ _⟩
    · rw [if_neg hnear]
      exact ⟨hsecond.symm, hamps _ _ _ _⟩
  · rw [if_neg hnext] at hrun
    have hj₁ : 2 ≤ j := by
      by_contra hlt
      obtain rfl : j = 1 := by omega
      exact hnext hj.le
    have hplotted := (lt_count hnonneg hinc j).1 hj.plotted
    have hmul : (2 : ℤ) * w.inc ≤ j * w.inc :=
      mul_le_mul_of_nonneg_right (by exact_mod_cast hj₁) (by omega)
    have hscan : Scanned w L gr data m_x 1 ⟨w.ndata - w.inc, w.inc, w.tm + w.tm_inc, v',
        w.pixel L gr 1, gr.user2pixy L v', if w.ndata - w.inc < w.inc then
          ⟨0, 0, w.tm + w.tm_inc, v', 0, 0⟩ else ⟨0, 0, 0, 0, 0, 0⟩⟩ := by
      refine ⟨le_rfl, by push_cast; omega, not_le.1 hnext, by push_cast; ring, by push_cast; ring,
        hsecond.symm, by simpa using hv', rfl, ?_⟩
      split_ifs <;> exact ⟨rfl, rfl⟩
    exact ⟨⟨v, v', hv, hv', fun h => absurd h hj₀, fun h => by omega⟩,
      fun _ => found_of_magLoop hinc hnonneg hj hscan (by omega) hrun⟩

/-- If the samples up to the cursor are in the trace, and every sample is plotted or the loop is not
reached, there is a report. -/
theorem exists_mag_point (hone : w.inc = 1 ∨ j ≤ 1) (hnonneg : 0 ≤ w.ndata)
    (hj : w.StopsAt L gr m_x j)
    (hloads : ∀ k ≤ max j 1, ∃ v, load data (w.first + (k : ℕ) * w.inc) = some v) :
    ∃ fuel r, w.mag_point L gr data m_x fuel = some r := by
  have hfirst : w.time 0 = w.tm := by simp [time]
  have hsecond : w.time 1 = w.tm + w.tm_inc := by simp [time]
  have hpixel₀ : gr.user2pixx L w.tm = w.pixel L gr 0 := by rw [pixel, hfirst]
  have hpixel₁ : gr.user2pixx L (w.tm + w.tm_inc) = w.pixel L gr 1 := by rw [pixel, hsecond]
  obtain ⟨v, hv⟩ := hloads 0 (Nat.zero_le _)
  obtain ⟨v', hv'⟩ := hloads 1 (le_max_right _ _)
  rw [Nat.cast_zero, zero_mul, add_zero] at hv
  have hv₁ := hv'
  rw [Nat.cast_one, one_mul] at hv'
  unfold mag_point
  simp only [hpixel₀, hpixel₁]
  rw [hv]
  simp only [Option.bind_some]
  rw [hv']
  simp only [Option.bind_some]
  by_cases hfront : m_x ≤ w.pixel L gr 0
  · exact ⟨0, _, if_pos hfront⟩
  by_cases hnext : m_x ≤ w.pixel L gr 1
  · simp only [if_neg hfront]
    exact ⟨0, _, if_pos hnext⟩
  simp only [if_neg hfront, if_neg hnext]
  have hj₀ : j ≠ 0 := by
    rintro rfl
    exact hfront hj.le
  have hj₁ : j ≠ 1 := by
    rintro rfl
    exact hnext hj.le
  have hone := hone.resolve_right (by omega)
  have hplotted := (lt_count hnonneg (by omega) j).1 hj.plotted
  rw [hone] at hplotted
  have hscan : Scanned w L gr data m_x 1 ⟨w.ndata - w.inc, w.inc, w.tm + w.tm_inc, v',
      w.pixel L gr 1, gr.user2pixy L v', if w.ndata - w.inc < w.inc then
        ⟨0, 0, w.tm + w.tm_inc, v', 0, 0⟩ else ⟨0, 0, 0, 0, 0, 0⟩⟩ := by
    refine ⟨le_rfl, by rw [hone]; push_cast; omega, not_le.1 hnext, by push_cast; ring,
      by push_cast; ring, hsecond.symm, hv₁, rfl, ?_⟩
    split_ifs <;> exact ⟨rfl, rfl⟩
  exact exists_magLoop hone hj hscan (by omega) fun k hk => hloads k (hk.trans (le_max_left _ _))

/-! ## When the report is right -/

theorem tm_inc_pos (hinc : 1 ≤ w.inc) (hint : 0 < w.sampInt) : 0 < w.tm_inc := by
  have : (0 : ℚ) < w.inc := by exact_mod_cast hinc
  unfold tm_inc
  positivity

theorem time_injective (hinc : 1 ≤ w.inc) (hint : 0 < w.sampInt) : Function.Injective w.time := by
  intro i k hik
  have hmul : (i : ℚ) * w.tm_inc = k * w.tm_inc := add_left_cancel hik
  exact_mod_cast mul_right_cancel₀ (tm_inc_pos hinc hint).ne' hmul

/-- A report has one amplitude, or its least one is that of a pixel. -/
theorem amps_cases (L : Logs10) (gr : Graph) (r : MagReport) :
    (amps L gr r).min = (amps L gr r).max ∨ ∃ n, (amps L gr r).min = gr.pix2usery L n := by
  unfold amps
  split_ifs
  · exact .inr ⟨_, rfl⟩
  · exact .inl rfl

/-- On a linear axis, some amplitude is not that of a pixel. -/
theorem exists_between_pixels (L : Logs10) (hlogy : gr.logy = false) :
    ∃ c : ℚ, ∀ n : ℤ, gr.pix2usery L n ≠ c := by
  have hlinear : ∀ n : ℤ, gr.pix2usery L n =
      (1 + gr.pix_ymin / gr.pix_ydif) * gr.user_ydif + gr.user_ymin -
        n * (gr.user_ydif / gr.pix_ydif) := by
    intro n
    rw [Graph.pix2usery, hlogy]
    simp only [Bool.false_eq_true, if_false]
    ring
  by_cases hstep : gr.user_ydif / gr.pix_ydif = 0
  · refine ⟨(1 + gr.pix_ymin / gr.pix_ydif) * gr.user_ydif + gr.user_ymin + 1, fun n hn => ?_⟩
    rw [hlinear, hstep] at hn
    linarith
  · refine ⟨(1 + gr.pix_ymin / gr.pix_ydif) * gr.user_ydif + gr.user_ymin -
      1 / 2 * (gr.user_ydif / gr.pix_ydif), fun n hn => ?_⟩
    rw [hlinear] at hn
    have hhalf : (n : ℚ) = 1 / 2 := mul_right_cancel₀ hstep (by linarith)
    have htwo : (2 * n : ℤ) = 1 := by
      have : (2 * n : ℚ) = 1 := by linarith
      exact_mod_cast this
    omega

theorem load_tabulate_of_load {n : ℕ} {f : ℕ → ℚ} {i : ℤ} {v : ℚ}
    (h : load (tabulate n f) i = some v) : v = f i.toNat := by
  have hbounds := bounds_of_load h
  rw [length_tabulate] at hbounds
  rw [load_tabulate hbounds.1 hbounds.2, Option.some.injEq] at h
  exact h.symm

/-- A range between pixels that is reported for all samples is that of a block of one sample. -/
theorem one_of_isRangeOf {c : ℚ} (hc : ∀ n : ℤ, gr.pix2usery L n ≠ c) (hinc : 1 < w.inc) {i : ℕ}
    (hplotted : i * w.inc ≤ w.ndata)
    (h : w.IsRangeOf (tabulate w.numSamples fun k => if (k : ℤ) = w.first + i * w.inc then c
      else c + 1) (w.block i) (amps L gr r)) : w.ndata = i * w.inc := by
  obtain ⟨hall, hleast, hgreatest⟩ := h
  by_contra hne
  have hnext : (i + 1 : ℤ) * w.inc = i * w.inc + w.inc := by ring
  have hfirst : (i * w.inc : ℤ) ∈ w.block i := ⟨le_rfl, by omega, hplotted⟩
  have hsecond : (i * w.inc + 1 : ℤ) ∈ w.block i := ⟨by omega, by omega, by omega⟩
  obtain ⟨v, hv⟩ := hall _ hfirst
  obtain ⟨v', hv'⟩ := hall _ hsecond
  have hvc : v = c := by
    have hval := load_tabulate_of_load hv
    have hbound := (bounds_of_load hv).1
    rwa [if_pos (Int.toNat_of_nonneg hbound)] at hval
  have hvc' : v' = c + 1 := by
    have hval := load_tabulate_of_load hv'
    have hbound := (bounds_of_load hv').1
    rwa [if_neg (by omega)] at hval
  have hmin : (amps L gr r).min = c := by
    refine le_antisymm (hleast.2 ⟨_, hfirst, hvc ▸ hv⟩) ?_
    obtain ⟨k, -, hk⟩ := hleast.1
    have hval := load_tabulate_of_load hk
    split_ifs at hval
    · exact hval.ge
    · linarith
  have hmax : c + 1 ≤ (amps L gr r).max := hgreatest.2 ⟨_, hsecond, hvc' ▸ hv'⟩
  rcases amps_cases L gr r with hone | ⟨n, hn⟩
  · linarith
  · exact hc n (hn.symm.trans hmin)

/-- The cursor stops in front of a plotted point. -/
theorem exists_stopsAt (hnonneg : 0 ≤ w.ndata) (hinc : 1 ≤ w.inc)
    (hm : m_x ≤ w.pixel L gr (w.count - 1)) : ∃ j, w.StopsAt L gr m_x j := by
  have hzero : 0 < w.count := (lt_count hnonneg hinc 0).2 (by rwa [Nat.cast_zero, zero_mul])
  have hex : ∃ j, m_x ≤ w.pixel L gr j := ⟨_, hm⟩
  refine ⟨Nat.find hex, ?_, Nat.find_spec hex, fun i hi => not_le.1 (Nat.find_min hex hi)⟩
  exact (Nat.find_min' hex hm).trans_lt (by omega)

/-- Of the points around the cursor, one that is not farther than the other is nearest. -/
theorem nearest_of_stopsAt
    (hmono : ∀ i k, i ≤ k → k < w.count → w.pixel L gr i ≤ w.pixel L gr k)
    (hj : w.StopsAt L gr m_x j) {i : ℕ} (hi : i = j ∨ i + 1 = j)
    (hle : 0 < j → |m_x - w.pixel L gr i| ≤ |m_x - w.pixel L gr j| ∧
      |m_x - w.pixel L gr i| ≤ |m_x - w.pixel L gr (j - 1)|) :
    ∀ k < w.count, |m_x - w.pixel L gr i| ≤ |m_x - w.pixel L gr k| := by
  intro k hk
  have hjle := hj.le
  rcases Nat.eq_zero_or_pos j with rfl | hpos
  · obtain rfl : i = 0 := by omega
    have hfirst := hmono 0 k (Nat.zero_le k) hk
    rw [abs_of_nonpos (by omega), abs_of_nonpos (by omega)]
    omega
  · obtain ⟨hlej, hlepred⟩ := hle hpos
    rcases Nat.lt_or_ge k j with hlt | hge
    · refine hlepred.trans ?_
      have hbefore := hj.before (j - 1) (by omega)
      have hkj := hmono k (j - 1) (by omega) (by have := hj.plotted; omega)
      rw [abs_of_pos (by omega), abs_of_pos (by omega)]
      omega
    · refine hlej.trans ?_
      have hjk := hmono j k hge hk
      rw [abs_of_nonpos (by omega), abs_of_nonpos (by omega)]
      omega

/-- Which of the points around the cursor `mag_point` takes. -/
structure Chosen (w : PickWindow) (L : Logs10) (gr : Graph) (m_x : ℤ) (j i : ℕ) : Prop where
  around : i = j ∨ i + 1 = j
  close : w.inc = 1 ∨ j ≤ 1 → j ≠ 0 → (i = j ↔
    ¬(m_x - w.pixel L gr (j - 1) < w.pixel L gr j - m_x ∨ w.pixel L gr j > w.marginRight))
  front : 2 ≤ j → 1 < w.inc → i + 1 = j

/-- Of a decimated plot, the same point is taken for all samples. -/
theorem Chosen.unique {i i' : ℕ} (h : w.Chosen L gr m_x j i) (h' : w.Chosen L gr m_x j i')
    (hinc : 1 < w.inc) : i' = i := by
  obtain ⟨haround, hclose, hfront⟩ := h
  obtain ⟨haround', hclose', hfront'⟩ := h'
  obtain rfl | rfl | hj₂ : j = 0 ∨ j = 1 ∨ 2 ≤ j := by omega
  · omega
  · have hiff := hclose (.inr le_rfl) one_ne_zero
    rw [← hclose' (.inr le_rfl) one_ne_zero] at hiff
    omega
  · have heq := hfront hj₂ hinc
    have heq' := hfront' hj₂ hinc
    omega

/-- The report is of the point in front of the cursor or of the one behind it, and has its amplitude
if every sample is plotted or the point is one of the first two. -/
theorem mag_point_reports (hinc : 1 ≤ w.inc) (hnonneg : 0 ≤ w.ndata) (hj : w.StopsAt L gr m_x j)
    (h : w.mag_point L gr data m_x fuel = some r) :
    ∃ i, r.mag_mouse_time = w.time i ∧ w.Chosen L gr m_x j i ∧
      (w.inc = 1 ∨ j ≤ 1 →
        ∃ a, load data (w.first + i * w.inc) = some a ∧ amps L gr r = ⟨a, a⟩) := by
  obtain ⟨⟨v, v', hv, hv', hzero, hone⟩, htwo⟩ := mag_point_cases hinc hnonneg hj h
  have hload₀ : load data (w.first + (0 : ℕ) * w.inc) = some v := by
    rwa [Nat.cast_zero, zero_mul, add_zero]
  have hload₁ : load data (w.first + (1 : ℕ) * w.inc) = some v' := by rwa [Nat.cast_one, one_mul]
  obtain rfl | rfl | hj₂ : j = 0 ∨ j = 1 ∨ 2 ≤ j := by omega
  · exact ⟨0, (hzero rfl).1, ⟨.inl rfl, fun _ h => absurd rfl h, fun h => by omega⟩,
      fun _ => ⟨v, hload₀, (hzero rfl).2⟩⟩
  · obtain ⟨hfront, hbehind⟩ := hone rfl
    by_cases hnear : m_x - w.pixel L gr 0 < w.pixel L gr 1 - m_x ∨ w.pixel L gr 1 > w.marginRight
    · exact ⟨0, (hfront hnear).1,
        ⟨.inr rfl, fun _ _ => iff_of_false (by omega) (not_not.2 hnear), fun h => by omega⟩,
        fun _ => ⟨v, hload₀, (hfront hnear).2⟩⟩
    · exact ⟨1, (hbehind hnear).1,
        ⟨.inl rfl, fun _ _ => iff_of_true rfl hnear, fun h => by omega⟩,
        fun _ => ⟨v', hload₁, (hbehind hnear).2⟩⟩
  · have hfound := htwo hj₂
    obtain ⟨q, rfl⟩ : ∃ q, j = q + 1 := ⟨j - 1, by omega⟩
    rw [Nat.add_sub_cancel] at hfound
    rcases eq_or_lt_of_le hinc with hsingle | hmany
    · obtain ⟨hmax, hmin⟩ := hfound.jumps hsingle.symm
      have hamps : amps L gr r = ⟨r.mag_mouse_amp, r.mag_mouse_amp⟩ := if_neg fun hne => hne.1 hmin
      by_cases hnear : m_x - w.pixel L gr q < w.pixel L gr (q + 1) - m_x ∨
          w.pixel L gr (q + 1) > w.marginRight
      · obtain ⟨htime, hamp⟩ := hfound.front hsingle.symm hnear
        exact ⟨q, htime,
          ⟨.inr rfl, fun _ _ => iff_of_false (by omega) (not_not.2 hnear), fun _ h => by omega⟩,
          fun _ => ⟨_, hamp, hamps⟩⟩
      · obtain ⟨htime, hamp⟩ := hfound.behind hsingle.symm hnear
        exact ⟨q + 1, htime,
          ⟨.inl rfl, fun _ _ => iff_of_true rfl hnear, fun _ h => by omega⟩,
          fun _ => ⟨_, hamp, hamps⟩⟩
    · exact ⟨q, hfound.several hmany, ⟨.inr rfl, fun h => by omega, fun _ _ => rfl⟩,
        fun h => by omega⟩

/-- The point that is reported for some samples. -/
theorem ReadsPick.index (h : w.ReadsPick L gr m_x) (hinc : 1 ≤ w.inc) (hint : 0 < w.sampInt)
    (hnonneg : 0 ≤ w.ndata) (hj : w.StopsAt L gr m_x j) (hdata : data.length = w.numSamples) :
    ∃ fuel r p i, w.mag_point L gr data m_x fuel = some r ∧
      w.ReportsPoint L gr data m_x i (amps L gr r) p ∧ w.Chosen L gr m_x j i := by
  obtain ⟨fuel, r, p, i, hr, hp, hreport⟩ := h data hdata
  obtain ⟨i', htime, hchosen, -⟩ := mag_point_reports hinc hnonneg hj hr
  have hepoch := hreport.epoch
  rw [magPoint, hr, Option.map_some, Option.some.injEq] at hp
  rw [← hp] at hepoch
  have hi : i = i' := time_injective hinc hint (add_left_cancel hepoch |>.symm.trans htime)
  subst hi
  exact ⟨fuel, r, p, i, hr, hreport, hchosen⟩

/-! ## When the report is right -/

theorem short_of_single (h : w.inc = 1 ∨ w.ndata = j * w.inc ∧ (j = 0 ∨ j = 1 ∧
    w.pixel L gr 1 - m_x ≤ m_x - w.pixel L gr 0 ∧ w.pixel L gr 1 ≤ w.marginRight)) :
    w.inc = 1 ∨ j ≤ 1 := by
  rcases h with hone | ⟨-, hzero | ⟨hone, -⟩⟩
  · exact .inl hone
  · exact .inr (by omega)
  · exact .inr (by omega)

/-- The point behind the cursor is the last one if the point taken is the last one. -/
theorem Chosen.single {i : ℕ} (h : w.Chosen L gr m_x j i) (hinc : 1 < w.inc)
    (hplotted : j * w.inc ≤ w.ndata) (hndata : w.ndata = i * w.inc) :
    w.ndata = j * w.inc ∧ (j = 0 ∨ j = 1 ∧
      w.pixel L gr 1 - m_x ≤ m_x - w.pixel L gr 0 ∧ w.pixel L gr 1 ≤ w.marginRight) := by
  obtain ⟨haround, hclose, hfront⟩ := h
  have hij : i = j := by
    rcases haround with heq | hpred
    · exact heq
    · subst hpred
      push_cast at hplotted
      rw [add_mul] at hplotted
      omega
  subst hij
  refine ⟨hndata, ?_⟩
  obtain hzero | hone | hj₂ : i = 0 ∨ i = 1 ∨ 2 ≤ i := by omega
  · exact .inl hzero
  · subst hone
    have hnear := (hclose (.inr le_rfl) one_ne_zero).1 rfl
    rw [Nat.sub_self] at hnear
    exact .inr ⟨rfl, by omega, by omega⟩
  · have := hfront hj₂ hinc
    omega

/-- The samples that `mag_point` reads are in the trace. -/
theorem inside_of_mag_point (hinc : 1 ≤ w.inc) (hnonneg : 0 ≤ w.ndata)
    (hj : w.StopsAt L gr m_x j) (hdata : data.length = w.numSamples)
    (h : w.mag_point L gr data m_x fuel = some r) :
    0 ≤ w.first ∧ w.first + (max j 1 : ℕ) * w.inc < w.numSamples := by
  obtain ⟨⟨v, v', hv, hv', -, -⟩, htwo⟩ := mag_point_cases hinc hnonneg hj h
  have hsecond := bounds_of_load hv'
  refine ⟨(bounds_of_load hv).1, ?_⟩
  rcases Nat.lt_or_ge j 2 with hlt | hge
  · rw [max_eq_right (by omega), Nat.cast_one, one_mul, ← hdata]
    exact hsecond.2
  · obtain ⟨v, hv⟩ := (htwo hge).loaded
    have hbound := bounds_of_load hv
    rw [Nat.sub_add_cancel (by omega)] at hbound
    rw [max_eq_left (by omega), ← hdata]
    exact hbound.2

theorem ReadsPick.pickFits (h : w.ReadsPick L gr m_x) (hinc : 1 ≤ w.inc) (hint : 0 < w.sampInt)
    (hnonneg : 0 ≤ w.ndata) (hlogy : gr.logy = false) (hj : w.StopsAt L gr m_x j) :
    w.PickFits L gr m_x j := by
  obtain ⟨c, hc⟩ := @exists_between_pixels gr L hlogy
  have hplotted := (lt_count hnonneg hinc j).1 hj.plotted
  -- the point that is reported, and then samples that tell its block from others
  obtain ⟨-, -, -, i, -, -, hchosen⟩ :=
    h.index hinc hint hnonneg hj (length_tabulate w.numSamples fun _ => c)
  have hlen := length_tabulate w.numSamples fun k =>
    if (k : ℤ) = w.first + i * w.inc then c else c + 1
  obtain ⟨fuel, r, p, i', hr, hreport, hchosen'⟩ := h.index hinc hint hnonneg hj hlen
  have hsingle : w.inc = 1 ∨ w.ndata = j * w.inc ∧ (j = 0 ∨ j = 1 ∧
      w.pixel L gr 1 - m_x ≤ m_x - w.pixel L gr 0 ∧ w.pixel L gr 1 ≤ w.marginRight) := by
    rcases eq_or_lt_of_le hinc with hone | hinc'
    · exact .inl hone.symm
    · obtain rfl := hchosen.unique hchosen' hinc'
      have hndata := one_of_isRangeOf hc hinc' ((lt_count hnonneg hinc _).1 hreport.plotted)
        (hreport.range hinc')
      exact .inr (hchosen.single hinc' hplotted hndata)
  refine ⟨hj, inside_of_mag_point hinc hnonneg hj hlen hr, fun hne => ?_, hsingle⟩
  rcases hchosen'.around with heq | hpred
  · have hnear := (hchosen'.close (short_of_single hsingle) hne).1 heq
    exact .inr (by omega)
  · left
    have hle := hreport.nearest j hj.plotted
    have hpred' : i' = j - 1 := by omega
    have hbefore := hj.before (j - 1) (by omega)
    have hjle := hj.le
    rw [hpred', abs_of_pos (by omega), abs_of_nonpos (by omega)] at hle
    omega

theorem PickFits.loads (h : w.PickFits L gr m_x j) (hinc : 1 ≤ w.inc)
    (hdata : data.length = w.numSamples) :
    ∀ k ≤ max j 1, ∃ v, load data (w.first + (k : ℕ) * w.inc) = some v := by
  obtain ⟨hfirst, hinside⟩ := h.inside
  intro k hk
  have hmul : (k : ℤ) * w.inc ≤ (max j 1 : ℕ) * w.inc :=
    mul_le_mul_of_nonneg_right (by exact_mod_cast hk) (by omega)
  have hnonneg : 0 ≤ (k : ℤ) * w.inc := by positivity
  have hlt : (w.first + k * w.inc).toNat < data.length := by omega
  exact ⟨_, by rw [load, if_pos (by omega), List.getElem?_eq_getElem hlt]⟩

/-- The point that is taken is nearest, if the nearer one is not right of the margin. -/
theorem PickFits.nearest (h : w.PickFits L gr m_x j)
    (hmono : ∀ i k, i ≤ k → k < w.count → w.pixel L gr i ≤ w.pixel L gr k) {i : ℕ}
    (hchosen : w.Chosen L gr m_x j i) :
    ∀ k < w.count, |m_x - w.pixel L gr i| ≤ |m_x - w.pixel L gr k| := by
  have hj := h.stops
  refine nearest_of_stopsAt hmono hj hchosen.around fun hpos => ?_
  have hbefore := hj.before (j - 1) (by omega)
  have hjle := hj.le
  have hfront : |m_x - w.pixel L gr (j - 1)| = m_x - w.pixel L gr (j - 1) := abs_of_pos (by omega)
  have hbehind : |m_x - w.pixel L gr j| = w.pixel L gr j - m_x := by
    rw [abs_of_nonpos (by omega)]
    ring
  have hiff := hchosen.close (short_of_single h.single) (by omega)
  have hfits := h.margin (by omega)
  rcases hchosen.around with rfl | hpred
  · have hnear := hiff.1 rfl
    omega
  · have hnear := mt hiff.2 (by omega)
    have hi : i = j - 1 := by omega
    rw [hi, hfront, hbehind]
    omega

/-- The range of a block of one sample. -/
theorem isRangeOf_block {i : ℕ} {a : ℚ} (hinc : 1 ≤ w.inc) (hndata : w.ndata = i * w.inc)
    (ha : load data (w.first + i * w.inc) = some a) : w.IsRangeOf data (w.block i) ⟨a, a⟩ := by
  have hblock : ∀ k ∈ w.block i, k = i * w.inc := fun k hk => by
    have := hk.1
    have := hk.2.2
    omega
  have hmem : (i * w.inc : ℤ) ∈ w.block i := ⟨le_rfl, by rw [add_mul]; omega, hndata.ge⟩
  have hvalues : {v | ∃ k ∈ w.block i, load data (w.first + k) = some v} = {a} := by
    ext v
    constructor
    · rintro ⟨k, hk, hv⟩
      rw [hblock k hk, ha, Option.some.injEq] at hv
      exact hv.symm
    · rintro rfl
      exact ⟨_, hmem, ha⟩
  rw [IsRangeOf, hvalues]
  exact ⟨fun k hk => ⟨a, hblock k hk ▸ ha⟩, isLeast_singleton, isGreatest_singleton⟩

theorem PickFits.readsPick (h : w.PickFits L gr m_x j) (hinc : 1 ≤ w.inc) (hnonneg : 0 ≤ w.ndata)
    (hmono : ∀ i k, i ≤ k → k < w.count → w.pixel L gr i ≤ w.pixel L gr k) :
    w.ReadsPick L gr m_x := by
  intro data hdata
  have hj := h.stops
  have hshort := short_of_single h.single
  obtain ⟨fuel, r, hr⟩ := exists_mag_point hshort hnonneg hj (h.loads hinc hdata)
  obtain ⟨i, htime, hchosen, hamp⟩ := mag_point_reports hinc hnonneg hj hr
  obtain ⟨a, ha, hamps⟩ := hamp hshort
  have hplotted : i < w.count := by
    have := hj.plotted
    have := hchosen.around
    omega
  have hp : w.magPoint L gr data m_x fuel = Option.map _ (some r) := congrArg (Option.map _) hr
  rw [Option.map_some] at hp
  refine ⟨fuel, r, _, i, hr, hp, hplotted, h.nearest hmono hchosen, by rw [htime],
    fun _ => by rw [hamps]; exact ⟨ha, rfl⟩, fun hmany => ?_, rfl, rfl⟩
  obtain ⟨hndata, hcase⟩ := h.single.resolve_left (by omega)
  have hij : i = j := by
    rcases hcase with hzero | ⟨hone, hnear, hmargin⟩
    · have := hchosen.around
      omega
    · subst hone
      exact (hchosen.close hshort one_ne_zero).2 (by rw [Nat.sub_self]; omega)
  subst hij
  rw [hamps]
  exact isRangeOf_block hinc hndata ha

/-- Five samples, two pixels apart, of which a plot shows those that count. -/
def fiveSamples (inc : ℤ) : PickWindow where
  numSamples := 5
  first := 0
  points := 4
  atEnd := false
  inc := inc
  sampInt := 1000000
  tm := 0
  marginRight := 10
  axisStart := 0
  scale := none

def fiveSecondsGraph : Graph where
  logx := false
  logy := false
  user_xmin := 0
  user_ymin := 0
  user_xdif := 5
  user_ydif := 1
  pix_xmin := 0
  pix_ymin := 0
  pix_ymax := 100
  pix_xdif := 10
  pix_ydif := 100

theorem pixel_fiveSamples (inc : ℤ) (i : ℕ) :
    (fiveSamples inc).pixel ⟨id, id⟩ fiveSecondsGraph i = 2 * (i * inc) := by
  have h : ((fiveSamples inc).time i - fiveSecondsGraph.user_xmin) / fiveSecondsGraph.user_xdif *
      fiveSecondsGraph.pix_xdif + fiveSecondsGraph.pix_xmin = (2 * (i * inc) : ℤ) := by
    push_cast [fiveSecondsGraph, time, tm_inc, fiveSamples]
    ring
  change roundEven (((fiveSamples inc).time i - fiveSecondsGraph.user_xmin) /
    fiveSecondsGraph.user_xdif * fiveSecondsGraph.pix_xdif + fiveSecondsGraph.pix_xmin) = _
  rw [h, roundEven_intCast]

end Pick

end PickWindow

end PQL
