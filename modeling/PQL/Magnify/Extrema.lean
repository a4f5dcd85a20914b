import PQL.Lib.Arrays
import PQL.Lib.Extremes
import PQL.Lib.Rounding
import PQL.Lib.Runs

/-!
# Extrema of the magnify window

`get_mag_max_mins` finds the extrema of the samples in the window for the vertical axis and adjusts
them.  When the new window contains the last one it does not scan again but extends the extrema that
it left, adjusted as they are, by the samples on both sides; on the right it takes the samples after
the old end up to the new end, where a full scan takes those before the end.
-/

namespace PQL

/-! ## The computation -/

/-- `G_MAXFLOAT`. -/
def maxFloat : ℚ := (2 ^ 24 - 1) * 2 ^ 104

/-- A trace with its samples as they are converted to `double`. -/
structure MagTrace where
  samples : List ℚ
  isDouble : ∀ v ∈ samples, roundTo 53 v = v
  numGaps : ℕ
  /-- The units are `PQL_UNITS_COUNTS`. -/
  counts : Bool
  sampInt : ℚ

/-- The part of a trace to magnify, in seconds; `begin` is -1 if there is none. -/
structure MagWindow where
  begin : ℚ
  stop : ℚ

structure MagCall where
  init : Bool
  window : MagWindow

/-- What a call leaves: the sample range of `pts` and the extrema. -/
structure MagState where
  start : ℤ
  stop : ℤ
  amps : Extremes ℚ
deriving DecidableEq

/-- The indices of a loop from `a` to before `b`. -/
def indices (a b : ℤ) : List ℤ := (List.range (b - a).toNat).map fun k : ℕ => a + (k : ℤ)

namespace MagTrace

variable (t : MagTrace)

/-- Samples per second. -/
def sps : ℚ := roundTo 53 (1000000 / t.sampInt)

def startPoint (w : MagWindow) : ℤ := ⌈roundTo 53 (w.begin * t.sps)⌉

def endPoint (w : MagWindow) : ℤ := truncate (roundTo 53 (w.stop * t.sps))

/-- The extrema after a sample. -/
def compareSample (amps : Extremes ℚ) (dataV : ℚ) : Extremes ℚ :=
  if amps.max < dataV then
    if amps.min < dataV then { amps with max := dataV }
    -- the first sample may be the minimum too
    else if dataV < amps.min then ⟨dataV, dataV⟩
    else { amps with max := dataV }
  else if dataV < amps.min then { amps with min := dataV }
  else amps

/-- A zero is taken for the filling of a gap if there are gaps. -/
def isFill (dataV : ℚ) : Bool := t.numGaps ≠ 0 ∧ dataV = 0

/-- The body of the scan loops. -/
def scanSample (amps : Extremes ℚ) (ptInc : ℤ) : Option (Extremes ℚ) :=
  (load t.samples ptInc).map fun dataV =>
    if t.isFill dataV then amps else compareSample amps dataV

/-- The extrema of a flat line are set apart, as are those of no samples. -/
def widen (amps : Extremes ℚ) : Extremes ℚ :=
  let amps := if amps.max = amps.min then
      ⟨roundTo 53 (amps.min - 1), roundTo 53 (amps.max + 1)⟩ else amps
  if amps.max = -maxFloat ∧ amps.min = maxFloat then ⟨-1, 1⟩ else amps

/-- The maximum of counts is raised if their difference is not even. -/
def evenDifference (amps : Extremes ℚ) : Option (Extremes ℚ) :=
  let diff := roundTo 53 (amps.max - amps.min)
  if t.counts ∧ 2 ≤ diff then
    (toInt (diff / 2)).bind fun temp => (signed (temp * 2)).map fun twice =>
      if (twice : ℚ) ≠ diff then { amps with max := roundTo 53 (amps.max + 1) } else amps
  else some amps

def adjust (amps : Extremes ℚ) : Option (Extremes ℚ) := t.evenDifference (widen amps)

/-- The extrema before the first sample. -/
def blank : Extremes ℚ := ⟨maxFloat, -maxFloat⟩

/-- The new window contains the last one. -/
def zoomOUT (s : MagState) (c : MagCall) : Prop :=
  c.init = false ∧ 0 < t.startPoint c.window ∧
    (t.startPoint c.window ≤ s.start ∧ s.stop ≤ t.endPoint c.window) ∧
    s.amps.min ≠ maxFloat ∧ s.amps.max ≠ -maxFloat

instance (s : MagState) (c : MagCall) : Decidable (t.zoomOUT s c) :=
  inferInstanceAs (Decidable (_ ∧ _))

/-- The samples beside the last window, in the order of the two loops. -/
def sideIndices (s : MagState) (w : MagWindow) : List ℤ :=
  indices (t.startPoint w) s.start ++ (indices (s.stop + 1) (t.endPoint w + 1)).reverse

/-- `get_mag_max_mins` for one trace in display-scaled mode. -/
def getMagMaxMins (s : MagState) (c : MagCall) : Option MagState :=
  let w := c.window
  if w.begin = -1 then some ⟨0, 0, ⟨-maxFloat, maxFloat⟩⟩
  else
    let amps := if t.zoomOUT s c then (t.sideIndices s w).foldlM t.scanSample s.amps
      else (indices (t.startPoint w) (t.endPoint w)).foldlM t.scanSample blank
    (amps.bind t.adjust).map fun amps => ⟨t.startPoint w, t.endPoint w, amps⟩

/-! ## Scans -/

variable {t}

theorem mem_indices {a b i : ℤ} : i ∈ indices a b ↔ a ≤ i ∧ i < b := by
  unfold indices
  constructor
  · intro hi
    obtain ⟨k, hk, rfl⟩ := List.mem_map.1 hi
    have hlt := List.mem_range.1 hk
    omega
  · rintro ⟨ha, hb⟩
    refine List.mem_map.2 ⟨(i - a).toNat, List.mem_range.2 ?_, ?_⟩ <;> omega

theorem compareSample_eq (amps : Extremes ℚ) (v : ℚ) : compareSample amps v = amps.extend v := by
  unfold compareSample Extremes.extend
  split_ifs with hmax hmin hmin' hmin'
  · rw [max_eq_right hmax.le, min_eq_left hmin.le]
  · rw [max_eq_right hmax.le, min_eq_right hmin'.le]
  · rw [max_eq_right hmax.le, min_eq_left (not_lt.1 hmin')]
  · rw [max_eq_left (not_lt.1 hmax), min_eq_right hmin'.le]
  · rw [max_eq_left (not_lt.1 hmax), min_eq_left (not_lt.1 hmin')]

variable (t)

/-- The sample `v` has the index `i` and is not the filling of a gap. -/
def IsSample (i : ℤ) (v : ℚ) : Prop := load t.samples i = some v ∧ t.isFill v = false

/-- The samples that a scan of the indices compares. -/
def considered (is : List ℤ) : List ℚ :=
  (is.filterMap (load t.samples)).filter fun v => !t.isFill v

variable {t}

theorem mem_considered {is : List ℤ} {v : ℚ} :
    v ∈ t.considered is ↔ ∃ i ∈ is, t.IsSample i v := by
  unfold considered IsSample
  rw [List.mem_filter, List.mem_filterMap]
  constructor
  · rintro ⟨⟨i, hi, hv⟩, hfill⟩
    exact ⟨i, hi, hv, by simpa using hfill⟩
  · rintro ⟨i, hi, hv, hfill⟩
    exact ⟨⟨i, hi, hv⟩, by simpa using hfill⟩

theorem mem_considered_singleton {i : ℤ} {v : ℚ} : v ∈ t.considered [i] ↔ t.IsSample i v := by
  simp [mem_considered]

theorem isDouble_of_mem {is : List ℤ} {v : ℚ} (hv : v ∈ t.considered is) : roundTo 53 v = v := by
  obtain ⟨i, -, hload, -⟩ := mem_considered.1 hv
  apply t.isDouble
  unfold load at hload
  split_ifs at hload
  exact List.mem_of_getElem? hload

/-- A scan is possible if its samples exist, and then it compares them. -/
theorem foldlM_scanSample {is : List ℤ} {e r : Extremes ℚ} :
    is.foldlM t.scanSample e = some r ↔
      (∀ i ∈ is, (load t.samples i).isSome) ∧ r = e.scan (t.considered is) := by
  induction is generalizing e with
  | nil =>
    simp only [List.foldlM_nil, considered, List.filterMap_nil, List.filter_nil,
      Extremes.scan_nil, List.not_mem_nil, IsEmpty.forall_iff, implies_true, true_and]
    exact ⟨fun h => (Option.some.inj h).symm, fun h => congrArg some h.symm⟩
  | cons i is ih =>
    rw [List.foldlM_cons]
    cases hload : load t.samples i with
    | none => simp [scanSample, hload]
    | some v =>
      cases hfill : t.isFill v
      · have hconsidered : t.considered (i :: is) = v :: t.considered is := by
          simp [considered, hload, hfill]
        rw [hconsidered, Extremes.scan_cons, ← compareSample_eq]
        simp only [scanSample, hload, hfill, Option.map_some, Bool.false_eq_true, if_false,
          Option.bind_eq_bind, Option.bind_some, List.forall_mem_cons, Option.isSome_some,
          true_and]
        exact ih
      · have hconsidered : t.considered (i :: is) = t.considered is := by
          simp [considered, hload, hfill]
        rw [hconsidered]
        simp only [scanSample, hload, hfill, Option.map_some, if_true, Option.bind_eq_bind,
          Option.bind_some, List.forall_mem_cons, Option.isSome_some, true_and]
        exact ih

/-! ## Adjusting -/

theorem maxFloat_pos : 0 < maxFloat := by norm_num [maxFloat]

theorem roundTo_maxFloat : roundTo 53 maxFloat = maxFloat := by
  have hlog : Int.log 2 |maxFloat| = 127 := by
    rw [abs_of_pos maxFloat_pos]
    apply le_antisymm
    · rw [← Int.lt_add_one_iff, ← Int.lt_zpow_iff_log_lt (by norm_num) maxFloat_pos]
      norm_num [maxFloat]
    · rw [← Int.zpow_le_iff_le_log (by norm_num) maxFloat_pos]
      norm_num [maxFloat]
  have hulp : ulp 53 maxFloat = 2 ^ 75 := by
    rw [ulp, hlog]
    norm_num
  have hquotient : maxFloat / 2 ^ 75 = ((2 ^ 24 - 1) * 2 ^ 29 : ℤ) := by
    norm_num [maxFloat]
  rw [roundTo, hulp, hquotient, roundEven_intCast]
  norm_num [maxFloat]

/-- The extrema are numbers of the format. -/
structure Doubles (e : Extremes ℚ) : Prop where
  min : roundTo 53 e.min = e.min
  max : roundTo 53 e.max = e.max

theorem doubles_scan (is : List ℤ) : Doubles (blank.scan (t.considered is)) := by
  constructor
  · rcases Extremes.scan_min_eq_or_mem blank (t.considered is) with h | h
    · rw [h]
      exact roundTo_maxFloat
    · exact isDouble_of_mem h
  · rcases Extremes.scan_max_eq_or_mem blank (t.considered is) with h | h
    · rw [h]
      exact (roundTo_neg _ _).trans (congrArg _ roundTo_maxFloat)
    · exact isDouble_of_mem h

/-- Widened extrema cover those before. -/
theorem widen_covers {e : Extremes ℚ} (he : Doubles e) :
    (widen e).min ≤ e.min ∧ e.max ≤ (widen e).max := by
  have hmin : roundTo 53 (e.min - 1) ≤ e.min := by
    have hmono := roundTo_mono (p := 53) (by norm_num) (sub_le_self e.min zero_le_one)
    rwa [he.min] at hmono
  have hmax : e.max ≤ roundTo 53 (e.max + 1) := by
    have hmono := roundTo_mono (p := 53) (by norm_num)
      (le_add_of_nonneg_right (a := e.max) zero_le_one)
    rwa [he.max] at hmono
  unfold widen
  simp only
  generalize hflat : (if e.max = e.min then
    (⟨roundTo 53 (e.min - 1), roundTo 53 (e.max + 1)⟩ : Extremes ℚ) else e) = f
  have hcovers : f.min ≤ e.min ∧ e.max ≤ f.max := by
    rw [← hflat]
    split_ifs
    · exact ⟨hmin, hmax⟩
    · exact ⟨le_rfl, le_rfl⟩
  have hpos := maxFloat_pos
  split_ifs with hnone
  · rw [hnone.1, hnone.2] at hcovers
    exact ⟨by dsimp only; linarith [hcovers.1], by dsimp only; linarith [hcovers.2]⟩
  · exact hcovers

/-- Adjusted extrema cover those before. -/
theorem adjust_covers {e r : Extremes ℚ} (he : Doubles e) (hr : t.adjust e = some r) :
    r.min ≤ e.min ∧ e.max ≤ r.max := by
  obtain ⟨hmin, hmax⟩ := widen_covers he
  have hraised : e.max ≤ roundTo 53 ((widen e).max + 1) := by
    have hle : e.max ≤ (widen e).max + 1 := by linarith
    have hmono := roundTo_mono (p := 53) (by norm_num) hle
    rwa [he.max] at hmono
  unfold adjust evenDifference at hr
  simp only at hr
  split_ifs at hr
  · obtain ⟨temp, -, hrest⟩ := Option.bind_eq_some_iff.1 hr
    obtain ⟨twice, -, rfl⟩ := Option.map_eq_some_iff.1 hrest
    split_ifs
    · exact ⟨hmin, hraised⟩
    · exact ⟨hmin, hmax⟩
  · obtain rfl := Option.some.inj hr
    exact ⟨hmin, hmax⟩

/-! ## One call -/

/-- The value lies between two values of the list. -/
def Within (vs : List ℚ) (v : ℚ) : Prop := (∃ a ∈ vs, a ≤ v) ∧ ∃ b ∈ vs, v ≤ b

instance (vs : List ℚ) (v : ℚ) : Decidable (Within vs v) := inferInstanceAs (Decidable (_ ∧ _))

variable (t)

/-- The samples of a window. -/
def windowSamples (w : MagWindow) : List ℚ := t.considered (indices (t.startPoint w) (t.endPoint w))

/-- The samples of the window after the last call. -/
def lastSamples (s : MagState) : List ℚ := t.considered (indices s.start s.stop)

/-- The window covers what the last one left: its samples reach the adjusted extrema, the sample at
its end, which is scanned but not in the window, lies between two of its samples, and the sample at
the old end, which is passed over, lies between two others. -/
structure Extends (s : MagState) (w : MagWindow) : Prop where
  min : ∃ a ∈ t.windowSamples w, a ≤ s.amps.min
  max : ∃ b ∈ t.windowSamples w, s.amps.max ≤ b
  newEnd : ∀ i ∈ t.sideIndices s w, i ∉ indices (t.startPoint w) (t.endPoint w) →
    ∀ v ∈ t.considered [i], Within (t.windowSamples w) v
  oldEnd : s.start ≤ s.stop → s.stop < t.endPoint w → ∀ v ∈ t.considered [s.stop],
    Within (t.considered (indices (t.startPoint w) s.stop ++
      indices (s.stop + 1) (t.endPoint w + 1))) v

/-- The window adds nothing to the last one: its samples lie between those of the last window, those
that are scanned lie between the extrema, and these need no further adjustment. -/
structure Stays (s : MagState) (w : MagWindow) : Prop where
  samples : ∀ v ∈ t.windowSamples w, Within (t.lastSamples s) v
  scanned : ∀ v ∈ t.considered (t.sideIndices s w), s.amps.min ≤ v ∧ v ≤ s.amps.max
  adjusted : t.adjust s.amps = some s.amps

/-- A call that extends the extrema of the last window finds the samples that it needs, and its
window covers what the last one left or adds nothing to it. -/
def ZoomsRightly (s : MagState) (c : MagCall) : Prop :=
  t.zoomOUT s c →
    (∀ i ∈ indices (t.startPoint c.window) (t.endPoint c.window) ++ t.sideIndices s c.window,
      (load t.samples i).isSome) ∧
    (t.Extends s c.window ∨ t.Stays s c.window)

/-- The extrema of the state are those of its sample range; at first there is none. -/
def Cached (s : MagState) : Prop :=
  s.start = 0 ∧ s.stop = 0 ∨ t.adjust (blank.scan (t.lastSamples s)) = some s.amps

variable {t} {s : MagState} {w : MagWindow}

theorem scan_min_le_of_within {e : Extremes ℚ} {vs : List ℚ} {v : ℚ} (hv : Within vs v) :
    (e.scan vs).min ≤ v := by
  obtain ⟨a, ha, hav⟩ := hv.1
  exact (Extremes.scan_min_le_of_mem ha).trans hav

theorem le_scan_max_of_within {e : Extremes ℚ} {vs : List ℚ} {v : ℚ} (hv : Within vs v) :
    v ≤ (e.scan vs).max := by
  obtain ⟨b, hb, hvb⟩ := hv.2
  exact hvb.trans (Extremes.le_scan_max_of_mem hb)

/-- Where a sample of the window is found: beside the last window, in it or at its end. -/
theorem index_cases {i : ℤ} (hi : i ∈ indices (t.startPoint w) (t.endPoint w)) :
    i ∈ t.sideIndices s w ∨ i ∈ indices s.start s.stop ∨
      i = s.stop ∧ s.start ≤ s.stop ∧ s.stop < t.endPoint w := by
  unfold sideIndices
  rw [List.mem_append, List.mem_reverse]
  simp only [mem_indices] at hi ⊢
  omega

/-- Extending what the last call left gives the extrema of the window. -/
theorem scan_of_extends (hlast : t.adjust (blank.scan (t.lastSamples s)) = some s.amps)
    (hext : t.Extends s w) :
    s.amps.scan (t.considered (t.sideIndices s w)) = blank.scan (t.windowSamples w) := by
  obtain ⟨hmin, hmax⟩ := adjust_covers (doubles_scan _) hlast
  -- what is found beside the last window or in it
  have hfound : ∀ i v, t.IsSample i v → i ∈ t.sideIndices s w ∨ i ∈ indices s.start s.stop →
      (s.amps.scan (t.considered (t.sideIndices s w))).min ≤ v ∧
        v ≤ (s.amps.scan (t.considered (t.sideIndices s w))).max := by
    rintro i v hv (hi | hi)
    · have hmem : v ∈ t.considered (t.sideIndices s w) := mem_considered.2 ⟨i, hi, hv⟩
      exact ⟨Extremes.scan_min_le_of_mem hmem, Extremes.le_scan_max_of_mem hmem⟩
    · have hmem : v ∈ t.lastSamples s := mem_considered.2 ⟨i, hi, hv⟩
      constructor
      · calc (s.amps.scan _).min ≤ s.amps.min := Extremes.scan_min_le _ _
          _ ≤ (blank.scan (t.lastSamples s)).min := hmin
          _ ≤ v := Extremes.scan_min_le_of_mem hmem
      · calc v ≤ (blank.scan (t.lastSamples s)).max := Extremes.le_scan_max_of_mem hmem
          _ ≤ s.amps.max := hmax
          _ ≤ (s.amps.scan _).max := Extremes.le_scan_max _ _
  apply Extremes.scan_eq_scan
  · obtain ⟨a, ha, hle⟩ := hext.min
    exact (Extremes.scan_min_le_of_mem ha).trans hle
  · obtain ⟨b, hb, hle⟩ := hext.max
    exact hle.trans (Extremes.le_scan_max_of_mem hb)
  · intro v hv
    obtain ⟨i, hi, hsample⟩ := mem_considered.1 hv
    by_cases hin : i ∈ indices (t.startPoint w) (t.endPoint w)
    · have hmem : v ∈ t.windowSamples w := mem_considered.2 ⟨i, hin, hsample⟩
      exact ⟨Extremes.scan_min_le_of_mem hmem, Extremes.le_scan_max_of_mem hmem⟩
    · have hwithin := hext.newEnd i hi hin v (mem_considered_singleton.2 hsample)
      exact ⟨scan_min_le_of_within hwithin, le_scan_max_of_within hwithin⟩
  · calc (s.amps.scan _).min ≤ s.amps.min := Extremes.scan_min_le _ _
      _ ≤ (blank.scan (t.lastSamples s)).min := hmin
      _ ≤ blank.min := Extremes.scan_min_le _ _
  · calc blank.max ≤ (blank.scan (t.lastSamples s)).max := Extremes.le_scan_max _ _
      _ ≤ s.amps.max := hmax
      _ ≤ (s.amps.scan _).max := Extremes.le_scan_max _ _
  · intro v hv
    obtain ⟨i, hi, hsample⟩ := mem_considered.1 hv
    rcases index_cases (s := s) hi with hside | hin | ⟨rfl, hle, hlt⟩
    · exact hfound i v hsample (.inl hside)
    · exact hfound i v hsample (.inr hin)
    · have hothers : ∀ a ∈ t.considered (indices (t.startPoint w) s.stop ++
          indices (s.stop + 1) (t.endPoint w + 1)),
          (s.amps.scan (t.considered (t.sideIndices s w))).min ≤ a ∧
            a ≤ (s.amps.scan (t.considered (t.sideIndices s w))).max := by
        intro a ha
        obtain ⟨j, hj, haSample⟩ := mem_considered.1 ha
        apply hfound j a haSample
        unfold sideIndices
        rw [List.mem_append, List.mem_reverse]
        rw [List.mem_append] at hj
        simp only [mem_indices] at hj ⊢
        omega
      obtain ⟨⟨a, ha, hav⟩, b, hb, hvb⟩ :=
        hext.oldEnd hle hlt v (mem_considered_singleton.2 hsample)
      exact ⟨(hothers a ha).1.trans hav, hvb.trans (hothers b hb).2⟩

/-- Without new extrema the scan leaves what the last call left. -/
theorem scan_of_stays (hstays : t.Stays s w) :
    s.amps.scan (t.considered (t.sideIndices s w)) = s.amps := by
  change s.amps.scan _ = s.amps.scan []
  apply Extremes.scan_eq_scan
  · exact le_rfl
  · exact le_rfl
  · exact hstays.scanned
  · exact Extremes.scan_min_le _ _
  · exact Extremes.le_scan_max _ _
  · exact fun _ hw => absurd hw List.not_mem_nil

/-- The extrema of the window are those of the last one. -/
theorem blank_scan_of_stays (hstays : t.Stays s w) (hstart : t.startPoint w ≤ s.start)
    (hstop : s.stop ≤ t.endPoint w) :
    blank.scan (t.windowSamples w) = blank.scan (t.lastSamples s) := by
  apply Extremes.scan_eq_scan
  · exact Extremes.scan_min_le _ _
  · exact Extremes.le_scan_max _ _
  · intro v hv
    have hwithin := hstays.samples v hv
    exact ⟨scan_min_le_of_within hwithin, le_scan_max_of_within hwithin⟩
  · exact Extremes.scan_min_le _ _
  · exact Extremes.le_scan_max _ _
  · intro v hv
    obtain ⟨i, hi, hsample⟩ := mem_considered.1 hv
    have hmem : v ∈ t.windowSamples w := by
      refine mem_considered.2 ⟨i, ?_, hsample⟩
      simp only [mem_indices] at hi ⊢
      omega
    exact ⟨Extremes.scan_min_le_of_mem hmem, Extremes.le_scan_max_of_mem hmem⟩

/-- A call that scans the whole window does not depend on the calls before. -/
theorem getMagMaxMins_of_not_zoomOUT {s : MagState} {c : MagCall} (hzoom : ¬t.zoomOUT s c)
    (s' : MagState) : t.getMagMaxMins s c = t.getMagMaxMins s' ⟨true, c.window⟩ := by
  have hzoom' : ¬t.zoomOUT s' ⟨true, c.window⟩ := fun h => absurd h.1 nofun
  unfold getMagMaxMins
  simp only [if_neg hzoom, if_neg hzoom']

theorem cached_of_full {s' s₁ : MagState} {c : MagCall}
    (h : t.getMagMaxMins s' ⟨true, c.window⟩ = some s₁) : t.Cached s₁ := by
  have hzoom : ¬t.zoomOUT s' ⟨true, c.window⟩ := fun h => absurd h.1 nofun
  unfold getMagMaxMins at h
  simp only [if_neg hzoom] at h
  split_ifs at h
  · obtain rfl := Option.some.inj h
    exact .inl ⟨rfl, rfl⟩
  · obtain ⟨amps, hamps, rfl⟩ := Option.map_eq_some_iff.1 h
    obtain ⟨raw, hraw, hadjust⟩ := Option.bind_eq_some_iff.1 hamps
    obtain ⟨-, rfl⟩ := foldlM_scanSample.1 hraw
    exact .inr hadjust

/-- A call leaves what a full scan of its window leaves, whatever the calls before. -/
theorem getMagMaxMins_eq {s : MagState} {c : MagCall} (hs : t.Cached s) (hok : t.ZoomsRightly s c)
    (s' : MagState) : t.getMagMaxMins s c = t.getMagMaxMins s' ⟨true, c.window⟩ := by
  by_cases hzoom : t.zoomOUT s c
  · obtain ⟨hexist, hcase⟩ := hok hzoom
    have hpos := hzoom.2.1
    obtain ⟨hstart, hstop⟩ := hzoom.2.2.1
    have hlast : t.adjust (blank.scan (t.lastSamples s)) = some s.amps := by
      refine hs.resolve_left fun hzero => ?_
      omega
    have hzoom' : ¬t.zoomOUT s' ⟨true, c.window⟩ := fun h => absurd h.1 nofun
    have hside : (t.sideIndices s c.window).foldlM t.scanSample s.amps =
        some (s.amps.scan (t.considered (t.sideIndices s c.window))) :=
      foldlM_scanSample.2 ⟨fun i hi => hexist i (List.mem_append_right _ hi), rfl⟩
    have hfull : (indices (t.startPoint c.window) (t.endPoint c.window)).foldlM t.scanSample blank =
        some (blank.scan (t.windowSamples c.window)) :=
      foldlM_scanSample.2 ⟨fun i hi => hexist i (List.mem_append_left _ hi), rfl⟩
    have hadjust : t.adjust (s.amps.scan (t.considered (t.sideIndices s c.window))) =
        t.adjust (blank.scan (t.windowSamples c.window)) := by
      rcases hcase with hext | hstays
      · rw [scan_of_extends hlast hext]
      · rw [scan_of_stays hstays, blank_scan_of_stays hstays hstart hstop, hlast, hstays.adjusted]
    unfold getMagMaxMins
    simp only [if_pos hzoom, if_neg hzoom', hside, hfull, Option.bind_some, hadjust]
  · exact getMagMaxMins_of_not_zoomOUT hzoom s'

theorem cached_getMagMaxMins {s s₁ : MagState} {c : MagCall} (hs : t.Cached s)
    (hok : t.ZoomsRightly s c) (h : t.getMagMaxMins s c = some s₁) : t.Cached s₁ := by
  rw [getMagMaxMins_eq hs hok s] at h
  exact cached_of_full h

end MagTrace

/-- After any calls, of which those that extend the extrema meet the condition, the next call leaves
what a full scan of its window alone leaves. -/
theorem magnify_extrema (t : MagTrace) (amps : Extremes ℚ) (calls : List MagCall) (c : MagCall)
    (hok : Allowed t.getMagMaxMins t.ZoomsRightly ⟨0, 0, amps⟩ (calls ++ [c])) (s : MagState)
    (hrun : calls.foldlM t.getMagMaxMins ⟨0, 0, amps⟩ = some s) :
    t.getMagMaxMins s c = t.getMagMaxMins ⟨0, 0, amps⟩ ⟨true, c.window⟩ := by
  have hs : t.Cached s := by
    apply run_preserves (P := t.Cached) _ (.inl ⟨rfl, rfl⟩) hok.of_append hrun
    exact fun s c s' hs hok h => MagTrace.cached_getMagMaxMins hs hok h
  exact MagTrace.getMagMaxMins_eq hs (hok.last hrun) _

/-- A trace with one sample per second that rises twice. -/
def risingTrace : MagTrace where
  samples := [0, 1, 2, 3, 4, 9, 5]
  isDouble := by decide +kernel
  numGaps := 0
  counts := false
  sampInt := 1000000

/-- The window from the second to the fourth sample, then one that contains it. -/
theorem magnify_extrema_zoom :
    risingTrace.getMagMaxMins ⟨2, 4, ⟨2, 3⟩⟩ ⟨false, ⟨1, 6⟩⟩ =
      risingTrace.getMagMaxMins ⟨0, 0, ⟨0, 0⟩⟩ ⟨true, ⟨1, 6⟩⟩ := by
  have hfirst : risingTrace.getMagMaxMins ⟨0, 0, ⟨0, 0⟩⟩ ⟨true, ⟨2, 4⟩⟩ = some ⟨2, 4, ⟨2, 3⟩⟩ := by
    decide +kernel
  apply magnify_extrema risingTrace ⟨0, 0⟩ [⟨true, ⟨2, 4⟩⟩] ⟨false, ⟨1, 6⟩⟩
  · refine ⟨fun hzoom => absurd hzoom.1 nofun, fun s hs => ⟨fun _ => ?_, fun _ _ => trivial⟩⟩
    obtain rfl := Option.some.inj (hfirst.symm.trans hs)
    refine ⟨by decide +kernel, .inl ⟨?_, ?_, ?_, ?_⟩⟩ <;> decide +kernel
  · rw [List.foldlM_cons, hfirst]
    rfl

/-- A trace of threes, then fives. -/
def steppedTrace : MagTrace where
  samples := [3, 3, 3, 3, 5, 5, 3]
  isDouble := by decide +kernel
  numGaps := 0
  counts := false
  sampInt := 1000000

/-- The extrema of the flat part, set apart, stay when the window is enlarged. -/
theorem steppedTrace_keeps_widened :
    [MagCall.mk true ⟨2, 4⟩, ⟨false, ⟨1, 5⟩⟩].foldlM steppedTrace.getMagMaxMins ⟨0, 0, ⟨0, 0⟩⟩ =
        some ⟨1, 5, ⟨2, 5⟩⟩ ∧
      steppedTrace.getMagMaxMins ⟨0, 0, ⟨0, 0⟩⟩ ⟨true, ⟨1, 5⟩⟩ = some ⟨1, 5, ⟨3, 5⟩⟩ := by
  decide +kernel

end PQL
