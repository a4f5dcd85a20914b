import PQL.Lib.Coverage
import PQL.Mseed.Group

/-!
# Assembly of segments on one grid

In exact arithmetic, `getMseedTrace` lays segments of one sampling grid out as `assembled` does,
lists the gaps as maximal uncovered runs and records each overlap (`Assembles`), except for one
case: an overlapping segment that ends one sample after the running end is taken for a full overlap,
and its last sample is lost.  So it assembles a list of segments exactly when there is no such
segment in it (`getMseedTrace_assembles_iff`).
-/

namespace PQL

section Assembly

variable {α : Type}

/-- The segment `trc` of a group holds the samples of `g` on the grid `t0 + k * dt`. -/
structure OnGrid (t0 dt : ℚ) (g : Segment α) (trc : MSTrace α) : Prop where
  starttime : trc.starttime = t0 + g.start * dt
  endtime : trc.endtime = trc.starttime + (g.samples.length - 1) * dt
  samplecnt : trc.samplecnt = g.samples.length
  datasamples : trc.datasamples = g.samples

/-- The overlap record of a segment after the segments `pre`. -/
def overlapRecord (pre : List (Segment α)) (g : Segment α) : Overlap α where
  bounds := (g.start, g.start + coveredCount pre g)
  len := coveredCount pre g
  data := g.samples.take (coveredCount pre g)

/-- The overlap records of the segments `gs` after the segments `pre`: one for each segment that
begins at or before the running maximum end. -/
def overlapRecords (pre : List (Segment α)) : List (Segment α) → List (Overlap α)
  | [] => []
  | g :: gs =>
    (if g.start < extent pre then [overlapRecord pre g] else []) ++ overlapRecords (pre ++ [g]) gs

/-- What the trace should hold after the segments `gs`. -/
structure Assembles [Zero α] (gs : List (Segment α)) (s : MseedState α) : Prop where
  totSamp : s.totSamp = extent gs
  data : s.data = assembled gs
  gaps : ∃ runs : List (ℕ × ℕ), s.gaps = runs.map (fun r => ((r.1 : ℤ), (r.2 : ℤ))) ∧
    MaximalRuns (fun i => ¬ covered gs i) (extent gs) runs
  overlaps : s.olapData = overlapRecords [] gs

/-- A segment that overlaps those before it and ends one sample after them. -/
def EndsOneAfter (pre : List (Segment α)) (g : Segment α) : Prop :=
  g.start < extent pre ∧ g.stop = extent pre + 1

instance (pre : List (Segment α)) (g : Segment α) : Decidable (EndsOneAfter pre g) :=
  inferInstanceAs (Decidable (_ ∧ _))

/-- The number of such segments in a list. -/
def lostSamples (pre : List (Segment α)) : List (Segment α) → ℕ
  | [] => 0
  | g :: gs => (if EndsOneAfter pre g then 1 else 0) + lostSamples (pre ++ [g]) gs

theorem lostSamples_eq_zero_iff (pre gs : List (Segment α)) :
    lostSamples pre gs = 0 ↔
      ∀ before g after, gs = before ++ g :: after → ¬ EndsOneAfter (pre ++ before) g := by
  induction gs generalizing pre with
  | nil => exact iff_of_true rfl fun before g after h => absurd h (by simp)
  | cons g gs ih =>
    unfold lostSamples
    rw [Nat.add_eq_zero_iff, ih]
    constructor
    · rintro ⟨hg, hgs⟩ before h after heq
      cases before with
      | nil =>
        obtain ⟨rfl, rfl⟩ := List.cons.inj heq
        rw [List.append_nil]
        intro hends
        rw [if_pos hends] at hg
        exact absurd hg one_ne_zero
      | cons b before =>
        obtain ⟨rfl, hrest⟩ := List.cons.inj heq
        rw [← List.singleton_append, ← List.append_assoc]
        exact hgs before h after hrest
    · intro h
      refine ⟨if_neg fun hends => h [] g gs rfl (by rwa [List.append_nil]), ?_⟩
      intro before b after heq
      have := h (g :: before) b after (by rw [heq]; rfl)
      rwa [← List.singleton_append, ← List.append_assoc] at this

/-! ## One segment -/

theorem grid_lt_iff {t0 dt : ℚ} (hdt : 0 < dt) (x y : ℤ) :
    t0 + x * dt < t0 + y * dt ↔ x < y := by
  rw [add_lt_add_iff_left, mul_lt_mul_iff_left₀ hdt, Int.cast_lt]

theorem grid_le_iff {t0 dt : ℚ} (hdt : 0 < dt) (x y : ℤ) :
    t0 + x * dt ≤ t0 + y * dt ↔ x ≤ y := by
  rw [add_le_add_iff_left, mul_le_mul_iff_left₀ hdt, Int.cast_le]

/-- The running end of the segments so far is the grid index before `m`, and the samples so far are
those in `data`. -/
structure Reaches (t0 dt : ℚ) (m : ℕ) (s : MseedState α) : Prop where
  sampInt : s.head.sampInt = dt
  prevEndT : s.prevEndT = t0 + ((m : ℤ) - 1 : ℤ) * dt
  totSamp : s.totSamp = s.data.length

variable {t0 dt : ℚ} {m : ℕ} {s : MseedState α} {g : Segment α} {trc : MSTrace α}

theorem Reaches.next (hs : Reaches t0 dt m s) : s.prevEndT + dt = t0 + (m : ℤ) * dt := by
  rw [hs.prevEndT]
  push_cast
  ring

theorem OnGrid.start (hg : OnGrid t0 dt g trc) : trc.starttime = t0 + (g.start : ℤ) * dt := by
  rw [hg.starttime, Int.cast_natCast]

theorem OnGrid.stop (hg : OnGrid t0 dt g trc) :
    trc.endtime = t0 + ((g.stop : ℤ) - 1 : ℤ) * dt := by
  rw [hg.endtime, hg.starttime, Segment.stop]
  push_cast
  ring

theorem starttime_lt_iff (hdt : 0 < dt) (hs : Reaches t0 dt m s) (hg : OnGrid t0 dt g trc) :
    trc.starttime < s.prevEndT + s.head.sampInt ↔ g.start < m := by
  rw [hs.sampInt, hs.next, hg.start, grid_lt_iff hdt, Nat.cast_lt]

theorem starttime_gt_iff (hdt : 0 < dt) (hs : Reaches t0 dt m s) (hg : OnGrid t0 dt g trc) :
    trc.starttime > s.prevEndT + s.head.sampInt ↔ m < g.start := by
  rw [hs.sampInt, hs.next, hg.start, gt_iff_lt, grid_lt_iff hdt, Nat.cast_lt]

theorem endtime_le_iff (hdt : 0 < dt) (hs : Reaches t0 dt m s) (hg : OnGrid t0 dt g trc) :
    trc.endtime ≤ s.prevEndT + s.head.sampInt ↔ g.stop ≤ m + 1 := by
  rw [hs.sampInt, hs.next, hg.stop, grid_le_iff hdt]
  omega

theorem endtime_gt_iff (hdt : 0 < dt) (hs : Reaches t0 dt m s) (hg : OnGrid t0 dt g trc) :
    trc.endtime > s.prevEndT ↔ m < g.stop := by
  rw [hs.prevEndT, hg.stop, gt_iff_lt, grid_lt_iff hdt]
  omega

/-- The number of overlap points of a segment that starts before the end. -/
theorem olap_quotient (hdt : 0 < dt) (hs : Reaches t0 dt m s) (hg : OnGrid t0 dt g trc)
    (h : g.start < m) :
    quotient (exactArith.hptime (-1 * (trc.starttime - (s.prevEndT + s.head.sampInt))))
      s.head.sampInt = some ((m - g.start : ℕ) : ℤ) := by
  have hspan : -1 * (trc.starttime - (s.prevEndT + s.head.sampInt)) =
      (((m - g.start : ℕ) : ℤ) : ℚ) * dt := by
    rw [hs.sampInt, hs.next, hg.start, Int.cast_natCast, Nat.cast_sub h.le]
    push_cast
    ring
  rw [exactArith_hptime, hspan, hs.sampInt, quotient_mul_self hdt.ne']

/-- The number of points of the gap before a segment that starts beyond the end. -/
theorem gap_quotient (hdt : 0 < dt) (hs : Reaches t0 dt m s) (hg : OnGrid t0 dt g trc)
    (h : m < g.start) :
    quotient (exactArith.hptime ((trc.starttime - s.prevEndT) - s.head.sampInt)) s.head.sampInt =
      some ((g.start - m : ℕ) : ℤ) := by
  have hspan : (trc.starttime - s.prevEndT) - s.head.sampInt =
      (((g.start - m : ℕ) : ℤ) : ℚ) * dt := by
    rw [hs.sampInt, hg.start, hs.prevEndT, Int.cast_natCast, Nat.cast_sub h.le]
    push_cast
    ring
  rw [exactArith_hptime, hspan, hs.sampInt, quotient_mul_self hdt.ne']

/-- The record that the loop makes of an overlap: a segment that ends at most one sample after the
end counts as a full overlap. -/
def loopRecord (m : ℕ) (s : MseedState α) (g : Segment α) : Overlap α :=
  let len := if g.stop ≤ m + 1 then g.samples.length else m - g.start
  let start := s.totSamp - (m - g.start : ℕ)
  { bounds := (start, start + len), len := len, data := g.samples.take len }

/-- What the overlap branch does to a segment on the grid. -/
theorem recordOverlap_exact (hdt : 0 < dt) (hs : Reaches t0 dt m s) (hg : OnGrid t0 dt g trc) :
    ∃ log, recordOverlap exactArith s trc =
      ({ s with
          olapData := s.olapData ++ if g.start < m then [loopRecord m s g] else []
          log := log },
        if g.start < m then if g.stop ≤ m + 1 then 0 else (g.samples.length - (m - g.start : ℕ) : ℤ)
          else g.samples.length,
        if g.start < m then if g.stop ≤ m + 1 then 0 else ((m - g.start : ℕ) : ℤ) else 0) := by
  unfold recordOverlap
  simp only [starttime_lt_iff hdt hs hg, endtime_le_iff hdt hs hg, hg.samplecnt, hg.datasamples]
  by_cases h : g.start < m
  · by_cases hfull : g.stop ≤ m + 1
    · simp only [if_pos h, if_pos hfull, olap_quotient hdt hs hg h, MseedState.note, loopRecord,
        exactArith_int, exactArith_ofQuotient_some, Int.toNat_natCast]
      exact ⟨_, rfl⟩
    · simp only [if_pos h, if_neg hfull, olap_quotient hdt hs hg h, MseedState.note, loopRecord,
        exactArith_int, exactArith_ofQuotient_some, Int.toNat_natCast]
      exact ⟨_, rfl⟩
  · simp only [if_neg h, MseedState.note, List.append_nil, exactArith_int]
    exact ⟨_, rfl⟩

/-- What the gap branch does to a segment on the grid. -/
theorem fillGap_exact [Zero α] (hdt : 0 < dt) (hs : Reaches t0 dt m s) (hg : OnGrid t0 dt g trc)
    (copySamples : ℤ) :
    ∃ log mem, fillGap exactArith s trc copySamples =
      { s with
        totSamp := s.totSamp + (g.start - m : ℕ)
        data := s.data ++ List.replicate (g.start - m) 0
        gaps := s.gaps ++ if m < g.start then [(s.totSamp, s.totSamp + (g.start - m : ℕ))] else []
        ttlMemAlloc := mem
        log := log } := by
  unfold fillGap
  simp only [starttime_gt_iff hdt hs hg]
  by_cases h : m < g.start
  · have htake : s.data.take s.totSamp.toNat = s.data := by
      rw [hs.totSamp, Int.toNat_natCast, List.take_length]
    simp only [if_pos h, gap_quotient hdt hs hg h, MseedState.fill, MseedState.note,
      MseedState.reserve, MseedState.write, exactArith_int, exactArith_ofQuotient_some,
      Int.toNat_natCast, htake]
    exact ⟨_, _, rfl⟩
  · have hzero : g.start - m = 0 := by omega
    simp only [if_neg h, hzero, List.append_nil, List.replicate_zero, Nat.cast_zero, add_zero]
    exact ⟨_, _, rfl⟩

/-- What the copy does in exact arithmetic. -/
theorem copySegment_exact (trc : MSTrace α) (hs : s.totSamp = s.data.length)
    (copySamples copyStart : ℕ) :
    ∃ log mem, copySegment exactArith s trc copySamples copyStart =
      { s with
        totSamp := s.totSamp + copySamples
        data := s.data ++ (trc.datasamples.drop copyStart).take copySamples
        ttlMemAlloc := mem
        log := log } := by
  unfold copySegment
  by_cases h : (copySamples : ℤ) = 0
  · have hzero : copySamples = 0 := Nat.cast_eq_zero.1 h
    simp only [hzero, MseedState.reserve, List.take_zero, List.append_nil, Nat.cast_zero,
      add_zero]
    exact ⟨_, _, rfl⟩
  · have htake : s.data.take s.totSamp.toNat = s.data := by
      rw [hs, Int.toNat_natCast, List.take_length]
    simp only [if_neg h, MseedState.reserve, MseedState.write, exactArith_int, Int.toNat_natCast,
      htake]
    exact ⟨_, _, rfl⟩

/-- The samples that the loop keeps of a segment. -/
def keptSamples (m : ℕ) (g : Segment α) : List α :=
  if g.start < m ∧ g.stop ≤ m + 1 then [] else g.samples.drop (m - g.start)

/-- What the loop does with a segment on the grid. -/
theorem nextSegment_exact [Zero α] (hdt : 0 < dt) (hs : Reaches t0 dt m s)
    (hg : OnGrid t0 dt g trc) :
    ∃ log mem, nextSegment exactArith s trc =
      { s with
        totSamp := s.totSamp + (g.start - m : ℕ) + (keptSamples m g).length
        prevEndT := t0 + ((max m g.stop : ℕ) - 1 : ℤ) * dt
        data := s.data ++ List.replicate (g.start - m) 0 ++ keptSamples m g
        gaps := s.gaps ++ if m < g.start then [(s.totSamp, s.totSamp + (g.start - m : ℕ))] else []
        olapData := s.olapData ++ if g.start < m then [loopRecord m s g] else []
        ttlMemAlloc := mem
        log := log } := by
  obtain ⟨log₁, h₁⟩ := recordOverlap_exact hdt hs hg
  have hcopy : ∃ n k : ℕ, (recordOverlap exactArith s trc).2 = ((n : ℤ), (k : ℤ)) ∧
      (g.samples.drop k).take n = keptSamples m g ∧ n = (keptSamples m g).length := by
    rw [h₁]
    unfold keptSamples
    by_cases h : g.start < m
    · by_cases hfull : g.stop ≤ m + 1
      · exact ⟨0, 0, by simp [h, hfull], by simp [h, hfull], by simp [h, hfull]⟩
      · have hlen : m - g.start ≤ g.samples.length := by
          rw [Segment.stop] at hfull
          omega
        refine ⟨g.samples.length - (m - g.start), m - g.start, ?_, ?_, ?_⟩
        · simp only [if_pos h, if_neg hfull, Nat.cast_sub hlen]
        · rw [if_neg fun hc => hfull hc.2]
          exact List.take_of_length_le (by rw [List.length_drop])
        · rw [if_neg fun hc => hfull hc.2, List.length_drop]
    · have hzero : m - g.start = 0 := by omega
      refine ⟨g.samples.length, 0, ?_, ?_, ?_⟩
      · simp only [if_neg h, Nat.cast_zero]
      · rw [if_neg fun hc => h hc.1, hzero, List.drop_zero, List.take_length]
      · rw [if_neg fun hc => h hc.1, hzero, List.drop_zero]
  obtain ⟨n, k, hnk, hsamples, hn⟩ := hcopy
  have hrecord : recordOverlap exactArith s trc =
      ({ s with
          olapData := s.olapData ++ if g.start < m then [loopRecord m s g] else []
          log := log₁ }, (n : ℤ), (k : ℤ)) := Prod.ext (by rw [h₁]) hnk
  obtain ⟨log₂, mem₂, h₂⟩ := fillGap_exact (s := { s with
    olapData := s.olapData ++ if g.start < m then [loopRecord m s g] else []
    log := log₁ }) hdt ⟨hs.sampInt, hs.prevEndT, hs.totSamp⟩ hg n
  obtain ⟨log₃, mem₃, h₃⟩ := copySegment_exact trc (s := { s with
    olapData := s.olapData ++ if g.start < m then [loopRecord m s g] else []
    totSamp := s.totSamp + (g.start - m : ℕ)
    data := s.data ++ List.replicate (g.start - m) 0
    gaps := s.gaps ++ if m < g.start then [(s.totSamp, s.totSamp + (g.start - m : ℕ))] else []
    ttlMemAlloc := mem₂
    log := log₂ }) (by
      simp only [List.length_append, List.length_replicate, Nat.cast_add, hs.totSamp]) n k
  have hend : (if trc.endtime > s.prevEndT then trc.endtime else s.prevEndT) =
      t0 + ((max m g.stop : ℕ) - 1 : ℤ) * dt := by
    by_cases h : m < g.stop
    · rw [if_pos ((endtime_gt_iff hdt hs hg).2 h), hg.stop, max_eq_right h.le]
    · rw [if_neg (mt (endtime_gt_iff hdt hs hg).1 h), hs.prevEndT, max_eq_left (not_lt.1 h)]
  refine ⟨log₃, mem₃, ?_⟩
  unfold nextSegment
  simp only [hrecord, h₂, h₃, hg.datasamples, hsamples, ← hn, hend]

/-! ## The whole list -/

/-- The state after the segments `pre`, of which `lost` samples are missing. -/
structure After (t0 dt : ℚ) (pre : List (Segment α)) (lost : ℕ) (s : MseedState α) : Prop where
  reaches : Reaches t0 dt (extent pre) s
  totSamp : s.totSamp + lost = extent pre

theorem extent_concat (pre : List (Segment α)) (g : Segment α) :
    extent (pre ++ [g]) = max (extent pre) g.stop := by
  rw [extent_append, extent_singleton]

/-- Each segment that ends one sample after the running end loses one sample. -/
theorem After.next [Zero α] {pre : List (Segment α)} {lost : ℕ} (hdt : 0 < dt)
    (hs : After t0 dt pre lost s) (hg : OnGrid t0 dt g trc) :
    After t0 dt (pre ++ [g]) (lost + if EndsOneAfter pre g then 1 else 0)
      (nextSegment exactArith s trc) := by
  obtain ⟨log, mem, hnext⟩ := nextSegment_exact hdt hs.reaches hg
  have htot := hs.totSamp
  have hdata := hs.reaches.totSamp
  have hstop : g.stop = g.start + g.samples.length := rfl
  rw [hnext]
  refine ⟨⟨hs.reaches.sampInt, by rw [extent_concat], ?_⟩, ?_⟩
  · simp only [List.length_append, List.length_replicate]
    omega
  · simp only [extent_concat]
    unfold keptSamples
    by_cases hends : EndsOneAfter pre g
    · have hmax : max (extent pre) g.stop = g.stop := max_eq_right (by have := hends.2; omega)
      have hgap : g.start - extent pre = 0 := by have := hends.1; omega
      rw [if_pos hends, if_pos ⟨hends.1, hends.2.le⟩, hmax, hgap, hends.2, List.length_nil]
      omega
    · have hne : g.start < extent pre → g.stop ≠ extent pre + 1 := fun h₁ h₂ => hends ⟨h₁, h₂⟩
      rw [if_neg hends]
      by_cases hfull : g.start < extent pre ∧ g.stop ≤ extent pre + 1
      · have hmax : max (extent pre) g.stop = extent pre :=
          max_eq_left (by have := hne hfull.1; omega)
        rw [if_pos hfull, hmax, List.length_nil]
        omega
      · have hmax : max (extent pre) g.stop = g.stop := max_eq_right (by omega)
        rw [if_neg hfull, hmax, List.length_drop]
        omega

theorem overlapRecords_concat (pre gs : List (Segment α)) (g : Segment α) :
    overlapRecords pre (gs ++ [g]) = overlapRecords pre gs ++
      if g.start < extent (pre ++ gs) then [overlapRecord (pre ++ gs) g] else [] := by
  induction gs generalizing pre with
  | nil => simp [overlapRecords]
  | cons h gs ih => simp [overlapRecords, ih]

/-- Without such a segment, the loop keeps exactly the samples that are not covered yet. -/
theorem keptSamples_eq {pre : List (Segment α)} (hends : ¬ EndsOneAfter pre g) :
    keptSamples (extent pre) g = g.samples.drop (extent pre - g.start) := by
  unfold keptSamples
  by_cases h : g.start < extent pre ∧ g.stop ≤ extent pre + 1
  · have hne : g.stop ≠ extent pre + 1 := fun he => hends ⟨h.1, he⟩
    have hlt : g.stop ≤ extent pre := by omega
    rw [Segment.stop] at hlt
    rw [if_pos h, List.drop_eq_nil_of_le (by omega)]
  · rw [if_neg h]

theorem loopRecord_eq {pre : List (Segment α)} (hstart : ∀ h ∈ pre, h.start ≤ g.start)
    (hends : ¬ EndsOneAfter pre g) (hlt : g.start < extent pre) (hs : s.totSamp = extent pre) :
    loopRecord (extent pre) s g = overlapRecord pre g := by
  have hlen : (if g.stop ≤ extent pre + 1 then g.samples.length else extent pre - g.start) =
      coveredCount pre g := by
    have hstop : g.stop = g.start + g.samples.length := rfl
    have hne : g.stop ≠ extent pre + 1 := fun he => hends ⟨hlt, he⟩
    rw [coveredCount_eq hstart]
    split_ifs <;> omega
  have hbound : (extent pre : ℤ) - (extent pre - g.start : ℕ) = g.start := by omega
  simp only [loopRecord, overlapRecord, hlen, hs, hbound]

/-- One segment that loses nothing keeps the trace as it should be. -/
theorem Assembles.next [Zero α] {pre : List (Segment α)} (hdt : 0 < dt) (hne : pre ≠ [])
    (hstart : ∀ h ∈ pre, h.start ≤ g.start) (hends : ¬ EndsOneAfter pre g)
    (hreach : Reaches t0 dt (extent pre) s) (hs : Assembles pre s) (hg : OnGrid t0 dt g trc) :
    Assembles (pre ++ [g]) (nextSegment exactArith s trc) := by
  obtain ⟨log, mem, hnext⟩ := nextSegment_exact hdt hreach hg
  obtain ⟨runs, hgaps, hruns⟩ := hs.gaps
  have hdata : s.data ++ List.replicate (g.start - extent pre) 0 ++ keptSamples (extent pre) g =
      assembled (pre ++ [g]) := by
    rw [hs.data, keptSamples_eq hends, List.append_assoc, assembled_concat hstart]
  rw [hnext]
  refine ⟨?_, hdata, ⟨_, ?_, hruns.concat hne hstart⟩, ?_⟩
  · have hlen := congrArg List.length hdata
    rw [length_assembled, List.length_append, List.length_append, List.length_replicate] at hlen
    have := hreach.totSamp
    simp only []
    omega
  · rw [hgaps, List.map_append]
    by_cases hgap : extent pre < g.start
    · have hadd : (extent pre : ℤ) + (g.start - extent pre : ℕ) = g.start := by omega
      simp only [if_pos hgap, hs.totSamp, hadd, List.map_cons, List.map_nil]
    · simp only [if_neg hgap, List.map_nil]
  · rw [overlapRecords_concat, ← hs.overlaps, List.nil_append]
    by_cases hlt : g.start < extent pre
    · simp only [if_pos hlt, loopRecord_eq hstart hends hlt hs.totSamp]
    · simp only [if_neg hlt]

/-- The state after the first segment. -/
theorem firstSegment_exact [Zero α] (hg : OnGrid t0 dt g trc) (h0 : g.start = 0)
    (hint : (setSampling s.head trc).sampInt = dt) (hgaps : s.gaps = [])
    (holaps : s.olapData = []) :
    After t0 dt [g] 0 (firstSegment exactArith s trc) ∧
      Assembles [g] (firstSegment exactArith s trc) := by
  have hstop : g.stop = g.samples.length := by rw [Segment.stop, h0, Nat.zero_add]
  have hfirst : ∃ log mem, firstSegment exactArith s trc =
      { s with
        head := { setSampling s.head trc with startTime := trc.starttime }
        prevEndT := trc.endtime
        totSamp := g.samples.length
        data := g.samples
        ttlMemAlloc := mem
        log := log } := by
    simp only [firstSegment, MseedState.reserve, MseedState.write, exactArith_int, hg.samplecnt,
      hg.datasamples, List.take_length, Int.toNat_zero, List.take_zero, List.nil_append, zero_add]
    exact ⟨_, _, rfl⟩
  obtain ⟨log, mem, heq⟩ := hfirst
  have hlast : assembled [g] = g.samples := by
    have hnil : ∀ h ∈ ([] : List (Segment α)), h.start ≤ g.start := by simp
    have hconcat := assembled_concat hnil
    simpa [assembled, h0] using hconcat
  rw [heq]
  refine ⟨⟨⟨hint, ?_, rfl⟩, ?_⟩, ⟨?_, hlast.symm, ⟨[], hgaps, ?_⟩, ?_⟩⟩
  · rw [extent_singleton]
    exact hg.stop
  · rw [extent_singleton, hstop, Nat.cast_zero, add_zero]
  · rw [extent_singleton, hstop]
  · refine ⟨by simp, List.Pairwise.nil, fun i => ?_⟩
    constructor
    · rintro ⟨b, hb, -⟩
      exact absurd hb List.not_mem_nil
    · rintro ⟨hi, hnot⟩
      rw [extent_singleton] at hi
      exact absurd ((covered_iff [g] i).2 ⟨g, List.mem_cons_self, by omega, hi⟩) hnot
  · rw [holaps, overlapRecords]
    simp [overlapRecords, extent]

theorem After.run [Zero α] {pre gs : List (Segment α)} {lost : ℕ} {trcs : List (MSTrace α)}
    (hdt : 0 < dt) (hs : After t0 dt pre lost s) (hgrid : List.Forall₂ (OnGrid t0 dt) gs trcs) :
    After t0 dt (pre ++ gs) (lost + lostSamples pre gs)
      (trcs.foldl (nextSegment exactArith) s) := by
  induction hgrid generalizing pre lost s with
  | nil => simpa [lostSamples] using hs
  | cons hg _ ih =>
    have := ih (hs.next hdt hg)
    rwa [List.append_assoc, List.singleton_append, add_assoc] at this

theorem Assembles.run [Zero α] {pre gs : List (Segment α)} {trcs : List (MSTrace α)}
    (hdt : 0 < dt) (hne : pre ≠ []) (hsorted : (pre ++ gs).Pairwise fun g h => g.start ≤ h.start)
    (hlost : lostSamples pre gs = 0) (hafter : After t0 dt pre 0 s) (hs : Assembles pre s)
    (hgrid : List.Forall₂ (OnGrid t0 dt) gs trcs) :
    Assembles (pre ++ gs) (trcs.foldl (nextSegment exactArith) s) := by
  induction hgrid generalizing pre s with
  | nil => simpa using hs
  | @cons g trc gs trcs hg _ ih =>
    obtain ⟨hends, hrest⟩ := Nat.add_eq_zero_iff.1 hlost
    have hends : ¬ EndsOneAfter pre g := fun h => by rw [if_pos h] at hends; cases hends
    have hstart : ∀ h ∈ pre, h.start ≤ g.start := fun h hh =>
      (List.pairwise_append.1 hsorted).2.2 h hh g List.mem_cons_self
    have hafter' := hafter.next hdt hg
    rw [if_neg hends] at hafter'
    rw [← List.singleton_append, ← List.append_assoc] at hsorted ⊢
    exact ih (by simp) hsorted hrest hafter'
      (hs.next hdt hne hstart hends hafter.reaches hg)

end Assembly

/-! ## Files -/

/-- A segment of one-second samples. -/
def secondSegment (start : ℕ) (samples : List ℤ) : MSTrace ℤ where
  id := ⟨"XX", "STA", "", "BHZ"⟩
  starttime := start * ONEMIL
  endtime := start * ONEMIL + (samples.length - 1) * ONEMIL
  samprate := 1
  sampletype := 'i'
  samplecnt := samples.length
  datasamples := samples

def secondHead : MseedHead := ⟨⟨"XX", "STA", "", "BHZ"⟩, ONEMIL, .BIT32, 0⟩

theorem onGrid_secondSegment (g : Segment ℤ) :
    OnGrid 0 ONEMIL g (secondSegment g.start g.samples) :=
  ⟨(zero_add _).symm, rfl, rfl, rfl⟩

end PQL
