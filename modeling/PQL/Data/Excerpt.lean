import PQL.Lib.Rounding
import PQL.Lib.Spans
import PQL.Mseed.Group
import PQL.Steim.Memory

/-!
# Excerpts

`traceExcerpt` copies a window of the samples of one trace into another one, or into the trace
itself, and cuts the gaps and overlaps to the window.  Traces are named by pointers into a heap of
traces, so that both cases are one function.  The cut arrays are the clipped ones only where every
gap and overlap lies outside the window or well inside it, and in place only where the window meets
none (`traceExcerpt_clips_iff`).
-/

namespace PQL

/-- The fields of a trace that excerpts use; `gaps` and `overlaps` are the arrays with their counts
and `data` is the block that holds the samples. -/
structure Trace where
  data_form : DataForm
  sampInt : ℚ
  epochs : ℚ
  epochStop : ℚ
  length : ℚ
  infoForm : DataForm
  infoSampInt : ℚ
  secsPsamp : ℚ
  numSamples : ℤ
  data : List Byte
  gaps : List Span
  overlaps : List Span
  excerptEpochS : ℚ
  excerptLength : ℚ

/-! ## Gaps and overlaps -/

/-- The loops of `manageGLaps`; they differ in the bound that is compared with `startSamp`. -/
def cutGlaps (bound : Span → ℤ) (startSamp endSamp : ℤ) : List Span → List Span
  | [] => []
  | g :: gs =>
    if bound g < startSamp then cutGlaps bound startSamp endSamp gs
    else if g.beg > endSamp then []
    else ⟨g.beg - startSamp,
        if g.fin > endSamp then endSamp - startSamp else g.fin - startSamp⟩ ::
      cutGlaps bound startSamp endSamp gs

def cutGaps (startSamp endSamp : ℤ) : List Span → List Span :=
  cutGlaps Span.fin startSamp endSamp

def cutOverlaps (startSamp endSamp : ℤ) : List Span → List Span :=
  cutGlaps Span.beg startSamp endSamp

section Heap

variable {ι : Type} [DecidableEq ι]

/-- The arrays of `from` are freed first if it is the same trace. -/
def manageGLaps (heap : ι → Trace) (src dst : ι) (startSamp endSamp : ℤ) : ι → Trace :=
  let gapIter := cutGaps startSamp endSamp (heap src).gaps
  let olapIter := cutOverlaps startSamp endSamp (heap src).overlaps
  let heap := if src = dst then
    Function.update heap src { heap src with gaps := [], overlaps := [] } else heap
  Function.update heap dst { heap dst with gaps := gapIter, overlaps := olapIter }

/-- `setNewHdr` takes the gaps and overlaps off the trace. -/
def setNewHdr (t : Trace) : Trace :=
  let length := roundTo 53 (roundTo 53 (t.numSamples * roundTo 53 (t.sampInt / ONEMIL)) -
    roundTo 53 (t.sampInt / ONEMIL))
  { t with
    gaps := []
    overlaps := []
    length
    epochStop := roundTo 53 (t.epochs + length) }

/-! ## The window -/

/-- The samples that an excerpt asks for. -/
structure Window where
  startSamp : ℤ
  /-- The number of samples before it is limited to what is there. -/
  wanted : ℤ
  numSamples : ℤ
  epochS : ℚ
deriving DecidableEq

/-- The first lines of `trace_excerpt`; `none` where a conversion to `int` overflows. -/
def excerptWindow (src dst : Trace) : Option Window :=
  if src.sampInt = 0 then none
  else
    (toInt (roundTo 53 (1000000 / src.sampInt))).bind fun sPs =>
    (toInt (roundTo 53 (roundTo 53 (dst.excerptEpochS - dst.epochs) * sPs))).bind fun startSamp =>
    (toInt (roundTo 24 (dst.excerptLength * roundTo 24 sPs))).bind fun numSamples =>
    let first := if startSamp < 0 then 0 else startSamp
    let rest := src.numSamples - first + 1
    some
      { startSamp := first
        wanted := numSamples
        numSamples := if numSamples > rest then rest else numSamples
        epochS := if startSamp < 0 then src.epochs else dst.excerptEpochS }

/-- `malloc` and `memcpy`: `none` where `malloc` fails, because the size has become negative, or
where the copy leaves one of the blocks. -/
def copySamples (data : List Byte) (size : ℕ) (w : Window) : Option (List Byte) :=
  let alloc := wrap32 (w.wanted * 4)
  if alloc < 0 then none
  else if w.startSamp < 0 ∨ w.numSamples < 0 ∨ alloc < w.numSamples * size ∨
    data.length < (w.startSamp + w.numSamples) * size then none
  else some ((data.drop (w.startSamp.toNat * size)).take (w.numSamples.toNat * size))

/-- The fields that are set before `setNewHdr`. -/
def excerptHead (t : Trace) (w : Window) (data : List Byte) : Trace :=
  { t with
    excerptEpochS := w.epochS
    data
    epochs := w.epochS
    numSamples := w.numSamples
    infoForm := t.data_form
    infoSampInt := t.sampInt
    secsPsamp := roundTo 53 (t.sampInt / ONEMIL) }

def traceExcerpt (heap : ι → Trace) (src dst : ι) : Option (ι → Trace) :=
  (excerptWindow (heap src) (heap dst)).bind fun w =>
  (copySamples (heap src).data (heap src).data_form.size w).bind fun data =>
    let heap := Function.update heap dst (setNewHdr (excerptHead (heap dst) w data))
    some (manageGLaps heap src dst w.startSamp (w.startSamp + w.numSamples - 1))

end Heap

/-! ## What the loops keep -/

/-- What a loop makes of one interval. -/
def cutOne (bound : Span → ℤ) (startSamp endSamp : ℤ) (g : Span) : Option Span :=
  if bound g < startSamp ∨ g.beg > endSamp then none
  else some ⟨g.beg - startSamp, if g.fin > endSamp then endSamp - startSamp else g.fin - startSamp⟩

/-- Stopping at the first interval behind the window is leaving out all of them. -/
theorem cutGlaps_eq_filterMap {n : ℤ} {gs : List Span} (hgs : Separated n gs)
    (bound : Span → ℤ) (startSamp endSamp : ℤ) :
    cutGlaps bound startSamp endSamp gs = gs.filterMap (cutOne bound startSamp endSamp) := by
  obtain ⟨hsorted, hinside⟩ := hgs
  induction gs with
  | nil => rfl
  | cons g gs ih =>
    obtain ⟨hg, hsorted⟩ := List.pairwise_cons.1 hsorted
    obtain ⟨hgn, hinside⟩ := List.forall_mem_cons.1 hinside
    rw [cutGlaps]
    by_cases hskip : bound g < startSamp
    · have hnone : cutOne bound startSamp endSamp g = none := if_pos (Or.inl hskip)
      rw [if_pos hskip, List.filterMap_cons_none hnone, ih hsorted hinside]
    · rw [if_neg hskip]
      by_cases hstop : g.beg > endSamp
      · have hnone : ∀ h ∈ g :: gs, cutOne bound startSamp endSamp h = none := by
          refine List.forall_mem_cons.2 ⟨if_pos (Or.inr hstop), fun h hh => if_pos (Or.inr ?_)⟩
          have := hg h hh
          omega
        rw [if_pos hstop, List.filterMap_eq_nil_iff.2 hnone]
      · have hsome : cutOne bound startSamp endSamp g = some ⟨g.beg - startSamp,
            if g.fin > endSamp then endSamp - startSamp else g.fin - startSamp⟩ :=
          if_neg (not_or.2 ⟨hskip, hstop⟩)
        rw [if_neg hstop, List.filterMap_cons_some hsome, ih hsorted hinside]

/-- A gap outside the window, or inside it and not at its end. -/
def GapKept (s m : ℤ) (g : Span) : Prop := g.fin < s ∨ s + m ≤ g.beg ∨ (s ≤ g.beg ∧ g.fin < s + m)

/-- An overlap that does not meet the window, or inside it and not at its end. -/
def OverlapKept (s m : ℤ) (g : Span) : Prop :=
  m = 0 ∨ g.fin ≤ s ∨ s + m ≤ g.beg ∨ (s ≤ g.beg ∧ g.fin < s + m)

instance (s m : ℤ) (g : Span) : Decidable (GapKept s m g) := inferInstanceAs (Decidable (_ ∨ _))

instance (s m : ℤ) (g : Span) : Decidable (OverlapKept s m g) :=
  inferInstanceAs (Decidable (_ ∨ _))

theorem cutOne_fin_iff {s m : ℤ} {g : Span} (hg : g.beg < g.fin) :
    cutOne Span.fin s (s + m - 1) g = g.clip s m ↔ GapKept s m g := by
  unfold cutOne Span.clip GapKept
  split_ifs <;> simp only [Option.some.injEq, Span.mk.injEq, true_iff, false_iff] <;> omega

theorem cutOne_beg_iff {s m : ℤ} {g : Span} (hm : 0 ≤ m) (hg : g.beg < g.fin) :
    cutOne Span.beg s (s + m - 1) g = g.clip s m ↔ OverlapKept s m g := by
  unfold cutOne Span.clip OverlapKept
  split_ifs <;> simp only [Option.some.injEq, Span.mk.injEq, true_iff, false_iff] <;> omega

/-- The gaps are clipped exactly if each one is kept. -/
theorem cutGaps_eq_clipAll_iff {n s m : ℤ} {gs : List Span} (hgs : Separated n gs) :
    cutGaps s (s + m - 1) gs = clipAll s m gs ↔ ∀ g ∈ gs, GapKept s m g := by
  rw [cutGaps, cutGlaps_eq_filterMap hgs, clipAll, filterMap_eq_filterMap_iff]
  · exact forall₂_congr fun g hg => cutOne_fin_iff (hgs.inside g hg).2.1
  · intro g _ hclip
    obtain ⟨h, hh⟩ := Option.isSome_iff_exists.1 hclip
    obtain ⟨hlt, -⟩ := Span.clip_eq_some_iff.1 hh
    rw [cutOne, if_neg (by omega)]
    rfl

theorem cutOverlaps_eq_clipAll_iff {n s m : ℤ} {gs : List Span} (hgs : Separated n gs)
    (hm : 0 ≤ m) :
    cutOverlaps s (s + m - 1) gs = clipAll s m gs ↔ ∀ g ∈ gs, OverlapKept s m g := by
  rw [cutOverlaps, cutGlaps_eq_filterMap hgs, clipAll, eq_comm, filterMap_eq_filterMap_iff]
  · exact forall₂_congr fun g hg => eq_comm.trans (cutOne_beg_iff hm (hgs.inside g hg).2.1)
  · intro g hg hcut
    obtain ⟨h, hh⟩ := Option.isSome_iff_exists.1 hcut
    rw [cutOne, Option.ite_none_left_eq_some] at hh
    have := (hgs.inside g hg).2.1
    rw [Span.clip, if_pos (by omega)]
    rfl

/-! ## Excerpts of a trace -/

section Excerpt

variable {ι : Type} [DecidableEq ι] {heap : ι → Trace} {src dst : ι} {w : Window}

/-- A loaded trace and a window of its samples. -/
structure ExcerptInput (heap : ι → Trace) (src dst : ι) (w : Window) : Prop where
  gaps : Separated (heap src).numSamples (heap src).gaps
  overlaps : Separated (heap src).numSamples (heap src).overlaps
  loaded : (heap src).numSamples * (heap src).data_form.size ≤ (heap src).data.length
  window : excerptWindow (heap src) (heap dst) = some w
  nonneg : 0 ≤ w.numSamples
  inside : w.startSamp + w.numSamples ≤ (heap src).numSamples

/-- The excerpt is made and its gaps and overlaps are those of the source, clipped. -/
structure Clips (heap : ι → Trace) (src dst : ι) (w : Window) (heap' : ι → Trace) : Prop where
  run : traceExcerpt heap src dst = some heap'
  gaps : (heap' dst).gaps = clipAll w.startSamp w.numSamples (heap src).gaps
  overlaps : (heap' dst).overlaps = clipAll w.startSamp w.numSamples (heap src).overlaps
  gaps_inside : Separated w.numSamples (heap' dst).gaps
  overlaps_inside : Separated w.numSamples (heap' dst).overlaps

theorem excerptWindow_startSamp {t t' : Trace} (h : excerptWindow t t' = some w) :
    0 ≤ w.startSamp := by
  unfold excerptWindow at h
  split_ifs at h
  obtain ⟨sPs, -, h⟩ := Option.bind_eq_some_iff.1 h
  obtain ⟨startSamp, -, h⟩ := Option.bind_eq_some_iff.1 h
  obtain ⟨numSamples, -, h⟩ := Option.bind_eq_some_iff.1 h
  rw [← Option.some_inj.1 h]
  show 0 ≤ if startSamp < 0 then 0 else startSamp
  split_ifs <;> omega

omit [DecidableEq ι] in
/-- The copy succeeds if the block holds as many bytes as are there. -/
theorem copySamples_isSome (h : ExcerptInput heap src dst w) :
    (∃ data, copySamples (heap src).data (heap src).data_form.size w = some data) ↔
      w.numSamples * (heap src).data_form.size ≤ wrap32 (w.wanted * 4) := by
  have hstart := excerptWindow_startSamp h.window
  have hnum := h.nonneg
  have hend : (w.startSamp + w.numSamples) * (heap src).data_form.size ≤
      (heap src).data.length :=
    (mul_le_mul_of_nonneg_right h.inside (Nat.cast_nonneg _)).trans h.loaded
  have hbytes : 0 ≤ w.numSamples * ((heap src).data_form.size : ℤ) :=
    mul_nonneg hnum (Nat.cast_nonneg _)
  simp only [copySamples]
  constructor
  · rintro ⟨data, hdata⟩
    split_ifs at hdata with halloc hbad
    omega
  · intro hfits
    rw [if_neg (by omega), if_neg (by omega)]
    exact ⟨_, rfl⟩

/-- The gaps and overlaps after `trace_excerpt`; in place, the header is reset before they are
cut. -/
theorem traceExcerpt_glaps {heap' : ι → Trace} (hw : excerptWindow (heap src) (heap dst) = some w)
    (hrun : traceExcerpt heap src dst = some heap') :
    (heap' dst).gaps = (if src = dst then []
      else cutGaps w.startSamp (w.startSamp + w.numSamples - 1) (heap src).gaps) ∧
    (heap' dst).overlaps = (if src = dst then []
      else cutOverlaps w.startSamp (w.startSamp + w.numSamples - 1) (heap src).overlaps) := by
  rw [traceExcerpt, hw, Option.bind_some] at hrun
  obtain ⟨data, -, hrun⟩ := Option.bind_eq_some_iff.1 hrun
  rw [← Option.some_inj.1 hrun]
  by_cases hsame : src = dst
  · subst hsame
    simp only [manageGLaps, Function.update_self, if_true]
    exact ⟨rfl, rfl⟩
  · simp only [manageGLaps, Function.update_self, Function.update_of_ne hsame, if_neg hsame,
      and_self]

theorem exists_clips_iff (h : ExcerptInput heap src dst w) :
    (∃ heap', Clips heap src dst w heap') ↔
      w.numSamples * (heap src).data_form.size ≤ wrap32 (w.wanted * 4) ∧
      (if src = dst then []
        else cutGaps w.startSamp (w.startSamp + w.numSamples - 1) (heap src).gaps) =
          clipAll w.startSamp w.numSamples (heap src).gaps ∧
      (if src = dst then []
        else cutOverlaps w.startSamp (w.startSamp + w.numSamples - 1) (heap src).overlaps) =
          clipAll w.startSamp w.numSamples (heap src).overlaps := by
  rw [← copySamples_isSome h]
  constructor
  · rintro ⟨heap', hrun, hgaps, holaps, -, -⟩
    obtain ⟨hg, ho⟩ := traceExcerpt_glaps h.window hrun
    rw [traceExcerpt, h.window, Option.bind_some] at hrun
    obtain ⟨data, hdata, -⟩ := Option.bind_eq_some_iff.1 hrun
    exact ⟨⟨data, hdata⟩, hg.symm.trans hgaps, ho.symm.trans holaps⟩
  · rintro ⟨⟨data, hdata⟩, hgaps, holaps⟩
    have hrun : ∃ heap', traceExcerpt heap src dst = some heap' := by
      rw [traceExcerpt, h.window, Option.bind_some, hdata]
      exact ⟨_, rfl⟩
    obtain ⟨heap', hrun⟩ := hrun
    obtain ⟨hg, ho⟩ := traceExcerpt_glaps h.window hrun
    exact ⟨heap', hrun, hg.trans hgaps, ho.trans holaps, (hg.trans hgaps) ▸ h.gaps.clipAll,
      (ho.trans holaps) ▸ h.overlaps.clipAll⟩

theorem nil_eq_clipAll_iff {s m : ℤ} {gs : List Span} :
    [] = clipAll s m gs ↔ ∀ g ∈ gs, g.toSet ∩ Set.Ico s (s + m) = ∅ := by
  rw [eq_comm, clipAll, List.filterMap_eq_nil_iff]
  exact forall₂_congr fun g _ => Span.clip_eq_none_iff

/-- An excerpt has the clipped gaps and overlaps exactly if its block is large enough and, in
place, the window meets no gap or overlap or, in another trace, all of them are kept. -/
theorem traceExcerpt_clips_iff (h : ExcerptInput heap src dst w) :
    (∃ heap', Clips heap src dst w heap') ↔
      w.numSamples * (heap src).data_form.size ≤ wrap32 (w.wanted * 4) ∧
      if src = dst then
        ∀ g ∈ (heap src).gaps ++ (heap src).overlaps,
          g.toSet ∩ Set.Ico w.startSamp (w.startSamp + w.numSamples) = ∅
      else
        (∀ g ∈ (heap src).gaps, GapKept w.startSamp w.numSamples g) ∧
          ∀ g ∈ (heap src).overlaps, OverlapKept w.startSamp w.numSamples g := by
  rw [exists_clips_iff h]
  refine and_congr_right fun _ => ?_
  by_cases hsame : src = dst
  · rw [if_pos hsame, if_pos hsame, if_pos hsame, nil_eq_clipAll_iff, nil_eq_clipAll_iff,
      List.forall_mem_append]
  · rw [if_neg hsame, if_neg hsame, if_neg hsame, cutGaps_eq_clipAll_iff h.gaps,
      cutOverlaps_eq_clipAll_iff h.overlaps h.nonneg]

end Excerpt

/-- A second of samples at 100 Hz with a gap of ten samples. -/
def gapTrace : Trace where
  data_form := .BIT32
  sampInt := 10000
  epochs := 0
  epochStop := 1
  length := 1
  infoForm := .BIT32
  infoSampInt := 10000
  secsPsamp := 1 / 100
  numSamples := 100
  data := List.replicate 400 0
  gaps := [⟨30, 40⟩]
  overlaps := []
  excerptEpochS := 1 / 5
  excerptLength := 1 / 2

/-- The window of `gapTrace` from `1/5` of a second on. -/
def gapWindow : Window := ⟨20, 50, 50, 1 / 5⟩

theorem gapTrace_input (b : Bool) :
    ExcerptInput (fun _ : Bool => gapTrace) true b gapWindow where
  gaps := ⟨by decide, by decide⟩
  overlaps := ⟨by decide, by decide⟩
  loaded := by decide +kernel
  window := by decide +kernel
  nonneg := by decide
  inside := by decide

theorem traceExcerpt_clips_gapTrace :
    ∃ heap', Clips (fun _ : Bool => gapTrace) true false gapWindow heap' :=
  (traceExcerpt_clips_iff (gapTrace_input false)).2 ⟨by decide, by
    rw [if_neg (by decide)]
    exact ⟨by decide, by decide⟩⟩

/-- In place the gap is lost. -/
theorem traceExcerpt_in_place_loses :
    ExcerptInput (fun _ : Bool => gapTrace) true true gapWindow ∧
      ¬∃ heap', Clips (fun _ : Bool => gapTrace) true true gapWindow heap' := by
  refine ⟨gapTrace_input true, ?_⟩
  rw [exists_clips_iff (gapTrace_input true)]
  decide

end PQL
