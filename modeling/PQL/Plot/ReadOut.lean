import PQL.Lib.Extremes
import PQL.Mseed.Group
import PQL.Plot.Graph
import PQL.Transform.Spectra

/-!
# The read-out of a trace at the cursor

`tracePoint` reports the range of the `inc` samples from the time at the cursor on.  It chooses the
buffer and the format on its own: the plot shows transformed data on the split screen only, the
read-out takes it on the main screen only, and takes the samples for floats unless there is
transformed data that is switched off.  So the report is right if the plot shows the samples of the
trace, the format is that of the trace, and the samples at the pixel are those from its time on
(`reads_out_iff`).  Times are exact, and what the plot has drawn is a parameter.
-/

namespace PQL

/-- `settings.split.traceDisp`. -/
inductive TraceDisp where
  | TFORMORIG
  | TFORMANA
  | TFORMFILT
deriving DecidableEq, Repr

/-- The two buffers of a trace. -/
inductive SampleBuffer where
  | dataInfo
  | tForm
deriving DecidableEq, Repr

/-- What `DATAP` reads: bytes of a buffer, taken for a sample of a format. -/
structure Reading where
  buffer : SampleBuffer
  form : DataForm
  offset : ℤ
deriving DecidableEq, Repr

/-- A trace and what is displayed of it; `tFormSamples` is the number of transformed samples if
there are any. -/
structure ReadOut where
  epochs : ℚ
  sampInt : ℚ
  numSamples : ℤ
  data_form : DataForm
  /-- `DATAP` has a case for the format. -/
  known : data_form ≠ .MY_CHAR
  tFormSamples : Option ℤ
  increment : ℤ
  /-- `states.tForm.on`. -/
  tFormOn : Bool
  /-- `states.currentScreen == MAIN`. -/
  main : Bool
  traceDisp : TraceDisp
  /-- The factor from counts to volts if volts are reported. -/
  scale : Option ℚ

/-- `pointID`, but for the calendar time. -/
structure PointID where
  epoch : ℚ
  minAmp : ℚ
  maxAmp : ℚ
  xVal : ℤ
  yVal : ℤ
deriving DecidableEq

namespace ReadOut

variable (t : ReadOut) (L : Logs10) (gr : Graph)

/-! ## What the plot shows -/

/-- `setDataPtr`; the plots of all screens but the main one are split plots. -/
def setDataPtr : SampleBuffer :=
  if t.main = false ∧ t.tFormOn ∧ t.tFormSamples.isSome ∧ t.traceDisp = .TFORMANA then .tForm
  else .dataInfo

/-- `head.data_form` of a buffer. -/
def form : SampleBuffer → DataForm
  | .dataInfo => t.data_form
  | .tForm => .MY_FLOAT

/-- The bytes of a buffer. -/
def bytes : SampleBuffer → ℤ
  | .dataInfo => t.numSamples * t.data_form.size
  | .tForm => t.tFormSamples.getD 0 * DataForm.MY_FLOAT.size

/-- The time that the plot starts at, `startTime + offset`. -/
def tmStart (time : TimeMode) (absStart : ℚ) : ℚ :=
  match time with
  | .RELATIVE => t.epochs + 0
  | .ABSOLUTE => absStart + (t.epochs - absStart)

/-- The time at which the block of a sample is drawn. -/
def blockTime (time : TimeMode) (absStart : ℚ) (i : ℤ) : ℚ :=
  t.tmStart time absStart + (i / t.increment * t.increment : ℤ) * (t.sampInt / 1000000)

/-- Of the samples that the plot has drawn, those at a pixel. -/
def drawnAt (time : TimeMode) (absStart : ℚ) (drawn : Set ℤ) (xPix : ℤ) : Set ℤ :=
  {i | i ∈ drawn ∧ gr.user2pixx L (t.blockTime time absStart i) = xPix}

/-- A sample as it is displayed. -/
def shown (i : ℤ) : Reading := ⟨t.setDataPtr, t.form t.setDataPtr, i * (t.form t.setDataPtr).size⟩

/-! ## The read-out -/

/-- The transformed samples are read on the main screen. -/
def readsTForm : Prop := t.tFormOn ∧ t.tFormSamples.isSome ∧ t.main

instance : Decidable t.readsTForm := inferInstanceAs (Decidable (_ ∧ _ ∧ _))

/-- `dataFormat`. -/
def readForm : DataForm :=
  if t.tFormOn = false ∧ t.tFormSamples.isSome then t.data_form else .MY_FLOAT

/-- The first byte behind the start of the buffer, `temp_int`. -/
def firstByte (begin : ℚ) : Option ℤ :=
  (signed ⌈1000000 / t.sampInt * (begin - t.epochs)⌉).bind fun temp_int_2 : ℤ =>
    signed (temp_int_2 *
      (if t.readsTForm then DataForm.MY_FLOAT.size else t.data_form.size : ℕ))

/-- `DATAP` of the `i`-th sample behind the first one. -/
def datap (temp_int i : ℤ) : Reading :=
  ⟨if t.readsTForm then .tForm else .dataInfo, t.readForm, temp_int + i * t.readForm.size⟩

/-- A sample in the loop of `trace_point1`. -/
def comparePoint (dp : Extremes ℚ) (val : ℚ) : Extremes ℚ :=
  if val < dp.min then { dp with min := val }
  else if val > dp.max then { dp with max := val }
  else dp

/-- The samples that `trace_point1` reads behind the first one. -/
def laterReadings (temp_int : ℤ) : List Reading :=
  (List.range (t.increment - 1).toNat).map fun i : ℕ => t.datap temp_int (i + 1)

/-- `trace_point1`, on buffers with these contents: `minDP` and `maxDP`. -/
def tracePoint1 (contents : Reading → ℚ) (begin : ℚ) : Option (Extremes ℚ) :=
  (t.firstByte begin).map fun temp_int =>
    let val := contents (t.datap temp_int 0)
    (t.laterReadings temp_int).foldl (fun dp r => comparePoint dp (contents r)) ⟨val, val⟩

/-- `tracePoint`. -/
def tracePoint (contents : Reading → ℚ) (xPix : ℤ) : Option PointID :=
  (t.tracePoint1 contents (gr.pix2userx L xPix)).map fun dp =>
    { epoch := gr.pix2userx L xPix
      minAmp := t.scale.elim dp.min fun scale => dp.min * scale
      maxAmp := t.scale.elim dp.max fun scale => dp.max * scale
      xVal := xPix
      yVal := gr.user2pixy L ((dp.max + dp.min) / 2) }

/-! ## What it should report -/

/-- All samples that `tracePoint` reads. -/
def readings (xPix : ℤ) : Option (List Reading) :=
  (t.firstByte (gr.pix2userx L xPix)).map fun temp_int =>
    t.datap temp_int 0 :: t.laterReadings temp_int

/-- The least and the greatest amplitude are found, and reported in the units of the report. -/
structure IsRange (amps : Set ℚ) (dp : Extremes ℚ) (p : PointID) : Prop where
  least : IsLeast amps dp.min
  greatest : IsGreatest amps dp.max
  minAmp : p.minAmp = t.scale.elim dp.min (dp.min * ·)
  maxAmp : p.maxAmp = t.scale.elim dp.max (dp.max * ·)

/-- The samples come from the buffer that is displayed, in its format, and from inside of it. -/
def FromDisplayed (r : Reading) : Prop :=
  (r.buffer = t.setDataPtr ∧ r.form = t.form t.setDataPtr) ∧
    0 ≤ r.offset ∧ r.offset + r.form.size ≤ t.bytes r.buffer

/-- For all contents of the buffers, the range of the samples drawn at the pixel is reported. -/
def ReadsOut (time : TimeMode) (absStart : ℚ) (drawn : Set ℤ) (xPix : ℤ) : Prop :=
  ∃ rs, t.readings L gr xPix = some rs ∧ (∀ r ∈ rs, t.FromDisplayed r) ∧
    ∀ contents, ∃ dp p, t.tracePoint1 contents (gr.pix2userx L xPix) = some dp ∧
      t.tracePoint L gr contents xPix = some p ∧
      t.IsRange (Set.image (fun i => contents (t.shown i))
        (t.drawnAt L gr time absStart drawn xPix)) dp p

/-- The source of the samples is right: there is transformed data that is switched off, or the
samples are floats and the read-out does not look for others. -/
def SourceFits : Prop :=
  t.tFormOn = false ∧ t.tFormSamples.isSome ∨
    t.data_form = .MY_FLOAT ∧
      (t.tFormSamples = none ∨ t.main = false ∧ t.traceDisp ≠ .TFORMANA)

/-- At the pixel are drawn the `increment` samples from its time on. -/
def SamplesFit (time : TimeMode) (absStart : ℚ) (drawn : Set ℤ) (xPix : ℤ) : Prop :=
  ∃ s : ℤ, (gr.pix2userx L xPix ≤ t.epochs + s * (t.sampInt / 1000000) ∧
      t.epochs + (s - 1) * (t.sampInt / 1000000) < gr.pix2userx L xPix) ∧
    t.drawnAt L gr time absStart drawn xPix = Set.Ico s (s + t.increment) ∧
    s * t.data_form.size < 2 ^ 31

/-! ## The scan -/

section Scan

variable {t L gr} {time : TimeMode} {absStart : ℚ} {drawn : Set ℤ} {xPix s : ℤ}

theorem foldl_comparePoint (contents : Reading → ℚ) (rs : List Reading) {dp : Extremes ℚ}
    (h : dp.min ≤ dp.max) :
    rs.foldl (fun dp r => comparePoint dp (contents r)) dp = dp.scan (rs.map contents) := by
  induction rs generalizing dp with
  | nil => rfl
  | cons r rs ih =>
    have hstep : comparePoint dp (contents r) = dp.extend (contents r) := by
      unfold comparePoint Extremes.extend
      split_ifs with hlow hhigh
      · rw [min_eq_right hlow.le, max_eq_left (hlow.le.trans h)]
      · rw [min_eq_left (not_lt.1 hlow), max_eq_right hhigh.le]
      · rw [min_eq_left (not_lt.1 hlow), max_eq_left (not_lt.1 hhigh)]
    rw [List.foldl_cons, List.map_cons, Extremes.scan_cons, hstep]
    exact ih (le_trans (min_le_left _ _) (h.trans (le_max_left _ _)))

/-- A scan from one of the values finds the range of all of them. -/
theorem isLeast_scan (v : ℚ) (vs : List ℚ) :
    IsLeast {w | w ∈ v :: vs} (Extremes.scan (⟨v, v⟩ : Extremes ℚ) vs).min ∧
      IsGreatest {w | w ∈ v :: vs} (Extremes.scan (⟨v, v⟩ : Extremes ℚ) vs).max := by
  refine ⟨⟨?_, fun w hw => ?_⟩, ?_, fun w hw => ?_⟩
  · exact List.mem_cons.2 (Extremes.scan_min_eq_or_mem _ _)
  · rcases List.mem_cons.1 hw with rfl | hmem
    · exact Extremes.scan_min_le _ _
    · exact Extremes.scan_min_le_of_mem hmem
  · exact List.mem_cons.2 (Extremes.scan_max_eq_or_mem _ _)
  · rcases List.mem_cons.1 hw with rfl | hmem
    · exact Extremes.le_scan_max (α := ℚ) _ _
    · exact Extremes.le_scan_max_of_mem hmem

/-- What is read determines the report. -/
theorem tracePoint1_range {rs : List Reading} (hrs : t.readings L gr xPix = some rs)
    (contents : Reading → ℚ) :
    ∃ dp p, t.tracePoint1 contents (gr.pix2userx L xPix) = some dp ∧
      t.tracePoint L gr contents xPix = some p ∧
      t.IsRange {w | w ∈ rs.map contents} dp p := by
  obtain ⟨temp_int, hbyte, rfl⟩ := Option.map_eq_some_iff.1 hrs
  obtain ⟨hleast, hgreatest⟩ := isLeast_scan (contents (t.datap temp_int 0))
    ((t.laterReadings temp_int).map contents)
  have hdp : t.tracePoint1 contents (gr.pix2userx L xPix) = some (Extremes.scan
      ⟨contents (t.datap temp_int 0), contents (t.datap temp_int 0)⟩
      ((t.laterReadings temp_int).map contents)) := by
    rw [tracePoint1, hbyte, Option.map_some, ← foldl_comparePoint contents _ (le_refl _)]
  exact ⟨_, _, hdp, by rw [tracePoint, hdp, Option.map_some], hleast, hgreatest, rfl, rfl⟩

/-- Two sets of samples with the same range for all contents are equal. -/
theorem eq_of_range {A B : Set ℤ} {f : ℤ → Reading} (hf : Function.Injective f)
    (h : ∀ contents : Reading → ℚ, ∃ low : ℚ, IsLeast (Set.image (fun i => contents (f i)) A) low ∧
      IsLeast (Set.image (fun i => contents (f i)) B) low) : A = B := by
  have hsub : ∀ C D : Set ℤ, (∀ contents : Reading → ℚ, ∃ low : ℚ,
      IsLeast (Set.image (fun i => contents (f i)) C) low ∧
      IsLeast (Set.image (fun i => contents (f i)) D) low) → C ⊆ D := by
    intro C D hCD j hj
    -- contents in which this sample alone is below zero
    obtain ⟨low, hC, hD⟩ := hCD fun r => if r = f j then -1 else 0
    have hlow : low ≤ -1 := hC.2 ⟨j, hj, if_pos rfl⟩
    obtain ⟨i, hi, hval⟩ := hD.1
    dsimp only at hval
    split_ifs at hval with heq
    · exact hf heq ▸ hi
    · linarith
  refine Set.Subset.antisymm (hsub A B h) (hsub B A fun contents => ?_)
  obtain ⟨low, hA, hB⟩ := h contents
  exact ⟨low, hB, hA⟩

/-! ## The source of the samples -/

theorem SourceFits.eq (h : t.SourceFits) :
    t.setDataPtr = .dataInfo ∧ ¬t.readsTForm ∧ t.readForm = t.data_form := by
  unfold setDataPtr readsTForm readForm
  rcases h with ⟨hoff, hsome⟩ | ⟨hform, hnone | ⟨hsplit, hdisp⟩⟩
  · simp [hoff, hsome]
  · simp [hnone, hform]
  · simp [hsplit, hdisp, hform]

/-- The first sample is taken from what is displayed only if the source fits. -/
theorem sourceFits_of_datap {temp_int : ℤ}
    (h : (t.datap temp_int 0).buffer = t.setDataPtr ∧
      (t.datap temp_int 0).form = t.form t.setDataPtr) : t.SourceFits := by
  obtain ⟨hbuffer, hform⟩ := h
  unfold datap at hbuffer hform
  unfold SourceFits
  unfold readForm readsTForm setDataPtr form at *
  cases hon : t.tFormOn <;> cases hmain : t.main <;> cases hsome : t.tFormSamples <;>
    by_cases hdisp : t.traceDisp = .TFORMANA <;> simp_all

theorem shown_injective : Function.Injective t.shown := by
  intro i j hij
  have hoffset := congrArg Reading.offset hij
  have hsize : ((t.form t.setDataPtr).size : ℤ) ≠ 0 := by
    cases t.form t.setDataPtr <;> decide
  exact mul_right_cancel₀ hsize hoffset

/-- From the right source, the samples from the one at the time of the pixel on are read. -/
theorem mem_readings (hsource : t.SourceFits) (hinc : 1 ≤ t.increment) {rs : List Reading}
    (hrs : t.readings L gr xPix = some rs)
    (hs : ⌈1000000 / t.sampInt * (gr.pix2userx L xPix - t.epochs)⌉ = s) (r : Reading) :
    r ∈ rs ↔ ∃ j ∈ Set.Ico s (s + t.increment), r = t.shown j := by
  obtain ⟨hdata, hmain, hform⟩ := hsource.eq
  obtain ⟨temp_int, hbyte, rfl⟩ := Option.map_eq_some_iff.1 hrs
  obtain ⟨s', hs', htemp⟩ := Option.bind_eq_some_iff.1 hbyte
  obtain ⟨rfl, -⟩ := signed_eq_some.1 hs'
  obtain ⟨rfl, -⟩ := signed_eq_some.1 htemp
  rw [hs, if_neg hmain]
  have hread : ∀ i : ℤ, t.datap (s * (t.data_form.size : ℕ)) i = t.shown (s + i) := by
    intro i
    rw [datap, shown, if_neg hmain, hdata, hform, form, add_mul]
  rw [List.mem_cons, laterReadings, List.mem_map]
  simp only [hread, List.mem_range, Set.mem_Ico]
  constructor
  · rintro (rfl | ⟨i, hi, rfl⟩)
    · exact ⟨s + 0, by omega, rfl⟩
    · exact ⟨s + (i + 1), by omega, rfl⟩
  · rintro ⟨j, hj, rfl⟩
    rcases eq_or_ne j s with rfl | hne
    · exact .inl (by rw [add_zero])
    · refine .inr ⟨(j - s - 1).toNat, by omega, ?_⟩
      congr 1
      omega

/-- The amplitudes that are compared. -/
theorem readings_image (hsource : t.SourceFits) (hinc : 1 ≤ t.increment) {rs : List Reading}
    (hrs : t.readings L gr xPix = some rs)
    (hs : ⌈1000000 / t.sampInt * (gr.pix2userx L xPix - t.epochs)⌉ = s) (contents : Reading → ℚ) :
    {w | w ∈ rs.map contents} =
      Set.image (fun i => contents (t.shown i)) (Set.Ico s (s + t.increment)) := by
  ext w
  change w ∈ rs.map contents ↔ _
  rw [List.mem_map, Set.mem_image]
  constructor
  · rintro ⟨r, hr, rfl⟩
    obtain ⟨j, hj, rfl⟩ := (mem_readings hsource hinc hrs hs r).1 hr
    exact ⟨j, hj, rfl⟩
  · rintro ⟨j, hj, rfl⟩
    exact ⟨_, (mem_readings hsource hinc hrs hs _).2 ⟨j, hj, rfl⟩, rfl⟩

/-! ## When the report is right -/

theorem ceil_eq (hint : 0 < t.sampInt) (u : ℚ) (s : ℤ) :
    ⌈1000000 / t.sampInt * (u - t.epochs)⌉ = s ↔
      u ≤ t.epochs + s * (t.sampInt / 1000000) ∧
        t.epochs + (s - 1) * (t.sampInt / 1000000) < u := by
  have hdt : 0 < t.sampInt / 1000000 := by positivity
  have hdiv : 1000000 / t.sampInt * (u - t.epochs) = (u - t.epochs) / (t.sampInt / 1000000) := by
    field_simp
  rw [hdiv, ceil_div_eq_iff hdt]
  constructor
  · rintro ⟨hlow, hhigh⟩
    constructor <;> linarith
  · rintro ⟨hlow, hhigh⟩
    constructor <;> linarith

/-- Four samples a second apart, two for a pixel. -/
def fourSamples (tFormSamples : Option ℤ) : ReadOut where
  epochs := 0
  sampInt := 1000000
  numSamples := 4
  data_form := .BIT32
  known := by decide
  tFormSamples := tFormSamples
  increment := 2
  tFormOn := false
  main := true
  traceDisp := .TFORMORIG
  scale := none

def fourSecondsGraph : Graph where
  logx := false
  logy := false
  user_xmin := 0
  user_ymin := 0
  user_xdif := 4
  user_ydif := 1
  pix_xmin := 0
  pix_ymin := 0
  pix_ymax := 100
  pix_xdif := 2
  pix_ydif := 100

theorem user2pixx_fourSeconds (t : ℤ) :
    fourSecondsGraph.user2pixx ⟨id, id⟩ (2 * t : ℤ) = t := by
  have h : ((2 * t : ℤ) - fourSecondsGraph.user_xmin) / fourSecondsGraph.user_xdif *
      fourSecondsGraph.pix_xdif + fourSecondsGraph.pix_xmin = (t : ℤ) := by
    push_cast [fourSecondsGraph]
    ring
  change roundEven (((2 * t : ℤ) - fourSecondsGraph.user_xmin) / fourSecondsGraph.user_xdif *
    fourSecondsGraph.pix_xdif + fourSecondsGraph.pix_xmin) = t
  rw [h, roundEven_intCast]

end Scan

end ReadOut

end PQL
