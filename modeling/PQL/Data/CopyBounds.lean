import PQL.Data.Excerpt

/-!
# The bounds of an excerpt's copy

`trace_excerpt` allocates four bytes for each sample that is asked for, whatever its size, and lets
the copy go one sample past the end of the source.  It stays within both blocks and copies as many
samples as the window has exactly if the window ends in the trace, the samples are not wider than
four bytes and no sample is lost where seconds are counted as samples (`excerpt_copies_iff`).
-/

namespace PQL

/-! ## The request -/

/-- The start and the length of the excerpt in samples, with a whole number of samples a second. -/
def requested (src dst : Trace) : Option (ℤ × ℤ) :=
  if src.sampInt = 0 then none
  else
    (toInt (roundTo 53 (1000000 / src.sampInt))).bind fun sPs =>
    (toInt (roundTo 53 (roundTo 53 (dst.excerptEpochS - dst.epochs) * sPs))).bind fun start =>
    (toInt (roundTo 24 (dst.excerptLength * roundTo 24 sPs))).map fun length => (start, length)

/-- The samples of the source whose time is in the window. -/
def samplesInWindow (src : Trace) (start length : ℚ) : ℕ :=
  ((Finset.range src.numSamples.toNat).filter fun i : ℕ =>
    start ≤ src.epochs + i * (src.sampInt / ONEMIL) ∧
      src.epochs + i * (src.sampInt / ONEMIL) < start + length).card

/-- The size of the block, as `malloc` gets it. -/
def excerptAlloc (wanted : ℤ) : ℤ := wrap32 (wanted * 4)

/-- The copy is made: it reads samples of the source only, it fits into the block, and it has as
many samples as the window. -/
structure CopiesWithin (src dst : Trace) (w : Window) : Prop where
  window : excerptWindow src dst = some w
  nonneg : 0 ≤ w.numSamples
  reads : ∀ i, w.startSamp ≤ i → i < w.startSamp + w.numSamples → 0 ≤ i ∧ i < src.numSamples
  alloc : 0 ≤ excerptAlloc w.wanted
  writes : w.numSamples * src.data_form.size ≤ excerptAlloc w.wanted
  count : w.numSamples = samplesInWindow src dst.excerptEpochS dst.excerptLength

/-- When the copy is made: the window ends in the trace, four bytes a sample are enough, and the
whole samples a second of the excerpt are the samples in the window.  A window that starts one
sample behind the end copies nothing. -/
structure ExcerptFits (src dst : Trace) (start length : ℤ) : Prop where
  nonneg : 0 ≤ length
  alloc : 0 ≤ excerptAlloc length
  inside : (max start 0 + length ≤ src.numSamples ∧
      length * src.data_form.size ≤ excerptAlloc length ∧
      length = samplesInWindow src dst.excerptEpochS dst.excerptLength) ∨
    (max start 0 = src.numSamples + 1 ∧
      samplesInWindow src dst.excerptEpochS dst.excerptLength = 0)

theorem excerptWindow_eq (src dst : Trace) :
    excerptWindow src dst = (requested src dst).map fun r =>
      { startSamp := max r.1 0
        wanted := r.2
        numSamples := min r.2 (src.numSamples - max r.1 0 + 1)
        epochS := if r.1 < 0 then src.epochs else dst.excerptEpochS } := by
  have hmax : ∀ s : ℤ, (if s < 0 then 0 else s) = max s 0 := by
    intro s
    split_ifs with h <;> omega
  have hmin : ∀ m r : ℤ, (if m > r then r else m) = min m r := by
    intro m r
    split_ifs with h <;> omega
  unfold excerptWindow requested
  split_ifs
  · rfl
  · simp only [hmax, hmin]
    cases toInt (roundTo 53 (1000000 / src.sampInt)) with
    | none => rfl
    | some sPs =>
      simp only [Option.bind_some]
      cases toInt (roundTo 53 (roundTo 53 (dst.excerptEpochS - dst.epochs) * sPs)) with
      | none => rfl
      | some start =>
        simp only [Option.bind_some]
        cases toInt (roundTo 24 (dst.excerptLength * roundTo 24 sPs)) with
        | none => rfl
        | some length => rfl

/-- `trace_excerpt` copies within its bounds, and the samples of the window, if and only if the
excerpt fits. -/
theorem excerpt_copies_iff (src dst : Trace) :
    (∃ w, CopiesWithin src dst w) ↔
      ∃ start length, requested src dst = some (start, length) ∧
        ExcerptFits src dst start length := by
  constructor
  · rintro ⟨w, hw, hnonneg, hreads, halloc, hwrites, hcount⟩
    rw [excerptWindow_eq] at hw
    obtain ⟨⟨start, length⟩, hrequested, rfl⟩ := Option.map_eq_some_iff.1 hw
    simp only at hnonneg hreads halloc hwrites hcount
    refine ⟨start, length, hrequested, by omega, halloc, ?_⟩
    rcases le_or_gt (max start 0 + length) src.numSamples with hle | hgt
    · rw [min_eq_left (by omega)] at hwrites hcount
      exact Or.inl ⟨hle, hwrites, hcount⟩
    · -- the last sample that is copied would be the one behind the end
      rw [min_eq_right (by omega)] at hnonneg hreads hcount
      right
      by_cases hend : max start 0 = src.numSamples + 1
      · exact ⟨hend, by omega⟩
      · have := hreads src.numSamples (by omega) (by omega)
        omega
  · rintro ⟨start, length, hrequested, hnonneg, halloc, hinside⟩
    have hw : excerptWindow src dst = some
        { startSamp := max start 0
          wanted := length
          numSamples := min length (src.numSamples - max start 0 + 1)
          epochS := if start < 0 then src.epochs else dst.excerptEpochS } := by
      rw [excerptWindow_eq, hrequested]
      rfl
    rcases hinside with ⟨hle, hwrites, hcount⟩ | ⟨hend, hnone⟩
    · rw [min_eq_left (by omega)] at hw
      exact ⟨_, hw, hnonneg, fun i hi hlt => ⟨(le_max_right start 0).trans hi, by
        simp only at hlt; omega⟩, halloc, hwrites, hcount⟩
    · have hzero : min length (src.numSamples - max start 0 + 1) = 0 := by omega
      rw [hend, ← hend, hzero, hend] at hw
      refine ⟨_, hw, le_refl 0, fun i hi hlt => ?_, halloc, ?_, ?_⟩
      · simp only at hi hlt
        omega
      · simpa using halloc
      · simp [hnone]

/-! ## Whole seconds -/

/-- An excerpt of whole seconds of a trace with a whole number of samples a second. -/
structure WholeSeconds (src dst : Trace) (rate start length : ℕ) : Prop where
  sampInt : src.sampInt = ONEMIL / rate
  epochs : dst.epochs = src.epochs
  epochS : dst.excerptEpochS = src.epochs + start
  excerptLength : dst.excerptLength = length
  rate_pos : 0 < rate
  rate_lt : rate < 2 ^ 24
  start_lt : start * rate < 2 ^ 31
  length_lt : length * rate < 2 ^ 24

section WholeSeconds

variable {src dst : Trace} {rate start length : ℕ}

theorem roundTo_natCast {p n : ℕ} (hp : n < 2 ^ p) : roundTo p (n : ℚ) = n := by
  have h := roundTo_intCast (p := p) (n := n) (by rw [Nat.abs_cast]; exact_mod_cast hp)
  rwa [Int.cast_natCast] at h

theorem toInt_roundTo_natCast {p n : ℕ} (hp : n < 2 ^ p) (hn : n < 2 ^ 31) :
    toInt (roundTo p n) = some (n : ℤ) := by
  rw [roundTo_natCast hp, ← Int.cast_natCast, toInt_eq_some, truncate_intCast]
  exact ⟨rfl, by constructor <;> omega⟩

theorem WholeSeconds.requested_eq (h : WholeSeconds src dst rate start length) :
    requested src dst = some (((start * rate : ℕ) : ℤ), ((length * rate : ℕ) : ℤ)) := by
  have hrate : (rate : ℚ) ≠ 0 := Nat.cast_ne_zero.2 h.rate_pos.ne'
  have hmil : (ONEMIL : ℚ) ≠ 0 := by norm_num [ONEMIL]
  have hstart : start < 2 ^ 31 :=
    (Nat.le_mul_of_pos_right start h.rate_pos).trans_lt h.start_lt
  have hrequested : 1000000 / src.sampInt = (rate : ℚ) := by
    rw [h.sampInt, ONEMIL]
    field_simp
  have hdiff : dst.excerptEpochS - dst.epochs = start := by
    rw [h.epochS, h.epochs, add_sub_cancel_left]
  unfold requested
  rw [if_neg (by rw [h.sampInt]; exact div_ne_zero hmil hrate), hrequested,
    toInt_roundTo_natCast (h.rate_lt.trans (by norm_num)) (h.rate_lt.trans (by norm_num)),
    Option.bind_some, hdiff, roundTo_natCast (hstart.trans (by norm_num)), Int.cast_natCast,
    ← Nat.cast_mul, toInt_roundTo_natCast (h.start_lt.trans (by norm_num)) h.start_lt,
    Option.bind_some, roundTo_natCast h.rate_lt, h.excerptLength, ← Nat.cast_mul,
    toInt_roundTo_natCast h.length_lt (h.length_lt.trans (by norm_num)), Option.map_some]

theorem WholeSeconds.samplesInWindow_eq (h : WholeSeconds src dst rate start length) :
    samplesInWindow src dst.excerptEpochS dst.excerptLength =
      ((Finset.range src.numSamples.toNat).filter fun i =>
        start * rate ≤ i ∧ i < (start + length) * rate).card := by
  have hrate : (0 : ℚ) < rate := Nat.cast_pos.2 h.rate_pos
  have htime : ∀ i : ℕ, (i : ℚ) * (src.sampInt / ONEMIL) = i / rate := by
    intro i
    rw [h.sampInt, ONEMIL]
    field_simp
  unfold samplesInWindow
  congr 1
  apply Finset.filter_congr
  intro i _
  rw [htime, h.epochS, h.excerptLength, add_assoc, add_le_add_iff_left, add_lt_add_iff_left,
    le_div_iff₀ hrate, div_lt_iff₀ hrate]
  norm_cast

theorem WholeSeconds.samplesInWindow_inside (h : WholeSeconds src dst rate start length)
    (hle : (((start + length) * rate : ℕ) : ℤ) ≤ src.numSamples) :
    samplesInWindow src dst.excerptEpochS dst.excerptLength = length * rate := by
  have hIco : (Finset.range src.numSamples.toNat).filter (fun i =>
      start * rate ≤ i ∧ i < (start + length) * rate) =
      Finset.Ico (start * rate) ((start + length) * rate) := by
    ext i
    rw [Finset.mem_filter, Finset.mem_range, Finset.mem_Ico]
    omega
  rw [h.samplesInWindow_eq, hIco, Nat.card_Ico, Nat.add_mul, Nat.add_sub_cancel_left]

theorem WholeSeconds.samplesInWindow_behind (h : WholeSeconds src dst rate start length)
    (hlt : src.numSamples < ((start * rate : ℕ) : ℤ)) :
    samplesInWindow src dst.excerptEpochS dst.excerptLength = 0 := by
  rw [h.samplesInWindow_eq, Finset.card_eq_zero, Finset.filter_eq_empty_iff]
  intro i hi
  rw [Finset.mem_range] at hi
  omega

/-- The excerpt is copied as it should be if its end is in the trace and its samples are not wider
than four bytes. -/
theorem WholeSeconds.copies_iff (h : WholeSeconds src dst rate start length) (hpos : 0 < length) :
    (∃ w, CopiesWithin src dst w) ↔
      ((((start + length) * rate : ℕ) : ℤ) ≤ src.numSamples ∧ src.data_form.size ≤ 4) ∨
        ((start * rate : ℕ) : ℤ) = src.numSamples + 1 := by
  have hasked : 0 < length * rate := Nat.mul_pos hpos h.rate_pos
  have hlt := h.length_lt
  have hmul : (start + length) * rate = start * rate + length * rate := Nat.add_mul _ _ _
  have halloc : excerptAlloc ((length * rate : ℕ) : ℤ) = ((length * rate : ℕ) : ℤ) * 4 :=
    wrap32_of_inIntRange (by constructor <;> omega)
  have hmax : max ((start * rate : ℕ) : ℤ) 0 = ((start * rate : ℕ) : ℤ) :=
    max_eq_left (Nat.cast_nonneg _)
  have hfits : ((length * rate : ℕ) : ℤ) * src.data_form.size ≤ ((length * rate : ℕ) : ℤ) * 4 ↔
      src.data_form.size ≤ 4 := by
    rw [mul_le_mul_iff_right₀ (by exact_mod_cast hasked)]
    exact_mod_cast Iff.rfl
  rw [excerpt_copies_iff, h.requested_eq]
  constructor
  · rintro ⟨s, l, heq, -, -, hinside⟩
    obtain ⟨rfl, rfl⟩ := Prod.mk.inj (Option.some.inj heq)
    rw [halloc, hmax, hfits] at hinside
    rcases hinside with ⟨hle, hwide, -⟩ | ⟨hend, -⟩
    · exact Or.inl ⟨by omega, hwide⟩
    · exact Or.inr hend
  · intro hcase
    refine ⟨_, _, rfl, Nat.cast_nonneg _, by rw [halloc]; omega, ?_⟩
    rw [halloc, hmax, hfits]
    rcases hcase with ⟨hle, hwide⟩ | hend
    · exact Or.inl ⟨by omega, hwide, by rw [h.samplesInWindow_inside hle]⟩
    · exact Or.inr ⟨hend, h.samplesInWindow_behind (by omega)⟩

end WholeSeconds

/-- Ten samples a second apart, as `double`s. -/
def doubleTrace : Trace :=
  { gapTrace with
    data_form := .MY_DOUBLE
    sampInt := 1000000
    epochs := 100
    numSamples := 10
    data := List.replicate 80 0
    gaps := []
    excerptEpochS := 102
    excerptLength := 4 }

/-- The same samples as integers, and a window that goes beyond the end. -/
def endTrace : Trace :=
  { doubleTrace with data_form := .BIT32, data := List.replicate 40 0, excerptLength := 20 }

/-- Four doubles are copied into a block of sixteen bytes, and in the other trace the sample behind
the last one is read. -/
theorem excerpt_copies_too_much :
    (excerptWindow doubleTrace doubleTrace = some ⟨2, 4, 4, 102⟩ ∧ excerptAlloc 4 = 16 ∧
      ¬ ∃ w, CopiesWithin doubleTrace doubleTrace w) ∧
    excerptWindow endTrace endTrace = some ⟨2, 20, 9, 102⟩ ∧
      ¬ ∃ w, CopiesWithin endTrace endTrace w := by
  have hdouble : excerptWindow doubleTrace doubleTrace = some ⟨2, 4, 4, 102⟩ := by decide +kernel
  have hend : excerptWindow endTrace endTrace = some ⟨2, 20, 9, 102⟩ := by decide +kernel
  refine ⟨⟨hdouble, rfl, ?_⟩, hend, ?_⟩
  · rintro ⟨w, h⟩
    obtain rfl := Option.some.inj (h.window.symm.trans hdouble)
    exact absurd h.writes (by decide)
  · rintro ⟨w, h⟩
    obtain rfl := Option.some.inj (h.window.symm.trans hend)
    exact absurd (h.reads 10 (by decide) (by decide)) (by decide)

end PQL
