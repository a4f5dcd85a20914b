import PQL.Lib.CInt
import PQL.Lib.Floats
import PQL.Mseed.Group
import PQL.Transform.Filter
import PQL.Transform.Gain
import PQL.Transform.Samples

/-!
# The buffer of the transforms

`makeTFormData` allocates as many bytes as the samples have in their own format and fills them with
floats; the transforms and filters then work in place.  The buffer holds the samples, and a run of
transforms and filters stays inside of it, exactly if a sample is at least as wide as a float, the
size fits in an `int`, and no step of the run needs more samples than there are (`inside_iff`).
Memory beyond the floats of the samples is taken to be out of bounds.
-/

namespace PQL

namespace TForm

/-- The data of a trace; their number is an `int`. -/
structure Source where
  form : DataForm
  samples : List ℚ
  sampInt : ℚ
  inRange : samples.length < 2 ^ 31

/-! ## The buffer -/

/-- The floats that `malloc` has room for; it fails for a negative size. -/
def malloc (memSize : ℤ) : Option ℕ := if 0 ≤ memSize then some (memSize / 4).toNat else none

/-- `DATAP(dataFormat, i, tformData[i])`; there is no case for text. -/
def convertStep (arith : FloatArith) (form : DataForm) (samples : List ℚ) (tformData : List ℚ)
    (i : ℤ) : Option (List ℚ) :=
  match form with
  | .BIT32 | .BIT16 | .MY_FLOAT | .MY_DOUBLE =>
    (load samples i).bind fun x => store tformData i (arith.single x)
  | .MY_CHAR => some tformData

/-- `makeTFormData`, with what the memory held before. -/
def makeTFormData (arith : FloatArith) (junk : ℕ → ℚ) (src : Source) : Option Samples :=
  let numSamples := src.samples.length
  let memSize := wrap32 (numSamples * src.form.size)
  (malloc memSize).bind fun floats =>
    (forLoop 0 numSamples (convertStep arith src.form src.samples) (tabulate floats junk)).map
      fun tformData => ⟨tformData.take numSamples, numSamples, src.sampInt⟩

/-! ## The transforms and filters -/

/-- What `xyzUVW` does to the samples of one component, with the rotated samples. -/
def rotateComponent (start npts : ℤ) (rotated : ℤ → ℚ) (t : Samples) : Option (List ℚ) :=
  (fill t.data 0 start 0).bind fun data =>
    (forLoop 0 npts
      (fun data j => (load data (j + start)).bind fun _ => store data j (rotated j)) data).bind
        fun data => fill data npts t.numSamples 0

inductive Transform where
  | demean (mean : ℚ)
  | detrend
  | revpol
  | differentiate
  | integrate
  | uvw (start npts : ℤ) (rotated : ℤ → ℚ)

/-- The transforms of `pqlTFormSel`. -/
def Transform.apply (t : Samples) : Transform → Option Samples
  | demean mean => (TForm.demean t.data t.numSamples mean).map fun data => { t with data }
  | detrend => (TForm.detrend t.data t.numSamples).map fun data => { t with data }
  | revpol => (polarityReverse t.data t.numSamples).map fun data => { t with data }
  | differentiate => TForm.differentiate t
  | integrate => integral t
  | uvw start npts rotated => (rotateComponent start npts rotated t).map fun data => { t with data }

/-- The loop of `_iir` that takes the mean away. -/
def iirStep (arith : FloatArith) (form : DataForm) (samples : List ℚ) (trcMean : ℚ) (af : List ℚ)
    (i : ℤ) : Option (List ℚ) :=
  match form with
  | .BIT32 | .BIT16 | .MY_FLOAT | .MY_DOUBLE =>
    (load samples i).bind fun x => store af i (arith.single (x - trcMean))
  | .MY_CHAR => some af

/-- `_iir`, with its poles and the mean of the trace. -/
def iir (arith : FloatArith) (src : Source) (trcMean : ℚ) (f : IirFilter ℚ) (t : Samples) :
    Option Samples :=
  let numSamples := src.samples.length
  (forLoop 0 numSamples (iirStep arith src.form src.samples trcMean)
    (tabulate numSamples fun _ => 0)).bind fun af =>
      (iirCascade f numSamples af).bind fun af =>
        (load af 0).bind fun _ =>
          (forLoop 0 numSamples
            (fun fptr i => (load af i).bind fun v => store fptr i (arith.single v)) t.data).map
              fun data => { t with data }

/-- The settings of a call of `agc`, the memory around the samples, and the passes that it is
given. -/
structure AgcCall where
  window : ℤ
  dwind : ℤ
  detect : Bool
  threshold : Threshold
  beyond : ℤ → ℚ
  fuel : ℕ

/-- The call on the samples of a trace. -/
def AgcCall.agc (call : AgcCall) (t : Samples) : Agc :=
  ⟨call.window, call.dwind, call.detect, call.threshold, t.numSamples,
    fun i => (load t.data i).getD (call.beyond i)⟩

/-- `agc`, if it ends and stays inside of the arrays; a quotient by zero leaves no samples. -/
def gain (call : AgcCall) (t : Samples) : Option Samples :=
  ((call.agc t).run call.fuel).bind fun a =>
    if (a.reads ++ a.outReads).all fun i => decide (0 ≤ i ∧ i < t.numSamples) then
      (a.out.foldlM (fun data (o : Agc.Output) => o.value.bind fun v => store data o.pos v)
        t.data).map fun data => { t with data }
    else none

/-- A transform, a new buffer (after a filter that is refused, a rotation without all components, or
the return to the original), or a filter. -/
inductive Command where
  | transform (t : Transform)
  | remade
  | iir (trcMean : ℚ) (f : IirFilter ℚ)
  | agc (call : AgcCall)

section Run

variable (arith : FloatArith) (junk : ℕ → ℚ) (src : Source)

/-- A command; a filter begins with a new buffer. -/
def Command.run (t : Samples) : Command → Option Samples
  | transform f => f.apply t
  | remade => makeTFormData arith junk src
  | iir trcMean f => (makeTFormData arith junk src).bind (TForm.iir arith src trcMean f)
  | agc call => (makeTFormData arith junk src).bind (gain call)

/-- The commands one after the other. -/
def runAll (t : Samples) (commands : List Command) : Option Samples :=
  commands.foldlM (Command.run arith junk src) t

/-- The buffer has the converted samples, and the run stays inside of it. -/
def Inside (commands : List Command) : Prop :=
  ∃ t, makeTFormData arith junk src = some t ∧
    (∀ (i : ℕ) (x : ℚ), src.samples[i]? = some x → t.data[i]? = some (arith.single x)) ∧
      (runAll arith junk src t commands).isSome

end Run

/-! ## The conditions -/

/-- A float is not wider than a sample, and the size of the samples fits in an `int`. -/
def Source.Fits (src : Source) : Prop :=
  src.samples = [] ∨ 4 ≤ src.form.size ∧ src.samples.length * src.form.size < 2 ^ 31

/-- The samples that a transform needs, of `n` floats and `m` samples. -/
def Transform.Fits (n : ℕ) (m : ℤ) : Transform → Prop
  | demean _ | detrend | revpol | integrate => True
  | differentiate => 3 ≤ m ∧ 4 ≤ n
  | uvw start npts _ =>
    start ≤ n ∧ (0 < npts → 0 ≤ start ∧ start + npts ≤ n) ∧ (npts < m → 0 ≤ npts)

def Command.Fits (n : ℕ) (m : ℤ) : Command → Prop
  | transform f => f.Fits n m
  | remade => True
  | iir _ _ => 1 ≤ n
  | agc _ => False

/-- The number of samples after a command. -/
def Command.count (n : ℕ) (m : ℤ) : Command → ℤ
  | transform .differentiate => m - 1
  | transform .integrate => m - 2
  | transform _ => m
  | remade | iir _ _ | agc _ => n

/-- Each command finds the samples that it needs. -/
def FitsAll (n : ℕ) : ℤ → List Command → Prop
  | _, [] => True
  | m, command :: commands => command.Fits n m ∧ FitsAll n (command.count n m) commands

/-! ## The conversion -/

section Make

variable {arith : FloatArith} {junk : ℕ → ℚ} {src : Source} {t : Samples}

theorem size_eq (form : DataForm) :
    form.size = 1 ∨ form.size = 2 ∨ form.size = 4 ∨ form.size = 8 := by
  cases form <;> decide

/-- There is room for the samples exactly if they fit. -/
theorem malloc_fits (src : Source) :
    (∃ floats, malloc (wrap32 (src.samples.length * src.form.size)) = some floats ∧
      src.samples.length ≤ floats) ↔ src.Fits := by
  have hrange := src.inRange
  constructor
  · rintro ⟨floats, hmalloc, hle⟩
    rw [malloc] at hmalloc
    split_ifs at hmalloc with hpos
    obtain rfl := Option.some.inj hmalloc
    obtain ⟨k, hk⟩ := wrap32_eq_sub (src.samples.length * src.form.size)
    have hint := inIntRange_wrap32 (src.samples.length * src.form.size)
    rw [InIntRange, hk] at hint
    rw [hk] at hpos hle
    by_cases hnone : src.samples = []
    · exact .inl hnone
    · have hlength := List.length_pos_iff.2 hnone
      right
      rcases size_eq src.form with h | h | h | h <;> rw [h] at hint hpos hle ⊢ <;> omega
  · rintro (hnone | ⟨hsize, hfits⟩)
    · refine ⟨0, ?_, ?_⟩
      · rw [hnone, List.length_nil, Nat.cast_zero, zero_mul]
        rfl
      · rw [hnone, List.length_nil]
    · have hint : InIntRange (src.samples.length * src.form.size) := by
        rw [← Nat.cast_mul]
        generalize src.samples.length * src.form.size = bytes at hfits
        rw [InIntRange]
        omega
      have hwide : src.samples.length * 4 ≤ src.samples.length * src.form.size :=
        Nat.mul_le_mul_left _ hsize
      refine ⟨_, by rw [wrap32_of_inIntRange hint, malloc, if_pos (by positivity)], ?_⟩
      rw [← Nat.cast_mul]
      omega

/-- Where the samples stand, the buffer has room for them. -/
theorem fits_of_makeTFormData (h : makeTFormData arith junk src = some t)
    (hall : ∀ (i : ℕ) (x : ℚ), src.samples[i]? = some x → t.data[i]? = some (arith.single x)) :
    src.Fits := by
  rw [← malloc_fits]
  rw [makeTFormData, Option.bind_eq_some_iff] at h
  obtain ⟨floats, hmalloc, h⟩ := h
  refine ⟨floats, hmalloc, ?_⟩
  obtain ⟨tformData, hloop, rfl⟩ := Option.map_eq_some_iff.1 h
  have hlength : tformData.length = floats := by
    refine forLoop_preserves (P := fun data => data.length = floats) ?_
      (length_tabulate floats junk) hloop
    intro data i data' hdata hstep
    unfold convertStep at hstep
    generalize src.form = form at hstep
    cases form with
    | MY_CHAR =>
      obtain rfl := Option.some.inj hstep
      exact hdata
    | _ =>
      obtain ⟨x, -, hstore⟩ := Option.bind_eq_some_iff.1 hstep
      rw [length_store hstore, hdata]
  by_contra hless
  have hlast : floats < src.samples.length := by omega
  have hget := hall floats _ (List.getElem?_eq_getElem hlast)
  rw [List.getElem?_eq_none (by rw [List.length_take]; omega)] at hget
  exact nomatch hget

/-- Samples that have a conversion do not fit into a smaller buffer. -/
theorem fits_of_convertStep (htext : src.form ≠ .MY_CHAR)
    (h : makeTFormData arith junk src = some t) : src.Fits := by
  rw [← malloc_fits]
  rw [makeTFormData, Option.bind_eq_some_iff] at h
  obtain ⟨floats, hmalloc, h⟩ := h
  obtain ⟨tformData, hloop, rfl⟩ := Option.map_eq_some_iff.1 h
  refine ⟨floats, hmalloc, ?_⟩
  by_contra hless
  have hconvert : ∀ (data : List ℚ) (i : ℤ) data', convertStep arith src.form src.samples data i =
      some data' → ∃ x, store data i x = some data' := by
    intro data i data' hstep
    unfold convertStep at hstep
    generalize src.form = form at htext hstep
    cases form with
    | MY_CHAR => exact absurd rfl htext
    | _ =>
      obtain ⟨x, -, hstore⟩ := Option.bind_eq_some_iff.1 hstep
      exact ⟨_, hstore⟩
  obtain ⟨data, data', hlength, hstep⟩ := forLoop_each (P := fun data => data.length = floats)
    (fun data i data' hdata hstep => by
      obtain ⟨x, hstore⟩ := hconvert data i data' hstep
      exact (length_store hstore).trans hdata)
    (length_tabulate floats junk) hloop (i := floats) (by omega) (by omega)
  obtain ⟨x, hstore⟩ := hconvert data _ data' hstep
  have hbounds := bounds_of_store hstore
  omega

/-- The converted samples. -/
theorem makeTFormData_of_fits (arith : FloatArith) (junk : ℕ → ℚ) (h : src.Fits) :
    makeTFormData arith junk src =
      some ⟨src.samples.map arith.single, src.samples.length, src.sampInt⟩ := by
  obtain ⟨floats, hmalloc, hle⟩ := (malloc_fits src).2 h
  have hload : ∀ i : ℕ, i < src.samples.length →
      load src.samples i = some (src.samples.getD i 0) := fun i hi => by
    rw [load, if_pos (Int.natCast_nonneg i), Int.toNat_natCast, List.getD_eq_getElem?_getD,
      List.getElem?_eq_getElem hi, Option.getD_some]
  have hbody : ∀ i : ℕ, i < src.samples.length → ∀ data,
      convertStep arith src.form src.samples data i =
        store data i (arith.single (src.samples.getD i 0)) := by
    intro i hi data
    have htext : src.form ≠ .MY_CHAR := by
      rintro htext
      rcases h with hnone | ⟨hsize, -⟩
      · rw [hnone, List.length_nil] at hi
        exact absurd hi (Nat.not_lt_zero i)
      · rw [htext] at hsize
        exact absurd hsize (by decide)
    unfold convertStep
    rw [hload i hi]
    generalize src.form = form at htext
    cases form <;> first | rfl | exact absurd rfl htext
  have hloop : forLoop 0 src.samples.length (convertStep arith src.form src.samples)
      (tabulate floats junk) = some (tabulate floats fun k =>
        if k < src.samples.length then arith.single (src.samples.getD k 0) else junk k) := by
    rw [forLoop, sub_zero, Int.toNat_natCast]
    refine loopSteps_invariant (fun m => tabulate floats fun k =>
      if k < m then arith.single (src.samples.getD k 0) else junk k)
      (tabulate_congr fun k _ => if_neg k.not_lt_zero) fun m hm => ?_
    rw [zero_add, hbody m hm, store_tabulate (by omega) (by omega), Option.some.injEq,
      Int.toNat_natCast]
    exact tabulate_update_if fun k => by omega
  rw [makeTFormData, hmalloc, Option.bind_some, hloop, Option.map_some, Option.some.injEq,
    Samples.mk.injEq]
  refine ⟨List.ext_getElem? fun k => ?_, rfl, rfl⟩
  rw [List.getElem?_take, getElem?_tabulate, List.getElem?_map]
  by_cases hk : k < src.samples.length
  · rw [if_pos hk, if_pos (by omega), if_pos hk, List.getElem?_eq_getElem hk, Option.map_some,
      List.getD_eq_getElem?_getD, List.getElem?_eq_getElem hk, Option.getD_some]
  · rw [if_neg hk, List.getElem?_eq_none (not_lt.1 hk), Option.map_none]

end Make

/-! ## The commands -/

section Commands

variable {arith : FloatArith} {junk : ℕ → ℚ} {src : Source} {n : ℕ} {t : Samples}

/-- The entries of a buffer of `n` floats. -/
theorem tabulate_data (hn : t.data.length = n) : t.data = tabulate n fun k => t.data.getD k 0 := by
  rw [← hn, tabulate_getD]

theorem updateAll_isSome {m : ℤ} (hm : m ≤ n) {xs : List ℚ} (hxs : xs.length = n)
    (f : ℤ → ℚ → ℚ) : ∃ data, updateAll xs m f = some data ∧ data.length = n := by
  have hrun := updateAll_tabulate (g := fun k => xs.getD k 0) f hm
  rw [← hxs, tabulate_getD, hxs] at hrun
  exact ⟨_, hrun, length_tabulate _ _⟩

theorem detrend_isSome {m : ℤ} (hm : m ≤ n) (x : ℕ → ℚ) :
    ∃ data, detrend (tabulate n x) m = some data ∧ data.length = n := by
  rcases le_or_gt 0 m with hpos | hneg
  · lift m to ℕ using hpos
    exact ⟨_, detrend_tabulate (by omega) x, length_tabulate _ _⟩
  · refine ⟨tabulate n x, ?_, length_tabulate n x⟩
    unfold detrend updateAll
    rw [forLoop_of_le hneg.le, forLoop_of_le hneg.le]
    exact forLoop_of_le hneg.le _ _

theorem dxdy_isSome_iff {m : ℤ} (hm : m ≤ n) (sampInt : ℚ) (x : ℕ → ℚ) :
    (3 ≤ m ∧ 4 ≤ n → ∃ data, dxdy (tabulate n x) m sampInt = some data ∧ data.length = n) ∧
      ((dxdy (tabulate n x) m sampInt).isSome → 3 ≤ m ∧ 4 ≤ n) := by
  constructor
  · rintro ⟨hthree, hfour⟩
    lift m to ℕ using by omega
    exact ⟨_, dxdy_tabulate (by omega) (by omega) hfour sampInt x, length_tabulate _ _⟩
  · intro hsome
    obtain ⟨data, hrun⟩ := Option.isSome_iff_exists.1 hsome
    unfold dxdy at hrun
    simp only [bind, Option.bind_eq_some_iff] at hrun
    obtain ⟨a2, -, a0, -, b2, -, b0, hb0, a1, -, a3, ha3, -⟩ := hrun
    have hlast := bounds_of_load hb0
    have hfour := bounds_of_load ha3
    rw [length_tabulate] at hfour
    omega

/-- A component is rotated inside of its samples. -/
theorem rotateComponent_iff {start npts : ℤ} {rotated : ℤ → ℚ} (hn : t.data.length = n)
    (hm : t.numSamples ≤ n) :
    (∃ data, rotateComponent start npts rotated t = some data) ↔
      (Transform.uvw start npts rotated).Fits n t.numSamples := by
  have hstep : ∀ (data : List ℚ) (j : ℤ) data', data.length = n →
      ((load data (j + start)).bind fun _ => store data j (rotated j)) = some data' →
        data'.length = n := by
    intro data j data' hlength hstep
    obtain ⟨x, -, hstore⟩ := Option.bind_eq_some_iff.1 hstep
    rw [length_store hstore, hlength]
  unfold rotateComponent Transform.Fits
  constructor
  · rintro ⟨data, hrun⟩
    obtain ⟨heads, hheads, hrun⟩ := Option.bind_eq_some_iff.1 hrun
    obtain ⟨window, hwindow, htails⟩ := Option.bind_eq_some_iff.1 hrun
    have hlength : heads.length = n := (length_fill hheads).trans hn
    have hlength' : window.length = n :=
      forLoop_preserves (P := fun data => data.length = n) hstep hlength hwindow
    have hfirst := (exists_fill_iff _ _ _ _).1 ⟨heads, hheads⟩
    have hlast := (exists_fill_iff _ _ _ _).1 ⟨data, htails⟩
    refine ⟨by omega, fun hpos => ?_, by omega⟩
    have heach : ∀ j, 0 ≤ j → j < npts → 0 ≤ j + start ∧ j + start < n := by
      intro j hlow hhigh
      obtain ⟨u, u', hu, hbody⟩ := forLoop_each (P := fun data => data.length = n) hstep hlength
        hwindow hlow hhigh
      obtain ⟨x, hload, -⟩ := Option.bind_eq_some_iff.1 hbody
      have hbounds := bounds_of_load hload
      omega
    have hlow := heach 0 le_rfl hpos
    have hhigh := heach (npts - 1) (by omega) (by omega)
    omega
  · rintro ⟨hheads, hwindow, htails⟩
    obtain ⟨heads, hheads⟩ := (exists_fill_iff t.data 0 start 0).2 (by omega)
    have hlength : heads.length = n := (length_fill hheads).trans hn
    obtain ⟨window, hrun, hlength'⟩ := forLoop_spec (a := 0) (b := npts) (s := heads)
      (f := fun data j => (load data (j + start)).bind fun _ => store data j (rotated j))
      (P := fun data => data.length = n) (fun data j hlow hhigh hdata => by
        have hin := hwindow (by omega)
        have hload : load data (j + start) = some (data.getD (j + start).toNat 0) := by
          rw [load, if_pos (by omega), List.getD_eq_getElem?_getD,
            List.getElem?_eq_getElem (by omega), Option.getD_some]
        have hbody : ((load data (j + start)).bind fun _ => store data j (rotated j)) =
            some (data.set j.toNat (rotated j)) := by
          rw [hload, Option.bind_some, store, if_pos (by omega)]
        exact ⟨_, hbody, hstep data j _ hdata hbody⟩) hlength
    obtain ⟨data, htails⟩ := (exists_fill_iff window npts t.numSamples 0).2 (by omega)
    exact ⟨data, by rw [hheads, Option.bind_some, hrun, Option.bind_some, htails]⟩

theorem length_rotateComponent {start npts : ℤ} {rotated : ℤ → ℚ} {data : List ℚ}
    (h : rotateComponent start npts rotated t = some data) : data.length = t.data.length := by
  obtain ⟨heads, hheads, h⟩ := Option.bind_eq_some_iff.1 h
  obtain ⟨window, hwindow, htails⟩ := Option.bind_eq_some_iff.1 h
  rw [length_fill htails, ← length_fill hheads]
  refine forLoop_preserves (P := fun data => data.length = heads.length) ?_ rfl hwindow
  intro data j data' hlength hstep
  obtain ⟨x, -, hstore⟩ := Option.bind_eq_some_iff.1 hstep
  rw [length_store hstore, hlength]

/-- A transform finds the samples that it needs or leaves the buffer. -/
theorem Transform.apply_spec (f : Transform) (hn : t.data.length = n) (hm : t.numSamples ≤ n) :
    (f.Fits n t.numSamples → ∃ t', f.apply t = some t' ∧ t'.data.length = n ∧
      t'.numSamples = Command.count n t.numSamples (.transform f)) ∧
    (∀ t', f.apply t = some t' → f.Fits n t.numSamples) := by
  have hdata := tabulate_data hn
  cases f with
  | demean mean =>
    refine ⟨fun _ => ?_, fun _ _ => trivial⟩
    obtain ⟨data, hrun, hlength⟩ := updateAll_isSome hm hn fun _ x => x - mean
    exact ⟨{ t with data }, by rw [apply, TForm.demean, hrun, Option.map_some], hlength, rfl⟩
  | detrend =>
    refine ⟨fun _ => ?_, fun _ _ => trivial⟩
    obtain ⟨data, hrun, hlength⟩ := detrend_isSome hm fun k => t.data.getD k 0
    rw [← hdata] at hrun
    exact ⟨{ t with data }, by rw [apply, hrun, Option.map_some], hlength, rfl⟩
  | revpol =>
    refine ⟨fun _ => ?_, fun _ _ => trivial⟩
    obtain ⟨data, hrun, hlength⟩ := updateAll_isSome hm hn fun _ x => x * -1
    exact ⟨{ t with data }, by rw [apply, polarityReverse, hrun, Option.map_some], hlength, rfl⟩
  | differentiate =>
    obtain ⟨hfits, hback⟩ := dxdy_isSome_iff hm t.sampInt fun k => t.data.getD k 0
    rw [← hdata] at hfits hback
    constructor
    · intro h
      obtain ⟨data, hrun, hlength⟩ := hfits h
      exact ⟨_, by rw [apply, TForm.differentiate, hrun, Option.map_some], hlength, rfl⟩
    · intro t' hrun
      obtain ⟨data, hrun, -⟩ := Option.map_eq_some_iff.1 hrun
      exact hback (by rw [hrun, Option.isSome_some])
  | integrate =>
    refine ⟨fun _ => ?_, fun _ _ => trivial⟩
    have hrun := integrate_tabulate hm t.sampInt fun k => t.data.getD k 0
    rw [← hdata] at hrun
    exact ⟨_, by rw [apply, integral, hrun, Option.map_some], length_tabulate _ _, rfl⟩
  | uvw start npts rotated =>
    constructor
    · intro h
      obtain ⟨data, hrun⟩ := (rotateComponent_iff hn hm).2 h
      exact ⟨{ t with data }, by rw [apply, hrun, Option.map_some],
        (length_rotateComponent hrun).trans hn, rfl⟩
    · intro t' hrun
      obtain ⟨data, hrun, -⟩ := Option.map_eq_some_iff.1 hrun
      exact (rotateComponent_iff hn hm).1 ⟨data, hrun⟩

theorem iirCascade_isSome (f : IirFilter ℚ) (af : List ℚ) :
    ∃ ys, iirCascade f af.length af = some ys ∧ ys.length = af.length := by
  obtain ⟨hs, -, hhigh, hlength⟩ := iirPart_composed highSection f.ph f.b0h af
  obtain ⟨ls, -, hlow, hlength'⟩ := iirPart_composed lowSection f.pl f.b0l (gained f.ph f.b0h hs)
  refine ⟨_, ?_, hlength'.trans hlength⟩
  rw [iirCascade, hhigh, Option.bind_some, ← hlength, hlow]

/-- The filter reads the first of its own samples, and stores as many as the buffer holds. -/
theorem iir_spec (arith : FloatArith) (trcMean : ℚ) (f : IirFilter ℚ)
    (hn : t.data.length = src.samples.length) :
    (1 ≤ src.samples.length → ∃ t', iir arith src trcMean f t = some t' ∧
      t'.data.length = src.samples.length ∧ t'.numSamples = t.numSamples) ∧
    (∀ t', iir arith src trcMean f t = some t' → 1 ≤ src.samples.length) := by
  have hload : ∀ (xs : List ℚ) (i : ℤ), 0 ≤ i → i < xs.length → ∃ x, load xs i = some x := by
    intro xs i hlow hhigh
    exact ⟨xs.getD i.toNat 0, by rw [load, if_pos hlow, List.getD_eq_getElem?_getD,
      List.getElem?_eq_getElem (by omega), Option.getD_some]⟩
  have hstore : ∀ (xs : List ℚ) (i : ℤ) (x : ℚ), 0 ≤ i → i < xs.length →
      ∃ ys, store xs i x = some ys ∧ ys.length = xs.length := by
    intro xs i x hlow hhigh
    have hrun : store xs i x = some (xs.set i.toNat x) := by rw [store, if_pos ⟨hlow, hhigh⟩]
    exact ⟨_, hrun, length_store hrun⟩
  obtain ⟨af, haf, hlength⟩ := forLoop_spec (a := 0) (b := src.samples.length)
    (s := tabulate src.samples.length fun _ => (0 : ℚ))
    (f := iirStep arith src.form src.samples trcMean)
    (P := fun af => af.length = src.samples.length) (fun af i hlow hhigh haf => by
      obtain ⟨x, hx⟩ := hload src.samples i hlow hhigh
      obtain ⟨ys, hys, hlength⟩ := hstore af i (arith.single (x - trcMean)) hlow (by omega)
      unfold iirStep
      rw [hx]
      generalize src.form = form
      cases form with
      | MY_CHAR => exact ⟨af, rfl, haf⟩
      | _ => exact ⟨ys, hys, hlength.trans haf⟩) (length_tabulate _ _)
  obtain ⟨ys, hys, hlength'⟩ := iirCascade_isSome f af
  rw [hlength] at hys hlength'
  have hrun : iir arith src trcMean f t = (load ys 0).bind fun _ =>
      (forLoop 0 src.samples.length
        (fun fptr i => (load ys i).bind fun v => store fptr i (arith.single v)) t.data).map
          fun data => { t with data } := by
    rw [iir, haf, Option.bind_some, hys, Option.bind_some]
  constructor
  · intro hpos
    obtain ⟨x, hx⟩ := hload ys 0 le_rfl (by omega)
    obtain ⟨data, hdata, hkept⟩ := forLoop_spec (a := 0) (b := src.samples.length) (s := t.data)
      (f := fun fptr i => (load ys i).bind fun v => store fptr i (arith.single v))
      (P := fun data => data.length = src.samples.length) (fun data i hlow hhigh hdata => by
        obtain ⟨v, hv⟩ := hload ys i hlow (by omega)
        obtain ⟨zs, hzs, hlength⟩ := hstore data i (arith.single v) hlow (by omega)
        exact ⟨zs, by rw [hv, Option.bind_some, hzs], hlength.trans hdata⟩) hn
    exact ⟨{ t with data }, by rw [hrun, hx, Option.bind_some, hdata, Option.map_some], hkept, rfl⟩
  · intro t' ht'
    rw [hrun] at ht'
    obtain ⟨x, hx, -⟩ := Option.bind_eq_some_iff.1 ht'
    have hbounds := bounds_of_load hx
    omega

theorem gain_eq_none (call : AgcCall) (t : Samples) : gain call t = none := by
  by_contra hsome
  obtain ⟨t', hrun⟩ := Option.ne_none_iff_exists'.1 hsome
  obtain ⟨a, ha, hrun⟩ := Option.bind_eq_some_iff.1 hrun
  split_ifs at hrun with hall
  obtain ⟨i, hi, hout⟩ := Agc.exists_outside ha
  have hin := List.all_eq_true.1 hall i (List.mem_append.2 hi)
  exact hout (of_decide_eq_true hin)

/-- A command finds the samples that it needs or leaves the buffer. -/
theorem Command.run_spec (arith : FloatArith) (junk : ℕ → ℚ) (hfits : src.Fits)
    (hn : t.data.length = src.samples.length) (hm : t.numSamples ≤ src.samples.length)
    (command : Command) :
    (command.Fits src.samples.length t.numSamples → ∃ t', command.run arith junk src t = some t' ∧
      t'.data.length = src.samples.length ∧
        t'.numSamples = command.count src.samples.length t.numSamples) ∧
    (∀ t', command.run arith junk src t = some t' →
      command.Fits src.samples.length t.numSamples) := by
  have hmake := makeTFormData_of_fits arith junk hfits
  have hlength : (src.samples.map arith.single).length = src.samples.length := List.length_map _
  cases command with
  | transform f => exact f.apply_spec hn hm
  | remade => exact ⟨fun _ => ⟨_, hmake, hlength, rfl⟩, fun _ _ => trivial⟩
  | iir trcMean f =>
    unfold run
    rw [hmake]
    exact iir_spec (t := ⟨_, _, src.sampInt⟩) arith trcMean f hlength
  | agc call =>
    refine ⟨False.elim, fun t' hrun => ?_⟩
    rw [run, hmake, Option.bind_some, gain_eq_none] at hrun
    exact nomatch hrun

theorem Command.count_le (command : Command) {m : ℤ} (hm : m ≤ n) : command.count n m ≤ n := by
  cases command with
  | transform f =>
    cases f with
    | differentiate => exact (sub_le_self m zero_le_one).trans hm
    | integrate => exact (sub_le_self m zero_le_two).trans hm
    | _ => exact hm
  | remade => exact le_rfl
  | iir trcMean f => exact le_rfl
  | agc call => exact le_rfl

/-- A run stays inside of the buffer exactly if each command finds the samples that it needs. -/
theorem runAll_iff (hfits : src.Fits) (hn : t.data.length = src.samples.length)
    (hm : t.numSamples ≤ src.samples.length) (commands : List Command) :
    (runAll arith junk src t commands).isSome ↔
      FitsAll src.samples.length t.numSamples commands := by
  induction commands generalizing t with
  | nil => exact iff_of_true rfl trivial
  | cons command commands ih =>
    obtain ⟨hgo, hback⟩ := command.run_spec arith junk hfits hn hm
    rw [runAll, List.foldlM_cons]
    constructor
    · intro hsome
      obtain ⟨t'', hrun⟩ := Option.isSome_iff_exists.1 hsome
      obtain ⟨t', hfirst, hrest⟩ := Option.bind_eq_some_iff.1 hrun
      have hneeds := hback t' hfirst
      obtain ⟨u, hu, hlength, hcount⟩ := hgo hneeds
      obtain rfl := Option.some.inj (hfirst.symm.trans hu)
      refine ⟨hneeds, ?_⟩
      rw [← hcount, ← ih hlength (by rw [hcount]; exact command.count_le hm)]
      exact Option.isSome_iff_exists.2 ⟨t'', hrest⟩
    · rintro ⟨hneeds, hrest⟩
      obtain ⟨u, hu, hlength, hcount⟩ := hgo hneeds
      rw [← hcount, ← ih hlength (by rw [hcount]; exact command.count_le hm)] at hrest
      rw [hu]
      exact hrest

end Commands

/-- The buffer holds the samples and the commands stay inside of it exactly if the samples fit and
each command finds the samples that it needs. -/
theorem inside_iff (arith : FloatArith) (junk : ℕ → ℚ) (src : Source) (commands : List Command) :
    Inside arith junk src commands ↔
      src.Fits ∧ FitsAll src.samples.length src.samples.length commands := by
  have hlength : (src.samples.map arith.single).length = src.samples.length := List.length_map _
  constructor
  · rintro ⟨t, hmake, hall, hrun⟩
    have hfits := fits_of_makeTFormData hmake hall
    rw [makeTFormData_of_fits _ _ hfits] at hmake
    obtain rfl := Option.some.inj hmake
    exact ⟨hfits, (runAll_iff hfits hlength le_rfl commands).1 hrun⟩
  · rintro ⟨hfits, hneeds⟩
    refine ⟨_, makeTFormData_of_fits _ _ hfits, fun i x hx => ?_,
      (runAll_iff hfits hlength le_rfl commands).2 hneeds⟩
    rw [List.getElem?_map, hx, Option.map_some]

/-! ### Short traces -/

theorem three_inRange (x y z : ℚ) : [x, y, z].length < 2 ^ 31 := by
  rw [List.length_cons, List.length_cons, List.length_singleton]
  decide

def threeSamples (form : DataForm) : Source := ⟨form, [1, 2, 3], 1000000, three_inRange 1 2 3⟩

/-- Three samples of 16 bits have a buffer of six bytes; three floats are enough for all but the
differentiation, which reads a fourth. -/
theorem threeSamples_not_inside :
    ¬ Inside ieeeFloats (fun _ => 0) (threeSamples .BIT16) [] ∧
      ¬ Inside ieeeFloats (fun _ => 0) (threeSamples .BIT32) [.transform .differentiate] := by
  constructor
  · rintro ⟨t, hmake, hall, -⟩
    rcases fits_of_makeTFormData hmake hall with hnone | ⟨hsize, -⟩
    · exact nomatch hnone
    · exact absurd hsize (by decide)
  · rintro ⟨t, hmake, hall, hrun⟩
    have hfits := fits_of_makeTFormData hmake hall
    rw [makeTFormData_of_fits _ _ hfits] at hmake
    obtain rfl := Option.some.inj hmake
    have hneeds := (runAll_iff hfits (List.length_map _) le_rfl _).1 hrun
    exact absurd hneeds.1.2 (by decide)

end TForm

end PQL
