import Mathlib

/-!
# Automatic gain control

`agc` copies the trace, moves the pointers to the copy and to the output to the ends of the arrays,
finds the first arrival on request, and divides by the norm of a moving window.  Indices are counted
from the beginnings of the arrays, the memory that is read is a function of the index, and
arithmetic is exact.  Every run that ends reads behind the samples (`base_mem_run`); the gain loops
are right exactly if no window of the core routine is without energy and the output pointer stands
at the arrival (`right_gain_iff`).
-/

namespace PQL

/-! ## The routine -/

/-- The `float` that the threshold is. -/
inductive Threshold where
  | finite (t : ℚ)
  | infinite
  | negInfinite
  | notANumber

/-- `probe > (initaver * threshold)`, for `initaver` not negative; zero times infinity is not a
number. -/
def Threshold.exceeded (t : Threshold) (probe initaver : ℚ) : Bool :=
  match t with
  | .finite t => decide (probe > initaver * t)
  | .infinite | .notANumber => false
  | .negInfinite => decide (initaver ≠ 0)

/-- `agcinfo`, the number of samples and the memory of the copy. -/
structure Agc where
  window : ℤ
  dwind : ℤ
  detect : Bool
  threshold : Threshold
  nt : ℤ
  x : ℤ → ℚ

namespace Agc

/-- The indices of a loop from `a` to `b`. -/
def indices (a b : ℤ) : List ℤ := (List.range (b - a).toNat).map fun k : ℕ => a + k

/-- `if (*p > 0.) s += *p; else s -= *p;` -/
def addAbs (s v : ℚ) : ℚ := if v > 0 then s + v else s - v

/-- `if (*p > 0.) s -= *p; else s += *p;` -/
def subAbs (s v : ℚ) : ℚ := if v > 0 then s - v else s + v

/-- The pointers and the probe of the detection. -/
structure Probe where
  xp : ℤ
  yp : ℤ
  head : ℤ
  tail : ℤ
  probe : ℚ
  reads : List ℤ

/-- The first arrival, with the pointers and the norm of the gain phase. -/
structure Arrival where
  start : ℤ
  yp : ℤ
  l1norm : ℚ
  reads : List ℤ

/-- `goto THEEND`, or the arrival. -/
inductive Search where
  | theEnd (reads : List ℤ)
  | arrived (a : Arrival)

/-- A sample of the output: its index, the norm, and the quotient if the norm is not zero. -/
structure Output where
  pos : ℤ
  norm : ℚ
  value : Option ℚ

/-- The state of the gain loops. -/
structure Gain where
  xp : ℤ
  yp : ℤ
  head : ℤ
  tail : ℤ
  l1norm : ℚ
  oldnorm : ℚ
  reads : List ℤ
  out : List Output

/-- What has been read of the copy, written to the output and read of the output. -/
structure Accesses where
  reads : List ℤ
  out : List Output
  outReads : List ℤ

def divide (v norm : ℚ) : Option ℚ := if norm = 0 then none else some (v / norm)

section Routine

variable (agc : Agc)

/-- The pointers `x` and `y` are moved behind the samples. -/
def base : ℤ := agc.nt

/-- The sum of the absolute values from `a` to `b`. -/
def norm (a b : ℤ) : ℚ := (indices a b).foldl (fun s i => addAbs s (agc.x i)) 0

/-- The loop of the detection, with `n` passes left; the second value is `goto THEEND`. -/
def probeLoop (initaver : ℚ) (stop : ℤ) : ℕ → Probe → Probe × Bool
  | 0, s => (s, false)
  | n + 1, s =>
    if agc.threshold.exceeded s.probe initaver then ({ s with yp := s.yp + 1 }, false)
    else
      let probe := subAbs (addAbs s.probe (agc.x s.head)) (agc.x s.tail)
      let s : Probe :=
        { xp := s.xp, yp := s.yp + 1, head := s.head + 1, tail := s.tail + 1, probe
          reads := s.tail :: s.head :: s.reads }
      if s.xp = stop ∨ probe = 0 then (s, true)
      else probeLoop initaver stop n { s with xp := s.xp + 1 }

/-- `DETECTS`. -/
def detects (yp : ℤ) (reads : List ℤ) : Probe × Bool :=
  let first := indices agc.base (agc.base + agc.dwind)
  let initaver := agc.norm agc.base (agc.base + agc.dwind)
  let xp := agc.base + agc.dwind.tdiv 2
  let stop := agc.base + agc.nt - agc.dwind.tdiv 2
  agc.probeLoop initaver stop (stop - xp).toNat
    { xp, yp, head := agc.base + agc.dwind, tail := agc.base, probe := initaver
      reads := first ++ reads }

/-- From the norm of the first window on; without energy it goes back to `DETECTS`. -/
def search : ℕ → ℤ → ℤ → List ℤ → Option Search
  | 0, _, _, _ => none
  | fuel + 1, start, yp, reads =>
    let l1norm := agc.norm start (start + agc.window)
    let reads := indices start (start + agc.window) ++ reads
    if l1norm = 0 then
      match agc.detects yp reads with
      | (s, true) => some (.theEnd s.reads)
      | (s, false) => search fuel s.xp s.yp s.reads
    else some (.arrived ⟨start, yp, l1norm, reads⟩)

/-- Up to the gain loops. -/
def arrive (fuel : ℕ) : Option Search :=
  if agc.detect then
    match agc.detects agc.base [] with
    | (s, true) => some (.theEnd s.reads)
    | (s, false) => agc.search fuel s.xp s.yp s.reads
  else agc.search fuel agc.base agc.base []

/-- `*yp++ = *xp / l1norm` -/
def writeGain (s : Gain) : Gain :=
  { s with
    xp := s.xp + 1
    yp := s.yp + 1
    reads := s.xp :: s.reads
    out := s.out ++ [⟨s.yp, s.l1norm, divide (agc.x s.xp) s.l1norm⟩] }

/-- A pass of the core routine. -/
def coreStep (s : Gain) : Gain :=
  let l1norm := subAbs (addAbs s.l1norm (agc.x s.head)) (agc.x s.tail)
  let l1norm := if s.oldnorm = 0 then s.oldnorm else l1norm
  agc.writeGain
    { s with
      head := s.head + 1
      tail := s.tail + 1
      l1norm
      oldnorm := l1norm
      reads := s.tail :: s.head :: s.reads }

/-- The beginning, the core and the end of the trace. -/
def gain (a : Arrival) : Gain :=
  let ramp := agc.writeGain^[(agc.window.tdiv 2).toNat]
    ⟨a.start, a.yp, a.start + agc.window, a.start, a.l1norm, a.l1norm, a.reads, []⟩
  let core := agc.coreStep^[(agc.base + agc.nt - agc.window.tdiv 2 - ramp.xp).toNat] ramp
  agc.writeGain^[(agc.base + agc.nt - core.xp).toNat] core

/-- `agc`, but for the amplitudes that it computes of the output. -/
def run (fuel : ℕ) : Option Accesses :=
  (agc.arrive fuel).map fun s =>
    match s with
    | .theEnd reads => ⟨reads, [], []⟩
    | .arrived a =>
      let g := agc.gain a
      ⟨g.reads, g.out, agc.base :: indices agc.base (agc.base + agc.nt)⟩

end Routine

/-! ## The indices -/

section Indices

variable {agc : Agc}

/-- `agc` ends, with all indices inside of the arrays. -/
def Safe (agc : Agc) : Prop :=
  ∃ fuel a, agc.run fuel = some a ∧ (∀ i ∈ a.reads, 0 ≤ i ∧ i < agc.nt) ∧
    (∀ o ∈ a.out, 0 ≤ o.pos ∧ o.pos < agc.nt) ∧ ∀ i ∈ a.outReads, 0 ≤ i ∧ i < agc.nt

def Search.reads : Search → List ℤ
  | .theEnd reads => reads
  | .arrived a => a.reads

theorem mem_indices {a b i : ℤ} : i ∈ indices a b ↔ a ≤ i ∧ i < b := by
  unfold indices
  rw [List.mem_map]
  constructor
  · rintro ⟨k, hk, rfl⟩
    have hlt := List.mem_range.1 hk
    omega
  · rintro ⟨hle, hlt⟩
    exact ⟨(i - a).toNat, List.mem_range.2 (by omega), by omega⟩

theorem probeLoop_reads (initaver : ℚ) (stop : ℤ) (n : ℕ) (s : Probe) {i : ℤ} (hi : i ∈ s.reads) :
    i ∈ (agc.probeLoop initaver stop n s).1.reads := by
  induction n generalizing s with
  | zero => exact hi
  | succ n ih =>
    have hmore : i ∈ s.tail :: s.head :: s.reads :=
      List.mem_cons_of_mem _ (List.mem_cons_of_mem _ hi)
    unfold probeLoop
    dsimp only
    split_ifs
    · exact hi
    · exact hmore
    · exact ih _ hmore

theorem detects_reads (agc : Agc) (yp : ℤ) (reads : List ℤ) {i : ℤ} (hi : i ∈ reads) :
    i ∈ (agc.detects yp reads).1.reads :=
  probeLoop_reads _ _ _ _ (List.mem_append_right _ hi)

/-- Without energy nothing is exceeded. -/
theorem exceeded_zero (t : Threshold) : t.exceeded 0 0 = false := by
  cases t with
  | finite t => exact decide_eq_false (by rw [zero_mul]; exact lt_irrefl 0)
  | infinite => rfl
  | negInfinite => exact decide_eq_false (not_not.2 (Eq.refl (0 : ℚ)))
  | notANumber => rfl

/-- The detection reads behind the samples: at the first sample of its window, or, if the window is
empty, at the first sample that leaves it. -/
theorem base_mem_detects (hnt : 1 ≤ agc.nt) (yp : ℤ) (reads : List ℤ) :
    agc.base ∈ (agc.detects yp reads).1.reads := by
  by_cases hdwind : 1 ≤ agc.dwind
  · apply probeLoop_reads
    apply List.mem_append_left
    exact mem_indices.2 ⟨le_rfl, by omega⟩
  · have hempty : agc.norm agc.base (agc.base + agc.dwind) = 0 := by
      have hnone : (agc.base + agc.dwind - agc.base).toNat = 0 := by omega
      rw [norm, indices, hnone]
      rfl
    have hhalf : agc.dwind.tdiv 2 ≤ 0 := by
      have hneg : 0 ≤ (-agc.dwind).tdiv 2 := Int.tdiv_nonneg (by omega) (by omega)
      rw [Int.neg_tdiv] at hneg
      omega
    have hpasses : (agc.base + agc.nt - agc.dwind.tdiv 2 - (agc.base + agc.dwind.tdiv 2)).toNat =
        (agc.nt - 2 * agc.dwind.tdiv 2 - 1).toNat + 1 := by omega
    unfold detects
    dsimp only
    rw [hempty, hpasses, probeLoop, exceeded_zero, if_neg Bool.false_ne_true]
    dsimp only
    split_ifs
    · exact List.mem_cons_self
    · exact probeLoop_reads _ _ _ _ List.mem_cons_self

theorem search_reads {fuel : ℕ} {start yp : ℤ} {reads : List ℤ} {r : Search}
    (hrun : agc.search fuel start yp reads = some r) {i : ℤ} (hi : i ∈ reads) : i ∈ r.reads := by
  induction fuel generalizing start yp reads with
  | zero => exact nomatch hrun
  | succ fuel ih =>
    have hmore : i ∈ indices start (start + agc.window) ++ reads := List.mem_append_right _ hi
    rw [search] at hrun
    split_ifs at hrun with hzero
    · have hkept := detects_reads agc yp _ hmore
      rcases hd : agc.detects yp (indices start (start + agc.window) ++ reads) with ⟨s, b⟩
      rw [hd] at hrun hkept
      cases b with
      | true =>
        obtain rfl := Option.some.inj hrun
        exact hkept
      | false => exact ih hrun hkept
    · obtain rfl := Option.some.inj hrun
      exact hmore

/-- Where the search begins it reads a sample, or it goes on to the detection. -/
theorem base_mem_search (hnt : 1 ≤ agc.nt) {fuel : ℕ} {yp : ℤ} {reads : List ℤ} {r : Search}
    (hrun : agc.search fuel agc.base yp reads = some r) : agc.base ∈ r.reads := by
  cases fuel with
  | zero => exact nomatch hrun
  | succ fuel =>
    rw [search] at hrun
    split_ifs at hrun with hzero
    · have hbase := base_mem_detects hnt yp (indices agc.base (agc.base + agc.window) ++ reads)
      rcases hd : agc.detects yp (indices agc.base (agc.base + agc.window) ++ reads) with ⟨s, b⟩
      rw [hd] at hrun hbase
      cases b with
      | true =>
        obtain rfl := Option.some.inj hrun
        exact hbase
      | false => exact search_reads hrun hbase
    · obtain rfl := Option.some.inj hrun
      by_cases hwindow : 1 ≤ agc.window
      · exact List.mem_append_left _ (mem_indices.2 ⟨le_rfl, by omega⟩)
      · have hnone : (agc.base + agc.window - agc.base).toNat = 0 := by omega
        rw [norm, indices, hnone] at hzero
        exact absurd rfl hzero

theorem base_mem_arrive (hnt : 1 ≤ agc.nt) {fuel : ℕ} {r : Search}
    (hrun : agc.arrive fuel = some r) : agc.base ∈ r.reads := by
  unfold arrive at hrun
  split_ifs at hrun
  · have hbase := base_mem_detects hnt agc.base []
    rcases hd : agc.detects agc.base [] with ⟨s, b⟩
    rw [hd] at hrun hbase
    cases b with
    | true =>
      obtain rfl := Option.some.inj hrun
      exact hbase
    | false => exact search_reads hrun hbase
  · exact base_mem_search hnt hrun

theorem iterate_reads {f : Gain → Gain} (hf : ∀ s : Gain, ∀ i ∈ s.reads, i ∈ (f s).reads) (n : ℕ)
    (s : Gain) {i : ℤ} (hi : i ∈ s.reads) : i ∈ (f^[n] s).reads := by
  induction n with
  | zero => exact hi
  | succ n ih =>
    rw [Function.iterate_succ_apply']
    exact hf _ i ih

theorem gain_reads (a : Arrival) {i : ℤ} (hi : i ∈ a.reads) : i ∈ (agc.gain a).reads := by
  have hwrite : ∀ s : Gain, ∀ i ∈ s.reads, i ∈ (agc.writeGain s).reads :=
    fun s i hi => List.mem_cons_of_mem _ hi
  have hcore : ∀ s : Gain, ∀ i ∈ s.reads, i ∈ (agc.coreStep s).reads := fun s i hi =>
    hwrite _ i (List.mem_cons_of_mem _ (List.mem_cons_of_mem _ hi))
  unfold gain
  apply iterate_reads hwrite
  apply iterate_reads hcore
  apply iterate_reads hwrite
  exact hi

/-- The sample behind the last one is read in every run that ends. -/
theorem base_mem_run (hnt : 1 ≤ agc.nt) {fuel : ℕ} {a : Accesses} (hrun : agc.run fuel = some a) :
    agc.base ∈ a.reads := by
  obtain ⟨r, hr, rfl⟩ := Option.map_eq_some_iff.1 hrun
  have hbase := base_mem_arrive hnt hr
  cases r with
  | theEnd reads => exact hbase
  | arrived a => exact gain_reads a hbase

/-- The detection goes to the end only after it has read. -/
theorem probeLoop_end {initaver : ℚ} {stop : ℤ} {n : ℕ} {s s' : Probe}
    (hend : agc.probeLoop initaver stop n s = (s', true)) : ∃ i, i ∈ s'.reads := by
  induction n generalizing s with
  | zero => exact nomatch congrArg Prod.snd hend
  | succ n ih =>
    unfold probeLoop at hend
    dsimp only at hend
    split_ifs at hend
    · exact nomatch congrArg Prod.snd hend
    · obtain rfl := congrArg Prod.fst hend
      exact ⟨_, List.mem_cons_self⟩
    · exact ih hend

theorem search_end {fuel : ℕ} {start yp : ℤ} {reads reads' : List ℤ}
    (hrun : agc.search fuel start yp reads = some (.theEnd reads')) : ∃ i, i ∈ reads' := by
  induction fuel generalizing start yp reads with
  | zero => exact nomatch hrun
  | succ fuel ih =>
    rw [search] at hrun
    split_ifs at hrun with hzero
    · rcases hd : agc.detects yp (indices start (start + agc.window) ++ reads) with ⟨s, b⟩
      rw [hd] at hrun
      cases b with
      | true =>
        obtain rfl := Search.theEnd.inj (Option.some.inj hrun)
        exact probeLoop_end hd
      | false => exact ih hrun
    · exact nomatch Option.some.inj hrun

theorem arrive_end {fuel : ℕ} {reads : List ℤ} (hrun : agc.arrive fuel = some (.theEnd reads)) :
    ∃ i, i ∈ reads := by
  unfold arrive at hrun
  split_ifs at hrun
  · rcases hd : agc.detects agc.base [] with ⟨s, b⟩
    rw [hd] at hrun
    cases b with
    | true =>
      obtain rfl := Search.theEnd.inj (Option.some.inj hrun)
      exact probeLoop_end hd
    | false => exact search_end hrun
  · exact search_end hrun

/-- A run that ends has read out of the arrays, also if they have no samples. -/
theorem exists_outside {fuel : ℕ} {a : Accesses} (hrun : agc.run fuel = some a) :
    ∃ i, (i ∈ a.reads ∨ i ∈ a.outReads) ∧ ¬ (0 ≤ i ∧ i < agc.nt) := by
  by_cases hnt : 1 ≤ agc.nt
  · exact ⟨agc.base, .inl (base_mem_run hnt hrun), fun h => absurd h.2 (lt_irrefl _)⟩
  · obtain ⟨r, hr, rfl⟩ := Option.map_eq_some_iff.1 hrun
    cases r with
    | theEnd reads =>
      obtain ⟨i, hi⟩ := arrive_end hr
      exact ⟨i, .inl hi, by omega⟩
    | arrived a => exact ⟨agc.base, .inr List.mem_cons_self, by omega⟩

/-- No run of `agc` that ends stays inside of the arrays. -/
theorem not_safe (agc : Agc) (hnt : 1 ≤ agc.nt) : ¬ agc.Safe := by
  rintro ⟨fuel, a, hrun, hreads, -⟩
  exact absurd (hreads _ (base_mem_run hnt hrun)).2 (lt_irrefl _)

/-! ### One sample -/

/-- One sample, a window of one and no detection. -/
def oneSample : Agc := ⟨1, 1, false, .finite 25, 1, fun _ => 1⟩

theorem not_safe_oneSample : ¬ oneSample.Safe := not_safe oneSample le_rfl

/-- The sample is at index 0; index 1 is read and written. -/
theorem oneSample_reads :
    (oneSample.run 1).map (fun a => (a.reads, a.out.map Output.pos)) = some ([1, 1, 2, 1], [1]) ∧
      ¬ oneSample.Safe := by
  refine ⟨by decide +kernel, ?_⟩
  rintro ⟨fuel, a, hrun, hreads, -⟩
  exact absurd (hreads 1 (base_mem_run le_rfl hrun)).2 (lt_irrefl _)

end Indices

/-! ## The gain loops -/

section Loops

variable (agc : Agc)

/-- The sum of the absolute values in the window from `a` on. -/
def windowNorm (a : ℤ) : ℚ := ∑ k ∈ Finset.range agc.window.toNat, |agc.x (a + k)|

/-- Half a window, and the samples from the arrival to the end of the trace. -/
def half : ℕ := (agc.window.tdiv 2).toNat

def live (a : Arrival) : ℕ := (agc.base + agc.nt - a.start).toNat

/-- The passes of the core routine, and of all three loops. -/
def corePasses (a : Arrival) : ℕ := agc.live a - 2 * agc.half

def passes (a : Arrival) : ℕ := max agc.half (agc.live a)

/-- The window of the pass `k`: it stands still, slides, and stands still. -/
def windowAt (a : Arrival) (k : ℕ) : ℤ := a.start + (min (k + 1 - agc.half) (agc.corePasses a) : ℕ)

/-- Each pass has the norm of its window and writes the sample that it stands at, scaled by that
norm; each position from the arrival to the end of the trace is written once. -/
def RightGain (a : Arrival) : Prop :=
  (∀ (k : ℕ) (o : Output), (agc.gain a).out[k]? = some o →
    o.norm = agc.windowNorm (agc.windowAt a k) ∧
      o.value = some (agc.x (a.start + k) / agc.windowNorm (agc.windowAt a k))) ∧
  ∀ p, a.start ≤ p → p < agc.base + agc.nt →
    ((agc.gain a).out.filter fun o => o.pos = p).length = 1

/-- The windows of the core routine have energy. -/
def Energy (a : Arrival) : Prop :=
  ∀ j ≤ agc.corePasses a, agc.windowNorm (a.start + j) ≠ 0

/-- The output pointer does not stand behind the arrival, and reaches the end of the trace. -/
def Aligned (a : Arrival) : Prop :=
  agc.live a = 0 ∨ a.yp ≤ a.start ∧ agc.base + agc.nt ≤ a.yp + agc.passes a

/-- The norms that the core routine computes. -/
def coreNorm (a : Arrival) : ℕ → ℚ
  | 0 => a.l1norm
  | j + 1 =>
    if coreNorm a j = 0 then coreNorm a j
    else subAbs (addAbs (coreNorm a j) (agc.x (a.start + agc.window + j))) (agc.x (a.start + j))

end Loops

section Norms

variable {agc : Agc} {a : Arrival}

theorem addAbs_eq (s v : ℚ) : addAbs s v = s + |v| := by
  unfold addAbs
  split_ifs with h
  · rw [abs_of_pos h]
  · rw [abs_of_nonpos (not_lt.1 h)]
    ring

theorem subAbs_eq (s v : ℚ) : subAbs s v = s - |v| := by
  unfold subAbs
  split_ifs with h
  · rw [abs_of_pos h]
  · rw [abs_of_nonpos (not_lt.1 h)]
    ring

theorem norm_eq_sum (p q : ℤ) :
    agc.norm p q = ∑ k ∈ Finset.range (q - p).toNat, |agc.x (p + k)| := by
  unfold norm indices
  generalize (q - p).toNat = n
  induction n with
  | zero => rfl
  | succ n ih =>
    rw [List.range_succ, List.map_append, List.foldl_append, ih, Finset.sum_range_succ]
    exact addAbs_eq _ _

theorem norm_window (p : ℤ) : agc.norm p (p + agc.window) = agc.windowNorm p := by
  rw [norm_eq_sum, windowNorm, add_sub_cancel_left]

/-- The window moved on by one. -/
theorem windowNorm_succ (hwindow : 1 ≤ agc.window) (p : ℤ) :
    agc.windowNorm (p + 1) =
      subAbs (addAbs (agc.windowNorm p) (agc.x (p + agc.window))) (agc.x p) := by
  obtain ⟨n, hn⟩ : ∃ n : ℕ, agc.window = n + 1 := ⟨(agc.window - 1).toNat, by omega⟩
  have hcount : agc.window.toNat = n + 1 := by omega
  have hlast : ∀ k : ℕ, p + 1 + (k : ℤ) = p + (k + 1 : ℕ) := fun k => by push_cast; ring
  rw [subAbs_eq, addAbs_eq, windowNorm, windowNorm, hcount, Finset.sum_range_succ,
    Finset.sum_range_succ', hlast, hn]
  simp only [hlast]
  push_cast
  rw [add_zero]
  ring

theorem window_pos (h : agc.windowNorm a.start ≠ 0) : 1 ≤ agc.window := by
  by_contra hle
  have hnone : agc.window.toNat = 0 := by omega
  apply h
  rw [windowNorm, hnone, Finset.sum_range_zero]

/-- The first window of an arrival has energy. -/
theorem search_arrived {fuel : ℕ} {start yp : ℤ} {reads : List ℤ}
    (hrun : agc.search fuel start yp reads = some (.arrived a)) :
    a.l1norm = agc.windowNorm a.start ∧ a.l1norm ≠ 0 := by
  induction fuel generalizing start yp reads with
  | zero => exact nomatch hrun
  | succ fuel ih =>
    rw [search] at hrun
    split_ifs at hrun with hzero
    · rcases hd : agc.detects yp (indices start (start + agc.window) ++ reads) with ⟨s, b⟩
      rw [hd] at hrun
      cases b with
      | true => exact nomatch hrun
      | false => exact ih hrun
    · obtain rfl := Search.arrived.inj (Option.some.inj hrun)
      exact ⟨norm_window start, hzero⟩

theorem arrive_arrived {fuel : ℕ} (hrun : agc.arrive fuel = some (.arrived a)) :
    a.l1norm = agc.windowNorm a.start ∧ a.l1norm ≠ 0 := by
  unfold arrive at hrun
  split_ifs at hrun
  · rcases hd : agc.detects agc.base [] with ⟨s, b⟩
    rw [hd] at hrun
    cases b with
    | true => exact nomatch hrun
    | false => exact search_arrived hrun
  · exact search_arrived hrun

/-- With energy the norm is that of the window. -/
theorem coreNorm_eq (hfirst : a.l1norm = agc.windowNorm a.start) (hwindow : 1 ≤ agc.window) {n : ℕ}
    (h : ∀ j < n, agc.windowNorm (a.start + j) ≠ 0) :
    agc.coreNorm a n = agc.windowNorm (a.start + n) := by
  induction n with
  | zero => rw [Nat.cast_zero, add_zero, coreNorm, hfirst]
  | succ n ih =>
    have hbefore := ih fun j hj => h j (by omega)
    rw [coreNorm, hbefore, if_neg (h n n.lt_succ_self), Nat.cast_succ, ← add_assoc,
      windowNorm_succ hwindow, add_right_comm]

/-- Passes of a loop that only writes. -/
theorem writeGain_iterate (agc : Agc) (s : Gain) (n : ℕ) :
    ∃ reads, agc.writeGain^[n] s =
      { s with
        xp := s.xp + n
        yp := s.yp + n
        reads
        out := s.out ++ (List.range n).map fun k : ℕ =>
          ⟨s.yp + k, s.l1norm, divide (agc.x (s.xp + k)) s.l1norm⟩ } := by
  induction n with
  | zero => exact ⟨s.reads, by simp⟩
  | succ n ih =>
    obtain ⟨reads, ih⟩ := ih
    rw [Function.iterate_succ_apply', ih, List.range_succ, List.map_append, ← List.append_assoc]
    refine ⟨(s.xp + n) :: reads, ?_⟩
    unfold writeGain
    dsimp only
    rw [Nat.cast_succ, ← add_assoc, ← add_assoc]
    rfl

/-- Passes of the core routine. -/
theorem coreStep_iterate (agc : Agc) (s : Gain) (hhead : s.head = a.start + agc.window)
    (htail : s.tail = a.start) (hnorm : s.l1norm = a.l1norm) (hold : s.oldnorm = a.l1norm) (n : ℕ) :
    ∃ reads, agc.coreStep^[n] s =
      { xp := s.xp + n
        yp := s.yp + n
        head := s.head + n
        tail := s.tail + n
        l1norm := agc.coreNorm a n
        oldnorm := agc.coreNorm a n
        reads
        out := s.out ++ (List.range n).map fun k : ℕ =>
          ⟨s.yp + k, agc.coreNorm a (k + 1),
            divide (agc.x (s.xp + k)) (agc.coreNorm a (k + 1))⟩ } := by
  induction n with
  | zero =>
    refine ⟨s.reads, ?_⟩
    cases s
    simp only [Function.iterate_zero, id_eq, Nat.cast_zero, add_zero, List.range_zero,
      List.map_nil, List.append_nil, coreNorm]
    dsimp only at hnorm hold
    rw [hnorm, hold]
  | succ n ih =>
    obtain ⟨reads, ih⟩ := ih
    have hnext : (if agc.coreNorm a n = 0 then agc.coreNorm a n
        else subAbs (addAbs (agc.coreNorm a n) (agc.x (s.head + n))) (agc.x (s.tail + n))) =
          agc.coreNorm a (n + 1) := by
      rw [hhead, htail, coreNorm]
    rw [Function.iterate_succ_apply', ih, List.range_succ, List.map_append, ← List.append_assoc]
    refine ⟨(s.xp + n) :: (s.tail + n) :: (s.head + n) :: reads, ?_⟩
    unfold coreStep writeGain
    dsimp only
    rw [hnext, Nat.cast_succ, ← add_assoc, ← add_assoc, ← add_assoc, ← add_assoc]
    rfl

/-- What all three loops write. -/
theorem gain_out (agc : Agc) (a : Arrival) (hwindow : 1 ≤ agc.window) :
    (agc.gain a).out = (List.range (agc.passes a)).map fun k : ℕ =>
      ⟨a.yp + k, agc.coreNorm a (min (k + 1 - agc.half) (agc.corePasses a)),
        divide (agc.x (a.start + k))
          (agc.coreNorm a (min (k + 1 - agc.half) (agc.corePasses a)))⟩ := by
  have hhalf : agc.window.tdiv 2 = agc.half := by
    have hnonneg : 0 ≤ agc.window.tdiv 2 := Int.tdiv_nonneg (by omega) (by omega)
    rw [half, Int.toNat_of_nonneg hnonneg]
  unfold gain
  obtain ⟨reads, hramp⟩ := writeGain_iterate agc
    ⟨a.start, a.yp, a.start + agc.window, a.start, a.l1norm, a.l1norm, a.reads, []⟩ agc.half
  have hcore : (agc.base + agc.nt - agc.window.tdiv 2 - (a.start + agc.half)).toNat =
      agc.corePasses a := by
    rw [hhalf, corePasses, live]
    omega
  rw [← half, hramp]
  dsimp only
  rw [hcore]
  obtain ⟨reads', hslide⟩ := coreStep_iterate (a := a) agc
    ⟨a.start + agc.half, a.yp + agc.half, a.start + agc.window, a.start, a.l1norm, a.l1norm, reads,
      [] ++ (List.range agc.half).map fun k : ℕ =>
        ⟨a.yp + k, a.l1norm, divide (agc.x (a.start + k)) a.l1norm⟩⟩ rfl rfl rfl rfl
    (agc.corePasses a)
  rw [hslide]
  dsimp only
  obtain ⟨n, hn⟩ : ∃ n : ℕ,
      (agc.base + agc.nt - (a.start + agc.half + agc.corePasses a)).toNat = n := ⟨_, rfl⟩
  have hpasses : agc.passes a = agc.half + agc.corePasses a + n := by
    rw [passes, ← hn, corePasses, live]
    omega
  obtain ⟨reads'', htail⟩ := writeGain_iterate agc
    ⟨a.start + agc.half + agc.corePasses a, a.yp + agc.half + agc.corePasses a,
      a.start + agc.window + agc.corePasses a, a.start + agc.corePasses a,
      agc.coreNorm a (agc.corePasses a), agc.coreNorm a (agc.corePasses a), reads',
      ([] ++ (List.range agc.half).map fun k : ℕ =>
        ⟨a.yp + k, a.l1norm, divide (agc.x (a.start + k)) a.l1norm⟩) ++
        (List.range (agc.corePasses a)).map fun k : ℕ =>
          ⟨a.yp + agc.half + k, agc.coreNorm a (k + 1),
            divide (agc.x (a.start + agc.half + k)) (agc.coreNorm a (k + 1))⟩⟩ n
  rw [hn, htail]
  dsimp only
  -- the norm in each of the three loops
  have hfirst : ∀ k < agc.half, min (k + 1 - agc.half) (agc.corePasses a) = 0 :=
    fun k hk => by omega
  have hmiddle : ∀ k < agc.corePasses a,
      min (agc.half + k + 1 - agc.half) (agc.corePasses a) = k + 1 := fun k hk => by omega
  have hlast : ∀ k : ℕ, min (agc.half + agc.corePasses a + k + 1 - agc.half) (agc.corePasses a) =
      agc.corePasses a := fun k => by omega
  rw [hpasses, List.range_add, List.range_add, List.map_append, List.map_append, List.map_map,
    List.map_map, List.nil_append]
  refine congrArg₂ _ (congrArg₂ _ ?_ ?_) ?_ <;> apply List.map_congr_left <;> intro k hk
  · rw [hfirst k (List.mem_range.1 hk)]
    rfl
  · dsimp only [Function.comp]
    rw [hmiddle k (List.mem_range.1 hk), Nat.cast_add, add_assoc, add_assoc]
  · dsimp only [Function.comp]
    rw [hlast k, Nat.cast_add, Nat.cast_add, add_assoc, add_assoc, add_assoc, add_assoc,
      add_assoc]

theorem divide_eq_some {v norm q : ℚ} : divide v norm = some q ↔ norm ≠ 0 ∧ v / norm = q := by
  unfold divide
  split_ifs with h
  · simp [h]
  · simp [h]

/-- Consecutive positions are met once each. -/
theorem length_filter_positions (yp p : ℤ) (n : ℕ) (f : ℕ → Output)
    (hf : ∀ k, (f k).pos = yp + k) :
    (((List.range n).map f).filter fun o => o.pos = p).length =
      if yp ≤ p ∧ p < yp + n then 1 else 0 := by
  induction n with
  | zero =>
    rw [if_neg (by omega)]
    rfl
  | succ n ih =>
    rw [List.range_succ, List.map_append, List.filter_append, List.length_append, ih, List.map_cons,
      List.map_nil, List.filter_singleton, hf n, Nat.cast_succ]
    by_cases hlast : yp + n = p
    · rw [if_neg (by omega), if_pos (by omega), decide_eq_true hlast]
      rfl
    · rw [decide_eq_false hlast, cond_false, List.length_nil, add_zero]
      apply if_congr _ rfl rfl
      omega

/-- What the gain loops have written in their `k`-th pass. -/
theorem getElem?_gain_out (agc : Agc) (a : Arrival) (hwindow : 1 ≤ agc.window) (k : ℕ) :
    (agc.gain a).out[k]? = if k < agc.passes a then
      some ⟨a.yp + k, agc.coreNorm a (min (k + 1 - agc.half) (agc.corePasses a)),
        divide (agc.x (a.start + k))
          (agc.coreNorm a (min (k + 1 - agc.half) (agc.corePasses a)))⟩ else none := by
  rw [gain_out agc a hwindow, List.getElem?_map]
  by_cases hk : k < agc.passes a
  · rw [if_pos hk, List.getElem?_range hk, Option.map_some]
  · rw [if_neg hk, List.getElem?_eq_none (by rw [List.length_range]; omega), Option.map_none]

theorem written_once_iff (agc : Agc) (a : Arrival) (hwindow : 1 ≤ agc.window) (p : ℤ) :
    ((agc.gain a).out.filter fun o => o.pos = p).length = 1 ↔
      a.yp ≤ p ∧ p < a.yp + agc.passes a := by
  rw [gain_out agc a hwindow, length_filter_positions a.yp p _ _ fun _ => rfl]
  by_cases h : a.yp ≤ p ∧ p < a.yp + agc.passes a
  · rw [if_pos h]
    exact iff_of_true rfl h
  · rw [if_neg h]
    exact iff_of_false Nat.zero_ne_one h

/-- The passes write all live positions exactly if the pointers are aligned. -/
theorem passes_cover_iff (agc : Agc) (a : Arrival) :
    (∀ p, a.start ≤ p → p < agc.base + agc.nt → a.yp ≤ p ∧ p < a.yp + agc.passes a) ↔
      agc.Aligned a := by
  unfold Aligned live
  constructor
  · intro h
    by_cases hlive : a.start < agc.base + agc.nt
    · have hfirst := h a.start le_rfl hlive
      have hlast := h (agc.base + agc.nt - 1) (by omega) (by omega)
      exact .inr ⟨hfirst.1, by omega⟩
    · exact .inl (by omega)
  · rintro (hnone | ⟨hle, hend⟩) p hp hlt
    · omega
    · omega

/-- The gain loops are right exactly if the windows have energy and the pointers are aligned. -/
theorem right_gain_iff {fuel : ℕ} (hrun : agc.arrive fuel = some (.arrived a)) :
    agc.RightGain a ↔ agc.Energy a ∧ agc.Aligned a := by
  obtain ⟨hnorm, hne⟩ := arrive_arrived hrun
  have hwindow : 1 ≤ agc.window := window_pos (hnorm ▸ hne)
  have hget := getElem?_gain_out agc a hwindow
  unfold RightGain
  simp only [written_once_iff agc a hwindow]
  rw [passes_cover_iff]
  refine and_congr_left fun _ => ⟨fun h j hj => ?_, fun henergy k o ho => ?_⟩
  · rcases Nat.eq_zero_or_pos j with rfl | hpos
    · rw [Nat.cast_zero, add_zero, ← hnorm]
      exact hne
    · -- the pass that has this window
      have hpass : agc.half + j - 1 < agc.passes a := by
        unfold passes corePasses at *
        omega
      have hmin : min (agc.half + j - 1 + 1 - agc.half) (agc.corePasses a) = j := by omega
      obtain ⟨hnorm', hvalue⟩ := h _ _ ((hget _).trans (if_pos hpass))
      rw [windowAt, hmin] at hnorm'
      dsimp only at hnorm' hvalue
      rw [hmin] at hvalue
      rw [← hnorm']
      exact (divide_eq_some.1 hvalue).1
  · rw [hget] at ho
    split_ifs at ho with hk
    obtain rfl := Option.some.inj ho
    have hle : min (k + 1 - agc.half) (agc.corePasses a) ≤ agc.corePasses a := min_le_right _ _
    have hcore := coreNorm_eq hnorm hwindow (n := min (k + 1 - agc.half) (agc.corePasses a))
      fun j hj => henergy j (by omega)
    refine ⟨hcore, ?_⟩
    dsimp only
    rw [divide_eq_some, hcore]
    exact ⟨henergy _ hle, rfl⟩

/-- Without detection, and with energy at its beginning, the whole trace is live. -/
theorem arrive_direct (agc : Agc) (hdetect : agc.detect = false)
    (hne : agc.windowNorm agc.base ≠ 0) :
    agc.arrive 1 = some (.arrived ⟨agc.base, agc.base, agc.norm agc.base (agc.base + agc.window),
      indices agc.base (agc.base + agc.window) ++ []⟩) := by
  rw [← norm_window] at hne
  rw [arrive, hdetect, if_neg Bool.false_ne_true]
  exact if_neg hne

/-- The pointers are aligned where the output stands at the arrival. -/
theorem aligned_of_yp (h : a.yp = a.start) : agc.Aligned a := by
  unfold Aligned passes live
  omega

end Norms

/-! ### A trace of one sample, and a window that loses its energy -/

theorem right_gain_oneSample :
    ∃ a, oneSample.arrive 1 = some (.arrived a) ∧ oneSample.RightGain a := by
  have hne : ∀ i, oneSample.windowNorm i ≠ 0 := by
    intro i
    have hwindow : oneSample.windowNorm i = |1| := Finset.sum_range_one _
    rw [hwindow, abs_one]
    exact one_ne_zero
  have hrun := arrive_direct oneSample rfl (hne oneSample.base)
  exact ⟨_, hrun, (right_gain_iff hrun).2 ⟨fun j _ => hne _, aligned_of_yp rfl⟩⟩

/-- The sample that the window begins with is the only one with energy. -/
def lateSample : Agc := ⟨1, 1, false, .finite 25, 2, fun i => if i = 2 then 1 else 0⟩

/-- After the first pass the norm is zero, and the samples are not defined. -/
theorem lateSample_not_right : ∃ a, lateSample.arrive 1 = some (.arrived a) ∧
    (lateSample.gain a).out.map Output.value = [none, none] ∧ ¬ lateSample.RightGain a := by
  have hne : lateSample.windowNorm lateSample.base ≠ 0 := by decide +kernel
  have hvalues : (lateSample.gain ⟨lateSample.base, lateSample.base,
      lateSample.norm lateSample.base (lateSample.base + lateSample.window),
      indices lateSample.base (lateSample.base + lateSample.window) ++ []⟩).out.map Output.value =
        [none, none] := by decide +kernel
  refine ⟨_, arrive_direct lateSample rfl hne, hvalues, ?_⟩
  rintro ⟨hright, -⟩
  have hfirst : _ = some none := congrArg (fun l => l[0]?) hvalues
  rw [List.getElem?_map, Option.map_eq_some_iff] at hfirst
  obtain ⟨o, ho, hnone⟩ := hfirst
  exact nomatch hnone.symm.trans (hright 0 o ho).2

end Agc

end PQL
