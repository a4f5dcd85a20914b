import PQL.Lib.Arrays
import PQL.Lib.CInt

/-!
# Component rotation

`xyzUVW` replaces the samples of three components by those along other axes, in place and over the
time span that the traces share.  It reads each trace from the common start on but writes from index
0 on, and takes the common start to be 1970 at the earliest, so the samples end up at their own
times only when the traces start together, unless they vanish (`xyzUVW_rotates_iff`).  Times and
samples are exact; the square roots of the sensor matrices are parameters.
-/

namespace PQL

inductive Component where
  | E
  | N
  | Z
deriving DecidableEq, Repr

inductive CompGroup where
  | ENZ
  | ONE23
  | ONE2Z
deriving DecidableEq, Repr

inductive Sensor where
  | STS2
  | TRILLIUM
  | other
deriving DecidableEq, Repr

/-- Three values, one a component. -/
def ofThree {α : Type} (e n z : α) : Component → α
  | .E => e
  | .N => n
  | .Z => z

/-- The three results, if all are there. -/
def allThree {α : Type} (f : Component → Option α) : Option (Component → α) :=
  (f .E).bind fun e => (f .N).bind fun n => (f .Z).map fun z => ofThree e n z

/-- The header fields that the rotation reads; `sampInt` is in microseconds. -/
structure TFormHead where
  epochs : ℚ
  length : ℚ
  sampInt : ℚ

/-- A transformed trace; there is no header for data that does not come from a file. -/
structure TrcNData (K : Type) where
  trc : Option TFormHead
  data : List K

/-! ## The rotation -/

section Model

variable {K : Type} [Field K]

/-- The matrix of a sensor; `w2`, `w3` and `w6` are the square roots of 2, 3 and 6. -/
def sensorMatrix (w2 w3 w6 : K) (sensor : Sensor) : Component → Component → K :=
  let u : K := match sensor with
    | .STS2 => -2 / w6
    | .TRILLIUM => 2 / w6
    | .other => 0
  let v : K := match sensor with
    | .STS2 => 1 / w6
    | .TRILLIUM => -1 / w6
    | .other => 0
  ofThree (ofThree u 0 (w2 / w6)) (ofThree v (w3 / w6) (w2 / w6)) (ofThree v (-w3 / w6) (w2 / w6))

/-- A component of the rotated sample. -/
def rotated (M : Component → Component → K) (x : Component → K) (c : Component) : K :=
  M c .E * x .E + M c .N * x .N + M c .Z * x .Z

/-- One step of the rotation loop. -/
def rotateStep (M : Component → Component → K) (start : Component → ℤ)
    (data : Component → List K) (j : ℤ) : Option (Component → List K) :=
  (allThree fun i => load (data i) (j + start i)).bind fun x =>
    allThree fun c => store (data c) j (rotated M x c)

/-- The heads are set to zero, the common window is rotated, the tails are set to zero. -/
def rotate (M : Component → Component → K) (start : Component → ℤ) (npts : ℤ)
    (data : Component → List K) : Option (Component → List K) :=
  (allThree fun c => fill (data c) 0 (start c) 0).bind fun data =>
    (forLoop 0 npts (rotateStep M start) data).bind fun data =>
      allThree fun c => fill (data c) npts (data c).length 0

/-- The group of component names that the table has. -/
def compGroup (compNm : CompGroup → Component → String) (comp : String → Option (TrcNData K)) :
    Option CompGroup :=
  [CompGroup.ENZ, .ONE23, .ONE2Z].find? fun g =>
    (comp (compNm g .E)).isSome && (g = .ENZ || (comp (compNm g .Z)).isSome)

def components (compNm : CompGroup → Component → String) (comp : String → Option (TrcNData K)) :
    Option (Component → TrcNData K) :=
  (compGroup compNm comp).bind fun g => allThree fun c => comp (compNm g c)

/-- The latest start, not before 1970. -/
def epochStart (head : Component → TFormHead) : ℚ :=
  max (max (max 0 (head .E).epochs) (head .N).epochs) (head .Z).epochs

def TFormHead.stop (head : TFormHead) : ℚ := head.epochs + head.length

/-- The earliest end. -/
def epochEnd (head : Component → TFormHead) : ℚ :=
  min (min (head .E).stop (head .N).stop) (head .Z).stop

def TFormHead.rate (head : TFormHead) : ℚ := 1000000 / head.sampInt

/-- The first common sample of a component. -/
def commonStart (head : Component → TFormHead) (c : Component) : ℤ :=
  truncate ((epochStart head - (head c).epochs) * (head c).rate)

def commonPoints (head : Component → TFormHead) : ℤ :=
  truncate ((epochEnd head - epochStart head) * (head .E).rate + 1)

/-- The common window; there is none when only some of the headers are there. -/
def commonWindow (comps : Component → TrcNData K) : Option ((Component → ℤ) × ℤ) :=
  match allThree fun c => (comps c).trc with
  | some head => some (commonStart head, commonPoints head)
  | none =>
    if [Component.E, .N, .Z].any fun c => (comps c).trc.isSome then none
    else some (fun _ => 0, (comps .E).data.length)

/-- `xyzUVW`: the rotated data, or nothing inside when a component is missing.  There is no result
when an access is out of bounds. -/
def xyzUVW (compNm : CompGroup → Component → String) (w2 w3 w6 : K)
    (comp : String → Option (TrcNData K)) (sensor : Sensor) :
    Option (Option (Component → List K)) :=
  match components compNm comp with
  | none => some none
  | some comps =>
    (commonWindow comps).bind fun (start, npts) =>
      (rotate (sensorMatrix w2 w3 w6 sensor) start npts fun c => (comps c).data).map some

/-! ## The loops -/

@[simp] theorem allThree_some {α : Type} (f : Component → α) :
    (allThree fun c => some (f c)) = some f := by
  simp only [allThree, Option.bind_some, Option.map_some, Option.some.injEq]
  funext c
  cases c <;> rfl

theorem allThree_eq_some {α : Type} {f : Component → Option α} {g : Component → α} :
    allThree f = some g ↔ ∀ c, f c = some (g c) := by
  constructor
  · intro h
    obtain ⟨e, he, h⟩ := Option.bind_eq_some_iff.1 h
    obtain ⟨n, hn, h⟩ := Option.bind_eq_some_iff.1 h
    obtain ⟨z, hz, rfl⟩ := Option.map_eq_some_iff.1 h
    intro c
    cases c with
    | E => exact he
    | N => exact hn
    | Z => exact hz
  · intro h
    rw [funext h]
    exact allThree_some g

theorem allThree_eq_none {α : Type} {f : Component → Option α} {c : Component} (h : f c = none) :
    allThree f = none := by
  by_contra hne
  obtain ⟨g, hg⟩ := Option.ne_none_iff_exists'.1 hne
  exact nomatch h.symm.trans (allThree_eq_some.1 hg c)

variable (M : Component → Component → K) (start n : Component → ℕ) (f : Component → ℕ → K)

/-- The rotated sample that the loop computes in step `k`. -/
def windowSample (k : ℕ) : Component → K := rotated M fun i => f i (k + start i)

/-- A step of the loop writes behind what it still has to read. -/
theorem rotateStep_eq {m : ℕ} (hm : ∀ c, m + start c < n c) :
    rotateStep M (fun c => start c)
      (fun c => tabulate (n c) fun k => if k < m then windowSample M start f k c else f c k) m =
    some fun c => tabulate (n c) fun k =>
      if k < m + 1 then windowSample M start f k c else f c k := by
  have hload : ∀ c, load (tabulate (n c) fun k =>
      if k < m then windowSample M start f k c else f c k) ((m : ℤ) + start c) =
        some (f c (m + start c)) := by
    intro c
    have := hm c
    rw [load_tabulate (by omega) (by omega), if_neg (by omega)]
    rfl
  have hread : (allThree fun i => load (tabulate (n i) fun k =>
      if k < m then windowSample M start f k i else f i k) ((m : ℤ) + start i)) =
        some fun i => f i (m + start i) := allThree_eq_some.2 hload
  rw [rotateStep, hread, Option.bind_some]
  apply allThree_eq_some.2
  intro c
  have := hm c
  rw [store_tabulate (by omega) (by omega), Option.some.injEq, Int.toNat_natCast]
  exact tabulate_update_if fun k => by omega

theorem forLoop_rotateStep {npts : ℕ} (h : ∀ c, npts + start c ≤ n c) :
    forLoop 0 npts (rotateStep M fun c => start c) (fun c => tabulate (n c) (f c)) =
      some fun c => tabulate (n c) fun k =>
        if k < npts then windowSample M start f k c else f c k := by
  rw [forLoop, sub_zero, Int.toNat_natCast]
  apply loopSteps_invariant fun m c =>
    tabulate (n c) fun k => if k < m then windowSample M start f k c else f c k
  · funext c
    exact tabulate_congr fun k _ => if_neg k.not_lt_zero
  · intro m hm
    rw [zero_add]
    apply rotateStep_eq
    intro c
    have := h c
    omega

/-- The three loops, when their ranges lie in the arrays. -/
theorem rotate_tabulate {npts : ℕ} (h : ∀ c, npts + start c ≤ n c) :
    rotate M (fun c => start c) npts (fun c => tabulate (n c) (f c)) =
      some fun c => tabulate (n c) fun k => if k < npts then windowSample M start f k c else 0 := by
  have hhead : ∀ c, fill (tabulate (n c) (f c)) 0 (start c) 0 =
      some (tabulate (n c) fun k => if k < start c then 0 else f c k) := by
    intro c
    have := h c
    rw [fill_tabulate 0 le_rfl (by omega), Option.some.injEq]
    exact tabulate_if_congr fun k => by omega
  rw [rotate, allThree_eq_some.2 hhead, Option.bind_some, forLoop_rotateStep _ _ _ _ h,
    Option.bind_some]
  apply allThree_eq_some.2
  intro c
  have := h c
  rw [length_tabulate, fill_tabulate 0 (by omega) le_rfl, Option.some.injEq]
  apply tabulate_congr
  intro k hk
  by_cases hin : k < npts
  · rw [if_neg (by omega), if_pos hin, if_pos hin]
    -- The zeroed heads are never read.
    simp only [windowSample]
    congr 1
    funext i
    rw [if_neg (by omega)]
  · rw [if_pos (by omega), if_neg hin]

/-- A negative number of points makes the last loops start before the arrays. -/
theorem rotate_eq_none {npts : ℤ} (h : npts < 0) (start : Component → ℤ)
    (data : Component → List K) : rotate M start npts data = none := by
  rw [rotate]
  rcases hhead : allThree fun c => fill (data c) 0 (start c) 0 with _ | heads
  · rfl
  · rw [Option.bind_some, forLoop_of_le h.le, Option.bind_some]
    apply allThree_eq_none (c := .E)
    exact fill_eq_none 0 (by omega) (.inl h)

end Model

/-! ## Times -/

/-- Three traces on a common grid: their headers agree with their data, they have one sampling
interval and their start times are whole sampling intervals apart. -/
structure OnCommonGrid (K : Type) where
  head : Component → TFormHead
  data : Component → List K
  dt : ℚ
  dt_pos : 0 < dt
  sampInt_eq : ∀ c, (head c).sampInt = dt * 1000000
  length_eq : ∀ c, (head c).length = ((data c).length - 1) * dt
  apart : ∀ c d, ∃ m : ℤ, (head c).epochs - (head d).epochs = m * dt

namespace OnCommonGrid

variable {K : Type} [Field K] (g : OnCommonGrid K)

/-- The time of a sample. -/
def time (c : Component) (k : ℕ) : ℚ := (g.head c).epochs + k * g.dt

/-- The common time span. -/
def T0 : ℚ := max (max (g.head .E).epochs (g.head .N).epochs) (g.head .Z).epochs

def T1 : ℚ := epochEnd g.head

/-- One sample of each component at the time `t`. -/
structure At (k : Component → ℕ) (t : ℚ) : Prop where
  lt : ∀ c, k c < (g.data c).length
  time_eq : ∀ c, g.time c (k c) = t

/-- The samples of the components at `k`. -/
def sample (k : Component → ℕ) (c : Component) : K := (g.data c).getD (k c) 0

/-- Each component is the rotated one over the common span and zero outside. -/
structure Rotated (M : Component → Component → K) (out : Component → List K) : Prop where
  length : ∀ c, (out c).length = (g.data c).length
  inside : ∀ k t, g.At k t → ∀ c, (out c).getD (k c) 0 = rotated M (g.sample k) c
  outside : ∀ c, ∀ k < (g.data c).length, g.time c k < g.T0 ∨ g.T1 < g.time c k →
    (out c).getD k 0 = 0

/-- The rotated component is zero at each common time that satisfies `p`. -/
def Vanishes (M : Component → Component → K) (c : Component) (p : ℚ → Prop) : Prop :=
  ∀ k t, g.At k t → p t → rotated M (g.sample k) c = 0

/-! ### Whole sampling intervals -/

/-- The part of a sampling interval by which the grid is shifted. -/
def shift : ℚ := Int.fract ((g.head .E).epochs / g.dt)

/-- The start of a trace in sampling intervals. -/
def index (c : Component) : ℤ := ⌊(g.head c).epochs / g.dt⌋

def first : ℤ := max (max (g.index .E) (g.index .N)) (g.index .Z)

def lastIndex (c : Component) : ℤ := g.index c + (g.data c).length - 1

def last : ℤ := min (min (g.lastIndex .E) (g.lastIndex .N)) (g.lastIndex .Z)

/-- The time of a place of the grid. -/
def gridTime (m : ℤ) : ℚ := (m + g.shift) * g.dt

omit [Field K] in
theorem gridTime_strictMono : StrictMono g.gridTime := by
  intro m n h
  have hcast : (m : ℚ) < n := Int.cast_lt.2 h
  exact mul_lt_mul_of_pos_right (by linarith) g.dt_pos

omit [Field K] in
theorem gridTime_add (m n : ℤ) : g.gridTime (m + n) = g.gridTime m + n * g.dt := by
  unfold gridTime
  push_cast
  ring

omit [Field K] in
theorem epochs_eq (c : Component) : (g.head c).epochs = g.gridTime (g.index c) := by
  obtain ⟨m, hm⟩ := g.apart c .E
  have hdt := g.dt_pos.ne'
  have hquot : (g.head c).epochs / g.dt = (g.head .E).epochs / g.dt + m := by
    rw [← sub_eq_iff_eq_add', ← sub_div, hm, mul_div_cancel_right₀ _ hdt]
  rw [gridTime, ← div_eq_iff hdt, index, shift, hquot, Int.floor_add_intCast]
  push_cast
  have := Int.floor_add_fract ((g.head .E).epochs / g.dt)
  linarith

omit [Field K] in
theorem time_eq_gridTime (c : Component) (k : ℕ) : g.time c k = g.gridTime (g.index c + k) := by
  rw [time, epochs_eq, gridTime_add, Int.cast_natCast]

omit [Field K] in
theorem stop_eq (c : Component) : (g.head c).stop = g.gridTime (g.lastIndex c) := by
  rw [TFormHead.stop, epochs_eq, g.length_eq, lastIndex, add_sub_assoc, gridTime_add]
  push_cast
  rfl

omit [Field K] in
theorem T0_eq : g.T0 = g.gridTime g.first := by
  have hmax : ∀ m n, g.gridTime (max m n) = max (g.gridTime m) (g.gridTime n) := fun _ _ =>
    g.gridTime_strictMono.monotone.map_max
  rw [T0, epochs_eq, epochs_eq, epochs_eq, first, hmax, hmax]

omit [Field K] in
theorem T1_eq : g.T1 = g.gridTime g.last := by
  have hmin : ∀ m n, g.gridTime (min m n) = min (g.gridTime m) (g.gridTime n) := fun _ _ =>
    g.gridTime_strictMono.monotone.map_min
  rw [T1, epochEnd, stop_eq, stop_eq, stop_eq, last, hmin, hmin]

omit [Field K] in
theorem index_le_first (c : Component) : g.index c ≤ g.first := by
  unfold first
  cases c <;> omega

omit [Field K] in
theorem last_le_lastIndex (c : Component) : g.last ≤ g.lastIndex c := by
  unfold last
  cases c <;> omega

/-! ### The window -/

/-- The window of the code: it starts at the place `S` of the grid and has `P` points. -/
structure Window (S P : ℤ) : Prop where
  start : ∀ c, commonStart g.head c = S - g.index c
  points : commonPoints g.head = P
  first_le : g.first ≤ S
  fits : 0 ≤ P → S + P ≤ g.last + 1
  points_neg : P < 0 ↔ g.T1 + 2 * g.dt ≤ max 0 g.T0
  start_iff : ∀ c, S = g.index c ↔ max 0 g.T0 - (g.head c).epochs < g.dt
  since1970 : 0 ≤ g.T0 → S = g.first ∧ P = g.last - g.first + 1
  before1970 : g.T0 < 0 → S = g.first → g.first ≤ g.last → P = g.last - g.first

omit [Field K] in
theorem epochStart_eq : epochStart g.head = max 0 g.T0 := by
  rw [epochStart, T0, max_assoc, max_assoc, max_assoc]

omit [Field K] in
theorem mul_rate (c : Component) (x : ℚ) : x * g.dt * (g.head c).rate = x := by
  have hdt := g.dt_pos.ne'
  rw [TFormHead.rate, g.sampInt_eq]
  field_simp

omit [Field K] in
theorem gridTime_lt_iff {m n : ℤ} : g.gridTime m < g.gridTime n ↔ m < n :=
  g.gridTime_strictMono.lt_iff_lt

omit [Field K] in
theorem gridTime_le_iff {m n : ℤ} : g.gridTime m ≤ g.gridTime n ↔ m ≤ n :=
  g.gridTime_strictMono.le_iff_le

omit [Field K] in
/-- The common span starts in 1970 or later. -/
theorem window_since1970 (h : 0 ≤ g.T0) : g.Window g.first (g.last - g.first + 1) := by
  have hmax : max 0 g.T0 = g.gridTime g.first := by rw [max_eq_right h, T0_eq]
  have hdiff : ∀ m n, g.gridTime m - g.gridTime n = ((m - n : ℤ) : ℚ) * g.dt := by
    intro m n
    rw [gridTime, gridTime]
    push_cast
    ring
  refine ⟨fun c => ?_, ?_, le_rfl, fun _ => by omega, ?_, fun c => ?_, fun _ => ⟨rfl, rfl⟩,
    fun hneg => absurd h hneg.not_ge⟩
  · rw [commonStart, epochStart_eq, hmax, epochs_eq, hdiff, mul_rate, truncate_intCast]
  · rw [commonPoints, epochStart_eq, hmax, show epochEnd g.head = g.T1 from rfl, T1_eq, hdiff,
      mul_rate, ← Int.cast_one, ← Int.cast_add, truncate_intCast]
  · have hadd := g.gridTime_add g.last 2
    rw [hmax, T1_eq, show (2 : ℚ) = ((2 : ℤ) : ℚ) by norm_num, ← hadd, gridTime_le_iff]
    omega
  · have hadd := g.gridTime_add (g.index c) 1
    rw [Int.cast_one, one_mul] at hadd
    have hle := g.index_le_first c
    rw [hmax, epochs_eq, sub_lt_iff_lt_add', ← hadd, gridTime_lt_iff]
    omega

omit [Field K] in
/-- The common span starts before 1970. -/
theorem window_before1970 (h : g.T0 < 0) :
    g.Window ⌊-g.shift⌋ (truncate (g.last + g.shift + 1)) := by
  have hmax : max 0 g.T0 = 0 := max_eq_left h.le
  have hshift₀ : 0 ≤ g.shift := Int.fract_nonneg _
  have hshift₁ : g.shift < 1 := Int.fract_lt_one _
  have hneg : ∀ m, g.gridTime m < 0 ↔ (m : ℚ) + g.shift < 0 := fun m => by
    rw [gridTime, mul_neg_iff]
    have := g.dt_pos
    constructor
    · rintro (⟨_, hdt⟩ | ⟨hm, _⟩)
      · linarith
      · exact hm
    · exact fun hm => .inr ⟨hm, this⟩
  have hfirst : (g.first : ℚ) + g.shift < 0 := by rwa [← hneg, ← T0_eq]
  have hS : ⌊-g.shift⌋ ≤ 0 := by
    rw [← Int.lt_add_one_iff, Int.floor_lt]
    push_cast
    linarith
  have hpoints : 0 ≤ (g.last : ℚ) + g.shift + 1 →
      truncate (g.last + g.shift + 1) = g.last + 1 := by
    intro hx
    rw [truncate_of_nonneg hx, Int.floor_eq_iff]
    push_cast
    constructor <;> linarith
  refine ⟨fun c => ?_, ?_, ?_, fun hP => ?_, ?_, fun c => ?_, fun h₀ => absurd h₀ h.not_ge,
    fun _ hSfirst hspan => ?_⟩
  · have hidx : (g.index c : ℚ) ≤ g.first := Int.cast_le.2 (g.index_le_first c)
    rw [commonStart, epochStart_eq, hmax, epochs_eq, gridTime, zero_sub, ← neg_mul, mul_rate,
      truncate_of_nonneg (by linarith), neg_add_rev, ← sub_eq_add_neg, Int.floor_sub_intCast]
  · rw [commonPoints, epochStart_eq, hmax, show epochEnd g.head = g.T1 from rfl, T1_eq, sub_zero,
      gridTime, mul_rate]
  · rw [Int.le_floor]
    linarith
  · by_cases hx : 0 ≤ (g.last : ℚ) + g.shift + 1
    · rw [hpoints hx]
      omega
    · have hfloor : truncate (g.last + g.shift + 1) = g.last + 1 - ⌊-g.shift⌋ := by
        rw [← neg_neg ((g.last : ℚ) + g.shift + 1), truncate_neg, truncate_of_nonneg (by linarith)]
        have hsplit : -((g.last : ℚ) + g.shift + 1) = -g.shift - ((g.last + 1 : ℤ) : ℚ) := by
          push_cast
          ring
        rw [hsplit, Int.floor_sub_intCast]
        omega
      omega
  · rw [truncate_neg_iff, hmax, T1_eq, gridTime, ← add_mul]
    have hdt := g.dt_pos
    constructor
    · intro hx
      exact mul_nonpos_of_nonpos_of_nonneg (by linarith) hdt.le
    · intro hx
      have := nonpos_of_mul_nonpos_left hx hdt
      linarith
  · have hidx : (g.index c : ℚ) ≤ g.first := Int.cast_le.2 (g.index_le_first c)
    have hdt := g.dt_pos
    rw [Int.floor_eq_iff, hmax, zero_sub, epochs_eq, gridTime, ← neg_mul,
      mul_lt_iff_lt_one_left hdt]
    constructor
    · rintro ⟨-, hlt⟩
      linarith
    · exact fun hlt => ⟨by linarith, by linarith⟩
  · have hlast : (g.first : ℚ) ≤ g.last := Int.cast_le.2 hspan
    have hlt := Int.lt_floor_add_one (-g.shift)
    rw [hSfirst] at hlt
    have hfirst₁ : g.first = -1 := by
      have h₁ : (g.first : ℚ) < ((0 : ℤ) : ℚ) := by push_cast; linarith
      have h₂ : ((-2 : ℤ) : ℚ) < g.first := by push_cast; linarith
      rw [Int.cast_lt] at h₁ h₂
      omega
    rw [hfirst₁] at hlast
    push_cast at hlast
    rw [hpoints (by linarith), hfirst₁]
    omega

omit [Field K] in
theorem exists_window : ∃ S P, g.Window S P := by
  rcases le_or_gt 0 g.T0 with h | h
  · exact ⟨_, _, g.window_since1970 h⟩
  · exact ⟨_, _, g.window_before1970 h⟩

end OnCommonGrid

/-- A sequence that is zero outside `[A, B]`, written from its entry `S` on to the place that starts
with its entry `a`, is unchanged only if it vanishes, or starts there and vanishes from where the
copy ends. -/
theorem shifted_eq_iff {K : Type} [Zero K] {r : ℤ → K} {A B S a P : ℤ} {n : ℕ}
    (hr : ∀ τ, τ < A ∨ B < τ → r τ = 0) (haA : a ≤ A) (hAS : A ≤ S) (hn : B ≤ a + n - 1) :
    (∀ k < n, (if (k : ℤ) < P then r (S + k) else 0) = r (a + k)) ↔
      (∀ τ, r τ = 0) ∨ S = a ∧ ∀ τ, A + P ≤ τ → r τ = 0 := by
  constructor
  · intro h
    rcases (haA.trans hAS).lt_or_eq with hlt | heq
    · left
      -- Backwards: an entry is zero because the one `S - a` later is.
      have hback : ∀ j : ℕ, ∀ τ, B - j < τ → r τ = 0 := by
        intro j
        induction j with
        | zero => exact fun τ hτ => hr τ (.inr (by push_cast at hτ; omega))
        | succ j ih =>
          intro τ hτ
          push_cast at hτ
          by_cases hout : τ < A ∨ B < τ
          · exact hr τ hout
          · have hk := h (τ - a).toNat (by omega)
            have hτk : a + ((τ - a).toNat : ℤ) = τ := by omega
            rw [hτk] at hk
            rw [← hk, ih _ (by omega)]
            split_ifs <;> rfl
      intro τ
      exact hback (B - τ + 1).toNat τ (by omega)
    · right
      refine ⟨heq.symm, fun τ hτ => ?_⟩
      by_cases hout : τ < A ∨ B < τ
      · exact hr τ hout
      · have hk := h (τ - a).toNat (by omega)
        have hτk : a + ((τ - a).toNat : ℤ) = τ := by omega
        rw [if_neg (by omega), hτk] at hk
        exact hk.symm
  · rintro (hzero | ⟨rfl, hzero⟩) k hk
    · rw [hzero, hzero]
      split_ifs <;> rfl
    · split_ifs with hP
      · rfl
      · exact (hzero _ (by omega)).symm

namespace OnCommonGrid

variable {K : Type} [Field K] (g : OnCommonGrid K) (M : Component → Component → K)

/-! ### The rotated components on the grid -/

/-- The rotated component at a place of the grid, zero outside the common span. -/
def placed (c : Component) (τ : ℤ) : K :=
  if g.first ≤ τ ∧ τ ≤ g.last then
    rotated M (fun i => (g.data i).getD (τ - g.index i).toNat 0) c
  else 0

theorem placed_outside {c : Component} {τ : ℤ} (h : τ < g.first ∨ g.last < τ) :
    g.placed M c τ = 0 := by
  rw [placed, if_neg (by omega)]

omit [Field K] in
/-- The samples at one time are those at one place of the common span. -/
theorem at_iff {k : Component → ℕ} {t : ℚ} :
    g.At k t ↔
      ∃ τ, t = g.gridTime τ ∧ g.first ≤ τ ∧ τ ≤ g.last ∧ ∀ c, (k c : ℤ) = τ - g.index c := by
  constructor
  · rintro ⟨hlt, htime⟩
    have hplace : ∀ c, g.index c + k c = g.index .E + k .E := by
      intro c
      apply g.gridTime_strictMono.injective
      rw [← time_eq_gridTime, ← time_eq_gridTime, htime, htime]
    refine ⟨g.index .E + k .E, ?_, ?_, ?_, fun c => ?_⟩
    · rw [← time_eq_gridTime, htime]
    · have hN := hplace .N
      have hZ := hplace .Z
      unfold first
      omega
    · have hN := hplace .N
      have hZ := hplace .Z
      have := hlt .E
      have := hlt .N
      have := hlt .Z
      unfold last lastIndex
      omega
    · have := hplace c
      omega
  · rintro ⟨τ, rfl, hfirst, hlast, hk⟩
    refine ⟨fun c => ?_, fun c => ?_⟩
    · have h := g.last_le_lastIndex c
      have := hk c
      unfold lastIndex at h
      omega
    · rw [time_eq_gridTime, hk c]
      congr 1
      omega

theorem rotated_sample {k : Component → ℕ} {τ : ℤ} (hfirst : g.first ≤ τ) (hlast : τ ≤ g.last)
    (hk : ∀ c, (k c : ℤ) = τ - g.index c) (c : Component) :
    rotated M (g.sample k) c = g.placed M c τ := by
  rw [placed, if_pos ⟨hfirst, hlast⟩]
  congr 1
  funext i
  rw [sample, ← hk i, Int.toNat_natCast]

theorem vanishes_iff {c : Component} {p : ℚ → Prop} :
    g.Vanishes M c p ↔ ∀ τ, p (g.gridTime τ) → g.placed M c τ = 0 := by
  constructor
  · intro h τ hp
    by_cases hin : g.first ≤ τ ∧ τ ≤ g.last
    · have hk : ∀ i, ((τ - g.index i).toNat : ℤ) = τ - g.index i := by
        intro i
        have := g.index_le_first i
        omega
      rw [← g.rotated_sample M hin.1 hin.2 hk]
      exact h _ _ (g.at_iff.2 ⟨τ, rfl, hin.1, hin.2, hk⟩) hp
    · exact g.placed_outside M (by omega)
  · intro h k t hat hp
    obtain ⟨τ, rfl, hfirst, hlast, hk⟩ := g.at_iff.1 hat
    rw [g.rotated_sample M hfirst hlast hk]
    exact h τ hp

/-- The data is right when each entry is the rotated component at its place. -/
theorem rotated_tabulate_iff (f : Component → ℕ → K) :
    g.Rotated M (fun c => tabulate (g.data c).length (f c)) ↔
      ∀ c, ∀ k < (g.data c).length, f c k = g.placed M c (g.index c + k) := by
  have hget : ∀ c, ∀ k < (g.data c).length,
      (tabulate (g.data c).length (f c)).getD k 0 = f c k := by
    intro c k hk
    rw [List.getD_eq_getElem?_getD, getElem?_tabulate, if_pos hk, Option.getD_some]
  constructor
  · intro h c k hk
    rw [← hget c k hk]
    by_cases hin : g.first ≤ g.index c + k ∧ g.index c + k ≤ g.last
    · have hplace : ∀ i, ((g.index c + k - g.index i).toNat : ℤ) =
          g.index c + k - g.index i := by
        intro i
        have := g.index_le_first i
        omega
      rw [← g.rotated_sample M hin.1 hin.2 hplace]
      have hinside := h.inside _ _ (g.at_iff.2 ⟨_, rfl, hin.1, hin.2, hplace⟩) c
      rwa [show (g.index c + k - g.index c).toNat = k by omega] at hinside
    · rw [g.placed_outside M (by omega)]
      apply h.outside c k hk
      rw [T0_eq, T1_eq, time_eq_gridTime, gridTime_lt_iff, gridTime_lt_iff]
      omega
  · intro h
    refine ⟨fun c => length_tabulate _ _, fun k t hat c => ?_, fun c k hk hout => ?_⟩
    · obtain ⟨τ, rfl, hfirst, hlast, hplace⟩ := g.at_iff.1 hat
      have hτ : g.index c + k c = τ := by
        have := hplace c
        omega
      rw [hget c _ (hat.lt c), h c _ (hat.lt c), hτ, g.rotated_sample M hfirst hlast hplace]
    · rw [hget c k hk, h c k hk]
      rw [T0_eq, T1_eq, time_eq_gridTime, gridTime_lt_iff, gridTime_lt_iff] at hout
      exact g.placed_outside M hout

/-- What the code makes of the three traces. -/
def run : Option (Component → List K) :=
  rotate M (commonStart g.head) (commonPoints g.head) g.data

variable {S P : ℤ}

theorem run_eq_some (w : g.Window S P) (hP : 0 ≤ P) :
    g.run M = some fun c => tabulate (g.data c).length fun k =>
      if (k : ℤ) < P then g.placed M c (S + k) else 0 := by
  have hstart : commonStart g.head = fun c => ((S - g.index c).toNat : ℤ) := by
    funext c
    have := g.index_le_first c
    have := w.first_le
    rw [w.start]
    omega
  have hdata : g.data = fun c => tabulate (g.data c).length fun k => (g.data c).getD k 0 := by
    funext c
    rw [tabulate_getD]
  have hfits : ∀ c, P.toNat + (S - g.index c).toNat ≤ (g.data c).length := by
    intro c
    have h := g.last_le_lastIndex c
    have := g.index_le_first c
    have := w.first_le
    have := w.fits hP
    unfold lastIndex at h
    omega
  have hrun := rotate_tabulate M (fun c => (S - g.index c).toNat) (fun c => (g.data c).length)
    (fun c k => (g.data c).getD k 0) hfits
  rw [Int.toNat_of_nonneg hP, ← hdata] at hrun
  rw [run, hstart, w.points, hrun, Option.some.injEq]
  funext c
  apply tabulate_congr
  intro k _
  by_cases hk : k < P.toNat
  · have hfirst := w.first_le
    have hfit := w.fits hP
    rw [if_pos hk, if_pos (by omega), placed, if_pos (by omega), windowSample]
    congr 1
    funext i
    have := g.index_le_first i
    congr 1
    omega
  · rw [if_neg hk, if_neg (by omega)]

/-- The rotation of the three traces is right: over a common span the components are rotated, and
without one no access is out of bounds. -/
structure Correct (result : Option (Option (Component → List K))) : Prop where
  common : g.T0 ≤ g.T1 → ∃ out, result = some (some out) ∧ g.Rotated M out
  disjoint : g.T1 < g.T0 → result.isSome

/-- When the rotation is right: the span does not end more than a sample before its start, or before
1970, and each component either starts with the span or vanishes. -/
structure Sound : Prop where
  inBounds : max 0 g.T0 < g.T1 + 2 * g.dt
  aligned : g.T0 ≤ g.T1 → ∀ c, g.Vanishes M c (fun _ => True) ∨
    max 0 g.T0 - (g.head c).epochs < g.dt ∧ (g.T0 < 0 → g.Vanishes M c (· = g.T1))

theorem correct_iff : g.Correct M ((g.run M).map some) ↔ g.Sound M := by
  obtain ⟨S, P, w⟩ := g.exists_window
  have hspan : g.T0 ≤ g.T1 ↔ g.first ≤ g.last := by rw [T0_eq, T1_eq, gridTime_le_iff]
  rcases lt_or_ge P 0 with hneg | hP
  · have hnone : g.run M = none := by
      rw [run, w.points]
      exact rotate_eq_none M hneg _ _
    have hbound := w.points_neg.1 hneg
    refine iff_of_false (fun h => ?_) fun h => absurd h.inBounds hbound.not_gt
    rcases le_or_gt g.T0 g.T1 with hle | hgt
    · obtain ⟨out, hout, -⟩ := h.common hle
      rw [hnone] at hout
      exact nomatch hout
    · have hsome := h.disjoint hgt
      rw [hnone] at hsome
      exact nomatch hsome
  · have hrun := g.run_eq_some M w hP
    have hbound : max 0 g.T0 < g.T1 + 2 * g.dt :=
      not_le.1 fun h => absurd (w.points_neg.2 h) hP.not_gt
    have hcomponent : ∀ c, (∀ k < (g.data c).length,
        (if (k : ℤ) < P then g.placed M c (S + k) else 0) = g.placed M c (g.index c + k)) ↔
        (∀ τ, g.placed M c τ = 0) ∨
          S = g.index c ∧ ∀ τ, g.first + P ≤ τ → g.placed M c τ = 0 := fun c =>
      shifted_eq_iff (fun τ => g.placed_outside M) (g.index_le_first c) w.first_le
        (g.last_le_lastIndex c)
    have hvanishes : ∀ c, g.Vanishes M c (fun _ => True) ↔ ∀ τ, g.placed M c τ = 0 := fun c => by
      rw [vanishes_iff]
      exact forall_congr' fun τ => imp_iff_right trivial
    -- What is left of the span behind the window of the code.
    have hrest : g.first ≤ g.last → ∀ c, S = g.index c →
        ((∀ τ, g.first + P ≤ τ → g.placed M c τ = 0) ↔
          (g.T0 < 0 → g.Vanishes M c (· = g.T1))) := by
      intro hle c hS
      have hSfirst : S = g.first := le_antisymm (hS ▸ g.index_le_first c) w.first_le
      rcases le_or_gt 0 g.T0 with h₀ | h₀
      · obtain ⟨-, hPeq⟩ := w.since1970 h₀
        refine iff_of_true (fun τ hτ => ?_) fun hneg => absurd h₀ hneg.not_ge
        exact g.placed_outside M (by omega)
      · have hPeq := w.before1970 h₀ hSfirst hle
        rw [imp_iff_right h₀, vanishes_iff]
        constructor
        · intro h τ hτ
          rw [T1_eq, g.gridTime_strictMono.injective.eq_iff] at hτ
          exact h τ (by omega)
        · intro h τ hτ
          by_cases hlast : τ = g.last
          · exact h τ (by rw [T1_eq, hlast])
          · exact g.placed_outside M (by omega)
    constructor
    · intro h
      refine ⟨hbound, fun hle c => ?_⟩
      obtain ⟨out, hout, hrotated⟩ := h.common hle
      rw [hrun] at hout
      obtain rfl := Option.some.inj (Option.some.inj hout)
      rw [rotated_tabulate_iff] at hrotated
      rcases (hcomponent c).1 (hrotated c) with hzero | ⟨hS, hzero⟩
      · exact .inl ((hvanishes c).2 hzero)
      · exact .inr ⟨(w.start_iff c).1 hS, (hrest (hspan.1 hle) c hS).1 hzero⟩
    · intro h
      rw [hrun]
      refine ⟨fun hle => ⟨_, rfl, ?_⟩, fun _ => rfl⟩
      rw [rotated_tabulate_iff]
      intro c
      apply (hcomponent c).2
      rcases h.aligned hle c with hzero | ⟨hstart, hzero⟩
      · exact .inl ((hvanishes c).1 hzero)
      · have hS := (w.start_iff c).2 hstart
        exact .inr ⟨hS, (hrest (hspan.1 hle) c hS).2 hzero⟩

theorem xyzUVW_eq {compNm : CompGroup → Component → String} {w2 w3 w6 : K}
    {comp : String → Option (TrcNData K)} {sensor : Sensor}
    (hcomps : components compNm comp = some fun c => ⟨some (g.head c), g.data c⟩) :
    xyzUVW compNm w2 w3 w6 comp sensor = (g.run (sensorMatrix w2 w3 w6 sensor)).map some := by
  have hwindow : commonWindow (fun c => (⟨some (g.head c), g.data c⟩ : TrcNData K)) =
      some (commonStart g.head, commonPoints g.head) := by
    simp only [commonWindow, allThree_some]
  simp only [xyzUVW, hcomps, hwindow, Option.bind_some]
  rfl

end OnCommonGrid

/-- Three traces of one sample a second that begin at `start`. -/
noncomputable def sampleGrid (start : Component → ℤ) (data : Component → List ℝ) :
    OnCommonGrid ℝ where
  head c := ⟨start c, (data c).length - 1, 1000000⟩
  data := data
  dt := 1
  dt_pos := one_pos
  sampInt_eq _ := (one_mul _).symm
  length_eq _ := (mul_one _).symm
  apart c d := ⟨start c - start d, by push_cast; ring⟩

/-- The components under their own names. -/
def sampleNames : CompGroup → Component → String
  | _, .E => "E"
  | _, .N => "N"
  | _, .Z => "Z"

/-- The table of three components. -/
def sampleTable {K : Type} (comps : Component → TrcNData K) (name : String) :
    Option (TrcNData K) :=
  if name = "E" then some (comps .E) else if name = "N" then some (comps .N)
  else if name = "Z" then some (comps .Z) else none

theorem components_sampleTable {K : Type} (comps : Component → TrcNData K) :
    components sampleNames (sampleTable comps) = some comps := by
  have htable : ∀ c, sampleTable comps (sampleNames .ENZ c) = some (comps c) := by
    intro c
    cases c <;> rfl
  have hgroup : compGroup sampleNames (sampleTable comps) = some .ENZ := rfl
  rw [components, hgroup, Option.bind_some]
  simp only [htable, allThree_some]

end PQL
