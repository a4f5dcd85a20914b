import PQL.Lib.Arrays
import PQL.Lib.Text
import PQL.Lib.While
import PQL.Plot.Graph

/-!
# The ticks of a linear axis

`xaxis` finds the power of ten below the length of an axis, walks from zero to the first tick and
steps from there, with a counter that tells where between two powers it is.  The counter is in step
with the point on either side of zero, so every tick is where it should be and of the right kind.
But the table of powers ends at `1e38`, and a label is made with the entry five places in front of
the power, with a conversion to `int` and in twenty bytes (`ticks_drawn_iff`).  This is an axis that
is not logarithmic and has no absolute start time; the arithmetic is exact.
-/

namespace PQL

/-- A `graph` that is not logarithmic, with the upper limit of its axis. -/
structure LinearGraph extends Graph where
  user_xmax : ℚ
  linear : logx = false

/-- The arguments of `xaxis`. -/
structure Axis where
  x0 : ℚ
  y0 : ℚ
  xn : ℚ
  tside : ℤ
  nside : ℤ
  ndivs : ℤ
  offset : ℚ
  inv : Bool

namespace Axis

inductive Mark where
  | major
  | middle
  | minor
deriving DecidableEq

/-- A number that is printed with `%.4g` or with `%10.8f`. -/
inductive Label where
  | general (q : ℚ)
  | fixed (q : ℚ)

structure Tick where
  mark : Mark
  pt : ℚ
  xpt : ℤ
  /-- Where the line of the tick ends, if it is drawn. -/
  tip : Option ℤ
  label : Option Label

/-- The line of the axis and its ticks. -/
structure Drawing where
  line : Option (ℤ × ℤ × ℤ)
  ticks : List Tick

/-! ## The computation -/

/-- The table `p`. -/
def powers : List ℚ := (List.range 77).map fun i => (10 : ℚ) ^ ((i : ℤ) - 38)

def majtick : ℤ := 7

def midtick : ℤ := 4

/-- `g_eq`. -/
def gEq (x y e : ℚ) : Bool := ¬(x < y - e ∨ x > y + e)

/-- `for (pwr = 76; p[pwr] >= xylen; pwr--);`, from `i` entries on; there is no entry in front of
the table. -/
def searchPower (xylen : ℚ) : ℕ → Option ℤ
  | 0 => none
  | i + 1 => (load powers i).bind fun q => if q ≥ xylen then searchPower xylen i else some i

/-- The characters that `%10.8f` prints. -/
def fixedLength (q : ℚ) : ℕ :=
  max 10 ((if q < 0 then 1 else 0) +
    (decimal ((roundEven (|q| * 10 ^ 8)).toNat / 10 ^ 8)).length + 9)

section Ticks

variable (L : Logs10) (gr : LinearGraph) (a : Axis)

/-- The checks in front. -/
def Accepted : Prop :=
  ¬(a.x0 < gr.user_xmin * (if gr.user_xmin < 0 then 101 / 100 else 99 / 100) ∨
    a.xn > gr.user_xmax * (if gr.user_xmax < 0 then 99 / 100 else 101 / 100)) ∧
  ¬a.x0 > a.xn ∧
  (a.tside = -1 ∨ a.tside = 0 ∨ a.tside = 1) ∧ (a.nside = -1 ∨ a.nside = 0 ∨ a.nside = 1)

instance : Decidable (a.Accepted gr) := inferInstanceAs (Decidable (_ ∧ _))

/-- The divisions between two major ticks. -/
def divisions : ℤ := if a.ndivs ≤ 1 then 10 else a.ndivs

/-- Where the line of a tick ends. -/
def tipOf (ypt size : ℤ) : Option ℤ :=
  if a.tside = 1 then some (ypt - size)
  else if a.tside = -1 then some (ypt + size) else none

/-- The label that `g_xmajt` makes in twenty bytes. -/
def labelOf (pwr : ℤ) (pt : ℚ) : Option Label :=
  (load powers (pwr - 5)).bind fun tiny =>
    let pt := if gEq 0 pt tiny then 0 else pt
    (toInt pt).bind fun whole =>
      if whole.tdiv 1000000 > 0 then some (.general (pt + a.offset))
      else if fixedLength pt < 20 then some (.fixed pt) else none

/-- `g_xmajt`. -/
def gXmajt (pwr : ℤ) (pt : ℚ) (prt : Bool) : Option Tick :=
  let tip := a.tipOf (gr.user2pixy L a.y0) majtick
  if a.nside = 0 ∨ prt = false then some ⟨.major, pt, gr.user2pixx L pt, tip, none⟩
  else (a.labelOf pwr pt).map fun label => ⟨.major, pt, gr.user2pixx L pt, tip, some label⟩

/-- `g_xmidt`. -/
def gXmidt (pt : ℚ) : Tick :=
  ⟨.middle, pt, gr.user2pixx L pt, a.tipOf (gr.user2pixy L a.y0) midtick, none⟩

/-- `g_xmint`. -/
def gXmint (pt : ℚ) : Tick :=
  ⟨.minor, pt, gr.user2pixx L pt, a.tipOf (gr.user2pixy L a.y0) midtick, none⟩

/-- `ptr` and `cnt` of the first tick, before the offset is taken off: past the start `start` in
steps of `p`, back in smaller ones, and one of them ahead again if the start is positive. -/
def firstTick (fuel : ℕ) (ndivs start p divcon eps : ℚ) : Option (ℚ × ℚ) :=
  if start = 0 then some (0, ndivs)
  else if start > 0 then
    (stepUntil (fun ptr => ptr > start) (fun ptr => ptr + p) fuel 0).bind fun ptr =>
      (stepUntil (fun s : ℚ × ℚ => s.1 - eps < start) (fun s => (s.1 - divcon, s.2 - 1)) fuel
        (ptr, ndivs)).map fun s => (s.1 + divcon, s.2 + 1)
  else
    (stepUntil (fun ptr => ptr < start) (fun ptr => ptr - p) fuel 0).bind fun ptr =>
      stepUntil (fun s : ℚ × ℚ => s.1 + eps > start) (fun s => (s.1 + divcon, s.2 + 1)) fuel
        (ptr, 0)

/-- The tick at `ptr`. -/
def drawTick (pwr : ℤ) (ndivs : ℚ) (s : ℚ × ℚ) : Option Tick :=
  if gEq s.2 ndivs (1 / 10) then a.gXmajt L gr pwr s.1 true
  else if gEq s.2 (ndivs * (1 / 2)) (1 / 10) then some (a.gXmidt L gr s.1)
  else some (a.gXmint L gr s.1)

def nextTick (ndivs divcon : ℚ) (s : ℚ × ℚ) : ℚ × ℚ :=
  (s.1 + divcon, if gEq s.2 ndivs (1 / 10) then 1 else s.2 + 1)

/-- `xaxis`. -/
def xaxis (fuel : ℕ) : Option Drawing :=
  if a.Accepted gr then
    (searchPower (a.xn - a.x0) 77).bind fun pwr => (load powers pwr).bind fun p =>
      (load powers (pwr - 2)).bind fun q =>
        let ndivs : ℚ := a.divisions
        let divcon := p / ndivs
        let eps := 1 / 2 * q
        (firstTick fuel ndivs (a.x0 + a.offset) p divcon eps).bind fun s =>
          (a.gXmajt L gr pwr a.x0 true).bind fun first =>
            (collectLoop (fun s : ℚ × ℚ => s.1 ≤ a.xn + eps) (a.drawTick L gr pwr ndivs)
              (nextTick ndivs divcon) fuel (s.1 - a.offset, s.2)).bind fun ticks =>
                (a.gXmajt L gr pwr a.xn (!a.inv)).map fun last =>
                  ⟨some (gr.user2pixx L a.x0, gr.user2pixx L a.xn, gr.user2pixy L a.y0),
                    first :: ticks ++ [last]⟩
  else some ⟨none, []⟩

/-! ## What it should draw -/

/-- The point at the place `i`. -/
def place (p : ℚ) (i : ℤ) : ℚ := i * (p / a.ndivs) - a.offset

/-- The largest power of ten below the length of the axis. -/
def power : ℚ := 10 ^ (Int.clog 10 (a.xn - a.x0) - 1)

/-- The coordinate of the label is a multiple of `d`. -/
def AtMultiple (d x : ℚ) : Prop := ∃ k : ℤ, x + a.offset = k * d

/-- Every tick between the end ticks is at one of the divisions of the axis, there is one for each
of them, in increasing order, and its kind is that of its place. -/
structure TicksFit (ts : List Tick) : Prop where
  sound : ∀ t ∈ ts, a.x0 - a.power / 200 ≤ t.pt ∧ t.pt ≤ a.xn + a.power / 200 ∧
    a.AtMultiple (a.power / a.ndivs) t.pt
  complete : ∀ x, a.x0 + a.power / 200 < x → x ≤ a.xn → a.AtMultiple (a.power / a.ndivs) x →
    ∃ t ∈ ts, t.pt = x
  increasing : ts.Pairwise fun t t' => t.pt < t'.pt
  major : ∀ t ∈ ts, t.mark = .major ↔ a.AtMultiple a.power t.pt
  middle : ∀ t ∈ ts, t.mark = .middle ↔
    Even a.ndivs ∧ ∃ k : ℤ, t.pt + a.offset = (k + 1 / 2) * a.power

/-- `xaxis` ends, with a tick at either end and the right ones between them. -/
def DrawsTicks : Prop :=
  ∃ fuel line first ts last, a.xaxis L gr fuel = some ⟨line, first :: ts ++ [last]⟩ ∧
    first.pt = a.x0 ∧ last.pt = a.xn ∧ a.TicksFit ts

/-- A point whose label can be made: it is printed as zero, or in twenty bytes, and as an `int`. -/
def Printable (x : ℚ) : Prop :=
  |x| ≤ a.power / 10 ^ 5 ∨ -(10 ^ 9) + 5 / 10 ^ 9 < x ∧ x < 2 ^ 31

/-- The points that get a label: the start, the multiples of the power and the end. -/
def Labelled (x : ℚ) : Prop :=
  x = a.x0 ∨ (a.x0 ≤ x ∧ x ≤ a.xn + a.power / 200 ∧ a.AtMultiple a.power x) ∨
    x = a.xn ∧ a.inv = false

/-- The power is in the table and, if there are labels, all of them can be made. -/
structure AxisFits : Prop where
  length : a.xn - a.x0 ≤ 10 ^ 39
  labels : a.nside = 0 ∨ 1 / 10 ^ 33 < a.xn - a.x0 ∧ ∀ x, a.Labelled x → a.Printable x

end Ticks

/-! ## The table -/

theorem load_powers (i : ℤ) :
    load powers i = if 0 ≤ i ∧ i < 77 then some ((10 : ℚ) ^ (i - 38)) else none := by
  split_ifs with h
  · have hload := load_tabulate (n := 77) (f := fun i => (10 : ℚ) ^ ((i : ℤ) - 38)) h.1 h.2
    rw [Int.toNat_of_nonneg h.1] at hload
    exact hload
  · rw [Option.eq_none_iff_forall_ne_some]
    intro q hq
    have hbounds := bounds_of_load hq
    simp only [powers, List.length_map] at hbounds
    exact h hbounds

theorem zpow_lt_iff {x : ℚ} (hx : 0 < x) (k : ℤ) :
    (10 : ℚ) ^ k < x ↔ k ≤ Int.clog 10 x - 1 := by
  have h := Int.zpow_lt_iff_lt_clog (b := 10) (by norm_num) (x := k) hx
  rw [Nat.cast_ofNat] at h
  rw [h]
  omega

/-- The search ends with the largest power below the length that is in the part of the table. -/
theorem searchPower_eq {xylen : ℚ} (hpos : 0 < xylen) (hlow : -38 ≤ Int.clog 10 xylen - 1) {i : ℕ}
    (hi : 0 < i) (hle : i ≤ 77) :
    searchPower xylen i = some (min (Int.clog 10 xylen - 1 + 38) (i - 1)) := by
  induction i with
  | zero => exact absurd hi (lt_irrefl 0)
  | succ i ih =>
    have hload : load powers i = some ((10 : ℚ) ^ ((i : ℤ) - 38)) := by
      rw [load_powers, if_pos (by omega)]
    rw [searchPower, hload, Option.bind_some]
    split_ifs with hge
    · have hlt : ¬(i : ℤ) - 38 ≤ Int.clog 10 xylen - 1 := by
        rw [← zpow_lt_iff hpos]
        exact not_lt.2 hge
      rw [ih (by omega) (by omega)]
      congr 1
      omega
    · have hle' : (i : ℤ) - 38 ≤ Int.clog 10 xylen - 1 := by
        rw [← zpow_lt_iff hpos]
        exact not_le.1 hge
      congr 1
      push_cast
      omega

/-! ## Counting -/

theorem gEq_tenth (m n : ℤ) : gEq m n (1 / 10) = true ↔ m = n := by
  unfold gEq
  rw [decide_eq_true_eq, not_or, not_lt, not_lt]
  constructor
  · rintro ⟨hlow, hhigh⟩
    have h₁ : (n : ℚ) < m + 1 := by linarith
    have h₂ : (m : ℚ) < n + 1 := by linarith
    have h₁' : n < m + 1 := by exact_mod_cast h₁
    have h₂' : m < n + 1 := by exact_mod_cast h₂
    omega
  · rintro rfl
    constructor <;> linarith

theorem gEq_half (m n : ℤ) : gEq m (n * (1 / 2)) (1 / 10) = true ↔ 2 * m = n := by
  unfold gEq
  rw [decide_eq_true_eq, not_or, not_lt, not_lt]
  constructor
  · rintro ⟨hlow, hhigh⟩
    have h₁ : (n : ℚ) < 2 * m + 1 := by linarith
    have h₂ : (2 * m : ℚ) < n + 1 := by linarith
    have h₁' : n < 2 * m + 1 := by exact_mod_cast h₁
    have h₂' : 2 * m < n + 1 := by exact_mod_cast h₂
    omega
  · rintro rfl
    push_cast
    constructor <;> linarith

/-- Steps of `d` from zero, as long as they stay at or below `y`. -/
theorem step_le_iff {d y : ℚ} (hd : 0 < d) (m : ℕ) : (m + 1 : ℚ) * d ≤ y ↔ m < ⌊y / d⌋₊ := by
  rw [Nat.lt_iff_add_one_le, Nat.le_floor_iff' (Nat.succ_ne_zero m), le_div_iff₀ hd]
  push_cast
  rfl

/-! ## The first tick -/

/-- The first tick has the place `i`, behind the multiple `b` of the power: it is not far in front
of the start, and no place at some distance behind the start is passed over. -/
structure FirstPlace (N : ℤ) (start p eps : ℚ) (b i : ℤ) : Prop where
  behind : b * N < i
  ahead : i ≤ (b + 1) * N
  low_block : b * p ≤ start
  high_block : start ≤ (b + 1) * p
  low : start - eps ≤ i * (p / N)
  high : (i - 1) * (p / N) ≤ start + eps

section FirstTick

variable {N : ℤ} {start p eps : ℚ}

/-- The steps of both loops if the start has the distance `y` from zero. -/
structure Steps (N : ℤ) (p eps y : ℚ) (n₁ n₂ : ℕ) : Prop where
  first : ∀ m : ℕ, (m + 1 : ℚ) * p ≤ y ↔ m < n₁
  second : ∀ m : ℕ, (m + 1 : ℚ) * (p / N) ≤ (n₁ + 1) * p - y - eps ↔ m < n₂
  low : n₁ * p ≤ y
  high : y < (n₁ + 1) * p
  lt : (n₂ : ℤ) < N
  back : n₂ * (p / N) ≤ (n₁ + 1) * p - y

theorem mul_division (hN : 0 < N) (p : ℚ) : (N : ℚ) * (p / N) = p := by
  have hN' : (N : ℚ) ≠ 0 := by exact_mod_cast hN.ne'
  field_simp

theorem exists_steps (hN : 0 < N) (hp : 0 < p) (heps : 0 < eps) {y : ℚ} (hy : 0 ≤ y) :
    ∃ n₁ n₂, Steps N p eps y n₁ n₂ := by
  have hd : 0 < p / N := div_pos hp (by exact_mod_cast hN)
  have hfirst := fun m => step_le_iff (y := y) hp m
  have hsecond := fun m => step_le_iff (y := (⌊y / p⌋₊ + 1) * p - y - eps) hd m
  generalize ⌊y / p⌋₊ = n₁ at hfirst hsecond
  generalize ⌊((n₁ + 1) * p - y - eps) / (p / N)⌋₊ = n₂ at hsecond
  have hlow : n₁ * p ≤ y := by
    cases n₁ with
    | zero => simpa using hy
    | succ n =>
      push_cast
      exact (hfirst n).2 (Nat.lt_succ_self n)
  have hhigh : y < (n₁ + 1) * p := not_le.1 (mt (hfirst n₁).1 (lt_irrefl n₁))
  refine ⟨n₁, n₂, hfirst, hsecond, hlow, hhigh, ?_, ?_⟩
  · -- `N` steps back are a whole step ahead
    by_contra hge
    obtain ⟨k, hk⟩ : ∃ k : ℕ, (k : ℤ) + 1 = N := ⟨(N - 1).toNat, by omega⟩
    have hstep := (hsecond k).2 (by omega)
    have hcast : (k + 1 : ℚ) = N := by exact_mod_cast hk
    rw [hcast, mul_division hN] at hstep
    linarith
  · cases n₂ with
    | zero =>
      push_cast
      linarith
    | succ n =>
      have := (hsecond n).2 (Nat.lt_succ_self n)
      push_cast
      linarith

variable {n₁ n₂ : ℕ}

theorem Steps.firstPlace_pos (h : Steps N p eps start n₁ n₂) (hN : 0 < N) (heps : 0 < eps) :
    FirstPlace N start p eps n₁ ((n₁ + 1) * N - n₂) := by
  have hlt := h.lt
  have hend : ¬(n₂ + 1 : ℚ) * (p / N) ≤ (n₁ + 1) * p - start - eps :=
    mt (h.second n₂).1 (lt_irrefl n₂)
  have hplace : ∀ q : ℚ, ((n₁ + 1) * N - q) * (p / N) = (n₁ + 1) * p - q * (p / N) := fun q => by
    rw [sub_mul, mul_assoc, mul_division hN]
  refine ⟨?_, ?_, ?_, ?_, ?_, ?_⟩
  · rw [add_mul]
    omega
  · omega
  · exact_mod_cast h.low
  · exact_mod_cast h.high.le
  · push_cast
    rw [hplace]
    linarith [h.back]
  · push_cast
    rw [sub_sub, hplace]
    linarith

theorem Steps.firstPlace_neg (h : Steps N p eps (-start) n₁ n₂) (hN : 0 < N) (heps : 0 < eps) :
    FirstPlace N start p eps (-(n₁ + 1)) (-(n₁ + 1) * N + (n₂ + 1)) := by
  have hlt := h.lt
  have hlow := h.low
  have hhigh := h.high
  have hend : ¬(n₂ + 1 : ℚ) * (p / N) ≤ (n₁ + 1) * p - -start - eps :=
    mt (h.second n₂).1 (lt_irrefl n₂)
  have hplace : ∀ q : ℚ, (-(n₁ + 1) * N + q) * (p / N) = q * (p / N) - (n₁ + 1) * p := fun q => by
    rw [add_mul, mul_assoc, mul_division hN]
    ring
  refine ⟨?_, ?_, ?_, ?_, ?_, ?_⟩
  · omega
  · linarith
  · push_cast
    linarith
  · push_cast
    linarith
  · push_cast
    rw [hplace]
    linarith
  · push_cast
    rw [add_sub_assoc, add_sub_cancel_right, hplace]
    linarith [h.back]

theorem Steps.firstTick_pos (h : Steps N p eps start n₁ n₂) (hN : 0 < N) (hpos : 0 < start)
    (fuel : ℕ) (s : ℚ × ℚ) :
    firstTick fuel N start p (p / N) eps = some s ↔ max n₁ n₂ + 1 ≤ fuel ∧
      s = (((n₁ + 1) * N - n₂) * (p / N), (N - n₂ : ℚ)) := by
  have h₁ : ∀ ptr, stepUntil (fun ptr => decide (ptr > start)) (fun ptr => ptr + p) fuel 0 =
      some ptr ↔ n₁ < fuel ∧ ptr = ((n₁ + 1 : ℕ) : ℚ) * p := by
    intro ptr
    have := @stepUntil_eq_some_iff ℚ (fun ptr => decide (ptr > start)) (fun ptr => ptr + p)
      (fun m => (m : ℚ) * p) n₁ fuel ptr (fun m => by push_cast; ring) (fun m => by
        rw [decide_eq_false_iff_not, not_lt, ← h.first]
        push_cast
        rfl)
    rwa [Nat.cast_zero, zero_mul] at this
  have h₂ : ∀ s, stepUntil (fun s : ℚ × ℚ => decide (s.1 - eps < start))
      (fun s => (s.1 - p / N, s.2 - 1)) fuel (((n₁ + 1 : ℕ) : ℚ) * p, (N : ℚ)) = some s ↔
        n₂ < fuel ∧ s = (((n₁ + 1 : ℕ) : ℚ) * p - ((n₂ + 1 : ℕ) : ℚ) * (p / N),
          (N : ℚ) - ((n₂ + 1 : ℕ) : ℚ)) := by
    intro s
    have := @stepUntil_eq_some_iff (ℚ × ℚ) (fun s => decide (s.1 - eps < start))
      (fun s => (s.1 - p / N, s.2 - 1))
      (fun m => (((n₁ + 1 : ℕ) : ℚ) * p - (m : ℚ) * (p / N), (N : ℚ) - (m : ℚ))) n₂ fuel s
      (fun m => by push_cast; ring_nf) (fun m => by
        rw [decide_eq_false_iff_not, not_lt, ← h.second]
        push_cast
        constructor <;> intro h <;> linarith)
    rwa [Nat.cast_zero, zero_mul, sub_zero, sub_zero] at this
  rw [firstTick, if_neg hpos.ne', if_pos hpos, Option.bind_eq_some_iff]
  simp only [h₁, Option.map_eq_some_iff]
  have hresult : ((n₁ + 1) * N - n₂ : ℚ) * (p / N) =
      ((n₁ + 1 : ℕ) : ℚ) * p - ((n₂ + 1 : ℕ) : ℚ) * (p / N) + p / N := by
    rw [sub_mul, mul_assoc, mul_division hN]
    push_cast
    ring
  have hcnt : (N - n₂ : ℚ) = (N : ℚ) - ((n₂ + 1 : ℕ) : ℚ) + 1 := by
    push_cast
    ring
  rw [hresult, hcnt]
  constructor
  · rintro ⟨ptr, ⟨hfuel₁, rfl⟩, s', hs', rfl⟩
    obtain ⟨hfuel₂, rfl⟩ := (h₂ s').1 hs'
    exact ⟨by omega, rfl⟩
  · rintro ⟨hfuel, rfl⟩
    exact ⟨_, ⟨by omega, rfl⟩, _, (h₂ _).2 ⟨by omega, rfl⟩, rfl⟩

theorem Steps.firstTick_neg (h : Steps N p eps (-start) n₁ n₂) (hN : 0 < N) (hneg : start < 0)
    (fuel : ℕ) (s : ℚ × ℚ) :
    firstTick fuel N start p (p / N) eps = some s ↔ max n₁ n₂ + 1 ≤ fuel ∧
      s = ((-(n₁ + 1) * N + (n₂ + 1)) * (p / N), (n₂ + 1 : ℚ)) := by
  have h₁ : ∀ ptr, stepUntil (fun ptr => decide (ptr < start)) (fun ptr => ptr - p) fuel 0 =
      some ptr ↔ n₁ < fuel ∧ ptr = -((n₁ + 1 : ℕ) : ℚ) * p := by
    intro ptr
    have := @stepUntil_eq_some_iff ℚ (fun ptr => decide (ptr < start)) (fun ptr => ptr - p)
      (fun m => -(m : ℚ) * p) n₁ fuel ptr (fun m => by push_cast; ring) (fun m => by
        rw [decide_eq_false_iff_not, not_lt, ← h.first]
        push_cast
        constructor <;> intro h <;> linarith)
    rwa [Nat.cast_zero, neg_zero, zero_mul] at this
  have h₂ : stepUntil (fun s : ℚ × ℚ => decide (s.1 + eps > start))
      (fun s => (s.1 + p / N, s.2 + 1)) fuel (-((n₁ + 1 : ℕ) : ℚ) * p, 0) = some s ↔
        n₂ < fuel ∧ s = (-((n₁ + 1 : ℕ) : ℚ) * p + ((n₂ + 1 : ℕ) : ℚ) * (p / N),
          ((n₂ + 1 : ℕ) : ℚ)) := by
    have := @stepUntil_eq_some_iff (ℚ × ℚ) (fun s => decide (s.1 + eps > start))
      (fun s => (s.1 + p / N, s.2 + 1))
      (fun m => (-((n₁ + 1 : ℕ) : ℚ) * p + (m : ℚ) * (p / N), (m : ℚ))) n₂ fuel s
      (fun m => by push_cast; ring_nf) (fun m => by
        rw [decide_eq_false_iff_not, not_lt, ← h.second]
        push_cast
        constructor <;> intro h <;> linarith)
    rwa [Nat.cast_zero, zero_mul, add_zero] at this
  rw [firstTick, if_neg hneg.ne, if_neg hneg.not_gt, Option.bind_eq_some_iff]
  simp only [h₁]
  have hresult : (-(n₁ + 1) * N + (n₂ + 1) : ℚ) * (p / N) =
      -((n₁ + 1 : ℕ) : ℚ) * p + ((n₂ + 1 : ℕ) : ℚ) * (p / N) := by
    rw [add_mul, mul_assoc, mul_division hN]
    push_cast
    ring
  have hcnt : (n₂ + 1 : ℚ) = ((n₂ + 1 : ℕ) : ℚ) := by push_cast; rfl
  rw [hresult, hcnt]
  constructor
  · rintro ⟨ptr, ⟨hfuel₁, rfl⟩, hs⟩
    obtain ⟨hfuel₂, rfl⟩ := h₂.1 hs
    exact ⟨by omega, rfl⟩
  · rintro ⟨hfuel, rfl⟩
    exact ⟨_, ⟨by omega, rfl⟩, h₂.2 ⟨by omega, rfl⟩⟩

/-- The walk to the first tick ends, with the counter at its place between two powers. -/
theorem exists_firstTick (hN : 0 < N) (hp : 0 < p) (heps : 0 < eps) (start : ℚ) :
    ∃ (b i : ℤ) (c : ℕ), FirstPlace N start p eps b i ∧ ∀ fuel s,
      firstTick fuel N start p (p / N) eps = some s ↔
        c ≤ fuel ∧ s = ((i : ℚ) * (p / N), ((i - b * N : ℤ) : ℚ)) := by
  rcases lt_trichotomy start 0 with hneg | rfl | hpos
  · obtain ⟨n₁, n₂, h⟩ := exists_steps hN hp heps (neg_nonneg.2 hneg.le)
    refine ⟨_, _, max n₁ n₂ + 1, h.firstPlace_neg hN heps, fun fuel s => ?_⟩
    rw [h.firstTick_neg hN hneg]
    push_cast
    rw [add_sub_cancel_left]
  · refine ⟨-1, 0, 0, ⟨by omega, by omega, by push_cast; linarith, by push_cast; linarith,
      by push_cast; linarith, ?_⟩, fun fuel s => ?_⟩
    · have hd : 0 < p / N := div_pos hp (by exact_mod_cast hN)
      push_cast
      linarith
    · rw [firstTick, if_pos rfl, Option.some.injEq]
      push_cast
      rw [zero_mul, zero_sub, neg_mul, one_mul, neg_neg]
      exact ⟨fun h => ⟨Nat.zero_le fuel, h.symm⟩, fun h => h.2.symm⟩
  · obtain ⟨n₁, n₂, h⟩ := exists_steps hN hp heps hpos.le
    refine ⟨_, _, max n₁ n₂ + 1, h.firstPlace_pos hN heps, fun fuel s => ?_⟩
    rw [h.firstTick_pos hN hpos]
    push_cast
    rw [add_mul, one_mul, sub_right_comm, add_sub_cancel_left]

end FirstTick

/-! ## Places between two powers -/

/-- The counter at a place: from one up to the number of divisions. -/
def phase (N i : ℤ) : ℤ := (i - 1) % N + 1

section Phase

variable {N : ℤ} (hN : 0 < N)

theorem phase_first {b i : ℤ} (hlow : b * N < i) (hhigh : i ≤ (b + 1) * N) :
    i - b * N = phase N i := by
  have hshift : i - 1 = (i - b * N - 1) + N * b := by ring
  rw [phase, hshift, Int.add_mul_emod_self_left, Int.emod_eq_of_lt (by omega) (by linarith)]
  ring

theorem exists_phase (N i : ℤ) : ∃ b, i = b * N + phase N i := by
  have := Int.emod_add_mul_ediv (i - 1) N
  refine ⟨(i - 1) / N, ?_⟩
  rw [phase, mul_comm]
  omega

include hN

theorem phase_range (i : ℤ) : 1 ≤ phase N i ∧ phase N i ≤ N := by
  have hlow := Int.emod_nonneg (i - 1) hN.ne'
  have hhigh := Int.emod_lt_of_pos (i - 1) hN
  unfold phase
  omega

theorem phase_succ (i : ℤ) :
    phase N (i + 1) = if phase N i = N then 1 else phase N i + 1 := by
  obtain ⟨hlow, hhigh⟩ := phase_range hN i
  obtain ⟨b, hb⟩ := exists_phase N i
  split_ifs with hlast
  · rw [← phase_first (b := b + 1) (i := i + 1) (by linarith) (by linarith)]
    linarith
  · have hlt : phase N i < N := lt_of_le_of_ne hhigh hlast
    rw [← phase_first (b := b) (i := i + 1) (by linarith) (by linarith)]
    linarith

theorem phase_eq_iff (i : ℤ) : phase N i = N ↔ N ∣ i := by
  obtain ⟨hlow, hhigh⟩ := phase_range hN i
  obtain ⟨b, hb⟩ := exists_phase N i
  have hdvd : N ∣ i ↔ N ∣ phase N i := by
    conv_lhs => rw [hb]
    exact Int.dvd_add_right (Int.dvd_mul_left b N)
  rw [hdvd]
  constructor
  · intro h
    rw [h]
  · intro h
    have := Int.le_of_dvd (by omega) h
    omega

theorem two_mul_phase_eq_iff (i : ℤ) : 2 * phase N i = N ↔ ∃ k : ℤ, 2 * i = (2 * k + 1) * N := by
  obtain ⟨hlow, hhigh⟩ := phase_range hN i
  obtain ⟨b, hb⟩ := exists_phase N i
  constructor
  · intro h
    exact ⟨b, by linarith⟩
  · rintro ⟨k, hk⟩
    have hsplit : 2 * phase N i = (2 * (k - b) + 1) * N := by linarith
    -- an odd multiple that is positive and at most twice the number
    have hpos : 0 < 2 * (k - b) + 1 := by
      by_contra hneg
      have := mul_nonpos_of_nonpos_of_nonneg (not_lt.1 hneg) hN.le
      omega
    have hlt : 2 * (k - b) + 1 < 3 := by
      by_contra hge
      have := mul_le_mul_of_nonneg_right (not_lt.1 hge) hN.le
      omega
    have hone : 2 * (k - b) + 1 = 1 := by omega
    rw [hsplit, hone, one_mul]

end Phase

/-! ## Labels -/

section Labels

variable (a : Axis)

theorem fixedLength_lt_iff (q : ℚ) :
    fixedLength q < 20 ↔ |q| * 10 ^ 8 < (if q < 0 then 10 ^ 17 else 10 ^ 18) - 1 / 2 := by
  have hlen : ∀ k : ℕ, 0 < k → ((decimal ((roundEven (|q| * 10 ^ 8)).toNat / 10 ^ 8)).length ≤ k ↔
      |q| * 10 ^ 8 < 10 ^ (k + 8) - 1 / 2) := by
    intro k hk
    have hnonneg : 0 ≤ roundEven (|q| * 10 ^ 8) := by
      rw [← roundEven_intCast 0]
      apply roundEven_mono
      positivity
    have heven : Even ((10 : ℤ) ^ (k + 8)) :=
      (show Even (10 : ℤ) by decide).pow_of_ne_zero (by omega)
    have hround := roundEven_lt_iff (x := |q| * 10 ^ 8) heven
    push_cast at hround
    rw [length_decimal_le_iff hk, Nat.div_lt_iff_lt_mul (by norm_num), ← pow_add, ← hround]
    zify
    rw [Int.toNat_of_nonneg hnonneg]
  unfold fixedLength
  rw [max_lt_iff, and_iff_right (by norm_num)]
  split_ifs with hneg
  · rw [← hlen 9 (by norm_num)]
    omega
  · rw [← hlen 10 (by norm_num)]
    omega

theorem tdiv_million_pos_iff (z : ℤ) : z.tdiv 1000000 > 0 ↔ 1000000 ≤ z := by
  rcases le_total 0 z with hz | hz
  · rw [Int.tdiv_eq_ediv_of_nonneg hz]
    omega
  · obtain ⟨w, rfl⟩ : ∃ w, z = -w := ⟨-z, by ring⟩
    rw [Int.neg_tdiv, Int.tdiv_eq_ediv_of_nonneg (by omega)]
    omega

theorem truncate_nonpos_of_neg {x : ℚ} (h : x < 0) : truncate x ≤ 0 := by
  rw [← truncate_intCast 0]
  exact truncate_mono (by exact_mod_cast h.le)

theorem inIntRange_truncate {x : ℚ} (hlow : -(10 ^ 9) ≤ x) (hhigh : x < 2 ^ 31) :
    InIntRange (truncate x) := by
  constructor
  · have hmono : truncate ((-10 ^ 9 : ℤ) : ℚ) ≤ truncate x := by
      apply truncate_mono
      push_cast
      exact hlow
    rw [truncate_intCast] at hmono
    omega
  · rcases lt_or_ge x 0 with hneg | hnonneg
    · have := truncate_nonpos_of_neg hneg
      omega
    · rw [truncate_of_nonneg hnonneg, Int.floor_lt]
      exact_mod_cast hhigh

/-- The label of a point with no whole million fits, if the point is not far below zero. -/
theorem fixedLength_lt_of_tdiv {x : ℚ} (hlow : -(10 ^ 9) + 5 / 10 ^ 9 < x)
    (hquot : ¬(truncate x).tdiv 1000000 > 0) : fixedLength x < 20 := by
  rw [fixedLength_lt_iff]
  split_ifs with hneg
  · rw [abs_of_neg hneg]
    linarith
  · have hnonneg := not_lt.1 hneg
    have hsmall : x < 10 ^ 7 := by
      rw [tdiv_million_pos_iff, truncate_of_nonneg hnonneg] at hquot
      have hfloor : ⌊x⌋ < 10 ^ 7 := by omega
      exact_mod_cast Int.floor_lt.1 hfloor
    rw [abs_of_nonneg hnonneg]
    linarith

/-- The label can be made of a point near zero or in the range of the formats. -/
theorem labelOf_isSome_iff {pwr : ℤ} {tiny : ℚ} (hload : load powers (pwr - 5) = some tiny)
    (x : ℚ) :
    (a.labelOf pwr x).isSome ↔ |x| ≤ tiny ∨ -(10 ^ 9) + 5 / 10 ^ 9 < x ∧ x < 2 ^ 31 := by
  have hzero : gEq 0 x tiny = true ↔ |x| ≤ tiny := by
    unfold gEq
    rw [decide_eq_true_eq, not_or, not_lt, not_lt, abs_le]
    constructor <;> rintro ⟨h₁, h₂⟩ <;> constructor <;> linarith
  rw [labelOf, hload, Option.bind_some]
  by_cases hnear : |x| ≤ tiny
  · have hint : toInt 0 = some 0 := by decide
    have hlen : fixedLength 0 < 20 := by decide +kernel
    refine iff_of_true ?_ (.inl hnear)
    simp only [if_pos (hzero.2 hnear), hint, Option.bind_some, if_pos hlen]
    rfl
  rw [or_iff_right hnear]
  simp only [if_neg (mt hzero.1 hnear)]
  constructor
  · intro h
    obtain ⟨label, h⟩ := Option.isSome_iff_exists.1 h
    obtain ⟨whole, hint, h⟩ := Option.bind_eq_some_iff.1 h
    obtain ⟨rfl, -, hrange⟩ := toInt_eq_some.1 hint
    constructor
    · rcases lt_or_ge x 0 with hneg | hnonneg
      · have hquot : ¬(truncate x).tdiv 1000000 > 0 := by
          rw [tdiv_million_pos_iff]
          have := truncate_nonpos_of_neg hneg
          omega
        rw [if_neg hquot] at h
        have hlen : fixedLength x < 20 := by
          by_contra hlong
          rw [if_neg hlong] at h
          exact nomatch h
        rw [fixedLength_lt_iff, if_pos hneg, abs_of_neg hneg] at hlen
        linarith
      · linarith
    · by_contra hge
      have hmono := truncate_mono (not_lt.1 hge)
      have hcast : truncate (2 ^ 31) = 2 ^ 31 := by decide +kernel
      omega
  · rintro ⟨hlow, hhigh⟩
    rw [toInt_eq_some.2 ⟨rfl, inIntRange_truncate (by linarith) hhigh⟩, Option.bind_some]
    split_ifs with hquot hlen
    · rfl
    · rfl
    · exact absurd (fixedLength_lt_of_tdiv hlow hquot) hlen

end Labels

/-! ## The ticks in a run -/

section Run

variable {L : Logs10} {gr : LinearGraph} {a : Axis} {pwr : ℤ} {x : ℚ}

theorem gXmajt_eq_some {prt : Bool} {t : Tick} (h : a.gXmajt L gr pwr x prt = some t) :
    t.pt = x ∧ t.mark = .major := by
  unfold gXmajt at h
  split_ifs at h
  · obtain rfl := Option.some.inj h
    exact ⟨rfl, rfl⟩
  · obtain ⟨label, -, rfl⟩ := Option.map_eq_some_iff.1 h
    exact ⟨rfl, rfl⟩

theorem gXmajt_isSome_iff {prt : Bool} :
    (a.gXmajt L gr pwr x prt).isSome ↔
      (a.nside = 0 ∨ prt = false) ∨ (a.labelOf pwr x).isSome := by
  unfold gXmajt
  split_ifs with h
  · exact iff_of_true rfl (.inl h)
  · rw [Option.isSome_map, or_iff_right h]

/-- The tick at a place has the kind of its counter. -/
theorem drawTick_eq_some (hN : 0 < a.ndivs) {i : ℤ} {t : Tick}
    (h : a.drawTick L gr pwr a.ndivs (x, ((phase a.ndivs i : ℤ) : ℚ)) = some t) :
    t.pt = x ∧ (t.mark = .major ↔ a.ndivs ∣ i) ∧
      (t.mark = .middle ↔ ∃ k : ℤ, 2 * i = (2 * k + 1) * a.ndivs) := by
  have hmajor := phase_eq_iff hN i
  have hmiddle := two_mul_phase_eq_iff hN i
  unfold drawTick at h
  split_ifs at h with hdvd hhalf
  · rw [gEq_tenth, hmajor] at hdvd
    obtain ⟨hpt, hmark⟩ := gXmajt_eq_some h
    have hnot : ¬∃ k : ℤ, 2 * i = (2 * k + 1) * a.ndivs := by
      rw [← hmiddle, hmajor.2 hdvd]
      omega
    exact ⟨hpt, iff_of_true hmark hdvd, iff_of_false (by rw [hmark]; decide) hnot⟩
  · rw [gEq_tenth, hmajor] at hdvd
    rw [gEq_half, hmiddle] at hhalf
    obtain rfl := Option.some.inj h
    exact ⟨rfl, iff_of_false (by simp [gXmidt]) hdvd, iff_of_true rfl hhalf⟩
  · rw [gEq_tenth, hmajor] at hdvd
    rw [gEq_half, hmiddle] at hhalf
    obtain rfl := Option.some.inj h
    exact ⟨rfl, iff_of_false (by simp [gXmint]) hdvd, iff_of_false (by simp [gXmint]) hhalf⟩

theorem drawTick_isSome_iff (hN : 0 < a.ndivs) {i : ℤ} :
    (a.drawTick L gr pwr a.ndivs (x, ((phase a.ndivs i : ℤ) : ℚ))).isSome ↔
      (a.ndivs ∣ i → (a.gXmajt L gr pwr x true).isSome) := by
  unfold drawTick
  simp only [gEq_tenth, gEq_half, phase_eq_iff hN i]
  split_ifs with hdvd
  · rw [imp_iff_right hdvd]
  · exact iff_of_true rfl fun h => absurd h hdvd
  · exact iff_of_true rfl fun h => absurd h hdvd

/-- The steps of the loop go from place to place. -/
theorem nextTick_place (hN : 0 < a.ndivs) (p : ℚ) (i : ℤ) :
    nextTick a.ndivs (p / a.ndivs) (a.place p i, ((phase a.ndivs i : ℤ) : ℚ)) =
      (a.place p (i + 1), ((phase a.ndivs (i + 1) : ℤ) : ℚ)) := by
  unfold nextTick
  rw [phase_succ hN]
  simp only [gEq_tenth]
  refine Prod.ext ?_ ?_
  · change a.place p i + p / a.ndivs = a.place p (i + 1)
    unfold place
    push_cast
    ring
  · change (if phase a.ndivs i = a.ndivs then (1 : ℚ) else phase a.ndivs i + 1) = _
    split_ifs <;> push_cast <;> rfl

/-- The ticks at `n` places from `i` on. -/
def ticksFrom (L : Logs10) (gr : LinearGraph) (a : Axis) (pwr : ℤ) (p : ℚ) (i : ℤ) (n : ℕ) :
    List (Option Tick) :=
  (List.range n).map fun m : ℕ =>
    a.drawTick L gr pwr a.ndivs (a.place p (i + m), ((phase a.ndivs (i + m) : ℤ) : ℚ))

/-- What `xaxis` draws, in terms of the places from the first tick on. -/
structure IsRun (L : Logs10) (gr : LinearGraph) (a : Axis) (pwr : ℤ) (p : ℚ) (b i : ℤ) (n : ℕ) :
    Prop where
  first : FirstPlace a.ndivs (a.x0 + a.offset) p (p / 200) b i
  count : ∀ m : ℕ, a.place p (i + m) ≤ a.xn + p / 200 ↔ m < n
  run : ∀ d, (∃ fuel, a.xaxis L gr fuel = some d) ↔ ∃ first ts last,
    a.gXmajt L gr pwr a.x0 true = some first ∧
    ticksFrom L gr a pwr p i n = ts.map some ∧ a.gXmajt L gr pwr a.xn (!a.inv) = some last ∧
    d = ⟨some (gr.user2pixx L a.x0, gr.user2pixx L a.xn, gr.user2pixy L a.y0),
      first :: ts ++ [last]⟩

/-- The steps of `xaxis`, once the power is found. -/
theorem xaxis_eq_some_iff {p : ℚ} {fuel : ℕ} {d : Drawing} (hacc : a.Accepted gr)
    (hN : a.divisions = a.ndivs) (hsearch : searchPower (a.xn - a.x0) 77 = some pwr)
    (hload : load powers pwr = some p) (hload₂ : load powers (pwr - 2) = some (p / 100)) :
    a.xaxis L gr fuel = some d ↔ ∃ s first ts last,
      firstTick fuel a.ndivs (a.x0 + a.offset) p (p / a.ndivs) (p / 200) = some s ∧
      a.gXmajt L gr pwr a.x0 true = some first ∧
      collectLoop (fun s : ℚ × ℚ => decide (s.1 ≤ a.xn + p / 200)) (a.drawTick L gr pwr a.ndivs)
        (nextTick a.ndivs (p / a.ndivs)) fuel (s.1 - a.offset, s.2) = some ts ∧
      a.gXmajt L gr pwr a.xn (!a.inv) = some last ∧
      d = ⟨some (gr.user2pixx L a.x0, gr.user2pixx L a.xn, gr.user2pixy L a.y0),
        first :: ts ++ [last]⟩ := by
  have heps : (1 / 2 : ℚ) * (p / 100) = p / 200 := by ring
  rw [xaxis, if_pos hacc, hsearch, Option.bind_some, hload, Option.bind_some, hload₂,
    Option.bind_some]
  simp only [hN, heps, Option.bind_eq_some_iff, Option.map_eq_some_iff]
  constructor
  · rintro ⟨s, hs, first, hx0, ts, hts, last, hxn, rfl⟩
    exact ⟨s, first, ts, last, hs, hx0, hts, hxn, rfl⟩
  · rintro ⟨s, first, ts, last, hs, hx0, hts, hxn, rfl⟩
    exact ⟨s, hs, first, hx0, ts, hts, last, hxn, rfl⟩

/-- The places up to the end are the first ones. -/
theorem exists_place_count {p : ℚ} (hd : 0 < p / a.ndivs) (i : ℤ) :
    ∃ n : ℕ, ∀ m : ℕ, a.place p (i + m) ≤ a.xn + p / 200 ↔ m < n := by
  refine ⟨(⌊(a.xn + p / 200 + a.offset) / (p / a.ndivs)⌋ + 1 - i).toNat, fun m => ?_⟩
  have hfloor : a.place p (i + m) ≤ a.xn + p / 200 ↔
      i + m ≤ ⌊(a.xn + p / 200 + a.offset) / (p / a.ndivs)⌋ := by
    rw [Int.le_floor, le_div_iff₀ hd, place]
    constructor <;> intro h <;> linarith
  rw [hfloor]
  omega

theorem exists_run (hacc : a.Accepted gr) (hlt : a.x0 < a.xn) (hN : 2 ≤ a.ndivs)
    (hlow : -36 ≤ Int.clog 10 (a.xn - a.x0) - 1)
    (hpwr : pwr = min (Int.clog 10 (a.xn - a.x0) - 1 + 38) 76) :
    ∃ b i n, IsRun L gr a pwr ((10 : ℚ) ^ (pwr - 38)) b i n := by
  have hN₀ : 0 < a.ndivs := by omega
  have hdiv : a.divisions = a.ndivs := if_neg (by omega)
  have hsearch : searchPower (a.xn - a.x0) 77 = some pwr := by
    rw [searchPower_eq (sub_pos.2 hlt) (by omega) (by norm_num) le_rfl, hpwr]
    rfl
  have hload : load powers pwr = some ((10 : ℚ) ^ (pwr - 38)) := by
    rw [load_powers, if_pos (by omega)]
  have hload₂ : load powers (pwr - 2) = some ((10 : ℚ) ^ (pwr - 38) / 100) := by
    have hexp : pwr - 2 - 38 = pwr - 38 - 2 := by ring
    rw [load_powers, if_pos (by omega), hexp, zpow_sub₀ (by norm_num)]
    norm_num
  have hp : (0 : ℚ) < 10 ^ (pwr - 38) := zpow_pos (by norm_num) _
  generalize (10 : ℚ) ^ (pwr - 38) = p at hp hload hload₂
  obtain ⟨b, i, c, hfirst, hwalk⟩ :=
    exists_firstTick hN₀ hp (show 0 < p / 200 by positivity) (a.x0 + a.offset)
  obtain ⟨n, hcount⟩ := exists_place_count (div_pos hp (by exact_mod_cast hN₀)) i
  refine ⟨b, i, n, hfirst, hcount, fun d => ?_⟩
  have hcnt : i - b * a.ndivs = phase a.ndivs i := phase_first hfirst.behind hfirst.ahead
  have hcollect := fun fuel ts => @collectLoop_eq_some_iff (ℚ × ℚ)
    (fun s => decide (s.1 ≤ a.xn + p / 200)) _ (a.drawTick L gr pwr a.ndivs)
    (nextTick a.ndivs (p / a.ndivs))
    (fun m => (a.place p (i + m), ((phase a.ndivs (i + m) : ℤ) : ℚ))) n fuel ts
    (fun m => by rw [nextTick_place hN₀, add_assoc, ← Nat.cast_succ])
    (fun m => by rw [decide_eq_true_eq, hcount])
  simp only [Nat.cast_zero, add_zero] at hcollect
  have hstart : ((i : ℚ) * (p / a.ndivs) - a.offset, ((i - b * a.ndivs : ℤ) : ℚ)) =
      (a.place p i, ((phase a.ndivs i : ℤ) : ℚ)) := by rw [hcnt, place]
  simp only [xaxis_eq_some_iff hacc hdiv hsearch hload hload₂]
  constructor
  · rintro ⟨fuel, s, first, ts, last, hs, hx0, hts, hxn, rfl⟩
    obtain ⟨-, rfl⟩ := (hwalk fuel s).1 hs
    rw [hstart] at hts
    exact ⟨first, ts, last, hx0, ((hcollect fuel ts).1 hts).2, hxn, rfl⟩
  · rintro ⟨first, ts, last, hx0, hts, hxn, rfl⟩
    have hn : n < max c (n + 1) := lt_of_lt_of_le (Nat.lt_succ_self n) (le_max_right _ _)
    refine ⟨max c (n + 1), _, first, ts, last, (hwalk _ _).2 ⟨le_max_left _ _, rfl⟩, hx0, ?_, hxn,
      rfl⟩
    rw [hstart]
    exact (hcollect _ ts).2 ⟨hn, hts⟩

/-! ## Where the ticks are -/

section Places

variable {p : ℚ} {b i : ℤ} {n : ℕ} {ts : List Tick}

theorem place_add_offset (p : ℚ) (k : ℤ) : a.place p k + a.offset = k * (p / a.ndivs) :=
  sub_add_cancel _ _

/-- A multiple of the power is a place with a multiple of the number of divisions. -/
theorem atMultiple_place (hN : 0 < a.ndivs) (hp : 0 < p) (k : ℤ) :
    a.AtMultiple p (a.place p k) ↔ a.ndivs ∣ k := by
  have hN' : (a.ndivs : ℚ) ≠ 0 := by exact_mod_cast hN.ne'
  unfold AtMultiple
  simp only [place_add_offset, dvd_iff_exists_eq_mul_left]
  apply exists_congr
  intro j
  rw [← Int.cast_inj (α := ℚ), mul_div_assoc', div_eq_iff hN', mul_right_comm,
    mul_left_inj' hp.ne']
  push_cast
  rfl

theorem halfway_place (hN : 0 < a.ndivs) (hp : 0 < p) (k : ℤ) :
    (Even a.ndivs ∧ ∃ j : ℤ, a.place p k + a.offset = (j + 1 / 2) * p) ↔
      ∃ j : ℤ, 2 * k = (2 * j + 1) * a.ndivs := by
  have hN' : (a.ndivs : ℚ) ≠ 0 := by exact_mod_cast hN.ne'
  have hiff : ∀ j : ℤ, a.place p k + a.offset = (j + 1 / 2) * p ↔
      2 * k = (2 * j + 1) * a.ndivs := by
    intro j
    rw [place_add_offset, ← Int.cast_inj (α := ℚ), mul_div_assoc', div_eq_iff hN', mul_right_comm,
      mul_left_inj' hp.ne']
    push_cast
    constructor <;> intro h <;> linarith
  simp only [hiff]
  refine and_iff_right_of_imp ?_
  rintro ⟨j, hj⟩
  have heven : Even ((2 * j + 1) * a.ndivs) := hj ▸ even_two_mul k
  rcases Int.even_mul.1 heven with hodd | hndivs
  · exact absurd hodd (Int.not_even_two_mul_add_one j)
  · exact hndivs

variable (hts : ticksFrom L gr a pwr p i n = ts.map some)

include hts

theorem mem_ticks_iff (t : Tick) : t ∈ ts ↔ ∃ m < n, a.drawTick L gr pwr a.ndivs
    (a.place p (i + m), ((phase a.ndivs (i + m) : ℤ) : ℚ)) = some t := by
  have hmem : t ∈ ts ↔ some t ∈ ts.map some := by simp
  rw [hmem, ← hts, ticksFrom, List.mem_map]
  simp only [List.mem_range]

/-- Each place has its tick. -/
theorem exists_tick (m : ℕ) (hm : m < n) : ∃ t ∈ ts, a.drawTick L gr pwr a.ndivs
    (a.place p (i + m), ((phase a.ndivs (i + m) : ℤ) : ℚ)) = some t := by
  have hmem : a.drawTick L gr pwr a.ndivs
      (a.place p (i + m), ((phase a.ndivs (i + m) : ℤ) : ℚ)) ∈ ts.map some := by
    rw [← hts]
    exact List.mem_map_of_mem (List.mem_range.2 hm)
  obtain ⟨t, ht, heq⟩ := List.mem_map.1 hmem
  exact ⟨t, ht, heq.symm⟩

theorem pairwise_ticks (hN : 0 < a.ndivs) (hp : 0 < p) :
    ts.Pairwise fun t t' => t.pt < t'.pt := by
  have hd : 0 < p / a.ndivs := div_pos hp (by exact_mod_cast hN)
  have hpair : (ts.map some).Pairwise fun o o' : Option Tick =>
      ∀ t t', o = some t → o' = some t' → t.pt < t'.pt := by
    rw [← hts, ticksFrom, List.pairwise_map]
    refine List.pairwise_lt_range.imp fun {m m'} hlt t t' ht ht' => ?_
    rw [(drawTick_eq_some hN ht).1, (drawTick_eq_some hN ht').1]
    have hcast : ((i + m : ℤ) : ℚ) < ((i + m' : ℤ) : ℚ) := by exact_mod_cast by omega
    exact sub_lt_sub_right (mul_lt_mul_of_pos_right hcast hd) _
  rw [List.pairwise_map] at hpair
  exact hpair.imp fun h => h _ _ rfl rfl

/-- The ticks of a run with the right power are the right ones. -/
theorem ticksFit_of_run (hN : 0 < a.ndivs) (hp : 0 < a.power) (hrun : IsRun L gr a pwr p b i n)
    (hpower : p = a.power) : a.TicksFit ts := by
  have hd : 0 < p / a.ndivs := div_pos (hpower ▸ hp) (by exact_mod_cast hN)
  have hfirst := hrun.first
  rw [hpower] at hts hrun hd hfirst
  have htick : ∀ t ∈ ts, ∃ m < n, t.pt = a.place a.power (i + m) ∧
      (t.mark = .major ↔ a.ndivs ∣ i + m) ∧
      (t.mark = .middle ↔ ∃ k : ℤ, 2 * (i + m) = (2 * k + 1) * a.ndivs) := by
    intro t ht
    obtain ⟨m, hm, hdraw⟩ := (mem_ticks_iff hts t).1 ht
    exact ⟨m, hm, drawTick_eq_some hN hdraw⟩
  refine ⟨fun t ht => ?_, fun x hlow hhigh hx => ?_, pairwise_ticks hts hN hp, fun t ht => ?_,
    fun t ht => ?_⟩
  · obtain ⟨m, hm, hpt, -⟩ := htick t ht
    have hstep : (i : ℚ) * (a.power / a.ndivs) ≤ ((i + m : ℤ) : ℚ) * (a.power / a.ndivs) :=
      mul_le_mul_of_nonneg_right (by push_cast; linarith [Nat.cast_nonneg (α := ℚ) m]) hd.le
    rw [hpt]
    refine ⟨?_, (hrun.count m).2 hm, i + m, place_add_offset _ _⟩
    have := hfirst.low
    unfold place
    linarith
  · obtain ⟨k, hk⟩ := hx
    have hbehind : i - 1 < k := by
      have hlt : (i - 1 : ℚ) * (a.power / a.ndivs) < k * (a.power / a.ndivs) := by
        linarith [hfirst.high]
      have := lt_of_mul_lt_mul_right hlt hd.le
      exact_mod_cast this
    obtain ⟨m, hm⟩ : ∃ m : ℕ, i + m = k := ⟨(k - i).toNat, by omega⟩
    have hplace : a.place a.power (i + m) = x := by
      rw [place, hm]
      linarith
    have hlt : m < n := (hrun.count m).1 (by rw [hplace]; linarith)
    obtain ⟨t, ht, hdraw⟩ := exists_tick hts m hlt
    exact ⟨t, ht, (drawTick_eq_some hN hdraw).1.trans hplace⟩
  · obtain ⟨m, -, hpt, hmajor, -⟩ := htick t ht
    rw [hmajor, hpt, atMultiple_place hN hp]
  · obtain ⟨m, -, hpt, -, hmiddle⟩ := htick t ht
    rw [hmiddle, hpt, halfway_place hN hp]

omit hts

theorem labelOf_isSome_iff_printable (hpwr : pwr < 77) (h5 : 5 ≤ pwr)
    (hexp : (10 : ℚ) ^ (pwr - 38) = a.power) (x : ℚ) :
    (a.labelOf pwr x).isSome ↔ a.Printable x := by
  refine a.labelOf_isSome_iff ?_ x
  have hsub : pwr - 5 - 38 = pwr - 38 - 5 := by ring
  rw [load_powers, if_pos (by omega), hsub, zpow_sub₀ (by norm_num), hexp]
  rfl

/-- A multiple of the power behind the start is a place in the run. -/
theorem IsRun.exists_place (hrun : IsRun L gr a pwr a.power b i n) (hN : 0 < a.ndivs)
    (hp : 0 < a.power) {k : ℤ} (hlow : a.x0 < x) (hhigh : x ≤ a.xn + a.power / 200)
    (hk : x + a.offset = k * a.power) :
    ∃ m < n, a.place a.power (i + m) = x ∧ a.ndivs ∣ i + m := by
  -- it is behind the block of the first tick
  have hblock : b < k := by
    have hlt : (b : ℚ) * a.power < k * a.power := by linarith [hrun.first.low_block]
    exact_mod_cast lt_of_mul_lt_mul_right hlt hp.le
  have hahead : i ≤ k * a.ndivs :=
    hrun.first.ahead.trans (mul_le_mul_of_nonneg_right hblock hN.le)
  obtain ⟨m, hm⟩ : ∃ m : ℕ, i + m = k * a.ndivs := ⟨(k * a.ndivs - i).toNat, by omega⟩
  have hplace : a.place a.power (i + m) = x := by
    rw [place, hm, Int.cast_mul, mul_assoc, mul_division hN]
    linarith
  refine ⟨m, (hrun.count m).1 ?_, hplace, hm ▸ Int.dvd_mul_left k a.ndivs⟩
  rw [hplace]
  exact hhigh

/-- A place in the run that is a multiple of the power is labelled. -/
theorem IsRun.labelled_place (hrun : IsRun L gr a pwr a.power b i n) (hN : 0 < a.ndivs)
    (hp : 0 < a.power) {m : ℕ} (hm : m < n) (hdvd : a.ndivs ∣ i + m) :
    a.Labelled (a.place a.power (i + m)) := by
  have hd : 0 < a.power / a.ndivs := div_pos hp (by exact_mod_cast hN)
  obtain ⟨k, hk⟩ := (atMultiple_place hN hp _).2 hdvd
  -- a multiple that is not in front of the first tick is behind the start
  have hblock : b < k := by
    rw [place_add_offset] at hk
    have hlt : (b : ℚ) * a.ndivs * (a.power / a.ndivs) < k * a.power := by
      rw [← hk]
      apply mul_lt_mul_of_pos_right _ hd
      have := hrun.first.behind
      exact_mod_cast by omega
    rw [mul_assoc, mul_division hN] at hlt
    exact_mod_cast lt_of_mul_lt_mul_right hlt hp.le
  have hstart : (b + 1 : ℚ) * a.power ≤ k * a.power :=
    mul_le_mul_of_nonneg_right (by exact_mod_cast hblock) hp.le
  refine .inr (.inl ⟨?_, (hrun.count m).2 hm, k, hk⟩)
  linarith [hrun.first.high_block]

/-- In a run with the right power, all labels can be made if and only if those of the labelled
points can. -/
theorem exists_ticks_iff (hN : 0 < a.ndivs) (hp : 0 < a.power)
    (hpwr : 0 ≤ pwr ∧ pwr < 77) (hrun : IsRun L gr a pwr p b i n) (hpower : p = a.power)
    (hexp : (10 : ℚ) ^ (pwr - 38) = a.power) :
    (∃ (first : Tick) (ts : List Tick) (last : Tick), a.gXmajt L gr pwr a.x0 true = some first ∧
      ticksFrom L gr a pwr p i n = ts.map some ∧ a.gXmajt L gr pwr a.xn (!a.inv) = some last) ↔
    a.nside = 0 ∨ 5 ≤ pwr ∧ ∀ x, a.Labelled x → a.Printable x := by
  rw [hpower] at hrun ⊢
  constructor
  · rintro ⟨first, ts, last, hx0, hts, hxn⟩
    by_cases hside : a.nside = 0
    · exact .inl hside
    have hmade : ∀ x t, a.gXmajt L gr pwr x true = some t → (a.labelOf pwr x).isSome := by
      intro x t hx
      have hsome := gXmajt_isSome_iff.1 (Option.isSome_of_eq_some hx)
      simpa [hside] using hsome
    have h5 : 5 ≤ pwr := by
      obtain ⟨label, hmake⟩ := Option.isSome_iff_exists.1 (hmade _ _ hx0)
      obtain ⟨tiny, htiny, -⟩ := Option.bind_eq_some_iff.1 hmake
      rw [load_powers] at htiny
      split_ifs at htiny with hbounds
      omega
    refine .inr ⟨h5, fun x hx => ?_⟩
    rw [← labelOf_isSome_iff_printable hpwr.2 h5 hexp]
    rcases hx with rfl | ⟨hlow, hhigh, k, hk⟩ | ⟨rfl, hinv⟩
    · exact hmade _ _ hx0
    · rcases hlow.eq_or_lt with rfl | hlow
      · exact hmade _ _ hx0
      obtain ⟨m, hm, rfl, hdvd⟩ := hrun.exists_place hN hp hlow hhigh hk
      obtain ⟨t, -, hdraw⟩ := exists_tick hts m hm
      have hsome := (drawTick_isSome_iff hN).1 (Option.isSome_of_eq_some hdraw) hdvd
      obtain ⟨t, ht⟩ := Option.isSome_iff_exists.1 hsome
      exact hmade _ _ ht
    · rw [hinv] at hxn
      exact hmade _ _ hxn
  · intro hlabels
    have hmake : ∀ x prt, (prt = true → a.Labelled x) → (a.gXmajt L gr pwr x prt).isSome := by
      intro x prt hx
      rw [gXmajt_isSome_iff]
      rcases hlabels with hside | ⟨h5, hprint⟩
      · exact .inl (.inl hside)
      · cases prt with
        | false => exact .inl (.inr rfl)
        | true =>
          exact .inr ((labelOf_isSome_iff_printable hpwr.2 h5 hexp x).2 (hprint x (hx rfl)))
    have hticks : ∀ o ∈ ticksFrom L gr a pwr a.power i n, o.isSome := by
      intro o ho
      obtain ⟨m, hm, rfl⟩ := List.mem_map.1 ho
      rw [drawTick_isSome_iff hN]
      intro hdvd
      exact hmake _ _ fun _ => hrun.labelled_place hN hp (List.mem_range.1 hm) hdvd
    obtain ⟨first, hx0⟩ := Option.isSome_iff_exists.1 (hmake a.x0 true fun _ => .inl rfl)
    obtain ⟨last, hxn⟩ := Option.isSome_iff_exists.1 (hmake a.xn (!a.inv) fun hinv =>
      .inr (.inr ⟨rfl, by simpa using hinv⟩))
    obtain ⟨ts, hts⟩ := exists_eq_map_some hticks
    exact ⟨first, ts, last, hx0, hts, hxn⟩

end Places

/-! ## When the axis is right -/

theorem power_pos : 0 < a.power := zpow_pos (by norm_num) _

/-- Steps of a smaller power are no steps of the right one. -/
theorem not_ticksFit_of_run {p : ℚ} {b i : ℤ} {n : ℕ} {ts : List Tick} (hN : 2 ≤ a.ndivs)
    (hp : 0 < p) (hsmall : p < a.power) (hlength : a.power < a.xn - a.x0)
    (hrun : IsRun L gr a pwr p b i n)
    (hts : ticksFrom L gr a pwr p i n = ts.map some) :
    ¬a.TicksFit ts := by
  intro hfit
  have hN₀ : 0 < a.ndivs := by omega
  have hN' : (2 : ℚ) ≤ a.ndivs := by exact_mod_cast hN
  have htwo : 2 * (p / a.ndivs) ≤ p := by
    have := mul_le_mul_of_nonneg_right hN' (div_pos hp (by linarith : (0 : ℚ) < a.ndivs)).le
    rwa [mul_division hN₀] at this
  have hsecond : (1 : ℕ) < n := by
    apply (hrun.count 1).1
    have := hrun.first.high
    unfold place
    push_cast
    linarith
  obtain ⟨t₀, ht₀, hdraw₀⟩ := exists_tick hts 0 (by omega)
  obtain ⟨t₁, ht₁, hdraw₁⟩ := exists_tick hts 1 hsecond
  obtain ⟨-, -, k₀, hk₀⟩ := hfit.sound t₀ ht₀
  obtain ⟨-, -, k₁, hk₁⟩ := hfit.sound t₁ ht₁
  rw [(drawTick_eq_some hN₀ hdraw₀).1, place_add_offset] at hk₀
  rw [(drawTick_eq_some hN₀ hdraw₁).1, place_add_offset] at hk₁
  have hstep : p / a.ndivs = (k₁ - k₀ : ℤ) * (a.power / a.ndivs) := by
    push_cast at hk₀ hk₁ ⊢
    linarith
  have hwhole : p = (k₁ - k₀ : ℤ) * a.power := by
    have := congrArg ((a.ndivs : ℚ) * ·) hstep
    simp only [mul_left_comm (a.ndivs : ℚ), mul_division hN₀] at this
    exact this
  have hpos : 0 < k₁ - k₀ := by
    have : (0 : ℚ) < (k₁ - k₀ : ℤ) := (mul_pos_iff_of_pos_right power_pos).1 (hwhole ▸ hp)
    exact_mod_cast this
  have hle : (1 : ℚ) * a.power ≤ (k₁ - k₀ : ℤ) * a.power :=
    mul_le_mul_of_nonneg_right (by exact_mod_cast hpos) power_pos.le
  linarith

/-- An axis whose power is at least the third entry of the table has the right ticks if and only if
the power is in the table and the labels can be made. -/
theorem ticks_drawn_iff (hacc : a.Accepted gr) (hlt : a.x0 < a.xn) (hN : 2 ≤ a.ndivs)
    (hpower : 1 / 10 ^ 36 ≤ a.power) : a.DrawsTicks L gr ↔ a.AxisFits := by
  have hN₀ : 0 < a.ndivs := by omega
  have hlen : 0 < a.xn - a.x0 := sub_pos.2 hlt
  have hzpow : ∀ k : ℕ, (1 / 10 ^ k : ℚ) = (10 : ℚ) ^ (-k : ℤ) := fun k => by
    rw [zpow_neg, zpow_natCast, one_div]
  have hlow : -36 ≤ Int.clog 10 (a.xn - a.x0) - 1 := by
    rw [hzpow, power] at hpower
    exact (zpow_le_zpow_iff_right₀ (by norm_num)).1 hpower
  have hbelow : a.power < a.xn - a.x0 := (zpow_lt_iff hlen _).2 le_rfl
  obtain ⟨b, i, n, hrun⟩ := exists_run (L := L) hacc hlt hN hlow rfl
  generalize hpwr : min (Int.clog 10 (a.xn - a.x0) - 1 + 38) 76 = pwr at hrun
  by_cases hlarge : a.xn - a.x0 ≤ 10 ^ 39
  · have hclog : Int.clog 10 (a.xn - a.x0) - 1 ≤ 38 := by
      have hnot : ¬(10 : ℚ) ^ (39 : ℤ) < a.xn - a.x0 := not_lt.2 (by exact_mod_cast hlarge)
      rw [zpow_lt_iff hlen] at hnot
      omega
    have hexp : (10 : ℚ) ^ (pwr - 38) = a.power := by
      rw [power]
      congr 1
      omega
    have hfive : 1 / 10 ^ 33 < a.xn - a.x0 ↔ 5 ≤ pwr := by
      rw [hzpow, zpow_lt_iff hlen]
      omega
    have hticks := exists_ticks_iff hN₀ power_pos (by omega) hrun hexp hexp
    constructor
    · rintro ⟨fuel, line, first, ts, last, hdraw, -, -, -⟩
      obtain ⟨first', ts', last', hx0, hts, hxn, -⟩ := (hrun.run _).1 ⟨fuel, hdraw⟩
      have hlabels := hticks.1 ⟨first', ts', last', hx0, hts, hxn⟩
      rw [← hfive] at hlabels
      exact ⟨hlarge, hlabels⟩
    · rintro ⟨-, hlabels⟩
      rw [hfive] at hlabels
      obtain ⟨first, ts, last, hx0, hts, hxn⟩ := hticks.2 hlabels
      obtain ⟨fuel, hdraw⟩ := (hrun.run _).2 ⟨first, ts, last, hx0, hts, hxn, rfl⟩
      exact ⟨fuel, _, first, ts, last, hdraw, (gXmajt_eq_some hx0).1, (gXmajt_eq_some hxn).1,
        ticksFit_of_run hts hN₀ power_pos hrun hexp⟩
  · refine iff_of_false ?_ fun h => hlarge h.length
    rintro ⟨fuel, line, first, ts, last, hdraw, -, -, hfit⟩
    obtain ⟨first', ts', last', -, hts, -, heq⟩ := (hrun.run _).1 ⟨fuel, hdraw⟩
    have hclog : 39 ≤ Int.clog 10 (a.xn - a.x0) - 1 := by
      rw [← zpow_lt_iff hlen]
      exact_mod_cast not_le.1 hlarge
    obtain rfl : ts = ts' := by
      have hticks := congrArg Drawing.ticks heq
      simp only [List.cons_append, List.cons.injEq] at hticks
      exact (List.append_inj' hticks.2 rfl).1
    refine not_ticksFit_of_run hN (zpow_pos (by norm_num) _) ?_ hbelow hrun hts hfit
    rw [power]
    exact zpow_lt_zpow_right₀ (by norm_num) (by omega)

theorem power_eq {k : ℤ} (hlow : (10 : ℚ) ^ k < a.xn - a.x0)
    (hhigh : a.xn - a.x0 ≤ (10 : ℚ) ^ (k + 1)) : a.power = 10 ^ k := by
  have hlen : 0 < a.xn - a.x0 := (zpow_pos (by norm_num) _).trans hlow
  have hle := (zpow_lt_iff hlen k).1 hlow
  have hge := mt (zpow_lt_iff hlen (k + 1)).2 (not_lt.2 hhigh)
  rw [power]
  congr 1
  omega

/-- An axis with four divisions and labels below, from one end of the window to the other. -/
def fourDivisions (x0 xn : ℚ) : Axis := ⟨x0, 50, xn, 1, -1, 4, 0, false⟩

def windowOf (x0 xn : ℚ) : LinearGraph where
  logx := false
  logy := false
  user_xmin := x0
  user_ymin := 0
  user_xdif := xn - x0
  user_ydif := 100
  pix_xmin := 0
  pix_ymin := 0
  pix_ymax := 400
  pix_xdif := 800
  pix_ydif := 400
  user_xmax := xn
  linear := rfl

/-- The axis from 147 to 312 is drawn. -/
theorem ticks_drawn_312 : (fourDivisions 147 312).DrawsTicks ⟨id, id⟩ (windowOf 147 312) := by
  have hpower : (fourDivisions 147 312).power = 10 ^ (2 : ℤ) :=
    power_eq (by norm_num [fourDivisions]) (by norm_num [fourDivisions])
  refine (ticks_drawn_iff (by decide +kernel) (by decide +kernel) (by decide) ?_).2
    ⟨by norm_num [fourDivisions], .inr ⟨by norm_num [fourDivisions], fun x hx => .inr ?_⟩⟩
  · rw [hpower]
    norm_num
  · unfold Labelled at hx
    rw [hpower] at hx
    norm_num [fourDivisions] at hx
    rcases hx with rfl | ⟨hlow, hhigh, -⟩ | rfl
    · norm_num
    · constructor <;> linarith
    · norm_num

/-- The end of an axis to three billion is no `int`. -/
theorem ticks_not_drawn_billions :
    ¬(fourDivisions 0 (3 * 10 ^ 9)).DrawsTicks ⟨id, id⟩ (windowOf 0 (3 * 10 ^ 9)) := by
  rintro ⟨fuel, line, first, ts, last, hrun, -⟩
  have hsearch : searchPower ((fourDivisions 0 (3 * 10 ^ 9)).xn -
      (fourDivisions 0 (3 * 10 ^ 9)).x0) 77 = some 47 := by decide +kernel
  rw [xaxis, if_pos (by decide +kernel), hsearch, Option.bind_some] at hrun
  obtain ⟨p, -, hrun⟩ := Option.bind_eq_some_iff.1 hrun
  obtain ⟨q, -, hrun⟩ := Option.bind_eq_some_iff.1 hrun
  obtain ⟨s, -, hrun⟩ := Option.bind_eq_some_iff.1 hrun
  obtain ⟨first', -, hrun⟩ := Option.bind_eq_some_iff.1 hrun
  obtain ⟨ts', -, hrun⟩ := Option.bind_eq_some_iff.1 hrun
  obtain ⟨last', hlast, -⟩ := Option.map_eq_some_iff.1 hrun
  have hnone : (fourDivisions 0 (3 * 10 ^ 9)).labelOf 47 (3 * 10 ^ 9) = none := by decide +kernel
  have hsome := gXmajt_isSome_iff.1 (Option.isSome_of_eq_some hlast)
  rcases hsome with (hside | hprt) | hlabel
  · exact absurd hside (by decide)
  · exact absurd hprt (by decide)
  · exact absurd (hnone ▸ hlabel) (by decide)

end Run

end Axis

end PQL
