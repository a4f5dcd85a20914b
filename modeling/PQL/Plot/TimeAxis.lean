import PQL.Lib.While
import PQL.Plot.Graph
import PQL.Segy.ByteOrder
import PQL.Time.Calendar

/-!
# The axis of absolute times

`xAxisABS` takes the first interval of a table that is not shorter than a fifteenth of the window,
or half a second, and puts a tick at each of its multiples, from the whole second of the start on.
The search does not stop at the end of the table; the whole second of a start before 1970 is behind
it, so that a tick is missed; and a start at a half second gets a tick itself
(`multiples_drawn_iff`).  This is a window of at least a second; times are exact.
-/

namespace PQL

namespace TimeAxis

structure Tick where
  time : ℚ
  x : ℤ
  axis_label : String

/-- The interval and the ticks. -/
structure Drawing where
  incIval : ℚ
  ticks : List Tick

/-! ## The computation -/

def bdryIvals : List ℤ :=
  [1, 5, 10, 15, 30, 60, 120, 300, 600, 900, 1800, 3600, 7200, 14400, 21600, 43200, 86400,
    86400 * 5, 86400 * 10, 86400 * 15, 86400 * 20]

/-- `for (i = 0; q > bdryIvals[i]; i++);`; there is no entry behind the table. -/
def searchIval (q : ℚ) : List ℤ → Option ℤ
  | [] => none
  | ival :: ivals => if q > ival then searchIval q ivals else some ival

/-- `for (; (int) nextPrint % ival; nextPrint++);`. -/
def align (ival : ℤ) (fuel : ℕ) (nextPrint : ℤ) : Option ℚ :=
  whileLoop (fun nextPrint : ℚ => decide ((truncate nextPrint).tmod ival ≠ 0))
    (fun nextPrint => (toInt (nextPrint + 1)).map fun _ => nextPrint + 1) fuel (nextPrint : ℚ)

/-- The text at a tick. -/
def labelOf (incIval nextPrint : ℚ) : String :=
  let date := passcalEtoh nextPrint
  let sec := truncate date.sec
  let tenth := truncate ((date.sec - sec) * 10)
  let yearDay := zeroPadded 4 date.yr ++ ":" ++ zeroPadded 3 (getJulday date.mo date.day date.yr)
  let hourMinute := zeroPadded 2 date.hr ++ ":" ++ zeroPadded 2 date.mn
  if incIval < 1 then
    if date.hr = 0 ∧ date.mn = 0 ∧ sec = 0 ∧ tenth = 0 then yearDay
    else hourMinute ++ ":" ++ zeroPadded 2 sec ++ "." ++ toString tenth
  else if incIval < 60 then
    if date.hr = 0 ∧ date.mn = 0 ∧ sec = 0 then yearDay
    else hourMinute ++ ":" ++ zeroPadded 2 sec
  else if date.hr = 0 ∧ date.mn = 0 then yearDay
  else hourMinute

section Axis

variable (L : Logs10) (gr : Graph) (start : ℚ)

/-- A fifteenth of the window, as a `float`. -/
def fifteenth : ℚ := roundTo 24 (gr.user_xdif / 15)

/-- The first tick and the interval. -/
def firstPrint (fuel : ℕ) (whole ival : ℤ) : Option (ℚ × ℚ) :=
  if ival > 1 then
    (signed (whole + 1)).bind fun nextPrint : ℤ =>
      (align ival fuel nextPrint).map fun nextPrint => (nextPrint, (ival : ℚ))
  else if ¬fifteenth gr ≤ 1 / 2 then some (start + (1 - (start - whole)), 1)
  else some (start + (if start - whole ≤ 1 / 2 then 1 / 2 - (start - whole)
    else 1 - (start - whole)), 1 / 2)

/-- `xAxisABS`. -/
def xAxisABS (fuel : ℕ) : Option Drawing :=
  (toInt start).bind fun whole : ℤ => (searchIval (fifteenth gr) bdryIvals).bind fun ival : ℤ =>
    (firstPrint gr start fuel whole ival).bind fun s =>
      (collectLoop (fun nextPrint => decide (nextPrint < start + gr.user_xdif))
        (fun nextPrint =>
          some (⟨nextPrint, gr.user2pixx L (nextPrint - start), labelOf s.2 nextPrint⟩ : Tick))
        (fun nextPrint => nextPrint + s.2) fuel s.1).map fun ticks => ⟨s.2, ticks⟩

/-! ## What it should draw -/

/-- The interval is an entry of the table or half a second: the least that is not shorter than a
fifteenth of the window. -/
def Selected (incIval : ℚ) : Prop :=
  IsLeast {e : ℚ | (e = 1 / 2 ∨ ∃ ival ∈ bdryIvals, e = ival) ∧ fifteenth gr ≤ e} incIval

/-- An interval is selected, and there is a tick at each of its multiples inside the window, once
and in order. -/
def MarksMultiples : Prop :=
  ∃ fuel d, xAxisABS L gr start fuel = some d ∧ Selected gr d.incIval ∧
    (∀ t, (∃ k ∈ d.ticks, k.time = t) ↔
      start < t ∧ t < start + gr.user_xdif ∧ ∃ m : ℤ, t = m * d.incIval) ∧
    d.ticks.Pairwise fun k k' => k.time < k'.time

/-- The window is short enough for the table, the seconds up to the first tick fit an `int`, a start
before 1970 is a whole second if the next one gets a tick, and a start at a half second does not go
with an interval of one. -/
structure StartFits (incIval : ℚ) : Prop where
  selected : Selected gr incIval
  range : InIntRange (truncate start)
  next : 1 < incIval → ∃ m ival : ℤ, incIval = ival ∧ ival ∣ m ∧ truncate start < m ∧ m < 2 ^ 31
  early : start < 0 → start ≠ ⌊start⌋ → ¬∃ m : ℤ, (truncate start : ℚ) = m * incIval
  half : incIval = 1 / 2 → start - ⌊start⌋ ≠ 1 / 2

end Axis

/-! ## The table -/

theorem sorted_bdryIvals : bdryIvals.Pairwise (· < ·) := by decide

theorem one_le_bdryIvals {ival : ℤ} (h : ival ∈ bdryIvals) : 1 ≤ ival := by
  revert ival
  decide

theorem searchIval_eq_some_iff {q : ℚ} {ivals : List ℤ} (hsorted : ivals.Pairwise (· < ·))
    (v : ℤ) : searchIval q ivals = some v ↔ IsLeast {e | e ∈ ivals ∧ q ≤ (e : ℚ)} v := by
  induction ivals with
  | nil => simp [searchIval, IsLeast]
  | cons ival ivals ih =>
    obtain ⟨hlt, hrest⟩ := List.pairwise_cons.1 hsorted
    rw [searchIval]
    split_ifs with hlarge
    · rw [ih hrest]
      have hset : {e | e ∈ ivals ∧ q ≤ (e : ℚ)} = {e | e ∈ ival :: ivals ∧ q ≤ (e : ℚ)} := by
        ext e
        constructor
        · rintro ⟨he, hq⟩
          exact ⟨List.mem_cons_of_mem _ he, hq⟩
        · rintro ⟨he, hq⟩
          rcases List.mem_cons.1 he with rfl | he
          · exact absurd hq (not_le.2 hlarge)
          · exact ⟨he, hq⟩
      rw [hset]
    · rw [Option.some.injEq]
      have hleast : IsLeast {e | e ∈ ival :: ivals ∧ q ≤ (e : ℚ)} ival := by
        refine ⟨⟨List.mem_cons_self, not_lt.1 hlarge⟩, fun e he => ?_⟩
        rcases List.mem_cons.1 he.1 with rfl | hmem
        · exact le_rfl
        · exact (hlt e hmem).le
      exact ⟨fun h => h ▸ hleast, fun h => hleast.unique h⟩

variable {L : Logs10} {gr : Graph} {start : ℚ}

/-- The interval that the entry at which the search ends stands for. -/
theorem selected_iff (incIval : ℚ) :
    Selected gr incIval ↔ ∃ ival, searchIval (fifteenth gr) bdryIvals = some ival ∧
      (incIval = 1 / 2 ∧ ival = 1 ∧ fifteenth gr ≤ 1 / 2 ∨
        incIval = ival ∧ 1 / 2 < fifteenth gr) := by
  simp only [searchIval_eq_some_iff sorted_bdryIvals]
  have hone : ∀ ival ∈ bdryIvals, (1 : ℚ) ≤ ival := fun ival h => by
    exact_mod_cast one_le_bdryIvals h
  by_cases hhalf : fifteenth gr ≤ 1 / 2
  · have hselected : Selected gr (1 / 2) := by
      refine ⟨⟨.inl rfl, hhalf⟩, ?_⟩
      rintro e ⟨rfl | ⟨ival, hmem, rfl⟩, -⟩
      · exact le_rfl
      · linarith [hone ival hmem]
    have hleast : IsLeast {e | e ∈ bdryIvals ∧ fifteenth gr ≤ (e : ℚ)} 1 :=
      ⟨⟨by decide, by push_cast; linarith⟩, fun e he => one_le_bdryIvals he.1⟩
    constructor
    · intro h
      exact ⟨1, hleast, .inl ⟨h.unique hselected, rfl, hhalf⟩⟩
    · rintro ⟨ival, -, ⟨rfl, -⟩ | ⟨-, hlarge⟩⟩
      · exact hselected
      · exact absurd hhalf (not_le.2 hlarge)
  · have hnot : ∀ e, (e = 1 / 2 ∨ ∃ ival ∈ bdryIvals, e = (ival : ℚ)) ∧ fifteenth gr ≤ e →
        ∃ ival ∈ bdryIvals, e = (ival : ℚ) := by
      rintro e ⟨rfl | h, hq⟩
      · exact absurd hq hhalf
      · exact h
    constructor
    · intro h
      obtain ⟨ival, hmem, rfl⟩ := hnot incIval h.1
      refine ⟨ival, ⟨⟨hmem, h.1.2⟩, fun e he => ?_⟩, .inr ⟨rfl, not_le.1 hhalf⟩⟩
      exact_mod_cast h.2 ⟨.inr ⟨e, he.1, rfl⟩, he.2⟩
    · rintro ⟨ival, h, ⟨-, -, hsmall⟩ | ⟨rfl, -⟩⟩
      · exact absurd hsmall hhalf
      · refine ⟨⟨.inr ⟨ival, h.1.1, rfl⟩, h.1.2⟩, fun e he => ?_⟩
        obtain ⟨ival', hmem, rfl⟩ := hnot e he
        exact_mod_cast h.2 ⟨hmem, he.2⟩

/-! ## The first tick -/

/-- The least multiple behind `base`. -/
def NextMultiple (incIval base first : ℚ) : Prop :=
  IsLeast {t | base < t ∧ ∃ m : ℤ, t = m * incIval} first

theorem nextMultiple_of {incIval base : ℚ} (hpos : 0 < incIval) {k : ℤ} (hlt : base < k * incIval)
    (hle : (k - 1) * incIval ≤ base) : NextMultiple incIval base (k * incIval) := by
  refine ⟨⟨hlt, k, rfl⟩, ?_⟩
  rintro t ⟨hbase, m, rfl⟩
  have hbehind : (k - 1 : ℚ) < m := lt_of_mul_lt_mul_right (hle.trans_lt hbase) hpos.le
  have hkm : k ≤ m := by
    have : k - 1 < m := by exact_mod_cast hbehind
    omega
  exact mul_le_mul_of_nonneg_right (by exact_mod_cast hkm) hpos.le

/-- The loop ends at the least multiple from its start on. -/
theorem align_sound {ival : ℤ} {fuel : ℕ} {z : ℤ} {x : ℚ} (hz : InIntRange z)
    (h : align ival fuel z = some x) :
    ∃ y : ℤ, x = y ∧ InIntRange y ∧ IsLeast {y | z ≤ y ∧ ival ∣ y} y := by
  obtain ⟨⟨y, rfl, hrange, hle, hskip⟩, hend⟩ := whileLoop_sound
    (P := fun x : ℚ => ∃ y : ℤ, x = y ∧ InIntRange y ∧ z ≤ y ∧ ∀ w, z ≤ w → w < y → ¬ival ∣ w)
    (fun x x' ⟨y, hy, _, hle, hskip⟩ hon hbody => by
      subst hy
      rw [decide_eq_true_eq, truncate_intCast, ne_eq, ← Int.dvd_iff_tmod_eq_zero] at hon
      obtain ⟨w, hw, rfl⟩ := Option.map_eq_some_iff.1 hbody
      obtain ⟨-, hrange⟩ := toInt_eq_some.1 hw
      have hcast : ((y : ℤ) : ℚ) + 1 = ((y + 1 : ℤ) : ℚ) := by
        push_cast
        rfl
      rw [hcast, truncate_intCast] at hrange
      refine ⟨y + 1, hcast, hrange, by omega, fun w hlow hhigh => ?_⟩
      rcases (Int.lt_add_one_iff.1 hhigh).lt_or_eq with hlt | rfl
      · exact hskip w hlow hlt
      · exact hon)
    ⟨z, rfl, hz, le_rfl, fun w hlow hhigh => absurd hlow (not_le.2 hhigh)⟩ h
  rw [decide_eq_false_iff_not, not_not, truncate_intCast, ← Int.dvd_iff_tmod_eq_zero] at hend
  refine ⟨y, rfl, hrange, ⟨hle, hend⟩, fun w hw => ?_⟩
  by_contra hlt
  exact hskip w hw.1 (not_le.1 hlt) hw.2

theorem exists_align {ival z y : ℤ} (hz : InIntRange z) (hle : z ≤ y) (hy : y < 2 ^ 31)
    (hdvd : ival ∣ y) : ∃ c, ∀ fuel, c ≤ fuel → ∃ x, align ival fuel z = some x := by
  refine ⟨(y - z).toNat + 1, fun fuel hfuel => ?_⟩
  obtain ⟨x, hx, -⟩ := @whileLoop_spec ℚ
    (fun nextPrint => decide ((truncate nextPrint).tmod ival ≠ 0))
    (fun nextPrint => (toInt (nextPrint + 1)).map fun _ => nextPrint + 1)
    (fun x => ∃ w : ℤ, x = w ∧ z ≤ w ∧ w ≤ y)
    (fun x => (y - truncate x).toNat)
    (fun x ⟨w, hw, hlow, hhigh⟩ hon => by
      subst hw
      rw [decide_eq_true_eq, truncate_intCast, ne_eq, ← Int.dvd_iff_tmod_eq_zero] at hon
      have hne : w ≠ y := fun heq => hon (heq ▸ hdvd)
      have hcast : ((w : ℤ) : ℚ) + 1 = ((w + 1 : ℤ) : ℚ) := by
        push_cast
        rfl
      have hrange : InIntRange (w + 1) := ⟨by have := hz.1; omega, by omega⟩
      refine ⟨((w + 1 : ℤ) : ℚ), ?_, ⟨w + 1, rfl, by omega, by omega⟩, ?_⟩
      · rw [hcast, toInt_eq_some.2 ⟨truncate_intCast _, by rwa [truncate_intCast]⟩]
        rfl
      · rw [truncate_intCast, truncate_intCast]
        omega)
    fuel ((z : ℤ) : ℚ) ⟨z, rfl, le_rfl, hle⟩ (by rw [truncate_intCast]; omega)
  exact ⟨x, hx⟩

/-- The time behind which the first tick is. -/
def baseOf (start incIval : ℚ) : ℚ :=
  truncate start + if incIval = 1 / 2 ∧ 1 / 2 < start - truncate start then 1 / 2 else 0

theorem baseOf_of_one_le {incIval : ℚ} (h : 1 ≤ incIval) :
    baseOf start incIval = truncate start := by
  rw [baseOf, if_neg fun hhalf => by linarith [hhalf.1], add_zero]

/-- The tick behind a whole second. -/
theorem nextMultiple_one (whole : ℤ) : NextMultiple 1 whole (whole + 1) := by
  have h := @nextMultiple_of 1 whole one_pos (whole + 1) (by push_cast; linarith)
    (by push_cast; linarith)
  push_cast at h
  rwa [mul_one] at h

/-- The tick behind a whole or a half second. -/
theorem nextMultiple_half (k : ℤ) : NextMultiple (1 / 2) (k / 2) ((k + 1) / 2) := by
  have h := @nextMultiple_of (1 / 2) (k / 2) (by norm_num) (k + 1) (by push_cast; linarith)
    (by push_cast; linarith)
  rw [mul_one_div] at h
  push_cast at h
  exact h

theorem nextMultiple_first_half (h : start - truncate start ≤ 1 / 2) :
    NextMultiple (1 / 2) (baseOf start (1 / 2)) (start + (1 / 2 - (start - truncate start))) := by
  have hnext := nextMultiple_half (2 * truncate start)
  have hbase : ((2 * truncate start : ℤ) : ℚ) / 2 = baseOf start (1 / 2) := by
    rw [baseOf, if_neg fun hgt => not_lt.2 h hgt.2]
    push_cast
    ring
  have hfirst : (((2 * truncate start : ℤ) : ℚ) + 1) / 2 =
      start + (1 / 2 - (start - truncate start)) := by
    push_cast
    ring
  rwa [hbase, hfirst] at hnext

theorem nextMultiple_second_half (h : 1 / 2 < start - truncate start) :
    NextMultiple (1 / 2) (baseOf start (1 / 2)) (start + (1 - (start - truncate start))) := by
  have hnext := nextMultiple_half (2 * truncate start + 1)
  have hbase : ((2 * truncate start + 1 : ℤ) : ℚ) / 2 = baseOf start (1 / 2) := by
    rw [baseOf, if_pos ⟨rfl, h⟩]
    push_cast
    ring
  have hfirst : (((2 * truncate start + 1 : ℤ) : ℚ) + 1) / 2 =
      start + (1 - (start - truncate start)) := by
    push_cast
    ring
  rwa [hbase, hfirst] at hnext

/-- The least multiple of the interval behind the whole second. -/
theorem nextMultiple_of_isLeast {ival k : ℤ} (hone : 1 ≤ ival)
    (hle : truncate start + 1 ≤ k * ival)
    (hleast : ∀ m : ℤ, truncate start + 1 ≤ m * ival → k * ival ≤ m * ival) :
    NextMultiple (ival : ℚ) (baseOf start ival) ((k * ival : ℤ) : ℚ) := by
  have hcast : (1 : ℚ) ≤ ival := by exact_mod_cast hone
  have hbehind : (k - 1) * ival ≤ truncate start := by
    by_contra hgt
    have := hleast (k - 1) (by omega)
    rw [sub_mul] at this
    omega
  have hahead : truncate start < k * ival := by omega
  rw [baseOf_of_one_le hcast, Int.cast_mul]
  exact nextMultiple_of (by linarith) (by exact_mod_cast hahead) (by exact_mod_cast hbehind)

variable {ival : ℤ} (hsearch : searchIval (fifteenth gr) bdryIvals = some ival)

include hsearch

theorem one_le_searched : 1 ≤ ival :=
  one_le_bdryIvals ((searchIval_eq_some_iff sorted_bdryIvals ival).1 hsearch).1.1

/-- A longer interval is not taken for a fifteenth of a second. -/
theorem one_lt_fifteenth (h : 1 < ival) : 1 < fifteenth gr := by
  by_contra hle
  have hmem : (1 : ℤ) ∈ {e | e ∈ bdryIvals ∧ fifteenth gr ≤ (e : ℚ)} :=
    ⟨by decide, by push_cast; exact not_lt.1 hle⟩
  have := ((searchIval_eq_some_iff sorted_bdryIvals ival).1 hsearch).2 hmem
  omega

theorem firstPrint_sound {fuel : ℕ} {s : ℚ × ℚ}
    (h : firstPrint gr start fuel (truncate start) ival = some s) :
    Selected gr s.2 ∧ NextMultiple s.2 (baseOf start s.2) s.1 ∧
      (1 < s.2 → ∃ m ival : ℤ, s.2 = ival ∧ ival ∣ m ∧ truncate start < m ∧ m < 2 ^ 31) := by
  have hone := one_le_searched hsearch
  unfold firstPrint at h
  split_ifs at h with hlarge hsmall hfract
  · obtain ⟨n, hn, h⟩ := Option.bind_eq_some_iff.1 h
    obtain ⟨rfl, hnrange⟩ := signed_eq_some.1 hn
    obtain ⟨x, hx, rfl⟩ := Option.map_eq_some_iff.1 h
    obtain ⟨y, rfl, hy, ⟨hle, k, rfl⟩, hleast⟩ := align_sound hnrange hx
    refine ⟨(selected_iff _).2 ⟨ival, hsearch, .inr ⟨rfl, ?_⟩⟩, ?_, fun _ =>
      ⟨ival * k, ival, rfl, Int.dvd_mul_right ival k, by omega, hy.2⟩⟩
    · linarith [one_lt_fifteenth hsearch hlarge]
    · rw [mul_comm ival k] at hle hleast ⊢
      exact nextMultiple_of_isLeast hone hle fun m hm => hleast ⟨hm, Int.dvd_mul_left m ival⟩
  · obtain rfl : ival = 1 := by omega
    obtain rfl := Option.some.inj h
    exact ⟨(selected_iff _).2 ⟨1, hsearch, .inl ⟨rfl, rfl, hsmall⟩⟩,
      nextMultiple_first_half hfract, fun hlt => absurd hlt (by norm_num)⟩
  · obtain rfl : ival = 1 := by omega
    obtain rfl := Option.some.inj h
    exact ⟨(selected_iff _).2 ⟨1, hsearch, .inl ⟨rfl, rfl, hsmall⟩⟩,
      nextMultiple_second_half (not_le.1 hfract), fun hlt => absurd hlt (by norm_num)⟩
  · obtain rfl : ival = 1 := by omega
    obtain rfl := Option.some.inj h
    have hinterval : (1 : ℚ) = ((1 : ℤ) : ℚ) := by norm_num
    refine ⟨(selected_iff _).2 ⟨1, hsearch, .inr ⟨hinterval, not_le.1 hsmall⟩⟩, ?_,
      fun hlt => absurd hlt (lt_irrefl (1 : ℚ))⟩
    have hfirst : start + (1 - (start - truncate start)) = truncate start + 1 := by ring
    change NextMultiple 1 (baseOf start 1) (start + (1 - (start - truncate start)))
    rw [baseOf_of_one_le le_rfl, hfirst]
    exact nextMultiple_one _

theorem exists_firstPrint {incIval : ℚ} (hselected : Selected gr incIval)
    (hrange : InIntRange (truncate start))
    (hnext : 1 < incIval →
      ∃ m ival : ℤ, incIval = ival ∧ ival ∣ m ∧ truncate start < m ∧ m < 2 ^ 31) :
    ∃ c, ∀ fuel, c ≤ fuel → ∃ s, firstPrint gr start fuel (truncate start) ival = some s := by
  unfold firstPrint
  split_ifs with hlarge hsmall
  · obtain ⟨ival', hival', hstands⟩ := (selected_iff incIval).1 hselected
    obtain rfl := Option.some.inj (hsearch.symm.trans hival')
    have hincIval : incIval = ival := by
      rcases hstands with ⟨-, rfl, -⟩ | ⟨h, -⟩
      · omega
      · exact h
    obtain ⟨m, v, hv, hdvd, hlow, hhigh⟩ := hnext (by rw [hincIval]; exact_mod_cast hlarge)
    obtain rfl : v = ival := by
      rw [hincIval] at hv
      exact_mod_cast hv.symm
    have hfirst : InIntRange (truncate start + 1) := ⟨by have := hrange.1; omega, by omega⟩
    obtain ⟨c, hc⟩ := exists_align hfirst (show truncate start + 1 ≤ m by omega) hhigh hdvd
    refine ⟨c, fun fuel hfuel => ?_⟩
    obtain ⟨x, hx⟩ := hc fuel hfuel
    rw [signed_eq_some.2 ⟨rfl, hfirst⟩, Option.bind_some, hx]
    exact ⟨_, rfl⟩
  all_goals exact ⟨0, fun _ _ => ⟨_, rfl⟩⟩

omit hsearch

/-! ## The ticks -/

theorem pos_of_selected {incIval : ℚ} (h : Selected gr incIval) : 0 < incIval := by
  rcases h.1.1 with rfl | ⟨ival, hmem, rfl⟩
  · norm_num
  · have := one_le_bdryIvals hmem
    exact_mod_cast by omega

/-- The ticks are the multiples from the first one on, up to the end of the window. -/
theorem ticks_of_nextMultiple {incIval base first stop : ℚ} (hpos : 0 < incIval)
    (hfirst : NextMultiple incIval base first) : ∃ n : ℕ,
      (∀ m : ℕ, first + m * incIval < stop ↔ m < n) ∧
      ∀ t, (∃ m < n, first + (m : ℕ) * incIval = t) ↔
        base < t ∧ t < stop ∧ ∃ m : ℤ, t = m * incIval := by
  have hcount : ∀ m : ℕ, first + m * incIval < stop ↔ m < ⌈(stop - first) / incIval⌉.toNat := by
    intro m
    have hceil : first + m * incIval < stop ↔ (m : ℤ) < ⌈(stop - first) / incIval⌉ := by
      rw [Int.lt_ceil, lt_div_iff₀ hpos, lt_sub_iff_add_lt']
      push_cast
      rfl
    rw [hceil]
    omega
  refine ⟨_, hcount, fun t => ?_⟩
  obtain ⟨⟨hbase, k, rfl⟩, hleast⟩ := hfirst
  constructor
  · rintro ⟨m, hm, rfl⟩
    have hnonneg : 0 ≤ (m : ℚ) * incIval := by positivity
    exact ⟨by linarith, (hcount m).2 hm, k + m, by push_cast; ring⟩
  · rintro ⟨hlow, hhigh, j, rfl⟩
    have hle : (k : ℚ) * incIval ≤ j * incIval := hleast ⟨hlow, j, rfl⟩
    have hkj : k ≤ j := by exact_mod_cast le_of_mul_le_mul_right hle hpos
    obtain ⟨m, rfl⟩ : ∃ m : ℕ, j = k + m := ⟨(j - k).toNat, by omega⟩
    have htime : (k : ℚ) * incIval + m * incIval = (k + m : ℤ) * incIval := by
      push_cast
      ring
    exact ⟨m, (hcount m).1 (htime ▸ hhigh), htime⟩

/-- The loop over the ticks, when it ends. -/
theorem collect_ticks_iff {incIval first : ℚ} {n : ℕ} (fuel : ℕ) (ticks : List Tick)
    (hcount : ∀ m : ℕ, first + m * incIval < start + gr.user_xdif ↔ m < n) :
    collectLoop (fun nextPrint => decide (nextPrint < start + gr.user_xdif))
      (fun nextPrint =>
        some (⟨nextPrint, gr.user2pixx L (nextPrint - start), labelOf incIval nextPrint⟩ : Tick))
      (fun nextPrint => nextPrint + incIval) fuel first = some ticks ↔
    n < fuel ∧ ticks = (List.range n).map fun m : ℕ =>
      (⟨first + m * incIval, gr.user2pixx L (first + m * incIval - start),
        labelOf incIval (first + m * incIval)⟩ : Tick) := by
  have hcollect := @collectLoop_eq_some_iff ℚ
    (fun nextPrint => decide (nextPrint < start + gr.user_xdif)) Tick
    (fun nextPrint =>
      some ⟨nextPrint, gr.user2pixx L (nextPrint - start), labelOf incIval nextPrint⟩)
    (fun nextPrint => nextPrint + incIval) (fun m => first + m * incIval) n fuel ticks
    (fun m => by push_cast; ring)
    (fun m => by rw [decide_eq_true_eq, hcount])
  rw [Nat.cast_zero, zero_mul, add_zero] at hcollect
  rw [hcollect, ← (List.map_injective_iff.2 (Option.some_injective Tick)).eq_iff, List.map_map]
  exact and_congr_right fun _ => eq_comm

/-- What is drawn. -/
structure DrawnFrom (gr : Graph) (start : ℚ) (d : Drawing) : Prop where
  range : InIntRange (truncate start)
  selected : Selected gr d.incIval
  next : 1 < d.incIval →
    ∃ m ival : ℤ, d.incIval = ival ∧ ival ∣ m ∧ truncate start < m ∧ m < 2 ^ 31
  times : ∀ t, (∃ k ∈ d.ticks, k.time = t) ↔
    baseOf start d.incIval < t ∧ t < start + gr.user_xdif ∧ ∃ m : ℤ, t = m * d.incIval
  increasing : d.ticks.Pairwise fun k k' => k.time < k'.time

theorem drawnFrom_of_run {fuel : ℕ} {d : Drawing} (h : xAxisABS L gr start fuel = some d) :
    DrawnFrom gr start d := by
  obtain ⟨whole, hwhole, h⟩ := Option.bind_eq_some_iff.1 h
  obtain ⟨rfl, hrange⟩ := toInt_eq_some.1 hwhole
  obtain ⟨ival, hsearch, h⟩ := Option.bind_eq_some_iff.1 h
  obtain ⟨⟨first, incIval⟩, hprint, h⟩ := Option.bind_eq_some_iff.1 h
  obtain ⟨ticks, hticks, rfl⟩ := Option.map_eq_some_iff.1 h
  obtain ⟨hselected, hfirst, hnext⟩ := firstPrint_sound hsearch hprint
  have hpos := pos_of_selected hselected
  obtain ⟨n, hcount, htimes⟩ := @ticks_of_nextMultiple _ _ _ (start + gr.user_xdif) hpos hfirst
  obtain ⟨-, rfl⟩ := (collect_ticks_iff fuel ticks hcount).1 hticks
  refine ⟨hrange, hselected, hnext, fun t => ?_, ?_⟩
  · rw [← htimes t]
    constructor
    · rintro ⟨k, hk, rfl⟩
      obtain ⟨m, hm, rfl⟩ := List.mem_map.1 hk
      exact ⟨m, List.mem_range.1 hm, rfl⟩
    · rintro ⟨m, hm, rfl⟩
      exact ⟨_, List.mem_map_of_mem (List.mem_range.2 hm), rfl⟩
  · rw [List.pairwise_map]
    refine List.pairwise_lt_range.imp fun {m m'} hlt => ?_
    have hcast : (m : ℚ) < m' := by exact_mod_cast hlt
    exact add_lt_add_right (mul_lt_mul_of_pos_right hcast hpos) first

theorem exists_run {incIval : ℚ} (hselected : Selected gr incIval)
    (hrange : InIntRange (truncate start))
    (hnext : 1 < incIval →
      ∃ m ival : ℤ, incIval = ival ∧ ival ∣ m ∧ truncate start < m ∧ m < 2 ^ 31) :
    ∃ fuel d, xAxisABS L gr start fuel = some d := by
  obtain ⟨ival, hsearch, -⟩ := (selected_iff incIval).1 hselected
  obtain ⟨c, hc⟩ := exists_firstPrint hsearch hselected hrange hnext
  obtain ⟨s, hprint⟩ := hc c le_rfl
  obtain ⟨hsel, hfirst, -⟩ := firstPrint_sound hsearch hprint
  obtain ⟨n, hcount, -⟩ :=
    @ticks_of_nextMultiple _ _ _ (start + gr.user_xdif) (pos_of_selected hsel) hfirst
  -- with more fuel the first tick is the same
  obtain ⟨s', hprint'⟩ := hc (max c (n + 1)) (le_max_left _ _)
  obtain ⟨hsel', hfirst', -⟩ := firstPrint_sound hsearch hprint'
  have hinc : s'.2 = s.2 := hsel'.unique hsel
  rw [hinc] at hfirst'
  have hsame : s' = s := Prod.ext (hfirst'.unique hfirst) hinc
  refine ⟨max c (n + 1), ?_⟩
  rw [xAxisABS, toInt_eq_some.2 ⟨rfl, hrange⟩, Option.bind_some, hsearch, Option.bind_some, hprint',
    hsame, Option.bind_some, (collect_ticks_iff _ _ hcount).2
      ⟨lt_of_lt_of_le (Nat.lt_succ_self n) (le_max_right _ _), rfl⟩]
  exact ⟨_, rfl⟩

/-! ## When the axis is right -/

/-- The ticks begin behind the start: there is no multiple between it and their base. -/
def BaseFits (gr : Graph) (start incIval : ℚ) : Prop :=
  ∀ m : ℤ, m * incIval < start + gr.user_xdif →
    (baseOf start incIval < m * incIval ↔ start < m * incIval)

theorem one_le_or_half {incIval : ℚ} (h : Selected gr incIval) :
    incIval = 1 / 2 ∨ ∃ ival : ℤ, 1 ≤ ival ∧ incIval = ival := by
  rcases h.1.1 with rfl | ⟨ival, hmem, rfl⟩
  · exact .inl rfl
  · exact .inr ⟨ival, one_le_bdryIvals hmem, rfl⟩

/-- From 1970 on, only a half second is between the start and the base. -/
theorem baseFits_of_nonneg {incIval : ℚ} (hselected : Selected gr incIval)
    (hlen : 1 ≤ gr.user_xdif) (hstart : 0 ≤ start) :
    BaseFits gr start incIval ↔ (incIval = 1 / 2 → start - ⌊start⌋ ≠ 1 / 2) := by
  have hlow := Int.floor_le start
  have hhigh := Int.lt_floor_add_one start
  unfold BaseFits baseOf
  rw [truncate_of_nonneg hstart]
  generalize ⌊start⌋ = whole at hlow hhigh
  rcases one_le_or_half hselected with rfl | ⟨ival, hival, rfl⟩
  · rw [imp_iff_right rfl]
    simp only [true_and]
    -- the multiples are half seconds
    have hstep : ∀ m n : ℤ, (n : ℚ) / 2 < m * (1 / 2) → ((n : ℚ) + 1) / 2 ≤ m * (1 / 2) := by
      intro m n h
      have hlt : (n : ℚ) < m := by linarith
      have hle : (n : ℚ) + 1 ≤ m := by exact_mod_cast hlt
      linarith
    constructor
    · intro h hhalf
      have hbase := (h (2 * whole + 1) (by push_cast; linarith)).1 (by
        rw [if_neg (by linarith)]
        push_cast
        linarith)
      push_cast at hbase
      linarith
    · intro hne m hm
      split_ifs with hfract
      · refine ⟨fun h => ?_, fun h => by linarith⟩
        have := hstep m (2 * whole + 1) (by push_cast; linarith)
        push_cast at this
        linarith
      · refine ⟨fun h => ?_, fun h => by linarith⟩
        have hlt : start - whole < 1 / 2 := lt_of_le_of_ne (not_lt.1 hfract) hne
        have := hstep m (2 * whole) (by push_cast; linarith)
        push_cast at this
        linarith
  · have hone : (1 : ℚ) ≤ ival := by exact_mod_cast hival
    have hhalf : ¬(ival : ℚ) = 1 / 2 := fun h => by linarith
    refine iff_of_true (fun m hm => ?_) fun h => absurd h hhalf
    rw [if_neg fun h => hhalf h.1, add_zero]
    refine ⟨fun h => ?_, fun h => by linarith⟩
    have hlt : whole < m * ival := by exact_mod_cast h
    have hle : (whole : ℚ) + 1 ≤ m * ival := by exact_mod_cast hlt
    linarith

/-- Before 1970, the base is the whole second behind the start. -/
theorem baseFits_of_neg {incIval : ℚ} (hselected : Selected gr incIval) (hlen : 1 ≤ gr.user_xdif)
    (hstart : start < 0) :
    BaseFits gr start incIval ↔
      (start ≠ ⌊start⌋ → ¬∃ m : ℤ, (truncate start : ℚ) = m * incIval) := by
  have hlow := Int.le_ceil start
  have hhigh := Int.ceil_lt_add_one start
  have hbase : baseOf start incIval = ⌈start⌉ := by
    rw [baseOf, truncate_of_nonpos hstart.le, if_neg fun h => by linarith [h.2], add_zero]
  unfold BaseFits
  rw [hbase, truncate_of_nonpos hstart.le]
  by_cases hwhole : start = ⌊start⌋
  · have hceil : ((⌈start⌉ : ℤ) : ℚ) = start := by
      rw [hwhole, Int.ceil_intCast]
    rw [hceil]
    exact iff_of_true (fun m hm => Iff.rfl) fun hne => absurd hwhole hne
  rw [imp_iff_right hwhole]
  have hne : start ≠ ⌈start⌉ := fun h => hwhole (by rw [h, Int.floor_intCast])
  have hlt : start < ⌈start⌉ := lt_of_le_of_ne hlow hne
  generalize ⌈start⌉ = whole at hlow hhigh hlt
  constructor
  · rintro h ⟨m, hm⟩
    have := (h m (by rw [← hm]; linarith)).2 (by rw [← hm]; exact hlt)
    rw [← hm] at this
    exact lt_irrefl _ this
  · intro hnot m hm
    rcases one_le_or_half hselected with rfl | ⟨ival, -, rfl⟩
    · exact absurd ⟨2 * whole, by push_cast; ring⟩ hnot
    refine ⟨fun h => by linarith, fun h => ?_⟩
    have hbehind : (whole : ℚ) < m * ival + 1 := by linarith
    have hle : whole < m * ival + 1 := by exact_mod_cast hbehind
    have hdiff : whole ≠ m * ival := fun heq => hnot ⟨m, by rw [heq]; push_cast; rfl⟩
    have hahead : whole < m * ival := by omega
    exact_mod_cast hahead

/-- For a window of at least a second, a tick is put at each multiple of a selected interval inside
the window if and only if the window is short enough for the table and the start fits. -/
theorem multiples_drawn_iff (hlen : 1 ≤ gr.user_xdif) :
    MarksMultiples L gr start ↔ ∃ incIval, StartFits gr start incIval := by
  have hfits : ∀ incIval, Selected gr incIval → (BaseFits gr start incIval ↔
      (start < 0 → start ≠ ⌊start⌋ → ¬∃ m : ℤ, (truncate start : ℚ) = m * incIval) ∧
        (incIval = 1 / 2 → start - ⌊start⌋ ≠ 1 / 2)) := by
    intro incIval hselected
    rcases lt_or_ge start 0 with hneg | hnonneg
    · rw [baseFits_of_neg hselected hlen hneg, imp_iff_right hneg]
      refine (and_iff_left_of_imp ?_).symm
      intro hearly hhalf hfract
      refine hearly (fun hwhole => ?_) ⟨2 * truncate start, ?_⟩
      · rw [← hwhole, sub_self] at hfract
        norm_num at hfract
      · rw [hhalf]
        push_cast
        ring
    · rw [baseFits_of_nonneg hselected hlen hnonneg]
      exact (and_iff_right fun hneg => absurd hnonneg (not_le.2 hneg)).symm
  constructor
  · rintro ⟨fuel, d, hrun, hselected, htimes, -⟩
    obtain ⟨hrange, -, hnext, hdrawn, -⟩ := drawnFrom_of_run hrun
    have hbase : BaseFits gr start d.incIval := by
      intro m hm
      have hiff := (hdrawn (m * d.incIval)).symm.trans (htimes (m * d.incIval))
      constructor
      · exact fun h => (hiff.1 ⟨h, hm, m, rfl⟩).1
      · exact fun h => (hiff.2 ⟨h, hm, m, rfl⟩).1
    obtain ⟨hearly, hhalf⟩ := (hfits _ hselected).1 hbase
    exact ⟨d.incIval, hselected, hrange, hnext, hearly, hhalf⟩
  · rintro ⟨incIval, hselected, hrange, hnext, hearly, hhalf⟩
    obtain ⟨fuel, d, hrun⟩ := exists_run (L := L) hselected hrange hnext
    obtain ⟨-, hsel, -, hdrawn, hincreasing⟩ := drawnFrom_of_run hrun
    obtain rfl := hselected.unique hsel
    have hbase := (hfits _ hselected).2 ⟨hearly, hhalf⟩
    refine ⟨fuel, d, hrun, hselected, fun t => ?_, hincreasing⟩
    rw [hdrawn]
    constructor
    · rintro ⟨hlow, hhigh, m, rfl⟩
      exact ⟨(hbase m hhigh).1 hlow, hhigh, m, rfl⟩
    · rintro ⟨hlow, hhigh, m, rfl⟩
      exact ⟨(hbase m hhigh).2 hlow, hhigh, m, rfl⟩

/-- A window of fifteen times `seconds`. -/
def windowOf (seconds : ℤ) : Graph where
  logx := false
  logy := false
  user_xmin := 0
  user_ymin := 0
  user_xdif := seconds * 15
  user_ydif := 10
  pix_xmin := 0
  pix_ymin := 0
  pix_ymax := 400
  pix_xdif := 800
  pix_ydif := 400

theorem fifteenth_windowOf {seconds : ℤ} (h : |seconds| < 2 ^ 24) :
    fifteenth (windowOf seconds) = seconds := by
  rw [fifteenth, windowOf, mul_div_cancel_right₀ _ (by norm_num), roundTo_intCast h]

/-- A minute from the first quarter of a second of 2000 on gets ticks five seconds apart. -/
theorem multiples_drawn_minute :
    MarksMultiples ⟨id, id⟩ (windowOf 4) (946684800 + 1 / 4) := by
  have hsearch : searchIval (fifteenth (windowOf 4)) bdryIvals = some 5 := by
    rw [fifteenth_windowOf (by norm_num)]
    decide +kernel
  have hlarge : 1 / 2 < fifteenth (windowOf 4) := by
    rw [fifteenth_windowOf (by norm_num)]
    norm_num
  refine (multiples_drawn_iff (by norm_num [windowOf])).2
    ⟨5, (selected_iff 5).2 ⟨5, hsearch, .inr ⟨by norm_num, hlarge⟩⟩, by decide +kernel,
      fun _ => ⟨946684805, 5, by norm_num, by decide, by decide +kernel, by norm_num⟩,
      fun hneg => absurd hneg (by norm_num), fun hhalf => absurd hhalf (by norm_num)⟩

/-- A window of 347 days is too long for the table. -/
theorem multiples_not_drawn_year :
    ¬MarksMultiples ⟨id, id⟩ (windowOf 2000000) 946684800 := by
  rintro ⟨fuel, d, hrun, -⟩
  obtain ⟨ival, hsearch, -⟩ := (selected_iff d.incIval).1 (drawnFrom_of_run hrun).selected
  have hnone : searchIval (fifteenth (windowOf 2000000)) bdryIvals = none := by
    rw [fifteenth_windowOf (by norm_num)]
    decide +kernel
  exact nomatch hnone.symm.trans hsearch

end TimeAxis

end PQL
