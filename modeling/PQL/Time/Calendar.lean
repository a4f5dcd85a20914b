import PQL.Lib.Positions
import PQL.Sort.DateTime

/-!
# Calendar dates

`passcalEtoh` turns seconds since 1970 into a date by counting off years and months, and
`passcalHtoe` adds them up again.  On the whole seconds that fit an `int` the two are inverse to
each other and keep the order (`passcal_calendar`).
-/

namespace PQL

/-! ## The conversion -/

/-- A `PTIME` that `passcal_etoh` has filled. -/
structure EtohTime where
  yr : ℤ
  mo : ℕ
  day : ℤ
  jday : ℤ
  hr : ℤ
  mn : ℤ
  sec : ℚ
deriving DecidableEq, Repr

/-- The macro `mod`. -/
def passcalMod (a b : ℚ) : ℚ := a - truncate (a / b) * b

def daysInYear (yr : ℤ) : ℤ := if passcalIsleap yr then 366 else 365

theorem daysInYear_pos (yr : ℤ) : 0 < daysInYear yr := by
  unfold daysInYear
  split_ifs <;> norm_num

/-- The loop over the years from 1970 on. -/
def yearsAfter (yr days : ℤ) : ℤ × ℤ :=
  if days < daysInYear yr then (yr, days) else yearsAfter (yr + 1) (days - daysInYear yr)
termination_by days.toNat
decreasing_by
  have := daysInYear_pos yr
  omega

/-- The loop over the years before 1970. -/
def yearsBefore (yr days : ℤ) : ℤ × ℤ :=
  if days + daysInYear yr ≥ 0 then (yr, days + daysInYear yr)
  else yearsBefore (yr - 1) (days + daysInYear yr)
termination_by (-days).toNat
decreasing_by
  have := daysInYear_pos yr
  omega

/-- The length of the month `i`, counted from zero. -/
def monthLength (yr : ℤ) (i : ℕ) : ℤ :=
  daysInMonth.getD i 0 + if i = 1 ∧ passcalIsleap yr then 1 else 0

/-- The loop over the `n` months from `i` on. -/
def monthLoop (yr : ℤ) (i : ℕ) (day : ℤ) : ℕ → ℕ × ℤ
  | 0 => (i, day)
  | n + 1 =>
    if day ≤ monthLength yr i then (i, day)
    else monthLoop yr (i + 1) (day - monthLength yr i) n

/-- `passcal_month_day`: the month and the day in it. -/
def passcalMonthDay (yr julDay : ℤ) : ℕ × ℤ :=
  let (i, day) := monthLoop yr 0 julDay 12
  (i + 1, day)

/-- The whole days of an epoch and the seconds that are left. -/
def splitEpoch (epoch : ℚ) : ℤ × ℚ :=
  let days := truncate (epoch / 86400)
  let secleft := passcalMod epoch 86400
  if secleft < 0 then (days - 1, secleft + 86400) else (days, secleft)

/-- Hours, minutes and seconds; the seconds are stored in a `float`. -/
def splitDay (secleft : ℚ) : ℤ × ℤ × ℚ :=
  let left := passcalMod secleft 3600
  (truncate (secleft / 3600), truncate (left / 60), roundTo 24 (passcalMod left 60))

/-- `passcal_etoh`. -/
def passcalEtoh (epoch : ℚ) : EtohTime :=
  let (days, secleft) := splitEpoch epoch
  let (hr, mn, sec) := splitDay secleft
  let (yr, days) := if days ≥ 0 then yearsAfter 1970 days else yearsBefore 1969 days
  if hr = 23 ∧ mn = 59 ∧ sec = 60 then
    let (mo, day) := passcalMonthDay yr (days + 2)
    ⟨yr, mo, day, days + 2, 0, 0, 0⟩
  else
    let (mo, day) := passcalMonthDay yr (days + 1)
    ⟨yr, mo, day, days + 1, hr, mn, sec⟩

def daytab : List (List ℤ) :=
  [[0, 31, 28, 31, 30, 31, 30, 31, 31, 30, 31, 30, 31],
   [0, 31, 29, 31, 30, 31, 30, 31, 31, 30, 31, 30, 31]]

/-- `get_julday`. -/
def getJulday (month day year : ℤ) : ℤ :=
  let row := daytab.getD (if passcalIsleap year then 1 else 0) []
  if month < 1 ∨ month > 12 then -1
  else if day < 1 ∨ day > row.getD month.toNat 0 then -1
  else day + ((List.range (month.toNat - 1)).map fun i => row.getD (i + 1) 0).sum

/-! ## Years and months as ranges of days -/

/-- The days from 1970 to the start of a year. -/
def yearStart (yr : ℤ) : ℤ :=
  if yr > 1970 then daysFrom 1970 (yr - 1970).toNat
  else if yr < 1970 then -daysFrom yr (1970 - yr).toNat else 0

/-- The days of a year before the month `i`, counted from zero. -/
def monthStart (yr : ℤ) (i : ℕ) : ℤ := ((List.range i).map (monthLength yr)).sum

theorem julian_eq (t : PTime) : julian t = monthStart t.yr (t.mo - 1) + t.day := rfl

theorem passcalDays_eq (t : PTime) (convertJul : Bool) :
    passcalDays t convertJul = yearStart t.yr + if convertJul then julian t - 1 else t.day - 1 :=
    rfl

theorem daysFrom_succ (yr : ℤ) (n : ℕ) :
    daysFrom yr (n + 1) = daysFrom yr n + daysInYear (yr + n) := by
  rw [daysFrom, List.range_succ, List.map_append, List.sum_append, daysInYear]
  simp only [List.map_cons, List.map_nil, List.sum_cons, List.sum_nil, add_zero, daysFrom]
  split_ifs <;> rfl

theorem daysFrom_succ' (yr : ℤ) (n : ℕ) :
    daysFrom yr (n + 1) = daysInYear yr + daysFrom (yr + 1) n := by
  induction n with
  | zero => rw [daysFrom_succ]; simp [daysFrom]
  | succ n ih =>
    rw [daysFrom_succ, ih, daysFrom_succ (yr + 1) n, add_assoc, Nat.cast_succ, add_assoc yr 1,
      add_comm (1 : ℤ)]

theorem yearStart_succ (yr : ℤ) : yearStart (yr + 1) = yearStart yr + daysInYear yr := by
  unfold yearStart
  rcases lt_trichotomy yr 1970 with hlt | rfl | hgt
  · rw [if_neg (by omega), if_neg (show ¬yr > 1970 by omega), if_pos hlt]
    obtain ⟨n, hn⟩ : ∃ n : ℕ, (1970 - yr).toNat = n + 1 := ⟨(1970 - yr).toNat - 1, by omega⟩
    rw [hn, daysFrom_succ']
    split_ifs with hnext
    · rw [show (1970 - (yr + 1)).toNat = n by omega]
      ring
    · rw [show n = 0 by omega]
      simp [daysFrom]
  · rfl
  · rw [if_pos (by omega), if_pos hgt]
    obtain ⟨n, hn⟩ : ∃ n : ℕ, (yr - 1970).toNat = n := ⟨_, rfl⟩
    rw [show (yr + 1 - 1970).toNat = n + 1 by omega, hn, daysFrom_succ,
      show 1970 + (n : ℤ) = yr by omega]

theorem consecutive_years : Consecutive yearStart daysInYear :=
  consecutive_int yearStart_succ fun yr => (daysInYear_pos yr).le

theorem monthLength_nonneg (yr : ℤ) (i : ℕ) : 0 ≤ monthLength yr i := by
  have hlen : ∀ d ∈ daysInMonth, 0 ≤ d := by decide
  unfold monthLength
  apply add_nonneg
  · rw [List.getD_eq_getElem?_getD]
    cases h : daysInMonth[i]? with
    | none => exact le_refl 0
    | some d => exact hlen d (List.mem_of_getElem? h)
  · split_ifs <;> norm_num

theorem monthStart_succ (yr : ℤ) (i : ℕ) :
    monthStart yr (i + 1) = monthStart yr i + monthLength yr i := by
  rw [monthStart, List.range_succ, List.map_append, List.sum_append]
  simp [monthStart]

theorem consecutive_months (yr : ℤ) : Consecutive (monthStart yr) (monthLength yr) :=
  consecutive_nat (monthStart_succ yr) (monthLength_nonneg yr)

theorem monthStart_twelve (yr : ℤ) : monthStart yr 12 = daysInYear yr := by
  unfold monthStart daysInYear monthLength
  cases passcalIsleap yr <;> decide

/-! ## The loops -/

theorem passcalMod_intCast (n : ℤ) (d : ℕ) : passcalMod n d = (n.tmod d : ℤ) := by
  rw [passcalMod, truncate_div, Int.tmod_def]
  push_cast
  ring

theorem splitEpoch_intCast (e : ℤ) : splitEpoch e = (e / 86400, ((e % 86400 : ℤ) : ℚ)) := by
  have hday : (86400 : ℚ) = ((86400 : ℕ) : ℚ) := by norm_num
  have hdiv := Int.mul_tdiv_add_tmod e (86400 : ℕ)
  have hbound := Int.tmod_lt_of_pos e (b := (86400 : ℕ)) (by norm_num)
  have hlow : -86400 < e.tmod (86400 : ℕ) := by
    have := Int.lt_tmod_of_pos e (b := (86400 : ℕ)) (by norm_num)
    simpa using this
  simp only [splitEpoch]
  rw [hday, truncate_div, passcalMod_intCast]
  by_cases hneg : e.tmod (86400 : ℕ) < 0
  · rw [if_pos (Int.cast_lt_zero.2 hneg)]
    push_cast at *
    refine Prod.ext ?_ ?_
    · show e.tdiv 86400 - 1 = e / 86400
      omega
    · show ((e.tmod 86400 : ℤ) : ℚ) + 86400 = ((e % 86400 : ℤ) : ℚ)
      rw [show e % 86400 = e.tmod 86400 + 86400 by omega]
      push_cast
      rfl
  · rw [if_neg (not_lt.2 (Int.cast_nonneg (not_lt.1 hneg)))]
    push_cast at *
    refine Prod.ext ?_ ?_
    · show e.tdiv 86400 = e / 86400
      omega
    · show ((e.tmod 86400 : ℤ) : ℚ) = ((e % 86400 : ℤ) : ℚ)
      rw [show e % 86400 = e.tmod 86400 by omega]

theorem splitDay_intCast {s : ℤ} (h : 0 ≤ s) :
    splitDay s = (s / 3600, s % 3600 / 60, ((s % 60 : ℤ) : ℚ)) := by
  have hhour : (3600 : ℚ) = ((3600 : ℕ) : ℚ) := by norm_num
  have hminute : (60 : ℚ) = ((60 : ℕ) : ℚ) := by norm_num
  have hrest : 0 ≤ s % 3600 := Int.emod_nonneg _ (by norm_num)
  have hsec : |s % 60| < 2 ^ 24 := by
    rw [abs_lt]
    omega
  simp only [splitDay]
  rw [hhour, hminute, truncate_div, passcalMod_intCast, truncate_div, passcalMod_intCast,
    Int.tdiv_eq_ediv_of_nonneg h, Int.tmod_eq_emod_of_nonneg h]
  push_cast
  rw [Int.tdiv_eq_ediv_of_nonneg hrest, Int.tmod_eq_emod_of_nonneg hrest,
    Int.emod_emod_of_dvd s (by norm_num : (60 : ℤ) ∣ 3600),
    roundTo_intCast hsec]

theorem yearsAfter_spec (yr : ℤ) {days : ℤ} (h : 0 ≤ days) :
    (0 ≤ (yearsAfter yr days).2 ∧ (yearsAfter yr days).2 < daysInYear (yearsAfter yr days).1) ∧
      yearStart (yearsAfter yr days).1 + (yearsAfter yr days).2 = yearStart yr + days := by
  induction yr, days using yearsAfter.induct with
  | case1 yr days hlt =>
    rw [yearsAfter, if_pos hlt]
    exact ⟨⟨h, hlt⟩, rfl⟩
  | case2 yr days hge ih =>
    rw [yearsAfter, if_neg hge]
    obtain ⟨hrange, hsum⟩ := ih (by omega)
    refine ⟨hrange, ?_⟩
    rw [hsum, yearStart_succ]
    ring

theorem yearsBefore_spec (yr : ℤ) {days : ℤ} (h : days < 0) :
    (0 ≤ (yearsBefore yr days).2 ∧ (yearsBefore yr days).2 < daysInYear (yearsBefore yr days).1) ∧
      yearStart (yearsBefore yr days).1 + (yearsBefore yr days).2 = yearStart (yr + 1) + days := by
  induction yr, days using yearsBefore.induct with
  | case1 yr days hge =>
    rw [yearsBefore, if_pos hge]
    refine ⟨⟨hge, by show days + daysInYear yr < daysInYear yr; omega⟩, ?_⟩
    rw [yearStart_succ]
    ring
  | case2 yr days hlt ih =>
    rw [yearsBefore, if_neg hlt]
    obtain ⟨hrange, hsum⟩ := ih (by omega)
    refine ⟨hrange, ?_⟩
    rw [hsum, sub_add_cancel, yearStart_succ]
    ring

theorem monthLoop_spec {yr : ℤ} {i n : ℕ} {day : ℤ} (hpos : 0 < day)
    (hle : monthStart yr i + day ≤ monthStart yr (i + n)) :
    (monthLoop yr i day n).1 < i + n ∧
      (0 < (monthLoop yr i day n).2 ∧
        (monthLoop yr i day n).2 ≤ monthLength yr (monthLoop yr i day n).1) ∧
      monthStart yr (monthLoop yr i day n).1 + (monthLoop yr i day n).2 =
        monthStart yr i + day := by
  induction n generalizing i day with
  | zero =>
    rw [Nat.add_zero] at hle
    omega
  | succ n ih =>
    unfold monthLoop
    split_ifs with hday
    · exact ⟨by show i < i + (n + 1); omega, ⟨hpos, hday⟩, rfl⟩
    · have hstep := monthStart_succ yr i
      have hpos' : 0 < day - monthLength yr i := by omega
      have hle' : monthStart yr (i + 1) + (day - monthLength yr i) ≤ monthStart yr (i + 1 + n) := by
        rw [show i + 1 + n = i + (n + 1) by omega]
        omega
      obtain ⟨hlt, hrange, hsum⟩ := ih hpos' hle'
      exact ⟨by omega, hrange, by omega⟩


/-! ## Valid dates -/

/-- A date of the calendar with its time in whole seconds. -/
structure Date where
  yr : ℤ
  mo : ℕ
  day : ℤ
  hr : ℕ
  mn : ℕ
  sec : ℕ
  mo_range : 1 ≤ mo ∧ mo ≤ 12
  day_range : 1 ≤ day ∧ day ≤ monthLength yr (mo - 1)
  hr_lt : hr < 24
  mn_lt : mn < 60
  sec_lt : sec < 60

namespace Date

variable (d : Date)

/-- The day of the year. -/
def jday : ℤ := monthStart d.yr (d.mo - 1) + d.day

/-- The date as a time, with its month and day. -/
def time : PTime where
  yr := d.yr
  mo := d.mo
  day := d.day
  hr := d.hr
  mn := d.mn
  sec := d.sec
  mo_le := d.mo_range.2
  sec_nonneg := Nat.cast_nonneg _

/-- The date as a time, with the day of the year. -/
def timeOfYear : PTime := { d.time with mo := 0, day := d.jday, mo_le := PTime.noMonth_le }

/-- The date with all fields that `passcal_etoh` fills. -/
def filled : EtohTime := ⟨d.yr, d.mo, d.day, d.jday, d.hr, d.mn, d.sec⟩

/-- The fields in the order in which dates are compared. -/
def key : ℤ ×ₗ ℕ ×ₗ ℤ ×ₗ ℕ ×ₗ ℕ ×ₗ ℕ :=
  toLex (d.yr, toLex (d.mo, toLex (d.day, toLex (d.hr, toLex (d.mn, d.sec)))))

def first : Date where
  yr := 1901
  mo := 12
  day := 14
  hr := 0
  mn := 0
  sec := 0
  mo_range := by decide
  day_range := by decide
  hr_lt := by decide
  mn_lt := by decide
  sec_lt := by decide

def last : Date where
  yr := 2038
  mo := 1
  day := 19
  hr := 3
  mn := 14
  sec := 7
  mo_range := by decide
  day_range := by decide
  hr_lt := by decide
  mn_lt := by decide
  sec_lt := by decide

/-- From the first whole day whose seconds fit an `int` to the last second that does. -/
def InRange : Prop := first.key ≤ d.key ∧ d.key ≤ last.key

/-- The seconds since 1970. -/
def epoch : ℤ := (yearStart d.yr + d.jday - 1) * 86400 + d.hr * 3600 + d.mn * 60 + d.sec

/-- The month's place in the year. -/
theorem jday_range : 0 < d.jday ∧ d.jday ≤ daysInYear d.yr := by
  have hstart : 0 ≤ monthStart d.yr (d.mo - 1) := by
    apply List.sum_nonneg
    intro n hn
    obtain ⟨i, -, rfl⟩ := List.mem_map.1 hn
    exact monthLength_nonneg _ _
  have hday := d.day_range
  have hmo := d.mo_range
  have hend : monthStart d.yr (d.mo - 1) + monthLength d.yr (d.mo - 1) ≤ daysInYear d.yr := by
    rw [← monthStart_twelve]
    apply consecutive_months
    omega
  unfold jday
  omega

theorem epoch_lt_of_key_lt {d e : Date} (h : d.key < e.key) : d.epoch < e.epoch := by
  have hd := d.jday_range
  have he := e.jday_range
  have hday := d.day_range
  have hday' := e.day_range
  have hmo := d.mo_range
  have hmo' := e.mo_range
  have hhr := d.hr_lt
  have hmn := d.mn_lt
  have hsec := d.sec_lt
  simp only [key, Prod.Lex.toLex_lt_toLex] at h
  unfold epoch
  rcases h with hyr | ⟨hyr, h⟩
  · have := consecutive_years hyr
    omega
  rw [hyr]
  rcases h with hmo | ⟨hmo, h⟩
  · have hmonth := consecutive_months d.yr (show d.mo - 1 < e.mo - 1 by omega)
    have hstart : monthStart e.yr (e.mo - 1) = monthStart d.yr (e.mo - 1) := by rw [hyr]
    unfold jday at *
    omega
  · unfold jday
    rw [hyr, hmo]
    omega

theorem key_injective : Function.Injective key := by
  intro d e h
  obtain ⟨yr, mo, day, hr, mn, sec⟩ := d
  obtain ⟨yr', mo', day', hr', mn', sec'⟩ := e
  simp only [key, EmbeddingLike.apply_eq_iff_eq, Prod.mk.injEq] at h
  obtain ⟨rfl, rfl, rfl, rfl, rfl, rfl⟩ := h
  rfl

theorem epoch_le_of_key_le {d e : Date} (h : d.key ≤ e.key) : d.epoch ≤ e.epoch := by
  rcases h.lt_or_eq with hlt | heq
  · exact (epoch_lt_of_key_lt hlt).le
  · rw [key_injective heq]

/-- Dates are told apart by their epochs. -/
theorem epoch_injective : Function.Injective epoch := by
  intro d e h
  rcases lt_trichotomy d.key e.key with hlt | heq | hgt
  · exact absurd h (epoch_lt_of_key_lt hlt).ne
  · exact key_injective heq
  · exact absurd h (epoch_lt_of_key_lt hgt).ne'

/-- The epochs of the range. -/
theorem inRange_iff : d.InRange ↔ -2147472000 ≤ d.epoch ∧ d.epoch ≤ 2 ^ 31 - 1 := by
  have hfirst : first.epoch = -2147472000 := by decide +kernel
  have hlast : last.epoch = 2 ^ 31 - 1 := by decide +kernel
  rw [← hfirst, ← hlast]
  refine and_congr ⟨epoch_le_of_key_le, fun h => ?_⟩ ⟨epoch_le_of_key_le, fun h => ?_⟩
  · exact not_lt.1 fun hlt => (epoch_lt_of_key_lt hlt).not_ge h
  · exact not_lt.1 fun hlt => (epoch_lt_of_key_lt hlt).not_ge h

end Date

/-! ## The conversions on valid dates -/

/-- The year of a day and its day in that year. -/
theorem exists_year (days : ℤ) : ∃ yr left,
    (if days ≥ 0 then yearsAfter 1970 days else yearsBefore 1969 days) = (yr, left) ∧
      (0 ≤ left ∧ left < daysInYear yr) ∧ yearStart yr + left = days := by
  have hzero : yearStart 1970 = 0 := rfl
  by_cases hneg : days ≥ 0
  · have hspec := yearsAfter_spec 1970 hneg
    rw [hzero, zero_add] at hspec
    rw [if_pos hneg]
    exact ⟨_, _, rfl, hspec⟩
  · have hspec := yearsBefore_spec 1969 (not_le.1 hneg)
    rw [show (1969 : ℤ) + 1 = 1970 from rfl, hzero, zero_add] at hspec
    rw [if_neg hneg]
    exact ⟨_, _, rfl, hspec⟩

/-- The month of a day of the year. -/
theorem exists_month {yr left : ℤ} (h : 0 ≤ left ∧ left < daysInYear yr) :
    ∃ mo day, passcalMonthDay yr (left + 1) = (mo + 1, day) ∧ mo < 12 ∧
      (1 ≤ day ∧ day ≤ monthLength yr mo) ∧ monthStart yr mo + day = left + 1 := by
  have hzero : monthStart yr 0 = 0 := rfl
  have hle : monthStart yr 0 + (left + 1) ≤ monthStart yr (0 + 12) := by
    rw [hzero, zero_add, monthStart_twelve]
    omega
  obtain ⟨hmo, hday, hsum⟩ := monthLoop_spec (by omega) hle
  rw [hzero, zero_add] at hsum
  exact ⟨(monthLoop yr 0 (left + 1) 12).1, (monthLoop yr 0 (left + 1) 12).2, rfl, by omega, hday,
    hsum⟩

/-- The date of an epoch. -/
theorem exists_date (e : ℤ) : ∃ d : Date, passcalEtoh e = d.filled ∧ d.epoch = e := by
  have hrest : 0 ≤ e % 86400 := Int.emod_nonneg _ (by norm_num)
  have hrest' : e % 86400 < 86400 := Int.emod_lt_of_pos _ (by norm_num)
  obtain ⟨yr, left, hyear, hleft, hsum⟩ := exists_year (e / 86400)
  obtain ⟨mo, day, hmonth, hmo, hday, hjday⟩ := exists_month hleft
  refine ⟨{
    yr := yr
    mo := mo + 1
    day := day
    hr := (e % 86400 / 3600).toNat
    mn := (e % 86400 % 3600 / 60).toNat
    sec := (e % 86400 % 60).toNat
    mo_range := by omega
    day_range := hday
    hr_lt := by omega
    mn_lt := by omega
    sec_lt := by omega }, ?_, ?_⟩
  · have hsec : ¬(e % 86400 / 3600 = 23 ∧ e % 86400 % 3600 / 60 = 59 ∧
        ((e % 86400 % 60 : ℤ) : ℚ) = 60) := by
      rintro ⟨-, -, h⟩
      have : e % 86400 % 60 = 60 := by exact_mod_cast h
      omega
    have hhr : ((e % 86400 / 3600).toNat : ℤ) = e % 86400 / 3600 := by omega
    have hmn : ((e % 86400 % 3600 / 60).toNat : ℤ) = e % 86400 % 3600 / 60 := by omega
    have hse : ((e % 86400 % 60).toNat : ℤ) = e % 86400 % 60 := by omega
    have hseq : (((e % 86400 % 60).toNat : ℕ) : ℚ) = ((e % 86400 % 60 : ℤ) : ℚ) := by
      rw [← hse, Int.cast_natCast, Int.toNat_natCast]
    simp only [passcalEtoh, splitEpoch_intCast, splitDay_intCast hrest, hyear, hmonth, if_neg hsec,
      Date.filled, Date.jday, Nat.add_sub_cancel, hjday, hhr, hmn, hseq]
  · simp only [Date.epoch, Date.jday, Nat.add_sub_cancel, hjday]
    omega

theorem passcalDays_time (d : Date) :
    passcalDays d.time true = yearStart d.yr + d.jday - 1 ∧
      passcalDays d.timeOfYear false = yearStart d.yr + d.jday - 1 := by
  constructor
  · rw [passcalDays_eq, if_pos rfl, julian_eq, ← add_sub_assoc]
    rfl
  · rw [passcalDays_eq, if_neg Bool.false_ne_true, ← add_sub_assoc]
    rfl

theorem passcalHtoe_of_days {t : PTime} {convertJul : Bool} {d : Date}
    (hdays : passcalDays t convertJul = yearStart d.yr + d.jday - 1)
    (htime : t.hr = d.hr ∧ t.mn = d.mn ∧ t.sec = d.sec) (hlow : -2147472000 ≤ d.epoch)
    (hhigh : d.epoch ≤ 2 ^ 31 - 1) : passcalHtoe t convertJul = some d.epoch := by
  have hhr := d.hr_lt
  have hmn := d.mn_lt
  have hsec := d.sec_lt
  have hepoch : d.epoch =
      (yearStart d.yr + d.jday - 1) * 86400 + (d.hr * 3600 + d.mn * 60 + d.sec) := by
    unfold Date.epoch
    ring
  have hday : toInt (((yearStart d.yr + d.jday - 1 : ℤ) : ℚ) * 86400) =
      some ((yearStart d.yr + d.jday - 1) * 86400) := by
    have hcast : ((yearStart d.yr + d.jday - 1 : ℤ) : ℚ) * 86400 =
        (((yearStart d.yr + d.jday - 1) * 86400 : ℤ) : ℚ) := by
      push_cast
      rfl
    rw [hcast, toInt_eq_some, truncate_intCast]
    exact ⟨rfl, by omega, by omega⟩
  have hsecs : toInt ((d.hr : ℚ) * 3600 + d.mn * 60 + d.sec) =
      some ((d.hr : ℤ) * 3600 + d.mn * 60 + d.sec) := by
    have hcast : (d.hr : ℚ) * 3600 + d.mn * 60 + d.sec =
        (((d.hr : ℤ) * 3600 + d.mn * 60 + d.sec : ℤ) : ℚ) := by
      push_cast
      rfl
    rw [hcast, toInt_eq_some, truncate_intCast]
    exact ⟨rfl, by omega, by omega⟩
  rw [passcalHtoe, hdays, hday, Option.bind_some, htime.1, htime.2.1, htime.2.2, hsecs,
    Option.bind_some, signed_eq_some, hepoch]
  exact ⟨rfl, by omega, by omega⟩

theorem getJulday_eq (d : Date) : getJulday d.mo d.day d.yr = d.jday := by
  have hmo := d.mo_range
  have hday := d.day_range
  have htable : ∀ leap : Bool, ∀ i < 12,
      (daytab.getD (if leap then 1 else 0) []).getD (i + 1) 0 =
        daysInMonth.getD i 0 + if i = 1 ∧ leap then 1 else 0 := by decide
  have hrow : ∀ i < 12, (daytab.getD (if passcalIsleap d.yr then 1 else 0) []).getD (i + 1) 0 =
      monthLength d.yr i := htable (passcalIsleap d.yr)
  obtain ⟨mo, hmo'⟩ : ∃ mo, d.mo = mo + 1 := ⟨d.mo - 1, by omega⟩
  have hlt : mo < 12 := by omega
  unfold getJulday Date.jday monthStart
  rw [hmo', Nat.add_sub_cancel] at hday ⊢
  simp only [Int.toNat_natCast, hrow mo hlt, Nat.add_sub_cancel]
  rw [if_neg (by omega), if_neg (by omega), add_comm]
  congr 2
  apply List.map_congr_left
  intro i hi
  exact hrow i (by have := List.mem_range.1 hi; omega)

/-! ## Both directions -/

/-- What the conversions do with the whole seconds that fit an `int`. -/
structure CalendarInverse : Prop where
  /-- An epoch becomes a valid date, which gives it back in both ways. -/
  ofEpoch : ∀ e : ℤ, -2147472000 ≤ e → e ≤ 2 ^ 31 - 1 → ∃ d : Date, passcalEtoh e = d.filled ∧
    (1 ≤ d.jday ∧ d.jday ≤ daysInYear d.yr) ∧ getJulday d.mo d.day d.yr = d.jday ∧
    passcalHtoe d.time true = some e ∧ passcalHtoe d.timeOfYear false = some e
  /-- A valid date becomes an epoch that gives it back. -/
  ofDate : ∀ d : Date, d.InRange → ∃ e : ℤ, passcalHtoe d.time true = some e ∧
    passcalEtoh e = d.filled
  mono : ∀ d d' : Date, d.InRange → d'.InRange → d.key < d'.key →
    ∀ e e', passcalHtoe d.time true = some e → passcalHtoe d'.time true = some e' → e < e'

theorem passcalHtoe_date {d : Date} (h : d.InRange) :
    passcalHtoe d.time true = some d.epoch ∧ passcalHtoe d.timeOfYear false = some d.epoch := by
  obtain ⟨hlow, hhigh⟩ := d.inRange_iff.1 h
  obtain ⟨hmonth, hyear⟩ := passcalDays_time d
  exact ⟨passcalHtoe_of_days hmonth ⟨rfl, rfl, rfl⟩ hlow hhigh,
    passcalHtoe_of_days hyear ⟨rfl, rfl, rfl⟩ hlow hhigh⟩

theorem passcal_calendar : CalendarInverse := by
  refine ⟨fun e hlow hhigh => ?_, fun d hd => ?_, fun d d' hd hd' hlt e e' he he' => ?_⟩
  · obtain ⟨d, hfilled, rfl⟩ := exists_date e
    have hd := d.inRange_iff.2 ⟨hlow, hhigh⟩
    exact ⟨d, hfilled, d.jday_range, getJulday_eq d, passcalHtoe_date hd⟩
  · refine ⟨d.epoch, (passcalHtoe_date hd).1, ?_⟩
    obtain ⟨d', hfilled, heq⟩ := exists_date d.epoch
    rw [hfilled, Date.epoch_injective heq]
  · rw [(passcalHtoe_date hd).1] at he
    rw [(passcalHtoe_date hd').1] at he'
    rw [← Option.some.inj he, ← Option.some.inj he']
    exact Date.epoch_lt_of_key_lt hlt

end PQL
