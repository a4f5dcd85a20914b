import PQL.Time.Calendar

/-!
# Record times

A miniSEED record gives its start as a `BTime`, a date with tenths of milliseconds, and libmseed
counts in microseconds since 1970.  `ms_btime2hptime` adds the date up with a closed formula for the
leap days and `ms_hptime2btime` counts off years and months, from 1970 up or from 1969 down.  They
are inverse to each other down to the tenths of milliseconds (`hptime_btime`), in every year that a
`BTime` can hold.
-/

namespace PQL

namespace Libmseed

def HPTMODULUS : ℤ := 1000000

@[ext] structure BTime where
  year : BitVec 16
  day : BitVec 16
  hour : BitVec 8
  min : BitVec 8
  sec : BitVec 8
  unused : BitVec 8
  fract : BitVec 16
deriving DecidableEq

/-! ## To microseconds -/

/-- The days since 1970. -/
def btimeDays (btime : BTime) : ℤ :=
  let shortyear : ℤ := btime.year.toNat - 1900
  let a4 := (shortyear >>> (2 : ℕ)) + 475 - if shortyear % 4 = 0 then 1 else 0
  let a100 := a4.tdiv 25 - if a4.tmod 25 < 0 then 1 else 0
  let a400 := a100 >>> (2 : ℕ)
  let interveningLeapDays := (a4 - 492) - (a100 - 19) + (a400 - 4)
  365 * (shortyear - 70) + interveningLeapDays + (btime.day.toNat - 1)

def msBtime2hptime (btime : BTime) : ℤ :=
  (60 * (60 * (24 * btimeDays btime + btime.hour.toNat) + btime.min.toNat) + btime.sec.toNat) *
    HPTMODULUS + btime.fract.toNat * (HPTMODULUS / 10000)

/-! ## From microseconds -/

/-- `struct tm`. -/
structure Tm where
  year : ℤ
  mon : ℕ
  mday : ℤ
  yday : ℤ
  hour : ℤ
  min : ℤ
  sec : ℤ
  wday : ℤ

def tmDays : List (List ℤ) :=
  [[31, 28, 31, 30, 31, 30, 31, 31, 30, 31, 30, 31],
   [31, 29, 31, 30, 31, 30, 31, 31, 30, 31, 30, 31],
   [0, 31, 59, 90, 120, 151, 181, 212, 243, 273, 304, 334, 365],
   [0, 31, 60, 91, 121, 152, 182, 213, 244, 274, 305, 335, 366]]

/-- `TM_LEAP_CHECK`. -/
def tmLeapCheck (n : ℤ) : Bool :=
  (n + 1900).tmod 400 = 0 ∨ ((n + 1900).tmod 4 = 0 ∧ (n + 1900).tmod 100 ≠ 0)

/-- `leap`, as an index. -/
def tmLeap (n : ℤ) : ℕ := if tmLeapCheck n then 1 else 0

/-- `tm_days[row][column]`. -/
def tmDay (row column : ℕ) : ℤ := (tmDays.getD row []).getD column 0

/-- `TM_WRAP`. -/
def tmWrap (a b m : ℤ) : ℤ × ℤ := if a < 0 then (a + m, b - 1) else (a, b)

theorem tmDay_pos (n : ℤ) : 0 < tmDay (tmLeap n + 2) 12 := by
  unfold tmLeap
  split_ifs <;> decide

/-- The loop over the years from 1970 on. -/
def tmYearsUp (year m : ℤ) : ℤ × ℤ :=
  if m ≥ tmDay (tmLeap year + 2) 12 then tmYearsUp (year + 1) (m - tmDay (tmLeap year + 2) 12)
  else (year, m)
termination_by m.toNat
decreasing_by
  have := tmDay_pos year
  omega

/-- The loop over the years before 1970. -/
def tmYearsDown (year m : ℤ) : ℤ × ℤ :=
  if m < -tmDay (tmLeap year + 2) 12 then tmYearsDown (year - 1) (m + tmDay (tmLeap year + 2) 12)
  else (year, m)
termination_by (-m).toNat
decreasing_by
  have := tmDay_pos year
  omega

/-- The loop over the `n` months from `mon` on. -/
def tmMonthsUp (leap : ℕ) : ℕ → ℕ → ℤ → ℕ × ℤ
  | 0, mon, m => (mon, m)
  | n + 1, mon, m =>
    if m ≥ tmDay leap mon then tmMonthsUp leap n (mon + 1) (m - tmDay leap mon) else (mon, m)

/-- The loop over the months from December down. -/
def tmMonthsDown (leap : ℕ) : ℕ → ℤ → ℕ × ℤ
  | 0, m => (0, m)
  | mon + 1, m =>
    if m < -tmDay leap (mon + 1) then tmMonthsDown leap mon (m + tmDay leap (mon + 1))
    else (mon + 1, m)

/-- The year, the month and the day in it. -/
def tmDate (m : ℤ) : ℤ × ℕ × ℤ :=
  if m ≥ 0 then
    let years := tmYearsUp 70 m
    let months := tmMonthsUp (tmLeap years.1) 12 0 years.2
    (years.1, months.1, months.2)
  else
    let years := tmYearsDown 69 m
    let months := tmMonthsDown (tmLeap years.1) 11 years.2
    (years.1, months.1, months.2 + tmDay (tmLeap years.1) months.1)

def msGmtimeR (tv : ℤ) : Tm :=
  let sec := tmWrap (tv.tmod 60) ((tv.tdiv 60).tmod 60) 60
  let min := tmWrap sec.2 (((tv.tdiv 60).tdiv 60).tmod 24) 60
  let hour := tmWrap min.2 (((tv.tdiv 60).tdiv 60).tdiv 24) 24
  let tday := hour.2
  let wday := (tday + 4).tmod 7
  let date := tmDate tday
  { year := date.1
    mon := date.2.1
    mday := date.2.2 + 1
    yday := tmDay (tmLeap date.1 + 2) date.2.1 + date.2.2
    hour := hour.1
    min := min.1
    sec := sec.1
    wday := if wday < 0 then wday + 7 else wday }

/-- The whole seconds and the tenths of milliseconds. -/
def hptimeSplit (hptime : ℤ) : ℤ × ℤ :=
  let isec := hptime.tdiv HPTMODULUS
  let ifract := hptime - isec * HPTMODULUS
  let bfract := ifract.tdiv (HPTMODULUS / 10000)
  if hptime < 0 ∧ ifract ≠ 0 then
    let bfract := if ifract - bfract * (HPTMODULUS / 10000) ≠ 0 then bfract - 1 else bfract
    (isec - 1, 10000 - -bfract)
  else (isec, bfract)

def msHptime2btime (hptime : ℤ) : BTime :=
  let split := hptimeSplit hptime
  let tms := msGmtimeR split.1
  { year := BitVec.ofInt 16 (tms.year + 1900)
    day := BitVec.ofInt 16 (tms.yday + 1)
    hour := BitVec.ofInt 8 tms.hour
    min := BitVec.ofInt 8 tms.min
    sec := BitVec.ofInt 8 tms.sec
    unused := 0
    fract := BitVec.ofInt 16 split.2 }

/-! ## The two calendars -/

theorem passcalIsleap_iff (yr : ℤ) :
    passcalIsleap yr = true ↔ yr % 4 = 0 ∧ (yr % 100 ≠ 0 ∨ yr % 400 = 0) := by
  unfold passcalIsleap
  exact decide_eq_true_iff

/-- The leap days before a year, in the Gregorian calendar. -/
theorem yearStart_eq (yr : ℤ) :
    yearStart yr = 365 * (yr - 1970) + (yr - 1) / 4 - (yr - 1) / 100 + (yr - 1) / 400 - 477 := by
  have hstep : ∀ y : ℤ, daysInYear y =
      365 + (y / 4 - (y - 1) / 4) - (y / 100 - (y - 1) / 100) + (y / 400 - (y - 1) / 400) := by
    intro y
    have hleap := passcalIsleap_iff y
    unfold daysInYear
    split_ifs with h
    · have := hleap.1 h
      omega
    · have := mt hleap.2 h
      omega
  induction yr using Int.inductionOn' (b := 1970) with
  | zero => rfl
  | succ y hy ih =>
    rw [yearStart_succ, ih, hstep]
    omega
  | pred y hy ih =>
    have hsucc := yearStart_succ (y - 1)
    rw [sub_add_cancel, ih, hstep] at hsucc
    omega

theorem btimeDays_eq (btime : BTime) :
    btimeDays btime = yearStart btime.year.toNat + btime.day.toNat - 1 := by
  rw [yearStart_eq]
  unfold btimeDays
  simp only [Int.shiftRight_eq_div_pow]
  have hdiv : ∀ a : ℤ, a.tdiv 25 - (if a.tmod 25 < 0 then 1 else 0) = a / 25 := by
    intro a
    have hsum := Int.mul_tdiv_add_tmod a 25
    have hlt := Int.tmod_lt_of_pos a (show (0 : ℤ) < 25 by norm_num)
    have hgt := Int.lt_tmod_of_pos a (show (0 : ℤ) < 25 by norm_num)
    split_ifs <;> omega
  rw [hdiv]
  norm_num
  split_ifs <;> omega

theorem tmLeapCheck_eq (n : ℤ) : tmLeapCheck n = passcalIsleap (n + 1900) := by
  have hzero : ∀ a b : ℤ, a.tmod b = 0 ↔ a % b = 0 := fun a b =>
    ⟨fun h => Int.emod_eq_zero_of_dvd (Int.dvd_of_tmod_eq_zero h),
      fun h => Int.tmod_eq_zero_of_dvd (Int.dvd_of_emod_eq_zero h)⟩
  rw [Bool.eq_iff_iff, passcalIsleap_iff, tmLeapCheck, decide_eq_true_iff]
  simp only [hzero, ne_eq]
  omega

/-- The tables hold the lengths of the months and of the years, and where the months start. -/
theorem tmDay_eq (n : ℤ) :
    (∀ i < 12, tmDay (tmLeap n) i = monthLength (n + 1900) i) ∧
      (∀ i ≤ 12, tmDay (tmLeap n + 2) i = monthStart (n + 1900) i) := by
  unfold tmLeap monthStart monthLength
  rw [tmLeapCheck_eq]
  cases passcalIsleap (n + 1900) <;> decide

theorem tmDay_twelve (n : ℤ) : tmDay (tmLeap n + 2) 12 = daysInYear (n + 1900) := by
  rw [(tmDay_eq n).2 12 le_rfl, monthStart_twelve]

theorem tmYearsUp_spec (year : ℤ) {m : ℤ} (h : 0 ≤ m) :
    (0 ≤ (tmYearsUp year m).2 ∧
        (tmYearsUp year m).2 < daysInYear ((tmYearsUp year m).1 + 1900)) ∧
      yearStart ((tmYearsUp year m).1 + 1900) + (tmYearsUp year m).2 =
        yearStart (year + 1900) + m := by
  induction year, m using tmYearsUp.induct with
  | case1 year m hge ih =>
    rw [tmYearsUp, if_pos hge]
    obtain ⟨hrange, hsum⟩ := ih (by omega)
    refine ⟨hrange, ?_⟩
    rw [hsum, add_right_comm, yearStart_succ, tmDay_twelve]
    ring
  | case2 year m hlt =>
    rw [tmYearsUp, if_neg hlt]
    rw [tmDay_twelve] at hlt
    exact ⟨⟨h, not_le.1 hlt⟩, rfl⟩

theorem tmYearsDown_spec (year : ℤ) {m : ℤ} (h : m < 0) :
    (-daysInYear ((tmYearsDown year m).1 + 1900) ≤ (tmYearsDown year m).2 ∧
        (tmYearsDown year m).2 < 0) ∧
      yearStart ((tmYearsDown year m).1 + 1900 + 1) + (tmYearsDown year m).2 =
        yearStart (year + 1900 + 1) + m := by
  induction year, m using tmYearsDown.induct with
  | case1 year m hlt ih =>
    rw [tmYearsDown, if_pos hlt]
    obtain ⟨hrange, hsum⟩ := ih (by omega)
    refine ⟨hrange, ?_⟩
    rw [hsum, yearStart_succ (year + 1900), tmDay_twelve,
      show year - 1 + 1900 + 1 = year + 1900 by ring]
    ring
  | case2 year m hge =>
    rw [tmYearsDown, if_neg hge]
    rw [tmDay_twelve] at hge
    exact ⟨⟨not_lt.1 hge, h⟩, rfl⟩

theorem tmMonthsUp_spec (year : ℤ) {n mon : ℕ} {m : ℤ} (hn : mon + n ≤ 12) (h : 0 ≤ m)
    (hlt : monthStart (year + 1900) mon + m < monthStart (year + 1900) (mon + n)) :
    (tmMonthsUp (tmLeap year) n mon m).1 < mon + n ∧
      (0 ≤ (tmMonthsUp (tmLeap year) n mon m).2 ∧ (tmMonthsUp (tmLeap year) n mon m).2 <
        monthLength (year + 1900) (tmMonthsUp (tmLeap year) n mon m).1) ∧
      monthStart (year + 1900) (tmMonthsUp (tmLeap year) n mon m).1 +
          (tmMonthsUp (tmLeap year) n mon m).2 = monthStart (year + 1900) mon + m := by
  induction n generalizing mon m with
  | zero =>
    rw [Nat.add_zero] at hlt
    omega
  | succ n ih =>
    have hday := (tmDay_eq year).1 mon (by omega)
    rw [tmMonthsUp, hday]
    split_ifs with hge
    · have hstep := monthStart_succ (year + 1900) mon
      have hlt' : monthStart (year + 1900) (mon + 1) + (m - monthLength (year + 1900) mon) <
          monthStart (year + 1900) (mon + 1 + n) := by
        rw [show mon + 1 + n = mon + (n + 1) by omega]
        omega
      obtain ⟨hmon, hrange, hsum⟩ := ih (by omega) (by omega) hlt'
      exact ⟨by omega, hrange, by omega⟩
    · exact ⟨by show mon < mon + (n + 1); omega, ⟨h, not_le.1 hge⟩, rfl⟩

theorem tmMonthsDown_spec (year : ℤ) {mon : ℕ} {m : ℤ} (hmon : mon < 12) (h : m < 0)
    (hle : -monthStart (year + 1900) (mon + 1) ≤ m) :
    (tmMonthsDown (tmLeap year) mon m).1 < 12 ∧
      (-monthLength (year + 1900) (tmMonthsDown (tmLeap year) mon m).1 ≤
        (tmMonthsDown (tmLeap year) mon m).2 ∧ (tmMonthsDown (tmLeap year) mon m).2 < 0) ∧
      monthStart (year + 1900) ((tmMonthsDown (tmLeap year) mon m).1 + 1) +
          (tmMonthsDown (tmLeap year) mon m).2 = monthStart (year + 1900) (mon + 1) + m := by
  induction mon generalizing m with
  | zero =>
    have hstep := monthStart_succ (year + 1900) 0
    have hzero : monthStart (year + 1900) 0 = 0 := rfl
    rw [tmMonthsDown]
    refine ⟨hmon, ⟨?_, h⟩, rfl⟩
    dsimp only
    omega
  | succ mon ih =>
    have hday := (tmDay_eq year).1 (mon + 1) hmon
    have hstep := monthStart_succ (year + 1900) (mon + 1)
    rw [tmMonthsDown, hday]
    split_ifs with hlt
    · obtain ⟨hmon', hrange, hsum⟩ := ih (m := m + monthLength (year + 1900) (mon + 1))
        (by omega) (by omega) (by omega)
      exact ⟨hmon', hrange, by omega⟩
    · exact ⟨hmon, ⟨not_lt.1 hlt, h⟩, rfl⟩

/-- The year and the month of a day, and the day in the month. -/
theorem tmDate_spec (m : ℤ) :
    (tmDate m).2.1 < 12 ∧ (0 ≤ (tmDate m).2.2 ∧
        (tmDate m).2.2 < monthLength ((tmDate m).1 + 1900) (tmDate m).2.1) ∧
      yearStart ((tmDate m).1 + 1900) + monthStart ((tmDate m).1 + 1900) (tmDate m).2.1 +
        (tmDate m).2.2 = m := by
  unfold tmDate
  split_ifs with hm <;> dsimp only
  · obtain ⟨⟨hlow, hhigh⟩, hsum⟩ := tmYearsUp_spec 70 hm
    set years := tmYearsUp 70 m
    have hzero : monthStart (years.1 + 1900) 0 = 0 := rfl
    have htwelve := monthStart_twelve (years.1 + 1900)
    obtain ⟨hmon, hrange, hmonth⟩ := @tmMonthsUp_spec years.1 12 0 _ le_rfl hlow (by
      rw [hzero, Nat.zero_add, htwelve, zero_add]
      exact hhigh)
    have hstart : yearStart (70 + 1900) = 0 := rfl
    exact ⟨by omega, hrange, by omega⟩
  · obtain ⟨⟨hlow, hhigh⟩, hsum⟩ := tmYearsDown_spec 69 (not_le.1 hm)
    set years := tmYearsDown 69 m
    have htwelve : monthStart (years.1 + 1900) (11 + 1) = daysInYear (years.1 + 1900) :=
      monthStart_twelve (years.1 + 1900)
    obtain ⟨hmon, ⟨hmonlow, hmonhigh⟩, hmonth⟩ := @tmMonthsDown_spec years.1 11 _ (by decide)
      hhigh (by omega)
    set months := tmMonthsDown (tmLeap years.1) 11 years.2
    have hday := (tmDay_eq years.1).1 months.1 hmon
    have hstep := monthStart_succ (years.1 + 1900) months.1
    have hyear := yearStart_succ (years.1 + 1900)
    have hstart : yearStart (69 + 1900 + 1) = 0 := rfl
    exact ⟨hmon, ⟨by omega, by omega⟩, by omega⟩

/-! ## The time of day -/

theorem tdiv_tmod_of_nonneg {a b : ℤ} (h : 0 ≤ a) : a.tdiv b = a / b ∧ a.tmod b = a % b :=
  ⟨Int.tdiv_eq_ediv_of_nonneg h, Int.tmod_eq_emod_of_nonneg h⟩

theorem tdiv_tmod_neg {a b : ℤ} (h : 0 ≤ a) :
    (-a).tdiv b = -(a / b) ∧ (-a).tmod b = -(a % b) := by
  rw [Int.neg_tdiv, Int.neg_tmod, Int.tdiv_eq_ediv_of_nonneg h, Int.tmod_eq_emod_of_nonneg h]
  exact ⟨rfl, rfl⟩

/-- Seconds, minutes, hours and days, wrapped one after the other. -/
theorem tmWrap_spec (tv : ℤ) :
    let sec := tmWrap (tv.tmod 60) ((tv.tdiv 60).tmod 60) 60
    let min := tmWrap sec.2 (((tv.tdiv 60).tdiv 60).tmod 24) 60
    let hour := tmWrap min.2 (((tv.tdiv 60).tdiv 60).tdiv 24) 24
    sec.1 = tv % 60 ∧ min.1 = tv / 60 % 60 ∧ hour.1 = tv / 3600 % 24 ∧ hour.2 = tv / 86400 := by
  intro sec min hour
  rcases le_total 0 tv with h | h
  · have h₁ : 0 ≤ tv / 60 := by omega
    have h₂ : 0 ≤ tv / 60 / 60 := by omega
    simp only [sec, min, hour, tmWrap, (tdiv_tmod_of_nonneg h).1, (tdiv_tmod_of_nonneg h).2,
      (tdiv_tmod_of_nonneg h₁).1, (tdiv_tmod_of_nonneg h₁).2, (tdiv_tmod_of_nonneg h₂).1,
      (tdiv_tmod_of_nonneg h₂).2]
    rw [if_neg (by omega), if_neg (by dsimp only; omega), if_neg (by dsimp only; omega)]
    exact ⟨rfl, rfl, by omega, by omega⟩
  · obtain ⟨y, rfl⟩ : ∃ y, tv = -y := ⟨-tv, (neg_neg tv).symm⟩
    have h₀ : 0 ≤ y := by omega
    have h₁ : 0 ≤ y / 60 := by omega
    have h₂ : 0 ≤ y / 60 / 60 := by omega
    simp only [sec, min, hour, tmWrap, (tdiv_tmod_neg h₀).1, (tdiv_tmod_neg h₀).2,
      (tdiv_tmod_neg h₁).1, (tdiv_tmod_neg h₁).2, (tdiv_tmod_neg h₂).1, (tdiv_tmod_neg h₂).2]
    clear sec min hour
    split_ifs <;> simp only [] at * <;> omega

/-- `ms_gmtime_r` finds the date of a number of seconds. -/
theorem msGmtimeR_spec (tv : ℤ) : ∃ d : Date, d.epoch = tv ∧ (msGmtimeR tv).year = d.yr - 1900 ∧
    (msGmtimeR tv).mon = d.mo - 1 ∧ (msGmtimeR tv).mday = d.day ∧
    (msGmtimeR tv).yday = d.jday - 1 ∧ (msGmtimeR tv).hour = d.hr ∧ (msGmtimeR tv).min = d.mn ∧
    (msGmtimeR tv).sec = d.sec := by
  obtain ⟨hsec, hmin, hhour, htday⟩ := tmWrap_spec tv
  obtain ⟨hmon, ⟨hlow, hhigh⟩, hsum⟩ := tmDate_spec (tv / 86400)
  set date := tmDate (tv / 86400) with hdate
  refine ⟨{
    yr := date.1 + 1900
    mo := date.2.1 + 1
    day := date.2.2 + 1
    hr := (tv / 3600 % 24).toNat
    mn := (tv / 60 % 60).toNat
    sec := (tv % 60).toNat
    mo_range := by omega
    day_range := by
      rw [Nat.add_sub_cancel]
      omega
    hr_lt := by omega
    mn_lt := by omega
    sec_lt := by omega }, ?_, ?_, ?_, ?_, ?_, ?_, ?_, ?_⟩
  · simp only [Date.epoch, Date.jday, Nat.add_sub_cancel]
    omega
  · simp only [msGmtimeR, htday, ← hdate]
    omega
  · simp only [msGmtimeR, htday, ← hdate, Nat.add_sub_cancel]
  · simp only [msGmtimeR, htday, ← hdate]
  · simp only [msGmtimeR, htday, ← hdate, Date.jday, Nat.add_sub_cancel,
      (tmDay_eq date.1).2 date.2.1 hmon.le]
    omega
  · simp only [msGmtimeR, hhour]
    omega
  · simp only [msGmtimeR, hmin]
    omega
  · simp only [msGmtimeR, hsec]
    omega

/-- The seconds are rounded down, and so are the tenths of milliseconds in them. -/
theorem hptimeSplit_eq (t : ℤ) : hptimeSplit t = (t / 1000000, t % 1000000 / 100) := by
  unfold hptimeSplit HPTMODULUS
  norm_num
  rcases le_or_gt 0 t with h | h
  · rw [if_neg (by omega), (tdiv_tmod_of_nonneg h).1]
    have hrest : 0 ≤ t - t / 1000000 * 1000000 := by omega
    rw [(tdiv_tmod_of_nonneg hrest).1]
    exact Prod.ext rfl (by dsimp only; omega)
  · obtain ⟨y, rfl⟩ : ∃ y, t = -y := ⟨-t, (neg_neg t).symm⟩
    have h₀ : 0 ≤ y := by omega
    have hrest : 0 ≤ y - y / 1000000 * 1000000 := by omega
    rw [(tdiv_tmod_neg h₀).1,
      show -y - -(y / 1000000) * 1000000 = -(y - y / 1000000 * 1000000) by ring,
      (tdiv_tmod_neg hrest).1]
    split_ifs <;> exact Prod.ext (by dsimp only; omega) (by dsimp only; omega)

/-! ## Both directions -/

/-- A `BTime` that is a date, with a time of day. -/
structure BTime.Valid (b : BTime) : Prop where
  day : 1 ≤ b.day.toNat ∧ (b.day.toNat : ℤ) ≤ daysInYear b.year.toNat
  hour : b.hour.toNat < 24
  min : b.min.toNat < 60
  sec : b.sec.toNat < 60
  unused : b.unused = 0
  fract : b.fract.toNat < 10000

/-- The fields of a date. -/
structure BTime.IsDate (b : BTime) (d : Date) : Prop where
  year : (b.year.toNat : ℤ) = d.yr
  day : (b.day.toNat : ℤ) = d.jday
  hour : b.hour.toNat = d.hr
  min : b.min.toNat = d.mn
  sec : b.sec.toNat = d.sec

theorem BTime.IsDate.hptime {b : BTime} {d : Date} (h : b.IsDate d) :
    msBtime2hptime b = d.epoch * 1000000 + b.fract.toNat * 100 := by
  rw [msBtime2hptime, btimeDays_eq, h.year, h.day, h.hour, h.min, h.sec, Date.epoch]
  norm_num [HPTMODULUS]
  ring

/-- The microseconds that fall in a year of a `BTime`. -/
def InBTimeYears (t : ℤ) : Prop :=
  yearStart 0 * 86400000000 ≤ t ∧ t < yearStart 65536 * 86400000000

theorem toNat_ofInt {w : ℕ} {n : ℤ} (h : 0 ≤ n ∧ n < 2 ^ w) :
    ((BitVec.ofInt w n).toNat : ℤ) = n := by
  rw [BitVec.toNat_ofInt]
  push_cast
  rw [Int.emod_eq_of_lt h.1 h.2, Int.toNat_of_nonneg h.1]

theorem year_of_epoch {d : Date} {t : ℤ} (ht : InBTimeYears t) (hd : d.epoch = t / 1000000) :
    0 ≤ d.yr ∧ d.yr < 65536 := by
  have hjday := d.jday_range
  have hr := d.hr_lt
  have hm := d.mn_lt
  have hs := d.sec_lt
  obtain ⟨hlow, hhigh⟩ := ht
  unfold Date.epoch at hd
  constructor
  · by_contra hneg
    have hbefore := consecutive_years (not_le.1 hneg)
    omega
  · by_contra hlarge
    rcases (not_lt.1 hlarge).eq_or_lt with heq | hlt
    · rw [← heq] at hd
      omega
    · have hafter := consecutive_years hlt
      have hpos := daysInYear_pos 65536
      omega

/-- The fields that `ms_hptime2btime` fills. -/
theorem msHptime2btime_spec {t : ℤ} (ht : InBTimeYears t) : ∃ d : Date, d.epoch = t / 1000000 ∧
    (msHptime2btime t).IsDate d ∧ ((msHptime2btime t).fract.toNat : ℤ) = t % 1000000 / 100 := by
  obtain ⟨d, hd, hyear, -, -, hyday, hhour, hmin, hsec⟩ := msGmtimeR_spec (t / 1000000)
  obtain ⟨hlow, hhigh⟩ := year_of_epoch ht hd
  have hjday := d.jday_range
  have hdays : daysInYear d.yr ≤ 366 := by
    unfold daysInYear
    split_ifs <;> norm_num
  have hr := d.hr_lt
  have hm := d.mn_lt
  have hs := d.sec_lt
  have hnat : ∀ {w : ℕ} {n : ℤ} {m : ℕ}, n = m → m < 2 ^ w → (BitVec.ofInt w n).toNat = m := by
    intro w n m hn hlt
    have hrange : 0 ≤ n ∧ n < 2 ^ w := by
      rw [hn]
      exact ⟨Int.natCast_nonneg m, by exact_mod_cast hlt⟩
    have := toNat_ofInt hrange
    omega
  refine ⟨d, hd, ⟨?_, ?_, ?_, ?_, ?_⟩, ?_⟩
  · simp only [msHptime2btime, hptimeSplit_eq, hyear]
    rw [sub_add_cancel, toNat_ofInt ⟨hlow, by omega⟩]
  · simp only [msHptime2btime, hptimeSplit_eq, hyday]
    rw [sub_add_cancel, toNat_ofInt ⟨by omega, by omega⟩]
  · simp only [msHptime2btime, hptimeSplit_eq]
    exact hnat hhour (by omega)
  · simp only [msHptime2btime, hptimeSplit_eq]
    exact hnat hmin (by omega)
  · simp only [msHptime2btime, hptimeSplit_eq]
    exact hnat hsec (by omega)
  · simp only [msHptime2btime, hptimeSplit_eq]
    exact toNat_ofInt ⟨by omega, by omega⟩

theorem BTime.Valid.exists_date {b : BTime} (h : b.Valid) : ∃ d : Date, b.IsDate d := by
  obtain ⟨hlow, hhigh⟩ := h.day
  obtain ⟨mo, day, -, hmo, hday, hsum⟩ :=
    @exists_month b.year.toNat (b.day.toNat - 1) (by omega)
  refine ⟨{
    yr := b.year.toNat
    mo := mo + 1
    day := day
    hr := b.hour.toNat
    mn := b.min.toNat
    sec := b.sec.toNat
    mo_range := by omega
    day_range := hday
    hr_lt := h.hour
    mn_lt := h.min
    sec_lt := h.sec }, rfl, ?_, rfl, rfl, rfl⟩
  simp only [Date.jday, Nat.add_sub_cancel, hsum]
  omega

/-- Whatever `BTime` is a date is in the years of a `BTime`. -/
theorem BTime.Valid.inBTimeYears {b : BTime} (h : b.Valid) : InBTimeYears (msBtime2hptime b) := by
  obtain ⟨d, hd⟩ := h.exists_date
  have hjday := d.jday_range
  have hr := d.hr_lt
  have hm := d.mn_lt
  have hs := d.sec_lt
  have hf := h.fract
  have hyear := hd.year
  have hlt := b.year.isLt
  have hpos := daysInYear_pos d.yr
  have hlow : yearStart 0 ≤ yearStart d.yr := by
    rcases eq_or_lt_of_le (show 0 ≤ d.yr by omega) with heq | hgt
    · rw [heq]
    · have := consecutive_years hgt
      have := daysInYear_pos 0
      omega
  have hhigh := consecutive_years (show d.yr < 65536 by omega)
  unfold InBTimeYears
  rw [hd.hptime, Date.epoch]
  generalize yearStart 65536 = stop at hhigh ⊢
  constructor <;> omega

theorem BTime.Valid.msHptime2btime_msBtime2hptime {b : BTime} (h : b.Valid) :
    msHptime2btime (msBtime2hptime b) = b := by
  obtain ⟨d, hfields⟩ := h.exists_date
  obtain ⟨d', hd', hfields', hfract⟩ := msHptime2btime_spec h.inBTimeYears
  have hhptime := hfields.hptime
  have hlt := h.fract
  obtain rfl : d' = d := Date.epoch_injective (by omega)
  have hyear := hfields.year
  have hday := hfields.day
  have hyear' := hfields'.year
  have hday' := hfields'.day
  ext1
  · exact BitVec.eq_of_toNat_eq (by omega)
  · exact BitVec.eq_of_toNat_eq (by omega)
  · exact BitVec.eq_of_toNat_eq (hfields'.hour.trans hfields.hour.symm)
  · exact BitVec.eq_of_toNat_eq (hfields'.min.trans hfields.min.symm)
  · exact BitVec.eq_of_toNat_eq (hfields'.sec.trans hfields.sec.symm)
  · exact h.unused.symm
  · exact BitVec.eq_of_toNat_eq (by omega)

/-- Down to the tenths of milliseconds, the conversions are inverse to each other: on every number
of microseconds in the years of a `BTime`, and on every `BTime` that is a date. -/
theorem hptime_btime :
    (∀ t : ℤ, InBTimeYears t → (msHptime2btime t).Valid ∧
      msBtime2hptime (msHptime2btime t) = t / 100 * 100) ∧
    ∀ b : BTime, b.Valid → InBTimeYears (msBtime2hptime b) ∧
      msHptime2btime (msBtime2hptime b) = b := by
  refine ⟨fun t ht => ?_, fun b hb => ⟨hb.inBTimeYears, hb.msHptime2btime_msBtime2hptime⟩⟩
  obtain ⟨d, hd, hfields, hfract⟩ := msHptime2btime_spec ht
  have hjday := d.jday_range
  have hday := hfields.day
  refine ⟨⟨⟨by omega, ?_⟩, ?_, ?_, ?_, rfl, by omega⟩, ?_⟩
  · rw [hfields.year]
    omega
  · exact hfields.hour ▸ d.hr_lt
  · exact hfields.min ▸ d.mn_lt
  · exact hfields.sec ▸ d.sec_lt
  · rw [hfields.hptime, hd]
    omega

/-- A tenth of a millisecond before 1970, and a leap day. -/
theorem hptime_btime_before1970 :
    (InBTimeYears (-1) ∧ (msHptime2btime (-1)).Valid ∧
      msBtime2hptime (msHptime2btime (-1)) = -100) ∧
    msHptime2btime (msBtime2hptime ⟨2020, 366, 23, 59, 59, 0, 9999⟩) =
      ⟨2020, 366, 23, 59, 59, 0, 9999⟩ :=
  have hrange : InBTimeYears (-1) := by
    have hfirst := yearStart_eq 0
    have hstop := yearStart_eq 65536
    unfold InBTimeYears
    generalize yearStart 0 = first at hfirst ⊢
    generalize yearStart 65536 = stop at hstop ⊢
    norm_num at hfirst hstop
    omega
  ⟨⟨hrange, hptime_btime.1 (-1) hrange⟩,
    (hptime_btime.2 ⟨2020, 366, 23, 59, 59, 0, 9999⟩
      ⟨by decide, by decide, by decide, by decide, rfl, by decide⟩).2⟩

end Libmseed

end PQL
