import PQL.Lib.Text
import PQL.Reftek.Packets
import PQL.Time.Calendar

/-!
# The time of an RT130 event header

The time of the first sample is in fixed fields of decimal digits.  `ascii2bin` scans them,
`gmt2epoch` adds them up with a leap day every fourth year, and `make_rt130_trace` turns the seconds
into a date again.  Up to 2037 every fourth year is a leap year, and the date is the one that was
written (`rt130_headerTime`).
-/

namespace PQL

structure RTTime where
  year : ℤ
  day : ℤ
  hour : ℤ
  min : ℤ
  sec : ℤ
  msec : ℤ
  usec : ℤ
deriving DecidableEq, Repr

structure RTEpoch where
  sec : ℤ
  usec : ℤ
deriving DecidableEq, Repr

/-! ## Reading a time -/

/-- `sscanf` with a width: white space in front does not count, and without a number the zero of
the field stays. -/
def scanField (width : ℕ) (s : List CChar) : ℤ :=
  (scanInt ((s.dropWhile isSpace).take width)).elim 0 Prod.fst

/-- `ascii2bin`; `atime` goes on behind the `EventTime`. -/
def ascii2bin (atime : List CChar) : RTTime :=
  if atime.getD 0 0 = blank then
    { year := 1970, day := 1, hour := 0, min := 0, sec := 0, msec := 0, usec := 0 }
  else
    { year := scanField 4 atime
      day := scanField 3 (atime.drop 4)
      hour := scanField 2 (atime.drop 7)
      min := scanField 2 (atime.drop 9)
      sec := scanField 2 (atime.drop 11)
      msec := scanField 3 (atime.drop 13)
      usec := 0 }

/-- `gmt2epoch`; there is no result when an `int` overflows. -/
def gmt2epoch (time : RTTime) (leapSec : ℤ) : Option RTEpoch :=
  let year := max time.year 1970
  let day := max time.day 1
  let yearsSince := year - 1970
  let leapYears := (yearsSince + 1) / 4
  (signed ((yearsSince * 365 + day + leapYears - 1) * 86400)).bind fun days =>
    (signed (days + time.hour * 3600 + time.min * 60 + time.sec)).bind fun sec =>
      (signed (sec + leapSec)).map fun sec =>
        ⟨sec, if time.msec > 0 then time.msec * 1000 else time.usec⟩

/-- The offset of `first_sample_time` in an event header. -/
def RT130_FIRST_SAMPLE_TIME : ℕ := 112

/-- The epoch that an event header packet gives the header pass. -/
def headerEpoch (block : List Byte) : Option RTEpoch :=
  gmt2epoch (ascii2bin (block.drop RT130_FIRST_SAMPLE_TIME)) 0

/-! ## The time of a trace -/

structure TraceStart where
  year : ℤ
  day : ℤ
  hour : ℤ
  minute : ℤ
  second : ℤ
  m_secs : ℤ
  epochs : ℚ
deriving DecidableEq, Repr

/-- The time that `make_rt130_trace` gives a trace. -/
def rt130Start (epoch : RTEpoch) : TraceStart :=
  let date := passcalEtoh epoch.sec
  let m_secs := epoch.usec.tdiv 1000
  { year := date.yr
    day := getJulday date.mo date.day date.yr
    hour := date.hr
    minute := date.mn
    second := truncate date.sec
    m_secs := m_secs
    epochs := roundTo 53 (epoch.sec + roundTo 53 (m_secs / 1000)) }

/-! ## Times in packets -/

/-- A time of the years in which an `int` counts the seconds. -/
structure PacketTime where
  year : ℕ
  day : ℕ
  hour : ℕ
  min : ℕ
  sec : ℕ
  year_range : 1970 ≤ year ∧ year ≤ 2037
  day_range : 1 ≤ day ∧ (day : ℤ) ≤ daysInYear year
  hour_lt : hour < 24
  min_lt : min < 60
  sec_lt : sec < 60

namespace PacketTime

variable (t : PacketTime)

/-- The fields of the time, as they are written. -/
def digits : List CChar :=
  padded 4 t.year ++ (padded 3 t.day ++ (padded 2 t.hour ++ (padded 2 t.min ++ padded 2 t.sec)))

theorem day_le : t.day ≤ 366 := by
  have hday := t.day_range.2
  unfold daysInYear at hday
  split_ifs at hday <;> omega

/-- The seconds since 1970. -/
def epoch : ℤ :=
  (yearStart t.year + t.day - 1) * 86400 + t.hour * 3600 + t.min * 60 + t.sec

end PacketTime

/-- A field of digits is read, whatever follows it. -/
theorem scanField_padded {width : ℕ} (hwidth : 0 < width) {n : ℕ} (hn : n < 10 ^ width)
    (rest : List CChar) : scanField width (padded width n ++ rest) = n := by
  have hlen := length_padded width n
  obtain ⟨c, s, hcons, hdigit⟩ := exists_padded_cons hwidth n
  have hspace := (not_space_of_isDigit hdigit).1
  have hskip : ∀ r : List CChar, (padded width n ++ r).dropWhile isSpace = padded width n ++ r := by
    intro r
    rw [hcons, List.cons_append, List.dropWhile_cons_of_neg (by rw [hspace]; decide)]
  have hsign : scanSign (padded width n) = (1, padded width n) := by
    rw [hcons]
    exact scanSign_of_isDigit hdigit
  have hscan := scanDigits_append (by rw [hcons]; exact List.cons_ne_nil c s)
    (fun c hc => isDigit_of_mem_padded (k := width) (n := n) hc) noDigit_nil
  have hskip' := hskip []
  rw [List.append_nil] at hscan hskip'
  rw [scanField, hskip, List.take_left' hlen, scanInt, hskip', hsign, hscan, digitsValue_padded,
    Nat.mod_eq_of_lt hn]
  exact one_mul _

theorem ascii2bin_digits (t : PacketTime) (rest : List CChar) :
    ascii2bin (t.digits ++ rest) =
      { year := t.year, day := t.day, hour := t.hour, min := t.min, sec := t.sec
        msec := scanField 3 rest, usec := 0 } := by
  have hyear := t.year_range
  have hday := t.day_le
  have hhour := t.hour_lt
  have hmin := t.min_lt
  have hsec := t.sec_lt
  have hdrop : ∀ (k n : ℕ) (r : List CChar) (o : ℕ), (padded k n ++ r).drop (k + o) = r.drop o := by
    intro k n r o
    rw [← List.drop_drop, List.drop_left' (length_padded k n)]
  unfold PacketTime.digits
  simp only [List.append_assoc]
  have hfirst : (padded 4 t.year ++ (padded 3 t.day ++ (padded 2 t.hour ++ (padded 2 t.min ++
      (padded 2 t.sec ++ rest))))).getD 0 0 ≠ blank := by
    obtain ⟨c, s, hcons, hdigit⟩ := exists_padded_cons (by norm_num : 0 < 4) t.year
    rw [hcons, List.cons_append, List.getD_cons_zero]
    rintro rfl
    exact absurd hdigit (by decide)
  rw [ascii2bin, if_neg hfirst, hdrop 4 _ _ 0, hdrop 4 _ _ 3, hdrop 4 _ _ 5, hdrop 4 _ _ 7,
    hdrop 4 _ _ 9, hdrop 3 _ _ 0, hdrop 3 _ _ 2, hdrop 3 _ _ 4, hdrop 3 _ _ 6, hdrop 2 _ _ 0,
    hdrop 2 _ _ 2, hdrop 2 _ _ 4, hdrop 2 _ _ 0, hdrop 2 _ _ 2, hdrop 2 _ _ 0]
  simp only [List.drop_zero]
  rw [scanField_padded (by norm_num) (by omega), scanField_padded (by norm_num) (by omega),
    scanField_padded (by norm_num) (by omega), scanField_padded (by norm_num) (by omega),
    scanField_padded (by norm_num) (by omega)]

/-! ## From the packet to the date -/

/-- Up to 2037 every fourth year is a leap year. -/
theorem yearStart_eq {year : ℕ} (h : 1970 ≤ year ∧ year ≤ 2037) :
    yearStart year = ((year : ℤ) - 1970) * 365 + ((year : ℤ) - 1970 + 1) / 4 := by
  have hyears : ∀ n < 68, yearStart (1970 + n : ℕ) = (n : ℤ) * 365 + ((n : ℤ) + 1) / 4 := by
    decide +kernel
  have hyear := hyears (year - 1970) (by omega)
  rw [show 1970 + (year - 1970) = year by omega] at hyear
  rw [hyear, Nat.cast_sub h.1]
  rfl

namespace PacketTime

variable (t : PacketTime)

theorem epoch_lt : 0 ≤ t.epoch ∧ t.epoch < 2 ^ 31 := by
  have hyear := t.year_range
  have hday := t.day_range
  have hday' := t.day_le
  have hhour := t.hour_lt
  have hmin := t.min_lt
  have hsec := t.sec_lt
  rw [epoch, yearStart_eq hyear]
  omega

/-- The closed formula counts the seconds. -/
theorem gmt2epoch_eq (msec : ℤ) :
    gmt2epoch { year := t.year, day := t.day, hour := t.hour, min := t.min, sec := t.sec
                msec := msec, usec := 0 } 0 =
      some ⟨t.epoch, if msec > 0 then msec * 1000 else 0⟩ := by
  have hyear := t.year_range
  have hday := t.day_range
  have hday' := t.day_le
  have hhour := t.hour_lt
  have hmin := t.min_lt
  have hsec := t.sec_lt
  have hrange := t.epoch_lt
  have hepoch : t.epoch =
      (((t.year : ℤ) - 1970) * 365 + t.day + ((t.year : ℤ) - 1970 + 1) / 4 - 1) * 86400 +
        t.hour * 3600 + t.min * 60 + t.sec := by
    rw [epoch, yearStart_eq hyear]
    ring
  have hin : ∀ n : ℤ, 0 ≤ n → n < 2 ^ 31 → signed n = some n :=
    fun n h₀ h => signed_eq_some.2 ⟨rfl, by omega, h⟩
  simp only [gmt2epoch]
  rw [max_eq_left (by omega : (1970 : ℤ) ≤ t.year), max_eq_left (by omega : (1 : ℤ) ≤ t.day),
    hin _ (by omega) (by omega), Option.bind_some, ← hepoch, hin _ hrange.1 hrange.2,
    Option.bind_some, add_zero, hin _ hrange.1 hrange.2, Option.map_some]

/-- The seconds give the date back. -/
theorem passcalEtoh_epoch :
    (passcalEtoh t.epoch).yr = t.year ∧ (passcalEtoh t.epoch).jday = t.day ∧
      (passcalEtoh t.epoch).hr = t.hour ∧ (passcalEtoh t.epoch).mn = t.min ∧
      (passcalEtoh t.epoch).sec = t.sec ∧
      getJulday (passcalEtoh t.epoch).mo (passcalEtoh t.epoch).day (passcalEtoh t.epoch).yr =
        t.day := by
  obtain ⟨d, hfilled, hepoch⟩ := exists_date t.epoch
  have hhour := t.hour_lt
  have hmin := t.min_lt
  have hsec := t.sec_lt
  have hday := t.day_range
  have hhr := d.hr_lt
  have hmn := d.mn_lt
  have hse := d.sec_lt
  have hjday := d.jday_range
  unfold Date.epoch epoch at hepoch
  have hdays : yearStart d.yr + d.jday = yearStart t.year + t.day := by omega
  have hyr : d.yr = t.year := by
    rcases lt_trichotomy d.yr t.year with hlt | heq | hgt
    · have := consecutive_years hlt
      omega
    · exact heq
    · have := consecutive_years hgt
      omega
  have hjd : d.jday = t.day := by
    rw [hyr] at hdays
    omega
  rw [hfilled]
  show d.yr = t.year ∧ d.jday = t.day ∧ (d.hr : ℤ) = t.hour ∧ (d.mn : ℤ) = t.min ∧
    (d.sec : ℚ) = t.sec ∧ getJulday d.mo d.day d.yr = t.day
  rw [getJulday_eq, hjd]
  refine ⟨hyr, rfl, by omega, by omega, ?_, rfl⟩
  rw [show d.sec = t.sec by omega]

end PacketTime

/-- The time of an event header becomes an epoch that `passcal_etoh` turns back into it, and it is
the time of the traces.  The fields of the time begin the `EventTime`, whatever follows them. -/
theorem rt130_headerTime (t : PacketTime) (block : List Byte) (rest : List CChar)
    (hblock : block.drop RT130_FIRST_SAMPLE_TIME = t.digits ++ rest) :
    ∃ epoch, headerEpoch block = some epoch ∧
      ((passcalEtoh epoch.sec).yr = t.year ∧ (passcalEtoh epoch.sec).jday = t.day ∧
        (passcalEtoh epoch.sec).hr = t.hour ∧ (passcalEtoh epoch.sec).mn = t.min ∧
        (passcalEtoh epoch.sec).sec = t.sec) ∧
      (rt130Start epoch).day = getJulday (passcalEtoh epoch.sec).mo (passcalEtoh epoch.sec).day
        (passcalEtoh epoch.sec).yr ∧
      ((rt130Start epoch).year = t.year ∧ (rt130Start epoch).day = t.day ∧
        (rt130Start epoch).hour = t.hour ∧ (rt130Start epoch).minute = t.min ∧
        (rt130Start epoch).second = t.sec) := by
  obtain ⟨hyr, hjday, hhr, hmn, hsec, hjulday⟩ := t.passcalEtoh_epoch
  refine ⟨⟨t.epoch, if scanField 3 rest > 0 then scanField 3 rest * 1000 else 0⟩, ?_,
    ⟨hyr, hjday, hhr, hmn, hsec⟩, rfl, hyr, hjulday, hhr, hmn, ?_⟩
  · rw [headerEpoch, hblock, ascii2bin_digits, t.gmt2epoch_eq]
  · show truncate (passcalEtoh t.epoch).sec = t.sec
    rw [hsec, ← Int.cast_natCast, truncate_intCast]

/-- The last second of a leap year. -/
def leapYearEnd : PacketTime where
  year := 2004
  day := 366
  hour := 23
  min := 59
  sec := 59
  year_range := by decide
  day_range := by decide
  hour_lt := by decide
  min_lt := by decide
  sec_lt := by decide

/-- A header with the last second of a leap year. -/
theorem rt130_headerTime_leapYearEnd :
    ∃ epoch, headerEpoch (List.replicate 112 0 ++ leapYearEnd.digits) = some epoch ∧
      (rt130Start epoch).year = 2004 ∧ (rt130Start epoch).day = 366 := by
  obtain ⟨epoch, hepoch, -, -, hyear, hday, -⟩ :=
    rt130_headerTime leapYearEnd (List.replicate 112 0 ++ leapYearEnd.digits) [] (by
      rw [List.append_nil]
      exact List.drop_left' (List.length_replicate))
  exact ⟨epoch, hepoch, hyear, hday⟩

end PQL
