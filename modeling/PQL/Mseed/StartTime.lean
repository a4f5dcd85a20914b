import PQL.Time.HpTime
import PQL.Reftek.HeaderTime

/-!
# The start of a miniSEED trace

A trace starts with the time of a record, corrected by its header, and `setStartTime` splits it into
the fields of the trace header.  In the years whose seconds fit an `int` these are the fields that
`passcal_etoh` finds for the seconds of the header, and without a correction those of the record
(`setStartTime_record`).
-/

namespace PQL

namespace Libmseed

def HPTERROR : ℤ := -2145916800000000

/-- What of a record decides its time. -/
structure RecordTime where
  start_time : BTime
  act_flags : Byte
  time_correct : Word
  /-- The microseconds of the blockette 1001, if there is one. -/
  usec : Option Byte

/-- `msr_starttime`. -/
def msrStarttime (msr : RecordTime) : ℤ :=
  let starttime := msBtime2hptime msr.start_time
  if starttime = HPTERROR then HPTERROR
  else
    let starttime := if msr.time_correct.toInt ≠ 0 ∧ msr.act_flags &&& 2 = 0 then
      starttime + msr.time_correct.toInt * (HPTMODULUS / 10000) else starttime
    match msr.usec with
    | some usec => starttime + usec.toInt * (HPTMODULUS / 1000000)
    | none => starttime

/-- The `ptime` of a `BTime`. -/
def btimeDate (btime : BTime) : PTime where
  yr := btime.year.toNat
  mo := 0
  day := btime.day.toNat
  hr := btime.hour.toNat
  mn := btime.min.toNat
  sec := btime.sec.toNat
  mo_le := PTime.noMonth_le
  sec_nonneg := Nat.cast_nonneg _

/-- `epochTime`, which gives the messages of a log their times. -/
def epochTime (starttime : ℤ) : Option ℤ := passcalHtoe (btimeDate (msHptime2btime starttime)) false

/-- `setStartTime`. -/
def setStartTime (startTime : ℤ) : Option TraceStart :=
  let btime := msHptime2btime startTime
  let m_secs : ℤ := btime.fract.toNat / 10
  (passcalHtoe (btimeDate btime) false).map fun epoch =>
    { year := btime.year.toNat
      day := btime.day.toNat
      hour := btime.hour.toNat
      minute := btime.min.toNat
      second := btime.sec.toNat
      m_secs := m_secs
      epochs := roundTo 53 (epoch + roundTo 53 (m_secs / 1000)) }

/-- The seconds fit an `int`. -/
def InIntEpoch (t : ℤ) : Prop := -2147472000 ≤ t / 1000000 ∧ t / 1000000 ≤ 2 ^ 31 - 1

instance (t : ℤ) : Decidable (InIntEpoch t) := inferInstanceAs (Decidable (_ ∧ _))

theorem InIntEpoch.inBTimeYears {t : ℤ} (h : InIntEpoch t) : InBTimeYears t := by
  obtain ⟨hlow, hhigh⟩ := h
  have hfirst := yearStart_eq 0
  have hstop := yearStart_eq 65536
  unfold InBTimeYears
  generalize yearStart 0 = first at hfirst ⊢
  generalize yearStart 65536 = stop at hstop ⊢
  norm_num at hfirst hstop
  constructor <;> omega

theorem btimeDate_eq {b : BTime} {d : Date} (h : b.IsDate d) : btimeDate b = d.timeOfYear := by
  have hyear := h.year
  have hday := h.day
  have hhour := h.hour
  have hmin := h.min
  have hsec := h.sec
  unfold btimeDate Date.timeOfYear Date.time
  simp only [hyear, hday, hhour, hmin, hsec]

/-- The seconds of a `BTime`, and their date. -/
theorem epochTime_spec {t : ℤ} (h : InIntEpoch t) : ∃ d : Date, (msHptime2btime t).IsDate d ∧
    ((msHptime2btime t).fract.toNat : ℤ) = t % 1000000 / 100 ∧
    passcalEtoh (t / 1000000 : ℤ) = d.filled ∧ epochTime t = some (t / 1000000) := by
  obtain ⟨d, hd, hfields, hfract⟩ := msHptime2btime_spec h.inBTimeYears
  obtain ⟨d', hfilled, hd'⟩ := exists_date (t / 1000000)
  obtain rfl : d' = d := Date.epoch_injective (hd'.trans hd.symm)
  refine ⟨d', hfields, hfract, hfilled, ?_⟩
  have hrange := d'.inRange_iff.2 ⟨hd.symm ▸ h.1, hd.symm ▸ h.2⟩
  rw [epochTime, btimeDate_eq hfields, (passcalHtoe_date hrange).2, hd]

/-- No correction is pending. -/
def RecordTime.Uncorrected (msr : RecordTime) : Prop :=
  (msr.time_correct.toInt = 0 ∨ msr.act_flags &&& 2 ≠ 0) ∧ ∀ usec ∈ msr.usec, usec = 0

theorem msrStarttime_uncorrected {msr : RecordTime} (h : msr.Uncorrected) :
    msrStarttime msr = msBtime2hptime msr.start_time := by
  obtain ⟨hcorrect, husec⟩ := h
  have hnot : ¬(msr.time_correct.toInt ≠ 0 ∧ msr.act_flags &&& 2 = 0) := by
    rintro ⟨hne, hzero⟩
    rcases hcorrect with h | h
    · exact hne h
    · exact h hzero
  unfold msrStarttime
  dsimp only
  rw [if_neg hnot]
  split_ifs with herror
  · exact herror.symm
  · cases hu : msr.usec with
    | none => rfl
    | some usec =>
      rw [husec usec hu]
      exact add_zero _

/-- The start that a trace gets from a record. -/
theorem setStartTime_record (msr : RecordTime) (h : InIntEpoch (msrStarttime msr)) :
    let t := msrStarttime msr
    let date := passcalEtoh (t / 1000000 : ℤ)
    ∃ start, setStartTime t = some start ∧
      (start.year = date.yr ∧ start.day = date.jday ∧ start.hour = date.hr ∧
        start.minute = date.mn ∧ (start.second : ℚ) = date.sec) ∧
      start.m_secs = t % 1000000 / 1000 ∧
      start.epochs = roundTo 53 ((t / 1000000 : ℤ) + roundTo 53 ((start.m_secs : ℚ) / 1000)) ∧
      (msr.start_time.Valid → msr.Uncorrected →
        start.year = msr.start_time.year.toNat ∧ start.day = msr.start_time.day.toNat ∧
          start.hour = msr.start_time.hour.toNat ∧ start.minute = msr.start_time.min.toNat ∧
          start.second = msr.start_time.sec.toNat ∧
          start.m_secs = (msr.start_time.fract.toNat / 10 : ℕ)) := by
  intro t date
  obtain ⟨d, hfields, hfract, hfilled, hepoch⟩ := epochTime_spec h
  have hdate : date = d.filled := hfilled
  have hstart : ∃ start, setStartTime t = some start ∧
      start = { year := (msHptime2btime t).year.toNat
                day := (msHptime2btime t).day.toNat
                hour := (msHptime2btime t).hour.toNat
                minute := (msHptime2btime t).min.toNat
                second := (msHptime2btime t).sec.toNat
                m_secs := (msHptime2btime t).fract.toNat / 10
                epochs := roundTo 53 ((t / 1000000 : ℤ) + roundTo 53
                  ((((msHptime2btime t).fract.toNat / 10 : ℤ) : ℚ) / 1000)) } := by
    refine ⟨_, ?_, rfl⟩
    unfold epochTime at hepoch
    simp only [setStartTime]
    rw [hepoch]
    rfl
  obtain ⟨start, hsome, rfl⟩ := hstart
  refine ⟨_, hsome, ⟨?_, ?_, ?_, ?_, ?_⟩, ?_, rfl, fun hvalid huncorrected => ?_⟩
  · rw [hdate]
    exact hfields.year
  · rw [hdate]
    exact hfields.day
  · rw [hdate]
    exact congrArg _ hfields.hour
  · rw [hdate]
    exact congrArg _ hfields.min
  · rw [hdate]
    dsimp only [Date.filled]
    rw [hfields.sec]
    rfl
  · have htenths : ((msHptime2btime t).fract.toNat : ℤ) = t % 1000000 / 100 := hfract
    dsimp only
    omega
  · have hback : msHptime2btime t = msr.start_time := by
      rw [← hvalid.msHptime2btime_msBtime2hptime, ← msrStarttime_uncorrected huncorrected]
    dsimp only
    rw [hback]
    exact ⟨rfl, rfl, rfl, rfl, rfl, rfl⟩

/-- The last tenth of a millisecond of 2020, given to the microsecond. -/
theorem setStartTime_record_leapYear :
    ∃ start, setStartTime (msrStarttime ⟨⟨2020, 366, 23, 59, 59, 0, 9999⟩, 0, 0, some 0⟩) =
        some start ∧
      (start.year = 2020 ∧ start.day = 366 ∧ start.hour = 23 ∧ start.minute = 59 ∧
        start.second = 59 ∧ start.m_secs = 999) := by
  have hrange : InIntEpoch (msrStarttime ⟨⟨2020, 366, 23, 59, 59, 0, 9999⟩, 0, 0, some 0⟩) := by
    decide
  obtain ⟨start, hstart, -, -, -, hback⟩ := setStartTime_record _ hrange
  exact ⟨start, hstart, hback
    ⟨by decide, by decide, by decide, by decide, rfl, by decide⟩ ⟨.inl rfl, by decide⟩⟩

end Libmseed

end PQL
