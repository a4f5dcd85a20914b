import PQL.Sac.Header

/-!
# The start time of a SAC trace

A SAC header gives the start of a trace as a reference time with milliseconds and an offset in
seconds.  `sacTime` adds the whole seconds of the offset to the epoch and its milliseconds to those
of the reference time, and carries in both directions.  A sum of exactly a thousand milliseconds is
not carried, and what the offset has below a millisecond is cut off.  So the start is right only for
other sums and if less than half of a millisecond is cut off (`decodes_start_iff`).  The arithmetic
is exact.
-/

namespace PQL

namespace Sac

/-! ## What the start should be -/

/-- The reference time of a header is a date, with its milliseconds. -/
structure RefersTo (h : SacHead) (d : Date) : Prop where
  nzyear : h.nzyear = d.yr
  nzjday : h.nzjday = d.jday
  nzhour : h.nzhour = d.hr
  nzmin : h.nzmin = d.mn
  nzsec : h.nzsec = d.sec
  nzmsec : 0 ≤ h.nzmsec ∧ h.nzmsec ≤ 999

/-- The decoded fields as a time with the day of the year. -/
def SacTime.fields (t : SacTime) : PTime where
  yr := t.year
  mo := 0
  day := t.day
  hr := t.hour.toNat
  mn := t.minute.toNat
  sec := t.second.toNat
  mo_le := PTime.noMonth_le
  sec_nonneg := Nat.cast_nonneg _

/-- The fields and the milliseconds are a time, which is the epoch of the header and the start
`start` rounded to a millisecond. -/
structure IsStart (t : SacTime) (start : ℚ) : Prop where
  m_secs : 0 ≤ t.m_secs ∧ t.m_secs ≤ 999
  fields : ∃ e, passcalHtoe t.fields false = some e ∧ (e : ℚ) + t.m_secs / 1000 = t.epochs
  rounded : |t.epochs - start| ≤ 1 / 2000

/-- The header is decoded to the reference time `d` with its milliseconds plus the offset `b`. -/
def DecodesStart (h : SacHead) (d : Date) (b : ℚ) : Prop :=
  ∃ t, sacTime exactFloats h = some t ∧ IsStart t (d.epoch + h.nzmsec / 1000 + b)

/-- The start in milliseconds, as far as the offset has whole ones. -/
def startMs (h : SacHead) (d : Date) (b : ℚ) : ℤ :=
  1000 * d.epoch + h.nzmsec + truncate (b * 1000)

/-- The sum of the milliseconds, without the whole seconds of the offset. -/
def sumMs (h : SacHead) (b : ℚ) : ℤ := h.nzmsec + truncate ((b - truncate b) * 1000)

/-- All times fit their types, the sum of the milliseconds is not a whole second, and not more than
half of a millisecond is cut off. -/
structure StartFits (h : SacHead) (d : Date) (b : ℚ) : Prop where
  reference : d.InRange
  offset : InIntRange (truncate b)
  seconds : InIntRange (d.epoch + truncate b)
  start : -2147472000 * 1000 ≤ startMs h d b ∧ startMs h d b < 2 ^ 31 * 1000
  carried : sumMs h b ≠ 1000
  cut : |b * 1000 - truncate (b * 1000)| ≤ 1 / 2

/-! ## Times in an `int` -/

theorem bounds_of_passcalHtoe {t : PTime} {convertJul : Bool} {e : ℤ}
    (h : passcalHtoe t convertJul = some e) : -2147472000 ≤ e ∧ e ≤ 2 ^ 31 - 1 := by
  have hfloor := passcalHtoe_eq_floor h
  obtain ⟨days, hdays, h⟩ := Option.bind_eq_some_iff.1 h
  obtain ⟨secs, -, h⟩ := Option.bind_eq_some_iff.1 h
  obtain ⟨heq, hrange⟩ := signed_eq_some.1 h
  obtain ⟨-, hday⟩ := toInt_eq_some.1 hdays
  have hcast : (passcalDays t convertJul : ℚ) * 86400 = (passcalDays t convertJul * 86400 : ℤ) := by
    push_cast
    rfl
  rw [hcast, truncate_intCast] at hday
  have hsec : 0 ≤ ⌊t.sec⌋ := Int.floor_nonneg.2 t.sec_nonneg
  obtain ⟨hlow, -⟩ := hday
  obtain ⟨-, hhigh⟩ := hrange
  omega

theorem passcalHtoe_timeOfYear {d : Date} {e : ℤ} (h : passcalHtoe d.timeOfYear false = some e) :
    e = d.epoch := by
  have hsec : ⌊((d.sec : ℕ) : ℚ)⌋ = d.sec := Int.floor_natCast _
  have hfloor := passcalHtoe_eq_floor h
  rw [(passcalDays_time d).2] at hfloor
  change e = _ + (d.hr : ℤ) * 3600 + d.mn * 60 + ⌊((d.sec : ℕ) : ℚ)⌋ at hfloor
  rw [hfloor, hsec, Date.epoch]

/-! ## Milliseconds -/

theorem truncate_mul_thousand (b : ℚ) :
    truncate b * 1000 + truncate ((b - truncate b) * 1000) = truncate (b * 1000) := by
  have hnonneg : ∀ q : ℚ, 0 ≤ q →
      truncate q * 1000 + truncate ((q - truncate q) * 1000) = truncate (q * 1000) := by
    intro q hq
    have hfract : 0 ≤ q - ⌊q⌋ := Int.fract_nonneg q
    rw [truncate_of_nonneg hq, truncate_of_nonneg (by positivity),
      truncate_of_nonneg (by positivity), ← Int.floor_intCast_add]
    congr 1
    push_cast
    ring
  rcases le_total 0 b with hb | hb
  · exact hnonneg b hb
  · have hneg := hnonneg (-b) (neg_nonneg.2 hb)
    have hrest : (-b - (truncate (-b) : ℚ)) * 1000 = -((b - truncate b) * 1000) := by
      rw [truncate_neg]
      push_cast
      ring
    rw [hrest, neg_mul, truncate_neg, truncate_neg, truncate_neg] at hneg
    omega

theorem abs_sub_truncate_lt (q : ℚ) : |q - truncate q| < 1 := by
  have hnonneg : ∀ q : ℚ, 0 ≤ q → |q - truncate q| < 1 := by
    intro q hq
    have hfract : 0 ≤ q - ⌊q⌋ := Int.fract_nonneg q
    rw [truncate_of_nonneg hq, abs_of_nonneg hfract]
    exact Int.fract_lt_one q
  rcases le_total 0 q with hq | hq
  · exact hnonneg q hq
  · have hneg := hnonneg (-q) (neg_nonneg.2 hq)
    rwa [truncate_neg, Int.cast_neg, ← neg_sub', abs_neg] at hneg

theorem startMs_eq (h : SacHead) (d : Date) (b : ℚ) :
    startMs h d b = 1000 * (d.epoch + truncate b) + sumMs h b := by
  rw [startMs, sumMs, ← truncate_mul_thousand b]
  ring

theorem sumMs_bounds {h : SacHead} {d : Date} (hd : RefersTo h d) (b : ℚ) :
    -1000 < sumMs h b ∧ sumMs h b < 2000 := by
  have hfract : |(b - truncate b) * 1000| < 1000 := by
    rw [abs_mul, abs_of_pos (by norm_num : (0 : ℚ) < 1000)]
    linarith [abs_sub_truncate_lt b]
  have hle := abs_truncate ((b - truncate b) * 1000)
  have hfloor : ⌊|(b - truncate b) * 1000|⌋ < 1000 := Int.floor_lt.2 (by exact_mod_cast hfract)
  have hms := abs_lt.1 (hle.trans_lt hfloor)
  obtain ⟨hlow, hhigh⟩ := hd.nzmsec
  unfold sumMs
  omega

/-- The carry keeps the time and leaves less than a second, unless there was exactly one. -/
theorem carryMsec_spec {epoch m_sec : ℤ} (h : -1000 < m_sec ∧ m_sec < 2000) :
    1000 * (carryMsec epoch m_sec).1 + (carryMsec epoch m_sec).2 = 1000 * epoch + m_sec ∧
      ((0 ≤ (carryMsec epoch m_sec).2 ∧ (carryMsec epoch m_sec).2 ≤ 999) ↔ m_sec ≠ 1000) := by
  unfold carryMsec
  by_cases hlarge : m_sec > 1000
  · simp only [if_pos hlarge, if_neg (show ¬m_sec - 1000 < 0 by omega)]
    omega
  · simp only [if_neg hlarge]
    split_ifs with hneg
    · simp only []
      omega
    · exact ⟨rfl, by simp only []; omega⟩

/-! ## The start -/

section Start

variable {h : SacHead} {d : Date} {b : ℚ}

/-- What is decoded, when every number fits its type. -/
theorem sacTime_eq_some {t : SacTime} (hb : h.b = some b) (ht : sacTime exactFloats h = some t) :
    ∃ (ref : ℤ) (d' : Date), passcalHtoe (refTime h) false = some ref ∧ InIntRange (truncate b) ∧
      InIntRange (ref + truncate b) ∧
      d'.epoch = (carryMsec (ref + truncate b) (sumMs h b)).1 ∧
      t = ⟨d'.yr, d'.jday, d'.hr, d'.mn, d'.sec,
        (carryMsec (ref + truncate b) (sumMs h b)).2,
        d'.epoch + (carryMsec (ref + truncate b) (sumMs h b)).2 / 1000⟩ := by
  unfold sacTime at ht
  rw [hb, Option.bind_some] at ht
  obtain ⟨seconds, hseconds, ht⟩ := Option.bind_eq_some_iff.1 ht
  obtain ⟨rfl, hoffset⟩ := toInt_eq_some.1 hseconds
  obtain ⟨ref, href, ht⟩ := Option.bind_eq_some_iff.1 ht
  obtain ⟨epoch, hepoch, ht⟩ := Option.bind_eq_some_iff.1 ht
  obtain ⟨rfl, hsum⟩ := signed_eq_some.1 hepoch
  obtain ⟨milli_sec, hmilli, ht⟩ := Option.bind_eq_some_iff.1 ht
  obtain ⟨rfl, -⟩ := toInt_eq_some.1 hmilli
  obtain ⟨d', hdate, hd'⟩ := exists_date (carryMsec (ref + truncate b) (sumMs h b)).1
  refine ⟨ref, d', href, hoffset, hsum, hd', ?_⟩
  have hsec : truncate ((d'.sec : ℕ) : ℚ) = d'.sec := truncate_intCast d'.sec
  have hstart : some t = some (SacTime.mk d'.yr d'.jday d'.hr d'.mn (truncate ((d'.sec : ℕ) : ℚ))
      (carryMsec (ref + truncate b) (sumMs h b)).2
      ((carryMsec (ref + truncate b) (sumMs h b)).1 +
        ((carryMsec (ref + truncate b) (sumMs h b)).2 : ℚ) / 1000)) := by
    rw [← ht]
    simp only [exactFloats, id]
    rw [← sumMs, hdate]
    rfl
  rw [Option.some.inj hstart, hsec, hd']

/-- The epoch of what is decoded, against the start it should be. -/
theorem epochs_sub_start {ref : ℤ} {d' : Date} (hd : RefersTo h d)
    (hd' : d'.epoch = (carryMsec (ref + truncate b) (sumMs h b)).1) :
    (d'.epoch + (carryMsec (ref + truncate b) (sumMs h b)).2 / 1000 -
        (d.epoch + h.nzmsec / 1000 + b) : ℚ) =
      (ref - d.epoch : ℤ) - (b * 1000 - truncate (b * 1000)) / 1000 := by
  obtain ⟨hkeep, -⟩ := @carryMsec_spec (ref + truncate b) _ (sumMs_bounds hd b)
  rw [← hd', sumMs] at hkeep
  have hwhole := truncate_mul_thousand b
  have hsum : (1000 * d'.epoch + (carryMsec (ref + truncate b) (sumMs h b)).2 : ℚ) =
      1000 * ref + h.nzmsec + truncate (b * 1000) := by
    rw [← hwhole]
    have := congrArg (Int.cast : ℤ → ℚ) hkeep
    push_cast at this ⊢
    rw [sumMs]
    linarith
  push_cast
  linarith

/-- A reference time in the range of an `int` is read as it is. -/
theorem refTime_eq (hd : RefersTo h d) (hrange : d.InRange) : refTime h = d.timeOfYear := by
  have hlow : 1901 ≤ d.yr := by
    have := hrange.1
    rw [Date.key, Date.key, Prod.Lex.toLex_le_toLex] at this
    change (1901 : ℤ) < d.yr ∨ (1901 : ℤ) = d.yr ∧ _ at this
    omega
  have hhigh : d.yr ≤ 2038 := by
    have := hrange.2
    rw [Date.key, Date.key, Prod.Lex.toLex_le_toLex] at this
    change d.yr < (2038 : ℤ) ∨ d.yr = (2038 : ℤ) ∧ _ at this
    omega
  have hyr : h.nzyear.bmod (2 ^ 16) = d.yr := by
    rw [hd.nzyear]
    exact Int.bmod_eq_of_le (by omega) (by omega)
  unfold refTime Date.timeOfYear Date.time
  simp only [hyr, hd.nzjday, hd.nzhour, hd.nzmin, hd.nzsec, Int.toNat_natCast]

/-- A header whose times fit is decoded. -/
theorem exists_sacTime (hb : h.b = some b) (hd : RefersTo h d) (hfits : StartFits h d b) :
    ∃ t, sacTime exactFloats h = some t := by
  have hms : InIntRange (truncate ((b - truncate b) * 1000)) := by
    have := sumMs_bounds hd b
    obtain ⟨hlow, hhigh⟩ := hd.nzmsec
    unfold sumMs at this
    exact ⟨by omega, by omega⟩
  have href : passcalHtoe (refTime h) false = some d.epoch := by
    rw [refTime_eq hd hfits.reference]
    exact (passcalHtoe_date hfits.reference).2
  unfold sacTime
  rw [hb, Option.bind_some, toInt_eq_some.2 ⟨rfl, hfits.offset⟩, Option.bind_some, href,
    Option.bind_some, signed_eq_some.2 ⟨rfl, hfits.seconds⟩, Option.bind_some]
  change ∃ t, (toInt ((b - truncate b) * 1000)).bind _ = some t
  rw [toInt_eq_some.2 ⟨rfl, hms⟩]
  exact ⟨_, rfl⟩

/-- The start is decoded if and only if all times fit their types, the milliseconds do not add up to
a whole second, and at most half of a millisecond is cut off. -/
theorem decodes_start_iff (hb : h.b = some b) (hd : RefersTo h d) :
    DecodesStart h d b ↔ StartFits h d b := by
  have hcut := abs_sub_truncate_lt (b * 1000)
  constructor
  · rintro ⟨t, ht, hstart⟩
    obtain ⟨ref, d', href, hoffset, hseconds, hd', rfl⟩ := sacTime_eq_some hb ht
    obtain ⟨hms, ⟨e, he, -⟩, hrounded⟩ := hstart
    obtain ⟨hkeep, hcarried⟩ := @carryMsec_spec (ref + truncate b) _ (sumMs_bounds hd b)
    change |(d'.epoch + (carryMsec (ref + truncate b) (sumMs h b)).2 / 1000 -
      (d.epoch + h.nzmsec / 1000 + b) : ℚ)| ≤ 1 / 2000 at hrounded
    rw [epochs_sub_start hd hd'] at hrounded
    -- a whole second is not rounded away
    have hdiff : |((ref - d.epoch : ℤ) : ℚ)| < 1 := by
      rw [abs_le] at hrounded
      rw [abs_lt] at hcut ⊢
      constructor <;> linarith
    have href' : ref = d.epoch := by
      rw [← Int.cast_abs, ← Int.cast_one, Int.cast_lt, Int.abs_lt_one_iff] at hdiff
      omega
    subst href'
    have hfields : SacTime.fields ⟨d'.yr, d'.jday, d'.hr, d'.mn, d'.sec,
        (carryMsec (d.epoch + truncate b) (sumMs h b)).2,
        d'.epoch + (carryMsec (d.epoch + truncate b) (sumMs h b)).2 / 1000⟩ = d'.timeOfYear := by
      simp only [SacTime.fields, Date.timeOfYear, Date.time, Int.toNat_natCast]
    rw [hfields] at he
    obtain ⟨hlow, hhigh⟩ := bounds_of_passcalHtoe he
    rw [passcalHtoe_timeOfYear he, hd'] at hlow hhigh
    have hsum := startMs_eq h d b
    refine ⟨d.inRange_iff.2 (bounds_of_passcalHtoe href), hoffset, hseconds, ?_, hcarried.1 hms, ?_⟩
    · simp only [] at hms
      omega
    · rw [sub_self, Int.cast_zero, zero_sub, abs_neg, abs_div,
        abs_of_pos (by norm_num : (0 : ℚ) < 1000)] at hrounded
      linarith
  · intro hfits
    obtain ⟨t, ht⟩ := exists_sacTime hb hd hfits
    refine ⟨t, ht, ?_⟩
    obtain ⟨ref, d', href, -, -, hd', rfl⟩ := sacTime_eq_some hb ht
    rw [refTime_eq hd hfits.reference] at href
    obtain rfl := passcalHtoe_timeOfYear href
    obtain ⟨hkeep, hcarried⟩ := @carryMsec_spec (d.epoch + truncate b) _ (sumMs_bounds hd b)
    have hms := hcarried.2 hfits.carried
    have hrange : d'.InRange := by
      rw [d'.inRange_iff, hd']
      have hsum := startMs_eq h d b
      obtain ⟨hlow, hhigh⟩ := hfits.start
      omega
    refine ⟨hms, ⟨d'.epoch, ?_, rfl⟩, ?_⟩
    · rw [← (passcalHtoe_date hrange).2]
      simp only [SacTime.fields, Date.timeOfYear, Date.time, Int.toNat_natCast]
    · change |(d'.epoch + (carryMsec (d.epoch + truncate b) (sumMs h b)).2 / 1000 -
        (d.epoch + h.nzmsec / 1000 + b) : ℚ)| ≤ 1 / 2000
      rw [epochs_sub_start hd hd', sub_self, Int.cast_zero, zero_sub, abs_neg, abs_div,
        abs_of_pos (by norm_num : (0 : ℚ) < 1000)]
      linarith [hfits.cut]

/-- The first day of 2000 and the given milliseconds, with an offset of one and a half seconds and a
sample each second. -/
def newYear (nzmsec : Word) : SacHead where
  words := (List.range 110).map fun i =>
    if i = 0 then 0x3F800000 else if i = 5 then 0x3FC00000 else if i = 70 then 2000
    else if i = 71 then 1 else if i = 75 then nzmsec else if i = 88 then -12345 else 0
  chars := []

def newYearDate : Date :=
  { Date.first with
    yr := 2000
    mo := 1
    day := 1
    mo_range := Date.last.mo_range
    day_range := by decide }

theorem newYear_b (nzmsec : Word) : (newYear nzmsec).b = some (3 / 2) := by
  change floatValue 0x3FC00000 = some (3 / 2)
  decide +kernel

/-- Half a second is added to a whole one. -/
theorem newYear_start : DecodesStart (newYear 0) newYearDate (3 / 2) :=
  (decodes_start_iff (newYear_b 0) ⟨rfl, rfl, rfl, rfl, rfl, by decide⟩).2
    ⟨newYearDate.inRange_iff.2 (by decide +kernel), by decide +kernel, by decide +kernel,
      by decide +kernel, by decide +kernel, by decide +kernel⟩

/-- Half a second and half a second are a thousand milliseconds. -/
theorem newYear_start_thousand : ¬DecodesStart (newYear 500) newYearDate (3 / 2) := by
  rintro ⟨t, ht, hstart⟩
  obtain ⟨ref, d', -, -, -, -, rfl⟩ := sacTime_eq_some (newYear_b 500) ht
  have hsum : sumMs (newYear 500) (3 / 2) = 1000 := by decide +kernel
  have hms : (carryMsec (ref + truncate (3 / 2)) (sumMs (newYear 500) (3 / 2))).2 ≤ 999 :=
    hstart.m_secs.2
  rw [hsum] at hms
  exact absurd hms (by simp [carryMsec])

end Start

end Sac

end PQL
