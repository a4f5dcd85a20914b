import PQL.Lib.Rounding

/-!
# Date-times of the sort

`passcalHtoe` turns a `PTIME` into seconds since 1970 and `msec` into the milliseconds that are
compared.  Times are compared as `float`s, so `msec` is only defined for some weeks around 1970,
where it is monotone (`msec_mono`) but does not tell all times apart.
-/

namespace PQL

/-- A `PTIME`; a time without a month has the day of the year in `day`. -/
structure PTime where
  yr : ℤ
  mo : ℕ
  day : ℤ
  hr : ℕ
  mn : ℕ
  sec : ℚ
  mo_le : mo ≤ 12
  sec_nonneg : 0 ≤ sec

theorem PTime.noMonth_le : 0 ≤ 12 := Nat.zero_le 12

def passcalIsleap (a : ℤ) : Bool := a % 4 = 0 ∧ (a % 100 ≠ 0 ∨ a % 400 = 0)

def daysInMonth : List ℤ := [31, 28, 31, 30, 31, 30, 31, 31, 30, 31, 30, 31, 31]

/-- The day of the year. -/
def julian (t : PTime) : ℤ :=
  ((List.range (t.mo - 1)).map fun i =>
    daysInMonth.getD i 0 + if i = 1 ∧ passcalIsleap t.yr then 1 else 0).sum + t.day

/-- The days of `n` years from `yr` on. -/
def daysFrom (yr : ℤ) (n : ℕ) : ℤ :=
  ((List.range n).map fun i : ℕ => 365 + if passcalIsleap (yr + i) then 1 else 0).sum

/-- The days since 1970. -/
def passcalDays (t : PTime) (convertJul : Bool) : ℤ :=
  (if t.yr > 1970 then daysFrom 1970 (t.yr - 1970).toNat
    else if t.yr < 1970 then -daysFrom t.yr (1970 - t.yr).toNat else 0) +
  if convertJul then julian t - 1 else t.day - 1

def passcalHtoe (t : PTime) (convertJul : Bool) : Option ℤ :=
  (toInt (passcalDays t convertJul * 86400)).bind fun epoch =>
    (toInt (t.hr * 3600 + t.mn * 60 + t.sec)).bind fun secs => signed (epoch + secs)

/-- The milliseconds that `listSort` compares; the epoch is a `float`. -/
def msec (t : PTime) : Option ℤ :=
  (passcalHtoe t (t.mo ≠ 0)).bind fun epoch =>
    (toInt t.sec).bind fun sec =>
      toInt (roundTo 53 (roundTo 24 (roundTo 24 epoch + roundTo 24 (t.sec - sec)) * 1000))

/-- The time as seconds since 1970. -/
def PTime.instant (t : PTime) : ℚ :=
  passcalDays t (t.mo ≠ 0) * 86400 + t.hr * 3600 + t.mn * 60 + t.sec

/-! ## The epoch as a `float` -/

/-- An instant as the `float` that is compared. -/
def floatEpoch (x : ℚ) : ℚ := roundTo 24 (roundTo 24 ⌊x⌋ + roundTo 24 (x - ⌊x⌋))

theorem roundTo_fract_le_one (x : ℚ) : roundTo 24 (x - ⌊x⌋) ≤ 1 := by
  have hone : roundTo 24 ((1 : ℤ) : ℚ) = (1 : ℤ) := roundTo_intCast (by norm_num)
  rw [Int.cast_one] at hone
  exact (roundTo_mono (by norm_num) (Int.fract_lt_one x).le).trans hone.le

theorem roundTo_fract_nonneg (x : ℚ) : 0 ≤ roundTo 24 (x - ⌊x⌋) :=
  roundTo_nonneg 24 (Int.fract_nonneg x)

/-- The milliseconds overflow long before a `float` loses whole seconds. -/
theorem floor_lt_of_inIntRange {x : ℚ}
    (h : InIntRange (truncate (roundTo 53 (floatEpoch x * 1000)))) : |⌊x⌋| < 2 ^ 24 := by
  have hexact : ∀ n : ℤ, |n| < 2 ^ 24 → roundTo 24 (n : ℚ) = n := fun n => roundTo_intCast
  by_contra hlarge
  rw [not_lt, le_abs'] at hlarge
  rcases hlarge with hlow | hhigh
  · have hsec : roundTo 24 (⌊x⌋ : ℚ) ≤ ((-8388608 : ℤ) : ℚ) := by
      rw [← hexact (-8388608) (by norm_num)]
      exact roundTo_mono (by norm_num) (Int.cast_le.2 (hlow.trans (by norm_num)))
    have hepoch : floatEpoch x ≤ ((-8388607 : ℤ) : ℚ) := by
      rw [← hexact (-8388607) (by norm_num)]
      apply roundTo_mono (by norm_num)
      have := roundTo_fract_le_one x
      push_cast at hsec ⊢
      linarith
    have hms : roundTo 53 (floatEpoch x * 1000) ≤ ((-8388607000 : ℤ) : ℚ) := by
      rw [← roundTo_intCast (p := 53) (n := -8388607000) (by norm_num)]
      apply roundTo_mono (by norm_num)
      push_cast at hepoch ⊢
      linarith
    have htrunc := truncate_mono hms
    rw [truncate_intCast] at htrunc
    have := h.1
    omega
  · have hsec : ((8388608 : ℤ) : ℚ) ≤ roundTo 24 (⌊x⌋ : ℚ) := by
      rw [← hexact 8388608 (by norm_num)]
      exact roundTo_mono (by norm_num) (Int.cast_le.2 (le_trans (by norm_num) hhigh))
    have hepoch : ((8388608 : ℤ) : ℚ) ≤ floatEpoch x := by
      rw [← hexact 8388608 (by norm_num)]
      apply roundTo_mono (by norm_num)
      have := roundTo_fract_nonneg x
      push_cast at hsec ⊢
      linarith
    have hms : ((8388608000 : ℤ) : ℚ) ≤ roundTo 53 (floatEpoch x * 1000) := by
      rw [← roundTo_intCast (p := 53) (n := 8388608000) (by norm_num)]
      apply roundTo_mono (by norm_num)
      push_cast at hepoch ⊢
      linarith
    have htrunc := truncate_mono hms
    rw [truncate_intCast] at htrunc
    have := h.2
    omega

theorem floatEpoch_mono {x y : ℚ} (hx : |⌊x⌋| < 2 ^ 24) (hy : |⌊y⌋| < 2 ^ 24) (h : x ≤ y) :
    floatEpoch x ≤ floatEpoch y := by
  unfold floatEpoch
  apply roundTo_mono (by norm_num)
  rw [roundTo_intCast hx, roundTo_intCast hy]
  rcases (Int.floor_le_floor h).lt_or_eq with hlt | heq
  · have hsec : (⌊x⌋ : ℚ) + 1 ≤ ⌊y⌋ := by exact_mod_cast hlt
    have hx₁ := roundTo_fract_le_one x
    have hy₀ := roundTo_fract_nonneg y
    linarith
  · rw [heq]
    apply add_le_add_right
    exact roundTo_mono (by norm_num) (sub_le_sub_right h _)

/-! ## Milliseconds -/

theorem passcalHtoe_eq_floor {t : PTime} {convertJul : Bool} {epoch : ℤ}
    (h : passcalHtoe t convertJul = some epoch) :
    epoch = passcalDays t convertJul * 86400 + t.hr * 3600 + t.mn * 60 + ⌊t.sec⌋ := by
  obtain ⟨days, hdays, h⟩ := Option.bind_eq_some_iff.1 h
  obtain ⟨secs, hsecs, h⟩ := Option.bind_eq_some_iff.1 h
  obtain ⟨rfl, -⟩ := signed_eq_some.1 h
  obtain ⟨rfl, -⟩ := toInt_eq_some.1 hdays
  obtain ⟨rfl, -⟩ := toInt_eq_some.1 hsecs
  have htime : (0 : ℚ) ≤ t.hr * 3600 + t.mn * 60 + t.sec :=
    add_nonneg (by positivity) t.sec_nonneg
  have hfloor : ⌊(t.hr * 3600 + t.mn * 60 + t.sec : ℚ)⌋ = t.hr * 3600 + t.mn * 60 + ⌊t.sec⌋ := by
    rw [← Int.floor_intCast_add]
    push_cast
    rfl
  have htrunc :
      truncate (passcalDays t convertJul * 86400 : ℚ) = passcalDays t convertJul * 86400 := by
    rw [← truncate_intCast (passcalDays t convertJul * 86400)]
    push_cast
    rfl
  rw [htrunc, truncate_of_nonneg htime, hfloor]
  ring

/-- Where they are defined, the milliseconds are those of the `float` epoch of the instant. -/
theorem msec_eq_some {t : PTime} {m : ℤ} (h : msec t = some m) :
    truncate (roundTo 53 (floatEpoch t.instant * 1000)) = m ∧ InIntRange m := by
  obtain ⟨epoch, hepoch, h⟩ := Option.bind_eq_some_iff.1 h
  obtain ⟨sec, hsec, h⟩ := Option.bind_eq_some_iff.1 h
  obtain ⟨rfl, -⟩ := toInt_eq_some.1 hsec
  obtain ⟨hm, hrange⟩ := toInt_eq_some.1 h
  have hfloor := passcalHtoe_eq_floor hepoch
  rw [truncate_of_nonneg t.sec_nonneg] at hm hrange
  have hinstant : t.instant = epoch + (t.sec - ⌊t.sec⌋) := by
    rw [PTime.instant, hfloor]
    push_cast
    ring
  have hwhole : ⌊t.instant⌋ = epoch := by
    rw [hinstant, Int.floor_intCast_add, Int.floor_eq_zero_iff.2, add_zero]
    exact ⟨Int.fract_nonneg _, Int.fract_lt_one _⟩
  have hfract : t.instant - ⌊t.instant⌋ = t.sec - ⌊t.sec⌋ := by
    rw [hwhole, hinstant]
    ring
  rw [floatEpoch, hfract, hwhole]
  exact ⟨hm, hm ▸ hrange⟩

theorem msec_mono {s t : PTime} {m n : ℤ} (hs : msec s = some m) (ht : msec t = some n)
    (h : s.instant ≤ t.instant) : m ≤ n := by
  obtain ⟨rfl, hm⟩ := msec_eq_some hs
  obtain ⟨rfl, hn⟩ := msec_eq_some ht
  apply truncate_mono
  apply roundTo_mono (by norm_num)
  apply mul_le_mul_of_nonneg_right _ (by norm_num)
  exact floatEpoch_mono (floor_lt_of_inIntRange hm) (floor_lt_of_inIntRange hn) h

end PQL
