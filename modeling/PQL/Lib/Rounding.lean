import PQL.Lib.CInt

/-!
# Rounding to a binary format

`roundTo p` is the rounding of an IEEE operation with `p` significant bits, to the nearest number
and in a tie to the even one; the exponent is not bounded.  It is monotone, keeps the sign and does
not change integers of `p` bits.
-/

namespace PQL

/-! ## Nearest integers -/

/-- The nearest integer, the even one in a tie. -/
def roundEven (x : ℚ) : ℤ :=
  if x - ⌊x⌋ < 1 / 2 then ⌊x⌋
  else if 1 / 2 < x - ⌊x⌋ then ⌊x⌋ + 1
  else if Even ⌊x⌋ then ⌊x⌋ else ⌊x⌋ + 1

/-- The first multiple of `d` that is not below `q`. -/
theorem ceil_div_eq_iff {d : ℚ} (hd : 0 < d) (q : ℚ) (s : ℤ) :
    ⌈q / d⌉ = s ↔ q ≤ s * d ∧ s * d - q < d := by
  rw [Int.ceil_eq_iff, lt_div_iff₀ hd, div_le_iff₀ hd, sub_mul, one_mul, and_comm, sub_lt_comm]

theorem roundEven_intCast (n : ℤ) : roundEven n = n := by
  unfold roundEven
  rw [Int.floor_intCast, sub_self, if_pos (by norm_num)]

theorem floor_le_roundEven (x : ℚ) : ⌊x⌋ ≤ roundEven x := by
  unfold roundEven
  split_ifs <;> omega

theorem roundEven_le_floor_add_one (x : ℚ) : roundEven x ≤ ⌊x⌋ + 1 := by
  unfold roundEven
  split_ifs <;> omega

theorem roundEven_mono {x y : ℚ} (h : x ≤ y) : roundEven x ≤ roundEven y := by
  rcases (Int.floor_le_floor h).lt_or_eq with hlt | heq
  · exact (roundEven_le_floor_add_one x).trans (le_trans hlt (floor_le_roundEven y))
  · have hfract : x - ⌊x⌋ ≤ y - ⌊y⌋ := by
      rw [heq]
      exact sub_le_sub_right h _
    unfold roundEven
    rw [heq] at hfract ⊢
    split_ifs <;> first | omega | linarith

/-- A tie is rounded up to an even number. -/
theorem roundEven_lt_iff {x : ℚ} {n : ℤ} (hn : Even n) : roundEven x < n ↔ x < n - 1 / 2 := by
  constructor
  · intro h
    by_contra hge
    have hfloor : ⌊(n - 1 / 2 : ℚ)⌋ = n - 1 := by
      rw [Int.floor_eq_iff]
      push_cast
      constructor <;> linarith
    have hodd : ¬Even (n - 1) := by
      rw [Int.even_sub_one, not_not]
      exact hn
    have htie : roundEven (n - 1 / 2) = n := by
      unfold roundEven
      rw [hfloor, if_neg (by push_cast; linarith), if_neg (by push_cast; linarith), if_neg hodd]
      ring
    have hmono := roundEven_mono (not_lt.1 hge)
    omega
  · intro h
    have hfloor : ⌊x⌋ < n := Int.floor_lt.2 (by linarith)
    rcases (Int.lt_iff_add_one_le.1 hfloor).lt_or_eq with hlt | heq
    · exact (roundEven_le_floor_add_one x).trans_lt hlt
    · have hcast : (⌊x⌋ : ℚ) = n - 1 := by
        rw [← heq]
        push_cast
        ring
      unfold roundEven
      rw [if_pos (by rw [hcast]; linarith)]
      exact hfloor

theorem roundEven_neg (x : ℚ) : roundEven (-x) = -roundEven x := by
  rcases eq_or_ne x ⌊x⌋ with hint | hne
  · rw [hint, ← Int.cast_neg, roundEven_intCast, roundEven_intCast]
  · have hlt : (⌊x⌋ : ℚ) < x := lt_of_le_of_ne (Int.floor_le x) hne.symm
    have hfloor : ⌊-x⌋ = -⌊x⌋ - 1 := by
      rw [Int.floor_eq_iff]
      push_cast
      have := Int.lt_floor_add_one x
      exact ⟨by linarith, by linarith⟩
    have heven : Even (-⌊x⌋ - 1) ↔ ¬ Even ⌊x⌋ := by
      rw [Int.even_sub_one, even_neg]
    unfold roundEven
    rw [hfloor]
    simp only [heven]
    push_cast
    split_ifs <;> first | omega | linarith

/-! ## Significant bits -/

/-- The unit in the last place of `q` in a format with `p` significant bits. -/
def ulp (p : ℕ) (q : ℚ) : ℚ := 2 ^ (Int.log 2 |q| - (p - 1 : ℤ))

def roundTo (p : ℕ) (q : ℚ) : ℚ := roundEven (q / ulp p q) * ulp p q

theorem ulp_pos (p : ℕ) (q : ℚ) : 0 < ulp p q := zpow_pos (by norm_num) _

theorem roundTo_zero (p : ℕ) : roundTo p 0 = 0 := by
  have hzero : roundEven 0 = 0 := by simpa using roundEven_intCast 0
  rw [roundTo, zero_div, hzero, Int.cast_zero, zero_mul]

/-- Multiples of the unit are bounds of the rounded number. -/
theorem roundTo_le {p : ℕ} {q : ℚ} {n : ℤ} (h : q ≤ n * ulp p q) : roundTo p q ≤ n * ulp p q := by
  have hdiv : q / ulp p q ≤ n := (div_le_iff₀ (ulp_pos p q)).2 h
  have hround := roundEven_mono hdiv
  rw [roundEven_intCast] at hround
  exact mul_le_mul_of_nonneg_right (by exact_mod_cast hround) (ulp_pos p q).le

theorem le_roundTo {p : ℕ} {q : ℚ} {n : ℤ} (h : n * ulp p q ≤ q) : n * ulp p q ≤ roundTo p q := by
  have hdiv : (n : ℚ) ≤ q / ulp p q := (le_div_iff₀ (ulp_pos p q)).2 h
  have hround := roundEven_mono hdiv
  rw [roundEven_intCast] at hround
  exact mul_le_mul_of_nonneg_right (by exact_mod_cast hround) (ulp_pos p q).le

theorem roundTo_nonneg (p : ℕ) {q : ℚ} (h : 0 ≤ q) : 0 ≤ roundTo p q := by
  have hle : ((0 : ℤ) : ℚ) * ulp p q ≤ q := by simpa using h
  simpa using le_roundTo hle

theorem roundTo_nonpos (p : ℕ) {q : ℚ} (h : q ≤ 0) : roundTo p q ≤ 0 := by
  have hle : q ≤ ((0 : ℤ) : ℚ) * ulp p q := by simpa using h
  simpa using roundTo_le hle

theorem roundTo_neg (p : ℕ) (q : ℚ) : roundTo p (-q) = -roundTo p q := by
  have hulp : ulp p (-q) = ulp p q := by rw [ulp, ulp, abs_neg]
  rw [roundTo, roundTo, hulp, neg_div, roundEven_neg, Int.cast_neg, neg_mul]

/-! ## Monotonicity -/

theorem two_zpow_log {p : ℕ} (hp : 0 < p) (q : ℚ) :
    (2 : ℚ) ^ Int.log 2 |q| = ((2 ^ (p - 1) : ℤ) : ℚ) * ulp p q := by
  have hexp : Int.log 2 |q| = (p - 1 : ℕ) + (Int.log 2 |q| - (p - 1 : ℤ)) := by
    rw [Nat.cast_sub hp]
    ring
  rw [ulp, Int.cast_pow, Int.cast_ofNat, ← zpow_natCast, ← zpow_add₀ (by norm_num), ← hexp]

theorem two_zpow_log_add_one (p : ℕ) (q : ℚ) :
    (2 : ℚ) ^ (Int.log 2 |q| + 1) = ((2 ^ p : ℤ) : ℚ) * ulp p q := by
  have hexp : Int.log 2 |q| + 1 = (p : ℤ) + (Int.log 2 |q| - (p - 1 : ℤ)) := by ring
  rw [ulp, Int.cast_pow, Int.cast_ofNat, ← zpow_natCast, ← zpow_add₀ (by norm_num), ← hexp]

/-- Rounding does not leave the binade of a positive number. -/
theorem roundTo_of_pos {p : ℕ} (hp : 0 < p) {q : ℚ} (hq : 0 < q) :
    2 ^ Int.log 2 |q| ≤ roundTo p q ∧ roundTo p q ≤ 2 ^ (Int.log 2 |q| + 1) := by
  have hlow := Int.zpow_log_le_self (b := 2) (by norm_num) (abs_pos.2 hq.ne')
  have hhigh := (Int.lt_zpow_succ_log_self (b := 2) (by norm_num) |q|).le
  rw [Nat.cast_ofNat, abs_of_pos hq, ← abs_of_pos hq] at hlow hhigh
  constructor
  · rw [two_zpow_log hp q] at hlow ⊢
    apply le_roundTo
    rwa [abs_of_pos hq] at hlow
  · rw [two_zpow_log_add_one p q] at hhigh ⊢
    apply roundTo_le
    rwa [abs_of_pos hq] at hhigh

theorem roundTo_of_neg {p : ℕ} (hp : 0 < p) {q : ℚ} (hq : q < 0) :
    -2 ^ (Int.log 2 |q| + 1) ≤ roundTo p q ∧ roundTo p q ≤ -2 ^ Int.log 2 |q| := by
  have hlow := Int.zpow_log_le_self (b := 2) (by norm_num) (abs_pos.2 hq.ne)
  have hhigh := (Int.lt_zpow_succ_log_self (b := 2) (by norm_num) |q|).le
  rw [Nat.cast_ofNat] at hlow hhigh
  constructor
  · rw [two_zpow_log_add_one p q, ← neg_mul, ← Int.cast_neg] at *
    apply le_roundTo
    rw [abs_of_neg hq] at hhigh
    push_cast at hhigh ⊢
    linarith
  · rw [two_zpow_log hp q, ← neg_mul, ← Int.cast_neg] at *
    apply roundTo_le
    rw [abs_of_neg hq] at hlow
    push_cast at hlow ⊢
    linarith

theorem ulp_congr {p : ℕ} {x y : ℚ} (h : Int.log 2 |x| = Int.log 2 |y|) : ulp p x = ulp p y := by
  rw [ulp, ulp, h]

theorem roundTo_mono {p : ℕ} (hp : 0 < p) {x y : ℚ} (h : x ≤ y) : roundTo p x ≤ roundTo p y := by
  -- in one binade both are rounded to the same unit
  have hsame : Int.log 2 |x| = Int.log 2 |y| → roundTo p x ≤ roundTo p y := by
    intro hlog
    rw [roundTo, roundTo, ulp_congr (p := p) hlog]
    apply mul_le_mul_of_nonneg_right _ (ulp_pos p y).le
    exact_mod_cast roundEven_mono (div_le_div_of_nonneg_right h (ulp_pos p y).le)
  rcases le_or_gt x 0 with hx | hx
  · rcases le_or_gt 0 y with hy | hy
    · exact (roundTo_nonpos p hx).trans (roundTo_nonneg p hy)
    · have hxneg : x < 0 := h.trans_lt hy
      have hlog : Int.log 2 |y| ≤ Int.log 2 |x| := by
        apply Int.log_mono_right (abs_pos.2 hy.ne)
        rw [abs_of_neg hy, abs_of_neg hxneg]
        exact neg_le_neg h
      rcases hlog.lt_or_eq with hlt | heq
      · have hpow : (2 : ℚ) ^ (Int.log 2 |y| + 1) ≤ 2 ^ Int.log 2 |x| :=
          zpow_le_zpow_right₀ (by norm_num) hlt
        exact (roundTo_of_neg hp hxneg).2.trans
          ((neg_le_neg hpow).trans (roundTo_of_neg hp hy).1)
      · exact hsame heq.symm
  · have hy : 0 < y := hx.trans_le h
    have hlog : Int.log 2 |x| ≤ Int.log 2 |y| := by
      apply Int.log_mono_right (abs_pos.2 hx.ne')
      rwa [abs_of_pos hx, abs_of_pos hy]
    rcases hlog.lt_or_eq with hlt | heq
    · have hpow : (2 : ℚ) ^ (Int.log 2 |x| + 1) ≤ 2 ^ Int.log 2 |y| :=
        zpow_le_zpow_right₀ (by norm_num) hlt
      exact (roundTo_of_pos hp hx).2.trans (hpow.trans (roundTo_of_pos hp hy).1)
    · exact hsame heq

/-- Integers of `p` bits are not changed. -/
theorem roundTo_intCast {p : ℕ} {n : ℤ} (h : |n| < 2 ^ p) : roundTo p n = n := by
  rcases eq_or_ne n 0 with rfl | hn
  · rw [Int.cast_zero, roundTo_zero]
  · have habs : (0 : ℚ) < |(n : ℚ)| := abs_pos.2 (by exact_mod_cast hn)
    have hlog : Int.log 2 |(n : ℚ)| < p := by
      apply (Int.lt_zpow_iff_log_lt (by norm_num) habs).1
      rw [← Int.cast_abs, zpow_natCast]
      exact_mod_cast h
    -- the number is a multiple of its unit
    obtain ⟨k, hk⟩ : ∃ k : ℕ, (p - 1 : ℤ) - Int.log 2 |(n : ℚ)| = k :=
      Int.eq_ofNat_of_zero_le (by omega)
    have hulp : ulp p n = (2 ^ k)⁻¹ := by
      rw [ulp, ← zpow_natCast, ← zpow_neg, ← hk]
      congr 1
      ring
    have hmul : (n : ℚ) / ulp p n = ((n * 2 ^ k : ℤ) : ℚ) := by
      rw [hulp, div_inv_eq_mul]
      push_cast
      rfl
    rw [roundTo, hmul, roundEven_intCast, ← hmul, div_mul_cancel₀ _ (ulp_pos p n).ne']

/-- Nor are their multiples with a power of two. -/
theorem roundTo_mul_two_pow {p : ℕ} (k : ℕ) {n : ℤ} (h : |n| < 2 ^ p) :
    roundTo p (n * 2 ^ k) = n * 2 ^ k := by
  rcases eq_or_ne n 0 with rfl | hn
  · rw [Int.cast_zero, zero_mul, roundTo_zero]
  · have hne : (n * 2 ^ k : ℚ) ≠ 0 := mul_ne_zero (by exact_mod_cast hn) (by positivity)
    have hlog : Int.log 2 |(n * 2 ^ k : ℚ)| < p + k := by
      apply (Int.lt_zpow_iff_log_lt (by norm_num) (abs_pos.2 hne)).1
      rw [abs_mul, abs_of_pos (by positivity : (0 : ℚ) < 2 ^ k), Nat.cast_ofNat, ← Nat.cast_add,
        zpow_natCast, pow_add, ← Int.cast_abs]
      exact mul_lt_mul_of_pos_right (by exact_mod_cast h) (by positivity)
    obtain ⟨j, hj⟩ : ∃ j : ℕ, (k : ℤ) - (Int.log 2 |(n * 2 ^ k : ℚ)| - (p - 1 : ℤ)) = j :=
      Int.eq_ofNat_of_zero_le (by omega)
    have hmul : (n * 2 ^ k : ℚ) = ((n * 2 ^ j : ℤ) : ℚ) * ulp p (n * 2 ^ k) := by
      have hpow : (2 : ℚ) ^ k = 2 ^ j * ulp p (n * 2 ^ k) := by
        have hexp : (k : ℤ) = j + (Int.log 2 |(n * 2 ^ k : ℚ)| - (p - 1 : ℤ)) := by omega
        rw [ulp, ← zpow_natCast (2 : ℚ) j, ← zpow_add₀ (by norm_num), ← hexp, zpow_natCast]
      rw [Int.cast_mul, Int.cast_pow, Int.cast_ofNat, mul_assoc, ← hpow]
    have hdiv : (n * 2 ^ k : ℚ) / ulp p (n * 2 ^ k) = ((n * 2 ^ j : ℤ) : ℚ) := by
      rw [div_eq_iff (ulp_pos p _).ne']
      exact hmul
    rw [roundTo, hdiv, roundEven_intCast, ← hmul]

end PQL
