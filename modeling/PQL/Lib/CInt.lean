import Mathlib

/-!
# Conversions to C integers

A value stored in an `int` is reduced modulo `2 ^ 32` (`wrap32`), and a `double` that is converted
loses its fraction (`truncate`).  `CArith` collects the conversions that a computation makes, so
that the same definition runs in the arithmetic of the machine or exactly.
-/

namespace PQL

/-- The value of an `int` that was assigned `n`. -/
def wrap32 (n : ℤ) : ℤ := n.bmod (2 ^ 32)

def InIntRange (n : ℤ) : Prop := -2 ^ 31 ≤ n ∧ n < 2 ^ 31

instance (n : ℤ) : Decidable (InIntRange n) := inferInstanceAs (Decidable (_ ∧ _))

theorem wrap32_of_inIntRange {n : ℤ} (h : InIntRange n) : wrap32 n = n :=
  Int.bmod_eq_of_le (by have := h.1; omega) (by have := h.2; omega)

theorem inIntRange_wrap32 (n : ℤ) : InIntRange (wrap32 n) := by
  have hle := Int.le_bmod (x := n) (m := 2 ^ 32) (by decide)
  have hlt := Int.bmod_lt (x := n) (m := 2 ^ 32) (by decide)
  exact ⟨by rw [wrap32]; omega, by rw [wrap32]; omega⟩

/-- The next `2 ^ 32` integers behind the range turn negative first. -/
theorem wrap32_of_large {n : ℤ} (h : 2 ^ 31 ≤ n) (h' : n < 2 ^ 32) : wrap32 n = n - 2 ^ 32 := by
  rw [wrap32, Int.bmod_def, Int.emod_eq_of_lt (by omega) (by omega), if_neg (by omega)]
  rfl

theorem wrap32_eq_sub (n : ℤ) : ∃ k, wrap32 n = n - 2 ^ 32 * k := by
  rw [wrap32, Int.bmod_def]
  have hdiv := Int.emod_add_mul_ediv n (2 ^ 32 : ℕ)
  split_ifs
  · exact ⟨n / (2 ^ 32 : ℕ), by push_cast at hdiv ⊢; omega⟩
  · exact ⟨n / (2 ^ 32 : ℕ) + 1, by push_cast at hdiv ⊢; omega⟩

@[simp] theorem wrap32_wrap32 (n : ℤ) : wrap32 (wrap32 n) = wrap32 n := Int.bmod_bmod

theorem wrap32_wrap32_add (m n : ℤ) : wrap32 (wrap32 m + n) = wrap32 (m + n) := Int.bmod_add_bmod

/-- Conversion of a `double` to an integer type. -/
def truncate (q : ℚ) : ℤ := q.num.tdiv q.den

@[simp] theorem truncate_intCast (n : ℤ) : truncate n = n := by simp [truncate]

theorem truncate_nonneg {q : ℚ} (h : 0 ≤ q) : 0 ≤ truncate q :=
  Int.tdiv_nonneg (Rat.num_nonneg.2 h) (Int.natCast_nonneg _)

theorem truncate_of_nonneg {q : ℚ} (h : 0 ≤ q) : truncate q = ⌊q⌋ := by
  rw [truncate, Rat.floor_def', Int.tdiv_eq_ediv_of_nonneg (Rat.num_nonneg.2 h)]

theorem truncate_neg (q : ℚ) : truncate (-q) = -truncate q := by
  rw [truncate, truncate, Rat.neg_num, Rat.neg_den, Int.neg_tdiv]

theorem truncate_of_nonpos {q : ℚ} (h : q ≤ 0) : truncate q = ⌈q⌉ := by
  rw [← neg_neg q, truncate_neg, truncate_of_nonneg (neg_nonneg.2 h), Int.floor_neg, neg_neg,
    neg_neg]

theorem truncate_mono {x y : ℚ} (h : x ≤ y) : truncate x ≤ truncate y := by
  have hneg : ∀ q : ℚ, q ≤ 0 → truncate q = -⌊-q⌋ := fun q hq => by
    rw [← truncate_of_nonneg (neg_nonneg.2 hq), truncate_neg, neg_neg]
  rcases le_total 0 x with hx | hx
  · rw [truncate_of_nonneg hx, truncate_of_nonneg (hx.trans h)]
    exact Int.floor_le_floor h
  · rcases le_total 0 y with hy | hy
    · have hx' : truncate x ≤ 0 := by
        rw [hneg x hx]
        exact neg_nonpos.2 (Int.floor_nonneg.2 (neg_nonneg.2 hx))
      exact hx'.trans (truncate_nonneg hy)
    · rw [hneg x hx, hneg y hy]
      exact neg_le_neg (Int.floor_le_floor (neg_le_neg h))

theorem truncate_pos_iff {q : ℚ} : 0 < truncate q ↔ 1 ≤ q := by
  rcases le_total 0 q with hq | hq
  · rw [truncate_of_nonneg hq, Int.floor_pos]
  · have hle : truncate q ≤ 0 := by
      rw [← truncate_intCast 0]
      exact truncate_mono (by exact_mod_cast hq)
    constructor
    · exact fun h => absurd h hle.not_gt
    · exact fun h => absurd (h.trans hq) (by norm_num)

theorem truncate_neg_iff {q : ℚ} : truncate q < 0 ↔ q ≤ -1 := by
  rw [← neg_pos, ← truncate_neg, truncate_pos_iff, le_neg]

/-- The quotient of two integers is truncated as C does it. -/
theorem truncate_div (n : ℤ) (d : ℕ) : truncate ((n : ℚ) / d) = n.tdiv d := by
  have hnonneg : ∀ m : ℤ, 0 ≤ m → truncate ((m : ℚ) / d) = m.tdiv d := by
    intro m hm
    rw [truncate_of_nonneg (div_nonneg (Int.cast_nonneg hm) (Nat.cast_nonneg d)),
      Rat.floor_intCast_div_natCast, Int.tdiv_eq_ediv_of_nonneg hm]
  rcases le_total 0 n with hn | hn
  · exact hnonneg n hn
  · have := hnonneg (-n) (Int.neg_nonneg_of_nonpos hn)
    rw [Int.cast_neg, neg_div, truncate_neg, Int.neg_tdiv, neg_inj] at this
    exact this

theorem abs_truncate (q : ℚ) : |truncate q| = ⌊|q|⌋ := by
  rcases le_total 0 q with hq | hq
  · rw [abs_of_nonneg hq, abs_of_nonneg (truncate_nonneg hq), truncate_of_nonneg hq]
  · have hneg := neg_nonneg.2 hq
    rw [abs_of_nonpos hq, ← truncate_of_nonneg hneg, truncate_neg, abs_of_nonpos]
    rw [← neg_nonneg, ← truncate_neg]
    exact truncate_nonneg hneg

/-- A signed result; C does not define one that is out of range. -/
def signed (n : ℤ) : Option ℤ := if InIntRange n then some n else none

/-- A conversion of a `double` to `int`; C does not define one that is out of range. -/
def toInt (q : ℚ) : Option ℤ := signed (truncate q)

theorem signed_eq_some {n m : ℤ} : signed n = some m ↔ n = m ∧ InIntRange n := by
  unfold signed
  split_ifs with h
  · simp [h]
  · simp [h]

theorem toInt_eq_some {q : ℚ} {m : ℤ} :
    toInt q = some m ↔ truncate q = m ∧ InIntRange (truncate q) :=
  signed_eq_some

/-- The integer part of a quotient of `double`s; there is none when the divisor is zero. -/
def quotient (x d : ℚ) : Option ℤ := if d = 0 then none else some (truncate (x / d))

theorem quotient_mul_self {d : ℚ} (hd : d ≠ 0) (n : ℤ) : quotient (n * d) d = some n := by
  rw [quotient, if_neg hd, mul_div_assoc, div_self hd, mul_one, truncate_intCast]

/-- Storing an integer in an `int` and a `double` in an `hptime_t`. -/
structure CArith where
  int : ℤ → ℤ
  hptime : ℚ → ℚ

/-- No conversion loses anything. -/
def exactArith : CArith := ⟨id, id⟩

@[simp] theorem exactArith_int (n : ℤ) : exactArith.int n = n := rfl

@[simp] theorem exactArith_hptime (q : ℚ) : exactArith.hptime q = q := rfl

def machineArith : CArith := ⟨wrap32, fun q => truncate q⟩

/-- A quotient stored in an `int`; an infinite one is stored as `INT_MIN`. -/
def CArith.ofQuotient (A : CArith) (q : Option ℤ) : ℤ := A.int (q.getD (-2 ^ 31))

@[simp] theorem exactArith_ofQuotient_some (n : ℤ) : exactArith.ofQuotient (some n) = n := rfl

end PQL
