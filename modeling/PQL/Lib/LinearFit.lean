import Mathlib

/-!
# Straight lines through samples

The least-squares line through `n` samples goes through their mean at the middle of the index range.
What is left by any line through that point has sum zero (`sum_residual`), and its first moment is
zero exactly if the line has the least-squares slope (`moment_residual_eq_zero_iff`).
-/

namespace PQL

open Finset

/-- The index counted from the middle of `n` indices. -/
def centred (n i : ℕ) : ℚ := i - (n - 1) / 2

def average (n : ℕ) (c : ℕ → ℚ) : ℚ := (∑ i ∈ range n, c i) / n

/-- The slope of the least-squares line. -/
def slope (n : ℕ) (c : ℕ → ℚ) : ℚ :=
  (∑ i ∈ range n, centred n i * c i) / ∑ i ∈ range n, centred n i ^ 2

/-- What a line of slope `b` through the mean leaves. -/
def residual (n : ℕ) (c : ℕ → ℚ) (b : ℚ) (i : ℕ) : ℚ := c i - average n c - b * centred n i

variable {n : ℕ} (c : ℕ → ℚ) (b : ℚ)

theorem sum_range_cast (n : ℕ) : ∑ i ∈ range n, (i : ℚ) = n * (n - 1) / 2 := by
  induction n with
  | zero => simp
  | succ n ih =>
    rw [sum_range_succ, ih]
    push_cast
    ring

theorem sum_range_cast_sq (n : ℕ) : ∑ i ∈ range n, (i : ℚ) ^ 2 = n * (n - 1) * (2 * n - 1) / 6 := by
  induction n with
  | zero => simp
  | succ n ih =>
    rw [sum_range_succ, ih]
    push_cast
    ring

theorem sum_centred (n : ℕ) : ∑ i ∈ range n, centred n i = 0 := by
  unfold centred
  rw [sum_sub_distrib, sum_range_cast, sum_const, card_range, nsmul_eq_mul]
  ring

theorem sum_centred_sq (n : ℕ) : ∑ i ∈ range n, centred n i ^ 2 = n * (n ^ 2 - 1) / 12 := by
  have hterm : ∀ i : ℕ, centred n i ^ 2 = i ^ 2 - (n - 1) * i + ((n - 1) / 2) ^ 2 := fun i => by
    unfold centred
    ring
  simp only [hterm]
  rw [sum_add_distrib, sum_sub_distrib, ← mul_sum, sum_range_cast, sum_range_cast_sq, sum_const,
    card_range, nsmul_eq_mul]
  ring

theorem sum_centred_sq_pos (hn : 2 ≤ n) : 0 < ∑ i ∈ range n, centred n i ^ 2 := by
  rw [sum_centred_sq]
  have hcast : (2 : ℚ) ≤ n := by exact_mod_cast hn
  have hsq : 0 < (n : ℚ) ^ 2 - 1 := by nlinarith
  positivity

theorem sum_eq_mul_average (hn : n ≠ 0) : ∑ i ∈ range n, c i = n * average n c := by
  rw [average, mul_div_cancel₀ _ (Nat.cast_ne_zero.2 hn)]

theorem sum_residual (hn : n ≠ 0) : ∑ i ∈ range n, residual n c b i = 0 := by
  unfold residual
  rw [sum_sub_distrib, sum_sub_distrib, ← mul_sum, sum_centred, sum_const, card_range, nsmul_eq_mul,
    sum_eq_mul_average c hn]
  ring

/-- Moments can be taken about the middle, as the sum is zero. -/
theorem moment_residual (hn : n ≠ 0) :
    ∑ i ∈ range n, (i : ℚ) * residual n c b i =
      ∑ i ∈ range n, centred n i * c i - b * ∑ i ∈ range n, centred n i ^ 2 := by
  have hshift : ∀ i : ℕ, (i : ℚ) * residual n c b i =
      centred n i * c i - average n c * centred n i - b * centred n i ^ 2 +
        (n - 1) / 2 * residual n c b i := fun i => by
    unfold residual centred
    ring
  simp only [hshift]
  rw [sum_add_distrib, sum_sub_distrib, sum_sub_distrib, ← mul_sum, ← mul_sum, ← mul_sum,
    sum_residual c b hn, sum_centred]
  ring

theorem moment_residual_eq_zero_iff (hn : 2 ≤ n) :
    ∑ i ∈ range n, (i : ℚ) * residual n c b i = 0 ↔ b = slope n c := by
  rw [moment_residual c b (by omega), sub_eq_zero, slope, eq_comm,
    eq_div_iff (sum_centred_sq_pos hn).ne']

theorem residual_slope_congr {c c' : ℕ → ℚ} (h : ∀ i < n, c i = c' i) {i : ℕ} (hi : i < n) :
    residual n c (slope n c) i = residual n c' (slope n c') i := by
  have haverage : average n c = average n c' := by
    rw [average, average, sum_congr rfl fun j hj => h j (mem_range.1 hj)]
  have hslope : slope n c = slope n c' := by
    have hsum : ∑ j ∈ range n, centred n j * c j = ∑ j ∈ range n, centred n j * c' j :=
      sum_congr rfl fun j hj => by rw [h j (mem_range.1 hj)]
    rw [slope, slope, hsum]
  rw [residual, residual, h i hi, haverage, hslope]

/-- A line is its own least-squares line. -/
theorem residual_line (hn : 2 ≤ n) (p q : ℚ) (i : ℕ) :
    residual n (fun i => p + q * i) (slope n fun i => p + q * i) i = 0 := by
  have hline : ∀ i : ℕ, p + q * i = p + q * ((n - 1) / 2) + q * centred n i := fun i => by
    unfold centred
    ring
  have haverage : average n (fun i => p + q * i) = p + q * ((n - 1) / 2) := by
    have hcast : (n : ℚ) ≠ 0 := Nat.cast_ne_zero.2 (by omega)
    unfold average
    simp only [hline]
    rw [sum_add_distrib, ← mul_sum, sum_centred, sum_const, card_range, nsmul_eq_mul, mul_zero,
      add_zero, mul_div_cancel_left₀ _ hcast]
  have hslope : slope n (fun i => p + q * i) = q := by
    have hterm : ∀ i : ℕ, centred n i * (p + q * i) =
        (p + q * ((n - 1) / 2)) * centred n i + q * centred n i ^ 2 := fun i => by
      rw [hline i]
      ring
    unfold slope
    simp only [hterm]
    rw [sum_add_distrib, ← mul_sum, ← mul_sum, sum_centred, mul_zero, zero_add,
      mul_div_cancel_right₀ _ (sum_centred_sq_pos hn).ne']
  rw [residual, haverage, hslope, hline i]
  ring

/-- Samples with sum and first moment zero have the zero line. -/
theorem slope_eq_zero (hsum : ∑ i ∈ range n, c i = 0)
    (hmoment : ∑ i ∈ range n, (i : ℚ) * c i = 0) : average n c = 0 ∧ slope n c = 0 := by
  have hterm : ∀ i : ℕ, centred n i * c i = i * c i - (n - 1) / 2 * c i := fun i => by
    unfold centred
    ring
  refine ⟨by rw [average, hsum, zero_div], ?_⟩
  unfold slope
  simp only [hterm]
  rw [sum_sub_distrib, ← mul_sum, hsum, hmoment]
  simp

end PQL
