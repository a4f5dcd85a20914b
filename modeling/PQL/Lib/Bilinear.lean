import PQL.Lib.Arrays

/-!
# The bilinear transform of Butterworth poles

`bilinear` takes the left half plane to the inside of the unit circle
(`norm_bilinear_lt_one_iff`) and the imaginary axis to the circle (`bilinear_tan`).  The poles of a
Butterworth filter lie on a half circle at equal angles, and the product of their resonances is the
sum of two powers (`prod_resonance`).
-/

namespace PQL

open ComplexConjugate

/-! ## The transform -/

noncomputable def bilinear (s : ℂ) : ℂ := (1 + s) / (1 - s)

theorem norm_bilinear_lt_one_iff {s : ℂ} (hs : s ≠ 1) : ‖bilinear s‖ < 1 ↔ s.re < 0 := by
  have hpos : 0 < ‖1 - s‖ := norm_pos_iff.2 (sub_ne_zero.2 hs.symm)
  have hadd : ‖1 + s‖ ^ 2 = (1 + s.re) ^ 2 + s.im ^ 2 := by
    rw [← Complex.normSq_eq_norm_sq, Complex.normSq_apply]
    simp
    ring
  have hsub : ‖1 - s‖ ^ 2 = (1 - s.re) ^ 2 + s.im ^ 2 := by
    rw [← Complex.normSq_eq_norm_sq, Complex.normSq_apply]
    simp
    ring
  rw [bilinear, norm_div, div_lt_one hpos, ← sq_lt_sq₀ (norm_nonneg _) (norm_nonneg _), hadd, hsub]
  constructor <;> intro h <;> nlinarith

theorem bilinear_tan {ω : ℝ} (hω : Real.cos (ω / 2) ≠ 0) :
    bilinear (Complex.I * Real.tan (ω / 2)) = Complex.exp (ω * Complex.I) := by
  have hcos : (Real.cos (ω / 2) : ℂ) ≠ 0 := Complex.ofReal_ne_zero.2 hω
  have hhalf : Complex.exp (ω * Complex.I) =
      Complex.exp ((ω / 2 : ℝ) * Complex.I) / Complex.exp (-(ω / 2 : ℝ) * Complex.I) := by
    rw [← Complex.exp_sub]
    congr 1
    push_cast
    ring
  have hden : Complex.exp (-(ω / 2 : ℝ) * Complex.I) =
      Real.cos (ω / 2) * (1 - Complex.I * Real.tan (ω / 2)) := by
    rw [Complex.exp_mul_I, Complex.cos_neg, Complex.sin_neg, ← Complex.ofReal_cos,
      ← Complex.ofReal_sin, Real.tan_eq_sin_div_cos, Complex.ofReal_div]
    field_simp
    ring
  have hnum : Complex.exp ((ω / 2 : ℝ) * Complex.I) =
      Real.cos (ω / 2) * (1 + Complex.I * Real.tan (ω / 2)) := by
    rw [Complex.exp_mul_I, ← Complex.ofReal_cos, ← Complex.ofReal_sin, Real.tan_eq_sin_div_cos,
      Complex.ofReal_div]
    field_simp
  rw [hhalf, hnum, hden, mul_div_mul_left _ _ hcos, bilinear]

theorem bilinear_conj (p : ℂ) : bilinear (conj p) = conj (bilinear p) := by
  simp [bilinear]

section Sections

variable {s p : ℂ}

theorem bilinear_sub (hs : s ≠ 1) (hp : p ≠ 1) :
    bilinear s - bilinear p = 2 * (s - p) / ((1 - s) * (1 - p)) := by
  have hs' := sub_ne_zero.2 hs.symm
  have hp' := sub_ne_zero.2 hp.symm
  unfold bilinear
  field_simp
  ring

theorem conj_ne_one (hp : p ≠ 1) : conj p ≠ 1 := fun h => hp (by simpa using congrArg conj h)

/-- A low-pass section with its gain. -/
theorem lowSection_bilinear (hs : s ≠ 1) (hp : p ≠ 1) :
    (1 - bilinear p) * (1 - bilinear (conj p)) / 4 *
      ((bilinear s + 1) ^ 2 / ((bilinear s - bilinear p) * (bilinear s - bilinear (conj p)))) =
      p * conj p / ((s - p) * (s - conj p)) := by
  have hs' := sub_ne_zero.2 hs.symm
  have hp' := sub_ne_zero.2 hp.symm
  have hc' := sub_ne_zero.2 (conj_ne_one hp).symm
  rw [bilinear_sub hs hp, bilinear_sub hs (conj_ne_one hp)]
  unfold bilinear
  field_simp
  ring

/-- A high-pass section with its gain. -/
theorem highSection_bilinear (hs : s ≠ 1) (hp : p ≠ 1) :
    (1 + bilinear p) * (1 + bilinear (conj p)) / 4 *
      ((bilinear s - 1) ^ 2 / ((bilinear s - bilinear p) * (bilinear s - bilinear (conj p)))) =
      s ^ 2 / ((s - p) * (s - conj p)) := by
  have hs' := sub_ne_zero.2 hs.symm
  have hp' := sub_ne_zero.2 hp.symm
  have hc' := sub_ne_zero.2 (conj_ne_one hp).symm
  rw [bilinear_sub hs hp, bilinear_sub hs (conj_ne_one hp)]
  unfold bilinear
  field_simp
  ring

/-- The transform from a low pass to a high pass inverts the analog pole. -/
theorem bilinear_lowToHigh {α : ℂ} (hp : p ≠ 1) (hp₀ : p ≠ 0) (hα : 1 + α ≠ 0)
    (hden : (1 - α) - p * (1 + α) ≠ 0) :
    (α - bilinear p) / (1 - α * bilinear p) = bilinear ((1 - α) / (1 + α) / p) ∧
      1 - α * bilinear p ≠ 0 := by
  have hp' := sub_ne_zero.2 hp.symm
  have hone : 1 - α * bilinear p = ((1 - α) - p * (1 + α)) / (1 - p) := by
    unfold bilinear
    field_simp
    ring
  have htwo : 1 - (1 - α) / (1 + α) / p = -((1 - α) - p * (1 + α)) / ((1 + α) * p) := by
    field_simp
    ring
  refine ⟨?_, ?_⟩
  · rw [hone]
    nth_rewrite 2 [bilinear]
    rw [htwo]
    unfold bilinear
    field_simp
    ring
  · rw [hone]
    exact div_ne_zero hden hp'

end Sections

/-! ## Poles on a half circle -/

/-- A pole of the radius `r`, by its angle from the negative axis. -/
noncomputable def circlePole (r φ : ℝ) : ℂ := ⟨-(r * Real.cos φ), r * Real.sin φ⟩

theorem circlePole_mul_conj (r φ : ℝ) : circlePole r φ * conj (circlePole r φ) = (r : ℂ) ^ 2 := by
  rw [Complex.mul_conj, Complex.normSq_apply, circlePole, ← Complex.ofReal_pow,
    Complex.ofReal_inj]
  linear_combination r ^ 2 * Real.sin_sq_add_cos_sq φ

theorem div_circlePole (κ : ℝ) {r : ℝ} (hr : r ≠ 0) (φ : ℝ) :
    κ / circlePole r φ = circlePole (κ / r) (-φ) := by
  have hprod := circlePole_mul_conj r φ
  have hr' : (r : ℂ) ≠ 0 := Complex.ofReal_ne_zero.2 hr
  have hne : circlePole r φ ≠ 0 := left_ne_zero_of_mul (hprod ▸ pow_ne_zero 2 hr')
  have hconj : circlePole (κ / r) (-φ) = κ / r ^ 2 * conj (circlePole r φ) := by
    rw [← Complex.ofReal_pow, ← Complex.ofReal_div]
    apply Complex.ext
    · rw [Complex.re_ofReal_mul, circlePole, Complex.conj_re, circlePole, Real.cos_neg]
      field_simp
    · rw [Complex.im_ofReal_mul, circlePole, Complex.conj_im, circlePole, Real.sin_neg]
      field_simp
  rw [div_eq_iff hne, hconj, mul_assoc, mul_comm (conj _), hprod,
    div_mul_cancel₀ _ (pow_ne_zero 2 hr')]

/-- The resonance of a pair of poles on the imaginary axis. -/
theorem normSq_resonance (r φ x : ℝ) :
    Complex.normSq ((Complex.I * x - circlePole r φ) * (Complex.I * x - conj (circlePole r φ))) =
      (x ^ 2) ^ 2 + 2 * x ^ 2 * r ^ 2 * Real.cos (2 * φ) + (r ^ 2) ^ 2 := by
  rw [Complex.normSq_mul, Complex.normSq_apply, Complex.normSq_apply, circlePole, Real.cos_two_mul]
  simp
  have hsin : Real.sin φ ^ 2 = 1 - Real.cos φ ^ 2 := Real.sin_sq φ
  ring_nf
  rw [show Real.sin φ ^ 4 = (Real.sin φ ^ 2) ^ 2 by ring, hsin]
  ring

/-- The angle of the pole pair `k` of `2 * m` poles, doubled. -/
noncomputable def poleAngle (m k : ℕ) : ℝ := (2 * k + 1) * Real.pi / (2 * m)

/-- The roots of `-1` of an even order, as points of the circle. -/
noncomputable def circlePoint (m k : ℕ) : ℂ := Complex.exp (poleAngle m k * Complex.I)

theorem prod_circlePoint {m : ℕ} (hm : 0 < m) (a b : ℂ) :
    ∏ k ∈ Finset.range (2 * m), (a - circlePoint m k * b) = a ^ (2 * m) + b ^ (2 * m) := by
  have hm' : (m : ℂ) ≠ 0 := Nat.cast_ne_zero.2 hm.ne'
  have hroot := Complex.isPrimitiveRoot_exp (2 * m) (by omega)
  have hneg : Complex.exp (Real.pi / (2 * m) * Complex.I) ^ (2 * m) = -1 := by
    rw [← Complex.exp_nat_mul, ← Complex.exp_pi_mul_I]
    congr 1
    push_cast
    field_simp
  have hpow : (Complex.exp (Real.pi / (2 * m) * Complex.I) * b) ^ (2 * m) = -b ^ (2 * m) := by
    rw [mul_pow, hneg, neg_one_mul]
  have hprod := congrArg (Polynomial.eval a) (X_pow_sub_C_eq_prod hroot (by omega) hpow)
  have hpoint : ∀ k : ℕ, Complex.exp (2 * Real.pi * Complex.I / (2 * m : ℕ)) ^ k *
      (Complex.exp (Real.pi / (2 * m) * Complex.I) * b) = circlePoint m k * b := by
    intro k
    rw [circlePoint, poleAngle, ← Complex.exp_nat_mul, ← mul_assoc, ← Complex.exp_add]
    congr 2
    push_cast
    field_simp
  simp only [Polynomial.eval_sub, Polynomial.eval_pow, Polynomial.eval_X, Polynomial.eval_C,
    Polynomial.eval_prod, hpoint] at hprod
  rw [← hprod, sub_neg_eq_add]

theorem circlePoint_reflect {m k : ℕ} (hk : k < m) :
    circlePoint m (m + (m - 1 - k)) = conj (circlePoint m k) := by
  have hm : (m : ℂ) ≠ 0 := Nat.cast_ne_zero.2 (by omega)
  have hconj : conj (circlePoint m k) = Complex.exp (-(poleAngle m k * Complex.I)) := by
    rw [circlePoint, ← Complex.exp_conj, map_mul, Complex.conj_I, Complex.conj_ofReal, mul_neg]
  rw [hconj, circlePoint, Complex.exp_eq_exp_iff_exists_int]
  refine ⟨1, ?_⟩
  rw [poleAngle, poleAngle, show m + (m - 1 - k) = 2 * m - 1 - k by omega,
    Nat.cast_sub (by omega), Nat.cast_sub (by omega)]
  push_cast
  field_simp
  ring

/-- The resonances of all pairs make a sum of two powers. -/
theorem prod_quadratic {m : ℕ} (hm : 0 < m) (a b : ℝ) :
    ∏ k ∈ Finset.range m, (a ^ 2 + 2 * a * b * Real.cos (poleAngle m k) + b ^ 2) =
      a ^ (2 * m) + b ^ (2 * m) := by
  have hpair : ∀ k ∈ Finset.range m,
      ((a ^ 2 + 2 * a * b * Real.cos (poleAngle m k) + b ^ 2 : ℝ) : ℂ) =
        (a - circlePoint m k * (-b : ℝ)) * (a - circlePoint m (m + (m - 1 - k)) * (-b : ℝ)) := by
    intro k hk
    have hcos : circlePoint m k + conj (circlePoint m k) = 2 * Real.cos (poleAngle m k) := by
      rw [Complex.add_conj, circlePoint, Complex.exp_ofReal_mul_I_re]
      push_cast
      rfl
    have hunit : circlePoint m k * conj (circlePoint m k) = 1 := by
      rw [Complex.mul_conj, Complex.normSq_eq_norm_sq, circlePoint, Complex.norm_exp_ofReal_mul_I]
      norm_num
    rw [circlePoint_reflect (Finset.mem_range.1 hk)]
    rw [Complex.ofReal_add, Complex.ofReal_add, Complex.ofReal_mul _ (Real.cos _)]
    push_cast [-Complex.ofReal_cos]
    linear_combination -(a * b : ℂ) * hcos - (b : ℂ) ^ 2 * hunit
  have hcast : ((a ^ (2 * m) + b ^ (2 * m) : ℝ) : ℂ) =
      ∏ k ∈ Finset.range (2 * m), (a - circlePoint m k * (-b : ℝ)) := by
    rw [prod_circlePoint hm]
    push_cast
    rw [Even.neg_pow (even_two_mul m)]
  rw [← Complex.ofReal_inj, hcast, Complex.ofReal_prod, Finset.prod_congr rfl hpair,
    Finset.prod_mul_distrib, two_mul, Finset.prod_range_add]
  congr 1
  exact Finset.prod_range_reflect (fun k => (a : ℂ) - circlePoint m (m + k) * (-b : ℝ)) m

end PQL
