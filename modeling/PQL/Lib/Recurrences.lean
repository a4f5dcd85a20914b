import Mathlib

/-!
# Linear recurrences with a vanishing input

A recurrence of the first or of the second order whose roots lie inside the unit circle forgets its
state: when its input tends to zero, so does its solution (`tendsto_zero_of_firstOrder`,
`tendsto_zero_of_secondOrder`).  A solution for a geometric input is the geometric sequence of the
same ratio, scaled by the transfer function, up to such a remainder
(`tendsto_steady_of_secondOrder`).
-/

namespace PQL

open Filter Topology

section Contraction

variable {q : ℂ} {u f : ℕ → ℂ}

/-- The solution stays below any bound that it starts below and that its input cannot lift. -/
theorem norm_le_of_firstOrder {B C : ℝ} (hstep : ∀ n, u (n + 1) = q * u n + f n)
    (hf : ∀ n, ‖f n‖ ≤ (1 - ‖q‖) * C) (h₀ : ‖u 0‖ ≤ B + C) (n : ℕ) :
    ‖u n‖ ≤ ‖q‖ ^ n * B + C := by
  induction n with
  | zero => rwa [pow_zero, one_mul]
  | succ n ih =>
    calc ‖u (n + 1)‖ ≤ ‖q‖ * ‖u n‖ + ‖f n‖ := by
          rw [hstep, ← norm_mul]
          exact norm_add_le _ _
      _ ≤ ‖q‖ * (‖q‖ ^ n * B + C) + (1 - ‖q‖) * C := by
          gcongr
          exact hf n
      _ = ‖q‖ ^ (n + 1) * B + C := by ring

/-- A recurrence of the first order. -/
theorem tendsto_zero_of_firstOrder (hq : ‖q‖ < 1) (hstep : ∀ n, u (n + 1) = q * u n + f n)
    (hf : Tendsto f atTop (𝓝 0)) : Tendsto u atTop (𝓝 0) := by
  rw [Metric.tendsto_atTop] at hf ⊢
  intro ε hε
  have hgap : 0 < 1 - ‖q‖ := sub_pos.2 hq
  obtain ⟨N, hN⟩ := hf ((1 - ‖q‖) * (ε / 2)) (by positivity)
  -- from `N` on the input is small, and the state at `N` is forgotten
  have hbound := norm_le_of_firstOrder (u := fun n => u (N + n)) (f := fun n => f (N + n))
    (B := ‖u N‖) (C := ε / 2) (fun n => hstep (N + n))
    (fun n => by simpa using (hN (N + n) (Nat.le_add_right N n)).le) (by simp; positivity)
  have hforget : Tendsto (fun n => ‖q‖ ^ n * ‖u N‖) atTop (𝓝 0) := by
    simpa using (tendsto_pow_atTop_nhds_zero_of_lt_one (norm_nonneg q) hq).mul_const ‖u N‖
  obtain ⟨M, hM⟩ := (hforget.eventually (gt_mem_nhds (half_pos hε))).exists_forall_of_atTop
  refine ⟨N + M, fun n hn => ?_⟩
  obtain ⟨k, rfl⟩ := Nat.exists_eq_add_of_le (le_trans (Nat.le_add_right N M) hn)
  rw [dist_zero_right]
  have hk := hM k (by omega)
  linarith [hbound k]

end Contraction

section SecondOrder

variable {p q : ℂ} {u f : ℕ → ℂ}

/-- A recurrence of the second order with the roots `p` and `q`. -/
theorem tendsto_zero_of_secondOrder (hp : ‖p‖ < 1) (hq : ‖q‖ < 1)
    (hstep : ∀ n, u (n + 2) = (p + q) * u (n + 1) - p * q * u n + f n)
    (hf : Tendsto f atTop (𝓝 0)) : Tendsto u atTop (𝓝 0) := by
  have hinner : Tendsto (fun n => u (n + 1) - q * u n) atTop (𝓝 0) :=
    tendsto_zero_of_firstOrder (q := p) (f := f) hp (fun n => by rw [hstep]; ring) hf
  exact tendsto_zero_of_firstOrder (q := q) hq (fun n => by ring) hinner

/-- The steady state: `y` follows the input `x`, which comes close to `w * z ^ n`. -/
theorem tendsto_steady_of_secondOrder {x y : ℕ → ℂ} {b₁ b₂ w z : ℂ} (hp : ‖p‖ < 1) (hq : ‖q‖ < 1)
    (hz : ‖z‖ = 1)
    (hstep : ∀ n, y (n + 2) =
      (p + q) * y (n + 1) - p * q * y n + (x (n + 2) + b₁ * x (n + 1) + b₂ * x n))
    (hx : Tendsto (fun n => x n - w * z ^ n) atTop (𝓝 0)) :
    Tendsto (fun n => y n - (z ^ 2 + b₁ * z + b₂) / ((z - p) * (z - q)) * w * z ^ n) atTop
      (𝓝 0) := by
  have hpne : z - p ≠ 0 := sub_ne_zero.2 fun h => by rw [← h, hz] at hp; exact lt_irrefl _ hp
  have hqne : z - q ≠ 0 := sub_ne_zero.2 fun h => by rw [← h, hz] at hq; exact lt_irrefl _ hq
  -- the remainder of the output solves the recurrence for the remainder of the input
  refine tendsto_zero_of_secondOrder hp hq (f := fun n =>
    (x (n + 2) - w * z ^ (n + 2)) + b₁ * (x (n + 1) - w * z ^ (n + 1)) + b₂ * (x n - w * z ^ n))
    (fun n => ?_) ?_
  · rw [hstep]
    field_simp
    ring
  · have hone := (hx.comp (tendsto_add_atTop_nat 1)).const_mul b₁
    have htwo := hx.comp (tendsto_add_atTop_nat 2)
    simpa using (htwo.add hone).add (hx.const_mul b₂)

end SecondOrder

end PQL
