import Mathlib
import PQL.Transform.Fft

/-!
# The Fourier transform of real data

`cfftr` takes the data as half as many complex samples, transforms them, and untangles the result in
place from both ends; `cfftri` tangles it again and transforms it back.  The two loops over the
pairs are the same.
-/

namespace PQL

namespace Fft

section Routine

variable {R : Type} [Field R]

/-! ## The routines -/

/-- The loop that the two routines share. -/
structure Tangle (R : Type) where
  x : ℕ → R
  j : ℕ
  wr : R
  wi : R

/-- A pass: the complex entries `i` and `j`, counted from one. -/
def tangleStep (wwr wwi : R) (s : Tangle R) (i : ℕ) : Tangle R :=
  let wr := s.wr * wwr - s.wi * wwi
  let wi := s.wr * wwi + s.wi * wwr
  let k1j := 2 * s.j - 1
  let k1i := 2 * i - 1
  let k2j := 2 * s.j
  let k2i := 2 * i
  let a1 := 1 / 2 * (s.x (k1i - 1) + s.x (k1j - 1))
  let a2 := 1 / 2 * (s.x (k2i - 1) - s.x (k2j - 1))
  let b1 := 1 / 2 * (-s.x (k1i - 1) + s.x (k1j - 1))
  let b2 := 1 / 2 * (-s.x (k2i - 1) - s.x (k2j - 1))
  let t := b1
  let b1 := b1 * wr + b2 * wi
  let b2 := b2 * wr - t * wi
  let x := Function.update s.x (k1i - 1) (a1 - b2)
  let x := Function.update x (k2i - 1) (-a2 - b1)
  let x := Function.update x (k1j - 1) (a1 + b2)
  let x := Function.update x (k2j - 1) (a2 - b1)
  ⟨x, s.j - 1, wr, wi⟩

/-- `for (i = 2; i <= nm; i++)` -/
def tanglePairs (trig : Trig R) (x : ℕ → R) (n : ℕ) : ℕ → R :=
  let nn := n / 2
  let nm := nn / 2
  let ex := trig.twoPi / n
  (strideLoop 2 (nm + 1) 1 (tangleStep (trig.cos ex) (-trig.sin ex)) ⟨x, nn, 1, 0⟩).x

/-- The first entry, the last one and the middle, before the pairs of `cfftr`. -/
def unpackEnds (x : ℕ → R) (n nn : ℕ) : ℕ → R :=
  let s := x 0
  let x := Function.update x 0 (x 0 + x 1)
  let x := Function.update x n (s - x 1)
  let x := Function.update x 1 0
  let x := Function.update x (n + 1) 0
  Function.update x (nn + 1) (-x (nn + 1))

/-- The first entry and the middle, before the pairs of `cfftri`. -/
def packEnds (x : ℕ → R) (n nn : ℕ) : ℕ → R :=
  let s := x 0
  let x := Function.update x 0 (1 / 2 * (x 0 + x n))
  let x := Function.update x 1 (1 / 2 * (s - x n))
  Function.update x (nn + 1) (-x (nn + 1))

/-- `cfftr` -/
def cfftr (trig : Trig R) (x : ℕ → R) (n : ℕ) : Option (ℕ → R) :=
  (cfour trig x (n / 2) 1).map fun x => tanglePairs trig (unpackEnds x n (n / 2)) n

/-- `cfftri` -/
def cfftri (trig : Trig R) (x : ℕ → R) (n : ℕ) : Option (ℕ → R) :=
  cfour trig (tanglePairs trig (packEnds x n (n / 2)) n) (n / 2) (-1)

end Routine

/-! ## The pairs -/

section Pairs

open ComplexConjugate

/-- The real and the imaginary part, with the names of the source. -/
theorem untangle_mk (wr wi z₁ z₂ u₁ u₂ : ℝ) :
    untangle ⟨wr, wi⟩ ⟨z₁, z₂⟩ ⟨u₁, u₂⟩ =
      ⟨1 / 2 * (z₁ + u₁) - (1 / 2 * (-z₂ - u₂) * wr - 1 / 2 * (-z₁ + u₁) * wi),
        -(1 / 2 * (z₂ - u₂)) - (1 / 2 * (-z₁ + u₁) * wr + 1 / 2 * (-z₂ - u₂) * wi)⟩ := by
  have hI : Complex.I * Complex.I = -1 := Complex.I_mul_I
  have hconj : conj (⟨z₁, z₂⟩ : ℂ) = z₁ - z₂ * Complex.I := by
    rw [Complex.mk_eq_add_mul_I, map_add, map_mul, Complex.conj_ofReal, Complex.conj_ofReal,
      Complex.conj_I, mul_neg, ← sub_eq_add_neg]
  unfold untangle
  rw [hconj]
  simp only [Complex.mk_eq_add_mul_I]
  push_cast
  linear_combination
    (1 / 2 * (wi * (z₁ - u₁) + wr * (-z₂ - u₂) + wi * Complex.I * (-z₂ - u₂)) : ℂ) * hI

theorem entry_tangleStep (s : Tangle ℝ) {wwr wwi : ℝ} {w : ℂ} {t u : ℕ} (hj : s.j = u + 1)
    (hw : w = ⟨s.wr * wwr - s.wi * wwi, s.wr * wwi + s.wi * wwr⟩) (htu : t ≠ u) (p : ℕ) :
    entry (tangleStep wwr wwi s (t + 1)).x p =
      if p = t then untangle w (entry s.x t) (entry s.x u)
      else if p = u then untangle (-conj w) (entry s.x u) (entry s.x t)
      else entry s.x p := by
  have hother : ∀ i j : ℕ, 2 * i ≠ 2 * j + 1 := fun i j => by omega
  have hodd : ∀ i : ℕ, 2 * (i + 1) - 1 = 2 * i + 1 := fun i => by omega
  have hback : -conj w = ⟨-(s.wr * wwr - s.wi * wwi), s.wr * wwi + s.wi * wwr⟩ := by
    rw [hw]
    apply Complex.ext
    · rfl
    · exact neg_neg _
  rw [hback, hw]
  unfold tangleStep entry
  rw [hj]
  simp only [hodd, Nat.add_sub_cancel, Function.update_apply, Nat.add_right_cancel_iff, hother,
    (hother _ _).symm, mul_right_inj' two_ne_zero, if_false, untangle_mk]
  by_cases hpt : p = t
  · have hpu : p ≠ u := fun h => htu (hpt.symm.trans h)
    simp only [if_pos hpt, if_neg hpu]
  · by_cases hpu : p = u
    · simp only [if_neg hpt, if_pos hpu]
      apply Complex.ext
      · dsimp only
        ring
      · dsimp only
        ring
    · simp only [if_neg hpt, if_neg hpu]

/-- The root of unity of the transform of `2 * 2 ^ k` samples. -/
noncomputable def root (k : ℕ) : ℂ := turn (-1) (k + 1)

theorem root_mul_conj (k : ℕ) : root k * conj (root k) = 1 := by
  rw [root, turn_eq, Complex.mul_conj, Complex.normSq_mk, ← pow_two, ← pow_two,
    Real.cos_sq_add_sin_sq, Complex.ofReal_one]

theorem root_pow_mul_conj (k p : ℕ) : root k ^ p * conj (root k ^ p) = 1 := by
  rw [map_pow, ← mul_pow, root_mul_conj, one_pow]

theorem root_half (k : ℕ) : root k ^ 2 ^ k = -1 := (turn_tower (.inr rfl)).half k

theorem conj_turn (s : ℕ) : conj (turn (-1) s) = turn 1 s := by
  rw [turn_eq, turn_eq, Int.cast_neg, Int.cast_one, neg_one_mul, one_mul, div_neg, Real.cos_neg,
    Real.sin_neg]
  apply Complex.ext
  · rfl
  · exact neg_neg _

theorem conj_root_sq (k : ℕ) : conj (root k) ^ 2 = turn 1 k := by
  rw [root, conj_turn, (turn_tower (.inl rfl)).sq]

/-- The twiddle of the opposite entry. -/
theorem root_opposite {k p : ℕ} (hp : p ≤ 2 ^ k) : root k ^ (2 ^ k - p) = -conj (root k ^ p) := by
  have hsum : root k ^ (2 ^ k - p) * root k ^ p = -1 := by
    rw [← pow_add, Nat.sub_add_cancel hp, root_half]
  calc root k ^ (2 ^ k - p)
      = root k ^ (2 ^ k - p) * (root k ^ p * conj (root k ^ p)) := by
        rw [root_pow_mul_conj, mul_one]
    _ = root k ^ (2 ^ k - p) * root k ^ p * conj (root k ^ p) := by ring
    _ = -conj (root k ^ p) := by rw [hsum, neg_one_mul]

/-- All pairs but the first entry and the middle are untangled. -/
theorem entry_tanglePairs (k : ℕ) (x : ℕ → ℝ) (p : ℕ) :
    entry (tanglePairs exact x (2 ^ (k + 2))) p =
      if 0 < p ∧ p < 2 ^ (k + 1) ∧ p ≠ 2 ^ k then
        untangle (root (k + 1) ^ p) (entry x p) (entry x (2 ^ (k + 1) - p))
      else entry x p := by
  have hnn : 2 ^ (k + 2) / 2 = 2 ^ (k + 1) := by
    rw [pow_succ]
    exact Nat.mul_div_cancel _ two_pos
  have hnm : 2 ^ (k + 1) / 2 = 2 ^ k := by
    rw [pow_succ]
    exact Nat.mul_div_cancel _ two_pos
  have hpos : 0 < 2 ^ k := Nat.two_pow_pos k
  have hdouble : 2 ^ (k + 1) = 2 * 2 ^ k := pow_succ' 2 k
  have hpasses : strides 2 (2 ^ k + 1) 1 = 2 ^ k - 1 := by
    unfold strides
    omega
  have hroot : root (k + 1) = ⟨Real.cos (2 * Real.pi / 2 ^ (k + 2)),
      -Real.sin (2 * Real.pi / 2 ^ (k + 2))⟩ := by
    rw [root, turn_eq, Int.cast_neg, Int.cast_one, neg_one_mul, div_neg, Real.cos_neg, Real.sin_neg]
  have hloop := strideLoop_invariant 2 (2 ^ k + 1) 1
    (tangleStep (Real.cos (2 * Real.pi / 2 ^ (k + 2)))
      (-Real.sin (2 * Real.pi / 2 ^ (k + 2)))) ⟨x, 2 ^ (k + 1), 1, 0⟩
    (fun m s => s.j = 2 ^ (k + 1) - m ∧ root (k + 1) ^ m = ⟨s.wr, s.wi⟩ ∧ ∀ p, entry s.x p =
      if (0 < p ∧ p ≤ m) ∨ (2 ^ (k + 1) - m ≤ p ∧ p < 2 ^ (k + 1)) then
        untangle (root (k + 1) ^ p) (entry x p) (entry x (2 ^ (k + 1) - p))
      else entry x p) ?_ ?_
  · rw [hpasses] at hloop
    have hcast : ((2 ^ (k + 2) : ℕ) : ℝ) = 2 ^ (k + 2) := by rw [Nat.cast_pow, Nat.cast_ofNat]
    unfold tanglePairs
    dsimp only
    rw [hnn, hnm, hcast]
    refine (hloop.2.2 p).trans (if_congr ?_ rfl rfl)
    omega
  · refine ⟨rfl, pow_zero _, fun p => ?_⟩
    rw [if_neg (by omega)]
  · rintro m hm s ⟨hj, hw, hentry⟩
    rw [hpasses] at hm
    have hindex : 2 + m * 1 = m + 1 + 1 := by ring
    have htwiddle : root (k + 1) ^ (m + 1) =
        ⟨s.wr * Real.cos (2 * Real.pi / 2 ^ (k + 2)) - s.wi * -Real.sin (2 * Real.pi / 2 ^ (k + 2)),
          s.wr * -Real.sin (2 * Real.pi / 2 ^ (k + 2)) +
            s.wi * Real.cos (2 * Real.pi / 2 ^ (k + 2))⟩ := by
      rw [pow_succ, hw, hroot]
      rfl
    have hother : ∀ q, m < q → q < 2 ^ (k + 1) - m → entry s.x q = entry x q := by
      intro q hlow hhigh
      rw [hentry q, if_neg (by omega)]
    have hopposite : 2 ^ (k + 1) - (2 ^ (k + 1) - (m + 1)) = m + 1 := by omega
    refine ⟨?_, ?_, fun p => ?_⟩
    · unfold tangleStep
      dsimp only
      omega
    · rw [htwiddle]
      rfl
    · rw [hindex, entry_tangleStep s (u := 2 ^ (k + 1) - (m + 1)) (by omega) htwiddle (by omega),
        hother _ (by omega) (by omega), hother _ (by omega) (by omega)]
      by_cases hpt : p = m + 1
      · rw [if_pos hpt, if_pos (by omega), hpt]
      · by_cases hpu : p = 2 ^ (k + 1) - (m + 1)
        · rw [if_neg hpt, if_pos hpu, if_pos (by omega), hpu, hopposite, root_opposite (by omega)]
        · rw [if_neg hpt, if_neg hpu, hentry p]
          refine if_congr ?_ rfl rfl
          omega

/-! ## The ends -/

theorem unpackEnds_apply (x : ℕ → ℝ) {h : ℕ} (hh : 0 < h) (t : ℕ) :
    unpackEnds x (2 * (2 * h)) (2 * h) t =
      if t = 2 * h + 1 then -x t else if t = 2 * (2 * h) + 1 then 0 else if t = 1 then 0
      else if t = 2 * (2 * h) then x 0 - x 1 else if t = 0 then x 0 + x 1 else x t := by
  have hone : ∀ v, Function.update x 0 v 1 = x 1 := fun v => Function.update_of_ne one_ne_zero _ _
  have hmiddle : ∀ v₁ v₂ v₃ v₄, Function.update (Function.update (Function.update
      (Function.update x 0 v₁) (2 * (2 * h)) v₂) 1 v₃) (2 * (2 * h) + 1) v₄ (2 * h + 1) =
        x (2 * h + 1) := by
    intro v₁ v₂ v₃ v₄
    rw [Function.update_of_ne (by omega), Function.update_of_ne (by omega),
      Function.update_of_ne (by omega), Function.update_of_ne (by omega)]
  unfold unpackEnds
  rw [hone, hmiddle, Function.update_apply, Function.update_apply, Function.update_apply,
    Function.update_apply, Function.update_apply]
  refine if_ctx_congr Iff.rfl (fun ht => ?_) fun _ => rfl
  rw [ht]

theorem entry_unpackEnds (x : ℕ → ℝ) {h : ℕ} (hh : 0 < h) (p : ℕ) :
    entry (unpackEnds x (2 * (2 * h)) (2 * h)) p =
      if p = 0 then ⟨(entry x 0).re + (entry x 0).im, 0⟩
      else if p = 2 * h then ⟨(entry x 0).re - (entry x 0).im, 0⟩
      else if p = h then conj (entry x h) else entry x p := by
  unfold entry
  rw [unpackEnds_apply x hh, unpackEnds_apply x hh]
  by_cases hfirst : p = 0
  · subst hfirst
    rw [if_neg (by omega), if_neg (by omega), if_neg (by omega), if_neg (by omega), if_pos rfl,
      if_neg (by omega), if_neg (by omega), if_pos rfl, if_pos rfl]
  · rw [if_neg hfirst]
    by_cases hlast : p = 2 * h
    · subst hlast
      rw [if_neg (by omega), if_neg (by omega), if_neg (by omega), if_pos rfl, if_neg (by omega),
        if_pos rfl, if_pos rfl]
    · rw [if_neg (by omega), if_neg (by omega), if_neg (by omega), if_neg (by omega),
        if_neg (by omega), if_neg hlast]
      by_cases hmiddle : p = h
      · subst hmiddle
        rw [if_pos rfl, if_pos rfl]
        rfl
      · rw [if_neg (by omega), if_neg (by omega), if_neg (by omega), if_neg (by omega),
          if_neg (by omega), if_neg hmiddle]

theorem packEnds_apply (x : ℕ → ℝ) {h : ℕ} (hh : 0 < h) (t : ℕ) :
    packEnds x (2 * (2 * h)) (2 * h) t =
      if t = 2 * h + 1 then -x t else if t = 1 then 1 / 2 * (x 0 - x (2 * (2 * h)))
      else if t = 0 then 1 / 2 * (x 0 + x (2 * (2 * h))) else x t := by
  have hlast : ∀ v, Function.update x 0 v (2 * (2 * h)) = x (2 * (2 * h)) :=
    fun v => Function.update_of_ne (by omega) _ _
  have hmiddle : ∀ v₁ v₂, Function.update (Function.update x 0 v₁) 1 v₂ (2 * h + 1) =
      x (2 * h + 1) := by
    intro v₁ v₂
    rw [Function.update_of_ne (by omega), Function.update_of_ne (by omega)]
  unfold packEnds
  rw [hlast, hmiddle, Function.update_apply, Function.update_apply, Function.update_apply]
  refine if_ctx_congr Iff.rfl (fun ht => ?_) fun _ => rfl
  rw [ht]

theorem entry_packEnds (x : ℕ → ℝ) {h : ℕ} (hh : 0 < h) (p : ℕ) :
    entry (packEnds x (2 * (2 * h)) (2 * h)) p =
      if p = 0 then ⟨1 / 2 * ((entry x 0).re + (entry x (2 * h)).re),
        1 / 2 * ((entry x 0).re - (entry x (2 * h)).re)⟩
      else if p = h then conj (entry x h) else entry x p := by
  unfold entry
  rw [packEnds_apply x hh, packEnds_apply x hh]
  by_cases hfirst : p = 0
  · subst hfirst
    rw [if_neg (by omega), if_neg (by omega), if_pos rfl, if_neg (by omega), if_pos rfl,
      if_pos rfl]
  · rw [if_neg (by omega), if_neg (by omega), if_neg (by omega), if_neg hfirst]
    by_cases hmiddle : p = h
    · subst hmiddle
      rw [if_pos rfl, if_pos rfl]
      rfl
    · rw [if_neg (by omega), if_neg (by omega), if_neg (by omega), if_neg hmiddle]

/-- Untangling an entry that is opposite to itself. -/
theorem untangle_self (wr wi : ℝ) (z : ℂ) :
    untangle ⟨wr, wi⟩ z z = ⟨z.re + z.im * wr, z.im * wi⟩ := by
  obtain ⟨z₁, z₂⟩ := z
  rw [untangle_mk]
  apply Complex.ext
  · dsimp only
    ring
  · dsimp only
    ring

theorem untangle_one (z : ℂ) : untangle 1 z z = ⟨z.re + z.im, 0⟩ := by
  have h := untangle_self 1 0 z
  rw [mul_one, mul_zero] at h
  exact h

theorem untangle_neg_one (z : ℂ) : untangle (-1) z z = ⟨z.re - z.im, 0⟩ := by
  have hone : (-1 : ℂ) = ⟨-1, 0⟩ := by
    apply Complex.ext
    · rfl
    · exact neg_zero
  rw [hone, untangle_self, mul_neg, mul_one, mul_zero, ← sub_eq_add_neg]

theorem root_quarter (k : ℕ) : root (k + 1) ^ 2 ^ k = ⟨0, -1⟩ := by
  have hangle : 2 * Real.pi / (((-1 : ℤ) : ℝ) * 2 ^ 2) = -(Real.pi / 2) := by
    push_cast
    ring
  rw [root, show k + 1 + 1 = 2 + k by omega, (turn_tower (.inr rfl)).pow_two_pow, turn_eq, hangle,
    Real.cos_neg, Real.sin_neg, Real.cos_pi_div_two, Real.sin_pi_div_two]

theorem untangle_quarter (k : ℕ) (z : ℂ) : untangle (root (k + 1) ^ 2 ^ k) z z = conj z := by
  rw [root_quarter, untangle_self, mul_zero, add_zero, mul_neg, mul_one]
  rfl

/-- The transform of half the length, with the pairs and the ends untangled. -/
theorem cfftr_spec (k : ℕ) (x : ℕ → ℝ) : ∃ y, cfftr exact x (2 ^ (k + 2)) = some y ∧
    ∀ p ≤ 2 ^ (k + 1), entry y p = untangle (root (k + 1) ^ p)
      (dft (turn 1 (k + 1)) (2 ^ (k + 1)) (entry x) p)
      (dft (turn 1 (k + 1)) (2 ^ (k + 1)) (entry x) (2 ^ (k + 1) - p)) := by
  have hpos : 0 < 2 ^ k := Nat.two_pow_pos k
  have hnn : 2 ^ (k + 1) = 2 * 2 ^ k := pow_succ' 2 k
  have hn : 2 ^ (k + 2) = 2 * (2 * 2 ^ k) := by rw [pow_succ', hnn]
  have hhalf : 2 ^ (k + 2) / 2 = 2 ^ (k + 1) := by omega
  obtain ⟨z, hrun, hz⟩ := cfour_spec 1 (.inl rfl) (k + 1) x
  have hZ : ∀ p < 2 ^ (k + 1), entry z p = dft (turn 1 (k + 1)) (2 ^ (k + 1)) (entry x) p :=
    fun p hp => (hz p).trans (if_pos hp)
  have hround : dft (turn 1 (k + 1)) (2 ^ (k + 1)) (entry x) (2 ^ (k + 1)) =
      dft (turn 1 (k + 1)) (2 ^ (k + 1)) (entry x) 0 :=
    dft_add (turn_tower (.inl rfl)) (k + 1) (entry x) 0
  refine ⟨tanglePairs exact (unpackEnds z (2 ^ (k + 2)) (2 ^ (k + 1))) (2 ^ (k + 2)), ?_,
    fun p hp => ?_⟩
  · rw [cfftr, hhalf, hrun]
    rfl
  · have hends := entry_unpackEnds z hpos
    rw [← hn, ← hnn] at hends
    rw [entry_tanglePairs, hends p]
    by_cases hfirst : p = 0
    · subst hfirst
      rw [if_neg (by omega), if_pos rfl, pow_zero, Nat.sub_zero, hround, untangle_one,
        hZ 0 (by omega)]
    · by_cases hlast : p = 2 ^ (k + 1)
      · subst hlast
        rw [if_neg (by omega), if_neg hfirst, if_pos rfl, Nat.sub_self, hround, root_half,
          untangle_neg_one, hZ 0 (by omega)]
      · by_cases hmiddle : p = 2 ^ k
        · subst hmiddle
          have hopposite : 2 ^ (k + 1) - 2 ^ k = 2 ^ k := by omega
          rw [if_neg (by omega), if_neg hfirst, if_neg hlast, if_pos rfl, hopposite,
            untangle_quarter, hZ _ (by omega)]
        · rw [if_pos (by omega), if_neg hfirst, if_neg hlast, if_neg hmiddle, hends,
            if_neg (by omega), if_neg (by omega), if_neg (by omega), hZ p (by omega),
            hZ _ (by omega)]

/-- The real Fourier transform. -/
theorem cfftr_dft (k : ℕ) (x : ℕ → ℝ) : ∃ y, cfftr exact x (2 ^ (k + 2)) = some y ∧
    ∀ j ≤ 2 ^ (k + 2) / 2, (⟨y (2 * j), y (2 * j + 1)⟩ : ℂ) =
      ∑ m ∈ Finset.range (2 ^ (k + 2)),
        x m * Complex.exp (-2 * Real.pi * Complex.I * j * m / (2 ^ (k + 2) : ℕ)) := by
  obtain ⟨y, hrun, hy⟩ := cfftr_spec k x
  have hhalf : 2 ^ (k + 2) / 2 = 2 ^ (k + 1) := by
    rw [pow_succ]
    exact Nat.mul_div_cancel _ two_pos
  have hfull : root (k + 1) ^ (2 * 2 ^ (k + 1)) = 1 := by
    rw [mul_comm, pow_mul, root_half, neg_one_sq]
  refine ⟨y, hrun, fun j hj => ?_⟩
  rw [hhalf] at hj
  have hreal := dft_real x (root_mul_conj (k + 1)) hfull hj
  rw [conj_root_sq] at hreal
  refine (hy j hj).trans (hreal.symm.trans ?_)
  rw [dft, ← pow_succ']
  apply Finset.sum_congr rfl
  intro m _
  rw [root, turn, ← Complex.exp_nat_mul]
  congr 2
  push_cast
  field_simp

/-! ## The inverse -/

theorem turn_primitive (s : ℕ) : IsPrimitiveRoot (turn 1 s) (2 ^ s) := by
  have hroot := Complex.isPrimitiveRoot_exp (2 ^ s) (Nat.two_pow_pos s).ne'
  have hangle : (2 * Real.pi * Complex.I / (2 ^ s : ℕ) : ℂ) =
      2 * Real.pi / ((1 : ℤ) * 2 ^ s) * Complex.I := by
    push_cast
    ring
  rw [hangle] at hroot
  exact hroot

theorem turn_inv (s : ℕ) : turn (-1) s = (turn 1 s)⁻¹ := by
  rw [turn, turn, ← Complex.exp_neg]
  congr 1
  push_cast
  ring

/-- Packing and untangling once more gives the transform of half the length. -/
theorem entry_tanglePairs_packEnds (k : ℕ) {y : ℕ → ℝ} {Z : ℕ → ℂ} (hround : Z (2 ^ (k + 1)) = Z 0)
    (hy : ∀ p ≤ 2 ^ (k + 1), entry y p =
      untangle (root (k + 1) ^ p) (Z p) (Z (2 ^ (k + 1) - p))) {p : ℕ} (hp : p < 2 ^ (k + 1)) :
    entry (tanglePairs exact (packEnds y (2 ^ (k + 2)) (2 ^ (k + 1))) (2 ^ (k + 2))) p = Z p := by
  have hpos : 0 < 2 ^ k := Nat.two_pow_pos k
  have hnn : 2 ^ (k + 1) = 2 * 2 ^ k := pow_succ' 2 k
  have hn : 2 ^ (k + 2) = 2 * (2 * 2 ^ k) := by rw [pow_succ', hnn]
  have hends := entry_packEnds y hpos
  rw [← hn, ← hnn] at hends
  rw [entry_tanglePairs, hends p]
  by_cases hfirst : p = 0
  · subst hfirst
    have hlow := hy 0 (by omega)
    have hhigh := hy (2 ^ (k + 1)) le_rfl
    rw [pow_zero, Nat.sub_zero, hround, untangle_one] at hlow
    rw [root_half, Nat.sub_self, hround, untangle_neg_one] at hhigh
    rw [if_neg (by omega), if_pos rfl, hlow, hhigh]
    apply Complex.ext
    · dsimp only
      ring
    · dsimp only
      ring
  · by_cases hmiddle : p = 2 ^ k
    · subst hmiddle
      have hopposite : 2 ^ (k + 1) - 2 ^ k = 2 ^ k := by omega
      rw [if_neg (by omega), if_neg hfirst, if_pos rfl, hy _ (by omega), hopposite,
        untangle_quarter, Complex.conj_conj]
    · have hback : 2 ^ (k + 1) - (2 ^ (k + 1) - p) = p := by omega
      rw [if_pos (by omega), if_neg hfirst, if_neg hmiddle, hends, if_neg (by omega),
        if_neg (by omega), hy p (by omega), hy _ (by omega), hback, root_opposite (by omega),
        untangle_untangle (root_pow_mul_conj (k + 1) p)]

/-- The inverse takes the output of the transform back, up to half the number of samples. -/
theorem cfftri_cfftr (k : ℕ) (x : ℕ → ℝ) : ∃ y z, cfftr exact x (2 ^ (k + 2)) = some y ∧
    cfftri exact y (2 ^ (k + 2)) = some z ∧
    ∀ m < 2 ^ (k + 2), z m = (2 ^ (k + 2) : ℕ) / 2 * x m := by
  obtain ⟨y, hrun, hy⟩ := cfftr_spec k x
  have hhalf : 2 ^ (k + 2) / 2 = 2 ^ (k + 1) := by
    rw [pow_succ]
    exact Nat.mul_div_cancel _ two_pos
  have hround : dft (turn 1 (k + 1)) (2 ^ (k + 1)) (entry x) (2 ^ (k + 1)) =
      dft (turn 1 (k + 1)) (2 ^ (k + 1)) (entry x) 0 :=
    dft_add (turn_tower (.inl rfl)) (k + 1) (entry x) 0
  obtain ⟨z, hback, hz⟩ := cfour_spec (-1) (.inr rfl) (k + 1)
    (tanglePairs exact (packEnds y (2 ^ (k + 2)) (2 ^ (k + 1))) (2 ^ (k + 2)))
  have hscaled : ∀ p < 2 ^ (k + 1), entry z p = (2 ^ (k + 1) : ℕ) * entry x p := by
    intro p hp
    rw [hz p, if_pos hp, turn_inv, ← dft_dft_inv (turn_primitive (k + 1)) (entry x) hp]
    apply Finset.sum_congr rfl
    intro m hm
    rw [entry_tanglePairs_packEnds k hround hy (Finset.mem_range.1 hm)]
  refine ⟨y, z, hrun, ?_, fun m hm => ?_⟩
  · rw [cfftri, hhalf, hback]
  · have hscale : ((2 ^ (k + 2) : ℕ) : ℝ) / 2 = (2 ^ (k + 1) : ℕ) := by
      push_cast
      ring
    rw [hscale]
    rcases Nat.even_or_odd' m with ⟨q, rfl | rfl⟩
    · have hre := congrArg Complex.re (hscaled q (by rw [pow_succ] at hm; omega))
      rw [← Complex.ofReal_natCast, Complex.re_ofReal_mul] at hre
      exact hre
    · have him := congrArg Complex.im (hscaled q (by rw [pow_succ] at hm; omega))
      rw [← Complex.ofReal_natCast, Complex.im_ofReal_mul] at him
      exact him

end Pairs

end Fft

end PQL
