import PQL.Lib.Bilinear
import PQL.Transform.Design

/-!
# What the designed filters do to a frequency

Over the reals `lowpass` makes a stable Butterworth filter whose squared gain is one half at the
cutoff (`lowpass_butterworth`).  `highpass` takes `alpha` from the warped frequency and not from the
cutoff itself: its filter is a stable Butterworth filter too, but for another cutoff
(`highpass_butterworth`), which is too high.
-/

namespace PQL

open ComplexConjugate

/-! ## Complex numbers and their parts -/

noncomputable def realTrig : MathFunctions ℝ := ⟨Real.pi, Real.sin, Real.cos, Real.tan⟩

theorem realTrig_pi : realTrig.pi = Real.pi := rfl

theorem realTrig_sin : realTrig.sin = Real.sin := rfl

theorem realTrig_cos : realTrig.cos = Real.cos := rfl

theorem realTrig_tan : realTrig.tan = Real.tan := rfl

def Pole.toComplex (p : Pole ℝ) : ℂ := ⟨p.real, p.imag⟩

def ofComplex (z : ℂ) : Pole ℝ := ⟨z.re, z.im⟩

@[simp] theorem toComplex_ofComplex (z : ℂ) : (ofComplex z).toComplex = z := rfl

theorem addC_ofComplex (u v : ℂ) : addC (ofComplex u) (ofComplex v) = ofComplex (u + v) := rfl

theorem subC_ofComplex (u v : ℂ) : subC (ofComplex u) (ofComplex v) = ofComplex (u - v) := rfl

theorem mulC_ofComplex (u v : ℂ) : mulC (ofComplex u) (ofComplex v) = ofComplex (u * v) := rfl

theorem conjC_ofComplex (u : ℂ) : conjC (ofComplex u) = ofComplex (conj u) := rfl

theorem one_eq_ofComplex : (one : Pole ℝ) = ofComplex 1 := rfl

theorem cmulC_ofComplex (a : ℝ) (u : ℂ) : cmulC a (ofComplex u) = ofComplex (a * u) := by
  rw [cmulC, ofComplex, ofComplex, Complex.re_ofReal_mul, Complex.im_ofReal_mul]

theorem divC_ofComplex (u : ℂ) {v : ℂ} (hv : v ≠ 0) :
    divC (ofComplex u) (ofComplex v) = some (ofComplex (u / v)) := by
  have hparts : ¬((ofComplex v).real = 0 ∧ (ofComplex v).imag = 0) :=
    fun h => hv (Complex.ext h.1 h.2)
  rw [divC, if_pos hparts, ofComplex, ofComplex, ofComplex, Complex.div_re, Complex.div_im,
    Complex.normSq_apply, ← add_div, ← sub_div]

/-! ## Transfer functions -/

/-- The transfer function of a section. -/
noncomputable def SecondOrder.transfer (c : SecondOrder ℝ) (z : ℂ) : ℂ :=
  (z ^ 2 + c.b1 * z + c.b2) / (z ^ 2 + c.a1 * z + c.a2)

/-- The transfer function of a part of `_iir`. -/
noncomputable def partTransfer (toSection : Pole ℝ → SecondOrder ℝ) (poles : List (Pole ℝ))
    (b0 : ℝ) (z : ℂ) : ℂ :=
  if poles = [] then 1
  else b0 * ((everyOther poles).map fun p => (toSection p).transfer z).prod

theorem lowSection_transfer (p z : ℂ) : (lowSection (ofComplex p)).transfer z =
    (z + 1) ^ 2 / ((z - p) * (z - conj p)) := by
  have hsum : p + conj p = 2 * (p.re : ℂ) := by rw [Complex.add_conj]; push_cast; rfl
  have hprod : p * conj p = (p.re : ℂ) * p.re + (p.im : ℂ) * p.im := by
    rw [Complex.mul_conj, Complex.normSq_apply]
    push_cast
    rfl
  unfold SecondOrder.transfer lowSection ofComplex
  congr 1
  · push_cast
    ring
  · push_cast
    linear_combination z * hsum - hprod

theorem highSection_transfer (p z : ℂ) : (highSection (ofComplex p)).transfer z =
    (z - 1) ^ 2 / ((z - p) * (z - conj p)) := by
  have hlow := lowSection_transfer p z
  have hsum : p + conj p = 2 * (p.re : ℂ) := by rw [Complex.add_conj]; push_cast; rfl
  have hprod : p * conj p = (p.re : ℂ) * p.re + (p.im : ℂ) * p.im := by
    rw [Complex.mul_conj, Complex.normSq_apply]
    push_cast
    rfl
  unfold SecondOrder.transfer highSection ofComplex
  congr 1
  · push_cast
    ring
  · push_cast
    linear_combination z * hsum - hprod

section Parts

variable {poles : List (Pole ℝ)} {p : ℕ → ℂ} {m : ℕ} {s : ℂ}

theorem prod_map_range (f : ℕ → ℂ) : ((List.range m).map f).prod = ∏ k ∈ Finset.range m, f k := rfl

/-- A low-pass part whose poles come from analog ones. -/
theorem partTransfer_low (hpoles : poles ≠ [])
    (hsections : everyOther poles = (List.range m).map fun k => ofComplex (bilinear (p k)))
    (hs : s ≠ 1) (hp : ∀ k < m, p k ≠ 1) :
    partTransfer lowSection poles
      (∏ k ∈ Finset.range m, Complex.normSq (1 - bilinear (p k)) / 4) (bilinear s) =
        ∏ k ∈ Finset.range m, p k * conj (p k) / ((s - p k) * (s - conj (p k))) := by
  rw [partTransfer, if_neg hpoles, hsections, List.map_map, prod_map_range, Complex.ofReal_prod,
    ← Finset.prod_mul_distrib]
  refine Finset.prod_congr rfl fun k hk => ?_
  rw [← lowSection_bilinear hs (hp k (Finset.mem_range.1 hk)), Function.comp_apply,
    lowSection_transfer, bilinear_conj, Complex.ofReal_div, ← Complex.mul_conj, map_sub, map_one]
  norm_num

/-- A high-pass part whose poles come from analog ones. -/
theorem partTransfer_high (hpoles : poles ≠ [])
    (hsections : everyOther poles = (List.range m).map fun k => ofComplex (bilinear (p k)))
    (hs : s ≠ 1) (hp : ∀ k < m, p k ≠ 1) :
    partTransfer highSection poles
      (∏ k ∈ Finset.range m, Complex.normSq (1 + bilinear (p k)) / 4) (bilinear s) =
        ∏ k ∈ Finset.range m, s ^ 2 / ((s - p k) * (s - conj (p k))) := by
  rw [partTransfer, if_neg hpoles, hsections, List.map_map, prod_map_range, Complex.ofReal_prod,
    ← Finset.prod_mul_distrib]
  refine Finset.prod_congr rfl fun k hk => ?_
  rw [← highSection_bilinear hs (hp k (Finset.mem_range.1 hk)), Function.comp_apply,
    highSection_transfer, bilinear_conj, Complex.ofReal_div, ← Complex.mul_conj, map_add, map_one]
  norm_num

end Parts

/-! ## The low pass -/

/-- The angle of the pole pair `k`. -/
noncomputable def pairAngle (m k : ℕ) : ℝ := poleAngle m k / 2

theorem pairAngle_mem {m k : ℕ} (hk : k < m) : 0 < pairAngle m k ∧ pairAngle m k < Real.pi / 2 := by
  have hm : (0 : ℝ) < m := Nat.cast_pos.2 (by omega)
  have hlt : (2 * (k : ℝ) + 1) < 2 * m := by exact_mod_cast (by omega : 2 * k + 1 < 2 * m)
  unfold pairAngle poleAngle
  constructor
  · positivity
  · rw [div_lt_div_iff_of_pos_right two_pos, div_lt_iff₀ (by positivity), mul_comm]
    exact mul_lt_mul_of_pos_left hlt Real.pi_pos

theorem circlePole_im_ne_zero {r : ℝ} (hr : r ≠ 0) {m k : ℕ} (hk : k < m) :
    (circlePole r (pairAngle m k)).im ≠ 0 := by
  obtain ⟨hpos, hlt⟩ := pairAngle_mem hk
  exact mul_ne_zero hr (Real.sin_pos_of_pos_of_lt_pi hpos (by linarith [Real.pi_pos])).ne'

theorem ne_ofReal {p : ℂ} (hp : p.im ≠ 0) (x : ℝ) : p ≠ x := by
  rintro rfl
  exact hp (Complex.ofReal_im x)

theorem cos_pairAngle_pos {m k : ℕ} (hk : k < m) : 0 < Real.cos (pairAngle m k) :=
  Real.cos_pos_of_mem_Ioo ⟨by linarith [Real.pi_pos, (pairAngle_mem hk).1], (pairAngle_mem hk).2⟩

/-- The pole pair `k` of the low pass. -/
noncomputable def lowPole (r : ℝ) (m k : ℕ) : ℂ := bilinear (circlePole r (pairAngle m k))

theorem lowCircle_ne_one {r : ℝ} (hr : r ≠ 0) {m k : ℕ} (hk : k < m) :
    circlePole r (pairAngle m k) ≠ 1 := fun h =>
  ne_ofReal (circlePole_im_ne_zero hr hk) 1 (h.trans Complex.ofReal_one.symm)

theorem norm_lowPole_lt_one_iff {r : ℝ} (hr : r ≠ 0) {m k : ℕ} (hk : k < m) :
    ‖lowPole r m k‖ < 1 ↔ 0 < r := by
  rw [lowPole, norm_bilinear_lt_one_iff (lowCircle_ne_one hr hk), circlePole, neg_neg_iff_pos]
  exact mul_pos_iff_of_pos_right (cos_pairAngle_pos hk)

theorem analogPole_eq {fc dt : ℝ} (hdt : dt ≠ 0) {m : ℕ} (hm : 0 < m) (k : ℕ) :
    cmulC (dt / 2) (analogPole realTrig (warped realTrig fc dt) (2 * m : ℕ) (2 * (k : ℤ))) =
      ofComplex (circlePole (Real.tan (Real.pi * (fc * dt))) (pairAngle m k)) := by
  have hm' : (m : ℝ) ≠ 0 := Nat.cast_ne_zero.2 hm.ne'
  have hangle : ((2 * (k : ℤ) + 1 : ℤ) : ℝ) * Real.pi / ((2 * ((2 * m : ℕ) : ℤ) : ℤ) : ℝ) =
      pairAngle m k := by
    unfold pairAngle poleAngle
    push_cast
    field_simp
  have hwarp : dt / 2 * warped realTrig fc dt = Real.tan (Real.pi * (fc * dt)) := by
    rw [warped, realTrig_pi, realTrig_tan,
      show 2 * fc * Real.pi * dt / 2 = Real.pi * (fc * dt) by ring]
    field_simp
  rw [← hwarp, cmulC, analogPole, ofComplex, circlePole, ← hangle]
  simp only [realTrig_pi, realTrig_cos, realTrig_sin, neg_mul, mul_neg, mul_assoc]

section Lowpass

variable {fc dt : ℝ} {m N : ℕ} {g : ℕ → Pole ℝ}

/-- The result of `lowpass`. -/
theorem lowpass_real (hdt : dt ≠ 0) (hr : Real.tan (Real.pi * (fc * dt)) ≠ 0) (hN : 2 * m ≤ N) :
    lowpass realTrig fc dt (2 * m : ℕ) (tabulate N g) =
      some (tabulate N fun j => if j < 2 * m then
          pairOf (fun k => ofComplex (lowPole (Real.tan (Real.pi * (fc * dt))) m k)) j else g j,
        ∏ k ∈ Finset.range m,
          Complex.normSq (1 - lowPole (Real.tan (Real.pi * (fc * dt))) m k) / 4) := by
  rw [lowpass_eq realTrig fc dt hN (D := fun k =>
    ofComplex (lowPole (Real.tan (Real.pi * (fc * dt))) m k)) fun k hk => ?_]
  · rw [one_div, ← Finset.prod_inv_distrib]
    congr 2
    refine Finset.prod_congr rfl fun k _ => ?_
    rw [inv_div, conjC_ofComplex, one_eq_ofComplex, subC_ofComplex, subC_ofComplex, mulC_ofComplex,
      ← map_one (starRingEnd ℂ), ← map_sub, map_one, Complex.mul_conj]
    rfl
  · have hone := ne_ofReal (circlePole_im_ne_zero hr hk) 1
    rw [analogPole_eq hdt (by omega), one_eq_ofComplex, addC_ofComplex, subC_ofComplex,
      divC_ofComplex _ (sub_ne_zero.2 fun h => hone (h.symm.trans Complex.ofReal_one.symm))]
    rfl

end Lowpass

/-- The squared gain of the pairs of a Butterworth filter on the imaginary axis. -/
theorem prod_normSq_resonance {m : ℕ} (hm : 0 < m) (r x : ℝ) (c : ℂ) {φ : ℕ → ℝ}
    (hφ : ∀ k, Real.cos (2 * φ k) = Real.cos (poleAngle m k)) :
    ‖∏ k ∈ Finset.range m, c / ((Complex.I * x - circlePole r (φ k)) *
      (Complex.I * x - conj (circlePole r (φ k))))‖ ^ 2 =
        Complex.normSq c ^ m / (x ^ (2 * (2 * m)) + r ^ (2 * (2 * m))) := by
  rw [← Complex.normSq_eq_norm_sq, map_prod]
  have hterm : ∀ k ∈ Finset.range m, Complex.normSq (c / ((Complex.I * x - circlePole r (φ k)) *
      (Complex.I * x - conj (circlePole r (φ k))))) =
      Complex.normSq c / ((x ^ 2) ^ 2 + 2 * x ^ 2 * r ^ 2 * Real.cos (poleAngle m k) +
        (r ^ 2) ^ 2) := by
    intro k _
    rw [Complex.normSq_div, normSq_resonance, hφ]
  rw [Finset.prod_congr rfl hterm, Finset.prod_div_distrib, prod_quadratic hm, Finset.prod_const,
    Finset.card_range, ← pow_mul, ← pow_mul]

theorem imaginary_ne_one (x : ℝ) : Complex.I * x ≠ 1 := by
  intro h
  simpa using congrArg Complex.re h

/-- What is between `0` and the Nyquist frequency has a positive tangent. -/
theorem tan_pos_of_below {x : ℝ} (h₀ : 0 < x) (h : x < 1 / 2) : 0 < Real.tan (Real.pi * x) :=
  Real.tan_pos_of_pos_of_lt_pi_div_two (by positivity) (by nlinarith [Real.pi_pos])

theorem take_ne_nil {N m : ℕ} (hm : 0 < m) (hN : 2 * m ≤ N) (g : ℕ → Pole ℝ) :
    (tabulate N g).take (2 * m) ≠ [] := by
  rw [← List.length_pos_iff_ne_nil, List.length_take, length_tabulate]
  omega

/-- All poles lie inside of the unit circle. -/
def Stable (poles : List (Pole ℝ)) : Prop := ∀ q ∈ poles, ‖q.toComplex‖ < 1

/-- The poles of pairs inside of the unit circle. -/
theorem norm_pairs_lt_one {N m : ℕ} {p : ℕ → ℂ} {g : ℕ → Pole ℝ} (hp : ∀ k < m, ‖p k‖ < 1) :
    Stable ((tabulate N fun j => if j < 2 * m then pairOf (fun k => ofComplex (p k)) j
      else g j).take (2 * m)) := by
  intro q hq
  rw [tabulate, ← List.map_take, List.take_range] at hq
  obtain ⟨j, hj, rfl⟩ := List.mem_map.1 hq
  have hj' := lt_min_iff.1 (List.mem_range.1 hj)
  rw [if_pos hj'.1, pairOf]
  split_ifs
  · exact hp (j / 2) (by omega)
  · rw [conjC_ofComplex, toComplex_ofComplex, Complex.norm_conj]
    exact hp (j / 2) (by omega)

/-- The pairs of a filter lie inside of the unit circle exactly if their analog radius is
positive. -/
theorem stable_pairs_iff {N m : ℕ} {p : ℕ → ℂ} {g : ℕ → Pole ℝ} {r : ℝ} (hm : 0 < m)
    (hN : 2 * m ≤ N) (hp : ∀ k < m, ‖p k‖ < 1 ↔ 0 < r) :
    Stable ((tabulate N fun j => if j < 2 * m then pairOf (fun k => ofComplex (p k)) j
      else g j).take (2 * m)) ↔ 0 < r := by
  constructor
  · intro h
    refine (hp 0 hm).1 (h (ofComplex (p 0)) (List.mem_of_getElem? (i := 0) ?_))
    rw [List.getElem?_take_of_lt (by omega), getElem?_tabulate, if_pos (by omega),
      if_pos (by omega)]
    rfl
  · exact fun hr => norm_pairs_lt_one fun k hk => (hp k hk).2 hr

/-- The squared gain of the low pass below the Nyquist frequency. -/
theorem lowGain {m N : ℕ} {r : ℝ} {g : ℕ → Pole ℝ} (hm : 0 < m) (hN : 2 * m ≤ N)
    (hr : 0 < r) {ω : ℝ} (hω : Real.cos (ω / 2) ≠ 0) :
    ‖partTransfer lowSection ((tabulate N fun j => if j < 2 * m then
        pairOf (fun k => ofComplex (lowPole r m k)) j else g j).take (2 * m))
      (∏ k ∈ Finset.range m, Complex.normSq (1 - lowPole r m k) / 4)
      (Complex.exp (ω * Complex.I))‖ ^ 2 = 1 / (1 + (Real.tan (ω / 2) / r) ^ (2 * (2 * m))) := by
  have hresponse := partTransfer_low (take_ne_nil hm hN _)
    (everyOther_pairs (P := fun k => ofComplex (lowPole r m k)) (g := g) hN)
    (imaginary_ne_one (Real.tan (ω / 2))) fun k => lowCircle_ne_one hr.ne'
  have hpow : r ^ (2 * (2 * m)) ≠ 0 := (pow_pos hr _).ne'
  simp only [circlePole_mul_conj] at hresponse
  rw [← bilinear_tan hω]
  refine (congrArg (‖·‖ ^ 2) hresponse).trans ?_
  rw [prod_normSq_resonance hm r _ _ fun k => by rw [pairAngle, mul_div_cancel₀ _ two_ne_zero],
    ← Complex.ofReal_pow, Complex.normSq_ofReal, div_pow]
  field_simp
  ring

theorem lowpass_spec {fc dt : ℝ} {m : ℕ} {p : List (Pole ℝ)} (hm : 0 < m) (hlen : 2 * m ≤ p.length)
    (hdt : dt ≠ 0) (hr : 0 < Real.tan (Real.pi * (fc * dt))) :
    ∃ low, lowpass realTrig fc dt (2 * m : ℕ) p = some low ∧ low.1.length = p.length ∧
      Stable (low.1.take (2 * m)) ∧ ∀ ω : ℝ, Real.cos (ω / 2) ≠ 0 →
        ‖partTransfer lowSection (low.1.take (2 * m)) low.2 (Complex.exp (ω * Complex.I))‖ ^ 2 =
          1 / (1 + (Real.tan (ω / 2) / Real.tan (Real.pi * (fc * dt))) ^ (2 * (2 * m))) := by
  have hrun := lowpass_real (g := fun k => p.getD k one) hdt hr.ne' hlen
  rw [tabulate_getD] at hrun
  exact ⟨_, hrun, length_tabulate _ _,
    (stable_pairs_iff hm hlen fun k => norm_lowPole_lt_one_iff hr.ne').2 hr,
    fun ω hω => lowGain hm hlen hr hω⟩

/-- The low pass is stable, and its squared gain is that of a Butterworth filter of `2 * m` poles
with the cutoff asked for. -/
theorem lowpass_butterworth (fc dt : ℝ) (m : ℕ) (p : List (Pole ℝ)) (hm : 0 < m)
    (hlen : 2 * m ≤ p.length) (hdt : 0 < dt) (hfc : 0 < fc) (hnyquist : fc * dt < 1 / 2) :
    ∃ low, lowpass realTrig fc dt (2 * m : ℕ) p = some low ∧ low.1.length = p.length ∧
      Stable (low.1.take (2 * m)) ∧ ∀ ω : ℝ, Real.cos (ω / 2) ≠ 0 →
        ‖partTransfer lowSection (low.1.take (2 * m)) low.2 (Complex.exp (ω * Complex.I))‖ ^ 2 =
          1 / (1 + (Real.tan (ω / 2) / Real.tan (Real.pi * (fc * dt))) ^ (2 * (2 * m))) :=
  lowpass_spec hm hlen hdt.ne' (tan_pos_of_below (mul_pos hfc hdt) hnyquist)

/-- Two poles and half of the Nyquist frequency. -/
theorem lowpass_butterworth_two :
    ∃ low, lowpass realTrig 1 (1 / 4) (2 * 1 : ℕ) [one, one] = some low ∧
      low.1.length = [(one : Pole ℝ), one].length ∧
      Stable (low.1.take (2 * 1)) ∧ ∀ ω : ℝ, Real.cos (ω / 2) ≠ 0 →
        ‖partTransfer lowSection (low.1.take (2 * 1)) low.2 (Complex.exp (ω * Complex.I))‖ ^ 2 =
          1 / (1 + (Real.tan (ω / 2) / Real.tan (Real.pi * (1 * (1 / 4)))) ^ (2 * (2 * 1))) :=
  lowpass_butterworth 1 (1 / 4) 1 [one, one] one_pos le_rfl (by norm_num) one_pos (by norm_num)

/-! ## The high pass -/

/-- The analog radius of the poles of `highpass`. -/
noncomputable def highRadius (r : ℝ) : ℝ := Real.tan r ^ 2 / r

/-- The pole pair `k` of the high pass. -/
noncomputable def highPole (r : ℝ) (m k : ℕ) : ℂ :=
  bilinear (circlePole (highRadius r) (-pairAngle m k))

theorem one_sub_cos_div {r : ℝ} (hsin : Real.sin (2 * r) ≠ 0) :
    1 + Real.cos (2 * r) ≠ 0 ∧ (1 - Real.cos (2 * r)) / (1 + Real.cos (2 * r)) = Real.tan r ^ 2 ∧
      Real.tan r ≠ 0 := by
  rw [Real.sin_two_mul] at hsin
  have hcos : Real.cos r ≠ 0 := right_ne_zero_of_mul hsin
  have hsin' : Real.sin r ≠ 0 := right_ne_zero_of_mul (left_ne_zero_of_mul hsin)
  have hadd : 1 + Real.cos (2 * r) = 2 * Real.cos r ^ 2 := by
    rw [Real.cos_two_mul]
    ring
  have hsub : 1 - Real.cos (2 * r) = 2 * Real.sin r ^ 2 := by
    rw [Real.cos_two_mul, Real.cos_sq']
    ring
  rw [hadd, hsub, Real.tan_eq_sin_div_cos]
  refine ⟨by positivity, ?_, div_ne_zero hsin' hcos⟩
  field_simp

section Highpass

variable {fc dt : ℝ} {m N : ℕ} {g : ℕ → Pole ℝ}

theorem divC_lowToHigh {r : ℝ} (hr : r ≠ 0) (hsin : Real.sin (2 * r) ≠ 0) {k : ℕ} (hk : k < m) :
    divC (subC (cmulC (Real.cos (2 * r)) one) (ofComplex (lowPole r m k)))
      (subC one (cmulC (Real.cos (2 * r)) (ofComplex (lowPole r m k)))) =
        some (ofComplex (highPole r m k)) := by
  obtain ⟨hadd, hdiv, -⟩ := one_sub_cos_div hsin
  have him := circlePole_im_ne_zero hr hk
  have hadd' : (1 + Real.cos (2 * r) : ℂ) ≠ 0 := by exact_mod_cast hadd
  have hden : (1 - Real.cos (2 * r) : ℂ) -
      circlePole r (pairAngle m k) * (1 + Real.cos (2 * r) : ℂ) ≠ 0 := by
    intro h
    refine ne_ofReal him ((1 - Real.cos (2 * r)) / (1 + Real.cos (2 * r))) ?_
    push_cast [-Complex.ofReal_cos]
    rw [eq_div_iff hadd', sub_eq_zero.1 h]
  obtain ⟨hmoved, hne⟩ := bilinear_lowToHigh
    (fun h => ne_ofReal him 1 (h.trans Complex.ofReal_one.symm))
    (fun h => ne_ofReal him 0 (h.trans Complex.ofReal_zero.symm)) hadd' hden
  have hradius : (1 - Real.cos (2 * r) : ℂ) / (1 + Real.cos (2 * r)) /
      circlePole r (pairAngle m k) = circlePole (highRadius r) (-pairAngle m k) := by
    rw [highRadius, ← hdiv, ← div_circlePole _ hr]
    push_cast
    rfl
  rw [one_eq_ofComplex, cmulC_ofComplex, cmulC_ofComplex, subC_ofComplex, subC_ofComplex, mul_one,
    lowPole, divC_ofComplex _ hne, highPole, ← hradius, ← hmoved]

/-- The result of `highpass`. -/
theorem highpass_real (hdt : dt ≠ 0) (hr : Real.tan (Real.pi * (fc * dt)) ≠ 0)
    (hsin : Real.sin (2 * Real.tan (Real.pi * (fc * dt))) ≠ 0) (hN : 2 * m ≤ N) :
    highpass realTrig fc dt (2 * m : ℕ) (tabulate N g) =
      some (tabulate N fun j => if j < 2 * m then
          pairOf (fun k => ofComplex (highPole (Real.tan (Real.pi * (fc * dt))) m k)) j else g j,
        ∏ k ∈ Finset.range m,
          Complex.normSq (1 + highPole (Real.tan (Real.pi * (fc * dt))) m k) / 4) := by
  have hwarp : warped realTrig fc dt * dt = 2 * Real.tan (Real.pi * (fc * dt)) := by
    rw [warped, realTrig_pi, realTrig_tan,
      show 2 * fc * Real.pi * dt / 2 = Real.pi * (fc * dt) by ring]
    field_simp
  rw [highpass_eq realTrig fc dt _ hN (lowpass_real hdt hr hN) (H := fun k =>
    ofComplex (highPole (Real.tan (Real.pi * (fc * dt))) m k)) fun k hk => ?_]
  · rw [one_div, ← Finset.prod_inv_distrib]
    congr 2
    refine Finset.prod_congr rfl fun k _ => ?_
    rw [inv_div, conjC_ofComplex, one_eq_ofComplex, addC_ofComplex, addC_ofComplex, mulC_ofComplex,
      ← map_one (starRingEnd ℂ), ← map_add, map_one, Complex.mul_conj]
    rfl
  · rw [hwarp, realTrig_cos]
    exact divC_lowToHigh hr hsin hk

end Highpass

section Gain

variable {m N : ℕ} {r : ℝ} {g : ℕ → Pole ℝ}

theorem highCircle_ne_one (hradius : highRadius r ≠ 0) {k : ℕ} (hk : k < m) :
    circlePole (highRadius r) (-pairAngle m k) ≠ 1 := by
  intro h
  have him := congrArg Complex.im h
  rw [circlePole, Real.sin_neg, mul_neg] at him
  exact circlePole_im_ne_zero hradius hk (neg_eq_zero.1 (him.trans Complex.one_im))

/-- The poles of the high pass are stable exactly if those of the low pass are. -/
theorem norm_highPole_lt_one_iff (hr : r ≠ 0) (htan : Real.tan r ≠ 0) {k : ℕ} (hk : k < m) :
    ‖highPole r m k‖ < 1 ↔ 0 < r := by
  have hradius : highRadius r ≠ 0 := div_ne_zero (pow_ne_zero 2 htan) hr
  rw [highPole, norm_bilinear_lt_one_iff (highCircle_ne_one hradius hk), circlePole, Real.cos_neg,
    neg_neg_iff_pos, mul_pos_iff_of_pos_right (cos_pairAngle_pos hk), highRadius]
  exact div_pos_iff_of_pos_left (by positivity)

/-- The squared gain of the high pass at an inner frequency. -/
theorem highGain (hm : 0 < m) (hN : 2 * m ≤ N) (hradius : 0 < highRadius r) {ω : ℝ}
    (hω : Real.cos (ω / 2) ≠ 0) (hω' : Real.sin (ω / 2) ≠ 0) :
    ‖partTransfer highSection ((tabulate N fun j => if j < 2 * m then
        pairOf (fun k => ofComplex (highPole r m k)) j else g j).take (2 * m))
      (∏ k ∈ Finset.range m, Complex.normSq (1 + highPole r m k) / 4)
      (Complex.exp (ω * Complex.I))‖ ^ 2 =
        1 / (1 + (highRadius r / Real.tan (ω / 2)) ^ (2 * (2 * m))) := by
  have hresponse := partTransfer_high (take_ne_nil hm hN _)
    (everyOther_pairs (P := fun k => ofComplex (highPole r m k)) (g := g) hN)
    (imaginary_ne_one (Real.tan (ω / 2))) fun k => highCircle_ne_one hradius.ne'
  have hx : Real.tan (ω / 2) ≠ 0 := by
    rw [Real.tan_eq_sin_div_cos]
    exact div_ne_zero hω' hω
  have hpow : Real.tan (ω / 2) ^ (2 * (2 * m)) ≠ 0 := pow_ne_zero _ hx
  rw [← bilinear_tan hω]
  refine (congrArg (‖·‖ ^ 2) hresponse).trans ?_
  rw [prod_normSq_resonance hm _ _ _ fun k => by
    rw [mul_neg, Real.cos_neg, pairAngle, mul_div_cancel₀ _ two_ne_zero], map_pow, map_mul,
    Complex.normSq_I, one_mul, Complex.normSq_ofReal, div_pow]
  field_simp
  ring

theorem highpass_spec {fc dt : ℝ} {p : List (Pole ℝ)} (hm : 0 < m) (hlen : 2 * m ≤ p.length)
    (hdt : dt ≠ 0) (hr : 0 < Real.tan (Real.pi * (fc * dt)))
    (hsin : Real.sin (2 * Real.tan (Real.pi * (fc * dt))) ≠ 0) :
    ∃ high, highpass realTrig fc dt (2 * m : ℕ) p = some high ∧ high.1.length = p.length ∧
      Stable (high.1.take (2 * m)) ∧
      ∀ ω : ℝ, Real.cos (ω / 2) ≠ 0 → Real.sin (ω / 2) ≠ 0 →
        ‖partTransfer highSection (high.1.take (2 * m)) high.2 (Complex.exp (ω * Complex.I))‖ ^ 2 =
          1 / (1 + (highRadius (Real.tan (Real.pi * (fc * dt))) / Real.tan (ω / 2)) ^
            (2 * (2 * m))) := by
  have hrun := highpass_real (g := fun k => p.getD k one) hdt hr.ne' hsin hlen
  rw [tabulate_getD] at hrun
  obtain ⟨-, -, htan⟩ := one_sub_cos_div hsin
  have hradius : 0 < highRadius (Real.tan (Real.pi * (fc * dt))) := div_pos (by positivity) hr
  exact ⟨_, hrun, length_tabulate _ _,
    (stable_pairs_iff hm hlen fun k => norm_highPole_lt_one_iff hr.ne' htan).2 hr,
    fun ω hω hω' => highGain hm hlen hradius hω hω'⟩

end Gain

theorem lt_highRadius {r : ℝ} (hr : 0 < r) (hlt : r < Real.pi / 2) : r < highRadius r := by
  have htan := Real.lt_tan hr hlt
  rw [highRadius, lt_div_iff₀ hr, sq]
  exact mul_lt_mul'' htan htan hr.le hr.le

/-- The high pass is stable, and its squared gain is that of a Butterworth filter of `2 * m` poles;
its cutoff comes from `tan r ^ 2 / r` in the place of `r`, where `r` is the tangent of half of the
cutoff asked for.  Up to `r = π / 2` that is too high, and the cutoff asked for loses more than half
of its power. -/
theorem highpass_butterworth (fc dt : ℝ) (m : ℕ) (p : List (Pole ℝ)) (hm : 0 < m)
    (hlen : 2 * m ≤ p.length) (hdt : 0 < dt) (hfc : 0 < fc) (hnyquist : fc * dt < 1 / 2)
    (hsin : Real.sin (2 * Real.tan (Real.pi * (fc * dt))) ≠ 0) :
    ∃ high, highpass realTrig fc dt (2 * m : ℕ) p = some high ∧ high.1.length = p.length ∧
      Stable (high.1.take (2 * m)) ∧
      (∀ ω : ℝ, Real.cos (ω / 2) ≠ 0 → Real.sin (ω / 2) ≠ 0 →
        ‖partTransfer highSection (high.1.take (2 * m)) high.2 (Complex.exp (ω * Complex.I))‖ ^ 2 =
          1 / (1 + (highRadius (Real.tan (Real.pi * (fc * dt))) / Real.tan (ω / 2)) ^
            (2 * (2 * m)))) ∧
      (Real.tan (Real.pi * (fc * dt)) < Real.pi / 2 →
        ‖partTransfer highSection (high.1.take (2 * m)) high.2
          (Complex.exp ((2 * Real.pi * (fc * dt) : ℝ) * Complex.I))‖ ^ 2 < 1 / 2) := by
  have hr := tan_pos_of_below (mul_pos hfc hdt) hnyquist
  obtain ⟨high, hrun, hlength, hstable, hgain⟩ := highpass_spec hm hlen hdt.ne' hr hsin
  refine ⟨high, hrun, hlength, hstable, hgain, fun hlt => ?_⟩
  have hx : 2 * Real.pi * (fc * dt) / 2 = Real.pi * (fc * dt) := by ring
  have hne : Real.sin (Real.pi * (fc * dt)) ≠ 0 ∧ Real.cos (Real.pi * (fc * dt)) ≠ 0 := by
    rw [← div_ne_zero_iff, ← Real.tan_eq_sin_div_cos]
    exact hr.ne'
  have hbig := one_lt_pow₀ ((one_lt_div hr).2 (lt_highRadius hr hlt))
    (by omega : 2 * (2 * m) ≠ 0)
  rw [hgain _ (by rw [hx]; exact hne.2) (by rw [hx]; exact hne.1), hx]
  exact one_div_lt_one_div_of_lt two_pos (by linarith)

theorem sin_two_mul_tan_ne_zero : Real.sin (2 * Real.tan (Real.pi * (1 * (1 / 4)))) ≠ 0 := by
  rw [one_mul, mul_one_div, Real.tan_pi_div_four, mul_one]
  exact (Real.sin_pos_of_pos_of_lt_pi two_pos (by linarith [Real.pi_gt_three])).ne'

/-- Two poles and half of the Nyquist frequency. -/
theorem highpass_butterworth_two :
    ∃ high, highpass realTrig 1 (1 / 4) (2 * 1 : ℕ) [one, one] = some high ∧
      high.1.length = [(one : Pole ℝ), one].length ∧ Stable (high.1.take (2 * 1)) ∧
      (∀ ω : ℝ, Real.cos (ω / 2) ≠ 0 → Real.sin (ω / 2) ≠ 0 →
        ‖partTransfer highSection (high.1.take (2 * 1)) high.2 (Complex.exp (ω * Complex.I))‖ ^ 2 =
          1 / (1 + (highRadius (Real.tan (Real.pi * (1 * (1 / 4)))) / Real.tan (ω / 2)) ^
            (2 * (2 * 1)))) ∧
      (Real.tan (Real.pi * (1 * (1 / 4))) < Real.pi / 2 →
        ‖partTransfer highSection (high.1.take (2 * 1)) high.2
          (Complex.exp ((2 * Real.pi * (1 * (1 / 4)) : ℝ) * Complex.I))‖ ^ 2 < 1 / 2) :=
  highpass_butterworth 1 (1 / 4) 1 [one, one] one_pos le_rfl (by norm_num) one_pos (by norm_num)
    sin_two_mul_tan_ne_zero

end PQL
