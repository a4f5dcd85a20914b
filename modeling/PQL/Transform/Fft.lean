import Mathlib
import PQL.Lib.While
import PQL.Lib.BitReversal
import PQL.Lib.Fourier

/-!
# The complex Fourier transform

`cfour` sorts interleaved complex samples by their reversed indices and combines them in stages of
butterflies.  The arithmetic, the full turn and the sine are parameters; indices count from one, as
in the source.
-/

namespace PQL

/-- The full turn and the functions of the mathematical library. -/
structure Trig (R : Type) where
  twoPi : R
  sin : R → R
  cos : R → R

namespace Fft

section Routine

variable {R : Type} [Field R]

/-! ## The routine -/

/-- The carry of the reversed index: `do { … } while (ip1 >= ip0); i3rev += ip1;` -/
def carry (i3rev ip1 : ℕ) : ℕ :=
  if i3rev ≤ ip1 then i3rev + ip1
  else if h : 2 ≤ ip1 / 2 then carry (i3rev - ip1) (ip1 / 2)
  else i3rev - ip1 + ip1 / 2
  termination_by ip1
  decreasing_by omega

/-- Exchanges the complex entries at `i3` and `i3rev`. -/
def swap (data : ℕ → R) (i3 i3rev : ℕ) : ℕ → R :=
  let tempr := data (i3 - 1)
  let tempi := data i3
  let data := Function.update data (i3 - 1) (data (i3rev - 1))
  let data := Function.update data i3 (data i3rev)
  let data := Function.update data (i3rev - 1) tempr
  Function.update data i3rev tempi

/-- A pass of the bit reversal. -/
def reverseStep (ip3 : ℕ) (s : (ℕ → R) × ℕ) (i3 : ℕ) : (ℕ → R) × ℕ :=
  (if i3 < s.2 then swap s.1 i3 s.2 else s.1, carry s.2 (ip3 / 2))

def butterfly (wr wi : R) (data : ℕ → R) (i2a i2b : ℕ) : ℕ → R :=
  let tempr := wr * data (i2b - 1) - wi * data i2b
  let tempi := wr * data i2b + wi * data (i2b - 1)
  let data := Function.update data (i2b - 1) (data (i2a - 1) - tempr)
  let data := Function.update data i2b (data i2a - tempi)
  let data := Function.update data (i2a - 1) (data (i2a - 1) + tempr)
  Function.update data i2a (data i2a + tempi)

/-- The data and the twiddle. -/
structure Column (R : Type) where
  data : ℕ → R
  wr : R
  wi : R

/-- The butterflies with one twiddle, and the next twiddle. -/
def column (ip1 ip2 ip3 : ℕ) (wstpr wstpi : R) (s : Column R) (i1 : ℕ) : Column R where
  data := strideLoop i1 ip3 ip2 (fun data i3 => butterfly s.wr s.wi data i3 (i3 + ip1)) s.data
  wr := s.wr * wstpr - s.wi * wstpi + s.wr
  wi := s.wi * wstpr + s.wr * wstpi + s.wi

/-- A stage; the second value is `ip1`. -/
def stageStep (trig : Trig R) (isign : ℤ) (ip3 : ℕ) (s : (ℕ → R) × ℕ) : (ℕ → R) × ℕ :=
  let ip1 := s.2
  let ip2 := ip1 * 2
  let theta := trig.twoPi / ((isign * ip2).tdiv 2 : ℤ)
  let sinth := trig.sin (theta / 2)
  let wstpr := -2 * sinth * sinth
  let wstpi := trig.sin theta
  ((strideLoop 1 (ip1 + 1) 2 (column ip1 ip2 ip3 wstpr wstpi) ⟨s.1, 1, 0⟩).data, ip2)

/-- `cfour`; each stage doubles `ip1`, so that `ip3` passes are enough. -/
def cfour (trig : Trig R) (data : ℕ → R) (n : ℕ) (isign : ℤ) : Option (ℕ → R) :=
  let ip3 := 2 * n
  let data := (strideLoop 1 (ip3 + 1) 2 (reverseStep ip3) (data, 1)).1
  (whileLoop (fun s => decide (s.2 < ip3)) (fun s => some (stageStep trig isign ip3 s)) ip3
    (data, 2)).map Prod.fst

end Routine

/-! ## Complex entries -/

/-- The complex entry `p` of interleaved data. -/
def entry (data : ℕ → ℝ) (p : ℕ) : ℂ := ⟨data (2 * p), data (2 * p + 1)⟩

theorem entry_swap (data : ℕ → ℝ) (a b : ℕ) :
    entry (swap data (2 * a + 1) (2 * b + 1)) = exchange (entry data) a b := by
  funext p
  have hother : ∀ i j : ℕ, 2 * i ≠ 2 * j + 1 := fun i j => by omega
  unfold swap exchange entry
  simp only [Nat.add_sub_cancel, Function.update_apply, Nat.add_right_cancel_iff, hother,
    (hother _ _).symm, mul_right_inj' two_ne_zero, if_false]
  split_ifs <;> rfl

theorem entry_butterfly (data : ℕ → ℝ) (w : ℂ) {a h : ℕ} (hh : 0 < h) :
    entry (butterfly w.re w.im data (2 * a + 1) (2 * (a + h) + 1)) =
      butterflyAt w h a (entry data) := by
  funext p
  have hother : ∀ i j : ℕ, 2 * i ≠ 2 * j + 1 := fun i j => by omega
  have hab : a ≠ a + h := by omega
  unfold butterfly butterflyAt entry
  simp only [Nat.add_sub_cancel, Function.update_apply, Nat.add_right_cancel_iff, hother,
    (hother _ _).symm, mul_right_inj' two_ne_zero, hab, if_false]
  split_ifs
  · apply Complex.ext
    · rw [Complex.add_re, Complex.mul_re]
    · rw [Complex.add_im, Complex.mul_im]
  · apply Complex.ext
    · rw [Complex.sub_re, Complex.mul_re]
    · rw [Complex.sub_im, Complex.mul_im]
  · rfl

/-! ## The bit reversal -/

theorem carry_eq (t : ℕ) {r : ℕ} (hr : r + 1 < 2 ^ (t + 1)) :
    carry (2 * r + 1) (2 ^ (t + 1)) = 2 * revSucc (t + 1) r + 1 := by
  have hdouble : 2 ^ (t + 1) = 2 * 2 ^ t := pow_succ' 2 t
  have hhalf : 2 ^ (t + 1) / 2 = 2 ^ t := by omega
  induction t generalizing r with
  | zero =>
    obtain rfl : r = 0 := by omega
    rw [carry, revSucc]
    rfl
  | succ t ih =>
    rw [carry, revSucc]
    by_cases hlow : r < 2 ^ (t + 1)
    · rw [if_pos (by omega), if_pos hlow]
      omega
    · have hdeeper : 2 ≤ 2 ^ (t + 1) := by
        have hpos : 0 < 2 ^ t := Nat.two_pow_pos t
        rw [pow_succ']
        omega
      have hrest : 2 * r + 1 - 2 ^ (t + 1 + 1) = 2 * (r - 2 ^ (t + 1)) + 1 := by omega
      rw [if_neg (by omega), if_neg hlow, hhalf, dif_pos hdeeper, hrest]
      exact ih (by omega) (pow_succ' 2 t) (by rw [pow_succ']; omega)

/-- The entries stand at their reversed indices. -/
theorem reverse_spec (k : ℕ) (data : ℕ → ℝ) :
    ∀ p, entry (strideLoop 1 (2 * 2 ^ k + 1) 2 (reverseStep (2 * 2 ^ k)) (data, 1)).1 p =
      if p < 2 ^ k then entry data (bitRev k p) else entry data p := by
  have hpasses : strides 1 (2 * 2 ^ k + 1) 2 = 2 ^ k := by
    unfold strides
    omega
  have hloop := strideLoop_invariant 1 (2 * 2 ^ k + 1) 2 (reverseStep (2 * 2 ^ k)) (data, 1)
    (fun m s => (m < 2 ^ k → s.2 = 2 * bitRev k m + 1) ∧ ∀ p, entry s.1 p =
      if p < 2 ^ k then exchanged (entry data) (bitRev k) m p else entry data p) ?_ ?_
  · rw [hpasses] at hloop
    intro p
    rw [hloop.2 p]
    by_cases hp : p < 2 ^ k
    · rw [if_pos hp, if_pos hp, exchanged_all hp]
    · rw [if_neg hp, if_neg hp]
  · refine ⟨fun _ => by rw [bitRev_zero], fun p => ?_⟩
    rw [exchanged_zero, ite_self]
  · rintro m hm ⟨x, i3rev⟩ ⟨hrev, hentry⟩
    rw [hpasses] at hm
    have hindex : 1 + m * 2 = 2 * m + 1 := by ring
    have hlt := bitRev_lt k m
    obtain rfl : i3rev = 2 * bitRev k m + 1 := hrev hm
    have hinside : ∀ p < 2 ^ k, entry x p = exchanged (entry data) (bitRev k) m p :=
      fun p hp => (hentry p).trans (if_pos hp)
    have houtside : ∀ p, ¬ p < 2 ^ k → entry x p = entry data p :=
      fun p hp => (hentry p).trans (if_neg hp)
    unfold reverseStep
    dsimp only
    rw [hindex]
    refine ⟨fun hnext => ?_, fun p => ?_⟩
    · obtain ⟨t, rfl⟩ : ∃ t, k = t + 1 := Nat.exists_eq_succ_of_ne_zero (by rintro rfl; omega)
      rw [Nat.mul_div_cancel_left _ two_pos, carry_eq t (bitRev_succ_lt hnext),
        revSucc_bitRev (t + 1) hnext]
    · have hpass : entry (if 2 * m + 1 < 2 * bitRev k m + 1 then
          swap x (2 * m + 1) (2 * bitRev k m + 1) else x) p =
            (if m < bitRev k m then exchange (entry x) m (bitRev k m) else entry x) p := by
        by_cases hlow : m < bitRev k m
        · rw [if_pos (by omega), if_pos hlow, entry_swap]
        · rw [if_neg (by omega), if_neg hlow]
      rw [hpass]
      by_cases hp : p < 2 ^ k
      · rw [if_pos hp, exchanged_succ (fun p _ => bitRev_lt k p) (fun p hp => bitRev_bitRev k hp) hm
          hp]
        split_ifs
        · exact exchange_congr hinside hm hlt hp
        · exact hinside p hp
      · rw [if_neg hp]
        split_ifs
        · rw [exchange_of_le hm hlt (not_lt.1 hp), houtside p hp]
        · exact houtside p hp

/-! ## The stages -/

/-- The root of unity of order two to the power of `s`, in the direction of `isign`. -/
noncomputable def turn (isign : ℤ) (s : ℕ) : ℂ :=
  Complex.exp (2 * Real.pi / (isign * 2 ^ s) * Complex.I)

/-- Real arithmetic with the exact functions. -/
noncomputable def exact : Trig ℝ := ⟨2 * Real.pi, Real.sin, Real.cos⟩

theorem turn_tower {isign : ℤ} (hsign : isign = 1 ∨ isign = -1) : RootTower (turn isign) where
  zero := by
    have hturn : Complex.exp (2 * Real.pi * Complex.I) = 1 := Complex.exp_two_pi_mul_I
    unfold turn
    rw [pow_zero, mul_one]
    rcases hsign with rfl | rfl
    · rw [Int.cast_one, div_one, hturn]
    · rw [Int.cast_neg, Int.cast_one, div_neg, div_one, neg_mul, Complex.exp_neg, hturn, inv_one]
  one := by
    have hturn : Complex.exp (Real.pi * Complex.I) = -1 := Complex.exp_pi_mul_I
    have hhalf : (2 * Real.pi / 2 : ℂ) = Real.pi := by ring
    unfold turn
    rw [pow_one]
    rcases hsign with rfl | rfl
    · rw [Int.cast_one, one_mul, hhalf, hturn]
    · rw [Int.cast_neg, Int.cast_one, neg_one_mul, div_neg, hhalf, neg_mul, Complex.exp_neg, hturn,
        inv_neg, inv_one]
  sq := by
    intro s
    have hsign' : (isign : ℂ) ≠ 0 := by
      rcases hsign with rfl | rfl <;> norm_num
    unfold turn
    rw [← Complex.exp_nat_mul]
    congr 1
    push_cast
    field_simp
    rw [pow_succ']

theorem turn_eq (isign : ℤ) (s : ℕ) :
    turn isign s = ⟨Real.cos (2 * Real.pi / (isign * 2 ^ s)),
      Real.sin (2 * Real.pi / (isign * 2 ^ s))⟩ := by
  have hreal : (2 * Real.pi / (isign * 2 ^ s) : ℂ) = (2 * Real.pi / (isign * 2 ^ s) : ℝ) := by
    push_cast
    rfl
  unfold turn
  rw [hreal]
  apply Complex.ext
  · rw [Complex.exp_ofReal_mul_I_re]
  · rw [Complex.exp_ofReal_mul_I_im]

open Classical in
theorem column_spec {w : ℕ → ℂ} {h Q j : ℕ} (hj : j < h) (hQ : 0 < Q) {z : ℕ → ℂ} {s : Column ℝ}
    {wstpr wstpi : ℝ} (htwiddle : w j = ⟨s.wr, s.wi⟩)
    (hentry : entry s.data = (doneBefore h (2 * h * Q) j 0).piecewise (stage w h z) z) :
    entry (column (2 * h) (2 * h * 2) (2 * (2 * h * Q)) wstpr wstpi s (1 + j * 2)).data =
      (doneBefore h (2 * h * Q) (j + 1) 0).piecewise (stage w h z) z := by
  have hpasses : strides (1 + j * 2) (2 * (2 * h * Q)) (2 * h * 2) = Q := by
    unfold strides
    have hpos : 2 * h * 2 ≤ 2 * h * 2 * Q := Nat.le_mul_of_pos_right _ hQ
    have htotal : 2 * (2 * h * Q) = 2 * h * 2 * Q := by ring
    apply Nat.div_eq_of_lt_le
    · rw [htotal, mul_comm Q]
      omega
    · rw [htotal, add_mul Q, one_mul, mul_comm Q]
      omega
  have hloop := strideLoop_invariant (1 + j * 2) (2 * (2 * h * Q)) (2 * h * 2)
    (fun data i3 => butterfly s.wr s.wi data i3 (i3 + 2 * h)) s.data
    (fun q data => entry data = (doneBefore h (2 * h * Q) j q).piecewise (stage w h z) z)
    hentry ?_
  · rw [hpasses, doneBefore_next (by omega)] at hloop
    exact hloop
  · intro q hq data hdata
    rw [hpasses] at hq
    have hlow : 1 + j * 2 + q * (2 * h * 2) = 2 * (2 * h * q + j) + 1 := by ring
    have hhigh : 2 * (2 * h * q + j) + 1 + 2 * h = 2 * (2 * h * q + j + h) + 1 := by ring
    have hplace : (2 * h * q + j) % (2 * h) = j := by
      rw [Nat.mul_add_mod, Nat.mod_eq_of_lt (by omega)]
    have hbutterfly := entry_butterfly data (w j) (a := 2 * h * q + j) (h := h) (by omega)
    rw [htwiddle] at hbutterfly
    rw [hlow, hhigh, hbutterfly, hdata, ← htwiddle]
    have hstep := butterflyAt_piecewise w z (h := h) (a := 2 * h * q + j)
      (S := doneBefore h (2 * h * Q) j q) (T := doneBefore h (2 * h * Q) j (q + 1))
      (by rw [hplace]; exact hj) ?_ ?_ (mem_doneBefore_succ hj hq)
    · rw [hplace] at hstep
      exact hstep
    · rw [mem_doneBefore (by omega)]
      split_ifs
      omega
    · rw [add_assoc, mem_doneBefore (by omega)]
      split_ifs
      · omega
      · omega

/-- A stage of width `2 ^ s` on `2 * 2 ^ s * Q` entries. -/
theorem stageStep_spec (isign : ℤ) {s Q : ℕ} (hQ : 0 < Q) (data : ℕ → ℝ) :
    (stageStep exact isign (2 * (2 * 2 ^ s * Q)) (data, 2 * 2 ^ s)).2 = 2 * 2 ^ (s + 1) ∧
      ∀ p, entry (stageStep exact isign (2 * (2 * 2 ^ s * Q)) (data, 2 * 2 ^ s)).1 p =
        if p < 2 * 2 ^ s * Q then stage (fun j => turn isign (s + 1) ^ j) (2 ^ s) (entry data) p
        else entry data p := by
  have hsteps : (isign * (2 * 2 ^ s * 2 : ℕ)).tdiv 2 = isign * 2 ^ (s + 1) := by
    have hproduct : isign * (2 * 2 ^ s * 2 : ℕ) = isign * 2 ^ (s + 1) * 2 := by
      push_cast
      ring
    rw [hproduct, Int.mul_tdiv_cancel _ two_ne_zero]
  refine ⟨by rw [stageStep, pow_succ]; ring, ?_⟩
  unfold stageStep
  dsimp only
  rw [hsteps]
  obtain ⟨theta, htheta⟩ : ∃ theta, exact.twoPi / ((isign * 2 ^ (s + 1) : ℤ) : ℝ) = theta :=
    ⟨_, rfl⟩
  have hturn : turn isign (s + 1) = ⟨Real.cos theta, Real.sin theta⟩ := by
    rw [turn_eq, ← htheta]
    push_cast
    rfl
  -- the twiddle is turned by `wstpr + 1` and `wstpi`
  have hcos : -2 * exact.sin (theta / 2) * exact.sin (theta / 2) = Real.cos theta - 1 := by
    calc -2 * exact.sin (theta / 2) * exact.sin (theta / 2)
        = -2 * Real.sin (theta / 2) ^ 2 := by rw [exact, pow_two, mul_assoc]
      _ = Real.cos (2 * (theta / 2)) - 1 := by
          rw [Real.cos_two_mul, Real.cos_sq']
          ring
      _ = Real.cos theta - 1 := by rw [mul_div_cancel₀ theta two_ne_zero]
  rw [htheta, hcos]
  have hpasses : strides 1 (2 * 2 ^ s + 1) 2 = 2 ^ s := by
    unfold strides
    omega
  classical
  have hloop := strideLoop_invariant 1 (2 * 2 ^ s + 1) 2
    (column (2 * 2 ^ s) (2 * 2 ^ s * 2) (2 * (2 * 2 ^ s * Q)) (Real.cos theta - 1)
      (exact.sin theta)) ⟨data, 1, 0⟩
    (fun j c => turn isign (s + 1) ^ j = ⟨c.wr, c.wi⟩ ∧
      entry c.data = (doneBefore (2 ^ s) (2 * 2 ^ s * Q) j 0).piecewise
        (stage (fun j => turn isign (s + 1) ^ j) (2 ^ s) (entry data)) (entry data)) ?_ ?_
  · rw [hpasses] at hloop
    intro p
    rw [hloop.2]
    by_cases hp : p < 2 * 2 ^ s * Q
    · rw [if_pos hp, Set.piecewise_eq_of_mem _ _ _
        ((mem_doneBefore_last (Nat.two_pow_pos s)).2 hp)]
    · rw [if_neg hp, Set.piecewise_eq_of_notMem _ _ _ fun hdone =>
        hp ((mem_doneBefore_last (Nat.two_pow_pos s)).1 hdone)]
  · rw [doneBefore_first, Set.piecewise_empty]
    exact ⟨pow_zero _, rfl⟩
  · rintro j hj c ⟨htwiddle, hentry⟩
    rw [hpasses] at hj
    refine ⟨?_, column_spec hj hQ htwiddle hentry⟩
    rw [pow_succ, htwiddle, hturn]
    apply Complex.ext
    · rw [Complex.mul_re, column, exact]
      ring
    · rw [Complex.mul_im, column, exact]
      ring

/-- `cfour` is the discrete Fourier transform of the complex entries, for the root of unity in the
direction of `isign`. -/
theorem cfour_spec (isign : ℤ) (hsign : isign = 1 ∨ isign = -1) (k : ℕ) (data : ℕ → ℝ) :
    ∃ y, cfour exact data (2 ^ k) isign = some y ∧ ∀ p, entry y p =
      if p < 2 ^ k then dft (turn isign k) (2 ^ k) (entry data) p else entry data p := by
  have hω := turn_tower hsign
  obtain ⟨x, hx⟩ : ∃ x,
      (strideLoop 1 (2 * 2 ^ k + 1) 2 (reverseStep (2 * 2 ^ k)) (data, 1)).1 = x := ⟨_, rfl⟩
  have hreverse := reverse_spec k data
  rw [hx] at hreverse
  have hpos : 0 < 2 ^ k := Nat.two_pow_pos k
  have hloop : ∃ y : (ℕ → ℝ) × ℕ,
      whileLoop (fun s : (ℕ → ℝ) × ℕ => decide (s.2 < 2 * 2 ^ k))
        (fun s => some (stageStep exact isign (2 * 2 ^ k) s)) (2 * 2 ^ k) (x, 2) = some y ∧
        (∃ s ≤ k, y.2 = 2 * 2 ^ s ∧ ∀ p, entry y.1 p =
          if p < 2 ^ k then blocks (turn isign) k (entry data) s p else entry data p) ∧
        decide (y.2 < 2 * 2 ^ k) = false := by
    refine whileLoop_spec
      (P := fun y : (ℕ → ℝ) × ℕ => ∃ s ≤ k, y.2 = 2 * 2 ^ s ∧ ∀ p, entry y.1 p =
        if p < 2 ^ k then blocks (turn isign) k (entry data) s p else entry data p)
      (fun y : (ℕ → ℝ) × ℕ => 2 * 2 ^ k - y.2) ?_ ⟨0, Nat.zero_le k, rfl, fun p => ?_⟩
      (by dsimp only; omega)
    · rintro ⟨y, ip1⟩ ⟨s, hs, hip1, hentry⟩ hcond
      dsimp only at hip1 hentry
      subst hip1
      have hlt : 2 * 2 ^ s < 2 * 2 ^ k := of_decide_eq_true hcond
      have hsk : s < k := (Nat.pow_lt_pow_iff_right one_lt_two).1 (by omega)
      obtain ⟨t, rfl⟩ := Nat.exists_eq_add_of_lt hsk
      have hsplit : 2 ^ (s + t + 1) = 2 * 2 ^ s * 2 ^ t := by
        rw [pow_succ, pow_add]
        ring
      obtain ⟨hip1, hstage⟩ := stageStep_spec isign (s := s) (Nat.two_pow_pos t) y
      rw [← hsplit] at hip1 hstage
      refine ⟨_, rfl, ⟨s + 1, by omega, hip1, fun p => ?_⟩, ?_⟩
      · rw [hstage p]
        by_cases hp : p < 2 ^ (s + t + 1)
        · rw [if_pos hp, if_pos hp, ← stage_blocks hω (by omega)]
          rw [hsplit] at hp
          refine stage_congr _ (fun p hp => ?_) hp
          rw [hentry p, if_pos (by rw [hsplit]; exact hp)]
        · rw [if_neg hp, if_neg hp, hentry p, if_neg hp]
      · rw [hip1]
        have hdouble : 2 ^ (s + 1) = 2 * 2 ^ s := pow_succ' 2 s
        have hpos' : 0 < 2 ^ s := Nat.two_pow_pos s
        dsimp only
        omega
    · rw [hreverse p]
      by_cases hp : p < 2 ^ k
      · rw [if_pos hp, if_pos hp, blocks_zero hω]
      · rw [if_neg hp, if_neg hp]
  obtain ⟨⟨y, ip1⟩, hrun, ⟨s, hs, hip1, hentry⟩, hend⟩ := hloop
  obtain rfl : s = k := by
    by_contra hne
    have hlt : 2 ^ s < 2 ^ k := Nat.pow_lt_pow_right one_lt_two (by omega)
    exact absurd (of_decide_eq_false hend) (by dsimp only at hip1 ⊢; omega)
  refine ⟨y, ?_, fun p => ?_⟩
  · rw [cfour, hx, hrun]
    rfl
  · rw [hentry p]
    by_cases hp : p < 2 ^ s
    · rw [if_pos hp, if_pos hp, blocks_last _ hp]
    · rw [if_neg hp, if_neg hp]

end Fft

end PQL
