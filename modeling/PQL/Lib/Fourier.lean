import Mathlib
import PQL.Lib.Arrays
import PQL.Lib.BitReversal

/-!
# Fourier transforms of length two to the power of `k`

The discrete Fourier transform for a root of unity (`dft`), the transforms of the interleaved parts
of a sequence that stand in the blocks after a number of stages (`blocks`), the butterflies that
lead from one stage to the next (`stage_blocks`), the inverse (`dft_dft_inv`), and the transform of
a real sequence from the transform of half the length (`dft_real`).
-/

namespace PQL

open Finset

theorem sum_range_two_mul {M : Type*} [AddCommMonoid M] (f : ℕ → M) (n : ℕ) :
    ∑ m ∈ range (2 * n), f m = ∑ m ∈ range n, (f (2 * m) + f (2 * m + 1)) := by
  induction n with
  | zero => rfl
  | succ n ih => rw [Nat.mul_succ, sum_range_succ, sum_range_succ, ih, sum_range_succ, add_assoc]

/-- The discrete Fourier transform of `n` samples for the root of unity `ζ`. -/
def dft {R : Type*} [Semiring R] (ζ : R) (n : ℕ) (z : ℕ → R) (j : ℕ) : R :=
  ∑ m ∈ range n, z m * ζ ^ (j * m)

/-! ## The stages -/

section Stages

variable {R : Type*} [CommRing R]

/-- The roots of unity of order two to the power of `s`, each the square of the next. -/
structure RootTower (ω : ℕ → R) : Prop where
  zero : ω 0 = 1
  one : ω 1 = -1
  sq : ∀ s, ω (s + 1) ^ 2 = ω s

variable {ω : ℕ → R}

theorem RootTower.pow_two_pow (hω : RootTower ω) (s t : ℕ) : ω (s + t) ^ 2 ^ t = ω s := by
  induction t with
  | zero => rw [pow_zero, pow_one, add_zero]
  | succ t ih => rw [pow_succ', pow_mul, ← add_assoc, hω.sq, ih]

theorem RootTower.half (hω : RootTower ω) (s : ℕ) : ω (s + 1) ^ 2 ^ s = -1 := by
  rw [add_comm, hω.pow_two_pow, hω.one]

theorem RootTower.full (hω : RootTower ω) (s : ℕ) : ω s ^ 2 ^ s = 1 := by
  have hpow := hω.pow_two_pow 0 s
  rw [zero_add] at hpow
  rw [hpow, hω.zero]

/-- Butterflies of width `h` with the twiddles `w`, in all blocks of `2 * h` entries. -/
def stage (w : ℕ → R) (h : ℕ) (z : ℕ → R) (p : ℕ) : R :=
  if p % (2 * h) < h then z p + w (p % (2 * h)) * z (p + h)
  else z (p - h) - w (p % (2 * h) - h) * z p

/-- A stage stays inside of its blocks. -/
theorem stage_congr (w : ℕ → R) {h Q : ℕ} {z z' : ℕ → R} (hz : ∀ p < 2 * h * Q, z p = z' p) {p : ℕ}
    (hp : p < 2 * h * Q) : stage w h z p = stage w h z' p := by
  have hpos : 0 < 2 * h := by
    by_contra hzero
    rw [Nat.eq_zero_of_not_pos hzero, zero_mul] at hp
    exact absurd hp (Nat.not_lt_zero p)
  have hsplit := Nat.div_add_mod p (2 * h)
  have hblock : p / (2 * h) < Q := by
    rw [Nat.div_lt_iff_lt_mul hpos, mul_comm]
    exact hp
  have hend : 2 * h * (p / (2 * h)) + 2 * h ≤ 2 * h * Q := by
    rw [← Nat.mul_succ]
    exact Nat.mul_le_mul_left _ hblock
  unfold stage
  split_ifs with hlow
  · rw [hz p hp, hz (p + h) (by omega)]
  · rw [hz p hp, hz (p - h) (by omega)]

/-- A butterfly on the entries `a` and `a + h`. -/
def butterflyAt (w : R) (h a : ℕ) (z : ℕ → R) : ℕ → R := fun p =>
  if p = a then z a + w * z (a + h) else if p = a + h then z a - w * z (a + h) else z p

open Classical in
/-- A butterfly adds its two entries to those that the stage has done. -/
theorem butterflyAt_piecewise (w : ℕ → R) {h a : ℕ} (z : ℕ → R) {S T : Set ℕ}
    (ha : a % (2 * h) < h) (hlow : a ∉ S) (hhigh : a + h ∉ S)
    (hT : ∀ p, p ∈ T ↔ p ∈ S ∨ p = a ∨ p = a + h) :
    butterflyAt (w (a % (2 * h))) h a (S.piecewise (stage w h z) z) =
      T.piecewise (stage w h z) z := by
  have hplace : (a + h) % (2 * h) = a % (2 * h) + h := by
    have hsplit : a + h = 2 * h * (a / (2 * h)) + (a % (2 * h) + h) := by
      rw [← add_assoc, Nat.div_add_mod]
    rw [hsplit, Nat.mul_add_mod, Nat.mod_eq_of_lt (by omega)]
  funext p
  unfold butterflyAt
  rw [Set.piecewise_eq_of_notMem S _ _ hlow, Set.piecewise_eq_of_notMem S _ _ hhigh]
  by_cases hpa : p = a
  · rw [if_pos hpa, Set.piecewise_eq_of_mem _ _ _ ((hT p).2 (.inr (.inl hpa))), hpa, stage,
      if_pos ha]
  · rw [if_neg hpa]
    by_cases hph : p = a + h
    · rw [if_pos hph, Set.piecewise_eq_of_mem _ _ _ ((hT p).2 (.inr (.inr hph))), hph, stage,
        hplace, if_neg (by omega), Nat.add_sub_cancel, Nat.add_sub_cancel]
    · rw [if_neg hph]
      by_cases hp : p ∈ S
      · rw [Set.piecewise_eq_of_mem _ _ _ hp, Set.piecewise_eq_of_mem _ _ _ ((hT p).2 (.inl hp))]
      · have hp' : p ∉ T := fun h => by
          rcases (hT p).1 h with h | h | h
          · exact hp h
          · exact hpa h
          · exact hph h
        rw [Set.piecewise_eq_of_notMem _ _ _ hp, Set.piecewise_eq_of_notMem _ _ _ hp']

/-- The entries that are done once the columns before `j`, and of column `j` the blocks before `q`,
are done. -/
def doneBefore (h n j q : ℕ) : Set ℕ :=
  {p | p < n ∧ (p % h < j ∨ p % h = j ∧ p / (2 * h) < q)}

theorem mem_doneBefore {h Q j q c r : ℕ} (hr : r < 2 * h) :
    2 * h * c + r ∈ doneBefore h (2 * h * Q) j q ↔
      c < Q ∧ ((if r < h then r else r - h) < j ∨ (if r < h then r else r - h) = j ∧ c < q) := by
  have hdiv : (2 * h * c + r) / (2 * h) = c := by
    rw [Nat.mul_add_div (by omega), Nat.div_eq_of_lt hr, add_zero]
  have hmod : (2 * h * c + r) % h = if r < h then r else r - h := by
    have hsplit : 2 * h * c + r = h * (2 * c) + r := by ring
    rw [hsplit, Nat.mul_add_mod]
    split_ifs with hlow
    · exact Nat.mod_eq_of_lt hlow
    · rw [Nat.mod_eq_sub_mod (by omega), Nat.mod_eq_of_lt (by omega)]
  have hbound : 2 * h * c + r < 2 * h * Q ↔ c < Q := by
    rw [mul_comm (2 * h) Q, ← Nat.div_lt_iff_lt_mul (by omega), hdiv]
  rw [doneBefore, Set.mem_ofPred_eq, hdiv, hmod, hbound]

theorem mem_doneBefore_succ {h Q j q : ℕ} (hj : j < h) (hq : q < Q) (p : ℕ) :
    p ∈ doneBefore h (2 * h * Q) j (q + 1) ↔
      p ∈ doneBefore h (2 * h * Q) j q ∨ p = 2 * h * q + j ∨ p = 2 * h * q + j + h := by
  obtain ⟨c, r, hr, rfl⟩ : ∃ c r, r < 2 * h ∧ p = 2 * h * c + r :=
    ⟨p / (2 * h), p % (2 * h), Nat.mod_lt _ (by omega), (Nat.div_add_mod _ _).symm⟩
  have hplace : ∀ i < 2 * h, 2 * h * c + r = 2 * h * q + i ↔ c = q ∧ r = i := by
    intro i hi
    constructor
    · intro h'
      have hdiv := congrArg (· / (2 * h)) h'
      simp only [Nat.mul_add_div (show 0 < 2 * h by omega), Nat.div_eq_of_lt hr,
        Nat.div_eq_of_lt hi, add_zero] at hdiv
      subst hdiv
      exact ⟨rfl, by omega⟩
    · rintro ⟨rfl, rfl⟩
      rfl
  rw [mem_doneBefore hr, mem_doneBefore hr, add_assoc, hplace j (by omega),
    hplace (j + h) (by omega)]
  split_ifs <;> omega

theorem doneBefore_next {h Q j : ℕ} (hh : 0 < h) :
    doneBefore h (2 * h * Q) j Q = doneBefore h (2 * h * Q) (j + 1) 0 := by
  ext p
  obtain ⟨c, r, hr, rfl⟩ : ∃ c r, r < 2 * h ∧ p = 2 * h * c + r :=
    ⟨p / (2 * h), p % (2 * h), Nat.mod_lt _ (by omega), (Nat.div_add_mod _ _).symm⟩
  rw [mem_doneBefore hr, mem_doneBefore hr]
  omega

theorem doneBefore_first (h n : ℕ) : doneBefore h n 0 0 = ∅ := by
  ext p
  rw [doneBefore, Set.mem_ofPred_eq]
  constructor
  · rintro ⟨-, h' | ⟨-, h'⟩⟩
    · exact absurd h' (Nat.not_lt_zero _)
    · exact absurd h' (Nat.not_lt_zero _)
  · exact False.elim

theorem mem_doneBefore_last {h n p : ℕ} (hh : 0 < h) : p ∈ doneBefore h n h 0 ↔ p < n := by
  rw [doneBefore, Set.mem_ofPred_eq]
  exact ⟨And.left, fun hp => ⟨hp, .inl (Nat.mod_lt _ hh)⟩⟩

/-- After `s` stages the block `q` has the transform of every `2 ^ (k - s)`-th sample, from the
reversed `q` on. -/
def blocks (ω : ℕ → R) (k : ℕ) (z : ℕ → R) (s p : ℕ) : R :=
  dft (ω s) (2 ^ s) (fun m => z (m * 2 ^ (k - s) + bitRev (k - s) (p / 2 ^ s))) (p % 2 ^ s)

theorem blocks_zero (hω : RootTower ω) (k : ℕ) (z : ℕ → R) (p : ℕ) :
    blocks ω k z 0 p = z (bitRev k p) := by
  rw [blocks, dft, pow_zero, sum_range_one, hω.zero, one_pow, mul_one, zero_mul, zero_add,
    Nat.div_one, Nat.sub_zero]

theorem blocks_last {k : ℕ} (z : ℕ → R) {p : ℕ} (hp : p < 2 ^ k) :
    blocks ω k z k p = dft (ω k) (2 ^ k) z p := by
  rw [blocks, Nat.sub_self, Nat.div_eq_of_lt hp, Nat.mod_eq_of_lt hp]
  simp only [pow_zero, mul_one, bitRev, add_zero]

/-- A transform from the transforms of the even and of the odd samples. -/
theorem dft_two_mul (hω : RootTower ω) (s : ℕ) (z : ℕ → R) (j : ℕ) :
    dft (ω (s + 1)) (2 ^ (s + 1)) z j =
      dft (ω s) (2 ^ s) (fun m => z (2 * m)) j +
        ω (s + 1) ^ j * dft (ω s) (2 ^ s) (fun m => z (2 * m + 1)) j := by
  unfold dft
  rw [pow_succ', sum_range_two_mul, mul_sum, ← sum_add_distrib]
  apply sum_congr rfl
  intro m _
  have heven : j * (2 * m) = 2 * (j * m) := by ring
  have hodd : j * (2 * m + 1) = j + 2 * (j * m) := by ring
  rw [heven, hodd, pow_add, pow_mul, hω.sq]
  ring

/-- The transform repeats after as many entries as there are samples. -/
theorem dft_add (hω : RootTower ω) (s : ℕ) (z : ℕ → R) (j : ℕ) :
    dft (ω s) (2 ^ s) z (2 ^ s + j) = dft (ω s) (2 ^ s) z j := by
  apply sum_congr rfl
  intro m _
  rw [add_mul, pow_add, pow_mul (ω s) (2 ^ s), hω.full, one_pow, one_mul]

/-- One more stage. -/
theorem stage_blocks (hω : RootTower ω) {k s : ℕ} (hs : s < k) (z : ℕ → R) (p : ℕ) :
    stage (fun j => ω (s + 1) ^ j) (2 ^ s) (blocks ω k z s) p = blocks ω k z (s + 1) p := by
  obtain ⟨t, rfl⟩ := Nat.exists_eq_add_of_lt hs
  have hlate : s + t + 1 - s = t + 1 := by omega
  have hnext : s + t + 1 - (s + 1) = t := by omega
  have hpos : 0 < 2 ^ s := Nat.two_pow_pos s
  have hdouble : 2 ^ (s + 1) = 2 * 2 ^ s := pow_succ' 2 s
  obtain ⟨q, r, hr, rfl⟩ : ∃ q r, r < 2 * 2 ^ s ∧ p = 2 * 2 ^ s * q + r :=
    ⟨p / (2 * 2 ^ s), p % (2 * 2 ^ s), Nat.mod_lt _ (by omega), (Nat.div_add_mod _ _).symm⟩
  -- the samples of the even and of the odd half of the block
  have heven : ∀ m, m * 2 ^ (t + 1) + bitRev (t + 1) (2 * q) = 2 * m * 2 ^ t + bitRev t q := by
    intro m
    rw [bitRev_even]
    ring
  have hodd : ∀ m, m * 2 ^ (t + 1) + bitRev (t + 1) (2 * q + 1) =
      (2 * m + 1) * 2 ^ t + bitRev t q := by
    intro m
    rw [bitRev_odd]
    ring
  have hblock : (2 * 2 ^ s * q + r) / 2 ^ (s + 1) = q := by
    rw [hdouble, Nat.mul_add_div (by omega), Nat.div_eq_of_lt hr, add_zero]
  have hplace : (2 * 2 ^ s * q + r) % (2 * 2 ^ s) = r := by
    rw [Nat.mul_add_mod, Nat.mod_eq_of_lt hr]
  have hplace' : (2 * 2 ^ s * q + r) % 2 ^ (s + 1) = r := by rw [hdouble, hplace]
  have hhalf : ∀ c i, i < 2 ^ s → (2 ^ s * c + i) / 2 ^ s = c ∧ (2 ^ s * c + i) % 2 ^ s = i :=
    fun c i hi => ⟨by rw [Nat.mul_add_div hpos, Nat.div_eq_of_lt hi, add_zero],
      by rw [Nat.mul_add_mod, Nat.mod_eq_of_lt hi]⟩
  unfold stage blocks
  rw [hlate, hnext, hblock, hplace, hplace', dft_two_mul hω]
  by_cases hfirst : r < 2 ^ s
  · rw [if_pos hfirst]
    have hlow : 2 * 2 ^ s * q + r = 2 ^ s * (2 * q) + r := by ring
    have hhigh : 2 * 2 ^ s * q + r + 2 ^ s = 2 ^ s * (2 * q + 1) + r := by ring
    rw [hhigh, hlow, (hhalf _ r hfirst).1, (hhalf _ r hfirst).2, (hhalf _ r hfirst).1,
      (hhalf _ r hfirst).2]
    simp only [heven, hodd]
  · rw [if_neg hfirst]
    obtain ⟨i, rfl⟩ := Nat.exists_eq_add_of_le (not_lt.1 hfirst)
    have hi : i < 2 ^ s := by omega
    have hlow : 2 * 2 ^ s * q + (2 ^ s + i) - 2 ^ s = 2 ^ s * (2 * q) + i := by
      rw [mul_assoc, mul_left_comm]
      omega
    have hhigh : 2 * 2 ^ s * q + (2 ^ s + i) = 2 ^ s * (2 * q + 1) + i := by ring
    have hturn : ω (s + 1) ^ (2 ^ s + i) = -ω (s + 1) ^ i := by
      rw [pow_add, hω.half, neg_one_mul]
    rw [hlow, hhigh, (hhalf _ i hi).1, (hhalf _ i hi).2, (hhalf _ i hi).1, (hhalf _ i hi).2,
      Nat.add_sub_cancel_left, dft_add hω, dft_add hω, hturn, neg_mul, ← sub_eq_add_neg]
    simp only [heven, hodd]

end Stages

/-! ## The inverse -/

/-- The transform for the inverse root takes the transform back, up to the number of samples. -/
theorem dft_dft_inv {K : Type*} [Field K] {ζ : K} {n : ℕ} (hζ : IsPrimitiveRoot ζ n) (z : ℕ → K)
    {p : ℕ} (hp : p < n) : dft ζ⁻¹ n (dft ζ n z) p = n * z p := by
  have hne : ζ ≠ 0 := hζ.ne_zero (by omega)
  have hterm : ∀ m ∈ range n, ∑ j ∈ range n, z m * ζ ^ (j * m) * ζ⁻¹ ^ (p * j) =
      if m = p then n * z p else 0 := by
    intro m hm
    have hlt := mem_range.1 hm
    have hpower : ∀ j, z m * ζ ^ (j * m) * ζ⁻¹ ^ (p * j) = z m * (ζ ^ m * ζ⁻¹ ^ p) ^ j := by
      intro j
      rw [mul_pow, ← pow_mul, ← pow_mul, mul_comm j m, mul_assoc]
    rw [sum_congr rfl fun j _ => hpower j, ← mul_sum]
    by_cases hmp : m = p
    · rw [if_pos hmp, hmp, ← mul_pow, mul_inv_cancel₀ hne]
      simp only [one_pow, sum_const, card_range, nsmul_eq_mul, mul_one]
      ring
    · rw [if_neg hmp]
      have hroot : (ζ ^ m * ζ⁻¹ ^ p) ^ n = 1 := by
        rw [mul_pow, ← pow_mul, ← pow_mul, mul_comm m, mul_comm p, pow_mul, pow_mul, hζ.pow_eq_one,
          inv_pow, hζ.pow_eq_one, one_pow, inv_one, one_pow, mul_one]
      have hother : ζ ^ m * ζ⁻¹ ^ p ≠ 1 := by
        intro h
        rw [inv_pow, mul_inv_eq_one₀ (pow_ne_zero p hne)] at h
        exact hmp (hζ.pow_inj hlt hp h)
      rw [geom_sum_eq hother, hroot, sub_self, zero_div, mul_zero]
  calc dft ζ⁻¹ n (dft ζ n z) p
      = ∑ j ∈ range n, ∑ m ∈ range n, z m * ζ ^ (j * m) * ζ⁻¹ ^ (p * j) :=
        sum_congr rfl fun j _ => sum_mul _ _ _
    _ = ∑ m ∈ range n, ∑ j ∈ range n, z m * ζ ^ (j * m) * ζ⁻¹ ^ (p * j) := sum_comm
    _ = ∑ m ∈ range n, if m = p then n * z p else 0 := sum_congr rfl hterm
    _ = n * z p := by rw [sum_ite_eq' (range n) p, if_pos (mem_range.2 hp)]

/-! ## Real samples -/

section RealSamples

open ComplexConjugate

/-- The transform of twice the length at `p`, from that of half the length at `p` and at the entry
opposite to it. -/
noncomputable def untangle (w : ℂ) (z opposite : ℂ) : ℂ :=
  (conj z + opposite) / 2 + Complex.I / 2 * w * (conj z - opposite)

/-- Untangling is its own inverse. -/
theorem untangle_untangle {w : ℂ} (hw : w * conj w = 1) (z z' : ℂ) :
    untangle w (untangle w z z') (untangle (-conj w) z' z) = z := by
  have hI : Complex.I * Complex.I = -1 := Complex.I_mul_I
  unfold untangle
  simp only [map_add, map_mul, map_sub, map_div₀, Complex.conj_conj, Complex.conj_I,
    Complex.conj_ofNat]
  linear_combination (-(conj w * w * (z - conj z')) / 2) * hI + ((z - conj z') / 2) * hw

/-- The transform of real samples, two of which stand in each complex sample. -/
theorem dft_real (x : ℕ → ℝ) {w : ℂ} {h : ℕ} (hw : w * conj w = 1) (hroot : w ^ (2 * h) = 1)
    {p : ℕ} (hp : p ≤ h) :
    dft w (2 * h) (fun m => (x m : ℂ)) p =
      untangle (w ^ p) (dft (conj w ^ 2) h (fun m => ⟨x (2 * m), x (2 * m + 1)⟩) p)
        (dft (conj w ^ 2) h (fun m => ⟨x (2 * m), x (2 * m + 1)⟩) (h - p)) := by
  have hback : ∀ j, w ^ j * conj w ^ j = 1 := fun j => by rw [← mul_pow, hw, one_pow]
  -- the root at the opposite entry is the conjugate one
  have hopposite : ∀ m, (conj w ^ 2) ^ ((h - p) * m) = w ^ (2 * (p * m)) := by
    intro m
    have hsum : 2 * ((h - p) * m) + 2 * (p * m) = 2 * h * m := by
      obtain ⟨d, rfl⟩ := Nat.exists_eq_add_of_le hp
      rw [Nat.add_sub_cancel_left]
      ring
    have hone : conj w ^ (2 * ((h - p) * m)) * conj w ^ (2 * (p * m)) = 1 := by
      rw [← pow_add, hsum, pow_mul, ← map_pow, hroot, map_one, one_pow]
    rw [← pow_mul]
    calc conj w ^ (2 * ((h - p) * m))
        = conj w ^ (2 * ((h - p) * m)) * (w ^ (2 * (p * m)) * conj w ^ (2 * (p * m))) := by
          rw [hback, mul_one]
      _ = conj w ^ (2 * ((h - p) * m)) * conj w ^ (2 * (p * m)) * w ^ (2 * (p * m)) := by ring
      _ = w ^ (2 * (p * m)) := by rw [hone, one_mul]
  have hconj : conj (dft (conj w ^ 2) h (fun m => (⟨x (2 * m), x (2 * m + 1)⟩ : ℂ)) p) =
      ∑ m ∈ range h, ((x (2 * m) : ℂ) - x (2 * m + 1) * Complex.I) * w ^ (2 * (p * m)) := by
    rw [dft, map_sum]
    apply sum_congr rfl
    intro m _
    rw [Complex.mk_eq_add_mul_I, map_mul, map_pow, map_pow, Complex.conj_conj, ← pow_mul, map_add,
      map_mul, Complex.conj_ofReal, Complex.conj_ofReal, Complex.conj_I, mul_neg, ← sub_eq_add_neg]
  have hplain : dft (conj w ^ 2) h (fun m => (⟨x (2 * m), x (2 * m + 1)⟩ : ℂ)) (h - p) =
      ∑ m ∈ range h, ((x (2 * m) : ℂ) + x (2 * m + 1) * Complex.I) * w ^ (2 * (p * m)) := by
    apply sum_congr rfl
    intro m _
    rw [← Complex.mk_eq_add_mul_I, hopposite]
  unfold untangle
  rw [hconj, hplain, dft, sum_range_two_mul, ← sum_add_distrib, ← sum_sub_distrib, sum_div, mul_sum,
    ← sum_add_distrib]
  apply sum_congr rfl
  intro m _
  have heven : p * (2 * m) = 2 * (p * m) := by ring
  have hodd : p * (2 * m + 1) = p + 2 * (p * m) := by ring
  rw [heven, hodd, pow_add]
  linear_combination (x (2 * m + 1) * w ^ p * w ^ (2 * (p * m))) * Complex.I_mul_I

end RealSamples

end PQL
