import Mathlib

/-!
# Bit reversal

The index with its bits in the opposite order (`bitRev`), the next index in reversed order
(`revSucc`), and a loop that exchanges each entry with the one at the index of an involution, which
puts all entries there (`exchange_all`).
-/

namespace PQL

/-! ## Reversed indices -/

/-- The `k` low bits of `i` in the opposite order. -/
def bitRev : ℕ → ℕ → ℕ
  | 0, _ => 0
  | k + 1, i => i % 2 * 2 ^ k + bitRev k (i / 2)

theorem bitRev_even (k q : ℕ) : bitRev (k + 1) (2 * q) = bitRev k q := by
  rw [bitRev, Nat.mul_mod_right, zero_mul, zero_add, Nat.mul_div_cancel_left q two_pos]

theorem bitRev_odd (k q : ℕ) : bitRev (k + 1) (2 * q + 1) = 2 ^ k + bitRev k q := by
  have hmod : (2 * q + 1) % 2 = 1 := by omega
  have hdiv : (2 * q + 1) / 2 = q := by omega
  rw [bitRev, hmod, hdiv, one_mul]

theorem bitRev_zero (k : ℕ) : bitRev k 0 = 0 := by
  induction k with
  | zero => rfl
  | succ k ih => exact (bitRev_even k 0).trans ih

theorem bitRev_lt (k i : ℕ) : bitRev k i < 2 ^ k := by
  induction k generalizing i with
  | zero => exact one_pos
  | succ k ih =>
    have hrest := ih (i / 2)
    rw [bitRev, pow_succ]
    rcases Nat.mod_two_eq_zero_or_one i with h | h
    · rw [h]
      omega
    · rw [h]
      omega

/-- The reversal by the highest bit. -/
theorem bitRev_high (k : ℕ) {b r : ℕ} (hr : r < 2 ^ k) :
    bitRev (k + 1) (b * 2 ^ k + r) = 2 * bitRev k r + b % 2 := by
  induction k generalizing r with
  | zero =>
    obtain rfl : r = 0 := Nat.lt_one_iff.1 hr
    rw [bitRev, bitRev, bitRev]
    omega
  | succ k ih =>
    have hdiv : (b * 2 ^ (k + 1) + r) / 2 = b * 2 ^ k + r / 2 := by
      rw [pow_succ, ← mul_assoc]
      omega
    have hmod : (b * 2 ^ (k + 1) + r) % 2 = r % 2 := by
      rw [pow_succ, ← mul_assoc]
      omega
    have hhalf : r / 2 < 2 ^ k := by
      rw [pow_succ] at hr
      omega
    rw [bitRev, hdiv, hmod, ih hhalf, bitRev, pow_succ]
    ring

theorem bitRev_bitRev (k : ℕ) {i : ℕ} (hi : i < 2 ^ k) : bitRev k (bitRev k i) = i := by
  induction k generalizing i with
  | zero =>
    obtain rfl : i = 0 := Nat.lt_one_iff.1 hi
    rfl
  | succ k ih =>
    have hhalf : i / 2 < 2 ^ k := by
      rw [pow_succ] at hi
      omega
    have hsplit : bitRev (k + 1) i = i % 2 * 2 ^ k + bitRev k (i / 2) := rfl
    rw [hsplit, bitRev_high k (bitRev_lt k _), ih hhalf]
    omega

theorem bitRev_ones (k : ℕ) : bitRev k (2 ^ k - 1) = 2 ^ k - 1 := by
  induction k with
  | zero => rfl
  | succ k ih =>
    have hpos : 0 < 2 ^ k := Nat.two_pow_pos k
    have hodd : 2 ^ (k + 1) - 1 = 2 * (2 ^ k - 1) + 1 := by
      rw [pow_succ]
      omega
    rw [hodd, bitRev_odd, ih]
    omega

/-- Only the last index is reversed to the last one. -/
theorem bitRev_succ_lt {k i : ℕ} (hi : i + 1 < 2 ^ k) : bitRev k i + 1 < 2 ^ k := by
  have hlt := bitRev_lt k i
  by_contra hlast
  have hback := bitRev_bitRev k (show i < 2 ^ k by omega)
  rw [show bitRev k i = 2 ^ k - 1 by omega, bitRev_ones] at hback
  omega

/-! ## Counting in reversed order -/

/-- Adds one to the reversed index: the highest bit is flipped, and a carry goes to the bits below
it. -/
def revSucc : ℕ → ℕ → ℕ
  | 0, r => r
  | k + 1, r => if r < 2 ^ k then r + 2 ^ k else revSucc k (r - 2 ^ k)

theorem revSucc_bitRev (k : ℕ) {i : ℕ} (hi : i + 1 < 2 ^ k) :
    revSucc k (bitRev k i) = bitRev k (i + 1) := by
  induction k generalizing i with
  | zero => exact absurd hi (by omega)
  | succ k ih =>
    have hlt := bitRev_lt k (i / 2)
    rcases Nat.even_or_odd' i with ⟨q, rfl | rfl⟩
    · have hq : 2 * q / 2 = q := by omega
      rw [hq] at hlt
      rw [bitRev_even, bitRev_odd, revSucc, if_pos hlt, add_comm]
    · have hnext : 2 * q + 1 + 1 = 2 * (q + 1) := by ring
      have hq : q + 1 < 2 ^ k := by
        rw [pow_succ] at hi
        omega
      rw [hnext, bitRev_odd, bitRev_even, revSucc, if_neg (by omega), Nat.add_sub_cancel_left,
        ih hq]

/-! ## Exchanging entries -/

section Exchange

variable {α : Type} (z : ℕ → α)

/-- The entries `a` and `b` exchanged. -/
def exchange (a b : ℕ) : ℕ → α := fun p => if p = b then z a else if p = a then z b else z p

/-- Where the entries stand once the indices below `i` have been exchanged. -/
def exchanged (σ : ℕ → ℕ) (i : ℕ) : ℕ → α := fun p => if p < i ∨ σ p < i then z (σ p) else z p

variable {z} {σ : ℕ → ℕ} {n : ℕ}

theorem exchange_congr {z' : ℕ → α} {a b : ℕ} (hz : ∀ p < n, z p = z' p) (ha : a < n) (hb : b < n)
    {p : ℕ} (hp : p < n) : exchange z a b p = exchange z' a b p := by
  unfold exchange
  rw [hz a ha, hz b hb, hz p hp]

theorem exchange_of_le {a b : ℕ} (ha : a < n) (hb : b < n) {p : ℕ} (hp : n ≤ p) :
    exchange z a b p = z p := by
  unfold exchange
  rw [if_neg (by omega), if_neg (by omega)]

theorem exchanged_succ (hlt : ∀ p < n, σ p < n) (hinv : ∀ p < n, σ (σ p) = p) {i : ℕ} (hi : i < n)
    {p : ℕ} (hp : p < n) :
    exchanged z σ (i + 1) p =
      (if i < σ i then exchange (exchanged z σ i) i (σ i) else exchanged z σ i) p := by
  have hback : σ p = i ↔ p = σ i :=
    ⟨fun h => by rw [← h, hinv p hp], fun h => by rw [h, hinv i hi]⟩
  have hmove := hlt i hi
  by_cases hswap : i < σ i
  · rw [if_pos hswap]
    unfold exchange exchanged
    by_cases hpσ : p = σ i
    · rw [if_pos hpσ, hback.2 hpσ, if_pos (by omega), if_neg (by omega)]
    · rw [if_neg hpσ]
      by_cases hpi : p = i
      · rw [if_pos hpi, hpi, hinv i hi, if_pos (by omega), if_neg (by omega)]
      · have hiff : (p < i + 1 ∨ σ p < i + 1) ↔ (p < i ∨ σ p < i) := by
          have hne : σ p ≠ i := fun h => hpσ (hback.1 h)
          omega
        rw [if_neg hpi]
        exact if_congr hiff rfl rfl
  · rw [if_neg hswap]
    unfold exchanged
    by_cases hpi : p = i
    · rw [if_pos (by omega)]
      split_ifs with h
      · rfl
      · rw [hpi] at h ⊢
        rw [show σ i = i by omega]
    · by_cases hpσ : p = σ i
      · have hi' := hback.2 hpσ
        rw [if_pos (by omega), if_pos (by omega)]
      · have hne : σ p ≠ i := fun h => hpσ (hback.1 h)
        exact if_congr (by omega) rfl rfl

/-- All entries stand at the indices of the involution. -/
theorem exchanged_all {p : ℕ} (hp : p < n) : exchanged z σ n p = z (σ p) := if_pos (.inl hp)

theorem exchanged_zero (p : ℕ) : exchanged z σ 0 p = z p := if_neg (by omega)

end Exchange

end PQL
