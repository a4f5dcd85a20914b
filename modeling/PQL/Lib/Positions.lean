import Mathlib.Data.Int.SuccPred
import Mathlib.Data.Nat.SuccPred
import Mathlib.Order.SuccPred.Archimedean

/-!
# Positions in consecutive ranges

Ranges of integers follow each other: the range `a` begins at `start a` and is `len a` long.  A
position is a range with an offset in it, and its number `start a + d` tells positions apart and
keeps their order.
-/

namespace PQL

variable {ι : Type}

/-- Each range ends before the ranges behind it begin. -/
def Consecutive [LT ι] (start len : ι → ℤ) : Prop := ∀ ⦃a b⦄, a < b → start a + len a ≤ start b

theorem consecutive_int {start len : ℤ → ℤ} (h : ∀ n, start (n + 1) = start n + len n)
    (hlen : ∀ n, 0 ≤ len n) : Consecutive start len := by
  have hmono : Monotone start := by
    apply monotone_int_of_le_succ
    intro n
    rw [h]
    exact le_add_of_nonneg_right (hlen n)
  intro a b hab
  rw [← h]
  exact hmono (Int.add_one_le_of_lt hab)

theorem consecutive_nat {start len : ℕ → ℤ} (h : ∀ n, start (n + 1) = start n + len n)
    (hlen : ∀ n, 0 ≤ len n) : Consecutive start len := by
  have hmono : Monotone start := by
    apply monotone_nat_of_le_succ
    intro n
    rw [h]
    exact le_add_of_nonneg_right (hlen n)
  intro a b hab
  rw [← h]
  exact hmono (Nat.succ_le_of_lt hab)

/-- The number of a position determines it. -/
theorem Consecutive.unique [LinearOrder ι] {start len : ι → ℤ} (h : Consecutive start len)
    {a b : ι} {d e : ℤ} (hd : 0 ≤ d ∧ d < len a) (he : 0 ≤ e ∧ e < len b)
    (heq : start a + d = start b + e) : a = b ∧ d = e := by
  rcases lt_trichotomy a b with hab | rfl | hab
  · have := h hab
    omega
  · exact ⟨rfl, by omega⟩
  · have := h hab
    omega

end PQL
