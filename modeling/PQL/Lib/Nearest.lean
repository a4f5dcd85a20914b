import Mathlib

/-!
# The nearest of the two points around a cursor

Points in order of their positions are scanned for the first one that the cursor has not passed; it
and the one before it are around the cursor (`NextTo`), and `closer` is the nearer one of them.  In
front of the first point and behind the last one only that point is around the cursor.
-/

namespace PQL

section Nearest

variable {p : ℕ → ℤ} {m : ℕ} {s : ℤ} {i j : ℕ}

/-- Among the first `m` points, the `i`-th is the last that the cursor has passed, or the first that
it has not. -/
def NextTo (p : ℕ → ℤ) (m : ℕ) (s : ℤ) (i : ℕ) : Prop :=
  i < m ∧ (p i < s → i + 1 < m → s ≤ p (i + 1)) ∧ (s ≤ p i → 0 < i → p (i - 1) < s)

/-- No point around the cursor is nearer. -/
def NearestAround (p : ℕ → ℤ) (m : ℕ) (s : ℤ) (i : ℕ) : Prop :=
  NextTo p m s i ∧ ∀ j, NextTo p m s j → |s - p i| ≤ |s - p j|

/-- The nearer one of two neighbours; the second one on a tie. -/
def closer (p : ℕ → ℤ) (s : ℤ) (i : ℕ) : ℕ := if s - p i < p (i + 1) - s then i else i + 1

theorem around_of_between (hmono : ∀ j k, j ≤ k → k < m → p j ≤ p k) (hi : i + 1 < m)
    (hlow : p i < s) (hhigh : s ≤ p (i + 1)) (h : NextTo p m s j) : j = i ∨ j = i + 1 := by
  obtain ⟨hj, hpassed, hnext⟩ := h
  rcases lt_or_ge (p j) s with hlt | hge
  · left
    by_contra hne
    rcases lt_or_gt_of_ne hne with hji | hij
    · have hafter := hpassed hlt (by omega)
      exact absurd (hmono (j + 1) i hji (by omega)) (by omega)
    · exact absurd (hmono (i + 1) j hij hj) (by omega)
  · right
    by_contra hne
    rcases lt_or_gt_of_ne hne with hji | hij
    · exact absurd (hmono j i (by omega) (by omega)) (by omega)
    · have hbefore := hnext hge (by omega)
      exact absurd (hmono (i + 1) (j - 1) (by omega) (by omega)) (by omega)

/-- The nearer one of the neighbours around the cursor. -/
theorem nearestAround_closer (hmono : ∀ j k, j ≤ k → k < m → p j ≤ p k) (hi : i + 1 < m)
    (hlow : p i < s) (hhigh : s ≤ p (i + 1)) : NearestAround p m s (closer p s i) := by
  have haround : NextTo p m s i ∧ NextTo p m s (i + 1) :=
    ⟨⟨by omega, fun _ _ => hhigh, fun h _ => absurd hlow h.not_gt⟩,
      ⟨hi, fun h _ => absurd hhigh h.not_ge, fun _ _ => hlow⟩⟩
  have hfirst : |s - p i| = s - p i := abs_of_pos (by omega)
  have hsecond : |s - p (i + 1)| = p (i + 1) - s := by
    rw [abs_of_nonpos (by omega)]
    ring
  unfold closer
  split_ifs with hlt
  · refine ⟨haround.1, fun j hj => ?_⟩
    rcases around_of_between hmono hi hlow hhigh hj with rfl | rfl
    · exact le_rfl
    · omega
  · refine ⟨haround.2, fun j hj => ?_⟩
    rcases around_of_between hmono hi hlow hhigh hj with rfl | rfl
    · omega
    · exact le_rfl

theorem nearestAround_first (hmono : ∀ j k, j ≤ k → k < m → p j ≤ p k) (hm : 0 < m)
    (hs : s ≤ p 0) : NearestAround p m s 0 := by
  refine ⟨⟨hm, fun h => absurd hs h.not_ge, fun _ h => absurd h (lt_irrefl 0)⟩, fun j hj => ?_⟩
  obtain ⟨hjm, -, hnext⟩ := hj
  have hge := hmono 0 j (Nat.zero_le j) hjm
  rw [abs_of_nonpos (by omega), abs_of_nonpos (by omega)]
  omega

/-- Behind the last point only that point is around the cursor. -/
theorem around_last_iff (hmono : ∀ j k, j ≤ k → k < m → p j ≤ p k) (hm : 0 < m)
    (hs : p (m - 1) < s) : NextTo p m s i ↔ i = m - 1 := by
  constructor
  · rintro ⟨hi, hpassed, -⟩
    by_contra hne
    have hlt := (hmono i (m - 1) (by omega) (by omega)).trans_lt hs
    have hafter := hpassed hlt (by omega)
    exact absurd (hmono (i + 1) (m - 1) (by omega) (by omega)) (by omega)
  · rintro rfl
    exact ⟨by omega, fun _ h => by omega, fun h => absurd hs h.not_gt⟩

theorem nearestAround_last (hmono : ∀ j k, j ≤ k → k < m → p j ≤ p k) (hm : 0 < m)
    (hs : p (m - 1) < s) : NearestAround p m s (m - 1) := by
  refine ⟨(around_last_iff hmono hm hs).2 rfl, fun j hj => ?_⟩
  rw [(around_last_iff hmono hm hs).1 hj]

end Nearest

end PQL
