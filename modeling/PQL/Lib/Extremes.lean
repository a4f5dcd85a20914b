import Mathlib

/-!
# Extremes

The smallest and the largest value met so far.  A scan extends them value by value; its result does
not depend on the order, and what has been covered before need not be scanned again.
-/

namespace PQL

structure Extremes (α : Type) where
  min : α
  max : α
deriving DecidableEq, Repr

namespace Extremes

variable {α : Type} [LinearOrder α]

/-- The extremes with one more value. -/
def extend (e : Extremes α) (v : α) : Extremes α := ⟨Min.min e.min v, Max.max e.max v⟩

def scan (e : Extremes α) (vs : List α) : Extremes α := vs.foldl extend e

variable {e e' : Extremes α} {vs ws : List α}

@[simp] theorem scan_nil (e : Extremes α) : e.scan [] = e := rfl

@[simp] theorem scan_cons (e : Extremes α) (v : α) (vs : List α) :
    e.scan (v :: vs) = (e.extend v).scan vs := rfl

theorem scan_append (e : Extremes α) (vs ws : List α) :
    e.scan (vs ++ ws) = (e.scan vs).scan ws := List.foldl_append

/-- The lower bounds of the values. -/
theorem le_scan_min {c : α} : c ≤ (e.scan vs).min ↔ c ≤ e.min ∧ ∀ v ∈ vs, c ≤ v := by
  induction vs generalizing e with
  | nil => simp
  | cons v vs ih => simp [ih, extend, and_assoc]

/-- The upper bounds of the values. -/
theorem scan_max_le {c : α} : (e.scan vs).max ≤ c ↔ e.max ≤ c ∧ ∀ v ∈ vs, v ≤ c := by
  induction vs generalizing e with
  | nil => simp
  | cons v vs ih => simp [ih, extend, and_assoc]

theorem scan_min_le (e : Extremes α) (vs : List α) : (e.scan vs).min ≤ e.min :=
  (le_scan_min.1 le_rfl).1

theorem le_scan_max (e : Extremes α) (vs : List α) : e.max ≤ (e.scan vs).max :=
  (scan_max_le.1 le_rfl).1

theorem scan_min_le_of_mem {v : α} (hv : v ∈ vs) : (e.scan vs).min ≤ v :=
  (le_scan_min.1 le_rfl).2 v hv

theorem le_scan_max_of_mem {v : α} (hv : v ∈ vs) : v ≤ (e.scan vs).max :=
  (scan_max_le.1 le_rfl).2 v hv

/-- The extremes are met at the start or among the values. -/
theorem scan_min_eq_or_mem (e : Extremes α) (vs : List α) :
    (e.scan vs).min = e.min ∨ (e.scan vs).min ∈ vs := by
  induction vs generalizing e with
  | nil => exact .inl rfl
  | cons v vs ih =>
    rw [scan_cons]
    rcases ih (e.extend v) with heq | hmem
    · rw [heq]
      rcases min_choice e.min v with h | h
      · exact .inl h
      · exact .inr (by simp [extend, h])
    · exact .inr (List.mem_cons_of_mem v hmem)

theorem scan_max_eq_or_mem (e : Extremes α) (vs : List α) :
    (e.scan vs).max = e.max ∨ (e.scan vs).max ∈ vs := by
  induction vs generalizing e with
  | nil => exact .inl rfl
  | cons v vs ih =>
    rw [scan_cons]
    rcases ih (e.extend v) with heq | hmem
    · rw [heq]
      rcases max_choice e.max v with h | h
      · exact .inl h
      · exact .inr (by simp [extend, h])
    · exact .inr (List.mem_cons_of_mem v hmem)

/-- Two scans agree if each start and each value of one lies between values of the other. -/
theorem scan_eq_scan
    (hmin : (e'.scan ws).min ≤ e.min) (hmax : e.max ≤ (e'.scan ws).max)
    (hvs : ∀ v ∈ vs, (e'.scan ws).min ≤ v ∧ v ≤ (e'.scan ws).max)
    (hmin' : (e.scan vs).min ≤ e'.min) (hmax' : e'.max ≤ (e.scan vs).max)
    (hws : ∀ w ∈ ws, (e.scan vs).min ≤ w ∧ w ≤ (e.scan vs).max) : e.scan vs = e'.scan ws := by
  have hminEq : (e.scan vs).min = (e'.scan ws).min := by
    apply le_antisymm
    · exact le_scan_min.2 ⟨hmin', fun w hw => (hws w hw).1⟩
    · exact le_scan_min.2 ⟨hmin, fun v hv => (hvs v hv).1⟩
  have hmaxEq : (e.scan vs).max = (e'.scan ws).max := by
    apply le_antisymm
    · exact scan_max_le.2 ⟨hmax, fun v hv => (hvs v hv).2⟩
    · exact scan_max_le.2 ⟨hmax', fun w hw => (hws w hw).2⟩
  cases h : e.scan vs
  cases h' : e'.scan ws
  simp_all

end Extremes

end PQL
