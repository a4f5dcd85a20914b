import Mathlib

/-!
# Records with a separator of two characters

A record has a head of a fixed length and a text that ends with two characters, `a` and `b`.
`records` takes a list apart into the records that lie in it and what is left behind them.  A search
in a C string (`searchPair`) also ends at its terminator, and goes on behind the list if it finds
neither.
-/

namespace PQL

variable {α : Type} [DecidableEq α]

/-- The place of the first `a` that a `b` follows. -/
def findPair (a b : α) : List α → Option ℕ
  | [] => none
  | c :: s => if c = a ∧ s.head? = some b then some 0 else (findPair a b s).map (· + 1)

/-- The search for the two characters in a string that ends at the first `z`; without a result it
goes on behind the list. -/
def searchPair (z a b : α) : List α → Option (Option ℕ)
  | [] => none
  | c :: s =>
    if c = z then some none
    else if c = a ∧ s.head? = some b then some (some 0)
    else (searchPair z a b s).map (Option.map (· + 1))

theorem length_of_findPair {a b : α} {s : List α} {n : ℕ} (h : findPair a b s = some n) :
    n + 2 ≤ s.length := by
  induction s generalizing n with
  | nil => exact absurd h (by simp [findPair])
  | cons c s ih =>
    rw [findPair] at h
    split_ifs at h with hpair
    · obtain rfl := Option.some.inj h
      cases s with
      | nil => exact absurd hpair.2 (by simp)
      | cons d s =>
        rw [List.length_cons, List.length_cons]
        omega
    · obtain ⟨m, hm, rfl⟩ := Option.map_eq_some_iff.1 h
      have hle := ih hm
      rw [List.length_cons]
      omega

/-- The search finds the characters unless the string ends in front of them. -/
theorem searchPair_of_find (z : α) {a b : α} {s : List α} {n : ℕ} (h : findPair a b s = some n)
    (ha : a ≠ z) : searchPair z a b s = if z ∈ s.take n then some none else some (some n) := by
  induction s generalizing n with
  | nil => exact absurd h (by simp [findPair])
  | cons c s ih =>
    rw [findPair] at h
    rw [searchPair]
    split_ifs at h with hpair
    · obtain rfl := Option.some.inj h
      have hc : c ≠ z := by
        rw [hpair.1]
        exact ha
      rw [if_neg hc, if_pos hpair, List.take_zero, if_neg List.not_mem_nil]
    · obtain ⟨m, hm, rfl⟩ := Option.map_eq_some_iff.1 h
      rw [List.take_succ_cons]
      by_cases hc : c = z
      · rw [if_pos hc, hc, if_pos List.mem_cons_self]
      · rw [if_neg hc, if_neg hpair, ih hm]
        simp only [List.mem_cons, Ne.symm hc, false_or]
        split_ifs <;> rfl

/-- Without the characters the search ends with the string, if it ends in the list. -/
theorem searchPair_of_not (z : α) {a b : α} {s : List α} (h : findPair a b s = none) :
    searchPair z a b s = if z ∈ s then some none else none := by
  induction s with
  | nil => rfl
  | cons c s ih =>
    rw [findPair] at h
    rw [searchPair]
    split_ifs at h with hpair
    rw [Option.map_eq_none_iff] at h
    by_cases hc : c = z
    · rw [if_pos hc, hc, if_pos List.mem_cons_self]
    · rw [if_neg hc, if_neg hpair, ih h]
      simp only [List.mem_cons, Ne.symm hc, false_or]
      split_ifs <;> rfl

/-- The places of the records with heads of `k` characters, and what is left behind the last. -/
def records (a b : α) (k : ℕ) (s : List α) : List (List α) × List α :=
  match h : findPair a b (s.drop k) with
  | none => ([], s)
  | some n =>
    let behind := records a b k (s.drop (k + n + 2))
    (s :: behind.1, behind.2)
termination_by s.length
decreasing_by
  have hle := length_of_findPair h
  rw [List.length_drop] at hle ⊢
  omega

variable {a b : α} {k : ℕ} {s : List α}

theorem records_of_not (h : findPair a b (s.drop k) = none) : records a b k s = ([], s) := by
  rw [records]
  split
  · rfl
  · rename_i hsome
    exact absurd (h.symm.trans hsome) (by simp)

theorem records_of_find {n : ℕ} (h : findPair a b (s.drop k) = some n) :
    records a b k s = (s :: (records a b k (s.drop (k + n + 2))).1,
      (records a b k (s.drop (k + n + 2))).2) := by
  rw [records]
  split
  · rename_i hnone
    exact absurd (h.symm.trans hnone) (by simp)
  · rename_i m hsome
    obtain rfl := Option.some.inj (h.symm.trans hsome)
    rfl

/-- The text of the record at the head of the list. -/
def recordText (a b : α) (k : ℕ) (s : List α) : List α :=
  (s.drop k).take ((findPair a b (s.drop k)).getD 0)

theorem recordText_of_find {n : ℕ} (h : findPair a b (s.drop k) = some n) :
    recordText a b k s = (s.drop k).take n := by rw [recordText, h, Option.getD_some]

end PQL
