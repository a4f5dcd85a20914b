import Mathlib

/-!
# Windows of a sequence

`entriesWhere P` keeps the entries at the indices that satisfy `P`; for an interval of indices it
takes and drops (`entriesWhere_interval`).  `demean` subtracts the mean.  Entries that are added
behind others change nothing, up to zeros, when all of them equal the mean
(`demean_append_eq_iff`).
-/

namespace PQL

variable {α : Type}

/-- The entries at the indices that satisfy `P`, in order. -/
def entriesWhere (P : ℕ → Prop) [DecidablePred P] (xs : List α) : List α :=
  (xs.zipIdx.filter fun x => P x.2).map Prod.fst

theorem entriesWhere_congr {P Q : ℕ → Prop} [DecidablePred P] [DecidablePred Q] (xs : List α)
    (h : ∀ k < xs.length, P k ↔ Q k) : entriesWhere P xs = entriesWhere Q xs := by
  unfold entriesWhere
  congr 1
  apply List.filter_congr
  rintro ⟨x, k⟩ hx
  have hk : k < xs.length := by
    obtain ⟨i, hi⟩ := List.mem_iff_getElem?.1 hx
    grind
  simp only [h k hk]

theorem entriesWhere_concat (P : ℕ → Prop) [DecidablePred P] (xs : List α) (x : α) :
    entriesWhere P (xs ++ [x]) = entriesWhere P xs ++ if P xs.length then [x] else [] := by
  unfold entriesWhere
  rw [List.zipIdx_append, List.filter_append, List.map_append]
  congr 1
  by_cases h : P xs.length
  · simp [h]
  · simp [h]

theorem entriesWhere_map {β : Type} (P : ℕ → Prop) [DecidablePred P] (f : α → β) (xs : List α) :
    entriesWhere P (xs.map f) = (entriesWhere P xs).map f := by
  induction xs using List.reverseRecOn with
  | nil => rfl
  | append_singleton xs x ih =>
    rw [List.map_append, List.map_singleton, entriesWhere_concat, entriesWhere_concat, ih,
      List.length_map, List.map_append]
    split_ifs <;> rfl

theorem entriesWhere_interval (a b : ℤ) (xs : List α) :
    entriesWhere (fun k => a ≤ k ∧ (k : ℤ) < b) xs = (xs.take b.toNat).drop a.toNat := by
  induction xs using List.reverseRecOn with
  | nil => simp [entriesWhere]
  | append_singleton xs x ih =>
    rw [entriesWhere_concat, ih]
    by_cases hb : (xs.length : ℤ) < b
    · rw [List.take_of_length_le (l := xs) (by omega),
        List.take_of_length_le (by rw [List.length_append, List.length_singleton]; omega)]
      by_cases ha : a ≤ xs.length
      · rw [if_pos ⟨ha, hb⟩, List.drop_append_of_le_length (by omega)]
      · rw [if_neg fun h => ha h.1, List.drop_eq_nil_of_le (by omega), List.append_nil,
          List.drop_eq_nil_of_le (by rw [List.length_append, List.length_singleton]; omega)]
    · rw [if_neg fun h => hb h.2, List.append_nil, List.take_append_of_le_length (by omega)]

/-! ## Means -/

def mean (xs : List ℚ) : ℚ := xs.sum / xs.length

/-- The entries less their mean. -/
def demean (xs : List ℚ) : List ℚ := xs.map (· - mean xs)

@[simp] theorem demean_nil : demean [] = [] := rfl

@[simp] theorem length_demean (xs : List ℚ) : (demean xs).length = xs.length := by simp [demean]

theorem sum_eq_length_mul_mean (xs : List ℚ) : xs.sum = xs.length * mean xs := by
  cases xs with
  | nil => simp
  | cons x xs => rw [mean, mul_div_cancel₀ _ (by simp; positivity)]

/-- Entries that equal the mean of all do not change the mean of the others. -/
theorem mean_append_of_forall_eq {xs ys : List ℚ} (hxs : xs ≠ [])
    (h : ∀ y ∈ ys, y = mean (xs ++ ys)) : mean (xs ++ ys) = mean xs := by
  have hsum : ys.sum = ys.length * mean (xs ++ ys) := by
    rw [List.eq_replicate_of_mem h, List.sum_replicate, nsmul_eq_mul, List.length_replicate,
      ← List.eq_replicate_of_mem h]
  have hall := sum_eq_length_mul_mean (xs ++ ys)
  rw [List.sum_append, hsum, List.length_append, Nat.cast_add, add_mul, add_left_inj] at hall
  have hlength : (xs.length : ℚ) ≠ 0 := by simpa using hxs
  symm
  rw [mean, hall, mul_div_cancel_left₀ _ hlength]

theorem demean_append_eq_iff {xs ys : List ℚ} (k : ℕ) :
    (∃ j, demean (xs ++ ys) ++ List.replicate k 0 = demean xs ++ List.replicate j 0) ↔
      ∀ y ∈ ys, y = mean (xs ++ ys) := by
  constructor
  · rintro ⟨j, h⟩ y hy
    rw [demean, List.map_append, List.append_assoc] at h
    obtain ⟨-, htail⟩ := List.append_inj h (by simp)
    have hmem : y - mean (xs ++ ys) ∈ List.replicate j (0 : ℚ) := by
      rw [← htail]
      exact List.mem_append_left _ (List.mem_map_of_mem hy)
    exact sub_eq_zero.1 (List.eq_of_mem_replicate hmem)
  · intro h
    refine ⟨ys.length + k, ?_⟩
    have hys : ys.map (· - mean (xs ++ ys)) = List.replicate ys.length 0 := by
      apply List.eq_replicate_iff.2
      refine ⟨List.length_map _, fun z hz => ?_⟩
      obtain ⟨y, hy, rfl⟩ := List.mem_map.1 hz
      exact sub_eq_zero.2 (h y hy)
    have hxs : xs.map (· - mean (xs ++ ys)) = demean xs := by
      by_cases hnil : xs = []
      · simp [hnil]
      · rw [mean_append_of_forall_eq hnil h, demean]
    rw [demean, List.map_append, hys, hxs, List.append_assoc, List.replicate_append_replicate]

end PQL
