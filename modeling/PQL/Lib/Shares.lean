import Mathlib

/-!
# Lists that are dealt out and joined again

A list is dealt out in blocks of `k` elements; the blocks, one after the other, are the list.  What
is made of the elements of a list comes out the same in reverse order only if at most one element
yields anything (`reverse_flatMap_eq_iff`).
-/

namespace PQL

variable {α β : Type}

/-- The elements from `k * n` on, at most `k` of them. -/
def block (k : ℕ) (l : List α) (n : ℕ) : List α := (l.drop (k * n)).take k

theorem flatMap_block (k : ℕ) (l : List α) (m : ℕ) :
    (List.range m).flatMap (block k l) = l.take (k * m) := by
  induction m with
  | zero => simp
  | succ m ih =>
    rw [List.range_succ, List.flatMap_append, ih, Nat.mul_succ, List.take_add]
    simp [block]

/-- All blocks are the list. -/
theorem flatMap_block_of_le {k m : ℕ} {l : List α} (h : l.length ≤ k * m) :
    (List.range m).flatMap (block k l) = l := by
  rw [flatMap_block, List.take_of_length_le h]

/-- Elements that yield nothing do not matter. -/
theorem flatMap_filter_ne_nil [DecidableEq β] (l : List α) (g : α → List β) :
    (l.filter fun a => g a ≠ []).flatMap g = l.flatMap g := by
  induction l with
  | nil => rfl
  | cons a l ih =>
    by_cases ha : g a = []
    · simpa [ha] using ih
    · simpa [ha] using ih

/-- The order matters as soon as two elements yield something. -/
theorem reverse_flatMap_eq_iff [DecidableEq β] {l : List α} {g : α → List β}
    (h : (l.flatMap g).Nodup) :
    l.reverse.flatMap g = l.flatMap g ↔ (l.filter fun a => g a ≠ []).length ≤ 1 := by
  rw [← flatMap_filter_ne_nil l g] at h ⊢
  rw [← flatMap_filter_ne_nil l.reverse g, List.filter_reverse]
  have hne : ∀ a ∈ l.filter fun a => g a ≠ [], g a ≠ [] := by
    intro a ha
    simpa using List.of_mem_filter ha
  generalize (l.filter fun a => g a ≠ []) = l' at h hne
  constructor
  · intro heq
    by_contra hlong
    -- The first element of the whole belongs to the first element and to the last one.
    obtain ⟨a, rest, rfl⟩ := List.exists_cons_of_length_pos (l := l') (by omega)
    have hrest : rest ≠ [] := by
      rintro rfl
      simp at hlong
    obtain ⟨init, b, rfl⟩ := (List.eq_nil_or_concat' rest).resolve_left hrest
    obtain ⟨x, xs, hx⟩ := List.exists_cons_of_ne_nil (hne b (by simp))
    obtain ⟨y, ys, hy⟩ := List.exists_cons_of_ne_nil (hne a List.mem_cons_self)
    have hxy : x = y := by
      have hhead := congrArg List.head? heq
      simpa [List.flatMap_append, hx, hy] using hhead
    rw [List.flatMap_cons, List.flatMap_append, List.nodup_append] at h
    exact h.2.2 x (by simp [hy, hxy]) x (by simp [hx]) rfl
  · intro hle
    match l', hle with
    | [], _ => rfl
    | [a], _ => rfl

end PQL
