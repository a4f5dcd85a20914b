import Mathlib

/-!
# Bottom-up merge sort

A pass merges the runs of `2 ^ k` entries two by two (`mergePass`), and the sort doubles the runs
until a pass makes at most one merge (`bottomUpSort`).  It permutes every list, and it sorts a list
on whose entries the comparison is total and transitive.
-/

namespace PQL

variable {α : Type} (le : α → α → Bool)

/-- One pass, and the number of its merges. -/
def mergePass (k : ℕ) : List α → List α × ℕ
  | [] => ([], 0)
  | a :: l =>
    let p := (a :: l).take (2 ^ k)
    let q := ((a :: l).drop (2 ^ k)).take (2 ^ k)
    let rest := mergePass k (l.drop (2 ^ (k + 1) - 1))
    (List.merge p q le ++ rest.1, rest.2 + 1)
termination_by l => l.length
decreasing_by
  rw [List.length_drop, List.length_cons]
  omega

variable {le} {k : ℕ} {l : List α}

theorem mergePass_cons (a : α) (l : List α) :
    mergePass le k (a :: l) =
      (List.merge ((a :: l).take (2 ^ k)) (((a :: l).drop (2 ^ k)).take (2 ^ k)) le ++
          (mergePass le k ((a :: l).drop (2 ^ (k + 1)))).1,
        (mergePass le k ((a :: l).drop (2 ^ (k + 1)))).2 + 1) := by
  have hdrop : (a :: l).drop (2 ^ (k + 1)) = l.drop (2 ^ (k + 1) - 1) :=
    List.drop_cons (Nat.two_pow_pos _)
  rw [hdrop, mergePass]

/-- An induction over the pairs of runs that a pass merges. -/
theorem passInduction {P : List α → Prop} (k : ℕ) (hnil : P [])
    (hcons : ∀ l, l ≠ [] → P (l.drop (2 ^ (k + 1))) → P l) (l : List α) : P l := by
  induction hn : l.length using Nat.strong_induction_on generalizing l with
  | _ n ih =>
    rcases eq_or_ne l [] with rfl | hne
    · exact hnil
    · refine hcons l hne (ih _ ?_ _ rfl)
      have hpos := List.length_pos_iff.2 hne
      have htwo := Nat.two_pow_pos (k + 1)
      rw [List.length_drop]
      omega

theorem mergePass_of_ne_nil (hne : l ≠ []) :
    mergePass le k l =
      (List.merge (l.take (2 ^ k)) ((l.drop (2 ^ k)).take (2 ^ k)) le ++
          (mergePass le k (l.drop (2 ^ (k + 1)))).1,
        (mergePass le k (l.drop (2 ^ (k + 1)))).2 + 1) := by
  obtain ⟨a, l, rfl⟩ := List.exists_cons_of_ne_nil hne
  exact mergePass_cons a l

@[simp] theorem mergePass_nil : mergePass le k [] = ([], 0) := by rw [mergePass]

theorem merge_runs_perm (k : ℕ) (l : List α) :
    (List.merge (l.take (2 ^ k)) ((l.drop (2 ^ k)).take (2 ^ k)) le).Perm
      (l.take (2 ^ (k + 1))) := by
  refine (List.merge_perm_append le).trans ?_
  rw [pow_succ, Nat.mul_two, List.take_add]

theorem mergePass_perm (k : ℕ) (l : List α) : (mergePass le k l).1.Perm l := by
  induction l using passInduction k with
  | hnil => rw [mergePass_nil]
  | hcons l hne ih =>
    rw [mergePass_of_ne_nil hne]
    calc List.merge (l.take (2 ^ k)) ((l.drop (2 ^ k)).take (2 ^ k)) le ++
          (mergePass le k (l.drop (2 ^ (k + 1)))).1
        |>.Perm (l.take (2 ^ (k + 1)) ++ l.drop (2 ^ (k + 1))) := (merge_runs_perm k l).append ih
      _ = l := List.take_append_drop _ _

/-- Two merges are made as soon as two runs do not hold the list. -/
theorem mergePass_merges_le_one : (mergePass le k l).2 ≤ 1 ↔ l.length ≤ 2 ^ (k + 1) := by
  rcases eq_or_ne l [] with rfl | hne
  · simp
  · rw [mergePass_of_ne_nil hne, Nat.succ_le_succ_iff, Nat.le_zero, ← List.drop_eq_nil_iff]
    rcases eq_or_ne (l.drop (2 ^ (k + 1))) [] with hrest | hrest
    · simp [hrest]
    · rw [mergePass_of_ne_nil hrest]
      simp [hrest]

variable (le)

/-- The sort, from runs of `2 ^ k` entries on. -/
def bottomUpSort (k : ℕ) (l : List α) : List α :=
  if (mergePass le k l).2 ≤ 1 then (mergePass le k l).1
  else bottomUpSort (k + 1) (mergePass le k l).1
termination_by l.length - 2 ^ k
decreasing_by
  rename_i hmerges
  have hlong := mt mergePass_merges_le_one.2 hmerges
  have hpos := Nat.two_pow_pos k
  rw [(mergePass_perm k l).length_eq]
  omega

variable {le}

theorem bottomUpSort_perm (k : ℕ) (l : List α) : (bottomUpSort le k l).Perm l := by
  induction k, l using bottomUpSort.induct le with
  | case1 k l hmerges =>
    rw [bottomUpSort, if_pos hmerges]
    exact mergePass_perm k l
  | case2 k l hmerges ih =>
    rw [bottomUpSort, if_neg hmerges]
    exact ih.trans (mergePass_perm k l)

/-! ## Sorting -/

/-- The comparison is total and transitive on the entries of `l`. -/
structure OrdersEntries (le : α → α → Bool) (l : List α) : Prop where
  total : ∀ a ∈ l, ∀ b ∈ l, le a b ∨ le b a
  trans : ∀ a ∈ l, ∀ b ∈ l, ∀ c ∈ l, le a b → le b c → le a c

theorem OrdersEntries.subset {l' : List α} (h : OrdersEntries le l) (hsub : l' ⊆ l) :
    OrdersEntries le l' where
  total a ha b hb := h.total a (hsub ha) b (hsub hb)
  trans a ha b hb c hc := h.trans a (hsub ha) b (hsub hb) c (hsub hc)

theorem OrdersEntries.pairwise_merge {xs ys : List α} (h : OrdersEntries le (xs ++ ys))
    (hxs : xs.Pairwise fun a b => le a b) (hys : ys.Pairwise fun a b => le a b) :
    (List.merge xs ys le).Pairwise fun a b => le a b := by
  fun_induction List.merge xs ys le with
  | case1 => exact hys
  | case2 => exact hxs
  | case3 x xs y ys hle ih =>
    obtain ⟨hx, hxs'⟩ := List.pairwise_cons.1 hxs
    refine List.pairwise_cons.2 ⟨fun z hz => ?_, ih (h.subset (by simp)) hxs' hys⟩
    rcases List.mem_merge.1 hz with hz | hz
    · exact hx z hz
    · rcases List.mem_cons.1 hz with rfl | hz'
      · exact hle
      · exact h.trans x (by simp) y (by simp) z (by simp [hz']) hle
          (List.rel_of_pairwise_cons hys hz')
  | case4 x xs y ys hle ih =>
    obtain ⟨hy, hys'⟩ := List.pairwise_cons.1 hys
    have hyx : le y x := (h.total x (by simp) y (by simp)).resolve_left hle
    refine List.pairwise_cons.2 ⟨fun z hz => ?_, ih (h.subset ?_) hxs hys'⟩
    · rcases List.mem_merge.1 hz with hz | hz
      · rcases List.mem_cons.1 hz with rfl | hz'
        · exact hyx
        · exact h.trans y (by simp) x (by simp) z (by simp [hz']) hyx
            (List.rel_of_pairwise_cons hxs hz')
      · exact hy z hz
    · intro a ha
      simp only [List.mem_append, List.mem_cons] at ha ⊢
      tauto

/-- The runs of `2 ^ k` entries are sorted. -/
def RunsSorted (le : α → α → Bool) (k : ℕ) (l : List α) : Prop :=
  ∀ i, ((l.drop (i * 2 ^ k)).take (2 ^ k)).Pairwise fun a b => le a b

theorem RunsSorted.drop (h : RunsSorted le k l) (n : ℕ) : RunsSorted le k (l.drop (n * 2 ^ k)) := by
  intro i
  rw [List.drop_drop, ← Nat.add_mul]
  exact h (n + i)

theorem RunsSorted.append {m : List α} (hm : m.Pairwise fun a b => le a b)
    (hl : m.length = 2 ^ k ∨ l = []) (h : RunsSorted le k l) : RunsSorted le k (m ++ l) := by
  intro i
  rcases hl with hl | rfl
  · cases i with
    | zero => rwa [Nat.zero_mul, List.drop_zero, ← hl, List.take_left]
    | succ i =>
      rw [Nat.add_mul, Nat.one_mul, Nat.add_comm, ← hl, ← List.drop_drop, List.drop_left, hl]
      exact h i
  · rw [List.append_nil]
    exact hm.sublist ((List.take_sublist _ _).trans (List.drop_sublist _ _))

theorem runsSorted_mergePass (horders : OrdersEntries le l) (h : RunsSorted le k l) :
    RunsSorted le (k + 1) (mergePass le k l).1 := by
  induction l using passInduction k with
  | hnil =>
    intro i
    simp
  | hcons l hne ih =>
    have hrest : RunsSorted le k (l.drop (2 ^ (k + 1))) := by
      rw [pow_succ, Nat.mul_comm]
      exact h.drop 2
    have hlen := (@merge_runs_perm α le k l).length_eq
    rw [List.length_take] at hlen
    rw [mergePass_of_ne_nil hne]
    refine RunsSorted.append ?_ ?_
      (ih (horders.subset (List.drop_subset _ _)) hrest)
    · refine OrdersEntries.pairwise_merge (horders.subset ?_) (by simpa using h 0)
        (by simpa using h 1)
      rw [← List.take_add]
      exact List.take_subset _ _
    · rcases Nat.le_total (2 ^ (k + 1)) l.length with hle | hle
      · left
        omega
      · right
        rw [List.drop_eq_nil_of_le hle, mergePass_nil]

theorem bottomUpSort_sorted_of_runs (horders : OrdersEntries le l) (h : RunsSorted le k l) :
    (bottomUpSort le k l).Pairwise fun a b => le a b := by
  induction k, l using bottomUpSort.induct le with
  | case1 k l hmerges =>
    have hruns := runsSorted_mergePass horders h 0
    have hlen := mergePass_merges_le_one.1 hmerges
    rw [← (@mergePass_perm α le k l).length_eq] at hlen
    rw [Nat.zero_mul, List.drop_zero, List.take_of_length_le hlen] at hruns
    rwa [bottomUpSort, if_pos hmerges]
  | case2 k l hmerges ih =>
    rw [bottomUpSort, if_neg hmerges]
    exact ih (horders.subset (mergePass_perm k l).subset) (runsSorted_mergePass horders h)

theorem bottomUpSort_sorted (horders : OrdersEntries le l) :
    (bottomUpSort le 0 l).Pairwise fun a b => le a b := by
  refine bottomUpSort_sorted_of_runs horders fun i => ?_
  rw [pow_zero]
  cases hone : (l.drop (i * 1)).take 1 with
  | nil => exact List.Pairwise.nil
  | cons a rest =>
    have hlen := congrArg List.length hone
    rw [List.length_take, List.length_cons] at hlen
    obtain rfl : rest = [] := List.eq_nil_of_length_eq_zero (by omega)
    exact List.pairwise_singleton _ a

end PQL
