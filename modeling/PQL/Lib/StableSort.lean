import Mathlib

/-!
# Stable sorts

A stable sort puts a list into the order of a total preorder and leaves tied entries in the order
that they had (`IsStableSort`).  Sorting first by the less important and then by the more important
relation sorts by both, lexicographically (`IsStableSort.lex`).  `gSlistSortWithData` sorts with a
comparator that returns a number, or nothing when it has no defined value.
-/

namespace PQL

variable {τ : Type} {le le₁ le₂ : τ → τ → Prop} {l l₁ l₂ : List τ} {a b : τ}

/-! ## Pairs in a list -/

theorem pair_sublist_or (hne : a ≠ b) (ha : a ∈ l) (hb : b ∈ l) :
    [a, b].Sublist l ∨ [b, a].Sublist l := by
  obtain ⟨front, back, rfl⟩ := List.append_of_mem ha
  rcases List.mem_append.1 hb with hb | hb
  · right
    exact (List.singleton_sublist.2 hb).append (List.singleton_sublist.2 List.mem_cons_self)
  · left
    have hback : b ∈ back := (List.mem_cons.1 hb).resolve_left hne.symm
    exact ((List.singleton_sublist.2 hback).cons_cons a).trans (List.sublist_append_right _ _)

theorem not_pair_sublist_swap (hnodup : l.Nodup) (hab : [a, b].Sublist l) :
    ¬ [b, a].Sublist l := by
  intro hba
  induction l with
  | nil => exact nomatch hab
  | cons c l ih =>
    rw [List.nodup_cons] at hnodup
    cases hab with
    | cons _ hab =>
      cases hba with
      | cons _ hba => exact ih hnodup.2 hab hba
      | cons_cons _ hba => exact hnodup.1 (hab.subset (List.mem_cons_of_mem _ List.mem_cons_self))
    | cons_cons _ hab =>
      cases hba with
      | cons _ hba => exact hnodup.1 (hba.subset (List.mem_cons_of_mem _ List.mem_cons_self))
      | cons_cons _ hba => exact hnodup.1 (hab.subset List.mem_cons_self)

/-! ## Stable sorts -/

/-- `l₁` has the entries of `l` in the order of `le`, tied ones in the order that they have in
`l`. -/
structure IsStableSort (le : τ → τ → Prop) (l l₁ : List τ) : Prop where
  perm : l₁.Perm l
  sorted : l₁.Pairwise le
  stable : ∀ a b, le a b → le b a → [a, b].Sublist l → [a, b].Sublist l₁

structure TotalPreorder (le : τ → τ → Prop) : Prop where
  total : ∀ a b, le a b ∨ le b a
  trans : ∀ a b c, le a b → le b c → le a c

/-- First by `le₁`, and where it ties by `le₂`. -/
def lexLe (le₁ le₂ : τ → τ → Prop) (a b : τ) : Prop := le₁ a b ∧ (le₁ b a → le₂ a b)

theorem TotalPreorder.refl (h : TotalPreorder le) (a : τ) : le a a := (h.total a a).elim id id

theorem IsStableSort.rfl' (l : List τ) : IsStableSort (fun _ _ => True) l l where
  perm := List.Perm.refl l
  sorted := List.pairwise_of_forall fun _ _ => trivial
  stable _ _ _ _ h := h

theorem isStableSort_mergeSort [DecidableRel le] (h : TotalPreorder le) (l : List τ) :
    IsStableSort le l (l.mergeSort fun a b => le a b) := by
  have htrans : ∀ a b c : τ, decide (le a b) = true → decide (le b c) = true →
      decide (le a c) = true := fun a b c hab hbc =>
    decide_eq_true (h.trans a b c (of_decide_eq_true hab) (of_decide_eq_true hbc))
  have htotal : ∀ a b : τ, (decide (le a b) || decide (le b a)) = true := by
    intro a b
    rw [Bool.or_eq_true, decide_eq_true_iff, decide_eq_true_iff]
    exact h.total a b
  refine ⟨List.mergeSort_perm _ _, ?_, fun a b hab _ hpair => ?_⟩
  · exact (List.pairwise_mergeSort htrans htotal l).imp fun hle => of_decide_eq_true hle
  · exact List.pair_sublist_mergeSort htrans htotal (decide_eq_true hab) hpair

/-- Two stable sorts, the more important one last, sort lexicographically. -/
theorem IsStableSort.lex (hrefl : ∀ a, le₂ a a) (hnodup : l.Nodup) (h₂ : IsStableSort le₂ l l₂)
    (h₁ : IsStableSort le₁ l₂ l₁) : IsStableSort (lexLe le₁ le₂) l l₁ := by
  refine ⟨h₁.perm.trans h₂.perm, ?_, fun a b hab hba hpair => ?_⟩
  · refine List.pairwise_iff_forall_sublist.2 fun {a b} hpair => ?_
    have hle : le₁ a b := List.pairwise_iff_forall_sublist.1 h₁.sorted hpair
    refine ⟨hle, fun hback => ?_⟩
    by_cases hne : a = b
    · exact hne ▸ hrefl a
    have hmem : ∀ c ∈ [a, b], c ∈ l₂ := fun c hc => h₁.perm.subset (hpair.subset hc)
    rcases pair_sublist_or hne (hmem a (by simp)) (hmem b (by simp)) with hab | hba
    · exact List.pairwise_iff_forall_sublist.1 h₂.sorted hab
    · -- the first sort has `b` in front, and the second one would have kept it there
      have hnodup₁ : l₁.Nodup := (h₁.perm.trans h₂.perm).nodup_iff.2 hnodup
      exact absurd (h₁.stable b a hback hle hba) (not_pair_sublist_swap hnodup₁ hpair)
  · exact h₁.stable a b hab.1 hba.1
      (h₂.stable a b (hab.2 hba.1) (hba.2 hab.1) hpair)

theorem IsStableSort.congr (h : IsStableSort le₁ l l₁)
    (hiff : ∀ a ∈ l, ∀ b ∈ l, le₁ a b ↔ le₂ a b) : IsStableSort le₂ l l₁ := by
  refine ⟨h.perm, ?_, fun a b hab hba hpair => ?_⟩
  · refine h.sorted.imp_of_mem fun ha hb hle => ?_
    exact (hiff _ (h.perm.subset ha) _ (h.perm.subset hb)).1 hle
  · have ha : a ∈ l := hpair.subset List.mem_cons_self
    have hb : b ∈ l := hpair.subset (List.mem_cons_of_mem _ List.mem_cons_self)
    exact h.stable a b ((hiff a ha b hb).2 hab) ((hiff b hb a ha).2 hba) hpair

/-- A stable sort leaves a pair as it is exactly when it is in order. -/
theorem IsStableSort.pair_iff (hne : a ≠ b) (h : IsStableSort le [a, b] l₁) :
    l₁ = [a, b] ↔ le a b := by
  constructor
  · rintro rfl
    exact List.rel_of_pairwise_cons h.sorted List.mem_cons_self
  · intro hle
    rcases List.perm_pair.1 h.perm with rfl | rfl
    · rfl
    · have hback : le b a := List.rel_of_pairwise_cons h.sorted List.mem_cons_self
      have hnodup : [b, a].Nodup :=
        List.nodup_cons.2 ⟨by simpa using hne.symm, List.nodup_singleton a⟩
      have hpair := h.stable a b hle hback (List.Sublist.refl _)
      exact absurd hpair (not_pair_sublist_swap hnodup (List.Sublist.refl _))

/-! ## Sorting with a comparator -/

/-- `g_slist_sort_with_data`.  A comparison of two entries that has no value leaves the sort
undefined. -/
def gSlistSortWithData (cmp : τ → τ → Option ℤ) (l : List τ) : Option (List τ) :=
  if l.Pairwise fun a b => (cmp a b).isSome ∧ (cmp b a).isSome then
    some (l.mergeSort fun a b => (cmp a b).getD 0 ≤ 0)
  else none

/-- A comparator with the signs of a total preorder sorts by it. -/
theorem isStableSort_gSlistSortWithData (hle : TotalPreorder le) {cmp : τ → τ → Option ℤ}
    (hcmp : ∀ a ∈ l, ∀ b ∈ l, ∃ r ∈ cmp a b, r ≤ 0 ↔ le a b) :
    ∃ l₁, gSlistSortWithData cmp l = some l₁ ∧ IsStableSort le l l₁ := by
  classical
  have hsome : ∀ a ∈ l, ∀ b ∈ l, (cmp a b).isSome := by
    intro a ha b hb
    obtain ⟨r, hr, -⟩ := hcmp a ha b hb
    exact Option.isSome_of_mem hr
  have hsort : (l.mergeSort fun a b => decide ((cmp a b).getD 0 ≤ 0)) =
      l.mergeSort fun a b => decide (le a b) := by
    have hmap := List.map_mergeSort (f := id) (l := l)
      (r := fun a b => decide ((cmp a b).getD 0 ≤ 0)) (s := fun a b => decide (le a b)) ?_
    · rwa [List.map_id, List.map_id] at hmap
    · intro a ha b hb
      obtain ⟨r, hr, hiff⟩ := hcmp a ha b hb
      rw [Option.mem_def.1 hr, Option.getD_some]
      exact decide_eq_decide.2 hiff
  refine ⟨_, if_pos (List.pairwise_of_forall_mem_list fun a ha b hb =>
    ⟨hsome a ha b hb, hsome b hb a ha⟩), ?_⟩
  rw [hsort]
  exact isStableSort_mergeSort hle l

/-- A sort that is defined has compared each two entries. -/
theorem perm_of_gSlistSortWithData {cmp : τ → τ → Option ℤ}
    (h : gSlistSortWithData cmp l = some l₁) :
    l₁.Perm l ∧ ∀ a ∈ l, ∀ b ∈ l, a ≠ b → (cmp a b).isSome := by
  unfold gSlistSortWithData at h
  split_ifs at h with hpairwise
  obtain rfl := Option.some.inj h
  refine ⟨List.mergeSort_perm _ _, fun a ha b hb hne => ?_⟩
  have hsymm : Std.Symm fun a b => (cmp a b).isSome ∧ (cmp b a).isSome := ⟨fun _ _ => And.symm⟩
  exact (hpairwise.forall ha hb hne).1

/-- Two entries are exchanged exactly when the comparator puts the first one behind. -/
theorem gSlistSortWithData_pair (cmp : τ → τ → Option ℤ) {r s : ℤ} (hab : cmp a b = some r)
    (hba : cmp b a = some s) :
    gSlistSortWithData cmp [a, b] = some (if r ≤ 0 then [a, b] else [b, a]) := by
  have hpairwise : [a, b].Pairwise fun a b => (cmp a b).isSome ∧ (cmp b a).isSome := by
    simp [hab, hba]
  unfold gSlistSortWithData
  rw [if_pos hpairwise]
  simp [List.mergeSort, List.merge, hab]

theorem gSlistSortWithData_pair_of_none (cmp : τ → τ → Option ℤ) (hab : cmp a b = none) :
    gSlistSortWithData cmp [a, b] = none := by
  have hpairwise : ¬ [a, b].Pairwise fun a b => (cmp a b).isSome ∧ (cmp b a).isSome := by
    simp [hab]
  exact if_neg hpairwise

end PQL
