import Mathlib

/-!
# Updating an entry of a list

A table kept as a list is searched from the front, and the first entry that fits is changed.
-/

namespace PQL

variable {α β : Type}

/-- Applies `f` to the first element that satisfies `p`. -/
def updateFirst (p : α → Bool) (f : α → α) : List α → List α
  | [] => []
  | a :: l => if p a then f a :: l else a :: updateFirst p f l

theorem forall_mem_updateFirst {p : α → Bool} {f : α → α} {P : α → Prop} {l : List α}
    (hone : l.Pairwise fun a b => ¬ (p a ∧ p b)) (hf : ∀ a ∈ l, p a → P (f a))
    (hl : ∀ a ∈ l, ¬ p a → P a) : ∀ a ∈ updateFirst p f l, P a := by
  induction l with
  | nil => exact nofun
  | cons a l ih =>
    rw [List.pairwise_cons] at hone
    rw [List.forall_mem_cons] at hf hl
    unfold updateFirst
    by_cases ha : p a
    · rw [if_pos ha, List.forall_mem_cons]
      exact ⟨hf.1 ha, fun b hb => hl.2 b hb fun hpb => hone.1 b hb ⟨ha, hpb⟩⟩
    · rw [if_neg ha, List.forall_mem_cons]
      exact ⟨hl.1 ha, ih hone.2 hf.2 hl.2⟩

theorem map_updateFirst (p : α → Bool) (f : α → α) (g : α → β)
    (hg : ∀ a, g (f a) = g a) (l : List α) : (updateFirst p f l).map g = l.map g := by
  induction l with
  | nil => rfl
  | cons a l ih =>
    unfold updateFirst
    by_cases ha : p a
    · rw [if_pos ha, List.map_cons, List.map_cons, hg]
    · rw [if_neg ha, List.map_cons, List.map_cons, ih]

theorem length_updateFirst (p : α → Bool) (f : α → α) (l : List α) :
    (updateFirst p f l).length = l.length := by
  have hmap := congrArg List.length (map_updateFirst p f (fun _ => ()) (fun _ => rfl) l)
  rwa [List.length_map, List.length_map] at hmap

/-- What is read of a table changes with an update exactly if what is read of the entry does. -/
theorem filterMap_updateFirst_iff {p : α → Bool} {f : α → α} (φ : α → Option β) {l : List α} {a : α}
    (ha : l.find? p = some a) :
    (updateFirst p f l).filterMap φ = l.filterMap φ ↔ φ (f a) = φ a := by
  induction l with
  | nil => exact absurd ha (by simp)
  | cons b l ih =>
    unfold updateFirst
    by_cases hb : p b
    · rw [List.find?_cons_of_pos hb] at ha
      obtain rfl := Option.some.inj ha
      rw [if_pos hb, List.filterMap_cons, List.filterMap_cons]
      -- a missing entry makes the list shorter
      have hlen : ∀ c : β, l.filterMap φ ≠ c :: l.filterMap φ := fun c h =>
        absurd (congrArg List.length h) (Nat.succ_ne_self _).symm
      cases hfb : φ (f b) with
      | none =>
        cases hφb : φ b with
        | none => exact iff_of_true rfl rfl
        | some c => exact iff_of_false (hlen c) (by simp)
      | some c =>
        cases hφb : φ b with
        | none => exact iff_of_false (fun h => hlen c h.symm) (by simp)
        | some d => simp
    · rw [List.find?_cons_of_neg hb] at ha
      rw [if_neg hb, List.filterMap_cons, List.filterMap_cons]
      cases φ b with
      | none => exact ih ha
      | some c =>
        rw [List.cons.injEq, and_iff_right rfl]
        exact ih ha

/-- Without an entry for it an update does nothing. -/
theorem updateFirst_of_not {p : α → Bool} {f : α → α} {l : List α} (h : l.find? p = none) :
    updateFirst p f l = l := by
  induction l with
  | nil => rfl
  | cons a l ih =>
    rw [List.find?_eq_none] at h
    obtain ⟨ha, hl⟩ := List.forall_mem_cons.1 h
    rw [updateFirst, if_neg ha, ih (List.find?_eq_none.2 hl)]

/-- An update that puts `x` in front of an entry's list puts it into the joined list. -/
theorem flatMap_updateFirst_perm {p : α → Bool} {f : α → α} {g : α → List β} {x : β}
    (hf : ∀ a, g (f a) = x :: g a) {l : List α} (hl : l.any p) :
    ((updateFirst p f l).flatMap g).Perm (x :: l.flatMap g) := by
  induction l with
  | nil => exact nomatch hl
  | cons a l ih =>
    unfold updateFirst
    by_cases ha : p a
    · rw [if_pos ha, List.flatMap_cons, List.flatMap_cons, hf]
      exact List.Perm.refl _
    · have hrest : l.any p := by
        rw [List.any_cons, Bool.or_eq_true] at hl
        exact hl.resolve_left ha
      rw [if_neg ha, List.flatMap_cons, List.flatMap_cons]
      exact ((ih hrest).append_left (g a)).trans List.perm_middle

theorem forall_mem_updateFirst_of_forall {p : α → Bool} {f : α → α} {P : α → Prop}
    (hf : ∀ a, P a → P (f a)) {l : List α} (hl : ∀ a ∈ l, P a) : ∀ a ∈ updateFirst p f l, P a := by
  induction l with
  | nil => exact nofun
  | cons a l ih =>
    obtain ⟨ha, hl⟩ := List.forall_mem_cons.1 hl
    unfold updateFirst
    split_ifs
    · exact List.forall_mem_cons.2 ⟨hf a ha, hl⟩
    · exact List.forall_mem_cons.2 ⟨ha, ih hl⟩

/-- In a table with different keys only one entry has a given key. -/
theorem flatMap_filter_key {κ : Type} [DecidableEq κ] (key : α → κ) (f : α → List β)
    (keyOf : β → κ) (hkey : ∀ a, ∀ b ∈ f a, keyOf b = key a) {l : List α}
    (hnodup : (l.map key).Nodup) {a : α} (ha : a ∈ l) :
    (l.flatMap f).filter (fun b => keyOf b = key a) = f a := by
  have hself : ∀ c, key c = key a → (f c).filter (fun b => keyOf b = key a) = f c := fun c hc =>
    List.filter_eq_self.2 fun b hb => decide_eq_true ((hkey c b hb).trans hc)
  have hother : ∀ c, key c ≠ key a → (f c).filter (fun b => keyOf b = key a) = [] := fun c hc =>
    List.filter_eq_nil_iff.2 fun b hb h => hc ((hkey c b hb).symm.trans (of_decide_eq_true h))
  induction l with
  | nil => exact absurd ha List.not_mem_nil
  | cons c l ih =>
    rw [List.map_cons, List.nodup_cons] at hnodup
    rw [List.flatMap_cons, List.filter_append]
    rcases List.mem_cons.1 ha with rfl | ha
    · have hrest : (l.flatMap f).filter (fun b => keyOf b = key a) = [] := by
        rw [List.filter_flatMap, List.flatMap_eq_nil_iff]
        intro d hd
        exact hother d fun h => hnodup.1 (h ▸ List.mem_map_of_mem hd)
      rw [hself a rfl, hrest, List.append_nil]
    · have hne : key c ≠ key a := fun h => hnodup.1 (h ▸ List.mem_map_of_mem ha)
      rw [hother c hne, List.nil_append, ih hnodup.2 ha]

end PQL
