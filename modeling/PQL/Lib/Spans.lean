import Mathlib

/-!
# Spans

A span is a half-open interval of integers.  `Span.clip s m` is the part of a span inside
the window of `m` integers from `s` on, counted from the start of the window; `clipAll` clips a list
and leaves out the parts that are empty, so that disjoint spans in order stay so
(`Separated.clipAll`).
-/

namespace PQL

structure Span where
  beg : ℤ
  fin : ℤ
deriving DecidableEq, Repr

/-- Spans in order, not empty, disjoint and inside `[0, n)`. -/
structure Separated (n : ℤ) (gs : List Span) : Prop where
  sorted : gs.Pairwise fun g h => g.fin ≤ h.beg
  inside : ∀ g ∈ gs, 0 ≤ g.beg ∧ g.beg < g.fin ∧ g.fin ≤ n

namespace Span

def toSet (g : Span) : Set ℤ := Set.Ico g.beg g.fin

/-- The part of `g` inside the window, from the start of the window on. -/
def clip (s m : ℤ) (g : Span) : Option Span :=
  if max g.beg s < min g.fin (s + m) then some ⟨max g.beg s - s, min g.fin (s + m) - s⟩ else none

theorem clip_eq_some_iff {s m : ℤ} {g h : Span} :
    g.clip s m = some h ↔ max g.beg s < min g.fin (s + m) ∧
      h = ⟨max g.beg s - s, min g.fin (s + m) - s⟩ := by
  rw [clip, Option.ite_none_right_eq_some, Option.some_inj, eq_comm (a := h)]

theorem clip_eq_none_iff {s m : ℤ} {g : Span} :
    g.clip s m = none ↔ g.toSet ∩ Set.Ico s (s + m) = ∅ := by
  simp only [clip, toSet, Set.Ico_inter_Ico, Set.Ico_eq_empty_iff, ite_eq_right_iff, reduceCtorEq,
    imp_false]

end Span

def clipAll (s m : ℤ) (gs : List Span) : List Span := gs.filterMap (Span.clip s m)

theorem Separated.clipAll {n s m : ℤ} {gs : List Span} (h : Separated n gs) :
    Separated m (clipAll s m gs) := by
  refine ⟨?_, fun g hg => ?_⟩
  · refine h.sorted.filterMap _ fun g g' hgg' b hb b' hb' => ?_
    obtain ⟨hlt, rfl⟩ := Span.clip_eq_some_iff.1 hb
    obtain ⟨hlt', rfl⟩ := Span.clip_eq_some_iff.1 hb'
    show min g.fin (s + m) - s ≤ max g'.beg s - s
    omega
  · obtain ⟨g', -, hc⟩ := List.mem_filterMap.1 hg
    obtain ⟨hlt, rfl⟩ := Span.clip_eq_some_iff.1 hc
    show 0 ≤ max g'.beg s - s ∧ max g'.beg s - s < min g'.fin (s + m) - s ∧
      min g'.fin (s + m) - s ≤ m
    omega

/-- When one function keeps whatever the other keeps, the lists that they leave are equal only if
the functions agree on every entry. -/
theorem filterMap_eq_filterMap_iff {α β : Type} {f g : α → Option β} {l : List α}
    (h : ∀ x ∈ l, (g x).isSome → (f x).isSome) :
    l.filterMap f = l.filterMap g ↔ ∀ x ∈ l, f x = g x := by
  refine ⟨fun heq => ?_, List.filterMap_congr⟩
  induction l with
  | nil => exact fun x hx => absurd hx List.not_mem_nil
  | cons x l ih =>
    have hl : ∀ y ∈ l, (g y).isSome → (f y).isSome := fun y hy => h y (List.mem_cons_of_mem x hy)
    have hle : (l.filterMap g).length ≤ (l.filterMap f).length := by
      rw [List.length_filterMap_eq_countP, List.length_filterMap_eq_countP]
      exact List.countP_mono_left hl
    cases hf : f x with
    | none =>
      have hg : g x = none := by
        by_contra hne
        have := h x List.mem_cons_self (Option.isSome_iff_ne_none.2 hne)
        rw [hf] at this
        exact absurd this Bool.false_ne_true
      rw [List.filterMap_cons_none hf, List.filterMap_cons_none hg] at heq
      exact List.forall_mem_cons.2 ⟨hf.trans hg.symm, ih hl heq⟩
    | some b =>
      cases hg : g x with
      | none =>
        rw [List.filterMap_cons_some hf, List.filterMap_cons_none hg] at heq
        have := congrArg List.length heq
        rw [List.length_cons] at this
        omega
      | some c =>
        rw [List.filterMap_cons_some hf, List.filterMap_cons_some hg, List.cons.injEq] at heq
        exact List.forall_mem_cons.2 ⟨by rw [hf, hg, heq.1], ih hl heq.2⟩

end PQL
