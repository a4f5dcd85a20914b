import Mathlib

/-!
# Segments on a grid

A list of segments, each a run of samples that starts at a grid index, covers part of the grid.
`assembled` lays the segments out on the grid, where the segment listed first wins and an index that
no segment covers holds zero.  `MaximalRuns` describes the maximal runs of indices with a property,
in order; such a list is unique.  For segments sorted by start, the lemmas at the end say how all
this grows by one more segment.
-/

namespace PQL

/-! ## Maximal runs -/

/-- The runs `[r.1, r.2)` are the maximal runs of indices below `n` that satisfy `P`, in order. -/
structure MaximalRuns (P : ℕ → Prop) (n : ℕ) (runs : List (ℕ × ℕ)) : Prop where
  nonempty : ∀ r ∈ runs, r.1 < r.2
  separated : runs.Pairwise fun r s => r.2 < s.1
  mem_iff : ∀ i, (∃ r ∈ runs, r.1 ≤ i ∧ i < r.2) ↔ i < n ∧ P i

/-- The runs in a list without its first one. -/
theorem MaximalRuns.tail {P : ℕ → Prop} {n : ℕ} {r : ℕ × ℕ} {rs : List (ℕ × ℕ)}
    (h : MaximalRuns P n (r :: rs)) : MaximalRuns (fun i => r.2 ≤ i ∧ P i) n rs := by
  have hsep := List.pairwise_cons.1 h.separated
  refine ⟨fun s hs => h.nonempty s (List.mem_cons_of_mem r hs), hsep.2, fun i => ?_⟩
  constructor
  · rintro ⟨s, hs, hsi⟩
    obtain ⟨hin, hP⟩ := (h.mem_iff i).1 ⟨s, List.mem_cons_of_mem r hs, hsi⟩
    have := hsep.1 s hs
    exact ⟨hin, by omega, hP⟩
  · rintro ⟨hin, hri, hP⟩
    obtain ⟨s, hs, hsi⟩ := (h.mem_iff i).2 ⟨hin, hP⟩
    rcases List.mem_cons.1 hs with rfl | hs
    · omega
    · exact ⟨s, hs, hsi⟩

/-- The first run starts at the first index with the property. -/
theorem MaximalRuns.head_le {P : ℕ → Prop} {n : ℕ} {r : ℕ × ℕ} {rs : List (ℕ × ℕ)}
    (h : MaximalRuns P n (r :: rs)) {i : ℕ} (hi : i < n ∧ P i) : r.1 ≤ i := by
  obtain ⟨s, hs, hsi⟩ := (h.mem_iff i).2 hi
  rcases List.mem_cons.1 hs with rfl | hs
  · exact hsi.1
  · have hrs := (List.pairwise_cons.1 h.separated).1 s hs
    have hr := h.nonempty r List.mem_cons_self
    omega

/-- The index after the first run does not have the property. -/
theorem MaximalRuns.not_head_snd {P : ℕ → Prop} {n : ℕ} {r : ℕ × ℕ} {rs : List (ℕ × ℕ)}
    (h : MaximalRuns P n (r :: rs)) : ¬ (r.2 < n ∧ P r.2) := by
  intro hr
  obtain ⟨s, hs, hsi⟩ := (h.mem_iff r.2).2 hr
  rcases List.mem_cons.1 hs with rfl | hs
  · omega
  · have hrs := (List.pairwise_cons.1 h.separated).1 s hs
    omega

/-- The maximal runs are determined by the property. -/
theorem MaximalRuns.unique {P : ℕ → Prop} {n : ℕ} {rs ss : List (ℕ × ℕ)}
    (hr : MaximalRuns P n rs) (hs : MaximalRuns P n ss) : rs = ss := by
  induction rs generalizing P ss with
  | nil =>
    cases ss with
    | nil => rfl
    | cons s ss =>
      have hmem := (hs.mem_iff s.1).1 ⟨s, List.mem_cons_self, le_refl _,
        hs.nonempty s List.mem_cons_self⟩
      obtain ⟨r, hr', -⟩ := (hr.mem_iff s.1).2 hmem
      cases hr'
  | cons r rs ih =>
    have hrmem : ∀ i, r.1 ≤ i → i < r.2 → i < n ∧ P i := fun i h₁ h₂ =>
      (hr.mem_iff i).1 ⟨r, List.mem_cons_self, h₁, h₂⟩
    have hr12 := hr.nonempty r List.mem_cons_self
    cases ss with
    | nil =>
      obtain ⟨s, hs', -⟩ := (hs.mem_iff r.1).2 (hrmem r.1 (le_refl _) hr12)
      cases hs'
    | cons s ss =>
      have hsmem : ∀ i, s.1 ≤ i → i < s.2 → i < n ∧ P i := fun i h₁ h₂ =>
        (hs.mem_iff i).1 ⟨s, List.mem_cons_self, h₁, h₂⟩
      have hs12 := hs.nonempty s List.mem_cons_self
      have hfst : r.1 = s.1 := le_antisymm (hr.head_le (hsmem s.1 (le_refl _) hs12))
        (hs.head_le (hrmem r.1 (le_refl _) hr12))
      have hsnd : r.2 = s.2 := by
        refine le_antisymm (not_lt.1 fun hlt => ?_) (not_lt.1 fun hlt => ?_)
        · exact hs.not_head_snd (hrmem s.2 (by omega) hlt)
        · exact hr.not_head_snd (hsmem r.2 (by omega) hlt)
      obtain rfl : r = s := Prod.ext hfst hsnd
      rw [ih hr.tail hs.tail]

/-! ## Segments -/

/-- A run of samples on the grid. -/
structure Segment (α : Type*) where
  start : ℕ
  samples : List α
  nonempty : samples ≠ []

section Segments

variable {α : Type*}

namespace Segment

/-- The index after the last sample. -/
def stop (g : Segment α) : ℕ := g.start + g.samples.length

/-- The sample of the segment at grid index `i`. -/
def sampleAt (g : Segment α) (i : ℕ) : Option α :=
  if i < g.start then none else g.samples[i - g.start]?

theorem start_lt_stop (g : Segment α) : g.start < g.stop := by
  have := List.length_pos_iff.2 g.nonempty
  unfold stop
  omega

theorem isSome_sampleAt (g : Segment α) (i : ℕ) :
    (g.sampleAt i).isSome ↔ g.start ≤ i ∧ i < g.stop := by
  unfold sampleAt stop
  by_cases h : i < g.start
  · simp only [if_pos h, Option.isSome_none, Bool.false_eq_true, false_iff]
    omega
  · rw [if_neg h, isSome_getElem?]
    omega

end Segment

/-- The index after the last sample of all segments. -/
def extent (gs : List (Segment α)) : ℕ := gs.foldr (fun g m => max g.stop m) 0

/-- The sample at grid index `i` of the first segment that covers it. -/
def firstSample (gs : List (Segment α)) (i : ℕ) : Option α := gs.findSome? fun g => g.sampleAt i

def covered (gs : List (Segment α)) (i : ℕ) : Bool := (firstSample gs i).isSome

/-- The number of samples of `g` that the segments `gs` cover. -/
def coveredCount (gs : List (Segment α)) (g : Segment α) : ℕ :=
  ((List.range' g.start g.samples.length).filter (covered gs)).length

/-- The segments laid out on the grid. -/
def assembled [Zero α] (gs : List (Segment α)) : List α :=
  (List.range (extent gs)).map fun i => (firstSample gs i).getD 0

@[simp] theorem extent_nil : extent ([] : List (Segment α)) = 0 := rfl

theorem extent_append (gs hs : List (Segment α)) :
    extent (gs ++ hs) = max (extent gs) (extent hs) := by
  induction gs with
  | nil => simp
  | cons g gs ih =>
    show max g.stop (extent (gs ++ hs)) = max (max g.stop (extent gs)) (extent hs)
    rw [ih, max_assoc]

theorem extent_singleton (g : Segment α) : extent [g] = g.stop := by
  show max g.stop 0 = g.stop
  omega

theorem stop_le_extent {gs : List (Segment α)} {g : Segment α} (hg : g ∈ gs) :
    g.stop ≤ extent gs := by
  obtain ⟨pre, post, rfl⟩ := List.append_of_mem hg
  rw [extent_append, ← List.singleton_append, extent_append, extent_singleton]
  omega

/-- Some segment reaches the extent. -/
theorem exists_stop_eq_extent {gs : List (Segment α)} (h : gs ≠ []) :
    ∃ g ∈ gs, g.stop = extent gs := by
  induction gs with
  | nil => exact absurd rfl h
  | cons g gs ih =>
    rw [← List.singleton_append, extent_append, extent_singleton]
    by_cases hgs : gs = []
    · subst hgs
      exact ⟨g, List.mem_cons_self, by simp⟩
    · obtain ⟨h, hh, heq⟩ := ih hgs
      rcases le_total g.stop (extent gs) with hle | hle
      · exact ⟨h, List.mem_cons_of_mem g hh, by rw [heq, max_eq_right hle]⟩
      · exact ⟨g, List.mem_cons_self, by rw [max_eq_left hle]⟩

theorem covered_iff (gs : List (Segment α)) (i : ℕ) :
    covered gs i ↔ ∃ g ∈ gs, g.start ≤ i ∧ i < g.stop := by
  unfold covered firstSample
  rw [List.findSome?_isSome_iff]
  simp only [Segment.isSome_sampleAt]

theorem lt_extent_of_covered {gs : List (Segment α)} {i : ℕ} (h : covered gs i) :
    i < extent gs := by
  obtain ⟨g, hg, -, hi⟩ := (covered_iff gs i).1 h
  exact hi.trans_le (stop_le_extent hg)

/-- From the last start on, everything up to the extent is covered. -/
theorem covered_of_le {gs : List (Segment α)} {a i : ℕ} (hstart : ∀ g ∈ gs, g.start ≤ a)
    (ha : a ≤ i) (hi : i < extent gs) : covered gs i := by
  have hne : gs ≠ [] := by
    rintro rfl
    exact absurd hi (Nat.not_lt_zero i)
  obtain ⟨g, hg, hstop⟩ := exists_stop_eq_extent hne
  exact (covered_iff gs i).2 ⟨g, hg, (hstart g hg).trans ha, hstop ▸ hi⟩

theorem firstSample_eq_none {gs : List (Segment α)} {i : ℕ} (h : extent gs ≤ i) :
    firstSample gs i = none := by
  rw [← Option.not_isSome_iff_eq_none]
  exact fun hc => absurd (lt_extent_of_covered hc) (not_lt.2 h)

theorem firstSample_concat (gs : List (Segment α)) (g : Segment α) (i : ℕ) :
    firstSample (gs ++ [g]) i = (firstSample gs i).or (g.sampleAt i) := by
  unfold firstSample
  rw [List.findSome?_append, List.findSome?_singleton]

theorem length_assembled [Zero α] (gs : List (Segment α)) : (assembled gs).length = extent gs := by
  rw [assembled, List.length_map, List.length_range]

/-! ## One more segment -/

/-- Of a segment that starts last, the samples before the extent are covered already. -/
theorem covered_iff_lt_extent {gs : List (Segment α)} {g : Segment α}
    (hstart : ∀ h ∈ gs, h.start ≤ g.start) {i : ℕ} (hi : g.start ≤ i) :
    covered gs i ↔ i < extent gs :=
  ⟨lt_extent_of_covered, covered_of_le hstart hi⟩

theorem coveredCount_eq {gs : List (Segment α)} {g : Segment α}
    (hstart : ∀ h ∈ gs, h.start ≤ g.start) :
    coveredCount gs g = min g.samples.length (extent gs - g.start) := by
  have hfilter : ∀ n, ((List.range' g.start n).filter (covered gs)).length =
      min n (extent gs - g.start) := by
    intro n
    induction n with
    | zero => simp
    | succ n ih =>
      have hiff := covered_iff_lt_extent hstart (i := g.start + n) (by omega)
      rw [List.range'_1_concat, List.filter_append, List.length_append, ih]
      by_cases hc : covered gs (g.start + n)
      · have := hiff.1 hc
        rw [List.filter_cons_of_pos hc, List.filter_nil, List.length_singleton]
        omega
      · have := mt hiff.2 hc
        rw [List.filter_cons_of_neg hc, List.filter_nil, List.length_nil]
        omega
  exact hfilter _

/-- Laying out one more segment, which starts last, appends zeros up to its start and those of its
samples that are not covered yet. -/
theorem assembled_concat [Zero α] {gs : List (Segment α)} {g : Segment α}
    (hstart : ∀ h ∈ gs, h.start ≤ g.start) :
    assembled (gs ++ [g]) = assembled gs ++
      (List.replicate (g.start - extent gs) 0 ++ g.samples.drop (extent gs - g.start)) := by
  have hext : extent (gs ++ [g]) = max (extent gs) g.stop := by
    rw [extent_append, extent_singleton]
  have hstop : g.stop = g.start + g.samples.length := rfl
  refine List.ext_getElem ?_ fun i hi hi' => ?_
  · simp only [length_assembled, List.length_append, List.length_replicate, List.length_drop, hext]
    have := List.length_pos_iff.2 g.nonempty
    omega
  · have hi : i < max (extent gs) g.stop := by rwa [length_assembled, hext] at hi
    have hleft : (assembled (gs ++ [g]))[i] = ((firstSample gs i).or (g.sampleAt i)).getD 0 := by
      simp only [assembled, List.getElem_map, List.getElem_range, firstSample_concat]
    rw [hleft]
    by_cases hold : i < extent gs
    · rw [List.getElem_append_left (by rw [length_assembled]; exact hold)]
      simp only [assembled, List.getElem_map, List.getElem_range]
      by_cases hc : covered gs i
      · obtain ⟨x, hx⟩ := Option.isSome_iff_exists.1 hc
        rw [hx]
        rfl
      · have hlt : i < g.start := not_le.1 fun hle => hc (covered_of_le hstart hle hold)
        rw [Option.not_isSome_iff_eq_none.1 hc, Segment.sampleAt, if_pos hlt]
        rfl
    · rw [List.getElem_append_right (by rw [length_assembled]; omega),
        firstSample_eq_none (not_lt.1 hold), Option.none_or, Segment.sampleAt]
      by_cases hgap : i < g.start
      · rw [if_pos hgap, List.getElem_append_left (by
          rw [List.length_replicate, length_assembled]; omega), List.getElem_replicate]
        rfl
      · have hlen : i - g.start < g.samples.length := by omega
        have hidx : extent gs - g.start + (i - extent gs - (g.start - extent gs)) =
            i - g.start := by omega
        rw [if_neg hgap, List.getElem_append_right (by
          rw [List.length_replicate, length_assembled]; omega), List.getElem_drop,
          List.getElem?_eq_getElem hlen, Option.getD_some]
        simp only [List.length_replicate, length_assembled, hidx]

/-- The uncovered runs grow by the gap before a segment that starts beyond the extent. -/
theorem MaximalRuns.concat {gs : List (Segment α)} {g : Segment α} (hne : gs ≠ [])
    (hstart : ∀ h ∈ gs, h.start ≤ g.start) {runs : List (ℕ × ℕ)}
    (hruns : MaximalRuns (fun i => ¬ covered gs i) (extent gs) runs) :
    MaximalRuns (fun i => ¬ covered (gs ++ [g]) i) (extent (gs ++ [g]))
      (runs ++ if extent gs < g.start then [(extent gs, g.start)] else []) := by
  have hg := g.start_lt_stop
  have hext : extent (gs ++ [g]) = max (extent gs) g.stop := by
    rw [extent_append, extent_singleton]
  have hcov : ∀ i, covered (gs ++ [g]) i ↔ covered gs i ∨ (g.start ≤ i ∧ i < g.stop) := by
    intro i
    simp only [covered_iff, List.mem_append, List.mem_singleton, or_and_right, exists_or,
      exists_eq_left]
  have hlast : covered gs (extent gs - 1) ∧ 0 < extent gs := by
    obtain ⟨h, hh, hstop⟩ := exists_stop_eq_extent hne
    have hlt := h.start_lt_stop
    exact ⟨(covered_iff gs _).2 ⟨h, hh, by omega, by omega⟩, by omega⟩
  have hbefore : ∀ r ∈ runs, r.2 < extent gs := by
    intro r hr
    have hr12 := hruns.nonempty r hr
    have hin := ((hruns.mem_iff (r.2 - 1)).1 ⟨r, hr, by omega, by omega⟩)
    rcases Nat.lt_or_ge r.2 (extent gs) with hlt | hge
    · exact hlt
    · have : r.2 - 1 = extent gs - 1 := by omega
      exact absurd hlast.1 (this ▸ hin.2)
  have hnew : ∀ i, (extent gs ≤ i ∧ i < g.start) ∨ (i < extent gs ∧ ¬ covered gs i) ↔
      i < extent (gs ++ [g]) ∧ ¬ covered (gs ++ [g]) i := by
    intro i
    rw [hcov, hext]
    constructor
    · rintro (⟨h₁, h₂⟩ | ⟨h₁, h₂⟩)
      · have hnot : ¬ covered gs i := fun hc => absurd (lt_extent_of_covered hc) (not_lt.2 h₁)
        exact ⟨by omega, not_or.2 ⟨hnot, by omega⟩⟩
      · have hlt : i < g.start := not_le.1 fun hle => h₂ (covered_of_le hstart hle h₁)
        exact ⟨by omega, not_or.2 ⟨h₂, by omega⟩⟩
    · rintro ⟨h₁, h₂⟩
      obtain ⟨hn, hout⟩ := not_or.1 h₂
      rcases Nat.lt_or_ge i (extent gs) with hlt | hge
      · exact Or.inr ⟨hlt, hn⟩
      · exact Or.inl ⟨hge, by omega⟩
  by_cases hgap : extent gs < g.start
  · rw [if_pos hgap]
    refine ⟨?_, ?_, fun i => ?_⟩
    · rw [List.forall_mem_append, List.forall_mem_singleton]
      exact ⟨hruns.nonempty, hgap⟩
    · rw [List.pairwise_append]
      refine ⟨hruns.separated, List.pairwise_singleton _ _, fun r hr s hs => ?_⟩
      rw [List.mem_singleton.1 hs]
      exact hbefore r hr
    · rw [← hnew, ← hruns.mem_iff]
      simp only [List.mem_append, List.mem_singleton, or_and_right, exists_or, exists_eq_left]
      exact or_comm
  · rw [if_neg hgap, List.append_nil]
    refine ⟨hruns.nonempty, hruns.separated, fun i => ?_⟩
    rw [← hnew, hruns.mem_iff]
    exact ⟨Or.inr, fun h => h.resolve_left fun h => by omega⟩

end Segments

end PQL
