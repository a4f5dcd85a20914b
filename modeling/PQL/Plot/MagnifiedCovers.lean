import PQL.Plot.MagnifiedRuns

/-!
# Coverage of the magnify plot

A run of the plot is followed from its start to its last block.  At a start that is right the
invariant of `MagnifiedRuns` holds; at the other ones a sample outside of the window is read or
drawn, and stays so.
-/

namespace PQL

namespace MagPlot

variable {w : MagPlot} {info : PlotInfo}

/-! ## The gap that the plot ends at -/

theorem leaving_none (h : w.leaving = none) {g : Span} (hg : g ∈ w.lists.gaps)
    (hinside : w.Inside g) : w.leaves g = false := by
  have hnot := List.find?_eq_none.1 h g hg
  rw [Bool.and_eq_true, decide_eq_true_eq] at hnot
  exact Bool.eq_false_of_not_eq_true fun hleaves => hnot ⟨hinside, hleaves⟩

theorem leaving_some {g : Span} (h : w.leaving = some g) :
    ∃ k : ℕ, w.lists.gaps[k]? = some g ∧ (w.Inside g ∧ w.leaves g = true) ∧
      ∀ (j : ℕ) (g' : Span), w.lists.gaps[j]? = some g' → w.Inside g' → w.leaves g' = true →
        k ≤ j := by
  obtain ⟨hg, k, hk, hget, hbefore⟩ := List.find?_eq_some_iff_getElem.1 h
  rw [Bool.and_eq_true, decide_eq_true_eq] at hg
  refine ⟨k, List.getElem?_eq_some_iff.2 ⟨hk, hget⟩, hg, fun j g' hj hinside hleaves => ?_⟩
  by_contra hlt
  obtain ⟨hj', rfl⟩ := List.getElem?_eq_some_iff.1 hj
  have hnot := hbefore j (by omega)
  rw [decide_eq_true hinside, hleaves] at hnot
  exact Bool.false_ne_true hnot

/-! ## Where the loop is left -/

theorem Walked.end_cases {ended : Bool} (hend : w.goesOn (info, ended) = false) :
    ended = true ∨ ended = false ∧ w.lastPoint - w.inc ≤ info.ptInc := by
  cases ended with
  | true => exact .inl rfl
  | false =>
    refine .inr ⟨rfl, not_lt.1 fun hlt => ?_⟩
    have hgo : w.goesOn (info, false) = true := goesOn_iff.2 ⟨rfl, hlt⟩
    exact Bool.false_ne_true (hend.symm.trans hgo)

theorem gridEnd_bounds (hwf : w.WellFormed) :
    w.inc ∣ w.gridEnd - w.first ∧ w.gridEnd ≤ w.first + w.ndata ∧
      w.first + w.ndata < w.gridEnd + w.inc := by
  have hinc := hwf.inc
  have hdiv := Int.mul_ediv_add_emod w.ndata w.inc
  have hmod := Int.emod_nonneg w.ndata (by omega : w.inc ≠ 0)
  have hlt := Int.emod_lt_of_pos w.ndata (by omega : 0 < w.inc)
  unfold gridEnd
  exact ⟨⟨w.ndata / w.inc, add_sub_cancel_left _ _⟩, by omega, by omega⟩

/-- The loop is left at the last block, or behind the window because the last block begins in a
gap. -/
theorem Placed.gridEnd_cases (hwf : w.WellFormed) (h : w.Placed info)
    (hend : w.lastPoint - w.inc ≤ info.ptInc) :
    info.ptInc = w.gridEnd ∨
      w.lastPoint ≤ info.ptInc ∧ (w.first ≤ w.gridEnd → ¬ w.shown.Valid w.gridEnd) := by
  obtain ⟨hdvd, hle, hlt⟩ := gridEnd_bounds hwf
  have hlast : w.lastPoint = w.first + w.ndata + 1 := rfl
  rcases lt_trichotomy info.ptInc w.gridEnd with hbefore | heq | hbehind
  · have hapart := add_inc_le hwf h.aligned hdvd hbefore
    omega
  · exact .inl heq
  · have hapart := add_inc_le hwf hdvd h.aligned hbehind
    exact .inr ⟨by omega, fun hge => h.past _ hdvd hge (by omega) hbehind⟩

/-- A gap that is met has been passed when the loop is left at the end of the window. -/
theorem Walked.inside_passed (hwf : w.WellFormed) (hov : w.overlay = false)
    (h : w.Walked info false) (hend : w.lastPoint - w.inc ≤ info.ptInc) {k : ℕ} {g : Span}
    (hg : w.lists.gaps[k]? = some g) (hinside : w.Inside g) : k < info.gapNum := by
  have hshown := shown_of_not_overlay hov
  have hlists := hwf.shown_disjoint
  have hpt := h.placed.ptInc_le
  obtain ⟨hbeg, hmeets⟩ := hinside
  by_contra hleft
  have hg' := hg
  rw [← hshown] at hg'
  have hpoint := h.placed.around.gapsLeft k g hg' (not_lt.1 hleft)
  have hstop := h.placed.around.nextStop_le_gap w.lastPoint hlists hg' (not_lt.1 hleft)
  rw [← h.placed.stop] at hstop
  -- the block of a sample that is not in front of the point
  have hblock : ∀ i, info.ptInc ≤ i → info.ptInc ≤ w.block i := by
    intro i hi
    obtain ⟨hle, hlt⟩ := block_bounds hwf i
    by_contra hgt
    have hapart := add_inc_le hwf ⟨(i - w.first) / w.inc, add_sub_cancel_left _ _⟩
      h.placed.aligned (not_le.1 hgt)
    unfold block at hlt hapart
    omega
  unfold meets at hmeets
  split_ifs at hmeets with hfresh
  · have hle := hblock g.beg (by omega)
    omega
  · have hsame : g.beg = info.ptInc := by
      by_contra hne
      have hle := hblock (g.beg - 1) (by omega)
      omega
    rcases h.phase rfl with ⟨hat, -⟩ | ⟨hlt, -⟩ | ⟨-, hlt⟩
    · apply hfresh
      have heq : info.point = g.beg := by omega
      rw [hshown, heq] at hat
      exact hat
    · omega
    · omega

/-- The loop ends at the gap that the line leaves the drawing area at. -/
theorem Walked.leaving_cases (hwf : w.WellFormed) (hov : w.overlay = false) {ended : Bool}
    (h : w.Walked info ended) (hend : w.goesOn (info, ended) = false) :
    (ended = true ∧ ∃ k g, w.lists.gaps[k]? = some g ∧ k + 1 = info.gapNum ∧ w.leaving = some g ∧
        info.ptInc = w.block g.fin) ∨
      ended = false ∧ w.lastPoint - w.inc ≤ info.ptInc ∧ w.leaving = none := by
  have hshown := shown_of_not_overlay hov
  have hkept := h.kept
  rw [hshown] at hkept
  rcases Walked.end_cases hend with rfl | ⟨rfl, hroom⟩
  · obtain ⟨k, g, hg, hk, hinside, hleaves, hptInc⟩ := h.ended rfl
    rw [hshown] at hg
    cases hleaving : w.leaving with
    | none =>
      have hnot := leaving_none hleaving (List.mem_of_getElem? hg) hinside
      exact absurd (hnot.symm.trans hleaves) Bool.false_ne_true
    | some g' =>
      obtain ⟨j, hj, ⟨hinside', hleaves'⟩, hfirst⟩ := leaving_some hleaving
      have hle := hfirst k g hg hinside hleaves
      obtain ⟨-, hnum⟩ := hkept j g' hj (by omega) hinside'.1 hleaves'
      obtain rfl : j = k := by omega
      obtain rfl := Option.some.inj (hg.symm.trans hj)
      exact .inl ⟨rfl, j, g, hg, hk, rfl, hptInc⟩
  · refine .inr ⟨rfl, hroom, ?_⟩
    by_contra hsome
    obtain ⟨g, hleaving⟩ := Option.ne_none_iff_exists'.1 hsome
    obtain ⟨j, hj, ⟨hinside, hleaves⟩, -⟩ := leaving_some hleaving
    have hpassed := h.inside_passed hwf hov hroom hj hinside
    exact Bool.false_ne_true (hkept j g hj hpassed hinside.1 hleaves).1

/-- The gaps that have been passed when the loop is left. -/
theorem Walked.passed_iff (hwf : w.WellFormed) (hov : w.overlay = false) {ended : Bool}
    (h : w.Walked info ended) (hend : w.goesOn (info, ended) = false) {k : ℕ} {g : Span}
    (hg : w.lists.gaps[k]? = some g) : k < info.gapNum ∧ w.first < g.fin ↔ w.Crossed g := by
  have hshown := shown_of_not_overlay hov
  have hlists := hwf.lists
  have hfirst := h.placed.first_le.trans h.placed.ptInc_le
  have haround := h.placed.around
  have hcrossed := h.passed.crossed
  have hkept := h.kept
  rw [hshown] at haround hcrossed hkept
  constructor
  · rintro ⟨hk, hfin⟩
    rcases (hcrossed k g hg hk hfin).1 with hbeg | hinside
    · exact .inl ⟨hbeg, hfin⟩
    · refine .inr ⟨hinside, fun g' hleaving => ?_⟩
      obtain ⟨j, hj, ⟨hinside', hleaves⟩, -⟩ := leaving_some hleaving
      rcases lt_trichotomy k j with hlt | rfl | hgt
      · have hle := hlists.gap_le hg hj hlt
        have hspan := hlists.gap_lt g (List.mem_of_getElem? hg)
        omega
      · exact (congrArg Span.beg (Option.some.inj (hg.symm.trans hj))).le
      · obtain ⟨-, hnum⟩ := hkept j g' hj (hgt.trans hk) hinside'.1 hleaves
        omega
  · have hspan := hlists.gap_lt g (List.mem_of_getElem? hg)
    rintro (⟨hbeg, hfin⟩ | ⟨hinside, hbefore⟩)
    · refine ⟨not_le.1 fun hleft => ?_, hfin⟩
      have hpoint := haround.gapsLeft k g hg hleft
      omega
    · refine ⟨?_, hinside.1.trans_lt hspan⟩
      rcases h.leaving_cases hwf hov hend with ⟨-, j, g', hj, hnum, hleaving, -⟩ |
        ⟨rfl, hroom, -⟩
      · have hle := hbefore g' hleaving
        by_contra hleft
        have hapart := hlists.gap_le hj hg (by omega)
        have hspan' := hlists.gap_lt g' (List.mem_of_getElem? hj)
        omega
      · exact h.inside_passed hwf hov hroom hg hinside

/-! ## The last block -/

theorem mem_drawn_drawLast {i : ℤ} : i ∈ (w.drawLast info).drawn ↔
    i = info.ptInc ∨ (0 ≤ i ∧ i < w.ndata - info.ptInc) ∨ i ∈ info.drawn := by
  show i ∈ ((info.ptInc :: (scanPoints 0 (w.ndata - info.ptInc) 0).1) :: info.extents).flatten ↔ _
  rw [List.flatten_cons, List.cons_append, List.mem_cons, List.mem_append, mem_scanPoints, zero_add,
    zero_add]
  exact Iff.rfl

theorem mem_reads_drawLast {i : ℤ} : i ∈ (w.drawLast info).reads ↔
    i = info.ptInc ∨ (0 ≤ i ∧ i < w.ndata - info.ptInc) ∨ i ∈ info.reads := by
  show i ∈ info.ptInc :: (scanPoints 0 (w.ndata - info.ptInc) 0).1 ++ info.reads ↔ _
  rw [List.cons_append, List.mem_cons, List.mem_append, mem_scanPoints, zero_add, zero_add]

/-- What is left to do behind the main loop. -/
def finish (w : MagPlot) (info : PlotInfo) : PlotInfo :=
  if 1 < w.inc then w.drawLast info else info

/-- The reads and the extents are right. -/
def Covered (w : MagPlot) (info : PlotInfo) : Prop :=
  (∀ i ∈ info.reads, 0 ≤ i ∧ i < w.numSamples) ∧
    (1 < w.inc → ∀ i, i ∈ info.drawn ↔ (w.first ≤ i ∧ i < w.lastPoint) ∧ w.lists.Valid i)

/-- The samples of the last block are samples of the trace. -/
theorem LastFits.reads (hwf : w.WellFormed) (h : w.LastFits info.ptInc)
    (hreads : ∀ i ∈ info.reads, 0 ≤ i ∧ i < w.numSamples) :
    ∀ i ∈ (w.drawLast info).reads, 0 ≤ i ∧ i < w.numSamples := by
  have hfirst := hwf.first.1
  have hlast := hwf.lastPoint
  obtain ⟨⟨hge, hlt, -⟩, hcount, -⟩ := h
  intro i hi
  rcases mem_reads_drawLast.1 hi with rfl | ⟨hi, hi'⟩ | hi
  · omega
  · obtain ⟨hwindow, -⟩ := hcount i hi hi'
    omega
  · exact hreads i hi

/-- What the last block has to be is what it is, if the samples in front of it are right. -/
theorem lastFits_iff (hwf : w.WellFormed)
    (hbefore : ∀ i ∈ info.drawn, (w.first ≤ i ∧ i ≤ info.ptInc ∧ i < w.lastPoint) ∧
      w.lists.Valid i)
    (hcovered : ∀ i, w.first ≤ i → i < info.ptInc → w.lists.Valid i → i ∈ info.drawn) :
    (∀ i, i ∈ (w.drawLast info).drawn ↔ (w.first ≤ i ∧ i < w.lastPoint) ∧ w.lists.Valid i) ↔
      w.LastFits info.ptInc := by
  have hfirst := hwf.first.1
  constructor
  · intro h
    have hsound : ∀ i, i = info.ptInc ∨ (0 ≤ i ∧ i < w.ndata - info.ptInc) ∨ i ∈ info.drawn →
        (w.first ≤ i ∧ i < w.lastPoint) ∧ w.lists.Valid i :=
      fun i hi => (h i).1 (mem_drawn_drawLast.2 hi)
    obtain ⟨hwindow, hvalid⟩ := hsound info.ptInc (.inl rfl)
    refine ⟨⟨hwindow.1, hwindow.2, hvalid⟩, fun i hi hlt => hsound i (.inr (.inl ⟨hi, hlt⟩)),
      fun i hgt hlt hval => ?_⟩
    rcases mem_drawn_drawLast.1 ((h i).2 ⟨⟨by omega, hlt⟩, hval⟩) with rfl | ⟨-, hi⟩ | hi
    · omega
    · exact hi
    · obtain ⟨⟨-, hle, -⟩, -⟩ := hbefore i hi
      omega
  · rintro ⟨⟨hge, hlt, hvalid⟩, hcount, hrest⟩ i
    rw [mem_drawn_drawLast]
    constructor
    · rintro (rfl | ⟨hi, hi'⟩ | hi)
      · exact ⟨⟨hge, hlt⟩, hvalid⟩
      · exact hcount i hi hi'
      · obtain ⟨⟨hi, -, hi'⟩, hval⟩ := hbefore i hi
        exact ⟨⟨hi, hi'⟩, hval⟩
    · rintro ⟨⟨hi, hi'⟩, hval⟩
      rcases lt_trichotomy i info.ptInc with hlt' | rfl | hgt
      · exact .inr (.inr (hcovered i hi hlt' hval))
      · exact .inl rfl
      · have hnonneg := hrest i hgt hi' hval
        exact .inr (.inl ⟨by omega, hnonneg⟩)

/-! ## What is covered when the loop is left -/

section End

variable {ended : Bool}

theorem Walked.point_eq (h : w.Walked info ended) (hend : w.goesOn (info, ended) = false)
    (hvalid : w.shown.Valid info.ptInc) : info.point = info.ptInc := by
  rcases h.landed with hgo | heq | hnot
  · exact absurd (hend.symm.trans hgo) Bool.false_ne_true
  · exact heq
  · exact absurd hvalid hnot

/-- Behind the gaps that have been passed are samples that may be drawn. -/
def CrossedFit (w : MagPlot) : Prop :=
  ∀ g ∈ w.lists.gaps, w.Crossed g → g.fin < w.numSamples ∧ (1 < w.inc → w.lists.Valid g.fin)

theorem Walked.crossedFit (hwf : w.WellFormed) (hov : w.overlay = false)
    (h : w.Walked info ended) (hend : w.goesOn (info, ended) = false)
    (hcovered : w.Covered (w.finish info)) : w.CrossedFit := by
  have hshown := shown_of_not_overlay hov
  have hcrossed := h.passed.crossed
  have hdrawn := h.passed.drawn
  have hpoint := h.point_eq hend
  rw [hshown] at hcrossed hdrawn hpoint
  obtain ⟨hreads, hcovers⟩ := hcovered
  intro g hg hcross
  obtain ⟨k, hk⟩ := List.getElem?_of_mem hg
  obtain ⟨hpassed, hfin⟩ := (h.passed_iff hwf hov hend hk).2 hcross
  have hread := (hcrossed k g hk hpassed hfin).2
  unfold finish at hreads hcovers
  split_ifs at hreads hcovers with hdec
  · refine ⟨(hreads _ (mem_reads_drawLast.2 (.inr (.inr hread)))).2, fun _ => ?_⟩
    have hptInc := ((hcovers hdec _).1 (mem_drawn_drawLast.2 (.inl rfl))).2
    rcases hdrawn hdec k g hk hpassed hfin with hdrawn | heq
    · exact ((hcovers hdec _).1 (mem_drawn_drawLast.2 (.inr (.inr hdrawn)))).2
    · rw [heq, hpoint hptInc]
      exact hptInc
  · exact ⟨(hreads _ hread).2, fun hdec' => absurd hdec' hdec⟩

/-- With the gaps shown the last block decides. -/
theorem Walked.covered_iff (hwf : w.WellFormed) (hov : w.overlay = false)
    (h : w.Walked info ended) (hend : w.goesOn (info, ended) = false) :
    w.Covered (w.finish info) ↔ w.CrossedFit ∧ (1 < w.inc → w.LastFits info.ptInc) := by
  have hshown := shown_of_not_overlay hov
  have hpoint := h.point_eq hend
  have hsampled := h.sampled.drawn
  have hcovered := h.sampled.covered
  rw [hshown] at hpoint hsampled hcovered
  have hbehind : ∀ i, w.Behind info i → ∃ g ∈ w.lists.gaps, w.Crossed g ∧ g.fin = i := by
    rintro i ⟨k, g, hg, hk, hfin, heq⟩
    rw [hshown] at hg
    exact ⟨g, List.mem_of_getElem? hg, (h.passed_iff hwf hov hend hg).1 ⟨hk, hfin⟩, heq⟩
  -- the block in front of the last one
  have hblocks : w.CrossedFit → 1 < w.inc → w.lists.Valid info.ptInc →
      ((∀ i, i ∈ (w.drawLast info).drawn ↔ (w.first ≤ i ∧ i < w.lastPoint) ∧ w.lists.Valid i) ↔
        w.LastFits info.ptInc) := by
    intro hfit hdec hvalid
    have heq := hpoint hvalid
    refine lastFits_iff hwf (fun i hi => ?_) fun i hi hlt hval => ?_
    · obtain ⟨⟨hge, hle, hlt⟩, hclear⟩ := hsampled i hi
      refine ⟨⟨hge, heq ▸ hle, hlt⟩, hclear.elim id fun hb => ?_⟩
      obtain ⟨g, hg, hcross, rfl⟩ := hbehind i hb
      exact (hfit g hg hcross).2 hdec
    · exact hcovered hdec i hi (hlt.trans_eq heq.symm) hval
  constructor
  · intro hall
    have hfit := h.crossedFit hwf hov hend hall
    refine ⟨hfit, fun hdec => ?_⟩
    obtain ⟨-, hcovers⟩ := hall
    unfold finish at hcovers
    rw [if_pos hdec] at hcovers
    have hvalid := ((hcovers hdec _).1 (mem_drawn_drawLast.2 (.inl rfl))).2
    exact (hblocks hfit hdec hvalid).1 (hcovers hdec)
  · rintro ⟨hfit, hlast⟩
    have hreads : ∀ i ∈ info.reads, 0 ≤ i ∧ i < w.numSamples := by
      intro i hi
      obtain ⟨hnonneg, hlt⟩ := h.sampled.reads i hi
      refine ⟨hnonneg, hlt.elim id fun hb => ?_⟩
      obtain ⟨g, hg, hcross, rfl⟩ := hbehind i hb
      exact (hfit g hg hcross).1
    unfold finish
    split_ifs with hdec
    · have hlast := hlast hdec
      exact ⟨hlast.reads hwf hreads, fun _ => (hblocks hfit hdec hlast.1.2.2).2 hlast⟩
    · exact ⟨hreads, fun hdec' => absurd hdec' hdec⟩

/-- The last block is the one of the condition. -/
theorem Walked.lastFits_iff (hwf : w.WellFormed) (hov : w.overlay = false)
    (h : w.Walked info ended) (hend : w.goesOn (info, ended) = false) :
    w.LastFits info.ptInc ↔ w.LastFits w.lastBlock := by
  have hshown := shown_of_not_overlay hov
  rcases h.leaving_cases hwf hov hend with ⟨-, -, g, -, -, hleaving, hptInc⟩ |
    ⟨-, hroom, hleaving⟩
  · rw [lastBlock, hleaving, hptInc]
    rfl
  · rw [lastBlock, hleaving, Option.elim_none]
    rcases h.placed.gridEnd_cases hwf hroom with heq | ⟨hge, hpast⟩
    · rw [heq]
    · rw [hshown] at hpast
      constructor
      · rintro ⟨⟨-, hlt, -⟩, -⟩
        omega
      · rintro ⟨⟨hfirst, -, hvalid⟩, -⟩
        exact absurd hvalid (hpast hfirst)

/-- Without gaps and overlaps shown, the window is drawn up to the last block. -/
theorem Walked.covered_overlay (hwf : w.WellFormed) (hov : w.overlay = true)
    (h : w.Walked info ended) (hend : w.goesOn (info, ended) = false) :
    w.Covered (w.finish info) ↔ (1 < w.inc →
      (∀ i, w.first ≤ i → i < w.gridEnd → w.lists.Valid i) ∧ w.LastFits w.gridEnd) := by
  have hshown := shown_of_overlay hov
  have hvalid : ∀ i, w.shown.Valid i := by
    intro i g hg
    rw [hshown] at hg
    exact absurd hg List.not_mem_nil
  have hbehind : ∀ i, ¬ w.Behind info i := by
    rintro i ⟨k, g, hg, -⟩
    rw [hshown] at hg
    exact absurd (List.mem_of_getElem? hg) List.not_mem_nil
  have hroom : w.lastPoint - w.inc ≤ info.ptInc := by
    rcases Walked.end_cases hend with rfl | ⟨-, hroom⟩
    · obtain ⟨k, g, hg, -⟩ := h.ended rfl
      rw [hshown] at hg
      exact absurd (List.mem_of_getElem? hg) List.not_mem_nil
    · exact hroom
  have hpoint := h.point_eq hend (hvalid _)
  have hreads : ∀ i ∈ info.reads, 0 ≤ i ∧ i < w.numSamples := by
    intro i hi
    obtain ⟨hnonneg, hlt⟩ := h.sampled.reads i hi
    exact ⟨hnonneg, hlt.resolve_right (hbehind i)⟩
  have hdrawn : 1 < w.inc → ∀ i ∈ info.drawn,
      w.first ≤ i ∧ i ≤ info.ptInc ∧ i < w.lastPoint := by
    intro _ i hi
    have hwindow := (h.sampled.drawn i hi).1
    rwa [hpoint] at hwindow
  have hbefore : 1 < w.inc → ∀ i, w.first ≤ i → i < info.ptInc → i ∈ info.drawn := by
    intro hdec i hi hlt
    exact h.sampled.covered hdec i hi (hlt.trans_eq hpoint.symm) (hvalid i)
  have hgrid := h.placed.gridEnd_cases hwf hroom
  constructor
  · rintro ⟨-, hcovers⟩ hdec
    unfold finish at hcovers
    rw [if_pos hdec] at hcovers
    have hcovers := hcovers hdec
    have hin := (hcovers info.ptInc).1 (mem_drawn_drawLast.2 (.inl rfl))
    have hinside : ∀ i ∈ info.drawn, w.lists.Valid i := fun i hi =>
      ((hcovers i).1 (mem_drawn_drawLast.2 (.inr (.inr hi)))).2
    have hlast : w.LastFits info.ptInc :=
      (MagPlot.lastFits_iff hwf (fun i hi => ⟨hdrawn hdec i hi, hinside i hi⟩)
        fun i hi hlt _ => hbefore hdec i hi hlt).1 hcovers
    have heq : info.ptInc = w.gridEnd := hgrid.resolve_right fun hpast => by
      have hlt := hin.1.2
      omega
    rw [← heq]
    exact ⟨fun i hi hlt => hinside i (hbefore hdec i hi hlt), hlast⟩
  · intro hfit
    unfold finish
    split_ifs with hdec
    · obtain ⟨hinside, hlast⟩ := hfit hdec
      have heq : info.ptInc = w.gridEnd := hgrid.resolve_right fun hpast =>
        hpast.2 hlast.1.1 (hvalid _)
      rw [← heq] at hinside hlast
      refine ⟨hlast.reads hwf hreads, fun _ => ?_⟩
      refine (MagPlot.lastFits_iff hwf (fun i hi => ⟨hdrawn hdec i hi, ?_⟩)
        fun i hi hlt _ => hbefore hdec i hi hlt).2 hlast
      obtain ⟨hge, hle, -⟩ := hdrawn hdec i hi
      rcases hle.lt_or_eq with hlt | rfl
      · exact hinside i hge hlt
      · exact hlast.1.2.2
    · exact ⟨hreads, fun hdec' => absurd hdec' hdec⟩

end End

/-! ## What has been read and drawn stays so -/

/-- Nothing is taken back. -/
def Keeps (info next : PlotInfo) : Prop :=
  (∀ i ∈ info.reads, i ∈ next.reads) ∧ ∀ i ∈ info.drawn, i ∈ next.drawn

theorem Keeps.refl (info : PlotInfo) : Keeps info info := ⟨fun _ hi => hi, fun _ hi => hi⟩

theorem Keeps.trans {a b c : PlotInfo} (hab : Keeps a b) (hbc : Keeps b c) : Keeps a c :=
  ⟨fun i hi => hbc.1 i (hab.1 i hi), fun i hi => hbc.2 i (hab.2 i hi)⟩

theorem keeps_read (info : PlotInfo) (i : ℤ) : Keeps info (info.read i) :=
  ⟨fun _ hi => List.mem_cons_of_mem _ hi, fun _ hi => hi⟩

theorem keeps_drawBlock (limit : ℤ) (info : PlotInfo) : Keeps info (drawBlock limit info) :=
  ⟨fun _ hi => mem_reads_drawBlock.2 (.inr (.inr hi)),
    fun _ hi => mem_drawn_drawBlock.2 (.inr (.inr hi))⟩

theorem keeps_checkGO (w : MagPlot) (info : PlotInfo) : Keeps info (w.checkGO info).1 := by
  unfold MagPlot.checkGO
  split_ifs
  · exact Keeps.refl _
  · obtain ⟨olapON, olapNum, stop, heq⟩ := checkGO_keeps w.lists w.lastPoint w.inc gapEnd info
    rw [heq]
    unfold checkGap
    cases w.lists.gaps[info.gapNum]? with
    | none => exact Keeps.refl _
    | some gap =>
      dsimp only
      split_ifs
      · exact ⟨fun _ hi => List.mem_append_right _ hi, fun _ hi => hi⟩
      · exact Keeps.refl _
      · exact Keeps.refl _

theorem keeps_plotStop {fuel : ℕ} {s : PlotInfo × Bool} (hstop : w.plotStop fuel info = some s) :
    Keeps info s.1 := by
  have hcheck := keeps_checkGO w info
  unfold MagPlot.plotStop at hstop
  dsimp only at hstop
  split_ifs at hstop
  · obtain rfl := Option.some.inj hstop
    exact hcheck
  · obtain ⟨t, hrun, rfl⟩ := Option.map_eq_some_iff.1 hstop
    have hagain : Keeps info t.1 := by
      refine (whileLoop_sound (P := fun t => Keeps info t.1) (fun t t' ht _ hbody => ?_) hcheck
        hrun).1
      obtain rfl := Option.some.inj hbody
      exact ht.trans (keeps_checkGO w t.1)
    exact hagain.trans (keeps_read t.1 _)

/-- Decimated, the next point is drawn. -/
theorem keeps_plotStep {fuel : ℕ} {s : PlotInfo × Bool} (hstep : w.plotStep fuel info = some s) :
    Keeps info s.1 ∧ (1 < w.inc → info.point ∈ s.1.drawn) := by
  obtain ⟨next, heq, hnext, hpoint⟩ : ∃ next, (if 1 < w.inc then
      drawBlock (min w.inc (info.stop - info.ptInc)) info else info) = next ∧ Keeps info next ∧
        (1 < w.inc → info.point ∈ next.drawn) := by
    refine ⟨_, rfl, ?_, fun hdec => ?_⟩
    · split_ifs
      · exact keeps_drawBlock _ info
      · exact Keeps.refl _
    · rw [if_pos hdec]
      exact mem_drawn_drawBlock.2 (.inl rfl)
  have hrest : Keeps next s.1 := by
    unfold MagPlot.plotStep at hstep
    simp only [heq] at hstep
    split_ifs at hstep
    · exact keeps_plotStop hstep
    · obtain rfl := Option.some.inj hstep
      exact Keeps.refl _
    · obtain rfl := Option.some.inj hstep
      exact ⟨fun _ hi => List.mem_cons_of_mem _ hi, fun _ hi => hi⟩
  exact ⟨hnext.trans hrest, fun hdec => hrest.2 _ (hpoint hdec)⟩

theorem keeps_finish (w : MagPlot) (info : PlotInfo) : Keeps info (w.finish info) := by
  unfold finish
  split_ifs
  · exact ⟨fun _ hi => mem_reads_drawLast.2 (.inr (.inr hi)),
      fun _ hi => mem_drawn_drawLast.2 (.inr (.inr hi))⟩
  · exact Keeps.refl _

/-- The main loop keeps what has been read and drawn; decimated, its first point is drawn, unless
it is left at once. -/
theorem keeps_mainLoop {fuel : ℕ} {s : PlotInfo × Bool}
    (hrun : whileLoop w.goesOn (fun s => w.plotStep fuel s.1) fuel (info, false) = some s) :
    Keeps info s.1 ∧ (1 < w.inc → info.point ∈ s.1.drawn ∨ s.1 = info) := by
  refine (whileLoop_sound
    (P := fun s => Keeps info s.1 ∧ (1 < w.inc → info.point ∈ s.1.drawn ∨ s.1 = info))
    (fun s s' hs _ hbody => ?_) ⟨Keeps.refl info, fun _ => .inr rfl⟩ hrun).1
  obtain ⟨hkeeps, hpoint⟩ := keeps_plotStep hbody
  refine ⟨hs.1.trans hkeeps, fun hdec => .inl ?_⟩
  rcases hs.2 hdec with hdrawn | heq
  · exact hkeeps.2 _ hdrawn
  · rw [← heq]
    exact hpoint hdec

end MagPlot

end PQL
