import PQL.Plot.Magnified

/-!
# Runs of the magnify plot
-/

namespace PQL

/-! ## The first gap and overlap -/

section FindSpan

variable {spans : List Span} {p : ℤ}

theorem getElem?_pairwise {r : Span → Span → Prop} (h : spans.Pairwise r) {i j : ℕ} {s t : Span}
    (hs : spans[i]? = some s) (ht : spans[j]? = some t) (hij : i < j) : r s t := by
  obtain ⟨hi, rfl⟩ := List.getElem?_eq_some_iff.1 hs
  obtain ⟨hj, rfl⟩ := List.getElem?_eq_some_iff.1 ht
  exact List.pairwise_iff_getElem.1 h i j hi hj hij

/-- Spans begin in front of the point up to the first that does not. -/
theorem findIdx_spec (hsorted : spans.Pairwise fun s t => s.fin ≤ t.beg)
    (hlt : ∀ s ∈ spans, s.beg < s.fin) {i : ℕ} {s : Span} (hs : spans[i]? = some s) :
    (i < spans.findIdx (fun s => decide (¬ s.beg < p)) → s.beg < p) ∧
      (spans.findIdx (fun s => decide (¬ s.beg < p)) ≤ i → p ≤ s.beg) := by
  constructor
  · intro hbefore
    obtain ⟨hi, rfl⟩ := List.getElem?_eq_some_iff.1 hs
    have hnot := List.not_of_lt_findIdx hbefore
    simpa using hnot
  · intro hle
    have hlen : spans.findIdx (fun s => decide (¬ s.beg < p)) < spans.length :=
      hle.trans_lt (List.getElem?_eq_some_iff.1 hs).1
    obtain ⟨t, ht⟩ : ∃ t, spans[spans.findIdx fun s => decide (¬ s.beg < p)]? = some t :=
      ⟨_, List.getElem?_eq_getElem hlen⟩
    have hbeg : p ≤ t.beg := by simpa using List.findIdx_of_getElem?_eq_some ht
    rcases hle.eq_or_lt with heq | hlt'
    · rw [heq, hs] at ht
      rwa [Option.some.inj ht]
    · have hfin := getElem?_pairwise hsorted ht hs hlt'
      have hspan := hlt t (List.mem_of_getElem? ht)
      omega

/-- The span that the point is inside of, or the next one. -/
theorem findSpan_spec (hsorted : spans.Pairwise fun s t => s.fin ≤ t.beg)
    (hlt : ∀ s ∈ spans, s.beg < s.fin) {i : ℕ} {s : Span} (hs : spans[i]? = some s) :
    (i < findSpan spans p → s.fin ≤ p) ∧ (findSpan spans p < i → p ≤ s.beg) ∧
      (i = findSpan spans p → p ≤ s.beg ∨ s.beg < p ∧ p < s.fin) := by
  have hidx := @findIdx_spec spans p hsorted hlt
  have hnum : spans.findIdx (fun s => decide (¬ s.beg < p)) ≤ spans.length :=
    List.findIdx_le_length
  unfold findSpan
  dsimp only
  generalize spans.findIdx (fun s => decide (¬ s.beg < p)) = num at *
  have hspan := hlt s (List.mem_of_getElem? hs)
  cases ht : spans[num - 1]? with
  | none =>
    have hlen := (List.getElem?_eq_some_iff.1 hs).1
    have hlen' := List.getElem?_eq_none_iff.1 ht
    omega
  | some t =>
    dsimp only
    have hprev : num ≠ 0 → t.beg < p := fun hne => (hidx ht).1 (by omega)
    have hbeg := hidx hs
    have hbefore : i < num - 1 → s.fin ≤ t.beg := fun hi => getElem?_pairwise hsorted hs ht hi
    have hsame : i = num - 1 → s = t := by
      rintro rfl
      exact Option.some.inj (hs.symm.trans ht)
    split_ifs with hinside
    · obtain ⟨hne, hfin⟩ := hinside
      have hprev := hprev hne
      refine ⟨fun hi => ?_, fun hi => ?_, fun hi => ?_⟩
      · have hle := hbefore hi
        omega
      · exact hbeg.2 (by omega)
      · rw [hsame hi]
        exact .inr ⟨hprev, hfin⟩
    · refine ⟨fun hi => ?_, fun hi => hbeg.2 hi.le, fun hi => .inl (hbeg.2 hi.ge)⟩
      have hne : num ≠ 0 := by omega
      have hfin : t.fin ≤ p := not_lt.1 fun hlt => hinside ⟨hne, hlt⟩
      rcases Nat.lt_or_eq_of_le (Nat.le_sub_one_of_lt hi) with hi' | hi'
      · have hle := hbefore hi'
        have hspan' := hlt t (List.mem_of_getElem? ht)
        omega
      · rw [hsame hi']
        exact hfin

/-- A span is found unless all of them end in front of the point. -/
theorem findSpan_lt_length (hsorted : spans.Pairwise fun s t => s.fin ≤ t.beg)
    (hlt : ∀ s ∈ spans, s.beg < s.fin) :
    findSpan spans p < spans.length ↔ ∃ s ∈ spans, p < s.fin := by
  constructor
  · intro hlen
    have hs := List.getElem?_eq_getElem hlen
    have hspan := hlt _ (List.mem_of_getElem? hs)
    refine ⟨_, List.mem_of_getElem? hs, ?_⟩
    rcases (findSpan_spec hsorted hlt hs).2.2 rfl with hle | ⟨-, hfin⟩
    · omega
    · exact hfin
  · rintro ⟨s, hmem, hfin⟩
    by_contra hlen
    obtain ⟨i, hs⟩ := List.getElem?_of_mem hmem
    have hi := (List.getElem?_eq_some_iff.1 hs).1
    have hle := (findSpan_spec (p := p) hsorted hlt hs).1 (by omega)
    omega

end FindSpan

namespace MagPlot

/-! ## The invariant -/

/-- The lists that the plot looks at. -/
def shown (w : MagPlot) : GapLists := if w.overlay then ⟨[], []⟩ else w.lists

/-- A gap has been passed, in front of the window or by a line over it. -/
structure Passed (w : MagPlot) (info : PlotInfo) : Prop where
  crossed : ∀ k g, w.shown.gaps[k]? = some g → k < info.gapNum → w.first < g.fin →
    (g.beg < w.first ∨ w.Inside g) ∧ g.fin ∈ info.reads
  drawn : 1 < w.inc → ∀ k g, w.shown.gaps[k]? = some g → k < info.gapNum → w.first < g.fin →
    g.fin ∈ info.drawn ∨ g.fin = info.point

/-- A sample behind a gap that has been passed. -/
def Behind (w : MagPlot) (info : PlotInfo) (i : ℤ) : Prop :=
  ∃ k g, w.shown.gaps[k]? = some g ∧ k < info.gapNum ∧ w.first < g.fin ∧ g.fin = i

/-- What has been read and drawn. -/
structure Sampled (w : MagPlot) (info : PlotInfo) : Prop where
  reads : ∀ i ∈ info.reads, 0 ≤ i ∧ (i < w.numSamples ∨ w.Behind info i)
  drawn : ∀ i ∈ info.drawn, (w.first ≤ i ∧ i ≤ info.point ∧ i < w.lastPoint) ∧
    (w.shown.Valid i ∨ w.Behind info i)
  covered : 1 < w.inc → ∀ i, w.first ≤ i → i < info.point → w.shown.Valid i → i ∈ info.drawn

/-- Where the plot is. -/
structure Placed (w : MagPlot) (info : PlotInfo) : Prop where
  around : Around w.shown info
  stop : info.stop = nextStop w.shown w.lastPoint info
  aligned : w.inc ∣ info.ptInc - w.first
  first_le : w.first ≤ info.ptInc
  ptInc_le : info.ptInc ≤ info.point
  le_block : info.point ≤ info.ptInc + w.inc
  past : ∀ q, w.inc ∣ q - w.first → w.first ≤ q → w.lastPoint - w.inc ≤ q → q < info.ptInc →
    ¬ w.shown.Valid q

/-- The point is where the window or a gap left off, and in its own block. -/
def Fresh (w : MagPlot) (info : PlotInfo) : Prop :=
  (info.point = w.first ∨ ∃ g ∈ w.shown.gaps, g.fin = info.point) ∧
    info.point < info.ptInc + w.inc

/-- The sample in front of the point belongs to the block. -/
def Within (w : MagPlot) (info : PlotInfo) : Prop :=
  info.ptInc < info.point ∧ info.point ≠ w.first ∧ ∀ g ∈ w.shown.gaps, g.fin ≠ info.point

/-- At the head of the main loop, or where it has been left. -/
structure Walked (w : MagPlot) (info : PlotInfo) (ended : Bool) : Prop where
  placed : w.Placed info
  passed : w.Passed info
  sampled : w.Sampled info
  phase : ended = false →
    w.Fresh info ∨ w.Within info ∨ info.point = info.ptInc ∧ info.point < info.stop
  clear : 1 < w.inc → w.shown.Valid info.point ∨ w.Behind info info.point
  point_lt : info.point < w.numSamples ∨ w.Behind info info.point
  landed : w.goesOn (info, ended) = true ∨ info.point = info.ptInc ∨ ¬ w.shown.Valid info.ptInc
  kept : ∀ k g, w.shown.gaps[k]? = some g → k < info.gapNum → w.first ≤ g.beg →
    w.leaves g = true → ended = true ∧ k + 1 = info.gapNum
  ended : ended = true → ∃ k g, w.shown.gaps[k]? = some g ∧ k + 1 = info.gapNum ∧ w.Inside g ∧
    w.leaves g = true ∧ info.ptInc = w.block g.fin

variable {w : MagPlot} {info : PlotInfo}

theorem shown_of_not_overlay (h : w.overlay = false) : w.shown = w.lists := by
  rw [shown, h]
  rfl

theorem shown_of_overlay (h : w.overlay = true) : w.shown = ⟨[], []⟩ := by
  rw [shown, h]
  rfl

theorem WellFormed.shown_disjoint (hwf : w.WellFormed) : w.shown.Disjoint := by
  unfold shown
  split_ifs
  · refine ⟨?_, ?_, List.Pairwise.nil, List.Pairwise.nil, ?_⟩ <;> intro g hg <;>
      exact absurd hg List.not_mem_nil
  · exact hwf.lists

/-! ### Blocks -/

theorem block_bounds (hwf : w.WellFormed) (i : ℤ) : w.block i ≤ i ∧ i < w.block i + w.inc := by
  have hinc := hwf.inc
  have hdiv := Int.mul_ediv_add_emod (i - w.first) w.inc
  have hmod := Int.emod_nonneg (i - w.first) (by omega : w.inc ≠ 0)
  have hlt := Int.emod_lt_of_pos (i - w.first) (by omega : 0 < w.inc)
  unfold block
  omega

/-- The samples from the first one of a block on, before the next block. -/
theorem block_eq (hwf : w.WellFormed) {p i : ℤ} (hp : w.inc ∣ p - w.first) (hle : p ≤ i)
    (hlt : i < p + w.inc) : w.block i = p := by
  have hinc := hwf.inc
  obtain ⟨m, hm⟩ := hp
  have hdiv : (i - w.first) / w.inc = m := by
    rw [Int.ediv_eq_iff_of_pos (by omega), mul_comm m, ← hm]
    omega
  rw [block, hdiv, ← hm]
  ring

/-- A block counted from another one. -/
theorem block_eq_add (hwf : w.WellFormed) {p : ℤ} (hp : w.inc ∣ p - w.first) (i : ℤ) :
    w.block i = p + w.inc * ((i - p) / w.inc) := by
  have hinc := hwf.inc
  have hdiv := Int.mul_ediv_add_emod (i - p) w.inc
  have hmod := Int.emod_nonneg (i - p) (by omega : w.inc ≠ 0)
  have hlt := Int.emod_lt_of_pos (i - p) (by omega : 0 < w.inc)
  apply block_eq hwf
  · rw [add_sub_right_comm]
    exact dvd_add hp (dvd_mul_right _ _)
  · omega
  · omega

/-- Blocks that begin one behind the other begin a block apart. -/
theorem add_inc_le (hwf : w.WellFormed) {p q : ℤ} (hp : w.inc ∣ p - w.first)
    (hq : w.inc ∣ q - w.first) (hlt : p < q) : p + w.inc ≤ q := by
  have hinc := hwf.inc
  have hdvd : w.inc ∣ q - p := by
    have heq : q - p = q - w.first - (p - w.first) := by ring
    rw [heq]
    exact dvd_sub hq hp
  have hle := Int.le_of_dvd (by omega) hdvd
  omega

/-! ### The points of a block -/

/-- A block is drawn up to its end or to the stop. -/
structure Reached (w : MagPlot) (info : PlotInfo) : Prop where
  placed : w.Placed info
  sampled : w.Sampled info
  crossed : ∀ k g, w.shown.gaps[k]? = some g → k < info.gapNum → w.first < g.fin →
    (g.beg < w.first ∨ w.Inside g) ∧ g.fin ∈ info.reads
  behind : 1 < w.inc → ∀ i, w.Behind info i → i ∈ info.drawn
  room : info.ptInc < w.lastPoint - w.inc
  le_stop : info.point ≤ info.stop
  ends : 1 < w.inc → info.point = info.ptInc + w.inc ∨ info.point = info.stop
  phase : info.point = info.stop → w.Fresh info ∨ w.Within info
  clear : info.point < info.stop → 1 < w.inc → w.shown.Valid info.point
  kept : ∀ k g, w.shown.gaps[k]? = some g → k < info.gapNum → w.first ≤ g.beg → w.leaves g = false

theorem goesOn_iff {s : PlotInfo × Bool} :
    w.goesOn s = true ↔ s.2 = false ∧ s.1.ptInc < w.lastPoint - w.inc := by
  rw [goesOn, Bool.and_eq_true, Bool.not_eq_true', decide_eq_true_eq]

/-- In front of the stop lies no gap. -/
theorem Placed.valid (hwf : w.WellFormed) (h : w.Placed info) {i : ℤ} (hle : info.point ≤ i)
    (hlt : i < info.stop) : w.shown.Valid i := by
  refine h.around.valid hwf.shown_disjoint hle fun g hg => ?_
  have hgap := h.around.nextStop_le_gap w.lastPoint hwf.shown_disjoint hg le_rfl
  rw [← h.stop] at hgap
  omega

/-- A sample that is followed by no gap is not in front of the end of one. -/
theorem fin_ne_of_valid (hwf : w.WellFormed) {i : ℤ} (hvalid : w.shown.Valid i) :
    ∀ g ∈ w.shown.gaps, g.fin ≠ i + 1 := by
  intro g hg heq
  have hlt := hwf.shown_disjoint.gap_lt g hg
  exact hvalid g hg ⟨by omega, by omega⟩

theorem Walked.stay (h : w.Walked info false)
    (hroom : info.ptInc < w.lastPoint - w.inc) (hinc : w.inc = 1) : w.Reached info := by
  have hblock := h.placed.le_block
  have hstop : info.point ≤ info.stop := by
    rw [h.placed.stop]
    exact h.placed.around.le_nextStop (by omega)
  refine ⟨h.placed, h.sampled, h.passed.crossed, fun hdec => absurd hinc hdec.ne', hroom, hstop,
    fun hdec => absurd hinc hdec.ne', fun hat => ?_, fun _ hdec => absurd hinc hdec.ne', ?_⟩
  · rcases h.phase rfl with hfresh | hwithin | ⟨-, hlt⟩
    · exact .inl hfresh
    · exact .inr hwithin
    · exact absurd hat hlt.ne
  · intro k g hg hk hbeg
    by_contra hleaves
    exact Bool.false_ne_true (h.kept k g hg hk hbeg (Bool.eq_true_of_not_eq_false hleaves)).1

theorem Walked.drawBlock (hwf : w.WellFormed) (h : w.Walked info false)
    (hroom : info.ptInc < w.lastPoint - w.inc) (hinc : 1 < w.inc) :
    w.Reached (drawBlock (min w.inc (info.stop - info.ptInc)) info) := by
  have hblock := h.placed.le_block
  have hpt := h.placed.ptInc_le
  have hfirst := h.placed.first_le
  have hlists := hwf.shown_disjoint
  have hlast := hwf.lastPoint
  have hstop : info.point ≤ info.stop := by
    rw [h.placed.stop]
    exact h.placed.around.le_nextStop (by omega)
  have hlimit : info.ptInc + min w.inc (info.stop - info.ptInc) =
      min (info.ptInc + w.inc) info.stop := by omega
  have hpoint : (PQL.drawBlock (min w.inc (info.stop - info.ptInc)) info).point =
      min (info.ptInc + w.inc) info.stop := by
    rw [point_drawBlock, hlimit]
    omega
  have hbounds : info.point ≤ min (info.ptInc + w.inc) info.stop := by omega
  have hle : (PQL.drawBlock (min w.inc (info.stop - info.ptInc)) info).point ≤ info.stop :=
    hpoint.trans_le (min_le_right _ _)
  -- the samples of the block lie in front of the stop
  have hvalid : ∀ i, info.point ≤ i → i < min (info.ptInc + w.inc) info.stop →
      w.shown.Valid i := fun i hi hlt => h.placed.valid hwf hi (by omega)
  have haround : Around w.shown (PQL.drawBlock (min w.inc (info.stop - info.ptInc)) info) := by
    refine h.placed.around.move w.lastPoint hlists rfl rfl rfl ?_ ?_
    · rw [hpoint]
      exact hbounds
    · rw [← h.placed.stop]
      exact hle
  have hplaced : w.Placed (PQL.drawBlock (min w.inc (info.stop - info.ptInc)) info) := by
    refine ⟨haround, h.placed.stop, h.placed.aligned, hfirst, ?_, ?_, h.placed.past⟩
    · rw [hpoint]
      exact hpt.trans hbounds
    · rw [hpoint]
      exact min_le_left _ _
  refine ⟨hplaced, ⟨?_, ?_, fun _ => ?_⟩, ?_, fun _ => ?_, hroom, hle, fun _ => ?_, ?_, ?_, ?_⟩
  · intro i hi
    rcases mem_reads_drawBlock.1 hi with rfl | ⟨hle, hlt⟩ | hi
    · exact ⟨hwf.first.1.trans (hfirst.trans hpt), .inl (by omega)⟩
    · have := hwf.first.1
      exact ⟨by omega, .inl (by omega)⟩
    · exact h.sampled.reads i hi
  · intro i hi
    rw [hpoint]
    rcases mem_drawn_drawBlock.1 hi with rfl | ⟨hle, hlt⟩ | hi
    · exact ⟨⟨hfirst.trans hpt, hbounds, by omega⟩, h.clear hinc⟩
    · rw [hlimit] at hlt
      exact ⟨⟨by omega, hlt.le, by omega⟩, .inl (hvalid i hle hlt)⟩
    · obtain ⟨⟨hge, hle, hlt⟩, hclear⟩ := h.sampled.drawn i hi
      exact ⟨⟨hge, hle.trans hbounds, hlt⟩, hclear⟩
  · intro i hi hlt hval
    rw [hpoint] at hlt
    apply mem_drawn_drawBlock.2
    by_cases hle : info.point ≤ i
    · exact .inr (.inl ⟨hle, hlimit.symm ▸ hlt⟩)
    · exact .inr (.inr (h.sampled.covered hinc i hi (not_le.1 hle) hval))
  · intro k g hg hk hfin
    obtain ⟨hcross, hread⟩ := h.passed.crossed k g hg hk hfin
    exact ⟨hcross, mem_reads_drawBlock.2 (.inr (.inr hread))⟩
  · rintro i ⟨k, g, hg, hk, hfin, rfl⟩
    apply mem_drawn_drawBlock.2
    rcases h.passed.drawn hinc k g hg hk hfin with hdrawn | heq
    · exact .inr (.inr hdrawn)
    · exact .inl heq
  · rcases min_choice (info.ptInc + w.inc) info.stop with hmin | hmin
    · exact .inl (hpoint.trans hmin)
    · exact .inr (hpoint.trans hmin)
  · intro hat
    change _ = info.stop at hat
    rw [hpoint] at hat
    rcases hbounds.eq_or_lt with heq | hmoved
    · have hsame : info.point = info.stop := heq.trans hat
      rcases h.phase rfl with ⟨hfresh, hlt⟩ | ⟨hgt, hne, hfin⟩ | ⟨-, hlt⟩
      · refine .inl ⟨?_, ?_⟩
        · rw [hpoint, ← heq]
          exact hfresh
        · rw [hpoint, ← heq]
          exact hlt
      · refine .inr ⟨?_, ?_⟩
        · rw [hpoint, ← heq]
          exact hgt
        · rw [hpoint, ← heq]
          exact ⟨hne, hfin⟩
      · exact absurd hsame hlt.ne
    · -- the sample in front of the stop has been drawn
      refine .inr ⟨?_, ?_⟩
      · rw [hpoint]
        exact hpt.trans_lt hmoved
      · rw [hpoint]
        refine ⟨(hfirst.trans hpt |>.trans_lt hmoved).ne', ?_⟩
        have hbefore := hvalid (min (info.ptInc + w.inc) info.stop - 1) (by omega) (by omega)
        have hne := fin_ne_of_valid hwf hbefore
        rwa [sub_add_cancel] at hne
  · intro hlt _
    exact hplaced.valid hwf le_rfl hlt
  · intro k g hg hk hbeg
    by_contra hleaves
    exact Bool.false_ne_true (h.kept k g hg hk hbeg (Bool.eq_true_of_not_eq_false hleaves)).1

/-! ### Behind a block -/

theorem Behind.mono {next : PlotInfo} (hnum : info.gapNum ≤ next.gapNum) {i : ℤ}
    (h : w.Behind info i) : w.Behind next i := by
  obtain ⟨k, g, hg, hk, hfin, rfl⟩ := h
  exact ⟨k, g, hg, hk.trans_le hnum, hfin, rfl⟩

/-- The gap at a stop is met in the block of the plot. -/
theorem Reached.meets_eq (hwf : w.WellFormed) (h : w.Reached info) (hshown : w.shown = w.lists)
    (hat : info.point = info.stop) {g : Span} (hbeg : g.beg = info.point) :
    w.meets g = info.ptInc := by
  have hpt := h.placed.ptInc_le
  have hblock := h.placed.le_block
  unfold meets
  rw [hbeg]
  rcases h.phase hat with ⟨hfresh, hlt⟩ | ⟨hgt, hne, hfin⟩
  · rw [hshown] at hfresh
    rw [if_pos hfresh]
    exact block_eq hwf h.placed.aligned hpt hlt
  · rw [hshown] at hfin
    have hother : ¬ (info.point = w.first ∨ ∃ g ∈ w.lists.gaps, g.fin = info.point) := by
      rintro (heq | ⟨g, hg, heq⟩)
      · exact hne heq
      · exact hfin g hg heq
    rw [if_neg hother]
    exact block_eq hwf h.placed.aligned (by omega) (by omega)

/-- Behind a gap that has been hit; the plot ends there if the line over the gap leaves the drawing
area. -/
theorem Reached.behindGap (hwf : w.WellFormed) (h : w.Reached info) {next : PlotInfo} {g : Span}
    (hg : w.shown.gaps[info.gapNum]? = some g) (hbeg : g.beg = info.point)
    (hmeets : w.meets g = info.ptInc) (haround : Around w.shown next)
    (hstop : next.stop = nextStop w.shown w.lastPoint next) (hptInc : next.ptInc = w.block g.fin)
    (hpoint : next.point = g.fin) (hnum : next.gapNum = info.gapNum + 1)
    (hreads : ∀ i, i ∈ next.reads ↔ i = g.fin ∨ i ∈ info.reads)
    (hextents : next.extents = info.extents) : w.Walked next (w.leaves g) := by
  have hlists := hwf.shown_disjoint
  have hmem := List.mem_of_getElem? hg
  have hlt := hlists.gap_lt g hmem
  have hpt := h.placed.ptInc_le
  have hfirst := h.placed.first_le
  have hblock := h.placed.le_block
  have hroom := h.room
  have hnonneg := hwf.first.1
  obtain ⟨hgrid, hgrid'⟩ := block_bounds hwf g.fin
  have hdvd : w.inc ∣ w.block g.fin - w.first :=
    ⟨(g.fin - w.first) / w.inc, add_sub_cancel_left _ _⟩
  have hdrawn : next.drawn = info.drawn := congrArg List.flatten hextents
  have hle : info.ptInc ≤ w.block g.fin := by
    by_contra hgt
    have hapart := add_inc_le hwf hdvd h.placed.aligned (not_le.1 hgt)
    omega
  have hbehind : w.Behind next g.fin := ⟨_, g, hg, by omega, by omega, rfl⟩
  have hmono : ∀ i, w.Behind info i → w.Behind next i := fun i => Behind.mono (by omega)
  have hinside : w.Inside g := ⟨by omega, by rwa [hmeets]⟩
  -- in another block the plot is inside of the gap or behind it
  have hlanded : w.block g.fin ≠ info.ptInc →
      next.point = next.ptInc ∨ ¬ w.shown.Valid next.ptInc := by
    intro hne
    have hapart := add_inc_le hwf h.placed.aligned hdvd (hle.lt_of_ne hne.symm)
    rw [hpoint, hptInc]
    rcases hgrid.eq_or_lt with heq | hlt'
    · exact .inl heq.symm
    · exact .inr fun hvalid => hvalid g hmem ⟨by omega, hlt'⟩
  refine ⟨⟨haround, hstop, ?_, ?_, ?_, ?_, ?_⟩, ⟨?_, fun hdec => ?_⟩, ⟨?_, ?_, fun hdec => ?_⟩,
    ?_, ?_, ?_, ?_, ?_, ?_⟩
  · rwa [hptInc]
  · rw [hptInc]
    exact hfirst.trans hle
  · rwa [hptInc, hpoint]
  · rw [hptInc, hpoint]
    exact hgrid'.le
  · intro q hq hge hend hq'
    rw [hptInc] at hq'
    by_cases hold : q < info.ptInc
    · exact h.placed.past q hq hge hend hold
    · have hapart := add_inc_le hwf h.placed.aligned hq (by omega)
      exact fun hvalid => hvalid g hmem ⟨by omega, by omega⟩
  · intro k g' hg' hk hfin
    rw [hnum] at hk
    rcases Nat.lt_succ_iff_lt_or_eq.1 hk with hk | rfl
    · obtain ⟨hcross, hread⟩ := h.crossed k g' hg' hk hfin
      exact ⟨hcross, (hreads _).2 (.inr hread)⟩
    · obtain rfl := Option.some.inj (hg.symm.trans hg')
      exact ⟨.inr hinside, (hreads _).2 (.inl rfl)⟩
  · intro k g' hg' hk hfin
    rw [hnum] at hk
    rcases Nat.lt_succ_iff_lt_or_eq.1 hk with hk | rfl
    · rw [hdrawn]
      exact .inl (h.behind hdec _ ⟨k, g', hg', hk, hfin, rfl⟩)
    · obtain rfl := Option.some.inj (hg.symm.trans hg')
      exact .inr hpoint.symm
  · intro i hi
    rcases (hreads i).1 hi with rfl | hi
    · exact ⟨by omega, .inr hbehind⟩
    · obtain ⟨hi, hclear⟩ := h.sampled.reads i hi
      exact ⟨hi, hclear.imp_right (hmono i)⟩
  · intro i hi
    rw [hdrawn] at hi
    obtain ⟨⟨hge, hle, hlt⟩, hclear⟩ := h.sampled.drawn i hi
    exact ⟨⟨hge, by omega, hlt⟩, hclear.imp_right (hmono i)⟩
  · intro i hi hlt hval
    rw [hdrawn]
    apply h.sampled.covered hdec i hi _ hval
    by_contra hge
    exact hval g hmem ⟨by omega, hlt.trans_eq hpoint⟩
  · intro _
    refine .inl ⟨.inr ⟨g, hmem, hpoint.symm⟩, ?_⟩
    rw [hpoint, hptInc]
    exact hgrid'
  · intro _
    rw [hpoint]
    exact .inr hbehind
  · rw [hpoint]
    exact .inr hbehind
  · by_cases hsame : w.block g.fin = info.ptInc
    · left
      rw [goesOn_iff]
      refine ⟨?_, by rw [hptInc, hsame]; exact hroom⟩
      unfold leaves
      rw [hmeets, decide_eq_false (not_not.2 hsame), Bool.false_and]
    · exact .inr (hlanded hsame)
  · intro k g' hg' hk hfirst' hleaves
    rw [hnum] at hk ⊢
    rcases Nat.lt_succ_iff_lt_or_eq.1 hk with hk | rfl
    · exact absurd ((h.kept k g' hg' hk hfirst').symm.trans hleaves) Bool.false_ne_true
    · obtain rfl := Option.some.inj (hg.symm.trans hg')
      exact ⟨hleaves, rfl⟩
  · exact fun hleaves => ⟨_, g, hg, hnum.symm, hinside, hleaves, hptInc⟩

/-- At the begin or the end of an overlap. -/
theorem Reached.atOlap (hwf : w.WellFormed) (h : w.Reached info) (hat : info.point = info.stop)
    {next : PlotInfo} (hmiss : ∀ g, w.shown.gaps[info.gapNum]? = some g → info.point < g.beg)
    (haround : Around w.shown next)
    (hstop : next.stop = nextStop w.shown w.lastPoint next) (hptInc : next.ptInc = info.ptInc)
    (hdecInc : next.decInc = info.decInc) (hnum : next.gapNum = info.gapNum)
    (hreads : next.reads = info.reads) (hextents : next.extents = info.extents) :
    w.Walked (next.read next.point) false := by
  have hpt := h.placed.ptInc_le
  have hfirst := h.placed.first_le
  have hblock := h.placed.le_block
  have hroom := h.room
  have hlast := hwf.lastPoint
  have hnonneg := hwf.first.1
  have hpoint : next.point = info.point := by rw [PlotInfo.point, hptInc, hdecInc]; rfl
  have hdrawn : next.drawn = info.drawn := congrArg List.flatten hextents
  have hmono : ∀ i, w.Behind info i → w.Behind (next.read next.point) i :=
    fun i => Behind.mono hnum.ge
  refine ⟨⟨{ haround with }, hstop, ?_, ?_, ?_, ?_, ?_⟩, ⟨?_, fun hdec => ?_⟩,
    ⟨?_, ?_, fun hdec => ?_⟩, fun _ => ?_, fun _ => .inl ?_, .inl ?_, .inl ?_, ?_,
    fun hfalse => absurd hfalse Bool.false_ne_true⟩
  · exact hptInc ▸ h.placed.aligned
  · exact hptInc ▸ hfirst
  · show next.ptInc ≤ next.point
    rwa [hptInc, hpoint]
  · show next.point ≤ next.ptInc + w.inc
    rwa [hptInc, hpoint]
  · intro q hq hge hend hlt
    exact h.placed.past q hq hge hend (hptInc ▸ hlt)
  · intro k g hg hk hfin
    obtain ⟨hcross, hread⟩ := h.crossed k g hg (hnum ▸ hk) hfin
    exact ⟨hcross, List.mem_cons_of_mem _ (hreads.symm ▸ hread)⟩
  · intro k g hg hk hfin
    left
    show g.fin ∈ next.drawn
    rw [hdrawn]
    exact h.behind hdec _ ⟨k, g, hg, hnum ▸ hk, hfin, rfl⟩
  · intro i hi
    rcases List.mem_cons.1 hi with rfl | hi
    · rw [hpoint]
      exact ⟨by omega, .inl (by omega)⟩
    · obtain ⟨hi, hclear⟩ := h.sampled.reads i (hreads ▸ hi)
      exact ⟨hi, hclear.imp_right (hmono i)⟩
  · intro i hi
    change i ∈ next.drawn at hi
    rw [hdrawn] at hi
    obtain ⟨⟨hge, hle, hlt⟩, hclear⟩ := h.sampled.drawn i hi
    exact ⟨⟨hge, hpoint.symm ▸ hle, hlt⟩, hclear.imp_right (hmono i)⟩
  · intro i hi hlt hval
    show i ∈ next.drawn
    rw [hdrawn]
    exact h.sampled.covered hdec i hi (hlt.trans_eq hpoint) hval
  · rcases h.phase hat with ⟨hfresh, hlt⟩ | ⟨hgt, hne⟩
    · refine .inl ⟨?_, ?_⟩
      · show next.point = _ ∨ ∃ g ∈ _, _ = next.point
        rwa [hpoint]
      · show next.point < next.ptInc + w.inc
        rwa [hpoint, hptInc]
    · refine .inr (.inl ⟨?_, ?_⟩)
      · show next.ptInc < next.point
        rwa [hpoint, hptInc]
      · show next.point ≠ _ ∧ ∀ g ∈ _, _ ≠ next.point
        rwa [hpoint]
  · exact haround.valid hwf.shown_disjoint le_rfl fun g hg => hpoint.trans_lt (hmiss g (hnum ▸ hg))
  · show next.point < _
    omega
  · rw [goesOn_iff]
    exact ⟨rfl, by show next.ptInc < _; rwa [hptInc]⟩
  · intro k g hg hk hfirst' hleaves
    exact absurd ((h.kept k g hg (hnum ▸ hk) hfirst').symm.trans hleaves) Bool.false_ne_true

/-- Between stops the loop goes on with the next block. -/
theorem Reached.nextBlock (hwf : w.WellFormed) (h : w.Reached info)
    (hne : info.point ≠ info.stop) (hforce : ¬ (w.inc = 1 ∧ info.ptInc + 1 = info.stop)) :
    w.Walked (w.plotNext info) false := by
  have hinc := hwf.inc
  have hpt := h.placed.ptInc_le
  have hfirst := h.placed.first_le
  have hblock := h.placed.le_block
  have hroom := h.room
  have hlast := hwf.lastPoint
  have hnonneg := hwf.first.1
  have hlt : info.point < info.stop := h.le_stop.lt_of_ne hne
  have hpoint : (w.plotNext info).point = info.ptInc + w.inc := add_zero _
  have hbefore : info.ptInc + w.inc < info.stop := by
    rcases hinc.lt_or_eq with hdec | hone
    · have hend := (h.ends hdec).resolve_right hne
      omega
    · have hother : info.ptInc + 1 ≠ info.stop := fun heq => hforce ⟨hone.symm, heq⟩
      omega
  have haround : Around w.shown (w.plotNext info) := by
    refine h.placed.around.move w.lastPoint hwf.shown_disjoint rfl rfl rfl ?_ ?_
    · rw [hpoint]
      exact hblock
    · rw [hpoint, ← h.placed.stop]
      exact hbefore.le
  have hplaced : w.Placed (w.plotNext info) := by
    refine ⟨haround, h.placed.stop, ?_, ?_, hpoint.ge, ?_, ?_⟩
    · show w.inc ∣ info.ptInc + w.inc - w.first
      rw [add_sub_right_comm]
      exact dvd_add h.placed.aligned dvd_rfl
    · show w.first ≤ info.ptInc + w.inc
      omega
    · rw [hpoint]
      exact le_add_of_nonneg_right (by omega)
    · intro q hq hge hend hq'
      change q < info.ptInc + w.inc at hq'
      by_cases hold : q < info.ptInc
      · exact h.placed.past q hq hge hend hold
      · have hapart := add_inc_le hwf h.placed.aligned hq (by omega)
        omega
  refine ⟨hplaced, ⟨?_, fun hdec => ?_⟩, ⟨?_, ?_, fun hdec => ?_⟩,
    fun _ => .inr (.inr ⟨hpoint, ?_⟩), fun _ => .inl ?_, .inl ?_, .inr (.inl hpoint), ?_,
    fun hfalse => absurd hfalse Bool.false_ne_true⟩
  · intro k g hg hk hfin
    obtain ⟨hcross, hread⟩ := h.crossed k g hg hk hfin
    exact ⟨hcross, List.mem_cons_of_mem _ hread⟩
  · intro k g hg hk hfin
    exact .inl (h.behind hdec _ ⟨k, g, hg, hk, hfin, rfl⟩)
  · intro i hi
    rcases List.mem_cons.1 hi with rfl | hi
    · exact ⟨by omega, .inl (by omega)⟩
    · exact h.sampled.reads i hi
  · intro i hi
    obtain ⟨⟨hge, hle, hlt⟩, hclear⟩ := h.sampled.drawn i hi
    exact ⟨⟨hge, hle.trans (hblock.trans hpoint.ge), hlt⟩, hclear⟩
  · intro i hi hlt' hval
    rw [hpoint, ← (h.ends hdec).resolve_right hne] at hlt'
    exact h.sampled.covered hdec i hi hlt' hval
  · rw [hpoint]
    exact hbefore
  · apply hplaced.valid hwf le_rfl
    rw [hpoint]
    exact hbefore
  · rw [hpoint]
    omega
  · intro k g hg hk hfirst' hleaves
    exact absurd ((h.kept k g hg hk hfirst').symm.trans hleaves) Bool.false_ne_true

/-- Undecimated, a stop behind the next sample is gone to. -/
theorem Reached.force (hwf : w.WellFormed) (h : w.Reached info) (hne : info.point ≠ info.stop)
    (hone : w.inc = 1) (hnext : info.ptInc + 1 = info.stop) :
    w.Walked { info with decInc := info.decInc + 1 } false ∧ info.decInc = 0 := by
  have hpt := h.placed.ptInc_le
  have hfirst := h.placed.first_le
  have hroom := h.room
  have hlast := hwf.lastPoint
  have hlt : info.point < info.stop := h.le_stop.lt_of_ne hne
  have hsame : info.point = info.ptInc := by omega
  have hdecInc : info.decInc = 0 := by
    have hsum : info.ptInc + info.decInc = info.ptInc := hsame
    omega
  have hpoint : ({ info with decInc := info.decInc + 1 } : PlotInfo).point = info.ptInc + 1 := by
    rw [PlotInfo.point, hdecInc, zero_add]
  have hsingle : ∀ {P : Prop}, 1 < w.inc → P := fun hdec => absurd hone hdec.ne'
  have haround : Around w.shown { info with decInc := info.decInc + 1 } := by
    refine h.placed.around.move w.lastPoint hwf.shown_disjoint rfl rfl rfl ?_ ?_
    · rw [hpoint]
      omega
    · rw [hpoint, ← h.placed.stop]
      exact hnext.le
  refine ⟨⟨⟨haround, h.placed.stop, h.placed.aligned, hfirst, ?_, ?_, h.placed.past⟩,
    ⟨h.crossed, hsingle⟩, ⟨h.sampled.reads, ?_, hsingle⟩, fun _ => .inr (.inl ⟨?_, ?_, ?_⟩),
    hsingle, .inl ?_, .inl ?_, ?_, fun hfalse => absurd hfalse Bool.false_ne_true⟩, hdecInc⟩
  · rw [hpoint]
    exact le_add_of_nonneg_right zero_le_one
  · rw [hpoint, hone]
  · intro i hi
    obtain ⟨⟨hge, hle, hlt⟩, hclear⟩ := h.sampled.drawn i hi
    refine ⟨⟨hge, ?_, hlt⟩, hclear⟩
    rw [hpoint]
    omega
  · rw [hpoint]
    exact lt_add_one _
  · rw [hpoint]
    omega
  · have hvalid := h.placed.valid hwf hsame.le (hsame ▸ hlt)
    rw [hpoint]
    exact fin_ne_of_valid hwf hvalid
  · rw [hpoint]
    omega
  · rw [goesOn_iff]
    exact ⟨rfl, hroom⟩
  · intro k g hg hk hfirst' hleaves
    exact absurd ((h.kept k g hg hk hfirst').symm.trans hleaves) Bool.false_ne_true

/-! ### Stops -/

/-- Without gaps and overlaps no stop lies in front of the last block. -/
theorem Reached.not_overlay (h : w.Reached info) (hat : info.point = info.stop) :
    w.overlay = false := by
  by_contra hoverlay
  have hshown := shown_of_overlay (Bool.eq_true_of_not_eq_false hoverlay)
  have hblock := h.placed.le_block
  have hroom := h.room
  have hstop := h.placed.stop
  have hnone : nextStop ⟨[], []⟩ w.lastPoint info = w.lastPoint := by
    unfold nextStop
    cases info.olapON <;> rfl
  rw [hshown, hnone] at hstop
  omega

theorem checkGO_eq (h : w.overlay = false) (info : PlotInfo) :
    w.checkGO info = (PQL.checkGO w.shown w.lastPoint w.inc gapEnd info, w.leavesArea info) := by
  have hfalse : ¬ w.overlay = true := by rw [h]; exact Bool.false_ne_true
  rw [MagPlot.checkGO, if_neg hfalse, shown_of_not_overlay h]

theorem leavesArea_of_hit (hwf : w.WellFormed) (hov : w.overlay = false) {g : Span}
    (hg : w.shown.gaps[info.gapNum]? = some g) (hbeg : g.beg = info.point)
    (haligned : w.inc ∣ info.ptInc - w.first) (hle : info.ptInc ≤ info.point)
    (hmeets : w.meets g = info.ptInc) : w.leavesArea info = w.leaves g := by
  have hinc := hwf.inc
  have hlt := hwf.shown_disjoint.gap_lt g (List.mem_of_getElem? hg)
  have hgapInc : (g.fin - g.beg - (info.ptInc - g.beg)).tdiv w.inc =
      (g.fin - info.ptInc) / w.inc := by
    rw [sub_sub_sub_cancel_right]
    exact Int.tdiv_eq_ediv_of_nonneg (by omega)
  have hblock := block_eq_add hwf haligned g.fin
  have hzero : (g.fin - info.ptInc) / w.inc ≠ 0 ↔ w.block g.fin ≠ info.ptInc := by
    rw [hblock, ne_eq, ne_eq, add_eq_left, mul_eq_zero]
    exact not_congr (or_iff_right (by omega)).symm
  rw [shown_of_not_overlay hov] at hg
  unfold leavesArea leaves
  rw [hg, hmeets]
  dsimp only
  rw [hgapInc, ← hblock, decide_eq_true hbeg.le, Bool.true_and, decide_eq_decide.2 hzero]

theorem leavesArea_of_miss (hov : w.overlay = false)
    (hmiss : ∀ g, w.shown.gaps[info.gapNum]? = some g → info.point < g.beg) :
    w.leavesArea info = false := by
  rw [shown_of_not_overlay hov] at hmiss
  unfold leavesArea
  cases hg : w.lists.gaps[info.gapNum]? with
  | none => rfl
  | some g =>
    dsimp only
    rw [decide_eq_false (not_le.2 (hmiss g hg)), Bool.false_and, Bool.false_and]

/-- A later stop ends the stop at once. -/
theorem plotStop_of_le {next : PlotInfo × Bool} (hcheck : w.checkGO info = next)
    (hle : info.stop ≤ next.1.stop) {fuel : ℕ} (hfuel : 0 < fuel) :
    w.plotStop fuel info =
      if next.2 ∧ next.1.stop > info.stop then some (next.1, true)
      else some (next.1.read next.1.point, false) := by
  have hrun : w.stopAgain fuel next.1 info.stop = some (next.1, info.stop, false) := by
    apply whileLoop_of_not hfuel
    show (true && decide (next.1.stop < info.stop)) = false
    rw [decide_eq_false (not_lt.2 hle), Bool.true_and]
  unfold MagPlot.plotStop
  dsimp only
  rw [hcheck, hrun]
  rfl

/-- At a stop the loop goes on behind the gap or at the same sample, or it ends behind the gap. -/
theorem Reached.plotStop (hwf : w.WellFormed) (h : w.Reached info) (hat : info.point = info.stop)
    {fuel : ℕ} (hfuel : 0 < fuel) :
    ∃ next ended, w.plotStop fuel info = some (next, ended) ∧ w.Walked next ended ∧
      info.ptInc ≤ next.ptInc ∧ events w.shown next < events w.shown info := by
  have hov := h.not_overlay hat
  have hlists := hwf.shown_disjoint
  have hpt := h.placed.ptInc_le
  have hblock := h.placed.le_block
  have hroom := h.room
  have hlimit : info.point < w.lastPoint := by omega
  have hnext := hat.trans h.placed.stop
  have haround := h.placed.around.checkGO w.lastPoint w.inc gapEnd hlists hpt
  have hevents := events_checkGO_lt w.inc gapEnd hlists h.placed.around hpt hnext hlimit
  have hstop : (PQL.checkGO w.shown w.lastPoint w.inc gapEnd info).stop =
      nextStop w.shown w.lastPoint (PQL.checkGO w.shown w.lastPoint w.inc gapEnd info) := rfl
  have hmin := haround.min_le_nextStop w.lastPoint
  rw [← hstop] at hmin
  obtain ⟨olapON, olapNum, stop, heq⟩ :=
    checkGO_keeps w.shown w.lastPoint w.inc gapEnd info
  rcases checkGO_cases w.inc gapEnd hlists h.placed.around hpt with
    ⟨g, hg, hbeg, hgap⟩ | ⟨hmiss, hgap⟩
  · -- a gap
    have hlt := hlists.gap_lt g (List.mem_of_getElem? hg)
    have hmeets := h.meets_eq hwf (shown_of_not_overlay hov) hat hbeg
    have hleaves := leavesArea_of_hit hwf hov hg hbeg h.placed.aligned hpt hmeets
    have hptInc := block_eq_add hwf h.placed.aligned g.fin
    have hcheck := checkGO_eq hov info
    rw [hleaves] at hcheck
    rw [hgap] at heq
    have hpoint : (PQL.checkGO w.shown w.lastPoint w.inc gapEnd info).point = g.fin := by
      rw [heq, PlotInfo.point]
      ring
    rw [hpoint] at hmin
    have hle : info.ptInc ≤ (PQL.checkGO w.shown w.lastPoint w.inc gapEnd info).ptInc := by
      rw [heq]
      exact (gapBlock_bounds w.inc _ _ (by have := hwf.inc; omega) (by omega)).1
    rw [plotStop_of_le hcheck (by dsimp only; omega) hfuel]
    cases hend : w.leaves g with
    | true =>
      have hlater : (true = true ∧
          (PQL.checkGO w.shown w.lastPoint w.inc gapEnd info).stop > info.stop) := ⟨rfl, by omega⟩
      refine ⟨_, true, if_pos hlater, ?_, hle, hevents⟩
      rw [← hend]
      refine h.behindGap hwf hg hbeg hmeets haround hstop (by rw [heq, hptInc]) hpoint
        (by rw [heq]) (fun i => ?_) (by rw [heq])
      have hne : (g.fin - info.ptInc) / w.inc ≠ 0 := by
        intro hzero
        rw [leaves, hmeets, hptInc, hzero, mul_zero, add_zero, decide_eq_false (not_not.2 rfl),
          Bool.false_and] at hend
        exact Bool.false_ne_true hend
      rw [heq]
      dsimp only
      rw [if_pos hne, gapEnd, List.singleton_append, List.mem_cons]
    | false =>
      have hnot : ¬ (false = true ∧
          (PQL.checkGO w.shown w.lastPoint w.inc gapEnd info).stop > info.stop) :=
        fun hand => Bool.false_ne_true hand.1
      refine ⟨_, false, if_neg hnot, ?_, hle, hevents⟩
      rw [← hend]
      refine h.behindGap hwf hg hbeg hmeets { haround with } hstop (by rw [heq, hptInc]; rfl) hpoint
        (by rw [heq]; rfl) (fun i => ?_) (by rw [heq]; rfl)
      dsimp only [PlotInfo.read]
      rw [List.mem_cons, hpoint, heq]
      dsimp only
      split_ifs with hne
      · rw [gapEnd, List.singleton_append, List.mem_cons, ← or_assoc, or_self]
      · exact Iff.rfl
  · -- an overlap
    have hcheck := checkGO_eq hov info
    rw [leavesArea_of_miss hov hmiss] at hcheck
    rw [hgap] at heq
    have hpoint : (PQL.checkGO w.shown w.lastPoint w.inc gapEnd info).point = info.point := by
      rw [heq]
      rfl
    rw [hpoint] at hmin
    rw [plotStop_of_le hcheck (by dsimp only; omega) hfuel]
    have hnot : ¬ (false = true ∧
        (PQL.checkGO w.shown w.lastPoint w.inc gapEnd info).stop > info.stop) :=
      fun hand => Bool.false_ne_true hand.1
    refine ⟨_, false, if_neg hnot, ?_, ?_, hevents⟩
    · exact h.atOlap hwf hat hmiss haround hstop (by rw [heq]) (by rw [heq]) (by rw [heq])
        (by rw [heq]) (by rw [heq])
    · show info.ptInc ≤ (PQL.checkGO w.shown w.lastPoint w.inc gapEnd info).ptInc
      rw [heq]

/-! ### The main loop -/

/-- The samples and the stops in front of the loop, and the sample in front of a stop. -/
def remaining (w : MagPlot) (s : PlotInfo × Bool) : ℕ :=
  2 * ((w.lastPoint - s.1.ptInc).toNat + events w.shown s.1) + (1 - s.1.decInc).toNat

/-- One pass of the main loop. -/
theorem Walked.step (hwf : w.WellFormed) (h : w.Walked info false)
    (hroom : info.ptInc < w.lastPoint - w.inc) {fuel : ℕ} (hfuel : 0 < fuel) :
    ∃ s, w.plotStep fuel info = some s ∧ w.Walked s.1 s.2 ∧
      w.remaining s < w.remaining (info, false) := by
  have hinc := hwf.inc
  obtain ⟨info', heq, hreached, hptInc, hevents, hsame⟩ :
      ∃ info', (if 1 < w.inc then PQL.drawBlock (min w.inc (info.stop - info.ptInc)) info
          else info) = info' ∧ w.Reached info' ∧ info'.ptInc = info.ptInc ∧
        events w.shown info' = events w.shown info ∧ (w.inc = 1 → info' = info) := by
    rcases hinc.lt_or_eq with hdec | hone
    · rw [if_pos hdec]
      exact ⟨_, rfl, h.drawBlock hwf hroom hdec, rfl, rfl, fun hone => absurd hone hdec.ne'⟩
    · rw [if_neg hone.not_lt]
      exact ⟨_, rfl, h.stay hroom hone.symm, rfl, rfl, fun _ => rfl⟩
  have hdecInc : 0 ≤ info.decInc := by
    have hpt : info.ptInc ≤ info.ptInc + info.decInc := h.placed.ptInc_le
    omega
  unfold MagPlot.plotStep
  simp only [heq]
  by_cases hat : info'.point = info'.stop
  · rw [if_pos hat]
    obtain ⟨next, ended, hplot, hwalked, hle, hlt⟩ := hreached.plotStop hwf hat hfuel
    refine ⟨_, hplot, hwalked, ?_⟩
    have hnext : next.ptInc ≤ next.ptInc + next.decInc := hwalked.placed.ptInc_le
    unfold remaining
    dsimp only
    omega
  rw [if_neg hat]
  by_cases hforce : w.inc = 1 ∧ info'.ptInc + 1 = info'.stop
  · rw [if_pos hforce]
    obtain ⟨hwalked, hzero⟩ := hreached.force hwf hat hforce.1 hforce.2
    refine ⟨_, rfl, hwalked, ?_⟩
    obtain rfl := hsame hforce.1
    show 2 * ((w.lastPoint - info'.ptInc).toNat + events w.shown info') +
      (1 - (info'.decInc + 1)).toNat < _
    unfold remaining
    dsimp only
    omega
  · rw [if_neg hforce]
    refine ⟨_, rfl, hreached.nextBlock hwf hat hforce, ?_⟩
    show 2 * ((w.lastPoint - (info'.ptInc + w.inc)).toNat + events w.shown info') +
      (1 - 0 : ℤ).toNat < _
    unfold remaining
    dsimp only
    omega

theorem goesOn_step (hwf : w.WellFormed) {fuel : ℕ} (hfuel : 0 < fuel) (s : PlotInfo × Bool)
    (h : w.Walked s.1 s.2) (hcond : w.goesOn s = true) :
    ∃ next, w.plotStep fuel s.1 = some next ∧ w.Walked next.1 next.2 ∧
      w.remaining next < w.remaining s := by
  obtain ⟨hgo, hroom⟩ := goesOn_iff.1 hcond
  obtain ⟨info, ended⟩ := s
  obtain rfl : ended = false := hgo
  exact h.step hwf hroom hfuel

/-- The main loop ends. -/
theorem mainLoop_spec (hwf : w.WellFormed) (h : w.Walked info false) {fuel : ℕ}
    (hfuel : w.remaining (info, false) < fuel) :
    ∃ s, whileLoop w.goesOn (fun s => w.plotStep fuel s.1) fuel (info, false) = some s := by
  obtain ⟨s, hrun, -⟩ := whileLoop_spec (s := (info, false)) (P := fun s => w.Walked s.1 s.2)
    w.remaining (goesOn_step hwf (Nat.zero_lt_of_lt hfuel)) h hfuel
  exact ⟨s, hrun⟩

theorem mainLoop_sound (hwf : w.WellFormed) (h : w.Walked info false) {fuel : ℕ}
    {s : PlotInfo × Bool}
    (hrun : whileLoop w.goesOn (fun s => w.plotStep fuel s.1) fuel (info, false) = some s) :
    w.Walked s.1 s.2 ∧ w.goesOn s = false := by
  have hfuel : 0 < fuel := by
    apply Nat.pos_of_ne_zero
    rintro rfl
    exact nomatch hrun
  refine whileLoop_sound (P := fun s => w.Walked s.1 s.2) (fun s next h hcond hstep => ?_) h hrun
  obtain ⟨next', hstep', hnext, -⟩ := goesOn_step hwf hfuel s h hcond
  obtain rfl := Option.some.inj (hstep.symm.trans hstep')
  exact hnext

end MagPlot

end PQL
