import PQL.Plot.Stops

/-!
# The decimated trace plot

`plot` draws a trace in blocks of `inc` samples.  For every trace it ends and reads samples of the
trace only.  The last block is drawn without a look at the gaps: the extents are taken over the
samples outside of the gaps exactly if no gap begins behind the first sample of the last block
(`plot_covers_iff`).
-/

namespace PQL

/-! ## The plot -/

structure PlotTrace where
  numSamples : ℤ
  inc : ℤ
  lists : GapLists

section Plot

variable (trc : PlotTrace)

/-- `initData`, and the first read of `plot`; there are gaps exactly if there is an array of
gaps. -/
def initData : PlotInfo :=
  let info : PlotInfo :=
    { stop := 0, ptInc := 0, decInc := 0, gapNum := 0, olapNum := 0, olapON := false,
      reads := [0], extents := [] }
  { info with stop := nextStop trc.lists trc.numSamples info }

/-- The samples that are read to draw a line over a gap. -/
def gapEnds (gap : Span) : List ℤ := [gap.beg - 1, gap.fin]

/-- A stop: `checkGO` is called until the next stop lies behind the last one. -/
def plotStop (fuel : ℕ) (info : PlotInfo) : Option PlotInfo :=
  (whileLoop (fun next => decide (next.stop ≤ info.stop))
    (fun next => some (checkGO trc.lists trc.numSamples trc.inc gapEnds next)) fuel
    (checkGO trc.lists trc.numSamples trc.inc gapEnds info)).map fun next => next.read next.point

/-- The next decimation boundary. -/
def plotNext (info : PlotInfo) : PlotInfo :=
  { info with ptInc := info.ptInc + trc.inc, decInc := 0 }.read (info.ptInc + trc.inc)

/-- One pass of the main loop. -/
def plotStep (fuel : ℕ) (info : PlotInfo) : Option PlotInfo :=
  let info :=
    if 1 < trc.inc then drawBlock (min trc.inc (info.stop - info.ptInc)) info else info
  if info.point = info.stop then plotStop trc fuel info else some (plotNext trc info)

/-- `plot`, but for what it draws between the vertical lines. -/
def plot (fuel : ℕ) : Option PlotInfo :=
  (whileLoop (fun info => decide (info.ptInc < trc.numSamples - trc.inc)) (plotStep trc fuel) fuel
    (initData trc)).map fun info =>
      if 1 < trc.inc then drawBlock (trc.numSamples - info.ptInc) info else info

/-- The plot ends, reads samples of the trace, and decimated takes its extents over the samples
outside of the gaps. -/
def CoversTrace : Prop :=
  ∃ fuel info, plot trc fuel = some info ∧ (∀ i ∈ info.reads, 0 ≤ i ∧ i < trc.numSamples) ∧
    (1 < trc.inc → ∀ i, i ∈ info.drawn ↔ (0 ≤ i ∧ i < trc.numSamples) ∧ trc.lists.Valid i)

/-- A trace with samples, and gaps between samples; neither gaps nor overlaps meet. -/
structure PlotTrace.WellFormed : Prop where
  samples : 1 ≤ trc.numSamples
  inc : 1 ≤ trc.inc
  lists : trc.lists.Disjoint
  gaps_inside : ∀ g ∈ trc.lists.gaps, 1 ≤ g.beg ∧ g.fin < trc.numSamples
  olaps_inside : ∀ o ∈ trc.lists.olaps, 0 ≤ o.beg ∧ o.fin ≤ trc.numSamples
  gaps_apart : trc.lists.gaps.Pairwise fun g h => g.fin < h.beg
  olaps_apart : trc.lists.olaps.Pairwise fun o o' => o.fin < o'.beg

/-- The first sample of the last block. -/
def PlotTrace.lastBlock : ℤ := trc.inc * ((trc.numSamples - 1) / trc.inc)

end Plot

/-! ## The invariant -/

/-- The main loop has drawn what is in front of the next point. -/
structure Plotted (trc : PlotTrace) (info : PlotInfo) : Prop where
  around : Around trc.lists info
  stop : info.stop = nextStop trc.lists trc.numSamples info
  aligned : trc.inc ∣ info.ptInc
  nonneg : 0 ≤ info.ptInc
  ptInc_le : info.ptInc ≤ info.point
  le_block : info.point ≤ info.ptInc + trc.inc
  point_lt : info.point < trc.numSamples
  done : ∀ i g, trc.lists.gaps[i]? = some g → i < info.gapNum → g.beg ≤ trc.lastBlock
  reads : ∀ i ∈ info.reads, 0 ≤ i ∧ i < trc.numSamples
  single : trc.inc = 1 → info.decInc = 0
  drawn : ∀ i ∈ info.drawn, (0 ≤ i ∧ i < trc.numSamples) ∧ trc.lists.Valid i
  covered : 1 < trc.inc → ∀ i, 0 ≤ i → i < info.point → trc.lists.Valid i → i ∈ info.drawn
  clear : 1 < trc.inc → trc.lists.Valid info.point

variable {trc : PlotTrace} {info info' : PlotInfo}

/-- A block in front of the last one ends where the last one begins, or earlier. -/
theorem PlotTrace.WellFormed.block_le (hwf : trc.WellFormed) (hdvd : trc.inc ∣ info.ptInc)
    (hlt : info.ptInc < trc.numSamples - trc.inc) : info.ptInc + trc.inc ≤ trc.lastBlock := by
  have hinc := hwf.inc
  obtain ⟨m, hm⟩ := hdvd
  have hle : m + 1 ≤ (trc.numSamples - 1) / trc.inc := by
    apply (Int.le_ediv_iff_mul_le (by omega)).2
    rw [add_mul, mul_comm, one_mul]
    omega
  calc info.ptInc + trc.inc = trc.inc * (m + 1) := by rw [hm]; ring
    _ ≤ trc.lastBlock := mul_le_mul_of_nonneg_left hle (by omega)

/-- The last block is where the main loop ends. -/
theorem PlotTrace.WellFormed.block_eq (hwf : trc.WellFormed) (hdvd : trc.inc ∣ info.ptInc)
    (hle : trc.numSamples - trc.inc ≤ info.ptInc) (hlt : info.ptInc < trc.numSamples) :
    info.ptInc = trc.lastBlock := by
  have hinc := hwf.inc
  obtain ⟨m, hm⟩ := hdvd
  have heq : m = (trc.numSamples - 1) / trc.inc := by
    symm
    rw [Int.ediv_eq_iff_of_pos (by omega), mul_comm m, ← hm]
    omega
  rw [PlotTrace.lastBlock, ← heq, hm]

/-- A block is drawn up to its end or to the stop. -/
structure Reached (trc : PlotTrace) (info : PlotInfo) : Prop where
  around : Around trc.lists info
  stop : info.stop = nextStop trc.lists trc.numSamples info
  aligned : trc.inc ∣ info.ptInc
  nonneg : 0 ≤ info.ptInc
  room : info.ptInc < trc.numSamples - trc.inc
  ptInc_le : info.ptInc ≤ info.point
  le_block : info.point ≤ info.ptInc + trc.inc
  le_stop : info.point ≤ info.stop
  ends : 1 < trc.inc → info.point = info.ptInc + trc.inc ∨ info.point = info.stop
  done : ∀ i g, trc.lists.gaps[i]? = some g → i < info.gapNum → g.beg ≤ trc.lastBlock
  reads : ∀ i ∈ info.reads, 0 ≤ i ∧ i < trc.numSamples
  single : trc.inc = 1 → info.decInc = 0
  drawn : ∀ i ∈ info.drawn, (0 ≤ i ∧ i < trc.numSamples) ∧ trc.lists.Valid i
  covered : 1 < trc.inc → ∀ i, 0 ≤ i → i < info.point → trc.lists.Valid i → i ∈ info.drawn

theorem Plotted.drawBlock (hwf : trc.WellFormed) (h : Plotted trc info)
    (hlt : info.ptInc < trc.numSamples - trc.inc) :
    ∃ info', (if 1 < trc.inc then drawBlock (min trc.inc (info.stop - info.ptInc)) info
        else info) = info' ∧
      Reached trc info' ∧ info'.ptInc = info.ptInc ∧
        events trc.lists info' = events trc.lists info := by
  have hstop : info.point ≤ info.stop := by
    rw [h.stop]
    exact h.around.le_nextStop h.point_lt.le
  have hblock := h.le_block
  have hpt := h.ptInc_le
  have hnonneg := h.nonneg
  by_cases hinc : 1 < trc.inc
  · rw [if_pos hinc]
    have hlimit : info.ptInc + min trc.inc (info.stop - info.ptInc) =
        min (info.ptInc + trc.inc) info.stop := by omega
    have hpoint : (PQL.drawBlock (min trc.inc (info.stop - info.ptInc)) info).point =
        min (info.ptInc + trc.inc) info.stop := by
      rw [point_drawBlock, hlimit]
      omega
    have hbounds : info.point ≤ min (info.ptInc + trc.inc) info.stop := by omega
    rw [← hpoint] at hbounds
    -- the samples of the block lie in front of the stop
    have hvalid : ∀ i, info.point ≤ i → i < min (info.ptInc + trc.inc) info.stop →
        (0 ≤ i ∧ i < trc.numSamples) ∧ trc.lists.Valid i := by
      intro i hle hi
      refine ⟨by omega, h.around.valid hwf.lists hle fun g hg => ?_⟩
      have hgap := h.around.nextStop_le_gap trc.numSamples hwf.lists hg le_rfl
      rw [← h.stop] at hgap
      omega
    have hstart : (0 ≤ info.point ∧ info.point < trc.numSamples) ∧ trc.lists.Valid info.point :=
      ⟨⟨by omega, h.point_lt⟩, h.clear hinc⟩
    refine ⟨_, rfl, ⟨?_, h.stop, h.aligned, h.nonneg, hlt, ?_, ?_, ?_, fun _ => ?_, h.done, ?_,
      fun hone => absurd hone hinc.ne', ?_, ?_⟩, rfl, rfl⟩
    · exact h.around.move trc.numSamples hwf.lists rfl rfl rfl hbounds
        ((hpoint.trans_le (min_le_right _ _)).trans_eq h.stop)
    · exact hpt.trans hbounds
    · exact hpoint.trans_le (min_le_left _ _)
    · exact hpoint.trans_le (min_le_right _ _)
    · rcases min_choice (info.ptInc + trc.inc) info.stop with hmin | hmin
      · exact .inl (hpoint.trans hmin)
      · exact .inr (hpoint.trans hmin)
    · intro i hi
      rcases mem_reads_drawBlock.1 hi with rfl | ⟨hle, hi⟩ | hi
      · exact hstart.1
      · exact (hvalid i hle (hlimit ▸ hi)).1
      · exact h.reads i hi
    · intro i hi
      rcases mem_drawn_drawBlock.1 hi with rfl | ⟨hle, hi⟩ | hi
      · exact hstart
      · exact hvalid i hle (hlimit ▸ hi)
      · exact h.drawn i hi
    · intro _ i hi hlt hval
      apply mem_drawn_drawBlock.2
      by_cases hle : info.point ≤ i
      · exact .inr (.inl ⟨hle, hlimit.symm ▸ hlt.trans_eq hpoint⟩)
      · exact .inr (.inr (h.covered hinc i hi (not_le.1 hle) hval))
  · rw [if_neg hinc]
    exact ⟨_, rfl, ⟨h.around, h.stop, h.aligned, h.nonneg, hlt, hpt, hblock, hstop,
      fun h => absurd h hinc, h.done, h.reads, h.single, h.drawn, fun h => absurd h hinc⟩, rfl, rfl⟩

/-- The block behind a gap: the last one of the grid that does not begin behind the gap. -/
theorem gapBlock_bounds (inc ptInc fin : ℤ) (hinc : 0 < inc) (hle : ptInc ≤ fin) :
    ptInc ≤ ptInc + inc * ((fin - ptInc) / inc) ∧ ptInc + inc * ((fin - ptInc) / inc) ≤ fin ∧
      fin < ptInc + inc * ((fin - ptInc) / inc) + inc := by
  have hdiv := Int.mul_ediv_add_emod (fin - ptInc) inc
  have hmod := Int.emod_nonneg (fin - ptInc) hinc.ne'
  have hlt := Int.emod_lt_of_pos (fin - ptInc) hinc
  have hnonneg : 0 ≤ inc * ((fin - ptInc) / inc) :=
    mul_nonneg hinc.le (Int.ediv_nonneg (sub_nonneg.2 hle) hinc.le)
  omega

/-- Behind a gap that has been hit. -/
theorem Reached.behindGap (hwf : trc.WellFormed) (h : Reached trc info) {next : PlotInfo}
    {g : Span} (hg : trc.lists.gaps[info.gapNum]? = some g) (hbeg : g.beg = info.point)
    (haround : Around trc.lists next)
    (hstop : next.stop = nextStop trc.lists trc.numSamples next)
    (hptInc : next.ptInc = info.ptInc + trc.inc * ((g.fin - info.ptInc) / trc.inc))
    (hpoint : next.point = g.fin) (hnum : next.gapNum = info.gapNum + 1)
    (hreads : ∀ i ∈ next.reads, i ∈ gapEnds g ∨ i ∈ info.reads)
    (hextents : next.extents = info.extents) : Plotted trc (next.read next.point) := by
  have hinc := hwf.inc
  have hnonneg := h.nonneg
  have hpt := h.ptInc_le
  have hmem := List.mem_of_getElem? hg
  obtain ⟨hfirst, hlast⟩ := hwf.gaps_inside g hmem
  have hlt := hwf.lists.gap_lt g hmem
  obtain ⟨hgrid, hgrid', hgrid''⟩ := gapBlock_bounds trc.inc info.ptInc g.fin
    (by omega) (by omega)
  rw [← hptInc] at hgrid hgrid' hgrid''
  have hdrawn : next.drawn = info.drawn := congrArg List.flatten hextents
  refine ⟨{ haround with }, hstop, ?_, ?_, ?_, ?_, ?_, ?_, ?_, fun hone => ?_, ?_, ?_,
    fun _ => ?_⟩
  · show trc.inc ∣ next.ptInc
    rw [hptInc]
    exact dvd_add h.aligned (dvd_mul_right _ _)
  · exact hnonneg.trans hgrid
  · show next.ptInc ≤ next.point
    rwa [hpoint]
  · show next.point ≤ next.ptInc + trc.inc
    rw [hpoint]
    exact hgrid''.le
  · show next.point < _
    rwa [hpoint]
  · intro i g' hg' hi
    have hi' : i < info.gapNum + 1 := hnum ▸ hi
    rcases Nat.lt_succ_iff_lt_or_eq.1 hi' with hi' | rfl
    · exact h.done i g' hg' hi'
    · obtain rfl := Option.some.inj (hg.symm.trans hg')
      rw [hbeg]
      exact h.le_block.trans (hwf.block_le h.aligned h.room)
  · intro i hi
    rcases List.mem_cons.1 hi with rfl | hi
    · rw [hpoint]
      omega
    rcases hreads i hi with hi | hi
    · rcases List.mem_pair.1 hi with rfl | rfl <;> omega
    · exact h.reads i hi
  · have hq : next.ptInc = g.fin := by rw [hptInc, hone, Int.ediv_one]; ring
    have hdec : next.ptInc + next.decInc = g.fin := hpoint
    show next.decInc = 0
    omega
  · show ∀ i ∈ next.drawn, _
    rw [hdrawn]
    exact h.drawn
  · intro hdec i hi hlt hval
    show i ∈ next.drawn
    rw [hdrawn]
    apply h.covered hdec i hi _ hval
    by_contra hge
    exact hval g hmem ⟨by omega, hlt.trans_eq hpoint⟩
  · refine haround.valid hwf.lists le_rfl fun g' hg' => ?_
    show next.point < g'.beg
    rw [hpoint]
    rw [hnum] at hg'
    obtain ⟨hi, rfl⟩ := List.getElem?_eq_some_iff.1 hg
    obtain ⟨hj, rfl⟩ := List.getElem?_eq_some_iff.1 hg'
    exact List.pairwise_iff_getElem.1 hwf.gaps_apart _ _ hi hj (Nat.lt_succ_self _)

/-- At the begin or the end of an overlap. -/
theorem Reached.atOlap (hwf : trc.WellFormed) (h : Reached trc info) {next : PlotInfo}
    (hmiss : ∀ g, trc.lists.gaps[info.gapNum]? = some g → info.point < g.beg)
    (haround : Around trc.lists next)
    (hstop : next.stop = nextStop trc.lists trc.numSamples next)
    (hptInc : next.ptInc = info.ptInc) (hdecInc : next.decInc = info.decInc)
    (hnum : next.gapNum = info.gapNum) (hreads : next.reads = info.reads)
    (hextents : next.extents = info.extents) : Plotted trc (next.read next.point) := by
  have hnonneg := h.nonneg
  have hroom := h.room
  have hblock := h.le_block
  have hpt := h.ptInc_le
  have hpoint : next.point = info.point := by rw [PlotInfo.point, hptInc, hdecInc]; rfl
  have hdrawn : next.drawn = info.drawn := congrArg List.flatten hextents
  refine ⟨{ haround with }, hstop, ?_, ?_, ?_, ?_, ?_, ?_, ?_, fun hone => ?_, ?_, ?_,
    fun _ => ?_⟩
  · exact hptInc ▸ h.aligned
  · exact hptInc ▸ h.nonneg
  · show next.ptInc ≤ next.point
    rwa [hptInc, hpoint]
  · show next.point ≤ next.ptInc + trc.inc
    rwa [hptInc, hpoint]
  · show next.point < _
    omega
  · exact fun i g hg hi => h.done i g hg (hnum ▸ hi)
  · intro i hi
    rcases List.mem_cons.1 hi with rfl | hi
    · omega
    · exact h.reads i (hreads ▸ hi)
  · exact hdecInc.trans (h.single hone)
  · show ∀ i ∈ next.drawn, _
    rw [hdrawn]
    exact h.drawn
  · intro hdec i hi hlt hval
    show i ∈ next.drawn
    rw [hdrawn]
    exact h.covered hdec i hi (hlt.trans_eq hpoint) hval
  · exact haround.valid hwf.lists le_rfl fun g hg => hpoint.trans_lt (hmiss g (hnum ▸ hg))

/-- At a stop the loop goes on behind the gap or at the same sample. -/
theorem Reached.atStop (hwf : trc.WellFormed) (h : Reached trc info) :
    Plotted trc ((checkGO trc.lists trc.numSamples trc.inc gapEnds info).read
        (checkGO trc.lists trc.numSamples trc.inc gapEnds info).point) ∧
      info.ptInc ≤ (checkGO trc.lists trc.numSamples trc.inc gapEnds info).ptInc := by
  have hinc := hwf.inc
  have haround := h.around.checkGO trc.numSamples trc.inc gapEnds hwf.lists h.ptInc_le
  have hstop : (checkGO trc.lists trc.numSamples trc.inc gapEnds info).stop = nextStop trc.lists
    trc.numSamples (checkGO trc.lists trc.numSamples trc.inc gapEnds info) := rfl
  obtain ⟨olapON, olapNum, stop, heq⟩ :=
    checkGO_keeps trc.lists trc.numSamples trc.inc gapEnds info
  rcases checkGO_cases trc.inc gapEnds hwf.lists h.around h.ptInc_le with
    ⟨g, hg, hbeg, hgap⟩ | ⟨hmiss, hgap⟩
  · rw [hgap] at heq
    have hpoint : (checkGO trc.lists trc.numSamples trc.inc gapEnds info).point = g.fin := by
      rw [heq, PlotInfo.point]
      ring
    have hreads : ∀ i ∈ (checkGO trc.lists trc.numSamples trc.inc gapEnds info).reads,
        i ∈ gapEnds g ∨ i ∈ info.reads := by
      intro i hi
      rw [heq] at hi
      dsimp only at hi
      split_ifs at hi
      · exact List.mem_append.1 hi
      · exact .inr hi
    have hlt := hwf.lists.gap_lt g (List.mem_of_getElem? hg)
    have hpt := h.ptInc_le
    refine ⟨h.behindGap hwf hg hbeg haround hstop (by rw [heq]) hpoint (by rw [heq]) hreads
      (by rw [heq]), ?_⟩
    rw [heq]
    exact (gapBlock_bounds _ _ _ (by omega) (by omega)).1
  · rw [hgap] at heq
    refine ⟨h.atOlap hwf hmiss haround hstop (by rw [heq]) (by rw [heq]) (by rw [heq])
      (by rw [heq]) (by rw [heq]), ?_⟩
    rw [heq]

/-- Between stops the loop goes on with the next block. -/
theorem Reached.nextBlock (hwf : trc.WellFormed) (h : Reached trc info)
    (hne : info.point ≠ info.stop) :
    Plotted trc (plotNext trc info) := by
  have hinc := hwf.inc
  have hnonneg := h.nonneg
  have hroom := h.room
  have hblock := h.le_block
  have hlt : info.point < info.stop := h.le_stop.lt_of_ne hne
  have hpoint : (plotNext trc info).point = info.ptInc + trc.inc := add_zero _
  -- undecimated, the next sample may be the stop
  have hnext : info.ptInc + trc.inc ≤ info.stop ∧
      (1 < trc.inc → info.ptInc + trc.inc = info.point) := by
    rcases hinc.lt_or_eq with hdec | hone
    · have hend := (h.ends hdec).resolve_right hne
      exact ⟨hend ▸ hlt.le, fun _ => hend.symm⟩
    · have hzero := h.single hone.symm
      have hpt : info.ptInc + info.decInc < info.stop := hlt
      exact ⟨by omega, fun hdec => absurd hone hdec.ne⟩
  have haround : Around trc.lists (plotNext trc info) := by
    refine h.around.move trc.numSamples hwf.lists rfl rfl rfl ?_ ?_
    · rw [hpoint]
      exact hblock
    · rw [hpoint, ← h.stop]
      exact hnext.1
  refine ⟨haround, h.stop, dvd_add h.aligned dvd_rfl, ?_, ?_, ?_, ?_, h.done, ?_, fun _ => rfl,
    h.drawn, ?_, fun hdec => ?_⟩
  · show 0 ≤ info.ptInc + trc.inc
    omega
  · exact hpoint.ge
  · rw [hpoint]
    exact le_add_of_nonneg_right (by omega)
  · rw [hpoint]
    omega
  · intro i hi
    rcases List.mem_cons.1 hi with rfl | hi
    · omega
    · exact h.reads i hi
  · intro hdec i hi hlt' hval
    rw [hpoint, hnext.2 hdec] at hlt'
    exact h.covered hdec i hi hlt' hval
  · rw [hpoint, hnext.2 hdec]
    refine h.around.valid hwf.lists le_rfl fun g hg => ?_
    have hgap := h.around.nextStop_le_gap trc.numSamples hwf.lists hg le_rfl
    rw [← h.stop] at hgap
    omega

/-! ## The main loop -/

/-- The samples and the stops in front of the loop. -/
def remaining (trc : PlotTrace) (info : PlotInfo) : ℕ :=
  (trc.numSamples - info.ptInc).toNat + events trc.lists info

theorem plotted_initData (hwf : trc.WellFormed) : Plotted trc (initData trc) := by
  have hsamples := hwf.samples
  have hinc := hwf.inc
  have hbeg : ∀ g ∈ trc.lists.gaps, 1 ≤ g.beg := fun g hg => (hwf.gaps_inside g hg).1
  have haround : Around trc.lists (initData trc) := by
    refine ⟨⟨fun i g _ hi => absurd hi (Nat.not_lt_zero i), fun i g hg _ => ?_,
      fun i o _ hi => absurd hi (Nat.not_lt_zero i), fun i o ho _ => ?_,
      fun hon => absurd hon Bool.false_ne_true, fun _ o ho => ?_⟩,
      fun hon => absurd hon Bool.false_ne_true⟩
    · exact zero_le_one.trans (hbeg g (List.mem_of_getElem? hg))
    · exact (hwf.olaps_inside o (List.mem_of_getElem? ho)).1
    · exact (hwf.olaps_inside o (List.mem_of_getElem? ho)).1
  refine ⟨haround, rfl, dvd_zero _, le_rfl, le_rfl, ?_, ?_, fun i g _ hi => ?_, fun i hi => ?_,
    fun _ => rfl, fun i hi => ?_, fun _ i hi hlt => ?_, fun _ => ?_⟩
  · show (0 : ℤ) ≤ 0 + trc.inc
    omega
  · show (0 : ℤ) < trc.numSamples
    omega
  · exact absurd hi (Nat.not_lt_zero i)
  · obtain rfl := List.mem_singleton.1 hi
    omega
  · exact absurd hi List.not_mem_nil
  · exact absurd hlt (not_lt.2 hi)
  · refine haround.valid hwf.lists le_rfl fun g hg => ?_
    exact zero_lt_one.trans_le (hbeg g (List.mem_of_getElem? hg))

/-- The next stop lies behind this one, so `checkGO` is called once. -/
theorem Reached.plotStop_eq (hwf : trc.WellFormed) (h : Reached trc info)
    (hstop : info.point = info.stop) {fuel : ℕ} (hfuel : 0 < fuel) :
    plotStop trc fuel info = some ((checkGO trc.lists trc.numSamples trc.inc gapEnds info).read
        (checkGO trc.lists trc.numSamples trc.inc gapEnds info).point) ∧
      events trc.lists (checkGO trc.lists trc.numSamples trc.inc gapEnds info) <
        events trc.lists info := by
  have hlimit : info.point < trc.numSamples := by
    have hroom := h.room
    have hblock := h.le_block
    omega
  have hnext := hstop.trans h.stop
  have hlater := lt_stop_checkGO trc.inc gapEnds hwf.lists hwf.olaps_apart h.around h.ptInc_le
    hnext hlimit
  refine ⟨?_, events_checkGO_lt trc.inc gapEnds hwf.lists h.around h.ptInc_le hnext hlimit⟩
  unfold plotStop
  rw [whileLoop_of_not hfuel]
  · rfl
  · exact decide_eq_false (not_le.2 (hstop ▸ hlater))

/-- One pass of the main loop. -/
theorem Plotted.step (hwf : trc.WellFormed) (h : Plotted trc info)
    (hlt : info.ptInc < trc.numSamples - trc.inc) {fuel : ℕ} (hfuel : 0 < fuel) :
    ∃ next, plotStep trc fuel info = some next ∧ Plotted trc next ∧
      remaining trc next < remaining trc info := by
  have hinc := hwf.inc
  obtain ⟨info', heq, hreached, hptInc, hevents⟩ := h.drawBlock hwf hlt
  unfold plotStep
  simp only [heq]
  by_cases hstop : info'.point = info'.stop
  · obtain ⟨hplot, hlater⟩ := hreached.plotStop_eq hwf hstop hfuel
    obtain ⟨hplotted, hle⟩ := hreached.atStop hwf
    refine ⟨_, (if_pos hstop).trans hplot, hplotted, ?_⟩
    show (trc.numSamples - (checkGO trc.lists trc.numSamples trc.inc gapEnds info').ptInc).toNat +
      events trc.lists (checkGO trc.lists trc.numSamples trc.inc gapEnds info') < _
    unfold remaining
    omega
  · refine ⟨_, if_neg hstop, hreached.nextBlock hwf hstop, ?_⟩
    show (trc.numSamples - (info'.ptInc + trc.inc)).toNat + events trc.lists info' < _
    unfold remaining
    omega

/-- The main loop ends at the last block, with everything in front of the next point drawn. -/
theorem mainLoop_spec (hwf : trc.WellFormed) {fuel : ℕ}
    (hfuel : remaining trc (initData trc) < fuel) :
    ∃ info, whileLoop (fun info => decide (info.ptInc < trc.numSamples - trc.inc))
      (plotStep trc fuel) fuel (initData trc) = some info := by
  obtain ⟨info, hrun, -⟩ := whileLoop_spec (remaining trc) (P := Plotted trc)
    (fun info h hcond => h.step hwf (of_decide_eq_true hcond) (Nat.zero_lt_of_lt hfuel))
    (plotted_initData hwf) hfuel
  exact ⟨info, hrun⟩

theorem mainLoop_sound (hwf : trc.WellFormed) {fuel : ℕ}
    (hrun : whileLoop (fun info => decide (info.ptInc < trc.numSamples - trc.inc))
      (plotStep trc fuel) fuel (initData trc) = some info) :
    Plotted trc info ∧ info.ptInc = trc.lastBlock := by
  have hfuel : 0 < fuel := by
    apply Nat.pos_of_ne_zero
    rintro rfl
    exact nomatch hrun
  obtain ⟨hplotted, hend⟩ := whileLoop_sound (P := Plotted trc) (fun info next h hcond hstep => by
    obtain ⟨next', hstep', hnext, -⟩ := h.step hwf (of_decide_eq_true hcond) hfuel
    obtain rfl := Option.some.inj (hstep.symm.trans hstep')
    exact hnext) (plotted_initData hwf) hrun
  refine ⟨hplotted, hwf.block_eq hplotted.aligned (not_lt.1 (of_decide_eq_false hend)) ?_⟩
  exact hplotted.ptInc_le.trans_lt hplotted.point_lt

/-! ## The plot -/

/-- Every sample behind the next point is drawn in the last block. -/
theorem mem_lastBlock (h : Plotted trc info) {i : ℤ} :
    i ∈ (drawBlock (trc.numSamples - info.ptInc) info).drawn ↔
      (info.point ≤ i ∧ i < trc.numSamples) ∨ i ∈ info.drawn := by
  have hlt := h.point_lt
  rw [mem_drawn_drawBlock, add_sub_cancel]
  constructor
  · rintro (rfl | hi | hi)
    · exact .inl ⟨le_rfl, hlt⟩
    · exact .inl hi
    · exact .inr hi
  · rintro (hi | hi)
    · exact .inr (.inl hi)
    · exact .inr (.inr hi)

/-- A trace is covered exactly if undecimated or if no gap begins behind the first sample of the
last block. -/
theorem plot_covers_iff (trc : PlotTrace) (hwf : trc.WellFormed) :
    CoversTrace trc ↔ (1 < trc.inc → ∀ g ∈ trc.lists.gaps, g.beg ≤ trc.lastBlock) := by
  constructor
  · rintro ⟨fuel, info', hplot, -, hcovers⟩ hinc g hg
    obtain ⟨info, hrun, rfl⟩ := Option.map_eq_some_iff.1 hplot
    obtain ⟨h, hlast⟩ := mainLoop_sound hwf hrun
    rw [if_pos hinc] at hcovers
    by_contra hlt
    obtain ⟨i, hi⟩ := List.getElem?_of_mem hg
    have hgap := hwf.lists.gap_lt g hg
    have hinside := hwf.gaps_inside g hg
    -- the gap is left, so its first sample is drawn
    have hleft : info.point ≤ g.beg :=
      h.around.gapsLeft i g hi (not_lt.1 fun hdone => hlt (h.done i g hi hdone))
    have hdrawn := (mem_lastBlock h (i := g.beg)).2 (.inl ⟨hleft, by omega⟩)
    exact ((hcovers hinc g.beg).1 hdrawn).2 g hg ⟨le_rfl, hgap⟩
  · intro hgaps
    obtain ⟨info, hrun⟩ := mainLoop_spec hwf (Nat.lt_succ_self _)
    obtain ⟨h, hlast⟩ := mainLoop_sound hwf hrun
    have hpt := h.ptInc_le
    have hnonneg := h.nonneg
    refine ⟨_, _, by rw [plot, hrun]; rfl, fun i hi => ?_, fun hinc i => ?_⟩
    · dsimp only at hi
      split_ifs at hi with hinc
      · rw [mem_reads_drawBlock, add_sub_cancel] at hi
        have hlt := h.point_lt
        rcases hi with rfl | hi | hi
        · omega
        · omega
        · exact h.reads i hi
      · exact h.reads i hi
    · show i ∈ (if 1 < trc.inc then drawBlock _ info else info).drawn ↔ _
      rw [if_pos hinc, mem_lastBlock h]
      -- no gap is left
      have hvalid : ∀ i, info.point ≤ i → trc.lists.Valid i := by
        intro i hle
        refine h.around.valid hwf.lists hle fun g hg => ?_
        have hmem := List.mem_of_getElem? hg
        have hbeg := h.around.gapsLeft _ g hg le_rfl
        have hend := hgaps hinc g hmem
        have hgap := hwf.lists.gap_lt g hmem
        exact absurd ⟨by omega, by omega⟩ (h.clear hinc g hmem)
      constructor
      · rintro (⟨hle, hlt⟩ | hi)
        · exact ⟨⟨by omega, hlt⟩, hvalid i hle⟩
        · exact h.drawn i hi
      · rintro ⟨⟨hi, hlt⟩, hval⟩
        by_cases hle : info.point ≤ i
        · exact .inl ⟨hle, hlt⟩
        · exact .inr (h.covered hinc i hi (not_le.1 hle) hval)

/-! ### Two traces -/

/-- Ten samples with a gap and an overlap, in blocks of three. -/
def tenSamples : PlotTrace := ⟨10, 3, ⟨[⟨4, 6⟩], [⟨7, 9⟩]⟩⟩

theorem plot_covers_tenSamples : CoversTrace tenSamples := by
  refine (plot_covers_iff tenSamples ⟨?_, ?_, ⟨?_, ?_, ?_, ?_, ?_⟩, ?_, ?_, ?_, ?_⟩).2 ?_ <;>
    decide

/-- Three samples with a gap in the middle, in one block. -/
def gapInLastBlock : PlotTrace := ⟨3, 3, ⟨[⟨1, 2⟩], []⟩⟩

/-- The sample inside the gap is drawn. -/
theorem plot_draws_gap :
    (∃ info, plot gapInLastBlock 1 = some info ∧ 1 ∈ info.drawn) ∧
      ¬ CoversTrace gapInLastBlock := by
  have hplot : ∀ fuel, plot gapInLastBlock (fuel + 1) =
      some (drawBlock 3 (initData gapInLastBlock)) := fun _ => rfl
  have hdrawn : 1 ∈ (drawBlock 3 (initData gapInLastBlock)).drawn :=
    mem_drawn_drawBlock.2 (.inr (.inl (by decide)))
  refine ⟨⟨_, hplot 0, hdrawn⟩, ?_⟩
  rintro ⟨fuel, info, hrun, -, hcovers⟩
  cases fuel with
  | zero => exact nomatch hrun
  | succ fuel =>
    obtain rfl := Option.some.inj ((hplot fuel).symm.trans hrun)
    have hvalid := ((hcovers (by decide) 1).1 hdrawn).2
    exact hvalid ⟨1, 2⟩ List.mem_cons_self ⟨by decide, by decide⟩

end PQL
