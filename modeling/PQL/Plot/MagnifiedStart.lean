import PQL.Plot.MagnifiedCovers

/-!
# The start of the magnify plot

Where the window begins decides how the plot starts: outside of the gaps, in a gap that ends in
another block, in one that ends in the first block, or in one that fills the drawing area.
-/

namespace PQL

namespace MagPlot

variable {w : MagPlot} {info : PlotInfo}

/-! ## The gap that the window begins in -/

/-- The state in which `setGO` looks at the gap. -/
def startInfo (w : MagPlot) : PlotInfo :=
  { w.initInfo with gapNum := findSpan w.lists.gaps w.first }

/-- The window begins inside of the gap. -/
def BeginsIn (w : MagPlot) (g : Span) : Prop := g.beg < w.first ∧ w.first < g.fin

theorem startInfo_gaps (hwf : w.WellFormed) {k : ℕ} {g : Span} (hg : w.lists.gaps[k]? = some g) :
    (k < w.startInfo.gapNum → g.fin ≤ w.first) ∧ (w.startInfo.gapNum < k → w.first ≤ g.beg) ∧
      (k = w.startInfo.gapNum → w.first ≤ g.beg ∨ w.BeginsIn g) :=
  findSpan_spec hwf.lists.gaps hwf.lists.gap_lt hg

/-- There is one gap that the window can begin inside of. -/
theorem beginsIn_unique (hwf : w.WellFormed) {k : ℕ} {g : Span}
    (hg : w.lists.gaps[w.startInfo.gapNum]? = some g) {g' : Span}
    (hg' : w.lists.gaps[k]? = some g') (hin : w.BeginsIn g') : g' = g := by
  obtain ⟨hbefore, hbehind, -⟩ := startInfo_gaps hwf hg'
  obtain ⟨hbeg, hfin⟩ := hin
  rcases lt_trichotomy k w.startInfo.gapNum with hlt | rfl | hgt
  · have hle := hbefore hlt
    omega
  · exact Option.some.inj (hg'.symm.trans hg)
  · have hle := hbehind hgt
    omega

theorem setGap_of_not (h : ∀ g ∈ w.lists.gaps, ¬ w.BeginsIn g) :
    w.setGap w.startInfo = (w.startInfo, false) := by
  unfold setGap
  cases hg : w.lists.gaps[w.startInfo.gapNum]? with
  | none => rfl
  | some g => exact if_neg (h g (List.mem_of_getElem? hg))

/-- The state behind the gap that the window begins in. -/
def behindStart (w : MagPlot) (g : Span) : PlotInfo :=
  { w.startInfo with
    ptInc := w.block g.fin
    decInc := g.fin - w.block g.fin
    gapNum := w.startInfo.gapNum + 1
    reads := [g.beg - 1, g.fin] }

theorem setGap_of_beginsIn {g : Span} (hg : w.lists.gaps[w.startInfo.gapNum]? = some g)
    (hin : w.BeginsIn g) : w.setGap w.startInfo =
      if (g.fin - w.first) / w.inc ≠ 0 then
        if w.marginRight < (g.fin - w.first) / w.inc + w.marginLeft then (w.startInfo, true)
        else (w.behindStart g, false)
      else ({ w.startInfo with decInc := g.beg - w.first }, false) := by
  have hptInc : w.startInfo.ptInc = w.first := rfl
  obtain ⟨hbeg, hfin⟩ := hin
  unfold setGap
  rw [hg]
  dsimp only
  rw [hptInc, if_pos ⟨hbeg, hfin⟩, Int.tdiv_eq_ediv_of_nonneg (by omega)]
  rfl

/-! ## The overlap that the window begins in -/

/-- The number of the overlap is right for the point. -/
structure OlapFound (w : MagPlot) (p : ℤ) (info : PlotInfo) : Prop where
  done : ∀ i o, w.lists.olaps[i]? = some o → i < info.olapNum → o.fin ≤ p
  left : ∀ i o, w.lists.olaps[i]? = some o → info.olapNum < i → p ≤ o.beg
  on : info.olapON = true → ∃ o, w.lists.olaps[info.olapNum]? = some o ∧ o.beg < p ∧ p < o.fin
  off : info.olapON = false → ∀ o, w.lists.olaps[info.olapNum]? = some o → p ≤ o.beg

/-- There are no overlaps, or not all of them lie in front of the point. -/
def OlapsReach (w : MagPlot) (p : ℤ) : Prop :=
  w.lists.olaps = [] ∨ ∃ o ∈ w.lists.olaps, p < o.fin

theorem setOlap_isSome (hwf : w.WellFormed) (info : PlotInfo) :
    (w.setOlap info).isSome ↔ w.OlapsReach info.ptInc := by
  unfold setOlap OlapsReach
  by_cases hnil : w.lists.olaps = []
  · rw [if_pos hnil]
    exact iff_of_true rfl (.inl hnil)
  · rw [if_neg hnil, or_iff_right hnil,
      ← findSpan_lt_length hwf.lists.olaps hwf.lists.olap_lt]
    dsimp only
    rw [Option.isSome_map, Option.isSome_iff_ne_none, ne_eq, List.getElem?_eq_none_iff, not_le]

/-- What `setGO` finds. -/
theorem setOlap_spec (hwf : w.WellFormed) (hoff : info.olapON = false) {next : PlotInfo}
    (hset : w.setOlap info = some next) :
    (∃ olapNum olapON, next = { info with olapNum, olapON }) ∧ w.OlapFound info.ptInc next := by
  unfold setOlap at hset
  split_ifs at hset with hnil
  · obtain rfl := Option.some.inj hset
    refine ⟨⟨_, _, rfl⟩, ?_, ?_, fun hon => ?_, ?_⟩
    · intro i o ho
      rw [hnil] at ho
      exact absurd ho (Option.some_ne_none o).symm
    · intro i o ho
      rw [hnil] at ho
      exact absurd ho (Option.some_ne_none o).symm
    · exact absurd (hoff.symm.trans hon) Bool.false_ne_true
    · intro _ o ho
      rw [hnil] at ho
      exact absurd ho (Option.some_ne_none o).symm
  · obtain ⟨o, ho, rfl⟩ := Option.map_eq_some_iff.1 hset
    have hspec := fun {i : ℕ} {o : Span} (ho : w.lists.olaps[i]? = some o) =>
      findSpan_spec (p := info.ptInc) hwf.lists.olaps hwf.lists.olap_lt ho
    refine ⟨⟨_, _, rfl⟩, fun i o ho => (hspec ho).1, fun i o ho => (hspec ho).2.1,
      fun hon => ⟨o, ho, of_decide_eq_true hon⟩, fun hoff o' ho' => ?_⟩
    obtain rfl := Option.some.inj (ho.symm.trans ho')
    exact ((hspec ho).2.2 rfl).resolve_right (of_decide_eq_false hoff)

/-- The numbers are right at the point, if no overlap lies between it and its block. -/
theorem OlapFound.around (h : w.OlapFound info.ptInc info)
    (hdone : ∀ i g, w.lists.gaps[i]? = some g → i < info.gapNum → g.fin ≤ info.point)
    (hleft : ∀ i g, w.lists.gaps[i]? = some g → info.gapNum ≤ i → info.point ≤ g.beg)
    (hle : info.ptInc ≤ info.point)
    (hapart : ∀ o ∈ w.lists.olaps, (info.ptInc ≤ o.beg → info.point ≤ o.beg) ∧
      (info.ptInc < o.fin → info.point ≤ o.fin)) : Around w.lists info := by
  refine ⟨⟨hdone, hleft, fun i o ho hi => ?_, fun i o ho hi => ?_, fun hon => ?_,
    fun hoff o ho => ?_⟩, fun hon o ho => ?_⟩
  · exact (h.done i o ho hi).trans hle
  · exact (hapart o (List.mem_of_getElem? ho)).1 (h.left i o ho hi)
  · obtain ⟨o, ho, hbeg, -⟩ := h.on hon
    exact ⟨o, ho, hbeg.le.trans hle⟩
  · exact (hapart o (List.mem_of_getElem? ho)).1 (h.off hoff o ho)
  · obtain ⟨o', ho', -, hfin⟩ := h.on hon
    obtain rfl := Option.some.inj (ho.symm.trans ho')
    exact (hapart o (List.mem_of_getElem? ho)).2 hfin

/-! ## Right starts -/

/-- Outside of gaps the plot starts at the first sample. -/
theorem walked_first (hwf : w.WellFormed) (haround : Around w.shown info)
    (hstop : info.stop = nextStop w.shown w.lastPoint info) (hptInc : info.ptInc = w.first)
    (hdecInc : info.decInc = 0) (hreads : info.reads = []) (hextents : info.extents = [])
    (hclear : 1 < w.inc → w.shown.Valid w.first) : w.Walked (info.read info.point) false := by
  have hinc := hwf.inc
  have hfirst := hwf.first
  have hpoint : info.point = w.first := by rw [PlotInfo.point, hptInc, hdecInc, add_zero]
  have hdrawn : info.drawn = [] := by rw [PlotInfo.drawn, hextents, List.flatten_nil]
  have hbehind : ∀ k g, w.shown.gaps[k]? = some g → k < info.gapNum → g.fin ≤ w.first :=
    fun k g hg hk => (haround.gapsDone k g hg hk).trans_eq hpoint
  refine ⟨⟨{ haround with }, hstop, ?_, ?_, ?_, ?_, ?_⟩, ⟨?_, fun _ => ?_⟩,
    ⟨?_, ?_, fun _ => ?_⟩, fun _ => .inl ⟨.inl hpoint, ?_⟩, fun hdec => .inl ?_, .inl ?_,
    .inr (.inl ?_), ?_, fun hfalse => absurd hfalse Bool.false_ne_true⟩
  · rw [PlotInfo.read, hptInc, sub_self]
    exact dvd_zero _
  · exact hptInc.ge
  · exact hptInc.le.trans hpoint.ge
  · show info.point ≤ info.ptInc + w.inc
    omega
  · intro q _ hge _ hlt
    change q < info.ptInc at hlt
    omega
  · intro k g hg hk hfin
    exact absurd (hbehind k g hg hk) (not_le.2 hfin)
  · intro k g hg hk hfin
    exact absurd (hbehind k g hg hk) (not_le.2 hfin)
  · intro i hi
    rw [PlotInfo.read, hreads, List.mem_singleton, hpoint] at hi
    rw [hi]
    exact ⟨hfirst.1, .inl hfirst.2⟩
  · intro i hi
    change i ∈ info.drawn at hi
    rw [hdrawn] at hi
    exact absurd hi List.not_mem_nil
  · intro i hi hlt
    change i < info.point at hlt
    omega
  · show info.point < info.ptInc + w.inc
    omega
  · exact hpoint ▸ hclear hdec
  · exact hpoint.trans_lt hfirst.2
  · exact hpoint.trans hptInc.symm
  · intro k g hg hk hbeg
    have hspan := hwf.shown_disjoint.gap_lt g (List.mem_of_getElem? hg)
    have hle := hbehind k g hg hk
    omega

/-- In a gap that begins behind the first sample of the trace and ends in another block, the plot
starts behind it. -/
theorem walked_behindStart (hwf : w.WellFormed) (hov : w.overlay = false) {g : Span}
    (hg : w.lists.gaps[w.startInfo.gapNum]? = some g) (hin : w.BeginsIn g)
    (hblock : w.inc ≤ g.fin - w.first) (hbeg : 1 ≤ g.beg) (haround : Around w.lists info)
    (hstop : info.stop = nextStop w.lists w.lastPoint info) (hptInc : info.ptInc = w.block g.fin)
    (hpoint : info.point = g.fin) (hnum : info.gapNum = w.startInfo.gapNum + 1)
    (hreads : info.reads = [g.beg - 1, g.fin]) (hextents : info.extents = []) :
    w.Walked (info.read info.point) false := by
  rw [← shown_of_not_overlay hov] at haround hstop
  have hshown := shown_of_not_overlay hov
  have hinc := hwf.inc
  have hfirst := hwf.first
  have hmem := List.mem_of_getElem? hg
  have hinside := hwf.gaps_inside g hmem
  obtain ⟨hgbeg, hgfin⟩ := hin
  obtain ⟨hle, hlt⟩ := block_bounds hwf g.fin
  have hdvd : w.inc ∣ w.block g.fin - w.first :=
    ⟨(g.fin - w.first) / w.inc, add_sub_cancel_left _ _⟩
  have hapart : w.first ≤ w.block g.fin := by
    by_contra hnot
    have hapart := add_inc_le hwf hdvd (by rw [sub_self]; exact dvd_zero _) (not_le.1 hnot)
    omega
  have hdrawn : info.drawn = [] := by rw [PlotInfo.drawn, hextents, List.flatten_nil]
  have hmem' : g ∈ w.shown.gaps := by rwa [hshown]
  have hbehind : w.Behind (info.read info.point) g.fin :=
    ⟨_, g, by rwa [hshown], by rw [PlotInfo.read, hnum]; exact Nat.lt_succ_self _, hgfin, rfl⟩
  -- the gap is the only one that has been passed in the window
  have hpassed : ∀ k g', w.shown.gaps[k]? = some g' → k < info.gapNum →
      g' = g ∨ g'.fin ≤ w.first := by
    intro k g' hg' hk
    rw [hshown] at hg'
    rw [hnum] at hk
    rcases Nat.lt_succ_iff_lt_or_eq.1 hk with hk | rfl
    · exact .inr ((startInfo_gaps hwf hg').1 hk)
    · exact .inl (Option.some.inj (hg'.symm.trans hg))
  refine ⟨⟨{ haround with }, hstop, ?_, ?_, ?_, ?_, ?_⟩, ⟨?_, fun _ => ?_⟩,
    ⟨?_, ?_, fun _ => ?_⟩, fun _ => .inl ⟨.inr ⟨g, hmem', hpoint.symm⟩, ?_⟩, fun _ => .inr ?_,
    .inr ?_, .inr ?_, ?_, fun hfalse => absurd hfalse Bool.false_ne_true⟩
  · exact hptInc ▸ hdvd
  · exact hptInc ▸ hapart
  · exact hptInc.le.trans (hle.trans hpoint.ge)
  · show info.point ≤ info.ptInc + w.inc
    omega
  · intro q _ hge _ hq hvalid
    change q < info.ptInc at hq
    exact hvalid g hmem' ⟨by omega, by omega⟩
  · intro k g' hg' hk hfin
    rcases hpassed k g' hg' hk with rfl | hle'
    · refine ⟨.inl hgbeg, ?_⟩
      rw [PlotInfo.read, hpoint]
      exact List.mem_cons_self
    · exact absurd hle' (not_le.2 hfin)
  · intro k g' hg' hk hfin
    rcases hpassed k g' hg' hk with rfl | hle'
    · exact .inr hpoint.symm
    · exact absurd hle' (not_le.2 hfin)
  · intro i hi
    rw [PlotInfo.read, hreads, hpoint, List.mem_cons, List.mem_cons, List.mem_singleton] at hi
    rcases hi with rfl | rfl | rfl
    · exact ⟨by omega, .inr hbehind⟩
    · exact ⟨by omega, .inl (by omega)⟩
    · exact ⟨by omega, .inr hbehind⟩
  · intro i hi
    change i ∈ info.drawn at hi
    rw [hdrawn] at hi
    exact absurd hi List.not_mem_nil
  · intro i hi hlt' hval
    change i < info.point at hlt'
    exact absurd ⟨by omega, by omega⟩ (hval g hmem')
  · show info.point < info.ptInc + w.inc
    omega
  · exact hpoint ▸ hbehind
  · exact hpoint ▸ hbehind
  · rcases hle.lt_or_eq with hlt' | heq
    · refine .inr fun hvalid => hvalid g hmem' ⟨?_, ?_⟩
      · show g.beg ≤ info.ptInc
        omega
      · show info.ptInc < g.fin
        omega
    · left
      show info.point = info.ptInc
      omega
  · intro k g' hg' hk hge
    have hspan := hwf.shown_disjoint.gap_lt g' (List.mem_of_getElem? hg')
    rcases hpassed k g' hg' hk with rfl | hle'
    · omega
    · omega

/-! ## The plot from its start -/

/-- The first stop. -/
def withStop (w : MagPlot) (info : PlotInfo) : PlotInfo :=
  { info with stop := nextStop w.lists w.lastPoint info }

theorem covers_def : w.Covers ↔ ∃ fuel info, w.plot fuel = some info ∧ w.Covered info := Iff.rfl

theorem plot_eq (hwf : w.WellFormed) (hov : w.overlay = false) (fuel : ℕ) {next : PlotInfo}
    {ended : Bool} (hgap : w.setGap w.startInfo = (next, ended)) :
    w.plot fuel = (w.setOlap next).bind fun info =>
      if ended then some (w.withStop info)
      else (whileLoop w.goesOn (fun s => w.plotStep fuel s.1) fuel
        ((w.withStop info).read (w.withStop info).point, false)).map fun s => w.finish s.1 := by
  have hsetGO : w.setGO w.initInfo = (w.setOlap next).map fun info => (w.withStop info, ended) := by
    have hnot : ¬ w.overlay = true := by rw [hov]; exact Bool.false_ne_true
    rw [setGO, if_neg hnot]
    show (w.setOlap (w.setGap w.startInfo).1).map
      (fun info => (w.withStop info, (w.setGap w.startInfo).2)) = _
    rw [hgap]
  unfold plot
  rw [if_neg hwf.points, hsetGO]
  cases w.setOlap next <;> rfl

/-- What holds exactly of the states in which the loop is left, holds exactly of the plot. -/
theorem loop_covered_iff (hwf : w.WellFormed) (h : w.Walked info false) {P : Prop}
    (hend : ∀ s : PlotInfo × Bool, w.Walked s.1 s.2 → w.goesOn s = false →
      (w.Covered (w.finish s.1) ↔ P)) :
    (∃ fuel s, whileLoop w.goesOn (fun s => w.plotStep fuel s.1) fuel (info, false) = some s ∧
      w.Covered (w.finish s.1)) ↔ P := by
  constructor
  · rintro ⟨fuel, s, hrun, hcovered⟩
    obtain ⟨hwalked, hleft⟩ := mainLoop_sound hwf h hrun
    exact (hend s hwalked hleft).1 hcovered
  · intro hP
    obtain ⟨s, hrun⟩ := mainLoop_spec hwf h (Nat.lt_succ_self _)
    obtain ⟨hwalked, hleft⟩ := mainLoop_sound hwf h hrun
    exact ⟨_, s, hrun, (hend s hwalked hleft).2 hP⟩

theorem covers_overlay (hwf : w.WellFormed) (hov : w.overlay = true) : w.Covers ↔ (1 < w.inc →
    (∀ i, w.first ≤ i → i < w.gridEnd → w.lists.Valid i) ∧ w.LastFits w.gridEnd) := by
  have hshown := shown_of_overlay hov
  have hnone : ∀ (k : ℕ) (s : Span), ¬ ([] : List Span)[k]? = some s := fun k s hs =>
    Option.some_ne_none s hs.symm
  have hwalked : w.Walked (w.initInfo.read w.initInfo.point) false := by
    refine walked_first hwf ?_ ?_ rfl rfl rfl rfl fun _ g hg => ?_
    · rw [hshown]
      exact ⟨⟨fun k g hg => absurd hg (hnone k g), fun k g hg => absurd hg (hnone k g),
        fun k o ho => absurd ho (hnone k o), fun k o ho => absurd ho (hnone k o),
        fun hon => absurd hon Bool.false_ne_true, fun _ o ho => absurd ho (hnone _ o)⟩,
        fun _ o ho => absurd ho (hnone _ o)⟩
    · rw [hshown]
      rfl
    · rw [hshown] at hg
      exact absurd hg List.not_mem_nil
  rw [← loop_covered_iff hwf hwalked fun s hs hleft => hs.covered_overlay hwf hov hleft]
  have hplot : ∀ fuel, w.plot fuel = (whileLoop w.goesOn (fun s => w.plotStep fuel s.1) fuel
      (w.initInfo.read w.initInfo.point, false)).map fun s => w.finish s.1 := by
    intro fuel
    unfold plot
    rw [if_neg hwf.points, setGO, if_pos hov]
    rfl
  constructor
  · rintro ⟨fuel, info, hrun, hcovered⟩
    rw [hplot] at hrun
    obtain ⟨s, hloop, rfl⟩ := Option.map_eq_some_iff.1 hrun
    exact ⟨fuel, s, hloop, hcovered⟩
  · rintro ⟨fuel, s, hloop, hcovered⟩
    exact ⟨fuel, w.finish s.1, by rw [hplot, hloop]; rfl, hcovered⟩

/-- From a right start. -/
theorem covers_of_walked (hwf : w.WellFormed) (hov : w.overlay = false) {next : PlotInfo}
    (hgap : w.setGap w.startInfo = (next, false))
    (hwalked : ∀ info, w.setOlap next = some info →
      w.Walked ((w.withStop info).read (w.withStop info).point) false) :
    w.Covers ↔ w.OlapsReach next.ptInc ∧ w.CrossedFit ∧ (1 < w.inc → w.LastFits w.lastBlock) := by
  have hend : ∀ s : PlotInfo × Bool, w.Walked s.1 s.2 → w.goesOn s = false →
      (w.Covered (w.finish s.1) ↔ w.CrossedFit ∧ (1 < w.inc → w.LastFits w.lastBlock)) := by
    intro s hs hleft
    rw [hs.covered_iff hwf hov hleft, hs.lastFits_iff hwf hov hleft]
  rw [covers_def, ← setOlap_isSome hwf, Option.isSome_iff_exists]
  constructor
  · rintro ⟨fuel, info, hrun, hcovered⟩
    rw [plot_eq hwf hov fuel hgap] at hrun
    obtain ⟨start, hset, hrun⟩ := Option.bind_eq_some_iff.1 hrun
    rw [if_neg Bool.false_ne_true] at hrun
    obtain ⟨s, hloop, rfl⟩ := Option.map_eq_some_iff.1 hrun
    exact ⟨⟨start, hset⟩, (loop_covered_iff hwf (hwalked start hset) hend).1
      ⟨fuel, s, hloop, hcovered⟩⟩
  · rintro ⟨⟨start, hset⟩, hfits⟩
    obtain ⟨fuel, s, hloop, hcovered⟩ :=
      (loop_covered_iff hwf (hwalked start hset) hend).2 hfits
    refine ⟨fuel, w.finish s.1, ?_, hcovered⟩
    rw [plot_eq hwf hov fuel hgap, hset, Option.bind_some, if_neg Bool.false_ne_true, hloop]
    rfl

/-- A start outside of the window or in a gap, or a read in front of the trace, is not made good. -/
theorem not_covers (hwf : w.WellFormed) (hov : w.overlay = false) {next : PlotInfo}
    (hgap : w.setGap w.startInfo = (next, false))
    (hbad : (∃ i ∈ next.reads, i < 0) ∨ 1 < w.inc ∧
      (w.first ≤ next.point → ¬ w.lists.Valid next.point) ∧ ¬ w.lists.Valid next.ptInc) :
    ¬ w.Covers := by
  rintro ⟨fuel, info, hrun, hreads, hcovers⟩
  rw [plot_eq hwf hov fuel hgap] at hrun
  obtain ⟨start, hset, hrun⟩ := Option.bind_eq_some_iff.1 hrun
  rw [if_neg Bool.false_ne_true] at hrun
  obtain ⟨s, hloop, rfl⟩ := Option.map_eq_some_iff.1 hrun
  have hkeep : start.reads = next.reads ∧ start.ptInc = next.ptInc ∧ start.point = next.point := by
    unfold setOlap at hset
    split_ifs at hset
    · obtain rfl := Option.some.inj hset
      exact ⟨rfl, rfl, rfl⟩
    · obtain ⟨o, -, rfl⟩ := Option.map_eq_some_iff.1 hset
      exact ⟨rfl, rfl, rfl⟩
  obtain ⟨hkreads, hkptInc, hkpoint⟩ := hkeep
  obtain ⟨hkeeps, hdrawn⟩ := keeps_mainLoop hloop
  have hfinish := keeps_finish w s.1
  rcases hbad with ⟨i, hi, hneg⟩ | ⟨hdec, hpoint, hptInc⟩
  · have hread : i ∈ ((w.withStop start).read (w.withStop start).point).reads :=
      List.mem_cons_of_mem _ (hkreads ▸ hi)
    have hnonneg := (hreads i (hfinish.1 i (hkeeps.1 i hread))).1
    omega
  · rcases hdrawn hdec with hmem | heq
    · obtain ⟨⟨hge, -⟩, hvalid⟩ := (hcovers hdec _).1 (hfinish.2 _ hmem)
      change w.first ≤ start.point at hge
      change w.lists.Valid start.point at hvalid
      rw [hkpoint] at hge hvalid
      exact hpoint hge hvalid
    · have hmem : s.1.ptInc ∈ (w.finish s.1).drawn := by
        unfold finish
        rw [if_pos hdec]
        exact mem_drawn_drawLast.2 (.inl rfl)
      have hvalid := ((hcovers hdec _).1 hmem).2
      rw [heq] at hvalid
      exact hptInc (hkptInc ▸ hvalid)

/-- A gap that fills the drawing area leaves it blank. -/
theorem covers_of_blank (hwf : w.WellFormed) (hov : w.overlay = false)
    (hgap : w.setGap w.startInfo = (w.startInfo, true)) : w.Covers ↔ w.OlapsReach w.first ∧
      (1 < w.inc → ∀ i, w.first ≤ i → i < w.lastPoint → ¬ w.lists.Valid i) := by
  have hplot : ∀ fuel, w.plot fuel = (w.setOlap w.startInfo).map w.withStop := by
    intro fuel
    rw [plot_eq hwf hov fuel hgap]
    cases w.setOlap w.startInfo <;> rfl
  have hcovered : ∀ start, w.setOlap w.startInfo = some start → (w.Covered (w.withStop start) ↔
      (1 < w.inc → ∀ i, w.first ≤ i → i < w.lastPoint → ¬ w.lists.Valid i)) := by
    intro start hset
    obtain ⟨olapNum, olapON, rfl⟩ := (setOlap_spec hwf rfl hset).1
    constructor
    · rintro ⟨-, hcovers⟩ hdec i hi hlt hvalid
      exact absurd ((hcovers hdec i).2 ⟨⟨hi, hlt⟩, hvalid⟩) List.not_mem_nil
    · intro hnone
      refine ⟨fun i hi => absurd hi List.not_mem_nil, fun hdec i => ?_⟩
      exact iff_of_false List.not_mem_nil fun hi => hnone hdec i hi.1.1 hi.1.2 hi.2
  rw [covers_def, show w.first = w.startInfo.ptInc from rfl, ← setOlap_isSome hwf,
    Option.isSome_iff_exists]
  constructor
  · rintro ⟨fuel, info, hrun, hinfo⟩
    rw [hplot] at hrun
    obtain ⟨start, hset, rfl⟩ := Option.map_eq_some_iff.1 hrun
    exact ⟨⟨start, hset⟩, (hcovered start hset).1 hinfo⟩
  · rintro ⟨⟨start, hset⟩, hnone⟩
    exact ⟨0, w.withStop start, by rw [hplot, hset]; rfl, (hcovered start hset).2 hnone⟩

/-! ## The condition from the start -/

/-- The window begins right, in the gaps that its first sample is inside of. -/
def StartFits (w : MagPlot) : Prop :=
  ∀ g ∈ w.lists.gaps, g.beg ≤ w.first → w.first < g.fin →
    (1 < w.inc → g.beg < w.first ∧ w.inc ≤ g.fin - w.first) ∧ (g.beg < w.first → 1 ≤ g.beg)

theorem gapsFit_iff (hblank : ¬ w.Blank) (hstart : w.StartFits) : w.GapsFit ↔
    w.OlapsReach w.first ∧ w.CrossedFit ∧ (1 < w.inc → w.LastFits w.lastBlock) :=
  ⟨fun h => ⟨h.olaps, h.crossed hblank, h.last hblank⟩,
    fun ⟨holaps, hcrossed, hlast⟩ => ⟨holaps, fun hblank' => absurd hblank' hblank,
      fun _ => hstart, fun _ => hcrossed, fun _ => hlast⟩⟩

/-- The window begins outside of the gaps. -/
theorem covers_outside (hwf : w.WellFormed) (hov : w.overlay = false)
    (hout : ∀ g ∈ w.lists.gaps, ¬ w.BeginsIn g) : w.Covers ↔ w.GapsFit := by
  have hshown := shown_of_not_overlay hov
  have hgap := setGap_of_not hout
  have hblank : ¬ w.Blank := by
    rintro ⟨g, hg, hin, -⟩
    exact hout g hg hin
  have hpoint : w.startInfo.point = w.first := add_zero _
  by_cases hclear : 1 < w.inc → w.lists.Valid w.first
  · have hstart : w.StartFits := fun g hg hbeg hfin =>
      ⟨fun hdec => absurd ⟨hbeg, hfin⟩ (hclear hdec g hg),
        fun hlt => absurd ⟨hlt, hfin⟩ (hout g hg)⟩
    rw [gapsFit_iff hblank hstart]
    refine covers_of_walked hwf hov hgap fun info hset => ?_
    obtain ⟨⟨olapNum, olapON, rfl⟩, hfound⟩ := setOlap_spec hwf rfl hset
    have haround : Around w.lists { w.startInfo with olapNum, olapON } := by
      refine hfound.around (fun k g hg hk => ?_) (fun k g hg hk => ?_) hpoint.ge fun o _ =>
        ⟨hpoint.le.trans, fun hlt => hpoint.le.trans hlt.le⟩
      · exact ((startInfo_gaps hwf hg).1 hk).trans_eq hpoint.symm
      · obtain ⟨-, hbehind, hat⟩ := startInfo_gaps hwf hg
        refine hpoint.le.trans ?_
        rcases hk.eq_or_lt with heq | hlt
        · exact (hat heq.symm).resolve_right (hout g (List.mem_of_getElem? hg))
        · exact hbehind hlt
    rw [← hshown] at haround hclear
    refine walked_first hwf { haround with } ?_ rfl rfl rfl rfl hclear
    rw [hshown]
    rfl
  · obtain ⟨hdec, hnot⟩ := Classical.not_imp.1 hclear
    refine iff_of_false (not_covers hwf hov hgap (.inr ⟨hdec, fun _ => ?_, hnot⟩)) fun hfit => ?_
    · rwa [hpoint]
    · refine hnot fun g hg hmem => ?_
      have hlt := ((hfit.start hblank g hg hmem.1 hmem.2).1 hdec).1
      exact hout g hg ⟨hlt, hmem.2⟩

/-- The window begins in a gap, and the plot behind it. -/
theorem covers_behindStart (hwf : w.WellFormed) (hov : w.overlay = false) {g : Span}
    (hg : w.lists.gaps[w.startInfo.gapNum]? = some g) (hin : w.BeginsIn g)
    (hblock : w.inc ≤ g.fin - w.first) (hbeg : 1 ≤ g.beg) (hblank : ¬ w.Blank)
    (hgap : w.setGap w.startInfo = (w.behindStart g, false)) : w.Covers ↔ w.GapsFit := by
  have hmem := List.mem_of_getElem? hg
  obtain ⟨hgbeg, hgfin⟩ := hin
  obtain ⟨hle, hlt⟩ := block_bounds hwf g.fin
  have hinc := hwf.inc
  have hpoint : (w.behindStart g).point = g.fin := add_sub_cancel _ _
  have hfirst : w.first ≤ w.block g.fin := by
    by_contra hnot
    have hapart := add_inc_le hwf ⟨(g.fin - w.first) / w.inc, add_sub_cancel_left _ _⟩
      (by rw [sub_self]; exact dvd_zero _) (not_le.1 hnot)
    unfold block at hlt hapart
    omega
  have hstart : w.StartFits := by
    intro g' hg' hbeg' hfin'
    obtain ⟨k, hk⟩ := List.getElem?_of_mem hg'
    obtain ⟨hbefore, hbehind, -⟩ := startInfo_gaps hwf hk
    have hsame : g' = g := by
      rcases lt_trichotomy k w.startInfo.gapNum with hlt' | rfl | hgt
      · exact absurd (hbefore hlt') (not_le.2 hfin')
      · exact Option.some.inj (hk.symm.trans hg)
      · have hle' := hwf.lists.gap_le hg hk hgt
        omega
    subst hsame
    exact ⟨fun _ => ⟨hgbeg, hblock⟩, fun _ => hbeg⟩
  -- an overlap lies in front of the gap or behind it
  have hapart : ∀ o ∈ w.lists.olaps, o.beg < o.fin ∧ (g.fin ≤ o.beg ∨ o.fin ≤ g.beg) :=
    fun o ho => ⟨hwf.lists.olap_lt o ho, hwf.lists.apart g hmem o ho⟩
  have hreach : w.OlapsReach (w.behindStart g).ptInc ↔ w.OlapsReach w.first := by
    show w.OlapsReach (w.block g.fin) ↔ _
    refine or_congr Iff.rfl (exists_congr fun o => and_congr_right fun ho => ?_)
    obtain ⟨hspan, hapart⟩ := hapart o ho
    omega
  rw [gapsFit_iff hblank hstart, ← hreach]
  refine covers_of_walked hwf hov hgap fun info hset => ?_
  obtain ⟨⟨olapNum, olapON, rfl⟩, hfound⟩ := setOlap_spec hwf rfl hset
  have haround : Around w.lists { w.behindStart g with olapNum, olapON } := by
    refine hfound.around (fun k g' hg' hk => ?_) (fun k g' hg' hk => ?_)
      (hle.trans hpoint.ge) fun o ho => ?_
    · show g'.fin ≤ (w.behindStart g).point
      rw [hpoint]
      rcases Nat.lt_succ_iff_lt_or_eq.1 hk with hk | rfl
      · have hle' := (startInfo_gaps hwf hg').1 hk
        omega
      · rw [Option.some.inj (hg'.symm.trans hg)]
    · show (w.behindStart g).point ≤ g'.beg
      rw [hpoint]
      exact hwf.lists.gap_le hg hg' hk
    · show (w.block g.fin ≤ o.beg → (w.behindStart g).point ≤ o.beg) ∧
        (w.block g.fin < o.fin → (w.behindStart g).point ≤ o.fin)
      obtain ⟨hspan, hapart⟩ := hapart o ho
      rw [hpoint]
      omega
  exact walked_behindStart hwf hov hg ⟨hgbeg, hgfin⟩ hblock hbeg { haround with } rfl rfl hpoint
    rfl rfl rfl

/-- The window begins inside of a gap. -/
theorem covers_inside (hwf : w.WellFormed) (hov : w.overlay = false) {g : Span}
    (hg : w.lists.gaps[w.startInfo.gapNum]? = some g) (hin : w.BeginsIn g) :
    w.Covers ↔ w.GapsFit := by
  have hmem := List.mem_of_getElem? hg
  have hinc := hwf.inc
  have hgap := setGap_of_beginsIn hg hin
  have hblank : w.Blank ↔ (g.fin - w.first) / w.inc ≠ 0 ∧
      w.marginRight < (g.fin - w.first) / w.inc + w.marginLeft := by
    constructor
    · rintro ⟨g', hg', hin', hwide⟩
      obtain ⟨k, hk⟩ := List.getElem?_of_mem hg'
      obtain rfl := beginsIn_unique hwf hg hk hin'
      exact hwide
    · exact fun hwide => ⟨g, hmem, hin, hwide⟩
  obtain ⟨hgbeg, hgfin⟩ := hin
  have hzero : (g.fin - w.first) / w.inc = 0 ↔ g.fin - w.first < w.inc := by
    rw [Int.ediv_eq_iff_of_pos (by omega)]
    omega
  have hinvalid : ¬ w.lists.Valid w.first := fun hvalid => hvalid g hmem ⟨hgbeg.le, hgfin⟩
  by_cases hblock : (g.fin - w.first) / w.inc = 0
  · -- the gap ends in the first block
    rw [if_neg (not_not.2 hblock)] at hgap
    have hnot : ¬ w.Blank := fun h => (hblank.1 h).1 hblock
    have hlt := hzero.1 hblock
    have hpoint : ({ w.startInfo with decInc := g.beg - w.first } : PlotInfo).point = g.beg :=
      add_sub_cancel _ _
    refine iff_of_false (not_covers hwf hov hgap (.inr ⟨by omega, fun hle => ?_, hinvalid⟩))
      fun hfit => ?_
    · rw [hpoint] at hle
      omega
    · have hle := ((hfit.start hnot g hmem hgbeg.le hgfin).1 (by omega)).2
      omega
  rw [if_pos hblock] at hgap
  by_cases hwide : w.marginRight < (g.fin - w.first) / w.inc + w.marginLeft
  · rw [if_pos hwide] at hgap
    have hyes : w.Blank := hblank.2 ⟨hblock, hwide⟩
    rw [covers_of_blank hwf hov hgap]
    exact ⟨fun h => ⟨h.1, fun _ => h.2, fun hnot => absurd hyes hnot, fun hnot => absurd hyes hnot,
      fun hnot => absurd hyes hnot⟩, fun h => ⟨h.olaps, h.blank hyes⟩⟩
  rw [if_neg hwide] at hgap
  have hnot : ¬ w.Blank := fun h => hwide (hblank.1 h).2
  by_cases hbeg : 1 ≤ g.beg
  · exact covers_behindStart hwf hov hg ⟨hgbeg, hgfin⟩ (not_lt.1 (hzero.not.1 hblock)) hbeg hnot
      hgap
  · refine iff_of_false (not_covers hwf hov hgap (.inl ⟨g.beg - 1, List.mem_cons_self, by omega⟩))
      fun hfit => ?_
    exact hbeg ((hfit.start hnot g hmem hgbeg.le hgfin).2 hgbeg)

/-- `mag_plot` covers a window exactly if it fits. -/
theorem covers_iff (hwf : w.WellFormed) : w.Covers ↔ w.Fits := by
  unfold Fits
  cases hov : w.overlay with
  | true =>
    rw [if_pos rfl]
    exact covers_overlay hwf hov
  | false =>
    rw [if_neg Bool.false_ne_true]
    by_cases hin : ∃ g ∈ w.lists.gaps, w.BeginsIn g
    · obtain ⟨g, hg, hin⟩ := hin
      obtain ⟨k, hk⟩ := List.getElem?_of_mem hg
      obtain ⟨hbefore, hbehind, -⟩ := startInfo_gaps hwf hk
      obtain rfl : k = w.startInfo.gapNum := by
        obtain ⟨hgbeg, hgfin⟩ := hin
        rcases lt_trichotomy k w.startInfo.gapNum with hlt | heq | hgt
        · exact absurd (hbefore hlt) (not_le.2 hgfin)
        · exact heq
        · exact absurd (hbehind hgt) (not_le.2 hgbeg)
      exact covers_inside hwf hov hk hin
    · exact covers_outside hwf hov fun g hg hbegins => hin ⟨g, hg, hbegins⟩

/-! ### Two windows -/

/-- The first seven of ten samples in blocks of three, with a gap. -/
def sevenOfTen : MagPlot :=
  { numSamples := 10, first := 0, points := 6, atEnd := false, inc := 3, overlay := false,
    marginLeft := 0, marginRight := 100, offArea := fun _ _ => false, lists := ⟨[⟨1, 3⟩], []⟩ }

theorem sevenOfTen_covers : sevenOfTen.Covers := by
  have hwf : sevenOfTen.WellFormed := by
    refine ⟨?_, ?_, ?_, ?_, ⟨?_, ?_, ?_, ?_, ?_⟩, ?_, ?_⟩ <;> decide
  refine (covers_iff hwf).2 (?_ : sevenOfTen.GapsFit)
  have hgaps : ∀ g ∈ sevenOfTen.lists.gaps, g = ⟨1, 3⟩ := fun g hg => List.mem_singleton.1 hg
  have hvalid : ∀ i : ℤ, i < 1 ∨ 3 ≤ i → sevenOfTen.lists.Valid i := by
    intro i hi g hg hmem
    obtain rfl := hgaps g hg
    have hbeg : 1 ≤ i := hmem.1
    have hfin : i < 3 := hmem.2
    omega
  have hlast : sevenOfTen.lastBlock = 6 := by decide
  refine ⟨.inl rfl, ?_, fun _ g hg hbeg => ?_, fun _ g hg _ => ?_, fun _ _ => ?_⟩
  · rintro ⟨g, hg, ⟨hbeg, -⟩, -⟩
    obtain rfl := hgaps g hg
    exact absurd hbeg (by decide)
  · obtain rfl := hgaps g hg
    exact absurd hbeg (by decide)
  · obtain rfl := hgaps g hg
    exact ⟨by decide, fun _ => hvalid 3 (by decide)⟩
  · rw [hlast]
    have hndata : sevenOfTen.ndata = 6 := rfl
    have hend : sevenOfTen.lastPoint = 7 := rfl
    refine ⟨⟨by decide, by decide, hvalid 6 (by decide)⟩, ?_, ?_⟩ <;> intro i <;> omega

/-- Eight of ten samples without gaps. -/
def eightOfTen : MagPlot :=
  { numSamples := 10, first := 0, points := 7, atEnd := false, inc := 3, overlay := false,
    marginLeft := 0, marginRight := 100, offArea := fun _ _ => false, lists := ⟨[], []⟩ }

/-- The last sample is not drawn: the last block counts up to one instead of two. -/
theorem eightOfTen_not_covers : ¬ eightOfTen.Covers := by
  have hwf : eightOfTen.WellFormed := by
    refine ⟨?_, ?_, ?_, ?_, ⟨?_, ?_, ?_, ?_, ?_⟩, ?_, ?_⟩ <;> decide
  have hnone : ∀ g, g ∉ eightOfTen.lists.gaps := fun g hg => absurd hg List.not_mem_nil
  rw [covers_outside hwf rfl fun g hg => absurd hg (hnone g)]
  intro hfit
  have hblank : ¬ eightOfTen.Blank := by
    rintro ⟨g, hg, -⟩
    exact hnone g hg
  have hlast : eightOfTen.lastBlock = 6 := by decide
  have hfits := hfit.last hblank (by decide)
  rw [hlast] at hfits
  have hcount := hfits.2.2 7 (by decide) (by decide) fun g hg => absurd hg (hnone g)
  exact absurd hcount (by decide)

end MagPlot

end PQL
