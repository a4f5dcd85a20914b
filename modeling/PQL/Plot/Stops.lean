import PQL.Lib.Spans
import PQL.Lib.While

/-!
# Stops of a plot

The plots go through the samples in blocks of `inc` and stop inside a block where a gap or an
overlap begins and where an overlap ends.  `checkGO` is called at a stop: it jumps over a gap to
the sample behind it, keeps to the grid of the blocks, and finds the next stop.
-/

namespace PQL

/-! ## The state of a plot -/

/-- The gaps and the overlaps of a trace. -/
structure GapLists where
  gaps : List Span
  olaps : List Span

/-- `plotInfo`, with the samples that have been read and, for each vertical line, the samples that
its extent is taken over. -/
structure PlotInfo where
  stop : ℤ
  ptInc : ℤ
  decInc : ℤ
  gapNum : ℕ
  olapNum : ℕ
  olapON : Bool
  reads : List ℤ
  extents : List (List ℤ)
deriving DecidableEq, Repr

namespace PlotInfo

/-- The sample that is next. -/
def point (info : PlotInfo) : ℤ := info.ptInc + info.decInc

/-- `DATAP`. -/
def read (info : PlotInfo) (i : ℤ) : PlotInfo := { info with reads := i :: info.reads }

/-- The samples that contribute to an extent. -/
def drawn (info : PlotInfo) : List ℤ := info.extents.flatten

end PlotInfo

/-- The `for` loop over the points of a block: the points, and `decInc` behind them. -/
def scanPoints (ptInc limit decInc : ℤ) : List ℤ × ℤ :=
  if decInc < limit then
    let rest := scanPoints ptInc limit (decInc + 1)
    ((ptInc + decInc) :: rest.1, rest.2)
  else ([], decInc)
termination_by (limit - decInc).toNat

/-- A vertical line over the points of a block, which begins with the next point in any case. -/
def drawBlock (limit : ℤ) (info : PlotInfo) : PlotInfo :=
  let scan := scanPoints info.ptInc limit info.decInc
  { info with
    decInc := scan.2
    reads := info.point :: scan.1 ++ info.reads
    extents := (info.point :: scan.1) :: info.extents }

section CheckGO

variable (lists : GapLists) (limit inc : ℤ) (fill : Span → List ℤ)

/-- The next stop: the end of the current overlap, the next gap or overlap, or `limit`. -/
def nextStop (info : PlotInfo) : ℤ :=
  match info.olapON, lists.gaps[info.gapNum]?, lists.olaps[info.olapNum]? with
  | true, _, some olap => olap.fin
  | _, none, none => limit
  | _, some gap, none => gap.beg
  | _, none, some olap => olap.beg
  | _, some gap, some olap => if olap.beg < gap.beg then olap.beg else gap.beg

/-- A gap that has been hit; `fill` are the samples that are read to draw the line over it. -/
def checkGap (info : PlotInfo) : PlotInfo :=
  match lists.gaps[info.gapNum]? with
  | none => info
  | some gap =>
    if info.point ≥ gap.beg then
      let gapInc := (gap.fin - gap.beg - (info.ptInc - gap.beg)).tdiv inc
      let ptInc := if gapInc ≠ 0 then info.ptInc + inc * gapInc else info.ptInc
      { info with
        ptInc
        decInc := gap.fin - ptInc
        gapNum := info.gapNum + 1
        reads := if gapInc ≠ 0 then fill gap ++ info.reads else info.reads }
    else info

/-- The begin or the end of an overlap. -/
def checkOlap (info : PlotInfo) : PlotInfo :=
  match lists.olaps[info.olapNum]? with
  | none => info
  | some olap =>
    let olapON := info.olapON || decide (info.point ≥ olap.beg)
    if olapON ∧ info.point ≥ olap.fin then
      { info with olapON := false, olapNum := info.olapNum + 1 }
    else { info with olapON }

/-- `checkGO`, but for what it draws. -/
def checkGO (info : PlotInfo) : PlotInfo :=
  let info := checkOlap lists (checkGap lists inc fill info)
  { info with stop := nextStop lists limit info }

end CheckGO

/-! ## Scans -/

theorem scanPoints_snd (ptInc limit decInc : ℤ) :
    (scanPoints ptInc limit decInc).2 = max decInc limit := by
  fun_induction scanPoints ptInc limit decInc with
  | case1 decInc hlt rest ih =>
    rw [ih]
    omega
  | case2 decInc hge => omega

theorem mem_scanPoints {ptInc limit decInc i : ℤ} :
    i ∈ (scanPoints ptInc limit decInc).1 ↔ ptInc + decInc ≤ i ∧ i < ptInc + limit := by
  fun_induction scanPoints ptInc limit decInc with
  | case1 decInc hlt rest ih =>
    rw [List.mem_cons, ih]
    omega
  | case2 decInc hge =>
    simp only [List.not_mem_nil, false_iff]
    omega

section DrawBlock

variable {limit : ℤ} {info : PlotInfo} {i : ℤ}

theorem point_drawBlock :
    (drawBlock limit info).point = max info.point (info.ptInc + limit) := by
  show info.ptInc + (scanPoints info.ptInc limit info.decInc).2 = _
  rw [scanPoints_snd, PlotInfo.point]
  omega

theorem mem_drawn_drawBlock : i ∈ (drawBlock limit info).drawn ↔
    i = info.point ∨ (info.point ≤ i ∧ i < info.ptInc + limit) ∨ i ∈ info.drawn := by
  show i ∈ ((info.point :: (scanPoints _ _ _).1) :: info.extents).flatten ↔ _
  rw [List.flatten_cons, List.cons_append, List.mem_cons, List.mem_append, mem_scanPoints]
  exact Iff.rfl

theorem mem_reads_drawBlock : i ∈ (drawBlock limit info).reads ↔
    i = info.point ∨ (info.point ≤ i ∧ i < info.ptInc + limit) ∨ i ∈ info.reads := by
  show i ∈ info.point :: (scanPoints _ _ _).1 ++ info.reads ↔ _
  rw [List.cons_append, List.mem_cons, List.mem_append, mem_scanPoints]
  exact Iff.rfl

end DrawBlock

/-! ## Positions among the gaps and overlaps -/

/-- Gaps and overlaps in order and disjoint. -/
structure GapLists.Disjoint (lists : GapLists) : Prop where
  gap_lt : ∀ g ∈ lists.gaps, g.beg < g.fin
  olap_lt : ∀ o ∈ lists.olaps, o.beg < o.fin
  gaps : lists.gaps.Pairwise fun g h => g.fin ≤ h.beg
  olaps : lists.olaps.Pairwise fun o o' => o.fin ≤ o'.beg
  apart : ∀ g ∈ lists.gaps, ∀ o ∈ lists.olaps, g.fin ≤ o.beg ∨ o.fin ≤ g.beg

/-- The sample is not inside a gap. -/
def GapLists.Valid (lists : GapLists) (i : ℤ) : Prop := ∀ g ∈ lists.gaps, i ∉ g.toSet

/-- The numbers of the next gap and overlap are right for the next point, but for an overlap that
has been passed. -/
structure AroundGaps (lists : GapLists) (info : PlotInfo) : Prop where
  gapsDone : ∀ i g, lists.gaps[i]? = some g → i < info.gapNum → g.fin ≤ info.point
  gapsLeft : ∀ i g, lists.gaps[i]? = some g → info.gapNum ≤ i → info.point ≤ g.beg
  olapsDone : ∀ i o, lists.olaps[i]? = some o → i < info.olapNum → o.fin ≤ info.point
  olapsLeft : ∀ i o, lists.olaps[i]? = some o → info.olapNum < i → info.point ≤ o.beg
  on : info.olapON = true → ∃ o, lists.olaps[info.olapNum]? = some o ∧ o.beg ≤ info.point
  off : info.olapON = false → ∀ o, lists.olaps[info.olapNum]? = some o → info.point ≤ o.beg

/-- The numbers are right. -/
structure Around (lists : GapLists) (info : PlotInfo) : Prop extends AroundGaps lists info where
  inside : info.olapON = true → ∀ o, lists.olaps[info.olapNum]? = some o → info.point ≤ o.fin

section Positions

variable {lists : GapLists} {limit inc : ℤ} {fill : Span → List ℤ} {info : PlotInfo}

theorem GapLists.Disjoint.gap_le (hlists : lists.Disjoint) {i j : ℕ} {g h : Span}
    (hg : lists.gaps[i]? = some g) (hh : lists.gaps[j]? = some h) (hij : i < j) :
    g.fin ≤ h.beg := by
  obtain ⟨hi, rfl⟩ := List.getElem?_eq_some_iff.1 hg
  obtain ⟨hj, rfl⟩ := List.getElem?_eq_some_iff.1 hh
  exact List.pairwise_iff_getElem.1 hlists.gaps i j hi hj hij

theorem GapLists.Disjoint.olap_le (hlists : lists.Disjoint) {i j : ℕ} {o o' : Span}
    (ho : lists.olaps[i]? = some o) (ho' : lists.olaps[j]? = some o') (hij : i < j) :
    o.fin ≤ o'.beg := by
  obtain ⟨hi, rfl⟩ := List.getElem?_eq_some_iff.1 ho
  obtain ⟨hj, rfl⟩ := List.getElem?_eq_some_iff.1 ho'
  exact List.pairwise_iff_getElem.1 hlists.olaps i j hi hj hij

theorem nextStop_of_on (hon : info.olapON = true) {o : Span}
    (ho : lists.olaps[info.olapNum]? = some o) : nextStop lists limit info = o.fin := by
  simp only [nextStop, hon, ho]

/-- Outside of overlaps the next stop is the first of the next gap and the next overlap. -/
theorem nextStop_of_off (lists : GapLists) (limit : ℤ) (hoff : info.olapON = false) :
    (∀ g, lists.gaps[info.gapNum]? = some g → nextStop lists limit info ≤ g.beg) ∧
      (∀ o, lists.olaps[info.olapNum]? = some o → nextStop lists limit info ≤ o.beg) ∧
      (nextStop lists limit info = limit ∧ lists.gaps[info.gapNum]? = none ∧
          lists.olaps[info.olapNum]? = none ∨
        (∃ g, lists.gaps[info.gapNum]? = some g ∧ nextStop lists limit info = g.beg) ∨
        ∃ o, lists.olaps[info.olapNum]? = some o ∧ nextStop lists limit info = o.beg) := by
  cases hg : lists.gaps[info.gapNum]? with
  | none =>
    cases ho : lists.olaps[info.olapNum]? with
    | none => simp [nextStop, hoff, hg, ho]
    | some o => simp [nextStop, hoff, hg, ho]
  | some g =>
    cases ho : lists.olaps[info.olapNum]? with
    | none => simp [nextStop, hoff, hg, ho]
    | some o =>
      by_cases hlt : o.beg < g.beg
      · simp [nextStop, hoff, hg, ho, hlt, hlt.le]
      · simp [nextStop, hoff, hg, ho, hlt, not_lt.1 hlt]

/-- The next stop does not lie behind a gap that is left. -/
theorem Around.nextStop_le_gap (limit : ℤ) (hlists : lists.Disjoint) (h : Around lists info)
    {i : ℕ} {g : Span} (hg : lists.gaps[i]? = some g) (hi : info.gapNum ≤ i) :
    nextStop lists limit info ≤ g.beg := by
  cases hon : info.olapON with
  | true =>
    obtain ⟨o, ho, hbeg⟩ := h.on hon
    rw [nextStop_of_on hon ho]
    have hp := h.gapsLeft i g hg hi
    have hgap := hlists.gap_lt g (List.mem_of_getElem? hg)
    rcases hlists.apart g (List.mem_of_getElem? hg) o (List.mem_of_getElem? ho) with hle | hle
    · omega
    · exact hle
  | false =>
    obtain ⟨hgap, -, -⟩ := nextStop_of_off lists limit hon
    rcases hi.eq_or_lt with rfl | hlt
    · exact hgap g hg
    · have hlen : info.gapNum < lists.gaps.length :=
        hlt.trans (List.getElem?_eq_some_iff.1 hg).1
      have hnext := List.getElem?_eq_getElem hlen
      have hle := hlists.gap_le hnext hg hlt
      have hgap_lt := hlists.gap_lt _ (List.mem_of_getElem? hnext)
      exact (hgap _ hnext).trans (by omega)

theorem nextStop_le_olap (hlists : lists.Disjoint) {i : ℕ} {o : Span}
    (ho : lists.olaps[i]? = some o) (hi : info.olapNum < i) :
    nextStop lists limit info ≤ o.beg := by
  have hlen : info.olapNum < lists.olaps.length := hi.trans (List.getElem?_eq_some_iff.1 ho).1
  have hcur := List.getElem?_eq_getElem hlen
  have hle := hlists.olap_le hcur ho hi
  have hlt := hlists.olap_lt _ (List.mem_of_getElem? hcur)
  cases hon : info.olapON with
  | true =>
    rw [nextStop_of_on hon hcur]
    exact hle
  | false =>
    obtain ⟨-, holap, -⟩ := nextStop_of_off lists limit hon
    exact (holap _ hcur).trans (by omega)

theorem Around.min_le_nextStop (limit : ℤ) (h : Around lists info) :
    min info.point limit ≤ nextStop lists limit info := by
  cases hon : info.olapON with
  | true =>
    obtain ⟨o, ho, -⟩ := h.on hon
    rw [nextStop_of_on hon ho]
    exact (min_le_left _ _).trans (h.inside hon o ho)
  | false =>
    obtain ⟨-, -, ⟨hnext, -⟩ | ⟨g, hg, hnext⟩ | ⟨o, ho, hnext⟩⟩ :=
      nextStop_of_off lists limit hon
    · rw [hnext]
      exact min_le_right _ _
    · rw [hnext]
      exact (min_le_left _ _).trans (h.gapsLeft _ g hg le_rfl)
    · rw [hnext]
      exact (min_le_left _ _).trans (h.off hon o ho)

theorem Around.le_nextStop (h : Around lists info) (hlimit : info.point ≤ limit) :
    info.point ≤ nextStop lists limit info :=
  (le_min le_rfl hlimit).trans (h.min_le_nextStop limit)

/-- What lies in front of the gaps that are left, and not in front of the point, is valid. -/
theorem Around.valid (hlists : lists.Disjoint) (h : Around lists info) {i : ℤ}
    (hle : info.point ≤ i) (hlt : ∀ g, lists.gaps[info.gapNum]? = some g → i < g.beg) :
    lists.Valid i := by
  intro g hg hmem
  obtain ⟨k, hk⟩ := List.getElem?_of_mem hg
  rcases lt_trichotomy k info.gapNum with hdone | rfl | hleft
  · exact (h.gapsDone k g hk hdone).not_gt (hle.trans_lt hmem.2)
  · exact (hlt g hk).not_ge hmem.1
  · have hlen : info.gapNum < lists.gaps.length := hleft.trans (List.getElem?_eq_some_iff.1 hk).1
    have hcur := List.getElem?_eq_getElem hlen
    have hgap := hlists.gap_lt _ (List.mem_of_getElem? hcur)
    have hnext := hlists.gap_le hcur hk hleft
    have hbeg := hlt _ hcur
    have hi : g.beg ≤ i := hmem.1
    omega

/-- Going on up to the next stop. -/
theorem Around.move (limit : ℤ) (hlists : lists.Disjoint) (h : Around lists info)
    {info' : PlotInfo} (hgapNum : info'.gapNum = info.gapNum)
    (holapNum : info'.olapNum = info.olapNum) (holapON : info'.olapON = info.olapON)
    (hle : info.point ≤ info'.point) (hstop : info'.point ≤ nextStop lists limit info) :
    Around lists info' := by
  refine ⟨⟨fun i g hg hi => ?_, fun i g hg hi => ?_, fun i o ho hi => ?_, fun i o ho hi => ?_,
    fun hon => ?_, fun hoff o ho => ?_⟩, fun hon o ho => ?_⟩
  · exact (h.gapsDone i g hg (hgapNum ▸ hi)).trans hle
  · exact hstop.trans (h.nextStop_le_gap limit hlists hg (hgapNum ▸ hi))
  · exact (h.olapsDone i o ho (holapNum ▸ hi)).trans hle
  · exact hstop.trans (nextStop_le_olap hlists ho (holapNum ▸ hi))
  · rw [holapON] at hon
    obtain ⟨o, ho, hbeg⟩ := h.on hon
    exact ⟨o, by rw [holapNum, ho], hbeg.trans hle⟩
  · rw [holapON] at hoff
    rw [holapNum] at ho
    exact hstop.trans ((nextStop_of_off lists limit hoff).2.1 o ho)
  · rw [holapON] at hon
    rw [holapNum] at ho
    rwa [nextStop_of_on hon ho] at hstop

/-! ## What happens at a stop -/

theorem checkGap_hit {g : Span} (hg : lists.gaps[info.gapNum]? = some g)
    (hp : g.beg ≤ info.point) (hle : info.ptInc ≤ g.fin) :
    checkGap lists inc fill info =
      { info with
        ptInc := info.ptInc + inc * ((g.fin - info.ptInc) / inc)
        decInc := g.fin - (info.ptInc + inc * ((g.fin - info.ptInc) / inc))
        gapNum := info.gapNum + 1
        reads := if (g.fin - info.ptInc) / inc ≠ 0 then fill g ++ info.reads
          else info.reads } := by
  have hgapInc : (g.fin - g.beg - (info.ptInc - g.beg)).tdiv inc =
      (g.fin - info.ptInc) / inc := by
    rw [sub_sub_sub_cancel_right]
    exact Int.tdiv_eq_ediv_of_nonneg (sub_nonneg.2 hle)
  unfold checkGap
  simp only [hg, ge_iff_le, hp, if_true, hgapInc]
  by_cases hzero : (g.fin - info.ptInc) / inc = 0
  · simp [hzero]
  · simp [hzero]

theorem checkGap_miss (h : ∀ g, lists.gaps[info.gapNum]? = some g → info.point < g.beg) :
    checkGap lists inc fill info = info := by
  unfold checkGap
  cases hg : lists.gaps[info.gapNum]? with
  | none => rfl
  | some g => exact if_neg (not_le.2 (h g hg))

/-- `checkOlap` by the point: behind the end, at the begin or inside, and in front. -/
theorem checkOlap_eq {o : Span} (ho : lists.olaps[info.olapNum]? = some o) (hlt : o.beg < o.fin)
    (hoff : info.olapON = false → info.point ≤ o.beg) :
    checkOlap lists info =
      if info.olapON = true ∧ o.fin ≤ info.point then
        { info with olapON := false, olapNum := info.olapNum + 1 }
      else { info with olapON := info.olapON || decide (info.point = o.beg) } := by
  unfold checkOlap
  cases hon : info.olapON with
  | true => simp [ho]
  | false =>
    have hle := hoff hon
    have hfin : ¬ info.point ≥ o.fin := by omega
    have heq : (info.point ≥ o.beg) = (info.point = o.beg) := propext (by omega)
    simp [ho, hfin, heq]

theorem AroundGaps.checkOlap (hlists : lists.Disjoint) (h : AroundGaps lists info) :
    Around lists (checkOlap lists info) := by
  cases ho : lists.olaps[info.olapNum]? with
  | none =>
    have hsame : PQL.checkOlap lists info = info := by
      unfold PQL.checkOlap
      rw [ho]
    rw [hsame]
    exact ⟨h, fun _ o ho' => nomatch ho.symm.trans ho'⟩
  | some o =>
    have hlt := hlists.olap_lt o (List.mem_of_getElem? ho)
    rw [checkOlap_eq ho hlt fun hoff => h.off hoff o ho]
    split_ifs with hend
    · -- the end of the overlap
      refine ⟨⟨h.gapsDone, h.gapsLeft, fun i o' ho' hi => ?_, fun i o' ho' hi => ?_, nofun,
        fun _ o' ho' => ?_⟩, nofun⟩
      · rcases Nat.lt_succ_iff_lt_or_eq.1 hi with hi | rfl
        · exact h.olapsDone i o' ho' hi
        · obtain rfl := Option.some.inj (ho.symm.trans ho')
          exact hend.2
      · exact h.olapsLeft i o' ho' (Nat.lt_of_succ_lt hi)
      · exact h.olapsLeft _ o' ho' (Nat.lt_succ_self _)
    · refine ⟨⟨h.gapsDone, h.gapsLeft, h.olapsDone, h.olapsLeft, fun hon => ?_, fun hoff => ?_⟩,
        fun hon o' ho' => ?_⟩
      · rcases Bool.or_eq_true_iff.1 hon with hon | hbeg
        · exact h.on hon
        · exact ⟨o, ho, (of_decide_eq_true hbeg).ge⟩
      · exact h.off (Bool.or_eq_false_iff.1 hoff).1
      · obtain rfl := Option.some.inj (ho.symm.trans ho')
        show info.point ≤ o.fin
        rcases Bool.or_eq_true_iff.1 hon with hon | hbeg
        · exact (not_le.1 fun hfin => hend ⟨hon, hfin⟩).le
        · have heq := of_decide_eq_true hbeg
          omega

theorem checkOlap_keeps (lists : GapLists) (info : PlotInfo) :
    ∃ olapON olapNum, checkOlap lists info = { info with olapON, olapNum } := by
  unfold checkOlap
  cases lists.olaps[info.olapNum]? with
  | none => exact ⟨info.olapON, info.olapNum, rfl⟩
  | some o =>
    dsimp only
    split_ifs
    · exact ⟨_, _, rfl⟩
    · exact ⟨_, _, rfl⟩

theorem checkGO_keeps (lists : GapLists) (limit inc : ℤ) (fill : Span → List ℤ)
    (info : PlotInfo) :
    ∃ olapON olapNum stop, checkGO lists limit inc fill info =
      { checkGap lists inc fill info with olapON, olapNum, stop } := by
  obtain ⟨olapON, olapNum, heq⟩ := checkOlap_keeps lists (checkGap lists inc fill info)
  refine ⟨olapON, olapNum,
    nextStop lists limit (checkOlap lists (checkGap lists inc fill info)), ?_⟩
  unfold checkGO
  rw [heq]

/-- Behind a gap: what was in front of the gap is in front of the sample behind it. -/
theorem Around.checkGap_hit (hlists : lists.Disjoint) (h : Around lists info) {g : Span}
    (hg : lists.gaps[info.gapNum]? = some g) (hp : g.beg = info.point)
    (hle : info.ptInc ≤ info.point) : AroundGaps lists (checkGap lists inc fill info) := by
  have hlt := hlists.gap_lt g (List.mem_of_getElem? hg)
  rw [PQL.checkGap_hit hg hp.le (by omega)]
  -- an overlap is in front of the gap or behind it
  have hbehind : ∀ o ∈ lists.olaps, info.point ≤ o.beg → g.fin ≤ o.beg := by
    intro o ho hpo
    have holap := hlists.olap_lt o ho
    rcases hlists.apart g (List.mem_of_getElem? hg) o ho with hle | hle
    · exact hle
    · omega
  have hpoint : info.ptInc + inc * ((g.fin - info.ptInc) / inc) +
      (g.fin - (info.ptInc + inc * ((g.fin - info.ptInc) / inc))) = g.fin := by ring
  refine ⟨fun i g' hg' hi => ?_, fun i g' hg' hi => ?_, fun i o ho hi => ?_,
    fun i o ho hi => ?_, fun hon => ?_, fun hoff o ho => ?_⟩ <;>
    simp only [PlotInfo.point, hpoint]
  · rcases Nat.lt_succ_iff_lt_or_eq.1 hi with hi | rfl
    · exact (h.gapsDone i g' hg' hi).trans (by omega)
    · obtain rfl := Option.some.inj (hg.symm.trans hg')
      exact le_rfl
  · exact hlists.gap_le hg hg' hi
  · exact (h.olapsDone i o ho hi).trans (by omega)
  · exact hbehind o (List.mem_of_getElem? ho) (h.olapsLeft i o ho hi)
  · obtain ⟨o, ho, hbeg⟩ := h.on hon
    exact ⟨o, ho, by omega⟩
  · exact hbehind o (List.mem_of_getElem? ho) (h.off hoff o ho)

/-- What `checkGO` does at a stop: it jumps over a gap or stays where it is. -/
theorem checkGO_cases (inc : ℤ) (fill : Span → List ℤ) (hlists : lists.Disjoint)
    (h : Around lists info) (hle : info.ptInc ≤ info.point) :
    (∃ g, lists.gaps[info.gapNum]? = some g ∧ g.beg = info.point ∧
        checkGap lists inc fill info =
          { info with
            ptInc := info.ptInc + inc * ((g.fin - info.ptInc) / inc)
            decInc := g.fin - (info.ptInc + inc * ((g.fin - info.ptInc) / inc))
            gapNum := info.gapNum + 1
            reads := if (g.fin - info.ptInc) / inc ≠ 0 then fill g ++ info.reads
              else info.reads }) ∨
      (∀ g, lists.gaps[info.gapNum]? = some g → info.point < g.beg) ∧
        checkGap lists inc fill info = info := by
  by_cases hhit : ∃ g, lists.gaps[info.gapNum]? = some g ∧ g.beg ≤ info.point
  · obtain ⟨g, hg, hp⟩ := hhit
    have hlt := hlists.gap_lt g (List.mem_of_getElem? hg)
    have hbeg := h.gapsLeft _ g hg le_rfl
    exact .inl ⟨g, hg, le_antisymm hp hbeg, checkGap_hit hg hp (by omega)⟩
  · have hmiss : ∀ g, lists.gaps[info.gapNum]? = some g → info.point < g.beg :=
      fun g hg => not_le.1 fun hp => hhit ⟨g, hg, hp⟩
    exact .inr ⟨hmiss, checkGap_miss hmiss⟩

theorem Around.checkGO (limit inc : ℤ) (fill : Span → List ℤ) (hlists : lists.Disjoint)
    (h : Around lists info) (hle : info.ptInc ≤ info.point) :
    Around lists (checkGO lists limit inc fill info) := by
  have hgaps : AroundGaps lists (checkGap lists inc fill info) := by
    rcases checkGO_cases inc fill hlists h hle with ⟨g, hg, hp, -⟩ | ⟨-, hmiss⟩
    · exact h.checkGap_hit hlists hg hp hle
    · rw [hmiss]
      exact h.toAroundGaps
  have haround := hgaps.checkOlap hlists
  exact { haround with }

/-- The begins and ends that are left. -/
def events (lists : GapLists) (info : PlotInfo) : ℕ :=
  lists.gaps.length - info.gapNum +
    (2 * (lists.olaps.length - info.olapNum) - if info.olapON then 1 else 0)

theorem events_checkOlap_le (hlists : lists.Disjoint) (h : AroundGaps lists info) :
    events lists (checkOlap lists info) ≤ events lists info := by
  cases ho : lists.olaps[info.olapNum]? with
  | none =>
    have hsame : checkOlap lists info = info := by
      unfold checkOlap
      rw [ho]
    rw [hsame]
  | some o =>
    have hlt := hlists.olap_lt o (List.mem_of_getElem? ho)
    rw [checkOlap_eq ho hlt fun hoff => h.off hoff o ho]
    by_cases hend : info.olapON = true ∧ o.fin ≤ info.point
    · rw [if_pos hend]
      simp only [events, hend.1, if_true, Bool.false_eq_true, if_false]
      omega
    · rw [if_neg hend]
      cases hon : info.olapON with
      | true => simp only [events, hon, Bool.true_or, le_refl]
      | false =>
        simp only [events, hon, Bool.false_eq_true, if_false, tsub_zero]
        exact Nat.add_le_add_left (Nat.sub_le _ _) _

/-- At a stop that is not a gap an overlap begins or ends. -/
theorem checkOlap_at_stop (hlists : lists.Disjoint) (h : Around lists info)
    (hmiss : ∀ g, lists.gaps[info.gapNum]? = some g → info.point < g.beg)
    (hstop : info.point = nextStop lists limit info) (hlimit : info.point < limit) :
    ∃ o, lists.olaps[info.olapNum]? = some o ∧
      (info.olapON = true ∧ info.point = o.fin ∧
          checkOlap lists info = { info with olapON := false, olapNum := info.olapNum + 1 } ∨
        info.olapON = false ∧ info.point = o.beg ∧
          checkOlap lists info = { info with olapON := true }) := by
  cases hon : info.olapON with
  | true =>
    obtain ⟨o, ho, -⟩ := h.on hon
    have hlt := hlists.olap_lt o (List.mem_of_getElem? ho)
    rw [nextStop_of_on hon ho] at hstop
    refine ⟨o, ho, .inl ⟨rfl, hstop, ?_⟩⟩
    rw [checkOlap_eq ho hlt fun hoff => h.off hoff o ho, if_pos ⟨hon, hstop.ge⟩]
  | false =>
    obtain ⟨-, -, ⟨hnext, -⟩ | ⟨g, hg, hnext⟩ | ⟨o, ho, hnext⟩⟩ :=
      nextStop_of_off lists limit hon
    · omega
    · have hlt := hmiss g hg
      omega
    · have hlt := hlists.olap_lt o (List.mem_of_getElem? ho)
      have hbeg : info.point = o.beg := hstop.trans hnext
      have hend : ¬ (info.olapON = true ∧ o.fin ≤ info.point) :=
        fun hend => absurd (hon.symm.trans hend.1) Bool.false_ne_true
      refine ⟨o, ho, .inr ⟨rfl, hbeg, ?_⟩⟩
      rw [checkOlap_eq ho hlt fun hoff => h.off hoff o ho, if_neg hend, hon,
        decide_eq_true hbeg]
      rfl

/-- At a stop in front of `limit` a begin or an end is passed. -/
theorem events_checkGO_lt (inc : ℤ) (fill : Span → List ℤ) (hlists : lists.Disjoint)
    (h : Around lists info) (hle : info.ptInc ≤ info.point)
    (hstop : info.point = nextStop lists limit info) (hlimit : info.point < limit) :
    events lists (checkGO lists limit inc fill info) < events lists info := by
  show events lists (checkOlap lists (checkGap lists inc fill info)) < _
  rcases checkGO_cases inc fill hlists h hle with ⟨g, hg, hp, heq⟩ | ⟨hmiss, heq⟩
  · have hgaps : AroundGaps lists (checkGap lists inc fill info) := h.checkGap_hit hlists hg hp hle
    apply (events_checkOlap_le hlists hgaps).trans_lt
    have hlen := (List.getElem?_eq_some_iff.1 hg).1
    rw [heq]
    unfold events
    dsimp only
    omega
  · rw [heq]
    obtain ⟨o, ho, ⟨hon, -, hcheck⟩ | ⟨hon, -, hcheck⟩⟩ :=
      checkOlap_at_stop hlists h hmiss hstop hlimit
    · have hlen := (List.getElem?_eq_some_iff.1 ho).1
      rw [hcheck]
      simp only [events, hon, if_true, Bool.false_eq_true, if_false]
      omega
    · have hlen := (List.getElem?_eq_some_iff.1 ho).1
      rw [hcheck]
      simp only [events, hon, if_true, Bool.false_eq_true, if_false]
      omega

theorem lt_nextStop {p : ℤ} (hlimit : p < limit)
    (hgap : ∀ g, lists.gaps[info.gapNum]? = some g → p < g.beg)
    (hon : info.olapON = true → ∃ o, lists.olaps[info.olapNum]? = some o ∧ p < o.fin)
    (hoff : info.olapON = false → ∀ o, lists.olaps[info.olapNum]? = some o → p < o.beg) :
    p < nextStop lists limit info := by
  cases holap : info.olapON with
  | true =>
    obtain ⟨o, ho, hlt⟩ := hon holap
    rwa [nextStop_of_on holap ho]
  | false =>
    obtain ⟨-, -, ⟨hnext, -⟩ | ⟨g, hg, hnext⟩ | ⟨o, ho, hnext⟩⟩ :=
      nextStop_of_off lists limit holap
    · rwa [hnext]
    · rw [hnext]
      exact hgap g hg
    · rw [hnext]
      exact hoff holap o ho

theorem point_checkOlap (lists : GapLists) (info : PlotInfo) :
    (checkOlap lists info).point = info.point := by
  obtain ⟨olapON, olapNum, heq⟩ := checkOlap_keeps lists info
  rw [heq]
  rfl

/-- The next stop lies behind a stop, if overlaps do not meet. -/
theorem lt_stop_checkGO (inc : ℤ) (fill : Span → List ℤ) (hlists : lists.Disjoint)
    (holaps : lists.olaps.Pairwise fun o o' => o.fin < o'.beg)
    (h : Around lists info) (hle : info.ptInc ≤ info.point)
    (hstop : info.point = nextStop lists limit info) (hlimit : info.point < limit) :
    info.point < (checkGO lists limit inc fill info).stop := by
  show info.point < nextStop lists limit (checkOlap lists (checkGap lists inc fill info))
  rcases checkGO_cases inc fill hlists h hle with ⟨g, hg, hp, heq⟩ | ⟨hmiss, heq⟩
  · have haround : Around lists (checkOlap lists (checkGap lists inc fill info)) :=
      (h.checkGap_hit hlists hg hp hle).checkOlap hlists
    have hlt : info.point < (checkOlap lists (checkGap lists inc fill info)).point := by
      have hgap := hlists.gap_lt g (List.mem_of_getElem? hg)
      rw [point_checkOlap, heq]
      show info.point < info.ptInc + _ + (g.fin - (info.ptInc + _))
      omega
    apply lt_nextStop hlimit
    · exact fun g' hg' => hlt.trans_le (haround.gapsLeft _ g' hg' le_rfl)
    · intro hon
      obtain ⟨o, ho, -⟩ := haround.on hon
      exact ⟨o, ho, hlt.trans_le (haround.inside hon o ho)⟩
    · exact fun hoff o ho => hlt.trans_le (haround.off hoff o ho)
  · rw [heq]
    obtain ⟨o, ho, ⟨hon, hp, hcheck⟩ | ⟨hon, hp, hcheck⟩⟩ :=
      checkOlap_at_stop hlists h hmiss hstop hlimit
    · rw [hcheck]
      refine lt_nextStop hlimit hmiss (fun h => nomatch h) fun _ o' ho' => ?_
      obtain ⟨hi, rfl⟩ := List.getElem?_eq_some_iff.1 ho
      obtain ⟨hj, rfl⟩ := List.getElem?_eq_some_iff.1 ho'
      rw [hp]
      exact List.pairwise_iff_getElem.1 holaps _ _ hi hj (Nat.lt_succ_self _)
    · have hlt := hlists.olap_lt o (List.mem_of_getElem? ho)
      rw [hcheck]
      exact lt_nextStop hlimit hmiss (fun _ => ⟨o, ho, by omega⟩) fun h => nomatch h

end Positions

end PQL
