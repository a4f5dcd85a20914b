import PQL.Plot.Decimated

/-!
# The decimated magnify plot

`mag_plot` draws a window of a trace in blocks of `inc` samples as `plot` draws a whole trace:
`setGO` finds the gap and the overlap that the window begins in, `checkGO` is called at the stops,
and behind the main loop the last block is drawn.  `MagPlot.Fits` says on which windows the extents
are taken over the samples of the window outside of the gaps.
-/

namespace PQL

/-! ## The plot -/

/-- A window of a trace, from the sample `first` on. -/
structure MagPlot where
  numSamples : ℤ
  first : ℤ
  /-- The samples in the length of the window, rounded to zero. -/
  points : ℤ
  /-- The window ends in the second that the trace ends in. -/
  atEnd : Bool
  inc : ℤ
  /-- `settings.magnify.overlay`. -/
  overlay : Bool
  marginLeft : ℤ
  marginRight : ℤ
  /-- The line over a gap leaves the drawing area, by the block and the sample behind the gap. -/
  offArea : ℤ → ℤ → Bool
  lists : GapLists

/-- The span that the point is inside of, or else the next one. -/
def findSpan (spans : List Span) (p : ℤ) : ℕ :=
  let num := spans.findIdx fun s => decide (¬ s.beg < p)
  match spans[num - 1]? with
  | some s => if num ≠ 0 ∧ p < s.fin then num - 1 else num
  | none => num

namespace MagPlot

section Plot

variable (w : MagPlot)

def ndata : ℤ := if w.atEnd then w.points - w.inc else w.points

def lastPoint : ℤ := w.first + w.ndata + 1

/-- What `mag_plot` begins with. -/
def initInfo : PlotInfo :=
  { stop := w.lastPoint, ptInc := w.first, decInc := 0, gapNum := 0, olapNum := 0, olapON := false,
    reads := [], extents := [] }

/-- The gap of `setGO`; nothing is left to plot if the gap fills the drawing area. -/
def setGap (info : PlotInfo) : PlotInfo × Bool :=
  match w.lists.gaps[info.gapNum]? with
  | none => (info, false)
  | some gap =>
    if gap.beg < info.ptInc ∧ info.ptInc < gap.fin then
      let gapInc := (gap.fin - info.ptInc).tdiv w.inc
      if gapInc ≠ 0 then
        if gapInc + w.marginLeft > w.marginRight then (info, true)
        else
          let ptInc := info.ptInc + w.inc * gapInc
          ({ info with
              ptInc
              decInc := gap.fin - ptInc
              gapNum := info.gapNum + 1
              reads := (gap.beg - 1) :: gap.fin :: info.reads }, false)
      else ({ info with decInc := gap.beg - info.ptInc }, false)
    else (info, false)

/-- The overlap of `setGO`, which is looked up without a bound. -/
def setOlap (info : PlotInfo) : Option PlotInfo :=
  if w.lists.olaps = [] then some info
  else
    let olapNum := findSpan w.lists.olaps info.ptInc
    w.lists.olaps[olapNum]?.map fun olap =>
      { info with
        olapNum
        olapON := decide (olap.beg < info.ptInc ∧ info.ptInc < olap.fin) }

/-- `setGO`. -/
def setGO (info : PlotInfo) : Option (PlotInfo × Bool) :=
  if w.overlay then some (info, false)
  else
    let start := w.setGap { info with gapNum := findSpan w.lists.gaps info.ptInc }
    (w.setOlap start.1).map fun info =>
      ({ info with stop := nextStop w.lists w.lastPoint info }, start.2)

/-- The line over a gap that is hit leads out of the drawing area. -/
def leavesArea (info : PlotInfo) : Bool :=
  match w.lists.gaps[info.gapNum]? with
  | none => false
  | some gap =>
    let gapInc := (gap.fin - gap.beg - (info.ptInc - gap.beg)).tdiv w.inc
    decide (info.point ≥ gap.beg) && decide (gapInc ≠ 0) &&
      w.offArea (info.ptInc + w.inc * gapInc) gap.fin

/-- The sample that is read to draw a line over a gap. -/
def gapEnd (gap : Span) : List ℤ := [gap.fin]

/-- `checkGO`, but for what it draws. -/
def checkGO (info : PlotInfo) : PlotInfo × Bool :=
  if w.overlay then (info, false)
  else (PQL.checkGO w.lists w.lastPoint w.inc gapEnd info, w.leavesArea info)

/-- Stops in front of the last one: the state, the last stop and whether nothing is left to plot. -/
def stopAgain (fuel : ℕ) (info : PlotInfo) (lastStop : ℤ) : Option (PlotInfo × ℤ × Bool) :=
  whileLoop (fun s => !s.2.2 && decide (s.1.stop < s.2.1))
    (fun s =>
      let next := w.checkGO s.1
      some (next.1, s.1.stop, next.2 && decide (next.1.stop > s.1.stop)))
    fuel (info, lastStop, false)

/-- A stop of the main loop, and whether the loop ends there. -/
def plotStop (fuel : ℕ) (info : PlotInfo) : Option (PlotInfo × Bool) :=
  let next := w.checkGO info
  if next.2 ∧ next.1.stop > info.stop then some (next.1, true)
  else
    (w.stopAgain fuel next.1 info.stop).map fun s => (s.1.read s.1.point, false)

/-- The next decimation boundary. -/
def plotNext (info : PlotInfo) : PlotInfo :=
  { info with ptInc := info.ptInc + w.inc, decInc := 0 }.read (info.ptInc + w.inc)

/-- One pass of the main loop. -/
def plotStep (fuel : ℕ) (info : PlotInfo) : Option (PlotInfo × Bool) :=
  let info :=
    if 1 < w.inc then drawBlock (min w.inc (info.stop - info.ptInc)) info else info
  if info.point = info.stop then w.plotStop fuel info
  else if w.inc = 1 ∧ info.ptInc + 1 = info.stop then
    -- force a checkGO
    some ({ info with decInc := info.decInc + 1 }, false)
  else some (w.plotNext info, false)

/-- The points for the last increment. -/
def drawLast (info : PlotInfo) : PlotInfo :=
  let scan := scanPoints 0 (w.ndata - info.ptInc) 0
  { info with
    decInc := scan.2
    reads := info.ptInc :: scan.1 ++ info.reads
    extents := (info.ptInc :: scan.1) :: info.extents }

/-- The main loop has more to plot. -/
def goesOn (s : PlotInfo × Bool) : Bool := !s.2 && decide (s.1.ptInc < w.lastPoint - w.inc)

/-- `mag_plot`, but for what it draws between the vertical lines. -/
def plot (fuel : ℕ) : Option PlotInfo :=
  if w.points = 0 then some w.initInfo
  else
    (w.setGO w.initInfo).bind fun start =>
      if start.2 then some start.1
      else
        (whileLoop w.goesOn (fun s => w.plotStep fuel s.1) fuel
          (start.1.read start.1.point, false)).map fun s =>
            if 1 < w.inc then w.drawLast s.1 else s.1

/-- The plot ends, reads samples of the trace, and decimated takes its extents over the samples of
the window outside of the gaps. -/
def Covers : Prop :=
  ∃ fuel info, w.plot fuel = some info ∧ (∀ i ∈ info.reads, 0 ≤ i ∧ i < w.numSamples) ∧
    (1 < w.inc →
      ∀ i, i ∈ info.drawn ↔ (w.first ≤ i ∧ i < w.lastPoint) ∧ w.lists.Valid i)

/-- A window with points inside a trace, and sorted disjoint lists. -/
structure WellFormed : Prop where
  inc : 1 ≤ w.inc
  points : w.points ≠ 0
  first : 0 ≤ w.first ∧ w.first < w.numSamples
  lastPoint : w.lastPoint ≤ w.numSamples
  lists : w.lists.Disjoint
  gaps_inside : ∀ g ∈ w.lists.gaps, 0 ≤ g.beg ∧ g.fin ≤ w.numSamples
  olaps_inside : ∀ o ∈ w.lists.olaps, 0 ≤ o.beg ∧ o.fin ≤ w.numSamples

end Plot

/-! ## When the window is covered -/

section Fits

variable (w : MagPlot)

/-- The first sample of the block of a sample. -/
def block (i : ℤ) : ℤ := w.first + w.inc * ((i - w.first) / w.inc)

/-- The block in which a gap is met: its own if it begins where the window or a gap before it left
off, else that of the sample in front of it. -/
def meets (g : Span) : ℤ :=
  if g.beg = w.first ∨ ∃ h ∈ w.lists.gaps, h.fin = g.beg then w.block g.beg else w.block (g.beg - 1)

/-- The gap begins in the window, in front of the last block. -/
def Inside (g : Span) : Prop := w.first ≤ g.beg ∧ w.meets g < w.lastPoint - w.inc

instance (g : Span) : Decidable (w.Inside g) := inferInstanceAs (Decidable (_ ∧ _))

/-- The line over the gap leads to another block, out of the drawing area. -/
def leaves (g : Span) : Bool :=
  decide (w.block g.fin ≠ w.meets g) && w.offArea (w.block g.fin) g.fin

/-- The gap that the plot ends at. -/
def leaving : Option Span := w.lists.gaps.find? fun g => decide (w.Inside g) && w.leaves g

/-- The gap that the window begins inside of, and the gaps of the window up to the one that the plot
ends at. -/
def Crossed (g : Span) : Prop :=
  g.beg < w.first ∧ w.first < g.fin ∨ w.Inside g ∧ ∀ h ∈ w.leaving, g.beg ≤ h.beg

/-- The gap that the window begins inside of is wider than the drawing area. -/
def Blank : Prop :=
  ∃ g ∈ w.lists.gaps, (g.beg < w.first ∧ w.first < g.fin) ∧ (g.fin - w.first) / w.inc ≠ 0 ∧
    w.marginRight < (g.fin - w.first) / w.inc + w.marginLeft

/-- The last block that begins in the window. -/
def gridEnd : ℤ := w.first + w.inc * (w.ndata / w.inc)

/-- The block in which the plot ends. -/
def lastBlock : ℤ := w.leaving.elim w.gridEnd fun g => w.block g.fin

/-- The samples of the last block from its first sample `last` on are that sample or count less than
`ndata - last`, and all samples that count less belong to the window and are valid. -/
def LastFits (last : ℤ) : Prop :=
  (w.first ≤ last ∧ last < w.lastPoint ∧ w.lists.Valid last) ∧
    (∀ i, 0 ≤ i → i < w.ndata - last → (w.first ≤ i ∧ i < w.lastPoint) ∧ w.lists.Valid i) ∧
      ∀ i, last < i → i < w.lastPoint → w.lists.Valid i → i < w.ndata - last

/-- With gaps and overlaps shown. -/
structure GapsFit : Prop where
  /-- Not all overlaps lie in front of the window. -/
  olaps : w.lists.olaps = [] ∨ ∃ o ∈ w.lists.olaps, w.first < o.fin
  blank : w.Blank → 1 < w.inc → ∀ i, w.first ≤ i → i < w.lastPoint → ¬ w.lists.Valid i
  /-- A window that begins in a gap begins behind its first sample and a block in front of its end,
  and the gap begins behind the first sample of the trace. -/
  start : ¬ w.Blank → ∀ g ∈ w.lists.gaps, g.beg ≤ w.first → w.first < g.fin →
    (1 < w.inc → g.beg < w.first ∧ w.inc ≤ g.fin - w.first) ∧ (g.beg < w.first → 1 ≤ g.beg)
  /-- Behind the gaps of the window is a sample. -/
  crossed : ¬ w.Blank → ∀ g ∈ w.lists.gaps, w.Crossed g →
    g.fin < w.numSamples ∧ (1 < w.inc → w.lists.Valid g.fin)
  last : ¬ w.Blank → 1 < w.inc → w.LastFits w.lastBlock

/-- When a window is covered. -/
def Fits : Prop :=
  if w.overlay then
    1 < w.inc → (∀ i, w.first ≤ i → i < w.gridEnd → w.lists.Valid i) ∧ w.LastFits w.gridEnd
  else w.GapsFit

end Fits

end MagPlot

end PQL
