import Mathlib.Data.List.Sort

/-!
# Groups of traces

`states.trace.traces` holds the previous, the current and the next page of the global list `traces`.
`dispList` computes one of them, `makeDispList` moves from page to page, `kill_trace` and
`kill_all_traces` remove traces, and `makeSelectionList` collects the selected traces of the current
page.
-/

namespace PQL.Display

/-! ## The state -/

/-- `settings.general.display.mode`. -/
inductive DisplayMode where
  | TRACEMODE
  | GATHERMODE
deriving DecidableEq, Repr

/-- The sorts of gather mode. -/
inductive GatherSort where
  | SORTSTARTTIME
  | SORTINSTID
deriving DecidableEq, Repr

structure Settings (τ : Type) where
  mode : DisplayMode
  numPlots : ℤ
  /-- The comparison of two traces by a criterion. -/
  listSort : GatherSort → τ → τ → ℤ
  /-- The second trace starts more than `spread` seconds after the first one. -/
  apart : τ → τ → Bool

structure State (τ : Type) where
  traces : List τ
  numTraces : ℤ
  /-- `position.original` and `position.current` of a trace. -/
  original : τ → ℤ
  current : τ → ℤ
  /-- `trace.selected` and `magnify.selected` of a trace. -/
  traceSelected : τ → Bool
  magnifySelected : τ → Bool
  prevGroup : List τ
  curGroup : List τ
  nextGroup : List τ
  /-- The pages before the previous one, in gather mode. -/
  prevList : List (List τ)
  startRec : ℤ
  selection : List τ
  numSelected : ℤ
  magnifySelection : List τ

inductive Group where
  | PREVGRP
  | CURGRP
  | NEXTGRP
deriving DecidableEq, Repr

/-- The commands of `makeDispList`. -/
inductive DispCommand where
  | INITGROUP
  | PREVGROUP
  | NEXTGROUP
deriving DecidableEq, Repr

variable {τ : Type}

/-- Nothing is selected and no page is made. -/
def State.ofTraces (traces : List τ) : State τ where
  traces
  numTraces := traces.length
  original _ := 0
  current _ := 0
  traceSelected _ := false
  magnifySelected _ := false
  prevGroup := []
  curGroup := []
  nextGroup := []
  prevList := []
  startRec := 0
  selection := []
  numSelected := 0
  magnifySelection := []

/-! ## Pages -/

/-- `g_slist_nth`; a negative position is one behind the end. -/
def gSlistNth (l : List τ) (n : ℤ) : List τ := if 0 ≤ n then l.drop n.toNat else []

/-- `position.current` after the traces of `l` are numbered from `i` on. -/
def renumber [DecidableEq τ] (current : τ → ℤ) : List τ → ℤ → τ → ℤ
  | [], _ => current
  | trc :: l, i => renumber (Function.update current trc i) l (i + 1)

/-- `g_slist_sort_with_data`. -/
def gSlistSort (compare : τ → τ → ℤ) (l : List τ) : List τ :=
  l.mergeSort fun a b => decide (compare a b ≤ 0)

section Pages

variable (cfg : Settings τ) (s : State τ)

/-- Where a page starts in trace mode; `-1` for no page. -/
def groupStart : Group → ℤ
  | .CURGRP => s.startRec
  | .PREVGRP =>
    if s.startRec = 0 then -1
    else if s.startRec - cfg.numPlots > 0 then s.startRec - cfg.numPlots else 0
  | .NEXTGRP =>
    if s.startRec + cfg.numPlots > s.numTraces then -1 else s.startRec + cfg.numPlots

/-- The page in trace mode. -/
def traceGroup (which : Group) : List τ :=
  if groupStart cfg s which = -1 then []
  else (gSlistNth s.traces (groupStart cfg s which)).take cfg.numPlots.toNat

/-- The traces that start together with the first one; the code reads the first one in any case. -/
def gathered : List τ → Option (List τ)
  | [] => none
  | first :: l => some ((first :: l).takeWhile fun trc => !cfg.apart first trc)

def State.setGroup (s : State τ) (l : List τ) : Group → State τ
  | .PREVGRP => { s with prevGroup := l }
  | .CURGRP => { s with curGroup := l }
  | .NEXTGRP => { s with nextGroup := l }

variable [DecidableEq τ]

/-- A gathered page, sorted, becomes the group. -/
def gatherGroup (startRec : ℤ) (which : Group) : Option (State τ) :=
  (gathered cfg (gSlistNth s.traces startRec)).map fun l =>
    let l := gSlistSort (cfg.listSort .SORTINSTID) l
    { s.setGroup l which with current := renumber s.current l s.startRec }

/-- `dispList`; `none` where it reads a trace that is not there. -/
def dispList (which : Group) : Option (State τ) :=
  match cfg.mode with
  | .TRACEMODE => some (s.setGroup (traceGroup cfg s which) which)
  | .GATHERMODE =>
    match which with
    | .CURGRP =>
      let traces := gSlistSort (cfg.listSort .SORTSTARTTIME) s.traces
      gatherGroup cfg { s with traces, current := renumber s.current traces s.startRec } 0 .CURGRP
    | .NEXTGRP =>
      -- The sum is unsigned: a negative one is greater than `numTraces`.
      if s.startRec + s.curGroup.length < 0 ∨ s.startRec + s.curGroup.length ≥ s.numTraces then
        some (s.setGroup [] .NEXTGRP)
      else gatherGroup cfg s (s.startRec + s.curGroup.length) .NEXTGRP
    | .PREVGRP =>
      match s.prevList with
      | [] => some (s.setGroup [] .PREVGRP)
      | page :: prevList => some { s with prevGroup := page, prevList := prevList }

/-- `makeDispList`. -/
def makeDispList : DispCommand → Option (State τ)
  | .INITGROUP =>
    (dispList cfg { s with prevList := [] } .CURGRP).bind fun s =>
      (dispList cfg s .PREVGRP).bind fun s => dispList cfg s .NEXTGRP
  | .PREVGROUP =>
    let startRec := s.startRec - s.prevGroup.length
    dispList cfg
      { s with
        startRec := if startRec < 0 then 0 else startRec
        nextGroup := s.curGroup
        curGroup := s.prevGroup } .PREVGRP
  | .NEXTGROUP =>
    dispList cfg
      { s with
        startRec := s.startRec + s.curGroup.length
        prevList := if cfg.mode = .GATHERMODE then s.prevGroup :: s.prevList else s.prevList
        prevGroup := s.curGroup
        curGroup := s.nextGroup } .NEXTGRP

end Pages

/-! ## Selections -/

section Selections

variable [DecidableEq τ] (s : State τ)

/-- `g_slist_insert_sorted` with `insSort`. -/
def insertSorted (current : τ → ℤ) (l : List τ) (trc : τ) : List τ :=
  l.orderedInsert (fun one two => current one - current two ≤ 0) trc

/-- `makeSelectionList`; it clears `states.magnify`. -/
def makeSelectionList (selectAll : Bool) : State τ :=
  let selection := (s.curGroup.filter fun trc => selectAll || s.traceSelected trc).foldl
    (insertSorted s.current) []
  { s with selection, numSelected := selection.length, magnifySelection := [] }

/-- `makeMAGSelectionList`. -/
def makeMAGSelectionList (selectAll : Bool) : State τ :=
  { s with
    magnifySelection := (s.selection.filter fun trc => selectAll || s.magnifySelected trc).foldl
      (insertSorted s.current) [] }

end Selections

/-! ## Removals -/

section Removals

variable [DecidableEq τ] (cfg : Settings τ) (s : State τ)

/-- `freeData` of a trace and its structure. -/
def freeTrace (s : State τ) (trc : τ) : State τ :=
  { s with traces := s.traces.erase trc, curGroup := s.curGroup.erase trc }

def killTrace (trc : τ) : State τ :=
  let s := freeTrace s trc
  { s with numTraces := s.traces.length }

/-- `kill_all_traces(ALL)`. -/
def killAllTraces : State τ :=
  let s := s.traces.foldl freeTrace s
  { s with numTraces := s.traces.length, selection := [] }

/-- `kill_all_traces(SELECTED)`. -/
def killSelectedTraces : State τ :=
  let s := s.selection.foldl freeTrace s
  let numTraces : ℤ := s.traces.length
  { s with
    selection := []
    numSelected := 0
    numTraces
    startRec := if s.startRec ≥ numTraces then numTraces - cfg.numPlots else s.startRec
    current := renumber s.current s.traces 0 }

end Removals

/-! ## The buttons of the trace screen -/

section Buttons

variable [DecidableEq τ] (cfg : Settings τ) (s : State τ)

/-- `selectT` for Select All and Deselect All. -/
def selectT (value : Bool) : State τ :=
  if s.numTraces = 0 then s
  else
    makeSelectionList
      { s with traceSelected := fun trc => if trc ∈ s.curGroup then value else s.traceSelected trc }
      false

/-- `selectT` for Remove. -/
def removeT : Option (State τ) :=
  if s.numTraces = 0 then some s else makeDispList cfg (killSelectedTraces cfg s) .INITGROUP

/-- `nextTrace`: the next page if `dir`, the previous one otherwise. -/
def nextTrace (dir : Bool) : Option (State τ) :=
  let s := selectT s false
  if dir then
    if s.nextGroup = [] then some s else makeDispList cfg s .NEXTGROUP
  else if s.prevGroup = [] then some s else makeDispList cfg s .PREVGROUP

/-- `restartTrace`, and the other jumps to a trace. -/
def restartTrace (startRec : ℤ) : Option (State τ) :=
  makeDispList cfg { s with startRec } .INITGROUP

/-- A click on the labels of traces, or a drag over them. -/
def selectTraces (trcs : List τ) : State τ :=
  makeSelectionList
    { s with traceSelected := fun trc => (trc ∈ trcs : Bool) ^^ s.traceSelected trc } false

/-- A click on the label of a magnified trace, or a transform of traces that deselects them. -/
def magnifySelect (magnifySelected : τ → Bool) : State τ :=
  makeMAGSelectionList { s with magnifySelected } false

end Buttons

end PQL.Display
