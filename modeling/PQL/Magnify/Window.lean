import PQL.Lib.Rounding
import PQL.Lib.Runs

/-!
# The magnify window

The selection of the magnify screen is moved by the mouse wheel, by keys, by the buttons and by
drags.  Each handler moves the two ends and clamps them; `magnify_proc` then draws the new selection
and takes over its length and its pixels.  Times and pixels are exact.
-/

namespace PQL.Magnify

/-! ## Graphs -/

/-- A `graph` with a linear time axis. -/
structure Graph where
  pixMin : ℤ
  pixMax : ℤ
  userMin : ℚ
  userMax : ℚ
deriving DecidableEq

/-- `PIX2USERX`. -/
def Graph.pix2user (gr : Graph) (x : ℤ) : ℚ :=
  ((x - gr.pixMin : ℤ) : ℚ) / ((gr.pixMax - gr.pixMin : ℤ) : ℚ) * (gr.userMax - gr.userMin) +
    gr.userMin

/-- `USER2PIXX`. -/
def Graph.user2pix (gr : Graph) (t : ℚ) : ℤ :=
  roundEven ((t - gr.userMin) / (gr.userMax - gr.userMin) * ((gr.pixMax - gr.pixMin : ℤ) : ℚ) +
    (gr.pixMin : ℚ))

/-! ## Settings and screens -/

inductive Anchor where
  | left
  | right
  | middle
  | mouse
deriving DecidableEq

/-- `settings.magnify`, with the range of the zoom factor in the controls. -/
structure Config where
  anchor : Anchor
  zoomFactor : ℤ
  scrollFactor : ℤ
  length : ℚ
  overlay : Bool
  zoomFactor_range : 10 ≤ zoomFactor ∧ zoomFactor ≤ 30

/-- `factors[anchor*2]`. -/
def Anchor.leftFactor : Anchor → ℚ
  | left => 0
  | right => 2
  | middle => 1
  | mouse => 1

/-- `factors[anchor*2+1]`. -/
def Anchor.rightFactor : Anchor → ℚ
  | left => 2
  | right => 0
  | middle => 1
  | mouse => 1

/-- What no handler changes: the pixels of the trace plots on the main and on the current screen,
the times of the traces, and the place of the magnify plot, whose right end depends on the number of
digits of the decimation. -/
structure Screen where
  mainPix : ℤ × ℤ
  currentPix : ℤ × ℤ
  /-- `states.trace.plot.length`. -/
  plotLength : ℚ
  relTimeLen : ℚ
  /-- The widths of the labels of the trace and of the magnify plots. -/
  traceLabel : ℤ
  magLabel : ℤ
  plotRight : ℚ → ℤ
  height : ℤ
  /-- The first pixel of the drawing area in the root window. -/
  originX : ℤ

def magTMargin : ℤ := 25

def magBMargin : ℤ := 30

def trcBMargin : ℤ := 30

def labelXtra : ℤ := 20

namespace Screen

variable (scr : Screen)

/-- `states.trace.GR[MAIN]`, as the trace plot sets it up. -/
def main : Graph := ⟨scr.mainPix.1, scr.mainPix.2, 0, scr.plotLength⟩

/-- `states.trace.GR[states.currentScreen]`. -/
def current : Graph := ⟨scr.currentPix.1, scr.currentPix.2, 0, scr.plotLength⟩

/-- The graph of a magnify plot. -/
def plot (left right length : ℚ) : Graph :=
  ⟨scr.magLabel + labelXtra, scr.plotRight length, left, right⟩

end Screen

/-! ## The state -/

/-- `states.user.event`, as far as the magnify screen sets it. -/
inductive UserEvent where
  | none
  | vline
  | zoom
  | xaxis
deriving DecidableEq

/-- `states.user.keyActive`, without the modifiers. -/
inductive Key where
  | none
  | z
  | x
deriving DecidableEq

structure View where
  /-- `states.magnify.limits.selection.user`. -/
  left : ℚ
  right : ℚ
  length : ℚ
  /-- `states.magnify.limits.selection.pix`, the vertical lines. -/
  pixLeft : ℤ
  pixRight : ℤ
  /-- `trcData->magnify.GR`. -/
  gr : Graph
  /-- `states.trace.limits.selection.pix`. -/
  traceLeft : ℤ
  traceRight : ℤ
  traceLength : ℤ
  event : UserEvent
  keyActive : Key
  mouseLeft : Bool
  dragXAxis : Bool
  startX : ℤ
  /-- The `zAnchor` of `magDrag`. -/
  zAnchor : ℚ

namespace View

variable (v : View)

/-- `states.magnify.limits.margin.left`. -/
def marginLeft : ℤ := v.gr.user2pix v.gr.userMin

/-- `states.magnify.limits.margin.right`. -/
def marginRight : ℤ := v.gr.user2pix v.gr.userMax

/-- `states.magnify.mainGR`. -/
def axis (scr : Screen) : Graph := ⟨v.marginLeft, v.marginRight, 0, scr.plotLength⟩

end View

section Handlers

variable (scr : Screen) (cfg : Config)

/-! ## Drawing -/

/-- `magnify_proc`. -/
def magnifyProc (v : View) : View :=
  let v :=
    if v.left = 0 ∧ v.right = 0 then
      let left := scr.current.pix2user v.traceLeft
      if v.traceRight = 0 then
        let right := left + cfg.length
        let right := if right > scr.plotLength then scr.plotLength else right
        { v with left, right, traceRight := scr.current.user2pix right }
      else { v with left, right := scr.current.pix2user v.traceRight }
    else if v.dragXAxis then v
    else
      { v with
        traceLeft := scr.current.user2pix v.left
        traceRight := scr.current.user2pix v.right }
  { v with
    length := v.right - v.left
    traceLength := v.traceRight - v.traceLeft
    pixLeft := 0
    pixRight := 0
    gr := scr.plot v.left v.right (v.right - v.left) }

/-- Breaches of the absolute bounds. -/
def clampTo (gr : Graph) (v : View) : View :=
  { v with
    left := if v.left < gr.userMin then gr.userMin else v.left
    right := if v.right > gr.userMax then gr.userMax else v.right }

/-- `reMag`. -/
def reMag (v : View) : View := magnifyProc scr cfg (clampTo scr.main v)

/-! ## Scrolling and zooming -/

/-- `checkScrollBounds`. -/
def checkScrollBounds (diffL diffR : ℚ) (v : View) : View × Bool :=
  let first :=
    if v.left + diffL < scr.main.userMin then
      ({ v with left := scr.main.userMin, right := scr.main.userMin + v.length }, true)
    else (v, false)
  if first.1.right + diffR > scr.main.userMax then
    ({ first.1 with
      right := scr.main.userMax
      left := scr.main.userMax - first.1.length }, true)
  else first

/-- A scroll of the wheel or of a key. -/
def scrollBy (scrollDir : ℤ) (v : View) : View :=
  let diff := v.length * cfg.scrollFactor / 100 * scrollDir
  let check := checkScrollBounds scr diff diff v
  if check.2 then reMag scr cfg check.1
  else reMag scr cfg { v with left := v.left + diff, right := v.right + diff }

/-- The ends after a zoom; `zAnchor` is the time at the mouse. -/
def zoomed (v : View) (zAnchor : ℚ) (zoomDir : ℤ) : ℚ × ℚ :=
  let diff := v.right - v.left
  let part := diff / ((Int.tdiv 100 cfg.zoomFactor : ℤ) : ℚ)
  match cfg.anchor with
  | .mouse =>
    (v.left + part * ((zAnchor - v.left) / (diff / 2)) * zoomDir,
      v.right + part * ((v.right - zAnchor) / (diff / 2)) * zoomDir * -1)
  | anchor =>
    (v.left + part * anchor.leftFactor * zoomDir,
      v.right + part * anchor.rightFactor * zoomDir * -1)

/-- A zoom of the wheel or of a key. -/
def zoomBy (zAnchor : ℚ) (zoomDir : ℤ) (v : View) : View :=
  let ends := zoomed cfg v zAnchor zoomDir
  reMag scr cfg { v with left := ends.1, right := ends.2 }

/-- What the wheel does at a place of the drawing area. -/
inductive WheelEvent where
  | scroll
  | zoom
  | replot
deriving DecidableEq

/-- The `evt` of `scrollEvent`. -/
def wheelEvent (x y : ℤ) (v : View) : WheelEvent :=
  if x < v.marginLeft ∧ y < scr.height - magBMargin ∧ magTMargin < y ∧ cfg.overlay then .replot
  else if y < magTMargin then .scroll
  else .zoom

/-- `scrollEvent`; `minDisp` is the result of `getMinDisp`. -/
def scrollEvent (up : Bool) (x y minDisp : ℤ) (v : View) : View :=
  if up ∧ minDisp < 3 then v
  else
    let zoomDir := if up then 1 else -1
    let scrollDir := if up then -1 else 1
    match wheelEvent scr cfg x y v with
    | .replot => v
    | .scroll => scrollBy scr cfg scrollDir v
    | .zoom => zoomBy scr cfg (v.gr.pix2user x) zoomDir v

/-! ## Vertical lines -/

inductive ZoomType where
  | abs
  | x
  | out
  | into
deriving DecidableEq

/-- `setMagBounds`. -/
def setMagBounds (type : ZoomType) (v : View) : View :=
  let part := (v.right - v.left) / ((Int.tdiv 100 cfg.zoomFactor : ℤ) : ℚ)
  let v :=
    match type with
    | .abs =>
      { v with
        left := scr.current.pix2user v.pixLeft
        right := scr.current.pix2user v.pixRight }
    | .x =>
      let ratio := 1 - ((v.pixRight - v.pixLeft : ℤ) : ℚ) /
        ((v.marginRight - v.marginLeft : ℤ) : ℚ)
      let diff := v.gr.pix2user v.pixRight - v.gr.pix2user v.pixLeft
      let middle := v.gr.pix2user v.pixRight - diff / 2
      let diff := v.right - v.left
      let diff := diff + ratio * diff
      let right := middle + diff / 2
      let left := middle - diff / 2
      { v with
        right := if right > scr.relTimeLen then scr.relTimeLen else right
        left := if left < 0 then 0 else left }
    | .out =>
      { v with
        left := v.left + part * cfg.anchor.leftFactor
        right := v.right + part * cfg.anchor.rightFactor * -1 }
    | .into =>
      { v with
        left := v.left + part * cfg.anchor.leftFactor * -1
        right := v.right + part * cfg.anchor.rightFactor }
  clampTo scr.main v

/-- The factors of `snapMag` for the two ends. -/
def snapFactors : Anchor → ℕ × ℕ
  | .left => (0, 2)
  | .right => (2, 0)
  | .middle => (1, 1)
  | .mouse => (1, 1)

/-- The ends of a `SNAP`; there are none when the right end is not a number. -/
def snapped (v : View) : Option (ℚ × ℚ) :=
  let factors := snapFactors cfg.anchor
  let line := v.gr.pix2user v.pixLeft
  let left := line - factors.1 * (v.length / 2)
  let ends :=
    if left < scr.main.userMin then
      -- 2.0/leftFact
      if factors.1 = 0 then none else some (0, 2 / factors.1 * line)
    else some (left, line + factors.2 * (v.length / 2))
  ends.map fun ends =>
    if ends.2 > scr.main.userMax then
      (scr.main.userMax - 2 * (scr.main.userMax - line), scr.main.userMax)
    else ends

inductive SnapType where
  | snap
  | mag
  | key
deriving DecidableEq

/-- `snapMag`. -/
def snapMag (type : SnapType) (v : View) : Option View :=
  if v.pixLeft = 0 then some v
  else
    let ends :=
      match type with
      | .snap => snapped scr cfg v
      | .mag => some (v.gr.pix2user v.pixLeft, v.gr.pix2user v.pixRight)
      | .key => some (v.left, v.right)
    ends.map fun ends => reMag scr cfg { v with left := ends.1, right := ends.2, pixLeft := 0 }

/-! ## Keys -/

inductive KeyVal where
  | up
  | down
  | left
  | right
  | z
  | x
  | other
deriving DecidableEq

/-- `keyEvent` for a key that is pressed; `rootX` is where the pointer is in the root window. -/
def keyEvent (key : KeyVal) (rootX minDisp : ℤ) (v : View) : View :=
  match key with
  | .up => if minDisp < 3 then v else zoomBy scr cfg (v.gr.pix2user rootX) 1 v
  | .down => zoomBy scr cfg (v.gr.pix2user rootX) (-1) v
  | .left => scrollBy scr cfg (-1) v
  | .right => scrollBy scr cfg 1 v
  | .z => { v with keyActive := .z }
  | .x => { v with keyActive := .x }
  | .other => { v with keyActive := .none }

/-- What the key that is held down does with the vertical lines. -/
def keyLines (v : View) : Option View :=
  match v.keyActive with
  | .none => some v
  | .z => if v.pixRight ≠ 0 then snapMag scr cfg .mag v else some v
  | .x => if v.pixRight ≠ 0 then snapMag scr cfg .key (setMagBounds scr cfg .x v) else some v

/-- `keyEvent` for a key that is released. -/
def keyRelease (v : View) : Option View :=
  (keyLines scr cfg v).map fun v => { v with keyActive := .none }

/-! ## The mouse -/

/-- A button press of `magMouse`. -/
def press (x y : ℤ) (v : View) : View :=
  let event :=
    if v.keyActive ≠ .none then .vline
    else if y < magTMargin then .xaxis
    else if v.marginLeft ≤ x ∧ x ≤ v.marginRight ∧ y < scr.height - magBMargin ∧ magTMargin < y then
      .vline
    else .none
  { v with mouseLeft := true, startX := x, event }

/-- A vertical line is set, the left one first. -/
def setLine (x : ℤ) (v : View) : View :=
  if v.pixLeft = 0 ∨ v.pixRight ≠ 0 then { v with pixLeft := x, pixRight := 0 }
  else if v.pixLeft > x then { v with pixLeft := x, pixRight := v.pixLeft }
  else { v with pixRight := if x = v.pixLeft then x + 1 else x }

/-- A click on the axis moves the selection to the side of the click. -/
def clickAxis (x : ℤ) (v : View) : View :=
  let x1 := (v.axis scr).user2pix v.left
  let x2 := (v.axis scr).user2pix v.right
  let direction : ℤ := if x1 + (x2 - x1).tdiv 2 > x then -1 else 1
  let jumpU := v.length * cfg.scrollFactor / 100 * direction
  let v := { v with left := v.left + jumpU, right := v.right + jumpU, pixLeft := 0, pixRight := 0 }
  let v :=
    if v.left < scr.current.userMin then
      let left := scr.current.pix2user scr.current.pixMin
      { v with
        traceLeft := scr.current.pixMin
        traceRight := scr.current.pixMin + v.traceLength
        left, right := left + v.length }
    else v
  let v :=
    if v.right > scr.current.userMax then
      let right := scr.current.pix2user scr.current.pixMax
      { v with
        traceRight := scr.current.pixMax
        traceLeft := scr.current.pixMax - v.traceLength
        right, left := right - v.length }
    else v
  magnifyProc scr cfg v

/-- A button release of `magMouse`. -/
def released (x : ℤ) (v : View) : View :=
  match v.event with
  | .vline => setLine x v
  | .xaxis => if v.dragXAxis then { v with dragXAxis := false } else clickAxis scr cfg x v
  | _ => v

/-- A button release of `mouseEvent`. -/
def release (x : ℤ) (v : View) : Option View :=
  keyLines scr cfg (released scr cfg x { v with mouseLeft := false })

/-- The `ZOOM` of `magDrag`. -/
def dragZoom (x minDisp : ℤ) (v : View) : View :=
  if x > v.startX ∧ minDisp < 3 then v
  else
    let zoomDir := if x > v.startX then 1 else -1
    let ends := zoomed cfg v v.zAnchor zoomDir
    magnifyProc scr cfg
      (clampTo scr.current { v with left := ends.1, right := ends.2, startX := x })

/-- The pixels of the trace plot that the selection is dragged to along the axis. -/
def dragged (x : ℤ) (v : View) : ℤ × ℤ :=
  let x1 := (v.axis scr).user2pix v.left
  let x2 := (v.axis scr).user2pix v.right
  let diff := x2 - x1
  let x1 := x - diff.tdiv 2
  (scr.current.user2pix ((v.axis scr).pix2user x1),
    scr.current.user2pix ((v.axis scr).pix2user (x1 + diff)))

/-- A drag along the axis begins outside of the selection. -/
def MissesAxis (x : ℤ) (v : View) : Prop :=
  (x < (v.axis scr).user2pix v.left ∨ x > (v.axis scr).user2pix v.right) ∧ ¬ v.dragXAxis

instance (x : ℤ) (v : View) : Decidable (MissesAxis scr x v) :=
  inferInstanceAs (Decidable (_ ∧ _))

/-- The `XAXIS` of `magDrag`. -/
def dragAxis (x : ℤ) (v : View) : View :=
  if MissesAxis scr x v then v
  else
    let pix := dragged scr x v
    let pix :=
      if pix.1 < scr.current.pixMin then
        (scr.current.pixMin, scr.current.pixMin + v.traceLength)
      else pix
    let pix :=
      if pix.2 > scr.current.pixMax then
        (scr.current.pixMax - v.traceLength, scr.current.pixMax)
      else pix
    magnifyProc scr cfg
      { v with
        dragXAxis := true
        startX := x
        traceLeft := pix.1
        traceRight := pix.2
        left := scr.current.pix2user pix.1
        right := scr.current.pix2user pix.2 }

/-- The begin of a drag, which fixes what it does. -/
def beginDrag (x y : ℤ) (v : View) : View :=
  if x ≤ v.marginRight ∧ v.event = .vline then
    if y < magTMargin ∨ v.dragXAxis then { v with event := .xaxis }
    else if y < scr.height - magBMargin then
      { v with event := .zoom, zAnchor := v.gr.pix2user x }
    else v
  else v

/-- A motion in the labels or without the button. -/
def DragIgnored (x y : ℤ) (v : View) : Prop :=
  (x ≤ scr.traceLabel + 7 ∧ y ≤ scr.height - trcBMargin) ∨ ¬ v.mouseLeft

instance (x y : ℤ) (v : View) : Decidable (DragIgnored scr x y v) :=
  inferInstanceAs (Decidable (_ ∨ _))

/-- `dragEvent` and `magDrag`. -/
def drag (x y minDisp : ℤ) (v : View) : View :=
  if DragIgnored scr x y v then v
  else
    let v := beginDrag scr x y { v with keyActive := .none }
    match v.event with
    | .zoom => dragZoom scr cfg x minDisp v
    | .xaxis => dragAxis scr cfg x v
    | _ => v

/-! ## Runs -/

inductive Event where
  | wheel (up : Bool) (x y minDisp : ℤ)
  | key (key : KeyVal) (rootX minDisp : ℤ)
  | keyRelease
  | snap
  | mag
  | press (x y : ℤ)
  | release (x : ℤ)
  | drag (x y minDisp : ℤ)

/-- An event, with the settings when it happens. -/
structure Input where
  cfg : Config
  event : Event

/-- The buttons are shown by the number of vertical lines. -/
def step (v : View) (input : Input) : Option View :=
  match input.event with
  | .wheel up x y minDisp => some (scrollEvent scr input.cfg up x y minDisp v)
  | .key key rootX minDisp => some (keyEvent scr input.cfg key rootX minDisp v)
  | .keyRelease => keyRelease scr input.cfg v
  | .snap => if v.pixRight = 0 then snapMag scr input.cfg .snap v else some v
  | .mag => if v.pixRight ≠ 0 then snapMag scr input.cfg .mag v else some v
  | .press x y => some (press scr x y v)
  | .release x => release scr input.cfg x v
  | .drag x y minDisp => some (drag scr input.cfg x y minDisp v)

end Handlers

end PQL.Magnify
