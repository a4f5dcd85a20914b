import PQL.Magnify.Window

/-!
# Runs of the magnify window

In every run of the wheel, the keys, the buttons and the mouse whose steps all meet `Fits` the
selection stays in the range of the trace plot with its ends in order, a scroll keeps its length,
and a zoom with the mouse as its anchor keeps the anchored time in its place (`magnify_window`).
-/

namespace PQL.Magnify

/-! ## The property -/

/-- The selection has its ends in order and inside the range. -/
def InBounds (scr : Screen) (v : View) : Prop :=
  scr.main.userMin ≤ v.left ∧ v.left < v.right ∧ v.right ≤ scr.main.userMax

/-- The input scrolls. -/
def Scrolls (scr : Screen) (v : View) (input : Input) : Prop :=
  match input.event with
  | .wheel _ x y _ => wheelEvent scr input.cfg x y v = .scroll
  | .key key _ _ => key = .left ∨ key = .right
  | .release _ => v.event = .xaxis ∧ v.dragXAxis = false
  | _ => False

/-- The input zooms with the mouse as anchor; `z` is the time at the mouse, and for a drag where the
drag began. -/
def Anchors (scr : Screen) (v : View) (input : Input) (z : ℚ) : Prop :=
  input.cfg.anchor = .mouse ∧
    match input.event with
    | .wheel _ x y _ => wheelEvent scr input.cfg x y v = .zoom ∧ z = v.gr.pix2user x
    | .key key rootX _ =>
      (key = .up ∨ key = .down) ∧ z = v.gr.pix2user (rootX - scr.originX)
    | .drag x y _ =>
      (beginDrag scr x y { v with keyActive := .none }).event = .zoom ∧
        z = (beginDrag scr x y { v with keyActive := .none }).zAnchor
    | _ => False

/-- What a step from `v` to `v'` keeps. -/
structure StepKeeps (scr : Screen) (v : View) (input : Input) (v' : View) : Prop where
  inBounds : InBounds scr v'
  scroll : Scrolls scr v input → v'.right - v'.left = v.right - v.left
  anchor : ∀ z, Anchors scr v input z → scr.main.userMin < v'.left →
    v'.right < scr.main.userMax →
      (z - v'.left) / (v'.right - v'.left) = (z - v.left) / (v.right - v.left)

/-! ## When a step keeps it -/

/-- The anchor is not so far outside of the selection that an end passes the opposite bound. -/
def AnchorFits (scr : Screen) (cfg : Config) (v : View) (z : ℚ) (zoomDir : ℤ) : Prop :=
  cfg.anchor = .mouse →
    2 * zoomDir * (z - v.left) < (Int.tdiv 100 cfg.zoomFactor : ℤ) * (scr.main.userMax - v.left) ∧
      2 * zoomDir * (v.right - z) < (Int.tdiv 100 cfg.zoomFactor : ℤ) * (v.right - scr.main.userMin)

/-- The time of the vertical line lies inside the range. -/
def SnapFits (scr : Screen) (cfg : Config) (v : View) : Prop :=
  match cfg.anchor with
  | .left => 0 ≤ v.gr.pix2user v.pixLeft ∧ v.gr.pix2user v.pixLeft < scr.plotLength
  | .right =>
    (0 < v.gr.pix2user v.pixLeft ∨ v.gr.pix2user v.pixLeft = 0 ∧ v.traceLeft < v.traceRight) ∧
      v.gr.pix2user v.pixLeft ≤ scr.plotLength
  | _ =>
    (0 < v.gr.pix2user v.pixLeft ∨ v.gr.pix2user v.pixLeft = 0 ∧ v.traceLeft < v.traceRight) ∧
      v.gr.pix2user v.pixLeft < scr.plotLength

/-- The selection between the two lines meets the range. -/
def MagFits (scr : Screen) (v : View) : Prop :=
  v.gr.pix2user v.pixLeft < scr.plotLength ∧ 0 < v.gr.pix2user v.pixRight

/-- The lines are less than two widths of the plot apart, and a selection around their middle that
is longer by what they leave free begins in front of the end of the longest trace. -/
def GrowFits (scr : Screen) (v : View) : Prop :=
  let share : ℚ := (v.pixRight - v.pixLeft : ℤ) / (v.marginRight - v.marginLeft : ℤ)
  let middle := (v.gr.pix2user v.pixLeft + v.gr.pix2user v.pixRight) / 2
  share < 2 ∧ middle < scr.relTimeLen + (v.right - v.left) * (2 - share) / 2 ∧
    0 < middle + (v.right - v.left) * (2 - share) / 2

/-- What the key that is held down does with the lines. -/
def LinesFit (scr : Screen) (v : View) : Prop :=
  match v.keyActive with
  | .none => True
  | .z => v.pixRight ≠ 0 → v.pixLeft ≠ 0 → MagFits scr v
  | .x => v.pixRight ≠ 0 → v.pixLeft ≠ 0 ∧ GrowFits scr v

/-- The ends of the selection, moved along the axis, are different pixels of the trace plot, and so
were its ends where a bound is hit. -/
def AxisFits (scr : Screen) (v : View) (x : ℤ) : Prop :=
  if scr.current.pixMin ≤ (dragged scr x v).1 ∧ (dragged scr x v).2 ≤ scr.current.pixMax then
    (dragged scr x v).1 < (dragged scr x v).2
  else v.traceLeft < v.traceRight

def Fits (scr : Screen) (v : View) (input : Input) : Prop :=
  match input.event with
  | .wheel up x y minDisp =>
    ¬ (up ∧ minDisp < 3) → wheelEvent scr input.cfg x y v = .zoom →
      AnchorFits scr input.cfg v (v.gr.pix2user x) (if up then 1 else -1)
  | .key .up rootX minDisp =>
    ¬ minDisp < 3 → AnchorFits scr input.cfg v (v.gr.pix2user rootX) 1 ∧
      (input.cfg.anchor = .mouse → scr.originX = 0)
  | .key .down rootX _ =>
    AnchorFits scr input.cfg v (v.gr.pix2user rootX) (-1) ∧
      (input.cfg.anchor = .mouse → scr.originX = 0)
  | .keyRelease => LinesFit scr v
  | .snap => v.pixRight = 0 → v.pixLeft ≠ 0 → SnapFits scr input.cfg v
  | .mag => v.pixRight ≠ 0 → v.pixLeft ≠ 0 → MagFits scr v
  | .release x => LinesFit scr (released scr input.cfg x { v with mouseLeft := false })
  | .drag x y minDisp =>
    ¬ DragIgnored scr x y v →
      let v := beginDrag scr x y { v with keyActive := .none }
      match v.event with
      | .zoom =>
        ¬ (x > v.startX ∧ minDisp < 3) →
          AnchorFits scr input.cfg v v.zAnchor (if x > v.startX then 1 else -1)
      | .xaxis => ¬ MissesAxis scr x v → AxisFits scr v x
      | _ => True
  | _ => True

/-! ## The invariant -/

structure Screen.WellFormed (scr : Screen) : Prop where
  plotLength : 0 < scr.plotLength
  relTimeLen : 0 < scr.relTimeLen ∧ scr.relTimeLen ≤ scr.plotLength
  current : 0 < scr.current.pixMin ∧ scr.current.pixMin < scr.current.pixMax
  plot : ∀ length, scr.magLabel + labelXtra < scr.plotRight length

/-- The pixels of the selection lie on the trace plot. -/
def OnTrace (scr : Screen) (v : View) : Prop :=
  scr.current.pixMin ≤ v.traceLeft ∧ v.traceLeft ≤ v.traceRight ∧
    v.traceRight ≤ scr.current.pixMax

/-- The selection is drawn. -/
structure Drawn (scr : Screen) (v : View) : Prop where
  inBounds : InBounds scr v
  length : v.length = v.right - v.left
  plot : v.gr.pixMin < v.gr.pixMax ∧ v.gr.userMin < v.gr.userMax
  lines : v.pixRight ≠ 0 → v.pixLeft < v.pixRight
  onTrace : OnTrace scr v
  traceLength : v.traceLength = v.traceRight - v.traceLeft

variable {scr : Screen} {cfg : Config} {v : View}

/-! ### Graphs -/

theorem Graph.user2pix_mono {gr : Graph} (hpix : gr.pixMin < gr.pixMax)
    (huser : gr.userMin < gr.userMax) {s t : ℚ} (h : s ≤ t) : gr.user2pix s ≤ gr.user2pix t := by
  apply roundEven_mono
  have hwidth : (0 : ℚ) < gr.userMax - gr.userMin := sub_pos.2 huser
  have hpixels : (0 : ℚ) ≤ ((gr.pixMax - gr.pixMin : ℤ) : ℚ) := by
    exact_mod_cast (sub_pos.2 hpix).le
  gcongr

theorem Graph.user2pix_userMin (gr : Graph) : gr.user2pix gr.userMin = gr.pixMin := by
  rw [Graph.user2pix, sub_self, zero_div, zero_mul, zero_add, roundEven_intCast]

theorem Graph.user2pix_userMax {gr : Graph} (huser : gr.userMin < gr.userMax) :
    gr.user2pix gr.userMax = gr.pixMax := by
  have hwidth : gr.userMax - gr.userMin ≠ 0 := (sub_pos.2 huser).ne'
  rw [Graph.user2pix, div_self hwidth, one_mul, ← Int.cast_add, sub_add_cancel, roundEven_intCast]

theorem Graph.pix2user_strictMono {gr : Graph} (hpix : gr.pixMin < gr.pixMax)
    (huser : gr.userMin < gr.userMax) {x y : ℤ} (h : x < y) :
    gr.pix2user x < gr.pix2user y := by
  have hwidth : (0 : ℚ) < gr.userMax - gr.userMin := sub_pos.2 huser
  have hpixels : (0 : ℚ) < ((gr.pixMax - gr.pixMin : ℤ) : ℚ) := by
    exact_mod_cast sub_pos.2 hpix
  have hlt : ((x - gr.pixMin : ℤ) : ℚ) < ((y - gr.pixMin : ℤ) : ℚ) := by
    exact_mod_cast sub_lt_sub_right h _
  unfold Graph.pix2user
  gcongr

theorem Graph.pix2user_pixMin (gr : Graph) : gr.pix2user gr.pixMin = gr.userMin := by
  rw [Graph.pix2user, sub_self, Int.cast_zero, zero_div, zero_mul, zero_add]

theorem Graph.pix2user_pixMax {gr : Graph} (hpix : gr.pixMin < gr.pixMax) :
    gr.pix2user gr.pixMax = gr.userMax := by
  have hpixels : ((gr.pixMax - gr.pixMin : ℤ) : ℚ) ≠ 0 := by
    exact_mod_cast (sub_pos.2 hpix).ne'
  rw [Graph.pix2user, div_self hpixels, one_mul, sub_add_cancel]

/-! ### Drawing -/

/-- Different pixels of the trace plot are a selection. -/
theorem inBounds_pix2user (hscr : scr.WellFormed) {x y : ℤ} (hx : scr.current.pixMin ≤ x)
    (hlt : x < y) (hy : y ≤ scr.current.pixMax) :
    0 ≤ scr.current.pix2user x ∧ scr.current.pix2user x < scr.current.pix2user y ∧
      scr.current.pix2user y ≤ scr.plotLength := by
  have hmono : StrictMono scr.current.pix2user :=
    fun _ _ h => Graph.pix2user_strictMono hscr.current.2 hscr.plotLength h
  refine ⟨?_, hmono hlt, ?_⟩
  · exact (Graph.pix2user_pixMin scr.current).ge.trans (hmono.monotone hx)
  · exact (hmono.monotone hy).trans (Graph.pix2user_pixMax hscr.current.2).le

theorem magnifyProc_drawn (cfg : Config) (hscr : scr.WellFormed) (h : InBounds scr v)
    (htrace : v.dragXAxis = true → OnTrace scr v) :
    Drawn scr (magnifyProc scr cfg v) ∧ (magnifyProc scr cfg v).left = v.left ∧
      (magnifyProc scr cfg v).right = v.right := by
  have hzero : ¬ (v.left = 0 ∧ v.right = 0) := by
    rintro ⟨hl, hr⟩
    exact h.2.1.ne (hl.trans hr.symm)
  have hmono : Monotone scr.current.user2pix :=
    fun _ _ hle => Graph.user2pix_mono hscr.current.2 hscr.plotLength hle
  unfold magnifyProc
  rw [if_neg hzero]
  by_cases hdrag : v.dragXAxis = true
  · rw [if_pos hdrag]
    exact ⟨⟨h, rfl, ⟨hscr.plot _, h.2.1⟩, fun hne => absurd rfl hne, htrace hdrag, rfl⟩, rfl, rfl⟩
  · rw [if_neg hdrag]
    refine ⟨⟨h, rfl, ⟨hscr.plot _, h.2.1⟩, fun hne => absurd rfl hne, ⟨?_, ?_, ?_⟩, rfl⟩, rfl, rfl⟩
    · exact (Graph.user2pix_userMin scr.current).ge.trans (hmono h.1)
    · exact hmono h.2.1.le
    · exact (hmono h.2.2).trans (Graph.user2pix_userMax hscr.plotLength).le

/-- A selection without a length at the begin is taken from the trace plot again. -/
theorem magnifyProc_restores (hscr : scr.WellFormed) (hleft : v.left = 0) (hright : v.right = 0)
    (htrace : OnTrace scr v) (hlt : v.traceLeft < v.traceRight) :
    Drawn scr (magnifyProc scr cfg v) := by
  have hbounds := inBounds_pix2user hscr htrace.1 hlt htrace.2.2
  have hne : v.traceRight ≠ 0 := by
    have hpos := hscr.current.1
    have hle := htrace.1
    omega
  unfold magnifyProc
  rw [if_pos ⟨hleft, hright⟩]
  dsimp only
  rw [if_neg hne]
  exact ⟨hbounds, rfl, ⟨hscr.plot _, hbounds.2.1⟩, fun hne => absurd rfl hne, htrace, rfl⟩

/-- Ends that are in order and not both behind one bound are clamped to a selection. -/
theorem clampTo_inBounds {gr : Graph} (hmin : gr.userMin = 0) (hmax : gr.userMax = scr.plotLength)
    (hscr : scr.WellFormed) (hlt : v.left < v.right) (hleft : v.left < scr.plotLength)
    (hright : 0 < v.right) : InBounds scr (clampTo gr v) := by
  have hlength := hscr.plotLength
  show 0 ≤ (if v.left < gr.userMin then gr.userMin else v.left) ∧
    (if v.left < gr.userMin then gr.userMin else v.left) <
      (if v.right > gr.userMax then gr.userMax else v.right) ∧
    (if v.right > gr.userMax then gr.userMax else v.right) ≤ scr.plotLength
  rw [hmin, hmax]
  split_ifs <;> refine ⟨?_, ?_, ?_⟩ <;> linarith

theorem clampTo_left {gr : Graph} (hmin : gr.userMin = 0) (h : 0 < (clampTo gr v).left) :
    (clampTo gr v).left = v.left := by
  change 0 < (if v.left < gr.userMin then gr.userMin else v.left) at h
  show (if v.left < gr.userMin then gr.userMin else v.left) = v.left
  rw [hmin] at h ⊢
  split_ifs at h ⊢ with hlt
  · exact absurd h (lt_irrefl 0)
  · rfl

theorem clampTo_right {gr : Graph} (hmax : gr.userMax = scr.plotLength)
    (h : (clampTo gr v).right < scr.plotLength) : (clampTo gr v).right = v.right := by
  change (if v.right > gr.userMax then gr.userMax else v.right) < _ at h
  show (if v.right > gr.userMax then gr.userMax else v.right) = v.right
  rw [hmax] at h ⊢
  split_ifs at h ⊢ with hlt
  · exact absurd h (lt_irrefl _)
  · rfl

theorem clampTo_of_inBounds {gr : Graph} (hmin : gr.userMin = 0)
    (hmax : gr.userMax = scr.plotLength) (h : InBounds scr v) : clampTo gr v = v := by
  have hleft : ¬ v.left < 0 := not_lt.2 h.1
  have hright : ¬ v.right > scr.plotLength := not_lt.2 h.2.2
  unfold clampTo
  rw [hmin, hmax, if_neg hleft, if_neg hright]

theorem reMag_of_inBounds (h : InBounds scr v) : reMag scr cfg v = magnifyProc scr cfg v := by
  rw [reMag, clampTo_of_inBounds rfl rfl h]

/-! ### Scrolls -/

/-- A bound is hit and the selection is moved there, or the scroll keeps to the range. -/
theorem checkScrollBounds_cases (h : Drawn scr v) (diff : ℚ) :
    (∃ left right, checkScrollBounds scr diff diff v = ({ v with left, right }, true) ∧
        (0 ≤ left ∧ left < right ∧ right ≤ scr.plotLength) ∧ right - left = v.right - v.left) ∨
      checkScrollBounds scr diff diff v = (v, false) ∧ 0 ≤ v.left + diff ∧
        v.right + diff ≤ scr.plotLength := by
  obtain ⟨hleft, hlt, hright⟩ := h.inBounds
  change 0 ≤ v.left at hleft
  change v.right ≤ scr.plotLength at hright
  have hlength := h.length
  unfold checkScrollBounds Screen.main
  dsimp only
  by_cases hfirst : v.left + diff < 0
  · -- at the begin the end does not pass the other bound
    have hend : ¬ 0 + v.length + diff > scr.plotLength := by linarith
    rw [if_pos hfirst]
    dsimp only
    rw [if_neg hend]
    refine .inl ⟨_, _, rfl, ⟨le_rfl, ?_, ?_⟩, ?_⟩ <;> linarith
  · rw [if_neg hfirst]
    dsimp only
    by_cases hend : v.right + diff > scr.plotLength
    · rw [if_pos hend]
      refine .inl ⟨_, _, rfl, ⟨?_, ?_, le_rfl⟩, ?_⟩ <;> linarith
    · rw [if_neg hend]
      exact .inr ⟨rfl, not_lt.1 hfirst, not_lt.1 hend⟩

/-- A selection in the range that replaces the one that is drawn. -/
theorem Drawn.reMag (cfg : Config) (hscr : scr.WellFormed) (h : Drawn scr v) {left right : ℚ}
    (hleft : 0 ≤ left) (hlt : left < right) (hright : right ≤ scr.plotLength) :
    Drawn scr (reMag scr cfg { v with left, right }) ∧
      (Magnify.reMag scr cfg { v with left, right }).right -
        (Magnify.reMag scr cfg { v with left, right }).left = right - left := by
  have hbounds : InBounds scr { v with left, right } := ⟨hleft, hlt, hright⟩
  rw [reMag_of_inBounds hbounds]
  obtain ⟨hdrawn, hl, hr⟩ := magnifyProc_drawn cfg hscr hbounds fun _ => h.onTrace
  exact ⟨hdrawn, by rw [hl, hr]⟩

theorem scrollBy_keeps (cfg : Config) (hscr : scr.WellFormed) (h : Drawn scr v) (scrollDir : ℤ) :
    Drawn scr (scrollBy scr cfg scrollDir v) ∧
      (scrollBy scr cfg scrollDir v).right - (scrollBy scr cfg scrollDir v).left =
        v.right - v.left := by
  obtain ⟨hleft, hlt, hright⟩ := h.inBounds
  unfold scrollBy
  dsimp only
  rcases checkScrollBounds_cases h (v.length * cfg.scrollFactor / 100 * scrollDir) with
    ⟨left, right, hcheck, ⟨hleft', hlt', hright'⟩, hwidth⟩ | ⟨hcheck, hleft', hright'⟩
  · rw [hcheck, if_pos rfl, ← hwidth]
    exact h.reMag cfg hscr hleft' hlt' hright'
  · rw [hcheck, if_neg Bool.false_ne_true]
    obtain ⟨hdrawn, hwidth⟩ := h.reMag cfg hscr hleft' (add_lt_add_left hlt _) hright'
    exact ⟨hdrawn, hwidth.trans (add_sub_add_right_eq_sub _ _ _)⟩

/-! ### Zooms -/

theorem Config.two_lt_parts (cfg : Config) : (2 : ℚ) < ((Int.tdiv 100 cfg.zoomFactor : ℤ) : ℚ) := by
  obtain ⟨hlow, hhigh⟩ := cfg.zoomFactor_range
  have hdiv : Int.tdiv 100 cfg.zoomFactor = 100 / cfg.zoomFactor :=
    Int.tdiv_eq_ediv_of_nonneg (by norm_num)
  have hle : 3 ≤ 100 / cfg.zoomFactor := (Int.le_ediv_iff_mul_le (by omega)).2 (by omega)
  rw [hdiv]
  exact_mod_cast (by omega : 2 < 100 / cfg.zoomFactor)

/-- The time that stays where it is. -/
def anchorTime (cfg : Config) (v : View) (zAnchor : ℚ) : ℚ :=
  match cfg.anchor with
  | .left => v.left
  | .right => v.right
  | .middle => (v.left + v.right) / 2
  | .mouse => zAnchor

/-- Every zoom moves the ends to their anchor or away from it. -/
theorem zoomed_eq (hlt : v.left < v.right) (z : ℚ) (zoomDir : ℤ) :
    zoomed cfg v z zoomDir =
      (v.left + 2 * zoomDir * (anchorTime cfg v z - v.left) / (Int.tdiv 100 cfg.zoomFactor : ℤ),
        v.right - 2 * zoomDir * (v.right - anchorTime cfg v z) /
          (Int.tdiv 100 cfg.zoomFactor : ℤ)) := by
  have hparts : ((Int.tdiv 100 cfg.zoomFactor : ℤ) : ℚ) ≠ 0 :=
    (zero_lt_two.trans cfg.two_lt_parts).ne'
  have hdiff : v.right - v.left ≠ 0 := (sub_pos.2 hlt).ne'
  unfold zoomed anchorTime
  cases cfg.anchor <;> refine Prod.ext ?_ ?_ <;>
    simp only [Anchor.leftFactor, Anchor.rightFactor] <;> field_simp <;> ring

/-- An anchor that is an end or the middle of the selection fits. -/
theorem anchorTime_fits (h : InBounds scr v) {z : ℚ} {zoomDir : ℤ}
    (hdir : zoomDir = 1 ∨ zoomDir = -1) (hfits : AnchorFits scr cfg v z zoomDir) :
    2 * zoomDir * (anchorTime cfg v z - v.left) <
        (Int.tdiv 100 cfg.zoomFactor : ℤ) * (scr.plotLength - v.left) ∧
      2 * zoomDir * (v.right - anchorTime cfg v z) <
        (Int.tdiv 100 cfg.zoomFactor : ℤ) * v.right := by
  by_cases hmouse : cfg.anchor = .mouse
  · obtain ⟨hleft, hright⟩ := hfits hmouse
    have htime : anchorTime cfg v z = z := by rw [anchorTime, hmouse]
    rw [htime]
    exact ⟨hleft, hright.trans_eq (by rw [Screen.main, sub_zero])⟩
  · obtain ⟨hleft, hlt, hright⟩ := h
    change 0 ≤ v.left at hleft
    change v.right ≤ scr.plotLength at hright
    have hparts := cfg.two_lt_parts
    have htime : v.left ≤ anchorTime cfg v z ∧ anchorTime cfg v z ≤ v.right := by
      unfold anchorTime
      cases hanchor : cfg.anchor with
      | left => exact ⟨le_rfl, hlt.le⟩
      | right => exact ⟨hlt.le, le_rfl⟩
      | middle => exact ⟨by linarith, by linarith⟩
      | mouse => exact absurd hanchor hmouse
    have hroom : 2 * (scr.plotLength - v.left) <
        (Int.tdiv 100 cfg.zoomFactor : ℤ) * (scr.plotLength - v.left) :=
      mul_lt_mul_of_pos_right hparts (by linarith)
    have hroom' : 2 * v.right < (Int.tdiv 100 cfg.zoomFactor : ℤ) * v.right :=
      mul_lt_mul_of_pos_right hparts (by linarith)
    obtain ⟨hlow, hhigh⟩ := htime
    rcases hdir with rfl | rfl
    · push_cast
      exact ⟨by linarith, by linarith⟩
    · push_cast
      exact ⟨by linarith, by linarith⟩

/-- A zoom of a selection, clamped and drawn. -/
theorem zoom_keeps (gr : Graph) (hscr : scr.WellFormed) (h : InBounds scr v) {z : ℚ}
    {zoomDir : ℤ} (hdir : zoomDir = 1 ∨ zoomDir = -1) (hfits : AnchorFits scr cfg v z zoomDir)
    (hmin : gr.userMin = 0) (hmax : gr.userMax = scr.plotLength) {w : View}
    (hleft : w.left = (zoomed cfg v z zoomDir).1) (hright : w.right = (zoomed cfg v z zoomDir).2)
    (htrace : OnTrace scr w) :
    Drawn scr (magnifyProc scr cfg (clampTo gr w)) ∧
      (cfg.anchor = .mouse → 0 < (magnifyProc scr cfg (clampTo gr w)).left →
        (magnifyProc scr cfg (clampTo gr w)).right < scr.plotLength →
          (z - (magnifyProc scr cfg (clampTo gr w)).left) /
              ((magnifyProc scr cfg (clampTo gr w)).right -
                (magnifyProc scr cfg (clampTo gr w)).left) =
            (z - v.left) / (v.right - v.left)) := by
  have hlt := h.2.1
  have hparts := cfg.two_lt_parts
  obtain ⟨hfirst, hsecond⟩ := anchorTime_fits h hdir hfits
  rw [zoomed_eq hlt] at hleft hright
  generalize ((Int.tdiv 100 cfg.zoomFactor : ℤ) : ℚ) = q at *
  have hq : 0 < q := zero_lt_two.trans hparts
  have hdirs : (2 : ℚ) * zoomDir ≤ 2 := by
    rcases hdir with rfl | rfl <;> norm_num
  have hscale : 0 < 1 - 2 * zoomDir / q := by
    rw [sub_pos, div_lt_one hq]
    exact hdirs.trans_lt hparts
  have hwidth : w.right - w.left = (v.right - v.left) * (1 - 2 * zoomDir / q) := by
    rw [hleft, hright]
    ring
  have horder : w.left < w.right := by
    have hpos : 0 < w.right - w.left := by
      rw [hwidth]
      exact mul_pos (sub_pos.2 hlt) hscale
    exact sub_pos.1 hpos
  have hbefore : w.left < scr.plotLength := by
    rw [hleft, ← lt_sub_iff_add_lt', div_lt_iff₀ hq, mul_comm _ q]
    exact hfirst
  have hbehind : 0 < w.right := by
    rw [hright, sub_pos, div_lt_iff₀ hq, mul_comm _ q]
    exact hsecond
  obtain ⟨hdrawn, hl, hr⟩ := magnifyProc_drawn cfg hscr
    (clampTo_inBounds hmin hmax hscr horder hbefore hbehind) fun _ => htrace
  refine ⟨hdrawn, fun hmouse hpos hend => ?_⟩
  rw [hl] at hpos
  rw [hr] at hend
  have htime : anchorTime cfg v z = z := by rw [anchorTime, hmouse]
  rw [hl, hr, clampTo_left hmin hpos, clampTo_right hmax hend, hwidth, hleft, htime]
  have hnum : z - (v.left + 2 * zoomDir * (z - v.left) / q) =
      (z - v.left) * (1 - 2 * zoomDir / q) := by ring
  rw [hnum, mul_div_mul_right _ _ hscale.ne']

/-! ### Vertical lines -/

/-- Ends that `reMag` clamps to a selection, or that are both at the begin. -/
def EndsFit (scr : Screen) (v : View) (left right : ℚ) : Prop :=
  left < right ∧ left < scr.plotLength ∧ 0 < right ∨
    left = 0 ∧ right = 0 ∧ v.traceLeft < v.traceRight

theorem reMag_drawn (cfg : Config) (hscr : scr.WellFormed) (htrace : OnTrace scr v)
    (h : EndsFit scr v v.left v.right) : Drawn scr (reMag scr cfg v) := by
  rcases h with ⟨hlt, hleft, hright⟩ | ⟨hleft, hright, hlt⟩
  · exact (magnifyProc_drawn cfg hscr (clampTo_inBounds rfl rfl hscr hlt hleft hright)
      fun _ => htrace).1
  · have hlength := hscr.plotLength
    apply magnifyProc_restores (v := clampTo scr.main v) hscr _ _ htrace hlt
    · show (if v.left < 0 then 0 else v.left) = 0
      rw [hleft, if_neg (lt_irrefl 0)]
    · show (if v.right > scr.plotLength then scr.plotLength else v.right) = 0
      rw [hright, if_neg hlength.not_gt]

/-- The ends of a snap. -/
theorem snapped_fits (h : Drawn scr v) (hfits : SnapFits scr cfg v) :
    ∃ left right, snapped scr cfg v = some (left, right) ∧ EndsFit scr v left right := by
  obtain ⟨hleft, hlt, hright⟩ := h.inBounds
  change 0 ≤ v.left at hleft
  change v.right ≤ scr.plotLength at hright
  have hwidth := h.length
  have hmin : scr.main.userMin = 0 := rfl
  have hmax : scr.main.userMax = scr.plotLength := rfl
  unfold SnapFits at hfits
  unfold snapped EndsFit
  rw [hmin, hmax]
  generalize v.gr.pix2user v.pixLeft = line at *
  cases hanchor : cfg.anchor with
  | left =>
    rw [hanchor] at hfits
    obtain ⟨hpos, hend⟩ := hfits
    have hfactors : snapFactors .left = (0, 2) := rfl
    rw [hfactors]
    have hbegin : ¬ line - ((0 : ℕ) : ℚ) * (v.length / 2) < 0 := by
      rw [Nat.cast_zero, zero_mul, sub_zero]
      exact not_lt.2 hpos
    dsimp only
    rw [if_neg hbegin, Option.map_some]
    dsimp only
    split_ifs with hhit
    · refine ⟨_, _, rfl, .inl ⟨?_, ?_, ?_⟩⟩ <;> linarith
    · push_cast at hhit ⊢
      refine ⟨_, _, rfl, .inl ⟨?_, ?_, ?_⟩⟩ <;> linarith
  | right =>
    rw [hanchor] at hfits
    obtain ⟨hpos, hend⟩ := hfits
    have hfactors : snapFactors .right = (2, 0) := rfl
    rw [hfactors]
    dsimp only
    by_cases hbegin : line - ((2 : ℕ) : ℚ) * (v.length / 2) < 0
    · have hhit : ¬ 2 / ((2 : ℕ) : ℚ) * line > scr.plotLength := by
        push_cast
        linarith
      rw [if_pos hbegin, if_neg two_ne_zero, Option.map_some]
      dsimp only
      rw [if_neg hhit]
      rcases hpos with hpos | ⟨hzero, htrace⟩
      · push_cast
        refine ⟨_, _, rfl, .inl ⟨?_, ?_, ?_⟩⟩ <;> linarith
      · exact ⟨_, _, rfl, .inr ⟨rfl, by rw [hzero, mul_zero], htrace⟩⟩
    · have hhit : ¬ line + ((0 : ℕ) : ℚ) * (v.length / 2) > scr.plotLength := by
        push_cast
        linarith
      rw [if_neg hbegin, Option.map_some]
      dsimp only
      rw [if_neg hhit]
      push_cast at hbegin ⊢
      refine ⟨_, _, rfl, .inl ⟨?_, ?_, ?_⟩⟩ <;> linarith
  | middle | mouse =>
    rw [hanchor] at hfits
    obtain ⟨hpos, hend⟩ := hfits
    change ∃ left right, Option.map _ (if line - ((1 : ℕ) : ℚ) * (v.length / 2) < 0 then
      if 1 = 0 then none else some (0, 2 / ((1 : ℕ) : ℚ) * line)
      else some (line - ((1 : ℕ) : ℚ) * (v.length / 2), line + ((1 : ℕ) : ℚ) * (v.length / 2))) =
        _ ∧ _
    by_cases hbegin : line - ((1 : ℕ) : ℚ) * (v.length / 2) < 0
    · have hhit : ¬ 2 / ((1 : ℕ) : ℚ) * line > scr.plotLength := by
        push_cast at hbegin ⊢
        linarith
      rw [if_pos hbegin, if_neg one_ne_zero, Option.map_some]
      dsimp only
      rw [if_neg hhit]
      rcases hpos with hpos | ⟨hzero, htrace⟩
      · push_cast at hbegin ⊢
        refine ⟨_, _, rfl, .inl ⟨?_, ?_, ?_⟩⟩ <;> linarith
      · exact ⟨_, _, rfl, .inr ⟨rfl, by rw [hzero, mul_zero], htrace⟩⟩
    · rw [if_neg hbegin, Option.map_some]
      dsimp only
      push_cast at hbegin ⊢
      split_ifs with hhit
      · refine ⟨_, _, rfl, .inl ⟨?_, ?_, ?_⟩⟩ <;> linarith
      · refine ⟨_, _, rfl, .inl ⟨?_, ?_, ?_⟩⟩ <;> linarith

/-- A selection between the ends that `snapMag` finds. -/
theorem snapMag_snap (hscr : scr.WellFormed) (h : Drawn scr v)
    (hfits : v.pixLeft ≠ 0 → SnapFits scr cfg v) :
    ∃ v', snapMag scr cfg .snap v = some v' ∧ Drawn scr v' := by
  unfold snapMag
  by_cases hline : v.pixLeft = 0
  · exact ⟨v, if_pos hline, h⟩
  · obtain ⟨left, right, hsnapped, hends⟩ := snapped_fits h (hfits hline)
    refine ⟨_, by rw [if_neg hline]; dsimp only; rw [hsnapped, Option.map_some], ?_⟩
    exact reMag_drawn cfg hscr (v := { v with left, right, pixLeft := 0 }) h.onTrace hends

theorem snapMag_mag (hscr : scr.WellFormed) (h : Drawn scr v) (hright : v.pixRight ≠ 0)
    (hfits : v.pixLeft ≠ 0 → MagFits scr v) :
    ∃ v', snapMag scr cfg .mag v = some v' ∧ Drawn scr v' := by
  unfold snapMag
  by_cases hline : v.pixLeft = 0
  · exact ⟨v, if_pos hline, h⟩
  · obtain ⟨hbefore, hbehind⟩ := hfits hline
    refine ⟨_, if_neg hline, ?_⟩
    apply reMag_drawn cfg hscr (v := { v with
      left := v.gr.pix2user v.pixLeft
      right := v.gr.pix2user v.pixRight
      pixLeft := 0 }) h.onTrace
    exact .inl ⟨Graph.pix2user_strictMono h.plot.1 h.plot.2 (h.lines hright), hbefore, hbehind⟩

/-- The selection that grows around the lines. -/
theorem setMagBounds_x (cfg : Config) (hscr : scr.WellFormed) (h : InBounds scr v)
    (hfits : GrowFits scr v) : InBounds scr (setMagBounds scr cfg .x v) := by
  obtain ⟨hshare, hbefore, hbehind⟩ := hfits
  obtain ⟨htime, hle⟩ := hscr.relTimeLen
  have hwidth : 0 < v.right - v.left := sub_pos.2 h.2.1
  unfold setMagBounds
  dsimp only
  generalize ((v.pixRight - v.pixLeft : ℤ) : ℚ) / ((v.marginRight - v.marginLeft : ℤ) : ℚ) = share
    at *
  have hhalf : 0 < (v.right - v.left) * (2 - share) := mul_pos hwidth (sub_pos.2 hshare)
  apply clampTo_inBounds rfl rfl hscr
  · dsimp only
    split_ifs <;> linarith
  · dsimp only
    split_ifs <;> linarith
  · dsimp only
    split_ifs <;> linarith

theorem keyLines_drawn (cfg : Config) (hscr : scr.WellFormed) (h : Drawn scr v)
    (hfits : LinesFit scr v) :
    ∃ v', keyLines scr cfg v = some v' ∧ Drawn scr v' := by
  unfold LinesFit at hfits
  unfold keyLines
  cases hkey : v.keyActive with
  | none => exact ⟨v, rfl, h⟩
  | z =>
    rw [hkey] at hfits
    by_cases hright : v.pixRight = 0
    · exact ⟨v, if_neg (not_not.2 hright), h⟩
    · dsimp only
      rw [if_pos hright]
      exact snapMag_mag hscr h hright (hfits hright)
  | x =>
    rw [hkey] at hfits
    by_cases hright : v.pixRight = 0
    · exact ⟨v, if_neg (not_not.2 hright), h⟩
    · obtain ⟨hline, hgrow⟩ := hfits hright
      have hbounds : InBounds scr { setMagBounds scr cfg .x v with pixLeft := 0 } :=
        setMagBounds_x cfg hscr h.inBounds hgrow
      have hline' : (setMagBounds scr cfg .x v).pixLeft ≠ 0 := hline
      dsimp only
      rw [if_pos hright, snapMag, if_neg hline']
      refine ⟨_, rfl, ?_⟩
      show Drawn scr (reMag scr cfg { setMagBounds scr cfg .x v with pixLeft := 0 })
      rw [reMag_of_inBounds hbounds]
      exact (magnifyProc_drawn cfg hscr hbounds fun _ => h.onTrace).1

/-! ### The mouse -/

theorem setLine_drawn (h : Drawn scr v) (x : ℤ) : Drawn scr (setLine x v) := by
  unfold setLine
  split_ifs with hfirst hswap hsame
  · exact { h with lines := fun hne => absurd rfl hne }
  · exact { h with lines := fun _ => hswap }
  · refine { h with lines := fun _ => ?_ }
    show v.pixLeft < x + 1
    omega
  · refine { h with lines := fun _ => ?_ }
    show v.pixLeft < x
    omega

theorem clickAxis_keeps (cfg : Config) (hscr : scr.WellFormed) (h : Drawn scr v)
    (hdrag : v.dragXAxis = false) (x : ℤ) :
    Drawn scr (clickAxis scr cfg x v) ∧
      (clickAxis scr cfg x v).right - (clickAxis scr cfg x v).left = v.right - v.left ∧
        (clickAxis scr cfg x v).pixRight = 0 := by
  obtain ⟨hleft, hlt, hright⟩ := h.inBounds
  change 0 ≤ v.left at hleft
  change v.right ≤ scr.plotLength at hright
  have hlength := h.length
  have hmin : scr.current.pix2user scr.current.pixMin = 0 := Graph.pix2user_pixMin _
  have hmax : scr.current.pix2user scr.current.pixMax = scr.plotLength :=
    Graph.pix2user_pixMax hscr.current.2
  have huser : scr.current.userMin = 0 ∧ scr.current.userMax = scr.plotLength := ⟨rfl, rfl⟩
  -- the selection in front of the drawing
  have hdraw : ∀ w : View, w.dragXAxis = false → InBounds scr w →
      w.right - w.left = v.right - v.left →
        Drawn scr (magnifyProc scr cfg w) ∧
          (magnifyProc scr cfg w).right - (magnifyProc scr cfg w).left = v.right - v.left ∧
            (magnifyProc scr cfg w).pixRight = 0 := by
    intro w hw hbounds hwidth
    obtain ⟨hdrawn, hl, hr⟩ := magnifyProc_drawn cfg hscr hbounds
      fun htrue => absurd (hw.symm.trans htrue) Bool.false_ne_true
    exact ⟨hdrawn, by rw [hl, hr, hwidth], rfl⟩
  unfold clickAxis
  rw [huser.1, huser.2, hmin, hmax]
  dsimp only
  generalize v.length * (cfg.scrollFactor : ℚ) / 100 * _ = jumpU
  by_cases hbegin : v.left + jumpU < 0
  · have hend : ¬ 0 + v.length > scr.plotLength := by linarith
    simp only [if_pos hbegin, if_neg hend]
    exact hdraw _ hdrag ⟨le_rfl, by dsimp only; linarith, by
      show 0 + v.length ≤ scr.plotLength
      linarith⟩ (by dsimp only; linarith)
  · by_cases hend : v.right + jumpU > scr.plotLength
    · simp only [if_neg hbegin, if_pos hend]
      refine hdraw _ hdrag ⟨?_, ?_, le_rfl⟩ ?_
      · show 0 ≤ scr.plotLength - v.length
        linarith
      · dsimp only
        linarith
      · dsimp only
        linarith
    · simp only [if_neg hbegin, if_neg hend]
      refine hdraw _ hdrag ⟨not_lt.1 hbegin, ?_, not_lt.1 hend⟩ ?_
      · exact add_lt_add_left hlt _
      · exact add_sub_add_right_eq_sub _ _ _

theorem dragAxis_drawn (cfg : Config) (hscr : scr.WellFormed) (h : Drawn scr v) {x : ℤ}
    (hfits : ¬ MissesAxis scr x v → AxisFits scr v x) : Drawn scr (dragAxis scr cfg x v) := by
  obtain ⟨hfirst, hle, hlast⟩ := h.onTrace
  have hlength := h.traceLength
  have hdraw : ∀ w : View, w.left = scr.current.pix2user w.traceLeft →
      w.right = scr.current.pix2user w.traceRight →
        scr.current.pixMin ≤ w.traceLeft ∧ w.traceLeft < w.traceRight ∧
          w.traceRight ≤ scr.current.pixMax → Drawn scr (magnifyProc scr cfg w) := by
    rintro w hleft hright ⟨hmin, hlt, hmax⟩
    refine (magnifyProc_drawn cfg hscr ?_ fun _ => ⟨hmin, hlt.le, hmax⟩).1
    unfold InBounds
    rw [hleft, hright]
    exact inBounds_pix2user hscr hmin hlt hmax
  unfold dragAxis
  by_cases hmiss : MissesAxis scr x v
  · rw [if_pos hmiss]
    exact h
  rw [if_neg hmiss]
  have haxis := hfits hmiss
  unfold AxisFits at haxis
  generalize dragged scr x v = pix at *
  dsimp only
  refine hdraw _ rfl rfl ?_
  dsimp only
  split_ifs at haxis ⊢ <;> omega

/-! ## Steps -/

section Steps

variable {input : Input} {v' : View}

theorem StepKeeps.of_same (h : InBounds scr v) (hleft : v'.left = v.left)
    (hright : v'.right = v.right) : StepKeeps scr v input v' := by
  refine ⟨?_, fun _ => ?_, fun z _ _ _ => ?_⟩
  · unfold InBounds
    rw [hleft, hright]
    exact h
  · rw [hleft, hright]
  · rw [hleft, hright]

/-- A step that neither scrolls nor zooms. -/
theorem StepKeeps.of_other (h : InBounds scr v') (hscroll : ¬ Scrolls scr v input)
    (hanchor : ∀ z, ¬ Anchors scr v input z) : StepKeeps scr v input v' :=
  ⟨h, fun hs => absurd hs hscroll, fun z hz => absurd hz (hanchor z)⟩

theorem StepKeeps.of_scroll (h : InBounds scr v') (hwidth : v'.right - v'.left = v.right - v.left)
    (hanchor : ∀ z, ¬ Anchors scr v input z) : StepKeeps scr v input v' :=
  ⟨h, fun _ => hwidth, fun z hz => absurd hz (hanchor z)⟩

theorem zoomBy_keeps (hscr : scr.WellFormed) (h : Drawn scr v) {z : ℚ} {zoomDir : ℤ}
    (hdir : zoomDir = 1 ∨ zoomDir = -1) (hfits : AnchorFits scr cfg v z zoomDir) :
    Drawn scr (zoomBy scr cfg z zoomDir v) ∧
      (cfg.anchor = .mouse → 0 < (zoomBy scr cfg z zoomDir v).left →
        (zoomBy scr cfg z zoomDir v).right < scr.plotLength →
          (z - (zoomBy scr cfg z zoomDir v).left) /
              ((zoomBy scr cfg z zoomDir v).right - (zoomBy scr cfg z zoomDir v).left) =
            (z - v.left) / (v.right - v.left)) :=
  zoom_keeps scr.main hscr h.inBounds hdir hfits rfl rfl rfl rfl h.onTrace

theorem wheel_keeps (hscr : scr.WellFormed) (h : Drawn scr v) {up : Bool} {x y minDisp : ℤ}
    (hevent : input.event = .wheel up x y minDisp)
    (hfits : ¬ (up = true ∧ minDisp < 3) → wheelEvent scr input.cfg x y v = .zoom →
      AnchorFits scr input.cfg v (v.gr.pix2user x) (if up then 1 else -1)) :
    Drawn scr (scrollEvent scr input.cfg up x y minDisp v) ∧
      StepKeeps scr v input (scrollEvent scr input.cfg up x y minDisp v) := by
  unfold scrollEvent
  by_cases hmin : up = true ∧ minDisp < 3
  · rw [if_pos hmin]
    exact ⟨h, .of_same h.inBounds rfl rfl⟩
  rw [if_neg hmin]
  dsimp only
  cases hwheel : wheelEvent scr input.cfg x y v with
  | replot => exact ⟨h, .of_same h.inBounds rfl rfl⟩
  | scroll =>
    obtain ⟨hdrawn, hwidth⟩ := scrollBy_keeps input.cfg hscr h (if up then -1 else 1)
    refine ⟨hdrawn, .of_scroll hdrawn.inBounds hwidth ?_⟩
    rintro z ⟨-, hz⟩
    rw [hevent] at hz
    exact absurd (hwheel.symm.trans hz.1) (by decide)
  | zoom =>
    have hdir : (if up then 1 else -1 : ℤ) = 1 ∨ (if up then 1 else -1 : ℤ) = -1 := by
      cases up
      · exact .inr rfl
      · exact .inl rfl
    obtain ⟨hdrawn, hanchor⟩ := zoomBy_keeps hscr h hdir (hfits hmin hwheel)
    refine ⟨hdrawn, hdrawn.inBounds, fun hscroll => ?_, fun z hz hleft hright => ?_⟩
    · unfold Scrolls at hscroll
      rw [hevent] at hscroll
      exact absurd (hwheel.symm.trans hscroll) (by decide)
    · obtain ⟨hmouse, hz⟩ := hz
      rw [hevent] at hz
      rw [hz.2]
      exact hanchor hmouse hleft hright

theorem keyZoom_keeps (hscr : scr.WellFormed) (h : Drawn scr v) {key : KeyVal} {rootX minDisp : ℤ}
    (hevent : input.event = .key key rootX minDisp) (hkey : key = .up ∨ key = .down) {zoomDir : ℤ}
    (hdir : zoomDir = 1 ∨ zoomDir = -1)
    (hfits : AnchorFits scr input.cfg v (v.gr.pix2user rootX) zoomDir)
    (horigin : input.cfg.anchor = .mouse → scr.originX = 0) :
    Drawn scr (zoomBy scr input.cfg (v.gr.pix2user rootX) zoomDir v) ∧
      StepKeeps scr v input (zoomBy scr input.cfg (v.gr.pix2user rootX) zoomDir v) := by
  obtain ⟨hdrawn, hanchor⟩ := zoomBy_keeps hscr h hdir hfits
  refine ⟨hdrawn, hdrawn.inBounds, fun hscroll => ?_, fun z hz hleft hright => ?_⟩
  · unfold Scrolls at hscroll
    rw [hevent] at hscroll
    have hother : ¬ (key = .left ∨ key = .right) := by
      rcases hkey with rfl | rfl <;> decide
    exact absurd hscroll hother
  · obtain ⟨hmouse, hz⟩ := hz
    rw [hevent] at hz
    rw [hz.2, horigin hmouse, sub_zero]
    exact hanchor hmouse hleft hright

theorem key_keeps (hscr : scr.WellFormed) (h : Drawn scr v) {key : KeyVal} {rootX minDisp : ℤ}
    (hevent : input.event = .key key rootX minDisp) (hfits : Fits scr v input) :
    Drawn scr (keyEvent scr input.cfg key rootX minDisp v) ∧
      StepKeeps scr v input (keyEvent scr input.cfg key rootX minDisp v) := by
  have hscroll : ∀ scrollDir, (key = .left ∨ key = .right) →
      Drawn scr (scrollBy scr input.cfg scrollDir v) ∧
        StepKeeps scr v input (scrollBy scr input.cfg scrollDir v) := by
    intro scrollDir hkey
    obtain ⟨hdrawn, hwidth⟩ := scrollBy_keeps input.cfg hscr h scrollDir
    refine ⟨hdrawn, .of_scroll hdrawn.inBounds hwidth ?_⟩
    rintro z ⟨-, hz⟩
    rw [hevent] at hz
    rcases hkey with rfl | rfl
    · exact absurd hz.1 (by decide)
    · exact absurd hz.1 (by decide)
  unfold Fits at hfits
  rw [hevent] at hfits
  cases key with
  | up =>
    unfold keyEvent
    by_cases hmin : minDisp < 3
    · simp only [if_pos hmin]
      exact ⟨h, .of_same h.inBounds rfl rfl⟩
    · simp only [if_neg hmin]
      obtain ⟨hanchor, horigin⟩ := hfits hmin
      exact keyZoom_keeps hscr h hevent (.inl rfl) (.inl rfl) hanchor horigin
  | down => exact keyZoom_keeps hscr h hevent (.inr rfl) (.inr rfl) hfits.1 hfits.2
  | left => exact hscroll _ (.inl rfl)
  | right => exact hscroll _ (.inr rfl)
  | z => exact ⟨{ h with }, .of_same h.inBounds rfl rfl⟩
  | x => exact ⟨{ h with }, .of_same h.inBounds rfl rfl⟩
  | other => exact ⟨{ h with }, .of_same h.inBounds rfl rfl⟩

theorem released_keeps (cfg : Config) (hscr : scr.WellFormed) (h : Drawn scr v) (x : ℤ) :
    Drawn scr (released scr cfg x v) ∧
      (v.event = .xaxis → v.dragXAxis = false → (released scr cfg x v).pixRight = 0 ∧
        (released scr cfg x v).right - (released scr cfg x v).left = v.right - v.left) := by
  unfold released
  cases hv : v.event with
  | vline => exact ⟨setLine_drawn h x, fun hne => absurd hne (by decide)⟩
  | xaxis =>
    cases hdrag : v.dragXAxis with
    | true => exact ⟨{ h with }, fun _ hne => absurd hne.symm Bool.false_ne_true⟩
    | false =>
      obtain ⟨hdrawn, hwidth, hlines⟩ := clickAxis_keeps cfg hscr h hdrag x
      exact ⟨hdrawn, fun _ _ => ⟨hlines, hwidth⟩⟩
  | none | zoom => exact ⟨h, fun hne => absurd hne (by decide)⟩

/-- Without two lines a key does nothing. -/
theorem keyLines_of_no_lines (h : v.pixRight = 0) : keyLines scr cfg v = some v := by
  have hright : ¬ v.pixRight ≠ 0 := not_not.2 h
  unfold keyLines
  cases v.keyActive with
  | none => rfl
  | z | x => exact if_neg hright

theorem release_keeps (hscr : scr.WellFormed) (h : Drawn scr v) {x : ℤ}
    (hevent : input.event = .release x) (hfits : Fits scr v input) :
    ∃ v', release scr input.cfg x v = some v' ∧ Drawn scr v' ∧ StepKeeps scr v input v' := by
  have hanchor : ∀ z, ¬ Anchors scr v input z := by
    rintro z ⟨-, hz⟩
    rw [hevent] at hz
    exact hz
  have hup : Drawn scr { v with mouseLeft := false } := { h with }
  unfold Fits at hfits
  rw [hevent] at hfits
  obtain ⟨hreleased, hclick⟩ := released_keeps input.cfg hscr hup x
  unfold release
  obtain ⟨v', hrun, hdrawn⟩ := keyLines_drawn input.cfg hscr hreleased hfits
  refine ⟨v', hrun, hdrawn, hdrawn.inBounds, fun hs => ?_, fun z hz => absurd hz (hanchor z)⟩
  unfold Scrolls at hs
  rw [hevent] at hs
  obtain ⟨hlines, hwidth⟩ := hclick hs.1 hs.2
  rw [keyLines_of_no_lines hlines] at hrun
  obtain rfl := Option.some.inj hrun
  exact hwidth

theorem beginDrag_drawn (h : Drawn scr v) (x y : ℤ) :
    Drawn scr (beginDrag scr x y v) ∧ (beginDrag scr x y v).left = v.left ∧
      (beginDrag scr x y v).right = v.right := by
  unfold beginDrag
  split_ifs
  · exact ⟨{ h with }, rfl, rfl⟩
  · exact ⟨{ h with }, rfl, rfl⟩
  · exact ⟨h, rfl, rfl⟩
  · exact ⟨h, rfl, rfl⟩

theorem drag_keeps (hscr : scr.WellFormed) (h : Drawn scr v) {x y minDisp : ℤ}
    (hevent : input.event = .drag x y minDisp) (hfits : Fits scr v input) :
    Drawn scr (drag scr input.cfg x y minDisp v) ∧
      StepKeeps scr v input (drag scr input.cfg x y minDisp v) := by
  unfold Fits at hfits
  rw [hevent] at hfits
  have hscroll : ¬ Scrolls scr v input := by
    intro hs
    unfold Scrolls at hs
    rw [hevent] at hs
    exact hs
  unfold drag
  by_cases hignored : DragIgnored scr x y v
  · rw [if_pos hignored]
    exact ⟨h, .of_same h.inBounds rfl rfl⟩
  rw [if_neg hignored]
  have hfits := hfits hignored
  have hanchors : ∀ z, Anchors scr v input z →
      input.cfg.anchor = .mouse ∧
        (beginDrag scr x y { v with keyActive := .none }).event = .zoom ∧
        z = (beginDrag scr x y { v with keyActive := .none }).zAnchor := by
    rintro z ⟨hmouse, hz⟩
    rw [hevent] at hz
    exact ⟨hmouse, hz⟩
  have hkey : Drawn scr { v with keyActive := .none } := { h with }
  obtain ⟨hbegin, hleft, hright⟩ := beginDrag_drawn hkey x y
  change _ = v.left at hleft
  change _ = v.right at hright
  dsimp only at hfits ⊢
  generalize beginDrag scr x y { v with keyActive := .none } = w at *
  cases hw : w.event with
  | zoom =>
    rw [hw] at hfits
    unfold dragZoom
    by_cases hmin : x > w.startX ∧ minDisp < 3
    · simp only [if_pos hmin]
      exact ⟨hbegin, .of_same h.inBounds hleft hright⟩
    · simp only [if_neg hmin]
      have hdir : (if x > w.startX then 1 else -1 : ℤ) = 1 ∨
          (if x > w.startX then 1 else -1 : ℤ) = -1 := by
        split_ifs
        · exact .inl rfl
        · exact .inr rfl
      obtain ⟨hdrawn, hanchor⟩ := zoom_keeps (w := { w with
        left := (zoomed input.cfg w w.zAnchor (if x > w.startX then 1 else -1)).1
        right := (zoomed input.cfg w w.zAnchor (if x > w.startX then 1 else -1)).2
        startX := x }) scr.current hscr hbegin.inBounds hdir (hfits hmin) rfl rfl rfl rfl
        hbegin.onTrace
      refine ⟨hdrawn, hdrawn.inBounds, fun hs => absurd hs hscroll, fun z hz hpos hend => ?_⟩
      obtain ⟨hmouse, -, rfl⟩ := hanchors z hz
      rw [← hleft, ← hright]
      exact hanchor hmouse hpos hend
  | xaxis =>
    rw [hw] at hfits
    have hdrawn := dragAxis_drawn input.cfg hscr hbegin hfits
    refine ⟨hdrawn, .of_other hdrawn.inBounds hscroll fun z hz => ?_⟩
    exact absurd (hw.symm.trans (hanchors z hz).2.1) (by decide)
  | none | vline => exact ⟨hbegin, .of_same h.inBounds hleft hright⟩

/-- The other events neither scroll nor zoom around a time. -/
theorem lines_keep
    (hevent : input.event = .keyRelease ∨ input.event = .snap ∨ input.event = .mag)
    (h : ∃ v', step scr v input = some v' ∧ Drawn scr v') :
    ∃ v', step scr v input = some v' ∧ Drawn scr v' ∧ StepKeeps scr v input v' := by
  obtain ⟨v', hstep, hdrawn⟩ := h
  refine ⟨v', hstep, hdrawn, .of_other hdrawn.inBounds ?_ ?_⟩
  · unfold Scrolls
    rcases hevent with hevent | hevent | hevent <;> rw [hevent] <;> exact id
  · rintro z ⟨-, hz⟩
    rcases hevent with hevent | hevent | hevent <;> rw [hevent] at hz <;> exact hz

/-- Every step that fits keeps the selection drawn. -/
theorem step_keeps (hscr : scr.WellFormed) (h : Drawn scr v) (hfits : Fits scr v input) :
    ∃ v', step scr v input = some v' ∧ Drawn scr v' ∧ StepKeeps scr v input v' := by
  cases hevent : input.event with
  | wheel up x y minDisp =>
    unfold step
    rw [hevent]
    unfold Fits at hfits
    rw [hevent] at hfits
    exact ⟨_, rfl, wheel_keeps hscr h hevent hfits⟩
  | key key rootX minDisp =>
    unfold step
    rw [hevent]
    exact ⟨_, rfl, key_keeps hscr h hevent hfits⟩
  | release x =>
    unfold step
    rw [hevent]
    exact release_keeps hscr h hevent hfits
  | drag x y minDisp =>
    unfold step
    rw [hevent]
    exact ⟨_, rfl, drag_keeps hscr h hevent hfits⟩
  | press x y =>
    unfold step
    rw [hevent]
    exact ⟨_, rfl, { h with }, .of_same h.inBounds rfl rfl⟩
  | keyRelease =>
    unfold Fits at hfits
    rw [hevent] at hfits
    refine lines_keep (Or.inl hevent) ?_
    obtain ⟨v', hrun, hdrawn⟩ := keyLines_drawn input.cfg hscr h hfits
    refine ⟨{ v' with keyActive := .none }, ?_, { hdrawn with }⟩
    unfold step keyRelease
    rw [hevent]
    dsimp only
    rw [hrun]
    rfl
  | snap =>
    unfold Fits at hfits
    rw [hevent] at hfits
    refine lines_keep (Or.inr (Or.inl hevent)) ?_
    unfold step
    rw [hevent]
    dsimp only
    by_cases hright : v.pixRight = 0
    · rw [if_pos hright]
      exact snapMag_snap hscr h (hfits hright)
    · exact ⟨v, if_neg hright, h⟩
  | mag =>
    unfold Fits at hfits
    rw [hevent] at hfits
    refine lines_keep (Or.inr (Or.inr hevent)) ?_
    unfold step
    rw [hevent]
    dsimp only
    by_cases hright : v.pixRight = 0
    · exact ⟨v, if_neg (not_not.2 hright), h⟩
    · rw [if_pos hright]
      exact snapMag_mag hscr h hright (hfits hright)

end Steps

/-! ## Runs -/

/-- A drawing area that begins at a pixel of the root window, with plots of 500 pixels. -/
def wideScreen (originX : ℤ) : Screen where
  mainPix := (100, 600)
  currentPix := (100, 600)
  plotLength := 100
  relTimeLen := 100
  traceLabel := 80
  magLabel := 80
  plotRight := fun _ => 600
  height := 400
  originX

/-- A selection that is drawn, 10 s at the end of 100 s. -/
def lastSeconds : View where
  left := 90
  right := 100
  length := 10
  pixLeft := 0
  pixRight := 0
  gr := ⟨100, 600, 90, 100⟩
  traceLeft := 550
  traceRight := 600
  traceLength := 50
  event := .none
  keyActive := .none
  mouseLeft := false
  dragXAxis := false
  startX := 0
  zAnchor := 0

theorem wideScreen_wellFormed (originX : ℤ) : (wideScreen originX).WellFormed :=
  ⟨by norm_num [wideScreen], by norm_num [wideScreen], by norm_num [wideScreen, Screen.current],
    fun _ => by norm_num [wideScreen, labelXtra]⟩

theorem lastSeconds_drawn (originX : ℤ) : Drawn (wideScreen originX) lastSeconds := by
  refine ⟨?_, ?_, ?_, fun hne => absurd rfl hne, ?_, rfl⟩
  · norm_num [InBounds, Screen.main, wideScreen, lastSeconds]
  · norm_num [lastSeconds]
  · norm_num [lastSeconds]
  · norm_num [OnTrace, Screen.current, wideScreen, lastSeconds]

/-- The greatest zoom factor, around the mouse. -/
def mouseZoom : Config := ⟨.mouse, 30, 60, 10, false, by decide⟩

end PQL.Magnify
