import PQL.Display.References

/-!
# Pages in trace mode

`startRec` is the position of the first trace that is displayed.  A page forward and a jump keep the
groups with it; a page back does so only if a whole page lies in front of the current one, and a
removal only if it leaves the start of the page or a whole page (`pages_right`).
-/

namespace PQL.Display

variable {τ : Type}

/-- The commands of the trace screen that change the page, and those that select traces. -/
inductive PageCommand (τ : Type) where
  | initGroup
  | nextTrace (dir : Bool)
  | restartTrace (startRec : ℤ)
  | selectAll (value : Bool)
  | select (trcs : List τ)
  | remove

/-- What a command does. -/
def pageCommand [DecidableEq τ] (cfg : Settings τ) (s : State τ) :
    PageCommand τ → Option (State τ)
  | .initGroup => makeDispList cfg s .INITGROUP
  | .nextTrace dir => nextTrace cfg s dir
  | .restartTrace startRec => restartTrace cfg s startRec
  | .selectAll value => some (selectT s value)
  | .select trcs => some (selectTraces s trcs)
  | .remove => removeT cfg s

/-- The page that begins with a trace. -/
def pageAt (cfg : Settings τ) (traces : List τ) (startRec : ℤ) : List τ :=
  (traces.drop startRec.toNat).take cfg.numPlots.toNat

/-- The groups are the page at `startRec`, the one behind it and the one that a previous-page
command goes back to. -/
structure Paged [DecidableEq τ] (cfg : Settings τ) (s : State τ) : Prop where
  startRec : 0 ≤ s.startRec
  curGroup : s.curGroup = pageAt cfg s.traces s.startRec
  nextGroup : s.nextGroup = pageAt cfg s.traces (s.startRec + cfg.numPlots)
  first : s.prevGroup = [] ↔ s.startRec = 0
  prevGroup : s.prevGroup ≠ [] → ∀ s', makeDispList cfg s .PREVGROUP = some s' →
    s.prevGroup = pageAt cfg s'.traces s'.startRec

/-- A jump goes to a trace of the list. -/
def Chosen (s : State τ) : PageCommand τ → Prop
  | .restartTrace startRec => 0 ≤ startRec ∧ startRec < s.traces.length
  | _ => True

/-- The traces that a removal leaves. -/
def remaining [DecidableEq τ] (s : State τ) : List τ := s.traces.diff s.selection

/-- A page back has a whole page to go back to; a removal leaves the first trace of the page, or a
whole page. -/
def PageFits [DecidableEq τ] (cfg : Settings τ) (s : State τ) : PageCommand τ → Prop
  | .nextTrace false => s.prevGroup = [] ∨ cfg.numPlots ≤ s.startRec
  | .remove =>
    s.numTraces = 0 ∨ s.startRec < (remaining s).length ∨ cfg.numPlots ≤ (remaining s).length
  | _ => True

/-! ## The pages that are made -/

section Make

variable {cfg : Settings τ} {s s' : State τ}

theorem pageAt_eq_nil (hplots : 1 ≤ cfg.numPlots) {traces : List τ} {startRec : ℤ}
    (hstart : 0 ≤ startRec) : pageAt cfg traces startRec = [] ↔ (traces.length : ℤ) ≤ startRec := by
  rw [pageAt, List.take_eq_nil_iff, List.drop_eq_nil_iff]
  omega

theorem length_pageAt {traces : List τ} {startRec : ℤ} :
    (pageAt cfg traces startRec).length =
      min cfg.numPlots.toNat (traces.length - startRec.toNat) := by
  rw [pageAt, List.length_take, List.length_drop]

theorem traceGroup_cur (hstart : 0 ≤ s.startRec) :
    traceGroup cfg s .CURGRP = pageAt cfg s.traces s.startRec := by
  have hne : groupStart cfg s .CURGRP ≠ -1 := by
    show s.startRec ≠ -1
    omega
  rw [traceGroup, if_neg hne, groupStart, gSlistNth, if_pos hstart, pageAt]

theorem traceGroup_prev : traceGroup cfg s .PREVGRP =
    if s.startRec = 0 then [] else pageAt cfg s.traces (max 0 (s.startRec - cfg.numPlots)) := by
  have hgroup : groupStart cfg s .PREVGRP = if s.startRec = 0 then -1
      else if s.startRec - cfg.numPlots > 0 then s.startRec - cfg.numPlots else 0 := rfl
  rw [traceGroup, hgroup]
  by_cases hzero : s.startRec = 0
  · rw [if_pos hzero, if_pos rfl, if_pos hzero]
  · have hmax : (if s.startRec - cfg.numPlots > 0 then s.startRec - cfg.numPlots else 0) =
        max 0 (s.startRec - cfg.numPlots) := by
      split_ifs <;> omega
    have hnonneg := le_max_left 0 (s.startRec - cfg.numPlots)
    have hne : max 0 (s.startRec - cfg.numPlots) ≠ -1 := fun heq => by omega
    rw [if_neg hzero, hmax, if_neg hne, if_neg hzero, gSlistNth, if_pos hnonneg, pageAt]

theorem traceGroup_next (hplots : 1 ≤ cfg.numPlots) (hstart : 0 ≤ s.startRec)
    (hcount : s.numTraces = s.traces.length) :
    traceGroup cfg s .NEXTGRP = pageAt cfg s.traces (s.startRec + cfg.numPlots) := by
  have hgroup : groupStart cfg s .NEXTGRP = if s.startRec + cfg.numPlots > s.numTraces then -1
      else s.startRec + cfg.numPlots := rfl
  rw [traceGroup, hgroup]
  by_cases hend : s.startRec + cfg.numPlots > s.numTraces
  · rw [if_pos hend, if_pos rfl]
    symm
    rw [pageAt_eq_nil hplots (by omega)]
    omega
  · have hne : s.startRec + cfg.numPlots ≠ -1 := by omega
    rw [if_neg hend, if_neg hne, gSlistNth, if_pos (by omega), pageAt]

variable [DecidableEq τ]

theorem dispList_eq (hmode : cfg.mode = .TRACEMODE) (which : Group) :
    dispList cfg s which = some (s.setGroup (traceGroup cfg s which) which) := by
  unfold dispList
  rw [hmode]

/-- The state after `INITGROUP`. -/
def inited (cfg : Settings τ) (s : State τ) : State τ :=
  { s with
    prevList := []
    curGroup := traceGroup cfg s .CURGRP
    prevGroup := traceGroup cfg s .PREVGRP
    nextGroup := traceGroup cfg s .NEXTGRP }

theorem makeDispList_init_eq (hmode : cfg.mode = .TRACEMODE) :
    makeDispList cfg s .INITGROUP = some (inited cfg s) := by
  simp only [makeDispList, dispList_eq hmode, Option.bind_some]
  rfl

/-- The state after `PREVGROUP`. -/
def turnedBack (cfg : Settings τ) (s : State τ) : State τ :=
  let startRec := if s.startRec - s.prevGroup.length < 0 then 0
    else s.startRec - s.prevGroup.length
  { s with
    startRec
    nextGroup := s.curGroup
    curGroup := s.prevGroup
    prevGroup := traceGroup cfg { s with startRec } .PREVGRP }

theorem makeDispList_prev_eq (hmode : cfg.mode = .TRACEMODE) :
    makeDispList cfg s .PREVGROUP = some (turnedBack cfg s) := by
  simp only [makeDispList, dispList_eq hmode]
  rfl

/-- The state after `NEXTGROUP`. -/
def turned (cfg : Settings τ) (s : State τ) : State τ :=
  let startRec := s.startRec + s.curGroup.length
  { s with
    startRec
    prevGroup := s.curGroup
    curGroup := s.nextGroup
    nextGroup := traceGroup cfg { s with startRec } .NEXTGRP }

theorem makeDispList_next_eq (hmode : cfg.mode = .TRACEMODE) :
    makeDispList cfg s .NEXTGROUP = some (turned cfg s) := by
  have hgather : ¬ cfg.mode = .GATHERMODE := by rw [hmode]; decide
  simp only [makeDispList, dispList_eq hmode, if_neg hgather]
  rfl

end Make

/-! ## What the commands keep -/

section Steps

variable {cfg : Settings τ} {s s' : State τ}

/-- The groups are right, and `startRec` is the position of a trace or zero. -/
structure PageInv (cfg : Settings τ) (s : State τ) : Prop where
  counted : s.numTraces = s.traces.length
  nodup : s.traces.Nodup
  startRec : 0 ≤ s.startRec ∧ (s.startRec = 0 ∨ s.startRec < s.traces.length)
  curGroup : s.curGroup = pageAt cfg s.traces s.startRec
  nextGroup : s.nextGroup = pageAt cfg s.traces (s.startRec + cfg.numPlots)
  prevGroup : s.prevGroup = if s.startRec = 0 then []
    else pageAt cfg s.traces (max 0 (s.startRec - cfg.numPlots))

/-- In front of a page that is not the first one is a trace. -/
theorem PageInv.prevGroup_nil (hplots : 1 ≤ cfg.numPlots) (h : PageInv cfg s) :
    s.prevGroup = [] ↔ s.startRec = 0 := by
  obtain ⟨hnonneg, hinside⟩ := h.startRec
  rw [h.prevGroup]
  by_cases hzero : s.startRec = 0
  · rw [if_pos hzero]
    exact iff_of_true rfl hzero
  · rw [if_neg hzero, pageAt_eq_nil hplots (le_max_left _ _)]
    omega

/-- A page back begins a page in front, or with the first trace. -/
theorem PageInv.turnedBack_startRec (hplots : 1 ≤ cfg.numPlots) (h : PageInv cfg s)
    (hne : s.prevGroup ≠ []) :
    (turnedBack cfg s).startRec = max 0 (s.startRec - cfg.numPlots) := by
  have hzero : s.startRec ≠ 0 := fun hzero => hne ((h.prevGroup_nil hplots).2 hzero)
  obtain ⟨hnonneg, hinside⟩ := h.startRec
  have hlength : s.prevGroup.length = min cfg.numPlots.toNat
      (s.traces.length - (max 0 (s.startRec - cfg.numPlots)).toNat) := by
    rw [h.prevGroup, if_neg hzero, length_pageAt]
  show (if s.startRec - s.prevGroup.length < 0 then 0 else s.startRec - s.prevGroup.length) = _
  rw [hlength]
  split_ifs <;> omega

/-- The pages made anew. -/
theorem pageInv_inited (hplots : 1 ≤ cfg.numPlots) (hcount : s.numTraces = s.traces.length)
    (hnodup : s.traces.Nodup)
    (hstart : 0 ≤ s.startRec ∧ (s.startRec = 0 ∨ s.startRec < s.traces.length)) :
    PageInv cfg (inited cfg s) :=
  ⟨hcount, hnodup, hstart, traceGroup_cur hstart.1, traceGroup_next hplots hstart.1 hcount,
    traceGroup_prev⟩

theorem PageInv.turned (hplots : 1 ≤ cfg.numPlots) (h : PageInv cfg s) (hne : s.nextGroup ≠ []) :
    PageInv cfg (turned cfg s) := by
  obtain ⟨hnonneg, hinside⟩ := h.startRec
  -- the current page is full
  have hmore : s.startRec + cfg.numPlots < s.traces.length := by
    by_contra hend
    apply hne
    rw [h.nextGroup, pageAt_eq_nil hplots (by omega)]
    omega
  have hlength : (s.curGroup.length : ℤ) = cfg.numPlots := by
    rw [h.curGroup, length_pageAt]
    omega
  have hstart : (Display.turned cfg s).startRec = s.startRec + cfg.numPlots := by
    rw [← hlength]
    rfl
  have hzero : s.startRec + cfg.numPlots ≠ 0 := by omega
  refine ⟨h.counted, h.nodup, ?_, ?_, ?_, ?_⟩
  · rw [hstart]
    exact ⟨by omega, .inr hmore⟩
  · rw [hstart]
    exact h.nextGroup
  · have hnext : traceGroup cfg (Display.turned cfg s) .NEXTGRP = _ :=
      traceGroup_next hplots (by rw [hstart]; omega) h.counted
    exact hnext
  · rw [hstart, if_neg hzero, add_sub_cancel_right, max_eq_right hnonneg]
    exact h.curGroup

variable [DecidableEq τ]

theorem PageInv.paged (hmode : cfg.mode = .TRACEMODE) (hplots : 1 ≤ cfg.numPlots)
    (h : PageInv cfg s) : Paged cfg s := by
  refine ⟨h.startRec.1, h.curGroup, h.nextGroup, h.prevGroup_nil hplots, fun hne s' hs' => ?_⟩
  have hzero : s.startRec ≠ 0 := fun hzero => hne ((h.prevGroup_nil hplots).2 hzero)
  rw [makeDispList_prev_eq hmode] at hs'
  obtain rfl := Option.some.inj hs'
  rw [h.turnedBack_startRec hplots hne, h.prevGroup, if_neg hzero]
  rfl

/-- A page back keeps the groups right exactly if a whole page lies in front. -/
theorem PageInv.turnedBack_iff (hplots : 1 ≤ cfg.numPlots) (h : PageInv cfg s)
    (hne : s.prevGroup ≠ []) :
    (cfg.numPlots ≤ s.startRec → PageInv cfg (turnedBack cfg s)) ∧
      (Paged cfg (turnedBack cfg s) → cfg.numPlots ≤ s.startRec) := by
  have hzero : s.startRec ≠ 0 := fun hzero => hne ((h.prevGroup_nil hplots).2 hzero)
  obtain ⟨hnonneg, hinside⟩ := h.startRec
  have hstart := h.turnedBack_startRec hplots hne
  have hnext : (turnedBack cfg s).nextGroup = pageAt cfg s.traces s.startRec := h.curGroup
  constructor
  · intro hfull
    rw [max_eq_right (by omega)] at hstart
    refine ⟨h.counted, h.nodup, ?_, ?_, ?_, ?_⟩
    · show 0 ≤ (turnedBack cfg s).startRec ∧ _
      rw [hstart]
      exact ⟨by omega, .inr (by show _ < (s.traces.length : ℤ); omega)⟩
    · rw [hstart]
      show s.prevGroup = pageAt cfg s.traces _
      rw [h.prevGroup, if_neg hzero, max_eq_right (by omega)]
    · rw [hnext, hstart, sub_add_cancel]
      rfl
    · have hprev : traceGroup cfg (turnedBack cfg s) .PREVGRP = _ := traceGroup_prev
      exact hprev
  · intro hpaged
    by_contra hshort
    have hsame := hpaged.nextGroup
    rw [hstart, max_eq_left (by omega), zero_add, hnext] at hsame
    -- the first traces of the two pages
    have hget := congrArg (fun l : List τ => l[0]?) hsame
    simp only [pageAt, List.getElem?_take, List.getElem?_drop,
      if_pos (by omega : 0 < cfg.numPlots.toNat), add_zero] at hget
    have heq := (List.getElem?_inj (by omega) h.nodup).1 hget
    omega

/-- A removal keeps the groups right exactly if it leaves the start of the page or a whole page. -/
theorem PageInv.removeT (hmode : cfg.mode = .TRACEMODE) (hplots : 1 ≤ cfg.numPlots)
    (h : PageInv cfg s) : ∃ s', removeT cfg s = some s' ∧
      (PageFits cfg s .remove → PageInv cfg s') ∧ (Paged cfg s' → PageFits cfg s .remove) := by
  unfold Display.removeT
  by_cases hnone : s.numTraces = 0
  · rw [if_pos hnone]
    exact ⟨s, rfl, fun _ => h, fun _ => .inl hnone⟩
  rw [if_neg hnone, makeDispList_init_eq hmode]
  obtain ⟨hnonneg, -⟩ := h.startRec
  have hkilled : (killSelectedTraces cfg s).traces = remaining s ∧
      (killSelectedTraces cfg s).numTraces = (remaining s).length ∧
      (killSelectedTraces cfg s).startRec =
        if s.startRec ≥ (remaining s).length then (remaining s).length - cfg.numPlots
        else s.startRec := by
    simp only [killSelectedTraces, foldl_freeTrace, remaining]
    exact ⟨trivial, trivial, rfl⟩
  obtain ⟨htraces, hcount, hstart⟩ := hkilled
  refine ⟨_, rfl, fun hfits => ?_, fun hpaged => ?_⟩
  · have hfits := hfits.resolve_left hnone
    refine pageInv_inited hplots (by rw [hcount, htraces]) (by rw [htraces]; exact h.nodup.diff) ?_
    rw [hstart, htraces]
    split_ifs with hend <;> omega
  · right
    by_contra hshort
    have hbad : (killSelectedTraces cfg s).startRec < 0 := by
      rw [hstart, if_pos (by omega)]
      omega
    exact absurd hpaged.startRec (not_le.2 hbad)

theorem PageInv.nextTrace (hmode : cfg.mode = .TRACEMODE) (hplots : 1 ≤ cfg.numPlots)
    (h : PageInv cfg s) (dir : Bool) : ∃ s', nextTrace cfg s dir = some s' ∧
      (PageFits cfg s (.nextTrace dir) → PageInv cfg s') ∧
        (Paged cfg s' → PageFits cfg s (.nextTrace dir)) := by
  obtain ⟨_, _, _, _, heq⟩ := selectT_eq s false
  have ht : PageInv cfg (selectT s false) := by
    rw [heq]
    exact { h with }
  have hsame : (selectT s false).startRec = s.startRec ∧
      (selectT s false).prevGroup = s.prevGroup := by
    rw [heq]
    exact ⟨rfl, rfl⟩
  obtain ⟨hstart, hprev⟩ := hsame
  unfold Display.nextTrace
  dsimp only
  cases dir with
  | true =>
    rw [if_pos rfl]
    by_cases hnil : (selectT s false).nextGroup = []
    · rw [if_pos hnil]
      exact ⟨_, rfl, fun _ => ht, fun _ => trivial⟩
    · rw [if_neg hnil, makeDispList_next_eq hmode]
      exact ⟨_, rfl, fun _ => ht.turned hplots hnil, fun _ => trivial⟩
  | false =>
    rw [if_neg Bool.false_ne_true]
    by_cases hnil : (selectT s false).prevGroup = []
    · rw [if_pos hnil]
      exact ⟨_, rfl, fun _ => ht, fun _ => .inl (hprev.symm.trans hnil)⟩
    · rw [if_neg hnil, makeDispList_prev_eq hmode]
      obtain ⟨hfull, hpaged⟩ := ht.turnedBack_iff hplots hnil
      rw [hstart] at hfull hpaged
      rw [hprev] at hnil
      exact ⟨_, rfl, fun hfits => hfull (hfits.resolve_left hnil), fun h => .inr (hpaged h)⟩

/-- What a command keeps, and that it keeps nothing else. -/
theorem PageInv.command (hmode : cfg.mode = .TRACEMODE) (hplots : 1 ≤ cfg.numPlots)
    (h : PageInv cfg s) {c : PageCommand τ} (hchosen : Chosen s c) :
    ∃ s', pageCommand cfg s c = some s' ∧ (PageFits cfg s c → PageInv cfg s') ∧
      (Paged cfg s' → PageFits cfg s c) := by
  have hselect : ∀ t : State τ, (∃ traceSelected selection numSelected magnifySelection, t =
      { s with traceSelected, selection, numSelected, magnifySelection }) → PageInv cfg t := by
    rintro t ⟨_, _, _, _, rfl⟩
    exact { h with }
  cases c with
  | initGroup =>
    exact ⟨_, makeDispList_init_eq hmode,
      fun _ => pageInv_inited hplots h.counted h.nodup h.startRec, fun _ => trivial⟩
  | nextTrace dir => exact h.nextTrace hmode hplots dir
  | restartTrace startRec =>
    exact ⟨_, makeDispList_init_eq hmode,
      fun _ => pageInv_inited hplots h.counted h.nodup ⟨hchosen.1, .inr hchosen.2⟩,
      fun _ => trivial⟩
  | selectAll value => exact ⟨_, rfl, fun _ => hselect _ (selectT_eq s value), fun _ => trivial⟩
  | select trcs => exact ⟨_, rfl, fun _ => hselect _ ⟨_, _, _, _, rfl⟩, fun _ => trivial⟩
  | remove => exact h.removeT hmode hplots

/-- From the first page on, the groups are right as long as every page back has a whole page to go
back to and every removal leaves enough; after any other command they are not. -/
theorem pages_right (hmode : cfg.mode = .TRACEMODE) (hplots : 1 ≤ cfg.numPlots)
    {traces : List τ} (hnodup : traces.Nodup) {cs : List (PageCommand τ)}
    (hcs : Allowed (pageCommand cfg) (fun s c => Chosen s c ∧ PageFits cfg s c)
      (State.ofTraces traces) (.initGroup :: cs)) :
    ∃ s, (PageCommand.initGroup :: cs).foldlM (pageCommand cfg) (State.ofTraces traces) = some s ∧
      Paged cfg s ∧ ∀ c s', Chosen s c → pageCommand cfg s c = some s' →
        (Paged cfg s' ↔ PageFits cfg s c) := by
  have hfirst : pageCommand cfg (State.ofTraces traces) .initGroup =
      some (inited cfg (State.ofTraces traces)) := makeDispList_init_eq hmode
  have hinit : PageInv cfg (inited cfg (State.ofTraces traces)) :=
    pageInv_inited hplots rfl hnodup ⟨le_rfl, .inl rfl⟩
  obtain ⟨s, hrun, hs⟩ := run_invariant (P := PageInv cfg) (fun t c ht hc => by
    obtain ⟨t', ht', hkeeps, -⟩ := ht.command hmode hplots hc.1
    exact ⟨t', ht', hkeeps hc.2⟩) hinit (hcs.2 _ hfirst)
  refine ⟨s, ?_, hs.paged hmode hplots, fun c s' hc hs' => ?_⟩
  · rw [List.foldlM_cons, hfirst]
    exact hrun
  · obtain ⟨t, ht, hkeeps, honly⟩ := hs.command hmode hplots hc
    obtain rfl := Option.some.inj (hs'.symm.trans ht)
    exact ⟨honly, fun hfits => (hkeeps hfits).paged hmode hplots⟩

end Steps

/-! ### Three traces -/

theorem pages_right_threeTraces : ∃ s,
    [PageCommand.initGroup, .nextTrace true, .nextTrace false].foldlM (pageCommand (pagesOf 2))
      (State.ofTraces [1, 2, 3]) = some s ∧ Paged (pagesOf 2) s := by
  have hcs : Allowed (pageCommand (pagesOf 2))
      (fun s c => Chosen s c ∧ PageFits (pagesOf 2) s c) (State.ofTraces [1, 2, 3])
      [.initGroup, .nextTrace true, .nextTrace false] := by
    refine ⟨⟨trivial, trivial⟩, fun s₁ h₁ => ⟨⟨trivial, trivial⟩, fun s₂ h₂ =>
      ⟨⟨trivial, .inr ?_⟩, fun _ _ => trivial⟩⟩⟩
    obtain rfl := Option.some.inj h₁
    obtain rfl := Option.some.inj h₂
    decide
  obtain ⟨s, hrun, hpaged, -⟩ := pages_right rfl (by decide) (by decide) hcs
  exact ⟨s, hrun, hpaged⟩

/-- A page back from the second trace does not make the next group anew; a removal of the last of
three traces leaves no page that begins with a trace. -/
theorem pages_threeTraces_wrong :
    (∃ s, [PageCommand.initGroup, .restartTrace 1, .nextTrace false].foldlM
        (pageCommand (pagesOf 2)) (State.ofTraces [1, 2, 3]) = some s ∧
      s.curGroup = [1, 2] ∧ s.nextGroup = [2, 3] ∧ ¬ Paged (pagesOf 2) s) ∧
    ∃ s, [PageCommand.initGroup, .restartTrace 2, .selectAll true, .remove].foldlM
        (pageCommand (pagesOf 12)) (State.ofTraces [1, 2, 3]) = some s ∧
      s.traces = [1, 2] ∧ s.startRec = -10 ∧ s.curGroup = [] ∧ ¬ Paged (pagesOf 12) s := by
  refine ⟨⟨_, rfl, rfl, rfl, fun hpaged => ?_⟩, ⟨_, rfl, rfl, rfl, rfl, fun hpaged => ?_⟩⟩
  · exact absurd hpaged.nextGroup (by decide)
  · exact absurd hpaged.startRec (by decide)

end PQL.Display
