import PQL.Display.Groups
import PQL.Lib.Runs

/-!
# References to traces

The two selections and the three groups refer to traces of the global list.  `freeData` takes a
trace that it releases out of that list and out of the current group only; the commands clear or
make anew some of the other lists.  So a released trace stays referenced exactly by the lists that a
command neither clears nor makes anew (`references_sound`).
-/

namespace PQL.Display

variable {τ : Type}

/-- The commands of a session, and the removal of a trace of the current page whose read failed. -/
inductive Command (τ : Type) where
  | selectAll (value : Bool)
  | select (trcs : List τ)
  | magnifySelect (magnifySelected : τ → Bool)
  | nextTrace (dir : Bool)
  | restartTrace (startRec : ℤ)
  | remove
  | removeAll
  | failedRead (n : ℕ)

/-- What a command does; `none` where it reads a trace that is not there. -/
def command [DecidableEq τ] (cfg : Settings τ) (s : State τ) : Command τ → Option (State τ)
  | .selectAll value => some (selectT s value)
  | .select trcs => some (selectTraces s trcs)
  | .magnifySelect magnifySelected => some (magnifySelect s magnifySelected)
  | .nextTrace dir => nextTrace cfg s dir
  | .restartTrace startRec => restartTrace cfg s startRec
  | .remove => removeT cfg s
  | .removeAll => some (killAllTraces s)
  | .failedRead n => s.curGroup[n]?.map (killTrace s)

/-! ## What the lists hold -/

/-- The list holds traces of the global list, and none of them twice. -/
structure Live (traces l : List τ) : Prop where
  mem : ∀ trc ∈ l, trc ∈ traces
  nodup : l.Nodup

namespace Live

variable {traces traces' l l' : List τ}

theorem nil : Live traces [] := ⟨nofun, .nil⟩

theorem of_sublist (h : Live traces l) (hsub : l'.Sublist l) : Live traces l' :=
  ⟨fun trc htrc => h.mem trc (hsub.subset htrc), h.nodup.sublist hsub⟩

theorem perm (h : Live traces l) (hperm : l'.Perm l) : Live traces l' :=
  ⟨fun trc htrc => h.mem trc (hperm.subset htrc), hperm.nodup_iff.2 h.nodup⟩

theorem of_perm (h : Live traces l) (hperm : traces'.Perm traces) : Live traces' l :=
  ⟨fun trc htrc => hperm.symm.subset (h.mem trc htrc), h.nodup⟩

theorem self (h : traces.Nodup) : Live traces traces := ⟨fun _ => id, h⟩

variable [DecidableEq τ]

/-- A list that does not hold the trace that is removed. -/
theorem erase_iff (h : Live traces l) (hnodup : traces.Nodup) (trc : τ) :
    Live (traces.erase trc) l ↔ trc ∉ l := by
  constructor
  · intro hlive hmem
    exact hnodup.not_mem_erase (hlive.mem trc hmem)
  · intro hnot
    refine ⟨fun t ht => ?_, h.nodup⟩
    have hne : t ≠ trc := fun heq => hnot (heq ▸ ht)
    exact (List.mem_erase_of_ne hne).2 (h.mem t ht)

theorem erase (h : Live traces l) (hnodup : traces.Nodup) (trc : τ) :
    Live (traces.erase trc) (l.erase trc) :=
  ((h.of_sublist List.erase_sublist).erase_iff hnodup trc).2 h.nodup.not_mem_erase

end Live

/-- A group of the state. -/
def State.group (s : State τ) : Group → List τ
  | .PREVGRP => s.prevGroup
  | .CURGRP => s.curGroup
  | .NEXTGRP => s.nextGroup

/-- No list refers to a trace that is not in the global list, none holds a trace twice, and
`numSelected` counts the selection. -/
structure Sound (s : State τ) : Prop where
  prevGroup : Live s.traces s.prevGroup
  curGroup : Live s.traces s.curGroup
  nextGroup : Live s.traces s.nextGroup
  selection : Live s.traces s.selection
  magnifySelection : Live s.traces s.magnifySelection
  numSelected : s.numSelected = s.selection.length

/-- The page that a previous-page command takes over in gather mode. -/
def takenPage (cfg : Settings τ) (s : State τ) : List τ :=
  if cfg.mode = .GATHERMODE then s.prevList.headD [] else []

/-- The lists that a command neither clears nor makes anew do not hold the traces that it releases,
and the page that it takes over holds traces of the global list only. -/
def Clean (cfg : Settings τ) (s : State τ) : Command τ → Prop
  | .remove => s.numTraces ≠ 0 → ∀ trc ∈ s.selection, trc ∉ s.magnifySelection
  | .removeAll =>
    s.prevGroup = [] ∧ s.nextGroup = [] ∧ s.magnifySelection = [] ∧ s.numSelected = 0
  | .failedRead n => ∀ trc, s.curGroup[n]? = some trc →
    trc ∉ s.prevGroup ∧ trc ∉ s.nextGroup ∧ trc ∉ s.selection ∧ trc ∉ s.magnifySelection
  | .nextTrace false => s.prevGroup ≠ [] → ∀ trc ∈ takenPage cfg s, trc ∈ s.traces
  | _ => True

/-- What holds besides. -/
structure Inv (s : State τ) : Prop where
  sound : Sound s
  nodup : s.traces.Nodup
  pages : ∀ page ∈ s.prevList, page.Nodup

/-! ## Pages -/

section Pages

variable {cfg : Settings τ} {s s' : State τ}

theorem gSlistNth_sublist (l : List τ) (n : ℤ) : (gSlistNth l n).Sublist l := by
  unfold gSlistNth
  split_ifs
  · exact List.drop_sublist _ _
  · exact List.nil_sublist _

theorem traceGroup_sublist (cfg : Settings τ) (s : State τ) (which : Group) :
    (traceGroup cfg s which).Sublist s.traces := by
  unfold traceGroup
  split_ifs
  · exact List.nil_sublist _
  · exact (List.take_sublist _ _).trans (gSlistNth_sublist _ _)

theorem gathered_sublist {l page : List τ} (h : gathered cfg l = some page) : page.Sublist l := by
  cases l with
  | nil => simp [gathered] at h
  | cons first l =>
    obtain rfl := Option.some.inj h
    exact List.takeWhile_sublist _

theorem gSlistSort_perm (compare : τ → τ → ℤ) (l : List τ) : (gSlistSort compare l).Perm l :=
  List.mergeSort_perm _ _

@[simp] theorem group_setGroup (s : State τ) (l : List τ) (which : Group) :
    (s.setGroup l which).group which = l := by
  cases which <;> rfl

theorem group_setGroup_of_ne (s : State τ) (l : List τ) {which g : Group} (h : g ≠ which) :
    (s.setGroup l which).group g = s.group g := by
  cases which <;> cases g <;> first | rfl | exact absurd rfl h

section SetGroup

variable (s : State τ) (l : List τ) (which : Group)

@[simp] theorem setGroup_traces : (s.setGroup l which).traces = s.traces := by cases which <;> rfl
@[simp] theorem setGroup_numTraces : (s.setGroup l which).numTraces = s.numTraces := by
  cases which <;> rfl
@[simp] theorem setGroup_startRec : (s.setGroup l which).startRec = s.startRec := by
  cases which <;> rfl
@[simp] theorem setGroup_selection : (s.setGroup l which).selection = s.selection := by
  cases which <;> rfl
@[simp] theorem setGroup_magnifySelection :
    (s.setGroup l which).magnifySelection = s.magnifySelection := by cases which <;> rfl
@[simp] theorem setGroup_numSelected : (s.setGroup l which).numSelected = s.numSelected := by
  cases which <;> rfl
@[simp] theorem setGroup_prevList : (s.setGroup l which).prevList = s.prevList := by
  cases which <;> rfl

end SetGroup

/-- What `dispList` does to the state, whatever its mode. -/
structure Displays (cfg : Settings τ) (s s' : State τ) (which : Group) : Prop where
  traces : s'.traces.Perm s.traces
  numTraces : s'.numTraces = s.numTraces
  startRec : s'.startRec = s.startRec
  selection : s'.selection = s.selection
  magnifySelection : s'.magnifySelection = s.magnifySelection
  numSelected : s'.numSelected = s.numSelected
  prevList : s'.prevList.Sublist s.prevList
  others : ∀ g ≠ which, s'.group g = s.group g
  group : s.traces.Nodup → (which = .PREVGRP → Live s.traces (takenPage cfg s)) →
    Live s.traces (s'.group which)
  taken : which = .PREVGRP → Live s.traces (s'.group which) → Live s.traces (takenPage cfg s)

/-- The lists that `dispList` does not make stay sound. -/
theorem Displays.sound {which : Group} (h : Displays cfg s s' which)
    (hprev : Live s.traces s'.prevGroup) (hcur : Live s.traces s'.curGroup)
    (hnext : Live s.traces s'.nextGroup) (hselection : Live s.traces s.selection)
    (hmagnify : Live s.traces s.magnifySelection) (hnum : s.numSelected = s.selection.length) :
    Sound s' := by
  refine ⟨hprev.of_perm h.traces, hcur.of_perm h.traces, hnext.of_perm h.traces, ?_, ?_, ?_⟩
  · rw [h.selection]
    exact hselection.of_perm h.traces
  · rw [h.magnifySelection]
    exact hmagnify.of_perm h.traces
  · rw [h.numSelected, h.selection, hnum]

/-- `dispList` when it makes the group of traces of the global list. -/
theorem displays_setGroup {which : Group} {page : List τ} (hpage : page.Sublist s.traces)
    (htaken : which = .PREVGRP → takenPage cfg s = []) :
    Displays cfg s (s.setGroup page which) which where
  traces := by simp
  numTraces := by simp
  startRec := by simp
  selection := by simp
  magnifySelection := by simp
  numSelected := by simp
  prevList := by simp
  others _ hg := group_setGroup_of_ne s page hg
  group hnodup _ := by
    rw [group_setGroup]
    exact (Live.self hnodup).of_sublist hpage
  taken hwhich _ := by
    rw [htaken hwhich]
    exact Live.nil

/-- `dispList` when it sorts the traces and gathers a page. -/
theorem displays_gatherGroup [DecidableEq τ] {t : State τ} {traces : List τ} {current : τ → ℤ}
    {startRec : ℤ} {which : Group} (hwhich : which ≠ .PREVGRP) (hperm : traces.Perm s.traces)
    (ht : t = { s with traces, current }) (h : gatherGroup cfg t startRec which = some s') :
    Displays cfg s s' which := by
  subst ht
  obtain ⟨page, hpage, rfl⟩ := Option.map_eq_some_iff.1 h
  refine ⟨by simpa using hperm, by simp, by simp, by simp, by simp, by simp, by simp, ?_, ?_, ?_⟩
  · intro g hg
    cases which <;> cases g <;> first | rfl | exact absurd rfl hg
  · intro hnodup _
    have hsub := (gathered_sublist hpage).trans (gSlistNth_sublist _ _)
    have hlive := ((Live.self (hperm.nodup_iff.2 hnodup)).of_sublist hsub).of_perm hperm.symm
    have hgroup := hlive.perm (gSlistSort_perm (cfg.listSort .SORTINSTID) page)
    cases which <;> exact hgroup
  · exact fun heq => absurd heq hwhich

theorem dispList_displays [DecidableEq τ] {which : Group} (h : dispList cfg s which = some s') :
    Displays cfg s s' which := by
  unfold dispList at h
  cases hmode : cfg.mode with
  | TRACEMODE =>
    rw [hmode] at h
    obtain rfl := Option.some.inj h
    exact displays_setGroup (traceGroup_sublist cfg s which) fun _ => by simp [takenPage, hmode]
  | GATHERMODE =>
    rw [hmode] at h
    cases which with
    | CURGRP => exact displays_gatherGroup nofun (gSlistSort_perm _ _) rfl h
    | NEXTGRP =>
      simp only at h
      split_ifs at h with hend
      · obtain rfl := Option.some.inj h
        exact displays_setGroup (List.nil_sublist _) nofun
      · exact displays_gatherGroup nofun (.refl _) rfl h
    | PREVGRP =>
      simp only at h
      cases hlist : s.prevList with
      | nil =>
        rw [hlist] at h
        obtain rfl := Option.some.inj h
        exact displays_setGroup (List.nil_sublist _) fun _ => by simp [takenPage, hlist]
      | cons page prevList =>
        rw [hlist] at h
        obtain rfl := Option.some.inj h
        have htaken : takenPage cfg s = page := by simp [takenPage, hmode, hlist]
        refine ⟨.refl _, rfl, rfl, rfl, rfl, rfl, by simp [hlist], ?_, ?_, ?_⟩
        · intro g hg
          cases g <;> first | rfl | exact absurd rfl hg
        · intro _ hpage
          exact htaken ▸ hpage rfl
        · intro _ hlive
          exact htaken.symm ▸ hlive

/-- What `makeDispList(INITGROUP)` does: the groups are made anew, everything else is as before. -/
structure Inits (s s' : State τ) : Prop where
  traces : s'.traces.Perm s.traces
  prevGroup : Live s.traces s'.prevGroup
  curGroup : Live s.traces s'.curGroup
  nextGroup : Live s.traces s'.nextGroup
  selection : s'.selection = s.selection
  magnifySelection : s'.magnifySelection = s.magnifySelection
  numSelected : s'.numSelected = s.numSelected
  prevList : s'.prevList = []

theorem makeDispList_init [DecidableEq τ] (h : makeDispList cfg s .INITGROUP = some s')
    (hnodup : s.traces.Nodup) : Inits s s' := by
  obtain ⟨s₁, h₁, hrest⟩ := Option.bind_eq_some_iff.1 h
  obtain ⟨s₂, h₂, h₃⟩ := Option.bind_eq_some_iff.1 hrest
  have hcur := dispList_displays h₁
  have hprev := dispList_displays h₂
  have hnext := dispList_displays h₃
  have hlist₁ : s₁.prevList = [] := by simpa using hcur.prevList
  have hlist₂ : s₂.prevList = [] := by simpa [hlist₁] using hprev.prevList
  have hperm₂ : s₂.traces.Perm s.traces := hprev.traces.trans hcur.traces
  have hgprev := hprev.group (hcur.traces.nodup_iff.2 hnodup) fun _ => by
    simp [takenPage, hlist₁, Live.nil]
  have hgnext := hnext.group (hperm₂.nodup_iff.2 hnodup) nofun
  have heprev : s'.prevGroup = s₂.prevGroup := hnext.others .PREVGRP nofun
  have hecur : s'.curGroup = s₁.curGroup :=
    (hnext.others .CURGRP nofun).trans (hprev.others .CURGRP nofun)
  refine ⟨hnext.traces.trans hperm₂, ?_, ?_, hgnext.of_perm hperm₂.symm, ?_, ?_, ?_, ?_⟩
  · rw [heprev]
    exact hgprev.of_perm hcur.traces.symm
  · rw [hecur]
    exact hcur.group hnodup nofun
  · rw [hnext.selection, hprev.selection, hcur.selection]
  · rw [hnext.magnifySelection, hprev.magnifySelection, hcur.magnifySelection]
  · rw [hnext.numSelected, hprev.numSelected, hcur.numSelected]
  · simpa [hlist₂] using hnext.prevList

theorem Inits.inv (h : Inits s s') (hnodup : s.traces.Nodup)
    (hselection : Live s.traces s.selection)
    (hmagnify : Live s.traces s.magnifySelection) (hnum : s.numSelected = s.selection.length) :
    Inv s' := by
  refine ⟨⟨h.prevGroup.of_perm h.traces, h.curGroup.of_perm h.traces, h.nextGroup.of_perm h.traces,
    ?_, ?_, ?_⟩, h.traces.nodup_iff.2 hnodup, by simp [h.prevList]⟩
  · rw [h.selection]
    exact hselection.of_perm h.traces
  · rw [h.magnifySelection]
    exact hmagnify.of_perm h.traces
  · rw [h.numSelected, h.selection, hnum]

end Pages

/-! ## Selections -/

section Selections

variable {cfg : Settings τ} {s s' : State τ}

theorem foldl_insertSorted_perm (current : τ → ℤ) (l acc : List τ) :
    (l.foldl (insertSorted current) acc).Perm (l ++ acc) := by
  induction l generalizing acc with
  | nil => exact .refl _
  | cons trc l ih =>
    refine (ih (insertSorted current acc trc)).trans ?_
    have hinsert : (insertSorted current acc trc).Perm (trc :: acc) := List.perm_orderedInsert _ _ _
    exact (hinsert.append_left l).trans List.perm_middle

/-- The selected traces of a list. -/
theorem Live.sorted_filter {traces l : List τ} (h : Live traces l) (current : τ → ℤ)
    (p : τ → Bool) :
    Live traces ((l.filter p).foldl (insertSorted current) []) := by
  have hperm := foldl_insertSorted_perm current (l.filter p) []
  rw [List.append_nil] at hperm
  exact (h.of_sublist List.filter_sublist).perm hperm

theorem makeSelectionList_inv (hs : Inv s) (selectAll : Bool) :
    Inv (makeSelectionList s selectAll) := by
  obtain ⟨⟨hprev, hcur, hnext, -, -, -⟩, hnodup, hpages⟩ := hs
  exact ⟨⟨hprev, hcur, hnext, hcur.sorted_filter _ _, Live.nil, rfl⟩, hnodup, hpages⟩

/-- The flags of the traces are not part of the invariant. -/
theorem Inv.of_flags (hs : Inv s) (traceSelected magnifySelected : τ → Bool) :
    Inv { s with traceSelected, magnifySelected } := by
  obtain ⟨⟨hprev, hcur, hnext, hselection, hmagnify, hnum⟩, hnodup, hpages⟩ := hs
  exact ⟨⟨hprev, hcur, hnext, hselection, hmagnify, hnum⟩, hnodup, hpages⟩

theorem magnifySelect_inv (hs : Inv s) (magnifySelected : τ → Bool) :
    Inv (magnifySelect s magnifySelected) := by
  obtain ⟨⟨hprev, hcur, hnext, hselection, -, hnum⟩, hnodup, hpages⟩ := hs
  exact ⟨⟨hprev, hcur, hnext, hselection, hselection.sorted_filter _ _, hnum⟩, hnodup, hpages⟩

variable [DecidableEq τ]

theorem selectT_inv (hs : Inv s) (value : Bool) : Inv (selectT s value) := by
  unfold selectT
  split_ifs
  · exact hs
  · exact makeSelectionList_inv (hs.of_flags _ s.magnifySelected) false

theorem selectT_eq (s : State τ) (value : Bool) :
    ∃ traceSelected selection numSelected magnifySelection, selectT s value =
      { s with traceSelected, selection, numSelected, magnifySelection } := by
  unfold selectT
  split_ifs
  · exact ⟨_, _, _, _, rfl⟩
  · exact ⟨_, _, _, _, rfl⟩

theorem selectT_groups (s : State τ) (value : Bool) (which : Group) :
    (selectT s value).group which = s.group which := by
  unfold selectT
  split_ifs
  · rfl
  · cases which <;> rfl

theorem selectT_traces (s : State τ) (value : Bool) :
    (selectT s value).traces = s.traces ∧ (selectT s value).prevList = s.prevList := by
  unfold selectT
  split_ifs <;> exact ⟨rfl, rfl⟩

/-! ## Moving from page to page -/

theorem nextGroup_inv (hs : Inv s) (h : makeDispList cfg s .NEXTGROUP = some s') : Inv s' := by
  have hdisp := dispList_displays h
  have hprev : s'.prevGroup = s.curGroup := hdisp.others .PREVGRP nofun
  have hcur : s'.curGroup = s.nextGroup := hdisp.others .CURGRP nofun
  have hnext : Live s.traces s'.nextGroup := hdisp.group hs.nodup nofun
  refine ⟨hdisp.sound ?_ ?_ hnext hs.sound.selection hs.sound.magnifySelection
    hs.sound.numSelected, hdisp.traces.nodup_iff.2 hs.nodup,
    fun page hpage => ?_⟩
  · rw [hprev]
    exact hs.sound.curGroup
  · rw [hcur]
    exact hs.sound.nextGroup
  · have hmem := hdisp.prevList.subset hpage
    simp only at hmem
    split_ifs at hmem
    · rcases List.mem_cons.1 hmem with rfl | hmem
      · exact hs.sound.prevGroup.nodup
      · exact hs.pages page hmem
    · exact hs.pages page hmem

/-- The previous page comes from `prevList` in gather mode. -/
theorem prevGroup_inv_iff (hs : Inv s) (h : makeDispList cfg s .PREVGROUP = some s') :
    s'.traces.Nodup ∧ (∀ page ∈ s'.prevList, page.Nodup) ∧
      (Sound s' ↔ ∀ trc ∈ takenPage cfg s, trc ∈ s.traces) := by
  have hdisp := dispList_displays h
  have hcur : s'.curGroup = s.prevGroup := hdisp.others .CURGRP nofun
  have hnext : s'.nextGroup = s.curGroup := hdisp.others .NEXTGRP nofun
  refine ⟨hdisp.traces.nodup_iff.2 hs.nodup, fun page hpage => ?_, fun hsound => ?_,
    fun htaken => ?_⟩
  · exact hs.pages page (hdisp.prevList.subset hpage)
  · exact (hdisp.taken rfl (hsound.prevGroup.of_perm hdisp.traces.symm)).mem
  · have hpage : (takenPage cfg s).Nodup := by
      unfold takenPage
      split_ifs
      · cases hlist : s.prevList with
        | nil => exact .nil
        | cons page pages => exact hs.pages page (by simp [hlist])
      · exact .nil
    have hprev : Live s.traces s'.prevGroup := hdisp.group hs.nodup fun _ => ⟨htaken, hpage⟩
    refine hdisp.sound hprev ?_ ?_ hs.sound.selection hs.sound.magnifySelection
      hs.sound.numSelected
    · rw [hcur]
      exact hs.sound.prevGroup
    · rw [hnext]
      exact hs.sound.curGroup

/-! ## Removals -/

theorem foldl_freeTrace (l : List τ) (s : State τ) :
    l.foldl freeTrace s = { s with traces := s.traces.diff l, curGroup := s.curGroup.diff l } := by
  induction l generalizing s with
  | nil => rfl
  | cons trc l ih => rw [List.foldl_cons, ih, freeTrace, List.diff_cons, List.diff_cons]

/-- A list when the traces of `l` are removed from the global list. -/
theorem Live.diff_iff {traces l l' : List τ} (h : Live traces l') (hnodup : traces.Nodup) :
    Live (traces.diff l) l' ↔ ∀ trc ∈ l, trc ∉ l' := by
  rw [hnodup.sdiff_eq_filter]
  constructor
  · intro hlive trc hl hl'
    simpa [hl] using hlive.mem trc hl'
  · intro hdisjoint
    refine ⟨fun trc htrc => ?_, h.nodup⟩
    simpa [h.mem trc htrc] using fun hl => hdisjoint trc hl htrc

theorem removeT_inv_iff (hs : Inv s) (h : removeT cfg s = some s') :
    s'.traces.Nodup ∧ (∀ page ∈ s'.prevList, page.Nodup) ∧
      (Sound s' ↔ Clean cfg s .remove) := by
  unfold removeT at h
  split_ifs at h with hzero
  · obtain rfl := Option.some.inj h
    exact ⟨hs.nodup, hs.pages, iff_of_true hs.sound fun hne => absurd hzero hne⟩
  · have htraces : (killSelectedTraces cfg s).traces = s.traces.diff s.selection := by
      simp [killSelectedTraces, foldl_freeTrace]
    have hmagnify : (killSelectedTraces cfg s).magnifySelection = s.magnifySelection := by
      simp [killSelectedTraces, foldl_freeTrace]
    have hnodup : (killSelectedTraces cfg s).traces.Nodup := by
      rw [htraces]
      exact hs.nodup.diff
    have hinits := makeDispList_init h hnodup
    have hiff := hs.sound.magnifySelection.diff_iff (l := s.selection) hs.nodup
    refine ⟨hinits.traces.nodup_iff.2 hnodup, by simp [hinits.prevList], fun hsound _ => ?_,
      fun hclean => ?_⟩
    · have hlive := hsound.magnifySelection.of_perm hinits.traces.symm
      rw [hinits.magnifySelection, hmagnify, htraces] at hlive
      exact hiff.1 hlive
    · refine (hinits.inv hnodup Live.nil ?_ rfl).sound
      rw [hmagnify, htraces]
      exact hiff.2 (hclean hzero)

omit [DecidableEq τ] in
theorem Live.eq_nil {l : List τ} (h : Live [] l) : l = [] :=
  List.eq_nil_iff_forall_not_mem.2 fun trc htrc => nomatch h.mem trc htrc

theorem killAllTraces_inv_iff (hs : Inv s) :
    (killAllTraces s).traces.Nodup ∧ (∀ page ∈ (killAllTraces s).prevList, page.Nodup) ∧
      (Sound (killAllTraces s) ↔ Clean cfg s .removeAll) := by
  have htraces : (killAllTraces s).traces = [] := by
    simp [killAllTraces, foldl_freeTrace, hs.nodup.sdiff_eq_filter]
  have hcur : (killAllTraces s).curGroup = [] := by
    have hmem := hs.sound.curGroup.mem
    simpa [killAllTraces, foldl_freeTrace, hs.sound.curGroup.nodup.sdiff_eq_filter] using hmem
  have hfields : (killAllTraces s).prevGroup = s.prevGroup ∧
      (killAllTraces s).nextGroup = s.nextGroup ∧
      (killAllTraces s).magnifySelection = s.magnifySelection ∧
      (killAllTraces s).numSelected = s.numSelected ∧
      (killAllTraces s).prevList = s.prevList ∧ (killAllTraces s).selection = [] := by
    simp [killAllTraces, foldl_freeTrace]
  obtain ⟨hprev, hnext, hmagnify, hnum, hlist, hselection⟩ := hfields
  refine ⟨by simp [htraces], by simpa [hlist] using hs.pages, fun hsound => ?_, fun hclean => ?_⟩
  · obtain ⟨hlprev, -, hlnext, -, hlmagnify, hlnum⟩ := hsound
    rw [htraces] at hlprev hlnext hlmagnify
    rw [hnum, hselection] at hlnum
    exact ⟨hprev ▸ hlprev.eq_nil, hnext ▸ hlnext.eq_nil, hmagnify ▸ hlmagnify.eq_nil, hlnum⟩
  · obtain ⟨heprev, henext, hemagnify, henum⟩ := hclean
    rw [heprev] at hprev
    rw [henext] at hnext
    rw [hemagnify] at hmagnify
    constructor
    · exact hprev ▸ Live.nil
    · exact hcur ▸ Live.nil
    · exact hnext ▸ Live.nil
    · exact hselection ▸ Live.nil
    · exact hmagnify ▸ Live.nil
    · simp [hnum, henum, hselection]

theorem killTrace_inv_iff (hs : Inv s) {n : ℕ} {trc : τ} (hn : s.curGroup[n]? = some trc) :
    (killTrace s trc).traces.Nodup ∧ (∀ page ∈ (killTrace s trc).prevList, page.Nodup) ∧
      (Sound (killTrace s trc) ↔ Clean cfg s (.failedRead n)) := by
  obtain ⟨⟨hprev, hcur, hnext, hselection, hmagnify, hnum⟩, hnodup, hpages⟩ := hs
  have hiff : Sound (killTrace s trc) ↔ trc ∉ s.prevGroup ∧ trc ∉ s.nextGroup ∧
      trc ∉ s.selection ∧ trc ∉ s.magnifySelection := by
    constructor
    · rintro ⟨hprev', -, hnext', hselection', hmagnify', -⟩
      exact ⟨(hprev.erase_iff hnodup trc).1 hprev', (hnext.erase_iff hnodup trc).1 hnext',
        (hselection.erase_iff hnodup trc).1 hselection',
        (hmagnify.erase_iff hnodup trc).1 hmagnify'⟩
    · rintro ⟨hprev', hnext', hselection', hmagnify'⟩
      exact ⟨(hprev.erase_iff hnodup trc).2 hprev', hcur.erase hnodup trc,
        (hnext.erase_iff hnodup trc).2 hnext', (hselection.erase_iff hnodup trc).2 hselection',
        (hmagnify.erase_iff hnodup trc).2 hmagnify', hnum⟩
  refine ⟨hnodup.erase trc, hpages, hiff.trans ⟨fun h t ht => ?_, fun h => h trc hn⟩⟩
  obtain rfl := Option.some.inj (hn.symm.trans ht)
  exact h

/-! ## Sessions -/

/-- A command leaves the references sound exactly if it is clean. -/
theorem command_inv_iff (hs : Inv s) {c : Command τ} (h : command cfg s c = some s') :
    s'.traces.Nodup ∧ (∀ page ∈ s'.prevList, page.Nodup) ∧ (Sound s' ↔ Clean cfg s c) := by
  have hgood : ∀ {t : State τ} {c : Command τ}, Inv t → Clean cfg s c →
      t.traces.Nodup ∧ (∀ page ∈ t.prevList, page.Nodup) ∧ (Sound t ↔ Clean cfg s c) :=
    fun ht hclean => ⟨ht.nodup, ht.pages, iff_of_true ht.sound hclean⟩
  cases c with
  | selectAll value =>
    obtain rfl := Option.some.inj h
    exact hgood (selectT_inv hs value) trivial
  | select trcs =>
    obtain rfl := Option.some.inj h
    exact hgood (makeSelectionList_inv (hs.of_flags _ s.magnifySelected) false) trivial
  | magnifySelect flags =>
    obtain rfl := Option.some.inj h
    exact hgood (magnifySelect_inv hs flags) trivial
  | nextTrace dir =>
    have hs₁ := selectT_inv hs false
    have hprev : (selectT s false).prevGroup = s.prevGroup := selectT_groups s false .PREVGRP
    have htaken : takenPage cfg (selectT s false) = takenPage cfg s := by
      rw [takenPage, takenPage, (selectT_traces s false).2]
    cases dir with
    | true =>
      simp only [command, nextTrace, if_true] at h
      split_ifs at h with hnil
      · obtain rfl := Option.some.inj h
        exact hgood hs₁ trivial
      · exact hgood (nextGroup_inv hs₁ h) trivial
    | false =>
      simp only [command, nextTrace, Bool.false_eq_true, if_false, hprev] at h
      split_ifs at h with hnil
      · obtain rfl := Option.some.inj h
        exact hgood hs₁ fun hne => absurd hnil hne
      · obtain ⟨hnodup, hpages, hiff⟩ := prevGroup_inv_iff hs₁ h
        rw [htaken, (selectT_traces s false).1] at hiff
        exact ⟨hnodup, hpages, hiff.trans ⟨fun htaken _ => htaken, fun hclean => hclean hnil⟩⟩
  | restartTrace startRec =>
    have hinits := makeDispList_init h hs.nodup
    exact hgood (hinits.inv hs.nodup hs.sound.selection hs.sound.magnifySelection
      hs.sound.numSelected) trivial
  | remove => exact removeT_inv_iff hs h
  | removeAll =>
    obtain rfl := Option.some.inj h
    exact killAllTraces_inv_iff hs
  | failedRead n =>
    obtain ⟨trc, hn, rfl⟩ := Option.map_eq_some_iff.1 h
    exact killTrace_inv_iff hs hn

theorem command_inv (hs : Inv s) {c : Command τ} (hclean : Clean cfg s c)
    (h : command cfg s c = some s') : Inv s' := by
  obtain ⟨hnodup, hpages, hiff⟩ := command_inv_iff hs h
  exact ⟨hiff.2 hclean, hnodup, hpages⟩

omit [DecidableEq τ] in
theorem inv_ofTraces {traces : List τ} (hnodup : traces.Nodup) : Inv (State.ofTraces traces) :=
  ⟨⟨Live.nil, Live.nil, Live.nil, Live.nil, Live.nil, rfl⟩, hnodup, nofun⟩

/-- In a session of clean commands no list ever refers to a released trace; a command that is not
clean leaves such a reference. -/
theorem references_sound (cfg : Settings τ) {traces : List τ} (hnodup : traces.Nodup)
    {cs : List (Command τ)}
    (hclean : Allowed (command cfg) (Clean cfg) (State.ofTraces traces) cs) {s : State τ}
    (hrun : cs.foldlM (command cfg) (State.ofTraces traces) = some s) :
    Sound s ∧ ∀ c s', command cfg s c = some s' → (Sound s' ↔ Clean cfg s c) := by
  have hs : Inv s := run_preserves (fun _ _ _ hs hclean h => command_inv hs hclean h)
    (inv_ofTraces hnodup) hclean hrun
  exact ⟨hs.sound, fun c s' h => (command_inv_iff hs h).2.2⟩

end Selections

/-- Pages of `numPlots` traces in trace mode. -/
def pagesOf (numPlots : ℤ) : Settings ℕ where
  mode := .TRACEMODE
  numPlots
  listSort _ _ _ := 0
  apart _ _ := false

theorem references_sound_selectAll :
    ∃ s, [Command.restartTrace 0, .selectAll true].foldlM (command (pagesOf 2))
      (State.ofTraces [1, 2, 3]) = some s ∧ Sound s := by
  have hclean : Allowed (command (pagesOf 2)) (Clean (pagesOf 2)) (State.ofTraces [1, 2, 3])
      [.restartTrace 0, .selectAll true] :=
    ⟨trivial, fun _ _ => ⟨trivial, fun _ _ => trivial⟩⟩
  exact ⟨_, rfl, (references_sound (pagesOf 2) (by decide) hclean rfl).1⟩

/-- Remove-all leaves the next group as it is. -/
theorem references_removeAll :
    ∃ s, [Command.restartTrace 0, .removeAll].foldlM (command (pagesOf 1))
      (State.ofTraces [1, 2]) = some s ∧ ¬Sound s := by
  refine ⟨_, rfl, fun hsound => ?_⟩
  have hmem := hsound.nextGroup.mem 2 (by decide)
  exact absurd hmem (by decide)

end PQL.Display
