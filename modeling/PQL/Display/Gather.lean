import PQL.Display.References
import PQL.Lib.Batches
import PQL.Lib.Rounding

/-!
# Walking through gathered pages

In gather mode the list, sorted by start time, falls into blocks of traces that start within
`spread` of the first one of their block.  The pages that `nextTrace` goes through are these blocks,
and a page forward and a page back restore the pages, if the list is not empty and the traces are
not counted too many (`gather_navigation_iff`).
-/

namespace PQL.Display

/-! ## Blocks of the list -/

section Blocks

variable {τ : Type} (epochs : τ → ℚ) (spread : ℚ)

/-- The start times differ, as a `double`, by more than `spread`. -/
def startsApart (first trc : τ) : Bool := spread < roundTo 53 (epochs trc - epochs first)

/-- The partition of a list into maximal runs of traces that start within `spread` of the first one
of their run. -/
structure GatherBlocks (traces : List τ) (blocks : List (List τ)) : Prop where
  flatten : blocks.flatten = traces
  within : ∀ block ∈ blocks, ∃ first rest, block = first :: rest ∧
    ∀ trc ∈ rest, startsApart epochs spread first trc = false
  maximal : blocks.IsChain fun block next =>
    ∀ first ∈ block.head?, ∀ trc ∈ next.head?, startsApart epochs spread first trc = true

/-- The cut of the list from its front on. -/
def gatherBlocks (traces : List τ) : List (List τ) :=
  batches (fun first trc => !startsApart epochs spread first trc) traces

theorem gatherBlocks_blocks (traces : List τ) :
    GatherBlocks epochs spread traces (gatherBlocks epochs spread traces) := by
  refine ⟨flatten_batches traces, fun block hblock => ?_, ?_⟩
  · obtain ⟨first, rest, rfl, hrest⟩ := exists_of_mem_batches hblock
    exact ⟨first, rest, rfl, fun trc htrc => by simpa using hrest trc htrc⟩
  · refine (isChain_batches traces).imp fun block next hnext first hfirst trc htrc => ?_
    simpa using hnext first hfirst trc htrc

theorem startsApart_self (hspread : 0 ≤ spread) (trc : τ) :
    startsApart epochs spread trc trc = false := by
  unfold startsApart
  rw [sub_self, roundTo_zero]
  exact decide_eq_false (not_lt.2 hspread)

end Blocks

/-! ## Pages -/

section Pages

variable {τ : Type} [DecidableEq τ] (cfg : Settings τ) (epochs : τ → ℚ) (spread : ℚ)

/-- The screen shows gathered pages. -/
structure Gathers : Prop where
  mode : cfg.mode = .GATHERMODE
  spread_nonneg : 0 ≤ spread
  apart : cfg.apart = startsApart epochs spread

/-- The list as it is sorted for gathering. -/
def startOrder (traces : List τ) : List τ := gSlistSort (cfg.listSort .SORTSTARTTIME) traces

/-- A block in the order of the instruments. -/
def pageOf (block : List τ) : List τ := gSlistSort (cfg.listSort .SORTINSTID) block

/-- The current page is a block, and `startRec` is the index of its first trace. -/
def ShowsBlock (blocks : List (List τ)) (s : State τ) : Prop :=
  ∃ front block back, blocks = front ++ block :: back ∧ s.curGroup = pageOf cfg block ∧
    s.startRec = front.flatten.length

/-- A page forward and a page back restore the pages. -/
def GoesBack (s : State τ) : Prop :=
  ∃ t u, nextTrace cfg s true = some t ∧ nextTrace cfg t false = some u ∧
    u.prevGroup = s.prevGroup ∧ u.curGroup = s.curGroup ∧ u.nextGroup = s.nextGroup ∧
    u.startRec = s.startRec

/-- There is a page to go to. -/
def HasNeighbour (s : State τ) (dir : Bool) : Prop :=
  (if dir then s.nextGroup else s.prevGroup) ≠ []

/-- From the first page on, every walk shows blocks of one partition of the list, and each page
forward can be taken back. -/
def Navigates (s : State τ) : Prop :=
  ∃ blocks, GatherBlocks epochs spread (startOrder cfg s.traces) blocks ∧
    ∃ s₀, makeDispList cfg s .INITGROUP = some s₀ ∧
      ∀ dirs, Allowed (nextTrace cfg) HasNeighbour s₀ dirs →
        ∃ s', dirs.foldlM (nextTrace cfg) s₀ = some s' ∧ ShowsBlock cfg blocks s' ∧
          (s'.nextGroup ≠ [] → GoesBack cfg s')

end Pages

section Walk

variable {τ : Type} {cfg : Settings τ} {epochs : τ → ℚ} {spread : ℚ}

/-- The index of the first trace of a block. -/
def blockStart (blocks : List (List τ)) (k : ℕ) : ℕ := (blocks.take k).flatten.length

theorem blockStart_succ {blocks : List (List τ)} (h : k < blocks.length) :
    blockStart blocks (k + 1) = blockStart blocks k + blocks[k].length := by
  unfold blockStart
  rw [List.take_succ_eq_append_getElem h, List.flatten_concat, List.length_append]

theorem length_pageOf (block : List τ) : (pageOf cfg block).length = block.length :=
  (gSlistSort_perm _ _).length_eq

theorem gathered_of_gathers (hg : Gathers cfg epochs spread) (l : List τ) :
    gathered cfg l = (gatherBlocks epochs spread l).head? := by
  cases l with
  | nil => rw [gatherBlocks, batches_nil]; rfl
  | cons first l =>
    have hfirst : (!cfg.apart first first) = true := by
      rw [hg.apart, startsApart_self epochs spread hg.spread_nonneg]
      rfl
    have htake : (first :: l).takeWhile (fun trc => !cfg.apart first trc) =
        first :: l.takeWhile fun trc => !cfg.apart first trc := List.takeWhile_cons_of_pos hfirst
    rw [gatherBlocks, batches_cons, gathered, htake, hg.apart]
    rfl

/-- What is gathered from the start of a block on is the block. -/
theorem gathered_blockStart (hg : Gathers cfg epochs spread) (traces : List τ) (k : ℕ) :
    gathered cfg (gSlistNth traces (blockStart (gatherBlocks epochs spread traces) k)) =
      (gatherBlocks epochs spread traces)[k]? := by
  have hdrop : (gatherBlocks epochs spread traces).drop k = gatherBlocks epochs spread
      (traces.drop (blockStart (gatherBlocks epochs spread traces) k)) := drop_batches k traces
  have hnth (n : ℕ) : gSlistNth traces n = traces.drop n := by
    rw [gSlistNth, if_pos (Int.natCast_nonneg n), Int.toNat_natCast]
  rw [hnth, gathered_of_gathers hg, ← List.head?_drop]
  exact congrArg List.head? hdrop.symm

/-! ## The invariant -/

/-- The page in front of a block. -/
def pageBefore (cfg : Settings τ) (blocks : List (List τ)) : ℕ → List τ
  | 0 => []
  | k + 1 => pageOf cfg (blocks.getD k [])

/-- What `prevList` holds at a block: the pages in front of the earlier blocks, nearest first. -/
def pagesBefore (cfg : Settings τ) (blocks : List (List τ)) : ℕ → List (List τ)
  | 0 => []
  | k + 1 => pageBefore cfg blocks k :: pagesBefore cfg blocks k

section Invariant

variable (cfg : Settings τ) (epochs : τ → ℚ) (spread : ℚ) (blocks : List (List τ)) (n : ℤ)

/-- The walk has come to a block, and the next page is not yet made. -/
structure ComesTo (k : ℕ) (s : State τ) : Prop where
  blocks_eq : gatherBlocks epochs spread s.traces = blocks
  numTraces : s.numTraces = n
  lt : k < blocks.length
  reached : k ≠ 0 → blockStart blocks k < n
  startRec : s.startRec = blockStart blocks k
  prevGroup : s.prevGroup = pageBefore cfg blocks k
  curGroup : s.curGroup = pageOf cfg (blocks.getD k [])
  prevList : s.prevList = pagesBefore cfg blocks k

/-- The walk is at a block. -/
structure AtBlock (k : ℕ) (s : State τ) : Prop extends
    ComesTo cfg epochs spread blocks n k s where
  nextGroup : s.nextGroup =
    if n ≤ blockStart blocks (k + 1) then [] else pageOf cfg (blocks.getD (k + 1) [])
  more : n ≤ blockStart blocks (k + 1) ∨ k + 1 < blocks.length

end Invariant

variable {blocks : List (List τ)} {n : ℤ} {s s' : State τ} {k : ℕ}

theorem ComesTo.end_eq (h : ComesTo cfg epochs spread blocks n k s) :
    s.startRec + s.curGroup.length = blockStart blocks (k + 1) := by
  rw [h.startRec, h.curGroup, length_pageOf, blockStart_succ h.lt, List.getD_eq_getElem _ _ h.lt,
    Nat.cast_add]

theorem AtBlock.shows (h : AtBlock cfg epochs spread blocks n k s) : ShowsBlock cfg blocks s := by
  have hlt : k < blocks.length := h.lt
  refine ⟨blocks.take k, blocks[k], blocks.drop (k + 1), ?_, ?_, h.startRec⟩
  · rw [← List.drop_eq_getElem_cons, List.take_append_drop]
  · rw [h.curGroup, List.getD_eq_getElem _ _ hlt]

theorem page_ne_nil {traces : List τ} (hblocks : gatherBlocks epochs spread traces = blocks)
    (hlt : k < blocks.length) : pageOf cfg (blocks.getD k []) ≠ [] := by
  have hmem : blocks[k] ∈ gatherBlocks epochs spread traces := hblocks ▸ List.getElem_mem hlt
  obtain ⟨first, rest, hblock, -⟩ := (gatherBlocks_blocks epochs spread traces).within _ hmem
  rw [← List.length_pos_iff, length_pageOf, List.getD_eq_getElem _ _ hlt, hblock]
  exact Nat.succ_pos _

theorem length_blocks (hblocks : gatherBlocks epochs spread s.traces = blocks)
    (h : blocks.length ≤ k) : blockStart blocks k = s.traces.length := by
  subst hblocks
  rw [blockStart, List.take_of_length_le h, gatherBlocks, flatten_batches]

/-- Unless more traces are counted than there are, there is a next page or the end is reached. -/
theorem ComesTo.more (h : ComesTo cfg epochs spread blocks n k s) (hn : n ≤ s.traces.length) :
    n ≤ blockStart blocks (k + 1) ∨ k + 1 < blocks.length := by
  rcases Nat.lt_or_ge (k + 1) blocks.length with hlt | hle
  · exact Or.inr hlt
  · rw [length_blocks h.blocks_eq hle]
    exact Or.inl hn

/-- There is a next page exactly when the traces that are counted go on behind the block. -/
theorem AtBlock.nextGroup_ne_nil (h : AtBlock cfg epochs spread blocks n k s) :
    s.nextGroup ≠ [] ↔ blockStart blocks (k + 1) < n := by
  rw [h.nextGroup]
  split_ifs with hend
  · exact iff_of_false (fun hne => hne rfl) (not_lt.2 hend)
  · have hlt : k + 1 < blocks.length := h.more.resolve_left hend
    exact iff_of_true (page_ne_nil h.blocks_eq hlt) (not_le.1 hend)

variable [DecidableEq τ]

/-- The state behind `dispList` for the next page, which is a block or empty. -/
theorem dispList_next (hg : Gathers cfg epochs spread)
    {s : State τ} {k : ℕ} (hstart : s.startRec + s.curGroup.length =
      blockStart (gatherBlocks epochs spread s.traces) k) :
    dispList cfg s .NEXTGRP =
      if s.numTraces ≤ blockStart (gatherBlocks epochs spread s.traces) k then
        some { s with nextGroup := [] }
      else (gatherBlocks epochs spread s.traces)[k]?.map fun block =>
        { s with
          nextGroup := pageOf cfg block
          current := renumber s.current (pageOf cfg block) s.startRec } := by
  have hnonneg : ¬ ((blockStart (gatherBlocks epochs spread s.traces) k : ℕ) : ℤ) < 0 := by omega
  simp only [dispList, hg.mode, hstart, hnonneg, false_or, ge_iff_le, gatherGroup]
  rw [gathered_blockStart hg]
  rfl

/-- The first pages. -/
theorem makeDispList_initGroup (hg : Gathers cfg epochs spread) (s : State τ) :
    makeDispList cfg s .INITGROUP =
      (gatherBlocks epochs spread (startOrder cfg s.traces))[0]?.bind fun block =>
        dispList cfg
          { s with
            traces := startOrder cfg s.traces
            current := renumber (renumber s.current (startOrder cfg s.traces) s.startRec)
              (pageOf cfg block) s.startRec
            prevGroup := []
            curGroup := pageOf cfg block
            prevList := [] } .NEXTGRP := by
  have hgathered := gathered_blockStart hg (startOrder cfg s.traces) 0
  rw [← hgathered]
  simp only [makeDispList, dispList, hg.mode, gatherGroup, Option.bind_map]
  rfl

/-! ## The steps -/

variable {s s' : State τ} {k : ℕ}

/-- Making the next page completes the walk to a block. -/
theorem ComesTo.atBlock (hg : Gathers cfg epochs spread)
    (h : ComesTo cfg epochs spread blocks n k s) (hs' : dispList cfg s .NEXTGRP = some s') :
    AtBlock cfg epochs spread blocks n k s' := by
  obtain ⟨rfl, rfl, hlt, hreached, hstart, hprev, hcur, hlist⟩ := id h
  rw [dispList_next hg h.end_eq] at hs'
  split_ifs at hs' with hend
  · obtain rfl := Option.some.inj hs'
    exact ⟨⟨rfl, rfl, hlt, hreached, hstart, hprev, hcur, hlist⟩, (if_pos hend).symm, .inl hend⟩
  · obtain ⟨block, hblock, rfl⟩ := Option.map_eq_some_iff.1 hs'
    obtain ⟨hlt', rfl⟩ := List.getElem?_eq_some_iff.1 hblock
    refine ⟨⟨rfl, rfl, hlt, hreached, hstart, hprev, hcur, hlist⟩, ?_, .inr hlt'⟩
    rw [if_neg hend, List.getD_eq_getElem _ _ hlt']

/-- The next page can be made, unless more traces are counted than there are. -/
theorem ComesTo.exists_dispList (hg : Gathers cfg epochs spread)
    (h : ComesTo cfg epochs spread blocks n k s)
    (hmore : n ≤ blockStart blocks (k + 1) ∨ k + 1 < blocks.length) :
    ∃ s', dispList cfg s .NEXTGRP = some s' := by
  obtain ⟨rfl, rfl, -⟩ := id h
  rw [dispList_next hg h.end_eq]
  split_ifs with hend
  · exact ⟨_, rfl⟩
  · rw [List.getElem?_eq_getElem (hmore.resolve_left hend)]
    exact ⟨_, rfl⟩

theorem AtBlock.selectT (h : AtBlock cfg epochs spread blocks n k s) (value : Bool) :
    AtBlock cfg epochs spread blocks n k (selectT s value) := by
  obtain ⟨_, _, _, _, heq⟩ := selectT_eq s value
  rw [heq]
  exact { h with }

/-- The pages after a step forward; the next one is still to be made. -/
def movedForward (s : State τ) : State τ :=
  { s with
    startRec := s.startRec + s.curGroup.length
    prevGroup := s.curGroup
    curGroup := s.nextGroup
    prevList := s.prevGroup :: s.prevList }

/-- The pages after a step back. -/
def movedBack (s : State τ) (page : List τ) (prevList : List (List τ)) : State τ :=
  { s with
    startRec := s.startRec - s.prevGroup.length
    prevGroup := page
    curGroup := s.prevGroup
    nextGroup := s.curGroup
    prevList := prevList }

theorem nextTrace_true (hg : Gathers cfg epochs spread)
    (hne : (selectT s false).nextGroup ≠ []) :
    nextTrace cfg s true = dispList cfg (movedForward (selectT s false)) .NEXTGRP := by
  simp only [nextTrace, makeDispList, hg.mode, if_true, if_neg hne]
  rfl

theorem nextTrace_false (hg : Gathers cfg epochs spread)
    (hne : (selectT s false).prevGroup ≠ []) {page : List τ} {prevList : List (List τ)}
    (hlist : (selectT s false).prevList = page :: prevList)
    (hle : ((selectT s false).prevGroup.length : ℤ) ≤ (selectT s false).startRec) :
    nextTrace cfg s false = some (movedBack (selectT s false) page prevList) := by
  have hnonneg : ¬ (selectT s false).startRec - (selectT s false).prevGroup.length < 0 := by omega
  simp only [nextTrace, makeDispList, dispList, hg.mode, Bool.false_eq_true, if_false, if_neg hne,
    if_neg hnonneg, hlist]
  rfl

/-- A page forward comes to the next block. -/
theorem AtBlock.forward (hg : Gathers cfg epochs spread)
    (h : AtBlock cfg epochs spread blocks n k s) (hne : s.nextGroup ≠ []) :
    ∃ t, nextTrace cfg s true = dispList cfg t .NEXTGRP ∧
      ComesTo cfg epochs spread blocks n (k + 1) t := by
  have hlt : blockStart blocks (k + 1) < n := h.nextGroup_ne_nil.1 hne
  have hs := h.selectT false
  have hnext : (Display.selectT s false).nextGroup = pageOf cfg (blocks.getD (k + 1) []) :=
    hs.nextGroup.trans (if_neg (not_le.2 hlt))
  refine ⟨_, nextTrace_true hg (hs.nextGroup_ne_nil.2 hlt), ?_⟩
  refine ⟨hs.blocks_eq, hs.numTraces, h.more.resolve_left (not_le.2 hlt), fun _ => hlt,
    hs.end_eq, hs.curGroup, hnext, ?_⟩
  rw [movedForward, hs.prevList, hs.prevGroup]
  rfl

/-- A page back comes to the block before. -/
theorem AtBlock.back (hg : Gathers cfg epochs spread)
    (h : AtBlock cfg epochs spread blocks n (k + 1) s) :
    ∃ s', nextTrace cfg s false = some s' ∧ AtBlock cfg epochs spread blocks n k s' := by
  have hs := h.selectT false
  have hlt : k < blocks.length := Nat.lt_of_succ_lt h.lt
  have hlength : (Display.selectT s false).prevGroup.length = (blocks.getD k []).length := by
    rw [hs.prevGroup]
    exact length_pageOf _
  have hend : blockStart blocks (k + 1) = blockStart blocks k + (blocks.getD k []).length := by
    rw [blockStart_succ hlt, List.getD_eq_getElem _ _ hlt]
  have hne : (Display.selectT s false).prevGroup ≠ [] :=
    hs.prevGroup.trans_ne (page_ne_nil hs.blocks_eq hlt)
  refine ⟨_, nextTrace_false hg hne hs.prevList ?_, ?_⟩
  · rw [hs.startRec]
    omega
  · refine ⟨⟨hs.blocks_eq, hs.numTraces, hlt, ?_, ?_, rfl, hs.prevGroup, rfl⟩, ?_, Or.inr h.lt⟩
    · have hreached := h.reached k.succ_ne_zero
      omega
    · show (Display.selectT s false).startRec - _ = _
      rw [hs.startRec]
      omega
    · exact hs.curGroup.trans (if_neg (not_le.2 (h.reached k.succ_ne_zero))).symm

/-! ## Every walk -/

/-- A step of a walk. -/
theorem AtBlock.step (hg : Gathers cfg epochs spread)
    (h : AtBlock cfg epochs spread blocks n k s) (hn : n ≤ blocks.flatten.length) {dir : Bool}
    (hdir : HasNeighbour s dir) :
    ∃ s', nextTrace cfg s dir = some s' ∧
      AtBlock cfg epochs spread blocks n (if dir then k + 1 else k - 1) s' := by
  cases dir with
  | true =>
    obtain ⟨t, hstep, ht⟩ := h.forward hg hdir
    have hlength : t.traces.length = blocks.flatten.length := by
      rw [← ht.blocks_eq, gatherBlocks, flatten_batches]
    obtain ⟨s', hs'⟩ := ht.exists_dispList hg (ht.more (hlength ▸ hn))
    exact ⟨s', hstep.trans hs', ht.atBlock hg hs'⟩
  | false =>
    cases k with
    | zero => exact absurd h.prevGroup hdir
    | succ k => exact h.back hg

theorem AtBlock.goesBack (hg : Gathers cfg epochs spread)
    (h : AtBlock cfg epochs spread blocks n k s) (hn : n ≤ blocks.flatten.length)
    (hne : s.nextGroup ≠ []) : GoesBack cfg s := by
  have hneighbour : HasNeighbour s true := hne
  obtain ⟨t, ht, hforward⟩ := h.step hg hn hneighbour
  obtain ⟨u, hu, hback⟩ := hforward.back hg
  refine ⟨t, u, ht, hu, ?_, ?_, ?_, ?_⟩
  · exact hback.prevGroup.trans h.prevGroup.symm
  · exact hback.curGroup.trans h.curGroup.symm
  · exact hback.nextGroup.trans h.nextGroup.symm
  · exact hback.startRec.trans h.startRec.symm

/-- The first page is the first block. -/
theorem comesTo_initGroup (hg : Gathers cfg epochs spread) (hstart : s.startRec = 0)
    (hne : s.traces ≠ []) :
    ∃ t, makeDispList cfg s .INITGROUP = dispList cfg t .NEXTGRP ∧
      ComesTo cfg epochs spread (gatherBlocks epochs spread (startOrder cfg s.traces))
        s.numTraces 0 t := by
  have hlt : 0 < (gatherBlocks epochs spread (startOrder cfg s.traces)).length := by
    apply List.length_pos_iff.2
    intro hnil
    have hflatten := (gatherBlocks_blocks epochs spread (startOrder cfg s.traces)).flatten
    rw [hnil, List.flatten_nil] at hflatten
    exact hne (List.nil_perm.1 (hflatten ▸ gSlistSort_perm _ _))
  refine ⟨_, by rw [makeDispList_initGroup hg, List.getElem?_eq_getElem hlt]; rfl, ?_⟩
  refine ⟨rfl, rfl, hlt, fun hzero => absurd rfl hzero, hstart, rfl, ?_, rfl⟩
  rw [List.getD_eq_getElem _ _ hlt]

/-- Walks that cannot fail do not count more traces than there are: they would come to the last
block and look behind it. -/
theorem AtBlock.count_le (hg : Gathers cfg epochs spread)
    (h : AtBlock cfg epochs spread blocks n k s)
    (hwalk : ∀ dirs, Allowed (nextTrace cfg) HasNeighbour s dirs →
      ∃ s', dirs.foldlM (nextTrace cfg) s = some s') : n ≤ blocks.flatten.length := by
  induction hm : blocks.length - k generalizing k s with
  | zero => exact absurd h.lt (by omega)
  | succ m ih =>
    by_contra hn
    have hlast : blockStart blocks (k + 1) ≤ blocks.flatten.length :=
      ((List.take_sublist _ blocks).flatten).length_le
    have hne : s.nextGroup ≠ [] := h.nextGroup_ne_nil.2 (by omega)
    obtain ⟨t, hstep, ht⟩ := h.forward hg hne
    obtain ⟨s₁, hs₁⟩ := hwalk [true] ⟨hne, fun _ _ => trivial⟩
    obtain ⟨s', hs', -⟩ := Option.bind_eq_some_iff.1 hs₁
    have hat := ht.atBlock hg (hstep.symm.trans hs')
    apply hn
    apply ih hat
    · intro dirs hdirs
      obtain ⟨u, hu⟩ := hwalk (true :: dirs) ⟨hne, fun t' ht' => by
        obtain rfl := Option.some.inj (hs'.symm.trans ht')
        exact hdirs⟩
      rw [List.foldlM_cons, hs'] at hu
      exact ⟨u, hu⟩
    · omega

/-- Gathered pages are navigated rightly exactly if the list is not empty and its traces are not
counted too many. -/
theorem gather_navigation_iff (hg : Gathers cfg epochs spread) {s : State τ}
    (hstart : s.startRec = 0) {n : ℕ} (hcount : s.numTraces = n) :
    Navigates cfg epochs spread s ↔ s.traces ≠ [] ∧ n ≤ s.traces.length := by
  rw [← Nat.cast_le (α := ℤ), ← hcount]
  have hlength : (gatherBlocks epochs spread (startOrder cfg s.traces)).flatten.length =
      s.traces.length := by
    rw [gatherBlocks, flatten_batches]
    exact (gSlistSort_perm _ _).length_eq
  constructor
  · rintro ⟨blocks, -, s₀, hs₀, hwalk⟩
    have hne : s.traces ≠ [] := by
      intro hnil
      have hblocks : gatherBlocks epochs spread (startOrder cfg s.traces) = [] := by
        rw [hnil, startOrder, gSlistSort, List.mergeSort_nil, gatherBlocks, batches_nil]
      rw [makeDispList_initGroup hg, hblocks] at hs₀
      exact nomatch hs₀
    obtain ⟨t, ht, hcomes⟩ := comesTo_initGroup hg hstart hne
    have hat := hcomes.atBlock hg (ht.symm.trans hs₀)
    refine ⟨hne, hlength ▸ hat.count_le hg fun dirs hdirs => ?_⟩
    obtain ⟨s', hs', -⟩ := hwalk dirs hdirs
    exact ⟨s', hs'⟩
  · rintro ⟨hne, hn⟩
    obtain ⟨t, ht, hcomes⟩ := comesTo_initGroup hg hstart hne
    have hn' : s.numTraces ≤ t.traces.length := by
      rw [← hlength, ← hcomes.blocks_eq, gatherBlocks, flatten_batches] at hn
      exact hn
    obtain ⟨s₀, hs₀⟩ := hcomes.exists_dispList hg (hcomes.more hn')
    refine ⟨_, gatherBlocks_blocks epochs spread _, s₀, ht.trans hs₀, fun dirs hdirs => ?_⟩
    have hinv : ∃ k, AtBlock cfg epochs spread
        (gatherBlocks epochs spread (startOrder cfg s.traces)) s.numTraces k s₀ :=
      ⟨0, hcomes.atBlock hg hs₀⟩
    have hstep : ∀ t dir, (∃ k, AtBlock cfg epochs spread
        (gatherBlocks epochs spread (startOrder cfg s.traces)) s.numTraces k t) →
        HasNeighbour t dir → ∃ t', nextTrace cfg t dir = some t' ∧ ∃ k, AtBlock cfg epochs spread
          (gatherBlocks epochs spread (startOrder cfg s.traces)) s.numTraces k t' := by
      rintro t dir ⟨k, hk⟩ hdir
      obtain ⟨t', ht', hat⟩ := hk.step hg (hlength.symm ▸ hn) hdir
      exact ⟨t', ht', _, hat⟩
    obtain ⟨s', hs', k, hat⟩ := run_invariant hstep hinv hdirs
    exact ⟨s', hs', hat.shows, hat.goesBack hg (hlength.symm ▸ hn)⟩

end Walk

/-! ### Four traces -/

/-- Traces are known by their start time, and instruments are numbered from the last trace on. -/
def sampleGather : Settings ℕ where
  mode := .GATHERMODE
  numPlots := 2
  listSort
    | .SORTSTARTTIME, a, b => a - b
    | .SORTINSTID, a, b => b - a
  apart := startsApart (fun t => t) 1

theorem sampleGather_gathers : Gathers sampleGather (fun t => t) 1 := ⟨rfl, zero_le_one, rfl⟩

theorem gather_navigation_fourTraces :
    Navigates sampleGather (fun t => t) 1 (State.ofTraces [20, 0, 11, 10]) :=
  (gather_navigation_iff sampleGather_gathers rfl rfl).2 ⟨List.cons_ne_nil _ _, le_rfl⟩

/-- The first page of an empty list reads a trace that is not there. -/
theorem gather_navigation_empty :
    makeDispList sampleGather (State.ofTraces []) .INITGROUP = none ∧
      ¬ Navigates sampleGather (fun t => t) 1 (State.ofTraces []) := by
  have hnone : makeDispList sampleGather (State.ofTraces []) .INITGROUP = none := by
    rw [makeDispList_initGroup sampleGather_gathers]
    have hblocks : gatherBlocks (fun t : ℕ => (t : ℚ)) 1 (startOrder sampleGather []) = [] := by
      rw [startOrder, gSlistSort, List.mergeSort_nil, gatherBlocks, batches_nil]
    exact congrArg (fun blocks : List (List ℕ) => blocks[0]?.bind _) hblocks
  refine ⟨hnone, ?_⟩
  rintro ⟨blocks, -, s₀, hs₀, -⟩
  exact nomatch hnone.symm.trans hs₀

end PQL.Display
