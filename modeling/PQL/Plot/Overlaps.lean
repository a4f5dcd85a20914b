import PQL.Lib.CInt
import PQL.Mseed.Group
import PQL.Plot.Stops

/-!
# The plot of the saved overlaps

Both `plotOlap`s draw a saved overlap in blocks of `inc` samples, the first of them from behind the
remainder of an index on.  In the plot of the traces that index is the overlap's place in the trace,
and an overlap of one block is left out; in the magnify plot it is the first sample in the window,
and the last block is drawn from the first samples of the overlap (`olaps_drawn_iff`).
-/

namespace PQL

/-! ## The blocks of an overlap -/

/-- `plotInfo`, with the samples that have been read, those of each vertical line, and the ends of
the lines from block to block. -/
structure OlapInfo where
  ptInc : ℤ
  decInc : ℤ
  reads : List ℤ
  extents : List (List ℤ)
  joins : List (ℤ × ℤ)
deriving DecidableEq, Repr

namespace OlapInfo

/-- The samples that contribute to a line. -/
def drawn (info : OlapInfo) : List ℤ :=
  info.extents.flatten ++ info.joins.flatMap fun j => [j.1, j.2]

/-- A vertical line over the next sample and those that a scan reads. -/
def drawScan (info : OlapInfo) (scan : List ℤ × ℤ) : OlapInfo :=
  { info with
    decInc := scan.2
    reads := (info.ptInc + info.decInc) :: scan.1 ++ info.reads
    extents := ((info.ptInc + info.decInc) :: scan.1) :: info.extents }

/-- The line to the next decimation boundary. -/
def join (info : OlapInfo) (inc : ℤ) : OlapInfo :=
  { info with
    ptInc := info.ptInc + inc
    decInc := 0
    reads := (info.ptInc + inc) :: info.reads
    joins := (info.ptInc, info.ptInc + inc) :: info.joins }

/-- Nothing is drawn of an overlap outside of the window. -/
def nothing : OlapInfo := ⟨0, 0, [], [], []⟩

end OlapInfo

/-- What a plot of an overlap begins with: the block from `ptInc` on, behind the remainder. -/
def olapStart (ptInc remainder : ℤ) : OlapInfo := ⟨ptInc, remainder + 1, [ptInc], [], []⟩

/-- A pass of the main loop. -/
def olapStep (inc len : ℤ) (info : OlapInfo) : OlapInfo :=
  let info :=
    if 1 < inc then info.drawScan (scanPoints info.ptInc (min inc len) info.decInc) else info
  info.join inc

/-- The main loop. -/
def olapLoop (inc len lastPoint : ℤ) (fuel : ℕ) (info : OlapInfo) : Option OlapInfo :=
  whileLoop (fun info => decide (info.ptInc < lastPoint - inc))
    (fun info => some (olapStep inc len info)) fuel info

/-! ## The two plots -/

section Plots

variable {α : Type}

/-- The loop over all overlaps. -/
def eachOlap (draw : Overlap α → Option OlapInfo) : List (Overlap α) → Option (List OlapInfo)
  | [] => some []
  | o :: os => (draw o).bind fun info => (eachOlap draw os).map (info :: ·)

/-- An overlap in `plotOlap` of the trace plot. -/
def drawOlap (inc : ℤ) (fuel : ℕ) (o : Overlap α) : Option OlapInfo :=
  (olapLoop inc o.len o.len fuel (olapStart 0 (o.bounds.1.tmod inc))).map fun info =>
    if 1 < inc ∧ info.decInc = 0 then
      info.drawScan (scanPoints info.ptInc (o.len - info.ptInc) info.decInc)
    else info

/-- `plotOlap` of the trace plot, but for the times. -/
def plotOlap (inc : ℤ) (fuel : ℕ) (olaps : List (Overlap α)) : Option (List OlapInfo) :=
  eachOlap (drawOlap inc fuel) olaps

/-- The window of a magnify plot. -/
structure OlapWindow where
  sps : ℚ
  begin : ℚ
  fin : ℚ
  plot_length : ℚ
  inc : ℤ

namespace OlapWindow

variable (w : OlapWindow)

/-- The sample that the display of an overlap starts at. -/
def startPoint (o : Overlap α) : Option ℤ :=
  if o.bounds.1 / w.sps < w.begin then toInt ((w.begin - o.bounds.1 / w.sps) * w.sps) else some 0

/-- `lastPoint` of an overlap that is displayed from `ptInc` on. -/
def lastPoint (o : Overlap α) (ptInc : ℤ) : Option ℤ :=
  (toInt (w.sps * w.plot_length)).bind fun ndata =>
    (signed (ptInc + ndata + 1)).map fun last => if last > o.len then o.len else last

/-- An overlap in `plotOlap` of the magnify plot; behind the main loop it reads the sample
`decInc`. -/
def drawOlap (fuel : ℕ) (o : Overlap α) : Option OlapInfo :=
  if o.bounds.1 / w.sps > w.fin ∨ o.bounds.2 / w.sps < w.begin then some .nothing
  else
    (w.startPoint o).bind fun ptInc => (w.lastPoint o ptInc).bind fun last =>
      (olapLoop w.inc o.len last fuel (olapStart ptInc (ptInc.tmod w.inc))).map fun info =>
        if 1 < w.inc then info.drawScan (scanPoints 0 (o.len - info.ptInc) info.decInc) else info

/-- `plotOlap` of the magnify plot, but for the times. -/
def plotOlap (fuel : ℕ) (olaps : List (Overlap α)) : Option (List OlapInfo) :=
  eachOlap (w.drawOlap fuel) olaps

end OlapWindow

/-! ## What should be drawn -/

/-- All reads are of samples of the overlap, and the samples with the property contribute. -/
def DrawsAll (shown : ℤ → Prop) (o : Overlap α) (info : OlapInfo) : Prop :=
  (∀ i ∈ info.reads, 0 ≤ i ∧ i < o.len) ∧
    ∀ i, 0 ≤ i → i < o.len → shown i → i ∈ info.drawn

/-- The plot of the overlaps ends, stays inside of them and draws all samples. -/
def DrawsOlaps (inc : ℤ) (olaps : List (Overlap α)) : Prop :=
  ∃ fuel infos, plotOlap inc fuel olaps = some infos ∧
    List.Forall₂ (DrawsAll fun _ => True) olaps infos

namespace OlapWindow

variable (w : OlapWindow)

/-- The time of the sample is in the window. -/
def Shown (o : Overlap α) (i : ℤ) : Prop :=
  w.begin ≤ (o.bounds.1 + i) / w.sps ∧ (o.bounds.1 + i) / w.sps ≤ w.fin

/-- The plot ends, stays inside of the overlaps and draws all samples in the window. -/
def DrawsOlaps (olaps : List (Overlap α)) : Prop :=
  ∃ fuel infos, w.plotOlap fuel olaps = some infos ∧
    List.Forall₂ (fun o => DrawsAll (w.Shown o) o) olaps infos

end OlapWindow

/-! ## When it is drawn -/

/-- The overlap begins at a decimation boundary and is longer than a block; or its begin lies in
front of the trace, one sample behind a boundary. -/
def OlapFits (inc : ℤ) (o : Overlap α) : Prop :=
  o.bounds.1.tmod inc = -1 ∨ o.bounds.1.tmod inc = 0 ∧ inc < o.len

namespace OlapWindow

variable (w : OlapWindow)

/-- The samples of an overlap in front of the window. -/
def skipped (o : Overlap α) : ℤ := max 0 ⌊w.begin * w.sps - o.bounds.1⌋

/-- The index behind the samples that the length of the window is enough for. -/
def shownEnd (o : Overlap α) : ℤ :=
  min o.len (w.skipped o + truncate (w.sps * w.plot_length) + 1)

/-- The block in which the display of an overlap ends. -/
def lastBlock (o : Overlap α) : ℤ :=
  w.skipped o + w.inc * max 0 ((w.shownEnd o - 1 - w.skipped o) / w.inc)

/-- The numbers fit into integers and the samples in the window are drawn, in one block or in
several of them. -/
structure Fits (o : Overlap α) : Prop where
  points : InIntRange (truncate (w.sps * w.plot_length))
  last : InIntRange (w.skipped o + truncate (w.sps * w.plot_length) + 1)
  one : w.lastBlock o = w.skipped o →
    w.skipped o + w.skipped o % w.inc + 1 < o.len ∧
    ∀ i, 0 ≤ i → i < o.len → w.Shown o i →
      i = w.skipped o + w.skipped o % w.inc + 1 ∨
        w.skipped o % w.inc + 1 ≤ i ∧ i < o.len - w.skipped o
  several : w.lastBlock o ≠ w.skipped o →
    ∀ i, 0 ≤ i → i < o.len → w.Shown o i →
      i = w.skipped o ∨ w.skipped o + w.skipped o % w.inc + 1 ≤ i ∧ i ≤ w.lastBlock o ∨
        i < o.len - w.lastBlock o

/-- The overlap is outside of the window, or it is displayed. -/
def OlapFits (o : Overlap α) : Prop :=
  w.fin < o.bounds.1 / w.sps ∨ o.bounds.2 / w.sps < w.begin ∨ w.Fits o

end OlapWindow

end Plots

/-! ## The main loop -/

section Loop

variable {inc p d len last i : ℤ} {k fuel : ℕ} {info : OlapInfo}

theorem mem_extents_drawScan {a limit : ℤ} :
    i ∈ (info.drawScan (scanPoints a limit info.decInc)).extents.flatten ↔
      i = info.ptInc + info.decInc ∨ (a + info.decInc ≤ i ∧ i < a + limit) ∨
        i ∈ info.extents.flatten := by
  rw [OlapInfo.drawScan, List.flatten_cons, List.cons_append, List.mem_cons, List.mem_append,
    mem_scanPoints]

theorem mem_drawn_drawScan {a limit : ℤ} :
    i ∈ (info.drawScan (scanPoints a limit info.decInc)).drawn ↔
      i = info.ptInc + info.decInc ∨ (a + info.decInc ≤ i ∧ i < a + limit) ∨ i ∈ info.drawn := by
  rw [OlapInfo.drawn, List.mem_append, mem_extents_drawScan, OlapInfo.drawn, List.mem_append,
    or_assoc, or_assoc]
  exact Iff.rfl

theorem mem_reads_drawScan {a limit : ℤ} :
    i ∈ (info.drawScan (scanPoints a limit info.decInc)).reads ↔
      i = info.ptInc + info.decInc ∨ (a + info.decInc ≤ i ∧ i < a + limit) ∨ i ∈ info.reads := by
  rw [OlapInfo.drawScan, List.cons_append, List.mem_cons, List.mem_append, mem_scanPoints]

theorem mem_drawn_join :
    i ∈ (info.join inc).drawn ↔ i = info.ptInc ∨ i = info.ptInc + inc ∨ i ∈ info.drawn := by
  simp only [OlapInfo.drawn, OlapInfo.join, List.flatMap_cons, List.mem_append, List.mem_cons,
    List.not_mem_nil, or_false]
  tauto

/-- The main loop is at the `k`-th block: what is read and drawn lies between the samples `p + d`
and the next one, but for the first sample. -/
structure AtBlock (inc p d last : ℤ) (k : ℕ) (info : OlapInfo) : Prop where
  ptInc : info.ptInc = p + inc * k
  decInc : info.decInc = if k = 0 then d else 0
  reads : ∀ i, i ∈ info.reads ↔ i = p ∨ k ≠ 0 ∧ p + d ≤ i ∧ i ≤ p + inc * k
  drawn : ∀ i, i ∈ info.drawn ↔ k ≠ 0 ∧ (i = p ∨ p + d ≤ i ∧ i ≤ p + inc * k)
  extents : ∀ i ∈ info.extents.flatten, p + d ≤ i
  before : k ≠ 0 → p + inc * k < last

theorem atBlock_olapStart (inc p r last : ℤ) : AtBlock inc p (r + 1) last 0 (olapStart p r) where
  ptInc := by simp [olapStart]
  decInc := rfl
  reads i := by simp [olapStart]
  drawn i := by simp [olapStart, OlapInfo.drawn]
  extents i hi := by simp [olapStart] at hi
  before h := absurd rfl h

/-- A pass of the main loop ends at the next block. -/
theorem AtBlock.step (h : AtBlock inc p d last k info) (hinc : 1 < inc) (hp : 0 ≤ p) (hd : d ≤ inc)
    (hlast : last ≤ len) (hon : info.ptInc < last - inc) :
    AtBlock inc p d last (k + 1) (olapStep inc len info) := by
  have hnext : inc * (k + 1 : ℕ) = inc * k + inc := by
    push_cast
    ring
  have hk : 0 ≤ inc * k := by positivity
  have hblock : k ≠ 0 → inc ≤ inc * k := fun hne =>
    le_mul_of_one_le_right (by omega) (by exact_mod_cast Nat.one_le_iff_ne_zero.2 hne)
  have hptInc := h.ptInc
  have hmin : min inc len = inc := min_eq_left (by omega)
  have hstep : olapStep inc len info =
      (info.drawScan (scanPoints info.ptInc inc info.decInc)).join inc := by
    rw [olapStep, if_pos hinc, hmin]
  have hscanned : (info.drawScan (scanPoints info.ptInc inc info.decInc)).ptInc = info.ptInc := rfl
  have hdec := h.decInc
  rw [hstep]
  refine ⟨?_, rfl, fun i => ?_, fun i => ?_, fun i hi => ?_, fun _ => by omega⟩
  · change info.ptInc + inc = _
    omega
  · change i ∈ (info.ptInc + inc) :: (info.drawScan _).reads ↔ _
    rw [List.mem_cons, mem_reads_drawScan, h.reads, hdec, hptInc, hnext]
    rcases eq_or_ne k 0 with rfl | hne
    · simp only [if_true]
      omega
    · have := hblock hne
      simp only [if_neg hne]
      omega
  · rw [mem_drawn_join, mem_drawn_drawScan, h.drawn, hscanned, hdec, hptInc, hnext]
    rcases eq_or_ne k 0 with rfl | hne
    · simp only [if_true]
      omega
    · have := hblock hne
      simp only [if_neg hne]
      omega
  · have hpoint : p + d ≤ info.ptInc + info.decInc := by
      rw [hdec, hptInc]
      rcases eq_or_ne k 0 with rfl | hne
      · simp
      · have := hblock hne
        rw [if_neg hne]
        omega
    rcases mem_extents_drawScan.1 hi with rfl | hscan | hold
    · exact hpoint
    · omega
    · exact h.extents i hold

/-- Where the main loop ends. -/
theorem AtBlock.blocks (h : AtBlock inc p d last k info) (hinc : 1 < inc)
    (hoff : ¬info.ptInc < last - inc) : (k : ℤ) = max 0 ((last - 1 - p) / inc) := by
  have hptInc := h.ptInc
  rcases eq_or_ne k 0 with rfl | hne
  · have : (last - 1 - p) / inc < 1 := Int.ediv_lt_of_lt_mul (by omega) (by omega)
    push_cast
    omega
  · have hlt := h.before hne
    have hquot : (last - 1 - p) / inc = k := by
      rw [Int.ediv_eq_iff_of_pos (by omega), mul_comm]
      omega
    omega

theorem olapLoop_sound (hinc : 1 < inc) (hp : 0 ≤ p) {r : ℤ} (hr : r < inc) (hlast : last ≤ len)
    (h : olapLoop inc len last fuel (olapStart p r) = some info) :
    ∃ k : ℕ, AtBlock inc p (r + 1) last k info ∧ (k : ℤ) = max 0 ((last - 1 - p) / inc) := by
  obtain ⟨⟨k, hk⟩, hoff⟩ := whileLoop_sound
    (P := fun info => ∃ k, AtBlock inc p (r + 1) last k info)
    (fun s s' ⟨k, hk⟩ hon hbody => ⟨k + 1, Option.some.inj hbody ▸ hk.step hinc hp (by omega) hlast
      (of_decide_eq_true hon)⟩) ⟨0, atBlock_olapStart inc p r last⟩ h
  exact ⟨k, hk, hk.blocks hinc (of_decide_eq_false hoff)⟩

theorem exists_olapLoop (hinc : 1 < inc) (r : ℤ) (hfuel : (last - p).toNat < fuel) :
    ∃ info, olapLoop inc len last fuel (olapStart p r) = some info := by
  obtain ⟨info, hinfo, -⟩ := @whileLoop_spec OlapInfo
    (fun info => decide (info.ptInc < last - inc)) (fun info => some (olapStep inc len info))
    (fun _ => True)
    (fun info => (last - info.ptInc).toNat)
    (fun s _ hon => by
      have hlt := of_decide_eq_true hon
      have hnext : (olapStep inc len s).ptInc = s.ptInc + inc := by
        unfold olapStep
        split_ifs
        rfl
      refine ⟨_, rfl, trivial, ?_⟩
      rw [hnext]
      omega) _ (olapStart p r) trivial hfuel
  exact ⟨info, hinfo⟩

end Loop

/-! ## The plot of the traces -/

section Draws

variable {α : Type} {inc : ℤ} {o : Overlap α} {olaps : List (Overlap α)} {fuel : ℕ}
  {info : OlapInfo}

theorem forall₂_eachOlap {draw : Overlap α → Option OlapInfo} {infos : List OlapInfo}
    (h : eachOlap draw olaps = some infos) :
    List.Forall₂ (fun o info => draw o = some info) olaps infos := by
  induction olaps generalizing infos with
  | nil =>
    obtain rfl := Option.some.inj h
    exact .nil
  | cons o os ih =>
    obtain ⟨info, hinfo, hmap⟩ := Option.bind_eq_some_iff.1 h
    obtain ⟨rest, hrest, rfl⟩ := Option.map_eq_some_iff.1 hmap
    exact .cons hinfo (ih hrest)

theorem exists_eachOlap {draw : Overlap α → Option OlapInfo}
    (h : ∀ o ∈ olaps, ∃ info, draw o = some info) : ∃ infos, eachOlap draw olaps = some infos := by
  induction olaps with
  | nil => exact ⟨[], rfl⟩
  | cons o os ih =>
    obtain ⟨info, hinfo⟩ := h o List.mem_cons_self
    obtain ⟨infos, hinfos⟩ := ih fun o' ho' => h o' (List.mem_cons_of_mem o ho')
    exact ⟨info :: infos, by rw [eachOlap, hinfo, Option.bind_some, hinfos, Option.map_some]⟩

/-- Where what is drawn of one overlap has a property under a condition on it, the whole list has it
under the condition on all of them. -/
theorem eachOlap_iff {draw : ℕ → Overlap α → Option OlapInfo} {P : Overlap α → OlapInfo → Prop}
    {Q : Overlap α → Prop} (bound : Overlap α → ℕ)
    (hiff : ∀ o ∈ olaps, ∀ fuel info, draw fuel o = some info → (P o info ↔ Q o))
    (hex : ∀ o ∈ olaps, Q o → ∀ fuel, bound o < fuel → ∃ info, draw fuel o = some info) :
    (∃ fuel infos, eachOlap (draw fuel) olaps = some infos ∧ List.Forall₂ P olaps infos) ↔
      ∀ o ∈ olaps, Q o := by
  constructor
  · rintro ⟨fuel, infos, hrun, hP⟩ o ho
    have hdrawn := forall₂_eachOlap hrun
    obtain ⟨i, hi, rfl⟩ := List.mem_iff_getElem.1 ho
    have hlen := hP.length_eq
    exact (hiff _ ho fuel _ (hdrawn.get hi (by omega))).1 (hP.get hi (by omega))
  · intro hQ
    have hfuel : ∀ o ∈ olaps, bound o < (olaps.map bound).sum + 1 := fun o ho =>
      Nat.lt_succ_of_le (List.single_le_sum (fun _ _ => Nat.zero_le _) _ (List.mem_map_of_mem ho))
    obtain ⟨infos, hrun⟩ := exists_eachOlap fun o ho => hex o ho (hQ o ho) _ (hfuel o ho)
    have hdrawn := forall₂_eachOlap hrun
    refine ⟨_, infos, hrun, List.forall₂_iff_get.2 ⟨hdrawn.length_eq, fun i hi hi' => ?_⟩⟩
    exact (hiff _ (List.get_mem _ _) _ _ (hdrawn.get hi hi')).2 (hQ _ (List.get_mem _ _))

theorem drawOlap_iff (hinc : 1 < inc) (hlen : 1 ≤ o.len) (h : drawOlap inc fuel o = some info) :
    DrawsAll (fun _ => True) o info ↔ OlapFits inc o := by
  obtain ⟨info₀, hloop, hinfo⟩ := Option.map_eq_some_iff.1 h
  have hr := Int.tmod_lt_of_pos o.bounds.1 (by omega : 0 < inc)
  obtain ⟨k, hk, hcount⟩ := olapLoop_sound hinc le_rfl hr le_rfl hloop
  have hptInc := hk.ptInc
  have hdec := hk.decInc
  rw [sub_zero] at hcount
  rcases eq_or_ne k 0 with rfl | hne
  · -- no block: the overlap is drawn only if the plot begins with its first sample
    have hshort : o.len ≤ inc := by
      by_contra hlong
      have : 1 ≤ (o.len - 1) / inc := (Int.le_ediv_iff_mul_le (by omega)).2 (by omega)
      push_cast at hcount
      omega
    rw [if_pos rfl] at hdec
    by_cases hfirst : o.bounds.1.tmod inc = -1
    · refine iff_of_true ?_ (.inl hfirst)
      rw [if_pos ⟨hinc, by omega⟩] at hinfo
      subst hinfo
      refine ⟨fun i hi => ?_, fun i hi hi' _ => ?_⟩
      · rw [mem_reads_drawScan, hk.reads] at hi
        push_cast at hptInc
        omega
      · rw [mem_drawn_drawScan]
        push_cast at hptInc
        omega
    · refine iff_of_false ?_ (by unfold OlapFits; omega)
      rw [if_neg (by omega)] at hinfo
      subst hinfo
      rintro ⟨-, hdrawn⟩
      have hzero := (hk.drawn 0).1 (hdrawn 0 le_rfl (by omega) trivial)
      exact hzero.1 rfl
  · have hblock : inc ≤ inc * k :=
      le_mul_of_one_le_right (by omega) (by exact_mod_cast Nat.one_le_iff_ne_zero.2 hne)
    have hbefore := hk.before hne
    rw [if_neg hne] at hdec
    rw [if_pos ⟨hinc, hdec⟩] at hinfo
    subst hinfo
    have hreads : ∀ i, i ∈ (info₀.drawScan (scanPoints info₀.ptInc (o.len - info₀.ptInc)
        info₀.decInc)).reads ↔ i = 0 ∨ o.bounds.1.tmod inc + 1 ≤ i ∧ i < o.len := fun i => by
      rw [mem_reads_drawScan, hk.reads]
      omega
    have hdrawn : ∀ i, i ∈ (info₀.drawScan (scanPoints info₀.ptInc (o.len - info₀.ptInc)
        info₀.decInc)).drawn ↔ i = 0 ∨ o.bounds.1.tmod inc + 1 ≤ i ∧ i < o.len := fun i => by
      rw [mem_drawn_drawScan, hk.drawn]
      omega
    unfold DrawsAll OlapFits
    simp only [hreads, hdrawn]
    constructor
    · rintro ⟨hread, hall⟩
      have hlow := hread (o.bounds.1.tmod inc + 1) (.inr ⟨le_rfl, by omega⟩)
      have hhigh := hall 1 (by omega) (by omega) trivial
      omega
    · intro hfits
      exact ⟨fun i hi => by omega, fun i hi hi' _ => by omega⟩

/-- Of an overlap in the trace, no vertical line is drawn over its first sample: that is at most the
end of a line to the next block. -/
theorem first_notMem_extents (hinc : 1 < inc) (hstart : 0 ≤ o.bounds.1)
    (h : drawOlap inc fuel o = some info) : 0 ∉ info.extents.flatten := by
  obtain ⟨info₀, hloop, hinfo⟩ := Option.map_eq_some_iff.1 h
  have hr := Int.tmod_lt_of_pos o.bounds.1 (by omega : 0 < inc)
  have hr₀ := Int.tmod_nonneg inc hstart
  obtain ⟨k, hk, -⟩ := olapLoop_sound hinc le_rfl hr le_rfl hloop
  have hptInc := hk.ptInc
  intro hzero
  by_cases hlast : 1 < inc ∧ info₀.decInc = 0
  · rw [if_pos hlast] at hinfo
    subst hinfo
    have hdec := hk.decInc
    rcases eq_or_ne k 0 with rfl | hne
    · rw [if_pos rfl] at hdec
      omega
    · have hblock : inc ≤ inc * k :=
        le_mul_of_one_le_right (by omega) (by exact_mod_cast Nat.one_le_iff_ne_zero.2 hne)
      rcases mem_extents_drawScan.1 hzero with hpoint | hscan | hold
      · omega
      · omega
      · have := hk.extents 0 hold
        omega
  · rw [if_neg hlast] at hinfo
    subst hinfo
    have := hk.extents 0 hzero
    omega

/-- The plot of the overlaps draws all samples if and only if each overlap begins at a decimation
boundary and is longer than a block, or begins one sample behind a boundary in front of the
trace. -/
theorem drawsOlaps_iff (hinc : 1 < inc) (hlen : ∀ o ∈ olaps, 1 ≤ o.len) :
    DrawsOlaps inc olaps ↔ ∀ o ∈ olaps, OlapFits inc o := by
  refine eachOlap_iff (fun o => o.len.toNat) (fun o ho fuel info => drawOlap_iff hinc (hlen o ho))
    fun o _ _ fuel hfuel => ?_
  obtain ⟨info, hinfo⟩ := @exists_olapLoop inc 0 o.len o.len fuel hinc (o.bounds.1.tmod inc)
    (by rwa [sub_zero])
  exact ⟨_, by rw [drawOlap, hinfo, Option.map_some]⟩

end Draws

/-! ## The magnify plot -/

section Magnify

variable {α : Type} {w : OlapWindow} {o : Overlap α} {olaps : List (Overlap α)} {fuel : ℕ}
  {info : OlapInfo}

/-- An overlap as the readers save it. -/
structure Overlap.Saved (o : Overlap α) : Prop where
  len : 1 ≤ o.len
  len_int : o.len < 2 ^ 31
  bounds : o.bounds.2 = o.bounds.1 + o.len

namespace OlapWindow

theorem not_shown (hsps : 0 < w.sps) (ho : o.Saved)
    (hout : o.bounds.1 / w.sps > w.fin ∨ o.bounds.2 / w.sps < w.begin) {i : ℤ} (hi : 0 ≤ i)
    (hi' : i < o.len) : ¬w.Shown o i := by
  have hfirst : (o.bounds.1 : ℚ) / w.sps ≤ (o.bounds.1 + i) / w.sps := by
    apply div_le_div_of_nonneg_right _ hsps.le
    exact_mod_cast (by omega : o.bounds.1 ≤ o.bounds.1 + i)
  have hlast : ((o.bounds.1 : ℚ) + i) / w.sps ≤ o.bounds.2 / w.sps := by
    apply div_le_div_of_nonneg_right _ hsps.le
    have := ho.bounds
    exact_mod_cast (by omega : o.bounds.1 + i ≤ o.bounds.2)
  rintro ⟨hlow, hhigh⟩
  rcases hout with hbehind | hfront
  · exact absurd (hbehind.trans_le hfirst) hhigh.not_gt
  · exact absurd (hlow.trans hlast) hfront.not_ge

theorem skipped_nonneg (o : Overlap α) : 0 ≤ w.skipped o := le_max_left 0 _

theorem startPoint_eq (hsps : 0 < w.sps) (ho : o.Saved) (hin : ¬o.bounds.2 / w.sps < w.begin) :
    w.startPoint o = some (w.skipped o) := by
  have hscaled : (w.begin - o.bounds.1 / w.sps) * w.sps = w.begin * w.sps - o.bounds.1 := by
    rw [sub_mul, div_mul_cancel₀ _ hsps.ne']
  have hfront : o.bounds.1 / w.sps < w.begin ↔ 0 < w.begin * w.sps - o.bounds.1 := by
    rw [div_lt_iff₀ hsps, sub_pos]
  have hle : w.begin * w.sps - o.bounds.1 ≤ o.len := by
    have := (le_div_iff₀ hsps).1 (not_lt.1 hin)
    rw [ho.bounds] at this
    push_cast at this
    linarith
  unfold startPoint skipped
  by_cases hpos : o.bounds.1 / w.sps < w.begin
  · have hnonneg := (hfront.1 hpos).le
    have hfloor := Int.floor_nonneg.2 hnonneg
    have hrange : InIntRange ⌊w.begin * w.sps - o.bounds.1⌋ := by
      have hlt : ⌊w.begin * w.sps - o.bounds.1⌋ ≤ o.len := Int.floor_le_iff.2 (by linarith)
      have := ho.len_int
      exact ⟨by omega, by omega⟩
    rw [if_pos hpos, hscaled, toInt, truncate_of_nonneg hnonneg, signed, if_pos hrange,
      max_eq_right hfloor]
  · have hneg : ⌊w.begin * w.sps - o.bounds.1⌋ ≤ 0 :=
      Int.floor_nonpos (not_lt.1 fun h => hpos (hfront.2 h))
    rw [if_neg hpos, max_eq_left hneg]

theorem lastPoint_eq_some {last : ℤ} : w.lastPoint o (w.skipped o) = some last ↔
    InIntRange (truncate (w.sps * w.plot_length)) ∧
      InIntRange (w.skipped o + truncate (w.sps * w.plot_length) + 1) ∧ last = w.shownEnd o := by
  have hmin : (if w.skipped o + truncate (w.sps * w.plot_length) + 1 > o.len then o.len
      else w.skipped o + truncate (w.sps * w.plot_length) + 1) = w.shownEnd o := by
    unfold shownEnd
    split_ifs with hlong
    · omega
    · omega
  constructor
  · intro h
    obtain ⟨ndata, hndata, hlast⟩ := Option.bind_eq_some_iff.1 h
    obtain ⟨rfl, hpoints⟩ := toInt_eq_some.1 hndata
    obtain ⟨sum, hsum, rfl⟩ := Option.map_eq_some_iff.1 hlast
    obtain ⟨rfl, hrange⟩ := signed_eq_some.1 hsum
    exact ⟨hpoints, hrange, hmin⟩
  · rintro ⟨hpoints, hrange, rfl⟩
    rw [lastPoint, toInt_eq_some.2 ⟨rfl, hpoints⟩, Option.bind_some,
      signed_eq_some.2 ⟨rfl, hrange⟩, Option.map_some, hmin]

/-- What is read and drawn of an overlap that meets the window. -/
theorem drawsAll_shown_iff (hinc : 1 < w.inc)
    (hpoints : InIntRange (truncate (w.sps * w.plot_length)))
    (hrange : InIntRange (w.skipped o + truncate (w.sps * w.plot_length) + 1)) {info₀ : OlapInfo}
    (hloop : olapLoop w.inc o.len (w.shownEnd o) fuel
      (olapStart (w.skipped o) ((w.skipped o).tmod w.inc)) = some info₀) :
    DrawsAll (w.Shown o) o
        (info₀.drawScan (scanPoints 0 (o.len - info₀.ptInc) info₀.decInc)) ↔ w.Fits o := by
  have hp : 0 ≤ w.skipped o := skipped_nonneg o
  rw [Int.tmod_eq_emod_of_nonneg hp] at hloop
  have hr := Int.emod_lt_of_pos (w.skipped o) (by omega : 0 < w.inc)
  have hr₀ := Int.emod_nonneg (w.skipped o) (by omega : w.inc ≠ 0)
  have hle : w.shownEnd o ≤ o.len := min_le_left _ _
  obtain ⟨k, hk, hcount⟩ := olapLoop_sound hinc hp hr hle hloop
  have hptInc := hk.ptInc
  have hdec := hk.decInc
  have hend : w.lastBlock o = w.skipped o + w.inc * k := by rw [lastBlock, hcount]
  have hreads := fun i => @mem_reads_drawScan i info₀ 0 (o.len - info₀.ptInc)
  have hdrawn := fun i => @mem_drawn_drawScan i info₀ 0 (o.len - info₀.ptInc)
  unfold DrawsAll
  simp only [hreads, hdrawn, hk.reads, hk.drawn]
  rcases eq_or_ne k 0 with rfl | hne
  · rw [if_pos rfl] at hdec
    push_cast at hptInc hend
    have hone : w.lastBlock o = w.skipped o := by omega
    simp only [hdec, hptInc]
    constructor
    · rintro ⟨hread, hall⟩
      have hlast := hread _ (.inl rfl)
      refine ⟨hpoints, hrange, fun _ => ⟨by omega, fun i hi hi' hshown => ?_⟩,
        fun h => absurd hone h⟩
      have := hall i hi hi' hshown
      omega
    · intro hfits
      obtain ⟨hroom, hall⟩ := hfits.one hone
      refine ⟨fun i hi => by omega, fun i hi hi' hshown => ?_⟩
      have := hall i hi hi' hshown
      omega
  · have hblock : w.inc ≤ w.inc * k :=
      le_mul_of_one_le_right (by omega) (by exact_mod_cast Nat.one_le_iff_ne_zero.2 hne)
    have hbefore := hk.before hne
    rw [if_neg hne] at hdec
    simp only [hdec, hptInc]
    constructor
    · rintro ⟨-, hall⟩
      refine ⟨hpoints, hrange, fun h => by omega, fun _ i hi hi' hshown => ?_⟩
      have := hall i hi hi' hshown
      omega
    · intro hfits
      refine ⟨fun i hi => by omega, fun i hi hi' hshown => ?_⟩
      have := hfits.several (by omega) i hi hi' hshown
      omega

theorem drawOlap_iff (hsps : 0 < w.sps) (hinc : 1 < w.inc) (ho : o.Saved)
    (h : w.drawOlap fuel o = some info) : DrawsAll (w.Shown o) o info ↔ w.OlapFits o := by
  unfold drawOlap at h
  by_cases hout : o.bounds.1 / w.sps > w.fin ∨ o.bounds.2 / w.sps < w.begin
  · rw [if_pos hout, Option.some.injEq] at h
    subst h
    refine iff_of_true ⟨nofun, fun i hi hi' hshown => ?_⟩ ?_
    · exact absurd hshown (not_shown hsps ho hout hi hi')
    · exact hout.elim .inl fun hfront => .inr (.inl hfront)
  · rw [if_neg hout, startPoint_eq hsps ho (not_or.1 hout).2, Option.bind_some] at h
    obtain ⟨last, hlast, hrest⟩ := Option.bind_eq_some_iff.1 h
    obtain ⟨hpoints, hrange, rfl⟩ := lastPoint_eq_some.1 hlast
    obtain ⟨info₀, hloop, rfl⟩ := Option.map_eq_some_iff.1 hrest
    rw [if_pos hinc, drawsAll_shown_iff hinc hpoints hrange hloop]
    constructor
    · exact fun hfits => .inr (.inr hfits)
    · rintro (hbehind | hfront | hfits)
      · exact absurd (Or.inl hbehind) hout
      · exact absurd (Or.inr hfront) hout
      · exact hfits

theorem exists_drawOlap (hsps : 0 < w.sps) (hinc : 1 < w.inc) (ho : o.Saved) (hfits : w.OlapFits o)
    (hfuel : o.len.toNat < fuel) : ∃ info, w.drawOlap fuel o = some info := by
  unfold drawOlap
  by_cases hout : o.bounds.1 / w.sps > w.fin ∨ o.bounds.2 / w.sps < w.begin
  · exact ⟨_, if_pos hout⟩
  · rw [if_neg hout, startPoint_eq hsps ho (not_or.1 hout).2, Option.bind_some]
    rcases hfits with hbehind | hfront | hfits
    · exact absurd (Or.inl hbehind) hout
    · exact absurd (Or.inr hfront) hout
    · have hp : 0 ≤ w.skipped o := skipped_nonneg o
      have hle : w.shownEnd o ≤ o.len := min_le_left _ _
      obtain ⟨info, hinfo⟩ := @exists_olapLoop w.inc (w.skipped o) o.len (w.shownEnd o) fuel hinc
        ((w.skipped o).tmod w.inc) (by omega)
      exact ⟨_, by
        rw [lastPoint_eq_some.2 ⟨hfits.points, hfits.last, rfl⟩, Option.bind_some, hinfo,
          Option.map_some]⟩

/-- The magnify plot of the overlaps draws all samples in the window if and only if each overlap is
outside of the window or fits. -/
theorem drawsOlaps_iff (hsps : 0 < w.sps) (hinc : 1 < w.inc) (ho : ∀ o ∈ olaps, o.Saved) :
    w.DrawsOlaps olaps ↔ ∀ o ∈ olaps, w.OlapFits o := by
  have hP : w.DrawsOlaps olaps ↔ ∃ fuel infos, eachOlap (w.drawOlap fuel) olaps = some infos ∧
      List.Forall₂ (fun o info => DrawsAll (w.Shown o) o info) olaps infos := Iff.rfl
  rw [hP]
  exact eachOlap_iff (fun o => o.len.toNat)
    (fun o hmem fuel info => drawOlap_iff hsps hinc (ho o hmem))
    fun o hmem hfits fuel hfuel => exists_drawOlap hsps hinc (ho o hmem) hfits hfuel

end OlapWindow

/-- Twenty seconds of a trace with a sample a second, in blocks of two. -/
def twentySeconds : OlapWindow := ⟨1, 0, 20, 20, 2⟩

theorem twentySeconds_points :
    truncate (twentySeconds.sps * twentySeconds.plot_length) = 20 := by
  have h : twentySeconds.sps * twentySeconds.plot_length = (20 : ℤ) := by norm_num [twentySeconds]
  rw [h, truncate_intCast]

theorem twentySeconds_skipped (hstart : 0 ≤ o.bounds.1) : twentySeconds.skipped o = 0 := by
  have h : twentySeconds.begin * twentySeconds.sps - o.bounds.1 = (-o.bounds.1 : ℤ) := by
    norm_num [twentySeconds]
  rw [OlapWindow.skipped, h, Int.floor_intCast]
  omega

theorem twentySeconds_lastBlock (hstart : 0 ≤ o.bounds.1) :
    twentySeconds.lastBlock o = 2 * max 0 ((min o.len 21 - 1) / 2) := by
  rw [OlapWindow.lastBlock, OlapWindow.shownEnd, twentySeconds_points,
    twentySeconds_skipped hstart, sub_zero, zero_add]
  rfl

end Magnify

end PQL
