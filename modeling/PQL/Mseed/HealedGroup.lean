import PQL.Lib.Neighbours
import PQL.Mseed.TraceGroup

/-!
# The segments of a channel

When no two records of a channel overlap, the healed group does not depend on the order in which the
file has them: it holds the maximal runs of neighbours in the order of time (`mseedGroup_runs`).
What is merged while the records are read depends on their order, but healing merges the rest.
-/

namespace PQL

namespace Libmseed

section Runs

variable {α : Type}

/-- Decoded records of one channel at one rate. -/
structure OneChannel (id : ChannelId) (samprate : ℚ) (sampletype : Char) (msrs : List (Record α)) :
    Prop where
  id : ∀ msr ∈ msrs, msr.id = id
  samprate : ∀ msr ∈ msrs, msr.samprate = samprate
  sampletype : ∀ msr ∈ msrs, msr.sampletype = sampletype
  decoded : ∀ msr ∈ msrs, msr.Decoded

/-- The segment of some records of a channel. -/
def segmentOf (id : ChannelId) (samprate : ℚ) (sampletype : Char) (msrs : List (Record α)) :
    MSTrace α where
  id := id
  starttime := (msrs.head?.map fun msr => (msr.starttime : ℚ)).getD 0
  endtime := (msrs.getLast?.map fun msr => (msrEndtime msr : ℚ)).getD 0
  samprate := samprate
  sampletype := sampletype
  samplecnt := (msrs.map Record.samplecnt).sum
  datasamples := msrs.flatMap Record.samples

/-- The times that records at a rate take up. -/
def recordSpans (α : Type) {samprate : ℚ} (h : 0 < samprate) : Spans (Record α) where
  start msr := msr.starttime
  stop msr := msrEndtime msr
  period := HPTMODULUS / samprate
  period_pos := div_pos (by norm_num [HPTMODULUS]) h

/-- The records in the order of their start times. -/
def sortByStart (msrs : List (Record α)) : List (Record α) :=
  msrs.mergeSort fun a b => a.starttime ≤ b.starttime

variable {id : ChannelId} {samprate timetol : ℚ} {sampletype : Char} {msr a b : Record α}
  {records msrs P Q part : List (Record α)} {mst cur search : MSTrace α}
  {mstg : List (MSTrace α)} {whence : Whence} {hpos : 0 < samprate}

theorem OneChannel.readable (h : OneChannel id samprate sampletype records) : Readable records where
  decoded := h.decoded
  sampletype a ha b hb _ := (h.sampletype a ha).trans (h.sampletype b hb).symm

theorem OneChannel.subset (h : OneChannel id samprate sampletype records) (hsub : msrs ⊆ records) :
    OneChannel id samprate sampletype msrs where
  id msr hmsr := h.id msr (hsub hmsr)
  samprate msr hmsr := h.samprate msr (hsub hmsr)
  sampletype msr hmsr := h.sampletype msr (hsub hmsr)
  decoded msr hmsr := h.decoded msr (hsub hmsr)

theorem IsSegment.eq_segmentOf (h : IsSegment part mst)
    (hchannel : OneChannel id samprate sampletype part) :
    mst = segmentOf id samprate sampletype part := by
  obtain ⟨msr, hmsr, hrate⟩ := h.samprate
  have hhead := h.starttime
  have hlast := h.endtime
  rw [List.head?_eq_some_head h.ne_nil] at hhead
  rw [List.getLast?_eq_some_getLast h.ne_nil] at hlast
  obtain ⟨id', start, stop, rate, type, count, samples⟩ := mst
  simp only [segmentOf, MSTrace.mk.injEq]
  rw [List.head?_eq_some_head h.ne_nil, List.getLast?_eq_some_getLast h.ne_nil]
  exact ⟨(h.id msr hmsr).symm.trans (hchannel.id msr hmsr), hhead _ rfl, hlast _ rfl,
    hrate.symm.trans (hchannel.samprate msr hmsr),
    (h.sampletype msr hmsr).symm.trans (hchannel.sampletype msr hmsr), h.samplecnt, h.datasamples⟩

/-! ## Tolerances -/

theorem hpdelta_le (h : 0 < samprate) :
    0 ≤ hpdelta samprate ∧ (hpdelta samprate : ℚ) ≤ HPTMODULUS / samprate := by
  have hperiod : (0 : ℚ) ≤ HPTMODULUS / samprate := div_nonneg (by norm_num [HPTMODULUS]) h.le
  rw [hpdelta, if_pos h.ne', truncate_of_nonneg hperiod]
  exact ⟨Int.floor_nonneg.2 hperiod, Int.floor_le _⟩

theorem hptimetol_le {delta : ℤ} (h : 0 ≤ delta) :
    (hptimetol (-1) delta : ℚ) ≤ 1 / 2 * delta := by
  have hhalf : (0 : ℚ) ≤ 1 / 2 * delta := mul_nonneg (by norm_num) (Int.cast_nonneg h)
  rw [hptimetol, if_pos rfl, truncate_of_nonneg hhalf]
  exact Int.floor_le _

/-- The time between a segment and a record at one of its ends. -/
def gapAt (mst : MSTrace α) (msr : Record α) : Whence → ℚ
  | .atEnd => msr.starttime - mst.endtime
  | .atStart => mst.starttime - msrEndtime msr

/-- A record that fits is at most one and a half periods away. -/
theorem adjacent_gap (h : 0 < msr.samprate) (hadj : adjacent msr (-1) (-1) mst = some whence) :
    0 ≤ gapAt mst msr whence ∧ gapAt mst msr whence ≤ 3 / 2 * (HPTMODULUS / msr.samprate) := by
  obtain ⟨hnonneg, hdelta⟩ := hpdelta_le h
  have htol := hptimetol_le hnonneg
  have hdelta' : (0 : ℚ) ≤ hpdelta msr.samprate := Int.cast_nonneg hnonneg
  have hfits : ∀ gap : ℚ, gap - hpdelta msr.samprate ≤ hptimetol (-1) (hpdelta msr.samprate) ∧
      gap - hpdelta msr.samprate ≥ -hptimetol (-1) (hpdelta msr.samprate) →
      0 ≤ gap ∧ gap ≤ 3 / 2 * (HPTMODULUS / msr.samprate) := by
    rintro gap ⟨hle, hge⟩
    constructor <;> linarith
  have hdefault : ¬(-1 : ℚ) = -2 := by norm_num
  unfold adjacent whenceOf at hadj
  dsimp only at hadj
  rw [if_neg hdefault] at hadj
  split_ifs at hadj with hrate hid hpost hpre
  · obtain rfl := Option.some.inj hadj
    exact hfits _ hpost
  · obtain rfl := Option.some.inj hadj
    exact hfits _ hpre

/-- The tolerance of `mst_groupheal`, in ticks. -/
theorem healWhence_eq (hrate : cur.samprate = samprate) (hpos : 0 < samprate) :
    healWhence (1 / 2 * healDelta cur) cur search =
      if |search.starttime - cur.endtime - HPTMODULUS / samprate| ≤ 1 / 2 * (HPTMODULUS / samprate)
      then some .atEnd
      else if |cur.starttime - search.endtime - HPTMODULUS / samprate| ≤
        1 / 2 * (HPTMODULUS / samprate) then some .atStart
      else none := by
  have hdelta : healDelta cur = 1 / samprate := by rw [healDelta, hrate, if_pos hpos.ne']
  have hticks : ∀ gap : ℚ, |gap / HPTMODULUS - 1 / samprate| ≤ 1 / 2 * (1 / samprate) ↔
      |gap - HPTMODULUS / samprate| ≤ 1 / 2 * (HPTMODULUS / samprate) := by
    intro gap
    have hmod : (0 : ℚ) < HPTMODULUS := by norm_num [HPTMODULUS]
    have hgap : gap - HPTMODULUS / samprate = (gap / HPTMODULUS - 1 / samprate) * HPTMODULUS := by
      field_simp
    have htol : 1 / 2 * ((HPTMODULUS : ℚ) / samprate) = 1 / 2 * (1 / samprate) * HPTMODULUS := by
      ring
    rw [hgap, htol, abs_mul, abs_of_pos hmod, mul_le_mul_iff_left₀ hmod]
  unfold healWhence
  simp only [hdelta, hticks]

/-! ## The runs that are read -/

theorem Subperm.apart {S : Spans (Record α)} (hsub : msrs.Subperm records) (h : S.Apart records) :
    S.Apart msrs := by
  obtain ⟨l, hperm, hsub⟩ := hsub
  exact Spans.Apart.perm (h.sublist hsub) hperm

/-- A record that fits a run of neighbours is a neighbour itself. -/
theorem isChain_extendPart (hpart : IsSegment part mst)
    (hapart : (recordSpans α hpos).Apart (msr :: part)) (hrate : msr.samprate = samprate)
    (hchain : part.IsChain (recordSpans α hpos).Joins)
    (hadj : adjacent msr (-1) (-1) mst = some whence) :
    (extendPart part msr whence).IsChain (recordSpans α hpos).Joins := by
  obtain ⟨hnonneg, hnear⟩ := adjacent_gap (hrate ▸ hpos) hadj
  rw [hrate] at hnear
  have hacross := (List.pairwise_cons.1 hapart).1
  cases whence with
  | atEnd =>
    refine hchain.append (List.isChain_singleton msr) fun a ha b hb => ?_
    obtain rfl : msr = b := Option.some.inj hb
    unfold gapAt at hnonneg hnear
    rw [hpart.endtime a ha] at hnonneg hnear
    refine ⟨(hacross a (List.mem_of_mem_getLast? ha)).resolve_left fun hback => ?_, hnear⟩
    have hgap := hback.start_lt
    have hright := hback.right
    change (msr.starttime : ℚ) < a.starttime at hgap
    change (a.starttime : ℚ) ≤ msrEndtime a at hright
    linarith
  | atStart =>
    refine List.isChain_cons.2 ⟨fun a ha => ?_, hchain⟩
    unfold gapAt at hnonneg hnear
    rw [hpart.starttime a ha] at hnonneg hnear
    refine ⟨(hacross a (List.mem_of_mem_head? ha)).resolve_right fun hback => ?_, hnear⟩
    have hgap := hback.start_lt
    have hright := hback.right
    change (a.starttime : ℚ) < msr.starttime at hgap
    change (msr.starttime : ℚ) ≤ msrEndtime msr at hright
    linarith

theorem partition_chains (hchannel : OneChannel id samprate sampletype records)
    (hapart : (recordSpans α hpos).Apart records) :
    Partition (List.IsChain (recordSpans α hpos).Joins) records (msReadtraces records) := by
  refine partition_msReadtraces hchannel.readable (fun msr _ => List.isChain_singleton msr) ?_
  intro msr part mst whence hsub hpart hchain hadj
  exact isChain_extendPart hpart (Subperm.apart hsub hapart)
    (hchannel.samprate msr (hsub.subset List.mem_cons_self)) hchain hadj

/-! ## Sorting the segments -/

theorem isRateTolerable_self (h : 0 < samprate) : isRateTolerable samprate samprate := by
  unfold isRateTolerable
  rw [div_self h.ne', sub_self, abs_zero]
  exact decide_eq_true ⟨h.ne', by norm_num⟩

/-- Segments of one channel are compared by their times. -/
theorem mstGroupsortCmp_segmentOf (h : 0 < samprate) (P Q : List (Record α)) :
    mstGroupsortCmp (segmentOf id samprate sampletype P) (segmentOf id samprate sampletype Q) ≤ 0 ↔
      (segmentOf id samprate sampletype P).starttime ≤
          (segmentOf id samprate sampletype Q).starttime ∧
        ((segmentOf id samprate sampletype P).starttime =
            (segmentOf id samprate sampletype Q).starttime →
          (segmentOf id samprate sampletype Q).endtime ≤
            (segmentOf id samprate sampletype P).endtime) := by
  have hname : mstSrcname (segmentOf id samprate sampletype P) =
    mstSrcname (segmentOf id samprate sampletype Q) := rfl
  have hrates : isRateTolerable (segmentOf id samprate sampletype P).samprate
    (segmentOf id samprate sampletype Q).samprate = true := isRateTolerable_self h
  unfold mstGroupsortCmp
  rw [hname, if_neg (lt_irrefl _), if_pos rfl, hrates]
  generalize (segmentOf id samprate sampletype P).starttime = s
  generalize (segmentOf id samprate sampletype Q).starttime = s'
  generalize (segmentOf id samprate sampletype P).endtime = e
  generalize (segmentOf id samprate sampletype Q).endtime = e'
  rcases lt_trichotomy s s' with hlt | rfl | hgt
  · simp [hlt.not_gt, hlt.ne, hlt.le]
  · by_cases he : e < e'
    · simp [he, he.not_ge]
    · simp [he, not_lt.1 he]
  · simp [hgt, hgt.not_ge]

theorem ordersEntries_segmentOf (h : 0 < samprate)
    (hmstg : ∀ mst ∈ mstg, ∃ P : List (Record α), mst = segmentOf id samprate sampletype P) :
    OrdersEntries (fun p q => decide (mstGroupsortCmp p q ≤ 0)) mstg := by
  constructor
  · intro p hp q hq
    obtain ⟨P, rfl⟩ := hmstg p hp
    obtain ⟨Q, rfl⟩ := hmstg q hq
    simp only [decide_eq_true_eq, mstGroupsortCmp_segmentOf h]
    rcases lt_trichotomy (segmentOf id samprate sampletype P).starttime
      (segmentOf id samprate sampletype Q).starttime with hlt | heq | hgt
    · exact .inl ⟨hlt.le, fun heq => absurd heq hlt.ne⟩
    · exact (le_total _ _).elim (fun hle => .inr ⟨heq.ge, fun _ => hle⟩)
        fun hle => .inl ⟨heq.le, fun _ => hle⟩
    · exact .inr ⟨hgt.le, fun heq => absurd heq hgt.ne⟩
  · intro p hp q hq r hr
    obtain ⟨P, rfl⟩ := hmstg p hp
    obtain ⟨Q, rfl⟩ := hmstg q hq
    obtain ⟨R, rfl⟩ := hmstg r hr
    simp only [decide_eq_true_eq, mstGroupsortCmp_segmentOf h]
    rintro ⟨hPQ, hPQ'⟩ ⟨hQR, hQR'⟩
    refine ⟨hPQ.trans hQR, fun heq => ?_⟩
    have hPQeq := le_antisymm hPQ (hQR.trans heq.ge)
    exact (hQR' (hPQeq.symm.trans heq)).trans (hPQ' hPQeq)

theorem sortByStart_perm (msrs : List (Record α)) : (sortByStart msrs).Perm msrs :=
  List.mergeSort_perm _ _

theorem pairwise_sortByStart (hapart : (recordSpans α hpos).Apart records) :
    (sortByStart records).Pairwise (recordSpans α hpos).Before := by
  refine Spans.Apart.pairwise_of_sorted (hapart.perm (sortByStart_perm records).symm) ?_
  have hsorted := List.pairwise_mergeSort
    (fun (a b c : Record α) (hab : decide (a.starttime ≤ b.starttime) = true)
        (hbc : decide (b.starttime ≤ c.starttime) = true) =>
      decide_eq_true ((of_decide_eq_true hab).trans (of_decide_eq_true hbc)))
    (fun a b => by simp [le_total]) records
  exact hsorted.imp fun hle => Int.cast_le.2 (of_decide_eq_true hle)

/-- The segments as a function of their records. -/
theorem Partition.exists_map {C : List (Record α) → Prop} {f : List (Record α) → MSTrace α}
    (h : Partition C msrs mstg)
    (hf : ∀ part mst, part ⊆ msrs → IsSegment part mst → mst = f part) :
    ∃ parts : List (List (Record α)), parts.flatten.Perm msrs ∧ mstg = parts.map f ∧
      ∀ P ∈ parts, P ≠ [] ∧ C P := by
  obtain ⟨parts, hperm, hsegments⟩ := h
  have hsub : ∀ P ∈ parts, P ⊆ msrs := fun P hP a ha =>
    hperm.subset (List.mem_flatten.2 ⟨P, hP, ha⟩)
  refine ⟨parts, hperm, ?_⟩
  clear hperm
  induction hsegments with
  | nil => exact ⟨rfl, fun P hP => absurd hP List.not_mem_nil⟩
  | cons hpart hrest ih =>
    obtain ⟨hP, hparts⟩ := List.forall_mem_cons.1 hsub
    obtain ⟨rfl, hall⟩ := ih hparts
    obtain rfl := hf _ _ hP hpart.1
    exact ⟨rfl, List.forall_mem_cons.2 ⟨⟨hpart.1.ne_nil, hpart.2⟩, hall⟩⟩

/-- The sorted group holds runs of neighbours, and altogether the sorted records. -/
theorem exists_parts (hchannel : OneChannel id samprate sampletype records)
    (hapart : (recordSpans α hpos).Apart records) :
    ∃ parts : List (List (Record α)),
      mstGroupsort (mstGroupsort (msReadtraces records)) =
        parts.map (segmentOf id samprate sampletype) ∧
      (∀ P ∈ parts, P ≠ [] ∧ P.IsChain (recordSpans α hpos).Joins) ∧
      parts.flatten = sortByStart records := by
  have hread := (partition_chains hchannel hapart).groupsort
  obtain ⟨parts, hperm, hmap, hparts⟩ := hread.groupsort.exists_map
    fun part mst hsub hpart => hpart.eq_segmentOf (hchannel.subset hsub)
  refine ⟨parts, hmap, hparts, ?_⟩
  have hsegments : ∀ mst ∈ mstGroupsort (msReadtraces records), ∃ P : List (Record α),
      mst = segmentOf id samprate sampletype P := by
    intro mst hmst
    obtain ⟨parts, -, hmap, -⟩ := hread.exists_map
      fun part mst hsub hpart => hpart.eq_segmentOf (hchannel.subset hsub)
    obtain ⟨P, -, hP⟩ := List.mem_map.1 (hmap ▸ hmst)
    exact ⟨P, hP.symm⟩
  have hsorted : (parts.map (segmentOf id samprate sampletype)).Pairwise
      fun p q => mstGroupsortCmp p q ≤ 0 := by
    rw [← hmap]
    exact (bottomUpSort_sorted (ordersEntries_segmentOf hpos hsegments)).imp of_decide_eq_true
  have hstarts : parts.Pairwise fun P Q => ∀ a ∈ P.head?, ∀ b ∈ Q.head?,
      (recordSpans α hpos).start a ≤ (recordSpans α hpos).start b := by
    refine (List.pairwise_map.1 hsorted).imp fun {P Q} hle a ha b hb => ?_
    have hstart := ((mstGroupsortCmp_segmentOf hpos P Q).1 hle).1
    unfold segmentOf at hstart
    rwa [Option.mem_def.1 ha, Option.mem_def.1 hb] at hstart
  have hbefore := Spans.pairwise_flatten (fun P hP => (hparts P hP).2)
    (hapart.perm hperm.symm) hstarts
  exact Spans.eq_of_perm (hperm.trans (sortByStart_perm records).symm) hbefore
    (pairwise_sortByStart hapart)

/-! ## Healing -/

/-- The segment of `P` ends far before the record. -/
structure FarBefore (samprate : ℚ) (mst : MSTrace α) (msr : Record α) : Prop where
  left : mst.starttime ≤ mst.endtime
  right : (msr.starttime : ℚ) ≤ msrEndtime msr
  far : mst.endtime + 3 / 2 * (HPTMODULUS / samprate) < msr.starttime

/-- Segments that are far from each other do not fit. -/
theorem healWhence_far (hrate : cur.samprate = samprate) (hpos : 0 < samprate)
    (hcur : cur.starttime ≤ cur.endtime) (hsearch : search.starttime ≤ search.endtime)
    (h : cur.endtime + 3 / 2 * (HPTMODULUS / samprate) < search.starttime ∨
      search.endtime + 3 / 2 * (HPTMODULUS / samprate) < cur.starttime) :
    healWhence (1 / 2 * healDelta cur) cur search = none := by
  have hperiod : (0 : ℚ) < HPTMODULUS / samprate := div_pos (by norm_num [HPTMODULUS]) hpos
  rw [healWhence_eq hrate hpos, if_neg, if_neg]
  · rintro hle
    obtain ⟨hlow, hhigh⟩ := abs_le.1 hle
    rcases h with h | h <;> linarith
  · rintro hle
    obtain ⟨hlow, hhigh⟩ := abs_le.1 hle
    rcases h with h | h <;> linarith

/-- A neighbour fits at the end. -/
theorem healWhence_near (hrate : cur.samprate = samprate) (hpos : 0 < samprate)
    (hgap : cur.endtime + 3 / 4 * (HPTMODULUS / samprate) < search.starttime)
    (hnear : search.starttime - cur.endtime ≤ 3 / 2 * (HPTMODULUS / samprate)) :
    healWhence (1 / 2 * healDelta cur) cur search = some .atEnd := by
  have hperiod : (0 : ℚ) < HPTMODULUS / samprate := div_pos (by norm_num [HPTMODULUS]) hpos
  rw [healWhence_eq hrate hpos, if_pos (abs_le.2 ⟨by linarith, by linarith⟩)]

/-- The tolerance before and after the first pair. -/
def IsTolerance (samprate t : ℚ) : Prop := t = -1 ∨ t = 1 / 2 * (1 / samprate)

theorem healStep_segmentOf (hpos : 0 < samprate) {t : ℚ} (ht : IsTolerance samprate t)
    (P Q : List (Record α)) :
    healStep (-1) t (segmentOf id samprate sampletype P) (segmentOf id samprate sampletype Q) =
      (1 / 2 * (1 / samprate),
        (healWhence (1 / 2 * healDelta (segmentOf id samprate sampletype P))
          (segmentOf id samprate sampletype P) (segmentOf id samprate sampletype Q)).map
          (mergeSpan (segmentOf id samprate sampletype P)
            (segmentOf id samprate sampletype Q))) := by
  have hsame : ¬((segmentOf id samprate sampletype Q).id ≠ (segmentOf id samprate sampletype P).id ∨
      rateDiffers (-1) (segmentOf id samprate sampletype Q).samprate
        (segmentOf id samprate sampletype P).samprate = true) := by
    rintro (hid | hrate)
    · exact hid rfl
    · have hself := isRateTolerable_self hpos
      unfold rateDiffers at hrate
      rw [if_pos rfl] at hrate
      change (!isRateTolerable samprate samprate) = true at hrate
      rw [hself] at hrate
      exact absurd hrate (by decide)
  have hdelta : healDelta (segmentOf id samprate sampletype P) = 1 / samprate := if_pos hpos.ne'
  have htol : (if t = -1 then 1 / 2 * healDelta (segmentOf id samprate sampletype P) else t) =
      1 / 2 * healDelta (segmentOf id samprate sampletype P) := by
    rcases ht with rfl | rfl
    · exact if_pos rfl
    · rw [hdelta]
      exact ite_self _
  unfold healStep
  rw [if_neg hsame]
  dsimp only
  rw [htol, hdelta]

/-- A scan of segments that do not fit. -/
theorem healScan_far (hpos : 0 < samprate) {t : ℚ} (ht : IsTolerance samprate t)
    {P : List (Record α)} {others : List (List (Record α))}
    (hfar : ∀ Q ∈ others, healWhence (1 / 2 * healDelta (segmentOf id samprate sampletype P))
      (segmentOf id samprate sampletype P) (segmentOf id samprate sampletype Q) = none) :
    ∃ t', IsTolerance samprate t' ∧
      healScan (-1) t (segmentOf id samprate sampletype P)
          (others.map (segmentOf id samprate sampletype)) =
        ⟨t', segmentOf id samprate sampletype P,
          others.map (segmentOf id samprate sampletype)⟩ := by
  induction others generalizing t with
  | nil => exact ⟨t, ht, rfl⟩
  | cons Q others ih =>
    obtain ⟨hQ, hothers⟩ := List.forall_mem_cons.1 hfar
    obtain ⟨t', ht', hscan⟩ := ih (.inr rfl) hothers
    refine ⟨t', ht', ?_⟩
    rw [List.map_cons, healScan, healStep_segmentOf hpos ht, hQ]
    dsimp only [Option.map_none]
    rw [hscan]

theorem isSegment_segmentOf (hP : P ≠ []) (hchannel : OneChannel id samprate sampletype P) :
    IsSegment P (segmentOf id samprate sampletype P) := by
  obtain ⟨msr, hmsr⟩ := List.exists_mem_of_ne_nil P hP
  refine ⟨hP, hchannel.id, hchannel.sampletype, ⟨msr, hmsr, hchannel.samprate msr hmsr⟩,
    fun a ha => ?_, fun a ha => ?_, rfl, rfl⟩
  · unfold segmentOf
    rw [Option.mem_def.1 ha]
    rfl
  · unfold segmentOf
    rw [Option.mem_def.1 ha]
    rfl

theorem mergeSpan_segmentOf (hchannel : OneChannel id samprate sampletype (P ++ Q)) (hP : P ≠ [])
    (hQ : Q ≠ []) :
    mergeSpan (segmentOf id samprate sampletype P) (segmentOf id samprate sampletype Q) .atEnd =
      segmentOf id samprate sampletype (P ++ Q) := by
  have hchannelP := hchannel.subset (List.subset_append_left P Q)
  have hchannelQ := hchannel.subset (List.subset_append_right P Q)
  have hmerged := isSegment_mergeSpan (isSegment_segmentOf hP hchannelP)
    (isSegment_segmentOf hQ hchannelQ) hchannelQ.decoded rfl rfl .atEnd
  exact hmerged.eq_segmentOf hchannel

/-- The times of a segment are those of its first and its last record. -/
theorem segmentOf_times (hP : P ≠ []) :
    (segmentOf id samprate sampletype P).starttime = (P.head hP).starttime ∧
      (segmentOf id samprate sampletype P).endtime = msrEndtime (P.getLast hP) := by
  unfold segmentOf
  rw [List.head?_eq_some_head hP, List.getLast?_eq_some_getLast hP]
  exact ⟨rfl, rfl⟩

/-- Segments of records that lie one behind the other. -/
theorem segmentOf_before (hP : P ≠ []) (hQ : Q ≠ [])
    (h : (P ++ Q).Pairwise (recordSpans α hpos).Before) :
    (segmentOf id samprate sampletype P).starttime ≤ (segmentOf id samprate sampletype P).endtime ∧
      (segmentOf id samprate sampletype Q).starttime ≤
        (segmentOf id samprate sampletype Q).endtime ∧
      (segmentOf id samprate sampletype P).endtime + 3 / 4 * (HPTMODULUS / samprate) <
        (segmentOf id samprate sampletype Q).starttime := by
  obtain ⟨hpairP, hpairQ, hacross⟩ := List.pairwise_append.1 h
  obtain ⟨hstartP, hstopP⟩ := @segmentOf_times α id samprate sampletype P hP
  obtain ⟨hstartQ, hstopQ⟩ := @segmentOf_times α id samprate sampletype Q hQ
  have hend := (hacross _ (List.getLast_mem hP) _ (List.head_mem hQ)).left
  have hstop := (hacross _ (List.head_mem hP) _ (List.getLast_mem hQ)).right
  rw [hstartP, hstopP, hstartQ, hstopQ]
  exact ⟨(Spans.start_head_le_getLast hP hpairP).trans hend,
    (Spans.start_head_le_getLast hQ hpairQ).trans hstop,
    (hacross _ (List.getLast_mem hP) _ (List.head_mem hQ)).gap⟩

/-- What follows a part that does not join lies far behind. -/
theorem farBefore_of_not_joins {parts : List (List (Record α))} (hP : P ≠ []) (hQ : Q ≠ [])
    (hbefore : (P ++ (Q :: parts).flatten).Pairwise (recordSpans α hpos).Before)
    (hnot : joinsPart (recordSpans α hpos).near P Q = false) :
    ∀ msr ∈ (Q :: parts).flatten,
      FarBefore samprate (segmentOf id samprate sampletype P) msr := by
  intro msr hmsr
  obtain ⟨hpairP, hpair, hacross⟩ := List.pairwise_append.1 hbefore
  obtain ⟨hstart, hstop⟩ := @segmentOf_times α id samprate sampletype P hP
  have hlast := hacross _ (List.getLast_mem hP) msr hmsr
  have hhead : (recordSpans α hpos).start (Q.head hQ) ≤ (recordSpans α hpos).start msr := by
    obtain ⟨q, Q, rfl⟩ := List.exists_cons_of_ne_nil hQ
    rcases List.mem_cons.1 hmsr with rfl | hmem
    · exact le_rfl
    · exact (List.rel_of_pairwise_cons hpair hmem).start_lt.le
  rw [joinsPart_eq hP hQ] at hnot
  have hfar := not_le.1 (of_decide_eq_false hnot)
  refine ⟨?_, hlast.right, ?_⟩
  · rw [hstart, hstop]
    exact (Spans.start_head_le_getLast hP hpairP).trans hlast.left
  · rw [hstop]
    exact lt_of_lt_of_le (lt_sub_iff_add_lt'.1 hfar) hhead

/-- Far records make far segments. -/
theorem healWhence_of_far (hpos : 0 < samprate) (hQ : Q ≠ [])
    (hbefore : Q.Pairwise (recordSpans α hpos).Before)
    (hfar : ∀ msr ∈ Q, FarBefore samprate (segmentOf id samprate sampletype P) msr) :
    healWhence (1 / 2 * healDelta (segmentOf id samprate sampletype P))
        (segmentOf id samprate sampletype P) (segmentOf id samprate sampletype Q) = none ∧
      healWhence (1 / 2 * healDelta (segmentOf id samprate sampletype Q))
        (segmentOf id samprate sampletype Q) (segmentOf id samprate sampletype P) = none := by
  obtain ⟨hstart, hstop⟩ := @segmentOf_times α id samprate sampletype Q hQ
  have hhead := hfar _ (List.head_mem hQ)
  have hlast := hfar _ (List.getLast_mem hQ)
  have hQtimes : (segmentOf id samprate sampletype Q).starttime ≤
      (segmentOf id samprate sampletype Q).endtime := by
    rw [hstart, hstop]
    exact (Spans.start_head_le_getLast hQ hbefore).trans hlast.right
  have hgap := hstart ▸ hhead.far
  exact ⟨healWhence_far rfl hpos hhead.left hQtimes (.inl hgap),
    healWhence_far rfl hpos hQtimes hhead.left (.inr hgap)⟩

/-- The scan of the segments behind `cur` merges the neighbours that follow. -/
theorem healScan_run {t : ℚ} (ht : IsTolerance samprate t) {parts : List (List (Record α))}
    (hchannel : OneChannel id samprate sampletype (P ++ parts.flatten)) (hP : P ≠ [])
    (hparts : ∀ Q ∈ parts, Q ≠ [])
    (hbefore : (P ++ parts.flatten).Pairwise (recordSpans α hpos).Before) :
    ∃ t', IsTolerance samprate t' ∧
      healScan (-1) t (segmentOf id samprate sampletype P)
          (parts.map (segmentOf id samprate sampletype)) =
        ⟨t', segmentOf id samprate sampletype (mergeFront (recordSpans α hpos).near P parts).1,
          (mergeFront (recordSpans α hpos).near P parts).2.map
            (segmentOf id samprate sampletype)⟩ := by
  induction parts generalizing P t with
  | nil => exact ⟨t, ht, rfl⟩
  | cons Q parts ih =>
    obtain ⟨hQ, hrest⟩ := List.forall_mem_cons.1 hparts
    rw [mergeFront]
    split_ifs with hjoins
    · rw [List.flatten_cons, ← List.append_assoc] at hchannel hbefore
      have hPQ := hbefore.sublist (List.sublist_append_left (P ++ Q) _)
      have hchannelPQ := hchannel.subset (List.subset_append_left (P ++ Q) _)
      obtain ⟨-, hstop⟩ := @segmentOf_times α id samprate sampletype P hP
      obtain ⟨hstart, -⟩ := @segmentOf_times α id samprate sampletype Q hQ
      have hlast := (List.pairwise_append.1 hPQ).2.2 _ (List.getLast_mem hP) _ (List.head_mem hQ)
      rw [joinsPart_eq hP hQ] at hjoins
      have hnear : healWhence (1 / 2 * healDelta (segmentOf id samprate sampletype P))
          (segmentOf id samprate sampletype P) (segmentOf id samprate sampletype Q) =
          some .atEnd := by
        refine healWhence_near rfl hpos ?_ ?_
        · rw [hstop, hstart]
          exact hlast.gap
        · rw [hstop, hstart]
          exact of_decide_eq_true hjoins
      obtain ⟨t', ht', hscan⟩ := ih (t := 1 / 2 * (1 / samprate)) (.inr rfl) hchannel
        (List.append_ne_nil_of_left_ne_nil hP Q) hrest hbefore
      refine ⟨t', ht', ?_⟩
      rw [List.map_cons, healScan, healStep_segmentOf hpos ht, hnear]
      dsimp only [Option.map_some]
      rw [mergeSpan_segmentOf hchannelPQ hP hQ]
      exact hscan
    · have hfar := @farBefore_of_not_joins α id samprate sampletype P Q hpos parts hP hQ hbefore
        (Bool.eq_false_iff.2 hjoins)
      refine healScan_far hpos ht fun R hR => (healWhence_of_far hpos (hparts R hR) ?_ ?_).1
      · exact (List.pairwise_append.1 hbefore).2.1.sublist (List.sublist_flatten_of_mem hR)
      · exact fun msr hmsr => hfar msr (List.mem_flatten.2 ⟨R, hR, hmsr⟩)

/-- The outer loop, when the segments that it has passed lie far before the rest. -/
theorem healLoop_run {t : ℚ} (ht : IsTolerance samprate t) {done parts : List (List (Record α))}
    (hchannel : OneChannel id samprate sampletype parts.flatten)
    (hparts : AreChains (recordSpans α hpos).near parts)
    (hbefore : parts.flatten.Pairwise (recordSpans α hpos).Before)
    (hdone : ∀ R ∈ done, ∀ msr ∈ parts.flatten,
      FarBefore samprate (segmentOf id samprate sampletype R) msr) :
    healLoop (-1) t (done.map (segmentOf id samprate sampletype))
        (parts.map (segmentOf id samprate sampletype)) =
      (done ++ merged (recordSpans α hpos).near parts).map (segmentOf id samprate sampletype) := by
  induction parts using merged.induct (recordSpans α hpos).near generalizing done t with
  | case1 => rw [List.map_nil, healLoop, merged, List.append_nil]
  | case2 P parts ih =>
    obtain ⟨⟨hP, hchain⟩, hrest⟩ := List.forall_mem_cons.1 hparts
    have hpairP := (List.pairwise_append.1 hbefore).1
    obtain ⟨t₁, ht₁, hscan₁⟩ := @healScan_far α id samprate sampletype hpos t ht P done
      fun R hR => (healWhence_of_far hpos hP hpairP fun msr hmsr =>
        hdone R hR msr (List.mem_append_left _ hmsr)).2
    obtain ⟨t₂, ht₂, hscan₂⟩ := healScan_run ht₁ hchannel hP (fun Q hQ => (hrest Q hQ).1) hbefore
    obtain ⟨hchains, hflatten, hhead⟩ := mergeFront_spec hparts
    obtain ⟨hfront, hbehind⟩ := List.forall_mem_cons.1 hchains
    have hbefore' : ((mergeFront (recordSpans α hpos).near P parts).1 ++
        (mergeFront (recordSpans α hpos).near P parts).2.flatten).Pairwise
        (recordSpans α hpos).Before := by
      rw [hflatten]
      exact hbefore
    have hsub : (mergeFront (recordSpans α hpos).near P parts).2.flatten ⊆
        (P :: parts).flatten := by
      rw [List.flatten_cons, ← hflatten]
      exact List.subset_append_right _ _
    rw [List.map_cons, healLoop, hscan₁]
    dsimp only
    rw [hscan₂, merged_cons]
    dsimp only
    have hnext := @ih _ ht₂ (done ++ [(mergeFront (recordSpans α hpos).near P parts).1])
      (hchannel.subset hsub) hbehind (List.pairwise_append.1 hbefore').2.1 fun R hR msr hmsr => ?_
    · rw [List.map_append, List.map_singleton] at hnext
      rw [hnext, List.append_assoc, List.singleton_append]
    · rcases List.mem_append.1 hR with hR | hR
      · exact hdone R hR msr (hsub hmsr)
      · obtain rfl := List.mem_singleton.1 hR
        cases hbehind' : (mergeFront (recordSpans α hpos).near P parts).2 with
        | nil =>
          rw [hbehind'] at hmsr
          exact absurd hmsr List.not_mem_nil
        | cons Q rest =>
          rw [hbehind'] at hmsr hbefore' hhead hbehind
          exact farBefore_of_not_joins hfront.1 (hbehind Q List.mem_cons_self).1 hbefore'
            (hhead Q rfl) msr hmsr

theorem mseedGroup_eq (hpos : 0 < samprate)
    (hchannel : OneChannel id samprate sampletype records)
    (hapart : (recordSpans α hpos).Apart records) :
    mseedGroup records = ((sortByStart records).splitBy (recordSpans α hpos).near).map
      (segmentOf id samprate sampletype) := by
  obtain ⟨parts, hmap, hparts, hflatten⟩ := exists_parts hchannel hapart
  have hchains : AreChains (recordSpans α hpos).near parts := fun P hP =>
    ⟨(hparts P hP).1, (hparts P hP).2.imp fun a b hjoins => decide_eq_true hjoins.near⟩
  have hloop := @healLoop_run α id samprate sampletype hpos (-1) (.inl rfl) [] parts
    (hchannel.subset (by rw [hflatten]; exact (sortByStart_perm records).subset)) hchains
    (by rw [hflatten]; exact pairwise_sortByStart hapart) fun R hR => absurd hR List.not_mem_nil
  rw [mseedGroup, mstGroupheal, hmap]
  rw [List.map_nil, List.nil_append, merged_eq hchains, hflatten] at hloop
  exact hloop

theorem oneChannel_seconds {records : List (Record ℤ)}
    (h : ∀ msr ∈ records, ∃ second : ℤ, ∃ samples : List ℤ, 0 ≤ second ∧ samples ≠ [] ∧
      msr = secondsRecord second samples) :
    OneChannel ⟨"XX", "STA", "", "BHZ"⟩ 1 'i' records := by
  refine ⟨fun msr hmsr => ?_, fun msr hmsr => ?_, fun msr hmsr => ?_, fun msr hmsr => ?_⟩ <;>
    obtain ⟨second, samples, hsecond, hsamples, rfl⟩ := h msr hmsr
  · rfl
  · rfl
  · rfl
  · exact decoded_secondsRecord hsamples hsecond

/-- Records at one sample per second, one behind the other. -/
theorem before_seconds {second second' : ℤ} {samples samples' : List ℤ} (h : samples ≠ [])
    (h' : samples' ≠ []) (hlt : second + samples.length ≤ second') :
    (recordSpans ℤ (show (0 : ℚ) < 1 from one_pos)).Before (secondsRecord second samples)
      (secondsRecord second' samples') := by
  have hlen := List.length_pos_iff.2 h
  have hlen' := List.length_pos_iff.2 h'
  have hend := msrEndtime_secondsRecord second h
  have hend' := msrEndtime_secondsRecord second' h'
  have hperiod : (3 / 4 * (HPTMODULUS / 1) : ℚ) = ((750000 : ℤ) : ℚ) := by norm_num [HPTMODULUS]
  refine ⟨Int.cast_le.2 ?_, Int.cast_le.2 ?_, ?_⟩
  · rw [hend]
    dsimp only [secondsRecord]
    omega
  · rw [hend']
    dsimp only [secondsRecord]
    omega
  · change (msrEndtime (secondsRecord second samples) : ℚ) + 3 / 4 * (HPTMODULUS / 1) <
      ((secondsRecord second' samples').starttime : ℚ)
    rw [hperiod, ← Int.cast_add, Int.cast_lt, hend]
    dsimp only [secondsRecord]
    omega

end Runs

end Libmseed

end PQL
