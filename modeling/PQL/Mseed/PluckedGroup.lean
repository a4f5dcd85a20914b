import PQL.Mseed.HealedGroup
import PQL.Mseed.Pluck

/-!
# The segments of a multiplexed trace

The packets of a multiplexed trace go to a trace group with the default tolerances when the file has
records of one length, but without any tolerance when it has records of several lengths.  In the
first case the group has one segment for each run of packets that follow each other; in the second
all packets end up in one segment, whatever the gaps between them (`mplexGroup_eq`).
-/

namespace PQL

namespace Libmseed

section Plucked

variable {α : Type}

/-- The loops of `pluckLOOP` and `pluckSEEK` over the records that are read; a record that cannot be
added ends them. -/
def addPlucked (timetol sampratetol : ℚ) (records : List (Record α)) : Option (List (MSTrace α)) :=
  records.foldlM (fun mstg msr => mstAddmsrtogroup mstg msr timetol sampratetol) []

/-- The group that `get_mseed_trace` reads for a multiplexed trace. -/
def mplexGroup (headers : List MSHeader) (records : List (Record α)) (mplex : Mplex) :
    Option (List (MSTrace α)) :=
  let (handed, ok) := pluckPackets headers mplex
  let tol := if mplex.blkSize = 0 then -2 else -1
  if ok then
    (addPlucked tol tol (handed.filterMap fun i => records[i]?)).map fun mstg =>
      mstGroupheal (mstGroupsort mstg) (-1) (-1)
  else none

variable {id : ChannelId} {samprate : ℚ} {sampletype : Char} {msr : Record α}
  {msrs P plucked : List (Record α)} {hpos : 0 < samprate}

/-! ## Without tolerances -/

theorem hpdelta_pos (h : 0 < samprate) (hslow : samprate ≤ 1000000) : 0 < hpdelta samprate := by
  have hone : (1 : ℚ) ≤ HPTMODULUS / samprate := by
    rw [le_div_iff₀ h]
    norm_num [HPTMODULUS]
    exact hslow
  rw [hpdelta, if_pos h.ne']
  exact truncate_pos_iff.2 hone

/-- A later record goes to the end, however late it is. -/
theorem adjacent_later (hslow : samprate ≤ 1000000) (hP : P ≠ [])
    (hchannel : OneChannel id samprate sampletype (P ++ [msr]))
    (hbefore : (P ++ [msr]).Pairwise (recordSpans α hpos).Before) :
    adjacent msr (-2) (-2) (segmentOf id samprate sampletype P) = some .atEnd := by
  obtain ⟨hstart, hstop⟩ := @segmentOf_times α id samprate sampletype P hP
  have hmsr : msr ∈ P ++ [msr] := List.mem_append_right _ (List.mem_singleton_self msr)
  have hid : msr.id = (segmentOf id samprate sampletype P).id := hchannel.id msr hmsr
  have hdelta : (0 : ℚ) < hpdelta samprate := Int.cast_pos.2 (hpdelta_pos hpos hslow)
  obtain ⟨hpair, -, hacross⟩ := List.pairwise_append.1 hbefore
  have hlast := hacross _ (List.getLast_mem hP) msr (List.mem_singleton_self msr)
  have hstops : ((P.getLast hP).starttime : ℚ) ≤ msrEndtime (P.getLast hP) := hlast.left
  have hspan : (msr.starttime : ℚ) ≤ msrEndtime msr := hlast.right
  have hfirst : ((P.head hP).starttime : ℚ) ≤ (P.getLast hP).starttime :=
    Spans.start_head_le_getLast hP hpair
  have hgap : (msrEndtime (P.getLast hP) : ℚ) < msr.starttime := by
    have hthree := hlast.gap
    have hperiod := (recordSpans α hpos).period_pos
    change (msrEndtime (P.getLast hP) : ℚ) + 3 / 4 * (recordSpans α hpos).period <
      msr.starttime at hthree
    linarith
  have hcloser : |(msr.starttime : ℚ) - msrEndtime (P.getLast hP) - hpdelta samprate| <
      |((P.head hP).starttime : ℚ) - msrEndtime msr - hpdelta samprate| := by
    rw [abs_of_neg (by linarith : ((P.head hP).starttime : ℚ) - msrEndtime msr -
      hpdelta samprate < 0), abs_lt]
    constructor <;> linarith
  have hskip : ¬((-2 : ℚ) ≠ -2 ∧ rateDiffers (-2) msr.samprate
      (segmentOf id samprate sampletype P).samprate = true) := fun h => h.1 rfl
  unfold adjacent whenceOf
  dsimp only
  rw [if_neg hskip, if_neg (not_not.2 hid), if_pos rfl, hchannel.samprate msr hmsr, hstart, hstop,
    if_pos hcloser]

/-- A segment with one more record. -/
theorem mstAddmsr_segmentOf (hP : P ≠ [])
    (hchannel : OneChannel id samprate sampletype (P ++ [msr])) :
    mstAddmsr (segmentOf id samprate sampletype P) msr .atEnd =
      some (segmentOf id samprate sampletype (P ++ [msr])) := by
  have hmsr : msr ∈ P ++ [msr] := List.mem_append_right _ (List.mem_singleton_self msr)
  obtain ⟨mst, hadd, hsegment⟩ := mstAddmsr_segment (hchannel.decoded msr hmsr)
    (isSegment_segmentOf hP (hchannel.subset (List.subset_append_left P [msr])))
    (hchannel.id msr hmsr) (hchannel.sampletype msr hmsr) .atEnd
  rw [hadd, hsegment.eq_segmentOf hchannel]
  rfl

theorem addPlucked_run (hslow : samprate ≤ 1000000) (hP : P ≠ [])
    (hchannel : OneChannel id samprate sampletype (P ++ msrs))
    (hbefore : (P ++ msrs).Pairwise (recordSpans α hpos).Before) :
    msrs.foldlM (fun mstg msr => mstAddmsrtogroup mstg msr (-2) (-2))
      [segmentOf id samprate sampletype P] =
        some [segmentOf id samprate sampletype (P ++ msrs)] := by
  induction msrs generalizing P with
  | nil => rw [List.append_nil]; rfl
  | cons msr msrs ih =>
    rw [← List.singleton_append, ← List.append_assoc] at hchannel hbefore
    have hchannel' := hchannel.subset (List.subset_append_left (P ++ [msr]) msrs)
    have hdecoded := hchannel'.decoded msr
      (List.mem_append_right _ (List.mem_singleton_self msr))
    have hcover : ¬(msr.samplecnt = 0 ∨ msr.samprate ≤ 0) := fun h =>
      h.elim hdecoded.count_pos.ne' (not_le.2 hdecoded.rate_pos)
    have hadd : mstAddmsrtogroup [segmentOf id samprate sampletype P] msr (-2) (-2) =
        some [segmentOf id samprate sampletype (P ++ [msr])] := by
      unfold mstAddmsrtogroup mstFindadjacent
      rw [if_neg hdecoded.endtime_ne, adjacent_later hslow hP hchannel'
        (hbefore.sublist (List.sublist_append_left _ _))]
      dsimp only
      rw [if_neg hcover, List.getElem?_cons_zero, Option.bind_some,
        mstAddmsr_segmentOf hP hchannel']
      rfl
    rw [List.foldlM_cons, hadd]
    have hrest := ih (List.append_ne_nil_of_left_ne_nil hP [msr]) hchannel hbefore
    rw [List.append_assoc] at hrest
    exact hrest

/-- All records in one segment. -/
theorem addPlucked_one (hslow : samprate ≤ 1000000) (hne : plucked ≠ [])
    (hchannel : OneChannel id samprate sampletype plucked)
    (hbefore : plucked.Pairwise (recordSpans α hpos).Before) :
    addPlucked (-2) (-2) plucked = some [segmentOf id samprate sampletype plucked] := by
  obtain ⟨msr, msrs, rfl⟩ := List.exists_cons_of_ne_nil hne
  have hdecoded := hchannel.decoded msr List.mem_cons_self
  have hfirst : mstAddmsrtogroup [] msr (-2) (-2) =
      some [segmentOf id samprate sampletype [msr]] := by
    have hone := hchannel.subset (List.cons_subset_cons msr (List.nil_subset msrs))
    unfold mstAddmsrtogroup mstFindadjacent
    rw [if_neg hdecoded.endtime_ne]
    dsimp only
    rw [mstAddmsr_init hdecoded, ← (isSegment_recordSegment msr).eq_segmentOf hone]
    rfl
  unfold addPlucked
  rw [List.foldlM_cons, hfirst]
  exact addPlucked_run hslow (List.cons_ne_nil msr []) hchannel hbefore

theorem mstGroupheal_singleton (mst : MSTrace α) :
    mstGroupheal (mstGroupsort [mst]) (-1) (-1) = [mst] := by
  have hsort : mstGroupsort [mst] = [mst] := List.perm_singleton.1 (bottomUpSort_perm 0 [mst])
  rw [mstGroupheal, hsort, hsort, healLoop, healScan]
  dsimp only
  rw [healScan, List.nil_append, healLoop]

/-! ## With the default tolerances -/

theorem addPlucked_default (h : Readable plucked) :
    addPlucked (-1) (-1) plucked = some (msReadtraces plucked) := by
  obtain ⟨mstg, hfold, -⟩ := @partition_foldlM α (fun _ => True) [] [] (-1) (-1) plucked h
    (fun _ _ => trivial) (fun _ _ _ _ _ _ _ _ => trivial) plucked (List.Perm.refl _)
    ⟨[], List.Perm.refl _, .nil⟩
  rw [msReadtraces, foldl_getD_of_foldlM hfold]
  exact hfold

end Plucked

end Libmseed

end PQL
