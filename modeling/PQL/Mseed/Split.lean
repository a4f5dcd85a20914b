import PQL.Lib.Batches
import PQL.Mseed.Pluck

/-!
# Splitting channels into traces

The packets of an indexed channel are in time order.  `makeTraces` cuts them into batches that start
within the window of the first packet, and each batch is a trace (`makeTraces_eq`); the traces are
put in front of each other, so that the last one comes first.  What is promised of the traces
(`SplitsChannels`) follows from that.
-/

namespace PQL

/-! ## The traces of a channel -/

/-- The packet starts before the window that `first` opens is over. -/
def inWindow (options : Option MplexOptions) (first p : MMPacket) : Bool :=
  !windowBreached options first.startTime p

/-- The trace that the packets of a batch make. -/
def batchTrace (blkSize : ℕ) (c : MMIndex) (batch : List MMPacket) : MMTrcInfo where
  channelName := c.channelName
  id := c.id
  blkSize := blkSize
  startTime := (batch.head?.map MMPacket.startTime).getD 0
  sampRate := c.sampRate
  sampleCnt := (batch.map MMPacket.sampleCnt).sum
  encoding := c.encoding
  packets := batch.reverse

/-- The traces of a channel, the last one first. -/
def tracesOfChannel (options : Option MplexOptions) (blkSize : ℕ) (c : MMIndex) : List MMTrcInfo :=
  if includeChan options c.id.channel then
    ((batches (inWindow options) c.packets).map (batchTrace blkSize c)).reverse
  else []

section Traces

variable (options : Option MplexOptions) (blkSize : ℕ) (c : MMIndex)

theorem tracePacket_new {s : TracesState} {p : MMPacket}
    (h : (∀ trc ∈ s.traces, trc.channelName ≠ c.channelName) ∨
      windowBreached options s.traceStart p) :
    tracePacket options blkSize c s p = ⟨batchTrace blkSize c [p] :: s.traces, p.startTime⟩ := by
  have hnew : (!(s.traces.any fun trc => trc.channelName = c.channelName) ||
      windowBreached options s.traceStart p) = true := by
    rcases h with h | h
    · have hany : (s.traces.any fun trc => trc.channelName = c.channelName) = false := by
        simpa using h
      rw [hany]
      rfl
    · rw [h, Bool.or_true]
  unfold tracePacket
  simp only [hnew, if_true]
  simp [batchTrace]

/-- A packet in the window of the open batch joins it. -/
theorem tracePacket_joins {first p : MMPacket} (batch : List MMPacket) (rest : List MMTrcInfo)
    (h : inWindow options first p) :
    tracePacket options blkSize c ⟨batchTrace blkSize c (first :: batch) :: rest, first.startTime⟩ p
      = ⟨batchTrace blkSize c (first :: (batch ++ [p])) :: rest, first.startTime⟩ := by
  have hbreached : windowBreached options first.startTime p = false := by
    simpa [inWindow] using h
  have hname : (batchTrace blkSize c (first :: batch)).channelName = c.channelName := rfl
  unfold tracePacket
  simp only [List.any_cons, hname, decide_true, Bool.true_or, Bool.not_true, Bool.false_or,
    hbreached, Bool.false_eq_true, if_false, updateFirst, if_true]
  simp [batchTrace, add_assoc]

theorem foldl_tracePacket_open (packets : List MMPacket) (first : MMPacket)
    (batch : List MMPacket) (rest : List MMTrcInfo) :
    (packets.foldl (tracePacket options blkSize c)
      ⟨batchTrace blkSize c (first :: batch) :: rest, first.startTime⟩).traces =
      ((batches (inWindow options) (packets.dropWhile (inWindow options first))).map
        (batchTrace blkSize c)).reverse ++
      batchTrace blkSize c (first :: (batch ++ packets.takeWhile (inWindow options first))) ::
        rest := by
  induction packets generalizing first batch rest with
  | nil => simp
  | cons p packets ih =>
    rw [List.foldl_cons]
    by_cases hp : inWindow options first p
    · rw [tracePacket_joins options blkSize c batch rest hp, ih, List.dropWhile_cons_of_pos hp,
        List.takeWhile_cons_of_pos hp, List.append_assoc, List.singleton_append]
    · have hbreached : windowBreached options first.startTime p = true := by
        simpa [inWindow] using hp
      have hstep := tracePacket_new options blkSize c
        (s := ⟨batchTrace blkSize c (first :: batch) :: rest, first.startTime⟩) (Or.inr hbreached)
      rw [hstep, ih, List.dropWhile_cons_of_neg hp, List.takeWhile_cons_of_neg hp, batches_cons]
      simp

theorem traceChannel_eq {s : TracesState}
    (hs : ∀ trc ∈ s.traces, trc.channelName ≠ c.channelName) :
    (traceChannel options blkSize s c).traces =
      tracesOfChannel options blkSize c ++ s.traces := by
  unfold traceChannel tracesOfChannel
  split_ifs
  · cases hpackets : c.packets with
    | nil => simp
    | cons p packets =>
      rw [List.foldl_cons, tracePacket_new options blkSize c (Or.inl hs),
        foldl_tracePacket_open, batches_cons]
      simp
  · rfl

end Traces

theorem channelName_of_mem {options : Option MplexOptions} {blkSize : ℕ} {c : MMIndex}
    {trc : MMTrcInfo} (h : trc ∈ tracesOfChannel options blkSize c) :
    trc.channelName = c.channelName := by
  unfold tracesOfChannel at h
  split_ifs at h
  · obtain ⟨batch, -, rfl⟩ := List.mem_map.1 (List.mem_reverse.1 h)
    rfl
  · exact absurd h List.not_mem_nil

theorem foldl_traceChannel_eq (options : Option MplexOptions) (blkSize : ℕ)
    {channels : List MMIndex} (hnames : (channels.map MMIndex.channelName).Nodup)
    {s : TracesState} (hs : ∀ c ∈ channels, ∀ trc ∈ s.traces, trc.channelName ≠ c.channelName) :
    (channels.foldl (traceChannel options blkSize) s).traces =
      channels.reverse.flatMap (tracesOfChannel options blkSize) ++ s.traces := by
  induction channels generalizing s with
  | nil => rfl
  | cons c channels ih =>
    rw [List.map_cons, List.nodup_cons] at hnames
    obtain ⟨hc, hs⟩ := List.forall_mem_cons.1 hs
    have hstep := traceChannel_eq options blkSize c hc
    rw [List.foldl_cons, ih hnames.2, hstep]
    · simp
    · intro d hd trc htrc
      rw [hstep, List.mem_append] at htrc
      rcases htrc with htrc | htrc
      · rw [channelName_of_mem htrc]
        exact fun h => hnames.1 (h ▸ List.mem_map_of_mem hd)
      · exact hs d hd trc htrc

/-! ## The index -/

theorem channelName_addToIndex (channels : List MMIndex) (index : ℕ) (msr : MSHeader) :
    (addToIndex channels index msr).map MMIndex.channelName =
      if channelName msr.id ∈ channels.map MMIndex.channelName then
        channels.map MMIndex.channelName
      else channelName msr.id :: channels.map MMIndex.channelName := by
  unfold addToIndex
  simp only []
  have hiff : (channels.any fun c => c.channelName = channelName msr.id) = true ↔
      channelName msr.id ∈ channels.map MMIndex.channelName := by simp
  split_ifs with hknown hmem hmem
  · rw [map_updateFirst]
    exact fun _ => rfl
  · exact absurd (hiff.1 hknown) hmem
  · exact absurd (hiff.2 hmem) hknown
  · rfl

theorem ne_nil_addToIndex {channels : List MMIndex} (hne : ∀ c ∈ channels, c.packets ≠ [])
    (index : ℕ) (msr : MSHeader) : ∀ c ∈ addToIndex channels index msr, c.packets ≠ [] := by
  unfold addToIndex
  simp only []
  split_ifs
  · apply forall_mem_updateFirst_of_forall (P := fun c : MMIndex => c.packets ≠ []) _ hne
    exact fun _ _ => List.cons_ne_nil _ _
  · exact List.forall_mem_cons.2 ⟨List.cons_ne_nil _ _, hne⟩

/-- What an index is: the channels have different names and packets, in time order. -/
structure Indexed (channels : List MMIndex) : Prop where
  names : (channels.map MMIndex.channelName).Nodup
  ne_nil : ∀ c ∈ channels, c.packets ≠ []
  sorted : ∀ c ∈ channels, (c.packets.map MMPacket.startTime).Pairwise (· ≤ ·)

theorem timeOrder_sorted (packets : List MMPacket) :
    ((timeOrder packets).map MMPacket.startTime).Pairwise (· ≤ ·) := by
  have hmap : (timeOrder packets).map MMPacket.startTime =
      (packets.map MMPacket.startTime).insertionSort (· ≤ ·) :=
    List.map_insertionSort _ _ _ _ fun _ _ _ _ => Iff.rfl
  rw [hmap]
  exact List.pairwise_insertionSort (· ≤ ·) (packets.map MMPacket.startTime)

theorem timeOrder_perm (packets : List MMPacket) : (timeOrder packets).Perm packets :=
  List.perm_insertionSort _ _

theorem indexed_indexMplex {records : List MSHeader} {file : MMFile}
    (hfile : indexMplex records = some file) : Indexed file.channels := by
  have hfold : ∀ (packets : List (MSHeader × ℕ)) (s : IndexState),
      (s.channels.map MMIndex.channelName).Nodup → (∀ c ∈ s.channels, c.packets ≠ []) →
      ((packets.foldl indexPacket s).channels.map MMIndex.channelName).Nodup ∧
        ∀ c ∈ (packets.foldl indexPacket s).channels, c.packets ≠ [] := by
    intro packets
    induction packets with
    | nil => exact fun s hnames hne => ⟨hnames, hne⟩
    | cons packet packets ih =>
      intro s hnames hne
      rw [List.foldl_cons]
      apply ih
      · rw [indexPacket_channels]
        split_ifs
        · rw [channelName_addToIndex]
          split_ifs with hmem
          · exact hnames
          · exact List.nodup_cons.2 ⟨hmem, hnames⟩
        · exact hnames
      · rw [indexPacket_channels]
        split_ifs
        · exact ne_nil_addToIndex hne _ _
        · exact hne
  cases records with
  | nil => exact nomatch hfile
  | cons msr rest =>
    obtain rfl := Option.some.inj hfile
    obtain ⟨hnames, hne⟩ := hfold (msr :: rest).zipIdx ⟨msr.reclen, msr.reclen, []⟩
      List.nodup_nil nofun
    refine ⟨?_, ?_, ?_⟩
    · rw [List.map_map]
      exact hnames
    · intro c hc
      obtain ⟨d, hd, rfl⟩ := List.mem_map.1 hc
      intro hnil
      have hperm := (timeOrder_perm d.packets).symm
      rw [show timeOrder d.packets = [] from hnil] at hperm
      exact hne d hd hperm.eq_nil
    · intro c hc
      obtain ⟨d, -, rfl⟩ := List.mem_map.1 hc
      exact timeOrder_sorted d.packets

/-! ## The traces of a file -/

/-- The packets of a trace are put into order when there is one block size. -/
def orderTrace (blkSize : ℕ) (trc : MMTrcInfo) : MMTrcInfo :=
  if blkSize ≠ 0 then { trc with packets := trc.packets.reverse } else trc

theorem makeTraces_eq (options : Option MplexOptions) {file : MMFile}
    (hnames : (file.channels.map MMIndex.channelName).Nodup) :
    makeTraces options file =
      (file.channels.reverse.flatMap (tracesOfChannel options file.blkSize)).map
        (orderTrace file.blkSize) := by
  have hfold := foldl_traceChannel_eq options file.blkSize hnames (s := ⟨[], 0⟩) (fun _ _ => nofun)
  rw [List.append_nil] at hfold
  unfold makeTraces
  rw [hfold]
  split_ifs with hblk
  · exact List.map_congr_left fun trc _ => (if_pos hblk).symm
  · exact (List.map_id _).symm.trans (List.map_congr_left fun trc _ => (if_neg hblk).symm)

/-- The traces of one channel, the last one first. -/
theorem filter_makeTraces (options : Option MplexOptions) {file : MMFile}
    (hnames : (file.channels.map MMIndex.channelName).Nodup) {c : MMIndex}
    (hc : c ∈ file.channels) :
    (makeTraces options file).filter (fun trc => trc.channelName = c.channelName) =
      (tracesOfChannel options file.blkSize c).map (orderTrace file.blkSize) := by
  have hname : ∀ trc : MMTrcInfo,
      (orderTrace file.blkSize trc).channelName = trc.channelName := fun trc => by
    unfold orderTrace
    split_ifs <;> rfl
  rw [makeTraces_eq options hnames, List.filter_map]
  congr 1
  have hrev : (file.channels.reverse.map MMIndex.channelName).Nodup := by
    rw [List.map_reverse]
    exact List.nodup_reverse.2 hnames
  rw [← flatMap_filter_key MMIndex.channelName (tracesOfChannel options file.blkSize)
    MMTrcInfo.channelName (fun _ _ h => channelName_of_mem h) hrev (List.mem_reverse.2 hc)]
  apply List.filter_congr
  intro trc _
  rw [Function.comp_apply, hname]

/-- The trace is made of the batch. -/
structure OfBatch (c : MMIndex) (batch : List MMPacket) (trc : MMTrcInfo) : Prop where
  channelName : trc.channelName = c.channelName
  startTime : ∀ p ∈ batch.head?, trc.startTime = p.startTime
  sampleCnt : trc.sampleCnt = (batch.map MMPacket.sampleCnt).sum
  packets : trc.packets.Perm batch

theorem ofBatch_orderTrace (blkSize : ℕ) (c : MMIndex) (batch : List MMPacket) :
    OfBatch c batch (orderTrace blkSize (batchTrace blkSize c batch)) := by
  have hstart : ∀ p ∈ batch.head?, (batchTrace blkSize c batch).startTime = p.startTime := by
    intro p hp
    rw [batchTrace, Option.mem_def.1 hp]
    rfl
  unfold orderTrace
  split_ifs
  · refine ⟨rfl, hstart, rfl, ?_⟩
    rw [batchTrace, List.reverse_reverse]
  · exact ⟨rfl, hstart, rfl, List.reverse_perm batch⟩

theorem mem_tracesOfChannel {options : Option MplexOptions} {blkSize : ℕ} {c : MMIndex}
    {trc : MMTrcInfo} :
    trc ∈ tracesOfChannel options blkSize c ↔ includeChan options c.id.channel ∧
      ∃ batch ∈ batches (inWindow options) c.packets, trc = batchTrace blkSize c batch := by
  unfold tracesOfChannel
  split_ifs with hinc
  · simp [hinc, eq_comm]
  · simp [hinc]

/-- Each trace is made of a batch of an included channel. -/
theorem exists_ofBatch {options : Option MplexOptions} {file : MMFile}
    (hnames : (file.channels.map MMIndex.channelName).Nodup) {trc : MMTrcInfo}
    (htrc : trc ∈ makeTraces options file) :
    ∃ c ∈ file.channels, includeChan options c.id.channel ∧
      ∃ batch ∈ batches (inWindow options) c.packets, OfBatch c batch trc := by
  rw [makeTraces_eq options hnames] at htrc
  obtain ⟨t, ht, rfl⟩ := List.mem_map.1 htrc
  obtain ⟨c, hc, ht⟩ := List.mem_flatMap.1 ht
  obtain ⟨hinc, batch, hbatch, rfl⟩ := mem_tracesOfChannel.1 ht
  exact ⟨c, List.mem_reverse.1 hc, hinc, batch, hbatch, ofBatch_orderTrace _ c batch⟩

/-- What the traces of a file are: those of the channels that pass the filter, cut where the window
of a trace is over; the traces of a channel come last one first. -/
structure SplitsChannels (options : Option MplexOptions) (file : MMFile)
    (traces : List MMTrcInfo) : Prop where
  included : ∀ trc ∈ traces, ∃ c ∈ file.channels, includeChan options c.id.channel ∧
    trc.channelName = c.channelName
  traced : ∀ c ∈ file.channels, includeChan options c.id.channel →
    ∃ trc ∈ traces, trc.channelName = c.channelName
  partition : ∀ c ∈ file.channels, includeChan options c.id.channel →
    ((traces.filter fun trc => trc.channelName = c.channelName).flatMap MMTrcInfo.packets).Perm
      c.packets
  sampleCnt : ∀ trc ∈ traces, trc.sampleCnt = (trc.packets.map MMPacket.sampleCnt).sum
  startTime : ∀ trc ∈ traces, (∃ p ∈ trc.packets, p.startTime = trc.startTime) ∧
    ∀ p ∈ trc.packets, trc.startTime ≤ p.startTime
  window : ∀ o ∈ options, 0 < o.length → ∀ trc ∈ traces, ∀ p ∈ trc.packets,
    ((p.startTime - trc.startTime : ℤ) : ℚ) < o.length * ONEMIL
  consecutive : ∀ c ∈ file.channels,
    (traces.filter fun trc => trc.channelName = c.channelName).reverse.IsChain fun prev next =>
      ∃ o ∈ options, o.length ≠ 0 ∧
        o.length * ONEMIL ≤ ((next.startTime - prev.startTime : ℤ) : ℚ)
  readOrder : ∀ trc ∈ traces, (makeMseedTrace trc).packets.Perm trc.packets ∧
    ((makeMseedTrace trc).packets.map MMPacket.index).Pairwise (· < ·)

theorem windowBreached_iff {options : Option MplexOptions} {traceStart : ℤ} {p : MMPacket} :
    windowBreached options traceStart p ↔ ∃ o ∈ options, o.length ≠ 0 ∧
      o.length * ONEMIL ≤ ((p.startTime - traceStart : ℤ) : ℚ) := by
  have hpos : (0 : ℚ) < ONEMIL := by norm_num [ONEMIL]
  cases options with
  | none => simp [windowBreached]
  | some o => simp [windowBreached, le_div_iff₀ hpos]

/-- A batch of packets in time order begins with the earliest one. -/
theorem sorted_of_mem_batches {options : Option MplexOptions} {packets : List MMPacket}
    (hsorted : (packets.map MMPacket.startTime).Pairwise (· ≤ ·)) {first : MMPacket}
    {rest : List MMPacket} (hbatch : first :: rest ∈ batches (inWindow options) packets) :
    ∀ p ∈ first :: rest, first.startTime ≤ p.startTime := by
  have hsub : (first :: rest).Sublist packets := by
    have h := List.sublist_flatten_of_mem hbatch
    rwa [flatten_batches] at h
  have hpairwise := hsorted.sublist (hsub.map MMPacket.startTime)
  rw [List.map_cons, List.pairwise_cons] at hpairwise
  intro p hp
  rcases List.mem_cons.1 hp with rfl | hp
  · exact le_rfl
  · exact hpairwise.1 p.startTime (List.mem_map_of_mem hp)

theorem OfBatch.startTime_sorted {c : MMIndex} {batch : List MMPacket} {trc : MMTrcInfo}
    {options : Option MplexOptions} (h : OfBatch c batch trc)
    (hsorted : (c.packets.map MMPacket.startTime).Pairwise (· ≤ ·))
    (hbatch : batch ∈ batches (inWindow options) c.packets) :
    (∃ p ∈ trc.packets, p.startTime = trc.startTime) ∧
      ∀ p ∈ trc.packets, trc.startTime ≤ p.startTime := by
  obtain ⟨first, rest, rfl, -⟩ := exists_of_mem_batches hbatch
  have hstart : trc.startTime = first.startTime := h.startTime first rfl
  rw [hstart]
  refine ⟨⟨first, h.packets.mem_iff.2 List.mem_cons_self, rfl⟩, fun p hp => ?_⟩
  exact sorted_of_mem_batches hsorted hbatch p (h.packets.mem_iff.1 hp)

/-- No packet of a trace breaches its window. -/
theorem OfBatch.inWindow {c : MMIndex} {batch : List MMPacket} {trc : MMTrcInfo}
    {o : MplexOptions} (h : OfBatch c batch trc) (hpos : 0 < o.length)
    (hbatch : batch ∈ batches (inWindow (some o)) c.packets) {p : MMPacket}
    (hp : p ∈ trc.packets) :
    ((p.startTime - trc.startTime : ℤ) : ℚ) < o.length * ONEMIL := by
  obtain ⟨first, rest, rfl, hjoins⟩ := exists_of_mem_batches hbatch
  have hstart : trc.startTime = first.startTime := h.startTime first rfl
  rw [hstart]
  rcases List.mem_cons.1 (h.packets.mem_iff.1 hp) with rfl | hp
  · have hlength : (0 : ℚ) < o.length := Int.cast_pos.2 hpos
    rw [sub_self, Int.cast_zero]
    exact mul_pos hlength (by norm_num [ONEMIL])
  · by_contra hge
    have hbreached : windowBreached (some o) first.startTime p :=
      windowBreached_iff.2 ⟨o, rfl, hpos.ne', not_lt.1 hge⟩
    have hjoin := hjoins p hp
    rw [PQL.inWindow, hbreached] at hjoin
    exact absurd hjoin (by decide)

/-- The traces of an included channel in the order of time. -/
theorem reverse_filter_makeTraces (options : Option MplexOptions) {file : MMFile}
    (hnames : (file.channels.map MMIndex.channelName).Nodup) {c : MMIndex}
    (hc : c ∈ file.channels) (hinc : includeChan options c.id.channel) :
    ((makeTraces options file).filter fun trc => trc.channelName = c.channelName).reverse =
      (batches (inWindow options) c.packets).map fun batch =>
        orderTrace file.blkSize (batchTrace file.blkSize c batch) := by
  rw [filter_makeTraces options hnames hc, tracesOfChannel, if_pos hinc, List.map_reverse,
    List.reverse_reverse, List.map_map]
  rfl

theorem consecutive_makeTraces (options : Option MplexOptions) {file : MMFile}
    (hnames : (file.channels.map MMIndex.channelName).Nodup) {c : MMIndex}
    (hc : c ∈ file.channels) :
    ((makeTraces options file).filter fun trc =>
      trc.channelName = c.channelName).reverse.IsChain fun prev next =>
        ∃ o ∈ options, o.length ≠ 0 ∧
          o.length * ONEMIL ≤ ((next.startTime - prev.startTime : ℤ) : ℚ) := by
  by_cases hinc : includeChan options c.id.channel
  · rw [reverse_filter_makeTraces options hnames hc hinc, List.isChain_map]
    refine List.IsChain.imp_of_mem_imp ?_ (isChain_batches c.packets)
    intro m m' hm hm' hnot
    obtain ⟨first, rest, rfl, -⟩ := exists_of_mem_batches hm
    obtain ⟨next, rest', rfl, -⟩ := exists_of_mem_batches hm'
    have hstart := (ofBatch_orderTrace file.blkSize c (first :: rest)).startTime first rfl
    have hnext := (ofBatch_orderTrace file.blkSize c (next :: rest')).startTime next rfl
    rw [hstart, hnext]
    apply windowBreached_iff.1
    simpa [inWindow] using hnot first rfl next rfl
  · rw [filter_makeTraces options hnames hc, tracesOfChannel, if_neg hinc]
    exact List.isChain_nil

end PQL
