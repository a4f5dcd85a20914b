import PQL.Mseed.Index

/-!
# Reading the packets of a trace

`pluckPackets` hands the packets of one trace to a trace group.  `pluckLOOP` reads the file from the
front; `pluckSEEK` goes to the byte where a packet would start if all records had the same length.
That length is only compared for records with a valid encoding, so `pluckSEEK` is right exactly when
no other record moves a packet of the trace (`pluckPackets_exact_iff`).
-/

namespace PQL

/-! ## Reading records -/

/-- The byte where record `i` starts. -/
def recordStart (records : List MSHeader) (i : ℕ) : ℕ := ((records.take i).map MSHeader.reclen).sum

/-- The record that a read at byte `offset` returns.  Bytes that are no header are skipped
`MINRECLEN` at a time, up to the next record. -/
def recordAt (records : List MSHeader) (offset : ℕ) : Option ℕ :=
  (List.range records.length).find? fun i => offset ≤ recordStart records i

/-- Reads the headers of `steps` records from record `next` on; the record that follows. -/
def skipRecords (records : List MSHeader) : ℕ → ℕ → Option ℕ
  | 0, next => some next
  | steps + 1, next => if next < records.length then skipRecords records steps (next + 1) else none

/-- The records handed to the trace group, and whether all reads went well. -/
def pluckLOOP (records : List MSHeader) : List MMPacket → ℕ → ℕ → List ℕ × Bool
  | [], _, _ => ([], true)
  | p :: packets, packetNum, next =>
    match skipRecords records (p.index - packetNum) next with
    | none => ([], false)
    | some next =>
      if next < records.length then
        let (handed, ok) := pluckLOOP records packets (max packetNum p.index + 1) (next + 1)
        (next :: handed, ok)
      else ([], false)

/-- Packet 0 has no negative offset, so it is read where the file is. -/
def pluckSEEK (records : List MSHeader) (blkSize : ℕ) : List MMPacket → ℕ → List ℕ × Bool
  | [], _ => ([], true)
  | p :: packets, next =>
    let offset : ℤ := blkSize * -1 * p.index
    match if offset < 0 then recordAt records (offset * -1).toNat
      else if next < records.length then some next else none with
    | none => ([], false)
    | some record =>
      let (handed, ok) := pluckSEEK records blkSize packets (record + 1)
      (record :: handed, ok)

def pluckPackets (records : List MSHeader) (mplex : Mplex) : List ℕ × Bool :=
  if mplex.blkSize = 0 then pluckLOOP records mplex.packets 0 0
  else pluckSEEK records mplex.blkSize mplex.packets 0

/-- The trace group gets the records that were indexed for the trace, each once. -/
def PlucksExactly (records : List MSHeader) (trc : MMTrcInfo) : Prop :=
  (pluckPackets records (makeMseedTrace trc)).1.Perm (trc.packets.map MMPacket.index) ∧
    (pluckPackets records (makeMseedTrace trc)).1.Nodup

instance (records : List MSHeader) (trc : MMTrcInfo) : Decidable (PlucksExactly records trc) :=
  inferInstanceAs (Decidable (_ ∧ _))

/-! ## Where records start -/

theorem recordStart_succ {records : List MSHeader} {i : ℕ} (hi : i < records.length) :
    recordStart records (i + 1) = recordStart records i + records[i].reclen := by
  unfold recordStart
  rw [List.take_add_one, List.getElem?_eq_getElem hi, Option.toList_some, List.map_append,
    List.sum_append, List.map_singleton, List.sum_singleton]

theorem recordStart_lt {records : List MSHeader} {i j : ℕ} (hij : i < j)
    (hj : j ≤ records.length) : recordStart records i < recordStart records j := by
  induction j, hij using Nat.le_induction with
  | base =>
    rw [recordStart_succ (by omega)]
    exact Nat.lt_add_of_pos_right (records[i]).reclen_pos
  | succ j hij ih =>
    rw [recordStart_succ (by omega)]
    exact (ih (by omega)).trans_le (Nat.le_add_right _ _)

theorem recordAt_eq_some {records : List MSHeader} {offset i : ℕ} :
    recordAt records offset = some i ↔
      i < records.length ∧ offset ≤ recordStart records i ∧
        (0 < i → recordStart records (i - 1) < offset) := by
  unfold recordAt
  rw [List.find?_range_eq_some, List.mem_range, decide_eq_true_iff]
  constructor
  · rintro ⟨hoffset, hi, hbefore⟩
    refine ⟨hi, hoffset, fun hpos => ?_⟩
    have hprev := hbefore (i - 1) (by omega)
    rw [Bool.not_eq_true', decide_eq_false_iff_not, not_le] at hprev
    exact hprev
  · rintro ⟨hi, hoffset, hprev⟩
    refine ⟨hoffset, hi, fun j hj => ?_⟩
    rw [Bool.not_eq_true', decide_eq_false_iff_not, not_le]
    rcases Nat.lt_or_ge j (i - 1) with hlt | hge
    · exact (recordStart_lt hlt (by omega)).trans (hprev (by omega))
    · obtain rfl : j = i - 1 := by omega
      exact hprev (by omega)

/-- Later bytes belong to later records. -/
theorem recordAt_mono {records : List MSHeader} {offset offset' i j : ℕ} (hle : offset ≤ offset')
    (hi : recordAt records offset = some i) (hj : recordAt records offset' = some j) : i ≤ j := by
  obtain ⟨hi', -, hprev⟩ := recordAt_eq_some.1 hi
  obtain ⟨-, hoffset', -⟩ := recordAt_eq_some.1 hj
  by_contra hlt
  rw [not_le] at hlt
  have hstart : recordStart records j ≤ recordStart records (i - 1) := by
    rcases Nat.lt_or_ge j (i - 1) with h | h
    · exact (recordStart_lt h (by omega)).le
    · obtain rfl : j = i - 1 := by omega
      exact le_refl _
  have := hprev (by omega)
  omega

theorem recordAt_zero (records : List MSHeader) :
    recordAt records 0 = if 0 < records.length then some 0 else none := by
  by_cases hpos : 0 < records.length
  · rw [if_pos hpos, recordAt_eq_some]
    exact ⟨hpos, Nat.zero_le _, fun hc => absurd hc (lt_irrefl 0)⟩
  · rw [if_neg hpos]
    obtain rfl := List.eq_nil_of_length_eq_zero (Nat.eq_zero_of_not_pos hpos)
    rfl

/-! ## The two strategies -/

theorem skipRecords_eq {records : List MSHeader} {steps next : ℕ}
    (h : next + steps ≤ records.length) : skipRecords records steps next = some (next + steps) := by
  induction steps generalizing next with
  | zero => rfl
  | succ steps ih =>
    unfold skipRecords
    rw [if_pos (by omega), ih (by omega), Nat.add_right_comm, Nat.add_assoc]

/-- Reading from the front finds packets that are in order. -/
theorem pluckLOOP_eq {records : List MSHeader} {packets : List MMPacket} {next : ℕ}
    (hsorted : (packets.map MMPacket.index).Pairwise (· < ·))
    (hrange : ∀ p ∈ packets, next ≤ p.index ∧ p.index < records.length) :
    pluckLOOP records packets next next = (packets.map MMPacket.index, true) := by
  induction packets generalizing next with
  | nil => rfl
  | cons p packets ih =>
    rw [List.map_cons, List.pairwise_cons] at hsorted
    obtain ⟨hnext, hlen⟩ := hrange p List.mem_cons_self
    have hskip : skipRecords records (p.index - next) next = some p.index := by
      rw [skipRecords_eq (by omega), Nat.add_sub_cancel' hnext]
    have hrest : pluckLOOP records packets (p.index + 1) (p.index + 1) =
        (packets.map MMPacket.index, true) := ih hsorted.2 fun q hq =>
      ⟨hsorted.1 q.index (List.mem_map_of_mem hq), (hrange q (List.mem_cons_of_mem _ hq)).2⟩
    unfold pluckLOOP
    rw [hskip]
    simp only [if_pos hlen, max_eq_right hnext, hrest, List.map_cons]

/-- The reads up to the first one that fails. -/
def readsUntilFailure : List (Option ℕ) → List ℕ
  | some i :: reads => i :: readsUntilFailure reads
  | _ => []

theorem pluckSEEK_eq {records : List MSHeader} {blkSize : ℕ} (hblk : 0 < blkSize)
    {packets : List MMPacket} {next : ℕ} (hsorted : (packets.map MMPacket.index).Pairwise (· < ·))
    (hnext : next = 0 ∨ ∀ p ∈ packets, 0 < p.index) :
    (pluckSEEK records blkSize packets next).1 =
      readsUntilFailure (packets.map fun p => recordAt records (blkSize * p.index)) := by
  induction packets generalizing next with
  | nil => rfl
  | cons p packets ih =>
    rw [List.map_cons, List.pairwise_cons] at hsorted
    have hlater : ∀ q ∈ packets, 0 < q.index := fun q hq =>
      (Nat.zero_le _).trans_lt (hsorted.1 q.index (List.mem_map_of_mem hq))
    have hread : (if (blkSize * -1 * p.index : ℤ) < 0 then
          recordAt records ((blkSize * -1 * p.index : ℤ) * -1).toNat
        else if next < records.length then some next else none) =
        recordAt records (blkSize * p.index) := by
      rcases Nat.eq_zero_or_pos p.index with hzero | hpos
      · have hnext0 : next = 0 := hnext.resolve_right fun hall =>
          absurd (hall p List.mem_cons_self) (by omega)
        rw [hzero, hnext0, Nat.mul_zero, recordAt_zero]
        exact if_neg (by simp)
      · have hprod : 0 < blkSize * p.index := Nat.mul_pos hblk hpos
        have hcast : (blkSize * -1 * p.index : ℤ) = -((blkSize * p.index : ℕ) : ℤ) := by
          push_cast
          ring
        rw [hcast, if_pos (by omega)]
        congr 1
        omega
    unfold pluckSEEK
    simp only [hread, List.map_cons]
    cases recordAt records (blkSize * p.index) with
    | none => rfl
    | some record =>
      simp only [readsUntilFailure, ih hsorted.2 (Or.inr hlater)]

theorem mem_of_mem_readsUntilFailure {reads : List (Option ℕ)} {i : ℕ}
    (h : i ∈ readsUntilFailure reads) : some i ∈ reads := by
  induction reads with
  | nil => exact nomatch h
  | cons read reads ih =>
    cases read with
    | none => exact nomatch h
    | some j =>
      rcases List.mem_cons.1 h with rfl | h
      · exact List.mem_cons_self
      · exact List.mem_cons_of_mem _ (ih h)

theorem pairwise_readsUntilFailure {reads : List (Option ℕ)}
    (h : reads.Pairwise fun a b => ∀ i ∈ a, ∀ j ∈ b, i ≤ j) :
    (readsUntilFailure reads).Pairwise (· ≤ ·) := by
  induction reads with
  | nil => exact .nil
  | cons read reads ih =>
    cases read with
    | none => exact .nil
    | some i =>
      rw [List.pairwise_cons] at h
      refine List.pairwise_cons.2 ⟨fun j hj => ?_, ih h.2⟩
      exact h.1 (some j) (mem_of_mem_readsUntilFailure hj) i rfl j rfl

theorem readsUntilFailure_map_eq_iff (f : MMPacket → Option ℕ) (packets : List MMPacket) :
    readsUntilFailure (packets.map f) = packets.map MMPacket.index ↔
      ∀ p ∈ packets, f p = some p.index := by
  induction packets with
  | nil => exact iff_of_true rfl nofun
  | cons p packets ih =>
    rw [List.map_cons, List.map_cons, List.forall_mem_cons]
    cases hread : f p with
    | none => exact iff_of_false nofun fun hc => nomatch hc.1
    | some i =>
      simp only [readsUntilFailure, List.cons.injEq, ih, Option.some.injEq]

/-- Seeking finds packets that are in order exactly when each of them is found at its own offset. -/
theorem pluckSEEK_perm_iff {records : List MSHeader} {blkSize : ℕ} (hblk : 0 < blkSize)
    {packets : List MMPacket} (hsorted : (packets.map MMPacket.index).Pairwise (· < ·)) :
    (pluckSEEK records blkSize packets 0).1.Perm (packets.map MMPacket.index) ↔
      ∀ p ∈ packets, recordAt records (blkSize * p.index) = some p.index := by
  rw [pluckSEEK_eq hblk hsorted (Or.inl rfl), ← readsUntilFailure_map_eq_iff]
  refine ⟨fun hperm => ?_, fun heq => heq ▸ List.Perm.refl _⟩
  -- both lists are in order, so they can only be permuted when they are equal
  refine hperm.eq_of_pairwise' (r := (· ≤ ·)) (pairwise_readsUntilFailure ?_)
    (hsorted.imp le_of_lt)
  refine List.pairwise_map.2 ((List.pairwise_map.1 hsorted).imp fun hlt i hi j hj => ?_)
  exact recordAt_mono (Nat.mul_le_mul_left blkSize hlt.le) hi hj

/-! ## The packets of a trace -/

theorem validPackets_index (records : List MSHeader) :
    ((validPackets records.zipIdx).map MMPacket.index).Sublist (List.range records.length) := by
  have hzip : records.zipIdx.map Prod.snd = List.range records.length := by
    rw [List.zipIdx_map_snd, List.range_eq_range']
  rw [← hzip, validPackets, List.map_map]
  exact (List.filter_sublist).map Prod.snd

/-- The packets of a trace have different numbers, all of them in the file. -/
theorem indexes_of_mem_makeTraces {records : List MSHeader} {file : MMFile}
    (hfile : indexMplex records = some file) {options : Option MplexOptions} {trc : MMTrcInfo}
    (htrc : trc ∈ makeTraces options file) :
    (trc.packets.map MMPacket.index).Nodup ∧ ∀ p ∈ trc.packets, p.index < records.length := by
  have hsub : trc.packets.Sublist ((makeTraces options file).flatMap MMTrcInfo.packets) := by
    rw [List.flatMap_def]
    exact List.sublist_flatten_of_mem (List.mem_map_of_mem htrc)
  have hincluded : (includedPackets options file.channels).Sublist
      (file.channels.flatMap MMIndex.packets) :=
    List.filter_sublist.flatMap _
  have hindexed : ((file.channels.flatMap MMIndex.packets).map MMPacket.index).Nodup :=
    ((indexMplex_perm hfile).map _).nodup_iff.2
      ((validPackets_index records).nodup List.nodup_range)
  constructor
  · have htraces := ((makeTraces_perm options file).map MMPacket.index).nodup_iff.2
      (hindexed.sublist (hincluded.map _))
    exact htraces.sublist (hsub.map _)
  · intro p hp
    have hmem : p ∈ validPackets records.zipIdx :=
      (indexMplex_perm hfile).subset (hincluded.subset
        ((makeTraces_perm options file).subset (hsub.subset hp)))
    exact List.mem_range.1 ((validPackets_index records).subset (List.mem_map_of_mem hmem))

theorem foldl_indexPacket_blkSize (packets : List (MSHeader × ℕ)) {s : IndexState} {b : ℕ}
    (hfile : s.fileBlkSize = b) (hblk : s.blkSize = b) :
    (packets.foldl indexPacket s).fileBlkSize =
      if ∀ r ∈ packets, isValidEncoding r.1.encoding → r.1.reclen = b then b else 0 := by
  induction packets generalizing s b with
  | nil => rw [if_pos nofun, List.foldl_nil, hfile]
  | cons packet packets ih =>
    rw [List.foldl_cons]
    simp only [List.forall_mem_cons]
    by_cases hvalid : isValidEncoding packet.1.encoding
    · have hstep :
          (indexPacket s packet).fileBlkSize = (checkBlkSize s packet.1.reclen).fileBlkSize ∧
          (indexPacket s packet).blkSize = (checkBlkSize s packet.1.reclen).blkSize := by
        unfold indexPacket
        rw [if_pos hvalid]
        exact ⟨rfl, rfl⟩
      by_cases hsame : packet.1.reclen = b
      · have hcheck : checkBlkSize s packet.1.reclen = s :=
          if_neg fun hc => hc.2 (hblk.trans hsame.symm)
        rw [hcheck] at hstep
        rw [ih (hstep.1.trans hfile) (hstep.2.trans hblk)]
        simp only [hvalid, hsame, forall_const, true_and]
      · have hzero : (checkBlkSize s packet.1.reclen).fileBlkSize = 0 ∧
            (checkBlkSize s packet.1.reclen).blkSize = 0 := by
          unfold checkBlkSize
          split_ifs with hc
          · exact ⟨rfl, rfl⟩
          · have hb : b = 0 := by
              by_contra hne
              exact hc ⟨hblk ▸ hne, fun heq => hsame (heq.symm.trans hblk)⟩
            exact ⟨hfile.trans hb, hblk.trans hb⟩
        rw [ih (hstep.1.trans hzero.1) (hstep.2.trans hzero.2), ite_self,
          if_neg fun hc => hsame (hc.1 hvalid)]
    · have hstep : indexPacket s packet = s := if_neg hvalid
      rw [hstep, ih hfile hblk]
      simp only [hvalid, false_implies, true_and, Bool.false_eq_true]

/-- The block size of a file is the length of its first record, if all records with a valid encoding
have that length. -/
theorem blkSize_indexMplex {msr : MSHeader} {rest : List MSHeader} {file : MMFile}
    (hfile : indexMplex (msr :: rest) = some file) :
    file.blkSize =
      if ∀ r ∈ msr :: rest, isValidEncoding r.encoding → r.reclen = msr.reclen then msr.reclen
      else 0 := by
  obtain rfl := Option.some.inj hfile
  refine (foldl_indexPacket_blkSize _ rfl rfl).trans ?_
  have hiff : (∀ r ∈ (msr :: rest).zipIdx, isValidEncoding r.1.encoding →
        r.1.reclen = msr.reclen) ↔
      ∀ r ∈ msr :: rest, isValidEncoding r.encoding → r.reclen = msr.reclen := by
    have hfst := List.forall_mem_map (l := (msr :: rest).zipIdx) (f := Prod.fst)
      (P := fun r : MSHeader => isValidEncoding r.encoding → r.reclen = msr.reclen)
    rw [List.zipIdx_map_fst] at hfst
    exact hfst.symm
  simp only [hiff]

theorem blkSize_foldl_tracePacket (options : Option MplexOptions) (blkSize : ℕ) (c : MMIndex)
    (packets : List MMPacket) {s : TracesState}
    (hs : ∀ b ∈ s.traces.map MMTrcInfo.blkSize, b = blkSize) :
    ∀ b ∈ (packets.foldl (tracePacket options blkSize c) s).traces.map MMTrcInfo.blkSize,
      b = blkSize := by
  induction packets generalizing s with
  | nil => exact hs
  | cons p packets ih =>
    refine ih ?_
    unfold tracePacket
    simp only []
    split_ifs
    · rw [List.map_cons, List.forall_mem_cons]
      exact ⟨rfl, hs⟩
    · rw [map_updateFirst]
      · exact hs
      · exact fun _ => rfl

theorem blkSize_of_mem_makeTraces {options : Option MplexOptions} {file : MMFile}
    {trc : MMTrcInfo} (htrc : trc ∈ makeTraces options file) : trc.blkSize = file.blkSize := by
  have hall : ∀ (channels : List MMIndex) (s : TracesState),
      (∀ b ∈ s.traces.map MMTrcInfo.blkSize, b = file.blkSize) →
      ∀ b ∈ (channels.foldl (traceChannel options file.blkSize) s).traces.map MMTrcInfo.blkSize,
        b = file.blkSize := by
    intro channels
    induction channels with
    | nil => exact fun s hs => hs
    | cons c channels ih =>
      intro s hs
      refine ih _ ?_
      unfold traceChannel
      split_ifs
      · exact blkSize_foldl_tracePacket options file.blkSize c c.packets hs
      · exact hs
  have hmap : (makeTraces options file).map MMTrcInfo.blkSize =
      (file.channels.foldl (traceChannel options file.blkSize) ⟨[], 0⟩).traces.map
        MMTrcInfo.blkSize := by
    unfold makeTraces
    simp only []
    split_ifs
    · rw [List.map_map]
      rfl
    · rfl
  have hmem := List.mem_map_of_mem (f := MMTrcInfo.blkSize) htrc
  rw [hmap] at hmem
  exact hall file.channels ⟨[], 0⟩ nofun _ hmem

/-! ## The packets that are read -/

theorem packetOrder_sorted {packets : List MMPacket} (h : (packets.map MMPacket.index).Nodup) :
    ((packetOrder packets).map MMPacket.index).Pairwise (· < ·) := by
  have hmap : (packetOrder packets).map MMPacket.index =
      (packets.map MMPacket.index).insertionSort (· ≤ ·) :=
    List.map_insertionSort _ _ _ _ fun _ _ _ _ => Iff.rfl
  have hle := List.pairwise_insertionSort (· ≤ ·) (packets.map MMPacket.index)
  have hne := (List.perm_insertionSort (· ≤ ·) (packets.map MMPacket.index)).nodup_iff.2 h
  rw [hmap]
  exact hle.imp₂ (fun _ _ hle hne => lt_of_le_of_ne hle hne) hne

/-- A record of 100 samples. -/
def sampleHeader (channel : String) (encoding : ℤ) (reclen : ℕ) (hpos : 0 < reclen)
    (haligned : MINRECLEN ∣ reclen) : MSHeader where
  id := ⟨"XX", "STA", "", channel⟩
  reclen := reclen
  encoding := encoding
  samplecnt := 100
  samprate := 100
  starttime := 1000000000000000
  reclen_pos := hpos
  aligned := haligned

/-- Records of two channels, with a record of `reclen` bytes that cannot be decoded. -/
def twoChannels (reclen : ℕ) (hpos : 0 < reclen) (haligned : MINRECLEN ∣ reclen) :
    List MSHeader := [
  sampleHeader "BHZ" 11 512 (by decide) ⟨4, rfl⟩,
  sampleHeader "BHZ" 16 reclen hpos haligned,
  sampleHeader "BHN" 11 512 (by decide) ⟨4, rfl⟩,
  sampleHeader "BHZ" 11 512 (by decide) ⟨4, rfl⟩]

def evenChannels : List MSHeader := twoChannels 512 (by decide) ⟨4, rfl⟩

def unevenChannels : List MSHeader := twoChannels 256 (by decide) ⟨2, rfl⟩

/-- The trace of the second channel. -/
def secondChannel : MMTrcInfo where
  channelName := "XX.STA..BHN"
  id := ⟨"XX", "STA", "", "BHN"⟩
  blkSize := 512
  startTime := 1000000000000000
  sampRate := 100
  sampleCnt := 100
  encoding := 11
  packets := [⟨2, 100, 1000000000000000⟩]

end PQL
