import PQL.Mseed.FastPath
import PQL.Mseed.Split
import PQL.Steim.Memory

/-!
# The log channel

`makeLogs` reads the records of the LOG channel of a multiplexed file again, in the order of time,
and keeps their texts.  It seeks to a record by its number, so it finds the right one only when the
records in front of it have the block size of the file; a file with records of several lengths is
read from the front, and so is record 0 (`makeLogs_texts_iff`).  `libmseed` is a parameter: its
`ms_hptime2btime`, and the samples of the records.
-/

namespace PQL

structure LogText where
  startT : Option ℤ
  text : List Byte
deriving DecidableEq

structure LogData where
  startT : Option ℤ
  endT : Option ℤ
  station : Option String
  text : List LogText
deriving DecidableEq

/-- The state of the loop over the packets; `next` is the record behind the one read last. -/
structure LogState where
  next : ℕ
  first : Bool
  logData : LogData
  lastmsr : Option MSHeader

/-- The record that a read returns: one at the byte `-offset`, or the next one. -/
def readMsr (records : List MSHeader) (offset : ℤ) (next : ℕ) : Option ℕ :=
  if offset < 0 then recordAt records (offset * -1).toNat
  else if next < records.length then some next else none

section Loop

variable (hptime2btime : ℚ → BTime) (content : ℕ → List Byte)

def epochTime (starttime : ℤ) : Option ℤ := passcalHtoe (hptime2btime starttime).date false

/-- The text of a record, up to the first NUL. -/
def logText (r : MSHeader × ℕ) : LogText :=
  ⟨epochTime hptime2btime r.1.starttime, (content r.2).takeWhile (· ≠ 0)⟩

def keepLog (s : LogState) (r : MSHeader × ℕ) : LogState :=
  let logData := if s.first then
      { s.logData with
        startT := epochTime hptime2btime r.1.starttime
        station := some (channelName r.1.id) }
    else s.logData
  { next := r.2 + 1
    first := false
    logData := { logData with text := logText hptime2btime content r :: logData.text }
    lastmsr := some r.1 }

/-- The result of the read is not checked: when it fails, there is no record to take from. -/
def logPacket (records : List MSHeader) (blkSize : ℕ) (s : LogState) (p : MMPacket) :
    Option LogState :=
  let offset : ℤ := blkSize * -1 * p.index
  (readMsr records offset s.next).bind fun i =>
    records[i]?.map fun msr => keepLog hptime2btime content s (msr, i)

/-- `none` stands for the access to a record that was not read, `some none` for `NULL`.  Files with
one channel are not kept as multiplexed files. -/
def makeLogs (records : List MSHeader) : Option (Option LogData) :=
  match indexMplex records with
  | none => some none
  | some file =>
    if file.channels.length ≤ 1 then some none
    else
      match file.channels.find? fun c => c.id.channel = "LOG" with
      | none => some none
      | some c =>
        let opened : LogState := ⟨0, true, ⟨some 0, some 0, none, []⟩, none⟩
        ((timeOrder c.packets).foldlM (logPacket hptime2btime content records file.blkSize)
          opened).map fun s =>
            some { s.logData with
              endT := s.lastmsr.elim s.logData.endT fun msr =>
                epochTime hptime2btime msr.starttime
              text := s.logData.text.reverse }

end Loop

/-! ## What the logs should be -/

/-- The records of a channel that have a valid encoding, with their numbers. -/
def channelRecords (records : List (MSHeader × ℕ)) (name : String) : List (MSHeader × ℕ) :=
  records.filter fun r => isValidEncoding r.1.encoding && channelName r.1.id = name

/-- The channel code of the first record with the name. -/
def channelCode (records : List (MSHeader × ℕ)) (name : String) : Option String :=
  (channelRecords records name).head?.map fun r => r.1.id.channel

def logRecords (records : List MSHeader) : List (MSHeader × ℕ) :=
  records.zipIdx.filter fun r => isValidEncoding r.1.encoding &&
    channelCode records.zipIdx (channelName r.1.id) = some "LOG"

/-- The logs have the texts of the records, and the times of the first and last one. -/
structure TextsOf (hptime2btime : ℚ → BTime) (content : ℕ → List Byte)
    (rs : List (MSHeader × ℕ)) (logs : LogData) : Prop where
  text : logs.text = rs.map (logText hptime2btime content)
  startT : ∀ r ∈ rs.head?, logs.startT = epochTime hptime2btime r.1.starttime
  endT : ∀ r ∈ rs.getLast?, logs.endT = epochTime hptime2btime r.1.starttime

/-- The records are in the order of their start times. -/
def InTimeOrder (rs : List (MSHeader × ℕ)) : Prop :=
  (rs.map fun r => r.1.starttime).Pairwise (· ≤ ·)

/-- `makeLogs` returns the texts of the log records, each once, in the order of time. -/
def ReturnsLogs (hptime2btime : ℚ → BTime) (content : ℕ → List Byte)
    (records : List MSHeader) : Prop :=
  ∃ logs rs, makeLogs hptime2btime content records = some (some logs) ∧
    rs.Perm (logRecords records) ∧ InTimeOrder rs ∧ TextsOf hptime2btime content rs logs

/-- The length of all records with a valid encoding, zero when they have several. -/
def blockLength : List MSHeader → ℕ
  | [] => 0
  | msr :: rest =>
    if ∀ r ∈ msr :: rest, isValidEncoding r.encoding → r.reclen = msr.reclen then msr.reclen else 0

/-- When the log records are found: they are one channel.  With one block length each of them is at
its offset, and record 0 is the earliest if it is among them; with several block lengths they are
the first records of the file, in the order of time. -/
structure LogsFound (records : List MSHeader) : Prop where
  one : ∀ r ∈ logRecords records, ∀ q ∈ logRecords records, channelName r.1.id = channelName q.1.id
  seek : blockLength records ≠ 0 → ∀ r ∈ logRecords records,
    recordAt records (blockLength records * r.2) = some r.2 ∧
      (r.2 = 0 → ∀ q ∈ logRecords records, q.2 ≠ 0 → r.1.starttime < q.1.starttime)
  loop : blockLength records = 0 →
    logRecords records = records.zipIdx.take (logRecords records).length ∧
      InTimeOrder (logRecords records)

/-! ## The channels of the index -/

/-- What the index knows of a channel: the packets of its records, the last one first, and the codes
of the first record. -/
structure ChannelOf (records : List (MSHeader × ℕ)) (c : MMIndex) : Prop where
  packets : c.packets =
    ((channelRecords records c.channelName).map fun r => mmpacket r.2 r.1).reverse
  id : ((channelRecords records c.channelName).head?.map fun r => r.1.id) = some c.id

theorem channelRecords_concat (records : List (MSHeader × ℕ)) (r : MSHeader × ℕ) (name : String) :
    channelRecords (records ++ [r]) name = channelRecords records name ++
      if isValidEncoding r.1.encoding ∧ channelName r.1.id = name then [r] else [] := by
  unfold channelRecords
  rw [List.filter_append, List.filter_singleton]
  congr 1
  simp

/-- A record of another channel changes nothing. -/
theorem ChannelOf.concat_other {records : List (MSHeader × ℕ)} {c : MMIndex}
    (h : ChannelOf records c) {r : MSHeader × ℕ}
    (hr : ¬ (isValidEncoding r.1.encoding ∧ channelName r.1.id = c.channelName)) :
    ChannelOf (records ++ [r]) c := by
  have hsame : channelRecords (records ++ [r]) c.channelName =
      channelRecords records c.channelName := by
    rw [channelRecords_concat, if_neg hr, List.append_nil]
  exact ⟨hsame ▸ h.packets, hsame ▸ h.id⟩

theorem ChannelOf.concat_same {records : List (MSHeader × ℕ)} {c : MMIndex}
    (h : ChannelOf records c) {r : MSHeader × ℕ} (hr : isValidEncoding r.1.encoding)
    (hname : c.channelName = channelName r.1.id) :
    ChannelOf (records ++ [r])
      { c with
        sampleCnt := c.sampleCnt + r.1.samplecnt
        packets := mmpacket r.2 r.1 :: c.packets } := by
  have hnew : channelRecords (records ++ [r]) c.channelName =
      channelRecords records c.channelName ++ [r] := by
    rw [channelRecords_concat, if_pos ⟨hr, hname.symm⟩]
  refine ⟨?_, ?_⟩
  · change mmpacket r.2 r.1 :: c.packets = _
    rw [hnew, List.map_append, List.reverse_append, h.packets]
    rfl
  · have hid := h.id
    change ((channelRecords (records ++ [r]) c.channelName).head?.map fun r => r.1.id) = some c.id
    rw [hnew, List.head?_append]
    cases hhead : (channelRecords records c.channelName).head? with
    | none => rw [hhead] at hid; exact nomatch hid
    | some q => rw [hhead] at hid; exact hid

/-- The invariant of the index over the records that have been read. -/
structure IndexOf (records : List (MSHeader × ℕ)) (channels : List MMIndex) : Prop where
  names : (channels.map MMIndex.channelName).Nodup
  channel : ∀ c ∈ channels, ChannelOf records c
  complete : ∀ r ∈ records, isValidEncoding r.1.encoding →
    channelName r.1.id ∈ channels.map MMIndex.channelName

theorem IndexOf.addToIndex {records : List (MSHeader × ℕ)} {channels : List MMIndex}
    (h : IndexOf records channels) {r : MSHeader × ℕ} (hr : isValidEncoding r.1.encoding) :
    IndexOf (records ++ [r]) (addToIndex channels r.2 r.1) := by
  have hother : ∀ c ∈ channels, c.channelName ≠ channelName r.1.id → ChannelOf (records ++ [r]) c :=
    fun c hc hne => (h.channel c hc).concat_other fun hsame => hne hsame.2.symm
  have hnames := channelName_addToIndex channels r.2 r.1
  refine ⟨?_, ?_, ?_⟩
  · rw [hnames]
    split_ifs with hmem
    · exact h.names
    · exact List.nodup_cons.2 ⟨hmem, h.names⟩
  · unfold PQL.addToIndex
    simp only []
    split_ifs with hknown
    · apply forall_mem_updateFirst
      · refine (List.pairwise_map.1 h.names).imp fun hne hboth => hne ?_
        exact (of_decide_eq_true hboth.1).trans (of_decide_eq_true hboth.2).symm
      · exact fun c hc hname => (h.channel c hc).concat_same hr (of_decide_eq_true hname)
      · exact fun c hc hname => hother c hc fun heq => hname (decide_eq_true heq)
    · -- no record of the channel has been read before
      have hfresh : channelName r.1.id ∉ channels.map MMIndex.channelName := by
        simpa using hknown
      have hnil : channelRecords records (channelName r.1.id) = [] := by
        refine List.filter_eq_nil_iff.2 fun q hq hboth => ?_
        rw [Bool.and_eq_true] at hboth
        exact hfresh (of_decide_eq_true hboth.2 ▸ h.complete q hq hboth.1)
      refine List.forall_mem_cons.2 ⟨⟨?_, ?_⟩, fun c hc => hother c hc fun heq =>
        hfresh (heq ▸ List.mem_map_of_mem hc)⟩
      · rw [channelRecords_concat, hnil, if_pos ⟨hr, rfl⟩]
        rfl
      · rw [channelRecords_concat, hnil, if_pos ⟨hr, rfl⟩]
        rfl
  · have hmem : channelName r.1.id ∈ (PQL.addToIndex channels r.2 r.1).map MMIndex.channelName := by
      rw [hnames]
      split_ifs with hmem
      · exact hmem
      · exact List.mem_cons_self
    have hkeeps : ∀ name ∈ channels.map MMIndex.channelName,
        name ∈ (PQL.addToIndex channels r.2 r.1).map MMIndex.channelName := by
      rw [hnames]
      split_ifs
      · exact fun name hname => hname
      · exact fun name hname => List.mem_cons_of_mem _ hname
    intro q hq hvalid
    rcases List.mem_append.1 hq with hq | hq
    · exact hkeeps _ (h.complete q hq hvalid)
    · obtain rfl := List.mem_singleton.1 hq
      exact hmem

theorem indexOf_foldl (records : List (MSHeader × ℕ)) {s : IndexState} (hs : s.channels = []) :
    IndexOf records (records.foldl indexPacket s).channels := by
  induction records using List.reverseRecOn with
  | nil => rw [List.foldl_nil, hs]; exact ⟨List.nodup_nil, nofun, nofun⟩
  | append_singleton records r ih =>
    rw [List.foldl_append, List.foldl_cons, List.foldl_nil, indexPacket_channels]
    split_ifs with hr
    · exact ih.addToIndex hr
    · refine ⟨ih.names, fun c hc => (ih.channel c hc).concat_other fun h => hr h.1, ?_⟩
      intro q hq hvalid
      rcases List.mem_append.1 hq with hq | hq
      · exact ih.complete q hq hvalid
      · obtain rfl := List.mem_singleton.1 hq
        exact absurd hvalid hr

/-- The channels of a file: their packets are in the order of time, and those of the same time in
the reverse order of the file. -/
structure FileOf (records : List MSHeader) (file : MMFile) : Prop where
  blkSize : file.blkSize = blockLength records
  packets : ∀ c ∈ file.channels, c.packets = timeOrder
    ((channelRecords records.zipIdx c.channelName).map fun r => mmpacket r.2 r.1).reverse
  code : ∀ c ∈ file.channels, channelCode records.zipIdx c.channelName = some c.id.channel
  complete : ∀ r ∈ records.zipIdx, isValidEncoding r.1.encoding →
    ∃ c ∈ file.channels, c.channelName = channelName r.1.id

theorem fileOf_indexMplex {records : List MSHeader} {file : MMFile}
    (hfile : indexMplex records = some file) : FileOf records file := by
  cases records with
  | nil => exact nomatch hfile
  | cons msr rest =>
    have hblk := blkSize_indexMplex hfile
    obtain rfl := Option.some.inj hfile
    have hindex := indexOf_foldl (msr :: rest).zipIdx (s := ⟨msr.reclen, msr.reclen, []⟩) rfl
    refine ⟨hblk, ?_, ?_, ?_⟩
    · intro c hc
      obtain ⟨d, hd, rfl⟩ := List.mem_map.1 hc
      exact congrArg timeOrder (hindex.channel d hd).packets
    · intro c hc
      obtain ⟨d, hd, rfl⟩ := List.mem_map.1 hc
      have hid := congrArg (Option.map ChannelId.channel) (hindex.channel d hd).id
      rw [Option.map_map] at hid
      exact hid
    · intro r hr hvalid
      obtain ⟨d, hd, hname⟩ := List.mem_map.1 (hindex.complete r hr hvalid)
      exact ⟨{ d with packets := timeOrder d.packets }, List.mem_map_of_mem hd, hname⟩

/-! ## The loop -/

/-- The records with the numbers. -/
def recordsAt (records : List MSHeader) (is : List ℕ) : List (MSHeader × ℕ) :=
  is.filterMap fun i => records[i]?.map fun msr => (msr, i)

theorem lt_of_recordAt {records : List MSHeader} {offset i : ℕ}
    (h : recordAt records offset = some i) : i < records.length := (recordAt_eq_some.1 h).1

theorem lt_of_readMsr {records : List MSHeader} {offset : ℤ} {next i : ℕ}
    (h : readMsr records offset next = some i) : i < records.length := by
  unfold readMsr at h
  split_ifs at h with hneg hlt
  · exact lt_of_recordAt h
  · exact Option.some.inj h ▸ hlt

/-- The reads are those of `pluckSEEK`. -/
theorem pluckSEEK_cons (records : List MSHeader) (blkSize : ℕ) (p : MMPacket)
    (packets : List MMPacket) (next : ℕ) :
    pluckSEEK records blkSize (p :: packets) next =
      match readMsr records (blkSize * -1 * p.index) next with
      | none => ([], false)
      | some i =>
        (i :: (pluckSEEK records blkSize packets (i + 1)).1,
          (pluckSEEK records blkSize packets (i + 1)).2) := rfl

theorem pluckSEEK_lt (records : List MSHeader) (blkSize : ℕ) (packets : List MMPacket) (next : ℕ) :
    ∀ i ∈ (pluckSEEK records blkSize packets next).1, i < records.length := by
  induction packets generalizing next with
  | nil => exact nofun
  | cons p packets ih =>
    rw [pluckSEEK_cons]
    cases hread : readMsr records (blkSize * -1 * p.index) next with
    | none => exact nofun
    | some i => exact List.forall_mem_cons.2 ⟨lt_of_readMsr hread, ih (i + 1)⟩

theorem map_snd_recordsAt {records : List MSHeader} {is : List ℕ}
    (h : ∀ i ∈ is, i < records.length) : (recordsAt records is).map Prod.snd = is := by
  induction is with
  | nil => rfl
  | cons i is ih =>
    obtain ⟨hi, his⟩ := List.forall_mem_cons.1 h
    unfold recordsAt at ih ⊢
    rw [List.filterMap_cons, List.getElem?_eq_getElem hi]
    exact congrArg (i :: ·) (ih his)

section Run

variable (hptime2btime : ℚ → BTime) (content : ℕ → List Byte)

theorem foldlM_logPacket (records : List MSHeader) (blkSize : ℕ) (packets : List MMPacket)
    (s : LogState) :
    packets.foldlM (logPacket hptime2btime content records blkSize) s =
      if (pluckSEEK records blkSize packets s.next).2 then
        some ((recordsAt records (pluckSEEK records blkSize packets s.next).1).foldl
          (keepLog hptime2btime content) s)
      else none := by
  induction packets generalizing s with
  | nil => rfl
  | cons p packets ih =>
    have hstep : logPacket hptime2btime content records blkSize s p =
        (readMsr records (blkSize * -1 * p.index) s.next).bind fun i =>
          records[i]?.map fun msr => keepLog hptime2btime content s (msr, i) := rfl
    rw [List.foldlM_cons, pluckSEEK_cons, hstep]
    cases hread : readMsr records (blkSize * -1 * p.index) s.next with
    | none => rfl
    | some i =>
      have hlt : i < records.length := lt_of_readMsr hread
      have hi : records[i]? = some records[i] := List.getElem?_eq_getElem hlt
      rw [Option.bind_some, hi, Option.map_some]
      refine (ih (keepLog hptime2btime content s (records[i], i))).trans ?_
      unfold recordsAt
      rw [List.filterMap_cons, hi]
      rfl

@[simp] theorem keepLog_text (s : LogState) (r : MSHeader × ℕ) :
    (keepLog hptime2btime content s r).logData.text =
      logText hptime2btime content r :: s.logData.text := by
  unfold keepLog
  cases s.first <;> rfl

/-- What the loop has kept after the records `rs`. -/
theorem foldl_keepLog (rs : List (MSHeader × ℕ)) (s : LogState) :
    let t := rs.foldl (keepLog hptime2btime content) s
    t.logData.text = (rs.map (logText hptime2btime content)).reverse ++ s.logData.text ∧
      (s.first = false → t.logData.startT = s.logData.startT) ∧
      (rs ≠ [] → t.lastmsr = rs.getLast?.map Prod.fst) := by
  induction rs generalizing s with
  | nil => exact ⟨rfl, fun _ => rfl, fun h => absurd rfl h⟩
  | cons r rs ih =>
    obtain ⟨htext, hstart, hlast⟩ := ih (keepLog hptime2btime content s r)
    refine ⟨?_, fun hfirst => ?_, fun _ => ?_⟩
    · rw [List.foldl_cons, htext, keepLog_text, List.map_cons, List.reverse_cons,
        List.append_assoc, List.singleton_append]
    · rw [List.foldl_cons, hstart rfl, keepLog, hfirst]
      rfl
    · rw [List.foldl_cons]
      cases rs with
      | nil => rfl
      | cons q rs => rw [hlast (List.cons_ne_nil _ _), List.getLast?_cons_cons]

/-- The loop from the start, and what is done behind it. -/
theorem textsOf_foldl (rs : List (MSHeader × ℕ)) {s : LogState}
    (hs : s = rs.foldl (keepLog hptime2btime content) ⟨0, true, ⟨some 0, some 0, none, []⟩, none⟩) :
    TextsOf hptime2btime content rs
      { s.logData with
        endT := s.lastmsr.elim s.logData.endT fun msr => epochTime hptime2btime msr.starttime
        text := s.logData.text.reverse } := by
  obtain ⟨htext, -, hlast⟩ := foldl_keepLog hptime2btime content rs
    ⟨0, true, ⟨some 0, some 0, none, []⟩, none⟩
  simp only [← hs] at htext hlast
  refine ⟨?_, fun r hr => ?_, fun r hr => ?_⟩
  · simp only [htext, List.append_nil, List.reverse_reverse]
  · cases rs with
    | nil => exact nomatch hr
    | cons q rs =>
      obtain rfl := Option.some.inj hr
      have hstart := (foldl_keepLog hptime2btime content rs
        (keepLog hptime2btime content ⟨0, true, ⟨some 0, some 0, none, []⟩, none⟩ q)).2.1 rfl
      rw [← List.foldl_cons, ← hs] at hstart
      exact hstart
  · have hne : rs ≠ [] := List.ne_nil_of_mem (List.mem_of_getLast? hr)
    rw [Option.mem_def.1 hr] at hlast
    simp only [hlast hne, Option.map_some, Option.elim_some]

end Run

/-- The channel whose packets `makeLogs` reads, and what the reads return. -/
structure ReadsLog (records : List MSHeader) (c : MMIndex) (is : List ℕ) (ok : Bool) : Prop where
  code : channelCode records.zipIdx c.channelName = some "LOG"
  packets : c.packets = timeOrder
    ((channelRecords records.zipIdx c.channelName).map fun r => mmpacket r.2 r.1).reverse
  reads : pluckSEEK records (blockLength records) (timeOrder c.packets) 0 = (is, ok)

/-- The texts that `makeLogs` returns are those of the records that it reads. -/
theorem makeLogs_eq {records : List MSHeader} {file : MMFile}
    (hfile : indexMplex records = some file) (hmplex : 1 < file.channels.length)
    (hlog : logRecords records ≠ []) :
    ∃ c is ok, ReadsLog records c is ok ∧ ∀ hptime2btime content,
      (ok = false → makeLogs hptime2btime content records = none) ∧
      (ok = true → ∃ logs, makeLogs hptime2btime content records = some (some logs) ∧
        TextsOf hptime2btime content (recordsAt records is) logs) := by
  obtain ⟨hblk, hpackets, hcode, hcomplete⟩ := fileOf_indexMplex hfile
  obtain ⟨r, hr⟩ := List.exists_mem_of_ne_nil _ hlog
  obtain ⟨hr, hrlog⟩ := List.mem_filter.1 hr
  rw [Bool.and_eq_true] at hrlog
  obtain ⟨d, hd, hname⟩ := hcomplete r hr hrlog.1
  have hdlog : d.id.channel = "LOG" := by
    have hc := hcode d hd
    rw [hname, of_decide_eq_true hrlog.2] at hc
    exact (Option.some.inj hc).symm
  obtain ⟨c, hc⟩ : ∃ c, file.channels.find? (fun c => c.id.channel = "LOG") = some c :=
    Option.isSome_iff_exists.1 (List.find?_isSome.2 ⟨d, hd, decide_eq_true hdlog⟩)
  have hcmem : c ∈ file.channels := List.mem_of_find?_eq_some hc
  have hclog : c.id.channel = "LOG" := by
    simpa using List.find?_some hc
  refine ⟨c, _, _, ⟨hclog ▸ hcode c hcmem, hpackets c hcmem, rfl⟩, fun hptime2btime content => ?_⟩
  have hmake : makeLogs hptime2btime content records =
      ((timeOrder c.packets).foldlM (logPacket hptime2btime content records file.blkSize)
        ⟨0, true, ⟨some 0, some 0, none, []⟩, none⟩).map fun s =>
          some { s.logData with
            endT := s.lastmsr.elim s.logData.endT fun msr => epochTime hptime2btime msr.starttime
            text := s.logData.text.reverse } := by
    unfold makeLogs
    simp only [hfile, hc, if_neg (not_le.2 hmplex)]
  rw [hmake, foldlM_logPacket, hblk]
  refine ⟨fun hok => ?_, fun hok => ?_⟩
  · rw [hok]
    rfl
  · rw [if_pos hok]
    exact ⟨_, rfl, textsOf_foldl hptime2btime content _ rfl⟩

/-! ## The records that are read -/

theorem recordsAt_map_snd {records : List MSHeader} {rs : List (MSHeader × ℕ)}
    (h : rs ⊆ records.zipIdx) : recordsAt records (rs.map Prod.snd) = rs := by
  induction rs with
  | nil => rfl
  | cons r rs ih =>
    obtain ⟨hr, hrs⟩ := List.cons_subset.1 h
    have hget : records[r.2]? = some r.1 := List.mem_zipIdx_iff_getElem?.1 hr
    unfold recordsAt at ih ⊢
    rw [List.map_cons, List.filterMap_cons, hget]
    exact congrArg (r :: ·) (ih hrs)

theorem logRecords_subset (records : List MSHeader) : logRecords records ⊆ records.zipIdx :=
  List.filter_sublist.subset

/-- Records hold different texts when each has as many letters as its number. -/
def lettered (i : ℕ) : List Byte := List.replicate i 65

theorem logText_lettered (hptime2btime : ℚ → BTime) (r : MSHeader × ℕ) :
    (logText hptime2btime lettered r).text.length = r.2 := by
  unfold logText lettered
  have hall : ∀ b ∈ List.replicate r.2 (65 : Byte), decide (b ≠ 0) = true := by
    intro b hb
    rw [List.eq_of_mem_replicate hb]
    decide
  simp only [List.takeWhile_eq_self_iff.2 hall, List.length_replicate]

/-- Whatever the records hold, their texts come from the log records in order: exactly the log
records are read, in order. -/
theorem forall_returnsLogs_iff {records : List MSHeader} {is : List ℕ} {ok : Bool}
    (hptime2btime : ℚ → BTime) (hlt : ∀ i ∈ is, i < records.length)
    (hmake : ∀ content,
      (ok = false → makeLogs hptime2btime content records = none) ∧
      (ok = true → ∃ logs, makeLogs hptime2btime content records = some (some logs) ∧
        TextsOf hptime2btime content (recordsAt records is) logs)) :
    (∀ content, ReturnsLogs hptime2btime content records) ↔
      ok = true ∧ is.Perm ((logRecords records).map Prod.snd) ∧
        InTimeOrder (recordsAt records is) := by
  constructor
  · intro h
    obtain ⟨logs, rs, hlogs, hperm, horder, htexts⟩ := h lettered
    obtain ⟨hfails, hreads⟩ := hmake lettered
    have hok : ok = true := by
      cases ok with
      | false => rw [hfails rfl] at hlogs; exact nomatch hlogs
      | true => rfl
    obtain ⟨logs', hlogs', htexts'⟩ := hreads hok
    obtain rfl : logs' = logs := Option.some.inj (Option.some.inj (hlogs'.symm.trans hlogs))
    have hsnd : is = rs.map Prod.snd := by
      have heq := congrArg (List.map fun t : LogText => t.text.length)
        (htexts'.text.symm.trans htexts.text)
      rw [List.map_map, List.map_map] at heq
      have hlength : (fun t : LogText => t.text.length) ∘ logText hptime2btime lettered =
          Prod.snd := funext (logText_lettered hptime2btime)
      rw [hlength, map_snd_recordsAt hlt] at heq
      exact heq
    have hrs : rs ⊆ records.zipIdx := fun r hr => logRecords_subset records (hperm.subset hr)
    refine ⟨hok, hsnd ▸ hperm.map Prod.snd, ?_⟩
    rw [hsnd, recordsAt_map_snd hrs]
    exact horder
  · rintro ⟨hok, hperm, horder⟩ content
    obtain ⟨logs, hlogs, htexts⟩ := (hmake content).2 hok
    refine ⟨logs, recordsAt records is, hlogs, ?_, horder, htexts⟩
    have hrecords := hperm.filterMap fun i => records[i]?.map fun msr => (msr, i)
    exact hrecords.trans (List.Perm.of_eq (recordsAt_map_snd (logRecords_subset records)))

/-- A map that keeps the order and permutes a list leaves its elements as they are. -/
theorem map_eq_self_of_perm {f : ℕ → ℕ} {l : List ℕ}
    (hmono : ∀ a ∈ l, ∀ b ∈ l, a ≤ b → f a ≤ f b) (h : (l.map f).Perm l) : ∀ a ∈ l, f a = a := by
  have hperm := List.perm_insertionSort (· ≤ ·) l
  have hsorted := List.pairwise_insertionSort (· ≤ ·) l
  have hmap : ((l.insertionSort (· ≤ ·)).map f).Pairwise (· ≤ ·) := by
    refine List.pairwise_map.2 (hsorted.imp_of_mem fun ha hb hab => ?_)
    exact hmono _ (hperm.subset ha) _ (hperm.subset hb) hab
  have heq : (l.insertionSort (· ≤ ·)).map f = l.insertionSort (· ≤ ·) :=
    ((hperm.map f).trans (h.trans hperm.symm)).eq_of_pairwise' (r := (· ≤ ·)) hmap hsorted
  intro a ha
  exact List.map_inj_left.1 (heq.trans (List.map_id _).symm) a (hperm.mem_iff.2 ha)

/-- A file with several block lengths is read from the front. -/
theorem pluckSEEK_zero {records : List MSHeader} {packets : List MMPacket} {next : ℕ}
    (h : next + packets.length ≤ records.length) :
    pluckSEEK records 0 packets next = (List.range' next packets.length, true) := by
  induction packets generalizing next with
  | nil => rfl
  | cons p packets ih =>
    rw [List.length_cons] at h
    have hread : readMsr records ((0 : ℕ) * -1 * p.index) next = some next := by
      unfold readMsr
      rw [if_neg (by simp), if_pos (by omega)]
    rw [pluckSEEK_cons, hread]
    have hrest : next + 1 + packets.length ≤ records.length := by omega
    simp only [ih hrest, List.length_cons, List.range'_succ]

theorem readMsr_index {records : List MSHeader} {blkSize : ℕ} (hblk : 0 < blkSize) {p : MMPacket}
    (next : ℕ) : readMsr records (blkSize * -1 * p.index) next =
      if p.index = 0 then if next < records.length then some next else none
      else recordAt records (blkSize * p.index) := by
  unfold readMsr
  by_cases hzero : p.index = 0
  · rw [if_pos hzero, hzero, if_neg (by simp)]
  · have hprod : 0 < blkSize * p.index := Nat.mul_pos hblk (Nat.pos_of_ne_zero hzero)
    have hcast : (blkSize * -1 * p.index : ℤ) = -((blkSize * p.index : ℕ) : ℤ) := by
      push_cast
      ring
    rw [hcast, if_pos (by omega), if_neg hzero]
    congr 1
    omega

/-- The reads that go well, when packet 0 is in front. -/
theorem pluckSEEK_ok_iff {records : List MSHeader} {blkSize : ℕ} (hblk : 0 < blkSize)
    {packets : List MMPacket} {next : ℕ} (hnext : next = 0 ∨ ∀ p ∈ packets, p.index ≠ 0)
    (hrest : ∀ p ∈ packets.tail, p.index ≠ 0) (is : List ℕ) :
    pluckSEEK records blkSize packets next = (is, true) ↔
      packets.map (fun p => recordAt records (blkSize * p.index)) = is.map some := by
  induction packets generalizing next is with
  | nil =>
    cases is with
    | nil => exact iff_of_true rfl rfl
    | cons i is => exact iff_of_false nofun nofun
  | cons p packets ih =>
    have hread : readMsr records (blkSize * -1 * p.index) next =
        recordAt records (blkSize * p.index) := by
      rw [readMsr_index hblk]
      split_ifs with hzero hlt
      · have h0 : next = 0 := hnext.resolve_right fun h => h p List.mem_cons_self hzero
        rw [hzero, h0, Nat.mul_zero, recordAt_zero, if_pos (h0 ▸ hlt)]
      · have h0 : next = 0 := hnext.resolve_right fun h => h p List.mem_cons_self hzero
        rw [hzero, Nat.mul_zero, recordAt_zero, if_neg (h0 ▸ ‹¬ next < records.length›)]
      · rfl
    have htail : ∀ q ∈ packets.tail, q.index ≠ 0 := fun q hq => hrest q (List.mem_of_mem_tail hq)
    rw [pluckSEEK_cons, hread, List.map_cons]
    cases hp : recordAt records (blkSize * p.index) with
    | none => cases is <;> exact iff_of_false nofun nofun
    | some i =>
      cases is with
      | nil => exact iff_of_false nofun nofun
      | cons j is =>
        have hnext : i + 1 = 0 ∨ ∀ p ∈ packets, p.index ≠ 0 := Or.inr hrest
        have hrec := ih hnext htail is
        rw [List.map_cons, List.cons.injEq, Option.some.injEq, ← hrec, Prod.ext_iff,
          Prod.ext_iff, List.cons.injEq, and_assoc]

theorem readMsr_ne_zero {records : List MSHeader} {blkSize : ℕ} (hblk : 0 < blkSize)
    {p : MMPacket} {next i : ℕ} (hpos : next ≠ 0 ∨ p.index ≠ 0)
    (h : readMsr records (blkSize * -1 * p.index) next = some i) : i ≠ 0 := by
  rw [readMsr_index hblk] at h
  split_ifs at h with hzero hlt
  · obtain rfl := Option.some.inj h
    exact hpos.resolve_right (not_not.2 hzero)
  · rintro rfl
    -- record 0 starts at byte 0, in front of the offset
    have hstart : blkSize * p.index ≤ 0 := (recordAt_eq_some.1 h).2.1
    exact absurd hstart (not_le.2 (Nat.mul_pos hblk (Nat.pos_of_ne_zero hzero)))

theorem pluckSEEK_ne_zero {records : List MSHeader} {blkSize : ℕ} (hblk : 0 < blkSize)
    {packets : List MMPacket} {next : ℕ} (hnext : next ≠ 0) :
    ∀ i ∈ (pluckSEEK records blkSize packets next).1, i ≠ 0 := by
  induction packets generalizing next with
  | nil => exact nofun
  | cons p packets ih =>
    rw [pluckSEEK_cons]
    cases hread : readMsr records (blkSize * -1 * p.index) next with
    | none => exact nofun
    | some i =>
      exact List.forall_mem_cons.2
        ⟨readMsr_ne_zero hblk (Or.inl hnext) hread, ih (Nat.succ_ne_zero i)⟩

/-- Only the first read can return record 0, so packet 0 is in front when the reads return all the
packets. -/
theorem index_ne_zero_of_perm {records : List MSHeader} {blkSize : ℕ} (hblk : 0 < blkSize)
    {packets : List MMPacket} (hnodup : (packets.map MMPacket.index).Nodup)
    (hperm : (pluckSEEK records blkSize packets 0).1.Perm (packets.map MMPacket.index)) :
    ∀ p ∈ packets.tail, p.index ≠ 0 := by
  cases packets with
  | nil => exact nofun
  | cons p packets =>
    rw [List.map_cons, List.nodup_cons] at hnodup
    intro q hq hzero
    have hp : p.index ≠ 0 := fun h => hnodup.1 (h ▸ hzero ▸ List.mem_map_of_mem hq)
    have hmem : 0 ∈ (pluckSEEK records blkSize (p :: packets) 0).1 := by
      rw [hperm.mem_iff, ← hzero]
      exact List.mem_map_of_mem (List.mem_cons_of_mem p hq)
    rw [pluckSEEK_cons] at hmem
    cases hread : readMsr records (blkSize * -1 * p.index) 0 with
    | none => rw [hread] at hmem; exact absurd hmem List.not_mem_nil
    | some i =>
      rw [hread] at hmem
      rcases List.mem_cons.1 hmem with h | h
      · exact readMsr_ne_zero hblk (Or.inr hp) hread h.symm
      · exact pluckSEEK_ne_zero hblk (Nat.succ_ne_zero i) 0 h rfl

theorem length_of_pluckSEEK {records : List MSHeader} {blkSize : ℕ} {packets : List MMPacket}
    {next : ℕ} {is : List ℕ} (h : pluckSEEK records blkSize packets next = (is, true)) :
    is.length = packets.length := by
  induction packets generalizing next is with
  | nil =>
    obtain ⟨rfl, -⟩ := Prod.mk.inj h
    rfl
  | cons p packets ih =>
    rw [pluckSEEK_cons] at h
    cases hread : readMsr records (blkSize * -1 * p.index) next with
    | none => rw [hread] at h; exact nomatch h
    | some i =>
      rw [hread] at h
      obtain ⟨rfl, hok⟩ := Prod.mk.inj h
      rw [List.length_cons, List.length_cons, ih (Prod.ext rfl hok)]

section Seek

variable {records : List MSHeader} {blkSize : ℕ} {packets : List MMPacket}

/-- With one block length the reads return the packets only when each packet is at its offset. -/
theorem recordAt_of_pluckSEEK (hblk : 0 < blkSize)
    (hrest : ∀ p ∈ packets.tail, p.index ≠ 0) {is : List ℕ}
    (hread : pluckSEEK records blkSize packets 0 = (is, true))
    (hperm : is.Perm (packets.map MMPacket.index)) :
    ∀ p ∈ packets, recordAt records (blkSize * p.index) = some p.index := by
  have hreads := (pluckSEEK_ok_iff hblk (Or.inl rfl) hrest is).1 hread
  have hmap : (packets.map MMPacket.index).map
      (fun i => (recordAt records (blkSize * i)).getD 0) = is := by
    have hget := congrArg (List.map fun i : Option ℕ => i.getD 0) hreads
    rw [List.map_map, List.map_map] at hget
    rw [List.map_map]
    exact hget.trans (List.map_id _)
  have hsome : ∀ p ∈ packets, ∃ i, recordAt records (blkSize * p.index) = some i := by
    intro p hp
    have hmem := List.mem_map_of_mem (f := fun p => recordAt records (blkSize * p.index)) hp
    rw [hreads] at hmem
    obtain ⟨i, -, hi⟩ := List.mem_map.1 hmem
    exact ⟨i, hi.symm⟩
  have hself := map_eq_self_of_perm (l := packets.map MMPacket.index)
    (f := fun i => (recordAt records (blkSize * i)).getD 0) ?_ (hmap ▸ hperm)
  · intro p hp
    obtain ⟨i, hi⟩ := hsome p hp
    have hp' := hself p.index (List.mem_map_of_mem hp)
    simp only [hi, Option.getD_some] at hp'
    rw [hi, hp']
  · intro a ha b hb hab
    obtain ⟨p, hp, rfl⟩ := List.mem_map.1 ha
    obtain ⟨q, hq, rfl⟩ := List.mem_map.1 hb
    obtain ⟨i, hi⟩ := hsome p hp
    obtain ⟨j, hj⟩ := hsome q hq
    simp only [hi, hj, Option.getD_some]
    exact recordAt_mono (Nat.mul_le_mul_left blkSize hab) hi hj

theorem pluckSEEK_of_recordAt (hblk : 0 < blkSize) (hrest : ∀ p ∈ packets.tail, p.index ≠ 0)
    (hat : ∀ p ∈ packets, recordAt records (blkSize * p.index) = some p.index) :
    pluckSEEK records blkSize packets 0 = (packets.map MMPacket.index, true) := by
  apply (pluckSEEK_ok_iff hblk (Or.inl rfl) hrest _).2
  rw [List.map_map]
  exact List.map_congr_left hat

end Seek

/-! ## The packets of the log channel -/

section Channel

variable {records : List MSHeader} {name : String}

/-- The packets of a channel as `makeLogs` orders them. -/
def orderedPackets (records : List MSHeader) (name : String) : List MMPacket :=
  timeOrder ((channelRecords records.zipIdx name).map fun r => mmpacket r.2 r.1).reverse

theorem timeOrder_timeOrder (packets : List MMPacket) :
    timeOrder (timeOrder packets) = timeOrder packets :=
  (List.pairwise_map.1 (timeOrder_sorted packets)).insertionSort_eq

theorem mem_orderedPackets {p : MMPacket} : p ∈ orderedPackets records name ↔
    ∃ r ∈ channelRecords records.zipIdx name, mmpacket r.2 r.1 = p := by
  unfold orderedPackets
  rw [(timeOrder_perm _).mem_iff, List.mem_reverse, List.mem_map]

theorem orderedPackets_index (records : List MSHeader) (name : String) :
    ((orderedPackets records name).map MMPacket.index).Perm
      ((channelRecords records.zipIdx name).map Prod.snd) := by
  have hperm := ((timeOrder_perm _).trans (List.reverse_perm ((channelRecords records.zipIdx
    name).map fun r => mmpacket r.2 r.1))).map MMPacket.index
  rw [List.map_map] at hperm
  exact hperm

theorem zipIdx_sorted : (records.zipIdx.map Prod.snd).Pairwise (· < ·) := by
  rw [List.zipIdx_map_snd]
  exact List.pairwise_lt_range'

theorem channelRecords_sorted (records : List MSHeader) (name : String) :
    ((channelRecords records.zipIdx name).map Prod.snd).Pairwise (· < ·) :=
  zipIdx_sorted.sublist (List.filter_sublist.map Prod.snd)

theorem orderedPackets_nodup (records : List MSHeader) (name : String) :
    ((orderedPackets records name).map MMPacket.index).Nodup :=
  (orderedPackets_index records name).nodup_iff.2
    ((channelRecords_sorted records name).imp ne_of_lt)

/-- The records of the packets start when the packets do. -/
theorem starttime_recordsAt {packets : List MMPacket}
    (h : ∀ p ∈ packets, ∃ r ∈ records.zipIdx, mmpacket r.2 r.1 = p) :
    (recordsAt records (packets.map MMPacket.index)).map (fun r => r.1.starttime) =
      packets.map MMPacket.startTime := by
  induction packets with
  | nil => rfl
  | cons p packets ih =>
    obtain ⟨hp, hrest⟩ := List.forall_mem_cons.1 h
    obtain ⟨r, hr, rfl⟩ := hp
    have hget : records[r.2]? = some r.1 := List.mem_zipIdx_iff_getElem?.1 hr
    have hindex : (mmpacket r.2 r.1).index = r.2 := rfl
    unfold recordsAt at ih ⊢
    rw [List.map_cons, List.filterMap_cons, hindex, hget, List.map_cons]
    exact congrArg (r.1.starttime :: ·) (ih hrest)

theorem inTimeOrder_orderedPackets :
    InTimeOrder (recordsAt records ((orderedPackets records name).map MMPacket.index)) := by
  unfold InTimeOrder
  rw [starttime_recordsAt]
  · exact timeOrder_sorted _
  · intro p hp
    obtain ⟨r, hr, rfl⟩ := mem_orderedPackets.1 hp
    exact ⟨r, List.filter_sublist.subset hr, rfl⟩

/-- A record behind another one in the file is in front of it before the packets are ordered. -/
theorem pair_sublist_reverse {r q : MSHeader × ℕ} (hr : r ∈ channelRecords records.zipIdx name)
    (hq : q ∈ channelRecords records.zipIdx name) (hlt : r.2 < q.2) :
    [mmpacket q.2 q.1, mmpacket r.2 r.1].Sublist
      ((channelRecords records.zipIdx name).map fun r => mmpacket r.2 r.1).reverse := by
  have hpair : [r, q].Sublist (channelRecords records.zipIdx name) := by
    have hsorted := List.pairwise_map.1 (channelRecords_sorted records name)
    obtain ⟨l, m, hlm⟩ := List.append_of_mem hr
    rw [hlm, List.pairwise_append] at hsorted
    rw [hlm, List.mem_append, List.mem_cons] at hq
    rcases hq with hq | rfl | hq
    · exact absurd (hsorted.2.2 q hq r List.mem_cons_self) (by omega)
    · exact absurd hlt (lt_irrefl _)
    · rw [hlm]
      exact ((List.singleton_sublist.2 hq).cons_cons r).trans (List.sublist_append_right l _)
  exact (hpair.map fun r => mmpacket r.2 r.1).reverse

/-- Packets of the same time are in the reverse order of the file, so packet 0 is in front when it
is earlier than the others, and not when it is as early as another one. -/
theorem index_tail_ne_zero_iff :
    (∀ p ∈ (orderedPackets records name).tail, p.index ≠ 0) ↔
      ∀ r ∈ channelRecords records.zipIdx name, r.2 = 0 →
        ∀ q ∈ channelRecords records.zipIdx name, q.2 ≠ 0 → r.1.starttime < q.1.starttime := by
  have hindex : ∀ r : MSHeader × ℕ, (mmpacket r.2 r.1).index = r.2 := fun _ => rfl
  have hnodup := orderedPackets_nodup records name
  have hsorted := timeOrder_sorted
    ((channelRecords records.zipIdx name).map fun r => mmpacket r.2 r.1).reverse
  change ((orderedPackets records name).map MMPacket.startTime).Pairwise (· ≤ ·) at hsorted
  cases hpackets : orderedPackets records name with
  | nil =>
    refine iff_of_true nofun fun r hr => ?_
    have hmem : mmpacket r.2 r.1 ∈ orderedPackets records name := mem_orderedPackets.2 ⟨r, hr, rfl⟩
    rw [hpackets] at hmem
    exact absurd hmem List.not_mem_nil
  | cons first rest =>
    rw [hpackets, List.map_cons, List.nodup_cons] at hnodup
    rw [hpackets, List.map_cons, List.pairwise_cons] at hsorted
    have hcons : ∀ r ∈ channelRecords records.zipIdx name, mmpacket r.2 r.1 ∈ first :: rest :=
      fun r hr => hpackets ▸ mem_orderedPackets.2 ⟨r, hr, rfl⟩
    constructor
    · intro hrest r hr hzero q hq hne
      have hfirst : mmpacket r.2 r.1 = first :=
        (List.mem_cons.1 (hcons r hr)).resolve_right fun h => hrest _ h hzero
      have hlater : mmpacket q.2 q.1 ∈ rest := by
        refine (List.mem_cons.1 (hcons q hq)).resolve_left fun h => hne ?_
        rw [← hindex q, h, ← hfirst, hindex, hzero]
      have hle : r.1.starttime ≤ q.1.starttime := by
        have h := hsorted.1 _ (List.mem_map_of_mem hlater)
        rw [← hfirst] at h
        exact h
      refine lt_of_le_of_ne hle fun heq => ?_
      -- packets of the same time keep the order in which they were, so `q` would be in front
      have hpair : [mmpacket q.2 q.1, mmpacket r.2 r.1].Sublist (first :: rest) := by
        rw [← hpackets]
        exact List.pair_sublist_insertionSort (r := fun one two : MMPacket =>
          one.startTime ≤ two.startTime) heq.ge (pair_sublist_reverse hr hq (by omega))
      have hmem : mmpacket r.2 r.1 ∈ rest := by
        cases hpair with
        | cons _ h => exact h.subset (List.mem_cons_of_mem _ List.mem_cons_self)
        | cons_cons _ h => exact h.subset List.mem_cons_self
      exact hrest _ hmem hzero
    · intro hearliest p hp hzero
      obtain ⟨r, hr, rfl⟩ := mem_orderedPackets.1 (hpackets ▸ List.mem_cons_of_mem first hp)
      obtain ⟨q, hq, rfl⟩ := mem_orderedPackets.1 (hpackets ▸ List.mem_cons_self)
      have hne : q.2 ≠ 0 := fun h => hnodup.1 (by
        rw [hindex, h, ← hzero]
        exact List.mem_map_of_mem hp)
      have hlt := hearliest r hr hzero q hq hne
      exact absurd (hsorted.1 _ (List.mem_map_of_mem hp)) (not_le.2 hlt)

/-- The records of a channel with the code LOG are log records. -/
theorem channelRecords_sublist (hcode : channelCode records.zipIdx name = some "LOG") :
    (channelRecords records.zipIdx name).Sublist (logRecords records) := by
  apply List.monotone_filter_right
  intro r hr
  rw [Bool.and_eq_true, decide_eq_true_iff] at hr ⊢
  exact ⟨hr.1, hr.2 ▸ hcode⟩

theorem channelRecords_eq_iff (hcode : channelCode records.zipIdx name = some "LOG") :
    channelRecords records.zipIdx name = logRecords records ↔
      ∀ r ∈ logRecords records, ∀ q ∈ logRecords records,
        channelName r.1.id = channelName q.1.id := by
  have hname : ∀ r ∈ channelRecords records.zipIdx name, channelName r.1.id = name := by
    intro r hr
    have hboth := (List.mem_filter.1 hr).2
    rw [Bool.and_eq_true] at hboth
    exact of_decide_eq_true hboth.2
  constructor
  · intro heq r hr q hq
    rw [← heq] at hr hq
    rw [hname r hr, hname q hq]
  · intro hone
    have hsub := channelRecords_sublist hcode
    obtain ⟨first, hfirst, -⟩ := Option.map_eq_some_iff.1 hcode
    have hmem : first ∈ channelRecords records.zipIdx name := List.mem_of_head? hfirst
    refine hsub.antisymm ?_
    have hall : ∀ r ∈ logRecords records,
        (isValidEncoding r.1.encoding && decide (channelName r.1.id = name)) = true := by
      intro r hr
      have hvalid := (List.mem_filter.1 hr).2
      rw [Bool.and_eq_true] at hvalid
      rw [Bool.and_eq_true, decide_eq_true_iff]
      exact ⟨hvalid.1, (hone r hr first (hsub.subset hmem)).trans (hname first hmem)⟩
    rw [← List.filter_eq_self.2 hall]
    exact (List.filter_sublist).filter _

theorem range'_eq_take {k : ℕ} (hk : k ≤ records.length) :
    List.range' 0 k = (records.zipIdx.take k).map Prod.snd := by
  rw [List.map_take, List.zipIdx_map_snd, List.take_range'_of_length_ge hk]

/-- Several block lengths: the first records of the file are the log records in order. -/
theorem take_iff (k : ℕ) (hk : k ≤ records.length) :
    ((List.range' 0 k).Perm ((logRecords records).map Prod.snd) ∧
        InTimeOrder (recordsAt records (List.range' 0 k))) ↔
      logRecords records = records.zipIdx.take k ∧ InTimeOrder (logRecords records) := by
  have htake : recordsAt records (List.range' 0 k) = records.zipIdx.take k := by
    rw [range'_eq_take hk, recordsAt_map_snd (List.take_subset k records.zipIdx)]
  have hlog : recordsAt records ((logRecords records).map Prod.snd) = logRecords records :=
    recordsAt_map_snd (logRecords_subset records)
  have hsorted : ((logRecords records).map Prod.snd).Pairwise (· < ·) :=
    zipIdx_sorted.sublist (List.filter_sublist.map Prod.snd)
  constructor
  · rintro ⟨hperm, horder⟩
    have heq : List.range' 0 k = (logRecords records).map Prod.snd :=
      hperm.eq_of_pairwise' (r := (· < ·)) List.pairwise_lt_range' hsorted
    have hrecords : logRecords records = records.zipIdx.take k := by
      rw [← hlog, ← heq, htake]
    exact ⟨hrecords, by rwa [hrecords, ← htake]⟩
  · rintro ⟨hrecords, horder⟩
    rw [htake, ← hrecords]
    exact ⟨List.Perm.of_eq (by rw [hrecords, range'_eq_take hk]), horder⟩

end Channel

/-- Whatever the records hold, the logs are the texts of the log records exactly when these are
found. -/
theorem makeLogs_texts_iff {records : List MSHeader} {file : MMFile}
    (hfile : indexMplex records = some file) (hmplex : 1 < file.channels.length)
    (hlog : logRecords records ≠ []) (hptime2btime : ℚ → BTime) :
    (∀ content, ReturnsLogs hptime2btime content records) ↔ LogsFound records := by
  obtain ⟨c, is, ok, ⟨hcode, hpackets, hread⟩, hmake⟩ := makeLogs_eq hfile hmplex hlog
  rw [hpackets, timeOrder_timeOrder] at hread
  change pluckSEEK records _ (orderedPackets records c.channelName) 0 = _ at hread
  have hlt : ∀ i ∈ is, i < records.length := by
    have h := pluckSEEK_lt records (blockLength records) (orderedPackets records c.channelName) 0
    rwa [hread] at h
  rw [forall_returnsLogs_iff hptime2btime hlt (hmake hptime2btime)]
  have hlength : (orderedPackets records c.channelName).length =
      (channelRecords records.zipIdx c.channelName).length := by
    have h := (orderedPackets_index records c.channelName).length_eq
    rwa [List.length_map, List.length_map] at h
  have hsame : ok = true → is.Perm ((logRecords records).map Prod.snd) →
      channelRecords records.zipIdx c.channelName = logRecords records := by
    rintro rfl hperm
    apply (channelRecords_sublist hcode).eq_of_length
    rw [← hlength, ← length_of_pluckSEEK hread, hperm.length_eq, List.length_map]
  rcases Nat.eq_zero_or_pos (blockLength records) with hblk | hblk
  · have hle : (orderedPackets records c.channelName).length ≤ records.length := by
      rw [hlength]
      exact (List.filter_sublist.length_le).trans_eq List.length_zipIdx
    rw [hblk, pluckSEEK_zero (by omega)] at hread
    obtain ⟨rfl, rfl⟩ := Prod.mk.inj hread
    constructor
    · rintro ⟨-, hperm, horder⟩
      have hrecords := hsame rfl hperm
      rw [hlength, hrecords] at hperm horder hle
      exact ⟨(channelRecords_eq_iff hcode).1 hrecords, fun hne => absurd hblk hne,
        fun _ => (take_iff _ hle).1 ⟨hperm, horder⟩⟩
    · rintro ⟨hone, -, hloop⟩
      have hrecords := (channelRecords_eq_iff hcode).2 hone
      rw [hlength, hrecords] at hle ⊢
      exact ⟨rfl, (take_iff _ hle).2 (hloop hblk)⟩
  · constructor
    · rintro ⟨rfl, hperm, horder⟩
      have hrecords := hsame rfl hperm
      rw [← hrecords] at hperm
      have hreturns := hperm.trans (orderedPackets_index records _).symm
      have hrest := index_ne_zero_of_perm hblk (orderedPackets_nodup records c.channelName)
        (by rw [hread]; exact hreturns)
      have hat := recordAt_of_pluckSEEK hblk hrest hread hreturns
      refine ⟨(channelRecords_eq_iff hcode).1 hrecords, fun _ => ?_, fun h => absurd h hblk.ne'⟩
      rw [← hrecords]
      intro r hr
      exact ⟨hat _ (mem_orderedPackets.2 ⟨r, hr, rfl⟩), index_tail_ne_zero_iff.1 hrest r hr⟩
    · rintro ⟨hone, hseek, -⟩
      have hrecords := (channelRecords_eq_iff hcode).2 hone
      have hfound := hseek hblk.ne'
      rw [← hrecords] at hfound
      have hrest := index_tail_ne_zero_iff.2 fun r hr => (hfound r hr).2
      have hat : ∀ p ∈ orderedPackets records c.channelName,
          recordAt records (blockLength records * p.index) = some p.index := by
        intro p hp
        obtain ⟨r, hr, rfl⟩ := mem_orderedPackets.1 hp
        exact (hfound r hr).1
      obtain ⟨rfl, rfl⟩ := Prod.mk.inj (hread.symm.trans (pluckSEEK_of_recordAt hblk hrest hat))
      refine ⟨rfl, ?_, inTimeOrder_orderedPackets⟩
      rw [← hrecords]
      exact orderedPackets_index records _

theorem logReclen_pos : 0 < 512 := by norm_num

theorem logReclen_aligned : MINRECLEN ∣ 512 := ⟨4, rfl⟩

/-- A record of a file whose records have 512 bytes. -/
def logHeader (channel : String) (encoding : ℤ) (starttime : ℤ) : MSHeader where
  id := ⟨"XX", "STA", "", channel⟩
  reclen := 512
  encoding := encoding
  samplecnt := 100
  samprate := 100
  starttime := starttime
  reclen_pos := logReclen_pos
  aligned := logReclen_aligned

/-- Two log records, the one that starts at `first` in front, among records of another channel. -/
def twoLogs (first second : ℤ) : List MSHeader := [
  logHeader "LOG" 0 first,
  logHeader "BHZ" 11 0,
  logHeader "LOG" 0 second,
  logHeader "BHZ" 11 1000000]

theorem makeLogs_texts_twoLogs :
    ∃ file, indexMplex (twoLogs 0 1000000) = some file ∧
      ∀ hptime2btime content, ReturnsLogs hptime2btime content (twoLogs 0 1000000) := by
  have hfile : indexMplex (twoLogs 0 1000000) =
      some ((indexMplex (twoLogs 0 1000000)).get rfl) := rfl
  refine ⟨_, hfile, fun hptime2btime content => ?_⟩
  refine (makeLogs_texts_iff hfile (by decide +kernel) ?_ hptime2btime).2 ⟨?_, ?_, ?_⟩ content
  · exact List.ne_nil_of_length_pos (by decide +kernel)
  · decide +kernel
  · exact fun _ => by decide +kernel
  · exact fun h => absurd h (by decide +kernel)

/-- The log record 0 is not the earliest: the other record is read first, and then the one behind
it, which is of another channel. -/
theorem makeLogs_reads_other_channel :
    (∀ (hptime2btime : ℚ → BTime) (content : ℕ → List Byte), ∃ logs,
      makeLogs hptime2btime content (twoLogs 1000000 0) = some (some logs) ∧
        logs.text = [logText hptime2btime content (logHeader "LOG" 0 0, 2),
          logText hptime2btime content (logHeader "BHZ" 11 1000000, 3)]) ∧
      ∀ hptime2btime : ℚ → BTime,
        ¬ ∀ content, ReturnsLogs hptime2btime content (twoLogs 1000000 0) := by
  have hreads : ∀ (hptime2btime : ℚ → BTime) (content : ℕ → List Byte), ∃ logs,
      makeLogs hptime2btime content (twoLogs 1000000 0) = some (some logs) ∧
        logs.text = [logText hptime2btime content (logHeader "LOG" 0 0, 2),
          logText hptime2btime content (logHeader "BHZ" 11 1000000, 3)] :=
    fun _ _ => ⟨_, rfl, rfl⟩
  refine ⟨hreads, fun hptime2btime h => ?_⟩
  obtain ⟨logs, hlogs, htext⟩ := hreads hptime2btime lettered
  obtain ⟨logs', rs, hlogs', hperm, -, htexts⟩ := h lettered
  obtain rfl : logs' = logs := Option.some.inj (Option.some.inj (hlogs'.symm.trans hlogs))
  have hsnd : [2, 3] = rs.map Prod.snd := by
    have heq := congrArg (List.map fun t : LogText => t.text.length) (htext.symm.trans htexts.text)
    rw [List.map_map] at heq
    exact heq.trans (congrArg (List.map · rs) (funext (logText_lettered hptime2btime)))
  have hperm' := hperm.map Prod.snd
  rw [← hsnd] at hperm'
  exact absurd hperm' (by decide +kernel)

end PQL
