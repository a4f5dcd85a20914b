import PQL.Lib.UpdateFirst
import PQL.Mseed.Group

/-!
# The index of a multiplexed file

`indexMplex` notes for each channel of a file the numbers of its packets, and `makeTraces` cuts the
packets of the channels into traces.  No packet is lost or used twice: the traces together have the
packets of the channels that are included, each once (`makeTraces_perm`).
-/

namespace PQL

def MINRECLEN : ℕ := 128

/-- The header of a record, and its length. -/
structure MSHeader where
  id : ChannelId
  reclen : ℕ
  encoding : ℤ
  samplecnt : ℤ
  samprate : ℚ
  starttime : ℤ
  reclen_pos : 0 < reclen
  aligned : MINRECLEN ∣ reclen

structure MMPacket where
  index : ℕ
  sampleCnt : ℤ
  startTime : ℤ
deriving DecidableEq, Repr

structure MMIndex where
  channelName : String
  id : ChannelId
  startTime : ℤ
  sampleCnt : ℤ
  sampRate : ℚ
  encoding : ℤ
  packets : List MMPacket
deriving DecidableEq

/-- `blkSize` is zero when the file has records of several lengths. -/
structure MMFile where
  blkSize : ℕ
  channels : List MMIndex

structure MMTrcInfo where
  channelName : String
  id : ChannelId
  blkSize : ℕ
  startTime : ℤ
  sampRate : ℚ
  sampleCnt : ℤ
  encoding : ℤ
  packets : List MMPacket
deriving DecidableEq

/-- The reading options of multiplexed files; a `length` of zero does not cut traces. -/
structure MplexOptions where
  incChans : List String
  excChans : List String
  length : ℤ

def isValidEncoding (a : ℤ) : Bool := a ∈ [0, 1, 3, 10, 11, 30, 32, 4, 5, 12, 13, 14]

def includeChan (options : Option MplexOptions) (channel : String) : Bool :=
  if channel = "ACE" ∨ channel = "LOG" ∨ channel = "OCF" then false
  else
    match options with
    | none => true
    | some options =>
      if options.incChans ≠ [] then options.incChans.contains channel
      else !options.excChans.contains channel

def channelName (id : ChannelId) : String :=
  id.network ++ "." ++ id.station ++ "." ++ id.location ++ "." ++ id.channel

def mmpacket (index : ℕ) (msr : MSHeader) : MMPacket := ⟨index, msr.samplecnt, msr.starttime⟩

/-! ## The index -/

/-- The state of the loop over the packets; `blkSize` is the block size that is compared. -/
structure IndexState where
  fileBlkSize : ℕ
  blkSize : ℕ
  channels : List MMIndex

def addToIndex (channels : List MMIndex) (index : ℕ) (msr : MSHeader) : List MMIndex :=
  let name := channelName msr.id
  if channels.any fun c => c.channelName = name then
    updateFirst (fun c => c.channelName = name)
      (fun c => { c with
        sampleCnt := c.sampleCnt + msr.samplecnt
        packets := mmpacket index msr :: c.packets }) channels
  else
    { channelName := name
      id := msr.id
      startTime := msr.starttime
      sampleCnt := msr.samplecnt
      sampRate := msr.samprate
      encoding := msr.encoding
      packets := [mmpacket index msr] } :: channels

/-- Once the block size has changed, it stays zero. -/
def checkBlkSize (s : IndexState) (reclen : ℕ) : IndexState :=
  if s.blkSize ≠ 0 ∧ s.blkSize ≠ reclen then { s with fileBlkSize := 0, blkSize := 0 } else s

/-- One packet; the block size is compared only when the encoding is valid. -/
def indexPacket (s : IndexState) (packet : MSHeader × ℕ) : IndexState :=
  if isValidEncoding packet.1.encoding then
    { checkBlkSize s packet.1.reclen with
      channels := addToIndex s.channels packet.2 packet.1 }
  else s

/-- Orders packets by time.  The sort is stable: packets of the same time keep their order. -/
def timeOrder (packets : List MMPacket) : List MMPacket :=
  packets.insertionSort fun one two => one.startTime ≤ two.startTime

def indexMplex (records : List MSHeader) : Option MMFile :=
  match records with
  | [] => none
  | msr :: _ =>
    let s := records.zipIdx.foldl indexPacket ⟨msr.reclen, msr.reclen, []⟩
    some
      { blkSize := s.fileBlkSize
        channels := s.channels.map fun c => { c with packets := timeOrder c.packets } }

/-! ## The traces -/

structure TracesState where
  traces : List MMTrcInfo
  traceStart : ℤ

/-- The window of the trace is over. -/
def windowBreached (options : Option MplexOptions) (traceStart : ℤ) (p : MMPacket) : Bool :=
  match options with
  | none => false
  | some options =>
    options.length ≠ 0 ∧ ((p.startTime - traceStart : ℤ) : ℚ) / ONEMIL ≥ options.length

/-- Puts a packet into the last trace of its channel or into a new one. -/
def tracePacket (options : Option MplexOptions) (blkSize : ℕ) (c : MMIndex) (s : TracesState)
    (p : MMPacket) : TracesState :=
  let known := s.traces.any fun trc => trc.channelName = c.channelName
  if !known || windowBreached options s.traceStart p then
    { traces :=
        { channelName := c.channelName
          id := c.id
          blkSize := blkSize
          startTime := p.startTime
          sampRate := c.sampRate
          sampleCnt := p.sampleCnt
          encoding := c.encoding
          packets := [p] } :: s.traces
      traceStart := p.startTime }
  else
    { s with
      traces := updateFirst (fun trc => trc.channelName = c.channelName)
        (fun trc => { trc with
          sampleCnt := trc.sampleCnt + p.sampleCnt
          packets := p :: trc.packets }) s.traces }

def traceChannel (options : Option MplexOptions) (blkSize : ℕ) (s : TracesState) (c : MMIndex) :
    TracesState :=
  if includeChan options c.id.channel then
    c.packets.foldl (tracePacket options blkSize c) s
  else s

/-- The traces; their packets are put into order only when there is one block size. -/
def makeTraces (options : Option MplexOptions) (file : MMFile) : List MMTrcInfo :=
  let traces := (file.channels.foldl (traceChannel options file.blkSize) ⟨[], 0⟩).traces
  if file.blkSize ≠ 0 then
    traces.map fun trc => { trc with packets := trc.packets.reverse }
  else traces

/-- What the library keeps with a trace to read its packets. -/
structure Mplex where
  blkSize : ℕ
  packets : List MMPacket

/-- `make_mseed_trace` orders the packets by their number. -/
def packetOrder (packets : List MMPacket) : List MMPacket :=
  packets.insertionSort fun one two => one.index ≤ two.index

def makeMseedTrace (trc : MMTrcInfo) : Mplex := ⟨trc.blkSize, packetOrder trc.packets⟩

/-! ## No packet is lost -/

/-- The packets with a valid encoding. -/
def validPackets (packets : List (MSHeader × ℕ)) : List MMPacket :=
  (packets.filter fun r => isValidEncoding r.1.encoding).map fun r => mmpacket r.2 r.1

theorem addToIndex_perm (channels : List MMIndex) (index : ℕ) (msr : MSHeader) :
    ((addToIndex channels index msr).flatMap MMIndex.packets).Perm
      (mmpacket index msr :: channels.flatMap MMIndex.packets) := by
  unfold addToIndex
  simp only []
  split_ifs with hknown
  · apply flatMap_updateFirst_perm
    · exact fun _ => rfl
    · exact hknown
  · exact List.Perm.refl _

theorem indexPacket_channels (s : IndexState) (packet : MSHeader × ℕ) :
    (indexPacket s packet).channels =
      if isValidEncoding packet.1.encoding then addToIndex s.channels packet.2 packet.1
      else s.channels := by
  unfold indexPacket
  split_ifs <;> rfl

theorem foldl_indexPacket_perm (packets : List (MSHeader × ℕ)) (s : IndexState) :
    ((packets.foldl indexPacket s).channels.flatMap MMIndex.packets).Perm
      (validPackets packets ++ s.channels.flatMap MMIndex.packets) := by
  induction packets generalizing s with
  | nil => exact List.Perm.refl _
  | cons packet packets ih =>
    refine (ih (indexPacket s packet)).trans ?_
    rw [indexPacket_channels]
    unfold validPackets
    split_ifs with hvalid
    · rw [List.filter_cons, if_pos hvalid, List.map_cons]
      exact ((addToIndex_perm _ _ _).append_left _).trans List.perm_middle
    · rw [List.filter_cons, if_neg hvalid]

/-- The channels together have the packets with a valid encoding, each once. -/
theorem indexMplex_perm {records : List MSHeader} {file : MMFile}
    (h : indexMplex records = some file) :
    (file.channels.flatMap MMIndex.packets).Perm (validPackets records.zipIdx) := by
  cases records with
  | nil => exact nomatch h
  | cons msr rest =>
    obtain rfl := Option.some.inj h
    have hindex := foldl_indexPacket_perm (msr :: rest).zipIdx ⟨msr.reclen, msr.reclen, []⟩
    rw [List.flatMap_nil, List.append_nil] at hindex
    refine List.Perm.trans ?_ hindex
    rw [List.flatMap_map]
    exact List.Perm.flatMap_left _ fun c _ => List.perm_insertionSort _ _

/-- The packets of the channels that are included. -/
def includedPackets (options : Option MplexOptions) (channels : List MMIndex) : List MMPacket :=
  (channels.filter fun c => includeChan options c.id.channel).flatMap MMIndex.packets

theorem tracePacket_perm (options : Option MplexOptions) (blkSize : ℕ) (c : MMIndex)
    (s : TracesState) (p : MMPacket) :
    ((tracePacket options blkSize c s p).traces.flatMap MMTrcInfo.packets).Perm
      (p :: s.traces.flatMap MMTrcInfo.packets) := by
  unfold tracePacket
  simp only []
  split_ifs with hnew
  · exact List.Perm.refl _
  · rw [Bool.or_eq_true, not_or, Bool.not_eq_true', Bool.not_eq_false] at hnew
    apply flatMap_updateFirst_perm
    · exact fun _ => rfl
    · exact hnew.1

theorem foldl_tracePacket_perm (options : Option MplexOptions) (blkSize : ℕ) (c : MMIndex)
    (packets : List MMPacket) (s : TracesState) :
    ((packets.foldl (tracePacket options blkSize c) s).traces.flatMap MMTrcInfo.packets).Perm
      (packets ++ s.traces.flatMap MMTrcInfo.packets) := by
  induction packets generalizing s with
  | nil => exact List.Perm.refl _
  | cons p packets ih =>
    refine (ih _).trans (((tracePacket_perm options blkSize c s p).append_left _).trans ?_)
    exact List.perm_middle

theorem foldl_traceChannel_perm (options : Option MplexOptions) (blkSize : ℕ)
    (channels : List MMIndex) (s : TracesState) :
    ((channels.foldl (traceChannel options blkSize) s).traces.flatMap MMTrcInfo.packets).Perm
      (includedPackets options channels ++ s.traces.flatMap MMTrcInfo.packets) := by
  induction channels generalizing s with
  | nil => exact List.Perm.refl _
  | cons c channels ih =>
    refine (ih _).trans ?_
    unfold traceChannel includedPackets
    split_ifs with hinc
    · rw [List.filter_cons, if_pos hinc, List.flatMap_cons, List.append_assoc]
      refine ((foldl_tracePacket_perm options blkSize c c.packets s).append_left _).trans ?_
      rw [← List.append_assoc, ← List.append_assoc]
      exact List.perm_append_comm.append_right _
    · rw [List.filter_cons, if_neg hinc]

/-- The traces together have the packets of the channels that are included, each once. -/
theorem makeTraces_perm (options : Option MplexOptions) (file : MMFile) :
    ((makeTraces options file).flatMap MMTrcInfo.packets).Perm
      (includedPackets options file.channels) := by
  have htraces := foldl_traceChannel_perm options file.blkSize file.channels ⟨[], 0⟩
  rw [List.flatMap_nil, List.append_nil] at htraces
  refine List.Perm.trans ?_ htraces
  unfold makeTraces
  simp only []
  split_ifs
  · rw [List.flatMap_map]
    exact List.Perm.flatMap_left _ fun trc _ => List.reverse_perm _
  · exact List.Perm.refl _

end PQL
