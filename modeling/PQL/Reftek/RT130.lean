import PQL.Lib.UpdateFirst
import PQL.Reftek.Packets
import PQL.Steim.Steim1
import PQL.Steim.Steim2

/-!
# RT130 files

`getRt130Hedr` makes one trace for each channel of the file and adds up the sample counts that the
data packets state.  `getRt130Data` reads the file again and copies the samples of the channel; it
keeps a log of the samples that each decoder call writes, of the bytes that it reads from the packet
and of the bytes that it writes to the data of the trace.  None of these sizes is checked, so they
stay within bounds exactly when the packets are sound (`rt130_bounded_iff`).
-/

namespace PQL

/-! ## The header pass -/

/-- What the header pass keeps of a channel. -/
structure ChanInfo where
  strmNm : ℕ
  chnNm : ℕ
  chnNum : ℕ
  dataForm : Byte
  numSamps : Word
deriving DecidableEq, Repr

/-- The entry of a channel when its first packet is met. -/
def newChannel (block : List Byte) : ChanInfo where
  strmNm := rt130StreamNm block
  chnNm := rt130ChannelNm block
  chnNum := rt130ChannelNum block
  dataForm := rt130DataForm block
  numSamps := 0

/-- One data packet of the header pass. -/
def addPacket (channels : List ChanInfo) (block : List Byte) : List ChanInfo :=
  let chnNum := rt130ChannelNum block
  let channels :=
    if channels.any (fun c => c.chnNum = chnNum) then channels else newChannel block :: channels
  updateFirst (fun c => c.chnNum = chnNum)
    (fun c => { c with numSamps := c.numSamps + BitVec.ofNat 32 (rt130NumSamps block) }) channels

def hedrStep (s : List ChanInfo × List Byte) (chunk : List Byte) : List ChanInfo × List Byte :=
  let (type, block) := rdPack s.2 chunk
  match type with
  | .DT => (addPacket s.1 block, block)
  | _ => (s.1, block)

/-- A trace of an RT130 file: its channel, the size of its samples and their number. -/
structure RT130Trace where
  strmNm : ℕ
  chnNm : ℕ
  dataSize : ℕ
  numSamples : Word
deriving DecidableEq, Repr

/-- `HDRCHANNELNUM` of the channel name `strmNm:chnNm`. -/
def hdrChannelNum (trace : RT130Trace) : ℕ := (trace.strmNm - 1) * 3 + trace.chnNm

/-- The size of a sample in the data form of a channel; it stays zero in an unknown form. -/
def formSize (dataForm : Byte) : ℕ :=
  if dataForm = 0x16 then 2
  else if dataForm = 0x32 ∨ dataForm = 0xc0 ∨ dataForm = 0xc2 then 4
  else 0

def makeRt130Trace (chn : ChanInfo) : RT130Trace where
  strmNm := chn.strmNm
  chnNm := chn.chnNm
  dataSize := formSize chn.dataForm
  numSamples := chn.numSamps

/-- `get_rt130_hedr`, with `block` in the packet buffer at first. -/
def getRt130Hedr (block file : List Byte) : List RT130Trace :=
  ((chunks file).foldl hedrStep ([], block)).1.foldl
    (fun traces chn => makeRt130Trace chn :: traces) []

/-- `rt130_check`: the first packet is an event header with a data form that can be read. -/
def rt130Check (block file : List Byte) : Bool :=
  match chunks file with
  | [] => false
  | chunk :: _ =>
    let (type, block) := rdPack block chunk
    type = .EH ∧ rt130DataForm block ∈ [0x16, 0x32, 0xc0, 0xc2]

/-- `IDrt130`, with `block₀` and `block₁` in the packet buffers of the check and the header pass. -/
def idRt130 (block₀ block₁ file : List Byte) : List RT130Trace :=
  if rt130Check block₀ file then getRt130Hedr block₁ file else []

/-! ## The data pass -/

/-- What the data pass does to memory. -/
inductive Access where
  /-- A decoder writes `count` samples to the packet buffer, which has room for `limit`. -/
  | decode (limit count : ℕ)
  | readPacket (offset len : ℕ)
  | writeData (offset : ℤ) (len : ℕ)
deriving DecidableEq, Repr

structure DataPass where
  block : List Byte
  lastX : Word
  sampsRead : Word
  accesses : List Access

/-- `memcpy` of `numSamps` samples to the data of the trace. -/
def DataPass.copy (s : DataPass) (dataSize numSamps : ℕ) : DataPass :=
  { s with
    sampsRead := s.sampsRead + BitVec.ofNat 32 numSamps
    accesses := s.accesses ++
      [.writeData (s.sampsRead * BitVec.ofNat 32 dataSize).toInt (dataSize * numSamps)] }

def DataPass.log (s : DataPass) (accesses : List Access) : DataPass :=
  { s with accesses := s.accesses ++ accesses }

/-- `rev`, set when the host is little-endian. -/
def rt130Rev (host : Endian) : Bool := decide (host = .littleEnd)

/-- The bytes of the packet that a decoder reads: the integration constants and the frames. -/
def decoderReads : List Access := [.readPacket 68 4, .readPacket 72 4, .readPacket 64 960]

/-- The `switch` over the data form of a packet of the trace. -/
def dataPacket (host : Endian) (dataSize : ℕ) (s : DataPass) : DataPass :=
  let numSamps := rt130NumSamps s.block
  let form := rt130DataForm s.block
  if form = 0x32 ∨ form = 0x16 then
    (s.log [.readPacket RT130_HEADER_SIZE (dataSize * numSamps)]).copy dataSize numSamps
  else if form = 0xc0 then
    let r := steim1 host s.block s.lastX DEFAULT_MSEED_BLOCKSIZE (rt130Rev host)
    let s := s.log (decoderReads ++ [.decode RT130_C0_MAX_SAMPS r.data.length])
    { s with block := r.block, lastX := r.lastX }.copy dataSize r.data.length
  else if form = 0xc2 then
    let r := steim2 host s.block s.lastX DEFAULT_MSEED_BLOCKSIZE (rt130Rev host)
    let s := s.log (decoderReads ++ [.decode RT130_C2_MAX_SAMPS r.1.length])
    { s with lastX := r.2 }.copy dataSize r.1.length
  else s

def dataStep (host : Endian) (trace : RT130Trace) (s : DataPass) (chunk : List Byte) : DataPass :=
  let (type, block) := rdPack s.block chunk
  let s := { s with block := block }
  match type with
  | .DT =>
    if rt130ChannelNum block = hdrChannelNum trace then dataPacket host trace.dataSize s else s
  | _ => s

/-- `get_rt130_data`, with `block` in the packet buffer at first and the memory for the data
allocated. -/
def getRt130Data (host : Endian) (block file : List Byte) (trace : RT130Trace) : DataPass :=
  (chunks file).foldl (dataStep host trace) ⟨block, INT_MIN, 0, []⟩

/-! ## The header count -/

/-- The sum, as an `int`, of the sample counts that the packets of channel `chnNum` state. -/
def channelCount (chnNum : ℕ) (blocks : List (List Byte)) : Word :=
  ((blocks.filter fun b => rt130ChannelNum b = chnNum).map
    fun b => BitVec.ofNat 32 (rt130NumSamps b)).sum

theorem channelCount_concat (chnNum : ℕ) (blocks : List (List Byte)) (b : List Byte) :
    channelCount chnNum (blocks ++ [b]) = channelCount chnNum blocks +
      if rt130ChannelNum b = chnNum then BitVec.ofNat 32 (rt130NumSamps b) else 0 := by
  unfold channelCount
  by_cases hb : rt130ChannelNum b = chnNum
  · simp [hb, List.filter_append]
  · simp [hb, List.filter_append]

/-- The channels after the data packets `blocks`: one entry a channel, with its count. -/
structure CountsPackets (channels : List ChanInfo) (blocks : List (List Byte)) : Prop where
  nodup : (channels.map ChanInfo.chnNum).Nodup
  met : ∀ b ∈ blocks, rt130ChannelNum b ∈ channels.map ChanInfo.chnNum
  named : ∀ c ∈ channels, c.chnNum = (c.strmNm - 1) * 3 + c.chnNm
  count : ∀ c ∈ channels, c.numSamps = channelCount c.chnNum blocks

theorem CountsPackets.newChannel {channels : List ChanInfo} {blocks : List (List Byte)}
    {b : List Byte} (h : CountsPackets channels blocks)
    (hb : rt130ChannelNum b ∉ channels.map ChanInfo.chnNum) :
    CountsPackets (newChannel b :: channels) blocks := by
  have hnone : blocks.filter (fun b' => rt130ChannelNum b' = rt130ChannelNum b) = [] := by
    rw [List.filter_eq_nil_iff]
    intro b' hb' heq
    exact hb (of_decide_eq_true heq ▸ h.met b' hb')
  refine ⟨List.nodup_cons.2 ⟨hb, h.nodup⟩, fun b' hb' => List.mem_cons_of_mem _ (h.met b' hb'),
    List.forall_mem_cons.2 ⟨rfl, h.named⟩, List.forall_mem_cons.2 ⟨?_, h.count⟩⟩
  show 0 = channelCount (rt130ChannelNum b) blocks
  rw [channelCount, hnone]
  rfl

theorem CountsPackets.add {channels : List ChanInfo} {blocks : List (List Byte)} {b : List Byte}
    (h : CountsPackets channels blocks) (hb : rt130ChannelNum b ∈ channels.map ChanInfo.chnNum) :
    CountsPackets (updateFirst (fun c => c.chnNum = rt130ChannelNum b)
      (fun c => { c with numSamps := c.numSamps + BitVec.ofNat 32 (rt130NumSamps b) }) channels)
      (blocks ++ [b]) := by
  have hone : channels.Pairwise fun c d => ¬ (decide (c.chnNum = rt130ChannelNum b) = true ∧
      decide (d.chnNum = rt130ChannelNum b) = true) := by
    refine (List.pairwise_map.1 h.nodup).imp fun hne hboth => hne ?_
    exact (of_decide_eq_true hboth.1).trans (of_decide_eq_true hboth.2).symm
  have hmap := map_updateFirst (fun c : ChanInfo => decide (c.chnNum = rt130ChannelNum b))
    (fun c => { c with numSamps := c.numSamps + BitVec.ofNat 32 (rt130NumSamps b) })
    ChanInfo.chnNum (fun _ => rfl) channels
  refine ⟨by rw [hmap]; exact h.nodup, ?_, ?_, ?_⟩
  · rw [hmap, List.forall_mem_append, List.forall_mem_singleton]
    exact ⟨h.met, hb⟩
  · exact forall_mem_updateFirst hone (fun c hc _ => h.named c hc) fun c hc _ => h.named c hc
  · refine forall_mem_updateFirst hone (fun c hc heq => ?_) fun c hc hne => ?_
    · rw [channelCount_concat, if_pos (of_decide_eq_true heq).symm, h.count c hc]
    · have hne' : ¬ rt130ChannelNum b = c.chnNum := fun heq => hne (decide_eq_true heq.symm)
      rw [channelCount_concat, if_neg hne', add_zero, h.count c hc]

theorem CountsPackets.addPacket {channels : List ChanInfo} {blocks : List (List Byte)}
    {b : List Byte} (h : CountsPackets channels blocks) :
    CountsPackets (addPacket channels b) (blocks ++ [b]) := by
  have hany : channels.any (fun c => c.chnNum = rt130ChannelNum b) ↔
      rt130ChannelNum b ∈ channels.map ChanInfo.chnNum := by
    simp only [List.any_eq_true, decide_eq_true_eq, List.mem_map]
  unfold PQL.addPacket
  by_cases hb : rt130ChannelNum b ∈ channels.map ChanInfo.chnNum
  · simp only [if_pos (hany.2 hb)]
    exact h.add hb
  · simp only [if_neg fun hc => hb (hany.1 hc)]
    exact (h.newChannel hb).add List.mem_cons_self

/-- The packets as the header pass finds them in the packet buffer. -/
def headerPackets : List Byte → List (List Byte) → List (List Byte)
  | _, [] => []
  | array, chunk :: chunks =>
    readInto array chunk :: headerPackets (readInto array chunk) chunks

/-- The data packets that the header pass counts. -/
def headerDataPackets (block file : List Byte) : List (List Byte) :=
  (headerPackets block (chunks file)).filter fun b => packetType b = .DT

theorem foldl_hedrStep (s : List ChanInfo × List Byte) (blocks : List (List Byte))
    (chunks : List (List Byte)) (h : CountsPackets s.1 blocks) :
    CountsPackets (chunks.foldl hedrStep s).1
      (blocks ++ (headerPackets s.2 chunks).filter fun b => packetType b = .DT) := by
  induction chunks generalizing s blocks with
  | nil => simpa [headerPackets] using h
  | cons chunk chunks ih =>
    rw [List.foldl_cons, headerPackets, List.filter_cons]
    by_cases hdt : packetType (readInto s.2 chunk) = .DT
    · have hstep :
          hedrStep s chunk = (PQL.addPacket s.1 (readInto s.2 chunk), readInto s.2 chunk) := by
        simp only [hedrStep, rdPack, hdt]
      have := ih (PQL.addPacket s.1 (readInto s.2 chunk), readInto s.2 chunk)
        (blocks ++ [readInto s.2 chunk]) h.addPacket
      rw [hstep]
      simpa [hdt] using this
    · have hstep : hedrStep s chunk = (s.1, readInto s.2 chunk) := by
        simp only [hedrStep, rdPack]
      have := ih (s.1, readInto s.2 chunk) blocks h
      rw [hstep]
      simpa [hdt] using this

/-- The traces of the channels, the last channel met first. -/
theorem getRt130Hedr_eq (block file : List Byte) :
    getRt130Hedr block file =
      (((chunks file).foldl hedrStep ([], block)).1.map makeRt130Trace).reverse := by
  have hrev : ∀ (cs : List ChanInfo) (ts : List RT130Trace),
      cs.foldl (fun traces chn => makeRt130Trace chn :: traces) ts =
        (cs.map makeRt130Trace).reverse ++ ts := by
    intro cs
    induction cs with
    | nil => exact fun _ => rfl
    | cons c cs ih => intro ts; rw [List.foldl_cons, ih]; simp
  rw [getRt130Hedr, hrev, List.append_nil]

/-- A trace states the number of samples that the header pass counted for its channel. -/
theorem numSamples_of_mem_hedr {block file : List Byte} {trace : RT130Trace}
    (h : trace ∈ getRt130Hedr block file) :
    trace.numSamples = channelCount (hdrChannelNum trace) (headerDataPackets block file) := by
  have hcounts := foldl_hedrStep ([], block) [] (chunks file)
    ⟨List.nodup_nil, nofun, nofun, nofun⟩
  have hmem : trace ∈ ((chunks file).foldl hedrStep ([], block)).1.map makeRt130Trace := by
    rw [getRt130Hedr_eq, List.mem_reverse] at h
    exact h
  obtain ⟨c, hc, rfl⟩ := List.mem_map.1 hmem
  have hcount := hcounts.count c hc
  rw [hcounts.named c hc] at hcount
  exact hcount

/-! ## Bounds -/

/-- A decoder stays in its buffer and a read stays in the packet. -/
def Access.InBounds : Access → Prop
  | .decode limit count => count ≤ limit
  | .readPacket offset len => offset + len ≤ RT130_PKT_SIZE
  | .writeData _ _ => True

def Access.written : Access → ℕ
  | .writeData _ len => len
  | _ => 0

/-- The bytes written to the data of the trace. -/
def written (accesses : List Access) : ℕ := (accesses.map Access.written).sum

theorem written_append (as bs : List Access) : written (as ++ bs) = written as + written bs := by
  rw [written, List.map_append, List.sum_append]
  rfl

/-- The accesses of a data pass are within bounds. -/
structure Bounded (trace : RT130Trace) (accesses : List Access) : Prop where
  inBounds : ∀ a ∈ accesses, a.InBounds
  total : (written accesses : ℤ) ≤ trace.numSamples.toInt * trace.dataSize

/-- The number of samples that the data pass takes from a packet. -/
def passCount (host : Endian) (block : List Byte) : ℕ :=
  let form := rt130DataForm block
  if form = 0x32 ∨ form = 0x16 then rt130NumSamps block
  else if form = 0xc0 then steim1Count host (rt130Rev host) block DEFAULT_MSEED_BLOCKSIZE
  else if form = 0xc2 then steim2Count host (rt130Rev host) block DEFAULT_MSEED_BLOCKSIZE
  else 0

/-- The control codes of a compressed packet announce no more samples than the packet buffer holds,
and the stated samples of an uncompressed one lie in the packet. -/
def SoundPacket (host : Endian) (dataSize : ℕ) (block : List Byte) : Prop :=
  let form := rt130DataForm block
  if form = 0x32 ∨ form = 0x16 then
    RT130_HEADER_SIZE + dataSize * rt130NumSamps block ≤ RT130_PKT_SIZE
  else if form = 0xc0 then
    steim1Count host (rt130Rev host) block DEFAULT_MSEED_BLOCKSIZE ≤ RT130_C0_MAX_SAMPS
  else if form = 0xc2 then
    steim2Count host (rt130Rev host) block DEFAULT_MSEED_BLOCKSIZE ≤ RT130_C2_MAX_SAMPS
  else True

/-- The packet buffer after the data pass has dealt with a packet of the trace. -/
def blockAfter (host : Endian) (block : List Byte) : List Byte :=
  if rt130DataForm block = 0xc0 then
    (steim1 host block INT_MIN DEFAULT_MSEED_BLOCKSIZE (rt130Rev host)).block
  else block

theorem dataPacket_block (host : Endian) (dataSize : ℕ) (s : DataPass) :
    (dataPacket host dataSize s).block = blockAfter host s.block := by
  unfold dataPacket blockAfter
  by_cases h32 : rt130DataForm s.block = 0x32 ∨ rt130DataForm s.block = 0x16
  · have hc0 : rt130DataForm s.block ≠ 0xc0 := by
      rcases h32 with h | h <;> rw [h] <;> decide
    simp only [if_pos h32, if_neg hc0, DataPass.log, DataPass.copy]
  · by_cases hc0 : rt130DataForm s.block = 0xc0
    · simp only [if_neg h32, if_pos hc0, DataPass.log, DataPass.copy]
      exact steim1_block host s.block s.lastX INT_MIN _ _
    · by_cases hc2 : rt130DataForm s.block = 0xc2
      · simp only [if_neg h32, if_neg hc0, if_pos hc2, DataPass.log, DataPass.copy]
      · simp only [if_neg h32, if_neg hc0, if_neg hc2]

theorem dataPacket_sampsRead (host : Endian) (dataSize : ℕ) (s : DataPass) :
    (dataPacket host dataSize s).sampsRead =
      s.sampsRead + BitVec.ofNat 32 (passCount host s.block) := by
  unfold dataPacket passCount
  by_cases h32 : rt130DataForm s.block = 0x32 ∨ rt130DataForm s.block = 0x16
  · simp only [if_pos h32, DataPass.log, DataPass.copy]
  · by_cases hc0 : rt130DataForm s.block = 0xc0
    · simp only [if_neg h32, if_pos hc0, DataPass.log, DataPass.copy, length_steim1]
    · by_cases hc2 : rt130DataForm s.block = 0xc2
      · simp only [if_neg h32, if_neg hc0, if_pos hc2, DataPass.log, DataPass.copy, length_steim2]
      · simp only [if_neg h32, if_neg hc0, if_neg hc2]
        exact (BitVec.add_zero _).symm

/-- What a packet adds to the log is in bounds exactly when the packet is sound, and it adds the
bytes of the samples of the packet. -/
theorem dataPacket_accesses (host : Endian) (dataSize : ℕ) (s : DataPass) :
    ∃ new, (dataPacket host dataSize s).accesses = s.accesses ++ new ∧
      ((∀ a ∈ new, a.InBounds) ↔ SoundPacket host dataSize s.block) ∧
      written new = dataSize * passCount host s.block := by
  have hreads : ∀ a ∈ decoderReads, a.InBounds := by
    intro a ha
    simp only [decoderReads, List.mem_cons, List.not_mem_nil, or_false] at ha
    rcases ha with rfl | rfl | rfl <;> simp only [Access.InBounds, RT130_PKT_SIZE] <;> decide
  have hdecode : ∀ limit count n, (∀ a ∈ decoderReads ++ [Access.decode limit count] ++
      [Access.writeData n (dataSize * count)], a.InBounds) ↔ count ≤ limit := by
    intro limit count n
    simp only [List.forall_mem_append, List.forall_mem_singleton, Access.InBounds, and_true]
    exact ⟨And.right, fun h => ⟨hreads, h⟩⟩
  unfold dataPacket SoundPacket passCount
  by_cases h32 : rt130DataForm s.block = 0x32 ∨ rt130DataForm s.block = 0x16
  · simp only [if_pos h32, DataPass.log, DataPass.copy, List.append_assoc]
    refine ⟨_, rfl, ?_, ?_⟩
    · simp only [List.forall_mem_append, List.forall_mem_singleton, Access.InBounds, and_true]
    · simp [written, Access.written]
  · by_cases hc0 : rt130DataForm s.block = 0xc0
    · simp only [if_neg h32, if_pos hc0, DataPass.log, DataPass.copy, List.append_assoc,
        length_steim1]
      refine ⟨_, rfl, ?_, ?_⟩
      · rw [← List.append_assoc]
        exact hdecode _ _ _
      · simp [written, Access.written, decoderReads]
    · by_cases hc2 : rt130DataForm s.block = 0xc2
      · simp only [if_neg h32, if_neg hc0, if_pos hc2, DataPass.log, DataPass.copy,
          List.append_assoc, length_steim2]
        refine ⟨_, rfl, ?_, ?_⟩
        · rw [← List.append_assoc]
          exact hdecode _ _ _
        · simp [written, Access.written, decoderReads]
      · simp only [if_neg h32, if_neg hc0, if_neg hc2]
        exact ⟨[], by simp, iff_of_true nofun trivial, rfl⟩

theorem length_framesLeft_le (host : Endian) (rev : Bool) (frames : List (List Quad)) :
    (framesLeft host rev frames).length ≤ 16 * frames.length := by
  induction frames with
  | nil => exact le_rfl
  | cons frame frames ih =>
    have hwords : (codedWords host rev frame).length ≤ 15 := by
      rw [codedWords, List.length_zip, List.length_tail, length_unpack]
      exact min_le_left _ _
    rw [framesLeft, List.flatMap_cons, List.length_append, List.length_cons, List.length_map,
      List.length_cons]
    have : (framesLeft host rev frames).length ≤ 16 * frames.length := ih
    rw [framesLeft] at this
    omega

/-- The data pass does not make the packet buffer longer. -/
theorem length_blockAfter_le {host : Endian} {block : List Byte}
    (h : block.length ≤ RT130_PKT_SIZE) : (blockAfter host block).length ≤ RT130_PKT_SIZE := by
  unfold blockAfter
  split_ifs
  · have hframes := length_framesLeft_le host (rt130Rev host) (blockFrames block 1024)
    rw [blockFrames, length_framesOf] at hframes
    have hbytes : ∀ qs : List Quad, (qs.flatMap Quad.bytes).length = 4 * qs.length := by
      intro qs
      rw [List.length_flatMap]
      simp only [Quad.length_bytes, List.map_const', List.sum_replicate, smul_eq_mul, mul_comm]
    simp only [steim1, doFrames32_words, List.length_append, List.length_take, List.length_drop,
      hbytes, DEFAULT_MSEED_BLOCKSIZE, blockFrames]
    unfold RT130_PKT_SIZE at h ⊢
    omega
  · exact h

/-- The packets of channel `chnNum` as the data pass finds them in the packet buffer. -/
def dataPackets (host : Endian) (chnNum : ℕ) : List Byte → List (List Byte) → List (List Byte)
  | _, [] => []
  | array, chunk :: chunks =>
    let block := readInto array chunk
    if packetType block = .DT ∧ rt130ChannelNum block = chnNum then
      block :: dataPackets host chnNum (blockAfter host block) chunks
    else dataPackets host chnNum block chunks

theorem dataStep_eq (host : Endian) (trace : RT130Trace) (s : DataPass) (chunk : List Byte) :
    dataStep host trace s chunk =
      let t := { s with block := readInto s.block chunk }
      if packetType t.block = .DT ∧ rt130ChannelNum t.block = hdrChannelNum trace then
        dataPacket host trace.dataSize t
      else t := by
  simp only [dataStep, rdPack]
  by_cases htype : packetType (readInto s.block chunk) = .DT
  · by_cases hchn : rt130ChannelNum (readInto s.block chunk) = hdrChannelNum trace
    · simp only [htype, hchn, and_self, if_true]
    · simp only [htype, hchn, and_false, if_false]
  · simp only [htype, false_and, if_false]

/-- A whole data pass: what it logs is in bounds exactly when all packets are sound, and it writes
the bytes of their samples. -/
theorem foldl_dataStep (host : Endian) (trace : RT130Trace) (s : DataPass)
    (chunks : List (List Byte)) :
    ∃ new, (chunks.foldl (dataStep host trace) s).accesses = s.accesses ++ new ∧
      ((∀ a ∈ new, a.InBounds) ↔
        ∀ p ∈ dataPackets host (hdrChannelNum trace) s.block chunks,
          SoundPacket host trace.dataSize p) ∧
      written new = trace.dataSize *
        ((dataPackets host (hdrChannelNum trace) s.block chunks).map (passCount host)).sum := by
  induction chunks generalizing s with
  | nil => exact ⟨[], by simp, iff_of_true nofun nofun, rfl⟩
  | cons chunk chunks ih =>
    rw [List.foldl_cons, dataStep_eq, dataPackets]
    by_cases hdt : packetType (readInto s.block chunk) = .DT ∧
        rt130ChannelNum (readInto s.block chunk) = hdrChannelNum trace
    · simp only [if_pos hdt]
      obtain ⟨new, hnew, hsound, hwritten⟩ :=
        dataPacket_accesses host trace.dataSize { s with block := readInto s.block chunk }
      obtain ⟨rest, hrest, hsounds, hwrittens⟩ :=
        ih (dataPacket host trace.dataSize { s with block := readInto s.block chunk })
      rw [dataPacket_block] at hsounds hwrittens
      refine ⟨new ++ rest, by rw [hrest, hnew, List.append_assoc], ?_, ?_⟩
      · rw [List.forall_mem_append, hsound, hsounds, List.forall_mem_cons]
      · rw [written_append, hwritten, hwrittens, List.map_cons, List.sum_cons, Nat.mul_add]
    · simp only [if_neg hdt]
      exact ih { s with block := readInto s.block chunk }

/-- The data packets of channel `chnNum`, as the data pass finds them. -/
def channelPackets (host : Endian) (block file : List Byte) (chnNum : ℕ) : List (List Byte) :=
  dataPackets host chnNum block (chunks file)

/-- Reading a trace of an RT130 file stays within bounds exactly when each of its packets is sound
and they hold no more samples than the header pass counted.  `block₁` and `block₂` are in the packet
buffers of the two passes at first. -/
theorem rt130_bounded_iff (host : Endian) (block₁ block₂ file : List Byte) (trace : RT130Trace)
    (htrace : trace ∈ getRt130Hedr block₁ file) :
    Bounded trace (getRt130Data host block₂ file trace).accesses ↔
      (∀ p ∈ channelPackets host block₂ file (hdrChannelNum trace),
        SoundPacket host trace.dataSize p) ∧
      (trace.dataSize * ((channelPackets host block₂ file (hdrChannelNum trace)).map
          (passCount host)).sum : ℤ) ≤
        trace.dataSize *
          (channelCount (hdrChannelNum trace) (headerDataPackets block₁ file)).toInt := by
  obtain ⟨new, hnew, hsound, hwritten⟩ :=
    foldl_dataStep host trace ⟨block₂, INT_MIN, 0, []⟩ (chunks file)
  have haccesses : (getRt130Data host block₂ file trace).accesses = new := hnew
  have hcount := numSamples_of_mem_hedr htrace
  rw [haccesses, ← hcount, channelPackets, ← hsound]
  have htotal : (written new : ℤ) = trace.dataSize *
      ((dataPackets host (hdrChannelNum trace) block₂ (chunks file)).map (passCount host)).sum := by
    rw [hwritten, Nat.cast_mul]
  rw [← htotal, mul_comm (trace.dataSize : ℤ)]
  exact ⟨fun h => ⟨h.inBounds, h.total⟩, fun h => ⟨h.1, h.2⟩⟩

/-! ## Where the data is written -/

/-- Every write to the data of the trace starts, as an `int`, where the one before it ended. -/
structure Contiguous (dataSize : ℕ) (s : DataPass) : Prop where
  next : s.sampsRead * BitVec.ofNat 32 dataSize = BitVec.ofNat 32 (written s.accesses)
  placed : ∀ before offset len after,
    s.accesses = before ++ .writeData offset len :: after →
      offset = (BitVec.ofNat 32 (written before)).toInt

theorem Contiguous.congr {dataSize : ℕ} {s t : DataPass} (h : Contiguous dataSize s)
    (hread : t.sampsRead = s.sampsRead) (haccesses : t.accesses = s.accesses) :
    Contiguous dataSize t :=
  ⟨by rw [hread, haccesses]; exact h.next, by rw [haccesses]; exact h.placed⟩

theorem Contiguous.log {dataSize : ℕ} {s : DataPass} (h : Contiguous dataSize s)
    (as : List Access) (has : ∀ a ∈ as, ∀ offset len, a ≠ .writeData offset len) :
    Contiguous dataSize (s.log as) := by
  have hnone : written as = 0 := by
    refine List.sum_eq_zero fun n hn => ?_
    obtain ⟨a, ha, rfl⟩ := List.mem_map.1 hn
    cases a with
    | writeData offset len => exact absurd rfl (has _ ha offset len)
    | _ => rfl
  refine ⟨?_, fun before offset len after heq => ?_⟩
  · rw [DataPass.log, written_append, hnone, Nat.add_zero]
    exact h.next
  · rw [DataPass.log, List.append_eq_append_iff] at heq
    rcases heq with ⟨mid, -, hmid⟩ | ⟨mid, hs, hmid⟩
    · have hmem : Access.writeData offset len ∈ as := by rw [hmid]; simp
      exact absurd rfl (has _ hmem offset len)
    · rcases mid with _ | ⟨a, mid⟩
      · have hmem : Access.writeData offset len ∈ as := by
          rw [List.nil_append] at hmid; rw [← hmid]; exact List.mem_cons_self
        exact absurd rfl (has _ hmem offset len)
      · obtain ⟨rfl, -⟩ := List.cons.inj hmid
        exact h.placed before offset len mid hs

theorem Contiguous.copy {dataSize : ℕ} {s : DataPass} (h : Contiguous dataSize s)
    (numSamps : ℕ) : Contiguous dataSize (s.copy dataSize numSamps) := by
  refine ⟨?_, fun before offset len after heq => ?_⟩
  · have hlen : written [Access.writeData (s.sampsRead * BitVec.ofNat 32 dataSize).toInt
        (dataSize * numSamps)] = dataSize * numSamps := by simp [written, Access.written]
    rw [DataPass.copy, written_append, hlen, BitVec.ofNat_add, ← h.next, BitVec.ofNat_mul,
      mul_comm (BitVec.ofNat 32 dataSize), ← add_mul]
  · rw [DataPass.copy, List.append_eq_append_iff] at heq
    rcases heq with ⟨mid, hb, hmid⟩ | ⟨mid, hs, hmid⟩
    · rcases mid with _ | ⟨a, mid⟩
      · rw [List.nil_append] at hmid
        obtain ⟨hwrite, -⟩ := List.cons.inj hmid
        rw [List.append_nil] at hb
        rw [hb, ← h.next]
        exact (Access.writeData.inj hwrite).1.symm
      · exact absurd (List.cons.inj hmid).2 (by simp)
    · rcases mid with _ | ⟨a, mid⟩
      · rw [List.nil_append] at hmid
        obtain ⟨hwrite, -⟩ := List.cons.inj hmid
        rw [List.append_nil] at hs
        rw [← hs, ← h.next]
        exact (Access.writeData.inj hwrite).1
      · obtain ⟨rfl, -⟩ := List.cons.inj hmid
        exact h.placed before offset len mid hs

theorem Contiguous.dataPacket {host : Endian} {dataSize : ℕ} {s : DataPass}
    (h : Contiguous dataSize s) : Contiguous dataSize (dataPacket host dataSize s) := by
  have hdecoder : ∀ limit count, ∀ a ∈ decoderReads ++ [Access.decode limit count],
      ∀ offset len, a ≠ .writeData offset len := by
    intro limit count a ha
    simp only [decoderReads, List.mem_append, List.mem_cons, List.not_mem_nil, or_false] at ha
    rcases ha with (rfl | rfl | rfl) | rfl <;> exact fun _ _ => nofun
  unfold PQL.dataPacket
  by_cases h32 : rt130DataForm s.block = 0x32 ∨ rt130DataForm s.block = 0x16
  · simp only [if_pos h32]
    refine (h.log _ fun a ha => ?_).copy _
    rw [List.mem_singleton.1 ha]
    exact fun _ _ => nofun
  · by_cases hc0 : rt130DataForm s.block = 0xc0
    · simp only [if_neg h32, if_pos hc0]
      generalize steim1 host s.block s.lastX DEFAULT_MSEED_BLOCKSIZE (rt130Rev host) = r
      have hlog := h.log _ (hdecoder RT130_C0_MAX_SAMPS r.data.length)
      refine Contiguous.copy ?_ r.data.length
      exact hlog.congr rfl rfl
    · by_cases hc2 : rt130DataForm s.block = 0xc2
      · simp only [if_neg h32, if_neg hc0, if_pos hc2]
        generalize steim2 host s.block s.lastX DEFAULT_MSEED_BLOCKSIZE (rt130Rev host) = r
        have hlog := h.log _ (hdecoder RT130_C2_MAX_SAMPS r.1.length)
        refine Contiguous.copy ?_ r.1.length
        exact hlog.congr rfl rfl
      · simp only [if_neg h32, if_neg hc0, if_neg hc2]
        exact h

theorem getRt130Data_contiguous (host : Endian) (block file : List Byte) (trace : RT130Trace) :
    Contiguous trace.dataSize (getRt130Data host block file trace) := by
  have hrun : ∀ (cs : List (List Byte)) (s : DataPass), Contiguous trace.dataSize s →
      Contiguous trace.dataSize (cs.foldl (dataStep host trace) s) := by
    intro cs
    induction cs with
    | nil => exact fun _ h => h
    | cons c cs ih =>
      intro s h
      have hblock : Contiguous trace.dataSize { s with block := readInto s.block c } :=
        h.congr rfl rfl
      rw [List.foldl_cons, dataStep_eq]
      refine ih _ ?_
      simp only []
      split_ifs
      · exact hblock.dataPacket
      · exact hblock
  exact hrun _ _ ⟨by simp [written], fun before offset len after heq => by simp at heq⟩

/-- Within the bounds, and with the size of the data an `int`, every write lies in the data. -/
theorem Bounded.write_mem_data {trace : RT130Trace} {s : DataPass}
    (h : Bounded trace s.accesses) (hc : Contiguous trace.dataSize s)
    (hsize : trace.numSamples.toInt * trace.dataSize < 2 ^ 31) {offset : ℤ} {len : ℕ}
    (hmem : Access.writeData offset len ∈ s.accesses) :
    0 ≤ offset ∧ offset + len ≤ trace.numSamples.toInt * trace.dataSize := by
  obtain ⟨before, after, heq⟩ := List.append_of_mem hmem
  have htotal := h.total
  have hsplit : written s.accesses = written before + (len + written after) := by
    rw [heq, written_append]
    rfl
  have hbefore : (BitVec.ofNat 32 (written before)).toInt = written before := by
    rw [BitVec.toInt_eq_toNat_of_lt (by rw [BitVec.toNat_ofNat]; omega), BitVec.toNat_ofNat]
    omega
  rw [hc.placed before offset len after heq, hbefore]
  omega

/-! ## Files -/

/-- A packet of one repeated byte after its header. -/
def samplePacket (letters : List Byte) (count : List Byte) (form body : Byte) : List Byte :=
  letters ++ List.replicate 18 0 ++ count ++ [0, form] ++ List.replicate 1000 body

/-- An event header and a data packet of channel one. -/
def sampleFile (count : List Byte) (form body : Byte) : List Byte :=
  samplePacket [0x45, 0x48] [0, 0] form 0 ++ samplePacket [0x44, 0x54] count form body

theorem chunks_sampleFile (b0 b1 form body : Byte) :
    chunks (sampleFile [b0, b1] form body) =
      [samplePacket [0x45, 0x48] [0, 0] form 0, samplePacket [0x44, 0x54] [b0, b1] form body] := by
  have hlen : ∀ l0 l1 c0 c1 f b, (samplePacket [l0, l1] [c0, c1] f b).length = RT130_PKT_SIZE := by
    intro l0 l1 c0 c1 f b
    simp only [samplePacket, List.length_append, List.length_replicate, List.length_cons,
      List.length_nil]
    rfl
  have hlast := chunks_append (samplePacket [0x44, 0x54] [b0, b1] form body) [] (hlen ..)
  rw [List.append_nil, chunks_nil] at hlast
  rw [sampleFile, chunks_append _ _ (hlen ..), hlast]

theorem channelPackets_sampleFile (host : Endian) (b0 b1 form body : Byte) (chnNum : ℕ) :
    channelPackets host [] (sampleFile [b0, b1] form body) chnNum =
      dataPackets host chnNum []
        [samplePacket [0x45, 0x48] [0, 0] form 0,
          samplePacket [0x44, 0x54] [b0, b1] form body] := by
  rw [channelPackets, chunks_sampleFile]

/-- Two samples of two bytes stay within bounds. -/
theorem rt130_bounded_sampleFile :
    Bounded ⟨1, 1, 2, 2⟩
      (getRt130Data .littleEnd [] (sampleFile [0, 2] 0x16 0) ⟨1, 1, 2, 2⟩).accesses := by
  have hmem : ⟨1, 1, 2, 2⟩ ∈ getRt130Hedr [] (sampleFile [0, 2] 0x16 0) := by
    simp only [getRt130Hedr, chunks_sampleFile]
    decide +kernel
  refine (rt130_bounded_iff .littleEnd [] [] _ _ hmem).2 ⟨?_, ?_⟩
  · rw [channelPackets_sampleFile]
    simp only [SoundPacket]
    decide +kernel
  · rw [channelPackets_sampleFile, headerDataPackets, chunks_sampleFile]
    decide +kernel

/-- A packet that announces 900 samples, as its header does, makes the decoder write past the packet
buffer. -/
theorem rt130_decoder_overflows :
    idRt130 [] [] (sampleFile [9, 0] 0xc0 0x55) = [⟨1, 1, 4, 900⟩] ∧
      Access.decode RT130_C0_MAX_SAMPS 900 ∈
        (getRt130Data .littleEnd [] (sampleFile [9, 0] 0xc0 0x55) ⟨1, 1, 4, 900⟩).accesses ∧
      ¬ Bounded ⟨1, 1, 4, 900⟩
        (getRt130Data .littleEnd [] (sampleFile [9, 0] 0xc0 0x55) ⟨1, 1, 4, 900⟩).accesses := by
  have hdecode : Access.decode RT130_C0_MAX_SAMPS 900 ∈
      (getRt130Data .littleEnd [] (sampleFile [9, 0] 0xc0 0x55) ⟨1, 1, 4, 900⟩).accesses := by
    have hform : rt130DataForm (samplePacket [0x44, 0x54] [9, 0] 0xc0 0x55) = 0xc0 := by
      decide +kernel
    have hcount : steim1Count .littleEnd (rt130Rev .littleEnd)
        (samplePacket [0x44, 0x54] [9, 0] 0xc0 0x55) DEFAULT_MSEED_BLOCKSIZE = 900 := by
      decide +kernel
    have hread : readInto (samplePacket [0x45, 0x48] [0, 0] 0xc0 0)
        (samplePacket [0x44, 0x54] [9, 0] 0xc0 0x55) =
          samplePacket [0x44, 0x54] [9, 0] 0xc0 0x55 := by
      decide +kernel
    have hskip : dataStep .littleEnd ⟨1, 1, 4, 900⟩ ⟨[], INT_MIN, 0, []⟩
        (samplePacket [0x45, 0x48] [0, 0] 0xc0 0) =
          ⟨samplePacket [0x45, 0x48] [0, 0] 0xc0 0, INT_MIN, 0, []⟩ := by
      rw [dataStep_eq, readInto, List.drop_nil, List.append_nil]
      exact if_neg (by decide +kernel)
    rw [getRt130Data, chunks_sampleFile, List.foldl_cons, List.foldl_cons, List.foldl_nil, hskip,
      dataStep_eq]
    simp only [hread]
    rw [if_pos (by decide +kernel)]
    simp only [dataPacket, hform, DataPass.log, DataPass.copy, length_steim1, hcount]
    decide +kernel
  refine ⟨?_, hdecode, fun h => absurd (h.inBounds _ hdecode) ?_⟩
  · simp only [idRt130, rt130Check, getRt130Hedr, chunks_sampleFile]
    decide +kernel
  · simp only [Access.InBounds]
    decide

end PQL
