import PQL.Reftek.Demux

/-!
# RT130 files that are cut off

A file may end in the middle of a packet.  `fread` then returns the bytes that are left, and the
readers take the packet buffer for a packet, with the end of the packet before it still in place.
An RT130 file is delivered as its complete packets say exactly if that buffer is no data packet or
one without samples (`rt130_deliversWhole_iff`).
-/

namespace PQL

/-! ## Readers -/

/-- The complete packets of a file. -/
def wholePart (size : ℕ) (file : List Byte) : List Byte := file.take (file.length / size * size)

/-- The packet that is cut off. -/
def cutPart (size : ℕ) (file : List Byte) : List Byte := file.drop (file.length / size * size)

theorem wholePart_append_cutPart (size : ℕ) (file : List Byte) :
    wholePart size file ++ cutPart size file = file := List.take_append_drop _ _

theorem length_wholePart (size : ℕ) (file : List Byte) :
    (wholePart size file).length = file.length / size * size := by
  rw [wholePart, List.length_take, Nat.min_eq_left (Nat.div_mul_le_self _ _)]

theorem length_cutPart_lt {size : ℕ} (hsize : 0 < size) (file : List Byte) :
    (cutPart size file).length < size := by
  have hmod := Nat.mod_lt file.length hsize
  have hdiv := Nat.div_add_mod' file.length size
  rw [cutPart, List.length_drop]
  omega

/-- What the two passes of a reader deliver: the traces, if they stay within bounds, and for each
trace the number of its samples and its data. -/
structure Reader (T D : Type) where
  hedr : List Byte → Option (List T)
  count : List Byte → T → ℕ
  data : List Byte → T → D

/-- A file is delivered as its complete packets are. -/
structure Reader.DeliversWhole {T D : Type} (r : Reader T D) (size : ℕ) (file : List Byte) :
    Prop where
  hedr : r.hedr file = r.hedr (wholePart size file)
  count : ∀ ts, r.hedr (wholePart size file) = some ts → ∀ t ∈ ts,
    r.count file t = r.count (wholePart size file) t
  data : ∀ ts, r.hedr (wholePart size file) = some ts → ∀ t ∈ ts,
    r.data file t = r.data (wholePart size file) t

/-- A file without a cut packet is delivered as it is. -/
theorem Reader.deliversWhole_of_nil {T D : Type} (r : Reader T D) {size : ℕ} {file : List Byte}
    (h : cutPart size file = []) : r.DeliversWhole size file := by
  have hwhole : wholePart size file = file := by
    have happend := wholePart_append_cutPart size file
    rwa [h, List.append_nil] at happend
  constructor <;> rw [hwhole] <;> exact fun _ _ _ _ => rfl

/-- The passes over an RT130 file, with `b₁` and `b₂` in their packet buffers at first. -/
def rt130Reader (host : Endian) (b₁ b₂ : PacketBuffer) :
    Reader RT130Trace (Option (Word × List Byte)) where
  hedr file := some (getRt130Hedr b₁.bytes file)
  count file t := (getRt130Data host b₂.bytes file t).sampsRead.toNat
  data file t := readRt130Data host b₂.bytes file t

/-- What a packet leaves in the buffer of a data pass for the channel number `n`. -/
def leftBlock (host : Endian) (n : ℕ) (packet : List Byte) : List Byte :=
  if packetType packet = .DT ∧ rt130ChannelNum packet = n then blockAfter host packet else packet

/-- The packet that a cut packet becomes with the end of the packet before it. -/
def mergedPacket (b : PacketBuffer) (file : List Byte) : List Byte :=
  readInto ((chunks (wholePart RT130_PKT_SIZE file)).getLastD b.bytes)
    (cutPart RT130_PKT_SIZE file)

/-- The same in the buffer of a data pass for the channel number `n`. -/
def mergedBlock (host : Endian) (n : ℕ) (b : PacketBuffer) (file : List Byte) : List Byte :=
  readInto (leftBlock host n ((chunks (wholePart RT130_PKT_SIZE file)).getLastD b.bytes))
    (cutPart RT130_PKT_SIZE file)

/-- The merged packet is a data packet of a channel that the file has, and neither pass finds a
sample in it. -/
structure NoSamples (host : Endian) (b : PacketBuffer) (file : List Byte) : Prop where
  stated : rt130NumSamps (mergedPacket b file) = 0
  known : ∃ p ∈ chunks (wholePart RT130_PKT_SIZE file), packetType p = .DT ∧
    rt130ChannelNum p = rt130ChannelNum (mergedPacket b file)
  decoded : passCount host (mergedBlock host (rt130ChannelNum (mergedPacket b file)) b file) = 0

/-- The cut packet does no harm: there is none, it becomes no data packet, or it has no samples. -/
def HarmlessCut (host : Endian) (b : PacketBuffer) (file : List Byte) : Prop :=
  cutPart RT130_PKT_SIZE file = [] ∨ packetType (mergedPacket b file) ≠ .DT ∨ NoSamples host b file

/-! ## The packets of a cut file -/

theorem chunks_whole {n : ℕ} {whole : List Byte} (h : whole.length = n * RT130_PKT_SIZE)
    (tail : List Byte) :
    chunks (whole ++ tail) = chunks whole ++ chunks tail ∧
      ∀ c ∈ chunks whole, c.length = RT130_PKT_SIZE := by
  induction n generalizing whole with
  | zero =>
    rw [Nat.zero_mul] at h
    rw [List.eq_nil_of_length_eq_zero h, chunks_nil]
    exact ⟨rfl, fun c hc => absurd hc List.not_mem_nil⟩
  | succ n ih =>
    rw [Nat.add_mul, Nat.one_mul] at h
    have hfirst : (whole.take RT130_PKT_SIZE).length = RT130_PKT_SIZE := by
      rw [List.length_take]
      omega
    have hrest : (whole.drop RT130_PKT_SIZE).length = n * RT130_PKT_SIZE := by
      rw [List.length_drop]
      omega
    obtain ⟨happend, hlength⟩ := ih hrest
    rw [← List.take_append_drop RT130_PKT_SIZE whole, List.append_assoc,
      chunks_append _ _ hfirst, chunks_append _ _ hfirst, happend]
    exact ⟨rfl, List.forall_mem_cons.2 ⟨hfirst, hlength⟩⟩

theorem chunks_cut {tail : List Byte} (hne : tail ≠ []) (h : tail.length < RT130_PKT_SIZE) :
    chunks tail = [tail] := by
  rw [chunks, if_neg hne, List.take_of_length_le h.le, List.drop_of_length_le h.le, chunks_nil]

/-- The reads of a file with a cut packet. -/
theorem chunks_eq {file : List Byte} (hcut : cutPart RT130_PKT_SIZE file ≠ []) :
    chunks file = chunks (wholePart RT130_PKT_SIZE file) ++ [cutPart RT130_PKT_SIZE file] ∧
      ∀ c ∈ chunks (wholePart RT130_PKT_SIZE file), c.length = RT130_PKT_SIZE := by
  obtain ⟨happend, hlength⟩ :=
    chunks_whole (length_wholePart RT130_PKT_SIZE file) (cutPart RT130_PKT_SIZE file)
  rw [wholePart_append_cutPart, chunks_cut hcut (length_cutPart_lt (by decide) file)] at happend
  exact ⟨happend, hlength⟩

/-- The fields that are read from a packet lie in its header. -/
theorem fields_congr {b c : List Byte}
    (h : b.take RT130_HEADER_SIZE = c.take RT130_HEADER_SIZE) :
    packetType b = packetType c ∧ rt130ChannelNum b = rt130ChannelNum c := by
  have hget : ∀ i < RT130_HEADER_SIZE, b.getD i 0 = c.getD i 0 := by
    intro i hi
    have hi' := congrArg (fun l => l[i]?) h
    rw [List.getElem?_take_of_lt hi, List.getElem?_take_of_lt hi] at hi'
    rw [List.getD_eq_getElem?_getD, List.getD_eq_getElem?_getD, hi']
  have hdrop : ∀ i n, i + n ≤ RT130_HEADER_SIZE → (b.drop i).take n = (c.drop i).take n := by
    intro i n hi
    have htake : ∀ l : List Byte,
        (l.drop i).take n = ((l.take RT130_HEADER_SIZE).drop i).take n := by
      intro l
      rw [List.drop_take, List.take_take, Nat.min_eq_left (by omega)]
    rw [htake, h, ← htake]
  refine ⟨?_, ?_⟩
  · rw [packetType, packetType, convertRefType, convertRefType, hget 0 (by decide),
      hget 1 (by decide)]
  · simp only [rt130ChannelNum, sbcdhx, Nat.reduceAdd, Nat.reduceDiv]
    rw [hdrop 18 1 (by decide), hdrop 19 1 (by decide)]

theorem take_readInto {b c : List Byte} {n : ℕ} (h : b.take n = c.take n) (chunk : List Byte) :
    (readInto b chunk).take n = (readInto c chunk).take n := by
  have hdrop : ∀ l : List Byte, (l.drop chunk.length).take (n - chunk.length) =
      (l.take n).drop chunk.length := fun l => List.drop_take.symm
  rw [readInto, readInto, List.take_append, List.take_append, hdrop, hdrop, h]

theorem take_leftBlock (host : Endian) (n : ℕ) {packet : List Byte}
    (h : packet.length = RT130_PKT_SIZE) :
    (leftBlock host n packet).take RT130_HEADER_SIZE = packet.take RT130_HEADER_SIZE := by
  unfold leftBlock blockAfter
  split_ifs
  · have hlen : RT130_HEADER_SIZE ≤ (packet.take 64).length := by
      rw [List.length_take, h]
      decide
    simp only [steim1]
    rw [List.append_assoc, List.take_append_of_le_length hlen, List.take_take]
    rfl
  · rfl
  · rfl

/-- The merged packet has the same fields in both passes. -/
theorem fields_mergedBlock (host : Endian) (n : ℕ) (b : PacketBuffer) (file : List Byte) :
    packetType (mergedBlock host n b file) = packetType (mergedPacket b file) ∧
      rt130ChannelNum (mergedBlock host n b file) = rt130ChannelNum (mergedPacket b file) := by
  refine fields_congr (take_readInto (take_leftBlock host n ?_) _)
  have hlength := (chunks_whole (length_wholePart RT130_PKT_SIZE file) []).2
  cases hlast : (chunks (wholePart RT130_PKT_SIZE file)).getLast? with
  | none => rw [List.getLastD_eq_getLast?, hlast]; exact b.length_bytes
  | some p => rw [List.getLastD_eq_getLast?, hlast]; exact hlength p (List.mem_of_getLast? hlast)

/-! ## The header pass -/

theorem foldl_hedrStep_snd {ps : List (List Byte)} (hps : ∀ p ∈ ps, p.length = RT130_PKT_SIZE)
    {s : List ChanInfo × List Byte} (hs : s.2.length ≤ RT130_PKT_SIZE) :
    (ps.foldl hedrStep s).2 = ps.getLastD s.2 := by
  induction ps generalizing s with
  | nil => rfl
  | cons p ps ih =>
    obtain ⟨hp, hps⟩ := List.forall_mem_cons.1 hps
    have hstep : (hedrStep s p).2 = p := by
      simp only [hedrStep, rdPack, readInto_packet hs hp]
      split <;> rfl
    rw [List.foldl_cons, ih hps (by rw [hstep]; exact hp.le), hstep, List.getLastD_cons]

theorem mem_chnNum_addPacket (channels : List ChanInfo) (b : List Byte) (n : ℕ) :
    n ∈ (addPacket channels b).map ChanInfo.chnNum ↔
      n = rt130ChannelNum b ∨ n ∈ channels.map ChanInfo.chnNum := by
  have hmap := map_updateFirst (fun c : ChanInfo => decide (c.chnNum = rt130ChannelNum b))
    (fun c => { c with numSamps := c.numSamps + BitVec.ofNat 32 (rt130NumSamps b) })
    ChanInfo.chnNum fun _ => rfl
  rw [addPacket, hmap]
  split_ifs with hany
  · rw [List.any_eq_true] at hany
    obtain ⟨c, hc, hnum⟩ := hany
    refine (or_iff_right_of_imp fun h => ?_).symm
    rw [h, ← of_decide_eq_true hnum]
    exact List.mem_map_of_mem hc
  · rw [List.map_cons, List.mem_cons]
    rfl

/-- The channel numbers that the header pass has met. -/
theorem mem_chnNum_foldl_hedrStep {ps : List (List Byte)}
    (hps : ∀ p ∈ ps, p.length = RT130_PKT_SIZE) {s : List ChanInfo × List Byte}
    (hs : s.2.length ≤ RT130_PKT_SIZE) (n : ℕ) :
    n ∈ (ps.foldl hedrStep s).1.map ChanInfo.chnNum ↔
      n ∈ s.1.map ChanInfo.chnNum ∨ ∃ p ∈ ps, packetType p = .DT ∧ rt130ChannelNum p = n := by
  induction ps generalizing s with
  | nil => simp
  | cons p ps ih =>
    obtain ⟨hp, hps⟩ := List.forall_mem_cons.1 hps
    rw [List.foldl_cons, List.exists_mem_cons_iff]
    by_cases hdt : packetType p = .DT
    · have hstep : hedrStep s p = (addPacket s.1 p, p) := by
        simp only [hedrStep, rdPack, readInto_packet hs hp, hdt]
      rw [hstep, ih hps hp.le, mem_chnNum_addPacket, and_iff_right hdt, eq_comm (a := n), or_assoc,
        or_left_comm]
    · have hstep : hedrStep s p = (s.1, p) := by
        simp only [hedrStep, rdPack, readInto_packet hs hp]
      rw [hstep, ih hps hp.le]
      simp only [hdt, false_and, false_or]

/-- Two bytes of decimals are less than `2 ^ 15`. -/
theorem rt130NumSamps_lt (b : List Byte) : rt130NumSamps b < 2 ^ 32 := by
  have hdigits : ∀ (l : List Byte) (num : ℕ), l.length ≤ 2 →
      l.foldl (fun num b => 10 * (10 * num + b.toNat / 16) + b.toNat % 16) num ≤
        10000 * num + 16665 := by
    intro l num hl
    rcases l with _ | ⟨c, _ | ⟨d, _ | ⟨e, l⟩⟩⟩
    · exact Nat.le_add_right_of_le (Nat.le_mul_of_pos_left num (by norm_num))
    · have hc := c.isLt
      rw [List.foldl_cons, List.foldl_nil]
      omega
    · have hc := c.isLt
      have hd := d.isLt
      rw [List.foldl_cons, List.foldl_cons, List.foldl_nil]
      omega
    · simp at hl
  have hle := hdigits ((b.drop 20).take 2) 0 (List.length_take_le 2 _)
  exact lt_of_le_of_lt hle (by norm_num)

theorem ofNat_eq_zero_iff {n : ℕ} (h : n < 2 ^ 32) : BitVec.ofNat 32 n = 0 ↔ n = 0 := by
  rw [← BitVec.toNat_inj, BitVec.toNat_ofNat, Nat.mod_eq_of_lt h]
  rfl

/-- A data packet adds nothing to the traces exactly if it has no samples and its channel is known.
-/
theorem map_addPacket_iff (channels : List ChanInfo) (b : List Byte) :
    (addPacket channels b).map makeRt130Trace = channels.map makeRt130Trace ↔
      rt130NumSamps b = 0 ∧ rt130ChannelNum b ∈ channels.map ChanInfo.chnNum := by
  have hany : channels.any (fun c => c.chnNum = rt130ChannelNum b) = true ↔
      rt130ChannelNum b ∈ channels.map ChanInfo.chnNum := by
    simp only [List.any_eq_true, decide_eq_true_eq, List.mem_map]
  rw [addPacket]
  by_cases hb : rt130ChannelNum b ∈ channels.map ChanInfo.chnNum
  · obtain ⟨c, hc⟩ := Option.isSome_iff_exists.1
      (List.find?_isSome.2 (List.any_eq_true.1 (hany.2 hb)))
    rw [if_pos (hany.2 hb), and_iff_left hb, ← List.filterMap_eq_map,
      filterMap_updateFirst_iff _ hc, ← ofNat_eq_zero_iff (rt130NumSamps_lt b)]
    constructor
    · intro h
      have hnum : c.numSamps + BitVec.ofNat 32 (rt130NumSamps b) = c.numSamps :=
        congrArg RT130Trace.numSamples (Option.some.inj h)
      exact left_eq_add.1 hnum.symm
    · intro h
      show some (makeRt130Trace
        { c with numSamps := c.numSamps + BitVec.ofNat 32 (rt130NumSamps b) }) = _
      rw [h, add_zero]
      rfl
  · rw [if_neg fun h => hb (hany.1 h)]
    refine iff_of_false (fun h => ?_) fun h => hb h.2
    have hlen := congrArg List.length h
    rw [List.length_map, length_updateFirst, List.length_cons, List.length_map] at hlen
    exact absurd hlen (Nat.succ_ne_self _)

/-- The header pass of a cut file finds the traces of its complete packets exactly if the merged
packet is no data packet, or has no samples and a known channel. -/
theorem hedr_cut_iff (b : PacketBuffer) {file : List Byte}
    (hcut : cutPart RT130_PKT_SIZE file ≠ []) :
    getRt130Hedr b.bytes file = getRt130Hedr b.bytes (wholePart RT130_PKT_SIZE file) ↔
      packetType (mergedPacket b file) ≠ .DT ∨ (rt130NumSamps (mergedPacket b file) = 0 ∧
        ∃ p ∈ chunks (wholePart RT130_PKT_SIZE file), packetType p = .DT ∧
          rt130ChannelNum p = rt130ChannelNum (mergedPacket b file)) := by
  obtain ⟨hchunks, hlength⟩ := chunks_eq hcut
  have hbuffer := foldl_hedrStep_snd hlength (s := ([], b.bytes)) b.length_bytes.le
  have hknown := mem_chnNum_foldl_hedrStep hlength (s := ([], b.bytes)) b.length_bytes.le
    (rt130ChannelNum (mergedPacket b file))
  rw [List.map_nil, or_iff_right List.not_mem_nil] at hknown
  have hstep : ((chunks file).foldl hedrStep ([], b.bytes)).1 =
      if packetType (mergedPacket b file) = .DT then
        addPacket ((chunks (wholePart RT130_PKT_SIZE file)).foldl hedrStep ([], b.bytes)).1
          (mergedPacket b file)
      else ((chunks (wholePart RT130_PKT_SIZE file)).foldl hedrStep ([], b.bytes)).1 := by
    rw [hchunks, List.foldl_append, List.foldl_cons, List.foldl_nil, hedrStep, rdPack, hbuffer]
    dsimp only
    rw [← mergedPacket]
    split_ifs with hdt
    · rw [hdt]
    · split
      · exact absurd ‹_› hdt
      · rfl
  rw [getRt130Hedr_eq, getRt130Hedr_eq, List.reverse_inj, hstep, ← hknown]
  by_cases hdt : packetType (mergedPacket b file) = .DT
  · rw [if_pos hdt, map_addPacket_iff, or_iff_right (not_not.2 hdt)]
  · rw [if_neg hdt]
    exact iff_of_true rfl (Or.inl hdt)

/-! ## The data pass -/

section DataPass

variable (host : Endian) (t : RT130Trace)

theorem passCount_lt (block : List Byte) : passCount host block < 2 ^ 32 := by
  have hwords : ((blockFrames block DEFAULT_MSEED_BLOCKSIZE).flatMap
      (codedWords host (rt130Rev host))).length ≤ 15 * 15 := by
    have hframe : ∀ frame, (codedWords host (rt130Rev host) frame).length ≤ 15 := by
      intro frame
      rw [codedWords, List.length_zip, List.length_tail, length_unpack]
      exact min_le_left _ _
    have hsum := List.sum_le_card_nsmul ((blockFrames block DEFAULT_MSEED_BLOCKSIZE).map
      fun frame => (codedWords host (rt130Rev host) frame).length) 15 fun n hn => by
        obtain ⟨frame, -, rfl⟩ := List.mem_map.1 hn
        exact hframe frame
    rw [List.length_map, blockFrames, length_framesOf, smul_eq_mul] at hsum
    rw [List.length_flatMap]
    exact hsum
  have hcount : ∀ (f : BitVec 2 × Quad → ℕ), (∀ cw, f cw ≤ 7) →
      (((blockFrames block DEFAULT_MSEED_BLOCKSIZE).flatMap
        (codedWords host (rt130Rev host))).map f).sum < 2 ^ 32 := by
    intro f hf
    have hsum := List.sum_le_card_nsmul (((blockFrames block DEFAULT_MSEED_BLOCKSIZE).flatMap
      (codedWords host (rt130Rev host))).map f) 7 fun n hn => by
        obtain ⟨cw, -, rfl⟩ := List.mem_map.1 hn
        exact hf cw
    rw [List.length_map, smul_eq_mul] at hsum
    omega
  unfold passCount
  dsimp only
  split_ifs
  · exact rt130NumSamps_lt block
  · exact hcount _ fun cw => by unfold announced; split_ifs <;> omega
  · exact hcount _ fun cw => by unfold announced2; split_ifs <;> omega
  · exact Nat.two_pow_pos 32

/-- A packet without samples copies nothing. -/
theorem copied_of_zero {block : List Byte} (h : passCount host block = 0) (dataSize : ℕ)
    (lastX : Word) : copied host dataSize block lastX = some [] := by
  have harray : ∀ (limit : ℕ) (data : List Word), data.length = 0 →
      arrayBytes host limit dataSize data = some [] := by
    intro limit data hdata
    rw [arrayBytes, hdata, if_pos (Nat.zero_le limit), Nat.mul_zero, List.take_zero]
  unfold passCount at h
  unfold copied
  dsimp only at h ⊢
  split_ifs at h ⊢ with h32 hfit hc0 hc2
  · rw [h, Nat.mul_zero, List.take_zero]
  · rw [h, Nat.mul_zero] at hfit
    exact absurd (by decide) hfit
  · exact harray _ _ ((length_steim1 host block lastX _ _).trans h)
  · exact harray _ _ ((length_steim2 host block lastX _ _).trans h)
  · rfl

/-- The packet buffer after the complete packets. -/
theorem foldl_dataStep_block {ps : List (List Byte)} (hps : ∀ p ∈ ps, p.length = RT130_PKT_SIZE)
    {s : DataPass} (hs : s.block.length ≤ RT130_PKT_SIZE) (hne : ps ≠ []) (b : List Byte) :
    (ps.foldl (dataStep host t) s).block = leftBlock host (hdrChannelNum t) (ps.getLastD b) := by
  induction ps using List.reverseRecOn with
  | nil => exact absurd rfl hne
  | append_singleton ps p ih =>
    have hp : p.length = RT130_PKT_SIZE := hps p (by simp)
    have hblock : (ps.foldl (dataStep host t) s).block.length ≤ RT130_PKT_SIZE := by
      rcases eq_or_ne ps [] with rfl | hne'
      · exact hs
      · have hps' : ∀ q ∈ ps, q.length = RT130_PKT_SIZE :=
          fun q hq => hps q (List.mem_append_left [p] hq)
        rw [ih hps' hne']
        have hlast : (ps.getLastD b).length = RT130_PKT_SIZE := by
          rw [List.getLastD_eq_getLast?, List.getLast?_eq_some_getLast hne']
          exact hps' _ (List.getLast_mem hne')
        unfold leftBlock
        split_ifs
        · exact length_blockAfter_le hlast.le
        · exact hlast.le
    rw [List.foldl_append, List.foldl_cons, List.foldl_nil, dataStep_eq, List.getLastD_concat]
    dsimp only
    rw [readInto_packet hblock hp, leftBlock]
    split_ifs
    · rw [dataPacket_block]
    · rfl

variable {host t}

/-- A cut packet of another channel, or one without samples, is passed over. -/
theorem fillDataStep_of_harmless {s : DataPass × List Byte} {chunk : List Byte}
    (h : packetType (readInto s.1.block chunk) ≠ .DT ∨
      rt130ChannelNum (readInto s.1.block chunk) ≠ hdrChannelNum t ∨
      passCount host (readInto s.1.block chunk) = 0) :
    (fillDataStep host t s chunk).map (fun r => (r.1.sampsRead, r.2)) =
      some (s.1.sampsRead, s.2) := by
  simp only [fillDataStep, rdPack]
  by_cases htype : packetType (readInto s.1.block chunk) = .DT
  · by_cases hnum : rt130ChannelNum (readInto s.1.block chunk) = hdrChannelNum t
    · have hzero := (h.resolve_left (not_not.2 htype)).resolve_left (not_not.2 hnum)
      simp only [htype, if_pos hnum, fillPacket, copied_of_zero host hzero, Option.bind_some,
        storeAll, Option.map_some, dataPacket_sampsRead, hzero]
      exact congrArg (fun n => some (n, s.2)) (BitVec.add_zero _)
    · simp only [htype, hnum, if_false, Option.map_some]
  · split
    · exact absurd ‹_› htype
    · rfl

theorem dataStep_sampsRead (s : DataPass) (chunk : List Byte) :
    (dataStep host t s chunk).sampsRead =
      if packetType (readInto s.block chunk) = .DT ∧
          rt130ChannelNum (readInto s.block chunk) = hdrChannelNum t then
        s.sampsRead + BitVec.ofNat 32 (passCount host (readInto s.block chunk))
      else s.sampsRead := by
  rw [dataStep_eq]
  dsimp only
  split_ifs
  · rw [dataPacket_sampsRead]
  · rfl

/-- The data pass of a cut file reads what it reads from the complete packets if the merged packet
is not for the trace or has no samples. -/
theorem data_cut {b : PacketBuffer} {file : List Byte} (hcut : cutPart RT130_PKT_SIZE file ≠ [])
    (hne : chunks (wholePart RT130_PKT_SIZE file) ≠ [])
    (h : packetType (mergedPacket b file) ≠ .DT ∨
      rt130ChannelNum (mergedPacket b file) ≠ hdrChannelNum t ∨
      passCount host (mergedBlock host (hdrChannelNum t) b file) = 0) (b₂ : PacketBuffer) :
    (getRt130Data host b₂.bytes file t).sampsRead =
        (getRt130Data host b₂.bytes (wholePart RT130_PKT_SIZE file) t).sampsRead ∧
      readRt130Data host b₂.bytes file t =
        readRt130Data host b₂.bytes (wholePart RT130_PKT_SIZE file) t := by
  obtain ⟨hchunks, hlength⟩ := chunks_eq hcut
  have hblock : ∀ s : DataPass, s = ⟨b₂.bytes, INT_MIN, 0, []⟩ →
      readInto ((chunks (wholePart RT130_PKT_SIZE file)).foldl (dataStep host t) s).block
        (cutPart RT130_PKT_SIZE file) = mergedBlock host (hdrChannelNum t) b file := by
    rintro s rfl
    rw [foldl_dataStep_block host t hlength b₂.length_bytes.le hne b.bytes, mergedBlock]
  obtain ⟨htype, hnum⟩ := fields_mergedBlock host (hdrChannelNum t) b file
  rw [← htype, ← hnum, ← hblock _ rfl] at h
  constructor
  · rw [getRt130Data, hchunks, List.foldl_append, List.foldl_cons, List.foldl_nil,
      dataStep_sampsRead, getRt130Data]
    split_ifs with hboth
    · rw [(h.resolve_left (not_not.2 hboth.1)).resolve_left (not_not.2 hboth.2)]
      exact BitVec.add_zero _
    · rfl
  · rw [readRt130Data, hchunks, List.foldlM_append, readRt130Data]
    cases hrun : (chunks (wholePart RT130_PKT_SIZE file)).foldlM (fillDataStep host t)
      (⟨b₂.bytes, INT_MIN, 0, []⟩, List.replicate (t.numSamples.toNat * t.dataSize) 0) with
    | none => rfl
    | some r =>
      rw [← foldlM_fillDataStep_fst hrun] at h
      have hstep := fillDataStep_of_harmless (s := r) h
      show ((fillDataStep host t r (cutPart RT130_PKT_SIZE file)).bind some).map _ = _
      rw [Option.bind_fun_some]
      exact hstep

end DataPass

/-! ## Both passes -/

/-- Every channel number that the header pass has met has a trace. -/
theorem exists_trace {b : PacketBuffer} {file : List Byte} {n : ℕ}
    (h : n ∈ ((chunks file).foldl hedrStep ([], b.bytes)).1.map ChanInfo.chnNum) :
    ∃ t ∈ getRt130Hedr b.bytes file, hdrChannelNum t = n := by
  obtain ⟨c, hc, rfl⟩ := List.mem_map.1 h
  have hnamed := (foldl_hedrStep ([], b.bytes) [] (chunks file)
    ⟨List.nodup_nil, by simp, by simp, by simp⟩).named
  refine ⟨makeRt130Trace c, ?_, (hnamed c hc).symm⟩
  rw [getRt130Hedr_eq, List.mem_reverse]
  exact List.mem_map_of_mem hc

/-- An RT130 file is delivered as its complete packets are exactly if the cut packet does no harm.
-/
theorem rt130_deliversWhole_iff (host : Endian) (b₁ b₂ : PacketBuffer) (file : List Byte) :
    (rt130Reader host b₁ b₂).DeliversWhole RT130_PKT_SIZE file ↔ HarmlessCut host b₁ file := by
  by_cases hcut : cutPart RT130_PKT_SIZE file = []
  · exact iff_of_true (Reader.deliversWhole_of_nil _ hcut) (Or.inl hcut)
  · have hhedr := hedr_cut_iff b₁ hcut
    obtain ⟨hchunks, hlength⟩ := chunks_eq hcut
    constructor
    · intro h
      right
      rcases hhedr.1 (Option.some.inj h.hedr) with hdt | ⟨hstated, hknown⟩
      · exact Or.inl hdt
      · refine or_iff_not_imp_left.2 fun hdt => ⟨hstated, hknown, ?_⟩
        obtain ⟨t, ht, hnum⟩ := exists_trace ((mem_chnNum_foldl_hedrStep hlength
          (s := ([], b₁.bytes)) b₁.length_bytes.le _).2 (Or.inr hknown))
        have hcount := BitVec.eq_of_toNat_eq (h.count _ rfl t ht)
        have hne : chunks (wholePart RT130_PKT_SIZE file) ≠ [] := by
          obtain ⟨p, hp, -⟩ := hknown
          exact List.ne_nil_of_mem hp
        obtain ⟨htype', hnum'⟩ := fields_mergedBlock host (hdrChannelNum t) b₁ file
        rw [getRt130Data, hchunks, List.foldl_append, List.foldl_cons, List.foldl_nil,
          dataStep_sampsRead, foldl_dataStep_block host t hlength b₂.length_bytes.le hne b₁.bytes,
          ← mergedBlock, htype', hnum', if_pos ⟨not_not.1 hdt, hnum.symm⟩, getRt130Data] at hcount
        have hzero := (ofNat_eq_zero_iff (passCount_lt host _)).1 (left_eq_add.1 hcount.symm)
        rwa [hnum] at hzero
    · intro h
      have hharmless := h.resolve_left hcut
      have hdata : ∀ t ∈ getRt130Hedr b₁.bytes (wholePart RT130_PKT_SIZE file),
          (getRt130Data host b₂.bytes file t).sampsRead =
            (getRt130Data host b₂.bytes (wholePart RT130_PKT_SIZE file) t).sampsRead ∧
          readRt130Data host b₂.bytes file t =
            readRt130Data host b₂.bytes (wholePart RT130_PKT_SIZE file) t := by
        intro t ht
        have hne : chunks (wholePart RT130_PKT_SIZE file) ≠ [] := by
          intro hnil
          rw [getRt130Hedr_eq, hnil] at ht
          exact absurd ht List.not_mem_nil
        refine data_cut hcut hne (hharmless.imp_right fun hzero => ?_) b₂
        refine or_iff_not_imp_left.2 fun hnum => ?_
        rw [← not_not.1 hnum]
        exact hzero.decoded
      have hheader := hhedr.2 (hharmless.imp_right fun hzero => ⟨hzero.stated, hzero.known⟩)
      refine ⟨congrArg some hheader, fun ts hts t ht => ?_, fun ts hts t ht => ?_⟩
      · rw [← Option.some.inj hts] at ht
        exact congrArg BitVec.toNat (hdata t ht).1
      · rw [← Option.some.inj hts] at ht
        exact (hdata t ht).2

end PQL
