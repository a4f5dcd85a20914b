import PQL.Lib.CInt
import PQL.Lib.Chunks
import PQL.Lib.Delta
import PQL.Lib.Tally
import PQL.Reftek.DataPackets

/-!
# Demultiplexing RT130 files

The packets of several streams and channels lie in one file in any order.  The header pass makes a
trace for each channel number and the data pass copies the packets with that number to the data of
the trace (`readRt130Data`, which adds the memory to `getRt130Data`).  Traces come out as they
should exactly if no two channels share a number and the packets of each channel can be put together
(`rt130_demultiplexed_iff`).
-/

namespace PQL

/-! ## The data pass with its memory -/

/-- The bytes that are copied from an array of `limit` `int`s that a decoder has written. -/
def arrayBytes (host : Endian) (limit dataSize : ℕ) (data : List Word) : Option (List Byte) :=
  if data.length ≤ limit then some ((intBytes host data).take (dataSize * data.length)) else none

/-- The bytes that the data pass copies from a packet; `none` where it reads or writes an array out
of bounds.  A sample has at most four bytes. -/
def copied (host : Endian) (dataSize : ℕ) (block : List Byte) (lastX : Word) :
    Option (List Byte) :=
  let numSamps := rt130NumSamps block
  let form := rt130DataForm block
  if form = 0x32 ∨ form = 0x16 then
    if RT130_HEADER_SIZE + dataSize * numSamps ≤ RT130_PKT_SIZE then
      some ((block.drop RT130_HEADER_SIZE).take (dataSize * numSamps))
    else none
  else if form = 0xc0 then
    arrayBytes host RT130_C0_MAX_SAMPS dataSize
      (steim1 host block lastX DEFAULT_MSEED_BLOCKSIZE (rt130Rev host)).data
  else if form = 0xc2 then
    arrayBytes host RT130_C2_MAX_SAMPS dataSize
      (steim2 host block lastX DEFAULT_MSEED_BLOCKSIZE (rt130Rev host)).1
  else some []

/-- `dataPacket` together with the data of the trace. -/
def fillPacket (host : Endian) (dataSize : ℕ) (s : DataPass × List Byte) :
    Option (DataPass × List Byte) :=
  (copied host dataSize s.1.block s.1.lastX).bind fun bytes =>
    (storeAll s.2 (s.1.sampsRead * BitVec.ofNat 32 dataSize).toInt bytes).map fun mem =>
      (dataPacket host dataSize s.1, mem)

def fillDataStep (host : Endian) (trace : RT130Trace) (s : DataPass × List Byte)
    (chunk : List Byte) : Option (DataPass × List Byte) :=
  let (type, block) := rdPack s.1.block chunk
  let s := ({ s.1 with block := block }, s.2)
  match type with
  | .DT =>
    if rt130ChannelNum block = hdrChannelNum trace then fillPacket host trace.dataSize s else some s
  | _ => some s

/-- `get_rt130_data` with its memory: the number of samples and the data that it leaves. -/
def readRt130Data (host : Endian) (block file : List Byte) (trace : RT130Trace) :
    Option (Word × List Byte) :=
  ((chunks file).foldlM (fillDataStep host trace)
    (⟨block, INT_MIN, 0, []⟩, List.replicate (trace.numSamples.toNat * trace.dataSize) 0)).map
      fun s => (s.1.sampsRead, s.2)

theorem fillPacket_fst {host : Endian} {dataSize : ℕ} {s r : DataPass × List Byte}
    (h : fillPacket host dataSize s = some r) : r.1 = dataPacket host dataSize s.1 := by
  obtain ⟨bytes, -, hstore⟩ := Option.bind_eq_some_iff.1 h
  obtain ⟨mem, -, rfl⟩ := Option.map_eq_some_iff.1 hstore
  rfl

theorem fillDataStep_fst {host : Endian} {trace : RT130Trace} {s r : DataPass × List Byte}
    {chunk : List Byte} (h : fillDataStep host trace s chunk = some r) :
    r.1 = dataStep host trace s.1 chunk := by
  rw [dataStep_eq]
  simp only [fillDataStep, rdPack] at h
  by_cases htype : packetType (readInto s.1.block chunk) = .DT
  · by_cases hchn : rt130ChannelNum (readInto s.1.block chunk) = hdrChannelNum trace
    · simp only [htype, hchn, if_true, and_self] at h ⊢
      exact fillPacket_fst h
    · simp only [htype, hchn, if_false, and_false] at h ⊢
      rw [← Option.some.inj h]
  · simp only [htype, false_and, if_false] at h ⊢
    rw [← Option.some.inj h]

/-- The memory is added to the pass and changes nothing else. -/
theorem foldlM_fillDataStep_fst {host : Endian} {trace : RT130Trace} {cs : List (List Byte)}
    {s r : DataPass × List Byte} (h : cs.foldlM (fillDataStep host trace) s = some r) :
    r.1 = cs.foldl (dataStep host trace) s.1 := by
  induction cs generalizing s with
  | nil => rw [← Option.some.inj h]; rfl
  | cons c cs ih =>
    rw [List.foldlM_cons] at h
    obtain ⟨t, ht, hrest⟩ := Option.bind_eq_some_iff.1 h
    rw [List.foldl_cons, ← fillDataStep_fst ht]
    exact ih hrest

/-! ## Files of packets -/

/-- A packet of a file: a data packet or one of another type. -/
inductive FilePacket where
  | data (p : DataPacket)
  | other (bytes : List Byte) (length_bytes : bytes.length = RT130_PKT_SIZE)
    (type_ne : packetType bytes ≠ .DT)

namespace FilePacket

def bytes : FilePacket → List Byte
  | data p => p.bytes
  | other bytes .. => bytes

theorem length_bytes (p : FilePacket) : p.bytes.length = RT130_PKT_SIZE := by
  cases p with
  | data p => exact p.length_bytes
  | other bytes hlength => exact hlength

def data? : FilePacket → Option DataPacket
  | data p => some p
  | other .. => none

end FilePacket

/-- The bytes of a file. -/
def fileBytes (ps : List FilePacket) : List Byte := ps.flatMap FilePacket.bytes

/-- The data packets of a file, in order. -/
def fileData (ps : List FilePacket) : List DataPacket := ps.filterMap FilePacket.data?

/-- The data packets of one channel of one stream. -/
def pairPackets (ps : List FilePacket) (k : ℕ × ℕ) : List DataPacket :=
  (fileData ps).filter fun p => p.pair = k

def sampleCount (ps : List DataPacket) : ℕ := (ps.map fun p => p.content.count).sum

def pairCount (ps : List FilePacket) (k : ℕ × ℕ) : ℕ := sampleCount (pairPackets ps k)

def pairMemory (host : Endian) (ps : List FilePacket) (k : ℕ × ℕ) : List Byte :=
  (pairPackets ps k).flatMap fun p => p.content.memory host

def RT130Trace.pair (trace : RT130Trace) : ℕ × ℕ := (trace.strmNm, trace.chnNm)

/-- The channel number of a stream and a channel. -/
def pairNum (k : ℕ × ℕ) : ℕ := (k.1 - 1) * 3 + k.2

/-- Every channel of the file has one trace, there is no other trace, and each trace states the
number of samples of its channel and is read with them, in the order of the file.  `block₁` and
`block₂` are in the packet buffers of the two passes at first. -/
structure Demultiplexed (host : Endian) (block₁ block₂ : List Byte) (ps : List FilePacket) :
    Prop where
  one : ∀ p ∈ fileData ps,
    ((getRt130Hedr block₁ (fileBytes ps)).filter fun t => t.pair = p.pair).length = 1
  noOther : ∀ t ∈ getRt130Hedr block₁ (fileBytes ps), pairPackets ps t.pair ≠ []
  count : ∀ t ∈ getRt130Hedr block₁ (fileBytes ps), t.numSamples.toInt = pairCount ps t.pair
  data : ∀ t ∈ getRt130Hedr block₁ (fileBytes ps),
    readRt130Data host block₂ (fileBytes ps) t =
      some (BitVec.ofNat 32 (pairCount ps t.pair), pairMemory host ps t.pair)

/-- Each compressed packet starts from the last compressed sample before it, or from zero. -/
def Continues : Word → List DataPacket → Prop
  | _, [] => True
  | lastX, p :: ps => p.content.StartsFrom lastX ∧ Continues (p.content.lastAfter lastX) ps

/-- The sample size of the first packet. -/
def headSize : List DataPacket → ℕ
  | [] => 0
  | p :: _ => p.content.size

/-- The packets of a channel can be put together: their samples have one size and are stored as the
host stores them, or compressed and each packet continues the one before it, and each packet starts
below `2 ^ 31` bytes. -/
structure Joins (host : Endian) (ps : List DataPacket) : Prop where
  sizes : ∀ p ∈ ps, p.content.count ≠ 0 → p.content.size = headSize ps
  stored : ∀ p ∈ ps, p.content.StoredAs host
  continues : Continues INT_MIN ps
  below : StartsBelow (fun p : DataPacket => p.content.count) (2 ^ 31 / headSize ps) 0 ps

/-- No two channels of the file share a channel number, and the packets of each can be put
together. -/
structure Separable (host : Endian) (ps : List FilePacket) : Prop where
  distinct : ∀ p ∈ fileData ps, ∀ q ∈ fileData ps, pairNum p.pair = pairNum q.pair → p.pair = q.pair
  joins : ∀ p ∈ fileData ps, Joins host (pairPackets ps p.pair)

/-! ## One packet -/

section Packet

variable (host : Endian) (p : DataPacket)

/-- What a packet leaves in `last_x`. -/
def leftX (lastX : Word) (block : List Byte) : Word :=
  if rt130DataForm block = 0xc0 then
    (steim1 host block lastX DEFAULT_MSEED_BLOCKSIZE (rt130Rev host)).lastX
  else if rt130DataForm block = 0xc2 then
    (steim2 host block lastX DEFAULT_MSEED_BLOCKSIZE (rt130Rev host)).2
  else lastX

theorem dataPacket_lastX (dataSize : ℕ) (s : DataPass) :
    (dataPacket host dataSize s).lastX = leftX host s.lastX s.block := by
  unfold dataPacket leftX
  by_cases h32 : rt130DataForm s.block = 0x32 ∨ rt130DataForm s.block = 0x16
  · have hc0 : rt130DataForm s.block ≠ 0xc0 := by
      rcases h32 with h | h <;> rw [h] <;> decide
    have hc2 : rt130DataForm s.block ≠ 0xc2 := by
      rcases h32 with h | h <;> rw [h] <;> decide
    simp only [if_pos h32, if_neg hc0, if_neg hc2, DataPass.log, DataPass.copy]
  · by_cases hc0 : rt130DataForm s.block = 0xc0
    · simp only [if_neg h32, if_pos hc0, DataPass.log, DataPass.copy]
    · by_cases hc2 : rt130DataForm s.block = 0xc2
      · simp only [if_neg h32, if_neg hc0, if_pos hc2, DataPass.log, DataPass.copy]
      · simp only [if_neg h32, if_neg hc0, if_neg hc2]

/-- The data pass takes as many samples from a packet as it holds. -/
theorem passCount_bytes : passCount host p.bytes = p.content.count := by
  obtain ⟨bytes, content, -, -, hform, hcount, hholds⟩ := p
  show passCount host bytes = content.count
  cases content with
  | form16 order xs => rw [passCount, hform]; exact hcount
  | form32 order xs => rw [passCount, hform]; exact hcount
  | formC0 b xs =>
    obtain ⟨rfl, hpacks⟩ := hholds
    have hdata := (Steim1.steim1_call host .bigEnd hpacks INT_MIN).1.2 (Or.inl rfl)
    rw [passCount, hform, rt130Rev_eq]
    show steim1Count host _ _ _ = xs.length
    rw [← length_steim1 host _ INT_MIN]
    exact congrArg List.length hdata
  | formC2 b xs =>
    obtain ⟨rfl, hpacks⟩ := hholds
    rw [passCount, hform, rt130Rev_eq]
    show steim2Count host _ _ _ = xs.length
    have hdiffs := Steim2.blockDiffs2_bytes host .bigEnd b
    rw [← length_steim2 host _ INT_MIN, steim2_eq, length_integrate, DEFAULT_MSEED_BLOCKSIZE,
      hdiffs, (Steim2.readBlock_perm .bigEnd b).length_eq, hpacks.length]

/-- A packet that continues the one before it leaves its last sample, if it is compressed. -/
theorem leftX_bytes {lastX : Word} (h : p.content.StartsFrom lastX) :
    leftX host lastX p.bytes = p.content.lastAfter lastX := by
  revert h
  obtain ⟨bytes, content, -, -, hform, -, hholds⟩ := p
  intro (h : content.StartsFrom lastX)
  show leftX host lastX bytes = content.lastAfter lastX
  cases content with
  | form16 order xs => rw [leftX, hform]; rfl
  | form32 order xs => rw [leftX, hform]; rfl
  | formC0 b xs =>
    obtain ⟨rfl, hpacks⟩ := hholds
    rw [leftX, hform, rt130Rev_eq]
    exact (Steim1.steim1_call host .bigEnd hpacks lastX).2
  | formC2 b xs =>
    obtain ⟨rfl, hpacks⟩ := hholds
    have hcall := Steim2.steim2_call host hpacks lastX
    rw [leftX, hform, rt130Rev_eq]
    exact hcall.2 (hcall.1.2 h)

theorem length_of_arrayBytes {limit dataSize : ℕ} {data : List Word} {bytes : List Byte}
    (hsize : dataSize ≤ 4) (h : arrayBytes host limit dataSize data = some bytes) :
    bytes.length = dataSize * data.length := by
  unfold arrayBytes at h
  split_ifs at h
  obtain rfl := Option.some.inj h
  have hle := Nat.mul_le_mul_right data.length hsize
  rw [List.length_take, length_intBytes, Nat.min_eq_left hle]

/-- The data pass copies `dataSize` bytes for each sample. -/
theorem length_of_copied {dataSize : ℕ} (hsize : dataSize ≤ 4) {lastX : Word} {bytes : List Byte}
    (h : copied host dataSize p.bytes lastX = some bytes) :
    bytes.length = dataSize * p.content.count := by
  rw [← passCount_bytes host]
  unfold copied at h
  unfold passCount
  by_cases h32 : rt130DataForm p.bytes = 0x32 ∨ rt130DataForm p.bytes = 0x16
  · simp only [if_pos h32] at h ⊢
    split_ifs at h with hfit
    obtain rfl := Option.some.inj h
    rw [List.length_take, List.length_drop, p.length_bytes, Nat.min_eq_left (by omega)]
  · by_cases hc0 : rt130DataForm p.bytes = 0xc0
    · simp only [if_neg h32, if_pos hc0] at h ⊢
      rw [length_of_arrayBytes host hsize h, length_steim1]
    · by_cases hc2 : rt130DataForm p.bytes = 0xc2
      · simp only [if_neg h32, if_neg hc0, if_pos hc2] at h ⊢
        rw [length_of_arrayBytes host hsize h, length_steim2]
      · simp only [if_neg h32, if_neg hc0, if_neg hc2] at h ⊢
        obtain rfl := Option.some.inj h
        rfl

/-- A packet that is not compressed is copied as it is, if it is as long as that. -/
theorem copied_of_raw (hraw : rt130DataForm p.bytes = 0x32 ∨ rt130DataForm p.bytes = 0x16)
    (dataSize : ℕ) (lastX : Word) :
    copied host dataSize p.bytes lastX =
      if RT130_HEADER_SIZE + dataSize * p.content.count ≤ RT130_PKT_SIZE then
        some ((p.bytes.drop RT130_HEADER_SIZE).take (dataSize * p.content.count))
      else none := by
  simp only [copied, if_pos hraw, p.count]

/-- The samples of a packet fit in it. -/
theorem fits_of_take {bytes xs : List Byte} (hlen : bytes.length = RT130_PKT_SIZE) {n : ℕ}
    (h : (bytes.drop RT130_HEADER_SIZE).take n = xs) (hxs : xs.length = n) :
    RT130_HEADER_SIZE + n ≤ RT130_PKT_SIZE := by
  rw [← h, List.length_take, List.length_drop, hlen] at hxs
  unfold RT130_HEADER_SIZE RT130_PKT_SIZE at *
  omega

/-- The samples that a decoder returns are copied, if there is room for them in its array. -/
theorem arrayBytes_eq_iff {limit : ℕ} {data xs : List Word} (hlen : data.length = xs.length)
    (hsmall : xs.length ≤ limit) :
    arrayBytes host limit 4 data = some (intBytes host xs) ↔ data = xs := by
  rw [arrayBytes, if_pos (hlen.trans_le hsmall), Option.some_inj,
    List.take_of_length_le (length_intBytes host data).le]
  exact (intBytes_injective host).eq_iff

theorem Packs.length_le {S : Type} [PackedWord S] {prev : Option Word} {b : BlockPacking S}
    {xs : List Word} (h : Packs prev b xs) {m : ℕ} (hm : ∀ s : S, (PackedWord.diffs s).length ≤ m) :
    xs.length ≤ 223 * m := by
  rw [← h.length]
  exact b.length_diffs_le hm

theorem copied_of_c0 {block : List Byte} (h : rt130DataForm block = 0xc0) (dataSize : ℕ)
    (lastX : Word) :
    copied host dataSize block lastX = arrayBytes host RT130_C0_MAX_SAMPS dataSize
      (steim1 host block lastX DEFAULT_MSEED_BLOCKSIZE (rt130Rev host)).data := by
  have h32 : ¬(rt130DataForm block = 0x32 ∨ rt130DataForm block = 0x16) := by rw [h]; decide
  simp only [copied, if_neg h32, if_pos h]

theorem copied_of_c2 {block : List Byte} (h : rt130DataForm block = 0xc2) (dataSize : ℕ)
    (lastX : Word) :
    copied host dataSize block lastX = arrayBytes host RT130_C2_MAX_SAMPS dataSize
      (steim2 host block lastX DEFAULT_MSEED_BLOCKSIZE (rt130Rev host)).1 := by
  have h32 : ¬(rt130DataForm block = 0x32 ∨ rt130DataForm block = 0x16) := by rw [h]; decide
  have hc0 : rt130DataForm block ≠ 0xc0 := by rw [h]; decide
  simp only [copied, if_neg h32, if_neg hc0, if_pos h]

/-- Copied with the size of its samples, a packet gives its samples if they are stored as the host
stores them or it starts from `last_x`. -/
theorem copied_size_eq_iff (lastX : Word) :
    copied host p.content.size p.bytes lastX = some (p.content.memory host) ↔
      p.content.StoredAs host ∧ p.content.StartsFrom lastX := by
  have hraw := copied_of_raw host p
  have hcount := passCount_bytes host p
  have hform := p.form
  have hholds := p.holds
  cases hcontent : p.content with
  | form16 order xs =>
    rw [hcontent] at hraw hform hholds
    have hfit : RT130_HEADER_SIZE +
        (Content.form16 order xs).size * (Content.form16 order xs).count ≤ RT130_PKT_SIZE :=
      fits_of_take p.length_bytes hholds ((Content.form16 order xs).length_memory order)
    rw [hraw (Or.inr hform), if_pos hfit, Option.some_inj]
    show (p.bytes.drop RT130_HEADER_SIZE).take (2 * xs.length) = xs.flatMap (storeShort host) ↔ _
    rw [hholds, flatMap_eq_flatMap_iff _ _ _ fun x _ => by
      rw [length_storeShort, length_storeShort]]
    exact (and_iff_left trivial).symm
  | form32 order xs =>
    rw [hcontent] at hraw hform hholds
    have hfit : RT130_HEADER_SIZE +
        (Content.form32 order xs).size * (Content.form32 order xs).count ≤ RT130_PKT_SIZE :=
      fits_of_take p.length_bytes hholds ((Content.form32 order xs).length_memory order)
    have hinj : Function.Injective Quad.bytes := by
      rintro ⟨a0, a1, a2, a3⟩ ⟨b0, b1, b2, b3⟩ h
      simpa [Quad.bytes] using h
    rw [hraw (Or.inl hform), if_pos hfit, Option.some_inj]
    show (p.bytes.drop RT130_HEADER_SIZE).take (4 * xs.length) = intBytes host xs ↔ _
    rw [hholds, intBytes, intBytes, flatMap_eq_flatMap_iff _ _ _ fun x _ => by
      rw [Quad.length_bytes, Quad.length_bytes]]
    simp only [hinj.eq_iff]
    exact (and_iff_left trivial).symm
  | formC0 b xs =>
    rw [hcontent] at hform hholds
    obtain ⟨hbytes, hpacks⟩ := hholds
    have hcall := (Steim1.steim1_call host .bigEnd hpacks lastX).1
    have hsmall : xs.length ≤ RT130_C0_MAX_SAMPS := hpacks.length_le Steim1.Slot.length_diffs_le
    have hlen : (steim1 host p.bytes lastX DEFAULT_MSEED_BLOCKSIZE (rt130Rev host)).data.length =
        xs.length := by
      rw [hcontent, passCount, hform] at hcount
      rw [length_steim1]
      exact hcount
    rw [copied_of_c0 host hform]
    show arrayBytes host RT130_C0_MAX_SAMPS 4 _ = some (intBytes host xs) ↔ _
    rw [arrayBytes_eq_iff host hlen hsmall, hbytes, rt130Rev_eq]
    exact hcall.trans (and_iff_right trivial).symm
  | formC2 b xs =>
    rw [hcontent] at hform hholds
    obtain ⟨hbytes, hpacks⟩ := hholds
    have hcall := (Steim2.steim2_call host hpacks lastX).1
    have hsmall : xs.length ≤ RT130_C2_MAX_SAMPS := hpacks.length_le Steim2.Slot.length_diffs_le
    have hlen : (steim2 host p.bytes lastX DEFAULT_MSEED_BLOCKSIZE (rt130Rev host)).1.length =
        xs.length := by
      rw [hcontent, passCount, hform] at hcount
      rw [length_steim2]
      exact hcount
    rw [copied_of_c2 host hform]
    show arrayBytes host RT130_C2_MAX_SAMPS 4 _ = some (intBytes host xs) ↔ _
    rw [arrayBytes_eq_iff host hlen hsmall, hbytes, rt130Rev_eq]
    exact hcall.trans (and_iff_right trivial).symm

/-- A packet with samples of another size does not give them. -/
theorem copied_eq_iff {dataSize : ℕ} (hsize : dataSize ≤ 4) (lastX : Word) :
    copied host dataSize p.bytes lastX = some (p.content.memory host) ↔
      (p.content.count ≠ 0 → p.content.size = dataSize) ∧
        p.content.StoredAs host ∧ p.content.StartsFrom lastX := by
  by_cases hsame : p.content.size = dataSize
  · rw [← hsame, copied_size_eq_iff]
    exact (and_iff_right fun _ => rfl).symm
  · by_cases hzero : p.content.count = 0
    · rw [and_iff_right fun h => absurd hzero h]
      have hraw := copied_of_raw host p
      have hform := p.form
      have hholds := p.holds
      cases hcontent : p.content with
      | form16 order xs =>
        rw [hcontent] at hzero hraw hform
        obtain rfl : xs = [] := List.eq_nil_of_length_eq_zero hzero
        rw [hraw (Or.inr hform)]
        exact iff_of_true rfl ⟨nofun, trivial⟩
      | form32 order xs =>
        rw [hcontent] at hzero hraw hform
        obtain rfl : xs = [] := List.eq_nil_of_length_eq_zero hzero
        rw [hraw (Or.inl hform)]
        exact iff_of_true rfl ⟨nofun, trivial⟩
      | formC0 b xs =>
        rw [hcontent] at hzero hholds
        obtain ⟨d, ds, -, hxs⟩ := hholds.2.samples_eq
        exact absurd (List.eq_nil_of_length_eq_zero hzero) (by rw [hxs]; exact List.cons_ne_nil _ _)
      | formC2 b xs =>
        rw [hcontent] at hzero hholds
        obtain ⟨d, ds, -, hxs⟩ := hholds.2.samples_eq
        exact absurd (List.eq_nil_of_length_eq_zero hzero) (by rw [hxs]; exact List.cons_ne_nil _ _)
    · refine iff_of_false (fun hcopied => hsame ?_) fun h => hsame (h.1 hzero)
      have hlen := length_of_copied host p hsize hcopied
      rw [p.content.length_memory host] at hlen
      exact Nat.eq_of_mul_eq_mul_right (Nat.pos_of_ne_zero hzero) hlen

end Packet

/-! ## The packets of a channel -/

section Channel

variable (host : Endian)

/-- The packets of a channel, each with the `last_x` that it is read with. -/
def entered : Word → List DataPacket → List (Word × DataPacket)
  | _, [] => []
  | lastX, p :: ps => (lastX, p) :: entered (leftX host lastX p.bytes) ps

theorem map_snd_entered (lastX : Word) (ps : List DataPacket) :
    (entered host lastX ps).map Prod.snd = ps := by
  induction ps generalizing lastX with
  | nil => rfl
  | cons p ps ih => rw [entered, List.map_cons, ih]

/-- All packets give their samples exactly if they have the size that is copied, are stored as the
host stores them and continue each other. -/
theorem forall_entered_iff {dataSize : ℕ} (hsize : dataSize ≤ 4) (lastX : Word)
    (ps : List DataPacket) :
    (∀ e ∈ entered host lastX ps,
        copied host dataSize e.2.bytes e.1 = some (e.2.content.memory host)) ↔
      (∀ p ∈ ps, p.content.count ≠ 0 → p.content.size = dataSize) ∧
        (∀ p ∈ ps, p.content.StoredAs host) ∧ Continues lastX ps := by
  induction ps generalizing lastX with
  | nil => exact iff_of_true nofun ⟨nofun, nofun, trivial⟩
  | cons p ps ih =>
    rw [entered, List.forall_mem_cons, copied_eq_iff host p hsize, List.forall_mem_cons,
      List.forall_mem_cons, Continues]
    by_cases hstarts : p.content.StartsFrom lastX
    · rw [leftX_bytes host p hstarts, ih]
      constructor
      · rintro ⟨⟨hs, ho, hc⟩, hss, hos, hcs⟩
        exact ⟨⟨hs, hss⟩, ⟨ho, hos⟩, hc, hcs⟩
      · rintro ⟨⟨hs, hss⟩, ⟨ho, hos⟩, hc, hcs⟩
        exact ⟨⟨hs, ho, hc⟩, hss, hos, hcs⟩
    · exact iff_of_false (fun h => hstarts h.1.2.2) fun h => hstarts h.2.2.1

/-- Where the data pass puts the sample `n`. -/
def placeOf (dataSize : ℕ) (n : ℤ) : ℤ :=
  (BitVec.ofInt 32 n * BitVec.ofNat 32 dataSize).toInt

theorem placeOf_eq (dataSize : ℕ) (n : ℤ) : placeOf dataSize n = wrap32 (dataSize * n) := by
  rw [placeOf, ← BitVec.ofInt_natCast, ← BitVec.ofInt_mul, BitVec.toInt_ofInt, mul_comm]
  rfl

/-- The data pass over the packets of a channel, as the filling of a buffer. -/
def fillEntered (dataSize : ℕ) (s : List Byte × ℤ) (es : List (Word × DataPacket)) :
    Option (List Byte × ℤ) :=
  fillChunks (placeOf dataSize) (fun e => copied host dataSize e.2.bytes e.1)
    (fun e => e.2.content.count) s es

theorem fillInput_entered {dataSize : ℕ} (hsize : dataSize = 2 ∨ dataSize = 4) (N : ℤ)
    (es : List (Word × DataPacket)) :
    FillInput (placeOf dataSize) (fun e => copied host dataSize e.2.bytes e.1)
      (fun e => e.2.content.count) dataSize (2 ^ 31 / dataSize) N es := by
  have hle : dataSize ≤ 4 := by omega
  refine ⟨fun e _ bytes h => length_of_copied host e.2 hle h, by omega, fun e _ => ?_,
    fun n hn hlt => ?_, fun n hlarge hlt _ => ?_⟩
  · have hcount := rt130NumSamps_le e.2.bytes
    rw [e.2.count] at hcount
    rcases hsize with rfl | rfl <;> omega
  · rw [placeOf_eq]
    exact wrap32_of_inIntRange (by rcases hsize with rfl | rfl <;> constructor <;> omega)
  · rw [placeOf_eq, wrap32_of_large (by rcases hsize with rfl | rfl <;> omega)
      (by rcases hsize with rfl | rfl <;> omega)]
    rcases hsize with rfl | rfl <;> omega

theorem headSize_eq {ps : List DataPacket} (hne : ps ≠ []) : headSize ps = 2 ∨ headSize ps = 4 := by
  cases ps with
  | nil => exact absurd rfl hne
  | cons p ps => exact p.content.size_eq

/-- What is copied from the packets together is their samples only if it is so for each packet. -/
theorem flatMap_copied_iff {ps : List DataPacket} (hne : ps ≠ []) {es : List (Word × DataPacket)}
    (hall : ∀ e ∈ es, (copied host (headSize ps) e.2.bytes e.1).isSome) :
    (es.flatMap fun e => (copied host (headSize ps) e.2.bytes e.1).getD []) =
        es.flatMap (fun e => e.2.content.memory host) ↔
      ∀ e ∈ es, copied host (headSize ps) e.2.bytes e.1 = some (e.2.content.memory host) := by
  have hlen : ∀ e ∈ es, ((copied host (headSize ps) e.2.bytes e.1).getD []).length =
      headSize ps * e.2.content.count := by
    intro e he
    obtain ⟨bytes, hbytes⟩ := Option.isSome_iff_exists.1 (hall e he)
    rw [hbytes]
    exact length_of_copied host e.2 (by have := headSize_eq hne; omega) hbytes
  have hsome : (∀ e ∈ es, (copied host (headSize ps) e.2.bytes e.1).getD [] =
      e.2.content.memory host) ↔
        ∀ e ∈ es, copied host (headSize ps) e.2.bytes e.1 = some (e.2.content.memory host) := by
    refine forall₂_congr fun e he => ?_
    obtain ⟨bytes, hbytes⟩ := Option.isSome_iff_exists.1 (hall e he)
    rw [hbytes, Option.getD_some, Option.some_inj]
  rw [← hsome]
  rcases headSize_eq hne with h2 | h4
  · refine flatMap_eq_flatMap_iff_of_le _ _ _ fun e he => ?_
    have hsize := e.2.content.size_eq
    rw [hlen e he, h2, Content.length_memory]
    exact Nat.mul_le_mul_right _ (by omega)
  · rw [eq_comm, flatMap_eq_flatMap_iff_of_le _ _ _ fun e he => ?_]
    · exact forall₂_congr fun e _ => eq_comm
    · have hsize := e.2.content.size_eq
      rw [hlen e he, h4, Content.length_memory]
      exact Nat.mul_le_mul_right _ (by omega)

/-- The packets of a channel are put together into the data of a trace that states the size of their
samples and their number exactly if they can be. -/
theorem fillEntered_iff {ps : List DataPacket} (hne : ps ≠ []) {numSamples : Word}
    (hnum : numSamples = BitVec.ofNat 32 (sampleCount ps)) :
    (numSamples.toInt = sampleCount ps ∧
        (fillEntered host (headSize ps)
          (List.replicate (numSamples.toNat * headSize ps) 0, 0) (entered host INT_MIN ps)).map
            (fun r => (BitVec.ofInt 32 r.2, r.1)) =
          some (BitVec.ofNat 32 (sampleCount ps), ps.flatMap fun p => p.content.memory host)) ↔
      Joins host ps := by
  have hsize := headSize_eq hne
  have hsnd := map_snd_entered host INT_MIN ps
  have hle : headSize ps ≤ 4 := by omega
  have hentered := forall_entered_iff host hle INT_MIN ps
  have hinput := fillInput_entered host hsize (sampleCount ps)
    (entered host INT_MIN ps)
  generalize entered host INT_MIN ps = es at hsnd hentered hinput
  have hsum : (es.map fun e => e.2.content.count).sum = sampleCount ps := by
    rw [← hsnd, sampleCount, List.map_map]
    rfl
  have hbelow := startsBelow_map (fun p : DataPacket => p.content.count) Prod.snd
    (2 ^ 31 / headSize ps) 0 es
  have hmemory : ps.flatMap (fun p => p.content.memory host) =
      es.flatMap fun e => e.2.content.memory host := by
    rw [← hsnd, List.flatMap_map]
  rw [hsnd] at hbelow
  rw [hmemory]
  generalize htotal : sampleCount ps = total at hnum hsum hinput ⊢
  have hpos : (0 : ℤ) < 2 ^ 31 / headSize ps := by rcases hsize with h | h <;> rw [h] <;> decide
  have hfill : total < 2 ^ 32 → ∀ r, fillEntered host (headSize ps)
      (List.replicate (numSamples.toNat * headSize ps) 0, 0) es = some r ↔ _ := fun hlt r => by
    refine fillChunks_iff hinput hpos (by rw [hsum]) ?_ r
    rw [List.length_replicate, hnum, BitVec.toNat_ofNat, Nat.mod_eq_of_lt hlt, hsum, mul_comm]
  constructor
  · rintro ⟨hcount, hread⟩
    have hlt : total < 2 ^ 31 := by
      have := BitVec.toInt_lt (x := numSamples)
      omega
    obtain ⟨r, hr, heq⟩ := Option.map_eq_some_iff.1 hread
    obtain ⟨hall, hstarts, rfl⟩ := (hfill (by omega) r).1 hr
    have hbytes := (flatMap_copied_iff host hne hall).1 (congrArg Prod.snd heq)
    obtain ⟨hsizes, hstored, hcontinues⟩ := hentered.1 hbytes
    exact ⟨hsizes, hstored, hcontinues, hbelow.1 hstarts⟩
  · intro h
    have hlt : total < 2 ^ 31 := by
      have hlt := h.below.total_lt (by omega) fun p _ => by
        have hcount := rt130NumSamps_le p.bytes
        rw [p.count] at hcount
        rcases hsize with h | h <;> rw [h] <;> omega
      have hsum' : (ps.map fun p => p.content.count).sum = total := htotal
      rw [hsum'] at hlt
      rcases hsize with h | h <;> rw [h] at hlt <;> omega
    have hbytes := hentered.2 ⟨h.sizes, h.stored, h.continues⟩
    have hall : ∀ e ∈ es, (copied host (headSize ps) e.2.bytes e.1).isSome := fun e he => by
      rw [hbytes e he]
      rfl
    refine ⟨?_, ?_⟩
    · rw [hnum, ← BitVec.ofInt_natCast, BitVec.toInt_ofInt, Int.bmod_eq_of_le (by omega) (by omega)]
    · rw [(hfill (by omega) _).2 ⟨hall, hbelow.2 h.below, rfl⟩, Option.map_some,
        (flatMap_copied_iff host hne hall).2 hbytes, hsum, BitVec.ofInt_natCast]

end Channel

/-! ## The passes over a file -/

theorem chunks_fileBytes (ps : List FilePacket) :
    chunks (fileBytes ps) = ps.map FilePacket.bytes := by
  induction ps with
  | nil => exact chunks_nil
  | cons p ps ih =>
    rw [fileBytes, List.flatMap_cons, chunks_append _ _ p.length_bytes, List.map_cons]
    exact congrArg _ ih

/-- A whole packet replaces the one before it. -/
theorem readInto_bytes {array : List Byte} (harray : array.length ≤ RT130_PKT_SIZE)
    (p : FilePacket) : readInto array p.bytes = p.bytes := by
  rw [readInto, p.length_bytes, List.drop_of_length_le harray, List.append_nil]

/-- The packets with the channel number `n`. -/
def numPackets (ps : List FilePacket) (n : ℕ) : List DataPacket :=
  (fileData ps).filter fun p => rt130ChannelNum p.bytes = n

theorem foldl_hedrStep_bytes (ps : List FilePacket) {s : List ChanInfo × List Byte}
    (hs : s.2.length ≤ RT130_PKT_SIZE) :
    ((ps.map FilePacket.bytes).foldl hedrStep s).1 =
      (fileData ps).foldl (fun channels p => addPacket channels p.bytes) s.1 := by
  induction ps generalizing s with
  | nil => rfl
  | cons p ps ih =>
    have hread := readInto_bytes hs p
    rw [List.map_cons, List.foldl_cons]
    cases p with
    | data p =>
      have hstep : hedrStep s p.bytes = (addPacket s.1 p.bytes, p.bytes) := by
        simp only [hedrStep, rdPack, show readInto s.2 p.bytes = p.bytes from hread, p.type]
      rw [show (FilePacket.data p).bytes = p.bytes from rfl, hstep, ih p.length_bytes.le]
      rfl
    | other bytes hlength htype =>
      have hstep : hedrStep s bytes = (s.1, bytes) := by
        simp only [hedrStep, rdPack, show readInto s.2 bytes = bytes from hread]
      rw [show (FilePacket.other bytes hlength htype).bytes = bytes from rfl, hstep, ih hlength.le]
      rfl

/-- A packet adds its samples to its channel. -/
def addCount (p : DataPacket) (c : ChanInfo) : ChanInfo :=
  { c with numSamps := c.numSamps + BitVec.ofNat 32 (rt130NumSamps p.bytes) }

theorem foldl_addCount (ps : List DataPacket) (c : ChanInfo) :
    ps.foldl (fun c p => addCount p c) c =
      { c with numSamps := c.numSamps + BitVec.ofNat 32 (sampleCount ps) } := by
  induction ps generalizing c with
  | nil => exact congrArg (fun n => { c with numSamps := n }) (BitVec.add_zero _).symm
  | cons p ps ih =>
    rw [List.foldl_cons, ih, addCount, p.count]
    simp only [sampleCount, List.map_cons, List.sum_cons, BitVec.ofNat_add, BitVec.add_assoc]

/-- The trace of a channel, from its packets. -/
def channelTraces : List DataPacket → List RT130Trace
  | [] => []
  | p :: ps => [⟨p.pair.1, p.pair.2, p.content.size, BitVec.ofNat 32 (sampleCount (p :: ps))⟩]

/-- The header pass makes one trace for each channel number. -/
theorem filter_getRt130Hedr (ps : List FilePacket) {block : List Byte}
    (hblock : block.length ≤ RT130_PKT_SIZE) (n : ℕ) :
    (getRt130Hedr block (fileBytes ps)).filter (fun t => hdrChannelNum t = n) =
      channelTraces (numPackets ps n) := by
  have hnamed := (foldl_hedrStep ([], block) [] (chunks (fileBytes ps))
    ⟨List.nodup_nil, nofun, nofun, nofun⟩).named
  have htally : (fun (channels : List ChanInfo) (p : DataPacket) => addPacket channels p.bytes) =
      tallyStep (fun p c => decide (c.chnNum = rt130ChannelNum p.bytes))
        (fun p => newChannel p.bytes) addCount := rfl
  have hkey : KeyRespected ChanInfo.chnNum (fun p : DataPacket => rt130ChannelNum p.bytes)
      (fun p c => decide (c.chnNum = rt130ChannelNum p.bytes))
      (fun p => newChannel p.bytes) addCount n (fileData ps) :=
    ⟨fun p _ hp c => by rw [hp], fun p _ hp c hc => decide_eq_false fun h => hp (by rw [← h, hc]),
      fun _ => rfl, fun _ _ => rfl⟩
  rw [getRt130Hedr_eq, List.filter_reverse, List.filter_map]
  rw [List.filter_congr (q := fun c => decide (c.chnNum = n)) fun c hc => by
    rw [Function.comp_apply, hnamed c hc]; rfl]
  rw [chunks_fileBytes, foldl_hedrStep_bytes ps hblock, htally, filter_tally hkey]
  show ((tallied _ _ (numPackets ps n)).map makeRt130Trace).reverse = _
  cases numPackets ps n with
  | nil => rfl
  | cons p qs =>
    have hsize : formSize (rt130DataForm p.bytes) = p.content.size := by
      rw [p.form, p.content.formSize_form]
    have hzero : (newChannel p.bytes).numSamps + BitVec.ofNat 32 (sampleCount (p :: qs)) =
        BitVec.ofNat 32 (sampleCount (p :: qs)) := BitVec.zero_add _
    rw [tallied, foldl_addCount, hzero]
    show [(⟨_, _, formSize (rt130DataForm p.bytes), _⟩ : RT130Trace)] = _
    rw [hsize]
    rfl

/-- The data pass over a file fills the data of a trace from the packets with its channel number. -/
theorem foldlM_fillDataStep_bytes (host : Endian) (trace : RT130Trace) (ps : List FilePacket)
    {s : DataPass × List Byte} {n : ℤ} (hblock : s.1.block.length ≤ RT130_PKT_SIZE)
    (hread : s.1.sampsRead = BitVec.ofInt 32 n) :
    ((ps.map FilePacket.bytes).foldlM (fillDataStep host trace) s).map
        (fun r => (r.1.sampsRead, r.2)) =
      (fillEntered host trace.dataSize (s.2, n)
        (entered host s.1.lastX (numPackets ps (hdrChannelNum trace)))).map
          fun r => (BitVec.ofInt 32 r.2, r.1) := by
  induction ps generalizing s n with
  | nil => exact congrArg (fun c => some (c, s.2)) hread
  | cons p ps ih =>
    have hinto := readInto_bytes hblock p
    rw [List.map_cons, List.foldlM_cons]
    cases p with
    | data p =>
      have hinto' : readInto s.1.block p.bytes = p.bytes := hinto
      have hnum : numPackets (.data p :: ps) (hdrChannelNum trace) =
          if rt130ChannelNum p.bytes = hdrChannelNum trace then
            p :: numPackets ps (hdrChannelNum trace) else numPackets ps (hdrChannelNum trace) := by
        show (p :: fileData ps).filter _ = _
        rw [List.filter_cons]
        simp only [decide_eq_true_eq]
        rfl
      rw [hnum]
      by_cases hchn : rt130ChannelNum p.bytes = hdrChannelNum trace
      · have hstep : fillDataStep host trace s p.bytes =
            fillPacket host trace.dataSize ({ s.1 with block := p.bytes }, s.2) := by
          simp only [fillDataStep, rdPack, hinto', p.type, if_pos hchn]
        rw [if_pos hchn, entered, fillEntered, fillChunks_cons,
          show (FilePacket.data p).bytes = p.bytes from rfl, hstep, fillPacket, fillStep]
        simp only [hread]
        cases copied host trace.dataSize p.bytes s.1.lastX with
        | none => rfl
        | some bytes =>
          rw [Option.bind_some, Option.bind_some]
          show ((Option.map _ (storeAll s.2 (placeOf trace.dataSize n) bytes)).bind _).map _ = _
          cases storeAll s.2 (placeOf trace.dataSize n) bytes with
          | none => rfl
          | some mem =>
            rw [Option.map_some, Option.bind_some, Option.map_some, Option.bind_some, ih]
            · rw [dataPacket_lastX]
              rfl
            · rw [dataPacket_block]
              exact length_blockAfter_le p.length_bytes.le
            · rw [dataPacket_sampsRead, passCount_bytes, BitVec.ofInt_add, BitVec.ofInt_natCast]
      · have hstep : fillDataStep host trace s p.bytes =
            some ({ s.1 with block := p.bytes }, s.2) := by
          simp only [fillDataStep, rdPack, hinto', p.type, if_neg hchn]
        rw [if_neg hchn, show (FilePacket.data p).bytes = p.bytes from rfl, hstep]
        exact ih p.length_bytes.le hread
    | other bytes hlength htype =>
      have hinto' : readInto s.1.block bytes = bytes := hinto
      have hstep : fillDataStep host trace s bytes = some ({ s.1 with block := bytes }, s.2) := by
        simp only [fillDataStep, rdPack, hinto']
      rw [show (FilePacket.other bytes hlength htype).bytes = bytes from rfl, hstep]
      exact ih hlength.le hread

/-! ## Files -/

section Files

variable {host : Endian} {block₁ block₂ : List Byte} {ps : List FilePacket}

theorem mem_pairPackets {p : DataPacket} (hp : p ∈ fileData ps) : p ∈ pairPackets ps p.pair :=
  List.mem_filter.2 ⟨hp, decide_eq_true rfl⟩

/-- A trace comes from the packets with its channel number. -/
theorem exists_of_mem_hedr (hblock : block₁.length ≤ RT130_PKT_SIZE) {t : RT130Trace}
    (ht : t ∈ getRt130Hedr block₁ (fileBytes ps)) :
    ∃ p qs, numPackets ps (pairNum t.pair) = p :: qs ∧
      t = ⟨p.pair.1, p.pair.2, p.content.size, BitVec.ofNat 32 (sampleCount (p :: qs))⟩ := by
  have hmem : t ∈ (getRt130Hedr block₁ (fileBytes ps)).filter
      fun t' => hdrChannelNum t' = pairNum t.pair :=
    List.mem_filter.2 ⟨ht, decide_eq_true rfl⟩
  rw [filter_getRt130Hedr ps hblock] at hmem
  cases hpackets : numPackets ps (pairNum t.pair) with
  | nil =>
    rw [hpackets] at hmem
    exact absurd hmem List.not_mem_nil
  | cons p qs =>
    rw [hpackets] at hmem
    exact ⟨p, qs, rfl, List.mem_singleton.1 hmem⟩

/-- A trace states the number of the samples of its channel number and is read with them exactly if
the packets of that number can be put together. -/
theorem trace_iff_joins (host : Endian) (h₁ : block₁.length ≤ RT130_PKT_SIZE)
    (h₂ : block₂.length ≤ RT130_PKT_SIZE)
    {t : RT130Trace} (ht : t ∈ getRt130Hedr block₁ (fileBytes ps)) :
    (t.numSamples.toInt = sampleCount (numPackets ps (pairNum t.pair)) ∧
      readRt130Data host block₂ (fileBytes ps) t =
        some (BitVec.ofNat 32 (sampleCount (numPackets ps (pairNum t.pair))),
          (numPackets ps (pairNum t.pair)).flatMap fun p => p.content.memory host)) ↔
      Joins host (numPackets ps (pairNum t.pair)) := by
  obtain ⟨p, qs, hpackets, htrace⟩ := exists_of_mem_hedr h₁ ht
  have hread := foldlM_fillDataStep_bytes host t ps
    (s := (⟨block₂, INT_MIN, 0, []⟩, List.replicate (t.numSamples.toNat * t.dataSize) 0))
    (n := 0) h₂ rfl
  have hsize : t.dataSize = headSize (p :: qs) := congrArg RT130Trace.dataSize htrace
  have hnum : t.numSamples = BitVec.ofNat 32 (sampleCount (p :: qs)) :=
    congrArg RT130Trace.numSamples htrace
  rw [show hdrChannelNum t = pairNum t.pair from rfl, hpackets, hsize] at hread
  rw [hpackets, readRt130Data, chunks_fileBytes, hsize, hread]
  exact fillEntered_iff host (List.cons_ne_nil p qs) hnum

/-- Channels with different numbers: the packets of a number are those of a channel. -/
theorem numPackets_eq
    (hdistinct : ∀ p ∈ fileData ps, ∀ q ∈ fileData ps, pairNum p.pair = pairNum q.pair →
      p.pair = q.pair) {p : DataPacket} (hp : p ∈ fileData ps) :
    numPackets ps (pairNum p.pair) = pairPackets ps p.pair := by
  refine List.filter_congr fun q hq => decide_eq_decide.2
    ⟨fun h => hdistinct q hq p hp h, fun h => ?_⟩
  show pairNum q.pair = pairNum p.pair
  rw [h]

/-- If every channel has a trace, no two channels share a number. -/
theorem Demultiplexed.distinct (h : Demultiplexed host block₁ block₂ ps)
    (h₁ : block₁.length ≤ RT130_PKT_SIZE) {p q : DataPacket} (hp : p ∈ fileData ps)
    (hq : q ∈ fileData ps) (hnum : pairNum p.pair = pairNum q.pair) : p.pair = q.pair := by
  have hmem : ∀ r ∈ fileData ps, pairNum r.pair = pairNum p.pair → ∃ t, t.pair = r.pair ∧
      t ∈ channelTraces (numPackets ps (pairNum p.pair)) := by
    intro r hr hrnum
    obtain ⟨t, ht⟩ := List.length_eq_one_iff.1 (h.one r hr)
    have htmem := List.mem_filter.1 (ht ▸ List.mem_singleton_self t)
    have hpair : t.pair = r.pair := of_decide_eq_true htmem.2
    refine ⟨t, hpair, ?_⟩
    rw [← filter_getRt130Hedr ps h₁]
    refine List.mem_filter.2 ⟨htmem.1, decide_eq_true ?_⟩
    show pairNum t.pair = pairNum p.pair
    rw [hpair, hrnum]
  obtain ⟨t, htp, ht⟩ := hmem p hp rfl
  obtain ⟨u, huq, hu⟩ := hmem q hq hnum.symm
  cases hpackets : numPackets ps (pairNum p.pair) with
  | nil =>
    rw [hpackets] at ht
    exact absurd ht List.not_mem_nil
  | cons r rs =>
    rw [hpackets] at ht hu
    rw [← htp, ← huq, List.mem_singleton.1 ht, List.mem_singleton.1 hu]

/-- A trace of a channel is read with the packets of that channel, if no other has its number. -/
theorem demultiplexed_of_separable (h₁ : block₁.length ≤ RT130_PKT_SIZE)
    (h₂ : block₂.length ≤ RT130_PKT_SIZE) (h : Separable host ps) :
    Demultiplexed host block₁ block₂ ps := by
  have hpacket : ∀ t ∈ getRt130Hedr block₁ (fileBytes ps), ∃ p ∈ fileData ps, t.pair = p.pair := by
    intro t ht
    obtain ⟨p, qs, hpackets, htrace⟩ := exists_of_mem_hedr h₁ ht
    have hp : p ∈ numPackets ps (pairNum t.pair) := by
      rw [hpackets]
      exact List.mem_cons_self
    exact ⟨p, (List.mem_filter.1 hp).1, congrArg RT130Trace.pair htrace⟩
  have hread : ∀ t ∈ getRt130Hedr block₁ (fileBytes ps),
      t.numSamples.toInt = pairCount ps t.pair ∧
        readRt130Data host block₂ (fileBytes ps) t =
          some (BitVec.ofNat 32 (pairCount ps t.pair), pairMemory host ps t.pair) := by
    intro t ht
    obtain ⟨p, hp, hpair⟩ := hpacket t ht
    have hiff := trace_iff_joins host h₁ h₂ ht
    rw [hpair, numPackets_eq h.distinct hp] at hiff
    rw [hpair]
    exact hiff.2 (h.joins p hp)
  refine ⟨fun p hp => ?_, fun t ht => ?_, fun t ht => (hread t ht).1, fun t ht => (hread t ht).2⟩
  · have hnum : ∀ t : RT130Trace, t.pair = p.pair → hdrChannelNum t = pairNum p.pair := by
      intro t ht
      rw [← ht]
      rfl
    have hfilter : ((getRt130Hedr block₁ (fileBytes ps)).filter fun t => t.pair = p.pair) =
        (channelTraces (numPackets ps (pairNum p.pair))).filter fun t => t.pair = p.pair := by
      rw [← filter_getRt130Hedr ps h₁, List.filter_filter]
      refine List.filter_congr fun t _ => ?_
      by_cases ht : t.pair = p.pair
      · rw [decide_eq_true ht, decide_eq_true (hnum t ht), Bool.and_self]
      · rw [decide_eq_false ht, Bool.false_and]
    rw [hfilter, numPackets_eq h.distinct hp]
    cases hpackets : pairPackets ps p.pair with
    | nil => exact absurd (mem_pairPackets hp) (by rw [hpackets]; exact List.not_mem_nil)
    | cons q qs =>
      have hq : q ∈ pairPackets ps p.pair := by
        rw [hpackets]
        exact List.mem_cons_self
      have hpair : q.pair = p.pair := of_decide_eq_true (List.mem_filter.1 hq).2
      have hpair' : RT130Trace.pair ⟨q.pair.1, q.pair.2, q.content.size,
          BitVec.ofNat 32 (sampleCount (q :: qs))⟩ = p.pair := hpair
      rw [channelTraces, List.filter_cons, if_pos (decide_eq_true hpair')]
      rfl
  · obtain ⟨p, hp, hpair⟩ := hpacket t ht
    rw [hpair]
    exact List.ne_nil_of_mem (mem_pairPackets hp)

/-- A file is demultiplexed exactly if no two of its channels share a channel number and the packets
of each channel can be put together.  `block₁` and `block₂` are in the packet buffers of the two
passes at first. -/
theorem rt130_demultiplexed_iff (host : Endian) (block₁ block₂ : List Byte)
    (h₁ : block₁.length ≤ RT130_PKT_SIZE) (h₂ : block₂.length ≤ RT130_PKT_SIZE)
    (ps : List FilePacket) : Demultiplexed host block₁ block₂ ps ↔ Separable host ps := by
  refine ⟨fun h => ⟨fun p hp q hq => h.distinct h₁ hp hq, fun p hp => ?_⟩,
    demultiplexed_of_separable h₁ h₂⟩
  obtain ⟨t, ht⟩ := List.length_eq_one_iff.1 (h.one p hp)
  have htmem := List.mem_filter.1 (ht ▸ List.mem_singleton_self t)
  have hpair : t.pair = p.pair := of_decide_eq_true htmem.2
  have hiff := trace_iff_joins host h₁ h₂ htmem.1
  rw [hpair, numPackets_eq (fun p hp q hq => h.distinct h₁ hp hq) hp, ← hpair] at hiff
  rw [← hpair]
  exact hiff.1 ⟨h.count t htmem.1, h.data t htmem.1⟩

end Files

/-- The header of a packet with one sample of two bytes. -/
def oneHeader (stream channel : Byte) : List Byte :=
  [0x44, 0x54, 0, 0, 0, 0, 0, 0, 0, 0, 0, 0, 0, 0, 0, 0, 0, 0, stream, channel, 0, 1, 0, 0x16]

/-- A packet with one sample of two bytes. -/
def onePacket (stream channel : Byte) (x : BitVec 16) : DataPacket where
  bytes := oneHeader stream channel ++ (storeShort .littleEnd x ++ List.replicate 998 0)
  content := .form16 .littleEnd [x]
  length_bytes := by
    rw [List.length_append, List.length_append, List.length_replicate, length_storeShort]
    exact congrArg (· + 1000) (show (oneHeader stream channel).length = 24 from rfl)
  type := by
    unfold packetType convertRefType oneHeader
    simp only [List.cons_append, List.getD_cons_zero, List.getD_cons_succ]
    decide
  form := rfl
  count := rfl
  holds := by
    have hlen : (oneHeader stream channel).length = RT130_HEADER_SIZE := rfl
    have htake :
        (storeShort .littleEnd x ++ List.replicate 998 0).take 2 = storeShort .littleEnd x :=
      List.take_left' (length_storeShort .littleEnd x)
    rw [Content.In, List.drop_left' hlen]
    exact htake

/-- A file with one channel is demultiplexed. -/
theorem rt130_demultiplexed_onePacket :
    Demultiplexed .littleEnd [] [] [.data (onePacket 0 0 7)] := by
  have hpackets : ∀ p ∈ fileData [.data (onePacket 0 0 7)], p = onePacket 0 0 7 :=
    fun p hp => List.mem_singleton.1 hp
  refine (rt130_demultiplexed_iff .littleEnd [] [] (Nat.zero_le _) (Nat.zero_le _) _).2
    ⟨fun p hp q hq _ => by rw [hpackets p hp, hpackets q hq], fun p hp => ?_⟩
  rw [hpackets p hp]
  have hpair : pairPackets [.data (onePacket 0 0 7)] (onePacket 0 0 7).pair = [onePacket 0 0 7] :=
    List.filter_cons_of_pos (decide_eq_true rfl)
  rw [hpair]
  exact ⟨fun q hq _ => by rw [List.mem_singleton.1 hq]; rfl,
    fun q hq => by rw [List.mem_singleton.1 hq]; exact fun _ _ => rfl, ⟨trivial, trivial⟩,
    ⟨fun _ => by decide, trivial⟩⟩

/-- Channel four of stream one and channel one of stream two are taken for one channel. -/
theorem rt130_merges_channels :
    ¬Demultiplexed .littleEnd [] [] [.data (onePacket 0 3 7), .data (onePacket 1 0 7)] := by
  intro h
  have hpair := h.distinct (p := onePacket 0 3 7) (q := onePacket 1 0 7) (Nat.zero_le _)
    List.mem_cons_self (List.mem_cons_of_mem _ List.mem_cons_self) (by rfl)
  exact absurd hpair (by decide +kernel)

end PQL
