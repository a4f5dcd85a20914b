import PQL.Mseed.RecordUnpack

/-!
# Records that are read back

A record is a header in either byte order, a chain of blockettes with one of type 1000 among them,
and samples in one of the formats.  `msr_parse` gives back what such a record holds, whatever
follows it in the buffer (`msrParse_record`), and of a part of it how much is missing
(`msrParse_part`).
-/

namespace PQL

namespace Libmseed

open ByteOrdered

/-! ## The chain of blockettes -/

/-- The length of a blockette, with its type and the offset of the next one. -/
def BlktLink.length (blkt : BlktLink) : ℕ :=
  if blkt.blkt_type = 2000 then blkt.blktdata.length + 4
  else (blktLengths.lookup blkt.blkt_type.toNat).getD 0

/-- The data are as long as their type has them; a blockette 2000 says how long it is. -/
def BlktLink.Sized (o : Endian) (blkt : BlktLink) : Prop :=
  if blkt.blkt_type = 2000 then
    8 ≤ blkt.blktdata.length ∧ blkt.blktdata.length + 4 < 2 ^ 16 ∧
      (uint16.codec o).put (BitVec.ofNat 16 (blkt.blktdata.length + 4)) <+: blkt.blktdata
  else (blktLengths.lookup blkt.blkt_type.toNat).isSome ∧
    blktSizes.lookup blkt.blkt_type.toNat = some blkt.blktdata.length

/-- A blockette that is stored in a record. -/
structure BlktAt (o : Endian) (record : List Byte) (blkt : BlktLink) : Prop where
  pos : 0 < blkt.blktoffset
  head : (uint16.codec o).put blkt.blkt_type ++ (uint16.codec o).put blkt.next_blkt <+:
    record.drop blkt.blktoffset
  data : blkt.blktdata <+: record.drop (blkt.blktoffset + 4)
  sized : blkt.Sized o
  inside : blkt.blktoffset + blkt.length ≤ record.length

/-- A chain of blockettes from an offset on. -/
inductive ChainAt (o : Endian) (record : List Byte) : ℕ → List BlktLink → Prop
  | last {blkt : BlktLink} (hblkt : BlktAt o record blkt) (hnext : blkt.next_blkt = 0) :
    ChainAt o record blkt.blktoffset [blkt]
  | cons {blkt : BlktLink} {blkts : List BlktLink} (hblkt : BlktAt o record blkt)
    (hbehind : blkt.blktoffset + blkt.length ≤ blkt.next_blkt.toNat)
    (hblkts : ChainAt o record blkt.next_blkt.toNat blkts) :
    ChainAt o record blkt.blktoffset (blkt :: blkts)

section Chain

variable {host o : Endian} {record rest : List Byte} {blkt : BlktLink}

theorem prefix_drop_append {xs : List Byte} {offset : ℕ} (h : xs <+: record.drop offset)
    (rest : List Byte) : xs <+: (record ++ rest).drop offset := by
  rw [List.drop_append]
  exact h.trans (List.prefix_append _ _)

theorem blktLengths_pos {n len : ℕ} (h : blktLengths.lookup n = some len) : 8 ≤ len := by
  have hall : ∀ p ∈ blktLengths, 8 ≤ p.2 := by decide
  obtain ⟨front, back, hlist, -⟩ := List.lookup_eq_some_iff.1 h
  exact hall (n, len) (hlist ▸ List.mem_append_right _ List.mem_cons_self)

theorem BlktLink.Sized.length_pos (h : blkt.Sized o) : 8 ≤ blkt.length := by
  unfold BlktLink.Sized at h
  unfold BlktLink.length
  split_ifs at h ⊢ with htype
  · omega
  · obtain ⟨len, hlen⟩ := Option.isSome_iff_exists.1 h.1
    rw [hlen]
    exact blktLengths_pos hlen

theorem BlktAt.declared (h : BlktAt o record blkt) (htype : blkt.blkt_type = 2000) :
    loadUint16 host (mustSwap host o) (record ++ rest) (blkt.blktoffset + 4) =
      some (BitVec.ofNat 16 (blkt.blktdata.length + 4)) := by
  have hsized := h.sized
  rw [BlktLink.Sized, if_pos htype] at hsized
  exact loadUint16_of_prefix (hsized.2.2.trans (prefix_drop_append h.data rest))

theorem BlktAt.length_eq (h : BlktAt o record blkt) :
    msBlktlen host (mustSwap host o) (record ++ rest) blkt.blktoffset blkt.blkt_type =
      some blkt.length := by
  have hsized := h.sized
  unfold msBlktlen BlktLink.length
  split_ifs with htype
  · rw [BlktLink.Sized, if_pos htype] at hsized
    rw [h.declared htype, Option.map_some, BitVec.toNat_ofNat, Nat.mod_eq_of_lt hsized.2.1]
  · rfl

theorem BlktAt.datalen_eq (h : BlktAt o record blkt) :
    blktDatalen host (mustSwap host o) (record ++ rest) blkt.blktoffset blkt.blkt_type =
      some blkt.blktdata.length := by
  have hsized := h.sized
  unfold blktDatalen
  split_ifs with htype
  · rw [BlktLink.Sized, if_pos htype] at hsized
    have hlength : (BitVec.ofNat 16 (blkt.blktdata.length + 4) - 4).toNat =
        blkt.blktdata.length := by
      rw [BitVec.toNat_sub, BitVec.toNat_ofNat]
      have hfour : (4 : BitVec 16).toNat = 4 := rfl
      omega
    rw [h.declared htype, Option.bind_some]
    dsimp only
    rw [hlength, if_neg (by omega)]
  · rw [BlktLink.Sized, if_neg htype] at hsized
    rw [hsized.2]
    rfl

theorem BlktAt.bytes_eq (h : BlktAt o record blkt) :
    bytesAt (record ++ rest) (blkt.blktoffset + 4) blkt.blktdata.length = some blkt.blktdata := by
  obtain ⟨behind, hbehind⟩ := prefix_drop_append h.data rest
  have hlength := congrArg List.length hbehind
  have hpos := h.inside
  have hlen := h.sized.length_pos
  rw [List.length_append, List.length_drop] at hlength
  unfold bytesAt
  rw [if_pos (by rw [List.length_append] at hlength ⊢; omega), ← hbehind, List.take_left]

/-- One pass of the loop at a blockette. -/
theorem BlktAt.chain_eq (h : BlktAt o record blkt) (hmax : record.length ≤ MAXRECLEN) :
    blktChain host (mustSwap host o) (record ++ rest) record.length blkt.blktoffset =
      if blkt.next_blkt = 0 ∨ blkt.next_blkt.toNat < blkt.blktoffset + blkt.length ∨
          (record.length : ℤ) < blkt.next_blkt.toNat then some [blkt]
      else (blktChain host (mustSwap host o) (record ++ rest) record.length
        blkt.next_blkt.toNat).map (blkt :: ·) := by
  obtain ⟨htype, hnext⟩ := loadUint16_of_stored host rest h.head
  have hpos := h.pos
  have hinside := h.inside
  have hlen := h.sized.length_pos
  rw [blktChain, if_neg (by omega), htype, Option.bind_some, hnext, Option.bind_some, h.length_eq,
    Option.bind_some, if_neg (by omega), h.datalen_eq, Option.bind_some, h.bytes_eq,
    Option.bind_some]

theorem ChainAt.le_length {offset : ℕ} {blkts : List BlktLink} (h : ChainAt o record offset blkts) :
    offset ≤ record.length := by
  cases h with
  | last hblkt hnext => exact (Nat.le_add_right _ _).trans hblkt.inside
  | cons hblkt hbehind hblkts => exact (Nat.le_add_right _ _).trans hblkt.inside

theorem blktChain_of_chainAt {offset : ℕ} {blkts : List BlktLink}
    (hmax : record.length ≤ MAXRECLEN) (h : ChainAt o record offset blkts) :
    blktChain host (mustSwap host o) (record ++ rest) record.length offset = some blkts := by
  induction h with
  | last hblkt hnext => rw [hblkt.chain_eq hmax, if_pos (.inl hnext)]
  | @cons blkt blkts hblkt hbehind hblkts ih =>
    have hinside := hblkts.le_length
    have hpos := hblkt.pos
    have hzero : blkt.next_blkt ≠ 0 := by
      intro hzero
      rw [hzero] at hbehind
      exact absurd hbehind (by rw [show (0 : BitVec 16).toNat = 0 from rfl]; omega)
    rw [hblkt.chain_eq hmax, if_neg (by rw [not_or]; exact ⟨hzero, by omega⟩), ih]
    rfl

end Chain

/-! ## The coding -/

/-- One blockette of type 1000 has the coding and the length of the record. -/
def HasCoding (encoding byteorder exponent : Byte) (blkts : List BlktLink) : Prop :=
  ∃ front back blkt reserved, blkts = front ++ blkt :: back ∧ blkt.blkt_type = 1000 ∧
    blkt.blktdata = [encoding, byteorder, exponent, reserved] ∧
    ∀ other ∈ front ++ back, other.blkt_type ≠ 1000

theorem foldlM_add_of_ne {blkts : List BlktLink} (h : ∀ blkt ∈ blkts, blkt.blkt_type ≠ 1000)
    (c : Coding) : blkts.foldlM Coding.add c = some c := by
  induction blkts with
  | nil => rfl
  | cons blkt blkts ih =>
    rw [List.forall_mem_cons] at h
    rw [List.foldlM_cons, Coding.add, if_neg h.1, Option.bind_eq_bind, Option.bind_some, ih h.2]

theorem foldlM_add_of_hasCoding {encoding byteorder exponent : Byte} {blkts : List BlktLink}
    (h : HasCoding encoding byteorder exponent blkts) (hlt : exponent.toNat < 31) (c : Coding) :
    blkts.foldlM Coding.add c =
      some ⟨2 ^ exponent.toNat, encoding.toInt, byteorder.toInt⟩ := by
  obtain ⟨front, back, blkt, reserved, rfl, htype, hdata, hothers⟩ := h
  have hpow : (2 : ℤ) ^ exponent.toNat < 2 ^ 31 := pow_lt_pow_right₀ (by decide) hlt
  have hpos : (0 : ℤ) < 2 ^ exponent.toNat := by positivity
  have hadd : Coding.add c blkt = some ⟨2 ^ exponent.toNat, encoding.toInt, byteorder.toInt⟩ := by
    rw [Coding.add, if_pos htype, hdata]
    dsimp only
    rw [if_pos (by omega), wrap32_of_inIntRange ⟨by omega, by omega⟩]
  rw [List.foldlM_append, foldlM_add_of_ne fun other hother =>
    hothers other (List.mem_append_left _ hother), Option.bind_eq_bind, Option.bind_some,
    List.foldlM_cons, hadd, Option.bind_eq_bind, Option.bind_some,
    foldlM_add_of_ne fun other hother => hothers other (List.mem_append_right _ hother)]

theorem lastBlkt_of_hasCoding {encoding byteorder exponent : Byte} {blkts : List BlktLink}
    (h : HasCoding encoding byteorder exponent blkts) : (lastBlkt 1000 blkts).isSome = true := by
  obtain ⟨front, back, blkt, reserved, rfl, htype, -, -⟩ := h
  have hmem : blkt ∈ (front ++ blkt :: back).filter fun blkt => blkt.blkt_type = 1000 :=
    List.mem_filter.2 ⟨List.mem_append_right _ List.mem_cons_self, decide_eq_true htype⟩
  rw [lastBlkt, List.getLast?_isSome]
  exact List.ne_nil_of_mem hmem

/-! ## Stored samples -/

section Samples

variable {host o : Endian} {swapflag : Bool}

/-- Samples that are stored in a format, in the order `o`, and what they are decoded to. -/
inductive StoredAs (o : Endian) : ℤ → List Byte → Char → List Sample → Prop
  | ascii (text rest : List Byte) : StoredAs o DE_ASCII (text ++ rest) 'a' (text.map .char)
  | int16 (vs : List (BitVec 16)) (rest : List Byte) :
    StoredAs o DE_INT16 ((uint16.codec o).putMany vs ++ rest) 'i'
      (vs.map fun v => .int (v.signExtend 32))
  | int32 (vs : List Word) (rest : List Byte) :
    StoredAs o DE_INT32 ((uint32.codec o).putMany vs ++ rest) 'i' (vs.map .int)
  | float32 (vs : List Word) (rest : List Byte) :
    StoredAs o DE_FLOAT32 ((uint32.codec o).putMany vs ++ rest) 'f' (vs.map .float)
  | float64 (vs : List (BitVec 64)) (rest : List Byte) :
    StoredAs o DE_FLOAT64 ((uint64.codec o).putMany vs ++ rest) 'd' (vs.map .double)
  | steim1 (writer : Endian) (flag : Bool) (input : List Word) (output bytes : List Byte)
    (diff0 : Word) (n : ℕ) (hinput : input ≠ []) (hroom : 64 ≤ output.length)
    (horder : writer.under flag = o)
    (hencode : msrEncodeSteim1 writer flag input output diff0 = .samples n bytes) :
    StoredAs o DE_STEIM1 bytes 'i' ((input.take n).map .int)
  | steim2 (writer : Endian) (flag : Bool) (input : List Word) (output bytes : List Byte)
    (diff0 : Word) (n : ℕ) (hinput : input ≠ []) (hroom : 64 ≤ output.length)
    (horder : writer.under flag = o)
    (hencode : msrEncodeSteim2 writer flag input output diff0 = .samples n bytes) :
    StoredAs o DE_STEIM2 bytes 'i' ((input.take n).map .int)
  | geoscope24 (vs : List (BitVec 24)) (rest : List Byte) (horder : o = .bigEnd) :
    StoredAs o DE_GEOSCOPE24 ((vs.flatMap fun v => List.ofFn (threeBytes o v)) ++ rest) 'f'
      (vs.map fun v => .scaled v.toInt)
  | geoscope163 (vs : List (BitVec 16)) (rest : List Byte) :
    StoredAs o DE_GEOSCOPE163 ((uint16.codec o).putMany vs ++ rest) 'f'
      (vs.map (geoscope16 0x7000#16))
  | geoscope164 (vs : List (BitVec 16)) (rest : List Byte) :
    StoredAs o DE_GEOSCOPE164 ((uint16.codec o).putMany vs ++ rest) 'f'
      (vs.map (geoscope16 0xF000#16))
  | cdsn (vs : List (BitVec 2 × BitVec 14)) (rest : List Byte) :
    StoredAs o DE_CDSN ((uint16.codec o).putMany (vs.map fun v => v.1 ++ v.2) ++ rest) 'i'
      (vs.map fun v => .int (BitVec.ofInt 32 ((v.2.toNat - 8191) * cdsnFactor v.1)))
  | sro (vs : List (BitVec 4 × BitVec 12)) (rest : List Byte) (hgain : ∀ v ∈ vs, v.1.toNat ≤ 10) :
    StoredAs o DE_SRO ((uint16.codec o).putMany (vs.map fun v => v.1 ++ v.2) ++ rest) 'i'
      (vs.map fun v => .int (BitVec.ofInt 32 (v.2.toInt * 2 ^ (10 - v.1.toNat))))
  | dwwssn (vs : List (BitVec 16)) (rest : List Byte) :
    StoredAs o DE_DWWSSN ((uint16.codec o).putMany vs ++ rest) 'i'
      (vs.map fun v => .int (v.signExtend 32))

theorem msrDecodeGeoscope163_stored {vs : List (BitVec 16)} (hne : vs ≠ []) (rest : List Byte) :
    msrDecodeGeoscope host swapflag ((uint16.codec (host.under swapflag)).putMany vs ++ rest)
      vs.length (vs.length * 4) DE_GEOSCOPE163 = some (some (vs.map (geoscope16 0x7000#16))) := by
  have hpos := List.length_pos_of_ne_nil hne
  unfold msrDecodeGeoscope
  rw [if_neg (by omega), sampleTurns_eq (by decide), if_neg (by decide), if_pos rfl,
    decodeLoop_put, mapM_some]

theorem msrDecodeGeoscope164_stored {vs : List (BitVec 16)} (hne : vs ≠ []) (rest : List Byte) :
    msrDecodeGeoscope host swapflag ((uint16.codec (host.under swapflag)).putMany vs ++ rest)
      vs.length (vs.length * 4) DE_GEOSCOPE164 = some (some (vs.map (geoscope16 0xF000#16))) := by
  have hpos := List.length_pos_of_ne_nil hne
  unfold msrDecodeGeoscope
  rw [if_neg (by omega), sampleTurns_eq (by decide), if_neg (by decide), if_neg (by decide),
    if_pos rfl, decodeLoop_put, mapM_some]

theorem msrDecodeDwwssn_stored (vs : List (BitVec 16)) (rest : List Byte) :
    msrDecodeDwwssn host swapflag ((uint16.codec (host.under swapflag)).putMany vs ++ rest)
      vs.length (vs.length * 4) = some (some (vs.map fun v => .int (v.signExtend 32))) := by
  unfold msrDecodeDwwssn
  have hsample : dwwssnSample = fun v => .int (v.signExtend 32) := funext dwwssnSample_eq
  rw [if_neg (by omega), sampleTurns_eq (by decide), decodeLoop_put, mapM_some, hsample]

theorem bytesAt_append (xs rest : List Byte) : bytesAt (xs ++ rest) 0 xs.length = some xs := by
  rw [bytesAt, if_pos (by rw [List.length_append]; omega), List.drop_zero, List.take_left]

/-- Stored samples are decoded, whatever is behind them. -/
theorem decodeSamples_stored {encoding : ℤ} {bytes : List Byte} {sampletype : Char}
    {samples : List Sample} (h : StoredAs (host.under swapflag) encoding bytes sampletype samples)
    (hne : samples ≠ []) (rest : List Byte) :
    decodeSamples host swapflag encoding (bytes ++ rest) bytes.length samples.length
      (samples.length * unpackedSize encoding) = some (sampletype, some samples) := by
  have hpos := List.length_pos_of_ne_nil hne
  cases h with
  | ascii text behind =>
    rw [decodeSamples, if_pos rfl, List.length_map, Int.toNat_natCast, List.append_assoc,
      bytesAt_append]
    rfl
  | int16 vs behind =>
    rw [decodeSamples, if_neg (by decide), if_pos rfl, List.length_map, List.append_assoc,
      msrDecodeInt16, show unpackedSize DE_INT16 = 4 from rfl,
      decodeNumbers_put _ _ _ (by decide)]
    rfl
  | int32 vs behind =>
    rw [decodeSamples, if_neg (by decide), if_neg (by decide), if_pos rfl, List.length_map,
      List.append_assoc, msrDecodeInt32, show unpackedSize DE_INT32 = 4 from rfl,
      decodeNumbers_put _ _ _ (by decide)]
    rfl
  | float32 vs behind =>
    rw [decodeSamples, if_neg (by decide), if_neg (by decide), if_neg (by decide), if_pos rfl,
      List.length_map, List.append_assoc, msrDecodeFloat32,
      show unpackedSize DE_FLOAT32 = 4 from rfl, decodeNumbers_put _ _ _ (by decide)]
    rfl
  | float64 vs behind =>
    rw [decodeSamples, if_neg (by decide), if_neg (by decide), if_neg (by decide),
      if_neg (by decide), if_pos rfl, List.length_map, List.append_assoc, msrDecodeFloat64,
      show unpackedSize DE_FLOAT64 = 8 from rfl, decodeNumbers_put _ _ _ (by decide)]
    rfl
  | steim1 writer flag input output _ diff0 n hinput hroom horder hencode =>
    have hdecode := decodeSteim_encodeSteim (readsPacked_steim1 horder) hinput hroom hencode horder
      ((input.take n).length : ℤ) (show (0 : ℤ) < (input.take n).length * 4 by
        rw [List.length_map] at hpos; omega)
    rw [Int.toNat_natCast, List.take_length] at hdecode
    rw [decodeSamples, if_neg (by decide), if_neg (by decide), if_neg (by decide),
      if_neg (by decide), if_neg (by decide), if_pos rfl, List.length_map, Int.toNat_natCast,
      bytesAt_append, Option.map_some, show unpackedSize DE_STEIM1 = 4 from rfl, msrDecodeSteim1,
      hdecode]
    rfl
  | steim2 writer flag input output _ diff0 n hinput hroom horder hencode =>
    have hdecode := decodeSteim_encodeSteim (readsPacked_steim2 horder) hinput hroom hencode horder
      ((input.take n).length : ℤ) (show (0 : ℤ) < (input.take n).length * 4 by
        rw [List.length_map] at hpos; omega)
    rw [Int.toNat_natCast, List.take_length] at hdecode
    rw [decodeSamples, if_neg (by decide), if_neg (by decide), if_neg (by decide),
      if_neg (by decide), if_neg (by decide), if_neg (by decide), if_pos rfl, List.length_map,
      Int.toNat_natCast, bytesAt_append, Option.map_some,
      show unpackedSize DE_STEIM2 = 4 from rfl, msrDecodeSteim2, hdecode]
    rfl
  | geoscope24 vs behind horder =>
    have hvs : vs ≠ [] := fun hvs => hne (by rw [hvs, List.map_nil])
    have hmap : (vs.map fun v => geoscope24 host swapflag (threeBytes (host.under swapflag) v)) =
        vs.map fun v => .scaled v.toInt :=
      List.map_congr_left fun v _ => (geoscope24_eq_iff v).2 (.inl horder)
    rw [decodeSamples, if_neg (by decide), if_neg (by decide), if_neg (by decide),
      if_neg (by decide), if_neg (by decide), if_neg (by decide), if_neg (by decide),
      if_pos (by decide), List.length_map, List.append_assoc,
      show unpackedSize DE_GEOSCOPE24 = 4 from rfl, msrDecodeGeoscope24_eq hvs, hmap]
    rfl
  | geoscope163 vs behind =>
    have hvs : vs ≠ [] := fun hvs => hne (by rw [hvs, List.map_nil])
    rw [decodeSamples, if_neg (by decide), if_neg (by decide), if_neg (by decide),
      if_neg (by decide), if_neg (by decide), if_neg (by decide), if_neg (by decide),
      if_pos (by decide), List.length_map, List.append_assoc,
      show unpackedSize DE_GEOSCOPE163 = 4 from rfl, msrDecodeGeoscope163_stored hvs]
    rfl
  | geoscope164 vs behind =>
    have hvs : vs ≠ [] := fun hvs => hne (by rw [hvs, List.map_nil])
    rw [decodeSamples, if_neg (by decide), if_neg (by decide), if_neg (by decide),
      if_neg (by decide), if_neg (by decide), if_neg (by decide), if_neg (by decide),
      if_pos (by decide), List.length_map, List.append_assoc,
      show unpackedSize DE_GEOSCOPE164 = 4 from rfl, msrDecodeGeoscope164_stored hvs]
    rfl
  | cdsn vs behind =>
    rw [decodeSamples, if_neg (by decide), if_neg (by decide), if_neg (by decide),
      if_neg (by decide), if_neg (by decide), if_neg (by decide), if_neg (by decide),
      if_neg (by decide), if_pos rfl, List.length_map, List.append_assoc,
      show unpackedSize DE_CDSN = 4 from rfl, msrDecodeCdsn_stored]
    rfl
  | sro vs behind hgain =>
    rw [decodeSamples, if_neg (by decide), if_neg (by decide), if_neg (by decide),
      if_neg (by decide), if_neg (by decide), if_neg (by decide), if_neg (by decide),
      if_neg (by decide), if_neg (by decide), if_pos rfl, List.length_map, List.append_assoc,
      show unpackedSize DE_SRO = 4 from rfl, msrDecodeSro_stored, if_pos hgain]
    rfl
  | dwwssn vs behind =>
    rw [decodeSamples, if_neg (by decide), if_neg (by decide), if_neg (by decide),
      if_neg (by decide), if_neg (by decide), if_neg (by decide), if_neg (by decide),
      if_neg (by decide), if_neg (by decide), if_neg (by decide), List.length_map,
      List.append_assoc, show unpackedSize DE_DWWSSN = 4 from rfl, msrDecodeDwwssn_stored]
    rfl

end Samples

/-! ## Whole records -/

/-- The byte order that a blockette 1000 gives. -/
def dataOrder (byteorder : Byte) : Endian := if byteorder = 0 then .littleEnd else .bigEnd

/-- A record with its header in the order `o`. -/
structure IsRecord (host o : Endian) (fsdh : Fsdh) (blkts : List BlktLink)
    (encoding byteorder exponent : Byte) (record : List Byte) : Prop where
  first : FirstBlock host o fsdh exponent (record.take MINRECLEN)
  length : record.length = 2 ^ exponent.toNat
  short : record.length ≤ MAXRECLEN
  chain : ChainAt o record fsdh.blockette_offset.toNat blkts
  coding : HasCoding encoding byteorder exponent blkts
  byteorder : byteorder = 0 ∨ byteorder = 1

/-- The samples of a record. -/
structure HasSamples (fsdh : Fsdh) (encoding byteorder : Byte) (record : List Byte)
    (sampletype : Char) (samples : List Sample) : Prop where
  ne_nil : samples ≠ []
  count : fsdh.numsamples.toNat = samples.length
  offset : 48 ≤ fsdh.data_offset.toNat ∧ fsdh.data_offset.toNat < record.length
  stored : StoredAs (dataOrder byteorder) encoding.toInt (record.drop fsdh.data_offset.toNat)
    sampletype samples

section Records

variable {host o : Endian} {fsdh : Fsdh} {blkts : List BlktLink}
  {encoding byteorder exponent : Byte} {record : List Byte} {sampletype : Char}
  {samples : List Sample} {k : ℕ}

theorem IsRecord.minreclen_le (h : IsRecord host o fsdh blkts encoding byteorder exponent record) :
    MINRECLEN ≤ record.length := by
  have hlength := h.first.length
  rw [List.length_take] at hlength
  omega

theorem IsRecord.detected (h : IsRecord host o fsdh blkts encoding byteorder exponent record)
    {mem : List Byte} (hmem : mem.take MINRECLEN = record.take MINRECLEN) {recbuflen : ℤ}
    (hlen : MINRECLEN ≤ recbuflen) : msDetect host mem recbuflen = some (record.length : ℤ) := by
  have hdetect := msDetect_record h.first (mem.drop MINRECLEN) hlen
  rw [← hmem, List.take_append_drop] at hdetect
  rw [hdetect, h.length]
  push_cast
  rfl

theorem under_dataOrder (horder : byteorder = 0 ∨ byteorder = 1) :
    host.under (decide ((host = .bigEnd ∧ byteorder.toInt = 0) ∨
      (host ≠ .bigEnd ∧ 0 < byteorder.toInt))) = dataOrder byteorder := by
  obtain rfl | rfl := horder <;> cases host <;> rfl

theorem StoredAs.known {encoding : ℤ} {bytes : List Byte}
    (h : StoredAs o encoding bytes sampletype samples) :
    encoding ≠ -1 ∧ unpackedSize encoding ≠ 0 := by
  cases h <;> decide

theorem msrUnpackData_record
    (hsamples : HasSamples fsdh encoding byteorder record sampletype samples)
    (hmin : MINRECLEN ≤ record.length) (hmax : record.length ≤ MAXRECLEN) {msr : MsRecord}
    (hreclen : msr.reclen = record.length) (hfsdh : msr.fsdh = fsdh)
    (hcount : msr.samplecnt = samples.length) (hencoding : msr.encoding = encoding.toInt)
    {swapflag : Bool} (horder : host.under swapflag = dataOrder byteorder) (rest : List Byte) :
    msrUnpackData host msr (record ++ rest) swapflag =
      some (.ok { msr with sampletype := sampletype, datasamples := some samples }) := by
  obtain ⟨hlow, hhigh⟩ := hsamples.offset
  have hstored := hsamples.stored
  rw [← horder] at hstored
  have hdrop : (record ++ rest).drop fsdh.data_offset.toNat =
      record.drop fsdh.data_offset.toNat ++ rest := List.drop_append_of_le_length hhigh.le
  have hsize : ((record.length : ℤ) - fsdh.data_offset.toNat) =
      (record.drop fsdh.data_offset.toNat).length := by
    rw [List.length_drop]
    omega
  unfold msrUnpackData
  dsimp only
  rw [hreclen, hfsdh, hcount, hencoding, if_neg (by omega), if_neg (by omega), if_neg (by omega),
    if_neg hstored.known.2, Int.toNat_natCast, hdrop, hsize,
    decodeSamples_stored hstored hsamples.ne_nil, Option.map_some]
  dsimp only
  rw [if_pos rfl]

theorem swap_loaded (b : Bool) (fsdh : Fsdh) : (if b then (if b then fsdh.swap else fsdh).swap
    else if b then fsdh.swap else fsdh) = fsdh := by
  cases b
  · rfl
  · exact fsdh.swap_swap

/-- Without a variable that is set, only a coding that is not known changes. -/
theorem force_unset {c : Coding} (h : c.encoding ≠ -1) (fallback : ℤ) :
    c.force ⟨none, none, none, fallback⟩ = c := by
  unfold Coding.force
  dsimp only [Option.getD_none]
  rw [if_neg h]

/-- What a record that is stored in the order `o` is read as. -/
def recordRead (host o : Endian) (fsdh : Fsdh) (blkts : List BlktLink) (encoding byteorder : Byte)
    (reclen : ℕ) (sampletype : Char) (samples : List Sample) : MsRecord :=
  { makeRecord host (mustSwap host o) fsdh blkts ⟨reclen, encoding.toInt, byteorder.toInt⟩ with
    sampletype := sampletype
    datasamples := some samples }

/-- The length that `msr_unpack` is called with only bounds the chain of the blockettes. -/
theorem msrUnpack_cut (h : IsRecord host o fsdh blkts encoding byteorder exponent record)
    (hsamples : HasSamples fsdh encoding byteorder record sampletype samples)
    (hchain : ChainAt o (record.take k) fsdh.blockette_offset.toNat blkts) (hk : MINRECLEN ≤ k)
    (hle : k ≤ record.length) (rest : List Byte) :
    msrUnpack host noVariables true (record ++ rest) k =
      some (.ok (recordRead host o fsdh blkts encoding byteorder record.length sampletype
        samples)) := by
  have hmin := h.minreclen_le
  have hmax := h.short
  have hsplit : record ++ rest = record.take MINRECLEN ++ (record.drop MINRECLEN ++ rest) := by
    rw [← List.append_assoc, List.take_append_drop]
  have hcut : record ++ rest = record.take k ++ (record.drop k ++ rest) := by
    rw [← List.append_assoc, List.take_append_drop]
  have htake : (record.take k).length = k := List.length_take_of_le hle
  have hblkts : blktChain host (mustSwap host o) (record.take k ++ (record.drop k ++ rest))
      (record.take k).length fsdh.blockette_offset.toNat = some blkts :=
    blktChain_of_chainAt (htake.trans_le (hle.trans hmax)) hchain
  rw [← hcut, htake] at hblkts
  have hvalid : msIsValidHeader (record ++ rest) = true := by
    rw [hsplit, msIsValidHeader_append (by rw [h.first.length]; decide), h.first.valid]
  have hload := loadFsdh_of_prefix host
    (h.first.header.trans (List.prefix_append _ (record.drop MINRECLEN ++ rest)))
  rw [← hsplit] at hload
  have hknown := hsamples.stored.known.1
  have hpos := List.length_pos_of_ne_nil hsamples.ne_nil
  have hcount := hsamples.count
  have henv : checkEnvironment noVariables = some ⟨none, none, none, DE_STEIM1⟩ := rfl
  have hlength : (2 : ℤ) ^ exponent.toNat = record.length := by
    rw [h.length]
    push_cast
    rfl
  unfold msrUnpack
  rw [hvalid, if_neg (by decide), if_neg (by omega), henv]
  dsimp only [forcedSwap]
  rw [hload, Option.bind_some]
  rw [h.first.dated.headerswapflag, swap_loaded, hblkts,
    Option.bind_some, foldlM_add_of_hasCoding h.coding h.first.exponent_lt, Option.bind_some,
    force_unset hknown, hlength, if_pos ⟨rfl, by rw [makeRecord, hcount]; exact hpos⟩]
  refine msrUnpackData_record hsamples hmin hmax rfl rfl hcount rfl ?_ rest
  rw [dataSwap, if_pos ⟨lastBlkt_of_hasCoding h.coding, rfl⟩]
  exact under_dataOrder h.byteorder

/-- The record and its samples come back, whatever follows them in memory. -/
theorem msrUnpack_record (h : IsRecord host o fsdh blkts encoding byteorder exponent record)
    (hsamples : HasSamples fsdh encoding byteorder record sampletype samples) (rest : List Byte) :
    msrUnpack host noVariables true (record ++ rest) record.length =
      some (.ok (recordRead host o fsdh blkts encoding byteorder record.length sampletype
        samples)) := by
  refine msrUnpack_cut h hsamples ?_ h.minreclen_le le_rfl rest
  rw [List.take_length]
  exact h.chain

/-- With a whole record in the buffer, `msr_parse` gives the record and its samples. -/
theorem msrParse_whole (h : IsRecord host o fsdh blkts encoding byteorder exponent record)
    (hsamples : HasSamples fsdh encoding byteorder record sampletype samples) (rest : List Byte)
    {recbuflen reclen : ℤ} (hlen : (record.length : ℤ) ≤ recbuflen) (hreclen : reclen ≤ 0) :
    msrParse host noVariables true (record ++ rest) recbuflen reclen =
      some (.parsed (recordRead host o fsdh blkts encoding byteorder record.length sampletype
        samples)) := by
  have hmin := h.minreclen_le
  have hmax := h.short
  have htake : (record ++ rest).take MINRECLEN = record.take MINRECLEN :=
    List.take_append_of_le_length hmin
  rw [msrParse, if_neg (by omega), h.detected htake (by omega), Option.bind_some,
    if_neg (by omega), if_neg (by unfold MINRECLEN at hmin; omega), parseLength,
    if_neg (by omega), if_neg (by omega), msrUnpack_record h hsamples]
  rfl

/-- With a part of a record that has its first block, it says how much is missing. -/
theorem msrParse_part (h : IsRecord host o fsdh blkts encoding byteorder exponent record)
    {mem : List Byte} (hmem : mem.take MINRECLEN = record.take MINRECLEN) (dataflag : Bool)
    {recbuflen reclen : ℤ} (hmin : MINRECLEN ≤ recbuflen) (hlen : recbuflen < record.length)
    (hreclen : reclen ≤ 0) :
    msrParse host noVariables dataflag mem recbuflen reclen =
      some (.more (record.length - recbuflen)) := by
  have hmin' := h.minreclen_le
  have hmax := h.short
  rw [msrParse, if_neg (by omega), h.detected hmem hmin, Option.bind_some, if_neg (by omega),
    if_neg (by unfold MINRECLEN at hmin'; omega), parseLength, if_neg (by omega),
    if_pos hlen]

/-- With a length that is too short, `msr_parse` still gives the record that is in memory. -/
theorem msrParse_cut (h : IsRecord host o fsdh blkts encoding byteorder exponent record)
    (hsamples : HasSamples fsdh encoding byteorder record sampletype samples)
    (hchain : ChainAt o (record.take k) fsdh.blockette_offset.toNat blkts) (hk : MINRECLEN ≤ k)
    (hle : k ≤ record.length) (rest : List Byte) :
    msrParse host noVariables true (record ++ rest) k k =
      some (.parsed (recordRead host o fsdh blkts encoding byteorder record.length sampletype
        samples)) := by
  have hpos : 0 < MINRECLEN := by decide
  have hmax := h.short
  rw [msrParse, if_pos (by omega), if_neg (lt_irrefl _), parseLength, if_neg (by omega),
    if_neg (lt_irrefl _), msrUnpack_cut h hsamples hchain hk hle]
  rfl

/-- The blockette of the record of two samples. -/
def marchBlkt : BlktLink := ⟨48, 1000, 0, [3, 1, 7, 0]⟩

theorem blktAt_march : BlktAt .bigEnd marchBlock marchBlkt where
  pos := by decide
  head := marchBlock_drop ▸ List.prefix_append _ _
  data := by
    have hdrop : marchBlock.drop 52 = [3, 1, 7, 0] ++ (List.replicate 8 0 ++
        ((uint32.codec .bigEnd).putMany [5, -7] ++ List.replicate 56 0)) := by
      rw [← List.drop_drop (i := 4) (j := 48), marchBlock_drop]
      rfl
    exact hdrop ▸ List.prefix_append _ _
  sized := ⟨by decide, by decide⟩
  inside := by
    rw [length_marchBlock]
    decide

theorem isRecord_march :
    IsRecord .littleEnd .bigEnd marchHead [marchBlkt] 3 1 7 marchBlock where
  first := by
    rw [List.take_of_length_le length_marchBlock.le]
    exact firstBlock_march
  length := length_marchBlock.trans (by decide)
  short := by
    rw [length_marchBlock]
    decide
  chain := .last blktAt_march rfl
  coding := ⟨[], [], marchBlkt, 0, rfl, rfl, rfl, fun other hother => nomatch hother⟩
  byteorder := .inr rfl

theorem hasSamples_march : HasSamples marchHead 3 1 marchBlock 'i' [.int 5, .int (-7)] where
  ne_nil := List.cons_ne_nil _ _
  count := rfl
  offset := by
    rw [length_marchBlock]
    decide
  stored := by
    have hdrop : marchBlock.drop 64 =
        (uint32.codec .bigEnd).putMany [5, -7] ++ List.replicate 56 0 := by
      rw [← List.drop_drop (i := 16) (j := 48), marchBlock_drop]
      rfl
    exact hdrop ▸ StoredAs.int32 [5, -7] (List.replicate 56 0)

end Records

end Libmseed

end PQL
