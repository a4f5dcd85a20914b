import PQL.Data.Words
import PQL.Lib.Text
import PQL.Mseed.Index
import PQL.Time.HpTime

/-!
# The header of a miniSEED record

A record starts with a header of 48 bytes (`Fsdh`), from which a chain of blockettes leads to the
blockette 1000 with the length of the record.  `ms_detect` looks for it without knowing the length
or the byte order.  A header in either byte order is read as the same header (`header_stored`),
unless its day is one of three in the year 2056, and the length is found as soon as the first block
of the record is in the buffer (`msDetect_record`).
-/

namespace PQL

namespace Libmseed

open ByteOrdered

/-! ## The header in memory -/

/-- `fsdh_s`. -/
structure Fsdh where
  sequence_number : Fin 6 → Byte
  dataquality : Byte
  reserved : Byte
  station : Fin 5 → Byte
  location : Fin 2 → Byte
  channel : Fin 3 → Byte
  network : Fin 2 → Byte
  start_time : BTime
  numsamples : BitVec 16
  samprate_fact : BitVec 16
  samprate_mult : BitVec 16
  act_flags : Byte
  io_flags : Byte
  dq_flags : Byte
  numblockettes : Byte
  time_correct : Word
  data_offset : BitVec 16
  blockette_offset : BitVec 16

/-- `MS_SWAPBTIME`. -/
def BTime.swap (t : BTime) : BTime :=
  { t with year := msGswap2a t.year, day := msGswap2a t.day, fract := msGswap2a t.fract }

/-- The swaps of `msr_unpack`. -/
def Fsdh.swap (fsdh : Fsdh) : Fsdh :=
  { fsdh with
    start_time := fsdh.start_time.swap
    numsamples := msGswap2a fsdh.numsamples
    samprate_fact := msGswap2a fsdh.samprate_fact
    samprate_mult := msGswap2a fsdh.samprate_mult
    time_correct := msGswap4a fsdh.time_correct
    data_offset := msGswap2a fsdh.data_offset
    blockette_offset := msGswap2a fsdh.blockette_offset }

section Equivalences

def btimeEquiv : BitVec 16 × BitVec 16 × Byte × Byte × Byte × Byte × BitVec 16 ≃ BTime where
  toFun := fun (year, day, hour, min, sec, unused, fract) =>
    ⟨year, day, hour, min, sec, unused, fract⟩
  invFun t := (t.year, t.day, t.hour, t.min, t.sec, t.unused, t.fract)
  left_inv := fun _ => rfl
  right_inv := fun _ => rfl

def fsdhEquiv : (Fin 6 → Byte) × Byte × Byte × (Fin 5 → Byte) × (Fin 2 → Byte) × (Fin 3 → Byte) ×
    (Fin 2 → Byte) × BTime × BitVec 16 × BitVec 16 × BitVec 16 × Byte × Byte × Byte × Byte × Word ×
    BitVec 16 × BitVec 16 ≃ Fsdh where
  toFun := fun (sequence_number, dataquality, reserved, station, location, channel, network,
      start_time, numsamples, samprate_fact, samprate_mult, act_flags, io_flags, dq_flags,
      numblockettes, time_correct, data_offset, blockette_offset) =>
    ⟨sequence_number, dataquality, reserved, station, location, channel, network, start_time,
      numsamples, samprate_fact, samprate_mult, act_flags, io_flags, dq_flags, numblockettes,
      time_correct, data_offset, blockette_offset⟩
  invFun h := (h.sequence_number, h.dataquality, h.reserved, h.station, h.location, h.channel,
    h.network, h.start_time, h.numsamples, h.samprate_fact, h.samprate_mult, h.act_flags,
    h.io_flags, h.dq_flags, h.numblockettes, h.time_correct, h.data_offset, h.blockette_offset)
  left_inv := fun _ => rfl
  right_inv := fun _ => rfl

end Equivalences

def btimeField : ByteOrdered BTime :=
  (uint16.pair (uint16.pair (uint8.pair (uint8.pair (uint8.pair (uint8.pair uint16)))))).iso
    btimeEquiv

def fsdhField : ByteOrdered Fsdh :=
  ((chars 6).pair (uint8.pair (uint8.pair ((chars 5).pair ((chars 2).pair ((chars 3).pair
    ((chars 2).pair (btimeField.pair (uint16.pair (uint16.pair (uint16.pair (uint8.pair
      (uint8.pair (uint8.pair (uint8.pair (uint32.pair (uint16.pair
        uint16))))))))))))))))).iso fsdhEquiv

example : fsdhField.size = 48 := rfl

/-! ## What a header looks like -/

def MAXRECLEN : ℕ := 1048576

def byteAt (mem : List Byte) (i : ℕ) : Byte := mem.getD i 0

/-- `MS_ISDATAINDICATOR`. -/
def msIsDataIndicator (x : Byte) : Bool := x ∈ ascii "DRQM"

/-- A number from `0` to `n`; a `char` has a sign. -/
def charAtMost (n : ℤ) (x : Byte) : Bool := 0 ≤ x.toInt ∧ x.toInt ≤ n

/-- `MS_ISVALIDHEADER`. -/
def msIsValidHeader (x : List Byte) : Bool :=
  (List.range 6).all (fun i => isDigit (byteAt x i) || byteAt x i = blank || byteAt x i = 0) &&
    msIsDataIndicator (byteAt x 6) && (byteAt x 7 = blank || byteAt x 7 = 0) &&
    charAtMost 23 (byteAt x 24) && charAtMost 59 (byteAt x 25) && charAtMost 60 (byteAt x 26)

/-- `MS_ISVALIDBLANK`. -/
def msIsValidBlank (x : List Byte) : Bool :=
  (List.range 6).all (fun i => isDigit (byteAt x i) || byteAt x i = 0) &&
    (List.range' 6 42).all fun i => byteAt x i = blank

/-- `MS_ISVALIDYEARDAY`. -/
def msIsValidYearDay (year day : BitVec 16) : Bool :=
  1900 ≤ year.toNat ∧ year.toNat ≤ 2100 ∧ 1 ≤ day.toNat ∧ day.toNat ≤ 366

/-- What memory is filled with. -/
def Fsdh.zero : Fsdh :=
  ⟨fun _ => 0, 0, 0, fun _ => 0, fun _ => 0, fun _ => 0, fun _ => 0, ⟨0, 0, 0, 0, 0, 0, 0⟩, 0, 0, 0,
    0, 0, 0, 0, 0, 0, 0⟩

/-- The header as the host has it in memory. -/
def loadFsdh (host : Endian) (record : List Byte) : Option Fsdh :=
  fsdhField.load host false Fsdh.zero record

/-- Whether the year and the day make no sense. -/
def Fsdh.headerswapflag (fsdh : Fsdh) : Bool :=
  !msIsValidYearDay fsdh.start_time.year fsdh.start_time.day

/-! ## The byte order of a header -/

theorem toNat_msGswap2a (x : BitVec 16) :
    (msGswap2a x).toNat = x.toNat % 256 * 256 + x.toNat / 256 := by
  have hx : loadShort .littleEnd (storePair .littleEnd x) = x := loadShort_storePair _ x
  have hlt := x.isLt
  rw [msGswap2a_eq]
  conv_lhs => rw [← hx]
  rw [swap2byte_loadShort]
  change ((x.extractLsb' 0 8) ++ (x.extractLsb' 8 8)).toNat = _
  rw [toNat_append_eq, BitVec.extractLsb'_toNat, BitVec.extractLsb'_toNat,
    Nat.shiftRight_eq_div_pow, Nat.shiftRight_eq_div_pow]
  omega

/-- The days that make sense in both byte orders. -/
def Ambiguous (year day : BitVec 16) : Prop := year.toNat = 2056 ∧ day.toNat ∈ [1, 256, 257]

theorem validYearDay_swap_iff {year day : BitVec 16} (h : msIsValidYearDay year day = true) :
    msIsValidYearDay (msGswap2a year) (msGswap2a day) = true ↔ Ambiguous year day := by
  have hyear := toNat_msGswap2a year
  have hday := toNat_msGswap2a day
  unfold msIsValidYearDay at h ⊢
  rw [decide_eq_true_eq] at h ⊢
  simp only [Ambiguous, List.mem_cons, List.not_mem_nil, or_false]
  have hyear' : year.toNat / 256 = 7 ∨ year.toNat / 256 = 8 := by omega
  have hday' : day.toNat / 256 = 0 ∨ day.toNat / 256 = 1 := by omega
  rcases hyear' with hyear' | hyear' <;> rcases hday' with hday' | hday' <;>
    rw [hyear'] at hyear <;> rw [hday'] at hday <;> omega

/-- Whether the host has to swap what stands in the order `o`. -/
def mustSwap (host o : Endian) : Bool := o ≠ host

theorem under_mustSwap (host o : Endian) : host.under (mustSwap host o) = o := by
  cases host <;> cases o <;> rfl

theorem Fsdh.swap_swap (fsdh : Fsdh) : fsdh.swap.swap = fsdh := fsdhField.swap_swap fsdh

/-- The host loads a header as it is, or swapped. -/
theorem loadFsdh_of_prefix (host : Endian) {o : Endian} {fsdh : Fsdh} {mem : List Byte}
    (h : (fsdhField.codec o).put fsdh <+: mem) :
    loadFsdh host mem = some (if mustSwap host o then fsdh.swap else fsdh) := by
  have hput := fsdhField.put_under host (mustSwap host o) fsdh
  rw [under_mustSwap] at hput
  rw [hput] at h
  exact fsdhField.load_of_prefix host false Fsdh.zero h

/-- A header whose date tells its byte order. -/
structure Fsdh.Dated (host o : Endian) (fsdh : Fsdh) : Prop where
  valid : msIsValidYearDay fsdh.start_time.year fsdh.start_time.day = true
  clear : o = host ∨ ¬ Ambiguous fsdh.start_time.year fsdh.start_time.day

theorem headerswapflag_eq_iff {host o : Endian} {fsdh : Fsdh}
    (hvalid : msIsValidYearDay fsdh.start_time.year fsdh.start_time.day = true) :
    (if mustSwap host o then fsdh.swap else fsdh).headerswapflag = mustSwap host o ↔
      fsdh.Dated host o := by
  by_cases ho : o = host
  · have hswap : mustSwap host o = false := decide_eq_false (not_not.2 ho)
    rw [hswap, if_neg Bool.false_ne_true, Fsdh.headerswapflag, hvalid]
    exact iff_of_true rfl ⟨hvalid, .inl ho⟩
  · have hswap : mustSwap host o = true := decide_eq_true ho
    rw [hswap, if_pos rfl, Fsdh.headerswapflag, Bool.not_eq_true', ← Bool.not_eq_true]
    change ¬ msIsValidYearDay (msGswap2a _) (msGswap2a _) = true ↔ _
    rw [validYearDay_swap_iff hvalid]
    exact ⟨fun h => ⟨hvalid, .inr h⟩, fun h => h.clear.resolve_left ho⟩

theorem Fsdh.Dated.headerswapflag {host o : Endian} {fsdh : Fsdh} (h : fsdh.Dated host o) :
    (if mustSwap host o then fsdh.swap else fsdh).headerswapflag = mustSwap host o :=
  (headerswapflag_eq_iff h.valid).2 h

/-- A header that is stored in the order `o`, whatever follows it, is read as it was, and its byte
order is found, if and only if its day is not one of those that make sense in both orders. -/
theorem header_stored (host o : Endian) (fsdh : Fsdh) (rest : List Byte)
    (hvalid : msIsValidYearDay fsdh.start_time.year fsdh.start_time.day = true) :
    ∃ raw, loadFsdh host ((fsdhField.codec o).put fsdh ++ rest) = some raw ∧
      (raw.headerswapflag = mustSwap host o ↔
        o = host ∨ ¬ Ambiguous fsdh.start_time.year fsdh.start_time.day) ∧
      (raw.headerswapflag = mustSwap host o →
        (if raw.headerswapflag then raw.swap else raw) = fsdh) := by
  refine ⟨_, loadFsdh_of_prefix host (List.prefix_append _ rest), ?_, fun h => ?_⟩
  · rw [headerswapflag_eq_iff hvalid]
    exact ⟨Fsdh.Dated.clear, fun h => ⟨hvalid, h⟩⟩
  · rw [h]
    cases mustSwap host o
    · rfl
    · exact fsdh.swap_swap

/-- The header of a record of the first day of March 2024. -/
def marchHead : Fsdh :=
  { Fsdh.zero with
    sequence_number := fun _ => 48
    dataquality := 68
    reserved := blank
    start_time := ⟨2024, 61, 0, 0, 0, 0, 0⟩
    numsamples := 2
    samprate_fact := 1
    samprate_mult := 1
    data_offset := 64
    blockette_offset := 48 }

theorem header_stored_march :
    msIsValidYearDay marchHead.start_time.year marchHead.start_time.day = true ∧
      ∃ raw, loadFsdh .littleEnd ((fsdhField.codec .bigEnd).put marchHead ++ []) = some raw ∧
        (raw.headerswapflag = mustSwap .littleEnd .bigEnd ↔ (Endian.bigEnd = .littleEnd ∨
          ¬ Ambiguous marchHead.start_time.year marchHead.start_time.day)) ∧
        (raw.headerswapflag = mustSwap .littleEnd .bigEnd →
          (if raw.headerswapflag then raw.swap else raw) = marchHead) :=
  ⟨by decide, header_stored .littleEnd .bigEnd marchHead [] (by decide)⟩

/-! ## Detecting a record -/

section Detect

variable (host : Endian) (swapflag : Bool) (record : List Byte)

/-- A `uint16_t` of the record, swapped if need be; none if it is not in memory. -/
def loadUint16 (offset : ℕ) : Option (BitVec 16) := uint16.load host swapflag 0 (record.drop offset)

/-- What the walk along the blockettes ends with. -/
inductive Walk where
  /-- A blockette 1000 with this exponent. -/
  | reclen (exponent : Byte)
  | invalidOffset
  | noReclen
deriving DecidableEq

/-- The loop over the blockettes of `ms_detect`. -/
def detectWalk (recbuflen : ℤ) (blkt_offset : ℕ) : Option Walk :=
  if blkt_offset = 0 ∨ recbuflen < blkt_offset then some .noReclen
  else
    (loadUint16 host swapflag record blkt_offset).bind fun blkt_type =>
      (loadUint16 host swapflag record (blkt_offset + 2)).bind fun next_blkt =>
        if blkt_type = 1000 ∧ (blkt_offset + 8 : ℤ) ≤ recbuflen then
          (record[blkt_offset + 6]?).map Walk.reclen
        else if next_blkt = 0 then some .noReclen
        else if next_blkt.toNat < 4 ∨ next_blkt.toNat - 4 ≤ blkt_offset then some .invalidOffset
        else detectWalk recbuflen next_blkt.toNat
termination_by 65536 - blkt_offset
decreasing_by
  have := next_blkt.isLt
  omega

/-- The first place, behind the start and at a multiple of `MINRECLEN`, where a header or a blank
record may stand. -/
def nextFsdh (recbuflen : ℤ) : Option ℕ :=
  ((List.range' 1 (recbuflen.toNat / MINRECLEN)).map (· * MINRECLEN)).find? fun p =>
    ((p + 48 : ℤ) < recbuflen) &&
      (msIsValidHeader (record.drop p) || msIsValidBlank (record.drop p))

/-- `ms_detect`; none if it reads outside of memory or shifts too far. -/
def msDetect (recbuflen : ℤ) : Option ℤ :=
  if recbuflen < 48 then some (-1)
  else if !msIsValidHeader record then some (-1)
  else
    (loadFsdh host record).bind fun fsdh =>
      let swapflag := fsdh.headerswapflag
      let blkt_offset :=
        if swapflag then msGswap2a fsdh.blockette_offset else fsdh.blockette_offset
      (detectWalk host swapflag record recbuflen blkt_offset.toNat).bind fun walk =>
        match walk with
        | .reclen exponent =>
          if exponent.toNat < 32 then some (wrap32 (2 ^ exponent.toNat)) else none
        | .invalidOffset => some (-1)
        | .noReclen => some ((nextFsdh record recbuflen).getD 0)

end Detect

/-! ## The first block of a record -/

/-- The blockettes lead to the length of the record. -/
inductive LeadsTo (o : Endian) (block : List Byte) (exponent : Byte) : ℕ → Prop
  | reclen {offset : ℕ} (next_blkt : BitVec 16) (hoffset : 0 < offset)
    (hinside : offset + 8 ≤ MINRECLEN)
    (hstored : (uint16.codec o).put 1000 ++ (uint16.codec o).put next_blkt <+: block.drop offset)
    (hexponent : block[offset + 6]? = some exponent) : LeadsTo o block exponent offset
  | next {offset : ℕ} (blkt_type next_blkt : BitVec 16) (hoffset : 0 < offset)
    (htype : blkt_type ≠ 1000)
    (hstored : (uint16.codec o).put blkt_type ++ (uint16.codec o).put next_blkt <+:
      block.drop offset)
    (hbehind : offset + 4 < next_blkt.toNat)
    (hnext : LeadsTo o block exponent next_blkt.toNat) : LeadsTo o block exponent offset

variable {host o : Endian} {block : List Byte} {exponent : Byte} {offset : ℕ}

theorem LeadsTo.le (h : LeadsTo o block exponent offset) : offset + 8 ≤ MINRECLEN := by
  induction h with
  | reclen next_blkt hoffset hinside hstored hexponent => exact hinside
  | next blkt_type next_blkt hoffset htype hstored hbehind hnext ih => omega

theorem loadUint16_of_prefix {mem : List Byte} {x : BitVec 16}
    (h : (uint16.codec o).put x <+: mem.drop offset) :
    loadUint16 host (mustSwap host o) mem offset = some x := by
  rw [← under_mustSwap host o] at h
  exact uint16.load_of_prefix host (mustSwap host o) 0 h

variable (host) in
/-- The type of a blockette and the offset of the next one, whatever follows the block. -/
theorem loadUint16_of_stored (rest : List Byte) {blkt_type next_blkt : BitVec 16}
    (h : (uint16.codec o).put blkt_type ++ (uint16.codec o).put next_blkt <+: block.drop offset) :
    loadUint16 host (mustSwap host o) (block ++ rest) offset = some blkt_type ∧
      loadUint16 host (mustSwap host o) (block ++ rest) (offset + 2) = some next_blkt := by
  obtain ⟨behind, hbehind⟩ := h
  have hlength : offset ≤ block.length := by
    by_contra hlt
    rw [List.drop_eq_nil_of_le (by omega)] at hbehind
    have hlong := congrArg List.length hbehind
    rw [List.length_append, List.length_append, uint16.length_put, uint16.length_put] at hlong
    exact absurd hlong (by simp [uint16])
  have hmem : (block ++ rest).drop offset = (uint16.codec o).put blkt_type ++
      ((uint16.codec o).put next_blkt ++ (behind ++ rest)) := by
    rw [List.drop_append_of_le_length hlength, ← hbehind]
    simp only [List.append_assoc]
  constructor
  · exact loadUint16_of_prefix (hmem ▸ List.prefix_append _ _)
  · apply loadUint16_of_prefix
    have hbytes : ((uint16.codec o).put blkt_type).length = 2 := uint16.length_put o blkt_type
    rw [← List.drop_drop, hmem, List.drop_left' hbytes]
    exact List.prefix_append _ _

/-- The walk along the blockettes finds the one with the length. -/
theorem detectWalk_of_leadsTo {rest : List Byte} {recbuflen : ℤ} (hlen : MINRECLEN ≤ recbuflen)
    (h : LeadsTo o block exponent offset) :
    detectWalk host (mustSwap host o) (block ++ rest) recbuflen offset =
      some (.reclen exponent) := by
  induction h with
  | @reclen offset next_blkt hoffset hinside hstored hexponent =>
    obtain ⟨htype, hnext⟩ := loadUint16_of_stored host rest hstored
    rw [detectWalk, if_neg (by omega), htype, Option.bind_some, hnext, Option.bind_some,
      if_pos ⟨rfl, by omega⟩, List.getElem?_append_left (List.getElem?_eq_some_iff.1 hexponent).1,
      hexponent]
    rfl
  | @next offset blkt_type next_blkt hoffset htype hstored hbehind hleads ih =>
    obtain ⟨hload, hnext⟩ := loadUint16_of_stored host rest hstored
    have hle := hleads.le
    have hzero : next_blkt ≠ 0 := by
      rintro rfl
      exact absurd hbehind (by simp)
    rw [detectWalk, if_neg (by omega), hload, Option.bind_some, hnext, Option.bind_some,
      if_neg (fun hboth => htype hboth.1), if_neg hzero, if_neg (by omega), ih]

theorem byteAt_append {rest : List Byte} {i : ℕ} (hi : i < block.length) :
    byteAt (block ++ rest) i = byteAt block i := by
  rw [byteAt, byteAt, List.getD_append _ _ _ _ hi]

theorem msIsValidHeader_append (hblock : 48 ≤ block.length) (rest : List Byte) :
    msIsValidHeader (block ++ rest) = msIsValidHeader block := by
  have hrange : List.range 6 = [0, 1, 2, 3, 4, 5] := rfl
  unfold msIsValidHeader
  simp (disch := omega) only [hrange, List.all_cons, List.all_nil, byteAt_append]

/-- What `ms_detect` needs of the first `MINRECLEN` bytes of a record. -/
structure FirstBlock (host o : Endian) (fsdh : Fsdh) (exponent : Byte) (block : List Byte) :
    Prop where
  length : block.length = MINRECLEN
  header : (fsdhField.codec o).put fsdh <+: block
  valid : msIsValidHeader block = true
  dated : fsdh.Dated host o
  leadsTo : LeadsTo o block exponent fsdh.blockette_offset.toNat
  exponent_lt : exponent.toNat < 31

/-- The length of a record is found in either byte order, as soon as its first block is in the
buffer and whatever follows it. -/
theorem msDetect_record {host o : Endian} {fsdh : Fsdh} {exponent : Byte} {block : List Byte}
    (h : FirstBlock host o fsdh exponent block) (rest : List Byte) {recbuflen : ℤ}
    (hlen : MINRECLEN ≤ recbuflen) :
    msDetect host (block ++ rest) recbuflen = some (2 ^ exponent.toNat) := by
  have hvalid : msIsValidHeader (block ++ rest) = true := by
    rw [msIsValidHeader_append (by rw [h.length]; decide), h.valid]
  have hload := loadFsdh_of_prefix host (h.header.trans (List.prefix_append block rest))
  have hoffset : (if mustSwap host o then
      msGswap2a (if mustSwap host o then fsdh.swap else fsdh).blockette_offset
      else (if mustSwap host o then fsdh.swap else fsdh).blockette_offset) =
        fsdh.blockette_offset := by
    cases mustSwap host o
    · rfl
    · exact msGswap2a_msGswap2a _
  have hpow : (2 : ℤ) ^ exponent.toNat < 2 ^ 31 := pow_lt_pow_right₀ (by decide) h.exponent_lt
  have hpos : (0 : ℤ) < 2 ^ exponent.toNat := by positivity
  unfold MINRECLEN at hlen
  unfold msDetect
  rw [if_neg (by omega), hvalid, if_neg (by decide), hload, Option.bind_some]
  dsimp only
  rw [h.dated.headerswapflag, hoffset, detectWalk_of_leadsTo (by unfold MINRECLEN; omega) h.leadsTo,
    Option.bind_some]
  have hlt := h.exponent_lt
  dsimp only
  rw [if_pos (by omega), wrap32_of_inIntRange ⟨by omega, by omega⟩]

/-- A record of one block with two samples, with the highest byte first. -/
def marchBlock : List Byte :=
  (fsdhField.codec .bigEnd).put marchHead ++ ((uint16.codec .bigEnd).put 1000 ++
    ((uint16.codec .bigEnd).put 0 ++ ([3, 1, 7, 0] ++ (List.replicate 8 0 ++
      ((uint32.codec .bigEnd).putMany [5, -7] ++ List.replicate 56 0)))))

theorem marchBlock_drop : marchBlock.drop 48 = (uint16.codec .bigEnd).put 1000 ++
    (uint16.codec .bigEnd).put 0 ++ ([3, 1, 7, 0] ++ (List.replicate 8 0 ++
      ((uint32.codec .bigEnd).putMany [5, -7] ++ List.replicate 56 0))) :=
  List.drop_left' (fsdhField.length_put .bigEnd marchHead)

theorem length_marchBlock : marchBlock.length = MINRECLEN := by
  rw [marchBlock, List.length_append, fsdhField.length_put]
  rfl

theorem firstBlock_march : FirstBlock .littleEnd .bigEnd marchHead 7 marchBlock where
  length := length_marchBlock
  header := List.prefix_append _ _
  valid := by decide
  dated := ⟨by decide, .inr fun h => absurd h.1 (by decide)⟩
  leadsTo := .reclen 0 (by decide) (by decide) (marchBlock_drop ▸ List.prefix_append _ _)
    (by decide)
  exponent_lt := by decide

end Libmseed

end PQL
