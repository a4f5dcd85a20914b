import PQL.Mseed.Group
import PQL.Segy.Header
import PQL.Sort.DateTime

/-!
# Reading SEGY in either byte order

`idSegy` guesses the byte order of a file with `checkEndian`, decodes the header and makes a trace;
`getSegyData` reads its samples.  A file and the file with all its numbers reversed give the same
trace unless the header has a second meaning (`TwoFaced`) or has an `energySourcePt` other than the
one that `swapSegyHdr` makes up (`segy_byteOrder_iff`).
-/

namespace PQL

def SEGY16 : BitVec 16 := 0

def SEGY32 : BitVec 16 := 1

namespace SegyHead

variable (h : SegyHead)

/-- The value of a `short` field. -/
def num (f : ShortField) : ℤ := (h.short f).toInt

/-- A `short` field is assigned. -/
def setShort (f : ShortField) (v : BitVec 16) : SegyHead :=
  { h with short := Function.update h.short f v }

/-- The header meets the criteria of `check_endian`. -/
def Succeeds : Prop :=
  ¬(h.short .year = 0 ∨ (h.long .samp_rate = 0 ∧ h.short .deltaSample = 0) ∨
    (h.num .day < 0 ∨ h.num .day > 366) ∨ (h.num .hour < 0 ∨ h.num .hour > 23) ∨
    (h.num .minute < 0 ∨ h.num .minute > 59) ∨ (h.num .second < 0 ∨ h.num .second > 60))

instance : Decidable h.Succeeds := inferInstanceAs (Decidable (¬_))

/-- The fields that `check_endian` swaps before it looks at them again. -/
def swapChecked : SegyHead :=
  { h with
    long := Function.update h.long .samp_rate (swap4byte (h.long .samp_rate))
    short := fun f =>
      if f ∈ [.year, .day, .hour, .minute, .second] then swap2byte (h.short f) else h.short f }

end SegyHead

/-- Whether the numbers of the file are swapped; `none` is `FAILURE`. -/
def checkEndian (h : SegyHead) : Option Bool :=
  if h.Succeeds then some false else if h.swapChecked.Succeeds then some true else none

/-! ## The trace -/

/-- `%0ni`. -/
def zeroPadded (n : ℕ) (i : ℤ) : String :=
  let sign := if i < 0 then "-" else ""
  let digits := toString i.natAbs
  sign ++ String.ofList (List.replicate (n - sign.length - digits.length) '0') ++ digits

/-- What `get_segy_hedr` puts into a trace.  `scale_fac` is the bit pattern of a `float`; the epoch
is not defined when it does not fit. -/
structure SegyTrace where
  endianSwap : Bool
  data_form : DataForm
  dataSize : ℕ
  year : ℤ
  day : ℤ
  hour : ℤ
  minute : ℤ
  second : ℤ
  m_secs : ℤ
  gainConst : ℤ
  scale_fac : Word
  numSamples : ℤ
  sampInt : ℤ
  length : ℚ
  sensorID : String
  channel : String
  descr1 : String
  descr2 : String
  epochs : Option ℚ
  fileHdr : SegyHead

/-- A time before 1970 is replaced. -/
def fixYear (h : SegyHead) : SegyHead :=
  if h.num .year < 1970 then
    { h with
      short := fun f =>
        if f = .year then 1970 else if f ∈ [.day, .hour, .minute, .second, .m_secs] then 0
        else h.short f }
  else h

/-- The seconds between the first sample and the last; a quotient by zero counts as zero, as the
reciprocal of an infinite one does. -/
def segyLength (numSamples sampInt : ℤ) : ℚ :=
  let oneSample := roundTo 24 (roundTo 53 (1 / roundTo 53 (1000000 / sampInt)))
  roundTo 24 (roundTo 24 (roundTo 24 numSamples * roundTo 24 (roundTo 53 (sampInt / 1000000))) -
    oneSample)

/-- The start time; `check_endian` has seen to the range of the hour, minute and second. -/
def segyTime (h : SegyHead) : PTime where
  yr := h.num .year
  mo := 0
  day := h.num .day
  hr := (h.num .hour).toNat
  mn := (h.num .minute).toNat
  sec := (h.num .second).toNat
  mo_le := PTime.noMonth_le
  sec_nonneg := Nat.cast_nonneg _

/-- `get_segy_hedr` behind the swap; a channel of ten digits runs on into the sensor. -/
def traceOfHead (endianSwap : Bool) (segy_head : SegyHead) : SegyTrace :=
  let wide := segy_head.short .data_form = SEGY32
  let h := fixYear segy_head
  let numSamples :=
    if h.long .num_samps = 0 then h.num .sampleLength else (h.long .num_samps).toInt
  let sampInt :=
    if h.num .deltaSample ≠ 1 then h.num .deltaSample else (h.long .samp_rate).toInt
  let inst_no : ℤ := (h.short .inst_no).toNat
  let channel_number := (h.long .channel_number).toInt
  let channel := toString channel_number
  { endianSwap
    data_form := if wide then .BIT32 else .BIT16
    dataSize := if wide then 4 else 2
    year := h.num .year
    day := h.num .day
    hour := h.num .hour
    minute := h.num .minute
    second := h.num .second
    m_secs := h.num .m_secs
    gainConst := if h.num .gainConst = 0 then 1 else h.num .gainConst
    scale_fac := if h.scale_fac = 0 ∨ h.scale_fac = 0x80000000 then 0x3F800000 else h.scale_fac
    numSamples
    sampInt
    length := segyLength numSamples sampInt
    sensorID := if channel.length < 10 then toString inst_no else (channel.drop 10).toString
    channel
    descr1 := toString (h.num .year) ++ " " ++ zeroPadded 3 (h.num .day) ++ " " ++
      zeroPadded 2 (h.num .hour) ++ ":" ++ zeroPadded 2 (h.num .minute)
    descr2 := "ID: " ++ zeroPadded 3 inst_no ++ " C: " ++ channel
    epochs := (passcalHtoe (segyTime h) false).map fun epoch =>
      roundTo 53 (epoch + roundTo 53 (h.num .m_secs / 1000))
    fileHdr := h }

/-- The header as the readers load it. -/
def loadHead (host : Endian) (endianSwap : Bool) (bytes : List Byte) : SegyHead :=
  if endianSwap then swapSegyHdr host (readHead host bytes) else readHead host bytes

def getSegyHedr (host : Endian) (endianSwap : Bool) (bytes : List Byte) : Option SegyTrace :=
  if bytes.length < 240 then none
  else some (traceOfHead endianSwap (loadHead host endianSwap bytes))

/-- `IDsegy`. -/
def idSegy (host : Endian) (bytes : List Byte) : Option SegyTrace :=
  if bytes.length < 240 then none
  else (checkEndian (readHead host bytes)).bind fun endianSwap => getSegyHedr host endianSwap bytes

/-! ## The samples -/

inductive SegySamples where
  | bit16 (xs : List (BitVec 16))
  | bit32 (xs : List Word)
deriving DecidableEq

/-- The swap loop of `get_segy_data`. -/
def SegySamples.swap (data_form : BitVec 16) (data : SegySamples) : SegySamples :=
  match data with
  | .bit32 xs => if data_form = SEGY32 then .bit32 (xs.map swap4byte) else .bit32 xs
  | .bit16 xs => if data_form = SEGY16 then .bit16 (xs.map swap2byte) else .bit16 xs

/-- `fread` of at most `n` samples. -/
def readSamples (host : Endian) (data_form : DataForm) (n : ℕ) (bytes : List Byte) : SegySamples :=
  if data_form = .BIT32 then .bit32 (((quads bytes).take n).map (loadInt host))
  else .bit16 (((pairs bytes).take n).map (loadShort host))

def SegySamples.count : SegySamples → ℕ
  | bit16 xs => xs.length
  | bit32 xs => xs.length

/-- The number of samples afterwards and the samples; `none` is `FAILURE`. -/
def getSegyData (host : Endian) (t : SegyTrace) (bytes : List Byte) : Option (ℕ × SegySamples) :=
  if bytes.length < 240 then none
  else if t.sampInt < 1 then none
  else if t.numSamples ≤ 0 then none
  else
    let segy_head := loadHead host t.endianSwap bytes
    let data := readSamples host t.data_form t.numSamples.toNat (bytes.drop 240)
    some (data.count, if t.endianSwap then data.swap (segy_head.short .data_form) else data)

/-! ## The endianness check -/

theorem short_le_iff (v : BitVec 16) {m : ℕ} (hm : m < 2 ^ 15) :
    ¬(v.toInt < 0 ∨ v.toInt > m) ↔ v.toNat ≤ m := by
  have hv := v.isLt
  rw [BitVec.toInt_eq_toNat_cond]
  split_ifs <;> omega

/-- The criteria of `check_endian` on the numbers of the header. -/
theorem SegyHead.succeeds_iff (h : SegyHead) :
    h.Succeeds ↔ h.short .year ≠ 0 ∧ ¬(h.long .samp_rate = 0 ∧ h.short .deltaSample = 0) ∧
      (h.short .day).toNat ≤ 366 ∧ (h.short .hour).toNat ≤ 23 ∧ (h.short .minute).toNat ≤ 59 ∧
      (h.short .second).toNat ≤ 60 := by
  have hday := short_le_iff (h.short .day) (m := 366) (by decide)
  have hhour := short_le_iff (h.short .hour) (m := 23) (by decide)
  have hminute := short_le_iff (h.short .minute) (m := 59) (by decide)
  have hsecond := short_le_iff (h.short .second) (m := 60) (by decide)
  rw [SegyHead.Succeeds, ← hday, ← hhour, ← hminute, ← hsecond]
  simp only [SegyHead.num, not_or, ne_eq, Nat.cast_ofNat]

theorem toNat_swap2byte (v : BitVec 16) :
    (swap2byte v).toNat = v.toNat % 256 * 256 + v.toNat / 256 := by
  have hv : v = v.extractLsb' 8 8 ++ v.extractLsb' 0 8 := by
    rw [BitVec.extractLsb'_append_extractLsb'_eq_extractLsb' (by decide)]
    exact BitVec.extractLsb'_eq_self.symm
  rw [hv, swap2byte_append, toNat_append_eq, toNat_append_eq]
  have hhi := (v.extractLsb' 8 8).isLt
  have hlo := (v.extractLsb' 0 8).isLt
  omega

theorem swap2byte_eq_zero_iff (v : BitVec 16) : swap2byte v = 0#16 ↔ v = 0#16 := by
  constructor
  · intro h
    rw [← swap2byte_swap2byte v, h]
    decide
  · rintro rfl
    decide

theorem swap4byte_eq_zero_iff (v : Word) : swap4byte v = 0#32 ↔ v = 0#32 := by
  constructor
  · intro h
    rw [← swap4byte_swap4byte v, h]
    decide
  · rintro rfl
    decide

/-- The header with its numbers reversed meets the criteria as it stands. -/
def SegyHead.TwoFaced (h : SegyHead) : Prop :=
  h.short .day ∈ [0, 1, 256, 257] ∧ h.short .hour = 0 ∧ h.short .minute = 0 ∧ h.short .second = 0

instance (h : SegyHead) : Decidable h.TwoFaced := inferInstanceAs (Decidable (_ ∧ _))

/-- The numbers of `h'` are those of `h` with their bytes reversed. -/
structure Reversed (h h' : SegyHead) : Prop where
  long : ∀ f, h'.long f = swap4byte (h.long f)
  short : ∀ f, h'.short f = swap2byte (h.short f)

theorem Reversed.succeeds_iff {h h' : SegyHead} (r : Reversed h h') (hs : h.Succeeds) :
    h'.Succeeds ↔ h.TwoFaced := by
  have hnat : ∀ (v : BitVec 16) (n : ℕ), n < 2 ^ 16 → (v = BitVec.ofNat 16 n ↔ v.toNat = n) := by
    intro v n hn
    rw [← BitVec.toNat_inj, BitVec.toNat_ofNat, Nat.mod_eq_of_lt hn]
  rw [SegyHead.succeeds_iff] at hs
  obtain ⟨hyear, hrate, hday, hhour, hminute, hsecond⟩ := hs
  simp only [SegyHead.succeeds_iff, r.long, r.short, BitVec.ofNat_eq_ofNat, ne_eq,
    swap4byte_eq_zero_iff, toNat_swap2byte, SegyHead.TwoFaced, List.mem_cons, List.not_mem_nil,
    or_false, hnat _ 0 (by decide), hnat _ 1 (by decide), hnat _ 256 (by decide),
    hnat _ 257 (by decide)] at hyear hrate ⊢
  constructor
  · rintro ⟨-, -, hd, hh, hm, hsec⟩
    exact ⟨by omega, by omega, by omega, by omega⟩
  · rintro ⟨hd, hh, hm, hsec⟩
    exact ⟨by omega, fun hr => hrate ⟨hr.1, by omega⟩, by omega, by omega, by omega, by omega⟩

theorem Reversed.swapChecked_succeeds {h h' : SegyHead} (r : Reversed h h') (hs : h.Succeeds) :
    h'.swapChecked.Succeeds := by
  rw [SegyHead.succeeds_iff] at hs ⊢
  simpa [SegyHead.swapChecked, r.long, r.short, swap2byte_eq_zero_iff] using hs

/-- A header that succeeds is taken for one of the host; with its numbers reversed it is taken for
one of the other byte order unless it has a second meaning. -/
theorem Reversed.checkEndian_eq {h h' : SegyHead} (r : Reversed h h') (hs : h.Succeeds) :
    checkEndian h = some false ∧ checkEndian h' = some (decide ¬h.TwoFaced) := by
  refine ⟨if_pos hs, ?_⟩
  by_cases htwo : h.TwoFaced
  · rw [checkEndian, if_pos ((r.succeeds_iff hs).2 htwo), decide_eq_false (not_not.2 htwo)]
  · rw [checkEndian, if_neg (mt (r.succeeds_iff hs).1 htwo), if_pos (r.swapChecked_succeeds hs),
      decide_eq_true htwo]

/-! ## Files of the other byte order -/

/-- The samples with their bytes reversed; an incomplete one at the end is left out. -/
def swapSamples (data_form : BitVec 16) (bytes : List Byte) : List Byte :=
  if data_form = SEGY32 then (quads bytes).flatMap fun q => q.reverse.bytes
  else (pairs bytes).flatMap fun p => p.reverse.bytes

/-- The file with every number of the header and every sample reversed. -/
def swapFile (host : Endian) (bytes : List Byte) : List Byte :=
  swapHead bytes ++ swapSamples ((readHead host bytes).short .data_form) (bytes.drop 240)

/-- A file in the byte order of the host. -/
structure ValidSegy (host : Endian) (bytes : List Byte) : Prop where
  header : 240 ≤ bytes.length
  criteria : (readHead host bytes).Succeeds
  data_form : (readHead host bytes).short .data_form ∈ [SEGY16, SEGY32]

/-- Both files are taken for what they are and give the same trace and the same samples. -/
def SameTrace (host : Endian) (bytes : List Byte) : Prop :=
  ∃ t t' : SegyTrace, idSegy host bytes = some t ∧ t.endianSwap = false ∧
    idSegy host (swapFile host bytes) = some t' ∧ t' = { t with endianSwap := true } ∧
    getSegyData host t' (swapFile host bytes) = getSegyData host t bytes

theorem reversed_swapFile (host : Endian) (bytes : List Byte) :
    Reversed (readHead host bytes) (readHead host (swapFile host bytes)) := by
  rw [swapFile, readHead_swapHead]
  exact ⟨fun _ => rfl, fun _ => rfl⟩

theorem length_swapFile (host : Endian) (bytes : List Byte) :
    ¬(swapFile host bytes).length < 240 := by
  rw [swapFile, List.length_append, swapHead, length_tabulate]
  omega

theorem drop_swapFile (host : Endian) (bytes : List Byte) :
    (swapFile host bytes).drop 240 =
      swapSamples ((readHead host bytes).short .data_form) (bytes.drop 240) := by
  rw [swapFile, List.drop_append_of_le_length, List.drop_of_length_le, List.nil_append] <;>
  rw [swapHead, length_tabulate]

/-- The samples of the reversed file, swapped, are those of the file. -/
theorem swap_readSamples (host : Endian) (wide : Bool) (n : ℕ) (bytes : List Byte) :
    (readSamples host (if wide then .BIT32 else .BIT16) n
      (swapSamples (if wide then SEGY32 else SEGY16) bytes)).swap
        (if wide then SEGY32 else SEGY16) =
      readSamples host (if wide then .BIT32 else .BIT16) n bytes := by
  cases wide
  · have hpairs : pairs (swapSamples SEGY16 bytes) = (pairs bytes).map Pair.reverse := by
      rw [swapSamples, if_neg (by decide), ← pairs_flatMap_bytes ((pairs bytes).map Pair.reverse),
        List.flatMap_map]
    show SegySamples.swap SEGY16 (readSamples host .BIT16 n (swapSamples SEGY16 bytes)) = _
    simp only [readSamples, hpairs, SegySamples.swap, ← List.map_take]
    refine congrArg SegySamples.bit16 ?_
    rw [List.map_map, List.map_map]
    refine List.map_congr_left fun p _ => ?_
    exact swap2byte_loadShort host p.reverse
  · have hquads : quads (swapSamples SEGY32 bytes) = (quads bytes).map Quad.reverse := by
      rw [swapSamples, if_pos rfl, ← quads_flatMap_bytes ((quads bytes).map Quad.reverse),
        List.flatMap_map]
    show SegySamples.swap SEGY32 (readSamples host .BIT32 n (swapSamples SEGY32 bytes)) = _
    simp only [readSamples, hquads, SegySamples.swap, ← List.map_take]
    refine congrArg SegySamples.bit32 ?_
    rw [List.map_map, List.map_map]
    refine List.map_congr_left fun q _ => ?_
    exact swap4byte_loadInt host q.reverse

/-! ## The traces of both files -/

theorem fixYear_long (h : SegyHead) : (fixYear h).long = h.long := by
  unfold fixYear
  split_ifs <;> rfl

theorem idSegy_of_valid {host : Endian} {bytes : List Byte} (hv : ValidSegy host bytes) :
    idSegy host bytes = some (traceOfHead false (readHead host bytes)) := by
  have hlen : ¬bytes.length < 240 := not_lt.2 hv.header
  rw [idSegy, if_neg hlen, ((reversed_swapFile host bytes).checkEndian_eq hv.criteria).1,
    Option.bind_some, getSegyHedr, if_neg hlen]
  rfl

/-- The header that `swapSegyHdr` makes of the reversed one. -/
def restoredHead (h : SegyHead) : SegyHead :=
  { h with long := Function.update h.long .energySourcePt (swap4byte (h.long .channel_number)) }

theorem loadHead_swapFile (host : Endian) (bytes : List Byte) :
    loadHead host true (swapFile host bytes) = restoredHead (readHead host bytes) := by
  rw [loadHead, if_pos rfl, swapFile, swapSegyHdr_readHead_swapHead]
  rfl

theorem idSegy_swapFile {host : Endian} {bytes : List Byte} (hv : ValidSegy host bytes) :
    idSegy host (swapFile host bytes) =
      if (readHead host bytes).TwoFaced then
        some (traceOfHead false (readHead host (swapFile host bytes)))
      else some (traceOfHead true (restoredHead (readHead host bytes))) := by
  rw [idSegy, if_neg (length_swapFile host bytes),
    ((reversed_swapFile host bytes).checkEndian_eq hv.criteria).2, Option.bind_some, getSegyHedr,
    if_neg (length_swapFile host bytes)]
  by_cases htwo : (readHead host bytes).TwoFaced
  · rw [if_pos htwo, decide_eq_false (not_not.2 htwo)]
    rfl
  · rw [if_neg htwo, decide_eq_true htwo, loadHead_swapFile]

theorem energySourcePt_restoredHead (h : SegyHead) :
    (restoredHead h).long .energySourcePt = swap4byte (h.long .channel_number) := by
  simp only [restoredHead, Function.update_self]

theorem restoredHead_eq_iff (h : SegyHead) :
    restoredHead h = h ↔ h.long .energySourcePt = swap4byte (h.long .channel_number) := by
  constructor
  · intro heq
    rw [← energySourcePt_restoredHead, heq]
  · intro heq
    rw [restoredHead, ← heq, Function.update_eq_self]

theorem count_swap (form : BitVec 16) (data : SegySamples) :
    (data.swap form).count = data.count := by
  cases data <;> simp only [SegySamples.swap] <;> split_ifs <;>
    simp only [SegySamples.count, List.length_map]

theorem getSegyData_swapFile {host : Endian} {bytes : List Byte} (hv : ValidSegy host bytes) :
    getSegyData host (traceOfHead true (readHead host bytes)) (swapFile host bytes) =
      getSegyData host (traceOfHead false (readHead host bytes)) bytes := by
  obtain ⟨wide, hwide⟩ : ∃ wide : Bool,
      (readHead host bytes).short .data_form = if wide then SEGY32 else SEGY16 := by
    rcases List.mem_cons.1 hv.data_form with h | h
    · exact ⟨false, h⟩
    · exact ⟨true, List.mem_singleton.1 h⟩
  have hform (endianSwap : Bool) : (traceOfHead endianSwap (readHead host bytes)).data_form =
      if wide then .BIT32 else .BIT16 := by
    show (if (readHead host bytes).short .data_form = SEGY32 then DataForm.BIT32 else .BIT16) = _
    rw [hwide]
    cases wide <;> rfl
  have hshort : (loadHead host true (swapFile host bytes)).short .data_form =
      if wide then SEGY32 else SEGY16 := by
    rw [loadHead_swapFile, ← hwide]
    rfl
  unfold getSegyData
  rw [if_neg (length_swapFile host bytes), if_neg (not_lt.2 hv.header), hform, hform, drop_swapFile,
    hwide]
  refine if_congr Iff.rfl rfl (if_congr Iff.rfl rfl ?_)
  have hdata := swap_readSamples host wide
    (traceOfHead true (readHead host bytes)).numSamples.toNat (bytes.drop 240)
  show some (SegySamples.count _, SegySamples.swap
    ((loadHead host true (swapFile host bytes)).short .data_form) _) = some (_, _)
  rw [hshort, hdata, ← count_swap (if wide then SEGY32 else SEGY16), hdata]
  rfl

theorem SameTrace.of_valid {host : Endian} {bytes : List Byte} (h : SameTrace host bytes)
    (hv : ValidSegy host bytes) :
    ¬(readHead host bytes).TwoFaced ∧
      (readHead host bytes).long .energySourcePt =
        swap4byte ((readHead host bytes).long .channel_number) := by
  obtain ⟨t, t', ht, -, ht', heq, -⟩ := h
  rw [idSegy_of_valid hv, Option.some_inj] at ht
  rw [idSegy_swapFile hv] at ht'
  split_ifs at ht' with htwo
  · have hswap : t'.endianSwap = true := by rw [heq]
    rw [← Option.some_inj.1 ht'] at hswap
    exact absurd hswap Bool.false_ne_true
  · refine ⟨htwo, ?_⟩
    have hhead : t'.fileHdr = t.fileHdr := by rw [heq]
    rw [← Option.some_inj.1 ht', ← ht] at hhead
    have hlong : (restoredHead (readHead host bytes)).long .energySourcePt =
        (readHead host bytes).long .energySourcePt := by
      rw [← fixYear_long, ← fixYear_long (readHead host bytes)]
      exact congrFun (congrArg SegyHead.long hhead) .energySourcePt
    rw [← hlong, energySourcePt_restoredHead]

/-- Reading a file in both byte orders gives the same trace exactly if its header has one meaning
only and its `energySourcePt` is the one that `swapSegyHdr` makes up. -/
theorem segy_byteOrder_iff (host : Endian) (bytes : List Byte) (hv : ValidSegy host bytes) :
    SameTrace host bytes ↔
      ¬(readHead host bytes).TwoFaced ∧
        (readHead host bytes).long .energySourcePt =
          swap4byte ((readHead host bytes).long .channel_number) := by
  refine ⟨fun h => h.of_valid hv, ?_⟩
  rintro ⟨htwo, hpoint⟩
  refine ⟨_, _, idSegy_of_valid hv, rfl, (idSegy_swapFile hv).trans (if_neg htwo), ?_, ?_⟩
  · rw [(restoredHead_eq_iff _).2 hpoint]
    rfl
  · rw [(restoredHead_eq_iff _).2 hpoint]
    exact getSegyData_swapFile hv

/-- A little-endian file of the year 2000, day 100, 12:00 with two samples of 32 bits. -/
def channelOneFile : List Byte :=
  [(12, 1), (114, 2), (116, 10), (156, 0xd0), (157, 0x07), (158, 100), (160, 12), (204, 1)].foldl
    (fun bytes (o, b) => bytes.set o b) (List.replicate 240 0) ++ [1, 2, 3, 4, 5, 6, 7, 8]

theorem channelOneFile_valid : ValidSegy .littleEnd channelOneFile :=
  ⟨by decide +kernel, by decide +kernel, by decide +kernel⟩

theorem segy_byteOrder_channelZero :
    ValidSegy .littleEnd (channelOneFile.set 12 0) ∧
      SameTrace .littleEnd (channelOneFile.set 12 0) := by
  have hv : ValidSegy .littleEnd (channelOneFile.set 12 0) :=
    ⟨by decide +kernel, by decide +kernel, by decide +kernel⟩
  exact ⟨hv, (segy_byteOrder_iff _ _ hv).2 ⟨by decide +kernel, by decide +kernel⟩⟩

/-- With channel number one, `energySourcePt` differs. -/
theorem segy_byteOrder_differs :
    ValidSegy .littleEnd channelOneFile ∧ ¬SameTrace .littleEnd channelOneFile := by
  refine ⟨channelOneFile_valid, fun h => ?_⟩
  exact absurd (h.of_valid channelOneFile_valid).2 (by decide +kernel)

end PQL
