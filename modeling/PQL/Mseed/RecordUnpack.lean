import PQL.Lib.Floats
import PQL.Mseed.SampleFormats
import PQL.Mseed.TraceGroup

/-!
# Unpacking a miniSEED record

`msr_parse` finds the length of a record, and `msr_unpack` fills a structure from its header, its
blockettes and its samples.  What is read outside of the memory behind the record, or shifted too
far, has no result.
-/

namespace PQL

namespace Libmseed

open ByteOrdered

/-- What is wrong with a record. -/
inductive MSError where
  | genError
  | notSeed
  | outOfRange
  | unknownFormat
deriving DecidableEq

/-! ## The environment -/

/-- The variables of the environment, as far as they are set. -/
structure Variables where
  UNPACK_HEADER_BYTEORDER : Option (List CChar)
  UNPACK_DATA_BYTEORDER : Option (List CChar)
  UNPACK_DATA_FORMAT : Option (List CChar)
  UNPACK_DATA_FORMAT_FALLBACK : Option (List CChar)

/-- What the variables force; none for `-1`. -/
structure Environment where
  unpackheaderbyteorder : Option Endian
  unpackdatabyteorder : Option Endian
  unpackencodingformat : Option ℤ
  unpackencodingfallback : ℤ

def byteOrderVariable : Option (List CChar) → Option (Option Endian)
  | none => some none
  | some value =>
    if value.head? = some 48 then some (some .littleEnd)
    else if value.head? = some 49 then some (some .bigEnd)
    else none

/-- `(int) strtol`, from `0` to `33`. -/
def formatVariable (value : List CChar) : Option ℤ :=
  let format := wrap32 (max (-2 ^ 63) (min (2 ^ 63 - 1) (atol value)))
  if format < 0 ∨ 33 < format then none else some format

/-- `check_environment`; none for `-1`. -/
def checkEnvironment (v : Variables) : Option Environment :=
  (byteOrderVariable v.UNPACK_HEADER_BYTEORDER).bind fun header =>
    (byteOrderVariable v.UNPACK_DATA_BYTEORDER).bind fun data =>
      (v.UNPACK_DATA_FORMAT.elim (some none) fun value => (formatVariable value).map some).bind
        fun format =>
          (v.UNPACK_DATA_FORMAT_FALLBACK.elim (some DE_STEIM1) formatVariable).map
            fun fallback => ⟨header, data, format, fallback⟩

/-- The environment of a program that nobody has set up for it. -/
def noVariables : Variables := ⟨none, none, none, none⟩

/-! ## Blockettes -/

/-- A blockette in the chain of a record; the data are as they are in the record. -/
structure BlktLink where
  blktoffset : ℕ
  blkt_type : BitVec 16
  next_blkt : BitVec 16
  blktdata : List Byte
deriving DecidableEq

/-- The lengths of `ms_blktlen`, but for the blockette 2000. -/
def blktLengths : List (ℕ × ℕ) :=
  [(100, 12), (200, 28), (201, 36), (300, 32), (310, 32), (320, 28), (390, 28), (395, 16),
    (400, 16), (500, 8), (1000, 8), (1001, 8)]

/-- The sizes of the structures `blkt_100_s` to `blkt_1001_s`. -/
def blktSizes : List (ℕ × ℕ) :=
  [(100, 8), (200, 48), (201, 56), (300, 56), (310, 56), (320, 60), (390, 24), (395, 12),
    (400, 12), (500, 196), (1000, 4), (1001, 4)]

section Blockettes

variable (host : Endian) (swapflag : Bool) (record : List Byte)

/-- Bytes in memory; none if it ends before them. -/
def bytesAt (offset n : ℕ) : Option (List Byte) :=
  if offset + n ≤ record.length then some ((record.drop offset).take n) else none

/-- `ms_blktlen`, `0` for a type that is not known. -/
def msBlktlen (offset : ℕ) (blkt_type : BitVec 16) : Option ℕ :=
  if blkt_type = 2000 then
    (loadUint16 host swapflag record (offset + 4)).map BitVec.toNat
  else some ((blktLengths.lookup blkt_type.toNat).getD 0)

/-- How many bytes are copied.  Those of a blockette 2000 are swapped in place, which needs room. -/
def blktDatalen (offset : ℕ) (blkt_type : BitVec 16) : Option ℕ :=
  if blkt_type = 2000 then
    (loadUint16 host swapflag record (offset + 4)).bind fun length =>
      let b2klen := (length - 4).toNat
      if swapflag ∧ b2klen < 8 then none else some b2klen
  else some ((blktSizes.lookup blkt_type.toNat).getD 0)

/-- The loop over the blockettes of `msr_unpack`. -/
def blktChain (reclen : ℤ) (offset : ℕ) : Option (List BlktLink) :=
  if offset = 0 ∨ reclen ≤ offset ∨ MAXRECLEN ≤ offset then some []
  else
    (loadUint16 host swapflag record offset).bind fun blkt_type =>
      (loadUint16 host swapflag record (offset + 2)).bind fun next_blkt =>
        (msBlktlen host swapflag record offset blkt_type).bind fun blkt_length =>
          if blkt_length = 0 ∨ reclen < offset + blkt_length then some []
          else
            (blktDatalen host swapflag record offset blkt_type).bind fun length =>
              (bytesAt record (offset + 4) length).bind fun blktdata =>
                let blkt := ⟨offset, blkt_type, next_blkt, blktdata⟩
                if next_blkt = 0 ∨ next_blkt.toNat < offset + blkt_length ∨
                    reclen < next_blkt.toNat then some [blkt]
                else (blktChain reclen next_blkt.toNat).map (blkt :: ·)
termination_by 65536 - offset
decreasing_by
  have := next_blkt.isLt
  omega

end Blockettes

/-- The last blockette of a type, which the shortcut pointer is set to. -/
def lastBlkt (blkt_type : BitVec 16) (blkts : List BlktLink) : Option BlktLink :=
  (blkts.filter fun blkt => blkt.blkt_type = blkt_type).getLast?

/-! ## The structure of a record -/

/-- `MSRecord`, without the pointers. -/
structure MsRecord where
  reclen : ℤ
  fsdh : Fsdh
  blkts : List BlktLink
  sequence_number : ℤ
  id : ChannelId
  dataquality : Byte
  starttime : ℤ
  /-- None if the rate of a blockette 100 is not a number. -/
  samprate : Option ℚ
  samplecnt : ℕ
  encoding : ℤ
  byteorder : ℤ
  sampletype : Char
  datasamples : Option (List Sample)

def trimTail (source : List CChar) : List CChar := source.rdropWhile (· = blank)

/-- A code that `ms_strncpcleantail` copies, up to the first zero. -/
def msStrncpcleantail (source : List CChar) : String :=
  String.ofList (((trimTail source).takeWhile (· ≠ 0)).map fun c => Char.ofNat c.toNat)

/-- `ms_nomsamprate`. -/
def msNomsamprate (factor multiplier : ℤ) : ℚ :=
  let samprate : ℚ :=
    if 0 < factor then factor else if factor < 0 then roundTo 53 (-1 / factor) else 0
  if 0 < multiplier then roundTo 53 (samprate * multiplier)
  else if multiplier < 0 then -1 * roundTo 53 (samprate / multiplier)
  else samprate

/-- What a blockette 1000 sets. -/
structure Coding where
  reclen : ℤ
  encoding : ℤ
  byteorder : ℤ

/-- A blockette sets the coding if it is one of type 1000; none if it shifts too far. -/
def Coding.add (c : Coding) (blkt : BlktLink) : Option Coding :=
  if blkt.blkt_type = 1000 then
    match blkt.blktdata with
    | encoding :: byteorder :: reclen :: _ =>
      if reclen.toNat < 32 then some ⟨wrap32 (2 ^ reclen.toNat), encoding.toInt, byteorder.toInt⟩
      else none
    | _ => none
  else some c

/-- The formats and orders that are forced or fallen back to. -/
def Coding.force (c : Coding) (env : Environment) : Coding :=
  let byteorder := match env.unpackdatabyteorder with
    | some .littleEnd => 0
    | some .bigEnd => 1
    | none => c.byteorder
  let encoding := env.unpackencodingformat.getD c.encoding
  if encoding = -1 then
    ⟨c.reclen, env.unpackencodingfallback, if byteorder = -1 then 1 else byteorder⟩
  else ⟨c.reclen, encoding, byteorder⟩

section Unpack

variable (host : Endian)

/-- `msr_samprate`; the rate of a blockette 100 is swapped in place. -/
def msrSamprate (headerswapflag : Bool) (fsdh : Fsdh) (blkts : List BlktLink) : Option ℚ :=
  match lastBlkt 100 blkts with
  | some blkt => (uint32.load host headerswapflag 0 blkt.blktdata).bind floatValue
  | none => some (msNomsamprate fsdh.samprate_fact.toInt fsdh.samprate_mult.toInt)

/-- What `msr_starttime` reads. -/
def recordTime (fsdh : Fsdh) (blkts : List BlktLink) : RecordTime where
  start_time := fsdh.start_time
  act_flags := fsdh.act_flags
  time_correct := fsdh.time_correct
  usec := (lastBlkt 1001 blkts).map fun blkt => byteAt blkt.blktdata 1

/-- The fields of a record before its samples are unpacked. -/
def makeRecord (headerswapflag : Bool) (fsdh : Fsdh) (blkts : List BlktLink) (c : Coding) :
    MsRecord where
  reclen := c.reclen
  fsdh := fsdh
  blkts := blkts
  sequence_number := atol ((List.ofFn fsdh.sequence_number).takeWhile (· ≠ 0))
  id :=
    { network := msStrncpcleantail (List.ofFn fsdh.network)
      station := msStrncpcleantail (List.ofFn fsdh.station)
      location := msStrncpcleantail (List.ofFn fsdh.location)
      channel := msStrncpcleantail (List.ofFn fsdh.channel) }
  dataquality := fsdh.dataquality
  starttime := msrStarttime (recordTime fsdh blkts)
  samprate := msrSamprate host headerswapflag fsdh blkts
  samplecnt := fsdh.numsamples.toNat
  encoding := c.encoding
  byteorder := c.byteorder
  sampletype := Char.ofNat 0
  datasamples := none

/-! ## The samples -/

/-- `samplesize` of `msr_unpack_data`. -/
def unpackedSize (encoding : ℤ) : ℤ :=
  if encoding = DE_ASCII then 1
  else if encoding ∈ [DE_INT16, DE_INT32, DE_FLOAT32, DE_STEIM1, DE_STEIM2, DE_GEOSCOPE24,
    DE_GEOSCOPE163, DE_GEOSCOPE164, DE_CDSN, DE_SRO, DE_DWWSSN] then 4
  else if encoding = DE_FLOAT64 then 8
  else 0

/-- The decoder of a format, with the type of its samples.  Only the Steim decoders know how many
bytes there are. -/
def decodeSamples (swapflag : Bool) (encoding : ℤ) (dbuf : List Byte)
    (datasize samplecnt unpacksize : ℤ) : Option (Char × Decoded) :=
  if encoding = DE_ASCII then
    (bytesAt dbuf 0 samplecnt.toNat).map fun text => ('a', some (text.map .char))
  else if encoding = DE_INT16 then
    (msrDecodeInt16 host swapflag dbuf samplecnt unpacksize).map ('i', ·)
  else if encoding = DE_INT32 then
    (msrDecodeInt32 host swapflag dbuf samplecnt unpacksize).map ('i', ·)
  else if encoding = DE_FLOAT32 then
    (msrDecodeFloat32 host swapflag dbuf samplecnt unpacksize).map ('f', ·)
  else if encoding = DE_FLOAT64 then
    (msrDecodeFloat64 host swapflag dbuf samplecnt unpacksize).map ('d', ·)
  else if encoding = DE_STEIM1 then
    (bytesAt dbuf 0 datasize.toNat).map fun input =>
      ('i', (msrDecodeSteim1 host swapflag input samplecnt unpacksize).map (List.map .int))
  else if encoding = DE_STEIM2 then
    (bytesAt dbuf 0 datasize.toNat).map fun input =>
      ('i', (msrDecodeSteim2 host swapflag input samplecnt unpacksize).map (List.map .int))
  else if encoding ∈ [DE_GEOSCOPE24, DE_GEOSCOPE163, DE_GEOSCOPE164] then
    (msrDecodeGeoscope host swapflag dbuf samplecnt unpacksize encoding).map ('f', ·)
  else if encoding = DE_CDSN then
    (msrDecodeCdsn host swapflag dbuf samplecnt unpacksize).map ('i', ·)
  else if encoding = DE_SRO then
    (msrDecodeSro host swapflag dbuf samplecnt unpacksize).map ('i', ·)
  else
    (msrDecodeDwwssn host swapflag dbuf samplecnt unpacksize).map ('i', ·)

/-- `msr_unpack_data`. -/
def msrUnpackData (msr : MsRecord) (record : List Byte) (swapflag : Bool) :
    Option (Except MSError MsRecord) :=
  let offset : ℤ := msr.fsdh.data_offset.toNat
  if msr.reclen = -1 then some (.error .notSeed)
  else if msr.reclen < MINRECLEN ∨ MAXRECLEN < msr.reclen then some (.error .outOfRange)
  else if offset < 48 ∨ msr.reclen ≤ offset then some (.error .genError)
  else if unpackedSize msr.encoding = 0 then some (.error .unknownFormat)
  else
    (decodeSamples host swapflag msr.encoding (record.drop offset.toNat) (msr.reclen - offset)
      msr.samplecnt (msr.samplecnt * unpackedSize msr.encoding)).map fun decoded =>
        match decoded.2 with
        | none => .error .genError
        | some samples =>
          if samples.length = msr.samplecnt then
            .ok { msr with sampletype := decoded.1, datasamples := some samples }
          else .error .genError

/-! ## Unpacking and parsing -/

variable (v : Variables) (dataflag : Bool) (record : List Byte)

/-- Whether a byte order that is forced, if one is, needs a swap. -/
def forcedSwap (order : Option Endian) (swapflag : Bool) : Bool :=
  match order with
  | some o => host ≠ o
  | none => swapflag

/-- The `dswapflag` of `msr_unpack`. -/
def dataSwap (env : Environment) (headerswapflag dataswapflag : Bool) (msr : MsRecord) : Bool :=
  if (lastBlkt 1000 msr.blkts).isSome ∧ env.unpackdatabyteorder = none then
    (host = .bigEnd ∧ msr.byteorder = 0) ∨ (host ≠ .bigEnd ∧ 0 < msr.byteorder)
  else if env.unpackdatabyteorder.isSome then dataswapflag
  else headerswapflag

/-- `msr_unpack`; none if it reads outside of memory or shifts too far. -/
def msrUnpack (reclen : ℤ) : Option (Except MSError MsRecord) :=
  if !msIsValidHeader record then some (.error .notSeed)
  else if reclen < MINRECLEN ∨ MAXRECLEN < reclen then some (.error .outOfRange)
  else
    match checkEnvironment v with
    | none => some (.error .genError)
    | some env =>
      (loadFsdh host record).bind fun raw =>
        let headerswapflag := forcedSwap host env.unpackheaderbyteorder raw.headerswapflag
        let dataswapflag := forcedSwap host env.unpackdatabyteorder raw.headerswapflag
        let fsdh := if headerswapflag then raw.swap else raw
        (blktChain host headerswapflag record reclen fsdh.blockette_offset.toNat).bind fun blkts =>
          (blkts.foldlM Coding.add ⟨reclen, -1, -1⟩).bind fun c =>
            let msr := makeRecord host headerswapflag fsdh blkts (c.force env)
            if dataflag ∧ 0 < msr.samplecnt then
              msrUnpackData host msr record (dataSwap host env headerswapflag dataswapflag msr)
            else some (.ok msr)

/-- What `msr_parse` returns. -/
inductive ParseResult (α : Type) where
  | parsed (msr : α)
  /-- So many bytes more are needed. -/
  | more (bytes : ℤ)
  | failed (error : MSError)

def ParseResult.ofExcept {α : Type} : Except MSError α → ParseResult α
  | .ok msr => .parsed msr
  | .error e => .failed e

/-- `msr_parse` once the length is known. -/
def parseLength (recbuflen reclen : ℤ) : Option (ParseResult MsRecord) :=
  if reclen < MINRECLEN ∨ MAXRECLEN < reclen then some (.failed .outOfRange)
  else if recbuflen < reclen then some (.more (reclen - recbuflen))
  else (msrUnpack host v dataflag record reclen).map ParseResult.ofExcept

/-- `msr_parse`. -/
def msrParse (recbuflen reclen : ℤ) : Option (ParseResult MsRecord) :=
  if 0 < reclen then
    if recbuflen < reclen then some (.failed .genError)
    else parseLength host v dataflag record recbuflen reclen
  else
    (msDetect host record recbuflen).bind fun detlen =>
      if detlen < 0 then some (.failed .notSeed)
      else if detlen = 0 then some (.more MINRECLEN)
      else parseLength host v dataflag record recbuflen detlen

end Unpack

end Libmseed

end PQL
