import PQL.Lib.Arrays
import PQL.Segy.Swap

/-!
# SEGY headers

The 240 bytes of `struct SegyHead` as they are read into memory (`readHead`), the assignments of
`swapSegyHdr` in the order of the source, and the header with the bytes of every number reversed
(`swapHead`).  Each assignment swaps the field that it sets, except the one of `energySourcePt`,
which takes the channel number again (`swapSegyHdr_readHead`).
-/

namespace PQL

/-- The `gint32` fields of `struct SegyHead`. -/
inductive LongField where
  | lineSeq | reelSeq | event_number | channel_number | energySourcePt | cdpEns | traceInEnsemble
  | sourceToRecDist | recElevation | sourceSurfaceElevation | sourceDepth | datumElevRec
  | datumElevSource | sourceWaterDepth | recWaterDepth | sourceLongOrX | sourceLatOrY | recLongOrX
  | recLatOrY | samp_rate | num_samps | max | min
deriving DecidableEq

/-- The `short` fields of `struct SegyHead`. -/
inductive ShortField where
  | traceID | vertSum | horSum | dataUse | elevationScale | coordScale | coordUnits
  | weatheringVelocity | subWeatheringVelocity | sourceUpholeTime | recUpholeTime | sourceStaticCor
  | recStaticCor | totalStatic | lagTimeA | lagTimeB | delay | muteStart | muteEnd | sampleLength
  | deltaSample | gainType | gainConst | initialGain | correlated | sweepStart | sweepEnd
  | sweepLength | sweepType | sweepTaperAtStart | sweepTaperAtEnd | taperType | aliasFreq
  | aliasSlope | notchFreq | notchSlope | lowCutFreq | hiCutFreq | lowCutSlope | hiCutSlope | year
  | day | hour | minute | second | timeBasisCode | traceWeightingFactor | phoneRollPos1
  | phoneFirstTrace | phoneLastTrace | gapSize | taperOvertravel | totalStaticHi | data_form
  | m_secs | trigyear | trigday | trighour | trigminute | trigsecond | trigmills | inst_no
  | not_to_be_used
deriving DecidableEq

def LongField.offset : LongField → ℕ
  | .lineSeq => 0 | .reelSeq => 4 | .event_number => 8 | .channel_number => 12
  | .energySourcePt => 16 | .cdpEns => 20 | .traceInEnsemble => 24 | .sourceToRecDist => 36
  | .recElevation => 40 | .sourceSurfaceElevation => 44 | .sourceDepth => 48 | .datumElevRec => 52
  | .datumElevSource => 56 | .sourceWaterDepth => 60 | .recWaterDepth => 64 | .sourceLongOrX => 72
  | .sourceLatOrY => 76 | .recLongOrX => 80 | .recLatOrY => 84 | .samp_rate => 200
  | .num_samps => 228 | .max => 232 | .min => 236

def ShortField.offset : ShortField → ℕ
  | .traceID => 28 | .vertSum => 30 | .horSum => 32 | .dataUse => 34 | .elevationScale => 68
  | .coordScale => 70 | .coordUnits => 88 | .weatheringVelocity => 90
  | .subWeatheringVelocity => 92 | .sourceUpholeTime => 94 | .recUpholeTime => 96
  | .sourceStaticCor => 98 | .recStaticCor => 100 | .totalStatic => 102 | .lagTimeA => 104
  | .lagTimeB => 106 | .delay => 108 | .muteStart => 110 | .muteEnd => 112 | .sampleLength => 114
  | .deltaSample => 116 | .gainType => 118 | .gainConst => 120 | .initialGain => 122
  | .correlated => 124 | .sweepStart => 126 | .sweepEnd => 128 | .sweepLength => 130
  | .sweepType => 132 | .sweepTaperAtStart => 134 | .sweepTaperAtEnd => 136 | .taperType => 138
  | .aliasFreq => 140 | .aliasSlope => 142 | .notchFreq => 144 | .notchSlope => 146
  | .lowCutFreq => 148 | .hiCutFreq => 150 | .lowCutSlope => 152 | .hiCutSlope => 154
  | .year => 156 | .day => 158 | .hour => 160 | .minute => 162 | .second => 164
  | .timeBasisCode => 166 | .traceWeightingFactor => 168 | .phoneRollPos1 => 170
  | .phoneFirstTrace => 172 | .phoneLastTrace => 174 | .gapSize => 176 | .taperOvertravel => 178
  | .totalStaticHi => 198 | .data_form => 204 | .m_secs => 206 | .trigyear => 208 | .trigday => 210
  | .trighour => 212 | .trigminute => 214 | .trigsecond => 216 | .trigmills => 218
  | .inst_no => 224 | .not_to_be_used => 226

/-- `struct SegyHead`; `names` are the 18 bytes of `station_name`, `sensor_serial` and
`channel_name`, and `scale_fac` is the bit pattern of a `float`. -/
@[ext]
structure SegyHead where
  long : LongField → Word
  short : ShortField → BitVec 16
  scale_fac : Word
  names : List Byte

/-! ## Reading -/

/-- The byte at the offset `o`. -/
def byteAt (bytes : List Byte) (o : ℕ) : Byte := bytes.getD o 0

def longAt (bytes : List Byte) (o : ℕ) : Quad :=
  ⟨byteAt bytes o, byteAt bytes (o + 1), byteAt bytes (o + 2), byteAt bytes (o + 3)⟩

def shortAt (bytes : List Byte) (o : ℕ) : Pair := ⟨byteAt bytes o, byteAt bytes (o + 1)⟩

/-- `fread` of the header. -/
def readHead (host : Endian) (bytes : List Byte) : SegyHead where
  long f := loadInt host (longAt bytes f.offset)
  short f := loadShort host (shortAt bytes f.offset)
  scale_fac := loadInt host (longAt bytes 220)
  names := (List.range 18).map fun i => byteAt bytes (180 + i)

/-! ## Swapping a header -/

/-- An assignment of `swapSegyHdr`; the first field is the one that is set. -/
inductive SwapStmt where
  | long (set read : LongField)
  | short (set read : ShortField)
  | float

def SwapStmt.exec (host : Endian) (h : SegyHead) : SwapStmt → SegyHead
  | .long set read => { h with long := Function.update h.long set (swap4byte (h.long read)) }
  | .short set read => { h with short := Function.update h.short set (swap2byte (h.short read)) }
  | .float => { h with scale_fac := swap4byteF host h.scale_fac }

def swapStmts : List SwapStmt := [
  .long .lineSeq .lineSeq, .long .reelSeq .reelSeq, .long .event_number .event_number,
  .long .channel_number .channel_number, .long .energySourcePt .channel_number,
  .long .cdpEns .cdpEns, .long .traceInEnsemble .traceInEnsemble, .short .traceID .traceID,
  .short .vertSum .vertSum, .short .horSum .horSum, .short .dataUse .dataUse,
  .long .sourceToRecDist .sourceToRecDist, .long .recElevation .recElevation,
  .long .sourceSurfaceElevation .sourceSurfaceElevation, .long .sourceDepth .sourceDepth,
  .long .datumElevRec .datumElevRec, .long .datumElevSource .datumElevSource,
  .long .sourceWaterDepth .sourceWaterDepth, .long .recWaterDepth .recWaterDepth,
  .short .elevationScale .elevationScale, .short .coordScale .coordScale,
  .long .sourceLongOrX .sourceLongOrX, .long .sourceLatOrY .sourceLatOrY,
  .long .recLongOrX .recLongOrX, .long .recLatOrY .recLatOrY, .short .coordUnits .coordUnits,
  .short .weatheringVelocity .weatheringVelocity,
  .short .subWeatheringVelocity .subWeatheringVelocity, .short .sourceUpholeTime .sourceUpholeTime,
  .short .recUpholeTime .recUpholeTime, .short .sourceStaticCor .sourceStaticCor,
  .short .recStaticCor .recStaticCor, .short .totalStatic .totalStatic, .short .lagTimeA .lagTimeA,
  .short .lagTimeB .lagTimeB, .short .delay .delay, .short .muteStart .muteStart,
  .short .muteEnd .muteEnd, .short .sampleLength .sampleLength, .short .deltaSample .deltaSample,
  .short .gainType .gainType, .short .gainConst .gainConst, .short .initialGain .initialGain,
  .short .correlated .correlated, .short .sweepStart .sweepStart, .short .sweepEnd .sweepEnd,
  .short .sweepLength .sweepLength, .short .sweepType .sweepType,
  .short .sweepTaperAtStart .sweepTaperAtStart, .short .sweepTaperAtEnd .sweepTaperAtEnd,
  .short .taperType .taperType, .short .aliasFreq .aliasFreq, .short .aliasSlope .aliasSlope,
  .short .notchFreq .notchFreq, .short .notchSlope .notchSlope, .short .lowCutFreq .lowCutFreq,
  .short .hiCutFreq .hiCutFreq, .short .lowCutSlope .lowCutSlope, .short .hiCutSlope .hiCutSlope,
  .short .year .year, .short .day .day, .short .hour .hour, .short .minute .minute,
  .short .second .second, .short .timeBasisCode .timeBasisCode,
  .short .traceWeightingFactor .traceWeightingFactor, .short .phoneRollPos1 .phoneRollPos1,
  .short .phoneFirstTrace .phoneFirstTrace, .short .phoneLastTrace .phoneLastTrace,
  .short .gapSize .gapSize, .short .taperOvertravel .taperOvertravel,
  .short .totalStaticHi .totalStaticHi, .long .samp_rate .samp_rate, .short .data_form .data_form,
  .short .m_secs .m_secs, .short .trigyear .trigyear, .short .trigday .trigday,
  .short .trighour .trighour, .short .trigminute .trigminute, .short .trigsecond .trigsecond,
  .short .trigmills .trigmills, .float, .short .inst_no .inst_no,
  .short .not_to_be_used .not_to_be_used, .long .num_samps .num_samps, .long .max .max,
  .long .min .min]

def swapSegyHdr (host : Endian) (h : SegyHead) : SegyHead := swapStmts.foldl (SwapStmt.exec host) h

/-- `energySourcePt` gets the channel number, which has been swapped before. -/
theorem swapSegyHdr_long (host : Endian) (h : SegyHead) (f : LongField) :
    (swapSegyHdr host h).long f =
      if f = .energySourcePt then swap4byte (swap4byte (h.long .channel_number))
      else swap4byte (h.long f) := by
  cases f <;> rfl

theorem swapSegyHdr_short (host : Endian) (h : SegyHead) (f : ShortField) :
    (swapSegyHdr host h).short f = swap2byte (h.short f) := by
  cases f <;> rfl

theorem swapSegyHdr_scale_fac (host : Endian) (h : SegyHead) :
    (swapSegyHdr host h).scale_fac = swap4byteF host h.scale_fac := rfl

theorem swapSegyHdr_names (host : Endian) (h : SegyHead) :
    (swapSegyHdr host h).names = h.names := rfl

/-! ## Headers of the other byte order -/

/-- The width of the number that the byte at `p` belongs to; names are of single bytes. -/
def fieldWidth (p : ℕ) : ℕ :=
  if p < 28 then 4 else if p < 36 then 2 else if p < 68 then 4 else if p < 72 then 2
  else if p < 88 then 4 else if p < 180 then 2 else if p < 198 then 1 else if p < 200 then 2
  else if p < 204 then 4 else if p < 220 then 2 else if p < 224 then 4 else if p < 228 then 2 else 4

/-- Where the byte at `p` lies when the numbers are reversed. -/
def mirror (p : ℕ) : ℕ := p / fieldWidth p * fieldWidth p + (fieldWidth p - 1 - p % fieldWidth p)

/-- The bytes of a header with every number reversed. -/
def swapHead (bytes : List Byte) : List Byte := tabulate 240 fun p => byteAt bytes (mirror p)

theorem mirror_long (f : LongField) :
    mirror f.offset = f.offset + 3 ∧ mirror (f.offset + 1) = f.offset + 2 ∧
      mirror (f.offset + 2) = f.offset + 1 ∧ mirror (f.offset + 3) = f.offset := by
  cases f <;> decide

theorem mirror_short (f : ShortField) :
    mirror f.offset = f.offset + 1 ∧ mirror (f.offset + 1) = f.offset := by
  cases f <;> decide

theorem mirror_names : ∀ i < 18, mirror (180 + i) = 180 + i := by decide

theorem LongField.offset_le (f : LongField) : f.offset ≤ 236 := by cases f <;> decide

theorem ShortField.offset_le (f : ShortField) : f.offset ≤ 226 := by cases f <;> decide

theorem byteAt_swapHead (bytes rest : List Byte) {p : ℕ} (hp : p < 240) :
    byteAt (swapHead bytes ++ rest) p = byteAt bytes (mirror p) := by
  have hlen : p < (swapHead bytes).length := by
    rw [swapHead, length_tabulate]
    exact hp
  rw [byteAt, List.getD_append _ _ _ _ hlen, swapHead, List.getD_eq_getElem?_getD,
    getElem?_tabulate, if_pos hp, Option.getD_some]

theorem longAt_swapHead (bytes rest : List Byte) (f : LongField) :
    longAt (swapHead bytes ++ rest) f.offset = (longAt bytes f.offset).reverse := by
  obtain ⟨h0, h1, h2, h3⟩ := mirror_long f
  have hf := f.offset_le
  rw [longAt, byteAt_swapHead _ _ (by omega), byteAt_swapHead _ _ (by omega),
    byteAt_swapHead _ _ (by omega), byteAt_swapHead _ _ (by omega), h0, h1, h2, h3]
  rfl

theorem shortAt_swapHead (bytes rest : List Byte) (f : ShortField) :
    shortAt (swapHead bytes ++ rest) f.offset = (shortAt bytes f.offset).reverse := by
  obtain ⟨h0, h1⟩ := mirror_short f
  have hf := f.offset_le
  rw [shortAt, byteAt_swapHead _ _ (by omega), byteAt_swapHead _ _ (by omega), h0, h1]
  rfl

/-- A header of the other byte order is read with every number swapped. -/
theorem readHead_swapHead (host : Endian) (bytes rest : List Byte) :
    readHead host (swapHead bytes ++ rest) =
      { long := fun f => swap4byte ((readHead host bytes).long f)
        short := fun f => swap2byte ((readHead host bytes).short f)
        scale_fac := swap4byte (readHead host bytes).scale_fac
        names := (readHead host bytes).names } := by
  have hnames : ∀ i ∈ List.range 18,
      byteAt (swapHead bytes ++ rest) (180 + i) = byteAt bytes (180 + i) := by
    intro i hi
    rw [List.mem_range] at hi
    rw [byteAt_swapHead _ _ (by omega), mirror_names i hi]
  have hscale : longAt (swapHead bytes ++ rest) 220 = (longAt bytes 220).reverse := by
    rw [longAt, byteAt_swapHead _ _ (by decide), byteAt_swapHead _ _ (by decide),
      byteAt_swapHead _ _ (by decide), byteAt_swapHead _ _ (by decide)]
    rfl
  simp only [readHead, longAt_swapHead, shortAt_swapHead, hscale, swap4byte_loadInt,
    swap2byte_loadShort, List.map_congr_left hnames]

/-- `swapSegyHdr` restores a header of the other byte order, except `energySourcePt`. -/
theorem swapSegyHdr_readHead_swapHead (host : Endian) (bytes rest : List Byte) :
    swapSegyHdr host (readHead host (swapHead bytes ++ rest)) =
      { readHead host bytes with
        long := Function.update (readHead host bytes).long .energySourcePt
          (swap4byte ((readHead host bytes).long .channel_number)) } := by
  rw [readHead_swapHead]
  refine SegyHead.ext (funext fun f => ?_) (funext fun f => ?_) ?_ ?_
  · simp only [swapSegyHdr_long, Function.update_apply, swap4byte_swap4byte]
  · simp only [swapSegyHdr_short, swap2byte_swap2byte]
  · rw [swapSegyHdr_scale_fac, swap4byteF_eq, swap4byte_swap4byte]
  · rw [swapSegyHdr_names]

end PQL
