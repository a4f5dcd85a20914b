import PQL.Lib.CStrings
import PQL.Lib.Floats
import PQL.Mseed.Group
import PQL.Segy.ByteOrder
import PQL.Time.Calendar

/-!
# SAC headers

A SAC file begins with 110 numbers of four bytes and 192 bytes of names, which are padded with
blanks and need not end with a zero.  `idSac` finds the byte order and decodes the header; the names
are cleaned in place, in the header and whatever lies behind it in memory (`sacNames`).
-/

namespace PQL

namespace Sac

/-- `struct sac`: the bit patterns of the numbers and the characters. -/
structure SacHead where
  words : List Word
  chars : List Byte
deriving DecidableEq

namespace SacHead

variable (h : SacHead)

def int (i : ℕ) : ℤ := (h.words.getD i 0).toInt

def float (i : ℕ) : Option ℚ := floatValue (h.words.getD i 0)

def delta : Option ℚ := h.float 0

def b : Option ℚ := h.float 5

def nzyear : ℤ := h.int 70

def nzjday : ℤ := h.int 71

def nzhour : ℤ := h.int 72

def nzmin : ℤ := h.int 73

def nzsec : ℤ := h.int 74

def nzmsec : ℤ := h.int 75

def npts : ℤ := h.int 79

def iftype : ℤ := h.int 85

def idep : ℤ := h.int 86

def unused16 : ℤ := h.int 88

/-- The header as `fread` leaves it. -/
def read (host : Endian) (bytes : List Byte) : SacHead where
  words := (quads (bytes.take 440)).map (loadInt host)
  chars := (bytes.drop 440).take 192

/-- `swapData` of the 110 numbers. -/
def swapData : SacHead := { h with words := h.words.map swap4byte }

end SacHead

/-! ## The byte order -/

/-- The test of `check_endian`. -/
def Plausible (h : SacHead) : Prop :=
  ¬(h.nzyear < 0 ∨ h.nzyear < 100 ∨ h.nzjday < 0 ∨ h.nzjday > 366 ∨ h.nzhour < 0 ∨ h.nzhour > 23 ∨
    h.nzmin < 0 ∨ h.nzmin > 59 ∨ h.nzsec < 0 ∨ h.nzsec > 59 ∨ h.nzmsec < 0 ∨ h.nzmsec > 999) ∧
  h.unused16 = -12345

instance (h : SacHead) : Decidable (Plausible h) := inferInstanceAs (Decidable (_ ∧ _))

/-- The numbers that `check_endian` looks at are swapped. -/
def swapChecked (h : SacHead) : SacHead :=
  { h with
    words := h.words.mapIdx fun i w =>
      if i ∈ [70, 71, 72, 73, 74, 75, 88] then swap4byte w else w }

/-- `check_endian`; `none` is `FAILURE`. -/
def checkEndian (h : SacHead) : Option Bool :=
  if Plausible h then some false
  else if Plausible (swapChecked h) then some true
  else none

/-! ## Names -/

/-- `g_ascii_isspace`. -/
def isspace (b : Byte) : Bool := b ∈ [9, 10, 12, 13, 32]

/-- `CHOMP`: the first blank of a name of eight characters becomes a zero. -/
def chomp (o : ℕ) (mem : List Byte) : List Byte :=
  match ((mem.drop o).take 8).findIdx? (· = 32) with
  | some i => mem.set (o + i) 0
  | none => mem

/-- `g_strchug` and `CHOMP`; `none` if bytes from behind the memory would be moved into the name. -/
def cleanName (o : ℕ) (mem : List Byte) : Option (List Byte) :=
  (stripFront isspace o mem).map (chomp o)

/-- `strncpy` to a field of ten bytes that has been cleared. -/
def fieldName (o : ℕ) (mem : List Byte) : List Byte := ((mem.drop o).takeWhile (· ≠ 0)).take 9

def ascii (s : String) : List Byte := s.toList.map fun c => BitVec.ofNat 8 c.toNat

structure SacNames where
  descr2 : List Byte
  sensorID : List Byte
  station : List Byte
  channel : List Byte
  network : List Byte
  location : List Byte
  /-- The characters of the header afterwards. -/
  chars : List Byte
deriving DecidableEq

/-- The strings that are made of the cleaned names. -/
def namesOf (mem : List Byte) : Option SacNames :=
  (cString 0 mem).bind fun kstnm => (cString 160 mem).map fun kcmpnm =>
    { descr2 := ascii "ID: " ++ kstnm ++ ascii " C: " ++ kcmpnm
      sensorID := fieldName 0 mem
      station := fieldName 0 mem
      channel := fieldName 160 mem
      network := if fieldName 168 mem = ascii "-12345" then [] else fieldName 168 mem
      location := if fieldName 24 mem = ascii "-12345" then [] else fieldName 24 mem
      chars := mem.take 192 }

/-- The names from memory that begins with the characters of the header: `kstnm`, `kcmpnm`, `knetwk`
and `khole` are cleaned. -/
def sacNames (mem : List Byte) : Option SacNames :=
  (cleanName 0 mem).bind fun mem => (cleanName 160 mem).bind fun mem =>
    (cleanName 168 mem).bind fun mem => (cleanName 24 mem).bind namesOf

/-! ## Times -/

structure SacTime where
  year : ℤ
  day : ℤ
  hour : ℤ
  minute : ℤ
  second : ℤ
  m_secs : ℤ
  epochs : ℚ
deriving DecidableEq

/-- The reference time; the year is stored in a `short`. -/
def refTime (h : SacHead) : PTime where
  yr := h.nzyear.bmod (2 ^ 16)
  mo := 0
  day := h.nzjday
  hr := h.nzhour.toNat
  mn := h.nzmin.toNat
  sec := h.nzsec.toNat
  mo_le := PTime.noMonth_le
  sec_nonneg := Nat.cast_nonneg _

/-- The milliseconds are carried into the seconds. -/
def carryMsec (epoch m_sec : ℤ) : ℤ × ℤ :=
  let (epoch, m_sec) := if m_sec > 1000 then (epoch + 1, m_sec - 1000) else (epoch, m_sec)
  if m_sec < 0 then (epoch - 1, m_sec + 1000) else (epoch, m_sec)

/-- The start time; `none` where a number does not fit an `int`. -/
def sacTime (F : FloatArith) (h : SacHead) : Option SacTime :=
  h.b.bind fun b => (toInt b).bind fun seconds => (passcalHtoe (refTime h) false).bind fun ref =>
    (signed (ref + seconds)).bind fun epoch =>
      (toInt (F.single (F.single (b - F.single seconds) * 1000))).bind fun milli_sec =>
        let (epoch, m_secs) := carryMsec epoch (h.nzmsec + milli_sec)
        let date := passcalEtoh epoch
        some {
          year := date.yr
          day := date.jday
          hour := date.hr
          minute := date.mn
          second := truncate date.sec
          m_secs := m_secs
          epochs := F.double (epoch + F.double (m_secs / 1000)) }

/-! ## The header of a trace -/

inductive Units where
  | PQL_UNITS_VOLTS
  | PQL_UNITS_DISP
  | PQL_UNITS_VEL
  | PQL_UNITS_ACC
  | PQL_UNITS_UNKNWN
deriving DecidableEq, Repr

/-- The units of the dependent variable; volts are the value of a cleared field. -/
def sacUnits (idep : ℤ) : Units :=
  if idep = 5 then .PQL_UNITS_UNKNWN
  else if idep = 6 then .PQL_UNITS_DISP
  else if idep = 7 then .PQL_UNITS_VEL
  else if idep = 8 then .PQL_UNITS_ACC
  else .PQL_UNITS_VOLTS

/-- What `get_sac_hedr` puts into a trace; a number is missing where it does not fit its type. -/
structure SacTrace where
  endianSwap : Bool
  numSamples : ℤ
  sampInt : Option ℤ
  length : Option ℚ
  data_form : DataForm
  dataSize : ℕ
  units : Units
  time : Option SacTime
  gainConst : ℤ
  scale_fac : ℚ
  descr1 : String
  names : SacNames
  fileHdr : SacHead
deriving DecidableEq

def sacSampInt (F : FloatArith) (delta : ℚ) : Option ℤ :=
  toInt (F.double (F.double (delta + F.double (1 / 10 ^ 7)) * 1000000))

/-- The seconds from the first sample to the last; a quotient by zero counts as zero, as the
reciprocal of an infinite one does. -/
def sacLength (F : FloatArith) (npts : ℤ) (delta : ℚ) (sampInt : ℤ) : ℚ :=
  let oneSample := F.single (F.double (1 / F.double (1000000 / sampInt)))
  F.single (F.single (F.single npts * delta) - oneSample)

/-- `get_sac_hedr` behind the swap, with the bytes `behind` in memory behind the header; `none` if
it fails or uses bytes from farther behind. -/
def getSacHedr (F : FloatArith) (behind : List Byte) (endianSwap : Bool) (h : SacHead) :
    Option SacTrace :=
  if h.delta = some 0 then none
  else
    (sacNames (h.chars ++ behind)).map fun names =>
      let sampInt := h.delta.bind (sacSampInt F)
      { endianSwap := endianSwap
        numSamples := h.npts
        sampInt := sampInt
        length := h.delta.bind fun delta => sampInt.map fun sampInt =>
          sacLength F h.npts delta sampInt
        data_form := .MY_FLOAT
        dataSize := 4
        units := sacUnits h.idep
        time := sacTime F h
        gainConst := 1
        scale_fac := 1
        descr1 := toString h.nzyear ++ " " ++ zeroPadded 3 h.nzjday ++ " " ++
          zeroPadded 2 h.nzhour ++ ":" ++ zeroPadded 2 h.nzmin
        names := names
        fileHdr := { h with chars := names.chars } }

/-- The header in the byte order of the file. -/
def loadHead (host : Endian) (endianSwap : Bool) (bytes : List Byte) : SacHead :=
  if endianSwap then (SacHead.read host bytes).swapData else SacHead.read host bytes

/-- `IDsac`. -/
def idSac (F : FloatArith) (host : Endian) (behind bytes : List Byte) : Option SacTrace :=
  if bytes.length < 632 then none
  else
    (checkEndian (SacHead.read host bytes)).bind fun endianSwap =>
      getSacHedr F behind endianSwap (loadHead host endianSwap bytes)

/-! ## The samples -/

def ITIME : ℤ := 1

/-- `get_sac_data`: the number of samples afterwards and the bit patterns of the samples.  A
negative number of samples is a large one for `fread`. -/
def getSacData (host : Endian) (endianSwap : Bool) (numSamples : ℤ) (bytes : List Byte) :
    Option (ℕ × List Word) :=
  if bytes.length < 632 then none
  else if (loadHead host endianSwap bytes).iftype ≠ ITIME then none
  else
    let data := ((quads (bytes.drop 632)).take (numSamples % 2 ^ 64).toNat).map (loadInt host)
    some (data.length, if endianSwap then data.map swap4byte else data)

end Sac

end PQL
