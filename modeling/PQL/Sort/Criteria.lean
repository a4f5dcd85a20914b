import PQL.Sort.DateTime
import PQL.Steim.Memory

/-!
# Sort criteria

A criterion of `globals.c` is a description, a field type and the address of a field, in the trace
or in the header of its file.  `FieldAt` is what `listSort` finds at that address under that type.
The addresses are those that `sortInit` sets; where another field lies there than the one that is
described, `int` has both.  Bytes are in the order of a little-endian host, and a `float` or
`double` is a rational number.
-/

namespace PQL

/-- A string that ends with the first NUL. -/
structure CString where
  bytes : List Byte
  noNul : 0#8 ∉ bytes
deriving DecidableEq

/-- What lies at the address of a criterion.  `chars` is an array of `size` bytes in a header, which
need not end with a NUL; the bytes of the header go on behind it. -/
inductive FieldAt (β : Type) where
  | stringPtr (s : β → CString)
  | string (s : β → CString)
  | chars {n : ℕ} (offset size : ℕ) (fits : offset + size ≤ n) (mem : β → List.Vector Byte n)
  | int (read field : β → ℤ)
  | double (q : β → ℚ)
  | float (q : β → ℚ)
  | short (n : β → ℤ)
  | ptime (t : β → PTime)
  | instSort (s : β → CString)

inductive FieldType where
  | MYSTRING
  | MYINT
  | MYDOUBLE
  | MYFLOAT
  | MYSHORT
  | MYSTRINGPTR
  | MYINSTSORT
  | MYPTIME
deriving DecidableEq, Repr

variable {β : Type}

def FieldAt.fieldType : FieldAt β → FieldType
  | stringPtr _ => .MYSTRINGPTR
  | string _ | chars .. => .MYSTRING
  | int .. => .MYINT
  | double _ => .MYDOUBLE
  | float _ => .MYFLOAT
  | short _ => .MYSHORT
  | ptime _ => .MYPTIME
  | instSort _ => .MYINSTSORT

structure CritItem (β : Type) where
  desc : String
  field : FieldAt β

/-- An `int` field that lies where the criterion says. -/
def MYINT (n : β → ℤ) : FieldAt β := .int n n

/-! ## Headers -/

/-- The fields of an AH header that are sorted; `bytes` are its bytes, which begin with
`station.code`. -/
structure AHHead where
  bytes : List.Vector Byte 1032
  slat : ℚ
  slon : ℚ
  elev : ℚ
  lat : ℚ
  lon : ℚ
  dep : ℚ
  ot : PTime
  abstime : PTime

/-- The fields of a SEGY header that are sorted; `names` are its bytes from `station_name` on. -/
structure SEGYHead where
  lineSeq : ℤ
  reelSeq : ℤ
  event_number : ℤ
  channel_number : ℤ
  sourceToRecDist : ℤ
  recElevation : ℤ
  sourceSurfaceElevation : ℤ
  sourceDepth : ℤ
  datumElevRec : ℤ
  datumElevSource : ℤ
  sourceWaterDepth : ℤ
  recWaterDepth : ℤ
  sourceLongOrX : ℤ
  sourceLatOrY : ℤ
  recLongOrX : ℤ
  recLatOrY : ℤ
  sourceUpholeTime : BitVec 16
  recUpholeTime : BitVec 16
  sourceStaticCor : BitVec 16
  year : ℤ
  day : ℤ
  hour : ℤ
  minute : ℤ
  second : ℤ
  names : List.Vector Byte 60
  m_secs : ℤ
  trigyear : ℤ
  trigday : ℤ
  trighour : ℤ
  trigminute : ℤ
  trigsecond : ℤ
  trigmills : ℤ
  inst_no : ℕ

/-- The fields of a SAC header that are sorted; `delta` is the first word and `names` are its bytes
from `kstnm` on. -/
structure SACHead where
  delta : BitVec 32
  o : ℚ
  stla : ℚ
  stlo : ℚ
  stel : ℚ
  evla : ℚ
  evlo : ℚ
  evel : ℚ
  evdp : ℚ
  mag : ℚ
  dist : ℚ
  az : ℚ
  baz : ℚ
  gcarc : ℚ
  cmpaz : ℚ
  cmpinc : ℚ
  nzyear : ℤ
  nzjday : ℤ
  nzhour : ℤ
  nzmin : ℤ
  nzsec : ℤ
  nzmsec : ℤ
  norid : ℤ
  nevid : ℤ
  names : List.Vector Byte 192

/-- The type of a file and, if it is there, its `fileHdr`. -/
inductive FileHdr where
  | SEGY_DATA (hdr : Option SEGYHead)
  | AH_DATA (hdr : Option AHHead)
  | SAC_DATA (hdr : Option SACHead)
  | other (fileType : ℤ)

def FileHdr.fileType : FileHdr → ℤ
  | SEGY_DATA _ => 0
  | AH_DATA _ => 1
  | SAC_DATA _ => 2
  | other fileType => fileType

/-- The fields of a `traceInfo` that are sorted. -/
structure SortTrace where
  original : ℤ
  longFN : CString
  shortFN : CString
  network : CString
  station : CString
  location : CString
  channel : CString
  sensorID : CString
  epochs : ℚ
  file : FileHdr

/-! ## Criteria of PQL -/

/-- `instOrder` is the table of the option `-i`, which changes the type of the sensor. -/
def criteria (instOrder : Option (CString → Option ℤ)) : List (CritItem SortTrace) := [
  ⟨"Input Order", MYINT SortTrace.original⟩,
  ⟨"Long File Name", .stringPtr SortTrace.longFN⟩,
  ⟨"Short File Name", .stringPtr SortTrace.shortFN⟩,
  ⟨"Network Name", .string SortTrace.network⟩,
  ⟨"Station Name", .string SortTrace.station⟩,
  ⟨"Location Identifier", .string SortTrace.location⟩,
  ⟨"Channel Name", .string SortTrace.channel⟩,
  ⟨"Sensor ID",
    if instOrder.isSome then .instSort SortTrace.sensorID else .string SortTrace.sensorID⟩,
  ⟨"Absolute Start Time", .double SortTrace.epochs⟩,
  ⟨"File Type", MYINT fun trc => trc.file.fileType⟩]

/-! ## Criteria of file headers

The address of "Input Order" is that of a field of the trace, but `listSort` takes it relative to
the header: the first word of the header is read. -/

/-- A header with the input position of its trace. -/
structure Located (H : Type) where
  original : ℤ
  hdr : H

/-- The `int` at the start of some bytes. -/
def firstInt (bytes : List Byte) : ℤ :=
  (bytes.getD 3 0 ++ bytes.getD 2 0 ++ bytes.getD 1 0 ++ bytes.getD 0 0 : BitVec 32).toInt

/-- The `int` that two neighbouring `short`s make. -/
def intOfShorts (low high : BitVec 16) : ℤ := (high ++ low : BitVec 32).toInt

def AHcriteria : List (CritItem (Located AHHead)) := [
  ⟨"Input Order", .int (fun h => firstInt h.hdr.bytes.toList) Located.original⟩,
  ⟨"Station", .chars 0 6 (by decide) fun h => h.hdr.bytes⟩,
  ⟨"Channel", .chars 6 6 (by decide) fun h => h.hdr.bytes⟩,
  ⟨"Absolute Start Time", .ptime fun h => h.hdr.abstime⟩,
  ⟨"Station LAT", .float fun h => h.hdr.slat⟩,
  ⟨"Station LON", .float fun h => h.hdr.slon⟩,
  ⟨"Station ELEV", .float fun h => h.hdr.elev⟩,
  ⟨"Event LAT", .float fun h => h.hdr.lat⟩,
  ⟨"Event LON", .float fun h => h.hdr.lon⟩,
  ⟨"Event DEPTH", .float fun h => h.hdr.dep⟩,
  ⟨"Event Origin Time", .ptime fun h => h.hdr.ot⟩]

/-- The two elevation datums are taken for each other, and the uphole times are `short`s. -/
def SEGYcriteria : List (CritItem (Located SEGYHead)) := [
  ⟨"Input Order", .int (fun h => h.hdr.lineSeq) Located.original⟩,
  ⟨"Station Name", .chars 0 6 (by decide) fun h => h.hdr.names⟩,
  ⟨"Channel Name", .chars 14 4 (by decide) fun h => h.hdr.names⟩,
  ⟨"Sensor", .chars 6 8 (by decide) fun h => h.hdr.names⟩,
  ⟨"Instrument Number", .short fun h => h.hdr.inst_no⟩,
  ⟨"Channel Number", MYINT fun h => h.hdr.channel_number⟩,
  ⟨"Year", .short fun h => h.hdr.year⟩,
  ⟨"Julian Day", .short fun h => h.hdr.day⟩,
  ⟨"Hour", .short fun h => h.hdr.hour⟩,
  ⟨"Minute", .short fun h => h.hdr.minute⟩,
  ⟨"Second", .short fun h => h.hdr.second⟩,
  ⟨"Millisecond", .short fun h => h.hdr.m_secs⟩,
  ⟨"Line Sequence", MYINT fun h => h.hdr.lineSeq⟩,
  ⟨"Reel Sequence", MYINT fun h => h.hdr.reelSeq⟩,
  ⟨"Event Number", MYINT fun h => h.hdr.event_number⟩,
  ⟨"SRC 2 REC Distance", MYINT fun h => h.hdr.sourceToRecDist⟩,
  ⟨"REC Elevation", MYINT fun h => h.hdr.recElevation⟩,
  ⟨"SRC Surface Elevation", MYINT fun h => h.hdr.sourceSurfaceElevation⟩,
  ⟨"SRC Depth", MYINT fun h => h.hdr.sourceDepth⟩,
  ⟨"SRC Elevation Datum", .int (fun h => h.hdr.datumElevRec) fun h => h.hdr.datumElevSource⟩,
  ⟨"REC Elevation Datum", .int (fun h => h.hdr.datumElevSource) fun h => h.hdr.datumElevRec⟩,
  ⟨"SRC Water Depth", MYINT fun h => h.hdr.sourceWaterDepth⟩,
  ⟨"REC Water Depth", MYINT fun h => h.hdr.recWaterDepth⟩,
  ⟨"SRC LAT", MYINT fun h => h.hdr.sourceLatOrY⟩,
  ⟨"SRC LON", MYINT fun h => h.hdr.sourceLongOrX⟩,
  ⟨"REC LAT", MYINT fun h => h.hdr.recLatOrY⟩,
  ⟨"REC LON", MYINT fun h => h.hdr.recLongOrX⟩,
  ⟨"SRC Uphole Time", .int (fun h => intOfShorts h.hdr.sourceUpholeTime h.hdr.recUpholeTime)
    fun h => h.hdr.sourceUpholeTime.toInt⟩,
  ⟨"REC Uphole Time", .int (fun h => intOfShorts h.hdr.recUpholeTime h.hdr.sourceStaticCor)
    fun h => h.hdr.recUpholeTime.toInt⟩,
  ⟨"Trigger Year", .short fun h => h.hdr.trigyear⟩,
  ⟨"Trigger Julian Day", .short fun h => h.hdr.trigday⟩,
  ⟨"Trigger Hour", .short fun h => h.hdr.trighour⟩,
  ⟨"Trigger Minute", .short fun h => h.hdr.trigminute⟩,
  ⟨"Trigger Second", .short fun h => h.hdr.trigsecond⟩,
  ⟨"Trigger Milliseconds", .short fun h => h.hdr.trigmills⟩]

def SACcriteria : List (CritItem (Located SACHead)) := [
  ⟨"Input Order", .int (fun h => h.hdr.delta.toInt) Located.original⟩,
  ⟨"Instrument Name", .chars 184 8 (by decide) fun h => h.hdr.names⟩,
  ⟨"Network Name", .chars 168 8 (by decide) fun h => h.hdr.names⟩,
  ⟨"Station Name", .chars 0 8 (by decide) fun h => h.hdr.names⟩,
  ⟨"Location Name", .chars 24 8 (by decide) fun h => h.hdr.names⟩,
  ⟨"Channel Name", .chars 160 8 (by decide) fun h => h.hdr.names⟩,
  ⟨"Year", MYINT fun h => h.hdr.nzyear⟩,
  ⟨"Julian Day", MYINT fun h => h.hdr.nzjday⟩,
  ⟨"Hour", MYINT fun h => h.hdr.nzhour⟩,
  ⟨"Minute", MYINT fun h => h.hdr.nzmin⟩,
  ⟨"Second", MYINT fun h => h.hdr.nzsec⟩,
  ⟨"Millisecond", MYINT fun h => h.hdr.nzmsec⟩,
  ⟨"Station LAT", .float fun h => h.hdr.stla⟩,
  ⟨"Station LON", .float fun h => h.hdr.stlo⟩,
  ⟨"Station Elevation", .float fun h => h.hdr.stel⟩,
  ⟨"Channel Azimuth", .float fun h => h.hdr.cmpaz⟩,
  ⟨"Channel Incident Angle", .float fun h => h.hdr.cmpinc⟩,
  ⟨"Event Origin Time", .float fun h => h.hdr.o⟩,
  ⟨"Event Name", .chars 8 16 (by decide) fun h => h.hdr.names⟩,
  ⟨"Event LAT", .float fun h => h.hdr.evla⟩,
  ⟨"Event LON", .float fun h => h.hdr.evlo⟩,
  ⟨"Event Elevation", .float fun h => h.hdr.evel⟩,
  ⟨"Event Depth", .float fun h => h.hdr.evdp⟩,
  ⟨"Event Magnitude", .float fun h => h.hdr.mag⟩,
  ⟨"Event ID", MYINT fun h => h.hdr.nevid⟩,
  ⟨"Event Origin ID", MYINT fun h => h.hdr.norid⟩,
  ⟨"Event Distance", .float fun h => h.hdr.dist⟩,
  ⟨"Event Azimuth", .float fun h => h.hdr.az⟩,
  ⟨"Event Back-Azimuth", .float fun h => h.hdr.baz⟩,
  ⟨"Event Great Circle Arc", .float fun h => h.hdr.gcarc⟩]

inductive SortType where
  | PQLSORT
  | AHSORT
  | SEGYSORT
  | SACSORT
deriving DecidableEq, Repr

/-- The criteria of a sort type and what they are applied to, if a trace has it. -/
structure SortTable where
  β : Type
  items : List (CritItem β)
  view : SortTrace → Option β

def sortTable (instOrder : Option (CString → Option ℤ)) : SortType → SortTable
  | .PQLSORT => ⟨SortTrace, criteria instOrder, some⟩
  | .AHSORT => ⟨Located AHHead, AHcriteria, fun trc =>
      match trc.file with
      | .AH_DATA hdr => hdr.map (Located.mk trc.original)
      | _ => none⟩
  | .SEGYSORT => ⟨Located SEGYHead, SEGYcriteria, fun trc =>
      match trc.file with
      | .SEGY_DATA hdr => hdr.map (Located.mk trc.original)
      | _ => none⟩
  | .SACSORT => ⟨Located SACHead, SACcriteria, fun trc =>
      match trc.file with
      | .SAC_DATA hdr => hdr.map (Located.mk trc.original)
      | _ => none⟩

end PQL
