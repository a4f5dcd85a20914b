import PQL.Mseed.Group

/-!
# Reading a mini-SEED file

`getMseedData` first copies the file packet by packet (`packetPass`); when the packets are not in
order, when reading fails and for a multiplexed file it leaves the work to `getMseedTrace`.  What
`libmseed` makes of the file is its input (`MseedFile`), and the header of the trace has been read.
-/

namespace PQL

def TOOMANYPOINTS : ℤ := 50000000

/-- A record of a file; `endtime` is its `msr_endtime`. -/
structure MSRecord (α : Type) where
  location : String
  encoding : ℤ
  samplecnt : ℕ
  starttime : ℚ
  endtime : ℚ
  samprate : ℚ
  datasamples : List α

inductive FileType where
  | MSEED_DATA
  | MSEED_MPLEX_DATA
deriving DecidableEq, Repr

/-- What `libmseed` makes of a file: its records, whether reading them ends with `MS_ENDOFFILE`, and
the healed trace group unless that cannot be read. -/
structure MseedFile (α : Type) where
  records : List (MSRecord α)
  endOfFile : Bool
  group : Option (List (MSTrace α))

inductive MseedResult where
  | PQLXSUCCESS
  | FAILURE
  | FILE_TOO_LARGE
  | NOT_ENOUGH_DATA
  | NO_MEMORY
deriving DecidableEq, Repr

def encodingForm (encoding : ℤ) : Option DataForm :=
  if encoding = 0 then some .MY_CHAR
  else if encoding ∈ [1, 3, 10, 11, 30, 32] then some .BIT32
  else if encoding = 5 then some .MY_DOUBLE
  else if encoding ∈ [4, 12, 13, 14] then some .MY_FLOAT
  else none

section Data

variable {α : Type} (A : CArith)

def setHedrVals (msr : MSRecord α) (head : MseedHead) : Option MseedHead :=
  (encodingForm msr.encoding).map fun form =>
    { head with dataForm := form, startTime := msr.starttime, sampInt := SAMPINT msr.samprate }

/-- A fresh buffer for the samples that the header counts. -/
def MseedState.allocate (s : MseedState α) (numSamples : ℤ) : MseedState α :=
  { s with
    data := []
    ttlMemAlloc := A.int (numSamples * s.head.dataSize)
    log := s.log ++ [.size (numSamples * s.head.dataSize)] }

/-- Packets of other locations, non-data packets and empty ones are ignored. -/
def ignoredPacket (head : MseedHead) (msr : MSRecord α) : Prop :=
  msr.location ≠ head.id.location ∨ msr.encoding = 0 ∨ msr.samplecnt = 0

instance (head : MseedHead) (msr : MSRecord α) : Decidable (ignoredPacket head msr) :=
  inferInstanceAs (Decidable (_ ∨ _))

/-- Takes the header values from the packet if the sampling interval is not known yet. -/
def startPacket (numSamples : ℤ) (s : MseedState α) (msr : MSRecord α) :
    MseedState α × Option MseedResult :=
  if s.head.sampInt = 0 then
    match setHedrVals msr s.head with
    | none => (s, some .FAILURE)
    | some head =>
      let s := { s with head := head }.allocate A numSamples
      (s, if s.ttlMemAlloc < 0 then some .NO_MEMORY else none)
  else (s, none)

def copyPacket (s : MseedState α) (msr : MSRecord α) : MseedState α :=
  (s.reserve A (msr.samplecnt + s.totSamp)).write A (A.int msr.samplecnt)
    (msr.datasamples.take msr.samplecnt)

inductive PassEnd where
  | done
  | reRead
  | failed (result : MseedResult)
deriving DecidableEq, Repr

/-- The loop over the packets; it stops at the first one that does not start when it should. -/
def packetPass (numSamples : ℤ) (s : MseedState α) (nextStart : ℚ) :
    List (MSRecord α) → MseedState α × PassEnd
  | [] => (s, .done)
  | msr :: records =>
    if ignoredPacket s.head msr then packetPass numSamples s nextStart records
    else
      match startPacket A numSamples s msr with
      | (s, some result) => (s, .failed result)
      | (s, none) =>
        if nextStart ≠ 0 ∧ msr.starttime ≠ nextStart then (s, .reRead)
        else packetPass numSamples (copyPacket A s msr) (A.hptime (msr.endtime + s.head.sampInt))
          records

/-- The second, careful reading, into the buffer that is there. -/
def reRead [Zero α] (s : MseedState α) (group : Option (List (MSTrace α))) :
    MseedState α × MseedResult :=
  match group with
  | none => (s, .FAILURE)
  | some group =>
    let r := getMseedTrace A s.head s.ttlMemAlloc group
    ({ r with log := s.log ++ r.log }, if r.totSamp = 0 then .NOT_ENOUGH_DATA else .PQLXSUCCESS)

/-- The case of a file with one channel. -/
def readPackets [Zero α] (numSamples : ℤ) (s : MseedState α) (file : MseedFile α) :
    MseedState α × MseedResult :=
  match packetPass A numSamples s 0 file.records with
  | (s, .failed result) => (s, result)
  | (s, .reRead) => reRead A s file.group
  | (s, .done) =>
    if file.endOfFile then (s, if s.totSamp = 0 then .NOT_ENOUGH_DATA else .PQLXSUCCESS)
    else reRead A s file.group

def readFileType [Zero α] (numSamples : ℤ) (s : MseedState α) (fileType : FileType)
    (file : MseedFile α) : MseedState α × MseedResult :=
  match fileType with
  | .MSEED_MPLEX_DATA => reRead A s file.group
  | .MSEED_DATA => readPackets A numSamples s file

/-- `get_mseed_data` once the header is read. -/
def getMseedData [Zero α] (head : MseedHead) (numSamples : ℤ) (fileType : FileType)
    (file : MseedFile α) : MseedState α × MseedResult :=
  let s : MseedState α := ⟨head, 0, 0, [], [], [], 0, []⟩
  if numSamples > TOOMANYPOINTS then (s, .FILE_TOO_LARGE)
  else if numSamples = 0 then (s, .NOT_ENOUGH_DATA)
  else
    let s := s.allocate A numSamples
    if s.ttlMemAlloc < 0 then (s, .NO_MEMORY) else readFileType A numSamples s fileType file

end Data

end PQL
