import PQL.Data.Blocks

/-!
# What the readers do to the heap

Each reader of a file format allocates a block for the data and has exits of its own.  What it finds
in the file decides which exit it takes (`Found`); a release of a block that is not allocated has no
result.  The header of the trace has been read before.
-/

namespace PQL

inductive ReadResult where
  | PQLXSUCCESS
  | FAILURE
  | FILE_DNE
  | FILE_TOO_LARGE
  | NOT_ENOUGH_DATA
  | NO_MEMORY
deriving DecidableEq, Repr

/-- The state of the heap and the trace after a read, with what it returns. -/
abbrev ReadEnd := Option (Heap × TraceInfo × ReadResult)

/-! ## Pointers -/

/-- `free`; it does nothing with `NULL`. -/
def freePtr (h : Heap) : Ptr → Option Heap
  | none => some h
  | some b => h.free b

/-- `realloc`, which moves the block. -/
def reallocPtr (h : Heap) (p : Ptr) : Option (Heap × ℕ) :=
  (freePtr h p).map fun h => (h.alloc, h.next)

/-- `malloc` and `calloc`, which return `NULL` if they fail. -/
def mallocPtr (h : Heap) (succeeds : Bool) : Heap × Ptr :=
  if succeeds then (h.alloc, some h.next) else (h, none)

/-- An exit that releases the data and leaves the pointer. -/
def releaseData (h : Heap) (t : TraceInfo) (result : ReadResult) : ReadEnd :=
  (freePtr h t.data).map fun h => (h, t, result)

/-- An exit that releases the data and clears the pointer. -/
def clearData (h : Heap) (t : TraceInfo) (result : ReadResult) : ReadEnd :=
  (freePtr h t.data).map fun h => (h, { t with data := none }, result)

/-! ## The readers -/

/-- What a reader finds in its file: it can be opened and its header can be read, and what the
reader checks after that. -/
structure SacFound where
  opens : Bool
  header : Bool
  iftypeTime : Bool

/-- `get_sac_data`. -/
def getSacBlocks (f : SacFound) (h : Heap) (t : TraceInfo) : ReadEnd :=
  if !f.opens || !f.header then some (h, t, .FAILURE)
  else if !f.iftypeTime then releaseData h t .FAILURE
  else some (h.alloc, { t with data := some h.next }, .PQLXSUCCESS)

structure SegyFound where
  opens : Bool
  header : Bool
  sampInt : Bool
  numSamples : Bool
  allocates : Bool

/-- `get_segy_data`. -/
def getSegyBlocks (f : SegyFound) (h : Heap) (t : TraceInfo) : ReadEnd :=
  if !f.opens || !f.header || !f.sampInt || !f.numSamples then some (h, t, .FAILURE)
  else
    let (h, data) := mallocPtr h f.allocates
    let t := { t with data }
    some (h, t, if f.allocates then .PQLXSUCCESS else .FAILURE)

structure Dr100Found where
  opens : Bool
  allocates : Bool
  /-- The file has as many samples as its header says. -/
  samples : Bool

/-- `get_dr100_data`. -/
def getDr100Blocks (f : Dr100Found) (h : Heap) (t : TraceInfo) : ReadEnd :=
  if !f.opens then some (h, t, .FAILURE)
  else
    let (h, data) := mallocPtr h f.allocates
    let t := { t with data }
    if !f.allocates then some (h, t, .FAILURE)
    else if !f.samples then releaseData h t .FAILURE
    else some (h, t, .PQLXSUCCESS)

structure AhFound where
  opens : Bool
  header : Bool
  samples : Bool
  /-- Nothing follows the samples. -/
  ends : Bool
  typeFloat : Bool

/-- `get_ah_data`. -/
def getAhBlocks (f : AhFound) (h : Heap) (t : TraceInfo) : ReadEnd :=
  if !f.opens || !f.header then some (h, t, .FAILURE)
  else
    let t := { t with data := some h.next }
    let h := h.alloc
    if !f.samples then releaseData h t .FAILURE
    else if !f.ends then releaseData h t .FAILURE
    else if !f.typeFloat then releaseData h t .FAILURE
    else some (h, t, .PQLXSUCCESS)

structure NanoFound where
  opens : Bool
  header : Bool
  /-- The number of samples in each block of the file. -/
  blocks : List ℕ

/-- A block of `read_xdata2`: the array grows; a size of zero releases it. -/
def xdataStep (s : Heap × Ptr × ℕ) (samples : ℕ) : Option (Heap × Ptr × ℕ) :=
  let total := s.2.2 + samples
  match s.2.1 with
  | none => some (s.1.alloc, some s.1.next, total)
  | some b =>
    if total = 0 then (s.1.free b).map fun h => (h, none, total)
    else (reallocPtr s.1 (some b)).map fun r => (r.1, some r.2, total)

/-- `get_nano_data` with `read_file`. -/
def getNanoBlocks (f : NanoFound) (h : Heap) (t : TraceInfo) : ReadEnd :=
  if !f.opens || !f.header then some (h, t, .FAILURE)
  else
    (f.blocks.foldlM xdataStep (h, none, 0)).map fun r =>
      (r.1, { t with data := r.2.1 }, if r.2.2 = 0 then .FAILURE else .PQLXSUCCESS)

structure Rt125Found where
  opens : Bool
  allocates : Bool
  samples : Bool

/-- `get_rt125_data` and `get_rt125A_data`. -/
def getRt125Blocks (f : Rt125Found) (h : Heap) (t : TraceInfo) : ReadEnd :=
  if !f.opens then some (h, t, .FAILURE)
  else
    let (h, data) := mallocPtr h f.allocates
    let t := { t with data }
    if !f.allocates then some (h, t, .FAILURE)
    else if !f.samples then clearData h t .NOT_ENOUGH_DATA
    else some (h, t, .PQLXSUCCESS)

structure Rt130Found where
  opens : Bool
  allocates : Bool
  /-- No decoder returns an error. -/
  decodes : Bool

/-- `get_rt130_data`. -/
def getRt130Blocks (f : Rt130Found) (h : Heap) (t : TraceInfo) : ReadEnd :=
  if !f.opens then some (h, t, .FAILURE)
  else
    let (h, data) := mallocPtr h f.allocates
    let t := { t with data }
    if !f.allocates then some (h, t, .FAILURE)
    else if !f.decodes then clearData h t .FAILURE
    else some (h, t, .PQLXSUCCESS)

/-! ## Mini-SEED -/

/-- What the loop over the packets of a file with one channel does to the data. -/
inductive PacketEvent where
  /-- The header values are taken from a packet and the data is allocated anew. -/
  | header (known allocates : Bool)
  | grow
deriving DecidableEq, Repr

/-- What the loop over the traces of a group allocates. -/
inductive GroupEvent where
  | grow
  | gap
  | overlap
deriving DecidableEq, Repr

structure MseedFound where
  tooMany : Bool
  noSamples : Bool
  allocates : Bool
  packets : List PacketEvent
  reRead : Bool
  /-- The events of the trace group, if it can be read. -/
  group : Option (List GroupEvent)
  samples : Bool

/-- The loop over the packets; an exit before its end is in the last component. -/
def packetEvents (h : Heap) (t : TraceInfo) :
    List PacketEvent → Option (Heap × TraceInfo × Option ReadResult)
  | [] => some (h, t, none)
  | .header known allocates :: events =>
    if !known then (clearData h t .FAILURE).map fun r => (r.1, r.2.1, some r.2.2)
    else
      let (h, data) := mallocPtr h allocates
      let t := { t with data }
      if !allocates then some (h, t, some .NO_MEMORY) else packetEvents h t events
  | .grow :: events =>
    (reallocPtr h t.data).bind fun r => packetEvents r.1 { t with data := some r.2 } events

def groupEvent (s : Heap × TraceInfo) : GroupEvent → Option (Heap × TraceInfo)
  | .grow => (reallocPtr s.1 s.2.data).map fun r => (r.1, { s.2 with data := some r.2 })
  | .gap => (reallocPtr s.1 s.2.gaps).map fun r => (r.1, { s.2 with gaps := some r.2 })
  | .overlap => (reallocPtr s.1 s.2.overlaps).map fun r =>
      (r.1.alloc.alloc.alloc, { s.2 with
        overlaps := some r.2
        olapData := s.2.olapData ++ [r.1.next, r.1.alloc.next, r.1.alloc.alloc.next] })

/-- `get_mseed_trace` and the end of `get_mseed_data`. -/
def getMseedGroup (f : MseedFound) (h : Heap) (t : TraceInfo) : ReadEnd :=
  match f.group with
  | none => clearData h t .FAILURE
  | some events =>
    (events.foldlM groupEvent (h, t)).bind fun s =>
      if !f.samples then clearData s.1 s.2 .NOT_ENOUGH_DATA
      else some (s.1, s.2, .PQLXSUCCESS)

/-- `get_mseed_data` after the loop over the packets. -/
def afterPackets (f : MseedFound) (r : Heap × TraceInfo × Option ReadResult) : ReadEnd :=
  match r.2.2 with
  | some result => some (r.1, r.2.1, result)
  | none =>
    if f.reRead then getMseedGroup f r.1 r.2.1
    else if !f.samples then clearData r.1 r.2.1 .NOT_ENOUGH_DATA
    else some (r.1, r.2.1, .PQLXSUCCESS)

/-- `get_mseed_data`; `single` is set for a file with one channel. -/
def getMseedBlocks (single : Bool) (f : MseedFound) (h : Heap) (t : TraceInfo) : ReadEnd :=
  if f.tooMany then some (h, t, .FILE_TOO_LARGE)
  else if f.noSamples then some (h, t, .NOT_ENOUGH_DATA)
  else
    let (h, data) := mallocPtr h f.allocates
    let t := { t with data }
    if !f.allocates then some (h, t, .NO_MEMORY)
    else if !single then getMseedGroup f h t
    else (packetEvents h t f.packets).bind (afterPackets f)

/-! ## Reading a trace -/

/-- What the reader of a format finds. -/
def Found : DataType → Type
  | .SEGY_DATA => SegyFound
  | .DR100_DATA => Dr100Found
  | .AH_DATA => AhFound
  | .NANO_DATA => NanoFound
  | .SAC_DATA => SacFound
  | .MSEED_DATA | .MSEED_MPLEX_DATA => MseedFound
  | .RT130_DATA => Rt130Found
  | .RT125A_DATA | .RT125_DATA => Rt125Found

/-- A file as a read meets it: whether `stat` succeeds, whether it is too large, and what the reader
finds. -/
structure FileFound where
  stat : Bool
  tooLarge : Bool
  found : (k : DataType) → Found k

def readFormat (k : DataType) (f : Found k) (h : Heap) (t : TraceInfo) : ReadEnd :=
  match k with
  | .SEGY_DATA => getSegyBlocks f h t
  | .DR100_DATA => getDr100Blocks f h t
  | .AH_DATA => getAhBlocks f h t
  | .NANO_DATA => getNanoBlocks f h t
  | .SAC_DATA => getSacBlocks f h t
  | .MSEED_DATA => getMseedBlocks true f h t
  | .MSEED_MPLEX_DATA => getMseedBlocks false f h t
  | .RT130_DATA => getRt130Blocks f h t
  | .RT125A_DATA => getRt125Blocks f h t
  | .RT125_DATA => getRt125Blocks f h t

/-- `trace_excerpt` in place, with `setNewHdr`: the excerpt gets data and names of its own. -/
def excerptBlocks (h : Heap) (t : TraceInfo) : Option (Heap × TraceInfo) :=
  let data := h.next
  (freePtr h.alloc t.data).map fun h =>
    (h.alloc.alloc.alloc, { t with
      data := some data
      longFN := t.fileName
      shortFN := some h.next
      descr1 := some h.alloc.next
      descr2 := some h.alloc.alloc.next
      gaps := none
      overlaps := none
      dataFilt := []
      olapData := []
      fileHdr := none })

/-- `readTrace`: data that is there has been read already. -/
def readTrace (f : FileFound) (h : Heap) (t : TraceInfo) : ReadEnd :=
  if t.data.isSome then some (h, t, .PQLXSUCCESS)
  else if !f.stat then some (h, t, .FILE_DNE)
  else if f.tooLarge then some (h, t, .FILE_TOO_LARGE)
  else
    (readFormat t.fileType (f.found t.fileType) h t).bind fun r =>
      if r.2.2 = .PQLXSUCCESS ∧ r.2.1.excerpt then
        (excerptBlocks r.1 r.2.1).map fun s => (s.1, s.2, .PQLXSUCCESS)
      else some r

end PQL
