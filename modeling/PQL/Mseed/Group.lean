import PQL.Lib.CInt

/-!
# Traces from mini-SEED segments

`libmseed` reads a file into a group of healed segments, sorted by channel and start time.
`getMseedTrace` puts the segments of one channel into one array: a gap is filled with zeros and an
overlap is recorded and left out.  The definitions are generic in the arithmetic (`CArith`) and keep
a log of the sizes that are computed and of the copies that are made (`MemEvent`); doubles are
rational numbers.
-/

namespace PQL

/-- `ONEMIL`, the ticks of an `hptime_t` in a second. -/
def ONEMIL : ℚ := 1000000

inductive DataForm where
  | BIT32
  | BIT16
  | MY_FLOAT
  | MY_DOUBLE
  | MY_CHAR
deriving DecidableEq, Repr

/-- The number of bytes of a sample. -/
def DataForm.size : DataForm → ℕ
  | BIT32 | MY_FLOAT => 4
  | BIT16 => 2
  | MY_DOUBLE => 8
  | MY_CHAR => 1

/-- The codes that name a channel. -/
structure ChannelId where
  network : String
  station : String
  location : String
  channel : String
deriving DecidableEq, Repr

/-- A segment of a trace group. -/
structure MSTrace (α : Type) where
  id : ChannelId
  starttime : ℚ
  endtime : ℚ
  samprate : ℚ
  sampletype : Char
  samplecnt : ℕ
  datasamples : List α

/-- The sampling interval in microseconds of a sampling rate. -/
def SAMPINT (a : ℚ) : ℚ :=
  if a = 0 then 0
  else if a + 1 / 200 < 1 then 10000000000 / (truncate (a * 10000) : ℚ)
  else 100000000 / (truncate (a * 100 + 1 / 2) : ℚ)

structure MseedHead where
  id : ChannelId
  sampInt : ℚ
  dataForm : DataForm
  startTime : ℚ
deriving DecidableEq

/-- `dataSize` is always set together with `data_form`. -/
def MseedHead.dataSize (head : MseedHead) : ℕ := head.dataForm.size

structure Overlap (α : Type) where
  bounds : ℤ × ℤ
  len : ℤ
  data : List α
deriving DecidableEq, Repr

/-- What the size arithmetic of the reader does. -/
inductive MemEvent where
  /-- A product or sum, before it is stored in an `int`. -/
  | size (n : ℤ)
  /-- A quotient of `double`s that is stored in an `int`. -/
  | convert (q : Option ℤ)
  /-- A `memcpy` or `memset` to the data buffer of `alloc` bytes. -/
  | copy (offset len alloc : ℤ)
deriving DecidableEq, Repr

/-- The state of `get_mseed_trace`. -/
structure MseedState (α : Type) where
  head : MseedHead
  totSamp : ℤ
  prevEndT : ℚ
  data : List α
  gaps : List (ℤ × ℤ)
  olapData : List (Overlap α)
  ttlMemAlloc : ℤ
  log : List MemEvent

section Loop

variable {α : Type} (A : CArith)

/-- The sampling interval and the form of the samples, from the first segment if the header has
none. -/
def setSampling (head : MseedHead) (trc : MSTrace α) : MseedHead :=
  if head.sampInt = 0 then
    let head := { head with sampInt := SAMPINT trc.samprate }
    match trc.sampletype with
    | 'a' => { head with dataForm := .MY_CHAR }
    | 'i' => { head with dataForm := .BIT32 }
    | 'f' => { head with dataForm := .MY_FLOAT }
    | 'd' => { head with dataForm := .MY_DOUBLE }
    | _ => head
  else head

def MseedState.note (s : MseedState α) (events : List MemEvent) : MseedState α :=
  { s with log := s.log ++ events }

/-- Makes room for `pts` samples. -/
def MseedState.reserve (s : MseedState α) (pts : ℤ) : MseedState α :=
  let bytes := A.int (A.int pts * s.head.dataSize)
  { s with
    ttlMemAlloc := if bytes > s.ttlMemAlloc then bytes else s.ttlMemAlloc
    log := s.log ++ [.size pts, .size (A.int pts * s.head.dataSize)] }

/-- Writes `pts` samples behind the `totSamp` samples that are there. -/
def MseedState.write (s : MseedState α) (pts : ℤ) (samples : List α) : MseedState α :=
  { s with
    data := s.data.take s.totSamp.toNat ++ samples
    totSamp := A.int (s.totSamp + pts)
    log := s.log ++ [.size (s.totSamp * s.head.dataSize), .size (pts * s.head.dataSize),
      .copy (A.int (s.totSamp * s.head.dataSize)) (A.int (pts * s.head.dataSize)) s.ttlMemAlloc] }

/-- The first segment of the channel. -/
def firstSegment (s : MseedState α) (trc : MSTrace α) : MseedState α :=
  let s := { s with
    head := { setSampling s.head trc with startTime := trc.starttime }
    prevEndT := trc.endtime
    totSamp := 0 }
  (s.reserve A trc.samplecnt).write A (A.int trc.samplecnt)
    (trc.datasamples.take trc.samplecnt)

/-- The overlap branch: records the overlap; the number of samples still to be copied, and the first
of them. -/
def recordOverlap (s : MseedState α) (trc : MSTrace α) : MseedState α × ℤ × ℤ :=
  let oneSample := s.head.sampInt
  if trc.starttime < s.prevEndT + oneSample then
    let olapStartTm := A.hptime (-1 * (trc.starttime - (s.prevEndT + oneSample)))
    let olapStartPt := A.ofQuotient (quotient olapStartTm oneSample)
    let full := trc.endtime ≤ s.prevEndT + oneSample
    let olapNpts := if full then A.int trc.samplecnt else olapStartPt
    let olapStart := A.int (s.totSamp - olapStartPt)
    let overlap : Overlap α :=
      { bounds := (olapStart, A.int (olapStart + olapNpts))
        len := olapNpts
        data := trc.datasamples.take olapNpts.toNat }
    ({ s with olapData := s.olapData ++ [overlap] }.note
        [.convert (quotient olapStartTm oneSample), .size trc.samplecnt,
          .size (olapNpts * s.head.dataSize), .size (trc.samplecnt - olapNpts)],
      if full then 0 else A.int (trc.samplecnt - olapNpts),
      if full then 0 else olapNpts)
  else (s.note [.size trc.samplecnt], A.int trc.samplecnt, 0)

/-- Records a gap of `gap` samples and fills it with zeros, with room for `copySamples` more. -/
def MseedState.fill [Zero α] (s : MseedState α) (gap : Option ℤ) (copySamples : ℤ) :
    MseedState α :=
  let gapFill := A.ofQuotient gap
  let s := { s with gaps := s.gaps ++ [(s.totSamp, A.int (s.totSamp + gapFill))] }.note
    [.convert gap, .size (s.totSamp + gapFill)]
  (s.reserve A (copySamples + A.int (s.totSamp + gapFill))).write A gapFill
    (List.replicate gapFill.toNat 0)

/-- The gap branch. -/
def fillGap [Zero α] (s : MseedState α) (trc : MSTrace α) (copySamples : ℤ) : MseedState α :=
  let oneSample := s.head.sampInt
  if trc.starttime > s.prevEndT + oneSample then
    let gapTFill := A.hptime ((trc.starttime - s.prevEndT) - oneSample)
    s.fill A (quotient gapTFill oneSample) copySamples
  else s

/-- The copy of the samples that are left. -/
def copySegment (s : MseedState α) (trc : MSTrace α) (copySamples copyStart : ℤ) :
    MseedState α :=
  let s := s.reserve A (copySamples + s.totSamp)
  if copySamples = 0 then s
  else s.write A copySamples ((trc.datasamples.drop copyStart.toNat).take copySamples.toNat)

/-- One segment after the first. -/
def nextSegment [Zero α] (s : MseedState α) (trc : MSTrace α) : MseedState α :=
  let (s₁, copySamples, copyStart) := recordOverlap A s trc
  let s₂ := copySegment A (fillGap A s₁ trc copySamples) trc copySamples copyStart
  { s₂ with prevEndT := if trc.endtime > s₂.prevEndT then trc.endtime else s₂.prevEndT }

/-- The loop over the group: segments without samples are ignored, and it ends behind the segments
of the channel. -/
def groupLoop [Zero α] (first : Bool) (s : MseedState α) : List (MSTrace α) → MseedState α
  | [] => s
  | trc :: traces =>
    if trc.samplecnt = 0 then groupLoop first s traces
    else if trc.id ≠ s.head.id then
      if first then groupLoop first s traces else s
    else if first then groupLoop false (firstSegment A s trc) traces
    else groupLoop false (nextSegment A s trc) traces

/-- `get_mseed_trace` on the group that was read, with `ttlMemAlloc` bytes allocated; it returns
`totSamp`. -/
def getMseedTrace [Zero α] (head : MseedHead) (ttlMemAlloc : ℤ) (group : List (MSTrace α)) :
    MseedState α :=
  groupLoop A true ⟨head, 0, 0, [], [], [], ttlMemAlloc, []⟩ group

/-- The segments of a group that belong to the channel. -/
def channelRun (id : ChannelId) (group : List (MSTrace α)) : List (MSTrace α) :=
  ((group.filter fun trc => trc.samplecnt ≠ 0).dropWhile fun trc => trc.id ≠ id).takeWhile
    fun trc => trc.id = id

/-! ## What the loop visits -/

@[simp] theorem head_note (s : MseedState α) (events : List MemEvent) :
    (s.note events).head = s.head := rfl

@[simp] theorem head_reserve (s : MseedState α) (pts : ℤ) : (s.reserve A pts).head = s.head := rfl

@[simp] theorem head_write (s : MseedState α) (pts : ℤ) (samples : List α) :
    (s.write A pts samples).head = s.head := rfl

theorem id_firstSegment (s : MseedState α) (trc : MSTrace α) :
    (firstSegment A s trc).head.id = s.head.id := by
  simp only [firstSegment, head_write, head_reserve, setSampling]
  split_ifs
  · split <;> rfl
  · rfl

theorem head_recordOverlap (s : MseedState α) (trc : MSTrace α) :
    (recordOverlap A s trc).1.head = s.head := by
  unfold recordOverlap
  simp only []
  split_ifs <;> rfl

theorem head_copySegment (s : MseedState α) (trc : MSTrace α) (copySamples copyStart : ℤ) :
    (copySegment A s trc copySamples copyStart).head = s.head := by
  unfold copySegment
  simp only []
  split_ifs <;> rfl

variable [Zero α]

theorem head_fillGap (s : MseedState α) (trc : MSTrace α) (copySamples : ℤ) :
    (fillGap A s trc copySamples).head = s.head := by
  unfold fillGap
  simp only []
  split_ifs <;> rfl

/-- Only the first segment changes the header. -/
theorem head_nextSegment (s : MseedState α) (trc : MSTrace α) :
    (nextSegment A s trc).head = s.head := by
  rw [nextSegment, ← head_recordOverlap A s trc]
  exact (head_copySegment A _ trc _ _).trans (head_fillGap A _ trc _)

theorem groupLoop_false (s : MseedState α) (group : List (MSTrace α)) :
    groupLoop A false s group =
      ((group.filter fun trc => trc.samplecnt ≠ 0).takeWhile
        fun trc => trc.id = s.head.id).foldl (nextSegment A) s := by
  induction group generalizing s with
  | nil => rfl
  | cons trc traces ih =>
    unfold groupLoop
    by_cases hcnt : trc.samplecnt = 0
    · rw [if_pos hcnt, ih, List.filter_cons_of_neg (by simp [hcnt])]
    · rw [if_neg hcnt, List.filter_cons_of_pos (by simp [hcnt])]
      by_cases hid : trc.id = s.head.id
      · rw [if_neg (not_not.2 hid), List.takeWhile_cons_of_pos (by simp [hid]), List.foldl_cons,
          if_neg Bool.false_ne_true, ih, head_nextSegment]
      · rw [if_pos hid, if_neg Bool.false_ne_true, List.takeWhile_cons_of_neg (by simp [hid])]
        rfl

/-- The loop visits the segments of the channel that come first in the group, one after the
other. -/
theorem groupLoop_true (s : MseedState α) (group : List (MSTrace α)) :
    groupLoop A true s group =
      match channelRun s.head.id group with
      | [] => s
      | trc :: traces => traces.foldl (nextSegment A) (firstSegment A s trc) := by
  induction group generalizing s with
  | nil => rfl
  | cons trc traces ih =>
    unfold groupLoop channelRun
    by_cases hcnt : trc.samplecnt = 0
    · rw [if_pos hcnt, ih, List.filter_cons_of_neg (by simp [hcnt])]
      rfl
    · rw [if_neg hcnt, List.filter_cons_of_pos (by simp [hcnt])]
      by_cases hid : trc.id = s.head.id
      · rw [if_neg (not_not.2 hid), if_pos rfl, List.dropWhile_cons_of_neg (by simp [hid]),
          List.takeWhile_cons_of_pos (by simp [hid]), groupLoop_false, id_firstSegment]
      · rw [if_pos hid, if_pos rfl, ih, List.dropWhile_cons_of_pos (by simp [hid])]
        rfl

end Loop

end PQL
