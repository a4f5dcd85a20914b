import PQL.Mseed.Data
import PQL.Mseed.Index
import PQL.Sort.DateTime

/-!
# The two readings of a mini-SEED file

When the packets of a file with one channel are in order, `getMseedData` has copied them one by one
and keeps the header that `getMseedHedrM` took from the first record of the index.  `getMseedTrace`
takes the start time from the first segment that has samples.  `libmseed` is a parameter: its
`ms_hptime2btime`, and the segments into which it groups the records of the file.
-/

namespace PQL

/-! ## The header -/

/-- What `ms_hptime2btime` makes of an `hptime_t`; `fract` counts tenths of a millisecond. -/
structure BTime where
  year : ℤ
  day : ℤ
  hour : ℕ
  min : ℕ
  sec : ℕ
  fract : ℕ

/-- The `PTIME` of `setStartTime`; it has no month. -/
def BTime.date (btime : BTime) : PTime where
  yr := btime.year
  mo := 0
  day := btime.day
  hr := btime.hour
  mn := btime.min
  sec := btime.sec
  mo_le := PTime.noMonth_le
  sec_nonneg := Nat.cast_nonneg _

/-- The `head.epochs` that `setStartTime` computes. -/
def startEpochs (hptime2btime : ℚ → BTime) (startTime : ℚ) : Option ℚ :=
  (passcalHtoe (hptime2btime startTime).date false).map fun epoch =>
    epoch + ((hptime2btime startTime).fract / 10 : ℕ) / 1000

/-- What the readers leave in a trace. -/
structure MseedView (α : Type) where
  samples : List α
  numSamples : ℤ
  length : ℚ
  epochs : Option ℚ
  gaps : List (ℤ × ℤ)
  overlaps : List (Overlap α)

section FastPath

variable {α : Type}

/-- The samples that the headers of the records count. -/
def countedSamples (records : List (MSRecord α)) : ℤ :=
  (records.map fun msr => (msr.samplecnt : ℤ)).sum

def allSamples (records : List (MSRecord α)) : List α := records.flatMap fun msr => msr.datasamples

/-- `get_mseed_hedrM` for a file with one channel: the header and `numSamples`. -/
def getMseedHedrM (id : ChannelId) (records : List (MSRecord α)) : Option (MseedHead × ℤ) :=
  match records.filter fun msr => isValidEncoding msr.encoding with
  | [] => none
  | msr :: indexed =>
    (setHedrVals msr ⟨id, 0, .BIT32, 0⟩).map fun head => (head, countedSamples (msr :: indexed))

/-- The buffer that `get_mseed_data` allocates for the samples. -/
def openBuffer (head : MseedHead) (numSamples : ℤ) : MseedState α :=
  MseedState.allocate exactArith ⟨head, 0, 0, [], [], [], 0, []⟩ numSamples

/-- What a reading leaves, when its `oneSample` was the given one. -/
def MseedState.view (hptime2btime : ℚ → BTime) (s : MseedState α) (oneSample : ℚ) :
    MseedView α where
  samples := s.data
  numSamples := s.totSamp
  length := (s.totSamp - 1) * (oneSample / ONEMIL)
  epochs := startEpochs hptime2btime s.head.startTime
  gaps := s.gaps
  overlaps := s.olapData

/-- What `get_mseed_trace` leaves; `oneSample` is set with the first segment. -/
def carefulView [Zero α] (hptime2btime : ℚ → BTime) (head : MseedHead) (numSamples : ℤ)
    (file : MseedFile α) : Option (MseedView α) :=
  file.group.map fun group =>
    let s := getMseedTrace exactArith head (numSamples * head.dataSize) group
    s.view hptime2btime (if (channelRun head.id group).isEmpty then 0 else s.head.sampInt)

/-- The records that have samples. -/
def dataRecords (file : MseedFile α) : List (MSRecord α) :=
  file.records.filter fun msr => msr.samplecnt ≠ 0

/-- A file with one channel whose data have one sample type and rate.  A record without samples may
have any encoding and rate; where it has an interval, its sample size is that of the data, so that
the buffer can be counted in samples.  No interval is the quotient by zero of a tiny rate. -/
structure SingleChannel (id : ChannelId) (form : DataForm) (rate : ℚ) (file : MseedFile α) :
    Prop where
  location : ∀ msr ∈ file.records, isValidEncoding msr.encoding → msr.location = id.location
  encoding : ∀ msr ∈ dataRecords file, encodingForm msr.encoding = some form
  samprate : ∀ msr ∈ dataRecords file, msr.samprate = rate
  decoded : ∀ msr ∈ dataRecords file, msr.datasamples.length = msr.samplecnt
  sampleSize : ∀ msr ∈ file.records, SAMPINT msr.samprate ≠ 0 →
    ∀ f ∈ encodingForm msr.encoding, f.size = form.size
  finite : ∀ msr ∈ file.records, SAMPINT msr.samprate = 0 → msr.samprate = 0

/-- Each record starts one sample after the end of the one before. -/
def Abuts (oneSample : ℚ) (records : List (MSRecord α)) : Prop :=
  records.IsChain fun prev next => next.starttime = prev.endtime + oneSample

/-- `trc` is the segment into which the records merge. -/
structure IsMerged (id : ChannelId) (rate : ℚ) (records : List (MSRecord α)) (trc : MSTrace α) :
    Prop where
  id : trc.id = id
  starttime : ∀ msr ∈ records.head?, trc.starttime = msr.starttime
  samprate : trc.samprate = rate
  samplecnt : (trc.samplecnt : ℤ) = countedSamples records
  datasamples : trc.datasamples = allSamples records

/-- `libmseed` merges records that abut: the file has one segment with samples. -/
def Merges (id : ChannelId) (rate : ℚ) (file : MseedFile α) : Prop :=
  Abuts (SAMPINT rate) (dataRecords file) → ∃ group trc, file.group = some group ∧
    group.filter (fun trc => trc.samplecnt ≠ 0) = [trc] ∧ IsMerged id rate (dataRecords file) trc

/-- The packet loop reaches the end of the file and nothing is read again. -/
structure ReadsByPackets (head : MseedHead) (numSamples : ℤ) (file : MseedFile α)
    (s : MseedState α) : Prop where
  count_ne : numSamples ≠ 0
  count_le : numSamples ≤ TOOMANYPOINTS
  pass : packetPass exactArith numSamples (openBuffer head numSamples) 0 file.records = (s, .done)
  endOfFile : file.endOfFile

/-- The packets are not text, their header does not change from one to the next, and where it is
known from the start it has the start time of the first of them. -/
structure StartsWithData (hptime2btime : ℚ → BTime) (head : MseedHead) (form : DataForm) (rate : ℚ)
    (file : MseedFile α) : Prop where
  not_text : form ≠ .MY_CHAR
  known : head.sampInt ≠ 0 → ∀ msr ∈ (dataRecords file).head?,
    startEpochs hptime2btime head.startTime = startEpochs hptime2btime msr.starttime
  unknown : head.sampInt = 0 → rate = 0 → (dataRecords file).length = 1

/-! ## The packet loop -/

/-- `r` comes from `s` by copying the records behind the samples that are there. -/
structure Copied (s : MseedState α) (records : List (MSRecord α)) (r : MseedState α) : Prop where
  head : r.head = s.head
  totSamp : r.totSamp = s.totSamp + countedSamples records
  data : r.data = s.data ++ allSamples records
  gaps : r.gaps = s.gaps
  olapData : r.olapData = s.olapData

theorem countedSamples_cons (msr : MSRecord α) (records : List (MSRecord α)) :
    countedSamples (msr :: records) = msr.samplecnt + countedSamples records := by
  rw [countedSamples, List.map_cons, List.sum_cons, countedSamples]

theorem countedSamples_nonneg (records : List (MSRecord α)) : 0 ≤ countedSamples records :=
  List.sum_nonneg (by simp)

theorem allSamples_cons (msr : MSRecord α) (records : List (MSRecord α)) :
    allSamples (msr :: records) = msr.datasamples ++ allSamples records :=
  List.flatMap_cons

theorem length_allSamples {records : List (MSRecord α)}
    (hdecoded : ∀ msr ∈ records, msr.datasamples.length = msr.samplecnt) :
    ((allSamples records).length : ℤ) = countedSamples records := by
  induction records with
  | nil => rfl
  | cons msr records ih =>
    obtain ⟨hmsr, hrest⟩ := List.forall_mem_cons.1 hdecoded
    rw [allSamples_cons, countedSamples_cons, List.length_append, hmsr, Nat.cast_add, ih hrest]

theorem Copied.refl (s : MseedState α) : Copied s [] s where
  head := rfl
  totSamp := (add_zero _).symm
  data := (List.append_nil _).symm
  gaps := rfl
  olapData := rfl

/-- Every record starts when the one before lets expect it, unless that is at time zero. -/
def ExpectedStarts (oneSample : ℚ) : ℚ → List (MSRecord α) → Prop
  | _, [] => True
  | nextStart, msr :: records =>
    (nextStart ≠ 0 → msr.starttime = nextStart) ∧
      ExpectedStarts oneSample (msr.endtime + oneSample) records

theorem ExpectedStarts.abuts {oneSample nextStart : ℚ} {records : List (MSRecord α)}
    (h : ExpectedStarts oneSample nextStart records)
    (hne : ∀ msr ∈ records.dropLast, msr.endtime + oneSample ≠ 0) : Abuts oneSample records := by
  induction records generalizing nextStart with
  | nil => exact List.isChain_nil
  | cons msr records ih =>
    cases records with
    | nil => exact List.isChain_singleton msr
    | cons next records =>
      rw [List.dropLast_cons_of_ne_nil (List.cons_ne_nil _ _)] at hne
      obtain ⟨hmsr, hrest⟩ := List.forall_mem_cons.1 hne
      exact List.isChain_cons_cons.2 ⟨h.2.1 hmsr, ih h.2 hrest⟩

variable {s r : MseedState α} {msr : MSRecord α} {records : List (MSRecord α)} {numSamples : ℤ}
  {nextStart : ℚ}

theorem id_startPacket (A : CArith) (numSamples : ℤ) (s : MseedState α) (msr : MSRecord α) :
    (startPacket A numSamples s msr).1.head.id = s.head.id := by
  unfold startPacket setHedrVals
  split_ifs
  · cases encodingForm msr.encoding <;> rfl
  · rfl

/-- The loop reads a file as it reads the packets that it does not ignore. -/
theorem packetPass_filter (A : CArith) (numSamples : ℤ) (s : MseedState α) (nextStart : ℚ)
    (records : List (MSRecord α)) :
    packetPass A numSamples s nextStart records =
      packetPass A numSamples s nextStart
        (records.filter fun msr => ¬ignoredPacket s.head msr) := by
  induction records generalizing s nextStart with
  | nil => rfl
  | cons msr records ih =>
    by_cases hign : ignoredPacket s.head msr
    · rw [packetPass, if_pos hign, List.filter_cons_of_neg (by simpa using hign)]
      exact ih s nextStart
    · rw [packetPass, if_neg hign, List.filter_cons_of_pos (by simpa using hign), packetPass,
        if_neg hign]
      have hid := id_startPacket A numSamples s msr
      generalize startPacket A numSamples s msr = started at hid ⊢
      obtain ⟨s', _ | result⟩ := started
      · simp only []
        have hsame : ∀ msr : MSRecord α, ignoredPacket s.head msr ↔
            ignoredPacket (copyPacket A s' msr).head msr := fun msr => by
          have hhead : (copyPacket A s' msr).head = s'.head := rfl
          rw [ignoredPacket, ignoredPacket, hhead, hid]
        rw [ih]
        simp only [hsame]
        rfl
      · rfl

theorem copied_copyPacket (hdata : s.totSamp = s.data.length)
    (hdecoded : msr.datasamples.length = msr.samplecnt) :
    Copied s [msr] (copyPacket exactArith s msr) where
  head := rfl
  totSamp := by
    rw [countedSamples_cons]
    rfl
  data := by
    have htake : s.data.take s.totSamp.toNat = s.data := by
      rw [hdata, Int.toNat_natCast, List.take_length]
    change s.data.take s.totSamp.toNat ++ msr.datasamples.take msr.samplecnt = _
    rw [htake, ← hdecoded, List.take_length, allSamples_cons, allSamples, List.flatMap_nil,
      List.append_nil]
  gaps := rfl
  olapData := rfl

theorem Copied.cons {s' : MseedState α} (hmsr : Copied s [msr] s') (hrest : Copied s' records r) :
    Copied s (msr :: records) r where
  head := hrest.head.trans hmsr.head
  totSamp := by
    have hnil : countedSamples ([] : List (MSRecord α)) = 0 := rfl
    rw [hrest.totSamp, hmsr.totSamp, countedSamples_cons, countedSamples_cons, hnil, add_zero,
      add_assoc]
  data := by
    rw [hrest.data, hmsr.data, allSamples_cons, allSamples_cons, List.append_assoc,
      List.append_assoc]
    rfl
  gaps := hrest.gaps.trans hmsr.gaps
  olapData := hrest.olapData.trans hmsr.olapData

theorem startPacket_known (hint : s.head.sampInt ≠ 0) :
    startPacket exactArith numSamples s msr = (s, none) := if_neg hint

/-- Once the interval is known the loop appends every packet, and each starts when it should. -/
theorem copied_packetPass (hint : s.head.sampInt ≠ 0) (hdata : s.totSamp = s.data.length)
    (hused : ∀ msr ∈ records, ¬ignoredPacket s.head msr)
    (hdecoded : ∀ msr ∈ records, msr.datasamples.length = msr.samplecnt)
    (hpass : packetPass exactArith numSamples s nextStart records = (r, .done)) :
    Copied s records r ∧ ExpectedStarts s.head.sampInt nextStart records := by
  induction records generalizing s nextStart with
  | nil =>
    obtain rfl : s = r := congrArg Prod.fst hpass
    exact ⟨Copied.refl s, trivial⟩
  | cons msr records ih =>
    obtain ⟨huse, hused⟩ := List.forall_mem_cons.1 hused
    obtain ⟨hlen, hdecoded⟩ := List.forall_mem_cons.1 hdecoded
    rw [packetPass, if_neg huse, startPacket_known hint] at hpass
    simp only [] at hpass
    by_cases hstart : nextStart ≠ 0 ∧ msr.starttime ≠ nextStart
    · rw [if_pos hstart] at hpass
      exact nomatch congrArg Prod.snd hpass
    · rw [if_neg hstart] at hpass
      have hcopy := copied_copyPacket hdata hlen
      have hdata' : (copyPacket exactArith s msr).totSamp =
          (copyPacket exactArith s msr).data.length := by
        rw [hcopy.totSamp, hcopy.data, List.length_append, Nat.cast_add, hdata,
          length_allSamples (by simpa using hlen)]
      obtain ⟨hcopied, hexpected⟩ :=
        ih (hcopy.head ▸ hint) hdata' (hcopy.head ▸ hused) hdecoded hpass
      refine ⟨hcopy.cons hcopied, fun hne => ?_, hcopy.head ▸ hexpected⟩
      exact not_not.1 fun h => hstart ⟨hne, h⟩

/-- The header that a packet gives when the interval is not known. -/
def packetHeader (head : MseedHead) (form : DataForm) (msr : MSRecord α) : MseedHead :=
  { head with dataForm := form, startTime := msr.starttime, sampInt := SAMPINT msr.samprate }

theorem startPacket_unknown {form : DataForm} (hint : s.head.sampInt = 0)
    (hform : encodingForm msr.encoding = some form) (hpos : 0 ≤ numSamples) :
    startPacket exactArith numSamples s msr =
      (MseedState.allocate exactArith { s with head := packetHeader s.head form msr } numSamples,
        none) := by
  have hhead : setHedrVals msr s.head = some (packetHeader s.head form msr) := by
    rw [setHedrVals, hform]
    rfl
  have hmem : ¬numSamples * ((packetHeader s.head form msr).dataSize : ℤ) < 0 :=
    not_lt.2 (mul_nonneg hpos (Int.natCast_nonneg _))
  unfold startPacket
  rw [if_pos hint, hhead]
  exact congrArg (Prod.mk _) (if_neg hmem)

/-- A packet that is copied into a fresh buffer. -/
def freshCopy (form : DataForm) (numSamples : ℤ) (s : MseedState α) (msr : MSRecord α) :
    MseedState α :=
  copyPacket exactArith
    (MseedState.allocate exactArith { s with head := packetHeader s.head form msr } numSamples) msr

theorem data_freshCopy (form : DataForm) (numSamples : ℤ) (s : MseedState α)
    (hdecoded : msr.datasamples.length = msr.samplecnt) :
    (freshCopy form numSamples s msr).data = msr.datasamples := by
  change ([] : List α).take _ ++ msr.datasamples.take msr.samplecnt = _
  rw [List.take_nil, List.nil_append, ← hdecoded, List.take_length]

/-- The step of the loop for a packet that brings the header. -/
theorem packetPass_fresh {form : DataForm} (hpos : 0 ≤ numSamples) (hint : s.head.sampInt = 0)
    (huse : ¬ignoredPacket s.head msr) (hform : encodingForm msr.encoding = some form)
    (hpass : packetPass exactArith numSamples s nextStart (msr :: records) = (r, .done)) :
    (nextStart ≠ 0 → msr.starttime = nextStart) ∧
      packetPass exactArith numSamples (freshCopy form numSamples s msr)
        (msr.endtime + SAMPINT msr.samprate) records = (r, .done) := by
  rw [packetPass, if_neg huse, startPacket_unknown hint hform hpos] at hpass
  simp only [] at hpass
  by_cases hstart : nextStart ≠ 0 ∧ msr.starttime ≠ nextStart
  · rw [if_pos hstart] at hpass
    exact nomatch congrArg Prod.snd hpass
  · rw [if_neg hstart] at hpass
    exact ⟨fun hne => not_not.1 fun h => hstart ⟨hne, h⟩, hpass⟩

/-- As long as no interval is known every packet gets a fresh buffer. -/
theorem packetPass_unknown {form : DataForm} (hpos : 0 ≤ numSamples)
    (hint : s.head.sampInt = 0) (hne : records ≠ [])
    (hused : ∀ msr ∈ records, ¬ignoredPacket s.head msr)
    (hform : ∀ msr ∈ records, encodingForm msr.encoding = some form)
    (hrate : ∀ msr ∈ records, SAMPINT msr.samprate = 0)
    (hdecoded : ∀ msr ∈ records, msr.datasamples.length = msr.samplecnt)
    (hpass : packetPass exactArith numSamples s nextStart records = (r, .done)) :
    r.data.length = (records.getLast hne).samplecnt ∧
      r.totSamp = s.totSamp + countedSamples records ∧ ExpectedStarts 0 nextStart records := by
  induction records generalizing s nextStart with
  | nil => exact absurd rfl hne
  | cons msr records ih =>
    obtain ⟨huse, hused⟩ := List.forall_mem_cons.1 hused
    obtain ⟨hmsr, hform⟩ := List.forall_mem_cons.1 hform
    obtain ⟨hzero, hrate⟩ := List.forall_mem_cons.1 hrate
    obtain ⟨hlen, hdecoded⟩ := List.forall_mem_cons.1 hdecoded
    obtain ⟨hstart, hpass⟩ := packetPass_fresh hpos hint huse hmsr hpass
    have hdata := data_freshCopy form numSamples s hlen
    have hcount : (freshCopy form numSamples s msr).totSamp = s.totSamp + msr.samplecnt := rfl
    rw [hzero] at hpass
    cases records with
    | nil =>
      obtain rfl : freshCopy form numSamples s msr = r := congrArg Prod.fst hpass
      exact ⟨by rw [hdata, hlen]; rfl, hcount, hstart, trivial⟩
    | cons next records =>
      obtain ⟨hlast, htot, hrest⟩ := ih (s := freshCopy form numSamples s msr) hzero
        (List.cons_ne_nil _ _) hused hform hrate hdecoded hpass
      rw [List.getLast_cons (List.cons_ne_nil _ _), htot, hcount, countedSamples_cons msr,
        add_assoc]
      exact ⟨hlast, rfl, hstart, hrest⟩

/-! ## The careful reading -/

/-- The trace of a group with one segment. -/
theorem getMseedTrace_merged [Zero α] {head : MseedHead} {rate : ℚ} (mem : ℤ)
    {group : List (MSTrace α)} {trc : MSTrace α}
    (hgroup : group.filter (fun trc => trc.samplecnt ≠ 0) = [trc])
    (htrc : IsMerged head.id rate records trc) :
    channelRun head.id group = [trc] ∧
      getMseedTrace exactArith head mem group =
        firstSegment exactArith ⟨head, 0, 0, [], [], [], mem, []⟩ trc := by
  have hrun : channelRun head.id group = [trc] := by
    rw [channelRun, hgroup, List.dropWhile_cons_of_neg (by simp [htrc.id]),
      List.takeWhile_cons_of_pos (by simp [htrc.id]), List.takeWhile_nil]
  refine ⟨hrun, ?_⟩
  rw [getMseedTrace, groupLoop_true, hrun]
  rfl

/-- What the careful reading leaves of records that abut. -/
def mergedView (hptime2btime : ℚ → BTime) (head : MseedHead) (rate : ℚ)
    (records : List (MSRecord α)) (first : MSRecord α) : MseedView α where
  samples := allSamples records
  numSamples := countedSamples records
  length := (countedSamples records - 1) *
    ((if head.sampInt = 0 then SAMPINT rate else head.sampInt) / ONEMIL)
  epochs := startEpochs hptime2btime first.starttime
  gaps := []
  overlaps := []

theorem sampInt_setSampling (head : MseedHead) (trc : MSTrace α) :
    (setSampling head trc).sampInt =
      if head.sampInt = 0 then SAMPINT trc.samprate else head.sampInt := by
  unfold setSampling
  split_ifs
  · split <;> rfl
  · rfl

theorem carefulView_merged [Zero α] (hptime2btime : ℚ → BTime) {head : MseedHead} {rate : ℚ}
    {file : MseedFile α} {group : List (MSTrace α)} {trc : MSTrace α} {first : MSRecord α}
    (hfile : file.group = some group)
    (hgroup : group.filter (fun trc => trc.samplecnt ≠ 0) = [trc])
    (htrc : IsMerged head.id rate records trc) (hfirst : first ∈ records.head?)
    (hdecoded : ∀ msr ∈ records, msr.datasamples.length = msr.samplecnt) :
    carefulView hptime2btime head numSamples file =
      some (mergedView hptime2btime head rate records first) := by
  obtain ⟨hrun, htrace⟩ := getMseedTrace_merged (numSamples * head.dataSize) hgroup htrc
  have hlen : trc.datasamples.take trc.samplecnt = allSamples records := by
    have hcount := htrc.samplecnt
    rw [← length_allSamples hdecoded, ← htrc.datasamples, Nat.cast_inj] at hcount
    rw [hcount, List.take_length, htrc.datasamples]
  have hint : (setSampling head trc).sampInt =
      if head.sampInt = 0 then SAMPINT rate else head.sampInt := by
    rw [sampInt_setSampling, htrc.samprate]
  rw [carefulView, hfile, Option.map_some, htrace, hrun]
  apply congrArg some
  change MseedView.mk (([] : List α).take _ ++ trc.datasamples.take trc.samplecnt)
    (0 + (trc.samplecnt : ℤ))
    (((0 + (trc.samplecnt : ℤ) : ℤ) - 1) * ((setSampling head trc).sampInt / ONEMIL))
    (startEpochs hptime2btime trc.starttime) [] [] = _
  rw [List.take_nil, List.nil_append, hlen, zero_add, htrc.samplecnt, hint,
    htrc.starttime first hfirst]
  rfl

/-! ## The two readings -/

theorem countedSamples_pos (hne : records ≠ []) (hcount : ∀ msr ∈ records, msr.samplecnt ≠ 0) :
    0 < countedSamples records := by
  cases records with
  | nil => exact absurd rfl hne
  | cons msr records =>
    have hmsr := hcount msr List.mem_cons_self
    have hrest := countedSamples_nonneg records
    rw [countedSamples_cons]
    omega

theorem isValidEncoding_of_form {encoding : ℤ} {form : DataForm}
    (h : encodingForm encoding = some form) : isValidEncoding encoding := by
  unfold encodingForm at h
  unfold isValidEncoding
  split_ifs at h <;> simp_all
  tauto

section Files

variable {id : ChannelId} {form : DataForm} {rate : ℚ} {file : MseedFile α} {head : MseedHead}

theorem mem_dataRecords {msr : MSRecord α} :
    msr ∈ dataRecords file ↔ msr ∈ file.records ∧ msr.samplecnt ≠ 0 := by
  simp [dataRecords]

theorem getMseedHedrM_spec {records : List (MSRecord α)}
    (hhead : getMseedHedrM id records = some (head, numSamples)) :
    head.id = id ∧
      numSamples = countedSamples (records.filter fun msr => isValidEncoding msr.encoding) := by
  unfold getMseedHedrM at hhead
  generalize records.filter (fun msr => isValidEncoding msr.encoding) = indexed at hhead ⊢
  cases indexed with
  | nil => exact nomatch hhead
  | cons msr indexed =>
    simp only [setHedrVals, Option.map_map, Option.map_eq_some_iff, Function.comp_apply,
      Prod.mk.injEq] at hhead
    obtain ⟨form, -, rfl, rfl⟩ := hhead
    exact ⟨rfl, rfl⟩

theorem dataRecords_ne_nil (hhead : getMseedHedrM id file.records = some (head, numSamples))
    (hne : numSamples ≠ 0) : dataRecords file ≠ [] := by
  rintro hnil
  refine hne ?_
  rw [(getMseedHedrM_spec hhead).2]
  apply List.sum_eq_zero
  intro count hmem
  obtain ⟨msr, hmsr, rfl⟩ := List.mem_map.1 hmem
  have hzero := List.filter_eq_nil_iff.1 hnil msr (List.mem_filter.1 hmsr).1
  simpa using hzero

/-- The packets that the loop copies are the records with samples, unless these are text. -/
theorem SingleChannel.ignored_iff (hfile : SingleChannel id form rate file) (hid : head.id = id)
    {msr : MSRecord α} (hmsr : msr ∈ file.records) :
    ¬ignoredPacket head msr ↔ form ≠ .MY_CHAR ∧ msr.samplecnt ≠ 0 := by
  have htext : encodingForm 0 = some .MY_CHAR := rfl
  by_cases hcount : msr.samplecnt = 0
  · simp [ignoredPacket, hcount]
  · have hform := hfile.encoding msr (mem_dataRecords.2 ⟨hmsr, hcount⟩)
    have hloc := hfile.location msr hmsr (isValidEncoding_of_form hform)
    have hzero : msr.encoding = 0 ↔ form = .MY_CHAR := by
      constructor
      · intro h
        rw [h, htext] at hform
        exact (Option.some.inj hform).symm
      · rintro rfl
        unfold encodingForm at hform
        split_ifs at hform with h
        · exact h
        all_goals simp at hform
    simp [ignoredPacket, hcount, hloc, hid, hzero]

/-- The loop on the records with samples. -/
theorem SingleChannel.packetPass_eq (hfile : SingleChannel id form rate file) (hid : head.id = id) :
    packetPass exactArith numSamples (openBuffer head numSamples) 0 file.records =
      packetPass exactArith numSamples (openBuffer head numSamples) 0
        (if form = .MY_CHAR then [] else dataRecords file) := by
  rw [packetPass_filter]
  congr 1
  have hhead : (openBuffer (α := α) head numSamples).head = head := rfl
  rw [hhead]
  split_ifs with htext
  · apply List.filter_eq_nil_iff.2
    intro msr hmsr
    simp [hfile.ignored_iff hid hmsr, htext]
  · apply List.filter_congr
    intro msr hmsr
    simp [hfile.ignored_iff hid hmsr, htext]

/-- With the interval of the header the loop copies the records behind its start time. -/
theorem SingleChannel.view_known (hptime2btime : ℚ → BTime)
    (hfile : SingleChannel id form rate file) (hid : head.id = id) (htext : form ≠ .MY_CHAR)
    (hint : head.sampInt ≠ 0)
    (hpass : packetPass exactArith numSamples (openBuffer head numSamples) 0 file.records =
      (s, .done)) (first : MSRecord α) :
    s.view hptime2btime s.head.sampInt =
        { mergedView hptime2btime head rate (dataRecords file) first with
          epochs := startEpochs hptime2btime head.startTime } ∧
      ExpectedStarts head.sampInt 0 (dataRecords file) := by
  rw [hfile.packetPass_eq hid, if_neg htext] at hpass
  have hused : ∀ msr ∈ dataRecords file, ¬ignoredPacket head msr := fun msr hmsr =>
    (hfile.ignored_iff hid (mem_dataRecords.1 hmsr).1).2 ⟨htext, (mem_dataRecords.1 hmsr).2⟩
  obtain ⟨hcopied, hstarts⟩ := copied_packetPass (s := openBuffer head numSamples) hint rfl hused
    hfile.decoded hpass
  have hhead : s.head = head := hcopied.head
  have htot : s.totSamp = countedSamples (dataRecords file) := hcopied.totSamp.trans (zero_add _)
  have hdata : s.data = allSamples (dataRecords file) := hcopied.data
  have hgaps : s.gaps = [] := hcopied.gaps
  have holap : s.olapData = [] := hcopied.olapData
  refine ⟨?_, hstarts⟩
  rw [MseedState.view, hhead, htot, hdata, hgaps, holap, mergedView, if_neg hint]

/-- Where the first packet brings the header, it brings its own start time too. -/
theorem SingleChannel.view_unknown (hptime2btime : ℚ → BTime)
    (hfile : SingleChannel id form rate file) (hid : head.id = id) (htext : form ≠ .MY_CHAR)
    (hint : head.sampInt = 0) (hpos : 0 ≤ numSamples)
    (hpass : packetPass exactArith numSamples (openBuffer head numSamples) 0 file.records =
      (s, .done)) {first : MSRecord α} {rest : List (MSRecord α)}
    (hdata : dataRecords file = first :: rest) (hrate : SAMPINT rate ≠ 0 ∨ rest = []) :
    s.view hptime2btime s.head.sampInt =
        mergedView hptime2btime head rate (dataRecords file) first ∧
      ExpectedStarts (SAMPINT rate) 0 (dataRecords file) := by
  rw [hfile.packetPass_eq hid, if_neg htext, hdata] at hpass
  have hmem : ∀ msr ∈ first :: rest, msr ∈ dataRecords file := fun msr hmsr => hdata ▸ hmsr
  have hused : ∀ msr ∈ dataRecords file, ¬ignoredPacket head msr := fun msr hmsr =>
    (hfile.ignored_iff hid (mem_dataRecords.1 hmsr).1).2 ⟨htext, (mem_dataRecords.1 hmsr).2⟩
  have hfirst := hmem first List.mem_cons_self
  have hlen := hfile.decoded first hfirst
  obtain ⟨-, hpass⟩ := packetPass_fresh (s := openBuffer head numSamples) hpos hint
    (hused first hfirst) (hfile.encoding first hfirst) hpass
  generalize hstarted : freshCopy form numSamples (openBuffer head numSamples) first = s' at hpass
  have hhead : s'.head = packetHeader head form first := by rw [← hstarted]; rfl
  have hs' : s'.data = first.datasamples := by rw [← hstarted]; exact data_freshCopy form _ _ hlen
  have htot : s'.totSamp = first.samplecnt := by rw [← hstarted]; exact zero_add _
  have hgaps : s'.gaps = [] := by rw [← hstarted]; rfl
  have holap : s'.olapData = [] := by rw [← hstarted]; rfl
  have hint' : s'.head.sampInt = SAMPINT rate := by
    rw [hhead, ← hfile.samprate first hfirst]
    rfl
  rw [hfile.samprate first hfirst] at hpass
  have hcopied : Copied s' rest s ∧
      ExpectedStarts (SAMPINT rate) (first.endtime + SAMPINT rate) rest := by
    rcases hrate with hrate | rfl
    · rw [← hint']
      exact copied_packetPass (hint' ▸ hrate) (by rw [htot, hs', hlen])
        (fun msr hmsr => hhead ▸ hused msr (hmem msr (List.mem_cons_of_mem _ hmsr)))
        (fun msr hmsr => hfile.decoded msr (hmem msr (List.mem_cons_of_mem _ hmsr)))
        (hint' ▸ hpass)
    · obtain rfl : s' = s := congrArg Prod.fst hpass
      exact ⟨Copied.refl s', trivial⟩
  obtain ⟨hcopied, hstarts⟩ := hcopied
  rw [hdata]
  refine ⟨?_, fun hne => absurd rfl hne, hstarts⟩
  rw [MseedState.view, hcopied.head, hint', hhead, hcopied.totSamp, htot, hcopied.data, hs',
    hcopied.gaps, hgaps, hcopied.olapData, holap, mergedView, if_pos hint, allSamples_cons,
    countedSamples_cons]
  rfl

/-- Text is not copied. -/
theorem SingleChannel.view_text (hfile : SingleChannel id form rate file) (hid : head.id = id)
    (htext : form = .MY_CHAR)
    (hpass : packetPass exactArith numSamples (openBuffer head numSamples) 0 file.records =
      (s, .done)) : s.totSamp = 0 := by
  rw [hfile.packetPass_eq hid, if_pos htext] at hpass
  obtain rfl : openBuffer head numSamples = s := congrArg Prod.fst hpass
  rfl

/-- Without any rate, more than one packet does not leave all samples. -/
theorem SingleChannel.data_unknown (hfile : SingleChannel id form rate file) (hid : head.id = id)
    (htext : form ≠ .MY_CHAR) (hint : head.sampInt = 0) (hpos : 0 ≤ numSamples)
    (hpass : packetPass exactArith numSamples (openBuffer head numSamples) 0 file.records =
      (s, .done)) (hzero : SAMPINT rate = 0) {first second : MSRecord α} {rest : List (MSRecord α)}
    (hdata : dataRecords file = first :: second :: rest) :
    (s.data.length : ℤ) < countedSamples (dataRecords file) ∧
      ExpectedStarts (SAMPINT rate) 0 (dataRecords file) := by
  rw [hfile.packetPass_eq hid, if_neg htext] at hpass
  have hne : dataRecords file ≠ [] := by
    rw [hdata]
    exact List.cons_ne_nil _ _
  have hused : ∀ msr ∈ dataRecords file, ¬ignoredPacket head msr := fun msr hmsr =>
    (hfile.ignored_iff hid (mem_dataRecords.1 hmsr).1).2 ⟨htext, (mem_dataRecords.1 hmsr).2⟩
  have hrate : ∀ msr ∈ dataRecords file, SAMPINT msr.samprate = 0 := fun msr hmsr =>
    (hfile.samprate msr hmsr).symm ▸ hzero
  obtain ⟨hlast, -, hstarts⟩ := packetPass_unknown (s := openBuffer head numSamples) hpos hint hne
    hused hfile.encoding hrate hfile.decoded hpass
  refine ⟨?_, hzero ▸ hstarts⟩
  have hbefore : 0 < countedSamples (dataRecords file).dropLast := by
    apply countedSamples_pos
    · rw [hdata, List.dropLast_cons_of_ne_nil (List.cons_ne_nil _ _)]
      exact List.cons_ne_nil _ _
    · exact fun msr hmsr => (mem_dataRecords.1 (List.dropLast_subset _ hmsr)).2
  have hsplit : countedSamples (dataRecords file) =
      countedSamples (dataRecords file).dropLast + ((dataRecords file).getLast hne).samplecnt := by
    conv_lhs => rw [← List.dropLast_append_getLast hne]
    simp [countedSamples]
  rw [hlast, hsplit]
  omega

/-- The packets follow each other without a gap once no expected start is zero. -/
theorem SingleChannel.abuts (hfile : SingleChannel id form rate file) (hid : head.id = id)
    (htext : form ≠ .MY_CHAR) (hint : head.sampInt = 0 ∨ head.sampInt = SAMPINT rate)
    (hpos : 0 ≤ numSamples)
    (hpass : packetPass exactArith numSamples (openBuffer head numSamples) 0 file.records =
      (s, .done))
    (hne : ∀ msr ∈ (dataRecords file).dropLast, msr.endtime + SAMPINT rate ≠ 0) :
    Abuts (SAMPINT rate) (dataRecords file) := by
  have htime : ℚ → BTime := fun _ => ⟨1970, 1, 0, 0, 0, 0⟩
  have hstarts : ExpectedStarts (SAMPINT rate) 0 (dataRecords file) := by
    cases hdata : dataRecords file with
    | nil => trivial
    | cons first rest =>
      rw [← hdata]
      by_cases hknown : head.sampInt = 0
      · by_cases hrate : SAMPINT rate ≠ 0 ∨ rest = []
        · exact (hfile.view_unknown htime hid htext hknown hpos hpass hdata hrate).2
        · obtain ⟨hzero, hrest⟩ := not_or.1 hrate
          obtain ⟨second, rest, rfl⟩ := List.exists_cons_of_ne_nil hrest
          exact (hfile.data_unknown hid htext hknown hpos hpass (not_not.1 hzero) hdata).2
      · rw [← hint.resolve_left hknown]
        exact (hfile.view_known htime hid htext hknown hpass first).2
  exact hstarts.abuts hne

/-- Of records that abut, the two readings leave the same if and only if the packets start with the
data. -/
theorem SingleChannel.agree_iff [Zero α] (hptime2btime : ℚ → BTime)
    (hfile : SingleChannel id form rate file) (hid : head.id = id) (hpos : 0 ≤ numSamples)
    (hpass : packetPass exactArith numSamples (openBuffer head numSamples) 0 file.records =
      (s, .done)) {first : MSRecord α} {rest : List (MSRecord α)}
    (hdata : dataRecords file = first :: rest)
    (hcareful : carefulView hptime2btime head numSamples file =
      some (mergedView hptime2btime head rate (dataRecords file) first)) :
    carefulView hptime2btime head numSamples file = some (s.view hptime2btime s.head.sampInt) ↔
      StartsWithData hptime2btime head form rate file := by
  have hmem : first ∈ dataRecords file := hdata ▸ List.mem_cons_self
  have hhead : ∀ msr ∈ (dataRecords file).head?, msr = first := by
    rw [hdata]
    exact fun msr hmsr => (Option.some.inj hmsr).symm
  rw [hcareful, Option.some_inj]
  by_cases htext : form = .MY_CHAR
  · refine iff_of_false (fun h => ?_) fun h => h.not_text htext
    have hcount : countedSamples (dataRecords file) = s.totSamp := congrArg MseedView.numSamples h
    rw [hfile.view_text hid htext hpass] at hcount
    have hne : dataRecords file ≠ [] := hdata ▸ List.cons_ne_nil _ _
    exact (countedSamples_pos hne fun msr hmsr => (mem_dataRecords.1 hmsr).2).ne' hcount
  · by_cases hint : head.sampInt = 0
    · by_cases hrate : SAMPINT rate ≠ 0 ∨ rest = []
      · rw [(hfile.view_unknown hptime2btime hid htext hint hpos hpass hdata hrate).1]
        refine iff_of_true rfl ⟨htext, fun h => absurd hint h, fun _ hzero => ?_⟩
        have hrest := hrate.resolve_left fun h => h (by rw [hzero, SAMPINT, if_pos rfl])
        rw [hdata, hrest]
        rfl
      · obtain ⟨hzero, hrest⟩ := not_or.1 hrate
        obtain ⟨second, rest, rfl⟩ := List.exists_cons_of_ne_nil hrest
        obtain ⟨hlt, -⟩ := hfile.data_unknown hid htext hint hpos hpass (not_not.1 hzero) hdata
        refine iff_of_false (fun h => ?_) fun h => ?_
        · have hsame : allSamples (dataRecords file) = s.data := congrArg MseedView.samples h
          rw [← hsame, length_allSamples hfile.decoded] at hlt
          exact lt_irrefl _ hlt
        · have hrate : rate = 0 := by
            rw [← hfile.samprate first hmem]
            apply hfile.finite first (mem_dataRecords.1 hmem).1
            rw [hfile.samprate first hmem]
            exact not_not.1 hzero
          have hlen := h.unknown hint hrate
          rw [hdata] at hlen
          simp at hlen
    · rw [(hfile.view_known hptime2btime hid htext hint hpass first).1]
      constructor
      · intro h
        have hepochs : startEpochs hptime2btime first.starttime =
          startEpochs hptime2btime head.startTime := congrArg MseedView.epochs h
        exact ⟨htext, fun _ msr hmsr => by rw [hhead msr hmsr, hepochs], fun h => absurd h hint⟩
      · intro h
        rw [h.known hint first (by rw [hdata]; rfl)]
        rfl

theorem readPackets_of_pass [Zero α] {r : MseedState α}
    (hpass : packetPass exactArith numSamples s 0 file.records = (r, .done))
    (hend : file.endOfFile) :
    readPackets exactArith numSamples s file =
      (r, if r.totSamp = 0 then .NOT_ENOUGH_DATA else .PQLXSUCCESS) := by
  unfold readPackets
  rw [hpass]
  exact if_pos hend

/-- For such a file `get_mseed_data` returns the state at the end of the packet loop. -/
theorem ReadsByPackets.getMseedData_eq [Zero α] (hread : ReadsByPackets head numSamples file s)
    (hpos : 0 ≤ numSamples) :
    getMseedData exactArith head numSamples .MSEED_DATA file =
      (s, if s.totSamp = 0 then .NOT_ENOUGH_DATA else .PQLXSUCCESS) := by
  have hmem : ¬(openBuffer (α := α) head numSamples).ttlMemAlloc < 0 :=
    not_lt.2 (mul_nonneg hpos (Int.natCast_nonneg _))
  unfold getMseedData
  simp only []
  rw [if_neg (not_lt.2 hread.count_le), if_neg hread.count_ne]
  change (if (openBuffer (α := α) head numSamples).ttlMemAlloc < 0 then _
    else readPackets exactArith numSamples (openBuffer head numSamples) file) = _
  rw [if_neg hmem, readPackets_of_pass hread.pass hread.endOfFile]

end Files

end FastPath

/-! ## Files -/

/-- `ms_hptime2btime` in the first minute of 2020. -/
def newYear (hptime : ℚ) : BTime where
  year := 2020
  day := 1
  hour := 0
  min := 0
  sec := (truncate ((hptime - 1577836800 * ONEMIL) / ONEMIL)).toNat
  fract := (truncate hptime % 1000000 / 100).toNat

/-- A record at one sample per second that starts in the first minute of 2020. -/
def newYearRecord (second : ℕ) (samples : List ℤ) : MSRecord ℤ where
  location := ""
  encoding := 3
  samplecnt := samples.length
  starttime := (1577836800 + second) * ONEMIL
  endtime := (1577836800 + second + samples.length - 1) * ONEMIL
  samprate := 1
  datasamples := samples

def newYearSegment (second : ℕ) (samples : List ℤ) : MSTrace ℤ where
  id := ⟨"XX", "STA", "", "BHZ"⟩
  starttime := (1577836800 + second) * ONEMIL
  endtime := (1577836800 + second + samples.length - 1) * ONEMIL
  samprate := 1
  sampletype := 'i'
  samplecnt := samples.length
  datasamples := samples

def newYearHead (second : ℕ) : MseedHead :=
  ⟨⟨"XX", "STA", "", "BHZ"⟩, ONEMIL, .BIT32, (1577836800 + second) * ONEMIL⟩

theorem singleChannel_newYear {file : MseedFile ℤ}
    (h : ∀ msr ∈ file.records, ∃ second samples, msr = newYearRecord second samples) :
    SingleChannel ⟨"XX", "STA", "", "BHZ"⟩ .BIT32 1 file := by
  have hint : SAMPINT 1 ≠ 0 := by decide +kernel
  refine ⟨fun msr hmsr _ => ?_, fun msr hmsr => ?_, fun msr hmsr => ?_, fun msr hmsr => ?_,
    fun msr hmsr _ f hf => ?_, fun msr hmsr hzero => ?_⟩
  · obtain ⟨second, samples, rfl⟩ := h msr hmsr
    rfl
  · obtain ⟨second, samples, rfl⟩ := h msr (mem_dataRecords.1 hmsr).1
    rfl
  · obtain ⟨second, samples, rfl⟩ := h msr (mem_dataRecords.1 hmsr).1
    rfl
  · obtain ⟨second, samples, rfl⟩ := h msr (mem_dataRecords.1 hmsr).1
    rfl
  · obtain ⟨second, samples, rfl⟩ := h msr hmsr
    obtain rfl : DataForm.BIT32 = f := Option.some.inj hf
    rfl
  · obtain ⟨second, samples, rfl⟩ := h msr hmsr
    exact absurd hzero hint

/-- Two packets in order, and one without samples behind them. -/
def orderlyFile : MseedFile ℤ where
  records := [newYearRecord 20 [4, 5], newYearRecord 22 [6], newYearRecord 23 []]
  endOfFile := true
  group := some [newYearSegment 20 [4, 5, 6]]

/-- The first packet has no samples and is ten seconds early. -/
def earlyFile : MseedFile ℤ where
  records := [newYearRecord 10 [], newYearRecord 20 [4, 5]]
  endOfFile := true
  group := some [newYearSegment 10 [], newYearSegment 20 [4, 5]]

/-- The state at the end of the packet loop. -/
def packetState (second : ℕ) (numSamples : ℤ) (file : MseedFile ℤ) : MseedState ℤ :=
  (packetPass exactArith numSamples (openBuffer (newYearHead second) numSamples) 0 file.records).1

theorem merges_newYear {file : MseedFile ℤ} {group : List (MSTrace ℤ)} (second : ℕ)
    (samples : List ℤ) (hgroup : file.group = some group)
    (hone : group.filter (fun trc => trc.samplecnt ≠ 0) = [newYearSegment second samples])
    (hfirst : ∀ msr ∈ (dataRecords file).head?, msr.starttime = (1577836800 + second) * ONEMIL)
    (hcount : countedSamples (dataRecords file) = samples.length)
    (hall : allSamples (dataRecords file) = samples) :
    Merges ⟨"XX", "STA", "", "BHZ"⟩ 1 file := fun _ =>
  ⟨group, newYearSegment second samples, hgroup, hone,
    ⟨rfl, fun msr hmsr => (hfirst msr hmsr).symm, rfl, hcount.symm, hall.symm⟩⟩

theorem readsByPackets_newYear {second : ℕ} {numSamples : ℤ} {file : MseedFile ℤ}
    (hne : numSamples ≠ 0) (hle : numSamples ≤ TOOMANYPOINTS)
    (hdone : (packetPass exactArith numSamples (openBuffer (newYearHead second) numSamples) 0
      file.records).2 = .done) (hend : file.endOfFile) :
    ReadsByPackets (newYearHead second) numSamples file (packetState second numSamples file) :=
  ⟨hne, hle, Prod.ext rfl hdone, hend⟩

end PQL
