import PQL.Mseed.Sizes

/-!
# Sizes in `get_mseed_data`

The test against `TOOMANYPOINTS` bounds the samples that a file holds, but not the gaps between its
segments, so all sizes are in order exactly when the samples and the gap fill together fit
(`getMseedData_sizes_iff`).  `passPlan` is what the pass over the packets does, without the sizes.
-/

namespace PQL

section Plan

variable {α : Type}

/-- The header that is in force when a packet is copied. -/
def packetHead (head : MseedHead) (msr : MSRecord α) : Option MseedHead :=
  if head.sampInt = 0 then setHedrVals msr head else some head

/-- The packets that are copied, each with its header, the header at the end and how the pass
ends. -/
structure PassPlan (α : Type) where
  copied : List (MseedHead × MSRecord α)
  head : MseedHead
  ending : PassEnd

def passPlan (head : MseedHead) (nextStart : ℚ) : List (MSRecord α) → PassPlan α
  | [] => ⟨[], head, .done⟩
  | msr :: records =>
    if ignoredPacket head msr then passPlan head nextStart records
    else
      match packetHead head msr with
      | none => ⟨[], head, .failed .FAILURE⟩
      | some head =>
        if nextStart ≠ 0 ∧ msr.starttime ≠ nextStart then ⟨[], head, .reRead⟩
        else
          let plan := passPlan head (truncate (msr.endtime + head.sampInt)) records
          { plan with copied := (head, msr) :: plan.copied }

/-- The samples up to each packet fit when it is copied, after `T` samples. -/
def PacketsFit (T : ℤ) : List (MseedHead × MSRecord α) → Prop
  | [] => True
  | (head, msr) :: copied =>
    (T + msr.samplecnt) * head.dataSize < 2 ^ 31 ∧ PacketsFit (T + msr.samplecnt) copied

/-- The pass leaves the work to `getMseedTrace`. -/
def PassPlan.ReadsAgain (plan : PassPlan α) (file : MseedFile α) : Prop :=
  plan.ending = .reRead ∨ plan.ending = .done ∧ file.endOfFile = false

/-- The samples of the file fit, and so does the trace with its gap fill if it is read carefully. -/
def ReadFits (head : MseedHead) (fileType : FileType) (file : MseedFile α) : Prop :=
  match fileType with
  | .MSEED_MPLEX_DATA => ∀ group ∈ file.group, TraceFits head group
  | .MSEED_DATA =>
    let plan := passPlan head 0 file.records
    PacketsFit 0 plan.copied ∧
      (plan.ReadsAgain file → ∀ group ∈ file.group, TraceFits plan.head group)

/-! ## The pass over the packets -/

variable {s : MseedState α} {numSamples : ℤ}

theorem allocate_machine (hpos : 0 ≤ numSamples) (hmax : numSamples ≤ TOOMANYPOINTS)
    (s : MseedState α) :
    (s.allocate machineArith numSamples).ttlMemAlloc = numSamples * s.head.dataSize ∧
      0 ≤ numSamples * s.head.dataSize ∧ InIntRange (numSamples * s.head.dataSize) := by
  have hsize : (s.head.dataSize : ℤ) ≤ 8 := by exact_mod_cast dataSize_le s.head
  have hle : numSamples * s.head.dataSize ≤ TOOMANYPOINTS * 8 :=
    mul_le_mul hmax hsize (Int.natCast_nonneg _) (by norm_num [TOOMANYPOINTS])
  have hnonneg : 0 ≤ numSamples * s.head.dataSize := mul_nonneg hpos (Int.natCast_nonneg _)
  have hrange : InIntRange (numSamples * s.head.dataSize) := by
    unfold TOOMANYPOINTS at hle
    exact ⟨by omega, by omega⟩
  exact ⟨machine_int hrange, hnonneg, hrange⟩

theorem startPacket_none (A : CArith) {msr : MSRecord α} (h : packetHead s.head msr = none) :
    startPacket A numSamples s msr = (s, some .FAILURE) := by
  unfold packetHead at h
  unfold startPacket
  by_cases hzero : s.head.sampInt = 0
  · rw [if_pos hzero] at h ⊢
    rw [h]
  · rw [if_neg hzero] at h
    exact nomatch h

theorem logs_startPacket (A : CArith) (numSamples : ℤ) (s : MseedState α) (msr : MSRecord α) :
    Logs s (startPacket A numSamples s msr).1 := by
  unfold startPacket
  split_ifs
  · split
    · exact Logs.refl s
    · exact ⟨_, rfl⟩
  · exact Logs.refl s

theorem logs_packetPass (A : CArith) (numSamples : ℤ) (s : MseedState α) (nextStart : ℚ)
    (records : List (MSRecord α)) : Logs s (packetPass A numSamples s nextStart records).1 := by
  induction records generalizing s nextStart with
  | nil => exact Logs.refl s
  | cons msr records ih =>
    unfold packetPass
    by_cases hign : ignoredPacket s.head msr
    · rw [if_pos hign]
      exact ih s nextStart
    · rw [if_neg hign]
      have hstart := logs_startPacket A numSamples s msr
      generalize startPacket A numSamples s msr = r at hstart ⊢
      obtain ⟨s', _ | result⟩ := r
      · simp only []
        split_ifs
        · exact hstart
        · exact hstart.trans (((logs_reserve _ _ _).trans (logs_write _ _ _ _)).trans (ih _ _))
      · exact hstart

/-- A packet that is used finds the header and a buffer of some size. -/
theorem startPacket_some (hpos : 0 ≤ numSamples) (hmax : numSamples ≤ TOOMANYPOINTS)
    {msr : MSRecord α} {head : MseedHead} (h : packetHead s.head msr = some head) :
    ∃ s', startPacket machineArith numSamples s msr = (s', none) ∧ s'.head = head ∧
      (∃ new, s'.log = s.log ++ new ∧ AllOk new) ∧ ∀ T, Counts s T → Counts s' T := by
  unfold packetHead at h
  unfold startPacket
  by_cases hzero : s.head.sampInt = 0
  · rw [if_pos hzero] at h ⊢
    rw [h]
    obtain ⟨halloc, hnonneg, hrange⟩ := allocate_machine hpos hmax { s with head := head }
    refine ⟨{ s with head := head }.allocate machineArith numSamples, ?_, rfl, ⟨_, rfl, ?_⟩, ?_⟩
    · simp only [halloc, if_neg (not_lt.2 hnonneg)]
    · exact (allOk_cons _ _).2 ⟨hrange, allOk_nil⟩
    · intro T hs
      exact ⟨hs.totSamp, hs.nonneg, halloc ▸ hnonneg, halloc ▸ hrange⟩
  · rw [if_neg hzero] at h ⊢
    obtain rfl := Option.some.inj h
    exact ⟨s, rfl, rfl, ⟨[], (List.append_nil _).symm, allOk_nil⟩, fun _ hs => hs⟩

theorem goes_copyPacket {T : ℤ} (h : Counts s T) (msr : MSRecord α) :
    Goes s (copyPacket machineArith s msr) ((T + msr.samplecnt) * s.head.dataSize < 2 ^ 31)
      (T + msr.samplecnt) :=
  goes_store h (Int.natCast_nonneg _) _

/-- `r` comes from `s` by a pass as planned, and its sizes are in order exactly when those of the
copied packets are. -/
structure Follows (s : MseedState α) (r : MseedState α × PassEnd) (plan : PassPlan α) : Prop where
  head : r.1.head = plan.head
  ending : r.2 = plan.ending
  sizes : ∀ T, Counts s T → ∃ new, r.1.log = s.log ++ new ∧
    (AllOk new ↔ PacketsFit T plan.copied) ∧ (PacketsFit T plan.copied → ∃ U, Counts r.1 U)

theorem follows_packetPass (hpos : 0 ≤ numSamples) (hmax : numSamples ≤ TOOMANYPOINTS)
    (s : MseedState α) (nextStart : ℚ) (records : List (MSRecord α)) :
    Follows s (packetPass machineArith numSamples s nextStart records)
      (passPlan s.head nextStart records) := by
  have hstay :
      ∀ (s : MseedState α) (ending : PassEnd), Follows s (s, ending) ⟨[], s.head, ending⟩ :=
    fun s ending => ⟨rfl, rfl, fun T hs => ⟨[], (List.append_nil _).symm,
      iff_of_true allOk_nil trivial, fun _ => ⟨T, hs⟩⟩⟩
  induction records generalizing s nextStart with
  | nil => exact hstay s .done
  | cons msr records ih =>
    unfold packetPass passPlan
    by_cases hign : ignoredPacket s.head msr
    · rw [if_pos hign, if_pos hign]
      exact ih s nextStart
    · rw [if_neg hign, if_neg hign]
      rcases hhead : packetHead s.head msr with _ | head
      · rw [startPacket_none machineArith hhead]
        exact hstay s _
      · obtain ⟨s', hstart, rfl, ⟨new, hnew, hok⟩, hcounts⟩ := startPacket_some hpos hmax hhead
        rw [hstart]
        simp only []
        by_cases hnext : nextStart ≠ 0 ∧ msr.starttime ≠ nextStart
        · rw [if_pos hnext, if_pos hnext]
          exact ⟨rfl, rfl, fun T hs => ⟨new, hnew, iff_of_true hok trivial,
            fun _ => ⟨T, hcounts T hs⟩⟩⟩
        · rw [if_neg hnext, if_neg hnext]
          have hrest := ih (copyPacket machineArith s' msr)
            (machineArith.hptime (msr.endtime + s'.head.sampInt))
          refine ⟨hrest.head, hrest.ending, fun T hs => ?_⟩
          have hcopy := goes_copyPacket (hcounts T hs) msr
          obtain ⟨new', hnew', hok'⟩ := hcopy.logged
          by_cases hfit : (T + msr.samplecnt) * s'.head.dataSize < 2 ^ 31
          · obtain ⟨rest, hlog, hiff, hcount⟩ := hrest.sizes _ (hcopy.holds hfit).toCounts
            refine ⟨new ++ (new' ++ rest), ?_, ?_, fun hP => hcount hP.2⟩
            · rw [hlog, hnew', hnew, List.append_assoc, List.append_assoc]
            · rw [allOk_append, allOk_append, hok', hiff]
              exact ⟨And.right, fun hP => ⟨hok, hP⟩⟩
          · obtain ⟨rest, hlog⟩ := logs_packetPass machineArith numSamples
              (copyPacket machineArith s' msr) _ records
            refine ⟨new ++ (new' ++ rest), ?_, ?_, fun hP => absurd hP.1 hfit⟩
            · rw [hlog, hnew', hnew, List.append_assoc, List.append_assoc]
            · rw [allOk_append, allOk_append, hok']
              exact iff_of_false (fun hc => hfit hc.2.1) fun hP => hfit hP.1

/-! ## The whole reading -/

variable [Zero α]

theorem reRead_sizes_iff (hpos : 0 ≤ s.ttlMemAlloc) (hrange : InIntRange s.ttlMemAlloc)
    (group : Option (List (MSTrace α))) :
    ∃ new, (reRead machineArith s group).1.log = s.log ++ new ∧
      (AllOk new ↔ ∀ g ∈ group, TraceFits s.head g) := by
  cases group with
  | none => exact ⟨[], (List.append_nil _).symm, iff_of_true allOk_nil nofun⟩
  | some g =>
    refine ⟨_, rfl, ?_⟩
    rw [getMseedTrace_sizes_iff s.head hpos hrange]
    simp only [Option.mem_def, Option.some.injEq, forall_eq']

theorem logs_reRead (A : CArith) (s : MseedState α) (group : Option (List (MSTrace α))) :
    Logs s (reRead A s group).1 := by
  cases group with
  | none => exact Logs.refl s
  | some g => exact ⟨_, rfl⟩

theorem logs_readPackets (A : CArith) (numSamples : ℤ) (s : MseedState α) (file : MseedFile α) :
    Logs s (readPackets A numSamples s file).1 := by
  unfold readPackets
  have hpass := logs_packetPass A numSamples s 0 file.records
  generalize packetPass A numSamples s 0 file.records = r at hpass ⊢
  obtain ⟨s', _ | _ | _⟩ := r
  · simp only []
    cases file.endOfFile with
    | true => exact hpass
    | false => exact Logs.trans hpass (logs_reRead A s' file.group)
  · exact hpass.trans (logs_reRead A s' file.group)
  · exact hpass

/-- A file with one channel, once its buffer is allocated. -/
theorem readPackets_sizes_iff (hpos : 0 ≤ numSamples) (hmax : numSamples ≤ TOOMANYPOINTS)
    (hs : Counts s 0) (file : MseedFile α) :
    ∃ new, (readPackets machineArith numSamples s file).1.log = s.log ++ new ∧
      (AllOk new ↔ ReadFits s.head .MSEED_DATA file) := by
  obtain ⟨hhead, hending, hsizes⟩ := follows_packetPass hpos hmax s 0 file.records
  obtain ⟨new, hnew, hiff, hcounts⟩ := hsizes 0 hs
  unfold readPackets ReadFits
  simp only [PassPlan.ReadsAgain, ← hhead, ← hending]
  generalize packetPass machineArith numSamples s 0 file.records = r at *
  obtain ⟨s', ending⟩ := r
  have hagain : ∃ new, (reRead machineArith s' file.group).1.log = s.log ++ new ∧
      (AllOk new ↔ PacketsFit 0 (passPlan s.head 0 file.records).copied ∧
        ∀ g ∈ file.group, TraceFits s'.head g) := by
    by_cases hP : PacketsFit 0 (passPlan s.head 0 file.records).copied
    · obtain ⟨U, hU⟩ := hcounts hP
      obtain ⟨rest, hrest, hok⟩ := reRead_sizes_iff hU.alloc_nonneg hU.range file.group
      refine ⟨new ++ rest, by rw [hrest, hnew, List.append_assoc], ?_⟩
      rw [allOk_append, hiff, hok]
    · obtain ⟨rest, hrest⟩ := logs_reRead machineArith s' file.group
      refine ⟨new ++ rest, by rw [hrest, hnew, List.append_assoc], ?_⟩
      rw [allOk_append, hiff]
      exact iff_of_false (fun hc => hP hc.1) fun hc => hP hc.1
  cases ending with
  | failed result => exact ⟨new, hnew, by simpa using hiff⟩
  | reRead => simpa using hagain
  | done =>
    cases file.endOfFile with
    | true => exact ⟨new, by simpa using hnew, by simpa using hiff⟩
    | false => simpa using hagain

theorem logs_readFileType (A : CArith) (numSamples : ℤ) (s : MseedState α) (fileType : FileType)
    (file : MseedFile α) : Logs s (readFileType A numSamples s fileType file).1 := by
  cases fileType with
  | MSEED_DATA => exact logs_readPackets A numSamples s file
  | MSEED_MPLEX_DATA => exact logs_reRead A s file.group

theorem readFileType_sizes_iff (hpos : 0 ≤ numSamples) (hmax : numSamples ≤ TOOMANYPOINTS)
    (hs : Counts s 0) (fileType : FileType) (file : MseedFile α) :
    ∃ new, (readFileType machineArith numSamples s fileType file).1.log = s.log ++ new ∧
      (AllOk new ↔ ReadFits s.head fileType file) := by
  cases fileType with
  | MSEED_DATA => exact readPackets_sizes_iff hpos hmax hs file
  | MSEED_MPLEX_DATA => exact reRead_sizes_iff hs.alloc_nonneg hs.range file.group

end Plan

instance : (e : MemEvent) → Decidable e.Ok
  | .size n => inferInstanceAs (Decidable (InIntRange n))
  | .convert q => inferInstanceAs (Decidable (∃ n ∈ q, InIntRange n))
  | .copy _ _ _ => inferInstanceAs (Decidable (_ ∧ _))

instance (log : List MemEvent) : Decidable (AllOk log) :=
  inferInstanceAs (Decidable (∀ e ∈ log, e.Ok))

def longGapHead : MseedHead := ⟨⟨"XX", "STA", "", "BHZ"⟩, 10000, .BIT32, 1000000000000000⟩

/-- Two samples at 100 per second, and two more after 63 days. -/
def longGapFile : MseedFile ℤ where
  records := [
    ⟨"", 3, 2, 1000000000000000, 1000000000010000, 100, [1, 2]⟩,
    ⟨"", 3, 2, 1005443200000000, 1005443200010000, 100, [3, 4]⟩]
  endOfFile := true
  group := some [
    ⟨longGapHead.id, 1000000000000000, 1000000000010000, 100, 'i', 2, [1, 2]⟩,
    ⟨longGapHead.id, 1005443200000000, 1005443200010000, 100, 'i', 2, [3, 4]⟩]

end PQL
