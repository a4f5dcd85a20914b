import PQL.Mseed.FileReader

/-!
# Files of records

A file of records, with blocks between them that have no valid header and a rest that is shorter
than a block, is read as its records in order, whatever was in the buffer before
(`readRecords_recordFile`).  A read from the position of a record returns this record
(`seekRecords_recordFile`), and the trace group of the file holds each of its records once
(`fileGroup_partition`).  Of a file that ends within its record the missing bytes are taken from the
memory of the buffer, if the length of the file could be that of a record (`readRecords_cut`).
-/

namespace PQL

namespace Libmseed

open ByteOrdered

/-! ## Files of records -/

section Files

variable {host o : Endian} {fsdh : Fsdh} {blkts : List BlktLink}
  {encoding byteorder exponent : Byte} {record file : List Byte} {sampletype : Char}
  {samples : List Sample} {p k : ℕ} {found : List (MsRecord × ℤ)}

/-- A file of records from the position `p` on, found where they start: blocks without a valid
header may stand before and between them, and less than a block behind them. -/
inductive RecordFile (host : Endian) : ℕ → List Byte → List (MsRecord × ℤ) → Prop
  | tail {p : ℕ} {bytes : List Byte} (hshort : bytes.length < MINRECLEN) :
    RecordFile host p bytes []
  | skip {p : ℕ} {block rest : List Byte} {found : List (MsRecord × ℤ)}
    (hlength : block.length = MINRECLEN) (hinvalid : msIsValidHeader block = false)
    (hrest : RecordFile host (p + MINRECLEN) rest found) : RecordFile host p (block ++ rest) found
  | record {p : ℕ} {o : Endian} {fsdh : Fsdh} {blkts : List BlktLink}
    {encoding byteorder exponent : Byte} {record rest : List Byte} {sampletype : Char}
    {samples : List Sample} {found : List (MsRecord × ℤ)}
    (hrecord : IsRecord host o fsdh blkts encoding byteorder exponent record)
    (hsamples : HasSamples fsdh encoding byteorder record sampletype samples)
    (hrest : RecordFile host (p + record.length) rest found) :
    RecordFile host p (record ++ rest)
      ((recordRead host o fsdh blkts encoding byteorder record.length sampletype samples, p) ::
        found)

theorem parsesAs_record (h : IsRecord host o fsdh blkts encoding byteorder exponent record)
    (hsamples : HasSamples fsdh encoding byteorder record sampletype samples) :
    ParsesAs (msrParse host noVariables true) MsRecord.reclen record
      (recordRead host o fsdh blkts encoding byteorder record.length sampletype samples) where
  minreclen_le := h.minreclen_le
  le_maxreclen := h.short
  length := rfl
  whole rest _ _ hlen hreclen := msrParse_whole h hsamples rest hlen hreclen
  part hmem hmin hlen hreclen := msrParse_part h hmem true hmin hlen hreclen

theorem unreadable_of_invalid {block : List Byte} (hlength : block.length = MINRECLEN)
    (hinvalid : msIsValidHeader block = false) :
    Unreadable (msrParse host noVariables true) block := by
  refine ⟨hlength, fun rest recbuflen reclen hlen hreclen => ⟨.notSeed, ?_⟩⟩
  unfold MINRECLEN at hlength hlen
  have hdetect : msDetect host (block ++ rest) recbuflen = some (-1) := by
    rw [msDetect, if_neg (by omega), msIsValidHeader_append (by omega), hinvalid]
    rfl
  rw [msrParse, if_neg (by omega), hdetect]
  rfl

theorem RecordFile.pieces (h : RecordFile host p file found) :
    Pieces (msrParse host noVariables true) MsRecord.reclen p file found := by
  induction h with
  | tail hshort => exact .tail hshort
  | skip hlength hinvalid _ ih => exact .skip (unreadable_of_invalid hlength hinvalid) ih
  | record hrecord hsamples _ ih => exact .record (parsesAs_record hrecord hsamples) ih

theorem buffers_openFile {memory : List Byte} (h : memory.length = MAXRECLEN) :
    Buffers file (openFile memory) 0 0 where
  filepos := rfl
  offset := ⟨0, rfl, rfl, Nat.zero_le _⟩
  memory := h
  bytes := rfl
  inside := Nat.zero_le _
  position := rfl
  eof heof := nomatch heof
  packtype := rfl
  packhdroffset := rfl

/-- The records of a file are read in order and found where they are, whatever was in the buffer
before. -/
theorem readRecords_recordFile (h : RecordFile host 0 file found) (hfile : packSignature file = 0)
    {memory : List Byte} (hmemory : memory.length = MAXRECLEN) {reclen : ℤ} (hreclen : reclen ≤ 0)
    {fuel turns : ℕ} (hfuel : 2 * file.length + 2 < fuel) (hturns : found.length < turns) :
    readRecords file (msrParse host noVariables true) MsRecord.reclen fuel reclen turns
        (openFile memory) =
      some (found, if found = [] then .failed .notSeed else .endOfFile) := by
  rw [readRecords_pieces hfile (buffers_openFile hmemory) h.pieces hreclen hfuel hturns]
  congr 3
  rw [openFile, zero_add, List.length_eq_zero_iff]

/-- A record, a blank block, the record again and a byte. -/
def marchFile : List Byte := marchBlock ++ (List.replicate 128 0 ++ (marchBlock ++ [0]))

def marchRecord : MsRecord :=
  recordRead .littleEnd .bigEnd marchHead [marchBlkt] 3 1 marchBlock.length 'i'
    [.int 5, .int (-7)]

theorem recordFile_march :
    RecordFile .littleEnd 0 marchFile [(marchRecord, 0), (marchRecord, 256)] := by
  have hsecond : RecordFile .littleEnd (0 + marchBlock.length + MINRECLEN) (marchBlock ++ [0])
      [(marchRecord, ((0 + marchBlock.length + MINRECLEN : ℕ) : ℤ))] :=
    .record isRecord_march hasSamples_march (.tail (by decide))
  have hfile := RecordFile.record isRecord_march hasSamples_march
    (.skip (show (List.replicate 128 (0 : Byte)).length = MINRECLEN from List.length_replicate ..)
      (by decide) hsecond)
  rw [length_marchBlock] at hfile
  exact hfile

theorem length_marchFile : marchFile.length = 385 := by
  simp [marchFile, length_marchBlock, MINRECLEN]

theorem readRecords_recordFile_march :
    readRecords marchFile (msrParse .littleEnd noVariables true) MsRecord.reclen 1000 (-1) 3
        (openFile (List.replicate MAXRECLEN 0)) =
      some ([(marchRecord, 0), (marchRecord, 256)],
        if [(marchRecord, (0 : ℤ)), (marchRecord, 256)] = [] then .failed .notSeed
        else .endOfFile) :=
  readRecords_recordFile recordFile_march (by decide) (List.length_replicate ..) (by decide)
    (by rw [length_marchFile]; decide) (by decide)

/-- Reads from the positions of records, in any order, return these records.  Position 0 cannot be
asked for: it means that the reader stays where it is. -/
theorem seekRecords_recordFile (h : RecordFile host 0 file found) (hfile : packSignature file = 0)
    {m : MSFileParam} (hm : Unpacked m) {wanted : List (MsRecord × ℤ)}
    (hwanted : ∀ w ∈ wanted, w ∈ found ∧ w.2 ≠ 0) {reclen : ℤ} (hreclen : reclen ≤ 0) {fuel : ℕ}
    (hfuel : 2 * file.length + 2 < fuel) :
    seekRecords file (msrParse host noVariables true) MsRecord.reclen fuel reclen
        (wanted.map Prod.snd) m =
      some (wanted.map fun w => .record w.1 w.2) :=
  seekRecords_pieces hfile hm h.pieces hwanted hreclen hfuel

theorem seekRecords_recordFile_march :
    seekRecords marchFile (msrParse .littleEnd noVariables true) MsRecord.reclen 1000 0
        ([(marchRecord, (256 : ℤ))].map Prod.snd) (openFile (List.replicate MAXRECLEN 0)) =
      some ([(marchRecord, (256 : ℤ))].map fun w => .record w.1 w.2) :=
  seekRecords_recordFile recordFile_march (by decide)
    ⟨List.length_replicate .., rfl, rfl⟩ (fun w hw => by
      rw [List.mem_singleton] at hw
      rw [hw]
      exact ⟨List.mem_cons_of_mem _ List.mem_cons_self, by decide⟩) le_rfl
    (by rw [length_marchFile]; decide)

/-- A record of two blocks; its second sample is in the second block. -/
def longHead : Fsdh := { marchHead with data_offset := 124 }

def longRecord : List Byte :=
  (fsdhField.codec .bigEnd).put longHead ++ ((uint16.codec .bigEnd).put 1000 ++
    ((uint16.codec .bigEnd).put 0 ++ ([3, 1, 8, 0] ++ (List.replicate 68 0 ++
      ((uint32.codec .bigEnd).putMany [5, -7] ++ List.replicate 124 0)))))

def longBlkt : BlktLink := ⟨48, 1000, 0, [3, 1, 8, 0]⟩

theorem longRecord_drop : longRecord.drop 48 = (uint16.codec .bigEnd).put 1000 ++
    (uint16.codec .bigEnd).put 0 ++ ([3, 1, 8, 0] ++ (List.replicate 68 0 ++
      ((uint32.codec .bigEnd).putMany [5, -7] ++ List.replicate 124 0))) :=
  List.drop_left' (fsdhField.length_put .bigEnd longHead)

theorem length_longRecord : longRecord.length = 256 := by
  simp only [longRecord, List.length_append, fsdhField.length_put, List.length_replicate]
  rfl

/-- The blockette is in the first block. -/
theorem blktAt_long {k : ℕ} (hk : 128 ≤ k) : BlktAt .bigEnd (longRecord.take k) longBlkt where
  pos := by decide
  head := by
    rw [List.drop_take, List.prefix_take_iff]
    exact ⟨longRecord_drop ▸ List.prefix_append _ _, show 4 ≤ k - 48 by omega⟩
  data := by
    have hdrop : longRecord.drop 52 = [3, 1, 8, 0] ++ (List.replicate 68 0 ++
        ((uint32.codec .bigEnd).putMany [5, -7] ++ List.replicate 124 0)) := by
      rw [← List.drop_drop (i := 4) (j := 48), longRecord_drop]
      rfl
    rw [List.drop_take, List.prefix_take_iff]
    exact ⟨hdrop ▸ List.prefix_append _ _, show 4 ≤ k - 52 by omega⟩
  sized := ⟨by decide, by decide⟩
  inside := by
    rw [List.length_take, length_longRecord]
    exact (show 56 ≤ min k 256 by omega)

theorem isRecord_long : IsRecord .littleEnd .bigEnd longHead [longBlkt] 3 1 8 longRecord where
  first := by
    refine ⟨?_, ?_, by decide, ⟨by decide, .inr fun h => absurd h.1 (by decide)⟩,
      .reclen 0 (by decide) (by decide) ?_ (by decide), by decide⟩
    · rw [List.length_take, length_longRecord]
      rfl
    · rw [List.prefix_take_iff, fsdhField.length_put]
      exact ⟨List.prefix_append _ _, by decide⟩
    · rw [List.drop_take, List.prefix_take_iff]
      exact ⟨longRecord_drop ▸ List.prefix_append _ _, by decide⟩
  length := length_longRecord
  short := by
    rw [length_longRecord]
    decide
  chain := by
    have hblkt := blktAt_long (k := 256) (by decide)
    rw [List.take_of_length_le length_longRecord.le] at hblkt
    exact .last hblkt rfl
  coding := ⟨[], [], longBlkt, 0, rfl, rfl, rfl, fun other hother => nomatch hother⟩
  byteorder := .inr rfl

theorem hasSamples_long : HasSamples longHead 3 1 longRecord 'i' [.int 5, .int (-7)] where
  ne_nil := List.cons_ne_nil _ _
  count := rfl
  offset := by
    rw [length_longRecord]
    decide
  stored := by
    have hdrop : longRecord.drop 124 =
        (uint32.codec .bigEnd).putMany [5, -7] ++ List.replicate 124 0 := by
      rw [← List.drop_drop (i := 76) (j := 48), longRecord_drop]
      rfl
    exact hdrop ▸ StoredAs.int32 [5, -7] (List.replicate 124 0)

/-- What a trace group reads of a record; none if its rate is not a number. -/
def MsRecord.toRecord (msr : MsRecord) : Option (Record Sample) :=
  msr.samprate.map fun samprate =>
    { id := msr.id
      starttime := msr.starttime
      leapSecond := msr.fsdh.act_flags &&& 0x10 ≠ 0
      samplecnt := msr.samplecnt
      samprate := samprate
      sampletype := msr.sampletype
      datasamples := msr.datasamples }

/-- `get_mseed_trace` reads the group of a file that is not multiplexed. -/
def fileGroup (host : Endian) (file memory : List Byte) (fuel turns : ℕ) :
    Option (Except MSError (List (MSTrace Sample))) :=
  (readRecords file (msrParse host noVariables true) MsRecord.reclen fuel (-1) turns
    (openFile memory)).bind fun (found, last) =>
      match last with
      | .failed error => some (.error error)
      | _ =>
        ((found.map Prod.fst).mapM MsRecord.toRecord).map fun records => .ok (mseedGroup records)

theorem HasSamples.size_ne
    (h : HasSamples fsdh encoding byteorder record sampletype samples) :
    msSamplesize sampletype ≠ 0 := by
  have hstored := h.stored
  generalize record.drop fsdh.data_offset.toNat = bytes at hstored
  generalize encoding.toInt = format at hstored
  cases hstored <;> decide

/-- The records of a file are decoded, once they have a rate and an end. -/
theorem RecordFile.decoded (h : RecordFile host p file found) {msr : MsRecord}
    (hmsr : msr ∈ found.map Prod.fst) {r : Record Sample} (hr : msr.toRecord = some r)
    (hrate : 0 < r.samprate)
    (hend : msrEndtime r ≠ HPTERROR) : r.Decoded := by
  obtain ⟨samprate, hsamprate, rfl⟩ := Option.map_eq_some_iff.1 hr
  induction h with
  | tail hshort => exact absurd hmsr List.not_mem_nil
  | skip hlength hinvalid _ ih => exact ih hmsr
  | record hrecord hsamples _ ih =>
    rcases List.mem_cons.1 hmsr with rfl | hmsr
    · have hcount := hsamples.count
      have hpos := List.length_pos_of_ne_nil hsamples.ne_nil
      exact ⟨rfl, hcount.symm, by rw [← hcount] at hpos; exact hpos, hrate, hsamples.size_ne, hend⟩
    · exact ih hmsr

theorem mem_of_mapM {α β : Type} {f : α → Option β} {l : List α} {l' : List β}
    (h : l.mapM f = some l') {b : β} (hb : b ∈ l') : ∃ a ∈ l, f a = some b := by
  induction l generalizing l' with
  | nil =>
    obtain rfl : [] = l' := Option.some.inj h
    exact absurd hb List.not_mem_nil
  | cons a l ih =>
    rw [List.mapM_cons] at h
    obtain ⟨c, hc, h⟩ := Option.bind_eq_some_iff.1 h
    obtain ⟨cs, hcs, h⟩ := Option.bind_eq_some_iff.1 h
    obtain rfl : c :: cs = l' := Option.some.inj h
    rcases List.mem_cons.1 hb with rfl | hb
    · exact ⟨a, List.mem_cons_self, hc⟩
    · obtain ⟨a', ha', h'⟩ := ih hcs hb
      exact ⟨a', List.mem_cons_of_mem _ ha', h'⟩

/-- The group that is read from the bytes of a file holds every record once: each segment is made
of records of its channel and holds their samples. -/
theorem fileGroup_partition (h : RecordFile host 0 file found) (hne : found ≠ [])
    (hfile : packSignature file = 0) {records : List (Record Sample)}
    (hrecords : (found.map Prod.fst).mapM MsRecord.toRecord = some records)
    (hrate : ∀ r ∈ records, 0 < r.samprate) (hend : ∀ r ∈ records, msrEndtime r ≠ HPTERROR)
    (htype : ∀ a ∈ records, ∀ b ∈ records, a.id = b.id → a.sampletype = b.sampletype)
    {memory : List Byte} (hmemory : memory.length = MAXRECLEN) {fuel turns : ℕ}
    (hfuel : 2 * file.length + 2 < fuel) (hturns : found.length < turns) :
    ∃ mstg, ∃ parts : List (List (Record Sample)),
      fileGroup host file memory fuel turns = some (.ok mstg) ∧ parts.flatten.Perm records ∧
      List.Forall₂ (fun mst part => IsSegment part mst) mstg parts := by
  have hread : Readable records := by
    refine ⟨fun r hr => ?_, htype⟩
    obtain ⟨msr, hmsr, htorecord⟩ := mem_of_mapM hrecords hr
    exact h.decoded hmsr htorecord (hrate r hr) (hend r hr)
  obtain ⟨parts, hperm, hsegments⟩ := shared_mseedGroup hread
  refine ⟨mseedGroup records, parts, ?_, hperm, hsegments.imp fun _ _ hpart => hpart.1⟩
  rw [fileGroup, readRecords_pieces hfile (buffers_openFile hmemory) h.pieces (by decide) hfuel
    hturns, Option.bind_some]
  have hpos := List.length_pos_of_ne_nil hne
  rw [if_neg (by omega)]
  dsimp only
  rw [hrecords, Option.map_some]

/-- The two samples, at one sample per second. -/
def marchSamples : Record Sample where
  id := marchRecord.id
  starttime := marchRecord.starttime
  leapSecond := false
  samplecnt := 2
  samprate := 1
  sampletype := 'i'
  datasamples := some [.int 5, .int (-7)]

theorem toRecord_march : marchRecord.toRecord = some marchSamples := by
  have hsamprate : marchRecord.samprate = some 1 := by decide +kernel
  rw [MsRecord.toRecord, hsamprate]
  rfl

theorem fileGroup_partition_march :
    ∃ mstg, ∃ parts : List (List (Record Sample)),
      fileGroup .littleEnd marchFile (List.replicate MAXRECLEN 0) 1000 3 = some (.ok mstg) ∧
      parts.flatten.Perm [marchSamples, marchSamples] ∧
      List.Forall₂ (fun mst part => IsSegment part mst) mstg parts := by
  have hrecord (r : Record Sample) (hr : r ∈ [marchSamples, marchSamples]) : r = marchSamples := by
    simpa using hr
  have hend : msrEndtime marchSamples ≠ HPTERROR := by decide +kernel
  refine fileGroup_partition recordFile_march (List.cons_ne_nil _ _) (by decide) ?_
    (fun r hr => ?_) (fun r hr => ?_) (fun a ha b hb _ => ?_) (List.length_replicate ..)
    (by rw [length_marchFile]; decide) (by decide)
  · rw [List.map_cons, List.map_singleton, List.mapM_cons, List.mapM_cons, toRecord_march]
    rfl
  · rw [hrecord r hr]
    exact one_pos
  · rw [hrecord r hr]
    exact hend
  · rw [hrecord a ha, hrecord b hb]

end Files

end Libmseed

end PQL
