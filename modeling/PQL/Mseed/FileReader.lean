import PQL.Lib.While
import PQL.Mseed.RecordFormat

/-!
# Reading a file through a buffer

`ms_readmsr_main` reads a file through a buffer of the greatest length of a record, a block at a
time until a record starts and then until it is whole.  Whatever the parser takes for records, with
blocks between them that it does not and a rest that is shorter than a block, is read in order,
wherever it lies in the buffer (`readRecords_pieces`), and a read that goes to the position of a
record first returns this record (`seekRecords_pieces`).
-/

namespace PQL

namespace Libmseed

/-! ## The parameters of a file -/

/-- `MSFileParam`, with the position and the flag of its `FILE`. -/
structure MSFileParam where
  rawrec : List Byte
  readlen : ℤ
  readoffset : ℤ
  packtype : ℤ
  packhdroffset : ℤ
  filepos : ℤ
  recordcount : ℕ
  position : ℕ
  eof : Bool

/-- `MSFPBUFLEN`. -/
def MSFileParam.buflen (m : MSFileParam) : ℤ := m.readlen - m.readoffset

/-- The memory from `MSFPREADPTR` on. -/
def MSFileParam.readptr (m : MSFileParam) : List Byte := m.rawrec.drop m.readoffset.toNat

/-- `ms_shift_msfp`; none if it moves a negative number of bytes. -/
def msShiftMsfp (m : MSFileParam) (shift : ℤ) : Option MSFileParam :=
  if shift ≤ 0 ∧ m.readlen < shift then some m
  else if shift < 0 ∨ m.readlen < shift then none
  else
    let kept := (m.readlen - shift).toNat
    let m' := { m with
      rawrec := (m.rawrec.drop shift.toNat).take kept ++ m.rawrec.drop kept
      readlen := m.readlen - shift }
    if shift < m.readoffset then some { m' with readoffset := m.readoffset - shift }
    else some { m' with filepos := m.filepos + (shift - m.readoffset), readoffset := 0 }

section Reader

variable (file : List Byte)

/-- `ms_fread` behind what is in the buffer. -/
def msFread (m : MSFileParam) (readsize : ℕ) : MSFileParam :=
  let read := (file.drop m.position).take readsize
  let front := m.readlen.toNat
  { m with
    rawrec := m.rawrec.take front ++ (read ++ m.rawrec.drop (front + read.length))
    readlen := m.readlen + read.length
    position := m.position + read.length
    eof := m.eof || read.length < readsize }

/-- The buffer is filled up. -/
def refill (m : MSFileParam) : Option MSFileParam :=
  let shifted :=
    if m.buflen ≤ 0 then some { m with readlen := 0, readoffset := 0 }
    else if 0 < m.readoffset then msShiftMsfp m m.readoffset
    else some m
  shifted.map fun m =>
    let m := msFread file m (MAXRECLEN - m.readlen).toNat
    { m with filepos := m.position - m.readlen }

/-! ## Packed files -/

/-- `packtypes`. -/
def packtypes : List (ℕ × ℕ × ℕ) :=
  [(0, 0, 0), (8, 8, 8), (11, 8, 8), (11, 8, 8), (11, 8, 8), (11, 8, 8), (13, 8, 8), (15, 8, 8),
    (22, 15, 10)]

def packSignature (mem : List Byte) : ℤ :=
  if mem.take 3 = ascii "PED" then -1
  else if mem.take 3 = ascii "PSD" then -2
  else if mem.take 3 = ascii "PLC" then -6
  else if mem.take 3 = ascii "PQI" then -7
  else if mem.take 3 = ascii "PLS" then -8
  else 0

/-- The test for a packed file at its beginning. -/
def detectPack (m : MSFileParam) : MSFileParam :=
  if m.filepos = 0 ∧ m.readptr.head? = some 80 ∧ 48 ≤ m.buflen then
    { m with packtype := packSignature m.readptr }
  else m

/-- The header of a pack; none if it has no number, or if the buffer ends in it. -/
def readPackHeader (m : MSFileParam) : Option MSFileParam :=
  if m.packtype ≠ 0 ∧ (m.packtype < 0 ∨ m.filepos = m.packhdroffset) ∧ 48 ≤ m.buflen then
    let (hdrlen, sizelen, chksumlen) := packtypes.getD m.packtype.natAbs (0, 0, 0)
    let packskipsize := if m.packtype < 0 then 10 else chksumlen
    let hdrstr := (m.readptr.drop (hdrlen + packskipsize - sizelen)).take sizelen
    (scanInt (hdrstr.takeWhile (· ≠ 0))).bind fun scan =>
      msShiftMsfp { m with
        packtype := m.packtype.natAbs
        packhdroffset := m.filepos + packskipsize + hdrlen + scan.1 }
          (m.readoffset + (packskipsize + hdrlen))
  else some m

/-! ## The loop -/

/-- What `ms_readmsr_main` returns. -/
inductive ReadOutcome (ρ : Type) where
  /-- A record, and where it is in the file. -/
  | record (msr : ρ) (fpos : ℤ)
  | endOfFile
  | failed (error : MSError)

structure Reading (ρ : Type) where
  msfp : MSFileParam
  /-- `parseval > 0`. -/
  wanted : Bool
  reclen : ℤ
  /-- Set by a `break`. -/
  outcome : Option (ReadOutcome ρ)

variable {ρ : Type} (parse : List Byte → ℤ → ℤ → Option (ParseResult ρ)) (length : ρ → ℤ)

/-- Bytes that are passed over. -/
def MSFileParam.advance (m : MSFileParam) (n : ℤ) : MSFileParam :=
  { m with readoffset := m.readoffset + n, filepos := m.filepos + n }

def isRecordLength (n : ℤ) : Bool :=
  MINRECLEN ≤ n ∧ n ≤ MAXRECLEN ∧ n.toNat &&& (n.toNat - 1) = 0

/-- The length of the record is implied by the end of the pack or of the file. -/
def imply (s : Reading ρ) (implied : ℤ) (otherwise : ReadOutcome ρ) : Reading ρ :=
  if isRecordLength implied then { s with reclen := implied }
  else { s with outcome := some otherwise }

/-- What follows from the parsing of the buffer, with `skipnotdata`. -/
def afterParse (s : Reading ρ) (packEnds : Bool) : ParseResult ρ → Reading ρ
  | .parsed msr =>
    { s with
      msfp := { s.msfp.advance (length msr) with recordcount := s.msfp.recordcount + 1 }
      wanted := false
      outcome := some (.record msr s.msfp.filepos) }
  | .failed _ => { s with msfp := s.msfp.advance MINRECLEN, wanted := false }
  | .more bytes =>
    let m := s.msfp
    let s := { s with wanted := true }
    if MAXRECLEN < m.buflen + bytes then { s with msfp := m.advance MINRECLEN }
    else if s.reclen ≤ 0 ∧ packEnds then imply s (m.packhdroffset - m.filepos) (.failed .notSeed)
    else if s.reclen ≤ 0 ∧ m.eof then imply s (file.length - m.filepos) .endOfFile
    else s

/-- The parsing of what is in the buffer; none if it starts before the buffer. -/
def parseBuffer (s : Reading ρ) : Option (Reading ρ) :=
  let m := s.msfp
  if m.buflen < MINRECLEN then some s
  else if m.readoffset < 0 then none
  else
    let packEnds : Bool := m.packhdroffset ≠ 0 ∧ m.packhdroffset < m.filepos + m.buflen
    let parselen := if packEnds then m.packhdroffset - m.filepos else m.buflen
    (parse m.readptr parselen s.reclen).map (afterParse file length s packEnds)

/-- The test for the end of the file. -/
def checkEnd (s : Reading ρ) : Reading ρ :=
  let m := s.msfp
  if s.outcome.isNone ∧ file.length - m.filepos < MINRECLEN ∧ m.buflen < MINRECLEN then
    { s with
      outcome := some (if m.recordcount = 0 ∧ m.packtype = 0 then .failed .notSeed
        else .endOfFile) }
  else s

def readMore (s : Reading ρ) : Option MSFileParam :=
  if !s.msfp.eof ∧ (s.msfp.buflen < MINRECLEN ∨ s.wanted) then refill file s.msfp
  else some s.msfp

/-- One pass of the loop. -/
def readStep (s : Reading ρ) : Option (Reading ρ) :=
  (readMore file s).bind fun m =>
    (readPackHeader (detectPack m)).bind fun m =>
      (parseBuffer file parse length { s with msfp := m }).map (checkEnd file)

/-- A negative position is one to start from. -/
def seekFile (m : MSFileParam) (fpos : ℤ) : MSFileParam :=
  if fpos < 0 then
    { m with
      readlen := 0
      readoffset := 0
      filepos := -fpos
      position := (-fpos).toNat
      eof := false }
  else m

/-- `ms_readmsr_main` for a file that is open. -/
def msReadmsrMain (fuel : ℕ) (m : MSFileParam) (fpos reclen : ℤ) :
    Option (ReadOutcome ρ × MSFileParam) :=
  (whileLoop (fun s => s.outcome.isNone) (readStep file parse length) fuel
    ⟨seekFile m fpos, false, reclen, none⟩).bind fun s =>
      s.outcome.map fun outcome => (outcome, s.msfp)

/-- A file that was opened, with a buffer in memory that was not set. -/
def openFile (memory : List Byte) : MSFileParam := ⟨memory, 0, 0, 0, 0, 0, 0, 0, false⟩

/-- The records of the file and where they are, as one call after the other returns them, and what
the last call returns. -/
def readRecords (fuel : ℕ) (reclen : ℤ) : ℕ → MSFileParam → Option (List (ρ × ℤ) × ReadOutcome ρ)
  | 0, _ => none
  | turns + 1, m =>
    (msReadmsrMain file parse length fuel m 0 reclen).bind fun (outcome, m) =>
      match outcome with
      | .record msr fpos =>
        (readRecords fuel reclen turns m).map fun (found, last) => ((msr, fpos) :: found, last)
      | last => some ([], last)

/-- The reads of `pluckSEEK`, each from the position of a packet. -/
def seekRecords (fuel : ℕ) (reclen : ℤ) : List ℤ → MSFileParam → Option (List (ReadOutcome ρ))
  | [], _ => some []
  | position :: positions, m =>
    (msReadmsrMain file parse length fuel m (-position) reclen).bind fun (outcome, m) =>
      (seekRecords fuel reclen positions m).map fun outcomes => outcome :: outcomes

end Reader

/-! ## The buffer and the file -/

section Buffer

variable {file : List Byte} {m : MSFileParam} {p n : ℕ}

/-- The reader is at `p`, and the next `n` bytes of the file are in the buffer. -/
structure Buffers (file : List Byte) (m : MSFileParam) (p n : ℕ) : Prop where
  filepos : m.filepos = p
  offset : ∃ front : ℕ, m.readoffset = front ∧ m.readlen = front + n ∧ front + n ≤ MAXRECLEN
  memory : m.rawrec.length = MAXRECLEN
  bytes : m.readptr.take n = (file.drop p).take n
  inside : p + n ≤ file.length
  position : m.position = p + n
  eof : m.eof = true → p + n = file.length
  packtype : m.packtype = 0
  packhdroffset : m.packhdroffset = 0

theorem Buffers.buflen (h : Buffers file m p n) : m.buflen = n := by
  obtain ⟨front, hoffset, hlen, -⟩ := h.offset
  rw [MSFileParam.buflen, hoffset, hlen]
  omega

theorem Buffers.le_maxreclen (h : Buffers file m p n) : n ≤ MAXRECLEN := by
  obtain ⟨front, -, -, hmax⟩ := h.offset
  omega

theorem Buffers.advance (h : Buffers file m p n) {k : ℕ} (hk : k ≤ n) :
    Buffers file (m.advance k) (p + k) (n - k) := by
  obtain ⟨front, hoffset, hlen, hmax⟩ := h.offset
  have hinside := h.inside
  have hfilepos := h.filepos
  refine ⟨by rw [MSFileParam.advance, hfilepos]; push_cast; rfl,
    ⟨front + k, by rw [MSFileParam.advance, hoffset]; push_cast; rfl,
      by rw [MSFileParam.advance, hlen]; push_cast; omega, by omega⟩, h.memory, ?_, by omega,
    by rw [MSFileParam.advance, h.position]; omega, fun heof => by have := h.eof heof; omega,
    h.packtype, h.packhdroffset⟩
  have hptr : (m.advance k).readptr = m.readptr.drop k := by
    rw [MSFileParam.readptr, MSFileParam.readptr, MSFileParam.advance, hoffset, List.drop_drop]
    congr 1
  rw [hptr, ← List.drop_take, h.bytes, List.drop_take, List.drop_drop]

/-- The buffer once its bytes are at its beginning. -/
theorem Buffers.front (h : Buffers file m p n) : ∃ m', (if m.buflen ≤ 0 then
      some { m with readlen := 0, readoffset := 0 }
    else if 0 < m.readoffset then msShiftMsfp m m.readoffset else some m) = some m' ∧
      Buffers file m' p n ∧ m'.readoffset = 0 ∧ m'.readlen = n ∧ m'.eof = m.eof ∧
      m'.recordcount = m.recordcount := by
  have hbuflen := h.buflen
  have hn := h.le_maxreclen
  obtain ⟨front, hoffset, hlen, hmax⟩ := h.offset
  rw [hbuflen]
  by_cases hzero : n = 0
  · rw [if_pos (by omega)]
    refine ⟨_, rfl, ?_, rfl, by rw [hzero]; rfl, rfl, rfl⟩
    refine ⟨h.filepos, ⟨0, rfl, by rw [hzero]; rfl, by omega⟩, h.memory, ?_, h.inside, h.position,
      h.eof, h.packtype, h.packhdroffset⟩
    rw [hzero, List.take_zero, List.take_zero]
  · rw [if_neg (by omega)]
    by_cases hfront : front = 0
    · rw [if_neg (by omega)]
      exact ⟨m, rfl, h, by omega, by omega, rfl, rfl⟩
    · rw [if_pos (by omega), msShiftMsfp, if_neg (by omega), if_neg (by omega),
        if_neg (lt_irrefl _)]
      have hkept : (m.readlen - m.readoffset).toNat = n := by omega
      have hread : (m.rawrec.drop m.readoffset.toNat).take n = m.readptr.take n := rfl
      have hlength : (m.readptr.take n).length = n := by
        rw [List.length_take, MSFileParam.readptr, List.length_drop, h.memory]
        omega
      refine ⟨_, rfl, ?_, rfl, by dsimp only; omega, rfl, rfl⟩
      rw [hkept, hread]
      refine ⟨by dsimp only; rw [h.filepos]; omega, ⟨0, rfl, by dsimp only; omega, by omega⟩, ?_,
        ?_, h.inside, h.position, h.eof, h.packtype, h.packhdroffset⟩
      · rw [List.length_append, hlength, List.length_drop, h.memory]
        omega
      · rw [MSFileParam.readptr, Int.toNat_zero, List.drop_zero, List.take_left' hlength, h.bytes]

theorem Buffers.refill (h : Buffers file m p n) : ∃ m', refill file m = some m' ∧
    Buffers file m' p (min MAXRECLEN (file.length - p)) ∧ m'.recordcount = m.recordcount := by
  obtain ⟨m', hshift, hm', hoffset, hlen, -, hcount⟩ := h.front
  have hn := hm'.le_maxreclen
  have hinside := hm'.inside
  generalize hread : (file.drop m'.position).take (MAXRECLEN - m'.readlen).toNat = read
  have hlength : read.length = min MAXRECLEN (file.length - p) - n := by
    rw [← hread, List.length_take, List.length_drop, hm'.position, hlen]
    omega
  have hbytes := hm'.bytes
  rw [MSFileParam.readptr, hoffset, Int.toNat_zero, List.drop_zero] at hbytes
  have hfront : (m'.rawrec.take n).length = n := by
    rw [List.length_take, hm'.memory]
    omega
  have hfull : (file.drop p).take (min MAXRECLEN (file.length - p)) =
      (file.drop p).take n ++ read := by
    rw [← hread, hm'.position, hlen, ← List.drop_drop, ← List.take_add, List.take_eq_take_iff,
      List.length_drop]
    omega
  unfold Libmseed.refill
  rw [hshift, Option.map_some]
  refine ⟨_, rfl, ?_, hcount⟩
  unfold msFread
  dsimp only
  rw [hread, hlen, Int.toNat_natCast]
  refine ⟨by dsimp only; rw [hm'.position]; omega, ⟨0, hoffset, by dsimp only; omega, by omega⟩, ?_,
    ?_, by omega, by dsimp only; rw [hm'.position]; omega, fun hend => ?_, hm'.packtype,
    hm'.packhdroffset⟩
  · dsimp only
    rw [List.length_append, List.length_append, List.length_drop, hfront, hm'.memory]
    omega
  · rw [MSFileParam.readptr, hoffset, Int.toNat_zero, List.drop_zero, hfull, ← hbytes,
      ← List.append_assoc]
    exact List.take_left' (by rw [List.length_append, hfront]; omega)
  · dsimp only at hend
    rw [Bool.or_eq_true, decide_eq_true_eq] at hend
    rcases hend with hend | hend
    · have := hm'.eof hend
      omega
    · omega

end Buffer

/-! ## Records in a file -/

section Pieces

variable {ρ : Type} {parse : List Byte → ℤ → ℤ → Option (ParseResult ρ)} {length : ρ → ℤ}

/-- Bytes that are parsed as a record once they are whole, and as a part of one before. -/
structure ParsesAs (parse : List Byte → ℤ → ℤ → Option (ParseResult ρ)) (length : ρ → ℤ)
    (bytes : List Byte) (msr : ρ) : Prop where
  minreclen_le : MINRECLEN ≤ bytes.length
  le_maxreclen : bytes.length ≤ MAXRECLEN
  length : length msr = bytes.length
  whole : ∀ (rest : List Byte) {recbuflen reclen : ℤ}, (bytes.length : ℤ) ≤ recbuflen →
    reclen ≤ 0 → parse (bytes ++ rest) recbuflen reclen = some (.parsed msr)
  part : ∀ {mem : List Byte} {recbuflen reclen : ℤ},
    mem.take MINRECLEN = bytes.take MINRECLEN → (MINRECLEN : ℤ) ≤ recbuflen →
    recbuflen < bytes.length → reclen ≤ 0 →
    parse mem recbuflen reclen = some (.more (bytes.length - recbuflen))

/-- A block that no record starts with. -/
def Unreadable (parse : List Byte → ℤ → ℤ → Option (ParseResult ρ)) (block : List Byte) : Prop :=
  block.length = MINRECLEN ∧ ∀ (rest : List Byte) {recbuflen reclen : ℤ},
    (MINRECLEN : ℤ) ≤ recbuflen → reclen ≤ 0 →
    ∃ e, parse (block ++ rest) recbuflen reclen = some (.failed e)

/-- The bytes from the position `p` on are records, found where they start, with unreadable blocks
before and between them and less than a block behind them. -/
inductive Pieces (parse : List Byte → ℤ → ℤ → Option (ParseResult ρ)) (length : ρ → ℤ) :
    ℕ → List Byte → List (ρ × ℤ) → Prop
  | tail {p : ℕ} {bytes : List Byte} (hshort : bytes.length < MINRECLEN) :
    Pieces parse length p bytes []
  | skip {p : ℕ} {block rest : List Byte} {found : List (ρ × ℤ)} (hblock : Unreadable parse block)
    (hrest : Pieces parse length (p + MINRECLEN) rest found) :
    Pieces parse length p (block ++ rest) found
  | record {p : ℕ} {bytes rest : List Byte} {msr : ρ} {found : List (ρ × ℤ)}
    (hbytes : ParsesAs parse length bytes msr)
    (hrest : Pieces parse length (p + bytes.length) rest found) :
    Pieces parse length p (bytes ++ rest) ((msr, p) :: found)

variable {file : List Byte} {m : MSFileParam} {p n : ℕ} {s : Reading ρ} {found : List (ρ × ℤ)}

theorem Buffers.readMore (h : Buffers file s.msfp p n) : ∃ m' n', readMore file s = some m' ∧
    Buffers file m' p n' ∧ m'.recordcount = s.msfp.recordcount ∧
    (n' < MINRECLEN ∨ s.wanted = true → n' = min MAXRECLEN (file.length - p)) := by
  have hbuflen := h.buflen
  have hn := h.le_maxreclen
  unfold Libmseed.readMore
  split_ifs with hmore
  · obtain ⟨m', hrefill, hm', hcount⟩ := h.refill
    exact ⟨m', _, hrefill, hm', hcount, fun _ => rfl⟩
  · refine ⟨s.msfp, n, rfl, h, rfl, fun hwants => ?_⟩
    have heof : s.msfp.eof = true := by
      by_contra heof
      refine hmore ⟨by rw [Bool.eq_false_of_not_eq_true heof]; rfl, hwants.imp (fun hlt => ?_) id⟩
      rw [hbuflen]
      exact_mod_cast hlt
    have hend := h.eof heof
    omega

theorem packSignature_congr {mem mem' : List Byte} (h : mem.take 3 = mem'.take 3) :
    packSignature mem = packSignature mem' := by
  unfold packSignature
  rw [h]

/-- A file without the signature of a pack is not taken for one. -/
theorem Buffers.readPack (h : Buffers file m p n) (hfile : packSignature file = 0) :
    readPackHeader (detectPack m) = some m := by
  have hdetect : detectPack m = m := by
    unfold detectPack
    split_ifs with hpack
    · obtain ⟨hzero, -, hlen⟩ := hpack
      rw [h.filepos] at hzero
      rw [h.buflen] at hlen
      have hbytes := congrArg (List.take 3) h.bytes
      rw [List.take_take, List.take_take, min_eq_left (by omega), show p = 0 by omega,
        List.drop_zero] at hbytes
      rw [packSignature_congr hbytes, hfile, ← h.packtype]
    · rfl
  rw [hdetect]
  exact if_neg fun hpack => hpack.1 h.packtype

theorem Pieces.length_of_cons {bytes : List Byte} {first : ρ × ℤ}
    (h : Pieces parse length p bytes (first :: found)) : MINRECLEN ≤ bytes.length := by
  cases h with
  | skip hblock hrest => rw [List.length_append, hblock.1]; exact Nat.le_add_right _ _
  | record hbytes hrest =>
    rw [List.length_append]
    exact hbytes.minreclen_le.trans (Nat.le_add_right _ _)

/-- What a call returns when the records from its start on are known. -/
def Returned (parse : List Byte → ℤ → ℤ → Option (ParseResult ρ)) (length : ρ → ℤ)
    (file : List Byte) (count : ℕ) : List (ρ × ℤ) → ReadOutcome ρ → MSFileParam → Prop
  | [], outcome, _ => outcome = if count = 0 then .failed .notSeed else .endOfFile
  | (msr, fpos) :: found, outcome, m => ∃ p n, Buffers file m p n ∧
      outcome = .record msr fpos ∧ m.recordcount = count + 1 ∧
      Pieces parse length p (file.drop p) found

/-- The reader is at `p` with `n` bytes in the buffer and looks for the next record. -/
structure Looking (file : List Byte) (count : ℕ) (s : Reading ρ) (p n : ℕ) : Prop where
  buffers : Buffers file s.msfp p n
  reclen_nonpos : s.reclen ≤ 0
  outcome : s.outcome = none
  count : s.msfp.recordcount = count

/-- The records from the start of the call on are still to come, or the call returns. -/
def ReadInv (parse : List Byte → ℤ → ℤ → Option (ParseResult ρ)) (length : ρ → ℤ)
    (file : List Byte) (count : ℕ) (found : List (ρ × ℤ)) (s : Reading ρ) : Prop :=
  (∃ p n, Looking file count s p n ∧ Pieces parse length p (file.drop p) found) ∨
    ∃ outcome, s.outcome = some outcome ∧ Returned parse length file count found outcome s.msfp

/-- A pass brings the reader forward, unless it finds that a record is not whole yet. -/
def readMeasure (file : List Byte) (s : Reading ρ) : ℕ :=
  if s.outcome.isSome then 0
  else 1 + 2 * (file.length - s.msfp.filepos.toNat) + if s.wanted then 0 else 1

variable {count : ℕ}

theorem checkEnd_inv (h : ReadInv parse length file count found s) :
    ReadInv parse length file count found (checkEnd file s) := by
  unfold checkEnd
  dsimp only
  by_cases hend : s.outcome.isNone = true ∧ (file.length : ℤ) - s.msfp.filepos < MINRECLEN ∧
      s.msfp.buflen < MINRECLEN
  · rw [if_pos hend]
    obtain ⟨hnone, hshort, -⟩ := hend
    obtain ⟨p, n, hs, hpieces⟩ | ⟨outcome, hsome, -⟩ := h
    · refine .inr ⟨_, rfl, ?_⟩
      rw [hs.count, hs.buffers.packtype]
      cases found with
      | nil => exact if_congr (and_iff_left rfl) rfl rfl
      | cons first found =>
        have hlength := hpieces.length_of_cons
        have hinside := hs.buffers.inside
        rw [List.length_drop] at hlength
        rw [hs.buffers.filepos] at hshort
        omega
    · rw [hsome] at hnone
      exact absurd hnone Bool.false_ne_true
  · rw [if_neg hend]
    exact h

theorem readMeasure_checkEnd_le (s : Reading ρ) :
    readMeasure file (checkEnd file s) ≤ readMeasure file s := by
  unfold checkEnd
  dsimp only
  by_cases hend : s.outcome.isNone = true ∧ (file.length : ℤ) - s.msfp.filepos < MINRECLEN ∧
      s.msfp.buflen < MINRECLEN
  · rw [if_pos hend]
    exact Nat.zero_le _
  · rw [if_neg hend]

/-- What the parser sees starts with the piece that is next, as far as it is in the buffer. -/
theorem Buffers.readptr_eq (h : Buffers file m p n) {bytes rest : List Byte}
    (hfile : file.drop p = bytes ++ rest) (hlen : bytes.length ≤ n) :
    m.readptr = bytes ++ m.readptr.drop bytes.length := by
  have hbytes := congrArg (List.take bytes.length) h.bytes
  rw [List.take_take, List.take_take, min_eq_left hlen, hfile, List.take_left] at hbytes
  conv_lhs => rw [← List.take_append_drop bytes.length m.readptr, hbytes]

theorem drop_of_append {bytes rest : List Byte} (hfile : file.drop p = bytes ++ rest) :
    file.drop (p + bytes.length) = rest := by
  rw [← List.drop_drop, hfile, List.drop_left]

theorem Looking.lt_readMeasure (h : Looking file count s p n) :
    2 * (file.length - p) < readMeasure file s := by
  unfold readMeasure
  rw [h.outcome, h.buffers.filepos, Int.toNat_natCast, Option.isSome_none,
    if_neg Bool.false_ne_true]
  omega

/-- The reader has moved over `k` bytes. -/
theorem Looking.moved (h : Looking file count s p n) {s' : Reading ρ} {k : ℕ} (hk : k ≤ n)
    (hpos : 0 < k) (hs' : s'.msfp.filepos = (p + k : ℕ)) :
    readMeasure file s' < readMeasure file s := by
  have hinside := h.buffers.inside
  have hbefore := h.lt_readMeasure
  have hafter : readMeasure file s' ≤ 2 + 2 * (file.length - (p + k)) := by
    unfold readMeasure
    rw [hs', Int.toNat_natCast]
    split_ifs <;> omega
  omega

theorem Buffers.parseBuffer_eq (h : Buffers file s.msfp p n)
    (hn : MINRECLEN ≤ n) :
    parseBuffer file parse length s =
      (parse s.msfp.readptr n s.reclen).map (afterParse file length s false) := by
  have hbuflen := h.buflen
  have hpack : decide (s.msfp.packhdroffset ≠ 0 ∧
      s.msfp.packhdroffset < s.msfp.filepos + s.msfp.buflen) = false :=
    decide_eq_false fun hpack => hpack.1 h.packhdroffset
  obtain ⟨front, hoffset, -, -⟩ := h.offset
  unfold parseBuffer
  dsimp only
  rw [if_neg (by omega), if_neg (by omega), hpack, hbuflen, if_neg Bool.false_ne_true]

/-- A block that no record starts with is passed over. -/
theorem Looking.skip (h : Looking file count s p n) (hn : MINRECLEN ≤ n) {block rest : List Byte}
    (hfile : file.drop p = block ++ rest) (hblock : Unreadable parse block)
    (hrest : Pieces parse length (p + MINRECLEN) rest found) :
    ∃ s', parseBuffer file parse length s = some s' ∧
      ReadInv parse length file count found s' ∧ readMeasure file s' < readMeasure file s := by
  have hmem := h.buffers.readptr_eq hfile (by rw [hblock.1]; exact hn)
  obtain ⟨e, he⟩ := hblock.2 (s.msfp.readptr.drop block.length)
    (show (MINRECLEN : ℤ) ≤ n by omega) h.reclen_nonpos
  have hadvance := h.buffers.advance hn
  rw [Buffers.parseBuffer_eq h.buffers hn, hmem, he]
  refine ⟨_, rfl, .inl ⟨p + MINRECLEN, n - MINRECLEN,
    ⟨hadvance, h.reclen_nonpos, h.outcome, h.count⟩, ?_⟩, h.moved hn (by decide) hadvance.filepos⟩
  rw [← hblock.1, drop_of_append hfile, hblock.1]
  exact hrest

/-- A record that is whole is returned. -/
theorem Looking.whole (h : Looking file count s p n) {bytes rest : List Byte} {msr : ρ}
    (hfile : file.drop p = bytes ++ rest) (hbytes : ParsesAs parse length bytes msr)
    (hrest : Pieces parse length (p + bytes.length) rest found) (hwhole : bytes.length ≤ n) :
    ∃ s', parseBuffer file parse length s = some s' ∧
      ReadInv parse length file count ((msr, (p : ℤ)) :: found) s' ∧
      readMeasure file s' < readMeasure file s := by
  have hmin := hbytes.minreclen_le
  have hpos : 0 < MINRECLEN := by decide
  have hadvance := h.buffers.advance hwhole
  rw [Buffers.parseBuffer_eq h.buffers (hmin.trans hwhole), h.buffers.readptr_eq hfile hwhole,
    hbytes.whole _ (by omega) h.reclen_nonpos, Option.map_some, afterParse, hbytes.length,
    h.buffers.filepos]
  refine ⟨_, rfl, .inr ⟨_, rfl, p + bytes.length, n - bytes.length, ?_, rfl,
    congrArg (· + 1) h.count, ?_⟩, h.moved hwhole (by omega) hadvance.filepos⟩
  · exact ⟨hadvance.filepos, hadvance.offset, hadvance.memory, hadvance.bytes, hadvance.inside,
      hadvance.position, hadvance.eof, hadvance.packtype, hadvance.packhdroffset⟩
  · rw [drop_of_append hfile]
    exact hrest

/-- A record that is not whole yet is waited for; the next pass fills the buffer. -/
theorem Looking.part (h : Looking file count s p n) (hn : MINRECLEN ≤ n) {bytes rest : List Byte}
    {msr : ρ} (hfile : file.drop p = bytes ++ rest) (hbytes : ParsesAs parse length bytes msr)
    (hrest : Pieces parse length (p + bytes.length) rest found) (hpart : n < bytes.length)
    (hfilled : s.wanted = true → n = min MAXRECLEN (file.length - p)) :
    ∃ s', parseBuffer file parse length s = some s' ∧
      ReadInv parse length file count ((msr, (p : ℤ)) :: found) s' ∧
      readMeasure file s' < readMeasure file s := by
  have hmin := hbytes.minreclen_le
  have hmax := hbytes.le_maxreclen
  have hbuflen := h.buffers.buflen
  have hlength := congrArg List.length hfile
  rw [List.length_drop, List.length_append] at hlength
  have hmem : s.msfp.readptr.take MINRECLEN = bytes.take MINRECLEN := by
    have htake := congrArg (List.take MINRECLEN) h.buffers.bytes
    rwa [List.take_take, List.take_take, min_eq_left hn, hfile,
      List.take_append_of_le_length hmin] at htake
  have hwanted : s.wanted = false := by
    by_contra hwanted
    have hfull := hfilled (Bool.eq_true_of_not_eq_false hwanted)
    omega
  have heof : s.msfp.eof = false := by
    by_contra heof
    have hend := h.buffers.eof (Bool.eq_true_of_not_eq_false heof)
    omega
  rw [Buffers.parseBuffer_eq h.buffers hn, hbytes.part hmem (by omega) (by omega) h.reclen_nonpos,
    Option.map_some, afterParse]
  dsimp only
  rw [hbuflen, if_neg (by omega), if_neg fun hends => Bool.false_ne_true hends.2,
    if_neg fun hends => Bool.false_ne_true (heof.symm.trans hends.2)]
  refine ⟨_, rfl, .inl ⟨p, n, ⟨h.buffers, h.reclen_nonpos, h.outcome, h.count⟩, ?_⟩, ?_⟩
  · rw [hfile]
    exact .record hbytes hrest
  · unfold readMeasure
    dsimp only
    rw [h.outcome, hwanted]
    exact Nat.lt_succ_self _

/-- With less than a block in the buffer the file ends. -/
theorem Looking.ends (h : Looking file count s p n) (hshort : n < MINRECLEN)
    (hfull : n = min MAXRECLEN (file.length - p)) :
    parseBuffer file parse length s = some s ∧
      readMeasure file (checkEnd file s) < readMeasure file s := by
  have hbuflen := h.buffers.buflen
  have hfilepos := h.buffers.filepos
  have hbefore := h.lt_readMeasure
  have hblock : MINRECLEN ≤ MAXRECLEN := by decide
  refine ⟨if_pos (by omega), ?_⟩
  unfold checkEnd
  dsimp only
  rw [if_pos ⟨by rw [h.outcome]; rfl, by omega, by omega⟩]
  exact (Nat.zero_le _).trans_lt hbefore

theorem parseBuffer_spec (h : Looking file count s p n)
    (hpieces : Pieces parse length p (file.drop p) found)
    (hfilled : n < MINRECLEN ∨ s.wanted = true → n = min MAXRECLEN (file.length - p)) :
    ∃ s', parseBuffer file parse length s = some s' ∧
      ReadInv parse length file count found s' ∧
      readMeasure file (checkEnd file s') < readMeasure file s := by
  by_cases hshort : n < MINRECLEN
  · obtain ⟨hparse, hlt⟩ := h.ends hshort (hfilled (.inl hshort))
    exact ⟨s, hparse, .inl ⟨p, n, h, hpieces⟩, hlt⟩
  · have hinside := h.buffers.inside
    rw [not_lt] at hshort
    have hstep : ∃ s', parseBuffer file parse length s = some s' ∧
        ReadInv parse length file count found s' ∧ readMeasure file s' < readMeasure file s := by
      generalize hfile : file.drop p = bytes at hpieces
      have hlength := congrArg List.length hfile
      rw [List.length_drop] at hlength
      cases hpieces with
      | tail htail => omega
      | skip hblock hrest => exact h.skip hshort hfile hblock hrest
      | @record _ bytes rest msr found hbytes hrest =>
        by_cases hwhole : bytes.length ≤ n
        · exact h.whole hfile hbytes hrest hwhole
        · exact h.part hshort hfile hbytes hrest (not_le.1 hwhole) fun hwanted =>
            hfilled (.inr hwanted)
    obtain ⟨s', hparse, hinv, hlt⟩ := hstep
    exact ⟨s', hparse, hinv, (readMeasure_checkEnd_le s').trans_lt hlt⟩

theorem readStep_spec (hfile : packSignature file = 0)
    (hs : ReadInv parse length file count found s) (hnone : s.outcome = none) :
    ∃ s', readStep file parse length s = some s' ∧ ReadInv parse length file count found s' ∧
      readMeasure file s' < readMeasure file s := by
  obtain ⟨p, n, hs, hpieces⟩ | ⟨outcome, hsome, -⟩ := hs
  · obtain ⟨m, n', hmore, hm, hcount, hfilled⟩ := hs.buffers.readMore
    have hlooking : Looking file count { s with msfp := m } p n' :=
      ⟨hm, hs.reclen_nonpos, hs.outcome, hcount.trans hs.count⟩
    obtain ⟨s', hparse, hinv, hlt⟩ := parseBuffer_spec hlooking hpieces hfilled
    refine ⟨checkEnd file s', ?_, checkEnd_inv hinv, hlt.trans_eq ?_⟩
    · rw [readStep, hmore, Option.bind_some, hm.readPack hfile, Option.bind_some, hparse,
        Option.map_some]
    · unfold readMeasure
      dsimp only
      rw [hm.filepos, hs.buffers.filepos]
  · exact absurd (hnone.symm.trans hsome) nofun

/-- What a reader keeps from one call to the next: it has not met a pack. -/
structure Unpacked (m : MSFileParam) : Prop where
  memory : m.rawrec.length = MAXRECLEN
  packtype : m.packtype = 0
  packhdroffset : m.packhdroffset = 0

theorem Buffers.unpacked (h : Buffers file m p n) : Unpacked m :=
  ⟨h.memory, h.packtype, h.packhdroffset⟩

theorem Unpacked.seekFile (h : Unpacked m) (hpos : 0 < p) (hp : p ≤ file.length) :
    Buffers file (seekFile m (-p)) p 0 := by
  rw [Libmseed.seekFile, if_pos (by omega)]
  refine ⟨neg_neg _, ⟨0, rfl, rfl, Nat.zero_le _⟩, h.memory, rfl, hp, ?_,
    (fun heof => nomatch heof), h.packtype, h.packhdroffset⟩
  dsimp only
  omega

theorem seekFile_zero (m : MSFileParam) : seekFile m 0 = m := if_neg (lt_irrefl 0)

/-- A call returns the next record and where it is, or the end of the file when there is none. -/
theorem msReadmsrMain_pieces (hfile : packSignature file = 0) {fpos : ℤ}
    (hm : Buffers file (seekFile m fpos) p n) (hpieces : Pieces parse length p (file.drop p) found)
    {reclen : ℤ} (hreclen : reclen ≤ 0) {fuel : ℕ} (hfuel : 2 * file.length + 2 < fuel) :
    ∃ outcome m', msReadmsrMain file parse length fuel m fpos reclen = some (outcome, m') ∧
      Returned parse length file (seekFile m fpos).recordcount found outcome m' := by
  have hmeasure (s : Reading ρ) : readMeasure file s < fuel := by
    unfold readMeasure
    split_ifs <;> omega
  obtain ⟨s', hrun, hs', hend⟩ : ∃ s', whileLoop (fun s : Reading ρ => s.outcome.isNone)
      (readStep file parse length) fuel ⟨seekFile m fpos, false, reclen, none⟩ = some s' ∧
      ReadInv parse length file (seekFile m fpos).recordcount found s' ∧
      s'.outcome.isNone = false :=
    whileLoop_spec (readMeasure file)
      (fun s hs hnone => readStep_spec hfile hs (Option.isNone_iff_eq_none.1 hnone))
      (.inl ⟨p, n, ⟨hm, hreclen, rfl, rfl⟩, hpieces⟩) (hmeasure _)
  obtain ⟨p', n', hlooking, -⟩ | ⟨outcome, hsome, hreturned⟩ := hs'
  · rw [hlooking.outcome] at hend
    exact absurd hend Bool.true_eq_false_eq_False
  refine ⟨outcome, s'.msfp, ?_, hreturned⟩
  rw [msReadmsrMain, hrun, Option.bind_some, hsome, Option.map_some]

theorem readRecords_pieces (hfile : packSignature file = 0) (hm : Buffers file m p n)
    (hpieces : Pieces parse length p (file.drop p) found) {reclen : ℤ} (hreclen : reclen ≤ 0)
    {fuel turns : ℕ} (hfuel : 2 * file.length + 2 < fuel) (hturns : found.length < turns) :
    readRecords file parse length fuel reclen turns m =
      some (found, if m.recordcount + found.length = 0 then .failed .notSeed else .endOfFile) := by
  induction found generalizing m p n turns with
  | nil =>
    obtain ⟨turns, rfl⟩ := Nat.exists_eq_add_of_lt hturns
    obtain ⟨outcome, m', hread, hreturned⟩ :=
      msReadmsrMain_pieces hfile ((seekFile_zero m).symm ▸ hm) hpieces hreclen hfuel
    rw [seekFile_zero] at hreturned
    unfold Returned at hreturned
    rw [readRecords, hread, Option.bind_some, hreturned, List.length_nil, add_zero]
    by_cases hzero : m.recordcount = 0
    · rw [if_pos hzero]
    · rw [if_neg hzero]
  | cons first found ih =>
    obtain ⟨msr, fpos⟩ := first
    obtain ⟨turns, rfl⟩ := Nat.exists_eq_add_of_lt (Nat.zero_lt_of_lt hturns)
    obtain ⟨outcome, m', hread, p', n', hm', rfl, hcount, hrest⟩ :=
      msReadmsrMain_pieces hfile ((seekFile_zero m).symm ▸ hm) hpieces hreclen hfuel
    rw [seekFile_zero] at hcount
    rw [readRecords, hread, Option.bind_some]
    dsimp only
    rw [ih hm' hrest (by rw [List.length_cons] at hturns; omega), hcount, Option.map_some,
      if_neg (by omega), if_neg (by rw [List.length_cons]; omega)]

/-- A record that is found starts a file of its own. -/
theorem Pieces.at_found {bytes : List Byte} (h : Pieces parse length p bytes found) {first : ρ × ℤ}
    (hfirst : first ∈ found) : ∃ k found', first.2 = (p + k : ℕ) ∧ k ≤ bytes.length ∧
      Pieces parse length (p + k) (bytes.drop k) (first :: found') := by
  induction h with
  | tail hshort => exact absurd hfirst List.not_mem_nil
  | @skip p block rest found hblock hrest ih =>
    obtain ⟨k, found', hk, hle, hpieces⟩ := ih hfirst
    refine ⟨MINRECLEN + k, found', by rw [hk, add_assoc], ?_, ?_⟩
    · rw [List.length_append, hblock.1]
      omega
    · rw [← List.drop_drop, ← hblock.1, List.drop_left, hblock.1, ← add_assoc]
      exact hpieces
  | @record p bytes rest msr found hbytes hrest ih =>
    rcases List.mem_cons.1 hfirst with rfl | hfirst
    · exact ⟨0, found, rfl, Nat.zero_le _, .record hbytes hrest⟩
    · obtain ⟨k, found', hk, hle, hpieces⟩ := ih hfirst
      refine ⟨bytes.length + k, found', by rw [hk, add_assoc], ?_, ?_⟩
      · rw [List.length_append]
        omega
      · rw [← List.drop_drop, List.drop_left, ← add_assoc]
        exact hpieces

/-- A read from the position of a record returns this record, whatever was read before. -/
theorem msReadmsrMain_seek (hfile : packSignature file = 0) (hm : Unpacked m)
    (hpieces : Pieces parse length 0 file found) {msr : ρ} {position : ℤ}
    (hfound : (msr, position) ∈ found) (hne : position ≠ 0) {reclen : ℤ} (hreclen : reclen ≤ 0)
    {fuel : ℕ} (hfuel : 2 * file.length + 2 < fuel) :
    ∃ m', msReadmsrMain file parse length fuel m (-position) reclen =
      some (.record msr position, m') ∧ Unpacked m' := by
  obtain ⟨k, found', hk, hle, hrest⟩ := hpieces.at_found hfound
  rw [zero_add] at hk hrest
  obtain rfl : position = k := hk
  obtain ⟨outcome, m', hread, p', n', hm', rfl, -⟩ :=
    msReadmsrMain_pieces hfile (hm.seekFile (by omega) hle) hrest hreclen hfuel
  exact ⟨m', hread, hm'.unpacked⟩

theorem seekRecords_pieces (hfile : packSignature file = 0) (hm : Unpacked m)
    (hpieces : Pieces parse length 0 file found) {wanted : List (ρ × ℤ)}
    (hwanted : ∀ w ∈ wanted, w ∈ found ∧ w.2 ≠ 0) {reclen : ℤ} (hreclen : reclen ≤ 0) {fuel : ℕ}
    (hfuel : 2 * file.length + 2 < fuel) :
    seekRecords file parse length fuel reclen (wanted.map Prod.snd) m =
      some (wanted.map fun w => .record w.1 w.2) := by
  induction wanted generalizing m with
  | nil => rfl
  | cons w wanted ih =>
    obtain ⟨hfound, hne⟩ := hwanted w List.mem_cons_self
    obtain ⟨m', hread, hm'⟩ := msReadmsrMain_seek hfile hm hpieces hfound hne hreclen hfuel
    rw [List.map_cons, seekRecords, hread, Option.bind_some]
    dsimp only
    rw [ih hm' fun w hw => hwanted w (List.mem_cons_of_mem _ hw)]
    rfl

end Pieces

/-! ## Files that end within a record -/

section Cut

variable {ρ : Type} {parse : List Byte → ℤ → ℤ → Option (ParseResult ρ)} {length : ρ → ℤ}
  {file memory : List Byte}

/-- A short file in the buffer, in front of what the memory held. -/
def filledReader (file memory : List Byte) : MSFileParam :=
  { openFile (file ++ memory.drop file.length) with
    readlen := file.length
    position := file.length
    eof := true }

theorem refill_openFile (hfile : file.length < MAXRECLEN) :
    refill file (openFile memory) = some (filledReader file memory) := by
  have hread : (file.drop 0).take MAXRECLEN = file := List.take_of_length_le hfile.le
  unfold refill
  rw [if_pos (show (openFile memory).buflen ≤ 0 from le_rfl), Option.map_some]
  unfold msFread openFile
  dsimp only
  rw [sub_zero, Int.toNat_natCast, hread]
  simp [filledReader, openFile, hfile]

theorem buffers_filledReader (hfile : file.length < MAXRECLEN)
    (hmemory : memory.length = MAXRECLEN) :
    Buffers file (filledReader file memory) 0 file.length where
  filepos := rfl
  offset := ⟨0, rfl, (zero_add _).symm, by omega⟩
  memory := by
    unfold filledReader openFile
    dsimp only
    rw [List.length_append, List.length_drop]
    omega
  bytes := by
    change ((file ++ memory.drop file.length).drop 0).take file.length = _
    rw [List.drop_zero, List.take_left, List.drop_zero, List.take_length]
  inside := (zero_add _).le
  position := (zero_add _).symm
  eof _ := zero_add _
  packtype := rfl
  packhdroffset := rfl

theorem checkEnd_of_le {s : Reading ρ} (h : MINRECLEN ≤ (file.length : ℤ) - s.msfp.filepos) :
    checkEnd file s = s := if_neg fun hend => absurd hend.2.1 (not_lt.2 h)

/-- The reader behind a record that reaches over the end of the file. -/
def pastReader (file memory : List Byte) (reclen : ℤ) : MSFileParam :=
  { (filledReader file memory).advance reclen with recordcount := 1 }

section Steps

variable {bytes : ℤ} {msr : ρ} {reclen : ℤ}

/-- The end of the file implies the length of a record that is not whole. -/
theorem readStep_cut (hfile : packSignature file = 0) (hmin : MINRECLEN ≤ file.length)
    (hmax : (file.length : ℤ) + bytes ≤ MAXRECLEN) (hpos : 0 < bytes)
    (hmemory : memory.length = MAXRECLEN) (hreclen : reclen ≤ 0)
    (hparse : parse (file ++ memory.drop file.length) file.length reclen = some (.more bytes)) :
    readStep file parse length ⟨openFile memory, false, reclen, none⟩ =
      some (imply ⟨filledReader file memory, true, reclen, none⟩ file.length .endOfFile) := by
  have hshort : file.length < MAXRECLEN := by omega
  have hbuffers := buffers_filledReader hshort hmemory
  have hmore : readMore file (⟨openFile memory, false, reclen, none⟩ : Reading ρ) =
      some (filledReader file memory) := by
    rw [readMore, if_pos ⟨rfl, .inl (show (0 : ℤ) < MINRECLEN by decide)⟩, refill_openFile hshort]
  rw [readStep, hmore, Option.bind_some, hbuffers.readPack hfile, Option.bind_some,
    Buffers.parseBuffer_eq hbuffers hmin]
  change ((parse (file ++ memory.drop file.length) file.length reclen).map _).map _ = _
  rw [hparse, Option.map_some, Option.map_some, afterParse]
  dsimp only
  rw [hbuffers.buflen, if_neg (by omega), if_neg fun hends => Bool.false_ne_true hends.2,
    if_pos ⟨hreclen, rfl⟩, hbuffers.filepos, Nat.cast_zero, sub_zero, checkEnd_of_le]
  unfold imply
  split_ifs
  all_goals
    change (MINRECLEN : ℤ) ≤ (file.length : ℤ) - 0
    omega

/-- With this length it is parsed, whatever is in memory behind it. -/
theorem readStep_implied (hfile : packSignature file = 0) (hmin : MINRECLEN ≤ file.length)
    (hmax : file.length < MAXRECLEN) (hmemory : memory.length = MAXRECLEN)
    (hparse : parse (file ++ memory.drop file.length) file.length file.length =
      some (.parsed msr)) :
    readStep file parse length ⟨filledReader file memory, true, file.length, none⟩ =
      some ⟨pastReader file memory (length msr), false, file.length, some (.record msr 0)⟩ := by
  have hbuffers := buffers_filledReader hmax hmemory
  have hmore : readMore file (⟨filledReader file memory, true, file.length, none⟩ : Reading ρ) =
      some (filledReader file memory) := if_neg fun hmore => Bool.false_ne_true hmore.1
  rw [readStep, hmore, Option.bind_some, hbuffers.readPack hfile, Option.bind_some,
    Buffers.parseBuffer_eq hbuffers hmin]
  change ((parse (file ++ memory.drop file.length) file.length file.length).map _).map _ = _
  rw [hparse]
  rfl

/-- Behind the end of the file no record is looked for. -/
theorem readStep_past {past : ℤ} (hpast : file.length ≤ past) (hpos : 0 < past) :
    readStep file parse length ⟨pastReader file memory past, false, reclen, none⟩ =
      some ⟨pastReader file memory past, false, reclen, some .endOfFile⟩ := by
  have hblock : 0 < MINRECLEN := by decide
  have hbuflen : (pastReader file memory past).buflen = file.length - past := by
    change (file.length : ℤ) - (0 + past) = _
    omega
  have hfilepos : (pastReader file memory past).filepos = past := zero_add _
  have hmore : readMore file (⟨pastReader file memory past, false, reclen, none⟩ : Reading ρ) =
      some (pastReader file memory past) := if_neg fun hmore => Bool.false_ne_true hmore.1
  have hdetect : detectPack (pastReader file memory past) = pastReader file memory past :=
    if_neg fun hpack => absurd (hfilepos.symm.trans hpack.1) hpos.ne'
  have hheader : readPackHeader (pastReader file memory past) =
      some (pastReader file memory past) := if_neg fun hpack => hpack.1 rfl
  rw [readStep, hmore, Option.bind_some, hdetect, hheader, Option.bind_some, parseBuffer,
    if_pos (by rw [hbuflen]; omega), Option.map_some, checkEnd]
  dsimp only
  rw [if_pos ⟨rfl, by rw [hfilepos]; omega, by rw [hbuflen]; omega⟩]
  rfl

end Steps

/-- A call whose steps are known. -/
theorem msReadmsrMain_of_run {m : MSFileParam} {reclen : ℤ} {fuel : ℕ} {s : Reading ρ}
    {outcome : ReadOutcome ρ}
    (hrun : whileLoop (fun s : Reading ρ => s.outcome.isNone) (readStep file parse length) fuel
      ⟨m, false, reclen, none⟩ = some s) (hsome : s.outcome = some outcome) :
    msReadmsrMain file parse length fuel m 0 reclen = some (outcome, s.msfp) := by
  rw [msReadmsrMain, seekFile_zero, hrun, Option.bind_some, hsome, Option.map_some]

/-- The records of a file that the parser takes for a part of one. -/
theorem readRecords_of_part {bytes : ℤ} {msr : ρ} {reclen : ℤ} (hfile : packSignature file = 0)
    (hmin : MINRECLEN ≤ file.length) (hmax : (file.length : ℤ) + bytes ≤ MAXRECLEN)
    (hpos : 0 < bytes) (hmemory : memory.length = MAXRECLEN) (hreclen : reclen ≤ 0)
    (hpart : parse (file ++ memory.drop file.length) file.length reclen = some (.more bytes))
    (hwhole : parse (file ++ memory.drop file.length) file.length file.length =
      some (.parsed msr)) (hlength : file.length ≤ length msr) {fuel turns : ℕ} (hfuel : 3 ≤ fuel)
    (hturns : 2 ≤ turns) :
    readRecords file parse length fuel reclen turns (openFile memory) =
      some (if isRecordLength file.length then [(msr, 0)] else [], .endOfFile) := by
  obtain ⟨fuel, rfl⟩ := Nat.exists_eq_add_of_le' hfuel
  obtain ⟨turns, rfl⟩ := Nat.exists_eq_add_of_le' hturns
  have hblock : 0 < MINRECLEN := by decide
  have hfirst : readStep file parse length ⟨openFile memory, false, reclen, none⟩ = _ :=
    readStep_cut hfile hmin hmax hpos hmemory hreclen hpart
  have hsecond : readStep file parse length
      ⟨filledReader file memory, true, file.length, none⟩ = _ :=
    readStep_implied hfile hmin (by omega) hmemory hwhole
  have hpast : readStep file parse length
      ⟨pastReader file memory (length msr), false, reclen, none⟩ = _ :=
    readStep_past hlength (by omega)
  by_cases himplied : isRecordLength file.length = true
  · rw [imply, if_pos himplied] at hfirst
    have hrun : whileLoop (fun s : Reading ρ => s.outcome.isNone) (readStep file parse length)
        (fuel + 3) ⟨openFile memory, false, reclen, none⟩ = some _ :=
      (whileLoop_succ rfl hfirst).trans ((whileLoop_succ rfl hsecond).trans
        (whileLoop_of_not (Nat.succ_pos fuel) rfl))
    have hlast : whileLoop (fun s : Reading ρ => s.outcome.isNone) (readStep file parse length)
        (fuel + 3) ⟨_, false, reclen, none⟩ = some _ :=
      (whileLoop_succ rfl hpast).trans (whileLoop_of_not (Nat.succ_pos (fuel + 1)) rfl)
    rw [readRecords, msReadmsrMain_of_run hrun rfl, Option.bind_some]
    dsimp only
    rw [readRecords, msReadmsrMain_of_run hlast rfl, if_pos himplied]
    rfl
  · rw [imply, if_neg himplied] at hfirst
    have hrun : whileLoop (fun s : Reading ρ => s.outcome.isNone) (readStep file parse length)
        (fuel + 3) ⟨openFile memory, false, reclen, none⟩ = some _ :=
      (whileLoop_succ rfl hfirst).trans (whileLoop_of_not (Nat.succ_pos (fuel + 1)) rfl)
    rw [readRecords, msReadmsrMain_of_run hrun rfl, if_neg himplied]
    rfl

end Cut

end Libmseed

end PQL
