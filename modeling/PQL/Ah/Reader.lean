import PQL.Ah.Records
import PQL.Data.Readers
import PQL.Lib.Floats

/-!
# Reading an AH file

`IDah` takes a file for an AH file by its first header alone, and `get_ah_data` reads the samples
behind that header.  It refuses a file in which anything follows them, so of the files that are
written record by record it reads those with one record of `float`s (`getAhData_records_iff`).
-/

namespace PQL

namespace Ah

/-! ## Functions -/

/-- `b < q`; what is not a number is not less than anything. -/
def floatLess (b : Float) (q : ℚ) : Bool :=
  match floatValue b with
  | some v => decide (v < q)
  | none => decide (b = 0xFF800000)

/-- `b > q`. -/
def floatGreater (b : Float) (q : ℚ) : Bool :=
  match floatValue b with
  | some v => decide (v > q)
  | none => decide (b = 0x7F800000)

/-- The file fails the criteria for AH. -/
def failsCriteria (h : Ahhed) : Bool :=
  decide (h.record.abstime.yr = 0) || decide (floatValue h.record.delta = some 0) ||
    decide (h.record.abstime.hr.toInt < 0 ∨ h.record.abstime.hr.toInt > 23) ||
    decide (h.record.abstime.mn.toInt < 0 ∨ h.record.abstime.mn.toInt > 59) ||
    floatLess h.record.abstime.sec 0 || floatGreater h.record.abstime.sec 60

section Model

variable (X : Xdr)

/-- The header that `get_ah_hedr` and `IDah` take their values from; `junk` is what the variable
holds. -/
def ahHedr (junk : Ahhed) (file : List Byte) : Option Ahhed :=
  let got := xdrGethead X junk file
  if got.1 = 1 then if failsCriteria got.2.1 then none else some got.2.1 else none

/-- `IDah`: the header of the trace that it makes; `get_ah_hedr` reads the same file again. -/
def IDah (junk junk' : Ahhed) (file : List Byte) : Option Ahhed :=
  (ahHedr X junk file).bind fun _ => ahHedr X junk' file

def FLOAT : ℤ := 1

/-- `get_ah_data` of a file that opens: the result, and the number of samples with the samples. -/
def getAhData (junk : Ahhed) (file : List Byte) :
    ReadResult × Option (BitVec 32 × AhArray) :=
  let got := xdrGethead X junk file
  if got.1 ≠ 1 then (.FAILURE, none)
  else
    let data := xdrGetdata X got.2.1 got.2.2
    if data.1 ≠ got.2.1.record.ndata.toInt then (.FAILURE, none)
    else if data.2.2.take 2 ≠ [] then (.FAILURE, none)
    else if got.2.1.record.type.toInt ≠ FLOAT then (.FAILURE, none)
    else (.PQLXSUCCESS, some (got.2.1.record.ndata, data.2.1))

/-- What `get_ah_data` finds in a file that opens. -/
def ahFound (junk : Ahhed) (file : List Byte) : AhFound :=
  let got := xdrGethead X junk file
  let data := xdrGetdata X got.2.1 got.2.2
  { opens := true
    header := decide (got.1 = 1)
    samples := decide (data.1 = got.2.1.record.ndata.toInt)
    ends := decide (data.2.2.take 2 = [])
    typeFloat := decide (got.2.1.record.type.toInt = FLOAT) }

end Model

theorem releaseData_alloc (h : Heap) (t : TraceInfo) (result : ReadResult) :
    ∃ h', releaseData h.alloc { t with data := some h.next } result =
      some (h', { t with data := some h.next }, result) := by
  have hlive : h.next ∈ h.alloc.live := Finset.mem_insert_self _ _
  exact ⟨_, by rw [releaseData, freePtr, Heap.free, if_pos hlive, Option.map_some]⟩

/-- The reader of the heap model takes the same exits. -/
theorem getAhBlocks_ahFound (X : Xdr) (junk : Ahhed) (file : List Byte) (h : Heap) (t : TraceInfo) :
    ∃ h' t', getAhBlocks (ahFound X junk file) h t = some (h', t', (getAhData X junk file).1) := by
  unfold getAhBlocks ahFound getAhData
  dsimp only
  by_cases hhead : (xdrGethead X junk file).1 = 1
  · rw [if_neg (by simp [hhead]), if_neg (not_not.2 hhead)]
    set got := xdrGethead X junk file
    obtain ⟨h', hrelease⟩ := releaseData_alloc h t .FAILURE
    by_cases hdata : (xdrGetdata X got.2.1 got.2.2).1 = got.2.1.record.ndata.toInt
    · rw [if_neg (by simp [hdata]), if_neg (not_not.2 hdata)]
      by_cases hends : (xdrGetdata X got.2.1 got.2.2).2.2.take 2 = []
      · rw [if_neg (by simp [hends]), if_neg (not_not.2 hends)]
        by_cases htype : got.2.1.record.type.toInt = FLOAT
        · rw [if_neg (by simp [htype]), if_neg (not_not.2 htype)]
          exact ⟨_, _, rfl⟩
        · rw [if_pos (by simp [htype]), if_pos htype]
          exact ⟨_, _, hrelease⟩
      · rw [if_pos (by simp [hends]), if_pos hends]
        exact ⟨_, _, hrelease⟩
    · rw [if_pos (by simp [hdata]), if_pos hdata]
      exact ⟨_, _, hrelease⟩
  · rw [if_pos (by simp [hhead]), if_pos hhead]
    exact ⟨_, _, rfl⟩

/-! ## Files of records -/

section Files

variable (X : Xdr) {r : Record} {rs : List Record}

/-- The first header of a file, whatever follows its record. -/
theorem ahHedr_cons (h : r.Matches) (junk : Ahhed) (rest : List Byte) :
    ahHedr X junk (r.bytes X ++ rest) =
      if failsCriteria r.head then none else some (comesBack junk r.head) := by
  unfold ahHedr
  rw [xdrGethead_bytes X h]
  rfl

/-- No bytes in front of another record. -/
theorem bytes_eq_nil_iff (h : ∀ r ∈ rs, r.Matches) :
    rs.flatMap (Record.bytes X) = [] ↔ rs = [] := by
  constructor
  · intro hnil
    cases rs with
    | nil => rfl
    | cons r rs =>
      -- otherwise the empty stream would have a header
      have hhead := xdrGethead_bytes X (h r List.mem_cons_self) r.head (rs.flatMap (Record.bytes X))
      have hnone := xdrGethead_nil X r.head
      rw [← List.flatMap_cons, hnil] at hhead
      rw [hhead] at hnone
      simp at hnone
  · rintro rfl
    rfl

/-- A record of `float`s is read in full, and counted in full. -/
theorem xdrGetdata_float (h : r.Matches) (htype : r.head.record.type.toInt = FLOAT) (old : Ahhed)
    (rest : List Byte) :
    xdrGetdata X (comesBack old r.head) (arrayBytes X r.array ++ rest) =
      (((samples r.head : ℕ) : ℤ), r.array, rest) := by
  have htype' : (comesBack old r.head).record.type = r.head.record.type := rfl
  have hsamples : samples (comesBack old r.head) = samples r.head := rfl
  unfold xdrGetdata
  rw [htype', hsamples]
  cases h with
  | floats hshape harray hlength =>
    have hone : floatsOf r.head.record.type.toInt = some (1, 1) := by
      rw [htype]
      rfl
    rw [hone, Option.some.injEq, Prod.mk.injEq] at hshape
    obtain ⟨rfl, rfl⟩ := hshape
    rw [one_mul, mul_one] at hlength
    rw [hone, harray]
    dsimp only [arrayBytes]
    rw [one_mul, mul_one, ← hlength, Codec.getMany_putMany X.float_complete]
    rfl
  | doubles hdouble =>
    rw [htype] at hdouble
    exact absurd hdouble (by decide)

/-- `get_ah_data` reads a file of records exactly if it is one record of `float`s. -/
theorem getAhData_bytes_iff (h : ∀ q ∈ r :: rs, q.Matches) (junk : Ahhed) (n : BitVec 32)
    (array : AhArray) :
    getAhData X junk (r.bytes X ++ rs.flatMap (Record.bytes X)) =
        (.PQLXSUCCESS, some (n, array)) ↔
      rs = [] ∧ r.head.record.type.toInt = FLOAT ∧ 0 ≤ r.head.record.ndata.toInt ∧
        n = r.head.record.ndata ∧ array = r.array := by
  have hr := h r List.mem_cons_self
  have hrest := bytes_eq_nil_iff X fun q hq => h q (List.mem_cons_of_mem _ hq)
  have hndata : (comesBack junk r.head).record.ndata = r.head.record.ndata := rfl
  have htype' : (comesBack junk r.head).record.type = r.head.record.type := rfl
  unfold getAhData
  rw [xdrGethead_bytes X hr]
  dsimp only
  rw [hndata, htype', if_neg (by decide)]
  by_cases htype : r.head.record.type.toInt = FLOAT
  · rw [xdrGetdata_float X hr htype, if_neg (not_not.2 htype)]
    dsimp only
    by_cases hnonneg : 0 ≤ r.head.record.ndata.toInt
    · rw [samples, Int.toNat_of_nonneg hnonneg, if_neg (not_not.2 rfl)]
      by_cases hend : rs = []
      · rw [hrest.2 hend, if_neg (by decide)]
        simp [hend, htype, hnonneg, eq_comm]
      · rw [if_pos (by simp [hrest, hend])]
        simp [hend]
    · rw [samples, if_pos (by omega)]
      simp [hnonneg]
  · -- every exit that is left is a failure
    rw [if_pos htype]
    split_ifs <;> simp [htype]

end Files

/-- A file of records is taken for an AH file by its first header alone, but it is read exactly if
that is the header of its only record and the samples are `float`s. -/
theorem records_readable (X : Xdr) (r : Record) (rs : List Record) (h : ∀ q ∈ r :: rs, q.Matches)
    (junk junk' : Ahhed) :
    ∃ file, writeRecords X (r :: rs) = some file ∧
      IDah X junk junk' file =
        (if failsCriteria r.head then none else some (comesBack junk' r.head)) ∧
      ∀ (n : BitVec 32) (array : AhArray),
        getAhData X junk file = (.PQLXSUCCESS, some (n, array)) ↔
          rs = [] ∧ r.head.record.type.toInt = FLOAT ∧ 0 ≤ r.head.record.ndata.toInt ∧
            n = r.head.record.ndata ∧ array = r.array := by
  have hr := h r List.mem_cons_self
  refine ⟨_, writeRecords_eq X h, ?_, fun n array => ?_⟩
  · rw [List.flatMap_cons, IDah, ahHedr_cons X hr, ahHedr_cons X hr]
    split_ifs <;> rfl
  · rw [List.flatMap_cons]
    exact getAhData_bytes_iff X h junk n array

/-- One `float`, and another record behind it. -/
theorem records_readable_two : ∃ file,
    writeRecords standardXdr [⟨plainHead 1 1, .floats [0x3F800000]⟩,
        ⟨plainHead 6 1, .doubles [1]⟩] = some file ∧
      IDah standardXdr (plainHead 0 0) (plainHead 0 0) file =
        (if failsCriteria (plainHead 1 1) then none
          else some (comesBack (plainHead 0 0) (plainHead 1 1))) ∧
      ∀ (n : BitVec 32) (array : AhArray),
        getAhData standardXdr (plainHead 0 0) file = (.PQLXSUCCESS, some (n, array)) ↔
          [(⟨plainHead 6 1, .doubles [1]⟩ : Record)] = [] ∧
            (plainHead 1 1).record.type.toInt = FLOAT ∧ 0 ≤ (plainHead 1 1).record.ndata.toInt ∧
            n = (plainHead 1 1).record.ndata ∧ array = .floats [0x3F800000] := by
  refine records_readable standardXdr ⟨plainHead 1 1, .floats [0x3F800000]⟩
    [⟨plainHead 6 1, .doubles [1]⟩] (fun r hr => ?_) (plainHead 0 0) (plainHead 0 0)
  rcases List.mem_pair.1 hr with rfl | rfl
  · exact @Record.Matches.floats _ 1 1 [0x3F800000] rfl rfl rfl
  · exact @Record.Matches.doubles _ [1] rfl rfl rfl

end Ah

end PQL
