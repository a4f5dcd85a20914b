import PQL.Data.Words

/-!
# XDR streams

The codecs of the XDR library are a parameter (`Xdr`), of which only is known that what is written
can be read back, in full, and that nothing can be read at the end of a stream.  `standardXdr` are
those of the standard: words of four bytes, the highest byte first.
-/

namespace PQL

namespace Ah

/-- A `float`, by its bits. -/
abbrev Float := BitVec 32

/-- The functions of the XDR library that AH records use.  `xdr_bytes` and `xdr_array` write the
length of an array, which is an `unsigned int`, in front of it. -/
structure Xdr where
  float : Codec Byte Float
  double : Codec Byte (BitVec 64)
  short : Codec Byte (BitVec 16)
  int : Codec Byte (BitVec 32)
  bytes : (n : ℕ) → Codec Byte (Fin n → Byte)
  floats : (n : ℕ) → Codec Byte (Fin n → Float)
  float_complete : float.Complete
  double_complete : double.Complete
  short_complete : short.Complete
  int_complete : int.Complete
  bytes_complete : ∀ n < 2 ^ 32, (bytes n).Complete
  floats_complete : ∀ n < 2 ^ 32, (floats n).Complete
  float_needsInput : float.NeedsInput
  double_needsInput : double.NeedsInput
  bytes_needsInput : ∀ n, (bytes n).NeedsInput

/-! ## The standard -/

section Standard

/-- `xdr_int`, `xdr_u_int` and `xdr_float`. -/
def wordCodec : Codec Byte Word := ByteOrdered.wordCodec .bigEnd

def shortGet (old : BitVec 16) (s : List Byte) : Read Byte (BitVec 16) :=
  let read := wordCodec.get 0 s
  ⟨read.ok, if read.ok then read.value.setWidth 16 else old, read.rest⟩

theorem setWidth_signExtend (x : BitVec 16) : (x.signExtend 32).setWidth 16 = x := by
  ext i hi
  rw [BitVec.getElem_setWidth, BitVec.getLsbD_signExtend, if_pos hi, decide_eq_true (by omega),
    Bool.true_and, BitVec.getLsbD_eq_getElem]

theorem shortGet_put (old x : BitVec 16) (rest : List Byte) :
    shortGet old (wordCodec.put (x.signExtend 32) ++ rest) = ⟨true, x, rest⟩ := by
  rw [shortGet, wordCodec.get_put]
  change (⟨true, (x.signExtend 32).setWidth 16, rest⟩ : Read Byte (BitVec 16)) = _
  rw [setWidth_signExtend]

/-- `xdr_short`, which takes four bytes. -/
def shortCodec : Codec Byte (BitVec 16) where
  put x := wordCodec.put (x.signExtend 32)
  get := shortGet
  merge _ x := x
  get_put := shortGet_put

/-- `xdr_double`. -/
def doubleCodec : Codec Byte (BitVec 64) := ByteOrdered.longCodec .bigEnd

def byteCodec : Codec Byte Byte := Codec.one

section Counted

variable {α : Type} (A : Codec Byte α) (d : α) (pad : ℕ → ℕ) (n : ℕ)

def countedPut (x : Fin n → α) : List Byte :=
  wordCodec.put (BitVec.ofNat 32 n) ++ (A.putMany ((List.ofFn x).take (n % 2 ^ 32)) ++
    List.replicate (pad (n % 2 ^ 32)) 0)

def countedGet (old : Fin n → α) (s : List Byte) : Read Byte (Fin n → α) :=
  let len := wordCodec.get 0 s
  if len.ok then
    if len.value.toNat ≤ n then
      let read := A.getMany d len.value.toNat len.rest
      let rest := read.rest.drop (pad len.value.toNat)
      ⟨read.ok && decide (pad len.value.toNat ≤ read.rest.length),
        fun i => read.value.getD i (old i), rest⟩
    else ⟨false, old, len.rest⟩
  else ⟨false, old, len.rest⟩

variable {A} (hA : A.Complete)

include hA in
theorem countedGet_put (old x : Fin n → α) (rest : List Byte) :
    countedGet A d pad n old (countedPut A pad n x ++ rest) =
      ⟨true, fun i : Fin n => if (i : ℕ) < n % 2 ^ 32 then x i else old i, rest⟩ := by
  have hlength : ((List.ofFn x).take (n % 2 ^ 32)).length = n % 2 ^ 32 := by
    rw [List.length_take, List.length_ofFn, min_eq_left (Nat.mod_le n _)]
  have hmany := Codec.getMany_putMany (d := d) hA ((List.ofFn x).take (n % 2 ^ 32))
    (List.replicate (pad (n % 2 ^ 32)) 0 ++ rest)
  rw [hlength] at hmany
  have hvalue : (fun i : Fin n => ((List.ofFn x).take (n % 2 ^ 32)).getD i (old i)) =
      fun i : Fin n => if (i : ℕ) < n % 2 ^ 32 then x i else old i := by
    funext i
    rw [List.getD_eq_getElem?_getD, List.getElem?_take]
    split_ifs
    · simp
    · rfl
  unfold countedGet countedPut
  rw [List.append_assoc, wordCodec.get_put]
  dsimp only [wordCodec, ByteOrdered.wordCodec]
  rw [if_pos rfl, BitVec.toNat_ofNat, if_pos (Nat.mod_le n _), List.append_assoc, hmany]
  dsimp only
  rw [hvalue, List.drop_left' (by rw [List.length_replicate]), List.length_append,
    List.length_replicate, decide_eq_true (Nat.le_add_right _ _), Bool.and_true]

/-- An array behind its length, with bytes to fill it up. -/
def counted : Codec Byte (Fin n → α) where
  put := countedPut A pad n
  get := countedGet A d pad n
  merge old x := fun i : Fin n => if (i : ℕ) < n % 2 ^ 32 then x i else old i
  get_put := countedGet_put d pad n hA

theorem counted_complete (hn : n < 2 ^ 32) : (counted d pad n hA).Complete := by
  intro old x
  funext i
  exact if_pos (by rw [Nat.mod_eq_of_lt hn]; exact i.isLt)

theorem counted_needsInput : (counted d pad n hA).NeedsInput := fun _ => rfl

end Counted

/-- What is missing to a multiple of four. -/
def roundUp (n : ℕ) : ℕ := (4 - n % 4) % 4

theorem wordCodec_complete : wordCodec.Complete := fun _ _ => rfl

theorem byteCodec_complete : byteCodec.Complete := fun _ _ => rfl

theorem shortCodec_complete : shortCodec.Complete := fun _ _ => rfl

theorem doubleCodec_complete : doubleCodec.Complete := ByteOrdered.longCodec_complete .bigEnd

theorem wordCodec_needsInput : wordCodec.NeedsInput := fun _ => rfl

theorem doubleCodec_needsInput : doubleCodec.NeedsInput := fun _ => rfl

def standardXdr : Xdr where
  float := wordCodec
  double := doubleCodec
  short := shortCodec
  int := wordCodec
  bytes n := counted 0 roundUp n byteCodec_complete
  floats n := counted 0 (fun _ => 0) n wordCodec_complete
  float_complete := wordCodec_complete
  double_complete := doubleCodec_complete
  short_complete := shortCodec_complete
  int_complete := wordCodec_complete
  bytes_complete := fun n => counted_complete 0 roundUp n byteCodec_complete
  floats_complete := fun n => counted_complete 0 (fun _ => 0) n wordCodec_complete
  float_needsInput := wordCodec_needsInput
  double_needsInput := doubleCodec_needsInput
  bytes_needsInput := fun n => counted_needsInput 0 roundUp n byteCodec_complete

end Standard

end Ah

end PQL
