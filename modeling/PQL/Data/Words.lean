import PQL.Lib.Codecs
import PQL.Segy.Swap

/-!
# Numbers in memory

A structure of the file formats stands in memory field by field, its numbers in one of two byte
orders.  `ByteOrdered` is how a type is stored in either order, and how its numbers are swapped once
they are loaded: loading on a host and swapping if need be is loading in the order of the file
(`load_put`).  Structures are put together from their fields.
-/

namespace PQL

/-! ## Swaps -/

def msGswap2a (data : BitVec 16) : BitVec 16 := ((data >>> 8) &&& 0xff#16) |||
  ((data &&& 0xff#16) <<< 8)

def msGswap4a (data : Word) : Word :=
  ((data >>> 24) &&& 0xff#32) ||| ((data &&& 0xff#32) <<< 24) |||
    (((data >>> 8) &&& 0xff00#32) ||| ((data &&& 0xff00#32) <<< 8))

/-- Each half is swapped, and the halves change places. -/
def msGswap8a (data : BitVec 64) : BitVec 64 :=
  msGswap4a (data.extractLsb' 0 32) ++ msGswap4a (data.extractLsb' 32 32)

theorem append_or (x0 x1 x2 x3 y0 y1 y2 y3 : Byte) :
    ((x3 ++ x2 ++ x1 ++ x0 : Word) ||| (y3 ++ y2 ++ y1 ++ y0 : Word)) =
      (x3 ||| y3) ++ (x2 ||| y2) ++ (x1 ||| y1) ++ (x0 ||| y0) := by
  have h32 : (x3 ++ x2 : BitVec 16) ||| (y3 ++ y2) = (x3 ||| y3) ++ (x2 ||| y2) :=
    BitVec.or_append
  have h321 : (x3 ++ x2 ++ x1 : BitVec 24) ||| (y3 ++ y2 ++ y1) =
      ((x3 ++ x2 : BitVec 16) ||| (y3 ++ y2)) ++ (x1 ||| y1) := BitVec.or_append
  have h3210 : (x3 ++ x2 ++ x1 ++ x0 : Word) ||| (y3 ++ y2 ++ y1 ++ y0 : Word) =
      ((x3 ++ x2 ++ x1 : BitVec 24) ||| (y3 ++ y2 ++ y1)) ++ (x0 ||| y0) := BitVec.or_append
  rw [h3210, h321, h32]

theorem append_shift (b0 b1 b2 b3 : Byte) :
    (b3 ++ b2 ++ b1 ++ b0 : Word) >>> 8 = 0#8 ++ b3 ++ b2 ++ b1 ∧
      (b3 ++ b2 ++ b1 ++ b0 : Word) >>> 24 = 0#8 ++ 0#8 ++ 0#8 ++ b3 ∧
      (0#8 ++ 0#8 ++ b1 ++ 0#8 : Word) <<< 8 = 0#8 ++ b1 ++ 0#8 ++ 0#8 ∧
      (0#8 ++ 0#8 ++ 0#8 ++ b0 : Word) <<< 24 = b0 ++ 0#8 ++ 0#8 ++ 0#8 := by
  refine ⟨?_, ?_, ?_, ?_⟩ <;> apply BitVec.eq_of_toNat_eq <;>
    simp only [BitVec.toNat_shiftLeft, BitVec.toNat_ushiftRight, toNat_append_eq,
      Nat.shiftLeft_eq, Nat.shiftRight_eq_div_pow, BitVec.toNat_ofNat] <;>
    omega

theorem msGswap2a_eq (data : BitVec 16) : msGswap2a data = swap2byte data := by
  have hmask : (0xff#16).toNat = 2 ^ 8 - 1 := rfl
  have hlt := data.isLt
  have hhigh : data.toNat / 2 ^ 8 % 2 ^ 8 = data.toNat / 2 ^ 8 := by omega
  have hlow : data.toNat % 2 ^ 8 * 2 ^ 8 % 2 ^ 16 = data.toNat * 2 ^ 8 % 2 ^ 16 := by omega
  apply BitVec.eq_of_toNat_eq
  unfold msGswap2a swap2byte
  rw [BitVec.toNat_or, BitVec.toNat_or, BitVec.toNat_shiftLeft, BitVec.toNat_and, BitVec.toNat_and,
    BitVec.toNat_shiftLeft, BitVec.toNat_ushiftRight, hmask, Nat.and_two_pow_sub_one_eq_mod,
    Nat.and_two_pow_sub_one_eq_mod, Nat.shiftRight_eq_div_pow, Nat.shiftLeft_eq, Nat.shiftLeft_eq,
    hhigh, hlow]

theorem msGswap4a_append (b0 b1 b2 b3 : Byte) :
    msGswap4a (b3 ++ b2 ++ b1 ++ b0) = b0 ++ b1 ++ b2 ++ b3 := by
  obtain ⟨hdown, hdown', -, -⟩ := append_shift b0 b1 b2 b3
  obtain ⟨hlow, hmid, -, -⟩ := and_masks b0 b1 b2 b3
  obtain ⟨-, hmid', -, -⟩ := and_masks b1 b2 b3 0#8
  obtain ⟨hlow', -, -, -⟩ := and_masks b3 0#8 0#8 0#8
  obtain ⟨-, -, hup, hup'⟩ := append_shift b0 b1 b2 b3
  rw [msGswap4a, hdown, hdown', hlow', hlow, hmid', hmid, hup, hup', append_or, append_or,
    append_or]
  simp only [BitVec.zero_or, BitVec.or_zero]

theorem msGswap4a_eq (data : Word) : msGswap4a data = swap4byte data := by
  have h := swap4byte_append (data.extractLsb' 0 8) (data.extractLsb' 8 8) (data.extractLsb' 16 8)
    (data.extractLsb' 24 8)
  have h' := msGswap4a_append (data.extractLsb' 0 8) (data.extractLsb' 8 8) (data.extractLsb' 16 8)
    (data.extractLsb' 24 8)
  rw [extractLsb'_bytes] at h h'
  exact h'.trans h.symm

/-! ## Types in memory -/

/-- The bytes of a `short` on a host of byte order `o`. -/
def storePair (o : Endian) (v : BitVec 16) : Pair :=
  match o with
  | .littleEnd => ⟨v.extractLsb' 0 8, v.extractLsb' 8 8⟩
  | .bigEnd => ⟨v.extractLsb' 8 8, v.extractLsb' 0 8⟩

theorem loadShort_storePair (o : Endian) (v : BitVec 16) : loadShort o (storePair o v) = v := by
  have h : v.extractLsb' 8 8 ++ v.extractLsb' 0 8 = v := by
    rw [BitVec.extractLsb'_append_extractLsb'_eq_extractLsb' (by decide)]
    exact BitVec.extractLsb'_eq_self
  cases o <;> exact h

/-- How a type is stored in either byte order. -/
structure ByteOrdered (α : Type) where
  codec : Endian → Codec Byte α
  swap : α → α
  size : ℕ
  put_swap : ∀ o x, (codec o.other).put (swap x) = (codec o).put x
  swap_swap : ∀ x, swap (swap x) = x
  length_put : ∀ o x, ((codec o).put x).length = size
  complete : ∀ o, (codec o).Complete

namespace ByteOrdered

variable {α β γ : Type}

section Load

variable (A : ByteOrdered α) (host : Endian) (swapflag : Bool) (d : α)

/-- A value that is loaded by a host, and swapped if the flag is set; none if the memory ends. -/
def load (mem : List Byte) : Option α :=
  let read := (A.codec host).get d mem
  if read.ok then some (if swapflag then A.swap read.value else read.value) else none

theorem put_under (x : α) : ((A.codec (host.under swapflag)).put x) =
    (A.codec host).put (if swapflag then A.swap x else x) := by
  cases swapflag
  · rfl
  · have h := A.put_swap host.other x
    have hother : host.other.other = host := by cases host <;> rfl
    rw [hother] at h
    exact h.symm

theorem load_put (x : α) (rest : List Byte) :
    A.load host swapflag d ((A.codec (host.under swapflag)).put x ++ rest) = some x := by
  unfold load
  rw [put_under, (A.codec host).get_put, A.complete]
  cases swapflag
  · rfl
  · exact congrArg some (A.swap_swap x)

theorem load_of_prefix {x : α} {mem : List Byte}
    (h : (A.codec (host.under swapflag)).put x <+: mem) : A.load host swapflag d mem = some x := by
  obtain ⟨rest, rfl⟩ := h
  exact A.load_put host swapflag d x rest

end Load

/-! ## Fields and structures -/

theorem length_ofFn_put (n : ℕ) (x : Fin n → Byte) :
    ((Codec.one.array n).put x).length = n := by
  induction n with
  | zero => rfl
  | succ n ih =>
    change ([x 0] ++ (Codec.one.array n).put fun i => x i.succ).length = n + 1
    rw [List.length_append, ih, List.length_singleton, add_comm]

/-- Characters, which are not swapped. -/
def chars (n : ℕ) : ByteOrdered (Fin n → Byte) where
  codec _ := Codec.one.array n
  swap x := x
  size := n
  put_swap _ _ := rfl
  swap_swap _ := rfl
  length_put _ := length_ofFn_put n
  complete _ := Codec.Complete.array (fun _ _ => rfl) n

def uint8 : ByteOrdered Byte where
  codec _ := Codec.one
  swap x := x
  size := 1
  put_swap _ _ := rfl
  swap_swap _ := rfl
  length_put _ _ := rfl
  complete _ _ _ := rfl

def shortGet (o : Endian) (old : BitVec 16) : List Byte → Read Byte (BitVec 16)
  | b0 :: b1 :: rest => ⟨true, loadShort o ⟨b0, b1⟩, rest⟩
  | _ => ⟨false, old, []⟩

theorem shortGet_put (o : Endian) (old x : BitVec 16) (rest : List Byte) :
    shortGet o old ((storePair o x).bytes ++ rest) = ⟨true, x, rest⟩ := by
  change (⟨true, loadShort o (storePair o x), rest⟩ : Read Byte (BitVec 16)) = _
  rw [loadShort_storePair]

def shortCodec (o : Endian) : Codec Byte (BitVec 16) where
  put x := (storePair o x).bytes
  get := shortGet o
  merge _ x := x
  get_put := shortGet_put o

theorem storePair_loadShort (o : Endian) (p : Pair) : storePair o (loadShort o p) = p := by
  cases o <;> exact congrArg₂ Pair.mk (by simp only [loadShort, BitVec.extractLsb'_append_eq_left,
    BitVec.extractLsb'_append_eq_right]) (by simp only [loadShort,
    BitVec.extractLsb'_append_eq_left, BitVec.extractLsb'_append_eq_right])

theorem storePair_msGswap2a (o : Endian) (x : BitVec 16) :
    storePair o.other (msGswap2a x) = storePair o x := by
  have hother : ∀ p : Pair, loadShort o p.reverse = loadShort o.other p := by
    intro p
    cases o <;> rfl
  rw [msGswap2a_eq, ← loadShort_storePair o x, swap2byte_loadShort, hother, storePair_loadShort,
    loadShort_storePair]

theorem storeInt_loadInt (o : Endian) (q : Quad) : storeInt o (loadInt o q) = q := by
  have h : ∀ b0 b1 b2 b3 : Byte, (b0 ++ b1 ++ b2 ++ b3 : Word).extractLsb' 24 8 = b0 ∧
      (b0 ++ b1 ++ b2 ++ b3 : Word).extractLsb' 16 8 = b1 ∧
      (b0 ++ b1 ++ b2 ++ b3 : Word).extractLsb' 8 8 = b2 ∧
      (b0 ++ b1 ++ b2 ++ b3 : Word).extractLsb' 0 8 = b3 := by
    intro b0 b1 b2 b3
    refine ⟨?_, ?_, ?_, ?_⟩ <;> apply BitVec.eq_of_toNat_eq <;>
      simp only [BitVec.extractLsb'_toNat, toNat_append_eq, Nat.shiftRight_eq_div_pow] <;> omega
  obtain ⟨b0, b1, b2, b3⟩ := q
  obtain ⟨h0, h1, h2, h3⟩ := h b0 b1 b2 b3
  obtain ⟨h0', h1', h2', h3'⟩ := h b3 b2 b1 b0
  cases o
  · rw [loadInt, storeInt, h0', h1', h2', h3']
  · rw [loadInt, storeInt, h0, h1, h2, h3]

theorem storeInt_msGswap4a (o : Endian) (x : Word) :
    storeInt o.other (msGswap4a x) = storeInt o x := by
  rw [msGswap4a_eq, ← loadInt_storeInt o x, swap4byte_loadInt, loadInt_reverse, storeInt_loadInt,
    loadInt_storeInt]

theorem msGswap2a_msGswap2a (x : BitVec 16) : msGswap2a (msGswap2a x) = x := by
  rw [msGswap2a_eq, msGswap2a_eq, swap2byte_swap2byte]

def uint16 : ByteOrdered (BitVec 16) where
  codec := shortCodec
  swap := msGswap2a
  size := 2
  put_swap o x := congrArg Pair.bytes (storePair_msGswap2a o x)
  swap_swap := msGswap2a_msGswap2a
  length_put _ _ := rfl
  complete _ _ _ := rfl

def wordGet (o : Endian) (old : Word) : List Byte → Read Byte Word
  | b0 :: b1 :: b2 :: b3 :: rest => ⟨true, loadInt o ⟨b0, b1, b2, b3⟩, rest⟩
  | _ => ⟨false, old, []⟩

theorem wordGet_put (o : Endian) (old x : Word) (rest : List Byte) :
    wordGet o old ((storeInt o x).bytes ++ rest) = ⟨true, x, rest⟩ := by
  change (⟨true, loadInt o (storeInt o x), rest⟩ : Read Byte Word) = _
  rw [loadInt_storeInt]

def wordCodec (o : Endian) : Codec Byte Word where
  put x := (storeInt o x).bytes
  get := wordGet o
  merge _ x := x
  get_put := wordGet_put o

theorem msGswap4a_msGswap4a (x : Word) : msGswap4a (msGswap4a x) = x := by
  rw [msGswap4a_eq, msGswap4a_eq, swap4byte_swap4byte]

def uint32 : ByteOrdered Word where
  codec := wordCodec
  swap := msGswap4a
  size := 4
  put_swap o x := congrArg Quad.bytes (storeInt_msGswap4a o x)
  swap_swap := msGswap4a_msGswap4a
  length_put _ _ := rfl
  complete _ _ _ := rfl

section Parts

variable (A : ByteOrdered α) (B : ByteOrdered β) (e : α ≃ γ)

theorem pair_put_swap (o : Endian) (x : α × β) :
    (A.codec o.other).put (A.swap x.1) ++ (B.codec o.other).put (B.swap x.2) =
      (A.codec o).put x.1 ++ (B.codec o).put x.2 := by
  rw [A.put_swap, B.put_swap]

theorem pair_swap_swap (x : α × β) : (A.swap (A.swap x.1), B.swap (B.swap x.2)) = x := by
  rw [A.swap_swap, B.swap_swap]

theorem pair_length_put (o : Endian) (x : α × β) :
    ((A.codec o).put x.1 ++ (B.codec o).put x.2).length = A.size + B.size := by
  rw [List.length_append, A.length_put, B.length_put]

theorem pair_complete (o : Endian) : ((A.codec o).pair (B.codec o)).Complete := fun old x =>
  congrArg₂ Prod.mk (A.complete o old.1 x.1) (B.complete o old.2 x.2)

/-- Two fields, one behind the other. -/
def pair : ByteOrdered (α × β) where
  codec o := (A.codec o).pair (B.codec o)
  swap x := (A.swap x.1, B.swap x.2)
  size := A.size + B.size
  put_swap := pair_put_swap A B
  swap_swap := pair_swap_swap A B
  length_put := pair_length_put A B
  complete := pair_complete A B

theorem iso_put_swap (o : Endian) (x : γ) :
    (A.codec o.other).put (e.symm (e (A.swap (e.symm x)))) = (A.codec o).put (e.symm x) := by
  rw [e.symm_apply_apply, A.put_swap]

theorem iso_swap_swap (x : γ) : e (A.swap (e.symm (e (A.swap (e.symm x))))) = x := by
  rw [e.symm_apply_apply, A.swap_swap, e.apply_symm_apply]

theorem iso_complete (o : Endian) : ((A.codec o).iso e).Complete := fun old x =>
  (congrArg e (A.complete o (e.symm old) (e.symm x))).trans (e.apply_symm_apply x)

/-- A structure by its fields. -/
def iso : ByteOrdered γ where
  codec o := (A.codec o).iso e
  swap x := e (A.swap (e.symm x))
  size := A.size
  put_swap := iso_put_swap A e
  swap_swap := iso_swap_swap A e
  length_put o x := A.length_put o (e.symm x)
  complete := iso_complete A e

end Parts

/-! ## Numbers of eight bytes -/

theorem halves_left_inv : Function.LeftInverse
    (fun x : BitVec 64 => (x.extractLsb' 32 32, x.extractLsb' 0 32))
    fun t : Word × Word => t.1 ++ t.2 := fun _ =>
  Prod.ext BitVec.extractLsb'_append_eq_left BitVec.extractLsb'_append_eq_right

theorem halves_right_inv : Function.RightInverse
    (fun x : BitVec 64 => (x.extractLsb' 32 32, x.extractLsb' 0 32))
    fun t : Word × Word => t.1 ++ t.2 := by
  intro x
  change x.extractLsb' 32 32 ++ x.extractLsb' 0 32 = x
  rw [BitVec.extractLsb'_append_extractLsb'_eq_extractLsb' (by decide)]
  exact BitVec.extractLsb'_eq_self

/-- The high and the low half of a number. -/
def halves : Word × Word ≃ BitVec 64 where
  toFun t := t.1 ++ t.2
  invFun x := (x.extractLsb' 32 32, x.extractLsb' 0 32)
  left_inv := halves_left_inv
  right_inv := halves_right_inv

def longCodec (o : Endian) : Codec Byte (BitVec 64) :=
  match o with
  | .littleEnd => ((wordCodec .littleEnd).pair (wordCodec .littleEnd)).iso
      ((Equiv.prodComm _ _).trans halves)
  | .bigEnd => ((wordCodec .bigEnd).pair (wordCodec .bigEnd)).iso halves

theorem longCodec_put_swap (o : Endian) (x : BitVec 64) :
    (longCodec o.other).put (msGswap8a x) = (longCodec o).put x := by
  have hlow : (msGswap8a x).extractLsb' 0 32 = msGswap4a (x.extractLsb' 32 32) :=
    BitVec.extractLsb'_append_eq_right
  have hhigh : (msGswap8a x).extractLsb' 32 32 = msGswap4a (x.extractLsb' 0 32) :=
    BitVec.extractLsb'_append_eq_left
  cases o
  · change (storeInt _ ((msGswap8a x).extractLsb' 32 32)).bytes ++
      (storeInt _ ((msGswap8a x).extractLsb' 0 32)).bytes = _
    rw [hlow, hhigh]
    exact congrArg₂ (· ++ ·) (congrArg Quad.bytes (storeInt_msGswap4a .littleEnd _))
      (congrArg Quad.bytes (storeInt_msGswap4a .littleEnd _))
  · change (storeInt _ ((msGswap8a x).extractLsb' 0 32)).bytes ++
      (storeInt _ ((msGswap8a x).extractLsb' 32 32)).bytes = _
    rw [hlow, hhigh]
    exact congrArg₂ (· ++ ·) (congrArg Quad.bytes (storeInt_msGswap4a .bigEnd _))
      (congrArg Quad.bytes (storeInt_msGswap4a .bigEnd _))

theorem msGswap8a_msGswap8a (x : BitVec 64) : msGswap8a (msGswap8a x) = x := by
  unfold msGswap8a
  rw [BitVec.extractLsb'_append_eq_right, BitVec.extractLsb'_append_eq_left, msGswap4a_msGswap4a,
    msGswap4a_msGswap4a]
  exact halves_right_inv x

theorem longCodec_length_put (o : Endian) (x : BitVec 64) : ((longCodec o).put x).length = 8 := by
  cases o <;> rfl

theorem longCodec_complete (o : Endian) : (longCodec o).Complete := by
  cases o <;> exact fun _ x => halves_right_inv x

def uint64 : ByteOrdered (BitVec 64) where
  codec := longCodec
  swap := msGswap8a
  size := 8
  put_swap := longCodec_put_swap
  swap_swap := msGswap8a_msGswap8a
  length_put := longCodec_length_put
  complete := longCodec_complete

end ByteOrdered

end PQL
