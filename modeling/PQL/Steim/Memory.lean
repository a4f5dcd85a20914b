import PQL.Lib.Fields
import PQL.Lib.Delta

/-!
# Words in memory

Compressed blocks are read as bytes, words (`int`) and frames of sixteen words.  An `int` loads its
four bytes in the byte order of the host (`loadInt`); with the `rev` flag set, the decoders reverse
the bytes first (`readInt`), which amounts to loading in the other byte order (`readInt_eq`).  The
control word of a frame holds sixteen two-bit codes (`unpack`).
-/

namespace PQL

abbrev Byte := BitVec 8

instance : LawfulBEq Byte := inferInstance

/-- A C `int`; its arithmetic is modulo `2 ^ 32`. -/
abbrev Word := BitVec 32

/-- The C constant `INT_MIN`. -/
def INT_MIN : Word := BitVec.intMin 32

inductive Endian where
  | littleEnd
  | bigEnd
deriving DecidableEq, Repr

def Endian.other : Endian → Endian
  | .littleEnd => .bigEnd
  | .bigEnd => .littleEnd

/-- Four bytes at increasing addresses. -/
structure Quad where
  b0 : Byte
  b1 : Byte
  b2 : Byte
  b3 : Byte
deriving DecidableEq, Repr

namespace Quad

def bytes (q : Quad) : List Byte := [q.b0, q.b1, q.b2, q.b3]

/-- `revmem` on four bytes. -/
def reverse (q : Quad) : Quad := ⟨q.b3, q.b2, q.b1, q.b0⟩

@[simp] theorem reverse_reverse (q : Quad) : q.reverse.reverse = q := rfl

@[simp] theorem length_bytes (q : Quad) : q.bytes.length = 4 := rfl

end Quad

/-- The value of an `int` variable that occupies the bytes `q` on a host of byte order `o`. -/
def loadInt (o : Endian) (q : Quad) : Word :=
  match o with
  | .littleEnd => q.b3 ++ q.b2 ++ q.b1 ++ q.b0
  | .bigEnd => q.b0 ++ q.b1 ++ q.b2 ++ q.b3

/-- The bytes of the word `v` stored in byte order `o`. -/
def storeInt (o : Endian) (v : Word) : Quad :=
  match o with
  | .littleEnd =>
    ⟨v.extractLsb' 0 8, v.extractLsb' 8 8, v.extractLsb' 16 8, v.extractLsb' 24 8⟩
  | .bigEnd => ⟨v.extractLsb' 24 8, v.extractLsb' 16 8, v.extractLsb' 8 8, v.extractLsb' 0 8⟩

/-- `rmemcpy` when the `rev` flag is set, `memcpy` otherwise. -/
def readInt (host : Endian) (rev : Bool) (q : Quad) : Word :=
  loadInt host (if rev then q.reverse else q)

theorem extractLsb'_bytes (v : Word) :
    v.extractLsb' 24 8 ++ v.extractLsb' 16 8 ++ v.extractLsb' 8 8 ++ v.extractLsb' 0 8 = v := by
  rw [BitVec.extractLsb'_append_extractLsb'_eq_extractLsb' (by decide),
    BitVec.extractLsb'_append_extractLsb'_eq_extractLsb' (by decide),
    BitVec.extractLsb'_append_extractLsb'_eq_extractLsb' (by decide)]
  exact BitVec.extractLsb'_eq_self

@[simp] theorem loadInt_storeInt (o : Endian) (v : Word) : loadInt o (storeInt o v) = v := by
  cases o <;> exact extractLsb'_bytes v

theorem loadInt_reverse (o : Endian) (q : Quad) : loadInt o q.reverse = loadInt o.other q := by
  cases o <;> rfl

/-- The byte order in which a host reads words under the `rev` flag. -/
def Endian.under (host : Endian) (rev : Bool) : Endian := if rev then host.other else host

theorem readInt_eq (host : Endian) (rev : Bool) (q : Quad) :
    readInt host rev q = loadInt (host.under rev) q := by
  cases rev
  · rfl
  · exact loadInt_reverse host q

/-- The flag that matches the stored byte order makes the host read the stored words. -/
theorem under_eq (host stored : Endian) : host.under (decide (stored ≠ host)) = stored := by
  cases host <;> cases stored <;> rfl

/-! ## Bytes to words -/

/-- The complete groups of four bytes. -/
def quads : List Byte → List Quad
  | b0 :: b1 :: b2 :: b3 :: bs => ⟨b0, b1, b2, b3⟩ :: quads bs
  | _ => []

@[simp] theorem quads_bytes_append (q : Quad) (bs : List Byte) :
    quads (q.bytes ++ bs) = q :: quads bs := rfl

theorem quads_flatMap_bytes (qs : List Quad) : quads (qs.flatMap Quad.bytes) = qs := by
  induction qs with
  | nil => rfl
  | cons q qs ih => rw [List.flatMap_cons, quads_bytes_append, ih]

/-! ## Control words -/

/-- `unpack`: the two-bit codes of a control word, filled from the last one backwards. -/
def unpack (w0 : Word) : ℕ → List (BitVec 2)
  | 0 => []
  | n + 1 => unpack (w0 >>> 2) n ++ [w0.setWidth 2]

@[simp] theorem length_unpack (w0 : Word) (n : ℕ) : (unpack w0 n).length = n := by
  induction n generalizing w0 with
  | zero => rfl
  | succ n ih => simp [unpack, ih]

theorem getElem_unpack (w0 : Word) (n i : ℕ) (hi : i < (unpack w0 n).length) :
    (unpack w0 n)[i] = (w0 >>> (2 * (n - 1 - i))).setWidth 2 := by
  induction n generalizing w0 with
  | zero => exact absurd hi (Nat.not_lt_zero i)
  | succ n ih =>
    rw [length_unpack] at hi
    simp only [unpack]
    by_cases hin : i < n
    · rw [List.getElem_append_left (by rw [length_unpack]; exact hin), ih, ← BitVec.shiftRight_add]
      rw [show 2 + 2 * (n - 1 - i) = 2 * (n + 1 - 1 - i) by omega]
    · obtain rfl : i = n := by omega
      simp

/-- The control word with the given codes, the first one highest. -/
def controlWord (codes : List (BitVec 2)) : Word := BitVec.ofNat 32 (packFields 2 0 codes)

theorem controlWord_concat (codes : List (BitVec 2)) (c : BitVec 2) (h : codes.length < 16) :
    controlWord (codes ++ [c]) >>> 2 = controlWord codes ∧
      (controlWord (codes ++ [c])).setWidth 2 = c := by
  have hlt : packFields 2 0 (codes ++ [c]) < 2 ^ 32 := by
    have := packFields_lt (w := 2) (h := 0) (b := 0) (by decide) (codes ++ [c])
    refine this.trans_le (Nat.pow_le_pow_right (by decide) ?_)
    simp only [List.length_append, List.length_singleton]
    omega
  have hval : packFields 2 0 (codes ++ [c]) = packFields 2 0 codes * 4 + c.toNat := by
    rw [packFields_append]; rfl
  have hc := c.isLt
  constructor
  · apply BitVec.eq_of_toNat_eq
    simp only [controlWord, BitVec.toNat_ushiftRight, BitVec.toNat_ofNat,
      Nat.shiftRight_eq_div_pow]
    omega
  · apply BitVec.eq_of_toNat_eq
    simp only [controlWord, BitVec.toNat_setWidth, BitVec.toNat_ofNat]
    omega

/-- The codes of a control word are read back. -/
theorem unpack_controlWord (codes : List (BitVec 2)) (h : codes.length ≤ 16) :
    unpack (controlWord codes) codes.length = codes := by
  induction codes using List.reverseRecOn with
  | nil => rfl
  | append_singleton codes c ih =>
    simp only [List.length_append, List.length_singleton] at h ⊢
    obtain ⟨hhi, hlo⟩ := controlWord_concat codes c (by omega)
    rw [unpack, hhi, hlo, ih (by omega)]

end PQL
