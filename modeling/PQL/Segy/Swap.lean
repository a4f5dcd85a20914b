import PQL.Steim.Memory

/-!
# Byte swaps

`swap2byte`, `swap4byte` and `swap4byteF` of `data_endian.c`.  Swapping a number that was loaded
from memory amounts to loading it from the reversed bytes (`swap2byte_loadShort`,
`swap4byte_loadInt`).
-/

namespace PQL

/-- Two bytes at increasing addresses. -/
structure Pair where
  b0 : Byte
  b1 : Byte
deriving DecidableEq, Repr

namespace Pair

def bytes (p : Pair) : List Byte := [p.b0, p.b1]

def reverse (p : Pair) : Pair := ⟨p.b1, p.b0⟩

@[simp] theorem reverse_reverse (p : Pair) : p.reverse.reverse = p := rfl

end Pair

/-- The value of a `short` that occupies the bytes `p` on a host of byte order `o`. -/
def loadShort (o : Endian) (p : Pair) : BitVec 16 :=
  match o with
  | .littleEnd => p.b1 ++ p.b0
  | .bigEnd => p.b0 ++ p.b1

/-- The complete groups of two bytes. -/
def pairs : List Byte → List Pair
  | b0 :: b1 :: bs => ⟨b0, b1⟩ :: pairs bs
  | _ => []

theorem pairs_flatMap_bytes (ps : List Pair) : pairs (ps.flatMap Pair.bytes) = ps := by
  induction ps with
  | nil => rfl
  | cons p ps ih =>
    show p :: pairs (ps.flatMap Pair.bytes) = p :: ps
    rw [ih]

/-! ## Swaps -/

def swap2byte (nValue : BitVec 16) : BitVec 16 := (nValue >>> 8) ||| (nValue <<< 8)

def swap4byte (nValue : Word) : Word :=
  ((nValue &&& 0x000000FF#32) <<< 24) + ((nValue &&& 0x0000FF00#32) <<< 8) +
    ((nValue &&& 0x00FF0000#32) >>> 8) + ((nValue &&& 0xFF000000#32) >>> 24)

/-- The bytes of a `float` are reversed in place and loaded again. -/
def swap4byteF (host : Endian) (nValue : Word) : Word := loadInt host (storeInt host nValue).reverse

theorem swap2byte_append (x y : Byte) : swap2byte (x ++ y) = y ++ x := by
  apply BitVec.eq_of_getLsbD_eq
  intro i hi
  simp only [swap2byte, BitVec.getLsbD_or, BitVec.getLsbD_ushiftRight, BitVec.getLsbD_shiftLeft,
    BitVec.getLsbD_append]
  by_cases h8 : i < 8
  · simp [h8, show ¬ 8 + i < 8 by omega]
  · simp [h8, hi, show i - 8 < 8 by omega, BitVec.getLsbD_of_ge x i (by omega)]

theorem append_and (x0 x1 x2 x3 y0 y1 y2 y3 : Byte) :
    ((x3 ++ x2 ++ x1 ++ x0 : Word) &&& (y3 ++ y2 ++ y1 ++ y0 : Word)) =
      (x3 &&& y3) ++ (x2 &&& y2) ++ (x1 &&& y1) ++ (x0 &&& y0) := by
  have h32 : (x3 ++ x2 : BitVec 16) &&& (y3 ++ y2) = (x3 &&& y3) ++ (x2 &&& y2) :=
    BitVec.and_append
  have h321 : (x3 ++ x2 ++ x1 : BitVec 24) &&& (y3 ++ y2 ++ y1) =
      ((x3 ++ x2 : BitVec 16) &&& (y3 ++ y2)) ++ (x1 &&& y1) := BitVec.and_append
  have h3210 : (x3 ++ x2 ++ x1 ++ x0 : Word) &&& (y3 ++ y2 ++ y1 ++ y0 : Word) =
      ((x3 ++ x2 ++ x1 : BitVec 24) &&& (y3 ++ y2 ++ y1)) ++ (x0 &&& y0) := BitVec.and_append
  rw [h3210, h321, h32]

/-- The masks of `swap4byte` pick one byte each. -/
theorem and_masks (b0 b1 b2 b3 : Byte) :
    (b3 ++ b2 ++ b1 ++ b0) &&& 0x000000FF#32 = 0#8 ++ 0#8 ++ 0#8 ++ b0 ∧
    (b3 ++ b2 ++ b1 ++ b0) &&& 0x0000FF00#32 = 0#8 ++ 0#8 ++ b1 ++ 0#8 ∧
    (b3 ++ b2 ++ b1 ++ b0) &&& 0x00FF0000#32 = 0#8 ++ b2 ++ 0#8 ++ 0#8 ∧
    (b3 ++ b2 ++ b1 ++ b0) &&& 0xFF000000#32 = b3 ++ 0#8 ++ 0#8 ++ 0#8 := by
  have hones : 255#8 = BitVec.allOnes 8 := rfl
  have key := append_and b0 b1 b2 b3
  refine ⟨(key 255#8 0#8 0#8 0#8).trans ?_, (key 0#8 255#8 0#8 0#8).trans ?_,
    (key 0#8 0#8 255#8 0#8).trans ?_, (key 0#8 0#8 0#8 255#8).trans ?_⟩ <;>
    simp only [hones, BitVec.and_zero, BitVec.and_allOnes]

theorem swap4byte_append (b0 b1 b2 b3 : Byte) :
    swap4byte (b3 ++ b2 ++ b1 ++ b0) = b0 ++ b1 ++ b2 ++ b3 := by
  obtain ⟨h0, h1, h2, h3⟩ := and_masks b0 b1 b2 b3
  apply BitVec.eq_of_toNat_eq
  rw [swap4byte, h0, h1, h2, h3]
  simp only [BitVec.toNat_add, BitVec.toNat_shiftLeft, BitVec.toNat_ushiftRight, toNat_append_eq,
    Nat.shiftLeft_eq, Nat.shiftRight_eq_div_pow, BitVec.toNat_ofNat]
  omega

/-- Swapping a loaded number is loading it from the reversed bytes. -/
theorem swap2byte_loadShort (o : Endian) (p : Pair) :
    swap2byte (loadShort o p) = loadShort o p.reverse := by
  cases o <;> exact swap2byte_append _ _

theorem swap4byte_loadInt (o : Endian) (q : Quad) :
    swap4byte (loadInt o q) = loadInt o q.reverse := by
  cases o <;> exact swap4byte_append _ _ _ _

@[simp] theorem swap2byte_swap2byte (v : BitVec 16) : swap2byte (swap2byte v) = v := by
  have hv : v = v.extractLsb' 8 8 ++ v.extractLsb' 0 8 := by
    rw [BitVec.extractLsb'_append_extractLsb'_eq_extractLsb' (by decide)]
    exact BitVec.extractLsb'_eq_self.symm
  rw [hv, swap2byte_append, swap2byte_append]

@[simp] theorem swap4byte_swap4byte (v : Word) : swap4byte (swap4byte v) = v := by
  rw [← loadInt_storeInt .littleEnd v, swap4byte_loadInt, swap4byte_loadInt, Quad.reverse_reverse]

theorem swap4byteF_eq (host : Endian) (v : Word) : swap4byteF host v = swap4byte v := by
  rw [swap4byteF, ← swap4byte_loadInt, loadInt_storeInt]

end PQL
