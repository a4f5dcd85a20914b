import PQL.Lib.Rounding
import PQL.Mseed.RecordHeader
import PQL.Mseed.SteimFormats

/-!
# Sample formats

The samples of a record are numbers of a fixed size, except in the Steim formats.  The decoders
`msr_decode_int16` to `msr_decode_dwwssn` take them one by one from memory (`decodeLoop`).  The
gain-ranged formats give the products that are documented with them (`msrDecodeCdsn_stored`,
`msrDecodeSro_stored`); samples of 24 bits are right only if the highest byte comes first
(`msrDecodeGeoscope24_stored`).
-/

namespace PQL

namespace Libmseed

open ByteOrdered

def DE_ASCII : ℤ := 0
def DE_INT16 : ℤ := 1
def DE_INT32 : ℤ := 3
def DE_FLOAT32 : ℤ := 4
def DE_FLOAT64 : ℤ := 5
def DE_STEIM1 : ℤ := 10
def DE_STEIM2 : ℤ := 11
def DE_GEOSCOPE24 : ℤ := 12
def DE_GEOSCOPE163 : ℤ := 13
def DE_GEOSCOPE164 : ℤ := 14
def DE_CDSN : ℤ := 16
def DE_SRO : ℤ := 30
def DE_DWWSSN : ℤ := 32

/-- A decoded sample. -/
inductive Sample where
  | char (c : Byte)
  | int (v : Word)
  /-- A `float` by its bits. -/
  | float (bits : Word)
  /-- A `float` that was computed. -/
  | scaled (q : ℚ)
  | double (bits : BitVec 64)
deriving DecidableEq

/-! ## The decoders -/

section Decoders

/-- What a decoder leaves: the samples, or none for the result `-1`. -/
abbrev Decoded := Option (List Sample)

variable (host : Endian) (swapflag : Bool)

/-- `n` samples, each from one stored number; none if the memory ends. -/
def decodeLoop {α : Type} (A : ByteOrdered α) (d : α) (sample : α → Option Sample) :
    ℕ → List Byte → Option Decoded
  | 0, _ => some (some [])
  | n + 1, input =>
    (A.load host swapflag d input).bind fun x =>
      match sample x with
      | none => some none
      | some y => (decodeLoop A d sample n (input.drop A.size)).map (Option.map (y :: ·))

/-- The samples that there are and that there is room for. -/
def sampleTurns (samplecount outputlength size : ℤ) : ℕ :=
  min samplecount.toNat (outputlength / size).toNat

/-- The checks of `msr_decode_int16` and of those for `int32_t`, `float` and `double`. -/
def decodeNumbers {α : Type} (A : ByteOrdered α) (d : α) (sample : α → Sample) (size : ℤ)
    (input : List Byte) (samplecount outputlength : ℤ) : Option Decoded :=
  if samplecount ≤ 0 then some (some [])
  else if outputlength ≤ 0 then some none
  else decodeLoop host swapflag A d (fun x => some (sample x))
    (sampleTurns samplecount outputlength size) input

def msrDecodeInt16 : List Byte → ℤ → ℤ → Option Decoded :=
  decodeNumbers host swapflag uint16 0 (fun v => .int (v.signExtend 32)) 4

def msrDecodeInt32 : List Byte → ℤ → ℤ → Option Decoded :=
  decodeNumbers host swapflag uint32 0 .int 4

def msrDecodeFloat32 : List Byte → ℤ → ℤ → Option Decoded :=
  decodeNumbers host swapflag uint32 0 .float 4

def msrDecodeFloat64 : List Byte → ℤ → ℤ → Option Decoded :=
  decodeNumbers host swapflag uint64 0 .double 8

def MAX24 : ℤ := 0x7FFFFF
def MAX12 : ℤ := 0x7FF
def MAX14 : ℤ := 0x1FFF
def MAX16 : ℤ := 0x7FFF

/-- Two's complement with the highest number `max`; a negative number is a large `unsigned long`. -/
def twosComplement (max n : ℤ) : ℤ := if n < 0 ∨ max < n then wrap32 (n - 2 * (max + 1)) else n

/-- `sample32`, filled from three bytes. -/
def geoscopeWord (input : Fin 3 → Byte) : Word :=
  let b := byteAt (List.ofFn input)
  loadInt host (if swapflag then ⟨b 2, b 1, b 0, 0⟩ else ⟨0, b 0, b 1, b 2⟩)

/-- A sample of 24 bits, as a `float`. -/
def geoscope24 (input : Fin 3 → Byte) : Sample :=
  .scaled (roundTo 24 (twosComplement MAX24 (geoscopeWord host swapflag input).toInt))

/-- A sample of 16 bits, with the exponent in the bits of `gainMask`. -/
def geoscope16 (gainMask : BitVec 16) (sint : BitVec 16) : Sample :=
  .scaled (((sint &&& 0x0FFF#16).toNat - 2048 : ℤ) /
    (2 ^ ((sint &&& gainMask) >>> 12).toNat : ℚ))

def msrDecodeGeoscope (input : List Byte) (samplecount outputlength encoding : ℤ) :
    Option Decoded :=
  if samplecount ≤ 0 ∨ outputlength ≤ 0 then some none
  else
    let turns := sampleTurns samplecount outputlength 4
    if encoding = DE_GEOSCOPE24 then
      decodeLoop host false (chars 3) (fun _ => 0) (fun x => some (geoscope24 host swapflag x))
        turns input
    else if encoding = DE_GEOSCOPE163 then
      decodeLoop host swapflag uint16 0 (fun x => some (geoscope16 0x7000#16 x)) turns input
    else if encoding = DE_GEOSCOPE164 then
      decodeLoop host swapflag uint16 0 (fun x => some (geoscope16 0xF000#16 x)) turns input
    else some none

/-- The shift for a gain range of CDSN. -/
def cdsnMult (gainrange : ℕ) : ℕ :=
  if gainrange = 0 then 0 else if gainrange = 1 then 2 else if gainrange = 2 then 4 else 7

def cdsnSample (sint : BitVec 16) : Sample :=
  let mantissa : ℤ := (sint &&& 0x3FFF#16).toNat - MAX14
  .int (BitVec.ofInt 32 mantissa <<< cdsnMult ((sint &&& 0xC000#16) >>> 14).toNat)

def msrDecodeCdsn (input : List Byte) (samplecount outputlength : ℤ) : Option Decoded :=
  if samplecount ≤ 0 then some (some [])
  else decodeLoop host swapflag uint16 0 (fun x => some (cdsnSample x))
    (sampleTurns samplecount outputlength 4) input

/-- The gain range gives an exponent from `0` to `10`. -/
def sroSample (sint : BitVec 16) : Option Sample :=
  let mantissa := twosComplement MAX12 (sint &&& 0x0FFF#16).toNat
  let exponent : ℤ := -((sint &&& 0xF000#16) >>> 12).toNat + 10
  if exponent < 0 ∨ 10 < exponent then none
  else some (.int (BitVec.ofInt 32 (mantissa * 2 ^ exponent.toNat)))

def msrDecodeSro (input : List Byte) (samplecount outputlength : ℤ) : Option Decoded :=
  if samplecount ≤ 0 then some (some [])
  else decodeLoop host swapflag uint16 0 sroSample (sampleTurns samplecount outputlength 4) input

def dwwssnSample (sint : BitVec 16) : Sample :=
  .int (BitVec.ofInt 32 (twosComplement MAX16 sint.toNat))

def msrDecodeDwwssn (input : List Byte) (samplecount outputlength : ℤ) : Option Decoded :=
  if samplecount < 0 then some (some [])
  else decodeLoop host swapflag uint16 0 (fun x => some (dwwssnSample x))
    (sampleTurns samplecount outputlength 4) input

end Decoders

/-! ## Stored samples -/

section Stored

variable {host : Endian} {swapflag : Bool}

variable (host swapflag) in
theorem decodeLoop_put {α : Type} (A : ByteOrdered α) (d : α) (sample : α → Option Sample)
    (xs : List α) (rest : List Byte) :
    decodeLoop host swapflag A d sample xs.length
      ((A.codec (host.under swapflag)).putMany xs ++ rest) = some (xs.mapM sample) := by
  induction xs with
  | nil => rfl
  | cons x xs ih =>
    have hput : (A.codec (host.under swapflag)).putMany (x :: xs) ++ rest =
        (A.codec (host.under swapflag)).put x ++
          ((A.codec (host.under swapflag)).putMany xs ++ rest) := by
      rw [Codec.putMany, List.flatMap_cons, List.append_assoc]
      rfl
    rw [hput, List.length_cons, decodeLoop, A.load_put, Option.bind_some,
      List.drop_left' (A.length_put _ x), ih, List.mapM_cons]
    cases sample x with
    | none => rfl
    | some y => cases xs.mapM sample <;> rfl

theorem sampleTurns_eq {n : ℕ} {size : ℤ} (hsize : 0 < size) :
    sampleTurns n (n * size) size = n := by
  rw [sampleTurns, Int.mul_ediv_cancel _ hsize.ne', Int.toNat_natCast, min_self]

/-- Numbers come back as they were stored. -/
theorem decodeNumbers_put {α : Type} (A : ByteOrdered α) (d : α) (sample : α → Sample) {size : ℤ}
    (hsize : 0 < size) (xs : List α) (rest : List Byte) :
    decodeNumbers host swapflag A d sample size
      ((A.codec (host.under swapflag)).putMany xs ++ rest) xs.length (xs.length * size) =
        some (some (xs.map sample)) := by
  have hmap : xs.mapM (fun x => some (sample x)) = some (xs.map sample) := List.mapM_pure
  unfold decodeNumbers
  cases xs with
  | nil => rfl
  | cons x xs =>
    rw [if_neg (by rw [List.length_cons]; omega),
      if_neg (not_le.2 (mul_pos (by rw [List.length_cons]; omega) hsize)), sampleTurns_eq hsize,
      decodeLoop_put, hmap]

/-! ## Gain ranges -/

theorem toNat_and_low {k : ℕ} {mask : BitVec 16} (hmask : mask.toNat = 2 ^ k - 1) (x : BitVec 16) :
    (x &&& mask).toNat = x.toNat % 2 ^ k := by
  rw [BitVec.toNat_and, hmask, Nat.and_two_pow_sub_one_eq_mod]

theorem toNat_and_high {k j : ℕ} {mask : BitVec 16} (hmask : (mask >>> k).toNat = 2 ^ j - 1)
    (x : BitVec 16) : ((x &&& mask) >>> k).toNat = x.toNat / 2 ^ k % 2 ^ j := by
  rw [BitVec.ushiftRight_and_distrib, toNat_and_low hmask, BitVec.toNat_ushiftRight,
    Nat.shiftRight_eq_div_pow]

/-- The multiplier for a key of CDSN. -/
def cdsnFactor (key : BitVec 2) : ℤ :=
  if key = 0 then 1 else if key = 1 then 4 else if key = 2 then 16 else 128

theorem cdsnFactor_eq (key : BitVec 2) : 2 ^ cdsnMult key.toNat = cdsnFactor key := by
  revert key
  decide

theorem ofInt_shiftLeft (n : ℤ) (k : ℕ) :
    BitVec.ofInt 32 n <<< k = BitVec.ofInt 32 (n * 2 ^ k) := by
  have hpow : BitVec.twoPow 32 k = BitVec.ofInt 32 ((2 ^ k : ℕ) : ℤ) := by
    apply BitVec.eq_of_toNat_eq
    rw [BitVec.ofInt_natCast, BitVec.toNat_ofNat, BitVec.toNat_twoPow]
  rw [BitVec.shiftLeft_eq_mul_twoPow, hpow, ← BitVec.ofInt_mul, Nat.cast_pow, Nat.cast_ofNat]

theorem cdsnSample_append (key : BitVec 2) (mantissa : BitVec 14) :
    cdsnSample (key ++ mantissa) =
      .int (BitVec.ofInt 32 ((mantissa.toNat - 8191) * cdsnFactor key)) := by
  have hlow := toNat_and_low (k := 14) (show (0x3FFF#16).toNat = _ from rfl) (key ++ mantissa)
  have hhigh := toNat_and_high (k := 14) (j := 2)
    (show (0xC000#16 >>> 14).toNat = _ from rfl) (key ++ mantissa)
  have hkey := key.isLt
  have hmantissa := mantissa.isLt
  have hvalue : (key ++ mantissa).toNat = key.toNat * 2 ^ 14 + mantissa.toNat := toNat_append_eq _ _
  rw [hvalue, show (key.toNat * 2 ^ 14 + mantissa.toNat) % 2 ^ 14 = mantissa.toNat by omega] at hlow
  rw [hvalue, show (key.toNat * 2 ^ 14 + mantissa.toNat) / 2 ^ 14 % 2 ^ 2 = key.toNat by omega]
    at hhigh
  unfold cdsnSample
  dsimp only
  rw [hlow, hhigh, ofInt_shiftLeft, cdsnFactor_eq]
  rfl

/-- What a number of `w` bits stands for in two's complement. -/
theorem twosComplement_toNat {w : ℕ} (v : BitVec (w + 1)) (hw : w < 31) :
    twosComplement (2 ^ w - 1) v.toNat = v.toInt := by
  have hlt := v.isLt
  have hpow : 2 ^ w < 2 ^ 31 := Nat.pow_lt_pow_right (by decide) hw
  have hcast : (2 : ℤ) ^ w = ((2 ^ w : ℕ) : ℤ) := by push_cast; rfl
  rw [twosComplement, BitVec.toInt_eq_toNat_cond, hcast]
  rw [Nat.pow_succ] at hlt ⊢
  generalize 2 ^ w = p at hlt hpow ⊢
  by_cases h : v.toNat < p
  · rw [if_neg (by omega), if_pos (by omega)]
  · rw [if_pos (by omega), if_neg (by omega), wrap32_of_inIntRange ⟨by omega, by omega⟩]
    push_cast
    ring

theorem sroSample_append (gain : BitVec 4) (mantissa : BitVec 12) :
    sroSample (gain ++ mantissa) = if gain.toNat ≤ 10 then
      some (.int (BitVec.ofInt 32 (mantissa.toInt * 2 ^ (10 - gain.toNat)))) else none := by
  have hlow := toNat_and_low (k := 12) (show (0x0FFF#16).toNat = _ from rfl) (gain ++ mantissa)
  have hhigh := toNat_and_high (k := 12) (j := 4)
    (show (0xF000#16 >>> 12).toNat = _ from rfl) (gain ++ mantissa)
  have hgain := gain.isLt
  have hmantissa := mantissa.isLt
  have hvalue : (gain ++ mantissa).toNat = gain.toNat * 2 ^ 12 + mantissa.toNat :=
    toNat_append_eq _ _
  rw [hvalue, show (gain.toNat * 2 ^ 12 + mantissa.toNat) % 2 ^ 12 = mantissa.toNat by omega]
    at hlow
  rw [hvalue, show (gain.toNat * 2 ^ 12 + mantissa.toNat) / 2 ^ 12 % 2 ^ 4 = gain.toNat by omega]
    at hhigh
  unfold sroSample
  dsimp only
  rw [hlow, hhigh, show MAX12 = 2 ^ 11 - 1 from rfl, twosComplement_toNat mantissa (by decide)]
  by_cases h : gain.toNat ≤ 10
  · rw [if_neg (by omega), if_pos h, show (-(gain.toNat : ℤ) + 10).toNat = 10 - gain.toNat by omega]
  · rw [if_pos (by omega), if_neg h]

/-- A `DWWSSN` sample is an `int16_t`. -/
theorem dwwssnSample_eq (sint : BitVec 16) : dwwssnSample sint = .int (sint.signExtend 32) := by
  unfold dwwssnSample
  rw [show MAX16 = 2 ^ 15 - 1 from rfl, twosComplement_toNat sint (by decide)]
  rfl

/-! ## Numbers of 24 bits -/

/-- The bytes of a number of 24 bits. -/
def threeBytes (o : Endian) (v : BitVec 24) : Fin 3 → Byte :=
  match o with
  | .littleEnd => ![v.extractLsb' 0 8, v.extractLsb' 8 8, v.extractLsb' 16 8]
  | .bigEnd => ![v.extractLsb' 16 8, v.extractLsb' 8 8, v.extractLsb' 0 8]

variable (host swapflag) in
/-- The host puts the bytes into the word as if the highest one came first. -/
theorem toNat_geoscopeWord (v : BitVec 24) :
    (geoscopeWord host swapflag (threeBytes (host.under swapflag) v)).toNat =
      if host.under swapflag = .bigEnd then v.toNat else v.toNat * 256 := by
  have hlt := v.isLt
  have hbytes : v.toNat = (v.extractLsb' 16 8).toNat * 65536 + (v.extractLsb' 8 8).toNat * 256 +
      (v.extractLsb' 0 8).toNat := by
    simp only [BitVec.extractLsb'_toNat, Nat.shiftRight_eq_div_pow]
    omega
  have hbig : ∀ b0 b1 b2 : Byte, (0#8 ++ b0 ++ b1 ++ b2 : Word).toNat =
      b0.toNat * 65536 + b1.toNat * 256 + b2.toNat := by
    intro b0 b1 b2
    simp only [toNat_append_eq, BitVec.toNat_ofNat]
    omega
  have hlittle : ∀ b0 b1 b2 : Byte, (b0 ++ b1 ++ b2 ++ 0#8 : Word).toNat =
      (b0.toNat * 65536 + b1.toNat * 256 + b2.toNat) * 256 := by
    intro b0 b1 b2
    simp only [toNat_append_eq, BitVec.toNat_ofNat]
    omega
  cases host <;> cases swapflag
  · exact (hlittle _ _ _).trans (by rw [hbytes]; rfl)
  · exact (hbig _ _ _).trans hbytes.symm
  · exact (hbig _ _ _).trans hbytes.symm
  · exact (hlittle _ _ _).trans (by rw [hbytes]; rfl)

/-- The number that is made of three bytes in the highest places. -/
theorem twosComplement_shifted (v : BitVec 24) : ∃ m : ℤ, |m| < 2 ^ 24 ∧
    (m * 2 ^ 8 = v.toInt ↔ v.toNat = 0) ∧
    twosComplement MAX24 (if 2 * (v.toNat * 256) < 2 ^ 32 then ((v.toNat * 256 : ℕ) : ℤ)
      else ((v.toNat * 256 : ℕ) : ℤ) - (2 ^ 32 : ℕ)) = m * 2 ^ 8 := by
  have hlt := v.isLt
  rw [BitVec.toInt_eq_toNat_cond]
  generalize v.toNat = n at hlt ⊢
  by_cases hpos : n < 2 ^ 23
  · rw [if_pos (by omega : 2 * n < 2 ^ 24), if_pos (by omega : 2 * (n * 256) < 2 ^ 32)]
    by_cases hsmall : n < 2 ^ 15
    · rw [twosComplement, if_neg (by unfold MAX24; omega)]
      exact ⟨n, abs_lt.2 (by omega), by omega, by omega⟩
    · rw [twosComplement, if_pos (by unfold MAX24; omega),
        wrap32_of_inIntRange (by unfold MAX24 InIntRange; omega)]
      exact ⟨n - 65536, abs_lt.2 (by omega), by omega, by unfold MAX24; omega⟩
  · rw [if_neg (by omega : ¬ 2 * n < 2 ^ 24), if_neg (by omega : ¬ 2 * (n * 256) < 2 ^ 32),
      twosComplement, if_pos (by unfold MAX24; omega)]
    obtain ⟨k, hk⟩ := wrap32_eq_sub (((n * 256 : ℕ) : ℤ) - (2 ^ 32 : ℕ) - 2 * (MAX24 + 1))
    have hrange := inIntRange_wrap32 (((n * 256 : ℕ) : ℤ) - (2 ^ 32 : ℕ) - 2 * (MAX24 + 1))
    unfold InIntRange at hrange
    unfold MAX24 at hk hrange ⊢
    by_cases hlow : n < 2 ^ 23 + 2 ^ 16
    · exact ⟨n - 65536, abs_lt.2 (by omega), by omega, by omega⟩
    · exact ⟨n - 2 ^ 24 - 65536, abs_lt.2 (by omega), by omega, by omega⟩

theorem geoscope24_eq_iff (v : BitVec 24) :
    geoscope24 host swapflag (threeBytes (host.under swapflag) v) = .scaled v.toInt ↔
      host.under swapflag = .bigEnd ∨ v = 0 := by
  have hword := toNat_geoscopeWord host swapflag v
  have hlt := v.isLt
  have hint := BitVec.toInt_eq_toNat_cond v
  have hzero : v = 0 ↔ v.toNat = 0 := BitVec.toNat_eq.trans Iff.rfl
  rw [hzero]
  unfold geoscope24
  rw [Sample.scaled.injEq, BitVec.toInt_eq_toNat_cond (geoscopeWord _ _ _), hword]
  by_cases ho : host.under swapflag = .bigEnd
  · rw [if_pos ho, if_pos (by omega)]
    have hvalue : twosComplement MAX24 v.toNat = v.toInt :=
      twosComplement_toNat (w := 23) v (by decide)
    rw [hvalue]
    exact iff_of_true (roundTo_intCast (abs_lt.2 (by omega))) (.inl ho)
  · rw [if_neg ho]
    -- a multiple of 256 is not changed by the rounding
    obtain ⟨m, hm, hiff, hvalue⟩ := twosComplement_shifted v
    have hround := roundTo_mul_two_pow 8 hm
    rw [hvalue, Int.cast_mul, Int.cast_pow, Int.cast_ofNat, hround, or_iff_right ho, ← hiff]
    exact_mod_cast Iff.rfl

/-! ## Lists of stored samples -/

theorem mapM_some {α β : Type} (f : α → β) (xs : List α) :
    xs.mapM (fun x => some (f x)) = some (xs.map f) := List.mapM_pure

theorem msrDecodeGeoscope24_eq {vs : List (BitVec 24)} (hne : vs ≠ []) (rest : List Byte) :
    msrDecodeGeoscope host swapflag
      ((vs.flatMap fun v => List.ofFn (threeBytes (host.under swapflag) v)) ++ rest) vs.length
        (vs.length * 4) DE_GEOSCOPE24 = some (some (vs.map fun v =>
          geoscope24 host swapflag (threeBytes (host.under swapflag) v))) := by
  have hbytes : vs.flatMap (fun v => List.ofFn (threeBytes (host.under swapflag) v)) =
      ((chars 3).codec (host.under false)).putMany (vs.map (threeBytes (host.under swapflag))) := by
    rw [Codec.putMany, List.flatMap_map]
    rfl
  have hloop := decodeLoop_put host false (chars 3) (fun _ => 0)
    (fun x => some (geoscope24 host swapflag x)) (vs.map (threeBytes (host.under swapflag))) rest
  have hpos := List.length_pos_of_ne_nil hne
  rw [List.length_map, mapM_some, List.map_map, ← hbytes] at hloop
  unfold msrDecodeGeoscope
  rw [if_neg (by omega), if_pos rfl, sampleTurns_eq (by decide), hloop]
  rfl

/-- Samples of 24 bits are right if and only if the highest byte comes first. -/
theorem msrDecodeGeoscope24_stored {vs : List (BitVec 24)} (hne : vs ≠ []) (rest : List Byte) :
    msrDecodeGeoscope host swapflag
      ((vs.flatMap fun v => List.ofFn (threeBytes (host.under swapflag) v)) ++ rest) vs.length
        (vs.length * 4) DE_GEOSCOPE24 = some (some (vs.map fun v => .scaled v.toInt)) ↔
      host.under swapflag = .bigEnd ∨ ∀ v ∈ vs, v = 0 := by
  rw [msrDecodeGeoscope24_eq hne, Option.some.injEq, Option.some.injEq, List.map_inj_left]
  simp only [geoscope24_eq_iff]
  exact ⟨fun h => or_iff_not_imp_left.2 fun ho v hv => (h v hv).resolve_left ho,
    fun h v hv => h.imp_right fun hzero => hzero v hv⟩

theorem msrDecodeGeoscope24_stored_two : [(-1 : BitVec 24), 2] ≠ [] ∧
    (msrDecodeGeoscope .littleEnd false
      (([(-1 : BitVec 24), 2].flatMap fun v =>
        List.ofFn (threeBytes (Endian.littleEnd.under false) v)) ++ [])
          [(-1 : BitVec 24), 2].length ([(-1 : BitVec 24), 2].length * 4) DE_GEOSCOPE24 =
        some (some ([(-1 : BitVec 24), 2].map fun v => .scaled v.toInt)) ↔
      (Endian.littleEnd.under false = .bigEnd ∨ ∀ v ∈ [(-1 : BitVec 24), 2], v = 0)) :=
  ⟨List.cons_ne_nil _ _, msrDecodeGeoscope24_stored (List.cons_ne_nil _ _) []⟩

theorem msrDecodeCdsn_stored (vs : List (BitVec 2 × BitVec 14)) (rest : List Byte) :
    msrDecodeCdsn host swapflag
      ((uint16.codec (host.under swapflag)).putMany (vs.map fun v => v.1 ++ v.2) ++ rest)
        vs.length (vs.length * 4) = some (some (vs.map fun v =>
          .int (BitVec.ofInt 32 ((v.2.toNat - 8191) * cdsnFactor v.1)))) := by
  have hloop := decodeLoop_put host swapflag uint16 0
    (fun x => some (cdsnSample x)) (vs.map fun v => v.1 ++ v.2) rest
  rw [List.length_map, mapM_some, List.map_map] at hloop
  unfold msrDecodeCdsn
  cases vs with
  | nil => rfl
  | cons v vs =>
    rw [if_neg (by rw [List.length_cons]; omega), sampleTurns_eq (by decide), hloop]
    simp only [Function.comp_def, cdsnSample_append]

/-- One gain beyond `10` is enough for an error. -/
theorem msrDecodeSro_stored (vs : List (BitVec 4 × BitVec 12)) (rest : List Byte) :
    msrDecodeSro host swapflag
      ((uint16.codec (host.under swapflag)).putMany (vs.map fun v => v.1 ++ v.2) ++ rest)
        vs.length (vs.length * 4) = some (if ∀ v ∈ vs, v.1.toNat ≤ 10 then
          some (vs.map fun v => .int (BitVec.ofInt 32 (v.2.toInt * 2 ^ (10 - v.1.toNat))))
        else none) := by
  have hloop := decodeLoop_put host swapflag uint16 0 sroSample
    (vs.map fun v => v.1 ++ v.2) rest
  have hall : (vs.map fun v => v.1 ++ v.2).mapM sroSample = if ∀ v ∈ vs, v.1.toNat ≤ 10 then
      some (vs.map fun v => .int (BitVec.ofInt 32 (v.2.toInt * 2 ^ (10 - v.1.toNat))))
      else none := by
    clear hloop
    induction vs with
    | nil => rw [if_pos fun v hv => absurd hv List.not_mem_nil, List.map_nil, List.mapM_nil]; rfl
    | cons v vs ih =>
      rw [List.map_cons, List.mapM_cons, ih, sroSample_append]
      simp only [List.forall_mem_cons]
      by_cases hv : v.1.toNat ≤ 10
      · by_cases hvs : ∀ v ∈ vs, v.1.toNat ≤ 10
        · rw [if_pos hv, if_pos hvs, if_pos ⟨hv, hvs⟩]
          rfl
        · rw [if_pos hv, if_neg hvs, if_neg fun h => hvs h.2]
          rfl
      · rw [if_neg hv, if_neg fun h : _ ∧ _ => hv h.1]
        rfl
  rw [List.length_map, hall] at hloop
  unfold msrDecodeSro
  cases vs with
  | nil =>
    rw [if_pos (show (([] : List (BitVec 4 × BitVec 12)).length : ℤ) ≤ 0 from le_rfl),
      if_pos fun v hv => absurd hv List.not_mem_nil]
    rfl
  | cons v vs =>
    have hpos : ¬ ((v :: vs).length : ℤ) ≤ 0 := by
      rw [List.length_cons]
      omega
    rw [if_neg hpos, sampleTurns_eq (by decide), hloop]

end Stored

end Libmseed

end PQL
