import PQL.Lib.Fields

/-!
# Signed fields, by masks

A second way to cut a word into fields: each value is masked to `w` bits, shifted to its place and
or-ed into the word (`setFields`), and read back by a shift, a mask and an exclusive or with the
sign bit (`getField`).  Values that fit in the fields come back (`getField_setFields`).
-/

namespace PQL

section Masks

variable {n : ℕ}

/-- The `w` lowest bits. -/
def fieldMask (n w : ℕ) : BitVec n := (1#n <<< w) - 1#n

theorem toNat_fieldMask {w : ℕ} (hw : w < n) : (fieldMask n w).toNat = 2 ^ w - 1 := by
  have hlt : 2 ^ w < 2 ^ n := Nat.pow_lt_pow_right Nat.one_lt_two hw
  have hone : (1#n).toNat = 1 := by
    rw [BitVec.toNat_ofNat, Nat.mod_eq_of_lt (Nat.one_lt_two_pow (by omega))]
  have hshift : (1#n <<< w).toNat = 2 ^ w := by
    rw [BitVec.toNat_shiftLeft, hone, Nat.shiftLeft_eq, one_mul, Nat.mod_eq_of_lt hlt]
  have hle : 1#n ≤ 1#n <<< w := by
    rw [BitVec.le_def, hone, hshift]
    exact Nat.one_le_two_pow
  rw [fieldMask, BitVec.toNat_sub_of_le hle, hshift, hone]

/-- Masking keeps the lowest bits. -/
theorem and_fieldMask {w : ℕ} (hw : w < n) (x : BitVec n) :
    x &&& fieldMask n w = (x.setWidth w).setWidth n := by
  have hlt : x.toNat % 2 ^ w < 2 ^ n :=
    (Nat.mod_lt _ (Nat.two_pow_pos w)).trans (Nat.pow_lt_pow_right Nat.one_lt_two hw)
  apply BitVec.eq_of_toNat_eq
  rw [BitVec.toNat_and, toNat_fieldMask hw, Nat.and_two_pow_sub_one_eq_mod, BitVec.toNat_setWidth,
    BitVec.toNat_setWidth, Nat.mod_eq_of_lt hlt]

/-! ## Reading a field -/

/-- The field of `width` bits above the `start` lowest ones, its sign extended. -/
def getField (v : BitVec n) (start width : ℕ) : BitVec n :=
  let semask := 1#n <<< (width - 1)
  (((v >>> start) &&& fieldMask n width) ^^^ semask) - semask

theorem xor_two_pow {u k : ℕ} (h : u < 2 ^ k) : u ^^^ 2 ^ k = u + 2 ^ k := by
  have hdiv : (u ^^^ 2 ^ k) / 2 ^ k = 1 := by
    rw [Nat.xor_div_two_pow, Nat.div_eq_of_lt h, Nat.div_self (Nat.two_pow_pos k), Nat.zero_xor]
  have hmod : (u ^^^ 2 ^ k) % 2 ^ k = u := by
    rw [Nat.xor_mod_two_pow, Nat.mod_eq_of_lt h, Nat.mod_self, Nat.xor_zero]
  have hsum := Nat.div_add_mod (u ^^^ 2 ^ k) (2 ^ k)
  rw [hdiv, hmod] at hsum
  omega

/-- Flipping the sign bit and taking it away extends the sign. -/
theorem xor_sub_eq_signExtend {w : ℕ} (hw : 0 < w) (hn : w < n) (f : BitVec w) :
    (f.setWidth n ^^^ (1#n <<< (w - 1))) - 1#n <<< (w - 1) = f.signExtend n := by
  obtain ⟨k, rfl⟩ : ∃ k, w = k + 1 := ⟨w - 1, by omega⟩
  have hf := f.isLt
  have hpow : 2 ^ (k + 1) < 2 ^ n := Nat.pow_lt_pow_right Nat.one_lt_two hn
  have hsucc := Nat.pow_succ 2 k
  have hsemask : 1#n <<< (k + 1 - 1) = BitVec.ofNat n (2 ^ k) := by
    apply BitVec.eq_of_toNat_eq
    rw [BitVec.toNat_shiftLeft, BitVec.toNat_ofNat,
      Nat.mod_eq_of_lt (Nat.one_lt_two_pow (by omega)), Nat.shiftLeft_eq, one_mul,
      Nat.add_sub_cancel, BitVec.toNat_ofNat]
  have hwide : f.setWidth n = BitVec.ofNat n f.toNat := by
    apply BitVec.eq_of_toNat_eq
    rw [BitVec.toNat_setWidth, BitVec.toNat_ofNat]
  have hxor : f.setWidth n ^^^ BitVec.ofNat n (2 ^ k) = BitVec.ofNat n (f.toNat ^^^ 2 ^ k) := by
    apply BitVec.eq_of_toNat_eq
    rw [hwide, BitVec.toNat_xor, BitVec.toNat_ofNat, BitVec.toNat_ofNat, BitVec.toNat_ofNat,
      Nat.xor_mod_two_pow]
  have hint : ((f.toNat ^^^ 2 ^ k : ℕ) : ℤ) - (2 ^ k : ℕ) = f.toInt := by
    rw [BitVec.toInt_eq_toNat_cond]
    by_cases hlow : f.toNat < 2 ^ k
    · rw [if_pos (by omega), xor_two_pow hlow]
      push_cast
      ring
    · -- below the sign bit there is `u`
      obtain ⟨u, hu⟩ : ∃ u, f.toNat = u + 2 ^ k := ⟨f.toNat - 2 ^ k, by omega⟩
      have hlt : u < 2 ^ k := by omega
      have hflip : f.toNat ^^^ 2 ^ k = u := by
        rw [hu, ← xor_two_pow hlt, Nat.xor_assoc, Nat.xor_self, Nat.xor_zero]
      rw [if_neg (by omega), hflip, hu]
      push_cast
      rw [pow_succ]
      ring
  rw [hsemask, hxor, sub_eq_iff_eq_add, BitVec.signExtend, ← hint, ← BitVec.ofInt_natCast,
    ← BitVec.ofInt_natCast, ← BitVec.ofInt_add, sub_add_cancel]

theorem getField_eq {start width : ℕ} (hw : 0 < width) (hn : width < n) (v : BitVec n) :
    getField v start width = (v.extractLsb' start width).signExtend n := by
  have hfield : (v >>> start).setWidth width = v.extractLsb' start width := by
    ext i hi
    simp
  rw [getField, and_fieldMask hn, xor_sub_eq_signExtend hw hn, hfield]

end Masks

/-! ## Writing fields -/

section Fields

variable {n w : ℕ}

/-- The values masked to `w` bits, the first one highest. -/
def setFields (w : ℕ) : List (BitVec n) → BitVec n
  | [] => 0
  | d :: ds => setFields w ds ||| ((d &&& fieldMask n w) <<< (w * ds.length))

theorem getLsbD_setFields_of_le (ds : List (BitVec n)) (hw : w < n) {i : ℕ}
    (hi : w * ds.length ≤ i) : (setFields w ds).getLsbD i = false := by
  induction ds with
  | nil => exact BitVec.getLsbD_zero
  | cons d ds ih =>
    rw [List.length_cons, Nat.mul_succ] at hi
    rw [setFields, BitVec.getLsbD_or, ih (by omega), BitVec.getLsbD_shiftLeft, and_fieldMask hw,
      BitVec.getLsbD_setWidth, BitVec.getLsbD_setWidth, decide_eq_false (p := _ < w) (by omega)]
    simp

/-- The field of a value that has the values `ds` below it. -/
theorem extractLsb'_setFields (hw : w < n) (es : List (BitVec n)) (d : BitVec n)
    (ds : List (BitVec n)) (hn : w * (ds.length + 1) ≤ n) :
    (setFields w (es ++ d :: ds)).extractLsb' (w * ds.length) w = d.setWidth w := by
  induction es with
  | nil =>
    ext i hi
    rw [Nat.mul_succ] at hn
    have hin : w * ds.length + i < n := by omega
    rw [List.nil_append, setFields, BitVec.getElem_extractLsb', BitVec.getLsbD_or,
      getLsbD_setFields_of_le ds hw (by omega), BitVec.getLsbD_shiftLeft, and_fieldMask hw]
    simp [hi, hin, show i < n by omega]
  | cons e es ih =>
    rw [← ih]
    ext i hi
    rw [List.cons_append, setFields, BitVec.getElem_extractLsb', BitVec.getElem_extractLsb',
      BitVec.getLsbD_or, BitVec.getLsbD_shiftLeft]
    have hbelow : w * ds.length + i < w * (es ++ d :: ds).length := by
      rw [List.length_append, List.length_cons]
      calc w * ds.length + i < w * (ds.length + 1) := by rw [Nat.mul_succ]; omega
        _ ≤ w * (es.length + (ds.length + 1)) := Nat.mul_le_mul_left _ (by omega)
    rw [decide_eq_true hbelow]
    simp

/-- A value fits in `w` bits with its sign. -/
def Fits (w : ℕ) (d : BitVec n) : Prop := -2 ^ (w - 1) ≤ d.toInt ∧ d.toInt < 2 ^ (w - 1)

theorem signExtend_setWidth_of_fits (hw : 0 < w) (hn : w ≤ n) {d : BitVec n} (h : Fits w d) :
    (d.setWidth w).signExtend n = d := by
  obtain ⟨k, rfl⟩ : ∃ k, w = k + 1 := ⟨w - 1, by omega⟩
  unfold Fits at h
  rw [Nat.add_sub_cancel] at h
  have hdvd : (2 ^ (k + 1) : ℕ) ∣ 2 ^ n := pow_dvd_pow 2 hn
  have hsucc := pow_succ (2 : ℤ) k
  apply BitVec.eq_of_toInt_eq
  rw [BitVec.toInt_signExtend_of_le hn, BitVec.toInt_setWidth, ← Int.bmod_bmod_of_dvd hdvd,
    ← BitVec.toInt_eq_toNat_bmod]
  apply Int.bmod_eq_of_le_mul_two
  · push_cast
    omega
  · push_cast
    omega

end Fields

end PQL
