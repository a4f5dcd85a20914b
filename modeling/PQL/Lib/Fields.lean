import Mathlib

/-!
# Fields of a word

A word is cut into fields of `w` bits, the first field highest, below a header `h`: its value is
`packFields w h fs`.  `packFields_div_mod` reads the `j`-th field from the low end back, and
`shiftLeft_sshiftRight_eq_signExtend` is the usual decoding idiom: shift the field to the top of
the word, then shift it down arithmetically, which also extends its sign.
-/

namespace PQL

theorem toNat_append_eq {m n : ℕ} (x : BitVec m) (y : BitVec n) :
    (x ++ y).toNat = x.toNat * 2 ^ n + y.toNat := by
  rw [BitVec.toNat_append, ← Nat.shiftLeft_add_eq_or_of_lt y.isLt, Nat.shiftLeft_eq]

section Fields

variable {w n : ℕ}

/-- The value of a word with the fields `fs`, first field highest, below the header `h`. -/
def packFields (w h : ℕ) (fs : List (BitVec w)) : ℕ :=
  fs.foldl (fun acc f => acc * 2 ^ w + f.toNat) h

@[simp] theorem packFields_nil (h : ℕ) : packFields w h [] = h := rfl

theorem packFields_cons (h : ℕ) (f : BitVec w) (fs : List (BitVec w)) :
    packFields w h (f :: fs) = packFields w (h * 2 ^ w + f.toNat) fs := rfl

theorem packFields_append (h : ℕ) (fs gs : List (BitVec w)) :
    packFields w h (fs ++ gs) = packFields w (packFields w h fs) gs :=
  List.foldl_append

/-- Fields appended at the low end are dropped by a shift down. -/
theorem packFields_div (h : ℕ) (gs : List (BitVec w)) :
    packFields w h gs / 2 ^ (w * gs.length) = h := by
  induction gs generalizing h with
  | nil => simp
  | cons g gs ih =>
    have hg : (h * 2 ^ w + g.toNat) / 2 ^ w = h := by
      rw [Nat.mul_comm, Nat.mul_add_div (Nat.two_pow_pos w), Nat.div_eq_of_lt g.isLt, Nat.add_zero]
    rw [packFields_cons, List.length_cons, Nat.mul_succ, pow_add, ← Nat.div_div_eq_div_mul, ih, hg]

/-- The field `f` that has the fields `gs` below it is read back by shift and mask. -/
theorem packFields_div_mod (h : ℕ) (fs gs : List (BitVec w)) (f : BitVec w) :
    packFields w h (fs ++ f :: gs) / 2 ^ (w * gs.length) % 2 ^ w = f.toNat := by
  rw [packFields_append, packFields_cons, packFields_div, Nat.mul_comm, Nat.mul_add_mod,
    Nat.mod_eq_of_lt f.isLt]

theorem packFields_lt {h b : ℕ} (hb : h < 2 ^ b) (fs : List (BitVec w)) :
    packFields w h fs < 2 ^ (b + w * fs.length) := by
  induction fs generalizing h b with
  | nil => simpa using hb
  | cons f fs ih =>
    have hf : h * 2 ^ w + f.toNat < 2 ^ (b + w) := by
      have := f.isLt
      calc h * 2 ^ w + f.toNat < (h + 1) * 2 ^ w := by rw [Nat.add_mul]; omega
        _ ≤ 2 ^ b * 2 ^ w := Nat.mul_le_mul_right _ hb
        _ = 2 ^ (b + w) := (pow_add 2 b w).symm
    have := ih hf
    rwa [packFields_cons, List.length_cons, Nat.mul_succ, Nat.add_comm (w * fs.length),
      ← Nat.add_assoc]

/-- The field with `gs` below it, as an extract of the `n`-bit word. -/
theorem extractLsb'_packFields (h : ℕ) (fs gs : List (BitVec w)) (f : BitVec w)
    (hn : w * (gs.length + 1) ≤ n) :
    (BitVec.ofNat n (packFields w h (fs ++ f :: gs))).extractLsb' (w * gs.length) w = f := by
  have hdvd : 2 ^ n = 2 ^ (w * gs.length) * 2 ^ (n - w * gs.length) := by
    rw [← pow_add, Nat.add_sub_cancel' (by rw [Nat.mul_succ] at hn; omega)]
  have hw : w ≤ n - w * gs.length := by rw [Nat.mul_succ] at hn; omega
  apply BitVec.eq_of_toNat_eq
  rw [BitVec.extractLsb'_toNat, BitVec.toNat_ofNat, Nat.shiftRight_eq_div_pow, hdvd,
    Nat.mod_mul_right_div_self, Nat.mod_mod_of_dvd _ (pow_dvd_pow 2 hw)]
  exact packFields_div_mod h fs gs f

/-- Shifting a field to the top of the word and then arithmetically down to the bottom yields the
field with its sign extended. -/
theorem shiftLeft_sshiftRight_eq_signExtend (W : BitVec n) (a : ℕ) (hw : 0 < w) (ha : a + w ≤ n) :
    (W <<< a).sshiftRight (n - w) = (W.extractLsb' (n - a - w) w).signExtend n := by
  apply BitVec.eq_of_getLsbD_eq
  intro i hi
  rw [BitVec.getLsbD_sshiftRight, BitVec.getLsbD_signExtend]
  by_cases hiw : i < w
  · have h₁ : n - w + i < n := by omega
    have h₂ : ¬ n - w + i < a := by omega
    have h₃ : n - w + i - a = n - a - w + i := by omega
    have h₄ : ¬ n ≤ i := by omega
    simp [hi, hiw, h₁, h₂, h₃, h₄, -BitVec.getLsbD_eq_getElem]
  · have h₁ : ¬ n - w + i < n := by omega
    have h₂ : n - 1 - a = n - a - w + (w - 1) := by omega
    have h₃ : ¬ n - 1 < a := by omega
    have h₄ : ¬ n ≤ i := by omega
    have h₅ : n - 1 < n := by omega
    have h₆ : w - 1 < w := by omega
    simp [hi, hiw, h₁, h₄, BitVec.msb_eq_getLsbD_last, h₂, h₃, h₅, h₆, -BitVec.getLsbD_eq_getElem]

/-- The decoding idiom on a packed word: the field `f` above `gs` comes out sign-extended. -/
theorem shiftLeft_sshiftRight_packFields (h a : ℕ) (fs gs : List (BitVec w)) (f : BitVec w)
    (hw : 0 < w) (hn : a + w * (gs.length + 1) = n) :
    ((BitVec.ofNat n (packFields w h (fs ++ f :: gs))) <<< a).sshiftRight (n - w) =
      f.signExtend n := by
  have hmul : w * (gs.length + 1) = w * gs.length + w := Nat.mul_succ _ _
  have hlow : n - a - w = w * gs.length := by omega
  rw [shiftLeft_sshiftRight_eq_signExtend _ a hw (by omega), hlow,
    extractLsb'_packFields h fs gs f (by omega)]

/-- Decoding the fields of a word one after the other yields all of them, sign-extended. -/
theorem map_range_packFields (h a : ℕ) (fs : List (BitVec w)) (hw : 0 < w)
    (hn : a + w * fs.length = n) :
    (List.range fs.length).map (fun d =>
        ((BitVec.ofNat n (packFields w h fs)) <<< (a + d * w)).sshiftRight (n - w)) =
      fs.map (BitVec.signExtend n) := by
  refine List.ext_getElem (by simp) fun i hi hi' => ?_
  have hlen : i < fs.length := by simpa using hi
  have hsplit : fs = fs.take i ++ fs[i] :: fs.drop (i + 1) := by
    rw [← List.drop_eq_getElem_cons hlen, List.take_append_drop]
  have hbelow : (fs.drop (i + 1)).length + 1 = fs.length - i := by rw [List.length_drop]; omega
  have hshift : a + i * w + w * ((fs.drop (i + 1)).length + 1) = n := by
    rw [hbelow, ← hn, Nat.mul_sub, Nat.mul_comm i w]
    have := Nat.mul_le_mul_left w hlen.le
    omega
  have hfield := shiftLeft_sshiftRight_packFields (n := n) h _ (fs.take i) _ fs[i] hw hshift
  rw [← hsplit] at hfield
  rw [List.getElem_map, List.getElem_map, List.getElem_range, hfield]

end Fields

end PQL
