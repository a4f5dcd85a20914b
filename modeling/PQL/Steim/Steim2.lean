import PQL.Steim.Block

/-!
# Steim-2 decoding

`extractDiffs` reads the differences of a frame and `steim2` adds them up.  Unlike `steim1` it adds
the very first difference too, and it takes the one-byte differences in memory order whatever the
byte order of the words.  So it returns the encoded samples exactly when no block entered with
`last_x == INT_MIN` has a first difference other than zero and, for words stored little-endian, all
words of four one-byte differences read the same backwards (`steim2_inverts_packing_iff`).
-/

namespace PQL

/-! ## The decoder -/

/-- The two-bit code of the `i`-th word of a frame. -/
def currNibble (nibbles : Word) (i : ℕ) : BitVec 2 :=
  ((nibbles.sshiftRight (30 - i * 2)) &&& 3#32).setWidth 2

/-- The `for`-loop formulation of `extractDiffs`. -/
def extractFields (tempInt : Word) (headerSize diffCount bitSize : ℕ) : List Word :=
  (List.range diffCount).map fun d =>
    (tempInt <<< (headerSize + d * bitSize)).sshiftRight ((diffCount - 1) * bitSize + headerSize)

/-- The differences of one word; the plain `char` of the source is signed. -/
def extractWord (host : Endian) (rev : Bool) (nibble : BitVec 2) (q : Quad) : List Word :=
  let tempInt := readInt host rev q
  let dnib := (tempInt.sshiftRight 30) &&& 3#32
  if nibble = 1 then q.bytes.map (BitVec.signExtend 32)
  else if nibble = 2 then
    if dnib = 1 then [(tempInt <<< 2).sshiftRight 2]
    else if dnib = 2 then [(tempInt <<< 2).sshiftRight 17, (tempInt <<< 17).sshiftRight 17]
    else if dnib = 3 then
      [(tempInt <<< 2).sshiftRight 22, (tempInt <<< 12).sshiftRight 22,
        (tempInt <<< 22).sshiftRight 22]
    else []
  else if nibble = 3 then
    if dnib = 0 then extractFields tempInt 2 5 6
    else if dnib = 1 then extractFields tempInt 2 6 5
    else if dnib = 2 then extractFields tempInt 4 7 4
    else []
  else []

/-- `extractDiffs` on one frame. -/
def extractDiffs (host : Endian) (frame : List Quad) (rev : Bool) : List Word :=
  let nibbles := readInt host rev (frame.headD ⟨0, 0, 0, 0⟩)
  (((List.range' 1 15).map (currNibble nibbles)).zip frame.tail).flatMap
    fun cw => extractWord host rev cw.1 cw.2

/-- `X(n) = X(n-1) + d(n)`. -/
def addDiff (s : Decoded) (diff : Word) : Decoded := ⟨s.data ++ [s.xnot + diff], s.xnot + diff⟩

/-- `steim2`: the samples and `*last_x`. -/
def steim2 (host : Endian) (b : List Byte) (lastX : Word) (blocksize : ℕ) (rev : Bool) :
    List Word × Word :=
  let x0 := readInt host rev (quadAt b 68)
  let lastValue := if lastX = INT_MIN then x0 else lastX
  let r := (blockFrames b blocksize).foldl
    (fun s frame => (extractDiffs host frame rev).foldl addDiff s) ⟨[], lastValue⟩
  (r.data, r.xnot)

/-! ## What the loops compute -/

theorem foldl_addDiff (s : Decoded) (ds : List Word) :
    ds.foldl addDiff s = ⟨s.data ++ integrate s.xnot ds, s.xnot + ds.sum⟩ := by
  induction ds generalizing s with
  | nil => simp
  | cons d ds ih =>
    rw [List.foldl_cons, ih, addDiff, integrate_cons, List.sum_cons, List.append_assoc, add_assoc]
    rfl

/-- The differences of all frames of a block. -/
def blockDiffs2 (host : Endian) (rev : Bool) (b : List Byte) (blocksize : ℕ) : List Word :=
  (blockFrames b blocksize).flatMap fun frame => extractDiffs host frame rev

/-- The value that `steim2` starts from. -/
def steim2Start (host : Endian) (b : List Byte) (lastX : Word) (rev : Bool) : Word :=
  if lastX = INT_MIN then readInt host rev (quadAt b 68) else lastX

/-- A call integrates the differences of its block. -/
theorem steim2_eq (host : Endian) (b : List Byte) (lastX : Word) (blocksize : ℕ) (rev : Bool) :
    steim2 host b lastX blocksize rev =
      (integrate (steim2Start host b lastX rev) (blockDiffs2 host rev b blocksize),
        steim2Start host b lastX rev + (blockDiffs2 host rev b blocksize).sum) := by
  rw [steim2, ← List.foldl_flatMap, foldl_addDiff]
  rfl

/-- The codes that `steim2` takes by shift and mask are those that `unpack` lists. -/
theorem map_currNibble (nibbles : Word) :
    (List.range' 1 15).map (currNibble nibbles) = (unpack nibbles 16).tail := by
  refine List.ext_getElem (by simp) fun i hi hi' => ?_
  have hi15 : i < 15 := by simpa using hi
  rw [List.getElem_map, List.getElem_range', List.getElem_tail, getElem_unpack, currNibble]
  apply BitVec.eq_of_getLsbD_eq
  intro j hj
  have hpos : 30 - (1 + i) * 2 = 2 * (14 - i) := by omega
  have h₀ : 2 * (14 - i) < 32 := by omega
  have h₁ : 2 * (14 - i) + 1 < 32 := by omega
  obtain rfl | rfl : j = 0 ∨ j = 1 := by omega
  · simp [BitVec.getLsbD_sshiftRight, hpos, h₀, -BitVec.getLsbD_eq_getElem]
  · simp [BitVec.getLsbD_sshiftRight, hpos, h₁, -BitVec.getLsbD_eq_getElem]

theorem extractDiffs_eq (host : Endian) (frame : List Quad) (rev : Bool) :
    extractDiffs host frame rev =
      (codedWords host rev frame).flatMap fun cw => extractWord host rev cw.1 cw.2 := by
  rw [extractDiffs, codedWords, map_currNibble]

/-! ## How much a call writes -/

/-- The number of differences that the two codes of a word announce. -/
def announced2 (nibble : BitVec 2) (dnib : Word) : ℕ :=
  if nibble = 1 then 4
  else if nibble = 2 then if dnib = 1 then 1 else if dnib = 2 then 2 else if dnib = 3 then 3 else 0
  else if nibble = 3 then if dnib = 0 then 5 else if dnib = 1 then 6 else if dnib = 2 then 7 else 0
  else 0

/-- The number of differences that the codes of a block announce. -/
def steim2Count (host : Endian) (rev : Bool) (b : List Byte) (blocksize : ℕ) : ℕ :=
  (((blockFrames b blocksize).flatMap (codedWords host rev)).map fun cw =>
    announced2 cw.1 (((readInt host rev cw.2).sshiftRight 30) &&& 3#32)).sum

theorem length_extractWord (host : Endian) (rev : Bool) (nibble : BitVec 2) (q : Quad) :
    (extractWord host rev nibble q).length =
      announced2 nibble (((readInt host rev q).sshiftRight 30) &&& 3#32) := by
  unfold extractWord announced2
  simp only []
  split_ifs <;> simp [extractFields]

/-- A call writes as many samples as the codes announce. -/
theorem length_steim2 (host : Endian) (b : List Byte) (lastX : Word) (blocksize : ℕ)
    (rev : Bool) :
    (steim2 host b lastX blocksize rev).1.length = steim2Count host rev b blocksize := by
  have hframes : blockDiffs2 host rev b blocksize =
      ((blockFrames b blocksize).flatMap (codedWords host rev)).flatMap
        fun cw => extractWord host rev cw.1 cw.2 := by
    rw [List.flatMap_assoc]
    exact List.flatMap_congr fun frame _ => extractDiffs_eq host frame rev
  rw [steim2_eq, length_integrate, hframes, List.length_flatMap, steim2Count]
  simp only [length_extractWord]

/-! ## Steim-2 packings -/

namespace Steim2

/-- The seven ways to pack differences in a word, named by count and size. -/
inductive Kind where
  | k4x8
  | k1x30
  | k2x15
  | k3x10
  | k5x6
  | k6x5
  | k7x4
deriving DecidableEq, Repr

namespace Kind

def count : Kind → ℕ
  | k4x8 => 4
  | k1x30 => 1
  | k2x15 => 2
  | k3x10 => 3
  | k5x6 => 5
  | k6x5 => 6
  | k7x4 => 7

def bits : Kind → ℕ
  | k4x8 => 8
  | k1x30 => 30
  | k2x15 => 15
  | k3x10 => 10
  | k5x6 => 6
  | k6x5 => 5
  | k7x4 => 4

def code : Kind → BitVec 2
  | k4x8 => 1
  | k1x30 | k2x15 | k3x10 => 2
  | k5x6 | k6x5 | k7x4 => 3

/-- The bits above the differences: the second code and, for `k7x4`, two unused bits. -/
def headerSize : Kind → ℕ
  | k4x8 => 0
  | k7x4 => 4
  | _ => 2

/-- The second code of a word, in its two highest bits. -/
def dnib : Kind → ℕ
  | k4x8 | k5x6 => 0
  | k1x30 | k6x5 => 1
  | k2x15 | k7x4 => 2
  | k3x10 => 3

def header (pad : BitVec 2) (k : Kind) : ℕ := k.dnib * 2 ^ (k.headerSize - 2) +
  if k = k7x4 then pad.toNat else 0

theorem headerSize_add (k : Kind) : k.headerSize + k.bits * k.count = 32 := by cases k <;> rfl

theorem bits_pos (k : Kind) : 0 < k.bits := by cases k <;> decide

theorem header_lt (pad : BitVec 2) (k : Kind) : k.header pad < 2 ^ k.headerSize := by
  have := pad.isLt
  cases k <;> simp [header, headerSize, dnib]
  omega

theorem header_div (pad : BitVec 2) (k : Kind) :
    k.header pad / 2 ^ (k.headerSize - 2) = k.dnib := by
  have := pad.isLt
  cases k <;> simp [header, headerSize, dnib]
  omega

end Kind

/-- A data word of a Steim-2 frame. -/
inductive Slot where
  | unused (v : Word)
  | packed (k : Kind) (pad : BitVec 2) (fields : List (BitVec k.bits))
      (length_fields : fields.length = k.count)

namespace Slot

def code : Slot → BitVec 2
  | unused _ => 0
  | packed k .. => k.code

def word : Slot → Word
  | unused v => v
  | packed k pad fields _ => BitVec.ofNat 32 (packFields k.bits (k.header pad) fields)

def diffs : Slot → List Word
  | unused _ => []
  | packed _ _ fields _ => fields.map (BitVec.signExtend 32)

instance : PackedWord Slot where
  code := code
  word := word
  diffs := diffs
  unused := unused
  code_unused _ := rfl
  word_unused _ := rfl
  diffs_unused _ := rfl

theorem length_diffs_le (s : Slot) : (PackedWord.diffs s).length ≤ 7 := by
  cases s with
  | unused v => exact Nat.zero_le 7
  | packed k pad fields hlength =>
    show (fields.map (BitVec.signExtend 32)).length ≤ 7
    rw [List.length_map, hlength]
    cases k <;> decide

/-- Four one-byte differences that read the same backwards, or any other word. -/
def Symmetric : Slot → Prop
  | packed .k4x8 _ fields _ => fields.reverse = fields
  | _ => True

/-- The differences that the decoder reads: one-byte differences come in memory order. -/
def readDiffs (stored : Endian) : Slot → List Word
  | unused _ => []
  | packed .k4x8 _ fields _ =>
    match stored with
    | .bigEnd => fields.map (BitVec.signExtend 32)
    | .littleEnd => fields.reverse.map (BitVec.signExtend 32)
  | packed _ _ fields _ => fields.map (BitVec.signExtend 32)

end Slot

theorem sshiftRight_and_three (W : Word) : (W.sshiftRight 30) &&& 3#32 = W >>> 30 := by
  apply BitVec.eq_of_getLsbD_eq
  intro i hi
  by_cases hi2 : i < 2
  · obtain rfl | rfl : i = 0 ∨ i = 1 := by omega
    · simp [BitVec.getLsbD_sshiftRight, -BitVec.getLsbD_eq_getElem]
    · simp [BitVec.getLsbD_sshiftRight, -BitVec.getLsbD_eq_getElem]
  · have h3 : (3#32).getLsbD i = false := by
      have hlt : 3 < 2 ^ i := (show 3 < 2 ^ 2 by decide).trans_le
        (Nat.pow_le_pow_right (by decide) (not_lt.1 hi2))
      rw [BitVec.getLsbD_ofNat, Nat.testBit_lt_two_pow hlt, Bool.and_false]
    have h30 : 32 ≤ 30 + i := by omega
    simp [h3, BitVec.getLsbD_of_ge W _ h30, -BitVec.getLsbD_eq_getElem]

/-- The second code of a word, taken by shift and mask. -/
theorem dnib_packFields {w hs : ℕ} (h : ℕ) (fs : List (BitVec w)) (hs2 : 2 ≤ hs)
    (hn : hs + w * fs.length = 32) (hlt : h < 2 ^ hs) :
    ((BitVec.ofNat 32 (packFields w h fs)).sshiftRight 30) &&& 3#32 =
      BitVec.ofNat 32 (h / 2 ^ (hs - 2)) := by
  have hval : packFields w h fs < 2 ^ 32 := hn ▸ packFields_lt hlt fs
  have hdiv : packFields w h fs / 2 ^ 30 = h / 2 ^ (hs - 2) := by
    have hexp : 30 = w * fs.length + (hs - 2) := by omega
    rw [hexp, pow_add, ← Nat.div_div_eq_div_mul, packFields_div]
  rw [sshiftRight_and_three]
  apply BitVec.eq_of_toNat_eq
  rw [BitVec.toNat_ushiftRight, BitVec.toNat_ofNat, BitVec.toNat_ofNat, Nat.mod_eq_of_lt hval,
    Nat.shiftRight_eq_div_pow, hdiv, Nat.mod_eq_of_lt]
  rw [← hdiv]
  omega

/-- The `for`-loop formulation reads all fields of a word. -/
theorem extractFields_packFields (k : Kind) (pad : BitVec 2) (fields : List (BitVec k.bits))
    (hlen : fields.length = k.count) :
    extractFields (BitVec.ofNat 32 (packFields k.bits (k.header pad) fields)) k.headerSize k.count
      k.bits = fields.map (BitVec.signExtend 32) := by
  have hshift : (k.count - 1) * k.bits + k.headerSize = 32 - k.bits := by cases k <;> rfl
  have hn : k.headerSize + k.bits * fields.length = 32 := by rw [hlen, k.headerSize_add]
  have hmap := map_range_packFields (k.header pad) k.headerSize fields k.bits_pos hn
  rw [extractFields, hshift, ← hmap, hlen]

/-- The two ways in which the source writes the shifts agree. -/
theorem extractWord_eq_extractFields (host : Endian) (rev : Bool) (k : Kind) (hk : k ≠ .k4x8)
    (q : Quad) (hd : ((readInt host rev q).sshiftRight 30) &&& 3#32 = BitVec.ofNat 32 k.dnib) :
    extractWord host rev k.code q =
      extractFields (readInt host rev q) k.headerSize k.count k.bits := by
  simp only [extractWord, hd]
  cases k <;> first | exact absurd rfl hk | rfl

/-- The bytes of a stored word are its one-byte fields, in memory order. -/
theorem bytes_storeInt (stored : Endian) (d0 d1 d2 d3 : Byte) :
    (storeInt stored (BitVec.ofNat 32 (packFields 8 0 [d0, d1, d2, d3]))).bytes =
      match stored with
      | .bigEnd => [d0, d1, d2, d3]
      | .littleEnd => [d3, d2, d1, d0] := by
  have h0 := extractLsb'_packFields (n := 32) 0 [] [d1, d2, d3] d0 (by simp)
  have h1 := extractLsb'_packFields (n := 32) 0 [d0] [d2, d3] d1 (by simp)
  have h2 := extractLsb'_packFields (n := 32) 0 [d0, d1] [d3] d2 (by simp)
  have h3 := extractLsb'_packFields (n := 32) 0 [d0, d1, d2] [] d3 (by simp)
  simp only [List.length_cons, List.length_nil, List.nil_append, List.cons_append, Nat.reduceMul,
    Nat.reduceAdd] at h0 h1 h2 h3
  cases stored <;> simp only [storeInt, Quad.bytes, h0, h1, h2, h3]

namespace Slot

/-- What the decoder reads from a stored word. -/
theorem extractWord_storeInt (host stored : Endian) (s : Slot) :
    extractWord host (decide (stored ≠ host)) s.code (storeInt stored s.word) =
      s.readDiffs stored := by
  have hread : readInt host (decide (stored ≠ host)) (storeInt stored s.word) = s.word := by
    rw [readInt_eq, under_eq, loadInt_storeInt]
  cases s with
  | unused v => rfl
  | packed k pad fields hlen =>
    by_cases hk : k = .k4x8
    · subst hk
      obtain ⟨d0, d1, d2, d3, rfl⟩ := List.length_eq_four.1 hlen
      have hbytes := bytes_storeInt stored d0 d1 d2 d3
      show (storeInt stored _).bytes.map (BitVec.signExtend 32) = _
      rw [show word _ = BitVec.ofNat 32 (packFields 8 0 [d0, d1, d2, d3]) from rfl, hbytes]
      cases stored <;> rfl
    · have hs2 : 2 ≤ k.headerSize := by
        cases k <;> first | exact absurd rfl hk | decide
      have hdnib := dnib_packFields (k.header pad) fields hs2
        (by rw [hlen, k.headerSize_add]) (k.header_lt pad)
      rw [k.header_div] at hdnib
      have hword : word (packed k pad fields hlen) =
        BitVec.ofNat 32 (packFields k.bits (k.header pad) fields) := rfl
      rw [← hword, ← hread] at hdnib
      rw [show code _ = k.code from rfl, extractWord_eq_extractFields _ _ k hk _ hdnib, hread,
        hword, extractFields_packFields k pad fields hlen]
      cases k <;> first | exact absurd rfl hk | rfl

/-- Read in memory order, the differences of a word are a rearrangement of those packed. -/
theorem readDiffs_perm (stored : Endian) (s : Slot) : (s.readDiffs stored).Perm s.diffs := by
  cases s with
  | unused v => exact List.Perm.refl _
  | packed k pad fields hlen =>
    cases k <;> try exact List.Perm.refl _
    cases stored
    · exact (List.reverse_perm fields).map _
    · exact List.Perm.refl _

/-- They are those packed unless the words are stored little-endian and this one is not
symmetric. -/
theorem readDiffs_eq_iff (stored : Endian) (s : Slot) :
    s.readDiffs stored = s.diffs ↔ (stored = .littleEnd → s.Symmetric) := by
  have hinj : Function.Injective (BitVec.signExtend (w := 8) 32) := by
    intro x y hxy
    have := congrArg BitVec.toInt hxy
    rw [BitVec.toInt_signExtend_of_le (by decide),
      BitVec.toInt_signExtend_of_le (by decide)] at this
    exact BitVec.eq_of_toInt_eq this
  cases s with
  | unused v => exact iff_of_true rfl fun _ => trivial
  | packed k pad fields hlen =>
    cases k <;> try exact iff_of_true rfl fun _ => trivial
    cases stored
    · have hmap : fields.reverse.map (BitVec.signExtend 32) = fields.map (BitVec.signExtend 32) ↔
          fields.reverse = fields := (List.map_injective_iff.2 hinj).eq_iff
      exact hmap.trans ⟨fun h _ => h, fun h => h rfl⟩
    · exact iff_of_true rfl nofun

end Slot

/-! ## Blocks -/

/-- The differences that the decoder reads from a packed block. -/
def readBlock (stored : Endian) (b : BlockPacking Slot) : List Word :=
  b.frames.flatten.flatMap (Slot.readDiffs stored)

theorem blockDiffs2_bytes (host stored : Endian) (b : BlockPacking Slot) :
    blockDiffs2 host (decide (stored ≠ host)) (b.bytes stored) 1024 = readBlock stored b := by
  have hread : ∀ s : Slot, extractWord host (decide (stored ≠ host)) (PackedWord.code s)
      (storeInt stored (PackedWord.word s)) = s.readDiffs stored :=
    Slot.extractWord_storeInt host stored
  have h := b.flatMap_blockFrames_bytes host stored
    fun cw => extractWord host (decide (stored ≠ host)) cw.1 cw.2
  simp only [hread] at h
  simp only [blockDiffs2, extractDiffs_eq]
  exact h

theorem readBlock_perm (stored : Endian) (b : BlockPacking Slot) :
    (readBlock stored b).Perm b.diffs :=
  List.Perm.flatMap_left _ fun s _ => s.readDiffs_perm stored

theorem readBlock_eq_iff (stored : Endian) (b : BlockPacking Slot) :
    readBlock stored b = b.diffs ↔
      (stored = .littleEnd → ∀ s ∈ b.frames.flatten, s.Symmetric) := by
  refine (flatMap_eq_flatMap_iff _ _ _ fun s _ => (s.readDiffs_perm stored).length_eq).trans ?_
  constructor
  · intro h hl s hs
    exact (s.readDiffs_eq_iff stored).1 (h s hs) hl
  · intro h s hs
    exact (s.readDiffs_eq_iff stored).2 fun hl => h hl s hs

/-- A block entered with `last_x == INT_MIN` has first difference zero. -/
def FirstDiffZero (prev : Option Word) (b : BlockPacking Slot) : Prop :=
  prev.getD INT_MIN = INT_MIN → b.diffs.head? = some 0

/-- The call on a packed block, `last_x` holding the sample before it or `INT_MIN` when there is
none, returns its samples exactly on this condition. -/
theorem steim2_packs_iff (host stored : Endian) {prev : Option Word} {b : BlockPacking Slot}
    {xs : List Word} (h : Packs prev b xs) :
    (steim2 host (b.bytes stored) (prev.getD INT_MIN) 1024 (decide (stored ≠ host))).1 = xs ↔
      FirstDiffZero prev b ∧ (stored = .littleEnd → ∀ s ∈ b.frames.flatten, s.Symmetric) := by
  obtain ⟨d, ds, hdiffs, hxs⟩ := h.samples_eq
  have hperm : (readBlock stored b).Perm (d :: ds) := hdiffs ▸ readBlock_perm stored b
  rw [steim2_eq, blockDiffs2_bytes, steim2Start, b.quadAt_x0, readInt_eq, under_eq,
    loadInt_storeInt, ← readBlock_eq_iff, FirstDiffZero]
  by_cases hmin : prev.getD INT_MIN = INT_MIN
  · simp only [hmin, if_true, true_imp_iff]
    rw [hxs, integrate_perm_eq_cons_iff _ _ _ _ hperm, hdiffs, List.head?_cons, Option.some_inj]
    exact and_comm
  · simp only [hmin, if_false, false_imp_iff, true_and]
    cases prev with
    | none => exact absurd rfl hmin
    | some p =>
      rw [h.samples_eq_integrate]
      exact (integrate_injective p).eq_iff

/-- A call that returns the samples of its block leaves the last one in `last_x`. -/
theorem steim2_lastX (host stored : Endian) {prev : Option Word} {b : BlockPacking Slot}
    {xs : List Word} (h : Packs prev b xs)
    (hdata : (steim2 host (b.bytes stored) (prev.getD INT_MIN) 1024
      (decide (stored ≠ host))).1 = xs) :
    (steim2 host (b.bytes stored) (prev.getD INT_MIN) 1024 (decide (stored ≠ host))).2 = b.xn := by
  have hlast := h.last
  rw [← hdata, steim2_eq] at hlast
  rw [steim2_eq, ← getLastD_integrate, List.getLastD_eq_getLast?, hlast, Option.getD_some]

/-! ## Chains of blocks -/

/-- Every block entered with `last_x == INT_MIN` has first difference zero. -/
def FirstDiffsZero : Option Word → List (BlockPacking Slot × List Word) → Prop
  | _, [] => True
  | prev, (b, xs) :: rest => FirstDiffZero prev b ∧ FirstDiffsZero xs.getLast? rest

/-- A call of `steim2` as a decoder of one block. -/
def call (host : Endian) (rev : Bool) (block : List Byte) (lastX : Word) : List Word × Word :=
  steim2 host block lastX 1024 rev

theorem decodeChain_call_iff (host stored : Endian) (prev : Option Word)
    (chain : List (BlockPacking Slot × List Word)) (hpacks : PacksChain prev chain) :
    let r := decodeChain (call host (decide (stored ≠ host))) (chain.map fun c => c.1.bytes stored)
      (prev.getD INT_MIN)
    (r.1 = chain.map Prod.snd ↔ FirstDiffsZero prev chain ∧
        (stored = .littleEnd → ∀ c ∈ chain, ∀ s ∈ c.1.frames.flatten, s.Symmetric)) ∧
      (r.1 = chain.map Prod.snd →
        r.2 = ((chain.map Prod.snd).flatten.getLast?).getD (prev.getD INT_MIN)) := by
  induction chain generalizing prev with
  | nil => exact ⟨iff_of_true rfl ⟨trivial, fun _ => nofun⟩, fun _ => rfl⟩
  | cons c chain ih =>
    obtain ⟨b, xs⟩ := c
    obtain ⟨hb, hrest⟩ := hpacks
    have hiff := steim2_packs_iff host stored hb
    by_cases hdata : (call host (decide (stored ≠ host)) (b.bytes stored) (prev.getD INT_MIN)).1
      = xs
    · have hcall : call host (decide (stored ≠ host)) (b.bytes stored) (prev.getD INT_MIN) =
          (xs, b.xn) := Prod.ext hdata (steim2_lastX host stored hb hdata)
      obtain ⟨hzero, hsymm⟩ := hiff.1 hdata
      rw [hb.last] at hrest
      obtain ⟨hrec, hlast⟩ := ih (some b.xn) hrest
      simp only [List.map_cons, decodeChain, hcall, List.cons.injEq, true_and, List.forall_mem_cons,
        FirstDiffsZero, hb.last, hzero]
      refine ⟨hrec.trans ?_, fun h => (hlast h).trans ?_⟩
      · exact ⟨fun ⟨h₁, h₂⟩ => ⟨h₁, fun hl => ⟨hsymm hl, h₂ hl⟩⟩,
          fun ⟨h₁, h₂⟩ => ⟨h₁, fun hl => (h₂ hl).2⟩⟩
      · rw [List.flatten_cons, List.getLast?_append, hb.last]
        cases (chain.map Prod.snd).flatten.getLast? <;> rfl
    · have hne : ∀ ys, (call host (decide (stored ≠ host)) (b.bytes stored)
          (prev.getD INT_MIN)).1 :: ys ≠ xs :: chain.map Prod.snd :=
        fun ys h => hdata (List.cons.inj h).1
      refine ⟨iff_of_false (hne _) fun ⟨hzero, hsymm⟩ => hdata (hiff.2 ⟨hzero.1, fun hl =>
        hsymm hl (b, xs) List.mem_cons_self⟩), fun h => absurd h (hne _)⟩

end Steim2

/-- Decoding with `steim2` inverts a Steim-2 packing of a list of samples exactly when every block
entered with `last_x == INT_MIN` has first difference zero and, stored little-endian, all words of
one-byte differences are symmetric. -/
theorem steim2_inverts_packing_iff (host stored : Endian) (samples : List Word)
    (hne : samples ≠ []) (chain : List (BlockPacking Steim2.Slot × List Word))
    (hsamples : (chain.map Prod.snd).flatten = samples) (hpacks : PacksChain none chain) :
    let r := decodeChain (Steim2.call host (decide (stored ≠ host)))
      (chain.map fun c => c.1.bytes stored) INT_MIN
    (r.1 = chain.map Prod.snd ∧ some r.2 = samples.getLast?) ↔
      Steim2.FirstDiffsZero none chain ∧
        (stored = .littleEnd → ∀ c ∈ chain, ∀ s ∈ c.1.frames.flatten, s.Symmetric) := by
  obtain ⟨hiff, hlast⟩ := Steim2.decodeChain_call_iff host stored none chain hpacks
  obtain ⟨x, hx⟩ := List.getLast?_isSome.2 hne |> Option.isSome_iff_exists.1
  rw [hsamples, hx] at hlast
  rw [hx, ← hiff]
  exact ⟨And.left, fun h => ⟨h, congrArg some (hlast h)⟩⟩

namespace Steim2

/-- Two samples, the first difference zero. -/
def twoSamples : List (BlockPacking Slot × List Word) :=
  [(.short 5 7 [.unused 3, .packed .k2x15 0 [0, 2] rfl] (by decide), [5, 7])]

/-- One sample, its first difference taken from a sample `-2` before the first block. -/
def oneSample : List (BlockPacking Slot × List Word) :=
  [(.short 5 5 [.packed .k1x30 0 [7] rfl] (by decide), [5])]

end Steim2

theorem steim2_inverts_packing_twoSamples :
    let r := decodeChain (Steim2.call .littleEnd true)
      (Steim2.twoSamples.map fun c => c.1.bytes .bigEnd) INT_MIN
    r.1 = [[5, 7]] ∧ some r.2 = some 7 :=
  (steim2_inverts_packing_iff .littleEnd .bigEnd [5, 7] (by decide) Steim2.twoSamples rfl
    ⟨⟨rfl, rfl, rfl, rfl, nofun⟩, trivial⟩).2 ⟨⟨fun _ => rfl, trivial⟩, nofun⟩

/-- The first difference of the first block is added to its first sample. -/
theorem steim2_adds_first_difference :
    PacksChain none Steim2.oneSample ∧ (Steim2.oneSample.map Prod.snd).flatten = [5] ∧
      decodeChain (Steim2.call .littleEnd true)
        (Steim2.oneSample.map fun c => c.1.bytes .bigEnd) INT_MIN = ([[12]], 12) := by
  refine ⟨⟨⟨rfl, rfl, rfl, rfl, nofun⟩, trivial⟩, rfl, ?_⟩
  have hcall :
      ∀ b : BlockPacking Steim2.Slot, Steim2.call .littleEnd true (b.bytes .bigEnd) INT_MIN =
      (integrate b.x0 (Steim2.readBlock .bigEnd b), b.x0 + (Steim2.readBlock .bigEnd b).sum) := by
    intro b
    have hdiffs := Steim2.blockDiffs2_bytes .littleEnd .bigEnd b
    have hx0 := under_eq .littleEnd .bigEnd
    simp only [ne_eq, reduceCtorEq, not_false_eq_true, decide_true] at hdiffs hx0
    rw [Steim2.call, steim2_eq, hdiffs, steim2Start, if_pos rfl, b.quadAt_x0, readInt_eq, hx0,
      loadInt_storeInt]
  simp only [Steim2.oneSample, List.map_cons, List.map_nil, decodeChain, hcall]
  rfl

end PQL
