import PQL.Steim.Block

/-!
# Steim-1 decoding

`doFrame32` and `steim1` decode a block of 1024 bytes.  Whatever the block holds, the samples of a
call are those that `putSample` builds from the differences of its frames (`steim1_data`), and
`putSample` integrates (`foldl_putSample`), leaving out the very first difference when `last_x` is
still `INT_MIN`.  On a packed block the differences read are the differences packed, for every
choice of one-, two- and four-byte differences and for either byte order, so decoding a chain of
blocks returns the encoded samples (`steim1_decodes_chain`).
-/

namespace PQL

/-! ## The decoder -/

/-- The `index`-th byte of a word, sign-extended. -/
def oneByte (word : Word) (index : ℕ) : Word :=
  let shift := index <<< 3
  (word <<< shift).sshiftRight 24

/-- The `index`-th half of a word, sign-extended. -/
def twoByte (word : Word) (index : ℕ) : Word :=
  let shift := index <<< 4
  (word <<< shift).sshiftRight 16

/-- One step of the difference loops of `do_frame32`. -/
def putSample (skipFirst : Bool) (s : Decoded) (diff : Word) : Decoded :=
  let index := s.data.length
  let sample := if !skipFirst || index ≠ 0 then s.xnot + diff else s.xnot
  ⟨s.data ++ [sample], sample⟩

/-- One data word of a frame: what is left of it in memory and its differences.  One- and two-byte
differences are taken from the word after it has been reversed in place. -/
def doWord32 (host : Endian) (rev : Bool) (code : BitVec 2) (q : Quad) : Quad × List Word :=
  if code = 1 then
    let q := if rev then q.reverse else q
    (q, [0, 1, 2, 3].map (oneByte (loadInt host q)))
  else if code = 2 then
    let q := if rev then q.reverse else q
    (q, [0, 1].map (twoByte (loadInt host q)))
  else if code = 3 then (q, [readInt host rev q])
  else (q, [])

/-- The loop of `do_frame32` over the coded data words. -/
def doWords32 (host : Endian) (skipFirst rev : Bool) :
    List (BitVec 2 × Quad) → Decoded → List Quad × Decoded
  | [], s => ([], s)
  | (code, q) :: words, s =>
    let r := doWord32 host rev code q
    let rs := doWords32 host skipFirst rev words (r.2.foldl (putSample skipFirst) s)
    (r.1 :: rs.1, rs.2)

/-- `do_frame32`: the frame as it is left in memory and the samples decoded so far.  A code has two
bits, so the `default:` branch of the source is never taken. -/
def doFrame32 (host : Endian) (frame : List Quad) (s : Decoded) (skipFirst rev : Bool) :
    List Quad × Decoded :=
  let r := doWords32 host skipFirst rev (codedWords host rev frame) s
  (frame.headD ⟨0, 0, 0, 0⟩ :: r.1, r.2)

/-- The loop of `steim1` over the frames of the block. -/
def doFrames32 (host : Endian) (skipFirst rev : Bool) :
    List (List Quad) → Decoded → List Quad × Decoded
  | [], s => ([], s)
  | frame :: frames, s =>
    let r := doFrame32 host frame s skipFirst rev
    let rs := doFrames32 host skipFirst rev frames r.2
    (r.1 ++ rs.1, rs.2)

/-- What a call of `steim1` leaves: the block, the samples and `*last_x`. -/
structure Steim1Result where
  block : List Byte
  data : List Word
  lastX : Word
deriving DecidableEq, Repr

def steim1 (host : Endian) (block : List Byte) (lastX : Word) (blocksize : ℕ) (rev : Bool) :
    Steim1Result :=
  let x0 := readInt host rev (quadAt block 68)
  let xn := readInt host rev (quadAt block 72)
  let skipFirst := decide (lastX = INT_MIN)
  let start := if lastX = INT_MIN then x0 else lastX
  let r := doFrames32 host skipFirst rev (blockFrames block blocksize) ⟨[], start⟩
  let frames := r.1.flatMap Quad.bytes
  { block := block.take 64 ++ frames ++ block.drop (64 + frames.length)
    data := r.2.data
    lastX := if r.2.data.length = 0 then r.2.xnot else xn }

/-! ## What the loops compute -/

/-- The differences that `do_frame32` finds in a frame. -/
def frameDiffs (host : Endian) (rev : Bool) (frame : List Quad) : List Word :=
  (codedWords host rev frame).flatMap fun cw => (doWord32 host rev cw.1 cw.2).2

theorem doWords32_decoded (host : Endian) (skipFirst rev : Bool) (words : List (BitVec 2 × Quad))
    (s : Decoded) :
    (doWords32 host skipFirst rev words s).2 =
      (words.flatMap fun cw => (doWord32 host rev cw.1 cw.2).2).foldl (putSample skipFirst) s := by
  induction words generalizing s with
  | nil => rfl
  | cons cw words ih => rw [doWords32, ih, List.flatMap_cons, List.foldl_append]

theorem doFrame32_decoded (host : Endian) (frame : List Quad) (s : Decoded) (skipFirst rev : Bool) :
    (doFrame32 host frame s skipFirst rev).2 =
      (frameDiffs host rev frame).foldl (putSample skipFirst) s := by
  simp only [doFrame32, doWords32_decoded, frameDiffs]

/-- The differences of all frames of a block. -/
def blockDiffs (host : Endian) (rev : Bool) (block : List Byte) (blocksize : ℕ) : List Word :=
  (blockFrames block blocksize).flatMap (frameDiffs host rev)

/-- The state in which `steim1` starts its loop over the frames. -/
def steim1Start (host : Endian) (block : List Byte) (lastX : Word) (rev : Bool) : Decoded :=
  ⟨[], if lastX = INT_MIN then readInt host rev (quadAt block 68) else lastX⟩

/-- The state in which `steim1` leaves its loop over the frames. -/
def steim1End (host : Endian) (block : List Byte) (lastX : Word) (blocksize : ℕ) (rev : Bool) :
    Decoded :=
  (blockDiffs host rev block blocksize).foldl (putSample (decide (lastX = INT_MIN)))
    (steim1Start host block lastX rev)

theorem doFrames32_decoded (host : Endian) (skipFirst rev : Bool) (frames : List (List Quad))
    (s : Decoded) :
    (doFrames32 host skipFirst rev frames s).2 =
      (frames.flatMap (frameDiffs host rev)).foldl (putSample skipFirst) s := by
  induction frames generalizing s with
  | nil => rfl
  | cons frame frames ih =>
    rw [doFrames32, ih, List.flatMap_cons, List.foldl_append, doFrame32_decoded]

/-- The samples of a call are built from the differences of the block. -/
theorem steim1_data (host : Endian) (block : List Byte) (lastX : Word) (blocksize : ℕ)
    (rev : Bool) :
    (steim1 host block lastX blocksize rev).data =
      (steim1End host block lastX blocksize rev).data := by
  simp only [steim1, steim1End, steim1Start, blockDiffs, doFrames32_decoded]

theorem steim1_lastX (host : Endian) (block : List Byte) (lastX : Word) (blocksize : ℕ)
    (rev : Bool) :
    (steim1 host block lastX blocksize rev).lastX =
      if (steim1End host block lastX blocksize rev).data.length = 0 then
        (steim1End host block lastX blocksize rev).xnot
      else readInt host rev (quadAt block 72) := by
  simp only [steim1, steim1End, steim1Start, blockDiffs, doFrames32_decoded]
  rfl

theorem length_foldl_putSample (skipFirst : Bool) (s : Decoded) (ds : List Word) :
    (ds.foldl (putSample skipFirst) s).data.length = s.data.length + ds.length := by
  induction ds generalizing s with
  | nil => rfl
  | cons d ds ih =>
    rw [List.foldl_cons, ih, List.length_cons]
    simp only [putSample, List.length_append, List.length_singleton]
    omega

/-- Past the first sample, or when nothing is skipped, the loops integrate. -/
theorem foldl_putSample (skipFirst : Bool) (s : Decoded) (ds : List Word)
    (h : skipFirst = false ∨ s.data ≠ []) :
    (ds.foldl (putSample skipFirst) s).data = s.data ++ integrate s.xnot ds := by
  induction ds generalizing s with
  | nil => simp
  | cons d ds ih =>
    have hstep : putSample skipFirst s d = ⟨s.data ++ [s.xnot + d], s.xnot + d⟩ := by
      rcases h with rfl | h
      · simp [putSample]
      · simp [putSample, h]
    rw [List.foldl_cons, hstep, ih _ (Or.inr (by simp)), integrate_cons]
    simp

/-- With `skip_first` set, the first sample is the running value and its difference is ignored. -/
theorem foldl_putSample_skip (x d : Word) (ds : List Word) :
    ((d :: ds).foldl (putSample true) ⟨[], x⟩).data = x :: integrate x ds := by
  have hstep : putSample true ⟨[], x⟩ d = ⟨[x], x⟩ := rfl
  rw [List.foldl_cons, hstep, foldl_putSample _ _ _ (Or.inr (by simp))]
  rfl

/-! ## How much a call reads and writes -/

/-- The number of differences that a code announces. -/
def announced (code : BitVec 2) : ℕ :=
  if code = 1 then 4 else if code = 2 then 2 else if code = 3 then 1 else 0

/-- The number of differences that the control words of a block announce. -/
def steim1Count (host : Endian) (rev : Bool) (block : List Byte) (blocksize : ℕ) : ℕ :=
  (((blockFrames block blocksize).flatMap (codedWords host rev)).map fun cw => announced cw.1).sum

theorem length_doWord32 (host : Endian) (rev : Bool) (code : BitVec 2) (q : Quad) :
    (doWord32 host rev code q).2.length = announced code := by
  unfold doWord32 announced
  split_ifs <;> rfl

/-- A call writes as many samples as the control words announce. -/
theorem length_steim1 (host : Endian) (block : List Byte) (lastX : Word) (blocksize : ℕ)
    (rev : Bool) :
    (steim1 host block lastX blocksize rev).data.length = steim1Count host rev block blocksize := by
  have hframes : blockDiffs host rev block blocksize =
      ((blockFrames block blocksize).flatMap (codedWords host rev)).flatMap
        fun cw => (doWord32 host rev cw.1 cw.2).2 := List.flatMap_assoc.symm
  rw [steim1_data, steim1End, length_foldl_putSample, steim1Start, hframes, List.length_flatMap,
    steim1Count]
  simp only [length_doWord32, List.length_nil, Nat.zero_add]

/-- The words of the frames as a call leaves them. -/
def framesLeft (host : Endian) (rev : Bool) (frames : List (List Quad)) : List Quad :=
  frames.flatMap fun frame => frame.headD ⟨0, 0, 0, 0⟩ ::
    (codedWords host rev frame).map fun cw => (doWord32 host rev cw.1 cw.2).1

theorem doWords32_words (host : Endian) (skipFirst rev : Bool) (words : List (BitVec 2 × Quad))
    (s : Decoded) :
    (doWords32 host skipFirst rev words s).1 =
      words.map fun cw => (doWord32 host rev cw.1 cw.2).1 := by
  induction words generalizing s with
  | nil => rfl
  | cons cw words ih => rw [doWords32, ih, List.map_cons]

theorem doFrames32_words (host : Endian) (skipFirst rev : Bool) (frames : List (List Quad))
    (s : Decoded) :
    (doFrames32 host skipFirst rev frames s).1 = framesLeft host rev frames := by
  induction frames generalizing s with
  | nil => rfl
  | cons frame frames ih =>
    rw [doFrames32, ih, doFrame32, doWords32_words, framesLeft, framesLeft, List.flatMap_cons]

/-- The block that a call leaves does not depend on `last_x`. -/
theorem steim1_block (host : Endian) (block : List Byte) (x y : Word) (blocksize : ℕ)
    (rev : Bool) :
    (steim1 host block x blocksize rev).block = (steim1 host block y blocksize rev).block := by
  simp only [steim1, doFrames32_words]

/-! ## Steim-1 packings -/

namespace Steim1

/-- A data word of a Steim-1 frame. -/
inductive Slot where
  | unused (v : Word)
  | bytes (d0 d1 d2 d3 : BitVec 8)
  | halves (d0 d1 : BitVec 16)
  | whole (d : Word)
deriving DecidableEq, Repr

namespace Slot

def code : Slot → BitVec 2
  | unused _ => 0
  | bytes .. => 1
  | halves .. => 2
  | whole _ => 3

def word : Slot → Word
  | unused v => v
  | bytes d0 d1 d2 d3 => BitVec.ofNat 32 (packFields 8 0 [d0, d1, d2, d3])
  | halves d0 d1 => BitVec.ofNat 32 (packFields 16 0 [d0, d1])
  | whole d => d

def diffs : Slot → List Word
  | unused _ => []
  | bytes d0 d1 d2 d3 => [d0, d1, d2, d3].map (BitVec.signExtend 32)
  | halves d0 d1 => [d0, d1].map (BitVec.signExtend 32)
  | whole d => [d]

instance : PackedWord Slot where
  code := code
  word := word
  diffs := diffs
  unused := unused
  code_unused _ := rfl
  word_unused _ := rfl
  diffs_unused _ := rfl

theorem length_diffs_le (s : Slot) : (PackedWord.diffs s).length ≤ 4 := by
  cases s <;> simp [PackedWord.diffs, diffs]

theorem oneByte_packFields (fs gs : List (BitVec 8)) (f : BitVec 8) (index : ℕ)
    (h : index <<< 3 + 8 * (gs.length + 1) = 32) :
    oneByte (BitVec.ofNat 32 (packFields 8 0 (fs ++ f :: gs))) index = f.signExtend 32 := by
  rw [oneByte]
  exact shiftLeft_sshiftRight_packFields 0 (index <<< 3) fs gs f (by decide) h

theorem twoByte_packFields (fs gs : List (BitVec 16)) (f : BitVec 16) (index : ℕ)
    (h : index <<< 4 + 16 * (gs.length + 1) = 32) :
    twoByte (BitVec.ofNat 32 (packFields 16 0 (fs ++ f :: gs))) index = f.signExtend 32 := by
  rw [twoByte]
  exact shiftLeft_sshiftRight_packFields 0 (index <<< 4) fs gs f (by decide) h

theorem map_oneByte (d0 d1 d2 d3 : BitVec 8) :
    [0, 1, 2, 3].map (oneByte (BitVec.ofNat 32 (packFields 8 0 [d0, d1, d2, d3]))) =
      [d0, d1, d2, d3].map (BitVec.signExtend 32) := by
  have h0 := oneByte_packFields [] [d1, d2, d3] d0 0 rfl
  have h1 := oneByte_packFields [d0] [d2, d3] d1 1 rfl
  have h2 := oneByte_packFields [d0, d1] [d3] d2 2 rfl
  have h3 := oneByte_packFields [d0, d1, d2] [] d3 3 rfl
  simp only [List.map_cons, List.map_nil, List.cons.injEq, and_true]
  exact ⟨h0, h1, h2, h3⟩

theorem map_twoByte (d0 d1 : BitVec 16) :
    [0, 1].map (twoByte (BitVec.ofNat 32 (packFields 16 0 [d0, d1]))) =
      [d0, d1].map (BitVec.signExtend 32) := by
  have h0 := twoByte_packFields [] [d1] d0 0 rfl
  have h1 := twoByte_packFields [d0] [] d1 1 rfl
  simp only [List.map_cons, List.map_nil, List.cons.injEq, and_true]
  exact ⟨h0, h1⟩

/-- The decoder reads from a stored word the differences packed in it. -/
theorem doWord32_storeInt (host stored : Endian) (s : Slot) :
    (doWord32 host (decide (stored ≠ host)) s.code (storeInt stored s.word)).2 = s.diffs := by
  have hload : loadInt host (if decide (stored ≠ host) then (storeInt stored s.word).reverse
      else storeInt stored s.word) = s.word := by
    have h := readInt_eq host (decide (stored ≠ host)) (storeInt stored s.word)
    rw [under_eq, loadInt_storeInt] at h
    exact h
  cases s with
  | unused v => rfl
  | bytes d0 d1 d2 d3 =>
    have hmap := map_oneByte d0 d1 d2 d3
    rw [← show _ = BitVec.ofNat 32 (packFields 8 0 [d0, d1, d2, d3]) from hload] at hmap
    exact hmap
  | halves d0 d1 =>
    have hmap := map_twoByte d0 d1
    rw [← show _ = BitVec.ofNat 32 (packFields 16 0 [d0, d1]) from hload] at hmap
    exact hmap
  | whole d => exact congrArg (fun v => [v]) hload

end Slot

/-- The differences read from a packed block are the differences packed. -/
theorem blockDiffs_bytes (host stored : Endian) (b : BlockPacking Slot) :
    blockDiffs host (decide (stored ≠ host)) (b.bytes stored) 1024 = b.diffs := by
  have hread : ∀ s : Slot, (doWord32 host (decide (stored ≠ host)) (PackedWord.code s)
      (storeInt stored (PackedWord.word s))).2 = PackedWord.diffs s :=
    Slot.doWord32_storeInt host stored
  have h := b.flatMap_blockFrames_bytes host stored
    fun cw => (doWord32 host (decide (stored ≠ host)) cw.1 cw.2).2
  simp only [hread] at h
  exact h

/-- One call on a packed block, `last_x` holding the sample before it or `INT_MIN` when there is
none: the samples of the block, and `last_x` is the last of them. -/
theorem steim1_packs (host stored : Endian) {prev : Option Word} {b : BlockPacking Slot}
    {xs : List Word} (h : Packs prev b xs) (hprev : prev ≠ some INT_MIN) :
    (steim1 host (b.bytes stored) (prev.getD INT_MIN) 1024 (decide (stored ≠ host))).data = xs ∧
      (steim1 host (b.bytes stored) (prev.getD INT_MIN) 1024 (decide (stored ≠ host))).lastX =
        b.xn := by
  obtain ⟨d, ds, hdiffs, hxs⟩ := h.samples_eq
  have hdata : (steim1 host (b.bytes stored) (prev.getD INT_MIN) 1024
      (decide (stored ≠ host))).data = xs := by
    rw [steim1_data, steim1End, steim1Start, blockDiffs_bytes, b.quadAt_x0, readInt_eq, under_eq,
      loadInt_storeInt]
    cases prev with
    | none =>
      rw [hdiffs, hxs]
      exact foldl_putSample_skip b.x0 d ds
    | some p =>
      have hp : p ≠ INT_MIN := fun hp => hprev (congrArg some hp)
      simp only [Option.getD_some, hp, decide_false, if_false]
      rw [foldl_putSample _ _ _ (Or.inl rfl), h.samples_eq_integrate, List.nil_append]
  refine ⟨hdata, ?_⟩
  have hlen : xs.length ≠ 0 := by rw [hxs]; exact Nat.succ_ne_zero _
  rw [steim1_lastX, ← steim1_data, hdata, if_neg hlen, b.quadAt_xn, readInt_eq, under_eq,
    loadInt_storeInt]

/-! ## Chains of blocks -/

/-- A call of `steim1` as a decoder of one block. -/
def call (host : Endian) (rev : Bool) (block : List Byte) (lastX : Word) : List Word × Word :=
  let r := steim1 host block lastX 1024 rev
  (r.data, r.lastX)

/-- The calls on a chain return the samples of its blocks, whatever sample came before it. -/
theorem decodeChain_call (host stored : Endian) (prev : Option Word)
    (chain : List (BlockPacking Slot × List Word)) (hpacks : PacksChain prev chain)
    (hprev : prev ≠ some INT_MIN) (hend : ∀ c ∈ chain, c.1.xn ≠ INT_MIN) :
    let r := decodeChain (call host (decide (stored ≠ host))) (chain.map fun c => c.1.bytes stored)
      (prev.getD INT_MIN)
    r.1 = chain.map Prod.snd ∧
      r.2 = ((chain.map Prod.snd).flatten.getLast?).getD (prev.getD INT_MIN) := by
  induction chain generalizing prev with
  | nil => exact ⟨rfl, rfl⟩
  | cons c chain ih =>
    obtain ⟨b, xs⟩ := c
    obtain ⟨hb, hrest⟩ := hpacks
    obtain ⟨hdata, hlast⟩ := steim1_packs host stored hb hprev
    have hxn : b.xn ≠ INT_MIN := hend (b, xs) List.mem_cons_self
    rw [hb.last] at hrest
    obtain ⟨hdatas, hlasts⟩ := ih (some b.xn) hrest (fun h => hxn (Option.some.inj h))
      fun c hc => hend c (List.mem_cons_of_mem _ hc)
    have hcall : call host (decide (stored ≠ host)) (b.bytes stored) (prev.getD INT_MIN) =
        (xs, b.xn) := by rw [call, hdata, hlast]
    simp only [List.map_cons, decodeChain, hcall]
    refine ⟨congrArg _ hdatas, hlasts.trans ?_⟩
    rw [List.flatten_cons, List.getLast?_append, hb.last]
    cases (chain.map Prod.snd).flatten.getLast? <;> rfl

end Steim1

/-- Decoding with `steim1` inverts every Steim-1 packing of a list of samples. -/
theorem steim1_inverts_packing (host stored : Endian) (samples : List Word) (hne : samples ≠ [])
    (chain : List (BlockPacking Steim1.Slot × List Word))
    (hsamples : (chain.map Prod.snd).flatten = samples) (hpacks : PacksChain none chain)
    (hend : ∀ c ∈ chain, c.1.xn ≠ INT_MIN) :
    let r := decodeChain (Steim1.call host (decide (stored ≠ host)))
      (chain.map fun c => c.1.bytes stored) INT_MIN
    r.1 = chain.map Prod.snd ∧ some r.2 = samples.getLast? := by
  obtain ⟨hdata, hlast⟩ := Steim1.decodeChain_call host stored none chain hpacks nofun hend
  refine ⟨hdata, ?_⟩
  obtain ⟨x, hx⟩ := List.getLast?_isSome.2 hne |> Option.isSome_iff_exists.1
  rw [hx]
  rw [hsamples, hx] at hlast
  exact congrArg some hlast

namespace Steim1

/-- Two blocks for the samples `5, 7, 300, 299`, the second one after the first. -/
def twoBlocks : List (BlockPacking Slot × List Word) :=
  [(.short 5 300 [.halves 9 2, .unused 7, .whole 293] (by decide), [5, 7, 300]),
    (.short 299 299 [.whole (-1)] (by decide), [299])]

end Steim1

theorem steim1_inverts_packing_twoBlocks :
    let r := decodeChain (Steim1.call .littleEnd true)
      (Steim1.twoBlocks.map fun c => c.1.bytes .bigEnd) INT_MIN
    r.1 = [[5, 7, 300], [299]] ∧ some r.2 = some 299 :=
  steim1_inverts_packing .littleEnd .bigEnd [5, 7, 300, 299] (by decide) Steim1.twoBlocks rfl
    ⟨⟨rfl, rfl, rfl, rfl, nofun⟩, ⟨rfl, rfl, rfl, rfl, fun p hp => by
      obtain rfl : 300 = p := Option.some.inj hp
      rfl⟩, trivial⟩
    (by intro c hc
        rcases List.mem_cons.1 hc with rfl | hc
        · decide
        · rw [List.mem_singleton.1 hc]; decide)

end PQL
