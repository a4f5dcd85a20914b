import PQL.Steim.Memory

/-!
# Frames and blocks

A block of 1024 bytes starts with 64 bytes of packet header; fifteen frames of sixteen words follow.
The first word of a frame is its control word, which gives each of the other fifteen words a code;
the words 1 and 2 of the first frame are the integration constants `x0` and `xn`.

`BlockPacking S` is a packed block, its data words of a type `S` that knows the code and the value
of each word and the differences packed in it (`PackedWord`).  `BlockPacking.bytes` lays it out in
memory and `framesOf_bytes` finds its frames there.  `PacksChain` says that consecutive blocks pack
consecutive runs of samples.
-/

namespace PQL

/-! ## Reading frames -/

/-- The `n` frames that start at the head of a run of words. -/
def framesOf (qs : List Quad) : ℕ → List (List Quad)
  | 0 => []
  | n + 1 => qs.take 16 :: framesOf (qs.drop 16) n

/-- The frames visited by `for (i=64; i<blocksize; i+=64)`. -/
def blockFrames (block : List Byte) (blocksize : ℕ) : List (List Quad) :=
  framesOf (quads (block.drop 64)) ((blocksize - 1) / 64)

/-- The four bytes at offset `i` of a block. -/
def quadAt (block : List Byte) (i : ℕ) : Quad := (quads (block.drop i)).headD ⟨0, 0, 0, 0⟩

/-- The data words of a frame with their codes from the control word. -/
def codedWords (host : Endian) (rev : Bool) (frame : List Quad) : List (BitVec 2 × Quad) :=
  (unpack (readInt host rev (frame.headD ⟨0, 0, 0, 0⟩)) 16).tail.zip frame.tail

theorem framesOf_flatten (fs : List (List Quad)) (h : ∀ f ∈ fs, f.length = 16) :
    framesOf fs.flatten fs.length = fs := by
  induction fs with
  | nil => rfl
  | cons f fs ih =>
    have hf : f.length = 16 := h f List.mem_cons_self
    rw [List.length_cons, framesOf, List.flatten_cons, ← hf, List.take_left, List.drop_left,
      ih fun g hg => h g (List.mem_cons_of_mem f hg)]

theorem length_framesOf (qs : List Quad) (n : ℕ) : (framesOf qs n).length = n := by
  induction n generalizing qs with
  | zero => rfl
  | succ n ih => rw [framesOf, List.length_cons, ih]

/-! ## Packed words -/

/-- A data word of a frame: its code in the control word, its value and the differences it packs. -/
class PackedWord (S : Type) where
  code : S → BitVec 2
  word : S → Word
  diffs : S → List Word
  /-- A word that packs nothing, whatever its value. -/
  unused : Word → S
  code_unused : ∀ v, code (unused v) = 0
  word_unused : ∀ v, word (unused v) = v
  diffs_unused : ∀ v, diffs (unused v) = []

attribute [simp] PackedWord.code_unused PackedWord.word_unused PackedWord.diffs_unused

section Packing

variable {S : Type} [PackedWord S]

/-- The sixteen words of a frame. -/
def frameWords (slots : List S) : List Word :=
  controlWord (0 :: slots.map PackedWord.code) :: slots.map PackedWord.word

theorem length_frameWords (slots : List S) : (frameWords slots).length = slots.length + 1 := by
  simp [frameWords]

/-- A stored frame, read with the matching flag, has the codes and the words it was built from. -/
theorem codedWords_frameWords (host stored : Endian) (slots : List S) (h : slots.length = 15) :
    codedWords host (decide (stored ≠ host)) ((frameWords slots).map (storeInt stored)) =
      slots.map fun s => (PackedWord.code s, storeInt stored (PackedWord.word s)) := by
  have hcodes : unpack (controlWord (0 :: slots.map PackedWord.code)) 16 =
      0 :: slots.map PackedWord.code := by
    have := unpack_controlWord (0 :: slots.map (PackedWord.code (S := S))) (by simp [h])
    simpa [h] using this
  simp only [codedWords, frameWords, List.map_cons, List.headD_cons, List.tail_cons, readInt_eq,
    under_eq, loadInt_storeInt, hcodes, List.map_map]
  rw [List.zip_map']
  rfl

variable (S) in
/-- A packed block of 1024 bytes. -/
structure BlockPacking where
  header : List Byte
  x0 : Word
  xn : Word
  first : List S
  rest : List (List S)
  header_length : header.length = 64
  first_length : first.length = 13
  rest_length : rest.length = 14
  rest_slots : ∀ f ∈ rest, f.length = 15

namespace BlockPacking

variable (b : BlockPacking S)

/-- The data words of the fifteen frames; those of the integration constants pack nothing. -/
def frames : List (List S) :=
  (PackedWord.unused b.x0 :: PackedWord.unused b.xn :: b.first) :: b.rest

/-- The frames as they lie in memory. -/
def quadFrames (o : Endian) : List (List Quad) :=
  b.frames.map fun f => (frameWords f).map (storeInt o)

def bytes (o : Endian) : List Byte :=
  b.header ++ (b.quadFrames o).flatten.flatMap Quad.bytes

/-- The differences of the block, in the order of its words. -/
def diffs : List Word := b.frames.flatten.flatMap PackedWord.diffs

theorem length_of_mem_frames {f : List S} (hf : f ∈ b.frames) : f.length = 15 := by
  rcases List.mem_cons.1 hf with rfl | hf
  · simp [b.first_length]
  · exact b.rest_slots f hf

@[simp] theorem length_frames : b.frames.length = 15 := by simp [frames, b.rest_length]

@[simp] theorem length_quadFrames (o : Endian) : (b.quadFrames o).length = 15 := by
  simp [quadFrames]

theorem length_of_mem_quadFrames {o : Endian} {f : List Quad} (hf : f ∈ b.quadFrames o) :
    f.length = 16 := by
  obtain ⟨g, hg, rfl⟩ := List.mem_map.1 hf
  rw [List.length_map, length_frameWords, b.length_of_mem_frames hg]

/-- Every data word except the integration constants packs differences. -/
theorem length_diffs_le {m : ℕ} (hm : ∀ s : S, (PackedWord.diffs s).length ≤ m) :
    b.diffs.length ≤ 223 * m := by
  have hsum : ∀ l : List S, (l.flatMap PackedWord.diffs).length ≤ l.length * m := by
    intro l
    rw [List.length_flatMap, ← List.length_map (fun s => (PackedWord.diffs s).length)]
    exact List.sum_le_card_nsmul _ _ fun n hn => by
      obtain ⟨s, -, rfl⟩ := List.mem_map.1 hn
      exact hm s
  have hrest : b.rest.flatten.length = 210 := by
    rw [List.length_flatten, List.map_congr_left fun f hf => b.rest_slots f hf, List.map_const',
      List.sum_replicate, b.rest_length]
    rfl
  have hslots := hsum (b.first ++ b.rest.flatten)
  rw [List.length_append, b.first_length, hrest] at hslots
  rw [diffs, frames, List.flatten_cons, List.cons_append, List.cons_append, List.flatMap_cons,
    List.flatMap_cons, PackedWord.diffs_unused, PackedWord.diffs_unused]
  exact hslots

/-- A decoder that walks a 1024-byte block finds the packed frames. -/
theorem blockFrames_bytes (o : Endian) : blockFrames (b.bytes o) 1024 = b.quadFrames o := by
  have h := framesOf_flatten (b.quadFrames o) fun f hf => b.length_of_mem_quadFrames hf
  rw [length_quadFrames] at h
  rw [blockFrames, bytes, List.drop_left' b.header_length, quads_flatMap_bytes]
  exact h

/-- A decoder that reads the words of each frame one by one reads the words packed. -/
theorem flatMap_blockFrames_bytes {α : Type} (host stored : Endian)
    (read : BitVec 2 × Quad → List α) :
    (blockFrames (b.bytes stored) 1024).flatMap
        (fun frame => (codedWords host (decide (stored ≠ host)) frame).flatMap read) =
      b.frames.flatten.flatMap fun s =>
        read (PackedWord.code s, storeInt stored (PackedWord.word s)) := by
  rw [blockFrames_bytes, quadFrames, List.flatMap_map, List.flatten_eq_flatMap, List.flatMap_assoc]
  refine List.flatMap_congr fun f hf => ?_
  rw [codedWords_frameWords host stored f (b.length_of_mem_frames hf), List.flatMap_map]
  rfl

/-- The words at the head of the first frame, after the packet header. -/
theorem quads_drop_bytes (o : Endian) :
    ∃ q qs, quads ((b.bytes o).drop 64) = q :: storeInt o b.x0 :: storeInt o b.xn :: qs := by
  rw [bytes, List.drop_left' b.header_length, quads_flatMap_bytes]
  simp [quadFrames, frames, frameWords]

/-- Dropping whole words from the bytes drops them from the words. -/
theorem quads_drop_four (bs : List Byte) : quads (bs.drop 4) = (quads bs).tail := by
  rcases bs with _ | ⟨b0, _ | ⟨b1, _ | ⟨b2, _ | ⟨b3, bs⟩⟩⟩⟩ <;> simp [quads]

theorem quadAt_x0 (o : Endian) : quadAt (b.bytes o) 68 = storeInt o b.x0 := by
  obtain ⟨q, qs, h⟩ := b.quads_drop_bytes o
  have hd : (b.bytes o).drop 68 = ((b.bytes o).drop 64).drop 4 := by rw [List.drop_drop]
  rw [quadAt, hd, quads_drop_four, h]
  rfl

theorem quadAt_xn (o : Endian) : quadAt (b.bytes o) 72 = storeInt o b.xn := by
  obtain ⟨q, qs, h⟩ := b.quads_drop_bytes o
  have hd : (b.bytes o).drop 72 = (((b.bytes o).drop 64).drop 4).drop 4 := by
    rw [List.drop_drop, List.drop_drop]
  rw [quadAt, hd, quads_drop_four, quads_drop_four, h]
  rfl

end BlockPacking

/-- A block whose data words all fit in the first frame. -/
def BlockPacking.short (x0 xn : Word) (slots : List S) (h : slots.length ≤ 13) :
    BlockPacking S where
  header := List.replicate 64 0
  x0 := x0
  xn := xn
  first := slots ++ List.replicate (13 - slots.length) (PackedWord.unused 0)
  rest := List.replicate 14 (List.replicate 15 (PackedWord.unused 0))
  header_length := List.length_replicate
  first_length := by rw [List.length_append, List.length_replicate]; omega
  rest_length := List.length_replicate
  rest_slots f hf := by rw [List.eq_of_mem_replicate hf, List.length_replicate]

/-! ## Chains of blocks -/

/-- The block packs the samples `xs` that follow the sample `prev`; nothing is said about the first
difference when there is no sample before. -/
structure Packs (prev : Option Word) (b : BlockPacking S) (xs : List Word) : Prop where
  head : xs.head? = some b.x0
  last : xs.getLast? = some b.xn
  length : b.diffs.length = xs.length
  tail : b.diffs.tail = differences b.x0 xs.tail
  first : ∀ p ∈ prev, b.diffs.head? = some (b.x0 - p)

/-- Consecutive blocks, each paired with its samples, pack consecutive runs of samples. -/
def PacksChain (prev : Option Word) : List (BlockPacking S × List Word) → Prop
  | [] => True
  | (b, xs) :: rest => Packs prev b xs ∧ PacksChain xs.getLast? rest

/-- The samples of a packed block are its first one and the integral of the later differences. -/
theorem Packs.samples_eq {prev : Option Word} {b : BlockPacking S} {xs : List Word}
    (h : Packs prev b xs) :
    ∃ d ds, b.diffs = d :: ds ∧ xs = b.x0 :: integrate b.x0 ds := by
  obtain ⟨xs', rfl⟩ := List.head?_eq_some_iff.1 h.head
  rcases hd : b.diffs with _ | ⟨d, ds⟩
  · have := h.length
    simp [hd] at this
  · have := h.tail
    rw [hd, List.tail_cons, List.tail_cons] at this
    exact ⟨d, ds, rfl, by rw [this, integrate_differences]⟩

/-- After a sample, a packed block holds exactly the integral of its differences. -/
theorem Packs.samples_eq_integrate {p : Word} {b : BlockPacking S} {xs : List Word}
    (h : Packs (some p) b xs) : xs = integrate p b.diffs := by
  obtain ⟨d, ds, hd, hxs⟩ := h.samples_eq
  have hfirst := h.first p rfl
  rw [hd, List.head?_cons, Option.some.injEq] at hfirst
  rw [hd, integrate_cons, hfirst, add_sub_cancel, hxs]

end Packing

/-! ## Decoders -/

/-- The samples decoded so far and the last of them, or the value before the first one. -/
structure Decoded where
  data : List Word
  xnot : Word
deriving DecidableEq, Repr

/-- A decoder run over the blocks in order, with `last_x` carried from one call to the next: the
samples of each call and the final `last_x`. -/
def decodeChain (decode : List Byte → Word → List Word × Word) :
    List (List Byte) → Word → List (List Word) × Word
  | [], lastX => ([], lastX)
  | block :: blocks, lastX =>
    let r := decode block lastX
    let rs := decodeChain decode blocks r.2
    (r.1 :: rs.1, rs.2)

end PQL
