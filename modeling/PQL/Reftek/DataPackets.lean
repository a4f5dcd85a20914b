import PQL.Reftek.RT130

/-!
# Data packets

A data packet of an RT130 file holds the samples of one channel of one stream, as they are or
compressed (`Content`).  Read with `last_x` set to `lastX`, a compressed packet gives its samples
exactly if its first difference leads from there to its first sample (`Content.StartsFrom`).
-/

namespace PQL

/-- The bytes of the `short` `v` stored in byte order `o`. -/
def storeShort (o : Endian) (v : BitVec 16) : List Byte :=
  match o with
  | .littleEnd => [v.extractLsb' 0 8, v.extractLsb' 8 8]
  | .bigEnd => [v.extractLsb' 8 8, v.extractLsb' 0 8]

@[simp] theorem length_storeShort (o : Endian) (v : BitVec 16) : (storeShort o v).length = 2 := by
  cases o <;> rfl

/-- The bytes of an array of `int`s. -/
def intBytes (o : Endian) (xs : List Word) : List Byte := xs.flatMap fun x => (storeInt o x).bytes

@[simp] theorem length_intBytes (o : Endian) (xs : List Word) :
    (intBytes o xs).length = 4 * xs.length := by
  rw [intBytes, List.length_flatMap]
  simp only [Quad.length_bytes, List.map_const', List.sum_replicate, smul_eq_mul, mul_comm]

theorem intBytes_injective (o : Endian) : Function.Injective (intBytes o) := by
  intro xs ys h
  have hquads := congrArg quads h
  have hflat : ∀ zs : List Word, quads (intBytes o zs) = zs.map (storeInt o) := fun zs => by
    rw [← quads_flatMap_bytes (zs.map (storeInt o)), List.flatMap_map]
    rfl
  rw [hflat, hflat] at hquads
  have hinj : Function.Injective (storeInt o) := Function.LeftInverse.injective (loadInt_storeInt o)
  exact hinj.list_map hquads

/-! ## Contents -/

/-- The samples of a data packet and how they are stored. -/
inductive Content where
  | form16 (order : Endian) (samples : List (BitVec 16))
  | form32 (order : Endian) (samples : List Word)
  | formC0 (b : BlockPacking Steim1.Slot) (samples : List Word)
  | formC2 (b : BlockPacking Steim2.Slot) (samples : List Word)

namespace Content

def form : Content → Byte
  | form16 .. => 0x16
  | form32 .. => 0x32
  | formC0 .. => 0xc0
  | formC2 .. => 0xc2

/-- The size of a sample. -/
def size : Content → ℕ
  | form16 .. => 2
  | _ => 4

def count : Content → ℕ
  | form16 _ samples => samples.length
  | form32 _ samples | formC0 _ samples | formC2 _ samples => samples.length

/-- The samples as they are to lie in the memory of the host. -/
def memory (host : Endian) : Content → List Byte
  | form16 _ samples => samples.flatMap (storeShort host)
  | form32 _ samples | formC0 _ samples | formC2 _ samples => intBytes host samples

/-- The packet holds the samples. -/
def In (bytes : List Byte) : Content → Prop
  | form16 order samples =>
    (bytes.drop RT130_HEADER_SIZE).take (2 * samples.length) = samples.flatMap (storeShort order)
  | form32 order samples =>
    (bytes.drop RT130_HEADER_SIZE).take (4 * samples.length) = intBytes order samples
  | formC0 b samples => bytes = b.bytes .bigEnd ∧ Packs none b samples
  | formC2 b samples => bytes = b.bytes .bigEnd ∧ Packs none b samples

/-- Samples that are not compressed look as the host stores them. -/
def StoredAs (host : Endian) : Content → Prop
  | form16 order samples => ∀ x ∈ samples, storeShort order x = storeShort host x
  | form32 order samples => ∀ x ∈ samples, storeInt order x = storeInt host x
  | _ => True

/-- The first difference of a compressed packet leads from `lastX` to its first sample. -/
def StartsFrom (lastX : Word) : Content → Prop
  | formC0 b _ => lastX = INT_MIN ∨ b.diffs.head? = some (b.x0 - lastX)
  | formC2 b _ => b.diffs.head? = some (if lastX = INT_MIN then 0 else b.x0 - lastX)
  | _ => True

/-- The last compressed sample after the packet. -/
def lastAfter (lastX : Word) : Content → Word
  | formC0 b _ => b.xn
  | formC2 b _ => b.xn
  | _ => lastX

theorem length_memory (host : Endian) (c : Content) :
    (c.memory host).length = c.size * c.count := by
  cases c with
  | form16 order samples =>
    simp only [memory, size, count, List.length_flatMap, length_storeShort, List.map_const',
      List.sum_replicate, smul_eq_mul, mul_comm]
  | _ => exact length_intBytes host _

theorem size_eq (c : Content) : c.size = 2 ∨ c.size = 4 := by
  cases c with
  | form16 order samples => exact Or.inl rfl
  | _ => exact Or.inr rfl

theorem formSize_form (c : Content) : formSize c.form = c.size := by cases c <;> rfl

end Content

/-- A well-formed data packet. -/
structure DataPacket where
  bytes : List Byte
  content : Content
  length_bytes : bytes.length = RT130_PKT_SIZE
  type : packetType bytes = .DT
  form : rt130DataForm bytes = content.form
  count : rt130NumSamps bytes = content.count
  holds : content.In bytes

/-- The stream and the channel of a packet. -/
def DataPacket.pair (p : DataPacket) : ℕ × ℕ := (rt130StreamNm p.bytes, rt130ChannelNm p.bytes)

/-- A count of four digits is small. -/
theorem rt130NumSamps_le (block : List Byte) : rt130NumSamps block ≤ 16665 := by
  unfold rt130NumSamps sbcdhx
  generalize block.drop 20 = l
  rcases l with _ | ⟨b0, _ | ⟨b1, l⟩⟩
  · decide
  · have := b0.isLt
    simp only [List.take, List.foldl]
    omega
  · have h0 := b0.isLt
    have h1 := b1.isLt
    simp only [List.take, List.foldl]
    omega

/-! ## Decoding a packet -/

/-- The flag tells the decoders that packets are stored high byte first. -/
theorem rt130Rev_eq (host : Endian) : rt130Rev host = decide (Endian.bigEnd ≠ host) := by
  cases host <;> rfl

namespace Steim1

/-- A call on a packed block returns its samples exactly if its first difference starts from
`last_x`, and it always leaves the last sample in `last_x`. -/
theorem steim1_call (host stored : Endian) {b : BlockPacking Slot} {xs : List Word}
    (h : Packs none b xs) (lastX : Word) :
    ((steim1 host (b.bytes stored) lastX 1024 (decide (stored ≠ host))).data = xs ↔
        lastX = INT_MIN ∨ b.diffs.head? = some (b.x0 - lastX)) ∧
      (steim1 host (b.bytes stored) lastX 1024 (decide (stored ≠ host))).lastX = b.xn := by
  obtain ⟨d, ds, hdiffs, hxs⟩ := h.samples_eq
  by_cases hmin : lastX = INT_MIN
  · obtain ⟨hdata, hlast⟩ := steim1_packs host stored h nofun
    rw [Option.getD_none, ← hmin] at hdata hlast
    exact ⟨iff_of_true hdata (Or.inl hmin), hlast⟩
  · have hdata : (steim1 host (b.bytes stored) lastX 1024 (decide (stored ≠ host))).data =
        integrate lastX (d :: ds) := by
      rw [steim1_data, steim1End, steim1Start, blockDiffs_bytes, if_neg hmin, decide_eq_false hmin,
        foldl_putSample _ _ _ (Or.inl rfl), hdiffs]
      rfl
    constructor
    · rw [hdata, hxs, or_iff_right hmin, hdiffs, List.head?_cons, Option.some_inj, integrate_cons,
        List.cons.injEq]
      constructor
      · rintro ⟨hhead, -⟩
        rw [← hhead, add_sub_cancel_left]
      · rintro rfl
        rw [add_sub_cancel]
        exact ⟨rfl, rfl⟩
    · rw [steim1_lastX, ← steim1_data, hdata, length_integrate, List.length_cons,
        if_neg (Nat.succ_ne_zero _), b.quadAt_xn, readInt_eq, under_eq, loadInt_storeInt]

end Steim1

namespace Steim2

/-- The same for Steim-2, where a call that does not return the samples may leave another value. -/
theorem steim2_call (host : Endian) {b : BlockPacking Slot} {xs : List Word}
    (h : Packs none b xs) (lastX : Word) :
    ((steim2 host (b.bytes .bigEnd) lastX 1024 (decide (Endian.bigEnd ≠ host))).1 = xs ↔
        b.diffs.head? = some (if lastX = INT_MIN then 0 else b.x0 - lastX)) ∧
      ((steim2 host (b.bytes .bigEnd) lastX 1024 (decide (Endian.bigEnd ≠ host))).1 = xs →
        (steim2 host (b.bytes .bigEnd) lastX 1024 (decide (Endian.bigEnd ≠ host))).2 = b.xn) := by
  obtain ⟨d, ds, hdiffs, hxs⟩ := h.samples_eq
  have hread : readBlock .bigEnd b = d :: ds := by
    rw [← hdiffs]
    exact (readBlock_eq_iff .bigEnd b).2 nofun
  have hcall : steim2 host (b.bytes .bigEnd) lastX 1024 (decide (Endian.bigEnd ≠ host)) =
      (integrate (if lastX = INT_MIN then b.x0 else lastX) (d :: ds),
        (if lastX = INT_MIN then b.x0 else lastX) + (d :: ds).sum) := by
    rw [steim2_eq, blockDiffs2_bytes, steim2Start, b.quadAt_x0, readInt_eq, under_eq,
      loadInt_storeInt, hread]
  rw [hcall]
  constructor
  · rw [hxs, hdiffs, List.head?_cons, Option.some_inj, integrate_cons, List.cons.injEq]
    split_ifs
    · constructor
      · rintro ⟨hhead, -⟩
        exact left_eq_add.1 hhead.symm
      · rintro rfl
        rw [add_zero]
        exact ⟨rfl, rfl⟩
    · constructor
      · rintro ⟨hhead, -⟩
        rw [← hhead, add_sub_cancel_left]
      · rintro rfl
        rw [add_sub_cancel]
        exact ⟨rfl, rfl⟩
  · intro hdata
    have hlast := h.last
    rw [← hdata] at hlast
    rw [← getLastD_integrate, List.getLastD_eq_getLast?, hlast, Option.getD_some]

end Steim2

end PQL
