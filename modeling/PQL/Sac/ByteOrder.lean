import PQL.Sac.Names

/-!
# The byte order of a SAC file

A SAC file and its copy with all numbers and samples reversed are told apart by a number that is the
same in every header, and decode to the same header and samples.  They give the same trace, whatever
lies in memory behind the header, exactly if the names do not run on behind it
(`sac_byteOrder_iff`).
-/

namespace PQL

namespace Sac

/-! ## Files of the other byte order -/

/-- All complete groups of four bytes reversed. -/
def swapQuads : List Byte → List Byte
  | b0 :: b1 :: b2 :: b3 :: bs => b3 :: b2 :: b1 :: b0 :: swapQuads bs
  | bs => bs

@[simp] theorem length_swapQuads (bs : List Byte) : (swapQuads bs).length = bs.length := by
  induction bs using swapQuads.induct with
  | case1 b0 b1 b2 b3 bs ih => simp [swapQuads, ih]
  | case2 bs h => rw [swapQuads]; exact h

theorem quads_swapQuads (bs : List Byte) : quads (swapQuads bs) = (quads bs).map Quad.reverse := by
  induction bs using swapQuads.induct with
  | case1 b0 b1 b2 b3 bs ih => simp [swapQuads, quads, ih, Quad.reverse]
  | case2 bs h =>
    rw [swapQuads, quads]
    · rfl
    all_goals exact h

/-- The file with every number of the header and every sample reversed. -/
def swapFile (bytes : List Byte) : List Byte :=
  swapQuads (bytes.take 440) ++ (bytes.drop 440).take 192 ++ swapQuads (bytes.drop 632)

/-- A file in the byte order of the host. -/
structure ValidSac (host : Endian) (bytes : List Byte) : Prop where
  header : 632 ≤ bytes.length
  plausibleHead : Plausible (SacHead.read host bytes)
  delta : (SacHead.read host bytes).delta ≠ some 0

instance (host : Endian) (bytes : List Byte) : Decidable (ValidSac host bytes) :=
  decidable_of_iff (632 ≤ bytes.length ∧ Plausible (SacHead.read host bytes) ∧
      (SacHead.read host bytes).delta ≠ some 0)
    ⟨fun ⟨h₀, h₁, h₂⟩ => ⟨h₀, h₁, h₂⟩, fun ⟨h₀, h₁, h₂⟩ => ⟨h₀, h₁, h₂⟩⟩

/-- Both files are taken for what they are and give the same trace and the same samples. -/
def SameTrace (F : FloatArith) (host : Endian) (behind behind' bytes : List Byte) : Prop :=
  ∃ t t' : SacTrace, idSac F host behind bytes = some t ∧ t.endianSwap = false ∧
    idSac F host behind' (swapFile bytes) = some t' ∧ t' = { t with endianSwap := true } ∧
    getSacData host t'.endianSwap t'.numSamples (swapFile bytes) =
      getSacData host t.endianSwap t.numSamples bytes

variable {host : Endian} {bytes : List Byte}

theorem take_swapFile (h : 632 ≤ bytes.length) :
    (swapFile bytes).take 440 = swapQuads (bytes.take 440) := by
  rw [swapFile, List.append_assoc]
  apply List.take_left'
  rw [length_swapQuads, List.length_take]
  omega

theorem drop_swapFile (h : 632 ≤ bytes.length) :
    (swapFile bytes).drop 632 = swapQuads (bytes.drop 632) := by
  apply List.drop_left'
  rw [List.length_append, length_swapQuads, List.length_take, List.length_take, List.length_drop]
  omega

theorem chars_swapFile (h : 632 ≤ bytes.length) :
    ((swapFile bytes).drop 440).take 192 = (bytes.drop 440).take 192 := by
  rw [swapFile, List.append_assoc, List.drop_left', List.take_left']
  · rw [List.length_take, List.length_drop]
    omega
  · rw [length_swapQuads, List.length_take]
    omega

theorem length_swapFile (h : 632 ≤ bytes.length) : (swapFile bytes).length = bytes.length := by
  simp only [swapFile, List.length_append, length_swapQuads, List.length_take, List.length_drop]
  omega

/-- The header of the copy is the header with its numbers swapped. -/
theorem read_swapFile (h : 632 ≤ bytes.length) :
    SacHead.read host (swapFile bytes) = (SacHead.read host bytes).swapData := by
  unfold SacHead.read SacHead.swapData
  rw [take_swapFile h, chars_swapFile h, quads_swapQuads, List.map_map, List.map_map]
  simp only [Function.comp_def, swap4byte_loadInt]

theorem swapData_swapData (h : SacHead) : h.swapData.swapData = h := by
  simp [SacHead.swapData, Function.comp_def]

/-! ## The byte order is found -/

theorem int_swapData (h : SacHead) (i : ℕ) :
    h.swapData.int i = (swap4byte (h.words.getD i 0)).toInt := by
  have hzero : swap4byte 0 = 0 := by decide
  unfold SacHead.int SacHead.swapData
  rw [List.getD_eq_getElem?_getD, List.getElem?_map, List.getD_eq_getElem?_getD]
  cases h.words[i]? with
  | none => exact congrArg BitVec.toInt hzero.symm
  | some w => rfl

theorem int_swapChecked (h : SacHead) {i : ℕ} (hi : i ∈ [70, 71, 72, 73, 74, 75, 88]) :
    (swapChecked h.swapData).int i = h.int i := by
  unfold SacHead.int swapChecked SacHead.swapData
  rw [List.getD_eq_getElem?_getD, List.getElem?_mapIdx, List.getElem?_map,
    List.getD_eq_getElem?_getD]
  cases h.words[i]? with
  | none => rfl
  | some w =>
    simp only [Option.map_some, Option.getD_some, if_pos hi, swap4byte_swap4byte]

/-- A number that is the same in all headers tells them from swapped ones. -/
theorem not_plausible_swapData {h : SacHead} (hp : Plausible h) : ¬Plausible h.swapData := by
  intro hs
  have hword : h.words.getD 88 0 = BitVec.ofInt 32 (-12345) := by
    apply BitVec.eq_of_toInt_eq
    exact hp.2.trans (by decide)
  have hswapped := hs.2
  rw [SacHead.unused16, int_swapData, hword] at hswapped
  exact absurd hswapped (by decide)

theorem plausible_swapChecked {h : SacHead} (hp : Plausible h) :
    Plausible (swapChecked h.swapData) := by
  have hint : ∀ i ∈ [70, 71, 72, 73, 74, 75, 88], (swapChecked h.swapData).int i = h.int i :=
    fun i hi => int_swapChecked h hi
  simp only [List.forall_mem_cons, List.not_mem_nil, false_imp_iff, implies_true, and_true] at hint
  obtain ⟨h₀, h₁, h₂, h₃, h₄, h₅, h₆⟩ := hint
  unfold Plausible SacHead.nzyear SacHead.nzjday SacHead.nzhour SacHead.nzmin SacHead.nzsec
    SacHead.nzmsec SacHead.unused16
  rw [h₀, h₁, h₂, h₃, h₄, h₅, h₆]
  exact hp

theorem checkEndian_swapData {h : SacHead} (hp : Plausible h) :
    checkEndian h = some false ∧ checkEndian h.swapData = some true :=
  ⟨if_pos hp, by rw [checkEndian, if_neg (not_plausible_swapData hp),
    if_pos (plausible_swapChecked hp)]⟩

/-! ## Traces -/

variable {F : FloatArith}

theorem idSac_of_valid (hv : ValidSac host bytes) (behind : List Byte) :
    idSac F host behind bytes = getSacHedr F behind false (SacHead.read host bytes) := by
  rw [idSac, if_neg (not_lt.2 hv.header), (checkEndian_swapData hv.plausibleHead).1]
  rfl

theorem loadHead_swapFile (h : 632 ≤ bytes.length) :
    loadHead host true (swapFile bytes) = SacHead.read host bytes := by
  rw [loadHead, if_pos rfl, read_swapFile h, swapData_swapData]

theorem idSac_swapFile (hv : ValidSac host bytes) (behind : List Byte) :
    idSac F host behind (swapFile bytes) =
      getSacHedr F behind true (SacHead.read host bytes) := by
  have hlen : ¬(swapFile bytes).length < 632 := by
    rw [length_swapFile hv.header]
    exact not_lt.2 hv.header
  rw [idSac, if_neg hlen, read_swapFile hv.header, (checkEndian_swapData hv.plausibleHead).2,
    Option.bind_some, loadHead_swapFile hv.header]

/-- The samples do not depend on the byte order of the file. -/
theorem getSacData_swapFile (h : 632 ≤ bytes.length) (numSamples : ℤ) :
    getSacData host true numSamples (swapFile bytes) = getSacData host false numSamples bytes := by
  have hlen : ¬bytes.length < 632 := not_lt.2 h
  have hswap : ∀ q : Quad, swap4byte (loadInt host q.reverse) = loadInt host q := fun q => by
    rw [swap4byte_loadInt, Quad.reverse_reverse]
  rw [getSacData, getSacData, length_swapFile h, if_neg hlen, if_neg hlen, loadHead_swapFile h,
    drop_swapFile h, quads_swapQuads]
  simp [loadHead, ← List.map_take, Function.comp_def, hswap]

theorem getSacHedr_true (behind : List Byte) (h : SacHead) :
    getSacHedr F behind true h =
      (getSacHedr F behind false h).map fun t => { t with endianSwap := true } := by
  unfold getSacHedr
  split_ifs
  · rfl
  · rw [Option.map_map]
    rfl

/-- With the same memory behind the header the files give the same trace. -/
theorem idSac_swapFile_eq (hv : ValidSac host bytes) (behind : List Byte) :
    idSac F host behind (swapFile bytes) =
      (idSac F host behind bytes).map fun t => { t with endianSwap := true } := by
  rw [idSac_swapFile hv, idSac_of_valid hv, getSacHedr_true]

theorem length_chars (h : 632 ≤ bytes.length) : (SacHead.read host bytes).chars.length = 192 := by
  show ((bytes.drop 440).take 192).length = 192
  rw [List.length_take, List.length_drop]
  omega

/-- A file and its copy of the other byte order give the same trace and samples, whatever lies
behind the header, if and only if the names end in the header. -/
theorem sac_byteOrder_iff (F : FloatArith) (host : Endian) (bytes : List Byte)
    (hv : ValidSac host bytes) :
    (∀ behind behind', SameTrace F host behind behind' bytes) ↔
      NamesEnd (SacHead.read host bytes).chars := by
  rw [← isSome_sacNames_iff]
  constructor
  · intro hsame
    obtain ⟨t, -, ht, -⟩ := hsame [] []
    rw [idSac_of_valid hv, getSacHedr, if_neg hv.delta, List.append_nil] at ht
    obtain ⟨names, hnames, -⟩ := Option.map_eq_some_iff.1 ht
    exact Option.isSome_of_eq_some hnames
  · intro hnames behind behind'
    obtain ⟨names, hnames⟩ := Option.isSome_iff_exists.1 hnames
    have hbehind := sacNames_append (length_chars hv.header) hnames
    have hsame : getSacHedr F behind' false (SacHead.read host bytes) =
        getSacHedr F behind false (SacHead.read host bytes) := by
      rw [getSacHedr, getSacHedr, hbehind, hbehind]
    have hsome : (getSacHedr F behind false (SacHead.read host bytes)).isSome := by
      rw [getSacHedr, if_neg hv.delta, Option.isSome_map, hbehind]
      rfl
    obtain ⟨t, ht⟩ := Option.isSome_iff_exists.1 hsome
    have hswap : t.endianSwap = false := by
      rw [getSacHedr, if_neg hv.delta] at ht
      obtain ⟨-, -, rfl⟩ := Option.map_eq_some_iff.1 ht
      rfl
    refine ⟨t, { t with endianSwap := true }, by rw [idSac_of_valid hv, ht], hswap, ?_, rfl, ?_⟩
    · rw [idSac_swapFile hv, getSacHedr_true, hsame, ht, Option.map_some]
    · rw [hswap]
      exact getSacData_swapFile hv.header t.numSamples

/-- A little-endian header of the year 2000 with one sample a second, with the characters `chars` in
all names. -/
def headerFile (chars : Byte) : List Byte :=
  [(2, 0x80), (3, 0x3F), (280, 0xD0), (281, 0x07), (316, 1), (340, 1), (352, 0xC7), (353, 0xCF),
    (354, 0xFF), (355, 0xFF)].foldl (fun bytes (o, b) => bytes.set o b)
    (List.replicate 440 0 ++ List.replicate 192 chars ++ [0, 0, 0x80, 0x3F])

theorem sac_byteOrder_shortNames :
    ValidSac .littleEnd ((headerFile 65).set 603 32) ∧
      ∀ behind behind', SameTrace ieeeFloats .littleEnd behind behind'
        ((headerFile 65).set 603 32) := by
  have hv : ValidSac .littleEnd ((headerFile 65).set 603 32) := by decide +kernel
  exact ⟨hv, (sac_byteOrder_iff _ _ _ hv).2 (by decide +kernel)⟩

theorem SameTrace.names {F : FloatArith} {host : Endian} {behind behind' bytes : List Byte}
    (h : SameTrace F host behind behind' bytes) :
    (idSac F host behind' (swapFile bytes)).map SacTrace.names =
      (idSac F host behind bytes).map SacTrace.names := by
  obtain ⟨t, t', ht, -, ht', rfl, -⟩ := h
  rw [ht, ht', Option.map_some, Option.map_some]

/-- Blank names take in what lies behind the header. -/
theorem sac_byteOrder_blankNames :
    ValidSac .littleEnd (headerFile 32) ∧
      ¬∀ behind behind', SameTrace ieeeFloats .littleEnd behind behind' (headerFile 32) := by
  refine ⟨by decide +kernel, fun hsame => ?_⟩
  have hnames := (hsame [65, 0] [66, 0]).names
  exact absurd hnames (by decide +kernel)

end Sac

end PQL
