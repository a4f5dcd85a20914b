import PQL.Reftek.Demux

/-!
# The forms of RT130 samples

The samples of a channel fit 16 bits and are stored as words of 16 or 32 bits or compressed with
Steim-1 or Steim-2, every word with its high byte first (`StoredIn`).  The data pass copies words
as they lie in the packet and adds the first difference of a Steim-2 packet to its first sample.
The samples come back exactly if the host reads their words alike and that difference is zero
(`rt130_reads_back_iff`).
-/

namespace PQL

/-! ## Samples in packets -/

/-- The forms of the samples of a packet. -/
inductive SampleForm where
  | bit16
  | bit32
  | steim1
  | steim2
deriving DecidableEq

/-- The size of a sample that is read from a packet. -/
def SampleForm.size : SampleForm → ℕ
  | .bit16 => 2
  | _ => 4

/-- The `int` with the value of a `short`. -/
def widen (x : BitVec 16) : Word := x.signExtend 32

/-- The content holds the samples `ys` in a form, its words with the high byte first. -/
inductive Stores : SampleForm → List (BitVec 16) → Content → Prop where
  | bit16 (ys : List (BitVec 16)) : Stores .bit16 ys (.form16 .bigEnd ys)
  | bit32 (ys : List (BitVec 16)) : Stores .bit32 ys (.form32 .bigEnd (ys.map widen))
  | steim1 (b : BlockPacking Steim1.Slot) (ys : List (BitVec 16)) :
      Stores .steim1 ys (.formC0 b (ys.map widen))
  | steim2 (b : BlockPacking Steim2.Slot) (ys : List (BitVec 16)) :
      Stores .steim2 ys (.formC2 b (ys.map widen))

/-- The first difference of a compressed packet. -/
def Content.firstDiff : Content → Option Word
  | formC0 b _ => b.diffs.head?
  | formC2 b _ => b.diffs.head?
  | _ => none

/-- The first difference of a compressed packet leads from the last sample of the packet before it
to its first sample. -/
def Content.LeadsTo (prev : Content) : Content → Prop
  | formC0 b _ => b.diffs.head? = some (b.x0 - prev.lastAfter 0)
  | formC2 b _ => b.diffs.head? = some (b.x0 - prev.lastAfter 0)
  | _ => True

/-- Samples, cut into the packets of one channel. -/
structure StoredIn (f : SampleForm) (cut : List (List (BitVec 16))) (ps : List DataPacket) :
    Prop where
  nonempty : ps ≠ []
  one : ∀ p ∈ ps, ∀ q ∈ ps, p.pair = q.pair
  stores : List.Forall₂ (fun ys p => Stores f ys p.content) cut ps
  linked : ps.IsChain fun p q => p.content.LeadsTo q.content

/-- An array of samples of `dataSize` bytes in the memory of the host. -/
def sampleArray (host : Endian) (dataSize : ℕ) (xs : List (BitVec 16)) : List Byte :=
  if dataSize = 2 then xs.flatMap (storeShort host) else intBytes host (xs.map widen)

/-- The file has one trace, and its data is read with the samples `xs`.  `block₁` and `block₂` are
in the packet buffers of the two passes at first. -/
def ReadsBack (host : Endian) (block₁ block₂ : List Byte) (ps : List FilePacket)
    (xs : List (BitVec 16)) : Prop :=
  ∃ t, getRt130Hedr block₁ (fileBytes ps) = [t] ∧ ∃ n : Word, n.toInt = xs.length ∧
    readRt130Data host block₂ (fileBytes ps) t = some (n, sampleArray host t.dataSize xs)

/-- Words of a form that have their high byte first are words of the host. -/
def SampleForm.Alike (host : Endian) (xs : List (BitVec 16)) : SampleForm → Prop
  | .bit16 => host = .bigEnd ∨ ∀ x ∈ xs, x.extractLsb' 8 8 = x.extractLsb' 0 8
  | .bit32 => host = .bigEnd ∨ ∀ x ∈ xs, x = 0 ∨ x = -1
  | _ => True

/-- The host reads the words alike, Steim-2 starts with a difference of zero, and each packet starts
below `2 ^ 31` bytes. -/
structure ReadsAlike (host : Endian) (f : SampleForm) (xs : List (BitVec 16))
    (ps : List DataPacket) : Prop where
  order : f.Alike host xs
  start : f = .steim2 → ∀ p ∈ ps.head?, p.content.firstDiff = some 0
  below : StartsBelow (fun p : DataPacket => p.content.count) (2 ^ 31 / f.size) 0 ps

/-! ## One packet -/

theorem forall_mem_or_left {α : Type} {q : Prop} {p : α → Prop} {l : List α} :
    (∀ x ∈ l, q ∨ p x) ↔ q ∨ ∀ x ∈ l, p x :=
  ⟨fun h => or_iff_not_imp_left.2 fun hq x hx => (h x hx).resolve_left hq,
    fun h x hx => h.imp_right fun h => h x hx⟩

theorem widen_ne_min (x : BitVec 16) : widen x ≠ INT_MIN := by
  intro h
  have hint : (widen x).toInt = x.toInt := BitVec.toInt_signExtend_of_le (by decide)
  have hmin : (INT_MIN : Word).toInt = -2 ^ 31 := rfl
  have hle := BitVec.le_toInt (x := x)
  rw [h, hmin] at hint
  omega

/-- A `short` is stored alike in both orders if its bytes are the same. -/
theorem storeShort_bigEnd_iff (host : Endian) (x : BitVec 16) :
    storeShort .bigEnd x = storeShort host x ↔
      host = .bigEnd ∨ x.extractLsb' 8 8 = x.extractLsb' 0 8 := by
  cases host with
  | bigEnd => exact iff_of_true rfl (Or.inl rfl)
  | littleEnd =>
    rw [or_iff_right (by decide), storeShort, storeShort, List.cons.injEq]
    exact ⟨fun h => h.1, fun h => ⟨h, by rw [h]⟩⟩

/-- A small `int` is stored alike in both orders only if all its bytes are the same. -/
theorem storeInt_bigEnd_widen_iff (host : Endian) (x : BitVec 16) :
    storeInt .bigEnd (widen x) = storeInt host (widen x) ↔ host = .bigEnd ∨ x = 0 ∨ x = -1 := by
  cases host with
  | bigEnd => exact iff_of_true rfl (Or.inl rfl)
  | littleEnd =>
    rw [or_iff_right (by decide)]
    constructor
    · intro h
      have hlow := congrArg (fun q => q.b3.toNat) h
      have hhigh := congrArg (fun q => q.b2.toNat) h
      have hwide : (widen x).toNat = x.toNat + if x.msb then 2 ^ 32 - 2 ^ 16 else 0 := by
        rw [widen, BitVec.toNat_signExtend, BitVec.toNat_setWidth_of_le (by decide)]
      have hlt := x.isLt
      simp only [storeInt, BitVec.extractLsb'_toNat, Nat.shiftRight_eq_div_pow, hwide,
        pow_zero, Nat.div_one] at hlow hhigh
      have hbytes : x.toNat = 0 ∨ x.toNat = 2 ^ 16 - 1 := by
        revert hlow hhigh
        cases x.msb with
        | false =>
          simp only [Bool.false_eq_true, if_false, add_zero]
          rw [show x.toNat / 2 ^ 24 = 0 by omega, show x.toNat / 2 ^ 16 = 0 by omega]
          omega
        | true =>
          simp only [if_true]
          rw [show (x.toNat + (2 ^ 32 - 2 ^ 16)) / 2 ^ 24 = 255 by omega,
            show (x.toNat + (2 ^ 32 - 2 ^ 16)) / 2 ^ 16 = 65535 by omega]
          omega
      exact hbytes.imp BitVec.eq_of_toNat_eq BitVec.eq_of_toNat_eq
    · rintro (rfl | rfl) <;> decide

namespace Stores

variable {f : SampleForm} {ys : List (BitVec 16)} {c : Content}

theorem size (h : Stores f ys c) : c.size = f.size := by cases h <;> rfl

theorem count (h : Stores f ys c) : c.count = ys.length := by
  cases h with
  | bit16 => rfl
  | _ => exact List.length_map widen

theorem memory (h : Stores f ys c) (host : Endian) :
    c.memory host = sampleArray host f.size ys := by cases h <;> rfl

/-- The words of a packet look as the host stores them if they are alike. -/
theorem storedAs_iff (h : Stores f ys c) (host : Endian) :
    c.StoredAs host ↔ f.Alike host ys := by
  cases h with
  | bit16 =>
    show (∀ x ∈ ys, storeShort .bigEnd x = storeShort host x) ↔ _
    simp only [storeShort_bigEnd_iff]
    exact forall_mem_or_left
  | bit32 =>
    show (∀ x ∈ ys.map widen, storeInt .bigEnd x = storeInt host x) ↔ _
    simp only [List.forall_mem_map, storeInt_bigEnd_widen_iff]
    exact forall_mem_or_left
  | _ => exact Iff.rfl

theorem startsFrom_min_iff (h : Stores f ys c) :
    c.StartsFrom INT_MIN ↔ (f = .steim2 → c.firstDiff = some 0) := by
  cases h with
  | bit16 => exact iff_of_true trivial nofun
  | bit32 => exact iff_of_true trivial nofun
  | steim1 => exact iff_of_true (Or.inl rfl) nofun
  | steim2 b =>
    show b.diffs.head? = some (if INT_MIN = INT_MIN then 0 else _) ↔ _
    rw [if_pos rfl]
    exact ⟨fun h _ => h, fun h => h rfl⟩

end Stores

/-! ## The packets of a channel -/

section Channel

variable {f : SampleForm} {cut : List (List (BitVec 16))} {ps : List DataPacket}

theorem alike_flatten (f : SampleForm) (host : Endian) (cut : List (List (BitVec 16))) :
    f.Alike host cut.flatten ↔ ∀ ys ∈ cut, f.Alike host ys := by
  cases f with
  | bit16 =>
    show (host = .bigEnd ∨ ∀ x ∈ cut.flatten, _) ↔ ∀ ys ∈ cut, host = .bigEnd ∨ ∀ x ∈ ys, _
    rw [forall_mem_or_left, List.forall_mem_flatten]
  | bit32 =>
    show (host = .bigEnd ∨ ∀ x ∈ cut.flatten, _) ↔ ∀ ys ∈ cut, host = .bigEnd ∨ ∀ x ∈ ys, _
    rw [forall_mem_or_left, List.forall_mem_flatten]
  | _ => exact iff_of_true trivial fun _ _ => trivial

theorem sampleArray_append (host : Endian) (dataSize : ℕ) (xs ys : List (BitVec 16)) :
    sampleArray host dataSize (xs ++ ys) =
      sampleArray host dataSize xs ++ sampleArray host dataSize ys := by
  unfold sampleArray intBytes
  split_ifs
  · rw [List.flatMap_append]
  · rw [List.map_append, List.flatMap_append]

theorem sampleCount_stores (h : List.Forall₂ (fun ys p => Stores f ys p.content) cut ps) :
    sampleCount ps = cut.flatten.length := by
  induction h with
  | nil => rfl
  | cons hp _ ih =>
    rw [List.flatten_cons, List.length_append, ← ih, ← hp.count]
    rfl

theorem memory_stores (host : Endian)
    (h : List.Forall₂ (fun ys p => Stores f ys p.content) cut ps) :
    (ps.flatMap fun p => p.content.memory host) = sampleArray host f.size cut.flatten := by
  induction h with
  | nil => cases f <;> rfl
  | cons hp _ ih => rw [List.flatMap_cons, List.flatten_cons, sampleArray_append, ih, hp.memory]

theorem storedAs_stores_iff (host : Endian)
    (h : List.Forall₂ (fun ys p => Stores f ys p.content) cut ps) :
    (∀ p ∈ ps, p.content.StoredAs host) ↔ f.Alike host cut.flatten := by
  rw [alike_flatten]
  induction h with
  | nil => exact iff_of_true nofun nofun
  | cons hp _ ih => rw [List.forall_mem_cons, List.forall_mem_cons, ih, hp.storedAs_iff]

theorem size_stores (h : List.Forall₂ (fun ys p => Stores f ys p.content) cut ps) :
    ∀ p ∈ ps, p.content.size = f.size := by
  induction h with
  | nil => nofun
  | cons hp _ ih => exact List.forall_mem_cons.2 ⟨hp.size, ih⟩

/-- A packet whose first difference leads from the packet before it starts from what that leaves in
`last_x`, which is not `INT_MIN` since the samples are small. -/
theorem startsFrom_of_leadsTo {p q : DataPacket} {ys zs : List (BitVec 16)}
    (hp : Stores f ys p.content) (hq : Stores f zs q.content)
    (h : p.content.LeadsTo q.content) (x : Word) :
    q.content.StartsFrom (p.content.lastAfter x) := by
  have hholds := p.holds
  generalize p.content = c at hp h hholds ⊢
  generalize q.content = d at hq h ⊢
  cases hp with
  | bit16 => cases hq; trivial
  | bit32 => cases hq; trivial
  | steim1 b =>
    cases hq
    exact Or.inr h
  | steim2 b =>
    cases hq with
    | steim2 b' =>
      obtain ⟨y, -, hy⟩ := List.mem_map.1 (List.mem_of_getLast? hholds.2.last)
      have hlast : b.xn ≠ INT_MIN := by
        rw [← hy]
        exact widen_ne_min y
      show b'.diffs.head? = some (if b.xn = INT_MIN then 0 else b'.x0 - b.xn)
      rw [if_neg hlast]
      exact h

theorem continues_of_isChain {p : DataPacket} {ys : List (BitVec 16)}
    (hp : Stores f ys p.content)
    (h : List.Forall₂ (fun ys p => Stores f ys p.content) cut ps)
    (hchain : (p :: ps).IsChain fun p q => p.content.LeadsTo q.content) (x : Word) :
    Continues (p.content.lastAfter x) ps := by
  induction h generalizing p ys x with
  | nil => trivial
  | cons hq _ ih =>
    obtain ⟨hleads, hrest⟩ := List.isChain_cons_cons.1 hchain
    exact ⟨startsFrom_of_leadsTo hp hq hleads x, ih hq hrest _⟩

/-- The packets can be put together exactly if the host reads them alike. -/
theorem joins_iff_readsAlike (host : Endian) (h : StoredIn f cut ps) :
    Joins host ps ↔ ReadsAlike host f cut.flatten ps := by
  have hsizes := size_stores h.stores
  have hstored := storedAs_stores_iff host h.stores
  obtain ⟨hne, -, hstores, hlinked⟩ := h
  cases hstores with
  | nil => exact absurd rfl hne
  | @cons ys p cut ps hp hrest =>
    have hhead : headSize (p :: ps) = f.size := hp.size
    have hcontinues : Continues INT_MIN (p :: ps) ↔
        (f = .steim2 → ∀ q ∈ (p :: ps).head?, q.content.firstDiff = some 0) := by
      rw [Continues, hp.startsFrom_min_iff,
        and_iff_left (continues_of_isChain hp hrest hlinked INT_MIN), List.head?_cons]
      simp only [Option.mem_def, Option.some_inj, forall_eq']
    constructor
    · rintro ⟨-, hs, hc, hb⟩
      exact ⟨hstored.1 hs, hcontinues.1 hc, hhead ▸ hb⟩
    · rintro ⟨hs, hc, hb⟩
      exact ⟨fun q hq _ => (hsizes q hq).trans hhead.symm, hstored.2 hs, hcontinues.2 hc,
        hhead ▸ hb⟩

end Channel

/-! ## Files -/

section Files

variable {host : Endian} {block₁ block₂ : List Byte} {ps : List FilePacket}

theorem numPackets_of_one (hone : ∀ p ∈ fileData ps, ∀ q ∈ fileData ps, p.pair = q.pair)
    {p : DataPacket} (hp : p ∈ fileData ps) : numPackets ps (pairNum p.pair) = fileData ps :=
  List.filter_eq_self.2 fun q hq => decide_eq_true (congrArg pairNum (hone q hq p hp))

/-- A file with the packets of one channel has one trace. -/
theorem getRt130Hedr_of_one (hblock : block₁.length ≤ RT130_PKT_SIZE)
    (hone : ∀ p ∈ fileData ps, ∀ q ∈ fileData ps, p.pair = q.pair) {p : DataPacket}
    (hp : p ∈ fileData ps) :
    getRt130Hedr block₁ (fileBytes ps) = channelTraces (fileData ps) := by
  rw [← numPackets_of_one hone hp, ← filter_getRt130Hedr ps hblock]
  refine (List.filter_eq_self.2 fun t ht => decide_eq_true ?_).symm
  obtain ⟨q, qs, hnum, htrace⟩ := exists_of_mem_hedr hblock ht
  have hmem : q ∈ numPackets ps (pairNum t.pair) := by
    rw [hnum]
    exact List.mem_cons_self
  have hq : q ∈ fileData ps := (List.mem_filter.1 hmem).1
  have hpair : t.pair = q.pair := congrArg RT130Trace.pair htrace
  show pairNum t.pair = pairNum p.pair
  rw [hpair, hone q hq p hp]

theorem readsBack_iff_joins {f : SampleForm} {cut : List (List (BitVec 16))}
    (h₁ : block₁.length ≤ RT130_PKT_SIZE) (h₂ : block₂.length ≤ RT130_PKT_SIZE)
    (h : StoredIn f cut (fileData ps)) :
    ReadsBack host block₁ block₂ ps cut.flatten ↔ Joins host (fileData ps) := by
  obtain ⟨p, qs, hdata⟩ := List.exists_cons_of_ne_nil h.nonempty
  have hp : p ∈ fileData ps := by
    rw [hdata]
    exact List.mem_cons_self
  have hcount := sampleCount_stores h.stores
  have hmemory := memory_stores host h.stores
  have hsize := size_stores h.stores p hp
  have hhedr := getRt130Hedr_of_one h₁ h.one hp
  have hpackets := numPackets_of_one h.one hp
  rw [hdata, channelTraces, ← hdata, hcount, hsize] at hhedr
  generalize ht : (⟨_, _, f.size, BitVec.ofNat 32 cut.flatten.length⟩ : RT130Trace) = t at hhedr
  have hiff := trace_iff_joins host h₁ h₂ (t := t) (by rw [hhedr]; exact List.mem_singleton_self t)
  rw [show t.pair = p.pair by rw [← ht]; rfl, hpackets, hcount, hmemory,
    show f.size = t.dataSize by rw [← ht]] at hiff
  have hnumSamples : t.numSamples = BitVec.ofNat 32 cut.flatten.length := by rw [← ht]
  rw [hnumSamples] at hiff
  rw [← hiff, ReadsBack, hhedr]
  constructor
  · rintro ⟨t', ht', n, hn, hread⟩
    obtain rfl : t = t' := (List.cons.inj ht').1
    have heq : n = BitVec.ofNat 32 cut.flatten.length := by
      rw [← BitVec.ofInt_natCast, ← hn, BitVec.ofInt_toInt]
    rw [← heq]
    exact ⟨hn, hread⟩
  · rintro ⟨hn, hread⟩
    exact ⟨t, rfl, _, hn, hread⟩

/-- The samples of a channel, stored in one of the four forms and cut into packets in any way, are
read back exactly if the host reads the words of the form alike, a Steim-2 form starts with a
difference of zero and each packet starts below `2 ^ 31` bytes. -/
theorem rt130_reads_back_iff (host : Endian) (block₁ block₂ : List Byte)
    (h₁ : block₁.length ≤ RT130_PKT_SIZE) (h₂ : block₂.length ≤ RT130_PKT_SIZE)
    (ps : List FilePacket) (f : SampleForm) (cut : List (List (BitVec 16)))
    (h : StoredIn f cut (fileData ps)) :
    ReadsBack host block₁ block₂ ps cut.flatten ↔
      ReadsAlike host f cut.flatten (fileData ps) :=
  (readsBack_iff_joins h₁ h₂ h).trans (joins_iff_readsAlike host h)

end Files

/-- A packet with one sample of two bytes, the high byte first. -/
def highFirstPacket (x : BitVec 16) : DataPacket where
  bytes := oneHeader 0 0 ++ (storeShort .bigEnd x ++ List.replicate 998 0)
  content := .form16 .bigEnd [x]
  length_bytes := by
    rw [List.length_append, List.length_append, List.length_replicate, length_storeShort]
    exact congrArg (· + 1000) (show (oneHeader 0 0).length = 24 from rfl)
  type := by
    unfold packetType convertRefType oneHeader
    simp only [List.cons_append, List.getD_cons_zero, List.getD_cons_succ]
    decide
  form := rfl
  count := rfl
  holds := by
    have htake : (storeShort .bigEnd x ++ List.replicate 998 0).take 2 = storeShort .bigEnd x :=
      List.take_left' (length_storeShort .bigEnd x)
    rw [Content.In, List.drop_left' (show (oneHeader 0 0).length = RT130_HEADER_SIZE from rfl)]
    exact htake

theorem storedIn_highFirstPacket (x : BitVec 16) :
    StoredIn .bit16 [[x]] (fileData [.data (highFirstPacket x)]) :=
  ⟨List.cons_ne_nil _ _,
    fun p hp q hq => by rw [List.mem_singleton.1 hp, List.mem_singleton.1 hq],
    .cons (.bit16 [x]) .nil, List.isChain_singleton _⟩

/-- A big-endian host reads the sample back. -/
theorem rt130_reads_back_bigEnd : ReadsBack .bigEnd [] [] [.data (highFirstPacket 7)] [7] :=
  (rt130_reads_back_iff .bigEnd [] [] (Nat.zero_le _) (Nat.zero_le _) _ .bit16 [[7]]
    (storedIn_highFirstPacket 7)).2
      ⟨Or.inl rfl, nofun, ⟨fun _ => by decide, trivial⟩⟩

/-- A little-endian host takes the sample 7 for another. -/
theorem rt130_misread_littleEnd :
    StoredIn .bit16 [[7]] (fileData [.data (highFirstPacket 7)]) ∧
      ¬ReadsBack .littleEnd [] [] [.data (highFirstPacket 7)] [7] := by
  have hstored := storedIn_highFirstPacket 7
  refine ⟨hstored, fun h => ?_⟩
  have hjoins := (readsBack_iff_joins (Nat.zero_le _) (Nat.zero_le _) hstored).1 h
  rcases ((joins_iff_readsAlike .littleEnd hstored).1 hjoins).order with hhost | hbytes
  · cases hhost
  · exact absurd (hbytes 7 (List.mem_singleton_self 7)) (by decide)

end PQL
