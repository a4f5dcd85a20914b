import PQL.Lib.CInt
import PQL.Lib.Rounding
import PQL.Steim.Steim1

/-!
# Blocks in the X format

`do_block` and `do_frame` decode a block of 4096 bytes as `steim1` does, but into variables of the
type `long`.  The words of one- and two-byte differences are not put into the order of the host, so
that a little-endian host takes their differences from the last one back, and a `long` of eight
bytes keeps four bytes of what was in it before.  `xformat_samples_iff` says for which blocks a host
delivers the samples that the big-endian words of the block stand for.
-/

namespace PQL

/-! ## The decoder -/

structure XBlock where
  bytes : List Byte
  length_bytes : bytes.length = 4096

/-- The number of bytes of a `long`. -/
inductive LongSize where
  | four
  | eight
deriving DecidableEq, Repr

/-- A host; `BIGENDIAN` is defined if its byte order is `bigEnd`. -/
structure XHost where
  order : Endian
  long : LongSize
deriving DecidableEq, Repr

/-- What lies in the variables before anything is assigned to them: in `x0`, and in `w0` and `diff`
for each frame. -/
structure Uninit where
  x0 : BitVec 64
  w0 : ℕ → BitVec 64
  diff : ℕ → BitVec 64

/-- The sum of two values of type `long`. -/
def LongSize.wrap : LongSize → ℤ → ℤ
  | .four, z => wrap32 z
  | .eight, z => z.bmod (2 ^ 64)

/-- `(float)` of a `long`. -/
def longToFloat (n : ℤ) : ℚ := roundTo 24 n

/-- `rmemcpy` of four bytes to a variable of type `long` that holds `old`, or `memcpy` with
`BIGENDIAN`: the lower half of a `long` of eight bytes comes first on a little-endian host and last
on the other. -/
def copyWord (host : XHost) (old : ℤ) (q : Quad) : ℤ :=
  let v := readInt host.order (Endian.bigEnd ≠ host.order) q
  match host.long, host.order with
  | .four, _ => v.toInt
  | .eight, .littleEnd => old / 2 ^ 32 * 2 ^ 32 + v.toNat
  | .eight, .bigEnd => v.toInt * 2 ^ 32 + old % 2 ^ 32

/-- `rtwo_byte`. -/
def rtwoByte (word : Word) (index : ℕ) : Word :=
  let val := loadInt .littleEnd (storeInt .littleEnd word).reverse
  let shift := (1 - index) <<< 4
  (val <<< shift).sshiftRight 16

/-- The samples so far, the last one and the variable `diff`. -/
structure XDecoded where
  data : List ℚ
  xnot : ℤ
  diff : ℤ

/-- The steps that follow a difference. -/
def putDiff (host : XHost) (s : XDecoded) (diff : ℤ) : XDecoded :=
  let sample := host.long.wrap (s.xnot + diff)
  ⟨s.data ++ [longToFloat sample], sample, diff⟩

/-- One data word of a frame with its code. -/
def doWord (host : XHost) (s : XDecoded) (cw : BitVec 2 × Quad) : XDecoded :=
  let word := loadInt host.order cw.2
  if cw.1 = 1 then
    [0, 1, 2, 3].foldl (fun s j => putDiff host s (oneByte word j).toInt) s
  else if cw.1 = 2 then
    match host.order with
    | .littleEnd => [0, 1].foldl (fun s j => putDiff host s (rtwoByte word j).toInt) s
    | .bigEnd => [0, 1].foldl (fun s j => putDiff host s (twoByte word j).toInt) s
  else if cw.1 = 3 then putDiff host s (copyWord host s.diff cw.2)
  else s

/-- `do_frame`: the samples and `*xlast`; `w0` and `diff` are what the variables hold at first, and
`unpack` takes the lower four bytes of `w0`. -/
def doFrame (host : XHost) (w0 diff : BitVec 64) (frame : List Quad) (s : List ℚ × ℤ) :
    List ℚ × ℤ :=
  let w0 := copyWord host w0.toInt (frame.headD ⟨0, 0, 0, 0⟩)
  let code := unpack (BitVec.ofInt 32 w0) 16
  let r := (code.tail.zip frame.tail).foldl (doWord host) ⟨s.1, s.2, diff.toInt⟩
  (r.data, r.xnot)

/-- The samples of `do_block`. -/
def doBlock (host : XHost) (u : Uninit) (block : XBlock) : List ℚ :=
  let x0 := copyWord host u.x0.toInt (quadAt block.bytes 68)
  ((blockFrames block.bytes 4096).zipIdx.foldl
    (fun s f => doFrame host (u.w0 f.2) (u.diff f.2) f.1 s) ([longToFloat x0], x0)).1

/-! ## What a block stands for -/

/-- The differences of a word with the given code. -/
def wordDiffs (cw : BitVec 2 × Quad) : List ℤ :=
  if cw.1 = 1 then [cw.2.b0.toInt, cw.2.b1.toInt, cw.2.b2.toInt, cw.2.b3.toInt]
  else if cw.1 = 2 then
    [(cw.2.b0 ++ cw.2.b1 : BitVec 16).toInt, (cw.2.b2 ++ cw.2.b3 : BitVec 16).toInt]
  else if cw.1 = 3 then [(loadInt .bigEnd cw.2).toInt]
  else []

namespace XBlock

variable (block : XBlock)

def x0 : ℤ := (loadInt .bigEnd (quadAt block.bytes 68)).toInt

/-- The data words with their codes. -/
def words : List (BitVec 2 × Quad) :=
  (blockFrames block.bytes 4096).flatMap (codedWords .bigEnd false)

/-- The first sample and the ones reached from it by the differences. -/
def samples : List ℚ :=
  (block.x0 :: integrate block.x0 (block.words.flatMap wordDiffs)).map longToFloat

end XBlock

/-- The differences `ds` of a word behind the sample `p` are taken right: their sums are in the
range of `int`, or, on a little-endian host, the sums taken from the last difference back are the
same numbers when they are stored. -/
def TakenRight : Endian → ℤ → List ℤ → Prop
  | .bigEnd, p, ds => ∀ s ∈ integrate p ds, InIntRange s
  | .littleEnd, p, ds => (integrate p ds.reverse).map (fun s => longToFloat (wrap32 s)) =
      (integrate p ds).map longToFloat

/-- Each list of differences is taken right, behind the sample that those before it lead to. -/
def EachTakenRight (order : Endian) : ℤ → List (List ℤ) → Prop
  | _, [] => True
  | p, ds :: dss => TakenRight order p ds ∧ EachTakenRight order (p + ds.sum) dss

/-! ## One word -/

/-- A word of four bytes has them as its fields. -/
theorem append_eq_packFields (c0 c1 c2 c3 : Byte) :
    (c0 ++ c1 ++ c2 ++ c3 : Word) = BitVec.ofNat 32 (packFields 8 0 [c0, c1, c2, c3]) := by
  have hlt := (c0 ++ c1 ++ c2 ++ c3 : Word).isLt
  apply BitVec.eq_of_toNat_eq
  simp only [toNat_append_eq, BitVec.toNat_ofNat, packFields_cons, packFields_nil] at hlt ⊢
  omega

/-- A word of four bytes has two halves as its fields. -/
theorem append_eq_packFields_halves (c0 c1 c2 c3 : Byte) :
    (c0 ++ c1 ++ c2 ++ c3 : Word) =
      BitVec.ofNat 32 (packFields 16 0 [(c0 ++ c1 : BitVec 16), (c2 ++ c3 : BitVec 16)]) := by
  have hlt := (c0 ++ c1 ++ c2 ++ c3 : Word).isLt
  apply BitVec.eq_of_toNat_eq
  simp only [toNat_append_eq, BitVec.toNat_ofNat, packFields_cons, packFields_nil] at hlt ⊢
  omega

theorem oneByte_append (c0 c1 c2 c3 : Byte) :
    [0, 1, 2, 3].map (fun j => (oneByte (c0 ++ c1 ++ c2 ++ c3) j).toInt) =
      [c0.toInt, c1.toInt, c2.toInt, c3.toInt] := by
  have hmap := congrArg (List.map BitVec.toInt) (Steim1.Slot.map_oneByte c0 c1 c2 c3)
  rw [← append_eq_packFields, List.map_map] at hmap
  simpa [BitVec.toInt_signExtend_of_le] using hmap

theorem twoByte_append (c0 c1 c2 c3 : Byte) :
    [0, 1].map (fun j => (twoByte (c0 ++ c1 ++ c2 ++ c3) j).toInt) =
      [(c0 ++ c1 : BitVec 16).toInt, (c2 ++ c3 : BitVec 16).toInt] := by
  have hmap := congrArg (List.map BitVec.toInt)
    (Steim1.Slot.map_twoByte (c0 ++ c1 : BitVec 16) (c2 ++ c3 : BitVec 16))
  rw [← append_eq_packFields_halves, List.map_map] at hmap
  simpa [BitVec.toInt_signExtend_of_le] using hmap

/-- The bytes of a loaded word are stored again. -/
theorem storeInt_loadInt_littleEnd (q : Quad) :
    storeInt .littleEnd (loadInt .littleEnd q) = q := by
  obtain ⟨b0, b1, b2, b3⟩ := q
  have h0 := b0.isLt
  have h1 := b1.isLt
  have h2 := b2.isLt
  simp only [storeInt, loadInt, Quad.mk.injEq]
  refine ⟨?_, ?_, ?_, ?_⟩
  all_goals
    apply BitVec.eq_of_toNat_eq
    rw [BitVec.extractLsb'_toNat, Nat.shiftRight_eq_div_pow]
    simp only [toNat_append_eq]
    omega

/-- `rtwo_byte` takes the halves of the big-endian word, the second one first. -/
theorem rtwoByte_eq (q : Quad) (j : ℕ) :
    rtwoByte (loadInt .littleEnd q) j = twoByte (loadInt .bigEnd q) (1 - j) := by
  rw [rtwoByte, storeInt_loadInt_littleEnd]
  rfl

/-! ## A `long` of four bytes -/

/-- The differences of a word in the order in which a host takes them. -/
def hostDiffs (order : Endian) (ds : List ℤ) : List ℤ :=
  match order with
  | .littleEnd => ds.reverse
  | .bigEnd => ds

/-- A word that is copied is put into the order of the host. -/
theorem copyWord_four (order : Endian) (old : ℤ) (q : Quad) :
    copyWord ⟨order, .four⟩ old q = (loadInt .bigEnd q).toInt := by
  rw [copyWord, readInt_eq, under_eq]

theorem doWord_four (order : Endian) (s : XDecoded) (cw : BitVec 2 × Quad) :
    doWord ⟨order, .four⟩ s cw =
      (hostDiffs order (wordDiffs cw)).foldl (putDiff ⟨order, .four⟩) s := by
  obtain ⟨code, q⟩ := cw
  have hbytes := oneByte_append q.b0 q.b1 q.b2 q.b3
  have hbytes' := oneByte_append q.b3 q.b2 q.b1 q.b0
  have hhalves := twoByte_append q.b0 q.b1 q.b2 q.b3
  have hfold : ∀ (f : ℕ → ℤ) (js : List ℕ),
      js.foldl (fun s j => putDiff ⟨order, .four⟩ s (f j)) s =
        (js.map f).foldl (putDiff ⟨order, .four⟩) s := fun f js => List.foldl_map.symm
  rw [doWord, wordDiffs]
  dsimp only
  rw [hfold, hfold, hfold]
  split_ifs
  · cases order with
    | littleEnd => exact congrArg (List.foldl _ s) hbytes'
    | bigEnd => exact congrArg (List.foldl _ s) hbytes
  · cases order with
    | littleEnd =>
      have hreverse := congrArg List.reverse hhalves
      simp only [rtwoByte_eq]
      exact congrArg (List.foldl _ s) hreverse
    | bigEnd => exact congrArg (List.foldl _ s) hhalves
  · rw [copyWord_four]
    cases order <;> rfl
  · cases order <;> rfl

/-- The samples as they are stored, from sums of differences that may leave the range of `int`. -/
def storedSums (p : ℤ) (ds : List ℤ) : List ℚ :=
  (integrate p ds).map fun s => longToFloat (wrap32 s)

theorem storedSums_append (p : ℤ) (ds es : List ℤ) :
    storedSums p (ds ++ es) = storedSums p ds ++ storedSums (p + ds.sum) es := by
  rw [storedSums, integrate_append, List.map_append, storedSums, storedSums]

theorem foldl_putDiff_four (order : Endian) (ds : List ℤ) {s : XDecoded} {p : ℤ}
    (hs : s.xnot = wrap32 p) :
    (ds.foldl (putDiff ⟨order, .four⟩) s).data = s.data ++ storedSums p ds ∧
      (ds.foldl (putDiff ⟨order, .four⟩) s).xnot = wrap32 (p + ds.sum) := by
  induction ds generalizing s p with
  | nil =>
    rw [List.foldl_nil, List.sum_nil, add_zero]
    exact ⟨(List.append_nil _).symm, hs⟩
  | cons d ds ih =>
    have hxnot : (putDiff ⟨order, .four⟩ s d).xnot = wrap32 (p + d) := by
      show wrap32 (s.xnot + d) = _
      rw [hs, wrap32_wrap32_add]
    obtain ⟨hdata, hlast⟩ := ih hxnot
    have hhead : (putDiff ⟨order, .four⟩ s d).data = s.data ++ [longToFloat (wrap32 (p + d))] := by
      rw [← hxnot]
      rfl
    rw [List.foldl_cons, hdata, hlast, hhead, List.append_assoc, List.sum_cons, add_assoc]
    exact ⟨rfl, rfl⟩

/-- The differences of a frame, as a host takes them. -/
def frameHostDiffs (order : Endian) (frame : List Quad) : List ℤ :=
  (codedWords .bigEnd false frame).flatMap fun cw => hostDiffs order (wordDiffs cw)

theorem doFrame_four (order : Endian) (w0 diff : BitVec 64) (frame : List Quad) (data : List ℚ)
    (p : ℤ) : doFrame ⟨order, .four⟩ w0 diff frame (data, wrap32 p) =
      (data ++ storedSums p (frameHostDiffs order frame),
        wrap32 (p + (frameHostDiffs order frame).sum)) := by
  have hword : doWord ⟨order, .four⟩ = fun s cw =>
      (hostDiffs order (wordDiffs cw)).foldl (putDiff ⟨order, .four⟩) s :=
    funext fun s => funext (doWord_four order s)
  have hrun := foldl_putDiff_four order (frameHostDiffs order frame)
    (s := ⟨data, wrap32 p, diff.toInt⟩) rfl
  have hcodes : codedWords .bigEnd false frame =
      (unpack (loadInt .bigEnd (frame.headD ⟨0, 0, 0, 0⟩)) 16).tail.zip frame.tail := by
    rw [codedWords, readInt, if_neg Bool.false_ne_true]
  rw [doFrame, copyWord_four, BitVec.ofInt_toInt, hword, ← hcodes]
  dsimp only
  rw [← List.foldl_flatMap, ← frameHostDiffs, hrun.1, hrun.2]

theorem foldl_doFrame_four (order : Endian) (u : Uninit) (frames : List (List Quad × ℕ))
    (data : List ℚ) (p : ℤ) :
    frames.foldl (fun s f => doFrame ⟨order, .four⟩ (u.w0 f.2) (u.diff f.2) f.1 s)
        (data, wrap32 p) =
      (data ++ storedSums p ((frames.map Prod.fst).flatMap (frameHostDiffs order)),
        wrap32 (p + ((frames.map Prod.fst).flatMap (frameHostDiffs order)).sum)) := by
  induction frames generalizing data p with
  | nil =>
    rw [List.foldl_nil, List.map_nil, List.flatMap_nil, List.sum_nil, add_zero]
    exact congrArg (·, _) (List.append_nil data).symm
  | cons f frames ih =>
    rw [List.foldl_cons, doFrame_four, ih, List.map_cons, List.flatMap_cons, storedSums_append,
      List.sum_append, List.append_assoc, add_assoc]

/-- With a `long` of four bytes a block is decoded whatever lies in the variables. -/
theorem doBlock_four (order : Endian) (u : Uninit) (block : XBlock) :
    doBlock ⟨order, .four⟩ u block = longToFloat block.x0 ::
      storedSums block.x0 (block.words.flatMap fun cw => hostDiffs order (wordDiffs cw)) := by
  have hx0 : wrap32 block.x0 = block.x0 :=
    wrap32_of_inIntRange ⟨BitVec.le_toInt _, BitVec.toInt_lt⟩
  have hrun := foldl_doFrame_four order u (blockFrames block.bytes 4096).zipIdx
    [longToFloat block.x0] block.x0
  rw [hx0, List.zipIdx_map_fst] at hrun
  have hassoc : block.words.flatMap (fun cw => hostDiffs order (wordDiffs cw)) =
      (blockFrames block.bytes 4096).flatMap (frameHostDiffs order) := List.flatMap_assoc
  rw [doBlock, copyWord_four, ← XBlock.x0, hassoc, hrun, List.singleton_append]

/-! ## Sums out of range -/

theorem longToFloat_mono {m n : ℤ} (h : m ≤ n) : longToFloat m ≤ longToFloat n :=
  roundTo_mono (by norm_num) (by exact_mod_cast h)

/-- Powers of two are `float`s. -/
theorem longToFloat_two_pow : longToFloat (2 ^ 31) = 2 ^ 31 ∧ longToFloat (-2 ^ 31) = -2 ^ 31 ∧
    longToFloat (2 ^ 32) = 2 ^ 32 ∧ longToFloat (-2 ^ 32) = -2 ^ 32 ∧ longToFloat 0 = 0 := by
  decide +kernel

/-- Numbers that are `2 ^ 32` apart, or further, are different `float`s if one is an `int`. -/
theorem longToFloat_ne {m n : ℤ} (hm : InIntRange m) (hfar : m + 2 ^ 32 ≤ n ∨ n + 2 ^ 32 ≤ m) :
    longToFloat m ≠ longToFloat n := by
  obtain ⟨h31, h31', h32, h32', h0⟩ := longToFloat_two_pow
  obtain ⟨hlow, hhigh⟩ := hm
  have hupper := longToFloat_mono hhigh.le
  have hlower := longToFloat_mono hlow
  rw [h31] at hupper
  rw [h31'] at hlower
  rcases lt_or_ge m 0 with hneg | hnonneg
  · have hle := longToFloat_mono hneg.le
    rw [h0] at hle
    rcases hfar with hfar | hfar
    · have hn := longToFloat_mono (show 2 ^ 31 ≤ n by omega)
      rw [h31] at hn
      linarith
    · have hn := longToFloat_mono (show n ≤ -2 ^ 32 by omega)
      rw [h32'] at hn
      linarith
  · have hge := longToFloat_mono hnonneg
    rw [h0] at hge
    rcases hfar with hfar | hfar
    · have hn := longToFloat_mono (show 2 ^ 32 ≤ n by omega)
      rw [h32] at hn
      linarith
    · have hn := longToFloat_mono (show n ≤ -2 ^ 31 by omega)
      rw [h31'] at hn
      linarith

/-- A sum is stored as it should be exactly if it is in the range of `int`. -/
theorem longToFloat_wrap32_eq_iff (t : ℤ) :
    longToFloat (wrap32 t) = longToFloat t ↔ InIntRange t := by
  refine ⟨fun h => ?_, fun h => by rw [wrap32_of_inIntRange h]⟩
  by_contra hout
  have hwrap := inIntRange_wrap32 t
  obtain ⟨k, hk⟩ := wrap32_eq_sub t
  refine longToFloat_ne hwrap ?_ h
  unfold InIntRange at hout hwrap
  omega

/-- The sums that a host stores for one word are the right ones exactly if its differences are
taken right. -/
theorem storedSums_hostDiffs_iff (order : Endian) (p : ℤ) (ds : List ℤ) :
    storedSums p (hostDiffs order ds) = (integrate p ds).map longToFloat ↔
      TakenRight order p ds := by
  cases order with
  | littleEnd => exact Iff.rfl
  | bigEnd =>
    rw [storedSums, hostDiffs, List.map_inj_left, TakenRight]
    exact forall₂_congr fun s _ => longToFloat_wrap32_eq_iff s

/-- The same for all words of a block. -/
theorem storedSums_flatMap_iff (order : Endian) (p : ℤ) (dss : List (List ℤ)) :
    storedSums p (dss.flatMap (hostDiffs order)) =
        (integrate p dss.flatten).map longToFloat ↔
      EachTakenRight order p dss := by
  induction dss generalizing p with
  | nil => exact iff_of_true rfl trivial
  | cons ds dss ih =>
    have hsum : (hostDiffs order ds).sum = ds.sum := by
      cases order with
      | littleEnd => exact List.sum_reverse ds
      | bigEnd => rfl
    have hlen : (storedSums p (hostDiffs order ds)).length =
        ((integrate p ds).map longToFloat).length := by
      rw [storedSums, List.length_map, List.length_map, length_integrate, length_integrate]
      cases order with
      | littleEnd => exact List.length_reverse
      | bigEnd => rfl
    rw [List.flatMap_cons, List.flatten_cons, storedSums_append, integrate_append, List.map_append,
      hsum, EachTakenRight, ← ih, ← storedSums_hostDiffs_iff]
    exact ⟨fun h => List.append_inj h hlen, fun h => by rw [h.1, h.2]⟩

/-! ## A `long` of eight bytes -/

/-- A fold of steps that append appends. -/
theorem exists_data_foldl {α σ : Type} {data : σ → List ℚ} {f : σ → α → σ}
    (hf : ∀ s a, ∃ l, data (f s a) = data s ++ l) (as : List α) (s : σ) :
    ∃ l, data (as.foldl f s) = data s ++ l := by
  induction as generalizing s with
  | nil => exact ⟨[], (List.append_nil _).symm⟩
  | cons a as ih =>
    obtain ⟨l, hl⟩ := hf s a
    obtain ⟨l', hl'⟩ := ih (f s a)
    rw [List.foldl_cons, hl', hl, List.append_assoc]
    exact ⟨_, rfl⟩

/-- The samples that are there stay. -/
theorem exists_data_doWord (host : XHost) (s : XDecoded) (cw : BitVec 2 × Quad) :
    ∃ l, (doWord host s cw).data = s.data ++ l := by
  have hfold : ∀ (f : ℕ → ℤ) (js : List ℕ),
      ∃ l, (js.foldl (fun s j => putDiff host s (f j)) s).data = s.data ++ l :=
    fun f js => exists_data_foldl (fun s j => ⟨_, rfl⟩) js s
  rw [doWord]
  split_ifs
  · exact hfold _ _
  · split
    · exact hfold _ _
    · exact hfold _ _
  · exact ⟨_, rfl⟩
  · exact ⟨[], (List.append_nil _).symm⟩

/-- The first sample is the first integration constant, as it was copied. -/
theorem head?_doBlock (host : XHost) (u : Uninit) (block : XBlock) :
    (doBlock host u block).head? =
      some (longToFloat (copyWord host u.x0.toInt (quadAt block.bytes 68))) := by
  have hframe : ∀ (s : List ℚ × ℤ) (f : List Quad × ℕ),
      ∃ l, (doFrame host (u.w0 f.2) (u.diff f.2) f.1 s).1 = s.1 ++ l := by
    intro s f
    rw [doFrame]
    generalize copyWord host (u.w0 f.2).toInt (f.1.headD ⟨0, 0, 0, 0⟩) = w0
    generalize (unpack (BitVec.ofInt 32 w0) 16).tail.zip f.1.tail = words
    exact exists_data_foldl (exists_data_doWord host) words ⟨s.1, s.2, (u.diff f.2).toInt⟩
  obtain ⟨l, hl⟩ := exists_data_foldl hframe (blockFrames block.bytes 4096).zipIdx
    ([longToFloat (copyWord host u.x0.toInt (quadAt block.bytes 68))],
      copyWord host u.x0.toInt (quadAt block.bytes 68))
  rw [doBlock, hl]
  rfl

theorem copyWord_eight_littleEnd (old : ℤ) (q : Quad) :
    copyWord ⟨.littleEnd, .eight⟩ old q =
      old / 2 ^ 32 * 2 ^ 32 + (loadInt .bigEnd q).toNat := by
  rw [copyWord, readInt_eq, under_eq]

theorem copyWord_eight_bigEnd (old : ℤ) (q : Quad) :
    copyWord ⟨.bigEnd, .eight⟩ old q = (loadInt .bigEnd q).toInt * 2 ^ 32 + old % 2 ^ 32 := by
  rw [copyWord, readInt_eq, under_eq]

/-- What was in `x0` can show in the first sample. -/
theorem exists_x0_eight (order : Endian) (q : Quad) : ∃ x : BitVec 64,
    longToFloat (copyWord ⟨order, .eight⟩ x.toInt q) ≠ longToFloat (loadInt .bigEnd q).toInt := by
  have hrange : InIntRange (loadInt .bigEnd q).toInt := ⟨BitVec.le_toInt _, BitVec.toInt_lt⟩
  have hnat := BitVec.toInt_eq_toNat_cond (loadInt .bigEnd q)
  cases order with
  | littleEnd =>
    have hx : (2 ^ 32 : BitVec 64).toInt = 2 ^ 32 := by decide
    refine ⟨2 ^ 32, (longToFloat_ne hrange (Or.inl ?_)).symm⟩
    rw [copyWord_eight_littleEnd, hx]
    split_ifs at hnat
    · omega
    · omega
  | bigEnd =>
    have hx : (1 : BitVec 64).toInt = 1 := by decide
    refine ⟨1, ?_⟩
    rw [copyWord_eight_bigEnd, hx]
    generalize (loadInt .bigEnd q).toInt = v at hrange
    by_cases hsmall : v = 0 ∨ v = -1
    · rcases hsmall with rfl | rfl
      · decide +kernel
      · decide +kernel
    · refine (longToFloat_ne hrange ?_).symm
      omega

/-! ## All hosts -/

/-- A host delivers the samples of a block, whatever lies in its variables, exactly if a `long` has
four bytes and the differences of each word are taken right. -/
theorem xformat_samples_iff (host : XHost) (block : XBlock) :
    (∀ u, doBlock host u block = block.samples) ↔
      host.long = .four ∧ EachTakenRight host.order block.x0 (block.words.map wordDiffs) := by
  obtain ⟨order, long⟩ := host
  cases long with
  | four =>
    have hhost : block.words.flatMap (fun cw => hostDiffs order (wordDiffs cw)) =
        (block.words.map wordDiffs).flatMap (hostDiffs order) := by
      rw [List.flatMap_map]
    have hsums := storedSums_flatMap_iff order block.x0 (block.words.map wordDiffs)
    rw [← hhost, ← List.flatMap_def] at hsums
    rw [and_iff_right rfl, ← hsums]
    simp only [doBlock_four, XBlock.samples, List.map_cons, List.cons.injEq, true_and]
    exact ⟨fun h => h ⟨0, fun _ => 0, fun _ => 0⟩, fun h _ => h⟩
  | eight =>
    refine iff_of_false (fun h => ?_) fun h => LongSize.noConfusion h.1
    obtain ⟨x, hx⟩ := exists_x0_eight order (quadAt block.bytes 68)
    have hhead := congrArg List.head? (h ⟨x, fun _ => 0, fun _ => 0⟩)
    rw [head?_doBlock] at hhead
    exact hx (Option.some.inj hhead)

theorem length_oneDiffBytes : (List.replicate 64 0 ++ ([1, 0, 0, 0] ++ (List.replicate 8 0 ++
    ([1, 0, 0, 0] ++ List.replicate 4016 0))) : List Byte).length = 4096 := by
  simp only [List.length_append, List.length_replicate]
  rfl

/-- A block with one word of one-byte differences, of which the first one is one. -/
def oneDiffBlock : XBlock where
  bytes := List.replicate 64 0 ++ ([1, 0, 0, 0] ++ (List.replicate 8 0 ++
    ([1, 0, 0, 0] ++ List.replicate 4016 0)))
  length_bytes := length_oneDiffBytes

/-- A little-endian host adds the difference last. -/
theorem xformat_depends_on_host :
    ¬∀ u, doBlock ⟨.littleEnd, .four⟩ u oneDiffBlock = oneDiffBlock.samples := by
  intro h
  exact absurd (h ⟨0, fun _ => 0, fun _ => 0⟩) (by decide +kernel)

end PQL
