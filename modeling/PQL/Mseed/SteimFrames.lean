import PQL.Steim.Block

/-!
# Steim frames in miniSEED

The data of a miniSEED record are frames of sixteen words.  The first word of a frame holds a
two-bit nibble for each of the others, and the first frame also holds the first and the last sample.
The two Steim formats differ in how a word packs differences (`pack`) and how they are read from it
(`read`).  Whenever a word is read as it was packed (`ReadsPacked`), the decoder returns the samples
that the encoder had room for (`decode_encode`).
-/

namespace PQL

namespace Libmseed

/-- How the differences are read from a word with its nibble; there are none if the nibble is not
possible. -/
abbrev ReadWord := BitVec 2 → Quad → Option (List Word)

/-- The nibble and the word for the first of some differences, and how many it packs; there are none
if the first one cannot be packed. -/
abbrev PackWord := List Word → Option (BitVec 2 × Quad × ℕ)

def zeroQuad : Quad := ⟨0, 0, 0, 0⟩

/-! ## Decoding -/

/-- `EXTRACTBITRANGE (frame[0], (30 - (2 * widx)), 2)`. -/
def nibbleAt (w0 : Word) (widx : ℕ) : BitVec 2 := (w0 >>> (30 - 2 * widx)).setWidth 2

/-- What was decoded and what is left of `samplecount`. -/
structure Decoding where
  output : List Word
  samplecount : ℕ

/-- The first difference is ignored; the first sample is `X0`. -/
def Decoding.put (x0 : Word) (s : Decoding) (diff : Word) : Decoding :=
  if s.samplecount = 0 then s
  else ⟨s.output ++ [s.output.getLast?.elim x0 fun x => x + diff], s.samplecount - 1⟩

/-- The words of a frame from `startnibble` on, with their nibbles. -/
def wordsFrom (host : Endian) (swapflag : Bool) (startnibble : ℕ) (frame : List Quad) :
    List (BitVec 2 × Quad) :=
  ((List.range' startnibble (16 - startnibble)).map
    (nibbleAt (readInt host swapflag (frame.headD zeroQuad)))).zip (frame.drop startnibble)

def decodeWords (read : ReadWord) (x0 : Word) :
    List (BitVec 2 × Quad) → Decoding → Option Decoding
  | [], s => some s
  | (nibble, q) :: words, s =>
    if s.samplecount = 0 then some s
    else (read nibble q).bind fun diffs =>
      decodeWords read x0 words (diffs.foldl (Decoding.put x0) s)

/-- The loop over the frames; only the first one starts with the constants. -/
def decodeFrames (read : ReadWord) (host : Endian) (swapflag : Bool) (x0 : Word) :
    ℕ → List (List Quad) → Decoding → Option Decoding
  | _, [], s => some s
  | startnibble, frame :: frames, s =>
    if s.samplecount = 0 then some s
    else (decodeWords read x0 (wordsFrom host swapflag startnibble frame) s).bind
      (decodeFrames read host swapflag x0 1 frames)

/-- The frames of some bytes. -/
def inputFrames (input : List Byte) : List (List Quad) := framesOf (quads input) (input.length / 64)

/-- `msr_decode_steim1` and `msr_decode_steim2`, for a buffer of `outputlength` bytes: the samples,
none for the result `-1`. -/
def decodeSteim (read : ReadWord) (host : Endian) (input : List Byte) (samplecount outputlength : ℤ)
    (swapflag : Bool) : Option (List Word) :=
  if input.length = 0 then some []
  else if outputlength ≤ 0 ∨ input.length / 64 = 0 then none
  else
    let frames := inputFrames input
    let x0 := readInt host swapflag ((frames.headD []).getD 1 zeroQuad)
    (decodeFrames read host swapflag x0 3 frames ⟨[], samplecount.toNat⟩).map Decoding.output

/-! ## Encoding -/

/-- The differences that are waiting, the input from the last of their samples on, and the number of
samples that were packed. -/
structure Encoding where
  diffs : List Word
  input : List Word
  outputsamples : ℕ

/-- Add new differences until there are `k`. -/
def addDiffs (k : ℕ) (diffs : List Word) : List Word → List Word × List Word
  | x :: y :: input =>
    if diffs.length < k then addDiffs k (diffs ++ [y - x]) (y :: input)
    else (diffs, x :: y :: input)
  | input => (diffs, input)

/-- The loop over the words of a frame, of which `n` are left. -/
def encodeWords (pack : PackWord) (k samplecount : ℕ) :
    ℕ → Encoding → Option (List (BitVec 2 × Quad) × Encoding)
  | 0, s => some ([], s)
  | n + 1, s =>
    if s.outputsamples < samplecount then
      let new := addDiffs k s.diffs s.input
      (pack new.1).bind fun word =>
        (encodeWords pack k samplecount n
          ⟨new.1.drop word.2.2, new.2, s.outputsamples + word.2.2⟩).map fun rest =>
            ((word.1, word.2.1) :: rest.1, rest.2)
    else some ([], s)

/-- The loop over the frames, of which `n` are left. -/
def encodeFrames (pack : PackWord) (k samplecount : ℕ) :
    ℕ → ℕ → Encoding → Option (List (List (BitVec 2 × Quad)) × Encoding)
  | _, 0, s => some ([], s)
  | startnibble, n + 1, s =>
    if s.outputsamples < samplecount then
      (encodeWords pack k samplecount (16 - startnibble) s).bind fun frame =>
        (encodeFrames pack k samplecount 1 n frame.2).map fun rest =>
          (frame.1 :: rest.1, rest.2)
    else some ([], s)

/-- `frameptr[0] |= nibble << (30 - 2 * widx)`, for one word after the other. -/
def setNibbles : ℕ → List (BitVec 2) → Word → Word
  | _, [], w0 => w0
  | widx, c :: cs, w0 => setNibbles (widx + 1) cs (w0 ||| (c.setWidth 32 <<< (30 - 2 * widx)))

/-- An `int` that is stored and then swapped if the flag is set. -/
def writeInt (host : Endian) (swapflag : Bool) (v : Word) : Quad :=
  if swapflag then (storeInt host v).reverse else storeInt host v

/-- A frame, the constants behind its first word; what is not set is zero. -/
def layout (host : Endian) (swapflag : Bool) (constants : List Word)
    (words : List (BitVec 2 × Quad)) : List Quad :=
  let set := writeInt host swapflag (setNibbles (constants.length + 1) (words.map Prod.fst) 0) ::
    (constants.map (writeInt host swapflag) ++ words.map Prod.snd)
  set ++ List.replicate (16 - set.length) zeroQuad

/-- What an encoder leaves. -/
inductive Encoded where
  | samples (n : ℕ) (output : List Byte)
  | failure
  /-- `ms_gswap4a (Xnp)` with no frame to point to. -/
  | nullPointer
deriving DecidableEq

/-- `msr_encode_steim1` and `msr_encode_steim2`, into a buffer that holds `output`. -/
def encodeSteim (pack : PackWord) (k : ℕ) (host : Endian) (input : List Word) (output : List Byte)
    (diff0 : Word) (swapflag : Bool) : Encoded :=
  if input = [] then .samples 0 output
  else if output.length = 0 then .failure
  else
    match encodeFrames pack k input.length 3 (output.length / 64) ⟨[diff0], input, 0⟩ with
    | none => .failure
    | some ([], _) => if swapflag then .nullPointer
        else .samples 0 (List.replicate output.length 0)
    | some (first :: frames, s) =>
      let constants := [input.headD 0, input.getD (s.outputsamples - 1) 0]
      let bytes := (layout host swapflag constants first ::
        frames.map (layout host swapflag [])).flatten.flatMap Quad.bytes
      .samples s.outputsamples (bytes ++ List.replicate (output.length - bytes.length) 0)

/-! ## What the decoder computes -/

section Decode

variable {read : ReadWord} {x0 : Word}

/-- The differences of some words, if all of them can be read. -/
def readWords (read : ReadWord) : List (BitVec 2 × Quad) → Option (List Word)
  | [] => some []
  | (nibble, q) :: words =>
    (read nibble q).bind fun diffs => (readWords read words).map fun rest => diffs ++ rest

/-- The samples with some differences, of which the first one is ignored. -/
def samplesFrom (x0 : Word) (diffs : List Word) : List Word :=
  if diffs = [] then [] else x0 :: integrate x0 diffs.tail

theorem readWords_append {ws vs : List (BitVec 2 × Quad)} {ds es : List Word}
    (hw : readWords read ws = some ds) (hv : readWords read vs = some es) :
    readWords read (ws ++ vs) = some (ds ++ es) := by
  induction ws generalizing ds with
  | nil =>
    obtain rfl : [] = ds := Option.some.inj hw
    exact hv
  | cons w ws ih =>
    rw [readWords] at hw
    obtain ⟨as, ha, hw⟩ := Option.bind_eq_some_iff.1 hw
    obtain ⟨bs, hb, rfl⟩ := Option.map_eq_some_iff.1 hw
    rw [List.cons_append, readWords, ha, Option.bind_some, ih hb, Option.map_some,
      List.append_assoc]

theorem readWords_of_append {ws vs : List (BitVec 2 × Quad)} {ds : List Word}
    (h : readWords read (ws ++ vs) = some ds) :
    ∃ as bs, readWords read ws = some as ∧ readWords read vs = some bs ∧ ds = as ++ bs := by
  induction ws generalizing ds with
  | nil => exact ⟨[], ds, rfl, h, rfl⟩
  | cons w ws ih =>
    rw [List.cons_append, readWords] at h
    obtain ⟨as, ha, h⟩ := Option.bind_eq_some_iff.1 h
    obtain ⟨bs, hb, rfl⟩ := Option.map_eq_some_iff.1 h
    obtain ⟨cs, es, hcs, hes, rfl⟩ := ih hb
    refine ⟨as ++ cs, es, ?_, hes, (List.append_assoc _ _ _).symm⟩
    rw [readWords, ha, Option.bind_some, hcs, Option.map_some]

/-- Words without differences are passed over. -/
theorem readWords_of_zero (hunused : ∀ q, read 0 q = some []) {ws : List (BitVec 2 × Quad)}
    (h : ∀ w ∈ ws, w.1 = 0) : readWords read ws = some [] := by
  induction ws with
  | nil => rfl
  | cons w ws ih =>
    rw [readWords, h w List.mem_cons_self, hunused, Option.bind_some,
      ih fun v hv => h v (List.mem_cons_of_mem _ hv)]
    rfl

theorem put_of_zero {s : Decoding} (h : s.samplecount = 0) (d : Word) : s.put x0 d = s := if_pos h

theorem foldl_put_of_zero {s : Decoding} (h : s.samplecount = 0) (ds : List Word) :
    ds.foldl (Decoding.put x0) s = s := by
  induction ds with
  | nil => rfl
  | cons d ds ih => rw [List.foldl_cons, put_of_zero h, ih]

theorem decodeWords_eq {ws : List (BitVec 2 × Quad)} {ds : List Word}
    (h : readWords read ws = some ds) (s : Decoding) :
    decodeWords read x0 ws s = some (ds.foldl (Decoding.put x0) s) := by
  induction ws generalizing ds s with
  | nil =>
    obtain rfl : [] = ds := Option.some.inj h
    rfl
  | cons w ws ih =>
    rw [readWords] at h
    obtain ⟨as, ha, h⟩ := Option.bind_eq_some_iff.1 h
    obtain ⟨bs, hb, rfl⟩ := Option.map_eq_some_iff.1 h
    rw [decodeWords]
    by_cases hzero : s.samplecount = 0
    · rw [if_pos hzero, foldl_put_of_zero hzero]
    · rw [if_neg hzero, ha, Option.bind_some, ih hb, List.foldl_append]

/-- The differences of some frames, if all their words can be read. -/
def readFrames (read : ReadWord) (host : Endian) (swapflag : Bool) :
    ℕ → List (List Quad) → Option (List Word)
  | _, [] => some []
  | startnibble, frame :: frames =>
    (readWords read (wordsFrom host swapflag startnibble frame)).bind fun diffs =>
      (readFrames read host swapflag 1 frames).map fun rest => diffs ++ rest

theorem decodeFrames_eq {host : Endian} {swapflag : Bool} {start : ℕ} {frames : List (List Quad)}
    {ds : List Word} (h : readFrames read host swapflag start frames = some ds) (s : Decoding) :
    decodeFrames read host swapflag x0 start frames s = some (ds.foldl (Decoding.put x0) s) := by
  induction frames generalizing ds s start with
  | nil =>
    obtain rfl : [] = ds := Option.some.inj h
    rfl
  | cons frame frames ih =>
    rw [readFrames] at h
    obtain ⟨as, ha, h⟩ := Option.bind_eq_some_iff.1 h
    obtain ⟨bs, hb, rfl⟩ := Option.map_eq_some_iff.1 h
    rw [decodeFrames]
    by_cases hzero : s.samplecount = 0
    · rw [if_pos hzero, foldl_put_of_zero hzero]
    · rw [if_neg hzero, decodeWords_eq ha, Option.bind_some, ih hb, List.foldl_append]

/-- Behind a sample the decoder integrates, as long as samples are wanted. -/
theorem foldl_put_append (out : List Word) (x : Word) (n : ℕ) (ds : List Word) :
    (ds.foldl (Decoding.put x0) ⟨out ++ [x], n⟩).output = out ++ x :: (integrate x ds).take n := by
  induction ds generalizing out x n with
  | nil => simp
  | cons d ds ih =>
    cases n with
    | zero =>
      rw [foldl_put_of_zero rfl]
      simp
    | succ n =>
      have hput : Decoding.put x0 ⟨out ++ [x], n + 1⟩ d = ⟨(out ++ [x]) ++ [x + d], n⟩ := by
        simp [Decoding.put]
      rw [List.foldl_cons, hput, ih, integrate_cons, List.take_succ_cons, List.append_assoc]
      rfl

theorem foldl_put (n : ℕ) (ds : List Word) :
    (ds.foldl (Decoding.put x0) ⟨[], n⟩).output = (samplesFrom x0 ds).take n := by
  cases ds with
  | nil => simp [samplesFrom]
  | cons d ds =>
    cases n with
    | zero =>
      rw [foldl_put_of_zero rfl]
      simp
    | succ n =>
      have hput : Decoding.put x0 ⟨[], n + 1⟩ d = ⟨[] ++ [x0], n⟩ := rfl
      rw [List.foldl_cons, hput, foldl_put_append, samplesFrom, if_neg (List.cons_ne_nil _ _)]
      rfl

/-- The decoder integrates the differences of its frames from the first constant. -/
theorem decodeSteim_eq {host : Endian} {swapflag : Bool} {input : List Byte} {ds : List Word}
    (h : readFrames read host swapflag 3 (inputFrames input) = some ds)
    (hlength : 64 ≤ input.length) (samplecount : ℤ) {outputlength : ℤ} (hout : 0 < outputlength) :
    decodeSteim read host input samplecount outputlength swapflag =
      some ((samplesFrom (readInt host swapflag
        (((inputFrames input).headD []).getD 1 zeroQuad)) ds).take samplecount.toNat) := by
  rw [decodeSteim, if_neg (by omega), if_neg (by omega)]
  dsimp only
  rw [decodeFrames_eq h, Option.map_some, foldl_put]

end Decode

/-! ## What the encoder packs -/

/-- A word packs differences that fit and is read as it was packed; there is a word for every
difference that fits, and a word that is not used has no differences. -/
structure ReadsPacked (fits : Word → Prop) (pack : PackWord) (read : ReadWord) : Prop where
  read_pack : ∀ {diffs : List Word} {word : BitVec 2 × Quad × ℕ}, pack diffs = some word →
    0 < word.2.2 ∧ word.2.2 ≤ diffs.length ∧ (∀ d ∈ diffs.take word.2.2, fits d) ∧
      read word.1 word.2.1 = some (diffs.take word.2.2)
  pack_isSome : ∀ d diffs, fits d → (pack (d :: diffs)).isSome
  read_unused : ∀ q, read 0 q = some []

section Encode

variable {fits : Word → Prop} {pack : PackWord} {read : ReadWord} {k samplecount : ℕ}

/-- The differences of the samples of an input that is at the first of them. -/
def inputDiffs : List Word → List Word
  | [] => []
  | x :: input => differences x input

/-- The differences that are not packed. -/
def Encoding.remaining (s : Encoding) : List Word := s.diffs ++ inputDiffs s.input

theorem addDiffs_remaining (diffs input : List Word) :
    (addDiffs k diffs input).1 ++ inputDiffs (addDiffs k diffs input).2 =
      diffs ++ inputDiffs input := by
  fun_induction addDiffs k diffs input with
  | case1 diffs x y input hlt ih =>
    rw [ih, List.append_assoc]
    rfl
  | case2 => rfl
  | case3 => rfl

/-- Not all of the differences that are waiting are packed, or nothing remains. -/
theorem addDiffs_ne_nil (hk : 0 < k) {diffs input : List Word}
    (h : diffs ++ inputDiffs input ≠ []) : (addDiffs k diffs input).1 ≠ [] := by
  fun_induction addDiffs k diffs input with
  | case1 diffs x y input hlt ih =>
    apply ih
    rw [List.append_assoc]
    exact List.append_ne_nil_of_right_ne_nil _ (List.cons_ne_nil _ _)
  | case2 diffs x y input hge =>
    rintro rfl
    exact hge hk
  | case3 diffs input hshort =>
    have hnone : inputDiffs input = [] := by
      rcases input with _ | ⟨x, _ | ⟨y, input⟩⟩
      · rfl
      · rfl
      · exact absurd rfl (hshort x y input)
    rwa [hnone, List.append_nil] at h

/-- Between two states the encoder has packed the differences `ds`. -/
structure Packed (fits : Word → Prop) (s t : Encoding) (ds : List Word) : Prop where
  remaining : s.remaining = ds ++ t.remaining
  outputsamples : t.outputsamples = s.outputsamples + ds.length
  fits : ∀ d ∈ ds, fits d

theorem Packed.refl (s : Encoding) : Packed fits s s [] := ⟨rfl, rfl, nofun⟩

theorem Packed.trans {s t u : Encoding} {ds es : List Word} (h : Packed fits s t ds)
    (h' : Packed fits t u es) : Packed fits s u (ds ++ es) where
  remaining := by rw [h.remaining, h'.remaining, List.append_assoc]
  outputsamples := by rw [h'.outputsamples, h.outputsamples, List.length_append, Nat.add_assoc]
  fits d hd := (List.mem_append.1 hd).elim (h.fits d) (h'.fits d)

/-- What is packed and what remains add up to the samples. -/
def Encoding.AddsUp (samplecount : ℕ) (s : Encoding) : Prop :=
  s.outputsamples + s.remaining.length = samplecount

theorem Packed.addsUp {s t : Encoding} {ds : List Word} (h : Packed fits s t ds)
    (hs : s.AddsUp samplecount) : t.AddsUp samplecount := by
  unfold Encoding.AddsUp at hs ⊢
  rw [h.remaining, List.length_append] at hs
  rw [h.outputsamples]
  omega

/-- One word. -/
theorem ReadsPacked.packed_word (h : ReadsPacked fits pack read) {s : Encoding}
    {word : BitVec 2 × Quad × ℕ} (hpack : pack (addDiffs k s.diffs s.input).1 = some word) :
    Packed fits s ⟨(addDiffs k s.diffs s.input).1.drop word.2.2, (addDiffs k s.diffs s.input).2,
      s.outputsamples + word.2.2⟩ ((addDiffs k s.diffs s.input).1.take word.2.2) := by
  obtain ⟨-, hle, hfits, -⟩ := h.read_pack hpack
  refine ⟨?_, ?_, hfits⟩
  · unfold Encoding.remaining
    rw [← List.append_assoc, List.take_append_drop, addDiffs_remaining]
  · rw [List.length_take_of_le hle]

/-- The words of a frame hold the differences that the encoder has packed. -/
theorem encodeWords_spec (h : ReadsPacked fits pack read) {n : ℕ} {s t : Encoding}
    {words : List (BitVec 2 × Quad)}
    (hencode : encodeWords pack k samplecount n s = some (words, t)) :
    ∃ ds, readWords read words = some ds ∧ Packed fits s t ds ∧ words.length ≤ n ∧
      words.length ≤ ds.length ∧ (words.length = n ∨ samplecount ≤ t.outputsamples) := by
  induction n generalizing s words with
  | zero =>
    obtain ⟨rfl, rfl⟩ := Prod.mk.inj (Option.some.inj hencode)
    exact ⟨[], rfl, Packed.refl _, le_rfl, le_rfl, Or.inl rfl⟩
  | succ n ih =>
    rw [encodeWords] at hencode
    split_ifs at hencode with hlt
    · obtain ⟨word, hpack, hencode⟩ := Option.bind_eq_some_iff.1 hencode
      obtain ⟨⟨rest, t'⟩, hrest, heq⟩ := Option.map_eq_some_iff.1 hencode
      obtain ⟨rfl, rfl⟩ := Prod.mk.inj heq
      obtain ⟨hpos, hle, -, hread⟩ := h.read_pack hpack
      obtain ⟨ds, hds, hpacked, hn, hmany, hend⟩ := ih hrest
      refine ⟨_ ++ ds, ?_, (h.packed_word hpack).trans hpacked, Nat.succ_le_succ hn, ?_,
        hend.imp (congrArg (· + 1)) id⟩
      · rw [readWords, hread, Option.bind_some, hds, Option.map_some]
      · rw [List.length_append, List.length_take_of_le hle]
        change rest.length + 1 ≤ _
        omega
    · obtain ⟨rfl, rfl⟩ := Prod.mk.inj (Option.some.inj hencode)
      exact ⟨[], rfl, Packed.refl _, Nat.zero_le _, le_rfl, Or.inr (not_lt.1 hlt)⟩

/-- Words can only be missing for a difference that does not fit. -/
theorem encodeWords_isSome (h : ReadsPacked fits pack read) (hk : 0 < k) (n : ℕ) {s : Encoding}
    (hs : s.AddsUp samplecount) (hfits : ∀ d ∈ s.remaining, fits d) :
    (encodeWords pack k samplecount n s).isSome := by
  induction n generalizing s with
  | zero => rfl
  | succ n ih =>
    rw [encodeWords]
    split_ifs with hlt
    · have hremaining := addDiffs_remaining (k := k) s.diffs s.input
      have hne : (addDiffs k s.diffs s.input).1 ≠ [] := by
        refine addDiffs_ne_nil hk fun hnil => ?_
        have hnone : s.remaining = [] := hnil
        rw [Encoding.AddsUp, hnone, List.length_nil] at hs
        omega
      obtain ⟨d, diffs, hdiffs⟩ := List.exists_cons_of_ne_nil hne
      have hd : fits d := by
        apply hfits d
        unfold Encoding.remaining
        rw [← hremaining, hdiffs]
        exact List.mem_append_left _ List.mem_cons_self
      obtain ⟨word, hpack⟩ := Option.isSome_iff_exists.1 (h.pack_isSome d diffs hd)
      rw [← hdiffs] at hpack
      have hpacked := h.packed_word hpack
      have hrest := ih (hpacked.addsUp hs) fun e he =>
        hfits e (hpacked.remaining ▸ List.mem_append_right _ he)
      dsimp only
      rw [hpack, Option.bind_some, Option.isSome_map]
      exact hrest
    · rfl

/-- The frames hold the differences that the encoder has packed, and no frame is left when some
samples are. -/
theorem encodeFrames_spec (h : ReadsPacked fits pack read) {start n : ℕ} (hone : 1 ≤ start)
    (hstart : start ≤ 16) {s t : Encoding} {frames : List (List (BitVec 2 × Quad))}
    (hencode : encodeFrames pack k samplecount start n s = some (frames, t)) :
    ∃ ds, readWords read frames.flatten = some ds ∧ Packed fits s t ds ∧ frames.length ≤ n ∧
      (∀ f ∈ frames.head?, f.length ≤ 16 - start) ∧ (∀ f ∈ frames.tail, f.length ≤ 15) ∧
      (samplecount ≤ t.outputsamples ∨ 15 * n + 1 ≤ ds.length + start) := by
  induction n generalizing start s frames with
  | zero =>
    obtain ⟨rfl, rfl⟩ := Prod.mk.inj (Option.some.inj hencode)
    exact ⟨[], rfl, Packed.refl _, le_rfl, nofun, nofun, Or.inr (by omega)⟩
  | succ n ih =>
    rw [encodeFrames] at hencode
    split_ifs at hencode with hlt
    · obtain ⟨⟨words, s'⟩, hwords, hencode⟩ := Option.bind_eq_some_iff.1 hencode
      obtain ⟨⟨rest, t'⟩, hrest, heq⟩ := Option.map_eq_some_iff.1 hencode
      obtain ⟨rfl, rfl⟩ := Prod.mk.inj heq
      obtain ⟨ds, hds, hpacked, hn, hmany, hend⟩ := encodeWords_spec h hwords
      obtain ⟨es, hes, hpacked', hn', hhead, htail, hend'⟩ := ih le_rfl (by decide) hrest
      refine ⟨ds ++ es, ?_, hpacked.trans hpacked', Nat.succ_le_succ hn', ?_, ?_, ?_⟩
      · rw [List.flatten_cons]
        exact readWords_append hds hes
      · rintro f hf
        obtain rfl : words = f := Option.some.inj hf
        exact hn
      · intro f hf
        cases rest with
        | nil => exact absurd hf List.not_mem_nil
        | cons r rest =>
          rcases List.mem_cons.1 hf with rfl | hf
          · exact hhead _ rfl
          · exact htail f hf
      · have hlater : t'.outputsamples = s'.outputsamples + es.length := hpacked'.outputsamples
        rw [List.length_append]
        rcases hend with hfull | hend
        · rcases hend' with hend' | hroom
          · exact Or.inl hend'
          · exact Or.inr (by omega)
        · exact Or.inl (hlater ▸ Nat.le_add_right_of_le hend)
    · obtain ⟨rfl, rfl⟩ := Prod.mk.inj (Option.some.inj hencode)
      exact ⟨[], rfl, Packed.refl _, Nat.zero_le _, nofun, nofun, Or.inl (not_lt.1 hlt)⟩

theorem encodeFrames_isSome (h : ReadsPacked fits pack read) (hk : 0 < k) (start n : ℕ)
    {s : Encoding} (hs : s.AddsUp samplecount) (hfits : ∀ d ∈ s.remaining, fits d) :
    (encodeFrames pack k samplecount start n s).isSome := by
  induction n generalizing start s with
  | zero => rfl
  | succ n ih =>
    rw [encodeFrames]
    split_ifs
    · obtain ⟨⟨words, t⟩, hwords⟩ :=
        Option.isSome_iff_exists.1 (encodeWords_isSome h hk (16 - start) hs hfits)
      obtain ⟨ds, -, hpacked, -⟩ := encodeWords_spec h hwords
      rw [hwords, Option.bind_some, Option.isSome_map]
      exact ih 1 (hpacked.addsUp hs) fun d hd =>
        hfits d (hpacked.remaining ▸ List.mem_append_right _ hd)
    · rfl

end Encode

/-! ## Frames in memory -/

section Layout

variable {host host' : Endian} {swapflag swapflag' : Bool}

theorem writeInt_eq (v : Word) : writeInt host swapflag v = storeInt (host.under swapflag) v := by
  cases swapflag
  · rfl
  · cases host <;> rfl

theorem readInt_writeInt (horder : host.under swapflag = host'.under swapflag') (v : Word) :
    readInt host' swapflag' (writeInt host swapflag v) = v := by
  rw [writeInt_eq, readInt_eq, horder, loadInt_storeInt]

@[simp] theorem nibbleAt_zero (i : ℕ) : nibbleAt 0 i = 0 := by
  unfold nibbleAt
  simp

theorem nibbleAt_or (v w : Word) (i : ℕ) :
    nibbleAt (v ||| w) i = nibbleAt v i ||| nibbleAt w i := by
  unfold nibbleAt
  rw [BitVec.ushiftRight_or_distrib, BitVec.setWidth_or]

/-- The nibble of a word is seen there and nowhere else. -/
theorem nibbleAt_shiftLeft (c : BitVec 2) {widx i : ℕ} (hw : widx < 16) (hi : i < 16) :
    nibbleAt (c.setWidth 32 <<< (30 - 2 * widx)) i = if i = widx then c else 0 := by
  unfold nibbleAt
  apply BitVec.eq_of_getLsbD_eq
  intro j hj
  rw [BitVec.getLsbD_setWidth, BitVec.getLsbD_ushiftRight, BitVec.getLsbD_shiftLeft,
    BitVec.getLsbD_setWidth]
  split_ifs with h
  · subst h
    have h₁ : 30 - 2 * i + j < 32 := by omega
    have h₂ : j < 32 := by omega
    simp [hj, h₁, h₂]
  · by_cases hlow : 30 - 2 * i + j < 30 - 2 * widx
    · simp [hlow]
    · have hhigh : 2 ≤ 30 - 2 * i + j - (30 - 2 * widx) := by omega
      simp [BitVec.getLsbD_of_ge c _ hhigh]

theorem nibbleAt_setNibbles {widx i : ℕ} {cs : List (BitVec 2)} (hw : widx + cs.length ≤ 16)
    (hi : i < 16) (w0 : Word) :
    nibbleAt (setNibbles widx cs w0) i =
      nibbleAt w0 i ||| if widx ≤ i then cs.getD (i - widx) 0 else 0 := by
  induction cs generalizing widx w0 with
  | nil => simp [setNibbles]
  | cons c cs ih =>
    rw [List.length_cons] at hw
    rw [setNibbles, ih (by omega), nibbleAt_or, nibbleAt_shiftLeft c (by omega) hi, BitVec.or_assoc]
    congr 1
    rcases lt_trichotomy i widx with hlt | rfl | hgt
    · rw [if_neg (by omega), if_neg (by omega), if_neg (by omega)]
      rfl
    · rw [if_pos rfl, if_neg (by omega), if_pos le_rfl, Nat.sub_self]
      exact BitVec.or_zero
    · rw [if_neg (by omega), if_pos (by omega), if_pos (by omega),
        show i - widx = i - (widx + 1) + 1 by omega, List.getD_cons_succ]
      exact BitVec.zero_or

variable {constants : List Word} {words : List (BitVec 2 × Quad)}

theorem length_layout (h : constants.length + words.length ≤ 15) :
    (layout host swapflag constants words).length = 16 := by
  simp only [layout, List.length_append, List.length_cons, List.length_map, List.length_replicate]
  omega

/-- The words of a frame and its nibbles, behind the constants. -/
theorem wordsFrom_layout (horder : host.under swapflag = host'.under swapflag')
    (h : constants.length + words.length ≤ 15) :
    ∃ n, wordsFrom host' swapflag' (constants.length + 1) (layout host swapflag constants words) =
      words ++ List.replicate n (0, zeroQuad) := by
  refine ⟨15 - constants.length - words.length, ?_⟩
  have hhead : (layout host swapflag constants words).headD zeroQuad = writeInt host swapflag
      (setNibbles (constants.length + 1) (words.map Prod.fst) 0) := rfl
  have hdrop : (layout host swapflag constants words).drop (constants.length + 1) =
      words.map Prod.snd ++ List.replicate (15 - constants.length - words.length) zeroQuad := by
    unfold layout
    simp only [List.cons_append, List.drop_succ_cons, List.append_assoc, List.length_cons,
      List.length_append, List.length_map]
    rw [List.drop_left' (by rw [List.length_map])]
    congr 2
    omega
  have hnibbles : (List.range' (constants.length + 1) (16 - (constants.length + 1))).map
      (nibbleAt (setNibbles (constants.length + 1) (words.map Prod.fst) 0)) =
      words.map Prod.fst ++ List.replicate (15 - constants.length - words.length) 0 := by
    refine List.ext_getElem ?_ fun i hi hi' => ?_
    · simp only [List.length_map, List.length_range', List.length_append, List.length_replicate]
      omega
    · rw [List.length_map, List.length_range'] at hi
      rw [List.getElem_map, List.getElem_range',
        nibbleAt_setNibbles (by rw [List.length_map]; omega) (by omega), if_pos (by omega),
        show constants.length + 1 + 1 * i - (constants.length + 1) = i by omega,
        List.getElem_append, nibbleAt_zero]
      refine BitVec.zero_or.trans ?_
      split_ifs with hlt
      · exact List.getD_eq_getElem _ 0 hlt
      · rw [List.getElem_replicate]
        exact List.getD_eq_default _ 0 (not_lt.1 hlt)
  unfold wordsFrom
  rw [hhead, readInt_writeInt horder, hnibbles, hdrop,
    List.zip_append (by rw [List.length_map, List.length_map]), List.zip_replicate,
    min_self, List.zip_map', List.map_id']

variable {fits : Word → Prop} {pack : PackWord} {read : ReadWord}

theorem readWords_layout (h : ReadsPacked fits pack read)
    (horder : host.under swapflag = host'.under swapflag')
    (hlength : constants.length + words.length ≤ 15) {ds : List Word}
    (hwords : readWords read words = some ds) :
    readWords read (wordsFrom host' swapflag' (constants.length + 1)
      (layout host swapflag constants words)) = some ds := by
  obtain ⟨n, hfrom⟩ := wordsFrom_layout horder hlength
  have hunused : readWords read (List.replicate n (0, zeroQuad)) = some [] :=
    readWords_of_zero h.read_unused fun w hw => by rw [List.eq_of_mem_replicate hw]
  rw [hfrom, readWords_append hwords hunused, List.append_nil]

/-- A frame of zeros. -/
theorem readWords_zero (h : ReadsPacked fits pack read) (start n : ℕ) :
    readWords read (wordsFrom host swapflag start (List.replicate n zeroQuad)) = some [] := by
  apply readWords_of_zero h.read_unused
  intro w hw
  have hhead : (List.replicate n zeroQuad).headD zeroQuad = zeroQuad := by cases n <;> rfl
  have hzero : readInt host swapflag zeroQuad = 0 := by cases host <;> cases swapflag <;> rfl
  obtain ⟨i, -, hi⟩ := List.mem_map.1 (List.of_mem_zip hw).1
  rw [hhead, hzero, nibbleAt_zero] at hi
  exact hi.symm

theorem readFrames_zero (h : ReadsPacked fits pack read) (start n m : ℕ) :
    readFrames read host swapflag start (framesOf (List.replicate n zeroQuad) m) = some [] := by
  induction m generalizing start n with
  | zero => rfl
  | succ m ih =>
    rw [framesOf, List.take_replicate, List.drop_replicate, readFrames, readWords_zero h,
      Option.bind_some, ih]
    rfl

theorem readFrames_layout (h : ReadsPacked fits pack read)
    (horder : host.under swapflag = host'.under swapflag') {frames : List (List (BitVec 2 × Quad))}
    (hlength : ∀ f ∈ frames, f.length ≤ 15) {ds : List Word}
    (hframes : readWords read frames.flatten = some ds) (n m : ℕ) :
    readFrames read host' swapflag' 1
      (frames.map (layout host swapflag []) ++ framesOf (List.replicate n zeroQuad) m) =
        some ds := by
  induction frames generalizing ds with
  | nil =>
    obtain rfl : [] = ds := Option.some.inj hframes
    exact readFrames_zero h 1 n m
  | cons f frames ih =>
    rw [List.flatten_cons] at hframes
    obtain ⟨as, bs, has, hbs, rfl⟩ := readWords_of_append hframes
    have hf : ([] : List Word).length + f.length ≤ 15 := by
      rw [List.length_nil, Nat.zero_add]
      exact hlength f List.mem_cons_self
    have hfirst := readWords_layout h horder hf has
    have hrest := ih (fun g hg => hlength g (List.mem_cons_of_mem _ hg)) hbs
    rw [List.map_cons, List.cons_append, readFrames]
    rw [List.length_nil, Nat.zero_add] at hfirst
    rw [hfirst, Option.bind_some, hrest, Option.map_some]

/-! ## Bytes -/

theorem framesOf_append (fs : List (List Quad)) (hfs : ∀ f ∈ fs, f.length = 16) (rest : List Quad)
    (m : ℕ) : framesOf (fs.flatten ++ rest) (fs.length + m) = fs ++ framesOf rest m := by
  induction fs with
  | nil => rw [List.flatten_nil, List.nil_append, List.length_nil, Nat.zero_add, List.nil_append]
  | cons f fs ih =>
    have hf : f.length = 16 := hfs f List.mem_cons_self
    rw [List.length_cons, Nat.add_right_comm, framesOf, List.flatten_cons, List.append_assoc, ← hf,
      List.take_left, List.drop_left, ih fun g hg => hfs g (List.mem_cons_of_mem f hg)]
    rfl

theorem quads_append (qs : List Quad) (rest : List Byte) :
    quads (qs.flatMap Quad.bytes ++ rest) = qs ++ quads rest := by
  induction qs with
  | nil => rfl
  | cons q qs ih => rw [List.flatMap_cons, List.append_assoc, quads_bytes_append, ih]; rfl

theorem quads_replicate_zero (n : ℕ) :
    quads (List.replicate n 0) = List.replicate (n / 4) zeroQuad := by
  induction n using Nat.strong_induction_on with
  | _ n ih =>
    match n with
    | 0 | 1 | 2 | 3 => rfl
    | n + 4 =>
      change zeroQuad :: quads (List.replicate n 0) = _
      rw [ih n (by omega), Nat.add_div_right n (by decide)]
      rfl

theorem length_flatMap_bytes (qs : List Quad) : (qs.flatMap Quad.bytes).length = 4 * qs.length := by
  rw [List.length_flatMap]
  simp [Nat.mul_comm]

/-- A buffer that starts with some frames and is filled up with zeros. -/
theorem inputFrames_layouts (fs : List (List Quad)) (hfs : ∀ f ∈ fs, f.length = 16) {n : ℕ}
    (hn : fs.length ≤ n / 64) :
    let bytes := fs.flatten.flatMap Quad.bytes
    bytes.length ≤ n ∧ ∃ a b,
      inputFrames (bytes ++ List.replicate (n - bytes.length) 0) =
        fs ++ framesOf (List.replicate a zeroQuad) b := by
  intro bytes
  have hlength : bytes.length = 64 * fs.length := by
    rw [length_flatMap_bytes, List.length_flatten, List.map_congr_left hfs, List.map_const',
      List.sum_replicate, smul_eq_mul]
    omega
  refine ⟨by omega, (n - bytes.length) / 4, n / 64 - fs.length, ?_⟩
  have htotal : (bytes ++ List.replicate (n - bytes.length) 0).length / 64 =
      fs.length + (n / 64 - fs.length) := by
    rw [List.length_append, List.length_replicate]
    omega
  rw [inputFrames, htotal, quads_append, quads_replicate_zero, framesOf_append fs hfs]

end Layout

/-! ## Decoding what was encoded -/

section RoundTrip

variable {fits : Word → Prop} {pack : PackWord} {read : ReadWord} {k : ℕ}

/-- The state in which the encoder starts. -/
def encodingStart (input : List Word) (diff0 : Word) : Encoding := ⟨[diff0], input, 0⟩

theorem encodingStart_addsUp {input : List Word} (hinput : input ≠ []) (diff0 : Word) :
    (encodingStart input diff0).AddsUp input.length := by
  obtain ⟨x, xs, rfl⟩ := List.exists_cons_of_ne_nil hinput
  change 0 + ([diff0] ++ differences x xs).length = xs.length + 1
  rw [List.length_append, length_differences, List.length_singleton]
  omega

/-- The samples of the first differences are the first samples. -/
theorem samplesFrom_take {input : List Word} (hinput : input ≠ []) (diff0 : Word) (n : ℕ) :
    samplesFrom (input.headD 0) ((encodingStart input diff0).remaining.take n) = input.take n := by
  obtain ⟨x, xs, rfl⟩ := List.exists_cons_of_ne_nil hinput
  change samplesFrom x ((diff0 :: differences x xs).take n) = (x :: xs).take n
  cases n with
  | zero => rfl
  | succ n =>
    have htake : ∀ (y : Word) (ys : List Word) (m : ℕ),
        integrate y ((differences y ys).take m) = ys.take m := by
      intro y ys m
      induction ys generalizing y m with
      | nil => simp
      | cons z ys ih =>
        cases m with
        | zero => rfl
        | succ m =>
          rw [differences_cons, List.take_succ_cons, integrate_cons, add_sub_cancel, ih]
          rfl
    rw [List.take_succ_cons, List.take_succ_cons, samplesFrom, if_neg (List.cons_ne_nil _ _),
      List.tail_cons, htake]

/-- There is a frame if there are a sample and room. -/
theorem encodeFrames_ne_nil {input : List Word} (hinput : input ≠ []) {m : ℕ} (hm : 0 < m)
    {diff0 : Word} {frames : List (List (BitVec 2 × Quad))} {s : Encoding}
    (hframes : encodeFrames pack k input.length 3 m (encodingStart input diff0) =
      some (frames, s)) : frames ≠ [] := by
  rintro rfl
  obtain ⟨m, rfl⟩ : ∃ l, m = l + 1 := ⟨m - 1, by omega⟩
  have hpos : (encodingStart input diff0).outputsamples < input.length :=
    List.length_pos_iff.2 hinput
  rw [encodeFrames, if_pos hpos] at hframes
  obtain ⟨frame, -, hrest⟩ := Option.bind_eq_some_iff.1 hframes
  obtain ⟨rest, -, heq⟩ := Option.map_eq_some_iff.1 hrest
  exact absurd (congrArg Prod.fst heq) (List.cons_ne_nil _ _)

/-- What the encoder does in a buffer that has room for a frame. -/
theorem encodeSteim_samples_iff {host : Endian} {input : List Word} {output : List Byte}
    {diff0 : Word} {swapflag : Bool} (hinput : input ≠ []) (hroom : 64 ≤ output.length) {n : ℕ}
    {bytes : List Byte} :
    encodeSteim pack k host input output diff0 swapflag = .samples n bytes ↔
      ∃ first frames s, encodeFrames pack k input.length 3 (output.length / 64)
          (encodingStart input diff0) = some (first :: frames, s) ∧ n = s.outputsamples ∧
        bytes =
          let written := (layout host swapflag
            [input.headD 0, input.getD (s.outputsamples - 1) 0] first ::
              frames.map (layout host swapflag [])).flatten.flatMap Quad.bytes
          written ++ List.replicate (output.length - written.length) 0 := by
  have hstart : encodingStart input diff0 = ⟨[diff0], input, 0⟩ := rfl
  rw [encodeSteim, if_neg hinput, if_neg (by omega), ← hstart]
  rcases hframes : encodeFrames pack k input.length 3 (output.length / 64)
    (encodingStart input diff0) with _ | ⟨_ | ⟨first, frames⟩, s⟩
  · simp
  · exact absurd rfl (encodeFrames_ne_nil hinput (by omega) hframes)
  · dsimp only
    rw [Encoded.samples.injEq]
    constructor
    · rintro ⟨rfl, rfl⟩
      exact ⟨first, frames, s, rfl, rfl, rfl⟩
    · rintro ⟨first', frames', s', heq, rfl, rfl⟩
      obtain ⟨h, rfl⟩ := Prod.mk.inj (Option.some.inj heq)
      obtain ⟨rfl, rfl⟩ := List.cons.inj h
      exact ⟨rfl, rfl⟩

theorem encodeSteim_cases (pack : PackWord) (k : ℕ) (host : Endian) {input : List Word}
    {output : List Byte} (hinput : input ≠ []) (hroom : 64 ≤ output.length) (diff0 : Word)
    (swapflag : Bool) :
    encodeSteim pack k host input output diff0 swapflag = .failure ∨
      ∃ n bytes, encodeSteim pack k host input output diff0 swapflag = .samples n bytes := by
  rcases hframes : encodeFrames pack k input.length 3 (output.length / 64)
    (encodingStart input diff0) with _ | ⟨_ | ⟨first, frames⟩, s⟩
  · left
    change encodeFrames pack k input.length 3 (output.length / 64) ⟨[diff0], input, 0⟩ = none
      at hframes
    rw [encodeSteim, if_neg hinput, if_neg (by omega), hframes]
  · exact absurd rfl (encodeFrames_ne_nil hinput (by omega) hframes)
  · right
    exact ⟨_, _, (encodeSteim_samples_iff hinput hroom).2 ⟨first, frames, s, hframes, rfl, rfl⟩⟩

/-- What an encoder leaves in a buffer that has room for a frame. -/
theorem encodeSteim_spec (h : ReadsPacked fits pack read) {host : Endian} {input : List Word}
    {output bytes : List Byte} {diff0 : Word} {swapflag : Bool} {n : ℕ} (hinput : input ≠ [])
    (hroom : 64 ≤ output.length)
    (hencode : encodeSteim pack k host input output diff0 swapflag = .samples n bytes) :
    bytes.length = output.length ∧ min input.length (15 * (output.length / 64) - 2) ≤ n ∧
      n ≤ input.length ∧ (∀ d ∈ (encodingStart input diff0).remaining.take n, fits d) ∧
      ∀ {host' : Endian} {swapflag' : Bool}, host.under swapflag = host'.under swapflag' →
        readFrames read host' swapflag' 3 (inputFrames bytes) =
            some ((encodingStart input diff0).remaining.take n) ∧
          readInt host' swapflag' (((inputFrames bytes).headD []).getD 1 zeroQuad) =
            input.headD 0 := by
  obtain ⟨first, frames, s, hframes, rfl, rfl⟩ :=
    (encodeSteim_samples_iff hinput hroom).1 hencode
  obtain ⟨ds, hds, hpacked, hcount, hhead, htail, hend⟩ :=
    encodeFrames_spec h (by decide) (by decide) hframes
  have hsamples : s.outputsamples = ds.length := hpacked.outputsamples.trans (Nat.zero_add _)
  have htake : (encodingStart input diff0).remaining.take s.outputsamples = ds := by
    rw [hsamples, hpacked.remaining, List.take_left]
  have hs := hpacked.addsUp (encodingStart_addsUp hinput diff0)
  unfold Encoding.AddsUp at hs
  set constants := [input.headD 0, input.getD (s.outputsamples - 1) 0]
  have hfirst : constants.length + first.length ≤ 15 := by
    have := hhead first rfl
    rw [show constants.length = 2 from rfl]
    omega
  have hlater : ∀ f ∈ frames, f.length ≤ 15 := htail
  set fs := layout host swapflag constants first :: frames.map (layout host swapflag []) with hfs
  have hsixteen : ∀ f ∈ fs, f.length = 16 := by
    intro f hf
    rcases List.mem_cons.1 hf with rfl | hf
    · exact length_layout hfirst
    · obtain ⟨g, hg, rfl⟩ := List.mem_map.1 hf
      refine length_layout ?_
      rw [List.length_nil, Nat.zero_add]
      exact hlater g hg
  have hfit : fs.length ≤ output.length / 64 := by
    rw [hfs, List.length_cons, List.length_map]
    exact hcount
  obtain ⟨hle, a, b, hinputFrames⟩ := inputFrames_layouts fs hsixteen hfit
  refine ⟨?_, by omega, by omega, ?_, ?_⟩
  · rw [List.length_append, List.length_replicate]
    omega
  · rw [htake]
    exact hpacked.fits
  · intro host' swapflag' horder
    obtain ⟨as, bs, has, hbs, rfl⟩ := readWords_of_append hds
    have hread := readWords_layout h horder hfirst has
    have hrest := readFrames_layout h horder hlater hbs a b
    rw [hinputFrames, htake]
    refine ⟨?_, readInt_writeInt horder _⟩
    rw [hfs, List.cons_append, readFrames, show 3 = constants.length + 1 from rfl, hread,
      Option.bind_some, hrest, Option.map_some]

/-- Whatever the numbers of samples are that a buffer has room for and that are wanted, decoding
returns the first samples. -/
theorem decodeSteim_encodeSteim (h : ReadsPacked fits pack read) {host host' : Endian}
    {input : List Word} {output bytes : List Byte} {diff0 : Word} {swapflag swapflag' : Bool}
    {n : ℕ} (hinput : input ≠ []) (hroom : 64 ≤ output.length)
    (hencode : encodeSteim pack k host input output diff0 swapflag = .samples n bytes)
    (horder : host.under swapflag = host'.under swapflag') (samplecount : ℤ) {outputlength : ℤ}
    (hout : 0 < outputlength) :
    decodeSteim read host' bytes samplecount outputlength swapflag' =
      some ((input.take n).take samplecount.toNat) := by
  obtain ⟨hlength, -, -, -, hread⟩ := encodeSteim_spec h hinput hroom hencode
  obtain ⟨hframes, hx0⟩ := hread horder
  rw [decodeSteim_eq hframes (by omega) samplecount hout, hx0, samplesFrom_take hinput]

/-- The encoder fails only if a difference does not fit. -/
theorem encodeSteim_isSamples (h : ReadsPacked fits pack read) (hk : 0 < k) {host : Endian}
    {input : List Word} {output : List Byte} {diff0 : Word} {swapflag : Bool} (hinput : input ≠ [])
    (hroom : 64 ≤ output.length)
    (hfits : ∀ d ∈ (encodingStart input diff0).remaining, fits d) :
    ∃ n bytes, encodeSteim pack k host input output diff0 swapflag = .samples n bytes := by
  obtain ⟨⟨frames, s⟩, hframes⟩ := Option.isSome_iff_exists.1
    (encodeFrames_isSome h hk 3 (output.length / 64) (encodingStart_addsUp hinput diff0) hfits)
  obtain ⟨first, rest, rfl⟩ :=
    List.exists_cons_of_ne_nil (encodeFrames_ne_nil hinput (by omega) hframes)
  exact ⟨_, _, (encodeSteim_samples_iff hinput hroom).2 ⟨first, rest, s, hframes, rfl, rfl⟩⟩

end RoundTrip

end Libmseed

end PQL
