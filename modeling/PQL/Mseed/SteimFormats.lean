import PQL.Mseed.SteimFrames
import PQL.Lib.SignedFields
import PQL.Data.Words

/-!
# Steim1 and Steim2 records

The words of the two Steim formats of miniSEED.  Decoding what was encoded returns the samples that
were packed, between hosts of any byte order (`steim1_decode_encode`, `steim2_decode_encode`).
Steim1 packs every difference; Steim2 packs those of at most 30 bits.
-/

namespace PQL

namespace Libmseed

/-- `BITWIDTH`. -/
def bitwidth (d : Word) : ℕ :=
  if d.toInt ≥ -8 ∧ d.toInt ≤ 7 then 4
  else if d.toInt ≥ -16 ∧ d.toInt ≤ 15 then 5
  else if d.toInt ≥ -32 ∧ d.toInt ≤ 31 then 6
  else if d.toInt ≥ -128 ∧ d.toInt ≤ 127 then 8
  else if d.toInt ≥ -512 ∧ d.toInt ≤ 511 then 10
  else if d.toInt ≥ -16384 ∧ d.toInt ≤ 16383 then 15
  else if d.toInt ≥ -32768 ∧ d.toInt ≤ 32767 then 16
  else if d.toInt ≥ -536870912 ∧ d.toInt ≤ 536870911 then 30
  else 32

theorem fits_bitwidth (d : Word) : Fits (bitwidth d) d := by
  have hlow := BitVec.le_toInt d
  have hhigh := BitVec.toInt_lt (x := d)
  unfold bitwidth Fits
  split_ifs <;> norm_num at * <;> omega

theorem fits_of_bitwidth_le {w : ℕ} {d : Word} (h : bitwidth d ≤ w) : Fits w d := by
  obtain ⟨hlow, hhigh⟩ := fits_bitwidth d
  have hpow : (2 : ℤ) ^ (bitwidth d - 1) ≤ 2 ^ (w - 1) :=
    pow_le_pow_right₀ (by decide) (by omega)
  exact ⟨by omega, by omega⟩

theorem bitwidth_le_thirty {d : Word} (h : Fits 30 d) : bitwidth d ≤ 30 := by
  obtain ⟨hlow, hhigh⟩ := h
  norm_num at hlow hhigh
  unfold bitwidth
  split_ifs <;> omega

/-! ## Bytes and halves -/

section Words

variable (host : Endian) (swapflag : Bool)

/-- `ms_gswap2a`, if the flag is set. -/
def swapPair (p : Pair) : Pair := if swapflag then p.reverse else p

/-- `word->d8`. -/
def packBytes (diffs : List Word) : Quad :=
  let d := fun i => (diffs.getD i 0).setWidth 8
  ⟨d 0, d 1, d 2, d 3⟩

/-- `word->d16`. -/
def packHalves (diffs : List Word) : Quad :=
  let d := fun i => swapPair swapflag (storePair host ((diffs.getD i 0).setWidth 16))
  ⟨(d 0).b0, (d 0).b1, (d 1).b0, (d 1).b1⟩

def readBytes (q : Quad) : List Word := q.bytes.map (BitVec.signExtend 32)

def readHalves (q : Quad) : List Word :=
  [⟨q.b0, q.b1⟩, ⟨q.b2, q.b3⟩].map fun p : Pair =>
    (loadShort host (swapPair swapflag p)).signExtend 32

/-- The first `count` differences have at most `width` bits. -/
def AllWithin (width count : ℕ) (diffs : List Word) : Prop :=
  ∀ d ∈ diffs.take count, bitwidth d ≤ width

instance (width count : ℕ) (diffs : List Word) : Decidable (AllWithin width count diffs) :=
  inferInstanceAs (Decidable (∀ d ∈ diffs.take count, bitwidth d ≤ width))

/-! ## Steim1 -/

/-- The encoder does not look for a word when no difference is waiting. -/
def packSteim1 : PackWord := fun diffs =>
  if diffs = [] then none
  else if diffs.length = 4 ∧ AllWithin 8 4 diffs then some (1, packBytes diffs, 4)
  else if diffs.length ≥ 2 ∧ AllWithin 16 2 diffs then
    some (2, packHalves host swapflag diffs, 2)
  else some (3, writeInt host swapflag (diffs.getD 0 0), 1)

def readSteim1 : ReadWord := fun nibble q =>
  if nibble = 0 then some []
  else if nibble = 1 then some (readBytes q)
  else if nibble = 2 then some (readHalves host swapflag q)
  else some [readInt host swapflag q]

def msrEncodeSteim1 (input : List Word) (output : List Byte) (diff0 : Word) : Encoded :=
  encodeSteim (packSteim1 host swapflag) 4 host input output diff0 swapflag

def msrDecodeSteim1 (input : List Byte) (samplecount outputlength : ℤ) : Option (List Word) :=
  decodeSteim (readSteim1 host swapflag) host input samplecount outputlength swapflag

/-! ## Steim2 -/

/-- A word of `count` differences of `width` bits below the code `dnib`. -/
def packWidth (nibble dnib : BitVec 2) (count width : ℕ) (diffs : List Word) :
    BitVec 2 × Quad × ℕ :=
  (nibble, writeInt host swapflag (setFields width (diffs.take count) |||
    (dnib.setWidth 32 <<< 30)), count)

def packSteim2 : PackWord := fun diffs =>
  if diffs.length = 7 ∧ AllWithin 4 7 diffs then some (packWidth host swapflag 3 2 7 4 diffs)
  else if diffs.length ≥ 6 ∧ AllWithin 5 6 diffs then some (packWidth host swapflag 3 1 6 5 diffs)
  else if diffs.length ≥ 5 ∧ AllWithin 6 5 diffs then some (packWidth host swapflag 3 0 5 6 diffs)
  else if diffs.length ≥ 4 ∧ AllWithin 8 4 diffs then some (1, packBytes diffs, 4)
  else if diffs.length ≥ 3 ∧ AllWithin 10 3 diffs then some (packWidth host swapflag 2 3 3 10 diffs)
  else if diffs.length ≥ 2 ∧ AllWithin 15 2 diffs then some (packWidth host swapflag 2 2 2 15 diffs)
  else if diffs.length ≥ 1 ∧ AllWithin 30 1 diffs then some (packWidth host swapflag 2 1 1 30 diffs)
  else none

/-- `EXTRACTBITRANGE (frame[widx], 30, 2)`. -/
def dnibOf (v : Word) : BitVec 2 := (v >>> 30).setWidth 2

def readWidth (v : Word) (count width : ℕ) : List Word :=
  (List.range count).map fun idx => getField v ((count - 1) * width - idx * width) width

def readSteim2 : ReadWord := fun nibble q =>
  let v := readInt host swapflag q
  if nibble = 0 then some []
  else if nibble = 1 then some (readBytes q)
  else if nibble = 2 then
    if dnibOf v = 0 then none
    else if dnibOf v = 1 then some (readWidth v 1 30)
    else if dnibOf v = 2 then some (readWidth v 2 15)
    else some (readWidth v 3 10)
  else if dnibOf v = 0 then some (readWidth v 5 6)
  else if dnibOf v = 1 then some (readWidth v 6 5)
  else if dnibOf v = 2 then some (readWidth v 7 4)
  else none

def msrEncodeSteim2 (input : List Word) (output : List Byte) (diff0 : Word) : Encoded :=
  encodeSteim (packSteim2 host swapflag) 7 host input output diff0 swapflag

def msrDecodeSteim2 (input : List Byte) (samplecount outputlength : ℤ) : Option (List Word) :=
  decodeSteim (readSteim2 host swapflag) host input samplecount outputlength swapflag

end Words

/-! ## Words are read as they were packed -/

section ReadsPacked

variable {host host' : Endian} {swapflag swapflag' : Bool}

theorem loadShort_swapPair (horder : host.under swapflag = host'.under swapflag') (v : BitVec 16) :
    loadShort host' (swapPair swapflag' (swapPair swapflag (storePair host v))) = v := by
  have hpair : ∀ (o : Endian) (b : Bool), swapPair b (storePair o v) = storePair (o.under b) v := by
    intro o b
    cases o <;> cases b <;> rfl
  have hload : ∀ (o : Endian) (b : Bool) (p : Pair),
      loadShort o (swapPair b p) = loadShort (o.under b) p := by
    intro o b p
    cases o <;> cases b <;> rfl
  rw [hpair, hload, horder, loadShort_storePair]

theorem signExtend_setWidth_of_bitwidth {w : ℕ} (hw : 0 < w) (hn : w ≤ 32) {d : Word}
    (h : bitwidth d ≤ w) : (d.setWidth w).signExtend 32 = d :=
  signExtend_setWidth_of_fits hw hn (fits_of_bitwidth_le h)

theorem readBytes_packBytes {diffs : List Word} (hlength : 4 ≤ diffs.length)
    (h : AllWithin 8 4 diffs) : readBytes (packBytes diffs) = diffs.take 4 := by
  obtain ⟨d0, d1, d2, d3, rest, rfl⟩ :
      ∃ d0 d1 d2 d3 rest, diffs = d0 :: d1 :: d2 :: d3 :: rest := by
    rcases diffs with _ | ⟨d0, _ | ⟨d1, _ | ⟨d2, _ | ⟨d3, rest⟩⟩⟩⟩ <;>
      first | exact ⟨_, _, _, _, _, rfl⟩ | simp at hlength
  have hwidth : ∀ d ∈ [d0, d1, d2, d3], (d.setWidth 8).signExtend 32 = d :=
    fun d hd => signExtend_setWidth_of_bitwidth (by decide) (by decide) (h d hd)
  exact List.map_congr_left hwidth |>.trans (List.map_id _)

theorem readHalves_packHalves (horder : host.under swapflag = host'.under swapflag')
    {diffs : List Word} (hlength : 2 ≤ diffs.length) (h : AllWithin 16 2 diffs) :
    readHalves host' swapflag' (packHalves host swapflag diffs) = diffs.take 2 := by
  obtain ⟨d0, d1, rest, rfl⟩ : ∃ d0 d1 rest, diffs = d0 :: d1 :: rest := by
    rcases diffs with _ | ⟨d0, _ | ⟨d1, rest⟩⟩ <;> first | exact ⟨_, _, _, rfl⟩ | simp at hlength
  have hwidth : ∀ d ∈ [d0, d1], (loadShort host' (swapPair swapflag' (swapPair swapflag
      (storePair host (d.setWidth 16))))).signExtend 32 = d := by
    intro d hd
    rw [loadShort_swapPair horder]
    exact signExtend_setWidth_of_bitwidth (by decide) (by decide) (h d hd)
  exact List.map_congr_left hwidth |>.trans (List.map_id _)

theorem readsPacked_steim1 (horder : host.under swapflag = host'.under swapflag') :
    ReadsPacked (fun _ => True) (packSteim1 host swapflag) (readSteim1 host' swapflag') where
  read_pack := by
    intro diffs word hpack
    unfold packSteim1 at hpack
    split_ifs at hpack with hnil hbytes hhalves
    · obtain rfl := Option.some.inj hpack
      refine ⟨Nat.succ_pos 3, hbytes.1.ge, fun _ _ => trivial, ?_⟩
      exact congrArg some (readBytes_packBytes hbytes.1.ge hbytes.2)
    · obtain rfl := Option.some.inj hpack
      refine ⟨Nat.succ_pos 1, hhalves.1, fun _ _ => trivial, ?_⟩
      exact congrArg some (readHalves_packHalves horder hhalves.1 hhalves.2)
    · obtain rfl := Option.some.inj hpack
      obtain ⟨d, rest, rfl⟩ := List.exists_cons_of_ne_nil hnil
      refine ⟨Nat.one_pos, Nat.succ_le_succ (Nat.zero_le _), fun _ _ => trivial, ?_⟩
      have hread := readInt_writeInt horder d
      exact congrArg (fun v => some [v]) hread
  pack_isSome d diffs _ := by
    rw [packSteim1, if_neg (List.cons_ne_nil _ _)]
    split_ifs <;> rfl
  read_unused _ := rfl

/-- The code above the fields. -/
theorem dnibOf_setFields {w : ℕ} {ds : List Word} (hw : w < 32) (hlength : w * ds.length ≤ 30)
    (dnib : BitVec 2) : dnibOf (setFields w ds ||| (dnib.setWidth 32 <<< 30)) = dnib := by
  unfold dnibOf
  apply BitVec.eq_of_getLsbD_eq
  intro i hi
  rw [BitVec.getLsbD_setWidth, BitVec.getLsbD_ushiftRight, BitVec.getLsbD_or,
    getLsbD_setFields_of_le ds hw (by omega), BitVec.getLsbD_shiftLeft, BitVec.getLsbD_setWidth]
  have h₁ : 30 + i < 32 := by omega
  have h₂ : i < 32 := by omega
  simp [hi, h₁, h₂]

/-- The code does not reach into the fields. -/
theorem extractLsb'_or_dnib (v : Word) (dnib : BitVec 2) {start width : ℕ}
    (h : start + width ≤ 30) :
    (v ||| (dnib.setWidth 32 <<< 30)).extractLsb' start width = v.extractLsb' start width := by
  ext i hi
  have hlow : start + i < 30 := by omega
  rw [BitVec.getElem_extractLsb', BitVec.getElem_extractLsb', BitVec.getLsbD_or,
    BitVec.getLsbD_shiftLeft]
  simp [hlow]

theorem readWidth_setFields {w : ℕ} {ds : List Word} (hw : 0 < w) (hn : w < 32)
    (hlength : w * ds.length ≤ 30) (hfits : ∀ d ∈ ds, bitwidth d ≤ w) (dnib : BitVec 2) :
    readWidth (setFields w ds ||| (dnib.setWidth 32 <<< 30)) ds.length w = ds := by
  refine List.ext_getElem (by simp [readWidth]) fun i hi hi' => ?_
  have hsplit : ds = ds.take i ++ ds[i] :: ds.drop (i + 1) := by
    rw [← List.drop_eq_getElem_cons hi', List.take_append_drop]
  have hrest : (ds.drop (i + 1)).length = ds.length - (i + 1) := List.length_drop
  have hstart : (ds.length - 1) * w - i * w = w * (ds.drop (i + 1)).length := by
    rw [hrest, ← Nat.sub_mul, Nat.mul_comm]
    congr 1
    omega
  have hbelow : w * ((ds.drop (i + 1)).length + 1) ≤ w * ds.length :=
    Nat.mul_le_mul_left _ (by omega)
  have hextract := extractLsb'_setFields hn (ds.take i) ds[i] (ds.drop (i + 1)) (by omega)
  rw [← hsplit] at hextract
  simp only [readWidth, List.getElem_map, List.getElem_range]
  rw [getField_eq hw hn, hstart, extractLsb'_or_dnib _ _ (by rw [Nat.mul_succ] at hbelow; omega),
    hextract, signExtend_setWidth_of_bitwidth hw hn.le (hfits _ (List.getElem_mem hi'))]

/-- What a word of Steim2 needs to be read as it was packed. -/
theorem read_packWidth (horder : host.under swapflag = host'.under swapflag')
    {nibble dnib : BitVec 2} {count width : ℕ} {diffs : List Word} (hcount : 0 < count)
    (hw : 0 < width) (hbits : width * count ≤ 30) (hlength : count ≤ diffs.length)
    (h : AllWithin width count diffs) (hread : ∀ v : Word, dnibOf v = dnib →
      ∀ q, readInt host' swapflag' q = v →
        readSteim2 host' swapflag' nibble q = some (readWidth v count width)) :
    let word := packWidth host swapflag nibble dnib count width diffs
    0 < word.2.2 ∧ word.2.2 ≤ diffs.length ∧ (∀ d ∈ diffs.take word.2.2, bitwidth d ≤ 30) ∧
      readSteim2 host' swapflag' word.1 word.2.1 = some (diffs.take word.2.2) := by
  have htake : (diffs.take count).length = count := List.length_take_of_le hlength
  have hle : width ≤ 30 := (Nat.le_mul_of_pos_right width hcount).trans hbits
  refine ⟨hcount, hlength, fun d hd => (h d hd).trans hle, ?_⟩
  have hdnib := @dnibOf_setFields width (diffs.take count) (by omega) (by rwa [htake]) dnib
  have hfields := @readWidth_setFields width (diffs.take count) hw (by omega) (by rwa [htake]) h
    dnib
  rw [htake] at hfields
  exact (hread _ hdnib _ (readInt_writeInt horder _)).trans (congrArg some hfields)

theorem readsPacked_steim2 (horder : host.under swapflag = host'.under swapflag') :
    ReadsPacked (Fits 30) (packSteim2 host swapflag) (readSteim2 host' swapflag') where
  read_pack := by
    intro diffs word hpack
    have key : 0 < word.2.2 ∧ word.2.2 ≤ diffs.length ∧
        (∀ d ∈ diffs.take word.2.2, bitwidth d ≤ 30) ∧
        readSteim2 host' swapflag' word.1 word.2.1 = some (diffs.take word.2.2) := by
      unfold packSteim2 at hpack
      split_ifs at hpack with h7 h6 h5 h4 h3 h2 h1
      · obtain rfl := Option.some.inj hpack
        refine read_packWidth horder (by decide) (by decide) (by decide) h7.1.ge h7.2 ?_
        rintro v hv q rfl
        simp [readSteim2, hv]
      · obtain rfl := Option.some.inj hpack
        refine read_packWidth horder (by decide) (by decide) (by decide) h6.1 h6.2 ?_
        rintro v hv q rfl
        simp [readSteim2, hv]
      · obtain rfl := Option.some.inj hpack
        refine read_packWidth horder (by decide) (by decide) (by decide) h5.1 h5.2 ?_
        rintro v hv q rfl
        simp [readSteim2, hv]
      · obtain rfl := Option.some.inj hpack
        refine ⟨Nat.succ_pos 3, h4.1, fun d hd => (h4.2 d hd).trans (by decide), ?_⟩
        exact congrArg some (readBytes_packBytes h4.1 h4.2)
      · obtain rfl := Option.some.inj hpack
        refine read_packWidth horder (by decide) (by decide) (by decide) h3.1 h3.2 ?_
        rintro v hv q rfl
        simp [readSteim2, hv]
      · obtain rfl := Option.some.inj hpack
        refine read_packWidth horder (by decide) (by decide) (by decide) h2.1 h2.2 ?_
        rintro v hv q rfl
        simp [readSteim2, hv]
      · obtain rfl := Option.some.inj hpack
        refine read_packWidth horder (by decide) (by decide) (by decide) h1.1 h1.2 ?_
        rintro v hv q rfl
        simp [readSteim2, hv]
    exact ⟨key.1, key.2.1, fun d hd => fits_of_bitwidth_le (key.2.2.1 d hd), key.2.2.2⟩
  pack_isSome d diffs hd := by
    have hone : (d :: diffs).length ≥ 1 ∧ AllWithin 30 1 (d :: diffs) := by
      refine ⟨Nat.succ_le_succ (Nat.zero_le _), fun e he => ?_⟩
      obtain rfl := List.mem_singleton.1 he
      exact bitwidth_le_thirty hd
    unfold packSteim2
    split_ifs <;> rfl
  read_unused _ := rfl

end ReadsPacked

/-- Steim1 encodes as many samples as there is room for, at least one a word, and decoding returns
them, as many as are wanted. -/
theorem steim1_decode_encode (host host' : Endian) (swapflag swapflag' : Bool)
    (horder : host.under swapflag = host'.under swapflag') (input : List Word) (hinput : input ≠ [])
    (output : List Byte) (hroom : 64 ≤ output.length) (diff0 : Word) :
    ∃ n bytes, msrEncodeSteim1 host swapflag input output diff0 = .samples n bytes ∧
      bytes.length = output.length ∧ min input.length (15 * (output.length / 64) - 2) ≤ n ∧
      n ≤ input.length ∧
      ∀ samplecount outputlength : ℤ, 0 < outputlength →
        msrDecodeSteim1 host' swapflag' bytes samplecount outputlength =
          some ((input.take n).take samplecount.toNat) := by
  have hreads := readsPacked_steim1 horder
  obtain ⟨n, bytes, hencode⟩ : ∃ n bytes,
      msrEncodeSteim1 host swapflag input output diff0 = .samples n bytes :=
    encodeSteim_isSamples hreads (by decide) hinput hroom fun _ _ => trivial
  obtain ⟨hlength, hmany, hle, -⟩ := encodeSteim_spec hreads hinput hroom hencode
  exact ⟨n, bytes, hencode, hlength, hmany, hle, fun samplecount outputlength hout =>
    decodeSteim_encodeSteim hreads hinput hroom hencode horder samplecount hout⟩

/-- One frame for the samples `5, 7, 300, 299`, written with a swap and read without. -/
theorem steim1_decode_encode_four : ∃ n bytes,
    msrEncodeSteim1 .littleEnd true [5, 7, 300, 299] (List.replicate 64 0) 0 = .samples n bytes ∧
      bytes.length = (List.replicate 64 (0 : Byte)).length ∧
      min [(5 : Word), 7, 300, 299].length
        (15 * ((List.replicate 64 (0 : Byte)).length / 64) - 2) ≤ n ∧
      n ≤ [(5 : Word), 7, 300, 299].length ∧
      ∀ samplecount outputlength : ℤ, 0 < outputlength →
        msrDecodeSteim1 .bigEnd false bytes samplecount outputlength =
          some (([5, 7, 300, 299].take n).take samplecount.toNat) :=
  steim1_decode_encode .littleEnd .bigEnd true false rfl [5, 7, 300, 299] (List.cons_ne_nil _ _)
    (List.replicate 64 0) (by decide) 0

/-- Steim2 fails for a difference of more than 30 bits.  Otherwise it encodes as many samples as
there is room for, and decoding returns them. -/
theorem steim2_decode_encode (host host' : Endian) (swapflag swapflag' : Bool)
    (horder : host.under swapflag = host'.under swapflag') (input : List Word) (hinput : input ≠ [])
    (output : List Byte) (hroom : 64 ≤ output.length) (diff0 : Word) :
    (msrEncodeSteim2 host swapflag input output diff0 = .failure ∧
        ∃ d ∈ diff0 :: inputDiffs input, ¬ Fits 30 d) ∨
      ∃ n bytes, msrEncodeSteim2 host swapflag input output diff0 = .samples n bytes ∧
        (∀ d ∈ (diff0 :: inputDiffs input).take n, Fits 30 d) ∧
        bytes.length = output.length ∧ min input.length (15 * (output.length / 64) - 2) ≤ n ∧
        n ≤ input.length ∧
        ∀ samplecount outputlength : ℤ, 0 < outputlength →
          msrDecodeSteim2 host' swapflag' bytes samplecount outputlength =
            some ((input.take n).take samplecount.toNat) := by
  have hreads := readsPacked_steim2 horder
  rcases encodeSteim_cases (packSteim2 host swapflag) 7 host hinput hroom diff0 swapflag with
    hfailure | ⟨n, bytes, hencode⟩
  · left
    refine ⟨hfailure, ?_⟩
    by_contra hall
    push Not at hall
    obtain ⟨n, bytes, hencode⟩ : ∃ n bytes,
        encodeSteim (packSteim2 host swapflag) 7 host input output diff0 swapflag =
          .samples n bytes :=
      encodeSteim_isSamples hreads (by decide) hinput hroom hall
    rw [hfailure] at hencode
    exact absurd hencode nofun
  · right
    obtain ⟨hlength, hmany, hle, hfits, -⟩ := encodeSteim_spec hreads hinput hroom hencode
    exact ⟨n, bytes, hencode, hfits, hlength, hmany, hle, fun samplecount outputlength hout =>
      decodeSteim_encodeSteim hreads hinput hroom hencode horder samplecount hout⟩

theorem steim2_decode_encode_four :
    (msrEncodeSteim2 .littleEnd true [5, 7, 300, 299] (List.replicate 64 0) 0 = .failure ∧
        ∃ d ∈ 0 :: inputDiffs [5, 7, 300, 299], ¬ Fits 30 d) ∨
      ∃ n bytes, msrEncodeSteim2 .littleEnd true [5, 7, 300, 299] (List.replicate 64 0) 0 =
          .samples n bytes ∧
        (∀ d ∈ (0 :: inputDiffs [5, 7, 300, 299]).take n, Fits 30 d) ∧
        bytes.length = (List.replicate 64 (0 : Byte)).length ∧
        min [(5 : Word), 7, 300, 299].length
          (15 * ((List.replicate 64 (0 : Byte)).length / 64) - 2) ≤ n ∧
        n ≤ [(5 : Word), 7, 300, 299].length ∧
        ∀ samplecount outputlength : ℤ, 0 < outputlength →
          msrDecodeSteim2 .bigEnd false bytes samplecount outputlength =
            some (([5, 7, 300, 299].take n).take samplecount.toNat) :=
  steim2_decode_encode .littleEnd .bigEnd true false rfl [5, 7, 300, 299] (List.cons_ne_nil _ _)
    (List.replicate 64 0) (by decide) 0

end Libmseed

end PQL
