import PQL.Lib.Chunks
import PQL.Lib.CInt
import PQL.Lib.Tally
import PQL.Steim.Memory

/-!
# Pages of the RT125 and the RT125A

Both recorders write pages of 528 bytes, of a type that the first byte names.  The samples of a data
page are three bytes each; reading one past the end of the page has no result (`pageSamples`).
-/

namespace PQL

/-- The size of a page, the same for both recorders. -/
def RT125_PKT_SIZE : ℕ := 528

structure RTPage where
  bytes : List Byte
  length_bytes : bytes.length = RT125_PKT_SIZE
deriving DecidableEq

/-- A field of one byte, or a byte of a field. -/
def RTPage.byte (p : RTPage) (o : ℕ) : Byte := p.bytes.getD o 0

/-- A number of two bytes, the high one first. -/
def RTPage.word (p : RTPage) (o : ℕ) : ℕ := (p.byte o).toNat * 256 + (p.byte (o + 1)).toNat

inductive PageType where
  | PIC
  | PSH
  | PDT
  | PET
  | PER
  | invalid
deriving DecidableEq, Repr

/-- `rd_pack`. -/
def pageType (p : RTPage) : PageType :=
  match (p.byte 0).toNat with
  | 0x00 => .PIC
  | 0x01 => .PSH
  | 0x03 => .PDT
  | 0x05 => .PET
  | 0xFF => .PER
  | _ => .invalid

/-- The data pages of a file. -/
def dataPages (pages : List RTPage) : List RTPage := pages.filter fun p => pageType p = .PDT

/-! ## Events -/

/-- The time of an event as the macros read it from six bytes. -/
structure EventTime where
  year : ℤ
  jday : ℤ
  hour : ℤ
  minute : ℤ
  second : ℤ
deriving DecidableEq, Repr

def eventTimeAt (p : RTPage) (o : ℕ) : EventTime where
  year := (p.byte o).toNat + 1984
  jday := (p.byte (o + 1)).toNat * 100 + (p.byte (o + 2)).toNat + 1
  hour := (p.byte (o + 3)).toNat
  minute := (p.byte (o + 4)).toNat
  second := (p.byte (o + 5)).toNat

/-- `RT125ATRACE`, an event in either header pass; `numSamps` is an `int`. -/
structure RT125ATrace where
  unit_id : ℕ
  eventNum : ℕ
  sampsPsec : ℕ
  time : EventTime
  numSamps : ℤ
  gain : ℕ
deriving DecidableEq, Repr

/-- A trace of an RT125 or RT125A file; the event number is printed into `channel`. -/
structure RTTrace where
  time : EventTime
  gainConst : ℕ
  sensorID : ℕ
  sampsPsec : ℕ
  channel : ℕ
  numSamples : ℤ
deriving DecidableEq, Repr

/-- `make_rt125_trace` and `make_rt125A_trace`. -/
def makeRt125Trace (event : RT125ATrace) : RTTrace where
  time := event.time
  gainConst := event.gain
  sensorID := event.unit_id
  sampsPsec := event.sampsPsec
  channel := event.eventNum
  numSamples := event.numSamps

/-- The loop that makes the traces of the events that pass a test. -/
def makeEventTraces (test : RT125ATrace → Bool) (events : List RT125ATrace) : List RTTrace :=
  events.foldl (fun traces e => if test e then makeRt125Trace e :: traces else traces) []

theorem makeEventTraces_eq (test : RT125ATrace → Bool) (events : List RT125ATrace) :
    makeEventTraces test events = ((events.filter test).map makeRt125Trace).reverse := by
  have hrev : ∀ ts : List RTTrace,
      events.foldl (fun traces e => if test e then makeRt125Trace e :: traces else traces) ts =
        ((events.filter test).map makeRt125Trace).reverse ++ ts := by
    induction events with
    | nil => exact fun _ => rfl
    | cons e es ih =>
      intro ts
      rw [List.foldl_cons, ih, List.filter_cons]
      split_ifs
      · rw [List.map_cons, List.reverse_cons, List.append_assoc]
        rfl
      · rfl
  rw [makeEventTraces, hrev, List.append_nil]

/-- The traces of one event come from the entries of that event. -/
theorem filter_makeEventTraces (test : RT125ATrace → Bool) (events : List RT125ATrace)
    (key : RT125ATrace → Bool) (keyOf : RTTrace → Bool)
    (hkey : ∀ e, keyOf (makeRt125Trace e) = key e) :
    (makeEventTraces test events).filter keyOf =
      (((events.filter key).filter test).map makeRt125Trace).reverse := by
  rw [makeEventTraces_eq, List.filter_reverse, List.filter_map, List.filter_filter,
    List.filter_filter]
  simp only [Function.comp_def, hkey, Bool.and_comm]

/-- What a data pass returns. -/
inductive ReadStatus where
  | PQLXSUCCESS
  | NOT_ENOUGH_DATA
deriving DecidableEq, Repr

/-- The end of a data pass that has read `sampsRead` samples into `mem`. -/
def endOfRead (mem : List Word) (sampsRead : ℤ) : ReadStatus × List Word :=
  if wrap32 sampsRead = 0 then (.NOT_ENOUGH_DATA, [])
  else (.PQLXSUCCESS, mem.take (wrap32 sampsRead).toNat)

/-- `calloc` of `(unsigned) numSamples` zeros. -/
def callocInts (numSamples : ℤ) : List Word := List.replicate (numSamples % 2 ^ 32).toNat 0

/-! ## Samples -/

/-- A sample as the readers put it together from three bytes. -/
def sampleOf (b0 b1 b2 : Byte) : Word :=
  let x := (b0.setWidth 32 <<< 16) ||| (b1.setWidth 32 <<< 8) ||| b2.setWidth 32
  if b0 &&& 0x80 ≠ 0 then x ||| 0xFF000000 else x

/-- The samples that lie at the offset `o`; `none` if a byte is read behind the page. -/
def pageSamples (p : RTPage) (o : ℕ) : ℕ → Option (List Word)
  | 0 => some []
  | n + 1 =>
    if o + 2 < RT125_PKT_SIZE then
      (pageSamples p (o + 3) n).map
        (sampleOf (p.byte o) (p.byte (o + 1)) (p.byte (o + 2)) :: ·)
    else none

/-- The 24-bit numbers at the offset `o`, high byte first. -/
def samples24 (p : RTPage) (o n : ℕ) : List Word :=
  (List.range n).map fun i =>
    (p.byte (o + 3 * i) ++ p.byte (o + 3 * i + 1) ++
      p.byte (o + 3 * i + 2) : BitVec 24).signExtend 32

theorem and_0x80_ne_zero_iff : ∀ b : Byte, b &&& 0x80 ≠ 0 ↔ b.msb = true := by decide

/-- The mask of the upper eight bits. -/
theorem getLsbD_mask {i : ℕ} (hi : i < 32) : (0xFF000000 : Word).getLsbD i = decide (24 ≤ i) := by
  interval_cases i <;> rfl

/-- The bytes are put together into a number in two's complement. -/
theorem sampleOf_eq (b0 b1 b2 : Byte) :
    sampleOf b0 b1 b2 = (b0 ++ b1 ++ b2 : BitVec 24).signExtend 32 := by
  apply BitVec.eq_of_getLsbD_eq
  intro i hi
  have hmsb : (b0 ++ b1 ++ b2 : BitVec 24).msb = b0.msb := by
    rw [BitVec.msb_append, BitVec.msb_append]
    simp
  have hx : ((b0.setWidth 32 <<< 16) ||| (b1.setWidth 32 <<< 8) ||| b2.setWidth 32).getLsbD i =
      (decide (i < 24) && (b0 ++ b1 ++ b2 : BitVec 24).getLsbD i) := by
    simp only [BitVec.getLsbD_or, BitVec.getLsbD_shiftLeft, BitVec.getLsbD_setWidth,
      BitVec.getLsbD_append, hi, decide_true, Bool.true_and]
    by_cases h8 : i < 8
    · simp [h8, show i < 16 by omega, show i < 24 by omega]
    · have h2 : b2.getLsbD i = false := BitVec.getLsbD_of_ge b2 i (by omega)
      by_cases h16 : i < 16
      · simp [h8, h16, h2, show i < 24 by omega, show i - 8 < 32 by omega, show i - 8 < 8 by omega]
      · have h1 : b1.getLsbD (i - 8) = false := BitVec.getLsbD_of_ge b1 _ (by omega)
        by_cases h24 : i < 24
        · simp [h8, h16, h24, h2, h1, show i - 16 < 32 by omega, show ¬ i - 8 < 8 by omega,
            show i - 8 - 8 = i - 16 by omega]
        · simp [h24, h2, h1, BitVec.getLsbD_of_ge b0 (i - 16) (by omega)]
  rw [sampleOf, BitVec.getLsbD_signExtend, hmsb]
  by_cases hneg : b0 &&& 0x80 ≠ 0
  · rw [if_pos hneg, BitVec.getLsbD_or, hx, getLsbD_mask hi, (and_0x80_ne_zero_iff b0).1 hneg]
    by_cases h24 : i < 24
    · simp [h24, hi]
    · simp [h24, hi, not_lt.1 h24]
  · have hmsb0 : b0.msb = false := by
      rw [← Bool.not_eq_true]
      exact mt (and_0x80_ne_zero_iff b0).2 hneg
    rw [if_neg hneg, hx, hmsb0]
    by_cases h24 : i < 24
    · simp [h24, hi]
    · simp [h24]

theorem samples24_succ (p : RTPage) (o n : ℕ) :
    samples24 p o (n + 1) =
      (p.byte o ++ p.byte (o + 1) ++ p.byte (o + 2) : BitVec 24).signExtend 32 ::
        samples24 p (o + 3) n := by
  unfold samples24
  rw [List.range_succ_eq_map, List.map_cons, List.map_map]
  refine congrArg₂ _ (by simp) (List.map_congr_left fun i _ => ?_)
  show (p.byte (o + 3 * (i + 1)) ++ p.byte (o + 3 * (i + 1) + 1) ++
    p.byte (o + 3 * (i + 1) + 2) : BitVec 24).signExtend 32 = _
  rw [show o + 3 * (i + 1) = o + 3 + 3 * i by omega]

@[simp] theorem length_samples24 (p : RTPage) (o n : ℕ) : (samples24 p o n).length = n := by
  rw [samples24, List.length_map, List.length_range]

/-- Samples are read as long as they lie in the page. -/
theorem pageSamples_eq (p : RTPage) (o n : ℕ) :
    pageSamples p o n =
      if n = 0 ∨ o + 3 * n ≤ RT125_PKT_SIZE then some (samples24 p o n) else none := by
  induction n generalizing o with
  | zero => rw [if_pos (Or.inl rfl)]; rfl
  | succ n ih =>
    rw [pageSamples, ih, samples24_succ, sampleOf_eq]
    by_cases hfit : o + 3 * (n + 1) ≤ RT125_PKT_SIZE
    · rw [if_pos (by omega), if_pos (Or.inr (by omega)), if_pos (Or.inr hfit), Option.map_some]
    · rw [if_neg (show ¬(n + 1 = 0 ∨ o + 3 * (n + 1) ≤ RT125_PKT_SIZE) by omega)]
      split_ifs with hone htail
      · exfalso
        omega
      · rfl
      · rfl

end PQL
