import PQL.Mseed.Data

/-!
# Sizes of a mini-SEED trace

On the machine, the sizes that the reader computes are `int`s.  `MemEvent.Ok` says that a size was
in range when it was computed and that a copy stayed in the buffer.  Each step of `getMseedTrace` is
in order exactly when a condition on its input holds, and these conditions add up: the sizes of the
segments and the samples of the whole trace with its gap fill must fit (`getMseedTrace_sizes_iff`).
-/

namespace PQL

/-- A size is in the range of an `int`, and a copy lies in its buffer. -/
def MemEvent.Ok : MemEvent → Prop
  | .size n => InIntRange n
  | .convert q => ∃ n ∈ q, InIntRange n
  | .copy offset len alloc => 0 ≤ offset ∧ 0 ≤ len ∧ offset + len ≤ alloc

def AllOk (log : List MemEvent) : Prop := ∀ e ∈ log, e.Ok

theorem allOk_nil : AllOk [] := nofun

theorem allOk_cons (e : MemEvent) (log : List MemEvent) : AllOk (e :: log) ↔ e.Ok ∧ AllOk log :=
  List.forall_mem_cons

theorem allOk_append (log log' : List MemEvent) :
    AllOk (log ++ log') ↔ AllOk log ∧ AllOk log' :=
  List.forall_mem_append

theorem dataSize_pos (head : MseedHead) : 0 < head.dataSize := by
  unfold MseedHead.dataSize DataForm.size
  cases head.dataForm <;> decide

theorem dataSize_le (head : MseedHead) : head.dataSize ≤ 8 := by
  unfold MseedHead.dataSize DataForm.size
  cases head.dataForm <;> decide

section Sizes

variable {α : Type}

theorem machine_int {n : ℤ} (h : InIntRange n) : machineArith.int n = n := wrap32_of_inIntRange h

/-- A count whose bytes fit is itself in range. -/
theorem inIntRange_of_mul_lt {n : ℤ} (head : MseedHead) (hn : 0 ≤ n)
    (h : n * head.dataSize < 2 ^ 31) : InIntRange n ∧ InIntRange (n * head.dataSize) := by
  have hsize : (1 : ℤ) ≤ head.dataSize := by exact_mod_cast dataSize_pos head
  have hle : n ≤ n * head.dataSize := le_mul_of_one_le_right hn hsize
  have hpos : 0 ≤ n * head.dataSize := mul_nonneg hn (by omega)
  exact ⟨⟨by omega, by omega⟩, ⟨by omega, h⟩⟩

/-! ## The buffer -/

/-- `T` samples were counted, and the size of the buffer is in range. -/
structure Counts (s : MseedState α) (T : ℤ) : Prop where
  totSamp : s.totSamp = T
  nonneg : 0 ≤ T
  alloc_nonneg : 0 ≤ s.ttlMemAlloc
  range : InIntRange s.ttlMemAlloc

/-- The buffer holds `T` samples within its bytes. -/
structure Holds (s : MseedState α) (T : ℤ) : Prop extends Counts s T where
  fits : T * s.head.dataSize ≤ s.ttlMemAlloc

theorem Holds.mul_lt {s : MseedState α} {T : ℤ} (h : Holds s T) : T * s.head.dataSize < 2 ^ 31 :=
  h.fits.trans_lt h.range.2

/-- `s'` has the log of `s` and possibly more. -/
def Logs (s s' : MseedState α) : Prop := ∃ new, s'.log = s.log ++ new

theorem Logs.refl (s : MseedState α) : Logs s s := ⟨[], (List.append_nil _).symm⟩

theorem Logs.trans {s s' s'' : MseedState α} (h : Logs s s') (h' : Logs s' s'') : Logs s s'' := by
  obtain ⟨new, hnew⟩ := h
  obtain ⟨new', hnew'⟩ := h'
  exact ⟨new ++ new', by rw [hnew', hnew, List.append_assoc]⟩

/-- What is logged between `s` and `s'` is in order exactly when `P` holds, and then the buffer
holds `T` samples. -/
structure Goes (s s' : MseedState α) (P : Prop) (T : ℤ) : Prop where
  logged : ∃ new, s'.log = s.log ++ new ∧ (AllOk new ↔ P)
  holds : P → Holds s' T

theorem Goes.logs {s s' : MseedState α} {P : Prop} {T : ℤ} (h : Goes s s' P T) : Logs s s' :=
  let ⟨new, hnew, _⟩ := h.logged
  ⟨new, hnew⟩

theorem Goes.congr {s s' : MseedState α} {P Q : Prop} {T : ℤ} (h : Goes s s' P T) (hiff : P ↔ Q) :
    Goes s s' Q T :=
  propext hiff ▸ h

/-- Two steps after each other; when the first goes wrong, the second may do anything. -/
theorem Goes.trans {s s' s'' : MseedState α} {P Q : Prop} {T U : ℤ} (h : Goes s s' P T)
    (hlogs : Logs s' s'') (h' : P → Goes s' s'' Q U) : Goes s s'' (P ∧ Q) U := by
  obtain ⟨new, hnew, hok⟩ := h.logged
  by_cases hP : P
  · obtain ⟨new', hnew', hok'⟩ := (h' hP).logged
    refine ⟨⟨new ++ new', by rw [hnew', hnew, List.append_assoc], ?_⟩,
      fun hPQ => (h' hP).holds hPQ.2⟩
    rw [allOk_append, hok, hok']
  · obtain ⟨new', hnew'⟩ := hlogs
    refine ⟨⟨new ++ new', by rw [hnew', hnew, List.append_assoc], ?_⟩, fun hPQ => absurd hPQ.1 hP⟩
    rw [allOk_append, hok]
    exact iff_of_false (fun hc => hP hc.1) fun hc => hP hc.1

/-- Something that is logged between `s` and `s'` is not in order. -/
def Bad (s s' : MseedState α) : Prop := ∃ new, s'.log = s.log ++ new ∧ ¬ AllOk new

theorem Bad.goes {s s' : MseedState α} {P : Prop} {T : ℤ} (h : Bad s s') (hP : ¬ P) :
    Goes s s' P T := by
  obtain ⟨new, hnew, hbad⟩ := h
  exact ⟨⟨new, hnew, iff_of_false hbad hP⟩, fun hc => absurd hc hP⟩

theorem Bad.after {s s' s'' : MseedState α} (h : Logs s s') (h' : Bad s' s'') : Bad s s'' := by
  obtain ⟨new, hnew⟩ := h
  obtain ⟨new', hnew', hbad⟩ := h'
  refine ⟨new ++ new', by rw [hnew', hnew, List.append_assoc], fun hc => ?_⟩
  exact hbad ((allOk_append _ _).1 hc).2

theorem Bad.before {s s' s'' : MseedState α} (h : Bad s s') (h' : Logs s' s'') : Bad s s'' := by
  obtain ⟨new, hnew, hbad⟩ := h
  obtain ⟨new', hnew'⟩ := h'
  refine ⟨new ++ new', by rw [hnew', hnew, List.append_assoc], fun hc => ?_⟩
  exact hbad ((allOk_append _ _).1 hc).1

/-- A write of a negative length is a copy out of bounds. -/
theorem bad_write {s : MseedState α} {n : ℤ} (hn : n < 0) (samples : List α) :
    Bad s (s.write machineArith n samples) := by
  refine ⟨_, rfl, ?_⟩
  simp only [allOk_cons, MemEvent.Ok]
  rintro ⟨-, hlen, ⟨-, hpos, -⟩, -⟩
  rw [machine_int hlen] at hpos
  have hsize : (0 : ℤ) < s.head.dataSize := by exact_mod_cast dataSize_pos s.head
  exact absurd (nonneg_of_mul_nonneg_left hpos hsize) (not_le.2 hn)

theorem logs_note (s : MseedState α) (events : List MemEvent) : Logs s (s.note events) :=
  ⟨events, rfl⟩

theorem logs_reserve (A : CArith) (s : MseedState α) (pts : ℤ) : Logs s (s.reserve A pts) :=
  ⟨_, rfl⟩

theorem logs_write (A : CArith) (s : MseedState α) (pts : ℤ) (samples : List α) :
    Logs s (s.write A pts samples) :=
  ⟨_, rfl⟩

/-- Making room for `n` samples goes well exactly when they fit. -/
theorem goes_reserve {s : MseedState α} {T n : ℤ} (h : Counts s T) (hn : T ≤ n) :
    Goes s (s.reserve machineArith n) (n * s.head.dataSize < 2 ^ 31) T ∧
      (n * s.head.dataSize < 2 ^ 31 →
        n * s.head.dataSize ≤ (s.reserve machineArith n).ttlMemAlloc) := by
  by_cases hfit : n * s.head.dataSize < 2 ^ 31
  · obtain ⟨hr₁, hr₂⟩ := inIntRange_of_mul_lt s.head (h.nonneg.trans hn) hfit
    have hmem : (s.reserve machineArith n).ttlMemAlloc =
        max s.ttlMemAlloc (n * s.head.dataSize) := by
      simp only [MseedState.reserve, machine_int hr₁, machine_int hr₂]
      split_ifs <;> omega
    have halloc := h.alloc_nonneg
    have hTn : T * s.head.dataSize ≤ n * s.head.dataSize :=
      mul_le_mul_of_nonneg_right hn (Int.natCast_nonneg _)
    refine ⟨⟨⟨_, rfl, iff_of_true ?_ hfit⟩, fun _ => ⟨⟨h.totSamp, h.nonneg, ?_, ?_⟩, ?_⟩⟩,
      fun _ => ?_⟩
    · simp only [machine_int hr₁, allOk_cons, MemEvent.Ok]
      exact ⟨hr₁, hr₂, allOk_nil⟩
    · rw [hmem]
      exact le_max_of_le_left halloc
    · rcases max_choice s.ttlMemAlloc (n * s.head.dataSize) with hmax | hmax <;> rw [hmem, hmax]
      · exact h.range
      · exact hr₂
    · rw [hmem, head_reserve]
      exact le_max_of_le_right hTn
    · rw [hmem]
      exact le_max_right _ _
  · refine ⟨⟨⟨_, rfl, iff_of_false ?_ hfit⟩, fun hc => absurd hc hfit⟩, fun hc => absurd hc hfit⟩
    simp only [allOk_cons, MemEvent.Ok]
    rintro ⟨hr₁, hr₂, -⟩
    rw [machine_int hr₁] at hr₂
    exact hfit hr₂.2

/-- Writing `n` samples into room that is there goes well. -/
theorem goes_write {s : MseedState α} {T n : ℤ} (h : Counts s T) (hn : 0 ≤ n)
    (hroom : (T + n) * s.head.dataSize ≤ s.ttlMemAlloc) (samples : List α) :
    Goes s (s.write machineArith n samples) True (T + n) := by
  obtain rfl := h.totSamp
  have hsplit : (s.totSamp + n) * s.head.dataSize =
      s.totSamp * s.head.dataSize + n * s.head.dataSize := by ring
  have hTs : 0 ≤ s.totSamp * s.head.dataSize := mul_nonneg h.nonneg (Int.natCast_nonneg _)
  have hns : 0 ≤ n * s.head.dataSize := mul_nonneg hn (Int.natCast_nonneg _)
  have hlt := h.range.2
  obtain ⟨-, hT⟩ := inIntRange_of_mul_lt s.head h.nonneg (by omega)
  obtain ⟨-, hn₂⟩ := inIntRange_of_mul_lt s.head hn (by omega)
  obtain ⟨hsum, -⟩ := inIntRange_of_mul_lt s.head (add_nonneg h.nonneg hn) (by omega)
  refine ⟨⟨_, rfl, iff_of_true ?_ trivial⟩, fun _ => ⟨⟨machine_int hsum, add_nonneg h.nonneg hn,
    h.alloc_nonneg, h.range⟩, hroom⟩⟩
  simp only [machine_int hT, machine_int hn₂, allOk_cons, MemEvent.Ok]
  exact ⟨hT, hn₂, ⟨hTs, hns, by omega⟩, allOk_nil⟩

/-- Making room for `n` more samples and writing them goes well exactly when all samples fit. -/
theorem goes_store {s : MseedState α} {T n : ℤ} (h : Counts s T) (hn : 0 ≤ n)
    (samples : List α) :
    Goes s ((s.reserve machineArith (n + s.totSamp)).write machineArith
        (machineArith.int n) samples)
      ((T + n) * s.head.dataSize < 2 ^ 31) (T + n) := by
  have hT := h.nonneg
  have hadd : n + s.totSamp = T + n := by rw [h.totSamp, add_comm]
  rw [hadd]
  obtain ⟨hreserve, hroom⟩ := goes_reserve h (le_add_of_nonneg_right hn)
  refine (hreserve.trans (logs_write _ _ _ _) fun hfit => ?_).congr (iff_of_eq (and_true _))
  have hn₁ : InIntRange n := by
    have := (inIntRange_of_mul_lt s.head (add_nonneg hT hn) hfit).1.2
    exact ⟨by omega, by omega⟩
  rw [machine_int hn₁]
  exact goes_write (hreserve.holds hfit).toCounts hn (hroom hfit) samples

/-! ## Segments -/

/-- The overlap points of a segment when the running end is `prev`. -/
def olapPoints (oneSample prev : ℚ) (trc : MSTrace α) : Option ℤ :=
  quotient (truncate (-1 * (trc.starttime - (prev + oneSample)))) oneSample

/-- The points of the gap before a segment. -/
def gapPoints (oneSample prev : ℚ) (trc : MSTrace α) : Option ℤ :=
  quotient (truncate ((trc.starttime - prev) - oneSample)) oneSample

/-- The samples that a segment adds to the trace, with the gap before it. -/
def growth (oneSample prev : ℚ) (trc : MSTrace α) : ℤ :=
  if trc.starttime < prev + oneSample then
    if trc.endtime ≤ prev + oneSample then 0
    else trc.samplecnt - (olapPoints oneSample prev trc).getD 0
  else if trc.starttime > prev + oneSample then
    trc.samplecnt + (gapPoints oneSample prev trc).getD 0
  else trc.samplecnt

/-- The segment's own sizes fit: its samples, its overlap, which is no longer than the segment, and
a gap that is not negative. -/
structure SegmentFits (dataSize : ℕ) (oneSample prev : ℚ) (trc : MSTrace α) : Prop where
  samplecnt : InIntRange trc.samplecnt
  overlap : trc.starttime < prev + oneSample → ∃ n ∈ olapPoints oneSample prev trc,
    InIntRange n ∧
      if trc.endtime ≤ prev + oneSample then InIntRange (trc.samplecnt * dataSize)
      else n ≤ trc.samplecnt ∧ InIntRange (n * dataSize)
  gap : trc.starttime > prev + oneSample → ∃ n ∈ gapPoints oneSample prev trc, 0 ≤ n

theorem growth_nonneg {dataSize : ℕ} {oneSample prev : ℚ} {trc : MSTrace α}
    (h : SegmentFits dataSize oneSample prev trc) : 0 ≤ growth oneSample prev trc := by
  unfold growth
  split_ifs with hlt hfull hgt
  · exact le_refl 0
  · obtain ⟨n, hn, -, hle⟩ := h.overlap hlt
    rw [if_neg hfull] at hle
    rw [Option.mem_def.1 hn, Option.getD_some]
    omega
  · obtain ⟨n, hn, hle⟩ := h.gap hgt
    rw [Option.mem_def.1 hn, Option.getD_some]
    omega
  · exact Int.natCast_nonneg _

variable {s : MseedState α} {T : ℤ} {trc : MSTrace α}

theorem logs_copySegment (A : CArith) (s : MseedState α) (trc : MSTrace α)
    (copySamples copyStart : ℤ) : Logs s (copySegment A s trc copySamples copyStart) := by
  unfold copySegment
  simp only []
  split_ifs
  · exact logs_reserve A s _
  · exact (logs_reserve A s _).trans (logs_write A _ _ _)

/-- The copy at the end of a step goes well exactly when the number of samples is not negative and
all samples fit. -/
theorem goes_copySegment (trc : MSTrace α) (h : Holds s T) {c : ℤ} (hc : InIntRange c)
    (copyStart : ℤ) :
    Goes s (copySegment machineArith s trc c copyStart)
      (0 ≤ c ∧ (T + c) * s.head.dataSize < 2 ^ 31) (T + c) := by
  unfold copySegment
  by_cases hzero : c = 0
  · subst hzero
    obtain ⟨hreserve, -⟩ := goes_reserve (n := 0 + s.totSamp) h.toCounts
      (by rw [zero_add, h.totSamp])
    rw [zero_add, h.totSamp] at hreserve
    simp only [if_true, zero_add, h.totSamp, add_zero, le_refl, true_and]
    exact hreserve
  · simp only [if_neg hzero]
    by_cases hneg : 0 ≤ c
    · have hstore := goes_store h.toCounts hneg
        ((trc.datasamples.drop copyStart.toNat).take c.toNat)
      rw [machine_int hc] at hstore
      exact hstore.congr (by simp [hneg])
    · exact ((bad_write (not_le.1 hneg) _).after (logs_reserve _ s _)).goes fun hc => hneg hc.1

theorem logs_fill [Zero α] (A : CArith) (s : MseedState α) (gap : Option ℤ) (copySamples : ℤ) :
    Logs s (s.fill A gap copySamples) :=
  ((logs_note s _).trans (logs_reserve A _ _)).trans (logs_write A _ _ _)

/-- Filling a gap goes well exactly when its points are not negative and fit together with the
samples. -/
theorem goes_fill [Zero α] (h : Holds s T) (gap : Option ℤ) {c : ℤ} (hc : 0 ≤ c) :
    Goes s (s.fill machineArith gap c)
      (∃ n ∈ gap, 0 ≤ n ∧ (T + n + c) * s.head.dataSize < 2 ^ 31) (T + gap.getD 0) := by
  unfold MseedState.fill
  have hafter : ∀ (t : MseedState α) pts n samples,
      Logs t ((t.reserve machineArith pts).write machineArith n samples) := fun t pts n samples =>
    (logs_reserve machineArith t pts).trans (logs_write machineArith _ n samples)
  cases gap with
  | none =>
    refine ((Bad.before ⟨_, rfl, ?_⟩ (hafter _ _ _ _)).goes nofun)
    rw [allOk_cons]
    exact fun hc => nomatch hc.1
  | some n =>
    simp only [Option.mem_def, Option.some.injEq, exists_eq_left', Option.getD_some]
    by_cases hr : InIntRange n
    · have hq : machineArith.ofQuotient (some n) = n := machine_int hr
      by_cases hn : 0 ≤ n
      · have hnote : Goes s ({ s with
            gaps := s.gaps ++ [(s.totSamp, machineArith.int (s.totSamp + n))] }.note
              [.convert (some n), .size (s.totSamp + n)]) (InIntRange (T + n)) T := by
          refine ⟨⟨_, rfl, ?_⟩, fun _ => ⟨⟨h.totSamp, h.nonneg, h.alloc_nonneg, h.range⟩, h.fits⟩⟩
          rw [allOk_cons, allOk_cons, h.totSamp]
          exact ⟨fun hc => hc.2.1, fun hc => ⟨⟨n, rfl, hr⟩, hc, allOk_nil⟩⟩
        rw [hq]
        refine (hnote.trans (Q := (c + (T + n)) * s.head.dataSize < 2 ^ 31 ∧ True) (hafter _ _ _ _)
          fun hsum => ?_).congr ?_
        · have hs₁ := hnote.holds hsum
          rw [hs₁.totSamp, machine_int hsum]
          obtain ⟨hreserve, hroom⟩ := goes_reserve hs₁.toCounts (n := c + (T + n)) (by omega)
          refine hreserve.trans (logs_write _ _ _ _) fun hfit => ?_
          refine goes_write (hreserve.holds hfit).toCounts hn ((mul_le_mul_of_nonneg_right ?_
            (Int.natCast_nonneg _)).trans (hroom hfit)) _
          omega
        · have hcomm : c + (T + n) = T + n + c := by ring
          have hTn : 0 ≤ T + n := add_nonneg h.nonneg hn
          rw [hcomm]
          refine ⟨fun hc => ⟨hn, hc.2.1⟩, fun hP => ⟨?_, hP.2, trivial⟩⟩
          have := (inIntRange_of_mul_lt s.head (add_nonneg hTn hc) hP.2).1.2
          exact ⟨by omega, by omega⟩
      · rw [hq]
        refine Bad.goes (Bad.after (Logs.trans ⟨_, rfl⟩ (logs_reserve machineArith _ _))
          (bad_write (not_le.1 hn) _)) fun hP => hn hP.1
    · refine (Bad.before ⟨_, rfl, ?_⟩ (hafter _ _ _ _)).goes fun hP => hr ?_
      · rw [allOk_cons]
        rintro ⟨⟨m, hm, hrange⟩, -⟩
        obtain rfl := Option.some.inj hm
        exact hr hrange
      · have hTn : 0 ≤ T + n := add_nonneg h.nonneg hP.1
        have := (inIntRange_of_mul_lt s.head (add_nonneg hTn hc) hP.2).1.2
        have := h.nonneg
        exact ⟨by omega, by omega⟩

theorem logs_recordOverlap (A : CArith) (s : MseedState α) (trc : MSTrace α) :
    Logs s (recordOverlap A s trc).1 := by
  unfold recordOverlap
  simp only []
  split_ifs
  all_goals exact logs_note _ _

theorem logs_fillGap [Zero α] (A : CArith) (s : MseedState α) (trc : MSTrace α)
    (copySamples : ℤ) : Logs s (fillGap A s trc copySamples) := by
  unfold fillGap
  simp only []
  split_ifs
  · exact logs_fill A s _ _
  · exact Logs.refl s

theorem logs_nextSegment [Zero α] (A : CArith) (s : MseedState α) (trc : MSTrace α) :
    Logs s (nextSegment A s trc) :=
  ((logs_recordOverlap A s trc).trans (logs_fillGap A _ trc _)).trans
    (logs_copySegment A _ trc _ _)

/-- The running end after a segment. -/
theorem prevEndT_nextSegment [Zero α] (A : CArith) (s : MseedState α) (trc : MSTrace α) :
    (nextSegment A s trc).prevEndT = max s.prevEndT trc.endtime := by
  have h₁ : (recordOverlap A s trc).1.prevEndT = s.prevEndT := by
    unfold recordOverlap
    simp only []
    split_ifs <;> rfl
  have h₂ : ∀ (t : MseedState α) c, (fillGap A t trc c).prevEndT = t.prevEndT := by
    intro t c
    unfold fillGap
    simp only []
    split_ifs <;> rfl
  have h₃ : ∀ (t : MseedState α) c d, (copySegment A t trc c d).prevEndT = t.prevEndT := by
    intro t c d
    unfold copySegment
    simp only []
    split_ifs <;> rfl
  simp only [nextSegment, h₁, h₂, h₃]
  split_ifs with hgt
  · exact (max_eq_right hgt.le).symm
  · exact (max_eq_left (not_lt.1 hgt)).symm

/-- Recording an overlap goes well exactly when its sizes fit. -/
theorem goes_recordOverlap (h : Holds s T) (hlt : trc.starttime < s.prevEndT + s.head.sampInt) :
    Goes s (recordOverlap machineArith s trc).1
      (InIntRange trc.samplecnt ∧ ∃ n ∈ olapPoints s.head.sampInt s.prevEndT trc, InIntRange n ∧
        if trc.endtime ≤ s.prevEndT + s.head.sampInt then
          InIntRange (trc.samplecnt * s.head.dataSize)
        else InIntRange (n * s.head.dataSize) ∧ InIntRange (trc.samplecnt - n)) T := by
  refine ⟨?_, fun _ => ?_⟩
  · unfold recordOverlap
    simp only [if_pos hlt]
    refine ⟨_, rfl, ?_⟩
    change AllOk [.convert (olapPoints s.head.sampInt s.prevEndT trc), _, .size ((if _ then _ else
      machineArith.ofQuotient (olapPoints s.head.sampInt s.prevEndT trc)) * _),
      .size (_ - (if _ then _ else
        machineArith.ofQuotient (olapPoints s.head.sampInt s.prevEndT trc)))] ↔ _
    simp only [allOk_cons, MemEvent.Ok, allOk_nil, and_true]
    constructor
    · rintro ⟨⟨n, hn, hr⟩, hcnt, hlen, hleft⟩
      refine ⟨hcnt, n, hn, hr, ?_⟩
      rw [Option.mem_def.1 hn,
        show machineArith.ofQuotient (some n) = n from machine_int hr] at hlen hleft
      split_ifs at hlen hleft ⊢
      · rw [machine_int hcnt] at hlen
        exact hlen
      · exact ⟨hlen, hleft⟩
    · rintro ⟨hcnt, n, hn, hr, hif⟩
      refine ⟨⟨n, hn, hr⟩, hcnt, ?_⟩
      rw [Option.mem_def.1 hn, show machineArith.ofQuotient (some n) = n from machine_int hr]
      split_ifs at hif ⊢
      · rw [machine_int hcnt, sub_self]
        exact ⟨hif, by norm_num, by norm_num⟩
      · exact hif
  · unfold recordOverlap
    simp only [if_pos hlt]
    exact ⟨⟨h.totSamp, h.nonneg, h.alloc_nonneg, h.range⟩, h.fits⟩

theorem Goes.setPrevEndT {s s' : MseedState α} {P : Prop} (h : Goes s s' P T) (t : ℚ) :
    Goes s { s' with prevEndT := t } P T :=
  ⟨h.logged, fun hP =>
    have hs := h.holds hP
    ⟨⟨hs.totSamp, hs.nonneg, hs.alloc_nonneg, hs.range⟩, hs.fits⟩⟩

/-- The number of samples of a segment still to be copied after its overlap was recorded. -/
theorem copySamples_of_overlap (hlt : trc.starttime < s.prevEndT + s.head.sampInt) {n : ℤ}
    (hn : n ∈ olapPoints s.head.sampInt s.prevEndT trc) (hr : InIntRange n)
    (hleft : ¬ trc.endtime ≤ s.prevEndT + s.head.sampInt → InIntRange (trc.samplecnt - n)) :
    (recordOverlap machineArith s trc).2.1 = growth s.head.sampInt s.prevEndT trc := by
  have hq : machineArith.ofQuotient (olapPoints s.head.sampInt s.prevEndT trc) = n := by
    rw [Option.mem_def.1 hn]
    exact machine_int hr
  unfold recordOverlap growth
  simp only [if_pos hlt]
  split_ifs with hfull
  · rfl
  · change machineArith.int (trc.samplecnt - machineArith.ofQuotient
      (olapPoints s.head.sampInt s.prevEndT trc)) = _
    rw [hq, machine_int (hleft hfull), Option.mem_def.1 hn, Option.getD_some]

/-- A segment that overlaps. -/
theorem goes_nextSegment_overlap [Zero α] (h : Holds s T)
    (hlt : trc.starttime < s.prevEndT + s.head.sampInt) :
    Goes s (nextSegment machineArith s trc)
      (SegmentFits s.head.dataSize s.head.sampInt s.prevEndT trc ∧
        (T + growth s.head.sampInt s.prevEndT trc) * s.head.dataSize < 2 ^ 31)
      (T + growth s.head.sampInt s.prevEndT trc) := by
  have hgt : ¬ trc.starttime > s.prevEndT + s.head.sampInt := not_lt.2 hlt.le
  have hgo := goes_recordOverlap h hlt
  have hfill : ∀ c, fillGap machineArith (recordOverlap machineArith s trc).1 trc c =
      (recordOverlap machineArith s trc).1 := by
    intro c
    simp only [recordOverlap, if_pos hlt, fillGap, MseedState.note, if_neg hgt]
  unfold nextSegment
  simp only [hfill]
  refine Goes.setPrevEndT (Goes.congr (hgo.trans
    (Q := 0 ≤ growth s.head.sampInt s.prevEndT trc ∧
      (T + growth s.head.sampInt s.prevEndT trc) * s.head.dataSize < 2 ^ 31)
    (logs_copySegment _ _ _ _ _) ?_) ?_) _
  · rintro ⟨hcnt, n, hn, hr, hif⟩
    have hhold := hgo.holds ⟨hcnt, n, hn, hr, hif⟩
    have hleft : ¬ trc.endtime ≤ s.prevEndT + s.head.sampInt → InIntRange (trc.samplecnt - n) := by
      intro hfull
      rw [if_neg hfull] at hif
      exact hif.2
    have hcopy := copySamples_of_overlap hlt hn hr hleft
    have hrange : InIntRange (growth s.head.sampInt s.prevEndT trc) := by
      unfold growth
      rw [if_pos hlt]
      split_ifs with hfull
      · exact ⟨by norm_num, by norm_num⟩
      · rw [Option.mem_def.1 hn, Option.getD_some]
        exact hleft hfull
    have hcopied := goes_copySegment trc hhold hrange
      (recordOverlap machineArith s trc).2.2
    rw [head_recordOverlap] at hcopied
    rw [hcopy]
    exact hcopied
  · constructor
    · rintro ⟨⟨hcnt, n, hn, hr, hif⟩, hnonneg, hfit⟩
      refine ⟨⟨hcnt, fun _ => ⟨n, hn, hr, ?_⟩, fun hc => absurd hc hgt⟩, hfit⟩
      unfold growth at hnonneg
      rw [if_pos hlt, Option.mem_def.1 hn, Option.getD_some] at hnonneg
      split_ifs at hif hnonneg ⊢
      · exact hif
      · exact ⟨by omega, hif.1⟩
    · rintro ⟨hfits, hfit⟩
      obtain ⟨n, hn, hr, hif⟩ := hfits.overlap hlt
      have hnonneg := growth_nonneg hfits
      refine ⟨⟨hfits.samplecnt, n, hn, hr, ?_⟩, hnonneg, hfit⟩
      have hgrowth := (inIntRange_of_mul_lt s.head (add_nonneg h.nonneg hnonneg) hfit).1.2
      have hT := h.nonneg
      unfold growth at hgrowth hnonneg
      rw [if_pos hlt, Option.mem_def.1 hn, Option.getD_some] at hgrowth hnonneg
      split_ifs at hif hgrowth hnonneg ⊢
      · exact hif
      · exact ⟨hif.2, by omega, by omega⟩

/-- A segment that does not overlap. -/
theorem goes_nextSegment_ahead [Zero α] (h : Holds s T)
    (hlt : ¬ trc.starttime < s.prevEndT + s.head.sampInt) :
    Goes s (nextSegment machineArith s trc)
      (SegmentFits s.head.dataSize s.head.sampInt s.prevEndT trc ∧
        (T + growth s.head.sampInt s.prevEndT trc) * s.head.dataSize < 2 ^ 31)
      (T + growth s.head.sampInt s.prevEndT trc) := by
  have hnote : Goes s (s.note [.size trc.samplecnt]) (InIntRange trc.samplecnt) T := by
    refine ⟨⟨_, rfl, ?_⟩, fun _ => ⟨⟨h.totSamp, h.nonneg, h.alloc_nonneg, h.range⟩, h.fits⟩⟩
    rw [allOk_cons]
    exact ⟨And.left, fun hc => ⟨hc, allOk_nil⟩⟩
  have hcnt : (0 : ℤ) ≤ trc.samplecnt := Int.natCast_nonneg _
  have hrecord : recordOverlap machineArith s trc =
      (s.note [.size trc.samplecnt], machineArith.int trc.samplecnt, 0) := by
    unfold recordOverlap
    simp only [if_neg hlt]
  unfold nextSegment
  simp only [hrecord]
  by_cases hgt : trc.starttime > s.prevEndT + s.head.sampInt
  · have hfill : ∀ c, fillGap machineArith (s.note [.size trc.samplecnt]) trc c =
        (s.note [.size trc.samplecnt]).fill machineArith
          (gapPoints s.head.sampInt s.prevEndT trc) c := by
      intro c
      unfold fillGap
      exact if_pos hgt
    simp only [hfill]
    have hgrowth : growth s.head.sampInt s.prevEndT trc =
        trc.samplecnt + (gapPoints s.head.sampInt s.prevEndT trc).getD 0 := by
      rw [growth, if_neg hlt, if_pos hgt]
    rw [hgrowth]
    refine Goes.setPrevEndT (Goes.congr (hnote.trans
      (Q := ∃ n ∈ gapPoints s.head.sampInt s.prevEndT trc, 0 ≤ n ∧
        (T + n + trc.samplecnt) * s.head.dataSize < 2 ^ 31)
      ((logs_fill _ _ _ _).trans (logs_copySegment _ _ _ _ _)) fun hrange => ?_) ?_) _
    · rw [machine_int hrange]
      have hfilled := goes_fill (hnote.holds hrange) (gapPoints s.head.sampInt s.prevEndT trc) hcnt
      refine Goes.congr (hfilled.trans (U := T + (trc.samplecnt +
        (gapPoints s.head.sampInt s.prevEndT trc).getD 0)) (Q := True)
        (logs_copySegment _ _ _ _ _) fun hP => ?_) (iff_of_eq (and_true _))
      obtain ⟨n, hn, hn0, hfit⟩ := hP
      have hcopied := goes_copySegment trc (hfilled.holds ⟨n, hn, hn0, hfit⟩) hrange 0
      rw [Option.mem_def.1 hn, Option.getD_some] at hcopied ⊢
      have hadd : T + (trc.samplecnt + n) = T + n + trc.samplecnt := by ring
      rw [hadd]
      exact hcopied.congr (iff_of_true ⟨hcnt, hfit⟩ trivial)
    · constructor
      · rintro ⟨hrange, n, hn, hn0, hfit⟩
        have hadd : T + (trc.samplecnt + n) = T + n + trc.samplecnt := by ring
        refine ⟨⟨hrange, fun hc => absurd hc hlt, fun _ => ⟨n, hn, hn0⟩⟩, ?_⟩
        rw [Option.mem_def.1 hn, Option.getD_some, hadd]
        exact hfit
      · rintro ⟨hfits, hfit⟩
        obtain ⟨n, hn, hn0⟩ := hfits.gap hgt
        have hadd : T + (trc.samplecnt + n) = T + n + trc.samplecnt := by ring
        rw [Option.mem_def.1 hn, Option.getD_some, hadd] at hfit
        exact ⟨hfits.samplecnt, n, hn, hn0, hfit⟩
  · have hfill : ∀ c, fillGap machineArith (s.note [.size trc.samplecnt]) trc c =
        s.note [.size trc.samplecnt] := by
      intro c
      unfold fillGap
      exact if_neg hgt
    have hgrowth : growth s.head.sampInt s.prevEndT trc = trc.samplecnt := by
      rw [growth, if_neg hlt, if_neg hgt]
    simp only [hfill]
    rw [hgrowth]
    refine Goes.setPrevEndT (Goes.congr (hnote.trans (logs_copySegment _ _ _ _ _)
      (Q := 0 ≤ (trc.samplecnt : ℤ) ∧ (T + trc.samplecnt) * s.head.dataSize < 2 ^ 31)
      fun hrange => ?_) ?_) _
    · rw [machine_int hrange]
      exact goes_copySegment trc (hnote.holds hrange) hrange 0
    · exact ⟨fun hP => ⟨⟨hP.1, fun hc => absurd hc hlt, fun hc => absurd hc hgt⟩, hP.2.2⟩,
        fun hP => ⟨hP.1.samplecnt, hcnt, hP.2⟩⟩

/-- One segment goes well exactly when its own sizes fit and all samples so far fit. -/
theorem goes_nextSegment [Zero α] (h : Holds s T) (trc : MSTrace α) :
    Goes s (nextSegment machineArith s trc)
      (SegmentFits s.head.dataSize s.head.sampInt s.prevEndT trc ∧
        (T + growth s.head.sampInt s.prevEndT trc) * s.head.dataSize < 2 ^ 31)
      (T + growth s.head.sampInt s.prevEndT trc) := by
  by_cases hlt : trc.starttime < s.prevEndT + s.head.sampInt
  · exact goes_nextSegment_overlap h hlt
  · exact goes_nextSegment_ahead h hlt

/-! ## A whole trace -/

/-- The samples that segments add to the trace. -/
def runGrowth (oneSample prev : ℚ) : List (MSTrace α) → ℤ
  | [] => 0
  | trc :: traces => growth oneSample prev trc + runGrowth oneSample (max prev trc.endtime) traces

/-- Each segment's own sizes fit. -/
def SegmentsFit (dataSize : ℕ) (oneSample prev : ℚ) : List (MSTrace α) → Prop
  | [] => True
  | trc :: traces =>
    SegmentFits dataSize oneSample prev trc ∧
      SegmentsFit dataSize oneSample (max prev trc.endtime) traces

/-- Each segment's own sizes fit, and so do all samples of the channel with the gap fill. -/
def TraceFits (head : MseedHead) (group : List (MSTrace α)) : Prop :=
  match channelRun head.id group with
  | [] => True
  | first :: traces =>
    let head := setSampling head first
    SegmentsFit head.dataSize head.sampInt first.endtime traces ∧
      (first.samplecnt + runGrowth head.sampInt first.endtime traces) * head.dataSize < 2 ^ 31

theorem runGrowth_nonneg {dataSize : ℕ} {oneSample prev : ℚ} {traces : List (MSTrace α)}
    (h : SegmentsFit dataSize oneSample prev traces) : 0 ≤ runGrowth oneSample prev traces := by
  induction traces generalizing prev with
  | nil => exact le_refl 0
  | cons trc traces ih => exact add_nonneg (growth_nonneg h.1) (ih h.2)

theorem logs_segments [Zero α] (A : CArith) (s : MseedState α) (traces : List (MSTrace α)) :
    Logs s (traces.foldl (nextSegment A) s) := by
  induction traces generalizing s with
  | nil => exact Logs.refl s
  | cons trc traces ih => exact (logs_nextSegment A s trc).trans (ih _)

theorem goes_segments [Zero α] (h : Holds s T) (traces : List (MSTrace α)) :
    Goes s (traces.foldl (nextSegment machineArith) s)
      (SegmentsFit s.head.dataSize s.head.sampInt s.prevEndT traces ∧
        (T + runGrowth s.head.sampInt s.prevEndT traces) * s.head.dataSize < 2 ^ 31)
      (T + runGrowth s.head.sampInt s.prevEndT traces) := by
  induction traces generalizing s T with
  | nil =>
    have hadd : T + runGrowth s.head.sampInt s.prevEndT ([] : List (MSTrace α)) = T := add_zero T
    rw [hadd]
    refine ⟨⟨[], (List.append_nil _).symm, iff_of_true allOk_nil ⟨trivial, h.mul_lt⟩⟩, fun _ => h⟩
  | cons trc traces ih =>
    have hstep := goes_nextSegment h trc
    have hadd : T + runGrowth s.head.sampInt s.prevEndT (trc :: traces) =
        T + growth s.head.sampInt s.prevEndT trc +
          runGrowth s.head.sampInt (max s.prevEndT trc.endtime) traces := (add_assoc _ _ _).symm
    rw [hadd]
    refine (hstep.trans (logs_segments _ _ traces)
      (Q := SegmentsFit s.head.dataSize s.head.sampInt (max s.prevEndT trc.endtime) traces ∧
        (T + growth s.head.sampInt s.prevEndT trc +
          runGrowth s.head.sampInt (max s.prevEndT trc.endtime) traces) * s.head.dataSize < 2 ^ 31)
      fun hP => ?_).congr ?_
    · have hrest := ih (hstep.holds hP)
      rw [head_nextSegment, prevEndT_nextSegment] at hrest
      exact hrest
    · constructor
      · rintro ⟨⟨hfits, -⟩, hrest, hfit⟩
        exact ⟨⟨hfits, hrest⟩, hfit⟩
      · rintro ⟨⟨hfits, hrest⟩, hfit⟩
        -- the samples so far are at most all samples
        refine ⟨⟨hfits, lt_of_le_of_lt ?_ hfit⟩, hrest, hfit⟩
        exact mul_le_mul_of_nonneg_right (le_add_of_nonneg_right (runGrowth_nonneg hrest))
          (Int.natCast_nonneg _)

/-- The first segment goes well exactly when it fits. -/
theorem goes_firstSegment (s : MseedState α) (hpos : 0 ≤ s.ttlMemAlloc)
    (hrange : InIntRange s.ttlMemAlloc) (trc : MSTrace α) :
    Goes s (firstSegment machineArith s trc)
      ((trc.samplecnt : ℤ) * (setSampling s.head trc).dataSize < 2 ^ 31) trc.samplecnt := by
  have hstart : Counts { s with
      head := { setSampling s.head trc with startTime := trc.starttime }
      prevEndT := trc.endtime
      totSamp := 0 } 0 := ⟨rfl, le_refl 0, hpos, hrange⟩
  have hstore := goes_store hstart (Int.natCast_nonneg trc.samplecnt)
    (trc.datasamples.take trc.samplecnt)
  rw [zero_add] at hstore
  exact ⟨hstore.logged, hstore.holds⟩

/-- The careful reading goes well exactly when the trace fits. -/
theorem getMseedTrace_sizes_iff [Zero α] (head : MseedHead) {ttlMemAlloc : ℤ}
    (hpos : 0 ≤ ttlMemAlloc) (hrange : InIntRange ttlMemAlloc) (group : List (MSTrace α)) :
    AllOk (getMseedTrace machineArith head ttlMemAlloc group).log ↔ TraceFits head group := by
  unfold getMseedTrace TraceFits
  rw [groupLoop_true]
  rcases channelRun head.id group with _ | ⟨first, traces⟩
  · exact iff_of_true allOk_nil trivial
  · have hfirst := goes_firstSegment ⟨head, 0, 0, [], [], [], ttlMemAlloc, []⟩ hpos hrange first
    obtain ⟨new, hnew, hok⟩ := (hfirst.trans (logs_segments machineArith _ traces) fun hP =>
      goes_segments (hfirst.holds hP) traces).logged
    rw [List.nil_append] at hnew
    rw [hnew, hok]
    refine ⟨And.right, fun hfits => ⟨lt_of_le_of_lt ?_ hfits.2, hfits⟩⟩
    exact mul_le_mul_of_nonneg_right (le_add_of_nonneg_right (runGrowth_nonneg hfits.1))
      (Int.natCast_nonneg _)

end Sizes

end PQL
