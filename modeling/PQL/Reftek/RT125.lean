import PQL.Lib.Delta
import PQL.Reftek.Pages

/-!
# RT125 files

`getRt125Hedr` makes a trace for each event of a file and adds up the sample counts of its pages;
`getRt125Data` reads the samples of the pages of a trace.  Both passes mean to treat the pages that
begin with a header apart, but test `flags | FLAG`, which is never zero, and so take every page for
one with a header.  A page without a header is read correctly only where its samples look the same
nine bytes further on (`rt125_assembled_iff`).
-/

namespace PQL

def RT125_EVENT_FIRST_PAGE : Byte := 1

def RT125_EXTENDED_HEADER : Byte := 1 <<< 2

/-- The offset of the data of a page. -/
def RT125_DATA : ℕ := 10

/-- The size of the data of a page. -/
def RT125_DATA_SIZE : ℕ := 516

namespace RTPage

variable (p : RTPage)

def flags : Byte := p.byte 5

def eventNum : ℕ := p.word 7

def sampleCnt : ℕ := (p.byte 9).toNat

end RTPage

/-- The test of both passes. -/
def testHeader (p : RTPage) : Bool :=
  p.flags ||| RT125_EVENT_FIRST_PAGE ≠ 0 ∨ p.flags ||| RT125_EXTENDED_HEADER ≠ 0

/-! ## The header pass -/

/-- The entry that the first page of an event makes; its extended header begins the data. -/
def newEvent (p : RTPage) : RT125ATrace where
  unit_id := p.word 1 + 10000
  eventNum := p.eventNum
  sampsPsec := p.word (RT125_DATA + 6)
  time := eventTimeAt p RT125_DATA
  numSamps := 0
  gain := 0

def addSamples (p : RTPage) (e : RT125ATrace) : RT125ATrace :=
  { e with numSamps := wrap32 (e.numSamps + p.sampleCnt) }

/-- `getEvent` returns zero. -/
def isEvent (p : RTPage) (e : RT125ATrace) : Bool := e.eventNum = p.eventNum

def rt125Step (events : List RT125ATrace) (p : RTPage) : List RT125ATrace :=
  match pageType p with
  | .PDT =>
    if testHeader p then tallyStep isEvent newEvent addSamples events p
    else addStep isEvent addSamples events p
  | _ => events

def getRt125Hedr (pages : List RTPage) : List RTTrace :=
  makeEventTraces (fun e => e.numSamps ≠ 0) (pages.foldl rt125Step [])

/-! ## The data pass -/

def rtCntr (p : RTPage) : ℕ := if testHeader p then 9 else 0

/-- The index of the next sample; its byte offset is a product of `int`s. -/
def rt125Place (sampsRead : ℤ) : ℤ := wrap32 (sampsRead * 4) / 4

/-- One page; `sampsRead` is kept as an integer and wrapped where it is used. -/
def rt125DataStep (trace : RTTrace) (s : List Word × ℤ) (p : RTPage) : Option (List Word × ℤ) :=
  match pageType p with
  | .PDT =>
    if p.eventNum ≠ trace.channel then some s
    else fillStep rt125Place (fun p => pageSamples p (RT125_DATA + rtCntr p) p.sampleCnt)
      RTPage.sampleCnt s p
  | _ => some s

/-- `get_rt125_data`: the samples that it leaves; `none` where it reads or writes out of bounds. -/
def getRt125Data (pages : List RTPage) (trace : RTTrace) : Option (ReadStatus × List Word) :=
  (pages.foldlM (rt125DataStep trace) (callocInts trace.numSamples, 0)).map fun s =>
    endOfRead s.1 s.2

/-! ## The samples of an event -/

/-- The page begins with a header. -/
def Flagged (p : RTPage) : Prop :=
  p.flags &&& RT125_EVENT_FIRST_PAGE ≠ 0 ∨ p.flags &&& RT125_EXTENDED_HEADER ≠ 0

instance (p : RTPage) : Decidable (Flagged p) := inferInstanceAs (Decidable (_ ∨ _))

/-- Where the samples of a page begin in its data. -/
def samplesStart (p : RTPage) : ℕ := if Flagged p then 9 else 0

/-- The data pages of event `e`. -/
def eventPages (pages : List RTPage) (e : ℕ) : List RTPage :=
  pages.filter fun p => pageType p = .PDT ∧ p.eventNum = e

def eventSamples (pages : List RTPage) (e : ℕ) : List Word :=
  (eventPages pages e).flatMap fun p => samples24 p (RT125_DATA + samplesStart p) p.sampleCnt

/-- The number of samples of an event. -/
def eventCount (pages : List RTPage) (e : ℕ) : ℕ := ((eventPages pages e).map RTPage.sampleCnt).sum

/-- The samples of each data page fit its data. -/
def PagesFit (pages : List RTPage) : Prop :=
  ∀ p ∈ dataPages pages, samplesStart p + 3 * p.sampleCnt ≤ RT125_DATA_SIZE

instance (pages : List RTPage) : Decidable (PagesFit pages) :=
  inferInstanceAs (Decidable (∀ p ∈ dataPages pages, _))

/-- An event that has samples has one trace, which states their number and is read with them. -/
structure Assembled (pages : List RTPage) (e : ℕ) : Prop where
  one : eventCount pages e ≠ 0 →
    ((getRt125Hedr pages).filter fun t => t.channel = e).length = 1
  count : ∀ t ∈ getRt125Hedr pages, t.channel = e → t.numSamples = eventCount pages e
  data : ∀ t ∈ getRt125Hedr pages, t.channel = e →
    getRt125Data pages t = some (.PQLXSUCCESS, eventSamples pages e)

/-- The samples of a page without a header look the same nine bytes further on. -/
def LooksShifted (p : RTPage) : Prop :=
  p.sampleCnt = 0 ∨ (9 + 3 * p.sampleCnt ≤ RT125_DATA_SIZE ∧
    samples24 p (RT125_DATA + 9) p.sampleCnt = samples24 p RT125_DATA p.sampleCnt)

instance (p : RTPage) : Decidable (LooksShifted p) := inferInstanceAs (Decidable (_ ∨ _))

/-! ## Both passes take all pages for headers -/

theorem testHeader_eq_true (p : RTPage) : testHeader p = true := by
  have hflag : ∀ f : Byte, f ||| RT125_EVENT_FIRST_PAGE ≠ 0 := by decide
  exact decide_eq_true (Or.inl (hflag p.flags))

theorem getRt125Hedr_eq (pages : List RTPage) :
    getRt125Hedr pages = makeEventTraces (fun e => e.numSamps ≠ 0)
      ((dataPages pages).foldl (tallyStep isEvent newEvent addSamples) []) := by
  have hstep : ∀ events : List RT125ATrace, pages.foldl rt125Step events =
      (dataPages pages).foldl (tallyStep isEvent newEvent addSamples) events := by
    unfold dataPages
    induction pages with
    | nil => exact fun _ => rfl
    | cons p ps ih =>
      intro events
      rw [List.foldl_cons, ih, List.filter_cons]
      by_cases hp : pageType p = .PDT
      · rw [if_pos (decide_eq_true hp), List.foldl_cons, rt125Step, hp]
        simp only [testHeader_eq_true, if_true]
      · rw [if_neg (by simpa using hp), rt125Step]
        split
        · exact absurd ‹_› hp
        · rfl
  rw [getRt125Hedr, hstep]

theorem keyRespected_isEvent (e : ℕ) (ps : List RTPage) :
    KeyRespected RT125ATrace.eventNum RTPage.eventNum isEvent newEvent addSamples e ps where
  own p _ hp b := by rw [isEvent, hp]
  other p _ hp b hb := decide_eq_false fun h => hp (h.symm.trans hb)
  new _ := rfl
  add _ _ := rfl

/-- The entry of an event after its pages. -/
theorem foldl_addSamples (ps : List RTPage) (b : RT125ATrace)
    (hb : wrap32 b.numSamps = b.numSamps) :
    ps.foldl (fun b p => addSamples p b) b =
      { b with numSamps := wrap32 (b.numSamps + (ps.map RTPage.sampleCnt).sum) } := by
  induction ps generalizing b with
  | nil =>
    rw [List.foldl_nil, List.map_nil, List.sum_nil, Nat.cast_zero, add_zero, hb]
  | cons p ps ih =>
    have hwrap : wrap32 (addSamples p b).numSamps = (addSamples p b).numSamps :=
      wrap32_wrap32 _
    rw [List.foldl_cons, ih _ hwrap, List.map_cons, List.sum_cons]
    show { b with numSamps := wrap32 (wrap32 (b.numSamps + p.sampleCnt) + _) } = _
    rw [wrap32_wrap32_add, Nat.cast_add, add_assoc]

theorem filter_dataPages (pages : List RTPage) (e : ℕ) :
    ((dataPages pages).filter fun p => p.eventNum = e) = eventPages pages e := by
  rw [dataPages, List.filter_filter, eventPages]
  refine List.filter_congr fun p _ => ?_
  rw [Bool.and_comm, Bool.decide_and]

/-- The traces of an event: one with the count of its pages, unless that count is zero. -/
theorem filter_hedr (pages : List RTPage) (e : ℕ) :
    ∃ t : RTTrace, t.channel = e ∧ t.numSamples = wrap32 (eventCount pages e) ∧
      (getRt125Hedr pages).filter (fun t => t.channel = e) =
        if wrap32 (eventCount pages e) = 0 then [] else [t] := by
  have htally : ((dataPages pages).foldl (tallyStep isEvent newEvent addSamples) []).filter
      (fun b => b.eventNum = e) = tallied newEvent addSamples (eventPages pages e) := by
    rw [filter_tally (keyRespected_isEvent e _), filter_dataPages]
  rw [getRt125Hedr_eq, filter_makeEventTraces _ _ (fun b => b.eventNum = e) _ fun _ => rfl, htally]
  unfold eventCount
  cases hps : eventPages pages e with
  | nil => exact ⟨⟨⟨0, 0, 0, 0, 0⟩, 0, 0, 0, e, 0⟩, rfl, rfl, rfl⟩
  | cons p ps =>
    have hp : p.eventNum = e := by
      have hmem : p ∈ eventPages pages e := by rw [hps]; exact List.mem_cons_self
      exact (of_decide_eq_true (List.mem_filter.1 hmem).2).2
    rw [tallied, foldl_addSamples _ _ (show wrap32 0 = 0 by decide),
      show (newEvent p).numSamps = 0 from rfl, zero_add]
    generalize wrap32 (((p :: ps).map RTPage.sampleCnt).sum : ℕ) = n
    refine ⟨makeRt125Trace { newEvent p with numSamps := n }, hp, rfl, ?_⟩
    by_cases hzero : n = 0
    · rw [if_pos hzero, List.filter_cons, if_neg (by simpa using hzero)]
      rfl
    · rw [if_neg hzero, List.filter_cons, if_pos (by simpa using hzero)]
      rfl

/-! ## The data pass as a run over the pages of the event -/

theorem fillInput_rt125 (ps : List RTPage) :
    FillInput rt125Place (fun p => pageSamples p (RT125_DATA + rtCntr p) p.sampleCnt)
      RTPage.sampleCnt 1 (2 ^ 29) ((ps.map RTPage.sampleCnt).sum) ps where
  length p _ xs hxs := by
    rw [pageSamples_eq, Option.ite_none_right_eq_some] at hxs
    rw [← Option.some_inj.1 hxs.2, length_samples24, one_mul]
  pos := one_pos
  small p _ := by
    have := (p.byte 9).isLt
    show ((p.byte 9).toNat : ℤ) ≤ 2 ^ 29
    omega
  exact n h₀ h := by
    rw [rt125Place, wrap32_of_inIntRange ⟨by omega, by omega⟩]
    omega
  negative n h₀ h _ := by
    rw [rt125Place, wrap32_of_large (by omega) (by omega)]
    omega

theorem getRt125Data_eq (pages : List RTPage) (trace : RTTrace) :
    getRt125Data pages trace =
      (fillChunks rt125Place (fun p => pageSamples p (RT125_DATA + rtCntr p) p.sampleCnt)
        RTPage.sampleCnt (callocInts trace.numSamples, 0) (eventPages pages trace.channel)).map
          fun s => endOfRead s.1 s.2 := by
  have hstep : rt125DataStep trace = fun s p =>
      if pageType p = .PDT ∧ p.eventNum = trace.channel then
        fillStep rt125Place (fun p => pageSamples p (RT125_DATA + rtCntr p) p.sampleCnt)
          RTPage.sampleCnt s p
      else some s := by
    funext s p
    unfold rt125DataStep
    by_cases htype : pageType p = .PDT
    · rw [htype]
      by_cases he : p.eventNum = trace.channel <;> simp [he]
    · split
      · exact absurd ‹_› htype
      · exact (if_neg fun hboth => htype hboth.1).symm
  rw [getRt125Data, hstep, foldlM_fillStep_filter]
  rfl

theorem rtCntr_eq (p : RTPage) : rtCntr p = 9 := if_pos (testHeader_eq_true p)

/-- A read that succeeds has taken the samples of each page behind nine bytes. -/
theorem getRt125Data_eq_some_iff {pages : List RTPage} {trace : RTTrace}
    (hcount : trace.numSamples = eventCount pages trace.channel)
    (hrange : (eventCount pages trace.channel : ℤ) < 2 ^ 31) (r : ReadStatus × List Word) :
    getRt125Data pages trace = some r ↔
      (∀ p ∈ eventPages pages trace.channel,
        p.sampleCnt = 0 ∨ 9 + 3 * p.sampleCnt ≤ RT125_DATA_SIZE) ∧
      StartsBelow RTPage.sampleCnt (2 ^ 29) 0 (eventPages pages trace.channel) ∧
      endOfRead ((eventPages pages trace.channel).flatMap fun p =>
        samples24 p (RT125_DATA + 9) p.sampleCnt) (eventCount pages trace.channel) = r := by
  have hmem : (callocInts trace.numSamples).length = 1 * eventCount pages trace.channel := by
    rw [callocInts, List.length_replicate, hcount, Int.emod_eq_of_lt (by omega) (by omega), one_mul,
      Int.toNat_natCast]
  have hcells : (fun p : RTPage => pageSamples p (RT125_DATA + rtCntr p) p.sampleCnt) = fun p =>
      if p.sampleCnt = 0 ∨ 9 + 3 * p.sampleCnt ≤ RT125_DATA_SIZE then
        some (samples24 p (RT125_DATA + 9) p.sampleCnt) else none := by
    funext p
    rw [pageSamples_eq, rtCntr_eq]
    refine if_congr (or_congr_right ?_) rfl rfl
    rw [RT125_DATA, RT125_PKT_SIZE, RT125_DATA_SIZE]
    omega
  have hinput := fillInput_rt125 (eventPages pages trace.channel)
  rw [hcells] at hinput
  have hread : (∀ p ∈ eventPages pages trace.channel,
      p.sampleCnt = 0 ∨ 9 + 3 * p.sampleCnt ≤ RT125_DATA_SIZE) →
      ((eventPages pages trace.channel).flatMap fun p =>
        (if p.sampleCnt = 0 ∨ 9 + 3 * p.sampleCnt ≤ RT125_DATA_SIZE then
          some (samples24 p (RT125_DATA + 9) p.sampleCnt) else none).getD []) =
      (eventPages pages trace.channel).flatMap fun p =>
        samples24 p (RT125_DATA + 9) p.sampleCnt :=
    fun hall => List.flatMap_congr fun p hp => by rw [if_pos (hall p hp), Option.getD_some]
  have hfill := fillChunks_iff hinput (by norm_num) le_rfl hmem
  simp only [Option.isSome_ite] at hfill
  rw [getRt125Data_eq, hcells, Option.map_eq_some_iff]
  constructor
  · rintro ⟨s, hs, hr⟩
    obtain ⟨hall, hstart, rfl⟩ := (hfill s).1 hs
    rw [hread hall] at hr
    exact ⟨hall, hstart, hr⟩
  · rintro ⟨hall, hstart, hr⟩
    refine ⟨_, (hfill _).2 ⟨hall, hstart, rfl⟩, ?_⟩
    rw [hread hall]
    exact hr

theorem length_flatMap_samples24 (ps : List RTPage) (start : RTPage → ℕ) :
    (ps.flatMap fun p => samples24 p (start p) p.sampleCnt).length =
      (ps.map RTPage.sampleCnt).sum := by
  rw [List.length_flatMap]
  simp only [length_samples24]

theorem endOfRead_of_length {xs : List Word} {n : ℕ} (hlen : xs.length = n) (hn : n ≠ 0)
    (hrange : (n : ℤ) < 2 ^ 31) : endOfRead xs n = (.PQLXSUCCESS, xs) := by
  rw [endOfRead, wrap32_of_inIntRange ⟨by omega, hrange⟩, if_neg (by omega), Int.toNat_natCast,
    List.take_of_length_le hlen.le]

/-- The samples that both passes take are those of the event. -/
theorem flatMap_eq_eventSamples_iff (pages : List RTPage) (e : ℕ) :
    ((eventPages pages e).flatMap fun p => samples24 p (RT125_DATA + 9) p.sampleCnt) =
        eventSamples pages e ↔
      ∀ p ∈ eventPages pages e, ¬Flagged p →
        samples24 p (RT125_DATA + 9) p.sampleCnt = samples24 p RT125_DATA p.sampleCnt := by
  rw [eventSamples, flatMap_eq_flatMap_iff _ _ _ fun p _ => by
    rw [length_samples24, length_samples24]]
  refine forall₂_congr fun p _ => ?_
  rw [samplesStart]
  by_cases hflag : Flagged p
  · rw [if_pos hflag]
    exact iff_of_true rfl fun hne => absurd hflag hne
  · rw [if_neg hflag, forall_prop_of_true hflag]
    rfl

theorem sampleCnt_eq_zero_of_eventCount {pages : List RTPage} {e : ℕ} (h : eventCount pages e = 0)
    {p : RTPage} (hp : p ∈ eventPages pages e) : p.sampleCnt = 0 :=
  List.sum_eq_zero_iff.1 h _ (List.mem_map_of_mem hp)

theorem eventCount_lt {pages : List RTPage} {e : ℕ}
    (h : StartsBelow RTPage.sampleCnt (2 ^ 29) 0 (eventPages pages e)) :
    (eventCount pages e : ℤ) < 2 * 2 ^ 29 := by
  have := h.total_lt (by norm_num) (fillInput_rt125 _).small
  rw [zero_add] at this
  exact this

theorem Assembled.looksShifted {pages : List RTPage} {e : ℕ} (h : Assembled pages e) :
    StartsBelow RTPage.sampleCnt (2 ^ 29) 0 (eventPages pages e) ∧
      ∀ p ∈ eventPages pages e, ¬Flagged p → LooksShifted p := by
  obtain ⟨t, hchannel, hnum, hfilter⟩ := filter_hedr pages e
  by_cases hzero : eventCount pages e = 0
  · exact ⟨startsBelow_of_sum_eq_zero hzero,
      fun p hp _ => Or.inl (sampleCnt_eq_zero_of_eventCount hzero hp)⟩
  have hwrap : wrap32 (eventCount pages e) ≠ 0 := by
    intro hwrap
    have := h.one hzero
    rw [hfilter, if_pos hwrap] at this
    exact absurd this (by decide)
  have ht : t ∈ getRt125Hedr pages := by
    have : t ∈ (getRt125Hedr pages).filter fun t => t.channel = e := by
      rw [hfilter, if_neg hwrap]
      exact List.mem_singleton_self t
    exact (List.mem_filter.1 this).1
  have hrange : (eventCount pages e : ℤ) < 2 ^ 31 := by
    rw [← h.count t ht hchannel, hnum]
    exact (inIntRange_wrap32 _).2
  have hlen := length_flatMap_samples24 (eventPages pages e) fun _ => RT125_DATA + 9
  have hdata := h.data t ht hchannel
  rw [getRt125Data_eq_some_iff (by rw [hchannel]; exact h.count t ht hchannel)
    (by rw [hchannel]; exact hrange), hchannel,
    endOfRead_of_length (n := eventCount pages e) hlen hzero hrange, Prod.mk.injEq,
    flatMap_eq_eventSamples_iff] at hdata
  exact ⟨hdata.2.1, fun p hp hflag =>
    (hdata.1 p hp).imp_right fun hp9 => ⟨hp9, hdata.2.2.2 p hp hflag⟩⟩

theorem assembled_of_looksShifted {pages : List RTPage} (hfit : PagesFit pages) {e : ℕ}
    (hstart : StartsBelow RTPage.sampleCnt (2 ^ 29) 0 (eventPages pages e))
    (hshift : ∀ p ∈ eventPages pages e, ¬Flagged p → LooksShifted p) : Assembled pages e := by
  obtain ⟨t, hchannel, hnum, hfilter⟩ := filter_hedr pages e
  have hlarge := eventCount_lt hstart
  have hwrap : wrap32 (eventCount pages e) = eventCount pages e :=
    wrap32_of_inIntRange ⟨by omega, by omega⟩
  rw [hwrap] at hnum hfilter
  -- A trace of the event is the one that `filter_hedr` names.
  have honly : ∀ t' ∈ getRt125Hedr pages, t'.channel = e → eventCount pages e ≠ 0 ∧ t' = t := by
    intro t' ht' hchannel'
    have hmem : t' ∈ (getRt125Hedr pages).filter fun t => t.channel = e :=
      List.mem_filter.2 ⟨ht', decide_eq_true hchannel'⟩
    rw [hfilter] at hmem
    split_ifs at hmem with hzero
    · exact absurd hmem List.not_mem_nil
    · exact ⟨fun h => hzero (by rw [h]; rfl), List.mem_singleton.1 hmem⟩
  refine ⟨fun hne => ?_, fun t' ht' hchannel' => ?_, fun t' ht' hchannel' => ?_⟩
  · rw [hfilter, if_neg (by omega)]
    rfl
  · rw [(honly t' ht' hchannel').2, hnum]
  · obtain ⟨hne, rfl⟩ := honly t' ht' hchannel'
    have hlen := length_flatMap_samples24 (eventPages pages e) fun _ => RT125_DATA + 9
    rw [getRt125Data_eq_some_iff (by rw [hchannel]; exact hnum) (by rw [hchannel]; omega), hchannel,
      endOfRead_of_length (n := eventCount pages e) hlen hne (by omega), Prod.mk.injEq,
      flatMap_eq_eventSamples_iff]
    refine ⟨fun p hp => ?_, hstart, rfl, fun p hp hflag => ?_⟩
    · by_cases hflag : Flagged p
      · have hdt := List.mem_filter.1 hp
        have := hfit p (List.mem_filter.2 ⟨hdt.1, decide_eq_true (of_decide_eq_true hdt.2).1⟩)
        rw [samplesStart, if_pos hflag] at this
        exact Or.inr this
      · exact (hshift p hp hflag).imp_right And.left
    · rcases hshift p hp hflag with hzero | hsame
      · rw [samples24, samples24, hzero, List.range_zero, List.map_nil, List.map_nil]
      · exact hsame.2

/-- An event is assembled exactly if each of its pages that has samples starts below `2 ^ 29`
samples and the pages without a header look the same nine bytes further on. -/
theorem rt125_assembled_iff (pages : List RTPage) (hfit : PagesFit pages) (e : ℕ) :
    Assembled pages e ↔
      StartsBelow RTPage.sampleCnt (2 ^ 29) 0 (eventPages pages e) ∧
        ∀ p ∈ eventPages pages e, ¬Flagged p → LooksShifted p :=
  ⟨fun h => h.looksShifted, fun h => assembled_of_looksShifted hfit h.1 h.2⟩

/-- A data page of event one with the given flags, sample count and first bytes of data. -/
def onePage (flags sampleCnt : Byte) (data : List Byte) (h : data.length ≤ 518) : RTPage where
  bytes := [3, 0, 1, 0, 0, flags, 0, 0, 1, sampleCnt] ++
    (data ++ List.replicate (518 - data.length) 0)
  length_bytes := by
    simp only [List.length_append, List.length_replicate, List.length_cons, List.length_nil,
      RT125_PKT_SIZE]
    omega

/-- A first page without samples and a second page with one sample, the number one. -/
def twoPages : List RTPage := [onePage 1 0 [] (by decide), onePage 0 1 [0, 0, 1] (by decide)]

/-- One page with a header and one sample is assembled. -/
theorem rt125_assembled_onePage :
    Assembled [onePage 1 1 [0, 0, 0, 0, 0, 0, 0, 1, 0, 0, 0, 1] (by decide)] 1 :=
  (rt125_assembled_iff _ (by decide +kernel) 1).2
    ⟨by decide +kernel, by decide +kernel⟩

/-- The sample of a page without a header is misread. -/
theorem rt125_misreads_twoPages : PagesFit twoPages ∧ ¬Assembled twoPages 1 := by
  refine ⟨by decide +kernel, fun h => ?_⟩
  have hpage := h.looksShifted.2 (onePage 0 1 [0, 0, 1] (by decide)) (by decide +kernel)
    (by decide +kernel)
  rcases hpage with hzero | ⟨-, hsame⟩
  · exact absurd hzero (by decide +kernel)
  · exact absurd hsame (by decide +kernel)

end PQL
