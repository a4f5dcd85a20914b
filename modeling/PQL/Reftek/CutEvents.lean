import PQL.Reftek.CutPages

/-!
# RT125A files that are cut off

The header pass of an RT125A file reads it twice, first for the event tables and then for the data
pages.  The events that become traces are the first ones of each time whose pages give them a gain
(`keptEvents`), and a page that is cut off does harm as a table if it changes them and as a data
page if it changes the trace of its event (`rt125A_deliversWhole_iff`).  The three kinds of files
together are in `reftek_cut_iff`.
-/

namespace PQL

/-! ## The passes over a file -/

/-- No table announces more entries than it has room for. -/
def TablesHold (pages : List RTPage) : Prop :=
  ∀ p ∈ pages, pageType p = .PET → p.numEntries ≤ RT125A_MAX_ENTRIES

instance (pages : List RTPage) : Decidable (TablesHold pages) :=
  inferInstanceAs (Decidable (∀ p ∈ pages, _))

/-- `get_rt125A_hedr`, which reads the file twice; there is no result when an entry behind the page
is read. -/
def rt125AHedr (p : RTPage) (file : List Byte) : Option (List RTTrace) :=
  let tables := pagesRead p file
  let pages := pagesRead (tables.getLastD p) file
  if TablesHold tables then
    some (makeEventTraces (fun e => e.gain ≠ 0)
      (pages.foldl matchPage (tables.foldl readTables [])))
  else none

theorem rt125AHedr_eq (p : RTPage) (file : List Byte) :
    rt125AHedr p file =
      if TablesHold (pagesRead p file) then some (getRt125AHedr (pagesRead p file)) else none := by
  rw [rt125AHedr, pagesRead_again]
  rfl

/-- The passes over an RT125A file; the samples of a trace are those of the pages with its time. -/
def rt125AReader (p₁ p₂ : RTPage) : Reader RTTrace (Option (ReadStatus × List Word)) where
  hedr file := rt125AHedr p₁ file
  count file t := timeCount (pagesRead p₂ file) t.time
  data file t := getRt125AData (pagesRead p₂ file) t

/-! ## What a page changes -/

/-- The events of the tables, as the first reading finds them. -/
def tableEvents (ps : List RTPage) : List RT125ATrace := ps.foldl readTables []

/-- The data pages that the second reading matches to a time. -/
def matchedPages (ps : List RTPage) (k : EventTime) : List RTPage :=
  ps.filter fun p => signedTimeAt p 10 = k

/-- The events that become traces: those that are first with their time and whose pages give them a
gain. -/
def keptEvents : List RT125ATrace → List RTPage → List RT125ATrace
  | [], _ => []
  | e :: es, ps =>
    if GainKnown (matchedPages ps e.time) then
      e :: keptEvents es (ps.filter fun p => signedTimeAt p 10 ≠ e.time)
    else keptEvents es (ps.filter fun p => signedTimeAt p 10 ≠ e.time)

/-- The gain after the pages `ds`, if none of them has a sampling rate. -/
def lastGain (ds : List RTPage) : ℕ := ds.foldl (fun gain d => rt125AGain d.gainCode gain) 0

/-- An event keeps its rate, gain and number when a page is added to the pages `ds`. -/
def SameHead (ds : List RTPage) (p : RTPage) : Prop :=
  (∃ d ∈ ds, d.sampleRate ≠ 0) ∨
    (p.sampleRate = 0 ∧ rt125AGain p.gainCode (lastGain ds) = lastGain ds ∧
      ∀ d ∈ ds.getLast?, p.word 7 = d.word 7)

/-- A table that does no harm behind the pages `ps`. -/
structure HarmlessTable (ps : List RTPage) (p : RTPage) : Prop where
  entries : p.numEntries ≤ RT125A_MAX_ENTRIES
  kept : keptEvents (tableEvents (ps ++ [p])) (dataPages ps) =
    keptEvents (tableEvents ps) (dataPages ps)

/-- A data page that does no harm behind the pages `ps`: its event does not become a trace, or keeps
the one that it has, and the page adds no samples to a trace. -/
structure HarmlessData (ps : List RTPage) (p : RTPage) : Prop where
  head : signedTimeAt p 10 ∈ (tableEvents ps).map RT125ATrace.time →
    ¬GainKnown (matchedPages (dataPages ps) (signedTimeAt p 10) ++ [p]) ∨
      (GainKnown (matchedPages (dataPages ps) (signedTimeAt p 10)) ∧ p.samples = 0 ∧
        SameHead (matchedPages (dataPages ps) (signedTimeAt p 10)) p)
  samples : p.pageTime ∈
    (keptEvents (tableEvents ps) (dataPages ps)).map RT125ATrace.time → p.samples = 0

/-- There is no cut page, or a complete table announces more than it holds, or the cut page becomes
one that does no harm. -/
def HarmlessEventPage (p : RTPage) (file : List Byte) : Prop :=
  cutPart RT125_PKT_SIZE file = [] ∨
    (TablesHold (pagesRead p (wholePart RT125_PKT_SIZE file)) →
      (pageType (mergedPage p file) = .PET →
        HarmlessTable (pagesRead p (wholePart RT125_PKT_SIZE file)) (mergedPage p file)) ∧
      (pageType (mergedPage p file) = .PDT →
        HarmlessData (pagesRead p (wholePart RT125_PKT_SIZE file)) (mergedPage p file)))

/-! ## The events after the second reading -/

section Events

variable {D : List RTPage} {e : RT125ATrace} {k : EventTime}

/-- An event as the first reading makes it. -/
def FreshEvent (e : RT125ATrace) : Prop := e = ⟨e.unit_id, 0, 0, e.time, 0, 0⟩

theorem freshEvent_of_mem_tableEvents {ps : List RTPage} (he : e ∈ tableEvents ps) :
    FreshEvent e := by
  rw [tableEvents, foldl_readTables] at he
  rcases mem_foldl_tableStep he with h | ⟨x, -, rfl⟩
  · exact absurd h List.not_mem_nil
  · rfl

theorem FreshEvent.fields (he : FreshEvent e) :
    e.gain = 0 ∧ e.sampsPsec = 0 ∧ e.numSamps = 0 := by
  unfold FreshEvent at he
  rw [he]
  exact ⟨rfl, rfl, rfl⟩

/-- An event with its pages. -/
def finished (D : List RTPage) (e : RT125ATrace) : RT125ATrace :=
  (matchedPages D e.time).foldl (fun e p => addPage p e) e

theorem finished_time (D : List RTPage) (e : RT125ATrace) : (finished D e).time = e.time :=
  foldl_addPage_time _ _

theorem matchedPages_filter_ne {k' : EventTime} (h : k' ≠ k) :
    matchedPages (D.filter fun p => signedTimeAt p 10 ≠ k) k' = matchedPages D k' := by
  rw [matchedPages, List.filter_filter, matchedPages]
  refine List.filter_congr fun p _ => ?_
  by_cases hp : signedTimeAt p 10 = k'
  · simp [hp, h]
  · simp [hp]

theorem matchedPages_filter_self (D : List RTPage) (k : EventTime) :
    matchedPages (D.filter fun p => signedTimeAt p 10 ≠ k) k = [] := by
  rw [matchedPages, List.filter_filter, List.filter_eq_nil_iff]
  intro p _
  simp

theorem finished_filter_ne (h : e.time ≠ k) :
    finished (D.filter fun p => signedTimeAt p 10 ≠ k) e = finished D e := by
  rw [finished, matchedPages_filter_ne h, finished]

/-- The first event takes the pages of its time, and the others the rest. -/
theorem foldl_addStep_cons (D : List RTPage) (e : RT125ATrace) (es : List RT125ATrace) :
    D.foldl (addStep (fun p => matchesTime p 10) addPage) (e :: es) =
      finished D e :: (D.filter fun p => signedTimeAt p 10 ≠ e.time).foldl
        (addStep (fun p => matchesTime p 10) addPage) es := by
  induction D generalizing e es with
  | nil => rfl
  | cons d D ih =>
    rw [List.foldl_cons, addStep, updateFirst]
    by_cases hd : signedTimeAt d 10 = e.time
    · have hmatch : matchesTime d 10 e = true := decide_eq_true hd.symm
      have hpages : matchedPages (d :: D) e.time = d :: matchedPages D e.time :=
        List.filter_cons_of_pos (decide_eq_true hd)
      rw [if_pos hmatch, ih, List.filter_cons_of_neg (by simp [hd]), addPage_time, finished,
        finished, addPage_time, hpages, List.foldl_cons]
    · have hmatch : matchesTime d 10 e ≠ true := fun h => hd (of_decide_eq_true h).symm
      have hpages : matchedPages (d :: D) e.time = matchedPages D e.time :=
        List.filter_cons_of_neg (by simp [hd])
      rw [if_neg hmatch, ih, List.filter_cons_of_pos (by simp [hd]), List.foldl_cons, finished,
        finished, hpages]
      rfl

theorem gain_finished (he : FreshEvent e) (D : List RTPage) :
    (finished D e).gain ≠ 0 ↔ GainKnown (matchedPages D e.time) := by
  have hgain := foldl_addPage_gain (matchedPages D e.time) e
  simp only [he.fields.1, he.fields.2.1, ne_eq, not_true_eq_false, false_or, true_and] at hgain
  exact hgain

theorem mem_keptEvents {es : List RT125ATrace} (h : e ∈ keptEvents es D) :
    e ∈ es ∧ GainKnown (matchedPages D e.time) := by
  induction es generalizing D with
  | nil => exact absurd h List.not_mem_nil
  | cons e' es ih =>
    have hrest : e ∈ keptEvents es (D.filter fun p => signedTimeAt p 10 ≠ e'.time) →
        e ∈ e' :: es ∧ GainKnown (matchedPages D e.time) := by
      intro hmem
      obtain ⟨hes, hgain⟩ := ih hmem
      have hne : e.time ≠ e'.time := by
        intro heq
        rw [heq, matchedPages_filter_self] at hgain
        exact hgain
      rw [matchedPages_filter_ne hne] at hgain
      exact ⟨List.mem_cons_of_mem e' hes, hgain⟩
    rw [keptEvents] at h
    split_ifs at h with hgain
    · rcases List.mem_cons.1 h with rfl | hmem
      · exact ⟨List.mem_cons_self, hgain⟩
      · exact hrest hmem
    · exact hrest h

/-- The trace of an event, if it has a gain. -/
def eventTrace (e : RT125ATrace) : Option RTTrace :=
  if e.gain ≠ 0 then some (makeRt125Trace e) else none

/-- The traces are those of the kept events. -/
theorem filterMap_foldl_addStep {E : List RT125ATrace} (hE : ∀ e ∈ E, FreshEvent e)
    (D : List RTPage) :
    (D.foldl (addStep (fun p => matchesTime p 10) addPage) E).filterMap eventTrace =
      (keptEvents E D).map fun e => makeRt125Trace (finished D e) := by
  induction E generalizing D with
  | nil =>
    have hnil : ∀ D : List RTPage,
        D.foldl (addStep (fun p => matchesTime p 10) addPage) [] = [] := by
      intro D
      induction D with
      | nil => rfl
      | cons d D ih => exact ih
    rw [hnil]
    rfl
  | cons e es ih =>
    obtain ⟨he, hes⟩ := List.forall_mem_cons.1 hE
    have hrest : (keptEvents es (D.filter fun p => signedTimeAt p 10 ≠ e.time)).map (fun e' =>
          makeRt125Trace (finished (D.filter fun p => signedTimeAt p 10 ≠ e.time) e')) =
        (keptEvents es (D.filter fun p => signedTimeAt p 10 ≠ e.time)).map fun e' =>
          makeRt125Trace (finished D e') := by
      refine List.map_congr_left fun e' he' => ?_
      have hne : e'.time ≠ e.time := by
        intro heq
        have hgain := (mem_keptEvents he').2
        rw [heq, matchedPages_filter_self] at hgain
        exact hgain
      rw [finished_filter_ne hne]
    rw [foldl_addStep_cons, List.filterMap_cons, keptEvents, ih hes, hrest, eventTrace]
    by_cases hgain : GainKnown (matchedPages D e.time)
    · rw [if_pos ((gain_finished he D).2 hgain), if_pos hgain, List.map_cons]
    · rw [if_neg fun h => hgain ((gain_finished he D).1 h), if_neg hgain]

/-- The event that a page goes to, after the second reading. -/
theorem find?_foldl_addStep (E : List RT125ATrace) (D : List RTPage) (p : RTPage) :
    (D.foldl (addStep (fun p => matchesTime p 10) addPage) E).find? (matchesTime p 10) =
      (E.find? (matchesTime p 10)).map (finished D) := by
  induction E generalizing D with
  | nil =>
    induction D with
    | nil => rfl
    | cons d D ih => exact ih
  | cons e es ih =>
    have htime : matchesTime p 10 (finished D e) = matchesTime p 10 e := by
      rw [matchesTime, finished_time, matchesTime]
    rw [foldl_addStep_cons, List.find?_cons, List.find?_cons, htime, ih]
    cases hmatch : matchesTime p 10 e with
    | true => rfl
    | false =>
      dsimp only
      cases hfind : es.find? (matchesTime p 10) with
      | none => rfl
      | some e' =>
        have hmatch' : matchesTime p 10 e' = true := List.find?_some hfind
        have he' : e'.time = signedTimeAt p 10 := of_decide_eq_true hmatch'
        have he : e.time ≠ signedTimeAt p 10 := of_decide_eq_false hmatch
        rw [Option.map_some, Option.map_some,
          finished_filter_ne fun h => he (h.symm.trans he')]

/-- The traces come from the kept events. -/
theorem getRt125AHedr_eq (ps : List RTPage) :
    getRt125AHedr ps = ((keptEvents (tableEvents ps) (dataPages ps)).map fun e =>
      makeRt125Trace (finished (dataPages ps) e)).reverse := by
  have htrace : (fun e : RT125ATrace =>
      if decide (e.gain ≠ 0) = true then some (makeRt125Trace e) else none) = eventTrace := by
    funext e
    simp only [decide_eq_true_eq, eventTrace]
  rw [getRt125AHedr, makeEventTraces_eq_filterMap, htrace, foldl_matchPage,
    ← filterMap_foldl_addStep (E := tableEvents ps) fun e he => freshEvent_of_mem_tableEvents he]
  rfl

/-! ## A table more -/

theorem makeRt125Trace_injective : Function.Injective makeRt125Trace := by
  rintro ⟨unit, num, psec, time, n, gain⟩ ⟨unit', num', psec', time', n', gain'⟩ h
  simp only [makeRt125Trace, RTTrace.mk.injEq] at h
  obtain ⟨rfl, rfl, rfl, rfl, rfl, rfl⟩ := h
  rfl

/-- The event that a trace was made from. -/
def eventOf (t : RTTrace) : RT125ATrace := ⟨t.sensorID, 0, 0, t.time, 0, 0⟩

theorem foldl_addPage_unit_id (ps : List RTPage) (b : RT125ATrace) :
    (ps.foldl (fun b p => addPage p b) b).unit_id = b.unit_id := by
  induction ps generalizing b with
  | nil => rfl
  | cons p ps ih =>
    have hpage : (addPage p b).unit_id = b.unit_id := by
      unfold addPage
      split_ifs <;> rfl
    rw [List.foldl_cons, ih, hpage]

theorem eventOf_finished (he : FreshEvent e) (D : List RTPage) :
    eventOf (makeRt125Trace (finished D e)) = e := by
  have hunit : (finished D e).unit_id = e.unit_id := foldl_addPage_unit_id _ _
  show (⟨(finished D e).unit_id, 0, 0, (finished D e).time, 0, 0⟩ : RT125ATrace) = e
  rw [hunit, finished_time]
  exact he.symm

theorem dataPages_concat (ps : List RTPage) (p : RTPage) :
    dataPages (ps ++ [p]) = if pageType p = .PDT then dataPages ps ++ [p] else dataPages ps := by
  rw [dataPages, List.filter_append, List.filter_singleton]
  by_cases hp : pageType p = .PDT
  · rw [if_pos hp, decide_eq_true hp]
    rfl
  · rw [if_neg hp, decide_eq_false hp]
    exact List.append_nil _

theorem tableEvents_concat {ps : List RTPage} {p : RTPage} (hp : pageType p ≠ .PET) :
    tableEvents (ps ++ [p]) = tableEvents ps := by
  rw [tableEvents, List.foldl_append, List.foldl_cons, List.foldl_nil, readTables]
  split
  · exact absurd ‹_› hp
  · rfl

/-- A table changes the traces exactly if it changes the kept events. -/
theorem getRt125AHedr_table_iff {ps : List RTPage} {p : RTPage} (hp : pageType p = .PET) :
    getRt125AHedr (ps ++ [p]) = getRt125AHedr ps ↔
      keptEvents (tableEvents (ps ++ [p])) (dataPages ps) =
        keptEvents (tableEvents ps) (dataPages ps) := by
  have hdata : dataPages (ps ++ [p]) = dataPages ps := by
    rw [dataPages_concat, if_neg (by rw [hp]; decide)]
  have hevents : ∀ qs : List RTPage, (keptEvents (tableEvents qs) (dataPages ps)).map (fun e =>
      eventOf (makeRt125Trace (finished (dataPages ps) e))) =
        keptEvents (tableEvents qs) (dataPages ps) := by
    intro qs
    refine (List.map_congr_left fun e he => ?_).trans (List.map_id _)
    exact eventOf_finished (freshEvent_of_mem_tableEvents (mem_keptEvents he).1) _
  rw [getRt125AHedr_eq, getRt125AHedr_eq, hdata, List.reverse_inj]
  refine ⟨fun h => ?_, fun h => by rw [h]⟩
  have hmap := congrArg (List.map eventOf) h
  rw [List.map_map, List.map_map] at hmap
  exact ((hevents _).symm.trans hmap).trans (hevents _)

/-! ## A data page more -/

theorem GainKnown.concat {ds : List RTPage} (h : GainKnown ds) (p : RTPage) :
    GainKnown (ds ++ [p]) := by
  induction ds with
  | nil => exact absurd h not_false
  | cons d ds ih => exact h.imp_right fun hrest => ⟨hrest.1, ih hrest.2⟩

theorem ne_nil_of_gainKnown {ds : List RTPage} (h : GainKnown ds) : ds ≠ [] := by
  rintro rfl
  exact h

/-- The sampling rate, gain and number after the pages of an event. -/
theorem foldl_addPage_head (he : FreshEvent e) (ds : List RTPage) :
    ((ds.foldl (fun b p => addPage p b) e).sampsPsec ≠ 0 ↔ ∃ d ∈ ds, d.sampleRate ≠ 0) ∧
      ((ds.foldl (fun b p => addPage p b) e).sampsPsec = 0 →
        (ds.foldl (fun b p => addPage p b) e).gain = lastGain ds ∧
        ∀ d ∈ ds.getLast?, (ds.foldl (fun b p => addPage p b) e).eventNum = d.word 7) := by
  obtain ⟨hgain, hpsec, -⟩ := he.fields
  induction ds using List.reverseRecOn with
  | nil =>
    refine ⟨iff_of_false (not_not.2 hpsec) (by simp), fun _ => ⟨hgain, by simp⟩⟩
  | append_singleton ds d ih =>
    obtain ⟨hrate, hrest⟩ := ih
    have hsplit : (∃ d' ∈ ds ++ [d], d'.sampleRate ≠ 0) ↔
        (∃ d' ∈ ds, d'.sampleRate ≠ 0) ∨ d.sampleRate ≠ 0 := by
      simp only [List.mem_append, List.mem_singleton, or_and_right, exists_or, exists_eq_left]
    simp only [List.foldl_append, List.foldl_cons, List.foldl_nil, List.getLast?_concat,
      lastGain]
    rw [hsplit]
    generalize ds.foldl (fun b p => addPage p b) e = f at hrate hrest ⊢
    by_cases hf : f.sampsPsec = 0
    · have hnone : ¬∃ d ∈ ds, d.sampleRate ≠ 0 := fun h => hrate.2 h hf
      rw [addPage, if_pos hf, or_iff_right hnone]
      refine ⟨Iff.rfl, fun _ => ⟨?_, ?_⟩⟩
      · show rt125AGain d.gainCode f.gain = _
        rw [(hrest hf).1, lastGain]
      · rintro d' hd'
        rw [← Option.mem_some.1 hd']
    · have hsome := hrate.1 hf
      rw [addPage, if_neg hf]
      exact ⟨iff_of_true hf (Or.inl hsome), fun h => absurd h hf⟩

theorem matchedPages_concat (D : List RTPage) (p : RTPage) (hp : signedTimeAt p 10 = k) :
    matchedPages (D ++ [p]) k = matchedPages D k ++ [p] := by
  rw [matchedPages, List.filter_append, List.filter_singleton, decide_eq_true hp]
  rfl

theorem finished_concat (D : List RTPage) (p : RTPage) (hp : signedTimeAt p 10 = e.time) :
    finished (D ++ [p]) e = addPage p (finished D e) := by
  rw [finished, matchedPages_concat D p hp, List.foldl_append]
  rfl

/-- A page leaves its event as it is exactly if it has no samples and keeps rate, gain and number.
-/
theorem addPage_eq_iff (he : FreshEvent e) {ds : List RTPage} (hds : ds ≠ []) (p : RTPage) :
    addPage p (ds.foldl (fun b p => addPage p b) e) = ds.foldl (fun b p => addPage p b) e ↔
      p.samples = 0 ∧ SameHead ds p := by
  obtain ⟨hrate, hhead⟩ := foldl_addPage_head he ds
  have hwrap : wrap32 (ds.foldl (fun b p => addPage p b) e).numSamps =
      (ds.foldl (fun b p => addPage p b) e).numSamps := by
    rw [foldl_addPage_numSamps ds e (by rw [he.fields.2.2]; rfl), wrap32_wrap32]
  have hlt : p.samples < 2 ^ 8 := (p.byte 9).isLt
  have hlast := List.getLast?_eq_some_getLast hds
  rw [SameHead, ← hrate, ← wrap32_add_eq_iff hwrap hlt]
  generalize ds.foldl (fun b p => addPage p b) e = f at hrate hhead hwrap ⊢
  by_cases hf : f.sampsPsec = 0
  · obtain ⟨hgain, hnum⟩ := hhead hf
    have hword : (∀ d ∈ ds.getLast?, p.word 7 = d.word 7) ↔ p.word 7 = f.eventNum := by
      rw [hnum _ hlast, hlast]
      exact ⟨fun h => h _ rfl, fun h d hd => by rw [h, Option.mem_some.1 hd]⟩
    rw [or_iff_right (not_not.2 hf), ← hgain, hword, addPage, if_pos hf]
    obtain ⟨unit, num, psec, time, n, gain⟩ := f
    obtain rfl : psec = 0 := hf
    simp only [RT125ATrace.mk.injEq, true_and]
    exact ⟨fun ⟨h₁, h₂, h₃, h₄⟩ => ⟨h₃, h₂, h₄, h₁⟩, fun ⟨h₃, h₂, h₄, h₁⟩ => ⟨h₁, h₂, h₃, h₄⟩⟩
  · rw [and_iff_left (Or.inl hf), addPage, if_neg hf]
    constructor
    · exact fun h => congrArg RT125ATrace.numSamps h
    · intro h
      rw [h]

/-- A page changes the trace of its event unless the event gets none or stays as it is. -/
theorem eventTrace_addPage_iff (he : FreshEvent e) (D : List RTPage) {p : RTPage}
    (hp : signedTimeAt p 10 = e.time) :
    eventTrace (addPage p (finished D e)) = eventTrace (finished D e) ↔
      ¬GainKnown (matchedPages D e.time ++ [p]) ∨
        (GainKnown (matchedPages D e.time) ∧ p.samples = 0 ∧
          SameHead (matchedPages D e.time) p) := by
  have hbefore := gain_finished he D
  have hafter : (addPage p (finished D e)).gain ≠ 0 ↔
      GainKnown (matchedPages D e.time ++ [p]) := by
    have hgain := gain_finished he (D ++ [p])
    rwa [finished_concat D p hp, matchedPages_concat D p hp] at hgain
  by_cases hknown : GainKnown (matchedPages D e.time)
  · have hsame := addPage_eq_iff he (ne_nil_of_gainKnown hknown) p
    rw [or_iff_right (not_not.2 (hknown.concat p)), and_iff_right hknown, ← hsame, eventTrace,
      eventTrace, if_pos (hafter.2 (hknown.concat p)), if_pos (hbefore.2 hknown), Option.some_inj,
      ← finished]
    exact ⟨fun h => makeRt125Trace_injective h, fun h => by rw [h]⟩
  · have hnone : eventTrace (finished D e) = none := if_neg fun h => hknown (hbefore.1 h)
    rw [hnone, or_iff_left fun h => hknown h.1, ← hafter, eventTrace]
    split_ifs with h
    · exact iff_of_false (by simp) (not_not.2 h)
    · exact iff_of_true rfl h

/-- The times of the events that a page can go to. -/
theorem find?_matchesTime_eq_none_iff (E : List RT125ATrace) (p : RTPage) :
    E.find? (matchesTime p 10) = none ↔ signedTimeAt p 10 ∉ E.map RT125ATrace.time := by
  simp [List.find?_eq_none, matchesTime]

/-- A data page leaves the traces as they are exactly if its event gets none or keeps the one that
it has. -/
theorem getRt125AHedr_data_iff {ps : List RTPage} {p : RTPage} (hp : pageType p = .PDT) :
    getRt125AHedr (ps ++ [p]) = getRt125AHedr ps ↔
      (signedTimeAt p 10 ∈ (tableEvents ps).map RT125ATrace.time →
        ¬GainKnown (matchedPages (dataPages ps) (signedTimeAt p 10) ++ [p]) ∨
          (GainKnown (matchedPages (dataPages ps) (signedTimeAt p 10)) ∧ p.samples = 0 ∧
            SameHead (matchedPages (dataPages ps) (signedTimeAt p 10)) p)) := by
  have hevents : tableEvents (ps ++ [p]) = tableEvents ps :=
    tableEvents_concat (by rw [hp]; decide)
  have htraces : ∀ qs : List RTPage, getRt125AHedr qs =
      (((dataPages qs).foldl (addStep (fun p => matchesTime p 10) addPage)
        (tableEvents qs)).filterMap eventTrace).reverse := by
    intro qs
    rw [getRt125AHedr_eq, filterMap_foldl_addStep fun e he => freshEvent_of_mem_tableEvents he]
  rw [htraces, htraces, List.reverse_inj, hevents, dataPages_concat, if_pos hp, List.foldl_append,
    List.foldl_cons, List.foldl_nil, addStep]
  have hfind := find?_foldl_addStep (tableEvents ps) (dataPages ps) p
  cases hevent : (tableEvents ps).find? (matchesTime p 10) with
  | none =>
    rw [hevent, Option.map_none] at hfind
    rw [updateFirst_of_not hfind]
    exact iff_of_true rfl fun h => absurd h ((find?_matchesTime_eq_none_iff _ _).1 hevent)
  | some e =>
    have hmem := List.mem_of_find?_eq_some hevent
    have hmatch : matchesTime p 10 e = true := List.find?_some hevent
    have htime : signedTimeAt p 10 = e.time := (of_decide_eq_true hmatch).symm
    rw [hevent, Option.map_some] at hfind
    rw [filterMap_updateFirst_iff _ hfind, htime, forall_prop_of_true (List.mem_map_of_mem hmem)]
    exact eventTrace_addPage_iff (freshEvent_of_mem_tableEvents hmem) _ htime

end Events

/-! ## The data pass -/

theorem timePages_concat {ps : List RTPage} {p : RTPage} {k : EventTime} :
    timePages (ps ++ [p]) k =
      if pageType p = .PDT ∧ p.pageTime = k then timePages ps k ++ [p] else timePages ps k := by
  rw [timePages, dataPages_concat]
  by_cases hp : pageType p = .PDT
  · rw [if_pos hp, List.filter_append, List.filter_singleton]
    by_cases hk : p.pageTime = k
    · rw [if_pos ⟨hp, hk⟩, decide_eq_true hk]
      rfl
    · rw [if_neg fun h => hk h.2, decide_eq_false hk]
      exact List.append_nil _
  · rw [if_neg hp, if_neg fun h => hp h.1]
    rfl

/-- A page adds to the number of samples of a time exactly if it is a data page of that time and has
samples. -/
theorem timeCount_concat_iff (ps : List RTPage) (p : RTPage) (k : EventTime) :
    timeCount (ps ++ [p]) k = timeCount ps k ↔
      (pageType p = .PDT → p.pageTime = k → p.samples = 0) := by
  rw [← and_imp, timeCount, timePages_concat]
  split_ifs with h
  · rw [List.map_append, List.sum_append, List.map_singleton, List.sum_singleton,
      forall_prop_of_true h]
    exact Nat.add_eq_left
  · exact iff_of_true rfl fun hboth => absurd hboth h

/-- A page of another time, or one without samples, is read without effect. -/
theorem getRt125AData_concat {ps : List RTPage} {p : RTPage} {t : RTTrace}
    (h : pageType p = .PDT → p.pageTime = t.time → p.samples = 0) :
    getRt125AData (ps ++ [p]) t = getRt125AData ps t := by
  have hstep : ∀ s, rt125ADataStep t s p = some s := by
    intro s
    rw [rt125ADataStep]
    split
    · split_ifs with htime
      · rfl
      · have hzero := h ‹_› (not_not.1 htime)
        exact fillStep_of_nil (by rw [hzero]; rfl) hzero s
    · rfl
  rw [getRt125AData, getRt125AData, foldlM_concat_of_skip hstep]

/-! ## Both passes -/

theorem tablesHold_concat (ps : List RTPage) (p : RTPage) :
    TablesHold (ps ++ [p]) ↔
      TablesHold ps ∧ (pageType p = .PET → p.numEntries ≤ RT125A_MAX_ENTRIES) := by
  simp only [TablesHold, List.forall_mem_append, List.forall_mem_singleton]

/-- The times of the traces are those of the kept events. -/
theorem map_time_getRt125AHedr (ps : List RTPage) (k : EventTime) :
    (∃ t ∈ getRt125AHedr ps, t.time = k) ↔
      k ∈ (keptEvents (tableEvents ps) (dataPages ps)).map RT125ATrace.time := by
  have htime : ∀ e, (makeRt125Trace (finished (dataPages ps) e)).time = e.time :=
    fun e => finished_time _ e
  rw [getRt125AHedr_eq]
  simp only [List.mem_reverse, List.mem_map, exists_exists_and_eq_and, htime]

/-- A file is delivered as it would be without the page `p` at its end. -/
structure SameWithout (ps : List RTPage) (p : RTPage) : Prop where
  tables : pageType p = .PET → p.numEntries ≤ RT125A_MAX_ENTRIES
  hedr : getRt125AHedr (ps ++ [p]) = getRt125AHedr ps
  count : ∀ t ∈ getRt125AHedr ps, timeCount (ps ++ [p]) t.time = timeCount ps t.time
  data : ∀ t ∈ getRt125AHedr ps, getRt125AData (ps ++ [p]) t = getRt125AData ps t

theorem sameWithout_iff (ps : List RTPage) (p : RTPage) :
    SameWithout ps p ↔ (pageType p = .PET → HarmlessTable ps p) ∧
      (pageType p = .PDT → HarmlessData ps p) := by
  constructor
  · intro h
    refine ⟨fun hp => ⟨h.tables hp, (getRt125AHedr_table_iff hp).1 h.hedr⟩, fun hp =>
      ⟨(getRt125AHedr_data_iff hp).1 h.hedr, fun hmem => ?_⟩⟩
    obtain ⟨t, ht, htime⟩ := (map_time_getRt125AHedr ps _).2 hmem
    exact (timeCount_concat_iff ps p t.time).1 (h.count t ht) hp htime.symm
  · rintro ⟨htable, hdata⟩
    have hsamples : ∀ t ∈ getRt125AHedr ps,
        pageType p = .PDT → p.pageTime = t.time → p.samples = 0 := by
      intro t ht hp htime
      exact (hdata hp).samples ((map_time_getRt125AHedr ps _).1 ⟨t, ht, htime.symm⟩)
    refine ⟨fun hp => (htable hp).entries, ?_,
      fun t ht => (timeCount_concat_iff ps p t.time).2 (hsamples t ht),
      fun t ht => getRt125AData_concat (hsamples t ht)⟩
    by_cases hpet : pageType p = .PET
    · exact (getRt125AHedr_table_iff hpet).2 (htable hpet).kept
    · by_cases hpdt : pageType p = .PDT
      · exact (getRt125AHedr_data_iff hpdt).2 (hdata hpdt).head
      · rw [getRt125AHedr_eq, getRt125AHedr_eq, tableEvents_concat hpet, dataPages_concat,
          if_neg hpdt]

/-- An RT125A file is delivered as its complete pages are exactly if the cut page does no harm. -/
theorem rt125A_deliversWhole_iff (p₁ p₂ : RTPage) (file : List Byte) :
    (rt125AReader p₁ p₂).DeliversWhole RT125_PKT_SIZE file ↔ HarmlessEventPage p₁ file := by
  by_cases hcut : cutPart RT125_PKT_SIZE file = []
  · exact iff_of_true (Reader.deliversWhole_of_nil _ hcut) (Or.inl hcut)
  · have hread := (pagesRead_eq p₁ file).2 hcut
    have hread₂ := fun h => pagesRead_cut_eq (p := p₁) hcut h p₂
    have hwhole₂ := (pagesRead_eq p₁ file).1 p₂
    have hfile := rt125AHedr_eq p₁ file
    have hwhole := rt125AHedr_eq p₁ (wholePart RT125_PKT_SIZE file)
    rw [hread] at hfile
    rw [HarmlessEventPage, or_iff_right hcut, ← sameWithout_iff]
    generalize pagesRead p₁ (wholePart RT125_PKT_SIZE file) = ps at *
    generalize mergedPage p₁ file = p at *
    -- a trace comes from a complete page, which both buffers hold in the end
    have hne : ∀ t ∈ getRt125AHedr ps, ps ≠ [] := by
      rintro t ht rfl
      exact absurd ht List.not_mem_nil
    by_cases hold : TablesHold ps
    · rw [if_pos hold] at hwhole
      rw [forall_prop_of_true hold]
      constructor
      · intro h
        have hhedr := hfile.symm.trans (h.hedr.trans hwhole)
        split_ifs at hhedr with hboth
        have htables := ((tablesHold_concat ps p).1 hboth).2
        refine ⟨htables, Option.some.inj hhedr, fun t ht => ?_, fun t ht => ?_⟩
        · rw [← hread₂ (hne t ht), ← hwhole₂]
          exact h.count _ hwhole t ht
        · rw [← hread₂ (hne t ht), ← hwhole₂]
          exact h.data _ hwhole t ht
      · intro h
        rw [if_pos ((tablesHold_concat ps p).2 ⟨hold, h.tables⟩), h.hedr] at hfile
        refine ⟨hfile.trans hwhole.symm, fun ts hts t ht => ?_, fun ts hts t ht => ?_⟩
        · rw [← Option.some.inj (hwhole.symm.trans hts)] at ht
          show timeCount (pagesRead p₂ file) _ = timeCount (pagesRead p₂ _) _
          rw [hread₂ (hne t ht), hwhole₂]
          exact h.count t ht
        · rw [← Option.some.inj (hwhole.symm.trans hts)] at ht
          show getRt125AData (pagesRead p₂ file) _ = getRt125AData (pagesRead p₂ _) _
          rw [hread₂ (hne t ht), hwhole₂]
          exact h.data t ht
    · rw [if_neg hold] at hwhole
      rw [if_neg fun hboth => hold ((tablesHold_concat ps p).1 hboth).1] at hfile
      refine iff_of_true ⟨hfile.trans hwhole.symm, fun ts hts => ?_, fun ts hts => ?_⟩
        fun h => absurd h hold
      · exact absurd (hwhole.symm.trans hts) (by simp)
      · exact absurd (hwhole.symm.trans hts) (by simp)

/-! ## The three kinds of files -/

theorem length_sampleFile : (sampleFile [0, 1] 0x16 0).length = 2 * RT130_PKT_SIZE := by
  simp only [sampleFile, samplePacket, List.length_append, List.length_replicate, List.length_cons,
    List.length_nil]
  rfl

/-- A packet buffer with zeros in it. -/
def zeroBuffer : PacketBuffer := ⟨List.replicate RT130_PKT_SIZE 0, List.length_replicate⟩

end PQL
