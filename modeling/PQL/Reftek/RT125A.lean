import PQL.Lib.Delta
import PQL.Reftek.Pages

/-!
# RT125A files

`getRt125AHedr` collects the events of the event tables and matches the data pages to them by their
times; `getRt125AData` reads the samples of the pages of a trace.  The header pass compares the
bytes of a time as signed `char`s, so that it loses the events from 2112 on, and it drops an event
whose gain code it does not know; the data pass does not check the sample count of a page
(`rt125A_events_iff`).
-/

namespace PQL

/-- The offset of the data of a page. -/
def RT125A_DATA : ℕ := 19

/-- The size of the data of a page. -/
def RT125A_DATA_SIZE : ℕ := 507

/-- The number of entries that an event table has room for. -/
def RT125A_MAX_ENTRIES : ℕ := 64

namespace RTPage

variable (p : RTPage)

def numEntries : ℕ := (p.byte 7).toNat

/-- The time of a data page. -/
def pageTime : EventTime := eventTimeAt p 10

def sampleRate : ℕ := p.word 16

def gainCode : ℕ := (p.byte 6).toNat

def samples : ℕ := (p.byte 9).toNat

end RTPage

/-- An entry of an event table. -/
structure TableEntry where
  page : RTPage
  index : ℕ

def TableEntry.offset (x : TableEntry) : ℕ := 14 + 8 * x.index

def TableEntry.time (x : TableEntry) : EventTime := eventTimeAt x.page x.offset

/-- The entries of an event table; a well-formed one has no more than it has room for. -/
def tableEntries (p : RTPage) : List TableEntry := (List.range p.numEntries).map fun i => ⟨p, i⟩

/-! ## The header pass -/

/-- The time at the offset `o` as `getEvent` reads it, through a pointer to signed `char`. -/
def signedTimeAt (p : RTPage) (o : ℕ) : EventTime where
  year := (p.byte o).toInt + 1984
  jday := (p.byte (o + 1)).toInt * 100 + (p.byte (o + 2)).toInt + 1
  hour := (p.byte (o + 3)).toInt
  minute := (p.byte (o + 4)).toInt
  second := (p.byte (o + 5)).toInt

/-- `getEvent` returns zero. -/
def matchesTime (p : RTPage) (o : ℕ) (one : RT125ATrace) : Bool := one.time = signedTimeAt p o

def newTableEvent (x : TableEntry) : RT125ATrace where
  unit_id := x.page.word 1 + 10000
  eventNum := 0
  sampsPsec := 0
  time := x.time
  numSamps := 0
  gain := 0

def tableStep (events : List RT125ATrace) (x : TableEntry) : List RT125ATrace :=
  if events.any (matchesTime x.page x.offset) then events else newTableEvent x :: events

/-- The first reading of the file. -/
def readTables (events : List RT125ATrace) (p : RTPage) : List RT125ATrace :=
  match pageType p with
  | .PET => (tableEntries p).foldl tableStep events
  | _ => events

/-- `RT125AGAIN`; an unknown code leaves the gain as it is. -/
def rt125AGain (code gain : ℕ) : ℕ :=
  match code with
  | 0 => 32
  | 1 => 1
  | 2 => 2
  | 3 => 4
  | 4 => 8
  | 5 => 16
  | 6 => 32
  | 7 => 64
  | 8 => 128
  | 9 => 256
  | _ => gain

/-- What a data page adds to its event; an event without a sampling rate takes that of the page. -/
def addPage (p : RTPage) (e : RT125ATrace) : RT125ATrace :=
  let e := if e.sampsPsec = 0 then
    { e with
      sampsPsec := p.sampleRate
      gain := rt125AGain p.gainCode e.gain
      eventNum := p.word 7 } else e
  { e with numSamps := wrap32 (e.numSamps + p.samples) }

/-- The second reading of the file; a page that matches no event is left out. -/
def matchPage (events : List RT125ATrace) (p : RTPage) : List RT125ATrace :=
  match pageType p with
  | .PDT => addStep (fun p => matchesTime p 10) addPage events p
  | _ => events

def getRt125AHedr (pages : List RTPage) : List RTTrace :=
  makeEventTraces (fun e => e.gain ≠ 0) (pages.foldl matchPage (pages.foldl readTables []))

/-! ## The data pass -/

/-- One page; the samples go where the last page ended. -/
def rt125ADataStep (trace : RTTrace) (s : List Word × ℤ) (p : RTPage) : Option (List Word × ℤ) :=
  match pageType p with
  | .PDT =>
    if p.pageTime ≠ trace.time then some s
    else fillStep id (fun p => pageSamples p RT125A_DATA p.samples) RTPage.samples s p
  | _ => some s

/-- `get_rt125A_data`; `none` where it reads or writes out of bounds. -/
def getRt125AData (pages : List RTPage) (trace : RTTrace) : Option (ReadStatus × List Word) :=
  (pages.foldlM (rt125ADataStep trace) (callocInts trace.numSamples, 0)).map fun s =>
    endOfRead s.1 s.2

/-! ## Events -/

/-- The entries of all event tables. -/
def allEntries (pages : List RTPage) : List TableEntry :=
  (pages.filter fun p => pageType p = .PET).flatMap tableEntries

/-- The times of the event tables. -/
def tableTimes (pages : List RTPage) : List EventTime := (allEntries pages).map TableEntry.time

/-- The data pages of the event with the time `k`. -/
def timePages (pages : List RTPage) (k : EventTime) : List RTPage :=
  (dataPages pages).filter fun p => p.pageTime = k

def timeCount (pages : List RTPage) (k : EventTime) : ℕ :=
  ((timePages pages k).map RTPage.samples).sum

def timeSamples (pages : List RTPage) (k : EventTime) : List Word :=
  (timePages pages k).flatMap fun p => samples24 p RT125A_DATA p.samples

/-- The day, hour, minute and second of a time are small numbers. -/
def SmallTime (p : RTPage) (o : ℕ) : Prop := ∀ i ∈ [1, 2, 3, 4, 5], (p.byte (o + i)).toNat < 128

instance (p : RTPage) (o : ℕ) : Decidable (SmallTime p o) :=
  inferInstanceAs (Decidable (∀ i ∈ [1, 2, 3, 4, 5], _))

/-- The event tables hold the entries that they announce, and the times are well formed. -/
structure WellFormedPages (pages : List RTPage) : Prop where
  tables : ∀ p ∈ pages, pageType p = .PET → p.numEntries ≤ RT125A_MAX_ENTRIES
  entryTimes : ∀ x ∈ allEntries pages, SmallTime x.page x.offset
  pageTimes : ∀ p ∈ dataPages pages, SmallTime p 10

/-- Every event of the tables that has a data page has one trace, there is no other trace, and each
trace states the number of samples of its pages and is read with them, inside the data of the pages.
-/
structure EventsRead (pages : List RTPage) : Prop where
  one : ∀ k ∈ tableTimes pages, timePages pages k ≠ [] →
    ((getRt125AHedr pages).filter fun t => t.time = k).length = 1
  noOther : ∀ t ∈ getRt125AHedr pages, t.time ∈ tableTimes pages ∧ timePages pages t.time ≠ []
  count : ∀ t ∈ getRt125AHedr pages, t.numSamples = timeCount pages t.time
  data : ∀ t ∈ getRt125AHedr pages, ∃ status,
    getRt125AData pages t = some (status, timeSamples pages t.time)
  inside : ∀ t ∈ getRt125AHedr pages, ∀ p ∈ timePages pages t.time,
    3 * p.samples ≤ RT125A_DATA_SIZE

/-- A page with a known gain code comes no later than the first one with a sampling rate. -/
def GainKnown : List RTPage → Prop
  | [] => False
  | p :: ps => p.gainCode ≤ 9 ∨ (p.sampleRate = 0 ∧ GainKnown ps)

instance decidableGainKnown : (ps : List RTPage) → Decidable (GainKnown ps)
  | [] => .isFalse not_false
  | _ :: ps =>
    have := decidableGainKnown ps
    inferInstanceAs (Decidable (_ ∨ _))

/-- The event can be read: it is before 2112, its gain is known, its pages hold no more samples than
there is room for and its samples can be counted. -/
structure ReadableEvent (k : EventTime) (ps : List RTPage) : Prop where
  year : k.year < 2112
  gain : GainKnown ps
  room : ∀ p ∈ ps, 3 * p.samples ≤ RT125A_DATA_SIZE
  total : ((ps.map RTPage.samples).sum : ℤ) < 2 ^ 31

/-! ## Comparing times -/

section Times

variable {p : RTPage} {o : ℕ} {k : EventTime} {b : RT125ATrace}

theorem signedTimeAt_eq (h : SmallTime p o) (hyear : (p.byte o).toNat < 128) :
    signedTimeAt p o = eventTimeAt p o := by
  have hint : ∀ c : Byte, c.toNat < 128 → c.toInt = c.toNat :=
    fun c hc => BitVec.toInt_eq_toNat_of_lt (by omega)
  rw [signedTimeAt, eventTimeAt, hint _ hyear, hint _ (h 1 (by decide)), hint _ (h 2 (by decide)),
    hint _ (h 3 (by decide)), hint _ (h 4 (by decide)), hint _ (h 5 (by decide))]

theorem year_signedTimeAt_lt (hyear : 128 ≤ (p.byte o).toNat) : (signedTimeAt p o).year < 1984 := by
  have hlt := (p.byte o).isLt
  show (p.byte o).toInt + 1984 < 1984
  rw [BitVec.toInt_eq_toNat_cond, if_neg (by omega)]
  omega

theorem year_signedTimeAt_lt_2112 : (signedTimeAt p o).year < 2112 := by
  have := (p.byte o).toInt_lt
  show (p.byte o).toInt + 1984 < 2112
  omega

theorem year_eventTimeAt_le : 1984 ≤ (eventTimeAt p o).year := by
  show 1984 ≤ ((p.byte o).toNat : ℤ) + 1984
  omega

/-- Times before 2112 are told apart. -/
theorem matchesTime_of_eq (h : SmallTime p o) (hk : k.year < 2112) (heq : eventTimeAt p o = k) :
    matchesTime p o b = decide (b.time = k) := by
  have hyear : (p.byte o).toNat < 128 := by
    have : ((p.byte o).toNat : ℤ) + 1984 < 2112 := by rw [← heq] at hk; exact hk
    omega
  rw [matchesTime, signedTimeAt_eq h hyear, heq]

theorem matchesTime_of_ne (h : SmallTime p o) (hk : 1984 ≤ k.year) (hne : eventTimeAt p o ≠ k)
    (hb : b.time = k) : matchesTime p o b = false := by
  refine decide_eq_false fun heq => ?_
  rw [hb] at heq
  by_cases hyear : (p.byte o).toNat < 128
  · exact hne (by rw [heq, signedTimeAt_eq h hyear])
  · have := year_signedTimeAt_lt (not_lt.1 hyear)
    rw [← heq] at this
    omega

/-- An event from 2112 on matches no page. -/
theorem matchesTime_of_late (hk : 2112 ≤ k.year) (hb : b.time = k) : matchesTime p o b = false := by
  refine decide_eq_false fun heq => ?_
  have := year_signedTimeAt_lt_2112 (p := p) (o := o)
  rw [← heq, hb] at this
  omega

end Times

/-! ## The events of the tables -/

theorem foldl_readTables (pages : List RTPage) (events : List RT125ATrace) :
    pages.foldl readTables events = (allEntries pages).foldl tableStep events := by
  unfold allEntries
  induction pages generalizing events with
  | nil => rfl
  | cons p ps ih =>
    rw [List.foldl_cons, ih, List.filter_cons]
    by_cases hp : pageType p = .PET
    · rw [if_pos (decide_eq_true hp), List.flatMap_cons, List.foldl_append, readTables, hp]
    · rw [if_neg (by simpa using hp), readTables]
      split
      · exact absurd ‹_› hp
      · rfl

theorem mem_foldl_tableStep {xs : List TableEntry} {events : List RT125ATrace} {e : RT125ATrace}
    (h : e ∈ xs.foldl tableStep events) : e ∈ events ∨ ∃ x ∈ xs, e = newTableEvent x := by
  induction xs generalizing events with
  | nil => exact Or.inl h
  | cons x xs ih =>
    rcases ih h with hmem | ⟨y, hy, rfl⟩
    · rw [tableStep] at hmem
      split_ifs at hmem
      · exact Or.inl hmem
      · rcases List.mem_cons.1 hmem with rfl | hmem
        · exact Or.inr ⟨x, List.mem_cons_self, rfl⟩
        · exact Or.inl hmem
    · exact Or.inr ⟨y, List.mem_cons_of_mem x hy, rfl⟩

theorem tableStep_eq : tableStep =
    tallyStep (fun x => matchesTime x.page x.offset) newTableEvent fun _ e => e := by
  have hid :
      ∀ (q : RT125ATrace → Bool) (l : List RT125ATrace), updateFirst q (fun e => e) l = l := by
    intro q l
    induction l with
    | nil => rfl
    | cons e l ih => rw [updateFirst, ih, ite_self]
  funext events x
  rw [tallyStep, addStep, hid]
  rfl

/-- The one entry of a time before 2112, if a table has it. -/
theorem filter_tables {pages : List RTPage} (hw : WellFormedPages pages) {k : EventTime}
    (hk : 1984 ≤ k.year) (hk' : k.year < 2112) :
    ∃ b : RT125ATrace, (b.time = k ∧ b.gain = 0 ∧ b.sampsPsec = 0 ∧ b.numSamps = 0) ∧
      (pages.foldl readTables []).filter (fun e => e.time = k) =
        if k ∈ tableTimes pages then [b] else [] := by
  have hkey : KeyRespected RT125ATrace.time TableEntry.time
      (fun x => matchesTime x.page x.offset) newTableEvent (fun _ e => e) k (allEntries pages) :=
    ⟨fun x hx hxk _ => matchesTime_of_eq (hw.entryTimes x hx) hk' hxk,
      fun x hx hxk _ hb => matchesTime_of_ne (hw.entryTimes x hx) hk hxk hb, fun _ => rfl,
      fun _ _ => rfl⟩
  rw [foldl_readTables, tableStep_eq, filter_tally hkey]
  cases hxs : (allEntries pages).filter fun x => x.time = k with
  | nil =>
    refine ⟨⟨0, 0, 0, k, 0, 0⟩, ⟨rfl, rfl, rfl, rfl⟩, (if_neg fun hmem => ?_).symm⟩
    obtain ⟨x, hx, hxk⟩ := List.mem_map.1 hmem
    exact List.filter_eq_nil_iff.1 hxs x hx (decide_eq_true hxk)
  | cons x xs =>
    have hx := List.mem_filter.1 (show x ∈ (allEntries pages).filter fun x => x.time = k by
      rw [hxs]; exact List.mem_cons_self)
    have hxk : x.time = k := of_decide_eq_true hx.2
    refine ⟨newTableEvent x, ⟨hxk, rfl, rfl, rfl⟩, ?_⟩
    have hmem : k ∈ tableTimes pages := List.mem_map.2 ⟨x, hx.1, hxk⟩
    rw [if_pos hmem, tallied]
    have hfix : ∀ (ys : List TableEntry) (b : RT125ATrace), ys.foldl (fun b _ => b) b = b := by
      intro ys
      induction ys with
      | nil => exact fun _ => rfl
      | cons y ys ih => exact ih
    rw [hfix]

/-! ## The pages of the events -/

theorem foldl_matchPage (pages : List RTPage) (events : List RT125ATrace) :
    pages.foldl matchPage events =
      (dataPages pages).foldl (addStep (fun p => matchesTime p 10) addPage) events := by
  unfold dataPages
  induction pages generalizing events with
  | nil => rfl
  | cons p ps ih =>
    rw [List.foldl_cons, ih, List.filter_cons]
    by_cases hp : pageType p = .PDT
    · rw [if_pos (decide_eq_true hp), List.foldl_cons, matchPage, hp]
    · rw [if_neg (by simpa using hp), matchPage]
      split
      · exact absurd ‹_› hp
      · rfl

theorem addPage_time (p : RTPage) (e : RT125ATrace) : (addPage p e).time = e.time := by
  unfold addPage
  split_ifs <;> rfl

theorem addPage_numSamps (p : RTPage) (e : RT125ATrace) :
    (addPage p e).numSamps = wrap32 (e.numSamps + p.samples) := by
  unfold addPage
  split_ifs <;> rfl

theorem foldl_addPage_time (ps : List RTPage) (b : RT125ATrace) :
    (ps.foldl (fun b p => addPage p b) b).time = b.time := by
  induction ps generalizing b with
  | nil => rfl
  | cons p ps ih => rw [List.foldl_cons, ih, addPage_time]

theorem foldl_addPage_numSamps (ps : List RTPage) (b : RT125ATrace)
    (hb : wrap32 b.numSamps = b.numSamps) :
    (ps.foldl (fun b p => addPage p b) b).numSamps =
      wrap32 (b.numSamps + (ps.map RTPage.samples).sum) := by
  induction ps generalizing b with
  | nil => rw [List.foldl_nil, List.map_nil, List.sum_nil, Nat.cast_zero, add_zero, hb]
  | cons p ps ih =>
    have hwrap : wrap32 (addPage p b).numSamps = (addPage p b).numSamps := by
      rw [addPage_numSamps, wrap32_wrap32]
    rw [List.foldl_cons, ih _ hwrap, List.map_cons, List.sum_cons, addPage_numSamps,
      wrap32_wrap32_add, Nat.cast_add, add_assoc]

theorem rt125AGain_ne_zero_iff (code gain : ℕ) :
    rt125AGain code gain ≠ 0 ↔ code ≤ 9 ∨ gain ≠ 0 := by
  by_cases h : code ≤ 9
  · refine iff_of_true ?_ (Or.inl h)
    interval_cases code <;> exact Nat.succ_ne_zero _
  · rw [or_iff_right h]
    unfold rt125AGain
    split <;> omega

/-- The gain is found before a sampling rate is. -/
theorem foldl_addPage_gain (ps : List RTPage) (b : RT125ATrace) :
    (ps.foldl (fun b p => addPage p b) b).gain ≠ 0 ↔
      b.gain ≠ 0 ∨ (b.sampsPsec = 0 ∧ GainKnown ps) := by
  induction ps generalizing b with
  | nil => simp [GainKnown]
  | cons p ps ih =>
    rw [List.foldl_cons, ih, GainKnown]
    by_cases hrate : b.sampsPsec = 0
    · have hgain : (addPage p b).gain = rt125AGain p.gainCode b.gain := by
        unfold addPage
        rw [if_pos hrate]
      have hpsec : (addPage p b).sampsPsec = p.sampleRate := by
        unfold addPage
        rw [if_pos hrate]
      rw [hgain, hpsec, rt125AGain_ne_zero_iff, and_iff_right hrate]
      tauto
    · have hgain : (addPage p b).gain = b.gain := by
        unfold addPage
        rw [if_neg hrate]
      have hpsec : (addPage p b).sampsPsec = b.sampsPsec := by
        unfold addPage
        rw [if_neg hrate]
      rw [hgain, hpsec]
      simp only [hrate, false_and]

/-! ## The traces -/

/-- The traces of a time before 2112. -/
theorem filter_rt125AHedr {pages : List RTPage} (hw : WellFormedPages pages) {k : EventTime}
    (hk : 1984 ≤ k.year) (hk' : k.year < 2112) :
    ∃ t : RTTrace, t.time = k ∧ t.numSamples = wrap32 (timeCount pages k) ∧
      (getRt125AHedr pages).filter (fun t => t.time = k) =
        if k ∈ tableTimes pages ∧ GainKnown (timePages pages k) then [t] else [] := by
  have hkey : KeyRespected RT125ATrace.time RTPage.pageTime (fun p => matchesTime p 10)
      (fun p => ⟨0, 0, 0, p.pageTime, 0, 0⟩) addPage k (dataPages pages) :=
    ⟨fun p hp hpk _ => matchesTime_of_eq (hw.pageTimes p hp) hk' hpk,
      fun p hp hpk _ hb => matchesTime_of_ne (hw.pageTimes p hp) hk hpk hb, fun _ => rfl,
      addPage_time⟩
  obtain ⟨b, ⟨hb, hgain, hpsec, hnum⟩, htables⟩ := filter_tables hw hk hk'
  have hpages := filter_foldl_addStep hkey (pages.foldl readTables [])
  have hfold := foldl_addPage_gain (timePages pages k) b
  simp only [hgain, hpsec, ne_eq, not_true_eq_false, false_or, true_and] at hfold
  refine ⟨makeRt125Trace ((timePages pages k).foldl (fun b p => addPage p b) b), ?_, ?_, ?_⟩
  · exact (foldl_addPage_time _ b).trans hb
  · show ((timePages pages k).foldl (fun b p => addPage p b) b).numSamps = _
    rw [foldl_addPage_numSamps _ b (by rw [hnum]; rfl), hnum, zero_add]
    rfl
  · rw [getRt125AHedr, filter_makeEventTraces _ _ (fun e => e.time = k) _ fun _ => rfl,
      foldl_matchPage, hpages, htables]
    by_cases hmem : k ∈ tableTimes pages
    · rw [if_pos hmem, List.modifyHead_cons]
      show (((List.filter _ [(timePages pages k).foldl (fun b p => addPage p b) b]).map
        makeRt125Trace).reverse) = _
      by_cases hknown : GainKnown (timePages pages k)
      · have hboth : k ∈ tableTimes pages ∧ GainKnown (timePages pages k) := ⟨hmem, hknown⟩
        rw [if_pos hboth, List.filter_cons, if_pos (decide_eq_true (hfold.2 hknown))]
        rfl
      · have hnot : ¬(k ∈ tableTimes pages ∧ GainKnown (timePages pages k)) := fun h => hknown h.2
        rw [if_neg hnot, List.filter_cons,
          if_neg fun h => hknown (hfold.1 (of_decide_eq_true h))]
        rfl
    · have hnot : ¬(k ∈ tableTimes pages ∧ GainKnown (timePages pages k)) := fun h => hmem h.1
      rw [if_neg hmem, if_neg hnot]
      rfl

/-- There is no trace of a later time. -/
theorem filter_rt125AHedr_late (pages : List RTPage) {k : EventTime} (hk : 2112 ≤ k.year) :
    (getRt125AHedr pages).filter (fun t => t.time = k) = [] := by
  have hrun : ∀ (ps : List RTPage) (events : List RT125ATrace),
      (ps.foldl (addStep (fun p => matchesTime p 10) addPage) events).filter
          (fun e => e.time = k) = events.filter fun e => e.time = k := by
    intro ps
    induction ps with
    | nil => exact fun _ => rfl
    | cons p ps ih =>
      intro events
      rw [List.foldl_cons, ih]
      refine filter_updateFirst_of_not (fun b hb => decide_eq_false fun htime => ?_)
        (fun b => by rw [addPage_time]) events
      have hlate : matchesTime p 10 b = false := matchesTime_of_late hk htime
      exact Bool.false_ne_true (hlate.symm.trans hb)
  rw [getRt125AHedr, filter_makeEventTraces _ _ (fun e => e.time = k) _ fun _ => rfl,
    foldl_matchPage, hrun, foldl_readTables]
  have hnone : ((((allEntries pages).foldl tableStep []).filter fun e => e.time = k).filter
      fun e => e.gain ≠ 0) = [] := by
    refine List.filter_eq_nil_iff.2 fun e he => ?_
    rcases mem_foldl_tableStep (List.mem_filter.1 he).1 with hnil | ⟨x, -, rfl⟩
    · exact absurd hnil List.not_mem_nil
    · exact fun hgain => of_decide_eq_true hgain rfl
  rw [hnone]
  rfl

/-- The time of a trace is that of an event of the tables. -/
theorem time_mem_tableTimes {pages : List RTPage} {t : RTTrace} (ht : t ∈ getRt125AHedr pages) :
    t.time ∈ tableTimes pages := by
  have htimes : ∀ (ps : List RTPage) (events : List RT125ATrace),
      (ps.foldl (addStep (fun p => matchesTime p 10) addPage) events).map RT125ATrace.time =
        events.map RT125ATrace.time := by
    intro ps
    induction ps with
    | nil => exact fun _ => rfl
    | cons p ps ih =>
      intro events
      rw [List.foldl_cons, ih, addStep, map_updateFirst _ _ _ (addPage_time p)]
  rw [getRt125AHedr, makeEventTraces_eq, List.mem_reverse, List.mem_map] at ht
  obtain ⟨e, he, rfl⟩ := ht
  have hmem := List.mem_map_of_mem (f := RT125ATrace.time) (List.mem_filter.1 he).1
  rw [foldl_matchPage, htimes, foldl_readTables] at hmem
  obtain ⟨e', he', htime⟩ := List.mem_map.1 hmem
  rcases mem_foldl_tableStep he' with hnil | ⟨x, hx, rfl⟩
  · exact absurd hnil List.not_mem_nil
  · exact List.mem_map.2 ⟨x, hx, htime⟩

theorem year_le_of_mem_tableTimes {pages : List RTPage} {k : EventTime}
    (h : k ∈ tableTimes pages) : 1984 ≤ k.year := by
  obtain ⟨x, -, rfl⟩ := List.mem_map.1 h
  exact year_eventTimeAt_le

/-! ## The data pass as a run over the pages of the event -/

theorem fillInput_rt125A (ps : List RTPage) :
    FillInput id (fun p => pageSamples p RT125A_DATA p.samples) RTPage.samples 1
      ((ps.map RTPage.samples).sum + 1) (ps.map RTPage.samples).sum ps where
  length p _ xs hxs := by
    rw [pageSamples_eq, Option.ite_none_right_eq_some] at hxs
    rw [← Option.some_inj.1 hxs.2, length_samples24, one_mul]
  pos := one_pos
  small p hp := by
    have := List.le_sum_of_mem (List.mem_map_of_mem (f := RTPage.samples) hp)
    omega
  exact n _ _ := (one_mul n).symm
  negative n h _ h' := by omega

/-- The data pass succeeds exactly if the samples of the pages lie in their data. -/
theorem getRt125AData_eq_some_iff {pages : List RTPage} {trace : RTTrace}
    (hcount : trace.numSamples = timeCount pages trace.time)
    (hrange : (timeCount pages trace.time : ℤ) < 2 ^ 31) (r : ReadStatus × List Word) :
    getRt125AData pages trace = some r ↔
      (∀ p ∈ timePages pages trace.time, 3 * p.samples ≤ RT125A_DATA_SIZE) ∧
        endOfRead (timeSamples pages trace.time) (timeCount pages trace.time) = r := by
  have hmem : (callocInts trace.numSamples).length = 1 * timeCount pages trace.time := by
    rw [callocInts, List.length_replicate, hcount, Int.emod_eq_of_lt (by omega) (by omega), one_mul,
      Int.toNat_natCast]
  have hcells : (fun p : RTPage => pageSamples p RT125A_DATA p.samples) = fun p =>
      if 3 * p.samples ≤ RT125A_DATA_SIZE then some (samples24 p RT125A_DATA p.samples)
      else none := by
    funext p
    rw [pageSamples_eq]
    refine if_congr ?_ rfl rfl
    rw [RT125A_DATA, RT125_PKT_SIZE, RT125A_DATA_SIZE]
    omega
  have hstep : rt125ADataStep trace = fun s p =>
      if pageType p = .PDT ∧ p.pageTime = trace.time then
        fillStep id (fun p => pageSamples p RT125A_DATA p.samples) RTPage.samples s p
      else some s := by
    funext s p
    unfold rt125ADataStep
    by_cases htype : pageType p = .PDT
    · rw [htype]
      by_cases ht : p.pageTime = trace.time <;> simp [ht]
    · split
      · exact absurd ‹_› htype
      · exact (if_neg fun hboth => htype hboth.1).symm
  have hpages : (pages.filter fun p => pageType p = .PDT ∧ p.pageTime = trace.time) =
      timePages pages trace.time := by
    rw [timePages, dataPages, List.filter_filter]
    refine List.filter_congr fun p _ => ?_
    rw [Bool.and_comm, Bool.decide_and]
  have hinput := fillInput_rt125A (timePages pages trace.time)
  rw [hcells] at hinput
  have hfill := fillChunks_iff hinput (by omega) le_rfl hmem
  simp only [Option.isSome_ite] at hfill
  rw [getRt125AData, hstep, foldlM_fillStep_filter, hpages, hcells, Option.map_eq_some_iff]
  have hread : (∀ p ∈ timePages pages trace.time, 3 * p.samples ≤ RT125A_DATA_SIZE) →
      ((timePages pages trace.time).flatMap fun p =>
        (if 3 * p.samples ≤ RT125A_DATA_SIZE then some (samples24 p RT125A_DATA p.samples)
          else none).getD []) = timeSamples pages trace.time :=
    fun hall => List.flatMap_congr fun p hp => by rw [if_pos (hall p hp), Option.getD_some]
  constructor
  · rintro ⟨s, hs, hr⟩
    obtain ⟨hall, -, rfl⟩ := (hfill s).1 hs
    rw [hread hall] at hr
    exact ⟨hall, hr⟩
  · rintro ⟨hall, hr⟩
    refine ⟨_, (hfill _).2 ⟨hall, startsBelow_of_le (by omega), rfl⟩, ?_⟩
    rw [hread hall]
    exact hr

theorem length_timeSamples (pages : List RTPage) (k : EventTime) :
    (timeSamples pages k).length = timeCount pages k := by
  rw [timeSamples, List.length_flatMap]
  simp only [length_samples24]
  rfl

/-- What is read is all that was stored, also if it is nothing. -/
theorem endOfRead_timeSamples {pages : List RTPage} {k : EventTime}
    (hrange : (timeCount pages k : ℤ) < 2 ^ 31) :
    ∃ status, endOfRead (timeSamples pages k) (timeCount pages k) =
      (status, timeSamples pages k) := by
  have hlen := length_timeSamples pages k
  rw [endOfRead, wrap32_of_inIntRange ⟨by omega, hrange⟩]
  split_ifs with hzero
  · have hnil : timeSamples pages k = [] := List.eq_nil_of_length_eq_zero (by omega)
    exact ⟨_, by rw [hnil]⟩
  · exact ⟨_, by rw [Int.toNat_natCast, List.take_of_length_le hlen.le]⟩

/-! ## Files -/

theorem EventsRead.readable {pages : List RTPage} (h : EventsRead pages)
    (hw : WellFormedPages pages) {k : EventTime} (hk : k ∈ tableTimes pages)
    (hpages : timePages pages k ≠ []) : ReadableEvent k (timePages pages k) := by
  have hone := h.one k hk hpages
  have hyear : k.year < 2112 := by
    by_contra hlate
    rw [filter_rt125AHedr_late pages (not_lt.1 hlate)] at hone
    exact absurd hone (by decide)
  obtain ⟨t, htime, hnum, hfilter⟩ := filter_rt125AHedr hw (year_le_of_mem_tableTimes hk) hyear
  have hgain : GainKnown (timePages pages k) := by
    by_contra hunknown
    rw [hfilter, if_neg fun hboth => hunknown hboth.2] at hone
    exact absurd hone (by decide)
  have ht : t ∈ getRt125AHedr pages := by
    have hmem : t ∈ (getRt125AHedr pages).filter fun t => t.time = k := by
      rw [hfilter, if_pos ⟨hk, hgain⟩]
      exact List.mem_singleton_self t
    exact (List.mem_filter.1 hmem).1
  have hcount := h.count t ht
  have hroom := h.inside t ht
  rw [htime] at hcount hroom
  refine ⟨hyear, hgain, hroom, ?_⟩
  show (timeCount pages k : ℤ) < 2 ^ 31
  rw [← hcount, hnum]
  exact (inIntRange_wrap32 _).2

/-- A trace is the one trace of a readable event that has pages. -/
theorem trace_of_readable {pages : List RTPage} (hw : WellFormedPages pages)
    (hread : ∀ k ∈ tableTimes pages, timePages pages k ≠ [] → ReadableEvent k (timePages pages k))
    {t : RTTrace} (ht : t ∈ getRt125AHedr pages) :
    timePages pages t.time ≠ [] ∧ t.numSamples = timeCount pages t.time ∧
      ReadableEvent t.time (timePages pages t.time) := by
  have hk := time_mem_tableTimes ht
  have hmem : t ∈ (getRt125AHedr pages).filter fun t' => t'.time = t.time :=
    List.mem_filter.2 ⟨ht, decide_eq_true rfl⟩
  have hyear : t.time.year < 2112 := by
    by_contra hlate
    rw [filter_rt125AHedr_late pages (not_lt.1 hlate)] at hmem
    exact List.not_mem_nil hmem
  obtain ⟨t', htime, hnum, hfilter⟩ := filter_rt125AHedr hw (year_le_of_mem_tableTimes hk) hyear
  rw [hfilter] at hmem
  split_ifs at hmem with hboth
  · have hpages : timePages pages t.time ≠ [] := by
      intro hnil
      rw [hnil] at hboth
      exact hboth.2
    have hevent := hread _ hk hpages
    refine ⟨hpages, ?_, hevent⟩
    have htotal : (timeCount pages t.time : ℤ) < 2 ^ 31 := hevent.total
    have heq : t.numSamples = t'.numSamples :=
      congrArg RTTrace.numSamples (List.mem_singleton.1 hmem)
    rw [heq, hnum, wrap32_of_inIntRange ⟨by omega, htotal⟩]
  · exact absurd hmem List.not_mem_nil

/-- A file is read as it should be exactly if every event of its tables that has data pages is
readable. -/
theorem rt125A_events_iff (pages : List RTPage) (hw : WellFormedPages pages) :
    EventsRead pages ↔ ∀ k ∈ tableTimes pages, timePages pages k ≠ [] →
      ReadableEvent k (timePages pages k) := by
  refine ⟨fun h k hk hpages => h.readable hw hk hpages, fun hread => ?_⟩
  have htrace := fun {t} ht => trace_of_readable hw hread (t := t) ht
  refine ⟨fun k hk hpages => ?_, fun t ht => ⟨time_mem_tableTimes ht, (htrace ht).1⟩,
    fun t ht => (htrace ht).2.1, fun t ht => ?_, fun t ht => (htrace ht).2.2.room⟩
  · obtain ⟨t, -, -, hfilter⟩ := filter_rt125AHedr hw (year_le_of_mem_tableTimes hk)
      (hread k hk hpages).year
    rw [hfilter, if_pos ⟨hk, (hread k hk hpages).gain⟩]
    rfl
  · obtain ⟨-, hcount, hevent⟩ := htrace ht
    have htotal : (timeCount pages t.time : ℤ) < 2 ^ 31 := hevent.total
    obtain ⟨status, hend⟩ := endOfRead_timeSamples htotal
    exact ⟨status, (getRt125AData_eq_some_iff hcount hevent.total _).2 ⟨hevent.room, hend⟩⟩

theorem length_append_replicate_page {head : List Byte} (h : head.length ≤ 528) :
    (head ++ List.replicate (528 - head.length) 0).length = RT125_PKT_SIZE := by
  rw [List.length_append, List.length_replicate, RT125_PKT_SIZE]
  omega

/-- A page with the given first bytes. -/
def headedPage (head : List Byte) (h : head.length ≤ 528) : RTPage where
  bytes := head ++ List.replicate (528 - head.length) 0
  length_bytes := length_append_replicate_page h

/-- An event table with one event, of noon on the third of January in the given year. -/
def oneEventTable (year : Byte) : RTPage :=
  headedPage [5, 0, 1, 0, 0, 0, 0, 1, 0, 0, 0, 0, 0, 0, year, 0, 2, 12, 0, 0] (by simp)

/-- A data page of that event with one sample, the number one. -/
def oneEventPage (year gainCode : Byte) : RTPage :=
  headedPage [3, 0, 1, 0, 0, 0, gainCode, 0, 1, 1, year, 0, 2, 12, 0, 0, 0, 100, 0, 0, 0, 1]
    (by simp)

/-- A file with an event of the year 2000 is read. -/
theorem rt125A_events_noon : EventsRead [oneEventTable 16, oneEventPage 16 1] :=
  (rt125A_events_iff _ ⟨by decide +kernel, by decide +kernel, by decide +kernel⟩).2 fun _ hk _ => by
    have hone : tableTimes [oneEventTable 16, oneEventPage 16 1] = [⟨2000, 3, 12, 0, 0⟩] := by
      decide +kernel
    rw [hone] at hk
    obtain rfl := List.mem_singleton.1 hk
    exact ⟨by decide, by decide +kernel, by decide +kernel, by decide +kernel⟩

/-- An event whose pages have an unknown gain code is lost. -/
theorem rt125A_loses_event : WellFormedPages [oneEventTable 16, oneEventPage 16 10] ∧
    ¬EventsRead [oneEventTable 16, oneEventPage 16 10] := by
  refine ⟨⟨by decide +kernel, by decide +kernel, by decide +kernel⟩, fun h => ?_⟩
  have hone := h.one ⟨2000, 3, 12, 0, 0⟩ (by decide +kernel) (by decide +kernel)
  exact absurd hone (by decide +kernel)

end PQL
