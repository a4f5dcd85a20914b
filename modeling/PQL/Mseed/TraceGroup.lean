import PQL.Lib.BottomUp
import PQL.Mseed.Group
import PQL.Mseed.StartTime

/-!
# Trace groups

`libmseed` adds each record of a file to the first segment of its channel that it fits, at either
end, or opens a new segment with it.  `mst_groupheal` then merges the segments that fit together.
No sample is lost on the way and none is added: the records are shared out among the segments, and
each segment holds the samples of its records one record after the other
(`mseedGroup_partition`).
-/

namespace PQL

namespace Libmseed

/-- An `MSRecord`, once it is unpacked. -/
structure Record (α : Type) where
  id : ChannelId
  starttime : ℤ
  /-- Bit 4 of the activity flags. -/
  leapSecond : Bool
  samplecnt : ℕ
  samprate : ℚ
  sampletype : Char
  datasamples : Option (List α)

section Group

variable {α : Type}

def Record.samples (msr : Record α) : List α := msr.datasamples.getD []

/-- The time of the last sample. -/
def msrEndtime (msr : Record α) : ℤ :=
  let span := if 0 < msr.samprate ∧ 0 < msr.samplecnt then
    truncate (((msr.samplecnt - 1 : ℤ) : ℚ) / msr.samprate * HPTMODULUS + 1 / 2) else 0
  msr.starttime + if msr.leapSecond then span - HPTMODULUS else span

def msSamplesize (sampletype : Char) : ℕ :=
  match sampletype with
  | 'a' => 1
  | 'i' | 'f' => 4
  | 'd' => 8
  | _ => 0

/-- `MS_ISRATETOLERABLE`; a quotient by zero is not near one. -/
def isRateTolerable (a b : ℚ) : Bool := b ≠ 0 ∧ |1 - a / b| < 1 / 10000

/-- A rate that the tolerance does not admit. -/
def rateDiffers (sampratetol a b : ℚ) : Bool :=
  if sampratetol = -1 then !isRateTolerable a b else |a - b| > sampratetol

/-! ## Adding a record -/

/-- The end of a segment at which something is added. -/
inductive Whence where
  | atEnd
  | atStart
deriving DecidableEq

def hpdelta (samprate : ℚ) : ℤ := if samprate ≠ 0 then truncate (HPTMODULUS / samprate) else 0

def hptimetol (timetol : ℚ) (hpdelta : ℤ) : ℤ :=
  if timetol = -1 then truncate (1 / 2 * (hpdelta : ℚ))
  else if 0 ≤ timetol then truncate (timetol * HPTMODULUS) else 0

/-- The `whence` for the gaps behind and before a segment. -/
def whenceOf (timetol : ℚ) (hptimetol : ℤ) (postgap pregap : ℚ) : Option Whence :=
  if timetol = -2 then some (if |postgap| < |pregap| then .atEnd else .atStart)
  else if postgap ≤ hptimetol ∧ postgap ≥ -hptimetol then some .atEnd
  else if pregap ≤ hptimetol ∧ pregap ≥ -hptimetol then some .atStart
  else none

/-- Whether `mst_findadjacent` takes the segment. -/
def adjacent (msr : Record α) (timetol sampratetol : ℚ) (mst : MSTrace α) : Option Whence :=
  let delta := hpdelta msr.samprate
  let postgap := msr.starttime - mst.endtime - delta
  let pregap := mst.starttime - msrEndtime msr - delta
  if sampratetol ≠ -2 ∧ rateDiffers sampratetol msr.samprate mst.samprate then none
  else if msr.id ≠ mst.id then none
  else whenceOf timetol (hptimetol timetol delta) postgap pregap

/-- The first segment that the record fits, and where. -/
def mstFindadjacent (msr : Record α) (timetol sampratetol : ℚ) :
    List (MSTrace α) → Option (ℕ × Whence)
  | [] => none
  | mst :: traces =>
    match adjacent msr timetol sampratetol mst with
    | some whence => some (0, whence)
    | none => (mstFindadjacent msr timetol sampratetol traces).map fun p => (p.1 + 1, p.2)

def mstAddmsr (mst : MSTrace α) (msr : Record α) (whence : Whence) : Option (MSTrace α) :=
  if msr.datasamples.isSome ∧
      (msSamplesize msr.sampletype = 0 ∨ msr.sampletype ≠ mst.sampletype) then none
  else
    match whence with
    | .atEnd =>
      if msrEndtime msr = HPTERROR then none
      else some { mst with
        datasamples := mst.datasamples ++ msr.samples
        endtime := msrEndtime msr
        samplecnt := mst.samplecnt + msr.samplecnt }
    | .atStart =>
      some { mst with
        datasamples := msr.samples ++ mst.datasamples
        starttime := msr.starttime
        samplecnt := mst.samplecnt + msr.samplecnt }

/-- The segment that a record opens, still empty. -/
def mstInit (msr : Record α) : MSTrace α where
  id := msr.id
  starttime := msr.starttime
  endtime := 0
  samprate := msr.samprate
  sampletype := msr.sampletype
  samplecnt := 0
  datasamples := []

def mstAddmsrtogroup (mstg : List (MSTrace α)) (msr : Record α) (timetol sampratetol : ℚ) :
    Option (List (MSTrace α)) :=
  if msrEndtime msr = HPTERROR then none
  else
    match mstFindadjacent msr timetol sampratetol mstg with
    | some (i, whence) =>
      if msr.samplecnt = 0 ∨ msr.samprate ≤ 0 then some mstg
      else mstg[i]?.bind fun mst => (mstAddmsr mst msr whence).map fun mst => mstg.set i mst
    | none => (mstAddmsr (mstInit msr) msr .atEnd).map fun mst => mstg ++ [mst]

/-- `ms_readtraces` with the default tolerances, once the records are read.  What
`mst_addmsrtogroup` returns is not looked at. -/
def msReadtraces (records : List (Record α)) : List (MSTrace α) :=
  records.foldl (fun mstg msr => (mstAddmsrtogroup mstg msr (-1) (-1)).getD mstg) []

/-! ## Sorting and healing -/

def mstSrcname (mst : MSTrace α) : String :=
  mst.id.network ++ "_" ++ mst.id.station ++ "_" ++ mst.id.location ++ "_" ++ mst.id.channel

/-- One if `mst1` is greater. -/
def mstGroupsortCmp (mst1 mst2 : MSTrace α) : ℤ :=
  if mstSrcname mst1 > mstSrcname mst2 then 1
  else if mstSrcname mst1 = mstSrcname mst2 then
    if mst1.starttime > mst2.starttime then 1
    else if mst1.starttime = mst2.starttime then
      if mst1.endtime < mst2.endtime then 1
      else if mst1.endtime = mst2.endtime then
        if ¬isRateTolerable mst1.samprate mst2.samprate ∧ mst1.samprate > mst2.samprate then 1
        else 0
      else 0
    else 0
  else 0

def mstGroupsort (mstg : List (MSTrace α)) : List (MSTrace α) :=
  bottomUpSort (fun p q => mstGroupsortCmp p q ≤ 0) 0 mstg

/-- `mst_addspan` of the span of another segment. -/
def mstAddspan (mst search : MSTrace α) (whence : Whence) : Option (MSTrace α) :=
  if search.datasamples ≠ [] ∧
      (msSamplesize search.sampletype = 0 ∨ search.sampletype ≠ mst.sampletype) then none
  else
    match whence with
    | .atEnd => some { mst with
        datasamples := mst.datasamples ++ search.datasamples
        endtime := search.endtime
        samplecnt := mst.samplecnt + search.datasamples.length }
    | .atStart => some { mst with
        datasamples := search.datasamples ++ mst.datasamples
        starttime := search.starttime
        samplecnt := mst.samplecnt + search.datasamples.length }

/-- `search` is merged into `cur` and dropped, whether or not `mst_addspan` succeeds. -/
def mergeSpan (cur search : MSTrace α) (whence : Whence) : MSTrace α :=
  let cur := (mstAddspan cur search whence).getD cur
  if search.datasamples = [] then { cur with samplecnt := cur.samplecnt + search.samplecnt }
  else cur

/-- The sampling interval of `cur` in seconds. -/
def healDelta (cur : MSTrace α) : ℚ := if cur.samprate ≠ 0 then 1 / cur.samprate else 0

/-- Where `search` fits. -/
def healWhence (timetol : ℚ) (cur search : MSTrace α) : Option Whence :=
  let postgap := (search.starttime - cur.endtime) / HPTMODULUS - healDelta cur
  let pregap := (cur.starttime - search.endtime) / HPTMODULUS - healDelta cur
  if |postgap| ≤ timetol then some .atEnd
  else if |pregap| ≤ timetol then some .atStart
  else none

/-- One `search` of `mst_groupheal`: the tolerance from now on, and `cur` if `search` was merged.
The default tolerance is that of the first pair that gets here. -/
def healStep (sampratetol timetol : ℚ) (cur search : MSTrace α) : ℚ × Option (MSTrace α) :=
  if search.id ≠ cur.id ∨ rateDiffers sampratetol search.samprate cur.samprate then (timetol, none)
  else
    let timetol := if timetol = -1 then 1 / 2 * healDelta cur else timetol
    (timetol, (healWhence timetol cur search).map (mergeSpan cur search))

structure HealState (α : Type) where
  timetol : ℚ
  cur : MSTrace α
  /-- The segments that were not merged. -/
  kept : List (MSTrace α)

/-- The inner loop over the segments of one side of `cur`. -/
def healScan (sampratetol timetol : ℚ) (cur : MSTrace α) : List (MSTrace α) → HealState α
  | [] => ⟨timetol, cur, []⟩
  | search :: traces =>
    match healStep sampratetol timetol cur search with
    | (timetol, some cur) => healScan sampratetol timetol cur traces
    | (timetol, none) =>
      let s := healScan sampratetol timetol cur traces
      { s with kept := search :: s.kept }

theorem length_healScan_le (sampratetol timetol : ℚ) (cur : MSTrace α) (traces : List (MSTrace α)) :
    (healScan sampratetol timetol cur traces).kept.length ≤ traces.length := by
  induction traces generalizing timetol cur with
  | nil => exact le_rfl
  | cons search traces ih =>
    rw [healScan]
    split
    · exact (ih _ _).trans (Nat.le_succ _)
    · exact Nat.succ_le_succ (ih _ _)

/-- The outer loop: `cur` is compared with all segments before it and behind it. -/
def healLoop (sampratetol timetol : ℚ) (before : List (MSTrace α)) :
    List (MSTrace α) → List (MSTrace α)
  | [] => before
  | cur :: after =>
    let s := healScan sampratetol timetol cur before
    let t := healScan sampratetol s.timetol s.cur after
    healLoop sampratetol t.timetol (s.kept ++ [t.cur]) t.kept
termination_by after => after.length
decreasing_by exact Nat.lt_succ_of_le (length_healScan_le _ _ _ _)

def mstGroupheal (mstg : List (MSTrace α)) (timetol sampratetol : ℚ) : List (MSTrace α) :=
  healLoop sampratetol timetol [] (mstGroupsort mstg)

/-- The group that `get_mseed_trace` reads from a file. -/
def mseedGroup (records : List (Record α)) : List (MSTrace α) :=
  mstGroupheal (mstGroupsort (msReadtraces records)) (-1) (-1)

/-! ## Segments and their records -/

/-- `mst` holds the records, in this order. -/
structure IsSegment (msrs : List (Record α)) (mst : MSTrace α) : Prop where
  ne_nil : msrs ≠ []
  id : ∀ msr ∈ msrs, msr.id = mst.id
  sampletype : ∀ msr ∈ msrs, msr.sampletype = mst.sampletype
  samprate : ∃ msr ∈ msrs, msr.samprate = mst.samprate
  starttime : ∀ msr ∈ msrs.head?, mst.starttime = msr.starttime
  endtime : ∀ msr ∈ msrs.getLast?, mst.endtime = msrEndtime msr
  samplecnt : mst.samplecnt = (msrs.map Record.samplecnt).sum
  datasamples : mst.datasamples = msrs.flatMap Record.samples

/-- The record has samples at some rate, all of them are decoded, and it has an end. -/
structure Record.Decoded (msr : Record α) : Prop where
  isSome : msr.datasamples.isSome
  length : msr.samples.length = msr.samplecnt
  count_pos : 0 < msr.samplecnt
  rate_pos : 0 < msr.samprate
  size_ne : msSamplesize msr.sampletype ≠ 0
  endtime_ne : msrEndtime msr ≠ HPTERROR

/-- All records are decoded, those of one channel to one type of samples. -/
structure Readable (msrs : List (Record α)) : Prop where
  decoded : ∀ msr ∈ msrs, msr.Decoded
  sampletype : ∀ a ∈ msrs, ∀ b ∈ msrs, a.id = b.id → a.sampletype = b.sampletype

variable {C : List (Record α) → Prop} {msr : Record α} {msrs part part' : List (Record α)}
  {mst mst' cur search : MSTrace α} {mstg mstg' : List (MSTrace α)} {timetol sampratetol : ℚ}

theorem IsSegment.samples_ne_nil (h : IsSegment part mst) (hdecoded : ∀ msr ∈ part, msr.Decoded) :
    mst.datasamples ≠ [] := by
  obtain ⟨msr, part, rfl⟩ := List.exists_cons_of_ne_nil h.ne_nil
  have hmsr := hdecoded msr List.mem_cons_self
  have hlen := hmsr.length
  have hpos := hmsr.count_pos
  rw [h.datasamples, List.flatMap_cons]
  exact List.append_ne_nil_of_left_ne_nil (List.ne_nil_of_length_pos (by omega)) _

theorem IsSegment.length_eq (h : IsSegment part mst) (hdecoded : ∀ msr ∈ part, msr.Decoded) :
    mst.datasamples.length = mst.samplecnt := by
  rw [h.datasamples, h.samplecnt, List.length_flatMap]
  exact congrArg List.sum (List.map_congr_left fun msr hmsr => (hdecoded msr hmsr).length)

/-- Two segments of one channel, one behind the other. -/
theorem IsSegment.append (h : IsSegment part mst) (h' : IsSegment part' mst')
    (hid : mst'.id = mst.id) (htype : mst'.sampletype = mst.sampletype)
    (hsamprate : cur.samprate = mst.samprate ∨ cur.samprate = mst'.samprate)
    (hcur : cur.id = mst.id ∧ cur.sampletype = mst.sampletype ∧ cur.starttime = mst.starttime ∧
      cur.endtime = mst'.endtime ∧ cur.samplecnt = mst.samplecnt + mst'.samplecnt ∧
      cur.datasamples = mst.datasamples ++ mst'.datasamples) :
    IsSegment (part ++ part') cur := by
  obtain ⟨hcurid, hcurtype, hstart, hend, hcount, hdata⟩ := hcur
  refine ⟨List.append_ne_nil_of_left_ne_nil h.ne_nil _, fun msr hmsr => ?_, fun msr hmsr => ?_, ?_,
    fun msr hmsr => ?_, fun msr hmsr => ?_, ?_, ?_⟩
  · rw [hcurid]
    exact (List.mem_append.1 hmsr).elim (h.id msr) fun hmsr => (h'.id msr hmsr).trans hid
  · rw [hcurtype]
    exact (List.mem_append.1 hmsr).elim (h.sampletype msr) fun hmsr =>
      (h'.sampletype msr hmsr).trans htype
  · obtain ⟨a, ha, harate⟩ := h.samprate
    obtain ⟨b, hb, hbrate⟩ := h'.samprate
    rcases hsamprate with hrate | hrate
    · exact ⟨a, List.mem_append_left _ ha, harate.trans hrate.symm⟩
    · exact ⟨b, List.mem_append_right _ hb, hbrate.trans hrate.symm⟩
  · rw [List.head?_append_of_ne_nil _ h.ne_nil] at hmsr
    rw [hstart, h.starttime msr hmsr]
  · rw [List.getLast?_append_of_ne_nil _ h'.ne_nil] at hmsr
    rw [hend, h'.endtime msr hmsr]
  · rw [hcount, h.samplecnt, h'.samplecnt, List.map_append, List.sum_append]
  · rw [hdata, h.datasamples, h'.datasamples, List.flatMap_append]

/-- The records are shared out among the segments, in parts with the property `C`. -/
def Partition (C : List (Record α) → Prop) (msrs : List (Record α)) (mstg : List (MSTrace α)) :
    Prop :=
  ∃ parts : List (List (Record α)), parts.flatten.Perm msrs ∧
    List.Forall₂ (fun mst part => IsSegment part mst ∧ C part) mstg parts

theorem Partition.perm (h : Partition C msrs mstg) (hperm : mstg'.Perm mstg) :
    Partition C msrs mstg' := by
  obtain ⟨parts, hparts, hsegments⟩ := h
  obtain ⟨parts', hsegments', hperm'⟩ := List.perm_comp_forall₂ hperm hsegments
  exact ⟨parts', hperm'.flatten.trans hparts, hsegments'⟩

theorem Partition.cons_iff : Partition C msrs (mst :: mstg) ↔
    ∃ part rest, (part ++ rest).Perm msrs ∧ (IsSegment part mst ∧ C part) ∧
      Partition C rest mstg := by
  constructor
  · rintro ⟨parts, hparts, hsegments⟩
    obtain ⟨part, parts, hpart, hrest, rfl⟩ := List.forall₂_cons_left_iff.1 hsegments
    exact ⟨part, parts.flatten, hparts, hpart, parts, List.Perm.refl _, hrest⟩
  · rintro ⟨part, rest, hperm, hpart, parts, hparts, hrest⟩
    exact ⟨part :: parts, ((hparts.append_left part).trans hperm), .cons hpart hrest⟩

theorem Partition.of_perm (h : Partition C msrs mstg) {msrs' : List (Record α)}
    (hperm : msrs.Perm msrs') : Partition C msrs' mstg := by
  obtain ⟨parts, hparts, hsegments⟩ := h
  exact ⟨parts, hparts.trans hperm, hsegments⟩

theorem Readable.subset (h : Readable msrs) {msrs' : List (Record α)} (hsub : msrs' ⊆ msrs) :
    Readable msrs' where
  decoded msr hmsr := h.decoded msr (hsub hmsr)
  sampletype a ha b hb := h.sampletype a (hsub ha) b (hsub hb)

/-! ## Reading the records -/

theorem mstFindadjacent_some {i : ℕ} {whence : Whence}
    (h : mstFindadjacent msr timetol sampratetol mstg = some (i, whence)) :
    ∃ before mst after, mstg = before ++ mst :: after ∧ before.length = i ∧
      adjacent msr timetol sampratetol mst = some whence := by
  induction mstg generalizing i with
  | nil => exact nomatch h
  | cons mst mstg ih =>
    rw [mstFindadjacent] at h
    cases hadj : adjacent msr timetol sampratetol mst with
    | some whence' =>
      rw [hadj] at h
      obtain ⟨rfl, rfl⟩ := Prod.mk.inj (Option.some.inj h)
      exact ⟨[], mst, mstg, rfl, rfl, hadj⟩
    | none =>
      rw [hadj] at h
      obtain ⟨⟨j, whence'⟩, hj, heq⟩ := Option.map_eq_some_iff.1 h
      obtain ⟨rfl, rfl⟩ := Prod.mk.inj heq
      obtain ⟨before, mst', after, rfl, rfl, hadj'⟩ := ih hj
      exact ⟨mst :: before, mst', after, rfl, rfl, hadj'⟩

/-- A segment that takes a record is one of its channel. -/
theorem adjacent_id {whence : Whence} (h : adjacent msr timetol sampratetol mst = some whence) :
    msr.id = mst.id := by
  unfold adjacent at h
  dsimp only at h
  split_ifs at h with hrate hid
  exact not_not.1 hid

/-- The records of a segment with one more. -/
def extendPart (part : List (Record α)) (msr : Record α) : Whence → List (Record α)
  | .atEnd => part ++ [msr]
  | .atStart => msr :: part

theorem extendPart_perm (part : List (Record α)) (msr : Record α) (whence : Whence) :
    (extendPart part msr whence).Perm (msr :: part) := by
  cases whence with
  | atEnd => exact List.perm_append_singleton msr part
  | atStart => exact List.Perm.refl _

/-- A record, as a segment. -/
def recordSegment (msr : Record α) : MSTrace α where
  id := msr.id
  starttime := msr.starttime
  endtime := msrEndtime msr
  samprate := msr.samprate
  sampletype := msr.sampletype
  samplecnt := msr.samplecnt
  datasamples := msr.samples

theorem isSegment_recordSegment (msr : Record α) : IsSegment [msr] (recordSegment msr) where
  ne_nil := List.cons_ne_nil _ _
  id := by simp [recordSegment]
  sampletype := by simp [recordSegment]
  samprate := ⟨msr, List.mem_singleton_self msr, rfl⟩
  starttime := by simp [recordSegment]
  endtime := by simp [recordSegment]
  samplecnt := by simp [recordSegment]
  datasamples := by simp [recordSegment]

theorem mstAddmsr_init (h : msr.Decoded) :
    mstAddmsr (mstInit msr) msr .atEnd = some (recordSegment msr) := by
  have hok : ¬(msr.datasamples.isSome ∧
      (msSamplesize msr.sampletype = 0 ∨ msr.sampletype ≠ (mstInit msr).sampletype)) := fun hbad =>
    hbad.2.elim h.size_ne fun hne => hne rfl
  unfold mstAddmsr
  rw [if_neg hok]
  dsimp only
  rw [if_neg h.endtime_ne]
  simp [mstInit, recordSegment]

/-- A record that is added goes to one end of the segment. -/
theorem mstAddmsr_segment (h : msr.Decoded) (hpart : IsSegment part mst) (hid : msr.id = mst.id)
    (htype : msr.sampletype = mst.sampletype) (whence : Whence) :
    ∃ mst', mstAddmsr mst msr whence = some mst' ∧
      IsSegment (extendPart part msr whence) mst' := by
  have hok : ¬(msr.datasamples.isSome ∧
      (msSamplesize msr.sampletype = 0 ∨ msr.sampletype ≠ mst.sampletype)) := fun hbad =>
    hbad.2.elim h.size_ne fun hne => hne htype
  unfold mstAddmsr
  rw [if_neg hok]
  cases whence with
  | atEnd =>
    dsimp only
    rw [if_neg h.endtime_ne]
    exact ⟨_, rfl, hpart.append (isSegment_recordSegment msr) hid htype (.inl rfl)
      ⟨rfl, rfl, rfl, rfl, rfl, rfl⟩⟩
  | atStart =>
    exact ⟨_, rfl, (isSegment_recordSegment msr).append hpart hid.symm htype.symm (.inr rfl)
      ⟨hid.symm, htype.symm, rfl, rfl, Nat.add_comm _ _, rfl⟩⟩

/-- The step of the reading: the record is added to one segment. -/
theorem Partition.addmsr (h : Partition C msrs mstg) (hread : Readable (msr :: msrs))
    (hsingle : C [msr])
    (hextend : ∀ part mst whence, (msr :: part).Subperm (msr :: msrs) → IsSegment part mst →
      C part → adjacent msr timetol sampratetol mst = some whence →
      C (extendPart part msr whence)) :
    ∃ mstg', mstAddmsrtogroup mstg msr timetol sampratetol = some mstg' ∧
      Partition C (msr :: msrs) mstg' := by
  have hdecoded := hread.decoded msr List.mem_cons_self
  unfold mstAddmsrtogroup
  rw [if_neg hdecoded.endtime_ne]
  cases hfind : mstFindadjacent msr timetol sampratetol mstg with
  | none =>
    dsimp only
    rw [mstAddmsr_init hdecoded]
    refine ⟨_, rfl, (Partition.cons_iff.2 ?_).perm (List.perm_append_singleton _ _)⟩
    exact ⟨[msr], msrs, List.Perm.refl _, ⟨isSegment_recordSegment msr, hsingle⟩, h⟩
  | some found =>
    obtain ⟨i, whence⟩ := found
    obtain ⟨before, mst, after, rfl, rfl, hadj⟩ := mstFindadjacent_some hfind
    obtain ⟨part, rest, hperm, ⟨hpart, hC⟩, hrest⟩ :=
      Partition.cons_iff.1 (h.perm List.perm_middle.symm)
    have hsub : part.Subperm msrs :=
      (List.sublist_append_left part rest).subperm.trans hperm.subperm
    have htype : msr.sampletype = mst.sampletype := by
      obtain ⟨a, ha, -⟩ := hpart.samprate
      rw [← hpart.sampletype a ha]
      refine hread.sampletype msr List.mem_cons_self a (List.mem_cons_of_mem _ (hsub.subset ha)) ?_
      rw [adjacent_id hadj, hpart.id a ha]
    obtain ⟨mst', hadd, hpart'⟩ := mstAddmsr_segment hdecoded hpart (adjacent_id hadj) htype whence
    have hcover : ¬(msr.samplecnt = 0 ∨ msr.samprate ≤ 0) := by
      rintro (hzero | hle)
      · exact hdecoded.count_pos.ne' hzero
      · exact not_lt.2 hle hdecoded.rate_pos
    dsimp only
    rw [if_neg hcover, List.getElem?_append_right le_rfl, Nat.sub_self, List.getElem?_cons_zero,
      Option.bind_some, hadd]
    refine ⟨before ++ mst' :: after, ?_, ?_⟩
    · rw [Option.map_some, List.set_append_right _ _ le_rfl, Nat.sub_self, List.set_cons_zero]
    · refine (Partition.cons_iff.2 ?_).perm List.perm_middle
      refine ⟨extendPart part msr whence, rest, ?_,
        ⟨hpart', hextend part mst whence ((List.subperm_cons msr).2 hsub) hpart hC hadj⟩, hrest⟩
      exact ((extendPart_perm part msr whence).append_right rest).trans (hperm.cons msr)

/-- All records are added. -/
theorem partition_foldlM {records : List (Record α)} (hread : Readable records)
    (hsingle : ∀ msr ∈ records, C [msr])
    (hextend : ∀ msr part mst whence, (msr :: part).Subperm records → IsSegment part mst →
      C part → adjacent msr timetol sampratetol mst = some whence →
      C (extendPart part msr whence))
    {rest : List (Record α)} (hperm : (msrs ++ rest).Perm records) (h : Partition C msrs mstg) :
    ∃ mstg', rest.foldlM (fun mstg msr => mstAddmsrtogroup mstg msr timetol sampratetol) mstg =
      some mstg' ∧ Partition C records mstg' := by
  induction rest generalizing msrs mstg with
  | nil =>
    rw [List.append_nil] at hperm
    exact ⟨mstg, rfl, h.of_perm hperm⟩
  | cons msr rest ih =>
    have hperm' : (msr :: msrs ++ rest).Perm records := List.perm_middle.symm.trans hperm
    have hsub : (msr :: msrs).Subperm records :=
      (List.sublist_append_left _ rest).subperm.trans hperm'.subperm
    obtain ⟨mstg', hadd, h'⟩ := h.addmsr (hread.subset hsub.subset)
      (hsingle msr (hsub.subset List.mem_cons_self))
      fun part mst whence hpart => hextend msr part mst whence (hpart.trans hsub)
    obtain ⟨mstg'', hrest, h''⟩ := ih hperm' h'
    exact ⟨mstg'', by rw [List.foldlM_cons, hadd]; exact hrest, h''⟩

/-- A loop that goes on after a failure, when nothing fails. -/
theorem foldl_getD_of_foldlM {σ τ : Type} {step : σ → τ → Option σ} {l : List τ} {s s' : σ}
    (h : l.foldlM step s = some s') : l.foldl (fun s a => (step s a).getD s) s = s' := by
  induction l generalizing s with
  | nil => exact Option.some.inj h
  | cons a l ih =>
    rw [List.foldlM_cons] at h
    obtain ⟨t, ht, hrest⟩ := Option.bind_eq_some_iff.1 h
    rw [List.foldl_cons, ht, Option.getD_some]
    exact ih hrest

theorem partition_msReadtraces {records : List (Record α)} (hread : Readable records)
    (hsingle : ∀ msr ∈ records, C [msr])
    (hextend : ∀ msr part mst whence, (msr :: part).Subperm records → IsSegment part mst →
      C part → adjacent msr (-1) (-1) mst = some whence → C (extendPart part msr whence)) :
    Partition C records (msReadtraces records) := by
  obtain ⟨mstg, hfold, h⟩ := partition_foldlM hread hsingle hextend (List.Perm.refl _)
    ⟨[], List.Perm.refl _, .nil⟩
  rw [msReadtraces, foldl_getD_of_foldlM hfold]
  exact h

theorem Partition.groupsort (h : Partition C msrs mstg) : Partition C msrs (mstGroupsort mstg) :=
  h.perm (bottomUpSort_perm 0 mstg)

/-! ## Healing -/

theorem healStep_some {t : ℚ} {cur' : MSTrace α}
    (h : healStep sampratetol timetol cur search = (t, some cur')) :
    search.id = cur.id ∧ ∃ whence, cur' = mergeSpan cur search whence := by
  unfold healStep at h
  by_cases hother : search.id ≠ cur.id ∨ rateDiffers sampratetol search.samprate cur.samprate
  · rw [if_pos hother] at h
    exact nomatch (Prod.mk.inj h).2
  · rw [if_neg hother] at h
    obtain ⟨whence, -, hmerge⟩ := Option.map_eq_some_iff.1 (Prod.mk.inj h).2
    exact ⟨not_not.1 (not_or.1 hother).1, whence, hmerge.symm⟩

/-- Two parts, joined at one end of the first. -/
def joinParts (part part' : List (Record α)) : Whence → List (Record α)
  | .atEnd => part ++ part'
  | .atStart => part' ++ part

theorem joinParts_perm (part part' : List (Record α)) (whence : Whence) :
    (joinParts part part' whence).Perm (part ++ part') := by
  cases whence with
  | atEnd => exact List.Perm.refl _
  | atStart => exact List.perm_append_comm

/-- Segments with decoded samples are merged without loss. -/
theorem isSegment_mergeSpan (hpart : IsSegment part cur) (hpart' : IsSegment part' search)
    (hdecoded : ∀ msr ∈ part', msr.Decoded) (hid : search.id = cur.id)
    (htype : search.sampletype = cur.sampletype) (whence : Whence) :
    IsSegment (joinParts part part' whence) (mergeSpan cur search whence) := by
  have hne := hpart'.samples_ne_nil hdecoded
  have hlen := hpart'.length_eq hdecoded
  have hsize : msSamplesize search.sampletype ≠ 0 := by
    obtain ⟨msr, hmsr, -⟩ := hpart'.samprate
    rw [← hpart'.sampletype msr hmsr]
    exact (hdecoded msr hmsr).size_ne
  have hok : ¬(search.datasamples ≠ [] ∧
      (msSamplesize search.sampletype = 0 ∨ search.sampletype ≠ cur.sampletype)) := fun hbad =>
    hbad.2.elim hsize fun hne => hne htype
  unfold mergeSpan mstAddspan
  rw [if_neg hok]
  dsimp only
  rw [if_neg hne]
  cases whence with
  | atEnd =>
    exact hpart.append hpart' hid htype (.inl rfl)
      ⟨rfl, rfl, rfl, rfl, congrArg (cur.samplecnt + ·) hlen, rfl⟩
  | atStart =>
    refine hpart'.append hpart hid.symm htype.symm (.inr rfl)
      ⟨hid.symm, htype.symm, rfl, rfl, ?_, rfl⟩
    exact (congrArg (cur.samplecnt + ·) hlen).trans (Nat.add_comm _ _)

/-- The records are shared out, in any parts. -/
def Shared (msrs : List (Record α)) (mstg : List (MSTrace α)) : Prop :=
  Partition (fun _ => True) msrs mstg

theorem Shared.merge (h : Shared msrs (cur :: search :: mstg)) (hread : Readable msrs)
    (hid : search.id = cur.id) (whence : Whence) :
    Shared msrs (mergeSpan cur search whence :: mstg) := by
  obtain ⟨part, rest, hperm, ⟨hpart, -⟩, hrest⟩ := Partition.cons_iff.1 h
  obtain ⟨part', rest', hperm', ⟨hpart', -⟩, hrest'⟩ := Partition.cons_iff.1 hrest
  have hmem : ∀ msr ∈ part, msr ∈ msrs := fun msr hmsr =>
    hperm.subset (List.mem_append_left _ hmsr)
  have hmem' : ∀ msr ∈ part', msr ∈ msrs := fun msr hmsr =>
    hperm.subset (List.mem_append_right _ (hperm'.subset (List.mem_append_left _ hmsr)))
  have htype : search.sampletype = cur.sampletype := by
    obtain ⟨a, ha, -⟩ := hpart.samprate
    obtain ⟨b, hb, -⟩ := hpart'.samprate
    rw [← hpart.sampletype a ha, ← hpart'.sampletype b hb]
    exact hread.sampletype b (hmem' b hb) a (hmem a ha)
      (by rw [hpart.id a ha, hpart'.id b hb, hid])
  refine Partition.cons_iff.2 ⟨joinParts part part' whence, rest', ?_, ⟨?_, trivial⟩, hrest'⟩
  · calc (joinParts part part' whence ++ rest').Perm (part ++ part' ++ rest') :=
          (joinParts_perm part part' whence).append_right rest'
      _ = part ++ (part' ++ rest') := List.append_assoc _ _ _
      _ |>.Perm (part ++ rest) := hperm'.append_left part
      _ |>.Perm msrs := hperm
  · exact isSegment_mergeSpan hpart hpart' (fun msr hmsr => hread.decoded msr (hmem' msr hmsr)) hid
      htype whence

/-- The inner loop, with the other segments at hand. -/
theorem Shared.healScan {traces : List (MSTrace α)} (hread : Readable msrs)
    (h : Shared msrs (cur :: traces ++ mstg)) :
    Shared msrs ((healScan sampratetol timetol cur traces).cur ::
      (healScan sampratetol timetol cur traces).kept ++ mstg) := by
  induction traces generalizing cur timetol mstg with
  | nil => exact h
  | cons search traces ih =>
    rw [Libmseed.healScan]
    cases hstep : healStep sampratetol timetol cur search with
    | mk t merged =>
      cases merged with
      | some cur' =>
        obtain ⟨hid, whence, rfl⟩ := healStep_some hstep
        exact ih (h.merge hread hid whence)
      | none =>
        have hmove : Shared msrs (cur :: traces ++ search :: mstg) :=
          h.perm ((List.perm_middle).cons cur)
        exact (ih hmove).perm ((List.perm_middle.symm).cons _)

theorem Shared.healLoop {before after : List (MSTrace α)} (hread : Readable msrs)
    (h : Shared msrs (before ++ after)) :
    Shared msrs (healLoop sampratetol timetol before after) := by
  induction timetol, before, after using healLoop.induct sampratetol with
  | case1 timetol before =>
    rw [List.append_nil] at h
    rwa [Libmseed.healLoop]
  | case2 timetol before cur after s t ih =>
    rw [Libmseed.healLoop]
    refine ih ?_
    have hbefore : Shared msrs (cur :: before ++ after) := h.perm List.perm_middle.symm
    have hs : Shared msrs (s.cur :: s.kept ++ after) := hbefore.healScan hread
    have hswap : Shared msrs (s.cur :: after ++ s.kept) := hs.perm (List.perm_append_comm.cons _)
    have ht : Shared msrs (t.cur :: t.kept ++ s.kept) := hswap.healScan hread
    refine ht.perm ?_
    rw [List.append_assoc, List.singleton_append]
    exact List.perm_append_comm

theorem shared_mseedGroup {records : List (Record α)} (h : Readable records) :
    Shared records (mseedGroup records) := by
  have hread : Shared records (msReadtraces records) :=
    partition_msReadtraces h (fun _ _ => trivial) fun _ _ _ _ _ _ _ _ => trivial
  have hsorted : Shared records (mstGroupsort (mstGroupsort (msReadtraces records))) :=
    hread.groupsort.groupsort
  exact hsorted.healLoop h

/-- The group that is read from a file holds every record once: each segment is made of records of
its channel and holds their samples, one record after the other, from the start of the first to the
end of the last. -/
theorem mseedGroup_partition {records : List (Record α)} (h : Readable records) :
    ∃ parts : List (List (Record α)), parts.flatten.Perm records ∧
      List.Forall₂ (fun mst part => IsSegment part mst) (mseedGroup records) parts := by
  obtain ⟨parts, hperm, hsegments⟩ := shared_mseedGroup h
  exact ⟨parts, hperm, hsegments.imp fun _ _ hpart => hpart.1⟩

/-- A record at one sample per second. -/
def secondsRecord (second : ℤ) (samples : List ℤ) : Record ℤ where
  id := ⟨"XX", "STA", "", "BHZ"⟩
  starttime := second * 1000000
  leapSecond := false
  samplecnt := samples.length
  samprate := 1
  sampletype := 'i'
  datasamples := some samples

theorem msrEndtime_secondsRecord (second : ℤ) {samples : List ℤ} (h : samples ≠ []) :
    msrEndtime (secondsRecord second samples) = (second + samples.length - 1) * 1000000 := by
  have hlen := List.length_pos_iff.2 h
  have hcover : (0 : ℚ) < (secondsRecord second samples).samprate ∧
      0 < (secondsRecord second samples).samplecnt := ⟨one_pos, hlen⟩
  have hspan : truncate ((((samples.length : ℕ) - 1 : ℤ) : ℚ) / 1 * HPTMODULUS + 1 / 2) =
      (samples.length - 1) * 1000000 := by
    have hmod : (((samples.length : ℕ) - 1 : ℤ) : ℚ) / 1 * HPTMODULUS + 1 / 2 =
        (((samples.length - 1) * 1000000 : ℤ) : ℚ) + 1 / 2 := by
      norm_num [HPTMODULUS]
    rw [hmod, truncate_of_nonneg (add_nonneg (Int.cast_nonneg (by omega)) (by norm_num)),
      Int.floor_intCast_add]
    norm_num
  have hleap : ¬(secondsRecord second samples).leapSecond = true := Bool.false_ne_true
  unfold msrEndtime
  rw [if_pos hcover]
  dsimp only
  rw [if_neg hleap]
  change second * 1000000 + truncate ((((samples.length : ℕ) - 1 : ℤ) : ℚ) / 1 * HPTMODULUS +
    1 / 2) = _
  rw [hspan]
  ring

theorem decoded_secondsRecord {second : ℤ} {samples : List ℤ} (h : samples ≠ [])
    (hsecond : 0 ≤ second) : (secondsRecord second samples).Decoded where
  isSome := rfl
  length := rfl
  count_pos := List.length_pos_iff.2 h
  rate_pos := one_pos
  size_ne := show msSamplesize 'i' ≠ 0 by decide
  endtime_ne := by
    have hlen := List.length_pos_iff.2 h
    rw [msrEndtime_secondsRecord second h, HPTERROR]
    omega

/-- Two records that the file has the wrong way round. -/
theorem mseedGroup_partition_two :
    ∃ parts : List (List (Record ℤ)),
      parts.flatten.Perm [secondsRecord 2 [6], secondsRecord 0 [4, 5]] ∧
      List.Forall₂ (fun mst part => IsSegment part mst)
        (mseedGroup [secondsRecord 2 [6], secondsRecord 0 [4, 5]]) parts := by
  refine mseedGroup_partition ⟨?_, ?_⟩
  · simp only [List.forall_mem_cons]
    exact ⟨decoded_secondsRecord (by decide) (by decide),
      decoded_secondsRecord (by decide) (by decide), fun _ h => absurd h List.not_mem_nil⟩
  · simp [secondsRecord]

end Group

end Libmseed

end PQL
