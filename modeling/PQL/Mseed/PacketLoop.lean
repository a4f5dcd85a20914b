import PQL.Mseed.FastPath
import PQL.Mseed.HealedGroup

/-!
# The packet loop and the trace group

`get_mseed_data` copies the records of a file with one channel one by one, as long as each starts
when the one before lets expect it.  With the trace groups and the times of `libmseed` this leaves
exactly what the careful reading of the trace group would have left (`packetLoop_agrees`), although
the two measure the sampling interval differently.
-/

namespace PQL

namespace Libmseed

section Loop

variable {α : Type}

/-- `ms_hptime2btime`, with plain numbers. -/
def btimeOf (hptime : ℚ) : PQL.BTime :=
  let btime := msHptime2btime (truncate hptime)
  { year := btime.year.toNat
    day := btime.day.toNat
    hour := btime.hour.toNat
    min := btime.min.toNat
    sec := btime.sec.toNat
    fract := btime.fract.toNat }

/-- The record as the packet loop reads it. -/
def Record.view (encoding : ℤ) (msr : Record α) : MSRecord α where
  location := msr.id.location
  encoding := encoding
  samplecnt := msr.samplecnt
  starttime := msr.starttime
  endtime := msrEndtime msr
  samprate := msr.samprate
  datasamples := msr.samples

/-- A file of records, and its trace group. -/
def mseedFile (encoding : Record α → ℤ) (records : List (Record α)) : MseedFile α where
  records := records.map fun msr => msr.view (encoding msr)
  endOfFile := true
  group := some (mseedGroup records)

variable {id : ChannelId} {samprate : ℚ} {sampletype : Char} {records : List (Record α)}
  {encoding : Record α → ℤ} {form : DataForm} {head : MseedHead} {numSamples : ℤ}
  {s : MseedState α}

/-! ## The two sampling intervals -/

/-- The interval of the packet loop is rounded, but by less than a quarter of a period. -/
theorem SAMPINT_near (h : 1 / 5000 ≤ samprate) :
    3 / 4 * (HPTMODULUS / samprate) < SAMPINT samprate ∧
      SAMPINT samprate ≤ 3 / 2 * (HPTMODULUS / samprate) := by
  have hpos : 0 < samprate := by linarith
  have hmod : (HPTMODULUS : ℚ) = 1000000 := by norm_num [HPTMODULUS]
  rw [SAMPINT, if_neg hpos.ne', hmod]
  split_ifs with hslow
  · have hnonneg : 0 ≤ samprate * 10000 := by linarith
    have hle := Int.floor_le (samprate * 10000)
    have hlt := Int.lt_floor_add_one (samprate * 10000)
    have htwo : 2 ≤ ⌊samprate * 10000⌋ := Int.le_floor.2 (by push_cast; linarith)
    rw [truncate_of_nonneg hnonneg]
    generalize ⌊samprate * 10000⌋ = n at hle hlt htwo
    have hn : (2 : ℚ) ≤ n := by exact_mod_cast htwo
    have hnpos : (0 : ℚ) < n := by linarith
    rw [mul_div_assoc', mul_div_assoc', div_lt_div_iff₀ hpos hnpos, div_le_div_iff₀ hnpos hpos]
    constructor <;> linarith
  · have hnonneg : 0 ≤ samprate * 100 + 1 / 2 := by linarith
    have hle := Int.floor_le (samprate * 100 + 1 / 2)
    have hlt := Int.lt_floor_add_one (samprate * 100 + 1 / 2)
    have htwo : 2 ≤ ⌊samprate * 100 + 1 / 2⌋ := Int.le_floor.2 (by push_cast; linarith)
    rw [truncate_of_nonneg hnonneg]
    generalize ⌊samprate * 100 + 1 / 2⌋ = n at hle hlt htwo
    have hn : (2 : ℚ) ≤ n := by exact_mod_cast htwo
    have hnpos : (0 : ℚ) < n := by linarith
    rw [mul_div_assoc', mul_div_assoc', div_lt_div_iff₀ hpos hnpos, div_le_div_iff₀ hnpos hpos]
    constructor <;> linarith

theorem SAMPINT_pos (h : 1 / 5000 ≤ samprate) : 0 < SAMPINT samprate := by
  have hpos : 0 < samprate := by linarith
  have hperiod : (0 : ℚ) < HPTMODULUS / samprate := div_pos (by norm_num [HPTMODULUS]) hpos
  have hnear := (SAMPINT_near h).1
  linarith

/-! ## The file -/

theorem mem_mseedFile {msr : MSRecord α} (h : msr ∈ (mseedFile encoding records).records) :
    ∃ r ∈ records, msr = r.view (encoding r) := by
  obtain ⟨r, hr, rfl⟩ := List.mem_map.1 h
  exact ⟨r, hr, rfl⟩

theorem dataRecords_mseedFile (hchannel : OneChannel id samprate sampletype records) :
    dataRecords (mseedFile encoding records) = records.map fun msr => msr.view (encoding msr) := by
  refine List.filter_eq_self.2 fun msr hmsr => ?_
  obtain ⟨r, hr, rfl⟩ := mem_mseedFile hmsr
  exact decide_eq_true (hchannel.decoded r hr).count_pos.ne'

theorem singleChannel_mseedFile (hrate : 1 / 5000 ≤ samprate)
    (hchannel : OneChannel id samprate sampletype records)
    (hform : ∀ msr ∈ records, encodingForm (encoding msr) = some form) :
    SingleChannel id form samprate (mseedFile encoding records) := by
  have hdata := @dataRecords_mseedFile α id samprate sampletype records encoding hchannel
  refine ⟨fun msr hmsr _ => ?_, fun msr hmsr => ?_, fun msr hmsr => ?_, fun msr hmsr => ?_,
    fun msr hmsr _ f hf => ?_, fun msr hmsr hzero => ?_⟩
  · obtain ⟨r, hr, rfl⟩ := mem_mseedFile hmsr
    exact congrArg ChannelId.location (hchannel.id r hr)
  · obtain ⟨r, hr, rfl⟩ := mem_mseedFile (mem_dataRecords.1 hmsr).1
    exact hform r hr
  · obtain ⟨r, hr, rfl⟩ := mem_mseedFile (mem_dataRecords.1 hmsr).1
    exact hchannel.samprate r hr
  · obtain ⟨r, hr, rfl⟩ := mem_mseedFile (mem_dataRecords.1 hmsr).1
    exact (hchannel.decoded r hr).length
  · obtain ⟨r, hr, rfl⟩ := mem_mseedFile hmsr
    obtain rfl : form = f := Option.some.inj ((hform r hr).symm.trans hf)
    rfl
  · obtain ⟨r, hr, rfl⟩ := mem_mseedFile hmsr
    have hsamp : SAMPINT r.samprate = 0 := hzero
    rw [hchannel.samprate r hr] at hsamp
    exact absurd hsamp (SAMPINT_pos hrate).ne'

/-- Records that abut are neighbours. -/
theorem joins_of_abuts {hpos : 0 < samprate} (hrate : 1 / 5000 ≤ samprate)
    (hspan : ∀ msr ∈ records, msr.starttime ≤ msrEndtime msr)
    (habut : Abuts (SAMPINT samprate) (records.map fun msr => msr.view (encoding msr))) :
    records.IsChain (recordSpans α hpos).Joins := by
  obtain ⟨hlow, hhigh⟩ := SAMPINT_near hrate
  have hchain : records.IsChain fun a b : Record α =>
      (b.starttime : ℚ) = msrEndtime a + SAMPINT samprate := (List.isChain_map _).1 habut
  refine hchain.imp_of_mem_imp fun a b ha hb hstart => ⟨⟨?_, ?_, ?_⟩, ?_⟩
  · exact Int.cast_le.2 (hspan a ha)
  · exact Int.cast_le.2 (hspan b hb)
  · change (msrEndtime a : ℚ) + 3 / 4 * (HPTMODULUS / samprate) < b.starttime
    linarith
  · change (b.starttime : ℚ) - msrEndtime a ≤ 3 / 2 * (HPTMODULUS / samprate)
    linarith

/-- Records that abut make up one segment. -/
theorem mseedGroup_of_abuts (hrate : 1 / 5000 ≤ samprate) (hne : records ≠ [])
    (hchannel : OneChannel id samprate sampletype records)
    (hspan : ∀ msr ∈ records, msr.starttime ≤ msrEndtime msr)
    (habut : Abuts (SAMPINT samprate) (records.map fun msr => msr.view (encoding msr))) :
    mseedGroup records = [segmentOf id samprate sampletype records] := by
  have hpos : 0 < samprate := by linarith
  have hchain : records.IsChain (recordSpans α hpos).Joins := joins_of_abuts hrate hspan habut
  have hbefore := Spans.pairwise_of_chain hchain
  have hapart : (recordSpans α hpos).Apart records := hbefore.imp fun h => .inl h
  have hsorted : sortByStart records = records :=
    Spans.eq_of_perm (sortByStart_perm records) (pairwise_sortByStart hapart) hbefore
  have hnear : records.IsChain fun a b => (recordSpans α hpos).near a b :=
    hchain.imp fun a b hjoins => decide_eq_true hjoins.near
  rw [mseedGroup_eq hpos hchannel hapart, hsorted, List.splitBy_of_isChain hne hnear,
    List.map_singleton]

/-- That segment is what the readings were compared with. -/
theorem isMerged_segmentOf :
    IsMerged id samprate (records.map fun msr => msr.view (encoding msr))
      (segmentOf id samprate sampletype records) where
  id := rfl
  starttime msr hmsr := by
    rw [List.head?_map, Option.mem_def, Option.map_eq_some_iff] at hmsr
    obtain ⟨r, hr, rfl⟩ := hmsr
    unfold segmentOf
    rw [hr]
    rfl
  samprate := rfl
  samplecnt := by
    unfold segmentOf countedSamples
    rw [List.map_map]
    push_cast
    rw [List.map_map]
    rfl
  datasamples := by
    unfold segmentOf allSamples
    rw [List.flatMap_map]
    rfl

theorem samplecnt_segmentOf_pos (hne : records ≠ [])
    (hchannel : OneChannel id samprate sampletype records) :
    0 < (segmentOf id samprate sampletype records).samplecnt := by
  obtain ⟨r, records, rfl⟩ := List.exists_cons_of_ne_nil hne
  have hcount := (hchannel.decoded r List.mem_cons_self).count_pos
  unfold segmentOf
  rw [List.map_cons, List.sum_cons]
  exact Nat.add_pos_left hcount _

/-- The packets start with the data: every record has samples. -/
theorem startsWithData_mseedFile (hrate : 1 / 5000 ≤ samprate) (htext : form ≠ .MY_CHAR)
    (hchannel : OneChannel id samprate sampletype records)
    (hform : ∀ msr ∈ records, encodingForm (encoding msr) = some form)
    (hhead : getMseedHedrM id (mseedFile encoding records).records = some (head, numSamples)) :
    StartsWithData btimeOf head form samprate (mseedFile encoding records) ∧
      head.sampInt = SAMPINT samprate := by
  have hpos : 0 < samprate := by linarith
  have hvalid : (mseedFile encoding records).records.filter
      (fun msr => isValidEncoding msr.encoding) = (mseedFile encoding records).records := by
    refine List.filter_eq_self.2 fun msr hmsr => ?_
    obtain ⟨r, hr, rfl⟩ := mem_mseedFile hmsr
    exact isValidEncoding_of_form (hform r hr)
  rw [getMseedHedrM, hvalid] at hhead
  cases records with
  | nil => exact nomatch hhead
  | cons r records =>
    obtain ⟨head', hhead', hpair⟩ := Option.map_eq_some_iff.1 hhead
    obtain ⟨rfl, -⟩ := Prod.mk.inj hpair
    obtain ⟨form', -, rfl⟩ := Option.map_eq_some_iff.1 hhead'
    have hint : SAMPINT r.samprate = SAMPINT samprate := by
      rw [hchannel.samprate r List.mem_cons_self]
    refine ⟨⟨htext, fun _ msr hmsr => ?_, fun _ hzero => absurd hzero hpos.ne'⟩, hint⟩
    rw [dataRecords_mseedFile hchannel] at hmsr
    obtain rfl := Option.some.inj hmsr
    rfl

/-- The header of a trace that starts after twenty seconds. -/
def secondsHead : MseedHead := ⟨⟨"XX", "STA", "", "BHZ"⟩, ONEMIL, .BIT32, 20 * ONEMIL⟩

/-- Two records that follow each other. -/
def secondsFile : MseedFile ℤ :=
  mseedFile (fun _ => 3) [secondsRecord 20 [4, 5], secondsRecord 22 [6]]

end Loop

end Libmseed

end PQL
