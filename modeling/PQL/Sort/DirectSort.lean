import PQL.Display.Groups
import PQL.Lib.StableSort
import PQL.Sort.ListSort

/-!
# Direct sorts

Gathering sorts traces by their start time and by their instrument.  `listSort` takes such a direct
criterion for a position in the list of the user's choices, so the traces are sorted by the native
criterion exactly if the user has chosen that criterion at that position (`sortList_native_iff`).
-/

namespace PQL

/-- The criteria of direct sorts; their numbers are positions in the table of native criteria. -/
inductive DirectCriterion where
  | SORTSTARTTIME
  | SORTINSTID
deriving DecidableEq, Repr

def DirectCriterion.crit : DirectCriterion → ℕ
  | SORTSTARTTIME => 8
  | SORTINSTID => 7

section Native

variable (settings : SortSettings) (trc : ℕ → SortTrace)

/-- `sortList`: traces are known by their address, and `current` is their `position.current`. -/
def sortList (sortCrit : DirectCriterion) (startRec : ℤ) (current : ℕ → ℤ) (list : List ℕ) :
    Option (List ℕ × (ℕ → ℤ)) :=
  (gSlistSortWithData (fun a b => listSort settings ⟨.SORTDIRECT, sortCrit.crit⟩ (trc a) (trc b))
    list).map fun list => (list, Display.renumber current list startRec)

/-- The comparison by an entry of the native table, ascending. -/
def nativeCompare (num : ℕ) (trc₁ trc₂ : SortTrace) : Option ℤ :=
  (criteria settings.instOrder)[num]?.bind fun crit =>
    crit.field.compare settings.lookup true trc₁ trc₂

/-- The list is sorted by the native criterion, whatever the user has chosen. -/
def SortsNatively (sortCrit : DirectCriterion) : Prop :=
  ∀ (trc : ℕ → SortTrace) (startRec : ℤ) (current : ℕ → ℤ) (list : List ℕ),
    sortList settings trc sortCrit startRec current list =
      (gSlistSortWithData (fun a b => nativeCompare settings sortCrit.crit (trc a) (trc b))
        list).map fun list => (list, Display.renumber current list startRec)

end Native

variable {settings : SortSettings}

theorem listSort_direct {sortCrit : ℕ} {critDef : CritDef}
    (h : (settings.user .PQLSORT)[sortCrit]? = some critDef) (trc₁ trc₂ : SortTrace) :
    listSort settings ⟨.SORTDIRECT, sortCrit⟩ trc₁ trc₂ =
      nativeCompare settings critDef.num trc₁ trc₂ := by
  unfold listSort chosen
  simp only [h, Option.map_some, Option.bind_some]
  rfl

theorem listSort_direct_none {sortCrit : ℕ}
    (h : (settings.user .PQLSORT)[sortCrit]? = none) (trc₁ trc₂ : SortTrace) :
    listSort settings ⟨.SORTDIRECT, sortCrit⟩ trc₁ trc₂ = none := by
  unfold listSort chosen
  simp only [h, Option.map_none, Option.bind_none]

/-! ## Traces that differ in one field -/

def letter (b : Byte) (h : 0#8 ≠ b) : CString := ⟨[b], by simpa using h⟩

/-- A trace that comes behind `sampleTrace 0` by the criterion only. -/
def behindTrace : ℕ → SortTrace
  | 0 => { sampleTrace 0 with original := 10 }
  | 1 => { sampleTrace 0 with longFN := letter 98 (by decide) }
  | 2 => { sampleTrace 0 with shortFN := letter 98 (by decide) }
  | 3 => { sampleTrace 0 with network := letter 98 (by decide) }
  | 4 => { sampleTrace 0 with station := letter 98 (by decide) }
  | 5 => { sampleTrace 0 with location := letter 98 (by decide) }
  | 6 => { sampleTrace 0 with channel := letter 98 (by decide) }
  | 7 => { sampleTrace 0 with sensorID := letter 98 (by decide) }
  | 8 => sampleTrace 10
  | _ => { sampleTrace 0 with file := .other 13 }

/-- Comparing a trace with itself has a value, and does not put it behind. -/
theorem nativeCompare_self (settings : SortSettings) {num : ℕ} (hnum : num < 10) (trc : SortTrace) :
    ∃ r ∈ nativeCompare settings num trc trc, r ≤ 0 := by
  have hitem : ∀ crit : CritItem SortTrace, (criteria settings.instOrder)[num]? = some crit →
      crit.field.Distinguishes settings.lookup trc trc →
      ∃ r ∈ nativeCompare settings num trc trc, r ≤ 0 := by
    intro crit hcrit hdistinguishes
    have hzero := (agree_self_iff true _ _).1
      (FieldAt.comparesRightly_of_distinguishes hdistinguishes)
    exact ⟨0, by rw [nativeCompare, hcrit]; exact hzero, le_rfl⟩
  have hint : ∀ n : SortTrace → ℤ, (MYINT n).Distinguishes settings.lookup trc trc := fun n => by
    refine ⟨?_, Iff.rfl, Iff.rfl⟩
    rw [sub_self, abs_zero]
    norm_num
  by_cases hsensor : num = 7
  · subst hsensor
    cases hinst : settings.instOrder with
    | none =>
      have hcrit : (criteria settings.instOrder)[7]? =
          some ⟨"Sensor ID", .string SortTrace.sensorID⟩ := by rw [hinst]; rfl
      exact hitem _ hcrit trivial
    | some table =>
      have hcrit : (criteria settings.instOrder)[7]? =
          some ⟨"Sensor ID", .instSort SortTrace.sensorID⟩ := by rw [hinst]; rfl
      rw [nativeCompare, hcrit]
      cases hentry : settings.lookup trc.sensorID with
      | none => exact ⟨-1, by simp [FieldAt.compare, hentry], by norm_num⟩
      | some i =>
        refine ⟨0, ?_, le_rfl⟩
        simp only [Option.bind_some, FieldAt.compare, hentry, compareInts, sub_self]
        rfl
  · interval_cases num
    · exact hitem _ rfl (hint _)
    · exact hitem _ rfl trivial
    · exact hitem _ rfl trivial
    · exact hitem _ rfl trivial
    · exact hitem _ rfl trivial
    · exact hitem _ rfl trivial
    · exact hitem _ rfl trivial
    · exact absurd rfl hsensor
    · exact hitem _ rfl (Or.inl rfl)
    · exact hitem _ rfl (hint _)

/-- By another criterion the two traces are as one. -/
theorem nativeCompare_same (settings : SortSettings) {num field : ℕ} (hnum : num < 10)
    (hfield : field < 10) (hne : num ≠ field) :
    (nativeCompare settings num (behindTrace field) (sampleTrace 0) =
      nativeCompare settings num (sampleTrace 0) (sampleTrace 0)) ∧
    nativeCompare settings num (sampleTrace 0) (behindTrace field) =
      nativeCompare settings num (sampleTrace 0) (sampleTrace 0) := by
  unfold nativeCompare
  cases settings.instOrder with
  | none =>
    interval_cases num <;> interval_cases field <;>
      first | exact absurd rfl hne | exact ⟨rfl, rfl⟩
  | some table =>
    interval_cases num <;> interval_cases field <;>
      first | exact absurd rfl hne | exact ⟨rfl, rfl⟩

/-- By the criterion in which they differ the first one comes behind. -/
theorem nativeCompare_differ (settings : SortSettings) {num : ℕ} (hnum : num < 10) (hne : num ≠ 7) :
    (∃ r ∈ nativeCompare settings num (behindTrace num) (sampleTrace 0), 0 < r) ∧
      ∃ r, nativeCompare settings num (sampleTrace 0) (behindTrace num) = some r := by
  have hstart : nativeCompare settings 8 (sampleTrace 10) (sampleTrace 0) = some 10 := by
    change compareReals 53 true (sampleTrace 10).epochs (sampleTrace 0).epochs = some 10
    decide +kernel
  have hstart' : nativeCompare settings 8 (sampleTrace 0) (sampleTrace 10) = some (-10) := by
    change compareReals 53 true (sampleTrace 0).epochs (sampleTrace 10).epochs = some (-10)
    decide +kernel
  interval_cases num
  · exact ⟨⟨10, rfl, by norm_num⟩, _, rfl⟩
  · exact ⟨⟨98, rfl, by norm_num⟩, _, rfl⟩
  · exact ⟨⟨98, rfl, by norm_num⟩, _, rfl⟩
  · exact ⟨⟨98, rfl, by norm_num⟩, _, rfl⟩
  · exact ⟨⟨98, rfl, by norm_num⟩, _, rfl⟩
  · exact ⟨⟨98, rfl, by norm_num⟩, _, rfl⟩
  · exact ⟨⟨98, rfl, by norm_num⟩, _, rfl⟩
  · exact absurd rfl hne
  · exact ⟨⟨10, hstart, by norm_num⟩, _, hstart'⟩
  · exact ⟨⟨10, rfl, by norm_num⟩, _, rfl⟩

/-! ## The criterion of a direct sort -/

/-- One criterion puts the first trace behind the second one, and another one leaves it in front. -/
structure Exchanges (settings : SortSettings) (num num' : ℕ) (a b : SortTrace) : Prop where
  behind : ∃ r ∈ nativeCompare settings num a b, 0 < r
  behind_swap : ∃ r, nativeCompare settings num b a = some r
  front : ∃ r ∈ nativeCompare settings num' a b, r ≤ 0
  front_swap : ∃ r, nativeCompare settings num' b a = some r

theorem exchanges_behindTrace (settings : SortSettings) {num num' : ℕ} (hnum : num < 10)
    (hsensor : num ≠ 7) (hnum' : num' < 10) (hne : num' ≠ num) :
    Exchanges settings num num' (behindTrace num) (sampleTrace 0) := by
  obtain ⟨hbehind, hswap⟩ := nativeCompare_differ settings hnum hsensor
  obtain ⟨hsame, hsame'⟩ := nativeCompare_same settings hnum' hnum hne
  obtain ⟨r, hr, hle⟩ := nativeCompare_self settings hnum' (sampleTrace 0)
  exact ⟨hbehind, hswap, ⟨r, by rw [hsame]; exact hr, hle⟩, r, by rw [hsame']; exact hr⟩

section Pair

variable {cmp : SortTrace → SortTrace → Option ℤ} (trc : ℕ → SortTrace)

theorem sortPair_some {r s : ℤ} (h : cmp (trc 0) (trc 1) = some r)
    (hswap : cmp (trc 1) (trc 0) = some s) :
    gSlistSortWithData (fun i j => cmp (trc i) (trc j)) [0, 1] =
      some (if r ≤ 0 then [0, 1] else [1, 0]) :=
  gSlistSortWithData_pair (fun i j => cmp (trc i) (trc j)) h hswap

theorem sortPair_none (h : cmp (trc 0) (trc 1) = none) :
    gSlistSortWithData (fun i j => cmp (trc i) (trc j)) [0, 1] = none :=
  gSlistSortWithData_pair_of_none (fun i j => cmp (trc i) (trc j)) h

/-- The two criteria sort the pair differently. -/
theorem Exchanges.sorts_ne {num num' : ℕ} (h : Exchanges settings num num' (trc 0) (trc 1)) :
    gSlistSortWithData (fun i j => nativeCompare settings num (trc i) (trc j)) [0, 1] ≠
      gSlistSortWithData (fun i j => nativeCompare settings num' (trc i) (trc j)) [0, 1] := by
  obtain ⟨⟨r, hr, hpos⟩, ⟨r', hr'⟩, ⟨s, hs, hle⟩, ⟨s', hs'⟩⟩ := h
  rw [sortPair_some trc hr hr', sortPair_some trc hs hs', if_neg (not_le.2 hpos), if_pos hle]
  decide

theorem SortsNatively.list {sortCrit : DirectCriterion} (h : SortsNatively settings sortCrit)
    (trc : ℕ → SortTrace) (list : List ℕ) :
    gSlistSortWithData (fun a b => listSort settings ⟨.SORTDIRECT, sortCrit.crit⟩ (trc a) (trc b))
        list =
      gSlistSortWithData (fun a b => nativeCompare settings sortCrit.crit (trc a) (trc b))
        list := by
  have heq := congrArg (Option.map Prod.fst) (h trc 0 0 list)
  rw [sortList, Option.map_map, Option.map_map] at heq
  have hfst :
      (Prod.fst ∘ fun list : List ℕ => (list, Display.renumber (0 : ℕ → ℤ) list 0)) = id := rfl
  rw [hfst, Option.map_id] at heq
  exact heq

/-- A native sort compares each two traces. -/
theorem SortsNatively.isSome {sortCrit : DirectCriterion} (h : SortsNatively settings sortCrit)
    (trc : SortTrace) :
    (listSort settings ⟨.SORTDIRECT, sortCrit.crit⟩ trc trc).isSome := by
  have hcrit : sortCrit.crit < 10 := by cases sortCrit <;> decide
  obtain ⟨r, hr, -⟩ := nativeCompare_self settings hcrit trc
  have hlist := h.list (fun _ => trc) [0, 1]
  rw [sortPair_some (fun _ => trc) hr hr] at hlist
  rw [Option.isSome_iff_ne_none]
  intro hnone
  rw [sortPair_none (fun _ => trc) hnone] at hlist
  exact nomatch hlist

end Pair

/-- The list is sorted by the native criterion if and only if the user has chosen that criterion at
that position. -/
theorem sortList_native_iff (settings : SortSettings) (sortCrit : DirectCriterion) :
    SortsNatively settings sortCrit ↔
      ∃ critDef, (settings.user .PQLSORT)[sortCrit.crit]? = some critDef ∧
        critDef.num = sortCrit.crit := by
  constructor
  · intro h
    have hsome := h.isSome (sampleTrace 0)
    cases hchosen : (settings.user .PQLSORT)[sortCrit.crit]? with
    | none =>
      -- the position is behind the user's choices
      rw [listSort_direct_none hchosen] at hsome
      exact nomatch hsome
    | some critDef =>
      refine ⟨critDef, rfl, ?_⟩
      rw [listSort_direct hchosen] at hsome
      by_contra hne
      have hlt : critDef.num < 10 := by
        by_contra hge
        rw [nativeCompare, List.getElem?_eq_none (not_lt.1 hge)] at hsome
        exact nomatch hsome
      have hlist := h.list
      simp only [listSort_direct hchosen] at hlist
      cases sortCrit with
      | SORTSTARTTIME =>
        have hpair : Exchanges settings 8 critDef.num (behindTrace 8) (sampleTrace 0) :=
          exchanges_behindTrace settings (by norm_num) (by norm_num) hlt hne
        exact hpair.sorts_ne (fun i => if i = 0 then behindTrace 8 else sampleTrace 0)
          (hlist _ _).symm
      | SORTINSTID =>
        have hpair : Exchanges settings critDef.num 7 (behindTrace critDef.num) (sampleTrace 0) :=
          exchanges_behindTrace settings hlt hne (by norm_num) (Ne.symm hne)
        exact hpair.sorts_ne
          (fun i => if i = 0 then behindTrace critDef.num else sampleTrace 0) (hlist _ _)
  · rintro ⟨critDef, hchosen, hnum⟩ trc startRec current list
    simp only [sortList, listSort_direct hchosen, hnum]

/-- Without choices the sort by start time reads an entry that is not there. -/
theorem sortList_without_choices :
    sortList ⟨.PQLSORT, fun _ => [], none⟩ (fun i => sampleTrace (10 * i)) .SORTSTARTTIME 0 0
        [0, 1] = none ∧
      ¬ SortsNatively ⟨.PQLSORT, fun _ => [], none⟩ .SORTSTARTTIME := by
  constructor
  · unfold sortList
    rw [sortPair_none (fun i => sampleTrace (10 * i)) (listSort_direct_none rfl _ _)]
    rfl
  · intro h
    have hsome := h.isSome (sampleTrace 0)
    rw [listSort_direct_none rfl] at hsome
    exact nomatch hsome

end PQL
