import PQL.Sort.FieldCompare

/-!
# The trace comparator

`listSort` compares two traces by a criterion of a sort type.  It orders the traces that carry the
header by the field of the criterion exactly when each two of them can be told apart by it
(`listSort_orders_iff`).
-/

namespace PQL

/-! ## The comparator -/

structure CritDef where
  num : ℕ
  dir : Bool
deriving DecidableEq, Repr

structure SortSettings where
  selected : SortType
  user : SortType → List CritDef
  instOrder : Option (CString → Option ℤ)

inductive SortMode where
  | SORTDIRECT
  | SORTUSER
deriving DecidableEq, Repr

structure SortParams where
  type : SortMode
  sortCrit : ℕ

/-- The table of the option `-i`. -/
def SortSettings.lookup (settings : SortSettings) : CString → Option ℤ :=
  settings.instOrder.getD fun _ => none

def SortSettings.table (settings : SortSettings) (sort : SortType) : SortTable :=
  sortTable settings.instOrder sort

/-- The sort type, the criterion and the direction. -/
def chosen (settings : SortSettings) (sortParams : SortParams) : Option (SortType × CritDef) :=
  match sortParams.type with
  | .SORTUSER =>
    (settings.user settings.selected)[sortParams.sortCrit]?.map fun critDef =>
      (settings.selected, critDef)
  | .SORTDIRECT =>
    (settings.user .PQLSORT)[sortParams.sortCrit]?.map fun critDef =>
      (.PQLSORT, { critDef with dir := true })

/-- `listSort`; traces without the header of the sort type come first. -/
def listSort (settings : SortSettings) (sortParams : SortParams) (trc₁ trc₂ : SortTrace) :
    Option ℤ :=
  (chosen settings sortParams).bind fun (sort, critDef) =>
    (settings.table sort).items[critDef.num]?.bind fun crit =>
      match (settings.table sort).view trc₁, (settings.table sort).view trc₂ with
      | none, _ => some (-1)
      | some _, none => some 1
      | some x, some y => crit.field.compare settings.lookup critDef.dir x y

/-! ## The order of the traces -/

/-- A criterion in use: one of the user's choices, with the entry of the tables that it names. -/
structure Criterion (settings : SortSettings) (sortParams : SortParams) where
  sort : SortType
  critDef : CritDef
  chosen_eq : chosen settings sortParams = some (sort, critDef)
  item : CritItem (settings.table sort).β
  item_eq : (settings.table sort).items[critDef.num]? = some item

namespace Criterion

variable {settings : SortSettings} {sortParams : SortParams} (crit : Criterion settings sortParams)

/-- What the criterion is applied to. -/
def view (trc : SortTrace) : Option (settings.table crit.sort).β :=
  (settings.table crit.sort).view trc

/-- The value of the field; there is none without the header. -/
def key (trc : SortTrace) : List ℚ := (crit.view trc).elim [] (crit.item.field.key settings.lookup)

/-- The field of `a` precedes that of `b` in the direction of the criterion. -/
def Precedes (a b : SortTrace) : Prop := precedes crit.critDef.dir (crit.key a) (crit.key b)

/-- The criterion can tell the fields of two traces apart. -/
def Distinguishes (a b : SortTrace) : Prop :=
  ∀ x ∈ crit.view a, ∀ y ∈ crit.view b, crit.item.field.Distinguishes settings.lookup x y

/-- The comparator has the sign of the keys. -/
def Agrees (a b : SortTrace) : Prop :=
  Agree crit.critDef.dir (listSort settings sortParams a b) (crit.key a) (crit.key b)

theorem orders_precedes_iff (S : Set SortTrace) :
    Orders (listSort settings sortParams) crit.Precedes S ↔
      ∀ a ∈ S, ∀ b ∈ S, crit.Agrees a b := by
  have hdir : ∀ dir, Orders (listSort settings sortParams)
      (fun a b => precedes dir (crit.key a) (crit.key b)) S ↔ ∀ a ∈ S, ∀ b ∈ S,
        Agree dir (listSort settings sortParams a b) (crit.key a) (crit.key b) := by
    intro dir
    cases dir with
    | true => exact orders_iff (listSort settings sortParams) crit.key S
    | false => exact orders_reverse_iff (listSort settings sortParams) crit.key S
  exact hdir crit.critDef.dir

theorem listSort_eq {a b : SortTrace} {x y : (settings.table crit.sort).β}
    (hx : crit.view a = some x) (hy : crit.view b = some y) :
    listSort settings sortParams a b =
      crit.item.field.compare settings.lookup crit.critDef.dir x y := by
  have hx' : (settings.table crit.sort).view a = some x := hx
  have hy' : (settings.table crit.sort).view b = some y := hy
  rw [listSort, crit.chosen_eq]
  simp only [Option.bind_some, crit.item_eq, hx', hy']

theorem agrees_iff {a b : SortTrace} {x y : (settings.table crit.sort).β}
    (hx : crit.view a = some x) (hy : crit.view b = some y) :
    crit.Agrees a b ↔ crit.item.field.ComparesRightly settings.lookup crit.critDef.dir x y := by
  unfold Agrees key
  rw [crit.listSort_eq hx hy, hx, hy]
  exact Iff.rfl

end Criterion

variable {settings : SortSettings} {sortParams : SortParams}

/-- The comparator orders the traces that carry the header exactly when the criterion can tell each
two of them apart. -/
theorem listSort_orders_iff (crit : Criterion settings sortParams) (S : Set SortTrace)
    (hS : ∀ trc ∈ S, (crit.view trc).isSome) :
    Orders (listSort settings sortParams) crit.Precedes S ↔
      ∀ a ∈ S, ∀ b ∈ S, crit.Distinguishes a b := by
  rw [crit.orders_precedes_iff]
  constructor
  · intro h a ha b hb x hx y hy
    apply FieldAt.distinguishes_of_comparesRightly
    · exact (crit.agrees_iff hx hx).1 (h a ha a ha)
    · exact (crit.agrees_iff hy hy).1 (h b hb b hb)
    · exact (crit.agrees_iff hx hy).1 (h a ha b hb)
    · exact (crit.agrees_iff hy hx).1 (h b hb a ha)
  · intro h a ha b hb
    obtain ⟨x, hx⟩ := Option.isSome_iff_exists.1 (hS a ha)
    obtain ⟨y, hy⟩ := Option.isSome_iff_exists.1 (hS b hb)
    have hdistinguishes := h a ha b hb x hx y hy
    exact (crit.agrees_iff hx hy).2 (FieldAt.comparesRightly_of_distinguishes hdistinguishes)

/-! ### Start times -/

def sampleTrace (epochs : ℚ) : SortTrace where
  original := 0
  longFN := ⟨[], List.not_mem_nil⟩
  shortFN := ⟨[], List.not_mem_nil⟩
  network := ⟨[], List.not_mem_nil⟩
  station := ⟨[], List.not_mem_nil⟩
  location := ⟨[], List.not_mem_nil⟩
  channel := ⟨[], List.not_mem_nil⟩
  sensorID := ⟨[], List.not_mem_nil⟩
  epochs := epochs
  file := .other 3

/-- The user sorts by the absolute start time. -/
def sampleSettings (dir : Bool) : SortSettings where
  selected := .PQLSORT
  user _ := [⟨8, dir⟩]
  instOrder := none

def sampleCriterion (dir : Bool) : Criterion (sampleSettings dir) ⟨.SORTUSER, 0⟩ where
  sort := .PQLSORT
  critDef := ⟨8, dir⟩
  chosen_eq := rfl
  item := ⟨"Absolute Start Time", .double SortTrace.epochs⟩
  item_eq := rfl

/-- Start times some seconds apart, latest first. -/
theorem listSort_orders_wholeSeconds :
    Orders (listSort (sampleSettings false) ⟨.SORTUSER, 0⟩) (sampleCriterion false).Precedes
      (sampleTrace '' {t | t ∈ [0, 3, 60]}) := by
  have hapart : ∀ s ∈ [0, 3, 60], ∀ t ∈ [0, 3, 60],
      s = t ∨ 1 ≤ |roundTo 53 (s - t)| ∧ |roundTo 53 (s - t)| < 2 ^ 31 := by decide +kernel
  apply (listSort_orders_iff (sampleCriterion false) _ fun trc _ => rfl).2
  rintro _ ⟨s, hs, rfl⟩ _ ⟨t, ht, rfl⟩ x hx y hy
  obtain rfl : sampleTrace s = x := Option.some.inj hx
  obtain rfl : sampleTrace t = y := Option.some.inj hy
  exact hapart s hs t ht

/-- Start times 0, 0.6 and 1.2: neighbours count as equal, but not the first and the last. -/
theorem listSort_not_transitive :
    ¬ Orders (listSort (sampleSettings true) ⟨.SORTUSER, 0⟩) (sampleCriterion true).Precedes
      (sampleTrace '' {t | t ∈ [0, 3 / 5, 6 / 5]}) := by
  intro h
  have hback : listSort (sampleSettings true) ⟨.SORTUSER, 0⟩ (sampleTrace (6 / 5))
    (sampleTrace (3 / 5)) = some 0 := by decide +kernel
  have hback' : listSort (sampleSettings true) ⟨.SORTUSER, 0⟩ (sampleTrace (3 / 5))
    (sampleTrace 0) = some 0 := by decide +kernel
  have hskip : listSort (sampleSettings true) ⟨.SORTUSER, 0⟩ (sampleTrace (6 / 5))
    (sampleTrace 0) = some 1 := by decide +kernel
  have hmem : ∀ t ∈ [0, 3 / 5, 6 / 5], sampleTrace t ∈ sampleTrace '' {t | t ∈ [0, 3 / 5, 6 / 5]} :=
    fun _ ht => Set.mem_image_of_mem sampleTrace ht
  obtain ⟨r, hr, hle⟩ := h.trans _ (hmem (6 / 5) (by simp)) _ (hmem (3 / 5) (by simp)) _
    (hmem 0 (by simp)) ⟨0, hback, le_rfl⟩ ⟨0, hback', le_rfl⟩
  rw [hskip, Option.mem_some_iff] at hr
  omega

end PQL
