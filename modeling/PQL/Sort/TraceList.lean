import PQL.Display.Groups
import PQL.Lib.StableSort
import PQL.Sort.ListSort

/-!
# Sorting the trace list

`sortTraceList` sorts the traces once for each of the user's criteria, the last one first.  For
strings and integers `listSort` is consistent, but it orders by what it reads at the address of the
criterion, so the traces are in the lexicographic order of the fields exactly when that is also the
order of what is read (`sortTraceList_iff`).
-/

namespace PQL

/-! ## The loop over the criteria -/

section Loop

variable (settings : SortSettings) (trc : ℕ → SortTrace)

/-- The sorts by the first `n` criteria, the last one first. -/
def sortBy : ℕ → List ℕ → Option (List ℕ)
  | 0, traces => some traces
  | i + 1, traces =>
    (gSlistSortWithData (fun a b => listSort settings ⟨.SORTUSER, i⟩ (trc a) (trc b)) traces).bind
      (sortBy i)

/-- `sortTraceList`: traces are known by their address, and `current` is their
`position.current`. -/
def sortTraceList (current : ℕ → ℤ) (traces : List ℕ) : Option (List ℕ × (ℕ → ℤ)) :=
  (sortBy settings trc (settings.user settings.selected).length traces).map fun traces =>
    (traces, Display.renumber current traces 0)

end Loop

/-! ## The order of the criteria -/

/-- The value that `listSort` reads: an array goes on to the first NUL behind its address, and a
`short` is not read. -/
def FieldAt.readKey {β : Type} (instOrder : CString → Option ℤ) (field : FieldAt β) (x : β) :
    List ℚ :=
  match field with
  | chars offset _ _ mem => stringKey (content ((mem x).toList.drop offset))
  | int read _ => [(read x : ℚ)]
  | short _ => []
  | field => field.key instOrder x

/-- The comparison is defined: it finds a difference or a NUL inside the header, or the difference
is an `int`. -/
def FieldAt.Comparable {β : Type} (field : FieldAt β) (x y : β) : Prop :=
  match field with
  | chars offset _ _ mem =>
    (strcmp ((mem x).toList.drop offset) ((mem y).toList.drop offset)).isSome
  | int read _ => |read x - read y| < 2 ^ 31
  | _ => True

def FieldAt.IsStringOrInt {β : Type} : FieldAt β → Prop
  | stringPtr _ | string _ | chars .. | int .. | short _ => True
  | _ => False

/-- What lacks the header comes first. -/
def headerLe {β : Type} (le : β → β → Prop) : Option β → Option β → Prop
  | none, _ => True
  | some _, none => False
  | some x, some y => le x y

section Order

variable (settings : SortSettings)

def userTable : SortTable := settings.table settings.selected

/-- The order of a criterion in its direction, by a value of its field. -/
def critLe (key : FieldAt (userTable settings).β → (userTable settings).β → List ℚ)
    (critDef : CritDef) (a b : SortTrace) : Prop :=
  ∀ crit ∈ (userTable settings).items[critDef.num]?,
    headerLe (fun x y => ¬ precedes critDef.dir (key crit.field y) (key crit.field x))
      ((userTable settings).view a) ((userTable settings).view b)

/-- The lexicographic order of criteria. -/
def critsLe (key : FieldAt (userTable settings).β → (userTable settings).β → List ℚ) :
    List CritDef → SortTrace → SortTrace → Prop
  | [] => fun _ _ => True
  | critDef :: critDefs => lexLe (critLe settings key critDef) (critsLe key critDefs)

/-- The lexicographic order of the user's criteria, by their fields. -/
def userLe : SortTrace → SortTrace → Prop :=
  critsLe settings (FieldAt.key settings.lookup) (settings.user settings.selected)

/-- The same by what is read. -/
def readLe : SortTrace → SortTrace → Prop :=
  critsLe settings (FieldAt.readKey settings.lookup) (settings.user settings.selected)

/-- The user's criteria are strings and integers of the tables. -/
def StringsAndInts : Prop :=
  ∀ critDef ∈ settings.user settings.selected, ∃ crit,
    (userTable settings).items[critDef.num]? = some crit ∧ crit.field.IsStringOrInt

/-- Lists of traces of `S` are sorted by the user's criteria, tied traces stay in their order, and
the positions are numbered. -/
def SortsTraces (S : Set SortTrace) : Prop :=
  ∀ (trc : ℕ → SortTrace) (current : ℕ → ℤ) (traces : List ℕ), traces.Nodup →
    (∀ t ∈ traces, trc t ∈ S) →
    ∃ sorted current', sortTraceList settings trc current traces = some (sorted, current') ∧
      IsStableSort (fun a b => userLe settings (trc a) (trc b)) traces sorted ∧
      ∀ (i t : ℕ), sorted[i]? = some t → current' t = i

/-- A criterion can compare two traces. -/
def ComparableBy (critDef : CritDef) (a b : SortTrace) : Prop :=
  ∀ crit ∈ (userTable settings).items[critDef.num]?,
    ∀ x ∈ (userTable settings).view a, ∀ y ∈ (userTable settings).view b,
      crit.field.Comparable x y

/-- The criteria compare each two of the traces, and what is read orders them as their fields. -/
structure ReadsFields (S : Set SortTrace) : Prop where
  comparable : ∀ critDef ∈ settings.user settings.selected, ∀ a ∈ S, ∀ b ∈ S,
    ComparableBy settings critDef a b
  order : ∀ a ∈ S, ∀ b ∈ S, readLe settings a b ↔ userLe settings a b

end Order

/-! ## What a comparison reads -/

theorem signOf_strcmp {xs ys : List Byte} {d : ℤ} (h : strcmp xs ys = some d) :
    SignOf d (stringKey (content xs)) (stringKey (content ys)) := by
  induction xs generalizing ys with
  | nil => exact nomatch h
  | cons x xs ih =>
    cases ys with
    | nil => exact nomatch h
    | cons y ys =>
      by_cases hxy : x = y
      · subst hxy
        by_cases hx : x = 0#8
        · subst hx
          rw [strcmp_nul] at h
          obtain rfl := Option.some.inj h
          simp [content_cons_nul, SignOf]
        · rw [strcmp_cons_self hx] at h
          rw [content_cons hx, content_cons hx, SignOf, stringKey_cons_lt_self,
            stringKey_cons_lt_self]
          exact ih h
      · rw [strcmp_cons_of_ne hxy] at h
        obtain rfl := Option.some.inj h
        exact signOf_content_head hxy

/-- Strings and integers are compared by what is read. -/
theorem FieldAt.agree_readKey {β : Type} (instOrder : CString → Option ℤ) (dir : Bool)
    {field : FieldAt β} {x y : β} (hkind : field.IsStringOrInt) (h : field.Comparable x y) :
    Agree dir (field.compare instOrder dir x y) (field.readKey instOrder x)
      (field.readKey instOrder y) := by
  cases field with
  | stringPtr s => exact agree_strings dir (s x) (s y)
  | string s => exact agree_strings dir (s x) (s y)
  | chars offset size fits mem =>
    obtain ⟨d, hd⟩ := Option.isSome_iff_exists.1 h
    simp only [FieldAt.compare, hd, Option.map_some]
    exact (agree_some_iff dir d _ _).2 (signOf_strcmp hd)
  | int read value =>
    apply agree_compareInts dir h
    exact signOf_int.2 ⟨Int.cast_lt.symm, Int.cast_lt.symm⟩
  | short n => exact (agree_self_iff dir _ []).2 rfl
  | double q => exact absurd hkind id
  | float q => exact absurd hkind id
  | ptime t => exact absurd hkind id
  | instSort s => exact absurd hkind id

/-- A difference that is defined in both directions. -/
theorem abs_lt_of_compareInts {dir : Bool} {m n : ℤ} (h : (compareInts dir m n).isSome)
    (h' : (compareInts dir n m).isSome) : |m - n| < 2 ^ 31 := by
  have hrange : ∀ {m n : ℤ}, (compareInts dir m n).isSome → InIntRange (m - n) := by
    intro m n hsome
    obtain ⟨r, hr⟩ := Option.isSome_iff_exists.1 hsome
    obtain ⟨d, hd, -⟩ := Option.bind_eq_some_iff.1 hr
    obtain ⟨rfl, hrange⟩ := signed_eq_some.1 hd
    exact hrange
  apply abs_lt_iff_inIntRange.2
  rw [neg_sub]
  exact ⟨hrange h, hrange h'⟩

theorem FieldAt.comparable_of_compare {β : Type} (instOrder : CString → Option ℤ) (dir : Bool)
    {field : FieldAt β} {x y : β} (h : (field.compare instOrder dir x y).isSome)
    (h' : (field.compare instOrder dir y x).isSome) : field.Comparable x y := by
  cases field with
  | chars offset size fits mem => rwa [FieldAt.compare, Option.isSome_map] at h
  | int read value => exact abs_lt_of_compareInts h h'
  | _ => trivial

/-! ## The orders -/

theorem totalPreorder_not_precedes {β : Type} (dir : Bool) (key : β → List ℚ) :
    TotalPreorder fun x y => ¬ precedes dir (key y) (key x) := by
  cases dir with
  | true =>
    simp only [precedes, if_true, not_lt]
    exact ⟨fun a b => le_total (key a) (key b), fun a b c => le_trans⟩
  | false =>
    simp only [precedes, Bool.false_eq_true, if_false, not_lt]
    exact ⟨fun a b => le_total (key b) (key a), fun a b c hab hbc => hbc.trans hab⟩

theorem TotalPreorder.headerLe {β : Type} {le : β → β → Prop} (h : TotalPreorder le) :
    TotalPreorder (headerLe le) := by
  refine ⟨fun a b => ?_, fun a b c hab hbc => ?_⟩
  · cases a with
    | none => exact Or.inl trivial
    | some x =>
      cases b with
      | none => exact Or.inr trivial
      | some y => exact h.total x y
  · cases a with
    | none => trivial
    | some x =>
      cases b with
      | none => exact absurd hab id
      | some y =>
        cases c with
        | none => exact absurd hbc id
        | some z => exact h.trans x y z hab hbc

section Order

variable {settings : SortSettings}
  {key : FieldAt (userTable settings).β → (userTable settings).β → List ℚ}

theorem critLe_iff {critDef : CritDef} {crit : CritItem (userTable settings).β}
    (hcrit : (userTable settings).items[critDef.num]? = some crit) (a b : SortTrace) :
    critLe settings key critDef a b ↔
      headerLe (fun x y => ¬ precedes critDef.dir (key crit.field y) (key crit.field x))
        ((userTable settings).view a) ((userTable settings).view b) := by
  simp only [critLe, hcrit, Option.mem_some_iff, forall_eq']

theorem totalPreorder_critLe
    (key : FieldAt (userTable settings).β → (userTable settings).β → List ℚ) {critDef : CritDef}
    {crit : CritItem (userTable settings).β}
    (hcrit : (userTable settings).items[critDef.num]? = some crit) :
    TotalPreorder (critLe settings key critDef) := by
  have h := (totalPreorder_not_precedes critDef.dir (key crit.field)).headerLe
  refine ⟨fun a b => ?_, fun a b c => ?_⟩
  · rw [critLe_iff hcrit, critLe_iff hcrit]
    exact h.total _ _
  · rw [critLe_iff hcrit, critLe_iff hcrit, critLe_iff hcrit]
    exact h.trans _ _ _

theorem critsLe_refl (critDefs : List CritDef) (a : SortTrace) :
    critsLe settings key critDefs a a := by
  induction critDefs with
  | nil => trivial
  | cons critDef critDefs ih =>
    refine ⟨fun crit _ => ?_, fun _ => ih⟩
    cases (userTable settings).view a with
    | none => trivial
    | some x => exact not_precedes_self _ _

theorem listSort_compare {i : ℕ} {critDef : CritDef} {crit : CritItem (userTable settings).β}
    (hchosen : (settings.user settings.selected)[i]? = some critDef)
    (hcrit : crit ∈ (userTable settings).items[critDef.num]?) {a b : SortTrace}
    {x y : (userTable settings).β} (hx : x ∈ (userTable settings).view a)
    (hy : y ∈ (userTable settings).view b) :
    listSort settings ⟨.SORTUSER, i⟩ a b =
      crit.field.compare settings.lookup critDef.dir x y := by
  have hcrit' : (settings.table settings.selected).items[critDef.num]? = some crit := hcrit
  have hx' : (settings.table settings.selected).view a = some x := hx
  have hy' : (settings.table settings.selected).view b = some y := hy
  unfold listSort chosen
  simp only [hchosen, Option.map_some, Option.bind_some, hcrit', hx', hy']
  rfl

/-- `listSort` by a criterion has the signs of its order. -/
theorem listSort_user {i : ℕ} {critDef : CritDef} {crit : CritItem (userTable settings).β}
    (hchosen : (settings.user settings.selected)[i]? = some critDef)
    (hcrit : (userTable settings).items[critDef.num]? = some crit)
    (hkind : crit.field.IsStringOrInt) {a b : SortTrace}
    (hcomparable : ∀ x ∈ (userTable settings).view a, ∀ y ∈ (userTable settings).view b,
      crit.field.Comparable x y) :
    ∃ r ∈ listSort settings ⟨.SORTUSER, i⟩ a b,
      r ≤ 0 ↔ critLe settings (FieldAt.readKey settings.lookup) critDef a b := by
  have hcrit' : (settings.table settings.selected).items[critDef.num]? = some crit := hcrit
  rw [critLe_iff hcrit]
  cases hx : (userTable settings).view a with
  | none =>
    have hx' : (settings.table settings.selected).view a = none := hx
    refine ⟨-1, ?_, iff_of_true (by norm_num) trivial⟩
    unfold listSort chosen
    simp only [hchosen, Option.map_some, Option.bind_some, hcrit', hx']
    rfl
  | some x =>
    have hx' : (settings.table settings.selected).view a = some x := hx
    cases hy : (userTable settings).view b with
    | none =>
      have hy' : (settings.table settings.selected).view b = none := hy
      refine ⟨1, ?_, iff_of_false (by norm_num) id⟩
      unfold listSort chosen
      simp only [hchosen, Option.map_some, Option.bind_some, hcrit', hx', hy']
      rfl
    | some y =>
      rw [listSort_compare hchosen hcrit hx hy]
      obtain ⟨r, hr, -, hpos⟩ :=
        FieldAt.agree_readKey settings.lookup critDef.dir hkind (hcomparable x hx y hy)
      exact ⟨r, hr, by rw [← not_lt, hpos]; exact Iff.rfl⟩

end Order

/-! ## The run -/

section Run

variable {settings : SortSettings} {trc : ℕ → SortTrace} {traces : List ℕ}

/-- One pass sorts by its criterion. -/
theorem isStableSort_pass (trc : ℕ → SortTrace) (traces : List ℕ)
    (hkinds : StringsAndInts settings) {i : ℕ}
    (hi : i < (settings.user settings.selected).length)
    (hcomparable : ∀ a ∈ traces, ∀ b ∈ traces,
      ComparableBy settings (settings.user settings.selected)[i] (trc a) (trc b)) :
    ∃ sorted,
      gSlistSortWithData (fun a b => listSort settings ⟨.SORTUSER, i⟩ (trc a) (trc b)) traces =
        some sorted ∧
      IsStableSort (fun a b => critLe settings (FieldAt.readKey settings.lookup)
        (settings.user settings.selected)[i] (trc a) (trc b)) traces sorted := by
  obtain ⟨crit, hcrit, hkind⟩ := hkinds _ (List.getElem_mem hi)
  have hle := totalPreorder_critLe (FieldAt.readKey settings.lookup) hcrit
  apply isStableSort_gSlistSortWithData
  · exact ⟨fun a b => hle.total _ _, fun a b c => hle.trans _ _ _⟩
  · intro a ha b hb
    exact listSort_user (List.getElem?_eq_getElem hi) hcrit hkind (hcomparable a ha b hb crit hcrit)

/-- The passes that are left sort a list that is sorted by the less important criteria. -/
theorem isStableSort_sortBy (hkinds : StringsAndInts settings) (hnodup : traces.Nodup)
    (hcomparable : ∀ critDef ∈ settings.user settings.selected, ∀ a ∈ traces, ∀ b ∈ traces,
      ComparableBy settings critDef (trc a) (trc b)) {n : ℕ}
    (hn : n ≤ (settings.user settings.selected).length) {l : List ℕ}
    (hl : IsStableSort (fun a b => critsLe settings (FieldAt.readKey settings.lookup)
      ((settings.user settings.selected).drop n) (trc a) (trc b)) traces l) :
    ∃ sorted, sortBy settings trc n l = some sorted ∧
      IsStableSort (fun a b => readLe settings (trc a) (trc b)) traces sorted := by
  induction n generalizing l with
  | zero => exact ⟨l, rfl, by rwa [List.drop_zero] at hl⟩
  | succ i ih =>
    have hi : i < (settings.user settings.selected).length := hn
    obtain ⟨l', hl', hpass⟩ := isStableSort_pass trc l hkinds hi
      fun a ha b hb => hcomparable _ (List.getElem_mem hi) a (hl.perm.subset ha) b
        (hl.perm.subset hb)
    have hlex := hl.lex (fun a => critsLe_refl _ (trc a)) hnodup hpass
    obtain ⟨sorted, hsorted, hstable⟩ := ih hi.le (by rwa [List.drop_eq_getElem_cons hi])
    exact ⟨sorted, by rw [sortBy, hl', Option.bind_some, hsorted], hstable⟩

/-- Passes that are defined have compared each two traces. -/
theorem comparableBy_of_sortBy {n : ℕ} {l sorted : List ℕ}
    (h : sortBy settings trc n l = some sorted) {i : ℕ} (hi : i < n) {critDef : CritDef}
    (hchosen : (settings.user settings.selected)[i]? = some critDef) {a b : ℕ} (ha : a ∈ l)
    (hb : b ∈ l) (hne : a ≠ b) : ComparableBy settings critDef (trc a) (trc b) := by
  induction n generalizing l with
  | zero => exact absurd hi (Nat.not_lt_zero i)
  | succ n ih =>
    obtain ⟨l', hl', hrest⟩ := Option.bind_eq_some_iff.1 h
    obtain ⟨hperm, hsome⟩ := perm_of_gSlistSortWithData hl'
    by_cases hlast : i = n
    · subst hlast
      intro crit hcrit x hx y hy
      have hcompare := listSort_compare hchosen hcrit hx hy
      have hcompare' := listSort_compare hchosen hcrit hy hx
      apply FieldAt.comparable_of_compare settings.lookup critDef.dir
      · rw [← hcompare]
        exact hsome a ha b hb hne
      · rw [← hcompare']
        exact hsome b hb a ha hne.symm
    · exact ih hrest (by omega) (hperm.symm.subset ha) (hperm.symm.subset hb)

end Run

/-! ## Positions -/

theorem renumber_of_notMem {current : ℕ → ℤ} {l : List ℕ} {i : ℤ} {t : ℕ} (h : t ∉ l) :
    Display.renumber current l i t = current t := by
  induction l generalizing current i with
  | nil => rfl
  | cons a l ih =>
    rw [List.mem_cons, not_or] at h
    rw [Display.renumber, ih h.2, Function.update_of_ne h.1]

theorem renumber_getElem {current : ℕ → ℤ} {l : List ℕ} (hnodup : l.Nodup) {i : ℤ} {k t : ℕ}
    (h : l[k]? = some t) : Display.renumber current l i t = i + k := by
  induction l generalizing current i k with
  | nil => exact nomatch h
  | cons a l ih =>
    rw [List.nodup_cons] at hnodup
    cases k with
    | zero =>
      obtain rfl : a = t := Option.some.inj h
      rw [Display.renumber, renumber_of_notMem hnodup.1, Function.update_self, Nat.cast_zero,
        add_zero]
    | succ k =>
      rw [Display.renumber, ih hnodup.2 h]
      push_cast
      ring

/-! ## The sort of the list -/

section Sorting

variable {settings : SortSettings} {S : Set SortTrace}

/-- Where each two traces can be compared, the traces are sorted by what is read. -/
theorem sortBy_reads (hkinds : StringsAndInts settings)
    (hcomparable : ∀ critDef ∈ settings.user settings.selected, ∀ a ∈ S, ∀ b ∈ S,
      ComparableBy settings critDef a b)
    {trc : ℕ → SortTrace} {traces : List ℕ} (hnodup : traces.Nodup)
    (hS : ∀ t ∈ traces, trc t ∈ S) :
    ∃ sorted, sortBy settings trc (settings.user settings.selected).length traces = some sorted ∧
      IsStableSort (fun a b => readLe settings (trc a) (trc b)) traces sorted := by
  apply isStableSort_sortBy hkinds hnodup
  · exact fun critDef hcritDef a ha b hb =>
      hcomparable critDef hcritDef _ (hS a ha) _ (hS b hb)
  · exact le_rfl
  · rw [List.drop_length]
    exact IsStableSort.rfl' traces

/-- Two traces as a list. -/
def pairTrace (a b : SortTrace) (t : ℕ) : SortTrace := if t = 0 then a else b

theorem pairTrace_mem {a b : SortTrace} (ha : a ∈ S) (hb : b ∈ S) (t : ℕ) :
    pairTrace a b t ∈ S := by
  unfold pairTrace
  split_ifs
  · exact ha
  · exact hb

theorem SortsTraces.pair (h : SortsTraces settings S) {a b : SortTrace} (ha : a ∈ S)
    (hb : b ∈ S) :
    ∃ sorted, sortBy settings (pairTrace a b) (settings.user settings.selected).length [0, 1] =
        some sorted ∧
      IsStableSort (fun i j => userLe settings (pairTrace a b i) (pairTrace a b j)) [0, 1]
        sorted := by
  obtain ⟨sorted, current', hsome, hstable, -⟩ := h (pairTrace a b) 0 [0, 1] (by decide)
    fun t _ => pairTrace_mem ha hb t
  obtain ⟨l, hl, heq⟩ := Option.map_eq_some_iff.1 hsome
  exact ⟨sorted, by rw [hl, (Prod.mk.inj heq).1], hstable⟩

theorem SortsTraces.comparable (h : SortsTraces settings S) {critDef : CritDef}
    (hcritDef : critDef ∈ settings.user settings.selected) {a b : SortTrace} (ha : a ∈ S)
    (hb : b ∈ S) : ComparableBy settings critDef a b := by
  obtain ⟨sorted, hsorted, -⟩ := h.pair ha hb
  obtain ⟨i, hi, hchosen⟩ := List.getElem_of_mem hcritDef
  exact comparableBy_of_sortBy hsorted hi (hchosen ▸ List.getElem?_eq_getElem hi)
    (a := 0) (b := 1) (by simp) (by simp) (by decide)

/-- Traces of strings and integers are sorted by the user's criteria exactly when each two of them
can be compared and what is read orders them as their fields. -/
theorem sortTraceList_iff (settings : SortSettings) (S : Set SortTrace)
    (hkinds : StringsAndInts settings) : SortsTraces settings S ↔ ReadsFields settings S := by
  constructor
  · intro h
    have hcomparable : ∀ critDef ∈ settings.user settings.selected, ∀ a ∈ S, ∀ b ∈ S,
        ComparableBy settings critDef a b := fun _ hcritDef _ ha _ hb =>
      h.comparable hcritDef ha hb
    refine ⟨hcomparable, fun a ha b hb => ?_⟩
    obtain ⟨sorted, hsorted, hstable⟩ := h.pair ha hb
    have hnodup : [0, 1].Nodup := by decide
    obtain ⟨sorted', hsorted', hreads⟩ := sortBy_reads hkinds hcomparable hnodup
      fun t _ => pairTrace_mem ha hb t
    obtain rfl := Option.some.inj (hsorted.symm.trans hsorted')
    -- the one order leaves the pair as it is exactly when the other one does
    have hread : sorted = [0, 1] ↔ readLe settings a b := hreads.pair_iff (by decide)
    have huser : sorted = [0, 1] ↔ userLe settings a b := hstable.pair_iff (by decide)
    exact hread.symm.trans huser
  · intro h trc current traces hnodup hS
    obtain ⟨sorted, hsorted, hreads⟩ := sortBy_reads hkinds h.comparable hnodup hS
    refine ⟨sorted, _, by rw [sortTraceList, hsorted]; rfl, ?_, fun i t ht => ?_⟩
    · exact hreads.congr fun a ha b hb => h.order _ (hS a ha) _ (hS b hb)
    · rw [renumber_getElem (hreads.perm.nodup_iff.2 hnodup) ht, zero_add]

/-! ### Fields that can be told apart -/

theorem FieldAt.precedes_readKey_iff {β : Type} {instOrder : CString → Option ℤ} {dir : Bool}
    {field : FieldAt β} {x y : β} (hkind : field.IsStringOrInt) (hcomparable : field.Comparable x y)
    (h : field.Distinguishes instOrder x y) :
    precedes dir (field.readKey instOrder y) (field.readKey instOrder x) ↔
      precedes dir (field.key instOrder y) (field.key instOrder x) := by
  obtain ⟨r, hr, -, hread⟩ := FieldAt.agree_readKey instOrder dir hkind hcomparable
  have hright : field.ComparesRightly instOrder dir x y :=
    FieldAt.comparesRightly_of_distinguishes h
  obtain ⟨r', hr', -, hfield⟩ := hright
  obtain rfl : r = r' := Option.some.inj (hr.symm.trans hr')
  exact hread.symm.trans hfield

/-- Criteria that can tell each two traces apart read their fields. -/
theorem readsFields_of_distinguishes (hkinds : StringsAndInts settings)
    (h : ∀ critDef ∈ settings.user settings.selected,
      ∀ crit ∈ (userTable settings).items[critDef.num]?, ∀ a ∈ S, ∀ b ∈ S,
      ∀ x ∈ (userTable settings).view a, ∀ y ∈ (userTable settings).view b,
        crit.field.Comparable x y ∧ crit.field.Distinguishes settings.lookup x y) :
    ReadsFields settings S := by
  have hcrit : ∀ critDef ∈ settings.user settings.selected, ∀ a ∈ S, ∀ b ∈ S,
      critLe settings (FieldAt.readKey settings.lookup) critDef a b ↔
        critLe settings (FieldAt.key settings.lookup) critDef a b := by
    intro critDef hcritDef a ha b hb
    obtain ⟨crit, hitem, hkind⟩ := hkinds critDef hcritDef
    rw [critLe_iff hitem, critLe_iff hitem]
    cases hx : (userTable settings).view a with
    | none => exact Iff.rfl
    | some x =>
      cases hy : (userTable settings).view b with
      | none => exact Iff.rfl
      | some y =>
        obtain ⟨hcomparable, happart⟩ := h critDef hcritDef crit hitem a ha b hb x hx y hy
        exact not_congr (FieldAt.precedes_readKey_iff hkind hcomparable happart)
  have hcrits : ∀ critDefs : List CritDef,
      (∀ critDef ∈ critDefs, critDef ∈ settings.user settings.selected) →
      ∀ a ∈ S, ∀ b ∈ S, critsLe settings (FieldAt.readKey settings.lookup) critDefs a b ↔
        critsLe settings (FieldAt.key settings.lookup) critDefs a b := by
    intro critDefs hsub a ha b hb
    induction critDefs with
    | nil => exact Iff.rfl
    | cons critDef critDefs ih =>
      have hmem := hsub critDef List.mem_cons_self
      apply and_congr (hcrit critDef hmem a ha b hb)
      apply imp_congr (hcrit critDef hmem b hb a ha)
      exact ih fun critDef hcritDef => hsub critDef (List.mem_cons_of_mem _ hcritDef)
  refine ⟨fun critDef hcritDef a ha b hb crit hitem x hx y hy => ?_, fun a ha b hb => ?_⟩
  · exact (h critDef hcritDef crit hitem a ha b hb x hx y hy).1
  · exact hcrits _ (fun _ hcritDef => hcritDef) a ha b hb

theorem distinguishes_native {instOrder : Option (CString → Option ℤ)}
    {lookup : CString → Option ℤ} {num : ℕ} {crit : CritItem SortTrace} {a b : SortTrace}
    (hkind : crit.field.IsStringOrInt) (hcrit : (criteria instOrder)[num]? = some crit)
    (ha : |a.original| < 2 ^ 30 ∧ |a.file.fileType| < 2 ^ 30)
    (hb : |b.original| < 2 ^ 30 ∧ |b.file.fileType| < 2 ^ 30) :
    crit.field.Comparable a b ∧ crit.field.Distinguishes lookup a b := by
  have hint : ∀ n : SortTrace → ℤ, |n a| < 2 ^ 30 → |n b| < 2 ^ 30 →
      (MYINT n).Comparable a b ∧ (MYINT n).Distinguishes lookup a b := by
    intro n ha hb
    have hlt : |n a - n b| < 2 ^ 31 := by
      rw [abs_lt] at ha hb ⊢
      omega
    exact ⟨hlt, hlt, Iff.rfl, Iff.rfl⟩
  have hnum : num < 10 := (List.getElem?_eq_some_iff.1 hcrit).1
  interval_cases num <;> obtain rfl := Option.some.inj hcrit
  · exact hint _ ha.1 hb.1
  · exact ⟨trivial, trivial⟩
  · exact ⟨trivial, trivial⟩
  · exact ⟨trivial, trivial⟩
  · exact ⟨trivial, trivial⟩
  · exact ⟨trivial, trivial⟩
  · exact ⟨trivial, trivial⟩
  · cases instOrder with
    | none => exact ⟨trivial, trivial⟩
    | some table => exact absurd hkind id
  · exact absurd hkind id
  · exact hint _ ha.2 hb.2

/-- The native criteria read their fields. -/
theorem readsFields_native (hselected : settings.selected = .PQLSORT)
    (hkinds : StringsAndInts settings)
    (hS : ∀ trc ∈ S, |trc.original| < 2 ^ 30 ∧ |trc.file.fileType| < 2 ^ 30) :
    ReadsFields settings S := by
  obtain ⟨selected, user, instOrder⟩ := settings
  obtain rfl : selected = .PQLSORT := hselected
  apply readsFields_of_distinguishes hkinds
  intro critDef hcritDef crit hcrit a ha b hb x hx y hy
  obtain rfl : a = x := Option.some.inj hx
  obtain rfl : b = y := Option.some.inj hy
  obtain ⟨crit', hcrit', hkind⟩ := hkinds critDef hcritDef
  obtain rfl : crit' = crit := Option.some.inj (hcrit'.symm.trans hcrit)
  exact distinguishes_native hkind hcrit (hS a ha) (hS b hb)

end Sorting

/-! ### Two criteria -/

/-- By channel in reverse, then by input order. -/
def channelSettings : SortSettings where
  selected := .PQLSORT
  user _ := [⟨6, false⟩, ⟨0, true⟩]
  instOrder := none

theorem channelSettings_kinds : StringsAndInts channelSettings := by
  intro critDef hcritDef
  rcases List.mem_pair.1 hcritDef with rfl | rfl
  · exact ⟨⟨"Channel Name", .string SortTrace.channel⟩, rfl, trivial⟩
  · exact ⟨⟨"Input Order", MYINT SortTrace.original⟩, rfl, trivial⟩

/-- Lists of traces with small numbers are sorted by channel and input order. -/
theorem sortTraceList_channels :
    SortsTraces channelSettings
      {trc | |trc.original| < 2 ^ 30 ∧ |trc.file.fileType| < 2 ^ 30} :=
  (sortTraceList_iff channelSettings _ channelSettings_kinds).2
    (readsFields_native rfl channelSettings_kinds fun _ htrc => htrc)

/-! ### A field that is not read -/

deriving instance Inhabited for SEGYHead

/-- By the year of SEGY headers. -/
def yearSettings : SortSettings where
  selected := .SEGYSORT
  user _ := [⟨6, true⟩]
  instOrder := none

def yearTrace (year : ℤ) : SortTrace :=
  { sampleTrace 0 with file := .SEGY_DATA (some { (default : SEGYHead) with year := year }) }

theorem yearSettings_kinds : StringsAndInts yearSettings := by
  intro critDef hcritDef
  obtain rfl := List.mem_singleton.1 hcritDef
  exact ⟨⟨"Year", .short fun h => h.hdr.year⟩, rfl, trivial⟩

theorem sortTraceList_years (trc : ℕ → SortTrace) (years : ℕ → ℤ) (current : ℕ → ℤ)
    (htrc : ∀ t, trc t = yearTrace (years t)) :
    sortTraceList yearSettings trc current [0, 1] =
      some ([0, 1], Display.renumber current [0, 1] 0) := by
  have hzero : ∀ s t, listSort yearSettings ⟨.SORTUSER, 0⟩ (trc s) (trc t) = some 0 := by
    intro s t
    rw [htrc s, htrc t]
    rfl
  have hpass := gSlistSortWithData_pair
    (fun s t => listSort yearSettings ⟨.SORTUSER, 0⟩ (trc s) (trc t)) (hzero 0 1) (hzero 1 0)
  rw [if_pos le_rfl] at hpass
  have hsort : sortBy yearSettings trc 1 [0, 1] = some [0, 1] := by
    rw [sortBy, hpass]
    rfl
  exact congrArg _ hsort

/-- A trace of 1999 stays in front of one of 1998. -/
theorem sortTraceList_ignores_year :
    sortTraceList yearSettings (fun t => yearTrace (1999 - t)) 0 [0, 1] =
        some ([0, 1], Display.renumber 0 [0, 1] 0) ∧
      ¬ SortsTraces yearSettings (Set.range yearTrace) := by
  have hstays := sortTraceList_years (fun t => yearTrace (1999 - t)) (fun t => 1999 - t) 0
    fun _ => rfl
  refine ⟨hstays, fun h => ?_⟩
  obtain ⟨sorted, current', hsome, hstable, -⟩ := h (fun t => yearTrace (1999 - t)) 0 [0, 1]
    (by decide) fun t _ => ⟨_, rfl⟩
  obtain rfl : sorted = [0, 1] :=
    (Prod.mk.inj (Option.some.inj (hsome.symm.trans hstays))).1
  have hle : userLe yearSettings (yearTrace 1999) (yearTrace 1998) :=
    List.rel_of_pairwise_cons hstable.sorted List.mem_cons_self
  have hyear : ¬ [(1998 : ℚ)] < [1999] := hle.1 _ rfl
  exact hyear (singleton_lt_singleton.2 (by norm_num))

end PQL
