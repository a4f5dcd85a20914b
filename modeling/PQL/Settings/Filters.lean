import PQL.Lib.Records
import PQL.Lib.Text

/-!
# Stored filters

`add_record` writes a filter into the store as a text of four numbers under its name, and
`get_all_records` scans the texts of all names.  A filter comes back if no other one has its name,
the name fits and the cutoffs are the numbers nearest to themselves in six decimals
(`filters_survive_iff`).
-/

namespace PQL

namespace Filters

/-! ## Numbers -/

/-- A `float`, by its value. -/
inductive CFloat where
  | finite (q : ℚ)
  | inf (neg : Bool)
  | nan (neg : Bool)
deriving DecidableEq

/-- The sign of a word. -/
def signText (neg : Bool) : List CChar := if neg then [minus] else []

/-- `%f`. -/
def printFloat : CFloat → List CChar
  | .finite q => printFixed q
  | .inf neg => signText neg ++ ascii "inf"
  | .nan neg => signText neg ++ ascii "nan"

/-- `%f` of `sscanf` into a `float`, for the words and numerals that `printf` writes. -/
def scanFloat (s : List CChar) : Option (CFloat × List CChar) :=
  let (sign, word) := scanSign (s.dropWhile isSpace)
  if (ascii "inf").isPrefixOf word then some (.inf (sign = -1), word.drop 3)
  else if (ascii "nan").isPrefixOf word then some (.nan (sign = -1), word.drop 3)
  else (scanFixedRest s).map fun (q, rest) => (.finite (roundTo 24 q), rest)

/-! ## The store -/

/-- The length of `name`. -/
def FNAMELEN : ℕ := 60

/-- A filter; the name is the string in its array. -/
structure FILTER_REC where
  name : List CChar
  highPoles : ℤ
  highCutoff : CFloat
  lowPoles : ℤ
  lowCutoff : CFloat
deriving DecidableEq

/-- A key and its data. -/
abbrev Entry := List CChar × List CChar

inductive TdbFlag where
  | TDB_MODIFY
  | TDB_INSERT
deriving DecidableEq

/-- `tdb_store`: a record is modified only if its key is there, and inserted only if it is not. -/
def tdbStore (db : List Entry) (entry : Entry) : TdbFlag → Option (List Entry)
  | .TDB_MODIFY => if entry.1 ∈ db.map Prod.fst then some (put db entry) else none
  | .TDB_INSERT => if entry.1 ∈ db.map Prod.fst then none else some (put db entry)

/-- `"%d %f %d %f"`. -/
def filterText (rec : FILTER_REC) : List CChar :=
  printInt rec.highPoles ++ blank :: (printFloat rec.highCutoff ++
    blank :: (printInt rec.lowPoles ++ blank :: printFloat rec.lowCutoff))

/-- `add_record`; the store stays as it is if both calls fail. -/
def addRecord (db : List Entry) (rec : FILTER_REC) : List Entry :=
  let entry := (rec.name, filterText rec)
  match tdbStore db entry .TDB_MODIFY with
  | some db => db
  | none => (tdbStore db entry .TDB_INSERT).getD db

/-- The numbers of a text; the record was zero, and what cannot be scanned stays. -/
def scanFilter (name s : List CChar) : FILTER_REC :=
  match scanInt s with
  | none => ⟨name, 0, .finite 0, 0, .finite 0⟩
  | some (highPoles, s) =>
    match scanFloat s with
    | none => ⟨name, highPoles, .finite 0, 0, .finite 0⟩
    | some (highCutoff, s) =>
      match scanInt s with
      | none => ⟨name, highPoles, highCutoff, 0, .finite 0⟩
      | some (lowPoles, s) =>
        ⟨name, highPoles, highCutoff, lowPoles, ((scanFloat s).map Prod.fst).getD (.finite 0)⟩

/-- One record; there is no result if `strncpy` leaves the name without its terminator. -/
def readRecord (entry : Entry) : Option FILTER_REC :=
  if entry.1.length < FNAMELEN then some (scanFilter entry.1 entry.2) else none

/-- `get_all_records`, with the records in the order of the traversal. -/
def getAllRecords (entries : List Entry) : Option (List FILTER_REC) := entries.mapM readRecord

/-- The order in which a store is traversed; every record comes once. -/
structure Traversal where
  order : List Entry → List Entry
  perm : ∀ db, (order db).Perm db

/-- What is stored one by one is what is read back. -/
def Survive (t : Traversal) (recs : List FILTER_REC) : Prop :=
  ∃ read, getAllRecords (t.order (recs.foldl addRecord [])) = some read ∧ read.Perm recs

/-- A cutoff that is the nearest number to itself in six decimals. -/
def KeptCutoff : CFloat → Prop
  | .finite q => roundTo 24 (sixDecimals q) = q
  | _ => True

/-- A filter that comes back, unless another one replaces it. -/
structure Storable (rec : FILTER_REC) : Prop where
  name : rec.name.length < FNAMELEN
  high : KeptCutoff rec.highCutoff
  low : KeptCutoff rec.lowCutoff

/-! ## One record -/

/-- What comes back of a cutoff. -/
def reread : CFloat → CFloat
  | .finite q => .finite (roundTo 24 (sixDecimals q))
  | x => x

theorem reread_eq_iff (x : CFloat) : reread x = x ↔ KeptCutoff x := by
  cases x with
  | finite q => exact CFloat.finite.injEq _ _ ▸ Iff.rfl
  | inf neg => exact iff_of_true rfl trivial
  | nan neg => exact iff_of_true rfl trivial

/-- The first character of a printed number is no blank, and no letter behind its sign. -/
theorem scanSign_printFixed (q : ℚ) (rest : List CChar) :
    ∃ sign c s, scanSign ((printFixed q ++ rest).dropWhile isSpace) = (sign, c :: s) ∧
      isDigit c = true := by
  obtain ⟨c, s, hcons, hc⟩ := exists_decimal_cons (millionths q / 10 ^ 6)
  rw [printFixed, hcons]
  by_cases hq : q < 0
  · rw [if_pos hq]
    exact ⟨-1, c, _, rfl, hc⟩
  · rw [if_neg hq, List.nil_append, List.cons_append, List.cons_append, List.dropWhile_cons,
      (not_space_of_isDigit hc).1]
    exact ⟨1, c, _, scanSign_of_isDigit hc, hc⟩

/-- A printed number is scanned again, whatever follows it that is not a digit. -/
theorem scanFloat_printFloat (x : CFloat) {rest : List CChar} (hrest : NoDigit rest) :
    scanFloat (printFloat x ++ rest) = some (reread x, rest) := by
  cases x with
  | finite q =>
    obtain ⟨sign, c, s, hsign, hc⟩ := scanSign_printFixed q rest
    have hword : ∀ w d, w = d :: w.tail → isDigit d = false → w.isPrefixOf (c :: s) = false := by
      intro w d hw hd
      have hne : d ≠ c := by
        rintro rfl
        rw [hc] at hd
        exact Bool.noConfusion hd
      rw [hw, List.isPrefixOf_cons_cons, beq_false_of_ne hne, Bool.false_and]
    rw [scanFloat, printFloat, hsign]
    dsimp only
    rw [hword (ascii "inf") _ rfl (by decide), hword (ascii "nan") _ rfl (by decide),
      scanFixedRest_printFixed q hrest]
    rfl
  | inf neg => cases neg <;> rfl
  | nan neg => cases neg <;> rfl

theorem scanFloat_blank (s : List CChar) : scanFloat (blank :: s) = scanFloat s := rfl

/-- What comes back of a record. -/
theorem scanFilter_filterText (rec : FILTER_REC) : scanFilter rec.name (filterText rec) =
    { rec with highCutoff := reread rec.highCutoff, lowCutoff := reread rec.lowCutoff } := by
  have hlow := scanFloat_printFloat rec.lowCutoff noDigit_nil
  rw [List.append_nil] at hlow
  rw [filterText, scanFilter, scanInt_printInt _ (noDigit_blank _)]
  dsimp only
  rw [scanFloat_blank, scanFloat_printFloat _ (noDigit_blank _)]
  dsimp only
  rw [scanInt_blank, scanInt_printInt _ (noDigit_blank _)]
  dsimp only
  rw [scanFloat_blank, hlow]
  rfl

theorem name_scanFilter (name s : List CChar) : (scanFilter name s).name = name := by
  rw [scanFilter]
  split
  · rfl
  · split
    · rfl
    · split <;> rfl

/-! ## All records -/

def FILTER_REC.entry (rec : FILTER_REC) : Entry := (rec.name, filterText rec)

/-- Together the two calls replace the record of the name, or add it. -/
theorem addRecord_eq (db : List Entry) (rec : FILTER_REC) :
    addRecord db rec = put db rec.entry := by
  rw [addRecord, FILTER_REC.entry]
  simp only [tdbStore]
  split_ifs <;> rfl

theorem foldl_addRecord (db : List Entry) (recs : List FILTER_REC) :
    recs.foldl addRecord db = putAll db (recs.map FILTER_REC.entry) := by
  rw [putAll, List.foldl_map]
  exact congrArg (fun f => recs.foldl f db) (funext fun db => funext (addRecord_eq db))

theorem getAllRecords_eq (entries : List Entry) :
    getAllRecords entries = if ∀ e ∈ entries, e.1.length < FNAMELEN then
      some (entries.map fun e => scanFilter e.1 e.2) else none := mapM_guard _ _ _

/-- What comes back of records with different names. -/
theorem perm_map_scanFilter (t : Traversal) {recs : List FILTER_REC}
    (hnames : (recs.map FILTER_REC.name).Nodup) :
    ((t.order (recs.foldl addRecord [])).map fun e => scanFilter e.1 e.2).Perm
      (recs.map fun rec => scanFilter rec.name (filterText rec)) ∧
    ∀ e, e ∈ t.order (recs.foldl addRecord []) ↔ ∃ rec ∈ recs, rec.entry = e := by
  have hkeys : ((recs.map FILTER_REC.entry).map Prod.fst).Nodup := by
    rw [List.map_map]
    exact hnames
  have hstored : recs.foldl addRecord [] = recs.map FILTER_REC.entry := by
    rw [foldl_addRecord, putAll_eq_append hkeys, List.nil_append]
  rw [hstored]
  have hperm := t.perm (recs.map FILTER_REC.entry)
  refine ⟨?_, fun e => hperm.mem_iff.trans List.mem_map⟩
  have hmap := hperm.map fun e : Entry => scanFilter e.1 e.2
  rw [List.map_map] at hmap
  exact hmap

/-- Filters that are stored one by one are read back exactly if their names are different and each
of them can be stored. -/
theorem filters_survive_iff (t : Traversal) (recs : List FILTER_REC) :
    Survive t recs ↔ (recs.map FILTER_REC.name).Nodup ∧ ∀ rec ∈ recs, Storable rec := by
  rw [Survive, getAllRecords_eq]
  constructor
  · rintro ⟨read, hread, hperm⟩
    split_ifs at hread with hshort
    obtain rfl := Option.some.inj hread
    have hnames : (recs.map FILTER_REC.name).Nodup := by
      refine (hperm.map FILTER_REC.name).nodup_iff.1 ?_
      have hnil : (([] : List Entry).map Prod.fst).Nodup := List.nodup_nil
      have hkeys := nodup_putAll hnil (recs.map FILTER_REC.entry)
      rw [← foldl_addRecord] at hkeys
      rw [List.map_map]
      simp only [Function.comp_def, name_scanFilter]
      exact ((t.perm _).map Prod.fst).nodup_iff.2 hkeys
    obtain ⟨hback, hmem⟩ := perm_map_scanFilter t hnames
    refine ⟨hnames, fun rec hrec => ?_⟩
    have hsame : scanFilter rec.name (filterText rec) = rec := by
      have hin : scanFilter rec.name (filterText rec) ∈ recs :=
        (hback.symm.trans hperm).mem_iff.1 (List.mem_map_of_mem hrec)
      exact List.inj_on_of_nodup_map hnames hin hrec (name_scanFilter _ _)
    rw [scanFilter_filterText] at hsame
    exact ⟨hshort _ ((hmem rec.entry).2 ⟨rec, hrec, rfl⟩),
      (reread_eq_iff _).1 (congrArg FILTER_REC.highCutoff hsame),
      (reread_eq_iff _).1 (congrArg FILTER_REC.lowCutoff hsame)⟩
  · rintro ⟨hnames, hstorable⟩
    obtain ⟨hback, hmem⟩ := perm_map_scanFilter t hnames
    have hshort : ∀ e ∈ t.order (recs.foldl addRecord []), e.1.length < FNAMELEN := by
      intro e he
      obtain ⟨rec, hrec, rfl⟩ := (hmem e).1 he
      exact (hstorable rec hrec).name
    have hsame : (recs.map fun rec => scanFilter rec.name (filterText rec)) = recs := by
      refine (List.map_congr_left fun rec hrec => ?_).trans (List.map_id recs)
      have hrec := hstorable rec hrec
      rw [scanFilter_filterText, (reread_eq_iff _).2 hrec.high, (reread_eq_iff _).2 hrec.low]
      rfl
    rw [if_pos hshort]
    rw [hsame] at hback
    exact ⟨_, rfl, hback⟩

/-- A filter with a cutoff of seven decimals. -/
def sevenDecimals : FILTER_REC := ⟨ascii "LP", 0, .finite 0, 4, .finite (1 / 128)⟩

/-- A cutoff of seven decimals comes back as another number. -/
theorem filter_loses_decimal : ¬Survive ⟨id, List.Perm.refl⟩ [sevenDecimals] := by
  rintro ⟨read, hread, hperm⟩
  obtain rfl := List.perm_singleton.1 hperm
  exact absurd hread (by decide +kernel)

end Filters

end PQL
