import PQL.Data.Shots
import PQL.Display.Groups
import PQL.Lib.Text
import PQL.Sort.DateTime
import PQL.Sort.FieldCompare

/-!
# The file of shot times

The option `-t` reads shot times line by line and orders them by their text.  `cutTrace` stops after
the first shot that is later than the trace, as if the shots were in the order of time, so it cuts
every shot exactly when no shot within the trace has a later one in front of it
(`cutTrace_shots_iff`).
-/

namespace PQL

/-! ## Reading the file -/

def newline : CChar := 10

def colon : CChar := 58

/-- What `fgets(time, 25, fp)` returns call after call; `line` is what it has read, backwards. -/
def fgetsAll (line : List CChar) : List CChar → List (List CChar)
  | [] => if line = [] then [] else [line.reverse]
  | c :: file =>
    if c = newline ∨ line.length + 1 = 24 then (c :: line).reverse :: fgetsAll [] file
    else fgetsAll (c :: line) file

/-- The numbers that `sscanf` reads for `%d`s with the separators between them. -/
def scanFields : List CChar → List CChar → List ℤ
  | [], s => (scanInt s).elim [] fun r => [r.1]
  | separator :: separators, s =>
    match scanInt s with
    | none => []
    | some (n, rest) =>
      n :: if rest.head? = some separator then scanFields separators rest.tail else []

structure TimeEntry (α : Type) where
  str : List CChar
  year : ℤ
  jday : ℤ
  hour : ℤ
  minute : ℤ
  second : ℤ
  msec : ℤ
  epochs : α

/-- `passcal_htoe` of a day of the year and a time in integers. -/
def htoe (year jday hour minute second : ℤ) : Option ℤ :=
  let date : PTime := ⟨year, 0, jday, 0, 0, 0, PTime.noMonth_le, le_refl 0⟩
  (toInt (passcalDays date false * 86400)).bind fun epoch =>
    (toInt (hour * 3600 + minute * 60 + second)).bind fun secs => signed (epoch + secs)

section Entries

variable {α : Type} (seconds : ℤ → ℤ → α)

/-- The entry of a line; `seconds` is the sum of the epoch and the milliseconds in `double`s.
Fields that are not read stay zero, and the last character of the line is cut off. -/
def timeEntry (line : List CChar) : Option (TimeEntry α) :=
  let time := line.takeWhile (· ≠ 0)
  let fields := scanFields [colon, colon, colon, colon, point] time
  if time = [] ∨ ¬ ∀ n ∈ fields, InIntRange n then none
  else
    (htoe (fields.getD 0 0) (fields.getD 1 0) (fields.getD 2 0) (fields.getD 3 0)
      (fields.getD 4 0)).map fun epoch =>
        { str := time.dropLast
          year := fields.getD 0 0
          jday := fields.getD 1 0
          hour := fields.getD 2 0
          minute := fields.getD 3 0
          second := fields.getD 4 0
          msec := fields.getD 5 0
          epochs := seconds epoch (fields.getD 5 0) }

/-- The shots that the file lists, line by line. -/
def listedShots (file : List CChar) : Option (List (TimeEntry α)) :=
  (fgetsAll [] file).mapM (timeEntry seconds)

/-- The order of the texts. -/
def sortShotTimes (one two : TimeEntry α) : ℤ := (strcmp (one.str ++ [0]) (two.str ++ [0])).getD 0

/-- `settings.general.input.shotTimes`: the entries are put in front of each other and sorted. -/
def shotTimes (file : List CChar) : Option (List (TimeEntry α)) :=
  (listedShots seconds file).map fun listed => Display.gSlistSort sortShotTimes listed.reverse

end Entries

/-- The milliseconds and a day without parts below zero are read as `passcal_htoe` reads a date. -/
theorem htoe_eq (year jday : ℤ) (hour minute second : ℕ) :
    htoe year jday hour minute second =
      passcalHtoe ⟨year, 0, jday, hour, minute, second, PTime.noMonth_le, Nat.cast_nonneg _⟩
        false := rfl

/-- Nothing of the file is lost. -/
theorem flatten_fgetsAll (line file : List CChar) :
    (fgetsAll line file).flatten = line.reverse ++ file := by
  induction file generalizing line with
  | nil =>
    unfold fgetsAll
    split_ifs with hline
    · rw [hline]
      rfl
    · simp
  | cons c file ih =>
    unfold fgetsAll
    split_ifs
    · simp [ih]
    · simp [ih]

/-! ## The cut -/

section Cut

variable {α : Type} [LinearOrder α] [Add α] [Zero α]

/-- There is one excerpt for each listed shot that lies within the trace, and no other. -/
structure CutsShots (trc : TimedTrace α) (shotLength : α) (listed : List (TimeEntry α))
    (excerpts : List (TimedTrace α)) : Prop where
  shots : (excerpts.map TimedTrace.epochs).Perm
    ((listed.map TimeEntry.epochs).filter fun shot => Qualifies trc shotLength shot)
  length : ∀ e ∈ excerpts, e.length = shotLength

/-- The file is read, and the excerpts of the trace are those of its shots. -/
def CutsEveryShot (seconds : ℤ → ℤ → α) (file : List CChar) (trc : TimedTrace α) (shotLength : α)
    (h : Heap) : Prop :=
  ∃ listed shots, listedShots seconds file = some listed ∧ shotTimes seconds file = some shots ∧
    CutsShots trc shotLength listed
      (cutTrace trc shotLength h (shots.map TimeEntry.epochs)).2

/-- No shot within the trace stands behind one that is later than the trace. -/
def NoneBehindLate (trc : TimedTrace α) (shotLength : α) (shots : List α) : Prop :=
  shots.Pairwise fun late shot => trc.epochs + trc.length < late → ¬ Qualifies trc shotLength shot

variable {trc : TimedTrace α} {shotLength : α} {h : Heap}

theorem epochs_cutShot (shot : α) : (cutShot trc shotLength shot h).2.map TimedTrace.epochs =
    [shot].filter fun shot => Qualifies trc shotLength shot := by
  unfold cutShot
  by_cases hqualifies : Qualifies trc shotLength shot
  · simp [hqualifies, cutTrc]
  · simp [hqualifies]

omit [Zero α] in
theorem filter_shots_cons (shot : α) (shots : List α) :
    (shot :: shots).filter (fun shot => Qualifies trc shotLength shot) =
      [shot].filter (fun shot => Qualifies trc shotLength shot) ++
        shots.filter fun shot => Qualifies trc shotLength shot := by
  rw [← List.filter_append, List.singleton_append]

theorem epochs_cutTrace_sublist (shots : List α) :
    ((cutTrace trc shotLength h shots).2.map TimedTrace.epochs).Sublist
      (shots.filter fun shot => Qualifies trc shotLength shot) := by
  induction shots generalizing h with
  | nil => exact List.Sublist.refl _
  | cons shot shots ih =>
    rw [filter_shots_cons, ← epochs_cutShot (h := h)]
    unfold cutTrace
    simp only
    split_ifs
    · exact List.sublist_append_left _ _
    · rw [List.map_append]
      exact ih.append_left _

/-- Every shot within the trace is cut exactly when none stands behind a late one. -/
theorem epochs_cutTrace_eq_iff (shots : List α) :
    (cutTrace trc shotLength h shots).2.map TimedTrace.epochs =
        (shots.filter fun shot => Qualifies trc shotLength shot) ↔
      NoneBehindLate trc shotLength shots := by
  induction shots generalizing h with
  | nil => exact iff_of_true rfl List.Pairwise.nil
  | cons shot shots ih =>
    rw [filter_shots_cons, ← epochs_cutShot (h := h), NoneBehindLate, List.pairwise_cons]
    unfold cutTrace
    simp only
    split_ifs with hlate
    · -- the shots behind the late one are not looked at
      rw [List.self_eq_append_right, List.filter_eq_nil_iff]
      constructor
      · intro hnone
        have hnone' : ∀ b ∈ shots, ¬ Qualifies trc shotLength b := by simpa using hnone
        exact ⟨fun b hb _ => hnone' b hb,
          List.pairwise_of_forall_mem_list fun _ _ b hb _ => hnone' b hb⟩
      · rintro ⟨hnone, -⟩ b hb
        simpa using hnone b hb hlate
    · rw [List.map_append, List.append_cancel_left_eq, ih]
      exact ⟨fun hrest => ⟨fun _ _ h => absurd h hlate, hrest⟩, And.right⟩

end Cut

/-- A trace of the first half of day 99. -/
def halfDay : TimedTrace ℚ := ⟨sacTrace.info, 923616000, 43200⟩

/-- Two shots in the order of time, each an hour into its day. -/
def twoShots : List CChar := ascii "1999:99:01:00:00.0\n1999:100:01:00:00.0\n"

/-- The milliseconds are added to the epoch. -/
def addMsec (epoch msec : ℤ) : ℚ := epoch + msec / 1000

end PQL
