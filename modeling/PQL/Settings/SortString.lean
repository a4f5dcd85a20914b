import PQL.Lib.Runs
import PQL.Lib.Text
import PQL.Sort.Criteria

/-!
# Saved sort criteria

`sortStr` writes the criteria of all sort types into one string for the defaults file and reads them
back.  The string has all of them (`decrypt_encrypt`), but they are read behind the criteria that
are in memory, which the defaults do not clear, so that reading the defaults again in a session
doubles them.  A string of 255 characters or more does not fit the record that it is saved in.
-/

namespace PQL.SortString

/-! ## The string -/

def SORTTYPESEP : CChar := 124

def SORTCRITSEP : CChar := 36

def SORTDIRSEP : CChar := 59

def SORTTYPENAMESEP : CChar := 58

/-- `CRITDEF`: the number of a criterion and its direction. -/
structure UserCrit where
  num : BitVec 32
  dir : BitVec 32
deriving DecidableEq, Repr

structure SortInfo where
  sortNum : SortType
  user : List UserCrit
deriving DecidableEq, Repr

def sortTypes : List SortType := [.PQLSORT, .AHSORT, .SEGYSORT, .SACSORT]

/-- The value of the enumeration. -/
def number : SortType → ℕ
  | .PQLSORT => 0
  | .AHSORT => 1
  | .SEGYSORT => 2
  | .SACSORT => 3

def sortTypeStr : SortType → List CChar
  | .PQLSORT => ascii "PQL"
  | .AHSORT => ascii "AH"
  | .SEGYSORT => ascii "SEGY"
  | .SACSORT => ascii "SAC"

def critText (critDef : UserCrit) : List CChar :=
  printInt critDef.num.toInt ++ SORTDIRSEP :: printInt critDef.dir.toInt

def sortText (sortInfo : SortInfo) : List CChar :=
  sortTypeStr sortInfo.sortNum ++
    SORTTYPENAMESEP :: sortInfo.user.flatMap fun critDef => SORTCRITSEP :: critText critDef

/-- `sortStr(SORTENCRYPT)`: the sort types without criteria are left out. -/
def encrypt (sorts : List SortInfo) : List CChar :=
  (sorts.filter fun sortInfo => sortInfo.user ≠ []).flatMap fun sortInfo =>
    sortText sortInfo ++ [SORTTYPESEP]

/-- `g_strsplit` with a separator of one character. -/
def gStrsplit (s : List CChar) (sep : CChar) : List (List CChar) :=
  if s = [] then [] else s.splitOn sep

/-- A criterion; there is none when a part is missing. -/
def decryptCrit (crit : List CChar) : Option UserCrit :=
  match gStrsplit crit SORTDIRSEP with
  | num :: dir :: _ => some ⟨BitVec.ofInt 32 (atol num), BitVec.ofInt 32 (atol dir)⟩
  | _ => none

/-- The criteria of a piece are appended to those of its sort type. -/
def decryptSort (sorts : List SortInfo) (piece : List CChar) : Option (List SortInfo) :=
  -- nothing is done without criteria
  if piece.count SORTCRITSEP = 0 then some sorts
  else
    let crit := gStrsplit piece SORTTYPENAMESEP
    crit[0]?.bind fun name =>
      match sortTypes.find? fun sort => sortTypeStr sort = name with
      | none => some sorts
      | some sort =>
        sorts[number sort]?.bind fun sortInfo => crit[1]?.bind fun body =>
          match gStrsplit body SORTCRITSEP with
          | [] => none
          | _ :: crits => (crits.mapM decryptCrit).map fun user =>
              sorts.set (number sort) { sortInfo with user := sortInfo.user ++ user }

/-- `sortStr(SORTDECRYPT)`. -/
def decrypt (sorts : List SortInfo) (str : List CChar) : Option (List SortInfo) :=
  (gStrsplit str SORTTYPESEP).foldlM decryptSort sorts

/-! ## Decoding what was encoded -/

/-- The list that `sortInit` makes, with criteria. -/
def sortsOf (user : SortType → List UserCrit) : List SortInfo := sortTypes.map fun s => ⟨s, user s⟩

theorem decryptCrit_critText (critDef : UserCrit) :
    decryptCrit (critText critDef) = some critDef := by
  have hsep : ∀ z, SORTDIRSEP ∉ printInt z := notMem_printInt (by decide) (by decide)
  have hne : critText critDef ≠ [] := by simp [critText]
  rw [decryptCrit, gStrsplit, if_neg hne, critText, splitOn_append_cons, splitOn_of_notMem (hsep _),
    splitOn_of_notMem (hsep _)]
  simp [atol_printInt]

theorem notMem_critText {c : CChar} (hminus : c ≠ minus) (hdigit : isDigit c = false)
    (hsep : c ≠ SORTDIRSEP) (critDef : UserCrit) : c ∉ critText critDef := by
  rw [critText, List.mem_append, List.mem_cons]
  have hprint : ∀ z, c ∉ printInt z := notMem_printInt hminus hdigit
  rintro (h | h | h)
  · exact hprint _ h
  · exact hsep h
  · exact hprint _ h

/-- A separator that is not in the criteria. -/
theorem notMem_body {c : CChar} (hminus : c ≠ minus) (hdigit : isDigit c = false)
    (hdir : c ≠ SORTDIRSEP) (hcrit : c ≠ SORTCRITSEP) (user : List UserCrit) :
    c ∉ user.flatMap fun critDef => SORTCRITSEP :: critText critDef := by
  intro h
  obtain ⟨critDef, -, hc⟩ := List.mem_flatMap.1 h
  rcases List.mem_cons.1 hc with h | h
  · exact hcrit h
  · exact notMem_critText hminus hdigit hdir critDef h

theorem notMem_sortText (sortInfo : SortInfo) : SORTTYPESEP ∉ sortText sortInfo := by
  rw [sortText, List.mem_append, List.mem_cons]
  rintro (h | h | h)
  · revert h
    cases sortInfo.sortNum <;> decide
  · exact absurd h (by decide)
  · exact notMem_body (by decide) (by decide) (by decide) (by decide) sortInfo.user h

theorem mapM_decryptCrit (user : List UserCrit) :
    (user.map critText).mapM decryptCrit = some user := by
  induction user with
  | nil => rfl
  | cons critDef user ih =>
    rw [List.map_cons, List.mapM_cons, decryptCrit_critText, ih]
    rfl

theorem find_sortTypeStr (sort : SortType) :
    (sortTypes.find? fun s => sortTypeStr s = sortTypeStr sort) = some sort := by
  cases sort <;> decide

/-- The criteria of a sort type are appended to those in memory. -/
theorem decryptSort_sortText {sorts : List SortInfo} {info sortInfo : SortInfo}
    (huser : sortInfo.user ≠ []) (hinfo : sorts[number sortInfo.sortNum]? = some info) :
    decryptSort sorts (sortText sortInfo) =
      some (sorts.set (number sortInfo.sortNum)
        { info with user := info.user ++ sortInfo.user }) := by
  obtain ⟨critDef, user, hcons⟩ := List.exists_cons_of_ne_nil huser
  have hbody : (sortInfo.user.flatMap fun critDef => SORTCRITSEP :: critText critDef) ≠ [] := by
    rw [hcons, List.flatMap_cons]
    exact List.cons_ne_nil _ _
  have hcount : (sortText sortInfo).count SORTCRITSEP ≠ 0 := by
    rw [Ne, List.count_eq_zero, not_not, sortText, hcons]
    simp
  have hname : SORTTYPENAMESEP ∉ sortTypeStr sortInfo.sortNum := by
    cases sortInfo.sortNum <;> decide
  have hcrit : gStrsplit (sortText sortInfo) SORTTYPENAMESEP =
      [sortTypeStr sortInfo.sortNum,
        sortInfo.user.flatMap fun critDef => SORTCRITSEP :: critText critDef] := by
    rw [gStrsplit, if_neg (by simp [sortText]), sortText, splitOn_append_cons,
      splitOn_of_notMem hname, splitOn_of_notMem
        (notMem_body (by decide) (by decide) (by decide) (by decide) sortInfo.user)]
    rfl
  have hcrits : gStrsplit (sortInfo.user.flatMap fun critDef => SORTCRITSEP :: critText critDef)
      SORTCRITSEP = [] :: sortInfo.user.map critText := by
    rw [gStrsplit, if_neg hbody]
    exact splitOn_flatMap_cons critText fun c _ =>
      notMem_critText (by decide) (by decide) (by decide) c
  rw [decryptSort, if_neg hcount, hcrit]
  simp only [List.getElem?_cons_zero, List.getElem?_cons_succ, Option.bind_some, find_sortTypeStr,
    hinfo, hcrits, mapM_decryptCrit, Option.map_some]

/-- The string is split into the sort types that have criteria. -/
theorem decrypt_encrypt_eq_foldlM (sorts infos : List SortInfo) :
    decrypt sorts (encrypt infos) = (infos.filter fun sortInfo => sortInfo.user ≠ []).foldlM
      (fun sorts sortInfo => decryptSort sorts (sortText sortInfo)) sorts := by
  have hlast : ∀ sorts, decryptSort sorts [] = some sorts := fun _ => rfl
  have hsplit : ∀ s, (gStrsplit s SORTTYPESEP).foldlM decryptSort sorts =
      (s.splitOn SORTTYPESEP).foldlM decryptSort sorts := by
    intro s
    rw [gStrsplit]
    split_ifs with hs
    · rw [hs]
      rfl
    · rfl
  rw [decrypt, hsplit, encrypt, splitOn_flatMap_concat sortText fun info _ => notMem_sortText info,
    List.foldlM_append, List.foldlM_map]
  simp only [List.foldlM_cons, List.foldlM_nil, hlast]
  simp

theorem getElem?_sortsOf (user : SortType → List UserCrit) (extras : List SortInfo)
    (sort : SortType) : (sortsOf user ++ extras)[number sort]? = some ⟨sort, user sort⟩ := by
  cases sort <;> rfl

theorem set_sortsOf (user : SortType → List UserCrit) (extras : List SortInfo) (sort : SortType)
    (crits : List UserCrit) : (sortsOf user ++ extras).set (number sort) ⟨sort, crits⟩ =
      sortsOf (Function.update user sort crits) ++ extras := by
  cases sort <;> rfl

/-- The sort types one after the other. -/
theorem foldlM_decryptSort (user saved : SortType → List UserCrit) (extras : List SortInfo)
    {sorts : List SortType} (hnodup : sorts.Nodup) :
    ((sorts.map fun s => (⟨s, saved s⟩ : SortInfo)).filter
        fun sortInfo => sortInfo.user ≠ []).foldlM
        (fun infos sortInfo => decryptSort infos (sortText sortInfo)) (sortsOf user ++ extras) =
      some (sortsOf (fun s => if s ∈ sorts then user s ++ saved s else user s) ++ extras) := by
  induction sorts generalizing user with
  | nil => simp
  | cons sort sorts ih =>
    obtain ⟨hnotMem, hnodup⟩ := List.nodup_cons.1 hnodup
    have hrest : ∀ crits : List UserCrit, crits = user sort ++ saved sort →
        (fun s => if s ∈ sorts then Function.update user sort crits s ++ saved s
          else Function.update user sort crits s) =
          fun s => if s ∈ sort :: sorts then user s ++ saved s else user s := by
      rintro crits rfl
      funext s
      by_cases hs : s = sort
      · rw [hs, if_neg hnotMem, Function.update_self, if_pos List.mem_cons_self]
      · rw [Function.update_of_ne hs]
        simp [hs]
    rw [List.map_cons]
    by_cases hsaved : saved sort = []
    · rw [List.filter_cons_of_neg (by simp [hsaved]), ih user hnodup, ← hrest (user sort)
        (by rw [hsaved, List.append_nil]), Function.update_eq_self]
    · rw [List.filter_cons_of_pos (by simp [hsaved]), List.foldlM_cons,
        decryptSort_sortText hsaved (getElem?_sortsOf user extras sort)]
      dsimp only
      rw [set_sortsOf]
      exact (ih _ hnodup).trans (by rw [hrest _ rfl])

/-- The saved criteria are appended to those in memory. -/
theorem decrypt_encrypt (user saved : SortType → List UserCrit) (extras : List SortInfo) :
    decrypt (sortsOf user ++ extras) (encrypt (sortsOf saved)) =
      some (sortsOf (fun s => user s ++ saved s) ++ extras) := by
  have hmem : ∀ s, s ∈ sortTypes := fun s => by cases s <;> decide
  have hfold := foldlM_decryptSort user saved extras (show sortTypes.Nodup by decide)
  simp only [hmem, if_true] at hfold
  rw [decrypt_encrypt_eq_foldlM]
  exact hfold

/-- Whatever was encoded can be decoded. -/
theorem exists_decrypt (user : SortType → List UserCrit) (infos : List SortInfo) :
    ∃ user', decrypt (sortsOf user) (encrypt infos) = some (sortsOf user') := by
  rw [decrypt_encrypt_eq_foldlM]
  have hne : ∀ info ∈ infos.filter (fun sortInfo => sortInfo.user ≠ []), info.user ≠ [] :=
    fun info hinfo => by simpa using (List.mem_filter.1 hinfo).2
  generalize infos.filter (fun sortInfo => sortInfo.user ≠ []) = infos at hne
  induction infos generalizing user with
  | nil => exact ⟨user, rfl⟩
  | cons info infos ih =>
    have hget := getElem?_sortsOf user [] info.sortNum
    have hset := set_sortsOf user [] info.sortNum
    simp only [List.append_nil] at hget hset
    rw [List.foldlM_cons, decryptSort_sortText (hne info List.mem_cons_self) hget]
    dsimp only
    rw [hset]
    exact ih _ fun i hi => hne i (List.mem_cons_of_mem info hi)

/-- The encoded string begins with a letter. -/
theorem head_encrypt {sorts : List SortInfo} {c : CChar} (hc : c ∈ (encrypt sorts).head?) :
    c.toNat < 128 := by
  unfold encrypt at hc
  cases h : sorts.filter fun sortInfo => sortInfo.user ≠ [] with
  | nil =>
    rw [h] at hc
    exact nomatch hc
  | cons info infos =>
    rw [h, List.flatMap_cons, sortText] at hc
    cases hsort : info.sortNum <;> rw [hsort] at hc <;> obtain rfl := Option.some.inj hc <;> decide

/-! ## Sessions -/

/-- The running session, the string in the defaults file and the criteria that were saved last. -/
structure Session where
  sorts : List SortInfo
  db : Option (List CChar)
  saved : SortType → List UserCrit

/-- What a session does with the criteria: it starts, reads the defaults again, lets the user choose
the criteria of a sort type, or saves the defaults. -/
inductive SessionStep where
  | start
  | restore
  | edit (sort : SortType) (user : List UserCrit)
  | save
deriving DecidableEq

/-- The criteria that are in use. -/
def Session.user (s : Session) (sort : SortType) : List UserCrit :=
  s.sorts[number sort]?.elim [] SortInfo.user

/-- The string setting after the defaults are read; an empty one is not restored. -/
def restored (value : List CChar) : List CChar :=
  match value with
  | c :: _ => if c.toNat < 128 then value else []
  | [] => []

/-- `read_defaults_file`: `sortInit` appends the sort types to the list that is there. -/
def readDefaults (sorts : List SortInfo) (db : Option (List CChar)) : Option (List SortInfo) :=
  match db with
  | none => some (sorts ++ sortsOf fun _ => [])
  | some value => decrypt (sorts ++ sortsOf fun _ => []) (restored value)

/-- The size of `value` in a record. -/
def valueSize : ℕ := 255

/-- There is no result before a session has started, nor when the string does not fit. -/
def step (s : Session) : SessionStep → Option Session
  | .start => (readDefaults [] s.db).map fun sorts => { s with sorts := sorts }
  | .restore =>
    if s.sorts = [] then none
    else (readDefaults s.sorts s.db).map fun sorts => { s with sorts := sorts }
  | .edit sort user => s.sorts[number sort]?.map fun sortInfo =>
      { s with sorts := s.sorts.set (number sort) { sortInfo with user := user } }
  | .save =>
    if (encrypt s.sorts).length < valueSize then
      some { s with db := some (encrypt s.sorts), saved := s.user }
    else none

/-- Nothing has been saved yet. -/
def firstSession : Session := ⟨[], none, fun _ => []⟩

/-- The list of sort types in memory: the first four are used. -/
structure Inv (s : Session) : Prop where
  sorts : s.sorts = [] ∨ ∃ extras, s.sorts = sortsOf s.user ++ extras ∧ ∀ e ∈ extras, e.user = []
  db : (s.db = none ∧ s.saved = fun _ => []) ∨ s.db = some (encrypt (sortsOf s.saved))

theorem inv_firstSession : Inv firstSession := ⟨Or.inl rfl, Or.inl ⟨rfl, rfl⟩⟩

theorem user_of_sorts {s : Session} {user : SortType → List UserCrit} {extras : List SortInfo}
    (h : s.sorts = sortsOf user ++ extras) : s.user = user := by
  funext sort
  rw [Session.user, h, getElem?_sortsOf]
  rfl

/-- The list in memory is as it should be. -/
theorem inv_sorts {s : Session} {user : SortType → List UserCrit} {extras : List SortInfo}
    (h : s.sorts = sortsOf user ++ extras) (hextras : ∀ e ∈ extras, e.user = []) :
    s.sorts = [] ∨ ∃ extras, s.sorts = sortsOf s.user ++ extras ∧ ∀ e ∈ extras, e.user = [] := by
  refine Or.inr ⟨extras, ?_, hextras⟩
  rw [user_of_sorts h]
  exact h

theorem encrypt_append {sorts extras : List SortInfo} (h : ∀ e ∈ extras, e.user = []) :
    encrypt (sorts ++ extras) = encrypt sorts := by
  have hnil : (extras.filter fun sortInfo => sortInfo.user ≠ []) = [] := by
    rw [List.filter_eq_nil_iff]
    intro e he
    simp [h e he]
  rw [encrypt, List.filter_append, hnil, List.append_nil, encrypt]

/-- What was encoded is restored. -/
theorem restored_encrypt (sorts : List SortInfo) : restored (encrypt sorts) = encrypt sorts := by
  cases h : encrypt sorts with
  | nil => rfl
  | cons c s => exact if_pos (head_encrypt (by rw [h]; rfl))

theorem Inv.encrypt_sorts {s : Session} (hs : Inv s) :
    encrypt s.sorts = encrypt (sortsOf s.user) := by
  rcases hs.sorts with hnil | ⟨extras, hsorts, hextras⟩
  · have huser : s.user = fun _ => [] := by
      funext sort
      rw [Session.user, hnil]
      rfl
    rw [hnil, huser]
    rfl
  · rw [hsorts, encrypt_append hextras]

/-- Reading the defaults appends what was saved. -/
theorem readDefaults_eq {s : Session} (hs : Inv s) (user : SortType → List UserCrit)
    (extras : List SortInfo) : ∃ news, (∀ e ∈ news, e.user = []) ∧
      readDefaults (sortsOf user ++ extras) s.db =
        some (sortsOf (fun sort => user sort ++ s.saved sort) ++ extras ++ news) := by
  refine ⟨sortsOf fun _ => [], by simp [sortsOf, sortTypes], ?_⟩
  rcases hs.db with ⟨hdb, hsaved⟩ | hdb
  · rw [hdb, hsaved, readDefaults]
    simp only [List.append_nil]
  · rw [hdb, readDefaults, restored_encrypt, List.append_assoc, decrypt_encrypt, List.append_assoc]

/-- Reading the defaults at the start. -/
theorem readDefaults_nil {s : Session} (hs : Inv s) :
    readDefaults [] s.db = some (sortsOf s.saved) := by
  rcases hs.db with ⟨hdb, hsaved⟩ | hdb
  · rw [hdb, hsaved]
    rfl
  · have hdecrypt := decrypt_encrypt (fun _ => []) s.saved []
    simp only [List.append_nil, List.nil_append] at hdecrypt
    rw [hdb, readDefaults, restored_encrypt, List.nil_append, hdecrypt]

theorem step_inv {s s' : Session} {e : SessionStep} (hs : Inv s) (h : step s e = some s') :
    Inv s' := by
  cases e with
  | start =>
    rw [step, readDefaults_nil hs] at h
    obtain rfl := Option.some.inj h
    exact ⟨inv_sorts (List.append_nil _).symm (fun e he => nomatch he), hs.db⟩
  | restore =>
    rw [step] at h
    split_ifs at h with hnil
    obtain ⟨extras, hsorts, hextras⟩ := hs.sorts.resolve_left hnil
    obtain ⟨news, hnews, hread⟩ := readDefaults_eq hs s.user extras
    rw [hsorts, hread] at h
    obtain rfl := Option.some.inj h
    refine ⟨inv_sorts (List.append_assoc _ _ _) fun e he => ?_, hs.db⟩
    exact (List.mem_append.1 he).elim (hextras e) (hnews e)
  | edit sort user =>
    obtain ⟨info, hinfo, rfl⟩ := Option.map_eq_some_iff.1 h
    rcases hs.sorts with hnil | ⟨extras, hsorts, hextras⟩
    · rw [hnil] at hinfo
      exact nomatch hinfo
    · rw [hsorts, getElem?_sortsOf] at hinfo
      obtain rfl := Option.some.inj hinfo
      have hset := set_sortsOf s.user extras sort user
      rw [← hsorts] at hset
      exact ⟨inv_sorts hset hextras, hs.db⟩
  | save =>
    rw [step] at h
    split_ifs at h with hlength
    obtain rfl := Option.some.inj h
    exact ⟨hs.sorts, Or.inr (by dsimp only; rw [hs.encrypt_sorts])⟩

/-! ## Which readings leave the saved criteria -/

/-- The criteria in use are those that were saved. -/
def Correct (s : Session) : Prop := ∀ sort, s.user sort = s.saved sort

/-- A step does what it should: reading leaves the saved criteria and they can be saved. -/
def Right (s : Session) : SessionStep → Prop
  | .start => ∃ s', step s .start = some s' ∧ Correct s'
  | .restore => ∃ s', step s .restore = some s' ∧ Correct s'
  | .edit _ _ => True
  | .save => (step s .save).isSome

/-- The defaults are read again only when no criteria are in memory, and the string fits. -/
def Clean (s : Session) : SessionStep → Prop
  | .restore => ∀ sort, s.user sort = []
  | .save => (encrypt s.sorts).length < valueSize
  | _ => True

theorem start_correct {s : Session} (hs : Inv s) : ∃ s', step s .start = some s' ∧ Correct s' := by
  rw [step, readDefaults_nil hs]
  refine ⟨_, rfl, fun sort => ?_⟩
  exact congrFun (user_of_sorts (List.append_nil _).symm) sort

/-- Reading the defaults again appends the saved criteria. -/
theorem restore_user {s : Session} (hs : Inv s) (hstarted : s.sorts ≠ []) :
    ∃ s', step s .restore = some s' ∧ s'.saved = s.saved ∧
      ∀ sort, s'.user sort = s.user sort ++ s.saved sort := by
  obtain ⟨extras, hsorts, -⟩ := hs.sorts.resolve_left hstarted
  obtain ⟨news, -, hread⟩ := readDefaults_eq hs s.user extras
  rw [← hsorts] at hread
  have huser : Session.user { s with
      sorts := sortsOf (fun sort => s.user sort ++ s.saved sort) ++ extras ++ news } =
        fun sort => s.user sort ++ s.saved sort := user_of_sorts (List.append_assoc _ _ _)
  rw [step, if_neg hstarted, hread]
  exact ⟨_, rfl, rfl, fun sort => congrFun huser sort⟩

theorem restore_right_iff {s : Session} (hs : Inv s) (hstarted : s.sorts ≠ []) :
    Right s .restore ↔ ∀ sort, s.user sort = [] := by
  obtain ⟨s', hs', hsaved, huser⟩ := restore_user hs hstarted
  have hcorrect : Right s .restore ↔ Correct s' := by
    rw [Right, hs']
    simp
  rw [hcorrect, Correct]
  apply forall_congr'
  intro sort
  rw [huser, hsaved]
  simp

theorem right_iff_clean {s : Session} (hs : Inv s) {e : SessionStep}
    (hstarted : e = .restore → s.sorts ≠ []) : Right s e ↔ Clean s e := by
  cases e with
  | start => exact iff_of_true (start_correct hs) trivial
  | restore => exact restore_right_iff hs (hstarted rfl)
  | edit sort user => exact Iff.rfl
  | save =>
    rw [Right, Clean, step]
    split_ifs with hlength
    · exact iff_of_true rfl hlength
    · exact iff_of_false Bool.false_ne_true hlength

/-- What was encoded is decoded again, and in every run whose steps are clean the next step leaves
the saved criteria exactly when it is clean too. -/
theorem sort_criteria_restored {steps : List SessionStep} {s : Session}
    (hclean : Allowed step Clean firstSession steps)
    (hrun : steps.foldlM step firstSession = some s) :
    (∀ saved, decrypt (sortsOf fun _ => []) (encrypt (sortsOf saved)) = some (sortsOf saved)) ∧
      ∀ e, (e = .restore → s.sorts ≠ []) → (Right s e ↔ Clean s e) := by
  have hs : Inv s := run_preserves (fun _ _ _ hs _ => step_inv hs) inv_firstSession hclean hrun
  refine ⟨fun saved => ?_, fun e hstarted => right_iff_clean hs hstarted⟩
  have hdecrypt := decrypt_encrypt (fun _ => []) saved []
  simpa only [List.append_nil, List.nil_append] using hdecrypt

/-- The criteria are chosen and saved, and the next session reads them. -/
def savedRun : List SessionStep := [.start, .edit .SEGYSORT [⟨3, 1⟩], .save, .start]

theorem sort_criteria_restored_savedRun :
    ∃ s, savedRun.foldlM step firstSession = some s ∧
      (Right s .restore ↔ Clean s .restore) := by
  refine ⟨_, rfl, ?_⟩
  have hclean : Allowed step Clean firstSession savedRun :=
    ⟨trivial, fun s₁ h₁ => ⟨trivial, fun s₂ h₂ => ⟨?_, fun _ _ => ⟨trivial, fun _ _ => trivial⟩⟩⟩⟩
  · exact (sort_criteria_restored hclean rfl).2 .restore fun _ => by decide
  · obtain rfl := Option.some.inj h₁
    obtain rfl := Option.some.inj h₂
    exact (by decide :
      (encrypt (sortsOf fun s => if s = .SEGYSORT then [⟨3, 1⟩] else [])).length < 255)

/-- The defaults are read again in the session in which they were saved. -/
theorem restore_doubles :
    ∃ s, [SessionStep.start, .edit .SEGYSORT [⟨3, 1⟩], .save, .restore].foldlM step firstSession =
        some s ∧ s.saved .SEGYSORT = [⟨3, 1⟩] ∧ s.user .SEGYSORT = [⟨3, 1⟩, ⟨3, 1⟩] :=
  ⟨_, rfl, rfl, rfl⟩

end PQL.SortString
