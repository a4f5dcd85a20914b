import PQL.Data.Readers
import PQL.Display.References

/-!
# Loading traces

`readHdr_2` puts new traces in front of the global list, with a shot list their excerpts instead.
`readHdr_finish` and `importTraces` add the number of the traces that they were handed to
`numTraces`; the removals set it to the length of the list.  So the number is right as long as no
load with a shot list makes more or fewer excerpts than it was handed traces
(`numTraces_eq_length`).
-/

namespace PQL.Display

variable {τ : Type}

/-- How a trace is read, and cut up for the shot list. -/
structure Shots (τ : Type) where
  readTrace : τ → ReadResult
  cutTrace : τ → List τ

/-- The page that `sortTraces` returns to. -/
inductive CurrentPage where
  | NONE
  | HEADERSCR
  | other
deriving DecidableEq, Repr

structure LoadSettings (τ : Type) where
  shots : Option (Shots τ)
  /-- The first criterion is not the order of a sort file. -/
  sorts : Bool
  /-- The comparisons of the criteria that the user has chosen. -/
  user : List (τ → τ → ℤ)
  currentPage : CurrentPage

section Loads

variable [DecidableEq τ]

/-- A trace gets its number and goes to the front of the list. -/
def placeTrace (s : State τ × ℤ) (trc : τ) : State τ × ℤ :=
  ({ s.1 with
      original := Function.update s.1.original trc s.2
      traces := trc :: s.1.traces }, s.2 + 1)

/-- `readHdr_2`. -/
def readHdr2 (shots : Option (Shots τ)) (s : State τ) (readTraces : List τ) : State τ :=
  let file_num : ℤ := s.traces.length + 1
  match shots with
  | none => (readTraces.foldl placeTrace (s, file_num)).1
  | some shots =>
    (readTraces.foldl (fun s trc =>
      if shots.readTrace trc ≠ .PQLXSUCCESS then s else (shots.cutTrace trc).foldl placeTrace s)
      (s, file_num)).1

/-- `sortTraceList`: the last criterion first. -/
def sortTraceList (user : List (τ → τ → ℤ)) (s : State τ) : State τ :=
  let traces := user.reverse.foldl (fun l compare => gSlistSort compare l) s.traces
  { s with traces, current := renumber s.current traces 0 }

/-- `sortTraces`. -/
def sortTraces (cfg : Settings τ) (load : LoadSettings τ) (s : State τ) : Option (State τ) :=
  let s := sortTraceList load.user (selectT s false)
  match load.currentPage with
  | .NONE => some s
  | .HEADERSCR => makeDispList cfg s .INITGROUP
  | .other => restartTrace cfg s 0

/-- `readHdr_finish`; without traces the file dialogue opens again. -/
def readHdrFinish (cfg : Settings τ) (load : LoadSettings τ) (s : State τ) (tracesIn : List τ) :
    Option (State τ) :=
  if tracesIn = [] then some s
  else
    let s := readHdr2 load.shots s tracesIn
    let s := { s with numTraces := s.numTraces + tracesIn.length }
    (if load.sorts ∧ cfg.mode = .TRACEMODE then sortTraces cfg load s else some s).bind fun s =>
      makeDispList cfg { s with startRec := 0 } .INITGROUP

/-- `importTraces`; the numbers that it gives itself are overwritten. -/
def importTraces (cfg : Settings τ) (load : LoadSettings τ) (s : State τ)
    (files : List (Option τ)) :
    Option (State τ) :=
  let tracesIn := (files.filterMap id).reverse
  let s := readHdr2 load.shots s tracesIn
  makeDispList cfg { s with numTraces := s.numTraces + tracesIn.length, startRec := 0 } .INITGROUP

/-- Loads and removals. -/
inductive Change (τ : Type) where
  | readHdrFinish (load : LoadSettings τ) (tracesIn : List τ)
  | importTraces (load : LoadSettings τ) (files : List (Option τ))
  | killTrace (trc : τ)
  | killSelected
  | killAll

def change (cfg : Settings τ) (s : State τ) : Change τ → Option (State τ)
  | .readHdrFinish load tracesIn => readHdrFinish cfg load s tracesIn
  | .importTraces load files => importTraces cfg load s files
  | .killTrace trc => some (killTrace s trc)
  | .killSelected => some (killSelectedTraces cfg s)
  | .killAll => some (killAllTraces s)

end Loads

/-! ## The number of traces -/

/-- What becomes of a trace: itself, or its excerpts. -/
def entries : Option (Shots τ) → τ → List τ
  | none, trc => [trc]
  | some shots, trc => if shots.readTrace trc ≠ .PQLXSUCCESS then [] else shots.cutTrace trc

theorem entries_none : entries (none : Option (Shots τ)) = fun trc => [trc] := rfl

theorem entries_some (shots : Shots τ) (trc : τ) : entries (some shots) trc =
    if shots.readTrace trc ≠ .PQLXSUCCESS then [] else shots.cutTrace trc := rfl

/-- `numTraces` is the length of the list. -/
def Counted (s : State τ) : Prop := s.numTraces = s.traces.length

/-- There are as many entries as traces. -/
def Balanced (shots : Option (Shots τ)) (tracesIn : List τ) : Prop :=
  (tracesIn.flatMap (entries shots)).length = tracesIn.length

def BalancedChange : Change τ → Prop
  | .readHdrFinish load tracesIn => Balanced load.shots tracesIn
  | .importTraces load files => Balanced load.shots (files.filterMap id).reverse
  | _ => True

/-- A load without a shot list is balanced. -/
theorem balanced_none (tracesIn : List τ) : Balanced none tracesIn := by
  simp [Balanced, entries_none]

/-- The list keeps its length, and its number. -/
structure SameCount (s s' : State τ) : Prop where
  length : s'.traces.length = s.traces.length
  numTraces : s'.numTraces = s.numTraces

theorem SameCount.trans {s₁ s₂ s₃ : State τ} (h : SameCount s₁ s₂) (h' : SameCount s₂ s₃) :
    SameCount s₁ s₃ :=
  ⟨h'.length.trans h.length, h'.numTraces.trans h.numTraces⟩

theorem SameCount.counted_iff {s s' : State τ} (h : SameCount s s') : Counted s' ↔ Counted s := by
  rw [Counted, Counted, h.length, h.numTraces]

section Count

variable [DecidableEq τ] {cfg : Settings τ} {s s' : State τ}

theorem foldl_placeTrace (l : List τ) (s : State τ) (n : ℤ) :
    (l.foldl placeTrace (s, n)).1.traces = l.reverse ++ s.traces ∧
      (l.foldl placeTrace (s, n)).1.numTraces = s.numTraces := by
  induction l generalizing s n with
  | nil => exact ⟨rfl, rfl⟩
  | cons trc l ih =>
    obtain ⟨htraces, hnum⟩ := ih (placeTrace (s, n) trc).1 (n + 1)
    exact ⟨by rw [List.foldl_cons]; simpa [placeTrace] using htraces, hnum⟩

/-- `readHdr_2` numbers the entries and puts them in front of the list. -/
theorem readHdr2_eq (shots : Option (Shots τ)) (s : State τ) (readTraces : List τ) :
    readHdr2 shots s readTraces =
      ((readTraces.flatMap (entries shots)).foldl placeTrace (s, (s.traces.length + 1 : ℤ))).1 := by
  cases shots with
  | none => simp [readHdr2, entries_none]
  | some shots =>
    rw [readHdr2, List.foldl_flatMap]
    congr 2
    funext acc trc
    rw [entries_some]
    split_ifs <;> rfl

theorem length_readHdr2 (shots : Option (Shots τ)) (s : State τ) (readTraces : List τ) :
    (readHdr2 shots s readTraces).traces.length =
      (readTraces.flatMap (entries shots)).length + s.traces.length := by
  rw [readHdr2_eq, (foldl_placeTrace _ s _).1]
  simp

theorem numTraces_readHdr2 (shots : Option (Shots τ)) (s : State τ) (readTraces : List τ) :
    (readHdr2 shots s readTraces).numTraces = s.numTraces := by
  rw [readHdr2_eq, (foldl_placeTrace _ s _).2]

theorem dispList_sameCount {which : Group} (h : dispList cfg s which = some s') : SameCount s s' :=
  ⟨(dispList_displays h).traces.length_eq, (dispList_displays h).numTraces⟩

theorem initGroup_sameCount (h : makeDispList cfg s .INITGROUP = some s') : SameCount s s' := by
  obtain ⟨s₁, h₁, hrest⟩ := Option.bind_eq_some_iff.1 h
  obtain ⟨s₂, h₂, h₃⟩ := Option.bind_eq_some_iff.1 hrest
  have hcur := dispList_sameCount h₁
  exact SameCount.trans ⟨hcur.length, hcur.numTraces⟩
    ((dispList_sameCount h₂).trans (dispList_sameCount h₃))

theorem sortTraceList_sameCount (user : List (τ → τ → ℤ)) (s : State τ) :
    SameCount s (sortTraceList user s) := by
  refine ⟨?_, rfl⟩
  have hsort : ∀ (criteria : List (τ → τ → ℤ)) (l : List τ),
      (criteria.foldl (fun l compare => gSlistSort compare l) l).length = l.length := by
    intro criteria
    induction criteria with
    | nil => exact fun _ => rfl
    | cons compare criteria ih =>
      exact fun l => (ih _).trans (gSlistSort_perm compare l).length_eq
  exact hsort _ _

theorem selectT_sameCount (s : State τ) (value : Bool) : SameCount s (selectT s value) := by
  unfold selectT
  split_ifs <;> exact ⟨rfl, rfl⟩

theorem sortTraces_sameCount {load : LoadSettings τ} (h : sortTraces cfg load s = some s') :
    SameCount s s' := by
  have hsort := (selectT_sameCount s false).trans
    (sortTraceList_sameCount load.user (selectT s false))
  unfold sortTraces at h
  cases hpage : load.currentPage with
  | NONE =>
    rw [hpage] at h
    obtain rfl := Option.some.inj h
    exact hsort
  | HEADERSCR =>
    rw [hpage] at h
    exact hsort.trans (initGroup_sameCount h)
  | other =>
    rw [hpage] at h
    have hinit := initGroup_sameCount h
    exact hsort.trans ⟨hinit.length, hinit.numTraces⟩

/-- A load counts right exactly if it is balanced. -/
theorem counted_load_iff (hs : Counted s) (shots : Option (Shots τ)) (tracesIn : List τ) :
    Counted { readHdr2 shots s tracesIn with
      numTraces := (readHdr2 shots s tracesIn).numTraces + tracesIn.length } ↔
      Balanced shots tracesIn := by
  unfold Counted at *
  simp only [length_readHdr2, numTraces_readHdr2, hs, Balanced]
  push_cast
  omega

theorem change_counted_iff (hs : Counted s) {c : Change τ} (h : change cfg s c = some s') :
    Counted s' ↔ BalancedChange c := by
  cases c with
  | readHdrFinish load tracesIn =>
    have hload := counted_load_iff hs load.shots tracesIn
    simp only [change, readHdrFinish] at h
    split_ifs at h with hnil hsorts
    · obtain rfl := Option.some.inj h
      exact iff_of_true hs (by simp [BalancedChange, Balanced, hnil])
    · obtain ⟨s₁, h₁, h₂⟩ := Option.bind_eq_some_iff.1 h
      have hsort := sortTraces_sameCount h₁
      have hinit := initGroup_sameCount h₂
      exact (hsort.trans ⟨hinit.length, hinit.numTraces⟩).counted_iff.trans hload
    · have hinit := initGroup_sameCount h
      exact SameCount.counted_iff ⟨hinit.length, hinit.numTraces⟩ |>.trans hload
  | importTraces load files =>
    have hload := counted_load_iff hs load.shots (files.filterMap id).reverse
    have hinit := initGroup_sameCount h
    exact SameCount.counted_iff ⟨hinit.length, hinit.numTraces⟩ |>.trans hload
  | killTrace trc =>
    obtain rfl := Option.some.inj h
    exact iff_of_true rfl trivial
  | killSelected =>
    obtain rfl := Option.some.inj h
    exact iff_of_true rfl trivial
  | killAll =>
    obtain rfl := Option.some.inj h
    exact iff_of_true rfl trivial

/-- As long as every load is balanced, `numTraces` is the length of the list; after a load that is
not balanced it is not. -/
theorem numTraces_eq_length (cfg : Settings τ) {cs : List (Change τ)}
    (hbalanced : Allowed (change cfg) (fun _ => BalancedChange) (State.ofTraces []) cs)
    {s : State τ} (hrun : cs.foldlM (change cfg) (State.ofTraces []) = some s) :
    Counted s ∧ ∀ c s', change cfg s c = some s' → (Counted s' ↔ BalancedChange c) := by
  have hstart : Counted (State.ofTraces ([] : List τ)) := rfl
  have hs : Counted s := run_preserves (fun _ _ _ hs hbal h => (change_counted_iff hs h).2 hbal)
    hstart hbalanced hrun
  exact ⟨hs, fun c s' h => change_counted_iff hs h⟩

end Count

/-- A load without a shot list, shown in pages of two. -/
def plainLoad : LoadSettings ℕ := ⟨none, false, [], .other⟩

theorem numTraces_eq_length_plainLoad :
    ∃ s, [Change.readHdrFinish plainLoad [7, 8]].foldlM (change (pagesOf 2)) (State.ofTraces []) =
      some s ∧ Counted s := by
  have hbalanced : Allowed (change (pagesOf 2)) (fun _ => BalancedChange) (State.ofTraces [])
      [.readHdrFinish plainLoad [7, 8]] :=
    ⟨balanced_none [7, 8], fun _ _ => trivial⟩
  exact ⟨_, rfl, (numTraces_eq_length (pagesOf 2) hbalanced rfl).1⟩

/-- A trace that cannot be read when the shots are cut is counted all the same. -/
theorem numTraces_failedCut :
    ∃ s, [Change.readHdrFinish { plainLoad with shots := some ⟨fun _ => .FAILURE, fun _ => []⟩ }
      [7]].foldlM (change (pagesOf 2)) (State.ofTraces []) = some s ∧
        s.numTraces = 1 ∧ s.traces = [] :=
  ⟨_, rfl, rfl, rfl⟩

end PQL.Display
