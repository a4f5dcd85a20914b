import PQL.Display.Loads
import PQL.Lib.Delta
import PQL.Threads.FileThreads

/-!
# The order of the traces

`main` collects the files in a list, `readHdr_1` queues them, `readFiles` deals them out, and
`readHdr_2` numbers what comes back.  Each thread gets its files in reverse order, so the numbers
follow the files only if no thread finds traces in two of its files; files of a list come in reverse
order before they are dealt out, so their numbers are right only if a single thread finds traces
(`file_order_iff`).
-/

namespace PQL.ThreadFile

open Display

variable {φ τ : Type}

/-! ## The code -/

/-- The files of the command line, as `main` lists them. -/
def commandLine (argv : List φ) : List φ := argv.foldl (fun files pqlIn => pqlIn :: files) []

/-- The files of a file list, as `main` lists them. -/
def sortFile (lines : List φ) : List φ :=
  (lines.foldl (fun files pqlIn => pqlIn :: files) []).reverse

/-- The queue that `readHdr_1` makes of the files. -/
def readHdr1 (files : List φ) : List φ := files.foldl (fun fileQ pqlIn => pqlIn :: fileQ) []

/-- The global list when the threads have identified the traces of the files. -/
def loadFiles [DecidableEq τ] (identifyTrace : φ → List τ) (shots : Option (Shots τ))
    (numCPUs : ℕ) (files : List φ) : State τ :=
  Display.readHdr2 shots (State.ofTraces []) (allTraces identifyTrace numCPUs (readHdr1 files))

/-- What a file contributes to the global list. -/
def fileEntries (identifyTrace : φ → List τ) (shots : Option (Shots τ)) (f : φ) : List τ :=
  (identifyTrace f).flatMap (entries shots)

/-! ## The claim -/

/-- The traces are numbered from one on in the order of `given`. -/
def Numbers (given : List τ) (s : State τ) : Prop :=
  ∀ (i : ℕ) (trc : τ), given[i]? = some trc → s.original trc = i + 1

/-- Two loads give the same list and the same numbers, and the numbers follow the files. -/
structure SameOrder (given : List τ) (s s' : State τ) : Prop where
  traces : s.traces = s'.traces
  original : ∀ trc ∈ s.traces, s.original trc = s'.original trc
  order : Numbers given s
  order' : Numbers given s'

/-- The files that thread `n` gets. -/
def filesOf (numCPUs : ℕ) (files : List φ) (n : ℕ) : List φ :=
  share (files.length / maxThreads numCPUs files.length + 1) files n

/-- No thread finds traces in two of its files. -/
def OneFilePerThread [DecidableEq τ] (g : φ → List τ) (numCPUs : ℕ) (files : List φ) : Prop :=
  ∀ n < maxThreads numCPUs files.length,
    ((filesOf numCPUs files n).filter fun f => g f ≠ []).length ≤ 1

/-- At most one thread finds traces in its files. -/
def OneThread [DecidableEq τ] (g : φ → List τ) (numCPUs : ℕ) (files : List φ) : Prop :=
  ((List.range (maxThreads numCPUs files.length)).filter fun n =>
    (filesOf numCPUs files n).flatMap g ≠ []).length ≤ 1

/-! ## Numbers -/

section Numbers

variable [DecidableEq τ]

theorem original_foldl_placeTrace {l : List τ} (hnodup : l.Nodup) (s : State τ) (n : ℤ) (trc : τ) :
    (trc ∉ l → (l.foldl placeTrace (s, n)).1.original trc = s.original trc) ∧
      ∀ i : ℕ, l[i]? = some trc → (l.foldl placeTrace (s, n)).1.original trc = n + i := by
  induction l generalizing s n with
  | nil => exact ⟨fun _ => rfl, nofun⟩
  | cons first l ih =>
    obtain ⟨hfirst, hnodup⟩ := List.nodup_cons.1 hnodup
    obtain ⟨hout, hin⟩ := ih hnodup (placeTrace (s, n) first).1 (n + 1)
    refine ⟨fun hnot => ?_, fun i hi => ?_⟩
    · rw [List.mem_cons, not_or] at hnot
      exact (hout hnot.2).trans (Function.update_of_ne hnot.1 _ _)
    · cases i with
      | zero =>
        obtain rfl : first = trc := by simpa using hi
        rw [List.foldl_cons]
        exact (hout hfirst).trans (by simp [placeTrace])
      | succ i =>
        rw [List.foldl_cons]
        exact (hin i (by simpa using hi)).trans (by push_cast; ring)

/-- The numbers follow `given` exactly if the traces were placed in that order. -/
theorem numbers_iff {given placed : List τ} (hgiven : given.Nodup) (hperm : placed.Perm given) :
    Numbers given (placed.foldl placeTrace (State.ofTraces [], 1)).1 ↔ placed = given := by
  have hplaced := hperm.nodup_iff.2 hgiven
  have hnumber := original_foldl_placeTrace hplaced (State.ofTraces []) 1
  constructor
  · intro hnumbers
    refine List.ext_getElem? fun i => ?_
    rcases lt_or_ge i given.length with hlt | hge
    · have hi := List.getElem?_eq_getElem hlt
      have hmem : given[i] ∈ placed := hperm.symm.subset (List.getElem_mem hlt)
      obtain ⟨j, hj⟩ := List.mem_iff_getElem?.1 hmem
      have hnum := hnumbers i _ hi
      rw [(hnumber _).2 j hj] at hnum
      obtain rfl : j = i := by omega
      rw [hj, hi]
    · rw [List.getElem?_eq_none hge, List.getElem?_eq_none (hperm.length_eq.trans_le hge)]
  · rintro rfl i trc hi
    rw [(hnumber trc).2 i hi]
    ring

end Numbers

/-! ## Queues -/

/-- The files of the command line are queued in their order. -/
theorem readHdr1_commandLine (argv : List φ) : readHdr1 (commandLine argv) = argv := by
  simp [readHdr1, commandLine]

/-- The files of a file list are queued in reverse order. -/
theorem readHdr1_sortFile (lines : List φ) : readHdr1 (sortFile lines) = lines.reverse := by
  simp [readHdr1, sortFile]

section Order

variable [DecidableEq τ] {identifyTrace : φ → List τ} {shots : Option (Shots τ)} {numCPUs : ℕ}

omit [DecidableEq τ] in
/-- What is placed is what the threads make of their files. -/
theorem placed_eq (files : List φ) :
    (allTraces identifyTrace numCPUs files).flatMap (entries shots) =
      (List.range (maxThreads numCPUs files.length)).flatMap fun n =>
        (filesOf numCPUs files n).flatMap (fileEntries identifyTrace shots) := by
  simp only [allTraces, joinedLists, threadList, List.flatMap_assoc]
  rfl

theorem loadFiles_eq (identifyTrace : φ → List τ) (shots : Option (Shots τ)) (numCPUs : ℕ)
    (files : List φ) : loadFiles identifyTrace shots numCPUs files =
    (((allTraces identifyTrace numCPUs (readHdr1 files)).flatMap (entries shots)).foldl placeTrace
      (State.ofTraces [], 1)).1 := by
  simp [loadFiles, Display.readHdr2_eq, State.ofTraces]

/-- The threads have room for all files. -/
theorem length_le_room (files : List φ) (hcpus : 0 < numCPUs) :
    files.length ≤ (files.length / maxThreads numCPUs files.length + 1) *
      maxThreads numCPUs files.length := by
  cases files with
  | nil => exact Nat.zero_le _
  | cons f files => exact length_le_shares _ (maxThreads_pos (List.cons_ne_nil f files) hcpus)

/-- The numbers follow the files of the command line if no thread finds traces in two files. -/
theorem numbers_commandLine_iff (hcpus : 0 < numCPUs) {argv : List φ}
    (hfresh : (argv.flatMap (fileEntries identifyTrace shots)).Nodup) :
    Numbers (argv.flatMap (fileEntries identifyTrace shots))
      (loadFiles identifyTrace shots numCPUs (commandLine argv)) ↔
        OneFilePerThread (fileEntries identifyTrace shots) numCPUs argv := by
  have hroom := length_le_room argv hcpus
  rw [loadFiles_eq, readHdr1_commandLine, placed_eq]
  unfold OneFilePerThread filesOf
  generalize fileEntries identifyTrace shots = g at *
  generalize argv.length / maxThreads numCPUs argv.length + 1 = k at *
  generalize maxThreads numCPUs argv.length = m at *
  have hgiven : argv.flatMap g = (List.range m).flatMap fun n => (block k argv n).flatMap g := by
    rw [← List.flatMap_assoc, flatMap_block_of_le hroom]
  have hperm :
      ((List.range m).flatMap fun n => (share k argv n).flatMap g).Perm (argv.flatMap g) := by
    rw [hgiven]
    exact List.Perm.flatMap_left _ fun n _ => (List.reverse_perm _).flatMap_right g
  have hlength : ∀ n ∈ List.range m, ((share k argv n).flatMap g).length =
      ((block k argv n).flatMap g).length :=
    fun n _ => ((List.reverse_perm (block k argv n)).flatMap_right g).length_eq
  rw [numbers_iff hfresh hperm, hgiven, flatMap_eq_flatMap_iff _ _ _ hlength]
  simp only [List.mem_range]
  refine forall₂_congr fun n _ => ?_
  have hblock : (block k argv n).Sublist argv :=
    (List.take_sublist _ _).trans (List.drop_sublist _ _)
  rw [share, List.filter_reverse, List.length_reverse]
  exact reverse_flatMap_eq_iff (hfresh.sublist (hblock.flatMap g))

/-- The numbers follow the files of a list if at most one thread finds traces. -/
theorem numbers_sortFile_iff (hcpus : 0 < numCPUs) {lines : List φ}
    (hfresh : (lines.flatMap (fileEntries identifyTrace shots)).Nodup) :
    Numbers (lines.flatMap (fileEntries identifyTrace shots))
      (loadFiles identifyTrace shots numCPUs (sortFile lines)) ↔
        OneThread (fileEntries identifyTrace shots) numCPUs lines.reverse := by
  have hroom := length_le_room lines.reverse hcpus
  rw [loadFiles_eq, readHdr1_sortFile, placed_eq]
  unfold OneThread filesOf
  generalize fileEntries identifyTrace shots = g at *
  generalize lines.reverse.length / maxThreads numCPUs lines.reverse.length + 1 = k at *
  generalize maxThreads numCPUs lines.reverse.length = m at *
  have hlines : (List.range m).reverse.flatMap (share k lines.reverse) = lines := by
    have hreverse := congrArg List.reverse (flatMap_block_of_le hroom)
    rwa [List.reverse_flatMap, List.reverse_reverse] at hreverse
  have hgiven : lines.flatMap g =
      (List.range m).reverse.flatMap fun n => (share k lines.reverse n).flatMap g := by
    rw [← List.flatMap_assoc, hlines]
  have hperm : ((List.range m).flatMap fun n => (share k lines.reverse n).flatMap g).Perm
      (lines.flatMap g) := by
    rw [hgiven]
    exact (List.reverse_perm _).symm.flatMap_right _
  rw [numbers_iff hfresh hperm, hgiven, eq_comm]
  exact reverse_flatMap_eq_iff (hperm.nodup_iff.2 hfresh)

omit [DecidableEq τ] in
theorem placed_perm (hcpus : 0 < numCPUs) {names files : List φ} (hfiles : files.Perm names) :
    ((allTraces identifyTrace numCPUs files).flatMap (entries shots)).Perm
      (names.flatMap (fileEntries identifyTrace shots)) := by
  have hall : (allTraces identifyTrace numCPUs files).Perm (files.flatMap identifyTrace) :=
    joinedLists_perm (length_le_room files hcpus)
  have hentries := hall.flatMap_right (entries shots)
  rw [List.flatMap_assoc] at hentries
  exact hentries.trans (hfiles.flatMap_right _)

/-- Two loads are the same if both number the traces in the order of their files. -/
theorem sameOrder_iff {numCPUs' : ℕ} (hcpus : 0 < numCPUs) (hcpus' : 0 < numCPUs')
    {names files : List φ} (hfresh : (names.flatMap (fileEntries identifyTrace shots)).Nodup)
    (hfiles : (readHdr1 files).Perm names) :
    SameOrder (names.flatMap (fileEntries identifyTrace shots))
      (loadFiles identifyTrace shots numCPUs files) (loadFiles identifyTrace shots numCPUs' files) ↔
        Numbers (names.flatMap (fileEntries identifyTrace shots))
          (loadFiles identifyTrace shots numCPUs files) ∧
        Numbers (names.flatMap (fileEntries identifyTrace shots))
          (loadFiles identifyTrace shots numCPUs' files) := by
  refine ⟨fun h => ⟨h.order, h.order'⟩, fun ⟨h, h'⟩ => ?_⟩
  have heq := loadFiles_eq identifyTrace shots numCPUs files
  have heq' := loadFiles_eq identifyTrace shots numCPUs' files
  have hplaced := (numbers_iff hfresh (placed_perm hcpus hfiles)).1 (heq ▸ h)
  have hplaced' := (numbers_iff hfresh (placed_perm hcpus' hfiles)).1 (heq' ▸ h')
  have hsame : loadFiles identifyTrace shots numCPUs files =
      loadFiles identifyTrace shots numCPUs' files := by
    rw [heq, heq', hplaced, hplaced']
  exact ⟨congrArg State.traces hsame, fun trc _ => by rw [hsame], h, h'⟩

/-- When every thread is done in time, `readHdr_2` gets the list that `loadFiles` takes. -/
theorem loadFiles_of_run {files : List φ} {es : List Event} {s : Pool φ τ}
    (hfiles : readHdr1 files ≠ []) (hcpus : 0 < numCPUs)
    (hok : Allowed (step identifyTrace) Late (readFiles numCPUs (readHdr1 files)) es)
    (hrun : es.foldlM (step identifyTrace) (readFiles numCPUs (readHdr1 files)) = some s)
    (hend : Ended identifyTrace s) :
    ∃ tracesIn, s.posted = [tracesIn] ∧
      loadFiles identifyTrace shots numCPUs files =
        Display.readHdr2 shots (State.ofTraces []) tracesIn :=
  ⟨_, posted_eq_allTraces hfiles hcpus hok hrun hend, rfl⟩

/-- The order of the traces does not depend on the number of processors and follows the files
exactly if no thread finds traces in two files of the command line, and if at most one thread finds
traces in the files of a list. -/
theorem file_order_iff (identifyTrace : φ → List τ) (shots : Option (Shots τ))
    {numCPUs numCPUs' : ℕ} (hcpus : 0 < numCPUs) (hcpus' : 0 < numCPUs') {names : List φ}
    (hfresh : (names.flatMap (fileEntries identifyTrace shots)).Nodup) :
    (SameOrder (names.flatMap (fileEntries identifyTrace shots))
        (loadFiles identifyTrace shots numCPUs (commandLine names))
        (loadFiles identifyTrace shots numCPUs' (commandLine names)) ↔
      OneFilePerThread (fileEntries identifyTrace shots) numCPUs names ∧
        OneFilePerThread (fileEntries identifyTrace shots) numCPUs' names) ∧
    (SameOrder (names.flatMap (fileEntries identifyTrace shots))
        (loadFiles identifyTrace shots numCPUs (sortFile names))
        (loadFiles identifyTrace shots numCPUs' (sortFile names)) ↔
      OneThread (fileEntries identifyTrace shots) numCPUs names.reverse ∧
        OneThread (fileEntries identifyTrace shots) numCPUs' names.reverse) := by
  constructor
  · rw [sameOrder_iff hcpus hcpus' hfresh (by rw [readHdr1_commandLine]),
      numbers_commandLine_iff hcpus hfresh, numbers_commandLine_iff hcpus' hfresh]
  · rw [sameOrder_iff hcpus hcpus' hfresh (by rw [readHdr1_sortFile]; exact List.reverse_perm _),
      numbers_sortFile_iff hcpus hfresh, numbers_sortFile_iff hcpus' hfresh]

end Order

instance [DecidableEq τ] (g : φ → List τ) (numCPUs : ℕ) (files : List φ) :
    Decidable (OneFilePerThread g numCPUs files) :=
  inferInstanceAs (Decidable (∀ n < _, _))

/-- The order of a single file. -/
theorem file_order_single :
    SameOrder (["a"].flatMap (fileEntries (fun f => [f]) none))
      (loadFiles (fun f => [f]) none 1 (commandLine ["a"]))
      (loadFiles (fun f => [f]) none 2 (commandLine ["a"])) := by
  have hfresh : (["a"].flatMap (fileEntries (fun f => [f]) none)).Nodup := by decide
  exact (file_order_iff (fun f => [f]) none Nat.one_pos Nat.two_pos hfresh).1.2
    ⟨by decide, by decide⟩

/-- Two files come back in their order on one processor, in reverse order on two. -/
theorem file_order_two :
    ¬SameOrder ["a", "b"] (loadFiles (fun f => [f]) none 1 (commandLine ["a", "b"]))
      (loadFiles (fun f => [f]) none 2 (commandLine ["a", "b"])) :=
  fun h => absurd h.traces (by decide)

end PQL.ThreadFile
