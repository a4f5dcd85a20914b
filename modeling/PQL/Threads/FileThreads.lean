import PQL.Lib.Latch
import PQL.Lib.Shares

/-!
# The threads that identify the traces of the files

`readFiles` deals its queue of files out to threads.  Each thread identifies the traces of its files
and stores them under its number; the thread that brings `numThreads` to zero joins the lists and
posts `readHdr_finish`.  That happens once, with every trace, if and only if `numThreads` does not
come to zero while there are files to deal out (`readFiles_once`).
-/

namespace PQL.ThreadFile

/-- Where a thread that runs `_getthreadTraces` is. -/
inductive Thread (φ τ : Type) where
  /-- It has identified the traces of some of its files. -/
  | working (files : List φ) (threadList : List τ)
  /-- Its list is stored; it lowers `numThreads` in `finish`. -/
  | leaving
  /-- It brought `numThreads` to zero and joins the lists. -/
  | last
  /-- It posts `readHdr_finish`. -/
  | posting
  | done
deriving DecidableEq, Repr

/-- The variables of `readFiles` and its threads, and what the threads have done. -/
structure Pool (φ τ : Type) where
  maxThreads : ℕ
  numFilesPThread : ℕ
  fileQ : List φ
  numThreads : ℤ
  /-- The files of a thread that is counted and not started. -/
  counted : Option (List φ)
  threads : List (Thread φ τ)
  /-- The list of each thread, `none` once it is released. -/
  threadTraces : Option (List (List τ))
  traceList : List τ
  /-- The files whose traces were identified, in that order. -/
  processed : List φ
  /-- The lists that `readHdr_finish` was posted with. -/
  posted : List (List τ)
deriving DecidableEq, Repr

inductive Event where
  | count
  | start
  | identify (n : ℕ)
  | store (n : ℕ)
  | lower (n : ℕ)
  | join (n : ℕ)
  | post (n : ℕ)
deriving DecidableEq, Repr

variable {φ τ : Type}

/-! ## The code -/

def MT_FACTOR : ℕ := 3

def maxThreads (numCPUs qLen : ℕ) : ℕ :=
  if numCPUs = 1 then MT_FACTOR
  else if qLen < MT_FACTOR * numCPUs then qLen else MT_FACTOR * numCPUs

/-- The files that are taken from the head of the queue, the last one first, and the queue. -/
def getFiles : ℕ → List φ → List φ → List φ × List φ
  | 0, fileQ, files => (files, fileQ)
  | _ + 1, [], files => (files, [])
  | numFiles + 1, pqlIn :: fileQ, files => getFiles numFiles fileQ (pqlIn :: files)

/-- `readFiles` up to its launch loop. -/
def readFiles (numCPUs : ℕ) (f : List φ) : Pool φ τ where
  maxThreads := maxThreads numCPUs f.length
  numFilesPThread := f.length / maxThreads numCPUs f.length + 1
  fileQ := f
  numThreads := 0
  counted := none
  threads := []
  threadTraces := some (List.replicate (maxThreads numCPUs f.length) [])
  traceList := []
  processed := []
  posted := []

/-- One step of the launch loop or of thread `n`; `identifyTrace` gives the traces of a file, none
if it is not recognized or does not exist. -/
def step (identifyTrace : φ → List τ) (s : Pool φ τ) : Event → Option (Pool φ τ)
  | .count =>
    if s.counted = none ∧ s.threads.length < s.maxThreads then
      match getFiles s.numFilesPThread s.fileQ [] with
      | ([], _) => none
      | (files, fileQ) =>
        some { s with fileQ := fileQ, numThreads := s.numThreads + 1, counted := some files }
    else none
  | .start =>
    match s.counted with
    | some files => some { s with counted := none, threads := s.threads ++ [.working files []] }
    | none => none
  | .identify n =>
    match s.threads[n]? with
    | some (.working (pqlIn :: files) threadList) =>
      some { s with
        processed := s.processed ++ [pqlIn]
        threads := s.threads.set n (.working files (threadList ++ identifyTrace pqlIn)) }
    | _ => none
  | .store n =>
    match s.threads[n]? with
    | some (.working [] threadList) =>
      some { s with
        threadTraces :=
          if n < s.maxThreads then s.threadTraces.map (·.set n threadList) else s.threadTraces
        threads := s.threads.set n .leaving }
    | _ => none
  | .lower n =>
    match s.threads[n]? with
    | some .leaving =>
      some { s with
        numThreads := s.numThreads - 1
        threads := s.threads.set n (if s.numThreads - 1 = 0 then .last else .done) }
    | _ => none
  | .join n =>
    match s.threads[n]? with
    | some .last =>
      some { s with
        traceList := s.traceList ++ (s.threadTraces.getD []).flatten
        threadTraces := none
        threads := s.threads.set n .posting }
    | _ => none
  | .post n =>
    match s.threads[n]? with
    | some .posting =>
      some { s with posted := s.posted ++ [s.traceList], threads := s.threads.set n .done }
    | _ => none

/-- Nothing is left to do. -/
def Ended (identifyTrace : φ → List τ) (s : Pool φ τ) : Prop :=
  ∀ e, step identifyTrace s e = none

/-- There are files to deal out. -/
def Pool.launching (s : Pool φ τ) : Bool := !s.fileQ.isEmpty

def Event.lowers : Event → Bool
  | .lower _ => true
  | _ => false

/-- The step does not bring `numThreads` to zero while there are files to deal out. -/
def Late (s : Pool φ τ) (e : Event) : Prop :=
  ¬(e.lowers = true ∧ s.launching = true ∧ s.numThreads = 1)

instance (s : Pool φ τ) (e : Event) : Decidable (Late s e) := inferInstanceAs (Decidable (¬_))

/-! ## The files of a thread -/

theorem getFiles_eq (numFiles : ℕ) (fileQ files : List φ) :
    getFiles numFiles fileQ files =
      ((fileQ.take numFiles).reverse ++ files, fileQ.drop numFiles) := by
  induction numFiles generalizing fileQ files with
  | zero => simp [getFiles]
  | succ numFiles ih =>
    cases fileQ with
    | nil => simp [getFiles]
    | cons pqlIn fileQ => simp [getFiles, ih]

/-- The files of thread `n`, if every thread gets `k` files of the queue. -/
def share (k : ℕ) (queue : List φ) (n : ℕ) : List φ := (block k queue n).reverse

/-- The list that thread `n` stores. -/
def threadList (identifyTrace : φ → List τ) (k : ℕ) (queue : List φ) (n : ℕ) : List τ :=
  (share k queue n).flatMap identifyTrace

/-- The lists of `m` threads, joined. -/
def joinedLists (identifyTrace : φ → List τ) (k m : ℕ) (queue : List φ) : List τ :=
  (List.range m).flatMap (threadList identifyTrace k queue)

/-- What `readHdr_finish` should be posted with. -/
def allTraces (identifyTrace : φ → List τ) (numCPUs : ℕ) (queue : List φ) : List τ :=
  joinedLists identifyTrace (queue.length / maxThreads numCPUs queue.length + 1)
    (maxThreads numCPUs queue.length) queue

/-- The shares of `m` threads are the files. -/
theorem flatMap_share_perm {k m : ℕ} {queue : List φ} (hsize : queue.length ≤ k * m) :
    ((List.range m).flatMap (share k queue)).Perm queue := by
  have hblocks : ((List.range m).flatMap (share k queue)).Perm
      ((List.range m).flatMap (block k queue)) :=
    List.Perm.flatMap_left _ fun n _ => List.reverse_perm _
  rwa [flatMap_block_of_le hsize] at hblocks

/-! ## What a step does -/

/-- The steps, with what each of them finds. -/
inductive Moves (identifyTrace : φ → List τ) (s : Pool φ τ) : Event → Pool φ τ → Prop
  | count (hcounted : s.counted = none) (hmax : s.threads.length < s.maxThreads)
      (hqueue : s.fileQ ≠ []) :
      Moves identifyTrace s .count { s with
        fileQ := s.fileQ.drop s.numFilesPThread
        numThreads := s.numThreads + 1
        counted := some (s.fileQ.take s.numFilesPThread).reverse }
  | start {files : List φ} (hcounted : s.counted = some files) :
      Moves identifyTrace s .start
        { s with counted := none, threads := s.threads ++ [.working files []] }
  | identify {n : ℕ} {pqlIn : φ} {files : List φ} {threadList : List τ}
      (hn : s.threads[n]? = some (.working (pqlIn :: files) threadList)) :
      Moves identifyTrace s (.identify n) { s with
        processed := s.processed ++ [pqlIn]
        threads := s.threads.set n (.working files (threadList ++ identifyTrace pqlIn)) }
  | store {n : ℕ} {threadList : List τ} (hn : s.threads[n]? = some (.working [] threadList)) :
      Moves identifyTrace s (.store n) { s with
        threadTraces :=
          if n < s.maxThreads then s.threadTraces.map (·.set n threadList) else s.threadTraces
        threads := s.threads.set n .leaving }
  | lower {n : ℕ} (hn : s.threads[n]? = some .leaving) (hthreads : s.numThreads ≠ 1) :
      Moves identifyTrace s (.lower n)
        { s with numThreads := s.numThreads - 1, threads := s.threads.set n .done }
  | last {n : ℕ} (hn : s.threads[n]? = some .leaving) (hthreads : s.numThreads = 1) :
      Moves identifyTrace s (.lower n) { s with numThreads := 0, threads := s.threads.set n .last }
  | join {n : ℕ} (hn : s.threads[n]? = some .last) :
      Moves identifyTrace s (.join n) { s with
        traceList := s.traceList ++ (s.threadTraces.getD []).flatten
        threadTraces := none
        threads := s.threads.set n .posting }
  | post {n : ℕ} (hn : s.threads[n]? = some .posting) :
      Moves identifyTrace s (.post n)
        { s with posted := s.posted ++ [s.traceList], threads := s.threads.set n .done }

theorem moves_of_step {identifyTrace : φ → List τ} {s s' : Pool φ τ} {e : Event}
    (h : step identifyTrace s e = some s') : Moves identifyTrace s e s' := by
  cases e with
  | count =>
    simp only [step, getFiles_eq, List.append_nil] at h
    split at h
    case isFalse => simp at h
    case isTrue hguard =>
      split at h
      case h_1 => simp at h
      case h_2 heq hne =>
        obtain ⟨rfl, rfl⟩ := Prod.mk.inj hne
        obtain rfl := Option.some.inj h
        refine .count hguard.1 hguard.2 fun hnil => ?_
        simp [hnil] at heq
  | start =>
    simp only [step] at h
    split at h
    case h_2 => simp at h
    case h_1 hcounted =>
      obtain rfl := Option.some.inj h
      exact .start hcounted
  | identify n =>
    simp only [step] at h
    split at h
    case h_2 => simp at h
    case h_1 hn =>
      obtain rfl := Option.some.inj h
      exact .identify hn
  | store n =>
    simp only [step] at h
    split at h
    case h_2 => simp at h
    case h_1 hn =>
      obtain rfl := Option.some.inj h
      exact .store hn
  | lower n =>
    simp only [step] at h
    split at h
    case h_2 => simp at h
    case h_1 hn =>
      obtain rfl := Option.some.inj h
      by_cases hthreads : s.numThreads = 1
      · simpa [hthreads] using Moves.last hn hthreads
      · have hne : s.numThreads - 1 ≠ 0 := by omega
        simpa [hne] using Moves.lower hn hthreads
  | join n =>
    simp only [step] at h
    split at h
    case h_2 => simp at h
    case h_1 hn =>
      obtain rfl := Option.some.inj h
      exact .join hn
  | post n =>
    simp only [step] at h
    split at h
    case h_2 => simp at h
    case h_1 hn =>
      obtain rfl := Option.some.inj h
      exact .post hn

/-! ## The invariant -/

namespace Thread

/-- It is one of those that `numThreads` counts. -/
@[simp] def active : Thread φ τ → ℕ
  | .working _ _ | .leaving => 1
  | _ => 0

/-- The files that it has not processed. -/
@[simp] def files : Thread φ τ → Multiset φ
  | .working files _ => files
  | _ => 0

@[simp] def joining : Thread φ τ → ℕ
  | .last => 1
  | _ => 0

@[simp] def joined : Thread φ τ → ℕ
  | .posting => 1
  | _ => 0

@[simp] def stored : Thread φ τ → Prop
  | .working _ _ => False
  | _ => True

/-- It has identified the traces of the beginning of its share, and keeps the rest. -/
@[simp] def Holds (identifyTrace : φ → List τ) (share : List φ) : Thread φ τ → Prop
  | .working files threadList =>
    ∃ processed, share = processed ++ files ∧ threadList = processed.flatMap identifyTrace
  | _ => True

theorem files_eq_zero {t : Thread φ τ} (h : t.active = 0) : t.files = 0 := by
  cases t <;> simp at h ⊢

theorem stored_of_active {t : Thread φ τ} (h : t.active = 0) : t.stored := by
  cases t <;> simp at h ⊢

end Thread

namespace Pool

variable (s : Pool φ τ)

def active : ℕ := (s.threads.map Thread.active).sum
def files : Multiset φ := (s.threads.map Thread.files).sum
def joining : ℕ := (s.threads.map Thread.joining).sum
def joined : ℕ := (s.threads.map Thread.joined).sum

/-- The rounds of the launch loop that took their files. -/
def dealt : ℕ := s.threads.length + if s.counted.isSome then 1 else 0

variable {s}

theorem active_eq_zero (h : s.active = 0) {t : Thread φ τ} (ht : t ∈ s.threads) : t.active = 0 :=
  List.sum_eq_zero_iff.1 h _ (List.mem_map_of_mem ht)

theorem files_eq_zero (h : s.active = 0) : s.files = 0 := by
  refine List.sum_eq_zero fun m hm => ?_
  obtain ⟨t, ht, rfl⟩ := List.mem_map.1 hm
  exact Thread.files_eq_zero (active_eq_zero h ht)

end Pool

/-- The lists of the threads that stored theirs, as long as nobody has released them. -/
structure Stored (identifyTrace : φ → List τ) (k m : ℕ) (queue : List φ) (s : Pool φ τ)
    (lists : List (List τ)) : Prop where
  traceList : s.traceList = []
  length : lists.length = m
  thread : ∀ (n : ℕ) (t : Thread φ τ), s.threads[n]? = some t → t.stored →
    lists[n]? = some (threadList identifyTrace k queue n)
  rest : ∀ n, s.threads.length ≤ n → n < m → lists[n]? = some []

/-- What holds while `m` threads get `k` files of `queue` each. -/
structure Inv (identifyTrace : φ → List τ) (k m : ℕ) (queue : List φ) (s : Pool φ τ) : Prop where
  maxThreads : s.maxThreads = m
  numFilesPThread : s.numFilesPThread = k
  numThreads : s.numThreads = (if s.counted.isSome then 1 else 0) + s.active
  fileQ : s.fileQ = queue.drop (k * s.dealt)
  dealt : s.dealt ≤ m
  counted : ∀ files, s.counted = some files → files = share k queue s.threads.length
  holds : ∀ (n : ℕ) (t : Thread φ τ), s.threads[n]? = some t →
    t.Holds identifyTrace (share k queue n)
  /-- Every file is processed, in the hands of a thread, or queued. -/
  kept : (queue : Multiset φ) = s.processed + s.files + (s.counted.getD [] : List φ) + s.fileQ
  stored : ∀ lists, s.threadTraces = some lists → Stored identifyTrace k m queue s lists
  joined : s.threadTraces = none ↔ 0 < s.joined + s.posted.length

section Step

variable {identifyTrace : φ → List τ} {k m : ℕ} {queue : List φ} {s s' : Pool φ τ} {e : Event}

theorem inv_readFiles (identifyTrace : φ → List τ) (numCPUs : ℕ) (queue : List φ) :
    Inv identifyTrace (queue.length / ThreadFile.maxThreads numCPUs queue.length + 1)
      (ThreadFile.maxThreads numCPUs queue.length) queue (readFiles numCPUs queue) where
  maxThreads := rfl
  numFilesPThread := rfl
  numThreads := rfl
  fileQ := by simp [readFiles, Pool.dealt]
  dealt := by simp [readFiles, Pool.dealt]
  counted := nofun
  holds := nofun
  kept := by simp [readFiles, Pool.files]
  stored := by
    intro lists hlists
    obtain rfl := Option.some.inj hlists
    refine ⟨rfl, by simp, nofun, fun n _ hn => ?_⟩
    simp [hn]
  joined := by simp [readFiles, Pool.joined]

/-- The invariant after thread `n` has moved from `a` to `b`. -/
theorem Inv.of_moved {n : ℕ} {a b : Thread φ τ} (hs : Inv identifyTrace k m queue s)
    (hn : s.threads[n]? = some a) (hset : s'.threads = s.threads.set n b)
    (hmax : s'.maxThreads = s.maxThreads) (hper : s'.numFilesPThread = s.numFilesPThread)
    (hfileQ : s'.fileQ = s.fileQ) (hcounted : s'.counted = s.counted)
    (hnum : s'.numThreads + a.active = s.numThreads + b.active)
    (hkept : (s'.processed : Multiset φ) + b.files = s.processed + a.files)
    (hholds : b.Holds identifyTrace (share k queue n))
    (hstored : ∀ lists, s'.threadTraces = some lists → Stored identifyTrace k m queue s' lists)
    (hjoined : s'.threadTraces = none ↔ 0 < s'.joined + s'.posted.length) :
    Inv identifyTrace k m queue s' where
  maxThreads := hmax.trans hs.maxThreads
  numFilesPThread := hper.trans hs.numFilesPThread
  numThreads := by
    have hmove : s'.active + a.active = s.active + b.active := by
      simpa only [Pool.active, hset] using sum_map_set Thread.active hn b
    have hthreads := hs.numThreads
    rw [hcounted]
    omega
  fileQ := by
    have hdealt : s'.dealt = s.dealt := by simp [Pool.dealt, hset, hcounted]
    rw [hfileQ, hdealt, hs.fileQ]
  dealt := by
    have hdealt : s'.dealt = s.dealt := by simp [Pool.dealt, hset, hcounted]
    exact hdealt.trans_le hs.dealt
  counted := by
    rw [hcounted, hset, List.length_set]
    exact hs.counted
  holds := by
    intro j t hj
    rw [hset, List.getElem?_set] at hj
    split_ifs at hj with heq hlt
    · obtain rfl := Option.some.inj hj
      exact heq ▸ hholds
    · exact hs.holds j t hj
  kept := by
    have hmove : s'.files + a.files = s.files + b.files := by
      simpa only [Pool.files, hset] using sum_map_set Thread.files hn b
    rw [hcounted, hfileQ]
    refine add_right_cancel (b := a.files + b.files) ?_
    calc (queue : Multiset φ) + (a.files + b.files)
        = s.processed + a.files + (s.files + b.files) + (s.counted.getD [] : List φ) + s.fileQ := by
          rw [hs.kept]; abel
      _ = s'.processed + b.files + (s'.files + a.files) + (s.counted.getD [] : List φ) +
            s.fileQ := by
          rw [hkept, hmove]
      _ = _ := by abel
  stored := hstored
  joined := hjoined

/-- The stored lists after a thread has moved that stores nothing. -/
theorem Stored.of_moved {n : ℕ} {a b : Thread φ τ} {lists : List (List τ)}
    (h : Stored identifyTrace k m queue s lists) (hn : s.threads[n]? = some a)
    (hset : s'.threads = s.threads.set n b) (htraceList : s'.traceList = s.traceList)
    (hb : b.stored → a.stored) : Stored identifyTrace k m queue s' lists where
  traceList := htraceList.trans h.traceList
  length := h.length
  thread := by
    intro j t hj ht
    rw [hset, List.getElem?_set] at hj
    split_ifs at hj with heq hlt
    · obtain rfl := Option.some.inj hj
      exact heq ▸ h.thread n a hn (hb ht)
    · exact h.thread j t hj ht
  rest := by
    rw [hset, List.length_set]
    exact h.rest

theorem joined_set {n : ℕ} {a b : Thread φ τ} (hn : s.threads[n]? = some a)
    (hset : s'.threads = s.threads.set n b) : s'.joined + a.joined = s.joined + b.joined := by
  simpa only [Pool.joined, hset] using sum_map_set Thread.joined hn b

theorem joined_pos_iff {n : ℕ} {a b : Thread φ τ} (hn : s.threads[n]? = some a)
    (hset : s'.threads = s.threads.set n b) (h : b.joined = a.joined)
    (hposted : s'.posted = s.posted) :
    0 < s.joined + s.posted.length ↔ 0 < s'.joined + s'.posted.length := by
  have hmove := joined_set hn hset
  rw [hposted]
  omega

theorem joined_pos_of_set {n : ℕ} {a b : Thread φ τ} (hpos : 0 < s'.joined + s'.posted.length)
    (hn : s.threads[n]? = some a) (hset : s'.threads = s.threads.set n b) (h : b.joined = a.joined)
    (hposted : s'.posted = s.posted) : 0 < s.joined + s.posted.length :=
  (joined_pos_iff hn hset h hposted).2 hpos

/-- The invariant after thread `n` has moved and has neither stored, joined nor posted a list. -/
theorem Inv.of_moved_quiet {n : ℕ} {a b : Thread φ τ} (hs : Inv identifyTrace k m queue s)
    (hn : s.threads[n]? = some a) (hset : s'.threads = s.threads.set n b)
    (hmax : s'.maxThreads = s.maxThreads) (hper : s'.numFilesPThread = s.numFilesPThread)
    (hfileQ : s'.fileQ = s.fileQ) (hcounted : s'.counted = s.counted)
    (hnum : s'.numThreads + a.active = s.numThreads + b.active)
    (hkept : (s'.processed : Multiset φ) + b.files = s.processed + a.files)
    (hholds : b.Holds identifyTrace (share k queue n)) (hstored : b.stored → a.stored)
    (hjoined : b.joined = a.joined) (htraces : s'.threadTraces = s.threadTraces)
    (htraceList : s'.traceList = s.traceList) (hposted : s'.posted = s.posted) :
    Inv identifyTrace k m queue s' := by
  refine hs.of_moved hn hset hmax hper hfileQ hcounted hnum hkept hholds ?_ ?_
  · intro lists hlists
    exact (hs.stored lists (htraces ▸ hlists)).of_moved hn hset htraceList hstored
  · rw [htraces, hs.joined]
    exact joined_pos_iff hn hset hjoined hposted

theorem joined_set_succ {n : ℕ} {a b : Thread φ τ} (hn : s.threads[n]? = some a)
    (hset : s'.threads = s.threads.set n b) (h : b.joined = a.joined + 1) :
    s'.joined = s.joined + 1 := by
  have hmove := joined_set hn hset
  omega

/-- The stored lists after thread `n` has stored its own. -/
theorem Stored.store {n : ℕ} {a : Thread φ τ} {lists : List (List τ)}
    (h : Stored identifyTrace k m queue s lists) (hn : s.threads[n]? = some a) {tl : List τ}
    (htl : tl = threadList identifyTrace k queue n) (hnm : n < m)
    (hset : s'.threads = s.threads.set n .leaving) (htraceList : s'.traceList = s.traceList) :
    Stored identifyTrace k m queue s' (lists.set n tl) where
  traceList := htraceList.trans h.traceList
  length := by rw [List.length_set, h.length]
  thread := by
    intro j t hj ht
    by_cases heq : n = j
    · subst heq
      rw [List.getElem?_set_self (h.length.symm ▸ hnm), htl]
    · rw [hset, List.getElem?_set_ne heq] at hj
      rw [List.getElem?_set_ne heq]
      exact h.thread j t hj ht
  rest := by
    intro j hj hjm
    obtain ⟨hlt, -⟩ := List.getElem?_eq_some_iff.1 hn
    rw [hset, List.length_set] at hj
    rw [List.getElem?_set_ne (by omega)]
    exact h.rest j hj hjm

theorem Moves.inv (h : Moves identifyTrace s e s') (hs : Inv identifyTrace k m queue s) :
    Inv identifyTrace k m queue s' := by
  cases h with
  | count hcounted hmax hqueue =>
    have hnum := hs.numThreads
    have hfileQ := hs.fileQ
    have hdealt : s.dealt = s.threads.length := by simp [Pool.dealt, hcounted]
    rw [hdealt] at hfileQ
    simp only [hcounted] at hnum
    refine ⟨hs.maxThreads, hs.numFilesPThread, ?_, ?_, ?_, ?_, hs.holds, ?_, ?_, hs.joined⟩
    · simp [hnum, Pool.active, add_comm]
    · simp [Pool.dealt, hs.numFilesPThread, hfileQ, Nat.mul_succ]
    · simpa [Pool.dealt, ← hs.maxThreads] using hmax
    · intro files hfiles
      obtain rfl := Option.some.inj hfiles
      simp [share, block, hs.numFilesPThread, hfileQ]
    · have hkept := hs.kept
      have hsplit : (s.fileQ : Multiset φ) = s.fileQ.take s.numFilesPThread +
          s.fileQ.drop s.numFilesPThread := by
        rw [Multiset.coe_add, List.take_append_drop]
      rw [hcounted, hsplit] at hkept
      simpa [Pool.files, add_assoc] using hkept
    · intro lists hlists
      obtain ⟨htraceList, hlength, hthread, hrest⟩ := hs.stored lists hlists
      exact ⟨htraceList, hlength, hthread, hrest⟩
  | @start files hcounted =>
    have hshare := hs.counted files hcounted
    have hnum := hs.numThreads
    have hdealt : s.dealt = s.threads.length + 1 := by simp [Pool.dealt, hcounted]
    have hkept := hs.kept
    rw [hcounted] at hnum hkept
    refine ⟨hs.maxThreads, hs.numFilesPThread, ?_, ?_, ?_, ?_, ?_, ?_, ?_, ?_⟩
    · simpa [Pool.active, add_comm] using hnum
    · simpa [Pool.dealt, hcounted] using hs.fileQ
    · simpa [Pool.dealt, hcounted] using hs.dealt
    · intro files hfiles
      cases hfiles
    · intro j t hj
      rcases getElem?_concat_cases hj with hj | ⟨rfl, rfl⟩
      · exact hs.holds j t hj
      · exact ⟨[], hshare.symm, rfl⟩
    · simpa [Pool.files, add_assoc, add_comm, add_left_comm] using hkept
    · intro lists hlists
      obtain ⟨htraceList, hlength, hthread, hrest⟩ := hs.stored lists hlists
      refine ⟨htraceList, hlength, fun j t hj ht => ?_, fun j hj => hrest j ?_⟩
      · rcases getElem?_concat_cases hj with hj | ⟨rfl, rfl⟩
        · exact hthread j t hj ht
        · exact ht.elim
      · simp at hj
        omega
    · simpa [Pool.joined] using hs.joined
  | @identify n pqlIn files tl hn =>
    obtain ⟨processed, hshare, rfl⟩ := hs.holds n _ hn
    refine hs.of_moved_quiet hn rfl rfl rfl rfl rfl (by simp) ?_ ?_ (by simp) (by simp) rfl rfl rfl
    · simp [← Multiset.coe_add, add_assoc]
    · exact ⟨processed ++ [pqlIn], by simp [hshare], by simp⟩
  | @store n tl hn =>
    obtain ⟨processed, hshare, rfl⟩ := hs.holds n _ hn
    obtain ⟨hlt, -⟩ := List.getElem?_eq_some_iff.1 hn
    have hnm : n < s.maxThreads := by
      have hdealt := hs.dealt
      rw [Pool.dealt] at hdealt
      rw [hs.maxThreads]
      omega
    refine hs.of_moved hn rfl rfl rfl rfl rfl (by simp) (by simp) (by simp) ?_ ?_
    · intro lists hlists
      rw [if_pos hnm, Option.map_eq_some_iff] at hlists
      obtain ⟨lists₀, hlists₀, rfl⟩ := hlists
      exact (hs.stored lists₀ hlists₀).store hn (by simp [threadList, hshare])
        (hs.maxThreads ▸ hnm) rfl rfl
    · rw [if_pos hnm, Option.map_eq_none_iff, hs.joined]
      exact joined_pos_iff hn rfl (by simp) rfl
  | lower hn hthreads =>
    exact hs.of_moved_quiet hn rfl rfl rfl rfl rfl (by simp) (by simp) (by simp) (by simp) (by simp)
      rfl rfl rfl
  | last hn hthreads =>
    exact hs.of_moved_quiet hn rfl rfl rfl rfl rfl (by simp [hthreads]) (by simp) (by simp)
      (by simp) (by simp) rfl rfl rfl
  | join hn =>
    refine hs.of_moved hn rfl rfl rfl rfl rfl (by simp) (by simp) (by simp) ?_ ?_
    · intro lists hlists
      cases hlists
    · refine iff_of_true rfl ?_
      rw [joined_set_succ hn rfl (by simp)]
      omega
  | post hn =>
    have hnone : s.threadTraces = none :=
      hs.joined.2 (Nat.add_pos_left (le_sum_map (f := Thread.joined) hn) _)
    refine hs.of_moved hn rfl rfl rfl rfl rfl (by simp) (by simp) (by simp) ?_ ?_
    · intro lists hlists
      rw [hnone] at hlists
      simp at hlists
    · exact iff_of_true hnone (by simp)

/-! ## The counter -/

/-- `numThreads`, the queue and the posts as a counter that announces the end. -/
def Pool.latch (s : Pool φ τ) : Latch :=
  ⟨s.launching, s.numThreads.toNat, s.joining + s.joined, s.posted.length⟩

theorem announcing_set {n : ℕ} {a b : Thread φ τ} (hn : s.threads[n]? = some a)
    (hset : s'.threads = s.threads.set n b) :
    s'.joining + s'.joined + (a.joining + a.joined) =
      s.joining + s.joined + (b.joining + b.joined) := by
  have hjoining : s'.joining + a.joining = s.joining + b.joining := by
    simpa only [Pool.joining, hset] using sum_map_set Thread.joining hn b
  have hjoined := joined_set hn hset
  omega

theorem announcing_eq {n : ℕ} {a b : Thread φ τ} (hn : s.threads[n]? = some a)
    (hset : s'.threads = s.threads.set n b) (h : b.joining + b.joined = a.joining + a.joined) :
    s'.joining + s'.joined = s.joining + s.joined := by
  have hmove := announcing_set hn hset
  omega

theorem announcing_succ {n : ℕ} {a b : Thread φ τ} (hn : s.threads[n]? = some a)
    (hset : s'.threads = s.threads.set n b) (h : b.joining + b.joined = a.joining + a.joined + 1) :
    s'.joining + s'.joined = s.joining + s.joined + 1 := by
  have hmove := announcing_set hn hset
  omega

theorem announcing_pred {n : ℕ} {a b : Thread φ τ} (hn : s.threads[n]? = some a)
    (hset : s'.threads = s.threads.set n b) (h : a.joining + a.joined = b.joining + b.joined + 1) :
    s.joining + s.joined = s'.joining + s'.joined + 1 := by
  have hmove := announcing_set hn hset
  omega

theorem Moves.latch_step (h : Moves identifyTrace s e s') (hs : Inv identifyTrace k m queue s) :
    s.latch.Step s'.latch := by
  have hnum := hs.numThreads
  cases h with
  | count hcounted hmax hqueue =>
    refine .of_raise ?_ ?_ rfl (by simp [Pool.latch])
    · simpa [Pool.latch, Pool.launching] using hqueue
    · simp only [Pool.latch]
      omega
  | start hcounted =>
    exact .of_eq (Latch.ext rfl rfl (by simp [Pool.latch, Pool.joining, Pool.joined]) rfl)
  | identify hn | store hn | join hn =>
    exact .of_eq (Latch.ext rfl rfl (announcing_eq hn rfl (by simp)).symm rfl)
  | lower hn hthreads =>
    have hactive : 1 ≤ s.active := le_sum_map (f := Thread.active) hn
    refine .of_lower rfl ?_ ?_ (announcing_eq hn rfl (by simp)) rfl
    all_goals simp only [Pool.latch]; omega
  | last hn hthreads =>
    refine .of_last rfl ?_ rfl (announcing_succ hn rfl rfl) rfl
    simp [Pool.latch, hthreads]
  | post hn =>
    exact .of_post rfl rfl (announcing_pred hn rfl rfl) (by simp [Pool.latch])

theorem Moves.late_iff (h : Moves identifyTrace s e s') (hs : Inv identifyTrace k m queue s) :
    Late s e ↔ ¬Latch.Early s.latch s'.latch := by
  have hnum := hs.numThreads
  cases h with
  | count =>
    refine iff_of_true (fun h => nomatch h.1) fun hearly => ?_
    have hzero : (s.numThreads + 1).toNat = 0 := hearly.2.2
    omega
  | start | identify | store | join | post =>
    exact iff_of_true (fun h => nomatch h.1) fun hearly =>
      absurd (hearly.2.1.symm.trans hearly.2.2) one_ne_zero
  | lower hn hthreads =>
    refine iff_of_true (fun h => hthreads h.2.2) fun hearly => ?_
    have hone : s.numThreads.toNat = 1 := hearly.2.1
    omega
  | last hn hthreads =>
    constructor
    · intro hlate hearly
      exact hlate ⟨rfl, hearly.1, hthreads⟩
    · intro hearly h
      exact hearly ⟨h.2.1, by simp [Pool.latch, hthreads], rfl⟩

/-- `readFiles` and its threads are a system with a counter that announces the end. -/
theorem latchSystem (identifyTrace : φ → List τ) (k m : ℕ) (queue : List φ) :
    LatchSystem (step identifyTrace) (Inv identifyTrace k m queue) Pool.latch Late where
  inv_step hs hstep := (moves_of_step hstep).inv hs
  latch_step hs hstep := (moves_of_step hstep).latch_step hs
  late_iff hs hstep := (moves_of_step hstep).late_iff hs

/-! ## The lists -/

/-- When somebody announces the end in time, no thread and no file is left. -/
theorem Inv.idle_of_once (hs : Inv identifyTrace k m queue s) (honce : s.latch.Once)
    (h : 0 < s.joining + s.joined + s.posted.length) :
    s.joining + s.joined + s.posted.length = 1 ∧ s.fileQ = [] ∧ s.counted = none ∧
      s.active = 0 := by
  obtain ⟨hone, hmore, hcount⟩ := honce.over h
  have hnum := hs.numThreads
  have hzero : s.numThreads.toNat = 0 := hcount
  refine ⟨hone, by simpa [Pool.latch, Pool.launching] using hmore, ?_, by omega⟩
  cases hcounted : s.counted with
  | none => rfl
  | some files =>
    simp [hcounted] at hnum
    omega

/-- The lists that are joined when no thread and no file is left. -/
theorem Inv.flatten_eq (hs : Inv identifyTrace k m queue s) {lists : List (List τ)}
    (hlists : s.threadTraces = some lists) (hqueue : s.fileQ = []) (hcounted : s.counted = none)
    (hactive : s.active = 0) :
    s.traceList ++ lists.flatten = joinedLists identifyTrace k m queue := by
  obtain ⟨htraceList, hlength, hthread, hrest⟩ := hs.stored lists hlists
  have hdealt : s.dealt = s.threads.length := by simp [Pool.dealt, hcounted]
  have hlists : lists = (List.range m).map (threadList identifyTrace k queue) := by
    refine List.ext_getElem? fun n => ?_
    rcases lt_or_ge n m with hnm | hnm
    · rw [List.getElem?_map, List.getElem?_range hnm, Option.map_some]
      rcases lt_or_ge n s.threads.length with hlt | hle
      · have hn := List.getElem?_eq_getElem hlt
        exact hthread n _ hn
          (Thread.stored_of_active (Pool.active_eq_zero hactive (List.getElem_mem hlt)))
      · -- Threads that were not started have no files.
        have hdrop : queue.drop (k * n) = [] := by
          have hfileQ := hs.fileQ
          rw [hqueue, hdealt, eq_comm, List.drop_eq_nil_iff] at hfileQ
          exact List.drop_eq_nil_iff.2 (hfileQ.trans (Nat.mul_le_mul_left k hle))
        rw [hrest n hle hnm]
        simp [threadList, share, block, hdrop]
    · rw [List.getElem?_eq_none (by omega), List.getElem?_eq_none (by simpa using hnm)]
  rw [htraceList, hlists, List.nil_append, joinedLists, List.flatMap_def]

/-- What holds besides in a run that announces the end in time. -/
structure Timely (identifyTrace : φ → List τ) (k m : ℕ) (queue : List φ) (s : Pool φ τ) : Prop where
  inv : Inv identifyTrace k m queue s
  once : s.latch.Once
  traceList : 0 < s.joined + s.posted.length → s.traceList = joinedLists identifyTrace k m queue
  posted : ∀ l ∈ s.posted, l = joinedLists identifyTrace k m queue

theorem Moves.timely (h : Moves identifyTrace s e s') (hs : Timely identifyTrace k m queue s)
    (hlate : Late s e) : Timely identifyTrace k m queue s' := by
  obtain ⟨hinv, honce, htraceList, hposted⟩ := hs
  have honce' := (h.latch_step hinv).once ((h.late_iff hinv).1 hlate) honce
  refine ⟨h.inv hinv, honce', ?_, ?_⟩
  · cases h with
    | count => exact htraceList
    | start => simpa [Pool.joined] using htraceList
    | identify hn | store hn | lower hn | last hn =>
      exact fun hpos => htraceList (joined_pos_of_set hpos hn rfl (by simp) rfl)
    | join hn =>
      -- This thread is the only one that announces the end, so nobody has released the lists.
      intro _
      have hjoining : 1 ≤ s.joining := le_sum_map (f := Thread.joining) hn
      obtain ⟨hone, hqueue, hcounted, hactive⟩ := hinv.idle_of_once honce (by omega)
      cases hlists : s.threadTraces with
      | none =>
        have hpos := hinv.joined.1 hlists
        omega
      | some lists => exact hinv.flatten_eq hlists hqueue hcounted hactive
    | post hn =>
      intro _
      exact htraceList (Nat.add_pos_left (le_sum_map (f := Thread.joined) hn) _)
  · cases h with
    | post hn =>
      intro l hl
      rcases List.mem_append.1 hl with hl | hl
      · exact hposted l hl
      · obtain rfl := List.mem_singleton.1 hl
        exact htraceList (Nat.add_pos_left (le_sum_map (f := Thread.joined) hn) _)
    | _ => exact hposted

/-! ## The end -/

/-- The steps that a thread has before it. -/
@[simp] def Thread.work : Thread φ τ → ℕ
  | .working files _ => 6 + files.length
  | .leaving => 4
  | .last => 3
  | .posting => 2
  | .done => 0

/-- A bound for the steps that are left. -/
def Pool.work (s : Pool φ τ) : ℕ :=
  9 * s.fileQ.length + (s.counted.elim 0 fun files => 7 + files.length) +
    (s.threads.map Thread.work).sum

theorem work_of_set {n : ℕ} {a b : Thread φ τ} (hn : s.threads[n]? = some a)
    (hset : s'.threads = s.threads.set n b) (hfileQ : s'.fileQ = s.fileQ)
    (hcounted : s'.counted = s.counted) (h : b.work < a.work) : s'.work < s.work := by
  have hmove := sum_map_set Thread.work hn b
  simp only [Pool.work, hset, hfileQ, hcounted]
  omega

theorem Moves.work_lt (h : Moves identifyTrace s e s') (hk : 0 < s.numFilesPThread) :
    s'.work < s.work := by
  cases h with
  | count hcounted hmax hqueue =>
    have hlength := List.length_pos_iff.2 hqueue
    simp only [Pool.work, hcounted, Option.elim, List.length_drop, List.length_reverse,
      List.length_take]
    omega
  | start hcounted =>
    simp only [Pool.work, hcounted, Option.elim, sum_map_concat, Thread.work]
    omega
  | identify hn | store hn | lower hn | last hn | join hn | post hn =>
    exact work_of_set hn rfl rfl rfl (by simp)

theorem step_of_not_done (identifyTrace : φ → List τ) {n : ℕ} {t : Thread φ τ}
    (hn : s.threads[n]? = some t) (ht : t ≠ .done) :
    ∃ e s', step identifyTrace s e = some s' := by
  cases t with
  | working files threadList =>
    cases files with
    | nil => exact ⟨.store n, by simp [step, hn]⟩
    | cons => exact ⟨.identify n, by simp [step, hn]⟩
  | leaving => exact ⟨.lower n, by simp [step, hn]⟩
  | last => exact ⟨.join n, by simp [step, hn]⟩
  | posting => exact ⟨.post n, by simp [step, hn]⟩
  | done => exact absurd rfl ht

/-- At the end the queue is empty and all threads are done. -/
theorem Ended.done (h : Ended identifyTrace s) (hs : Inv identifyTrace k m queue s) (hk : 0 < k)
    (hsize : queue.length ≤ k * m) :
    s.fileQ = [] ∧ s.numThreads = 0 ∧ s.joining + s.joined = 0 := by
  have hcounted : s.counted = none := by
    have hstart := h .start
    cases hc : s.counted with
    | none => rfl
    | some files => simp [step, hc] at hstart
  have hfileQ : s.fileQ = [] := by
    by_contra hne
    have hcount := h .count
    have hdealt : s.threads.length < s.maxThreads := by
      have hdrop := hs.fileQ
      rw [Pool.dealt, hcounted] at hdrop
      rw [hdrop, List.drop_eq_nil_iff, not_le] at hne
      rw [hs.maxThreads]
      exact lt_of_mul_lt_mul_left (hne.trans_le hsize) (Nat.zero_le k)
    have hfiles : (s.fileQ.take s.numFilesPThread).reverse ≠ [] := by
      rw [hs.numFilesPThread]
      simpa [hk.ne'] using hne
    simp only [step, hcounted, hdealt, and_self, if_true, getFiles_eq, List.append_nil] at hcount
    exact Option.some_ne_none _ hcount
  have hdone : ∀ t ∈ s.threads, t = .done := by
    intro t ht
    obtain ⟨n, hn⟩ := List.mem_iff_getElem?.1 ht
    by_contra hne
    obtain ⟨e, s', hstep⟩ := step_of_not_done identifyTrace hn hne
    simp [h e] at hstep
  have hsum : ∀ f : Thread φ τ → ℕ, f .done = 0 → (s.threads.map f).sum = 0 := by
    intro f hf
    refine List.sum_eq_zero fun j hj => ?_
    obtain ⟨t, ht, rfl⟩ := List.mem_map.1 hj
    rw [hdone t ht, hf]
  refine ⟨hfileQ, ?_, ?_⟩
  · rw [hs.numThreads, hcounted, Pool.active, hsum _ rfl]
    rfl
  · rw [Pool.joining, Pool.joined, hsum _ rfl, hsum _ rfl]

end Step

/-! ## The whole of `readFiles` -/

/-- How many threads have begun to join the lists, to release them and to post the result. -/
def Pool.finalised (s : Pool φ τ) : ℕ := s.joining + s.joined + s.posted.length

/-- No file is processed twice, and the lists are joined and posted at most once, after all files
are processed and with every trace once. -/
structure Sound (identifyTrace : φ → List τ) (queue : List φ) (s : Pool φ τ) : Prop where
  processed : s.processed.Subperm queue
  finalised : s.finalised ≤ 1
  all_processed : 0 < s.finalised → s.processed.Perm queue
  posted : ∀ l ∈ s.posted, l.Perm (queue.flatMap identifyTrace)

/-- Every file is processed once, and one list is posted, with every trace once. -/
structure Complete (identifyTrace : φ → List τ) (queue : List φ) (s : Pool φ τ) : Prop where
  processed : s.processed.Perm queue
  posted : ∃ l, s.posted = [l] ∧ l.Perm (queue.flatMap identifyTrace)

section Run

variable {identifyTrace : φ → List τ} {numCPUs : ℕ} {queue : List φ} {s : Pool φ τ}
  {es : List Event}

theorem maxThreads_pos (hqueue : queue ≠ []) (hcpus : 0 < numCPUs) :
    0 < maxThreads numCPUs queue.length := by
  have hlength := List.length_pos_iff.2 hqueue
  unfold maxThreads MT_FACTOR
  split_ifs <;> omega

/-- The threads have room for all files. -/
theorem length_le_shares (queue : List φ) {m : ℕ} (hm : 0 < m) :
    queue.length ≤ (queue.length / m + 1) * m := by
  rw [mul_comm]
  exact (Nat.lt_mul_div_succ _ hm).le

theorem joinedLists_perm {k m : ℕ} (hsize : queue.length ≤ k * m) :
    (joinedLists identifyTrace k m queue).Perm (queue.flatMap identifyTrace) := by
  have hflat := (flatMap_share_perm hsize).flatMap_right identifyTrace
  rwa [List.flatMap_assoc] at hflat

/-- The list that `readHdr_finish` should be posted with holds every trace once. -/
theorem allTraces_perm (hqueue : queue ≠ []) (hcpus : 0 < numCPUs) :
    (allTraces identifyTrace numCPUs queue).Perm (queue.flatMap identifyTrace) :=
  joinedLists_perm (length_le_shares queue (maxThreads_pos hqueue hcpus))

theorem once_readFiles (hqueue : queue ≠ []) :
    (readFiles numCPUs queue : Pool φ τ).latch.Once := by
  have hlaunching : (readFiles numCPUs queue : Pool φ τ).launching = true := by
    simpa [Pool.launching, readFiles] using hqueue
  simp [Latch.Once, Latch.due, Pool.latch, hlaunching]
  exact ⟨⟨rfl, rfl⟩, rfl⟩

theorem Inv.processed_subperm {k m : ℕ} (hs : Inv identifyTrace k m queue s) :
    s.processed.Subperm queue := by
  rw [← Multiset.coe_le, hs.kept, add_assoc, add_assoc]
  exact Multiset.le_add_right _ _

theorem Inv.processed_perm {k m : ℕ} (hs : Inv identifyTrace k m queue s) (hqueue : s.fileQ = [])
    (hcounted : s.counted = none) (hactive : s.active = 0) : s.processed.Perm queue := by
  have hkept := hs.kept
  rw [hqueue, hcounted, Pool.files_eq_zero hactive] at hkept
  exact (Multiset.coe_eq_coe.1 (by simpa using hkept)).symm

theorem Timely.sound {k m : ℕ} (hs : Timely identifyTrace k m queue s)
    (hsize : queue.length ≤ k * m) : Sound identifyTrace queue s where
  processed := hs.inv.processed_subperm
  finalised := by
    rcases Nat.eq_zero_or_pos s.finalised with hzero | hpos
    · omega
    · exact (hs.inv.idle_of_once hs.once hpos).1.le
  all_processed := by
    intro hpos
    obtain ⟨-, hqueue, hcounted, hactive⟩ := hs.inv.idle_of_once hs.once hpos
    exact hs.inv.processed_perm hqueue hcounted hactive
  posted := by
    intro l hl
    rw [hs.posted l hl]
    exact joinedLists_perm hsize

theorem run_inv (hrun : es.foldlM (step identifyTrace) (readFiles numCPUs queue) = some s) :
    Inv identifyTrace (queue.length / maxThreads numCPUs queue.length + 1)
      (maxThreads numCPUs queue.length) queue s :=
  (latchSystem identifyTrace _ _ queue).inv_run (inv_readFiles identifyTrace numCPUs queue) hrun

theorem run_timely (hqueue : queue ≠ [])
    (hok : Allowed (step identifyTrace) Late (readFiles numCPUs queue) es)
    (hrun : es.foldlM (step identifyTrace) (readFiles numCPUs queue) = some s) :
    Timely identifyTrace (queue.length / maxThreads numCPUs queue.length + 1)
      (maxThreads numCPUs queue.length) queue s := by
  refine run_preserves (fun _ _ _ hs hlate hstep => (moves_of_step hstep).timely hs hlate) ?_ hok
    hrun
  exact ⟨inv_readFiles identifyTrace numCPUs queue, once_readFiles hqueue, nofun, nofun⟩

/-- The threads do a bounded number of steps, whatever their order. -/
theorem length_run_le (hrun : es.foldlM (step identifyTrace) (readFiles numCPUs queue) = some s) :
    es.length ≤ 9 * queue.length := by
  have hle := run_length_le
    (fun _ _ _ hs hstep => ⟨(moves_of_step hstep).inv hs,
      (moves_of_step hstep).work_lt (hs.numFilesPThread ▸ Nat.succ_pos _)⟩)
    (inv_readFiles identifyTrace numCPUs queue) hrun
  have hwork : (readFiles numCPUs queue : Pool φ τ).work = 9 * queue.length := by
    simp [Pool.work, readFiles]
  omega

/-- A run that has ended, with every thread done in time, has posted the joined lists. -/
theorem posted_eq_allTraces (hqueue : queue ≠ []) (hcpus : 0 < numCPUs)
    (hok : Allowed (step identifyTrace) Late (readFiles numCPUs queue) es)
    (hrun : es.foldlM (step identifyTrace) (readFiles numCPUs queue) = some s)
    (hend : Ended identifyTrace s) : s.posted = [allTraces identifyTrace numCPUs queue] := by
  have htimely := run_timely hqueue hok hrun
  obtain ⟨hfileQ, hnum, hjoin⟩ := hend.done htimely.inv (Nat.succ_pos _)
    (length_le_shares queue (maxThreads_pos hqueue hcpus))
  have honce := htimely.once
  have hdue : s.latch.due = 1 := by
    simp [Latch.due, Pool.latch, Pool.launching, hfileQ, hnum]
  rw [Latch.Once, hdue] at honce
  obtain ⟨l, hl⟩ : ∃ l, s.posted = [l] := by
    refine List.length_eq_one_iff.1 ?_
    simp only [Pool.latch] at honce
    omega
  rw [hl, htimely.posted l (by simp [hl])]
  rfl

/-- Without files or processors no thread is started. -/
theorem posted_of_no_thread (h : queue = [] ∨ numCPUs = 0)
    (hrun : es.foldlM (step identifyTrace) (readFiles numCPUs queue) = some s) : s.posted = [] := by
  cases es with
  | nil =>
    obtain rfl := Option.some.inj hrun
    rfl
  | cons e es =>
    rw [List.foldlM_cons] at hrun
    obtain ⟨s₁, hs₁, -⟩ := Option.bind_eq_some_iff.1 hrun
    cases moves_of_step hs₁ with
    | count hcounted hmax hne =>
      rcases h with rfl | rfl
      · exact absurd rfl hne
      · simp [readFiles, maxThreads, MT_FACTOR] at hmax
    | start hc => simp [readFiles] at hc
    | identify hn | store hn | lower hn | last hn | join hn | post hn =>
      simp [readFiles] at hn

/-- `readFiles` processes every file once and posts `readHdr_finish` once, after that and with every
trace once, if there are files and `numThreads` does not come to zero while there are files to deal
out; no other run that has ended does. -/
theorem readFiles_once (identifyTrace : φ → List τ) (numCPUs : ℕ) (queue : List φ)
    (es : List Event) {s : Pool φ τ}
    (hrun : es.foldlM (step identifyTrace) (readFiles numCPUs queue) = some s) :
    (queue ≠ [] → 0 < numCPUs →
      Allowed (step identifyTrace) Late (readFiles numCPUs queue) es →
        Sound identifyTrace queue s) ∧
    (Ended identifyTrace s →
      (Complete identifyTrace queue s ↔ queue ≠ [] ∧ 0 < numCPUs ∧
        Allowed (step identifyTrace) Late (readFiles numCPUs queue) es)) ∧
    es.length ≤ 9 * queue.length := by
  refine ⟨fun hqueue hcpus hok => ?_, fun hend => ⟨fun h => ?_, ?_⟩, length_run_le hrun⟩
  · exact (run_timely hqueue hok hrun).sound (length_le_shares queue (maxThreads_pos hqueue hcpus))
  · have hstarts : queue ≠ [] ∧ 0 < numCPUs := by
      by_contra hno
      rw [not_and_or, not_not, Nat.not_lt, Nat.le_zero] at hno
      obtain ⟨l, hl, -⟩ := h.posted
      rw [posted_of_no_thread hno hrun] at hl
      simp at hl
    obtain ⟨hqueue, hcpus⟩ := hstarts
    have hinv := run_inv hrun
    obtain ⟨hfileQ, hnum, hjoin⟩ := hend.done hinv (Nat.succ_pos _)
      (length_le_shares queue (maxThreads_pos hqueue hcpus))
    have hiff := (latchSystem identifyTrace _ _ queue).posted_iff
      (inv_readFiles identifyTrace numCPUs queue) (once_readFiles hqueue) hrun
      (by simp [Pool.latch, Pool.launching, hfileQ]) (by simp [Pool.latch, hnum]) hjoin
    obtain ⟨l, hl, -⟩ := h.posted
    exact ⟨hqueue, hcpus, hiff.1 (by simp [Pool.latch, hl])⟩
  · rintro ⟨hqueue, hcpus, hok⟩
    have hposted := posted_eq_allTraces hqueue hcpus hok hrun hend
    refine ⟨?_, _, hposted, allTraces_perm hqueue hcpus⟩
    have htimely := run_timely hqueue hok hrun
    exact (htimely.sound (length_le_shares queue (maxThreads_pos hqueue hcpus))).all_processed
      (by simp [Pool.finalised, hposted])

end Run

/-- Two threads, of which the first leaves when both are counted. -/
def patientThreads : List Event :=
  [.count, .start, .count, .start, .identify 0, .store 0, .lower 0, .identify 1, .store 1, .lower 1,
    .join 1, .post 1]

theorem readFiles_once_patientThreads :
    ∃ s, patientThreads.foldlM (step fun f => [f]) (readFiles 1 ["a", "b"]) = some s ∧
      Sound (fun f => [f]) ["a", "b"] s := by
  have hsome : (patientThreads.foldlM (step fun f => [f]) (readFiles 1 ["a", "b"])).isSome := by
    decide
  obtain ⟨s, hrun⟩ := Option.isSome_iff_exists.1 hsome
  exact ⟨s, hrun, (readFiles_once _ 1 ["a", "b"] patientThreads hrun).1 (by decide) (by decide)
    (by decide)⟩

/-- Two threads, of which the first leaves before the second one is counted. -/
def fastThread : List Event :=
  [.count, .start, .identify 0, .store 0, .lower 0, .join 0, .post 0, .count, .start, .identify 1,
    .store 1, .lower 1, .join 1, .post 1]

/-- The list of the first thread is posted twice, the traces of the second one are lost. -/
theorem readFiles_fastThread :
    ∃ s, fastThread.foldlM (step fun f => [f]) (readFiles 1 ["a", "b"]) = some s ∧
      s.posted = [["a"], ["a"]] :=
  ⟨_, rfl, rfl⟩

end PQL.ThreadFile
