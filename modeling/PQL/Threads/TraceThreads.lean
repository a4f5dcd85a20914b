import PQL.Data.Readers
import PQL.Lib.Latch

/-!
# The threads that read the data

`readTraces` starts its threads one after the other while those it has started already take traces
from the queue.  Every queued trace is read exactly once; `readData_finish` is posted exactly once
if and only if `numThreads` does not come to zero while the launch loop has a thread to count
(`readTraces_once`).
-/

namespace PQL.ThreadTrace

/-- Where a thread that runs `_getTraces` is. -/
inductive Thread (τ : Type) where
  /-- It calls `getNextTrace`. -/
  | next
  /-- It reads the data of a trace. -/
  | reading (trcData : τ)
  /-- There was no trace left; it lowers `numThreads` in `finish`. -/
  | leaving
  /-- It brought `numThreads` to zero and releases the queue. -/
  | last
  /-- It posts `readData_finish`. -/
  | posting
  | done
deriving DecidableEq, Repr

/-- The variables of `readTraces` and its threads, and what the threads have done. -/
structure Pool (τ : Type) where
  traceQ : Option (List τ)
  numThreads : ℤ
  /-- Rounds of the launch loop that are not over. -/
  rounds : ℕ
  /-- The thread of this round is counted and not started. -/
  counted : Bool
  threads : List (Thread τ)
  /-- The traces whose data were read, in the order in which the reads ended. -/
  read : List τ
  killed : List τ
  /-- How often `readData_finish` was posted. -/
  posted : ℕ
deriving DecidableEq, Repr

inductive Event where
  | count
  | start
  | getNextTrace (n : ℕ)
  | readTrace (n : ℕ)
  | lower (n : ℕ)
  | freeQueue (n : ℕ)
  | post (n : ℕ)
deriving DecidableEq, Repr

variable {τ : Type}

/-! ## The code -/

def maxThreads (numCPUs : ℤ) (qLen : ℕ) : ℤ :=
  if numCPUs = 1 then 1 else if (qLen : ℤ) < 3 * numCPUs then qLen else 3 * numCPUs

/-- `readTraces` up to its launch loop; it returns at once for an empty queue. -/
def readTraces (numCPUs : ℤ) (f : List τ) : Pool τ where
  traceQ := if f.length = 0 then none else some f
  numThreads := 0
  rounds := if f.length = 0 then 0 else (maxThreads numCPUs f.length).toNat
  counted := false
  threads := []
  read := []
  killed := []
  posted := 0

/-- The head of the queue, and the queue without it. -/
def getNextTrace : Option (List τ) → Option τ × Option (List τ)
  | some (trcData :: traceQ) => (some trcData, some traceQ)
  | some [] => (none, some [])
  | none => (none, none)

/-- One step of the launch loop or of thread `n`. -/
def step (readTrace : τ → ReadResult) (s : Pool τ) : Event → Option (Pool τ)
  | .count =>
    if 0 < s.rounds ∧ s.counted = false then
      some { s with numThreads := s.numThreads + 1, counted := true }
    else none
  | .start =>
    if s.counted then
      some { s with rounds := s.rounds - 1, counted := false, threads := s.threads ++ [.next] }
    else none
  | .getNextTrace n =>
    match s.threads[n]? with
    | some .next =>
      match getNextTrace s.traceQ with
      | (some trcData, traceQ) =>
        some { s with traceQ := traceQ, threads := s.threads.set n (.reading trcData) }
      | (none, traceQ) => some { s with traceQ := traceQ, threads := s.threads.set n .leaving }
    | _ => none
  | .readTrace n =>
    match s.threads[n]? with
    | some (.reading trcData) =>
      some { s with
        read := s.read ++ [trcData]
        killed := if readTrace trcData = .PQLXSUCCESS then s.killed else s.killed ++ [trcData]
        threads := s.threads.set n .next }
    | _ => none
  | .lower n =>
    match s.threads[n]? with
    | some .leaving =>
      some { s with
        numThreads := s.numThreads - 1
        threads := s.threads.set n (if s.numThreads - 1 = 0 then .last else .done) }
    | _ => none
  | .freeQueue n =>
    match s.threads[n]? with
    | some .last => some { s with traceQ := none, threads := s.threads.set n .posting }
    | _ => none
  | .post n =>
    match s.threads[n]? with
    | some .posting => some { s with posted := s.posted + 1, threads := s.threads.set n .done }
    | _ => none

/-- Nothing is left to do. -/
def Ended (readTrace : τ → ReadResult) (s : Pool τ) : Prop := ∀ e, step readTrace s e = none

/-- The launch loop has a thread to count. -/
def Pool.launching (s : Pool τ) : Bool := decide ((if s.counted then 1 else 0) < s.rounds)

def Event.lowers : Event → Bool
  | .lower _ => true
  | _ => false

/-- The step does not bring `numThreads` to zero while the launch loop has a thread to count. -/
def Late (s : Pool τ) (e : Event) : Prop :=
  ¬(e.lowers = true ∧ s.launching = true ∧ s.numThreads = 1)

instance (s : Pool τ) (e : Event) : Decidable (Late s e) := inferInstanceAs (Decidable (¬_))

/-! ## What a step does -/

/-- The steps, with what each of them finds. -/
inductive Moves (readTrace : τ → ReadResult) (s : Pool τ) : Event → Pool τ → Prop
  | count (hrounds : 0 < s.rounds) (hcounted : s.counted = false) :
      Moves readTrace s .count { s with numThreads := s.numThreads + 1, counted := true }
  | start (hcounted : s.counted = true) :
      Moves readTrace s .start
        { s with rounds := s.rounds - 1, counted := false, threads := s.threads ++ [.next] }
  | take {n : ℕ} {trcData : τ} {traceQ : List τ} (hn : s.threads[n]? = some .next)
      (hqueue : s.traceQ = some (trcData :: traceQ)) :
      Moves readTrace s (.getNextTrace n)
        { s with traceQ := some traceQ, threads := s.threads.set n (.reading trcData) }
  | leave {n : ℕ} (hn : s.threads[n]? = some .next) (hqueue : s.traceQ.getD [] = []) :
      Moves readTrace s (.getNextTrace n) { s with threads := s.threads.set n .leaving }
  | read {n : ℕ} {trcData : τ} (hn : s.threads[n]? = some (.reading trcData)) (killed : List τ) :
      Moves readTrace s (.readTrace n)
        { s with read := s.read ++ [trcData], killed := killed, threads := s.threads.set n .next }
  | lower {n : ℕ} (hn : s.threads[n]? = some .leaving) (hthreads : s.numThreads ≠ 1) :
      Moves readTrace s (.lower n)
        { s with numThreads := s.numThreads - 1, threads := s.threads.set n .done }
  | last {n : ℕ} (hn : s.threads[n]? = some .leaving) (hthreads : s.numThreads = 1) :
      Moves readTrace s (.lower n) { s with numThreads := 0, threads := s.threads.set n .last }
  | freeQueue {n : ℕ} (hn : s.threads[n]? = some .last) :
      Moves readTrace s (.freeQueue n)
        { s with traceQ := none, threads := s.threads.set n .posting }
  | post {n : ℕ} (hn : s.threads[n]? = some .posting) :
      Moves readTrace s (.post n)
        { s with posted := s.posted + 1, threads := s.threads.set n .done }

theorem moves_of_step {readTrace : τ → ReadResult} {s s' : Pool τ} {e : Event}
    (h : step readTrace s e = some s') : Moves readTrace s e s' := by
  cases e with
  | count =>
    simp only [step, Option.ite_none_right_eq_some, Option.some.injEq] at h
    obtain ⟨⟨hrounds, hcounted⟩, rfl⟩ := h
    exact .count hrounds hcounted
  | start =>
    simp only [step, Option.ite_none_right_eq_some, Option.some.injEq] at h
    obtain ⟨hcounted, rfl⟩ := h
    exact .start hcounted
  | getNextTrace n =>
    simp only [step] at h
    split at h
    case h_2 => simp at h
    case h_1 hn =>
      rcases hqueue : s.traceQ with _ | ⟨_ | ⟨trcData, traceQ⟩⟩
      all_goals rw [hqueue] at h; obtain rfl := Option.some.inj h
      · rw [← hqueue]
        exact .leave hn (by rw [hqueue]; rfl)
      · rw [← hqueue]
        exact .leave hn (by rw [hqueue]; rfl)
      · exact .take hn hqueue
  | readTrace n =>
    simp only [step] at h
    split at h
    case h_2 => simp at h
    case h_1 hn =>
      obtain rfl := Option.some.inj h
      exact .read hn _
  | lower n =>
    simp only [step] at h
    split at h
    case h_2 => simp at h
    case h_1 hn =>
      obtain rfl := Option.some.inj h
      by_cases hthreads : s.numThreads = 1
      · simpa [hthreads] using Moves.last hn hthreads
      · have hne : s.numThreads - 1 ≠ 0 := by omega
        simpa [hne] using Moves.lower hn hthreads
  | freeQueue n =>
    simp only [step] at h
    split at h
    case h_2 => simp at h
    case h_1 hn =>
      obtain rfl := Option.some.inj h
      exact .freeQueue hn
  | post n =>
    simp only [step] at h
    split at h
    case h_2 => simp at h
    case h_1 hn =>
      obtain rfl := Option.some.inj h
      exact .post hn

/-! ## The invariant -/

namespace Thread

/-- It is one of those that `numThreads` counts. -/
@[simp] def active : Thread τ → ℕ
  | .next | .reading _ | .leaving => 1
  | _ => 0

/-- The trace that it has taken and not read. -/
@[simp] def held : Thread τ → Multiset τ
  | .reading trcData => {trcData}
  | _ => 0

/-- It found no trace. -/
@[simp] def left : Thread τ → ℕ
  | .next | .reading _ => 0
  | _ => 1

/-- It brought `numThreads` to zero and has not posted. -/
@[simp] def announcing : Thread τ → ℕ
  | .last | .posting => 1
  | _ => 0

theorem held_eq_zero {t : Thread τ} (h : t.active = 0) : t.held = 0 := by
  cases t <;> simp at h ⊢

end Thread

namespace Pool

variable (s : Pool τ)

def active : ℕ := (s.threads.map Thread.active).sum
def held : Multiset τ := (s.threads.map Thread.held).sum
def left : ℕ := (s.threads.map Thread.left).sum
def announcing : ℕ := (s.threads.map Thread.announcing).sum

/-- The traces that no thread has taken. -/
def queued : List τ := s.traceQ.getD []

variable {s}

theorem held_eq_zero (h : s.active = 0) : s.held = 0 := by
  refine List.sum_eq_zero fun m hm => ?_
  obtain ⟨t, ht, rfl⟩ := List.mem_map.1 hm
  exact Thread.held_eq_zero (List.sum_eq_zero_iff.1 h _ (List.mem_map_of_mem ht))

end Pool

/-- What holds while the traces of `queue` are read. -/
structure Inv (queue : List τ) (s : Pool τ) : Prop where
  numThreads : s.numThreads = (if s.counted then 1 else 0) + s.active
  counted : s.counted = true → 0 < s.rounds
  /-- Every trace is read, in the hands of a thread, or queued. -/
  kept : (queue : Multiset τ) = s.read + s.held + s.queued
  left : 0 < s.left → s.queued = []
  ended : 0 < s.announcing + s.posted → s.queued = [] ∧ s.held = 0

theorem inv_readTraces (numCPUs : ℤ) (queue : List τ) : Inv queue (readTraces numCPUs queue) where
  numThreads := rfl
  counted := nofun
  kept := by
    cases queue <;> simp [readTraces, Pool.held, Pool.queued]
  left := nofun
  ended := nofun

section Step

variable {readTrace : τ → ReadResult} {queue : List τ} {s s' : Pool τ} {e : Event}

/-- A thread that moves from `a` to `b` changes its own part of the totals. -/
structure Moved (s s' : Pool τ) (a b : Thread τ) : Prop where
  active : s'.active + a.active = s.active + b.active
  held : s'.held + a.held = s.held + b.held
  left : s'.left + a.left = s.left + b.left
  announcing : s'.announcing + a.announcing = s.announcing + b.announcing

theorem moved {n : ℕ} {a b : Thread τ} (hn : s.threads[n]? = some a)
    (hset : s'.threads = s.threads.set n b) : Moved s s' a b := by
  constructor
  all_goals
    simp only [Pool.active, Pool.held, Pool.left, Pool.announcing, hset]
    exact sum_map_set _ hn b

/-- The invariant after thread `n` has moved from `a` to `b`. -/
theorem Inv.of_moved {a b : Thread τ} (hs : Inv queue s) (hmoved : Moved s s' a b)
    (hcounted : s'.counted = s.counted) (hrounds : s'.rounds = s.rounds)
    (hnum : s'.numThreads + a.active = s.numThreads + b.active)
    (hkept : s'.read + b.held + s'.queued = s.read + a.held + s.queued)
    (htaken : s.queued = [] → s'.queued = [] ∧ b.held = 0)
    (hleft : b.left ≤ a.left ∨ s.queued = [])
    (hended : b.announcing + s'.posted ≤ a.announcing + s.posted ∨ s.queued = [] ∧ s.held = 0) :
    Inv queue s' where
  numThreads := by
    have hactive := hmoved.active
    rw [hcounted]
    have := hs.numThreads
    omega
  counted := by
    rw [hcounted, hrounds]
    exact hs.counted
  kept := by
    refine add_right_cancel (b := a.held + b.held) ?_
    calc (queue : Multiset τ) + (a.held + b.held)
        = s.read + a.held + s.queued + (s.held + b.held) := by rw [hs.kept]; abel
      _ = s'.read + b.held + s'.queued + (s'.held + a.held) := by rw [hkept, hmoved.held]
      _ = s'.read + s'.held + s'.queued + (a.held + b.held) := by abel
  left := by
    intro hpos
    refine (htaken ?_).1
    rcases hleft with hle | hqueued
    · have hmove := hmoved.left
      exact hs.left (by omega)
    · exact hqueued
  ended := by
    intro hpos
    obtain ⟨hqueued, hheld⟩ : s.queued = [] ∧ s.held = 0 := by
      rcases hended with hle | hdrained
      · have hmove := hmoved.announcing
        exact hs.ended (by omega)
      · exact hdrained
    obtain ⟨hqueued', hb⟩ := htaken hqueued
    have hmove := hmoved.held
    rw [hheld, hb, add_zero, add_eq_zero] at hmove
    exact ⟨hqueued', hmove.1⟩

/-- The last thread to leave leaves no trace in the hands of another. -/
theorem Inv.drained_of_last (hs : Inv queue s) {n : ℕ} (hn : s.threads[n]? = some .leaving)
    (hthreads : s.numThreads = 1) : s.counted = false ∧ s.queued = [] ∧ s.held = 0 := by
  have hactive : 1 ≤ s.active := le_sum_map (f := Thread.active) hn
  have hleft : 1 ≤ s.left := le_sum_map (f := Thread.left) hn
  have hnum := hs.numThreads
  have hcounted : s.counted = false := by
    refine Bool.eq_false_iff.2 fun hc => ?_
    rw [if_pos hc] at hnum
    omega
  have hone : s.active = 1 := by
    simp [hcounted] at hnum
    omega
  refine ⟨hcounted, hs.left hleft, ?_⟩
  -- Without this thread no thread is counted.
  obtain ⟨s', hs'⟩ : ∃ s' : Pool τ, s' = { s with threads := s.threads.set n .done } := ⟨_, rfl⟩
  have hmoved := moved hn (congrArg Pool.threads hs')
  have hzero : s'.active = 0 := by simpa [hone] using hmoved.active
  have hheld := hmoved.held
  rw [Pool.held_eq_zero hzero] at hheld
  simpa using hheld.symm

theorem Moves.inv (h : Moves readTrace s e s') (hs : Inv queue s) : Inv queue s' := by
  cases h with
  | count hrounds hc =>
    refine ⟨?_, fun _ => hrounds, hs.kept, hs.left, hs.ended⟩
    have hnum := hs.numThreads
    simp [hc] at hnum
    simp [hnum, Pool.active, add_comm]
  | start hc =>
    obtain ⟨hnum, hcounted, hkept, hleft, hended⟩ := hs
    simp only [Pool.active, Pool.held, Pool.left, Pool.announcing, Pool.queued, hc] at *
    refine ⟨?_, nofun, ?_, ?_, ?_⟩
    all_goals
      simp only [Pool.active, Pool.held, Pool.left, Pool.announcing, Pool.queued, sum_map_concat]
    · simpa [add_comm] using hnum
    · simpa using hkept
    · simpa using hleft
    · simpa using hended
  | @take n trcData traceQ hn hqueue =>
    have hqueued : s.queued = trcData :: traceQ := by simp [Pool.queued, hqueue]
    refine hs.of_moved (moved hn rfl) rfl rfl (by simp) ?_ (by simp [hqueued]) (by simp) (by simp)
    rw [hqueued]
    simp [Pool.queued, add_assoc]
  | leave hn hqueue =>
    exact hs.of_moved (moved hn rfl) rfl rfl (by simp) (by simp [Pool.queued])
      (fun _ => ⟨hqueue, by simp⟩) (.inr hqueue) (by simp)
  | read hn killed =>
    exact hs.of_moved (moved hn rfl) rfl rfl (by simp) (by simp [Pool.queued, ← Multiset.coe_add])
      (fun hqueued => ⟨hqueued, by simp⟩) (by simp) (by simp)
  | lower hn hthreads =>
    exact hs.of_moved (moved hn rfl) rfl rfl (by simp) (by simp [Pool.queued])
      (fun hqueued => ⟨hqueued, by simp⟩) (by simp) (by simp)
  | last hn hthreads =>
    exact hs.of_moved (moved hn rfl) rfl rfl (by simp [hthreads]) (by simp [Pool.queued])
      (fun hqueued => ⟨hqueued, by simp⟩) (by simp) (.inr (hs.drained_of_last hn hthreads).2)
  | freeQueue hn =>
    have hleft : 1 ≤ s.left := le_sum_map (f := Thread.left) hn
    exact hs.of_moved (moved hn rfl) rfl rfl (by simp) (by rw [hs.left hleft]; simp [Pool.queued])
      (fun _ => ⟨rfl, by simp⟩) (by simp) (by simp)
  | post hn =>
    exact hs.of_moved (moved hn rfl) rfl rfl (by simp) (by simp [Pool.queued])
      (fun hqueued => ⟨hqueued, by simp⟩) (by simp) (by simp [add_comm])

/-! ## The counter -/

/-- `numThreads`, `launching` and the posts as a counter that announces the end. -/
def Pool.latch (s : Pool τ) : Latch := ⟨s.launching, s.numThreads.toNat, s.announcing, s.posted⟩

theorem announcing_set {n : ℕ} {a b : Thread τ} (hn : s.threads[n]? = some a)
    (hset : s'.threads = s.threads.set n b) (h : b.announcing = a.announcing) :
    s'.announcing = s.announcing := by
  have hmove := (moved hn hset).announcing
  omega

theorem announcing_set_succ {n : ℕ} {a b : Thread τ} (hn : s.threads[n]? = some a)
    (hset : s'.threads = s.threads.set n b) (h : b.announcing = a.announcing + 1) :
    s'.announcing = s.announcing + 1 := by
  have hmove := (moved hn hset).announcing
  omega

theorem announcing_set_pred {n : ℕ} {a b : Thread τ} (hn : s.threads[n]? = some a)
    (hset : s'.threads = s.threads.set n b) (h : a.announcing = b.announcing + 1) :
    s.announcing = s'.announcing + 1 := by
  have hmove := (moved hn hset).announcing
  omega

theorem Moves.latch_step (h : Moves readTrace s e s') (hs : Inv queue s) :
    s.latch.Step s'.latch := by
  have hnum := hs.numThreads
  cases h with
  | count hrounds hc =>
    refine .of_raise ?_ ?_ rfl rfl
    · simp [Pool.latch, Pool.launching, hc, hrounds]
    · simp only [Pool.latch]
      omega
  | start hc =>
    refine .of_eq (Latch.ext ?_ rfl ?_ rfl)
    · simp [Pool.latch, Pool.launching, hc]
    · simp [Pool.latch, Pool.announcing]
  | take hn | leave hn | read hn | freeQueue hn =>
    exact .of_eq (Latch.ext rfl rfl (announcing_set hn rfl (by simp)).symm rfl)
  | lower hn hthreads =>
    have hactive : 1 ≤ s.active := le_sum_map (f := Thread.active) hn
    refine .of_lower rfl ?_ ?_ (announcing_set hn rfl rfl) rfl
    all_goals simp only [Pool.latch]; omega
  | last hn hthreads =>
    refine .of_last rfl ?_ rfl (announcing_set_succ hn rfl rfl) rfl
    simp [Pool.latch, hthreads]
  | post hn =>
    exact .of_post rfl rfl (announcing_set_pred hn rfl rfl) rfl

theorem Moves.late_iff (h : Moves readTrace s e s') (hs : Inv queue s) :
    Late s e ↔ ¬Latch.Early s.latch s'.latch := by
  have hnum := hs.numThreads
  cases h with
  | count =>
    refine iff_of_true (fun h => nomatch h.1) fun hearly => ?_
    have hzero : (s.numThreads + 1).toNat = 0 := hearly.2.2
    omega
  | start | take | leave | read | freeQueue | post =>
    exact iff_of_true (fun h => nomatch h.1) fun hearly =>
      absurd (hearly.2.1.symm.trans hearly.2.2) one_ne_zero
  | lower hn hthreads =>
    refine iff_of_true (fun h => hthreads h.2.2) fun hearly => ?_
    have hone : s.numThreads.toNat = 1 := hearly.2.1
    omega
  | last hn hthreads =>
    constructor
    · intro hlate hearly
      exact hlate ⟨rfl, hearly.1, hthreads⟩
    · intro hearly h
      exact hearly ⟨h.2.1, by simp [Pool.latch, hthreads], rfl⟩

/-- `readTraces` and its threads are a system with a counter that announces the end. -/
theorem latchSystem (readTrace : τ → ReadResult) (queue : List τ) :
    LatchSystem (step readTrace) (Inv queue) Pool.latch Late where
  inv_step hs hstep := (moves_of_step hstep).inv hs
  latch_step hs hstep := (moves_of_step hstep).latch_step hs
  late_iff hs hstep := (moves_of_step hstep).late_iff hs

/-! ## The end -/

/-- The steps that a thread has before it, without those of the traces that it takes. -/
@[simp] def Thread.work : Thread τ → ℕ
  | .next => 5
  | .reading _ => 6
  | .leaving => 4
  | .last => 3
  | .posting => 2
  | .done => 0

/-- A bound for the steps that are left. -/
def Pool.work (s : Pool τ) : ℕ :=
  8 * s.rounds + (if s.counted then 0 else 1) + 2 * s.queued.length +
    (s.threads.map Thread.work).sum

theorem work_of_set {n : ℕ} {a b : Thread τ} (hn : s.threads[n]? = some a)
    (hset : s'.threads = s.threads.set n b) (hrounds : s'.rounds = s.rounds)
    (hcounted : s'.counted = s.counted)
    (h : 2 * s'.queued.length + b.work < 2 * s.queued.length + a.work) : s'.work < s.work := by
  have hmove := sum_map_set Thread.work hn b
  simp only [Pool.work, hset, hrounds, hcounted]
  omega

theorem Moves.work_lt (h : Moves readTrace s e s') (hs : Inv queue s) : s'.work < s.work := by
  cases h with
  | count hrounds hc => simp [Pool.work, Pool.queued, hc]
  | start hc =>
    have hrounds := hs.counted hc
    simp only [Pool.work, Pool.queued, hc, sum_map_concat]
    simp
    omega
  | take hn hqueue =>
    refine work_of_set hn rfl rfl rfl ?_
    simp [Pool.queued, hqueue]
    omega
  | leave hn | read hn | lower hn | last hn | post hn =>
    exact work_of_set hn rfl rfl rfl (by simp [Pool.queued])
  | freeQueue hn =>
    refine work_of_set hn rfl rfl rfl ?_
    simp [Pool.queued]

theorem step_of_not_done (readTrace : τ → ReadResult) {n : ℕ} {t : Thread τ}
    (hn : s.threads[n]? = some t) (ht : t ≠ .done) :
    ∃ e s', step readTrace s e = some s' := by
  cases t with
  | next =>
    refine ⟨.getNextTrace n, ?_⟩
    rcases hqueue : s.traceQ with _ | ⟨_ | ⟨trcData, traceQ⟩⟩
    all_goals simp [step, hn, hqueue, getNextTrace]
  | reading => exact ⟨.readTrace n, by simp [step, hn]⟩
  | leaving => exact ⟨.lower n, by simp [step, hn]⟩
  | last => exact ⟨.freeQueue n, by simp [step, hn]⟩
  | posting => exact ⟨.post n, by simp [step, hn]⟩
  | done => exact absurd rfl ht

/-- At the end the launch loop and all threads are done. -/
theorem Ended.done (h : Ended readTrace s) (hs : Inv queue s) :
    s.launching = false ∧ s.numThreads = 0 ∧ s.announcing = 0 := by
  have hcounted : s.counted = false := by
    have hstart := h .start
    simpa [step] using hstart
  have hrounds : s.rounds = 0 := by
    have hcount := h .count
    simpa [step, hcounted] using hcount
  have hdone : ∀ t ∈ s.threads, t = .done := by
    intro t ht
    obtain ⟨n, hn⟩ := List.mem_iff_getElem?.1 ht
    by_contra hne
    obtain ⟨e, s', hstep⟩ := step_of_not_done readTrace hn hne
    simp [h e] at hstep
  have hactive : s.active = 0 := by
    refine List.sum_eq_zero fun k hk => ?_
    obtain ⟨t, ht, rfl⟩ := List.mem_map.1 hk
    simp [hdone t ht]
  have hannouncing : s.announcing = 0 := by
    refine List.sum_eq_zero fun k hk => ?_
    obtain ⟨t, ht, rfl⟩ := List.mem_map.1 hk
    simp [hdone t ht]
  refine ⟨by simp [Pool.launching, hrounds], ?_, hannouncing⟩
  simp [hs.numThreads, hcounted, hactive]

end Step

/-! ## The whole of `readTraces` -/

/-- The queued traces are read at most once, and `readData_finish` is posted at most once, after the
last read. -/
structure Sound (queue : List τ) (s : Pool τ) : Prop where
  read : s.read.Subperm queue
  posted : s.posted ≤ 1
  posted_last : 0 < s.posted → s.read.Perm queue

/-- Every queued trace is read exactly once and `readData_finish` is posted exactly once. -/
structure Complete (queue : List τ) (s : Pool τ) : Prop where
  read : s.read.Perm queue
  posted : s.posted = 1

section Run

variable {readTrace : τ → ReadResult} {queue : List τ} {numCPUs : ℤ} {s : Pool τ} {es : List Event}

theorem Inv.read_subperm (hs : Inv queue s) : s.read.Subperm queue := by
  rw [← Multiset.coe_le, hs.kept, add_assoc]
  exact Multiset.le_add_right _ _

/-- Once somebody posts, every trace is read. -/
theorem Inv.read_perm (hs : Inv queue s) (h : 0 < s.announcing + s.posted) :
    s.read.Perm queue := by
  obtain ⟨hqueued, hheld⟩ := hs.ended h
  have hkept := hs.kept
  rw [hqueued, hheld] at hkept
  exact (Multiset.coe_eq_coe.1 (by simpa using hkept)).symm

theorem run_inv (hrun : es.foldlM (step readTrace) (readTraces numCPUs queue) = some s) :
    Inv queue s :=
  (latchSystem readTrace queue).inv_run (inv_readTraces numCPUs queue) hrun

/-- The threads do a bounded number of steps, whatever their order. -/
theorem length_run_le (hrun : es.foldlM (step readTrace) (readTraces numCPUs queue) = some s) :
    es.length + s.work ≤ (readTraces numCPUs queue).work :=
  run_length_le
    (fun _ _ _ hs hstep => ⟨(moves_of_step hstep).inv hs, (moves_of_step hstep).work_lt hs⟩)
    (inv_readTraces numCPUs queue) hrun

/-- If no thread is started, nothing happens. -/
theorem run_of_rounds_eq_zero (hrounds : (readTraces numCPUs queue).rounds = 0)
    (hrun : es.foldlM (step readTrace) (readTraces numCPUs queue) = some s) : s.posted = 0 := by
  cases es with
  | nil =>
    obtain rfl := Option.some.inj hrun
    rfl
  | cons e es =>
    rw [List.foldlM_cons] at hrun
    obtain ⟨s₁, hs₁, -⟩ := Option.bind_eq_some_iff.1 hrun
    cases moves_of_step hs₁ with
    | count hpos => omega
    | start hc => simp [readTraces] at hc
    | take hn | leave hn | read hn | lower hn | last hn | freeQueue hn | post hn =>
      simp [readTraces] at hn

theorem once_readTraces (hrounds : 0 < (readTraces numCPUs queue).rounds) :
    (readTraces numCPUs queue).latch.Once := by
  have hlaunching : (readTraces numCPUs queue).launching = true := by
    simpa [Pool.launching, readTraces] using hrounds
  simp [Latch.Once, Latch.due, Pool.latch, hlaunching]
  exact ⟨rfl, rfl⟩

/-- `readTraces` reads every queued trace exactly once and posts `readData_finish` exactly once,
after the last read, if it starts a thread and `numThreads` does not come to zero while the launch
loop has a thread to count; no other run that has ended does. -/
theorem readTraces_once (readTrace : τ → ReadResult) (numCPUs : ℤ) (queue : List τ)
    (es : List Event) {s : Pool τ}
    (hrun : es.foldlM (step readTrace) (readTraces numCPUs queue) = some s) :
    (0 < (readTraces numCPUs queue).rounds →
      Allowed (step readTrace) Late (readTraces numCPUs queue) es → Sound queue s) ∧
    (Ended readTrace s →
      (Complete queue s ↔ 0 < (readTraces numCPUs queue).rounds ∧
        Allowed (step readTrace) Late (readTraces numCPUs queue) es)) ∧
    es.length ≤ (readTraces numCPUs queue).work := by
  have hinv := run_inv hrun
  have sys := latchSystem readTrace queue
  have hstart := inv_readTraces numCPUs queue
  refine ⟨fun hrounds hok => ?_, fun hend => ?_, le_of_add_le_left (length_run_le hrun)⟩
  · have honce := sys.once_of_allowed hstart (once_readTraces hrounds) hok hrun
    exact ⟨hinv.read_subperm, honce.posted_le, fun hposted => hinv.read_perm (by omega)⟩
  · obtain ⟨hlaunching, hnum, hannouncing⟩ := hend.done hinv
    rcases Nat.eq_zero_or_pos (readTraces numCPUs queue).rounds with hrounds | hrounds
    · have hposted := run_of_rounds_eq_zero hrounds hrun
      refine iff_of_false (fun h => ?_) fun h => ?_
      · exact absurd (h.posted.symm.trans hposted) one_ne_zero
      · omega
    · have hiff := sys.posted_iff hstart (once_readTraces hrounds) hrun hlaunching
        (by simp [Pool.latch, hnum]) hannouncing
      constructor
      · intro h
        exact ⟨hrounds, hiff.1 h.posted⟩
      · rintro ⟨-, hok⟩
        have hposted : s.posted = 1 := hiff.2 hok
        exact ⟨hinv.read_perm (by omega), hposted⟩

end Run

/-- One thread reads two traces. -/
def oneThread : List Event :=
  [.count, .start, .getNextTrace 0, .readTrace 0, .getNextTrace 0, .readTrace 0, .getNextTrace 0,
    .lower 0, .freeQueue 0, .post 0]

/-- On one processor there is one thread. -/
theorem readTraces_once_oneThread :
    ∃ s, oneThread.foldlM (step fun _ => .PQLXSUCCESS) (readTraces 1 ["a", "b"]) = some s ∧
      Sound ["a", "b"] s := by
  have hsome :
      (oneThread.foldlM (step fun _ => .PQLXSUCCESS) (readTraces 1 ["a", "b"])).isSome := by
    decide
  obtain ⟨s, hrun⟩ := Option.isSome_iff_exists.1 hsome
  exact ⟨s, hrun, (readTraces_once _ 1 ["a", "b"] oneThread hrun).1 (by decide) (by decide)⟩

/-- A first thread reads both traces and leaves before a second one is counted. -/
def fastThread : List Event :=
  oneThread ++ [.count, .start, .getNextTrace 1, .lower 1, .freeQueue 1, .post 1]

/-- `readData_finish` is posted twice. -/
theorem readTraces_fastThread :
    ∃ s, fastThread.foldlM (step fun _ => .PQLXSUCCESS) (readTraces 2 ["a", "b"]) = some s ∧
      s.posted = 2 :=
  ⟨_, rfl, rfl⟩

end PQL.ThreadTrace
