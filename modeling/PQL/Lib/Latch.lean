import PQL.Lib.Runs

/-!
# Counters that announce the end

A dispatcher raises a counter before it starts a worker, every worker lowers it when it leaves, and
a worker that brings it to zero announces the end.  The end is announced once if the counter comes
to zero only when the dispatcher is done (`LatchSystem.once_of_allowed`) and more than once
otherwise (`LatchSystem.beyond_of_not_allowed`).
-/

namespace PQL

/-- The counter, and what is known of the announcements. -/
@[ext]
structure Latch where
  /-- The dispatcher will raise the counter again. -/
  more : Bool
  count : ℕ
  /-- Workers that brought the counter to zero and have not announced it yet. -/
  pending : ℕ
  posted : ℕ

namespace Latch

/-- One step of the dispatcher or of a worker. -/
inductive Step : Latch → Latch → Prop
  | stay (l : Latch) : Step l l
  | raise (more : Bool) (count pending posted : ℕ) :
      Step ⟨true, count, pending, posted⟩ ⟨more, count + 1, pending, posted⟩
  | lower (more : Bool) (count pending posted : ℕ) :
      Step ⟨more, count + 2, pending, posted⟩ ⟨more, count + 1, pending, posted⟩
  | last (more : Bool) (pending posted : ℕ) :
      Step ⟨more, 1, pending, posted⟩ ⟨more, 0, pending + 1, posted⟩
  | post (more : Bool) (count pending posted : ℕ) :
      Step ⟨more, count, pending + 1, posted⟩ ⟨more, count, pending, posted + 1⟩

/-- The counter comes to zero before the dispatcher is done. -/
def Early (l l' : Latch) : Prop := l.more = true ∧ l.count = 1 ∧ l'.count = 0

/-- The announcements that are due: one when all is over. -/
def due (l : Latch) : ℕ := if l.more = false ∧ l.count = 0 then 1 else 0

/-- Exactly the announcements that are due are made or pending. -/
def Once (l : Latch) : Prop := l.pending + l.posted = l.due

/-- At least `k` announcements beside those that are due are made or pending. -/
def Beyond (k : ℕ) (l : Latch) : Prop := l.due + k ≤ l.pending + l.posted

variable {l l' : Latch}

theorem Once.posted_le (h : l.Once) : l.posted ≤ 1 := by
  unfold Once due at h
  split_ifs at h <;> omega

/-- A first announcement comes when all is over, and there is no other. -/
theorem Once.over (h : l.Once) (hpos : 0 < l.pending + l.posted) :
    l.pending + l.posted = 1 ∧ l.more = false ∧ l.count = 0 := by
  unfold Once due at h
  split_ifs at h with hover
  · exact ⟨h, hover⟩
  · omega

theorem Once.beyond (h : l.Once) : l.Beyond 0 := by
  unfold Beyond
  exact h.ge

/-! The steps, by what they change. -/

theorem Step.of_eq (h : l = l') : Step l l' := h ▸ .stay l

theorem Step.of_raise (hmore : l.more = true) (hcount : l'.count = l.count + 1)
    (hpending : l'.pending = l.pending) (hposted : l'.posted = l.posted) : Step l l' := by
  obtain ⟨more, count, pending, posted⟩ := l
  obtain ⟨more', count', pending', posted'⟩ := l'
  obtain rfl : more = true := hmore
  obtain rfl : count' = count + 1 := hcount
  obtain rfl : pending' = pending := hpending
  obtain rfl : posted' = posted := hposted
  exact .raise ..

theorem Step.of_lower (hmore : l'.more = l.more) (hcount : l.count = l'.count + 1)
    (hpos : l'.count ≠ 0) (hpending : l'.pending = l.pending) (hposted : l'.posted = l.posted) :
    Step l l' := by
  obtain ⟨more, count, pending, posted⟩ := l
  obtain ⟨more', count', pending', posted'⟩ := l'
  obtain ⟨k, rfl⟩ : ∃ k, count' = k + 1 := Nat.exists_eq_succ_of_ne_zero hpos
  obtain rfl : more' = more := hmore
  obtain rfl : count = k + 2 := hcount
  obtain rfl : pending' = pending := hpending
  obtain rfl : posted' = posted := hposted
  exact .lower ..

theorem Step.of_last (hmore : l'.more = l.more) (hcount : l.count = 1) (hzero : l'.count = 0)
    (hpending : l'.pending = l.pending + 1) (hposted : l'.posted = l.posted) : Step l l' := by
  obtain ⟨more, count, pending, posted⟩ := l
  obtain ⟨more', count', pending', posted'⟩ := l'
  obtain rfl : more' = more := hmore
  obtain rfl : count = 1 := hcount
  obtain rfl : count' = 0 := hzero
  obtain rfl : pending' = pending + 1 := hpending
  obtain rfl : posted' = posted := hposted
  exact .last ..

theorem Step.of_post (hmore : l'.more = l.more) (hcount : l'.count = l.count)
    (hpending : l.pending = l'.pending + 1) (hposted : l'.posted = l.posted + 1) : Step l l' := by
  obtain ⟨more, count, pending, posted⟩ := l
  obtain ⟨more', count', pending', posted'⟩ := l'
  obtain rfl : more' = more := hmore
  obtain rfl : count' = count := hcount
  obtain rfl : pending = pending' + 1 := hpending
  obtain rfl : posted' = posted + 1 := hposted
  exact .post ..

theorem Step.once (h : Step l l') (hlate : ¬Early l l') (hl : l.Once) : l'.Once := by
  cases h with
  | stay => exact hl
  | raise | lower => simpa [Once, due] using hl
  | last more =>
    -- Not early: the dispatcher is done, and this announcement is the one that is due.
    cases more with
    | false => simp [Once, due] at hl ⊢; omega
    | true => exact absurd ⟨rfl, rfl, rfl⟩ hlate
  | post => simp only [Once, due] at hl ⊢; omega

theorem Step.beyond {k : ℕ} (h : Step l l') (hl : l.Beyond k) : l'.Beyond k := by
  cases h with
  | stay => exact hl
  | raise | lower => simpa [Beyond, due] using hl
  | last more => cases more <;> simp [Beyond, due] at hl ⊢ <;> omega
  | post => simp only [Beyond, due] at hl ⊢; omega

/-- An early zero is announced, and it was not due. -/
theorem Step.beyond_of_early (h : Step l l') (hearly : Early l l') (hl : l.Beyond 0) :
    l'.Beyond 1 := by
  cases h with
  | stay => exact absurd (hearly.2.1.symm.trans hearly.2.2) one_ne_zero
  | raise => exact absurd hearly.2.2 (Nat.succ_ne_zero _)
  | lower => exact absurd hearly.2.2 (Nat.succ_ne_zero _)
  | last more pending posted =>
    obtain rfl : more = true := hearly.1
    simp only [Beyond, due]
    simp
    omega
  | post => exact absurd (hearly.2.1.symm.trans hearly.2.2) one_ne_zero

end Latch

/-! ## Systems with a latch -/

/-- A system whose steps are steps of a latch wherever the invariant holds; `late` says of a step
that it does not bring the counter to zero early. -/
structure LatchSystem {σ ε : Type} (step : σ → ε → Option σ) (inv : σ → Prop) (latch : σ → Latch)
    (late : σ → ε → Prop) : Prop where
  inv_step : ∀ {s e s'}, inv s → step s e = some s' → inv s'
  latch_step : ∀ {s e s'}, inv s → step s e = some s' → (latch s).Step (latch s')
  late_iff : ∀ {s e s'}, inv s → step s e = some s' →
    (late s e ↔ ¬Latch.Early (latch s) (latch s'))

namespace LatchSystem

variable {σ ε : Type} {step : σ → ε → Option σ} {inv : σ → Prop} {latch : σ → Latch}
  {late : σ → ε → Prop} (sys : LatchSystem step inv latch late) {s s' : σ} {es : List ε}

include sys

theorem inv_run (hs : inv s) (hrun : es.foldlM step s = some s') : inv s' :=
  run_keeps (fun _ _ _ h hstep => sys.inv_step h hstep) hs hrun

/-- Without an early zero, the end is announced once. -/
theorem once_of_allowed (hs : inv s) (hl : (latch s).Once) (hok : Allowed step late s es)
    (hrun : es.foldlM step s = some s') : (latch s').Once :=
  (run_preserves (P := fun t => inv t ∧ (latch t).Once)
    (fun _ _ _ h hlate hstep => ⟨sys.inv_step h.1 hstep,
      (sys.latch_step h.1 hstep).once ((sys.late_iff h.1 hstep).1 hlate) h.2⟩) ⟨hs, hl⟩ hok hrun).2

theorem beyond_run {k : ℕ} (hs : inv s) (hl : (latch s).Beyond k)
    (hrun : es.foldlM step s = some s') : (latch s').Beyond k :=
  (run_keeps (P := fun t => inv t ∧ (latch t).Beyond k)
    (fun _ _ _ h hstep => ⟨sys.inv_step h.1 hstep, (sys.latch_step h.1 hstep).beyond h.2⟩)
    ⟨hs, hl⟩ hrun).2

/-- After an early zero, the end is announced once more than it is due. -/
theorem beyond_of_not_allowed (hs : inv s) (hl : (latch s).Beyond 0)
    (hok : ¬Allowed step late s es) (hrun : es.foldlM step s = some s') :
    (latch s').Beyond 1 := by
  induction es generalizing s with
  | nil => exact absurd trivial hok
  | cons e es ih =>
    rw [List.foldlM_cons] at hrun
    obtain ⟨s₁, hs₁, hrest⟩ := Option.bind_eq_some_iff.1 hrun
    by_cases hlate : late s e
    · refine ih (sys.inv_step hs hs₁) ((sys.latch_step hs hs₁).beyond hl) (fun hok' => ?_) hrest
      refine hok ⟨hlate, fun t ht => ?_⟩
      obtain rfl := Option.some.inj (hs₁.symm.trans ht)
      exact hok'
    · have hearly := not_not.1 (mt (sys.late_iff hs hs₁).2 hlate)
      exact sys.beyond_run (sys.inv_step hs hs₁)
        ((sys.latch_step hs hs₁).beyond_of_early hearly hl) hrest

/-- When all is over, the end was announced exactly once if and only if the counter never came to
zero early. -/
theorem posted_iff (hs : inv s) (hl : (latch s).Once) (hrun : es.foldlM step s = some s')
    (hmore : (latch s').more = false) (hcount : (latch s').count = 0)
    (hpending : (latch s').pending = 0) : (latch s').posted = 1 ↔ Allowed step late s es := by
  have hdue : (latch s').due = 1 := if_pos ⟨hmore, hcount⟩
  constructor
  · intro hposted
    by_contra hok
    have hbeyond := sys.beyond_of_not_allowed hs hl.beyond hok hrun
    unfold Latch.Beyond at hbeyond
    omega
  · intro hok
    have honce := sys.once_of_allowed hs hl hok hrun
    unfold Latch.Once at honce
    omega

end LatchSystem

/-! ## Workers in a list -/

section Workers

variable {α M : Type} [AddCommMonoid M] (f : α → M)

/-- A worker that moves on changes its own part of a total. -/
theorem sum_map_set {l : List α} {i : ℕ} {a : α} (h : l[i]? = some a) (b : α) :
    ((l.set i b).map f).sum + f a = (l.map f).sum + f b := by
  induction l generalizing i with
  | nil => simp at h
  | cons x l ih =>
    cases i with
    | zero =>
      obtain rfl := Option.some.inj h
      simp [add_comm, add_left_comm]
    | succ i =>
      have hi := ih (i := i) (by simpa using h)
      simp only [List.set_cons_succ, List.map_cons, List.sum_cons, add_assoc, hi]

theorem sum_map_concat (l : List α) (b : α) : ((l ++ [b]).map f).sum = (l.map f).sum + f b := by
  simp

theorem le_sum_map {f : α → ℕ} {l : List α} {i : ℕ} {a : α} (h : l[i]? = some a) :
    f a ≤ (l.map f).sum :=
  List.le_sum_of_mem (List.mem_map_of_mem (List.mem_of_getElem? h))

/-- The workers after one more has started. -/
theorem getElem?_concat_cases {l : List α} {b t : α} {j : ℕ} (h : (l ++ [b])[j]? = some t) :
    l[j]? = some t ∨ j = l.length ∧ t = b := by
  rcases lt_trichotomy j l.length with hlt | heq | hgt
  · rw [List.getElem?_append_left hlt] at h
    exact .inl h
  · subst heq
    rw [List.getElem?_concat_length] at h
    exact .inr ⟨rfl, (Option.some.inj h).symm⟩
  · rw [List.getElem?_eq_none (by simp; omega)] at h
    simp at h

end Workers

end PQL
