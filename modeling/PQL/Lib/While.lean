import Mathlib

/-!
# While loops

`whileLoop` runs a body as long as a test holds; the run has no value when its fuel is used up.  A
body that keeps an invariant and lowers a measure ends in a state that has the invariant and fails
the test, with any fuel above the measure (`whileLoop_spec`); without a measure, so does every run
that ends (`whileLoop_sound`).  A run whose states are known ends in the first of them that fails
the test (`whileLoop_eq_some_iff`); `collectLoop` puts out something in each of them.  `strideLoop`
counts an index up by a step, with a body that cannot fail.
-/

namespace PQL

variable {σ : Type} {cond : σ → Bool} {body : σ → Option σ}

def whileLoop (cond : σ → Bool) (body : σ → Option σ) : ℕ → σ → Option σ
  | 0, _ => none
  | fuel + 1, s => if cond s then (body s).bind (whileLoop cond body fuel) else some s

theorem whileLoop_of_not {fuel : ℕ} {s : σ} (hfuel : 0 < fuel) (h : cond s = false) :
    whileLoop cond body fuel s = some s := by
  obtain ⟨fuel, rfl⟩ := Nat.exists_eq_add_of_lt hfuel
  rw [whileLoop, if_neg (by rw [h]; exact Bool.false_ne_true)]

theorem whileLoop_succ {fuel : ℕ} {s s' : σ} (hcond : cond s = true) (hbody : body s = some s') :
    whileLoop cond body (fuel + 1) s = whileLoop cond body fuel s' := by
  rw [whileLoop, if_pos hcond, hbody, Option.bind_some]

theorem whileLoop_spec {P : σ → Prop} (measure : σ → ℕ)
    (hstep : ∀ s, P s → cond s = true → ∃ s', body s = some s' ∧ P s' ∧ measure s' < measure s)
    {fuel : ℕ} {s : σ} (hs : P s) (hfuel : measure s < fuel) :
    ∃ s', whileLoop cond body fuel s = some s' ∧ P s' ∧ cond s' = false := by
  induction fuel generalizing s with
  | zero => exact absurd hfuel (Nat.not_lt_zero _)
  | succ fuel ih =>
    by_cases hcond : cond s = true
    · obtain ⟨s₁, hbody, hs₁, hlt⟩ := hstep s hs hcond
      obtain ⟨s₂, hrun, hs₂, hend⟩ := ih hs₁ (by omega)
      exact ⟨s₂, (whileLoop_succ hcond hbody).trans hrun, hs₂, hend⟩
    · have hfalse : cond s = false := Bool.eq_false_of_not_eq_true hcond
      exact ⟨s, whileLoop_of_not (Nat.succ_pos fuel) hfalse, hs, hfalse⟩

theorem whileLoop_sound {P : σ → Prop}
    (hstep : ∀ s s', P s → cond s = true → body s = some s' → P s') {fuel : ℕ} {s s' : σ} (hs : P s)
    (hrun : whileLoop cond body fuel s = some s') : P s' ∧ cond s' = false := by
  induction fuel generalizing s with
  | zero => exact nomatch hrun
  | succ fuel ih =>
    rw [whileLoop] at hrun
    split_ifs at hrun with hcond
    · obtain ⟨s₁, hbody, hrest⟩ := Option.bind_eq_some_iff.1 hrun
      exact ih (hstep s s₁ hs hcond hbody) hrest
    · obtain rfl := Option.some.inj hrun
      exact ⟨hs, Bool.eq_false_of_not_eq_true hcond⟩

/-! ## Runs with known states -/

theorem whileLoop_eq_some_iff {f : ℕ → σ} {n fuel : ℕ} {s : σ}
    (hstep : ∀ m < n, cond (f m) = true ∧ body (f m) = some (f (m + 1)))
    (hend : cond (f n) = false) :
    whileLoop cond body fuel (f 0) = some s ↔ n < fuel ∧ s = f n := by
  induction fuel generalizing n f with
  | zero => simp [whileLoop]
  | succ fuel ih =>
    cases n with
    | zero =>
      rw [whileLoop_of_not (Nat.succ_pos fuel) hend, Option.some.injEq]
      exact ⟨fun h => ⟨Nat.succ_pos fuel, h.symm⟩, fun h => h.2.symm⟩
    | succ n =>
      obtain ⟨hcond, hbody⟩ := hstep 0 (Nat.succ_pos n)
      rw [whileLoop, if_pos hcond, hbody, Option.bind_some, Nat.succ_lt_succ_iff]
      exact ih (f := fun m => f (m + 1)) (fun m hm => hstep (m + 1) (Nat.succ_lt_succ hm)) hend

/-- `while (1)` with a `break` behind each step. -/
def stepUntil (stop : σ → Bool) (step : σ → σ) (fuel : ℕ) (s : σ) : Option σ :=
  whileLoop (fun s => !stop s) (fun s => some (step s)) fuel (step s)

theorem stepUntil_eq_some_iff {stop : σ → Bool} {step : σ → σ} {f : ℕ → σ} {n fuel : ℕ} {s : σ}
    (hstep : ∀ m, step (f m) = f (m + 1)) (hstop : ∀ m, stop (f (m + 1)) = false ↔ m < n) :
    stepUntil stop step fuel (f 0) = some s ↔ n < fuel ∧ s = f (n + 1) := by
  unfold stepUntil
  rw [hstep]
  refine whileLoop_eq_some_iff (f := fun m => f (m + 1)) (fun m hm => ⟨?_, ?_⟩) ?_
  · rw [(hstop m).2 hm, Bool.not_false]
  · rw [hstep]
  · rw [Bool.not_eq_false', ← Bool.not_eq_false, hstop]
    exact lt_irrefl n

/-- A loop that puts out something in each state. -/
def collectLoop {β : Type} (cond : σ → Bool) (emit : σ → Option β) (next : σ → σ) :
    ℕ → σ → Option (List β)
  | 0, _ => none
  | fuel + 1, s =>
    if cond s then
      (emit s).bind fun b => (collectLoop cond emit next fuel (next s)).map (b :: ·)
    else some []

theorem exists_eq_map_some {β : Type} {os : List (Option β)} (h : ∀ o ∈ os, o.isSome) :
    ∃ bs : List β, os = bs.map some := by
  induction os with
  | nil => exact ⟨[], rfl⟩
  | cons o os ih =>
    obtain ⟨b, rfl⟩ := Option.isSome_iff_exists.1 (h o List.mem_cons_self)
    obtain ⟨bs, rfl⟩ := ih fun o ho => h o (List.mem_cons_of_mem _ ho)
    exact ⟨b :: bs, rfl⟩

theorem collectLoop_eq_some_iff {β : Type} {emit : σ → Option β} {next : σ → σ} {f : ℕ → σ}
    {n fuel : ℕ} {bs : List β} (hnext : ∀ m, next (f m) = f (m + 1))
    (hcond : ∀ m, cond (f m) = true ↔ m < n) :
    collectLoop cond emit next fuel (f 0) = some bs ↔
      n < fuel ∧ (List.range n).map (fun m => emit (f m)) = bs.map some := by
  induction fuel generalizing n f bs with
  | zero => simp [collectLoop]
  | succ fuel ih =>
    rw [collectLoop]
    cases n with
    | zero =>
      rw [if_neg (mt (hcond 0).1 (lt_irrefl 0)), Option.some.injEq, List.range_zero, List.map_nil]
      exact ⟨fun h => ⟨Nat.succ_pos fuel, by rw [← h, List.map_nil]⟩,
        fun h => (List.map_eq_nil_iff.1 h.2.symm).symm⟩
    | succ n =>
      have hrest := @ih (fun m => f (m + 1)) n
      rw [if_pos ((hcond 0).2 (Nat.succ_pos n)), hnext, List.range_succ_eq_map, List.map_cons,
        List.map_map, Nat.succ_lt_succ_iff]
      rw [Option.bind_eq_some_iff]
      constructor
      · rintro ⟨b, hb, h⟩
        obtain ⟨rest, hrun, rfl⟩ := Option.map_eq_some_iff.1 h
        obtain ⟨hfuel, hmap⟩ := (hrest (fun m => hnext (m + 1)) fun m => by
          rw [hcond, Nat.succ_lt_succ_iff]).1 hrun
        exact ⟨hfuel, by rw [List.map_cons, hb, ← hmap]; rfl⟩
      · rintro ⟨hfuel, hmap⟩
        cases bs with
        | nil => exact nomatch hmap
        | cons b rest =>
          rw [List.map_cons, List.cons.injEq] at hmap
          refine ⟨b, hmap.1, ?_⟩
          rw [(hrest (fun m => hnext (m + 1)) fun m => by
            rw [hcond, Nat.succ_lt_succ_iff]).2 ⟨hfuel, hmap.2⟩, Option.map_some]

/-! ## Loops with a step -/

/-- The passes of `for (i = a; i < b; i += d)`. -/
def strides (a b d : ℕ) : ℕ := (b - a + (d - 1)) / d

/-- `for (i = a; i < b; i += d)`. -/
def strideLoop (a b d : ℕ) (body : σ → ℕ → σ) (s : σ) : σ :=
  (List.range (strides a b d)).foldl (fun s m => body s (a + m * d)) s

theorem strideLoop_invariant (a b d : ℕ) (body : σ → ℕ → σ) (s : σ) (P : ℕ → σ → Prop)
    (hinit : P 0 s)
    (hstep : ∀ m < strides a b d, ∀ s, P m s → P (m + 1) (body s (a + m * d))) :
    P (strides a b d) (strideLoop a b d body s) := by
  unfold strideLoop
  generalize strides a b d = n at hstep
  induction n with
  | zero => exact hinit
  | succ n ih =>
    rw [List.range_succ, List.foldl_append]
    exact hstep n n.lt_succ_self _ (ih fun m hm => hstep m (hm.trans n.lt_succ_self))

end PQL
