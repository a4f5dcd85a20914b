import Mathlib

/-!
# Arrays and counting loops

An array of C is a list that is read and written by integer indices; an access out of bounds has no
result.  `forLoop` counts an index up.  An array is described by its length and its entries
(`tabulate`), so that loops over arrays become statements about functions.
-/

namespace PQL

/-- The literal `2` of the entries, whatever field they are in. -/
instance atLeastTwo_two : Nat.AtLeastTwo 2 := ⟨le_rfl⟩

variable {α σ : Type}

/-- An array entry. -/
def load (xs : List α) (i : ℤ) : Option α := if 0 ≤ i then xs[i.toNat]? else none

/-- The array with one entry replaced. -/
def store (xs : List α) (i : ℤ) (x : α) : Option (List α) :=
  if 0 ≤ i ∧ i < xs.length then some (xs.set i.toNat x) else none

/-- `n` steps with indices from `a` on. -/
def loopSteps (f : σ → ℤ → Option σ) (a : ℤ) : ℕ → σ → Option σ
  | 0, s => some s
  | n + 1, s => (loopSteps f a n s).bind fun s => f s (a + n)

/-- `for (j = a; j < b; j++)`. -/
def forLoop (a b : ℤ) (f : σ → ℤ → Option σ) (s : σ) : Option σ := loopSteps f a (b - a).toNat s

/-! ## Loops -/

/-- A loop invariant, indexed by the number of steps done. -/
theorem loopSteps_invariant {f : σ → ℤ → Option σ} {a : ℤ} {n : ℕ} {s : σ} (P : ℕ → σ)
    (hinit : P 0 = s) (hstep : ∀ m < n, f (P m) (a + m) = some (P (m + 1))) :
    loopSteps f a n s = some (P n) := by
  induction n with
  | zero => rw [loopSteps, hinit]
  | succ n ih =>
    rw [loopSteps, ih fun m hm => hstep m (hm.trans n.lt_succ_self), Option.bind_some]
    exact hstep n n.lt_succ_self

/-- A loop that finishes has done each of its steps. -/
theorem loopSteps_prefix {f : σ → ℤ → Option σ} {a : ℤ} {n m : ℕ} {s : σ} (hm : m ≤ n)
    (h : (loopSteps f a n s).isSome) : (loopSteps f a m s).isSome := by
  induction n with
  | zero =>
    obtain rfl : m = 0 := Nat.le_zero.1 hm
    exact h
  | succ n ih =>
    rcases hm.lt_or_eq with hlt | rfl
    · apply ih (Nat.le_of_lt_succ hlt)
      rw [loopSteps] at h
      exact Option.isSome_of_isSome_bind h
    · exact h

/-- What each step keeps, the loop keeps. -/
theorem forLoop_preserves {f : σ → ℤ → Option σ} {a b : ℤ} {s s' : σ} {P : σ → Prop}
    (hstep : ∀ s i s', P s → f s i = some s' → P s') (hs : P s) (hrun : forLoop a b f s = some s') :
    P s' := by
  rw [forLoop] at hrun
  generalize (b - a).toNat = n at hrun
  induction n generalizing s' with
  | zero =>
    obtain rfl := Option.some.inj hrun
    exact hs
  | succ n ih =>
    obtain ⟨t, ht, hlast⟩ := Option.bind_eq_some_iff.1 hrun
    exact hstep t _ s' (ih ht) hlast

/-- A loop whose steps succeed and keep an invariant. -/
theorem forLoop_spec {f : σ → ℤ → Option σ} {a b : ℤ} {s : σ} {P : σ → Prop}
    (hstep : ∀ s i, a ≤ i → i < b → P s → ∃ s', f s i = some s' ∧ P s') (hs : P s) :
    ∃ s', forLoop a b f s = some s' ∧ P s' := by
  rw [forLoop]
  have hindices : ∀ m < (b - a).toNat, a ≤ a + (m : ℤ) ∧ a + (m : ℤ) < b := fun m hm => by omega
  generalize (b - a).toNat = n at hindices
  induction n with
  | zero => exact ⟨s, rfl, hs⟩
  | succ n ih =>
    obtain ⟨t, ht, hP⟩ := ih fun m hm => hindices m (hm.trans n.lt_succ_self)
    obtain ⟨hlow, hhigh⟩ := hindices n n.lt_succ_self
    rw [loopSteps, ht]
    exact hstep t _ hlow hhigh hP

/-- Each step of a loop that finishes succeeds. -/
theorem forLoop_each {f : σ → ℤ → Option σ} {a b : ℤ} {s s' : σ} {P : σ → Prop}
    (hstep : ∀ s i s', P s → f s i = some s' → P s') (hs : P s) (hrun : forLoop a b f s = some s')
    {i : ℤ} (hlow : a ≤ i) (hhigh : i < b) : ∃ t t', P t ∧ f t i = some t' := by
  have hprefix : (forLoop a (i + 1) f s).isSome := by
    refine loopSteps_prefix (n := (b - a).toNat) (by omega) ?_
    rw [forLoop] at hrun
    rw [hrun, Option.isSome_some]
  have hlast : (i + 1 - a).toNat = (i - a).toNat + 1 := by omega
  rw [forLoop, hlast, loopSteps] at hprefix
  obtain ⟨t', ht'⟩ := Option.isSome_iff_exists.1 hprefix
  obtain ⟨t, ht, hlast⟩ := Option.bind_eq_some_iff.1 ht'
  have hindex : a + ((i - a).toNat : ℤ) = i := by omega
  rw [hindex] at hlast
  exact ⟨t, t', forLoop_preserves hstep hs ht, hlast⟩

theorem forLoop_of_le {a b : ℤ} (h : b ≤ a) (f : σ → ℤ → Option σ) (s : σ) :
    forLoop a b f s = some s := by
  rw [forLoop, Int.toNat_of_nonpos (by omega), loopSteps]

/-! ## Arrays by their entries -/

/-- The array of length `n` with the entries `f`. -/
def tabulate (n : ℕ) (f : ℕ → α) : List α := (List.range n).map f

@[simp] theorem length_tabulate (n : ℕ) (f : ℕ → α) : (tabulate n f).length = n := by
  simp [tabulate]

theorem getElem?_tabulate (n : ℕ) (f : ℕ → α) (k : ℕ) :
    (tabulate n f)[k]? = if k < n then some (f k) else none := by
  by_cases hk : k < n
  · simp [tabulate, hk]
  · simp [tabulate, hk]

theorem tabulate_congr {n : ℕ} {f g : ℕ → α} (h : ∀ k < n, f k = g k) :
    tabulate n f = tabulate n g :=
  List.map_congr_left fun k hk => h k (List.mem_range.1 hk)

/-- Two ways to say which entries are new. -/
theorem tabulate_if_congr {n : ℕ} {p q : ℕ → Prop} [DecidablePred p] [DecidablePred q]
    {f g : ℕ → α} (h : ∀ k, p k ↔ q k) :
    tabulate n (fun k => if p k then f k else g k) =
      tabulate n fun k => if q k then f k else g k :=
  tabulate_congr fun k _ => if_congr (h k) rfl rfl

/-- One new entry more. -/
theorem tabulate_update_if {n i : ℕ} {p q : ℕ → Prop} [DecidablePred p] [DecidablePred q]
    {f g : ℕ → α} (h : ∀ k, q k ↔ k = i ∨ p k) :
    tabulate n (Function.update (fun k => if p k then f k else g k) i (f i)) =
      tabulate n fun k => if q k then f k else g k := by
  apply tabulate_congr
  intro k _
  by_cases hk : k = i
  · subst hk
    rw [Function.update_self, if_pos ((h k).2 (Or.inl rfl))]
  · rw [Function.update_of_ne hk]
    exact if_congr (((h k).trans (or_iff_right hk)).symm) rfl rfl

theorem tabulate_eq_iff {n : ℕ} {f g : ℕ → α} :
    tabulate n f = tabulate n g ↔ ∀ k < n, f k = g k := by
  constructor
  · intro h k hk
    have hget := congrArg (·[k]?) h
    simpa only [getElem?_tabulate, if_pos hk, Option.some.injEq] using hget
  · exact tabulate_congr

theorem tabulate_getD (xs : List α) (d : α) : tabulate xs.length (fun k => xs.getD k d) = xs := by
  apply List.ext_getElem
  · rw [length_tabulate]
  · intro k _ hk
    simp [tabulate, hk]

theorem load_tabulate {n : ℕ} {f : ℕ → α} {i : ℤ} (h₀ : 0 ≤ i) (h : i < n) :
    load (tabulate n f) i = some (f i.toNat) := by
  rw [load, if_pos h₀, getElem?_tabulate, if_pos (by omega)]

theorem bounds_of_load {xs : List α} {i : ℤ} {x : α} (h : load xs i = some x) :
    0 ≤ i ∧ i < xs.length := by
  rw [load] at h
  split_ifs at h with hpos
  have hlt := (List.getElem?_eq_some_iff.1 h).1
  omega

theorem bounds_of_store {xs ys : List α} {i : ℤ} {x : α} (h : store xs i x = some ys) :
    0 ≤ i ∧ i < xs.length := by
  rw [store] at h
  split_ifs at h with hbounds
  exact hbounds

theorem store_tabulate {n : ℕ} {f : ℕ → α} {i : ℤ} {x : α} (h₀ : 0 ≤ i) (h : i < n) :
    store (tabulate n f) i x = some (tabulate n (Function.update f i.toNat x)) := by
  rw [store, length_tabulate, if_pos ⟨h₀, h⟩, Option.some.injEq]
  apply List.ext_getElem?
  intro k
  rw [List.getElem?_set, getElem?_tabulate, getElem?_tabulate, length_tabulate]
  by_cases hk : i.toNat = k
  · subst hk
    simp
  · rw [if_neg hk, Function.update_of_ne (Ne.symm hk)]

theorem length_store {xs ys : List α} {i : ℤ} {x : α} (h : store xs i x = some ys) :
    ys.length = xs.length := by
  rw [store] at h
  split_ifs at h
  rw [← Option.some.inj h, List.length_set]

theorem store_eq_none {xs : List α} {i : ℤ} {x : α} (h : i < 0 ∨ (xs.length : ℤ) ≤ i) :
    store xs i x = none := by
  rw [store, if_neg (by omega)]

/-- `for (j = 0; j < n; j++) xs[j] = f(j, xs[j])` -/
def updateAll (xs : List α) (n : ℤ) (f : ℤ → α → α) : Option (List α) :=
  forLoop 0 n (fun xs j => (load xs j).bind fun x => store xs j (f j x)) xs

theorem updateAll_tabulate {n : ℕ} {g : ℕ → α} {m : ℤ} (f : ℤ → α → α) (hm : m ≤ n) :
    updateAll (tabulate n g) m f =
      some (tabulate n fun k => if (k : ℤ) < m then f k (g k) else g k) := by
  have hsteps := loopSteps_invariant
    (f := fun xs j => (load xs j).bind fun x => store xs j (f j x)) (a := 0) (n := m.toNat)
    (s := tabulate n g) (fun i => tabulate n fun k => if k < i then f k (g k) else g k)
    (tabulate_congr fun k _ => if_neg k.not_lt_zero) fun i hi => by
      rw [zero_add, load_tabulate (by omega) (by omega), Option.bind_some,
        store_tabulate (by omega) (by omega), Option.some.injEq, Int.toNat_natCast,
        if_neg (lt_irrefl i)]
      exact tabulate_update_if fun k => by omega
  rw [updateAll, forLoop, sub_zero, hsteps, Option.some.injEq]
  exact tabulate_if_congr fun k => by omega

theorem updateAll_map (xs : List α) (f : α → α) :
    updateAll xs xs.length (fun _ x => f x) = some (xs.map f) := by
  cases xs with
  | nil => rfl
  | cons x xs =>
    have hall := updateAll_tabulate (g := fun k => (x :: xs).getD k x) (fun _ x => f x)
      (le_refl ((x :: xs).length : ℤ))
    rw [tabulate_getD] at hall
    rw [hall, Option.some.injEq]
    apply List.ext_getElem?
    intro k
    rw [getElem?_tabulate, List.getElem?_map]
    by_cases hk : k < (x :: xs).length
    · rw [if_pos hk, if_pos (by omega), List.getElem?_eq_getElem hk, Option.map_some,
        List.getD_eq_getElem?_getD, List.getElem?_eq_getElem hk, Option.getD_some]
    · rw [if_neg hk, List.getElem?_eq_none (by omega), Option.map_none]

/-- A loop that adds up terms. -/
theorem forLoop_sum {M : Type} [AddCommMonoid M] {n : ℤ} (body : M → ℤ → Option M) (f : ℕ → M)
    (s : M) (hbody : ∀ k : ℕ, (k : ℤ) < n → ∀ t, body t k = some (t + f k)) :
    forLoop 0 n body s = some (s + ∑ k ∈ Finset.range n.toNat, f k) := by
  rw [forLoop, sub_zero]
  refine loopSteps_invariant (fun m => s + ∑ k ∈ Finset.range m, f k) ?_ fun m hm => ?_
  · rw [Finset.sum_range_zero, add_zero]
  · rw [zero_add, hbody m (by omega), Finset.sum_range_succ, add_assoc]

/-! ## Arrays in two parts -/

theorem load_append_cons (xs ys : List α) (y : α) : load (xs ++ y :: ys) xs.length = some y := by
  rw [load, if_pos (Int.natCast_nonneg _), Int.toNat_natCast]
  simp

theorem store_append_cons (xs ys : List α) (y z : α) :
    store (xs ++ y :: ys) xs.length z = some (xs ++ z :: ys) := by
  rw [store, if_pos ⟨Int.natCast_nonneg _, by rw [List.length_append, List.length_cons]; omega⟩,
    Int.toNat_natCast]
  simp

/-! ## Filling a range -/

/-- `for (j = a; j < b; j++) xs[j] = x` -/
def fill (xs : List α) (a b : ℤ) (x : α) : Option (List α) :=
  forLoop a b (fun xs j => store xs j x) xs

theorem fill_tabulate {n : ℕ} {f : ℕ → α} {a b : ℤ} (x : α) (ha : 0 ≤ a) (hb : b ≤ n) :
    fill (tabulate n f) a b x =
      some (tabulate n fun k => if a ≤ k ∧ (k : ℤ) < b then x else f k) := by
  have hsteps := loopSteps_invariant (f := fun xs j => store xs j x) (a := a)
    (n := (b - a).toNat) (s := tabulate n f)
    (fun m => tabulate n fun k => if a ≤ k ∧ (k : ℤ) < a + m then x else f k)
    (tabulate_congr fun k _ => if_neg (by omega)) fun m hm => by
      rw [store_tabulate (by omega) (by omega), Option.some.injEq]
      exact tabulate_update_if fun k => by push_cast; omega
  rw [fill, forLoop, hsteps, Option.some.injEq]
  exact tabulate_if_congr fun k => by omega

theorem length_fill {xs ys : List α} {a b : ℤ} {x : α} (h : fill xs a b x = some ys) :
    ys.length = xs.length :=
  forLoop_preserves (P := fun ys => ys.length = xs.length)
    (fun _ _ _ hlength hstep => (length_store hstep).trans hlength) rfl h

/-- Filling succeeds when the range is empty or inside of the array. -/
theorem exists_fill_iff (xs : List α) (a b : ℤ) (x : α) :
    (∃ ys, fill xs a b x = some ys) ↔ b ≤ a ∨ 0 ≤ a ∧ b ≤ xs.length := by
  constructor
  · rintro ⟨ys, hrun⟩
    by_contra hout
    have hbounds : ∀ i, a ≤ i → i < b → 0 ≤ i ∧ i < xs.length := by
      intro i hlow hhigh
      obtain ⟨t, t', hlength, hstep⟩ := forLoop_each (P := fun ys => ys.length = xs.length)
        (fun _ _ _ hlength hstep => (length_store hstep).trans hlength) rfl hrun hlow hhigh
      rw [← hlength]
      exact bounds_of_store hstep
    have hfirst := hbounds a le_rfl (by omega)
    have hlast := hbounds (b - 1) (by omega) (by omega)
    omega
  · intro hinside
    obtain ⟨ys, hrun, -⟩ := forLoop_spec (f := fun xs j => store xs j x) (a := a) (b := b) (s := xs)
      (P := fun ys => ys.length = xs.length) (fun ys i hlow hhigh hlength => by
        have hstep : store ys i x = some (ys.set i.toNat x) := by
          rw [store, if_pos (by omega)]
        exact ⟨_, hstep, (length_store hstep).trans hlength⟩) rfl
    exact ⟨ys, hrun⟩

/-- Filling fails when the range is not empty and leaves the array. -/
theorem fill_eq_none {xs : List α} {a b : ℤ} (x : α) (hab : a < b)
    (h : a < 0 ∨ (xs.length : ℤ) < b) : fill xs a b x = none := by
  by_contra hsome
  obtain ⟨ys, hrun⟩ := Option.ne_none_iff_exists'.1 hsome
  have hinside := (exists_fill_iff xs a b x).1 ⟨ys, hrun⟩
  omega

end PQL
