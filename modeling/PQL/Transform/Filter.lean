import PQL.Lib.Arrays

/-!
# The filter cascade

`filt` runs a second-order section with two mixed state variables.  In place or not, it solves the
difference equation of the section with zero initial state (`filt_tabulate`,
`response_differenceEq`), so the cascade of `_iir` is the composition of its high-pass sections, a
gain, its low-pass sections and a gain (`iirCascade_composition`).  Arithmetic is exact; the poles
and the gains are parameters.
-/

namespace PQL

variable {K : Type} [CommRing K]

/-- The coefficients of a second-order section. -/
structure SecondOrder (K : Type) where
  a1 : K
  a2 : K
  b1 : K
  b2 : K

/-! ## The filter -/

section Model

/-- The output array and the state of `filt`. -/
structure FiltState (K : Type) where
  fo : List K
  d1 : K
  d2 : K

/-- A step of `filt`; the input array is `fi`, or else the output array itself. -/
def filtStep (c : SecondOrder K) (fi : Option (List K)) (s : FiltState K) (i : ℤ) :
    Option (FiltState K) :=
  (load (fi.getD s.fo) i).bind fun x =>
    let out := x + s.d1
    (store s.fo i out).map fun fo =>
      { fo
        d1 := c.b1 * x - c.a1 * out + s.d2
        d2 := c.b2 * x - c.a2 * out }

def filt (c : SecondOrder K) (npts : ℤ) (fi : Option (List K)) (fo : List K) : Option (List K) :=
  (forLoop 0 npts (filtStep c fi) ⟨fo, 0, 0⟩).map FiltState.fo

/-- Sections one after the other, in place. -/
def cascade (sections : List (SecondOrder K)) (npts : ℤ) (af : List K) : Option (List K) :=
  sections.foldlM (fun af c => filt c npts none af) af

/-- Sections one after the other, each into an array of its own with some contents. -/
def cascadeApart (sections : List (SecondOrder K × (ℕ → K))) (npts : ℕ) (af : List K) :
    Option (List K) :=
  sections.foldlM (fun af c => filt c.1 npts (some af) (tabulate npts c.2)) af

/-- `iircomplex`. -/
structure Pole (K : Type) where
  real : K
  imag : K

def highSection (p : Pole K) : SecondOrder K :=
  ⟨-2 * p.real, p.real * p.real + p.imag * p.imag, -2, 1⟩

def lowSection (p : Pole K) : SecondOrder K :=
  ⟨-2 * p.real, p.real * p.real + p.imag * p.imag, 2, 1⟩

/-- The high-pass or the low-pass part of `_iir`: a section for every other pole, and the gain. -/
def iirPart (toSection : Pole K → SecondOrder K) (poles : List (Pole K)) (b0 : K) (npts : ℤ)
    (af : List K) : Option (List K) :=
  if poles = [] then some af
  else
    (forLoop 0 ((poles.length + 1) / 2 : ℕ)
      (fun af k => (load poles (2 * k)).bind fun p => filt (toSection p) npts none af) af).bind
        fun af => updateAll af npts fun _ x => b0 * x

/-- The poles and the gains that `highpass` and `lowpass` return. -/
structure IirFilter (K : Type) where
  ph : List (Pole K)
  b0h : K
  pl : List (Pole K)
  b0l : K

/-- The filtering of `_iir`. -/
def iirCascade (f : IirFilter K) (npts : ℤ) (af : List K) : Option (List K) :=
  (iirPart highSection f.ph f.b0h npts af).bind fun af => iirPart lowSection f.pl f.b0l npts af

end Model

/-! ## Difference equations -/

/-- The value `k` steps before, from zero initial state. -/
def past (x : ℕ → K) (k i : ℕ) : K := if k ≤ i then x (i - k) else 0

/-- `y` solves the difference equation of the section for the input `x`. -/
def DifferenceEq (c : SecondOrder K) (n : ℕ) (x y : ℕ → K) : Prop :=
  ∀ i < n, y i = x i + c.b1 * past x 1 i + c.b2 * past x 2 i - c.a1 * past y 1 i - c.a2 * past y 2 i

/-- An array that solves the difference equation for another one. -/
def Filtered (c : SecondOrder K) (xs ys : List K) : Prop :=
  ys.length = xs.length ∧
    DifferenceEq c xs.length (fun i => xs.getD i 0) fun i => ys.getD i 0

/-- The composition of the difference equations, in order. -/
def Composed : List (SecondOrder K) → List K → List K → Prop
  | [], xs, ys => ys = xs
  | c :: sections, xs, ys => ∃ zs, Filtered c xs zs ∧ Composed sections zs ys

section Response

variable (c : SecondOrder K) (x : ℕ → K)

/-- The state of `filt` before the sample `i`. -/
def delays : ℕ → K × K
  | 0 => (0, 0)
  | i + 1 =>
    let out := x i + (delays i).1
    (c.b1 * x i - c.a1 * out + (delays i).2, c.b2 * x i - c.a2 * out)

def response (i : ℕ) : K := x i + (delays c x i).1

theorem response_differenceEq (n : ℕ) : DifferenceEq c n x (response c x) := by
  intro i _
  match i with
  | 0 => simp [response, delays, past]
  | 1 =>
    have hone : response c x 1 = x 1 + (c.b1 * x 0 - c.a1 * response c x 0 + 0) := rfl
    have hpast : ∀ y : ℕ → K, past y 1 1 = y 0 := fun y => if_pos le_rfl
    have hpast' : ∀ y : ℕ → K, past y 2 1 = 0 := fun y => if_neg (by omega)
    rw [hpast, hpast, hpast', hpast', hone]
    ring
  | i + 2 =>
    have hsecond : (delays c x (i + 1)).2 = c.b2 * x i - c.a2 * response c x i := rfl
    have hfirst : (delays c x (i + 2)).1 =
        c.b1 * x (i + 1) - c.a1 * response c x (i + 1) + (delays c x (i + 1)).2 := rfl
    have hone : past x 1 (i + 2) = x (i + 1) := if_pos (by omega)
    have htwo : past x 2 (i + 2) = x i := if_pos (by omega)
    have hone' : past (response c x) 1 (i + 2) = response c x (i + 1) := if_pos (by omega)
    have htwo' : past (response c x) 2 (i + 2) = response c x i := if_pos (by omega)
    rw [hone, htwo, hone', htwo', response, hfirst, hsecond]
    ring

variable {c x}

/-- The difference equation has one solution. -/
theorem DifferenceEq.unique {n : ℕ} {y z : ℕ → K} (hy : DifferenceEq c n x y)
    (hz : DifferenceEq c n x z) : ∀ i < n, y i = z i := by
  intro i
  induction i using Nat.strong_induction_on with
  | _ i ih =>
    intro hi
    have hpast : ∀ k, 1 ≤ k → past y k i = past z k i := by
      intro k hk
      unfold past
      split_ifs with hle
      · exact ih (i - k) (by omega) (by omega)
      · rfl
    rw [hy i hi, hz i hi, hpast 1 le_rfl, hpast 2 one_le_two]

theorem DifferenceEq.congr {n : ℕ} {x' y y' : ℕ → K} (hx : ∀ i < n, x i = x' i)
    (hy : ∀ i < n, y i = y' i) (h : DifferenceEq c n x y) : DifferenceEq c n x' y' := by
  intro i hi
  have hpast : ∀ f g : ℕ → K, (∀ j < n, f j = g j) → ∀ k, past f k i = past g k i := by
    intro f g hfg k
    unfold past
    split_ifs with hle
    · exact hfg _ (by omega)
    · rfl
  rw [← hpast x x' hx, ← hpast x x' hx, ← hpast y y' hy, ← hpast y y' hy, ← hx i hi, ← hy i hi]
  exact h i hi

end Response

theorem getD_tabulate {n : ℕ} (f : ℕ → K) {i : ℕ} (hi : i < n) : (tabulate n f).getD i 0 = f i := by
  rw [List.getD_eq_getElem?_getD, getElem?_tabulate, if_pos hi, Option.getD_some]

theorem filtered_tabulate (c : SecondOrder K) (n : ℕ) (x : ℕ → K) :
    Filtered c (tabulate n x) (tabulate n (response c x)) := by
  refine ⟨by rw [length_tabulate, length_tabulate], ?_⟩
  rw [length_tabulate]
  exact (response_differenceEq c x n).congr (fun i hi => (getD_tabulate x hi).symm)
    fun i hi => (getD_tabulate _ hi).symm

theorem Filtered.unique {c : SecondOrder K} {xs ys zs : List K} (hy : Filtered c xs ys)
    (hz : Filtered c xs zs) : ys = zs := by
  have heq := hy.2.unique hz.2
  rw [← tabulate_getD ys 0, ← tabulate_getD zs 0, hy.1, hz.1]
  exact tabulate_congr heq

theorem Composed.unique {sections : List (SecondOrder K)} {xs ys zs : List K}
    (hy : Composed sections xs ys) (hz : Composed sections xs zs) : ys = zs := by
  induction sections generalizing xs with
  | nil => exact Eq.trans hy (Eq.symm hz)
  | cons c sections ih =>
    obtain ⟨vs, hvs, hy⟩ := hy
    obtain ⟨ws, hws, hz⟩ := hz
    obtain rfl := hvs.unique hws
    exact ih hy hz

theorem Composed.length_eq {sections : List (SecondOrder K)} {xs ys : List K}
    (h : Composed sections xs ys) : ys.length = xs.length := by
  induction sections generalizing xs with
  | nil => rw [show ys = xs from h]
  | cons c sections ih =>
    obtain ⟨zs, hzs, h⟩ := h
    rw [ih h, hzs.1]

theorem Composed.iff_eq {sections : List (SecondOrder K)} {xs ys : List K}
    (h : Composed sections xs ys) (zs : List K) : Composed sections xs zs ↔ zs = ys := by
  constructor
  · exact fun hz => hz.unique h
  · rintro rfl
    exact h

/-! ## The filter solves its difference equation -/

/-- `filt`, in place or from another array. -/
theorem filt_tabulate (c : SecondOrder K) {n : ℕ} {npts : ℤ} (hn : npts ≤ n) (x g : ℕ → K)
    {fi : Option (List K)} (hfi : fi = none ∧ x = g ∨ fi = some (tabulate n x)) :
    filt c npts fi (tabulate n g) =
      some (tabulate n fun k => if (k : ℤ) < npts then response c x k else g k) := by
  have hsteps := loopSteps_invariant (f := filtStep c fi) (a := 0) (n := npts.toNat)
    (s := ⟨tabulate n g, 0, 0⟩)
    (fun i => ⟨tabulate n fun k => if k < i then response c x k else g k, (delays c x i).1,
      (delays c x i).2⟩)
    (by
      have hnone : (tabulate n fun k => if k < 0 then response c x k else g k) = tabulate n g :=
        tabulate_congr fun k _ => if_neg k.not_lt_zero
      rw [hnone]
      rfl) fun i hi => by
      -- the input has not been overwritten
      have hload : load (fi.getD (tabulate n fun k => if k < i then response c x k else g k))
          (0 + (i : ℤ)) = some (x i) := by
        rw [zero_add]
        rcases hfi with ⟨rfl, rfl⟩ | rfl
        · rw [Option.getD_none, load_tabulate (by omega) (by omega), Int.toNat_natCast,
            if_neg (lt_irrefl i)]
        · rw [Option.getD_some, load_tabulate (by omega) (by omega), Int.toNat_natCast]
      have hstore : (tabulate n (Function.update
          (fun k => if k < i then response c x k else g k) i (response c x i))) =
          tabulate n fun k => if k < i + 1 then response c x k else g k :=
        tabulate_update_if fun k => by omega
      unfold filtStep
      dsimp only
      rw [hload, Option.bind_some]
      change (store _ _ (response c x i)).map _ = _
      rw [zero_add, store_tabulate (by omega) (by omega), Int.toNat_natCast, hstore,
        Option.map_some]
      rfl
  unfold filt
  rw [forLoop, sub_zero, hsteps, Option.map_some, Option.some.injEq]
  exact tabulate_if_congr fun k => by omega

/-- All points of an array. -/
theorem filt_filtered (c : SecondOrder K) (xs : List K) (g : ℕ → K) :
    ∃ ys, filt c xs.length none xs = some ys ∧
      filt c xs.length (some xs) (tabulate xs.length g) = some ys ∧ Filtered c xs ys := by
  have hall : ∀ g : ℕ → K, (tabulate xs.length fun k =>
      if (k : ℤ) < xs.length then response c (fun i => xs.getD i 0) k else g k) =
        tabulate xs.length (response c fun i => xs.getD i 0) :=
    fun g => tabulate_congr fun k hk => if_pos (by omega)
  have hplace := filt_tabulate c (le_refl (xs.length : ℤ)) (fun i => xs.getD i 0) _
    (.inl ⟨rfl, rfl⟩)
  have hapart := filt_tabulate c (le_refl (xs.length : ℤ)) (fun i => xs.getD i 0) g (.inr rfl)
  have hfiltered := filtered_tabulate c xs.length fun i => xs.getD i 0
  rw [hall, tabulate_getD] at hplace hapart
  rw [tabulate_getD] at hfiltered
  exact ⟨_, hplace, hapart, hfiltered⟩

/-! ## The cascade -/

/-- Every other pole. -/
def everyOther (poles : List (Pole K)) : List (Pole K) :=
  (List.range ((poles.length + 1) / 2)).filterMap fun k => poles[2 * k]?

theorem cascade_composed (sections : List (SecondOrder K × (ℕ → K))) (xs : List K) :
    ∃ ys, cascade (sections.map Prod.fst) xs.length xs = some ys ∧
      cascadeApart sections xs.length xs = some ys ∧ Composed (sections.map Prod.fst) xs ys := by
  unfold cascade cascadeApart
  induction sections generalizing xs with
  | nil => exact ⟨xs, rfl, rfl, rfl⟩
  | cons c sections ih =>
    obtain ⟨zs, hplace, hapart, hfiltered⟩ := filt_filtered c.1 xs c.2
    obtain ⟨ys, hrest, hrest', hcomposed⟩ := ih zs
    rw [hfiltered.1] at hrest hrest'
    refine ⟨ys, ?_, ?_, zs, hfiltered, hcomposed⟩
    · rw [List.map_cons, List.foldlM_cons, hplace]
      exact hrest
    · rw [List.foldlM_cons, hapart]
      exact hrest'

/-- The loop over the poles runs the cascade. -/
theorem poleLoop_eq (toSection : Pole K → SecondOrder K) (poles : List (Pole K)) (npts : ℤ)
    (af : List K) :
    forLoop 0 ((poles.length + 1) / 2 : ℕ)
      (fun af k => (load poles (2 * k)).bind fun p => filt (toSection p) npts none af) af =
    cascade ((everyOther poles).map toSection) npts af := by
  have hsteps : ∀ n : ℕ, n ≤ (poles.length + 1) / 2 →
      loopSteps (fun af k => (load poles (2 * k)).bind fun p => filt (toSection p) npts none af)
        0 n af =
      cascade (((List.range n).filterMap fun k => poles[2 * k]?).map toSection) npts af := by
    intro n
    induction n with
    | zero => exact fun _ => rfl
    | succ n ih =>
      intro hn
      have hlen : 2 * n < poles.length := by omega
      have hindex : (2 * (0 + (n : ℤ))).toNat = 2 * n := by omega
      rw [loopSteps, ih (by omega), List.range_succ, List.filterMap_append, List.map_append]
      unfold cascade
      rw [List.foldlM_append]
      congr 1
      funext af
      rw [load, if_pos (by omega), hindex, List.getElem?_eq_getElem hlen]
      simp [List.getElem?_eq_getElem hlen]
  rw [forLoop, sub_zero, Int.toNat_natCast, hsteps _ le_rfl, everyOther]

/-- The gain behind a part; a part without poles has none. -/
def gained (poles : List (Pole K)) (b0 : K) (xs : List K) : List K :=
  if poles = [] then xs else xs.map (b0 * ·)

theorem iirPart_composed (toSection : Pole K → SecondOrder K) (poles : List (Pole K)) (b0 : K)
    (xs : List K) :
    ∃ ys, Composed ((everyOther poles).map toSection) xs ys ∧
      iirPart toSection poles b0 xs.length xs = some (gained poles b0 ys) ∧
        (gained poles b0 ys).length = xs.length := by
  unfold iirPart gained
  by_cases hnone : poles = []
  · subst hnone
    have hempty : (everyOther ([] : List (Pole K))).map toSection = [] := by simp [everyOther]
    rw [hempty]
    exact ⟨xs, rfl, if_pos rfl, by rw [if_pos rfl]⟩
  · obtain ⟨ys, hplace, -, hcomposed⟩ := cascade_composed
      (((everyOther poles).map toSection).map fun c => (c, fun _ => (0 : K))) xs
    have hsections : (((everyOther poles).map toSection).map fun c => (c, fun _ : ℕ => (0 : K))).map
        Prod.fst = (everyOther poles).map toSection := by
      rw [List.map_map]
      exact List.map_id _
    rw [hsections] at hplace hcomposed
    have hlength := hcomposed.length_eq
    refine ⟨ys, hcomposed, ?_, ?_⟩
    · rw [if_neg hnone, if_neg hnone, poleLoop_eq, hplace, Option.bind_some, ← hlength]
      exact updateAll_map ys _
    · rw [if_neg hnone, List.length_map, hlength]

/-- A cascade in place composes the difference equations of its sections, as it does with separate
arrays, and `_iir` composes its four maps. -/
theorem iirCascade_composition (xs : List K) :
    (∀ sections : List (SecondOrder K × (ℕ → K)),
      ∃ ys, cascade (sections.map Prod.fst) xs.length xs = some ys ∧
        cascadeApart sections xs.length xs = some ys ∧
          ∀ zs, Composed (sections.map Prod.fst) xs zs ↔ zs = ys) ∧
    ∀ f : IirFilter K, ∃ hs ls,
      (∀ zs, Composed ((everyOther f.ph).map highSection) xs zs ↔ zs = hs) ∧
      (∀ zs, Composed ((everyOther f.pl).map lowSection) (gained f.ph f.b0h hs) zs ↔ zs = ls) ∧
        iirCascade f xs.length xs = some (gained f.pl f.b0l ls) := by
  constructor
  · intro sections
    obtain ⟨ys, hplace, hapart, hcomposed⟩ := cascade_composed sections xs
    exact ⟨ys, hplace, hapart, hcomposed.iff_eq⟩
  · intro f
    obtain ⟨hs, hhigh, hrun, hlength⟩ := iirPart_composed highSection f.ph f.b0h xs
    obtain ⟨ls, hlow, hrun', -⟩ := iirPart_composed lowSection f.pl f.b0l (gained f.ph f.b0h hs)
    refine ⟨hs, ls, hhigh.iff_eq, hlow.iff_eq, ?_⟩
    rw [iirCascade, hrun, Option.bind_some, ← hlength, hrun']

/-! ### An impulse -/

/-- Two sections with the numerators of the high pass and of the low pass. -/
example : cascade [⟨0, 0, -2, 1⟩, ⟨0, 0, 2, 1⟩] 5 [(1 : ℤ), 0, 0, 0, 0] =
    some [1, 0, -2, 0, 1] := by
  decide

end PQL
