import PQL.Transform.Filter

/-!
# The design of the filters

`lowpass` places the poles of an analog filter on a half circle, moves them by the bilinear
transform and computes the gain; `highpass` moves the poles of `lowpass` once more.  Both write the
poles of a pair side by side into the array of the caller (`lowpass_eq`, `highpass_eq`).
Arithmetic is exact; the functions of the mathematical library are parameters.
-/

namespace PQL

/-! ## Complex arithmetic -/

section Arithmetic

variable {K : Type} [Field K]

def addC (u v : Pole K) : Pole K := ⟨u.real + v.real, u.imag + v.imag⟩

def subC (u v : Pole K) : Pole K := ⟨u.real - v.real, u.imag - v.imag⟩

def mulC (u v : Pole K) : Pole K :=
  ⟨u.real * v.real - u.imag * v.imag, u.real * v.imag + u.imag * v.real⟩

def cmulC (a : K) (u : Pole K) : Pole K := ⟨a * u.real, a * u.imag⟩

def conjC (u : Pole K) : Pole K := ⟨u.real, -u.imag⟩

/-- `div_c`; it leaves the program when the divisor is zero. -/
def divC [DecidableEq K] (u v : Pole K) : Option (Pole K) :=
  if ¬(v.real = 0 ∧ v.imag = 0) then
    some ⟨(u.real * v.real + u.imag * v.imag) / (v.real * v.real + v.imag * v.imag),
      (u.imag * v.real - u.real * v.imag) / (v.real * v.real + v.imag * v.imag)⟩
  else none

def one : Pole K := ⟨1, 0⟩

end Arithmetic

/-! ## The design -/

/-- `G_PI` and the functions of the mathematical library. -/
structure MathFunctions (K : Type) where
  pi : K
  sin : K → K
  cos : K → K
  tan : K → K

section Model

variable {K : Type} [Field K]

/-- `p[i] = q; p[i+1] = conj_c(p[i]);` -/
def setPair (p : List (Pole K)) (i : ℤ) (q : Pole K) : Option (List (Pole K)) :=
  (store p i q).bind fun p => (load p i).bind fun q => store p (i + 1) (conjC q)

/-- `for (i=0 ; i<n ; i += 2)`. -/
def pairLoop {σ : Type} (n : ℤ) (f : σ → ℤ → Option σ) (s : σ) : Option σ :=
  forLoop 0 ((n + 1) / 2) (fun s k => f s (2 * k)) s

/-- `wc`. -/
def warped (T : MathFunctions K) (fc dt : K) : K :=
  let wcp := 2 * fc * T.pi
  2 / dt * T.tan (wcp * dt / 2)

/-- A pole of the continuous filter. -/
def analogPole (T : MathFunctions K) (wc : K) (n i : ℤ) : Pole K :=
  let i1 := i + 1
  ⟨-wc * T.cos ((i1 : K) * T.pi / ((2 * n : ℤ) : K)),
    wc * T.sin ((i1 : K) * T.pi / ((2 * n : ℤ) : K))⟩

/-- The loop that moves the poles by the bilinear transform. -/
def bilinearStep [DecidableEq K] (dt : K) (p : List (Pole K)) (i : ℤ) : Option (List (Pole K)) :=
  (load p i).bind fun q =>
    let q := cmulC (dt / 2) q
    (divC (addC one q) (subC one q)).bind fun q => setPair p i q

/-- The loop over the gain; `op` adds or subtracts. -/
def gainFactor (op : Pole K → Pole K → Pole K) (p : List (Pole K)) (b0 : K) (i : ℤ) : Option K :=
  (load p i).bind fun q => (load p (i + 1)).map fun r =>
    b0 * 4 / (mulC (op one q) (op one r)).real

/-- The poles and the gain. -/
def lowpass [DecidableEq K] (T : MathFunctions K) (fc dt : K) (n : ℤ) (p : List (Pole K)) :
    Option (List (Pole K) × K) :=
  (pairLoop n (fun p i => setPair p i (analogPole T (warped T fc dt) n i)) p).bind fun p =>
    (pairLoop n (bilinearStep dt) p).bind fun p =>
      (pairLoop n (gainFactor subC p) 1).map fun b0 => (p, 1 / b0)

/-- The loop that makes the poles of the high-pass filter. -/
def highpassStep [DecidableEq K] (alpha : K) (p : List (Pole K)) (i : ℤ) : Option (List (Pole K)) :=
  (load p i).bind fun q =>
    (divC (subC (cmulC alpha one) q) (subC one (cmulC alpha q))).bind fun q => setPair p i q

def highpass [DecidableEq K] (T : MathFunctions K) (fc dt : K) (n : ℤ) (p : List (Pole K)) :
    Option (List (Pole K) × K) :=
  let alpha := T.cos (warped T fc dt * dt)
  (lowpass T fc dt n p).bind fun low =>
    (pairLoop n (highpassStep alpha) low.1).bind fun p =>
      (pairLoop n (gainFactor addC p) 1).map fun b0 => (p, 1 / b0)

/-! ## Pairs of poles -/

/-- The entries of an array that holds `P k` and its conjugate in the pair `k`. -/
def pairOf (P : ℕ → Pole K) (j : ℕ) : Pole K := if j % 2 = 0 then P (j / 2) else conjC (P (j / 2))

theorem setPair_tabulate {N k : ℕ} (g : ℕ → Pole K) (q : Pole K) (hN : 2 * k + 1 < N) :
    setPair (tabulate N g) (2 * (k : ℤ)) q =
      some (tabulate N fun j => if j / 2 = k then pairOf (fun _ => q) j else g j) := by
  have hindex : (2 * (k : ℤ)).toNat = 2 * k := by omega
  have hindex' : (2 * (k : ℤ) + 1).toNat = 2 * k + 1 := by omega
  unfold setPair
  rw [store_tabulate (by omega) (by omega), Option.bind_some, hindex,
    load_tabulate (by omega) (by omega), Option.bind_some, hindex,
    store_tabulate (by omega) (by omega), hindex', Function.update_self, Option.some.injEq]
  refine tabulate_congr fun j _ => ?_
  unfold pairOf
  rcases Nat.lt_trichotomy j (2 * k) with hlt | rfl | hlt
  · rw [Function.update_of_ne (by omega), Function.update_of_ne (by omega), if_neg (by omega)]
  · rw [Function.update_of_ne (by omega), Function.update_self, if_pos (by omega),
      if_pos (by omega)]
  · rcases Nat.lt_or_ge (2 * k + 1) j with hlt' | hle
    · rw [Function.update_of_ne (by omega), Function.update_of_ne (by omega), if_neg (by omega)]
    · obtain rfl : j = 2 * k + 1 := by omega
      rw [Function.update_self, if_pos (by omega), if_neg (by omega)]

/-- A loop over the pairs that puts `P k` and its conjugate into the pair `k`. -/
theorem pairLoop_tabulate {N m : ℕ} {f : List (Pole K) → ℤ → Option (List (Pole K))}
    {g : ℕ → Pole K} (P : ℕ → Pole K) (hN : 2 * m ≤ N)
    (hbody : ∀ k < m, ∀ h : ℕ → Pole K, h (2 * k) = g (2 * k) →
      f (tabulate N h) (2 * (k : ℤ)) = setPair (tabulate N h) (2 * (k : ℤ)) (P k)) :
    pairLoop ((2 * m : ℕ) : ℤ) f (tabulate N g) =
      some (tabulate N fun j => if j < 2 * m then pairOf P j else g j) := by
  have hcount : ((((2 * m : ℕ) : ℤ) + 1) / 2 - 0).toNat = m := by omega
  unfold pairLoop
  rw [forLoop, hcount]
  refine loopSteps_invariant
    (fun k => tabulate N fun j => if j < 2 * k then pairOf P j else g j) ?_ fun k hk => ?_
  · exact tabulate_congr fun j _ => if_neg (Nat.not_lt_zero j)
  · rw [zero_add, hbody k hk _ (if_neg (lt_irrefl _)), setPair_tabulate _ _ (by omega),
      Option.some.injEq]
    refine tabulate_congr fun j _ => ?_
    rcases Nat.lt_trichotomy (j / 2) k with hlt | rfl | hlt
    · rw [if_neg (by omega), if_pos (by omega), if_pos (by omega)]
    · rw [if_pos rfl, if_pos (by omega)]
      rfl
    · rw [if_neg (by omega), if_neg (by omega), if_neg (by omega)]

theorem load_pairs {N m k : ℕ} {P g : ℕ → Pole K} (hN : 2 * m ≤ N) (hk : k < m) :
    load (tabulate N fun j => if j < 2 * m then pairOf P j else g j) (2 * (k : ℤ)) = some (P k) ∧
      load (tabulate N fun j => if j < 2 * m then pairOf P j else g j) (2 * (k : ℤ) + 1) =
        some (conjC (P k)) := by
  have hindex : (2 * (k : ℤ)).toNat = 2 * k := by omega
  have hindex' : (2 * (k : ℤ) + 1).toNat = 2 * k + 1 := by omega
  constructor
  · rw [load_tabulate (by omega) (by omega), hindex, if_pos (by omega), pairOf,
      if_pos (by omega), show 2 * k / 2 = k by omega]
  · rw [load_tabulate (by omega) (by omega), hindex', if_pos (by omega), pairOf,
      if_neg (by omega), show (2 * k + 1) / 2 = k by omega]

/-- The gain is a product over the pairs. -/
theorem pairLoop_gain {N m : ℕ} {P g : ℕ → Pole K} (op : Pole K → Pole K → Pole K)
    (hN : 2 * m ≤ N) :
    pairLoop ((2 * m : ℕ) : ℤ)
      (gainFactor op (tabulate N fun j => if j < 2 * m then pairOf P j else g j)) 1 =
        some (∏ k ∈ Finset.range m, 4 / (mulC (op one (P k)) (op one (conjC (P k)))).real) := by
  have hcount : ((((2 * m : ℕ) : ℤ) + 1) / 2 - 0).toNat = m := by omega
  unfold pairLoop
  rw [forLoop, hcount]
  refine loopSteps_invariant (fun n => ∏ k ∈ Finset.range n,
    4 / (mulC (op one (P k)) (op one (conjC (P k)))).real) (Finset.prod_range_zero _) fun k hk => ?_
  rw [zero_add, gainFactor, (load_pairs hN hk).1, Option.bind_some, (load_pairs hN hk).2,
    Option.map_some, Finset.prod_range_succ, mul_div_assoc]

/-- The sections of an array of pairs. -/
theorem everyOther_pairs {N m : ℕ} {P g : ℕ → Pole K} (hN : 2 * m ≤ N) :
    everyOther ((tabulate N fun j => if j < 2 * m then pairOf P j else g j).take (2 * m)) =
      (List.range m).map P := by
  have hlen : ((tabulate N fun j => if j < 2 * m then pairOf P j else g j).take (2 * m)).length =
      2 * m := by
    rw [List.length_take, length_tabulate, min_eq_left hN]
  rw [everyOther, hlen, show (2 * m + 1) / 2 = m by omega, ← List.filterMap_eq_map]
  refine List.filterMap_congr fun k hk => ?_
  have hk' := List.mem_range.1 hk
  rw [List.getElem?_take_of_lt (by omega), getElem?_tabulate, if_pos (by omega),
    if_pos (by omega), pairOf, if_pos (by omega), show 2 * k / 2 = k by omega]
  rfl

/-! ## The poles and the gains -/

variable {N m : ℕ} {g D : ℕ → Pole K}

/-- Two loops over the pairs, one after the other. -/
theorem pairLoop_pairs {f : List (Pole K) → ℤ → Option (List (Pole K))} {P : ℕ → Pole K}
    (hN : 2 * m ≤ N)
    (hbody : ∀ k < m, ∀ h : ℕ → Pole K, h (2 * k) = P k →
      f (tabulate N h) (2 * (k : ℤ)) = setPair (tabulate N h) (2 * (k : ℤ)) (D k)) :
    pairLoop ((2 * m : ℕ) : ℤ) f (tabulate N fun j => if j < 2 * m then pairOf P j else g j) =
      some (tabulate N fun j => if j < 2 * m then pairOf D j else g j) := by
  have hpair : ∀ k < m, (if 2 * k < 2 * m then pairOf P (2 * k) else g (2 * k)) = P k := by
    intro k hk
    rw [if_pos (by omega), pairOf, if_pos (by omega), show 2 * k / 2 = k by omega]
  rw [pairLoop_tabulate D hN fun k hk h hh => hbody k hk h (hh.trans (hpair k hk)),
    Option.some.injEq]
  refine tabulate_congr fun j _ => ?_
  split_ifs <;> rfl

variable [DecidableEq K]

/-- The moved poles of a step that loads one pole and divides. -/
theorem load_divC_setPair {u v : Pole K → Pole K} {k : ℕ} {h : ℕ → Pole K} {q r : Pole K}
    (hk : 2 * k < N) (hh : h (2 * k) = q) (hdiv : divC (u q) (v q) = some r) :
    ((load (tabulate N h) (2 * (k : ℤ))).bind fun q =>
      (divC (u q) (v q)).bind fun q => setPair (tabulate N h) (2 * (k : ℤ)) q) =
        setPair (tabulate N h) (2 * (k : ℤ)) r := by
  rw [load_tabulate (by omega) (by omega), Option.bind_some,
    show (2 * (k : ℤ)).toNat = 2 * k by omega, hh, hdiv, Option.bind_some]

/-- `lowpass` with an even number of poles, when no divisor is zero. -/
theorem lowpass_eq (T : MathFunctions K) (fc dt : K) (hN : 2 * m ≤ N)
    (hD : ∀ k < m,
      divC (addC one (cmulC (dt / 2) (analogPole T (warped T fc dt) (2 * m : ℕ) (2 * (k : ℤ)))))
        (subC one (cmulC (dt / 2) (analogPole T (warped T fc dt) (2 * m : ℕ) (2 * (k : ℤ))))) =
        some (D k)) :
    lowpass T fc dt (2 * m : ℕ) (tabulate N g) =
      some (tabulate N fun j => if j < 2 * m then pairOf D j else g j,
        1 / ∏ k ∈ Finset.range m, 4 / (mulC (subC one (D k)) (subC one (conjC (D k)))).real) := by
  have hanalog := pairLoop_tabulate (g := g)
    (f := fun p i => setPair p i (analogPole T (warped T fc dt) (2 * m : ℕ) i))
    (fun k => analogPole T (warped T fc dt) (2 * m : ℕ) (2 * (k : ℤ))) hN fun k _ h _ => rfl
  have hdigital := pairLoop_pairs (g := g) (f := bilinearStep dt) (D := D) hN fun k hk h hh =>
    load_divC_setPair (u := fun q => addC one (cmulC (dt / 2) q))
      (v := fun q => subC one (cmulC (dt / 2) q)) (by omega) hh (hD k hk)
  rw [lowpass, hanalog, Option.bind_some, hdigital, Option.bind_some, pairLoop_gain subC hN,
    Option.map_some]

/-- `highpass` from the poles `D` of `lowpass`. -/
theorem highpass_eq (T : MathFunctions K) (fc dt b : K) {H : ℕ → Pole K} (hN : 2 * m ≤ N)
    (hlow : lowpass T fc dt (2 * m : ℕ) (tabulate N g) =
      some (tabulate N fun j => if j < 2 * m then pairOf D j else g j, b))
    (hH : ∀ k < m, divC (subC (cmulC (T.cos (warped T fc dt * dt)) one) (D k))
      (subC one (cmulC (T.cos (warped T fc dt * dt)) (D k))) = some (H k)) :
    highpass T fc dt (2 * m : ℕ) (tabulate N g) =
      some (tabulate N fun j => if j < 2 * m then pairOf H j else g j,
        1 / ∏ k ∈ Finset.range m, 4 / (mulC (addC one (H k)) (addC one (conjC (H k)))).real) := by
  have hmoved := pairLoop_pairs (g := g) (f := highpassStep (T.cos (warped T fc dt * dt))) (D := H)
    hN fun k hk h hh =>
      load_divC_setPair (u := fun q => subC (cmulC (T.cos (warped T fc dt * dt)) one) q)
        (v := fun q => subC one (cmulC (T.cos (warped T fc dt * dt)) q)) (by omega) hh (hH k hk)
  rw [highpass, hlow, Option.bind_some, hmoved, Option.bind_some, pairLoop_gain addC hN,
    Option.map_some]

end Model

end PQL
