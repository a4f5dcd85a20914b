import PQL.Lib.Recurrences
import PQL.Transform.Butterworth

/-!
# The steady state of a filter

A signal that comes close to a sinusoid stays so through a section whose poles lie inside the unit
circle, and the sinusoid is multiplied by the transfer function of the section
(`Tracks.response`).  So `_iir` multiplies a sinusoid by the transfer functions of its two parts,
up to what dies out (`iirCascade_steady`).
-/

namespace PQL

open Filter Topology ComplexConjugate

/-- `x` comes close to the real part of a complex exponential. -/
def Tracks (x : ℕ → ℝ) (w z : ℂ) : Prop :=
  Tendsto (fun n => x n - (w * z ^ n).re) atTop (𝓝 0)

/-- The denominator of a section has the root `p` and its conjugate. -/
structure HasPole (c : SecondOrder ℝ) (p : ℂ) : Prop where
  sum : -(c.a1 : ℂ) = p + conj p
  prod : (c.a2 : ℂ) = p * conj p

theorem HasPole.of_pole {c : SecondOrder ℝ} {q : Pole ℝ} (h₁ : c.a1 = -2 * q.real)
    (h₂ : c.a2 = q.real * q.real + q.imag * q.imag) : HasPole c q.toComplex := by
  constructor
  · rw [Complex.add_conj, h₁, Pole.toComplex]
    push_cast
    ring
  · rw [Complex.mul_conj, Complex.normSq_apply, h₂, Pole.toComplex]

section Section

variable {c : SecondOrder ℝ} {p w z : ℂ} {x : ℕ → ℝ}

theorem HasPole.transfer_eq (hc : HasPole c p) (z : ℂ) :
    c.transfer z = (z ^ 2 + c.b1 * z + c.b2) / ((z - p) * (z - conj p)) := by
  rw [SecondOrder.transfer]
  congr 1
  linear_combination -z * hc.sum + hc.prod

/-- The recurrence of the output behind the first two samples. -/
theorem response_succ_succ (c : SecondOrder ℝ) (x : ℕ → ℝ) (n : ℕ) :
    response c x (n + 2) = -c.a1 * response c x (n + 1) - c.a2 * response c x n +
      (x (n + 2) + c.b1 * x (n + 1) + c.b2 * x n) := by
  have h := response_differenceEq c x (n + 3) (n + 2) (by omega)
  have hpast : ∀ y : ℕ → ℝ, past y 1 (n + 2) = y (n + 1) ∧ past y 2 (n + 2) = y n := fun y =>
    ⟨if_pos (by omega), if_pos (by omega)⟩
  rw [(hpast x).1, (hpast x).2, (hpast _).1, (hpast _).2] at h
  rw [h]
  ring

/-- A section in the steady state. -/
theorem Tracks.response (hc : HasPole c p) (hp : ‖p‖ < 1) (hz : ‖z‖ = 1) (hx : Tracks x w z) :
    Tracks (response c x) (c.transfer z * w) z := by
  -- the imaginary part of the exponential is filtered along
  have hinput : Tendsto (fun n => ((x n : ℂ) + Complex.I * (w * z ^ n).im) - w * z ^ n) atTop
      (𝓝 0) := by
    have hofReal := (Complex.continuous_ofReal.tendsto 0).comp hx
    rw [Complex.ofReal_zero] at hofReal
    refine hofReal.congr fun n => ?_
    rw [Function.comp_apply]
    push_cast
    linear_combination -Complex.re_add_im (w * z ^ n)
  have hu := response_succ_succ c x
  have hv := response_succ_succ c fun n => (w * z ^ n).im
  set u := PQL.response c x
  set v := PQL.response c fun n => (w * z ^ n).im
  have hsteady := @tendsto_steady_of_secondOrder p (conj p) _
    (fun n => (u n : ℂ) + Complex.I * v n) c.b1 c.b2 w z hp (by rwa [Complex.norm_conj]) hz
    (fun n => ?_) hinput
  · have hre := (Complex.continuous_re.tendsto 0).comp hsteady
    rw [Complex.zero_re] at hre
    refine hre.congr fun n => ?_
    rw [Function.comp_apply, hc.transfer_eq, Complex.sub_re]
    simp
  · rw [hu, hv]
    push_cast
    linear_combination ((u (n + 1) : ℂ) + Complex.I * v (n + 1)) * hc.sum -
      ((u n : ℂ) + Complex.I * v n) * hc.prod

theorem Tracks.smul (b : ℝ) (hx : Tracks x w z) : Tracks (fun n => b * x n) (b * w) z := by
  have h := Tendsto.const_mul b hx
  rw [mul_zero] at h
  refine h.congr fun n => ?_
  rw [mul_sub, mul_assoc, Complex.re_ofReal_mul]

end Section

/-! ## The cascade -/

section Outputs

variable {K : Type} [CommRing K]

/-- The outputs of sections, one after the other. -/
def responses : List (SecondOrder K) → (ℕ → K) → ℕ → K
  | [], x => x
  | c :: sections, x => responses sections (response c x)

/-- The output of a part, for an input of any length. -/
def partOutput (toSection : Pole K → SecondOrder K) (poles : List (Pole K)) (b0 : K) (x : ℕ → K) :
    ℕ → K :=
  if poles = [] then x else fun k => b0 * responses ((everyOther poles).map toSection) x k

def cascadeOutput (f : IirFilter K) (x : ℕ → K) : ℕ → K :=
  partOutput lowSection f.pl f.b0l (partOutput highSection f.ph f.b0h x)

theorem composed_responses (sections : List (SecondOrder K)) (n : ℕ) (x : ℕ → K) :
    Composed sections (tabulate n x) (tabulate n (responses sections x)) := by
  induction sections generalizing x with
  | nil => rfl
  | cons c sections ih => exact ⟨_, filtered_tabulate c n x, ih _⟩

theorem iirPart_tabulate (toSection : Pole K → SecondOrder K) (poles : List (Pole K)) (b0 : K)
    (n : ℕ) (x : ℕ → K) :
    iirPart toSection poles b0 n (tabulate n x) =
      some (tabulate n (partOutput toSection poles b0 x)) := by
  obtain ⟨ys, hys, hrun, -⟩ := iirPart_composed toSection poles b0 (tabulate n x)
  obtain rfl := hys.unique (composed_responses _ n x)
  rw [length_tabulate] at hrun
  rw [hrun, gained, partOutput]
  split_ifs
  · rename_i hnone
    subst hnone
    simp [everyOther, responses]
  · rw [tabulate, tabulate, List.map_map]
    rfl

theorem iirCascade_tabulate (f : IirFilter K) (n : ℕ) (x : ℕ → K) :
    iirCascade f n (tabulate n x) = some (tabulate n (cascadeOutput f x)) := by
  rw [iirCascade, iirPart_tabulate, Option.bind_some, iirPart_tabulate, cascadeOutput]

end Outputs

theorem Stable.everyOther {poles : List (Pole ℝ)} (h : Stable poles) : Stable (everyOther poles) :=
  fun q hq => by
    obtain ⟨k, -, hk⟩ := List.mem_filterMap.1 hq
    exact h q (List.mem_of_getElem? hk)

section Steady

variable {x : ℕ → ℝ} {w z : ℂ} {poles : List (Pole ℝ)} {toSection : Pole ℝ → SecondOrder ℝ}

theorem Tracks.responses (hsection : ∀ q, HasPole (toSection q) q.toComplex) (h : Stable poles)
    (hz : ‖z‖ = 1) (hx : Tracks x w z) :
    Tracks (responses (poles.map toSection) x)
      ((poles.map fun q => (toSection q).transfer z).prod * w) z := by
  induction poles generalizing x w with
  | nil => simpa [PQL.responses] using hx
  | cons q poles ih =>
    have hq := hx.response (hsection q) (h q List.mem_cons_self) hz
    have hrest := ih (fun q hq => h q (List.mem_cons_of_mem _ hq)) hq
    rw [List.map_cons, List.map_cons, List.prod_cons, mul_comm ((toSection q).transfer z),
      mul_assoc]
    exact hrest

/-- A part of `_iir` in the steady state. -/
theorem Tracks.part (hsection : ∀ q, HasPole (toSection q) q.toComplex) (h : Stable poles)
    (hz : ‖z‖ = 1) (b0 : ℝ) (hx : Tracks x w z) :
    Tracks (partOutput toSection poles b0 x) (partTransfer toSection poles b0 z * w) z := by
  unfold partOutput partTransfer
  split_ifs
  · rwa [one_mul]
  · rw [mul_assoc]
    exact (hx.responses hsection h.everyOther hz).smul b0

theorem hasPole_highSection (q : Pole ℝ) : HasPole (highSection q) q.toComplex := .of_pole rfl rfl

theorem hasPole_lowSection (q : Pole ℝ) : HasPole (lowSection q) q.toComplex := .of_pole rfl rfl

end Steady

/-- The transfer function of `_iir`. -/
noncomputable def IirFilter.transfer (f : IirFilter ℝ) (z : ℂ) : ℂ :=
  partTransfer lowSection f.pl f.b0l z * partTransfer highSection f.ph f.b0h z

theorem cascade_follows (f : IirFilter ℝ) (hhigh : Stable f.ph) (hlow : Stable f.pl) (w : ℂ) {z : ℂ}
    (hz : ‖z‖ = 1) :
    ∃ y : ℕ → ℝ, (∀ n : ℕ, iirCascade f n (tabulate n fun k => (w * z ^ k).re) =
      some (tabulate n y)) ∧ Tracks y (f.transfer z * w) z := by
  have hinput : Tracks (fun k => (w * z ^ k).re) w z := by simp [Tracks]
  refine ⟨_, fun n => iirCascade_tabulate f n _, ?_⟩
  have h := (hinput.part hasPole_highSection hhigh hz f.b0h).part hasPole_lowSection hlow hz f.b0l
  rw [← mul_assoc] at h
  exact h

/-- With all poles inside of the unit circle `_iir` multiplies a sinusoid, of whatever length, by
its transfer function, up to an error that dies out. -/
theorem iirCascade_steady (f : IirFilter ℝ) (hhigh : Stable f.ph) (hlow : Stable f.pl) (w z : ℂ)
    (hz : ‖z‖ = 1) :
    ∃ y : ℕ → ℝ, (∀ n : ℕ, iirCascade f n (tabulate n fun k => (w * z ^ k).re) =
      some (tabulate n y)) ∧
        Tendsto (fun k => y k - (f.transfer z * w * z ^ k).re) atTop (𝓝 0) :=
  cascade_follows f hhigh hlow w hz

/-- A high-pass section and a low-pass section at the Nyquist frequency. -/
theorem iirCascade_steady_halves :
    ∃ y : ℕ → ℝ, (∀ n : ℕ, iirCascade ⟨[⟨1 / 2, 0⟩], 1, [⟨0, 1 / 2⟩], 1⟩ n
      (tabulate n fun k => ((1 : ℂ) * (-1) ^ k).re) = some (tabulate n y)) ∧
        Tendsto (fun k => y k -
          (IirFilter.transfer ⟨[⟨1 / 2, 0⟩], 1, [⟨0, 1 / 2⟩], 1⟩ (-1) * 1 * (-1) ^ k).re) atTop
          (𝓝 0) := by
  refine iirCascade_steady ⟨[⟨1 / 2, 0⟩], 1, [⟨0, 1 / 2⟩], 1⟩ ?_ ?_ 1 (-1) (by norm_num)
  · intro q hq
    rw [List.mem_singleton.1 hq, ← sq_lt_one_iff₀ (norm_nonneg _), ← Complex.normSq_eq_norm_sq,
      Complex.normSq_apply, Pole.toComplex]
    norm_num
  · intro q hq
    rw [List.mem_singleton.1 hq, ← sq_lt_one_iff₀ (norm_nonneg _), ← Complex.normSq_eq_norm_sq,
      Complex.normSq_apply, Pole.toComplex]
    norm_num

end PQL
