import PQL.Transform.Amplitudes
import PQL.Transform.Buffer

/-!
# The history of a transformed trace

`pqlTFormSel` applies a transform to the transformed trace, or makes that from the original one, and
computes its amplitudes.  The mean that DEMEAN takes away is that of the transformed trace, but a
mean of zero is taken for a missing one, and then it is the mean of the original trace.  So DEMEAN
leaves a mean of zero, and changes nothing a second time, exactly if the mean of the original trace
is zero and the stored mean is that of the samples outside of the gaps (`demeans_iff`).  Arithmetic
is exact; what is not a number has no value.
-/

namespace PQL

namespace TForm

/-! ## The transformed trace -/

/-- A trace with its gaps. -/
structure GappedSource extends Source where
  gaps : List Span
  gapped : GapTrace samples gaps

/-- The transformed data with its mean; a mean can be not a number. -/
structure Info where
  samples : Samples
  mean : Option ℚ

/-- The entries of the menu that work on one trace. -/
inductive Choice where
  | demean
  | detrend
  | revpol
  | differentiate
  | integrate

/-- What the user can do with the trace. -/
inductive Action where
  | select (choice : Choice)
  /-- The common window and the rotated samples; without the other components the data is freed. -/
  | uvw (window : Option (ℤ × ℤ × (ℤ → ℚ)))
  | original
  /-- A filter that `_iir` accepts or refuses. -/
  | filter (f : Option (IirFilter ℚ))
  | agc (call : AgcCall)

/-- `get_maxmin`: it reads the first sample, and has no mean without samples outside of gaps. -/
def measured (gaps : List Span) (t : Samples) : Option Info :=
  (load t.data 0).map fun _ =>
    ⟨t, (getMaxmin .MY_FLOAT t.data gaps t.numSamples (t.numSamples.toNat + 1) 0).map Amps.mean⟩

section Machine

variable (tr : GappedSource)

/-- `dataInfo.amps.mean` -/
def origMean : Option ℚ :=
  (getMaxmin tr.form tr.samples tr.gaps tr.samples.length (tr.samples.length + 1) 0).map Amps.mean

/-- The data that `makeTFormData` makes, with no amplitudes yet; text leaves it without values. -/
def fresh : Option Info :=
  if tr.form = .MY_CHAR then none
  else (makeTFormData exactFloats (fun _ => 0) tr.toSource).map fun t => ⟨t, some 0⟩

/-- `dataInfo->amps.mean ? dataInfo->amps.mean : trcData->data.dataInfo.amps.mean` -/
def chosenMean (stored : Option ℚ) : Option ℚ := if stored = some 0 then origMean tr else stored

/-- `demean`; without a value for the mean the samples have none. -/
def demeanBy (mean : Option ℚ) (t : Samples) : Option Samples :=
  match mean with
  | some mean => (Transform.demean mean).apply t
  | none => if t.numSamples ≤ 0 then some t else none

def Choice.apply (info : Info) : Choice → Option Samples
  | demean => demeanBy (chosenMean tr info.mean) info.samples
  | detrend => Transform.detrend.apply info.samples
  | revpol => Transform.revpol.apply info.samples
  | differentiate => Transform.differentiate.apply info.samples
  | integrate => Transform.integrate.apply info.samples

/-- The transformed data, made if there is none. -/
def current (s : Option Info) : Option Info := s.elim (fresh tr) some

/-- An action; there is no result when an access is out of bounds or a sample has no value. -/
def Action.step (s : Option Info) : Action → Option (Option Info)
  | select choice =>
    (current tr s).bind fun info =>
      (choice.apply tr info).bind fun t => (measured tr.gaps t).map some
  | uvw none => some none
  | uvw (some (start, npts, rotated)) =>
    (current tr s).bind fun info =>
      ((Transform.uvw start npts rotated).apply info.samples).bind fun t =>
        (measured tr.gaps t).map some
  | original => some none
  | filter none => (fresh tr).map some
  | filter (some f) =>
    (fresh tr).bind fun info =>
      (origMean tr).bind fun trcMean =>
        (iir exactFloats tr.toSource trcMean f info.samples).map fun t =>
          some ⟨t, some (t.data.sum / t.numSamples)⟩
  | agc call => (fresh tr).bind fun info => (gain call info.samples).map fun t => some ⟨t, none⟩

/-- The actions one after the other, from the original trace on. -/
def run (actions : List Action) : Option (Option Info) :=
  actions.foldlM (Action.step tr) none

/-- DEMEAN leaves a mean of zero, and changes no sample a second time. -/
def Demeans (s : Option Info) : Prop :=
  ∃ s₁, Action.step tr s (.select .demean) = some (some s₁) ∧ s₁.mean = some 0 ∧
    ∃ s₂, Action.step tr (some s₁) (.select .demean) = some (some s₂) ∧
      s₂.samples.data = s₁.samples.data

end Machine

/-! ## The condition -/

/-- The samples outside of the gaps, and the number that their sum is divided by. -/
def counted (gaps : List Span) (t : Samples) : List ℚ :=
  outside gaps (t.data.take t.numSamples.toNat)

def divisor (gaps : List Span) (t : Samples) : ℤ := t.numSamples - skipped gaps t.numSamples

/-- The stored mean is that of the samples outside of the gaps. -/
def MeanKept (gaps : List Span) (info : Info) : Prop :=
  divisor gaps info.samples ≠ 0 ∧ ∃ mean, info.mean = some mean ∧
    (counted gaps info.samples).sum = (counted gaps info.samples).length * mean

/-- There are no samples at all, or the original mean is zero and the stored one is right. -/
def Ready (tr : GappedSource) (s : Option Info) : Prop :=
  ∃ info, current tr s = some info ∧
    (info.samples.numSamples < 0 ∨ origMean tr = some 0 ∧ MeanKept tr.gaps info)

/-! ## The amplitudes -/

section Measure

variable {tr : GappedSource} {t : Samples}

theorem ampsOf_mean (x : ℚ) (xs : List ℚ) (number : ℤ) :
    (ampsOf x xs number).map Amps.mean = if number = 0 then none else some (xs.sum / number) := by
  unfold ampsOf
  split_ifs <;> rfl

/-- The mean that `get_maxmin` computes. -/
theorem measured_eq (tr : GappedSource) {x : ℚ} (hx : load t.data 0 = some x)
    (hm : t.numSamples ≤ t.data.length) :
    measured tr.gaps t = some ⟨t, if divisor tr.gaps t = 0 then none
      else some ((counted tr.gaps t).sum / divisor tr.gaps t)⟩ := by
  rw [measured, hx, Option.map_some, getMaxmin_eq tr.gapped.toGapped (by decide) hx hm 0
    (Nat.lt_succ_self _), ampsOf_mean]
  rfl

theorem load_zero {xs : List ℚ} (h : xs ≠ []) : ∃ x, load xs 0 = some x := by
  obtain ⟨x, xs, rfl⟩ := List.exists_cons_of_ne_nil h
  exact ⟨x, rfl⟩

/-- There are no gaps in front of the first sample. -/
theorem divisor_of_neg (hm : t.numSamples ≤ 0) : divisor tr.gaps t = t.numSamples := by
  have hnone : tr.gaps.filter (fun g => g.beg < t.numSamples) = [] := by
    rw [List.filter_eq_nil_iff]
    intro g hg hlt
    have hbehind := (tr.gapped.behind g hg).1
    have hlt' := of_decide_eq_true hlt
    omega
  rw [divisor, skipped, hnone, List.map_nil, List.sum_nil, sub_zero]

/-- The samples that are shifted, and the rest. -/
theorem demean_apply (mean : ℚ) (hm : t.numSamples ≤ t.data.length) :
    ∃ data, (Transform.demean mean).apply t = some { t with data } ∧
      data.length = t.data.length ∧
        data.take t.numSamples.toNat = (t.data.take t.numSamples.toNat).map (· - mean) ∧
          (t.numSamples ≤ 0 ∨ mean = 0 ↔ data = t.data) := by
  have hrun := updateAll_tabulate (g := fun k => t.data.getD k 0) (fun _ x => x - mean) hm
  rw [tabulate_getD] at hrun
  refine ⟨_, by rw [Transform.apply, TForm.demean, hrun, Option.map_some], length_tabulate _ _, ?_,
    ?_⟩
  · apply List.ext_getElem?
    intro i
    rw [List.getElem?_take, List.getElem?_map, List.getElem?_take, getElem?_tabulate]
    by_cases hi : i < t.numSamples.toNat
    · rw [if_pos hi, if_pos hi, if_pos (by omega), if_pos (by omega),
        List.getElem?_eq_getElem (by omega), Option.map_some, List.getD_eq_getElem?_getD,
        List.getElem?_eq_getElem (by omega), Option.getD_some]
    · rw [if_neg hi, if_neg hi, Option.map_none]
  · have hsame : t.data = tabulate t.data.length fun k => t.data.getD k 0 :=
      (tabulate_getD t.data 0).symm
    constructor
    · intro hnone
      conv_rhs => rw [hsame]
      apply tabulate_congr
      intro k _
      rcases hnone with hneg | hzero
      · exact if_neg (by omega)
      · rw [hzero, sub_zero, ite_self]
    · intro heq
      by_contra hsome
      obtain ⟨hpos, hne⟩ := not_or.1 hsome
      have hfirst := tabulate_eq_iff.1 (heq.trans hsame) 0 (by omega)
      rw [if_pos (by omega)] at hfirst
      exact hne (by linarith)

theorem sum_map_sub (xs : List ℚ) (mean : ℚ) :
    (xs.map (· - mean)).sum = xs.sum - xs.length * mean := by
  induction xs with
  | nil => simp
  | cons x xs ih =>
    rw [List.map_cons, List.sum_cons, List.sum_cons, ih, List.length_cons]
    push_cast
    ring

/-- What DEMEAN leaves of a buffer of at least as many floats as samples. -/
theorem step_demean {s : Option Info} {info : Info} (hcurrent : current tr s = some info)
    (hdata : info.samples.data ≠ []) (hm : info.samples.numSamples ≤ info.samples.data.length)
    {mean : ℚ} (hmean : chosenMean tr info.mean = some mean) :
    ∃ data, data.length = info.samples.data.length ∧
      (info.samples.numSamples ≤ 0 ∨ mean = 0 ↔ data = info.samples.data) ∧
        Action.step tr s (.select .demean) = some (some ⟨{ info.samples with data },
          if divisor tr.gaps info.samples = 0 then none
          else some (((counted tr.gaps info.samples).sum -
            (counted tr.gaps info.samples).length * mean) / divisor tr.gaps info.samples)⟩) := by
  obtain ⟨data, hrun, hlength, htake, hsame⟩ := demean_apply mean hm
  obtain ⟨x, hx⟩ := load_zero (List.ne_nil_of_length_pos
    (hlength ▸ List.length_pos_iff.2 hdata : 0 < data.length))
  refine ⟨data, hlength, hsame, ?_⟩
  have hcounted : counted tr.gaps { info.samples with data } =
      (counted tr.gaps info.samples).map (· - mean) := by
    unfold counted outside
    rw [htake, entriesWhere_map]
  have hsum : (counted tr.gaps { info.samples with data }).sum =
      (counted tr.gaps info.samples).sum - (counted tr.gaps info.samples).length * mean := by
    rw [hcounted, sum_map_sub]
  have hmeasured := measured_eq tr (t := { info.samples with data }) hx
    (by rw [hlength]; exact hm)
  rw [hsum] at hmeasured
  rw [Action.step, hcurrent, Option.bind_some, Choice.apply, hmean, demeanBy, hrun,
    Option.bind_some, hmeasured]
  rfl

end Measure

/-! ## Runs -/

section Runs

variable {tr : GappedSource} {s : Option Info} {info : Info}

/-- The buffer of the transformed trace has the samples of the original. -/
def Sized (tr : GappedSource) (info : Info) : Prop :=
  info.samples.data.length = tr.samples.length ∧ info.samples.numSamples ≤ tr.samples.length

theorem fresh_sized (h : fresh tr = some info) : tr.Fits ∧ Sized tr info ∧ info.mean = some 0 := by
  rw [fresh] at h
  split_ifs at h with htext
  obtain ⟨t, ht, rfl⟩ := Option.map_eq_some_iff.1 h
  have hfits := fits_of_convertStep htext ht
  rw [makeTFormData_of_fits _ _ hfits] at ht
  obtain rfl := Option.some.inj ht
  exact ⟨hfits, ⟨List.length_map _, le_rfl⟩, rfl⟩

theorem current_sized (hs : ∀ info, s = some info → Sized tr info) (h : current tr s = some info) :
    Sized tr info := by
  cases s with
  | none => exact (fresh_sized h).2.1
  | some _ => exact hs info h

theorem apply_sized {f : Transform} {t t' : Samples} (hn : t.data.length = tr.samples.length)
    (hm : t.numSamples ≤ tr.samples.length) (h : f.apply t = some t') :
    t'.data.length = tr.samples.length ∧ t'.numSamples ≤ tr.samples.length := by
  obtain ⟨hgo, hback⟩ := f.apply_spec hn hm
  obtain ⟨u, hu, hlength, hcount⟩ := hgo (hback t' h)
  obtain rfl := Option.some.inj (h.symm.trans hu)
  refine ⟨hlength, ?_⟩
  rw [hcount]
  exact Command.count_le _ hm

theorem choice_sized {choice : Choice} {t : Samples} (hinfo : Sized tr info)
    (h : choice.apply tr info = some t) :
    t.data.length = tr.samples.length ∧ t.numSamples ≤ tr.samples.length := by
  obtain ⟨hn, hm⟩ := hinfo
  cases choice with
  | demean =>
    rw [Choice.apply] at h
    cases hmean : chosenMean tr info.mean with
    | some mean =>
      rw [hmean] at h
      exact apply_sized (f := .demean mean) hn hm h
    | none =>
      rw [hmean, demeanBy] at h
      split_ifs at h
      obtain rfl := Option.some.inj h
      exact ⟨hn, hm⟩
  | detrend => exact apply_sized (f := .detrend) hn hm h
  | revpol => exact apply_sized (f := .revpol) hn hm h
  | differentiate => exact apply_sized (f := .differentiate) hn hm h
  | integrate => exact apply_sized (f := .integrate) hn hm h

theorem measured_samples {t : Samples} (h : measured tr.gaps t = some info) : info.samples = t := by
  obtain ⟨x, -, rfl⟩ := Option.map_eq_some_iff.1 h
  rfl

theorem step_sized {action : Action} {s' : Option Info}
    (hs : ∀ info, s = some info → Sized tr info) (hstep : action.step tr s = some s') :
    ∀ info, s' = some info → Sized tr info := by
  rintro info rfl
  cases action with
  | select choice =>
    obtain ⟨before, hbefore, hstep⟩ := Option.bind_eq_some_iff.1 hstep
    obtain ⟨t, ht, hstep⟩ := Option.bind_eq_some_iff.1 hstep
    obtain ⟨after, hafter, heq⟩ := Option.map_eq_some_iff.1 hstep
    obtain rfl := Option.some.inj heq
    rw [Sized, measured_samples hafter]
    exact choice_sized (current_sized hs hbefore) ht
  | uvw window =>
    cases window with
    | none => exact nomatch Option.some.inj hstep
    | some window =>
      obtain ⟨start, npts, rotated⟩ := window
      obtain ⟨before, hbefore, hstep⟩ := Option.bind_eq_some_iff.1 hstep
      obtain ⟨t, ht, hstep⟩ := Option.bind_eq_some_iff.1 hstep
      obtain ⟨after, hafter, heq⟩ := Option.map_eq_some_iff.1 hstep
      obtain rfl := Option.some.inj heq
      obtain ⟨hn, hm⟩ := current_sized hs hbefore
      rw [Sized, measured_samples hafter]
      exact apply_sized hn hm ht
  | original => exact nomatch Option.some.inj hstep
  | filter f =>
    cases f with
    | none =>
      obtain ⟨after, hafter, heq⟩ := Option.map_eq_some_iff.1 hstep
      obtain rfl := Option.some.inj heq
      exact (fresh_sized hafter).2.1
    | some f =>
      obtain ⟨before, hbefore, hstep⟩ := Option.bind_eq_some_iff.1 hstep
      obtain ⟨trcMean, -, hstep⟩ := Option.bind_eq_some_iff.1 hstep
      obtain ⟨t, ht, heq⟩ := Option.map_eq_some_iff.1 hstep
      obtain rfl := Option.some.inj heq
      obtain ⟨hn, hm⟩ := (fresh_sized hbefore).2.1
      obtain ⟨hgo, hback⟩ := iir_spec exactFloats trcMean f hn
      obtain ⟨u, hu, hlength, hcount⟩ := hgo (hback t ht)
      obtain rfl := Option.some.inj (ht.symm.trans hu)
      exact ⟨hlength, hcount ▸ hm⟩
  | agc call =>
    obtain ⟨before, -, hstep⟩ := Option.bind_eq_some_iff.1 hstep
    obtain ⟨t, ht, -⟩ := Option.map_eq_some_iff.1 hstep
    rw [gain_eq_none] at ht
    exact nomatch ht

theorem run_sized {actions : List Action} (hrun : run tr actions = some s) :
    ∀ info, s = some info → Sized tr info := by
  have hall : ∀ (actions : List Action) (s₀ : Option Info),
      (∀ info, s₀ = some info → Sized tr info) →
        actions.foldlM (Action.step tr) s₀ = some s → ∀ info, s = some info → Sized tr info := by
    intro actions
    induction actions with
    | nil =>
      rintro s₀ hs₀ heq
      obtain rfl := Option.some.inj heq
      exact hs₀
    | cons action actions ih =>
      intro s₀ hs₀ hrun
      rw [List.foldlM_cons] at hrun
      obtain ⟨s₁, hfirst, hrest⟩ := Option.bind_eq_some_iff.1 hrun
      exact ih s₁ (step_sized hs₀ hfirst) hrest
  exact hall actions none (fun info h => nomatch h) hrun

/-! ## DEMEAN -/

theorem Sized.data_ne (h : Sized tr info) : info.samples.data ≠ [] := by
  have hpos := List.length_pos_iff.2 tr.gapped.samples
  exact List.ne_nil_of_length_pos (by rw [h.1]; exact hpos)

theorem Sized.le (h : Sized tr info) : info.samples.numSamples ≤ info.samples.data.length := by
  rw [h.1]
  exact h.2

/-- Without samples DEMEAN changes nothing, whatever the mean is. -/
theorem step_demean_of_neg (hcurrent : current tr s = some info) (hinfo : Sized tr info)
    (hneg : info.samples.numSamples < 0) :
    Action.step tr s (.select .demean) = some (some ⟨info.samples, some 0⟩) := by
  have happly : Choice.demean.apply tr info = some info.samples := by
    rw [Choice.apply]
    cases chosenMean tr info.mean with
    | none => exact if_pos hneg.le
    | some mean =>
      obtain ⟨data, hrun, -, -, hsame⟩ := demean_apply mean hinfo.le
      rw [demeanBy, hrun, hsame.1 (.inl hneg.le)]
  obtain ⟨x, hx⟩ := load_zero hinfo.data_ne
  have hnone : counted tr.gaps info.samples = [] := by
    rw [counted, Int.toNat_of_nonpos hneg.le, List.take_zero]
    rfl
  rw [Action.step, hcurrent, Option.bind_some, happly, Option.bind_some,
    measured_eq tr hx hinfo.le, divisor_of_neg hneg.le, if_neg hneg.ne, hnone, List.sum_nil,
    zero_div]
  rfl

/-- A DEMEAN that leaves a mean of zero has taken the mean of the samples outside of the gaps. -/
theorem mean_of_step_demean {s₁ : Info} (hcurrent : current tr s = some info)
    (hinfo : Sized tr info) (hneg : ¬info.samples.numSamples < 0)
    (hstep : Action.step tr s (.select .demean) = some (some s₁)) (hzero : s₁.mean = some 0) :
    ∃ mean, chosenMean tr info.mean = some mean ∧ divisor tr.gaps info.samples ≠ 0 ∧
      (counted tr.gaps info.samples).sum = (counted tr.gaps info.samples).length * mean ∧
        s₁.samples.numSamples = info.samples.numSamples := by
  cases hmean : chosenMean tr info.mean with
  | some mean =>
    obtain ⟨data, -, -, hrun⟩ := step_demean hcurrent hinfo.data_ne hinfo.le hmean
    obtain rfl := Option.some.inj (Option.some.inj (hstep.symm.trans hrun))
    dsimp only at hzero
    split_ifs at hzero with hdivisor
    have hsum := (div_eq_zero_iff.1 (Option.some.inj hzero)).resolve_right
      (by exact_mod_cast hdivisor)
    exact ⟨mean, rfl, hdivisor, sub_eq_zero.1 hsum, rfl⟩
  | none =>
    rw [Action.step, hcurrent, Option.bind_some] at hstep
    obtain ⟨t, ht, hstep⟩ := Option.bind_eq_some_iff.1 hstep
    rw [Choice.apply, hmean, demeanBy] at ht
    split_ifs at ht with hnone
    obtain rfl := Option.some.inj ht
    obtain ⟨x, hx⟩ := load_zero hinfo.data_ne
    rw [measured_eq tr hx hinfo.le, divisor_of_neg hnone, if_pos (by omega)] at hstep
    obtain rfl := Option.some.inj (Option.some.inj hstep)
    exact nomatch hzero

/-- Where the mean is zero, a DEMEAN that changes no sample takes an original mean of zero. -/
theorem origMean_of_step_demean {s₁ s₂ : Info} (hs₁ : Sized tr s₁)
    (hpos : 0 < s₁.samples.numSamples) (hzero : s₁.mean = some 0)
    (hstep : Action.step tr (some s₁) (.select .demean) = some (some s₂))
    (hsame : s₂.samples.data = s₁.samples.data) : origMean tr = some 0 := by
  have hchosen : chosenMean tr s₁.mean = origMean tr := if_pos hzero
  cases hmean : origMean tr with
  | some v =>
    obtain ⟨data, -, hiff, hrun⟩ := step_demean (s := some s₁) rfl hs₁.data_ne
      hs₁.le (hchosen.trans hmean)
    obtain rfl := Option.some.inj (Option.some.inj (hstep.symm.trans hrun))
    rw [(hiff.2 hsame).resolve_left (by omega)]
  | none =>
    obtain ⟨t, ht, -⟩ := Option.bind_eq_some_iff.1 hstep
    rw [Choice.apply, hchosen, hmean, demeanBy, if_neg (by omega)] at ht
    exact nomatch ht

/-- DEMEAN is right, after any actions, exactly if the original mean is zero and the stored one is
that of the samples outside of the gaps. -/
theorem demeans_iff {actions : List Action} (hrun : run tr actions = some s) :
    Demeans tr s ↔ Ready tr s := by
  have hsized := run_sized hrun
  constructor
  · rintro ⟨s₁, hfirst, hzero, s₂, hsecond, hsame⟩
    obtain ⟨info, hcurrent, -⟩ := Option.bind_eq_some_iff.1 hfirst
    have hinfo := current_sized hsized hcurrent
    refine ⟨info, hcurrent, ?_⟩
    by_cases hneg : info.samples.numSamples < 0
    · exact .inl hneg
    right
    obtain ⟨mean, hmean, hdivisor, hsum, hcount⟩ :=
      mean_of_step_demean hcurrent hinfo hneg hfirst hzero
    have hpos : 0 < info.samples.numSamples := by
      by_contra hle
      rw [divisor_of_neg (by omega)] at hdivisor
      omega
    have horig := origMean_of_step_demean (step_sized hsized hfirst s₁ rfl) (hcount ▸ hpos) hzero
      hsecond hsame
    refine ⟨horig, hdivisor, mean, ?_, hsum⟩
    rw [chosenMean] at hmean
    split_ifs at hmean with hstored
    · rw [hstored, ← horig, hmean]
    · exact hmean
  · rintro ⟨info, hcurrent, hready⟩
    have hinfo := current_sized hsized hcurrent
    by_cases hneg : info.samples.numSamples < 0
    · have hmade : current tr (some ⟨info.samples, some 0⟩) = some ⟨info.samples, some 0⟩ := rfl
      have hsecond := step_demean_of_neg hmade hinfo hneg
      exact ⟨_, step_demean_of_neg hcurrent hinfo hneg, rfl, _, hsecond, rfl⟩
    · obtain ⟨horig, hdivisor, mean, hmean, hsum⟩ := hready.resolve_left hneg
      have hchosen : chosenMean tr info.mean = some mean := by
        rw [chosenMean, hmean]
        split_ifs with hzero
        · rw [horig, hzero]
        · rfl
      obtain ⟨data, hlength, -, hfirst⟩ := step_demean hcurrent hinfo.data_ne hinfo.le hchosen
      rw [if_neg hdivisor, hsum, sub_self, zero_div] at hfirst
      have hs₁ := step_sized hsized hfirst _ rfl
      have hmade : current tr (some ⟨{ info.samples with data }, some 0⟩) =
          some ⟨{ info.samples with data }, some 0⟩ := rfl
      obtain ⟨data', -, hsame, hsecond⟩ := step_demean hmade hs₁.data_ne hs₁.le
        ((if_pos rfl).trans horig)
      exact ⟨_, hfirst, rfl, _, hsecond, hsame.1 (.inr rfl)⟩

/-- On the original trace the mean of it decides. -/
theorem ready_original (htext : tr.form ≠ .MY_CHAR) :
    Ready tr none ↔ tr.Fits ∧ origMean tr = some 0 := by
  have hpos := List.length_pos_iff.2 tr.gapped.samples
  constructor
  · rintro ⟨info, hcurrent, hready⟩
    obtain ⟨hfits, hinfo, -⟩ := fresh_sized hcurrent
    refine ⟨hfits, (hready.resolve_left ?_).1⟩
    rw [current, Option.elim_none, fresh, if_neg htext, makeTFormData_of_fits _ _ hfits] at hcurrent
    obtain rfl := Option.some.inj hcurrent
    dsimp only
    omega
  · rintro ⟨hfits, horig⟩
    have hcurrent : current tr none =
        some ⟨⟨tr.samples.map id, tr.samples.length, tr.sampInt⟩, some 0⟩ := by
      rw [current, Option.elim_none, fresh, if_neg htext, makeTFormData_of_fits _ _ hfits]
      rfl
    obtain ⟨x, hx⟩ := load_zero tr.gapped.samples
    have hmean := horig
    rw [origMean, getMaxmin_eq tr.gapped.toGapped htext hx le_rfl 0 (by omega),
      ampsOf_mean] at hmean
    split_ifs at hmean with hzero
    refine ⟨_, hcurrent, .inr ⟨horig, ?_, 0, rfl, ?_⟩⟩
    · exact hzero
    · have hsum := (div_eq_zero_iff.1 (Option.some.inj hmean)).resolve_right
        (by exact_mod_cast hzero)
      rw [mul_zero, counted, List.map_id]
      exact hsum

end Runs

/-! ### A mean of zero, and another one -/

theorem two_inRange (x y : ℚ) : [x, y].length < 2 ^ 31 := by
  rw [List.length_cons, List.length_singleton]
  decide

theorem gapTrace_two (x y : ℚ) : GapTrace [x, y] [] where
  apart := List.Pairwise.nil
  behind := fun _ hg => absurd hg List.not_mem_nil
  samples := List.cons_ne_nil x [y]
  inside := fun _ hg => absurd hg List.not_mem_nil

def twoSamples (x y : ℚ) : GappedSource :=
  ⟨⟨.BIT32, [x, y], 1000000, two_inRange x y⟩, [], gapTrace_two x y⟩

theorem twoSamples_demeans : Demeans (twoSamples 1 (-1)) none := by
  have hrun : run (twoSamples 1 (-1)) [] = some none := rfl
  refine (demeans_iff hrun).2 ((ready_original (by decide)).2 ⟨.inr ?_, ?_⟩)
  · decide
  · decide +kernel

/-- The second time the original mean is taken away once more. -/
theorem twoSamples_twice :
    (Action.step (twoSamples 1 3) none (.select .demean)).map
        (Option.map fun info => (info.samples.data, info.mean)) = some (some ([-1, 1], some 0)) ∧
      ((run (twoSamples 1 3) [.select .demean, .select .demean]).map
        (Option.map fun info => info.samples.data)) = some (some [-3, -1]) ∧
          ¬ Demeans (twoSamples 1 3) none := by
  have honce : (Action.step (twoSamples 1 3) none (.select .demean)).map
      (Option.map fun info => (info.samples.data, info.mean)) = some (some ([-1, 1], some 0)) := by
    decide +kernel
  have htwice : (run (twoSamples 1 3) [.select .demean, .select .demean]).map
      (Option.map fun info => info.samples.data) = some (some [-3, -1]) := by decide +kernel
  refine ⟨honce, htwice, ?_⟩
  rintro ⟨s₁, hfirst, -, s₂, hsecond, hsame⟩
  have hrun : run (twoSamples 1 3) [.select .demean, .select .demean] = some (some s₂) := by
    simp only [run, List.foldlM_cons, List.foldlM_nil, hfirst, hsecond, Option.bind_eq_bind,
      Option.bind_some]
    rfl
  rw [hfirst] at honce
  rw [hrun] at htwice
  have hdata₁ := congrArg Prod.fst (Option.some.inj (Option.some.inj honce))
  have hdata₂ := Option.some.inj (Option.some.inj htwice)
  exact absurd (hdata₂.symm.trans (hsame.trans hdata₁)) (by decide +kernel)

end TForm

end PQL
