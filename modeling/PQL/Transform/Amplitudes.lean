import PQL.Lib.Arrays
import PQL.Lib.Extremes
import PQL.Lib.Spans
import PQL.Lib.While
import PQL.Lib.Windows
import PQL.Mseed.Group

/-!
# Amplitudes

`get_maxmin` finds the extremes and the mean of the samples outside of the gaps in one pass that
jumps over a gap where it begins (`getMaxmin_eq`).  A sample is read by `DATAP`, which has no case
for text, so the amplitudes are those of the trace exactly in the other formats
(`getMaxmin_skips_iff`).  Samples are exact.
-/

namespace PQL

/-! ## The scan -/

/-- `amps`. -/
structure Amps where
  min : ℚ
  max : ℚ
  mean : ℚ
  diff : ℚ
deriving DecidableEq, Repr

/-- `DATAP`, with what the variable held before. -/
def datap (form : DataForm) (data : List ℚ) (i : ℤ) (val : ℚ) : Option ℚ :=
  match form with
  | .BIT32 | .BIT16 | .MY_FLOAT | .MY_DOUBLE => load data i
  | .MY_CHAR => some val

/-- The variables of the loop; `gapNum` counts the gaps, not their bounds. -/
structure AmpScan where
  i : ℤ
  lessSamples : ℤ
  gapNum : ℕ
  val : ℚ
  min : ℚ
  max : ℚ
  mean : ℚ

section Scan

variable (form : DataForm) (data : List ℚ) (gaps : List Span) (samples : ℤ)

/-- Over the gap that begins here. -/
def AmpScan.skip (s : AmpScan) : AmpScan :=
  match gaps[s.gapNum]? with
  | none => s
  | some gap =>
    if s.i = gap.beg then
      let gapSamps := gap.fin - gap.beg
      { s with
        i := s.i + gapSamps
        lessSamples := s.lessSamples + gapSamps
        gapNum := s.gapNum + 1 }
    else s

/-- One more sample. -/
def AmpScan.add (s : AmpScan) (val : ℚ) : AmpScan :=
  let s := { s with val, mean := s.mean + val }
  if val > s.max then { s with max := val }
  else if val < s.min then { s with min := val }
  else s

/-- One pass of the loop. -/
def AmpScan.step (s : AmpScan) : Option AmpScan :=
  let s := s.skip gaps
  if s.i ≥ samples then some { s with i := s.i + 1 }
  else (datap form data s.i s.val).map fun val => { s.add val with i := s.i + 1 }

/-- `get_maxmin`, with what `val` holds at first; there is no result when an access is out of bounds
or the mean is taken over no samples. -/
def getMaxmin (fuel : ℕ) (val : ℚ) : Option Amps :=
  (datap form data 0 val).bind fun val =>
    (whileLoop (fun s => decide (s.i < samples)) (AmpScan.step form data gaps samples) fuel
      ⟨0, 0, 0, val, val, val, 0⟩).bind fun s =>
        if samples - s.lessSamples = 0 then none
        else some ⟨s.min, s.max, s.mean / (samples - s.lessSamples), s.max - s.min⟩

end Scan

/-! ## The samples outside of gaps -/

/-- Gaps in order that do not meet, behind the first sample; they may be empty. -/
structure Gapped (gaps : List Span) : Prop where
  apart : gaps.Pairwise fun g h => g.fin < h.beg
  behind : ∀ g ∈ gaps, 1 ≤ g.beg ∧ g.beg ≤ g.fin

/-- The index is inside of a gap. -/
def InGap (gaps : List Span) (i : ℤ) : Prop := ∃ g ∈ gaps, g.beg ≤ i ∧ i < g.fin

instance (gaps : List Span) (i : ℤ) : Decidable (InGap gaps i) :=
  inferInstanceAs (Decidable (∃ g ∈ gaps, _))

/-- The samples outside of the gaps. -/
def outside (gaps : List Span) (xs : List ℚ) : List ℚ := entriesWhere (fun k => ¬ InGap gaps k) xs

def Span.length (g : Span) : ℤ := g.fin - g.beg

/-- The lengths of the gaps that begin in front of `samples`. -/
def skipped (gaps : List Span) (samples : ℤ) : ℤ :=
  ((gaps.filter fun g => g.beg < samples).map Span.length).sum

section Outside

variable {gaps : List Span} {xs : List ℚ}

theorem outside_concat (gaps : List Span) (xs : List ℚ) (x : ℚ) :
    outside gaps (xs ++ [x]) = outside gaps xs ++ if InGap gaps xs.length then [] else [x] := by
  unfold outside
  rw [entriesWhere_concat]
  by_cases hin : InGap gaps xs.length
  · rw [if_neg (not_not.2 hin), if_pos hin]
  · rw [if_pos hin, if_neg hin]

theorem outside_take_succ (gaps : List Span) {k : ℕ} (hk : k < xs.length) :
    outside gaps (xs.take (k + 1)) =
      outside gaps (xs.take k) ++ if InGap gaps k then [] else [xs[k]] := by
  rw [← List.take_concat_get' xs k hk, outside_concat, List.length_take, min_eq_left hk.le]

/-- Nothing is added inside of a gap. -/
theorem outside_take_gap {a b : ℕ} (hab : a ≤ b)
    (hgap : ∀ k : ℕ, a ≤ k → k < b → InGap gaps k) :
    outside gaps (xs.take b) = outside gaps (xs.take a) := by
  induction b, hab using Nat.le_induction with
  | base => rfl
  | succ b hle ih =>
    have hbefore := ih fun k hk hlt => hgap k hk (by omega)
    by_cases hb : b < xs.length
    · rw [outside_take_succ gaps hb, if_pos (hgap b hle b.lt_succ_self), List.append_nil, hbefore]
    · rw [← hbefore, List.take_of_length_le (by omega), List.take_of_length_le (by omega)]

theorem getElem?_apart (hgaps : Gapped gaps) {i j : ℕ} {g h : Span} (hg : gaps[i]? = some g)
    (hh : gaps[j]? = some h) (hij : i < j) : g.fin < h.beg := by
  obtain ⟨hi, rfl⟩ := List.getElem?_eq_some_iff.1 hg
  obtain ⟨hj, rfl⟩ := List.getElem?_eq_some_iff.1 hh
  exact List.pairwise_iff_getElem.1 hgaps.apart i j hi hj hij

/-- The gaps in front of `samples` are the first ones. -/
theorem skipped_eq_take (gaps : List Span) {samples : ℤ} {n : ℕ}
    (hbefore : ∀ k g, gaps[k]? = some g → k < n → g.beg < samples)
    (hbehind : ∀ k g, gaps[k]? = some g → n ≤ k → samples ≤ g.beg) :
    skipped gaps samples = ((gaps.take n).map Span.length).sum := by
  have hfilter : (gaps.filter fun g => g.beg < samples) = gaps.take n := by
    rw [← List.take_append_drop n gaps, List.filter_append, List.take_append_drop,
      List.filter_eq_self.2, List.filter_eq_nil_iff.2, List.append_nil]
    · intro g hg
      obtain ⟨k, hk⟩ := List.getElem?_of_mem hg
      rw [List.getElem?_drop] at hk
      have hle := hbehind _ g hk (by omega)
      simpa using hle
    · intro g hg
      obtain ⟨k, hk⟩ := List.getElem?_of_mem hg
      rw [List.getElem?_take] at hk
      split_ifs at hk with hlt
      exact decide_eq_true (hbefore k g hk hlt)
  rw [skipped, hfilter]

end Outside

/-! ## The loop -/

/-- The amplitudes of the samples that have been passed. -/
structure Scanned (data : List ℚ) (gaps : List Span) (samples : ℤ) (x : ℚ) (s : AmpScan) :
    Prop where
  nonneg : 0 ≤ s.i
  passed : ∀ k g, gaps[k]? = some g → k < s.gapNum → g.beg < samples ∧ g.fin ≤ s.i
  left : ∀ k g, gaps[k]? = some g → s.gapNum ≤ k → s.i ≤ g.beg
  less : s.lessSamples = ((gaps.take s.gapNum).map Span.length).sum
  mean : s.mean = (outside gaps (data.take (min s.i samples).toNat)).sum
  extremes : (⟨s.min, s.max⟩ : Extremes ℚ) =
    (⟨x, x⟩ : Extremes ℚ).scan (outside gaps (data.take (min s.i samples).toNat))

section Loop

variable {form : DataForm} {data : List ℚ} {gaps : List Span} {samples : ℤ} {x : ℚ} {s : AmpScan}

theorem datap_eq_load (htext : form ≠ .MY_CHAR) (data : List ℚ) (i : ℤ) (val : ℚ) :
    datap form data i val = load data i := by
  cases form with
  | MY_CHAR => exact absurd rfl htext
  | _ => rfl

theorem skip_of_ne (hne : ∀ g, gaps[s.gapNum]? = some g → s.i ≠ g.beg) : s.skip gaps = s := by
  unfold AmpScan.skip
  cases hg : gaps[s.gapNum]? with
  | none => rfl
  | some g => exact if_neg (hne g hg)

theorem skip_of_eq {g : Span} (hg : gaps[s.gapNum]? = some g) (heq : s.i = g.beg) :
    s.skip gaps = { s with
      i := g.fin, lessSamples := s.lessSamples + g.length, gapNum := s.gapNum + 1 } := by
  have hfin : s.i + (g.fin - g.beg) = g.fin := by omega
  unfold AmpScan.skip
  rw [hg]
  dsimp only
  rw [if_pos heq, hfin, Span.length]

/-- The gap that begins here is passed. -/
theorem Scanned.skip (hgaps : Gapped gaps) (h : Scanned data gaps samples x s)
    (hlt : s.i < samples) :
    Scanned data gaps samples x (s.skip gaps) ∧
      ∀ k g, gaps[k]? = some g → (s.skip gaps).gapNum ≤ k → (s.skip gaps).i < g.beg := by
  by_cases hhit : ∃ g, gaps[s.gapNum]? = some g ∧ s.i = g.beg
  · obtain ⟨g, hg, heq⟩ := hhit
    have hmem := List.mem_of_getElem? hg
    obtain ⟨hbeg, hfin⟩ := hgaps.behind g hmem
    have hnext : ∀ k g', gaps[k]? = some g' → s.gapNum + 1 ≤ k → g.fin < g'.beg :=
      fun k g' hg' hk => getElem?_apart hgaps hg hg' hk
    -- nothing in the gap has been added
    have hsame : outside gaps (data.take (min g.fin samples).toNat) =
        outside gaps (data.take (min s.i samples).toNat) := by
      apply outside_take_gap
      · omega
      · intro k hle hk
        exact ⟨g, hmem, by omega, by omega⟩
    have hless : ((gaps.take (s.gapNum + 1)).map Span.length).sum =
        s.lessSamples + g.length := by
      obtain ⟨hk, rfl⟩ := List.getElem?_eq_some_iff.1 hg
      rw [← List.take_concat_get' gaps s.gapNum hk, List.map_append, List.sum_append, h.less]
      simp
    rw [skip_of_eq hg heq]
    refine ⟨⟨?_, fun k g' hg' hk => ?_, fun k g' hg' hk => (hnext k g' hg' hk).le, hless.symm,
      ?_, ?_⟩,
      hnext⟩
    · exact (zero_le_one.trans hbeg).trans hfin
    · rcases Nat.lt_succ_iff_lt_or_eq.1 hk with hk | rfl
      · obtain ⟨hbefore, hle⟩ := h.passed k g' hg' hk
        refine ⟨hbefore, ?_⟩
        show g'.fin ≤ g.fin
        omega
      · obtain rfl := Option.some.inj (hg.symm.trans hg')
        exact ⟨heq ▸ hlt, le_rfl⟩
    · show s.mean = _
      rw [h.mean, hsame]
    · show (⟨s.min, s.max⟩ : Extremes ℚ) = _
      rw [h.extremes, hsame]
  · have hne : ∀ g, gaps[s.gapNum]? = some g → s.i ≠ g.beg := fun g hg heq => hhit ⟨g, hg, heq⟩
    rw [skip_of_ne hne]
    refine ⟨h, fun k g hg hk => ?_⟩
    rcases hk.eq_or_lt with rfl | hk
    · exact (h.left _ g hg le_rfl).lt_of_ne (hne g hg)
    · have hlen : s.gapNum < gaps.length := hk.trans (List.getElem?_eq_some_iff.1 hg).1
      have hcur := List.getElem?_eq_getElem hlen
      have hle := h.left _ _ hcur le_rfl
      have hfin := (hgaps.behind _ (List.mem_of_getElem? hcur)).2
      have hnext := getElem?_apart hgaps hcur hg hk
      omega

/-- One more sample of the trace. -/
theorem add_eq (s : AmpScan) (val : ℚ) (hle : s.min ≤ s.max) :
    (s.add val).mean = s.mean + val ∧
      (⟨(s.add val).min, (s.add val).max⟩ : Extremes ℚ) =
        (⟨s.min, s.max⟩ : Extremes ℚ).extend val := by
  unfold AmpScan.add Extremes.extend
  dsimp only
  split_ifs with hmax hmin
  · exact ⟨rfl, by rw [min_eq_left (hle.trans hmax.le), max_eq_right hmax.le]⟩
  · exact ⟨rfl, by rw [min_eq_right hmin.le, max_eq_left (not_lt.1 hmax)]⟩
  · exact ⟨rfl, by rw [min_eq_left (not_lt.1 hmin), max_eq_left (not_lt.1 hmax)]⟩

theorem add_control (s : AmpScan) (val : ℚ) :
    (s.add val).lessSamples = s.lessSamples ∧ (s.add val).gapNum = s.gapNum := by
  unfold AmpScan.add
  dsimp only
  split_ifs <;> exact ⟨rfl, rfl⟩

theorem Scanned.min_le_max (h : Scanned data gaps samples x s) : s.min ≤ s.max := by
  have hmin := Extremes.scan_min_le ⟨x, x⟩ (outside gaps (data.take (min s.i samples).toNat))
  have hmax := Extremes.le_scan_max ⟨x, x⟩ (outside gaps (data.take (min s.i samples).toNat))
  rw [← h.extremes] at hmin hmax
  exact hmin.trans hmax

/-- One pass of the loop. -/
theorem Scanned.step (hgaps : Gapped gaps) (htext : form ≠ .MY_CHAR)
    (hsamples : samples ≤ data.length) (h : Scanned data gaps samples x s) (hlt : s.i < samples) :
    ∃ next, AmpScan.step form data gaps samples s = some next ∧
      Scanned data gaps samples x next ∧ s.i < next.i := by
  obtain ⟨hskip, hleft⟩ := h.skip hgaps hlt
  have hle : s.i ≤ (s.skip gaps).i := by
    by_cases hhit : ∃ g, gaps[s.gapNum]? = some g ∧ s.i = g.beg
    · obtain ⟨g, hg, heq⟩ := hhit
      rw [skip_of_eq hg heq, heq]
      exact (hgaps.behind g (List.mem_of_getElem? hg)).2
    · rw [skip_of_ne fun g hg heq => hhit ⟨g, hg, heq⟩]
  unfold AmpScan.step
  dsimp only
  generalize s.skip gaps = s' at *
  have hnonneg := hskip.nonneg
  have hpassed : ∀ k g, gaps[k]? = some g → k < s'.gapNum → g.beg < samples ∧ g.fin ≤ s'.i + 1 := by
    intro k g hg hk
    obtain ⟨hbefore, hfin⟩ := hskip.passed k g hg hk
    exact ⟨hbefore, by omega⟩
  by_cases hend : s'.i ≥ samples
  · rw [if_pos hend]
    have hsame : min (s'.i + 1) samples = min s'.i samples := by omega
    refine ⟨_, rfl, ⟨?_, hpassed, hleft, hskip.less, ?_, ?_⟩, ?_⟩
    · show 0 ≤ s'.i + 1
      omega
    · show s'.mean = (outside gaps (data.take (min (s'.i + 1) samples).toNat)).sum
      rw [hsame]
      exact hskip.mean
    · show (⟨s'.min, s'.max⟩ : Extremes ℚ) =
        (⟨x, x⟩ : Extremes ℚ).scan (outside gaps (data.take (min (s'.i + 1) samples).toNat))
      rw [hsame]
      exact hskip.extremes
    · show s.i < s'.i + 1
      omega
  · rw [if_neg hend, datap_eq_load htext]
    have hlen : s'.i.toNat < data.length := by omega
    have hload : load data s'.i = some data[s'.i.toNat] := by
      rw [load, if_pos hnonneg, List.getElem?_eq_getElem hlen]
    rw [hload]
    -- the sample is outside of the gaps
    have hout : ¬ InGap gaps s'.i.toNat := by
      rintro ⟨g, hg, hbeg, hfin⟩
      obtain ⟨k, hk⟩ := List.getElem?_of_mem hg
      rcases lt_or_ge k s'.gapNum with hlt | hge
      · have hle := (hskip.passed k g hk hlt).2
        omega
      · have hlt := hleft k g hk hge
        omega
    have hmore : outside gaps (data.take (min (s'.i + 1) samples).toNat) =
        outside gaps (data.take (min s'.i samples).toNat) ++ [data[s'.i.toNat]] := by
      have hnext : (min (s'.i + 1) samples).toNat = s'.i.toNat + 1 := by omega
      have hcur : (min s'.i samples).toNat = s'.i.toNat := by omega
      rw [hnext, hcur, outside_take_succ gaps hlen, if_neg hout]
    obtain ⟨hmean, hextremes⟩ := add_eq s' data[s'.i.toNat] hskip.min_le_max
    obtain ⟨hless, hnum⟩ := add_control s' data[s'.i.toNat]
    refine ⟨_, rfl, ⟨?_, ?_, ?_, ?_, ?_, ?_⟩, ?_⟩
    · show 0 ≤ s'.i + 1
      omega
    · intro k g hg hk
      exact hpassed k g hg (hnum ▸ hk)
    · intro k g hg hk
      exact hleft k g hg (hnum ▸ hk)
    · show (s'.add _).lessSamples = ((gaps.take (s'.add _).gapNum).map Span.length).sum
      rw [hless, hnum]
      exact hskip.less
    · show (s'.add _).mean = (outside gaps (data.take (min (s'.i + 1) samples).toNat)).sum
      rw [hmean, hskip.mean, hmore, List.sum_append, List.sum_singleton]
    · show (⟨(s'.add _).min, (s'.add _).max⟩ : Extremes ℚ) =
        (⟨x, x⟩ : Extremes ℚ).scan (outside gaps (data.take (min (s'.i + 1) samples).toNat))
      rw [hextremes, hskip.extremes, hmore, Extremes.scan_append]
      rfl
    · show s.i < s'.i + 1
      omega

theorem scanned_init (hgaps : Gapped gaps) (data : List ℚ) (samples : ℤ) (x : ℚ) :
    Scanned data gaps samples x ⟨0, 0, 0, x, x, x, 0⟩ := by
  have hnone : (min 0 samples).toNat = 0 := by omega
  refine ⟨le_rfl, fun k g _ hk => absurd hk (Nat.not_lt_zero k), fun k g hg _ => ?_, rfl, ?_, ?_⟩
  · exact zero_le_one.trans (hgaps.behind g (List.mem_of_getElem? hg)).1
  · show (0 : ℚ) = _
    rw [hnone]
    rfl
  · show (⟨x, x⟩ : Extremes ℚ) = _
    rw [hnone]
    rfl

/-- What the samples outside of the gaps make of the amplitudes. -/
def ampsOf (x : ℚ) (xs : List ℚ) (number : ℤ) : Option Amps :=
  let e := (⟨x, x⟩ : Extremes ℚ).scan xs
  if number = 0 then none else some ⟨e.min, e.max, xs.sum / number, e.max - e.min⟩

/-- `get_maxmin` reads the samples outside of the gaps. -/
theorem getMaxmin_eq (hgaps : Gapped gaps) (htext : form ≠ .MY_CHAR) (hx : load data 0 = some x)
    (hsamples : samples ≤ data.length) (val : ℚ) {fuel : ℕ} (hfuel : samples.toNat < fuel) :
    getMaxmin form data gaps samples fuel val =
      ampsOf x (outside gaps (data.take samples.toNat)) (samples - skipped gaps samples) := by
  obtain ⟨s, hrun, h, hend⟩ := whileLoop_spec (P := Scanned data gaps samples x)
    (fun s => (samples - s.i).toNat)
    (fun s h hcond => by
      obtain ⟨next, hstep, hnext, hlt⟩ := h.step hgaps htext hsamples (of_decide_eq_true hcond)
      have hbefore : s.i < samples := of_decide_eq_true hcond
      exact ⟨next, hstep, hnext, by omega⟩)
    (scanned_init hgaps data samples x) (by dsimp only; omega : _ < fuel)
  have hle : samples ≤ s.i := not_lt.1 (of_decide_eq_false hend)
  have hless : s.lessSamples = skipped gaps samples := by
    rw [h.less, skipped_eq_take gaps (fun k g hg hk => (h.passed k g hg hk).1)
      fun k g hg hk => hle.trans (h.left k g hg hk)]
  have hmean := h.mean
  have hextremes := h.extremes
  rw [min_eq_right hle] at hmean hextremes
  unfold getMaxmin ampsOf
  rw [datap_eq_load htext, hx, Option.bind_some, hrun, Option.bind_some, hless, hmean, ← hextremes,
    Int.cast_sub]

end Loop

/-! ## Traces with gaps -/

/-- A trace and its gaps. -/
structure GapTrace (data : List ℚ) (gaps : List Span) : Prop extends Gapped gaps where
  samples : data ≠ []
  inside : ∀ g ∈ gaps, g.fin ≤ data.length

section Count

variable {gaps : List Span} {samples : ℤ}

/-- The number of samples in front of `samples` that are inside of gaps. -/
def gapSamples (gaps : List Span) (samples : ℤ) : ℤ :=
  (gaps.map fun g => min g.fin samples - min g.beg samples).sum

theorem gapSamples_succ (hgaps : Gapped gaps) (n : ℕ) :
    gapSamples gaps (n + 1) = gapSamples gaps n + if InGap gaps n then 1 else 0 := by
  induction gaps with
  | nil =>
    have hout : ¬ InGap [] n := by
      rintro ⟨g, hg, -⟩
      exact absurd hg List.not_mem_nil
    rw [if_neg hout]
    rfl
  | cons g gaps ih =>
    have hapart := List.pairwise_cons.1 hgaps.apart
    have ih := ih ⟨hapart.2, fun h hh => hgaps.behind h (List.mem_cons_of_mem g hh)⟩
    have hle := (hgaps.behind g List.mem_cons_self).2
    unfold gapSamples at *
    rw [List.map_cons, List.sum_cons, ih, List.map_cons, List.sum_cons]
    by_cases hin : g.beg ≤ n ∧ (n : ℤ) < g.fin
    · have hmem : InGap (g :: gaps) n := ⟨g, List.mem_cons_self, hin⟩
      have hout : ¬ InGap gaps n := by
        rintro ⟨h, hh, hbeg, -⟩
        have hnext := hapart.1 h hh
        omega
      rw [if_pos hmem, if_neg hout]
      omega
    · have hiff : InGap (g :: gaps) n ↔ InGap gaps n := by
        refine ⟨?_, fun ⟨h, hh, hmem⟩ => ⟨h, List.mem_cons_of_mem g hh, hmem⟩⟩
        rintro ⟨h, hh, hmem⟩
        rcases List.mem_cons.1 hh with rfl | hh
        · exact absurd hmem hin
        · exact ⟨h, hh, hmem⟩
      simp only [hiff]
      omega

theorem gapSamples_zero (hgaps : Gapped gaps) : gapSamples gaps 0 = 0 := by
  apply List.sum_eq_zero
  intro x hx
  obtain ⟨g, hg, rfl⟩ := List.mem_map.1 hx
  obtain ⟨hbeg, hle⟩ := hgaps.behind g hg
  omega

/-- The samples outside of gaps are what is left. -/
theorem length_outside (hgaps : Gapped gaps) (data : List ℚ) {n : ℕ} (hn : n ≤ data.length) :
    ((outside gaps (data.take n)).length : ℤ) = n - gapSamples gaps n := by
  induction n with
  | zero =>
    rw [Nat.cast_zero, gapSamples_zero hgaps]
    rfl
  | succ n ih =>
    rw [outside_take_succ gaps hn, List.length_append, Nat.cast_add, ih (by omega), Nat.cast_add,
      Nat.cast_one, gapSamples_succ hgaps]
    split_ifs with hin
    · rw [List.length_nil]
      omega
    · rw [List.length_singleton]
      omega

/-- What is skipped is covered, but for the part of a gap that leads out of the trace. -/
theorem gapSamples_le_skipped (hgaps : ∀ g ∈ gaps, g.beg ≤ g.fin) (samples : ℤ) :
    gapSamples gaps samples ≤ skipped gaps samples ∧
      (gapSamples gaps samples = skipped gaps samples ↔
        ∀ g ∈ gaps, g.beg < samples → g.fin ≤ samples) := by
  induction gaps with
  | nil => simp [gapSamples, skipped]
  | cons g gaps ih =>
    obtain ⟨hle, hiff⟩ := ih fun h hh => hgaps h (List.mem_cons_of_mem g hh)
    have hspan := hgaps g List.mem_cons_self
    have hgapSamples : gapSamples (g :: gaps) samples =
        min g.fin samples - min g.beg samples + gapSamples gaps samples := List.sum_cons
    have hskipped : skipped (g :: gaps) samples =
        (if g.beg < samples then g.fin - g.beg else 0) + skipped gaps samples := by
      unfold skipped
      by_cases hlt : g.beg < samples
      · rw [List.filter_cons, if_pos (decide_eq_true hlt), if_pos hlt]
        rfl
      · rw [List.filter_cons, if_neg (by simpa using hlt), if_neg hlt, zero_add]
    rw [hgapSamples, hskipped, List.forall_mem_cons, ← hiff]
    split_ifs with hlt <;> constructor <;> omega

end Count

section Trace

variable {form : DataForm} {data : List ℚ} {gaps : List Span}

/-- Whatever the variable for a sample holds at first, the pass ends and its amplitudes are those of
the samples outside of the gaps. -/
def SkipsGaps (form : DataForm) (data : List ℚ) (gaps : List Span) : Prop :=
  ∀ val, ∃ fuel amps, getMaxmin form data gaps data.length fuel val = some amps ∧
    IsLeast {x | x ∈ outside gaps data} amps.min ∧
      IsGreatest {x | x ∈ outside gaps data} amps.max ∧
        amps.mean = (outside gaps data).sum / (outside gaps data).length ∧
          amps.diff = amps.max - amps.min

/-- Text is not read, so the extremes are what the variable held. -/
theorem getMaxmin_text {samples : ℤ} {fuel : ℕ} {val : ℚ} {amps : Amps}
    (hrun : getMaxmin .MY_CHAR data gaps samples fuel val = some amps) : amps.min = val := by
  unfold getMaxmin at hrun
  obtain ⟨x, hx, hrun⟩ := Option.bind_eq_some_iff.1 hrun
  obtain rfl : val = x := Option.some.inj hx
  obtain ⟨s, hloop, hs⟩ := Option.bind_eq_some_iff.1 hrun
  have hkeep : (s.val = val ∧ s.min = val ∧ s.max = val) ∧ decide (s.i < samples) = false := by
    refine whileLoop_sound (P := fun s : AmpScan => s.val = val ∧ s.min = val ∧ s.max = val)
      (fun s next h _ hstep => ?_) ⟨rfl, rfl, rfl⟩ hloop
    have hskip : (s.skip gaps).val = s.val ∧ (s.skip gaps).min = s.min ∧
        (s.skip gaps).max = s.max := by
      unfold AmpScan.skip
      split
      · exact ⟨rfl, rfl, rfl⟩
      · split_ifs <;> exact ⟨rfl, rfl, rfl⟩
    obtain ⟨hval, hmin, hmax⟩ := h
    obtain ⟨hval', hmin', hmax'⟩ := hskip
    unfold AmpScan.step at hstep
    dsimp only at hstep
    split_ifs at hstep
    · obtain rfl := Option.some.inj hstep
      exact ⟨hval'.trans hval, hmin'.trans hmin, hmax'.trans hmax⟩
    · obtain ⟨v, hv, rfl⟩ := Option.map_eq_some_iff.1 hstep
      obtain rfl : (s.skip gaps).val = v := Option.some.inj hv
      have hadd : (s.skip gaps).add (s.skip gaps).val =
          { s.skip gaps with mean := (s.skip gaps).mean + (s.skip gaps).val } := by
        unfold AmpScan.add
        dsimp only
        rw [if_neg (by rw [hval', hmax', hval, hmax]; exact lt_irrefl _),
          if_neg (by rw [hval', hmin', hval, hmin]; exact lt_irrefl _)]
      rw [hadd]
      exact ⟨hval'.trans hval, hmin'.trans hmin, hmax'.trans hmax⟩
  split_ifs at hs
  obtain rfl := Option.some.inj hs
  exact hkeep.1.2.1

theorem not_skipsGaps_text (data : List ℚ) (gaps : List Span) :
    ¬ SkipsGaps .MY_CHAR data gaps := by
  intro hskips
  obtain ⟨_, amps, hrun, hleast, -⟩ := hskips 0
  obtain ⟨_, amps', hrun', hleast', -⟩ := hskips 1
  rw [getMaxmin_text hrun] at hleast
  rw [getMaxmin_text hrun'] at hleast'
  exact zero_ne_one (hleast.unique hleast')

/-- The first sample is outside of the gaps. -/
theorem head_mem_outside (hgaps : Gapped gaps) (x : ℚ) (xs : List ℚ) :
    x ∈ outside gaps (x :: xs) := by
  have hout : ¬ InGap gaps (0 : ℕ) := by
    rintro ⟨g, hg, hbeg, -⟩
    have hbehind := (hgaps.behind g hg).1
    omega
  apply List.mem_map.2
  exact ⟨(x, 0), List.mem_filter.2 ⟨List.mem_cons_self, decide_eq_true hout⟩, rfl⟩

/-- The extremes of values that the scan begins with one of. -/
theorem scan_isLeast {x : ℚ} {xs : List ℚ} (hx : x ∈ xs) :
    IsLeast {y | y ∈ xs} ((⟨x, x⟩ : Extremes ℚ).scan xs).min ∧
      IsGreatest {y | y ∈ xs} ((⟨x, x⟩ : Extremes ℚ).scan xs).max := by
  refine ⟨⟨?_, fun y hy => Extremes.scan_min_le_of_mem hy⟩,
    ⟨?_, fun y hy => Extremes.le_scan_max_of_mem hy⟩⟩
  · rcases Extremes.scan_min_eq_or_mem ⟨x, x⟩ xs with heq | hmem
    · exact heq ▸ hx
    · exact hmem
  · rcases Extremes.scan_max_eq_or_mem ⟨x, x⟩ xs with heq | hmem
    · exact heq ▸ hx
    · exact hmem

/-- The amplitudes are those of the samples outside of the gaps exactly if the trace is not text. -/
theorem getMaxmin_skips_iff (form : DataForm) (h : GapTrace data gaps) :
    SkipsGaps form data gaps ↔ form ≠ .MY_CHAR := by
  constructor
  · rintro hskips rfl
    exact not_skipsGaps_text data gaps hskips
  · intro htext val
    obtain ⟨x, xs, rfl⟩ := List.exists_cons_of_ne_nil h.samples
    have hcount := length_outside h.toGapped (x :: xs) le_rfl
    rw [List.take_length, (gapSamples_le_skipped (fun g hg => (h.behind g hg).2) _).2.2
      fun g hg _ =>
      h.inside g hg] at hcount
    have hfirst : x ∈ outside gaps (x :: xs) := head_mem_outside h.toGapped x xs
    have hpos : 0 < (outside gaps (x :: xs)).length := List.length_pos_of_mem hfirst
    obtain ⟨hleast, hgreatest⟩ := scan_isLeast hfirst
    have hrun := getMaxmin_eq h.toGapped htext (show load (x :: xs) 0 = some x from rfl) le_rfl val
      (Nat.lt_succ_self _)
    rw [Int.toNat_natCast, List.take_length, ← hcount, ampsOf, if_neg (by omega)] at hrun
    exact ⟨_, _, hrun, hleast, hgreatest, rfl, rfl⟩

/-! ### Two traces -/

/-- Six samples with a gap, an empty gap and a gap at the end. -/
theorem getMaxmin_skips_gaps :
    SkipsGaps .BIT32 [4, 7, 0, 1, 3, 0] [⟨2, 3⟩, ⟨4, 4⟩, ⟨5, 6⟩] := by
  refine (getMaxmin_skips_iff .BIT32 ⟨⟨?_, ?_⟩, ?_, ?_⟩).2 ?_ <;> decide

/-- The amplitudes of text are those of what the variable held. -/
theorem getMaxmin_text_stale :
    getMaxmin .MY_CHAR [65, 66] [] 2 3 7 = some ⟨7, 7, 7, 0⟩ ∧ ¬ SkipsGaps .MY_CHAR [65, 66] [] :=
  ⟨by decide +kernel, not_skipsGaps_text _ _⟩

end Trace

end PQL
