import Mathlib

/-!
# Comparators

A comparator returns a number whose sign orders two entries, or nothing when it has no defined
value.  `Orders` is what a sort may expect of it; it holds exactly when the sign of each pair is
that of its keys (`orders_iff`).
-/

namespace PQL

variable {τ κ : Type} [LinearOrder κ]

/-- The comparator does not put `a` behind `b`. -/
def NotBehind (cmp : τ → τ → Option ℤ) (a b : τ) : Prop := ∃ r ∈ cmp a b, r ≤ 0

/-- On `S` the comparator is a total preorder, antisymmetric in its signs, whose strict part is
`precedes`. -/
structure Orders (cmp : τ → τ → Option ℤ) (precedes : τ → τ → Prop) (S : Set τ) : Prop where
  total : ∀ a ∈ S, ∀ b ∈ S, NotBehind cmp a b ∨ NotBehind cmp b a
  trans : ∀ a ∈ S, ∀ b ∈ S, ∀ c ∈ S, NotBehind cmp a b → NotBehind cmp b c → NotBehind cmp a c
  opposite : ∀ a ∈ S, ∀ b ∈ S, ∃ r ∈ cmp a b, ∃ r' ∈ cmp b a, r'.sign = -r.sign
  strict : ∀ a ∈ S, ∀ b ∈ S, (∃ r ∈ cmp a b, r < 0) ↔ precedes a b

/-- The comparator has the sign of the keys. -/
def AgreesOn (cmp : τ → τ → Option ℤ) (key : τ → κ) (a b : τ) : Prop :=
  ∃ r ∈ cmp a b, (r < 0 ↔ key a < key b) ∧ (0 < r ↔ key b < key a)

theorem AgreesOn.notBehind_iff {cmp : τ → τ → Option ℤ} {key : τ → κ} {a b : τ}
    (h : AgreesOn cmp key a b) : NotBehind cmp a b ↔ key a ≤ key b := by
  obtain ⟨r, hr, -, hpos⟩ := h
  rw [← not_lt, ← hpos, not_lt]
  constructor
  · rintro ⟨r', hr', hle⟩
    rwa [Option.mem_unique hr hr']
  · exact fun hle => ⟨r, hr, hle⟩

theorem AgreesOn.neg_iff {cmp : τ → τ → Option ℤ} {key : τ → κ} {a b : τ}
    (h : AgreesOn cmp key a b) : (∃ r ∈ cmp a b, r < 0) ↔ key a < key b := by
  obtain ⟨r, hr, hneg, -⟩ := h
  rw [← hneg]
  constructor
  · rintro ⟨r', hr', hlt⟩
    rwa [Option.mem_unique hr hr']
  · exact fun hlt => ⟨r, hr, hlt⟩

theorem sign_eq_neg_sign {r r' : ℤ} (hneg : r' < 0 ↔ 0 < r) (hpos : 0 < r' ↔ r < 0) :
    r'.sign = -r.sign := by
  rcases lt_trichotomy r 0 with hr | rfl | hr
  · rw [Int.sign_eq_one_of_pos (hpos.2 hr), Int.sign_eq_neg_one_of_neg hr, neg_neg]
  · obtain rfl : r' = 0 := by
      simp only [lt_irrefl, iff_false] at hneg hpos
      omega
    rfl
  · rw [Int.sign_eq_neg_one_of_neg (hneg.2 hr), Int.sign_eq_one_of_pos hr]

/-- A comparator orders a set by its keys exactly when each pair has the sign of its keys. -/
theorem orders_iff (cmp : τ → τ → Option ℤ) (key : τ → κ) (S : Set τ) :
    Orders cmp (fun a b => key a < key b) S ↔ ∀ a ∈ S, ∀ b ∈ S, AgreesOn cmp key a b := by
  constructor
  · intro h a ha b hb
    obtain ⟨r, hr, r', hr', hsign⟩ := h.opposite a ha b hb
    refine ⟨r, hr, ?_, ?_⟩
    · rw [← h.strict a ha b hb]
      exact ⟨fun hlt => ⟨r, hr, hlt⟩, fun ⟨s, hs, hlt⟩ => by rwa [Option.mem_unique hr hs]⟩
    · rw [← h.strict b hb a ha]
      have hiff : 0 < r ↔ r' < 0 := by
        rw [← Int.sign_eq_one_iff_pos, ← Int.sign_eq_neg_one_iff_neg, hsign]
        omega
      rw [hiff]
      exact ⟨fun hlt => ⟨r', hr', hlt⟩, fun ⟨s, hs, hlt⟩ => by rwa [Option.mem_unique hr' hs]⟩
  · intro h
    refine ⟨fun a ha b hb => ?_, fun a ha b hb c hc => ?_, fun a ha b hb => ?_,
      fun a ha b hb => (h a ha b hb).neg_iff⟩
    · rw [(h a ha b hb).notBehind_iff, (h b hb a ha).notBehind_iff]
      exact le_total _ _
    · rw [(h a ha b hb).notBehind_iff, (h b hb c hc).notBehind_iff, (h a ha c hc).notBehind_iff]
      exact le_trans
    · obtain ⟨r, hr, hneg, hpos⟩ := h a ha b hb
      obtain ⟨r', hr', hneg', hpos'⟩ := h b hb a ha
      exact ⟨r, hr, r', hr', sign_eq_neg_sign (hneg'.trans hpos.symm) (hpos'.trans hneg.symm)⟩

/-- The same for the opposite order. -/
theorem orders_reverse_iff (cmp : τ → τ → Option ℤ) (key : τ → κ) (S : Set τ) :
    Orders cmp (fun a b => key b < key a) S ↔
      ∀ a ∈ S, ∀ b ∈ S, AgreesOn cmp (fun a => OrderDual.toDual (key a)) a b :=
  orders_iff cmp (fun a => OrderDual.toDual (key a)) S

end PQL
