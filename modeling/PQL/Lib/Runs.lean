import Mathlib

/-!
# Runs

A run is a list of steps taken one after the other, each of which may be impossible.  `Allowed` says
that every step of a run meets a condition on the state that it is taken in; a property that holds
at first and that every such step keeps holds after the run (`run_invariant`).
-/

namespace PQL

variable {σ ε : Type} (step : σ → ε → Option σ) (ok : σ → ε → Prop)

/-- Every step of the run meets the condition in the state that it is taken in. -/
def Allowed : σ → List ε → Prop
  | _, [] => True
  | s, e :: es => ok s e ∧ ∀ s', step s e = some s' → Allowed s' es

variable {step ok}

theorem allowed_of_forall {s : σ} {es : List ε} (h : ∀ e ∈ es, ∀ s, ok s e) :
    Allowed step ok s es := by
  induction es generalizing s with
  | nil => trivial
  | cons e es ih =>
    exact ⟨h e List.mem_cons_self s, fun _ _ => ih fun e he => h e (List.mem_cons_of_mem _ he)⟩

/-- Whether a run meets the condition can be found out by running it. -/
instance decidableAllowed [∀ s e, Decidable (ok s e)] : ∀ s es, Decidable (Allowed step ok s es)
  | _, [] => isTrue trivial
  | s, e :: es =>
    match h : step s e with
    | none => decidable_of_iff (ok s e) (by simp [Allowed, h])
    | some s' =>
      have := decidableAllowed s' es
      decidable_of_iff (ok s e ∧ Allowed step ok s' es) (by simp [Allowed, h])

/-- The beginning of a run. -/
theorem Allowed.of_append {s : σ} {es fs : List ε} (h : Allowed step ok s (es ++ fs)) :
    Allowed step ok s es := by
  induction es generalizing s with
  | nil => trivial
  | cons e es ih => exact ⟨h.1, fun s' hs' => ih (h.2 s' hs')⟩

/-- The last step of a run. -/
theorem Allowed.last {s s' : σ} {es : List ε} {e : ε} (h : Allowed step ok s (es ++ [e]))
    (hrun : es.foldlM step s = some s') : ok s' e := by
  induction es generalizing s with
  | nil =>
    obtain rfl := Option.some.inj hrun
    exact h.1
  | cons e' es ih =>
    rw [List.foldlM_cons] at hrun
    obtain ⟨s₁, hs₁, hrest⟩ := Option.bind_eq_some_iff.1 hrun
    exact ih (h.2 s₁ hs₁) hrest

/-- A property that the steps of a run keep, if they are possible. -/
theorem run_preserves {P : σ → Prop} (hstep : ∀ s e s', P s → ok s e → step s e = some s' → P s')
    {s s' : σ} {es : List ε} (hs : P s) (hok : Allowed step ok s es)
    (hrun : es.foldlM step s = some s') : P s' := by
  induction es generalizing s with
  | nil =>
    obtain rfl := Option.some.inj hrun
    exact hs
  | cons e es ih =>
    rw [List.foldlM_cons] at hrun
    obtain ⟨s₁, hs₁, hrest⟩ := Option.bind_eq_some_iff.1 hrun
    exact ih (hstep s e s₁ hs hok.1 hs₁) (hok.2 s₁ hs₁) hrest

/-- A property that every possible step keeps. -/
theorem run_keeps {P : σ → Prop} (hstep : ∀ s e s', P s → step s e = some s' → P s')
    {s s' : σ} {es : List ε} (hs : P s) (hrun : es.foldlM step s = some s') : P s' := by
  have hok : Allowed step (fun _ _ => True) s es := allowed_of_forall fun _ _ _ => trivial
  exact run_preserves (fun s e s' h _ => hstep s e s' h) hs hok hrun

/-- Steps that lower a measure make runs of bounded length. -/
theorem run_length_le {P : σ → Prop} {measure : σ → ℕ}
    (hstep : ∀ s e s', P s → step s e = some s' → P s' ∧ measure s' < measure s)
    {s s' : σ} {es : List ε} (hs : P s) (hrun : es.foldlM step s = some s') :
    es.length + measure s' ≤ measure s := by
  induction es generalizing s with
  | nil =>
    obtain rfl := Option.some.inj hrun
    simp
  | cons e es ih =>
    rw [List.foldlM_cons] at hrun
    obtain ⟨s₁, hs₁, hrest⟩ := Option.bind_eq_some_iff.1 hrun
    obtain ⟨h₁, hlt⟩ := hstep s e s₁ hs hs₁
    have hle := ih h₁ hrest
    rw [List.length_cons]
    omega

/-- Steps that are possible and keep a property make a run that is possible and keeps it. -/
theorem run_invariant {P : σ → Prop}
    (hstep : ∀ s e, P s → ok s e → ∃ s', step s e = some s' ∧ P s') {s : σ} {es : List ε}
    (hs : P s) (hok : Allowed step ok s es) : ∃ s', es.foldlM step s = some s' ∧ P s' := by
  induction es generalizing s with
  | nil => exact ⟨s, rfl, hs⟩
  | cons e es ih =>
    obtain ⟨s₁, hs₁, h₁⟩ := hstep s e hs hok.1
    obtain ⟨s₂, hs₂, h₂⟩ := ih h₁ (hok.2 s₁ hs₁)
    refine ⟨s₂, ?_, h₂⟩
    rw [List.foldlM_cons, hs₁]
    exact hs₂

end PQL
