import PQL.Lib.UpdateFirst

/-!
# Tallies

A table has an entry for each key that has been met.  An item is added to the first entry that it
matches; if there is none, an entry is made for it.  For a key that matching respects
(`KeyRespected`) the table has one entry, which has taken in the items of that key in order
(`filter_tally`), whatever happens to the other keys.
-/

namespace PQL

variable {κ β γ : Type} [DecidableEq κ]

theorem filter_updateFirst_of_not {p q : β → Bool} {f : β → β} (h : ∀ b, p b → q b = false)
    (hf : ∀ b, q (f b) = q b) (l : List β) : (updateFirst p f l).filter q = l.filter q := by
  induction l with
  | nil => rfl
  | cons b l ih =>
    unfold updateFirst
    by_cases hb : p b
    · rw [if_pos hb, List.filter_cons_of_neg, List.filter_cons_of_neg]
      · rw [h b hb]
        exact Bool.false_ne_true
      · rw [hf, h b hb]
        exact Bool.false_ne_true
    · rw [if_neg hb, List.filter_cons, List.filter_cons, ih]

/-- The entry that is updated is the first one that the filter keeps. -/
theorem filter_updateFirst {q : β → Bool} {f : β → β} (hf : ∀ b, q (f b) = q b) (l : List β) :
    (updateFirst q f l).filter q = (l.filter q).modifyHead f := by
  induction l with
  | nil => rfl
  | cons b l ih =>
    unfold updateFirst
    by_cases hb : q b
    · rw [if_pos hb, List.filter_cons_of_pos (by rw [hf]; exact hb), List.filter_cons_of_pos hb,
        List.modifyHead_cons]
    · rw [if_neg hb, List.filter_cons_of_neg hb, List.filter_cons_of_neg hb, ih]

section Tally

variable (keyOf : β → κ) (itemKey : γ → κ) (isMatch : γ → β → Bool) (new : γ → β) (add : γ → β → β)

/-- An item that matches no entry is left out. -/
def addStep (t : List β) (x : γ) : List β := updateFirst (isMatch x) (add x) t

def tallyStep (t : List β) (x : γ) : List β :=
  addStep isMatch add (if t.any (isMatch x) then t else new x :: t) x

/-- Only the items of key `k` match the entries of key `k`, and they match all of them. -/
structure KeyRespected (k : κ) (xs : List γ) : Prop where
  own : ∀ x ∈ xs, itemKey x = k → ∀ b, isMatch x b = decide (keyOf b = k)
  other : ∀ x ∈ xs, itemKey x ≠ k → ∀ b, keyOf b = k → isMatch x b = false
  new : ∀ x, keyOf (new x) = itemKey x
  add : ∀ x b, keyOf (add x b) = keyOf b

variable {keyOf itemKey isMatch new add} {k : κ} {xs : List γ}

theorem KeyRespected.mono {ys : List γ} (h : KeyRespected keyOf itemKey isMatch new add k ys)
    (hsub : xs ⊆ ys) : KeyRespected keyOf itemKey isMatch new add k xs :=
  ⟨fun x hx => h.own x (hsub hx), fun x hx => h.other x (hsub hx), h.new, h.add⟩

/-- Adding an item of key `k` changes the first entry of that key. -/
theorem filter_addStep (h : KeyRespected keyOf itemKey isMatch new add k xs) (t : List β) {x : γ}
    (hx : x ∈ xs) :
    (addStep isMatch add t x).filter (fun b => keyOf b = k) =
      if itemKey x = k then (t.filter fun b => keyOf b = k).modifyHead (add x)
      else t.filter fun b => keyOf b = k := by
  have hadd : ∀ b, decide (keyOf (add x b) = k) = decide (keyOf b = k) := fun b => by rw [h.add]
  unfold addStep
  split_ifs with hkey
  · have hmatch : isMatch x = fun b => decide (keyOf b = k) := funext (h.own x hx hkey)
    rw [hmatch]
    exact filter_updateFirst hadd t
  · refine filter_updateFirst_of_not (fun b hb => decide_eq_false fun hk => ?_) hadd t
    rw [h.other x hx hkey b hk] at hb
    exact Bool.false_ne_true hb

/-- The items that match go to the first entry of their key, one after the other. -/
theorem filter_foldl_addStep (h : KeyRespected keyOf itemKey isMatch new add k xs) (t : List β) :
    (xs.foldl (addStep isMatch add) t).filter (fun b => keyOf b = k) =
      (t.filter fun b => keyOf b = k).modifyHead fun b =>
        (xs.filter fun x => itemKey x = k).foldl (fun b x => add x b) b := by
  induction xs generalizing t with
  | nil => exact (congrFun List.modifyHead_id _).symm
  | cons x xs ih =>
    rw [List.foldl_cons, ih (h.mono (List.subset_cons_self x xs)),
      filter_addStep h t List.mem_cons_self]
    by_cases hx : itemKey x = k
    · rw [if_pos hx, List.filter_cons, if_pos (decide_eq_true hx), List.modifyHead_modifyHead]
      rfl
    · rw [if_neg hx, List.filter_cons, if_neg (by simpa using hx)]

/-- The entry of a key, from the items of that key. -/
def tallied (new : γ → β) (add : γ → β → β) : List γ → List β
  | [] => []
  | x :: xs => [(x :: xs).foldl (fun b y => add y b) (new x)]

theorem filter_tallyStep (h : KeyRespected keyOf itemKey isMatch new add k xs) (t : List β) {x : γ}
    (hx : x ∈ xs) :
    (tallyStep isMatch new add t x).filter (fun b => keyOf b = k) =
      if itemKey x = k then
        (if t.filter (fun b => keyOf b = k) = [] then [new x]
          else t.filter fun b => keyOf b = k).modifyHead (add x)
      else t.filter fun b => keyOf b = k := by
  rw [tallyStep, filter_addStep h _ hx]
  by_cases hkey : itemKey x = k
  · have hany : t.any (isMatch x) = true ↔ t.filter (fun b => keyOf b = k) ≠ [] := by
      rw [List.any_eq_true, ne_eq, List.filter_eq_nil_iff]
      simp only [h.own x hx hkey, not_forall, not_not, exists_prop]
    rw [if_pos hkey, if_pos hkey]
    by_cases hnil : t.filter (fun b => keyOf b = k) = []
    · rw [if_pos hnil, if_neg fun ha => hany.1 ha hnil,
        List.filter_cons, if_pos (decide_eq_true ((h.new x).trans hkey)), hnil]
    · rw [if_neg hnil, if_pos (hany.2 hnil)]
  · rw [if_neg hkey, if_neg hkey]
    split_ifs
    · rfl
    · rw [List.filter_cons_of_neg]
      rw [decide_eq_true_eq, h.new]
      exact hkey

theorem filter_tally (h : KeyRespected keyOf itemKey isMatch new add k xs) :
    (xs.foldl (tallyStep isMatch new add) []).filter (fun b => keyOf b = k) =
      tallied new add (xs.filter fun x => itemKey x = k) := by
  induction xs using List.reverseRecOn with
  | nil => rfl
  | append_singleton xs x ih =>
    rw [List.foldl_append, List.foldl_cons, List.foldl_nil,
      filter_tallyStep h _ (List.mem_append_right xs List.mem_cons_self),
      ih (h.mono (List.subset_append_left xs [x])), List.filter_append]
    by_cases hx : itemKey x = k
    · rw [if_pos hx, List.filter_cons, if_pos (decide_eq_true hx), List.filter_nil]
      cases xs.filter fun x => itemKey x = k with
      | nil => rfl
      | cons y ys =>
        show [add x _] = [((y :: ys) ++ [x]).foldl (fun b y => add y b) (new y)]
        rw [List.foldl_append]
        rfl
    · rw [if_neg hx, List.filter_cons, if_neg (by simpa using hx), List.filter_nil, List.append_nil]

end Tally

end PQL
