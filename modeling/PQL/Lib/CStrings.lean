import Mathlib.Data.List.Basic
import Mathlib.Algebra.Order.Group.Nat
import Mathlib.Data.List.GetD
import Mathlib.Tactic.ByContra

/-!
# Strings in a buffer

A C string begins at an offset of a buffer and goes up to the first zero behind it, which need not
lie in the buffer (`HasZero`).  An operation on it that stays in the buffer does the same in a
longer one (`cString_append`, `stripFront_append`), and it moves zeros only within the string
(`hasZero_stripFront`).
-/

namespace PQL

variable {α : Type} [Zero α] [DecidableEq α]

/-- A zero lies at the offset `o` or behind it. -/
def HasZero (mem : List α) (o : ℕ) : Prop := 0 ∈ mem.drop o

instance (mem : List α) (o : ℕ) : Decidable (HasZero mem o) :=
  inferInstanceAs (Decidable (0 ∈ mem.drop o))

/-- The string at the offset `o`; `none` if it does not end in the buffer. -/
def cString (o : ℕ) (mem : List α) : Option (List α) :=
  if HasZero mem o then some ((mem.drop o).takeWhile (· ≠ 0)) else none

/-- `xs` is written at the offset `o`. -/
def overwrite (mem : List α) (o : ℕ) (xs : List α) : List α :=
  mem.take o ++ xs ++ mem.drop (o + xs.length)

/-- The string at the offset `o` is moved to the front by the characters that it begins with and
that are left out.  Without such characters it stays where it is. -/
def stripFront (space : α → Bool) (o : ℕ) (mem : List α) : Option (List α) :=
  if space (mem.getD o 0) then
    (cString o mem).map fun s => overwrite mem o (s.dropWhile space ++ [0])
  else some mem

/-- The first entries of a run of entries are those of the front of the list. -/
theorem take_takeWhile_append {β : Type} (p : β → Bool) {n : ℕ} {xs : List β} (h : n ≤ xs.length)
    (ys : List β) : ((xs ++ ys).takeWhile p).take n = (xs.takeWhile p).take n := by
  induction xs generalizing n with
  | nil => simp [Nat.le_zero.1 h]
  | cons x xs ih =>
    cases n with
    | zero => simp
    | succ n =>
      cases hp : p x with
      | false => simp [hp]
      | true => simp [hp, ih (Nat.le_of_succ_le_succ h)]

section Append

variable {mem : List α} {o : ℕ}

omit [DecidableEq α] in
theorem HasZero.lt (h : HasZero mem o) : o < mem.length := by
  by_contra hle
  rw [HasZero, List.drop_of_length_le (not_lt.1 hle)] at h
  exact List.not_mem_nil h

omit [DecidableEq α] in
theorem HasZero.mono {p : ℕ} (h : HasZero mem p) (hop : o ≤ p) : HasZero mem o := by
  unfold HasZero at *
  rw [show p = o + (p - o) by omega, ← List.drop_drop] at h
  exact List.mem_of_mem_drop h

omit [DecidableEq α] in
theorem hasZero_append (h : HasZero mem o) (behind : List α) : HasZero (mem ++ behind) o := by
  rw [HasZero, List.drop_append_of_le_length (le_of_lt h.lt)]
  exact List.mem_append_left _ h

theorem takeWhile_append_of_mem {xs : List α} (h : 0 ∈ xs) (ys : List α) :
    (xs ++ ys).takeWhile (· ≠ 0) = xs.takeWhile (· ≠ 0) := by
  induction xs with
  | nil => exact absurd h List.not_mem_nil
  | cons x xs ih =>
    by_cases hx : x = 0
    · simp [hx]
    · have hmem : 0 ∈ xs := by simpa [eq_comm, hx] using h
      simpa [hx] using ih hmem

theorem cString_append {s : List α} (h : cString o mem = some s) (behind : List α) :
    cString o (mem ++ behind) = some s := by
  unfold cString at h ⊢
  split_ifs at h with hzero
  rw [if_pos (hasZero_append hzero behind), List.drop_append_of_le_length (le_of_lt hzero.lt),
    takeWhile_append_of_mem hzero, h]

/-- A string ends with a zero. -/
theorem getElem?_cString {s : List α} (h : cString o mem = some s) :
    mem[o + s.length]? = some 0 := by
  have hend : ∀ xs : List α, 0 ∈ xs → xs[(xs.takeWhile (· ≠ 0)).length]? = some 0 := by
    intro xs hxs
    induction xs with
    | nil => exact absurd hxs List.not_mem_nil
    | cons x xs ih =>
      by_cases hx : x = 0
      · simp [hx]
      · have hmem : 0 ∈ xs := by simpa [eq_comm, hx] using hxs
        simpa [hx] using ih hmem
  unfold cString at h
  split_ifs at h with hzero
  obtain rfl := Option.some.inj h
  rw [← List.getElem?_drop]
  exact hend _ hzero

theorem length_cString_lt {s : List α} (h : cString o mem = some s) : o + s.length < mem.length :=
  (List.getElem?_eq_some_iff.1 (getElem?_cString h)).1

omit [Zero α] [DecidableEq α] in
theorem overwrite_append {xs : List α} (h : o + xs.length ≤ mem.length) (behind : List α) :
    overwrite (mem ++ behind) o xs = overwrite mem o xs ++ behind := by
  unfold overwrite
  rw [List.take_append_of_le_length (by omega), List.drop_append_of_le_length h,
    List.append_assoc _ _ behind]

theorem length_stripped_le (space : α → Bool) {s : List α} (h : cString o mem = some s) :
    o + (s.dropWhile space ++ [0]).length ≤ mem.length := by
  have hlt := length_cString_lt h
  have hle := (List.dropWhile_suffix (l := s) space).length_le
  rw [List.length_append, List.length_singleton]
  omega

theorem stripFront_append {space : α → Bool} {mem' : List α} (ho : o < mem.length)
    (h : stripFront space o mem = some mem') (behind : List α) :
    stripFront space o (mem ++ behind) = some (mem' ++ behind) := by
  have hget : (mem ++ behind).getD o 0 = mem.getD o 0 := List.getD_append _ _ _ _ ho
  unfold stripFront at h ⊢
  rw [hget]
  split_ifs at h ⊢ with hspace
  · obtain ⟨s, hs, rfl⟩ := Option.map_eq_some_iff.1 h
    rw [cString_append hs, Option.map_some, overwrite_append (length_stripped_le space hs)]
  · rw [← Option.some.inj h]

omit [Zero α] [DecidableEq α] in
theorem length_overwrite {xs : List α} (h : o + xs.length ≤ mem.length) :
    (overwrite mem o xs).length = mem.length := by
  simp only [overwrite, List.length_append, List.length_take, List.length_drop]
  omega

theorem length_stripFront {space : α → Bool} {mem' : List α}
    (h : stripFront space o mem = some mem') : mem'.length = mem.length := by
  unfold stripFront at h
  split_ifs at h with hspace
  · obtain ⟨s, hs, rfl⟩ := Option.map_eq_some_iff.1 h
    exact length_overwrite (length_stripped_le space hs)
  · rw [← Option.some.inj h]

/-- What lies behind a zero that ends the string stays as it is. -/
theorem exists_drop_stripFront {space : α → Bool} (hspace : space 0 = false) {mem' : List α}
    (h : stripFront space o mem = some mem') :
    mem' = mem ∨ ∃ p, mem[p]? = some 0 ∧ mem'.drop p = mem.drop p := by
  unfold stripFront at h
  split_ifs at h with hfirst
  · obtain ⟨s, hs, rfl⟩ := Option.map_eq_some_iff.1 h
    have hzero := getElem?_cString hs
    have hlt := length_cString_lt hs
    right
    refine ⟨o + s.length, hzero, ?_⟩
    have hshort : (s.dropWhile space).length < s.length := by
      cases s with
      | nil =>
        rw [List.length_nil, Nat.add_zero] at hzero
        rw [List.getD_eq_getElem?_getD, hzero, Option.getD_some, hspace] at hfirst
        exact absurd hfirst Bool.false_ne_true
      | cons x xs =>
        have hx : mem.getD o 0 = x := by
          unfold cString at hs
          split_ifs at hs with hmem
          have hhead := congrArg List.head? (Option.some.inj hs)
          rw [List.getD_eq_getElem?_getD, ← List.head?_drop]
          cases hd : mem.drop o with
          | nil => simp [hd] at hhead
          | cons y ys =>
            rw [hd, List.takeWhile_cons] at hhead
            split_ifs at hhead
            · simpa using hhead
            · simp at hhead
        rw [hx] at hfirst
        rw [List.dropWhile_cons_of_pos hfirst, List.length_cons]
        exact Nat.lt_succ_of_le (List.dropWhile_suffix _).length_le
    unfold overwrite
    rw [List.drop_append, List.drop_of_length_le, List.nil_append, List.drop_drop]
    · congr 1
      simp only [List.length_append, List.length_take, List.length_singleton]
      omega
    · simp only [List.length_append, List.length_take, List.length_singleton]
      omega
  · exact Or.inl (Option.some.inj h).symm

omit [DecidableEq α] in
theorem hasZero_of_getElem? {p : ℕ} (h : mem[p]? = some 0) : HasZero mem p := by
  apply List.mem_of_mem_head?
  rw [List.head?_drop, h]
  rfl

/-- Zeros are found where they were. -/
theorem hasZero_stripFront {space : α → Bool} (hspace : space 0 = false) {mem' : List α}
    (h : stripFront space o mem = some mem') (q : ℕ) : HasZero mem' q ↔ HasZero mem q := by
  rcases exists_drop_stripFront hspace h with rfl | ⟨p, hp, hdrop⟩
  · exact Iff.rfl
  · have hmem := hasZero_of_getElem? hp
    have hmem' : HasZero mem' p := by rwa [HasZero, hdrop]
    rcases le_or_gt q p with hqp | hpq
    · exact iff_of_true (hmem'.mono hqp) (hmem.mono hqp)
    · unfold HasZero
      rw [show q = p + (q - p) by omega, ← List.drop_drop, ← List.drop_drop, hdrop]

/-- Behind the last zero nothing changes. -/
theorem drop_stripFront {space : α → Bool} (hspace : space 0 = false) {mem' : List α}
    (h : stripFront space o mem = some mem') {q : ℕ} (hq : ¬HasZero mem q) :
    mem'.drop q = mem.drop q := by
  rcases exists_drop_stripFront hspace h with rfl | ⟨p, hp, hdrop⟩
  · rfl
  · have hpq : p < q := by
      by_contra hle
      exact hq ((hasZero_of_getElem? hp).mono (not_lt.1 hle))
    rw [show q = p + (q - p) by omega, ← List.drop_drop, ← List.drop_drop, hdrop]

/-- The string is not moved, or it ends in the buffer. -/
theorem isSome_stripFront (space : α → Bool) :
    (stripFront space o mem).isSome ↔ space (mem.getD o 0) = false ∨ HasZero mem o := by
  unfold stripFront cString
  cases hfirst : space (mem.getD o 0) <;> by_cases hzero : HasZero mem o <;>
    simp only [hzero] <;> simp

end Append

end PQL
