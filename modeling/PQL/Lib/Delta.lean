import Mathlib

/-!
# Difference coding

`differences p xs` lists the successive differences of `xs`, the first one taken from the value `p`
before the list; `integrate p ds` rebuilds the values from `p`.  Each inverts the other, and
integration is injective, so a decoder that integrates returns the right samples exactly when it
reads the right differences.
-/

namespace PQL

section Delta

variable {G : Type*} [AddCommGroup G]

/-- The running values reached from `p` by adding the differences one after the other. -/
def integrate (p : G) : List G → List G
  | [] => []
  | d :: ds => (p + d) :: integrate (p + d) ds

/-- The differences between successive values, the first one from `p`. -/
def differences (p : G) : List G → List G
  | [] => []
  | x :: xs => (x - p) :: differences x xs

@[simp] theorem integrate_nil (p : G) : integrate p [] = [] := rfl

@[simp] theorem integrate_cons (p d : G) (ds : List G) :
    integrate p (d :: ds) = (p + d) :: integrate (p + d) ds := rfl

@[simp] theorem differences_nil (p : G) : differences p [] = [] := rfl

@[simp] theorem differences_cons (p x : G) (xs : List G) :
    differences p (x :: xs) = (x - p) :: differences x xs := rfl

@[simp] theorem length_integrate (p : G) (ds : List G) : (integrate p ds).length = ds.length := by
  induction ds generalizing p with
  | nil => rfl
  | cons d ds ih => simp [ih]

@[simp] theorem length_differences (p : G) (xs : List G) :
    (differences p xs).length = xs.length := by
  induction xs generalizing p with
  | nil => rfl
  | cons x xs ih => simp [ih]

theorem integrate_differences (p : G) (xs : List G) : integrate p (differences p xs) = xs := by
  induction xs generalizing p with
  | nil => rfl
  | cons x xs ih => simp [ih]

theorem differences_integrate (p : G) (ds : List G) : differences p (integrate p ds) = ds := by
  induction ds generalizing p with
  | nil => rfl
  | cons d ds ih => simp [ih]

theorem integrate_injective (p : G) : Function.Injective (integrate p) :=
  Function.LeftInverse.injective (differences_integrate p)

theorem integrate_append (p : G) (ds es : List G) :
    integrate p (ds ++ es) = integrate p ds ++ integrate (p + ds.sum) es := by
  induction ds generalizing p with
  | nil => simp
  | cons d ds ih => simp [ih, add_assoc]

/-- The last running value is the start plus all differences. -/
theorem getLastD_integrate (p : G) (ds : List G) :
    (integrate p ds).getLastD p = p + ds.sum := by
  induction ds generalizing p with
  | nil => simp
  | cons d ds ih => rw [integrate_cons, List.getLastD_cons, ih, List.sum_cons, add_assoc]

/-- A decoder that reads the differences in some other order but integrates to the same values
with a zero in front has read the same differences, the first one zero. -/
theorem integrate_perm_eq_cons_iff (p d : G) (ds rs : List G) (hperm : rs.Perm (d :: ds)) :
    integrate p rs = p :: integrate p ds ↔ rs = d :: ds ∧ d = 0 := by
  have hzero : p :: integrate p ds = integrate p (0 :: ds) := by rw [integrate_cons, add_zero]
  rw [hzero, (integrate_injective p).eq_iff]
  constructor
  · rintro rfl
    have hsum := hperm.sum_eq
    rw [List.sum_cons, List.sum_cons, add_left_inj] at hsum
    exact ⟨by rw [hsum], hsum.symm⟩
  · rintro ⟨h, rfl⟩
    exact h

end Delta

/-- Two readings of a list that agree in length at each element agree only if they agree at each
element. -/
theorem flatMap_eq_flatMap_iff {α β : Type*} (f g : α → List β) (l : List α)
    (hlen : ∀ a ∈ l, (f a).length = (g a).length) :
    l.flatMap f = l.flatMap g ↔ ∀ a ∈ l, f a = g a := by
  refine ⟨fun h => ?_, fun h => List.flatMap_congr h⟩
  induction l with
  | nil => exact nofun
  | cons a l ih =>
    rw [List.flatMap_cons, List.flatMap_cons] at h
    obtain ⟨ha, hl⟩ := List.append_inj h (hlen a List.mem_cons_self)
    rw [List.forall_mem_cons]
    exact ⟨ha, ih (fun b hb => hlen b (List.mem_cons_of_mem a hb)) hl⟩

/-- One reading never gets more out of an element than the other, so that the lengths agree. -/
theorem flatMap_eq_flatMap_iff_of_le {α β : Type*} (f g : α → List β) (l : List α)
    (hlen : ∀ a ∈ l, (f a).length ≤ (g a).length) :
    l.flatMap f = l.flatMap g ↔ ∀ a ∈ l, f a = g a := by
  refine ⟨fun h => ?_, fun h => List.flatMap_congr h⟩
  have htotal := congrArg List.length h
  rw [List.length_flatMap, List.length_flatMap] at htotal
  refine (flatMap_eq_flatMap_iff f g l ?_).1 h
  clear h
  induction l with
  | nil => exact nofun
  | cons a l ih =>
    have htail : ∀ b ∈ l, (f b).length ≤ (g b).length :=
      fun b hb => hlen b (List.mem_cons_of_mem a hb)
    have ha := hlen a List.mem_cons_self
    have hsum := List.sum_le_sum htail
    rw [List.map_cons, List.map_cons, List.sum_cons, List.sum_cons] at htotal
    rw [List.forall_mem_cons]
    exact ⟨by omega, ih htail (by omega)⟩

end PQL
