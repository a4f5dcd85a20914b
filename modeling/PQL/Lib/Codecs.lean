import Mathlib

/-!
# Encodings that are read in place

A `Codec` writes a value to a stream and reads one over the value that is there.  A reader that
fails may leave a part of what it has read, and some parts of a value need not be in the stream:
those are kept (`Codec.merge`).  Pairs, arrays and structures are put together from their parts, and
values written one behind the other are read back in order (`Codec.getMany_putMany`).
-/

namespace PQL

/-- What a reader leaves: whether it succeeded, the value and the rest of the stream. -/
structure Read (β α : Type) where
  ok : Bool
  value : α
  rest : List β

structure Codec (β α : Type) where
  put : α → List β
  get : α → List β → Read β α
  /-- The second value, but what is not in the stream from the first one. -/
  merge : α → α → α
  get_put : ∀ old x rest, get old (put x ++ rest) = ⟨true, merge old x, rest⟩

variable {β α γ : Type}

/-! ## Parts of a value -/

theorem kept_get_put (old _x : α) (rest : List β) :
    (⟨true, old, [] ++ rest⟩ : Read β α) = ⟨true, old, rest⟩ := rfl

/-- A part that is not in the stream. -/
def Codec.kept : Codec β α where
  put _ := []
  get old s := ⟨true, old, s⟩
  merge old _ := old
  get_put := kept_get_put

/-- One item of the stream. -/
def oneGet (old : β) : List β → Read β β
  | b :: rest => ⟨true, b, rest⟩
  | [] => ⟨false, old, []⟩

theorem oneGet_put (old x : β) (rest : List β) : oneGet old ([x] ++ rest) = ⟨true, x, rest⟩ := rfl

def Codec.one : Codec β β where
  put x := [x]
  get := oneGet
  merge _ x := x
  get_put := oneGet_put

section Pair

variable (A : Codec β α) (B : Codec β γ)

def pairGet (old : α × γ) (s : List β) : Read β (α × γ) :=
  let first := A.get old.1 s
  if first.ok then
    let second := B.get old.2 first.rest
    ⟨second.ok, (first.value, second.value), second.rest⟩
  else ⟨false, (first.value, old.2), first.rest⟩

theorem pairGet_put (old x : α × γ) (rest : List β) :
    pairGet A B old (A.put x.1 ++ B.put x.2 ++ rest) =
      ⟨true, (A.merge old.1 x.1, B.merge old.2 x.2), rest⟩ := by
  rw [pairGet, List.append_assoc, A.get_put]
  dsimp only
  rw [if_pos rfl, B.get_put]

/-- A value with two parts. -/
def Codec.pair : Codec β (α × γ) where
  put x := A.put x.1 ++ B.put x.2
  get := pairGet A B
  merge old x := (A.merge old.1 x.1, B.merge old.2 x.2)
  get_put := pairGet_put A B

end Pair

section Iso

variable (A : Codec β α) (e : α ≃ γ)

def isoGet (old : γ) (s : List β) : Read β γ :=
  let read := A.get (e.symm old) s
  ⟨read.ok, e read.value, read.rest⟩

theorem isoGet_put (old x : γ) (rest : List β) :
    isoGet A e old (A.put (e.symm x) ++ rest) =
      ⟨true, e (A.merge (e.symm old) (e.symm x)), rest⟩ := by
  rw [isoGet, A.get_put]

/-- The same value in another form. -/
def Codec.iso : Codec β γ where
  put x := A.put (e.symm x)
  get := isoGet A e
  merge old x := e (A.merge (e.symm old) (e.symm x))
  get_put := isoGet_put A e

end Iso

theorem consEquiv_left_inv (n : ℕ) : Function.LeftInverse
    (fun f : Fin (n + 1) → α => (f 0, fun i : Fin n => f i.succ)) fun t => Fin.cons t.1 t.2 :=
  fun _ => rfl

theorem consEquiv_right_inv (n : ℕ) : Function.RightInverse
    (fun f : Fin (n + 1) → α => (f 0, fun i : Fin n => f i.succ)) fun t => Fin.cons t.1 t.2 :=
  fun f => funext fun i => by refine Fin.cases ?_ (fun i => ?_) i <;> rfl

/-- An array by its first entry and the others. -/
def consEquiv (α : Type) (n : ℕ) : α × (Fin n → α) ≃ (Fin (n + 1) → α) where
  toFun t := Fin.cons t.1 t.2
  invFun f := (f 0, fun i => f i.succ)
  left_inv := consEquiv_left_inv n
  right_inv := consEquiv_right_inv n

/-- The entries of an array, one behind the other. -/
def Codec.array (A : Codec β α) : (n : ℕ) → Codec β (Fin n → α)
  | 0 => Codec.kept
  | n + 1 => (A.pair (A.array n)).iso (consEquiv α n)

/-- Reading changes a value in full. -/
def Codec.Complete (A : Codec β α) : Prop := ∀ old x, A.merge old x = x

/-- Nothing can be read at the end of the stream. -/
def Codec.NeedsInput (A : Codec β α) : Prop := ∀ old, (A.get old []).ok = false

theorem Codec.Complete.array {A : Codec β α} (h : A.Complete) : ∀ n, (A.array n).Complete
  | 0 => fun _ _ => funext fun i => i.elim0
  | n + 1 => fun old x => by
    change Fin.cons (A.merge (old 0) (x 0))
      ((A.array n).merge (fun i => old i.succ) fun i => x i.succ) = x
    rw [h, Complete.array h n]
    exact Fin.cons_self_tail x

theorem Codec.NeedsInput.pair {A : Codec β α} (h : A.NeedsInput) (B : Codec β γ) :
    (A.pair B).NeedsInput := by
  intro old
  have hfirst := h old.1
  change (pairGet A B old []).ok = false
  rw [pairGet]
  dsimp only
  rw [if_neg (by rw [hfirst]; exact Bool.false_ne_true)]

theorem Codec.NeedsInput.iso {A : Codec β α} (h : A.NeedsInput) (e : α ≃ γ) :
    (A.iso e).NeedsInput := fun old => h (e.symm old)

/-! ## Values one behind the other -/

section Many

def Codec.putMany (A : Codec β α) (xs : List α) : List β := xs.flatMap A.put

/-- `n` values, each read over `d`, up to the first that fails. -/
def Codec.getMany (A : Codec β α) (d : α) : ℕ → List β → Read β (List α)
  | 0, s => ⟨true, [], s⟩
  | n + 1, s =>
    let first := A.get d s
    if first.ok then
      let others := Codec.getMany A d n first.rest
      ⟨others.ok, first.value :: others.value, others.rest⟩
    else ⟨false, [], first.rest⟩

variable {A : Codec β α} {d : α}

theorem Codec.getMany_putMany (hA : A.Complete) (xs : List α) (rest : List β) :
    A.getMany d xs.length (A.putMany xs ++ rest) = ⟨true, xs, rest⟩ := by
  induction xs with
  | nil => rfl
  | cons x xs ih =>
    have hput : A.putMany (x :: xs) ++ rest = A.put x ++ (A.putMany xs ++ rest) := by
      rw [putMany, List.flatMap_cons, List.append_assoc]
      rfl
    rw [hput, List.length_cons, getMany, A.get_put, hA]
    dsimp only
    rw [if_pos rfl, ih]

theorem Codec.length_getMany {n : ℕ} {s : List β} (h : (A.getMany d n s).ok = true) :
    (A.getMany d n s).value.length = n := by
  induction n generalizing s with
  | zero => rfl
  | succ n ih =>
    rw [Codec.getMany] at h ⊢
    dsimp only at h ⊢
    split_ifs at h ⊢ with hfirst
    rw [List.length_cons, ih h]

end Many

end PQL
