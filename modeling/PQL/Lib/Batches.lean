import Mathlib

/-!
# Batches

A list is cut from the front into batches: the first element opens a batch, which goes on as long as
the elements join the one that opened it (`batches`).
-/

namespace PQL

variable {α : Type} {joins : α → α → Bool}

/-- The maximal runs of elements that join the first one of their run. -/
def batches (joins : α → α → Bool) : List α → List (List α)
  | [] => []
  | a :: l => (a :: l.takeWhile (joins a)) :: batches joins (l.dropWhile (joins a))
termination_by l => l.length
decreasing_by exact Nat.lt_succ_of_le (List.dropWhile_sublist _).length_le

@[simp] theorem batches_nil : batches joins [] = [] := by rw [batches]

theorem batches_cons (a : α) (l : List α) :
    batches joins (a :: l) =
      (a :: l.takeWhile (joins a)) :: batches joins (l.dropWhile (joins a)) := by
  rw [batches]

@[simp] theorem flatten_batches (l : List α) : (batches joins l).flatten = l := by
  induction l using batches.induct joins with
  | case1 => rw [batches_nil, List.flatten_nil]
  | case2 a l ih =>
    rw [batches_cons, List.flatten_cons, ih, List.cons_append, List.takeWhile_append_dropWhile]

/-- A batch is the element that opened it and some that join it. -/
theorem exists_of_mem_batches {l m : List α} (hm : m ∈ batches joins l) :
    ∃ a rest, m = a :: rest ∧ ∀ b ∈ rest, joins a b := by
  induction l using batches.induct joins with
  | case1 => rw [batches_nil] at hm; exact absurd hm List.not_mem_nil
  | case2 a l ih =>
    rw [batches_cons, List.mem_cons] at hm
    rcases hm with rfl | hm
    · exact ⟨a, _, rfl, fun b hb => List.mem_takeWhile_imp hb⟩
    · exact ih hm

/-- What opens a batch does not join what opened the one before. -/
theorem isChain_batches (l : List α) :
    (batches joins l).IsChain fun m m' => ∀ a ∈ m.head?, ∀ b ∈ m'.head?, joins a b = false := by
  induction l using batches.induct joins with
  | case1 => rw [batches_nil]; exact List.isChain_nil
  | case2 a l ih =>
    rw [batches_cons]
    cases hrest : l.dropWhile (joins a) with
    | nil => rw [batches_nil]; exact List.isChain_singleton _
    | cons b l' =>
      rw [hrest, batches_cons] at ih
      rw [batches_cons]
      refine List.isChain_cons_cons.2 ⟨fun a' ha' b' hb' => ?_, ih⟩
      obtain rfl := Option.some.inj ha'
      obtain rfl := Option.some.inj hb'
      have hhead := List.head?_dropWhile_not (joins a) l
      rw [hrest] at hhead
      simpa using hhead

/-- The batches behind the first ones are those of the list behind them. -/
theorem drop_batches (k : ℕ) (l : List α) :
    (batches joins l).drop k =
      batches joins (l.drop ((batches joins l).take k).flatten.length) := by
  induction k generalizing l with
  | zero => rfl
  | succ k ih =>
    cases l with
    | nil => simp
    | cons a l =>
      have hrest : l.drop (l.takeWhile (joins a)).length = l.dropWhile (joins a) := by
        have hdrop : (l.takeWhile (joins a) ++ l.dropWhile (joins a)).drop
            (l.takeWhile (joins a)).length = l.dropWhile (joins a) := List.drop_left
        rwa [List.takeWhile_append_dropWhile] at hdrop
      rw [batches_cons, List.drop_succ_cons, ih, List.take_succ_cons, List.flatten_cons,
        List.length_append, List.length_cons, Nat.add_right_comm, List.drop_succ_cons,
        ← List.drop_drop, hrest]

end PQL
