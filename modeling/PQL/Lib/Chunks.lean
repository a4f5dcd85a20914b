import PQL.Lib.Arrays

/-!
# Chunks written one behind the other

A buffer of the right size is filled chunk by chunk, each chunk at a position that is computed from
the number of items before it.  `place n` is that position; it is the right one only while `n` is
small and turns negative from `L` on, as a product of C's `int`s does.  `fillChunks_iff` says when
the buffer ends up with the chunks in order.
-/

namespace PQL

variable {α γ : Type}

/-- Entries are stored one after the other from the index `i` on. -/
def storeAll (mem : List α) (i : ℤ) : List α → Option (List α)
  | [] => some mem
  | x :: xs => (store mem i x).bind fun mem => storeAll mem (i + 1) xs

theorem storeAll_append (pre mid rest xs : List α) (h : xs.length = mid.length) :
    storeAll (pre ++ mid ++ rest) pre.length xs = some (pre ++ xs ++ rest) := by
  induction xs generalizing pre mid with
  | nil =>
    obtain rfl : mid = [] := List.eq_nil_of_length_eq_zero h.symm
    rfl
  | cons x xs ih =>
    obtain ⟨y, mid, rfl⟩ : ∃ y mid', mid = y :: mid' := List.exists_cons_of_length_eq_add_one h.symm
    have hset :
        store (pre ++ y :: mid ++ rest) pre.length x = some (pre ++ [x] ++ mid ++ rest) := by
      rw [store, if_pos ⟨by omega, by simp only [List.length_append, List.length_cons]; omega⟩]
      simp
    have hrest := ih (pre ++ [x]) mid (Nat.succ.inj h)
    rw [List.length_append, List.length_singleton, Nat.cast_add, Nat.cast_one] at hrest
    rw [storeAll, hset, Option.bind_some, hrest]
    simp

theorem storeAll_eq_none {mem : List α} {i : ℤ} {xs : List α} (hi : i < 0) (hxs : xs ≠ []) :
    storeAll mem i xs = none := by
  obtain ⟨x, xs, rfl⟩ := List.exists_cons_of_ne_nil hxs
  rw [storeAll, store_eq_none (Or.inl hi)]
  rfl

section Fill

variable (place : ℤ → ℤ) (cells : γ → Option (List α)) (count : γ → ℕ)

/-- A chunk of `count c` items is stored where `place` puts the next item. -/
def fillStep (s : List α × ℤ) (c : γ) : Option (List α × ℤ) :=
  (cells c).bind fun xs => (storeAll s.1 (place s.2) xs).map fun mem => (mem, s.2 + count c)

def fillChunks (s : List α × ℤ) (cs : List γ) : Option (List α × ℤ) :=
  cs.foldlM (fillStep place cells count) s

variable {place cells count} in
/-- An empty chunk changes nothing. -/
theorem fillStep_of_nil {c : γ} (hcells : cells c = some []) (hcount : count c = 0)
    (s : List α × ℤ) : fillStep place cells count s c = some s := by
  rw [fillStep, hcells, hcount, Nat.cast_zero, add_zero]
  rfl

/-- A last item that changes nothing may be left out. -/
theorem foldlM_concat_of_skip {σ : Type} {step : σ → γ → Option σ} {c : γ}
    (h : ∀ s, step s c = some s) (cs : List γ) (s : σ) :
    (cs ++ [c]).foldlM step s = cs.foldlM step s := by
  rw [List.foldlM_append]
  simp only [List.foldlM_cons, List.foldlM_nil, h, Option.bind_eq_bind, Option.pure_def,
    Option.bind_fun_some]

/-- A run over items of which only some are chunks. -/
theorem foldlM_fillStep_filter (q : γ → Prop) [DecidablePred q] (s : List α × ℤ) (cs : List γ) :
    cs.foldlM (fun s c => if q c then fillStep place cells count s c else some s) s =
      fillChunks place cells count s (cs.filter fun c => q c) := by
  induction cs generalizing s with
  | nil => rfl
  | cons c cs ih =>
    rw [List.foldlM_cons, List.filter_cons]
    by_cases hq : q c
    · rw [if_pos hq, if_pos (decide_eq_true hq)]
      exact Option.bind_congr fun s _ => ih s
    · rw [if_neg hq, if_neg (by simpa using hq)]
      exact ih s

/-- Every chunk that is not empty has fewer than `L` items before it. -/
def StartsBelow (L : ℤ) : ℤ → List γ → Prop
  | _, [] => True
  | n, c :: cs => (count c ≠ 0 → n < L) ∧ StartsBelow L (n + count c) cs

instance decidableStartsBelow (L : ℤ) :
    (n : ℤ) → (cs : List γ) → Decidable (StartsBelow count L n cs)
  | _, [] => .isTrue trivial
  | n, c :: cs =>
    have := decidableStartsBelow L (n + count c) cs
    inferInstanceAs (Decidable (_ ∧ _))

theorem startsBelow_map {δ : Type} (count : γ → ℕ) (g : δ → γ) (L n : ℤ) (cs : List δ) :
    StartsBelow (fun c => count (g c)) L n cs ↔ StartsBelow count L n (cs.map g) := by
  induction cs generalizing n with
  | nil => exact Iff.rfl
  | cons c cs ih => exact and_congr Iff.rfl (ih _)

/-- Chunks with `k` cells an item and a position that is right below `L` and negative from `L` on,
as long as there are fewer than `N` items. -/
structure FillInput (k : ℕ) (L N : ℤ) (cs : List γ) : Prop where
  length : ∀ c ∈ cs, ∀ xs, cells c = some xs → xs.length = k * count c
  pos : 0 < k
  small : ∀ c ∈ cs, (count c : ℤ) ≤ L
  exact : ∀ n, 0 ≤ n → n < L → place n = k * n
  negative : ∀ n, L ≤ n → n < 2 * L → n < N → place n < 0

variable {place cells count}

theorem fillChunks_cons (s : List α × ℤ) (c : γ) (cs : List γ) :
    fillChunks place cells count s (c :: cs) =
      (fillStep place cells count s c).bind fun s => fillChunks place cells count s cs :=
  List.foldlM_cons

/-- A chunk that starts below `L` goes behind the items that are written. -/
theorem storeAll_place {k : ℕ} {L N : ℤ} {cs : List γ} (h : FillInput place cells count k L N cs)
    {c : γ} (hc : c ∈ cs) {xs : List α} (hxs : cells c = some xs) {pre rest : List α} {n : ℤ}
    (hn : 0 ≤ n) (hpre : (pre.length : ℤ) = k * n) (hrest : k * count c ≤ rest.length)
    (hstart : count c ≠ 0 → n < L) :
    storeAll (pre ++ rest) (place n) xs = some (pre ++ xs ++ rest.drop (k * count c)) := by
  have hlen := h.length c hc xs hxs
  by_cases hzero : count c = 0
  · rw [hzero, Nat.mul_zero] at hlen
    rw [List.eq_nil_of_length_eq_zero hlen, hzero]
    simp [storeAll]
  · have hsplit : pre ++ rest = pre ++ rest.take (k * count c) ++ rest.drop (k * count c) := by
      rw [List.append_assoc, List.take_append_drop]
    rw [h.exact n hn (hstart hzero), ← hpre, hsplit]
    apply storeAll_append
    rw [hlen, List.length_take, Nat.min_eq_left hrest]

/-- The run from a buffer whose first `n` items are written. -/
theorem fillChunks_from {k : ℕ} {L N : ℤ} {cs : List γ} (h : FillInput place cells count k L N cs)
    {pre rest : List α} {n : ℤ} (hn : 0 ≤ n) (hn2 : n < 2 * L) (hpre : (pre.length : ℤ) = k * n)
    (hrest : rest.length = k * (cs.map count).sum) (hN : n + (cs.map count).sum ≤ N)
    (r : List α × ℤ) :
    fillChunks place cells count (pre ++ rest, n) cs = some r ↔
      (∀ c ∈ cs, (cells c).isSome) ∧ StartsBelow count L n cs ∧
        r = (pre ++ cs.flatMap fun c => (cells c).getD [], n + (cs.map count).sum) := by
  induction cs generalizing pre rest n with
  | nil =>
    obtain rfl : rest = [] := List.eq_nil_of_length_eq_zero hrest
    show some (pre ++ [], n) = some r ↔ _
    rw [Option.some_inj, eq_comm]
    simp [StartsBelow]
  | cons c cs ih =>
    have htail : FillInput place cells count k L N cs :=
      ⟨fun d hd => h.length d (List.mem_cons_of_mem c hd), h.pos,
        fun d hd => h.small d (List.mem_cons_of_mem c hd), h.exact, h.negative⟩
    rw [List.map_cons, List.sum_cons] at hrest hN
    rw [Nat.mul_add] at hrest
    rw [Nat.cast_add, ← add_assoc] at hN
    rw [fillChunks_cons, fillStep]
    cases hcells : cells c with
    | none =>
      rw [Option.bind_none, Option.bind_none, List.forall_mem_cons, hcells]
      exact iff_of_false nofun fun hall => absurd hall.1.1 Bool.false_ne_true
    | some xs =>
      rw [Option.bind_some]
      by_cases hstart : count c ≠ 0 → n < L
      · have hlen := h.length c List.mem_cons_self xs hcells
        have hsmall := h.small c List.mem_cons_self
        have hnext : n + count c < 2 * L := by
          by_cases hzero : count c = 0
          · omega
          · have := hstart hzero
            omega
        have hpre' : ((pre ++ xs).length : ℤ) = k * (n + count c) := by
          rw [List.length_append, hlen, Nat.cast_add, hpre]
          push_cast
          ring
        have hrest' : (rest.drop (k * count c)).length = k * (cs.map count).sum := by
          rw [List.length_drop]
          omega
        have hmem : (∀ d ∈ c :: cs, (cells d).isSome) ↔ ∀ d ∈ cs, (cells d).isSome := by
          rw [List.forall_mem_cons, hcells]
          exact and_iff_right rfl
        rw [storeAll_place h List.mem_cons_self hcells hn hpre (by omega) hstart, Option.map_some,
          Option.bind_some, ih htail (by omega) hnext hpre' hrest' hN, hmem, StartsBelow,
          List.flatMap_cons, hcells, List.append_assoc, List.map_cons, List.sum_cons, Nat.cast_add,
          ← add_assoc, and_iff_right hstart]
        rfl
      · obtain ⟨hcount, hlarge⟩ := Classical.not_imp.1 hstart
        have hne : xs ≠ [] := by
          rintro rfl
          have hlen := h.length c List.mem_cons_self [] hcells
          exact hcount ((Nat.mul_eq_zero.1 hlen.symm).resolve_left h.pos.ne')
        rw [storeAll_eq_none (h.negative n (not_lt.1 hlarge) hn2 (by omega)) hne]
        exact iff_of_false nofun fun hall => hstart hall.2.1.1

/-- A buffer that has room for all chunks is filled with them in order exactly if each of them can
be read and starts below `L`. -/
theorem fillChunks_iff {k : ℕ} {L N : ℤ} {cs : List γ} (h : FillInput place cells count k L N cs)
    (hL : 0 < L) (hN : (cs.map count).sum ≤ N) {mem : List α}
    (hmem : mem.length = k * (cs.map count).sum) (r : List α × ℤ) :
    fillChunks place cells count (mem, 0) cs = some r ↔
      (∀ c ∈ cs, (cells c).isSome) ∧ StartsBelow count L 0 cs ∧
        r = (cs.flatMap fun c => (cells c).getD [], ((cs.map count).sum : ℤ)) := by
  have hpre : ((List.nil : List α).length : ℤ) = k * 0 := by simp
  have hfrom := fillChunks_from h le_rfl (by omega) hpre hmem (by rwa [zero_add]) r
  rwa [List.nil_append, List.nil_append, zero_add] at hfrom

/-- Chunks that all start below `L` end below `2 * L`. -/
theorem StartsBelow.total_lt {L : ℤ} {n : ℤ} {cs : List γ} (hn : n < 2 * L)
    (hsmall : ∀ c ∈ cs, (count c : ℤ) ≤ L) (h : StartsBelow count L n cs) :
    n + (cs.map count).sum < 2 * L := by
  induction cs generalizing n with
  | nil => simpa using hn
  | cons c cs ih =>
    have hc := hsmall c List.mem_cons_self
    have hnext : n + count c < 2 * L := by
      by_cases hzero : count c = 0
      · omega
      · have := h.1 hzero
        omega
    have := ih hnext (fun d hd => hsmall d (List.mem_cons_of_mem c hd)) h.2
    rw [List.map_cons, List.sum_cons]
    push_cast at this ⊢
    omega

theorem startsBelow_of_le {L n : ℤ} {cs : List γ} (h : n + (cs.map count).sum ≤ L) :
    StartsBelow count L n cs := by
  induction cs generalizing n with
  | nil => trivial
  | cons c cs ih =>
    rw [List.map_cons, List.sum_cons, Nat.cast_add] at h
    exact ⟨fun hne => by omega, ih (by omega)⟩

theorem startsBelow_of_sum_eq_zero {L n : ℤ} {cs : List γ} (h : (cs.map count).sum = 0) :
    StartsBelow count L n cs := by
  induction cs generalizing n with
  | nil => trivial
  | cons c cs ih =>
    rw [List.map_cons, List.sum_cons, Nat.add_eq_zero_iff] at h
    exact ⟨fun hne => absurd h.1 hne, ih h.2⟩

end Fill

end PQL
