import Mathlib

/-!
# Blocks of memory

A heap knows which blocks are allocated; blocks are numbered in the order of their allocation, so
that a released block never comes back.  Releasing a block that is not allocated has no result.
`Owns` says that the blocks of a list are allocated and that none of them is in it twice; then all
of them can be released, and what is done to some of them leaves the others owned.
-/

namespace PQL

/-- The allocated blocks; those from `next` on have not been allocated yet. -/
structure Heap where
  next : ℕ
  live : Finset ℕ
  live_lt : ∀ b ∈ live, b < next

namespace Heap

def empty : Heap := ⟨0, ∅, fun _ hb => absurd hb (Finset.notMem_empty _)⟩

/-- The heap after the block `next` has been allocated. -/
def alloc (h : Heap) : Heap where
  next := h.next + 1
  live := insert h.next h.live
  live_lt b hb := by
    rcases Finset.mem_insert.1 hb with rfl | hb
    · exact Nat.lt_succ_self _
    · exact Nat.lt_succ_of_lt (h.live_lt b hb)

def free (h : Heap) (b : ℕ) : Option Heap :=
  if b ∈ h.live then
    some ⟨h.next, h.live.erase b, fun c hc => h.live_lt c (Finset.mem_of_mem_erase hc)⟩
  else none

def freeAll (h : Heap) (bs : List ℕ) : Option Heap := bs.foldlM free h

theorem live_of_free {h h' : Heap} {b : ℕ} (hfree : h.free b = some h') :
    b ∈ h.live ∧ h'.live = h.live.erase b := by
  unfold free at hfree
  split_ifs at hfree with hb
  obtain rfl := Option.some.inj hfree
  exact ⟨hb, rfl⟩

theorem freeAll_cons (h : Heap) (b : ℕ) (bs : List ℕ) :
    h.freeAll (b :: bs) = (h.free b).bind fun h => h.freeAll bs := List.foldlM_cons

/-- What has been released is not allocated any more, and nothing else is lost. -/
theorem mem_live_of_freeAll {h h' : Heap} {bs : List ℕ} (hfree : h.freeAll bs = some h') (b : ℕ) :
    b ∈ h'.live ↔ b ∈ h.live ∧ b ∉ bs := by
  induction bs generalizing h with
  | nil =>
    obtain rfl := Option.some.inj hfree
    exact (and_iff_left List.not_mem_nil).symm
  | cons c bs ih =>
    rw [freeAll_cons] at hfree
    obtain ⟨h₁, hc, hbs⟩ := Option.bind_eq_some_iff.1 hfree
    rw [ih hbs, (live_of_free hc).2, Finset.mem_erase, List.mem_cons, not_or]
    exact ⟨fun ⟨⟨hne, hb⟩, hn⟩ => ⟨hb, hne, hn⟩, fun ⟨hb, hne, hn⟩ => ⟨⟨hne, hb⟩, hn⟩⟩

theorem freeAll_eq_none {h : Heap} {b : ℕ} {bs : List ℕ} (hb : b ∈ bs) (hlive : b ∉ h.live) :
    h.freeAll bs = none := by
  induction bs generalizing h with
  | nil => exact absurd hb List.not_mem_nil
  | cons c bs ih =>
    rw [freeAll_cons]
    cases hc : h.free c with
    | none => rfl
    | some h₁ =>
      have hne : b ≠ c := by
        rintro rfl
        exact hlive (live_of_free hc).1
      apply ih (List.mem_of_ne_of_mem hne hb)
      rw [(live_of_free hc).2]
      exact fun hb => hlive (Finset.mem_of_mem_erase hb)

/-- The blocks are allocated, each of them named once. -/
structure Owns (h : Heap) (bs : List ℕ) : Prop where
  nodup : bs.Nodup
  live : ∀ b ∈ bs, b ∈ h.live

variable {h : Heap} {b : ℕ} {bs cs : List ℕ}

theorem Owns.perm (hbs : h.Owns bs) (hperm : bs.Perm cs) : h.Owns cs :=
  ⟨hperm.nodup_iff.1 hbs.nodup, fun b hb => hbs.live b (hperm.mem_iff.2 hb)⟩

/-- Blocks may be forgotten. -/
theorem Owns.subperm (hbs : h.Owns bs) (hsub : cs.Subperm bs) : h.Owns cs := by
  obtain ⟨ds, hperm, hsub⟩ := hsub
  have hds : h.Owns ds := ⟨hbs.nodup.sublist hsub, fun b hb => hbs.live b (hsub.subset hb)⟩
  exact hds.perm hperm

theorem Owns.sublist (hbs : h.Owns bs) (hsub : cs.Sublist bs) : h.Owns cs :=
  hbs.subperm hsub.subperm

theorem Owns.alloc (hbs : h.Owns bs) : h.alloc.Owns (h.next :: bs) := by
  refine ⟨List.nodup_cons.2 ⟨fun hmem => ?_, hbs.nodup⟩, fun b hb => ?_⟩
  · exact absurd (h.live_lt _ (hbs.live _ hmem)) (lt_irrefl _)
  · rcases List.mem_cons.1 hb with rfl | hb
    · exact Finset.mem_insert_self _ _
    · exact Finset.mem_insert_of_mem (hbs.live b hb)

theorem Owns.free (hbs : h.Owns (b :: bs)) : ∃ h', h.free b = some h' ∧ h'.Owns bs := by
  refine ⟨_, if_pos (hbs.live b List.mem_cons_self), (List.nodup_cons.1 hbs.nodup).2,
    fun c hc => ?_⟩
  apply Finset.mem_erase.2
  refine ⟨?_, hbs.live c (List.mem_cons_of_mem b hc)⟩
  rintro rfl
  exact (List.nodup_cons.1 hbs.nodup).1 hc

/-- Owned blocks can be released, one after the other. -/
theorem Owns.freeAll (hbs : h.Owns (bs ++ cs)) : ∃ h', h.freeAll bs = some h' ∧ h'.Owns cs := by
  induction bs generalizing h with
  | nil => exact ⟨h, rfl, hbs⟩
  | cons b bs ih =>
    obtain ⟨h₁, hfree, h₁bs⟩ := hbs.free
    obtain ⟨h₂, hrest, h₂cs⟩ := ih h₁bs
    refine ⟨h₂, ?_, h₂cs⟩
    rw [freeAll_cons, hfree, Option.bind_some, hrest]

end Heap

end PQL
