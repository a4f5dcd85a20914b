import Mathlib

/-!
# Keyed records

A key-value store is the list of its records, in any order, with one record for a key that was
written (`filter_putAll`).  What reading all records makes of one part of a state depends only on
the records that bear on that part (`foldl_project`).
-/

namespace PQL

variable {κ α : Type} [DecidableEq κ]

/-- The record of a key is replaced, or added. -/
def put (db : List (κ × α)) (rec : κ × α) : List (κ × α) :=
  db.filter (fun r => r.1 ≠ rec.1) ++ [rec]

def putAll (db recs : List (κ × α)) : List (κ × α) := recs.foldl put db

theorem filter_put_self (db : List (κ × α)) (rec : κ × α) :
    (put db rec).filter (fun r => r.1 = rec.1) = [rec] := by
  rw [put, List.filter_append, List.filter_filter]
  simp

theorem filter_put_of_ne (db : List (κ × α)) {rec : κ × α} {k : κ} (hk : k ≠ rec.1) :
    (put db rec).filter (fun r => r.1 = k) = db.filter fun r => r.1 = k := by
  rw [put, List.filter_append, List.filter_filter]
  have hrec : [rec].filter (fun r => r.1 = k) = [] := by simpa using hk.symm
  rw [hrec, List.append_nil]
  apply List.filter_congr
  intro r _
  by_cases hr : r.1 = k
  · simp [hr, hk]
  · simp [hr]

theorem filter_putAll_of_notMem {db recs : List (κ × α)} {k : κ} (hk : ∀ r ∈ recs, k ≠ r.1) :
    (putAll db recs).filter (fun r => r.1 = k) = db.filter fun r => r.1 = k := by
  induction recs generalizing db with
  | nil => rfl
  | cons rec recs ih =>
    rw [putAll, List.foldl_cons]
    exact (ih fun r hr => hk r (List.mem_cons_of_mem rec hr)).trans
      (filter_put_of_ne db (hk rec List.mem_cons_self))

/-- A key that was written has its one record. -/
theorem filter_putAll {db recs : List (κ × α)} (hkeys : (recs.map Prod.fst).Nodup) {rec : κ × α}
    (hrec : rec ∈ recs) : (putAll db recs).filter (fun r => r.1 = rec.1) = [rec] := by
  induction recs generalizing db with
  | nil => exact absurd hrec List.not_mem_nil
  | cons rec' recs ih =>
    rw [List.map_cons, List.nodup_cons] at hkeys
    rw [putAll, List.foldl_cons]
    rcases List.mem_cons.1 hrec with rfl | hmem
    · refine (filter_putAll_of_notMem fun r hr heq => hkeys.1 ?_).trans (filter_put_self db rec)
      rw [heq]
      exact List.mem_map_of_mem hr
    · exact ih hkeys.2 hmem

/-- A key has one record. -/
theorem nodup_putAll {db : List (κ × α)} (hdb : (db.map Prod.fst).Nodup) (recs : List (κ × α)) :
    ((putAll db recs).map Prod.fst).Nodup := by
  induction recs generalizing db with
  | nil => exact hdb
  | cons rec recs ih =>
    rw [putAll, List.foldl_cons]
    refine ih ?_
    rw [put, List.map_append, List.map_singleton, List.nodup_append]
    refine ⟨hdb.sublist (List.filter_sublist.map Prod.fst), List.nodup_singleton _, ?_⟩
    rintro k hk k' hk' rfl
    obtain ⟨r, hr, rfl⟩ := List.mem_map.1 hk
    exact of_decide_eq_true (List.mem_filter.1 hr).2 (List.mem_singleton.1 hk')

/-- Records with different keys are all kept. -/
theorem putAll_eq_append {db recs : List (κ × α)} (h : ((db ++ recs).map Prod.fst).Nodup) :
    putAll db recs = db ++ recs := by
  induction recs generalizing db with
  | nil => rw [List.append_nil]; rfl
  | cons rec recs ih =>
    have hput : put db rec = db ++ [rec] := by
      rw [put, List.filter_eq_self.2]
      intro r hr
      rw [List.map_append, List.nodup_append] at h
      exact decide_eq_true (h.2.2 _ (List.mem_map_of_mem hr) _ List.mem_cons_self)
    rw [putAll, List.foldl_cons, hput, ← putAll, ih (by rwa [List.append_cons] at h),
      ← List.append_cons]

/-- In whatever order the records come. -/
theorem filter_perm_putAll {db recs all : List (κ × α)} (hkeys : (recs.map Prod.fst).Nodup)
    {rec : κ × α} (hrec : rec ∈ recs) (hall : all.Perm (putAll db recs)) :
    all.filter (fun r => r.1 = rec.1) = [rec] := by
  have hperm := hall.filter fun r => decide (r.1 = rec.1)
  rw [filter_putAll hkeys hrec] at hperm
  exact List.perm_singleton.1 hperm

/-- All the records are made, or none. -/
theorem mapM_guard {ρ β : Type} (P : ρ → Prop) [DecidablePred P] (g : ρ → β) (rs : List ρ) :
    rs.mapM (fun r => if P r then some (g r) else none) =
      if ∀ r ∈ rs, P r then some (rs.map g) else none := by
  induction rs with
  | nil => rfl
  | cons r rs ih =>
    rw [List.mapM_cons, ih]
    by_cases hr : P r
    · by_cases hrs : ∀ r ∈ rs, P r
      · rw [if_pos hr, if_pos hrs, if_pos (List.forall_mem_cons.2 ⟨hr, hrs⟩)]
        rfl
      · rw [if_pos hr, if_neg hrs, if_neg fun h => hrs (List.forall_mem_cons.1 h).2]
        rfl
    · rw [if_neg hr, if_neg fun h => hr (List.forall_mem_cons.1 h).1]
      rfl

theorem putAll_append (db recs recs' : List (κ × α)) :
    putAll (putAll db recs) recs' = putAll db (recs ++ recs') := List.foldl_append.symm

/-- Distinct keys find their rows. -/
theorem find?_eq_some_of_nodup {ρ : Type} (key : ρ → κ) {rows : List ρ}
    (hkeys : (rows.map key).Nodup) {row : ρ} (hrow : row ∈ rows) :
    rows.find? (fun r => key r = key row) = some row := by
  induction rows with
  | nil => exact absurd hrow List.not_mem_nil
  | cons r rows ih =>
    rw [List.map_cons, List.nodup_cons] at hkeys
    rcases List.mem_cons.1 hrow with rfl | hmem
    · rw [List.find?_cons_of_pos (by simp)]
    · have hne : key r ≠ key row := fun heq => hkeys.1 (heq ▸ List.mem_map_of_mem hmem)
      rw [List.find?_cons_of_neg (by simpa using hne), ih hkeys.2 hmem]

/-- A fold seen through one part of the state. -/
theorem foldl_project {σ ρ β : Type} (f : σ → ρ → σ) (part : σ → β) (g : β → ρ → β) (p : ρ → Bool)
    (hyes : ∀ s r, p r = true → part (f s r) = g (part s) r)
    (hno : ∀ s r, p r = false → part (f s r) = part s) (rs : List ρ) (s : σ) :
    part (rs.foldl f s) = (rs.filter p).foldl g (part s) := by
  induction rs generalizing s with
  | nil => rfl
  | cons r rs ih =>
    rw [List.foldl_cons, ih]
    cases hp : p r with
    | true => rw [List.filter_cons_of_pos hp, List.foldl_cons, hyes s r hp]
    | false => rw [List.filter_cons_of_neg (by simp [hp]), hno s r hp]

end PQL
