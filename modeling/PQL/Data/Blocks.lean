import PQL.Lib.Heap

/-!
# The blocks of a trace

A trace points to the blocks of its names, of the header of its file and of its data.  `freeData2`
releases them before a trace is removed; `freeData` with `FALSE` keeps the names and releases the
data and what was made from it.
-/

namespace PQL

/-- A pointer: `NULL` or the start of a block. -/
abbrev Ptr := Option ℕ

inductive DataType where
  | SEGY_DATA
  | DR100_DATA
  | AH_DATA
  | NANO_DATA
  | SAC_DATA
  | MSEED_DATA
  | MSEED_MPLEX_DATA
  | RT130_DATA
  | RT125A_DATA
  | RT125_DATA
deriving DecidableEq, Repr

/-- The pointers of a trace; `excerpt` is set if it is an excerpt of its file.  The lists name the
blocks of a linked list with its data. -/
structure TraceInfo where
  fileType : DataType
  excerpt : Bool
  fileName : Ptr
  longFN : Ptr
  shortFN : Ptr
  descr1 : Ptr
  descr2 : Ptr
  fileHdr : Ptr
  data : Ptr
  dataFilt : List ℕ
  tFormData : Ptr
  tFormStr : Ptr
  gaps : Ptr
  overlaps : Ptr
  olapData : List ℕ
  picks : Ptr
  spectra : Ptr
deriving DecidableEq, Repr

namespace TraceInfo

variable (t : TraceInfo)

/-- The blocks that `freeData2` releases, in its order. -/
def blocks : List ℕ :=
  t.fileName.toList ++ t.shortFN.toList ++ t.descr1.toList ++ t.descr2.toList ++ t.data.toList ++
    t.fileHdr.toList ++ t.dataFilt ++ t.gaps.toList ++ t.overlaps.toList ++ t.picks.toList ++
    t.olapData ++ t.tFormData.toList ++ t.tFormStr.toList

/-- The blocks that `freeData` releases, in its order. -/
def dataBlocks : List ℕ :=
  t.data.toList ++ t.dataFilt ++ t.spectra.toList ++ t.gaps.toList ++ t.overlaps.toList ++
    t.olapData ++ t.tFormData.toList ++ t.tFormStr.toList

/-- The trace as `freeData` leaves it. -/
def withoutData : TraceInfo :=
  { t with
    data := none
    dataFilt := []
    tFormData := none
    tFormStr := none
    gaps := none
    overlaps := none
    olapData := []
    spectra := none }

/-- All blocks that the trace has to itself; `longFN` only points to the name of the file. -/
def held : List ℕ := t.blocks ++ t.spectra.toList

/-- Equality of lists up to order, as an equation of sums. -/
theorem perm_of_coe {bs cs : List ℕ} (h : (bs : Multiset ℕ) = cs) : bs.Perm cs :=
  Multiset.coe_eq_coe.1 h

theorem held_perm : t.held.Perm (t.dataBlocks ++ t.withoutData.held) := by
  apply perm_of_coe
  simp only [held, blocks, dataBlocks, withoutData, ← Multiset.coe_add, Option.toList_none,
    Multiset.coe_nil]
  abel

theorem held_perm_data (p : Ptr) :
    { t with data := p }.held.Perm (p.toList ++ { t with data := none }.held) := by
  apply perm_of_coe
  simp only [held, blocks, ← Multiset.coe_add, Option.toList_none, Multiset.coe_nil]
  abel

theorem held_perm_gaps (p : Ptr) :
    { t with gaps := p }.held.Perm (p.toList ++ { t with gaps := none }.held) := by
  apply perm_of_coe
  simp only [held, blocks, ← Multiset.coe_add, Option.toList_none, Multiset.coe_nil]
  abel

theorem held_perm_overlaps (p : Ptr) (bs : List ℕ) :
    { t with overlaps := p, olapData := t.olapData ++ bs }.held.Perm
      (bs ++ (p.toList ++ { t with overlaps := none }.held)) := by
  apply perm_of_coe
  simp only [held, blocks, ← Multiset.coe_add, Option.toList_none, Multiset.coe_nil]
  abel

end TraceInfo

/-- `freeData2`: the trace itself is cleared. -/
def freeData2 (h : Heap) (t : TraceInfo) : Option Heap := h.freeAll t.blocks

/-- `freeData` with `FALSE`. -/
def freeData (h : Heap) (t : TraceInfo) : Option (Heap × TraceInfo) :=
  (h.freeAll t.dataBlocks).map fun h => (h, t.withoutData)

theorem freeData2_of_owns {h : Heap} {t : TraceInfo} {rest : List ℕ}
    (howns : h.Owns (t.held ++ rest)) : ∃ h', freeData2 h t = some h' ∧ h'.Owns rest := by
  rw [TraceInfo.held, List.append_assoc] at howns
  obtain ⟨h', hfree, hrest⟩ := howns.freeAll
  exact ⟨h', hfree, hrest.sublist (List.sublist_append_right _ _)⟩

theorem freeData_of_owns {h : Heap} {t : TraceInfo} {rest : List ℕ}
    (howns : h.Owns (t.held ++ rest)) :
    ∃ h', freeData h t = some (h', t.withoutData) ∧ h'.Owns (t.withoutData.held ++ rest) := by
  have hperm := howns.perm (t.held_perm.append_right rest)
  rw [List.append_assoc] at hperm
  obtain ⟨h', hfree, hrest⟩ := hperm.freeAll
  exact ⟨h', by rw [freeData, hfree, Option.map_some], hrest⟩

end PQL
