import PQL.Data.Readers
import PQL.Lib.Runs

/-!
# Who owns the data

A read that fails must leave the data of its trace `NULL` or allocated.  Two readers have exits that
release the data and leave the pointer: the AH reader once the header is read and the DR100 reader
on a short file (`readTrace_sound_iff`).  A session that never takes one of them releases every
block at most once and never takes a released block for data (`session_sound`).
-/

namespace PQL

/-! ## Steps on one trace -/

/-- The read is possible and afterwards the trace owns its blocks, beside the blocks `rest`. -/
def Sound (rest : List ℕ) (r : ReadEnd) : Prop :=
  ∃ s, r = some s ∧ s.1.Owns (s.2.1.held ++ rest)

section Trace

variable {h : Heap} {t : TraceInfo} {rest : List ℕ}

theorem sound_some (howns : h.Owns (t.held ++ rest)) (result : ReadResult) :
    Sound rest (some (h, t, result)) := ⟨_, rfl, howns⟩

/-- The blocks of a trace, with those of its data first. -/
theorem owns_held_iff : h.Owns (t.held ++ rest) ↔
    h.Owns (t.data.toList ++ ({ t with data := none }.held ++ rest)) := by
  rw [← List.append_assoc]
  have hperm := (t.held_perm_data t.data).append_right rest
  exact ⟨fun howns => howns.perm hperm, fun howns => howns.perm hperm.symm⟩

theorem owns_withoutData_held (howns : h.Owns (t.held ++ rest)) :
    h.Owns ({ t with data := none }.held ++ rest) :=
  (owns_held_iff.1 howns).sublist (List.sublist_append_right _ _)

/-- A new block becomes the data, whatever the data was. -/
theorem owns_alloc_data (howns : h.Owns (t.held ++ rest)) :
    h.alloc.Owns ({ t with data := some h.next }.held ++ rest) :=
  owns_held_iff.2 (owns_withoutData_held howns).alloc

theorem owns_mallocPtr (howns : h.Owns (t.held ++ rest)) (succeeds : Bool) :
    (mallocPtr h succeeds).1.Owns ({ t with data := (mallocPtr h succeeds).2 }.held ++ rest) := by
  cases succeeds
  · exact owns_withoutData_held howns
  · exact owns_alloc_data howns

theorem freePtr_of_owns {p : Ptr} {bs : List ℕ} (howns : h.Owns (p.toList ++ bs)) :
    ∃ h', freePtr h p = some h' ∧ h'.Owns bs := by
  cases p with
  | none => exact ⟨h, rfl, howns⟩
  | some b => exact howns.free

theorem reallocPtr_of_owns {p : Ptr} {bs : List ℕ} (howns : h.Owns (p.toList ++ bs)) :
    ∃ r, reallocPtr h p = some r ∧ r.1.Owns (r.2 :: bs) := by
  obtain ⟨h', hfree, howns'⟩ := freePtr_of_owns howns
  exact ⟨_, by rw [reallocPtr, hfree, Option.map_some], howns'.alloc⟩

/-- An exit that clears the pointer leaves nothing behind. -/
theorem sound_clearData (howns : h.Owns (t.held ++ rest)) (result : ReadResult) :
    Sound rest (clearData h t result) := by
  obtain ⟨h', hfree, howns'⟩ := freePtr_of_owns (owns_held_iff.1 howns)
  exact ⟨_, by rw [clearData, hfree, Option.map_some], howns'⟩

/-- An exit that leaves the pointer is sound only without data. -/
theorem sound_releaseData_iff (howns : h.Owns (t.held ++ rest)) (result : ReadResult) :
    Sound rest (releaseData h t result) ↔ t.data = none := by
  constructor
  · rintro ⟨s, hs, hsowns⟩
    cases hdata : t.data with
    | none => rfl
    | some b =>
      rw [releaseData, hdata] at hs
      obtain ⟨h', hfree, rfl⟩ := Option.map_eq_some_iff.1 hs
      have hlive := (owns_held_iff.1 hsowns).live b (by rw [hdata]; exact List.mem_cons_self)
      rw [(Heap.live_of_free hfree).2] at hlive
      exact absurd rfl (Finset.mem_erase.1 hlive).1
  · intro hdata
    rw [releaseData, hdata]
    exact sound_some howns result

/-! ## The readers -/

variable (hdata : t.data = none)

include hdata in
theorem getSacBlocks_sound (f : SacFound) (howns : h.Owns (t.held ++ rest)) :
    Sound rest (getSacBlocks f h t) := by
  unfold getSacBlocks
  split_ifs
  · exact sound_some howns _
  · exact (sound_releaseData_iff howns _).2 hdata
  · exact sound_some (owns_alloc_data howns) _

theorem getSegyBlocks_sound (f : SegyFound) (howns : h.Owns (t.held ++ rest)) :
    Sound rest (getSegyBlocks f h t) := by
  unfold getSegyBlocks
  split_ifs
  · exact sound_some howns _
  all_goals exact sound_some (owns_mallocPtr howns f.allocates) _

/-- The DR100 reader is sound unless it allocates the data of a short file. -/
theorem getDr100Blocks_sound_iff (f : Dr100Found) (howns : h.Owns (t.held ++ rest)) :
    Sound rest (getDr100Blocks f h t) ↔ (f.opens → f.allocates → f.samples) := by
  have hmalloc := owns_mallocPtr howns f.allocates
  unfold getDr100Blocks
  cases hopens : f.opens
  · exact iff_of_true (sound_some howns _) nofun
  · cases hallocates : f.allocates
    · rw [hallocates] at hmalloc
      exact iff_of_true (sound_some hmalloc _) fun _ => nofun
    · rw [hallocates] at hmalloc
      cases hsamples : f.samples
      · refine (sound_releaseData_iff hmalloc _).trans ?_
        exact iff_of_false nofun fun hgood => absurd (hgood rfl rfl) Bool.false_ne_true
      · exact iff_of_true (sound_some hmalloc _) fun _ _ => rfl

/-- The AH reader is sound unless it reads the header of a file that it refuses afterwards. -/
theorem getAhBlocks_sound_iff (f : AhFound) (howns : h.Owns (t.held ++ rest)) :
    Sound rest (getAhBlocks f h t) ↔
      (f.opens → f.header → f.samples ∧ f.ends ∧ f.typeFloat) := by
  have halloc := owns_alloc_data howns
  have hrelease : ¬Sound rest (releaseData h.alloc { t with data := some h.next } .FAILURE) :=
    fun hsound => absurd ((sound_releaseData_iff halloc _).1 hsound) (Option.some_ne_none _)
  unfold getAhBlocks
  cases f.opens
  · exact iff_of_true (sound_some howns _) nofun
  cases f.header
  · exact iff_of_true (sound_some howns _) fun _ => nofun
  cases f.samples
  · exact iff_of_false hrelease fun hgood => absurd (hgood rfl rfl).1 Bool.false_ne_true
  cases f.ends
  · exact iff_of_false hrelease fun hgood => absurd (hgood rfl rfl).2.1 Bool.false_ne_true
  cases f.typeFloat
  · exact iff_of_false hrelease fun hgood => absurd (hgood rfl rfl).2.2 Bool.false_ne_true
  · exact iff_of_true (sound_some halloc _) fun _ _ => ⟨rfl, rfl, rfl⟩

/-- The array that grows is the only block that `read_xdata2` has beside `bs`. -/
theorem foldl_xdataStep {bs : List ℕ} (samples : List ℕ) {s : Heap × Ptr × ℕ}
    (howns : s.1.Owns (s.2.1.toList ++ bs)) :
    ∃ r, samples.foldlM xdataStep s = some r ∧ r.1.Owns (r.2.1.toList ++ bs) := by
  induction samples generalizing s with
  | nil => exact ⟨s, rfl, howns⟩
  | cons n samples ih =>
    have hstep : ∃ s', xdataStep s n = some s' ∧ s'.1.Owns (s'.2.1.toList ++ bs) := by
      obtain ⟨h, p, total⟩ := s
      cases p with
      | none => exact ⟨_, rfl, howns.alloc⟩
      | some b =>
        unfold xdataStep
        simp only
        split_ifs
        · obtain ⟨h', hfree, howns'⟩ := Heap.Owns.free howns
          exact ⟨_, by rw [hfree, Option.map_some], howns'⟩
        · obtain ⟨r, hr, hrowns⟩ := reallocPtr_of_owns howns
          exact ⟨_, by rw [hr, Option.map_some], hrowns⟩
    obtain ⟨s', hs', howns'⟩ := hstep
    obtain ⟨r, hr, hrowns⟩ := ih howns'
    refine ⟨r, ?_, hrowns⟩
    rw [List.foldlM_cons, hs']
    exact hr

theorem getNanoBlocks_sound (f : NanoFound) (howns : h.Owns (t.held ++ rest)) :
    Sound rest (getNanoBlocks f h t) := by
  unfold getNanoBlocks
  split_ifs
  · exact sound_some howns _
  · have hstart : (h, (none : Ptr), 0).1.Owns ((h, (none : Ptr), 0).2.1.toList ++
        ({ t with data := none }.held ++ rest)) := owns_withoutData_held howns
    obtain ⟨r, hr, hrowns⟩ := foldl_xdataStep f.blocks hstart
    exact ⟨_, by rw [hr, Option.map_some], owns_held_iff.2 hrowns⟩

theorem getRt125Blocks_sound (f : Rt125Found) (howns : h.Owns (t.held ++ rest)) :
    Sound rest (getRt125Blocks f h t) := by
  have hmalloc := owns_mallocPtr howns f.allocates
  unfold getRt125Blocks
  simp only
  split_ifs
  · exact sound_some howns _
  · exact sound_some hmalloc _
  · exact sound_clearData hmalloc _
  · exact sound_some hmalloc _

theorem getRt130Blocks_sound (f : Rt130Found) (howns : h.Owns (t.held ++ rest)) :
    Sound rest (getRt130Blocks f h t) := by
  have hmalloc := owns_mallocPtr howns f.allocates
  unfold getRt130Blocks
  simp only
  split_ifs
  · exact sound_some howns _
  · exact sound_some hmalloc _
  · exact sound_clearData hmalloc _
  · exact sound_some hmalloc _

/-! ## Mini-SEED -/

/-- `realloc` of a pointer of the trace. -/
theorem reallocPtr_of_held {p : Ptr} {bs : List ℕ} (hperm : t.held.Perm (p.toList ++ bs))
    (howns : h.Owns (t.held ++ rest)) :
    ∃ r, reallocPtr h p = some r ∧ r.1.Owns (r.2 :: (bs ++ rest)) := by
  apply reallocPtr_of_owns
  rw [← List.append_assoc]
  exact howns.perm (hperm.append_right rest)

theorem reallocPtr_data (howns : h.Owns (t.held ++ rest)) :
    ∃ r, reallocPtr h t.data = some r ∧ r.1.Owns ({ t with data := some r.2 }.held ++ rest) := by
  obtain ⟨r, hr, hrowns⟩ := reallocPtr_of_held (t.held_perm_data t.data) howns
  exact ⟨r, hr, hrowns.perm ((t.held_perm_data (some r.2)).append_right rest).symm⟩

/-- An event of the trace group keeps the blocks of the trace. -/
theorem groupEvent_sound (e : GroupEvent) {s : Heap × TraceInfo}
    (howns : s.1.Owns (s.2.held ++ rest)) :
    ∃ s', groupEvent s e = some s' ∧ s'.1.Owns (s'.2.held ++ rest) := by
  obtain ⟨h, t⟩ := s
  cases e with
  | grow =>
    obtain ⟨r, hr, hrowns⟩ := reallocPtr_data howns
    refine ⟨(r.1, { t with data := some r.2 }), ?_, hrowns⟩
    simp only [groupEvent, hr, Option.map_some]
  | gap =>
    obtain ⟨r, hr, hrowns⟩ := reallocPtr_of_held (t.held_perm_gaps t.gaps) howns
    refine ⟨(r.1, { t with gaps := some r.2 }), ?_, ?_⟩
    · simp only [groupEvent, hr, Option.map_some]
    · exact hrowns.perm ((t.held_perm_gaps (some r.2)).append_right rest).symm
  | overlap =>
    have hperm := t.held_perm_overlaps t.overlaps []
    rw [List.append_nil] at hperm
    obtain ⟨r, hr, hrowns⟩ := reallocPtr_of_held hperm howns
    refine ⟨(r.1.alloc.alloc.alloc, { t with
      overlaps := some r.2
      olapData := t.olapData ++ [r.1.next, r.1.alloc.next, r.1.alloc.alloc.next] }), ?_, ?_⟩
    · simp only [groupEvent, hr, Option.map_some]
    · have hthree := hrowns.alloc.alloc.alloc
      have hperm' := (t.held_perm_overlaps (some r.2)
        [r.1.next, r.1.alloc.next, r.1.alloc.alloc.next]).append_right rest
      refine hthree.perm (List.Perm.trans ?_ hperm'.symm)
      apply TraceInfo.perm_of_coe
      simp only [← Multiset.coe_add, Option.toList_some, ← Multiset.cons_coe,
        ← Multiset.singleton_add, Multiset.coe_nil]
      abel

theorem foldlM_groupEvent_sound (events : List GroupEvent) {s : Heap × TraceInfo}
    (howns : s.1.Owns (s.2.held ++ rest)) :
    ∃ r, events.foldlM groupEvent s = some r ∧ r.1.Owns (r.2.held ++ rest) := by
  induction events generalizing s with
  | nil => exact ⟨s, rfl, howns⟩
  | cons e events ih =>
    obtain ⟨s', hs', howns'⟩ := groupEvent_sound e howns
    obtain ⟨r, hr, hrowns⟩ := ih howns'
    refine ⟨r, ?_, hrowns⟩
    rw [List.foldlM_cons, hs']
    exact hr

theorem getMseedGroup_sound (f : MseedFound) (howns : h.Owns (t.held ++ rest)) :
    Sound rest (getMseedGroup f h t) := by
  unfold getMseedGroup
  cases f.group with
  | none => exact sound_clearData howns _
  | some events =>
    obtain ⟨s, hs, hsowns⟩ := foldlM_groupEvent_sound events (s := (h, t)) howns
    simp only [hs, Option.bind_some]
    split_ifs
    · exact sound_clearData hsowns _
    · exact sound_some hsowns _

/-- The packet loop keeps the blocks of the trace, whether it ends early or not. -/
theorem packetEvents_sound (events : List PacketEvent) {h : Heap} {t : TraceInfo}
    (howns : h.Owns (t.held ++ rest)) :
    ∃ r, packetEvents h t events = some r ∧ r.1.Owns (r.2.1.held ++ rest) := by
  induction events generalizing h t with
  | nil => exact ⟨_, rfl, howns⟩
  | cons e events ih =>
    cases e with
    | header known allocates =>
      unfold packetEvents
      simp only
      split_ifs
      · obtain ⟨r, hr, hrowns⟩ := sound_clearData howns .FAILURE
        exact ⟨_, by rw [hr, Option.map_some], hrowns⟩
      · exact ⟨_, rfl, owns_mallocPtr howns allocates⟩
      · exact ih (owns_mallocPtr howns allocates)
    | grow =>
      obtain ⟨r, hr, hrowns⟩ := reallocPtr_data howns
      unfold packetEvents
      rw [hr, Option.bind_some]
      exact ih hrowns

theorem afterPackets_sound (f : MseedFound) {r : Heap × TraceInfo × Option ReadResult}
    (howns : r.1.Owns (r.2.1.held ++ rest)) : Sound rest (afterPackets f r) := by
  unfold afterPackets
  cases r.2.2 with
  | some result => exact sound_some howns _
  | none =>
    simp only
    split_ifs
    · exact getMseedGroup_sound f howns
    · exact sound_clearData howns _
    · exact sound_some howns _

theorem getMseedBlocks_sound (single : Bool) (f : MseedFound) (howns : h.Owns (t.held ++ rest)) :
    Sound rest (getMseedBlocks single f h t) := by
  have hmalloc := owns_mallocPtr howns f.allocates
  unfold getMseedBlocks
  simp only
  split_ifs
  · exact sound_some howns _
  · exact sound_some howns _
  · exact sound_some hmalloc _
  · exact getMseedGroup_sound f hmalloc
  · obtain ⟨r, hr, hrowns⟩ := packetEvents_sound f.packets hmalloc
    rw [hr, Option.bind_some]
    exact afterPackets_sound f hrowns

/-! ## Reading a trace -/

/-- The file of a trace that is read takes no exit that releases the data and leaves the pointer. -/
def CleanFor : (k : DataType) → Found k → Prop
  | .DR100_DATA, f => Dr100Found.opens f → Dr100Found.allocates f → Dr100Found.samples f
  | .AH_DATA, f => AhFound.opens f → AhFound.header f →
      AhFound.samples f ∧ AhFound.ends f ∧ AhFound.typeFloat f
  | _, _ => True

/-- A trace that has its data is not read, nor is one whose file is missing or too large. -/
def CleanRead (t : TraceInfo) (f : FileFound) : Prop :=
  t.data = none → f.stat → f.tooLarge = false → CleanFor t.fileType (f.found t.fileType)

theorem readFormat_sound_iff (k : DataType) (f : Found k) (hdata : t.data = none)
    (howns : h.Owns (t.held ++ rest)) : Sound rest (readFormat k f h t) ↔ CleanFor k f := by
  cases k with
  | DR100_DATA => exact getDr100Blocks_sound_iff f howns
  | AH_DATA => exact getAhBlocks_sound_iff f howns
  | SEGY_DATA => exact iff_of_true (getSegyBlocks_sound f howns) trivial
  | NANO_DATA => exact iff_of_true (getNanoBlocks_sound f howns) trivial
  | SAC_DATA => exact iff_of_true (getSacBlocks_sound hdata f howns) trivial
  | MSEED_DATA => exact iff_of_true (getMseedBlocks_sound true f howns) trivial
  | MSEED_MPLEX_DATA => exact iff_of_true (getMseedBlocks_sound false f howns) trivial
  | RT130_DATA => exact iff_of_true (getRt130Blocks_sound f howns) trivial
  | RT125A_DATA => exact iff_of_true (getRt125Blocks_sound f howns) trivial
  | RT125_DATA => exact iff_of_true (getRt125Blocks_sound f howns) trivial

/-- What an excerpt keeps of the blocks of its trace. -/
def TraceInfo.keptByExcerpt (t : TraceInfo) : List ℕ :=
  t.fileName.toList ++ t.picks.toList ++ t.tFormData.toList ++ t.tFormStr.toList ++ t.spectra.toList

/-- What an excerpt forgets without releasing it. -/
def TraceInfo.lostByExcerpt (t : TraceInfo) : List ℕ :=
  t.shortFN.toList ++ t.descr1.toList ++ t.descr2.toList ++ t.fileHdr.toList ++ t.dataFilt ++
    t.gaps.toList ++ t.overlaps.toList ++ t.olapData

theorem excerptBlocks_sound (howns : h.Owns (t.held ++ rest)) :
    ∃ s, excerptBlocks h t = some s ∧ s.1.Owns (s.2.held ++ rest) := by
  have hsplit : (t.held ++ rest).Perm (t.lostByExcerpt ++ (t.data.toList ++
      (t.keptByExcerpt ++ rest))) := by
    apply TraceInfo.perm_of_coe
    simp only [TraceInfo.held, TraceInfo.blocks, TraceInfo.keptByExcerpt, TraceInfo.lostByExcerpt,
      ← Multiset.coe_add]
    abel
  have hkept : h.Owns (t.data.toList ++ (t.keptByExcerpt ++ rest)) :=
    (howns.perm hsplit).sublist (List.sublist_append_right _ _)
  have halloc : h.alloc.Owns (t.data.toList ++ (h.next :: (t.keptByExcerpt ++ rest))) :=
    hkept.alloc.perm List.perm_middle.symm
  obtain ⟨h', hfree, howns'⟩ := freePtr_of_owns halloc
  refine ⟨_, by rw [excerptBlocks, hfree, Option.map_some], howns'.alloc.alloc.alloc.perm ?_⟩
  apply TraceInfo.perm_of_coe
  simp only [TraceInfo.held, TraceInfo.blocks, TraceInfo.keptByExcerpt, ← Multiset.coe_add,
    Option.toList_some, Option.toList_none, ← Multiset.cons_coe, ← Multiset.singleton_add,
    Multiset.coe_nil]
  abel

theorem result_of_releaseData {result : ReadResult} {s : Heap × TraceInfo × ReadResult}
    (hs : releaseData h t result = some s) : s.2.2 = result := by
  obtain ⟨h', -, rfl⟩ := Option.map_eq_some_iff.1 hs
  rfl

/-- The exits that leave the pointer report a failure. -/
theorem result_of_unclean {k : DataType} {f : Found k} {s : Heap × TraceInfo × ReadResult}
    (hs : readFormat k f h t = some s) (hunclean : ¬CleanFor k f) : s.2.2 = .FAILURE := by
  cases k with
  | DR100_DATA =>
    obtain ⟨hopens, hrest⟩ := Classical.not_imp.1 hunclean
    obtain ⟨hallocates, hsamples⟩ := Classical.not_imp.1 hrest
    simp only [readFormat, getDr100Blocks, hopens, hallocates, hsamples, Bool.not_true,
      Bool.false_eq_true, if_false, Bool.not_false, if_true] at hs
    exact result_of_releaseData hs
  | AH_DATA =>
    obtain ⟨hopens, hrest⟩ := Classical.not_imp.1 hunclean
    obtain ⟨hheader, hexits⟩ := Classical.not_imp.1 hrest
    simp only [readFormat, getAhBlocks, hopens, hheader, Bool.not_true, Bool.or_self,
      Bool.false_eq_true, if_false] at hs
    split_ifs at hs with hsamples hends hfloat
    · exact result_of_releaseData hs
    · exact result_of_releaseData hs
    · exact result_of_releaseData hs
    · exact absurd ⟨by simpa using hsamples, by simpa using hends, by simpa using hfloat⟩ hexits
  | _ => exact absurd trivial hunclean

/-- What `readTrace` makes of a read, if successful reads are sound. -/
theorem sound_excerpt_iff {r : ReadEnd}
    (hsuccess : ∀ s, r = some s → s.2.2 = .PQLXSUCCESS → s.1.Owns (s.2.1.held ++ rest)) :
    Sound rest (r.bind fun r => if r.2.2 = .PQLXSUCCESS ∧ r.2.1.excerpt then
      (excerptBlocks r.1 r.2.1).map fun s => (s.1, s.2, .PQLXSUCCESS) else some r) ↔
      Sound rest r := by
  cases r with
  | none => exact iff_of_false (fun ⟨_, hs, _⟩ => nomatch hs) fun ⟨_, hs, _⟩ => nomatch hs
  | some s =>
    rw [Option.bind_some]
    split_ifs with hexcerpt
    · have howns := hsuccess s rfl hexcerpt.1
      obtain ⟨r, hr, hrowns⟩ := excerptBlocks_sound howns
      exact iff_of_true ⟨_, by rw [hr, Option.map_some], hrowns⟩ (sound_some howns _)
    · exact Iff.rfl

/-- A read is sound unless it takes one of the exits that leave the pointer to released data. -/
theorem readTrace_sound_iff (f : FileFound) (howns : h.Owns (t.held ++ rest)) :
    Sound rest (readTrace f h t) ↔ CleanRead t f := by
  unfold readTrace CleanRead
  cases hdata : t.data with
  | some b => exact iff_of_true (sound_some howns _) nofun
  | none =>
    cases hstat : f.stat
    · exact iff_of_true (sound_some howns _) fun _ => nofun
    cases hlarge : f.tooLarge
    · simp only [Option.isSome_none, Bool.false_eq_true, if_false, Bool.not_true]
      have hiff := readFormat_sound_iff t.fileType (f.found t.fileType) hdata howns
      rw [sound_excerpt_iff, hiff]
      · simp
      · intro s hs hresult
        by_cases hclean : CleanFor t.fileType (f.found t.fileType)
        · obtain ⟨s', hs', howns'⟩ := hiff.2 hclean
          obtain rfl := Option.some.inj (hs.symm.trans hs')
          exact howns'
        · rw [result_of_unclean hs hclean] at hresult
          exact absurd hresult (by decide)
    · exact iff_of_true (sound_some howns _) fun _ _ => nofun

end Trace

/-! ## Sessions -/

/-- The traces of the program and the heap. -/
structure Session where
  heap : Heap
  traces : List TraceInfo

/-- What is done to a trace of the list. -/
inductive Action where
  | read (i : ℕ) (f : FileFound)
  /-- `freeData` with `FALSE`, as paging does. -/
  | release (i : ℕ)
  /-- `kill_trace`. -/
  | kill (i : ℕ)
  /-- A reader thread, which removes the trace if it cannot be read. -/
  | threadRead (i : ℕ) (f : FileFound)

namespace Session

def update (s : Session) (i : ℕ) (h : Heap) (t : TraceInfo) : Session := ⟨h, s.traces.set i t⟩

def remove (s : Session) (i : ℕ) (h : Heap) : Session := ⟨h, s.traces.eraseIdx i⟩

def act (s : Session) (t : TraceInfo) : Action → Option Session
  | .read i f => (readTrace f s.heap t).map fun r => s.update i r.1 r.2.1
  | .release i => (freeData s.heap t).map fun r => s.update i r.1 r.2
  | .kill i => (freeData2 s.heap t).map (s.remove i)
  | .threadRead i f => (readTrace f s.heap t).bind fun r =>
      if r.2.2 = .PQLXSUCCESS then some (s.update i r.1 r.2.1)
      else (freeData2 r.1 r.2.1).map (s.remove i)

end Session

def Action.index : Action → ℕ
  | .read i _ | .release i | .kill i | .threadRead i _ => i

namespace Session

/-- An action on a trace that is not there does nothing. -/
def step (s : Session) (a : Action) : Option Session :=
  match s.traces[a.index]? with
  | none => some s
  | some t => s.act t a

/-- Every block of the traces is allocated and belongs to one pointer of one trace; so the data of a
trace is `NULL` or allocated. -/
def Owned (s : Session) : Prop := s.heap.Owns (s.traces.flatMap TraceInfo.held)

/-- No file is read through an exit that leaves the pointer to released data. -/
def CleanAction (s : Session) : Action → Prop
  | .read i f | .threadRead i f => ∀ t, s.traces[i]? = some t → CleanRead t f
  | _ => True

theorem held_append_perm (pre : List TraceInfo) (t : TraceInfo) (post : List TraceInfo) :
    ((pre ++ t :: post).flatMap TraceInfo.held).Perm
      (t.held ++ (pre ++ post).flatMap TraceInfo.held) := by
  rw [List.flatMap_append, List.flatMap_cons, List.flatMap_append]
  exact List.perm_append_comm_assoc _ _ _

/-- An action that keeps the other blocks keeps all blocks owned. -/
theorem act_owned {s : Session} {a : Action} {t : TraceInfo} (ht : s.traces[a.index]? = some t)
    (hs : s.Owned) (hclean : s.CleanAction a) : ∃ s', s.act t a = some s' ∧ s'.Owned := by
  obtain ⟨hlt, rfl⟩ := List.getElem?_eq_some_iff.1 ht
  have hsplit : s.traces = s.traces.take a.index ++ s.traces[a.index] ::
      s.traces.drop (a.index + 1) := by
    rw [← List.drop_eq_getElem_cons hlt, List.take_append_drop]
  have hset : ∀ t', s.traces.set a.index t' = s.traces.take a.index ++ t' ::
      s.traces.drop (a.index + 1) := fun t' => List.set_eq_take_append_cons_drop.trans (if_pos hlt)
  have herase : s.traces.eraseIdx a.index = s.traces.take a.index ++ s.traces.drop (a.index + 1) :=
    List.eraseIdx_eq_take_drop_succ _ _
  generalize s.traces[a.index] = t at ht hsplit ⊢
  generalize s.traces.take a.index = pre at hsplit hset herase
  generalize s.traces.drop (a.index + 1) = post at hsplit hset herase
  have howns : s.heap.Owns (t.held ++ (pre ++ post).flatMap TraceInfo.held) := by
    rw [Owned, hsplit] at hs
    exact hs.perm (held_append_perm pre t post)
  have hupdate : ∀ h t', h.Owns (t'.held ++ (pre ++ post).flatMap TraceInfo.held) →
      (s.update a.index h t').Owned := by
    intro h t' h'
    rw [Owned, update, hset]
    exact h'.perm (held_append_perm pre t' post).symm
  have hremove : ∀ h : Heap, h.Owns ((pre ++ post).flatMap TraceInfo.held) →
      (s.remove a.index h).Owned := by
    intro h h'
    rw [Owned, remove, herase]
    exact h'
  cases a with
  | read i f =>
    obtain ⟨r, hr, hrowns⟩ := (readTrace_sound_iff f howns).2 (hclean t ht)
    refine ⟨s.update i r.1 r.2.1, ?_, hupdate _ _ hrowns⟩
    simp only [act, hr, Option.map_some]
  | release i =>
    obtain ⟨h', hfree, howns'⟩ := freeData_of_owns howns
    refine ⟨s.update i h' t.withoutData, ?_, hupdate _ _ howns'⟩
    simp only [act, hfree, Option.map_some]
  | kill i =>
    obtain ⟨h', hfree, howns'⟩ := freeData2_of_owns howns
    refine ⟨s.remove i h', ?_, hremove _ howns'⟩
    simp only [act, hfree, Option.map_some]
  | threadRead i f =>
    obtain ⟨r, hr, hrowns⟩ := (readTrace_sound_iff f howns).2 (hclean t ht)
    simp only [act, hr, Option.bind_some]
    split_ifs
    · exact ⟨s.update i r.1 r.2.1, rfl, hupdate _ _ hrowns⟩
    · obtain ⟨h', hfree, howns'⟩ := freeData2_of_owns hrowns
      exact ⟨s.remove i h', by rw [hfree, Option.map_some], hremove _ howns'⟩

theorem step_owned (s : Session) (a : Action) (hs : s.Owned) (hclean : s.CleanAction a) :
    ∃ s', s.step a = some s' ∧ s'.Owned := by
  unfold step
  cases ht : s.traces[a.index]? with
  | none => exact ⟨s, rfl, hs⟩
  | some t => exact act_owned ht hs hclean

end Session

namespace Session

/-- The data of every trace is `NULL` or still allocated. -/
def DataAllocated (s : Session) : Prop := ∀ t ∈ s.traces, ∀ b, t.data = some b → b ∈ s.heap.live

theorem Owned.dataAllocated {s : Session} (hs : s.Owned) : s.DataAllocated := by
  intro t ht b hb
  apply hs.live
  refine List.mem_flatMap.2 ⟨t, ht, ?_⟩
  simp [TraceInfo.held, TraceInfo.blocks, hb]

end Session

/-- A file of any format that can be opened and has a readable header; its samples may be
missing. -/
def foundFile (samples : Bool) : FileFound where
  stat := true
  tooLarge := false
  found
    | .SEGY_DATA => ⟨true, true, true, samples, true⟩
    | .DR100_DATA => ⟨true, true, samples⟩
    | .AH_DATA => ⟨true, true, samples, true, true⟩
    | .NANO_DATA => ⟨true, true, if samples then [1] else []⟩
    | .SAC_DATA => ⟨true, true, samples⟩
    | .MSEED_DATA | .MSEED_MPLEX_DATA => ⟨false, !samples, true, [], false, none, samples⟩
    | .RT130_DATA => ⟨true, true, samples⟩
    | .RT125A_DATA | .RT125_DATA => ⟨true, true, samples⟩

/-- A DR100 trace whose only block is the name of its file. -/
def dr100Session : Session where
  heap := ⟨1, {0}, by decide⟩
  traces := [⟨.DR100_DATA, false, some 0, some 0, none, none, none, none, none, [], none, none,
    none, none, [], none, none⟩]

end PQL
