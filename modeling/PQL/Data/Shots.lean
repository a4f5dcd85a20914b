import PQL.Data.Ownership

/-!
# Cutting shots

With a list of shot times `readHdr_2` replaces a trace by its excerpts.  `cutTrace` copies the whole
structure for each shot and then gives the copy a file name of its own and clears some pointers;
`longFN` and `fileHdr` are not among them.  So every excerpt points to released blocks
(`readHdr2_shots_iff`); what follows goes well for the formats that have no file header, and is
undefined for the others (`readHdr2_later_iff`).
-/

namespace PQL

/-! ## The cut -/

/-- A trace with the times of its header. -/
structure TimedTrace (α : Type) where
  info : TraceInfo
  epochs : α
  length : α

/-- The shots of the settings. -/
structure ShotList (α : Type) where
  shotTimes : List α
  shotLength : α

/-- `g_strdup`. -/
def gStrdup (h : Heap) : Ptr → Heap × Ptr
  | none => (h, none)
  | some _ => (h.alloc, some h.next)

section Cut

variable {α : Type} [LinearOrder α] [Add α] [Zero α]

/-- The excerpt of `trc` for a shot, with a copy of the file name. -/
def cutTrc (trc : TimedTrace α) (shotLength shot : α) (fileName : Ptr) : TimedTrace α where
  info := { trc.info with
    excerpt := shot ≠ 0 ∧ shotLength ≠ 0
    data := none
    fileName
    shortFN := none
    descr1 := none
    descr2 := none }
  epochs := shot
  length := shotLength

/-- The shot begins and ends within the trace. -/
def Qualifies (trc : TimedTrace α) (shotLength shot : α) : Prop :=
  trc.epochs ≤ shot ∧ shot + shotLength ≤ trc.epochs + trc.length

instance (trc : TimedTrace α) (shotLength shot : α) : Decidable (Qualifies trc shotLength shot) :=
  inferInstanceAs (Decidable (_ ∧ _))

/-- What `cutTrace` does for one shot. -/
def cutShot (trc : TimedTrace α) (shotLength shot : α) (h : Heap) : Heap × List (TimedTrace α) :=
  if Qualifies trc shotLength shot then
    let name := gStrdup h trc.info.fileName
    (name.1, [cutTrc trc shotLength shot name.2])
  else (h, [])

/-- `cutTrace`: the shots after the first one that is later than the trace are not looked at. -/
def cutTrace (trc : TimedTrace α) (shotLength : α) : Heap → List α → Heap × List (TimedTrace α)
  | h, [] => (h, [])
  | h, shot :: shots =>
    let cut := cutShot trc shotLength shot h
    if trc.epochs + trc.length < shot then cut
    else
      let rest := cutTrace trc shotLength cut.1 shots
      (rest.1, cut.2 ++ rest.2)

/-- What `readHdr_2` does with a trace; the times of `trc` are those after the read. -/
def readHdr2 (f : FileFound) (shots : ShotList α) (h : Heap) (trc : TimedTrace α) :
    Option (Heap × List (TimedTrace α)) :=
  if shots.shotTimes = [] then some (h, [trc])
  else
    (readTrace f h trc.info).bind fun r =>
      if r.2.2 ≠ .PQLXSUCCESS then (freeData2 r.1 r.2.1).map fun h => (h, [])
      else
        (freeData r.1 r.2.1).bind fun s =>
          let cut := cutTrace { trc with info := s.2 } shots.shotLength s.1 shots.shotTimes
          (freeData2 cut.1 s.2).map fun h => (h, cut.2)

/-- A shot that lies within the trace comes before all that are later than the trace. -/
def Cuts (trc : TimedTrace α) (shots : ShotList α) : Prop :=
  ∃ before shot after, shots.shotTimes = before ++ shot :: after ∧
    (∀ s ∈ before, s ≤ trc.epochs + trc.length) ∧ Qualifies trc shots.shotLength shot

end Cut

/-! ## What follows -/

/-- The criteria that compare fields of the file headers. -/
inductive HeaderSort where
  | AHSORT
  | SEGYSORT
  | SACSORT
deriving DecidableEq, Repr

/-- `VALIDFILE`. -/
def validFile : DataType → HeaderSort → Bool
  | .AH_DATA, .AHSORT | .SEGY_DATA, .SEGYSORT | .SAC_DATA, .SACSORT => true
  | _, _ => false

/-- The file header that a comparison reads. -/
def baseAddress (t : TraceInfo) (selected : HeaderSort) : Ptr :=
  if validFile t.fileType selected then t.fileHdr else none

/-- A read, a release or a removal, or a comparison of two traces in a sort. -/
inductive LaterStep where
  | act (a : Action)
  | listSort (selected : HeaderSort) (i j : ℕ)

namespace Session

/-- The comparison of two traces: it reads the headers if both are there. -/
def compare (s : Session) (selected : HeaderSort) (t u : TraceInfo) : Option Session :=
  match baseAddress t selected, baseAddress u selected with
  | some b, some c => if b ∈ s.heap.live ∧ c ∈ s.heap.live then some s else none
  | _, _ => some s

def laterStep (s : Session) : LaterStep → Option Session
  | .act a => s.step a
  | .listSort selected i j =>
    match s.traces[i]?, s.traces[j]? with
    | some t, some u => s.compare selected t u
    | _, _ => some s

/-- The step reads no file through an exit that leaves the pointer to released data. -/
def CleanLater (s : Session) : LaterStep → Prop
  | .act a => s.CleanAction a
  | .listSort _ _ _ => True

end Session

/-- The pointers of a trace. -/
def TraceInfo.pointers (t : TraceInfo) : List ℕ := t.held ++ t.longFN.toList

/-- No excerpt points to a released block, no two excerpts share a block that `freeData2` releases,
and whatever follows releases and reads allocated blocks only. -/
structure CutSound (h : Heap) (excerpts : List TraceInfo) : Prop where
  pointers : ∀ e ∈ excerpts, ∀ b ∈ e.pointers, b ∈ h.live
  unshared : excerpts.Pairwise fun e e' => List.Disjoint e.blocks e'.blocks
  later : ∀ steps : List LaterStep, ∃ s, steps.foldlM Session.laterStep ⟨h, excerpts⟩ = some s

/-- A trace as it is loaded, beside the blocks `rest` of other traces. -/
structure Loaded (h : Heap) (t : TraceInfo) (rest : List ℕ) : Prop where
  owns : h.Owns (t.held ++ rest)
  fileName : t.fileName.isSome
  longFN : t.longFN = t.fileName
  whole : t.excerpt = false
  picks : t.picks = none
  fileHdr : t.fileHdr.isSome ↔ t.fileType ∈ [.AH_DATA, .SEGY_DATA, .SAC_DATA]

/-- The read of a trace succeeds. -/
def Reads (f : FileFound) (h : Heap) (t : TraceInfo) : Prop :=
  ∃ r, readTrace f h t = some r ∧ r.2.2 = .PQLXSUCCESS

/-! ## What a read keeps -/

/-- The read leaves the pointers that `freeData` keeps. -/
def Keeps (t : TraceInfo) (r : ReadEnd) : Prop :=
  ∀ s, r = some s → s.2.1.withoutData = t.withoutData

section Keep

variable {h : Heap} {t : TraceInfo}

theorem keeps_some {t' : TraceInfo} (hkeep : t'.withoutData = t.withoutData)
    (result : ReadResult) : Keeps t (some (h, t', result)) := by
  rintro s ⟨⟩
  exact hkeep

theorem Keeps.map {β : Type} {o : Option β} {g : β → Heap × TraceInfo × ReadResult}
    (hkeep : ∀ x, (g x).2.1.withoutData = t.withoutData) : Keeps t (o.map g) := by
  intro s hs
  obtain ⟨x, -, rfl⟩ := Option.map_eq_some_iff.1 hs
  exact hkeep x

theorem keeps_releaseData {t' : TraceInfo} (hkeep : t'.withoutData = t.withoutData)
    (result : ReadResult) : Keeps t (releaseData h t' result) := Keeps.map fun _ => hkeep

theorem keeps_clearData {t' : TraceInfo} (hkeep : t'.withoutData = t.withoutData)
    (result : ReadResult) : Keeps t (clearData h t' result) := Keeps.map fun _ => hkeep

theorem withoutData_groupEvent {e : GroupEvent} {s s' : Heap × TraceInfo}
    (hs : groupEvent s e = some s') : s'.2.withoutData = s.2.withoutData := by
  cases e <;>
  · obtain ⟨r, -, rfl⟩ := Option.map_eq_some_iff.1 hs
    rfl

theorem withoutData_groupEvents {events : List GroupEvent} {s s' : Heap × TraceInfo}
    (hs : events.foldlM groupEvent s = some s') : s'.2.withoutData = s.2.withoutData := by
  induction events generalizing s with
  | nil =>
    obtain rfl := Option.some.inj hs
    rfl
  | cons e events ih =>
    rw [List.foldlM_cons] at hs
    obtain ⟨s₁, hs₁, hrest⟩ := Option.bind_eq_some_iff.1 hs
    rw [ih hrest, withoutData_groupEvent hs₁]

theorem keeps_getMseedGroup (f : MseedFound) {t' : TraceInfo}
    (hkeep : t'.withoutData = t.withoutData) : Keeps t (getMseedGroup f h t') := by
  unfold getMseedGroup
  cases f.group with
  | none => exact keeps_clearData hkeep _
  | some events =>
    intro s hs
    obtain ⟨r, hr, hrest⟩ := Option.bind_eq_some_iff.1 hs
    have hr' : r.2.withoutData = t.withoutData := (withoutData_groupEvents hr).trans hkeep
    split_ifs at hrest
    · exact keeps_clearData hr' _ s hrest
    · exact keeps_some hr' _ s hrest

theorem withoutData_packetEvents {events : List PacketEvent} {h : Heap} {t : TraceInfo}
    {r : Heap × TraceInfo × Option ReadResult} (hr : packetEvents h t events = some r) :
    r.2.1.withoutData = t.withoutData := by
  induction events generalizing h t with
  | nil =>
    obtain rfl := Option.some.inj hr
    rfl
  | cons e events ih =>
    cases e with
    | header known allocates =>
      unfold packetEvents at hr
      simp only at hr
      split_ifs at hr
      · obtain ⟨s, hs, rfl⟩ := Option.map_eq_some_iff.1 hr
        exact keeps_clearData rfl _ s hs
      · obtain rfl := Option.some.inj hr
        rfl
      · exact (ih hr).trans rfl
    | grow =>
      unfold packetEvents at hr
      obtain ⟨s, -, hs⟩ := Option.bind_eq_some_iff.1 hr
      exact (ih hs).trans rfl

theorem keeps_afterPackets (f : MseedFound) {r : Heap × TraceInfo × Option ReadResult}
    (hkeep : r.2.1.withoutData = t.withoutData) : Keeps t (afterPackets f r) := by
  unfold afterPackets
  cases r.2.2 with
  | some result => exact keeps_some hkeep _
  | none =>
    simp only
    split_ifs
    · exact keeps_getMseedGroup f hkeep
    · exact keeps_clearData hkeep _
    · exact keeps_some hkeep _

theorem keeps_getMseedBlocks (single : Bool) (f : MseedFound) :
    Keeps t (getMseedBlocks single f h t) := by
  unfold getMseedBlocks
  simp only
  split_ifs
  · exact keeps_some rfl _
  · exact keeps_some rfl _
  · exact keeps_some rfl _
  · exact keeps_getMseedGroup f rfl
  · intro s hs
    obtain ⟨r, hr, hrest⟩ := Option.bind_eq_some_iff.1 hs
    exact keeps_afterPackets f (withoutData_packetEvents hr) s hrest

theorem keeps_readFormat (k : DataType) (f : Found k) : Keeps t (readFormat k f h t) := by
  cases k with
  | MSEED_DATA => exact keeps_getMseedBlocks true f
  | MSEED_MPLEX_DATA => exact keeps_getMseedBlocks false f
  | NANO_DATA =>
    simp only [readFormat, getNanoBlocks]
    split_ifs
    · exact keeps_some rfl _
    · exact Keeps.map fun _ => rfl
  | _ =>
    simp only [readFormat, getSacBlocks, getSegyBlocks, getDr100Blocks, getAhBlocks,
      getRt125Blocks, getRt130Blocks]
    split_ifs
    all_goals first
      | exact keeps_some rfl _
      | exact keeps_releaseData rfl _
      | exact keeps_clearData rfl _

/-- A read of a trace that is no excerpt. -/
theorem keeps_readTrace (f : FileFound) (hwhole : t.excerpt = false) :
    Keeps t (readTrace f h t) := by
  unfold readTrace
  split_ifs
  · exact keeps_some rfl _
  · exact keeps_some rfl _
  · exact keeps_some rfl _
  · intro s hs
    obtain ⟨r, hr, hrest⟩ := Option.bind_eq_some_iff.1 hs
    have hr' := keeps_readFormat _ _ r hr
    have hexcerpt : r.2.1.excerpt = t.excerpt := by
      simpa [TraceInfo.withoutData] using congrArg TraceInfo.excerpt hr'
    rw [if_neg] at hrest
    · exact keeps_some hr' _ s hrest
    · rw [hexcerpt, hwhole]
      exact fun h => absurd h.2 Bool.false_ne_true

/-- A successful read is sound: the exits that leave the pointer report a failure. -/
theorem owns_of_reads {rest : List ℕ} {f : FileFound} (howns : h.Owns (t.held ++ rest))
    {r : Heap × TraceInfo × ReadResult} (hr : readTrace f h t = some r)
    (hresult : r.2.2 = .PQLXSUCCESS) : r.1.Owns (r.2.1.held ++ rest) := by
  have hsound : Sound rest (readTrace f h t) := by
    apply (readTrace_sound_iff f howns).2
    intro hdata hstat hlarge
    by_contra hunclean
    simp only [readTrace, hdata, hstat, hlarge, Option.isSome_none, Bool.false_eq_true, if_false,
      Bool.not_true] at hr
    obtain ⟨s, hs, hrest⟩ := Option.bind_eq_some_iff.1 hr
    have hfailure := result_of_unclean hs hunclean
    rw [if_neg (by simp [hfailure])] at hrest
    obtain rfl := Option.some.inj hrest
    simp [hfailure] at hresult
  obtain ⟨s, hs, hsowns⟩ := hsound
  obtain rfl := Option.some.inj (hr.symm.trans hs)
  exact hsowns

end Keep

/-! ## What a cut allocates -/

section Cut

variable {α : Type} [LinearOrder α] [Add α] [Zero α] {trc : TimedTrace α} {shotLength : α}
    {h : Heap}

theorem gStrdup_owns {bs : List ℕ} (howns : h.Owns bs) (p : Ptr) :
    (gStrdup h p).1.Owns ((gStrdup h p).2.toList ++ bs) := by
  cases p with
  | none => exact howns
  | some b => exact howns.alloc

/-- An excerpt that has only its file name to itself. -/
theorem cutShot_owns
    (hheld : ∀ shot name, (cutTrc trc shotLength shot name).info.held = name.toList) (shot : α)
    {bs : List ℕ} (howns : h.Owns bs) :
    (cutShot trc shotLength shot h).1.Owns
      ((cutShot trc shotLength shot h).2.flatMap (·.info.held) ++ bs) := by
  unfold cutShot
  split_ifs
  · simp only [List.flatMap_cons, List.flatMap_nil, List.append_nil, hheld]
    exact gStrdup_owns howns _
  · exact howns

theorem cutTrace_owns
    (hheld : ∀ shot name, (cutTrc trc shotLength shot name).info.held = name.toList)
    (shots : List α) {bs : List ℕ} (howns : h.Owns bs) :
    (cutTrace trc shotLength h shots).1.Owns
      ((cutTrace trc shotLength h shots).2.flatMap (·.info.held) ++ bs) := by
  induction shots generalizing h bs with
  | nil => exact howns
  | cons shot shots ih =>
    have hcut := cutShot_owns hheld shot howns
    unfold cutTrace
    simp only
    split_ifs
    · exact hcut
    · rw [List.flatMap_append, List.append_assoc]
      exact (ih hcut).perm (List.perm_append_comm_assoc _ _ _)

theorem cutShot_keeps (trc : TimedTrace α) (shotLength shot : α) {bs : List ℕ} (howns : h.Owns bs) :
    (cutShot trc shotLength shot h).1.Owns bs := by
  unfold cutShot
  split_ifs
  · exact (gStrdup_owns howns _).sublist (List.sublist_append_right _ _)
  · exact howns

theorem cutTrace_keeps (trc : TimedTrace α) (shotLength : α) (shots : List α) {bs : List ℕ}
    (howns : h.Owns bs) :
    (cutTrace trc shotLength h shots).1.Owns bs := by
  induction shots generalizing h with
  | nil => exact howns
  | cons shot shots ih =>
    have hcut := cutShot_keeps trc shotLength shot howns
    unfold cutTrace
    simp only
    split_ifs
    · exact hcut
    · exact ih hcut

theorem mem_cutTrace {shots : List α} {e : TimedTrace α}
    (he : e ∈ (cutTrace trc shotLength h shots).2) :
    ∃ shot name, e = cutTrc trc shotLength shot name := by
  induction shots generalizing h with
  | nil => exact absurd he List.not_mem_nil
  | cons shot shots ih =>
    have hcut : e ∈ (cutShot trc shotLength shot h).2 →
        ∃ shot name, e = cutTrc trc shotLength shot name := by
      intro he
      unfold cutShot at he
      split_ifs at he
      · exact ⟨shot, _, List.mem_singleton.1 he⟩
      · exact absurd he List.not_mem_nil
    unfold cutTrace at he
    simp only at he
    split_ifs at he
    · exact hcut he
    · exact (List.mem_append.1 he).elim hcut ih

omit [Zero α] in
theorem cuts_cons (shot : α) (shots : List α) :
    Cuts trc ⟨shot :: shots, shotLength⟩ ↔ Qualifies trc shotLength shot ∨
      shot ≤ trc.epochs + trc.length ∧ Cuts trc ⟨shots, shotLength⟩ := by
  constructor
  · rintro ⟨_ | ⟨s, before⟩, shot', after, hsplit, hbefore, hqualifies⟩
    · obtain ⟨rfl, rfl⟩ := List.cons.inj hsplit
      exact .inl hqualifies
    · obtain ⟨rfl, hrest⟩ := List.cons.inj hsplit
      exact .inr ⟨hbefore _ List.mem_cons_self, before, shot', after, hrest,
        fun s hs => hbefore s (List.mem_cons_of_mem _ hs), hqualifies⟩
  · rintro (hqualifies | ⟨hle, before, shot', after, hrest, hbefore, hqualifies⟩)
    · exact ⟨[], shot, shots, rfl, fun _ hs => absurd hs List.not_mem_nil, hqualifies⟩
    · refine ⟨shot :: before, shot', after, congrArg (shot :: ·) hrest, fun s hs => ?_, hqualifies⟩
      rcases List.mem_cons.1 hs with rfl | hs
      · exact hle
      · exact hbefore s hs

theorem cutTrace_eq_nil_iff (shots : List α) :
    (cutTrace trc shotLength h shots).2 = [] ↔ ¬Cuts trc ⟨shots, shotLength⟩ := by
  induction shots generalizing h with
  | nil =>
    refine iff_of_true rfl ?_
    rintro ⟨before, shot, after, hsplit, -⟩
    simp at hsplit
  | cons shot shots ih =>
    have hcut : (cutShot trc shotLength shot h).2 = [] ↔ ¬Qualifies trc shotLength shot := by
      unfold cutShot
      split_ifs with hqualifies
      · simp [hqualifies]
      · simp [hqualifies]
    rw [cuts_cons]
    unfold cutTrace
    simp only
    split_ifs with hlate
    · rw [hcut]
      simp [not_le.2 hlate]
    · rw [List.append_eq_nil_iff, hcut, ih]
      simp [not_lt.1 hlate]

end Cut

/-! ## After the cut -/

section After

variable {α : Type} [LinearOrder α] [Add α] [Zero α] {h : Heap} {trc : TimedTrace α}
  {shots : ShotList α} {f : FileFound} {rest : List ℕ}

/-- The excerpts of a loaded trace, cut from the trace as `freeData` leaves it. -/
def excerptsOf (trc : TimedTrace α) (shots : ShotList α) (h : Heap) :
    Heap × List (TimedTrace α) :=
  cutTrace { trc with info := trc.info.withoutData } shots.shotLength h shots.shotTimes

theorem readHdr2_eq (hload : Loaded h trc.info rest) (hread : Reads f h trc.info)
    (hshots : shots.shotTimes ≠ []) :
    ∃ h₁ h₂, h₁.Owns (trc.info.withoutData.held ++ rest) ∧
      freeData2 (excerptsOf trc shots h₁).1 trc.info.withoutData = some h₂ ∧
      readHdr2 f shots h trc = some (h₂, (excerptsOf trc shots h₁).2) := by
  obtain ⟨r, hr, hresult⟩ := hread
  have hkeep := keeps_readTrace f hload.whole r hr
  obtain ⟨h₁, hfree, h₁owns⟩ := freeData_of_owns (owns_of_reads hload.owns hr hresult)
  rw [hkeep] at hfree h₁owns
  obtain ⟨h₂, hfree₂, -⟩ := freeData2_of_owns (cutTrace_keeps
    { trc with info := trc.info.withoutData } shots.shotLength shots.shotTimes h₁owns)
  refine ⟨h₁, h₂, h₁owns, hfree₂, ?_⟩
  rw [readHdr2, if_neg hshots, hr, Option.bind_some, if_neg (not_not.2 hresult), hfree,
    Option.bind_some]
  simp only [hfree₂, Option.map_some]
  rfl

/-- What an excerpt has from the trace. -/
theorem mem_excerptsOf {h₁ : Heap} {e : TimedTrace α} (he : e ∈ (excerptsOf trc shots h₁).2) :
    e.info.longFN = trc.info.longFN ∧ e.info.fileHdr = trc.info.fileHdr := by
  obtain ⟨shot, name, rfl⟩ := mem_cutTrace he
  exact ⟨rfl, rfl⟩

theorem excerptsOf_eq_nil_iff (h₁ : Heap) :
    (excerptsOf trc shots h₁).2 = [] ↔ ¬Cuts trc shots := cutTrace_eq_nil_iff _

/-- What the trace had to itself is released. -/
theorem not_live_of_freeData2 {h₁ h₂ : Heap} {t : TraceInfo} (hfree : freeData2 h₁ t = some h₂)
    {b : ℕ} (hb : b ∈ t.blocks) : b ∉ h₂.live := by
  rw [Heap.mem_live_of_freeAll hfree]
  exact fun h => h.2 hb

omit [LinearOrder α] [Add α] [Zero α] in
/-- The name that an excerpt points to is released with the trace. -/
theorem longFN_released (hload : Loaded h trc.info rest) {h₁ h₂ : Heap} {e : TimedTrace α}
    (hfree : freeData2 h₁ trc.info.withoutData = some h₂)
    (he : e.info.longFN = trc.info.longFN) : ∃ b ∈ e.info.pointers, b ∉ h₂.live := by
  obtain ⟨b, hb⟩ := Option.isSome_iff_exists.1 hload.fileName
  refine ⟨b, ?_, not_live_of_freeData2 hfree ?_⟩
  · simp [TraceInfo.pointers, he, hload.longFN, hb]
  · simp [TraceInfo.blocks, TraceInfo.withoutData, hb]

/-- Without traces nothing happens. -/
theorem foldlM_laterStep_nil (h : Heap) (steps : List LaterStep) :
    steps.foldlM Session.laterStep ⟨h, []⟩ = some ⟨h, []⟩ := by
  induction steps with
  | nil => rfl
  | cons e steps ih =>
    have hstep : Session.laterStep ⟨h, []⟩ e = some ⟨h, []⟩ := by cases e <;> rfl
    rw [List.foldlM_cons, hstep]
    exact ih

/-- After the cut of a loaded trace no excerpt points to a released block, no block is shared and
all that follows is possible if and only if there is no excerpt. -/
theorem readHdr2_shots_iff (hload : Loaded h trc.info rest) (hread : Reads f h trc.info)
    (hshots : shots.shotTimes ≠ []) :
    ∃ h' excerpts, readHdr2 f shots h trc = some (h', excerpts) ∧
      (CutSound h' (excerpts.map (·.info)) ↔ ¬Cuts trc shots) := by
  obtain ⟨h₁, h₂, -, hfree, heq⟩ := readHdr2_eq hload hread hshots
  refine ⟨h₂, _, heq, ?_⟩
  rw [← excerptsOf_eq_nil_iff h₁]
  constructor
  · intro hsound
    cases hcuts : (excerptsOf trc shots h₁).2 with
    | nil => rfl
    | cons e es =>
      have he : e ∈ (excerptsOf trc shots h₁).2 := by rw [hcuts]; exact List.mem_cons_self
      obtain ⟨b, hb, hreleased⟩ := longFN_released hload hfree (mem_excerptsOf he).1
      exact absurd (hsound.pointers _ (List.mem_map_of_mem he) b hb) hreleased
  · intro hnil
    rw [hnil]
    exact ⟨fun _ he => absurd he List.not_mem_nil, List.Pairwise.nil,
      fun steps => ⟨_, foldlM_laterStep_nil h₂ steps⟩⟩

end After

/-- A SAC trace from 1000 to 1100 with a name and a header. -/
def sacTrace : TimedTrace ℤ where
  info := ⟨.SAC_DATA, false, some 0, some 0, none, none, none, some 1, none, [], none, none, none,
    none, [], none, none⟩
  epochs := 1000
  length := 100

def sacHeap : Heap := ⟨2, {0, 1}, by decide⟩

theorem loaded_sacTrace : Loaded sacHeap sacTrace.info [] where
  owns := ⟨by decide, by decide⟩
  fileName := rfl
  longFN := rfl
  whole := rfl
  picks := rfl
  fileHdr := by decide

theorem reads_sacTrace : Reads (foundFile true) sacHeap sacTrace.info := ⟨_, rfl, rfl⟩

theorem readHdr2_shots_noShot :
    ∃ h' excerpts, readHdr2 (foundFile true) ⟨[900, 1098, 1200], 5⟩ sacHeap sacTrace =
      some (h', excerpts) ∧ CutSound h' (excerpts.map (·.info)) := by
  have hshots : (⟨[900, 1098, 1200], 5⟩ : ShotList ℤ).shotTimes ≠ [] := List.cons_ne_nil _ _
  obtain ⟨h', excerpts, heq, hiff⟩ := readHdr2_shots_iff loaded_sacTrace reads_sacTrace hshots
  refine ⟨h', excerpts, heq, hiff.2 ?_⟩
  exact (cutTrace_eq_nil_iff (h := sacHeap) [900, 1098, 1200]).1 rfl

/-- The excerpts of two shots point to the released name, and the first removal releases the header
of the file once more. -/
theorem sacTrace_excerpts_dangle :
    Loaded sacHeap sacTrace.info [] ∧ Reads (foundFile true) sacHeap sacTrace.info ∧
      ∃ h' excerpts, readHdr2 (foundFile true) ⟨[1010, 1020], 5⟩ sacHeap sacTrace =
        some (h', excerpts) ∧ ¬CutSound h' (excerpts.map (·.info)) ∧
        [LaterStep.act (.kill 0)].foldlM Session.laterStep ⟨h', excerpts.map (·.info)⟩ = none := by
  refine ⟨loaded_sacTrace, reads_sacTrace, _, _, rfl, fun hsound => ?_, rfl⟩
  have hlive := hsound.pointers _ List.mem_cons_self 0 (by decide)
  exact absurd hlive (by decide)

namespace Session

theorem compare_of_owned {s : Session} (hs : s.Owned) (selected : HeaderSort) {t u : TraceInfo}
    (ht : t ∈ s.traces) (hu : u ∈ s.traces) : s.compare selected t u = some s := by
  have hlive : ∀ t ∈ s.traces, ∀ b, baseAddress t selected = some b → b ∈ s.heap.live := by
    intro t ht b hb
    unfold baseAddress at hb
    split_ifs at hb
    apply hs.live
    refine List.mem_flatMap.2 ⟨t, ht, ?_⟩
    simp [TraceInfo.held, TraceInfo.blocks, hb]
  unfold compare
  split
  · next hb hc => rw [if_pos ⟨hlive t ht _ hb, hlive u hu _ hc⟩]
  · rfl

theorem laterStep_owned (s : Session) (e : LaterStep) (hs : s.Owned) (hclean : s.CleanLater e) :
    ∃ s', s.laterStep e = some s' ∧ s'.Owned := by
  cases e with
  | act a => exact step_owned s a hs hclean
  | listSort selected i j =>
    refine ⟨s, ?_, hs⟩
    unfold laterStep
    simp only
    split
    · next ht hu =>
      exact compare_of_owned hs selected (List.mem_of_getElem? ht) (List.mem_of_getElem? hu)
    · rfl

end Session

section Later

variable {α : Type} [LinearOrder α] [Add α] [Zero α] {h : Heap} {trc : TimedTrace α}
  {shots : ShotList α} {f : FileFound} {others : List TraceInfo}

/-- Without a file header the excerpts have nothing but their names. -/
theorem excerptsOf_owned (hpicks : trc.info.picks = none) (hfileHdr : trc.info.fileHdr = none)
    {h₁ h₂ : Heap} {rest : List ℕ} (h₁owns : h₁.Owns (trc.info.withoutData.held ++ rest))
    (hfree : freeData2 (excerptsOf trc shots h₁).1 trc.info.withoutData = some h₂) :
    h₂.Owns ((excerptsOf trc shots h₁).2.flatMap (·.info.held) ++ rest) := by
  have hheld : ∀ shot name, (cutTrc { trc with info := trc.info.withoutData } shots.shotLength shot
      name).info.held = name.toList := by
    intro shot name
    simp [cutTrc, TraceInfo.held, TraceInfo.blocks, TraceInfo.withoutData, hpicks, hfileHdr]
  have howns := (cutTrace_owns hheld shots.shotTimes h₁owns).perm
    (List.perm_append_comm_assoc _ _ _)
  obtain ⟨h', hfree', howns'⟩ := freeData2_of_owns howns
  obtain rfl := Option.some.inj (hfree.symm.trans hfree')
  exact howns'

omit [LinearOrder α] [Add α] [Zero α] in
/-- An excerpt with the header of the trace cannot be removed. -/
theorem kill_excerpt {h₁ h₂ : Heap} {e : TraceInfo} {es : List TraceInfo} {b : ℕ}
    (hfree : freeData2 h₁ trc.info.withoutData = some h₂) (hfileHdr : trc.info.fileHdr = some b)
    (he : e.fileHdr = trc.info.fileHdr) :
    [LaterStep.act (.kill 0)].foldlM Session.laterStep ⟨h₂, e :: es⟩ = none := by
  have hreleased : b ∉ h₂.live := by
    apply not_live_of_freeData2 hfree
    simp [TraceInfo.blocks, TraceInfo.withoutData, hfileHdr]
  have hkill : freeData2 h₂ e = none := by
    apply Heap.freeAll_eq_none _ hreleased
    simp [TraceInfo.blocks, he, hfileHdr]
  simp [Session.laterStep, Session.step, Session.act, Action.index, hkill]

/-- What follows a cut is possible if and only if the format has no file header or there is no
excerpt. -/
theorem readHdr2_later_iff (hload : Loaded h trc.info (others.flatMap TraceInfo.held))
    (hread : Reads f h trc.info) (hshots : shots.shotTimes ≠ []) :
    ∃ h' excerpts, readHdr2 f shots h trc = some (h', excerpts) ∧
      ((∀ steps, Allowed Session.laterStep Session.CleanLater
          ⟨h', excerpts.map (·.info) ++ others⟩ steps →
          ∃ s, steps.foldlM Session.laterStep ⟨h', excerpts.map (·.info) ++ others⟩ = some s) ↔
        trc.info.fileType ∉ [.AH_DATA, .SEGY_DATA, .SAC_DATA] ∨ ¬Cuts trc shots) := by
  obtain ⟨h₁, h₂, h₁owns, hfree, heq⟩ := readHdr2_eq hload hread hshots
  refine ⟨h₂, _, heq, ?_⟩
  rw [← excerptsOf_eq_nil_iff h₁, ← hload.fileHdr, Option.not_isSome_iff_eq_none]
  constructor
  · intro hlater
    cases hfileHdr : trc.info.fileHdr with
    | none => exact .inl rfl
    | some b =>
      right
      cases hcuts : (excerptsOf trc shots h₁).2 with
      | nil => rfl
      | cons e es =>
        have he : e ∈ (excerptsOf trc shots h₁).2 := by rw [hcuts]; exact List.mem_cons_self
        rw [hcuts] at hlater
        obtain ⟨s, hs⟩ := hlater [.act (.kill 0)] ⟨trivial, fun _ _ => trivial⟩
        rw [List.map_cons, List.cons_append,
          kill_excerpt hfree hfileHdr (mem_excerptsOf he).2] at hs
        exact absurd hs nofun
  · intro hcase steps hclean
    have howned : Session.Owned ⟨h₂, (excerptsOf trc shots h₁).2.map (·.info) ++ others⟩ := by
      rw [Session.Owned, List.flatMap_append, List.flatMap_map]
      rcases hcase with hfileHdr | hnil
      · exact excerptsOf_owned hload.picks hfileHdr h₁owns hfree
      · have hkeep := cutTrace_keeps { trc with info := trc.info.withoutData } shots.shotLength
          shots.shotTimes h₁owns
        obtain ⟨h', hfree', howns'⟩ := freeData2_of_owns hkeep
        obtain rfl := Option.some.inj (hfree.symm.trans hfree')
        rw [hnil]
        exact howns'
    obtain ⟨s, hrun, -⟩ := run_invariant Session.laterStep_owned howned hclean
    exact ⟨s, hrun⟩

end Later

end PQL
