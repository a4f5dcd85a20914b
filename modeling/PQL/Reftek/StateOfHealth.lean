import PQL.Lib.CInt
import PQL.Lib.Delimited
import PQL.Lib.Text
import PQL.Reftek.Packets
import PQL.Reftek.Pages

/-!
# State of health

The three readers take the messages out of the state-of-health packets of a file: a time stamp, and
a text that ends with CR and LF.  They search the packet as a C string, though it has no terminator,
so that a search leaves the packet when there is no further message and ends too early at a zero.
`soh_messages_iff` says for which packets they find the messages.
-/

namespace PQL

def CR : Byte := 0xD

def LF : Byte := 0xA

structure SOHMSG where
  time : EventTime
  msg : List Byte
deriving DecidableEq, Repr

structure SOHINFO where
  seqnum : ℤ
  msgs : List SOHMSG
deriving DecidableEq, Repr

/-- `strstr` for the separator. -/
def strstrCRLF (s : List Byte) : Option (Option ℕ) := searchPair 0 CR LF s

/-! ## RT130 -/

/-- What is behind the numeral that `atoi` reads. -/
def atoiRest (s : List Byte) : List Byte :=
  (scanSign (s.dropWhile isSpace)).2.dropWhile isDigit

/-- `atoi`; `strtol` keeps to the range of `long`, and the result is cut to an `int`. -/
def atoi (s : List Byte) : ℤ := wrap32 (max (-2 ^ 63) (min (2 ^ 63 - 1) (atol s)))

/-- `atoi` in the data area `s`; without a result it reads behind it. -/
def atoiIn (s : List Byte) : Option ℤ := if atoiRest s = [] then none else some (atoi s)

/-- The length of a time stamp. -/
def RT130_STAMP : ℕ := 13

/-- The four calls of `atoi`; the year stays zero. -/
def readStamp (s : List Byte) : Option EventTime := do
  let jday ← atoiIn s
  let hour ← atoiIn (s.drop 4)
  let minute ← atoiIn (s.drop 7)
  let second ← atoiIn (s.drop 10)
  return ⟨0, jday, hour, minute, second⟩

/-- The loop over the messages of a packet, with `s` from `ptr` to the end of the packet. -/
def informationMessages (s : List Byte) : Option (List SOHMSG) :=
  if s = [] then some []
  else
    (readStamp s).bind fun time =>
      (strstrCRLF (s.drop RT130_STAMP)).bind fun loc =>
        match loc with
        | none => some []
        | some n =>
          (informationMessages (s.drop (RT130_STAMP + n + 2))).map
            (⟨time, (s.drop RT130_STAMP).take n⟩ :: ·)
termination_by s.length
decreasing_by
  rename_i h
  rw [List.length_drop]
  have := List.length_pos_iff.2 h
  omega

/-- `information`. -/
def information (p : PacketBuffer) : List Byte := p.bytes.drop RT130_HEADER_SIZE

/-- One packet; the sequence number is a static counter. -/
def rt130SohStep (s : ℤ × List SOHINFO) (p : PacketBuffer) : Option (ℤ × List SOHINFO) :=
  match packetType p.bytes with
  | .SH => (informationMessages (information p)).map fun msgs => (s.1 + 1, s.2 ++ [⟨s.1, msgs⟩])
  | _ => some s

/-- `get_rt130_SOH` for the packets that `rd_pack` leaves in the buffer. -/
def getRt130SOH (seqNum : ℤ) (packets : List PacketBuffer) : Option (ℤ × List SOHINFO) :=
  packets.foldlM rt130SohStep (seqNum, [])

/-! ## RT125 and RT125A -/

/-- The length of a time stamp, `RT125AEVENTTIME_LEN`. -/
def RT125_STAMP : ℕ := 6

/-- The macros for the time stamp at the head of `s`. -/
def pageStamp (s : List Byte) : EventTime where
  year := (s.getD 0 0).toNat + 1984
  jday := (s.getD 1 0).toNat * 100 + (s.getD 2 0).toNat + 1
  hour := (s.getD 3 0).toNat
  minute := (s.getD 4 0).toNat
  second := (s.getD 5 0).toNat

namespace RTPage

/-- `RT125ASOHSEQN`. -/
def sequenceNum (p : RTPage) : ℕ := p.word 3

def msgCnt (p : RTPage) : ℕ := (p.byte 9).toNat

def msgs (p : RTPage) : List Byte := (p.bytes.drop 10).take 516

end RTPage

/-- The loop over the messages of a page. -/
def pageMessages : ℕ → List Byte → Option (List SOHMSG)
  | 0, _ => some []
  | n + 1, s =>
    if s.length < RT125_STAMP then none
    else
      (strstrCRLF (s.drop RT125_STAMP)).bind fun loc =>
        match loc with
        | none => some []
        | some i =>
          (pageMessages n (s.drop (RT125_STAMP + i + 2))).map
            (⟨pageStamp s, (s.drop RT125_STAMP).take i⟩ :: ·)

/-- One page. -/
def pageSohStep (infos : List SOHINFO) (p : RTPage) : Option (List SOHINFO) :=
  match pageType p with
  | .PSH => (pageMessages p.msgCnt p.msgs).map fun msgs => infos ++ [⟨p.sequenceNum, msgs⟩]
  | _ => some infos

/-- `get_rt125_SOH`. -/
def getRt125SOH (pages : List RTPage) : Option (List SOHINFO) := pages.foldlM pageSohStep []

/-- `get_rt125A_SOH`, the same loop. -/
def getRt125ASOH (pages : List RTPage) : Option (List SOHINFO) := pages.foldlM pageSohStep []

/-! ## The messages of a packet -/

/-- The columns of the time stamp of an RT130 message, with their widths. -/
def stampColumns : List (ℕ × ℕ) := [(0, 4), (4, 3), (7, 3), (10, 3)]

/-- The number in a column of a time stamp. -/
def columnNumber (s : List Byte) (c : ℕ × ℕ) : ℤ := atoi ((s.drop c.1).take c.2)

/-- The message at the head of `s`. -/
def informationMessage (s : List Byte) : SOHMSG where
  time := ⟨0, columnNumber s (0, 4), columnNumber s (4, 3), columnNumber s (7, 3),
    columnNumber s (10, 3)⟩
  msg := recordText CR LF RT130_STAMP s

/-- The complete messages of an RT130 packet. -/
def packetMessages (p : PacketBuffer) : List SOHMSG :=
  (records CR LF RT130_STAMP (information p)).1.map informationMessage

def pageMessage (s : List Byte) : SOHMSG := ⟨pageStamp s, recordText CR LF RT125_STAMP s⟩

/-- The complete messages of a page, as many as it announces. -/
def announcedMessages (p : RTPage) : List SOHMSG :=
  ((records CR LF RT125_STAMP p.msgs).1.take p.msgCnt).map pageMessage

/-- The state-of-health packets of a file have been read within bounds and have the messages
`messages`, packet by packet. -/
def Delivers (infos : Option (List SOHINFO)) (messages : List (List SOHMSG)) : Prop :=
  infos.map (List.map SOHINFO.msgs) = some messages

/-- The message at the head of `s` has no zero in its text, and each number of its stamp ends in the
data area and is that of its column. -/
structure PlainMessage (s : List Byte) : Prop where
  text : 0 ∉ recordText CR LF RT130_STAMP s
  stamp : ∀ c ∈ stampColumns, atoiIn (s.drop c.1) = some (columnNumber s c)

/-- The messages of an RT130 packet are plain, and behind the last one the data area ends or has a
zero behind the place of a time stamp. -/
structure PlainPacket (p : PacketBuffer) : Prop where
  messages : ∀ s ∈ (records CR LF RT130_STAMP (information p)).1, PlainMessage s
  ending : (records CR LF RT130_STAMP (information p)).2 = [] ∨
    0 ∈ (records CR LF RT130_STAMP (information p)).2.drop RT130_STAMP

/-- The texts of the announced messages of a page have no zero in them, and if it has fewer messages
there is a zero behind the place of the next time stamp. -/
structure PlainPage (p : RTPage) : Prop where
  texts : ∀ s ∈ (records CR LF RT125_STAMP p.msgs).1.take p.msgCnt,
    0 ∉ recordText CR LF RT125_STAMP s
  ending : (records CR LF RT125_STAMP p.msgs).1.length < p.msgCnt →
    0 ∈ (records CR LF RT125_STAMP p.msgs).2.drop RT125_STAMP

/-! ## The loop of the RT130 -/

/-- In front of a zero a number ends. -/
theorem atoiIn_eq_some {s : List Byte} (h : 0 ∈ s) : atoiIn s = some (atoi s) := by
  have hdrop : ∀ (p : Byte → Bool) (l : List Byte), p 0 = false → 0 ∈ l → 0 ∈ l.dropWhile p := by
    intro p l hp hl
    rw [← List.takeWhile_append_dropWhile (p := p) (l := l), List.mem_append] at hl
    refine hl.resolve_left fun htake => ?_
    rw [List.mem_takeWhile_imp htake] at hp
    exact absurd hp (by decide)
  have hsign : ∀ l : List Byte, 0 ∈ l → 0 ∈ (scanSign l).2 := by
    intro l hl
    cases l with
    | nil => exact hl
    | cons c l =>
      rw [scanSign]
      have hrest : c ≠ 0 → 0 ∈ l := fun hc => (List.mem_cons.1 hl).resolve_left hc.symm
      split_ifs with hminus hplus
      · exact hrest (by rw [hminus]; decide)
      · exact hrest (by rw [hplus]; decide)
      · exact hl
  have hrest : atoiRest s ≠ [] :=
    List.ne_nil_of_mem (hdrop _ _ (by decide) (hsign _ (hdrop _ _ (by decide) h)))
  rw [atoiIn, if_neg hrest]

theorem readStamp_eq_some_iff {s : List Byte} {time : EventTime} :
    readStamp s = some time ↔ atoiIn s = some time.jday ∧ atoiIn (s.drop 4) = some time.hour ∧
      atoiIn (s.drop 7) = some time.minute ∧ atoiIn (s.drop 10) = some time.second ∧
      time.year = 0 := by
  obtain ⟨year, jday, hour, minute, second⟩ := time
  simp only [readStamp, Option.bind_eq_bind, Option.bind_eq_some_iff, Option.pure_def,
    Option.some.injEq, EventTime.mk.injEq]
  constructor
  · rintro ⟨_, h₁, _, h₂, _, h₃, _, h₄, rfl, rfl, rfl, rfl, rfl⟩
    exact ⟨h₁, h₂, h₃, h₄, rfl⟩
  · rintro ⟨h₁, h₂, h₃, h₄, rfl⟩
    exact ⟨_, h₁, _, h₂, _, h₃, _, h₄, rfl, rfl, rfl, rfl, rfl⟩

theorem readStamp_own_iff (s : List Byte) :
    readStamp s = some (informationMessage s).time ↔
      ∀ c ∈ stampColumns, atoiIn (s.drop c.1) = some (columnNumber s c) := by
  rw [readStamp_eq_some_iff, stampColumns]
  simp only [List.forall_mem_cons, List.not_mem_nil, false_imp_iff, implies_true, and_true,
    informationMessage, List.drop_zero]

/-- A zero behind the place of a time stamp ends every number of it. -/
theorem readStamp_isSome {s : List Byte} (h : 0 ∈ s.drop RT130_STAMP) :
    ∃ time, readStamp s = some time := by
  have hdrop : ∀ n ≤ RT130_STAMP, 0 ∈ s.drop n := by
    intro n hn
    have hsplit : s.drop RT130_STAMP = (s.drop n).drop (RT130_STAMP - n) := by
      rw [List.drop_drop, Nat.add_sub_cancel' hn]
    rw [hsplit] at h
    exact List.mem_of_mem_drop h
  exact ⟨⟨0, _, _, _, _⟩, readStamp_eq_some_iff.2 ⟨atoiIn_eq_some (hdrop 0 (by decide)),
    atoiIn_eq_some (hdrop 4 (by decide)), atoiIn_eq_some (hdrop 7 (by decide)),
    atoiIn_eq_some (hdrop 10 (by decide)), rfl⟩⟩

/-- The loop ends without a message exactly if the area ends or the search ends at a zero. -/
theorem informationMessages_ending_iff {s : List Byte}
    (h : findPair CR LF (s.drop RT130_STAMP) = none) :
    informationMessages s = some [] ↔ s = [] ∨ 0 ∈ s.drop RT130_STAMP := by
  rw [informationMessages, strstrCRLF, searchPair_of_not 0 h]
  by_cases hs : s = []
  · rw [if_pos hs]
    exact iff_of_true rfl (Or.inl hs)
  · rw [if_neg hs, or_iff_right hs]
    by_cases hzero : 0 ∈ s.drop RT130_STAMP
    · obtain ⟨time, htime⟩ := readStamp_isSome hzero
      rw [if_pos hzero, htime]
      exact iff_of_true rfl hzero
    · rw [if_neg hzero]
      refine iff_of_false (fun hread => ?_) hzero
      obtain ⟨time, -, hnone⟩ := Option.bind_eq_some_iff.1 hread
      exact absurd hnone (by simp)

/-- The loop finds the complete messages of its area exactly if they are plain and the area ends as
it must. -/
theorem informationMessages_eq_some_iff (s : List Byte) :
    informationMessages s = some ((records CR LF RT130_STAMP s).1.map informationMessage) ↔
      (∀ r ∈ (records CR LF RT130_STAMP s).1, PlainMessage r) ∧
        ((records CR LF RT130_STAMP s).2 = [] ∨
          0 ∈ (records CR LF RT130_STAMP s).2.drop RT130_STAMP) := by
  induction hlen : s.length using Nat.strongRecOn generalizing s with
  | ind n ih =>
    cases hfind : findPair CR LF (s.drop RT130_STAMP) with
    | none =>
      rw [records_of_not hfind]
      simp only [List.map_nil, List.not_mem_nil, false_imp_iff, implies_true, true_and]
      exact informationMessages_ending_iff hfind
    | some i =>
      have hle := length_of_findPair hfind
      have hne : s ≠ [] := by
        rintro rfl
        exact absurd hle (by simp)
      have htext : (informationMessage s).msg = (s.drop RT130_STAMP).take i :=
        recordText_of_find hfind
      have hrest := ih (s.drop (RT130_STAMP + i + 2)).length (by
        rw [List.length_drop] at hle ⊢
        omega) _ rfl
      rw [records_of_find hfind, informationMessages, if_neg hne, strstrCRLF,
        searchPair_of_find 0 hfind (by decide)]
      dsimp only
      rw [List.map_cons, List.forall_mem_cons, and_assoc, ← hrest]
      constructor
      · intro h
        obtain ⟨time, htime, hread⟩ := Option.bind_eq_some_iff.1 h
        split_ifs at hread with hzero
        · exact absurd (Option.some.inj hread) (by simp)
        · obtain ⟨msgs, hmsgs, hcons⟩ := Option.map_eq_some_iff.1 hread
          obtain ⟨hhead, htail⟩ := List.cons.inj hcons
          rw [← htail, hmsgs]
          have hown : time = (informationMessage s).time := congrArg SOHMSG.time hhead
          rw [hown] at htime
          refine ⟨⟨?_, (readStamp_own_iff s).1 htime⟩, rfl⟩
          rwa [recordText_of_find hfind]
      · rintro ⟨hplain, hmsgs⟩
        have hzero : 0 ∉ (s.drop RT130_STAMP).take i := by
          have htext' := hplain.text
          rwa [recordText_of_find hfind] at htext'
        rw [(readStamp_own_iff s).2 hplain.stamp, Option.bind_some, if_neg hzero,
          Option.bind_some]
        dsimp only
        rw [hmsgs, Option.map_some, ← htext]

/-! ## The loop of the RT125 and the RT125A -/

/-- The loop ends without a message exactly if none is announced or the search ends at a zero. -/
theorem pageMessages_ending_iff {n : ℕ} {s : List Byte}
    (h : findPair CR LF (s.drop RT125_STAMP) = none) :
    pageMessages n s = some [] ↔ (0 < n → 0 ∈ s.drop RT125_STAMP) := by
  cases n with
  | zero => exact iff_of_true rfl fun hn => absurd hn (Nat.lt_irrefl 0)
  | succ n =>
    rw [pageMessages, strstrCRLF, searchPair_of_not 0 h, forall_prop_of_true (Nat.succ_pos n)]
    by_cases hzero : 0 ∈ s.drop RT125_STAMP
    · have hlen : ¬s.length < RT125_STAMP := by
        intro hlt
        rw [List.drop_of_length_le hlt.le] at hzero
        exact absurd hzero List.not_mem_nil
      rw [if_neg hlen, if_pos hzero]
      exact iff_of_true rfl hzero
    · rw [if_neg hzero]
      refine iff_of_false (fun hread => ?_) hzero
      split_ifs at hread
      exact absurd hread (by simp)

/-- The loop finds the announced messages of its area exactly if they have no zeros and the area
ends as it must. -/
theorem pageMessages_eq_some_iff (n : ℕ) (s : List Byte) :
    pageMessages n s = some (((records CR LF RT125_STAMP s).1.take n).map pageMessage) ↔
      (∀ r ∈ (records CR LF RT125_STAMP s).1.take n, 0 ∉ recordText CR LF RT125_STAMP r) ∧
        ((records CR LF RT125_STAMP s).1.length < n →
          0 ∈ (records CR LF RT125_STAMP s).2.drop RT125_STAMP) := by
  induction n generalizing s with
  | zero =>
    rw [List.take_zero]
    exact iff_of_true rfl ⟨fun r hr => absurd hr List.not_mem_nil,
      fun hlt => absurd hlt (Nat.not_lt_zero _)⟩
  | succ n ih =>
    cases hfind : findPair CR LF (s.drop RT125_STAMP) with
    | none =>
      rw [records_of_not hfind]
      simp only [List.take_nil, List.map_nil, List.not_mem_nil, false_imp_iff, implies_true,
        true_and, List.length_nil]
      exact pageMessages_ending_iff hfind
    | some i =>
      have hlen : ¬s.length < RT125_STAMP := by
        have hle := length_of_findPair hfind
        rw [List.length_drop] at hle
        omega
      have htext : recordText CR LF RT125_STAMP s = (s.drop RT125_STAMP).take i :=
        recordText_of_find hfind
      have hrest := ih (s.drop (RT125_STAMP + i + 2))
      rw [records_of_find hfind, pageMessages, if_neg hlen, strstrCRLF,
        searchPair_of_find 0 hfind (by decide)]
      dsimp only
      rw [List.take_succ_cons, List.map_cons, List.forall_mem_cons, List.length_cons,
        Nat.add_lt_add_iff_right, and_assoc, ← hrest, pageMessage, htext]
      by_cases hzero : 0 ∈ (s.drop RT125_STAMP).take i
      · rw [if_pos hzero, Option.bind_some]
        exact iff_of_false (by simp) fun h => h.1 hzero
      · rw [if_neg hzero, Option.bind_some, and_iff_right hzero]
        dsimp only
        rw [Option.map_eq_some_iff]
        simp only [List.cons.injEq, true_and, exists_eq_right]

/-! ## Files -/

/-- A list of results is as expected exactly if each of them is. -/
theorem mapM_eq_some_map_iff {α β : Type} (f : α → Option β) (g : α → β) (l : List α) :
    l.mapM f = some (l.map g) ↔ ∀ a ∈ l, f a = some (g a) := by
  induction l with
  | nil => simp
  | cons a l ih =>
    rw [List.mapM_cons, List.map_cons, List.forall_mem_cons, ← ih]
    cases f a with
    | none => simp
    | some b =>
      cases l.mapM f with
      | none => simp
      | some bs => simp

/-- A fold that appends the result of an element with `P` and skips the others collects them. -/
theorem foldlM_collect {σ α β : Type} (view : σ → List β) (P : α → Prop) [DecidablePred P]
    (f : α → Option β) (step : σ → α → Option σ)
    (hread : ∀ s a, P a → (step s a).map view = (f a).map fun b => view s ++ [b])
    (hskip : ∀ s a, ¬P a → step s a = some s) (l : List α) (s : σ) :
    (l.foldlM step s).map view = ((l.filter P).mapM f).map (view s ++ ·) := by
  induction l generalizing s with
  | nil => simp
  | cons a l ih =>
    rw [List.foldlM_cons]
    by_cases ha : P a
    · have hone := hread s a ha
      rw [List.filter_cons_of_pos (by simpa using ha), List.mapM_cons]
      cases hstep : step s a with
      | none =>
        rw [hstep, Option.map_none, eq_comm, Option.map_eq_none_iff] at hone
        rw [hone]
        rfl
      | some s' =>
        rw [hstep, Option.map_some, eq_comm, Option.map_eq_some_iff] at hone
        obtain ⟨b, hb, hview⟩ := hone
        rw [hb, Option.bind_eq_bind, Option.bind_some, ih, ← hview]
        cases (l.filter P).mapM f with
        | none => rfl
        | some bs => exact congrArg some (List.append_assoc _ _ _)
    · rw [List.filter_cons_of_neg (by simpa using ha), hskip s a ha, Option.bind_eq_bind,
        Option.bind_some, ih]

/-- Such a fold collects what is expected exactly if each element with `P` gives it. -/
theorem foldlM_collect_iff {σ α β : Type} (view : σ → List β) (P : α → Prop) [DecidablePred P]
    (f : α → Option β) (step : σ → α → Option σ)
    (hread : ∀ s a, P a → (step s a).map view = (f a).map fun b => view s ++ [b])
    (hskip : ∀ s a, ¬P a → step s a = some s) (g : α → β) (l : List α) {s : σ}
    (hs : view s = []) :
    (l.foldlM step s).map view = some ((l.filter P).map g) ↔
      ∀ a ∈ l.filter P, f a = some (g a) := by
  rw [foldlM_collect view P f step hread hskip, hs, ← mapM_eq_some_map_iff]
  simp only [List.nil_append, Option.map_id']

theorem rt130SohStep_of_soh {p : PacketBuffer} (hp : packetType p.bytes = .SH)
    (s : ℤ × List SOHINFO) :
    (rt130SohStep s p).map (fun s => s.2.map SOHINFO.msgs) =
      (informationMessages (information p)).map fun msgs => s.2.map SOHINFO.msgs ++ [msgs] := by
  rw [rt130SohStep, hp]
  dsimp only
  rw [Option.map_map]
  congr 1
  funext msgs
  exact List.map_append

theorem rt130SohStep_of_not {p : PacketBuffer} (hp : packetType p.bytes ≠ .SH)
    (s : ℤ × List SOHINFO) : rt130SohStep s p = some s := by
  rw [rt130SohStep]
  split
  · exact absurd ‹_› hp
  · rfl

theorem pageSohStep_of_soh {p : RTPage} (hp : pageType p = .PSH) (infos : List SOHINFO) :
    (pageSohStep infos p).map (List.map SOHINFO.msgs) =
      (pageMessages p.msgCnt p.msgs).map fun msgs => infos.map SOHINFO.msgs ++ [msgs] := by
  rw [pageSohStep, hp]
  dsimp only
  rw [Option.map_map]
  congr 1
  funext msgs
  exact List.map_append

theorem pageSohStep_of_not {p : RTPage} (hp : pageType p ≠ .PSH) (infos : List SOHINFO) :
    pageSohStep infos p = some infos := by
  rw [pageSohStep]
  split
  · exact absurd ‹_› hp
  · rfl

/-- The state-of-health packets of an RT130 file. -/
def sohPackets (packets : List PacketBuffer) : List PacketBuffer :=
  packets.filter fun p => packetType p.bytes = .SH

/-- The state-of-health pages of a file. -/
def sohPages (pages : List RTPage) : List RTPage := pages.filter fun p => pageType p = .PSH

theorem getRt130SOH_delivers_iff (seqNum : ℤ) (packets : List PacketBuffer) :
    Delivers ((getRt130SOH seqNum packets).map Prod.snd)
        ((sohPackets packets).map packetMessages) ↔
      ∀ p ∈ sohPackets packets, PlainPacket p := by
  rw [Delivers, Option.map_map, getRt130SOH]
  refine (foldlM_collect_iff _ _ _ _ (fun s p hp => rt130SohStep_of_soh hp s)
    (fun s p hp => rt130SohStep_of_not hp s) packetMessages packets rfl).trans ?_
  rw [← sohPackets]
  refine forall₂_congr fun p _ => (informationMessages_eq_some_iff _).trans ?_
  exact ⟨fun h => ⟨h.1, h.2⟩, fun h => ⟨h.messages, h.ending⟩⟩

theorem foldlM_pageSohStep_delivers_iff (pages : List RTPage) :
    Delivers (pages.foldlM pageSohStep []) ((sohPages pages).map announcedMessages) ↔
      ∀ p ∈ sohPages pages, PlainPage p := by
  rw [Delivers]
  refine (foldlM_collect_iff _ _ _ _ (fun s p hp => pageSohStep_of_soh hp s)
    (fun s p hp => pageSohStep_of_not hp s) announcedMessages pages rfl).trans ?_
  rw [← sohPages]
  refine forall₂_congr fun p _ => (pageMessages_eq_some_iff _ _).trans ?_
  exact ⟨fun h => ⟨h.1, h.2⟩, fun h => ⟨h.texts, h.ending⟩⟩

/-- The three readers stay within the data areas and return the complete messages exactly if each
state-of-health packet is plain. -/
theorem soh_messages_iff (seqNum : ℤ) (packets : List PacketBuffer) (pages : List RTPage) :
    (Delivers ((getRt130SOH seqNum packets).map Prod.snd)
        ((sohPackets packets).map packetMessages) ↔ ∀ p ∈ sohPackets packets, PlainPacket p) ∧
      (Delivers (getRt125SOH pages) ((sohPages pages).map announcedMessages) ↔
        ∀ p ∈ sohPages pages, PlainPage p) ∧
      (Delivers (getRt125ASOH pages) ((sohPages pages).map announcedMessages) ↔
        ∀ p ∈ sohPages pages, PlainPage p) :=
  ⟨getRt130SOH_delivers_iff seqNum packets, foldlM_pageSohStep_delivers_iff pages,
    foldlM_pageSohStep_delivers_iff pages⟩

/-- A data area with one message, padded with blanks. -/
def paddedArea : List Byte :=
  ascii "001:00:00:00 A" ++ ([CR, LF] ++ List.replicate 984 blank)

theorem length_paddedArea :
    ([0x53, 0x48] ++ (List.replicate 22 0 ++ paddedArea)).length = RT130_PKT_SIZE := by
  simp only [paddedArea, List.length_append, List.length_replicate]
  decide

/-- A state-of-health packet with one message, padded with blanks. -/
def paddedPacket : PacketBuffer where
  bytes := [0x53, 0x48] ++ (List.replicate 22 0 ++ paddedArea)
  length_bytes := length_paddedArea

/-- Behind the message of a padded packet the packet is left. -/
theorem rt130_soh_leaves_packet :
    ¬Delivers ((getRt130SOH 1 [paddedPacket]).map Prod.snd)
      ((sohPackets [paddedPacket]).map packetMessages) := by
  rw [getRt130SOH_delivers_iff]
  intro h
  have harea : information paddedPacket = paddedArea := rfl
  have hmem : paddedPacket ∈ sohPackets [paddedPacket] :=
    List.mem_filter.2 ⟨List.mem_singleton_self _, by decide +kernel⟩
  have hfirst : findPair CR LF (paddedArea.drop RT130_STAMP) = some 1 := by decide +kernel
  have hnext :
      findPair CR LF ((paddedArea.drop (RT130_STAMP + 1 + 2)).drop RT130_STAMP) = none := by
    decide +kernel
  have hending := (h _ hmem).ending
  rw [harea, records_of_find hfirst, records_of_not hnext] at hending
  exact absurd hending (by decide +kernel)

end PQL
