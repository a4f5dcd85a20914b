import PQL.Lib.Text
import PQL.Reftek.RT130

/-!
# The gains of RT130 channels

The first event header of a file declares how many channels there are and gives a gain code for each
of them.  `get_rt130_hedr` decodes the codes into a table and looks up a channel when its first
packet is met (`getRt130Gains`, which adds the table to `getRt130Hedr`).  The field of the count has
two characters and no end, so that digits behind it go on with the number, and the header has codes
for sixteen channels only (`rt130_gains_iff`).
-/

namespace PQL

/-- The offset of `gain` in an event header, which has a code for each of sixteen channels. -/
def RT130_GAIN : ℕ := 416

def RT130_GAIN_CODES : ℕ := 16

/-- The offset of `totalChannels` in an event header. -/
def RT130_TOTAL_CHANNELS : ℕ := 860

/-- `RT130CHGAIN`; an unknown code leaves the gain as it is. -/
def rt130ChGain (code : Byte) (gain : ℕ) : ℕ :=
  match code.toNat with
  | 0x31 => 0x1
  | 0x32 => 0x8
  | 0x33 => 0x32
  | 0x34 => 0x128
  | 0x35 => 0x512
  | 0x36 => 0x2048
  | 0x37 => 0x8192
  | 0x38 => 0x100
  | 0x41 => 12
  | 0x42 => 24
  | 0x43 => 36
  | 0x44 => 48
  | 0x45 => 64
  | 0x46 => 0x2
  | 0x47 => 0x4
  | 0x48 => 0x16
  | 0x49 => 0x64
  | 0x4A => 0x256
  | _ => gain

/-! ## The header pass with its table -/

/-- `atoi` of `totalChannels`: the field has no end, and what follows it is read too. -/
def totChans (eh : List Byte) : ℤ := atol (eh.drop RT130_TOTAL_CHANNELS)

/-- The loop that decodes the codes of `n` channels. -/
def gainTable (eh : List Byte) (n : ℕ) : List ℕ :=
  (List.range n).map fun i => rt130ChGain (eh.getD (RT130_GAIN + i) 0) 0

/-- The table that an event header makes, if it makes one; without a result, codes behind the packet
are read. -/
def readGains (eh : List Byte) : Option (Option (List ℕ)) :=
  if totChans eh ≤ 0 then some none
  else if RT130_GAIN + (totChans eh).toNat ≤ RT130_PKT_SIZE then
    some (some (gainTable eh (totChans eh).toNat))
  else none

structure GainChan where
  chan : ChanInfo
  gain : ℕ

/-- The header pass: the channels, the table and its lookups, and the packet buffer. -/
structure GainPass where
  channels : List GainChan
  gain : Option (List ℕ)
  lookups : List ℕ
  block : List Byte

/-- The new entry of a channel; there is no result when the lookup is out of bounds. -/
def gainChannel (s : GainPass) (block : List Byte) : Option GainPass :=
  match s.gain with
  | none => some { s with channels := ⟨newChannel block, 0⟩ :: s.channels }
  | some table =>
    table[rt130ChannelNm block - 1]?.map fun gain =>
      { s with
        channels := ⟨newChannel block, gain⟩ :: s.channels
        lookups := s.lookups ++ [rt130ChannelNm block - 1] }

/-- The samples of a packet are added to its channel. -/
def countPacket (channels : List GainChan) (block : List Byte) : List GainChan :=
  updateFirst (fun c => c.chan.chnNum = rt130ChannelNum block)
    (fun c => { c with chan :=
      { c.chan with numSamps := c.chan.numSamps + BitVec.ofNat 32 (rt130NumSamps block) } })
    channels

/-- One data packet. -/
def addGainPacket (s : GainPass) (block : List Byte) : Option GainPass :=
  (if s.channels.any (fun c => c.chan.chnNum = rt130ChannelNum block) then some s
    else gainChannel s block).map fun s => { s with channels := countPacket s.channels block }

def gainStep (s : GainPass) (chunk : List Byte) : Option GainPass :=
  let (type, block) := rdPack s.block chunk
  let s := { s with block := block }
  match type with
  | .DT => addGainPacket s block
  | .EH =>
    if s.gain.isSome then some s else (readGains block).map fun gain => { s with gain := gain }
  | _ => some s

/-- A trace with its gain. -/
structure GainTrace extends RT130Trace where
  gainConst : ℕ
deriving DecidableEq

/-- A gain that is not known is one. -/
def gainConst (gain : ℕ) : ℕ := if gain = 0 then 1 else gain

def makeGainTrace (c : GainChan) : GainTrace :=
  { makeRt130Trace c.chan with gainConst := gainConst c.gain }

/-- `get_rt130_hedr` with the gains: its traces and the indices that it looks up. -/
def getRt130Gains (block file : List Byte) : Option (List GainTrace × List ℕ) :=
  ((chunks file).foldlM gainStep ⟨[], none, [], block⟩).map fun s =>
    (s.channels.foldl (fun traces c => makeGainTrace c :: traces) [], s.lookups)

/-! ## Without the gains it is the header pass -/

section Forget

variable {s r : GainPass}

theorem map_countPacket (channels : List GainChan) (block : List Byte) :
    (countPacket channels block).map GainChan.chan =
      updateFirst (fun c => c.chnNum = rt130ChannelNum block)
        (fun c => { c with numSamps := c.numSamps + BitVec.ofNat 32 (rt130NumSamps block) })
        (channels.map GainChan.chan) := by
  unfold countPacket
  induction channels with
  | nil => rfl
  | cons c cs ih =>
    rw [updateFirst, List.map_cons, updateFirst]
    split_ifs with hc
    · rfl
    · rw [List.map_cons, ih]

theorem any_map_chan (channels : List GainChan) (n : ℕ) :
    (channels.map GainChan.chan).any (fun c => c.chnNum = n) =
      channels.any fun c => c.chan.chnNum = n := by
  rw [List.any_map]
  rfl

theorem addGainPacket_forget {block : List Byte} (h : addGainPacket s block = some r) :
    r.channels.map GainChan.chan = addPacket (s.channels.map GainChan.chan) block ∧
      r.block = s.block := by
  obtain ⟨t, ht, rfl⟩ := Option.map_eq_some_iff.1 h
  rw [addPacket, any_map_chan]
  dsimp only
  rw [map_countPacket]
  split_ifs at ht ⊢ with hany
  · obtain rfl := Option.some.inj ht
    exact ⟨rfl, rfl⟩
  · unfold gainChannel at ht
    split at ht
    · obtain rfl := Option.some.inj ht
      exact ⟨rfl, rfl⟩
    · obtain ⟨gain, -, rfl⟩ := Option.map_eq_some_iff.1 ht
      exact ⟨rfl, rfl⟩

theorem gainStep_forget {chunk : List Byte} (h : gainStep s chunk = some r) :
    (r.channels.map GainChan.chan, r.block) =
      hedrStep (s.channels.map GainChan.chan, s.block) chunk := by
  simp only [gainStep, hedrStep, rdPack] at h ⊢
  cases htype : packetType (readInto s.block chunk) with
  | DT =>
    simp only [htype] at h
    obtain ⟨hchannels, hblock⟩ := addGainPacket_forget h
    rw [hchannels, hblock]
  | EH =>
    simp only [htype] at h
    split_ifs at h
    · rw [← Option.some.inj h]
    · obtain ⟨gain, -, rfl⟩ := Option.map_eq_some_iff.1 h
      rfl
  | _ =>
    simp only [htype] at h
    rw [← Option.some.inj h]

/-- The gains are added to the traces and change nothing else. -/
theorem getRt130Gains_traces {block file : List Byte} {traces : List GainTrace} {lookups : List ℕ}
    (h : getRt130Gains block file = some (traces, lookups)) :
    traces.map GainTrace.toRT130Trace = getRt130Hedr block file := by
  have hrun : ∀ (cs : List (List Byte)) {s r : GainPass}, cs.foldlM gainStep s = some r →
      (r.channels.map GainChan.chan, r.block) =
        cs.foldl hedrStep (s.channels.map GainChan.chan, s.block) := by
    intro cs
    induction cs with
    | nil => exact fun h => by rw [← Option.some.inj h]; rfl
    | cons c cs ih =>
      intro s r h
      rw [List.foldlM_cons] at h
      obtain ⟨t, ht, hrest⟩ := Option.bind_eq_some_iff.1 h
      rw [List.foldl_cons, ← gainStep_forget ht]
      exact ih hrest
  have hmake : ∀ (cs : List GainChan) (ts : List GainTrace),
      (cs.foldl (fun traces c => makeGainTrace c :: traces) ts).map GainTrace.toRT130Trace =
        (cs.map GainChan.chan).foldl (fun traces chn => makeRt130Trace chn :: traces)
          (ts.map GainTrace.toRT130Trace) := by
    intro cs
    induction cs with
    | nil => exact fun ts => rfl
    | cons c cs ih => exact fun ts => ih (makeGainTrace c :: ts)
  obtain ⟨s, hs, hpair⟩ := Option.map_eq_some_iff.1 h
  obtain ⟨rfl, -⟩ := Prod.mk.inj hpair
  have hchannels := congrArg Prod.fst (hrun _ hs)
  rw [hmake, getRt130Hedr, List.map_nil]
  exact congrArg _ hchannels

end Forget

/-! ## Files with gains -/

/-- The number of channels in the two characters of the field. -/
def declaredChans (eh : List Byte) : ℤ := atol ((eh.drop RT130_TOTAL_CHANNELS).take 2)

/-- The gain code that a header has for a channel. -/
def gainCode (eh : List Byte) (chnNm : ℕ) : Option Byte :=
  ((eh.drop RT130_GAIN).take RT130_GAIN_CODES)[chnNm - 1]?

/-- A file that begins with an event header, which declares all the channels that follow. -/
structure GainFile where
  eh : List Byte
  rest : List Byte
  length_eh : eh.length = RT130_PKT_SIZE
  type_eh : packetType eh = .EH
  declared : 1 ≤ declaredChans eh
  below : ∀ b ∈ headerDataPackets eh rest, (rt130ChannelNm b : ℤ) ≤ declaredChans eh

def GainFile.bytes (f : GainFile) : List Byte := f.eh ++ f.rest

/-- Every lookup is for a declared channel, and the gain of every trace is the decoded code of its
channel. -/
def GainsRight (block : List Byte) (f : GainFile) : Prop :=
  ∃ traces lookups, getRt130Gains block f.bytes = some (traces, lookups) ∧
    (∀ i ∈ lookups, (i : ℤ) < declaredChans f.eh) ∧
    ∀ t ∈ traces, ∃ code, gainCode f.eh t.chnNm = some code ∧
      t.gainConst = gainConst (rt130ChGain code 0)

/-- The packets with a channel number that is not in `seen` and that no packet before them has. -/
def freshPackets : List ℕ → List (List Byte) → List (List Byte)
  | _, [] => []
  | seen, b :: bs =>
    if rt130ChannelNum b ∈ seen then freshPackets seen bs
    else b :: freshPackets (rt130ChannelNum b :: seen) bs

/-- The number at the field of the count, with the digits that follow it, does not lead behind the
packet, and the channels that packets name first have a gain code. -/
structure GainsReadable (f : GainFile) : Prop where
  count : totChans f.eh ≤ RT130_PKT_SIZE - RT130_GAIN
  codes : ∀ b ∈ freshPackets [] (headerDataPackets f.eh f.rest),
    rt130ChannelNm b ≤ RT130_GAIN_CODES

/-! ## A run with a table -/

/-- What the header pass keeps of a channel but for its samples. -/
def GainChan.key (c : GainChan) : ℕ × ℕ × ℕ := (c.chan.chnNum, c.chan.chnNm, c.gain)

/-- The entry of a channel whose first packet is `b`. -/
def freshKey (table : List ℕ) (b : List Byte) : ℕ × ℕ × ℕ :=
  (rt130ChannelNum b, rt130ChannelNm b, table.getD (rt130ChannelNm b - 1) 0)

theorem map_key_countPacket (channels : List GainChan) (block : List Byte) :
    (countPacket channels block).map GainChan.key = channels.map GainChan.key :=
  map_updateFirst (fun c : GainChan => decide (c.chan.chnNum = rt130ChannelNum block))
    (fun c : GainChan => { c with chan :=
      { c.chan with numSamps := c.chan.numSamps + BitVec.ofNat 32 (rt130NumSamps block) } })
    GainChan.key (fun _ => rfl) channels

theorem any_key (channels : List GainChan) (n : ℕ) :
    (channels.any fun c => c.chan.chnNum = n) = true ↔
      n ∈ (channels.map GainChan.key).map Prod.fst := by
  rw [List.any_eq_true, List.map_map, List.mem_map]
  exact exists_congr fun c => and_congr_right fun _ => decide_eq_true_iff

/-- The entries that the packets `bs` add to a table of channels. -/
theorem foldlM_gainStep {table : List ℕ} {cs : List (List Byte)} {s : GainPass}
    (hgain : s.gain = some table)
    (hbelow : ∀ b ∈ (headerPackets s.block cs).filter (fun b => packetType b = .DT),
      rt130ChannelNm b - 1 < table.length) :
    ∃ r, cs.foldlM gainStep s = some r ∧
      r.channels.map GainChan.key =
        ((freshPackets ((s.channels.map GainChan.key).map Prod.fst)
          ((headerPackets s.block cs).filter fun b => packetType b = .DT)).map
            (freshKey table)).reverse ++ s.channels.map GainChan.key ∧
      r.lookups = s.lookups ++ (freshPackets ((s.channels.map GainChan.key).map Prod.fst)
        ((headerPackets s.block cs).filter fun b => packetType b = .DT)).map
          fun b => rt130ChannelNm b - 1 := by
  induction cs generalizing s with
  | nil => exact ⟨s, rfl, rfl, (List.append_nil _).symm⟩
  | cons c cs ih =>
    rw [List.foldlM_cons]
    have hpackets : (headerPackets s.block (c :: cs)).filter (fun b => packetType b = .DT) =
        if packetType (readInto s.block c) = .DT then
          readInto s.block c ::
            (headerPackets (readInto s.block c) cs).filter fun b => packetType b = .DT
        else (headerPackets (readInto s.block c) cs).filter fun b => packetType b = .DT := by
      rw [headerPackets, List.filter_cons]
      simp only [decide_eq_true_eq]
    rw [hpackets] at hbelow ⊢
    by_cases hdt : packetType (readInto s.block c) = .DT
    · rw [if_pos hdt] at hbelow ⊢
      obtain ⟨hfirst, hrest⟩ := List.forall_mem_cons.1 hbelow
      have hstep : gainStep s c =
          addGainPacket { s with block := readInto s.block c } (readInto s.block c) := by
        simp only [gainStep, rdPack, hdt]
      rw [hstep, addGainPacket, freshPackets]
      generalize readInto s.block c = b at *
      by_cases hany : (s.channels.any fun c => c.chan.chnNum = rt130ChannelNum b) = true
      · rw [if_pos hany, if_pos ((any_key _ _).1 hany), Option.map_some]
        obtain ⟨r, hrun, hkeys, hlookups⟩ :=
          ih (s := { s with block := b, channels := countPacket s.channels b }) hgain hrest
        dsimp only at hkeys hlookups
        rw [map_key_countPacket] at hkeys hlookups
        exact ⟨r, hrun, hkeys, hlookups⟩
      · have hlookup : table[rt130ChannelNm b - 1]? =
            some (table.getD (rt130ChannelNm b - 1) 0) := by
          rw [List.getD_eq_getElem?_getD, List.getElem?_eq_getElem hfirst, Option.getD_some]
        rw [if_neg hany, if_neg (fun h => hany ((any_key _ _).2 h)), gainChannel]
        dsimp only
        rw [hgain]
        dsimp only
        rw [hlookup, Option.map_some, Option.map_some]
        obtain ⟨r, hrun, hkeys, hlookups⟩ := ih (s := { s with
          gain := some table
          block := b
          channels := countPacket (⟨newChannel b, table.getD (rt130ChannelNm b - 1) 0⟩ ::
            s.channels) b
          lookups := s.lookups ++ [rt130ChannelNm b - 1] }) rfl hrest
        have hkey : GainChan.key ⟨newChannel b, table.getD (rt130ChannelNm b - 1) 0⟩ =
            freshKey table b := rfl
        dsimp only at hkeys hlookups
        rw [map_key_countPacket, List.map_cons, hkey, List.map_cons] at hkeys hlookups
        refine ⟨r, hrun, ?_, ?_⟩
        · rw [hkeys, List.map_cons, List.reverse_cons, List.append_assoc]
          rfl
        · rw [hlookups, List.map_cons, List.append_assoc]
          rfl
    · rw [if_neg hdt] at hbelow ⊢
      have hstep : gainStep s c = some { s with block := readInto s.block c } := by
        simp only [gainStep, rdPack]
        split
        · exact absurd ‹_› hdt
        · rw [if_pos (by rw [hgain]; rfl)]
        · rfl
      rw [hstep]
      exact ih (s := { s with block := readInto s.block c }) hgain hbelow

/-! ## Files that begin with an event header -/

theorem mem_gainTraces {channels : List GainChan} {t : GainTrace} :
    t ∈ channels.foldl (fun traces c => makeGainTrace c :: traces) [] ↔
      ∃ c ∈ channels, makeGainTrace c = t := by
  have hrev : ∀ (cs : List GainChan) (ts : List GainTrace),
      cs.foldl (fun traces c => makeGainTrace c :: traces) ts =
        (cs.map makeGainTrace).reverse ++ ts := by
    intro cs
    induction cs with
    | nil => exact fun ts => rfl
    | cons c cs ih =>
      intro ts
      rw [List.foldl_cons, ih, List.map_cons, List.reverse_cons, List.append_assoc]
      rfl
  rw [hrev, List.append_nil, List.mem_reverse, List.mem_map]

theorem mem_of_mem_freshPackets {seen : List ℕ} {bs : List (List Byte)} {b : List Byte}
    (hb : b ∈ freshPackets seen bs) : b ∈ bs := by
  induction bs generalizing seen with
  | nil => exact hb
  | cons c bs ih =>
    rw [freshPackets] at hb
    split_ifs at hb
    · exact List.mem_cons_of_mem c (ih hb)
    · rcases List.mem_cons.1 hb with rfl | hb
      · exact List.mem_cons_self
      · exact List.mem_cons_of_mem c (ih hb)

theorem rt130ChannelNm_pos (b : List Byte) : 0 < rt130ChannelNm b := Nat.succ_pos _

@[simp] theorem length_gainTable (eh : List Byte) (n : ℕ) : (gainTable eh n).length = n := by
  rw [gainTable, List.length_map, List.length_range]

theorem getD_gainTable (eh : List Byte) {n i : ℕ} (h : i < n) :
    (gainTable eh n).getD i 0 = rt130ChGain (eh.getD (RT130_GAIN + i) 0) 0 := by
  rw [List.getD_eq_getElem?_getD, gainTable, List.getElem?_map, List.getElem?_range h]
  rfl

/-- The codes are those of the first sixteen channels. -/
theorem gainCode_eq_some_iff {eh : List Byte} (heh : eh.length = RT130_PKT_SIZE) {chnNm : ℕ}
    (hpos : 0 < chnNm) {code : Byte} :
    gainCode eh chnNm = some code ↔
      chnNm ≤ RT130_GAIN_CODES ∧ code = eh.getD (RT130_GAIN + (chnNm - 1)) 0 := by
  rw [gainCode, List.getElem?_take]
  split_ifs with hlt
  · have hin : RT130_GAIN + (chnNm - 1) < eh.length := by
      rw [heh]
      unfold RT130_GAIN RT130_GAIN_CODES RT130_PKT_SIZE at *
      omega
    rw [List.getElem?_drop, List.getD_eq_getElem?_getD, List.getElem?_eq_getElem hin,
      Option.getD_some, Option.some_inj, eq_comm]
    exact ⟨fun h => ⟨by omega, h⟩, fun h => h.2⟩
  · exact iff_of_false (by simp) fun h => hlt (by omega)

section Run

variable (block : PacketBuffer) (f : GainFile)

/-- The number that is read is not below the declared one. -/
theorem GainFile.declared_le : declaredChans f.eh ≤ totChans f.eh := by
  have hle := atol_le_append f.declared ((f.eh.drop RT130_TOTAL_CHANNELS).drop 2)
  rwa [List.take_append_drop] at hle

/-- The table has an entry for every channel of the file. -/
theorem GainFile.lookup_lt {b : List Byte} (hb : b ∈ headerDataPackets f.eh f.rest) :
    rt130ChannelNm b - 1 < (totChans f.eh).toNat := by
  have hbelow := f.below b hb
  have hle := f.declared_le
  have hpos := rt130ChannelNm_pos b
  omega

theorem getRt130Gains_bytes :
    getRt130Gains block.bytes f.bytes = (readGains f.eh).bind fun gain =>
      ((chunks f.rest).foldlM gainStep ⟨[], gain, [], f.eh⟩).map fun s =>
        (s.channels.foldl (fun traces c => makeGainTrace c :: traces) [], s.lookups) := by
  have hstep : gainStep ⟨[], none, [], block.bytes⟩ f.eh =
      (readGains f.eh).map fun gain => ⟨[], gain, [], f.eh⟩ := by
    simp only [gainStep, rdPack, readInto_packet block.length_bytes.le f.length_eh, f.type_eh]
    rfl
  rw [getRt130Gains, GainFile.bytes, chunks_append _ _ f.length_eh, List.foldlM_cons, hstep]
  cases readGains f.eh <;> rfl

/-- The header makes a table unless it reads codes behind the packet. -/
theorem GainFile.readGains_eq :
    readGains f.eh =
      if totChans f.eh ≤ RT130_PKT_SIZE - RT130_GAIN then
        some (some (gainTable f.eh (totChans f.eh).toNat))
      else none := by
  have hpos := f.declared
  have hle := f.declared_le
  rw [readGains, if_neg (by omega)]
  unfold RT130_GAIN RT130_PKT_SIZE
  split_ifs <;> first | rfl | omega

/-- The traces of a file whose header makes a table: their channels are those of the packets that
name a number first. -/
theorem getRt130Gains_of_le (h : totChans f.eh ≤ RT130_PKT_SIZE - RT130_GAIN) :
    ∃ traces, getRt130Gains block.bytes f.bytes = some (traces,
        (freshPackets [] (headerDataPackets f.eh f.rest)).map fun b => rt130ChannelNm b - 1) ∧
      (∀ t ∈ traces, ∃ b ∈ freshPackets [] (headerDataPackets f.eh f.rest),
        t.chnNm = rt130ChannelNm b ∧ t.gainConst =
          gainConst (rt130ChGain (f.eh.getD (RT130_GAIN + (rt130ChannelNm b - 1)) 0) 0)) ∧
      ∀ b ∈ freshPackets [] (headerDataPackets f.eh f.rest), ∃ t ∈ traces,
        t.chnNm = rt130ChannelNm b := by
  obtain ⟨r, hrun, hkeys, hlookups⟩ :=
    foldlM_gainStep (s := ⟨[], some (gainTable f.eh (totChans f.eh).toNat), [], f.eh⟩) rfl
      fun b hb => by rw [length_gainTable]; exact f.lookup_lt hb
  rw [List.map_nil, List.map_nil, List.append_nil] at hkeys
  rw [List.map_nil, List.map_nil, List.nil_append] at hlookups
  rw [getRt130Gains_bytes, f.readGains_eq, if_pos h, Option.bind_some, hrun, Option.map_some,
    hlookups]
  refine ⟨_, rfl, fun t ht => ?_, fun b hb => ?_⟩
  · obtain ⟨c, hc, rfl⟩ := mem_gainTraces.1 ht
    have hkey : c.key ∈ r.channels.map GainChan.key := List.mem_map_of_mem hc
    rw [hkeys, List.mem_reverse] at hkey
    obtain ⟨b, hb, hbc⟩ := List.mem_map.1 hkey
    have hname : rt130ChannelNm b = c.chan.chnNm := congrArg (fun k => k.2.1) hbc
    have hgain : _ = c.gain := congrArg (fun k => k.2.2) hbc
    refine ⟨b, hb, hname.symm, ?_⟩
    show gainConst c.gain = _
    rw [← hgain]
    exact congrArg gainConst (getD_gainTable f.eh (f.lookup_lt (mem_of_mem_freshPackets hb)))
  · have hkey : freshKey (gainTable f.eh (totChans f.eh).toNat) b ∈
        r.channels.map GainChan.key := by
      rw [hkeys, List.mem_reverse]
      exact List.mem_map_of_mem hb
    obtain ⟨c, hc, hcb⟩ := List.mem_map.1 hkey
    exact ⟨_, mem_gainTraces.2 ⟨c, hc, rfl⟩, congrArg (fun k => k.2.1) hcb⟩

/-- The lookups of a file that begins with an event header are for declared channels and the gains
those of the channels exactly if the number read as the count of the channels does not lead behind
the packet and the channels are among the sixteen with a code. -/
theorem rt130_gains_iff : GainsRight block.bytes f ↔ GainsReadable f := by
  by_cases hcount : totChans f.eh ≤ RT130_PKT_SIZE - RT130_GAIN
  · obtain ⟨traces, hrun, htraces, hfresh⟩ := getRt130Gains_of_le block f hcount
    unfold GainsRight
    rw [hrun]
    constructor
    · rintro ⟨traces', lookups, heq, -, hgains⟩
      obtain ⟨rfl, -⟩ := Prod.mk.inj (Option.some.inj heq)
      refine ⟨hcount, fun b hb => ?_⟩
      obtain ⟨t, ht, hname⟩ := hfresh b hb
      obtain ⟨code, hcode, -⟩ := hgains t ht
      rw [hname] at hcode
      exact ((gainCode_eq_some_iff f.length_eh (rt130ChannelNm_pos b)).1 hcode).1
    · intro h
      refine ⟨_, _, rfl, fun i hi => ?_, fun t ht => ?_⟩
      · obtain ⟨b, hb, rfl⟩ := List.mem_map.1 hi
        have hbelow := f.below b (mem_of_mem_freshPackets hb)
        have hpos := rt130ChannelNm_pos b
        omega
      · obtain ⟨b, hb, hname, hgain⟩ := htraces t ht
        rw [hname]
        exact ⟨_, (gainCode_eq_some_iff f.length_eh (rt130ChannelNm_pos b)).2
          ⟨h.codes b hb, rfl⟩, hgain⟩
  · refine iff_of_false ?_ fun h => hcount h.count
    rintro ⟨traces, lookups, hrun, -⟩
    rw [getRt130Gains_bytes, f.readGains_eq, if_neg hcount, Option.bind_none] at hrun
    exact absurd hrun (by simp)

end Run

/-! ## A comment that begins with a year -/

/-- An event header of six channels with a comment. -/
def commentedHeader (comment : String) : List Byte :=
  [0x45, 0x48] ++ (List.replicate 858 blank ++ (ascii "06" ++
    (ascii comment ++ List.replicate (162 - comment.length) blank)))

theorem commentedHeader_below :
    ∀ b ∈ headerDataPackets (commentedHeader "2009") ([0x44, 0x54] ++ List.replicate 1022 0),
      (rt130ChannelNm b : ℤ) ≤ declaredChans (commentedHeader "2009") := by
  have hlen : ([0x44, 0x54] ++ List.replicate 1022 0 : List Byte).length = RT130_PKT_SIZE := by
    rw [List.length_append, List.length_replicate]
    rfl
  have hchunks := chunks_append ([0x44, 0x54] ++ List.replicate 1022 0) [] hlen
  have heh : (commentedHeader "2009").length ≤ RT130_PKT_SIZE := by decide +kernel
  rw [List.append_nil, chunks_nil] at hchunks
  rw [headerDataPackets, hchunks, headerPackets, headerPackets, readInto_packet heh hlen]
  intro b hb
  rw [List.mem_singleton.1 (List.mem_filter.1 hb).1]
  decide +kernel

/-- A file with one data packet of channel one. -/
def commentedFile : GainFile where
  eh := commentedHeader "2009"
  rest := [0x44, 0x54] ++ List.replicate 1022 0
  length_eh := by decide +kernel
  type_eh := by decide +kernel
  declared := by decide +kernel
  below := commentedHeader_below

/-- The year at the start of the comment is read as part of the count, which leads behind the
packet. -/
theorem rt130_gains_comment : ¬∃ block : PacketBuffer, GainsRight block.bytes commentedFile := by
  rintro ⟨block, traces, lookups, hrun, -⟩
  have hcount : ¬totChans commentedFile.eh ≤ RT130_PKT_SIZE - RT130_GAIN := by decide +kernel
  rw [getRt130Gains_bytes, commentedFile.readGains_eq, if_neg hcount, Option.bind_none] at hrun
  exact absurd hrun (by simp)

end PQL
