import PQL.Steim.Memory

/-!
# Reftek packets

A Reftek file is read packet by packet into one buffer of 1024 bytes (`rdPack`).  A read at the end
of the file may be short: then the rest of the buffer still holds the packet before it
(`readInto`).  The fields of a data packet are binary coded decimals.
-/

namespace PQL

def RT130_PKT_SIZE : ℕ := 1024

def RT130_HEADER_SIZE : ℕ := 24

def RT130_C0_MAX_SAMPS : ℕ := 892

def RT130_C2_MAX_SAMPS : ℕ := 1561

def DEFAULT_MSEED_BLOCKSIZE : ℕ := 1024

/-! ## Fields -/

/-- Two decimal digits a byte; a digit above nine is taken as it is. -/
def sbcdhx (ch : List Byte) (dgts : ℕ) : ℕ :=
  (ch.take ((dgts + 1) / 2)).foldl (fun num b => 10 * (10 * num + b.toNat / 16) + b.toNat % 16) 0

def rt130StreamNm (block : List Byte) : ℕ := sbcdhx (block.drop 18) 2 + 1

def rt130ChannelNm (block : List Byte) : ℕ := sbcdhx (block.drop 19) 2 + 1

def rt130ChannelNum (block : List Byte) : ℕ :=
  sbcdhx (block.drop 18) 2 * 3 + (sbcdhx (block.drop 19) 2 + 1)

def rt130NumSamps (block : List Byte) : ℕ := sbcdhx (block.drop 20) 4

def rt130DataForm (block : List Byte) : Byte := block.getD 23 0

/-! ## Packets -/

inductive PacketType where
  | AD
  | CD
  | DR
  | DS
  | DT
  | EH
  | ET
  | OM
  | SH
  | SC
  | FD
  | invalid
deriving DecidableEq, Repr

/-- The two letters at the head of a packet, the first one high on every host. -/
def convertRefType (block : List Byte) : ℕ := (block.getD 0 0).toNat * 256 + (block.getD 1 0).toNat

def packetType (block : List Byte) : PacketType :=
  match convertRefType block with
  | 0x4144 => .AD
  | 0x4344 => .CD
  | 0x4452 => .DR
  | 0x4453 => .DS
  | 0x4454 => .DT
  | 0x4548 => .EH
  | 0x4554 => .ET
  | 0x4F4D => .OM
  | 0x5348 => .SH
  | 0x5343 => .SC
  | 0x4644 => .FD
  | _ => .invalid

/-- The buffer after `fread` has put the bytes `chunk` at its head. -/
def readInto (array chunk : List Byte) : List Byte := chunk ++ array.drop chunk.length

def rdPack (array chunk : List Byte) : PacketType × List Byte :=
  let array := readInto array chunk
  (packetType array, array)

/-- What the packet buffer of a reader holds. -/
structure PacketBuffer where
  bytes : List Byte
  length_bytes : bytes.length = RT130_PKT_SIZE

/-- A whole packet replaces what is in the buffer. -/
theorem readInto_packet {array packet : List Byte} (harray : array.length ≤ RT130_PKT_SIZE)
    (hpacket : packet.length = RT130_PKT_SIZE) : readInto array packet = packet := by
  rw [readInto, hpacket, List.drop_of_length_le harray, List.append_nil]

/-- What the successive calls of `fread` return, up to the end of the file. -/
def chunks (file : List Byte) : List (List Byte) :=
  if file = [] then [] else file.take RT130_PKT_SIZE :: chunks (file.drop RT130_PKT_SIZE)
termination_by file.length
decreasing_by
  rename_i h
  rw [List.length_drop]
  have := List.length_pos_iff.2 h
  unfold RT130_PKT_SIZE
  omega

theorem chunks_nil : chunks [] = [] := by rw [chunks, if_pos rfl]

/-- A whole packet at the head of the file is one read. -/
theorem chunks_append (packet file : List Byte) (h : packet.length = RT130_PKT_SIZE) :
    chunks (packet ++ file) = packet :: chunks file := by
  have hne : packet ++ file ≠ [] := by
    intro hnil
    rw [(List.append_eq_nil_iff.1 hnil).1] at h
    exact absurd h (by decide)
  rw [chunks, if_neg hne, ← h, List.take_left, List.drop_left]

/-- No bytes are lost: the reads together are the file. -/
theorem flatten_chunks (file : List Byte) : (chunks file).flatten = file := by
  induction file using chunks.induct with
  | case1 => rw [chunks_nil, List.flatten_nil]
  | case2 file h ih => rw [chunks, if_neg h, List.flatten_cons, ih, List.take_append_drop]

end PQL
