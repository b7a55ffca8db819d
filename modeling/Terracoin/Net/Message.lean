import Terracoin.Net.DataStream
import Terracoin.Serialize.VarInt
import Terracoin.Validation.CheckBlock

/-!
# Network messages

`CMessageHeader`, and the sending half of `CNode`: `BeginMessage`, `AbortMessage` and `EndMessage`
build a message in place at the end of `vSend`. `contents_pushMessage` is the result: whatever is
in the buffer, a message adds its frame, the header followed by the payload.
-/

namespace Terracoin

open Codec

/-- The hash of a run of bytes. -/
class ByteHashing where
  /-- `Hash(pbegin, pend)`. -/
  hash : List UInt8 → uint256

def pchMessageStart [NodeConfig] : Bytes 4 :=
  if NodeConfig.fTestNet then ⟨[0x41, 0xba, 0xbe, 0x56], rfl⟩ else ⟨[0x42, 0xba, 0xbe, 0x56], rfl⟩

/-- The checksum of a payload: the first four bytes of its hash. -/
def messageChecksum [ByteHashing] (payload : List UInt8) : UInt32 :=
  UInt32.ofBitVec ((ByteHashing.hash payload).setWidth 32)

def writeUInt32 (n : UInt32) : Bytes 4 := ⟨littleEndian 4 n.toNat, length_littleEndian 4 _⟩

def readUInt32 (bytes : Bytes 4) : UInt32 :=
  UInt32.ofNat ((readLittleEndian 4 bytes.1).elim 0 Prod.fst)

@[simp] theorem readUInt32_writeUInt32 (n : UInt32) : readUInt32 (writeUInt32 n) = n := by
  have h := decodes_littleEndian (k := 4) n.toNat_lt []
  rw [List.append_nil] at h
  unfold readUInt32 writeUInt32
  rw [h]
  exact UInt32.ofNat_toNat

/-! ## The header -/

structure CMessageHeader where
  pchMessageStart : Bytes 4
  pchCommand : Bytes 12
  nMessageSize : UInt32
  nChecksum : UInt32
deriving DecidableEq, Repr

/-- `strncpy` into an array of `n` characters. -/
def strncpy (psz : List UInt8) (n : Nat) : Bytes n :=
  ⟨psz.take n ++ List.replicate (n - psz.length) 0, by
    rw [List.length_append, List.length_take, List.length_replicate]
    omega⟩

namespace CMessageHeader

def ofCommand [NodeConfig] (pszCommand : List UInt8) (nMessageSizeIn : UInt32) :
    CMessageHeader where
  pchMessageStart := Terracoin.pchMessageStart
  pchCommand := strncpy pszCommand 12
  nMessageSize := nMessageSizeIn
  nChecksum := 0

/-- `GetCommand`: the characters before the first zero, or all of them. -/
def getCommand (hdr : CMessageHeader) : List UInt8 :=
  if hdr.pchCommand.1.getLast? = some 0 then hdr.pchCommand.1.takeWhile (· ≠ 0)
  else hdr.pchCommand.1

/-- The command string has no errors: printable characters, and zeros after the first zero. -/
def isValidCommand : List UInt8 → Bool
  | [] => true
  | p1 :: rest =>
    if p1 = 0 then rest.all (· = 0)
    else if p1 < 0x20 || p1 > 0x7E then false
    else isValidCommand rest

def isValid [NodeConfig] (hdr : CMessageHeader) : Bool :=
  if hdr.pchMessageStart ≠ Terracoin.pchMessageStart then false
  else if !isValidCommand hdr.pchCommand.1 then false
  else if hdr.nMessageSize.toNat > maxSize then false
  else true

def serialize (hdr : CMessageHeader) : List UInt8 :=
  hdr.pchMessageStart.1 ++ hdr.pchCommand.1 ++ (writeUInt32 hdr.nMessageSize).1 ++
    (writeUInt32 hdr.nChecksum).1

theorem length_serialize (hdr : CMessageHeader) : hdr.serialize.length = 24 := by
  simp only [serialize, List.length_append, hdr.pchMessageStart.2, hdr.pchCommand.2,
    (writeUInt32 _).2]

theorem isValid_iff [NodeConfig] {hdr : CMessageHeader} : hdr.isValid = true ↔
    hdr.pchMessageStart = Terracoin.pchMessageStart ∧ isValidCommand hdr.pchCommand.1 = true ∧
      hdr.nMessageSize.toNat ≤ maxSize := by
  unfold isValid
  split
  · rename_i h
    exact ⟨fun h' => (Bool.false_ne_true h').elim, fun h' => absurd h'.1 h⟩
  · rename_i h
    split
    · rename_i h1
      refine ⟨fun h' => (Bool.false_ne_true h').elim, fun h' => ?_⟩
      rw [h'.2.1] at h1
      cases h1
    · rename_i h1
      split
      · rename_i h2
        exact ⟨fun h' => (Bool.false_ne_true h').elim, fun h' => absurd h2 (Nat.not_lt.mpr h'.2.2)⟩
      · rename_i h2
        exact ⟨fun _ => ⟨not_not.mp h, by simpa using h1, Nat.not_lt.mp h2⟩, fun _ => rfl⟩

end CMessageHeader

/-! ## Messages -/

/-- A command and its payload. -/
structure NetMessage where
  command : List UInt8
  payload : List UInt8
deriving DecidableEq, Repr

namespace NetMessage

/-- A printable command that fits the header, and a payload of at most `MAX_SIZE` bytes. -/
structure Valid (m : NetMessage) : Prop where
  command_le : m.command.length ≤ 12
  printable : ∀ c ∈ m.command, 0x20 ≤ c ∧ c ≤ 0x7E
  payload_le : m.payload.length ≤ maxSize

variable [NodeConfig] [ByteHashing]

def header (m : NetMessage) : CMessageHeader where
  pchMessageStart := Terracoin.pchMessageStart
  pchCommand := strncpy m.command 12
  nMessageSize := UInt32.ofNat m.payload.length
  nChecksum := messageChecksum m.payload

def frame (m : NetMessage) : List UInt8 := m.header.serialize ++ m.payload

end NetMessage

theorem NetMessage.Valid.ne_zero {m : NetMessage} (h : m.Valid) : ∀ c ∈ m.command, c ≠ 0 := by
  rintro c hc rfl
  exact absurd (h.printable 0 hc).1 (by decide)

theorem isValidCommand_replicate (n : Nat) :
    CMessageHeader.isValidCommand (List.replicate n 0) = true := by
  cases n with
  | zero => rfl
  | succ n =>
    rw [List.replicate_succ, CMessageHeader.isValidCommand, if_pos rfl]
    simp

theorem isValidCommand_append {command : List UInt8} {n : Nat}
    (h : ∀ c ∈ command, 0x20 ≤ c ∧ c ≤ 0x7E) :
    CMessageHeader.isValidCommand (command ++ List.replicate n 0) = true := by
  induction command with
  | nil => exact isValidCommand_replicate n
  | cons c command ih =>
    obtain ⟨hlow, hhigh⟩ := h c List.mem_cons_self
    have hne : c ≠ 0 := by
      rintro rfl
      exact absurd hlow (by decide)
    rw [List.cons_append, CMessageHeader.isValidCommand, if_neg hne, if_neg]
    · exact ih fun c hc => h c (List.mem_cons_of_mem _ hc)
    · simpa using ⟨hlow, hhigh⟩

variable [NodeConfig] [ByteHashing] {m : NetMessage}

theorem NetMessage.Valid.header_nMessageSize (h : m.Valid) :
    m.header.nMessageSize.toNat = m.payload.length :=
  UInt32.toNat_ofNat_of_lt' (Nat.lt_of_le_of_lt h.payload_le (by decide))

theorem NetMessage.Valid.isValid_header (h : m.Valid) : m.header.isValid = true := by
  refine CMessageHeader.isValid_iff.mpr ⟨rfl, ?_, ?_⟩
  · show CMessageHeader.isValidCommand (m.command.take 12 ++ _) = true
    rw [List.take_of_length_le h.command_le]
    exact isValidCommand_append h.printable
  · rw [h.header_nMessageSize]
    exact h.payload_le

theorem NetMessage.Valid.getCommand_header (h : m.Valid) : m.header.getCommand = m.command := by
  have hcommand : m.header.pchCommand.1 =
      m.command ++ List.replicate (12 - m.command.length) 0 := by
    show m.command.take 12 ++ _ = _
    rw [List.take_of_length_le h.command_le]
  have hnonzero : ∀ c ∈ m.command, (decide (c ≠ 0)) = true := fun c hc =>
    decide_eq_true (h.ne_zero c hc)
  unfold CMessageHeader.getCommand
  rw [hcommand]
  rcases Nat.eq_zero_or_pos (12 - m.command.length) with h0 | hpos
  · rw [h0, List.replicate_zero, List.append_nil, if_neg]
    intro hlast
    exact h.ne_zero 0 (List.mem_of_getLast? hlast) rfl
  · obtain ⟨k, hk⟩ : ∃ k, 12 - m.command.length = k + 1 := ⟨_, (Nat.succ_pred_eq_of_pos hpos).symm⟩
    rw [hk, if_pos (by rw [List.replicate_succ', ← List.append_assoc, List.getLast?_concat]),
      List.takeWhile_append_of_pos hnonzero, List.replicate_succ,
      List.takeWhile_cons_of_neg (by decide), List.append_nil]

/-! ## The sender -/

/-- The part of `CNode` that sends. -/
structure CNode where
  vSend : CDataStream
  nHeaderStart : Int
  nMessageStart : Nat
deriving DecidableEq, Repr

namespace CNode

def new : CNode := ⟨CDataStream.clear, -1, 0xFFFFFFFF⟩

def abortMessage (n : CNode) : CNode :=
  if n.nHeaderStart < 0 then n
  else
    { vSend := n.vSend.resize n.nHeaderStart.toNat
      nHeaderStart := -1
      nMessageStart := 0xFFFFFFFF }

def beginMessage (n : CNode) (pszCommand : List UInt8) : CNode :=
  let n := if n.nHeaderStart ≠ -1 then n.abortMessage else n
  let vSend := n.vSend.write (CMessageHeader.ofCommand pszCommand 0).serialize
  { vSend := vSend
    nHeaderStart := n.vSend.size
    nMessageStart := vSend.size }

/-- `EndMessage`. `fDrop` is the outcome of `-dropmessagestest`. -/
def endMessage (n : CNode) (fDrop : Bool) : CNode :=
  if fDrop then n.abortMessage
  else if n.nHeaderStart < 0 then n
  else
    -- set the size, then the checksum
    let nHeaderStart := n.nHeaderStart.toNat
    let nSize := UInt32.ofNat (n.vSend.size - n.nMessageStart)
    let vSend := n.vSend.set (nHeaderStart + 16) (writeUInt32 nSize).1
    let nChecksum := messageChecksum (vSend.contents.drop n.nMessageStart)
    { vSend := vSend.set (nHeaderStart + 20) (writeUInt32 nChecksum).1
      nHeaderStart := -1
      nMessageStart := 0xFFFFFFFF }

/-- `PushMessage`: the payload is written between `BeginMessage` and `EndMessage`. -/
def pushMessage (n : CNode) (m : NetMessage) (fDrop : Bool) : CNode :=
  let n := n.beginMessage m.command
  { n with vSend := n.vSend.write m.payload }.endMessage fDrop

/-- Whatever is in the buffer, a message adds its frame. -/
theorem contents_pushMessage {n : CNode} (h : n.nHeaderStart = -1) (m : NetMessage) :
    (n.pushMessage m false).nHeaderStart = -1 ∧
      (n.pushMessage m false).vSend.contents = n.vSend.contents ++ m.frame := by
  have hbegin : n.beginMessage m.command =
      { vSend := n.vSend.write (CMessageHeader.ofCommand m.command 0).serialize
        nHeaderStart := n.vSend.size
        nMessageStart :=
          (n.vSend.write (CMessageHeader.ofCommand m.command 0).serialize).size } := by
    unfold beginMessage
    rw [if_neg (by rw [h]; decide)]
  -- the buffer once the payload is written, cut where the size and the checksum go
  let named := pchMessageStart.1 ++ (strncpy m.command 12).1
  let zeros := (writeUInt32 0).1
  have hnamed : named.length = 16 := by
    simp only [named, List.length_append, pchMessageStart.2, (strncpy m.command 12).2]
  have hzeros : zeros.length = 4 := (writeUInt32 0).2
  let vSend := (n.vSend.write (CMessageHeader.ofCommand m.command 0).serialize).write m.payload
  have hcontents : vSend.contents =
      (n.vSend.contents ++ named) ++ (zeros ++ (zeros ++ m.payload)) := by
    show ((n.vSend.write _).write m.payload).contents = _
    rw [CDataStream.contents_write, CDataStream.contents_write]
    show _ ++ (named ++ zeros ++ zeros) ++ _ = _
    simp only [List.append_assoc]
  let nMessageStart := (n.vSend.write (CMessageHeader.ofCommand m.command 0).serialize).size
  have hstart : nMessageStart = n.vSend.size + 24 := by
    show (n.vSend.write _).size = _
    rw [← CDataStream.length_contents, CDataStream.contents_write, List.length_append,
      CMessageHeader.length_serialize, CDataStream.length_contents]
  have hsize : vSend.size - nMessageStart = m.payload.length := by
    rw [← CDataStream.length_contents, hcontents, hstart]
    simp only [List.length_append, hnamed, hzeros, CDataStream.length_contents]
    omega
  let sized := vSend.set (n.vSend.size + 16) (writeUInt32 (UInt32.ofNat m.payload.length)).1
  have hsized : sized.contents = (n.vSend.contents ++ named ++
      (writeUInt32 (UInt32.ofNat m.payload.length)).1) ++ (zeros ++ m.payload) := by
    show (vSend.set _ _).contents = _
    rw [CDataStream.contents_set, hcontents, overwrite_piece
      (by rw [List.length_append, hnamed, CDataStream.length_contents])
      (by rw [hzeros, (writeUInt32 _).2]), List.append_assoc _ _ (zeros ++ m.payload)]
  have hpayload : sized.contents.drop nMessageStart = m.payload := by
    rw [hsized, ← List.append_assoc]
    refine List.drop_left' ?_
    simp only [List.length_append, hnamed, hzeros, (writeUInt32 _).2, CDataStream.length_contents,
      hstart]
  have hend : n.pushMessage m false =
      { vSend := sized.set (n.vSend.size + 20) (writeUInt32 (messageChecksum m.payload)).1
        nHeaderStart := -1
        nMessageStart := 0xFFFFFFFF } := by
    unfold pushMessage
    rw [hbegin]
    show endMessage ⟨vSend, n.vSend.size, nMessageStart⟩ false = _
    unfold endMessage
    rw [if_neg (by decide), if_neg (by simp)]
    show CNode.mk _ _ _ = _
    rw [Int.toNat_natCast, hsize, hpayload]
  rw [hend]
  refine ⟨rfl, ?_⟩
  show (sized.set _ _).contents = _
  rw [CDataStream.contents_set, hsized, overwrite_piece
    (by simp only [List.length_append, hnamed, (writeUInt32 _).2, CDataStream.length_contents])
    (by rw [hzeros, (writeUInt32 _).2])]
  simp only [NetMessage.frame, CMessageHeader.serialize, NetMessage.header, named,
    List.append_assoc]

theorem contents_pushMessage_drop {n : CNode} (h : n.nHeaderStart = -1) (m : NetMessage) :
    (n.pushMessage m true).nHeaderStart = -1 ∧
      (n.pushMessage m true).vSend.contents = n.vSend.contents := by
  have hdrop : n.pushMessage m true =
      { vSend := ((n.vSend.write (CMessageHeader.ofCommand m.command 0).serialize).write
          m.payload).resize n.vSend.size
        nHeaderStart := -1
        nMessageStart := 0xFFFFFFFF } := by
    unfold pushMessage beginMessage endMessage abortMessage
    simp [h]
  rw [hdrop]
  refine ⟨rfl, ?_⟩
  show (CDataStream.resize _ _).contents = _
  rw [CDataStream.contents_resize, ← CDataStream.length_contents, ← CDataStream.length_contents,
    CDataStream.contents_write, CDataStream.contents_write, List.append_assoc, List.take_left,
    Nat.sub_eq_zero_of_le (by rw [List.length_append]; omega), List.replicate_zero,
    List.append_nil]

end CNode

/-- The bytes that `BeginMessage` and `EndMessage` produce for a message. -/
def NetMessage.produced (m : NetMessage) : List UInt8 :=
  (CNode.new.pushMessage m false).vSend.contents

theorem NetMessage.produced_eq_frame (m : NetMessage) : m.produced = m.frame :=
  (CNode.contents_pushMessage rfl m).2

end Terracoin
