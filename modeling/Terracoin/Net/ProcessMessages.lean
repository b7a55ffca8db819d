import Terracoin.Net.Message
import Terracoin.Lib.StreamParser
import Terracoin.Lib.Run

/-!
# Receiving messages

`ProcessMessages` reads the messages off the front of `vRecv`, to which the socket handler appends
what it receives. A turn of the loop depends on the contents of the stream only, and there it is a
`StreamParser` (`messageParser`): it waits until a header or a payload is complete, skips what is no
message and hands over the rest. So how the bytes are cut into chunks and when `ProcessMessages` is
called makes no difference (`handed_congr`), and the frames of valid messages are handed over one
by one.

A peer that is disconnected, a full send buffer and shutdown end the loop early and are left out.
-/

namespace Terracoin

open StreamParser

/-- `vRecv >> hdr`. -/
def CDataStream.readHeader (vRecv : CDataStream) : Option (CMessageHeader × CDataStream) := do
  let (pchMessageStart, vRecv) ← vRecv.read 4
  let (pchCommand, vRecv) ← vRecv.read 12
  let (nMessageSize, vRecv) ← vRecv.read 4
  let (nChecksum, vRecv) ← vRecv.read 4
  some (⟨pchMessageStart, pchCommand, readUInt32 nMessageSize, readUInt32 nChecksum⟩, vRecv)

variable [NodeConfig] [ByteHashing]

/-- What a turn of `ProcessMessages` does once the header is read. It waits where the loop
breaks. -/
def processHeader (hdr : CMessageHeader) (vHeaderSave : List UInt8) (vRecv : CDataStream) :
    Option (Turn CDataStream NetMessage) :=
  if !hdr.isValid then
    some (.skip vRecv)
  else
    let nMessageSize := hdr.nMessageSize.toNat
    if nMessageSize > maxSize then
      some (.skip vRecv)
    else if nMessageSize > vRecv.size then
      -- rewind and wait for rest of message
      some (.wait (vRecv.insertFront vHeaderSave))
    else if messageChecksum (vRecv.contents.take nMessageSize) ≠ hdr.nChecksum then
      some (.skip vRecv)
    else
      let vMsg := vRecv.contents.take nMessageSize
      (vRecv.ignore nMessageSize).map (.emit ⟨hdr.getCommand, vMsg⟩)

def processTurn (vRecv : CDataStream) : Option (Turn CDataStream NetMessage) :=
  -- scan for message start
  let pstart := search pchMessageStart.1 vRecv.contents
  if vRecv.size - pstart < 24 then
    some (.wait (if vRecv.size > 24 then vRecv.eraseFront (vRecv.size - 24) else vRecv))
  else
    let vRecv := vRecv.eraseFront pstart
    let vHeaderSave := vRecv.contents.take 24
    vRecv.readHeader.bind fun (hdr, vRecv) => processHeader hdr vHeaderSave vRecv

/-- `ProcessMessages`: the messages handed to `ProcessMessage`, and the stream afterwards. Every
turn that does not break uses up a byte, so one for each byte and one more are enough. -/
def processMessages (vRecv : CDataStream) : Option (List NetMessage × CDataStream) :=
  if vRecv.isEmpty then some ([], vRecv)
  else (Turn.loop processTurn (vRecv.size + 1) vRecv).map fun p => (p.1, p.2.compact)

/-! ## The parser of the contents -/

omit [NodeConfig] [ByteHashing] in
theorem length_slice {s : List UInt8} (h : 24 ≤ s.length) {i n : Nat} (hi : i + n ≤ 24) :
    ((s.drop i).take n).length = n := by
  rw [List.length_take, List.length_drop]
  omega

/-- The header at the front of the bytes. -/
def headerAt (s : List UInt8) (h : 24 ≤ s.length) : CMessageHeader where
  pchMessageStart := ⟨(s.drop 0).take 4, length_slice h (by decide)⟩
  pchCommand := ⟨(s.drop 4).take 12, length_slice h (by decide)⟩
  nMessageSize := readUInt32 ⟨(s.drop 16).take 4, length_slice h (by decide)⟩
  nChecksum := readUInt32 ⟨(s.drop 20).take 4, length_slice h (by decide)⟩

/-- The decision at a message start that has a complete header. -/
def messageAt (s : List UInt8) (h : 24 ≤ s.length) : Turn (List UInt8) NetMessage :=
  let hdr := headerAt s h
  let payload := (s.drop 24).take hdr.nMessageSize.toNat
  if hdr.isValid = false then .skip (s.drop 24)
  else if hdr.nMessageSize.toNat > (s.drop 24).length then .wait s
  else if messageChecksum payload ≠ hdr.nChecksum then .skip (s.drop 24)
  else .emit ⟨hdr.getCommand, payload⟩ ((s.drop 24).drop hdr.nMessageSize.toNat)

/-- A turn as a function of the contents. -/
def nextMessage (s : List UInt8) : Turn (List UInt8) NetMessage :=
  if h : 24 ≤ (s.drop (search pchMessageStart.1 s)).length then
    messageAt (s.drop (search pchMessageStart.1 s)) h
  else .wait (s.drop (s.length - 24))

variable {s b r : List UInt8} {m : NetMessage}

omit [NodeConfig] [ByteHashing] in
theorem headerAt_append (h : 24 ≤ s.length) (h' : 24 ≤ (s ++ b).length) :
    headerAt (s ++ b) h' = headerAt s h := by
  have hslice : ∀ i n, i + n ≤ 24 → ((s ++ b).drop i).take n = (s.drop i).take n := by
    intro i n hi
    rw [List.drop_append_of_le_length (by omega),
      List.take_append_of_le_length (by rw [List.length_drop]; omega)]
  unfold headerAt
  congr 1
  · exact Subtype.ext (hslice 0 4 (by decide))
  · exact Subtype.ext (hslice 4 12 (by decide))
  · exact congrArg readUInt32 (Subtype.ext (hslice 16 4 (by decide)))
  · exact congrArg readUInt32 (Subtype.ext (hslice 20 4 (by decide)))

/-- A decision does not change when more arrives, unless it was to wait for the payload. -/
theorem messageAt_append (h : 24 ≤ s.length) (h' : 24 ≤ (s ++ b).length) :
    messageAt s h = .wait s ∨
      (∃ r, messageAt s h = .skip r ∧ r.length < s.length ∧
        messageAt (s ++ b) h' = .skip (r ++ b)) ∨
      ∃ m r, messageAt s h = .emit m r ∧ r.length < s.length ∧
        messageAt (s ++ b) h' = .emit m (r ++ b) := by
  unfold messageAt
  dsimp only
  rw [headerAt_append h h', List.drop_append_of_le_length h]
  generalize headerAt s h = hdr
  have hlt : (s.drop 24).length < s.length := by
    rw [List.length_drop]
    omega
  by_cases hvalid : hdr.isValid = false
  · rw [if_pos hvalid, if_pos hvalid]
    exact .inr (.inl ⟨_, rfl, hlt, rfl⟩)
  rw [if_neg hvalid, if_neg hvalid]
  by_cases hsize : hdr.nMessageSize.toNat > (s.drop 24).length
  · rw [if_pos hsize]
    exact .inl rfl
  have hle := Nat.not_lt.mp hsize
  have hsize' : ¬ hdr.nMessageSize.toNat > (s.drop 24 ++ b).length := by
    rw [List.length_append]
    omega
  rw [if_neg hsize, if_neg hsize', List.take_append_of_le_length hle,
    List.drop_append_of_le_length hle]
  right
  by_cases hsum : messageChecksum ((s.drop 24).take hdr.nMessageSize.toNat) ≠ hdr.nChecksum
  · rw [if_pos hsum, if_pos hsum]
    exact .inl ⟨_, rfl, hlt, rfl⟩
  · rw [if_neg hsum, if_neg hsum]
    refine .inr ⟨_, _, rfl, ?_, rfl⟩
    rw [List.length_drop]
    omega

theorem nextMessage_drop {k : Nat} (hk : k + 24 ≤ s.length)
    (h : search pchMessageStart.1 s = k + search pchMessageStart.1 (s.drop k)) :
    nextMessage s = nextMessage (s.drop k) := by
  unfold nextMessage
  rw [h]
  simp only [← List.drop_drop, List.length_drop]
  split
  · rfl
  · rw [List.drop_drop, show k + (s.length - k - 24) = s.length - 24 by omega]

omit [ByteHashing] in
theorem search_lt_of_le (h : 24 ≤ (s.drop (search pchMessageStart.1 s)).length) :
    search pchMessageStart.1 s < s.length := by
  rw [List.length_drop] at h
  omega

/-- What a turn decides when more has arrived. -/
theorem nextMessage_append (s b : List UInt8) :
    (∃ r, nextMessage s = .wait r ∧ nextMessage (s ++ b) = nextMessage (r ++ b)) ∨
      (∃ r, nextMessage s = .skip r ∧ r.length < s.length ∧ nextMessage (s ++ b) = .skip (r ++ b)) ∨
      ∃ m r, nextMessage s = .emit m r ∧ r.length < s.length ∧
        nextMessage (s ++ b) = .emit m (r ++ b) := by
  by_cases h : 24 ≤ (s.drop (search pchMessageStart.1 s)).length
  · -- a complete header: it stays where it is
    have hlt := search_lt_of_le h
    have hsearch := search_append b hlt
    have hdrop : (s ++ b).drop (search pchMessageStart.1 (s ++ b)) =
        s.drop (search pchMessageStart.1 s) ++ b := by
      rw [hsearch, List.drop_append_of_le_length hlt.le]
    have hlen : (s.drop (search pchMessageStart.1 s)).length ≤ s.length := by
      rw [List.length_drop]
      omega
    have hs : nextMessage s = messageAt _ h := dif_pos h
    have h' : 24 ≤ (s.drop (search pchMessageStart.1 s) ++ b).length := by
      rw [List.length_append]
      omega
    have hsb : nextMessage (s ++ b) = messageAt _ h' := by
      unfold nextMessage
      simp only [hdrop]
      exact dif_pos h'
    rw [hs, hsb]
    rcases messageAt_append h h' with hwait | ⟨r, hskip, hr, hskip'⟩ | ⟨m, r, hemit, hr, hemit'⟩
    · refine .inl ⟨_, hwait, ?_⟩
      rw [← hsb, ← hdrop, hsearch]
      have hfront := prefix_drop_search hlt
      refine nextMessage_drop ?_ ?_
      · rw [List.length_drop] at h
        rw [List.length_append]
        omega
      · rw [hsearch, List.drop_append_of_le_length hlt.le,
          search_of_prefix (hfront.trans (List.prefix_append _ b)), Nat.add_zero]
    · exact .inr (.inl ⟨r, hskip, hr.trans_le hlen, hskip'⟩)
    · exact .inr (.inr ⟨m, r, hemit, hr.trans_le hlen, hemit'⟩)
  · -- no message start with a complete header: the last 24 bytes hold what there is of one
    refine .inl ⟨_, dif_neg h, ?_⟩
    rw [List.length_drop] at h
    rcases Nat.le_total s.length 24 with hshort | hlong
    · rw [Nat.sub_eq_zero_of_le hshort, List.drop_zero]
    · rw [← List.drop_append_of_le_length (Nat.sub_le _ _)]
      have hstart : pchMessageStart.1.length = 4 := pchMessageStart.2
      refine nextMessage_drop (by rw [List.length_append]; omega) ?_
      rw [List.drop_append_of_le_length (Nat.sub_le _ _)]
      exact search_append_drop b (by omega) (by omega)

/-- `ProcessMessages` as a parser of the contents. -/
def messageParser : StreamParser UInt8 NetMessage where
  next := nextMessage
  skip_lt := by
    intro s r h
    rcases nextMessage_append s [] with ⟨_, h', -⟩ | ⟨_, h', hr, -⟩ | ⟨_, _, h', -⟩ <;>
      rw [h] at h' <;> cases h'
    exact hr
  emit_lt := by
    intro s m r h
    rcases nextMessage_append s [] with ⟨_, h', -⟩ | ⟨_, h', -⟩ | ⟨_, _, h', hr, -⟩ <;>
      rw [h] at h' <;> cases h'
    exact hr
  skip_append := by
    intro s r b h
    rcases nextMessage_append s b with ⟨_, h', -⟩ | ⟨_, h', -, hsb⟩ | ⟨_, _, h', -⟩ <;>
      rw [h] at h' <;> cases h'
    exact hsb
  emit_append := by
    intro s m r b h
    rcases nextMessage_append s b with ⟨_, h', -⟩ | ⟨_, h', -⟩ | ⟨_, _, h', -, hsb⟩ <;>
      rw [h] at h' <;> cases h'
    exact hsb
  wait_append := by
    intro s r b h
    rcases nextMessage_append s b with ⟨_, h', hsb⟩ | ⟨_, h', -⟩ | ⟨_, _, h', -⟩ <;>
      rw [h] at h' <;> cases h'
    exact hsb

/-! ## The loop parses the contents -/

omit [NodeConfig] [ByteHashing] in
theorem CDataStream.readHeader_of_le {vRecv : CDataStream} (hc : vRecv.contents = s)
    (h : 24 ≤ s.length) :
    ∃ rest, vRecv.readHeader = some (headerAt s h, rest) ∧ rest.contents = s.drop 24 := by
  obtain ⟨s1, h1, hc1⟩ := read_of_le (n := 4) hc (by omega)
  obtain ⟨s2, h2, hc2⟩ := read_of_le (n := 12) hc1 (by rw [List.length_drop]; omega)
  rw [List.drop_drop] at hc2
  obtain ⟨s3, h3, hc3⟩ := read_of_le (n := 4) hc2 (by rw [List.length_drop]; omega)
  rw [List.drop_drop] at hc3
  obtain ⟨s4, h4, hc4⟩ := read_of_le (n := 4) hc3 (by rw [List.length_drop]; omega)
  rw [List.drop_drop] at hc4
  refine ⟨s4, ?_, hc4⟩
  unfold readHeader
  rw [h1]
  show (s1.read 12).bind _ = _
  rw [h2]
  show (s2.read 4).bind _ = _
  rw [h3]
  show (s3.read 4).bind _ = _
  rw [h4]
  rfl

theorem processHeader_contents {vRecv : CDataStream} (h : 24 ≤ s.length)
    (hc : vRecv.contents = s.drop 24) :
    (processHeader (headerAt s h) (s.take 24) vRecv).map (Turn.map CDataStream.contents) =
      some (messageAt s h) := by
  have hlen : vRecv.size = (s.drop 24).length := by rw [← vRecv.length_contents, hc]
  unfold processHeader messageAt
  dsimp only
  rw [hlen, hc]
  generalize headerAt s h = hdr
  by_cases hvalid : hdr.isValid = false
  · rw [if_pos hvalid, if_pos (by rw [hvalid]; rfl)]
    exact congrArg (fun r => some (Turn.skip r)) hc
  have htrue := Bool.eq_true_of_not_eq_false hvalid
  rw [if_neg hvalid, if_neg (by rw [htrue]; decide),
    if_neg (Nat.not_lt.mpr (CMessageHeader.isValid_iff.mp htrue).2.2)]
  by_cases hsize : hdr.nMessageSize.toNat > (s.drop 24).length
  · rw [if_pos hsize, if_pos hsize]
    show some (Turn.wait (vRecv.insertFront _).contents) = _
    rw [CDataStream.contents_insertFront, hc, List.take_append_drop]
  rw [if_neg hsize, if_neg hsize]
  by_cases hsum : messageChecksum ((s.drop 24).take hdr.nMessageSize.toNat) ≠ hdr.nChecksum
  · rw [if_pos hsum, if_pos hsum]
    exact congrArg (fun r => some (Turn.skip r)) hc
  · rw [if_neg hsum, if_neg hsum]
    obtain ⟨rest, hrest, hcrest⟩ := CDataStream.ignore_of_le hc (Nat.not_lt.mp hsize)
    rw [hrest]
    exact congrArg (fun r => some (Turn.emit _ r)) hcrest

/-- A turn depends on the contents of the stream only. -/
theorem processTurn_contents (vRecv : CDataStream) :
    some (nextMessage vRecv.contents) =
      (processTurn vRecv).map (Turn.map CDataStream.contents) := by
  have hlen : vRecv.contents.length = vRecv.size := vRecv.length_contents
  have hle := search_le pchMessageStart.1 vRecv.contents
  unfold processTurn nextMessage
  dsimp only
  by_cases h : vRecv.size - search pchMessageStart.1 vRecv.contents < 24
  · rw [if_pos h, dif_neg (by rw [List.length_drop]; omega)]
    show _ = some (Turn.wait (CDataStream.contents _))
    split
    · rw [CDataStream.contents_eraseFront, hlen]
    · rw [hlen, Nat.sub_eq_zero_of_le (by omega), List.drop_zero]
  · have h24 : 24 ≤ (vRecv.contents.drop (search pchMessageStart.1 vRecv.contents)).length := by
      rw [List.length_drop]
      omega
    rw [if_neg h, dif_pos h24]
    have hstart := vRecv.contents_eraseFront (search pchMessageStart.1 vRecv.contents)
    obtain ⟨rest, hread, hrest⟩ := CDataStream.readHeader_of_le hstart h24
    rw [hread, hstart]
    exact (processHeader_contents h24 hrest).symm

/-- `ProcessMessages` always returns, hands over what the parser does and keeps what it keeps. -/
theorem processMessages_eq (vRecv : CDataStream) :
    ∃ rest, processMessages vRecv = some ((messageParser.parse vRecv.contents).1, rest) ∧
      rest.contents = (messageParser.parse vRecv.contents).2 := by
  unfold processMessages
  split
  · rename_i h
    have hnil := CDataStream.isEmpty_iff.mp h
    have hwait : messageParser.next [] = .wait [] := rfl
    rw [hnil, parse_wait hwait]
    exact ⟨vRecv, rfl, hnil⟩
  · have hparse : Turn.loop (fun s => some (nextMessage s)) (vRecv.size + 1) vRecv.contents =
        some (messageParser.parse vRecv.contents) :=
      messageParser.loop_eq_parse (by rw [vRecv.length_contents]; exact Nat.lt_succ_self _)
    have hsim : Turn.loop (fun s => some (nextMessage s)) (vRecv.size + 1) vRecv.contents = _ :=
      Turn.loop_sim processTurn_contents (vRecv.size + 1) vRecv
    obtain ⟨p, hp, hpeq⟩ := Option.map_eq_some_iff.mp (hsim.symm.trans hparse)
    rw [hp, ← hpeq]
    exact ⟨p.2.compact, rfl, p.2.contents_compact⟩

omit [NodeConfig] [ByteHashing] in
theorem headerAt_serialize (hdr : CMessageHeader) (rest : List UInt8)
    (h : 24 ≤ (hdr.serialize ++ rest).length) : headerAt (hdr.serialize ++ rest) h = hdr := by
  have hslice : ∀ (a b c : List UInt8) i n, a.length = i → b.length = n →
      ((a ++ (b ++ c)).drop i).take n = b := by
    intro a b c i n ha hb
    rw [List.drop_left' ha, List.take_left' hb]
  have hstart := hdr.pchMessageStart.2
  have hnamed : (hdr.pchMessageStart.1 ++ hdr.pchCommand.1).length = 16 := by
    rw [List.length_append, hstart, hdr.pchCommand.2]
  have hsized : (hdr.pchMessageStart.1 ++ hdr.pchCommand.1 ++
      (writeUInt32 hdr.nMessageSize).1).length = 20 := by
    rw [List.length_append, hnamed, (writeUInt32 _).2]
  have h0 := hslice [] _ (hdr.pchCommand.1 ++ ((writeUInt32 hdr.nMessageSize).1 ++
    ((writeUInt32 hdr.nChecksum).1 ++ rest))) 0 4 rfl hstart
  have h4 := hslice _ _ ((writeUInt32 hdr.nMessageSize).1 ++
    ((writeUInt32 hdr.nChecksum).1 ++ rest)) 4 12 hstart hdr.pchCommand.2
  have h16 := hslice _ _ ((writeUInt32 hdr.nChecksum).1 ++ rest) 16 4 hnamed
    (writeUInt32 hdr.nMessageSize).2
  have h20 := hslice _ _ rest 20 4 hsized (writeUInt32 hdr.nChecksum).2
  simp only [List.append_assoc, List.nil_append] at h0 h4 h16 h20
  unfold headerAt
  simp only [CMessageHeader.serialize, List.append_assoc, h0, h4, h16, h20]
  cases hdr
  congr 1
  · exact readUInt32_writeUInt32 _
  · exact readUInt32_writeUInt32 _

/-- The frame of a valid message is complete, and is handed over as that message. -/
theorem nextMessage_frame (hm : m.Valid) (rest : List UInt8) :
    nextMessage (m.frame ++ rest) = .emit m rest := by
  have hlen := m.header.length_serialize
  have hframe : m.frame ++ rest = m.header.serialize ++ (m.payload ++ rest) :=
    List.append_assoc _ _ _
  have hsearch : search pchMessageStart.1 (m.frame ++ rest) = 0 := by
    refine search_of_prefix ?_
    show pchMessageStart.1 <+: _
    rw [hframe, CMessageHeader.serialize]
    simp only [List.append_assoc]
    exact List.prefix_append _ _
  have hdrop : (m.header.serialize ++ (m.payload ++ rest)).drop 24 = m.payload ++ rest :=
    List.drop_left' hlen
  have h : 24 ≤ (m.frame ++ rest).length := by
    rw [hframe, List.length_append]
    omega
  unfold nextMessage
  simp only [hsearch, List.drop_zero]
  rw [dif_pos h]
  unfold messageAt
  simp only [hframe, headerAt_serialize, hdrop]
  rw [hm.isValid_header, if_neg (by decide), hm.header_nMessageSize,
    if_neg (by rw [List.length_append]; omega), List.take_left, List.drop_left,
    if_neg (fun hne : messageChecksum m.payload ≠ m.header.nChecksum => hne rfl),
    hm.getCommand_header]

end Terracoin
