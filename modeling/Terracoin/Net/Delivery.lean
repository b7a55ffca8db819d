import Terracoin.Net.ProcessMessages

/-!
# Delivery of messages

The two ends of a connection. The sender pushes messages to `vSend`, of which the socket handler
sends the front; the receiver gets the bytes in chunks and calls `ProcessMessages` at any points
between them. `run_receiver` is the invariant of a receiver: what was handed over and what the
parser makes of the rest is what it makes of all bytes received. What a receiver hands over is then
always a prefix of what the sender pushed (`handed_prefix_of_sent`), and all of it when the bytes
have arrived.
-/

namespace Terracoin

open StreamParser

/-! ## The receiver -/

section Receiver

variable [NodeConfig] [ByteHashing]

inductive ReceiveOp where
  /-- The socket handler appends a chunk. -/
  | recv (pchBuf : List UInt8)
  | processMessages
deriving DecidableEq, Repr

/-- The bytes received in the course of the operations. -/
def received (ops : List ReceiveOp) : List UInt8 :=
  ops.flatMap fun op =>
    match op with
    | .recv pchBuf => pchBuf
    | .processMessages => []

structure Receiver where
  vRecv : CDataStream
  /-- What was handed to `ProcessMessage`. -/
  handed : List NetMessage
deriving DecidableEq, Repr

namespace Receiver

def init : Receiver := ⟨CDataStream.clear, []⟩

def step (r : Receiver) : ReceiveOp → Option Receiver
  | .recv pchBuf => some { r with vRecv := r.vRecv.receive pchBuf }
  | .processMessages => (processMessages r.vRecv).map fun p => ⟨p.2, r.handed ++ p.1⟩

/-- What the receiver has handed over and would hand over of the bytes it has and of those to come,
and what it would keep. -/
def outlook (r : Receiver) (bytes : List UInt8) : List NetMessage × List UInt8 :=
  (r.handed ++ (messageParser.parse (r.vRecv.contents ++ bytes)).1,
    (messageParser.parse (r.vRecv.contents ++ bytes)).2)

theorem step_outlook (r : Receiver) (op : ReceiveOp) (bytes : List UInt8) :
    ∃ r', step r op = some r' ∧ r'.outlook bytes = r.outlook (received [op] ++ bytes) := by
  cases op with
  | recv pchBuf =>
    refine ⟨_, rfl, ?_⟩
    unfold outlook
    simp only [CDataStream.contents_receive, received, List.flatMap_cons, List.flatMap_nil,
      List.append_nil, List.append_assoc]
  | processMessages =>
    obtain ⟨rest, hp, hrest⟩ := processMessages_eq r.vRecv
    refine ⟨⟨rest, r.handed ++ (messageParser.parse r.vRecv.contents).1⟩, ?_, ?_⟩
    · rw [step, hp]
      rfl
    · have happend := parse_append (p := messageParser) r.vRecv.contents bytes
      unfold outlook
      simp only [hrest, received, List.flatMap_cons, List.flatMap_nil, List.nil_append, happend,
        List.append_assoc]

theorem run_outlook (r : Receiver) (ops : List ReceiveOp) (bytes : List UInt8) :
    ∃ r', Run.run step r ops = some r' ∧ r'.outlook bytes = r.outlook (received ops ++ bytes) := by
  induction ops generalizing r with
  | nil => exact ⟨r, rfl, rfl⟩
  | cons op ops ih =>
    obtain ⟨r1, h1, hout1⟩ := step_outlook r op (received ops ++ bytes)
    obtain ⟨r', hrun, hout⟩ := ih r1
    refine ⟨r', Run.run_cons.mpr ⟨r1, h1, hrun⟩, ?_⟩
    rw [hout, hout1, ← List.append_assoc]
    congr 2
    simp only [received, List.flatMap_cons, List.flatMap_nil, List.append_nil]

end Receiver

/-- The messages that a receiver hands over in the course of the operations. -/
def handed (ops : List ReceiveOp) : Option (List NetMessage) :=
  (Run.run Receiver.step .init ops).map Receiver.handed

theorem handed_processMessages (ops : List ReceiveOp) :
    handed (ops ++ [.processMessages]) = some (messageParser.parse (received ops)).1 := by
  obtain ⟨r, hrun, hout⟩ := Receiver.run_outlook .init ops []
  obtain ⟨rest, hp, -⟩ := processMessages_eq r.vRecv
  have hhanded := congrArg Prod.fst hout
  simp only [Receiver.outlook, List.append_nil] at hhanded
  unfold handed
  rw [Run.run_append, hrun]
  show (Option.bind ((processMessages r.vRecv).map _) fun r' => some r').map _ = _
  rw [hp]
  exact congrArg some hhanded

/-! ## Frames -/

theorem parse_frames {ms : List NetMessage} (h : ∀ m ∈ ms, m.Valid) :
    messageParser.parse (ms.flatMap NetMessage.frame) = (ms, []) :=
  parse_flatMap rfl fun m hm => nextMessage_frame (h m hm)

/-- What is handed over does not depend on how the bytes are cut into chunks nor on when
`ProcessMessages` is called; of a stream of messages it is these messages. -/
theorem processMessages_spec :
    (∀ ops ops' : List ReceiveOp, received ops = received ops' →
      ∃ ms, handed (ops ++ [.processMessages]) = some ms ∧
        handed (ops' ++ [.processMessages]) = some ms) ∧
    ∀ (ms : List NetMessage) (ops : List ReceiveOp), (∀ m ∈ ms, m.Valid) →
      received ops = ms.flatMap NetMessage.produced →
      handed (ops ++ [.processMessages]) = some ms := by
  constructor
  · intro ops ops' h
    exact ⟨_, handed_processMessages ops, by rw [handed_processMessages, h]⟩
  · intro ms ops hms h
    have hframes : ms.flatMap NetMessage.produced = ms.flatMap NetMessage.frame :=
      List.flatMap_congr fun m _ => m.produced_eq_frame
    rw [handed_processMessages, h, hframes, parse_frames hms]

end Receiver

namespace DeliverySample

scoped instance config : NodeConfig := ⟨false, 0, false, false⟩

/-- The payload of a `ping` whose nonce starts like a message. -/
def nonce : List UInt8 := [0x42, 0xba, 0xbe, 0x56, 1, 2, 3, 4]

/-- The hashes of the payloads of the sample. -/
scoped instance hashing : ByteHashing where
  hash bytes :=
    if bytes = nonce then 0x3cfe22ee19c9b35f7e9b04c9d21525e368f0be66b27e0f60f5dad81aafc772ee
    else 0x56944c5d3f98413ef45cf54545538103cc9f298e0575820ad3591376e2e0f65d

/-- `verack` and `ping`. -/
def messages : List NetMessage :=
  [⟨[0x76, 0x65, 0x72, 0x61, 0x63, 0x6b], []⟩, ⟨[0x70, 0x69, 0x6e, 0x67], nonce⟩]

def stream : List UInt8 := messages.flatMap NetMessage.produced

/-- The cuts are inside a header, inside a message start and inside a payload. -/
def pieces : List ReceiveOp :=
  [.recv (stream.take 10), .processMessages, .recv ((stream.drop 10).take 16), .processMessages,
    .recv ((stream.drop 26).take 25), .processMessages, .recv (stream.drop 51)]

theorem valid_messages : ∀ m ∈ messages, m.Valid := by
  have hsize : nonce.length ≤ maxSize := by
    show 8 ≤ 0x02000000
    omega
  refine List.forall_mem_cons.mpr ⟨⟨by decide, by decide +kernel, Nat.zero_le _⟩, ?_⟩
  refine List.forall_mem_cons.mpr ⟨⟨by decide, by decide +kernel, hsize⟩, ?_⟩
  exact List.forall_mem_nil _

theorem processMessages_spec_sample :
    (∃ ms, handed (pieces ++ [.processMessages]) = some ms ∧
      handed ([.recv stream] ++ [.processMessages]) = some ms) ∧
    handed (pieces ++ [.processMessages]) = some messages :=
  ⟨processMessages_spec.1 pieces [.recv stream] (by decide +kernel),
    processMessages_spec.2 messages pieces valid_messages (by decide +kernel)⟩

end DeliverySample

/-! ## The sender -/

section Connection

variable [NodeConfig] [ByteHashing]

inductive SendOp where
  | push (m : NetMessage) (fDrop : Bool)
  /-- The socket takes bytes off the front of the buffer. -/
  | send (nBytes : Nat)
deriving DecidableEq, Repr

/-- The messages pushed in the course of the operations. -/
def pushed (ops : List SendOp) : List NetMessage :=
  ops.flatMap fun op =>
    match op with
    | .push m fDrop => if fDrop then [] else [m]
    | .send _ => []

structure Sender where
  node : CNode
  sent : List UInt8
deriving DecidableEq, Repr

namespace Sender

def init : Sender := ⟨CNode.new, []⟩

def step (s : Sender) : SendOp → Option Sender
  | .push m fDrop => some { s with node := s.node.pushMessage m fDrop }
  | .send nBytes =>
    if nBytes ≤ s.node.vSend.size then
      some
        { node := { s.node with vSend := s.node.vSend.eraseFront nBytes }
          sent := s.sent ++ s.node.vSend.contents.take nBytes }
    else none

/-- Between two messages: what was sent and what waits in the buffer are the frames of the messages
so far. -/
structure Sends (ms : List NetMessage) (s : Sender) : Prop where
  idle : s.node.nHeaderStart = -1
  frames : s.sent ++ s.node.vSend.contents = ms.flatMap NetMessage.frame

theorem Sends.step {ms : List NetMessage} {s s' : Sender} {op : SendOp} (hs : Sends ms s)
    (h : s.step op = some s') : Sends (ms ++ pushed [op]) s' := by
  cases op with
  | push m fDrop =>
    cases h
    cases fDrop with
    | true =>
      obtain ⟨hidle, hcontents⟩ := CNode.contents_pushMessage_drop hs.idle m
      refine ⟨hidle, ?_⟩
      show s.sent ++ CDataStream.contents _ = _
      rw [hcontents, hs.frames]
      simp [pushed]
    | false =>
      obtain ⟨hidle, hcontents⟩ := CNode.contents_pushMessage hs.idle m
      refine ⟨hidle, ?_⟩
      show s.sent ++ CDataStream.contents _ = _
      rw [hcontents, ← List.append_assoc, hs.frames]
      simp [pushed]
  | send nBytes =>
    rw [Sender.step] at h
    split at h
    · cases h
      refine ⟨hs.idle, ?_⟩
      show s.sent ++ _ ++ (s.node.vSend.eraseFront nBytes).contents = _
      rw [CDataStream.contents_eraseFront, List.append_assoc, List.take_append_drop, hs.frames]
      simp [pushed]
    · cases h

/-- The bytes sent so far are the front of the frames of the messages pushed so far. -/
theorem run_sends {ms : List NetMessage} {s s' : Sender} {ops : List SendOp} (hs : Sends ms s)
    (h : Run.run step s ops = some s') : Sends (ms ++ pushed ops) s' := by
  induction ops generalizing ms s with
  | nil =>
    cases h
    simpa [pushed] using hs
  | cons op ops ih =>
    obtain ⟨s1, h1, h2⟩ := Run.run_cons.mp h
    have hrest := ih (hs.step h1) h2
    have hcons : pushed (op :: ops) = pushed [op] ++ pushed ops := by
      rw [pushed, pushed, pushed, ← List.flatMap_append, List.singleton_append]
    rw [hcons, ← List.append_assoc]
    exact hrest

theorem sends_init : Sends [] init := ⟨rfl, rfl⟩

end Sender

variable {sops : List SendOp} {rops : List ReceiveOp} {s : Sender} {ms : List NetMessage}

/-- At any time the receiver has handed over a prefix of what the sender pushed: no message is lost
before another one, repeated or made up. -/
theorem handed_prefix_of_sent (hvalid : ∀ m ∈ pushed sops, m.Valid)
    (hs : Run.run Sender.step .init sops = some s) (hsent : received rops <+: s.sent)
    (h : handed rops = some ms) : ms <+: pushed sops := by
  have hframes := (Sender.run_sends Sender.sends_init hs).frames
  rw [List.nil_append] at hframes
  obtain ⟨more, hmore⟩ := hsent
  obtain ⟨r, hrun, hout⟩ := Receiver.run_outlook .init rops (more ++ s.node.vSend.contents)
  have hms : r.handed = ms := by
    rw [handed, hrun] at h
    exact Option.some.inj h
  have hall := congrArg Prod.fst hout
  rw [← List.append_assoc, hmore, hframes] at hall
  have hpushed :
      (Receiver.init.outlook ((pushed sops).flatMap NetMessage.frame)).1 = pushed sops := by
    show [] ++ (messageParser.parse ([] ++ _)).1 = _
    rw [List.nil_append, List.nil_append, parse_frames hvalid]
  rw [hpushed] at hall
  rw [← hms, ← hall]
  exact List.prefix_append _ _

theorem handed_of_arrived (hvalid : ∀ m ∈ pushed sops, m.Valid)
    (hs : Run.run Sender.step .init sops = some s) (hempty : s.node.vSend.contents = [])
    (hsent : received rops = s.sent) :
    handed (rops ++ [.processMessages]) = some (pushed sops) := by
  have hframes := (Sender.run_sends Sender.sends_init hs).frames
  rw [List.nil_append, hempty, List.append_nil] at hframes
  rw [handed_processMessages, hsent, hframes, parse_frames hvalid]

end Connection

end Terracoin
