import Mathlib.Data.List.Nodup
import Mathlib.Logic.Function.Basic
import Terracoin.Lib.Run

/-!
# The life of a node

The socket thread frees the nodes that it has disconnected, while other threads still work with
them. A thread that copies `vNodes` counts itself in `nRefCount`; `FindNode` returns a pointer that
nobody has counted yet, and only `nReleaseTime` keeps its node for a while. Every step here is a
section under `cs_vNodes` or what a thread does to one node outside of it, in any order; the
`nRefCount++` of `ConnectNode` is one step. A step that touches a node that was freed is impossible.
-/

namespace Terracoin.NodeLife

variable {A O : Type}

/-- What decides about the life of a node. -/
structure CNode (A : Type) where
  addr : A
  hSocket : Option Nat
  fInbound : Bool
  vSend : List UInt8
  vRecv : List UInt8 := []
  fNetworkNode : Bool := false
  fOneShot : Bool := false
  fDisconnect : Bool := false
  nRefCount : Int := 0
  nReleaseTime : Int := 0

namespace CNode

def getRefCount (now : Int) (pnode : CNode A) : Int :=
  max pnode.nRefCount 0 + if now < pnode.nReleaseTime then 1 else 0

/-- `AddRef` without a timeout, as all callers have it. -/
def addRef (pnode : CNode A) : CNode A := { pnode with nRefCount := pnode.nRefCount + 1 }

def release (pnode : CNode A) : CNode A := { pnode with nRefCount := pnode.nRefCount - 1 }

def closeSocketDisconnect (pnode : CNode A) : CNode A :=
  { pnode with
    fDisconnect := true
    vRecv := if pnode.hSocket.isSome then [] else pnode.vRecv
    hSocket := none }

/-- The node that the first pass of the socket thread takes from `vNodes`. -/
def disconnect (now : Int) (pnode : CNode A) : CNode A :=
  let pnode := pnode.closeSocketDisconnect
  let pnode := { pnode with nReleaseTime := max pnode.nReleaseTime (now + 15 * 60) }
  if pnode.fNetworkNode || pnode.fInbound then pnode.release else pnode

def unused (now : Int) (pnode : CNode A) : Bool :=
  pnode.fDisconnect ||
    (decide (pnode.getRefCount now ≤ 0) && pnode.vRecv.isEmpty && pnode.vSend.isEmpty)

end CNode

/-- The threads that work on a copy of `vNodes`. -/
inductive Thread where
  | socketHandler
  | messageHandler
deriving DecidableEq

/-- Where a call of `OpenNetworkConnection` or `ConnectNode` is. The times are not in the code: they
say when the node was found, or marked. -/
inductive Opening where
  | idle
  /-- `FindNode` has returned the node. -/
  | found (p : Nat) (since : Int)
  /-- `AddRef` was called for the node that was found. -/
  | added (p : Nat)
  /-- The node is new and not in `vNodes` yet. -/
  | created (p : Nat)
  /-- The new node is in `vNodes`. -/
  | connected (p : Nat)
  /-- `fNetworkNode` is set, and `fOneShot` is not. -/
  | marked (p : Nat) (since : Int)

/-- When the node was found that has no reference of the call yet. -/
def Opening.foundAt : Opening → Option Int
  | .found _ since => some since
  | _ => none

def Opening.markedAt : Opening → Option Int
  | .marked _ since => some since
  | _ => none

structure Nodes (A O : Type) where
  now : Int
  /-- The nodes in memory. -/
  heap : Nat → Option (CNode A)
  next : Nat
  vNodes : List Nat
  vNodesDisconnected : List Nat
  vNodesCopy : Thread → List Nat
  opening : O → Opening

namespace Nodes

def init (now : Int) : Nodes A O :=
  ⟨now, fun _ => none, 0, [], [], fun _ => [], fun _ => .idle⟩

/-- A write to a node, if it is still there. -/
def modify (s : Nodes A O) (p : Nat) (f : CNode A → CNode A) : Option (Nodes A O) :=
  (s.heap p).map fun pnode => { s with heap := Function.update s.heap p (some (f pnode)) }

def modifyAll (s : Nodes A O) (ps : List Nat) (f : CNode A → CNode A) : Option (Nodes A O) :=
  ps.foldlM (fun s p => s.modify p f) s

def findNode [DecidableEq A] (heap : Nat → Option (CNode A)) (addr : A) :
    List Nat → Option (Option Nat)
  | [] => some none
  | p :: ps => (heap p).bind fun pnode =>
    if pnode.addr = addr then some (some p) else findNode heap addr ps

/-- A new node with the reference of its creator. -/
def create (s : Nodes A O) (addr : A) (hSocket : Nat) (fInbound : Bool) (vSend : List UInt8) :
    Nodes A O :=
  let pnode : CNode A := { addr, hSocket := some hSocket, fInbound, vSend }
  { s with
    heap := Function.update s.heap s.next (some pnode.addRef)
    next := s.next + 1 }

def push (s : Nodes A O) (p : Nat) : Nodes A O := { s with vNodes := s.vNodes ++ [p] }

def setOpening [DecidableEq O] (s : Nodes A O) (o : O) (phase : Opening) : Nodes A O :=
  { s with opening := Function.update s.opening o phase }

def setCopy (s : Nodes A O) (t : Thread) (ps : List Nat) : Nodes A O :=
  { s with vNodesCopy := Function.update s.vNodesCopy t ps }

def disconnectNode (s : Nodes A O) (p : Nat) : Option (Nodes A O) :=
  (s.heap p).bind fun pnode =>
    if pnode.unused s.now then
      { s with
        vNodes := s.vNodes.filter (· ≠ p)
        vNodesDisconnected := s.vNodesDisconnected ++ [p] }.modify p (CNode.disconnect s.now)
    else some s

/-- Delete one disconnected node, if it has no references and its locks could be taken. -/
def deleteNode (locked : Nat → Bool) (s : Nodes A O) (p : Nat) : Option (Nodes A O) :=
  (s.heap p).bind fun pnode =>
    if pnode.getRefCount s.now ≤ 0 ∧ locked p then
      some { s with
        heap := Function.update s.heap p none
        vNodesDisconnected := s.vNodesDisconnected.filter (· ≠ p) }
    else some s

/-- The section at the head of the loop of `ThreadSocketHandler2`. -/
def disconnectNodes (s : Nodes A O) (locked : Nat → Bool) : Option (Nodes A O) :=
  (s.vNodes.foldlM disconnectNode s).bind fun s =>
    s.vNodesDisconnected.foldlM (deleteNode locked) s

/-! ## The steps of all threads -/

/-- What a thread may do to a node whose pointer it has: read and write its buffers, ask for the
disconnection and close the socket. -/
structure Io where
  vSend : List UInt8
  vRecv : List UInt8
  fDisconnect : Bool
  close : Bool

def Io.apply (io : Io) (pnode : CNode A) : CNode A :=
  let pnode := { pnode with
    vSend := io.vSend, vRecv := io.vRecv, fDisconnect := pnode.fDisconnect || io.fDisconnect }
  if io.close then pnode.closeSocketDisconnect else pnode

inductive Act (A O : Type) where
  | tick (n : Nat)
  | accept (addr : A) (hSocket : Nat)
  | disconnectNodes (locked : Nat → Bool)
  /-- Under the lock, with a node of `vNodes`. -/
  | visit (p : Nat) (io : Io)
  | copy (t : Thread)
  /-- Without the lock, with a node of the copy. -/
  | use (t : Thread) (p : Nat) (io : Io)
  | drop (t : Thread)
  | find (o : O) (addr : A)
  | addRef (o : O)
  | create (o : O) (addr : A) (hSocket : Nat) (version : List UInt8)
  | push (o : O)
  | mark (o : O)
  | oneShot (o : O) (fOneShot : Bool)
  /-- A return without the mark: at a shutdown, or from `addnode onetry`. -/
  | leave (o : O)

section Step

variable [DecidableEq A] [DecidableEq O]

/-- One step. A step that its thread cannot take now changes nothing. -/
def step (s : Nodes A O) : Act A O → Option (Nodes A O)
  | .tick n => some { s with now := s.now + n }
  | .accept addr hSocket => some ((s.create addr hSocket true []).push s.next)
  | .disconnectNodes locked => s.disconnectNodes locked
  | .visit p io => if p ∈ s.vNodes then s.modify p io.apply else some s
  | .copy t =>
    if s.vNodesCopy t = [] then (s.setCopy t s.vNodes).modifyAll s.vNodes CNode.addRef else some s
  | .use t p io => if p ∈ s.vNodesCopy t then s.modify p io.apply else some s
  | .drop t => (s.setCopy t []).modifyAll (s.vNodesCopy t) CNode.release
  | .find o addr =>
    match s.opening o with
    | .idle => (findNode s.heap addr s.vNodes).map fun
      | some p => s.setOpening o (.found p s.now)
      | none => s
    | _ => some s
  | .addRef o =>
    match s.opening o with
    | .found p _ => (s.setOpening o (.added p)).modify p CNode.addRef
    | _ => some s
  | .create o addr hSocket version =>
    match s.opening o with
    | .idle => some ((s.create addr hSocket false version).setOpening o (.created s.next))
    | _ => some s
  | .push o =>
    match s.opening o with
    | .created p => some ((s.push p).setOpening o (.connected p))
    | _ => some s
  | .mark o =>
    match s.opening o with
    | .added p | .connected p =>
      (s.setOpening o (.marked p s.now)).modify p fun pnode => { pnode with fNetworkNode := true }
    | _ => some s
  | .oneShot o fOneShot =>
    match s.opening o with
    | .marked p _ => (s.setOpening o .idle).modify p fun pnode =>
      { pnode with fOneShot := pnode.fOneShot || fOneShot }
    | _ => some s
  | .leave o =>
    match s.opening o with
    | .added _ | .connected _ => some (s.setOpening o .idle)
    | _ => some s

end Step

/-- The two writes through a pointer that no reference protects come within 15 minutes. -/
def Timely (s : Nodes A O) : Act A O → Prop
  | .addRef o => ∀ since ∈ (s.opening o).foundAt, s.now < since + 15 * 60
  | .oneShot o _ => ∀ since ∈ (s.opening o).markedAt, s.now < since + 15 * 60
  | _ => True

instance (s : Nodes A O) : ∀ act, Decidable (s.Timely act)
  | .addRef _ | .oneShot _ _ => inferInstanceAs (Decidable (∀ since ∈ _, _))
  | .tick _ | .accept _ _ | .disconnectNodes _ | .visit _ _ | .copy _ | .use _ _ _ | .drop _
  | .find _ _ | .create _ _ _ _ | .push _ | .mark _ | .leave _ => .isTrue trivial

end Nodes

end Terracoin.NodeLife
