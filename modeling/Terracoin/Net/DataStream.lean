import Mathlib.Data.List.Basic
import Mathlib.Order.Basic

/-!
# `CDataStream`

A vector of bytes with a read position. Reading and erasing at the front only move the position,
inserting at the front moves it back when there is room, and the vector is cleared when the reader
reaches its end. The lemmas say what each operation does to `contents`, the bytes from `begin()` to
`end()`, and hide the position.

The socket handler disconnects a peer before the vector comes near `2^32` bytes, so positions and
sizes are natural numbers.
-/

namespace Terracoin

/-- `memcpy` of `bytes` to position `i` of a buffer. -/
def overwrite (l : List UInt8) (i : Nat) (bytes : List UInt8) : List UInt8 :=
  l.take i ++ bytes ++ l.drop (i + bytes.length)

theorem length_le_overwrite (l : List UInt8) (i : Nat) (bytes : List UInt8) :
    l.length ≤ (overwrite l i bytes).length := by
  simp only [overwrite, List.length_append, List.length_take, List.length_drop]
  omega

theorem overwrite_append_right (a b bytes : List UInt8) (i : Nat) :
    overwrite (a ++ b) (a.length + i) bytes = a ++ overwrite b i bytes := by
  unfold overwrite
  rw [List.take_append, List.take_of_length_le (by omega), Nat.add_assoc, List.drop_append,
    List.drop_eq_nil_of_le (by omega)]
  simp

theorem overwrite_piece {a b c bytes : List UInt8} {i : Nat} (hi : i = a.length)
    (h : bytes.length = b.length) : overwrite (a ++ (b ++ c)) i bytes = a ++ (bytes ++ c) := by
  subst hi
  have h0 := overwrite_append_right a (b ++ c) bytes 0
  rw [Nat.add_zero] at h0
  rw [h0, overwrite, Nat.zero_add, h, List.drop_left]
  rfl

/-- An array of `n` bytes. -/
abbrev Bytes (n : Nat) := {bytes : List UInt8 // bytes.length = n}

structure CDataStream where
  vch : List UInt8
  nReadPos : Nat
  nReadPos_le : nReadPos ≤ vch.length
deriving DecidableEq, Repr

namespace CDataStream

def ofBytes (vch : List UInt8) : CDataStream := ⟨vch, 0, Nat.zero_le _⟩

/-- The bytes from `begin()` to `end()`. -/
def contents (s : CDataStream) : List UInt8 := s.vch.drop s.nReadPos

def size (s : CDataStream) : Nat := s.vch.length - s.nReadPos

def isEmpty (s : CDataStream) : Bool := s.vch.length = s.nReadPos

def clear : CDataStream := ofBytes []

/-- The operations that move the read position up to `nReadPosNext` clear a vector of which nothing
is left. -/
def moveTo (s : CDataStream) (nReadPosNext : Nat) : CDataStream :=
  if h : nReadPosNext < s.vch.length then ⟨s.vch, nReadPosNext, Nat.le_of_lt h⟩ else clear

def resize (s : CDataStream) (n : Nat) : CDataStream where
  vch := s.vch.take (n + s.nReadPos) ++ List.replicate (n + s.nReadPos - s.vch.length) 0
  nReadPos := s.nReadPos
  nReadPos_le := by
    have := s.nReadPos_le
    simp only [List.length_append, List.length_take, List.length_replicate]
    omega

/-- `memcpy(&s[pos], ..)`. -/
def set (s : CDataStream) (pos : Nat) (bytes : List UInt8) : CDataStream where
  vch := overwrite s.vch (pos + s.nReadPos) bytes
  nReadPos := s.nReadPos
  nReadPos_le := Nat.le_trans s.nReadPos_le (length_le_overwrite _ _ _)

def insertFront (s : CDataStream) (bytes : List UInt8) : CDataStream :=
  if bytes.length ≤ s.nReadPos then
    -- there is room in front of the read position
    { vch := overwrite s.vch (s.nReadPos - bytes.length) bytes
      nReadPos := s.nReadPos - bytes.length
      nReadPos_le := by
        have := length_le_overwrite s.vch (s.nReadPos - bytes.length) bytes
        have := s.nReadPos_le
        omega }
  else
    { vch := s.vch.take s.nReadPos ++ bytes ++ s.vch.drop s.nReadPos
      nReadPos := s.nReadPos
      nReadPos_le := by
        have := s.nReadPos_le
        simp only [List.length_append, List.length_take, List.length_drop]
        omega }

/-- `erase(begin(), begin() + n)`. -/
def eraseFront (s : CDataStream) (n : Nat) : CDataStream := s.moveTo (s.nReadPos + n)

def compact (s : CDataStream) : CDataStream := ofBytes (s.vch.drop s.nReadPos)

/-- `read`, which throws if there are not enough bytes. -/
def read (s : CDataStream) (nSize : Nat) : Option (Bytes nSize × CDataStream) :=
  if h : s.vch.length < s.nReadPos + nSize then none
  else
    some (⟨s.contents.take nSize, by
        simp only [contents, List.length_take, List.length_drop]
        omega⟩,
      s.moveTo (s.nReadPos + nSize))

/-- `ignore`, which throws if there are not enough bytes. -/
def ignore (s : CDataStream) (nSize : Nat) : Option CDataStream :=
  if s.vch.length < s.nReadPos + nSize then none else some (s.moveTo (s.nReadPos + nSize))

def write (s : CDataStream) (bytes : List UInt8) : CDataStream where
  vch := s.vch ++ bytes
  nReadPos := s.nReadPos
  nReadPos_le := by
    have := s.nReadPos_le
    rw [List.length_append]
    omega

/-- What the socket handler does with the bytes it received. -/
def receive (s : CDataStream) (pchBuf : List UInt8) : CDataStream :=
  (s.resize (s.size + pchBuf.length)).set s.size pchBuf

/-! ## The contents -/

variable {s : CDataStream} {n pos : Nat} {bytes : List UInt8}

@[simp] theorem length_contents (s : CDataStream) : s.contents.length = s.size := List.length_drop

@[simp] theorem contents_ofBytes (bytes : List UInt8) : (ofBytes bytes).contents = bytes := rfl

theorem isEmpty_iff : s.isEmpty = true ↔ s.contents = [] := by
  have := s.nReadPos_le
  rw [← List.length_eq_zero_iff, length_contents]
  simp only [isEmpty, size, decide_eq_true_eq]
  omega

theorem vch_eq (s : CDataStream) : s.vch = s.vch.take s.nReadPos ++ s.contents :=
  (List.take_append_drop _ _).symm

theorem length_take_nReadPos (s : CDataStream) : (s.vch.take s.nReadPos).length = s.nReadPos := by
  rw [List.length_take]
  exact Nat.min_eq_left s.nReadPos_le

theorem contents_moveTo (s : CDataStream) (n : Nat) :
    (s.moveTo (s.nReadPos + n)).contents = s.contents.drop n := by
  unfold moveTo contents
  split
  · rw [List.drop_drop]
  · rename_i h
    rw [List.drop_drop, List.drop_eq_nil_of_le (Nat.not_lt.mp h)]
    rfl

theorem contents_eraseFront (s : CDataStream) (n : Nat) :
    (s.eraseFront n).contents = s.contents.drop n := contents_moveTo s n

theorem contents_compact (s : CDataStream) : s.compact.contents = s.contents := rfl

theorem read_of_le {c : List UInt8} (hc : s.contents = c) (h : n ≤ c.length) :
    ∃ s', s.read n = some (⟨c.take n, List.length_take_of_le h⟩, s') ∧ s'.contents = c.drop n := by
  subst hc
  refine ⟨s.moveTo (s.nReadPos + n), ?_, contents_moveTo s n⟩
  have := s.nReadPos_le
  rw [length_contents, size] at h
  rw [read, dif_neg (by omega)]

theorem ignore_of_le {c : List UInt8} (hc : s.contents = c) (h : n ≤ c.length) :
    ∃ s', s.ignore n = some s' ∧ s'.contents = c.drop n := by
  subst hc
  refine ⟨s.moveTo (s.nReadPos + n), ?_, contents_moveTo s n⟩
  have := s.nReadPos_le
  rw [length_contents, size] at h
  rw [ignore, if_neg (by omega)]

theorem contents_write (s : CDataStream) (bytes : List UInt8) :
    (s.write bytes).contents = s.contents ++ bytes :=
  List.drop_append_of_le_length s.nReadPos_le

theorem contents_insertFront (s : CDataStream) (bytes : List UInt8) :
    (s.insertFront bytes).contents = bytes ++ s.contents := by
  have hle := s.nReadPos_le
  unfold insertFront contents
  split
  · rename_i h
    show (overwrite s.vch (s.nReadPos - bytes.length) bytes).drop (s.nReadPos - bytes.length) = _
    unfold overwrite
    rw [show s.nReadPos - bytes.length + bytes.length = s.nReadPos by omega, List.append_assoc,
      List.drop_append, List.drop_eq_nil_of_le (by rw [List.length_take]; omega), List.length_take,
      show s.nReadPos - bytes.length - min (s.nReadPos - bytes.length) s.vch.length = 0 by omega]
    rfl
  · show (s.vch.take s.nReadPos ++ bytes ++ s.vch.drop s.nReadPos).drop s.nReadPos = _
    rw [List.append_assoc, List.drop_append,
      List.drop_eq_nil_of_le (by rw [List.length_take]; omega), List.length_take,
      Nat.min_eq_left hle, Nat.sub_self]
    rfl

theorem contents_resize (s : CDataStream) (n : Nat) :
    (s.resize n).contents = s.contents.take n ++ List.replicate (n - s.size) 0 := by
  have hle := s.nReadPos_le
  unfold resize contents size
  show (s.vch.take (n + s.nReadPos) ++ List.replicate (n + s.nReadPos - s.vch.length) 0).drop
    s.nReadPos = _
  rw [Nat.add_comm, List.drop_append_of_le_length (by rw [List.length_take]; omega),
    ← List.take_drop, show s.nReadPos + n - s.vch.length = n - (s.vch.length - s.nReadPos) by omega]

theorem contents_set (s : CDataStream) (pos : Nat) (bytes : List UInt8) :
    (s.set pos bytes).contents = overwrite s.contents pos bytes := by
  have h : (s.set pos bytes).vch = s.vch.take s.nReadPos ++ overwrite s.contents pos bytes := by
    have h1 := overwrite_append_right (s.vch.take s.nReadPos) s.contents bytes pos
    rw [← vch_eq, length_take_nReadPos, Nat.add_comm] at h1
    exact h1
  show (s.set pos bytes).vch.drop s.nReadPos = _
  rw [h]
  exact List.drop_left' (length_take_nReadPos s)

theorem contents_receive (s : CDataStream) (pchBuf : List UInt8) :
    (s.receive pchBuf).contents = s.contents ++ pchBuf := by
  unfold receive
  rw [contents_set, contents_resize, List.take_of_length_le (by rw [length_contents]; omega),
    ← length_contents, Nat.add_sub_cancel_left, ← Nat.add_zero s.contents.length,
    overwrite_append_right]
  unfold overwrite
  rw [List.drop_eq_nil_of_le (by rw [List.length_replicate]; omega)]
  simp

end CDataStream

end Terracoin
