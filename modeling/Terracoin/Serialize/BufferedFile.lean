import Terracoin.Lib.RingWindow

/-!
# A file with a ring buffer

`CBufferedFile` of `serialize.h`: bytes of a file are read by way of a ring buffer, so that the
reader can go back. Positions are taken to stay below `2^64`, and reading the file does not fail
before its end.

Every byte that is read is the byte of the file at the position that is reported. But the class does
not guarantee to go back `nRewind` bytes, as it says: the source may have been read ahead, and
`SetPos` counts from there (`bufferedFile_iff`).
-/

namespace Terracoin

open RingWindow

/-- How a call ends. -/
inductive StreamResult (α : Type) where
  | ok (a : α)
  /-- A `std::ios_base::failure`. -/
  | thrown
  /-- The call does not return. -/
  | stuck
deriving DecidableEq, Repr

structure CBufferedFile where
  /-- The bytes of the source file. -/
  src : List UInt8
  /-- `feof(src)`. -/
  fEof : Bool
  nSrcPos : Nat
  nReadPos : Nat
  /-- None is `(uint64)(-1)`. -/
  nReadLimit : Option Nat
  nRewind : Nat
  /-- `vchBuf.size()`. -/
  nBufSize : Nat
  vchBuf : Nat → UInt8
  /-- `state` has the `failbit`. -/
  fFail : Bool

namespace CBufferedFile

def new (src : List UInt8) (nBufSize nRewindIn : Nat) : CBufferedFile where
  src := src
  fEof := false
  nSrcPos := 0
  nReadPos := 0
  nReadLimit := none
  nRewind := nRewindIn
  nBufSize := nBufSize
  vchBuf := fun _ => 0
  fFail := false

/-- The first half of `Fill`: what it asks for. `pos`, `readNow` and `nAvail` are of type
`unsigned int`. -/
def readNow (f : CBufferedFile) : Nat :=
  let pos := f.nSrcPos % f.nBufSize % 2 ^ 32
  let readNow := (f.nBufSize - pos) % 2 ^ 32
  let nAvail :=
    (((f.nBufSize : Int) - ((f.nSrcPos : Int) - f.nReadPos) - f.nRewind) % 2 ^ 32).toNat
  if nAvail < readNow then nAvail else readNow

/-- `Fill`; none if it throws. -/
def fill (f : CBufferedFile) : Option Bool × CBufferedFile :=
  let pos := f.nSrcPos % f.nBufSize % 2 ^ 32
  if f.readNow = 0 then (some false, f)
  else
    -- `fread`
    let bytes := (f.src.drop f.nSrcPos).take f.readNow
    let fEof := f.fEof || bytes.length < f.readNow
    if bytes.length = 0 then (none, { f with fEof := fEof, fFail := true })
    else (some true, { f with
      fEof := fEof
      vchBuf := store f.vchBuf pos bytes
      nSrcPos := f.nSrcPos + bytes.length })

def good (f : CBufferedFile) : Bool := !f.fFail

def eof (f : CBufferedFile) : Bool := f.nReadPos = f.nSrcPos && f.fEof

/-- `Fill` is called if everything has been read. -/
def fillIfRead (f : CBufferedFile) : Option Bool × CBufferedFile :=
  if f.nReadPos = f.nSrcPos then f.fill else (some true, f)

/-- `nNow`: how many bytes `read` copies at once. -/
def nNow (f : CBufferedFile) (nSize : Nat) : Nat :=
  let pos := f.nReadPos % f.nBufSize % 2 ^ 32
  let nNow := if nSize + pos > f.nBufSize then f.nBufSize - pos else nSize
  if nNow + f.nReadPos > f.nSrcPos then f.nSrcPos - f.nReadPos else nNow

/-- The loop of `read`; every round reads a byte at least, so `nSize` rounds are enough. -/
def readLoop : Nat → CBufferedFile → Nat → List UInt8 →
    StreamResult (List UInt8) × CBufferedFile
  | 0, f, _, pch => (.ok pch, f)
  | fuel + 1, f, nSize, pch =>
    if nSize = 0 then (.ok pch, f)
    else
      match f.fillIfRead with
      | (none, f) => (.thrown, f)
      | (some _, f) =>
        -- nothing changes any more, or `nNow` has gone below zero
        if f.nNow nSize = 0 then (.stuck, f)
        else
          readLoop fuel { f with nReadPos := f.nReadPos + f.nNow nSize } (nSize - f.nNow nSize)
            (pch ++ cells f.vchBuf (f.nReadPos % f.nBufSize % 2 ^ 32) (f.nNow nSize))

def read (f : CBufferedFile) (nSize : Nat) : StreamResult (List UInt8) × CBufferedFile :=
  if f.nReadLimit.any (· < nSize + f.nReadPos) then (.thrown, f)
  else if nSize + f.nRewind > f.nBufSize then (.thrown, f)
  else readLoop nSize f nSize []

def getPos (f : CBufferedFile) : Nat := f.nReadPos

def setPos (f : CBufferedFile) (nPos : Nat) : Bool × CBufferedFile :=
  if nPos + f.nRewind < f.nSrcPos then (false, { f with nReadPos := f.nSrcPos - f.nRewind })
  else if nPos > f.nSrcPos then (false, { f with nReadPos := f.nSrcPos })
  else (true, { f with nReadPos := nPos })

def setLimit (f : CBufferedFile) (nPos : Option Nat) : Bool × CBufferedFile :=
  if nPos.any (· < f.nReadPos) then (false, f) else (true, { f with nReadLimit := nPos })

/-- The loop of `FindByte`. When the source has no more bytes the same cells come again. -/
def findByteLoop (ch : UInt8) : Nat → CBufferedFile → StreamResult Unit × CBufferedFile
  | 0, f => (.stuck, f)
  | fuel + 1, f =>
    match f.fillIfRead with
    | (none, f) => (.thrown, f)
    | (some _, f) =>
      if f.vchBuf (f.nReadPos % f.nBufSize) = ch then (.ok (), f)
      else findByteLoop ch fuel { f with nReadPos := f.nReadPos + 1 }

def findByte (f : CBufferedFile) (ch : UInt8) : StreamResult Unit × CBufferedFile :=
  findByteLoop ch (f.src.length + f.nBufSize + 1) f

/-! ## The invariant -/

/-- The buffer has the last `nBufSize` bytes that were read from the source. -/
structure Valid (f : CBufferedFile) : Prop where
  rewind_lt : f.nRewind < f.nBufSize
  src_le : f.nSrcPos ≤ f.src.length
  window : Window f.vchBuf f.nBufSize f.src f.nSrcPos
  ahead : f.nSrcPos ≤ f.nReadPos + f.nBufSize
  /-- A buffer that is too large for an `unsigned int` is not filled so far. -/
  small : f.nBufSize < 2 ^ 32 ∨ f.nSrcPos ≤ f.nBufSize % 2 ^ 32

/-- What no call but `SetLimit` changes. -/
structure SameFile (f f' : CBufferedFile) : Prop where
  src : f'.src = f.src
  nRewind : f'.nRewind = f.nRewind
  nBufSize : f'.nBufSize = f.nBufSize
  nReadLimit : f'.nReadLimit = f.nReadLimit

variable {f f' f'' : CBufferedFile}

theorem SameFile.refl (f : CBufferedFile) : SameFile f f := ⟨rfl, rfl, rfl, rfl⟩

theorem SameFile.trans (h : SameFile f f') (h' : SameFile f' f'') : SameFile f f'' where
  src := h'.src.trans h.src
  nRewind := h'.nRewind.trans h.nRewind
  nBufSize := h'.nBufSize.trans h.nBufSize
  nReadLimit := h'.nReadLimit.trans h.nReadLimit

theorem valid_new {src : List UInt8} {nBufSize nRewindIn : Nat} (h : nRewindIn < nBufSize) :
    (new src nBufSize nRewindIn).Valid where
  rewind_lt := h
  src_le := Nat.zero_le _
  window := window_zero _ _ _
  ahead := Nat.zero_le _
  small := Or.inr (Nat.zero_le _)

theorem Valid.mod_eq (hv : f.Valid) {i : Nat} (hi : i ≤ f.nSrcPos) :
    i % f.nBufSize % 2 ^ 32 = i % f.nBufSize := by
  have hpos : 0 < f.nBufSize := Nat.zero_lt_of_lt hv.rewind_lt
  refine Nat.mod_eq_of_lt ?_
  rcases hv.small with hsmall | hsmall
  · exact lt_trans (Nat.mod_lt i hpos) hsmall
  · exact lt_of_le_of_lt (le_trans (Nat.mod_le i _) (le_trans hi hsmall)) (Nat.mod_lt _ (by decide))

theorem Valid.setReadPos (hv : f.Valid) {nPos : Nat} (h : f.nSrcPos ≤ nPos + f.nBufSize) :
    { f with nReadPos := nPos }.Valid where
  rewind_lt := hv.rewind_lt
  src_le := hv.src_le
  window := hv.window
  ahead := h
  small := hv.small

/-! ## What `Fill` does -/

theorem Valid.readNow_le (hv : f.Valid) :
    f.readNow ≤ (f.nBufSize - f.nSrcPos % f.nBufSize) % 2 ^ 32 := by
  unfold readNow
  rw [hv.mod_eq (Nat.le_refl f.nSrcPos)]
  dsimp only
  split
  · next h => exact Nat.le_of_lt h
  · exact Nat.le_refl _

theorem Valid.pos_add_readNow (hv : f.Valid) :
    f.nSrcPos % f.nBufSize + f.readNow ≤ f.nBufSize := by
  have hlt : f.nSrcPos % f.nBufSize < f.nBufSize := Nat.mod_lt _ (Nat.zero_lt_of_lt hv.rewind_lt)
  have hle := hv.readNow_le
  have hsub := Nat.mod_le (f.nBufSize - f.nSrcPos % f.nBufSize) (2 ^ 32)
  omega

theorem Valid.small_readNow (hv : f.Valid) :
    f.nBufSize < 2 ^ 32 ∨ f.nSrcPos + f.readNow ≤ f.nBufSize % 2 ^ 32 := by
  by_cases hlarge : f.nBufSize < 2 ^ 32
  · exact Or.inl hlarge
  · have hsmall := hv.small.resolve_left hlarge
    have hle := hv.readNow_le
    have hself : f.nSrcPos % f.nBufSize = f.nSrcPos := Nat.mod_eq_of_lt (by omega)
    rw [hself] at hle
    exact Or.inr (by omega)

theorem Valid.readNow_pos (hv : f.Valid) (hsmall : f.nBufSize < 2 ^ 32)
    (hread : f.nReadPos = f.nSrcPos) : 0 < f.readNow := by
  have hlt : f.nSrcPos % f.nBufSize < f.nBufSize := Nat.mod_lt _ (Nat.zero_lt_of_lt hv.rewind_lt)
  have hrewind := hv.rewind_lt
  unfold readNow
  rw [hv.mod_eq (Nat.le_refl f.nSrcPos), hread]
  dsimp only
  split
  · omega
  · omega

/-- `Fill`, when everything has been read: it has no room, it is at the end of the file and throws,
or it reads some bytes. -/
inductive Filled (f : CBufferedFile) : Option Bool × CBufferedFile → Prop
  | full (large : 2 ^ 32 ≤ f.nBufSize) : Filled f (some false, f)
  | atEnd (fEof : Bool) (length_eq : f.src.length = f.nSrcPos) :
    Filled f (none, { f with fEof := fEof, fFail := true })
  | some {f' : CBufferedFile} (valid : f'.Valid) (same : SameFile f f')
    (nReadPos : f'.nReadPos = f.nReadPos) (nSrcPos : f.nSrcPos < f'.nSrcPos)
    (fFail : f'.fFail = f.fFail) : Filled f (some true, f')

theorem filled (hv : f.Valid) (hread : f.nReadPos = f.nSrcPos) : Filled f f.fill := by
  rw [fill]
  dsimp only
  split
  · next hzero =>
    refine .full (Nat.le_of_not_lt fun hsmall => ?_)
    exact absurd hzero (hv.readNow_pos hsmall hread).ne'
  · next hroom =>
    have hlength : ((f.src.drop f.nSrcPos).take f.readNow).length
        = min f.readNow (f.src.length - f.nSrcPos) := by
      rw [List.length_take, List.length_drop]
    have hsrc := hv.src_le
    have hpos := hv.pos_add_readNow
    split
    · next hnone => exact .atEnd _ (by omega)
    · next hsome =>
      refine .some ⟨hv.rewind_lt, ?_, ?_, ?_, ?_⟩ ⟨rfl, rfl, rfl, rfl⟩ rfl ?_ rfl
      · change f.nSrcPos + _ ≤ f.src.length
        omega
      · rw [hv.mod_eq (Nat.le_refl f.nSrcPos)]
        exact hv.window.store (List.prefix_iff_eq_take.mp (List.take_prefix _ _)) (by omega)
      · change f.nSrcPos + _ ≤ f.nReadPos + f.nBufSize
        omega
      · exact hv.small_readNow.imp_right fun hsmall => by
          change f.nSrcPos + _ ≤ f.nBufSize % 2 ^ 32
          omega
      · change f.nSrcPos < f.nSrcPos + _
        omega

/-! ## Reading -/

/-- What a call that reads keeps, while the read position is not beyond the source. -/
structure Keeps (f f' : CBufferedFile) : Prop where
  valid : f'.Valid
  same : SameFile f f'
  le : f.nReadPos ≤ f'.nReadPos
  read_le : f'.nReadPos ≤ f'.nSrcPos

theorem Keeps.trans (h : Keeps f f') (h' : Keeps f' f'') : Keeps f f'' :=
  ⟨h'.valid, h.same.trans h'.same, Nat.le_trans h.le h'.le, h'.read_le⟩

/-- The buffer is filled if everything has been read. -/
inductive Supplied (f : CBufferedFile) : Option Bool × CBufferedFile → Prop
  | full (large : 2 ^ 32 ≤ f.nBufSize) (read_eq : f.nReadPos = f.nSrcPos) :
    Supplied f (some false, f)
  | atEnd {f' : CBufferedFile} (keeps : Keeps f f') (length_eq : f.src.length = f.nReadPos)
    (fFail : f'.fFail = true) : Supplied f (none, f')
  | some {f' : CBufferedFile} (keeps : Keeps f f') (nReadPos : f'.nReadPos = f.nReadPos)
    (lt : f'.nReadPos < f'.nSrcPos) (fFail : f'.fFail = f.fFail) : Supplied f (some true, f')

theorem supplied (hv : f.Valid) (hle : f.nReadPos ≤ f.nSrcPos) : Supplied f f.fillIfRead := by
  rw [fillIfRead]
  split
  · next hread =>
    have hfilled := filled hv hread
    revert hfilled
    generalize f.fill = r
    intro hfilled
    cases hfilled with
    | full large => exact .full large hread
    | atEnd fEof length_eq =>
      refine .atEnd ⟨⟨hv.rewind_lt, hv.src_le, hv.window, hv.ahead, hv.small⟩, ⟨rfl, rfl, rfl, rfl⟩,
        Nat.le_refl _, hle⟩ (length_eq.trans hread.symm) rfl
    | some valid same nReadPos nSrcPos fFail =>
      have hlt : _ < _ := nReadPos.trans_lt (hread.trans_lt nSrcPos)
      exact .some ⟨valid, same, nReadPos.ge, hlt.le⟩ nReadPos hlt fFail
  · next hne =>
    exact .some ⟨hv, .refl f, Nat.le_refl _, hle⟩ rfl (Nat.lt_of_le_of_ne hle hne) rfl

/-- How reading `nSize` more bytes after `pch` ends: with the next bytes of the file, or at the end of
the file. -/
inductive ReadsFrom (f : CBufferedFile) (nSize : Nat) (pch : List UInt8) :
    StreamResult (List UInt8) × CBufferedFile → Prop
  | ok {f' : CBufferedFile} (keeps : Keeps f f') (nReadPos : f'.nReadPos = f.nReadPos + nSize)
    (fFail : f'.fFail = f.fFail) :
    ReadsFrom f nSize pch (.ok (pch ++ (f.src.drop f.nReadPos).take nSize), f')
  | thrown {f' : CBufferedFile} (keeps : Keeps f f') (lt : f.src.length < f.nReadPos + nSize)
    (fFail : f'.fFail = true) : ReadsFrom f nSize pch (.thrown, f')
  | stuck {f' : CBufferedFile} (large : 2 ^ 32 ≤ f.nBufSize) : ReadsFrom f nSize pch (.stuck, f')

theorem ReadsFrom.step {nSize nNow : Nat} {pch : List UInt8}
    {r : StreamResult (List UInt8) × CBufferedFile} (hle : nNow ≤ nSize) (hkeeps : Keeps f f')
    (hpos : f'.nReadPos = f.nReadPos + nNow) (hfail : f'.fFail = f.fFail)
    (h : ReadsFrom f' (nSize - nNow) (pch ++ (f.src.drop f.nReadPos).take nNow) r) :
    ReadsFrom f nSize pch r := by
  have hsrc := hkeeps.same.src
  cases h with
  | ok keeps nReadPos fFail =>
    rw [hsrc, hpos, List.append_assoc, ← List.drop_drop, ← List.take_add, Nat.add_sub_cancel' hle]
    exact .ok (hkeeps.trans keeps) (by omega) (fFail.trans hfail)
  | thrown keeps lt fFail =>
    rw [hsrc] at lt
    exact .thrown (hkeeps.trans keeps) (by omega) fFail
  | stuck large =>
    rw [hkeeps.same.nBufSize] at large
    exact .stuck large

theorem ReadsFrom.nothing (hv : f.Valid) (hle : f.nReadPos ≤ f.nSrcPos) (pch : List UInt8) :
    ReadsFrom f 0 pch (.ok pch, f) := by
  have hok : ReadsFrom f 0 pch (.ok (pch ++ (f.src.drop f.nReadPos).take 0), f) :=
    .ok ⟨hv, .refl f, Nat.le_refl _, hle⟩ rfl rfl
  rwa [List.take_zero, List.append_nil] at hok

theorem Valid.nNow_spec (hv : f.Valid) {nSize : Nat} (hlt : f.nReadPos < f.nSrcPos)
    (hsize : nSize ≠ 0) : 0 < f.nNow nSize ∧ f.nNow nSize ≤ nSize ∧
      f.nReadPos + f.nNow nSize ≤ f.nSrcPos ∧
      f.nReadPos % f.nBufSize + f.nNow nSize ≤ f.nBufSize := by
  have hpos : f.nReadPos % f.nBufSize < f.nBufSize :=
    Nat.mod_lt _ (Nat.zero_lt_of_lt hv.rewind_lt)
  unfold nNow
  rw [hv.mod_eq hlt.le]
  dsimp only
  generalize f.nReadPos % f.nBufSize = pos at hpos
  split_ifs <;> omega

theorem readsFrom_readLoop {fuel nSize : Nat} (hfuel : nSize ≤ fuel) (hv : f.Valid)
    (hle : f.nReadPos ≤ f.nSrcPos) (pch : List UInt8) :
    ReadsFrom f nSize pch (readLoop fuel f nSize pch) := by
  induction fuel generalizing f nSize pch with
  | zero =>
    obtain rfl := Nat.le_zero.mp hfuel
    exact .nothing hv hle pch
  | succ fuel ih =>
    rw [readLoop]
    split
    · next hzero =>
      obtain rfl := hzero
      exact .nothing hv hle pch
    · next hmore =>
      have hsupplied := supplied hv hle
      revert hsupplied
      generalize f.fillIfRead = r
      intro hsupplied
      cases hsupplied with
      | full large read_eq =>
        have hnone : f.nNow nSize = 0 := by
          unfold nNow
          dsimp only
          split_ifs <;> omega
        dsimp only
        rw [if_pos hnone]
        exact .stuck large
      | atEnd keeps length_eq fFail => exact .thrown keeps (by omega) fFail
      | @some f' keeps nReadPos lt fFail =>
        obtain ⟨hpos, hnow, hsrc, hbuf⟩ := keeps.valid.nNow_spec lt hmore
        have hahead := keeps.valid.ahead
        have hcells : cells f'.vchBuf (f'.nReadPos % f'.nBufSize) (f'.nNow nSize)
            = (f.src.drop f.nReadPos).take (f'.nNow nSize) := by
          rw [keeps.valid.window.cells hsrc hahead hbuf, keeps.same.src, nReadPos]
        have hvalid : { f' with nReadPos := f'.nReadPos + f'.nNow nSize }.Valid :=
          keeps.valid.setReadPos (by omega)
        have hkeeps : Keeps f { f' with nReadPos := f'.nReadPos + f'.nNow nSize } :=
          ⟨hvalid, ⟨keeps.same.src, keeps.same.nRewind, keeps.same.nBufSize, keeps.same.nReadLimit⟩,
            Nat.le_add_right_of_le keeps.le, hsrc⟩
        have hrest : nSize - f'.nNow nSize ≤ fuel := by omega
        dsimp only
        rw [if_neg hpos.ne', keeps.valid.mod_eq lt.le, hcells]
        exact .step hnow hkeeps (congrArg (· + _) nReadPos) fFail
          (ih hrest hvalid hkeeps.read_le _)

theorem read_cases (hv : f.Valid) (hle : f.nReadPos ≤ f.nSrcPos) (nSize : Nat) :
    f.read nSize = (.thrown, f) ∨ ReadsFrom f nSize [] (f.read nSize) := by
  rw [read]
  split
  · exact Or.inl rfl
  · split
    · exact Or.inl rfl
    · exact Or.inr (readsFrom_readLoop (Nat.le_refl _) hv hle [])

theorem read_of_lt (hlt : f.nSrcPos < f.nReadPos) {nSize : Nat} {pch : List UInt8}
    (h : f.read nSize = (.ok pch, f')) : nSize = 0 ∧ pch = [] ∧ f' = f := by
  rw [read] at h
  split at h
  · cases h
  · split at h
    · cases h
    · cases nSize with
      | zero =>
        cases h
        exact ⟨rfl, rfl, rfl⟩
      | succ nSize =>
        have hnone : f.nNow (nSize + 1) = 0 := by
          unfold nNow
          dsimp only
          split_ifs <;> omega
        rw [readLoop, if_neg (Nat.succ_ne_zero nSize), fillIfRead, if_neg hlt.ne'] at h
        dsimp only at h
        rw [if_pos hnone] at h
        cases h

/-! ## Searching -/

theorem Valid.fillIfRead (hv : f.Valid) :
    f.fillIfRead.2.Valid ∧ SameFile f f.fillIfRead.2 := by
  by_cases hread : f.nReadPos = f.nSrcPos
  · have hsupplied := supplied hv hread.le
    revert hsupplied
    generalize f.fillIfRead = r
    intro hsupplied
    cases hsupplied with
    | full large read_eq => exact ⟨hv, .refl f⟩
    | atEnd keeps length_eq fFail => exact ⟨keeps.valid, keeps.same⟩
    | some keeps nReadPos lt fFail => exact ⟨keeps.valid, keeps.same⟩
  · rw [CBufferedFile.fillIfRead, if_neg hread]
    exact ⟨hv, .refl f⟩

theorem Valid.findByteLoop (hv : f.Valid) (ch : UInt8) (fuel : Nat) :
    (findByteLoop ch fuel f).2.Valid ∧ SameFile f (findByteLoop ch fuel f).2 := by
  induction fuel generalizing f with
  | zero => exact ⟨hv, .refl f⟩
  | succ fuel ih =>
    have hfill := hv.fillIfRead
    rw [CBufferedFile.findByteLoop]
    revert hfill
    rcases f.fillIfRead with ⟨fFilled, f'⟩
    rintro ⟨hv', hsame⟩
    cases fFilled with
    | none => exact ⟨hv', hsame⟩
    | some fFilled =>
      replace hv' : f'.Valid := hv'
      dsimp only
      split
      · exact ⟨hv', hsame⟩
      · have hahead := hv'.ahead
        have hvalid : { f' with nReadPos := f'.nReadPos + 1 }.Valid :=
          hv'.setReadPos (by omega)
        obtain ⟨hrest, hsame'⟩ := ih hvalid
        exact ⟨hrest, hsame.trans ⟨hsame'.src, hsame'.nRewind, hsame'.nBufSize, hsame'.nReadLimit⟩⟩

/-- How `FindByte` ends: on the next such byte, or at the end of a file without one. -/
inductive FindsByte (f : CBufferedFile) (ch : UInt8) : StreamResult Unit × CBufferedFile → Prop
  | ok {f' : CBufferedFile} (keeps : Keeps f f') (found : f.src[f'.nReadPos]? = some ch)
    (before : ∀ i, f.nReadPos ≤ i → i < f'.nReadPos → f.src[i]? ≠ some ch)
    (lt : f'.nReadPos < f'.nSrcPos) (fFail : f'.fFail = f.fFail) : FindsByte f ch (.ok (), f')
  | thrown {f' : CBufferedFile} (keeps : Keeps f f')
    (none : ∀ i, f.nReadPos ≤ i → f.src[i]? ≠ some ch) : FindsByte f ch (.thrown, f')

theorem FindsByte.step {ch : UInt8} {r : StreamResult Unit × CBufferedFile} (hkeeps : Keeps f f')
    (hpos : f'.nReadPos = f.nReadPos + 1) (hfail : f'.fFail = f.fFail)
    (hother : f.src[f.nReadPos]? ≠ some ch) (h : FindsByte f' ch r) : FindsByte f ch r := by
  have hsrc := hkeeps.same.src
  cases h with
  | ok keeps found before lt fFail =>
    rw [hsrc] at found before
    refine .ok (hkeeps.trans keeps) found (fun i hi hi' => ?_) lt (fFail.trans hfail)
    rcases Nat.eq_or_lt_of_le hi with rfl | hnext
    · exact hother
    · exact before i (by omega) hi'
  | thrown keeps none =>
    rw [hsrc] at none
    refine .thrown (hkeeps.trans keeps) fun i hi => ?_
    rcases Nat.eq_or_lt_of_le hi with rfl | hnext
    · exact hother
    · exact none i (by omega)

theorem findsByte_findByteLoop {ch : UInt8} {fuel : Nat} (hv : f.Valid)
    (hsmall : f.nBufSize < 2 ^ 32) (hle : f.nReadPos ≤ f.nSrcPos)
    (hfuel : f.src.length < f.nReadPos + fuel) : FindsByte f ch (findByteLoop ch fuel f) := by
  induction fuel generalizing f with
  | zero =>
    have hsrc := hv.src_le
    omega
  | succ fuel ih =>
    have hsupplied := supplied hv hle
    rw [findByteLoop]
    revert hsupplied
    generalize f.fillIfRead = r
    intro hsupplied
    cases hsupplied with
    | full large read_eq => omega
    | atEnd keeps length_eq fFail =>
      refine .thrown keeps fun i hi => ?_
      rw [List.getElem?_eq_none (by omega)]
      exact nofun
    | @some f' keeps nReadPos lt fFail =>
      have hbyte := keeps.valid.window f'.nReadPos lt keeps.valid.ahead
      rw [keeps.same.src, nReadPos] at hbyte
      dsimp only
      split
      · next hfound =>
        refine .ok keeps ?_ (fun i hi hi' => absurd hi' (by omega)) lt fFail
        rw [nReadPos, hbyte, ← hfound, nReadPos]
      · next hother =>
        have hahead := keeps.valid.ahead
        have hvalid : { f' with nReadPos := f'.nReadPos + 1 }.Valid :=
          keeps.valid.setReadPos (by omega)
        have hkeeps : Keeps f { f' with nReadPos := f'.nReadPos + 1 } :=
          ⟨hvalid, ⟨keeps.same.src, keeps.same.nRewind, keeps.same.nBufSize, keeps.same.nReadLimit⟩,
            Nat.le_add_right_of_le keeps.le, lt⟩
        refine .step hkeeps (congrArg (· + 1) nReadPos) fFail ?_ (ih hvalid ?_ lt ?_)
        · rw [hbyte, ← nReadPos]
          exact fun h => hother (Option.some.inj h)
        · exact keeps.same.nBufSize ▸ hsmall
        · change f'.src.length < f'.nReadPos + 1 + fuel
          rw [keeps.same.src, nReadPos]
          omega

theorem findsByte (hv : f.Valid) (hsmall : f.nBufSize < 2 ^ 32) (hle : f.nReadPos ≤ f.nSrcPos)
    (ch : UInt8) : FindsByte f ch (f.findByte ch) :=
  findsByte_findByteLoop hv hsmall hle (by omega)

/-! ## Runs -/

inductive BufferedCall where
  | read (nSize : Nat)
  | setPos (nPos : Nat)
  | setLimit (nPos : Option Nat)
  | findByte (ch : UInt8)
deriving DecidableEq, Repr

/-- A call that does not fail. -/
def call (f : CBufferedFile) : BufferedCall → Option CBufferedFile
  | .read nSize =>
    match f.read nSize with
    | (.ok _, f) => some f
    | _ => none
  | .setPos nPos =>
    match f.setPos nPos with
    | (true, f) => some f
    | (false, _) => none
  | .setLimit nPos =>
    match f.setLimit nPos with
    | (true, f) => some f
    | (false, _) => none
  | .findByte ch =>
    match f.findByte ch with
    | (.ok _, f) => some f
    | _ => none

/-- The states after calls that do not fail, with the position up to which has been read. -/
inductive Reaches (start : CBufferedFile) : CBufferedFile → Nat → Prop
  | start : Reaches start start 0
  | call {f f' : CBufferedFile} {p : Nat} (c : BufferedCall) :
    Reaches start f p → f.call c = some f' → Reaches start f' (max p f'.nReadPos)

theorem setPos_eq_true {nPos : Nat} : (f.setPos nPos).1 = true ↔
    f.nSrcPos ≤ nPos + f.nRewind ∧ nPos ≤ f.nSrcPos := by
  rw [setPos]
  split_ifs with hfar hbeyond
  · exact iff_of_false nofun (fun h => absurd h.1 (by omega))
  · exact iff_of_false nofun (fun h => absurd h.2 (by omega))
  · exact iff_of_true rfl (by omega)

theorem Valid.setPos (hv : f.Valid) (nPos : Nat) :
    (f.setPos nPos).2.Valid ∧ SameFile f (f.setPos nPos).2 := by
  have hrewind := hv.rewind_lt
  rw [CBufferedFile.setPos]
  split_ifs
  · exact ⟨hv.setReadPos (by omega), rfl, rfl, rfl, rfl⟩
  · exact ⟨hv.setReadPos (by omega), rfl, rfl, rfl, rfl⟩
  · exact ⟨hv.setReadPos (by omega), rfl, rfl, rfl, rfl⟩

/-- What a run does not change. -/
structure InRun (start f : CBufferedFile) : Prop where
  valid : f.Valid
  src : f.src = start.src
  nRewind : f.nRewind = start.nRewind

theorem InRun.of_same {start : CBufferedFile} (h : InRun start f)
    (h' : f'.Valid ∧ SameFile f f') : InRun start f' where
  valid := h'.1
  src := h'.2.src.trans h.src
  nRewind := h'.2.nRewind.trans h.nRewind

theorem InRun.setLimit {start : CBufferedFile} (h : InRun start f) (nPos : Option Nat) :
    InRun start (f.setLimit nPos).2 := by
  have hv := h.valid
  rw [CBufferedFile.setLimit]
  split_ifs
  · exact h
  · exact ⟨⟨hv.rewind_lt, hv.src_le, hv.window, hv.ahead, hv.small⟩, h.src, h.nRewind⟩

theorem InRun.call {start : CBufferedFile} (h : InRun start f) {c : BufferedCall}
    (hcall : f.call c = some f') : InRun start f' := by
  cases c with
  | read nSize =>
    rw [CBufferedFile.call] at hcall
    split at hcall
    · next pch f1 hread =>
      obtain rfl := Option.some.inj hcall
      by_cases hle : f.nReadPos ≤ f.nSrcPos
      · rcases read_cases h.valid hle nSize with heq | hreads
        · rw [heq] at hread
          cases hread
        · rw [hread] at hreads
          cases hreads with
          | ok keeps nReadPos fFail => exact h.of_same ⟨keeps.valid, keeps.same⟩
      · obtain ⟨-, -, rfl⟩ := read_of_lt (Nat.lt_of_not_le hle) hread
        exact h
    · cases hcall
  | setPos nPos =>
    have hsame := h.valid.setPos nPos
    rw [CBufferedFile.call] at hcall
    split at hcall
    · next f1 hset =>
      obtain rfl := Option.some.inj hcall
      rw [hset] at hsame
      exact h.of_same hsame
    · cases hcall
  | setLimit nPos =>
    have hlimit := h.setLimit nPos
    rw [CBufferedFile.call] at hcall
    split at hcall
    · next f1 hset =>
      obtain rfl := Option.some.inj hcall
      rw [hset] at hlimit
      exact hlimit
    · cases hcall
  | findByte ch =>
    have hsame := h.valid.findByteLoop ch (f.src.length + f.nBufSize + 1)
    rw [CBufferedFile.call, findByte] at hcall
    split at hcall
    · next u f1 hfind =>
      obtain rfl := Option.some.inj hcall
      rw [hfind] at hsame
      exact h.of_same hsame
    · cases hcall

theorem Reaches.inRun {start : CBufferedFile} {p : Nat} (hv : start.Valid)
    (h : Reaches start f p) : InRun start f := by
  induction h with
  | start => exact ⟨hv, rfl, rfl⟩
  | call c _ hcall ih => exact ih.call hcall

/-! ## The result -/

/-- What the class promises when `src` has been read up to `p`. -/
structure Promises (src : List UInt8) (nRewindIn : Nat) (f : CBufferedFile) (p : Nat) : Prop where
  /-- It can go back `nRewindIn` bytes. -/
  rewinds : ∀ q, p ≤ q + nRewindIn → q ≤ p → (f.setPos q).1 = true
  /-- A read yields the bytes of the file at the position. -/
  reads : ∀ nSize pch f', f.read nSize = (.ok pch, f') →
    pch = (src.drop f.getPos).take nSize ∧ pch.length = nSize ∧ f'.getPos = f.getPos + nSize

theorem Valid.reads (hv : f.Valid) {nSize : Nat} {pch : List UInt8}
    (h : f.read nSize = (.ok pch, f')) : pch = (f.src.drop f.getPos).take nSize ∧
      pch.length = nSize ∧ f'.getPos = f.getPos + nSize := by
  by_cases hle : f.nReadPos ≤ f.nSrcPos
  · rcases read_cases hv hle nSize with heq | hreads
    · rw [heq] at h
      cases h
    · rw [h] at hreads
      cases hreads with
      | ok keeps nReadPos fFail =>
        have hsrc := keeps.valid.src_le
        have hread := keeps.read_le
        rw [keeps.same.src] at hsrc
        refine ⟨rfl, ?_, nReadPos⟩
        rw [List.nil_append, List.length_take, List.length_drop]
        omega
  · obtain ⟨rfl, rfl, rfl⟩ := read_of_lt (Nat.lt_of_not_le hle) h
    exact ⟨rfl, rfl, rfl⟩

/-- In every state that is reached by calls that do not fail, the promise holds if and only if the
source has not been read further than `p`, or not further than `nRewindIn` bytes. -/
theorem bufferedFile_iff {src : List UInt8} {nBufSize nRewindIn p : Nat}
    (h : nRewindIn < nBufSize) (hreach : Reaches (new src nBufSize nRewindIn) f p) :
    Promises src nRewindIn f p ↔
      p ≤ f.nSrcPos ∧ (f.nSrcPos = p ∨ f.nSrcPos ≤ nRewindIn) := by
  obtain ⟨hv, hsrc, hrewind⟩ := hreach.inRun (valid_new h)
  change f.nRewind = nRewindIn at hrewind
  change f.src = src at hsrc
  constructor
  · intro hpromises
    have hnear := setPos_eq_true.mp (hpromises.rewinds p (Nat.le_add_right _ _) (Nat.le_refl _))
    have hfar := setPos_eq_true.mp (hpromises.rewinds (p - nRewindIn) (by omega) (Nat.sub_le _ _))
    omega
  · rintro ⟨hle, hpos⟩
    refine ⟨fun q hq hqp => setPos_eq_true.mpr (by omega), fun nSize pch f' hread => ?_⟩
    rw [← hsrc]
    exact hv.reads hread

end CBufferedFile

namespace BufferedFileSample

open CBufferedFile

def content : List UInt8 := (List.range 100).map UInt8.ofNat

/-- The file after `n` bytes, with a buffer of 25 bytes. -/
def readTo (n : Nat) : CBufferedFile := ((new content 25 10).read n).2

theorem bufferedFile_iff_sample : Promises content 10 (readTo 15) 15 := by
  have hreach : Reaches (new content 25 10) (readTo 15) 15 := .call (.read 15) .start rfl
  exact (bufferedFile_iff (by decide) hreach).mpr ⟨by decide, Or.inl rfl⟩

/-- One byte has been read, and the first one is refused. -/
theorem bufferedFile_refuses : Reaches (new content 25 10) (readTo 1) 1 ∧
    (readTo 1).nSrcPos = 15 ∧ ((readTo 1).setPos 0).1 = false ∧ ¬ Promises content 10 (readTo 1) 1 := by
  have hrefused : ((readTo 1).setPos 0).1 = false := rfl
  refine ⟨.call (.read 1) .start rfl, rfl, hrefused, fun h => ?_⟩
  have hrewinds := h.rewinds 0 (by decide) (by decide)
  rw [hrefused] at hrewinds
  cases hrewinds

end BufferedFileSample

end Terracoin
