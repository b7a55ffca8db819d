import Terracoin.Lib.Run
import Mathlib.Data.List.Basic
import Mathlib.Algebra.Group.Nat.Defs

/-!
# Block files

`FindBlockPos`: where a block goes in the block files, and what is recorded about them. A new block
is appended at `nSize`, the number of used bytes of the last file. A block that is found in a file
during a reindex has its place already; there `nSize` grows by the size of the block, wherever the
block lies.

So `nSize` is the end of the last block only if there is nothing between the blocks of a file.
Once a block is recorded beyond `nSize`, the next new block is written over it. Exactly the known
positions that leave no gap are safe (`findBlockPos_spec`).
-/

namespace Terracoin

/-- `CBlockFileInfo`. -/
structure CBlockFileInfo where
  nBlocks : UInt32
  /-- The number of used bytes of the block file. -/
  nSize : UInt32
  nUndoSize : UInt32
  nHeightFirst : UInt32
  nHeightLast : UInt32
  nTimeFirst : UInt64
  nTimeLast : UInt64
deriving DecidableEq, Repr

namespace CBlockFileInfo

/-- What `SetNull` leaves. -/
def null : CBlockFileInfo := ⟨0, 0, 0, 0, 0, 0, 0⟩

/-- `AddBlock` updates the statistics, but not `nSize`. -/
def addBlock (info : CBlockFileInfo) (nHeightIn : UInt32) (nTimeIn : UInt64) : CBlockFileInfo :=
  let nHeightFirst := if info.nBlocks = 0 ∨ nHeightIn < info.nHeightFirst then nHeightIn
    else info.nHeightFirst
  let nTimeFirst := if info.nBlocks = 0 ∨ nTimeIn < info.nTimeFirst then nTimeIn
    else info.nTimeFirst
  { info with
    nBlocks := info.nBlocks + 1
    nHeightFirst := nHeightFirst
    nHeightLast := if nHeightFirst < nHeightIn then nHeightIn else info.nHeightLast
    nTimeFirst := nTimeFirst
    nTimeLast := if info.nTimeLast < nTimeIn then nTimeIn else info.nTimeLast }

end CBlockFileInfo

/-- `MAX_BLOCKFILE_SIZE`. -/
def maxBlockfileSize : UInt32 := 0x8000000

/-- `BLOCKFILE_CHUNK_SIZE`. -/
def blockfileChunkSize : UInt32 := 0x1000000

/-- `CDiskBlockPos`. -/
structure CDiskBlockPos where
  nFile : Nat
  nPos : UInt32
deriving DecidableEq, Repr

/-- The bytes of a recorded block with its header. -/
structure BlockRange where
  nFile : Nat
  nBegin : Nat
  nEnd : Nat
  fKnown : Bool
deriving DecidableEq, Repr

/-- A block as `AcceptBlock` stores it, after `CheckBlock` has bounded its size. -/
structure StoredBlock where
  nBlockSize : UInt32
  nHeight : UInt32
  nTime : UInt64
  size_le : nBlockSize.toNat ≤ 1000000

/-- The place of a block in a file that `LoadExternalBlockFile` reads: it has read the header. -/
structure KnownBlockPos extends CDiskBlockPos where
  header_le : 8 ≤ nPos.toNat

/-- Whether there is space on the disk, and whether the block tree database can be written. -/
structure DiskState where
  fSpace : Bool
  fWritable : Bool
deriving DecidableEq, Repr

/-- The block files: the last one, and what the block tree database has about them. -/
structure BlockStorage where
  nLastBlockFile : Nat
  infoLastBlockFile : CBlockFileInfo
  /-- The information in the database, by the number of the file. -/
  infos : List CBlockFileInfo
  /-- The number of the last file in the database. -/
  nLastStored : Nat
  /-- The blocks recorded so far, the latest first. -/
  recorded : List BlockRange
deriving DecidableEq, Repr

namespace BlockStorage

/-- `SetNull` and `ReadBlockFileInfo`, which may find nothing. -/
def readBlockFileInfo (s : BlockStorage) (nFile : Nat) : CBlockFileInfo := s.infos.getD nFile .null

def writeBlockFileInfo (s : BlockStorage) (nFile : Nat) (info : CBlockFileInfo) : BlockStorage :=
  { s with
    infos := (s.infos ++ List.replicate (nFile + 1 - s.infos.length) CBlockFileInfo.null).set nFile info }

def openFile (s : BlockStorage) (nFile : Nat) : BlockStorage :=
  { s with nLastBlockFile := nFile, infoLastBlockFile := s.readBlockFileInfo nFile }

/-- The loop that leaves block files without space. A file that the database does not know is
empty, so it ends after the files that are known. -/
def leaveFull (nAddSize : UInt32) : Nat → BlockStorage → BlockStorage
  | 0, s => s
  | fuel + 1, s =>
    if maxBlockfileSize ≤ s.infoLastBlockFile.nSize + nAddSize then
      leaveFull nAddSize fuel (s.openFile (s.nLastBlockFile + 1))
    else s

/-- The file and the position of a block: the known ones, or the end of the last file. -/
def choosePos (s : BlockStorage) (nAddSize : UInt32) : Option CDiskBlockPos → BlockStorage × CDiskBlockPos
  | some pos => (if s.nLastBlockFile ≠ pos.nFile then s.openFile pos.nFile else s, pos)
  | none =>
    let s := s.leaveFull nAddSize (s.infos.length + 1)
    (s, ⟨s.nLastBlockFile, s.infoLastBlockFile.nSize⟩)

/-- There is not enough space for the chunks to allocate. -/
def outOfSpace (disk : DiskState) (pos : CDiskBlockPos) (info : CBlockFileInfo) : Bool :=
  let nOldChunks := (pos.nPos + blockfileChunkSize - 1) / blockfileChunkSize
  let nNewChunks := (info.nSize + blockfileChunkSize - 1) / blockfileChunkSize
  decide (nNewChunks > nOldChunks) && !disk.fSpace

/-- `FindBlockPos`. Where it fails, the node shuts down. -/
def findBlockPos (disk : DiskState) (s : BlockStorage) (known : Option CDiskBlockPos)
    (nAddSize nHeight : UInt32) (nTime : UInt64) : Option (BlockStorage × CDiskBlockPos) :=
  let fKnown := known.isSome
  let (s', pos) := s.choosePos nAddSize known
  let info := { s'.infoLastBlockFile with nSize := s'.infoLastBlockFile.nSize + nAddSize }
  let info := info.addBlock nHeight nTime
  if !fKnown && outOfSpace disk pos info then none
  else if !disk.fWritable then none
  else
    let s' := { s' with infoLastBlockFile := info }.writeBlockFileInfo s'.nLastBlockFile info
    let fUpdatedLast := decide (s'.nLastBlockFile ≠ s.nLastBlockFile)
    some ({ s' with
      nLastStored := if fUpdatedLast then s'.nLastBlockFile else s'.nLastStored }, pos)

/-- A block that `AcceptBlock` stores: one that is known to be in a file, or a new one. -/
inductive StoreOp where
  | known (pos : KnownBlockPos) (block : StoredBlock) (disk : DiskState)
  | new (block : StoredBlock) (disk : DiskState)

/-- `AcceptBlock` stores a block. A new one is written at the position with its header, a known one
has its header before the position. -/
def step (s : BlockStorage) : StoreOp → Option BlockStorage
  | .known pos block disk =>
    (findBlockPos disk s pos.toCDiskBlockPos (block.nBlockSize + 8) block.nHeight block.nTime).map
      fun (s, pos) => { s with
        recorded := ⟨pos.nFile, pos.nPos.toNat - 8, pos.nPos.toNat + block.nBlockSize.toNat, true⟩ ::
          s.recorded }
  | .new block disk =>
    (findBlockPos disk s none (block.nBlockSize + 8) block.nHeight block.nTime).map
      fun (s, pos) => { s with
        recorded := ⟨pos.nFile, pos.nPos.toNat, pos.nPos.toNat + (block.nBlockSize.toNat + 8),
          false⟩ :: s.recorded }

/-! ## The database -/

variable {s s' : BlockStorage} {nAddSize : UInt32}

@[simp] theorem readBlockFileInfo_write_self (s : BlockStorage) (nFile : Nat)
    (info : CBlockFileInfo) : (s.writeBlockFileInfo nFile info).readBlockFileInfo nFile = info := by
  rw [readBlockFileInfo, writeBlockFileInfo, List.getD_eq_getElem?_getD, List.getElem?_set_self,
    Option.getD_some]
  rw [List.length_append, List.length_replicate]
  omega

theorem readBlockFileInfo_write_of_ne {nFile nFile' : Nat} (hne : nFile' ≠ nFile)
    (info : CBlockFileInfo) : (s.writeBlockFileInfo nFile info).readBlockFileInfo nFile' =
      s.readBlockFileInfo nFile' := by
  simp only [readBlockFileInfo, writeBlockFileInfo, List.getD_eq_getElem?_getD]
  rw [List.getElem?_set_ne hne.symm, List.getElem?_append]
  split
  · rfl
  · next hle =>
    rw [List.getElem?_eq_none (Nat.le_of_not_lt hle), List.getElem?_replicate]
    split <;> rfl

/-- What is held in memory of the last file is what the database has. -/
def Synced (s : BlockStorage) : Prop := s.infoLastBlockFile = s.readBlockFileInfo s.nLastBlockFile

theorem synced_openFile (s : BlockStorage) (nFile : Nat) : (s.openFile nFile).Synced := rfl

def HasSpace (s : BlockStorage) (nFile : Nat) (nAddSize : UInt32) : Prop :=
  (s.readBlockFileInfo nFile).nSize + nAddSize < maxBlockfileSize

/-- The first file with space, from the last one on. -/
structure IsFirstWithSpace (s : BlockStorage) (nAddSize : UInt32) (nFile : Nat) : Prop where
  le : s.nLastBlockFile ≤ nFile
  full : ∀ n, s.nLastBlockFile ≤ n → n < nFile → ¬ s.HasSpace n nAddSize
  space : s.HasSpace nFile nAddSize

/-- The loop ends, at the first file with space. -/
theorem leaveFull_first (hadd : nAddSize < maxBlockfileSize) {fuel : Nat} (hs : s.Synced)
    (hfuel : s.infos.length ≤ s.nLastBlockFile + fuel) :
    s.IsFirstWithSpace nAddSize (s.leaveFull nAddSize fuel).nLastBlockFile ∧
      (s.leaveFull nAddSize fuel).Synced := by
  induction fuel generalizing s with
  | zero =>
    refine ⟨⟨Nat.le_refl _, fun n hle hlt => absurd hle (Nat.not_le.mpr hlt), ?_⟩, hs⟩
    rw [leaveFull, HasSpace, readBlockFileInfo, List.getD_eq_getElem?_getD,
      List.getElem?_eq_none (by omega), Option.getD_none, CBlockFileInfo.null, UInt32.zero_add]
    exact hadd
  | succ fuel ih =>
    rw [leaveFull]
    split
    · next hfull =>
      obtain ⟨hfirst, hsynced⟩ := ih (synced_openFile s (s.nLastBlockFile + 1)) (by
        show s.infos.length ≤ s.nLastBlockFile + 1 + fuel
        omega)
      refine ⟨⟨Nat.le_of_succ_le hfirst.le, fun n hle hlt => ?_, hfirst.space⟩, hsynced⟩
      rcases Nat.eq_or_lt_of_le hle with rfl | hlt'
      · rw [HasSpace, ← hs]
        exact UInt32.not_lt.mpr hfull
      · exact hfirst.full n hlt' hlt
    · next hspace =>
      refine ⟨⟨Nat.le_refl _, fun n hle hlt => absurd hle (Nat.not_le.mpr hlt), ?_⟩, hs⟩
      rw [HasSpace, ← hs]
      exact UInt32.not_le.mp hspace

theorem IsFirstWithSpace.unique {nFile nFile' : Nat} (h : s.IsFirstWithSpace nAddSize nFile)
    (h' : s.IsFirstWithSpace nAddSize nFile') : nFile = nFile' := by
  rcases Nat.lt_trichotomy nFile nFile' with hlt | heq | hlt
  · exact absurd h.space (h'.full nFile h.le hlt)
  · exact heq
  · exact absurd h'.space (h.full nFile' h'.le hlt)

/-- Other files are opened on the way, and no more than that. -/
def Opens (s s' : BlockStorage) : Prop := s' = s ∨ ∃ nFile, s' = s.openFile nFile

theorem leaveFull_opens (nAddSize : UInt32) (fuel : Nat) (s : BlockStorage) :
    Opens s (s.leaveFull nAddSize fuel) := by
  induction fuel generalizing s with
  | zero => exact .inl rfl
  | succ fuel ih =>
    rw [leaveFull]
    split
    · rcases ih (s.openFile (s.nLastBlockFile + 1)) with h | ⟨nFile, h⟩
      · exact .inr ⟨_, h⟩
      · exact .inr ⟨nFile, h⟩
    · exact .inl rfl

theorem choosePos_opens (s : BlockStorage) (nAddSize : UInt32) (known : Option CDiskBlockPos) :
    Opens s (s.choosePos nAddSize known).1 := by
  cases known with
  | none => exact leaveFull_opens nAddSize _ s
  | some pos =>
    rw [choosePos]
    split
    · exact .inr ⟨pos.nFile, rfl⟩
    · exact .inl rfl

theorem choosePos_nLastBlockFile (s : BlockStorage) (nAddSize : UInt32)
    (known : Option CDiskBlockPos) :
    (s.choosePos nAddSize known).1.nLastBlockFile = (s.choosePos nAddSize known).2.nFile := by
  cases known with
  | none => rfl
  | some pos =>
    rw [choosePos]
    split
    · rfl
    · next heq => exact not_not.mp heq

/-- All that a successful `FindBlockPos` does. -/
structure Found (s s' : BlockStorage) (nAddSize : UInt32) (pos : CDiskBlockPos) : Prop where
  last : s'.nLastBlockFile = pos.nFile
  recorded : s'.recorded = s.recorded
  synced : s'.Synced
  size : s'.infoLastBlockFile.nSize = (s.readBlockFileInfo pos.nFile).nSize + nAddSize
  other : ∀ nFile, nFile ≠ pos.nFile → s'.readBlockFileInfo nFile = s.readBlockFileInfo nFile

theorem findBlockPos_found {disk : DiskState} {known : Option CDiskBlockPos} {nHeight : UInt32}
    {nTime : UInt64} {pos : CDiskBlockPos} (hs : s.Synced)
    (h : findBlockPos disk s known nAddSize nHeight nTime = some (s', pos)) :
    pos = (s.choosePos nAddSize known).2 ∧ Found s s' nAddSize pos := by
  have hopens := choosePos_opens s nAddSize known
  have hlast := choosePos_nLastBlockFile s nAddSize known
  rw [findBlockPos] at h
  revert h hopens hlast
  obtain ⟨s₁, pos₁⟩ := s.choosePos nAddSize known
  intro h hopens hlast
  dsimp only at h hlast
  split at h
  · cases h
  split at h
  · cases h
  obtain ⟨rfl, rfl⟩ := Prod.mk.inj (Option.some.inj h)
  have hread : ∀ nFile, s₁.readBlockFileInfo nFile = s.readBlockFileInfo nFile := by
    rcases hopens with rfl | ⟨nFile, rfl⟩ <;> exact fun _ => rfl
  have hs₁ : s₁.Synced := by
    rcases hopens with rfl | ⟨nFile, rfl⟩
    · exact hs
    · exact synced_openFile s nFile
  have hrecorded : s₁.recorded = s.recorded := by
    rcases hopens with rfl | ⟨nFile, rfl⟩ <;> rfl
  refine ⟨rfl, hlast, hrecorded, ?_, ?_, fun nFile hne => ?_⟩
  · exact (readBlockFileInfo_write_self _ _ _).symm
  · show s₁.infoLastBlockFile.nSize + nAddSize = _
    rw [hs₁, hlast, hread]
  · refine (readBlockFileInfo_write_of_ne (hlast ▸ hne) _).trans ?_
    exact hread nFile

/-! ## What is recorded -/

/-- A new block overlaps no block that was recorded before it in the same file. -/
def Apart (recorded : List BlockRange) : Prop :=
  recorded.Pairwise fun r r' => r.fKnown = false → r'.nFile = r.nFile →
    r'.nEnd ≤ r.nBegin ∨ r.nEnd ≤ r'.nBegin

/-- New blocks are written to free places, and `nSize` is behind every block of the last file. -/
structure Sound (s : BlockStorage) : Prop where
  apart : Apart s.recorded
  ends : ∀ r ∈ s.recorded, r.nFile = s.nLastBlockFile →
    r.nEnd ≤ s.infoLastBlockFile.nSize.toNat

/-- The same for every file. -/
structure Covered (s : BlockStorage) : Prop where
  synced : s.Synced
  apart : Apart s.recorded
  ends : ∀ r ∈ s.recorded, r.nEnd ≤ (s.readBlockFileInfo r.nFile).nSize.toNat

theorem Covered.sound (h : s.Covered) : s.Sound := by
  refine ⟨h.apart, fun r hr hfile => ?_⟩
  rw [h.synced, ← hfile]
  exact h.ends r hr

/-- The number of used bytes, with the block, is one that an `unsigned int` can hold. -/
def Fits (s : BlockStorage) (nFile : Nat) (nAddSize : UInt32) : Prop :=
  (s.readBlockFileInfo nFile).nSize.toNat + nAddSize.toNat < 2 ^ 32

/-- A known block begins with its header at the end of the used bytes of its file or before. -/
def NoGap (s : BlockStorage) : StoreOp → Prop
  | .known pos block _ => s.Fits pos.nFile (block.nBlockSize + 8) ∧
      pos.nPos.toNat ≤ (s.readBlockFileInfo pos.nFile).nSize.toNat + 8
  | .new block _ => ∀ nFile, s.IsFirstWithSpace (block.nBlockSize + 8) nFile →
      s.Fits nFile (block.nBlockSize + 8)

theorem StoredBlock.toNat_add (block : StoredBlock) :
    (block.nBlockSize + 8).toNat = block.nBlockSize.toNat + 8 := by
  have hle := block.size_le
  rw [UInt32.toNat_add]
  exact Nat.mod_eq_of_lt (by show _ + 8 < 2 ^ 32; omega)

theorem fits_of_end_le {nSize : UInt32} {nEnd : Nat} (hadd : nAddSize.toNat ≤ nEnd)
    (hend : nEnd ≤ (nSize + nAddSize).toNat) : nSize.toNat + nAddSize.toNat < 2 ^ 32 := by
  have hlt := nSize.toNat_lt
  have hlt' := nAddSize.toNat_lt
  rw [UInt32.toNat_add] at hend
  omega

theorem Covered.record {pos : CDiskBlockPos} {r : BlockRange} (h : s.Covered)
    (hfound : Found s s' nAddSize pos) (hfits : s.Fits pos.nFile nAddSize)
    (hfile : r.nFile = pos.nFile)
    (hbegin : r.fKnown = false → r.nBegin = (s.readBlockFileInfo pos.nFile).nSize.toNat)
    (hend : r.nEnd ≤ (s.readBlockFileInfo pos.nFile).nSize.toNat + nAddSize.toNat) :
    Covered { s' with recorded := r :: s'.recorded } := by
  have hsize : (s'.readBlockFileInfo pos.nFile).nSize.toNat =
      (s.readBlockFileInfo pos.nFile).nSize.toNat + nAddSize.toNat := by
    have hsynced := hfound.synced
    rw [Synced, hfound.last] at hsynced
    rw [← hsynced, hfound.size, UInt32.toNat_add]
    exact Nat.mod_eq_of_lt hfits
  refine ⟨hfound.synced, List.pairwise_cons.mpr ⟨fun r' hr' hnew hsame => ?_, ?_⟩,
    fun r' hr' => ?_⟩
  · rw [hfound.recorded] at hr'
    rw [hbegin hnew, ← hfile, ← hsame]
    exact .inl (h.ends r' hr')
  · rw [hfound.recorded]
    exact h.apart
  · show r'.nEnd ≤ (s'.readBlockFileInfo r'.nFile).nSize.toNat
    rcases List.mem_cons.mp hr' with rfl | hr'
    · rw [hfile, hsize]
      exact hend
    · rw [hfound.recorded] at hr'
      have hle := h.ends r' hr'
      by_cases heq : r'.nFile = pos.nFile
      · rw [heq, hsize]
        rw [heq] at hle
        omega
      · rw [hfound.other _ heq]
        exact hle

theorem choosePos_none (hs : s.Synced) (block : StoredBlock) :
    s.IsFirstWithSpace (block.nBlockSize + 8)
      (s.choosePos (block.nBlockSize + 8) none).2.nFile ∧
    (s.choosePos (block.nBlockSize + 8) none).2.nPos =
      (s.readBlockFileInfo (s.choosePos (block.nBlockSize + 8) none).2.nFile).nSize := by
  have hadd : block.nBlockSize + 8 < maxBlockfileSize := by
    have hle := block.size_le
    rw [UInt32.lt_iff_toNat_lt, StoredBlock.toNat_add]
    show _ < 134217728
    omega
  obtain ⟨hfirst, hsynced⟩ := leaveFull_first hadd hs
    (show s.infos.length ≤ s.nLastBlockFile + (s.infos.length + 1) by omega)
  refine ⟨hfirst, ?_⟩
  have hopens := leaveFull_opens (block.nBlockSize + 8) (s.infos.length + 1) s
  show (s.leaveFull _ _).infoLastBlockFile.nSize = _
  rw [hsynced]
  rcases hopens with heq | ⟨nFile, heq⟩
  · rw [choosePos, heq]
  · rw [choosePos, heq]
    rfl

theorem Covered.known {pos : KnownBlockPos} {block : StoredBlock} {disk : DiskState}
    (h : s.Covered) (hstep : s.step (.known pos block disk) = some s') :
    (s.NoGap (.known pos block disk) → s'.Covered) ∧
      (s'.Sound → s.NoGap (.known pos block disk)) := by
  obtain ⟨⟨s₁, pos₁⟩, hfind, rfl⟩ := Option.map_eq_some_iff.mp hstep
  obtain ⟨rfl, hfound⟩ := findBlockPos_found h.synced hfind
  have hadd := StoredBlock.toNat_add block
  have hheader := pos.header_le
  constructor
  · rintro ⟨hfits, hle⟩
    refine h.record hfound hfits rfl (fun hnew => by cases hnew) ?_
    show pos.nPos.toNat + _ ≤ _
    rw [hadd]
    show _ ≤ (s.readBlockFileInfo pos.nFile).nSize.toNat + _
    omega
  · intro hsound
    have hend : pos.nPos.toNat + block.nBlockSize.toNat ≤ s₁.infoLastBlockFile.nSize.toNat :=
      hsound.ends _ List.mem_cons_self hfound.last.symm
    rw [hfound.size] at hend
    have hfits := fits_of_end_le (by omega) hend
    rw [UInt32.toNat_add, Nat.mod_eq_of_lt hfits] at hend
    refine ⟨hfits, ?_⟩
    show pos.nPos.toNat ≤ (s.readBlockFileInfo pos.nFile).nSize.toNat + 8
    change _ ≤ (s.readBlockFileInfo pos.nFile).nSize.toNat + _ at hend
    omega

theorem Covered.new {block : StoredBlock} {disk : DiskState} (h : s.Covered)
    (hstep : s.step (.new block disk) = some s') :
    (s.NoGap (.new block disk) → s'.Covered) ∧ (s'.Sound → s.NoGap (.new block disk)) := by
  obtain ⟨⟨s₁, pos⟩, hfind, rfl⟩ := Option.map_eq_some_iff.mp hstep
  obtain ⟨hpos, hfound⟩ := findBlockPos_found h.synced hfind
  obtain ⟨hfirst, hnPos⟩ := choosePos_none h.synced block
  rw [← hpos] at hfirst hnPos
  have hadd := StoredBlock.toNat_add block
  constructor
  · intro hfits
    refine h.record hfound (hfits pos.nFile hfirst) rfl (fun _ => ?_) ?_
    · show pos.nPos.toNat = _
      rw [hnPos]
    · refine Nat.le_of_eq (?_ : pos.nPos.toNat + _ = _)
      rw [hnPos, hadd]
  · intro hsound nFile hfirst'
    obtain rfl := hfirst.unique hfirst'
    have hend : pos.nPos.toNat + (block.nBlockSize.toNat + 8) ≤
        s₁.infoLastBlockFile.nSize.toNat :=
      hsound.ends _ List.mem_cons_self hfound.last.symm
    rw [hfound.size] at hend
    exact fits_of_end_le (by omega) hend

/-- What a node knows before a reindex, or a new one. -/
def init : BlockStorage := ⟨0, .null, [], 0, []⟩

theorem covered_init : Covered init :=
  ⟨rfl, List.Pairwise.nil, fun _ hr => absurd hr List.not_mem_nil⟩

/-- Over any known and new blocks: new blocks are written to free places and `nSize` is behind every
block of the last file exactly as long as known blocks leave no gap. -/
theorem findBlockPos_spec (ops : List StoreOp) (s : BlockStorage)
    (h : Run.run step init ops = some s) :
    Run.Throughout Sound step init ops ↔ Run.Meets NoGap step init ops := by
  refine Run.throughout_iff_meets_of_breaks (fun _ => Covered.sound) ?_ ?_ covered_init h
  · intro s op s' hs hstep
    cases op with
    | known pos block disk => exact (hs.known hstep).1
    | new block disk => exact (hs.new hstep).1
  · intro s op s' hs hstep
    cases op with
    | known pos block disk => exact (hs.known hstep).2
    | new block disk => exact (hs.new hstep).2

namespace BlockFileSample

def disk : DiskState := ⟨true, true⟩

def block : StoredBlock := ⟨1000, 1, 1300000000, by decide⟩

/-- A block that begins with its header at the given byte of the first file. -/
def knownAt (nBegin : UInt32) (h : 8 ≤ (nBegin + 8).toNat) : StoreOp :=
  .known ⟨⟨0, nBegin + 8⟩, h⟩ block disk

/-- A reindexed block after a hundred bytes of garbage, and then a new block. -/
def ops : List StoreOp := [knownAt 100 (by decide), .new block disk]

def last : BlockStorage :=
  ⟨0, ⟨2, 2016, 0, 1, 0, 1300000000, 1300000000⟩, [⟨2, 2016, 0, 1, 0, 1300000000, 1300000000⟩], 0,
    [⟨0, 1008, 2016, false⟩, ⟨0, 100, 1108, true⟩]⟩

theorem findBlockPos_spec_sample :
    Run.Throughout Sound step init ops ↔ Run.Meets NoGap step init ops :=
  findBlockPos_spec ops last (by decide +kernel)

/-- The new block is written over the last hundred bytes of the other one. -/
theorem not_findBlockPos_spec : Run.run step init ops = some last ∧ ¬ Apart last.recorded := by
  refine ⟨by decide +kernel, fun h => ?_⟩
  have hoverlap := (List.pairwise_cons.mp h).1 _ List.mem_cons_self rfl rfl
  exact absurd hoverlap (by decide)

end BlockFileSample

end BlockStorage

end Terracoin
