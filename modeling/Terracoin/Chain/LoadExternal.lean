import Terracoin.Net.Message
import Terracoin.Serialize.ReadAhead

/-!
# Blocks from an external file

`LoadExternalBlockFile` of `main.cpp`, of a whole file and without a shutdown: a scan for records of
`pchMessageStart`, a size and a block, that goes on one byte after a header that turns out to be
none. `ProcessBlock` is an argument, and what it is given is kept.

What a turn of the loop does depends on the file and on the position from which it looks for a header
(`BlockScan.turned`): the next header there decides, by how its block is read (`blockAt`).
-/

namespace Terracoin

open Codec ReadProgram CBufferedFile

/-- What comes of `ProcessBlock`. -/
inductive ProcessOutcome where
  | accepted
  | rejected
  /-- A `std::exception`, which is caught. -/
  | thrown
  /-- `state.IsError()`. -/
  | error
deriving DecidableEq, Repr

/-- A block that was passed to `ProcessBlock`, with where it was read. -/
structure PassedBlock where
  nBlockPos : Nat
  block : CBlock
  nEnd : Nat

/-- The loop of `LoadExternalBlockFile`. -/
structure BlockScan where
  blkdat : CBufferedFile
  nRewind : Nat
  /-- In the order of the calls. -/
  passed : List PassedBlock
  nLoaded : Nat

/-- How a turn of the loop ends. -/
inductive ScanTurn where
  | again (s : BlockScan)
  | stop (s : BlockScan)
  | stuck

section

variable [NodeConfig] [ObjectSizes] (processBlock : List CBlock → CBlock → ProcessOutcome)

namespace BlockScan

def start (fileIn : List UInt8) : BlockScan where
  blkdat := CBufferedFile.new fileIn (2 * maxBlockSize) (maxBlockSize + 8)
  nRewind := 0
  passed := []
  nLoaded := 0

def process (s : BlockScan) (nBlockPos : Nat) (block : CBlock) : ScanTurn :=
  let passed := s.passed ++ [⟨nBlockPos, block, s.blkdat.getPos⟩]
  match processBlock (s.passed.map PassedBlock.block) block with
  | .accepted => .again { s with passed := passed, nLoaded := s.nLoaded + 1 }
  | .rejected => .again { s with passed := passed }
  | .thrown => .again { s with passed := passed }
  | .error => .stop { s with passed := passed }

def readBlock (s : BlockScan) (nSize : Nat) : ScanTurn :=
  let nBlockPos := s.blkdat.getPos
  let blkdat := (s.blkdat.setLimit (some (nBlockPos + nSize))).2
  match runOn CBlock.unserialize blkdat with
  | (.ok block, blkdat) =>
    { s with blkdat := blkdat, nRewind := blkdat.getPos }.process processBlock nBlockPos block
  | (.thrown, blkdat) => .again { s with blkdat := blkdat }
  | (.stuck, _) => .stuck

def readHeader (s : BlockScan) : ScanTurn :=
  match s.blkdat.read 4 with
  | (.ok buf, blkdat) =>
    if buf ≠ pchMessageStart.1 then .again { s with blkdat := blkdat }
    else
      match blkdat.read 4 with
      | (.ok bytes, blkdat) =>
        let nSize := littleEndianValue bytes
        if nSize < 80 ∨ nSize > maxBlockSize then .again { s with blkdat := blkdat }
        else { s with blkdat := blkdat }.readBlock processBlock nSize
      | (.thrown, blkdat) => .stop { s with blkdat := blkdat }
      | (.stuck, _) => .stuck
  | (.thrown, blkdat) => .stop { s with blkdat := blkdat }
  | (.stuck, _) => .stuck

/-- Go back, start one byte further next time, remove the former limit and locate a header. -/
def turn (s : BlockScan) : ScanTurn :=
  if !(s.blkdat.good && !s.blkdat.eof) then .stop s
  else
    let blkdat := (s.blkdat.setPos s.nRewind).2
    let nRewind := s.nRewind + 1
    let blkdat := (blkdat.setLimit none).2
    match blkdat.findByte (pchMessageStart.1.headD 0) with
    | (.ok _, blkdat) =>
      { s with blkdat := blkdat, nRewind := blkdat.getPos + 1 }.readHeader processBlock
    -- no valid block header found
    | (.thrown, blkdat) => .stop { s with blkdat := blkdat, nRewind := nRewind }
    | (.stuck, _) => .stuck

/-- Turns until the loop ends; none if it does not. -/
def loop : Nat → BlockScan → Option BlockScan
  | 0, _ => none
  | fuel + 1, s =>
    match s.turn processBlock with
    | .again s => loop fuel s
    | .stop s => some s
    | .stuck => none

end BlockScan

/-- `LoadExternalBlockFile`, and the blocks that were passed to `ProcessBlock`. -/
def loadExternalBlockFile (fileIn : List UInt8) (fuel : Nat) : Option (Bool × List PassedBlock) :=
  (BlockScan.loop processBlock fuel (BlockScan.start fileIn)).map fun s =>
    (0 < s.nLoaded, s.passed)

end

/-! ## Records -/

theorem littleEndianValue_littleEndian {n : Nat} (hn : n < 2 ^ 32) :
    littleEndianValue (littleEndian 4 n) = n := by
  have hread := decodes_littleEndian (k := 4) (lt_of_lt_of_eq hn (by decide)) []
  rw [List.append_nil, readLittleEndian_eq, length_littleEndian, if_neg (lt_irrefl 4),
    List.take_of_length_le (length_littleEndian 4 n).le] at hread
  exact (Prod.mk.inj (Option.some.inj hread)).1

theorem mul_le_littleEndianValue {s : List UInt8} {i : Nat} {b : UInt8} (hb : s[i]? = some b) :
    b.toNat * 256 ^ i ≤ littleEndianValue s := by
  induction s generalizing i with
  | nil => cases hb
  | cons c s ih =>
    rw [littleEndianValue]
    cases i with
    | zero =>
      obtain rfl := Option.some.inj hb
      rw [pow_zero]
      omega
    | succ i =>
      have hle := ih hb
      rw [pow_succ, ← Nat.mul_assoc]
      omega

section

variable [NodeConfig] {fileIn : List UInt8} {x h : Nat} {block : CBlock}

theorem pchMessageStart_cases {P : List UInt8 → Prop} (hTestNet : P [0x41, 0xba, 0xbe, 0x56])
    (hMainNet : P [0x42, 0xba, 0xbe, 0x56]) : P pchMessageStart.1 := by
  rw [pchMessageStart]
  cases NodeConfig.fTestNet with
  | true => exact hTestNet
  | false => exact hMainNet

/-- A record at position `x`: the message start, the size and the block. -/
structure IsRecord (fileIn : List UInt8) (x : Nat) (block : CBlock) : Prop where
  fits : block.Fits
  le_size : 80 ≤ block.write.length
  size_le : block.write.length ≤ maxBlockSize
  bytes : ∃ rest, fileIn.drop x =
    pchMessageStart.1 ++ (littleEndian 4 block.write.length ++ (block.write ++ rest))

namespace IsRecord

theorem start_eq (hrec : IsRecord fileIn x block) :
    (fileIn.drop x).take 4 = pchMessageStart.1 := by
  obtain ⟨rest, hrest⟩ := hrec.bytes
  rw [hrest]
  exact List.take_left' pchMessageStart.2

theorem size_eq (hrec : IsRecord fileIn x block) :
    littleEndianValue ((fileIn.drop (x + 4)).take 4) = block.write.length := by
  obtain ⟨rest, hrest⟩ := hrec.bytes
  have hsize := hrec.size_le
  have hmax : maxBlockSize < 2 ^ 32 := by decide
  rw [← List.drop_drop, hrest, List.drop_left' pchMessageStart.2,
    List.take_left' (length_littleEndian 4 _), littleEndianValue_littleEndian (by omega)]

theorem block_eq (hrec : IsRecord fileIn x block) :
    ∃ rest, fileIn.drop (x + 8) = block.write ++ rest := by
  obtain ⟨rest, hrest⟩ := hrec.bytes
  refine ⟨rest, ?_⟩
  rw [show x + 8 = x + 4 + 4 from rfl, ← List.drop_drop, ← List.drop_drop, hrest,
    List.drop_left' pchMessageStart.2, List.drop_left' (length_littleEndian 4 _)]

theorem length_le (hrec : IsRecord fileIn x block) : x + 88 ≤ fileIn.length := by
  obtain ⟨rest, hrest⟩ := hrec.bytes
  have hlength := congrArg List.length hrest
  have hsize := hrec.le_size
  rw [List.length_drop, List.length_append, pchMessageStart.2, List.length_append,
    length_littleEndian, List.length_append] at hlength
  omega

end IsRecord

theorem getElem?_of_start (hstart : (fileIn.drop h).take 4 = pchMessageStart.1) {i : Nat}
    (hi : i < 4) : fileIn[h + i]? = pchMessageStart.1[i]? := by
  rw [← hstart, List.getElem?_take_of_lt hi, List.getElem?_drop]

theorem first_byte_of_start (hstart : (fileIn.drop h).take 4 = pchMessageStart.1) :
    fileIn[h]? = some (pchMessageStart.1.headD 0) := by
  have hbyte := getElem?_of_start hstart (by decide : 0 < 4)
  rw [Nat.add_zero] at hbyte
  rw [hbyte]
  exact pchMessageStart_cases (P := fun m => m[0]? = some (m.headD 0)) rfl rfl

/-- No record starts inside the header of a block. -/
theorem not_isRecord_inside (hstart : (fileIn.drop h).take 4 = pchMessageStart.1)
    (hsize : littleEndianValue ((fileIn.drop (h + 4)).take 4) ≤ maxBlockSize) (hlt : h < x)
    (hx : x < h + 8) : ¬ IsRecord fileIn x block := by
  intro hrec
  have hself : ∀ i < 4, 0 < i → pchMessageStart.1[i]? ≠ pchMessageStart.1[0]? :=
    pchMessageStart_cases (P := fun m => ∀ i < 4, 0 < i → m[i]? ≠ m[0]?) (by decide) (by decide)
  have hnonzero : ∀ i < 4, pchMessageStart.1[i]? ≠ some 0 :=
    pchMessageStart_cases (P := fun m => ∀ i < 4, m[i]? ≠ some 0) (by decide) (by decide)
  obtain ⟨j, rfl⟩ := Nat.exists_eq_add_of_lt hlt
  by_cases hj : j + 1 < 4
  · -- the header does not start again
    refine hself (j + 1) hj (Nat.succ_pos j) ?_
    rw [← getElem?_of_start hstart hj, ← getElem?_of_start hrec.start_eq (by decide : 0 < 4)]
    rfl
  · -- the size is too small for its last byte to be another one than zero
    have hlast := getElem?_of_start hrec.start_eq (show 6 - j < 4 by omega)
    rw [show h + j + 1 + (6 - j) = h + 4 + 3 by omega] at hlast
    obtain ⟨b, hb⟩ : ∃ b, pchMessageStart.1[6 - j]? = some b := by
      refine ⟨_, List.getElem?_eq_getElem ?_⟩
      rw [pchMessageStart.2]
      omega
    have hbyte : ((fileIn.drop (h + 4)).take 4)[3]? = some b := by
      rw [List.getElem?_take_of_lt (by decide), List.getElem?_drop, hlast, hb]
    have hle := le_trans (mul_le_littleEndianValue hbyte) hsize
    have hmax : maxBlockSize < 256 ^ 3 := by decide
    obtain rfl : b = 0 := by
      refine UInt8.toNat_inj.mp ?_
      change b.toNat = 0
      omega
    exact hnonzero _ (by omega) hb

end

/-! ## Headers -/

section

variable [NodeConfig] [ObjectSizes] {fileIn : List UInt8} {x h p : Nat} {block : CBlock}
  {a a' : Program.Attempt CBlock}

/-- How the block is read whose header is at position `h`, if there is a header: the message start and
a size that is possible. It is read up to that size, and at most `MAX_BLOCK_SIZE - 8` bytes at once. -/
def blockAt (fileIn : List UInt8) (h : Nat) : Option (Program.Attempt CBlock) :=
  let nSize := littleEndianValue ((fileIn.drop (h + 4)).take 4)
  if (fileIn.drop h).take 4 = pchMessageStart.1 ∧ h + 8 ≤ fileIn.length ∧ 80 ≤ nSize ∧
      nSize ≤ maxBlockSize then
    some (CBlock.unserialize.attempt fileIn (h + 8 + nSize) (maxBlockSize - 8) (h + 8))
  else none

theorem blockAt_some (hblock : blockAt fileIn h = some a) :
    (fileIn.drop h).take 4 = pchMessageStart.1 ∧ h + 8 ≤ fileIn.length ∧
      littleEndianValue ((fileIn.drop (h + 4)).take 4) ≤ maxBlockSize := by
  rw [blockAt] at hblock
  split at hblock
  · next hheader => exact ⟨hheader.1, hheader.2.1, hheader.2.2.2⟩
  · cases hblock

theorem blockAt_of_not_start (hstart : (fileIn.drop h).take 4 ≠ pchMessageStart.1) :
    blockAt fileIn h = none := if_neg fun hheader => hstart hheader.1

theorem blockAt_of_length_lt (hlength : fileIn.length < h + 8) : blockAt fileIn h = none :=
  if_neg fun hheader => absurd hheader.2.1 hlength.not_ge

theorem blockAt_of_first_byte (hbyte : fileIn[h]? ≠ some (pchMessageStart.1.headD 0)) :
    blockAt fileIn h = none :=
  blockAt_of_not_start fun hstart => hbyte (first_byte_of_start hstart)

theorem le_of_blockAt {nEnd : Nat} (hblock : blockAt fileIn h = some (.ok block nEnd)) :
    h + 8 ≤ nEnd := by
  rw [blockAt] at hblock
  split at hblock
  · exact Program.le_of_attempt (Option.some.inj hblock)
  · cases hblock

theorem IsRecord.blockAt (hrec : IsRecord fileIn x block) :
    blockAt fileIn x = some (.ok block (x + 8 + block.write.length)) := by
  obtain ⟨rest, hrest⟩ := hrec.block_eq
  have hlength := hrec.length_le
  have hle := hrec.size_le
  have hmax : 80 ≤ maxBlockSize - 8 ∧ maxBlockSize ≤ maxBlockSize - 8 + 80 := by decide
  rw [Terracoin.blockAt, hrec.size_eq, if_pos ⟨hrec.start_eq, by omega, hrec.le_size, hle⟩,
    CBlock.attempt_unserialize hrec.fits hrest (Nat.le_refl _) hmax.1 (by omega)]

/-- The first header from position `p` on. -/
structure FirstHeader (fileIn : List UInt8) (p h : Nat) (a : Program.Attempt CBlock) : Prop where
  le : p ≤ h
  block : blockAt fileIn h = some a
  before : ∀ i, p ≤ i → i < h → blockAt fileIn i = none

theorem FirstHeader.unique {h' : Nat} (hfirst : FirstHeader fileIn p h a)
    (hfirst' : FirstHeader fileIn p h' a') : h' = h ∧ a' = a := by
  have heq : h' = h := by
    rcases Nat.lt_trichotomy h' h with hlt | heq | hlt
    · have hblock := hfirst'.block
      rw [hfirst.before h' hfirst'.le hlt] at hblock
      cases hblock
    · exact heq
    · have hblock := hfirst.block
      rw [hfirst'.before h hfirst.le hlt] at hblock
      cases hblock
  subst heq
  exact ⟨rfl, Option.some.inj (hfirst'.block.symm.trans hfirst.block)⟩

end

/-! ## One turn -/

/-- From where the scan goes on after the header at position `h`. It ends if the block cannot be read
and the file is found to end there; and `SetPos` does not go back to `h + 1` if the buffer has read
ahead too far. -/
def nextPos (fileIn : List UInt8) (h : Nat) : Program.Attempt CBlock → Option Nat
  | .ok _ nEnd => some nEnd
  | .refused nEnd =>
    if nEnd = fileIn.length ∧ fileIn.length < fetched nEnd then none
    else some (max (h + 1) (min fileIn.length (fetched nEnd) - (maxBlockSize + 8)))
  | .cut => none

/-- The block that is passed on at the header. -/
def found (h : Nat) : Program.Attempt CBlock → List PassedBlock
  | .ok b nEnd => [⟨h + 8, b, nEnd⟩]
  | _ => []

theorem mem_found {h : Nat} {a : Program.Attempt CBlock} {b : PassedBlock} (hb : b ∈ found h a) :
    a = .ok b.block b.nEnd ∧ b.nBlockPos = h + 8 := by
  cases a with
  | ok block nEnd =>
    obtain rfl := List.mem_singleton.mp hb
    exact ⟨rfl, rfl⟩
  | refused nEnd => cases hb
  | cut => cases hb

section

variable {fileIn : List UInt8} {f f' : CBufferedFile}

theorem CBufferedFile.IsScanFile.good (hf : IsScanFile fileIn f) : f.good = true := by
  rw [CBufferedFile.good, hf.fFail]
  rfl

theorem CBufferedFile.IsScanFile.eof_iff (hf : IsScanFile fileIn f) :
    f.eof = true ↔ f.nReadPos = fileIn.length ∧ fileIn.length < fetched f.nReadPos := by
  have hsrc := hf.nSrcPos
  have hle := hf.read_le
  have hlength := hf.src_le
  rw [eof, Bool.and_eq_true, decide_eq_true_iff, hf.fEof]
  constructor
  · rintro ⟨hread, hlt⟩
    rw [← hread] at hsrc hlt
    exact ⟨by omega, hlt⟩
  · rintro ⟨hread, hlt⟩
    have heq : f.nReadPos = f.nSrcPos := by omega
    exact ⟨heq, heq ▸ hlt⟩

/-- `SetPos` to a position that has been read from the source, and no limit. -/
theorem CBufferedFile.IsScanFile.restart (hf : IsScanFile fileIn f) {nPos : Nat}
    (hle : nPos ≤ f.nSrcPos) :
    IsScanFile fileIn ((f.setPos nPos).2.setLimit none).2 ∧
      ((f.setPos nPos).2.setLimit none).2.nReadPos =
        max nPos (f.nSrcPos - (maxBlockSize + 8)) ∧
      ((f.setPos nPos).2.setLimit none).2.nSrcPos = f.nSrcPos ∧
      ((f.setPos nPos).2.setLimit none).2.nReadLimit = none := by
  have heq : ((f.setPos nPos).2.setLimit none).2 =
      { f with nReadPos := max nPos (f.nSrcPos - f.nRewind), nReadLimit := none } := by
    rw [setPos]
    split_ifs with hfar hbeyond
    · rw [max_eq_right (by omega)]
      rfl
    · omega
    · rw [max_eq_left (by omega)]
      rfl
  have hrewind := hf.valid.rewind_lt
  have hnear : f.nSrcPos ≤ max nPos (f.nSrcPos - f.nRewind) + f.nBufSize := by omega
  rw [heq, ← hf.nRewind]
  exact ⟨(hf.setReadPos (max_le hle (Nat.sub_le _ _)) hnear).withLimit none, rfl, rfl, rfl⟩

end

section

variable [NodeConfig] [ObjectSizes] {processBlock : List CBlock → CBlock → ProcessOutcome}
  {fileIn : List UInt8} {s : BlockScan} {p h : Nat}

namespace BlockScan

/-- The loop does not take another turn. -/
def Ended (s : BlockScan) : Prop := s.blkdat.good = false ∨ s.blkdat.eof = true

/-- At the head of the loop: it goes on from position `p`, or it ends and there is no header from there
on. -/
inductive Head (fileIn : List UInt8) (s : BlockScan) (p : Nat) : Prop
  | going (file : IsScanFile fileIn s.blkdat) (eof : s.blkdat.eof = false)
    (rewind_le : s.nRewind ≤ s.blkdat.nSrcPos)
    (pos : max s.nRewind (s.blkdat.nSrcPos - (maxBlockSize + 8)) = p)
  | ended (ended : s.Ended) (le : p ≤ fileIn.length)
    (none : ∀ i, p ≤ i → blockAt fileIn i = none)

theorem Head.le (hhead : Head fileIn s p) : p ≤ fileIn.length := by
  cases hhead with
  | going file eof rewind_le pos =>
    have hlength := file.src_le
    omega
  | ended ended le none => exact le

omit [ObjectSizes] [NodeConfig] in
theorem start_file (fileIn : List UInt8) : IsScanFile fileIn (start fileIn).blkdat where
  valid := valid_new (by decide)
  read_le := Nat.le_refl 0
  src := rfl
  nRewind := rfl
  nBufSize := rfl
  nSrcPos := (Nat.min_zero _).symm
  fFail := rfl
  fEof := ⟨nofun, nofun⟩

theorem head_start (fileIn : List UInt8) : Head fileIn (start fileIn) 0 :=
  .going (start_file fileIn) rfl (Nat.le_refl 0) (max_eq_left (Nat.sub_le 0 _))

theorem Ended.turn_eq (h : s.Ended) : s.turn processBlock = .stop s := by
  have hstop : (!(s.blkdat.good && !s.blkdat.eof)) = true := by
    rcases h with h | h
    · rw [h]
      rfl
    · rw [h, Bool.not_true, Bool.and_false]
      rfl
  rw [turn, if_pos hstop]

theorem head_of_file (hfile : IsScanFile fileIn s.blkdat) (hle : s.nRewind ≤ s.blkdat.nSrcPos)
    (hpos : max s.nRewind (s.blkdat.nSrcPos - (maxBlockSize + 8)) = p)
    (hnear : s.blkdat.nReadPos < p + 8) : Head fileIn s p := by
  cases heof : s.blkdat.eof with
  | false => exact .going hfile heof hle hpos
  | true =>
    have hend := (hfile.eof_iff.mp heof).1
    have hlength := hfile.src_le
    exact .ended (.inr heof) (by omega) fun i hi => blockAt_of_length_lt (by omega)

/-- What one turn does that starts at position `p`. -/
inductive Turned (fileIn : List UInt8) (passed : List PassedBlock) (p : Nat) : ScanTurn → Prop
  | ended {s' : BlockScan} (same : s'.passed = passed)
    (none : ∀ i, p ≤ i → blockAt fileIn i = none) : Turned fileIn passed p (.stop s')
  | noHeader {s' : BlockScan} {p' : Nat} (same : s'.passed = passed) (lt : p < p')
    (none : ∀ i, p ≤ i → i < p' → blockAt fileIn i = none) (head : Head fileIn s' p') :
    Turned fileIn passed p (.again s')
  | on {s' : BlockScan} {h p' : Nat} {a : Program.Attempt CBlock} (first : FirstHeader fileIn p h a)
    (added : s'.passed = passed ++ found h a) (on : nextPos fileIn h a = some p')
    (head : Head fileIn s' p') : Turned fileIn passed p (.again s')
  | stop {s' : BlockScan} {h : Nat} {a : Program.Attempt CBlock} (first : FirstHeader fileIn p h a)
    (same : s'.passed = passed) (stop : nextPos fileIn h a = none) (ended : s'.Ended) :
    Turned fileIn passed p (.again s')

theorem turned_process (hprocess : ∀ passed block, processBlock passed block ≠ .error)
    {b : CBlock} (hfile : IsScanFile fileIn s.blkdat) (hrewind : s.nRewind = s.blkdat.nReadPos)
    (hnear : s.blkdat.nSrcPos ≤ s.nRewind + (maxBlockSize + 8))
    (hfirst : FirstHeader fileIn p h (.ok b s.nRewind)) :
    Turned fileIn s.passed p (s.process processBlock (h + 8) b) := by
  have hmax : max s.nRewind (s.blkdat.nSrcPos - (maxBlockSize + 8)) = s.nRewind :=
    max_eq_left (by omega)
  have hread : s.blkdat.nReadPos < s.nRewind + 8 := by omega
  have hhead : ∀ passed nLoaded, Head fileIn
      { s with passed := passed, nLoaded := nLoaded } s.nRewind := fun _ _ =>
    head_of_file hfile (hrewind.trans_le hfile.read_le) hmax hread
  have hne := hprocess (s.passed.map PassedBlock.block) b
  have hpos : s.blkdat.getPos = s.nRewind := hrewind.symm
  rw [BlockScan.process, hpos]
  cases houtcome : processBlock (s.passed.map PassedBlock.block) b with
  | accepted => exact .on hfirst rfl rfl (hhead _ _)
  | rejected => exact .on hfirst rfl rfl (hhead _ _)
  | thrown => exact .on hfirst rfl rfl (hhead _ _)
  | error => exact absurd houtcome hne

/-- After a header and a size that are possible. -/
theorem turned_readBlock (hprocess : ∀ passed block, processBlock passed block ≠ .error)
    (hfile : IsScanFile fileIn s.blkdat) (hpos : s.blkdat.nReadPos = h + 8)
    (hrewind : s.nRewind = h + 1) (hnear : s.blkdat.nSrcPos ≤ h + 1 + (maxBlockSize + 8))
    {nSize : Nat} (hfirst : FirstHeader fileIn p h
      (CBlock.unserialize.attempt fileIn (h + 8 + nSize) (maxBlockSize - 8) (h + 8))) :
    Turned fileIn s.passed p (s.readBlock processBlock nSize) := by
  have hset : (s.blkdat.setLimit (some (s.blkdat.getPos + nSize))).2 =
      { s.blkdat with nReadLimit := some (h + 8 + nSize) } := by
    have hnot : ¬ (some (s.blkdat.getPos + nSize)).any (· < s.blkdat.nReadPos) := by
      rw [Option.any_some, decide_eq_true_iff]
      exact Nat.not_lt.mpr (Nat.le_add_right _ _)
    rw [setLimit, if_neg hnot, getPos]
    exact congrArg (fun n => { s.blkdat with nReadLimit := some (n + nSize) }) hpos
  have hlimited := hfile.withLimit (some (h + 8 + nSize))
  have hread : { s.blkdat with nReadLimit := some (h + 8 + nSize) }.nReadPos = h + 8 := hpos
  have hsrc : { s.blkdat with nReadLimit := some (h + 8 + nSize) }.nSrcPos ≤
      h + 1 + (maxBlockSize + 8) := hnear
  have hlimit : { s.blkdat with nReadLimit := some (h + 8 + nSize) }.nReadLimit =
      some (h + 8 + nSize) := rfl
  rw [BlockScan.readBlock, hset, getPos]
  generalize { s.blkdat with nReadLimit := some (h + 8 + nSize) } = f at *
  have hran := ran_runOn hlimited hlimit CBlock.unserialize
  rw [hread] at hran
  rw [hpos]
  revert hran hfirst
  generalize CBlock.unserialize.attempt fileIn (h + 8 + nSize) (maxBlockSize - 8) (h + 8) = a
  generalize runOn CBlock.unserialize f = r
  intro hfirst hran
  cases hran with
  | @ok f' b fetches =>
    have hle := fetches.le
    have hsrc' := fetches.nSrcPos
    have hahead := fetched_le f'.nReadPos
    exact turned_process hprocess (s := { s with blkdat := f', nRewind := f'.getPos })
      fetches.file rfl (by change f'.nSrcPos ≤ f'.nReadPos + _; omega) hfirst
  | @refused f' fetches =>
    have hle := fetches.le
    have hsrc' := fetches.nSrcPos
    have hread' := fetches.file.read_le
    by_cases heof : f'.eof = true
    · exact .stop hfirst rfl (if_pos (fetches.file.eof_iff.mp heof)) (.inr heof)
    · have hback : max s.nRewind (f'.nSrcPos - (maxBlockSize + 8)) =
          max (h + 1) (min fileIn.length (fetched f'.nReadPos) - (maxBlockSize + 8)) := by
        generalize maxBlockSize + 8 = nRewind at hsrc ⊢
        omega
      have hrewind' : s.nRewind ≤ f'.nSrcPos := by omega
      exact .on hfirst (List.append_nil _).symm (if_neg (mt fetches.file.eof_iff.mpr heof))
        (.going fetches.file (Bool.eq_false_iff.mpr heof) hrewind' hback)
  | cut fFail =>
    exact .stop hfirst rfl rfl (.inl (by rw [CBufferedFile.good, fFail]; rfl))

theorem turned_noHeader (hfile : IsScanFile fileIn s.blkdat) (hpos : h < s.blkdat.nReadPos)
    (hpos' : s.blkdat.nReadPos < h + 1 + 8) (hrewind : s.nRewind = h + 1)
    (hnear : s.blkdat.nSrcPos ≤ h + 1 + (maxBlockSize + 8)) (hle : p ≤ h)
    (hbefore : ∀ i, p ≤ i → i < h → blockAt fileIn i = none) (hself : blockAt fileIn h = none) :
    Turned fileIn s.passed p (.again s) := by
  have hread := hfile.read_le
  refine .noHeader rfl (Nat.lt_succ_of_le hle) (fun i hi hlt => ?_)
    (head_of_file hfile (by omega) (by omega) hpos')
  rcases Nat.lt_or_eq_of_le (Nat.le_of_lt_succ hlt) with hlt | rfl
  · exact hbefore i hi hlt
  · exact hself

/-- After the first byte of a header. -/
theorem turned_readHeader (hprocess : ∀ passed block, processBlock passed block ≠ .error)
    (hfile : IsScanFile fileIn s.blkdat) (hlimit : s.blkdat.nReadLimit = none)
    (hpos : s.blkdat.nReadPos = h) (hrewind : s.nRewind = h + 1)
    (hnear : s.blkdat.nSrcPos ≤ h + 1 + (maxBlockSize + 8)) (hle : p ≤ h)
    (hbefore : ∀ i, p ≤ i → i < h → blockAt fileIn i = none) :
    Turned fileIn s.passed p (s.readHeader processBlock) := by
  have hroom : 4 ≤ maxBlockSize - 8 := by decide
  have hshort : ∀ n ≤ 8, fileIn.length < h + n → ∀ i, p ≤ i → blockAt fileIn i = none := by
    intro n hn hlt i hi
    by_cases hih : i < h
    · exact hbefore i hi hih
    · exact blockAt_of_length_lt (by omega)
  rw [BlockScan.readHeader]
  rcases hfile.read_eq hlimit hroom with ⟨f1, hread1, short⟩ | ⟨f1, hread1, enough1, fetches1, hpos1⟩
  · rw [hread1]
    exact .ended rfl (hshort 4 (by decide) (hpos ▸ short))
  · rw [hread1]
    rw [hpos] at hpos1 enough1 fetches1 ⊢
    have hsrc1 := fetches1.nSrcPos
    have hahead1 := fetched_le (h + 4)
    have hnear1 : f1.nSrcPos ≤ h + 1 + (maxBlockSize + 8) := by omega
    dsimp only
    split
    · next hother =>
      exact turned_noHeader (s := { s with blkdat := f1 }) fetches1.file
        (lt_of_lt_of_eq (by omega) hpos1.symm) (lt_of_eq_of_lt hpos1 (by omega)) hrewind hnear1 hle
        hbefore (blockAt_of_not_start hother)
    · next hsame =>
      rcases fetches1.file.read_eq (fetches1.nReadLimit.trans hlimit) hroom with
        ⟨f2, hread2, short⟩ | ⟨f2, hread2, enough2, fetches2, hpos2⟩
      · rw [hread2]
        exact .ended rfl (hshort 8 (Nat.le_refl 8) (by omega))
      · rw [hread2]
        rw [hpos1] at hpos2 enough2 fetches2 ⊢
        have hsrc2 := fetches2.nSrcPos
        have hahead2 := fetched_le (h + 4 + 4)
        have hnear2 : f2.nSrcPos ≤ h + 1 + (maxBlockSize + 8) := by omega
        dsimp only
        split
        · next hsize =>
          exact turned_noHeader (s := { s with blkdat := f2 }) fetches2.file
            (lt_of_lt_of_eq (by omega) hpos2.symm) (lt_of_eq_of_lt hpos2 (by omega)) hrewind hnear2
            hle hbefore (if_neg fun hheader => by omega)
        · next hsize =>
          refine turned_readBlock hprocess (s := { s with blkdat := f2 }) fetches2.file hpos2 hrewind
            hnear2 ⟨hle, ?_, hbefore⟩
          rw [blockAt, if_pos ⟨not_not.mp hsame, enough2, by omega, by omega⟩]

theorem turned (hprocess : ∀ passed block, processBlock passed block ≠ .error)
    (hhead : Head fileIn s p) : Turned fileIn s.passed p (s.turn processBlock) := by
  cases hhead with
  | ended hended _ none =>
    rw [hended.turn_eq]
    exact .ended rfl none
  | going hfile heof hrewind hpos =>
    have hgo : ¬ (!(s.blkdat.good && !s.blkdat.eof)) = true := by
      rw [hfile.good, heof]
      decide
    obtain ⟨hfile0, hpos0, hsrc0, hlimit0⟩ := hfile.restart hrewind
    rw [turn, if_neg hgo]
    dsimp only
    revert hfile0 hpos0 hsrc0 hlimit0
    generalize ((s.blkdat.setPos s.nRewind).2.setLimit none).2 = f
    intro hfile0 hpos0 hsrc0 hlimit0
    have hfinds := findsByte hfile0.valid hfile0.small hfile0.read_le (pchMessageStart.1.headD 0)
    have hfetches : ∀ f', f.findByte (pchMessageStart.1.headD 0) = (.ok (), f') →
        Fetches fileIn f (f'.nReadPos + 1) f' := fun _ h => hfile0.findByteLoop h
    revert hfinds hfetches
    generalize f.findByte (pchMessageStart.1.headD 0) = r
    intro hfinds hfetches
    rw [hpos] at hpos0
    cases hfinds with
    | @ok f' keeps found before lt fFail =>
      have hfetches := hfetches f' rfl
      have hsrc := hfetches.nSrcPos
      have hahead := fetched_le (f'.nReadPos + 1)
      have hle := hfetches.le
      rw [hpos0] at before hle
      rw [hfile0.src] at before
      exact turned_readHeader hprocess (s := { s with blkdat := f', nRewind := f'.getPos + 1 })
        hfetches.file (hfetches.nReadLimit.trans hlimit0) rfl rfl
        (by change f'.nSrcPos ≤ f'.nReadPos + 1 + _; omega) hle
        fun i hi hlt => blockAt_of_first_byte (before i hi hlt)
    | thrown keeps none =>
      rw [hpos0, hfile0.src] at none
      exact .ended rfl fun i hi => blockAt_of_first_byte (none i hi)

end BlockScan

end

end Terracoin
