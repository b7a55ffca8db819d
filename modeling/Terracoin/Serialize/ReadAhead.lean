import Terracoin.Serialize.BlockStream

/-!
# Reading ahead

How far a `CBufferedFile` has read its source, for the buffer of `LoadExternalBlockFile`: it has
`2 * MAX_BLOCK_SIZE` bytes, and `MAX_BLOCK_SIZE + 8` of them are for going back. When everything has
been read, `Fill` reads what is left of these, or to the end of the buffer. So the position in the
source depends on the last byte that was read alone (`fetched`), and with it how a program that reads
ends (`ran_runOn`).
-/

namespace Terracoin

open Codec ReadProgram

namespace CBufferedFile

/-- How far a source without an end has been read, when the bytes before `nPos` have been. -/
def fetched (nPos : Nat) : Nat :=
  let pos := nPos % (2 * maxBlockSize)
  nPos - pos +
    if pos = 0 then 0
    else if pos ≤ maxBlockSize - 8 then maxBlockSize - 8
    else if pos ≤ 2 * (maxBlockSize - 8) then 2 * (maxBlockSize - 8)
    else 2 * maxBlockSize

theorem fetched_spec (n : Nat) :
    n % 2000000 = 0 ∧ fetched n = n ∨
    0 < n % 2000000 ∧ n % 2000000 ≤ 999992 ∧ fetched n = n - n % 2000000 + 999992 ∨
    999992 < n % 2000000 ∧ n % 2000000 ≤ 1999984 ∧ fetched n = n - n % 2000000 + 1999984 ∨
    1999984 < n % 2000000 ∧ fetched n = n - n % 2000000 + 2000000 := by
  have hle := Nat.mod_le n 2000000
  rw [fetched, show 2 * maxBlockSize = 2000000 from rfl, show maxBlockSize - 8 = 999992 from rfl]
  by_cases hzero : n % 2000000 = 0
  · rw [if_pos hzero]
    omega
  · by_cases hfirst : n % 2000000 ≤ 999992
    · rw [if_neg hzero, if_pos hfirst]
      omega
    · by_cases hsecond : n % 2000000 ≤ 2 * 999992
      · rw [if_neg hzero, if_neg hfirst, if_pos hsecond]
        omega
      · rw [if_neg hzero, if_neg hfirst, if_neg hsecond]
        omega

theorem le_fetched (n : Nat) : n ≤ fetched n := by
  have hspec := fetched_spec n
  omega

theorem fetched_le (n : Nat) : fetched n ≤ n + maxBlockSize := by
  have hspec := fetched_spec n
  rw [maxBlockSize]
  omega

theorem fetched_mono {m n : Nat} (h : m ≤ n) : fetched m ≤ fetched n := by
  have hm := fetched_spec m
  have hn := fetched_spec n
  omega

theorem fetched_eq {m n : Nat} (hlt : m < n) (hle : n ≤ fetched (m + 1)) :
    fetched n = fetched (m + 1) := by
  have hm := fetched_spec (m + 1)
  have hn := fetched_spec n
  omega

theorem fetched_succ {n : Nat} (h : fetched n = n) :
    fetched (n + 1) = n + min (2 * maxBlockSize - n % (2 * maxBlockSize)) (maxBlockSize - 8) := by
  have hn := fetched_spec n
  have hsucc := fetched_spec (n + 1)
  rw [maxBlockSize]
  omega

variable {α : Type} {fileIn : List UInt8} {f f' f'' : CBufferedFile} {nPos : Nat}

/-- The file in the scan: its content, the sizes of the buffer, how far the source has been read, and
whether it has been found to end. -/
structure IsScanFile (fileIn : List UInt8) (f : CBufferedFile) : Prop where
  valid : f.Valid
  read_le : f.nReadPos ≤ f.nSrcPos
  src : f.src = fileIn
  nRewind : f.nRewind = maxBlockSize + 8
  nBufSize : f.nBufSize = 2 * maxBlockSize
  nSrcPos : f.nSrcPos = min fileIn.length (fetched f.nSrcPos)
  fFail : f.fFail = false
  fEof : f.fEof = true ↔ fileIn.length < fetched f.nSrcPos

/-- What a call that has read the bytes before `nPos` keeps, and how far it has read the source. -/
structure Fetches (fileIn : List UInt8) (f : CBufferedFile) (nPos : Nat) (f' : CBufferedFile) :
    Prop where
  file : IsScanFile fileIn f'
  le : f.nReadPos ≤ f'.nReadPos
  nReadLimit : f'.nReadLimit = f.nReadLimit
  nSrcPos : f'.nSrcPos = max f.nSrcPos (min fileIn.length (fetched nPos))

theorem Fetches.trans {m n : Nat} (h : Fetches fileIn f m f') (h' : Fetches fileIn f' n f'')
    (hle : m ≤ n) : Fetches fileIn f n f'' where
  file := h'.file
  le := h.le.trans h'.le
  nReadLimit := h'.nReadLimit.trans h.nReadLimit
  nSrcPos := by
    have hmono := fetched_mono hle
    rw [h'.nSrcPos, h.nSrcPos]
    omega

namespace IsScanFile

theorem small (hf : IsScanFile fileIn f) : f.nBufSize < 2 ^ 32 := by
  rw [hf.nBufSize]
  decide

theorem src_le (hf : IsScanFile fileIn f) : f.nSrcPos ≤ fileIn.length := hf.src ▸ hf.valid.src_le

theorem max_fetched (hf : IsScanFile fileIn f) (h : nPos ≤ f.nSrcPos) :
    max f.nSrcPos (min fileIn.length (fetched nPos)) = f.nSrcPos := by
  have hmono := fetched_mono h
  have hsrc := hf.nSrcPos
  omega

theorem fetches (hf : IsScanFile fileIn f) : Fetches fileIn f f.nReadPos f :=
  ⟨hf, Nat.le_refl _, rfl, (hf.max_fetched hf.read_le).symm⟩

theorem setReadPos (hf : IsScanFile fileIn f) (hle : nPos ≤ f.nSrcPos)
    (hnear : f.nSrcPos ≤ nPos + f.nBufSize) : IsScanFile fileIn { f with nReadPos := nPos } :=
  ⟨hf.valid.setReadPos hnear, hle, hf.src, hf.nRewind, hf.nBufSize, hf.nSrcPos, hf.fFail, hf.fEof⟩

theorem withLimit (hf : IsScanFile fileIn f) (nPos : Option Nat) :
    IsScanFile fileIn { f with nReadLimit := nPos } := by
  obtain ⟨hv, hle, hsrc, hrewind, hsize, hpos, hfail, heof⟩ := hf
  exact ⟨⟨hv.rewind_lt, hv.src_le, hv.window, hv.ahead, hv.small⟩, hle, hsrc, hrewind, hsize, hpos,
    hfail, heof⟩

/-- At the end of what has been read, and not of the file. -/
theorem fill_eq (hf : IsScanFile fileIn f) (hread : f.nReadPos = f.nSrcPos)
    (hmore : f.nSrcPos < fileIn.length) :
    f.fill.2.nSrcPos = min fileIn.length (fetched (f.nSrcPos + 1)) ∧
      (f.fill.2.fEof = true ↔ fileIn.length < fetched (f.nSrcPos + 1)) := by
  have hboundary : fetched f.nSrcPos = f.nSrcPos := by
    have hpos := hf.nSrcPos
    omega
  have hnext := fetched_succ hboundary
  have hnow : f.readNow =
      min (2 * maxBlockSize - f.nSrcPos % (2 * maxBlockSize)) (maxBlockSize - 8) := by
    unfold readNow
    rw [hf.valid.mod_eq (Nat.le_refl f.nSrcPos)]
    dsimp only
    split
    · next hlt =>
      rw [hf.nBufSize, hf.nRewind, hread, maxBlockSize] at hlt ⊢
      omega
    · next hge =>
      rw [hf.nBufSize, hf.nRewind, hread, maxBlockSize] at hge
      rw [hf.nBufSize, maxBlockSize]
      omega
  have hpos : 0 < f.readNow := hf.valid.readNow_pos hf.small hread
  have hlength : ((f.src.drop f.nSrcPos).take f.readNow).length
      = min f.readNow (fileIn.length - f.nSrcPos) := by
    rw [List.length_take, List.length_drop, hf.src]
  have heof : f.fEof = false := by
    rw [← Bool.not_eq_true, hf.fEof, hboundary]
    exact hmore.not_gt
  rw [fill]
  dsimp only
  rw [if_neg hpos.ne', if_neg (by omega)]
  refine ⟨?_, ?_⟩
  · change f.nSrcPos + _ = _
    omega
  · change (f.fEof || decide (_ < f.readNow)) = true ↔ _
    rw [heof, Bool.false_or, decide_eq_true_iff, hlength]
    omega

/-- There is a byte to be read. -/
theorem fillIfRead (hf : IsScanFile fileIn f) (hmore : f.nReadPos < fileIn.length) :
    ∃ f', f.fillIfRead = (some true, f') ∧ Fetches fileIn f (f.nReadPos + 1) f' ∧
      f'.nReadPos = f.nReadPos ∧ f'.nReadPos < f'.nSrcPos := by
  have hsupplied := supplied hf.valid hf.read_le
  by_cases hread : f.nReadPos = f.nSrcPos
  · obtain ⟨hsrc, heof⟩ := hf.fill_eq hread (hread ▸ hmore)
    rw [CBufferedFile.fillIfRead, if_pos hread] at hsupplied ⊢
    revert hsupplied hsrc heof
    generalize f.fill = r
    intro hsupplied hsrc heof
    cases hsupplied with
    | full large read_eq => exact absurd hf.small (Nat.not_lt.mpr large)
    | atEnd keeps length_eq fFail =>
      rw [hf.src] at length_eq
      omega
    | @some f' keeps nReadPos lt fFail =>
      dsimp only at hsrc heof
      have hle := le_fetched (f.nSrcPos + 1)
      have hfetched : fetched f'.nSrcPos = fetched (f.nSrcPos + 1) :=
        fetched_eq (by omega) (by omega)
      refine ⟨f', rfl, ⟨⟨keeps.valid, keeps.read_le, keeps.same.src.trans hf.src,
        keeps.same.nRewind.trans hf.nRewind, keeps.same.nBufSize.trans hf.nBufSize, ?_,
        fFail.trans hf.fFail, ?_⟩, keeps.le, keeps.same.nReadLimit, ?_⟩, nReadPos, lt⟩
      · rw [hfetched]
        exact hsrc
      · rw [hfetched]
        exact heof
      · rw [hread]
        omega
  · have hlt : f.nReadPos < f.nSrcPos := Nat.lt_of_le_of_ne hf.read_le hread
    refine ⟨f, by rw [CBufferedFile.fillIfRead, if_neg hread], ⟨hf, Nat.le_refl _, rfl, ?_⟩, rfl, hlt⟩
    rw [hf.max_fetched hlt]

theorem fillIfRead_end (hf : IsScanFile fileIn f) (hend : ¬ f.nReadPos < fileIn.length) :
    ∃ f', f.fillIfRead = (none, f') := by
  have hsupplied := supplied hf.valid hf.read_le
  revert hsupplied
  generalize f.fillIfRead = r
  intro hsupplied
  cases hsupplied with
  | full large read_eq => exact absurd hf.small (Nat.not_lt.mpr large)
  | atEnd keeps length_eq fFail => exact ⟨_, rfl⟩
  | some keeps nReadPos lt fFail =>
    have hle := keeps.valid.src_le
    rw [keeps.same.src, hf.src] at hle
    omega

theorem advance (hf : IsScanFile fileIn f) {n : Nat} (h : f.nReadPos + n ≤ f.nSrcPos) :
    Fetches fileIn f (f.nReadPos + n) { f with nReadPos := f.nReadPos + n } := by
  have hahead := hf.valid.ahead
  exact ⟨hf.setReadPos h (by omega), Nat.le_add_right _ _, rfl, (hf.max_fetched h).symm⟩

theorem readLoop (hf : IsScanFile fileIn f) {fuel nSize : Nat} {pch bytes : List UInt8}
    (h : readLoop fuel f nSize pch = (.ok bytes, f')) : Fetches fileIn f f'.nReadPos f' := by
  induction fuel generalizing f nSize pch with
  | zero =>
    cases h
    exact hf.fetches
  | succ fuel ih =>
    rw [CBufferedFile.readLoop] at h
    split at h
    · cases h
      exact hf.fetches
    · by_cases hmore : f.nReadPos < fileIn.length
      · obtain ⟨f1, hfill, hfetches, hpos, hlt⟩ := hf.fillIfRead hmore
        rw [hfill] at h
        dsimp only at h
        split at h
        · cases h
        · next hsize hnow =>
          obtain ⟨-, -, hsrc, -⟩ := hfetches.file.valid.nNow_spec hlt hsize
          have hstep := hfetches.file.advance hsrc
          have hrest := ih hstep.file h
          exact (hfetches.trans hstep (by omega)).trans hrest hrest.le
      · obtain ⟨f1, hfill⟩ := hf.fillIfRead_end hmore
        rw [hfill] at h
        cases h

/-- How a read ends: it is refused, the file ends, or the bytes are there. -/
inductive Reads (fileIn : List UInt8) (f : CBufferedFile) (nSize : Nat) :
    StreamResult (List UInt8) × CBufferedFile → Prop
  | refused (h : f.nReadLimit.any (· < nSize + f.nReadPos) = true ∨ maxBlockSize - 8 < nSize) :
    Reads fileIn f nSize (.thrown, f)
  | cut {f' : CBufferedFile} (h : ¬ f.nReadLimit.any (· < nSize + f.nReadPos) = true)
    (room : nSize ≤ maxBlockSize - 8) (short : fileIn.length < f.nReadPos + nSize)
    (fFail : f'.fFail = true) : Reads fileIn f nSize (.thrown, f')
  | ok {f' : CBufferedFile} (h : ¬ f.nReadLimit.any (· < nSize + f.nReadPos) = true)
    (room : nSize ≤ maxBlockSize - 8) (enough : f.nReadPos + nSize ≤ fileIn.length)
    (fetches : Fetches fileIn f (f.nReadPos + nSize) f') (nReadPos : f'.nReadPos = f.nReadPos + nSize) :
    Reads fileIn f nSize (.ok ((fileIn.drop f.nReadPos).take nSize), f')

theorem reads (hf : IsScanFile fileIn f) (nSize : Nat) : Reads fileIn f nSize (f.read nSize) := by
  have hsizes : nSize + f.nRewind > f.nBufSize ↔ maxBlockSize - 8 < nSize := by
    rw [hf.nRewind, hf.nBufSize]
    simp only [maxBlockSize]
    omega
  rw [read]
  split
  · next hlimit => exact .refused (.inl hlimit)
  · next hlimit =>
    split
    · next hroom => exact .refused (.inr (hsizes.mp hroom))
    · next hroom =>
      have hroom' := Nat.not_lt.mp (mt hsizes.mpr hroom)
      have hreads := readsFrom_readLoop (Nat.le_refl nSize) hf.valid hf.read_le []
      have hfetches : ∀ bytes f', CBufferedFile.readLoop nSize f nSize [] = (.ok bytes, f') →
          Fetches fileIn f f'.nReadPos f' := fun _ _ h => hf.readLoop h
      revert hreads hfetches
      generalize CBufferedFile.readLoop nSize f nSize [] = r
      intro hreads hfetches
      cases hreads with
      | ok keeps nReadPos fFail =>
        have hfetches := hfetches _ _ rfl
        have hend := hfetches.file.read_le.trans hfetches.file.src_le
        rw [nReadPos] at hfetches hend
        rw [hf.src]
        exact .ok hlimit hroom' hend hfetches nReadPos
      | thrown keeps lt fFail =>
        rw [hf.src] at lt
        exact .cut hlimit hroom' lt fFail
      | stuck large => exact absurd hf.small (Nat.not_lt.mpr large)

/-- Without a limit only the end of the file stops a read that fits into the buffer. -/
theorem read_eq (hf : IsScanFile fileIn f) (hlimit : f.nReadLimit = none) {nSize : Nat}
    (hroom : nSize ≤ maxBlockSize - 8) :
    (∃ f', f.read nSize = (.thrown, f') ∧ fileIn.length < f.nReadPos + nSize) ∨
    ∃ f', f.read nSize = (.ok ((fileIn.drop f.nReadPos).take nSize), f') ∧
      f.nReadPos + nSize ≤ fileIn.length ∧ Fetches fileIn f (f.nReadPos + nSize) f' ∧
      f'.nReadPos = f.nReadPos + nSize := by
  have hreads := hf.reads nSize
  revert hreads
  generalize f.read nSize = r
  intro hreads
  cases hreads with
  | refused h =>
    rw [hlimit] at h
    rcases h with h | h
    · cases h
    · omega
  | cut _ _ short fFail => exact .inl ⟨_, rfl, short⟩
  | ok _ _ enough fetches nReadPos => exact .inr ⟨_, rfl, enough, fetches, nReadPos⟩

theorem findByteLoop (hf : IsScanFile fileIn f) {ch : UInt8} {fuel : Nat}
    (h : findByteLoop ch fuel f = (.ok (), f')) : Fetches fileIn f (f'.nReadPos + 1) f' := by
  induction fuel generalizing f with
  | zero => cases h
  | succ fuel ih =>
    rw [CBufferedFile.findByteLoop] at h
    by_cases hmore : f.nReadPos < fileIn.length
    · obtain ⟨f1, hfill, hfetches, hpos, hlt⟩ := hf.fillIfRead hmore
      rw [hfill] at h
      dsimp only at h
      split at h
      · cases h
        rw [hpos]
        exact hfetches
      · have hstep := hfetches.file.advance (n := 1) hlt
        have hrest := ih hstep.file h
        have hle := hrest.le
        dsimp only at hle
        exact (hfetches.trans hstep (by omega)).trans hrest (by omega)
    · obtain ⟨f1, hfill⟩ := hf.fillIfRead_end hmore
      rw [hfill] at h
      cases h

end IsScanFile

/-- How a program that reads the file ends. -/
inductive Ran (fileIn : List UInt8) (f : CBufferedFile) :
    Program.Attempt α → StreamResult α × CBufferedFile → Prop
  | ok {f' : CBufferedFile} (a : α) (fetches : Fetches fileIn f f'.nReadPos f') :
    Ran fileIn f (.ok a f'.nReadPos) (.ok a, f')
  | refused {f' : CBufferedFile} (fetches : Fetches fileIn f f'.nReadPos f') :
    Ran fileIn f (.refused f'.nReadPos) (.thrown, f')
  | cut {f' : CBufferedFile} (fFail : f'.fFail = true) : Ran fileIn f .cut (.thrown, f')

theorem Ran.step {p : Program.Attempt α} {r : StreamResult α × CBufferedFile}
    (h : Fetches fileIn f nPos f') (hle : nPos ≤ f'.nReadPos) (h' : Ran fileIn f' p r) :
    Ran fileIn f p r := by
  cases h' with
  | ok a fetches => exact .ok a (h.trans fetches (hle.trans fetches.le))
  | refused fetches => exact .refused (h.trans fetches (hle.trans fetches.le))
  | cut fFail => exact .cut fFail

theorem ran_runOn (hf : IsScanFile fileIn f) {limit : Nat} (hlimit : f.nReadLimit = some limit)
    (p : Program α) :
    Ran fileIn f (p.attempt fileIn limit (maxBlockSize - 8) f.nReadPos) (runOn p f) := by
  induction p generalizing f with
  | done a => exact .ok a hf.fetches
  | fail => exact .refused hf.fetches
  | read n next ih =>
    have hany : f.nReadLimit.any (· < n + f.nReadPos) = true ↔ limit < n + f.nReadPos := by
      rw [hlimit, Option.any_some, decide_eq_true_iff]
    have hreads := hf.reads n
    rw [runOn, Program.attempt]
    revert hreads
    generalize f.read n = r
    intro hreads
    cases hreads with
    | refused h =>
      rw [if_pos (h.imp_left hany.mp)]
      exact .refused hf.fetches
    | cut h room short fFail =>
      rw [if_neg (not_or.mpr ⟨mt hany.mpr h, room.not_gt⟩), if_pos short]
      exact .cut fFail
    | ok h room enough fetches nReadPos =>
      rw [if_neg (not_or.mpr ⟨mt hany.mpr h, room.not_gt⟩), if_neg enough.not_gt, ← nReadPos]
      exact .step fetches nReadPos.ge (ih _ fetches.file (fetches.nReadLimit.trans hlimit))

end CBufferedFile

end Terracoin
