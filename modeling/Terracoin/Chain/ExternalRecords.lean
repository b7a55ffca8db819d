import Terracoin.Chain.LoadExternal

/-!
# The records that are found

What `LoadExternalBlockFile` passes to `ProcessBlock` is a matter of the positions in the file
(`Scans`), and the loop does no more and no less (`BlockScan.scans_loop`). After a block that cannot
be read the scan goes back, but not always: if the file ended there the loop ends, and if the buffer
has read ahead too far `SetPos` does not go back all the way. Records in the bytes that are left out
this way are missed (`Loses`), and there are no others (`passesRecords_iff`).
-/

namespace Terracoin

open ReadProgram

section

variable [NodeConfig] [ObjectSizes] {processBlock : List CBlock → CBlock → ProcessOutcome}
  {fileIn : List UInt8} {p p' h x : Nat} {block : CBlock} {passed : List PassedBlock}
  {a : Program.Attempt CBlock}

/-! ## The scan of a file -/

/-- The blocks that are passed on from position `p` on. -/
inductive Scans (fileIn : List UInt8) : Nat → List PassedBlock → Prop
  | ended {p : Nat} (none : ∀ i, p ≤ i → blockAt fileIn i = none) : Scans fileIn p []
  | stop {p h : Nat} {a : Program.Attempt CBlock} (first : FirstHeader fileIn p h a)
    (stop : nextPos fileIn h a = none) : Scans fileIn p []
  | on {p p' h : Nat} {a : Program.Attempt CBlock} {passed : List PassedBlock}
    (first : FirstHeader fileIn p h a) (on : nextPos fileIn h a = some p')
    (next : Scans fileIn p' passed) : Scans fileIn p (found h a ++ passed)

/-- The headers that the scan from position `p` comes to. -/
inductive ComesTo (fileIn : List UInt8) : Nat → Nat → Prop
  | first {p h : Nat} {a : Program.Attempt CBlock} (first : FirstHeader fileIn p h a) :
    ComesTo fileIn p h
  | on {p p' h h' : Nat} {a : Program.Attempt CBlock} (first : FirstHeader fileIn p h a)
    (on : nextPos fileIn h a = some p') (next : ComesTo fileIn p' h') : ComesTo fileIn p h'

/-- The block at the header `h` cannot be read, and then the scan does not go back to position `x`
behind the header: the file ended, or the buffer has read ahead too far. -/
def Loses (fileIn : List UInt8) (h x : Nat) : Prop :=
  h < x ∧ (blockAt fileIn h = some .cut ∨ ∃ nEnd, blockAt fileIn h = some (.refused nEnd) ∧
    (nEnd = fileIn.length ∧ fileIn.length < CBufferedFile.fetched nEnd ∨
      x + (maxBlockSize + 8) < min fileIn.length (CBufferedFile.fetched nEnd)))

theorem loses_iff (hblock : blockAt fileIn h = some a) : Loses fileIn h x ↔
    h < x ∧ found h a = [] ∧ ∀ p ∈ nextPos fileIn h a, x < p := by
  rw [Loses, hblock]
  cases a with
  | ok b nEnd => simp [found]
  | cut => simp [found, nextPos]
  | refused nEnd =>
    rw [nextPos]
    split
    · next heof =>
      exact ⟨fun hlose => ⟨hlose.1, rfl, nofun⟩,
        fun hlose => ⟨hlose.1, .inr ⟨nEnd, rfl, .inl heof⟩⟩⟩
    · next hon =>
      simp [found, hon]
      omega

theorem FirstHeader.skip (hle : p ≤ p') (hnone : ∀ i, p ≤ i → i < p' → blockAt fileIn i = none)
    (hfirst : FirstHeader fileIn p' h a) : FirstHeader fileIn p h a where
  le := hle.trans hfirst.le
  block := hfirst.block
  before i hi hlt := by
    by_cases hskip : i < p'
    · exact hnone i hi hskip
    · exact hfirst.before i (Nat.not_lt.mp hskip) hlt

theorem Scans.skip (hle : p ≤ p') (hnone : ∀ i, p ≤ i → i < p' → blockAt fileIn i = none)
    (hscans : Scans fileIn p' passed) : Scans fileIn p passed := by
  cases hscans with
  | ended none =>
    refine .ended fun i hi => ?_
    by_cases hskip : i < p'
    · exact hnone i hi hskip
    · exact none i (Nat.not_lt.mp hskip)
  | stop first stop => exact .stop (first.skip hle hnone) stop
  | on first on next => exact .on (first.skip hle hnone) on next

theorem FirstHeader.lt_nextPos (hfirst : FirstHeader fileIn p h a)
    (hon : nextPos fileIn h a = some p') : h < p' := by
  cases a with
  | ok b nEnd =>
    obtain rfl := Option.some.inj hon
    have hle := le_of_blockAt hfirst.block
    omega
  | refused nEnd =>
    rw [nextPos] at hon
    split at hon
    · cases hon
    · obtain rfl := Option.some.inj hon
      exact Nat.le_max_left _ _
  | cut => cases hon

theorem ComesTo.le (hmeets : ComesTo fileIn p h) : p ≤ h := by
  induction hmeets with
  | first first => exact first.le
  | on first on next ih => exact first.le.trans ((first.lt_nextPos on).le.trans ih)

/-- The blocks are passed on in the order of the file. -/
theorem Scans.sorted (hscans : Scans fileIn p passed) :
    (∀ b ∈ passed, p + 8 ≤ b.nBlockPos) ∧
      passed.Pairwise fun b b' => b.nBlockPos < b'.nBlockPos := by
  induction hscans with
  | ended => exact ⟨List.forall_mem_nil _, .nil⟩
  | stop => exact ⟨List.forall_mem_nil _, .nil⟩
  | @on p p' h a passed first on next ih =>
    obtain ⟨hpos, hsorted⟩ := ih
    have hle := first.le
    have hlt := first.lt_nextPos on
    have hfound : (found h a).Pairwise fun b b' => b.nBlockPos < b'.nBlockPos := by
      cases a with
      | ok b nEnd => exact List.pairwise_singleton _ _
      | refused nEnd => exact .nil
      | cut => exact .nil
    refine ⟨List.forall_mem_append.mpr ⟨fun b hb => ?_, fun b hb => ?_⟩,
      List.pairwise_append.mpr ⟨hfound, hsorted, fun b hb b' hb' => ?_⟩⟩
    · rw [(mem_found hb).2]
      omega
    · have hb := hpos b hb
      omega
    · have hb' := hpos b' hb'
      rw [(mem_found hb).2]
      omega

/-- From a state that goes on at position `p`, the loop terminates and passes on the blocks of the scan
from there. -/
theorem BlockScan.scans_loop (hprocess : ∀ passed block, processBlock passed block ≠ .error)
    {fuel : Nat} {s : BlockScan} (hhead : Head fileIn s p) :
    (∀ e, loop processBlock fuel s = some e →
      ∃ later, e.passed = s.passed ++ later ∧ Scans fileIn p later) ∧
    (fileIn.length < p + fuel → ∃ e, loop processBlock fuel s = some e) := by
  induction fuel generalizing s p with
  | zero =>
    have hle := hhead.le
    exact ⟨nofun, fun hlt => by omega⟩
  | succ fuel ih =>
    have hturned := turned hprocess hhead
    rw [loop]
    revert hturned
    generalize s.turn processBlock = r
    intro hturned
    cases hturned with
    | ended same none =>
      refine ⟨fun e he => ?_, fun _ => ⟨_, rfl⟩⟩
      obtain rfl := Option.some.inj he
      exact ⟨[], by rw [same, List.append_nil], .ended none⟩
    | noHeader same lt none head =>
      obtain ⟨hpassed, htotal⟩ := ih head
      refine ⟨fun e he => ?_, fun hlt => htotal (by omega)⟩
      obtain ⟨later, hlater, hscans⟩ := hpassed e he
      exact ⟨later, by rw [hlater, same], hscans.skip lt.le none⟩
    | @on s' h p' a first added on head =>
      obtain ⟨hpassed, htotal⟩ := ih head
      have hle := first.le
      have hlt := first.lt_nextPos on
      refine ⟨fun e he => ?_, fun hlt => htotal (by omega)⟩
      obtain ⟨later, hlater, hscans⟩ := hpassed e he
      exact ⟨found h a ++ later, by rw [hlater, added, List.append_assoc], .on first on hscans⟩
    | @stop s' h a first same stop ended =>
      have hle := first.le
      have hlength := (blockAt_some first.block).2.1
      cases fuel with
      | zero => exact ⟨nofun, fun hlt => by omega⟩
      | succ fuel =>
        dsimp only
        rw [loop, ended.turn_eq]
        refine ⟨fun e he => ?_, fun _ => ⟨_, rfl⟩⟩
        obtain rfl := Option.some.inj he
        exact ⟨[], by rw [same, List.append_nil], .stop first stop⟩

/-- A record that is not lost is found, or is inside a block that was read. -/
theorem Scans.handled (hscans : Scans fileIn p passed)
    (hlose : ∀ h, ComesTo fileIn p h → ¬ Loses fileIn h x) (hrec : IsRecord fileIn x block)
    (hx : p ≤ x) :
    ∃ b ∈ passed, b.nBlockPos ≤ x ∧ x < b.nEnd ∨ b.nBlockPos = x + 8 ∧ b.block = block := by
  have hblock := hrec.blockAt
  have hheader : ∀ {p h : Nat} {a : Program.Attempt CBlock}, FirstHeader fileIn p h a → p ≤ x →
      x = h ∧ a = .ok block (x + 8 + block.write.length) ∨ h < x := by
    intro p h a first hx
    rcases Nat.lt_trichotomy x h with hbefore | rfl | hafter
    · rw [first.before x hx hbefore] at hblock
      cases hblock
    · exact .inl ⟨rfl, Option.some.inj (first.block.symm.trans hblock)⟩
    · exact .inr hafter
  induction hscans with
  | ended none =>
    rw [none x hx] at hblock
    cases hblock
  | @stop p h a first stop =>
    rcases hheader first hx with ⟨rfl, rfl⟩ | hafter
    · cases stop
    · have hfound : found h a = [] := by
        cases a with
        | ok b nEnd => cases stop
        | refused nEnd => rfl
        | cut => rfl
      refine absurd ((loses_iff first.block).mpr ⟨hafter, hfound, ?_⟩) (hlose h (.first first))
      rw [stop]
      exact nofun
  | @on p p' h a passed first on next ih =>
    have hrest : p' ≤ x → ∃ b ∈ found h a ++ passed,
        b.nBlockPos ≤ x ∧ x < b.nEnd ∨ b.nBlockPos = x + 8 ∧ b.block = block := fun hx' => by
      obtain ⟨b, hb, h⟩ := ih (fun h' hmeets => hlose h' (.on first on hmeets)) hx'
      exact ⟨b, List.mem_append_right _ hb, h⟩
    rcases hheader first hx with ⟨rfl, rfl⟩ | hafter
    · exact ⟨_, List.mem_append_left _ (List.mem_singleton_self _), .inr ⟨rfl, rfl⟩⟩
    · by_cases hx' : p' ≤ x
      · exact hrest hx'
      · have hnot := hlose h (.first first)
        rw [loses_iff first.block, on] at hnot
        cases a with
        | ok b nEnd =>
          obtain rfl := Option.some.inj on
          obtain ⟨hstart, -, hsize⟩ := blockAt_some first.block
          have hinside : h + 8 ≤ x := by
            by_contra hlt
            exact not_isRecord_inside hstart hsize hafter (Nat.not_le.mp hlt) hrec
          exact ⟨_, List.mem_append_left _ (List.mem_singleton_self _),
            .inl ⟨hinside, Nat.not_le.mp hx'⟩⟩
        | refused nEnd =>
          refine absurd ⟨hafter, rfl, fun q hq => ?_⟩ hnot
          obtain rfl := Option.some.inj hq
          exact Nat.not_le.mp hx'
        | cut => cases on

/-- A record that is lost is not found, and is not inside a block that was read. -/
theorem Scans.missed (hscans : Scans fileIn p passed) (hmeets : ComesTo fileIn p h)
    (hlose : Loses fileIn h x) :
    ∀ b ∈ passed, ¬ (b.nBlockPos ≤ x ∧ x < b.nEnd) ∧ b.nBlockPos ≠ x + 8 := by
  induction hmeets generalizing passed with
  | @first p h a first =>
    obtain ⟨hlt, hfound, hbehind⟩ := (loses_iff first.block).mp hlose
    cases hscans with
    | ended none => exact List.forall_mem_nil _
    | stop first' stop => exact List.forall_mem_nil _
    | on first' on next =>
      obtain ⟨rfl, rfl⟩ := first.unique first'
      rw [hfound, List.nil_append]
      intro b hb
      have hpos := next.sorted.1 b hb
      have hx := hbehind _ on
      omega
  | @on p p' h' h a first on hmeets ih =>
    cases hscans with
    | ended none => exact List.forall_mem_nil _
    | stop first' stop => exact List.forall_mem_nil _
    | on first' on' next =>
      obtain ⟨rfl, rfl⟩ := first.unique first'
      obtain rfl := Option.some.inj (on.symm.trans on')
      have hle := hmeets.le
      have hlt := hlose.1
      have hpos := first.lt_nextPos on
      refine List.forall_mem_append.mpr ⟨fun b hb => ?_, ih next hlose⟩
      obtain ⟨rfl, hb⟩ := mem_found hb
      obtain rfl := Option.some.inj on
      omega

/-! ## The result -/

/-- The scan terminates, and every record that does not start inside a block that was read is passed
to `ProcessBlock` once, in the order of the file. -/
def PassesRecords (processBlock : List CBlock → CBlock → ProcessOutcome) (fileIn : List UInt8) :
    Prop :=
  ∃ fuel fLoaded passed, loadExternalBlockFile processBlock fileIn fuel = some (fLoaded, passed) ∧
    passed.Pairwise (fun b b' => b.nBlockPos < b'.nBlockPos) ∧
    ∀ x block, IsRecord fileIn x block →
      (∀ b ∈ passed, ¬ (b.nBlockPos ≤ x ∧ x < b.nEnd)) →
        ∃ nEnd, passed.filter (fun b => b.nBlockPos = x + 8) = [⟨x + 8, block, nEnd⟩]

omit [NodeConfig] [ObjectSizes] in
theorem filter_nBlockPos {passed : List PassedBlock} {b : PassedBlock}
    (h : passed.Pairwise fun b b' => b.nBlockPos < b'.nBlockPos) (hb : b ∈ passed) :
    passed.filter (fun b' => b'.nBlockPos = b.nBlockPos) = [b] := by
  induction passed with
  | nil => cases hb
  | cons c passed ih =>
    obtain ⟨hlt, hrest⟩ := List.pairwise_cons.mp h
    rcases List.mem_cons.mp hb with rfl | hmem
    · rw [List.filter_cons_of_pos (by simp), List.filter_eq_nil_iff.mpr]
      intro b' hb'
      simpa using (hlt b' hb').ne'
    · rw [List.filter_cons_of_neg (by simpa using (hlt b hmem).ne), ih hrest hmem]

/-- The records are passed on exactly if none is lost at a header that the scan comes to. -/
theorem passesRecords_iff (hprocess : ∀ passed block, processBlock passed block ≠ .error)
    (fileIn : List UInt8) : PassesRecords processBlock fileIn ↔
      ∀ h, ComesTo fileIn 0 h → ∀ x block, IsRecord fileIn x block → ¬ Loses fileIn h x := by
  have hstart := BlockScan.head_start fileIn
  constructor
  · rintro ⟨fuel, fLoaded, passed, hload, -, hpasses⟩ h hmeets x block hrec hlose
    obtain ⟨e, hloop, heq⟩ := Option.map_eq_some_iff.mp hload
    obtain ⟨-, rfl⟩ := Prod.mk.inj heq
    obtain ⟨later, hlater, hscans⟩ := (BlockScan.scans_loop hprocess hstart).1 e hloop
    obtain rfl : e.passed = later := hlater
    have hmissed := hscans.missed hmeets hlose
    obtain ⟨nEnd, hfilter⟩ := hpasses x block hrec fun b hb => (hmissed b hb).1
    have hmem : (⟨x + 8, block, nEnd⟩ : PassedBlock) ∈ e.passed := by
      refine List.mem_of_mem_filter (p := fun b => b.nBlockPos = x + 8) ?_
      rw [hfilter]
      exact List.mem_singleton_self _
    exact (hmissed _ hmem).2 rfl
  · intro hlose
    obtain ⟨e, hloop⟩ := (BlockScan.scans_loop hprocess hstart).2
      (Nat.lt_add_left 0 (Nat.lt_succ_self fileIn.length))
    obtain ⟨later, hlater, hscans⟩ := (BlockScan.scans_loop hprocess hstart).1 e hloop
    obtain rfl : e.passed = later := hlater
    have hsorted := hscans.sorted.2
    refine ⟨_, _, e.passed, by rw [loadExternalBlockFile, hloop]; rfl, hsorted,
      fun x block hrec huncovered => ?_⟩
    obtain ⟨b, hb, hcovered | ⟨hpos, hblock⟩⟩ :=
      hscans.handled (fun h hmeets => hlose h hmeets x block hrec) hrec (Nat.zero_le x)
    · exact absurd hcovered (huncovered b hb)
    · refine ⟨b.nEnd, ?_⟩
      rw [← hpos, ← hblock]
      exact filter_nBlockPos hsorted hb

/-- The records are passed on if no header in the file loses one; and exactly if no header does that
the scan comes to. -/
theorem loadExternalBlockFile_spec
    (hprocess : ∀ passed block, processBlock passed block ≠ .error) (fileIn : List UInt8) :
    ((∀ h x block, IsRecord fileIn x block → ¬ Loses fileIn h x) →
      PassesRecords processBlock fileIn) ∧
    (PassesRecords processBlock fileIn ↔
      ∀ h, ComesTo fileIn 0 h → ∀ x block, IsRecord fileIn x block → ¬ Loses fileIn h x) :=
  ⟨fun hlose => (passesRecords_iff hprocess fileIn).mpr fun h _ => hlose h,
    passesRecords_iff hprocess fileIn⟩

end

namespace ExternalSample

open BlockScan Codec

scoped instance config : NodeConfig := ⟨false, 0, false, false⟩

/-- A block without transactions is read the same with any sizes. -/
def size : ObjectSize := ⟨48, by decide⟩

scoped instance sizes : ObjectSizes := ⟨size, size, size⟩

def accepts (_ : List CBlock) (_ : CBlock) : ProcessOutcome := .accepted

/-- A block without transactions. -/
def block : CBlock where
  nVersion := 0
  hashPrevBlock := 0
  hashMerkleRoot := 0
  nTime := 0
  nBits := 1
  nNonce := 256
  vtx := []

def record : List UInt8 :=
  pchMessageStart.1 ++ (littleEndian 4 block.write.length ++ (block.write ++ []))

theorem accepts_ne_error : ∀ passed block, accepts passed block ≠ .error := fun _ _ => nofun

theorem isRecord_drop {fileIn : List UInt8} {x : Nat} (h : fileIn.drop x = record) :
    IsRecord fileIn x block where
  fits := ⟨Nat.zero_le _, List.forall_mem_nil _⟩
  le_size := by decide +kernel
  size_le := by decide +kernel
  bytes := ⟨[], h⟩

/-- A header whose block cannot be read, as its size ends before the transactions, and then a record. -/
def scattered : List UInt8 :=
  pchMessageStart.1 ++ (littleEndian 4 80 ++ (List.replicate 80 0 ++ record))

/-- No file ends in a block, and all blocks that are refused are so at position 88. -/
def refusedAt (a : Option (Program.Attempt CBlock)) : Bool :=
  match a with
  | none => true
  | some (.ok _ _) => true
  | some (.refused nEnd) => nEnd == 88
  | some .cut => false

/-- The record is found. -/
theorem loadExternalBlockFile_spec_sample :
    IsRecord scattered 88 block ∧ PassesRecords accepts scattered := by
  have hlength : scattered.length = 177 := by decide +kernel
  have hrefused : ∀ h < 170, refusedAt (blockAt scattered h) = true := by decide +kernel
  refine ⟨isRecord_drop rfl, (loadExternalBlockFile_spec accepts_ne_error scattered).1 ?_⟩
  rintro h x block' - ⟨-, hcut | ⟨nEnd, hblock, hend⟩⟩
  · have hle := (blockAt_some hcut).2.1
    have hself := hrefused h (by omega)
    rw [hcut] at hself
    cases hself
  · have hle := (blockAt_some hblock).2.1
    have hself := hrefused h (by omega)
    rw [hblock] at hself
    have hnEnd : nEnd = 88 := beq_iff_eq.mp hself
    rcases hend with ⟨heof, -⟩ | hfar
    · omega
    · rw [maxBlockSize] at hfar
      omega

/-- A header with a size that is too large, and then a record. -/
def garbled : List UInt8 := pchMessageStart.1 ++ (littleEndian 4 maxBlockSize ++ record)

/-- The file ends before the block does, and the record is never looked for. -/
theorem loadExternalBlockFile_misses : IsRecord garbled 8 block ∧
    (loadExternalBlockFile accepts garbled 2).map Prod.snd = some [] ∧
    ¬ PassesRecords accepts garbled := by
  have hrec : IsRecord garbled 8 block := isRecord_drop rfl
  refine ⟨hrec, rfl, fun hpasses => ?_⟩
  have hcut : blockAt garbled 0 = some .cut := rfl
  have hfirst : FirstHeader garbled 0 0 .cut :=
    ⟨Nat.le_refl 0, hcut, fun i _ hi => absurd hi (Nat.not_lt_zero i)⟩
  exact (passesRecords_iff accepts_ne_error garbled).mp hpasses 0 (.first hfirst) 8 block hrec
    ⟨by decide, .inl hcut⟩

end ExternalSample

end Terracoin
