import Terracoin.Chain.IndexFlags
import Terracoin.Serialize.DiskBlockIndex

/-!
# Loading the block index

`LoadBlockIndexGuts` reads the records of the block tree database in the order of their keys, so an
entry may come before its predecessor: `InsertBlockIndex` makes one to point to. `LoadBlockIndexDB` then
adds up work and transactions along the chains, lowest entries first, and fills `setBlockIndexValid`.

If the database holds the records of the entries of a running node, this gives every entry its fields
back, and the same candidates (`loadBlockIndexDB_spec`).
-/

namespace Terracoin

open CBlockIndex Checked
open Std (TreeMap)

/-- Where a block and its undo data are, and the number of its transactions. -/
structure BlockPlace where
  nFile : Int32
  nDataPos : UInt32
  nUndoPos : UInt32
  nTx : UInt32
  nFile_nonneg : 0 ≤ nFile

def CBlockIndex.nChainTx (place : CBlockIndex → BlockPlace) : CBlockIndex → UInt32
  | root h => (place (root h)).nTx
  | child p h => p.nChainTx place + (place (child p h)).nTx

/-- `CDiskBlockIndex(pindex)`. -/
def NodeState.diskIndex [Hashing] (s : NodeState) (place : CBlockIndex → BlockPlace)
    (p : CBlockIndex) : CDiskBlockIndex where
  nHeight := Int32.ofNat p.nHeight
  nStatus := (s.data p).nStatus.toUInt32
  nTx := (place p).nTx
  nFile := (place p).nFile
  nDataPos := (place p).nDataPos
  nUndoPos := (place p).nUndoPos
  header := { p.header with hashPrevBlock := (p.pprev.map getBlockHash).getD 0 }

/-! ## The functions -/

/-- A `CBlockIndex` while the index is loaded, with the key of the entry that `pprev` points to. -/
structure IndexEntry where
  pprev : Option uint256
  nHeight : Int32
  nFile : Int32
  nDataPos : UInt32
  nUndoPos : UInt32
  bnChainWork : Int
  nTx : UInt32
  nChainTx : UInt32
  nStatus : UInt32
  nVersion : Int32
  hashMerkleRoot : uint256
  nTime : UInt32
  nBits : UInt32
  nNonce : UInt32
deriving DecidableEq, Repr

namespace IndexEntry

/-- `CBlockIndex()`. -/
def empty : IndexEntry := ⟨none, 0, 0, 0, 0, 0, 0, 0, 0, 0, 0, 0, 0, 0⟩

def getBlockHeader (e : IndexEntry) : CBlockHeader :=
  ⟨e.nVersion, e.pprev.getD 0, e.hashMerkleRoot, e.nTime, e.nBits, e.nNonce⟩

/-- The test of `LoadBlockIndexDB` for `setBlockIndexValid`. -/
def isCandidate (e : IndexEntry) : Bool :=
  decide (BLOCK_VALID_TRANSACTIONS ≤ (e.nStatus &&& BLOCK_VALID_MASK).toNat) &&
    e.nStatus &&& BLOCK_FAILED_MASK == 0

end IndexEntry

structure LoadedIndex where
  mapBlockIndex : TreeMap uint256 IndexEntry
  pindexGenesisBlock : Option uint256
  setBlockIndexValid : List uint256

def insertBlockIndex (mapBlockIndex : TreeMap uint256 IndexEntry) (hash : uint256) :
    TreeMap uint256 IndexEntry × Option uint256 :=
  if hash = 0 then (mapBlockIndex, none) else (mapBlockIndex.insertIfNew hash .empty, some hash)

namespace LoadedIndex

/-- The assignments of the loop of `LoadBlockIndexGuts`. -/
def assign (pindexNew : IndexEntry) (pprev : Option uint256) (diskindex : CDiskBlockIndex) :
    IndexEntry :=
  { pindexNew with
    pprev := pprev
    nHeight := diskindex.nHeight
    nFile := diskindex.nFile
    nDataPos := diskindex.nDataPos
    nUndoPos := diskindex.nUndoPos
    nVersion := diskindex.header.nVersion
    hashMerkleRoot := diskindex.header.hashMerkleRoot
    nTime := diskindex.header.nTime
    nBits := diskindex.header.nBits
    nNonce := diskindex.header.nNonce
    nStatus := diskindex.nStatus
    nTx := diskindex.nTx }

/-- The body of the loop, for a record that has been read. -/
def loadRecord [Hashing] [NodeConfig] (s : LoadedIndex) (diskindex : CDiskBlockIndex) : Check LoadedIndex := do
  let hash := diskindex.header.getHash
  let inserted := insertBlockIndex s.mapBlockIndex hash
  let linked := insertBlockIndex inserted.1 diskindex.header.hashPrevBlock
  let pindexNew ← get inserted.2 .assertion
  let s := { s with
    mapBlockIndex := linked.1.insert pindexNew
      (assign (linked.1[pindexNew]?.getD .empty) linked.2 diskindex)
    pindexGenesisBlock :=
      if s.pindexGenesisBlock = none ∧ hash = hashGenesisBlock then some pindexNew
      else s.pindexGenesisBlock }
  require (checkProofOfWork hash diskindex.header.nBits).isOk
    (.error "LoadBlockIndex() : CheckIndex failed: %s")
  pure s

/-- `LoadBlockIndexGuts`, over the values of the keys `('b', hash)`. -/
def loadBlockIndexGuts [Hashing] [NodeConfig] : LoadedIndex → List (List UInt8) → Check LoadedIndex
  | s, [] => .ok s
  | s, slValue :: rest => do
    let diskindex ← get (CDiskBlockIndex.read slValue) (.error "%s() : deserialize error")
    let s ← s.loadRecord diskindex.1
    loadBlockIndexGuts s rest

/-- The order of the pairs of a height and a pointer, for the pointers at the given addresses. -/
def heightLe (address : uint256 → Nat) (a b : uint256 × IndexEntry) : Bool :=
  decide (a.2.nHeight.toInt < b.2.nHeight.toInt ∨
    a.2.nHeight.toInt = b.2.nHeight.toInt ∧ address a.1 ≤ address b.1)

def vSortedByHeight (address : uint256 → Nat) (s : LoadedIndex) : List uint256 :=
  (s.mapBlockIndex.toList.mergeSort (heightLe address)).map Prod.fst

/-- `setBlockIndexValid.insert(pindex)`, where only equal work and an equal hash make entries the
same. -/
def insertValid (s : LoadedIndex) (hash : uint256) (pindex : IndexEntry) : LoadedIndex :=
  if s.setBlockIndexValid.any fun hash' => hash' == hash &&
      (s.mapBlockIndex[hash']?.getD .empty).bnChainWork == pindex.bnChainWork then s
  else { s with setBlockIndexValid := hash :: s.setBlockIndexValid }

/-- The body of the loop over `vSortedByHeight`. -/
def addWork (s : LoadedIndex) (hash : uint256) : LoadedIndex :=
  let pindex := s.mapBlockIndex[hash]?.getD .empty
  let pprev := pindex.pprev.bind fun hash => s.mapBlockIndex[hash]?
  let pindex := { pindex with
    bnChainWork := (pprev.map IndexEntry.bnChainWork).getD 0 +
      pindex.getBlockHeader.getBlockWork
    nChainTx := (pprev.map IndexEntry.nChainTx).getD 0 + pindex.nTx }
  let s := { s with mapBlockIndex := s.mapBlockIndex.insert hash pindex }
  if pindex.isCandidate then s.insertValid hash pindex else s

/-- `LoadBlockIndexDB`, as far as it fills the index, in a process without entries. -/
def loadBlockIndexDB [Hashing] [NodeConfig] (address : uint256 → Nat)
    (values : List (List UInt8)) : Check LoadedIndex := do
  let s ← loadBlockIndexGuts ⟨∅, none, []⟩ values
  pure ((s.vSortedByHeight address).foldl addWork s)

/-! ## The entries after the first loop -/

variable [Hashing] [NodeConfig] {s : NodeState} {place : CBlockIndex → BlockPlace}
  {entries done : List CBlockIndex} {l l' : LoadedIndex} {p q : CBlockIndex} {hash : uint256}

/-- An entry as its record gives it, without work. -/
def entryOf (s : NodeState) (place : CBlockIndex → BlockPlace) (p : CBlockIndex) : IndexEntry :=
  assign .empty (p.pprev.map getBlockHash) (s.diskIndex place p).readBack

omit [NodeConfig] in
theorem diskIndex_header (h : p.Accepted) : (s.diskIndex place p).readBack.header = p.header := by
  show { p.header with hashPrevBlock := (p.pprev.map getBlockHash).getD 0 } = p.header
  rw [← h.linked]

/-- The records of some entries have been loaded, in any order: the map has these entries, and others
without contents that one of them points to. -/
structure Loads (s : NodeState) (place : CBlockIndex → BlockPlace) (done : List CBlockIndex)
    (l : LoadedIndex) : Prop where
  entry : ∀ p ∈ done, l.mapBlockIndex[p.getBlockHash]? = some (entryOf s place p)
  known : ∀ (hash : uint256) (e : IndexEntry), l.mapBlockIndex[hash]? = some e →
    (∃ p ∈ done, p.getBlockHash = hash) ∨
      e = .empty ∧ ∃ p ∈ done, p.pprev.map getBlockHash = some hash
  valid : l.setBlockIndexValid = []

omit [Hashing] [NodeConfig] in
/-- `InsertBlockIndex` of the hash of an entry, or of 0 for `NULL`, returns the pointer and makes sure
that it points to an entry. -/
theorem insertBlockIndex_spec {m : TreeMap uint256 IndexEntry} {pindex : Option uint256}
    (h : pindex ≠ some 0) : (insertBlockIndex m (pindex.getD 0)).2 = pindex ∧ ∀ hash : uint256,
      (insertBlockIndex m (pindex.getD 0)).1[hash]? =
        if pindex = some hash then some (m[hash]?.getD .empty) else m[hash]? := by
  unfold insertBlockIndex
  cases pindex with
  | none => exact ⟨rfl, fun hash => rfl⟩
  | some hash =>
    have hne : hash ≠ 0 := fun heq => h (by rw [heq])
    rw [Option.getD_some, if_neg hne]
    refine ⟨rfl, fun hash' => ?_⟩
    dsimp only
    rw [TreeMap.getElem?_insertIfNew]
    simp only [Std.compare_eq_iff_eq, TreeMap.mem_iff_isSome_getElem?, Option.some.injEq]
    by_cases heq : hash = hash'
    · subst heq
      cases m[hash]? <;> simp
    · simp [heq]

omit [NodeConfig] in
theorem Loads.noWork (hl : Loads s place done l) (hash : uint256) :
    ((l.mapBlockIndex[hash]?.getD .empty).bnChainWork = 0) ∧
      (l.mapBlockIndex[hash]?.getD .empty).nChainTx = 0 := by
  cases hget : l.mapBlockIndex[hash]? with
  | none => exact ⟨rfl, rfl⟩
  | some e =>
    rcases hl.known hash e hget with ⟨p, hp, rfl⟩ | ⟨rfl, -⟩
    · obtain rfl := Option.some.inj (hget.symm.trans (hl.entry p hp))
      exact ⟨rfl, rfl⟩
    · exact ⟨rfl, rfl⟩

/-- One record. -/
theorem Loads.loadRecord (hl : Loads s place done l) (hp : p.Accepted)
    (hprev : ∀ q ∈ p.pprev, q.Accepted)
    (hinj : ∀ q ∈ done, q.getBlockHash = p.getBlockHash → q = p) :
    ∃ l', l.loadRecord (s.diskIndex place p).readBack = .ok l' ∧ Loads s place (p :: done) l' := by
  have hheader : (s.diskIndex place p).readBack.header = p.header := diskIndex_header hp
  have hself : some p.getBlockHash ≠ some 0 := fun heq => hp.hash (Option.some.inj heq)
  have hpprev : p.pprev.map getBlockHash ≠ some 0 := by
    intro heq
    obtain ⟨q, hq, hhash⟩ := Option.map_eq_some_iff.mp heq
    exact (hprev q hq).hash hhash
  obtain ⟨hnew, hm1⟩ := insertBlockIndex_spec (m := l.mapBlockIndex) hself
  obtain ⟨hlink, hm2⟩ := insertBlockIndex_spec
    (m := (insertBlockIndex l.mapBlockIndex p.getBlockHash).1) hpprev
  rw [Option.getD_some] at hnew hm1
  -- what `InsertBlockIndex` has put under the hash has no work yet
  have hassign : assign ((insertBlockIndex (insertBlockIndex l.mapBlockIndex p.getBlockHash).1
      ((p.pprev.map getBlockHash).getD 0)).1[p.getBlockHash]?.getD .empty) (p.pprev.map getBlockHash)
        (s.diskIndex place p).readBack = entryOf s place p := by
    have hwork := hl.noWork p.getBlockHash
    have hget : (insertBlockIndex (insertBlockIndex l.mapBlockIndex p.getBlockHash).1
        ((p.pprev.map getBlockHash).getD 0)).1[p.getBlockHash]?.getD .empty =
          l.mapBlockIndex[p.getBlockHash]?.getD .empty := by
      rw [hm2, hm1, if_pos rfl]
      split <;> rfl
    rw [hget, entryOf, assign, assign, hwork.1, hwork.2]
    rfl
  unfold LoadedIndex.loadRecord
  simp only [hheader, show p.header.getHash = p.getBlockHash from rfl, hnew, hp.work, hp.linked, hlink]
  refine ⟨_, rfl, fun q hq => ?_, fun hash e hget => ?_, hl.valid⟩
  · dsimp only
    rw [hassign, TreeMap.getElem?_insert]
    simp only [Std.compare_eq_iff_eq]
    rcases List.mem_cons.mp hq with rfl | hq
    · rw [if_pos rfl]
    · split
      · rename_i heq
        rw [hinj q hq heq.symm]
      · rename_i hne
        rw [hm2, hm1, if_neg (fun heq => hne (Option.some.inj heq)), hl.entry q hq]
        split <;> rfl
  · dsimp only at hget
    rw [hassign, TreeMap.getElem?_insert] at hget
    simp only [Std.compare_eq_iff_eq] at hget
    split at hget
    · rename_i heq
      exact .inl ⟨p, List.mem_cons_self, heq⟩
    · rename_i hne
      rw [hm2, hm1, if_neg (fun heq => hne (Option.some.inj heq))] at hget
      have hold : ∀ e, l.mapBlockIndex[hash]? = some e →
          (∃ q ∈ p :: done, q.getBlockHash = hash) ∨
            e = .empty ∧ ∃ q ∈ p :: done, q.pprev.map getBlockHash = some hash := by
        intro e hget
        rcases hl.known hash e hget with ⟨q, hq, heq⟩ | ⟨he, q, hq, heq⟩
        · exact .inl ⟨q, List.mem_cons_of_mem _ hq, heq⟩
        · exact .inr ⟨he, q, List.mem_cons_of_mem _ hq, heq⟩
      split at hget
      · rename_i heq
        cases hcase : l.mapBlockIndex[hash]? with
        | none =>
          rw [hcase] at hget
          exact .inr ⟨(Option.some.inj hget).symm, p, List.mem_cons_self, heq⟩
        | some e' =>
          rw [hcase] at hget
          obtain rfl := Option.some.inj hget
          exact hold e' hcase
      · exact hold e hget

/-- The loop over the records, in any order. -/
theorem Loads.loadBlockIndexGuts (todo : List CBlockIndex) (htree : BlockTree s.mapBlockIndex)
    (hacc : ∀ p ∈ s.mapBlockIndex, p.Accepted) (hheight : ∀ p ∈ s.mapBlockIndex, p.nHeight < 2 ^ 31)
    (hdone : ∀ p ∈ done, p ∈ s.mapBlockIndex) (htodo : ∀ p ∈ todo, p ∈ s.mapBlockIndex)
    (hl : Loads s place done l) :
    ∃ l', l.loadBlockIndexGuts (todo.map fun p => (s.diskIndex place p).write) = .ok l' ∧
      Loads s place (todo.reverse ++ done) l' := by
  induction todo generalizing done l with
  | nil => exact ⟨l, rfl, hl⟩
  | cons p todo ih =>
    have hp := htodo p List.mem_cons_self
    obtain ⟨l1, h1, hl1⟩ := hl.loadRecord (hacc p hp)
      (fun q hq => hacc q (htree.closed p hp q hq)) fun q hq => htree.eq_of_hash (hdone q hq) hp
    obtain ⟨l', h', hl'⟩ := ih (List.forall_mem_cons.mpr ⟨hp, hdone⟩)
      (fun q hq => htodo q (List.mem_cons_of_mem _ hq)) hl1
    have hnonneg : 0 ≤ (s.diskIndex place p).nHeight := by
      show (0 : Int32) ≤ Int32.ofNat p.nHeight
      rw [Int32.le_iff_toInt_le, Int32.toInt_ofNat_of_lt (hheight p hp)]
      simp
    have hread := CDiskBlockIndex.decodes_write hnonneg (place p).nFile_nonneg []
    rw [List.append_nil] at hread
    refine ⟨l', ?_, ?_⟩
    · rw [List.map_cons, LoadedIndex.loadBlockIndexGuts, bind_ok]
      exact ⟨_, get_ok.mpr hread, bind_ok.mpr ⟨l1, h1, h'⟩⟩
    · rw [List.reverse_cons, List.append_assoc]
      exact hl'

/-- All the records have been loaded. -/
structure AllLoaded (s : NodeState) (place : CBlockIndex → BlockPlace) (l : LoadedIndex) : Prop where
  entry : ∀ p ∈ s.mapBlockIndex, l.mapBlockIndex[p.getBlockHash]? = some (entryOf s place p)
  known : ∀ hash ∈ l.mapBlockIndex, ∃ p ∈ s.mapBlockIndex, p.getBlockHash = hash
  valid : l.setBlockIndexValid = []

omit [NodeConfig] in
theorem loads_empty : Loads s place [] ⟨∅, none, []⟩ := by
  refine ⟨by simp, fun hash e hget => ?_, rfl⟩
  rw [TreeMap.getElem?_emptyc] at hget
  cases hget

/-- The first loop makes an entry of every record, and no others. -/
theorem loadBlockIndexGuts_spec {values : List (List UInt8)} (htree : BlockTree s.mapBlockIndex)
    (hacc : ∀ p ∈ s.mapBlockIndex, p.Accepted) (hheight : ∀ p ∈ s.mapBlockIndex, p.nHeight < 2 ^ 31)
    (hvalues : values.Perm (s.mapBlockIndex.map fun p => (s.diskIndex place p).write)) :
    ∃ l, loadBlockIndexGuts ⟨∅, none, []⟩ values = .ok l ∧ AllLoaded s place l := by
  obtain ⟨todo, rfl, hperm⟩ := (congrFun (congrFun (List.eq_map_comp_perm fun p =>
    (s.diskIndex place p).write) values) s.mapBlockIndex).mpr hvalues
  have hmem : ∀ p, p ∈ todo.reverse ++ [] ↔ p ∈ s.mapBlockIndex := fun p => by
    rw [List.append_nil, List.mem_reverse, hperm.mem_iff]
  obtain ⟨l, hcall, hl⟩ := loads_empty.loadBlockIndexGuts todo htree hacc hheight
    (by simp) fun p hp => hperm.mem_iff.mp hp
  refine ⟨l, hcall, fun p hp => hl.entry p ((hmem p).mpr hp), fun hash hhash => ?_, hl.valid⟩
  rw [TreeMap.mem_iff_isSome_getElem?] at hhash
  obtain ⟨e, he⟩ := Option.isSome_iff_exists.mp hhash
  rcases hl.known hash e he with ⟨p, hp, heq⟩ | ⟨-, p, hp, heq⟩
  · exact ⟨p, (hmem p).mp hp, heq⟩
  · obtain ⟨q, hq, heq⟩ := Option.map_eq_some_iff.mp heq
    exact ⟨q, htree.closed p ((hmem p).mp hp) q hq, heq⟩

/-! ## The second loop -/

def finalEntry (s : NodeState) (place : CBlockIndex → BlockPlace) (p : CBlockIndex) : IndexEntry :=
  { entryOf s place p with bnChainWork := p.bnChainWork, nChainTx := p.nChainTx place }

/-- The entries that are not in `rest` have got their work, and those of them without a flag are
candidates. -/
structure Works (s : NodeState) (place : CBlockIndex → BlockPlace) (rest : List uint256)
    (l : LoadedIndex) : Prop where
  entry : ∀ p ∈ s.mapBlockIndex, l.mapBlockIndex[p.getBlockHash]? =
    some (if p.getBlockHash ∈ rest then entryOf s place p else finalEntry s place p)
  known : ∀ hash ∈ l.mapBlockIndex, ∃ p ∈ s.mapBlockIndex, p.getBlockHash = hash
  valid : ∀ hash, hash ∈ l.setBlockIndexValid ↔
    ∃ p ∈ s.mapBlockIndex, p.getBlockHash = hash ∧ hash ∉ rest ∧ s.failed p = false
  nodup : l.setBlockIndexValid.Nodup

omit [Hashing] [NodeConfig] in
theorem heightLe_trans {address : uint256 → Nat} (a b c : uint256 × IndexEntry)
    (h : heightLe address a b = true) (h' : heightLe address b c = true) :
    heightLe address a c = true := by
  unfold heightLe at *
  simp only [decide_eq_true_eq] at *
  omega

omit [Hashing] [NodeConfig] in
theorem heightLe_total {address : uint256 → Nat} (a b : uint256 × IndexEntry) :
    (heightLe address a b || heightLe address b a) = true := by
  unfold heightLe
  simp only [Bool.or_eq_true, decide_eq_true_eq]
  omega

omit [NodeConfig] in
/-- The loop comes to no entry before it has come to those below it. -/
theorem vSortedByHeight_sorted {address : uint256 → Nat} (hl : AllLoaded s place l)
    (hheight : ∀ p ∈ s.mapBlockIndex, p.nHeight < 2 ^ 31) :
    (vSortedByHeight address l).Pairwise fun hash hash' => ∀ p ∈ s.mapBlockIndex,
      ∀ q ∈ s.mapBlockIndex, p.getBlockHash = hash → q.getBlockHash = hash' →
        p.nHeight ≤ q.nHeight := by
  have hentry : ∀ a ∈ l.mapBlockIndex.toList.mergeSort (heightLe address), ∀ p ∈ s.mapBlockIndex,
      p.getBlockHash = a.1 → a.2.nHeight.toInt = p.nHeight := by
    intro a ha p hp heq
    rw [List.mem_mergeSort, TreeMap.mem_toList_iff_getElem?_eq_some, ← heq, hl.entry p hp] at ha
    rw [← Option.some.inj ha]
    exact Int32.toInt_ofNat_of_lt (hheight p hp)
  refine List.Pairwise.map _ (fun _ _ h => h) ?_
  refine (List.pairwise_mergeSort heightLe_trans heightLe_total _).imp_of_mem ?_
  intro a b ha hb hab p hp q hq hpa hqb
  have h1 := hentry a ha p hp hpa
  have h2 := hentry b hb q hq hqb
  simp only [heightLe, decide_eq_true_eq] at hab
  omega

omit [Hashing] [NodeConfig] in
theorem mem_vSortedByHeight {address : uint256 → Nat} :
    hash ∈ vSortedByHeight address l ↔ hash ∈ l.mapBlockIndex := by
  unfold vSortedByHeight
  rw [((List.mergeSort_perm _ _).map _).mem_iff, TreeMap.map_fst_toList_eq_keys, TreeMap.mem_keys]

omit [Hashing] [NodeConfig] in
theorem nodup_vSortedByHeight {address : uint256 → Nat} : (vSortedByHeight address l).Nodup := by
  unfold vSortedByHeight
  rw [((List.mergeSort_perm _ _).map _).nodup_iff, TreeMap.map_fst_toList_eq_keys]
  exact TreeMap.nodup_keys

omit [NodeConfig] in
theorem AllLoaded.works (hl : AllLoaded s place l) (address : uint256 → Nat) :
    Works s place (vSortedByHeight address l) l where
  entry p hp := by
    have hmem : p.getBlockHash ∈ vSortedByHeight address l := by
      rw [mem_vSortedByHeight, TreeMap.mem_iff_isSome_getElem?, hl.entry p hp]
      rfl
    rw [if_pos hmem, hl.entry p hp]
  known := hl.known
  valid hash := by
    rw [hl.valid]
    refine iff_of_false List.not_mem_nil ?_
    rintro ⟨p, hp, rfl, hnot, -⟩
    refine hnot (mem_vSortedByHeight.mpr ?_)
    rw [TreeMap.mem_iff_isSome_getElem?, hl.entry p hp]
    rfl
  nodup := by
    rw [hl.valid]
    exact List.nodup_nil

omit [NodeConfig] in
theorem isCandidate_finalEntry (h : (s.data p).HasLevel) :
    (finalEntry s place p).isCandidate = true ↔ s.failed p = false := by
  have hfits : (s.data p).nStatus.Fits := lt_of_le_of_lt h.2 (by decide)
  have hmasks := hfits.masks
  have hstatus : (finalEntry s place p).nStatus = (s.data p).nStatus.toUInt32 := rfl
  rw [IndexEntry.isCandidate, hstatus, hmasks.validity, Bool.and_eq_true, decide_eq_true_eq,
    and_iff_right h.1, beq_iff_eq, NodeState.failed, BlockStatus.failed, ← Bool.not_eq_true,
    Bool.or_eq_true, ← hmasks.failed, ne_eq, not_not]

/-- The entry that the body of the loop makes, when the predecessor has got its work. -/
theorem Works.entry_eq {rest : List uint256} (hl : Works s place rest l)
    (htree : BlockTree s.mapBlockIndex) (hp : p ∈ s.mapBlockIndex) (hmem : p.getBlockHash ∈ rest)
    (hlow : ∀ q ∈ p.pprev, q.getBlockHash ∉ rest) :
    l.mapBlockIndex[p.getBlockHash]?.getD .empty = entryOf s place p ∧
      (entryOf s place p).pprev.bind (fun hash => l.mapBlockIndex[hash]?) =
        p.pprev.map (finalEntry s place) := by
  constructor
  · rw [hl.entry p hp, if_pos hmem]
    rfl
  · show (p.pprev.map getBlockHash).bind _ = _
    cases hprev : p.pprev with
    | none => rfl
    | some q =>
      rw [Option.map_some, Option.bind_some, hl.entry q (htree.closed p hp q hprev),
        if_neg (hlow q hprev)]
      rfl

omit [NodeConfig] in
theorem finalEntry_eq : { entryOf s place p with
      bnChainWork := ((p.pprev.map (finalEntry s place)).map IndexEntry.bnChainWork).getD 0 +
        (entryOf s place p).getBlockHeader.getBlockWork
      nChainTx := ((p.pprev.map (finalEntry s place)).map IndexEntry.nChainTx).getD 0 +
        (entryOf s place p).nTx } = finalEntry s place p := by
  have hwork : (entryOf s place p).getBlockHeader.getBlockWork = p.header.getBlockWork := rfl
  have htx : (entryOf s place p).nTx = (place p).nTx := rfl
  rw [hwork, htx, finalEntry]
  cases p with
  | root header =>
    have hsum : (0 : UInt32) + (place (root header)).nTx = (place (root header)).nTx :=
      UInt32.zero_add _
    simp only [pprev, Option.map_none, Option.getD_none, zero_add, hsum, bnChainWork, nChainTx,
      CBlockIndex.header]
  | child p header => rfl

/-- The body of the loop. -/
theorem Works.addWork {rest : List uint256} (hl : Works s place (p.getBlockHash :: rest) l)
    (htree : BlockTree s.mapBlockIndex) (hlevel : (s.data p).HasLevel) (hp : p ∈ s.mapBlockIndex)
    (hnot : p.getBlockHash ∉ rest)
    (hlow : ∀ q ∈ p.pprev, q.getBlockHash ∉ p.getBlockHash :: rest) :
    Works s place rest (l.addWork p.getBlockHash) := by
  obtain ⟨hself, hprev⟩ := hl.entry_eq htree hp List.mem_cons_self hlow
  have hnew : p.getBlockHash ∉ l.setBlockIndexValid := fun hmem => by
    obtain ⟨q, -, -, hout, -⟩ := (hl.valid _).mp hmem
    exact hout List.mem_cons_self
  have hmap : (l.addWork p.getBlockHash).mapBlockIndex =
      l.mapBlockIndex.insert p.getBlockHash (finalEntry s place p) := by
    unfold LoadedIndex.addWork
    rw [hself]
    dsimp only
    rw [hprev, finalEntry_eq]
    split
    · unfold insertValid
      split <;> rfl
    · rfl
  have hvalid : (l.addWork p.getBlockHash).setBlockIndexValid =
      if s.failed p = false then p.getBlockHash :: l.setBlockIndexValid else l.setBlockIndexValid := by
    unfold LoadedIndex.addWork
    rw [hself]
    dsimp only
    rw [hprev, finalEntry_eq]
    simp only [isCandidate_finalEntry hlevel]
    split
    · unfold insertValid
      rw [if_neg]
      simp only [List.any_eq_true, Bool.and_eq_true, beq_iff_eq, not_exists, not_and]
      rintro hash hmem rfl
      exact absurd hmem hnew
    · rfl
  refine ⟨fun q hq => ?_, fun hash hmem => ?_, fun hash => ?_, ?_⟩
  · rw [hmap, TreeMap.getElem?_insert]
    simp only [Std.compare_eq_iff_eq]
    split
    · rename_i heq
      rw [htree.eq_of_hash hq hp heq.symm, if_neg hnot]
    · rename_i hne
      rw [hl.entry q hq]
      simp [Ne.symm hne]
  · rw [hmap, TreeMap.mem_insert] at hmem
    rcases hmem with heq | hmem
    · exact ⟨p, hp, Std.compare_eq_iff_eq.mp heq⟩
    · exact hl.known hash hmem
  · rw [hvalid]
    have hrest : (∃ q ∈ s.mapBlockIndex, q.getBlockHash = hash ∧ hash ∉ rest ∧ s.failed q = false) ↔
        hash = p.getBlockHash ∧ s.failed p = false ∨ hash ∈ l.setBlockIndexValid := by
      rw [hl.valid]
      constructor
      · rintro ⟨q, hq, rfl, hout, hflag⟩
        by_cases heq : q.getBlockHash = p.getBlockHash
        · rw [← htree.eq_of_hash hq hp heq]
          exact .inl ⟨rfl, hflag⟩
        · exact .inr ⟨q, hq, rfl, by simp [heq, hout], hflag⟩
      · rintro (⟨rfl, hflag⟩ | ⟨q, hq, heq, hout, hflag⟩)
        · exact ⟨p, hp, rfl, hnot, hflag⟩
        · exact ⟨q, hq, heq, fun hmem => hout (List.mem_cons_of_mem _ hmem), hflag⟩
    rw [hrest]
    split
    · rename_i hflag
      simp [hflag]
    · rename_i hflag
      simp [hflag]
  · rw [hvalid]
    split
    · exact List.nodup_cons.mpr ⟨hnew, hl.nodup⟩
    · exact hl.nodup

/-- The loop over `vSortedByHeight`. -/
theorem Works.foldl {rest : List uint256} (hl : Works s place rest l)
    (htree : BlockTree s.mapBlockIndex) (hlevel : ∀ p ∈ s.mapBlockIndex, (s.data p).HasLevel)
    (hknown : ∀ hash ∈ rest, ∃ p ∈ s.mapBlockIndex, p.getBlockHash = hash) (hnodup : rest.Nodup)
    (hsorted : rest.Pairwise fun hash hash' => ∀ p ∈ s.mapBlockIndex, ∀ q ∈ s.mapBlockIndex,
      p.getBlockHash = hash → q.getBlockHash = hash' → p.nHeight ≤ q.nHeight) :
    Works s place [] (rest.foldl LoadedIndex.addWork l) := by
  induction rest generalizing l with
  | nil => exact hl
  | cons hash rest ih =>
    obtain ⟨p, hp, rfl⟩ := hknown hash List.mem_cons_self
    obtain ⟨hnot, hnodup⟩ := List.nodup_cons.mp hnodup
    obtain ⟨hfirst, hsorted⟩ := List.pairwise_cons.mp hsorted
    refine ih (hl.addWork htree (hlevel p hp) hp hnot fun q hq hmem => ?_)
      (fun hash hmem => hknown hash (List.mem_cons_of_mem _ hmem)) hnodup hsorted
    -- the predecessor is lower, so it has come before
    have hqmem := htree.closed p hp q hq
    have hheight := nHeight_of_pprev hq
    have hle : p.nHeight ≤ q.nHeight := by
      rcases List.mem_cons.mp hmem with heq | hmem
      · rw [htree.eq_of_hash hqmem hp heq]
      · exact hfirst _ hmem p hp q hqmem rfl rfl
    omega

/-! ## A restart -/

/-- The entry is as it was before: the positions are, as far as `nStatus` says that they exist. -/
structure Restores (s : NodeState) (place : CBlockIndex → BlockPlace) (p : CBlockIndex)
    (e : IndexEntry) : Prop where
  pprev : e.pprev = p.pprev.map getBlockHash
  nHeight : e.nHeight.toInt = p.nHeight
  header : e.getBlockHeader = p.header
  nTx : e.nTx = (place p).nTx
  nStatus : e.nStatus = (s.data p).nStatus.toUInt32
  nFile : (s.data p).nStatus.haveData = true ∨ (s.data p).nStatus.haveUndo = true →
    e.nFile = (place p).nFile
  nDataPos : (s.data p).nStatus.haveData = true → e.nDataPos = (place p).nDataPos
  nUndoPos : (s.data p).nStatus.haveUndo = true → e.nUndoPos = (place p).nUndoPos
  bnChainWork : e.bnChainWork = p.bnChainWork
  nChainTx : e.nChainTx = p.nChainTx place

omit [NodeConfig] in
theorem restores_finalEntry (hacc : p.Accepted) (hlevel : (s.data p).HasLevel)
    (hheight : p.nHeight < 2 ^ 31) : Restores s place p (finalEntry s place p) := by
  have hfits : (s.data p).nStatus.Fits := lt_of_le_of_lt hlevel.2 (by decide)
  have hmasks := hfits.masks
  refine ⟨rfl, Int32.toInt_ofNat_of_lt hheight, ?_, rfl, rfl, fun h => ?_, fun h => ?_, fun h => ?_,
    rfl, rfl⟩
  · show { p.header with hashPrevBlock := (p.pprev.map getBlockHash).getD 0 } = p.header
    rw [← hacc.linked]
  · exact if_pos (bne_iff_ne.mpr (hmasks.havePos.mpr h))
  · exact if_pos (bne_iff_ne.mpr (hmasks.haveData.mpr h))
  · exact if_pos (bne_iff_ne.mpr (hmasks.haveUndo.mpr h))

variable [ScriptEngine] [BlockFiles]

/-- A node has run, with any failures, and the database holds the records of its entries. Then a
restart loads an index with the same entries, each with the fields it had and with its work and its
transactions added up again, and with the same candidates, in whatever order the records are read and
wherever the entries are put. -/
theorem loadBlockIndexDB_spec {ops : List NodeOp} (hops : ∀ o ∈ ops, NodeState.FromNode o)
    (h : Run.run NodeState.step .init ops = some s)
    (hheight : ∀ p ∈ s.mapBlockIndex, p.nHeight < 2 ^ 31) (place : CBlockIndex → BlockPlace)
    {values : List (List UInt8)}
    (hvalues : values.Perm (s.mapBlockIndex.map fun p => (s.diskIndex place p).write))
    (address : uint256 → Nat) : ∃ l, loadBlockIndexDB address values = .ok l ∧
      (∀ hash, hash ∈ l.mapBlockIndex ↔ ∃ p ∈ s.mapBlockIndex, p.getBlockHash = hash) ∧
      (∀ p ∈ s.mapBlockIndex, ∃ e, l.mapBlockIndex[p.getBlockHash]? = some e ∧
        Restores s place p e) ∧
      l.setBlockIndexValid.Nodup ∧
      ∀ hash, hash ∈ l.setBlockIndexValid ↔
        ∃ p ∈ s.setBlockIndexValid, p.getBlockHash = hash := by
  have hs := NodeState.mainChain_of_run h
  have hflag := NodeState.flagged_of_run hops h
  obtain ⟨l, hguts, hl⟩ := loadBlockIndexGuts_spec hs.tree hflag.accepted hheight hvalues
  have hdone := (hl.works address).foldl hs.tree hflag.level
    (fun hash hmem => hl.known hash (mem_vSortedByHeight.mp hmem)) nodup_vSortedByHeight
    (vSortedByHeight_sorted hl hheight)
  have hentry : ∀ p ∈ s.mapBlockIndex, ((vSortedByHeight address l).foldl LoadedIndex.addWork
      l).mapBlockIndex[p.getBlockHash]? = some (finalEntry s place p) := by
    intro p hp
    rw [hdone.entry p hp, if_neg List.not_mem_nil]
  refine ⟨_, bind_ok.mpr ⟨l, hguts, rfl⟩, fun hash => ⟨hdone.known hash, ?_⟩, fun p hp => ?_,
    hdone.nodup, fun hash => ?_⟩
  · rintro ⟨p, hp, rfl⟩
    rw [TreeMap.mem_iff_isSome_getElem?, hentry p hp]
    rfl
  · exact ⟨_, hentry p hp, restores_finalEntry (hflag.accepted p hp) (hflag.level p hp) (hheight p hp)⟩
  · rw [hdone.valid]
    constructor
    · rintro ⟨p, hp, heq, -, hfailed⟩
      exact ⟨p, (hflag.candidates p hp).mpr hfailed, heq⟩
    · rintro ⟨p, hp, heq⟩
      have hmem := hs.candidates p hp
      exact ⟨p, hmem, heq, List.not_mem_nil, (hflag.candidates p hmem).mp hp⟩

end LoadedIndex

namespace Sample

def place (_ : CBlockIndex) : BlockPlace := ⟨0, 8, 0, 1, by decide⟩

/-- The node of a chain of two blocks with a failed genesis block restarts. The record of the second
block is read first. -/
theorem loadBlockIndexDB_spec_sample : ∃ s, Run.run NodeState.step .init failedRun = some s ∧
    s.mapBlockIndex = [next 1, genesis] ∧ s.failed genesis = true ∧
    ∃ l, LoadedIndex.loadBlockIndexDB BitVec.toNat
        (s.mapBlockIndex.map fun p => (s.diskIndex place p).write) = .ok l ∧
      ∀ hash, hash ∈ l.setBlockIndexValid ↔
        ∃ p ∈ s.setBlockIndexValid, p.getBlockHash = hash := by
  have hrun : ((Run.run NodeState.step .init failedRun).any fun s =>
      s.mapBlockIndex == [next 1, genesis] && s.failed genesis) = true := by decide +kernel
  obtain ⟨s, hs, hstate⟩ := (Option.any_eq_true _ _).mp hrun
  rw [Bool.and_eq_true, beq_iff_eq] at hstate
  obtain ⟨hmap, hfailed⟩ := hstate
  have hops : ∀ o ∈ failedRun, NodeState.FromNode o := by
    intro o ho
    simp only [failedRun, List.mem_cons, List.not_mem_nil, or_false] at ho
    rcases ho with rfl | rfl | rfl
    · exact ⟨by decide +kernel, by decide +kernel, by decide +kernel⟩
    · exact ⟨by decide +kernel, by decide +kernel, by decide +kernel⟩
    · trivial
  have hheight : ∀ p ∈ s.mapBlockIndex, p.nHeight < 2 ^ 31 := by
    rw [hmap]
    decide
  obtain ⟨l, hl, -, -, -, hvalid⟩ := LoadedIndex.loadBlockIndexDB_spec hops hs hheight place
    (List.Perm.refl _) BitVec.toNat
  exact ⟨s, hs, hmap, hfailed, l, hl, hvalid⟩

end Sample

end Terracoin
