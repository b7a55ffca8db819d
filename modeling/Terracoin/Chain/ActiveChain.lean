import Terracoin.Chain.MainChain
import Terracoin.Lib.Run

/-!
# The active chain in every run

Every operation of a node keeps `MainChain`, so it holds in every state a run reaches
(`mainChain_of_run`). `activeChain_spec` says what that means for the fork search, for the links
`pnext`, for `IsInMainChain` and for `FindBlockByHeight` with its cached pointer.
-/

namespace Terracoin

open CBlockIndex Checked

namespace CBlockIndex

theorem lowerTo_mem {p a : CBlockIndex} {n : Int} (h : p.lowerTo n = some a) : a ∈ p.chain := by
  induction p with
  | root header =>
    rw [lowerTo] at h
    split at h
    · cases h
    · obtain rfl := Option.some.inj h
      exact self_mem_chain
  | child p header ih =>
    rw [lowerTo] at h
    split at h
    · exact mem_chain_child.mpr (.inr (ih h))
    · obtain rfl := Option.some.inj h
      exact self_mem_chain

theorem lowerTo_of_neg {p : CBlockIndex} {n : Int} (hn : n < 0) : p.lowerTo n = none := by
  induction p with
  | root header => exact if_pos hn
  | child p header ih => rw [lowerTo, if_pos (by omega), ih]

end CBlockIndex

namespace NodeState

section

variable [Hashing] [NodeConfig] {s s' : NodeState} {best p a : CBlockIndex} {nHeight : Int}

/-! ## `FindBlockByHeight` -/

theorem MainChain.isInMainChain_iff (hs : MainChain s) :
    s.isInMainChain p = true ↔ p ∈ chainOf s.pindexBest := by
  unfold isInMainChain
  rw [Bool.or_eq_true, beq_iff_eq, Option.isSome_iff_exists]
  constructor
  · rintro (⟨q, hq⟩ | hbest)
    · obtain ⟨hq, hqp⟩ := (hs.pnext_iff p q).mp hq
      obtain ⟨best, hbest, hq⟩ := mem_chainOf.mp hq
      exact mem_chainOf.mpr ⟨best, hbest, mem_chain_trans (mem_chain_of_pprev hqp) hq⟩
    · exact mem_chainOf.mpr ⟨p, hbest, self_mem_chain⟩
  · intro hp
    obtain ⟨best, hbest, hp⟩ := mem_chainOf.mp hp
    by_cases heq : p = best
    · exact .inr (heq ▸ hbest)
    · obtain ⟨q, hq, hqp⟩ := exists_next hp heq
      exact .inl ⟨q, (hs.pnext_iff p q).mpr ⟨mem_chainOf.mpr ⟨best, hbest, hq⟩, hqp⟩⟩

/-- A proper ancestor of the best block, and no other entry, has a next block. -/
theorem MainChain.pnext_isSome_iff (hs : MainChain s) (hbest : s.pindexBest = some best) :
    (s.pnext p).isSome = true ↔ p ∈ best.chain ∧ p ≠ best := by
  rw [Option.isSome_iff_exists]
  constructor
  · rintro ⟨q, hq⟩
    obtain ⟨hq, hqp⟩ := (hs.pnext_iff p q).mp hq
    rw [hbest] at hq
    refine ⟨mem_chain_trans (mem_chain_of_pprev hqp) hq, fun heq => ?_⟩
    have h1 := nHeight_le_of_mem_chain hq
    have h2 := nHeight_of_pprev hqp
    rw [heq] at h2
    omega
  · rintro ⟨hp, hne⟩
    obtain ⟨q, hq, hqp⟩ := exists_next hp hne
    exact ⟨q, (hs.pnext_iff p q).mpr ⟨by rw [hbest]; exact hq, hqp⟩⟩

theorem raiseTo_mem (hs : MainChain s) (hbest : s.pindexBest = some best) {n : Nat}
    (hp : p ∈ best.chain) (h : s.raiseTo nHeight n p = some a) : a ∈ best.chain := by
  induction n generalizing p with
  | zero =>
    rw [raiseTo] at h
    split at h
    · cases h
    · exact Option.some.inj h ▸ hp
  | succ n ih =>
    rw [raiseTo] at h
    split at h
    · obtain ⟨q, hq, h⟩ := Option.bind_eq_some_iff.mp h
      obtain ⟨hqmem, -⟩ := (hs.pnext_iff p q).mp hq
      rw [hbest] at hqmem
      exact ih hqmem h
    · exact Option.some.inj h ▸ hp

theorem raiseTo_spec (hs : MainChain s) (hbest : s.pindexBest = some best) {n : Nat}
    (hp : p ∈ best.chain) (hn : nHeight = p.nHeight + n) (hle : nHeight ≤ best.nHeight) :
    ∃ a, s.raiseTo nHeight n p = some a ∧ (a.nHeight : Int) = nHeight := by
  induction n generalizing p with
  | zero => exact ⟨p, if_neg (by omega), by omega⟩
  | succ n ih =>
    have hne : p ≠ best := fun heq => by rw [heq] at hn; omega
    obtain ⟨q, hq, hqp⟩ := exists_next hp hne
    have hnext : s.pnext p = some q := (hs.pnext_iff p q).mpr ⟨by rw [hbest]; exact hq, hqp⟩
    have hheight := nHeight_of_pprev hqp
    rw [raiseTo, if_pos (by omega), hnext, Option.bind_some]
    exact ih hq (by omega)

theorem searchStart_spec (nHeight : Int) (hs : MainChain s) (hbest : s.pindexBest = some best) :
    ∃ a, s.searchStart nHeight = some a ∧ a ∈ best.chain := by
  have hfrom : ∃ b, (if nHeight < s.nBestHeight.tdiv 2 then s.pindexGenesisBlock else s.pindexBest) =
      some b ∧ b ∈ best.chain := by
    split
    · exact ⟨best.base, hs.genesis best hbest, base_mem_chain⟩
    · exact ⟨best, hbest, self_mem_chain⟩
  obtain ⟨b, hb, hbmem⟩ := hfrom
  rw [searchStart, hb, Option.map_some]
  refine ⟨_, rfl, ?_⟩
  cases hlast : s.pblockindexFBBHLast with
  | none => exact hbmem
  | some last =>
    have hmem := hs.last last hlast
    rw [hbest] at hmem
    dsimp only
    split
    · exact hmem
    · exact hbmem

omit [Hashing] [NodeConfig] in
theorem findBlockByHeight_eq {r : CBlockIndex × NodeState} :
    s.findBlockByHeight nHeight = some r ↔ ∃ b c a, s.searchStart nHeight = some b ∧
      b.lowerTo nHeight = some c ∧ s.raiseTo nHeight (nHeight - c.nHeight).toNat c = some a ∧
      r = (a, { s with pblockindexFBBHLast := some a }) := by
  simp only [findBlockByHeight, Option.bind_eq_bind, Option.bind_eq_some_iff, Option.pure_def,
    Option.some.injEq]
  constructor
  · rintro ⟨b, hb, c, hc, a, ha, rfl⟩
    exact ⟨b, c, a, hb, hc, ha, rfl⟩
  · rintro ⟨b, c, a, hb, hc, ha, rfl⟩
    exact ⟨b, hb, c, hc, a, ha, rfl⟩

omit [Hashing] [NodeConfig] in
theorem findBlockByHeight_frame (h : s.findBlockByHeight nHeight = some (p, s')) :
    s' = { s with pblockindexFBBHLast := some p } := by
  obtain ⟨b, c, a, -, -, -, heq⟩ := findBlockByHeight_eq.mp h
  obtain ⟨rfl, rfl⟩ := Prod.mk.inj heq
  rfl

/-- `FindBlockByHeight` returns the block of the active chain at that height. -/
theorem findBlockByHeight_spec (hs : MainChain s) (hbest : s.pindexBest = some best)
    (h0 : 0 ≤ nHeight) (hle : nHeight ≤ s.nBestHeight) :
    ∃ p s', s.findBlockByHeight nHeight = some (p, s') ∧ p ∈ best.chain ∧
      (p.nHeight : Int) = nHeight := by
  rw [(hs.tip best hbest).2.1] at hle
  obtain ⟨b, hb, hbmem⟩ := searchStart_spec nHeight hs hbest
  obtain ⟨c, hc, hcmem, hcle, -⟩ := lowerTo_spec (p := b) (n := nHeight.toNat)
  rw [Int.toNat_of_nonneg h0] at hc
  have hcbest : c ∈ best.chain := mem_chain_trans hcmem hbmem
  obtain ⟨a, ha, hheight⟩ := raiseTo_spec (n := (nHeight - c.nHeight).toNat) hs hbest hcbest
    (by omega) hle
  exact ⟨a, _, findBlockByHeight_eq.mpr ⟨b, c, a, hb, hc, ha, rfl⟩,
    raiseTo_mem hs hbest hcbest ha, hheight⟩

/-- The cached pointer stays on the active chain. -/
theorem findBlockByHeight_mainChain (hs : MainChain s)
    (h : s.findBlockByHeight nHeight = some (p, s')) : MainChain s' := by
  obtain ⟨b, c, a, hb, hc, ha, heq⟩ := findBlockByHeight_eq.mp h
  obtain ⟨rfl, rfl⟩ := Prod.mk.inj heq
  refine { hs with last := ?_ }
  rintro q ⟨⟩
  show p ∈ chainOf s.pindexBest
  cases hbest : s.pindexBest with
  | some best =>
    obtain ⟨b', hb', hbmem⟩ := searchStart_spec nHeight hs hbest
    obtain rfl := Option.some.inj (hb'.symm.trans hb)
    exact raiseTo_mem hs hbest (mem_chain_trans (lowerTo_mem hc) hbmem) ha
  | none =>
    -- without a best block the search runs into `NULL`
    have hheight := hs.noTip hbest
    by_cases hneg : nHeight < 0
    · rw [lowerTo_of_neg hneg] at hc
      cases hc
    · have hhalf : ¬nHeight < s.nBestHeight.tdiv 2 := by
        have htdiv : s.nBestHeight.tdiv 2 ≤ (0 : Int).tdiv 2 := Int.tdiv_le_tdiv (by decide) hheight
        rw [Int.zero_tdiv] at htdiv
        omega
      rw [searchStart, if_neg hhalf, hbest, Option.map_none] at hb
      cases hb

/-! ## `AddToBlockIndex` -/

omit [NodeConfig] in
theorem findIndex_some {hash : uint256} (h : s.findIndex hash = some p) :
    p ∈ s.mapBlockIndex ∧ p.getBlockHash = hash :=
  ⟨List.mem_of_find?_eq_some h, by simpa using List.find?_some h⟩

omit [NodeConfig] in
theorem findIndex_none {hash : uint256} (h : s.findIndex hash = none) :
    ∀ p ∈ s.mapBlockIndex, p.getBlockHash ≠ hash := by
  intro p hp heq
  simpa [heq] using List.find?_eq_none.mp h p hp

omit [NodeConfig] in
theorem mem_insertValid {q : CBlockIndex} :
    q ∈ (s.insertValid p).setBlockIndexValid → q = p ∨ q ∈ s.setBlockIndexValid := by
  unfold insertValid
  split
  · exact .inr
  · exact List.mem_cons.mp

omit [NodeConfig] in
theorem insertValid_eq :
    s.insertValid p = { s with setBlockIndexValid := (s.insertValid p).setBlockIndexValid } := by
  unfold insertValid
  split <;> rfl

/-- Inserting a new entry without links. -/
theorem MainChain.insertIndex (hs : MainChain s) (hprev : ∀ q ∈ p.pprev, q ∈ s.mapBlockIndex)
    (hhash : ∀ q ∈ s.mapBlockIndex, q.getBlockHash ≠ p.getBlockHash)
    (hroot : p.pprev = none → p.getBlockHash = hashGenesisBlock) : MainChain (s.insertIndex p) := by
  have hnew : p ∉ s.mapBlockIndex := fun hp => hhash p hp rfl
  have hnext : Function.update s.pnext p none = s.pnext := by
    refine Function.update_eq_self_iff.mpr ?_
    cases hq : s.pnext p with
    | none => rfl
    | some q =>
      -- only ancestors of the best block have a next block, and they are known
      obtain ⟨hqmem, hqp⟩ := (hs.pnext_iff p q).mp hq
      obtain ⟨best, hbest, hqmem⟩ := mem_chainOf.mp hqmem
      exact absurd (hs.tree.mem_of_mem_chain (hs.known best hbest)
        (mem_chain_trans (mem_chain_of_pprev hqp) hqmem)) hnew
  unfold NodeState.insertIndex
  rw [insertValid_eq, hnext]
  refine { hs with tree := hs.tree.cons hprev hhash hroot, known := ?_, candidates := ?_ }
  · exact fun q hq => List.mem_cons_of_mem _ (hs.known q hq)
  · intro q hq
    rcases mem_insertValid hq with rfl | hq
    · exact List.mem_cons_self
    · exact List.mem_cons_of_mem _ (hs.candidates q hq)

/-! ## `LoadBlockIndexDB` -/

omit [NodeConfig] in
theorem foldl_insertValid_eq {l : List CBlockIndex} : l.foldl insertValid s =
    { s with setBlockIndexValid := (l.foldl insertValid s).setBlockIndexValid } := by
  induction l generalizing s with
  | nil => rfl
  | cons p l ih =>
    rw [List.foldl_cons, ih, insertValid_eq]

omit [NodeConfig] in
theorem mem_foldl_insertValid {l : List CBlockIndex} {q : CBlockIndex}
    (h : q ∈ (l.foldl insertValid s).setBlockIndexValid) : q ∈ l ∨ q ∈ s.setBlockIndexValid := by
  induction l generalizing s with
  | nil => exact .inr h
  | cons p l ih =>
    rcases ih h with h | h
    · exact .inl (List.mem_cons_of_mem _ h)
    · rcases mem_insertValid h with rfl | h
      · exact .inl List.mem_cons_self
      · exact .inr h

omit [Hashing] [NodeConfig] in
theorem setNext_chain {q : CBlockIndex} :
    setNext (fun _ => none) best.chain p = some q ↔ q ∈ best.chain ∧ q.pprev = some p := by
  by_cases hnext : ∃ c ∈ best.chain, c.pprev = some p
  · obtain ⟨c, hc, hcp⟩ := hnext
    rw [setNext_of_mem hc hcp fun d hd hdp => next_unique hd hc hdp hcp]
    constructor
    · rintro ⟨⟩
      exact ⟨hc, hcp⟩
    · rintro ⟨hq, hqp⟩
      rw [next_unique hq hc hqp hcp]
  · rw [setNext_of_forall_ne fun d hd hdp => hnext ⟨d, hd, hdp⟩]
    constructor
    · rintro ⟨⟩
    · rintro ⟨hq, hqp⟩
      exact absurd ⟨q, hq, hqp⟩ hnext

theorem loadBlockIndexDB_mainChain {db : BlockTreeDB} {coinsDB : CoinsView}
    (htree : BlockTree db.entries) (hcoins : ∀ p ∈ coinsDB.getBestBlock, p ∈ db.entries) :
    MainChain (loadBlockIndexDB db coinsDB) := by
  unfold loadBlockIndexDB
  dsimp only
  rw [foldl_insertValid_eq]
  have hvalid : ∀ {s : NodeState} {l : List CBlockIndex}, s.setBlockIndexValid = [] →
      (∀ p ∈ l, p ∈ db.entries) → ∀ q ∈ (l.foldl insertValid s).setBlockIndexValid,
      q ∈ db.entries := fun hnil hl q hq => by
    rcases mem_foldl_insertValid hq with hq | hq
    · exact hl q hq
    · rw [hnil] at hq
      cases hq
  cases hbest : coinsDB.getBestBlock with
  | none =>
    refine ⟨htree, ?_, ?_, ?_, fun _ => hbest, ?_, ?_, ?_, fun _ => le_refl _⟩
    · rintro p ⟨⟩
    · exact hvalid rfl fun p hp => (List.mem_filter.mp hp).1
    · intro p q
      simp [init]
    · rintro p ⟨⟩
    · rintro p ⟨⟩
    · rintro p ⟨⟩
  | some best =>
    have hmem := hcoins best hbest
    refine ⟨htree, ?_, ?_, fun p q => setNext_chain, fun _ => hbest, ?_, ?_, ?_, ?_⟩
    · rintro p ⟨⟩
      exact hmem
    · exact hvalid rfl fun p hp => (List.mem_filter.mp hp).1
    · rintro p ⟨⟩
    · rintro p ⟨⟩
      show db.entries.find? (fun pindex => pindex.getBlockHash == hashGenesisBlock) = some best.base
      cases hfind : db.entries.find? (fun pindex => pindex.getBlockHash == hashGenesisBlock) with
      | some g =>
        have hg : g.getBlockHash = hashGenesisBlock := by simpa using List.find?_some hfind
        rw [htree.eq_base_of_hash hmem (List.mem_of_find?_eq_some hfind) hg]
      | none =>
        have := List.find?_eq_none.mp hfind best.base (htree.mem_of_mem_chain hmem base_mem_chain)
        simp [htree.base_hash hmem] at this
    · rintro p ⟨⟩
      exact ⟨rfl, rfl, rfl⟩
    · rintro ⟨⟩

end

/-! ## Runs -/

variable [Hashing] [ScriptEngine] [NodeConfig] [BlockFiles] {s s' : NodeState}

omit [ScriptEngine] [BlockFiles] in
theorem mainChain_init : MainChain init := by
  refine ⟨⟨?_, List.nodup_nil, ?_⟩, ?_, ?_, ?_, fun _ => rfl, ?_, ?_, ?_, fun _ => by decide⟩
  · rintro p ⟨⟩
  · rintro p ⟨⟩
  · rintro p ⟨⟩
  · rintro p ⟨⟩
  · intro p q
    simp [init]
  · rintro p ⟨⟩
  · rintro p ⟨⟩
  · rintro p ⟨⟩

omit [ScriptEngine] [BlockFiles] in
/-- The entry that `AddToBlockIndex` makes keeps the index a tree of blocks. -/
theorem MainChain.insertIndex_newIndex (hs : MainChain s) {header : CBlockHeader}
    (hprev : (s.findIndex header.hashPrevBlock).isSome ∨ header.getHash = hashGenesisBlock)
    (hnew : s.findIndex header.getHash = none) : MainChain (s.insertIndex (s.newIndex header)) := by
  have hdup := findIndex_none hnew
  unfold newIndex
  cases hfind : s.findIndex header.hashPrevBlock with
  | some q =>
    refine hs.insertIndex ?_ hdup ?_
    · rintro r ⟨⟩
      exact (findIndex_some hfind).1
    · rintro ⟨⟩
  | none =>
    refine hs.insertIndex ?_ hdup fun _ => ?_
    · rintro r ⟨⟩
    · rw [hfind] at hprev
      exact hprev.resolve_left (by simp)

theorem addToBlockIndex_mainChain {env : AddEnv} {fuel : Nat} {header : CBlockHeader}
    {r : Check Unit} (hs : MainChain s)
    (hprev : (s.findIndex header.hashPrevBlock).isSome ∨ header.getHash = hashGenesisBlock)
    (h : s.addToBlockIndex env fuel header = .ok (s', r)) : MainChain s' := by
  rcases addToBlockIndex_cases h with ⟨e, rfl⟩ | ⟨hnew, ⟨e, rfl⟩ | ⟨s1, r1, h1, hres⟩⟩
  · exact hs.of_unmoved .abortOn
  · exact (hs.insertIndex_newIndex hprev hnew).of_unmoved .abortOn
  · obtain ⟨hs1, -⟩ := connectBestBlock_mainChain (hs.insertIndex_newIndex hprev hnew) h1
    rcases hres with rfl | ⟨e, rfl⟩
    · exact hs1
    · exact hs1.of_unmoved .abortOn

omit [ScriptEngine] [BlockFiles] in
theorem MainChain.of_poolOnly (hs : MainChain s) (h : PoolOnly s s') : MainChain s' := by
  rw [h.frame]
  exact { hs with coins := fun hrun => hs.coins (h.shutdown hrun) }

theorem step_mainChain {o : NodeOp} (hs : MainChain s) (h : s.step o = some s') : MainChain s' := by
  cases stepped_of_step h with
  | loadBlockIndexDB tree best => exact loadBlockIndexDB_mainChain tree best
  | addToBlockIndex prev call => exact addToBlockIndex_mainChain hs prev call
  | invalidBlockFound mem call =>
    obtain ⟨s1, h1, hres⟩ := invalidBlockFound_cases call
    have hs1 := hs.of_unmoved (unmoved_setFailedValid.trans (invalidChainFound_unmoved h1))
    rcases hres with rfl | ⟨r, hbest⟩
    · exact hs1
    · exact (connectBestBlock_mainChain hs1 hbest).1
  | connectBestBlock call => exact (connectBestBlock_mainChain hs call).1
  | setBestChain mem running call => exact (setBestChain_mainChain hs running mem call).1
  | findBlockByHeight call => exact findBlockByHeight_mainChain hs call
  | acceptToMemoryPool call => exact hs.of_poolOnly (acceptToMemoryPool_poolOnly call)

theorem mainChain_of_run {ops : List NodeOp} (h : Run.run step init ops = some s) : MainChain s :=
  Run.run_invariant (fun _ _ _ _ => step_mainChain) mainChain_init h

/-- In every state a run reaches: the fork search of a call of `SetBestChain` finds the last common
ancestor of the old and the new tip; `pnext` leads from exactly the proper ancestors of `pindexBest`
to the next block of its chain; `IsInMainChain` holds of `pindexBest` and its ancestors and of nothing
else; and `FindBlockByHeight` finds the block of that chain at every height, its cached pointer being
a block of the chain. -/
theorem activeChain_spec {ops : List NodeOp} (h : Run.run step init ops = some s) :
    (∀ pindexNew ∈ s.mapBlockIndex, s.fRequestShutdown = false → ∀ best, s.pindexBest = some best →
      ∃ f, s.fork pindexNew = .ok (some f) ∧ f ∈ best.chain ∧ f ∈ pindexNew.chain ∧
        ∀ a ∈ best.chain, a ∈ pindexNew.chain → a ∈ f.chain) ∧
    (∀ p, (s.pnext p).isSome = true ↔ ∃ best, s.pindexBest = some best ∧ p ∈ best.chain ∧ p ≠ best) ∧
    (∀ p q, s.pnext p = some q → q.pprev = some p ∧ q ∈ chainOf s.pindexBest) ∧
    (∀ p, s.isInMainChain p = true ↔ p ∈ chainOf s.pindexBest) ∧
    (∀ p, s.pblockindexFBBHLast = some p → p ∈ chainOf s.pindexBest) ∧
    ∀ best, s.pindexBest = some best → ∀ nHeight : Int, 0 ≤ nHeight → nHeight ≤ s.nBestHeight →
      ∃ p s', s.findBlockByHeight nHeight = some (p, s') ∧ p ∈ best.chain ∧
        (p.nHeight : Int) = nHeight := by
  have hs := mainChain_of_run h
  refine ⟨?_, ?_, ?_, fun p => hs.isInMainChain_iff, hs.last, ?_⟩
  · intro pindexNew hmem hrun best hbest
    rcases hs.fork_eq hrun hmem with ⟨hnone, -⟩ | ⟨best', f, hbest', hfork, hfind⟩
    · rw [hbest] at hnone
      cases hnone
    · obtain rfl := Option.some.inj (hbest'.symm.trans hbest)
      exact ⟨f, hfork, findFork_spec hfind⟩
  · intro p
    constructor
    · intro hp
      obtain ⟨q, hq⟩ := Option.isSome_iff_exists.mp hp
      obtain ⟨best, hbest, -⟩ := mem_chainOf.mp ((hs.pnext_iff p q).mp hq).1
      exact ⟨best, hbest, (hs.pnext_isSome_iff hbest).mp hp⟩
    · rintro ⟨best, hbest, hp⟩
      exact (hs.pnext_isSome_iff hbest).mpr hp
  · intro p q hq
    obtain ⟨hqmem, hqp⟩ := (hs.pnext_iff p q).mp hq
    exact ⟨hqp, hqmem⟩
  · intro best hbest nHeight h0 hle
    exact findBlockByHeight_spec hs hbest h0 hle

end NodeState

/-! ## A fork of two blocks -/

namespace Sample

/-- Every block holds a coinbase and nothing else. -/
scoped instance files : BlockFiles where
  block pindex := ⟨pindex.header, [coinbase pindex.header.nNonce coin]⟩

/-- A header on top of the genesis block. -/
def nextHeader (nNonce : UInt32) : CBlockHeader :=
  { header nNonce (BitVec.ofNat 256 nNonce.toNat) with hashPrevBlock := genesis.getBlockHash }

def next (nNonce : UInt32) : CBlockIndex := .child genesis (nextHeader nNonce)

def switchEnv : SetBestChainEnv where
  fReadBlock _ := true
  fReadUndo _ := true
  connect _ := env
  fCatchingUp := false
  fCacheFull := false
  fDiskSpace := true
  fFlushCoins := true
  nAcceptTime _ := 1000
  nStack := 1000

def bestEnv : ConnectBestEnv := ⟨fun _ => false, fun _ => switchEnv⟩

/-- The state after a call that returned `b`. -/
def returned (b : Bool) (x : Except Halt (NodeState × Check Unit)) : Option NodeState :=
  x.toOption.bind fun r => if r.2.isOk = b then some r.1 else none

theorem returned_true {x : Except Halt (NodeState × Check Unit)} {s : NodeState}
    (h : returned true x = some s) : x = .ok (s, .ok ()) := by
  obtain ⟨⟨s', e | u⟩, hx, hr⟩ := Option.bind_eq_some_iff.mp h
  · cases hr
  · obtain rfl := Option.some.inj hr
    exact toOption_eq_some.mp hx

theorem returned_false {x : Except Halt (NodeState × Check Unit)} {s : NodeState}
    (h : returned false x = some s) : ∃ e, x = .ok (s, .error e) := by
  obtain ⟨⟨s', e | u⟩, hx, hr⟩ := Option.bind_eq_some_iff.mp h
  · obtain rfl := Option.some.inj hr
    exact ⟨e, toOption_eq_some.mp hx⟩
  · cases hr

/-- Two blocks on top of the genesis block, both of which have been connected before. -/
def forkDB : NodeState.BlockTreeDB where
  entries := [genesis, next 1, next 2]
  data _ := ⟨⟨BLOCK_VALID_SCRIPTS, true, true, false, false⟩, some ⟨[]⟩⟩
  bnBestInvalidWork := 0

def forkCoins : CoinsView :=
  (CoinsView.empty.setCoins 1 (.ofTx (coinbase 1 coin) 1)).setBestBlock (some (next 1))

/-- The node loads the fork, looks up the genesis block and switches to the other branch. -/
def forkRun : List NodeOp :=
  [.loadBlockIndexDB forkDB forkCoins, .findBlockByHeight 0, .findBlockByHeight 1,
    .setBestChain bestEnv 0 (next 2), .findBlockByHeight 0]

theorem activeChain_spec_sample : ∃ s, Run.run NodeState.step .init forkRun = some s ∧
    s.pindexBest = some (next 2) ∧
    (∀ p, s.isInMainChain p = true ↔ p ∈ chainOf s.pindexBest) ∧
    ∃ p s', s.findBlockByHeight 1 = some (p, s') ∧ p ∈ (next 2).chain ∧ (p.nHeight : Int) = 1 := by
  have hrun : ((Run.run NodeState.step .init forkRun).any fun s =>
      s.pindexBest == some (next 2) && s.nBestHeight == 1) = true := by decide +kernel
  obtain ⟨s, hs, hstate⟩ := (Option.any_eq_true _ _).mp hrun
  rw [Bool.and_eq_true, beq_iff_eq, beq_iff_eq] at hstate
  obtain ⟨-, -, -, hmain, -, hfind⟩ := NodeState.activeChain_spec hs
  exact ⟨s, hs, hstate.1, hmain, hfind (next 2) hstate.1 1 (by decide) (by rw [hstate.2])⟩

end Sample

end Terracoin
