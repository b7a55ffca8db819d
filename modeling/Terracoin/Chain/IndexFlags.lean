import Terracoin.Chain.Candidates

/-!
# The flags and the candidates

Nothing but a flag takes an entry out of `setBlockIndexValid`, and every flag does. So the set is
determined by `nStatus`: it holds the entries of the index without a flag (`flagged_of_run`), whatever
failures there have been.
-/

namespace Terracoin

open CBlockIndex Checked

/-- The levels that entries of the index have. -/
def BlockData.HasLevel (data : BlockData) : Prop :=
  BLOCK_VALID_TRANSACTIONS ≤ data.nStatus.validity ∧ data.nStatus.validity ≤ BLOCK_VALID_SCRIPTS

/-- What `AcceptBlock` has made sure of: the header has the hash of the predecessor, or 0 without one,
and the block has its proof of work. The hash 0 stands for no block. -/
structure CBlockIndex.Accepted [Hashing] (p : CBlockIndex) : Prop where
  hash : p.getBlockHash ≠ 0
  linked : p.header.hashPrevBlock = (p.pprev.map CBlockIndex.getBlockHash).getD 0
  work : (checkProofOfWork p.getBlockHash p.header.nBits).isOk = true

namespace NodeState

variable [Hashing] [ScriptEngine] [NodeConfig] [BlockFiles]

/-- The candidates are the entries without a flag. -/
structure Flagged (s : NodeState) : Prop where
  candidates : ∀ p ∈ s.mapBlockIndex, p ∈ s.setBlockIndexValid ↔ s.failed p = false
  level : ∀ p ∈ s.mapBlockIndex, (s.data p).HasLevel
  accepted : ∀ p ∈ s.mapBlockIndex, p.Accepted

variable {s s' : NodeState} {p q t : CBlockIndex}

section

omit [ScriptEngine] [NodeConfig] [BlockFiles]

theorem Flagged.congr (h : Flagged s) (hmap : s'.mapBlockIndex = s.mapBlockIndex)
    (hvalid : s'.setBlockIndexValid = s.setBlockIndexValid) (hdata : s'.data = s.data) :
    Flagged s' := by
  refine ⟨?_, ?_, ?_⟩
  · unfold failed
    rw [hmap, hvalid, hdata]
    exact h.candidates
  · rw [hmap, hdata]
    exact h.level
  · rw [hmap]
    exact h.accepted

/-! ## Marking an entry -/

theorem mem_eraseValid [NodeConfig] (htree : BlockTree s.mapBlockIndex) (hp : p ∈ s.mapBlockIndex)
    (hq : q ∈ s.mapBlockIndex) :
    q ∈ (s.eraseValid p).setBlockIndexValid ↔ q ∈ s.setBlockIndexValid ∧ q ≠ p := by
  unfold eraseValid
  rw [List.mem_filter, Bool.not_eq_true', ← Bool.not_eq_true, workEquiv_iff]
  refine and_congr_right fun _ => not_congr ⟨fun h => htree.eq_of_hash hq hp h.2.symm, ?_⟩
  rintro rfl
  exact ⟨rfl, rfl⟩

theorem Flagged.mark (h : Flagged s) (hmap : s'.mapBlockIndex = s.mapBlockIndex)
    (hvalid : ∀ q ∈ s.mapBlockIndex, q ∈ s'.setBlockIndexValid ↔ q ∈ s.setBlockIndexValid ∧ q ≠ p)
    (hfailed : s'.failed p = true)
    (hlevel : (s'.data p).nStatus.validity = (s.data p).nStatus.validity)
    (hother : ∀ q, q ≠ p → s'.data q = s.data q) : Flagged s' := by
  refine ⟨fun q hq => ?_, fun q hq => ?_, hmap ▸ h.accepted⟩
  · rw [hmap] at hq
    rw [hvalid q hq]
    by_cases hne : q = p
    · simp [hne, hfailed]
    · rw [h.candidates q hq, failed, failed, hother q hne]
      simp [hne]
  · rw [hmap] at hq
    by_cases hne : q = p
    · rw [hne] at hq ⊢
      rw [BlockData.HasLevel, hlevel]
      exact h.level p hq
    · rw [hother q hne]
      exact h.level q hq

theorem Flagged.setFailedValid [NodeConfig] (h : Flagged s) (htree : BlockTree s.mapBlockIndex)
    (hp : p ∈ s.mapBlockIndex) : Flagged ((s.setFailedValid p).eraseValid p) := by
  refine h.mark rfl (fun q hq => mem_eraseValid (s := s.setFailedValid p) htree hp hq) ?_ ?_ ?_
  · simp [failed, eraseValid, NodeState.setFailedValid, BlockStatus.failed]
  · simp [eraseValid, NodeState.setFailedValid]
  · exact fun q hne => Function.update_of_ne hne _ _

theorem Flagged.setFailedChild [NodeConfig] (h : Flagged s) (htree : BlockTree s.mapBlockIndex)
    (hp : p ∈ s.mapBlockIndex) : Flagged ((s.setFailedChild p).eraseValid p) := by
  refine h.mark rfl (fun q hq => mem_eraseValid (s := s.setFailedChild p) htree hp hq) ?_ ?_ ?_
  · simp [failed, eraseValid, NodeState.setFailedChild, BlockStatus.failed]
  · simp [eraseValid, NodeState.setFailedChild]
  · exact fun q hne => Function.update_of_ne hne _ _

theorem Flagged.invalidChainFound (h : Flagged s) (hcall : s.invalidChainFound p = .ok s') :
    Flagged s' := by
  rw [invalidChainFound_ok hcall]
  exact h.congr rfl rfl rfl

theorem Flagged.markFailed [NodeConfig] (h : Flagged s) (htree : BlockTree s.mapBlockIndex)
    (hp : p ∈ s.mapBlockIndex) : Flagged (markFailed t s p) := by
  induction p generalizing s with
  | root header =>
    rw [NodeState.markFailed]
    split
    · exact h
    · exact h.setFailedChild htree hp
  | child p header ih =>
    rw [NodeState.markFailed]
    split
    · exact h
    · exact ih (h.setFailedChild htree hp) htree (htree.mem_of_pprev hp rfl)

theorem Flagged.invalidBlockFound [NodeConfig] (h : Flagged s) (htree : BlockTree s.mapBlockIndex)
    (hp : p ∈ s.mapBlockIndex) {reorganise : NodeState → Except Halt NodeState}
    (hnext : s.pnext p = none) (hcall : NodeState.invalidBlockFound reorganise s p = .ok s') :
    Flagged s' := by
  obtain ⟨s1, h1, hcall⟩ := bind_ok.mp hcall
  have hnext1 : s1.pnext p = none := by
    rw [invalidChainFound_ok h1]
    exact hnext
  rw [hnext1, if_neg (by simp)] at hcall
  obtain rfl := Except.ok.inj hcall
  exact (h.setFailedValid htree hp).invalidChainFound h1

end

/-! ## Connecting blocks -/

omit [Hashing] [ScriptEngine] [NodeConfig] [BlockFiles] in
theorem writeUndoData_hasLevel (env : ConnectEnv) {data : BlockData} (blockundo : CBlockUndo)
    (h : data.HasLevel) : (writeUndoData env data blockundo).1.HasLevel := by
  unfold writeUndoData
  split
  · exact h
  · split
    · exact h
    · split
      · exact h
      · exact ⟨show BLOCK_VALID_TRANSACTIONS ≤ BLOCK_VALID_SCRIPTS by decide, le_refl _⟩

omit [BlockFiles] in
theorem connectBlock_hasLevel {env : ConnectEnv} {b : CBlock} {pindex : CBlockIndex}
    {phashBlock : Option uint256} {data : BlockData} {view : CoinsView} {fJustCheck : Bool}
    (h : data.HasLevel) :
    (connectBlock env b pindex phashBlock data view fJustCheck).1.HasLevel := by
  unfold connectBlock
  split
  · exact h
  · exact h
  · rename_i blockundo _
    have hwrite := writeUndoData_hasLevel env blockundo h
    split
    · exact h
    · split
      · rename_i heq
        rwa [heq] at hwrite
      · rename_i heq
        rw [heq] at hwrite
        split <;> exact hwrite

theorem Flagged.connectIndex {env : SetBestChainEnv} {view : CoinsView} {r : Check CoinsView}
    (h : Flagged s) (hcall : connectIndex env s view p = (s', r)) : Flagged s' := by
  have hrec := connectIndex_recorded hcall
  have hmap : s'.mapBlockIndex = s.mapBlockIndex := by rw [hrec.frame]
  have hvalid : s'.setBlockIndexValid = s.setBlockIndexValid := by rw [hrec.frame]
  refine ⟨fun q hq => ?_, fun q hq => ?_, hmap ▸ h.accepted⟩
  · rw [hvalid, hrec.failed]
    exact h.candidates q (hmap ▸ hq)
  · have hlevel := h.level q (hmap ▸ hq)
    unfold NodeState.connectIndex at hcall
    split at hcall
    · obtain ⟨rfl, -⟩ := Prod.mk.inj hcall
      exact hlevel
    · obtain ⟨rfl, -⟩ := Prod.mk.inj hcall
      by_cases hne : q = p
      · subst hne
        simpa using connectBlock_hasLevel hlevel
      · simpa [Function.update_of_ne hne] using hlevel

theorem Flagged.connectBlocks {env : SetBestChainEnv} {view : CoinsView}
    {vConnect : List CBlockIndex}
    {r : Except (CBlockIndex × Failure) (CoinsView × List CTransaction)} (h : Flagged s)
    (hcall : connectBlocks env s view vConnect = (s', r)) : Flagged s' :=
  connectBlocks_invariant (fun _ _ _ _ _ _ h1 hs => hs.connectIndex h1) h hcall

theorem Flagged.setBestChain {reorganise : NodeState → Except Halt NodeState}
    {env : SetBestChainEnv} (h : Flagged s) (hs : MainChain s) (hrun : s.fRequestShutdown = false)
    (hp : p ∈ s.mapBlockIndex) {r : Check Unit}
    (hcall : s.setBestChain reorganise env p = .ok (s', r)) : Flagged s' := by
  obtain ⟨pfork, hfork, hcall⟩ := setBestChain_ok.mp hcall
  cases r with
  | ok u =>
    obtain ⟨view, vResurrect, s1, view', vDelete, s2, -, hconn, hpush, hmemory⟩ :=
      setBestChainFrom_ok hcall
    obtain ⟨s3, s4, hres, hdel, rfl⟩ := updateMemory_ok hmemory
    have hpool := (foldlM_poolOnly (fun _ _ _ => acceptToMemoryPool_poolOnly) hres).trans
      (foldlM_poolOnly (fun _ _ _ => deleteTransaction_poolOnly) hdel)
    have hframe := hpool.frame
    have hpushed := pushCoins_ok hpush
    refine (h.connectBlocks hconn).congr ?_ ?_ ?_
    · rw [setTip, hframe, hpushed]
    · rw [setTip, hframe, hpushed]
    · rw [setTip, hframe, hpushed]
  | error e =>
    rcases setBestChainFrom_error hcall with ⟨-, rfl⟩ | ⟨view, vResurrect, -, hcases⟩
    · exact h.congr rfl rfl rfl
    · rcases hcases with ⟨s1, pindex, s2, hconn, hfailed, rfl⟩ |
        ⟨s1, view', vDelete, s2, hconn, hpush, rfl⟩
      · have hrec := connectBlocks_recorded hconn
        have h1 := h.connectBlocks hconn
        have hmap : s1.mapBlockIndex = s.mapBlockIndex := by rw [hrec.frame]
        have hpindex := connectBlocks_error_mem hconn
        have hchain := ((hs.mem_vConnect hrun hp hfork).mp hpindex).1
        unfold connectFailed at hfailed
        split at hfailed
        · obtain ⟨s3, h3, hfailed⟩ := bind_ok.mp hfailed
          have hmap3 : s3.mapBlockIndex = s.mapBlockIndex := by rw [invalidChainFound_ok h3, hmap]
          have hnext : s3.pnext pindex = none := by
            rw [invalidChainFound_ok h3, hrec.frame]
            exact hs.pnext_of_vConnect hrun hp hfork hpindex
          refine Flagged.congr ((h1.invalidChainFound h3).invalidBlockFound ?_ ?_ hnext hfailed)
            rfl rfl rfl
          · rw [hmap3]
            exact hs.tree
          · rw [hmap3]
            exact hs.tree.mem_of_mem_chain hp hchain
        · obtain rfl := Except.ok.inj hfailed
          exact h1.congr rfl rfl rfl
      · obtain ⟨rfl, -, -⟩ := pushCoins_error hpush
        exact (h.connectBlocks hconn).congr rfl rfl rfl

theorem Flagged.connectBestBlock {env : ConnectBestEnv} {fuel : Nat} {r : Check Unit}
    (h : Flagged s) (hs : MainChain s) (hcall : connectBestBlock env fuel s = .ok (s', r)) :
    Flagged s' := by
  induction fuel generalizing s with
  | zero => cases hcall
  | succ fuel ih =>
    rcases connectBestBlock_cases hcall with ⟨-, rfl, -⟩ | ⟨top, htop, hcases⟩
    · exact h
    · have htopmem := hs.candidates top (rbegin_mem htop)
      rcases hcases with ⟨-, rfl, -⟩ | ⟨t, s1, -, h1, hcall⟩ | ⟨vAttach, hcheck, hcall⟩
      · exact h
      · have hmarked := markFailed_unmoved.trans (invalidChainFound_unmoved h1)
        exact ih ((h.markFailed hs.tree htopmem).invalidChainFound h1) (hs.of_unmoved hmarked) hcall
      · have hknown := hs.attach_known htop hcheck
        have hstep : ∀ s1 s2 r1, ∀ p ∈ vAttach,
            (MainChain s1 ∧ s1.mapBlockIndex = s.mapBlockIndex ∧ Flagged s1) →
            s1.fRequestShutdown = false →
            s1.setBestChain (fun s => (NodeState.connectBestBlock env fuel s).map Prod.fst)
              (env.switch p) p = .ok (s2, r1) →
            MainChain s2 ∧ s2.mapBlockIndex = s.mapBlockIndex ∧ Flagged s2 := by
          rintro s1 s2 r1 p hp ⟨hs1, hmap1, hflagged1⟩ hrun h1
          have hmem := hmap1 ▸ hknown p hp
          obtain ⟨hs2, hmap⟩ := setBestChain_mainChain hs1 hrun hmem h1
          exact ⟨hs2, hmap.trans hmap1, hflagged1.setBestChain hs1 hrun hmem h1⟩
        exact attachBlocks_invariant
          (P := fun s' => MainChain s' ∧ s'.mapBlockIndex = s.mapBlockIndex ∧ Flagged s')
          (fun _ hs1 => hs1.2.2.congr rfl rfl rfl) (fun _ hs1 => hs1.2.2)
          (fun s1 s2 u p hp hs1 hrun h1 => hstep s1 s2 (.ok u) p hp hs1 hrun h1)
          (fun s1 s2 e p hp hs1 hrun h1 => (hstep s1 s2 (.error e) p hp hs1 hrun h1).2.2)
          ⟨hs, rfl, h⟩ hcall

omit [ScriptEngine] [BlockFiles] in
/-- A new entry is a candidate. -/
theorem Flagged.insertIndex (h : Flagged s) (hs : MainChain s)
    (hhash : ∀ q ∈ s.mapBlockIndex, q.getBlockHash ≠ p.getBlockHash) (haccepted : p.Accepted) :
    Flagged (s.insertIndex p) := by
  have hnew : ∀ q ∈ s.mapBlockIndex, q ≠ p := fun q hq heq => hhash q hq (by rw [heq])
  have hvalid : (s.insertIndex p).setBlockIndexValid = p :: s.setBlockIndexValid := by
    unfold NodeState.insertIndex insertValid
    rw [if_neg]
    simp only [List.any_eq_true, not_exists, not_and]
    exact fun q hq hequiv => hhash q (hs.candidates q hq) (workEquiv_iff.mp hequiv).2.symm
  have hmap : (s.insertIndex p).mapBlockIndex = p :: s.mapBlockIndex := by
    rw [NodeState.insertIndex, insertValid_eq]
  have hdata : (s.insertIndex p).data = Function.update s.data p .unconnected := by
    rw [NodeState.insertIndex, insertValid_eq]
  refine ⟨fun q hq => ?_, fun q hq => ?_, fun q hq => ?_⟩
  · rw [hmap] at hq
    rw [hvalid]
    rcases List.mem_cons.mp hq with rfl | hq
    · simp [failed, hdata, BlockStatus.failed, BlockData.unconnected]
    · rw [failed_insertIndex (hnew q hq), List.mem_cons, or_iff_right (hnew q hq)]
      exact h.candidates q hq
  · rw [hmap] at hq
    rw [hdata]
    rcases List.mem_cons.mp hq with rfl | hq
    · rw [Function.update_self]
      exact ⟨le_refl _, show BLOCK_VALID_TRANSACTIONS ≤ BLOCK_VALID_SCRIPTS by decide⟩
    · rw [Function.update_of_ne (hnew q hq)]
      exact h.level q hq
  · rw [hmap] at hq
    rcases List.mem_cons.mp hq with rfl | hq
    · exact haccepted
    · exact h.accepted q hq

omit [ScriptEngine] [NodeConfig] [BlockFiles] in
theorem accepted_newIndex {header : CBlockHeader} (hhash : header.getHash ≠ 0)
    (hwork : (checkProofOfWork header.getHash header.nBits).isOk = true)
    (hroot : s.findIndex header.hashPrevBlock = none → header.hashPrevBlock = 0) :
    (s.newIndex header).Accepted := by
  unfold newIndex
  cases hfind : s.findIndex header.hashPrevBlock with
  | none => exact ⟨hhash, hroot hfind, hwork⟩
  | some q => exact ⟨hhash, (findIndex_some hfind).2.symm, hwork⟩

section

omit [ScriptEngine] [BlockFiles]

omit [NodeConfig] in
/-- Entries with different hashes do not keep each other out of the set. -/
theorem mem_foldl_insertValid_iff {l : List CBlockIndex}
    (hl : ∀ p ∈ l, ∀ q ∈ l ++ s.setBlockIndexValid, p.getBlockHash = q.getBlockHash → p = q) :
    q ∈ (l.foldl insertValid s).setBlockIndexValid ↔ q ∈ l ∨ q ∈ s.setBlockIndexValid := by
  induction l generalizing s with
  | nil => simp
  | cons p l ih =>
    have hmem : ∀ r, r ∈ (s.insertValid p).setBlockIndexValid ↔
        r = p ∨ r ∈ s.setBlockIndexValid := by
      intro r
      refine ⟨mem_insertValid, ?_⟩
      unfold insertValid
      split
      · rename_i hany
        rintro (rfl | hr)
        · obtain ⟨q, hq, hequiv⟩ := List.any_eq_true.mp hany
          rw [hl r List.mem_cons_self q (List.mem_append_right _ hq) (workEquiv_iff.mp hequiv).2]
          exact hq
        · exact hr
      · exact List.mem_cons.mpr
    rw [List.foldl_cons, ih, hmem, List.mem_cons]
    · tauto
    · intro r hr q hq
      refine hl r (List.mem_cons_of_mem _ hr) q ?_
      rw [List.mem_append, hmem] at hq
      rw [List.mem_append, List.mem_cons]
      tauto

omit [Hashing] [NodeConfig] in
theorem isCandidate_iff {data : BlockData} (h : data.HasLevel) :
    isCandidate data = true ↔ data.nStatus.failed = false := by
  rw [isCandidate, Bool.and_eq_true, decide_eq_true_eq, Bool.not_eq_true']
  exact and_iff_right h.1

theorem loadBlockIndexDB_flagged {db : BlockTreeDB} {coinsDB : CoinsView}
    (htree : BlockTree db.entries) (hlevel : ∀ p ∈ db.entries, (db.data p).HasLevel)
    (haccepted : ∀ p ∈ db.entries, p.Accepted) : Flagged (loadBlockIndexDB db coinsDB) := by
  have hload : ∀ s : NodeState, s.mapBlockIndex = db.entries → s.data = db.data →
      s.setBlockIndexValid = [] →
      Flagged ((db.entries.filter fun p => isCandidate (db.data p)).foldl insertValid s) := by
    intro s hmap hdata hnil
    refine ⟨fun p hp => ?_, fun p hp => ?_, fun p hp => ?_⟩
    · rw [foldl_insertValid_eq] at hp
      have hp : p ∈ db.entries := hmap ▸ hp
      rw [mem_foldl_insertValid_iff, hnil, foldl_insertValid_eq, List.mem_filter,
        isCandidate_iff (hlevel p hp)]
      · simp [failed, hdata, hp]
      · intro q hq r hr
        rw [hnil, List.append_nil] at hr
        exact htree.eq_of_hash (List.mem_of_mem_filter hq) (List.mem_of_mem_filter hr)
    · rw [foldl_insertValid_eq] at hp ⊢
      rw [show (_ : NodeState).data = s.data from rfl, hdata]
      exact hlevel p (hmap ▸ hp)
    · rw [foldl_insertValid_eq] at hp
      exact haccepted p (hmap ▸ hp)
  unfold loadBlockIndexDB
  dsimp only
  cases coinsDB.getBestBlock with
  | none => exact hload _ rfl rfl rfl
  | some best => exact (hload _ rfl rfl rfl).congr rfl rfl rfl

end

/-- What the callers make sure of: the database holds entries that a node has written, a block that is
added has passed `CheckBlock`, and the genesis block has no predecessor. -/
def FromNode : NodeOp → Prop
  | .loadBlockIndexDB db _ => ∀ p ∈ db.entries, (db.data p).HasLevel ∧ p.Accepted
  | .addToBlockIndex _ _ header => header.getHash ≠ 0 ∧
    (checkProofOfWork header.getHash header.nBits).isOk = true ∧
    (header.getHash = hashGenesisBlock → header.hashPrevBlock = 0)
  | _ => True

theorem Flagged.step {o : NodeOp} (h : Flagged s) (hs : MainChain s) (ho : FromNode o)
    (hstep : s.step o = some s') : Flagged s' := by
  cases stepped_of_step hstep with
  | loadBlockIndexDB tree best =>
    exact loadBlockIndexDB_flagged tree (fun p hp => (ho p hp).1) fun p hp => (ho p hp).2
  | @addToBlockIndex _ _ header _ _ prev call =>
    have hroot : s.findIndex header.hashPrevBlock = none → header.hashPrevBlock = 0 := by
      intro hnone
      rw [hnone] at prev
      exact ho.2.2 (prev.resolve_left (by simp))
    have hinsert : s.findIndex header.getHash = none →
        Flagged (s.insertIndex (s.newIndex header)) := by
      intro hnew
      refine h.insertIndex hs ?_ (accepted_newIndex ho.1 ho.2.1 hroot)
      rw [newIndex_hash]
      exact findIndex_none hnew
    rcases addToBlockIndex_cases call with ⟨e, rfl⟩ | ⟨hnew, ⟨e, rfl⟩ | ⟨s1, r1, h1, hres⟩⟩
    · exact h.congr rfl rfl rfl
    · exact (hinsert hnew).congr rfl rfl rfl
    · have hs1 := (hinsert hnew).connectBestBlock (hs.insertIndex_newIndex prev hnew) h1
      rcases hres with rfl | ⟨e, rfl⟩
      · exact hs1
      · exact hs1.congr rfl rfl rfl
  | invalidBlockFound mem call =>
    obtain ⟨s1, h1, hres⟩ := invalidBlockFound_cases call
    have hmarked := unmoved_setFailedValid.trans (invalidChainFound_unmoved h1)
    have hs1 := (h.setFailedValid hs.tree mem).invalidChainFound h1
    rcases hres with rfl | ⟨r, hbest⟩
    · exact hs1
    · exact hs1.connectBestBlock (hs.of_unmoved hmarked) hbest
  | connectBestBlock call => exact h.connectBestBlock hs call
  | setBestChain mem running call => exact h.setBestChain hs running mem call
  | findBlockByHeight call =>
    rw [findBlockByHeight_frame call]
    exact h.congr rfl rfl rfl
  | acceptToMemoryPool call =>
    rw [(acceptToMemoryPool_poolOnly call).frame]
    exact h.congr rfl rfl rfl

theorem flagged_of_run {ops : List NodeOp} (hops : ∀ o ∈ ops, FromNode o)
    (h : Run.run step init ops = some s) : Flagged s := by
  refine (Run.run_invariant (P := fun s => MainChain s ∧ Flagged s)
    (fun s o ho s' hs h1 => ⟨step_mainChain hs.1 h1, hs.2.step hs.1 (hops o ho) h1⟩)
    ⟨mainChain_init, ?_, ?_, ?_⟩ h).2 <;> rintro p ⟨⟩

end NodeState

end Terracoin
