import Terracoin.Chain.ActiveChain

/-!
# `SetBestChain` when it fails

A call that fails before the view has been pushed leaves the coins, the links, the best block and the
memory pool as they were. The push comes before the check of the disk space and before the flush to
the database, so a failure of one of these leaves the coins at the new block and everything else at
the old one (`setBestChain_unchanged_iff`).
-/

namespace Terracoin

open CBlockIndex

namespace NodeState

/-- What a failed call must not touch. -/
structure Unchanged (s s' : NodeState) : Prop where
  coinsTip : s'.coinsTip = s.coinsTip
  pindexBest : s'.pindexBest = s.pindexBest
  hashBestChain : s'.hashBestChain = s.hashBestChain
  nBestHeight : s'.nBestHeight = s.nBestHeight
  pnext : s'.pnext = s.pnext
  mempool : s'.mempool = s.mempool

theorem Unmoved.unchanged {s s' : NodeState} (h : Unmoved s s') (hcoins : s'.coinsTip = s.coinsTip) :
    Unchanged s s' := by
  refine ⟨hcoins, ?_, ?_, ?_, ?_, ?_⟩ <;> rw [h.frame]

variable [Hashing] [ScriptEngine] [NodeConfig] [BlockFiles]

/-- All blocks between the old and the new tip can be read, disconnected and connected. -/
def Reorganises (env : SetBestChainEnv) (s : NodeState) (pindexNew : CBlockIndex) : Prop :=
  ∃ pfork view vResurrect s1 view' vDelete, s.fork pindexNew = .ok pfork ∧
    disconnectBlocks env s.data s.coinsTip (s.vDisconnect pfork) = .ok (view, vResurrect) ∧
    connectBlocks env s view (vConnect pfork pindexNew) = (s1, .ok (view', vDelete))

/-- A flush to the coin database is due, and there is no space for it or it fails. -/
def flushFails (env : SetBestChainEnv) (s : NodeState) : Bool :=
  s.flushes env && !(env.fDiskSpace && env.fFlushCoins)

variable {reorganise : NodeState → Except Halt NodeState} {env : SetBestChainEnv}
variable {s s' : NodeState} {pindexNew : CBlockIndex} {e : Failure}

omit [Hashing] [ScriptEngine] [BlockFiles] in
theorem flushes_of_recorded (h : Recorded s s') : s'.flushes env = s.flushes env := by
  unfold flushes isInitialBlockDownload
  rw [h.frame]

omit [ScriptEngine] [NodeConfig] [BlockFiles] in
theorem invalidBlockFound_coinsTip {pindex : CBlockIndex} (hnext : s.pnext pindex = none)
    (h : invalidBlockFound reorganise s pindex = .ok s') : s'.coinsTip = s.coinsTip := by
  obtain ⟨s1, h1, h⟩ := Checked.bind_ok.mp h
  have hs1 := invalidChainFound_ok h1
  have hnext1 : s1.pnext pindex = none := by
    rw [hs1]
    exact hnext
  rw [if_neg (by simp [hnext1])] at h
  obtain rfl := Except.ok.inj h
  rw [hs1]
  rfl

/-- In a failed call either the blocks could not be reorganised, and the coins are unchanged, or the
flush failed, and they have moved to the new block. -/
theorem setBestChain_coinsTip (hs : MainChain s) (hrun : s.fRequestShutdown = false)
    (hmem : pindexNew ∈ s.mapBlockIndex)
    (h : s.setBestChain reorganise env pindexNew = .ok (s', .error e)) :
    (¬Reorganises env s pindexNew ∧ s'.coinsTip = s.coinsTip) ∨
      (Reorganises env s pindexNew ∧ flushFails env s = true ∧
        s'.coinsTip.getBestBlock = some pindexNew) := by
  obtain ⟨pfork, hfork, h⟩ := setBestChain_ok.mp h
  have hfork_eq : ∀ {pfork'}, s.fork pindexNew = .ok pfork' → pfork' = pfork :=
    fun hf => Except.ok.inj (hf.symm.trans hfork)
  rcases setBestChainFrom_error h with ⟨hdisc, rfl⟩ | ⟨view, vResurrect, hdisc, hcases⟩
  · refine .inl ⟨?_, rfl⟩
    rintro ⟨_, view, vResurrect, _, _, _, hf, hdisc', -⟩
    rw [hfork_eq hf, hdisc] at hdisc'
    cases hdisc'
  · rcases hcases with ⟨s1, pindex, s2, hconn, hfailed, rfl⟩ | ⟨s1, view', vDelete, s2, hconn, hpush, rfl⟩
    · have hrec := connectBlocks_recorded hconn
      refine .inl ⟨?_, ?_⟩
      · rintro ⟨_, view2, vResurrect2, _, _, _, hf, hdisc', hconn'⟩
        rw [hfork_eq hf, hdisc] at hdisc'
        obtain ⟨rfl, -⟩ := Prod.mk.inj (Except.ok.inj hdisc')
        rw [hfork_eq hf, hconn] at hconn'
        cases (Prod.mk.inj hconn').2
      · show s2.coinsTip = s.coinsTip
        have hs1 : s1.coinsTip = s.coinsTip := by rw [hrec.frame]
        unfold connectFailed at hfailed
        split at hfailed
        · obtain ⟨s3, h3, hfailed⟩ := Checked.bind_ok.mp hfailed
          have hs3 := invalidChainFound_ok h3
          have hnext : s3.pnext pindex = none := by
            rw [hs3, hrec.frame]
            exact hs.pnext_of_vConnect hrun hmem hfork (connectBlocks_error_mem hconn)
          rw [invalidBlockFound_coinsTip hnext hfailed, hs3]
          exact hs1
        · exact Except.ok.inj hfailed ▸ hs1
    · obtain ⟨rfl, -, hflush, hdisk⟩ := pushCoins_error hpush
      rw [flushes_of_recorded (connectBlocks_recorded hconn)] at hflush
      refine .inr ⟨⟨pfork, view, vResurrect, s1, view', vDelete, hfork, hdisc, hconn⟩, ?_,
        reorganised_tip hfork hdisc hconn⟩
      rw [flushFails, hflush, hdisk]
      rfl

omit [Hashing] [ScriptEngine] [BlockFiles] in
theorem pushCoins_of_flushFails (view : CoinsView) (h : flushFails env s = true) :
    ∃ message, s.pushCoins env view = ({ s with coinsTip := view }, .error (.abort message)) := by
  obtain ⟨hflush, hdisk⟩ : s.flushes env = true ∧ (env.fDiskSpace && env.fFlushCoins) = false := by
    simpa only [flushFails, Bool.and_eq_true, Bool.not_eq_true'] using h
  unfold pushCoins
  dsimp only
  rw [show flushes env { s with coinsTip := view } = true from hflush, if_pos rfl]
  cases hspace : env.fDiskSpace with
  | false => exact ⟨_, rfl⟩
  | true =>
    rw [hspace, Bool.true_and] at hdisk
    rw [hdisk]
    exact ⟨_, rfl⟩

theorem setBestChain_of_flushFails (hflush : flushFails env s = true)
    (hblocks : Reorganises env s pindexNew) :
    ∃ s' e, s.setBestChain reorganise env pindexNew = .ok (s', .error e) := by
  obtain ⟨pfork, view, vResurrect, s1, view', vDelete, hfork, hdisc, hconn⟩ := hblocks
  have hflush1 : flushFails env s1 = true := by
    rwa [flushFails, flushes_of_recorded (connectBlocks_recorded hconn)]
  obtain ⟨message, hpush⟩ := pushCoins_of_flushFails view' hflush1
  refine ⟨{ s1 with coinsTip := view' }.abortOn (.abort message), .abort message,
    setBestChain_ok.mpr ⟨pfork, hfork, ?_⟩⟩
  unfold setBestChainFrom
  rw [hdisc]
  dsimp only
  rw [hconn]
  dsimp only
  rw [hpush]
  rfl

/-- Moving to the best block that is there already does not change the coins. -/
theorem setBestChain_same (htip : s.coinsTip.getBestBlock = some pindexNew)
    (h : s.setBestChain reorganise env pindexNew = .ok (s', .error e)) :
    s'.coinsTip = s.coinsTip := by
  obtain ⟨pfork, hfork, h⟩ := setBestChain_ok.mp h
  have hself : findFork pindexNew pindexNew = some pindexNew := by
    rw [findFork, if_pos rfl]
  have hfork' : s.fork pindexNew = .ok (some pindexNew) :=
    fork_ok.mpr (.inr ⟨pindexNew, pindexNew, htip, hself, rfl⟩)
  obtain rfl := Except.ok.inj (hfork'.symm.trans hfork)
  have hdown : s.vDisconnect (some pindexNew) = [] := by
    rw [vDisconnect, htip]
    exact pathTo_eq_nil
  have hup : vConnect (some pindexNew) pindexNew = [] := by
    rw [vConnect, pathTo_eq_nil]
    rfl
  rcases setBestChainFrom_error h with ⟨-, rfl⟩ | ⟨view, vResurrect, hdisc, hcases⟩
  · rfl
  · rw [hdown] at hdisc
    obtain ⟨rfl, -⟩ := Prod.mk.inj (Except.ok.inj hdisc)
    rw [hup] at hcases
    rcases hcases with ⟨s1, pindex, s2, hconn, -⟩ | ⟨s1, view', vDelete, s2, hconn, hpush, rfl⟩
    · cases (Prod.mk.inj hconn).2
    · obtain ⟨rfl, hview⟩ := Prod.mk.inj hconn
      obtain ⟨rfl, -⟩ := Prod.mk.inj (Except.ok.inj hview)
      obtain ⟨rfl, -⟩ := pushCoins_error hpush
      rfl

/-- A failed call leaves everything as it was if and only if `pindexNew` is the best block already, or
the flush to the database is not due or succeeds, or a block cannot be reorganised. -/
theorem setBestChain_unchanged_iff {ops : List NodeOp} (h : Run.run step init ops = some s)
    (hrun : s.fRequestShutdown = false) (hmem : pindexNew ∈ s.mapBlockIndex) :
    (∀ s' e, s.setBestChain reorganise env pindexNew = .ok (s', .error e) → Unchanged s s') ↔
      (s.pindexBest = some pindexNew ∨ flushFails env s = false ∨ ¬Reorganises env s pindexNew) := by
  have hs := mainChain_of_run h
  constructor
  · intro hall
    by_contra hnot
    obtain ⟨hnew, hflush, hblocks⟩ : s.pindexBest ≠ some pindexNew ∧ flushFails env s = true ∧
        Reorganises env s pindexNew := by
      simpa only [not_or, Bool.not_eq_false, not_not] using hnot
    obtain ⟨s', e, hcall⟩ := setBestChain_of_flushFails hflush hblocks
    rcases setBestChain_coinsTip hs hrun hmem hcall with ⟨hno, -⟩ | ⟨-, -, htip⟩
    · exact hno hblocks
    · rw [(hall s' e hcall).coinsTip, hs.coins hrun] at htip
      exact hnew htip
  · intro hcond s' e hcall
    have hunmoved := (setBestChain_unmoved hs hrun hmem hcall).1
    rcases hcond with hnew | hflush | hblocks
    · exact hunmoved.unchanged (setBestChain_same ((hs.coins hrun).trans hnew) hcall)
    · rcases setBestChain_coinsTip hs hrun hmem hcall with ⟨-, hcoins⟩ | ⟨-, hfails, -⟩
      · exact hunmoved.unchanged hcoins
      · rw [hfails] at hflush
        cases hflush
    · rcases setBestChain_coinsTip hs hrun hmem hcall with ⟨-, hcoins⟩ | ⟨hyes, -⟩
      · exact hunmoved.unchanged hcoins
      · exact absurd hyes hblocks

end NodeState

namespace Sample

/-- The disk is full when the node flushes its coins. -/
def fullDiskEnv : SetBestChainEnv := { switchEnv with fDiskSpace := false }

/-- The state of the fork before the node switches to the other branch. -/
def forkState : NodeState := NodeState.loadBlockIndexDB forkDB forkCoins

def forkLoad : List NodeOp := [.loadBlockIndexDB forkDB forkCoins]

theorem setBestChain_unchanged_iff_sample :
    Run.run NodeState.step .init forkLoad = some forkState ∧
      ∀ s' e, forkState.setBestChain .ok switchEnv (next 2) = .ok (s', .error e) →
        NodeState.Unchanged forkState s' := by
  have hload : Run.run NodeState.step .init forkLoad = some forkState := by
    rw [forkLoad, Run.run, NodeState.step, if_pos (by decide +kernel)]
    rfl
  exact ⟨hload, (NodeState.setBestChain_unchanged_iff hload (by rfl) (by decide +kernel)).mpr
    (.inr (.inl (by decide +kernel)))⟩

/-- With a full disk a failed reorganisation leaves the coins at the new block, and `pindexBest` at
the old one. -/
theorem not_setBestChain_unchanged :
    Run.run NodeState.step .init forkLoad = some forkState ∧
      ∃ s' e, forkState.setBestChain .ok fullDiskEnv (next 2) = .ok (s', .error e) ∧
        forkState.coinsTip.getBestBlock = some (next 1) ∧
        s'.coinsTip.getBestBlock = some (next 2) ∧ s'.pindexBest = some (next 1) := by
  refine ⟨?_, ?_⟩
  · rw [forkLoad, Run.run, NodeState.step, if_pos (by decide +kernel)]
    rfl
  · have hcall : ((returned false (forkState.setBestChain .ok fullDiskEnv (next 2))).any fun s' =>
        s'.coinsTip.getBestBlock == some (next 2) && s'.pindexBest == some (next 1)) = true := by
      decide +kernel
    obtain ⟨s', hreturned, htips⟩ := (Option.any_eq_true _ _).mp hcall
    rw [Bool.and_eq_true, beq_iff_eq, beq_iff_eq] at htips
    obtain ⟨e, heq⟩ := returned_false hreturned
    exact ⟨s', e, heq, rfl, htips.1, htips.2⟩

end Sample

end Terracoin
