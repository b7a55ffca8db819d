import Terracoin.Chain.ConnectBest
import Mathlib.Data.List.Nodup

/-!
# The active chain

`MainChain` is the invariant behind the links `pnext`, the coins and the cached pointer of
`FindBlockByHeight`: they all belong to the chain of `pindexBest`. Every operation of the node keeps
it. In such a state the fork search of `SetBestChain` finds the last common ancestor of the old and
the new tip, `IsInMainChain` holds of the chain of `pindexBest`, and `FindBlockByHeight` walks that
chain.
-/

namespace Terracoin

open CBlockIndex

/-! ## The tree of blocks -/

namespace BlockTree

variable [Hashing] [NodeConfig] {entries : List CBlockIndex} {p q : CBlockIndex}

theorem mem_of_pprev (h : BlockTree entries) (hp : p ∈ entries) (hq : p.pprev = some q) :
    q ∈ entries :=
  h.closed p hp q hq

theorem mem_of_mem_chain (h : BlockTree entries) (hp : p ∈ entries) (hq : q ∈ p.chain) :
    q ∈ entries := by
  induction p with
  | root header =>
    obtain rfl : q = root header := by simpa [chain] using hq
    exact hp
  | child p header ih =>
    rcases mem_chain_child.mp hq with rfl | hq
    · exact hp
    · exact ih (h.mem_of_pprev hp rfl) hq

theorem eq_of_hash (h : BlockTree entries) (hp : p ∈ entries) (hq : q ∈ entries)
    (hhash : p.getBlockHash = q.getBlockHash) : p = q :=
  List.inj_on_of_nodup_map h.hash_nodup hp hq hhash

theorem base_hash (h : BlockTree entries) (hp : p ∈ entries) :
    p.base.getBlockHash = hashGenesisBlock :=
  h.genesis _ (h.mem_of_mem_chain hp base_mem_chain) base_pprev

theorem base_eq (h : BlockTree entries) (hp : p ∈ entries) (hq : q ∈ entries) : p.base = q.base :=
  h.eq_of_hash (h.mem_of_mem_chain hp base_mem_chain) (h.mem_of_mem_chain hq base_mem_chain)
    ((h.base_hash hp).trans (h.base_hash hq).symm)

theorem eq_base_of_hash (h : BlockTree entries) (hp : p ∈ entries) (hq : q ∈ entries)
    (hhash : q.getBlockHash = hashGenesisBlock) : q = p.base :=
  h.eq_of_hash hq (h.mem_of_mem_chain hp base_mem_chain) (hhash.trans (h.base_hash hp).symm)

theorem cons (h : BlockTree entries)
    (hprev : ∀ q ∈ p.pprev, q ∈ entries) (hhash : ∀ q ∈ entries, q.getBlockHash ≠ p.getBlockHash)
    (hroot : p.pprev = none → p.getBlockHash = hashGenesisBlock) : BlockTree (p :: entries) := by
  refine ⟨?_, ?_, ?_⟩
  · intro q hq r hr
    rcases List.mem_cons.mp hq with rfl | hq
    · exact List.mem_cons_of_mem _ (hprev r hr)
    · exact List.mem_cons_of_mem _ (h.closed q hq r hr)
  · rw [List.map_cons, List.nodup_cons]
    refine ⟨fun hmem => ?_, h.hash_nodup⟩
    obtain ⟨q, hq, heq⟩ := List.mem_map.mp hmem
    exact hhash q hq heq
  · intro q hq
    rcases List.mem_cons.mp hq with rfl | hq
    · exact hroot
    · exact h.genesis q hq

end BlockTree

/-! ## The links -/

namespace NodeState

section Links

variable {pnext : CBlockIndex → Option CBlockIndex} {vs : List CBlockIndex} {p c : CBlockIndex}

theorem clearLink_of_ne (h : c.pprev ≠ some p) : clearLink pnext c p = pnext p := by
  unfold clearLink
  cases hc : c.pprev with
  | none => rfl
  | some q =>
    rw [hc] at h
    exact Function.update_of_ne (fun hpq => h (by rw [hpq])) _ _

theorem clearLink_self (h : c.pprev = some p) : clearLink pnext c p = none := by
  rw [clearLink, h]
  exact Function.update_self _ _ _

theorem setLink_of_ne (h : c.pprev ≠ some p) : setLink pnext c p = pnext p := by
  unfold setLink
  cases hc : c.pprev with
  | none => rfl
  | some q =>
    rw [hc] at h
    exact Function.update_of_ne (fun hpq => h (by rw [hpq])) _ _

theorem setLink_self (h : c.pprev = some p) : setLink pnext c p = some c := by
  rw [setLink, h]
  exact Function.update_self _ _ _

theorem clearNext_of_forall_ne (h : ∀ d ∈ vs, d.pprev ≠ some p) :
    clearNext pnext vs p = pnext p := by
  induction vs generalizing pnext with
  | nil => rfl
  | cons d vs ih =>
    exact (ih fun e he => h e (List.mem_cons_of_mem _ he)).trans
      (clearLink_of_ne (h d List.mem_cons_self))

theorem clearNext_of_none (h : pnext p = none) : clearNext pnext vs p = none := by
  induction vs generalizing pnext with
  | nil => exact h
  | cons d vs ih =>
    refine ih ?_
    by_cases hd : d.pprev = some p
    · exact clearLink_self hd
    · exact (clearLink_of_ne hd).trans h

theorem clearNext_of_mem (hc : c ∈ vs) (hp : c.pprev = some p) : clearNext pnext vs p = none := by
  induction vs generalizing pnext with
  | nil => cases hc
  | cons d vs ih =>
    rcases List.mem_cons.mp hc with rfl | hc
    · show clearNext (clearLink pnext c) vs p = none
      exact clearNext_of_none (clearLink_self hp)
    · exact ih hc

theorem setNext_of_forall_ne (h : ∀ d ∈ vs, d.pprev ≠ some p) : setNext pnext vs p = pnext p := by
  induction vs generalizing pnext with
  | nil => rfl
  | cons d vs ih =>
    exact (ih fun e he => h e (List.mem_cons_of_mem _ he)).trans
      (setLink_of_ne (h d List.mem_cons_self))

theorem setNext_of_mem (hc : c ∈ vs) (hp : c.pprev = some p)
    (huniq : ∀ d ∈ vs, d.pprev = some p → d = c) : setNext pnext vs p = some c := by
  induction vs generalizing pnext with
  | nil => cases hc
  | cons d vs ih =>
    by_cases hmem : c ∈ vs
    · exact ih hmem fun e he => huniq e (List.mem_cons_of_mem _ he)
    · obtain rfl : c = d := (List.mem_cons.mp hc).resolve_right hmem
      show setNext (setLink pnext c) vs p = some c
      refine (setNext_of_forall_ne fun e he hep => ?_).trans (setLink_self hp)
      exact hmem (huniq e (List.mem_cons_of_mem _ he) hep ▸ he)

theorem getLast?_vConnect {pindexNew : CBlockIndex} {pfork : Option CBlockIndex} (h : pfork ≠ some pindexNew) :
    (vConnect pfork pindexNew).getLast? = some pindexNew := by
  rw [vConnect, List.getLast?_reverse, pathTo_eq_cons h]
  rfl

/-- Links along one chain become links along another when those above the common part are cleared
and set. -/
theorem setNext_clearNext {old vDisconnect vConnect : List CBlockIndex} {pindexNew q : CBlockIndex}
    (hold : ∀ p q, pnext p = some q ↔ q ∈ old ∧ q.pprev = some p)
    (huniq : ∀ b ∈ old, ∀ c ∈ old, ∀ p, b.pprev = some p → c.pprev = some p → b = c)
    (hd : ∀ q, q ∈ vDisconnect ↔ q ∈ old ∧ q ∉ pindexNew.chain)
    (hc : ∀ q, q ∈ vConnect ↔ q ∈ pindexNew.chain ∧ q ∉ old) :
    setNext (clearNext pnext vDisconnect) vConnect p = some q ↔
      q ∈ pindexNew.chain ∧ q.pprev = some p := by
  by_cases hnext : ∃ c ∈ vConnect, c.pprev = some p
  · obtain ⟨c, hcmem, hcp⟩ := hnext
    have hcnew := ((hc c).mp hcmem).1
    rw [setNext_of_mem hcmem hcp fun d hdmem hdp => next_unique ((hc d).mp hdmem).1 hcnew hdp hcp]
    constructor
    · rintro ⟨⟩
      exact ⟨hcnew, hcp⟩
    · rintro ⟨hq, hqp⟩
      rw [next_unique hq hcnew hqp hcp]
  · have hold_of_new : ∀ q, q ∈ pindexNew.chain → q.pprev = some p → q ∈ old := fun q hq hqp => by
      by_contra hne
      exact hnext ⟨q, (hc q).mpr ⟨hq, hne⟩, hqp⟩
    rw [setNext_of_forall_ne fun d hdmem hdp => hnext ⟨d, hdmem, hdp⟩]
    by_cases hprev : ∃ d ∈ vDisconnect, d.pprev = some p
    · obtain ⟨d, hdmem, hdp⟩ := hprev
      rw [clearNext_of_mem hdmem hdp]
      constructor
      · rintro ⟨⟩
      · rintro ⟨hq, hqp⟩
        obtain ⟨hdold, hdnew⟩ := (hd d).mp hdmem
        exact absurd (huniq q (hold_of_new q hq hqp) d hdold p hqp hdp ▸ hq) hdnew
    · rw [clearNext_of_forall_ne fun d hdmem hdp => hprev ⟨d, hdmem, hdp⟩, hold]
      constructor
      · rintro ⟨hq, hqp⟩
        refine ⟨?_, hqp⟩
        by_contra hne
        exact hprev ⟨q, (hd q).mpr ⟨hq, hne⟩, hqp⟩
      · rintro ⟨hq, hqp⟩
        exact ⟨hold_of_new q hq hqp, hqp⟩

end Links

/-! ## Calls that leave the active chain where it is -/

/-- The active chain has not moved. The coins have not changed either, unless a shutdown has been
requested, and no entry that stays in `setBlockIndexValid` has got a flag. -/
structure Unmoved (s s' : NodeState) : Prop where
  frame : s' = { s with
    data := s'.data, setBlockIndexValid := s'.setBlockIndexValid,
    pindexGenesisBlock := s'.pindexGenesisBlock, bnBestInvalidWork := s'.bnBestInvalidWork,
    coinsTip := s'.coinsTip, fRequestShutdown := s'.fRequestShutdown }
  genesis : s.pindexBest.isSome = true → s'.pindexGenesisBlock = s.pindexGenesisBlock
  candidates : ∀ p ∈ s'.setBlockIndexValid, p ∈ s.setBlockIndexValid ∧ s'.failed p = s.failed p
  coins : s'.fRequestShutdown = false → s.fRequestShutdown = false ∧ s'.coinsTip = s.coinsTip

/-- No block of the active chain has a flag. -/
def ActiveValid (s : NodeState) : Prop := ∀ p ∈ chainOf s.pindexBest, s.failed p = false

namespace Unmoved

variable {s s' s1 s2 s3 : NodeState}

theorem refl (s : NodeState) : Unmoved s s := ⟨rfl, fun _ => rfl, fun _ hp => ⟨hp, rfl⟩, fun h => ⟨h, rfl⟩⟩

theorem pindexBest (h : Unmoved s s') : s'.pindexBest = s.pindexBest := by
  rw [h.frame]

theorem trans (h : Unmoved s1 s2) (h' : Unmoved s2 s3) : Unmoved s1 s3 := by
  refine ⟨?_, fun hb => ?_, fun p hp => ?_, fun hs => ?_⟩
  · rw [h'.frame, h.frame]
  · exact (h'.genesis (h.pindexBest ▸ hb)).trans (h.genesis hb)
  · obtain ⟨hp2, hf2⟩ := h'.candidates p hp
    obtain ⟨hp1, hf1⟩ := h.candidates p hp2
    exact ⟨hp1, hf2.trans hf1⟩
  · obtain ⟨hs2, hc2⟩ := h'.coins hs
    obtain ⟨hs1, hc1⟩ := h.coins hs2
    exact ⟨hs1, hc2.trans hc1⟩

theorem abortOn {e : Failure} : Unmoved s (s.abortOn e) := by
  refine ⟨rfl, fun _ => rfl, fun p hp => ⟨hp, rfl⟩, fun hs => ⟨?_, rfl⟩⟩
  simp only [NodeState.abortOn, Bool.or_eq_false_iff] at hs
  exact hs.1

theorem push {e : Failure} {view : CoinsView} (he : e.isAbort = true) :
    Unmoved s ({ s with coinsTip := view }.abortOn e) := by
  refine ⟨rfl, fun _ => rfl, fun p hp => ⟨hp, rfl⟩, fun hs => ?_⟩
  simp [NodeState.abortOn, he] at hs

theorem of_recorded (h : Recorded s s')
    (hg : s.pindexBest.isSome = true → s'.pindexGenesisBlock = s.pindexGenesisBlock) :
    Unmoved s s' := by
  have hvalid : s'.setBlockIndexValid = s.setBlockIndexValid := by rw [h.frame]
  have hcoins : s'.coinsTip = s.coinsTip := by rw [h.frame]
  have hshutdown : s'.fRequestShutdown = s.fRequestShutdown := by rw [h.frame]
  refine ⟨?_, hg, fun p hp => ⟨hvalid ▸ hp, h.failed p⟩, fun hs => ⟨hshutdown ▸ hs, hcoins⟩⟩
  rw [hvalid, hcoins, hshutdown]
  rw [h.frame]

theorem activeValid (h : Unmoved s s') (hs : ActiveValid s)
    (hf : ∀ p ∈ chainOf s.pindexBest, s'.failed p = s.failed p) : ActiveValid s' := by
  intro p hp
  rw [h.pindexBest] at hp
  rw [hf p hp, hs p hp]

end Unmoved

variable {s s' : NodeState}

theorem failed_setFailedValid {pindex p : CBlockIndex} (h : p ≠ pindex) :
    (s.setFailedValid pindex).failed p = s.failed p := by
  simp [failed, setFailedValid, Function.update_of_ne h]

theorem failed_setFailedChild {pindex p : CBlockIndex} (h : p ≠ pindex) :
    (s.setFailedChild pindex).failed p = s.failed p := by
  simp [failed, setFailedChild, Function.update_of_ne h]

theorem invalidChainFound_ok {pindexNew : CBlockIndex} (h : s.invalidChainFound pindexNew = .ok s') :
    s' = { s with bnBestInvalidWork := s'.bnBestInvalidWork } := by
  unfold invalidChainFound at h
  split at h
  · cases h
  · split at h <;> obtain rfl := Except.ok.inj h <;> rfl

theorem invalidChainFound_unmoved {pindexNew : CBlockIndex}
    (h : s.invalidChainFound pindexNew = .ok s') : Unmoved s s' := by
  rw [invalidChainFound_ok h]
  exact ⟨rfl, fun _ => rfl, fun _ hp => ⟨hp, rfl⟩, fun hs => ⟨hs, rfl⟩⟩

theorem invalidChainFound_failed {pindexNew p : CBlockIndex}
    (h : s.invalidChainFound pindexNew = .ok s') : s'.failed p = s.failed p := by
  rw [invalidChainFound_ok h]
  rfl

section

variable [Hashing]

theorem eraseValid_mem {pindex p : CBlockIndex} (h : p ∈ (s.eraseValid pindex).setBlockIndexValid) :
    p ∈ s.setBlockIndexValid ∧ p ≠ pindex := by
  obtain ⟨hmem, hne⟩ := List.mem_filter.mp h
  refine ⟨hmem, fun heq => ?_⟩
  simp [heq, workEquiv_iff.mpr ⟨rfl, rfl⟩] at hne

theorem unmoved_setFailedValid {pindex : CBlockIndex} :
    Unmoved s ((s.setFailedValid pindex).eraseValid pindex) :=
  ⟨rfl, fun _ => rfl, fun _ hp => ⟨(eraseValid_mem hp).1, failed_setFailedValid (eraseValid_mem hp).2⟩,
    fun h => ⟨h, rfl⟩⟩

theorem unmoved_setFailedChild {pindex : CBlockIndex} :
    Unmoved s ((s.setFailedChild pindex).eraseValid pindex) :=
  ⟨rfl, fun _ => rfl, fun _ hp => ⟨(eraseValid_mem hp).1, failed_setFailedChild (eraseValid_mem hp).2⟩,
    fun h => ⟨h, rfl⟩⟩

theorem invalidBlockFound_spec {reorganise : NodeState → Except Halt NodeState}
    {pindex : CBlockIndex} (hnext : s.pnext pindex = none)
    (h : invalidBlockFound reorganise s pindex = .ok s') :
    Unmoved s s' ∧ ∀ p, p ≠ pindex → s'.failed p = s.failed p := by
  obtain ⟨s1, h1, h⟩ := Checked.bind_ok.mp h
  have hmark : Unmoved s s1 := unmoved_setFailedValid.trans (invalidChainFound_unmoved h1)
  have hnext1 : s1.pnext pindex = none := by
    rw [hmark.frame]
    exact hnext
  rw [if_neg (by simp [hnext1])] at h
  obtain rfl := Except.ok.inj h
  refine ⟨hmark, fun p hp => ?_⟩
  rw [invalidChainFound_failed h1]
  exact failed_setFailedValid hp

end

section

variable [Hashing] [NodeConfig]

/-- The globals agree on the chain of `pindexBest`. After a failed flush the coins may be ahead of
it, but then a shutdown has been requested. -/
structure MainChain (s : NodeState) : Prop where
  tree : BlockTree s.mapBlockIndex
  known : ∀ p ∈ s.pindexBest, p ∈ s.mapBlockIndex
  candidates : ∀ p ∈ s.setBlockIndexValid, p ∈ s.mapBlockIndex
  pnext_iff : ∀ p q, s.pnext p = some q ↔ q ∈ chainOf s.pindexBest ∧ q.pprev = some p
  coins : s.fRequestShutdown = false → s.coinsTip.getBestBlock = s.pindexBest
  last : ∀ p ∈ s.pblockindexFBBHLast, p ∈ chainOf s.pindexBest
  genesis : ∀ p ∈ s.pindexBest, s.pindexGenesisBlock = some p.base
  tip : ∀ p ∈ s.pindexBest, s.hashBestChain = p.getBlockHash ∧ s.nBestHeight = p.nHeight ∧
    s.bnBestChainWork = p.bnChainWork
  noTip : s.pindexBest = none → s.nBestHeight ≤ 0

theorem MainChain.of_unmoved (hs : MainChain s) (h : Unmoved s s') : MainChain s' := by
  have hmap : s'.mapBlockIndex = s.mapBlockIndex := by rw [h.frame]
  have hnext : s'.pnext = s.pnext := by rw [h.frame]
  have hlast : s'.pblockindexFBBHLast = s.pblockindexFBBHLast := by rw [h.frame]
  have htip : s'.hashBestChain = s.hashBestChain ∧ s'.nBestHeight = s.nBestHeight ∧
      s'.bnBestChainWork = s.bnBestChainWork := by rw [h.frame]; exact ⟨rfl, rfl, rfl⟩
  refine ⟨hmap ▸ hs.tree, ?_, ?_, ?_, ?_, ?_, ?_, ?_, ?_⟩
  · rw [h.pindexBest, hmap]
    exact hs.known
  · rw [hmap]
    exact fun p hp => hs.candidates p (h.candidates p hp).1
  · rw [hnext, h.pindexBest]
    exact hs.pnext_iff
  · intro hrun
    obtain ⟨hrun, hcoins⟩ := h.coins hrun
    rw [hcoins, h.pindexBest, hs.coins hrun]
  · rw [hlast, h.pindexBest]
    exact hs.last
  · rw [h.pindexBest]
    intro p hp
    rw [h.genesis (by rw [hp]; rfl), hs.genesis p hp]
  · rw [h.pindexBest, htip.1, htip.2.1, htip.2.2]
    exact hs.tip
  · rw [h.pindexBest, htip.2.1]
    exact hs.noTip

/-! ## The fork -/

section Fork

variable {pindexNew p q : CBlockIndex} {pfork : Option CBlockIndex}

theorem MainChain.fork_eq (hs : MainChain s) (hrun : s.fRequestShutdown = false)
    (hmem : pindexNew ∈ s.mapBlockIndex) :
    (s.pindexBest = none ∧ s.fork pindexNew = .ok none) ∨
      ∃ best f, s.pindexBest = some best ∧ s.fork pindexNew = .ok (some f) ∧
        findFork best pindexNew = some f := by
  have hcoins := hs.coins hrun
  cases hbest : s.pindexBest with
  | none => exact .inl ⟨rfl, fork_ok.mpr (.inl ⟨hcoins.trans hbest, rfl⟩)⟩
  | some best =>
    obtain ⟨f, hf⟩ := exists_findFork (hs.tree.base_eq (hs.known best hbest) hmem)
    exact .inr ⟨best, f, rfl, fork_ok.mpr (.inr ⟨best, f, hcoins.trans hbest, hf, rfl⟩), hf⟩

theorem MainChain.mem_vDisconnect (hs : MainChain s) (hrun : s.fRequestShutdown = false)
    (hmem : pindexNew ∈ s.mapBlockIndex) (hf : s.fork pindexNew = .ok pfork) :
    q ∈ s.vDisconnect pfork ↔ q ∈ chainOf s.pindexBest ∧ q ∉ pindexNew.chain := by
  unfold vDisconnect
  rw [hs.coins hrun]
  rcases hs.fork_eq hrun hmem with ⟨hbest, hf'⟩ | ⟨best, f, hbest, hf', hfind⟩
  · simp [hbest]
  · obtain rfl := Except.ok.inj (hf'.symm.trans hf)
    obtain ⟨hold, hnew, hlast⟩ := findFork_spec hfind
    rw [hbest]
    show q ∈ pathTo (some f) best ↔ _
    rw [mem_pathTo hold]
    refine and_congr_right fun hq => not_congr ⟨fun h => ?_, fun h => ?_⟩
    · exact mem_chain_trans h hnew
    · exact hlast q hq h

theorem MainChain.mem_vConnect (hs : MainChain s) (hrun : s.fRequestShutdown = false)
    (hmem : pindexNew ∈ s.mapBlockIndex) (hf : s.fork pindexNew = .ok pfork) :
    q ∈ vConnect pfork pindexNew ↔ q ∈ pindexNew.chain ∧ q ∉ chainOf s.pindexBest := by
  unfold vConnect
  rw [List.mem_reverse]
  rcases hs.fork_eq hrun hmem with ⟨hbest, hf'⟩ | ⟨best, f, hbest, hf', hfind⟩
  · obtain rfl := Except.ok.inj (hf'.symm.trans hf)
    simp [hbest, mem_pathTo_none]
  · obtain rfl := Except.ok.inj (hf'.symm.trans hf)
    obtain ⟨hold, hnew, hlast⟩ := findFork_spec hfind
    rw [hbest, mem_pathTo hnew]
    refine and_congr_right fun hq => not_congr ⟨fun h => ?_, fun h => ?_⟩
    · exact mem_chain_trans h hold
    · exact hlast q h hq

theorem MainChain.pnext_of_vConnect (hs : MainChain s) (hrun : s.fRequestShutdown = false)
    (hmem : pindexNew ∈ s.mapBlockIndex) (hf : s.fork pindexNew = .ok pfork)
    (hq : q ∈ vConnect pfork pindexNew) : s.pnext q = none := by
  cases hnext : s.pnext q with
  | none => rfl
  | some c =>
    obtain ⟨hc, hcq⟩ := (hs.pnext_iff q c).mp hnext
    obtain ⟨best, hbest, hc⟩ := mem_chainOf.mp hc
    have hqbest : q ∈ best.chain := mem_chain_trans (mem_chain_of_pprev hcq) hc
    refine absurd ?_ ((hs.mem_vConnect hrun hmem hf).mp hq).2
    rw [hbest]
    exact hqbest

theorem MainChain.hash_of_vConnect (hs : MainChain s) (hrun : s.fRequestShutdown = false)
    (hmem : pindexNew ∈ s.mapBlockIndex) (hf : s.fork pindexNew = .ok pfork)
    (hbest : s.pindexBest.isSome = true) (hq : q ∈ vConnect pfork pindexNew) :
    q.getBlockHash ≠ hashGenesisBlock := by
  intro hhash
  obtain ⟨best, hbest⟩ := Option.isSome_iff_exists.mp hbest
  obtain ⟨hqnew, hqold⟩ := (hs.mem_vConnect hrun hmem hf).mp hq
  rw [hbest] at hqold
  rw [hs.tree.eq_base_of_hash (hs.known best hbest) (hs.tree.mem_of_mem_chain hmem hqnew) hhash]
    at hqold
  exact hqold base_mem_chain

end Fork

end

/-! ## `SetBestChain` -/

variable [Hashing] [ScriptEngine] [NodeConfig] [BlockFiles]
variable {reorganise : NodeState → Except Halt NodeState} {env : SetBestChainEnv}
variable {pindexNew : CBlockIndex}

/-- A call that fails does not move the active chain and gives none of its blocks a flag. -/
theorem setBestChain_unmoved (hs : MainChain s) (hrun : s.fRequestShutdown = false)
    (hmem : pindexNew ∈ s.mapBlockIndex) {e : Failure}
    (h : s.setBestChain reorganise env pindexNew = .ok (s', .error e)) :
    Unmoved s s' ∧ ∀ p ∈ chainOf s.pindexBest, s'.failed p = s.failed p := by
  obtain ⟨pfork, hfork, h⟩ := setBestChain_ok.mp h
  have hconnected : ∀ {view s1 r}, connectBlocks env s view (vConnect pfork pindexNew) = (s1, r) →
      Recorded s s1 ∧ Unmoved s s1 := fun h1 => by
    refine ⟨connectBlocks_recorded h1, .of_recorded (connectBlocks_recorded h1) fun hbest => ?_⟩
    exact connectBlocks_invariant (P := fun s1 => s1.pindexGenesisBlock = s.pindexGenesisBlock)
      (fun _ _ p hp _ _ h2 heq =>
        (connectIndex_genesis h2 (hs.hash_of_vConnect hrun hmem hfork hbest hp)).trans heq) rfl h1
  rcases setBestChainFrom_error h with ⟨-, rfl⟩ | ⟨view, vResurrect, -, hcases⟩
  · exact ⟨.abortOn, fun _ _ => rfl⟩
  · rcases hcases with ⟨s1, pindex, s2, hconn, hfailed, rfl⟩ | ⟨s1, view', vDelete, s2, hconn, hpush, rfl⟩
    · obtain ⟨hrec, h1⟩ := hconnected hconn
      have hpindex := connectBlocks_error_mem hconn
      have hoff := ((hs.mem_vConnect hrun hmem hfork).mp hpindex).2
      unfold connectFailed at hfailed
      split at hfailed
      · obtain ⟨s3, h3, hfailed⟩ := Checked.bind_ok.mp hfailed
        have hnext : s3.pnext pindex = none := by
          rw [invalidChainFound_ok h3, hrec.frame]
          exact hs.pnext_of_vConnect hrun hmem hfork hpindex
        obtain ⟨h2, hflags⟩ := invalidBlockFound_spec hnext hfailed
        refine ⟨((h1.trans (invalidChainFound_unmoved h3)).trans h2).trans .abortOn, fun p hp => ?_⟩
        show s2.failed p = s.failed p
        rw [hflags p fun heq => hoff (heq ▸ hp), invalidChainFound_failed h3, hrec.failed p]
      · obtain rfl := Except.ok.inj hfailed
        exact ⟨h1.trans .abortOn, fun p _ => hrec.failed p⟩
    · obtain ⟨hrec, h1⟩ := hconnected hconn
      obtain ⟨rfl, he, -⟩ := pushCoins_error hpush
      exact ⟨h1.trans (.push he), fun p _ => hrec.failed p⟩

/-- The active chain has moved to `pindexNew`. -/
structure Moved (pindexNew : CBlockIndex) (s s' : NodeState) : Prop where
  frame : s' = { s with
    data := s'.data, pnext := s'.pnext, pindexGenesisBlock := s'.pindexGenesisBlock,
    pindexBest := some pindexNew, hashBestChain := pindexNew.getBlockHash,
    pblockindexFBBHLast := none, nBestHeight := pindexNew.nHeight,
    bnBestChainWork := pindexNew.bnChainWork, coinsTip := s'.coinsTip, mempool := s'.mempool,
    fRequestShutdown := s'.fRequestShutdown }
  pnext_iff : ∀ p q, s'.pnext p = some q ↔ q ∈ pindexNew.chain ∧ q.pprev = some p
  failed : ∀ p, s'.failed p = s.failed p
  coins : s'.coinsTip.getBestBlock = some pindexNew
  genesis : s'.pindexGenesisBlock = some pindexNew.base

theorem connectBlocks_genesis {view view' : CoinsView} {vConnect : List CBlockIndex}
    {vDelete : List CTransaction} {g : CBlockIndex} (hg : g ∈ vConnect)
    (hhash : g.getBlockHash = hashGenesisBlock)
    (huniq : ∀ p ∈ vConnect, p.getBlockHash = hashGenesisBlock → p = g)
    (h : connectBlocks env s view vConnect = (s', .ok (view', vDelete))) :
    s'.pindexGenesisBlock = some g := by
  induction vConnect generalizing s view vDelete with
  | nil => cases hg
  | cons pindex vConnect ih =>
    obtain ⟨s1, view1, vDelete1, h1, h2, -⟩ := connectBlocks_cons_ok h
    by_cases hmem : g ∈ vConnect
    · exact ih hmem (fun p hp => huniq p (List.mem_cons_of_mem _ hp)) h2
    · obtain rfl : g = pindex := (List.mem_cons.mp hg).resolve_right hmem
      have hs1 : s1.pindexGenesisBlock = some g := by
        obtain ⟨block, data, hread, -, rfl⟩ := connectIndex_ok h1
        exact if_pos ((readFromDisk_ok.mp hread).2.2.trans hhash)
      refine connectBlocks_invariant (P := fun s => s.pindexGenesisBlock = some g)
        (fun _ _ p hp _ _ h3 heq => (connectIndex_genesis h3 fun hhash' => hmem ?_).trans heq) hs1 h2
      exact huniq p (List.mem_cons_of_mem _ hp) hhash' ▸ hp

/-- Once the blocks are disconnected and connected, `pindexNew` is the best block of the view. -/
theorem reorganised_tip {pfork : Option CBlockIndex} {view view' : CoinsView} {s1 : NodeState}
    {vResurrect vDelete : List CTransaction} (hfork : s.fork pindexNew = .ok pfork)
    (hdisc : disconnectBlocks env s.data s.coinsTip (s.vDisconnect pfork) = .ok (view, vResurrect))
    (hconn : connectBlocks env s view (vConnect pfork pindexNew) = (s1, .ok (view', vDelete))) :
    view'.getBestBlock = some pindexNew := by
  rw [connectBlocks_tip hconn]
  by_cases heq : pfork = some pindexNew
  · -- nothing to connect: the fork is the new tip
    have hnil : vConnect pfork pindexNew = [] := by
      rw [vConnect, heq, pathTo_eq_nil]
      rfl
    rw [hnil]
    rcases fork_ok.mp hfork with ⟨-, rfl⟩ | ⟨best, f, hbest, hfind, rfl⟩
    · cases heq
    · obtain rfl := Option.some.inj heq
      rw [vDisconnect, hbest] at hdisc
      exact disconnectBlocks_tip (findFork_spec hfind).1 hbest hdisc
  · rw [getLast?_vConnect heq]
    rfl

theorem setBestChain_moved (hs : MainChain s) (hrun : s.fRequestShutdown = false)
    (hmem : pindexNew ∈ s.mapBlockIndex) {u : Unit}
    (h : s.setBestChain reorganise env pindexNew = .ok (s', .ok u)) : Moved pindexNew s s' := by
  obtain ⟨pfork, hfork, h⟩ := setBestChain_ok.mp h
  obtain ⟨view, vResurrect, s1, view', vDelete, s2, hdisc, hconn, hpush, hmemory⟩ :=
    setBestChainFrom_ok h
  obtain ⟨s3, s4, hres, hdel, rfl⟩ := updateMemory_ok hmemory
  have hrec := connectBlocks_recorded hconn
  have hpushed := pushCoins_ok hpush
  have hpool := (foldlM_poolOnly (fun _ _ _ => acceptToMemoryPool_poolOnly) hres).trans
    (foldlM_poolOnly (fun _ _ _ => deleteTransaction_poolOnly) hdel)
  have hframe := hpool.frame
  refine ⟨?_, fun p q => ?_, fun p => ?_, ?_, ?_⟩
  · rw [setTip, hframe, hpushed, hrec.frame]
  · have hnext : (s4.setTip pindexNew).pnext =
        setNext (clearNext s.pnext (s.vDisconnect pfork)) (vConnect pfork pindexNew) := by
      rw [setTip, hframe, hpushed, hrec.frame]
    rw [hnext]
    refine setNext_clearNext hs.pnext_iff ?_ (fun q => hs.mem_vDisconnect hrun hmem hfork)
      fun q => hs.mem_vConnect hrun hmem hfork
    intro b hb c hc p hbp hcp
    obtain ⟨best, hbest, hb⟩ := mem_chainOf.mp hb
    rw [hbest] at hc
    exact next_unique hb hc hbp hcp
  · show s4.failed p = s.failed p
    rw [← hrec.failed p]
    unfold failed
    rw [hframe, hpushed]
  · have hcoins : (s4.setTip pindexNew).coinsTip.getBestBlock = view'.getBestBlock := by
      rw [setTip, hframe, hpushed]
      dsimp only
      split <;> rfl
    rw [hcoins, reorganised_tip hfork hdisc hconn]
  · have hgen : (s4.setTip pindexNew).pindexGenesisBlock = s1.pindexGenesisBlock := by
      rw [setTip, hframe, hpushed]
    rw [hgen]
    cases hbest : s.pindexBest with
    | none =>
      have hbase : pindexNew.base ∈ vConnect pfork pindexNew := by
        rw [hs.mem_vConnect hrun hmem hfork, hbest]
        exact ⟨base_mem_chain, List.not_mem_nil⟩
      refine connectBlocks_genesis hbase (hs.tree.base_hash hmem) (fun p hp hhash => ?_) hconn
      have hp := ((hs.mem_vConnect hrun hmem hfork).mp hp).1
      exact hs.tree.eq_base_of_hash hmem (hs.tree.mem_of_mem_chain hmem hp) hhash
    | some best =>
      have hkeep : s1.pindexGenesisBlock = s.pindexGenesisBlock :=
        connectBlocks_invariant (P := fun s1 => s1.pindexGenesisBlock = s.pindexGenesisBlock)
          (fun _ _ p hp _ _ h2 heq => (connectIndex_genesis h2
            (hs.hash_of_vConnect hrun hmem hfork (by rw [hbest]; rfl) hp)).trans heq) rfl hconn
      rw [hkeep, hs.genesis best hbest, hs.tree.base_eq (hs.known best hbest) hmem]

omit [ScriptEngine] [BlockFiles] in
theorem MainChain.of_moved (hs : MainChain s) (hmem : pindexNew ∈ s.mapBlockIndex)
    (h : Moved pindexNew s s') : MainChain s' := by
  have hmap : s'.mapBlockIndex = s.mapBlockIndex := by rw [h.frame]
  have hvalid : s'.setBlockIndexValid = s.setBlockIndexValid := by rw [h.frame]
  have hlast : s'.pblockindexFBBHLast = none := by rw [h.frame]
  have hbest : s'.pindexBest = some pindexNew := by rw [h.frame]
  have htip : s'.hashBestChain = pindexNew.getBlockHash ∧ s'.nBestHeight = pindexNew.nHeight ∧
      s'.bnBestChainWork = pindexNew.bnChainWork := by rw [h.frame]; exact ⟨rfl, rfl, rfl⟩
  refine ⟨hmap ▸ hs.tree, ?_, ?_, ?_, ?_, ?_, ?_, ?_, ?_⟩
  · rw [hbest, hmap]
    rintro p ⟨⟩
    exact hmem
  · rw [hvalid, hmap]
    exact hs.candidates
  · rw [hbest]
    exact h.pnext_iff
  · intro _
    rw [h.coins, hbest]
  · rw [hlast]
    rintro p ⟨⟩
  · rw [hbest]
    rintro p ⟨⟩
    exact h.genesis
  · rw [hbest]
    rintro p ⟨⟩
    exact htip
  · rw [hbest]
    rintro ⟨⟩

/-! ## `ConnectBestBlock` -/

omit [ScriptEngine] [NodeConfig] [BlockFiles] in
theorem markFailed_unmoved {pindexTest p : CBlockIndex} : Unmoved s (markFailed pindexTest s p) := by
  induction p generalizing s with
  | root header =>
    rw [markFailed]
    split
    · exact .refl s
    · exact unmoved_setFailedChild
  | child p header ih =>
    rw [markFailed]
    split
    · exact .refl s
    · exact unmoved_setFailedChild.trans ih

omit [Hashing] [ScriptEngine] [NodeConfig] [BlockFiles] in
theorem mem_pushAttach {pindexTest q : CBlockIndex} {vAttach : List CBlockIndex}
    (h : q ∈ s.pushAttach pindexTest vAttach) :
    (q = pindexTest ∧ ∀ best ∈ s.pindexBest, best.bnChainWork < q.bnChainWork) ∨ q ∈ vAttach := by
  unfold pushAttach at h
  split at h
  · rename_i hwork
    rcases List.mem_cons.mp h with rfl | h
    · exact .inl ⟨rfl, by simpa [Option.all_eq_true] using hwork⟩
    · exact .inr h
  · exact .inr h

omit [Hashing] [ScriptEngine] [NodeConfig] [BlockFiles] in
/-- The entries to attach are ancestors of the one the check starts from, and have more work than the
best block. -/
theorem checkAncestry_mem {p q : CBlockIndex} {vAttach vAttach' : List CBlockIndex}
    (h : s.checkAncestry p vAttach = .inr vAttach') (hq : q ∈ vAttach') :
    q ∈ vAttach ∨ (q ∈ p.chain ∧ ∀ best ∈ s.pindexBest, best.bnChainWork < q.bnChainWork) := by
  have hstep : ∀ {p vAttach}, q ∈ s.pushAttach p vAttach →
      q ∈ vAttach ∨ (q ∈ p.chain ∧ ∀ best ∈ s.pindexBest, best.bnChainWork < q.bnChainWork) :=
    fun hq => by
      rcases mem_pushAttach hq with ⟨rfl, hwork⟩ | hq
      · exact .inr ⟨self_mem_chain, hwork⟩
      · exact .inl hq
  induction p generalizing vAttach with
  | root header =>
    rw [checkAncestry] at h
    split at h
    · cases h
    · obtain rfl := Sum.inr.inj h
      exact hstep hq
  | child p header ih =>
    rw [checkAncestry] at h
    split at h
    · cases h
    · split at h
      · obtain rfl := Sum.inr.inj h
        exact hstep hq
      · rcases ih h with hq | ⟨hq, hwork⟩
        · exact hstep hq
        · exact .inr ⟨mem_chain_child.mpr (.inr hq), hwork⟩

omit [Hashing] [ScriptEngine] [NodeConfig] [BlockFiles] in
/-- What every successful call of `SetBestChain` preserves holds until the loop over `vAttach` ends or
a call fails. -/
theorem attachBlocks_invariant {P Q : NodeState → Prop}
    {setBestChain : NodeState → CBlockIndex → Except Halt (NodeState × Check Unit)}
    {fShutdown : CBlockIndex → Bool} {vAttach : List CBlockIndex} {r : Check Unit}
    (hshutdown : ∀ s, P s → Q { s with fRequestShutdown := true }) (hend : ∀ s, P s → Q s)
    (hok : ∀ s s' u, ∀ p ∈ vAttach, P s → s.fRequestShutdown = false →
      setBestChain s p = .ok (s', .ok u) → P s')
    (herror : ∀ s s' e, ∀ p ∈ vAttach, P s → s.fRequestShutdown = false →
      setBestChain s p = .ok (s', .error e) → Q s')
    (hs : P s) (h : attachBlocks setBestChain fShutdown s vAttach = .ok (s', r)) : Q s' := by
  induction vAttach generalizing s with
  | nil =>
    obtain ⟨rfl, -⟩ := Prod.mk.inj (Except.ok.inj h)
    exact hend s hs
  | cons p vAttach ih =>
    rw [attachBlocks] at h
    dsimp only at h
    cases hreq : (s.fRequestShutdown || fShutdown p) with
    | true =>
      rw [hreq, if_pos rfl] at h
      obtain ⟨rfl, -⟩ := Prod.mk.inj (Except.ok.inj h)
      exact hshutdown s hs
    | false =>
      have hrun : s.fRequestShutdown = false := (Bool.or_eq_false_iff.mp hreq).1
      rw [hreq, if_neg Bool.false_ne_true, ← hrun] at h
      obtain ⟨⟨s1, r1⟩, h1, h⟩ := Checked.bind_ok.mp h
      cases r1 with
      | error e =>
        obtain ⟨rfl, -⟩ := Prod.mk.inj (Except.ok.inj h)
        exact herror s s1 e p List.mem_cons_self hs hrun h1
      | ok u =>
        refine ih ?_ ?_ (hok s s1 u p List.mem_cons_self hs hrun h1) h
        · exact fun s s' u q hq => hok s s' u q (List.mem_cons_of_mem _ hq)
        · exact fun s s' e q hq => herror s s' e q (List.mem_cons_of_mem _ hq)

omit [ScriptEngine] [BlockFiles] in
theorem MainChain.requestShutdown (hs : MainChain s) :
    MainChain { s with fRequestShutdown := true } :=
  hs.of_unmoved ⟨rfl, fun _ => rfl, fun _ hp => ⟨hp, rfl⟩, fun h => absurd h (by simp)⟩

theorem setBestChain_mainChain (hs : MainChain s) (hrun : s.fRequestShutdown = false)
    (hmem : pindexNew ∈ s.mapBlockIndex) {r : Check Unit}
    (h : s.setBestChain reorganise env pindexNew = .ok (s', r)) :
    MainChain s' ∧ s'.mapBlockIndex = s.mapBlockIndex := by
  cases r with
  | error e =>
    obtain ⟨hunmoved, -⟩ := setBestChain_unmoved hs hrun hmem h
    exact ⟨hs.of_unmoved hunmoved, by rw [hunmoved.frame]⟩
  | ok u =>
    have hmoved := setBestChain_moved hs hrun hmem h
    exact ⟨hs.of_moved hmem hmoved, by rw [hmoved.frame]⟩

theorem connectBestBlock_mainChain {env : ConnectBestEnv} {fuel : Nat} {r : Check Unit}
    (hs : MainChain s) (h : connectBestBlock env fuel s = .ok (s', r)) :
    MainChain s' ∧ s'.mapBlockIndex = s.mapBlockIndex := by
  induction fuel generalizing s with
  | zero => cases h
  | succ fuel ih =>
    rcases connectBestBlock_cases h with ⟨-, rfl, -⟩ | ⟨top, htop, hcases⟩
    · exact ⟨hs, rfl⟩
    · rcases hcases with ⟨-, rfl, -⟩ | ⟨pindexTest, s1, -, h1, h⟩ | ⟨vAttach, hcheck, h⟩
      · exact ⟨hs, rfl⟩
      · have hmarked := markFailed_unmoved.trans (invalidChainFound_unmoved h1)
        obtain ⟨hs', hmap⟩ := ih (hs.of_unmoved hmarked) h
        exact ⟨hs', by rw [hmap, hmarked.frame]⟩
      · have htopmem := hs.candidates top (rbegin_mem htop)
        have hcall : ∀ s1 s2 r1, ∀ p ∈ vAttach,
            MainChain s1 ∧ s1.mapBlockIndex = s.mapBlockIndex → s1.fRequestShutdown = false →
            s1.setBestChain (fun s => (connectBestBlock env fuel s).map Prod.fst) (env.switch p) p =
              .ok (s2, r1) → MainChain s2 ∧ s2.mapBlockIndex = s.mapBlockIndex := by
          intro s1 s2 r1 p hp hs1 hrun h1
          have hpmem : p ∈ s1.mapBlockIndex := by
            rw [hs1.2]
            rcases checkAncestry_mem hcheck hp with hp | ⟨hp, -⟩
            · cases hp
            · exact hs.tree.mem_of_mem_chain htopmem hp
          obtain ⟨hs2, hmap⟩ := setBestChain_mainChain hs1.1 hrun hpmem h1
          exact ⟨hs2, hmap.trans hs1.2⟩
        exact attachBlocks_invariant
          (P := fun s' => MainChain s' ∧ s'.mapBlockIndex = s.mapBlockIndex)
          (fun s1 hs1 => ⟨hs1.1.requestShutdown, hs1.2⟩) (fun _ hs1 => hs1)
          (fun s1 s2 u => hcall s1 s2 (.ok u)) (fun s1 s2 e => hcall s1 s2 (.error e)) ⟨hs, rfl⟩ h

end NodeState

end Terracoin
