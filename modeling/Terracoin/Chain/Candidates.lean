import Terracoin.Chain.ActiveChain

/-!
# The candidates for the best block

`ConnectBestBlock` works on `setBlockIndexValid`, and its own failures take entries out of that set.
No entry of the set ever carries a flag (`NoneFailed`), so every round of the loop that does not
attach blocks takes out its greatest entry, and the loop ends. When it has attached what it wanted,
no entry of the set has more work than the best block.

The blocks of the active chain stay free of flags (`ActiveValid`) as long as nobody marks one of
them. `InvalidBlockFound` on a block of the active chain means to reorganise away from it, but it
takes only the block itself out of the set: the best block stays, and so does its chain.
-/

namespace Terracoin

open CBlockIndex Checked

namespace NodeState

def NoneFailed (s : NodeState) : Prop := ∀ p ∈ s.setBlockIndexValid, s.failed p = false

/-- No candidate has more work than the best block. -/
def Maximal (s : NodeState) : Prop :=
  ∀ p ∈ s.setBlockIndexValid, ∃ best, s.pindexBest = some best ∧ p.bnChainWork ≤ best.bnChainWork

variable {s s' : NodeState} {p q t : CBlockIndex}

theorem NoneFailed.of_unmoved (hs : NoneFailed s) (h : Unmoved s s') : NoneFailed s' := by
  intro p hp
  obtain ⟨hp, hflag⟩ := h.candidates p hp
  rw [hflag, hs p hp]

/-! ## The ancestry check -/

theorem checkAncestry_inl {vAttach : List CBlockIndex} (h : s.checkAncestry p vAttach = .inl t) :
    t ∈ p.chain ∧ s.failed t = true := by
  induction p generalizing vAttach with
  | root header =>
    rw [checkAncestry] at h
    split at h
    · obtain rfl := Sum.inl.inj h
      exact ⟨self_mem_chain, ‹_›⟩
    · cases h
  | child p header ih =>
    rw [checkAncestry] at h
    split at h
    · obtain rfl := Sum.inl.inj h
      exact ⟨self_mem_chain, ‹_›⟩
    · split at h
      · cases h
      · obtain ⟨ht, hfailed⟩ := ih h
        exact ⟨mem_chain_child.mpr (.inr ht), hfailed⟩

/-- The entry the check starts from is the last to be attached. -/
theorem checkAncestry_suffix {vAttach vAttach' : List CBlockIndex}
    (h : s.checkAncestry p vAttach = .inr vAttach') :
    ∃ front, vAttach' = front ++ s.pushAttach p vAttach := by
  induction p generalizing vAttach with
  | root header =>
    rw [checkAncestry] at h
    split at h
    · cases h
    · exact ⟨[], (Sum.inr.inj h).symm⟩
  | child p header ih =>
    rw [checkAncestry] at h
    split at h
    · cases h
    · split at h
      · exact ⟨[], (Sum.inr.inj h).symm⟩
      · obtain ⟨front, rfl⟩ := ih h
        rw [pushAttach]
        split
        · exact ⟨front ++ [p], by rw [List.append_assoc]; rfl⟩
        · exact ⟨front, rfl⟩

/-- If the check finds no flag up to the active chain, and that has none, there is none. -/
theorem checkAncestry_valid [Hashing] [NodeConfig] {vAttach vAttach' : List CBlockIndex}
    (hs : MainChain s) (hvalid : ActiveValid s) (h : s.checkAncestry p vAttach = .inr vAttach')
    (hq : q ∈ p.chain) : s.failed q = false := by
  induction p generalizing vAttach with
  | root header =>
    obtain rfl : q = root header := by simpa [chain] using hq
    rw [checkAncestry] at h
    split at h
    · cases h
    · exact Bool.eq_false_of_not_eq_true ‹_›
  | child p header ih =>
    rw [checkAncestry] at h
    split at h
    · cases h
    · rename_i hself
      split at h
      · rename_i hnext
        have hmain : child p header ∈ chainOf s.pindexBest :=
          hs.isInMainChain_iff.mp (by rw [isInMainChain, hnext, Bool.true_or])
        obtain ⟨best, hbest, hmain⟩ := mem_chainOf.mp hmain
        exact hvalid q (mem_chainOf.mpr ⟨best, hbest, mem_chain_trans hq hmain⟩)
      · rcases mem_chain_child.mp hq with rfl | hq
        · simpa using hself
        · exact ih h hq

section

variable [Hashing]

theorem eraseValid_length_le :
    (s.eraseValid p).setBlockIndexValid.length ≤ s.setBlockIndexValid.length :=
  List.length_filter_le _ _

theorem eraseValid_length_lt (h : p ∈ s.setBlockIndexValid) :
    (s.eraseValid p).setBlockIndexValid.length < s.setBlockIndexValid.length := by
  refine List.length_filter_lt_length_iff_exists.mpr ⟨p, h, ?_⟩
  simp [workEquiv_iff.mpr ⟨rfl, rfl⟩]

theorem markFailed_length_le :
    (markFailed t s p).setBlockIndexValid.length ≤ s.setBlockIndexValid.length := by
  induction p generalizing s with
  | root header =>
    rw [markFailed]
    split
    · exact le_refl _
    · exact eraseValid_length_le (s := s.setFailedChild (root header))
  | child p header ih =>
    rw [markFailed]
    split
    · exact le_refl _
    · exact ih.trans (eraseValid_length_le (s := s.setFailedChild (child p header)))

theorem markFailed_length_lt (h : p ∈ s.setBlockIndexValid) (hne : t ≠ p) :
    (markFailed t s p).setBlockIndexValid.length < s.setBlockIndexValid.length := by
  cases p with
  | root header =>
    rw [markFailed, if_neg hne]
    exact eraseValid_length_lt (s := s.setFailedChild (root header)) h
  | child p header =>
    rw [markFailed, if_neg hne]
    exact markFailed_length_le.trans_lt
      (eraseValid_length_lt (s := s.setFailedChild (child p header)) h)

theorem markFailed_failed (ht : t ∈ p.chain) (hq : t ∉ q.chain) :
    (markFailed t s p).failed q = s.failed q := by
  induction p generalizing s with
  | root header =>
    rw [markFailed]
    split
    · rfl
    · exact absurd (by simpa [chain] using ht) ‹¬_›
  | child p header ih =>
    rw [markFailed]
    split
    · rfl
    · rename_i hne
      have hne' : q ≠ child p header := fun heq => hq (heq ▸ ht)
      rw [ih ((mem_chain_child.mp ht).resolve_left hne)]
      exact failed_setFailedChild hne'

theorem markFailed_activeValid (hvalid : ActiveValid s) (ht : t ∈ p.chain)
    (hfailed : s.failed t = true) : ActiveValid (markFailed t s p) := by
  refine markFailed_unmoved.activeValid hvalid fun q hq => markFailed_failed ht fun htq => ?_
  obtain ⟨best, hbest, hq⟩ := mem_chainOf.mp hq
  rw [hvalid t (mem_chainOf.mpr ⟨best, hbest, mem_chain_trans htq hq⟩)] at hfailed
  cases hfailed

end

/-! ## The loop -/

theorem crash_avoids {α : Type} : Avoids Halt.outOfFuel (.error .crash : Except Halt α) := by
  rintro ⟨⟩

theorem fail_avoids {e : Failure} : Avoids Halt.outOfFuel (s.fail e) := by
  unfold fail
  exact avoids_ite (fun _ => crash_avoids) fun _ => avoids_ok

theorem invalidChainFound_avoids : Avoids Halt.outOfFuel (s.invalidChainFound p) := by
  unfold invalidChainFound
  exact avoids_ite (fun _ => crash_avoids) fun _ => avoids_ite (fun _ => avoids_ok) fun _ => avoids_ok

variable [Hashing] [ScriptEngine] [NodeConfig] [BlockFiles]
variable {reorganise : NodeState → Except Halt NodeState} {fuel : Nat}

omit [ScriptEngine] [NodeConfig] [BlockFiles] in
theorem NoneFailed.of_moved (hs : NoneFailed s) (h : Moved p s s') : NoneFailed s' := by
  intro q hq
  rw [h.frame] at hq
  rw [h.failed, hs q hq]

omit [ScriptEngine] [NodeConfig] [BlockFiles] in
theorem ActiveValid.of_moved (h : Moved p s s') (hp : ∀ q ∈ p.chain, s.failed q = false) :
    ActiveValid s' := by
  intro q hq
  rw [h.frame] at hq
  rw [h.failed, hp q hq]

/-- The nested call of `ConnectBestBlock` is never made, so its fuel does not matter. -/
theorem setBestChain_avoids {env : SetBestChainEnv} (hs : MainChain s)
    (hrun : s.fRequestShutdown = false) (hmem : p ∈ s.mapBlockIndex) :
    Avoids .outOfFuel (s.setBestChain reorganise env p) := by
  refine avoids_bind ?_ fun pfork hfork => ?_
  · rcases hs.fork_eq hrun hmem with ⟨-, hf⟩ | ⟨best, f, -, hf, -⟩ <;> rw [hf] <;> exact avoids_ok
  · unfold setBestChainFrom
    split
    · exact fail_avoids
    · rename_i view vResurrect hdisc
      split
      · rename_i s1 pindex e hconn
        refine avoids_bind ?_ fun _ _ => fail_avoids
        unfold connectFailed
        refine avoids_ite (fun _ => avoids_bind invalidChainFound_avoids fun s2 h2 => ?_) fun _ => avoids_ok
        refine avoids_bind invalidChainFound_avoids fun s3 h3 => ?_
        have hnext : s3.pnext pindex = none := by
          rw [invalidChainFound_ok h3]
          show s2.pnext pindex = none
          rw [invalidChainFound_ok h2, (connectBlocks_recorded hconn).frame]
          exact hs.pnext_of_vConnect hrun hmem hfork (connectBlocks_error_mem hconn)
        rw [if_neg (by simp [hnext])]
        exact avoids_ok
      · split
        · exact fail_avoids
        · refine avoids_bind ?_ fun _ _ => avoids_ok
          refine avoids_bind (avoids_foldlM fun s tx => ?_) fun _ _ =>
            avoids_bind (avoids_foldlM fun s tx => ?_) fun _ _ => avoids_ok
          · unfold resurrect acceptToMemoryPool
            split
            · exact avoids_ok
            · exact avoids_ite (fun _ => crash_avoids) fun _ => avoids_ok
          · unfold deleteTransaction
            split
            · exact crash_avoids
            · exact avoids_ok

omit [Hashing] [ScriptEngine] [NodeConfig] [BlockFiles] in
theorem attachBlocks_avoids {P : NodeState → Prop}
    {setBestChain : NodeState → CBlockIndex → Except Halt (NodeState × Check Unit)}
    {fShutdown : CBlockIndex → Bool} {vAttach : List CBlockIndex}
    (hok : ∀ s s' u, ∀ p ∈ vAttach, P s → s.fRequestShutdown = false →
      setBestChain s p = .ok (s', .ok u) → P s')
    (havoids : ∀ s, ∀ p ∈ vAttach, P s → s.fRequestShutdown = false →
      Avoids .outOfFuel (setBestChain s p))
    (hs : P s) : Avoids .outOfFuel (attachBlocks setBestChain fShutdown s vAttach) := by
  induction vAttach generalizing s with
  | nil => exact avoids_ok
  | cons p vAttach ih =>
    rw [attachBlocks]
    dsimp only
    cases hreq : (s.fRequestShutdown || fShutdown p) with
    | true =>
      rw [if_pos rfl]
      exact avoids_ok
    | false =>
      have hrun : s.fRequestShutdown = false := (Bool.or_eq_false_iff.mp hreq).1
      rw [if_neg Bool.false_ne_true, ← hrun]
      refine avoids_bind (havoids s p List.mem_cons_self hs hrun) ?_
      rintro ⟨s1, e | u⟩ h1
      · exact avoids_ok
      · refine ih ?_ ?_ (hok s s1 u p List.mem_cons_self hs hrun h1)
        · exact fun s s' u q hq => hok s s' u q (List.mem_cons_of_mem _ hq)
        · exact fun s q hq => havoids s q (List.mem_cons_of_mem _ hq)

section Loop

variable {env : ConnectBestEnv} {top : CBlockIndex} {vAttach : List CBlockIndex}

omit [ScriptEngine] [BlockFiles] in
theorem MainChain.attach_known (hs : MainChain s) (htop : rbegin s.setBlockIndexValid = some top)
    (hcheck : s.checkAncestry top [] = .inr vAttach) : ∀ p ∈ vAttach, p ∈ s.mapBlockIndex := by
  intro p hp
  rcases checkAncestry_mem hcheck hp with hp | ⟨hp, -⟩
  · cases hp
  · exact hs.tree.mem_of_mem_chain (hs.candidates top (rbegin_mem htop)) hp

/-- Every round but the last takes a candidate out of the set, so the loop ends. -/
theorem connectBestBlock_avoids (hs : MainChain s) (hnone : NoneFailed s)
    (hfuel : s.setBlockIndexValid.length < fuel) :
    Avoids .outOfFuel (connectBestBlock env fuel s) := by
  induction fuel generalizing s with
  | zero => exact absurd hfuel (Nat.not_lt_zero _)
  | succ fuel ih =>
    rw [connectBestBlock]
    split
    · exact avoids_ok
    · rename_i top htop
      refine avoids_ite (fun _ => avoids_ok) fun _ => ?_
      split
      · rename_i t hcheck
        obtain ⟨ht, hfailed⟩ := checkAncestry_inl hcheck
        have htopmem := rbegin_mem htop
        have hne : t ≠ top := fun heq => by
          rw [heq, hnone top htopmem] at hfailed
          cases hfailed
        refine avoids_bind invalidChainFound_avoids fun s1 h1 => ?_
        have hmarked := markFailed_unmoved.trans (invalidChainFound_unmoved h1)
        refine ih (hs.of_unmoved hmarked) (hnone.of_unmoved hmarked) ?_
        have hlen := markFailed_length_lt htopmem hne
        have hsame : s1.setBlockIndexValid = (markFailed t s top).setBlockIndexValid := by
          rw [invalidChainFound_ok h1]
        rw [hsame]
        omega
      · rename_i vAttach hcheck
        have hknown := hs.attach_known htop hcheck
        refine attachBlocks_avoids
          (P := fun s' => MainChain s' ∧ s'.mapBlockIndex = s.mapBlockIndex) ?_ ?_ ⟨hs, rfl⟩
        · intro s1 s2 u p hp hs1 hrun h1
          obtain ⟨hs2, hmap⟩ := setBestChain_mainChain hs1.1 hrun (hs1.2 ▸ hknown p hp) h1
          exact ⟨hs2, hmap.trans hs1.2⟩
        · exact fun s1 p hp hs1 hrun => setBestChain_avoids hs1.1 hrun (hs1.2 ▸ hknown p hp)

theorem connectBestBlock_noneFailed {r : Check Unit} (hs : MainChain s) (hnone : NoneFailed s)
    (h : connectBestBlock env fuel s = .ok (s', r)) : NoneFailed s' := by
  induction fuel generalizing s with
  | zero => cases h
  | succ fuel ih =>
    rcases connectBestBlock_cases h with ⟨-, rfl, -⟩ | ⟨top, htop, hcases⟩
    · exact hnone
    · rcases hcases with ⟨-, rfl, -⟩ | ⟨t, s1, -, h1, h⟩ | ⟨vAttach, hcheck, h⟩
      · exact hnone
      · have hmarked := markFailed_unmoved.trans (invalidChainFound_unmoved h1)
        exact ih (hs.of_unmoved hmarked) (hnone.of_unmoved hmarked) h
      · have hknown := hs.attach_known htop hcheck
        refine attachBlocks_invariant
          (P := fun s' => MainChain s' ∧ s'.mapBlockIndex = s.mapBlockIndex ∧ NoneFailed s')
          (fun _ hs1 => hs1.2.2) (fun _ hs1 => hs1.2.2) ?_ ?_ ⟨hs, rfl, hnone⟩ h
        · intro s1 s2 u p hp hs1 hrun h1
          have hmem := hs1.2.1 ▸ hknown p hp
          obtain ⟨hs2, hmap⟩ := setBestChain_mainChain hs1.1 hrun hmem h1
          exact ⟨hs2, hmap.trans hs1.2.1, hs1.2.2.of_moved (setBestChain_moved hs1.1 hrun hmem h1)⟩
        · intro s1 s2 e p hp hs1 hrun h1
          exact hs1.2.2.of_unmoved (setBestChain_unmoved hs1.1 hrun (hs1.2.1 ▸ hknown p hp) h1).1

/-- An active chain without flags is only left for one without flags. -/
theorem connectBestBlock_activeValid {r : Check Unit} (hs : MainChain s) (hvalid : ActiveValid s)
    (h : connectBestBlock env fuel s = .ok (s', r)) : ActiveValid s' := by
  induction fuel generalizing s with
  | zero => cases h
  | succ fuel ih =>
    rcases connectBestBlock_cases h with ⟨-, rfl, -⟩ | ⟨top, htop, hcases⟩
    · exact hvalid
    · rcases hcases with ⟨-, rfl, -⟩ | ⟨t, s1, hcheck, h1, h⟩ | ⟨vAttach, hcheck, h⟩
      · exact hvalid
      · obtain ⟨ht, hfailed⟩ := checkAncestry_inl hcheck
        have hmarked := markFailed_unmoved.trans (invalidChainFound_unmoved h1)
        refine ih (hs.of_unmoved hmarked) ?_ h
        exact (invalidChainFound_unmoved h1).activeValid (markFailed_activeValid hvalid ht hfailed)
          fun q _ => invalidChainFound_failed h1
      · have hknown := hs.attach_known htop hcheck
        have hchain : ∀ p ∈ vAttach, ∀ q ∈ p.chain, s.failed q = false := fun p hp q hq => by
          rcases checkAncestry_mem hcheck hp with hp | ⟨hp, -⟩
          · cases hp
          · exact checkAncestry_valid hs hvalid hcheck (mem_chain_trans hq hp)
        refine attachBlocks_invariant
          (P := fun s' => MainChain s' ∧ s'.mapBlockIndex = s.mapBlockIndex ∧ ActiveValid s' ∧
            ∀ q, s'.failed q = s.failed q)
          (fun _ hs1 => hs1.2.2.1) (fun _ hs1 => hs1.2.2.1) ?_ ?_ ⟨hs, rfl, hvalid, fun _ => rfl⟩ h
        · intro s1 s2 u p hp hs1 hrun h1
          have hmem := hs1.2.1 ▸ hknown p hp
          obtain ⟨hs2, hmap⟩ := setBestChain_mainChain hs1.1 hrun hmem h1
          have hmoved := setBestChain_moved hs1.1 hrun hmem h1
          refine ⟨hs2, hmap.trans hs1.2.1, ActiveValid.of_moved hmoved fun q hq => ?_,
            fun q => (hmoved.failed q).trans (hs1.2.2.2 q)⟩
          rw [hs1.2.2.2 q, hchain p hp q hq]
        · intro s1 s2 e p hp hs1 hrun h1
          obtain ⟨hunmoved, hflags⟩ := setBestChain_unmoved hs1.1 hrun (hs1.2.1 ▸ hknown p hp) h1
          exact hunmoved.activeValid hs1.2.2.1 hflags

/-- A loop over `vAttach` that is not cut short ends with its last entry as the best block. -/
theorem attachBlocks_tip {u : Unit} (hs : MainChain s) (hknown : ∀ p ∈ vAttach, p ∈ s.mapBlockIndex)
    (h : attachBlocks (fun s p => s.setBestChain reorganise (env.switch p) p) env.fShutdown s
      vAttach = .ok (s', .ok u)) (hrun : s'.fRequestShutdown = false) :
    s'.pindexBest = vAttach.getLast?.or s.pindexBest ∧
      s'.setBlockIndexValid = s.setBlockIndexValid := by
  induction vAttach generalizing s with
  | nil =>
    obtain ⟨rfl, -⟩ := Prod.mk.inj (Except.ok.inj h)
    exact ⟨rfl, rfl⟩
  | cons p vAttach ih =>
    rw [attachBlocks] at h
    dsimp only at h
    cases hreq : (s.fRequestShutdown || env.fShutdown p) with
    | true =>
      rw [hreq, if_pos rfl] at h
      obtain ⟨rfl, -⟩ := Prod.mk.inj (Except.ok.inj h)
      cases hrun
    | false =>
      have hrun1 : s.fRequestShutdown = false := (Bool.or_eq_false_iff.mp hreq).1
      rw [hreq, if_neg Bool.false_ne_true, ← hrun1] at h
      obtain ⟨⟨s1, r1⟩, h1, h⟩ := bind_ok.mp h
      cases r1 with
      | error e => cases (Prod.mk.inj (Except.ok.inj h)).2
      | ok u1 =>
        have hmem := hknown p List.mem_cons_self
        have hmoved := setBestChain_moved hs hrun1 hmem h1
        have hmap : s1.mapBlockIndex = s.mapBlockIndex := by rw [hmoved.frame]
        have hset : s1.setBlockIndexValid = s.setBlockIndexValid := by rw [hmoved.frame]
        have hbest : s1.pindexBest = some p := by rw [hmoved.frame]
        obtain ⟨htip, hsame⟩ := ih (hs.of_moved hmem hmoved)
          (fun q hq => hmap ▸ hknown q (List.mem_cons_of_mem _ hq)) h
        refine ⟨?_, hsame.trans hset⟩
        rw [htip, hbest, List.getLast?_cons]
        cases vAttach.getLast? <;> rfl

theorem connectBestBlock_maximal {u : Unit} (hs : MainChain s)
    (h : connectBestBlock env fuel s = .ok (s', .ok u)) (hrun : s'.fRequestShutdown = false) :
    Maximal s' := by
  induction fuel generalizing s with
  | zero => cases h
  | succ fuel ih =>
    rcases connectBestBlock_cases h with ⟨hnil, rfl, -⟩ | ⟨top, htop, hcases⟩
    · intro p hp
      rw [hnil] at hp
      cases hp
    · rcases hcases with ⟨hnothing, rfl, -⟩ | ⟨t, s1, -, h1, h⟩ | ⟨vAttach, hcheck, h⟩
      · intro p hp
        have hle := work_le_rbegin htop hp
        simp only [nothingToDo, Bool.or_eq_true, beq_iff_eq, Option.any_eq_true] at hnothing
        rcases hnothing with hbest | ⟨best, hbest, hwork⟩
        · exact ⟨top, hbest, hle⟩
        · exact ⟨best, hbest, hwork ▸ hle⟩
      · exact ih (hs.of_unmoved (markFailed_unmoved.trans (invalidChainFound_unmoved h1))) h
      · obtain ⟨htip, hsame⟩ := attachBlocks_tip hs (hs.attach_known htop hcheck) h hrun
        obtain ⟨front, hfront⟩ := checkAncestry_suffix hcheck
        intro p hp
        have hle := work_le_rbegin htop (hsame ▸ hp)
        by_cases hattach : ∀ best ∈ s.pindexBest, best.bnChainWork < top.bnChainWork
        · -- the greatest candidate has been attached last
          have hpush : s.pushAttach top [] = [top] := by
            rw [pushAttach, if_pos (by simpa [Option.all_eq_true] using hattach)]
          rw [hfront, hpush, List.getLast?_append] at htip
          exact ⟨top, htip, hle⟩
        · -- nothing has more work than the best block, so nothing was attached
          simp only [not_forall, not_lt] at hattach
          obtain ⟨best, hbest, hwork⟩ := hattach
          have hnil : vAttach = [] := by
            refine List.eq_nil_iff_forall_not_mem.mpr fun q hq => ?_
            rcases checkAncestry_mem hcheck hq with hq | ⟨hq, hmore⟩
            · cases hq
            · have := bnChainWork_le_of_mem_chain hq
              have := hmore best hbest
              omega
          rw [hnil] at htip
          exact ⟨best, htip.trans hbest, hle.trans hwork⟩

end Loop

/-! ## Runs -/

omit [ScriptEngine] [NodeConfig] [BlockFiles] in
theorem failed_insertIndex (hne : q ≠ p) : (s.insertIndex p).failed q = s.failed q := by
  rw [insertIndex, insertValid_eq]
  simp [failed, Function.update_of_ne hne]

omit [ScriptEngine] [NodeConfig] [BlockFiles] in
theorem NoneFailed.insertIndex (hnone : NoneFailed s) : NoneFailed (s.insertIndex p) := by
  intro q hq
  by_cases hne : q = p
  · rw [hne, NodeState.insertIndex, insertValid_eq]
    simp [failed, BlockStatus.failed, BlockData.unconnected]
  · rw [failed_insertIndex hne]
    rcases mem_insertValid hq with heq | hq
    · exact absurd heq hne
    · exact hnone q hq

omit [ScriptEngine] [NodeConfig] [BlockFiles] in
theorem insertIndex_length_le :
    (s.insertIndex p).setBlockIndexValid.length ≤ s.setBlockIndexValid.length + 1 := by
  unfold insertIndex insertValid
  split
  · exact Nat.le_succ _
  · exact le_refl _

theorem addToBlockIndex_avoids {env : AddEnv} {header : CBlockHeader} (hs : MainChain s)
    (hnone : NoneFailed s)
    (hprev : (s.findIndex header.hashPrevBlock).isSome ∨ header.getHash = hashGenesisBlock)
    (hfuel : s.setBlockIndexValid.length + 1 < fuel) :
    Avoids .outOfFuel (s.addToBlockIndex env fuel header) := by
  unfold addToBlockIndex
  refine avoids_ite (fun _ => fail_avoids) fun hnew => ?_
  have hnew := Option.not_isSome_iff_eq_none.mp hnew
  refine avoids_ite (fun _ => fail_avoids) fun _ => avoids_bind ?_ ?_
  · exact connectBestBlock_avoids (hs.insertIndex_newIndex hprev hnew) hnone.insertIndex
      (insertIndex_length_le.trans_lt hfuel)
  · rintro ⟨s1, e | u⟩ -
    · exact avoids_ok
    · exact avoids_ite (fun _ => fail_avoids) fun _ => avoids_ok

theorem invalidBlockFound_avoids {env : ConnectBestEnv} (hs : MainChain s) (hnone : NoneFailed s)
    (hfuel : s.setBlockIndexValid.length < fuel) :
    Avoids .outOfFuel
      (s.invalidBlockFound (fun s => (connectBestBlock env fuel s).map Prod.fst) p) := by
  refine avoids_bind invalidChainFound_avoids fun s1 h1 => avoids_ite (fun _ => ?_) fun _ => avoids_ok
  have hmarked := unmoved_setFailedValid.trans (invalidChainFound_unmoved h1)
  have hlen : s1.setBlockIndexValid.length ≤ s.setBlockIndexValid.length := by
    rw [invalidChainFound_ok h1]
    exact eraseValid_length_le (s := s.setFailedValid p)
  exact avoids_map (connectBestBlock_avoids (hs.of_unmoved hmarked) (hnone.of_unmoved hmarked)
    (hlen.trans_lt hfuel))

omit [ScriptEngine] [BlockFiles] in
theorem ActiveValid.insertIndex (hs : MainChain s) (hvalid : ActiveValid s)
    (hhash : ∀ q ∈ s.mapBlockIndex, q.getBlockHash ≠ p.getBlockHash) :
    ActiveValid (s.insertIndex p) := by
  intro q hq
  have hbest : (s.insertIndex p).pindexBest = s.pindexBest := by
    rw [NodeState.insertIndex, insertValid_eq]
  rw [hbest] at hq
  obtain ⟨best, hbest, hqbest⟩ := mem_chainOf.mp hq
  have hknown := hs.tree.mem_of_mem_chain (hs.known best hbest) hqbest
  rw [failed_insertIndex fun heq => hhash q hknown (by rw [heq]), hvalid q hq]

omit [ScriptEngine] [NodeConfig] [BlockFiles] in
theorem newIndex_hash {header : CBlockHeader} : (s.newIndex header).getBlockHash = header.getHash := by
  unfold newIndex
  cases s.findIndex header.hashPrevBlock <;> rfl

omit [ScriptEngine] [BlockFiles] in
theorem loadBlockIndexDB_fields (db : BlockTreeDB) (coinsDB : CoinsView) :
    (loadBlockIndexDB db coinsDB).data = db.data ∧
      (loadBlockIndexDB db coinsDB).pindexBest = coinsDB.getBestBlock ∧
      ∀ q ∈ (loadBlockIndexDB db coinsDB).setBlockIndexValid, isCandidate (db.data q) = true := by
  unfold loadBlockIndexDB
  dsimp only
  rw [foldl_insertValid_eq]
  have hvalid : ∀ {s : NodeState}, s.setBlockIndexValid = [] → ∀ q ∈ ((db.entries.filter fun p =>
      isCandidate (db.data p)).foldl insertValid s).setBlockIndexValid,
      isCandidate (db.data q) = true := fun hnil q hq => by
    rcases mem_foldl_insertValid hq with hq | hq
    · simpa using (List.mem_filter.mp hq).2
    · rw [hnil] at hq
      cases hq
  cases coinsDB.getBestBlock with
  | none => exact ⟨rfl, rfl, hvalid rfl⟩
  | some best => exact ⟨rfl, rfl, hvalid rfl⟩

omit [ScriptEngine] [BlockFiles] in
theorem loadBlockIndexDB_noneFailed {db : BlockTreeDB} {coinsDB : CoinsView} :
    NoneFailed (loadBlockIndexDB db coinsDB) := by
  obtain ⟨hdata, -, hcand⟩ := loadBlockIndexDB_fields db coinsDB
  intro q hq
  have := hcand q hq
  rw [isCandidate, Bool.and_eq_true, Bool.not_eq_true'] at this
  rw [failed, hdata, this.2]

theorem step_noneFailed {o : NodeOp} (hs : MainChain s) (hnone : NoneFailed s)
    (h : s.step o = some s') : NoneFailed s' := by
  cases stepped_of_step h with
  | loadBlockIndexDB tree best => exact loadBlockIndexDB_noneFailed
  | addToBlockIndex prev call =>
    rcases addToBlockIndex_cases call with ⟨e, rfl⟩ | ⟨hnew, ⟨e, rfl⟩ | ⟨s1, r1, h1, hres⟩⟩
    · exact hnone
    · exact hnone.insertIndex
    · have hs1 := connectBestBlock_noneFailed (hs.insertIndex_newIndex prev hnew)
        hnone.insertIndex h1
      rcases hres with rfl | ⟨e, rfl⟩
      · exact hs1
      · exact hs1
  | invalidBlockFound mem call =>
    obtain ⟨s1, h1, hres⟩ := invalidBlockFound_cases call
    have hmarked := unmoved_setFailedValid.trans (invalidChainFound_unmoved h1)
    rcases hres with rfl | ⟨r, hbest⟩
    · exact hnone.of_unmoved hmarked
    · exact connectBestBlock_noneFailed (hs.of_unmoved hmarked) (hnone.of_unmoved hmarked) hbest
  | connectBestBlock call => exact connectBestBlock_noneFailed hs hnone call
  | @setBestChain _ _ _ _ r mem running call =>
    cases r with
    | error e => exact hnone.of_unmoved (setBestChain_unmoved hs running mem call).1
    | ok u => exact hnone.of_moved (setBestChain_moved hs running mem call)
  | findBlockByHeight call =>
    rw [findBlockByHeight_frame call]
    exact hnone
  | acceptToMemoryPool call =>
    rw [(acceptToMemoryPool_poolOnly call).frame]
    exact hnone

/-- What keeps flags off the active chain: no block of it is marked as invalid, and the databases
hold no such chain. A direct call of `SetBestChain` must be for a chain without flags. -/
def KeepsActiveValid (s : NodeState) : NodeOp → Prop
  | .loadBlockIndexDB db coinsDB =>
    ∀ p ∈ chainOf coinsDB.getBestBlock, (db.data p).nStatus.failed = false
  | .invalidBlockFound _ _ pindex => pindex ∉ chainOf s.pindexBest
  | .setBestChain _ _ pindexNew => ∀ p ∈ pindexNew.chain, s.failed p = false
  | _ => True

theorem step_activeValid {o : NodeOp} (hkeeps : KeepsActiveValid s o) (hs : MainChain s)
    (hvalid : ActiveValid s) (h : s.step o = some s') : ActiveValid s' := by
  cases stepped_of_step h with
  | @loadBlockIndexDB db coinsDB tree best =>
    obtain ⟨hdata, hbest, -⟩ := loadBlockIndexDB_fields db coinsDB
    intro p hp
    rw [hbest] at hp
    rw [failed, hdata]
    exact hkeeps p hp
  | @addToBlockIndex _ _ header _ _ prev call =>
    rcases addToBlockIndex_cases call with ⟨e, rfl⟩ | ⟨hnew, hcases⟩
    · exact hvalid
    · have hinsert : ActiveValid (s.insertIndex (s.newIndex header)) :=
        hvalid.insertIndex hs (newIndex_hash ▸ findIndex_none hnew)
      rcases hcases with ⟨e, rfl⟩ | ⟨s1, r1, h1, hres⟩
      · exact hinsert
      · have hs1 := connectBestBlock_activeValid (hs.insertIndex_newIndex prev hnew) hinsert h1
        rcases hres with rfl | ⟨e, rfl⟩
        · exact hs1
        · exact hs1
  | @invalidBlockFound _ _ pindex _ mem call =>
    have hnext : s.pnext pindex = none := by
      rw [← Option.not_isSome_iff_eq_none]
      intro hsome
      exact hkeeps (hs.isInMainChain_iff.mp (by rw [isInMainChain, hsome, Bool.true_or]))
    obtain ⟨hunmoved, hflags⟩ := invalidBlockFound_spec hnext call
    exact hunmoved.activeValid hvalid fun p hp => hflags p fun heq => hkeeps (heq ▸ hp)
  | connectBestBlock call => exact connectBestBlock_activeValid hs hvalid call
  | @setBestChain _ _ _ _ r mem running call =>
    cases r with
    | error e =>
      obtain ⟨hunmoved, hflags⟩ := setBestChain_unmoved hs running mem call
      exact hunmoved.activeValid hvalid hflags
    | ok u => exact ActiveValid.of_moved (setBestChain_moved hs running mem call) hkeeps
  | findBlockByHeight call =>
    rw [findBlockByHeight_frame call]
    exact hvalid
  | acceptToMemoryPool call =>
    rw [(acceptToMemoryPool_poolOnly call).frame]
    exact hvalid

theorem noneFailed_of_run {ops : List NodeOp} (h : Run.run step init ops = some s) :
    NoneFailed s := by
  refine (Run.run_invariant (P := fun s => MainChain s ∧ NoneFailed s)
    (fun s o _ s' hs h1 => ⟨step_mainChain hs.1 h1, step_noneFailed hs.1 hs.2 h1⟩)
    ⟨mainChain_init, ?_⟩ h).2
  rintro p ⟨⟩

theorem activeValid_of_run {ops : List NodeOp} (hmeets : Run.Meets KeepsActiveValid step init ops)
    (h : Run.run step init ops = some s) : ActiveValid s := by
  refine (Run.run_invariant_of_meets (P := fun s => MainChain s ∧ ActiveValid s)
    (fun s o s' hc hs h1 => ⟨step_mainChain hs.1 h1, step_activeValid hc hs.1 hs.2 h1⟩) hmeets
    ⟨mainChain_init, ?_⟩ h).2
  rintro p ⟨⟩

/-- In every state that a run reaches, `ConnectBestBlock` ends, as do the functions that call it, no
entry of `setBlockIndexValid` has a flag, and after a successful call, with no shutdown requested, none of them has more work than the
best block. If moreover no step of the run marks a block of the active chain, no block of the active
chain has a flag after the call. -/
theorem connectBestBlock_spec {ops : List NodeOp} (h : Run.run step init ops = some s)
    (hmeets : Run.Meets KeepsActiveValid step init ops) :
    (∀ env fuel, s.setBlockIndexValid.length < fuel →
      connectBestBlock env fuel s ≠ .error .outOfFuel) ∧
    (∀ env fuel header, (s.findIndex header.hashPrevBlock).isSome ∨
      header.getHash = hashGenesisBlock → s.setBlockIndexValid.length + 1 < fuel →
      s.addToBlockIndex env fuel header ≠ .error .outOfFuel) ∧
    (∀ env fuel pindex, s.setBlockIndexValid.length < fuel →
      s.invalidBlockFound (fun s => (connectBestBlock env fuel s).map Prod.fst) pindex ≠
        .error .outOfFuel) ∧
    (∀ p ∈ s.setBlockIndexValid, s.failed p = false) ∧
    ∀ env fuel s', connectBestBlock env fuel s = .ok (s', .ok ()) → s'.fRequestShutdown = false →
      (∀ p ∈ s'.setBlockIndexValid, (∀ a ∈ p.chain, s'.failed a = false) →
        ∃ best, s'.pindexBest = some best ∧ p.bnChainWork ≤ best.bnChainWork) ∧
      ∀ p ∈ chainOf s'.pindexBest, s'.failed p = false := by
  have hs := mainChain_of_run h
  have hnone := noneFailed_of_run h
  refine ⟨fun env fuel hfuel => connectBestBlock_avoids hs hnone hfuel,
    fun env fuel header hprev hfuel => addToBlockIndex_avoids hs hnone hprev hfuel,
    fun env fuel pindex hfuel => invalidBlockFound_avoids hs hnone hfuel, hnone, ?_⟩
  intro env fuel s' hcall hrun
  refine ⟨fun p hp _ => connectBestBlock_maximal hs hcall hrun p hp, ?_⟩
  exact connectBestBlock_activeValid hs (activeValid_of_run hmeets h) hcall

end NodeState

namespace Sample

theorem connectBestBlock_spec_sample :
    Run.run NodeState.step .init [.loadBlockIndexDB forkDB forkCoins] =
        some (NodeState.loadBlockIndexDB forkDB forkCoins) ∧
      (∀ env fuel, 3 < fuel → NodeState.connectBestBlock env fuel
        (NodeState.loadBlockIndexDB forkDB forkCoins) ≠ .error .outOfFuel) := by
  have hload : Run.run NodeState.step .init [.loadBlockIndexDB forkDB forkCoins] =
      some (NodeState.loadBlockIndexDB forkDB forkCoins) := by
    rw [Run.run, NodeState.step, if_pos (by decide +kernel)]
    rfl
  have hmeets : Run.Meets NodeState.KeepsActiveValid NodeState.step .init
      [.loadBlockIndexDB forkDB forkCoins] := ⟨fun _ _ => rfl, fun _ _ => trivial⟩
  refine ⟨hload, fun env fuel hfuel => (NodeState.connectBestBlock_spec hload hmeets).1 env fuel ?_⟩
  exact (show (NodeState.loadBlockIndexDB forkDB forkCoins).setBlockIndexValid.length ≤ 3 by
    decide +kernel).trans_lt hfuel

def addEnv : NodeState.AddEnv := ⟨true, true, bestEnv⟩

/-- A node with a chain of two blocks, the lower of which turns out to be invalid. -/
def failedRun : List NodeOp :=
  [.addToBlockIndex addEnv 5 (header 0 0), .addToBlockIndex addEnv 5 (nextHeader 1),
    .invalidBlockFound bestEnv 5 genesis]

/-- The node does not reorganise away from the failed block: `ConnectBestBlock` returns `true` and
leaves it in the active chain. -/
theorem not_connectBestBlock_spec : ∃ s s', Run.run NodeState.step .init failedRun = some s ∧
    NodeState.connectBestBlock bestEnv 5 s = .ok (s', .ok ()) ∧ s'.fRequestShutdown = false ∧
    s'.pindexBest = some (next 1) ∧ genesis ∈ (next 1).chain ∧ s'.failed genesis = true := by
  have hrun : ((Run.run NodeState.step .init failedRun).any fun s =>
      (returned true (NodeState.connectBestBlock bestEnv 5 s)).any fun s' =>
        !s'.fRequestShutdown && s'.pindexBest == some (next 1) && s'.failed genesis) = true := by
    decide +kernel
  obtain ⟨s, hs, hcall⟩ := (Option.any_eq_true _ _).mp hrun
  obtain ⟨s', hreturned, hstate⟩ := (Option.any_eq_true _ _).mp hcall
  simp only [Bool.and_eq_true, Bool.not_eq_true', beq_iff_eq] at hstate
  exact ⟨s, s', hs, returned_true hreturned, hstate.1.1, hstate.1.2, by decide +kernel, hstate.2⟩

end Sample

end Terracoin
