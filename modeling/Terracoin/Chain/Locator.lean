import Terracoin.Chain.ActiveChain

/-!
# Block locators

A `CBlockLocator` describes a place in the block tree by the hashes of blocks below it: the first
ones one by one, then at steps that double, and the genesis block at the end. Its writer `Set`
doubles by the length of the list and its reader `GetDistanceBack` by the distance, and both are
always at the depth `locatorDepth n` after `n` hashes. A reader with another main chain finds a
common block that is at most twice as deep as the fork (`locator_spec`).
-/

namespace Terracoin

open CBlockIndex NodeState

/-- `for (int i = 0; pindex && i < nStep; i++) pindex = pindex->pprev;` -/
def stepBack : Nat → Option CBlockIndex → Option CBlockIndex
  | 0, pindex => pindex
  | _ + 1, none => none
  | nStep + 1, some pindex => stepBack nStep pindex.pprev

section

variable [Hashing]

/-- The loop of `CBlockLocator::Set`. Every round goes back at least one block, so the height is
enough fuel. -/
def setLoop : Nat → List uint256 → Nat → Option CBlockIndex → List uint256
  | 0, vHave, _, _ => vHave
  | _ + 1, vHave, _, none => vHave
  | fuel + 1, vHave, nStep, some pindex =>
    let vHave := vHave ++ [pindex.getBlockHash]
    -- Exponentially larger steps back
    let pprev := stepBack nStep (some pindex)
    setLoop fuel vHave (if 10 < vHave.length then nStep * 2 else nStep) pprev

/-- `CBlockLocator::Set`: the hashes in `vHave`. -/
def locator [NodeConfig] (pindex : Option CBlockIndex) : List uint256 :=
  setLoop (pindex.elim 0 fun p => p.nHeight + 1) [] 1 pindex ++ [hashGenesisBlock]

namespace NodeState

def findInMainChain (s : NodeState) (hash : uint256) : Option CBlockIndex :=
  (s.findIndex hash).filter fun pindex => s.isInMainChain pindex

def distanceBackLoop (s : NodeState) : List uint256 → Nat → Nat → Nat
  | [], nDistance, _ => nDistance
  | hash :: vHave, nDistance, nStep =>
    if (s.findInMainChain hash).isSome then nDistance
    else
      let nDistance := nDistance + nStep
      s.distanceBackLoop vHave nDistance (if 10 < nDistance then nStep * 2 else nStep)

def getDistanceBack (s : NodeState) (vHave : List uint256) : Nat := s.distanceBackLoop vHave 0 1

def getBlockIndex (s : NodeState) (vHave : List uint256) : Option CBlockIndex :=
  (vHave.findSome? s.findInMainChain).or s.pindexGenesisBlock

end NodeState

end

/-! ## Depths -/

/-- The depth of the block after `n` others in a locator. -/
def locatorDepth (n : Nat) : Nat := if n ≤ 10 then n else 9 + 2 ^ (n - 10)

def locatorStep (n : Nat) : Nat := if n ≤ 10 then 1 else 2 ^ (n - 10)

theorem locatorStep_pos (n : Nat) : 0 < locatorStep n := by
  rw [locatorStep]
  split
  · exact Nat.one_pos
  · exact Nat.two_pow_pos _

theorem two_pow_sub_ten {n : Nat} (h : 10 < n) : 2 ^ (n - 10) = 2 ^ (n - 1 - 10) * 2 := by
  obtain ⟨m, rfl⟩ : ∃ m, n = m + 11 := ⟨n - 11, by omega⟩
  rw [show m + 11 - 10 = m + 1 by omega, show m + 11 - 1 - 10 = m by omega, pow_succ]

theorem locatorDepth_succ (n : Nat) : locatorDepth (n + 1) = locatorDepth n + locatorStep n := by
  simp only [locatorDepth, locatorStep]
  rcases Nat.lt_trichotomy n 10 with hlt | rfl | hgt
  · rw [if_pos (by omega), if_pos (by omega), if_pos (by omega)]
  · rfl
  · rw [if_neg (by omega), if_neg (by omega), if_neg (by omega), two_pow_sub_ten (by omega),
      Nat.add_sub_cancel]
    omega

theorem locatorStep_succ (n : Nat) :
    locatorStep (n + 1) = if 10 < n + 1 then locatorStep n * 2 else locatorStep n := by
  simp only [locatorStep]
  rcases Nat.lt_trichotomy n 10 with hlt | rfl | hgt
  · rw [if_pos (by omega), if_neg (by omega), if_pos (by omega)]
  · rfl
  · rw [if_neg (by omega), if_pos (by omega), if_neg (by omega), two_pow_sub_ten (by omega),
      Nat.add_sub_cancel]

theorem ten_lt_locatorDepth (n : Nat) : 10 < locatorDepth n ↔ 10 < n := by
  have hpos := Nat.two_pow_pos (n - 10)
  rw [locatorDepth]
  split
  · omega
  · have hpow := two_pow_sub_ten (n := n) (by omega)
    have hpos' := Nat.two_pow_pos (n - 1 - 10)
    omega

/-- The first depth that is not above a fork is at most twice as deep. -/
theorem locatorDepth_le {d n : Nat} (hn : n = 0 ∨ locatorDepth (n - 1) < d) :
    locatorDepth n ≤ 2 * d := by
  rcases hn with rfl | hlt
  · exact Nat.zero_le _
  · simp only [locatorDepth] at hlt ⊢
    by_cases h : n ≤ 10
    · rw [if_pos (by omega)] at hlt
      rw [if_pos h]
      omega
    · rw [if_neg h, two_pow_sub_ten (by omega)]
      split at hlt
      · obtain rfl : n = 11 := by omega
        omega
      · omega

theorem le_of_locatorDepth_le {n h : Nat} (hn : locatorDepth n ≤ h) : n ≤ 11 + Nat.log2 (h + 1) := by
  rw [locatorDepth] at hn
  split at hn
  · omega
  · have hlog : n - 10 ≤ Nat.log2 (h + 1) := (Nat.le_log2 (by omega)).mpr (by omega)
    omega

/-! ## The blocks of a locator -/

/-- The blocks whose hashes `Set` lists after `n` others. -/
def locatorBlocks : Nat → Nat → Option CBlockIndex → List CBlockIndex
  | 0, _, _ => []
  | _ + 1, _, none => []
  | fuel + 1, n, some pindex =>
    pindex :: locatorBlocks fuel (n + 1) (stepBack (locatorStep n) (some pindex))

theorem setLoop_eq [Hashing] (fuel n : Nat) (vHave : List uint256) (hlen : vHave.length = n)
    (pindex : Option CBlockIndex) :
    setLoop fuel vHave (locatorStep n) pindex =
      vHave ++ (locatorBlocks fuel n pindex).map getBlockHash := by
  induction fuel generalizing n vHave pindex with
  | zero => exact (List.append_nil vHave).symm
  | succ fuel ih =>
    cases pindex with
    | none => exact (List.append_nil vHave).symm
    | some pindex =>
      have hlen' : (vHave ++ [pindex.getBlockHash]).length = n + 1 := by
        rw [List.length_append, hlen, List.length_singleton]
      rw [setLoop, locatorBlocks, List.map_cons, hlen', ← locatorStep_succ, ih (n + 1) _ hlen', List.append_assoc]
      rfl

/-- Going back some blocks leads to the ancestor that is as much lower, if there is one. -/
theorem stepBack_spec {nStep : Nat} {p q : CBlockIndex} (h : stepBack nStep (some p) = some q) :
    q ∈ p.chain ∧ q.nHeight + nStep = p.nHeight := by
  induction nStep generalizing p with
  | zero =>
    obtain rfl := Option.some.inj h
    exact ⟨self_mem_chain, rfl⟩
  | succ nStep ih =>
    rw [stepBack] at h
    cases hprev : p.pprev with
    | none =>
      rw [hprev] at h
      cases nStep <;> cases h
    | some p' =>
      rw [hprev] at h
      obtain ⟨hmem, hheight⟩ := ih h
      refine ⟨mem_chain_trans hmem (mem_chain_of_pprev hprev), ?_⟩
      rw [nHeight_of_pprev hprev, ← hheight, Nat.add_assoc]

/-- A block of the chain of `T`, at the depth after `n` others. -/
structure LocatorAt (T : CBlockIndex) (n : Nat) (p : CBlockIndex) : Prop where
  mem : p ∈ T.chain
  depth : p.nHeight + locatorDepth n = T.nHeight

theorem LocatorAt.next {T p q : CBlockIndex} {n : Nat} (h : LocatorAt T n p)
    (hq : stepBack (locatorStep n) (some p) = some q) : LocatorAt T (n + 1) q := by
  obtain ⟨hmem, hheight⟩ := stepBack_spec hq
  refine ⟨mem_chain_trans hmem h.mem, ?_⟩
  have := h.depth
  rw [locatorDepth_succ]
  omega

variable {T p : CBlockIndex}

/-- The blocks are listed from the tip down. -/
theorem locatorBlocks_spec {fuel n : Nat} {pindex : Option CBlockIndex}
    (h : ∀ p ∈ pindex, LocatorAt T n p) :
    (∀ p ∈ locatorBlocks fuel n pindex, p ∈ T.chain ∧ p.nHeight + locatorDepth n ≤ T.nHeight) ∧
      (locatorBlocks fuel n pindex).Pairwise fun p q => q.nHeight < p.nHeight := by
  induction fuel generalizing n pindex with
  | zero => exact ⟨nofun, .nil⟩
  | succ fuel ih =>
    cases pindex with
    | none => exact ⟨nofun, .nil⟩
    | some p =>
      have hp := h p rfl
      obtain ⟨hall, hpairs⟩ := ih fun q hq => hp.next hq
      rw [locatorDepth_succ] at hall
      have hpos := locatorStep_pos n
      rw [locatorBlocks]
      refine ⟨List.forall_mem_cons.mpr ⟨⟨hp.mem, hp.depth.le⟩, fun q hq => ?_⟩,
        List.pairwise_cons.mpr ⟨fun q hq => ?_, hpairs⟩⟩
      · have := hall q hq
        exact ⟨this.1, by omega⟩
      · have := (hall q hq).2
        have := hp.depth
        omega

theorem length_locatorBlocks {fuel n : Nat} {pindex : Option CBlockIndex}
    (h : ∀ p ∈ pindex, LocatorAt T n p) :
    locatorBlocks fuel n pindex = [] ∨
      locatorDepth (n + (locatorBlocks fuel n pindex).length - 1) ≤ T.nHeight := by
  induction fuel generalizing n pindex with
  | zero => exact .inl rfl
  | succ fuel ih =>
    cases pindex with
    | none => exact .inl rfl
    | some p =>
      have hp := h p rfl
      right
      rw [locatorBlocks, List.length_cons]
      rcases ih fun q hq => hp.next hq with hnil | hle
      · rw [hnil]
        exact (Nat.le_add_left _ _).trans hp.depth.le
      · rwa [Nat.add_right_comm] at hle

/-! ## Reading a locator -/

section

variable [Hashing] [NodeConfig] {entries : List CBlockIndex} {s : NodeState} {best fork : CBlockIndex}

/-- Both chains are in one block tree, and the second one is the main chain. -/
structure ReadsLocator (entries : List CBlockIndex) (s : NodeState) (T best : CBlockIndex) : Prop where
  tree : BlockTree entries
  tip : T ∈ entries
  known : ∀ p ∈ s.mapBlockIndex, p ∈ entries
  main : MainChain s
  best : s.pindexBest = some best

theorem ReadsLocator.findInMainChain (h : ReadsLocator entries s T best) (hp : p ∈ entries) :
    s.findInMainChain p.getBlockHash = if p ∈ best.chain then some p else none := by
  have hmain : s.isInMainChain p = true ↔ p ∈ best.chain := by
    rw [h.main.isInMainChain_iff, h.best, chainOf_some]
  have hsame : ∀ q, s.findIndex p.getBlockHash = some q → q = p := by
    intro q hq
    obtain ⟨hmem, hhash⟩ := findIndex_some hq
    exact h.tree.eq_of_hash (h.known q hmem) hp hhash
  rw [NodeState.findInMainChain]
  cases hfind : s.findIndex p.getBlockHash with
  | none =>
    rw [if_neg fun hin => ?_]
    · rfl
    · have hmem := h.main.tree.mem_of_mem_chain (h.main.known best h.best) hin
      exact findIndex_none hfind p hmem rfl
  | some q =>
    obtain rfl := hsame q hfind
    rw [Option.filter_some]
    by_cases hin : q ∈ best.chain
    · rw [if_pos hin, if_pos (hmain.mpr hin)]
    · rw [if_neg hin, if_neg (mt hmain.mp hin)]

/-- `fork` is the last common block of the two chains. -/
structure LastCommon (T best fork : CBlockIndex) : Prop where
  mem_left : fork ∈ T.chain
  mem_right : fork ∈ best.chain
  last : ∀ p ∈ T.chain, p ∈ best.chain → p ∈ fork.chain

omit [Hashing] [NodeConfig] in
theorem LastCommon.mem_iff (h : LastCommon T best fork) (hp : p ∈ T.chain) :
    p ∈ best.chain ↔ p.nHeight ≤ fork.nHeight :=
  ⟨fun hin => nHeight_le_of_mem_chain (h.last p hp hin),
    fun hle => mem_chain_trans (mem_chain_of_nHeight_le hp h.mem_left hle) h.mem_right⟩

/-- A common block that is at most twice as deep as the fork. -/
structure NearFork (T best fork p : CBlockIndex) : Prop where
  mem_left : p ∈ T.chain
  mem_right : p ∈ best.chain
  above : T.nHeight - fork.nHeight ≤ T.nHeight - p.nHeight
  below : T.nHeight - p.nHeight ≤ 2 * (T.nHeight - fork.nHeight)

/-- Either a listed block is found, or all are above the fork. -/
theorem ReadsLocator.search (h : ReadsLocator entries s T best) (hfork : LastCommon T best fork) {fuel n : Nat}
    {pindex : Option CBlockIndex} (hat : ∀ p ∈ pindex, LocatorAt T n p)
    (hn : n = 0 ∨ locatorDepth (n - 1) < T.nHeight - fork.nHeight) (rest : List uint256) :
    (∃ p ∈ locatorBlocks fuel n pindex, NearFork T best fork p ∧
      ((locatorBlocks fuel n pindex).map getBlockHash ++ rest).findSome? s.findInMainChain = some p ∧
      s.distanceBackLoop ((locatorBlocks fuel n pindex).map getBlockHash ++ rest) (locatorDepth n)
        (locatorStep n) = T.nHeight - p.nHeight) ∨
    (∀ p ∈ locatorBlocks fuel n pindex, p ∉ best.chain) ∧
      ((locatorBlocks fuel n pindex).map getBlockHash ++ rest).findSome? s.findInMainChain =
        rest.findSome? s.findInMainChain := by
  induction fuel generalizing n pindex with
  | zero => exact .inr ⟨nofun, rfl⟩
  | succ fuel ih =>
    cases pindex with
    | none => exact .inr ⟨nofun, rfl⟩
    | some p =>
      have hp := hat p rfl
      have hdepth := hp.depth
      have hlow := nHeight_le_of_mem_chain hfork.mem_left
      have hfind := h.findInMainChain (h.tree.mem_of_mem_chain h.tip hp.mem)
      rw [locatorBlocks, List.map_cons, List.cons_append, List.findSome?_cons, distanceBackLoop]
      by_cases hin : p ∈ best.chain
      · have hle := (hfork.mem_iff hp.mem).mp hin
        have hbelow := locatorDepth_le hn
        rw [if_pos hin] at hfind
        refine .inl ⟨p, List.mem_cons_self, ⟨hp.mem, hin, by omega, by omega⟩, ?_, ?_⟩
        · rw [hfind]
        · rw [hfind, Option.isSome_some, if_pos rfl]
          omega
      · have hlt : fork.nHeight < p.nHeight :=
          Nat.lt_of_not_le fun hle => hin ((hfork.mem_iff hp.mem).mpr hle)
        rw [if_neg hin] at hfind
        rw [hfind, Option.isSome_none, if_neg Bool.false_ne_true]
        dsimp only
        rw [← locatorDepth_succ, ite_congr (propext (ten_lt_locatorDepth (n + 1))) (fun _ => rfl)
          fun _ => rfl, ← locatorStep_succ]
        rcases ih (fun q hq => hp.next hq) (.inr (by rw [Nat.add_sub_cancel]; omega)) with
          ⟨q, hq, hfound⟩ | ⟨hnone, hrest⟩
        · exact .inl ⟨q, List.mem_cons_of_mem p hq, hfound⟩
        · exact .inr ⟨List.forall_mem_cons.mpr ⟨hin, hnone⟩, hrest⟩

/-- A locator lists blocks from its tip down, at growing depths, and then the genesis block, in
logarithmic length. A reader finds a common block of the two chains in it that is at most twice as
deep as the last one, or the genesis block, and knows its depth unless it found the last entry. -/
theorem locator_spec (T : CBlockIndex) :
    ∃ blocks : List CBlockIndex,
      locator (some T) = blocks.map getBlockHash ++ [hashGenesisBlock] ∧
      blocks.head? = some T ∧ (∀ p ∈ blocks, p ∈ T.chain) ∧
      blocks.Pairwise (fun p q => q.nHeight < p.nHeight) ∧
      (locator (some T)).length ≤ 13 + Nat.log2 (T.nHeight + 1) ∧
      ∀ (entries : List CBlockIndex) (s : NodeState) (best fork : CBlockIndex),
        ReadsLocator entries s T best → LastCommon T best fork →
        ∃ p, s.getBlockIndex (locator (some T)) = some p ∧ p ∈ T.chain ∧ p ∈ best.chain ∧
          T.nHeight - fork.nHeight ≤ T.nHeight - p.nHeight ∧
          (T.nHeight - p.nHeight ≤ 2 * (T.nHeight - fork.nHeight) ∨
            p.getBlockHash = hashGenesisBlock) ∧
          ((∃ q ∈ blocks, q ∈ best.chain) →
            s.getDistanceBack (locator (some T)) = T.nHeight - p.nHeight) := by
  have hat : ∀ p ∈ some T, LocatorAt T 0 p := by
    rintro p hp
    obtain rfl := Option.some.inj hp
    exact ⟨self_mem_chain, rfl⟩
  have heq : locator (some T) =
      (locatorBlocks (T.nHeight + 1) 0 (some T)).map getBlockHash ++ [hashGenesisBlock] := by
    rw [locator]
    exact congrArg (· ++ [hashGenesisBlock]) (setLoop_eq (T.nHeight + 1) 0 [] rfl (some T))
  obtain ⟨hchain, hpairs⟩ := @locatorBlocks_spec T (T.nHeight + 1) 0 _ hat
  refine ⟨locatorBlocks (T.nHeight + 1) 0 (some T), heq, rfl, fun p hp => (hchain p hp).1, hpairs,
    ?_, ?_⟩
  · rw [heq, List.length_append, List.length_map, List.length_singleton]
    rcases @length_locatorBlocks T (T.nHeight + 1) 0 _ hat with hnil | hle
    · rw [hnil]
      exact (by decide : 1 ≤ 13).trans (Nat.le_add_right _ _)
    · have := le_of_locatorDepth_le hle
      omega
  · intro entries s best fork h hfork
    rw [heq, getBlockIndex, getDistanceBack]
    rcases h.search hfork hat (.inl rfl) [hashGenesisBlock] with
      ⟨p, -, hnear, hfind, hback⟩ | ⟨hnone, hfind⟩
    · refine ⟨p, ?_, hnear.mem_left, hnear.mem_right, hnear.above, .inl hnear.below, fun _ => hback⟩
      rw [hfind]
      rfl
    · have hbest : best ∈ entries := h.known best (h.main.known best h.best)
      have hbase := h.findInMainChain (h.tree.mem_of_mem_chain hbest base_mem_chain)
      rw [h.tree.base_hash hbest, if_pos base_mem_chain] at hbase
      refine ⟨best.base, ?_, ?_, base_mem_chain, ?_, .inr (h.tree.base_hash hbest), ?_⟩
      · rw [hfind, List.findSome?_cons, hbase]
        rfl
      · rw [← h.tree.base_eq h.tip hbest]
        exact base_mem_chain
      · rw [base_nHeight]
        omega
      · rintro ⟨q, hq, hin⟩
        exact absurd hin (hnone q hq)

end

namespace Sample

/-- A locator of one branch of the fork, read where the other one is the main chain. -/
theorem locator_spec_sample : ∃ s, Run.run NodeState.step .init forkRun = some s ∧
    ∃ p, s.getBlockIndex (locator (some (next 1))) = some p ∧ p ∈ (next 2).chain ∧
      (next 1).nHeight - p.nHeight = 1 := by
  have hrun : ((Run.run NodeState.step .init forkRun).any fun s =>
      s.pindexBest == some (next 2) && s.mapBlockIndex == forkDB.entries) = true := by
    decide +kernel
  obtain ⟨s, hs, hstate⟩ := (Option.any_eq_true _ _).mp hrun
  rw [Bool.and_eq_true, beq_iff_eq, beq_iff_eq] at hstate
  have hmain := mainChain_of_run hs
  have hreader : ReadsLocator s.mapBlockIndex s (next 1) (next 2) :=
    ⟨hmain.tree, by rw [hstate.2]; decide, fun p hp => hp, hmain, hstate.1⟩
  have hfork : LastCommon (next 1) (next 2) genesis := ⟨by decide, by decide, by decide⟩
  obtain ⟨blocks, -, -, -, -, -, hread⟩ := locator_spec (next 1)
  obtain ⟨p, hp, hmem, hbest, habove, -⟩ := hread s.mapBlockIndex s (next 2) genesis hreader hfork
  have hheight : (next 1).nHeight - genesis.nHeight = 1 := rfl
  have htip : (next 1).nHeight = 1 := rfl
  exact ⟨s, hs, p, hp, hbest, by omega⟩

end Sample

end Terracoin
