import Terracoin.Chain.Locator
import Terracoin.Net.InventoryRelay

/-!
# Serving the main chain

A peer asks for blocks with a locator of its own tip. The handlers of `getblocks` and `getheaders`
find a block of the main chain in it and follow `pnext` from there, to the block `hashStop` or to a
limit. The answer is a stretch of the main chain without a gap (`getBlocks_spec`,
`getHeaders_spec`). A peer that asks again from the last block it was offered gets the main chain
above a common block, every block once and in order, however far its own tip is off (`fetch_spec`).
-/

namespace Terracoin

open CBlockIndex NodeState

/-! ## The handlers -/

/-- What the handlers keep for a peer. -/
structure SyncPeer where
  inventory : PeerInventory
  hashContinue : uint256

section

variable [Hashing]

namespace NodeState

/-- The loop of the `getblocks` handler: the hashes that it pushes, and the one that it leaves in
`hashContinue` at the limit. -/
def getBlocksLoop (s : NodeState) (hashStop : uint256) :
    Nat → Option CBlockIndex → List uint256 × Option uint256
  | 0, _ => ([], none)
  | _ + 1, none => ([], none)
  | nLimit + 1, some pindex =>
    if pindex.getBlockHash = hashStop then ([], none)
    else if nLimit = 0 then ([pindex.getBlockHash], some pindex.getBlockHash)
    else
      let (hashes, hashContinue) := s.getBlocksLoop hashStop nLimit (s.pnext pindex)
      (pindex.getBlockHash :: hashes, hashContinue)

/-- The last block the caller has in the main chain, and the one after it. -/
def nextOf (s : NodeState) (vHave : List uint256) : Option CBlockIndex :=
  (s.getBlockIndex vHave).bind s.pnext

/-- The handler of `getblocks`. -/
def getBlocks (s : NodeState) (pfrom : SyncPeer) (vHave : List uint256) (hashStop : uint256) :
    SyncPeer :=
  let (hashes, hashContinue) := s.getBlocksLoop hashStop 500 (s.nextOf vHave)
  { inventory := hashes.foldl (fun inventory hash => inventory.pushInventory ⟨MSG_BLOCK, hash⟩)
      pfrom.inventory
    hashContinue := hashContinue.getD pfrom.hashContinue }

/-- The loop of the `getheaders` handler. -/
def getHeadersLoop (s : NodeState) (hashStop : uint256) : Nat → Option CBlockIndex → List CBlockHeader
  | 0, _ => []
  | _ + 1, none => []
  | nLimit + 1, some pindex =>
    pindex.header ::
      if nLimit = 0 ∨ pindex.getBlockHash = hashStop then []
      else s.getHeadersLoop hashStop nLimit (s.pnext pindex)

/-- The handler of `getheaders`, and the headers that it sends if it answers. -/
def getHeaders (s : NodeState) (vHave : List uint256) (hashStop : uint256) :
    Option (List CBlockHeader) :=
  if vHave.isEmpty then
    (s.findIndex hashStop).map fun pindex => s.getHeadersLoop hashStop 2000 (some pindex)
  else some (s.getHeadersLoop hashStop 2000 (s.nextOf vHave))

end NodeState

/-! ## The main chain above a block -/

/-- The blocks of the chain of `best` above `p`, from the lowest. -/
def CBlockIndex.above (p best : CBlockIndex) : List CBlockIndex := (pathTo (some p) best).reverse

namespace CBlockIndex

variable {a p q best : CBlockIndex}

omit [Hashing]

theorem above_self : above p p = [] := by rw [above, pathTo_eq_nil, List.reverse_nil]

theorem above_eq_cons (hq : q ∈ best.chain) (hprev : q.pprev = some p) :
    above p best = q :: above q best := by
  have hpath : pathTo (some p) best = pathTo (some q) best ++ [q] := by
    induction best with
    | root h =>
      obtain rfl : q = root h := by simpa [chain] using hq
      cases hprev
    | child r h ih =>
      have hlt := nHeight_of_pprev hprev
      have hle := nHeight_le_of_mem_chain hq
      have hne : some p ≠ some (child r h) := by
        rintro ⟨⟩
        omega
      rw [pathTo_eq_cons hne]
      rcases mem_chain_child.mp hq with rfl | hq
      · obtain rfl := Option.some.inj hprev
        simp [pprev, pathTo_eq_nil]
      · have hne' : some q ≠ some (child r h) := by
          rintro ⟨⟩
          have := nHeight_le_of_mem_chain hq
          simp only [nHeight] at this
          omega
        rw [pathTo_eq_cons hne']
        simp [pprev, ih hq]
  rw [above, hpath, List.reverse_append]
  rfl

theorem mem_above (hp : p ∈ best.chain) : a ∈ above p best ↔ a ∈ best.chain ∧ a ∉ p.chain := by
  rw [above, List.mem_reverse, mem_pathTo hp]

theorem above_of_append (hp : p ∈ best.chain) {lower upper : List CBlockIndex}
    (h : above p best = lower ++ q :: upper) : above q best = upper := by
  induction lower generalizing p with
  | nil =>
    by_cases hbest : p = best
    · rw [hbest, above_self] at h
      cases h
    · obtain ⟨r, hr, hprev⟩ := exists_next hp hbest
      rw [above_eq_cons hr hprev] at h
      obtain ⟨rfl, hupper⟩ := List.cons.inj h
      exact hupper
  | cons r lower ih =>
    by_cases hbest : p = best
    · rw [hbest, above_self] at h
      cases h
    · obtain ⟨r', hr, hprev⟩ := exists_next hp hbest
      rw [above_eq_cons hr hprev] at h
      exact ih hr (List.cons.inj h).2

theorem above_pairwise (hp : p ∈ best.chain) :
    (above p best).Pairwise fun a b => a.nHeight < b.nHeight := by
  induction hn : best.nHeight - p.nHeight generalizing p with
  | zero =>
    obtain rfl := eq_of_mem_chain hp (Nat.le_of_sub_eq_zero hn)
    rw [above_self]
    exact List.Pairwise.nil
  | succ n ih =>
    have hne : p ≠ best := by
      rintro rfl
      omega
    obtain ⟨q, hq, hprev⟩ := exists_next hp hne
    have hheight := nHeight_of_pprev hprev
    rw [above_eq_cons hq hprev, List.pairwise_cons]
    refine ⟨fun a ha => ?_, ih hq (by omega)⟩
    obtain ⟨hchain, hnot⟩ := (mem_above hq).mp ha
    apply Nat.lt_of_not_le
    exact fun hle => hnot (mem_chain_of_nHeight_le hchain hq hle)

theorem length_above (hp : p ∈ best.chain) : (above p best).length = best.nHeight - p.nHeight := by
  induction hn : best.nHeight - p.nHeight generalizing p with
  | zero =>
    obtain rfl := eq_of_mem_chain hp (Nat.le_of_sub_eq_zero hn)
    rw [above_self]
    rfl
  | succ n ih =>
    have hne : p ≠ best := by
      rintro rfl
      omega
    obtain ⟨q, hq, hprev⟩ := exists_next hp hne
    have hheight := nHeight_of_pprev hprev
    rw [above_eq_cons hq hprev, List.length_cons, ih hq (by omega)]

end CBlockIndex

/-! ## Following the links -/

namespace NodeState

variable {s : NodeState} {best p : CBlockIndex} {pindex : Option CBlockIndex}
  {blocks : List CBlockIndex} {hashStop : uint256}

/-- The links lead from the first block through the others to the end of the main chain. -/
inductive Follows (s : NodeState) : Option CBlockIndex → List CBlockIndex → Prop
  | nil : Follows s none []
  | cons {pindex : CBlockIndex} {blocks : List CBlockIndex} (next : Follows s (s.pnext pindex) blocks) :
      Follows s (some pindex) (pindex :: blocks)

theorem MainChain.follows_above [NodeConfig] (hs : MainChain s) (hbest : s.pindexBest = some best)
    (hp : p ∈ best.chain) : s.Follows (s.pnext p) (above p best) := by
  induction hn : best.nHeight - p.nHeight generalizing p with
  | zero =>
    obtain rfl := eq_of_mem_chain hp (Nat.le_of_sub_eq_zero hn)
    have hnone : s.pnext p = none := by
      cases hnext : s.pnext p with
      | none => rfl
      | some q =>
        obtain ⟨hq, hprev⟩ := (hs.pnext_iff p q).mp hnext
        rw [hbest, chainOf_some] at hq
        have hlt := nHeight_of_pprev hprev
        have hle := nHeight_le_of_mem_chain hq
        omega
    rw [hnone, above_self]
    exact .nil
  | succ n ih =>
    have hne : p ≠ best := by
      rintro rfl
      omega
    obtain ⟨q, hq, hprev⟩ := exists_next hp hne
    have hnext : s.pnext p = some q := by
      rw [hs.pnext_iff, hbest, chainOf_some]
      exact ⟨hq, hprev⟩
    have hheight := nHeight_of_pprev hprev
    rw [hnext, above_eq_cons hq hprev]
    exact .cons (ih hq (by omega))

/-- The blocks before `hashStop`. -/
def before (hashStop : uint256) (blocks : List CBlockIndex) : List CBlockIndex :=
  blocks.takeWhile fun p => p.getBlockHash ≠ hashStop

/-- The blocks up to `hashStop`. -/
def upTo (hashStop : uint256) : List CBlockIndex → List CBlockIndex
  | [] => []
  | p :: blocks => p :: if p.getBlockHash = hashStop then [] else upTo hashStop blocks

theorem getBlocksLoop_eq (hashStop : uint256) (h : s.Follows pindex blocks) {nLimit : Nat} (hlimit : 0 < nLimit) :
    s.getBlocksLoop hashStop nLimit pindex =
      (((before hashStop blocks).take nLimit).map getBlockHash,
        if nLimit ≤ (before hashStop blocks).length then
          ((before hashStop blocks)[nLimit - 1]?).map getBlockHash
        else none) := by
  induction h generalizing nLimit with
  | nil =>
    obtain ⟨n, rfl⟩ := Nat.exists_eq_succ_of_ne_zero hlimit.ne'
    simp [getBlocksLoop, before]
  | @cons p blocks next ih =>
    obtain ⟨n, rfl⟩ := Nat.exists_eq_succ_of_ne_zero hlimit.ne'
    rw [getBlocksLoop]
    by_cases hstop : p.getBlockHash = hashStop
    · simp [before, hstop]
    · have hbefore : before hashStop (p :: blocks) = p :: before hashStop blocks := by
        simp [before, hstop]
      rw [if_neg hstop, hbefore]
      cases n with
      | zero => simp
      | succ n =>
        rw [if_neg (Nat.succ_ne_zero n), ih (Nat.succ_pos n)]
        simp

theorem getHeadersLoop_eq (h : s.Follows pindex blocks) (nLimit : Nat) :
    s.getHeadersLoop hashStop nLimit pindex = ((upTo hashStop blocks).take nLimit).map header := by
  induction h generalizing nLimit with
  | nil => cases nLimit <;> simp [getHeadersLoop, upTo]
  | @cons p blocks next ih =>
    cases nLimit with
    | zero => rfl
    | succ n =>
      rw [getHeadersLoop, upTo, List.take_succ_cons, List.map_cons]
      by_cases hstop : p.getBlockHash = hashStop
      · simp [hstop]
      · cases n with
        | zero => simp
        | succ n => simp [hstop, ih]

end NodeState

/-! ## Reading the locator -/

section

variable [NodeConfig] {entries : List CBlockIndex} {s : NodeState} {T best fork p : CBlockIndex}

/-- A block of both chains, at most twice as deep as the fork, or the genesis block. -/
structure Common (T best fork p : CBlockIndex) : Prop where
  mem_left : p ∈ T.chain
  mem_right : p ∈ best.chain
  below : p ∈ fork.chain
  near : T.nHeight - p.nHeight ≤ 2 * (T.nHeight - fork.nHeight) ∨ p.getBlockHash = hashGenesisBlock

theorem locator_eq (T : CBlockIndex) : locator (some T) =
    (locatorBlocks (T.nHeight + 1) 0 (some T)).map getBlockHash ++ [hashGenesisBlock] := by
  rw [locator]
  exact congrArg (· ++ [hashGenesisBlock]) (setLoop_eq (T.nHeight + 1) 0 [] rfl (some T))

/-- The reader of a locator finds a common block. -/
theorem ReadsLocator.getBlockIndex_locator (h : ReadsLocator entries s T best)
    (hfork : LastCommon T best fork) :
    ∃ p, s.getBlockIndex (locator (some T)) = some p ∧ Common T best fork p := by
  have hat : ∀ p ∈ some T, LocatorAt T 0 p := by
    intro p hp
    obtain rfl := Option.some.inj hp
    exact ⟨self_mem_chain, rfl⟩
  rw [locator_eq, getBlockIndex]
  rcases h.search hfork hat (.inl rfl) [hashGenesisBlock] with
    ⟨p, -, hnear, hfind, -⟩ | ⟨-, hfind⟩
  · refine ⟨p, by rw [hfind]; rfl, hnear.mem_left, hnear.mem_right, ?_, .inl hnear.below⟩
    exact hfork.last p hnear.mem_left hnear.mem_right
  · have hbest : best ∈ entries := h.known best (h.main.known best h.best)
    have hbase := h.findInMainChain (h.tree.mem_of_mem_chain hbest base_mem_chain)
    rw [h.tree.base_hash hbest, if_pos base_mem_chain] at hbase
    have hleft : best.base ∈ T.chain := by
      rw [← h.tree.base_eq h.tip hbest]
      exact base_mem_chain
    refine ⟨best.base, ?_, hleft, base_mem_chain, hfork.last _ hleft base_mem_chain,
      .inr (h.tree.base_hash hbest)⟩
    rw [hfind, List.findSome?_cons, hbase]
    rfl

theorem ReadsLocator.getBlockIndex_self (h : ReadsLocator entries s T best) (hT : T ∈ best.chain) :
    s.getBlockIndex (locator (some T)) = some T := by
  have hself : s.findInMainChain T.getBlockHash = some T := by
    rw [h.findInMainChain h.tip, if_pos hT]
  rw [locator_eq, locatorBlocks, getBlockIndex, List.map_cons, List.cons_append,
    List.findSome?_cons, hself]
  rfl

theorem ReadsLocator.of_mem (h : ReadsLocator entries s T best) (hp : p ∈ best.chain) :
    ReadsLocator entries s p best :=
  ⟨h.tree, h.tree.mem_of_mem_chain (h.known best (h.main.known best h.best)) hp, h.known, h.main,
    h.best⟩

theorem ReadsLocator.follows (h : ReadsLocator entries s T best) (hp : p ∈ best.chain) :
    s.Follows (s.pnext p) (above p best) := h.main.follows_above h.best hp

/-- `getblocks` is answered with the hashes of the main chain above a common block, up to `hashStop`
or 500 of them; they are pushed as inventory, and the last one of a full answer is remembered. -/
theorem getBlocks_spec (h : ReadsLocator entries s T best) (hfork : LastCommon T best fork)
    (pfrom : SyncPeer) (hashStop : uint256) :
    ∃ p, Common T best fork p ∧
      (s.getBlocks pfrom (locator (some T)) hashStop).inventory =
        (((before hashStop (above p best)).take 500).map getBlockHash).foldl
          (fun inventory hash => inventory.pushInventory ⟨MSG_BLOCK, hash⟩) pfrom.inventory ∧
      (s.getBlocks pfrom (locator (some T)) hashStop).hashContinue =
        (if 500 ≤ (before hashStop (above p best)).length then
          ((before hashStop (above p best))[499]?).map getBlockHash else none).getD
          pfrom.hashContinue := by
  obtain ⟨p, hfind, hcommon⟩ := h.getBlockIndex_locator hfork
  have hnext : s.nextOf (locator (some T)) = s.pnext p := by rw [nextOf, hfind]; rfl
  have hloop := getBlocksLoop_eq hashStop (h.follows hcommon.mem_right) (show 0 < 500 by decide)
  refine ⟨p, hcommon, ?_, ?_⟩
  · rw [getBlocks, hnext, hloop]
  · rw [getBlocks, hnext, hloop]

/-- `getheaders` is answered with the headers of the main chain above a common block, up to 2000 or
through `hashStop`; without a locator, with the header of the block `hashStop` alone, on whatever
chain it is. -/
theorem getHeaders_spec (h : ReadsLocator entries s T best) (hfork : LastCommon T best fork)
    (hashStop : uint256) :
    (∃ p, Common T best fork p ∧ s.getHeaders (locator (some T)) hashStop =
      some (((upTo hashStop (above p best)).take 2000).map header)) ∧
      s.getHeaders [] hashStop = (s.findIndex hashStop).map fun pindex => [pindex.header] := by
  constructor
  · obtain ⟨p, hfind, hcommon⟩ := h.getBlockIndex_locator hfork
    have hnext : s.nextOf (locator (some T)) = s.pnext p := by rw [nextOf, hfind]; rfl
    have hempty : (locator (some T)).isEmpty = false := by rw [locator_eq]; simp
    refine ⟨p, hcommon, ?_⟩
    rw [getHeaders, hempty, if_neg Bool.false_ne_true, hnext,
      getHeadersLoop_eq (h.follows hcommon.mem_right)]
  · rw [getHeaders, List.isEmpty_nil, if_pos rfl]
    cases hfind : s.findIndex hashStop with
    | none => rfl
    | some pindex =>
      have hhash := (findIndex_some hfind).2
      rw [Option.map_some, Option.map_some, getHeadersLoop, if_pos (.inr hhash)]

/-! ## Asking again -/

/-- What a node with the tip `T` is offered in answer to `PushGetBlocks(T, 0)`. -/
def NodeState.offered (s : NodeState) (T : CBlockIndex) : List uint256 :=
  (s.getBlocksLoop 0 500 (s.nextOf (locator (some T)))).1

/-- The hashes that a node is offered when it asks again from the last block of each answer, which
`find` looks up in its own index. -/
def NodeState.fetch (s : NodeState) (find : uint256 → Option CBlockIndex) :
    Nat → CBlockIndex → List uint256
  | 0, _ => []
  | n + 1, T =>
    let hashes := s.offered T
    hashes ++ (hashes.getLast?.bind find).elim [] (s.fetch find n)

omit [NodeConfig] in
theorem before_eq_self {blocks : List CBlockIndex} {hashStop : uint256}
    (h : ∀ p ∈ blocks, p.getBlockHash ≠ hashStop) : before hashStop blocks = blocks := by
  rw [before, List.takeWhile_eq_self_iff]
  intro p hp
  exact decide_eq_true (h p hp)

theorem ReadsLocator.offered_eq (h : ReadsLocator entries s T best) (hp : p ∈ best.chain)
    (hfind : s.getBlockIndex (locator (some T)) = some p)
    (hzero : ∀ q ∈ best.chain, q.getBlockHash ≠ 0) :
    s.offered T = ((above p best).take 500).map getBlockHash := by
  have hnext : s.nextOf (locator (some T)) = s.pnext p := by rw [nextOf, hfind]; rfl
  rw [offered, hnext, getBlocksLoop_eq _ (h.follows hp) (by decide), before_eq_self]
  intro q hq
  exact hzero q ((mem_above hp).mp hq).1

/-- From a common block on, `n` answers are the first `500 * n` blocks above it. -/
theorem ReadsLocator.fetch_eq {find : uint256 → Option CBlockIndex}
    (h : ReadsLocator entries s T best) (hp : p ∈ best.chain)
    (hfind : s.getBlockIndex (locator (some T)) = some p)
    (hzero : ∀ q ∈ best.chain, q.getBlockHash ≠ 0)
    (hknown : ∀ q ∈ best.chain, find q.getBlockHash = some q) (n : Nat) :
    s.fetch find n T = ((above p best).take (500 * n)).map getBlockHash := by
  induction n generalizing T p with
  | zero => rfl
  | succ n ih =>
    rw [fetch, h.offered_eq hp hfind hzero, List.getLast?_map]
    rcases List.eq_nil_or_concat ((above p best).take 500) with hnil | ⟨lower, q, hlast⟩
    · have hempty : above p best = [] := by
        rcases List.take_eq_nil_iff.mp hnil with h500 | hempty
        · cases h500
        · exact hempty
      simp [hempty]
    · rw [List.concat_eq_append] at hlast
      have hsplit : above p best = lower ++ q :: (above p best).drop 500 := by
        conv_lhs => rw [← List.take_append_drop 500 (above p best), hlast]
        simp
      have hq : q ∈ best.chain := ((mem_above hp).mp (by rw [hsplit]; simp)).1
      have hrest := ih (h.of_mem hq) hq ((h.of_mem hq).getBlockIndex_self hq)
      rw [hlast, List.getLast?_concat, Option.map_some, Option.bind_some, hknown q hq]
      dsimp only [Option.elim_some]
      rw [hrest, above_of_append hp hsplit, ← List.map_append, ← hlast, Nat.mul_add, Nat.mul_one,
        Nat.add_comm, List.take_add]

/-- A node that asks again and again is offered the main chain above a common block, every block once
and in order; after as many answers as that takes, all of it, and with it every block of the main
chain that is not in its own. -/
theorem fetch_spec {find : uint256 → Option CBlockIndex} (h : ReadsLocator entries s T best)
    (hfork : LastCommon T best fork) (hzero : ∀ q ∈ best.chain, q.getBlockHash ≠ 0)
    (hknown : ∀ q ∈ best.chain, find q.getBlockHash = some q) :
    ∃ p, Common T best fork p ∧
      (∀ n, s.fetch find n T = ((above p best).take (500 * n)).map getBlockHash) ∧
      (∀ n, (s.fetch find n T).Nodup) ∧
      ∀ n, best.nHeight - p.nHeight ≤ 500 * n → ∀ q ∈ best.chain, q ∉ T.chain →
        q.getBlockHash ∈ s.fetch find n T := by
  obtain ⟨p, hfind, hcommon⟩ := h.getBlockIndex_locator hfork
  have hfetch := h.fetch_eq hcommon.mem_right hfind hzero hknown
  have hbest : best ∈ entries := h.known best (h.main.known best h.best)
  refine ⟨p, hcommon, hfetch, fun n => ?_, fun n hn q hq hnew => ?_⟩
  · have habove : (above p best).Nodup := by
      apply (above_pairwise hcommon.mem_right).imp
      intro a b hlt heq
      rw [heq] at hlt
      exact Nat.lt_irrefl _ hlt
    rw [hfetch]
    refine (habove.sublist (List.take_sublist _ _)).map_on fun a ha b hb heq => ?_
    have hmem : ∀ q ∈ (above p best).take (500 * n), q ∈ entries := fun q hq =>
      h.tree.mem_of_mem_chain hbest ((mem_above hcommon.mem_right).mp (List.mem_of_mem_take hq)).1
    exact h.tree.eq_of_hash (hmem a ha) (hmem b hb) heq
  · rw [hfetch, List.take_of_length_le (by rw [length_above hcommon.mem_right]; exact hn)]
    apply List.mem_map_of_mem
    rw [mem_above hcommon.mem_right]
    exact ⟨hq, fun hin => hnew (mem_chain_trans hin hcommon.mem_left)⟩

end

end

namespace Sample

/-- A node whose main chain is one branch of the fork, and a reader on the other one. -/
theorem exists_reader : ∃ s : NodeState, ReadsLocator s.mapBlockIndex s (next 1) (next 2) ∧
    LastCommon (next 1) (next 2) genesis ∧ s.findIndex (next 1).getBlockHash = some (next 1) ∧
    ∀ q ∈ (next 2).chain, q.getBlockHash ≠ 0 ∧ s.findIndex q.getBlockHash = some q := by
  have hrun : ((Run.run NodeState.step .init forkRun).any fun s =>
      s.pindexBest == some (next 2) && s.mapBlockIndex == forkDB.entries &&
        s.findIndex (next 1).getBlockHash == some (next 1) &&
        (next 2).chain.all fun q => s.findIndex q.getBlockHash == some q) = true := by
    decide +kernel
  obtain ⟨s, hs, hstate⟩ := (Option.any_eq_true _ _).mp hrun
  simp only [Bool.and_eq_true, beq_iff_eq, List.all_eq_true] at hstate
  have hmain := mainChain_of_run hs
  have hzero : ∀ q ∈ (next 2).chain, q.getBlockHash ≠ 0 := by decide +kernel
  exact ⟨s, ⟨hmain.tree, by rw [hstate.1.1.2]; decide, fun p hp => hp, hmain, hstate.1.1.1⟩,
    ⟨by decide, by decide, by decide⟩, hstate.1.2, fun q hq => ⟨hzero q hq, hstate.2 q hq⟩⟩

theorem getBlocks_spec_sample : ∃ (s : NodeState) (p : CBlockIndex),
    Common (next 1) (next 2) genesis p ∧
    (s.getBlocks ⟨.new 1000, 0⟩ (locator (some (next 1))) 0).hashContinue =
      (if 500 ≤ (before 0 (above p (next 2))).length then
        ((before 0 (above p (next 2)))[499]?).map getBlockHash else none).getD 0 := by
  obtain ⟨s, h, hfork, -⟩ := exists_reader
  obtain ⟨p, hcommon, -, hcontinue⟩ := getBlocks_spec h hfork ⟨.new 1000, 0⟩ 0
  exact ⟨s, p, hcommon, hcontinue⟩

theorem getHeaders_spec_sample : ∃ s : NodeState,
    s.getHeaders [] (next 1).getBlockHash = some [(next 1).header] := by
  obtain ⟨s, h, hfork, hfind, -⟩ := exists_reader
  refine ⟨s, ?_⟩
  rw [(getHeaders_spec h hfork (next 1).getBlockHash).2, hfind]
  rfl

/-- A chain on top of the genesis block, longer than an answer. -/
def long : Nat → CBlockIndex
  | 0 => genesis
  | n + 1 => .child (long n) (header (UInt32.ofNat (n + 1)) 0)

theorem long_hash {n : Nat} (hn : n < 1000) : (long n).getBlockHash =
    if n = 0 then hashGenesisBlock else BitVec.ofNat 256 n := by
  cases n with
  | zero => rfl
  | succ n =>
    have hnonce : (UInt32.ofNat (n + 1)).toNat = n + 1 := by
      rw [UInt32.toNat_ofNat', Nat.mod_eq_of_lt (by omega)]
    have hne : UInt32.ofNat (n + 1) ≠ 0 := by
      intro h
      rw [h] at hnonce
      cases hnonce
    show (if UInt32.ofNat (n + 1) = 0 then _ else BitVec.ofNat 256 (UInt32.ofNat (n + 1)).toNat) = _
    rw [if_neg hne, hnonce, if_neg (Nat.succ_ne_zero n)]

theorem long_hash_ne {m n : Nat} (hm : m < 1000) (hn : n < 1000) (hne : m ≠ n) :
    (long m).getBlockHash ≠ (long n).getBlockHash := by
  have hgenesis : ∀ k < 1000, hashGenesisBlock ≠ BitVec.ofNat 256 k := by
    intro k hk heq
    have hnat := congrArg BitVec.toNat heq
    rw [BitVec.toNat_ofNat, Nat.mod_eq_of_lt (by omega)] at hnat
    rw [← hnat] at hk
    exact absurd hk (by decide)
  rw [long_hash hm, long_hash hn]
  split <;> split
  · omega
  · exact hgenesis n hn
  · exact (hgenesis m hm).symm
  · intro heq
    have hnat := congrArg BitVec.toNat heq
    rw [BitVec.toNat_ofNat, BitVec.toNat_ofNat, Nat.mod_eq_of_lt (by omega),
      Nat.mod_eq_of_lt (by omega)] at hnat
    exact hne hnat

theorem mem_long_chain {p : CBlockIndex} {n : Nat} : p ∈ (long n).chain ↔ ∃ m ≤ n, p = long m := by
  induction n with
  | zero => simp [long, genesis, chain]
  | succ n ih =>
    rw [long, mem_chain_child, ih]
    constructor
    · rintro (rfl | ⟨m, hm, rfl⟩)
      · exact ⟨n + 1, le_refl _, rfl⟩
      · exact ⟨m, by omega, rfl⟩
    · rintro ⟨m, hm, rfl⟩
      rcases Nat.le_succ_iff.mp hm with hm | rfl
      · exact .inr ⟨m, hm, rfl⟩
      · exact .inl rfl

theorem long_nHeight (n : Nat) : (long n).nHeight = n := by
  induction n with
  | zero => rfl
  | succ n ih => rw [long, CBlockIndex.nHeight, ih]

def longDB (n : Nat) : NodeState.BlockTreeDB :=
  { forkDB with entries := (List.range (n + 1)).map long }

theorem longDB_tree {n : Nat} (hn : n < 1000) : BlockTree (longDB n).entries where
  closed := by
    simp only [longDB, List.mem_map, List.mem_range]
    rintro p ⟨m, hm, rfl⟩ q hq
    cases m with
    | zero => cases hq
    | succ m =>
      obtain rfl := Option.some.inj hq
      exact ⟨m, by omega, rfl⟩
  hash_nodup := by
    rw [longDB, List.map_map]
    refine List.nodup_range.map_on fun a ha b hb heq => ?_
    rw [List.mem_range] at ha hb
    by_contra hne
    exact long_hash_ne (by omega) (by omega) hne heq
  genesis := by
    simp only [longDB, List.mem_map, List.mem_range]
    rintro p ⟨m, hm, rfl⟩ hprev
    cases m with
    | zero => rfl
    | succ m => cases hprev

/-- A node whose main chain is such a chain, and a reader with the genesis block only. -/
theorem exists_long_reader {n : Nat} (hn : n < 1000) :
    ∃ s : NodeState, ReadsLocator s.mapBlockIndex s genesis (long n) ∧
      LastCommon genesis (long n) genesis ∧
      ∀ q ∈ (long n).chain, q.getBlockHash ≠ 0 ∧ s.findIndex q.getBlockHash = some q := by
  have hmem : ∀ q ∈ (long n).chain, q ∈ (longDB n).entries := by
    intro q hq
    obtain ⟨m, hm, rfl⟩ := mem_long_chain.mp hq
    exact List.mem_map_of_mem (List.mem_range.mpr (Nat.lt_succ_of_le hm))
  have hgenesis : genesis ∈ (long n).chain := mem_long_chain.mpr ⟨0, Nat.zero_le n, rfl⟩
  have hmain : MainChain (loadBlockIndexDB (longDB n)
      (CoinsView.empty.setBestBlock (some (long n)))) :=
    loadBlockIndexDB_mainChain (longDB_tree hn) fun p hp => by
      obtain rfl := Option.some.inj hp
      exact hmem _ self_mem_chain
  have hentries : (loadBlockIndexDB (longDB n)
      (CoinsView.empty.setBestBlock (some (long n)))).mapBlockIndex = (longDB n).entries := by
    unfold loadBlockIndexDB
    dsimp only
    rw [foldl_insertValid_eq]
    rfl
  refine ⟨_, ⟨hmain.tree, ?_, fun p hp => hp, hmain, rfl⟩,
    ⟨self_mem_chain, hgenesis, fun q hq _ => hq⟩, fun q hq => ⟨?_, ?_⟩⟩
  · rw [hentries]
    exact hmem _ hgenesis
  · obtain ⟨m, hm, rfl⟩ := mem_long_chain.mp hq
    rw [long_hash (by omega)]
    split
    · decide
    · intro heq
      have hnat := congrArg BitVec.toNat heq
      rw [BitVec.toNat_ofNat, Nat.mod_eq_of_lt (by omega)] at hnat
      exact absurd hnat ‹m ≠ 0›
  · rw [← hentries] at hmem
    cases hfind : (loadBlockIndexDB (longDB n)
        (CoinsView.empty.setBestBlock (some (long n)))).findIndex q.getBlockHash with
    | none => exact absurd rfl (findIndex_none hfind q (hmem q hq))
    | some q' =>
      obtain ⟨hmem', hhash⟩ := findIndex_some hfind
      rw [hmain.tree.eq_of_hash hmem' (hmem q hq) hhash]

/-- Asked twice for a chain of 600 blocks, the node first offers 500 hashes and then the rest. -/
theorem fetch_spec_sample : ∃ s : NodeState,
    (s.fetch s.findIndex 1 genesis).length = 500 ∧
    (long 600).getBlockHash ∈ s.fetch s.findIndex 2 genesis := by
  obtain ⟨s, hreads, hfork, hchain⟩ := exists_long_reader (show 600 < 1000 by decide)
  obtain ⟨p, hcommon, hfetch, -, hall⟩ := fetch_spec hreads hfork (fun q hq => (hchain q hq).1)
    fun q hq => (hchain q hq).2
  have hp : p = genesis := by simpa [genesis, chain] using hcommon.mem_left
  have habove := length_above hcommon.mem_right
  rw [hp, long_nHeight, show genesis.nHeight = 0 from rfl] at habove
  have hnew : long 600 ∉ genesis.chain := by
    intro hin
    have hle := nHeight_le_of_mem_chain hin
    rw [long_nHeight, show genesis.nHeight = 0 from rfl] at hle
    omega
  refine ⟨s, ?_, hall 2 ?_ (long 600) self_mem_chain hnew⟩
  · rw [hfetch, List.length_map, List.length_take, hp, habove]
    rfl
  · rw [hp, long_nHeight]
    omega

end Sample

end Terracoin
