import Mathlib.Data.List.GetD
import Mathlib.Data.Nat.Bitwise
import Terracoin.Merkle.Levels
import Terracoin.Wallet.WalletTx

/-!
# Merkle branches

`BuildMerkleTree` keeps all levels of the tree in one vector, and `GetMerkleBranch` reads the
siblings on the way to the root out of it. `CheckMerkleBranch` combines a transaction id with them
and only looks at the bits of its index. It arrives at the root from every transaction of a block
(`checkMerkleBranch_getMerkleBranch`), and from no other transaction id without a collision
(`merkleBranch_spec`).
-/

namespace Terracoin

section

variable {α : Type} [OfNat α 0] {hash2 : α → α → α}

/-! ## The vector of all levels -/

/-- The loop over one level, which starts at `j` and has `nSize` nodes. -/
def pushLevel (hash2 : α → α → α) (vMerkleTree : List α) (j nSize : Nat) : List α :=
  (List.range ((nSize + 1) / 2)).foldl (fun v k =>
    let i := 2 * k
    let i2 := min (i + 1) (nSize - 1)
    v ++ [hash2 (v.getD (j + i) 0) (v.getD (j + i2) 0)]) vMerkleTree

/-- The loop over the levels. Every level is shorter than the one below, so the length of the
lowest one is enough fuel. -/
def pushLevels (hash2 : α → α → α) : Nat → List α → Nat → Nat → List α
  | 0, vMerkleTree, _, _ => vMerkleTree
  | fuel + 1, vMerkleTree, j, nSize =>
    if 1 < nSize then
      pushLevels hash2 fuel (pushLevel hash2 vMerkleTree j nSize) (j + nSize) ((nSize + 1) / 2)
    else vMerkleTree

/-- The loop of `GetMerkleBranch`. -/
def siblings (vMerkleTree : List α) : Nat → Nat → Nat → Nat → List α
  | 0, _, _, _ => []
  | fuel + 1, j, nSize, nIndex =>
    if 1 < nSize then
      let i := min (nIndex ^^^ 1) (nSize - 1)
      vMerkleTree.getD (j + i) 0 ::
        siblings vMerkleTree fuel (j + nSize) ((nSize + 1) / 2) (nIndex / 2)
    else []

omit [OfNat α 0] in
theorem getD_append_level {a b : List α} (z : α) (i : Nat) (hi : i < b.length) (c : List α) :
    (a ++ b ++ c).getD (a.length + i) z = b.getD i z := by
  rw [List.append_assoc, List.getD_append_right _ _ _ _ (Nat.le_add_right _ _),
    Nat.add_sub_cancel_left, List.getD_append _ _ _ _ hi]

/-- The loop over a level appends the level above it. -/
theorem pushLevel_eq (below nodes : List α) :
    pushLevel hash2 (below ++ nodes) below.length nodes.length =
      below ++ nodes ++ merkleLevel hash2 nodes := by
  have hloop : ∀ n ≤ (nodes.length + 1) / 2, (List.range n).foldl (fun v k =>
      v ++ [hash2 (v.getD (below.length + 2 * k) 0)
        (v.getD (below.length + min (2 * k + 1) (nodes.length - 1)) 0)]) (below ++ nodes) =
      below ++ nodes ++ (merkleLevel hash2 nodes).take n := by
    intro n hn
    induction n with
    | zero => simp
    | succ n ih =>
      have hlt : 2 * n < nodes.length := by omega
      have hlen : n < (merkleLevel hash2 nodes).length := by
        rw [length_merkleLevel]
        omega
      have hmin : min (2 * n + 1) (nodes.length - 1) =
          if 2 * n + 1 < nodes.length then 2 * n + 1 else 2 * n := by
        split <;> omega
      have hnode : (merkleLevel hash2 nodes)[n] = hash2 (nodes.getD (2 * n) 0)
          (nodes.getD (min (2 * n + 1) (nodes.length - 1)) 0) := by
        have hget : (merkleLevel hash2 nodes).getD n 0 = _ := getD_merkleLevel hlt
        rw [hmin, ← hget, List.getD_eq_getElem _ _ hlen]
      rw [List.range_succ, List.foldl_append, ih (by omega), List.foldl_cons, List.foldl_nil,
        getD_append_level 0 _ hlt, getD_append_level 0 _ (by omega), ← hnode, List.append_assoc,
        ← List.take_append_getElem hlen]
  have hall := hloop _ (Nat.le_refl _)
  rwa [List.take_of_length_le (length_merkleLevel nodes).le] at hall

/-- The level of `nodes` and those above it. -/
def levelsOver (hash2 : α → α → α) : Nat → List α → List α
  | 0, nodes => nodes
  | fuel + 1, nodes =>
    if 1 < nodes.length then nodes ++ levelsOver hash2 fuel (merkleLevel hash2 nodes) else nodes

/-- The siblings on the way from the node at `nIndex` to the root. -/
def branchOver (hash2 : α → α → α) : Nat → List α → Nat → List α
  | 0, _, _ => []
  | fuel + 1, nodes, nIndex =>
    if 1 < nodes.length then
      nodes.getD (min (nIndex ^^^ 1) (nodes.length - 1)) 0 ::
        branchOver hash2 fuel (merkleLevel hash2 nodes) (nIndex / 2)
    else []

omit [OfNat α 0] in
theorem levelsOver_eq_append (fuel : Nat) (nodes : List α) :
    ∃ above, levelsOver hash2 fuel nodes = nodes ++ above := by
  cases fuel with
  | zero => exact ⟨[], (List.append_nil nodes).symm⟩
  | succ fuel =>
    rw [levelsOver]
    split
    · exact ⟨_, rfl⟩
    · exact ⟨[], (List.append_nil nodes).symm⟩

theorem pushLevels_eq (fuel : Nat) (below nodes : List α) :
    pushLevels hash2 fuel (below ++ nodes) below.length nodes.length =
      below ++ levelsOver hash2 fuel nodes := by
  induction fuel generalizing below nodes with
  | zero => rfl
  | succ fuel ih =>
    rw [pushLevels, levelsOver]
    split
    · have hlevel := ih (below ++ nodes) (merkleLevel hash2 nodes)
      rw [List.length_append, length_merkleLevel] at hlevel
      rw [pushLevel_eq, hlevel, List.append_assoc]
    · rfl

theorem siblings_eq (fuel : Nat) (below nodes : List α) (nIndex : Nat) :
    siblings (below ++ levelsOver hash2 fuel nodes) fuel below.length nodes.length nIndex =
      branchOver hash2 fuel nodes nIndex := by
  induction fuel generalizing below nodes nIndex with
  | zero => rfl
  | succ fuel ih =>
    rw [siblings, branchOver]
    split
    · rename_i hlen
      have hlevel := ih (below ++ nodes) (merkleLevel hash2 nodes) (nIndex / 2)
      rw [List.length_append, length_merkleLevel, List.append_assoc] at hlevel
      have hlt : min (nIndex ^^^ 1) (nodes.length - 1) < nodes.length := by omega
      rw [levelsOver, if_pos hlen, hlevel, ← List.append_assoc]
      dsimp only
      rw [getD_append_level 0 _ hlt]
    · rfl

omit [OfNat α 0] in
/-- The last node of the last level is the root. -/
theorem getLast?_levelsOver {fuel : Nat} {nodes : List α} (hfuel : nodes.length ≤ fuel) :
    (levelsOver hash2 fuel nodes).getLast? = merkleRoot hash2 fuel nodes := by
  induction fuel generalizing nodes with
  | zero =>
    obtain rfl : nodes = [] := List.eq_nil_of_length_eq_zero (by omega)
    rfl
  | succ fuel ih =>
    rw [levelsOver]
    rcases nodes with _ | ⟨a, _ | ⟨b, rest⟩⟩
    · rfl
    · rfl
    · have hshort : (merkleLevel hash2 (a :: b :: rest)).length ≤ fuel := by
        rw [List.length_cons, List.length_cons] at hfuel
        rw [length_merkleLevel, List.length_cons, List.length_cons]
        omega
      have hne : levelsOver hash2 fuel (merkleLevel hash2 (a :: b :: rest)) ≠ [] := by
        obtain ⟨above, habove⟩ : ∃ above,
            levelsOver hash2 fuel (merkleLevel hash2 (a :: b :: rest)) = _ ++ above :=
          levelsOver_eq_append _ _
        rw [habove]
        exact List.cons_ne_nil _ _
      rw [if_pos (by simp), List.getLast?_append_of_ne_nil _ hne, ih hshort]
      rfl

end

/-! ## Blocks -/

section

variable [Hashing]

namespace CBlock

def vMerkleTree (b : CBlock) : List uint256 :=
  pushLevels Hashing.hash2 b.vtx.length (b.vtx.map CTransaction.getHash) 0 b.vtx.length

/-- `GetMerkleBranch` for an index that is there, with the vector as it is before the call. -/
def getMerkleBranch (b : CBlock) (vMerkleTree : List uint256) (nIndex : Nat) : List uint256 :=
  let vMerkleTree := if vMerkleTree.isEmpty then b.vMerkleTree else vMerkleTree
  siblings vMerkleTree b.vtx.length 0 b.vtx.length nIndex

theorem vMerkleTree_eq (b : CBlock) :
    b.vMerkleTree =
      levelsOver Hashing.hash2 b.vtx.length (b.vtx.map CTransaction.getHash) := by
  have h := @pushLevels_eq uint256 _ Hashing.hash2 b.vtx.length [] (b.vtx.map CTransaction.getHash)
  rwa [List.length_map] at h

theorem buildMerkleTree_eq (b : CBlock) : b.buildMerkleTree = b.vMerkleTree.getLast?.getD 0 := by
  rw [vMerkleTree_eq, getLast?_levelsOver (List.length_map _).le]
  rfl

theorem getMerkleBranch_eq {b : CBlock} {vMerkleTree : List uint256}
    (hbuilt : vMerkleTree = [] ∨ vMerkleTree = b.vMerkleTree) (nIndex : Nat) :
    b.getMerkleBranch vMerkleTree nIndex =
      branchOver Hashing.hash2 b.vtx.length (b.vtx.map CTransaction.getHash) nIndex := by
  have htree : (if vMerkleTree.isEmpty then b.vMerkleTree else vMerkleTree) = b.vMerkleTree := by
    rcases hbuilt with rfl | rfl
    · rfl
    · exact ite_self _
  have h := @siblings_eq uint256 _ Hashing.hash2 b.vtx.length [] (b.vtx.map CTransaction.getHash)
    nIndex
  rw [List.length_map] at h
  rw [getMerkleBranch, htree, vMerkleTree_eq]
  exact h

end CBlock

/-! ## What the check arrives at -/

theorem climb_step {nodes : List uint256} {i : Nat} (hi : i < nodes.length) :
    (if (i : Int) % 2 = 1 then
        Hashing.hash2 (nodes.getD (min (i ^^^ 1) (nodes.length - 1)) 0) (nodes.getD i 0)
      else Hashing.hash2 (nodes.getD i 0) (nodes.getD (min (i ^^^ 1) (nodes.length - 1)) 0)) =
      (merkleLevel Hashing.hash2 nodes).getD (i / 2) 0 := by
  have hnode : (merkleLevel Hashing.hash2 nodes).getD (i / 2) 0 = _ :=
    getD_merkleLevel (by omega : 2 * (i / 2) < nodes.length)
  rw [hnode]
  rcases Nat.even_or_odd' i with ⟨k, rfl | rfl⟩
  · have hk : 2 * k / 2 = k := by omega
    have hmin : min (2 * k + 1) (nodes.length - 1) =
        if 2 * k + 1 < nodes.length then 2 * k + 1 else 2 * k := by
      split <;> omega
    rw [Nat.xor_one_of_even (even_two_mul k), hmin, if_neg (by omega), hk]
  · have hk : (2 * k + 1) / 2 = k := by omega
    have hmin : min (2 * k) (nodes.length - 1) = 2 * k := by omega
    rw [Nat.xor_one_of_odd (odd_two_mul_add_one k), Nat.add_sub_cancel, hmin, if_pos (by omega), hk,
      if_pos hi]

/-- The branch of a node leads to the root. -/
theorem climb_branchOver {fuel : Nat} {nodes : List uint256} (hfuel : nodes.length ≤ fuel) {i : Nat}
    (hi : i < nodes.length) :
    some (climb (nodes.getD i 0) (branchOver Hashing.hash2 fuel nodes i) i) =
      merkleRoot Hashing.hash2 fuel nodes := by
  induction fuel generalizing nodes i with
  | zero => omega
  | succ fuel ih =>
    rw [branchOver]
    rcases nodes with _ | ⟨a, _ | ⟨b, rest⟩⟩
    · exact absurd hi (Nat.not_lt_zero i)
    · obtain rfl : i = 0 := Nat.lt_one_iff.mp hi
      rfl
    · have hshort : (merkleLevel Hashing.hash2 (a :: b :: rest)).length ≤ fuel := by
        rw [List.length_cons, List.length_cons] at hfuel
        rw [length_merkleLevel, List.length_cons, List.length_cons]
        omega
      have habove : i / 2 < (merkleLevel Hashing.hash2 (a :: b :: rest)).length := by
        rw [length_merkleLevel]
        omega
      have hhalf : (i : Int) / 2 = (i / 2 : Nat) := rfl
      rw [if_pos (by simp), climb, climb_step hi, hhalf, ih hshort habove]
      rfl

/-- The pair of a hash and the other side, in the order that the index says. -/
def climbPair (hash otherside : uint256) (nIndex : Int) : uint256 × uint256 :=
  if nIndex % 2 = 1 then (otherside, hash) else (hash, otherside)

/-- The pairs that `CheckMerkleBranch` combines. -/
def climbPairs : uint256 → List uint256 → Int → List (uint256 × uint256)
  | _, [], _ => []
  | hash, otherside :: vMerkleBranch, nIndex =>
    let ab := climbPair hash otherside nIndex
    ab :: climbPairs (Hashing.hash2 ab.1 ab.2) vMerkleBranch (nIndex / 2)

theorem climb_cons (hash otherside : uint256) (vMerkleBranch : List uint256) (nIndex : Int) :
    climb hash (otherside :: vMerkleBranch) nIndex =
      climb (Hashing.hash2 (climbPair hash otherside nIndex).1 (climbPair hash otherside nIndex).2)
        vMerkleBranch (nIndex / 2) := by
  rw [climb, climbPair]
  split <;> rfl

/-- A pair whose hash is a node of the level above is one of the level, unless two pairs collide. -/
theorem mem_of_climbPair {nodes : List uint256} {hash otherside : uint256} {nIndex : Int}
    {pairs : Set (uint256 × uint256)}
    (hinj : Set.InjOn (fun ab : uint256 × uint256 => Hashing.hash2 ab.1 ab.2) pairs)
    (hnodes : ∀ ab ∈ neighbours nodes, ab ∈ pairs) (hpair : climbPair hash otherside nIndex ∈ pairs)
    (h : Hashing.hash2 (climbPair hash otherside nIndex).1 (climbPair hash otherside nIndex).2 ∈
      merkleLevel Hashing.hash2 nodes) : hash ∈ nodes := by
  rw [merkleLevel_eq_map] at h
  obtain ⟨ab, hab, heq⟩ := List.mem_map.mp h
  have hmem := mem_of_mem_neighbours hab
  rw [hinj (hnodes ab hab) hpair heq] at hmem
  unfold climbPair at hmem
  split at hmem
  · exact hmem.2
  · exact hmem.1

/-- A branch of the right length that leads to the root starts from one of the nodes, unless two of
the pairs that are hashed collide. -/
theorem mem_of_climb {fuel : Nat} {nodes : List uint256} {hash : uint256}
    {vMerkleBranch : List uint256} {i : Nat} {nIndex : Int}
    (hlen : vMerkleBranch.length = (branchOver Hashing.hash2 fuel nodes i).length)
    (hinj : Set.InjOn (fun ab : uint256 × uint256 => Hashing.hash2 ab.1 ab.2)
      (combined Hashing.hash2 nodes ∪ {ab | ab ∈ climbPairs hash vMerkleBranch nIndex}))
    (h : merkleRoot Hashing.hash2 fuel nodes = some (climb hash vMerkleBranch nIndex)) :
    hash ∈ nodes := by
  induction fuel generalizing nodes hash vMerkleBranch i nIndex with
  | zero =>
    obtain rfl : vMerkleBranch = [] := List.eq_nil_of_length_eq_zero hlen
    rcases nodes with _ | ⟨a, _ | ⟨b, rest⟩⟩
    · cases h
    · exact List.mem_singleton.mpr (Option.some.inj h).symm
    · cases h
  | succ fuel ih =>
    rcases nodes with _ | ⟨a, _ | ⟨b, rest⟩⟩
    · cases h
    · obtain rfl : vMerkleBranch = [] := List.eq_nil_of_length_eq_zero hlen
      exact List.mem_singleton.mpr (Option.some.inj h).symm
    · rw [branchOver, if_pos (by simp), List.length_cons] at hlen
      cases vMerkleBranch with
      | nil => cases hlen
      | cons otherside vMerkleBranch =>
        have hpairs : climbPairs hash (otherside :: vMerkleBranch) nIndex =
            climbPair hash otherside nIndex :: climbPairs _ vMerkleBranch (nIndex / 2) := rfl
        rw [hpairs] at hinj
        have habove := hinj.mono (Set.union_subset_union
          (combined_levelAt_subset 1 (a :: b :: rest)) fun cd hcd => List.mem_cons_of_mem _ hcd)
        rw [climb_cons] at h
        have hnode := ih (Nat.succ.inj hlen) habove h
        refine mem_of_climbPair hinj (fun ab hab => ?_) (.inr List.mem_cons_self) hnode
        exact .inl ⟨0, by simp [levelAt], hab⟩

/-- `CheckMerkleBranch` takes the branch of every transaction of a block to its root. With a branch
of that length it takes no other transaction id there, unless two of the pairs that are hashed
collide. Its answer to the index -1 is 0. -/
theorem merkleBranch_spec {b : CBlock} {i : Nat} (hi : i < b.vtx.length)
    {vMerkleTree : List uint256} (hbuilt : vMerkleTree = [] ∨ vMerkleTree = b.vMerkleTree) :
    checkMerkleBranch b.vtx[i].getHash (b.getMerkleBranch vMerkleTree i) i = b.buildMerkleTree ∧
    ∀ (txid : uint256) (vMerkleBranch : List uint256) (nIndex : Int),
      txid ∉ b.vtx.map CTransaction.getHash →
      vMerkleBranch.length = (b.getMerkleBranch vMerkleTree i).length →
      Set.InjOn (fun ab : uint256 × uint256 => Hashing.hash2 ab.1 ab.2)
        (combined Hashing.hash2 (b.vtx.map CTransaction.getHash) ∪
          {ab | ab ∈ climbPairs txid vMerkleBranch nIndex}) →
      checkMerkleBranch txid vMerkleBranch nIndex = b.buildMerkleTree →
      nIndex = -1 ∧ b.buildMerkleTree = 0 := by
  have hlen : (b.vtx.map CTransaction.getHash).length = b.vtx.length := List.length_map _
  have hnode : (b.vtx.map CTransaction.getHash).getD i 0 = b.vtx[i].getHash := by
    rw [List.getD_eq_getElem _ _ (hlen.symm ▸ hi), List.getElem_map]
  have hroot := climb_branchOver hlen.le (hlen.symm ▸ hi)
  rw [hnode, ← CBlock.getMerkleBranch_eq hbuilt] at hroot
  have hbuild : b.buildMerkleTree = climb b.vtx[i].getHash (b.getMerkleBranch vMerkleTree i) i := by
    rw [CBlock.buildMerkleTree, ← hroot, Option.getD_some]
  refine ⟨?_, fun txid vMerkleBranch nIndex hout hlength hinj hcheck => ?_⟩
  · rw [checkMerkleBranch, if_neg (by omega), hbuild]
  · by_cases hindex : nIndex = -1
    · rw [checkMerkleBranch, if_pos hindex] at hcheck
      exact ⟨hindex, hcheck.symm⟩
    · rw [checkMerkleBranch, if_neg hindex] at hcheck
      rw [CBlock.getMerkleBranch_eq hbuilt] at hlength
      exact absurd (mem_of_climb hlength hinj (by rw [← hroot, ← hbuild, hcheck])) hout

end

namespace Sample

theorem merkleBranch_spec_sample :
    checkMerkleBranch 2 (pairBlock.getMerkleBranch [] 1) 1 = pairBlock.buildMerkleTree ∧
      checkMerkleBranch 5 [1] 1 ≠ pairBlock.buildMerkleTree := by
  have h := merkleBranch_spec (b := pairBlock) (i := 1) (by decide) (.inl rfl)
  refine ⟨h.1, fun hcheck => ?_⟩
  have htxids : pairBlock.vtx.map CTransaction.getHash = [1, 2] := by decide
  refine absurd (h.2 5 [1] 1 (by rw [htxids]; decide) rfl ?_ hcheck).1 (by decide)
  have hpairs : {ab | ab ∈ climbPairs 5 [1] 1} = {((1 : uint256), (5 : uint256))} := by
    ext ab
    exact List.mem_singleton
  rw [htxids, combined_pair, hpairs, Set.singleton_union]
  refine Set.injOn_pair.mpr fun heq => absurd heq ?_
  decide

end Sample

end Terracoin
