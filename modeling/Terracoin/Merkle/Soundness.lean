import Mathlib.Data.Nat.Log
import Terracoin.Merkle.PartialTree

/-!
# What a partial merkle tree proves

Of a tree received from a peer, the number of transactions, the flag bits and the hashes are all
chosen by the sender. A root that `ExtractMatches` returns binds the hashes, but not the number of
transactions: with another number a hash of two nodes can be passed off as a transaction
id, and the copied nodes of the right edge can be walked as if they were nodes of their own. The
matches are a subsequence of the block exactly if the flags fit the block (`FlagsFit`).
-/

namespace Terracoin

variable {α : Type} {hash2 : α → α → α}

/-! ## The nodes of a block -/

/-- The leaf below the node `q` of height `height` to which the low bits of `p` lead, in a tree of
`n` leaves whose missing right halves are copies of the left ones. -/
def leafBelow (n : Nat) : Nat → Nat → Nat → Nat
  | 0, q, _ => q
  | height + 1, q, p =>
    if p / 2 ^ height % 2 = 1 ∧ q * 2 + 1 < levelWidth n height then
      leafBelow n height (q * 2 + 1) p
    else leafBelow n height (q * 2) p

theorem leafBelow_left {n height q p pos : Nat} (hp : p / 2 ^ height = pos * 2) :
    leafBelow n (height + 1) q p = leafBelow n height (q * 2) p := by
  rw [leafBelow, hp, if_neg (by omega)]

theorem leafBelow_right {n height q p pos : Nat} (hp : p / 2 ^ height = pos * 2 + 1) :
    leafBelow n (height + 1) q p =
      leafBelow n height (if q * 2 + 1 < levelWidth n height then q * 2 + 1 else q * 2) p := by
  rw [leafBelow, hp]
  split <;> split <;> first | rfl | omega

theorem RootAt.height_eq {leaves : List α} {height : Nat} {root : α}
    (h : RootAt hash2 leaves height root) : height = Nat.clog 2 leaves.length := by
  have hwidth : ∀ h, (levelAt hash2 h leaves).length = levelWidth leaves.length h :=
    fun h => length_levelAt h leaves
  apply le_antisymm
  · cases height with
    | zero => exact Nat.zero_le _
    | succ height =>
      have hlt := h.below height (Nat.lt_succ_self height)
      rw [hwidth, lt_levelWidth, Nat.one_mul] at hlt
      rw [Nat.succ_le_iff]
      by_contra hle
      have := (Nat.clog_le_iff_le_pow one_lt_two).mp (Nat.not_lt.mp hle)
      omega
  · apply Nat.clog_le_of_le_pow
    by_contra hgt
    have htwo : 1 < (levelAt hash2 height leaves).length := by
      rw [hwidth, lt_levelWidth]
      omega
    rw [h.top] at htwo
    exact absurd htwo (lt_irrefl 1)

theorem RootAt.zero_lt {leaves : List α} {height : Nat} {root : α}
    (h : RootAt hash2 leaves height root) : 0 < levelWidth leaves.length height := by
  have hlen := congrArg List.length h.top
  rw [length_levelAt] at hlen
  rw [hlen]
  exact Nat.one_pos

theorem getD_mem_neighbours [OfNat α 0] {nodes : List α} {q : Nat} (hq : q * 2 < nodes.length) :
    (nodes.getD (q * 2) 0, nodes.getD (if q * 2 + 1 < nodes.length then q * 2 + 1 else q * 2) 0) ∈
      neighbours nodes := by
  induction nodes using neighbours.induct generalizing q with
  | case1 => cases hq
  | case2 a =>
    obtain rfl : q = 0 := by
      rw [List.length_singleton] at hq
      omega
    exact List.mem_singleton_self _
  | case3 a b rest ih =>
    rw [List.length_cons, List.length_cons] at hq ⊢
    cases q with
    | zero =>
      rw [if_pos (by omega)]
      exact List.mem_cons_self
    | succ q =>
      have hif : (if (q + 1) * 2 + 1 < rest.length + 1 + 1 then (q + 1) * 2 + 1 else (q + 1) * 2) =
          (if q * 2 + 1 < rest.length then q * 2 + 1 else q * 2) + 1 + 1 := by
        split <;> split <;> omega
      rw [hif, Nat.succ_mul]
      exact List.mem_cons_of_mem _ (ih (by omega))

/-- The two nodes below a node of a block. -/
theorem levelAt_children [OfNat α 0] {leaves : List α} {height q : Nat}
    (hlen : 1 < (levelAt hash2 height leaves).length) (hq : q < levelWidth leaves.length (height + 1)) :
    ∃ q', q' = (if q * 2 + 1 < levelWidth leaves.length height then q * 2 + 1 else q * 2) ∧
      q * 2 < levelWidth leaves.length height ∧ q' < levelWidth leaves.length height ∧
      (levelAt hash2 (height + 1) leaves).getD q 0 =
        hash2 ((levelAt hash2 height leaves).getD (q * 2) 0)
          ((levelAt hash2 height leaves).getD q' 0) ∧
      ((levelAt hash2 height leaves).getD (q * 2) 0, (levelAt hash2 height leaves).getD q' 0) ∈
        combined hash2 leaves := by
  have hleft : q * 2 < levelWidth leaves.length height := by
    rw [lt_levelWidth] at hq ⊢
    rwa [pow_succ, Nat.mul_comm (2 ^ height), ← Nat.mul_assoc] at hq
  have hwidth : (levelAt hash2 height leaves).length = levelWidth leaves.length height :=
    length_levelAt height leaves
  refine ⟨_, rfl, hleft, ?_, ?_, height, hlen, ?_⟩
  · split
    · assumption
    · exact hleft
  · rw [levelAt, getD_merkleLevel (by omega), hwidth, Nat.mul_comm 2 q]
  · rw [← hwidth]
    exact getD_mem_neighbours (by omega)

section

variable [OfNat α 0] {leaves : List α} {S : Set (α × α)} {width : Nat → Nat} {height pos q : Nat}
  {tree : PrunedTree α}

/-- A pruned tree with the hash of a node of the block, at the height of that node: its marked leaves
are leaves of the block. -/
theorem marked_eq (h : tree.Shaped width height pos)
    (hinj : Set.InjOn (fun ab : α × α => hash2 ab.1 ab.2) S) (hS : combined hash2 leaves ⊆ S)
    (hpairs : ∀ ab ∈ tree.pairs hash2, ab ∈ S)
    (hlen : ∀ j < height, 1 < (levelAt hash2 j leaves).length)
    (hq : q < levelWidth leaves.length height)
    (hroot : tree.root hash2 = (levelAt hash2 height leaves).getD q 0) :
    (∀ p ∈ tree.positions pos, leafBelow leaves.length height q p < leaves.length) ∧
      tree.marked =
        (tree.positions pos).map fun p => leaves.getD (leafBelow leaves.length height q p) 0 := by
  induction h generalizing q with
  | stub a => exact ⟨fun p hp => (List.not_mem_nil hp).elim, rfl⟩
  | @leaf pos a =>
    refine ⟨fun p _ => ?_, ?_⟩
    · rw [lt_levelWidth, pow_zero, Nat.mul_one] at hq
      exact hq
    · exact congrArg (fun b => [b]) hroot
  | @copied height pos l hw hl ih =>
    obtain ⟨q', hq', hleft, -, hnode, hmem⟩ := levelAt_children (hlen height (Nat.lt_succ_self _)) hq
    have hpair := hinj (hpairs _ List.mem_cons_self) (hS hmem) (hroot.trans hnode)
    obtain ⟨hlt, hmarked⟩ := ih (fun ab hab => hpairs ab (List.mem_cons_of_mem _ hab))
      (fun j hj => hlen j (by omega)) hleft (Prod.mk.inj hpair).1
    have hbelow : ∀ p ∈ l.positions (pos * 2), leafBelow leaves.length (height + 1) q p =
        leafBelow leaves.length height (q * 2) p := fun p hp => leafBelow_left (hl.position_div hp)
    refine ⟨fun p hp => ?_, ?_⟩
    · rw [hbelow p hp]
      exact hlt p hp
    · exact hmarked.trans (List.map_congr_left fun p hp => by rw [hbelow p hp])
  | @node height pos l r hw hl hr ihl ihr =>
    obtain ⟨q', rfl, hleft, hright, hnode, hmem⟩ :=
      levelAt_children (hlen height (Nat.lt_succ_self _)) hq
    have hpair := hinj (hpairs _ List.mem_cons_self) (hS hmem) (hroot.trans hnode)
    obtain ⟨hroot1, hroot2⟩ := Prod.mk.inj hpair
    obtain ⟨hlt, hmarked⟩ := ihl
      (fun ab hab => hpairs ab (List.mem_cons_of_mem _ (List.mem_append_left _ hab)))
      (fun j hj => hlen j (by omega)) hleft hroot1
    obtain ⟨hlt', hmarked'⟩ := ihr
      (fun ab hab => hpairs ab (List.mem_cons_of_mem _ (List.mem_append_right _ hab)))
      (fun j hj => hlen j (by omega)) hright hroot2
    have hbelow : ∀ p ∈ l.positions (pos * 2), leafBelow leaves.length (height + 1) q p =
        leafBelow leaves.length height (q * 2) p := fun p hp => leafBelow_left (hl.position_div hp)
    have hbelow' : ∀ p ∈ r.positions (pos * 2 + 1), leafBelow leaves.length (height + 1) q p =
        leafBelow leaves.length height (if q * 2 + 1 < levelWidth leaves.length height then q * 2 + 1
          else q * 2) p := fun p hp => leafBelow_right (hr.position_div hp)
    refine ⟨fun p hp => ?_, ?_⟩
    · rcases List.mem_append.mp hp with hp | hp
      · rw [hbelow p hp]
        exact hlt p hp
      · rw [hbelow' p hp]
        exact hlt' p hp
    · rw [PrunedTree.marked, PrunedTree.positions, hmarked, hmarked', List.map_append]
      congr 1
      · exact List.map_congr_left fun p hp => by rw [hbelow p hp]
      · exact List.map_congr_left fun p hp => by rw [hbelow' p hp]

/-- A pruned tree higher than the node of the block that has its hash marks no leaf: it would have to
pass a leaf of the block off as the hash of two nodes. -/
theorem marked_eq_nil (h : tree.Shaped width height pos)
    (hfree : CollisionFree hash2 S leaves) (hS : combined hash2 leaves ⊆ S)
    (hpairs : ∀ ab ∈ tree.pairs hash2, ab ∈ S) {low : Nat} (hlow : low < height)
    (hlen : ∀ j < low, 1 < (levelAt hash2 j leaves).length)
    (hq : q < levelWidth leaves.length low)
    (hroot : tree.root hash2 = (levelAt hash2 low leaves).getD q 0) :
    tree.positions pos = [] ∧ tree.marked = [] := by
  have hleaf : ∀ {q : Nat} {ab : α × α}, ab ∈ S → q < levelWidth leaves.length 0 →
      hash2 ab.1 ab.2 ≠ leaves.getD q 0 := by
    intro q ab hab hq heq
    rw [lt_levelWidth, pow_zero, Nat.mul_one] at hq
    rw [List.getD_eq_getElem?_getD, List.getElem?_eq_getElem hq, Option.getD_some] at heq
    exact hfree.fresh ab hab (heq ▸ List.getElem_mem hq)
  induction h generalizing q low with
  | stub a => exact ⟨rfl, rfl⟩
  | leaf a => exact absurd hlow (Nat.not_lt_zero _)
  | @copied height pos l hw hl ih =>
    cases low with
    | zero => exact absurd hroot (hleaf (hpairs _ List.mem_cons_self) hq)
    | succ low =>
      obtain ⟨q', -, hleft, -, hnode, hmem⟩ := levelAt_children (hlen low (Nat.lt_succ_self _)) hq
      have hpair := hfree.injOn (hpairs _ List.mem_cons_self) (hS hmem) (hroot.trans hnode)
      exact ih (fun ab hab => hpairs ab (List.mem_cons_of_mem _ hab)) (Nat.lt_of_succ_lt_succ hlow)
        (fun j hj => hlen j (by omega)) hleft (Prod.mk.inj hpair).1
  | @node height pos l r hw hl hr ihl ihr =>
    cases low with
    | zero => exact absurd hroot (hleaf (hpairs _ List.mem_cons_self) hq)
    | succ low =>
      obtain ⟨q', -, hleft, hright, hnode, hmem⟩ :=
        levelAt_children (hlen low (Nat.lt_succ_self _)) hq
      have hpair := hfree.injOn (hpairs _ List.mem_cons_self) (hS hmem) (hroot.trans hnode)
      obtain ⟨hroot1, hroot2⟩ := Prod.mk.inj hpair
      obtain ⟨h1, h2⟩ := ihl
        (fun ab hab => hpairs ab (List.mem_cons_of_mem _ (List.mem_append_left _ hab)))
        (Nat.lt_of_succ_lt_succ hlow) (fun j hj => hlen j (by omega)) hleft hroot1
      obtain ⟨h3, h4⟩ := ihr
        (fun ab hab => hpairs ab (List.mem_cons_of_mem _ (List.mem_append_right _ hab)))
        (Nat.lt_of_succ_lt_succ hlow) (fun j hj => hlen j (by omega)) hright hroot2
      rw [PrunedTree.positions, PrunedTree.marked, h1, h2, h3, h4]
      exact ⟨rfl, rfl⟩

end

/-- Elements of a list without repetitions, picked by position, form a sublist exactly if the
positions increase. -/
theorem map_getD_sublist_iff [OfNat α 0] {l : List α} (hn : l.Nodup) {ps : List Nat}
    (hps : ∀ p ∈ ps, p < l.length) :
    (ps.map fun p => l.getD p 0).Sublist l ↔ ps.Pairwise (· < ·) := by
  have hget : ∀ p (hp : p < l.length), l.getD p 0 = l[p] := by
    intro p hp
    rw [List.getD_eq_getElem?_getD, List.getElem?_eq_getElem hp, Option.getD_some]
  have hinj : Set.InjOn (fun p => l.getD p 0) {p | p < l.length} := by
    intro p hp p' hp' heq
    dsimp only at heq
    rw [hget p hp, hget p' hp'] at heq
    exact (List.Nodup.getElem_inj_iff hn).mp heq
  constructor
  · intro h
    obtain ⟨is, his, hsorted⟩ := List.sublist_eq_map_getElem h
    have heq : ps.map (fun p => l.getD p 0) = (is.map Fin.val).map fun p => l.getD p 0 := by
      rw [his, List.map_map]
      exact List.map_congr_left fun i _ => (hget i i.isLt).symm
    have hval := map_injOn hinj hps (by
      intro p hp
      obtain ⟨i, -, rfl⟩ := List.mem_map.mp hp
      exact i.isLt) heq
    rw [hval, List.pairwise_map]
    exact hsorted
  · intro h
    have hfin : ps = (ps.pmap (fun p hp => (⟨p, hp⟩ : Fin l.length)) hps).map Fin.val := by
      rw [List.map_pmap]
      simp
    have hsub : ((ps.pmap (fun p hp => (⟨p, hp⟩ : Fin l.length)) hps).map (l[·])).Sublist l := by
      apply List.map_getElem_sublist
      rw [hfin, List.pairwise_map] at h
      exact h
    have heq : (ps.map fun p => l.getD p 0) =
        (ps.pmap (fun p hp => (⟨p, hp⟩ : Fin l.length)) hps).map (l[·]) := by
      rw [List.map_pmap, ← List.pmap_eq_map (p := fun p => p < l.length) hps]
      exact List.pmap_congr_left ps fun p _ hp _ => hget p hp
    rw [heq]
    exact hsub

/-! ## What `ExtractMatches` proves -/

namespace CPartialMerkleTree

/-- The pruned tree that the flags and the hashes write down. -/
structure Describes (t : CPartialMerkleTree α) (tree : PrunedTree α) : Prop where
  shaped : tree.Shaped (calcTreeWidth t.nTransactions) (treeHeight t.nTransactions) 0
  flags : tree.flags <+: t.vBits
  values : tree.values = t.vHash

/-- The pairs that `ExtractMatches` hashes. -/
def hashed (hash2 : α → α → α) (t : CPartialMerkleTree α) : Set (α × α) :=
  {ab | ∃ tree, t.Describes tree ∧ ab ∈ tree.pairs hash2}

/-- The positions of the flagged leaves in a tree of `nTransactions` leaves. -/
def flaggedLeaves (t : CPartialMerkleTree α) : List Nat :=
  (PrunedTree.readPositions (calcTreeWidth t.nTransactions) (treeHeight t.nTransactions) 0
    t.vBits).1

/-- The flags fit a block of `n` transactions: no leaf is flagged, or the tree has the height of the
tree of the block and the flagged leaves lead to leaves of the block in strictly increasing order. -/
def FlagsFit (t : CPartialMerkleTree α) (n : Nat) : Prop :=
  t.flaggedLeaves = [] ∨ treeHeight t.nTransactions = Nat.clog 2 n ∧
    (t.flaggedLeaves.map (leafBelow n (treeHeight t.nTransactions) 0)).Pairwise (· < ·)

instance (t : CPartialMerkleTree α) (n : Nat) : Decidable (t.FlagsFit n) :=
  inferInstanceAs (Decidable (_ ∨ _))

theorem Describes.flaggedLeaves {t : CPartialMerkleTree α} {tree : PrunedTree α}
    (h : t.Describes tree) :
    t.flaggedLeaves = tree.positions 0 := by
  obtain ⟨rest, hrest⟩ := h.flags
  rw [CPartialMerkleTree.flaggedLeaves, ← hrest, PrunedTree.readPositions_flags h.shaped]

variable [OfNat α 0] {t : CPartialMerkleTree α}

/-- For a root that `ExtractMatches` returns and a block with this merkle root, whose transaction ids
are distinct: the matches are a subsequence of the block, each once, exactly if the flags fit the
block. -/
theorem extractMatches_sound_iff {vTxid : List α} (hn : vTxid.Nodup)
    (hfree : CollisionFree hash2 (combined hash2 vTxid ∪ t.hashed hash2) vTxid)
    (hR : (t.extractMatches hash2).1 ≠ 0)
    (hroot : merkleRoot hash2 vTxid.length vTxid = some (t.extractMatches hash2).1) :
    ((t.extractMatches hash2).2.1.Sublist vTxid ∧ (t.extractMatches hash2).2.1.Nodup) ↔
      t.FlagsFit vTxid.length := by
  obtain ⟨tree, -, hshaped, hflags, hvalues, hR, hmatch⟩ := shaped_of_extractMatches hR
  have hdesc : t.Describes tree := ⟨hshaped, hflags, hvalues⟩
  obtain ⟨height, hrootAt⟩ := (merkleRoot_eq_some_iff (le_refl _)).mp hroot
  rw [hR] at hrootAt
  rw [hmatch, FlagsFit, hdesc.flaggedLeaves, ← hrootAt.height_eq,
    and_iff_left_of_imp fun h => h.nodup hn]
  have hS : combined hash2 vTxid ⊆ combined hash2 vTxid ∪ t.hashed hash2 := Set.subset_union_left
  have hpairs : ∀ ab ∈ tree.pairs hash2, ab ∈ combined hash2 vTxid ∪ t.hashed hash2 :=
    fun ab hab => Or.inr ⟨tree, hdesc, hab⟩
  generalize treeHeight t.nTransactions = high at hshaped
  rcases Nat.lt_trichotomy high height with hlt | heq | hgt
  · obtain ⟨d, rfl⟩ : ∃ d, height = high + (d + 1) := ⟨height - high - 1, by omega⟩
    have habove := hrootAt.above
    obtain ⟨hin, hmarked⟩ := marked_eq hshaped hfree.injOn
      ((combined_levelAt_subset (d + 1) vTxid).trans hS) hpairs habove.below habove.zero_lt
      (by rw [habove.top]; rfl)
    -- the matches are hashes of two nodes of the block
    have hfresh : ∀ a ∈ levelAt hash2 (d + 1) vTxid, a ∉ vTxid := by
      intro a ha
      obtain ⟨ab, hab, rfl⟩ := mem_levelAt_succ ha
      exact hfree.fresh ab (Or.inl ⟨d, hrootAt.below d (by omega), hab⟩)
    have hnil : tree.marked.Sublist vTxid ↔ tree.positions 0 = [] := by
      constructor
      · intro hsub
        rw [List.eq_nil_iff_forall_not_mem]
        intro p hp
        have hmem : (levelAt hash2 (d + 1) vTxid).getD
            (leafBelow (levelAt hash2 (d + 1) vTxid).length high 0 p) 0 ∈ tree.marked := by
          rw [hmarked]
          exact List.mem_map_of_mem hp
        refine hfresh _ ?_ (hsub.subset hmem)
        rw [List.getD_eq_getElem?_getD, List.getElem?_eq_getElem (hin p hp), Option.getD_some]
        exact List.getElem_mem _
      · intro hnil
        rw [hmarked, hnil]
        exact List.nil_sublist _
    rw [hnil]
    constructor
    · exact Or.inl
    · rintro (h | ⟨h, -⟩)
      · exact h
      · omega
  · subst heq
    obtain ⟨hin, hmarked⟩ := marked_eq hshaped hfree.injOn hS hpairs hrootAt.below hrootAt.zero_lt
      (by rw [hrootAt.top]; rfl)
    have hps : ∀ q ∈ (tree.positions 0).map (leafBelow vTxid.length high 0), q < vTxid.length :=
      List.forall_mem_map.mpr hin
    have hcomp : tree.marked =
        ((tree.positions 0).map (leafBelow vTxid.length high 0)).map fun q => vTxid.getD q 0 := by
      rw [hmarked, List.map_map]
      rfl
    rw [hcomp, map_getD_sublist_iff hn hps]
    constructor
    · intro h
      exact Or.inr ⟨rfl, h⟩
    · rintro (h | ⟨-, h⟩)
      · rw [h]
        exact List.Pairwise.nil
      · exact h
  · obtain ⟨hpos, hmarked⟩ := marked_eq_nil hshaped hfree hS hpairs hgt hrootAt.below
      hrootAt.zero_lt (by rw [hrootAt.top]; rfl)
    rw [hpos, hmarked]
    simp

end CPartialMerkleTree

/-! ## Proofs that do and do not fit -/

namespace Sample

def threeTxids : List Digest := [.txid 1, .txid 2, .txid 3]

def thirdOfThree : CPartialMerkleTree Digest :=
  ⟨3, [true, false, true, true, false, false, false, false],
    [.pair (.txid 1) (.txid 2), .txid 3], false⟩

theorem extractMatches_sound_iff_sample :
    (thirdOfThree.extractMatches Digest.pair).2.1 = [.txid 3] ∧
      (thirdOfThree.extractMatches Digest.pair).2.1.Sublist threeTxids ∧
      (thirdOfThree.extractMatches Digest.pair).2.1.Nodup :=
  ⟨by decide, (CPartialMerkleTree.extractMatches_sound_iff (by decide)
    (.of_injective digest_injective (by simp [threeTxids]) _) (by decide) (by decide)).mpr
      (by decide)⟩

/-- The same block with four transactions, the copied node of its right edge passed off as a
transaction of its own. -/
def fourthOfThree : CPartialMerkleTree Digest :=
  ⟨4, [true, false, true, true, true, false, false, false],
    [.pair (.txid 1) (.txid 2), .txid 3, .txid 3], false⟩

/-- The same block with one transaction, the root passed off as its id. -/
def rootAsTxid : CPartialMerkleTree Digest :=
  ⟨1, [true, false, false, false, false, false, false, false],
    [.pair (.pair (.txid 1) (.txid 2)) (.pair (.txid 3) (.txid 3))], false⟩

theorem not_extractMatches_sound :
    Function.Injective2 Digest.pair ∧ (∀ a b, Digest.pair a b ∉ threeTxids) ∧ threeTxids.Nodup ∧
    (∀ t ∈ [fourthOfThree, rootAsTxid], (t.extractMatches Digest.pair).1 ≠ 0 ∧
      merkleRoot Digest.pair 3 threeTxids = some (t.extractMatches Digest.pair).1 ∧
      ¬ (t.extractMatches Digest.pair).2.1.Sublist threeTxids) :=
  ⟨digest_injective, by simp [threeTxids], by decide, by decide⟩

end Sample

end Terracoin
