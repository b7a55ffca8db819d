import Mathlib.Data.List.Nodup
import Mathlib.Data.Set.Function
import Terracoin.Validation.ConnectBlock

/-!
# The levels of a merkle tree

`levelAt h` is the list of the nodes of height `h` above a list of leaves. The root that
`BuildMerkleTree` computes is the only node of the lowest level with a single one
(`merkleRoot_eq_some_iff`).

The last node of an odd level is combined with itself, so different lists can have the same root.
Lists without repetitions cannot, as long as no two of the pairs hashed for them collide and none
hashes to a leaf (`levelAt_injective`, `merkleRoot_binding`).
-/

namespace Terracoin

variable {α : Type} {hash2 : α → α → α}

/-- The nodes of height `height` over the leaves. -/
def levelAt (hash2 : α → α → α) : Nat → List α → List α
  | 0, leaves => leaves
  | height + 1, leaves => merkleLevel hash2 (levelAt hash2 height leaves)

def neighbours : List α → List (α × α)
  | [] => []
  | [a] => [(a, a)]
  | a :: b :: rest => (a, b) :: neighbours rest

/-- The number of nodes at a height, over `n` leaves. -/
def levelWidth (n height : Nat) : Nat := (n + 2 ^ height - 1) / 2 ^ height

theorem lt_levelWidth {n height p : Nat} : p < levelWidth n height ↔ p * 2 ^ height < n := by
  have hpos : 0 < 2 ^ height := Nat.two_pow_pos height
  rw [levelWidth, ← Nat.succ_le_iff, Nat.le_div_iff_mul_le hpos, Nat.succ_mul]
  omega

/-! ## One level -/

theorem merkleLevel_eq_map (nodes : List α) :
    merkleLevel hash2 nodes = (neighbours nodes).map fun ab => hash2 ab.1 ab.2 := by
  induction nodes using neighbours.induct with
  | case1 => rfl
  | case2 a => rfl
  | case3 a b rest ih => rw [merkleLevel, neighbours, List.map_cons, ih]

theorem length_merkleLevel (nodes : List α) :
    (merkleLevel hash2 nodes).length = (nodes.length + 1) / 2 := by
  induction nodes using neighbours.induct with
  | case1 => simp [merkleLevel]
  | case2 a => simp [merkleLevel]
  | case3 a b rest ih =>
    rw [merkleLevel, List.length_cons, ih, List.length_cons, List.length_cons]
    omega

theorem mem_of_mem_neighbours {nodes : List α} {ab : α × α} (h : ab ∈ neighbours nodes) :
    ab.1 ∈ nodes ∧ ab.2 ∈ nodes := by
  induction nodes using neighbours.induct with
  | case1 => cases h
  | case2 a =>
    rw [List.mem_singleton.mp h]
    exact ⟨List.mem_cons_self, List.mem_cons_self⟩
  | case3 a b rest ih =>
    rcases List.mem_cons.mp h with rfl | h
    · exact ⟨List.mem_cons_self, List.mem_cons_of_mem _ List.mem_cons_self⟩
    · obtain ⟨h1, h2⟩ := ih h
      exact ⟨List.mem_cons_of_mem _ (List.mem_cons_of_mem _ h1),
        List.mem_cons_of_mem _ (List.mem_cons_of_mem _ h2)⟩

theorem nodup_neighbours {nodes : List α} (h : nodes.Nodup) : (neighbours nodes).Nodup := by
  induction nodes using neighbours.induct with
  | case1 => exact List.nodup_nil
  | case2 a => exact List.pairwise_singleton _ _
  | case3 a b rest ih =>
    obtain ⟨ha, hb⟩ := List.nodup_cons.mp h
    refine List.nodup_cons.mpr ⟨?_, ih (List.nodup_cons.mp hb).2⟩
    intro hmem
    exact ha (List.mem_cons_of_mem _ (mem_of_mem_neighbours hmem).1)

/-- A list without repetitions is known from its pairs. -/
theorem neighbours_injective {nodes nodes' : List α} (hn : nodes.Nodup) (hn' : nodes'.Nodup)
    (h : neighbours nodes = neighbours nodes') : nodes = nodes' := by
  induction nodes using neighbours.induct generalizing nodes' with
  | case1 =>
    rcases nodes' with _ | ⟨a', _ | ⟨b', rest'⟩⟩
    · rfl
    · cases h
    · cases h
  | case2 a =>
    rcases nodes' with _ | ⟨a', _ | ⟨b', rest'⟩⟩
    · cases h
    · cases h
      rfl
    · rw [neighbours, neighbours, List.cons.injEq, Prod.mk.injEq] at h
      obtain ⟨⟨rfl, rfl⟩, -⟩ := h
      simp at hn'
  | case3 a b rest ih =>
    rcases nodes' with _ | ⟨a', _ | ⟨b', rest'⟩⟩
    · cases h
    · rw [neighbours, neighbours, List.cons.injEq, Prod.mk.injEq] at h
      obtain ⟨⟨rfl, rfl⟩, -⟩ := h
      simp at hn
    · rw [neighbours, neighbours, List.cons.injEq, Prod.mk.injEq] at h
      obtain ⟨⟨rfl, rfl⟩, hrest⟩ := h
      rw [ih hn.of_cons.of_cons hn'.of_cons.of_cons hrest]

/-- The node at `p` combines the two below it, or one with itself at the right edge. -/
theorem getD_merkleLevel [OfNat α 0] {nodes : List α} {p : Nat} (hp : 2 * p < nodes.length) :
    (merkleLevel hash2 nodes).getD p 0 = hash2 (nodes.getD (2 * p) 0)
      (nodes.getD (if 2 * p + 1 < nodes.length then 2 * p + 1 else 2 * p) 0) := by
  induction nodes using neighbours.induct generalizing p with
  | case1 => cases hp
  | case2 a =>
    obtain rfl : p = 0 := by
      rw [List.length_singleton] at hp
      omega
    rfl
  | case3 a b rest ih =>
    rw [List.length_cons, List.length_cons] at hp ⊢
    cases p with
    | zero =>
      rw [if_pos (by omega)]
      rfl
    | succ p =>
      have hif : (if 2 * (p + 1) + 1 < rest.length + 1 + 1 then 2 * (p + 1) + 1 else 2 * (p + 1)) =
          (if 2 * p + 1 < rest.length then 2 * p + 1 else 2 * p) + 1 + 1 := by
        split <;> split <;> omega
      rw [merkleLevel, List.getD_cons_succ, ih (by omega), hif, Nat.mul_succ,
        List.getD_cons_succ, List.getD_cons_succ, List.getD_cons_succ, List.getD_cons_succ]

/-! ## All levels -/

theorem levelAt_merkleLevel (height : Nat) (leaves : List α) :
    levelAt hash2 height (merkleLevel hash2 leaves) = levelAt hash2 (height + 1) leaves := by
  induction height with
  | zero => rfl
  | succ height ih => rw [levelAt, ih]; rfl

theorem levelAt_add (d height : Nat) (leaves : List α) :
    levelAt hash2 height (levelAt hash2 d leaves) = levelAt hash2 (height + d) leaves := by
  induction height with
  | zero => rw [Nat.zero_add]; rfl
  | succ height ih => rw [levelAt, ih, Nat.succ_add, levelAt]

theorem length_levelAt (height : Nat) (leaves : List α) :
    (levelAt hash2 height leaves).length = levelWidth leaves.length height := by
  induction height with
  | zero => simp [levelAt, levelWidth]
  | succ height ih =>
    have hpos : 0 < 2 ^ height := Nat.two_pow_pos height
    rw [levelAt, length_merkleLevel, ih, levelWidth, levelWidth, pow_succ,
      ← Nat.div_div_eq_div_mul, ← Nat.add_div_right _ hpos]
    congr 2
    omega

/-- The pairs that are hashed for a list of leaves, up to its root. -/
def combined (hash2 : α → α → α) (leaves : List α) : Set (α × α) :=
  {ab | ∃ height, 1 < (levelAt hash2 height leaves).length ∧
    ab ∈ neighbours (levelAt hash2 height leaves)}

/-- `root` is the root over the leaves, and `height` its height. -/
structure RootAt (hash2 : α → α → α) (leaves : List α) (height : Nat) (root : α) : Prop where
  top : levelAt hash2 height leaves = [root]
  below : ∀ h < height, 1 < (levelAt hash2 h leaves).length

theorem rootAt_singleton {a root : α} {height : Nat} :
    RootAt hash2 [a] height root ↔ height = 0 ∧ root = a := by
  constructor
  · rintro ⟨htop, hbelow⟩
    obtain rfl : height = 0 := by
      by_contra hne
      exact absurd (hbelow 0 (by omega)) (by simp [levelAt])
    exact ⟨rfl, (List.singleton_inj.mp htop).symm⟩
  · rintro ⟨rfl, rfl⟩
    exact ⟨rfl, fun h hh => absurd hh (Nat.not_lt_zero h)⟩

/-- The root over two or more leaves is the root over the level above them. -/
theorem rootAt_merkleLevel {leaves : List α} (hlen : 1 < leaves.length) {height : Nat} {root : α} :
    RootAt hash2 (merkleLevel hash2 leaves) height root ↔ RootAt hash2 leaves (height + 1) root := by
  constructor
  · rintro ⟨htop, hbelow⟩
    refine ⟨by rw [← levelAt_merkleLevel, htop], ?_⟩
    intro h hh
    cases h with
    | zero => exact hlen
    | succ h =>
      rw [← levelAt_merkleLevel]
      exact hbelow h (by omega)
  · rintro ⟨htop, hbelow⟩
    refine ⟨by rw [levelAt_merkleLevel, htop], ?_⟩
    intro h hh
    rw [levelAt_merkleLevel]
    exact hbelow (h + 1) (by omega)

theorem not_rootAt_nil {height : Nat} {root : α} : ¬ RootAt hash2 [] height root := by
  rintro ⟨htop, -⟩
  have hlen := congrArg List.length htop
  rw [length_levelAt, List.length_nil, List.length_singleton] at hlen
  exact absurd (lt_levelWidth.mp (hlen ▸ Nat.zero_lt_one)) (Nat.not_lt_zero _)

/-- `BuildMerkleTree` returns the root over the leaves. -/
theorem merkleRoot_eq_some_iff {fuel : Nat} {leaves : List α} (hfuel : leaves.length ≤ fuel)
    {root : α} :
    merkleRoot hash2 fuel leaves = some root ↔ ∃ height, RootAt hash2 leaves height root := by
  induction fuel generalizing leaves with
  | zero =>
    obtain rfl : leaves = [] := List.eq_nil_of_length_eq_zero (by omega)
    simp [merkleRoot, not_rootAt_nil]
  | succ fuel ih =>
    rcases leaves with _ | ⟨a, _ | ⟨b, rest⟩⟩
    · simp [merkleRoot, not_rootAt_nil]
    · simp [merkleRoot, rootAt_singleton, eq_comm]
    · have hlen : 1 < (a :: b :: rest).length := by simp
      have hshort : (merkleLevel hash2 (a :: b :: rest)).length ≤ fuel := by
        rw [length_merkleLevel]
        omega
      change merkleRoot hash2 fuel (merkleLevel hash2 (a :: b :: rest)) = some root ↔ _
      rw [ih hshort]
      constructor
      · rintro ⟨height, h⟩
        exact ⟨height + 1, (rootAt_merkleLevel hlen).mp h⟩
      · rintro ⟨height, h⟩
        cases height with
        | zero => exact absurd (congrArg List.length h.top) (by simp [levelAt])
        | succ height => exact ⟨height, (rootAt_merkleLevel hlen).mpr h⟩

theorem exists_merkleRoot {fuel : Nat} {leaves : List α} (hne : leaves ≠ [])
    (hfuel : leaves.length ≤ fuel) : ∃ root, merkleRoot hash2 fuel leaves = some root := by
  induction fuel generalizing leaves with
  | zero => exact absurd (List.eq_nil_of_length_eq_zero (by omega)) hne
  | succ fuel ih =>
    rcases leaves with _ | ⟨a, _ | ⟨b, rest⟩⟩
    · exact absurd rfl hne
    · exact ⟨a, rfl⟩
    · apply ih
      · simp [merkleLevel]
      · rw [length_merkleLevel]
        simp only [List.length_cons] at hfuel ⊢
        omega

/-! ## Lists without repetitions -/

/-- No two of the given pairs collide, and none hashes to a leaf. -/
structure CollisionFree (hash2 : α → α → α) (pairs : Set (α × α)) (leaves : List α) : Prop where
  injOn : Set.InjOn (fun ab : α × α => hash2 ab.1 ab.2) pairs
  fresh : ∀ ab ∈ pairs, hash2 ab.1 ab.2 ∉ leaves

theorem CollisionFree.of_injective {leaves : List α} (hinj : Function.Injective2 hash2)
    (hfresh : ∀ a b, hash2 a b ∉ leaves) (pairs : Set (α × α)) :
    CollisionFree hash2 pairs leaves := by
  refine ⟨?_, fun ab _ => hfresh ab.1 ab.2⟩
  rintro ⟨a, b⟩ - ⟨c, d⟩ - h
  obtain ⟨rfl, rfl⟩ := hinj h
  rfl

theorem nodup_levelAt {leaves : List α} {height : Nat} (hn : leaves.Nodup)
    (hinj : Set.InjOn (fun ab : α × α => hash2 ab.1 ab.2) (combined hash2 leaves))
    (hbelow : ∀ h < height, 1 < (levelAt hash2 h leaves).length) :
    (levelAt hash2 height leaves).Nodup := by
  induction height with
  | zero => exact hn
  | succ height ih =>
    rw [levelAt, merkleLevel_eq_map]
    apply List.Nodup.map_on
    · intro ab hab cd hcd heq
      exact hinj ⟨height, hbelow height (by omega), hab⟩ ⟨height, hbelow height (by omega), hcd⟩ heq
    · exact nodup_neighbours (ih fun h hh => hbelow h (by omega))

theorem map_injOn {β γ : Type} {f : β → γ} {S : Set β} (hinj : Set.InjOn f S) {l l' : List β}
    (hl : ∀ b ∈ l, b ∈ S) (hl' : ∀ b ∈ l', b ∈ S) (h : l.map f = l'.map f) : l = l' := by
  induction l generalizing l' with
  | nil => exact (List.map_eq_nil_iff.mp h.symm).symm
  | cons b l ih =>
    rcases l' with _ | ⟨b', l'⟩
    · cases h
    · rw [List.map_cons, List.map_cons, List.cons.injEq] at h
      rw [hinj (hl b List.mem_cons_self) (hl' b' List.mem_cons_self) h.1,
        ih (fun c hc => hl c (List.mem_cons_of_mem _ hc))
          (fun c hc => hl' c (List.mem_cons_of_mem _ hc)) h.2]

/-- Lists without repetitions that have the same root at the same height are equal. -/
theorem eq_of_rootAt {leaves leaves' : List α} {height : Nat} {root : α}
    (hn : leaves.Nodup) (hn' : leaves'.Nodup)
    (hinj : Set.InjOn (fun ab : α × α => hash2 ab.1 ab.2)
      (combined hash2 leaves ∪ combined hash2 leaves'))
    (h : RootAt hash2 leaves height root) (h' : RootAt hash2 leaves' height root) :
    leaves = leaves' := by
  -- from the root down, each level is known from the one above it
  have hdown : ∀ d k, k + d = height → levelAt hash2 k leaves = levelAt hash2 k leaves' := by
    intro d
    induction d with
    | zero =>
      rintro k rfl
      exact h.top.trans h'.top.symm
    | succ d ih =>
      intro k hk
      have hlt : k < height := by omega
      have habove := ih (k + 1) (by omega)
      rw [levelAt, levelAt, merkleLevel_eq_map, merkleLevel_eq_map] at habove
      have hpairs := map_injOn hinj (fun ab hab => Or.inl ⟨k, h.below k hlt, hab⟩)
        (fun ab hab => Or.inr ⟨k, h'.below k hlt, hab⟩) habove
      refine neighbours_injective ?_ ?_ hpairs
      · exact nodup_levelAt hn (hinj.mono Set.subset_union_left) fun j hj => h.below j (by omega)
      · exact nodup_levelAt hn' (hinj.mono Set.subset_union_right) fun j hj => h'.below j (by omega)
  exact hdown height 0 (Nat.zero_add _)

theorem combined_levelAt_subset (d : Nat) (leaves : List α) :
    combined hash2 (levelAt hash2 d leaves) ⊆ combined hash2 leaves := by
  rintro ab ⟨height, hlen, hab⟩
  rw [levelAt_add] at hlen hab
  exact ⟨height + d, hlen, hab⟩

theorem RootAt.above {leaves : List α} {height d : Nat} {root : α}
    (h : RootAt hash2 leaves (height + d) root) : RootAt hash2 (levelAt hash2 d leaves) height root := by
  refine ⟨by rw [levelAt_add, h.top], ?_⟩
  intro j hj
  rw [levelAt_add]
  exact h.below (j + d) (by omega)

theorem mem_levelAt_succ {leaves : List α} {height : Nat} {a : α}
    (ha : a ∈ levelAt hash2 (height + 1) leaves) :
    ∃ ab ∈ neighbours (levelAt hash2 height leaves), hash2 ab.1 ab.2 = a := by
  rw [levelAt, merkleLevel_eq_map] at ha
  exact List.mem_map.mp ha

/-- Two lists without repetitions with the same root have roots of the same height. -/
theorem height_le_of_rootAt {leaves leaves' : List α} {height height' : Nat} {root : α}
    (hne : leaves ≠ []) (hn : leaves.Nodup) (hn' : leaves'.Nodup)
    (hfree : CollisionFree hash2 (combined hash2 leaves ∪ combined hash2 leaves')
      (leaves ++ leaves'))
    (h : RootAt hash2 leaves height root) (h' : RootAt hash2 leaves' height' root) :
    height' ≤ height := by
  by_contra hlt
  obtain ⟨d, rfl⟩ : ∃ d, height' = height + (d + 1) := ⟨height' - height - 1, by omega⟩
  have hbelow : ∀ j < d + 1, 1 < (levelAt hash2 j leaves').length :=
    fun j hj => h'.below j (by omega)
  have hnodup : (levelAt hash2 (d + 1) leaves').Nodup :=
    nodup_levelAt hn' (hfree.injOn.mono Set.subset_union_right) hbelow
  have hinj := hfree.injOn.mono
    (Set.union_subset_union_right (combined hash2 leaves) (combined_levelAt_subset (d + 1) leaves'))
  have heq : leaves = levelAt hash2 (d + 1) leaves' :=
    eq_of_rootAt hn hnodup hinj h h'.above
  -- so a leaf of the lower tree is the hash of a pair of the higher one
  obtain ⟨a, ha⟩ := List.exists_mem_of_ne_nil _ hne
  obtain ⟨ab, hab, hhash⟩ := mem_levelAt_succ (heq ▸ ha)
  exact hfree.fresh ab (Or.inr ⟨d, hbelow d (by omega), hab⟩)
    (List.mem_append_left _ (hhash ▸ ha))

theorem merkleRoot_injective {leaves leaves' : List α} (hne : leaves ≠ []) (hne' : leaves' ≠ [])
    (hn : leaves.Nodup) (hn' : leaves'.Nodup)
    (hfree : CollisionFree hash2 (combined hash2 leaves ∪ combined hash2 leaves')
      (leaves ++ leaves'))
    (heq : merkleRoot hash2 leaves.length leaves = merkleRoot hash2 leaves'.length leaves') :
    leaves = leaves' := by
  obtain ⟨root, hroot⟩ : ∃ root, merkleRoot hash2 leaves.length leaves = some root :=
    exists_merkleRoot hne (le_refl _)
  obtain ⟨height, h⟩ := (merkleRoot_eq_some_iff (le_refl _)).mp hroot
  obtain ⟨height', h'⟩ := (merkleRoot_eq_some_iff (le_refl _)).mp (heq ▸ hroot)
  have hle := height_le_of_rootAt hne hn hn' hfree h h'
  have hfree' : CollisionFree hash2 (combined hash2 leaves' ∪ combined hash2 leaves)
      (leaves' ++ leaves) := by
    rw [Set.union_comm]
    refine ⟨hfree.injOn, fun ab hab hmem => hfree.fresh ab hab ?_⟩
    rwa [List.mem_append, or_comm, ← List.mem_append]
  have hge := height_le_of_rootAt hne' hn' hn hfree' h' h
  obtain rfl : height = height' := by omega
  exact eq_of_rootAt hn hn' hfree.injOn h h'

/-- A list of transaction ids without repetitions is known from its merkle root, so two blocks that
pass `CheckBlock` and have one header hold the same transactions; without the test for repetitions
they need not. -/
theorem merkleRoot_binding [Hashing] :
    (∀ {α : Type} {hash2 : α → α → α} {vTxid vTxid' : List α}, vTxid ≠ [] → vTxid' ≠ [] →
      vTxid.Nodup → vTxid'.Nodup →
      CollisionFree hash2 (combined hash2 vTxid ∪ combined hash2 vTxid') (vTxid ++ vTxid') →
      merkleRoot hash2 vTxid.length vTxid = merkleRoot hash2 vTxid'.length vTxid' →
      vTxid = vTxid') ∧
    (∀ {b b' : CBlock} {t t' : Int} {fPOW fPOW' : Bool}, b.checkBlock t fPOW true = .ok () →
      b'.checkBlock t' fPOW' true = .ok () → b.toCBlockHeader = b'.toCBlockHeader →
      CollisionFree Hashing.hash2
        (combined Hashing.hash2 (b.vtx.map CTransaction.getHash) ∪
          combined Hashing.hash2 (b'.vtx.map CTransaction.getHash))
        (b.vtx.map CTransaction.getHash ++ b'.vtx.map CTransaction.getHash) →
      b.vtx.map CTransaction.getHash = b'.vtx.map CTransaction.getHash) ∧
    ∀ {α : Type} (hash2 : α → α → α) (x y z : α),
      merkleRoot hash2 3 [x, y, z] = merkleRoot hash2 4 [x, y, z, z] := by
  refine ⟨fun hne hne' hn hn' => merkleRoot_injective hne hne' hn hn', ?_, fun hash2 x y z => rfl⟩
  intro b b' t t' fPOW fPOW' h h' hheader hfree
  have hchecked := CBlock.checked_of_checkBlock h
  have hchecked' := CBlock.checked_of_checkBlock h'
  have hne : b.vtx.map CTransaction.getHash ≠ [] := by
    obtain ⟨cb, rest, hvtx, -⟩ := hchecked.coinbase
    simp [hvtx]
  have hne' : b'.vtx.map CTransaction.getHash ≠ [] := by
    obtain ⟨cb, rest, hvtx, -⟩ := hchecked'.coinbase
    simp [hvtx]
  apply merkleRoot_injective hne hne' hchecked.nodup hchecked'.nodup hfree
  rw [List.length_map, List.length_map]
  have hroot : b.buildMerkleTree = b'.buildMerkleTree := by
    rw [← CBlock.hashMerkleRoot_of_checkBlock h, ← CBlock.hashMerkleRoot_of_checkBlock h', hheader]
  have hexists : ∀ b : CBlock, b.vtx.map CTransaction.getHash ≠ [] → ∃ root,
      merkleRoot Hashing.hash2 b.vtx.length (b.vtx.map CTransaction.getHash) = some root :=
    fun b hb => exists_merkleRoot hb (List.length_map CTransaction.getHash).le
  obtain ⟨root, hr⟩ := hexists b hne
  obtain ⟨root', hr'⟩ := hexists b' hne'
  rw [CBlock.buildMerkleTree, CBlock.buildMerkleTree, hr, hr', Option.getD_some,
    Option.getD_some] at hroot
  rw [hr, hr', hroot]

namespace Sample

/-- Hashes that cannot collide: a hash is the pair it was made of. -/
inductive Digest where
  | txid (n : Nat)
  | pair (left right : Digest)
deriving DecidableEq, Repr

instance : OfNat Digest 0 := ⟨.txid 0⟩

theorem digest_injective : Function.Injective2 Digest.pair := by
  intro a b c d h
  exact Digest.pair.inj h

theorem combined_pair {α : Type} {hash2 : α → α → α} {a b : α} :
    combined hash2 [a, b] = {(a, b)} := by
  ext ab
  constructor
  · rintro ⟨height, hlen, hab⟩
    rw [length_levelAt] at hlen
    obtain rfl : height = 0 := by
      by_contra hne
      have hmono : 2 ^ 1 ≤ 2 ^ height := Nat.pow_le_pow_right (by omega) (by omega)
      have := lt_levelWidth.mp hlen
      simp at this
      omega
    exact List.mem_singleton.mp hab
  · rintro rfl
    exact ⟨0, Nat.lt_succ_self 1, List.mem_singleton_self _⟩

/-- A block with a coinbase and one more transaction. -/
def pairBlock : CBlock := block 0 3 [coinbase 1 coin, spending 2 [(7, 0)] [1]]

theorem merkleRoot_binding_sample :
    ([Digest.txid 1, .txid 2] = [Digest.txid 1, .txid 2] ∧
      merkleRoot Digest.pair 2 [.txid 1, .txid 2] = some (.pair (.txid 1) (.txid 2))) ∧
    pairBlock.checkBlock 1000 false true = .ok () ∧
    pairBlock.vtx.map CTransaction.getHash = pairBlock.vtx.map CTransaction.getHash := by
  have hfree : CollisionFree Digest.pair
      (combined Digest.pair [.txid 1, .txid 2] ∪ combined Digest.pair [.txid 1, .txid 2])
      ([.txid 1, .txid 2] ++ [.txid 1, .txid 2]) :=
    .of_injective digest_injective (by simp) _
  refine ⟨⟨merkleRoot_binding.1 (by simp) (by simp) (by decide) (by decide) hfree rfl, rfl⟩,
    by decide +kernel, ?_⟩
  have hcheck : pairBlock.checkBlock 1000 false true = .ok () := by decide +kernel
  have htxids : pairBlock.vtx.map CTransaction.getHash = [1, 2] := by decide
  refine merkleRoot_binding.2.1 hcheck hcheck rfl ?_
  rw [htxids, combined_pair, Set.union_self]
  refine ⟨Set.injOn_singleton _ _, ?_⟩
  intro ab hab
  rw [Set.mem_singleton_iff.mp hab]
  decide

end Sample

end Terracoin
