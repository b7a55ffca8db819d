import Terracoin.Lib.PrunedTree
import Terracoin.Merkle.Levels
import Terracoin.Serialize.Coins

/-!
# `CPartialMerkleTree`

A proof that some transactions are in a block: flag bits and hashes in the order in which the tree
is walked. Building one and extracting the matches are generic in the type of the hashes and in
the function that combines two of them; the serialization is for `uint256`.

Both walks are shown to agree with a pruned tree (`traverseAndBuild_spec`,
`traverseAndExtract_of_shaped`, `shaped_of_traverseAndExtract`).
-/

namespace Terracoin

open Codec

structure CPartialMerkleTree (α : Type) where
  /-- The total number of transactions in the block. -/
  nTransactions : UInt32
  /-- Node-is-parent-of-matched-txid bits. -/
  vBits : List Bool
  /-- Transaction ids and internal hashes. -/
  vHash : List α
  /-- Set when encountering invalid data. -/
  fBad : Bool
deriving DecidableEq, Repr

/-- `CalcTreeWidth`, computed in 32 bits. -/
def calcTreeWidth (nTransactions : UInt32) (height : Nat) : Nat :=
  (nTransactions.toNat + 2 ^ height - 1) % 2 ^ 32 / 2 ^ height

def treeHeightFrom (nTransactions : UInt32) : Nat → Nat → Nat
  | 0, nHeight => nHeight
  | fuel + 1, nHeight =>
    if 1 < calcTreeWidth nTransactions nHeight then treeHeightFrom nTransactions fuel (nHeight + 1)
    else nHeight

/-- At height 32 the width is zero, so 32 rounds are enough. -/
def treeHeight (nTransactions : UInt32) : Nat := treeHeightFrom nTransactions 32 0

namespace CPartialMerkleTree

variable {α : Type} [OfNat α 0] (hash2 : α → α → α)

/-! ## Building a tree -/

def calcHash (nTransactions : UInt32) (vTxid : List α) : Nat → Nat → α
  | 0, pos => vTxid.getD pos 0
  | height + 1, pos =>
    let left := calcHash nTransactions vTxid height (pos * 2)
    let right :=
      if pos * 2 + 1 < calcTreeWidth nTransactions height then
        calcHash nTransactions vTxid height (pos * 2 + 1)
      else left
    hash2 left right

/-- The matched transactions below a node, by their position in the block. -/
def matchedBelow (nTransactions : UInt32) (vMatch : List Bool) (height pos : Nat) : List Nat :=
  (List.range' (pos * 2 ^ height) (2 ^ height)).filter fun p =>
    p < nTransactions.toNat && vMatch.getD p false

/-- The loop of `TraverseAndBuild`: the node is the parent of a matched transaction. -/
def fParentOfMatch (nTransactions : UInt32) (vMatch : List Bool) (height pos : Nat) : Bool :=
  (List.range' (pos * 2 ^ height) (2 ^ height)).any fun p =>
    p < nTransactions.toNat && vMatch.getD p false

def traverseAndBuild (vTxid : List α) (vMatch : List Bool) :
    Nat → Nat → CPartialMerkleTree α → CPartialMerkleTree α
  | 0, pos, t =>
    { t with
      vBits := t.vBits ++ [fParentOfMatch t.nTransactions vMatch 0 pos]
      vHash := t.vHash ++ [calcHash hash2 t.nTransactions vTxid 0 pos] }
  | height + 1, pos, t =>
    let f := fParentOfMatch t.nTransactions vMatch (height + 1) pos
    let t1 := { t with vBits := t.vBits ++ [f] }
    if !f then
      -- nothing interesting below: store the hash and stop
      { t1 with vHash := t1.vHash ++ [calcHash hash2 t1.nTransactions vTxid (height + 1) pos] }
    else
      let t2 := traverseAndBuild vTxid vMatch height (pos * 2) t1
      if pos * 2 + 1 < calcTreeWidth t2.nTransactions height then
        traverseAndBuild vTxid vMatch height (pos * 2 + 1) t2
      else t2

/-- The constructor from a list of transaction ids and a mask that selects some of them. -/
def ofTxids (vTxid : List α) (vMatch : List Bool) : CPartialMerkleTree α :=
  let nTransactions := UInt32.ofNat vTxid.length
  traverseAndBuild hash2 vTxid vMatch (treeHeight nTransactions) 0 ⟨nTransactions, [], [], false⟩

/-! ## Extracting the matches -/

/-- What `TraverseAndExtract` works on: the two counters, the matches so far and `fBad`. -/
structure Extraction (α : Type) where
  nBitsUsed : Nat
  nHashUsed : Nat
  vMatch : List α
  fBad : Bool
deriving DecidableEq, Repr

/-- Use the next stored hash and do not descend. -/
def useHash (t : CPartialMerkleTree α) (fMatched : Bool) (s : Extraction α) : α × Extraction α :=
  match t.vHash[s.nHashUsed]? with
  | none => (0, { s with fBad := true })
  | some hash =>
    (hash, { s with
      nHashUsed := s.nHashUsed + 1
      vMatch := if fMatched then s.vMatch ++ [hash] else s.vMatch })

def traverseAndExtract (t : CPartialMerkleTree α) :
    Nat → Nat → Extraction α → α × Extraction α
  | height, pos, s =>
    match t.vBits[s.nBitsUsed]? with
    | none => (0, { s with fBad := true })
    | some f =>
      let s := { s with nBitsUsed := s.nBitsUsed + 1 }
      match height with
      | 0 => t.useHash f s
      | height + 1 =>
        if !f then t.useHash false s
        else
          let (left, s) := traverseAndExtract t height (pos * 2) s
          if pos * 2 + 1 < calcTreeWidth t.nTransactions height then
            let (right, s) := traverseAndExtract t height (pos * 2 + 1) s
            (hash2 left right, s)
          else (hash2 left left, s)

/-- `ExtractMatches`: the root, or 0 on failure, the matches, and the object afterwards. -/
def extractMatches (t : CPartialMerkleTree α) : α × List α × CPartialMerkleTree α :=
  if t.nTransactions = 0 then (0, [], t)
  else if maxBlockSize / 60 < t.nTransactions.toNat then (0, [], t)
  else if t.nTransactions.toNat < t.vHash.length then (0, [], t)
  else if t.vBits.length < t.vHash.length then (0, [], t)
  else
    let (hashMerkleRoot, s) :=
      t.traverseAndExtract hash2 (treeHeight t.nTransactions) 0 ⟨0, 0, [], t.fBad⟩
    let t' := { t with fBad := s.fBad }
    if s.fBad then (0, s.vMatch, t')
    -- all bits are used, up to the padding of the last byte
    else if (s.nBitsUsed + 7) / 8 ≠ (t.vBits.length + 7) / 8 then (0, s.vMatch, t')
    else if s.nHashUsed ≠ t.vHash.length then (0, s.vMatch, t')
    else (hashMerkleRoot, s.vMatch, t')

theorem calcTreeWidth_eq {nTransactions : UInt32} {height : Nat}
    (hn : nTransactions.toNat ≤ maxBlockSize / 60) (hh : height ≤ 31) :
    calcTreeWidth nTransactions height = levelWidth nTransactions.toNat height := by
  have hpow : 2 ^ height ≤ 2 ^ 31 := Nat.pow_le_pow_right (by omega) hh
  have hmax : maxBlockSize / 60 = 16666 := rfl
  rw [calcTreeWidth, levelWidth, Nat.mod_eq_of_lt (by omega)]

theorem treeHeightFrom_spec {nTransactions : UInt32} (fuel nHeight : Nat) {k : Nat}
    (hk : calcTreeWidth nTransactions k ≤ 1) (hle : nHeight ≤ k) (hfuel : k ≤ nHeight + fuel) :
    calcTreeWidth nTransactions (treeHeightFrom nTransactions fuel nHeight) ≤ 1 ∧
      treeHeightFrom nTransactions fuel nHeight ≤ k ∧
      ∀ h, nHeight ≤ h → h < treeHeightFrom nTransactions fuel nHeight →
        1 < calcTreeWidth nTransactions h := by
  induction fuel generalizing nHeight with
  | zero =>
    obtain rfl : nHeight = k := by omega
    exact ⟨hk, le_refl _, fun h h1 h2 => absurd h2 (Nat.not_lt.mpr h1)⟩
  | succ fuel ih =>
    rw [treeHeightFrom]
    split
    · rename_i hlt
      have hne : nHeight ≠ k := by
        rintro rfl
        omega
      obtain ⟨h1, h2, h3⟩ := ih (nHeight + 1) (by omega) (by omega)
      refine ⟨h1, h2, ?_⟩
      intro h hge hh
      rcases Nat.eq_or_lt_of_le hge with rfl | hge
      · exact hlt
      · exact h3 h hge hh
    · exact ⟨by omega, hle, fun h h1 h2 => absurd h2 (Nat.not_lt.mpr h1)⟩

theorem treeHeight_spec {nTransactions : UInt32}
    (hn : nTransactions.toNat ≤ maxBlockSize / 60) :
    calcTreeWidth nTransactions (treeHeight nTransactions) ≤ 1 ∧ treeHeight nTransactions ≤ 31 ∧
      ∀ h < treeHeight nTransactions, 1 < calcTreeWidth nTransactions h := by
  have hmax : maxBlockSize / 60 = 16666 := rfl
  have h31 : calcTreeWidth nTransactions 31 ≤ 1 := by
    rw [calcTreeWidth_eq hn (le_refl 31)]
    by_contra hlt
    have := lt_levelWidth.mp (Nat.lt_of_not_le hlt)
    omega
  obtain ⟨h1, h2, h3⟩ := treeHeightFrom_spec 32 0 h31 (by omega) (by omega)
  exact ⟨h1, h2, fun h hh => h3 h (Nat.zero_le h) hh⟩

/-! ## Building -/

section

variable {nTransactions : UInt32} {vMatch : List Bool} {height pos : Nat}

theorem fParentOfMatch_eq :
    fParentOfMatch nTransactions vMatch height pos =
      !(matchedBelow nTransactions vMatch height pos).isEmpty := by
  rw [fParentOfMatch, matchedBelow, Bool.eq_iff_iff, List.any_eq_true, Bool.not_eq_true',
    List.isEmpty_eq_false_iff, Ne, List.filter_eq_nil_iff]
  push Not
  rfl

theorem matchedBelow_succ :
    matchedBelow nTransactions vMatch (height + 1) pos =
      matchedBelow nTransactions vMatch height (pos * 2) ++
        matchedBelow nTransactions vMatch height (pos * 2 + 1) := by
  have hstart : pos * 2 ^ (height + 1) = pos * 2 * 2 ^ height := by ring
  have hnext : (pos * 2 + 1) * 2 ^ height = pos * 2 * 2 ^ height + 1 * 2 ^ height := by ring
  have hlen : 2 ^ (height + 1) = 2 ^ height + 2 ^ height := by ring
  rw [matchedBelow, matchedBelow, matchedBelow, ← List.filter_append, hstart, hlen, hnext, Nat.one_mul,
    List.range'_append_1]

theorem matchedBelow_of_width_le (pos : Nat) (hn : nTransactions.toNat ≤ maxBlockSize / 60)
    (hh : height ≤ 31)
    (h : calcTreeWidth nTransactions height ≤ pos) :
    matchedBelow nTransactions vMatch height pos = [] := by
  rw [calcTreeWidth_eq hn hh] at h
  rw [matchedBelow, List.filter_eq_nil_iff]
  intro p hp
  have hle := (List.mem_range'_1.mp hp).1
  have hedge : ¬ pos * 2 ^ height < nTransactions.toNat := fun hlt =>
    Nat.not_lt.mpr h (lt_levelWidth.mpr hlt)
  simp only [Bool.and_eq_true, decide_eq_true_eq, not_and]
  omega

end

variable {hash2 : α → α → α}

/-- `TraverseAndBuild` writes a pruned tree down: its root is `CalcHash` of the node, its marked
leaves are the matched transactions below it. -/
theorem traverseAndBuild_spec (hash2 : α → α → α) (vTxid : List α) (vMatch : List Bool)
    {height : Nat} (pos : Nat) (t : CPartialMerkleTree α)
    (hn : t.nTransactions.toNat ≤ maxBlockSize / 60) (hh : height ≤ 31) :
    ∃ tree : PrunedTree α, tree.Shaped (calcTreeWidth t.nTransactions) height pos ∧
      traverseAndBuild hash2 vTxid vMatch height pos t =
        { t with vBits := t.vBits ++ tree.flags, vHash := t.vHash ++ tree.values } ∧
      tree.root hash2 = calcHash hash2 t.nTransactions vTxid height pos ∧
      (tree.marked = (matchedBelow t.nTransactions vMatch height pos).map fun p => vTxid.getD p 0) ∧
      tree.Pruned ∧ tree.positions pos = matchedBelow t.nTransactions vMatch height pos := by
  induction height generalizing pos t with
  | zero =>
    rw [traverseAndBuild, fParentOfMatch_eq]
    cases hf : matchedBelow t.nTransactions vMatch 0 pos with
    | nil => exact ⟨.stub _, .stub _, rfl, rfl, rfl, trivial, rfl⟩
    | cons p ps =>
      have hps : p :: ps = [pos] := by
        rw [matchedBelow, pow_zero, Nat.mul_one, List.range'_one] at hf
        rw [← hf, List.filter_eq_self]
        intro q hq
        obtain rfl := List.mem_singleton.mp hq
        have hmem : p ∈ List.filter (fun p => p < t.nTransactions.toNat && vMatch.getD p false) [q] :=
          hf ▸ List.mem_cons_self
        obtain ⟨hpq, hp⟩ := List.mem_filter.mp hmem
        rwa [List.mem_singleton.mp hpq] at hp
      rw [hps]
      exact ⟨.leaf (vTxid.getD pos 0), .leaf _, rfl, rfl, rfl, trivial, rfl⟩
  | succ height ih =>
    rw [traverseAndBuild, fParentOfMatch_eq]
    cases hf : (matchedBelow t.nTransactions vMatch (height + 1) pos).isEmpty with
    | true =>
      rw [List.isEmpty_iff] at hf
      refine ⟨.stub (calcHash hash2 t.nTransactions vTxid (height + 1) pos), .stub _, rfl, rfl, ?_,
        trivial, hf.symm⟩
      rw [hf]
      rfl
    | false =>
      have hlength : 0 < (matchedBelow t.nTransactions vMatch (height + 1) pos).length :=
        List.length_pos_iff.mpr (List.isEmpty_eq_false_iff.mp hf)
      rw [matchedBelow_succ, List.length_append] at hlength
      obtain ⟨l, hl, hbuild, hroot, hmarked, hpruned, hpositions⟩ :=
        ih (pos * 2) { t with vBits := t.vBits ++ [true] } hn (by omega)
      simp only [Bool.not_false, Bool.not_true, Bool.false_eq_true, if_false]
      rw [hbuild]
      dsimp only at hl hroot hmarked hpositions ⊢
      by_cases hw : pos * 2 + 1 < calcTreeWidth t.nTransactions height
      · obtain ⟨r, hr, hbuild', hroot', hmarked', hpruned', hpositions'⟩ := ih (pos * 2 + 1)
          { t with vBits := t.vBits ++ [true] ++ l.flags, vHash := t.vHash ++ l.values } hn
          (by omega)
        dsimp only at hr hroot' hmarked' hpositions'
        refine ⟨.node l r, .node hw hl hr, ?_, ?_, ?_, ⟨?_, hpruned, hpruned'⟩, ?_⟩
        · rw [if_pos hw, hbuild']
          simp [PrunedTree.flags, PrunedTree.values]
        · rw [PrunedTree.root, hroot, hroot', calcHash]
          rw [if_pos hw]
        · rw [PrunedTree.marked, hmarked, hmarked', matchedBelow_succ, List.map_append]
        · rwa [hmarked, hmarked', List.length_map, List.length_map]
        · rw [PrunedTree.positions, hpositions, hpositions', matchedBelow_succ]
      · have hright : matchedBelow t.nTransactions vMatch height (pos * 2 + 1) = [] :=
          matchedBelow_of_width_le _ hn (Nat.le_of_succ_le hh) (Nat.not_lt.mp hw)
        refine ⟨.copied l, .copied (by omega) hl, ?_, ?_, ?_, ⟨?_, hpruned⟩, ?_⟩
        · rw [if_neg hw]
          simp [PrunedTree.flags, PrunedTree.values]
        · rw [PrunedTree.root, hroot, calcHash]
          rw [if_neg hw]
        · rw [PrunedTree.marked, hmarked, matchedBelow_succ, hright, List.append_nil]
        · rw [hright] at hlength
          rwa [hmarked, List.length_map]
        · rw [PrunedTree.positions, hpositions, matchedBelow_succ, hright, List.append_nil]

/-! ## Extracting -/

section

variable {β : Type} {l : List β} {n : Nat}

theorem cons_prefix_drop_iff {b : β} {bs : List β} :
    b :: bs <+: l.drop n ↔ l[n]? = some b ∧ bs <+: l.drop (n + 1) := by
  constructor
  · rintro ⟨rest, h⟩
    have hget : l[n]? = some b := by
      rw [← Nat.add_zero n, ← List.getElem?_drop, ← h]
      rfl
    refine ⟨hget, rest, ?_⟩
    rw [← List.tail_drop, ← h]
    rfl
  · rintro ⟨hget, rest, h⟩
    refine ⟨rest, ?_⟩
    obtain ⟨hlt, hget⟩ := List.getElem?_eq_some_iff.mp hget
    rw [List.drop_eq_getElem_cons hlt, hget, ← h]
    rfl

theorem append_prefix_drop_iff {as bs : List β} :
    as ++ bs <+: l.drop n ↔ as <+: l.drop n ∧ bs <+: l.drop (n + as.length) := by
  induction as generalizing n with
  | nil => simp
  | cons a as ih =>
    rw [List.cons_append, cons_prefix_drop_iff, cons_prefix_drop_iff, ih, List.length_cons, and_assoc,
      Nat.add_assoc, Nat.add_comm 1]

end

variable {t : CPartialMerkleTree α}

/-- `fBad` is never cleared. -/
theorem fBad_traverseAndExtract {height pos : Nat} {s : Extraction α} (hs : s.fBad = true) :
    (t.traverseAndExtract hash2 height pos s).2.fBad = true := by
  have huse : ∀ {f : Bool} {s : Extraction α}, s.fBad = true → (t.useHash f s).2.fBad = true := by
    intro f s hs
    rw [useHash]
    split
    · rfl
    · exact hs
  induction height generalizing pos s with
  | zero =>
    rw [traverseAndExtract]
    split
    · rfl
    · exact huse hs
  | succ height ih =>
    rw [traverseAndExtract]
    split
    · rfl
    · dsimp only
      split
      · exact huse hs
      · split
        · exact ih (ih hs)
        · exact ih hs

/-- The walk along flags and hashes that start with those of a pruned tree. -/
theorem traverseAndExtract_of_shaped (hash2 : α → α → α) {tree : PrunedTree α} {height pos : Nat}
    (h : tree.Shaped (calcTreeWidth t.nTransactions) height pos) {s : Extraction α}
    (hflags : tree.flags <+: t.vBits.drop s.nBitsUsed)
    (hvalues : tree.values <+: t.vHash.drop s.nHashUsed) :
    t.traverseAndExtract hash2 height pos s = (tree.root hash2, { s with
      nBitsUsed := s.nBitsUsed + tree.flags.length
      nHashUsed := s.nHashUsed + tree.values.length
      vMatch := s.vMatch ++ tree.marked }) := by
  induction h generalizing s with
  | @stub height pos a =>
    obtain ⟨hf, -⟩ := cons_prefix_drop_iff.mp hflags
    obtain ⟨ha, -⟩ := cons_prefix_drop_iff.mp hvalues
    cases height with
    | zero =>
      rw [traverseAndExtract, hf]
      simp [useHash, ha, PrunedTree.root, PrunedTree.flags, PrunedTree.values, PrunedTree.marked]
    | succ height =>
      rw [traverseAndExtract, hf]
      simp [useHash, ha, PrunedTree.root, PrunedTree.flags, PrunedTree.values, PrunedTree.marked]
  | @leaf pos a =>
    obtain ⟨hf, -⟩ := cons_prefix_drop_iff.mp hflags
    obtain ⟨ha, -⟩ := cons_prefix_drop_iff.mp hvalues
    rw [traverseAndExtract, hf]
    simp [useHash, ha, PrunedTree.root, PrunedTree.flags, PrunedTree.values, PrunedTree.marked]
  | @copied height pos l hw hl ih =>
    obtain ⟨hf, hflags⟩ := cons_prefix_drop_iff.mp hflags
    have hleft := ih (s := { s with nBitsUsed := s.nBitsUsed + 1 }) hflags hvalues
    rw [traverseAndExtract, hf]
    simp only [Bool.not_true, Bool.false_eq_true, if_false]
    rw [hleft]
    dsimp only
    rw [if_neg (by omega), PrunedTree.root, PrunedTree.flags, PrunedTree.values, PrunedTree.marked,
      List.length_cons, Nat.add_assoc, Nat.add_comm 1]
  | @node height pos l r hw hl hr ihl ihr =>
    obtain ⟨hf, hflags⟩ := cons_prefix_drop_iff.mp hflags
    obtain ⟨hfl, hfr⟩ := append_prefix_drop_iff.mp hflags
    obtain ⟨hvl, hvr⟩ := append_prefix_drop_iff.mp hvalues
    have hleft := ihl (s := { s with nBitsUsed := s.nBitsUsed + 1 }) hfl hvl
    rw [traverseAndExtract, hf]
    simp only [Bool.not_true, Bool.false_eq_true, if_false]
    rw [hleft]
    dsimp only
    rw [if_pos hw, ihr hfr hvr]
    simp only [PrunedTree.root, PrunedTree.flags, PrunedTree.values, PrunedTree.marked,
      List.length_cons, List.length_append, List.append_assoc, Nat.add_assoc, Nat.add_comm 1]

/-- A walk that meets nothing invalid walks along a pruned tree. -/
theorem shaped_of_traverseAndExtract {height pos : Nat} {s : Extraction α}
    (h : (t.traverseAndExtract hash2 height pos s).2.fBad = false) :
    ∃ tree : PrunedTree α, tree.Shaped (calcTreeWidth t.nTransactions) height pos ∧
      tree.flags <+: t.vBits.drop s.nBitsUsed ∧ tree.values <+: t.vHash.drop s.nHashUsed := by
  induction height generalizing pos s with
  | zero =>
    rw [traverseAndExtract] at h
    split at h
    · cases h
    · rename_i f hf
      dsimp only at h
      rw [useHash] at h
      split at h
      · cases h
      · rename_i a ha
        cases f with
        | false =>
          exact ⟨.stub a, .stub a, cons_prefix_drop_iff.mpr ⟨hf, List.nil_prefix⟩,
            cons_prefix_drop_iff.mpr ⟨ha, List.nil_prefix⟩⟩
        | true =>
          exact ⟨.leaf a, .leaf a, cons_prefix_drop_iff.mpr ⟨hf, List.nil_prefix⟩,
            cons_prefix_drop_iff.mpr ⟨ha, List.nil_prefix⟩⟩
  | succ height ih =>
    rw [traverseAndExtract] at h
    split at h
    · cases h
    · rename_i f hf
      cases f with
      | false =>
        dsimp only at h
        rw [if_pos (by decide), useHash] at h
        split at h
        · cases h
        · rename_i a ha
          exact ⟨.stub a, .stub a, cons_prefix_drop_iff.mpr ⟨hf, List.nil_prefix⟩,
            cons_prefix_drop_iff.mpr ⟨ha, List.nil_prefix⟩⟩
      | true =>
        dsimp only at h
        rw [if_neg (by decide)] at h
        have hleft : (t.traverseAndExtract hash2 height (pos * 2)
            { s with nBitsUsed := s.nBitsUsed + 1 }).2.fBad = false := by
          by_contra hbad
          split at h
          · rw [fBad_traverseAndExtract (by simpa using hbad)] at h
            cases h
          · exact hbad h
        obtain ⟨l, hl, hfl, hvl⟩ := ih hleft
        rw [traverseAndExtract_of_shaped hash2 hl hfl hvl] at h
        split at h
        · rename_i hw
          obtain ⟨r, hr, hfr, hvr⟩ := ih h
          exact ⟨.node l r, .node hw hl hr,
            cons_prefix_drop_iff.mpr ⟨hf, append_prefix_drop_iff.mpr ⟨hfl, hfr⟩⟩,
            append_prefix_drop_iff.mpr ⟨hvl, hvr⟩⟩
        · exact ⟨.copied l, .copied (by omega) hl, cons_prefix_drop_iff.mpr ⟨hf, hfl⟩, hvl⟩

theorem lt_calcTreeWidth {nTransactions : UInt32} (hn : nTransactions.toNat ≤ maxBlockSize / 60) :
    ∀ h ≤ treeHeight nTransactions, ∀ p,
      p < calcTreeWidth nTransactions h ↔ p * 2 ^ h < nTransactions.toNat := by
  intro h hh p
  have h31 := (treeHeight_spec hn).2.1
  rw [calcTreeWidth_eq hn (by omega), lt_levelWidth]

/-- `ExtractMatches` on the flags and the hashes of a pruned tree, the flags padded to whole
bytes. -/
theorem extractMatches_of_shaped (hash2 : α → α → α) {tree : PrunedTree α}
    (hzero : t.nTransactions ≠ 0)
    (hn : t.nTransactions.toNat ≤ maxBlockSize / 60)
    (h : tree.Shaped (calcTreeWidth t.nTransactions) (treeHeight t.nTransactions) 0)
    (hbad : t.fBad = false) (hflags : tree.flags <+: t.vBits) (hvalues : tree.values = t.vHash)
    (hpad : (tree.flags.length + 7) / 8 = (t.vBits.length + 7) / 8) :
    t.extractMatches hash2 = (tree.root hash2, tree.marked, t) := by
  have hpos : 0 < t.nTransactions.toNat :=
    Nat.pos_of_ne_zero fun h0 => hzero (UInt32.toNat_inj.mp h0)
  have hwidth := lt_calcTreeWidth hn
  have hcount := (h.values_le hwidth ((hwidth _ (le_refl _) 0).mpr (by omega))).1
  have hbits := tree.values_le_flags.trans hflags.length_le
  have hwalk := traverseAndExtract_of_shaped hash2 (s := ⟨0, 0, [], t.fBad⟩) h
    (by rwa [List.drop_zero]) (by simp [hvalues])
  rw [extractMatches, if_neg hzero, if_neg (by omega), if_neg (by rw [← hvalues]; omega),
    if_neg (by rw [← hvalues]; omega), hwalk]
  simp only [Nat.zero_add, List.nil_append, hpad, hvalues, hbad, ne_eq, not_true_eq_false, if_false,
    Bool.false_eq_true]
  rw [← hbad]

/-- What `ExtractMatches` has checked when it returns a root. -/
theorem shaped_of_extractMatches (h : (t.extractMatches hash2).1 ≠ 0) :
    ∃ tree : PrunedTree α, t.nTransactions.toNat ≤ maxBlockSize / 60 ∧
      tree.Shaped (calcTreeWidth t.nTransactions) (treeHeight t.nTransactions) 0 ∧
      tree.flags <+: t.vBits ∧ tree.values = t.vHash ∧
      (t.extractMatches hash2).1 = tree.root hash2 ∧ (t.extractMatches hash2).2.1 = tree.marked := by
  rw [extractMatches] at h ⊢
  split at h
  · exact absurd rfl h
  split at h
  · exact absurd rfl h
  split at h
  · exact absurd rfl h
  split at h
  · exact absurd rfl h
  rename_i h1 h2 h3 h4
  rw [if_neg h1, if_neg h2, if_neg h3, if_neg h4]
  dsimp only at h ⊢
  split at h
  · exact absurd rfl h
  split at h
  · exact absurd rfl h
  split at h
  · exact absurd rfl h
  rename_i h5 h6 h7
  rw [if_neg h5, if_neg h6, if_neg h7]
  obtain ⟨tree, hshaped, hflags, hvalues⟩ :=
    shaped_of_traverseAndExtract (Bool.eq_false_iff.mpr h5)
  have hwalk := traverseAndExtract_of_shaped hash2 hshaped hflags hvalues
  rw [hwalk] at h7 ⊢
  rw [List.drop_zero] at hflags hvalues
  refine ⟨tree, by omega, hshaped, hflags, ?_, rfl, rfl⟩
  exact hvalues.eq_of_length (by simpa using h7)

/-! ## Serialization -/

end CPartialMerkleTree

/-- The flag bits packed into bytes, least significant bit first. -/
def packBits (vBits : List Bool) : List UInt8 :=
  (eights vBits.length vBits).map fun bits => UInt8.ofNat (bitsValue bits)

namespace CPartialMerkleTree

def write (t : CPartialMerkleTree uint256) : List UInt8 :=
  littleEndian 4 t.nTransactions.toNat ++
    (writeVector writeUint256 t.vHash ++ writeVector (fun b => [b]) (packBits t.vBits))

def read : Reader (CPartialMerkleTree uint256) := do
  let nTransactions ← readLittleEndian 4
  let vHash ← readVector readUint256
  let vBytes ← readVector readByte
  pure ⟨UInt32.ofNat nTransactions, vBytes.flatMap bitsOf, vHash, false⟩

end CPartialMerkleTree

/-- Unpacking gives the bits back, with zeros up to a multiple of eight. -/
theorem flatMap_bitsOf_packBits (vBits : List Bool) :
    vBits <+: (packBits vBits).flatMap bitsOf ∧
      (vBits.length + 7) / 8 = (((packBits vBits).flatMap bitsOf).length + 7) / 8 := by
  have hmain : ∀ (fuel : Nat) (l : List Bool), l.length ≤ fuel → ∃ k < 8, (l.length + k) % 8 = 0 ∧
      ((eights fuel l).map fun bits => UInt8.ofNat (bitsValue bits)).flatMap bitsOf =
        l ++ List.replicate k false := by
    intro fuel
    induction fuel with
    | zero =>
      intro l hl
      obtain rfl : l = [] := List.eq_nil_of_length_eq_zero (by omega)
      exact ⟨0, by omega, rfl, rfl⟩
    | succ fuel ih =>
      intro l hl
      cases l with
      | nil => exact ⟨0, by omega, rfl, rfl⟩
      | cons b l =>
        obtain ⟨k, hk, hmod, hrest⟩ := ih ((b :: l).drop 8) (by
          rw [List.length_drop]
          rw [List.length_cons] at hl ⊢
          omega)
        rw [eights, List.map_cons, List.flatMap_cons, hrest,
          bitsOf_bitsValue (by rw [List.length_take]; omega), List.length_take]
        rw [List.length_drop] at hmod
        rcases Nat.lt_or_ge (b :: l).length 8 with hlt | hge
        · -- the last byte takes all that is left
          refine ⟨8 - (b :: l).length, by rw [List.length_cons]; omega, by omega, ?_⟩
          obtain rfl : k = 0 := by omega
          rw [List.take_of_length_le hlt.le, List.drop_eq_nil_of_le hlt.le, Nat.min_eq_right hlt.le]
          simp
        · refine ⟨k, hk, by omega, ?_⟩
          rw [Nat.min_eq_left hge, Nat.sub_self, List.replicate_zero, List.append_nil,
            ← List.append_assoc, List.take_append_drop]
  obtain ⟨k, hk, hmod, heq⟩ := hmain vBits.length vBits (le_refl _)
  rw [packBits, heq]
  refine ⟨List.prefix_append _ _, ?_⟩
  rw [List.length_append, List.length_replicate]
  omega

end Terracoin
