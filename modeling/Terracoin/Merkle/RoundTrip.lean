import Terracoin.Merkle.PartialTree

/-!
# Partial merkle trees round trip

Building a partial merkle tree, writing it, reading it back and extracting the matches gives the
merkle root of the block and the matched transactions (`extractMatches_read_write`).
-/

namespace Terracoin

open Codec

/-- The matched transaction ids in block order. -/
def matchedTxids {α : Type} (vTxid : List α) (vMatch : List Bool) : List α :=
  ((vTxid.zip vMatch).filter Prod.snd).map Prod.fst

namespace CPartialMerkleTree

variable {α : Type} [OfNat α 0] {hash2 : α → α → α}

theorem calcHash_eq {nTransactions : UInt32} {vTxid : List α}
    (hn : nTransactions.toNat ≤ maxBlockSize / 60) (hlen : vTxid.length = nTransactions.toNat)
    {height pos : Nat} (hh : height ≤ 31) (hpos : pos < calcTreeWidth nTransactions height) :
    calcHash hash2 nTransactions vTxid height pos = (levelAt hash2 height vTxid).getD pos 0 := by
  induction height generalizing pos with
  | zero => rfl
  | succ height ih =>
    have hwidth : (levelAt hash2 height vTxid).length = calcTreeWidth nTransactions height := by
      rw [length_levelAt, hlen, calcTreeWidth_eq hn (by omega)]
    have hleft : pos * 2 < calcTreeWidth nTransactions height := by
      rw [calcTreeWidth_eq hn (by omega), lt_levelWidth] at hpos ⊢
      rwa [pow_succ, Nat.mul_comm (2 ^ height), ← Nat.mul_assoc] at hpos
    rw [calcHash, levelAt, getD_merkleLevel (by omega), ih (by omega) hleft, hwidth,
      Nat.mul_comm 2 pos]
    split
    · rename_i hright
      rw [ih (by omega) hright]
    · rfl

theorem range_filter_getD (vTxid : List α) (vMatch : List Bool) :
    ((List.range vTxid.length).filter fun p => vMatch.getD p false).map (fun p => vTxid.getD p 0) =
      matchedTxids vTxid vMatch := by
  induction vTxid generalizing vMatch with
  | nil => rfl
  | cons a vTxid ih =>
    rcases vMatch with _ | ⟨b, vMatch⟩
    · simp [matchedTxids]
    · have hrest := ih vMatch
      rw [matchedTxids] at hrest ⊢
      rw [List.length_cons, List.range_succ_eq_map, List.filter_cons, List.zip_cons_cons,
        List.filter_cons, List.filter_map]
      cases b with
      | false => simpa [Function.comp_def] using hrest
      | true => simpa [Function.comp_def] using hrest

/-- The matched positions below the root are those of the whole block. -/
theorem map_matchedBelow {nTransactions : UInt32} {vTxid : List α} {vMatch : List Bool}
    (hlen : vTxid.length = nTransactions.toNat) {height : Nat}
    (hroot : nTransactions.toNat ≤ 2 ^ height) :
    (matchedBelow nTransactions vMatch height 0).map (fun p => vTxid.getD p 0) =
      matchedTxids vTxid vMatch := by
  obtain ⟨k, hk⟩ := Nat.exists_eq_add_of_le hroot
  have hblock : (List.range' 0 nTransactions.toNat).filter
      (fun p => p < nTransactions.toNat && vMatch.getD p false) =
      (List.range vTxid.length).filter fun p => vMatch.getD p false := by
    rw [hlen, List.range_eq_range']
    apply List.filter_congr
    intro p hp
    have hlt := (List.mem_range'_1.mp hp).2
    rw [decide_eq_true (by omega : p < nTransactions.toNat), Bool.true_and]
  have hbeyond : (List.range' (0 + nTransactions.toNat) k).filter
      (fun p => p < nTransactions.toNat && vMatch.getD p false) = [] := by
    rw [List.filter_eq_nil_iff]
    intro p hp
    have hge := (List.mem_range'_1.mp hp).1
    rw [decide_eq_false (by omega : ¬ p < nTransactions.toNat), Bool.false_and]
    exact Bool.false_ne_true
  rw [matchedBelow, Nat.zero_mul, hk, ← List.range'_append_1, List.filter_append, hblock, hbeyond,
    List.append_nil, range_filter_getD]

/-- What the constructor builds: a pruned tree with the merkle root and the matched transactions. -/
theorem ofTxids_spec (hash2 : α → α → α) {vTxid : List α} (vMatch : List Bool) (hne : vTxid ≠ [])
    (hlen : vTxid.length ≤ maxBlockSize / 60) :
    ∃ tree : PrunedTree α,
      tree.Shaped (calcTreeWidth (UInt32.ofNat vTxid.length))
        (treeHeight (UInt32.ofNat vTxid.length)) 0 ∧
      ofTxids hash2 vTxid vMatch = ⟨UInt32.ofNat vTxid.length, tree.flags, tree.values, false⟩ ∧
      merkleRoot hash2 vTxid.length vTxid = some (tree.root hash2) ∧
      tree.marked = matchedTxids vTxid vMatch ∧ tree.Pruned ∧
      tree.positions 0 = matchedBelow (UInt32.ofNat vTxid.length) vMatch
        (treeHeight (UInt32.ofNat vTxid.length)) 0 := by
  have hmax : maxBlockSize / 60 = 16666 := rfl
  have hlt : vTxid.length < 2 ^ 32 := by omega
  generalize hN : UInt32.ofNat vTxid.length = nTransactions
  have hcount : vTxid.length = nTransactions.toNat := by
    rw [← hN, UInt32.toNat_ofNat', Nat.mod_eq_of_lt hlt]
  have hn : nTransactions.toNat ≤ maxBlockSize / 60 := by omega
  have hpos : 0 < nTransactions.toNat := hcount ▸ List.length_pos_iff.mpr hne
  obtain ⟨htop, h31, hbelow⟩ := treeHeight_spec hn
  have hwidth : ∀ h ≤ treeHeight nTransactions,
      (levelAt hash2 h vTxid).length = calcTreeWidth nTransactions h := by
    intro h hh
    rw [length_levelAt, hcount, calcTreeWidth_eq hn (by omega)]
  have hfirst : 0 < calcTreeWidth nTransactions (treeHeight nTransactions) :=
    (lt_calcTreeWidth hn _ (le_refl _) 0).mpr (by omega)
  obtain ⟨tree, hshaped, hbuild, hroot, hmarked, hpruned, hpositions⟩ :=
    traverseAndBuild_spec hash2 vTxid vMatch 0 ⟨nTransactions, [], [], false⟩ hn h31
  dsimp only at hshaped hbuild hroot hmarked hpositions
  refine ⟨tree, hshaped, ?_, ?_, ?_, hpruned, hpositions⟩
  · rw [ofTxids, hN, hbuild, List.nil_append, List.nil_append]
  · refine (merkleRoot_eq_some_iff (le_refl _)).mpr ⟨treeHeight nTransactions, ?_, ?_⟩
    · obtain ⟨root, hone⟩ : ∃ root, levelAt hash2 (treeHeight nTransactions) vTxid = [root] := by
        apply List.length_eq_one_iff.mp
        rw [hwidth _ (le_refl _)]
        omega
      rw [hroot, calcHash_eq hn hcount h31 hfirst, hone]
      rfl
    · intro h hh
      rw [hwidth h hh.le]
      exact hbelow h hh
  · rw [hmarked]
    apply map_matchedBelow hcount
    by_contra hgt
    have := (lt_calcTreeWidth hn _ (le_refl _) 1).mpr (by omega)
    omega

/-- Reading back what was written: the flags come back padded to whole bytes. -/
theorem decodes_write {t : CPartialMerkleTree uint256} (hhash : t.vHash.length ≤ maxSize)
    (hbits : t.vBits.length ≤ maxSize) :
    Decodes read t.write ⟨t.nTransactions, (packBits t.vBits).flatMap bitsOf, t.vHash, false⟩ := by
  have hbytes : (packBits t.vBits).length ≤ maxSize := by
    rw [packBits, List.length_map]
    exact (length_eights_le _ _).trans hbits
  have hh := decodes_writeVector hhash (fun a _ => decodes_writeUint256 a)
  have hb : Decodes (readVector readByte) (writeVector (fun b => [b]) (packBits t.vBits))
      ((packBits t.vBits).map id) := decodes_writeVector hbytes fun b _ => Decodes.byte b
  rw [List.map_id'] at hh
  rw [List.map_id] at hb
  refine Decodes.bind (decodes_littleEndian t.nTransactions.toNat_lt) (Decodes.bind hh ?_)
  rw [← List.append_nil (writeVector _ _)]
  refine Decodes.bind hb ?_
  rw [UInt32.ofNat_toNat]
  exact Decodes.pure _

/-- Building, writing, reading and extracting gives the merkle root of the block and the matched
transactions in block order. -/
theorem extractMatches_read_write [Hashing] {vTxid : List uint256} {vMatch : List Bool}
    (hne : vTxid ≠ []) (hlen : vTxid.length ≤ maxBlockSize / 60)
    (_ : vMatch.length = vTxid.length) :
    ∃ pmt root, read (ofTxids Hashing.hash2 vTxid vMatch).write = some (pmt, []) ∧
      (pmt.extractMatches Hashing.hash2).1 = root ∧
      (pmt.extractMatches Hashing.hash2).2.1 = matchedTxids vTxid vMatch ∧
      merkleRoot Hashing.hash2 vTxid.length vTxid = some root ∧
      ∀ b : CBlock, b.vtx.map CTransaction.getHash = vTxid → b.buildMerkleTree = root := by
  have hmax : maxBlockSize / 60 = 16666 := rfl
  have hsize : maxSize = 33554432 := rfl
  have hcount : (UInt32.ofNat vTxid.length).toNat = vTxid.length := by
    rw [UInt32.toNat_ofNat', Nat.mod_eq_of_lt (by omega)]
  have hpos := List.length_pos_iff.mpr hne
  obtain ⟨tree, hshaped, hbuild, hroot, hmarked, -, -⟩ :=
    ofTxids_spec Hashing.hash2 vMatch hne hlen
  generalize UInt32.ofNat vTxid.length = nTransactions at hcount hshaped hbuild
  have hn : nTransactions.toNat ≤ maxBlockSize / 60 := by omega
  have hzero : nTransactions ≠ 0 := by
    rintro rfl
    exact absurd hcount (by rw [UInt32.toNat_zero]; omega)
  have hwidth := lt_calcTreeWidth hn
  have hvalues := (hshaped.values_le hwidth ((hwidth _ (le_refl _) 0).mpr (by omega))).1
  have hflags : tree.flags.length ≤ 16666 * 32 := by
    have h31 := (treeHeight_spec hn).2.1
    exact hshaped.flags_le.trans (Nat.mul_le_mul (by omega) (by omega))
  have hread := decodes_write (t := ⟨nTransactions, tree.flags, tree.values, false⟩)
    (by dsimp only; omega) (by dsimp only; omega) []
  obtain ⟨hfront, hpad⟩ := flatMap_bitsOf_packBits tree.flags
  have hextract := extractMatches_of_shaped Hashing.hash2
    (t := ⟨nTransactions, (packBits tree.flags).flatMap bitsOf, tree.values, false⟩) hzero hn hshaped
    rfl hfront rfl hpad
  rw [List.append_nil] at hread
  refine ⟨_, tree.root Hashing.hash2, by rw [hbuild]; exact hread, by rw [hextract],
    by rw [hextract, ← hmarked], hroot, ?_⟩
  rintro b rfl
  rw [List.length_map] at hroot
  rw [CBlock.buildMerkleTree, hroot, Option.getD_some]

end CPartialMerkleTree

namespace Sample

theorem extractMatches_read_write_sample :
    ∃ pmt root, CPartialMerkleTree.read (CPartialMerkleTree.ofTxids Hashing.hash2 [5, 6, 7]
        [false, false, true]).write = some (pmt, []) ∧
      (pmt.extractMatches Hashing.hash2).1 = root ∧
      (pmt.extractMatches Hashing.hash2).2.1 = [7] ∧
      merkleRoot Hashing.hash2 3 [5, 6, 7] = some root ∧
      ∀ b : CBlock, b.vtx.map CTransaction.getHash = [5, 6, 7] → b.buildMerkleTree = root :=
  CPartialMerkleTree.extractMatches_read_write (by decide) (by decide) rfl

end Sample

end Terracoin
