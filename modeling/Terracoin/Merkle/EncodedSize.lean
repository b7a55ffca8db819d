import Terracoin.Merkle.RoundTrip

/-!
# The encoded size of a partial merkle tree

The bounds that the documentation of `CPartialMerkleTree` states for the number of hashes, the
number of flag bits and the serialized size. The flag bits are counted as if every inner node had
two children. At the right edge of the tree it may have one only, and the bounds hold exactly
when no matched transaction is below such a node (`sizeGuarantee_iff`).
-/

namespace Terracoin

namespace CPartialMerkleTree

/-- The documented bounds, `N` being the number of hashes: `N` is at most the number of
transactions and at most `1 + matched_transactions * tree_height`, there are at most `2 * N - 1`
flag bits, and the size is at most `10 + ceil(32.25 * N)`. -/
structure SizeGuarantee (hash2 : uint256 → uint256 → uint256) (vTxid : List uint256)
    (vMatch : List Bool) : Prop where
  hashes_le_total : (ofTxids hash2 vTxid vMatch).vHash.length ≤ vTxid.length
  hashes_le_matched : (ofTxids hash2 vTxid vMatch).vHash.length ≤
    1 + (matchedTxids vTxid vMatch).length * treeHeight (UInt32.ofNat vTxid.length)
  bits_le : (ofTxids hash2 vTxid vMatch).vBits.length ≤
    2 * (ofTxids hash2 vTxid vMatch).vHash.length - 1
  size_le : (ofTxids hash2 vTxid vMatch).write.length ≤
    10 + (129 * (ofTxids hash2 vTxid vMatch).vHash.length + 3) / 4

/-- No matched transaction is below a node that has a left child only. Such a node is the last
one above a level of odd width. -/
def NoMatchBelowSingle (nTransactions : UInt32) (vMatch : List Bool) : Prop :=
  ∀ height < treeHeight nTransactions, calcTreeWidth nTransactions height % 2 = 1 →
    ∀ p < nTransactions.toNat, vMatch.getD p false = true →
      p < calcTreeWidth nTransactions height / 2 * 2 ^ (height + 1)

theorem mem_matchedBelow_root {nTransactions : UInt32} {vMatch : List Bool} {height p : Nat}
    (hroot : nTransactions.toNat ≤ 2 ^ height) :
    p ∈ matchedBelow nTransactions vMatch height 0 ↔
      p < nTransactions.toNat ∧ vMatch.getD p false = true := by
  rw [matchedBelow, List.mem_filter, List.mem_range'_1, Bool.and_eq_true, decide_eq_true_eq]
  constructor
  · intro h
    exact h.2
  · intro h
    exact ⟨by omega, h⟩

/-- The node at height `height + 1` above a transaction has a right child, unless it is the last
one above a level of odd width. -/
theorem right_lt_calcTreeWidth_iff {nTransactions : UInt32} {height p : Nat}
    (hn : nTransactions.toNat ≤ maxBlockSize / 60) (hh : height < treeHeight nTransactions)
    (hp : p < nTransactions.toNat) :
    p / 2 ^ (height + 1) * 2 + 1 < calcTreeWidth nTransactions height ↔
      (calcTreeWidth nTransactions height % 2 = 1 →
        p < calcTreeWidth nTransactions height / 2 * 2 ^ (height + 1)) := by
  have hleft : p / 2 ^ (height + 1) * 2 < calcTreeWidth nTransactions height := by
    apply (lt_calcTreeWidth hn height hh.le _).mpr
    calc p / 2 ^ (height + 1) * 2 * 2 ^ height = p / 2 ^ (height + 1) * 2 ^ (height + 1) := by ring
      _ ≤ p := Nat.div_mul_le_self p _
      _ < nTransactions.toNat := hp
  rw [← Nat.div_lt_iff_lt_mul (Nat.two_pow_pos _)]
  omega

theorem length_packBits (vBits : List Bool) : (packBits vBits).length = (vBits.length + 7) / 8 := by
  obtain ⟨-, hpad⟩ := flatMap_bitsOf_packBits vBits
  have height : ((packBits vBits).flatMap bitsOf).length = 8 * (packBits vBits).length := by
    simp [List.length_flatMap, bitsOf, Nat.mul_comm]
  omega

theorem length_write (t : CPartialMerkleTree uint256) : t.write.length =
    4 + (getSizeOfCompactSize t.vHash.length + 32 * t.vHash.length +
      (getSizeOfCompactSize ((t.vBits.length + 7) / 8) + (t.vBits.length + 7) / 8)) := by
  have hhash : (writeVector writeUint256 t.vHash).length = vectorSize (fun _ => 32) t.vHash :=
    length_writeVector fun a _ => length_littleEndian 32 a.toNat
  have hbytes : (writeVector (fun b => [b]) (packBits t.vBits)).length =
      vectorSize (fun _ => 1) (packBits t.vBits) := length_writeVector fun _ _ => rfl
  rw [write, List.length_append, List.length_append, length_littleEndian, hhash, hbytes]
  simp [vectorSize, length_packBits, Nat.mul_comm]

theorem getSizeOfCompactSize_le {n : Nat} (h : n ≤ 65535) : getSizeOfCompactSize n ≤ 3 := by
  rw [getSizeOfCompactSize]
  split
  · omega
  · exact le_refl 3

/-- The documented bounds hold exactly if no matched transaction is below a node that has a left
child only. -/
theorem sizeGuarantee_iff (hash2 : uint256 → uint256 → uint256) {vTxid : List uint256}
    (vMatch : List Bool) (hne : vTxid ≠ []) (hlen : vTxid.length ≤ maxBlockSize / 60) :
    SizeGuarantee hash2 vTxid vMatch ↔
      NoMatchBelowSingle (UInt32.ofNat vTxid.length) vMatch := by
  have hmax : maxBlockSize / 60 = 16666 := rfl
  have hcount : (UInt32.ofNat vTxid.length).toNat = vTxid.length := by
    rw [UInt32.toNat_ofNat', Nat.mod_eq_of_lt (by omega)]
  have hpos := List.length_pos_iff.mpr hne
  obtain ⟨tree, hshaped, hbuild, -, hmarked, hpruned, hpositions⟩ :=
    ofTxids_spec hash2 vMatch hne hlen
  have hmatched : ∀ hn : (UInt32.ofNat vTxid.length).toNat ≤ maxBlockSize / 60,
      tree.singles = 0 ↔ NoMatchBelowSingle (UInt32.ofNat vTxid.length) vMatch := by
    intro hn
    have hroot : (UInt32.ofNat vTxid.length).toNat ≤
        2 ^ treeHeight (UInt32.ofNat vTxid.length) := by
      by_contra hgt
      have := (lt_calcTreeWidth hn _ (le_refl _) 1).mpr (by omega)
      have := (treeHeight_spec hn).1
      omega
    rw [hshaped.singles_eq_zero_iff hpruned, hpositions, NoMatchBelowSingle]
    constructor
    · intro h height hh hodd p hp hm
      exact (right_lt_calcTreeWidth_iff hn hh hp).mp
        (h p ((mem_matchedBelow_root hroot).mpr ⟨hp, hm⟩) height hh) hodd
    · intro h p hmem height hh
      obtain ⟨hp, hm⟩ := (mem_matchedBelow_root hroot).mp hmem
      exact (right_lt_calcTreeWidth_iff hn hh hp).mpr fun hodd => h height hh hodd p hp hm
  have hiff := hmatched (by omega)
  have hwidth := lt_calcTreeWidth (hcount.trans_le hlen)
  have htotal := (hshaped.values_le hwidth ((hwidth _ (le_refl _) 0).mpr (by omega))).1
  have hbranches := hshaped.values_le_marked hpruned
  have hflags := tree.length_flags
  have hvalues := tree.values_pos
  rw [hmarked] at hbranches
  constructor
  · intro hsize
    have hbits := hsize.bits_le
    rw [hbuild] at hbits
    exact hiff.mp (by dsimp only at hbits; omega)
  · intro hcond
    have hzero := hiff.mpr hcond
    refine ⟨?_, ?_, ?_, ?_⟩ <;> rw [hbuild]
    · dsimp only
      omega
    · exact hbranches
    · dsimp only
      omega
    · rw [length_write]
      dsimp only
      have hhashes : getSizeOfCompactSize tree.values.length ≤ 3 :=
        getSizeOfCompactSize_le (by omega)
      have hbytes : getSizeOfCompactSize ((tree.flags.length + 7) / 8) ≤ 3 :=
        getSizeOfCompactSize_le (by omega)
      omega

end CPartialMerkleTree

namespace Sample

theorem sizeGuarantee_iff_sample :
    CPartialMerkleTree.SizeGuarantee Hashing.hash2 [5, 6, 7] [true, false, false] ↔
      CPartialMerkleTree.NoMatchBelowSingle 3 [true, false, false] :=
  CPartialMerkleTree.sizeGuarantee_iff Hashing.hash2 [true, false, false] (by decide) (by decide)

/-- Three transactions of which the last is matched: two hashes and four flag bits. -/
theorem not_sizeGuarantee : ¬ ∀ (hash2 : uint256 → uint256 → uint256) (vTxid : List uint256)
    (vMatch : List Bool), vTxid ≠ [] → vTxid.length ≤ maxBlockSize / 60 →
      vMatch.length = vTxid.length → CPartialMerkleTree.SizeGuarantee hash2 vTxid vMatch := by
  intro h
  have hbits := (h (fun a _ => a) [5, 6, 7] [false, false, true] (by decide) (by decide) rfl).bits_le
  exact absurd hbits (by decide)

end Sample

end Terracoin
