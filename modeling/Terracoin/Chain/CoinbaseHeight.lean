import Mathlib.Data.Nat.Digits.Lemmas
import Terracoin.Chain.AcceptBlock

/-!
# The height in the coinbase

No two heights are serialized to the beginning of the same bytes, so blocks of different heights have
different coinbases (`height_unambiguous`). `AcceptBlock` compares the coinbase with the height
byte by byte, and the coinbase may be the shorter of the two: then the comparison reads past its
end, unless a byte before differs (`startsWithHeight_spec_iff`).
-/

namespace Terracoin

/-! ## The serialized height -/

/-- The number that the bytes are, lowest first. -/
def bytesValue (vch : List UInt8) : Nat := Nat.ofDigits (2 ^ 8) (vch.map UInt8.toNat)

theorem bytesValue_lowestFirst {fuel n : Nat} (h : n < (2 ^ 8) ^ fuel) :
    bytesValue (lowestFirst fuel n) = n := by
  induction fuel generalizing n with
  | zero =>
    obtain rfl : n = 0 := by simpa using h
    rfl
  | succ fuel ih =>
    unfold lowestFirst
    split
    · rename_i hn
      rw [hn]
      rfl
    · have hlt : n / 2 ^ 8 < (2 ^ 8) ^ fuel := by
        rw [Nat.div_lt_iff_lt_mul (by decide), ← Nat.pow_succ]
        exact h
      have hbyte : (UInt8.ofNat (n % 2 ^ 8)).toNat = n % 2 ^ 8 := by
        rw [UInt8.toNat_ofNat', Nat.mod_mod]
      have hrest := ih hlt
      rw [bytesValue] at hrest ⊢
      rw [List.map_cons, Nat.ofDigits_cons, hrest, hbyte, Nat.mod_add_div]

theorem bytesValue_getvch {n : Nat} (h : n < 2 ^ 63) : bytesValue (getvch n) = n := by
  have hvalue : bytesValue (lowestFirst 8 n) = n :=
    bytesValue_lowestFirst (by rw [← Nat.pow_mul]; omega)
  unfold getvch
  dsimp only
  split
  · have hzero : bytesValue (lowestFirst 8 n ++ [0]) = bytesValue (lowestFirst 8 n) := by
      simp [bytesValue, Nat.ofDigits_append]
    rw [hzero, hvalue]
  · exact hvalue

theorem length_lowestFirst_le (fuel n : Nat) : (lowestFirst fuel n).length ≤ fuel := by
  induction fuel generalizing n with
  | zero => exact Nat.le_refl 0
  | succ fuel ih =>
    unfold lowestFirst
    split
    · exact Nat.zero_le _
    · exact Nat.succ_le_succ (ih _)

theorem length_getvch_le (n : Nat) : (getvch n).length ≤ 9 := by
  have hle := length_lowestFirst_le 8 n
  unfold getvch
  dsimp only
  split
  · rw [List.length_append, List.length_singleton]
    omega
  · omega

/-- Heights with serializations at the beginning of the same bytes are the same. -/
theorem CScript.eq_of_ofNat_prefix {n m : Nat} (hn : n < 2 ^ 63) (hm : m < 2 ^ 63) {s : List UInt8}
    (h : CScript.ofNat n <+: s) (h' : CScript.ofNat m <+: s) : n = m := by
  have hopcode : ∀ {n : Nat}, 1 ≤ n ∧ n ≤ 16 → (UInt8.ofNat (0x50 + n)).toNat = 0x50 + n := by
    intro n hn
    rw [UInt8.toNat_ofNat']
    omega
  have hsize : ∀ n, (UInt8.ofNat (getvch n).length).toNat = (getvch n).length := by
    intro n
    have := length_getvch_le n
    rw [UInt8.toNat_ofNat']
    omega
  obtain ⟨rest, rfl⟩ := h
  unfold CScript.ofNat at h'
  by_cases hn16 : 1 ≤ n ∧ n ≤ 16
  · rw [if_pos hn16, List.singleton_append] at h'
    by_cases hm16 : 1 ≤ m ∧ m ≤ 16
    · rw [if_pos hm16, List.cons_prefix_cons] at h'
      have hbyte := congrArg UInt8.toNat h'.1
      rw [hopcode hn16, hopcode hm16] at hbyte
      omega
    · rw [if_neg hm16, List.cons_prefix_cons] at h'
      have hbyte := congrArg UInt8.toNat h'.1
      have hle := length_getvch_le m
      rw [hopcode hn16, hsize] at hbyte
      omega
  · rw [if_neg hn16, List.cons_append] at h'
    by_cases hm16 : 1 ≤ m ∧ m ≤ 16
    · rw [if_pos hm16, List.cons_prefix_cons] at h'
      have hbyte := congrArg UInt8.toNat h'.1
      have hle := length_getvch_le n
      rw [hopcode hm16, hsize] at hbyte
      omega
    · rw [if_neg hm16, List.cons_prefix_cons] at h'
      have hbyte := congrArg UInt8.toNat h'.1
      rw [hsize, hsize] at hbyte
      have heq : getvch m = getvch n :=
        (List.prefix_of_prefix_length_le h'.2 (List.prefix_append _ _) hbyte.le).eq_of_length hbyte
      rw [← bytesValue_getvch hn, ← heq, bytesValue_getvch hm]

/-! ## The comparison -/

theorem equalRange_eq_true_iff {expect s : List UInt8} :
    equalRange expect s = some true ↔ expect <+: s := by
  induction expect generalizing s with
  | nil => exact iff_of_true rfl List.nil_prefix
  | cons c expect ih =>
    cases s with
    | nil => simp [equalRange]
    | cons c' s =>
      rw [equalRange, List.cons_prefix_cons]
      split
      · rename_i heq
        rw [ih, and_iff_right heq]
      · rename_i hne
        exact iff_of_false (by simp) fun h => hne h.1

/-- The comparison goes past the end exactly if that is where the range differs from `expect`. -/
theorem equalRange_eq_none_iff {expect s : List UInt8} :
    equalRange expect s = none ↔ s <+: expect ∧ s ≠ expect := by
  induction expect generalizing s with
  | nil => cases s <;> simp [equalRange]
  | cons c expect ih =>
    cases s with
    | nil => simp [equalRange]
    | cons c' s =>
      rw [equalRange, List.cons_prefix_cons]
      split
      · rename_i heq
        rw [ih, heq]
        simp
      · rename_i hne
        exact iff_of_false (by simp) fun h => hne h.1.1.symm

namespace CBlock

variable [Hashing] {b : CBlock}

theorem exists_coinbaseScriptSig {t : Int} {fCheckPOW fCheckMerkleRoot : Bool}
    (h : b.checkBlock t fCheckPOW fCheckMerkleRoot = .ok ()) :
    ∃ scriptSig : CScript, b.coinbaseScriptSig = some scriptSig ∧ 2 ≤ scriptSig.length ∧
      scriptSig.length ≤ 100 := by
  obtain ⟨cb, rest, hvtx, hcoinbase, -⟩ := (checked_of_checkBlock h).coinbase
  have hcheck : cb.checkTransaction = .ok () := by
    simp only [checkBlock, Checked.bind_ok, Checked.require_ok] at h
    obtain ⟨_, -, _, -, _, -, _, -, _, -, _, -, _, htxs, -⟩ := h
    exact checkTransactions_ok.mp htxs cb (by rw [hvtx]; exact List.mem_cons_self)
  simp only [CTransaction.checkTransaction, Checked.bind_ok, hcoinbase, if_true,
    Checked.require_ok] at hcheck
  obtain ⟨_, -, _, -, _, -, _, -, _, -, hsize⟩ := hcheck
  unfold CTransaction.isCoinBase at hcoinbase
  split at hcoinbase
  · rename_i txin hvin
    rw [hvin] at hsize
    have hrange : 2 ≤ txin.scriptSig.length ∧ txin.scriptSig.length ≤ 100 := by simpa using hsize
    exact ⟨txin.scriptSig, by simp [coinbaseScriptSig, hvtx, hvin], hrange⟩
  · cases hcoinbase

/-- The comparison stays within the coinbase, and accepts those that start with the height, exactly
if the coinbase is not the beginning of a longer serialized height. -/
theorem startsWithHeight_spec_iff {t : Int} {fCheckPOW fCheckMerkleRoot : Bool}
    (h : b.checkBlock t fCheckPOW fCheckMerkleRoot = .ok ()) (nHeight : Nat) :
    ∃ scriptSig : CScript, b.coinbaseScriptSig = some scriptSig ∧
      ((∃ fEqual, b.startsWithHeight nHeight = some fEqual ∧
          (fEqual = true ↔ CScript.ofNat nHeight <+: scriptSig)) ↔
        ¬ (scriptSig <+: CScript.ofNat nHeight ∧ scriptSig ≠ CScript.ofNat nHeight)) := by
  obtain ⟨scriptSig, hscriptSig, -⟩ := exists_coinbaseScriptSig h
  refine ⟨scriptSig, hscriptSig, ?_⟩
  rw [startsWithHeight, hscriptSig, Option.bind_some, ← equalRange_eq_none_iff,
    ← equalRange_eq_true_iff]
  cases hequal : equalRange (CScript.ofNat nHeight) scriptSig with
  | none => simp
  | some fEqual => simp

variable [NodeConfig] [FloatArithmetic]

theorem prefix_of_checkContext {pindexPrev : CBlockIndex} (h : b.checkContext pindexPrev = .ok ())
    (hrequired : b.heightRequired pindexPrev = true) :
    ∃ scriptSig : CScript, b.coinbaseScriptSig = some scriptSig ∧
      CScript.ofNat (pindexPrev.nHeight + 1) <+: scriptSig := by
  simp only [checkContext, Checked.bind_ok, Checked.require_ok, hrequired, Bool.not_true,
    Bool.false_or, beq_iff_eq] at h
  obtain ⟨_, -, _, -, _, -, _, -, _, -, hequal⟩ := h
  obtain ⟨scriptSig, hscriptSig, hequal⟩ := Option.bind_eq_some_iff.mp hequal
  exact ⟨scriptSig, hscriptSig, equalRange_eq_true_iff.mp hequal⟩

/-- No bytes begin with two heights, so blocks that are accepted at different heights have different
coinbases. -/
theorem height_unambiguous {nHeight nHeight' : Nat} (hlt : nHeight < 2 ^ 63)
    (hlt' : nHeight' < 2 ^ 63) (hne : nHeight ≠ nHeight') :
    (∀ s : List UInt8, ¬ (CScript.ofNat nHeight <+: s ∧ CScript.ofNat nHeight' <+: s)) ∧
      ∀ (b b' : CBlock) (pindexPrev pindexPrev' : CBlockIndex), pindexPrev.nHeight + 1 = nHeight →
        pindexPrev'.nHeight + 1 = nHeight' → b.heightRequired pindexPrev = true →
          b'.heightRequired pindexPrev' = true → b.checkContext pindexPrev = .ok () →
            b'.checkContext pindexPrev' = .ok () →
              b.coinbaseScriptSig ≠ b'.coinbaseScriptSig ∧ b.vtx.head? ≠ b'.vtx.head? := by
  have hfree : ∀ s : List UInt8,
      ¬ (CScript.ofNat nHeight <+: s ∧ CScript.ofNat nHeight' <+: s) :=
    fun s h => hne (CScript.eq_of_ofNat_prefix hlt hlt' h.1 h.2)
  refine ⟨hfree, ?_⟩
  rintro b b' pindexPrev pindexPrev' rfl rfl hrequired hrequired' hcheck hcheck'
  obtain ⟨scriptSig, hscriptSig, hstarts⟩ := prefix_of_checkContext hcheck hrequired
  obtain ⟨scriptSig', hscriptSig', hstarts'⟩ := prefix_of_checkContext hcheck' hrequired'
  have hscripts : b.coinbaseScriptSig ≠ b'.coinbaseScriptSig := by
    intro heq
    rw [hscriptSig, hscriptSig'] at heq
    obtain rfl := Option.some.inj heq
    exact hfree scriptSig ⟨hstarts, hstarts'⟩
  exact ⟨hscripts, fun heq => hscripts (by rw [coinbaseScriptSig, heq, coinbaseScriptSig])⟩

end CBlock

namespace HeightSample

open MainnetSample

/-- A block of version 2 with nothing but a coinbase, for the given height. -/
def block (scriptSig : CScript) (nHeight : UInt32) : CBlock where
  nVersion := 2
  hashPrevBlock := 0
  hashMerkleRoot := BitVec.ofNat 256 nHeight.toNat
  nTime := 1000
  nBits := 0x1d00ffff
  nNonce := nHeight
  vtx := [⟨1, [⟨COutPoint.null, scriptSig, 0xffffffff⟩], [⟨50, []⟩], nHeight⟩]

def chain : Nat → CBlockIndex
  | 0 => .root (block [] 0).toCBlockHeader
  | n + 1 => .child (chain n) (block [] 0).toCBlockHeader

theorem countVersions_chain (k n : Nat) : countVersions 2 k (chain n) = min k (n + 1) := by
  have hversion : (2 : Int32) ≤ 2 := by decide
  induction k generalizing n with
  | zero => simp [countVersions]
  | succ k ih =>
    cases n with
    | zero => simp [chain, block, countVersions]
    | succ n =>
      rw [chain, countVersions, ih, block, if_pos hversion]
      omega

/-- The coinbase begins with the whole height 1000. -/
theorem startsWithHeight_spec_iff_sample : ∃ scriptSig : CScript,
    (block [2, 0xe8, 3, 0] 1000).coinbaseScriptSig = some scriptSig ∧
      ((∃ fEqual, (block [2, 0xe8, 3, 0] 1000).startsWithHeight 1000 = some fEqual ∧
          (fEqual = true ↔ CScript.ofNat 1000 <+: scriptSig)) ↔
        ¬ (scriptSig <+: CScript.ofNat 1000 ∧ scriptSig ≠ CScript.ofNat 1000)) := by
  have hcheck : (block [2, 0xe8, 3, 0] 1000).checkBlock 1000 true true = .ok () := by
    decide +kernel
  exact CBlock.startsWithHeight_spec_iff hcheck 1000

/-- The coinbase is the first two bytes of the height 1000, and the comparison reads a third one. -/
theorem startsWithHeight_overreads :
    (block [2, 0xe8] 1000).checkBlock 1000 true true = .ok () ∧
      (block [2, 0xe8] 1000).heightRequired (chain 999) = true ∧ (chain 999).nHeight + 1 = 1000 ∧
        (block [2, 0xe8] 1000).startsWithHeight 1000 = none := by
  have hmajority : isSuperMajority 2 (chain 999) 750 1000 = true := by
    rw [isSuperMajority, countVersions_chain]
    decide
  have hheight : ∀ n, (chain n).nHeight = n := by
    intro n
    induction n with
    | zero => rfl
    | succ n ih => rw [chain, CBlockIndex.nHeight, ih]
  refine ⟨by decide +kernel, ?_, by rw [hheight], by decide⟩
  have hmain : NodeConfig.fTestNet = false := rfl
  rw [CBlock.heightRequired, hmajority, hmain]
  rfl

/-- A coinbase that begins with the height 128. -/
theorem height_unambiguous_sample :
    ¬ (CScript.ofNat 127 <+: [2, 0x80, 0, 5] ∧ CScript.ofNat 128 <+: [2, 0x80, 0, 5]) :=
  (CBlock.height_unambiguous (by decide) (by decide) (by decide)).1 [2, 0x80, 0, 5]

end HeightSample

end Terracoin
