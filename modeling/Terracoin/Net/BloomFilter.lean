import Terracoin.Primitives.Script
import Terracoin.Serialize.VarInt
import Terracoin.Lib.Run
import Mathlib.Data.Nat.Bitwise

/-!
# `CBloomFilter`

The filter that a peer installs to have only the transactions it wants relayed. Everything a call
does to the vector is a statement about its bits: a key has a position for each hash function,
`insert` sets these bits and changes nothing else (`insert_spec`), and `contains` asks whether all
of them are set (`contains_spec`). Bits are never cleared, so what was inserted stays contained.

`none` is a call with undefined behaviour: a division by zero, or an index outside of the vector.
A filter is `Safe` if it has a byte or no hash functions at all, and then no call has any.
-/

namespace Terracoin

def rotl32 (x r : UInt32) : UInt32 := (x <<< r) ||| (x >>> (32 - r))

/-- A block of four bytes, or the tail of up to three. -/
def blockValue : List UInt8 → UInt32
  | [] => 0
  | b :: rest => b.toUInt32 ||| (blockValue rest <<< 8)

def mixBlock (k1 : UInt32) : UInt32 := rotl32 (k1 * 0xcc9e2d51) 15 * 0x1b873593

/-- Body and tail of `MurmurHash3`. -/
def murmurFrom (h1 : UInt32) : List UInt8 → UInt32
  | b0 :: b1 :: b2 :: b3 :: rest =>
    murmurFrom (rotl32 (h1 ^^^ mixBlock (blockValue [b0, b1, b2, b3])) 13 * 5 + 0xe6546b64) rest
  | [] => h1
  | tail => h1 ^^^ mixBlock (blockValue tail)

def murmurHash3 (nHashSeed : UInt32) (vDataToHash : List UInt8) : UInt32 :=
  let h1 := murmurFrom nHashSeed vDataToHash ^^^ UInt32.ofNat vDataToHash.length
  let h1 := (h1 ^^^ (h1 >>> 16)) * 0x85ebca6b
  let h1 := (h1 ^^^ (h1 >>> 13)) * 0xc2b2ae35
  h1 ^^^ (h1 >>> 16)

/-! ## The filter -/

def maxBloomFilterSize : Nat := 36000
def maxHashFuncs : Nat := 50

def BLOOM_UPDATE_ALL : UInt8 := 1
def BLOOM_UPDATE_P2PUBKEY_ONLY : UInt8 := 2
def BLOOM_UPDATE_MASK : UInt8 := 3

def bitMask : List UInt8 := [0x01, 0x02, 0x04, 0x08, 0x10, 0x20, 0x40, 0x80]

def COutPoint.serialize (o : COutPoint) : List UInt8 :=
  littleEndian 32 o.hash.toNat ++ littleEndian 4 o.n.toNat

/-- The bytes of a `uint256`. -/
def hashBytes (hash : uint256) : List UInt8 := littleEndian 32 hash.toNat

structure CBloomFilter where
  vData : List UInt8
  nHashFuncs : UInt32
  nTweak : UInt32
  nFlags : UInt8
deriving DecidableEq, Repr

/-- What `Solver` says of a script: its type is `TX_PUBKEY` or `TX_MULTISIG`. -/
class ScriptSolver where
  isKeyScript : CScript → Bool

namespace CBloomFilter

def isWithinSizeConstraints (f : CBloomFilter) : Bool :=
  f.vData.length ≤ maxBloomFilterSize && f.nHashFuncs.toNat ≤ maxHashFuncs

def hash (f : CBloomFilter) (nHashNum : Nat) (vDataToHash : List UInt8) : Option Nat :=
  let h := murmurHash3 (UInt32.ofNat nHashNum * 0xFBA4C795 + f.nTweak) vDataToHash
  -- the remainder by zero is undefined
  if f.vData.length * 8 = 0 then none else some (h.toNat % (f.vData.length * 8))

/-- `vData[nIndex >> 3] |= bit_mask[7 & nIndex]`. -/
def setBit (f : CBloomFilter) (nIndex : Nat) : Option CBloomFilter :=
  match f.vData[nIndex / 8]? with
  | none => none
  | some b => some { f with vData := f.vData.set (nIndex / 8) (b ||| bitMask.getD (nIndex % 8) 0) }

/-- `vData[nIndex >> 3] & bit_mask[7 & nIndex]`. -/
def testBit (f : CBloomFilter) (nIndex : Nat) : Option Bool :=
  match f.vData[nIndex / 8]? with
  | none => none
  | some b => some (decide (b &&& bitMask.getD (nIndex % 8) 0 ≠ 0))

/-- The loop of `insert` over the hash functions. -/
def insertFrom (vKey : List UInt8) : CBloomFilter → List Nat → Option CBloomFilter
  | f, [] => some f
  | f, i :: is =>
    (f.hash i vKey).bind fun nIndex => (f.setBit nIndex).bind fun f => insertFrom vKey f is

def insert (f : CBloomFilter) (vKey : List UInt8) : Option CBloomFilter :=
  if f.vData = [0xff] then some f else insertFrom vKey f (List.range f.nHashFuncs.toNat)

/-- The loop of `contains` over the hash functions. -/
def containsFrom (f : CBloomFilter) (vKey : List UInt8) : List Nat → Option Bool
  | [] => some true
  | i :: is =>
    (f.hash i vKey).bind fun nIndex =>
      (f.testBit nIndex).bind fun fSet => if fSet then containsFrom f vKey is else some false

def contains (f : CBloomFilter) (vKey : List UInt8) : Option Bool :=
  if f.vData = [0xff] then some true else f.containsFrom vKey (List.range f.nHashFuncs.toNat)

/-- `contains` of an operand of a script; operations without one have an empty operand. -/
def containsOperand (f : CBloomFilter) (data : List UInt8) : Option Bool :=
  if data.length ≠ 0 then f.contains data else some false

def updates [ScriptSolver] (f : CBloomFilter) (scriptPubKey : CScript) : Bool :=
  f.nFlags &&& BLOOM_UPDATE_MASK = BLOOM_UPDATE_ALL ||
    (decide (f.nFlags &&& BLOOM_UPDATE_MASK = BLOOM_UPDATE_P2PUBKEY_ONLY) &&
      ScriptSolver.isKeyScript scriptPubKey)

/-- The loop of `IsRelevantAndUpdate` over the operations of an output's script: whether one
matched, and the outpoint if it was inserted. -/
def matchScript [ScriptSolver] (o : COutPoint) (scriptPubKey : CScript) (f : CBloomFilter) :
    List (UInt8 × List UInt8) → Option (Bool × CBloomFilter × List COutPoint)
  | [] => some (false, f, [])
  | (_, data) :: ops =>
    (f.containsOperand data).bind fun fMatch =>
      if fMatch then
        if f.updates scriptPubKey then (f.insert o.serialize).map fun f => (true, f, [o])
        else some (true, f, [])
      else matchScript o scriptPubKey f ops

/-- The loop of `IsRelevantAndUpdate` over the outputs from number `i` on, with `fFound` and the
outpoints inserted. -/
def matchOutputs [ScriptSolver] (txid : uint256) :
    CBloomFilter → Nat → List CTxOut → Option (Bool × CBloomFilter × List COutPoint)
  | f, _, [] => some (false, f, [])
  | f, i, txout :: vout =>
    (matchScript ⟨txid, UInt32.ofNat i⟩ txout.scriptPubKey f txout.scriptPubKey.ops.1).bind
      fun (fMatch, f, inserted) =>
        (matchOutputs txid f (i + 1) vout).map fun (fFound, f, more) =>
          (fMatch || fFound, f, inserted ++ more)

/-- The loop over the operations of an input's script. -/
def matchOperands (f : CBloomFilter) : List (UInt8 × List UInt8) → Option Bool
  | [] => some false
  | (_, data) :: ops =>
    (f.containsOperand data).bind fun fMatch => if fMatch then some true else matchOperands f ops

/-- The loop of `IsRelevantAndUpdate` over the inputs. -/
def matchInputs (f : CBloomFilter) : List CTxIn → Option Bool
  | [] => some false
  | txin :: vin =>
    (f.contains txin.prevout.serialize).bind fun fSpends =>
      if fSpends then some true
      else
        (f.matchOperands txin.scriptSig.ops.1).bind fun fMatch =>
          if fMatch then some true else matchInputs f vin

/-- `IsRelevantAndUpdate`: the result, the filter afterwards and the outpoints inserted. -/
def isRelevantAndUpdate [ScriptSolver] (f : CBloomFilter) (tx : CTransaction) (txid : uint256) :
    Option (Bool × CBloomFilter × List COutPoint) :=
  (f.contains (hashBytes txid)).bind fun fContained =>
    (matchOutputs txid f 0 tx.vout).bind fun (fFound, f, inserted) =>
      if fContained || fFound then some (true, f, inserted)
      else (f.matchInputs tx.vin).map fun fInput => (fInput, f, inserted)

/-! ## The bits of a filter -/

/-- Bit number `n` of the vector. -/
def bit (f : CBloomFilter) (n : Nat) : Bool := (f.vData.getD (n / 8) 0).toNat.testBit (n % 8)

/-- The bit that hash function `i` has for the key. -/
def position (f : CBloomFilter) (vKey : List UInt8) (i : Nat) : Nat :=
  (murmurHash3 (UInt32.ofNat i * 0xFBA4C795 + f.nTweak) vKey).toNat % (f.vData.length * 8)

def Covers (f : CBloomFilter) (vKey : List UInt8) : Prop :=
  ∀ i < f.nHashFuncs.toNat, f.bit (f.position vKey i) = true

/-- No call on the filter has undefined behaviour. -/
def Safe (f : CBloomFilter) : Prop := f.vData ≠ [] ∨ f.nHashFuncs = 0

/-- A filter after some calls: the same parameters, and no bit was cleared. -/
structure Grows (f f' : CBloomFilter) : Prop where
  length : f'.vData.length = f.vData.length
  nHashFuncs : f'.nHashFuncs = f.nHashFuncs
  nTweak : f'.nTweak = f.nTweak
  nFlags : f'.nFlags = f.nFlags
  bit : ∀ n, f.bit n = true → f'.bit n = true

variable {f f' f'' : CBloomFilter} {vKey : List UInt8} {n i : Nat}

theorem Grows.refl (f : CBloomFilter) : Grows f f := ⟨rfl, rfl, rfl, rfl, fun _ h => h⟩

theorem Grows.trans (h : Grows f f') (h' : Grows f' f'') : Grows f f'' :=
  ⟨h'.length.trans h.length, h'.nHashFuncs.trans h.nHashFuncs, h'.nTweak.trans h.nTweak,
    h'.nFlags.trans h.nFlags, fun n hn => h'.bit n (h.bit n hn)⟩

theorem Grows.position (h : Grows f f') (vKey : List UInt8) (i : Nat) :
    f'.position vKey i = f.position vKey i := by
  unfold CBloomFilter.position
  rw [h.length, h.nTweak]

theorem Grows.covers (h : Grows f f') (hc : f.Covers vKey) : f'.Covers vKey := by
  intro i hi
  rw [h.position]
  exact h.bit _ (hc i (by rwa [h.nHashFuncs] at hi))

theorem Grows.safe (h : Grows f f') (hs : f.Safe) : f'.Safe := by
  rcases hs with hne | h0
  · left
    intro hnil
    have hlen := h.length
    rw [hnil] at hlen
    exact hne (List.length_eq_zero_iff.mp hlen.symm)
  · exact .inr (h.nHashFuncs.trans h0)

theorem toNat_bitMask {j : Nat} (hj : j < 8) : (bitMask.getD j 0).toNat = 2 ^ j := by
  have h : ∀ j < 8, (bitMask.getD j 0).toNat = 2 ^ j := by decide
  exact h j hj

theorem and_bitMask {b : UInt8} {j : Nat} (hj : j < 8) :
    decide (b &&& bitMask.getD j 0 ≠ 0) = b.toNat.testBit j := by
  have hiff : b &&& bitMask.getD j 0 = 0 ↔ b.toNat.testBit j = false := by
    rw [← UInt8.toNat_inj, UInt8.toNat_and, toNat_bitMask hj, Nat.and_two_pow]
    cases b.toNat.testBit j <;> simp
  cases h : b.toNat.testBit j with
  | false => simpa using hiff.mpr h
  | true =>
    refine decide_eq_true fun h0 => ?_
    rw [hiff.mp h0] at h
    cases h

theorem testBit_or_bitMask {b : UInt8} {j k : Nat} (hj : j < 8) :
    (b ||| bitMask.getD j 0).toNat.testBit k = (b.toNat.testBit k || decide (j = k)) := by
  rw [UInt8.toNat_or, toNat_bitMask hj, Nat.testBit_or, Nat.testBit_two_pow]

theorem testBit_eq (h : n < f.vData.length * 8) : f.testBit n = some (f.bit n) := by
  have hdiv : n / 8 < f.vData.length := Nat.div_lt_of_lt_mul (by rwa [Nat.mul_comm] at h)
  unfold testBit bit
  rw [List.getElem?_eq_getElem hdiv, List.getD_eq_getElem _ _ hdiv]
  exact congrArg some (and_bitMask (Nat.mod_lt _ (by decide)))

theorem setBit_spec (h : n < f.vData.length * 8) :
    ∃ f', f.setBit n = some f' ∧ Grows f f' ∧ ∀ m, f'.bit m = (f.bit m || decide (n = m)) := by
  have hdiv : n / 8 < f.vData.length := Nat.div_lt_of_lt_mul (by rwa [Nat.mul_comm] at h)
  let vData := f.vData.set (n / 8) (f.vData[n / 8] ||| bitMask.getD (n % 8) 0)
  have hbit : ∀ m, bit { f with vData } m = (f.bit m || decide (n = m)) := by
    intro m
    show (vData.getD (m / 8) 0).toNat.testBit (m % 8) = _
    unfold bit
    by_cases hm : n / 8 = m / 8
    · rw [← hm, List.getD_eq_getElem _ _ (by rwa [List.length_set]), List.getElem_set_self,
        testBit_or_bitMask (Nat.mod_lt _ (by decide)), List.getD_eq_getElem _ _ hdiv]
      congr 1
      exact decide_eq_decide.mpr ⟨fun hmod => by omega, fun heq => by rw [heq]⟩
    · rw [List.getD_eq_getElem?_getD, List.getElem?_set_ne hm, ← List.getD_eq_getElem?_getD,
        decide_eq_false (fun heq => hm (by rw [heq])), Bool.or_false]
  refine ⟨{ f with vData }, ?_, ⟨List.length_set, rfl, rfl, rfl, fun m hm => ?_⟩, hbit⟩
  · rw [setBit, List.getElem?_eq_getElem hdiv]
  · rw [hbit, hm, Bool.true_or]

theorem hash_eq (hne : f.vData ≠ []) (i : Nat) (vKey : List UInt8) :
    f.hash i vKey = some (f.position vKey i) ∧ f.position vKey i < f.vData.length * 8 := by
  have hpos : 0 < f.vData.length * 8 := by
    have := List.length_pos_iff.mpr hne
    omega
  exact ⟨if_neg (by omega), Nat.mod_lt _ hpos⟩

theorem insertFrom_spec (hne : f.vData ≠ []) (vKey : List UInt8) (is : List Nat) :
    ∃ f', insertFrom vKey f is = some f' ∧ Grows f f' ∧
      ∀ i ∈ is, f'.bit (f.position vKey i) = true := by
  induction is generalizing f with
  | nil => exact ⟨f, rfl, .refl f, fun i hi => absurd hi List.not_mem_nil⟩
  | cons i is ih =>
    obtain ⟨hhash, hlt⟩ := hash_eq hne i vKey
    obtain ⟨f1, hset, hgrows, hbit⟩ := setBit_spec hlt
    have hne1 : f1.vData ≠ [] := by
      have hlen := hgrows.length
      intro hnil
      rw [hnil] at hlen
      exact hne (List.length_eq_zero_iff.mp hlen.symm)
    obtain ⟨f', hrest, hgrows', hbits⟩ := ih hne1
    refine ⟨f', ?_, hgrows.trans hgrows', fun j hj => ?_⟩
    · rw [insertFrom, hhash, Option.bind_some, hset, Option.bind_some, hrest]
    · rcases List.mem_cons.mp hj with rfl | hj
      · exact hgrows'.bit _ (by rw [hbit, decide_eq_true rfl, Bool.or_true])
      · rw [← hgrows.position]
        exact hbits j hj

theorem covers_of_full (h : f.vData = [0xff]) (vKey : List UInt8) : f.Covers vKey := by
  intro i _
  have hlt : f.position vKey i < 8 := by
    unfold position
    rw [h]
    exact Nat.mod_lt _ (by decide)
  have hall : ∀ n < 8, (0xff : UInt8).toNat.testBit n = true := by decide
  unfold bit
  rw [h, Nat.div_eq_of_lt hlt, Nat.mod_eq_of_lt hlt]
  exact hall _ hlt

theorem range_nHashFuncs (h : f.nHashFuncs = 0) : List.range f.nHashFuncs.toNat = [] := by
  rw [h]
  rfl

theorem insert_spec (hs : f.Safe) (vKey : List UInt8) :
    ∃ f', f.insert vKey = some f' ∧ Grows f f' ∧ f'.Covers vKey := by
  unfold insert
  split
  · rename_i hfull
    exact ⟨f, rfl, .refl f, covers_of_full hfull vKey⟩
  · rcases hs with hne | h0
    · obtain ⟨f', hf', hgrows, hbits⟩ := insertFrom_spec hne vKey (List.range f.nHashFuncs.toNat)
      refine ⟨f', hf', hgrows, fun i hi => ?_⟩
      rw [hgrows.position]
      exact hbits i (List.mem_range.mpr (by rwa [hgrows.nHashFuncs] at hi))
    · rw [range_nHashFuncs h0]
      refine ⟨f, rfl, .refl f, fun i hi => ?_⟩
      rw [h0] at hi
      cases hi

theorem containsFrom_spec (hne : f.vData ≠ []) (vKey : List UInt8) (is : List Nat) :
    ∃ b, f.containsFrom vKey is = some b ∧
      (b = true ↔ ∀ i ∈ is, f.bit (f.position vKey i) = true) := by
  induction is with
  | nil => exact ⟨true, rfl, by simp⟩
  | cons i is ih =>
    obtain ⟨hhash, hlt⟩ := hash_eq hne i vKey
    obtain ⟨b, hb, hiff⟩ := ih
    rw [containsFrom, hhash, Option.bind_some, testBit_eq hlt, Option.bind_some]
    cases hbit : f.bit (f.position vKey i) with
    | false =>
      refine ⟨false, rfl, fun h => (Bool.false_ne_true h).elim, fun h => ?_⟩
      rw [← hbit]
      exact h i List.mem_cons_self
    | true => exact ⟨b, hb, by rw [hiff, List.forall_mem_cons, hbit]; simp⟩

theorem contains_spec (hs : f.Safe) (vKey : List UInt8) :
    ∃ b, f.contains vKey = some b ∧ (b = true ↔ f.Covers vKey) := by
  unfold contains
  split
  · rename_i hfull
    exact ⟨true, rfl, fun _ => covers_of_full hfull vKey, fun _ => rfl⟩
  · rcases hs with hne | h0
    · obtain ⟨b, hb, hiff⟩ := containsFrom_spec hne vKey (List.range f.nHashFuncs.toNat)
      refine ⟨b, hb, hiff.trans ?_⟩
      simp only [List.mem_range]
      exact Iff.rfl
    · rw [range_nHashFuncs h0]
      refine ⟨true, rfl, fun _ i hi => ?_, fun _ => rfl⟩
      rw [h0] at hi
      cases hi

theorem not_safe (h : ¬ f.Safe) (vKey : List UInt8) :
    f.insert vKey = none ∧ f.contains vKey = none := by
  rw [Safe, not_or, not_not] at h
  obtain ⟨hnil, hfuncs⟩ := h
  obtain ⟨n, hn⟩ : ∃ n, f.nHashFuncs.toNat = n + 1 :=
    Nat.exists_eq_succ_of_ne_zero fun h0 => hfuncs (UInt32.toNat_inj.mp h0)
  have hhash : f.hash 0 vKey = none := if_pos (by rw [hnil]; rfl)
  have hne : f.vData ≠ [0xff] := by
    rw [hnil]
    simp
  constructor
  · rw [insert, if_neg hne, hn, List.range_succ_eq_map, insertFrom, hhash]
    rfl
  · rw [contains, if_neg hne, hn, List.range_succ_eq_map, containsFrom, hhash]
    rfl

/-! ## Matching a transaction -/

section

variable [ScriptSolver]

def UpdatesAll (f : CBloomFilter) : Prop := f.nFlags &&& BLOOM_UPDATE_MASK = BLOOM_UPDATE_ALL

/-- The filter after outputs were matched. -/
structure Updated (f f' : CBloomFilter) (fFound : Bool) (inserted : List COutPoint) : Prop where
  grows : Grows f f'
  covers : ∀ o ∈ inserted, f'.Covers o.serialize
  unchanged : fFound = false → f' = f

/-- A script has an operand that the filter contains. -/
def MatchesScript (f : CBloomFilter) (ops : List (UInt8 × List UInt8)) : Prop :=
  ∃ op ∈ ops, op.2 ≠ [] ∧ f.Covers op.2

omit [ScriptSolver] in
theorem Grows.updatesAll (h : Grows f f') (hf : f.UpdatesAll) : f'.UpdatesAll := by
  unfold UpdatesAll
  rw [h.nFlags]
  exact hf

omit [ScriptSolver] in
theorem Grows.matchesScript {ops : List (UInt8 × List UInt8)} (h : Grows f f')
    (hm : f.MatchesScript ops) : f'.MatchesScript ops := by
  obtain ⟨op, hop, hne, hc⟩ := hm
  exact ⟨op, hop, hne, h.covers hc⟩

omit [ScriptSolver] in
theorem containsOperand_spec (hs : f.Safe) (data : List UInt8) :
    ∃ b, f.containsOperand data = some b ∧ (b = true ↔ data ≠ [] ∧ f.Covers data) := by
  unfold containsOperand
  split
  · rename_i h
    obtain ⟨b, hb, hiff⟩ := contains_spec hs data
    exact ⟨b, hb, hiff.trans ⟨fun hc => ⟨fun h0 => h (by rw [h0]; rfl), hc⟩, fun hc => hc.2⟩⟩
  · rename_i h
    have h0 : data = [] := List.length_eq_zero_iff.mp (not_not.mp h)
    exact ⟨false, rfl, fun h' => (Bool.false_ne_true h').elim, fun h' => absurd h0 h'.1⟩

theorem matchScript_spec (hs : f.Safe) (o : COutPoint) (scriptPubKey : CScript)
    (ops : List (UInt8 × List UInt8)) :
    ∃ b f' inserted, matchScript o scriptPubKey f ops = some (b, f', inserted) ∧
      Updated f f' b inserted ∧ (f.UpdatesAll → f.MatchesScript ops → o ∈ inserted) := by
  induction ops with
  | nil =>
    refine ⟨false, f, [], rfl, ⟨.refl f, fun o ho => absurd ho List.not_mem_nil, fun _ => rfl⟩, ?_⟩
    rintro - ⟨op, hop, -⟩
    exact absurd hop List.not_mem_nil
  | cons op ops ih =>
    obtain ⟨opcode, data⟩ := op
    obtain ⟨b, hb, hiff⟩ := containsOperand_spec hs data
    rw [matchScript, hb, Option.bind_some]
    cases b with
    | false =>
      obtain ⟨b', f', inserted, heq, hupd, hall⟩ := ih
      refine ⟨b', f', inserted, heq, hupd, fun hf hm => hall hf ?_⟩
      obtain ⟨op, hop, hop'⟩ := hm
      rcases List.mem_cons.mp hop with rfl | hop
      · exact absurd (hiff.mpr hop') Bool.false_ne_true
      · exact ⟨op, hop, hop'⟩
    | true =>
      rw [if_pos rfl]
      by_cases hu : f.updates scriptPubKey = true
      · obtain ⟨f', hf', hgrows, hc⟩ := insert_spec hs o.serialize
        rw [if_pos hu, hf']
        refine ⟨true, f', [o], rfl, ⟨hgrows, fun o' ho => ?_, fun h => by cases h⟩, fun _ _ => ?_⟩
        · rw [List.mem_singleton.mp ho]
          exact hc
        · exact List.mem_singleton_self o
      · rw [if_neg hu]
        refine ⟨true, f, [], rfl, ⟨.refl f, fun o ho => absurd ho List.not_mem_nil,
          fun h => by cases h⟩, fun hf => absurd ?_ hu⟩
        unfold UpdatesAll at hf
        unfold updates
        rw [decide_eq_true hf, Bool.true_or]

theorem matchOutputs_spec (hs : f.Safe) (txid : uint256) (n : Nat) (vout : List CTxOut) :
    ∃ b f' inserted, matchOutputs txid f n vout = some (b, f', inserted) ∧
      Updated f f' b inserted ∧
      ∀ (i : Nat) (txout : CTxOut), vout[i]? = some txout → f.UpdatesAll →
        f.MatchesScript txout.scriptPubKey.ops.1 → ⟨txid, UInt32.ofNat (n + i)⟩ ∈ inserted := by
  induction vout generalizing f n with
  | nil =>
    refine ⟨false, f, [], rfl, ⟨.refl f, fun o ho => absurd ho List.not_mem_nil, fun _ => rfl⟩, ?_⟩
    rintro i txout h
    cases h
  | cons txout vout ih =>
    obtain ⟨b1, f1, ins1, h1, hupd1, hall1⟩ :=
      matchScript_spec hs ⟨txid, UInt32.ofNat n⟩ txout.scriptPubKey txout.scriptPubKey.ops.1
    obtain ⟨b2, f2, ins2, h2, hupd2, hall2⟩ := ih (hupd1.grows.safe hs) (n + 1)
    refine ⟨b1 || b2, f2, ins1 ++ ins2, ?_, ⟨hupd1.grows.trans hupd2.grows, ?_, ?_⟩, ?_⟩
    · rw [matchOutputs, h1, Option.bind_some]
      show (matchOutputs txid f1 (n + 1) vout).map _ = _
      rw [h2]
      rfl
    · intro o ho
      rcases List.mem_append.mp ho with ho | ho
      · exact hupd2.grows.covers (hupd1.covers o ho)
      · exact hupd2.covers o ho
    · intro h
      rw [Bool.or_eq_false_iff] at h
      rw [hupd2.unchanged h.2, hupd1.unchanged h.1]
    · intro i txout' hi hf hm
      cases i with
      | zero =>
        obtain rfl : txout = txout' := Option.some.inj hi
        exact List.mem_append_left _ (hall1 hf hm)
      | succ i =>
        have hmem := hall2 i txout' hi (hupd1.grows.updatesAll hf)
          (hupd1.grows.matchesScript hm)
        rw [show n + 1 + i = n + (i + 1) by omega] at hmem
        exact List.mem_append_right _ hmem

omit [ScriptSolver] in
theorem matchOperands_isSome (hs : f.Safe) (ops : List (UInt8 × List UInt8)) :
    ∃ b, f.matchOperands ops = some b := by
  induction ops with
  | nil => exact ⟨false, rfl⟩
  | cons op ops ih =>
    obtain ⟨b, hb, -⟩ := containsOperand_spec hs op.2
    rw [matchOperands, hb, Option.bind_some]
    cases b with
    | false => exact ih
    | true => exact ⟨true, rfl⟩

omit [ScriptSolver] in
theorem matchInputs_spec (hs : f.Safe) (vin : List CTxIn) :
    ∃ b, f.matchInputs vin = some b ∧
      ((∃ txin ∈ vin, f.Covers txin.prevout.serialize) → b = true) := by
  induction vin with
  | nil =>
    refine ⟨false, rfl, ?_⟩
    rintro ⟨txin, htxin, -⟩
    exact absurd htxin List.not_mem_nil
  | cons txin vin ih =>
    obtain ⟨b1, h1, hiff⟩ := contains_spec hs txin.prevout.serialize
    rw [matchInputs, h1, Option.bind_some]
    cases b1 with
    | true => exact ⟨true, rfl, fun _ => rfl⟩
    | false =>
      obtain ⟨b2, h2⟩ := matchOperands_isSome hs txin.scriptSig.ops.1
      rw [if_neg Bool.false_ne_true, h2, Option.bind_some]
      cases b2 with
      | true => exact ⟨true, rfl, fun _ => rfl⟩
      | false =>
        obtain ⟨b, hb, himp⟩ := ih
        refine ⟨b, hb, fun h => himp ?_⟩
        obtain ⟨txin', htxin', hc⟩ := h
        rcases List.mem_cons.mp htxin' with rfl | htxin'
        · exact absurd (hiff.mpr hc) Bool.false_ne_true
        · exact ⟨txin', htxin', hc⟩

/-- What `IsRelevantAndUpdate` does: outputs that match are inserted, and a transaction that spends
an outpoint of the filter is relevant. -/
theorem isRelevantAndUpdate_spec (hs : f.Safe) (tx : CTransaction) (txid : uint256) :
    ∃ r f' inserted, f.isRelevantAndUpdate tx txid = some (r, f', inserted) ∧ Grows f f' ∧
      (∀ o ∈ inserted, f'.Covers o.serialize) ∧
      (∀ (i : Nat) (txout : CTxOut), tx.vout[i]? = some txout → f.UpdatesAll →
        f.MatchesScript txout.scriptPubKey.ops.1 → ⟨txid, UInt32.ofNat i⟩ ∈ inserted) ∧
      ((∃ txin ∈ tx.vin, f.Covers txin.prevout.serialize) → r = true) := by
  obtain ⟨b0, h0, -⟩ := contains_spec hs (hashBytes txid)
  obtain ⟨b1, f', inserted, h1, hupd, hall⟩ := matchOutputs_spec hs txid 0 tx.vout
  simp only [Nat.zero_add] at hall
  unfold isRelevantAndUpdate
  rw [h0, Option.bind_some, h1, Option.bind_some]
  dsimp only
  by_cases hfound : (b0 || b1) = true
  · rw [if_pos hfound]
    exact ⟨true, f', inserted, rfl, hupd.grows, hupd.covers, hall, fun _ => rfl⟩
  · -- nothing was found, so nothing was inserted either
    rw [if_neg hfound]
    have hsame : f' = f := hupd.unchanged (Bool.or_eq_false_iff.mp (Bool.eq_false_iff.mpr hfound)).2
    obtain ⟨b2, h2, himp⟩ := matchInputs_spec (hupd.grows.safe hs) tx.vin
    rw [h2]
    refine ⟨b2, f', inserted, rfl, hupd.grows, hupd.covers, hall, ?_⟩
    rintro ⟨txin, htxin, hc⟩
    exact himp ⟨txin, htxin, by rw [hsame]; exact hc⟩

theorem isRelevantAndUpdate_not_safe (h : ¬ f.Safe) (tx : CTransaction) (txid : uint256) :
    f.isRelevantAndUpdate tx txid = none := by
  unfold isRelevantAndUpdate
  rw [(not_safe h _).2]
  rfl

end

end CBloomFilter

end Terracoin
