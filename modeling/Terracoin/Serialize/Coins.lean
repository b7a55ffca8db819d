import Terracoin.Serialize.TxOut
import Terracoin.Coins.Coins

/-!
# The database format of `CCoins`

`CalcMaskSize`, `Serialize`, `GetSerializeSize` and `Unserialize` of `CCoins`.

The reader sees the unspentness mask as a list of bits and the outputs as that many slots;
`available_bits` says that these bits are the availability of the outputs, as far as the mask
goes, and that nothing is available beyond it. Coins with storable outputs then read back as their
cleaned-up selves exactly if their transaction version is not negative (`roundTrips_iff`): the
version goes through a varint of type `int`, which keeps only seven bits of a negative number.
-/

namespace Terracoin

open Codec

/-! ## The unspentness mask -/

/-- The number with the given bits, least significant first. -/
def bitsValue : List Bool → Nat
  | [] => 0
  | b :: bits => b.toNat + 2 * bitsValue bits

/-- The bits of a byte, least significant first. -/
def bitsOf (ch : UInt8) : List Bool := (List.range 8).map fun p => ch.toNat.testBit p

/-- The list cut into pieces of eight, the last one possibly shorter. No more pieces than elements,
so their number is enough fuel. -/
def eights {α : Type} : Nat → List α → List (List α)
  | 0, _ => []
  | _ + 1, [] => []
  | fuel + 1, a :: l => (a :: l).take 8 :: eights fuel ((a :: l).drop 8)

/-- The outputs from the third on, eight for each byte of the mask. -/
def maskOuts (vout : List CTxOut) : List (List CTxOut) := eights (vout.drop 2).length (vout.drop 2)

/-- The loop of `CalcMaskSize` from byte `b` on, with `nLastUsedByte` and `nNonzeroBytes`. -/
def calcMaskSizeFrom : Nat → Nat → Nat → List (List CTxOut) → Nat × Nat
  | _, nLastUsedByte, nNonzeroBytes, [] => (nLastUsedByte, nNonzeroBytes)
  | b, nLastUsedByte, nNonzeroBytes, outs :: rest =>
    if outs.all CTxOut.isNull then calcMaskSizeFrom (b + 1) nLastUsedByte nNonzeroBytes rest
    else calcMaskSizeFrom (b + 1) (b + 1) (nNonzeroBytes + 1) rest

def chAvail (outs : List CTxOut) : UInt8 := UInt8.ofNat (bitsValue (outs.map fun out => !out.isNull))

/-- Read mask bytes until `nMaskCode` of them were not zero. -/
def readMaskFrom : List UInt8 → Nat → Option (List Bool × List UInt8)
  | s, 0 => some ([], s)
  | [], _ + 1 => none
  | ch :: s, nMaskCode + 1 =>
    (readMaskFrom s (if ch = 0 then nMaskCode + 1 else nMaskCode)).map fun r =>
      (bitsOf ch ++ r.1, r.2)

def readMask (nMaskCode : Nat) : Reader (List Bool) := fun s => readMaskFrom s nMaskCode

/-- Read an output for every set bit; the others are spent. -/
def readOuts [PublicKeys] : List Bool → Reader (List CTxOut)
  | [] => pure []
  | false :: vAvail => do
    let vout ← readOuts vAvail
    pure (CTxOut.null :: vout)
  | true :: vAvail => do
    let out ← CTxOut.read
    let vout ← readOuts vAvail
    pure (out :: vout)

/-! ### Bits -/

theorem bitsValue_testBit (bits : List Bool) (i : Nat) :
    (bitsValue bits).testBit i = (bits[i]?).getD false := by
  induction bits generalizing i with
  | nil => simp [bitsValue]
  | cons b bits ih =>
    cases i with
    | zero =>
      rw [bitsValue, Nat.testBit_zero]
      cases b with
      | false => simp
      | true => simp [Nat.add_mod]
    | succ i =>
      have hhalf : (b.toNat + 2 * bitsValue bits) / 2 = bitsValue bits := by
        have := b.toNat_le
        omega
      rw [bitsValue, Nat.testBit_succ, hhalf, ih]
      rfl

theorem bitsValue_lt (bits : List Bool) : bitsValue bits < 2 ^ bits.length := by
  induction bits with
  | nil => simp [bitsValue]
  | cons b bits ih =>
    have hb := b.toNat_le
    rw [bitsValue, List.length_cons, pow_succ]
    omega

theorem bitsOf_bitsValue {bits : List Bool} (h : bits.length ≤ 8) :
    bitsOf (UInt8.ofNat (bitsValue bits)) = bits ++ List.replicate (8 - bits.length) false := by
  have hlt : bitsValue bits < 256 :=
    lt_of_lt_of_le (bitsValue_lt bits) (Nat.pow_le_pow_right (by omega) h : _ ≤ 2 ^ 8)
  have hnat : (UInt8.ofNat (bitsValue bits)).toNat = bitsValue bits := by
    rw [UInt8.toNat_ofNat']
    omega
  apply List.ext_getElem?
  intro i
  rw [bitsOf, List.getElem?_map, hnat]
  by_cases hi : i < 8
  · rw [List.getElem?_range hi, Option.map_some, bitsValue_testBit]
    by_cases hb : i < bits.length
    · rw [List.getElem?_append_left hb, List.getElem?_eq_getElem hb]
      rfl
    · rw [List.getElem?_append_right (by omega), List.getElem?_replicate, if_pos (by omega),
        List.getElem?_eq_none_iff.mpr (by omega)]
      rfl
  · rw [List.getElem?_eq_none_iff.mpr (by rw [List.length_range]; omega)]
    rw [List.getElem?_eq_none_iff.mpr (by
      rw [List.length_append, List.length_replicate]; omega)]
    rfl

theorem bitsValue_eq_zero_iff {bits : List Bool} : bitsValue bits = 0 ↔ ∀ b ∈ bits, b = false := by
  induction bits with
  | nil => simp [bitsValue]
  | cons b bits ih =>
    rw [List.forall_mem_cons, ← ih, bitsValue]
    cases b <;> simp

theorem chAvail_eq_zero_iff {outs : List CTxOut} (h : outs.length ≤ 8) :
    chAvail outs = 0 ↔ outs.all CTxOut.isNull = true := by
  have hlt : bitsValue (outs.map fun out => !out.isNull) < 2 ^ 8 :=
    lt_of_lt_of_le (bitsValue_lt _) (Nat.pow_le_pow_right (by omega) (by rwa [List.length_map]))
  have hzero : chAvail outs = 0 ↔ bitsValue (outs.map fun out => !out.isNull) = 0 := by
    rw [chAvail, ← UInt8.toNat_inj, UInt8.toNat_ofNat', UInt8.toNat_zero, Nat.mod_eq_of_lt hlt]
  rw [hzero, bitsValue_eq_zero_iff, List.all_eq_true, List.forall_mem_map]
  simp

theorem length_of_mem_eights {α : Type} {fuel : Nat} {l a : List α} (h : a ∈ eights fuel l) :
    a.length ≤ 8 := by
  induction fuel generalizing l with
  | zero => cases h
  | succ fuel ih =>
    cases l with
    | nil => cases h
    | cons b l =>
      rcases List.mem_cons.mp h with rfl | h
      · rw [List.length_take]
        omega
      · exact ih h

theorem length_eights_le {α : Type} (fuel : Nat) (l : List α) : (eights fuel l).length ≤ fuel := by
  induction fuel generalizing l with
  | zero => exact le_refl 0
  | succ fuel ih =>
    cases l with
    | nil => exact Nat.zero_le _
    | cons a l => exact Nat.succ_le_succ (ih _)

/-- Unpacking the mask bytes gives the availability back, and zeros up to a multiple of eight. -/
theorem flatMap_chAvail {fuel : Nat} {vout : List CTxOut} (h : vout.length ≤ fuel) :
    ∃ k, ((eights fuel vout).map chAvail).flatMap bitsOf =
      vout.map (fun out => !out.isNull) ++ List.replicate k false := by
  induction fuel generalizing vout with
  | zero =>
    obtain rfl : vout = [] := List.eq_nil_of_length_eq_zero (by omega)
    exact ⟨0, rfl⟩
  | succ fuel ih =>
    cases vout with
    | nil => exact ⟨0, rfl⟩
    | cons out vout =>
      generalize hall : out :: vout = all at h
      have hpos : 0 < all.length := by
        rw [← hall, List.length_cons]
        omega
      have heq : eights (fuel + 1) all = all.take 8 :: eights fuel (all.drop 8) := by
        rw [← hall]
        rfl
      have hdrop : (all.drop 8).length ≤ fuel := by
        rw [List.length_drop]
        omega
      obtain ⟨k, hk⟩ := ih hdrop
      have hmap : ((all.take 8).map fun out => !out.isNull).length ≤ 8 := by
        rw [List.length_map, List.length_take]
        omega
      rw [heq, List.map_cons, List.flatMap_cons, hk, chAvail, bitsOf_bitsValue hmap, List.length_map,
        List.length_take]
      by_cases hlong : 8 ≤ all.length
      · refine ⟨k, ?_⟩
        rw [Nat.min_eq_left hlong, Nat.sub_self, List.replicate_zero, List.append_nil,
          ← List.append_assoc, ← List.map_append, List.take_append_drop]
      · refine ⟨8 - all.length + k, ?_⟩
        rw [List.take_of_length_le (by omega), List.drop_eq_nil_of_le (by omega), List.map_nil,
          List.nil_append, List.append_assoc, ← List.replicate_add, Nat.min_eq_right (by omega)]

/-! ### Trimming -/

theorem rdropWhile_cons {α : Type} (p : α → Bool) (a : α) (l : List α) :
    (a :: l).rdropWhile p =
      if l.rdropWhile p = [] then (if p a then [] else [a]) else a :: l.rdropWhile p := by
  simp only [List.rdropWhile, List.reverse_cons, List.dropWhile_append, List.isEmpty_iff,
    List.reverse_eq_nil_iff]
  split
  · cases hp : p a <;> simp [hp]
  · simp

theorem countP_eq_zero_of_rdropWhile {mask : List UInt8} (h : mask.rdropWhile (· == 0) = []) :
    mask.countP (· != 0) = 0 := by
  rw [List.countP_eq_zero]
  intro ch hch
  simpa using List.rdropWhile_eq_nil_iff.mp h ch hch

/-- `CalcMaskSize` counts the mask bytes up to the last one that is not zero, and those that are
not zero. -/
theorem calcMaskSizeFrom_eq (b nLastUsedByte nNonzeroBytes : Nat) {outs : List (List CTxOut)}
    (h : ∀ o ∈ outs, o.length ≤ 8) :
    calcMaskSizeFrom b nLastUsedByte nNonzeroBytes outs =
      (if (outs.map chAvail).rdropWhile (· == 0) = [] then nLastUsedByte
        else b + ((outs.map chAvail).rdropWhile (· == 0)).length,
        nNonzeroBytes + (outs.map chAvail).countP (· != 0)) := by
  induction outs generalizing b nLastUsedByte nNonzeroBytes with
  | nil => simp [calcMaskSizeFrom]
  | cons o outs ih =>
    have ho := chAvail_eq_zero_iff (h o List.mem_cons_self)
    have ih := fun b nLastUsedByte nNonzeroBytes =>
      ih b nLastUsedByte nNonzeroBytes fun o' ho' => h o' (List.mem_cons_of_mem _ ho')
    unfold calcMaskSizeFrom
    rw [List.map_cons, rdropWhile_cons, List.countP_cons]
    by_cases hz : chAvail o = 0
    · rw [if_pos (ho.mp hz), ih]
      by_cases hnil : (outs.map chAvail).rdropWhile (· == 0) = []
      · simp [hz, hnil]
      · simp [hz, hnil]
        omega
    · rw [if_neg (fun hall => hz (ho.mpr hall)), ih]
      by_cases hnil : (outs.map chAvail).rdropWhile (· == 0) = []
      · simp [hz, hnil]
        omega
      · simp [hz, hnil]
        omega

/-- The reader takes the bytes up to the last one that is not zero. -/
theorem decodes_readMask (mask : List UInt8) :
    Decodes (readMask (mask.countP (· != 0))) (mask.rdropWhile (· == 0))
      ((mask.rdropWhile (· == 0)).flatMap bitsOf) := by
  intro rest
  unfold readMask
  induction mask with
  | nil => simp [readMaskFrom]
  | cons ch mask ih =>
    rw [rdropWhile_cons, List.countP_cons]
    by_cases hnil : mask.rdropWhile (· == 0) = []
    · have hcount := countP_eq_zero_of_rdropWhile hnil
      by_cases hz : ch = 0
      · simp [hnil, hz, hcount, readMaskFrom]
      · simp [hnil, hz, hcount, readMaskFrom]
    · obtain ⟨k, hk⟩ : ∃ k, mask.countP (· != 0) = k + 1 := by
        refine Nat.exists_eq_succ_of_ne_zero fun hcount => hnil ?_
        rw [List.countP_eq_zero] at hcount
        rw [List.rdropWhile_eq_nil_iff]
        intro ch hch
        simpa using hcount ch hch
      rw [hk] at ih
      by_cases hz : ch = 0
      · simp [hnil, hz, hk, readMaskFrom, ih]
      · simp [hnil, hz, hk, readMaskFrom, ih]

/-! ## Coins -/

namespace CCoins

/-- `CalcMaskSize` from zero: the bytes of the mask, and how many of them are not zero. -/
def calcMaskSize (c : CCoins) : Nat × Nat := calcMaskSizeFrom 0 0 0 (maskOuts c.vout)

/-- The header code; `none` when the assertion that some output is available fails. -/
def nCode (c : CCoins) : Option Nat :=
  let nMaskCode := c.calcMaskSize.2
  let fFirst := c.isAvailable 0
  let fSecond := c.isAvailable 1
  if fFirst || fSecond || nMaskCode != 0 then
    some ((8 * (nMaskCode - if fFirst || fSecond then 0 else 1) +
      c.fCoinBase.toNat + 2 * fFirst.toNat + 4 * fSecond.toNat) % 2 ^ 32)
  else none

def unspent (c : CCoins) : List CTxOut := c.vout.filter fun out => !out.isNull

def getSerializeSize [PublicKeys] (c : CCoins) : Option Nat :=
  c.nCode.map fun (nCode : Nat) =>
    getSizeOfVarInt c.nVersion.toInt + getSizeOfVarInt nCode + c.calcMaskSize.1 +
      (c.unspent.map CTxOut.compressedSize).sum + getSizeOfVarInt c.nHeight

def serialize [PublicKeys] (c : CCoins) : Option (List UInt8) :=
  c.nCode.map fun (nCode : Nat) =>
    writeVarInt c.nVersion.toInt ++ (writeVarInt nCode ++
      (((maskOuts c.vout).map chAvail).take c.calcMaskSize.1 ++
        (c.unspent.flatMap CTxOut.write ++ writeVarInt c.nHeight)))

def unserialize [PublicKeys] : Reader CCoins := do
  let nVersion ← readVarIntInt
  let nCode ← readVarInt 32
  let vAvail ← readMask (nCode / 8 + if nCode.testBit 1 || nCode.testBit 2 then 0 else 1)
  let vout ← readOuts (nCode.testBit 1 :: nCode.testBit 2 :: vAvail)
  let nHeight ← readVarIntInt
  pure (cleanup ⟨nCode.testBit 0, vout, nHeight.toInt, nVersion⟩)

/-! ### The header -/

theorem calcMaskSize_eq (c : CCoins) :
    c.calcMaskSize = ((((maskOuts c.vout).map chAvail).rdropWhile (· == 0)).length,
      ((maskOuts c.vout).map chAvail).countP (· != 0)) := by
  have hlen : ∀ o ∈ maskOuts c.vout, o.length ≤ 8 := fun o ho => length_of_mem_eights ho
  rw [calcMaskSize, calcMaskSizeFrom_eq 0 0 0 hlen]
  split
  · rename_i hnil
    rw [hnil, Nat.zero_add, List.length_nil]
  · rw [Nat.zero_add, Nat.zero_add]

theorem take_mask (c : CCoins) : ((maskOuts c.vout).map chAvail).take c.calcMaskSize.1 =
    ((maskOuts c.vout).map chAvail).rdropWhile (· == 0) := by
  rw [calcMaskSize_eq]
  exact (List.prefix_iff_eq_take.mp (List.rdropWhile_prefix _ _)).symm

theorem calcMaskSize_le (c : CCoins) : c.calcMaskSize.2 ≤ c.vout.length := by
  rw [calcMaskSize_eq]
  calc ((maskOuts c.vout).map chAvail).countP (· != 0)
      ≤ ((maskOuts c.vout).map chAvail).length := List.countP_le_length
    _ ≤ (c.vout.drop 2).length := by
        rw [List.length_map]
        exact length_eights_le _ _
    _ ≤ c.vout.length := by
        rw [List.length_drop]
        omega

theorem getD_append_replicate (bits : List Bool) (k i : Nat) :
    ((bits ++ List.replicate k false)[i]?).getD false = (bits[i]?).getD false := by
  by_cases hi : i < bits.length
  · rw [List.getElem?_append_left hi]
  · rw [List.getElem?_append_right (by omega), List.getElem?_replicate,
      List.getElem?_eq_none_iff.mpr (by omega)]
    split <;> rfl

theorem flatMap_bitsOf_zeros {mask : List UInt8} (h : ∀ ch ∈ mask, ch = 0) :
    ∃ k, mask.flatMap bitsOf = List.replicate k false := by
  induction mask with
  | nil => exact ⟨0, rfl⟩
  | cons ch mask ih =>
    obtain ⟨k, hk⟩ := ih fun ch' hch' => h ch' (List.mem_cons_of_mem _ hch')
    refine ⟨8 + k, ?_⟩
    rw [List.flatMap_cons, hk, h ch List.mem_cons_self, List.replicate_add]
    rfl

/-- What the reader makes of the mask: the availability of the outputs, as far as it goes, and
nothing beyond it. -/
theorem available_bits (c : CCoins) (i : Nat) :
    ((c.isAvailable 0 :: c.isAvailable 1 ::
      (((maskOuts c.vout).map chAvail).rdropWhile (· == 0)).flatMap bitsOf)[i]?).getD false =
        c.isAvailable i := by
  match i with
  | 0 => rfl
  | 1 => rfl
  | i + 2 =>
    generalize hmask : (maskOuts c.vout).map chAvail = mask
    obtain ⟨k, hk⟩ := flatMap_chAvail (le_refl (c.vout.drop 2).length)
    change ((maskOuts c.vout).map chAvail).flatMap bitsOf = _ at hk
    have hsplit : mask = mask.rdropWhile (· == 0) ++ mask.rtakeWhile (· == 0) := by
      rw [List.rdropWhile, List.rtakeWhile, ← List.reverse_append, List.takeWhile_append_dropWhile,
        List.reverse_reverse]
    have hzeros : ∀ ch ∈ mask.rtakeWhile (· == 0), ch = 0 := fun ch hch => by
      simpa using List.mem_rtakeWhile_imp hch
    obtain ⟨m, hm⟩ := flatMap_bitsOf_zeros hzeros
    rw [List.getElem?_cons_succ, List.getElem?_cons_succ]
    calc (((mask.rdropWhile (· == 0)).flatMap bitsOf)[i]?).getD false
        = (((mask.rdropWhile (· == 0)).flatMap bitsOf ++ List.replicate m false)[i]?).getD false :=
          (getD_append_replicate _ _ _).symm
      _ = ((mask.flatMap bitsOf)[i]?).getD false := by
          rw [← hm, ← List.flatMap_append, ← hsplit]
      _ = (((c.vout.drop 2).map fun out => !out.isNull)[i]?).getD false := by
          rw [← hmask, hk, getD_append_replicate]
      _ = c.isAvailable (i + 2) := by
          rw [isAvailable, List.getElem?_map, List.getElem?_drop, Nat.add_comm 2 i]
          cases c.vout[i + 2]? <;> rfl

theorem headerCode_bits (m : Nat) (coinbase first second : Bool) :
    (8 * m + coinbase.toNat + 2 * first.toNat + 4 * second.toNat).testBit 0 = coinbase ∧
      (8 * m + coinbase.toNat + 2 * first.toNat + 4 * second.toNat).testBit 1 = first ∧
      (8 * m + coinbase.toNat + 2 * first.toNat + 4 * second.toNat).testBit 2 = second ∧
      (8 * m + coinbase.toNat + 2 * first.toNat + 4 * second.toNat) / 8 = m := by
  simp only [Nat.testBit_eq_decide_div_mod_eq]
  cases coinbase <;> cases first <;> cases second <;>
    simp only [Bool.toNat_true, Bool.toNat_false, decide_eq_true_eq, decide_eq_false_iff_not] <;>
    omega

theorem nCode_eq {c : CCoins} (hp : c.isPruned = false) (hlen : c.vout.length ≤ maxBlockSize) :
    ∃ n, c.nCode = some n ∧ n < 2 ^ 32 ∧ n.testBit 0 = c.fCoinBase ∧
      n.testBit 1 = c.isAvailable 0 ∧ n.testBit 2 = c.isAvailable 1 ∧
      (n / 8 + if n.testBit 1 || n.testBit 2 then 0 else 1) = c.calcMaskSize.2 := by
  have hle := c.calcMaskSize_le
  have hbs : maxBlockSize = 1000000 := rfl
  have hassert : c.isAvailable 0 = false → c.isAvailable 1 = false → c.calcMaskSize.2 ≠ 0 := by
    intro h0 h1 hzero
    rw [calcMaskSize_eq] at hzero
    have hnil : ((maskOuts c.vout).map chAvail).rdropWhile (· == 0) = [] := by
      rw [List.rdropWhile_eq_nil_iff]
      intro ch hch
      simpa using List.countP_eq_zero.mp hzero ch hch
    obtain ⟨n, hn⟩ := isPruned_eq_false_iff.mp hp
    rw [← isAvailable_eq, ← available_bits, h0, h1, hnil] at hn
    match n with
    | 0 => cases hn
    | 1 => cases hn
    | n + 2 => simp at hn
  unfold nCode
  generalize c.calcMaskSize.2 = m at hle hassert ⊢
  generalize c.isAvailable 0 = first at hassert ⊢
  generalize c.isAvailable 1 = second at hassert ⊢
  dsimp only
  obtain ⟨h0, h1, h2, h8⟩ :=
    headerCode_bits (m - if first || second then 0 else 1) c.fCoinBase first second
  have hb0 := c.fCoinBase.toNat_le
  have hb1 := first.toNat_le
  have hb2 := second.toNat_le
  have hm : (first || second || m != 0) = true := by
    cases first with
    | true => rfl
    | false =>
      cases second with
      | true => rfl
      | false => simpa using hassert rfl rfl
  rw [if_pos hm, Nat.mod_eq_of_lt (by omega)]
  refine ⟨_, rfl, by omega, h0, h1, h2, ?_⟩
  rw [h1, h2, h8]
  split
  · omega
  · rename_i hneither
    have hpos : m ≠ 0 := by
      rw [Bool.eq_false_iff.mpr hneither] at hm
      simpa using hm
    omega

/-! ### Round trip -/

/-- Spent outputs are null and the others storable, and the height is that of a block. -/
structure Storable (c : CCoins) : Prop where
  outs : ∀ out ∈ c.vout, out = CTxOut.null ∨ out.Storable
  length : c.vout.length ≤ maxBlockSize
  nHeight_nonneg : 0 ≤ c.nHeight
  nHeight_lt : c.nHeight < 2 ^ 31

end CCoins

/-- The reader gets the available outputs back, in their places, and null ones for the others; what
follows the last available output is dropped by `Cleanup`. -/
theorem decodes_readOuts [PublicKeys] [LawfulPublicKeys] {vAvail : List Bool} {vout : List CTxOut}
    (havail : ∀ i : Nat, (vAvail[i]?).getD false = ((vout[i]?).map fun out => !out.isNull).getD false)
    (hout : ∀ out ∈ vout, out = CTxOut.null ∨ out.Storable) :
    ∃ vout', Decodes (readOuts vAvail) ((vout.filter fun out => !out.isNull).flatMap CTxOut.write)
        vout' ∧ vout'.rdropWhile CTxOut.isNull = vout.rdropWhile CTxOut.isNull := by
  induction vAvail generalizing vout with
  | nil =>
    have hnull : ∀ out ∈ vout, out.isNull = true := by
      intro out hmem
      obtain ⟨i, hi⟩ := List.mem_iff_getElem?.mp hmem
      have := havail i
      rw [hi] at this
      simpa using this.symm
    have hfilter : (vout.filter fun out => !out.isNull) = [] := by
      rw [List.filter_eq_nil_iff]
      intro out hmem
      rw [hnull out hmem]
      exact Bool.false_ne_true
    rw [hfilter]
    exact ⟨[], Decodes.pure [], (List.rdropWhile_eq_nil_iff.mpr hnull).symm⟩
  | cons a vAvail ih =>
    cases vout with
    | nil =>
      have ha : a = false := by simpa using havail 0
      have htail : ∀ i : Nat, (vAvail[i]?).getD false =
          ((([] : List CTxOut)[i]?).map fun out => !out.isNull).getD false := fun i => by
        simpa using havail (i + 1)
      obtain ⟨vout', hread, hsame⟩ := ih htail hout
      refine ⟨CTxOut.null :: vout', ?_, ?_⟩
      · rw [ha, readOuts, ← List.append_nil (List.flatMap _ _)]
        exact Decodes.bind hread (Decodes.pure _)
      · rw [rdropWhile_cons, hsame]
        rfl
    | cons out vout =>
      have ha : a = !out.isNull := by simpa using havail 0
      have htail : ∀ i : Nat, (vAvail[i]?).getD false =
          ((vout[i]?).map fun out => !out.isNull).getD false := fun i => by
        simpa using havail (i + 1)
      obtain ⟨vout', hread, hsame⟩ := ih htail fun o ho => hout o (List.mem_cons_of_mem _ ho)
      cases hnull : out.isNull with
      | true =>
        have hout : out = CTxOut.null := by
          rcases hout out List.mem_cons_self with h | h
          · exact h
          · rw [CTxOut.isNull_of_nonneg h.nValue_nonneg] at hnull
            cases hnull
        refine ⟨CTxOut.null :: vout', ?_, ?_⟩
        · rw [ha, hnull, List.filter_cons_of_neg (by rw [hnull]; decide)]
          rw [← List.append_nil (List.flatMap _ _)]
          exact Decodes.bind hread (Decodes.pure _)
        · rw [rdropWhile_cons, rdropWhile_cons, hsame, hout]
      | false =>
        have hstore : out.Storable := by
          rcases hout out List.mem_cons_self with rfl | h
          · cases hnull
          · exact h
        refine ⟨out :: vout', ?_, ?_⟩
        · rw [ha, hnull, List.filter_cons_of_pos (by rw [hnull]; rfl), List.flatMap_cons]
          refine Decodes.bind (CTxOut.decodes_write hstore) ?_
          rw [← List.append_nil (List.flatMap _ _)]
          exact Decodes.bind hread (Decodes.pure _)
        · rw [rdropWhile_cons, rdropWhile_cons, hsame]

namespace CCoins

/-- As many bytes as announced are written, and exactly they are read back, as the coins after
`Cleanup`. -/
def RoundTrips [PublicKeys] (c : CCoins) : Prop :=
  ∃ bytes, c.serialize = some bytes ∧ c.getSerializeSize = some bytes.length ∧
    Decodes unserialize bytes c.cleanup

/-- Everything but the version is read back as it is. -/
theorem decodes_serialize [PublicKeys] [LawfulPublicKeys] {c : CCoins} (hs : c.Storable)
    (hp : c.isPruned = false) :
    ∃ bytes, c.serialize = some bytes ∧ c.getSerializeSize = some bytes.length ∧
      Decodes unserialize bytes { c.cleanup with nVersion := varIntValue c.nVersion } := by
  obtain ⟨nCode, hcode, hlt, h0, h1, h2, hmask⟩ := nCode_eq hp hs.length
  have hmaskRead := decodes_readMask ((maskOuts c.vout).map chAvail)
  have hcount : ((maskOuts c.vout).map chAvail).countP (· != 0) = c.calcMaskSize.2 := by
    rw [calcMaskSize_eq]
  obtain ⟨vout, houts, hvout⟩ := decodes_readOuts (fun i => by
    rw [available_bits, isAvailable]
    cases c.vout[i]? <;> rfl) hs.outs
  have hheight : (Int32.ofInt c.nHeight).toInt = c.nHeight :=
    Int32.toInt_ofInt_of_le (by have := hs.nHeight_nonneg; omega) hs.nHeight_lt
  have hheightRead : Decodes readVarIntInt (writeVarInt c.nHeight) (Int32.ofInt c.nHeight) := by
    have hdec := decodes_writeVarInt_int (Int32.ofInt c.nHeight)
    rw [varIntValue_eq_self.mpr (by
      rw [Int32.le_iff_toInt_le, hheight]
      exact hs.nHeight_nonneg), hheight] at hdec
    exact hdec
  refine ⟨_, by rw [serialize, hcode, Option.map_some], ?_, ?_⟩
  · have hout : c.unspent.map CTxOut.compressedSize = c.unspent.map fun out => out.write.length :=
      List.map_congr_left fun out _ => (CTxOut.length_write out).symm
    rw [getSerializeSize, hcode, Option.map_some, hout]
    simp only [List.length_append, length_writeVarInt, take_mask, List.length_flatMap]
    rw [calcMaskSize_eq]
    dsimp only
    congr 1
    omega
  · refine Decodes.bind (decodes_writeVarInt_int _) (Decodes.bind (decodes_writeVarInt hlt) ?_)
    rw [take_mask, hmask, h1, h2, ← hcount]
    refine Decodes.bind hmaskRead (Decodes.bind houts ?_)
    rw [← List.append_nil (writeVarInt c.nHeight)]
    refine Decodes.bind hheightRead ?_
    have hcoins : cleanup ⟨nCode.testBit 0, vout, (Int32.ofInt c.nHeight).toInt,
        varIntValue c.nVersion⟩ = { c.cleanup with nVersion := varIntValue c.nVersion } := by
      rw [h0, hheight]
      simp only [cleanup, hvout]
    rw [hcoins]
    exact Decodes.pure _

theorem roundTrips_iff_nVersion [PublicKeys] [LawfulPublicKeys] {c : CCoins} (hs : c.Storable)
    (hp : c.isPruned = false) : RoundTrips c ↔ 0 ≤ c.nVersion := by
  obtain ⟨bytes, hbytes, hsize, hdec⟩ := decodes_serialize hs hp
  rw [← varIntValue_eq_self]
  constructor
  · rintro ⟨bytes', hbytes', -, hdec'⟩
    obtain rfl : bytes = bytes' := Option.some.inj (hbytes.symm.trans hbytes')
    exact congrArg CCoins.nVersion (hdec.eq (hdec' [])).1
  · intro hv
    rw [hv] at hdec
    exact ⟨bytes, hbytes, hsize, hdec⟩

/-! ### Coins of an accepted transaction -/

/-- The coins after `Spend` was called for these positions; a call that fails changes nothing. -/
def spends (c : CCoins) (ns : List Nat) : CCoins :=
  ns.foldl (fun c n => ((c.spend n).map Prod.fst).getD c) c

theorem storable_ofTx {tx : CTransaction} {nHeight : Int} (h : tx.Checked) (h0 : 0 ≤ nHeight)
    (hlt : nHeight < 2 ^ 31) : Storable (ofTx tx nHeight) := by
  exact ⟨fun out hout => .inr (h.storable hout), tx.vout_length_le_size.trans h.size_le, h0, hlt⟩

theorem Storable.spend {c c' : CCoins} {n : Nat} {undo : CTxInUndo} (hs : c.Storable)
    (h : c.spend n = some (c', undo)) : c'.Storable ∧ c'.nVersion = c.nVersion := by
  have hspent := spent_of_spend h
  refine ⟨⟨?_, ?_, hspent.nHeight ▸ hs.nHeight_nonneg, hspent.nHeight ▸ hs.nHeight_lt⟩,
    hspent.nVersion⟩
  all_goals
    unfold CCoins.spend at h
    split at h
    · cases h
    split at h
    · cases h
    obtain ⟨rfl, -⟩ := Prod.mk.inj (Option.some.inj h)
  · intro out hmem
    have hmem : out ∈ c.vout.set n CTxOut.null := (List.rdropWhile_prefix _ _).subset hmem
    rcases List.mem_or_eq_of_mem_set hmem with hmem | rfl
    · exact hs.outs out hmem
    · exact .inl rfl
  · have hle := (List.rdropWhile_prefix CTxOut.isNull (c.vout.set n CTxOut.null)).length_le
    rw [List.length_set] at hle
    exact hle.trans hs.length

theorem Storable.spends {c : CCoins} (hs : c.Storable) (ns : List Nat) :
    (c.spends ns).Storable ∧ (c.spends ns).nVersion = c.nVersion := by
  induction ns generalizing c with
  | nil => exact ⟨hs, rfl⟩
  | cons n ns ih =>
    cases h : c.spend n with
    | none =>
      have hstep : c.spends (n :: ns) = c.spends ns := by
        simp only [CCoins.spends, List.foldl_cons, h, Option.map_none, Option.getD_none]
      rw [hstep]
      exact ih hs
    | some r =>
      have hstep : c.spends (n :: ns) = r.1.spends ns := by
        simp only [CCoins.spends, List.foldl_cons, h, Option.map_some, Option.getD_some]
      obtain ⟨hs', hv⟩ := hs.spend h
      rw [hstep, ← hv]
      exact ih hs'

/-- **Coins in the database.** The coins left of an accepted transaction survive being written
and read back, and fresh ones then still compare equal to the outputs of the transaction in
`DisconnectBlock`, exactly if the transaction version is not negative. -/
theorem roundTrips_iff [PublicKeys] [LawfulPublicKeys] {tx : CTransaction} {nHeight : Int}
    {ns : List Nat} (htx : tx.checkTransaction = .ok ()) (h0 : 0 ≤ nHeight)
    (hlt : nHeight < 2 ^ 31) (hp : ((ofTx tx nHeight).spends ns).isPruned = false) :
    (RoundTrips ((ofTx tx nHeight).spends ns) ∧
      ∀ bytes outs rest, (ofTx tx nHeight).serialize = some bytes →
        unserialize (bytes ++ rest) = some (outs, rest) → outs = ofTx tx nHeight) ↔
      0 ≤ tx.nVersion := by
  have hchecked := CTransaction.checked_of_checkTransaction htx
  have hfresh := storable_ofTx hchecked h0 hlt
  obtain ⟨hs, hv⟩ := hfresh.spends ns
  have hiff : RoundTrips ((ofTx tx nHeight).spends ns) ↔ 0 ≤ tx.nVersion := by
    rw [roundTrips_iff_nVersion hs hp, hv]
    rfl
  constructor
  · rintro ⟨hround, -⟩
    exact hiff.mp hround
  · intro hpos
    refine ⟨hiff.mpr hpos, ?_⟩
    intro bytes outs rest hbytes hread
    have htrim : (ofTx tx nHeight).cleanup = ofTx tx nHeight :=
      trimmed_of_nonneg fun out hmem => (hchecked.value_range out hmem).1
    have hunspent : (ofTx tx nHeight).isPruned = false := by
      obtain ⟨out, vout, hvout⟩ := List.exists_cons_of_ne_nil hchecked.vout_ne
      have hout : (ofTx tx nHeight).output 0 = some out := by
        refine output_eq_some.mpr ⟨?_, ?_⟩
        · change tx.vout[0]? = some out
          rw [hvout]
          rfl
        · refine CTxOut.isNull_of_nonneg (hchecked.value_range out ?_).1
          rw [hvout]
          exact List.mem_cons_self
      exact isPruned_eq_false_of_output hout
    obtain ⟨bytes', hbytes', -, hdec⟩ := (roundTrips_iff_nVersion hfresh hunspent).mpr hpos
    obtain rfl : bytes = bytes' := Option.some.inj (hbytes.symm.trans hbytes')
    rw [htrim] at hdec
    exact (hdec.eq hread).1.symm

end CCoins

namespace Sample

/-- Three outputs, of which the second pays to an uncompressed key. -/
def threeOutputs (nVersion : Int32) : CTransaction :=
  ⟨nVersion, [⟨⟨1, 0⟩, [], 0⟩],
    [⟨5, []⟩, ⟨coin, [65, 4] ++ generatorX ++ generatorY ++ [CScript.OP_CHECKSIG]⟩, ⟨7, [1, 2]⟩], 0⟩

end Sample

open Sample in
/-- The key output alone is left. -/
theorem CCoins.roundTrips_iff_sample : (RoundTrips ((ofTx (threeOutputs 1) 7).spends [0, 2, 5]) ∧
    ∀ bytes outs rest, (ofTx (threeOutputs 1) 7).serialize = some bytes →
      unserialize (bytes ++ rest) = some (outs, rest) → outs = ofTx (threeOutputs 1) 7) ↔
    0 ≤ (threeOutputs 1).nVersion :=
  roundTrips_iff rfl (by decide) (by decide) rfl

open Sample in
/-- Version `-1` is read back as 127. -/
theorem CCoins.not_roundTrips_sample : (threeOutputs (-1)).checkTransaction = .ok () ∧
    ((ofTx (threeOutputs (-1)) 7).spends [0]).isPruned = false ∧
    ¬ RoundTrips ((ofTx (threeOutputs (-1)) 7).spends [0]) := by
  have hchecked := CTransaction.checked_of_checkTransaction (show (threeOutputs (-1)).checkTransaction = .ok () from rfl)
  have hfresh : (ofTx (threeOutputs (-1)) 7).Storable :=
    storable_ofTx hchecked (by decide) (by decide)
  obtain ⟨hs, hv⟩ := hfresh.spends [0]
  refine ⟨rfl, rfl, ?_⟩
  rw [roundTrips_iff_nVersion hs rfl, hv]
  decide

end Terracoin
