import Mathlib.Data.List.Induction
import Mathlib.Data.Nat.Bitwise
import Mathlib.Tactic.Ring
import Terracoin.Serialize.VarInt

/-!
# Varints at their machine types

`GetSizeOfVarInt`, `WriteVarInt` and `ReadVarInt` of `serialize.h` at `int`, `unsigned int` and
`uint64`, with the buffer `tmp` of the writer and the arithmetic of each type. At every type the
writer puts out the bytes of `writeVarInt`, and the reader is `readVarInt` of the type's width.
-/

namespace Terracoin

open Codec

/-! ## The number the bytes stand for -/

/-- The formula of the source's comment: the lowest seven bits of the last byte, and `128 ^ i` times
one more than those of the byte `i` places before it. -/
def varIntNumber : List UInt8 → Nat
  | [] => 0
  | [b] => b.toNat % 128
  | b :: c :: s => 128 ^ (s.length + 1) * (b.toNat % 128 + 1) + varIntNumber (c :: s)

/-- All but the last byte have bit 128 set. -/
def IsVarInt (bytes : List UInt8) : Prop :=
  ∃ marked last, bytes = marked ++ [last] ∧ (∀ b ∈ marked, 128 ≤ b.toNat) ∧ last.toNat < 128

/-- The number read so far after one more byte that is not the last one. -/
def varIntNext (n : Nat) (b : UInt8) : Nat := n * 128 + b.toNat % 128 + 1

theorem varIntNumber_append (n : Nat) (marked : List UInt8) (last : UInt8) :
    n * 128 ^ (marked.length + 1) + varIntNumber (marked ++ [last]) =
      marked.foldl varIntNext n * 128 + last.toNat % 128 := by
  induction marked generalizing n with
  | nil => simp [varIntNumber]
  | cons b marked ih =>
    have hnumber : varIntNumber (b :: (marked ++ [last])) =
        128 ^ (marked.length + 1) * (b.toNat % 128 + 1) + varIntNumber (marked ++ [last]) := by
      cases marked with
      | nil => rfl
      | cons c marked =>
        rw [List.cons_append, varIntNumber, List.length_append]
        rfl
    rw [List.foldl_cons, ← ih, List.cons_append, hnumber, varIntNext, List.length_cons]
    ring

theorem varIntNumber_eq (marked : List UInt8) (last : UInt8) :
    varIntNumber (marked ++ [last]) = marked.foldl varIntNext 0 * 128 + last.toNat % 128 := by
  rw [← varIntNumber_append, Nat.zero_mul, Nat.zero_add]

theorem le_foldl_varIntNext (marked : List UInt8) (n : Nat) : n ≤ marked.foldl varIntNext n := by
  induction marked generalizing n with
  | nil => exact Nat.le_refl n
  | cons b marked ih =>
    have hnext : varIntNext n b = n * 128 + b.toNat % 128 + 1 := rfl
    have hrest := ih (varIntNext n b)
    rw [List.foldl_cons]
    omega

theorem forall_marked_or_isVarInt (s : List UInt8) :
    (∀ b ∈ s, 128 ≤ b.toNat) ∨ ∃ used rest, s = used ++ rest ∧ IsVarInt used := by
  induction s with
  | nil => exact .inl fun b hb => absurd hb List.not_mem_nil
  | cons b s ih =>
    by_cases hb : 128 ≤ b.toNat
    · rcases ih with hall | ⟨used, rest, rfl, marked, last, rfl, hmarked, hlast⟩
      · exact .inl (List.forall_mem_cons.mpr ⟨hb, hall⟩)
      · exact .inr ⟨b :: (marked ++ [last]), rest, rfl, b :: marked, last, rfl,
          List.forall_mem_cons.mpr ⟨hb, hmarked⟩, hlast⟩
    · exact .inr ⟨[b], s, rfl, [], b, rfl, fun c hc => absurd hc List.not_mem_nil, by omega⟩

theorem readVarIntFrom_marked_eq_none {w n : Nat} {s : List UInt8} (h : ∀ b ∈ s, 128 ≤ b.toNat) :
    readVarIntFrom w n s = none := by
  induction s generalizing n with
  | nil => rfl
  | cons b s ih =>
    obtain ⟨hb, hs⟩ := List.forall_mem_cons.mp h
    rw [readVarIntFrom, if_pos hb]
    exact ih hs

theorem readVarIntFrom_append {w n : Nat} {marked : List UInt8} {last : UInt8} (rest : List UInt8)
    (hmarked : ∀ b ∈ marked, 128 ≤ b.toNat) (hlast : last.toNat < 128) :
    readVarIntFrom w (n % 2 ^ w) (marked ++ last :: rest) =
      some ((marked.foldl varIntNext n * 128 + last.toNat % 128) % 2 ^ w, rest) := by
  induction marked generalizing n with
  | nil =>
    rw [List.nil_append, readVarIntFrom, if_neg (by omega), List.foldl_nil]
    simp [Nat.add_mod, Nat.mul_mod]
  | cons b marked ih =>
    obtain ⟨hb, hmarked⟩ := List.forall_mem_cons.mp hmarked
    have hnext : ((n % 2 ^ w * 128 + b.toNat % 128) % 2 ^ w + 1) % 2 ^ w =
        varIntNext n b % 2 ^ w := by
      simp [varIntNext, Nat.add_mod, Nat.mul_mod]
    rw [List.cons_append, readVarIntFrom, if_pos hb, hnext, ih hmarked, List.foldl_cons]

theorem decodes_varIntNumber {bytes : List UInt8} (h : IsVarInt bytes) (w : Nat) :
    Decodes (readVarInt w) bytes (varIntNumber bytes % 2 ^ w) := by
  obtain ⟨marked, last, rfl, hmarked, hlast⟩ := h
  intro rest
  have hread := readVarIntFrom_append (w := w) (n := 0) rest hmarked hlast
  rw [Nat.zero_mod] at hread
  rw [varIntNumber_eq, List.append_assoc]
  exact hread

theorem writeVarIntFrom_of_le {fuel mark : Nat} {n : Int} (h : n ≤ 0x7F) :
    writeVarIntFrom fuel mark n = [UInt8.ofNat ((n % 128).toNat + mark)] := by
  cases fuel with
  | zero => rfl
  | succ fuel => rw [writeVarIntFrom, if_pos h]

theorem writeVarIntFrom_of_lt {fuel mark : Nat} {n : Int} (h : 0x7F < n) :
    writeVarIntFrom (fuel + 1) mark n =
      writeVarIntFrom fuel 128 (n / 128 - 1) ++ [UInt8.ofNat ((n % 128).toNat + mark)] := by
  rw [writeVarIntFrom, if_neg (by omega)]

theorem sizeOfVarIntFrom_of_le {fuel : Nat} {n : Int} (h : n ≤ 0x7F) :
    sizeOfVarIntFrom fuel n = 1 := by
  cases fuel with
  | zero => rfl
  | succ fuel => rw [sizeOfVarIntFrom, if_pos h]

/-- Bytes with bit 128 set are what the writer puts before the last byte. -/
theorem writeVarIntFrom_marked {marked : List UInt8} (hne : marked ≠ [])
    (hmarked : ∀ b ∈ marked, 128 ≤ b.toNat) (fuel : Nat)
    (hfuel : marked.foldl varIntNext 0 ≤ fuel + 1) :
    writeVarIntFrom fuel 128 ((marked.foldl varIntNext 0 : Nat) - 1 : Int) = marked := by
  induction marked using List.reverseRecOn generalizing fuel with
  | nil => exact absurd rfl hne
  | append_singleton marked b ih =>
    obtain ⟨hmarked, hb⟩ := List.forall_mem_append.mp hmarked
    have hb := List.forall_mem_singleton.mp hb
    have hlt := b.toNat_lt
    rw [List.foldl_append, List.foldl_cons, List.foldl_nil] at hfuel ⊢
    generalize hn : marked.foldl varIntNext 0 = n at hfuel ih ⊢
    have hnext : varIntNext n b = n * 128 + b.toNat % 128 + 1 := rfl
    rw [hnext] at hfuel ⊢
    have hmod : (((n * 128 + b.toNat % 128 + 1 : Nat) - 1 : Int) % 128).toNat + 128 = b.toNat := by
      omega
    cases marked with
    | nil =>
      obtain rfl : n = 0 := hn.symm
      rw [writeVarIntFrom_of_le (by omega), hmod, UInt8.ofNat_toNat, List.nil_append]
    | cons c marked =>
      have hpos : 0 < n := by
        rw [← hn]
        exact lt_of_lt_of_le (Nat.succ_pos _) (le_foldl_varIntNext marked (varIntNext 0 c))
      cases fuel with
      | zero => omega
      | succ fuel =>
        have hdiv : ((n * 128 + b.toNat % 128 + 1 : Nat) - 1 : Int) / 128 - 1 = (n : Int) - 1 := by
          omega
        rw [writeVarIntFrom_of_lt (by omega), hmod, UInt8.ofNat_toNat, hdiv,
          ih (List.cons_ne_nil _ _) hmarked fuel (by omega)]

/-- What the writer puts out for the number of some bytes are these bytes. -/
theorem writeVarInt_varIntNumber {bytes : List UInt8} (h : IsVarInt bytes) :
    writeVarInt (varIntNumber bytes) = bytes := by
  obtain ⟨marked, last, rfl, hmarked, hlast⟩ := h
  have hbyte : UInt8.ofNat (last.toNat % 128 + 0) = last := by
    rw [Nat.add_zero, Nat.mod_eq_of_lt hlast, UInt8.ofNat_toNat]
  rw [varIntNumber_eq, writeVarInt, Int.toNat_natCast]
  cases marked with
  | nil =>
    have hmod : (((last.toNat % 128 : Nat) : Int) % 128).toNat = last.toNat % 128 := by omega
    rw [List.foldl_nil, Nat.zero_mul, Nat.zero_add, writeVarIntFrom_of_le (by omega), hmod, hbyte,
      List.nil_append]
  | cons b marked =>
    have hmarkedBytes := writeVarIntFrom_marked (List.cons_ne_nil b marked) hmarked
      ((b :: marked).foldl varIntNext 0 * 128 + last.toNat % 128 - 1)
    have hpos : 0 < (b :: marked).foldl varIntNext 0 :=
      lt_of_lt_of_le (Nat.succ_pos _) (le_foldl_varIntNext marked (varIntNext 0 b))
    generalize (b :: marked).foldl varIntNext 0 = n at hmarkedBytes hpos ⊢
    obtain ⟨fuel, hfuel⟩ : ∃ fuel, n * 128 + last.toNat % 128 = fuel + 1 :=
      ⟨n * 128 + last.toNat % 128 - 1, by omega⟩
    have hdiv : ((n * 128 + last.toNat % 128 : Nat) : Int) / 128 - 1 = (n : Int) - 1 := by omega
    have hmod : (((n * 128 + last.toNat % 128 : Nat) : Int) % 128).toNat = last.toNat % 128 := by
      omega
    rw [hfuel, writeVarIntFrom_of_lt (by omega), ← hfuel, hdiv, hmod, hbyte]
    rw [hfuel, Nat.add_sub_cancel] at hmarkedBytes
    rw [hmarkedBytes (by omega)]

/-! ## The types -/

/-- The integer types `VARINT` is used with. -/
inductive VarIntType
  | int
  | unsignedInt
  | uint64
  deriving DecidableEq, Repr

namespace VarIntType

def sizeof : VarIntType → Nat
  | int => 4
  | unsignedInt => 4
  | uint64 => 8

def isSigned : VarIntType → Bool
  | int => true
  | unsignedInt => false
  | uint64 => false

abbrev bits (I : VarIntType) : Nat := I.sizeof * 8

abbrev Value (I : VarIntType) : Type := BitVec I.bits

def max (I : VarIntType) : Nat := if I.isSigned then 2 ^ (I.bits - 1) - 1 else 2 ^ I.bits - 1

def toInt (I : VarIntType) (n : I.Value) : Int := if I.isSigned then n.toInt else n.toNat

/-- `n >> k`. -/
def shiftRight (I : VarIntType) (n : I.Value) (k : Nat) : I.Value :=
  if I.isSigned then n.sshiftRight k else n >>> k

theorem max_lt (I : VarIntType) : I.max < 2 ^ I.bits := by
  cases I <;> decide

theorem toInt_eq {I : VarIntType} (n : I.Value) :
    I.toInt n = if n.toNat ≤ I.max then (n.toNat : Int) else n.toNat - (2 ^ I.bits : Nat) := by
  have hlt := n.isLt
  unfold toInt
  cases I with
  | int =>
    have hmax : max int = 2147483647 := rfl
    have hbits : (2 : Nat) ^ bits int = 4294967296 := rfl
    have hInt := BitVec.toInt_eq_toNat_cond n
    simp only [isSigned, if_true]
    split at hInt <;> split <;> omega
  | unsignedInt => exact (if_pos (Nat.le_pred_of_lt hlt)).symm
  | uint64 => exact (if_pos (Nat.le_pred_of_lt hlt)).symm

theorem toInt_of_le_max {I : VarIntType} {n : I.Value} (h : n.toNat ≤ I.max) :
    I.toInt n = n.toNat := by
  rw [toInt_eq, if_pos h]

theorem toInt_of_nonneg {I : VarIntType} {n : I.Value} (h : 0 ≤ I.toInt n) :
    I.toInt n = n.toNat ∧ n.toNat ≤ I.max := by
  have hlt := n.isLt
  have hmax : n.toNat ≤ I.max := by
    by_contra hgt
    rw [toInt_eq, if_neg hgt] at h
    omega
  exact ⟨toInt_of_le_max hmax, hmax⟩

theorem toNat_and_7F {I : VarIntType} (n : I.Value) :
    (n &&& 0x7F).toNat = n.toNat % 128 := by
  have h127 : (0x7F : I.Value).toNat = 2 ^ 7 - 1 := by cases I <;> rfl
  rw [BitVec.toNat_and, h127, Nat.and_two_pow_sub_one_eq_mod]

/-- What is left after one byte was taken off a value that needs more. -/
theorem toNat_shiftRight_sub_one {I : VarIntType} {n : I.Value} (h : 0x7F < I.toInt n) :
    (I.shiftRight n 7 - 1).toNat = n.toNat / 128 - 1 ∧ 0 ≤ I.toInt (I.shiftRight n 7 - 1) := by
  obtain ⟨hvalue, hmax⟩ := toInt_of_nonneg (n := n) (by omega)
  have hlt := I.max_lt
  have hshift : (I.shiftRight n 7).toNat = n.toNat / 128 := by
    unfold shiftRight
    split
    · rename_i hsigned
      have hmsb : n.msb = false := by
        rw [toInt, if_pos hsigned] at h
        rw [BitVec.msb_eq_toInt, decide_eq_false_iff_not]
        omega
      rw [BitVec.sshiftRight_eq_of_msb_false hmsb, BitVec.toNat_ushiftRight, Nat.shiftRight_eq_div_pow]
    · rw [BitVec.toNat_ushiftRight, Nat.shiftRight_eq_div_pow]
  have hone : (1 : I.Value).toNat = 1 := by cases I <;> rfl
  have hsub : (I.shiftRight n 7 - 1).toNat = n.toNat / 128 - 1 := by
    rw [BitVec.toNat_sub_of_le (by rw [BitVec.le_def, hone, hshift]; omega), hshift, hone]
  refine ⟨hsub, ?_⟩
  rw [toInt_of_le_max (by omega)]
  exact Int.natCast_nonneg _

/-! ## The writer -/

/-- The bytes `tmp[len]`, `tmp[len + 1]` and so on, with `room` bytes of the buffer left: `none`
when a byte is put behind its end. -/
def fillTmp (I : VarIntType) : Nat → Nat → I.Value → Option (List UInt8)
  | 0, _, _ => none
  | room + 1, len, n =>
    let byte := UInt8.ofNat ((n &&& 0x7F).toNat ||| if len = 0 then 0x00 else 0x80)
    if I.toInt n ≤ 0x7F then some [byte]
    else (fillTmp I room (len + 1) (I.shiftRight n 7 - 1)).map (byte :: ·)

/-- `WriteVarInt<I>`, with its `unsigned char tmp[(sizeof(n)*8+6)/7]`. -/
def writeVarInt (I : VarIntType) (n : I.Value) : Option (List UInt8) :=
  (fillTmp I ((I.sizeof * 8 + 6) / 7) 0 n).map List.reverse

/-- The loop of `GetSizeOfVarInt`: `none` when the rounds do not suffice. -/
def sizeLoop (I : VarIntType) : Nat → Nat → I.Value → Option Nat
  | 0, _, _ => none
  | rounds + 1, nRet, n =>
    if I.toInt n ≤ 0x7F then some (nRet + 1)
    else sizeLoop I rounds (nRet + 1) (I.shiftRight n 7 - 1)

/-- `GetSizeOfVarInt<I>`. A round takes seven bits off, so there are no more rounds than bits. -/
def getSizeOfVarInt (I : VarIntType) (n : I.Value) : Option Nat := sizeLoop I I.bits 0 n

theorem byte_eq {I : VarIntType} (n : I.Value) (len : Nat) :
    UInt8.ofNat ((n &&& 0x7F).toNat ||| if len = 0 then 0x00 else 0x80) =
      UInt8.ofNat (((n.toNat : Int) % 128).toNat + if len = 0 then 0 else 128) := by
  have hcast : ((n.toNat : Int) % 128).toNat = n.toNat % 128 := by omega
  rw [toNat_and_7F, hcast]
  split
  · rw [Nat.or_zero, Nat.add_zero]
  · have hor := Nat.two_pow_add_eq_or_of_lt (i := 7) (Nat.mod_lt n.toNat (by decide)) 1
    rw [Nat.or_comm, Nat.add_comm]
    exact congrArg UInt8.ofNat hor.symm

/-- With room enough, the loop puts the bytes of the number into the buffer. -/
theorem fillTmp_eq {I : VarIntType} {room fuel : Nat} {n : I.Value} (len : Nat)
    (h0 : 0 ≤ I.toInt n) (hroom : n.toNat < 128 ^ (room + 1)) (hfuel : n.toNat ≤ fuel) :
    (fillTmp I (room + 1) len n).map List.reverse =
      some (writeVarIntFrom fuel (if len = 0 then 0 else 128) n.toNat) := by
  have hvalue := (toInt_of_nonneg h0).1
  induction room generalizing len fuel n with
  | zero =>
    have hle : n.toNat ≤ 127 := by omega
    rw [fillTmp, if_pos (by omega), byte_eq, writeVarIntFrom_of_le (by omega)]
    rfl
  | succ room ih =>
    rw [fillTmp, byte_eq]
    by_cases hle : I.toInt n ≤ 0x7F
    · rw [if_pos hle, writeVarIntFrom_of_le (by omega)]
      rfl
    · obtain ⟨hnext, hnonneg⟩ := toNat_shiftRight_sub_one (I := I) (n := n) (by omega)
      have hpow : (128 : Nat) ^ (room + 1 + 1) = 128 ^ (room + 1) * 128 := Nat.pow_succ ..
      cases fuel with
      | zero => omega
      | succ fuel =>
        have hrest := ih (len + 1) hnonneg (by omega) (show _ ≤ fuel by omega)
          (toInt_of_nonneg hnonneg).1
        have hcast : (n.toNat : Int) / 128 - 1 = ((I.shiftRight n 7 - 1).toNat : Int) := by omega
        rw [if_neg (Nat.succ_ne_zero len)] at hrest
        rw [if_neg hle, writeVarIntFrom_of_lt (by omega), hcast]
        obtain ⟨tmp, htmp, hbytes⟩ := Option.map_eq_some_iff.mp hrest
        rw [htmp, ← hbytes]
        exact congrArg some List.reverse_cons

theorem sizeLoop_eq {I : VarIntType} {rounds fuel : Nat} {n : I.Value} (nRet : Nat)
    (h0 : 0 ≤ I.toInt n) (hrounds : n.toNat < 128 ^ (rounds + 1)) (hfuel : n.toNat ≤ fuel) :
    sizeLoop I (rounds + 1) nRet n = some (nRet + sizeOfVarIntFrom fuel n.toNat) := by
  have hvalue := (toInt_of_nonneg h0).1
  induction rounds generalizing nRet fuel n with
  | zero =>
    rw [sizeLoop, if_pos (by omega), sizeOfVarIntFrom_of_le (by omega)]
  | succ rounds ih =>
    unfold sizeLoop
    by_cases hle : I.toInt n ≤ 0x7F
    · rw [if_pos hle, sizeOfVarIntFrom_of_le (by omega)]
    · obtain ⟨hnext, hnonneg⟩ := toNat_shiftRight_sub_one (I := I) (n := n) (by omega)
      have hpow : (128 : Nat) ^ (rounds + 1 + 1) = 128 ^ (rounds + 1) * 128 := Nat.pow_succ ..
      cases fuel with
      | zero => omega
      | succ fuel =>
        have hcast : (n.toNat : Int) / 128 - 1 = ((I.shiftRight n 7 - 1).toNat : Int) := by omega
        have hrest := ih (nRet + 1) hnonneg (by omega) (show _ ≤ fuel by omega)
          (toInt_of_nonneg hnonneg).1
        rw [if_neg hle, hrest, sizeOfVarIntFrom, if_neg (by omega), hcast, Nat.add_assoc, Nat.add_comm 1]

theorem writeVarInt_eq {I : VarIntType} {n : I.Value} (h0 : 0 ≤ I.toInt n) :
    I.writeVarInt n = some (Terracoin.writeVarInt (I.toInt n)) := by
  obtain ⟨hvalue, hmax⟩ := toInt_of_nonneg h0
  have hroom : ∃ room, (I.sizeof * 8 + 6) / 7 = room + 1 ∧ I.max < 128 ^ (room + 1) := by
    cases I with
    | int => exact ⟨4, rfl, by decide⟩
    | unsignedInt => exact ⟨4, rfl, by decide⟩
    | uint64 => exact ⟨9, rfl, by decide⟩
  obtain ⟨room, heq, hlt⟩ := hroom
  rw [writeVarInt, heq, fillTmp_eq 0 h0 (by omega) (Nat.le_refl _), Terracoin.writeVarInt, hvalue,
    Int.toNat_natCast, if_pos rfl]

theorem getSizeOfVarInt_eq {I : VarIntType} {n : I.Value} (h0 : 0 ≤ I.toInt n) :
    I.getSizeOfVarInt n = some (Terracoin.getSizeOfVarInt (I.toInt n)) := by
  obtain ⟨hvalue, hmax⟩ := toInt_of_nonneg h0
  have hrounds : ∃ rounds, I.bits = rounds + 1 ∧ I.max < 128 ^ (rounds + 1) := by
    cases I with
    | int => exact ⟨31, rfl, by decide⟩
    | unsignedInt => exact ⟨31, rfl, by decide⟩
    | uint64 => exact ⟨63, rfl, by decide⟩
  obtain ⟨rounds, heq, hlt⟩ := hrounds
  have hloop := sizeLoop_eq 0 h0 (by omega : n.toNat < 128 ^ (rounds + 1)) (Nat.le_refl _)
  rw [← heq, Nat.zero_add] at hloop
  rw [getSizeOfVarInt, hloop, Terracoin.getSizeOfVarInt, hvalue, Int.toNat_natCast]

theorem writeVarInt_of_neg {I : VarIntType} {n : I.Value} {bytes : List UInt8} (h : I.toInt n < 0)
    (hwrite : I.writeVarInt n = some bytes) : ∃ b, bytes = [b] := by
  have hroom : ∃ room, (I.sizeof * 8 + 6) / 7 = room + 1 := by
    cases I with
    | int => exact ⟨4, rfl⟩
    | unsignedInt => exact ⟨4, rfl⟩
    | uint64 => exact ⟨9, rfl⟩
  obtain ⟨room, heq⟩ := hroom
  rw [writeVarInt, heq, fillTmp, if_pos (by omega), Option.map_some, Option.some.injEq] at hwrite
  exact ⟨_, hwrite.symm⟩

/-! ## The reader -/

/-- `ReadVarInt<I>` from the value `n` read so far. -/
def readVarIntFrom (I : VarIntType) : I.Value → Reader I.Value
  | _, [] => none
  | n, chData :: s =>
    let n := (n <<< 7) ||| BitVec.ofNat I.bits (chData &&& 0x7F).toNat
    if chData &&& 0x80 ≠ 0 then readVarIntFrom I (n + 1) s else some (n, s)

def readVarInt (I : VarIntType) : Reader I.Value := readVarIntFrom I 0

/-- No round of `ReadVarInt` leaves the type: neither the shifted number with its new bits nor its
increment is above the largest value. -/
def NoOverflow (I : VarIntType) : Nat → List UInt8 → Prop
  | _, [] => True
  | n, chData :: s =>
    let n := n * 128 + chData.toNat % 128
    n ≤ I.max ∧ (128 ≤ chData.toNat → n + 1 ≤ I.max ∧ NoOverflow I (n + 1) s)

theorem toNat_and_0x7F (b : UInt8) : (b &&& 0x7F).toNat = b.toNat % 128 := by
  rw [UInt8.toNat_and]
  exact Nat.and_two_pow_sub_one_eq_mod b.toNat 7

theorem and_0x80_ne_zero (b : UInt8) : b &&& 0x80 ≠ 0 ↔ 128 ≤ b.toNat := by
  have hbit : b.toNat &&& 2 ^ 7 = (b.toNat.testBit 7).toNat * 2 ^ 7 := Nat.and_two_pow b.toNat 7
  have hlt := b.toNat_lt
  rw [Nat.testBit_eq_decide_div_mod_eq] at hbit
  rw [Ne, ← UInt8.toNat_inj, UInt8.toNat_and]
  change ¬ b.toNat &&& 2 ^ 7 = 0 ↔ 128 ≤ b.toNat
  rw [hbit]
  by_cases h : 128 ≤ b.toNat
  · rw [decide_eq_true (by omega)]
    exact ⟨fun _ => h, fun _ => by decide⟩
  · rw [decide_eq_false (by omega)]
    exact ⟨fun hne => absurd (by decide) hne, fun hle => absurd hle h⟩

theorem toNat_shiftLeft_or {I : VarIntType} (n : I.Value) (b : UInt8) :
    ((n <<< 7) ||| BitVec.ofNat I.bits (b &&& 0x7F).toNat).toNat =
      (n.toNat * 128 + b.toNat % 128) % 2 ^ I.bits := by
  have hlow : b.toNat % 128 < 2 ^ 7 := Nat.mod_lt _ (by decide)
  have hbits : (2 : Nat) ^ I.bits = 2 ^ (I.bits - 7) * 2 ^ 7 := by cases I <;> rfl
  have hsmall : b.toNat % 128 < 2 ^ I.bits := lt_of_lt_of_le hlow (by cases I <;> decide)
  have hshift : n.toNat * 2 ^ 7 % 2 ^ I.bits = 2 ^ 7 * (n.toNat % 2 ^ (I.bits - 7)) := by
    rw [hbits, Nat.mul_mod_mul_right, Nat.mul_comm]
  have hmod : (n.toNat * 128 + b.toNat % 128) % 2 ^ I.bits =
      2 ^ 7 * (n.toNat % 2 ^ (I.bits - 7)) + b.toNat % 128 := by
    have hdiv : (n.toNat * 128 + b.toNat % 128) / 2 ^ 7 = n.toNat := by omega
    have hrem : (n.toNat * 128 + b.toNat % 128) % 2 ^ 7 = b.toNat % 128 := by omega
    rw [hbits, Nat.mul_comm (2 ^ (I.bits - 7)), Nat.mod_mul, hdiv, hrem, Nat.add_comm]
  rw [BitVec.toNat_or, BitVec.toNat_shiftLeft, BitVec.toNat_ofNat, toNat_and_0x7F,
    Nat.mod_eq_of_lt hsmall, Nat.shiftLeft_eq, hshift, ← Nat.two_pow_add_eq_or_of_lt hlow, hmod]

theorem readVarIntFrom_eq {I : VarIntType} (n : I.Value) (s : List UInt8) :
    readVarIntFrom I n s =
      (Terracoin.readVarIntFrom I.bits n.toNat s).map fun p => (BitVec.ofNat I.bits p.1, p.2) := by
  induction s generalizing n with
  | nil => rfl
  | cons chData s ih =>
    have hvalue := toNat_shiftLeft_or n chData
    unfold readVarIntFrom Terracoin.readVarIntFrom
    by_cases h : 128 ≤ chData.toNat
    · have hone : (1 : I.Value).toNat = 1 := by cases I <;> rfl
      rw [if_pos ((and_0x80_ne_zero _).mpr h), if_pos h, ih, BitVec.toNat_add, hvalue, hone]
    · rw [if_neg (fun h0 => h ((and_0x80_ne_zero _).mp h0)), if_neg h, Option.map_some, ← hvalue,
        BitVec.ofNat_toNat, BitVec.setWidth_eq]

theorem readVarInt_eq (I : VarIntType) (s : List UInt8) :
    readVarInt I s =
      (Terracoin.readVarInt I.bits s).map fun p => (BitVec.ofNat I.bits p.1, p.2) := by
  have hzero : (0 : I.Value).toNat = 0 := by cases I <;> rfl
  rw [readVarInt, readVarIntFrom_eq, Terracoin.readVarInt, hzero]

theorem noOverflow_append {I : VarIntType} {n : Nat} {marked : List UInt8} {last : UInt8}
    {rest : List UInt8} (hmarked : ∀ b ∈ marked, 128 ≤ b.toNat) (hlast : last.toNat < 128)
    (hmax : marked.foldl varIntNext n * 128 + last.toNat % 128 ≤ I.max) :
    I.NoOverflow n (marked ++ last :: rest) := by
  induction marked generalizing n with
  | nil => exact ⟨hmax, fun h => absurd h (by omega)⟩
  | cons b marked ih =>
    obtain ⟨-, hmarked⟩ := List.forall_mem_cons.mp hmarked
    rw [List.foldl_cons] at hmax
    have hle := le_foldl_varIntNext marked (varIntNext n b)
    have hnext : varIntNext n b = n * 128 + b.toNat % 128 + 1 := rfl
    exact ⟨by omega, fun _ => ⟨by omega, ih hmarked hmax⟩⟩

/-- What the writer puts out is a number in the sense of the source's comment. -/
theorem isVarInt_writeVarInt (n : Nat) :
    IsVarInt (Terracoin.writeVarInt n) ∧ varIntNumber (Terracoin.writeVarInt n) = n := by
  have hread : ∀ w, n < 2 ^ w → Terracoin.readVarInt w (Terracoin.writeVarInt n) = some (n, []) := by
    intro w hw
    have h := decodes_writeVarInt hw []
    rwa [List.append_nil] at h
  rcases forall_marked_or_isVarInt (Terracoin.writeVarInt n) with hall | ⟨used, rest, hs, hused⟩
  · have h := hread n Nat.lt_two_pow_self
    rw [Terracoin.readVarInt, readVarIntFrom_marked_eq_none hall] at h
    cases h
  · -- A width that holds both numbers, so that neither is cut.
    have hw : ∃ w, n < 2 ^ w ∧ varIntNumber used < 2 ^ w :=
      ⟨n + varIntNumber used, lt_of_le_of_lt (Nat.le_add_right _ _) Nat.lt_two_pow_self,
        lt_of_le_of_lt (Nat.le_add_left _ _) Nat.lt_two_pow_self⟩
    obtain ⟨w, hn, hnumber⟩ := hw
    have hdecodes := decodes_varIntNumber hused w rest
    rw [← hs, hread w hn, Nat.mod_eq_of_lt hnumber, Option.some.injEq, Prod.mk.injEq] at hdecodes
    obtain ⟨hvalue, rfl⟩ := hdecodes
    rw [List.append_nil] at hs
    rw [hs]
    exact ⟨hused, hvalue.symm⟩

/-- A type that can hold the value reads it back, and no round leaves the type. -/
theorem readVarInt_writeVarInt {J : VarIntType} {m : J.Value} (h0 : 0 ≤ J.toInt m)
    (rest : List UInt8) :
    J.readVarInt (Terracoin.writeVarInt (J.toInt m) ++ rest) = some (m, rest) ∧
      J.NoOverflow 0 (Terracoin.writeVarInt (J.toInt m) ++ rest) := by
  obtain ⟨hvalue, hmax⟩ := toInt_of_nonneg h0
  rw [hvalue]
  constructor
  · rw [readVarInt_eq, decodes_writeVarInt m.isLt, Option.map_some, BitVec.ofNat_toNat,
      BitVec.setWidth_eq]
  · obtain ⟨⟨marked, last, hbytes, hmarked, hlast⟩, hnumber⟩ := isVarInt_writeVarInt m.toNat
    rw [hbytes, varIntNumber_eq] at hnumber
    rw [hbytes, List.append_assoc]
    exact noOverflow_append hmarked hlast (by omega)

/-- Numbers of any of the types, written one after the other. -/
def writeAll : List ((I : VarIntType) × I.Value) → Option (List UInt8)
  | [] => some []
  | ⟨I, n⟩ :: ns => do
    let bytes ← I.writeVarInt n
    let more ← writeAll ns
    pure (bytes ++ more)

/-- One number of each type, read one after the other. -/
def readAll : List VarIntType → Reader (List ((I : VarIntType) × I.Value))
  | [] => pure []
  | I :: Is => do
    let n ← I.readVarInt
    let ns ← readAll Is
    pure (⟨I, n⟩ :: ns)

theorem writeAll_eq {ns : List ((I : VarIntType) × I.Value)} (h0 : ∀ n ∈ ns, 0 ≤ n.1.toInt n.2) :
    writeAll ns = some (ns.flatMap fun n => Terracoin.writeVarInt (n.1.toInt n.2)) := by
  induction ns with
  | nil => rfl
  | cons n ns ih =>
    obtain ⟨hn, hns⟩ := List.forall_mem_cons.mp h0
    rw [writeAll, writeVarInt_eq hn, ih hns, List.flatMap_cons]
    rfl

theorem decodes_readAll {ms : List ((I : VarIntType) × I.Value)}
    (h0 : ∀ m ∈ ms, 0 ≤ m.1.toInt m.2) :
    Decodes (readAll (ms.map Sigma.fst))
      (ms.flatMap fun m => Terracoin.writeVarInt (m.1.toInt m.2)) ms := by
  induction ms with
  | nil => exact Decodes.pure []
  | cons m ms ih =>
    obtain ⟨hm, hms⟩ := List.forall_mem_cons.mp h0
    rw [List.map_cons, List.flatMap_cons, readAll]
    refine Decodes.bind (fun rest => (readVarInt_writeVarInt hm rest).1) ?_
    rw [← List.append_nil (List.flatMap _ ms)]
    exact Decodes.bind (ih hms) (Decodes.pure _)

/-- The encodings of two numbers are equal as soon as one of them starts with the other. -/
theorem writeVarInt_prefix_free {I J : VarIntType} {n : I.Value} {m : J.Value}
    {bytes bytes' : List UInt8} (hn : 0 ≤ I.toInt n) (hm : 0 ≤ J.toInt m)
    (hbytes : I.writeVarInt n = some bytes) (hbytes' : J.writeVarInt m = some bytes')
    (hstart : bytes <+: bytes') : bytes = bytes' ∧ I.toInt n = J.toInt m := by
  rw [writeVarInt_eq hn, Option.some.injEq, (toInt_of_nonneg hn).1] at hbytes
  rw [writeVarInt_eq hm, Option.some.injEq, (toInt_of_nonneg hm).1] at hbytes'
  rw [(toInt_of_nonneg hn).1, (toInt_of_nonneg hm).1]
  obtain ⟨rest, hrest⟩ := hstart
  have hw : ∀ (K : VarIntType) (k : K.Value), k.toNat < 2 ^ 64 := by
    intro K k
    have hle : 2 ^ K.bits ≤ 2 ^ 64 := by cases K <;> decide
    exact lt_of_lt_of_le k.isLt hle
  have hread := decodes_writeVarInt (hw I n) rest
  have hread' := decodes_writeVarInt (hw J m) []
  rw [hbytes, hrest] at hread
  rw [List.append_nil, hbytes', hread, Option.some.injEq, Prod.mk.injEq] at hread'
  obtain ⟨hvalue, rfl⟩ := hread'
  rw [List.append_nil] at hrest
  exact ⟨hrest, congrArg Int.ofNat hvalue⟩

/-- The writer stays in its buffer, the size is that of the bytes, the bytes do not depend on the
type, every type that can hold the value reads it back, no encoding is a proper prefix of another,
and a concatenation is read back as the list of its numbers. -/
theorem varInt_round_trip :
    (∀ (I : VarIntType) (n : I.Value), 0 ≤ I.toInt n →
      ∃ bytes, I.writeVarInt n = some bytes ∧ I.getSizeOfVarInt n = some bytes.length ∧
        ∀ (J : VarIntType) (m : J.Value), J.toInt m = I.toInt n →
          J.writeVarInt m = some bytes ∧
          ∀ rest, J.readVarInt (bytes ++ rest) = some (m, rest) ∧
            J.NoOverflow 0 (bytes ++ rest)) ∧
    (∀ (I J : VarIntType) (n : I.Value) (m : J.Value) (bytes bytes' : List UInt8),
      0 ≤ I.toInt n → 0 ≤ J.toInt m → I.writeVarInt n = some bytes →
      J.writeVarInt m = some bytes' → bytes <+: bytes' →
      bytes = bytes' ∧ I.toInt n = J.toInt m) ∧
    (∀ ns ms : List ((I : VarIntType) × I.Value), (∀ n ∈ ns, 0 ≤ n.1.toInt n.2) →
      ms.map (fun m => m.1.toInt m.2) = ns.map (fun n => n.1.toInt n.2) →
      ∃ bytes, writeAll ns = some bytes ∧
        ∀ rest, readAll (ms.map Sigma.fst) (bytes ++ rest) = some (ms, rest)) := by
  refine ⟨?_, ?_, ?_⟩
  · intro I n h0
    refine ⟨Terracoin.writeVarInt (I.toInt n), writeVarInt_eq h0, ?_, ?_⟩
    · rw [getSizeOfVarInt_eq h0, length_writeVarInt]
    · intro J m hm
      rw [← hm] at h0 ⊢
      exact ⟨writeVarInt_eq h0, readVarInt_writeVarInt h0⟩
  · intro I J n m bytes bytes' hn hm hbytes hbytes' hstart
    exact writeVarInt_prefix_free hn hm hbytes hbytes' hstart
  · intro ns ms h0 hvalues
    have hms : ∀ m ∈ ms, 0 ≤ m.1.toInt m.2 := by
      intro m hm
      have hmem := List.mem_map_of_mem (f := fun m => m.1.toInt m.2) hm
      rw [hvalues] at hmem
      obtain ⟨n, hn, heq⟩ := List.mem_map.mp hmem
      exact heq ▸ h0 n hn
    refine ⟨_, writeAll_eq h0, fun rest => ?_⟩
    have hflat : ∀ l : List ((I : VarIntType) × I.Value),
        l.flatMap (fun n => Terracoin.writeVarInt (n.1.toInt n.2)) =
          (l.map fun n => n.1.toInt n.2).flatMap Terracoin.writeVarInt := by
      intro l
      rw [List.flatMap_map]
    rw [hflat ns, ← hvalues, ← hflat ms]
    exact decodes_readAll hms rest

/-- `ReadVarInt` fails or returns the value whose encoding it consumed. -/
def ReadsCanonically (I : VarIntType) (s : List UInt8) : Prop :=
  I.readVarInt s = none ∨ ∃ n used rest, s = used ++ rest ∧ I.readVarInt s = some (n, rest) ∧
    I.writeVarInt n = some used

/-- The reader returns the value it consumed the encoding of exactly when the number the bytes stand
for is one of the type. -/
theorem readVarInt_canonical_iff (I : VarIntType) (s : List UInt8) :
    I.ReadsCanonically s ↔
      ∀ used rest, s = used ++ rest → IsVarInt used → varIntNumber used ≤ I.max := by
  have hread : ∀ used rest, IsVarInt used → I.readVarInt (used ++ rest) =
      some (BitVec.ofNat I.bits (varIntNumber used), rest) := by
    intro used rest hused
    rw [readVarInt_eq, decodes_varIntNumber hused, Option.map_some]
    congr 2
    apply BitVec.eq_of_toNat_eq
    rw [BitVec.toNat_ofNat, BitVec.toNat_ofNat, Nat.mod_mod]
  constructor
  · rintro (hnone | ⟨n, used, rest, rfl, hn, hwrite⟩) used' rest' hs hused'
    · rw [hs, hread used' rest' hused'] at hnone
      cases hnone
    · rw [hs, hread used' rest' hused', Option.some.injEq, Prod.mk.injEq] at hn
      obtain ⟨-, rfl⟩ := hn
      obtain rfl := List.append_cancel_right hs
      by_cases h0 : 0 ≤ I.toInt n
      · obtain ⟨hvalue, hmax⟩ := toInt_of_nonneg h0
        rw [writeVarInt_eq h0, hvalue, Option.some.injEq] at hwrite
        rw [← hwrite, (isVarInt_writeVarInt n.toNat).2]
        exact hmax
      · obtain ⟨b, rfl⟩ := writeVarInt_of_neg (by omega) hwrite
        have h127 : 127 ≤ I.max := by cases I <;> decide
        have hnumber : varIntNumber [b] = b.toNat % 128 := rfl
        omega
  · intro h
    rcases forall_marked_or_isVarInt s with hall | ⟨used, rest, rfl, hused⟩
    · left
      rw [readVarInt_eq, Terracoin.readVarInt, readVarIntFrom_marked_eq_none hall, Option.map_none]
    · have hmax := h used rest rfl hused
      have hlt := I.max_lt
      have hvalue : (BitVec.ofNat I.bits (varIntNumber used)).toNat = varIntNumber used := by
        rw [BitVec.toNat_ofNat, Nat.mod_eq_of_lt (by omega)]
      have hInt : I.toInt (BitVec.ofNat I.bits (varIntNumber used)) = varIntNumber used := by
        rw [toInt_of_le_max (by omega), hvalue]
      refine .inr ⟨_, used, rest, rfl, hread used rest hused, ?_⟩
      rw [writeVarInt_eq (by omega), hInt, writeVarInt_varIntNumber hused]

/-- Five bytes that stand for `2 ^ 32` are read as an `unsigned int` 0, whose encoding is one
byte. -/
theorem readVarInt_wraps : ¬ ∀ (I : VarIntType) (s : List UInt8), I.ReadsCanonically s := by
  intro h
  have hread : unsignedInt.readVarInt [0x8E, 0xFE, 0xFE, 0xFF, 0x00] = some (0, []) := by decide
  rcases h unsignedInt [0x8E, 0xFE, 0xFE, 0xFF, 0x00] with hnone | ⟨n, used, rest, hs, hn, hwrite⟩
  · rw [hread] at hnone
    cases hnone
  · rw [hread, Option.some.injEq, Prod.mk.injEq] at hn
    obtain ⟨rfl, rfl⟩ := hn
    rw [List.append_nil] at hs
    rw [← hs] at hwrite
    exact absurd hwrite (by decide)

end VarIntType

end Terracoin
