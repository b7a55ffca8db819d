import Mathlib.Data.Set.Function
import Terracoin.Serialize.TxOut

/-!
# The compressors

`CompressAmount` and `DecompressAmount` with every `uint64` operation checked: no amount of money
overflows, in either direction, and amounts have different compressed forms
(`compressAmount_spec`). A script is read back from what `CScriptCompressor` writes for it, and the
special forms are told from the other scripts by the number that comes first
(`CScript.decodes_write_spec`).
-/

namespace Terracoin

open Codec

/-! ## Amounts without overflow -/

/-- The result of a `uint64` operation, if the exact result is in range. -/
def toUint64 (n : Int) : Option Nat := if 0 ≤ n ∧ n < 2 ^ 64 then some n.toNat else none

/-- `CompressAmount`, where no operation may overflow and the assertion may not fail. -/
def compressAmountChecked (nAmount : Nat) : Option Nat :=
  if nAmount = 0 then some 0
  else
    let (n, e) := stripZeros 9 nAmount
    if e < 9 then
      if 1 ≤ n % 10 ∧ n % 10 ≤ 9 then do
        let x ← toUint64 ((n / 10 : Nat) * 9)
        let x ← toUint64 (x + (n % 10 : Nat))
        let x ← toUint64 (x - 1)
        let x ← toUint64 (x * 10)
        let x ← toUint64 (1 + x)
        toUint64 (x + e)
      else none
    else do
      let x ← toUint64 (n - 1)
      let x ← toUint64 (x * 10)
      let x ← toUint64 (1 + x)
      toUint64 (x + 9)

/-- The last loop of `DecompressAmount`. -/
def scaleChecked : Nat → Nat → Option Nat
  | 0, n => some n
  | e + 1, n => (toUint64 (n * 10)).bind (scaleChecked e)

/-- `DecompressAmount`, where no operation may overflow. -/
def decompressAmountChecked (x : Nat) : Option Nat :=
  if x = 0 then some 0
  else do
    let x ← toUint64 (x - 1)
    let e := x % 10
    let x := x / 10
    if e < 9 then
      let n ← toUint64 ((x / 9 : Nat) * 10)
      let n ← toUint64 (n + (x % 9 + 1 : Nat))
      scaleChecked e n
    else do
      let n ← toUint64 (x + 1)
      scaleChecked e n

theorem toUint64_of_range {n : Int} {m : Nat} (h : n = m) (hm : m < 2 ^ 64) :
    toUint64 n = some m := by
  rw [toUint64, if_pos (by omega), h, Int.toNat_natCast]

theorem scaleChecked_eq {e n : Nat} (h : n * 10 ^ e < 2 ^ 64) :
    scaleChecked e n = some (n * 10 ^ e) := by
  induction e generalizing n with
  | zero => simp [scaleChecked]
  | succ e ih =>
    have hsplit : n * 10 ^ (e + 1) = n * 10 * 10 ^ e := by rw [Nat.pow_succ, Nat.mul_comm _ 10,
      Nat.mul_assoc]
    have hstep : n * 10 ≤ n * 10 * 10 ^ e := Nat.le_mul_of_pos_right _ (Nat.pow_pos (by omega))
    rw [hsplit] at h ⊢
    rw [scaleChecked, toUint64_of_range (m := n * 10) (by push_cast; rfl) (by omega)]
    exact ih h

theorem stripZeros_lt {n m e : Nat} (hn : 0 < n) (h : n < 2 ^ 60) (hstrip : stripZeros 9 n = (m, e)) :
    n = m * 10 ^ e ∧ 0 < m ∧ m < 2 ^ 60 ∧ e ≤ 9 ∧ (e < 9 → m % 10 ≠ 0) := by
  obtain ⟨h1, h2, h3, h4⟩ := stripZeros_spec 9 hn
  rw [hstrip] at h1 h2 h3 h4
  dsimp only at h1 h2 h3 h4
  have hle : m ≤ m * 10 ^ e := Nat.le_mul_of_pos_right _ (Nat.pow_pos (by omega))
  exact ⟨h1, h2, by omega, h3, h4⟩

theorem compressAmountChecked_eq {n : Nat} (h : n < 2 ^ 60) :
    compressAmountChecked n = some (compressAmount n) := by
  unfold compressAmountChecked compressAmount
  split
  · rfl
  · rename_i hn
    obtain ⟨⟨m, e⟩, hstrip⟩ : ∃ r, stripZeros 9 n = r := ⟨_, rfl⟩
    obtain ⟨-, hpos, hm, he, hdigit⟩ := stripZeros_lt (Nat.pos_of_ne_zero hn) h hstrip
    rw [hstrip]
    dsimp only
    split
    · rename_i hlt
      have hd := hdigit hlt
      rw [if_pos (by omega), toUint64_of_range (m := m / 10 * 9) (by push_cast; rfl) (by omega),
        Option.bind_eq_bind, Option.bind_some,
        toUint64_of_range (m := m / 10 * 9 + m % 10) (by push_cast; rfl) (by omega),
        Option.bind_some, toUint64_of_range (m := m / 10 * 9 + m % 10 - 1) (by omega) (by omega),
        Option.bind_some,
        toUint64_of_range (m := (m / 10 * 9 + m % 10 - 1) * 10) (by push_cast; rfl) (by omega),
        Option.bind_some,
        toUint64_of_range (m := 1 + (m / 10 * 9 + m % 10 - 1) * 10) (by push_cast; rfl) (by omega),
        Option.bind_some, toUint64_of_range (m := 1 + (m / 10 * 9 + m % 10 - 1) * 10 + e)
          (by push_cast; rfl) (by omega),
        Nat.mod_eq_of_lt (by omega : 1 + (m / 10 * 9 + m % 10 - 1) * 10 + e < 2 ^ 64)]
    · rw [toUint64_of_range (m := m - 1) (by omega) (by omega), Option.bind_eq_bind,
        Option.bind_some, toUint64_of_range (m := (m - 1) * 10) (by push_cast; rfl) (by omega),
        Option.bind_some, toUint64_of_range (m := 1 + (m - 1) * 10) (by push_cast; rfl) (by omega),
        Option.bind_some, toUint64_of_range (m := 1 + (m - 1) * 10 + 9) (by push_cast; rfl)
          (by omega), Nat.mod_eq_of_lt (by omega)]

theorem decompressAmountChecked_compressAmount {n : Nat} (h : n < 2 ^ 60) :
    decompressAmountChecked (compressAmount n) = some n := by
  unfold compressAmount
  split
  · rename_i hn
    rw [hn]
    rfl
  · rename_i hn
    obtain ⟨⟨m, e⟩, hstrip⟩ : ∃ r, stripZeros 9 n = r := ⟨_, rfl⟩
    obtain ⟨hvalue, hpos, hm, he, hdigit⟩ := stripZeros_lt (Nat.pos_of_ne_zero hn) h hstrip
    have hscale : scaleChecked e m = some n := by
      rw [scaleChecked_eq (by omega), hvalue]
    rw [hstrip]
    dsimp only
    split
    · rename_i hlt
      have hd := hdigit hlt
      rw [Nat.mod_eq_of_lt (by omega : 1 + (m / 10 * 9 + m % 10 - 1) * 10 + e < 2 ^ 64),
        decompressAmountChecked, if_neg (by omega),
        toUint64_of_range (m := (m / 10 * 9 + m % 10 - 1) * 10 + e) (by omega) (by omega),
        Option.bind_eq_bind, Option.bind_some]
      have hdigits : (m / 10 * 9 + m % 10 - 1) / 9 = m / 10 ∧
          (m / 10 * 9 + m % 10 - 1) % 9 + 1 = m % 10 := by omega
      have hexponent : ((m / 10 * 9 + m % 10 - 1) * 10 + e) % 10 = e ∧
          ((m / 10 * 9 + m % 10 - 1) * 10 + e) / 10 = m / 10 * 9 + m % 10 - 1 := by omega
      dsimp only
      rw [hexponent.1, hexponent.2, hdigits.1, hdigits.2, if_pos hlt,
        toUint64_of_range (m := m / 10 * 10) (by push_cast; rfl) (by omega), Option.bind_some,
        toUint64_of_range (m := m) (by omega) (by omega), Option.bind_some]
      exact hscale
    · obtain rfl : e = 9 := by omega
      rw [Nat.mod_eq_of_lt (by omega), decompressAmountChecked, if_neg (by omega),
        toUint64_of_range (m := (m - 1) * 10 + 9) (by omega) (by omega), Option.bind_eq_bind,
        Option.bind_some]
      have hexponent : ((m - 1) * 10 + 9) % 10 = 9 ∧ ((m - 1) * 10 + 9) / 10 = m - 1 := by omega
      dsimp only
      rw [hexponent.1, hexponent.2, if_neg (by omega),
        toUint64_of_range (m := m) (by omega) (by omega), Option.bind_some]
      exact hscale

def amounts : Set Nat := {n | (n : Int) ≤ maxMoney}

theorem lt_of_mem_amounts {n : Nat} (h : n ∈ amounts) : n < 2 ^ 60 := by
  have hle : (n : Int) ≤ maxMoney := h
  have := maxMoney_eq
  omega

/-- No operation overflows for an amount of money, which is read back; and so is what it is
compressed to. -/
theorem compressAmount_spec :
    (∀ n ∈ amounts, compressAmountChecked n = some (compressAmount n) ∧
      decompressAmountChecked (compressAmount n) = some (decompressAmount (compressAmount n)) ∧
        decompressAmount (compressAmount n) = n) ∧
      amounts.InjOn compressAmount ∧
        ∀ x ∈ compressAmount '' amounts, compressAmount (decompressAmount x) = x := by
  have hback : ∀ n ∈ amounts, decompressAmount (compressAmount n) = n :=
    fun n hn => decompressAmount_compressAmount (lt_of_mem_amounts hn)
  refine ⟨fun n hn => ?_, fun n hn m hm heq => ?_, ?_⟩
  · have hlt := lt_of_mem_amounts hn
    rw [hback n hn]
    exact ⟨compressAmountChecked_eq hlt, decompressAmountChecked_compressAmount hlt, rfl⟩
  · rw [← hback n hn, heq, hback m hm]
  · rintro _ ⟨n, hn, rfl⟩
    rw [hback n hn]

namespace CScript

variable [PublicKeys] [LawfulPublicKeys] {script : CScript}

/-- What is read first: the number of a special form, or the length offset by how many there are. -/
theorem decodes_nSize (hlen : script.length + nSpecialScripts < 2 ^ 32) (rest : List UInt8) :
    ∃ nSize s, readVarInt 32 (script.write ++ rest) = some (nSize, s) ∧
      (nSize < nSpecialScripts ↔ script.compress.isSome = true) := by
  unfold write
  split
  · rename_i compr hcompr
    obtain ⟨nSize, data, hsize, rfl, -⟩ := compress_spec hcompr
    have hsix : nSpecialScripts = 6 := rfl
    have hfirst : Decodes (readVarInt 32) [UInt8.ofNat nSize] nSize := by
      rw [← writeVarInt_of_lt (by omega)]
      exact decodes_writeVarInt (by omega)
    exact ⟨nSize, data ++ rest, hfirst (data ++ rest), iff_of_true hsize (by rw [hcompr]; rfl)⟩
  · rename_i hcompr
    refine ⟨script.length + nSpecialScripts, script ++ rest, ?_,
      iff_of_false (by omega) (by rw [hcompr]; exact Bool.false_ne_true)⟩
    rw [List.append_assoc]
    exact decodes_writeVarInt hlen (script ++ rest)

/-- A script is read back from what is written, which has the size that is announced. A special form
is read exactly if it was written. -/
theorem decodes_write_spec (hlen : script.length < maxSize) :
    Decodes read script.write script ∧ script.write.length = script.compressedSize ∧
      ∀ rest, ∃ nSize s, readVarInt 32 (script.write ++ rest) = some (nSize, s) ∧
        (nSize < nSpecialScripts ↔ script.compress.isSome = true) := by
  have hsix : nSpecialScripts = 6 := rfl
  have hmax : maxSize = 33554432 := rfl
  exact ⟨decodes_write (by omega), length_write script, decodes_nSize (by omega)⟩

end CScript

namespace Sample

/-- Payment to an uncompressed key, and the same with another byte at the end. -/
theorem decodes_write_spec_sample :
    let script : CScript := 65 :: 4 :: (generatorX ++ generatorY) ++ [CScript.OP_CHECKSIG]
    let other : CScript := 65 :: 4 :: (generatorX ++ generatorY) ++ [CScript.OP_EQUAL]
    (Decodes CScript.read script.write script ∧ script.compress = some (4 :: generatorX)) ∧
      Decodes CScript.read other.write other ∧ other.compress = none :=
  ⟨⟨(CScript.decodes_write_spec (by decide)).1, by decide⟩,
    (CScript.decodes_write_spec (by decide)).1, by decide⟩

end Sample

end Terracoin
