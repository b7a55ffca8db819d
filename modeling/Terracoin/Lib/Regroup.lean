import Mathlib.Tactic.Ring
import Terracoin.Lib.Radix

/-!
# Digits of another width

A converter reads digits of `a` bits, the highest first, and writes digits of `b` bits.
`Regrouped a b k input output rest` says where it stands: `k` bits with the value `rest` are not
written yet. A digit more is read (`Regrouped.read`), a digit of the bits that are left is written
(`Regrouped.write`).

`Padded` is a text of `w`-bit digits for bytes whose last digit is filled with zero bits. There is
exactly one for every list of bytes, and it determines the bytes (`Padded.digits_unique`,
`Padded.bytes_unique`).
-/

namespace Regroup

open Radix

variable {a b k rest : Nat} {input output : List Nat}

structure Regrouped (a b k : Nat) (input output : List Nat) (rest : Nat) : Prop where
  bits : a * input.length = b * output.length + k
  value : bigValue (2 ^ a) input = bigValue (2 ^ b) output * 2 ^ k + rest
  rest_lt : rest < 2 ^ k
  output_lt : ∀ d ∈ output, d < 2 ^ b

theorem Regrouped.nil (a b : Nat) : Regrouped a b 0 [] [] 0 where
  bits := rfl
  value := rfl
  rest_lt := Nat.one_pos
  output_lt := List.forall_mem_nil _

theorem Regrouped.read {d : Nat} (h : Regrouped a b k input output rest) (hd : d < 2 ^ a) :
    Regrouped a b (k + a) (input ++ [d]) output (rest * 2 ^ a + d) where
  bits := by
    rw [List.length_append, List.length_singleton, Nat.mul_add, h.bits]
    omega
  value := by
    rw [bigValue_concat, h.value, pow_add]
    ring
  rest_lt := by
    rw [pow_add]
    calc rest * 2 ^ a + d < (rest + 1) * 2 ^ a := by
          rw [Nat.succ_mul]
          omega
      _ ≤ 2 ^ k * 2 ^ a := Nat.mul_le_mul_right _ h.rest_lt
  output_lt := h.output_lt

theorem Regrouped.write (h : Regrouped a b (b + k) input output rest) :
    Regrouped a b k input (output ++ [rest / 2 ^ k]) (rest % 2 ^ k) where
  bits := by
    rw [List.length_append, List.length_singleton, Nat.mul_add, h.bits]
    omega
  value := by
    have hdiv := Nat.div_add_mod rest (2 ^ k)
    rw [bigValue_concat, h.value, pow_add]
    calc bigValue (2 ^ b) output * (2 ^ b * 2 ^ k) + rest
        = bigValue (2 ^ b) output * (2 ^ b * 2 ^ k) + (2 ^ k * (rest / 2 ^ k) + rest % 2 ^ k) := by
          rw [hdiv]
      _ = _ := by ring
  rest_lt := Nat.mod_lt _ (Nat.two_pow_pos k)
  output_lt := by
    refine List.forall_mem_append.mpr ⟨h.output_lt, List.forall_mem_singleton.mpr ?_⟩
    rw [Nat.div_lt_iff_lt_mul (Nat.two_pow_pos k), ← pow_add]
    exact h.rest_lt

theorem Regrouped.digit {d : Nat} (k' : Nat) (h : Regrouped a b k input output rest) (hd : d < 2 ^ a)
    (hk : k + a = b + k') : Regrouped a b k' (input ++ [d])
      (output ++ [(rest * 2 ^ a + d) / 2 ^ k']) ((rest * 2 ^ a + d) % 2 ^ k') := by
  have hread := h.read hd
  rw [hk] at hread
  exact hread.write

theorem Regrouped.twoDigits {d : Nat} (k' : Nat) (h : Regrouped a b k input output rest) (hd : d < 2 ^ a)
    (hk : k + a = b + (b + k')) : Regrouped a b k' (input ++ [d])
      (output ++ [(rest * 2 ^ a + d) / 2 ^ (b + k'), (rest * 2 ^ a + d) % 2 ^ (b + k') / 2 ^ k'])
      ((rest * 2 ^ a + d) % 2 ^ (b + k') % 2 ^ k') := by
  have hwrite := (h.digit _ hd hk).write
  rwa [List.append_assoc, List.singleton_append] at hwrite

/-! ## Texts with padding -/

/-- The digits of `w` bits for some bytes, the last one filled with `pad` zero bits. -/
structure Padded (w pad : Nat) (bytes digits : List Nat) : Prop where
  pad_lt : pad < w
  bits : w * digits.length = 8 * bytes.length + pad
  value : bigValue (2 ^ w) digits = bigValue (2 ^ 8) bytes * 2 ^ pad
  digits_lt : ∀ d ∈ digits, d < 2 ^ w

variable {w pad pad' : Nat} {bytes bytes' digits digits' : List Nat}

/-- The bits that are left, if any, make one more digit. -/
theorem Regrouped.padded (h : Regrouped 8 w k bytes digits rest) (hk : k < w) :
    Padded w (if k = 0 then 0 else w - k) bytes
      (if k = 0 then digits else digits ++ [rest * 2 ^ (w - k)]) := by
  split
  · rename_i h0
    subst h0
    have hrest : rest = 0 := by
      have := h.rest_lt
      omega
    have hvalue := h.value
    rw [hrest, pow_zero, Nat.mul_one, Nat.add_zero] at hvalue
    exact ⟨hk, h.bits.symm, by rw [pow_zero, Nat.mul_one, hvalue], h.output_lt⟩
  · rename_i h0
    have hsplit : (2 : Nat) ^ w = 2 ^ k * 2 ^ (w - k) := by rw [← pow_add, Nat.add_sub_cancel' hk.le]
    refine ⟨by omega, ?_, ?_, ?_⟩
    · have hbits := h.bits
      rw [List.length_append, List.length_singleton, Nat.mul_add]
      omega
    · rw [bigValue_concat, h.value, hsplit]
      ring
    · refine List.forall_mem_append.mpr ⟨h.output_lt, List.forall_mem_singleton.mpr ?_⟩
      rw [hsplit]
      exact Nat.mul_lt_mul_of_pos_right h.rest_lt (Nat.two_pow_pos _)

theorem Regrouped.padded_of_read (h : Regrouped w 8 k digits bytes 0) (hk : k < w)
    (hdigits : ∀ d ∈ digits, d < 2 ^ w) : Padded w k bytes digits where
  pad_lt := hk
  bits := h.bits
  value := h.value
  digits_lt := hdigits

theorem eq_of_mul_close {x y : Nat} (h : w * x < w * y + w) (h' : w * y < w * x + w) : x = y := by
  rw [← Nat.mul_succ] at h h'
  exact le_antisymm (Nat.le_of_lt_succ (Nat.lt_of_mul_lt_mul_left h))
    (Nat.le_of_lt_succ (Nat.lt_of_mul_lt_mul_left h'))

theorem Padded.digits_unique (h : Padded w pad bytes digits) (h' : Padded w pad' bytes digits') :
    digits = digits' ∧ pad = pad' := by
  have hpad := h.pad_lt
  have hpad' := h'.pad_lt
  have hbits := h.bits
  have hbits' := h'.bits
  have hlength : digits.length = digits'.length :=
    eq_of_mul_close (w := w) (by omega) (by omega)
  obtain rfl : pad = pad' := by
    rw [hlength] at hbits
    omega
  exact ⟨bigValue_inj (Nat.one_lt_two_pow (by omega)) hlength h.digits_lt h'.digits_lt
    (h.value.trans h'.value.symm), rfl⟩

/-- Reading the digits of a padded text gives its bytes back, and the bits that are left are the
zeros it was filled with. -/
theorem Padded.bytes_unique (hw : w ≤ 8) (h : Padded w pad bytes digits)
    (hbytes : ∀ d ∈ bytes, d < 2 ^ 8) (hread : Regrouped w 8 k digits bytes' rest) (hk : k < 8) :
    bytes' = bytes ∧ rest = 0 ∧ k = pad := by
  have hpad := h.pad_lt
  have hbits := h.bits
  have hbits' := hread.bits
  have hlength : bytes'.length = bytes.length := by omega
  obtain rfl : k = pad := by omega
  have hvalue := hread.value
  rw [h.value] at hvalue
  have hrest : rest = 0 := by
    have hmod := congrArg (· % 2 ^ k) hvalue
    simp only [Nat.mul_mod_left, Nat.mul_add_mod_self_right, Nat.mod_eq_of_lt hread.rest_lt] at hmod
    exact hmod.symm
  refine ⟨?_, hrest, rfl⟩
  rw [hrest, Nat.add_zero] at hvalue
  exact bigValue_inj (by decide) hlength hread.output_lt hbytes
    (Nat.eq_of_mul_eq_mul_right (Nat.two_pow_pos k) hvalue).symm

end Regroup
