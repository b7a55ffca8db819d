import Mathlib.Algebra.Order.Ring.Int
import Mathlib.Algebra.GroupWithZero.Nat
import Mathlib.Data.List.TakeWhile

/-!
# Numbers as text

`i64tostr` writes an `int64` in decimal and `atoi64` reads it. Characters are bytes. `atoi64` takes
white space, a sign and digits off the front of a string, ignores the rest, and stops at the ends of
the range of an `int64`.
-/

namespace Terracoin

/-- `std::string`. -/
abbrev Text := List UInt8

def cStr (str : Text) : Text := str.takeWhile (· ≠ 0)

theorem forall_char {P : UInt8 → Prop} (h : ∀ n < 256, P (UInt8.ofNat n)) (c : UInt8) : P c := by
  have hc := h c.toNat c.toNat_lt
  rwa [UInt8.ofNat_toNat] at hc

def isDigit (c : UInt8) : Bool := 48 ≤ c && c ≤ 57

/-- `isspace` in the "C" locale. -/
def isSpace (c : UInt8) : Bool := c == 32 || (9 ≤ c && c ≤ 13)

theorem isSpace_le {c : UInt8} (h : isSpace c = true) : c.toNat ≤ 32 := by
  simp only [isSpace, Bool.or_eq_true, Bool.and_eq_true, beq_iff_eq, decide_eq_true_eq] at h
  rcases h with rfl | ⟨-, hle⟩
  · exact Nat.le_refl 32
  · exact Nat.le_trans (UInt8.le_iff_toNat_le.mp hle) (by decide)

def decimal (n : Nat) : Text :=
  if n < 10 then [UInt8.ofNat (48 + n)] else decimal (n / 10) ++ [UInt8.ofNat (48 + n % 10)]

/-- `i64tostr`. -/
def i64tostr (n : Int64) : Text :=
  if n.toInt < 0 then 45 :: decimal n.toInt.natAbs else decimal n.toInt.natAbs

/-- The number that the digits at the front of a string make. -/
def digitsValue (s : Text) : Nat :=
  (s.takeWhile isDigit).foldl (fun n c => 10 * n + (c.toNat - 48)) 0

/-- `strtoll` stops at the ends of its range. -/
def clampInt64 (n : Int) : Int64 := Int64.ofInt (max (-2 ^ 63) (min n (2 ^ 63 - 1)))

/-- `strtoll(psz, NULL, 10)`. -/
def atoi64 (psz : Text) : Int64 :=
  match psz.dropWhile isSpace with
  | 45 :: s => clampInt64 (-digitsValue s)
  | 43 :: s => clampInt64 (digitsValue s)
  | s => clampInt64 (digitsValue s)

theorem toNat_digit {d : Nat} (h : d < 10) : (UInt8.ofNat (48 + d)).toNat = 48 + d := by
  rw [UInt8.toNat_ofNat']
  omega

theorem isDigit_digit {d : Nat} (h : d < 10) : isDigit (UInt8.ofNat (48 + d)) = true := by
  have hd := toNat_digit h
  rw [isDigit, Bool.and_eq_true, decide_eq_true_iff, decide_eq_true_iff, UInt8.le_iff_toNat_le,
    UInt8.le_iff_toNat_le, hd]
  exact ⟨Nat.le_add_right 48 d, Nat.add_le_add_left (Nat.le_of_lt_succ h) 48⟩

theorem isDigit_of_mem_decimal (n : Nat) : ∀ c ∈ decimal n, isDigit c = true := by
  induction n using decimal.induct with
  | case1 n h =>
    rw [decimal, if_pos h]
    exact List.forall_mem_singleton.mpr (isDigit_digit h)
  | case2 n h ih =>
    rw [decimal, if_neg h]
    intro c hc
    rcases List.mem_append.mp hc with hc | hc
    · exact ih c hc
    · rw [List.mem_singleton.mp hc]
      exact isDigit_digit (Nat.mod_lt n (by decide))

theorem digitsValue_decimal (n : Nat) : digitsValue (decimal n) = n := by
  have hall : ∀ m, (decimal m).takeWhile isDigit = decimal m :=
    fun m => List.takeWhile_eq_self_iff.mpr (isDigit_of_mem_decimal m)
  induction n using decimal.induct with
  | case1 n h =>
    rw [digitsValue, hall, decimal, if_pos h, List.foldl_cons, List.foldl_nil, toNat_digit h]
    omega
  | case2 n h ih =>
    rw [digitsValue, hall] at ih ⊢
    rw [decimal, if_neg h, List.foldl_append, ih]
    rw [List.foldl_cons, List.foldl_nil, toNat_digit (Nat.mod_lt n (by decide))]
    omega

theorem decimal_ne_nil (n : Nat) : decimal n ≠ [] := by
  rw [decimal]
  split <;> simp

theorem digit_not_special {c : UInt8} (h : isDigit c = true) :
    isSpace c = false ∧ c ≠ 45 ∧ c ≠ 43 := by
  have hc : 48 ≤ c.toNat ∧ c.toNat ≤ 57 := by simpa [isDigit, UInt8.le_iff_toNat_le] using h
  refine ⟨?_, ?_, ?_⟩
  · have h32 : c ≠ 32 := by
      rintro rfl
      exact absurd hc.1 (by decide)
    have h13 : ¬ c ≤ 13 := by
      rw [UInt8.le_iff_toNat_le, show (13 : UInt8).toNat = 13 from rfl]
      omega
    simp [isSpace, h32, h13]
  · rintro rfl
    exact absurd hc.1 (by decide)
  · rintro rfl
    exact absurd hc.1 (by decide)

theorem clampInt64_toInt (n : Int64) : clampInt64 n.toInt = n := by
  have hlo := Int64.le_toInt n
  have hhi := Int64.toInt_lt n
  have hclamp : max (-2 ^ 63) (min n.toInt (2 ^ 63 - 1)) = n.toInt := by omega
  rw [clampInt64, hclamp, Int64.ofInt_toInt]

theorem atoi64_decimal (n : Nat) : atoi64 (decimal n) = clampInt64 n := by
  obtain ⟨c, s, hs⟩ := List.exists_cons_of_ne_nil (decimal_ne_nil n)
  obtain ⟨hspace, hminus, hplus⟩ :=
    digit_not_special (isDigit_of_mem_decimal n c (hs ▸ List.mem_cons_self))
  have hdrop : (decimal n).dropWhile isSpace = decimal n := by
    rw [hs, List.dropWhile_cons_of_neg (by simp [hspace])]
  rw [atoi64, hdrop]
  split
  · next h => exact absurd (List.cons_eq_cons.mp (hs.symm.trans h)).1 hminus
  · next h => exact absurd (List.cons_eq_cons.mp (hs.symm.trans h)).1 hplus
  · rw [digitsValue_decimal]

theorem atoi64_neg_decimal (n : Nat) : atoi64 (45 :: decimal n) = clampInt64 (-n) := by
  rw [atoi64, List.dropWhile_cons_of_neg (by decide)]
  exact congrArg (fun m : Nat => clampInt64 (-m)) (digitsValue_decimal n)

theorem atoi64_i64tostr (n : Int64) : atoi64 (i64tostr n) = n := by
  rw [i64tostr]
  split
  · next h =>
    rw [atoi64_neg_decimal, Int.ofNat_natAbs_of_nonpos (Int.le_of_lt h), Int.neg_neg,
      clampInt64_toInt]
  · next h =>
    rw [atoi64_decimal, Int.natAbs_of_nonneg (Int.not_lt.mp h), clampInt64_toInt]

end Terracoin
