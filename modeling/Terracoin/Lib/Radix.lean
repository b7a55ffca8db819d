import Mathlib.Data.Nat.Digits.Lemmas
import Mathlib.Data.List.TakeWhile

/-!
# Digits, the highest first

`bigValue b digits` is the number that digits make in the base `b`, and `bigDigits b n` are the
digits of a number, without leading zeros. `convert b b'` writes digits of one base in another and
keeps their leading zeros; converting back gives the digits again (`convert_convert`).
-/

namespace Radix

variable {b b' n : Nat} {digits digits' : List Nat}

/-- The number that digits make, the highest first. -/
def bigValue (b : Nat) (digits : List Nat) : Nat := Nat.ofDigits b digits.reverse

@[simp] theorem bigValue_nil (b : Nat) : bigValue b [] = 0 := rfl

@[simp] theorem bigValue_concat (b d : Nat) (digits : List Nat) :
    bigValue b (digits ++ [d]) = bigValue b digits * b + d := by
  rw [bigValue, List.reverse_append, List.reverse_singleton, List.singleton_append,
    Nat.ofDigits_cons, bigValue, Nat.add_comm, Nat.mul_comm]

theorem bigValue_inj (hb : 1 < b) (hlen : digits.length = digits'.length)
    (h : ∀ d ∈ digits, d < b) (h' : ∀ d ∈ digits', d < b)
    (heq : bigValue b digits = bigValue b digits') : digits = digits' := by
  have hreverse : digits.reverse = digits'.reverse := by
    refine Nat.ofDigits_inj_of_len_eq hb ?_ ?_ ?_ heq
    · rw [List.length_reverse, List.length_reverse, hlen]
    · exact fun d hd => h d (List.mem_reverse.mp hd)
    · exact fun d hd => h' d (List.mem_reverse.mp hd)
  exact List.reverse_inj.mp hreverse

/-! ## Leading zeros -/

theorem bigValue_zeros (b k : Nat) (digits : List Nat) :
    bigValue b (List.replicate k 0 ++ digits) = bigValue b digits := by
  rw [bigValue, List.reverse_append, List.reverse_replicate, Nat.ofDigits_append_replicate_zero,
    bigValue]

/-- The digits of a number, without leading zeros. -/
def bigDigits (b n : Nat) : List Nat := (Nat.digits b n).reverse

theorem bigValue_bigDigits (b n : Nat) : bigValue b (bigDigits b n) = n := by
  rw [bigValue, bigDigits, List.reverse_reverse, Nat.ofDigits_digits]

theorem bigDigits_lt (hb : 1 < b) : ∀ d ∈ bigDigits b n, d < b := fun _ hd =>
  Nat.digits_lt_base hb (List.mem_reverse.mp hd)

theorem head_bigDigits (b n : Nat) : ∀ d ∈ (bigDigits b n).head?, d ≠ 0 := by
  intro d hd
  rw [bigDigits, List.head?_reverse] at hd
  have hne : Nat.digits b n ≠ [] := by
    intro hnil
    rw [hnil] at hd
    cases hd
  rw [List.getLast?_eq_some_getLast hne] at hd
  obtain rfl := Option.some.inj hd
  exact Nat.getLast_digit_ne_zero b (fun h0 => hne (by rw [h0, Nat.digits_zero]))

theorem bigDigits_bigValue (hb : 1 < b) (h : ∀ d ∈ digits, d < b)
    (hhead : ∀ d ∈ digits.head?, d ≠ 0) : bigDigits b (bigValue b digits) = digits := by
  rw [bigDigits, bigValue, Nat.digits_ofDigits b hb, List.reverse_reverse]
  · exact fun d hd => h d (List.mem_reverse.mp hd)
  · intro hne
    refine hhead _ ?_
    rw [← List.getLast?_reverse, List.getLast?_eq_some_getLast hne]
    rfl

def leadingZeros (digits : List Nat) : Nat := (digits.takeWhile (· = 0)).length

theorem leadingZeros_append {k : Nat} (hhead : ∀ d ∈ digits.head?, d ≠ 0) :
    leadingZeros (List.replicate k 0 ++ digits) = k := by
  induction k with
  | zero =>
    cases digits with
    | nil => rfl
    | cons d digits =>
      rw [List.replicate_zero, List.nil_append, leadingZeros, List.takeWhile_cons_of_neg]
      · rfl
      · simpa using hhead d rfl
  | succ k ih =>
    rw [List.replicate_succ, List.cons_append, leadingZeros, List.takeWhile_cons_of_pos (by decide),
      List.length_cons]
    exact congrArg (· + 1) ih

theorem exists_zeros (digits : List Nat) : ∃ rest,
    digits = List.replicate (leadingZeros digits) 0 ++ rest ∧ ∀ d ∈ rest.head?, d ≠ 0 := by
  induction digits with
  | nil => exact ⟨[], rfl, fun d hd => absurd hd (Option.not_mem_none d)⟩
  | cons d digits ih =>
    by_cases hd : d = 0
    · obtain ⟨rest, hrest, hhead⟩ := ih
      refine ⟨rest, ?_, hhead⟩
      rw [leadingZeros, List.takeWhile_cons_of_pos (by simpa using hd), List.length_cons,
        List.replicate_succ, List.cons_append, hd]
      exact congrArg (0 :: ·) hrest
    · refine ⟨d :: digits, ?_, fun e he => ?_⟩
      · rw [leadingZeros, List.takeWhile_cons_of_neg (by simpa using hd)]
        rfl
      · obtain rfl := Option.some.inj he
        exact hd

/-- The digits of the same number in the base `b'`, with as many leading zeros. -/
def convert (b b' : Nat) (digits : List Nat) : List Nat :=
  List.replicate (leadingZeros digits) 0 ++ bigDigits b' (bigValue b digits)

theorem convert_lt (hb' : 1 < b') : ∀ d ∈ convert b b' digits, d < b' := by
  refine List.forall_mem_append.mpr ⟨fun d hd => ?_, bigDigits_lt hb'⟩
  rw [List.eq_of_mem_replicate hd]
  omega

theorem convert_convert (hb : 1 < b) (h : ∀ d ∈ digits, d < b) :
    convert b' b (convert b b' digits) = digits := by
  obtain ⟨rest, hrest, hhead⟩ := exists_zeros digits
  have hzeros : leadingZeros (convert b b' digits) = leadingZeros digits :=
    leadingZeros_append (head_bigDigits b' _)
  have hvalue : bigValue b' (convert b b' digits) = bigValue b rest := by
    rw [convert, bigValue_zeros, bigValue_bigDigits]
    conv_lhs => rw [hrest]
    rw [bigValue_zeros]
  have hdigits : ∀ d ∈ rest, d < b := fun d hd => h d (by
    rw [hrest]
    exact List.mem_append_right _ hd)
  rw [convert, hzeros, hvalue, bigDigits_bigValue hb hdigits hhead]
  exact hrest.symm

end Radix
