import Mathlib.Data.Rat.Cast.Order
import Mathlib.Tactic.FieldSimp
import Mathlib.Tactic.Ring
import Terracoin.Primitives.Transaction
import Terracoin.Serialize.Text

/-!
# Amounts as text

`FormatMoney` and `ParseMoney` of `util.cpp`. What `ParseMoney` accepts is a decimal number, and the
amount it returns is the value of that number (`parseMoney_exact`); an amount that is formatted is
read back.
-/

namespace Terracoin

open Checked

/-! ## The functions -/

/-- `strprintf("%08d", n)` of a number that is not negative. -/
def decimal08 (n : Nat) : Text := (decimal n).leftpad 8 48

/-- `nTrim`, from the reversed string: a zero at the end goes if a digit stands two places before
it. -/
def trimmedZeros : Text → Nat
  | c :: d :: e :: s => if c = 48 ∧ isDigit e then trimmedZeros (d :: e :: s) + 1 else 0
  | _ => 0

def formatMoney (n : Int) (fPlus : Bool) : Text :=
  let quotient := n.natAbs / 100000000
  let remainder := n.natAbs % 100000000
  let str := decimal quotient ++ [46] ++ decimal08 remainder
  let nTrim := trimmedZeros str.reverse
  let str := str.take (str.length - nTrim)
  if n < 0 then 45 :: str else if fPlus ∧ 0 < n then 43 :: str else str

/-- `ParseMoney` returns `false`, or computes a number outside the range of an `int64`. -/
inductive MoneyError
  | refused
  | overflow
  deriving DecidableEq, Repr

def parseFraction : Int → Int → Text → Except MoneyError (Int × Text)
  | _, nUnits, [] => .ok (nUnits, [])
  | nMult, nUnits, c :: p =>
    if isDigit c ∧ 0 < nMult then do
      let nDigit ← mul64 .overflow nMult (c.toNat - 48)
      let nUnits ← add64 .overflow nUnits nDigit
      parseFraction (nMult.tdiv 10) nUnits p
    else .ok (nUnits, c :: p)

def cent : Int := 1000000

/-- The first loop of `ParseMoney`: `strWhole`, `nUnits` and what is left. -/
def parseDecimal : Text → Text → Except MoneyError (Text × Int × Text)
  | strWhole, [] => .ok (strWhole, 0, [])
  | strWhole, c :: p =>
    if c = 46 then do
      let (nUnits, p) ← parseFraction (cent * 10) 0 p
      pure (strWhole, nUnits, p)
    else if isSpace c then .ok (strWhole, 0, c :: p)
    else if ¬ isDigit c then .error .refused
    else parseDecimal (strWhole ++ [c]) p

/-- `ParseMoney`, of the C string that a string is. -/
def parseMoney (str : Text) : Except MoneyError Int := do
  let (strWhole, nUnits, p) ← parseDecimal [] ((cStr str).dropWhile isSpace)
  require (p.all isSpace) .refused
  require (strWhole.length ≤ 10) .refused
  require (0 ≤ nUnits ∧ nUnits ≤ coin) .refused
  let nWhole := (atoi64 strWhole).toInt
  let nCoins ← mul64 .overflow nWhole coin
  add64 .overflow nCoins nUnits

/-! ## Digits -/

def numberOf (s : Text) : Nat := s.foldl (fun n c => 10 * n + (c.toNat - 48)) 0

theorem foldl_digits (n : Nat) (s : Text) :
    s.foldl (fun n c => 10 * n + (c.toNat - 48)) n = n * 10 ^ s.length + numberOf s := by
  unfold numberOf
  induction s generalizing n with
  | nil => simp
  | cons c s ih =>
    rw [List.foldl_cons, List.foldl_cons, ih, ih (10 * 0 + (c.toNat - 48)), List.length_cons]
    ring

theorem numberOf_cons (c : UInt8) (s : Text) :
    numberOf (c :: s) = (c.toNat - 48) * 10 ^ s.length + numberOf s := by
  rw [numberOf, List.foldl_cons, foldl_digits, Nat.mul_zero, Nat.zero_add]

theorem numberOf_append (s t : Text) :
    numberOf (s ++ t) = numberOf s * 10 ^ t.length + numberOf t := by
  exact (List.foldl_append ..).trans (foldl_digits _ t)

theorem digit_bounds {c : UInt8} (h : isDigit c = true) : 48 ≤ c.toNat ∧ c.toNat ≤ 57 := by
  simpa [isDigit, UInt8.le_iff_toNat_le] using h

theorem numberOf_lt {s : Text} (h : ∀ c ∈ s, isDigit c = true) : numberOf s < 10 ^ s.length := by
  induction s with
  | nil => exact Nat.one_pos
  | cons c s ih =>
    obtain ⟨hc, hs⟩ := List.forall_mem_cons.mp h
    have hbounds := digit_bounds hc
    have hrest := ih hs
    rw [numberOf_cons, List.length_cons, pow_succ]
    have hdigit : (c.toNat - 48) * 10 ^ s.length ≤ 9 * 10 ^ s.length :=
      Nat.mul_le_mul_right _ (by omega)
    omega

theorem digitsValue_eq {s : Text} (h : ∀ c ∈ s, isDigit c = true) : digitsValue s = numberOf s := by
  rw [digitsValue, List.takeWhile_eq_self_iff.mpr h, numberOf]

theorem numberOf_decimal (n : Nat) : numberOf (decimal n) = n := by
  rw [← digitsValue_eq (isDigit_of_mem_decimal n), digitsValue_decimal]

theorem toInt_clampInt64 {n : Nat} (h : n < 2 ^ 63) : (clampInt64 n).toInt = n := by
  have hclamp : max (-2 ^ 63) (min (n : Int) (2 ^ 63 - 1)) = n := by omega
  rw [clampInt64, hclamp, Int64.toInt_ofInt_of_le (by omega) (by omega)]

theorem atoi64_digits {s : Text} (h : ∀ c ∈ s, isDigit c = true) (hlen : s.length ≤ 10) :
    (atoi64 s).toInt = numberOf s := by
  have hlt : numberOf s < 2 ^ 63 :=
    (numberOf_lt h).trans (lt_of_le_of_lt (Nat.pow_le_pow_right (by decide) hlen) (by decide))
  have hdrop : s.dropWhile isSpace = s := by
    cases s with
    | nil => rfl
    | cons c s =>
      have hc := digit_not_special (h c List.mem_cons_self)
      rw [List.dropWhile_cons_of_neg (by simp [hc.1])]
  rw [atoi64, hdrop]
  split
  · exact absurd rfl (digit_not_special (h 45 List.mem_cons_self)).2.1
  · exact absurd rfl (digit_not_special (h 43 List.mem_cons_self)).2.2
  · rw [digitsValue_eq h, toInt_clampInt64 hlt]

/-- The value of one more digit while `m` more digits are read. -/
def fracMult : Nat → Int
  | 0 => 0
  | m + 1 => 10 ^ m

theorem fracMult_step (m : Nat) : (fracMult (m + 1)).tdiv 10 = fracMult m := by
  cases m with
  | zero => rfl
  | succ m =>
    have hnonneg : (0 : Int) ≤ 10 ^ (m + 1) := pow_nonneg (by decide) _
    rw [fracMult, fracMult, Int.tdiv_eq_ediv_of_nonneg hnonneg, pow_succ,
      Int.mul_ediv_cancel _ (by decide)]

/-- Up to `m` digits are read, as many as there are, and no sum leaves the range. -/
theorem parseFraction_spec {m : Nat} (nUnits : Int) (p : Text) (h0 : 0 ≤ nUnits)
    (hmax : nUnits + 10 ^ m ≤ coin) :
    ∃ frac rest, p = frac ++ rest ∧ (∀ c ∈ frac, isDigit c = true) ∧ frac.length ≤ m ∧
      (frac.length < m → ∀ c ∈ rest.head?, isDigit c = false) ∧
      parseFraction (fracMult m) nUnits p =
        .ok (nUnits + (numberOf frac * 10 ^ (m - frac.length) : Nat), rest) := by
  induction p generalizing m nUnits with
  | nil =>
    refine ⟨[], [], rfl, List.forall_mem_nil _, Nat.zero_le m, fun _ c hc => ?_, ?_⟩
    · exact absurd hc (Option.not_mem_none c)
    · simp [parseFraction, numberOf]
  | cons c p ih =>
    by_cases hread : isDigit c ∧ 0 < fracMult m
    · obtain ⟨hc, hpos⟩ := hread
      cases m with
      | zero => exact absurd hpos (by decide)
      | succ m =>
        have hbounds := digit_bounds hc
        have hpow : (0 : Int) < 10 ^ m := hpos
        have hpow' : (10 : Int) ^ (m + 1) = 10 * 10 ^ m := by rw [pow_succ, mul_comm]
        have hdigit : ((10 : Int) ^ m) * (c.toNat - 48) ≤ 10 ^ m * 9 :=
          mul_le_mul_of_nonneg_left (by omega) hpow.le
        have hdigit0 : 0 ≤ ((10 : Int) ^ m) * (c.toNat - 48) := mul_nonneg hpow.le (by omega)
        have hcoin : coin = 100000000 := rfl
        obtain ⟨frac, rest, rfl, hfrac, hlen, hrest, hparse⟩ :=
          ih (m := m) (nUnits + 10 ^ m * (c.toNat - 48)) (by omega) (by omega)
        refine ⟨c :: frac, rest, rfl, List.forall_mem_cons.mpr ⟨hc, hfrac⟩,
          Nat.succ_le_succ hlen, fun hlt => hrest (Nat.lt_of_succ_lt_succ hlt), ?_⟩
        have hmul : mul64 MoneyError.overflow (fracMult (m + 1)) (c.toNat - 48) =
            .ok (10 ^ m * (c.toNat - 48)) :=
          mul64_of_range (by constructor <;> rw [fracMult] <;> omega)
        have hadd : add64 MoneyError.overflow nUnits (10 ^ m * (c.toNat - 48)) =
            .ok (nUnits + 10 ^ m * (c.toNat - 48)) :=
          add64_of_range (by constructor <;> omega)
        have hvalue : nUnits + 10 ^ m * (c.toNat - 48) +
            (numberOf frac * 10 ^ (m - frac.length) : Nat) =
            nUnits + (numberOf (c :: frac) * 10 ^ (m + 1 - (c :: frac).length) : Nat) := by
          have hpowm : 10 ^ frac.length * 10 ^ (m - frac.length) = 10 ^ m := by
            rw [← pow_add, Nat.add_sub_cancel' hlen]
          have hsub : m + 1 - (c :: frac).length = m - frac.length := by
            rw [List.length_cons, Nat.add_sub_add_right]
          have hdigitValue : ((c.toNat - 48 : Nat) : Int) = c.toNat - 48 := by omega
          rw [numberOf_cons, hsub, add_mul, mul_assoc, hpowm]
          push_cast
          rw [hdigitValue]
          ring
        rw [parseFraction, if_pos ⟨hc, hpos⟩, hmul]
        simp only [bind, Except.bind, hadd]
        rw [fracMult_step, hparse, hvalue]
    · refine ⟨[], c :: p, rfl, List.forall_mem_nil _, Nat.zero_le m, fun hlt d hd => ?_, ?_⟩
      · obtain rfl : c = d := Option.some.inj hd
        have hpos : 0 < fracMult m := by
          obtain ⟨k, rfl⟩ : ∃ k, m = k + 1 := ⟨m - 1, by simp at hlt; omega⟩
          exact pow_pos (by decide) _
        exact Bool.eq_false_iff.mpr fun hc => hread ⟨hc, hpos⟩
      · rw [parseFraction, if_neg hread]
        simp [numberOf]

/-! ## The whole number -/

/-- A decimal number as it is written: digits, and a point with digits behind it or nothing. -/
structure IsDecimal (text whole frac : Text) : Prop where
  digitsWhole : ∀ c ∈ whole, isDigit c = true
  digitsFrac : ∀ c ∈ frac, isDigit c = true
  form : text = whole ++ 46 :: frac ∨ text = whole ∧ frac = []

/-- What the first loop takes is a decimal number of at most eight places, and no sum leaves the
range. -/
theorem parseDecimal_spec (strWhole p : Text) :
    parseDecimal strWhole p = .error .refused ∨
    ∃ text whole frac rest, p = text ++ rest ∧ IsDecimal text whole frac ∧ frac.length ≤ 8 ∧
      parseDecimal strWhole p =
        .ok (strWhole ++ whole, (numberOf frac * 10 ^ (8 - frac.length) : Nat), rest) := by
  induction p generalizing strWhole with
  | nil =>
    refine .inr ⟨[], [], [], [], rfl, ⟨List.forall_mem_nil _, List.forall_mem_nil _, .inr ⟨rfl, rfl⟩⟩,
      Nat.zero_le 8, ?_⟩
    rw [parseDecimal, List.append_nil]
    rfl
  | cons c p ih =>
    rw [parseDecimal]
    by_cases hpoint : c = 46
    · obtain ⟨frac, rest, rfl, hfrac, hlen, -, hparse⟩ :=
        parseFraction_spec (m := 8) 0 p (le_refl 0) (by decide)
      refine .inr ⟨46 :: frac, [], frac, rest, by rw [hpoint]; rfl,
        ⟨List.forall_mem_nil _, hfrac, .inl rfl⟩, hlen, ?_⟩
      have hmult : cent * 10 = fracMult 8 := by decide
      rw [if_pos hpoint, hmult, hparse, zero_add, List.append_nil]
      rfl
    · rw [if_neg hpoint]
      by_cases hspace : isSpace c = true
      · refine .inr ⟨[], [], [], c :: p, rfl,
          ⟨List.forall_mem_nil _, List.forall_mem_nil _, .inr ⟨rfl, rfl⟩⟩, Nat.zero_le 8, ?_⟩
        rw [if_pos hspace, List.append_nil]
        rfl
      · rw [if_neg hspace]
        by_cases hdigit : isDigit c = true
        · rw [if_neg (not_not.mpr hdigit)]
          rcases ih (strWhole ++ [c]) with hrefused | ⟨text, whole, frac, rest, rfl, hdec, hlen, hparse⟩
          · exact .inl hrefused
          · refine .inr ⟨c :: text, c :: whole, frac, rest, rfl,
              ⟨List.forall_mem_cons.mpr ⟨hdigit, hdec.digitsWhole⟩, hdec.digitsFrac, ?_⟩, hlen, ?_⟩
            · rcases hdec.form with htext | ⟨htext, hnil⟩
              · exact .inl (congrArg (c :: ·) htext)
              · exact .inr ⟨congrArg (c :: ·) htext, hnil⟩
            · rw [hparse, List.append_assoc, List.singleton_append]
        · rw [if_pos hdigit]
          exact .inl rfl

def decimalValue (whole frac : Text) : ℚ := numberOf whole + numberOf frac / 10 ^ frac.length

/-- The amount is the value of the number in units of `10 ^ -8`. -/
theorem decimalValue_mul {whole frac : Text} (hlen : frac.length ≤ 8) :
    decimalValue whole frac * 10 ^ 8 =
      (((numberOf whole : Int) * coin + (numberOf frac * 10 ^ (8 - frac.length) : Nat) : Int) : ℚ) := by
  have hpow : (10 : ℚ) ^ 8 = 10 ^ frac.length * 10 ^ (8 - frac.length) := by
    rw [← pow_add, Nat.add_sub_cancel' hlen]
  have hcoin : (coin : ℚ) = 10 ^ 8 := by
    rw [coin]
    norm_num
  have hfrac : (numberOf frac : ℚ) / 10 ^ frac.length * 10 ^ 8 =
      numberOf frac * 10 ^ (8 - frac.length) := by
    rw [hpow]
    field_simp
  rw [decimalValue, add_mul, hfrac]
  push_cast
  rw [hcoin]

theorem fraction_lt {frac : Text} (hfrac : ∀ c ∈ frac, isDigit c = true) (hlen : frac.length ≤ 8) :
    numberOf frac * 10 ^ (8 - frac.length) < 10 ^ 8 := by
  calc numberOf frac * 10 ^ (8 - frac.length) < 10 ^ frac.length * 10 ^ (8 - frac.length) :=
        Nat.mul_lt_mul_of_pos_right (numberOf_lt hfrac) (Nat.pow_pos (by decide))
    _ = 10 ^ 8 := by rw [← pow_add, Nat.add_sub_cancel' hlen]

/-- After the first loop only the rest and the length of the whole number can be refused. -/
theorem parseMoney_of_decimal {str whole frac rest : Text} (hwhole : ∀ c ∈ whole, isDigit c = true)
    (hfrac : ∀ c ∈ frac, isDigit c = true) (hlen : frac.length ≤ 8)
    (hparse : parseDecimal [] ((cStr str).dropWhile isSpace) =
      .ok (whole, (numberOf frac * 10 ^ (8 - frac.length) : Nat), rest)) :
    parseMoney str = if rest.all isSpace = true ∧ whole.length ≤ 10 then
      .ok (numberOf whole * coin + (numberOf frac * 10 ^ (8 - frac.length) : Nat))
      else .error .refused := by
  have hunits := fraction_lt hfrac hlen
  generalize numberOf frac * 10 ^ (8 - frac.length) = nUnits at hparse hunits ⊢
  have hcoin : coin = 100000000 := rfl
  unfold parseMoney
  rw [hparse]
  simp only [bind, Except.bind]
  by_cases hrest : rest.all isSpace = true
  · by_cases h10 : whole.length ≤ 10
    · have hnumber : numberOf whole < 10 ^ 10 :=
        (numberOf_lt hwhole).trans_le (Nat.pow_le_pow_right (by decide) h10)
      have hcoins : 0 ≤ (numberOf whole : Int) * coin ∧ (numberOf whole : Int) * coin < 10 ^ 18 := by
        rw [hcoin]
        omega
      have hmul : mul64 MoneyError.overflow (numberOf whole) coin = .ok (numberOf whole * coin) :=
        mul64_of_range (by constructor <;> omega)
      have hadd : add64 MoneyError.overflow (numberOf whole * coin) nUnits =
          .ok (numberOf whole * coin + nUnits) :=
        add64_of_range (by constructor <;> omega)
      have hrange : decide (0 ≤ (nUnits : Int) ∧ (nUnits : Int) ≤ coin) = true :=
        decide_eq_true (by omega)
      simp only [require, hrest, h10, hrange, decide_true, if_true, atoi64_digits hwhole h10, hmul,
        hadd, and_self]
    · simp only [require, hrest, h10, decide_false, if_true, and_false, if_false]
      rfl
  · rw [Bool.not_eq_true] at hrest
    simp only [require, hrest, Bool.false_eq_true, if_false, false_and]

/-- What is accepted is a decimal number between white space; the amount is its value, and no
computation leaves the range of an `int64`. -/
theorem parseMoney_spec (str : Text) :
    parseMoney str ≠ .error .overflow ∧
    ∀ n, parseMoney str = .ok n → ∃ before text after whole frac,
      cStr str = before ++ text ++ after ∧ (∀ c ∈ before, isSpace c = true) ∧
      (∀ c ∈ after, isSpace c = true) ∧ IsDecimal text whole frac ∧
      (n : ℚ) = decimalValue whole frac * 10 ^ 8 := by
  rcases parseDecimal_spec [] ((cStr str).dropWhile isSpace) with
    hrefused | ⟨text, whole, frac, rest, htext, hdec, hlen, hparse⟩
  · have hparse : parseMoney str = .error .refused := by
      unfold parseMoney
      rw [hrefused]
      rfl
    rw [hparse]
    exact ⟨by decide, fun n hn => by cases hn⟩
  · rw [List.nil_append] at hparse
    rw [parseMoney_of_decimal hdec.digitsWhole hdec.digitsFrac hlen hparse]
    split
    · rename_i hok
      refine ⟨fun h => (by cases h), fun n hn => ?_⟩
      obtain rfl := Except.ok.inj hn
      refine ⟨(cStr str).takeWhile isSpace, text, rest, whole, frac, ?_, ?_, ?_, hdec, ?_⟩
      · rw [List.append_assoc, ← htext, List.takeWhile_append_dropWhile]
      · exact fun c hc => List.mem_takeWhile_imp hc
      · exact List.all_eq_true.mp hok.1
      · rw [decimalValue_mul hlen]
    · exact ⟨by decide, fun n hn => by cases hn⟩

/-! ## What `FormatMoney` writes -/

theorem length_decimal_le {n k : Nat} (hk : 0 < k) (h : n < 10 ^ k) : (decimal n).length ≤ k := by
  induction n using decimal.induct generalizing k with
  | case1 n hn =>
    rw [decimal, if_pos hn]
    exact hk
  | case2 n hn ih =>
    obtain ⟨j, rfl⟩ : ∃ j, k = j + 1 := ⟨k - 1, by omega⟩
    have hj : 0 < j := by
      by_contra h0
      obtain rfl : j = 0 := by omega
      exact hn (by simpa using h)
    rw [decimal, if_neg hn, List.length_append]
    exact Nat.succ_le_succ (ih hj (by rw [pow_succ] at h; omega))

theorem numberOf_zeros (k : Nat) : numberOf (List.replicate k 48) = 0 := by
  induction k with
  | zero => rfl
  | succ k ih =>
    rw [List.replicate_succ, numberOf_cons, ih]
    exact Nat.zero_mul _

theorem decimal08_spec {n : Nat} (h : n < 10 ^ 8) : (decimal08 n).length = 8 ∧
    numberOf (decimal08 n) = n ∧ ∀ c ∈ decimal08 n, isDigit c = true := by
  have hlen := length_decimal_le (by decide) h
  refine ⟨?_, ?_, ?_⟩
  · rw [decimal08, List.leftpad, List.length_append, List.length_replicate]
    omega
  · rw [decimal08, List.leftpad, numberOf_append, numberOf_zeros, numberOf_decimal, Nat.zero_mul,
      Nat.zero_add]
  · intro c hc
    rcases List.mem_append.mp hc with hc | hc
    · rw [List.eq_of_mem_replicate hc]
      rfl
    · exact isDigit_of_mem_decimal n c hc

/-- The zeros that go are at the end of the fraction, and two places stay. -/
theorem trimmedZeros_spec (rev s : Text) (h : 2 ≤ rev.length) :
    ∃ kept, rev = List.replicate (trimmedZeros (rev ++ 46 :: s)) 48 ++ kept ∧ 2 ≤ kept.length := by
  induction rev with
  | nil => exact absurd h (by decide)
  | cons c rev ih =>
    match rev, ih with
    | [], _ => exact absurd h (Nat.not_succ_le_self 1)
    | [d], _ =>
      refine ⟨[c, d], ?_, le_refl 2⟩
      have hnot : ¬ (c = 48 ∧ isDigit 46 = true) := fun hand => absurd hand.2 (by decide)
      rw [List.cons_append, List.cons_append, List.nil_append, trimmedZeros, if_neg hnot]
      rfl
    | d :: e :: rev, ih =>
      rw [List.cons_append, List.cons_append, List.cons_append, trimmedZeros]
      split
      · rename_i hzero
        obtain ⟨kept, hkept, hlen⟩ := ih (by simp)
        refine ⟨kept, ?_, hlen⟩
        rw [List.replicate_succ, List.cons_append, hzero.1]
        exact congrArg (48 :: ·) hkept
      · exact ⟨c :: d :: e :: rev, rfl, h⟩

/-- A formatted amount has two to eight places, and no digit but zeros is missing. -/
theorem formatMoney_eq {n : Int} (h0 : 0 ≤ n) : ∃ frac,
    formatMoney n false = decimal (n.natAbs / 100000000) ++ 46 :: frac ∧
    (∀ c ∈ frac, isDigit c = true) ∧ 2 ≤ frac.length ∧ frac.length ≤ 8 ∧
    numberOf frac * 10 ^ (8 - frac.length) = n.natAbs % 100000000 := by
  generalize hq : decimal (n.natAbs / 100000000) = whole
  have hr : n.natAbs % 100000000 < 10 ^ 8 := Nat.mod_lt _ (by decide)
  obtain ⟨hlen, hnumber, hdigits⟩ := decimal08_spec hr
  generalize hd : decimal08 (n.natAbs % 100000000) = d at hlen hnumber hdigits
  obtain ⟨kept, hkept, htwo⟩ := trimmedZeros_spec d.reverse whole.reverse (by
    rw [List.length_reverse]
    omega)
  have hreverse : (whole ++ [46] ++ d).reverse = d.reverse ++ 46 :: whole.reverse := by simp
  generalize htrim : trimmedZeros (d.reverse ++ 46 :: whole.reverse) = nTrim at hkept
  have hsplit : d = kept.reverse ++ List.replicate nTrim 48 := by
    rw [← List.reverse_reverse d, hkept, List.reverse_append, List.reverse_replicate]
  have hlens : kept.length + nTrim = 8 := by
    rw [hsplit, List.length_append, List.length_reverse, List.length_replicate] at hlen
    exact hlen
  refine ⟨kept.reverse, ?_, ?_, ?_, ?_, ?_⟩
  · have htake : (whole ++ [46] ++ d).take ((whole ++ [46] ++ d).length - nTrim) =
        whole ++ 46 :: kept.reverse := by
      have hassoc : whole ++ [46] ++ d =
          (whole ++ 46 :: kept.reverse) ++ List.replicate nTrim 48 := by
        rw [hsplit]
        simp
      rw [hassoc, List.length_append, List.length_replicate, Nat.add_sub_cancel, List.take_left]
    unfold formatMoney
    dsimp only
    rw [hq, hd, hreverse, htrim, htake, if_neg (by omega), if_neg (by simp)]
  · intro c hc
    exact hdigits c (hsplit ▸ List.mem_append_left _ hc)
  · rw [List.length_reverse]
    exact htwo
  · rw [List.length_reverse]
    omega
  · rw [hsplit, numberOf_append, numberOf_zeros, List.length_replicate, Nat.add_zero] at hnumber
    rw [← hnumber, List.length_reverse]
    congr 2
    omega

/-! ## The round trip -/

theorem digit_ne_zero {c : UInt8} (h : isDigit c = true) : c ≠ 0 := by
  rintro rfl
  exact absurd h (by decide)

/-- The first loop takes a decimal number of at most eight places to its end. -/
theorem parseDecimal_digits (strWhole : Text) {whole frac : Text}
    (hwhole : ∀ c ∈ whole, isDigit c = true) (hfrac : ∀ c ∈ frac, isDigit c = true)
    (hlen : frac.length ≤ 8) :
    parseDecimal strWhole (whole ++ 46 :: frac) =
      .ok (strWhole ++ whole, (numberOf frac * 10 ^ (8 - frac.length) : Nat), []) := by
  induction whole generalizing strWhole with
  | nil =>
    obtain ⟨read, rest, hsplit, hread, hreadlen, hrest, hparse⟩ :=
      parseFraction_spec (m := 8) 0 frac (le_refl 0) (by decide)
    have hnil : rest = [] := by
      cases rest with
      | nil => rfl
      | cons c rest =>
        have hc := hfrac c (hsplit ▸ List.mem_append_right _ List.mem_cons_self)
        have hshort : read.length < 8 := by
          rw [hsplit, List.length_append, List.length_cons] at hlen
          omega
        exact absurd hc (Bool.eq_false_iff.mp (hrest hshort c rfl))
    subst hnil
    rw [List.append_nil] at hsplit
    subst hsplit
    have hmult : cent * 10 = fracMult 8 := by decide
    rw [List.nil_append, parseDecimal, if_pos rfl, hmult, hparse, zero_add, List.append_nil]
    rfl
  | cons c whole ih =>
    obtain ⟨hc, hwhole⟩ := List.forall_mem_cons.mp hwhole
    have hpoint : c ≠ 46 := by
      rintro rfl
      exact absurd hc (by decide)
    rw [List.cons_append, parseDecimal, if_neg hpoint, if_neg (by simp [(digit_not_special hc).1]),
      if_neg (not_not.mpr hc), ih _ hwhole, List.append_assoc, List.singleton_append]

theorem cStr_eq_self {str : Text} (h : ∀ c ∈ str, c ≠ 0) : cStr str = str :=
  List.takeWhile_eq_self_iff.mpr fun c hc => decide_eq_true (h c hc)

theorem parseMoney_formatMoney_eq {n : Int} (h0 : 0 ≤ n) (hmax : n ≤ maxMoney) :
    parseMoney (formatMoney n false) = .ok n := by
  obtain ⟨frac, hformat, hfrac, -, hlen, hvalue⟩ := formatMoney_eq h0
  have hwhole := isDigit_of_mem_decimal (n.natAbs / 100000000)
  have hne := decimal_ne_nil (n.natAbs / 100000000)
  have hten : (decimal (n.natAbs / 100000000)).length ≤ 10 := by
    have := maxMoney_eq
    exact length_decimal_le (by decide) (by omega)
  have hnumber := numberOf_decimal (n.natAbs / 100000000)
  generalize decimal (n.natAbs / 100000000) = whole at hformat hwhole hne hten hnumber
  have hstr : cStr (whole ++ 46 :: frac) = whole ++ 46 :: frac := by
    refine cStr_eq_self fun c hc => ?_
    rcases List.mem_append.mp hc with hc | hc
    · exact digit_ne_zero (hwhole c hc)
    · rcases List.mem_cons.mp hc with rfl | hc
      · decide
      · exact digit_ne_zero (hfrac c hc)
  have hdrop : (whole ++ 46 :: frac).dropWhile isSpace = whole ++ 46 :: frac := by
    obtain ⟨c, whole, rfl⟩ := List.exists_cons_of_ne_nil hne
    have hspace := (digit_not_special (hwhole c List.mem_cons_self)).1
    exact List.dropWhile_cons_of_neg (by simp [hspace])
  have hparse := parseDecimal_digits [] hwhole hfrac hlen
  rw [List.nil_append] at hparse
  rw [hformat, parseMoney_of_decimal hwhole hfrac hlen (by rw [hstr, hdrop]; exact hparse),
    if_pos ⟨rfl, hten⟩, hnumber, hvalue]
  have hcoin : coin = 100000000 := rfl
  rw [hcoin]
  congr 1
  omega

/-- An amount is read back from its text, and every text that is accepted is a decimal number
between white space whose value is the amount, computed without leaving the range of an `int64`. -/
theorem parseMoney_exact :
    (∀ n, 0 ≤ n → n ≤ maxMoney → parseMoney (formatMoney n false) = .ok n) ∧
    ∀ str, parseMoney str ≠ .error .overflow ∧
      ∀ n, parseMoney str = .ok n → ∃ before text after whole frac,
        cStr str = before ++ text ++ after ∧ (∀ c ∈ before, isSpace c = true) ∧
        (∀ c ∈ after, isSpace c = true) ∧ IsDecimal text whole frac ∧
        (n : ℚ) = decimalValue whole frac * 10 ^ 8 :=
  ⟨fun _ h0 hmax => parseMoney_formatMoney_eq h0 hmax, parseMoney_spec⟩

end Terracoin
