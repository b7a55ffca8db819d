import Terracoin.Lib.Radix
import Terracoin.Script.Numbers
import Terracoin.Serialize.Text

/-!
# Base 58

`EncodeBase58` and `DecodeBase58` of `base58.h`, by way of `CBigNum`. Both write a number in another
base and keep the leading zeros, so each undoes the other (`base58_round_trip`).
-/

namespace Terracoin

open Radix

/-! ## The functions -/

/-- `pszBase58`: the digits from 1 on, the capital letters without `I` and `O`, and the small letters
without `l`. -/
def pszBase58 : List UInt8 :=
  (List.range' 49 9 ++ List.range' 65 8 ++ List.range' 74 5 ++ List.range' 80 11 ++
    List.range' 97 11 ++ List.range' 109 14).map UInt8.ofNat

/-- The loop of `EncodeBase58`: `rem` and then the rest of `bn`. -/
def base58Loop (bn : Int) : List Nat :=
  if 0 < bn then (bn % 58).toNat :: base58Loop (bn / 58) else []
termination_by bn.toNat
decreasing_by omega

/-- `EncodeBase58`. -/
def encodeBase58 (v : List UInt8) : Text :=
  let vchTmp := v.reverse ++ [0]
  let bn := CBigNum.setVch vchTmp
  let str := (base58Loop bn).map (pszBase58.getD · 0)
  let str := str ++ List.replicate (v.takeWhile (· = 0)).length (pszBase58.getD 0 0)
  str.reverse

/-- `strchr(pszBase58, c) - pszBase58`, for a character that is not NUL. -/
def base58Index (c : UInt8) : Option Nat :=
  if c ∈ pszBase58 then some (pszBase58.idxOf c) else none

/-- The loop of `DecodeBase58`: white space at the first other character has to go on to the end. -/
def decodeBase58Loop : Int → Text → Option Int
  | bn, [] => some bn
  | bn, c :: p =>
    match base58Index c with
    | none => if (c :: p).dropWhile isSpace = [] then some bn else none
    | some n => decodeBase58Loop (bn * 58 + n) p

def trimSignByte (vchTmp : List UInt8) : List UInt8 :=
  if 2 ≤ vchTmp.length ∧ vchTmp.getD (vchTmp.length - 1) 0 = 0 ∧
      128 ≤ vchTmp.getD (vchTmp.length - 2) 0 then vchTmp.dropLast
  else vchTmp

/-- `DecodeBase58`, of the C string that a string is. -/
def decodeBase58 (str : Text) : Option (List UInt8) := do
  let psz := (cStr str).dropWhile isSpace
  let bn ← decodeBase58Loop 0 psz
  let vchTmp := trimSignByte (CBigNum.getVch bn)
  let nLeadingZeros := (psz.takeWhile (· = pszBase58.getD 0 0)).length
  pure (List.replicate nLeadingZeros 0 ++ vchTmp.reverse)

/-! ## The bytes of a number -/

theorem unsigned_eq (vch : valtype) :
    CBigNum.unsigned vch = Nat.ofDigits 256 (vch.map UInt8.toNat) := by
  induction vch with
  | nil => rfl
  | cons b vch ih =>
    rw [CBigNum.unsigned, List.map_cons, Nat.ofDigits_cons, ih]

theorem unsigned_append_zero (vch : valtype) :
    CBigNum.unsigned (vch ++ [0]) = CBigNum.unsigned vch := by
  rw [unsigned_eq, unsigned_eq, List.map_append]
  exact Nat.ofDigits_append_zero _

theorem setVch_reverse (v : List UInt8) :
    CBigNum.setVch (v.reverse ++ [0]) = bigValue 256 (v.map UInt8.toNat) := by
  have hlt := CBigNum.unsigned_lt v.reverse
  have hle : 2 ^ (8 * v.reverse.length) ≤ 2 ^ (8 * (v.reverse ++ [0]).length - 1) :=
    Nat.pow_le_pow_right (by decide) (by rw [List.length_append, List.length_singleton]; omega)
  rw [CBigNum.setVch, unsigned_append_zero, if_pos (by omega), unsigned_eq, bigValue,
    List.map_reverse]

theorem numBytes_div {n : Nat} (h : 0 < n) : numBytes n = numBytes (n / 256) + 1 := by
  have hpow : ∀ k, (2 : Nat) ^ (8 * (k + 1)) = 2 ^ (8 * k) * 256 := fun k => by
    rw [Nat.mul_succ, pow_add]
    rfl
  refine le_antisymm (numBytes_le_iff.mpr ?_) ?_
  · have hlt := numBytes_le_iff.mp (le_refl (numBytes (n / 256)))
    rw [hpow]
    omega
  · obtain ⟨k, hk⟩ : ∃ k, numBytes n = k + 1 :=
      ⟨numBytes n - 1, (Nat.succ_pred_eq_of_pos (lt_numBytes_iff.mpr h)).symm⟩
    have hlt := numBytes_le_iff.mp hk.le
    rw [hpow] at hlt
    have hle : numBytes (n / 256) ≤ k := numBytes_le_iff.mpr (Nat.div_lt_of_lt_mul (by omega))
    omega

theorem littleEndian_numBytes (n : Nat) :
    littleEndian (numBytes n) n = (Nat.digits 256 n).map UInt8.ofNat := by
  induction n using Nat.strongRecOn with
  | ind n ih =>
    rcases Nat.eq_zero_or_pos n with rfl | hpos
    · rw [Nat.digits_zero]
      rfl
    · rw [numBytes_div hpos, littleEndian, Nat.digits_def' (by decide) hpos, List.map_cons,
        ih (n / 256) (Nat.div_lt_self hpos (by decide))]

theorem littleEndian_getD {k i n : Nat} (h : i < k) :
    (littleEndian k n).getD i 0 = UInt8.ofNat (n / 256 ^ i % 256) := by
  induction k generalizing i n with
  | zero => exact absurd h (Nat.not_lt_zero i)
  | succ k ih =>
    cases i with
    | zero => rw [littleEndian, List.getD_cons_zero, pow_zero, Nat.div_one]
    | succ i =>
      rw [littleEndian, List.getD_cons_succ, ih (Nat.lt_of_succ_lt_succ h), Nat.div_div_eq_div_mul,
        pow_succ']

theorem littleEndian_concat (k n : Nat) :
    littleEndian (k + 1) n = littleEndian k n ++ [UInt8.ofNat (n / 256 ^ k % 256)] := by
  induction k generalizing n with
  | zero =>
    rw [pow_zero, Nat.div_one]
    rfl
  | succ k ih =>
    rw [littleEndian, ih, littleEndian, List.cons_append, Nat.div_div_eq_div_mul, pow_succ']

theorem div_two_pow_lt {n j : Nat} (h : n < 2 ^ (8 * (j + 1))) : n / 2 ^ (8 * j) < 256 := by
  rw [Nat.div_lt_iff_lt_mul (Nat.two_pow_pos _)]
  rw [Nat.mul_succ, pow_add] at h
  omega

/-- Without the sign byte, `getvch` gives the bytes of the number. -/
theorem trimSignByte_getVch (n : Nat) :
    trimSignByte (CBigNum.getVch n) = (Nat.digits 256 n).map UInt8.ofNat := by
  have hpow : ∀ k, (256 : Nat) ^ k = 2 ^ (8 * k) := fun k => by
    rw [pow_mul]
    rfl
  have hlt := numBytes_le_iff.mp (le_refl (numBytes n))
  rw [← littleEndian_numBytes, CBigNum.getVch, Int.natAbs_natCast,
    if_neg (show ¬ (n : Int) < 0 by omega)]
  generalize hk : numBytes n = k at hlt
  split
  · -- the top bit is free, and the last byte is not zero
    rename_i hfree
    rw [trimSignByte, if_neg]
    rintro ⟨htwo, hlast, -⟩
    rw [length_littleEndian] at htwo hlast
    obtain ⟨j, rfl⟩ : ∃ j, k = j + 1 := ⟨k - 1, by omega⟩
    have hlow : 2 ^ (8 * j) ≤ n := lt_numBytes_iff.mp (by omega)
    rw [littleEndian_getD (by omega), Nat.add_sub_cancel, hpow, ← UInt8.toNat_inj,
      UInt8.toNat_ofNat'] at hlast
    have hdiv : 0 < n / 2 ^ (8 * j) := Nat.div_pos hlow (Nat.two_pow_pos _)
    have hdivlt := div_two_pow_lt hlt
    have hzero : (0 : UInt8).toNat = 0 := rfl
    omega
  · rename_i htop
    have hpos : 0 < k := by
      rcases Nat.eq_zero_or_pos k with rfl | hpos
      · exact absurd hlt (by simpa using htop)
      · exact hpos
    obtain ⟨j, rfl⟩ : ∃ j, k = j + 1 := ⟨k - 1, by omega⟩
    have hhigh : 128 * 2 ^ (8 * j) ≤ n := by
      have hsub : (2 : Nat) ^ (8 * (j + 1) - 1) = 128 * 2 ^ (8 * j) := by
        rw [show 8 * (j + 1) - 1 = 7 + 8 * j by omega, pow_add]
        rfl
      omega
    have hdiv : 128 ≤ n / 2 ^ (8 * j) :=
      (Nat.le_div_iff_mul_le (Nat.two_pow_pos _)).mpr hhigh
    have hdivlt := div_two_pow_lt hlt
    have hnext : n / 256 ^ (j + 1) % 256 = 0 := by
      rw [hpow, Nat.div_eq_of_lt hlt]
    rw [trimSignByte, length_littleEndian, if_pos]
    · rw [littleEndian_concat, List.dropLast_concat]
    · refine ⟨by omega, ?_, ?_⟩
      · rw [littleEndian_getD (by omega), Nat.add_sub_cancel, hnext]
        rfl
      · rw [littleEndian_getD (by omega), show j + 1 + 1 - 2 = j by omega, hpow,
          UInt8.le_iff_toNat_le, UInt8.toNat_ofNat']
        have h128 : (128 : UInt8).toNat = 128 := rfl
        omega

/-! ## Encoding -/

theorem base58Loop_eq (n : Nat) : base58Loop n = Nat.digits 58 n := by
  induction n using Nat.strongRecOn with
  | ind n ih =>
    rcases Nat.eq_zero_or_pos n with rfl | hpos
    · rw [base58Loop, if_neg (by decide), Nat.digits_zero]
    · have hrest := ih (n / 58) (Nat.div_lt_self hpos (by decide))
      have hmod : ((n : Int) % 58).toNat = n % 58 := by omega
      rw [base58Loop, if_pos (by omega), Nat.digits_def' (by decide) hpos, hmod, ← hrest]
      rfl

theorem leadingZeros_bytes (v : List UInt8) :
    leadingZeros (v.map UInt8.toNat) = (v.takeWhile (· = 0)).length := by
  rw [leadingZeros, List.takeWhile_map, List.length_map]
  congr 2
  funext b
  exact decide_eq_decide.mpr (UInt8.toNat_inj (b := 0))

theorem encodeBase58_eq (v : List UInt8) :
    encodeBase58 v = (convert 256 58 (v.map UInt8.toNat)).map (pszBase58.getD · 0) := by
  rw [encodeBase58, setVch_reverse, base58Loop_eq, List.reverse_append, List.reverse_replicate,
    convert, List.map_append, List.map_replicate, leadingZeros_bytes, bigDigits, List.map_reverse]

theorem pszBase58_getD : ∀ d < 58, pszBase58.getD d 0 ∈ pszBase58 ∧
    pszBase58.idxOf (pszBase58.getD d 0) = d := by
  decide +kernel

theorem pszBase58_idxOf : ∀ c ∈ pszBase58, pszBase58.idxOf c < 58 ∧
    pszBase58.getD (pszBase58.idxOf c) 0 = c := by
  decide +kernel

theorem not_mem_pszBase58 (c : UInt8) (hc : isSpace c ∨ c = 0) : c ∉ pszBase58 := by
  intro hmem
  obtain ⟨n, hn, rfl⟩ := List.mem_map.mp hmem
  have hall : ∀ n ∈ List.range' 49 9 ++ List.range' 65 8 ++ List.range' 74 5 ++ List.range' 80 11 ++
      List.range' 97 11 ++ List.range' 109 14, 49 ≤ n ∧ n < 123 := by decide
  obtain ⟨hle, hlt⟩ := hall n hn
  have hnat : (UInt8.ofNat n).toNat = n := UInt8.toNat_ofNat_of_lt' (show n < 256 by omega)
  have hsmall : (UInt8.ofNat n).toNat ≤ 32 := by
    rcases hc with hspace | h0
    · exact isSpace_le hspace
    · rw [h0]
      exact Nat.zero_le 32
  omega

/-! ## Decoding -/

/-- The digits that characters stand for. -/
def base58Digits (text : Text) : List Nat := text.map pszBase58.idxOf

theorem base58Digits_lt {text : Text} (h : ∀ c ∈ text, c ∈ pszBase58) :
    ∀ d ∈ base58Digits text, d < 58 := by
  intro d hd
  obtain ⟨c, hc, rfl⟩ := List.mem_map.mp hd
  exact (pszBase58_idxOf c (h c hc)).1

theorem map_base58Digits {text : Text} (h : ∀ c ∈ text, c ∈ pszBase58) :
    (base58Digits text).map (pszBase58.getD · 0) = text := by
  rw [base58Digits, List.map_map]
  conv_rhs => rw [← List.map_id text]
  exact List.map_congr_left (fun c hc => (pszBase58_idxOf c (h c hc)).2)

theorem base58Digits_map {digits : List Nat} (h : ∀ d ∈ digits, d < 58) :
    base58Digits (digits.map (pszBase58.getD · 0)) = digits := by
  rw [base58Digits, List.map_map]
  conv_rhs => rw [← List.map_id digits]
  exact List.map_congr_left (fun d hd => (pszBase58_getD d (h d hd)).2)

theorem decodeBase58Loop_append {text : Text} (h : ∀ c ∈ text, c ∈ pszBase58)
    (digits : List Nat) (rest : Text) :
    decodeBase58Loop (bigValue 58 digits) (text ++ rest)
      = decodeBase58Loop (bigValue 58 (digits ++ base58Digits text)) rest := by
  induction text generalizing digits with
  | nil => rw [base58Digits, List.map_nil, List.append_nil, List.nil_append]
  | cons c text ih =>
    obtain ⟨hc, htext⟩ := List.forall_mem_cons.mp h
    have hnext := ih htext (digits ++ [pszBase58.idxOf c])
    rw [bigValue_concat, List.append_assoc] at hnext
    rw [List.cons_append, decodeBase58Loop, base58Index, if_pos hc]
    exact_mod_cast hnext

theorem decodeBase58Loop_spaces {after : Text} (h : ∀ c ∈ after, isSpace c) (bn : Int) :
    decodeBase58Loop bn after = some bn := by
  cases after with
  | nil => rfl
  | cons c p =>
    have hc := not_mem_pszBase58 c (Or.inl (h c List.mem_cons_self))
    rw [decodeBase58Loop, base58Index, if_neg hc]
    exact if_pos (List.dropWhile_eq_nil_iff.mpr h)

theorem exists_of_decodeBase58Loop {bn bn' : Int} {psz : Text}
    (h : decodeBase58Loop bn psz = some bn') : ∃ text after, psz = text ++ after ∧
      (∀ c ∈ text, c ∈ pszBase58) ∧ ∀ c ∈ after, isSpace c := by
  induction psz generalizing bn with
  | nil => exact ⟨[], [], rfl, List.forall_mem_nil _, List.forall_mem_nil _⟩
  | cons c p ih =>
    by_cases hc : c ∈ pszBase58
    · rw [decodeBase58Loop, base58Index, if_pos hc] at h
      obtain ⟨text, after, rfl, htext, hafter⟩ := ih h
      exact ⟨c :: text, after, rfl, List.forall_mem_cons.mpr ⟨hc, htext⟩, hafter⟩
    · rw [decodeBase58Loop, base58Index, if_neg hc] at h
      refine ⟨[], c :: p, rfl, List.forall_mem_nil _, ?_⟩
      by_contra hspace
      have hnone := h.symm.trans (if_neg (fun hnil => hspace (List.dropWhile_eq_nil_iff.mp hnil)))
      exact Option.some_ne_none _ hnone

/-- The leading characters `1` are the leading zeros. -/
theorem leadingZeros_base58Digits {text after : Text} (h : ∀ c ∈ text, c ∈ pszBase58)
    (hafter : ∀ c ∈ after, isSpace c) :
    ((text ++ after).takeWhile (· = pszBase58.getD 0 0)).length
      = leadingZeros (base58Digits text) := by
  induction text with
  | nil =>
    cases after with
    | nil => rfl
    | cons c after =>
      have hc : c ≠ pszBase58.getD 0 0 := by
        rintro rfl
        exact not_mem_pszBase58 _ (Or.inl (hafter _ List.mem_cons_self))
          (pszBase58_getD 0 (by decide)).1
      rw [List.nil_append, List.takeWhile_cons_of_neg (by simpa using hc)]
      rfl
  | cons c text ih =>
    obtain ⟨hc, htext⟩ := List.forall_mem_cons.mp h
    obtain ⟨-, hchar⟩ := pszBase58_idxOf c hc
    have hone := (pszBase58_getD 0 (by decide)).2
    rw [List.cons_append, base58Digits, List.map_cons, leadingZeros]
    by_cases hzero : pszBase58.idxOf c = 0
    · rw [hzero] at hchar
      rw [List.takeWhile_cons_of_pos (by simpa using hchar.symm),
        List.takeWhile_cons_of_pos (by simpa using hzero), List.length_cons, List.length_cons,
        ih htext]
      rfl
    · have hne : c ≠ pszBase58.getD 0 0 := by
        rintro rfl
        exact hzero hone
      rw [List.takeWhile_cons_of_neg (by simpa using hne),
        List.takeWhile_cons_of_neg (by simpa using hzero)]
      rfl

/-- A string as `DecodeBase58` takes it: digits between white space. -/
structure IsBase58 (str before text after : Text) : Prop where
  eq : cStr str = before ++ text ++ after
  before_space : ∀ c ∈ before, isSpace c
  text_mem : ∀ c ∈ text, c ∈ pszBase58
  after_space : ∀ c ∈ after, isSpace c

theorem IsBase58.exists_dropWhile {str before text after : Text}
    (h : IsBase58 str before text after) : ∃ rest,
      (cStr str).dropWhile isSpace = text ++ rest ∧ ∀ c ∈ rest, isSpace c := by
  rw [h.eq, List.append_assoc, List.dropWhile_append_of_pos h.before_space]
  cases text with
  | nil =>
    refine ⟨[], ?_, List.forall_mem_nil _⟩
    exact List.dropWhile_eq_nil_iff.mpr h.after_space
  | cons c text =>
    refine ⟨after, ?_, h.after_space⟩
    have hc : ¬ isSpace c := fun hspace =>
      not_mem_pszBase58 c (Or.inl hspace) (h.text_mem c List.mem_cons_self)
    rw [List.cons_append, List.dropWhile_cons_of_neg hc]

theorem IsBase58.decode {str before text after : Text} (h : IsBase58 str before text after) :
    decodeBase58 str = some ((convert 58 256 (base58Digits text)).map UInt8.ofNat) := by
  obtain ⟨rest, hpsz, hrest⟩ := h.exists_dropWhile
  have hloop := decodeBase58Loop_append h.text_mem [] rest
  rw [decodeBase58Loop_spaces hrest, bigValue_nil, List.nil_append] at hloop
  rw [decodeBase58, hpsz]
  change (decodeBase58Loop ((0 : Nat) : Int) (text ++ rest)).bind _ = _
  rw [hloop, Option.bind_some, trimSignByte_getVch, leadingZeros_base58Digits h.text_mem hrest,
    convert, List.map_append, List.map_replicate, bigDigits, List.map_reverse]
  rfl

theorem exists_isBase58 {str : Text} (h : (decodeBase58 str).isSome) :
    ∃ before text after, IsBase58 str before text after := by
  rw [decodeBase58] at h
  cases hloop : decodeBase58Loop 0 ((cStr str).dropWhile isSpace) with
  | none =>
    rw [hloop] at h
    cases h
  | some bn =>
    obtain ⟨text, after, hpsz, htext, hafter⟩ := exists_of_decodeBase58Loop hloop
    refine ⟨(cStr str).takeWhile isSpace, text, after, ?_, fun c hc => List.mem_takeWhile_imp hc,
      htext, hafter⟩
    rw [List.append_assoc, ← hpsz, List.takeWhile_append_dropWhile]

theorem isBase58_encodeBase58 (v : List UInt8) : IsBase58 (encodeBase58 v) [] (encodeBase58 v) [] := by
  have hmem : ∀ c ∈ encodeBase58 v, c ∈ pszBase58 := by
    intro c hc
    rw [encodeBase58_eq] at hc
    obtain ⟨d, hd, rfl⟩ := List.mem_map.mp hc
    exact (pszBase58_getD d (convert_lt (by decide) d hd)).1
  refine ⟨?_, List.forall_mem_nil _, hmem, List.forall_mem_nil _⟩
  rw [List.nil_append, List.append_nil, cStr, List.takeWhile_eq_self_iff]
  intro c hc
  have hc0 : c ≠ 0 := fun h0 => not_mem_pszBase58 c (Or.inr h0) (hmem c hc)
  simpa using hc0

theorem IsBase58.encode {str before text after : Text} {v : List UInt8}
    (h : IsBase58 str before text after) (hv : decodeBase58 str = some v) :
    encodeBase58 v = text := by
  rw [h.decode] at hv
  obtain rfl := Option.some.inj hv
  have hbytes : ((convert 58 256 (base58Digits text)).map UInt8.ofNat).map UInt8.toNat
      = convert 58 256 (base58Digits text) := by
    rw [List.map_map]
    conv_rhs => rw [← List.map_id (convert 58 256 (base58Digits text))]
    exact List.map_congr_left (fun d hd => UInt8.toNat_ofNat_of_lt' (convert_lt (by decide) d hd))
  rw [encodeBase58_eq, hbytes, convert_convert (by decide) (base58Digits_lt h.text_mem),
    map_base58Digits h.text_mem]

theorem decodeBase58_encodeBase58 (v : List UInt8) : decodeBase58 (encodeBase58 v) = some v := by
  have hlt : ∀ d ∈ v.map UInt8.toNat, d < 256 := fun d hd => by
    obtain ⟨b, -, rfl⟩ := List.mem_map.mp hd
    exact b.toNat_lt
  have hdecode := (isBase58_encodeBase58 v).decode
  rw [hdecode, encodeBase58_eq, base58Digits_map (convert_lt (by decide)),
    convert_convert (by decide) hlt, List.map_map]
  exact congrArg some (List.map_id'' (fun b => UInt8.ofNat_toNat) v)

/-- Decoding undoes encoding, exactly digits between white space are decoded, and encoding gives the
digits again. -/
theorem base58_round_trip :
    (∀ v, decodeBase58 (encodeBase58 v) = some v) ∧
    (∀ str, (decodeBase58 str).isSome ↔ ∃ before text after, IsBase58 str before text after) ∧
    ∀ str before text after v, IsBase58 str before text after → decodeBase58 str = some v →
      encodeBase58 v = text := by
  refine ⟨decodeBase58_encodeBase58, fun str => ⟨exists_isBase58, ?_⟩,
    fun str before text after v h hv => h.encode hv⟩
  rintro ⟨before, text, after, h⟩
  rw [h.decode]
  rfl

end Terracoin
