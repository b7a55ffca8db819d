import Terracoin.Lib.Der
import Terracoin.Script.CheckSig
import Terracoin.Script.Reading
import Terracoin.Serialize.VarIntTypes

/-!
# Canonical signatures

`IsCanonicalSignature` reads offsets in a vector of bytes. What it accepts is the DER encoding of a
sequence of two natural numbers followed by a known hash type, and nothing else; as the encoding of
two numbers is unique, a signature that is accepted has no other form that is.
-/

namespace Terracoin.EvalScript

open CScript Der VarIntType

/-- The signature of the numbers `r` and `s`, in DER. -/
def derSignature (r s : Nat) : List UInt8 :=
  tlv 0x30 (tlv 0x02 (natContents r) ++ tlv 0x02 (natContents s))

/-- One of the hash types, with or without `SIGHASH_ANYONECANPAY`. -/
def KnownHashType (t : UInt8) : Prop :=
  t.toNat % SIGHASH_ANYONECANPAY = SIGHASH_ALL ∨ t.toNat % SIGHASH_ANYONECANPAY = SIGHASH_NONE ∨
    t.toNat % SIGHASH_ANYONECANPAY = SIGHASH_SINGLE

instance (t : UInt8) : Decidable (KnownHashType t) := inferInstanceAs (Decidable (_ ∨ _ ∨ _))

variable {vch vchSig : valtype} {n nLen : Nat}

theorem knownHashType_iff (t : UInt8) :
    KnownHashType t ↔ ¬(t &&& ~~~0x80 < 1 ∨ 3 < t &&& ~~~0x80) := by
  have hmask : (~~~0x80 : UInt8) = 0x7F := by decide
  have hvalue := toNat_and_0x7F t
  rw [hmask, UInt8.lt_iff_toNat_lt, UInt8.lt_iff_toNat_lt, hvalue, KnownHashType]
  change _ ↔ ¬(t.toNat % 128 < 1 ∨ 3 < t.toNat % 128)
  change t.toNat % 128 = 1 ∨ t.toNat % 128 = 2 ∨ t.toNat % 128 = 3 ↔ _
  omega

theorem take_drop_eq_cons (hnLen : nLen ≠ 0) (hn : n < vch.length) :
    (vch.drop n).take nLen = vch[n] :: (vch.drop (n + 1)).take (nLen - 1) := by
  obtain ⟨k, rfl⟩ := Nat.exists_eq_succ_of_ne_zero hnLen
  rw [List.drop_eq_getElem_cons hn, List.take_succ_cons, Nat.succ_sub_one]

/-- The tests of an integer whose bytes are all there read nothing else. -/
theorem isCanonicalInteger_eq (hn : 2 ≤ n) (hlength : n + nLen < vch.length) :
    ∃ ok, isCanonicalInteger vch n nLen = pure ok ∧
      (ok = true ↔ vch[n - 2]? = some 2 ∧ Minimal ((vch.drop n).take nLen)) := by
  have htype : vch[n - 2]? = some vch[n - 2] := List.getElem?_eq_getElem (by omega)
  rw [isCanonicalInteger, index_eq (by omega : n < vch.length), Traced.pure_bind,
    index_eq (by omega : n - 2 < vch.length), Traced.pure_bind, htype, Option.some.injEq]
  by_cases h2 : vch[n - 2] = 2
  swap
  · rw [if_pos h2]
    exact ⟨false, rfl, by simp [h2]⟩
  rw [if_neg (not_not_intro h2)]
  by_cases hzero : nLen = 0
  · rw [if_pos hzero]
    refine ⟨false, rfl, ?_⟩
    simp only [Bool.false_eq_true, false_iff]
    intro h
    apply h.2.ne_nil
    rw [hzero, List.take_zero]
  rw [if_neg hzero, take_drop_eq_cons hzero (by omega)]
  by_cases hhigh : vch[n] &&& 0x80 ≠ 0
  · rw [if_pos hhigh]
    refine ⟨false, rfl, ?_⟩
    simp only [Bool.false_eq_true, false_iff]
    intro h
    exact absurd (h.2.nonneg _ rfl) (Nat.not_lt.mpr ((and_0x80_ne_zero _).mp hhigh))
  rw [if_neg hhigh]
  have hlow : vch[n].toNat < 128 := Nat.lt_of_not_le fun h => hhigh ((and_0x80_ne_zero _).mpr h)
  by_cases hpad : 1 < nLen ∧ vch[n] = 0
  · have hnext : n + 1 < vch.length := by omega
    rw [if_pos hpad, index_eq hnext, Traced.pure_bind,
      take_drop_eq_cons (by omega : nLen - 1 ≠ 0) hnext]
    refine ⟨_, rfl, ?_⟩
    rw [bne_iff_ne, and_0x80_ne_zero]
    constructor
    · intro hsecond
      refine ⟨h2, List.cons_ne_nil _ _, fun b hb => ?_, fun b rest heq => ?_⟩
      · obtain rfl := Option.some.inj hb
        exact hlow
      · rw [← (List.cons.inj (List.cons.inj heq).2).1]
        exact hsecond
    · intro h
      exact h.2.no_padding vch[n + 1] _ (by rw [hpad.2])
  · rw [if_neg hpad]
    refine ⟨true, rfl, ?_⟩
    simp only [true_iff]
    refine ⟨h2, List.cons_ne_nil _ _, fun b hb => ?_, fun b rest heq => ?_⟩
    · obtain rfl := Option.some.inj hb
      exact hlow
    · -- two bytes, and the first is not zero
      exfalso
      obtain ⟨hfirst, hrest⟩ := List.cons.inj heq
      refine hpad ⟨?_, hfirst⟩
      have hcount := congrArg List.length hrest
      rw [List.length_take, List.length_cons] at hcount
      omega

/-! ## The whole signature -/

/-- Two integers with the contents `R` and `S` and a hash type stand where the code reads them. -/
structure Offsets (vchSig : valtype) (R S : List UInt8) (t : UInt8) : Prop where
  length : vchSig.length = R.length + S.length + 7
  type : vchSig[0]? = some 0x30
  nLen : vchSig[1]? = some (UInt8.ofNat (vchSig.length - 3))
  typeR : vchSig[4 - 2]? = some 0x02
  nLenR : vchSig[3]? = some (UInt8.ofNat R.length)
  bytesR : (vchSig.drop 4).take R.length = R
  typeS : vchSig[6 + R.length - 2]? = some 0x02
  nLenS : vchSig[5 + R.length]? = some (UInt8.ofNat S.length)
  bytesS : (vchSig.drop (6 + R.length)).take S.length = S
  last : vchSig[vchSig.length - 1]? = some t

variable {R S : List UInt8} {t : UInt8}

theorem tlv_tlv_append : tlv 0x30 (tlv 0x02 R ++ tlv 0x02 S) ++ [t] =
    [0x30, UInt8.ofNat (R.length + S.length + 4), 0x02, UInt8.ofNat R.length] ++
      (R ++ ([0x02, UInt8.ofNat S.length] ++ (S ++ [t]))) := by
  have hlength : (tlv 0x02 R ++ tlv 0x02 S).length = R.length + S.length + 4 := by
    rw [List.length_append, length_tlv, length_tlv]
    omega
  rw [tlv, hlength]
  simp [tlv]

theorem offsets_of_tlv : Offsets (tlv 0x30 (tlv 0x02 R ++ tlv 0x02 S) ++ [t]) R S t := by
  rw [tlv_tlv_append]
  set v := [0x30, UInt8.ofNat (R.length + S.length + 4), 0x02, UInt8.ofNat R.length] ++
    (R ++ ([0x02, UInt8.ofNat S.length] ++ (S ++ [t]))) with hv
  have hlength : v.length = R.length + S.length + 7 := by
    simp only [hv, List.length_append, List.length_cons, List.length_nil]
    omega
  have hafterR : ∀ k, v[4 + R.length + k]? = ([0x02, UInt8.ofNat S.length] ++ (S ++ [t]))[k]? := by
    intro k
    rw [hv, List.getElem?_append_right (by simp; omega),
      List.getElem?_append_right (by simp; omega)]
    congr 1
    simp
    omega
  have hafterS : v = ([0x30, UInt8.ofNat (R.length + S.length + 4), 0x02, UInt8.ofNat R.length] ++
      R ++ [0x02, UInt8.ofNat S.length]) ++ (S ++ [t]) := by
    simp [hv]
  refine ⟨hlength, rfl, ?_, rfl, rfl, List.take_left, ?_, ?_, ?_, ?_⟩
  · rw [hlength]
    rfl
  · rw [show 6 + R.length - 2 = 4 + R.length + 0 by omega, hafterR]
    rfl
  · rw [show 5 + R.length = 4 + R.length + 1 by omega, hafterR]
    rfl
  · rw [hafterS, List.drop_left' (by simp; omega), List.take_left]
  · rw [hlength, show R.length + S.length + 7 - 1 = 4 + R.length + (S.length + 2) by omega, hafterR]
    exact List.getElem?_concat_length

theorem getElem_eq {v : List UInt8} {i : Nat} {b : UInt8} (h : v[i]? = some b) (hi : i < v.length) :
    v[i] = b :=
  (List.getElem?_eq_some_iff.mp h).2

theorem drop_eq_cons {v : List UInt8} {i : Nat} {b : UInt8} (h : v[i]? = some b) :
    v.drop i = b :: v.drop (i + 1) := by
  obtain ⟨hi, rfl⟩ := List.getElem?_eq_some_iff.mp h
  exact List.drop_eq_getElem_cons hi

theorem drop_eq_append {v part : List UInt8} {i : Nat} (h : (v.drop i).take part.length = part) :
    v.drop i = part ++ v.drop (i + part.length) := by
  conv_lhs => rw [← List.take_append_drop part.length (v.drop i), h, List.drop_drop]

/-- Nothing stands between the two integers and the hash type. -/
theorem Offsets.eq (h : Offsets vchSig R S t) :
    vchSig = tlv 0x30 (tlv 0x02 R ++ tlv 0x02 S) ++ [t] := by
  have hlength := h.length
  have hnLen := h.nLen
  have htypeS := h.typeS
  have hnLenS := h.nLenS
  have hlast := h.last
  rw [hlength, show R.length + S.length + 7 - 3 = R.length + S.length + 4 by omega] at hnLen
  rw [show 6 + R.length - 2 = 4 + R.length by omega] at htypeS
  rw [show 5 + R.length = 4 + R.length + 1 by omega] at hnLenS
  rw [hlength, show R.length + S.length + 7 - 1 = 6 + R.length + S.length by omega] at hlast
  rw [tlv_tlv_append]
  calc vchSig = vchSig.drop 0 := List.drop_zero.symm
    _ = 0x30 :: UInt8.ofNat (R.length + S.length + 4) :: 0x02 :: UInt8.ofNat R.length ::
        vchSig.drop 4 := by
      rw [drop_eq_cons h.type, drop_eq_cons hnLen, drop_eq_cons h.typeR, drop_eq_cons h.nLenR]
    _ = [0x30, UInt8.ofNat (R.length + S.length + 4), 0x02, UInt8.ofNat R.length] ++
        (R ++ ([0x02, UInt8.ofNat S.length] ++ vchSig.drop (6 + R.length))) := by
      rw [drop_eq_append h.bytesR, drop_eq_cons htypeS, drop_eq_cons hnLenS,
        show 4 + R.length + 1 + 1 = 6 + R.length by omega]
      rfl
    _ = _ := by
      rw [drop_eq_append h.bytesS, drop_eq_cons hlast, List.drop_eq_nil_of_le (by omega)]

theorem offsets_iff : Offsets vchSig R S t ↔ vchSig = tlv 0x30 (tlv 0x02 R ++ tlv 0x02 S) ++ [t] := by
  constructor
  · exact Offsets.eq
  · rintro rfl
    exact offsets_of_tlv

/-- The integers at the places that their lengths say. -/
theorem offsets_of_slices {nLenR nLenS : Nat} (hlength : vchSig.length = nLenR + nLenS + 7)
    (htype : vchSig[0]? = some 0x30) (hnLen : vchSig[1]? = some (UInt8.ofNat (vchSig.length - 3)))
    (htypeR : vchSig[4 - 2]? = some 0x02) (hnLenR : vchSig[3]? = some (UInt8.ofNat nLenR))
    (htypeS : vchSig[6 + nLenR - 2]? = some 0x02)
    (hnLenS : vchSig[5 + nLenR]? = some (UInt8.ofNat nLenS))
    (hlast : vchSig[vchSig.length - 1]? = some t) :
    Offsets vchSig ((vchSig.drop 4).take nLenR) ((vchSig.drop (6 + nLenR)).take nLenS) t := by
  have hR : ((vchSig.drop 4).take nLenR).length = nLenR := by
    rw [List.length_take, List.length_drop]
    omega
  have hS : ((vchSig.drop (6 + nLenR)).take nLenS).length = nLenS := by
    rw [List.length_take, List.length_drop]
    omega
  constructor
  · rw [hR, hS, hlength]
  · exact htype
  · exact hnLen
  · exact htypeR
  · rw [hR, hnLenR]
  · rw [hR]
  · rw [hR, htypeS]
  · rw [hR, hS, hnLenS]
  · rw [hR, hS]
  · exact hlast

theorem toNat_ofNat_length {a : Nat} (h : a ≤ 73) : (UInt8.ofNat a).toNat = a :=
  UInt8.toNat_ofNat_of_lt' (Nat.lt_of_le_of_lt h (by decide))

/-- The tests at the offsets, and no others. -/
theorem isCanonicalSignature_eq : ∃ ok, isCanonicalSignature vchSig = pure ok ∧
    (ok = true ↔ vchSig.length ≤ 73 ∧ ∃ R S t, Minimal R ∧ Minimal S ∧ KnownHashType t ∧
      Offsets vchSig R S t) := by
  unfold isCanonicalSignature
  -- why the rest of the tests cannot succeed where one fails
  have hfail : (∀ R S t, Minimal R → Minimal S → KnownHashType t → Offsets vchSig R S t →
      vchSig.length ≤ 73 → False) → ∃ ok, (pure false : Eval Bool) = pure ok ∧
      (ok = true ↔ vchSig.length ≤ 73 ∧ ∃ R S t, Minimal R ∧ Minimal S ∧ KnownHashType t ∧
        Offsets vchSig R S t) := by
    intro h
    refine ⟨false, rfl, ?_⟩
    simp only [Bool.false_eq_true, false_iff]
    rintro ⟨hle, R, S, t, hR, hS, ht, hoffsets⟩
    exact h R S t hR hS ht hoffsets hle
  by_cases hshort : vchSig.length < 9
  · rw [if_pos hshort]
    refine hfail fun R S t hR hS _ h _ => ?_
    have hposR := List.length_pos_iff.mpr hR.ne_nil
    have hposS := List.length_pos_iff.mpr hS.ne_nil
    have hlength := h.length
    omega
  rw [if_neg hshort]
  by_cases hlong : 73 < vchSig.length
  · rw [if_pos hlong]
    exact hfail fun _ _ _ _ _ _ _ hle => absurd hlong (Nat.not_lt.mpr hle)
  have hlast : vchSig.length - 1 < vchSig.length := by omega
  rw [if_neg hlong, index_eq hlast, Traced.pure_bind]
  dsimp only
  by_cases htype : KnownHashType vchSig[vchSig.length - 1]
  swap
  · rw [if_pos (not_not.mp fun h => htype ((knownHashType_iff _).mpr h))]
    refine hfail fun _ _ t _ _ ht h _ => htype ?_
    rw [getElem_eq h.last hlast]
    exact ht
  rw [if_neg ((knownHashType_iff _).mp htype), index_eq (by omega : 0 < vchSig.length),
    Traced.pure_bind]
  by_cases h0 : vchSig[0] ≠ 0x30
  · rw [if_pos h0]
    exact hfail fun _ _ _ _ _ _ h _ => h0 (getElem_eq h.type _)
  rw [if_neg h0, index_eq (by omega : 1 < vchSig.length), Traced.pure_bind]
  by_cases h1 : vchSig[1].toNat ≠ vchSig.length - 3
  · rw [if_pos h1]
    refine hfail fun _ _ _ _ _ _ h _ => h1 ?_
    rw [getElem_eq h.nLen]
    exact toNat_ofNat_length (by omega)
  rw [if_neg h1, index_eq (by omega : 3 < vchSig.length), Traced.pure_bind]
  -- the first length is that of `R`, if there is one
  have hnLenR : ∀ R S t, Offsets vchSig R S t → vchSig[3].toNat = R.length := by
    intro R S t h
    have hlength := h.length
    rw [getElem_eq h.nLenR]
    exact toNat_ofNat_length (by omega)
  generalize hr : vchSig[3].toNat = nLenR at hnLenR
  by_cases hmisplaced : vchSig.length ≤ 5 + nLenR
  · rw [if_pos hmisplaced]
    refine hfail fun R S t _ _ _ h _ => ?_
    have hlength := h.length
    have hsame := hnLenR R S t h
    omega
  have hin : 5 + nLenR < vchSig.length := Nat.lt_of_not_le hmisplaced
  rw [if_neg hmisplaced, index_eq hin, Traced.pure_bind]
  have hnLenS : ∀ R S t, Offsets vchSig R S t → vchSig[5 + nLenR].toNat = S.length := by
    intro R S t h
    have hlength := h.length
    have hnext := h.nLenS
    rw [← hnLenR R S t h] at hnext
    rw [getElem_eq hnext]
    exact toNat_ofNat_length (by omega)
  generalize hs : vchSig[5 + nLenR].toNat = nLenS at hnLenS
  by_cases hmismatch : nLenR + nLenS + 7 ≠ vchSig.length
  · rw [if_pos hmismatch]
    refine hfail fun R S t _ _ _ h _ => hmismatch ?_
    rw [hnLenR R S t h, hnLenS R S t h, h.length]
  rw [if_neg hmismatch]
  have hlength : nLenR + nLenS + 7 = vchSig.length := not_not.mp hmismatch
  obtain ⟨okR, hreadR, hokR⟩ := @isCanonicalInteger_eq vchSig 4 nLenR (by omega) (by omega)
  obtain ⟨okS, hreadS, hokS⟩ := @isCanonicalInteger_eq vchSig (6 + nLenR) nLenS (by omega)
    (by omega)
  rw [hreadR, Traced.pure_bind, hreadS]
  refine ⟨okR && okS, by cases okR <;> rfl, ?_⟩
  rw [Bool.and_eq_true, hokR, hokS]
  constructor
  · rintro ⟨⟨htypeR, hR⟩, htypeS, hS⟩
    refine ⟨Nat.le_of_not_lt hlong, _, _, _, hR, hS, htype, ?_⟩
    refine offsets_of_slices hlength.symm ?_ ?_ htypeR ?_ htypeS ?_ (List.getElem?_eq_getElem hlast)
    · rw [List.getElem?_eq_getElem (by omega : 0 < vchSig.length), not_not.mp h0]
    · rw [List.getElem?_eq_getElem (by omega : 1 < vchSig.length), ← not_not.mp h1,
        UInt8.ofNat_toNat]
    · rw [List.getElem?_eq_getElem (by omega : 3 < vchSig.length)]
      exact congrArg some (UInt8.toNat_inj.mp (hr.trans (toNat_ofNat_length (by omega)).symm))
    · rw [List.getElem?_eq_getElem hin]
      exact congrArg some (UInt8.toNat_inj.mp (hs.trans (toNat_ofNat_length (by omega)).symm))
  · rintro ⟨-, R, S, t, hR, hS, -, h⟩
    rw [hnLenR R S t h, hnLenS R S t h, h.bytesR, h.bytesS]
    exact ⟨⟨h.typeR, hR⟩, h.typeS, hS⟩

theorem derSignature_inj {r s r' s' : Nat} {t t' : UInt8}
    (h : derSignature r s ++ [t] = derSignature r' s' ++ [t'])
    (hle : (derSignature r s ++ [t]).length ≤ 73) : r = r' ∧ s = s' ∧ t = t' := by
  have hoffsets : Offsets (derSignature r s ++ [t]) (natContents r) (natContents s) t :=
    offsets_of_tlv
  have hoffsets' : Offsets (derSignature r s ++ [t]) (natContents r') (natContents s') t' := by
    rw [h]
    exact offsets_of_tlv
  have hlength := hoffsets.length
  have hlength' := hoffsets'.length
  -- a length below 73 is its byte
  have hsame : ∀ {a b : Nat}, a ≤ 73 → b ≤ 73 → UInt8.ofNat a = UInt8.ofNat b → a = b := by
    intro a b ha hb hab
    rw [← toNat_ofNat_length ha, hab, toNat_ofNat_length hb]
  have hR : (natContents r).length = (natContents r').length := by
    apply hsame (by omega) (by omega)
    exact Option.some.inj (hoffsets.nLenR.symm.trans hoffsets'.nLenR)
  have hS : (natContents s).length = (natContents s').length := by omega
  have hbytesR := hoffsets.bytesR
  have hbytesS := hoffsets.bytesS
  rw [hR, hoffsets'.bytesR] at hbytesR
  rw [hR, hS, hoffsets'.bytesS] at hbytesS
  exact ⟨natContents_inj.mp hbytesR.symm, natContents_inj.mp hbytesS.symm,
    Option.some.inj (hoffsets.last.symm.trans hoffsets'.last)⟩

/-- **Canonical signatures.** `IsCanonicalSignature` reads no byte that is not there. It accepts the
signatures of at most 73 bytes that are the encoding of two numbers and a known hash type, and the
numbers and the type are then read off: no two signatures that are accepted have them in common. -/
theorem isCanonicalSignature_spec (vchSig : valtype) : (isCanonicalSignature vchSig).trace = [] ∧
    ((isCanonicalSignature vchSig).result = .ok true ↔ vchSig.length ≤ 73 ∧
      ∃! part : Nat × Nat × UInt8, KnownHashType part.2.2 ∧
        vchSig = derSignature part.1 part.2.1 ++ [part.2.2]) := by
  obtain ⟨ok, hread, hok⟩ := @isCanonicalSignature_eq vchSig
  rw [hread]
  refine ⟨rfl, ?_⟩
  rw [Traced.result_pure, Except.ok.injEq, hok]
  constructor
  · rintro ⟨hle, R, S, t, hR, hS, ht, h⟩
    obtain ⟨r, rfl⟩ := minimal_iff.mp hR
    obtain ⟨s, rfl⟩ := minimal_iff.mp hS
    refine ⟨hle, (r, s, t), ⟨ht, h.eq⟩, ?_⟩
    rintro ⟨r', s', t'⟩ ⟨-, h'⟩
    obtain ⟨rfl, rfl, rfl⟩ := derSignature_inj (h'.symm.trans h.eq) (h' ▸ hle)
    rfl
  · rintro ⟨hle, ⟨r, s, t⟩, ⟨ht, h⟩, -⟩
    exact ⟨hle, _, _, t, minimal_natContents r, minimal_natContents s, ht, offsets_iff.mpr h⟩

end Terracoin.EvalScript
