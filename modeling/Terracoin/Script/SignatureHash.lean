import Terracoin.Script.CheckSig

/-!
# What a signature commits to

The hash types differ in what they let others change. Two inputs of two transactions have the same
signature hash exactly if they agree on the parts that are left after the blanking: `SameSigned`
lists them, and `signatureHash_iff` says that nothing else is signed and nothing of it is free. An
input without an output of its number has the hash 1 under `SIGHASH_SINGLE`, whatever the rest of the
transaction is.
-/

namespace Terracoin

open Codec CScript

/-- The hash type lets the other inputs be updated. -/
def FreesOthers (nHashType : Nat) : Prop :=
  nHashType % 0x20 = SIGHASH_NONE ∨ nHashType % 0x20 = SIGHASH_SINGLE

instance (nHashType : Nat) : Decidable (FreesOthers nHashType) :=
  inferInstanceAs (Decidable (_ ∨ _))

/-- `SIGHASH_ANYONECANPAY`. -/
def AnyoneCanPay (nHashType : Nat) : Prop := nHashType.testBit 7 = true

instance (nHashType : Nat) : Decidable (AnyoneCanPay nHashType) :=
  inferInstanceAs (Decidable (_ = _))

/-- The parts of a transaction that a signature of its input `n` fixes. -/
structure SameSigned (nHashType : Nat) (tx : CTransaction) (n : Nat) (tx' : CTransaction)
    (n' : Nat) : Prop where
  nVersion : tx.nVersion = tx'.nVersion
  nLockTime : tx.nLockTime = tx'.nLockTime
  prevout : (tx.vin[n]?).map CTxIn.prevout = (tx'.vin[n']?).map CTxIn.prevout
  nSequence : (tx.vin[n]?).map CTxIn.nSequence = (tx'.vin[n']?).map CTxIn.nSequence
  position : ¬AnyoneCanPay nHashType ∨ nHashType % 0x20 = SIGHASH_SINGLE → n = n'
  prevouts : ¬AnyoneCanPay nHashType → tx.vin.map CTxIn.prevout = tx'.vin.map CTxIn.prevout
  nSequences : ¬AnyoneCanPay nHashType → ¬FreesOthers nHashType →
    tx.vin.map CTxIn.nSequence = tx'.vin.map CTxIn.nSequence
  vout : ¬FreesOthers nHashType → tx.vout = tx'.vout
  ownOutput : nHashType % 0x20 = SIGHASH_SINGLE → tx.vout[n]? = tx'.vout[n']?

/-- The arguments for which the hash is one of a transaction. -/
structure Signable (scriptCode : CScript) (tx : CTransaction) (n nHashType : Nat) : Prop where
  fits : tx.Fits
  nIn : n < tx.vin.length
  ownOutput : nHashType % 0x20 = SIGHASH_SINGLE → n < tx.vout.length
  code_ne : scriptCode.findAndDelete [OP_CODESEPARATOR] ≠ []
  code_le : (scriptCode.findAndDelete [OP_CODESEPARATOR]).length ≤ maxSize
  nHashType : nHashType < 2 ^ 32

namespace CTransaction

variable {tx tx' : CTransaction} {n n' t : Nat} {code code' : CScript}

/-! ## The inputs -/

def seenInput (n t : Nat) (code : CScript) (i : Nat) (txin : CTxIn) : CTxIn :=
  ⟨txin.prevout, if i = n then code else [],
    if FreesOthers t ∧ i ≠ n then 0 else txin.nSequence⟩

/-- The inputs as they are signed, before `SIGHASH_ANYONECANPAY` drops the others. -/
def seenInputs (tx : CTransaction) (n t : Nat) (code : CScript) : List CTxIn :=
  tx.vin.mapIdx (seenInput n t code)

theorem getElem?_seenInputs (i : Nat) :
    (tx.seenInputs n t code)[i]? = (tx.vin[i]?).map (seenInput n t code i) :=
  List.getElem?_mapIdx

theorem getElem?_blankInputs (i : Nat) :
    (tx.blankInputs n code)[i]? = (tx.vin[i]?).map fun txin =>
      ⟨txin.prevout, if i = n then code else [], txin.nSequence⟩ := by
  rw [blankInputs, List.getElem?_modify, List.getElem?_map, Option.map_eq_map, Option.map_map]
  congr 1
  funext txin
  by_cases hi : i = n
  · simp [hi]
  · simp [hi, Ne.symm hi]

theorem blankInputs_eq (h : ¬FreesOthers t) :
    tx.blankInputs n code = tx.seenInputs n t code := by
  apply List.ext_getElem?
  intro i
  rw [getElem?_blankInputs, getElem?_seenInputs]
  congr 1
  funext txin
  rw [seenInput, if_neg fun hfree : FreesOthers t ∧ i ≠ n => h hfree.1]

theorem freeOthers_blankInputs (h : FreesOthers t) :
    freeOthers (tx.blankInputs n code) n = tx.seenInputs n t code := by
  apply List.ext_getElem?
  intro i
  rw [freeOthers, List.getElem?_mapIdx, getElem?_blankInputs, getElem?_seenInputs, Option.map_map]
  congr 1
  funext txin
  by_cases hi : i = n
  · simp [seenInput, hi]
  · simp [seenInput, hi, h]

/-- On which the inputs that are signed agree, if they are the same. -/
theorem seenInputs_iff (hn : n < tx.vin.length) (hcode : code ≠ []) (hcode' : code' ≠ []) :
    tx.seenInputs n t code = tx'.seenInputs n' t code' ↔
      n = n' ∧ code = code' ∧
        (tx.vin[n]?).map CTxIn.nSequence = (tx'.vin[n']?).map CTxIn.nSequence ∧
        tx.vin.map CTxIn.prevout = tx'.vin.map CTxIn.prevout ∧
        (¬FreesOthers t → tx.vin.map CTxIn.nSequence = tx'.vin.map CTxIn.nSequence) := by
  constructor
  · intro h
    have hat : ∀ i, (tx.vin[i]?).map (seenInput n t code i) =
        (tx'.vin[i]?).map (seenInput n' t code' i) := by
      intro i
      rw [← getElem?_seenInputs, ← getElem?_seenInputs, h]
    -- the script is only in the input that is signed
    have hscript := congrArg (Option.map CTxIn.scriptSig) (hat n)
    rw [Option.map_map, Option.map_map, List.getElem?_eq_getElem hn, Option.map_some] at hscript
    obtain ⟨txin', htxin', hcodes⟩ := Option.map_eq_some_iff.mp hscript.symm
    simp only [Function.comp_apply, seenInput, if_true] at hcodes
    by_cases hnn : n = n'
    · rw [if_pos hnn] at hcodes
      subst hnn
      refine ⟨rfl, hcodes.symm, ?_, ?_, fun hall => ?_⟩
      · have hseq := congrArg (Option.map CTxIn.nSequence) (hat n)
        rw [Option.map_map, Option.map_map] at hseq
        simpa [Function.comp_def, seenInput] using hseq
      · apply List.ext_getElem?
        intro i
        have hprev := congrArg (Option.map CTxIn.prevout) (hat i)
        rwa [Option.map_map, Option.map_map, ← List.getElem?_map, ← List.getElem?_map] at hprev
      · apply List.ext_getElem?
        intro i
        have hseq := congrArg (Option.map CTxIn.nSequence) (hat i)
        rw [Option.map_map, Option.map_map] at hseq
        rw [List.getElem?_map, List.getElem?_map]
        simpa [Function.comp_def, seenInput, hall] using hseq
    · rw [if_neg hnn] at hcodes
      exact absurd hcodes.symm hcode
  · rintro ⟨rfl, rfl, hseq, hprevs, hseqs⟩
    apply List.ext_getElem?
    intro i
    rw [getElem?_seenInputs, getElem?_seenInputs]
    have hprev := congrArg (fun l => l[i]?) hprevs
    simp only [List.getElem?_map] at hprev
    cases htxin : tx.vin[i]? with
    | none =>
      rw [htxin, Option.map_none] at hprev
      rw [Option.map_eq_none_iff.mp hprev.symm]
    | some txin =>
      rw [htxin, Option.map_some] at hprev
      obtain ⟨txin', htxin', hsame⟩ := Option.map_eq_some_iff.mp hprev.symm
      rw [htxin', Option.map_some, Option.map_some]
      have hsequence : ¬(FreesOthers t ∧ i ≠ n) → txin.nSequence = txin'.nSequence := by
        intro hkept
        by_cases hi : i = n
        · subst hi
          rw [htxin, htxin'] at hseq
          exact Option.some.inj hseq
        · have hall := congrArg (fun l => l[i]?) (hseqs fun hfree => hkept ⟨hfree, hi⟩)
          simp only [List.getElem?_map, htxin, htxin', Option.map_some] at hall
          exact Option.some.inj hall
      unfold seenInput
      rw [hsame]
      by_cases hfree : FreesOthers t ∧ i ≠ n
      · rw [if_pos hfree, if_pos hfree]
      · rw [if_neg hfree, if_neg hfree, hsequence hfree]

/-! ## The transaction -/

def seenOutputs (tx : CTransaction) (n t : Nat) : List CTxOut :=
  if t % 0x20 = SIGHASH_NONE then []
  else if t % 0x20 = SIGHASH_SINGLE then
    List.replicate n CTxOut.null ++ (tx.vout[n]?).toList
  else tx.vout

theorem seenOutputs_iff (hn : t % 0x20 = SIGHASH_SINGLE → n < tx.vout.length)
    (hn' : t % 0x20 = SIGHASH_SINGLE → n' < tx'.vout.length) :
    tx.seenOutputs n t = tx'.seenOutputs n' t ↔
      (¬FreesOthers t → tx.vout = tx'.vout) ∧
        (t % 0x20 = SIGHASH_SINGLE → n = n' ∧ tx.vout[n]? = tx'.vout[n']?) := by
  unfold seenOutputs FreesOthers
  by_cases hnone : t % 0x20 = SIGHASH_NONE
  · simp [hnone, SIGHASH_NONE, SIGHASH_SINGLE]
  by_cases hsingle : t % 0x20 = SIGHASH_SINGLE
  · rw [if_neg hnone, if_pos hsingle, if_neg hnone, if_pos hsingle]
    have hout := List.getElem?_eq_getElem (hn hsingle)
    have hout' := List.getElem?_eq_getElem (hn' hsingle)
    rw [hout, hout', Option.toList_some, Option.toList_some]
    constructor
    · intro h
      have hlength := congrArg List.length h
      simp only [List.length_append, List.length_replicate, List.length_singleton] at hlength
      obtain rfl : n = n' := by omega
      refine ⟨fun hall => absurd (.inr hsingle) hall, fun _ => ⟨rfl, ?_⟩⟩
      exact congrArg some (List.singleton_inj.mp (List.append_cancel_left h))
    · rintro ⟨-, h⟩
      obtain ⟨rfl, hsame⟩ := h hsingle
      rw [Option.some.inj hsame]
  · simp [hnone, hsingle]

def seen (tx : CTransaction) (n t : Nat) (code : CScript) : CTransaction :=
  { tx with
    vin := if AnyoneCanPay t then ((tx.seenInputs n t code)[n]?).toList else tx.seenInputs n t code
    vout := tx.seenOutputs n t }

theorem signatureTx_eq (scriptCode : CScript)
    (hout : t % 0x20 = SIGHASH_SINGLE → n < tx.vout.length) :
    tx.signatureTx scriptCode n t =
      some (tx.seen n t (scriptCode.findAndDelete [OP_CODESEPARATOR])) := by
  have hany : ∀ vin vout, (if t.testBit 7 then
      (some { tx with vin := vin, vout := vout } : Option CTransaction).map fun tx =>
        { tx with vin := tx.vin[n]?.toList }
      else some { tx with vin := vin, vout := vout }) =
      some { tx with vin := if AnyoneCanPay t then (vin[n]?).toList else vin, vout := vout } := by
    intro vin vout
    by_cases h : t.testBit 7 = true
    · rw [if_pos h, if_pos (show AnyoneCanPay t from h), Option.map_some]
    · rw [if_neg h, if_neg (show ¬AnyoneCanPay t from h)]
  unfold signatureTx seen seenOutputs
  dsimp only
  by_cases hnone : t % 0x20 = SIGHASH_NONE
  · rw [if_pos hnone, if_pos hnone, freeOthers_blankInputs (.inl hnone), hany]
  rw [if_neg hnone, if_neg hnone]
  by_cases hsingle : t % 0x20 = SIGHASH_SINGLE
  · rw [if_pos hsingle, if_pos hsingle, freeOthers_blankInputs (.inr hsingle),
      List.getElem?_eq_getElem (hout hsingle)]
    exact hany _ _
  · have hall : ¬FreesOthers t := not_or.mpr ⟨hnone, hsingle⟩
    rw [if_neg hsingle, if_neg hsingle, blankInputs_eq hall]
    exact hany _ _

theorem fits_seenInputs (hcode : code.length ≤ maxSize) :
    ∀ txin ∈ tx.seenInputs n t code, txin.Fits := by
  intro txin hmem
  obtain ⟨i, hi⟩ := List.mem_iff_getElem?.mp hmem
  rw [getElem?_seenInputs] at hi
  obtain ⟨old, -, rfl⟩ := Option.map_eq_some_iff.mp hi
  rw [CTxIn.Fits, seenInput]
  dsimp only
  split
  · exact hcode
  · exact Nat.zero_le _

theorem fits_seen (hfits : tx.Fits) (hcode : code.length ≤ maxSize)
    (hout : t % 0x20 = SIGHASH_SINGLE → n < tx.vout.length) : (tx.seen n t code).Fits := by
  have hinputs : ∀ txin ∈ tx.seenInputs n t code, txin.Fits := fits_seenInputs hcode
  have hlength : (tx.seenInputs n t code).length = tx.vin.length := List.length_mapIdx
  refine ⟨?_, ?_⟩
  · rw [seen]
    dsimp only
    split
    · refine ⟨?_, fun txin hmem => hinputs txin ?_⟩
      · have hone := Option.length_toList_le (o := (tx.seenInputs n t code)[n]?)
        have hmax : 1 ≤ maxSize := by decide
        omega
      · exact List.mem_of_getElem? (Option.mem_toList.mp hmem)
    · exact ⟨hlength ▸ hfits.vin.1, hinputs⟩
  · rw [seen, seenOutputs]
    dsimp only
    split
    · exact ⟨Nat.zero_le _, fun _ hmem => by cases hmem⟩
    split
    · next hsingle =>
      have hin := hout hsingle
      rw [List.getElem?_eq_getElem hin, Option.toList_some]
      refine ⟨?_, fun out hmem => ?_⟩
      · rw [List.length_append, List.length_replicate, List.length_singleton]
        exact Nat.le_trans hin hfits.vout.1
      · rcases List.mem_append.mp hmem with hmem | hmem
        · rw [(List.mem_replicate.mp hmem).2]
          exact ⟨Nat.zero_le _, by decide, by decide⟩
        · rw [List.mem_singleton.mp hmem]
          exact hfits.vout.2 _ (List.getElem_mem hin)
    · exact hfits.vout

/-- On which the transactions that are signed agree, if they are the same. -/
theorem seen_iff (hn : n < tx.vin.length) (hn' : n' < tx'.vin.length)
    (hout : t % 0x20 = SIGHASH_SINGLE → n < tx.vout.length)
    (hout' : t % 0x20 = SIGHASH_SINGLE → n' < tx'.vout.length) (hcode : code ≠ [])
    (hcode' : code' ≠ []) :
    tx.seen n t code = tx'.seen n' t code' ↔ code = code' ∧ SameSigned t tx n tx' n' := by
  have hvout := seenOutputs_iff hout hout'
  have hone : ((tx.seenInputs n t code)[n]?).toList = ((tx'.seenInputs n' t code')[n']?).toList ↔
      code = code' ∧ (tx.vin[n]?).map CTxIn.prevout = (tx'.vin[n']?).map CTxIn.prevout ∧
        (tx.vin[n]?).map CTxIn.nSequence = (tx'.vin[n']?).map CTxIn.nSequence := by
    rw [getElem?_seenInputs, getElem?_seenInputs, List.getElem?_eq_getElem hn,
      List.getElem?_eq_getElem hn']
    simp [seenInput]
    tauto
  rw [seen, seen, CTransaction.mk.injEq, hvout]
  by_cases hany : AnyoneCanPay t
  · rw [if_pos hany, if_pos hany, hone]
    constructor
    · rintro ⟨hversion, ⟨hsame, hprev, hseq⟩, ⟨hall, hsingle⟩, hlock⟩
      exact ⟨hsame, hversion, hlock, hprev, hseq,
        fun h => (hsingle (h.resolve_left (not_not_intro hany))).1,
        fun h => absurd hany h, fun h => absurd hany h, hall, fun h => (hsingle h).2⟩
    · rintro ⟨hsame, h⟩
      exact ⟨h.nVersion, ⟨hsame, h.prevout, h.nSequence⟩,
        ⟨h.vout, fun hsingle => ⟨h.position (.inr hsingle), h.ownOutput hsingle⟩⟩, h.nLockTime⟩
  · rw [if_neg hany, if_neg hany, seenInputs_iff hn hcode hcode']
    constructor
    · rintro ⟨hversion, ⟨rfl, hsame, hseq, hprevs, hseqs⟩, ⟨hall, hsingle⟩, hlock⟩
      have hprev : (tx.vin[n]?).map CTxIn.prevout = (tx'.vin[n]?).map CTxIn.prevout := by
        rw [← List.getElem?_map, hprevs, List.getElem?_map]
      exact ⟨hsame, hversion, hlock, hprev, hseq, fun _ => rfl, fun _ => hprevs, fun _ => hseqs,
        hall, fun h => (hsingle h).2⟩
    · rintro ⟨hsame, h⟩
      exact ⟨h.nVersion, ⟨h.position (.inl hany), hsame, h.nSequence, h.prevouts hany,
        h.nSequences hany⟩,
        ⟨h.vout, fun hsingle => ⟨h.position (.inr hsingle), h.ownOutput hsingle⟩⟩, h.nLockTime⟩

end CTransaction

/-! ## The hash -/

def signatureBytes (scriptCode : CScript) (txTo : CTransaction) (nIn nHashType : Nat) : List UInt8 :=
  (txTo.seen nIn nHashType (scriptCode.findAndDelete [OP_CODESEPARATOR])).write ++
    littleEndian 4 nHashType

variable {tx tx' : CTransaction} {n n' t t' : Nat} {scriptCode scriptCode' : CScript}

theorem signatureHash_eq [ByteHashing] (h : Signable scriptCode tx n t) :
    signatureHash scriptCode tx n t = ByteHashing.hash (signatureBytes scriptCode tx n t) := by
  rw [signatureHash, if_neg (Nat.not_le.mpr h.nIn), CTransaction.signatureTx_eq _ h.ownOutput]
  rfl

/-- Different things to sign are written differently. -/
theorem signatureBytes_iff (h : Signable scriptCode tx n t) (h' : Signable scriptCode' tx' n' t') :
    signatureBytes scriptCode tx n t = signatureBytes scriptCode' tx' n' t' ↔ t = t' ∧
      scriptCode.findAndDelete [OP_CODESEPARATOR] = scriptCode'.findAndDelete [OP_CODESEPARATOR] ∧
      SameSigned t tx n tx' n' := by
  -- the sizes of the objects in memory do not matter for what is written
  let sizes : ObjectSizes := ⟨⟨1, by decide⟩, ⟨1, by decide⟩, ⟨1, by decide⟩⟩
  have hreads := (@format_transaction sizes).decodes _
    (CTransaction.fits_seen h.fits h.code_le h.ownOutput)
  have hreads' := (@format_transaction sizes).decodes _
    (CTransaction.fits_seen h'.fits h'.code_le h'.ownOutput)
  constructor
  · intro heq
    obtain ⟨htx, hrest⟩ := hreads.eq ((congrArg _ heq).trans (hreads' _))
    obtain rfl : t = t' := by
      have hvalue := decodes_littleEndian (k := 4) h.nHashType []
      rw [List.append_nil, hrest] at hvalue
      have hvalue' := decodes_littleEndian (k := 4) h'.nHashType []
      rw [List.append_nil] at hvalue'
      exact (Prod.mk.inj (Option.some.inj (hvalue.symm.trans hvalue'))).1
    exact ⟨rfl, (CTransaction.seen_iff h.nIn h'.nIn h.ownOutput h'.ownOutput h.code_ne h'.code_ne).mp htx⟩
  · rintro ⟨rfl, hsame⟩
    rw [signatureBytes, signatureBytes, (CTransaction.seen_iff h.nIn h'.nIn h.ownOutput h'.ownOutput
      h.code_ne h'.code_ne).mpr hsame]

theorem signatureHash_of_no_output [ByteHashing] (scriptCode : CScript)
    (hsingle : t % 0x20 = SIGHASH_SINGLE) (hout : tx.vout.length ≤ n) :
    signatureHash scriptCode tx n t = 1 := by
  have hnone : t % 0x20 ≠ SIGHASH_NONE := by
    rw [hsingle]
    decide
  have hseen : tx.signatureTx scriptCode n t = none := by
    unfold CTransaction.signatureTx
    dsimp only
    rw [if_neg hnone, if_pos hsingle, List.getElem?_eq_none hout, Option.map_none, ite_self]
  rw [signatureHash, hseen]
  exact ite_self _

/-- **What a signature fixes.** If no two things to sign have one hash, an input of one transaction
and one of another have the same signature hash exactly if the hash types and the scripts are the
same, without their code separators, and the transactions agree on what that hash type fixes. Under
`SIGHASH_SINGLE` an input without an output of its number has the hash 1. -/
theorem signatureHash_spec [ByteHashing] (scriptCode : CScript) (tx : CTransaction) (n t : Nat) :
    (t % 0x20 = SIGHASH_SINGLE → tx.vout.length ≤ n → signatureHash scriptCode tx n t = 1) ∧
    ∀ scriptCode' tx' n' t', Signable scriptCode tx n t → Signable scriptCode' tx' n' t' →
      (ByteHashing.hash (signatureBytes scriptCode tx n t) =
          ByteHashing.hash (signatureBytes scriptCode' tx' n' t') →
        signatureBytes scriptCode tx n t = signatureBytes scriptCode' tx' n' t') →
      (signatureHash scriptCode tx n t = signatureHash scriptCode' tx' n' t' ↔ t = t' ∧
        scriptCode.findAndDelete [OP_CODESEPARATOR] = scriptCode'.findAndDelete [OP_CODESEPARATOR] ∧
        SameSigned t tx n tx' n') := by
  refine ⟨signatureHash_of_no_output scriptCode, fun scriptCode' tx' n' t' h h' hcollide => ?_⟩
  rw [signatureHash_eq h, signatureHash_eq h', ← signatureBytes_iff h h']
  exact ⟨hcollide, congrArg _⟩

/-! ## An open transaction -/

namespace OpenSample

scoped instance hashing : ByteHashing :=
  ⟨fun s => BitVec.ofNat 256 (s.foldl (fun n b => 256 * n + b.toNat) 0)⟩

/-- One input, and whatever outputs others give it. -/
def spend (vout : List CTxOut) : CTransaction := ⟨1, [⟨⟨7, 0⟩, [], 0xffffffff⟩], vout, 0⟩

theorem signable_spend {vout : List CTxOut} (hlength : vout.length ≤ maxSize)
    (hvout : ∀ out ∈ vout, out.Fits) : Signable [0xac] (spend vout) 0 0x82 where
  fits := by
    refine ⟨⟨?_, fun txin hmem => ?_⟩, hlength, hvout⟩
    · exact (by decide : 1 ≤ maxSize)
    · rw [List.mem_singleton.mp hmem]
      exact Nat.zero_le _
  nIn := Nat.one_pos
  ownOutput h := by cases h
  code_ne := by decide
  code_le := by decide
  nHashType := by decide

/-- `SIGHASH_NONE | SIGHASH_ANYONECANPAY` signs no output. -/
theorem signatureHash_spec_sample : signatureHash [0xac] (spend []) 0 0x82 =
    signatureHash [0xac] (spend [⟨5, []⟩]) 0 0x82 := by
  have hsame : SameSigned 0x82 (spend []) 0 (spend [⟨5, []⟩]) 0 :=
    ⟨rfl, rfl, rfl, rfl, fun _ => rfl, fun _ => rfl, fun _ _ => rfl,
      fun h => absurd (.inl rfl) h, fun h => by cases h⟩
  have hempty : Signable [0xac] (spend []) 0 0x82 :=
    signable_spend (Nat.zero_le _) fun _ hmem => by cases hmem
  have hpaid : Signable [0xac] (spend [⟨5, []⟩]) 0 0x82 := by
    refine signable_spend (by decide) fun out hmem => ?_
    rw [List.mem_singleton.mp hmem]
    exact ⟨by decide, by decide, by decide⟩
  exact ((signatureHash_spec [0xac] (spend []) 0 0x82).2 _ _ _ _ hempty hpaid fun _ => rfl).mpr
    ⟨rfl, rfl, hsame⟩

end OpenSample

end Terracoin
