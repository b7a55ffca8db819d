import Terracoin.Lib.Matching
import Terracoin.Script.Accesses

/-!
# `OP_CHECKMULTISIG`

The loop goes through signatures and keys from the top of the stack and gives up as soon as there
are more signatures than keys left. It succeeds exactly if the signatures can be assigned to keys
in order, whichever keys a signature verifies under (`checkMultiSig_spec`).
-/

namespace Terracoin

open Traced (Meets)

namespace EvalScript

open CScript

variable (ctx : ScriptContext)

/-- The signature is accepted for the key: encodings, and `CheckSig`. -/
def verifies (scriptCode : CScript) (vchSig vchPubKey : valtype) : Bool :=
  (isCanonical ctx vchSig vchPubKey).result.toOption == some true &&
    ctx.checkSig vchSig vchPubKey scriptCode

theorem result_verifySignature (vchSig vchPubKey : valtype) (scriptCode : CScript) :
    (verifySignature ctx vchSig vchPubKey scriptCode).result =
      .ok (verifies ctx scriptCode vchSig vchPubKey) := by
  obtain ⟨fCanonical, h, -⟩ :=
    (meets_isCanonical ctx vchSig vchPubKey).exists_ok fun _ he => he
  rw [verifySignature, Traced.bind_of_ok _ h, verifies, h]
  cases fCanonical <;> rfl

variable {stack rest : List valtype}

theorem stacktop_of_drop {i k : Nat} {vch : valtype} {tail : List valtype}
    (h : stack.drop i = vch :: tail) (hk : k = i + 1) : stacktop stack k = pure vch := by
  have hi : i < stack.length := by
    refine Nat.lt_of_not_le fun hle => ?_
    rw [List.drop_eq_nil_of_le hle] at h
    cases h
  rw [hk, stacktop_eq hi]
  rw [List.drop_eq_getElem_cons hi] at h
  rw [(List.cons.inj h).1]

theorem drop_succ {i : Nat} {vch : valtype} {tail : List valtype}
    (h : stack.drop i = vch :: tail) : stack.drop (i + 1) = tail := by
  rw [← List.drop_drop, h, List.drop_one, List.tail_cons]

theorem dropSignatures_eq {sigs tail : List valtype} {i : Nat} (h : stack.drop i = sigs ++ tail)
    (scriptCode : CScript) : dropSignatures stack sigs.length (i + 1) scriptCode =
      pure (sigs.foldl (fun scriptCode vchSig => scriptCode.findAndDelete (push vchSig))
        scriptCode) := by
  induction sigs generalizing i scriptCode with
  | nil => rfl
  | cons vchSig sigs ih =>
    rw [List.length_cons, dropSignatures, stacktop_of_drop h rfl, Traced.pure_bind, ih (drop_succ h)]
    rfl

/-- The loop is the greedy match of the signatures with the keys. -/
theorem result_matchSignatures {keys sigs tail tail' : List valtype} {i j : Nat}
    (scriptCode : CScript) (hkeys : stack.drop i = keys ++ tail)
    (hsigs : stack.drop j = sigs ++ tail') (hle : sigs.length ≤ keys.length) :
    (matchSignatures ctx stack scriptCode keys.length (i + 1) (j + 1) sigs.length).result =
      .ok (Matching.greedy (verifies ctx scriptCode) sigs keys) := by
  induction keys generalizing i j sigs with
  | nil =>
    obtain rfl : sigs = [] := List.eq_nil_of_length_eq_zero (Nat.le_zero.mp hle)
    rfl
  | cons vchPubKey keys ih =>
    cases sigs with
    | nil => rfl
    | cons vchSig sigs =>
      rw [List.length_cons, List.length_cons, matchSignatures, stacktop_of_drop hsigs rfl,
        Traced.pure_bind, stacktop_of_drop hkeys rfl, Traced.pure_bind,
        Traced.bind_of_ok _ (result_verifySignature ctx vchSig vchPubKey scriptCode),
        Matching.greedy]
      cases verifies ctx scriptCode vchSig vchPubKey with
      | true => exact ih (drop_succ hkeys) (drop_succ hsigs) (Nat.le_of_succ_le_succ hle)
      | false =>
        simp only [Bool.false_eq_true, if_false]
        split
        · rename_i hlt
          rw [Matching.greedy_of_lt hlt]
          rfl
        · rename_i hlt
          exact ih (drop_succ hkeys) hsigs (Nat.le_of_not_lt hlt)

theorem popMany_eq {i : Nat} (h : i ≤ stack.length) : popMany i stack = pure (stack.drop i) := by
  induction i generalizing stack with
  | zero => rfl
  | succ i ih =>
    cases stack with
    | nil => exact absurd h (Nat.not_succ_le_zero i)
    | cons vch stack =>
      rw [popMany, popstack, Traced.pure_bind, ih (Nat.le_of_succ_le_succ h), List.drop_succ_cons]

/-- The element is read as the number `n`. -/
structure Encodes (vch : valtype) (n : Nat) : Prop where
  length_le : vch.length ≤ nMaxNumSize
  value : CBigNum.setVch vch = n

theorem Encodes.castToBigNum {vch : valtype} {n : Nat} (h : Encodes vch n) :
    castToBigNum vch = pure (n : Int) := by
  rw [EvalScript.castToBigNum, if_neg (Nat.not_lt.mpr h.length_le), CBigNum.setVch_getVch, h.value]

theorem getInt_natCast {n : Nat} (h : n ≤ 20) : CBigNum.getInt n = n :=
  CBigNum.getInt_of_lt (by omega)

/-- The script code without the signatures. -/
def codeWithout (scriptCode : CScript) (sigs : List valtype) : CScript :=
  sigs.foldr (fun vchSig scriptCode => scriptCode.findAndDelete (push vchSig)) scriptCode

/-- The stack before `OP_CHECKMULTISIG`, with keys and signatures in the order of their pushes. -/
structure MultiSigStack (st : ScriptState) (keys sigs : List valtype) : Prop where
  keys_le : keys.length ≤ 20
  sigs_le : sigs.length ≤ keys.length
  nOpCount_le : st.nOpCount + keys.length ≤ 201
  layout : ∃ vchKeys vchSigs dummy rest, Encodes vchKeys keys.length ∧
    Encodes vchSigs sigs.length ∧
    st.stack = vchKeys :: (keys.reverse ++ vchSigs :: (sigs.reverse ++ dummy :: rest))

variable {st : ScriptState} {keys sigs : List valtype}

/-- The part after the number of keys: what is pushed instead of `n + m + 3` elements. -/
theorem result_checkSignatures (fVerify : Bool) (h : MultiSigStack st keys sigs) :
    (checkSignatures ctx fVerify keys.length st).result =
      (pushResult fVerify (Matching.greedy (verifies ctx (codeWithout (scriptCode ctx st) sigs))
        sigs.reverse keys.reverse) (st.stack.drop (keys.length + sigs.length + 3))).result := by
  obtain ⟨vchKeys, vchSigs, dummy, rest, -, hsigs, hstack⟩ := h.layout
  have hle := h.sigs_le
  have hlength := congrArg List.length hstack
  simp only [List.length_cons, List.length_append, List.length_reverse] at hlength
  have hdrop1 : st.stack.drop 1 =
      keys.reverse ++ vchSigs :: (sigs.reverse ++ dummy :: rest) := by
    rw [hstack, List.drop_one, List.tail_cons]
  have hdrop2 : st.stack.drop (1 + keys.length) = vchSigs :: (sigs.reverse ++ dummy :: rest) := by
    rw [← List.drop_drop, hdrop1, List.drop_left' (List.length_reverse ..)]
  have hdrop3 : st.stack.drop (2 + keys.length) = sigs.reverse ++ dummy :: rest := by
    have := drop_succ hdrop2
    rwa [show 1 + keys.length + 1 = 2 + keys.length by omega] at this
  have hcode : dropSignatures st.stack sigs.length (2 + keys.length + 1) (scriptCode ctx st) =
      pure (codeWithout (scriptCode ctx st) sigs) := by
    have := dropSignatures_eq hdrop3 (scriptCode ctx st)
    rwa [List.length_reverse, List.foldl_reverse] at this
  have hmatch : (matchSignatures ctx st.stack (codeWithout (scriptCode ctx st) sigs) keys.length 2
      (2 + keys.length + 1) sigs.length).result = .ok (Matching.greedy
        (verifies ctx (codeWithout (scriptCode ctx st) sigs)) sigs.reverse keys.reverse) := by
    have := result_matchSignatures ctx (codeWithout (scriptCode ctx st) sigs) hdrop1 hdrop3
      (by simpa using hle)
    rwa [List.length_reverse, List.length_reverse] at this
  have hpop : 2 + keys.length + 1 + sigs.length = keys.length + sigs.length + 3 := by omega
  simp only [checkSignatures]
  rw [if_neg (by omega), stacktop_of_drop hdrop2 (by omega), Traced.pure_bind, hsigs.castToBigNum,
    Traced.pure_bind, getInt_natCast (Nat.le_trans hle h.keys_le), if_neg (by omega),
    Int.toNat_natCast, if_neg (by omega), hcode, Traced.pure_bind, hpop,
    popMany_eq (by omega), Traced.bind_of_ok _ hmatch, Traced.pure_bind]

theorem result_checkMultiSig (fVerify : Bool) (h : MultiSigStack st keys sigs) :
    (checkMultiSig ctx fVerify st).result =
      (pushResult fVerify (Matching.greedy (verifies ctx (codeWithout (scriptCode ctx st) sigs))
        sigs.reverse keys.reverse) (st.stack.drop (keys.length + sigs.length + 3))).result.map
          fun stack => { st with stack := stack, nOpCount := st.nOpCount + keys.length } := by
  have hsignatures := result_checkSignatures ctx fVerify h
  obtain ⟨vchKeys, vchSigs, dummy, rest, hkeys, -, hstack⟩ := h.layout
  have hdrop0 : st.stack.drop 0 = _ := hstack
  have hcount := h.nOpCount_le
  rw [checkMultiSig, if_neg (by rw [hstack]; simp), stacktop_of_drop hdrop0 rfl, Traced.pure_bind,
    hkeys.castToBigNum, Traced.pure_bind, getInt_natCast h.keys_le,
    if_neg (by have := h.keys_le; omega), Int.toNat_natCast, if_neg (by omega),
    Traced.result_bind_pure, hsignatures]

end EvalScript

open EvalScript in
/-- `OP_CHECKMULTISIG` with `n` keys and `m` signatures removes `n + m + 3` elements and pushes
whether the signatures can be assigned to keys in order; the `VERIFY` variant fails if they
cannot. -/
theorem checkMultiSig_spec (ctx : ScriptContext) (st : ScriptState) (keys sigs : List valtype)
    (h : MultiSigStack st keys sigs) :
    ∃ fSuccess : Bool,
      (fSuccess = true ↔ ∃ f : Fin sigs.length → Fin keys.length, StrictMono f ∧ ∀ i,
        verifies ctx (codeWithout (scriptCode ctx st) sigs) (sigs.get i) (keys.get (f i)) = true) ∧
      keys.length + sigs.length + 3 ≤ st.stack.length ∧
      (checkMultiSig ctx false st).result = .ok { st with
        stack := (if fSuccess then vchTrue else vchFalse) ::
          st.stack.drop (keys.length + sigs.length + 3)
        nOpCount := st.nOpCount + keys.length } ∧
      (checkMultiSig ctx true st).result = if fSuccess then .ok { st with
          stack := st.stack.drop (keys.length + sigs.length + 3)
          nOpCount := st.nOpCount + keys.length }
        else .error .returnFalse := by
  refine ⟨Matching.greedy (verifies ctx (codeWithout (scriptCode ctx st) sigs)) sigs.reverse
    keys.reverse, Matching.greedy_reverse, ?_, ?_, ?_⟩
  · obtain ⟨vchKeys, vchSigs, dummy, rest, -, -, hstack⟩ := h.layout
    rw [hstack]
    simp only [List.length_cons, List.length_append, List.length_reverse]
    omega
  · rw [result_checkMultiSig ctx false h]
    rfl
  · rw [result_checkMultiSig ctx true h]
    cases Matching.greedy (verifies ctx (codeWithout (scriptCode ctx st) sigs)) sigs.reverse
      keys.reverse <;> rfl

namespace MultiSigSample

/-- A signature and a key of one byte each, and `CheckSig` compares them. -/
def ctx : ScriptContext := ⟨[], 0, fun vchSig vchPubKey _ => vchSig == vchPubKey⟩

def st : ScriptState := ⟨[[2], [5], [6], [1], [5], []], [], [], 0, 0⟩

open EvalScript in
/-- One signature for the second of two keys. -/
theorem checkMultiSig_spec_sample :
    ∃ fSuccess : Bool,
      (fSuccess = true ↔ ∃ f : Fin 1 → Fin 2, StrictMono f ∧ ∀ i,
        verifies ctx (codeWithout (scriptCode ctx st) [[5]]) ([[5]].get i)
          ([[6], [5]].get (f i)) = true) ∧
      2 + 1 + 3 ≤ st.stack.length ∧
      (checkMultiSig ctx false st).result = .ok { st with
        stack := (if fSuccess then vchTrue else vchFalse) :: st.stack.drop (2 + 1 + 3)
        nOpCount := st.nOpCount + 2 } ∧
      (checkMultiSig ctx true st).result = if fSuccess then .ok { st with
          stack := st.stack.drop (2 + 1 + 3)
          nOpCount := st.nOpCount + 2 }
        else .error .returnFalse :=
  checkMultiSig_spec ctx st [[6], [5]] [[5]] ⟨by decide, by decide, by decide,
    [2], [1], [], [], ⟨by decide, by decide⟩, ⟨by decide, by decide⟩, rfl⟩

end MultiSigSample

end Terracoin
