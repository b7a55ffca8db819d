import Terracoin.Script.Standard

/-!
# Payments

What `VerifyScript` does with a `scriptSig` that pushes values and an output of a standard type. A
multisig script succeeds exactly if the signatures can be assigned to its keys in order
(`evalScript_multisig`), and a pay-to-script-hash script leaves the decision to the redeem script
(`isOk_verifyScript_scriptHash`).
-/

namespace Terracoin

open CScript EvalScript

/-- A canonical signature starts with the tag of a sequence. -/
theorem canonicalSignature_spec {vchSig : valtype}
    (h : (isCanonicalSignature vchSig).result = .ok true) :
    vchSig.length ≤ 73 ∧ vchSig.head? = some 0x30 := by
  unfold isCanonicalSignature at h
  split at h
  · cases h
  · rename_i hmin
    split at h
    · cases h
    · rename_i hmax
      obtain ⟨last, -, h⟩ := Traced.result_bind_ok.mp h
      dsimp only at h
      split at h
      · cases h
      · obtain ⟨type, htype, h⟩ := Traced.result_bind_ok.mp h
        split at h
        · cases h
        · rename_i hne
          rw [index_eq (by omega)] at htype
          have htype := Except.ok.inj htype
          have h30 : type = 0x30 := not_not.mp hne
          refine ⟨by omega, ?_⟩
          rw [List.head?_eq_getElem?, List.getElem?_eq_getElem (by omega), htype, h30]

theorem canonicalPubKey_spec {vchPubKey : valtype}
    (h : (isCanonicalPubKey vchPubKey).result = .ok true) : vchPubKey.head? ≠ some 0x30 := by
  unfold isCanonicalPubKey at h
  split at h
  · cases h
  · rename_i hmin
    rw [index_eq (by omega), Traced.pure_bind] at h
    rw [List.head?_eq_getElem?, List.getElem?_eq_getElem (by omega)]
    intro h30
    rw [Option.some.inj h30] at h
    cases h

section

variable [ScriptHashing] [ByteHashing] [ByteHashing160] {ctx : ScriptContext}

/-! ## Pushes -/

/-- A script whose instructions are pushes leaves what they push. -/
theorem result_evalScript_of_reads {ops : List (UInt8 × valtype)}
    (hreads : Reads ctx.script ops []) (hlength : ctx.script.length ≤ 10000)
    (hops : ∀ op ∈ ops, op.1 ≤ OP_16 ∧ op.1 ≠ 0x50 ∧ op.2.length ≤ MAX_SCRIPT_ELEMENT_SIZE)
    (hcount : ops.length ≤ 1000) :
    (evalScript ctx []).result = .ok (ScriptState.init (ops.map pushedBy).reverse) := by
  have hseparator : ∀ op ∈ ops, op.1 ≠ 0xab := by
    intro op hop hab
    have h16 := (hops op hop).1
    rw [hab] at h16
    exact absurd h16 (by decide)
  have hrun : run ctx (ops ++ []) (ScriptState.init []) =
      run ctx [] ⟨(ops.map pushedBy).reverse ++ [], [], [], 0, 0⟩ :=
    run_pushes [] hops (by simpa using hcount)
  rw [List.append_nil, List.append_nil] at hrun
  rw [result_evalScript_eq ctx [] hlength hreads hseparator, hrun]
  rfl

omit [ScriptHashing] [ByteHashing] [ByteHashing160] in
theorem isPushOnly_pushes {values : List valtype} (h : ∀ b ∈ values, b.length < 2 ^ 32) :
    isPushOnly (values.map push).flatten = true := by
  have hreads := Reads.pushes h []
  rw [List.append_nil] at hreads
  rw [isPushOnly, hreads.ops_eq, Bool.true_and, List.all_eq_true]
  intro op hop
  obtain ⟨b, -, rfl⟩ := List.mem_map.mp hop
  exact decide_eq_true (le_of_pushOpcode b).1

variable {s : CScript} {flags : Nat} {checkSig : valtype → valtype → CScript → Bool}
  {values : List valtype} {st : ScriptState}

theorem isOk_verifyScript_pushes (hsmall : ∀ b ∈ values, b.length ≤ MAX_SCRIPT_ELEMENT_SIZE)
    (hcount : values.length ≤ 19) (hp2sh : s.isPayToScriptHash = false)
    (hst : (evalScript ⟨s, flags, checkSig⟩ values.reverse).result = .ok st) :
    (verifyScript checkSig (values.map push).flatten s flags).result.isOk =
      topIsTrue st.stack := by
  have hsig := result_evaluate_of_ok (result_evalScript_pushes flags checkSig hsmall hcount)
  have hkey := result_evaluate_of_ok hst
  rw [verifyScript, Traced.bind_of_ok _ hsig, ScriptState.init, Traced.bind_of_ok _ hkey, hp2sh,
    Bool.and_false]
  cases topIsTrue st.stack <;> rfl

omit [ScriptHashing] [ByteHashing] [ByteHashing160] in
theorem scriptHash_limits (hp2sh : s.isPayToScriptHash = true) :
    s.length ≤ 10000 ∧ ((s.drop 2).take 20).length ≤ MAX_SCRIPT_ELEMENT_SIZE ∧
      ∀ op ∈ [(OP_HASH160, []), (0x14, (s.drop 2).take 20), (OP_EQUAL, [])], op.1 ≠ 0xab := by
  obtain ⟨h20, hreads⟩ := reads_of_isPayToScriptHash hp2sh
  have hle := hreads.le_length
  simp only [List.map_cons, List.map_nil, List.sum_cons, List.sum_nil, List.length_nil] at hle
  refine ⟨by omega, ?_, ?_⟩
  · rw [h20]
    decide
  · simp only [List.forall_mem_cons, List.not_mem_nil, false_implies, implies_true, and_true]
    exact ⟨by decide, by decide, by decide⟩

theorem run_scriptHash (flags : Nat) (checkSig : valtype → valtype → CScript → Bool)
    {subscript : CScript} {stack : List valtype} (hp2sh : s.isPayToScriptHash = true)
    (hid : writeUint160 (ByteHashing160.hash160 subscript) = (s.drop 2).take 20)
    (hstack : stack.length ≤ 900) :
    ∃ st, (evalScript ⟨s, flags, checkSig⟩ (subscript :: stack)).result = .ok st ∧
      topIsTrue st.stack = true := by
  obtain ⟨-, hreads⟩ := reads_of_isPayToScriptHash hp2sh
  obtain ⟨hlength, hsize, hops⟩ := scriptHash_limits hp2sh
  refine ⟨⟨vchTrue :: stack, [], [], 2, 0⟩, ?_, rfl⟩
  rw [result_evalScript_eq _ _ hlength hreads hops, ScriptState.init,
    run_cons_of_ok (runOp_hash160 (by decide) (by omega)), hid,
    run_cons_of_ok (runOp_data (by decide) hsize (by rw [List.length_cons]; omega)),
    run_cons_of_ok (runOp_equal (by decide) (by omega)), if_pos rfl]
  rfl

/-- An output that pays to a script hash is decided by the redeem script, which is pushed last. -/
theorem isOk_verifyScript_scriptHash {subscript : CScript}
    (hsmall : ∀ b ∈ values ++ [subscript], b.length ≤ MAX_SCRIPT_ELEMENT_SIZE)
    (hcount : values.length ≤ 18) (hp2sh : s.isPayToScriptHash = true)
    (hid : writeUint160 (ByteHashing160.hash160 subscript) = (s.drop 2).take 20)
    (hflag : flags.testBit 0 = true)
    (hst : (evalScript ⟨subscript, flags, checkSig⟩ values.reverse).result = .ok st) :
    (verifyScript checkSig ((values ++ [subscript]).map push).flatten s flags).result.isOk =
      topIsTrue st.stack := by
  have hsig := result_evaluate_of_ok (result_evalScript_pushes flags checkSig hsmall
    (by rw [List.length_append, List.length_singleton]; omega))
  have hpush := isPushOnly_pushes fun b hb => Nat.lt_of_le_of_lt (hsmall b hb) (by decide)
  have hstack : values.reverse.length ≤ 900 := by
    rw [List.length_reverse]
    omega
  obtain ⟨stHash, hstHash, htrue⟩ := run_scriptHash flags checkSig hp2sh hid hstack
  rw [ScriptState.init, List.reverse_append, List.reverse_singleton, List.singleton_append] at hsig
  rw [verifyScript, Traced.bind_of_ok _ hsig,
    Traced.bind_of_ok _ (result_evaluate_of_ok hstHash), htrue, hp2sh, hpush, hflag]
  simp only [Bool.not_true, Bool.false_eq_true, Bool.and_self, if_true, if_false]
  rw [Traced.bind_of_ok _ (result_evaluate_of_ok hst)]
  cases topIsTrue st.stack <;> rfl

/-! ## Multisig scripts -/

section

variable {m n : UInt8} {keys : List (UInt8 × valtype)} {sigs : List valtype}

omit [ScriptHashing] [ByteHashing] [ByteHashing160] in
/-- Everything in the script but the last opcode pushes, within the limits. -/
theorem multisig_pushes (hm : 1 ≤ m) (hmn : m ≤ n) (hn : n ≤ 16)
    (hlength : keys.length = n.toNat)
    (hrange : ∀ key ∈ keys, 33 ≤ key.2.length ∧ key.2.length ≤ 120)
    (hreads : Reads s
      ((OP_1 - 1 + m, []) :: (keys ++ [(OP_1 - 1 + n, []), (OP_CHECKMULTISIG, [])])) []) :
    (∀ key ∈ keys, key.1 ≤ OP_PUSHDATA4) ∧ s.length ≤ 10000 ∧
      ∀ op ∈ (OP_1 - 1 + m, []) :: (keys ++ [(OP_1 - 1 + n, [])]),
        op.1 ≤ OP_16 ∧ op.1 ≠ 0x50 ∧ op.2.length ≤ MAX_SCRIPT_ELEMENT_SIZE := by
  have hn16 : n.toNat ≤ 16 := UInt8.le_iff_toNat_le.mp hn
  have hdata : ∀ key ∈ keys, key.1 ≤ OP_PUSHDATA4 := by
    intro key hkey
    refine hreads.le_pushdata
      (List.mem_cons_of_mem _ (List.mem_append_left _ hkey)) fun hnil => ?_
    have h33 := (hrange key hkey).1
    rw [hnil] at h33
    exact absurd h33 (by decide)
  have hbound : ((keys.map fun key => key.2.length + 5).sum) ≤ 16 * 125 := by
    refine (List.sum_le_card_nsmul _ 125 fun k hk => ?_).trans ?_
    · obtain ⟨key, hkey, rfl⟩ := List.mem_map.mp hk
      have := (hrange key hkey).2
      omega
    · rw [List.length_map]
      change keys.length * 125 ≤ 16 * 125
      omega
  refine ⟨hdata, ?_, fun op hop => ?_⟩
  · have hle := hreads.le_length
    simp only [List.map_cons, List.map_append, List.map_nil, List.sum_cons, List.sum_append,
      List.sum_nil, List.length_nil] at hle
    omega
  · obtain ⟨hM, hM50, -, -⟩ := smallInteger_spec hm (UInt8.le_trans hmn hn)
    obtain ⟨hN, hN50, -, -⟩ := smallInteger_spec (UInt8.le_trans hm hmn) hn
    obtain rfl | hop := List.mem_cons.mp hop
    · exact ⟨hM, hM50, Nat.zero_le _⟩
    · obtain hop | hop := List.mem_append.mp hop
      · refine ⟨UInt8.le_trans (hdata op hop) (by decide), fun h50 => ?_,
          Nat.le_trans (hrange op hop).2 (by decide)⟩
        exact absurd (hdata op hop) (by rw [h50]; decide)
      · obtain rfl := List.mem_singleton.mp hop
        exact ⟨hN, hN50, Nat.zero_le _⟩

omit [ScriptHashing] [ByteHashing] [ByteHashing160] in
theorem multisig_no_separator (hpushes : ∀ op ∈ (OP_1 - 1 + m, []) :: (keys ++ [(OP_1 - 1 + n, [])]),
      op.1 ≤ OP_16 ∧ op.1 ≠ 0x50 ∧ op.2.length ≤ MAX_SCRIPT_ELEMENT_SIZE) :
    ∀ op ∈ ((OP_1 - 1 + m, []) :: (keys ++ [(OP_1 - 1 + n, [])])) ++ [(OP_CHECKMULTISIG, [])],
      op.1 ≠ 0xab := by
  intro op hop
  obtain hop | hop := List.mem_append.mp hop
  · intro hab
    exact absurd (hpushes op hop).1 (by rw [hab]; decide)
  · rw [List.mem_singleton.mp hop]
    decide

omit [ScriptHashing] [ByteHashing] [ByteHashing160] in
theorem multisig_pushed (hdata : ∀ key ∈ keys, key.1 ≤ OP_PUSHDATA4) (stack : List valtype) :
    (((OP_1 - 1 + m, []) :: (keys ++ [(OP_1 - 1 + n, [])])).map pushedBy).reverse ++ stack =
      pushedBy (OP_1 - 1 + n, []) :: ((keys.map Prod.snd).reverse ++
        pushedBy (OP_1 - 1 + m, []) :: stack) := by
  have hpushed : keys.map pushedBy = keys.map Prod.snd :=
    List.map_congr_left fun key hkey => if_pos (hdata key hkey)
  rw [← hpushed]
  simp

/-- The script evaluates to whether the signatures can be assigned to the keys in order. -/
theorem evalScript_multisig (hm : 1 ≤ m) (hmn : m ≤ n) (hn : n ≤ 16)
    (hlength : keys.length = n.toNat)
    (hrange : ∀ key ∈ keys, 33 ≤ key.2.length ∧ key.2.length ≤ 120)
    (hreads : Reads ctx.script
      ((OP_1 - 1 + m, []) :: (keys ++ [(OP_1 - 1 + n, []), (OP_CHECKMULTISIG, [])])) [])
    (hsigs : sigs.length = m.toNat) :
    ∃ st, (evalScript ctx ([] :: sigs).reverse).result = .ok st ∧ (topIsTrue st.stack = true ↔
      Matching.Assignable (verifies ctx (codeWithout ctx.script sigs)) sigs
        (keys.map Prod.snd)) := by
  have hmn' : m.toNat ≤ n.toNat := UInt8.le_iff_toNat_le.mp hmn
  have hn16 : n.toNat ≤ 16 := UInt8.le_iff_toNat_le.mp hn
  obtain ⟨hdata, hscript, hpushes⟩ := multisig_pushes hm hmn hn hlength hrange hreads
  obtain ⟨-, -, -, hencodesM⟩ := smallInteger_spec hm (UInt8.le_trans hmn hn)
  obtain ⟨-, -, -, hencodesN⟩ := smallInteger_spec (UInt8.le_trans hm hmn) hn
  have hsplit : (OP_1 - 1 + m, []) :: (keys ++ [(OP_1 - 1 + n, []), (OP_CHECKMULTISIG, [])]) =
      ((OP_1 - 1 + m, []) :: (keys ++ [(OP_1 - 1 + n, [])])) ++ [(OP_CHECKMULTISIG, [])] := by simp
  have hkeysLength : (keys.map Prod.snd).length = n.toNat := by rw [List.length_map, hlength]
  have htop : ∀ fSuccess : Bool,
      topIsTrue [if fSuccess then vchTrue else vchFalse] = fSuccess := by decide
  refine ⟨⟨[if Matching.greedy (verifies ctx (codeWithout ctx.script sigs)) sigs.reverse
    (keys.map Prod.snd).reverse then vchTrue else vchFalse], [], [], 0 + 1 + keys.length, 0⟩,
    ?_, ?_⟩
  · have hstack : ([] :: sigs).reverse = sigs.reverse ++ [] :: [] := List.reverse_cons
    rw [hsplit] at hreads
    rw [result_evalScript_eq ctx _ hscript hreads (multisig_no_separator hpushes), ScriptState.init,
      run_pushes _ hpushes (by simp; omega), multisig_pushed hdata, hstack,
      run_cons_of_ok (runOp_checkMultiSig rfl (hkeysLength ▸ hencodesN) (hsigs ▸ hencodesM)
        (by omega) (by omega) (by omega) (by simp)), hkeysLength, hlength]
    rfl
  · rw [htop]
    exact Matching.greedy_reverse

end

end

end Terracoin
