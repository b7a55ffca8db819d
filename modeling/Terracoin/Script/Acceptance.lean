import Terracoin.Script.Merging

/-!
# What a merge keeps acceptable

The script that `CombineSignatures` leaves of several is accepted if the right one of them is
(`isOk_of_mergedBy`): the one that is kept, or any of them for a multisig script, provided that the
signatures they hold are canonical and each is for one key (`Unambiguous`).
-/

namespace Terracoin

open Traced (fail)
open CScript EvalScript txnouttype

section

variable [ScriptHashing] [ByteHashing] [ByteHashing160] {ctx : ScriptContext}

namespace EvalScript

variable {stack : List valtype} {nOpCount : Nat} {st' : ScriptState}

theorem runOp_push_full {op : UInt8 × valtype} (hop : op.1 ≤ OP_16) (hreserved : op.1 ≠ 0x50)
    (hsize : op.2.length ≤ MAX_SCRIPT_ELEMENT_SIZE) (hstack : 1000 ≤ stack.length) :
    runOp ctx ⟨stack, [], [], nOpCount, 0⟩ op = .error .returnFalse := by
  have hcheck : checkSize ⟨pushedBy op :: stack, [], [], nOpCount, 0⟩ = fail .returnFalse :=
    if_pos (Nat.lt_succ_of_le hstack)
  rw [runOp, perform_push hop rfl, if_neg (not_or.mpr ⟨Nat.not_lt.mpr hsize, hreserved⟩),
    Traced.pure_bind]
  dsimp only
  rw [hcheck]
  rfl

/-- Pushes succeed only if there is room for them. -/
theorem le_of_run_pushes {op : UInt8 × valtype} {ops ops' : List (UInt8 × valtype)}
    (hops : ∀ op' ∈ op :: ops, op'.1 ≤ OP_16 ∧ op'.1 ≠ 0x50 ∧
      op'.2.length ≤ MAX_SCRIPT_ELEMENT_SIZE)
    (h : run ctx (op :: ops ++ ops') ⟨stack, [], [], nOpCount, 0⟩ = .ok st') :
    stack.length + (op :: ops).length ≤ 1000 := by
  induction ops generalizing op stack with
  | nil =>
    obtain ⟨hop, hreserved, hsize⟩ := hops op List.mem_cons_self
    refine Nat.le_of_not_lt fun hlt => ?_
    rw [List.cons_append, run, List.foldlM_cons,
      runOp_push_full hop hreserved hsize (Nat.le_of_lt_succ hlt)] at h
    cases h
  | cons op' ops ih =>
    obtain ⟨hop, hreserved, hsize⟩ := hops op List.mem_cons_self
    by_cases hstack : stack.length < 1000
    · rw [List.cons_append, run_cons_of_ok (runOp_push hop hreserved hsize hstack)] at h
      have hle := ih (fun op'' hop'' => hops op'' (List.mem_cons_of_mem _ hop'')) h
      simp only [List.length_cons] at hle ⊢
      omega
    · rw [List.cons_append, run, List.foldlM_cons,
        runOp_push_full hop hreserved hsize (Nat.le_of_not_lt hstack)] at h
      cases h

/-- `OP_CHECKMULTISIG` needs one element more than signatures. -/
theorem runOp_checkMultiSig_short {vchKeys vchSigs : valtype} {keys rest : List valtype} {m : Nat}
    (hvchKeys : Encodes vchKeys keys.length) (hvchSigs : Encodes vchSigs m)
    (hkeys : keys.length ≤ 20) (hm : m ≤ keys.length) (hcount : nOpCount + 1 + keys.length ≤ 201)
    (hshort : rest.length ≤ m) :
    runOp ctx ⟨vchKeys :: (keys.reverse ++ vchSigs :: rest), [], [], nOpCount, 0⟩
      (OP_CHECKMULTISIG, []) = .error .returnFalse := by
  have hdrop : (vchKeys :: (keys.reverse ++ vchSigs :: rest)).drop (1 + keys.length) =
      vchSigs :: rest := by
    rw [← List.drop_drop, List.drop_one, List.tail_cons,
      List.drop_left' (List.length_reverse ..)]
  have hlength : (vchKeys :: (keys.reverse ++ vchSigs :: rest)).length =
      keys.length + rest.length + 2 := by
    simp only [List.length_cons, List.length_append, List.length_reverse]
    omega
  have hsignatures : checkSignatures ctx false keys.length
      ⟨vchKeys :: (keys.reverse ++ vchSigs :: rest), [], [], nOpCount + 1, 0⟩ =
        fail .returnFalse := by
    simp only [checkSignatures]
    rw [hlength, if_neg (by omega), stacktop_of_drop hdrop (by omega), Traced.pure_bind,
      hvchSigs.castToBigNum, Traced.pure_bind, getInt_natCast (Nat.le_trans hm hkeys),
      if_neg (by omega), Int.toNat_natCast, if_pos (by omega)]
  have hcheck : checkMultiSig ctx false
      ⟨vchKeys :: (keys.reverse ++ vchSigs :: rest), [], [], nOpCount + 1, 0⟩ =
        fail .returnFalse := by
    have hdrop0 : (vchKeys :: (keys.reverse ++ vchSigs :: rest)).drop 0 = _ := rfl
    rw [checkMultiSig, if_neg (by simp), stacktop_of_drop hdrop0 rfl, Traced.pure_bind,
      hvchKeys.castToBigNum, Traced.pure_bind, getInt_natCast hkeys, if_neg (by omega),
      Int.toNat_natCast, if_neg (by dsimp only; omega), hsignatures]
    rfl
  rw [runOp_opcode rfl (by decide) rfl (by omega), executeOpcode, hcheck]
  rfl

end EvalScript

/-! ## `EvalScript` that succeeds -/

/-- `EvalScript` returns true and leaves true on the stack. -/
def Succeeds (ctx : ScriptContext) (st : List valtype) : Prop :=
  ∃ st', (evalScript ctx st).result = .ok st' ∧ topIsTrue st'.stack = true

theorem Succeeds.run {ops : List (UInt8 × valtype)} {st : List valtype} (h : Succeeds ctx st)
    (hlength : ctx.script.length ≤ 10000) (hreads : Reads ctx.script ops [])
    (hops : ∀ op ∈ ops, op.1 ≠ 0xab) :
    ∃ st', EvalScript.run ctx ops ⟨st, [], [], 0, 0⟩ = .ok st' ∧ topIsTrue st'.stack = true := by
  obtain ⟨st', hst', htrue⟩ := h
  rw [result_evalScript_eq ctx st hlength hreads hops] at hst'
  cases hrun : EvalScript.run ctx ops (ScriptState.init st) with
  | error e =>
    rw [hrun] at hst'
    cases hst'
  | ok st1 =>
    rw [hrun] at hst'
    change (if st1.vfExec ≠ [] then _ else _) = _ at hst'
    split at hst'
    · cases hst'
    · obtain rfl := Except.ok.inj hst'
      exact ⟨st1, hrun, htrue⟩

theorem isOk_bind_evaluate {st : List valtype} (f : List valtype → Traced (Eval ScriptState) Unit Unit) :
    (evaluate ctx st >>= f).result.isOk = true ↔
      ∃ st', (evalScript ctx st).result = .ok st' ∧ (f st'.stack).result.isOk = true := by
  cases hresult : (evalScript ctx st).result with
  | error e =>
    rw [Traced.bind_of_error _ (result_evaluate_of_error hresult)]
    refine iff_of_false Bool.false_ne_true ?_
    rintro ⟨st', heq, -⟩
    cases heq
  | ok st' =>
    rw [Traced.bind_of_ok _ (result_evaluate_of_ok hresult)]
    constructor
    · intro hok
      exact ⟨st', rfl, hok⟩
    · rintro ⟨st'', heq, hok⟩
      obtain rfl := Except.ok.inj heq
      exact hok

/-- A script that pushes values is accepted if the output succeeds on them, and for the hash of a
script the script that is the last of them on the others. -/
theorem isOk_verifyScript_iff {scriptSig s : CScript} {values : List valtype} {flags : Nat}
    {checkSig : valtype → valtype → CScript → Bool} (h : PushesValues scriptSig values)
    (hflag : flags.testBit 0 = true) :
    (verifyScript checkSig scriptSig s flags).result.isOk = true ↔
      Succeeds ⟨s, flags, checkSig⟩ values.reverse ∧ (s.isPayToScriptHash = true →
        ∃ redeem st, values.reverse = redeem :: st ∧ Succeeds ⟨redeem, flags, checkSig⟩ st) := by
  have hpush : scriptSig.isPushOnly = true := by
    obtain ⟨ops, hreads, hops, -⟩ := h.exists_reads
    rw [isPushOnly, hreads.ops_eq, Bool.true_and, List.all_eq_true]
    exact fun op hop => decide_eq_true (hops op hop).1
  have hsig := result_evaluate_of_ok (h.result_evalScript flags checkSig)
  rw [verifyScript, Traced.bind_of_ok _ hsig, ScriptState.init]
  dsimp only
  rw [isOk_bind_evaluate, Succeeds, ← exists_and_right]
  refine exists_congr fun st1 => ?_
  rw [and_assoc, hflag, hpush]
  refine and_congr_right fun _ => ?_
  cases topIsTrue st1.stack with
  | false => exact iff_of_false Bool.false_ne_true fun h => Bool.false_ne_true h.1
  | true =>
    cases s.isPayToScriptHash with
    | false => exact iff_of_true rfl ⟨rfl, fun h => absurd h Bool.false_ne_true⟩
    | true =>
      simp only [Bool.not_true, Bool.false_eq_true, if_false, Bool.and_self, if_true, true_and,
        true_implies]
      cases values.reverse with
      | nil =>
        refine iff_of_false Bool.false_ne_true ?_
        rintro ⟨redeem, st, heq, -⟩
        cases heq
      | cons redeem st =>
        have htrue : ∀ st2 : ScriptState, (if topIsTrue st2.stack = true then pure () else fail ()
            : Traced (Eval ScriptState) Unit Unit).result.isOk = true ↔
              topIsTrue st2.stack = true := by
          intro st2
          cases topIsTrue st2.stack with
          | false => exact iff_of_false Bool.false_ne_true Bool.false_ne_true
          | true => exact iff_of_true rfl rfl
        dsimp only
        rw [isOk_bind_evaluate]
        simp only [htrue]
        constructor
        · intro hredeem
          exact ⟨redeem, st, rfl, hredeem⟩
        · rintro ⟨redeem', st', heq, hredeem⟩
          obtain ⟨rfl, rfl⟩ := List.cons.inj heq
          exact hredeem

/-! ## Multisig scripts -/

/-- Among the signatures that are held, each is for one of the keys at most, and is canonical as that
key is; and no key looks like a signature. -/
structure Unambiguous (check : valtype → valtype → Bool) (pubkeys held : List valtype) : Prop where
  oneKey : OneKeyFor check pubkeys held
  canonical : ∀ sig ∈ held, ∀ key ∈ pubkeys, check sig key = true →
    (isCanonicalSignature sig).result = .ok true ∧ (isCanonicalPubKey key).result = .ok true
  noSignature : ∀ key ∈ pubkeys, (isCanonicalSignature key).result ≠ .ok true

section

variable {flags : Nat} {checkSig : valtype → valtype → CScript → Bool} {s : CScript}
  {m n : UInt8} {pubkeys held sigs st : List valtype} {sig key : valtype}

omit [ScriptHashing] [ByteHashing] [ByteHashing160] in
theorem verifies_iff (hflag : flags.testBit 1 = true) (code : CScript) :
    verifies ⟨s, flags, checkSig⟩ code sig key = true ↔ (isCanonicalSignature sig).result = .ok true ∧
      (isCanonicalPubKey key).result = .ok true ∧ checkSig sig key code = true := by
  have hstrict : fStrictEncodings ⟨s, flags, checkSig⟩ = true := hflag
  rw [verifies, isCanonical, if_pos hstrict, Bool.and_eq_true, beq_iff_eq]
  cases hsig : (isCanonicalSignature sig).result with
  | error e =>
    rw [Traced.bind_of_error _ hsig]
    simp [Except.toOption]
  | ok fSig =>
    rw [Traced.bind_of_ok _ hsig]
    cases fSig with
    | false => simp [Except.toOption]
    | true =>
      cases hkey : (isCanonicalPubKey key).result with
      | error e => simp [Except.toOption, hkey]
      | ok fKey => simp [Except.toOption, hkey]

omit [ScriptHashing] [ByteHashing] [ByteHashing160] in
theorem codeWithout_canonical {keys : List (UInt8 × valtype)}
    (hreads : Reads s ((OP_1 - 1 + m, []) ::
      (keys ++ [(OP_1 - 1 + n, []), (OP_CHECKMULTISIG, [])])) [])
    (hkeys : ∀ key ∈ keys.map Prod.snd, (isCanonicalSignature key).result ≠ .ok true)
    (hsigs : ∀ sig ∈ sigs, (isCanonicalSignature sig).result = .ok true) :
    codeWithout s sigs = s := by
  have hnil : ∀ sig ∈ sigs, ([] : valtype) ≠ sig := by
    rintro sig hsig rfl
    exact absurd (canonicalSignature_spec (hsigs [] hsig)).2 (by decide)
  refine codeWithout_eq hreads (fun sig hsig => ?_) fun sig hsig op hop => ?_
  · have hle := (canonicalSignature_spec (hsigs sig hsig)).1
    omega
  · obtain rfl | hop := List.mem_cons.mp hop
    · exact hnil sig hsig
    · obtain hop | hop := List.mem_append.mp hop
      · rintro rfl
        exact hkeys op.2 (List.mem_map_of_mem hop) (hsigs _ hsig)
      · simp only [List.mem_cons, List.not_mem_nil, or_false] at hop
        obtain rfl | rfl := hop <;> exact hnil sig hsig

/-- The signatures that satisfy the script are below the numbers and the keys. -/
theorem exists_assignable {keys : List (UInt8 × valtype)} (hm : 1 ≤ m) (hmn : m ≤ n) (hn : n ≤ 16)
    (hlength : keys.length = n.toNat)
    (hrange : ∀ key ∈ keys, 33 ≤ key.2.length ∧ key.2.length ≤ 120)
    (hreads : Reads ctx.script
      ((OP_1 - 1 + m, []) :: (keys ++ [(OP_1 - 1 + n, []), (OP_CHECKMULTISIG, [])])) [])
    (h : Succeeds ctx st) : ∃ sigs dummy rest, st = sigs.reverse ++ dummy :: rest ∧
      sigs.length = m.toNat ∧
      Matching.Assignable (verifies ctx (codeWithout ctx.script sigs)) sigs
        (keys.map Prod.snd) := by
  have hmn' : m.toNat ≤ n.toNat := UInt8.le_iff_toNat_le.mp hmn
  have hn16 : n.toNat ≤ 16 := UInt8.le_iff_toNat_le.mp hn
  obtain ⟨hdata, hscript, hpushes⟩ := multisig_pushes hm hmn hn hlength hrange hreads
  obtain ⟨-, -, -, hencodesM⟩ := smallInteger_spec hm (UInt8.le_trans hmn hn)
  obtain ⟨-, -, -, hencodesN⟩ := smallInteger_spec (UInt8.le_trans hm hmn) hn
  have hsplit : (OP_1 - 1 + m, []) :: (keys ++ [(OP_1 - 1 + n, []), (OP_CHECKMULTISIG, [])]) =
      ((OP_1 - 1 + m, []) :: (keys ++ [(OP_1 - 1 + n, [])])) ++ [(OP_CHECKMULTISIG, [])] := by simp
  have hkeysLength : (keys.map Prod.snd).length = n.toNat := by rw [List.length_map, hlength]
  rw [hsplit] at hreads
  obtain ⟨st', hrun, htrue⟩ := h.run hscript hreads (multisig_no_separator hpushes)
  have hroom := le_of_run_pushes hpushes hrun
  rw [run_pushes _ hpushes hroom, multisig_pushed hdata] at hrun
  by_cases hshort : st.length ≤ m.toNat
  · rw [run, List.foldlM_cons, runOp_checkMultiSig_short (hkeysLength ▸ hencodesN) hencodesM
      (by omega) (by omega) (by omega) hshort] at hrun
    cases hrun
  · obtain ⟨dummy, rest, hdrop⟩ : ∃ dummy rest, st.drop m.toNat = dummy :: rest :=
      List.exists_cons_of_length_pos (by rw [List.length_drop]; omega)
    have hst : st = (st.take m.toNat).reverse.reverse ++ dummy :: rest := by
      rw [List.reverse_reverse, ← hdrop, List.take_append_drop]
    have hsigs : (st.take m.toNat).reverse.length = m.toNat := by
      rw [List.length_reverse, List.length_take, Nat.min_eq_left (by omega)]
    have hrest : rest.length + 1 ≤ 1000 := by
      have hle := congrArg List.length hdrop
      rw [List.length_drop, List.length_cons] at hle
      omega
    refine ⟨(st.take m.toNat).reverse, dummy, rest, hst, hsigs, ?_⟩
    have hop := @runOp_checkMultiSig _ _ _ ctx _ 0 _ _ dummy (keys.map Prod.snd)
      (st.take m.toNat).reverse rest (by rw [← hst]) (hkeysLength ▸ hencodesN) (hsigs ▸ hencodesM)
      (by omega) (by omega) (by omega) hrest
    rw [run_cons_of_ok hop] at hrun
    obtain rfl := Except.ok.inj hrun
    rw [← Matching.greedy_reverse]
    cases hgreedy : Matching.greedy (verifies ctx (codeWithout ctx.script
      (st.take m.toNat).reverse)) (st.take m.toNat).reverse.reverse
        (keys.map Prod.snd).reverse with
    | true => rfl
    | false =>
      rw [hgreedy] at htrue
      cases htrue

/-- Whoever satisfies the script holds signatures for as many keys as it requires. -/
theorem le_signedKeys_of_succeeds
    (hsolver : s.solver = some (TX_MULTISIG, [m] :: (pubkeys ++ [[n]])))
    (hflag : flags.testBit 1 = true)
    (hunambiguous : Unambiguous (fun sig key => checkSig sig key s) pubkeys held)
    (hheld : ∀ v ∈ st, v ∈ held) (h : Succeeds ⟨s, flags, checkSig⟩ st) :
    m.toNat ≤ (signedKeys (fun sig key => checkSig sig key s) pubkeys held).length := by
  obtain ⟨keys, rfl, hm, hmn, hn, hlength, hrange, hreads⟩ := exists_keys_of_multisig hsolver
  have hreads' : Reads (ScriptContext.mk s flags checkSig).script _ [] := hreads
  obtain ⟨sigs, dummy, rest, rfl, hsigs, hassign⟩ :=
    exists_assignable hm hmn hn hlength hrange hreads' h
  have hcode : codeWithout s sigs = s := by
    refine codeWithout_canonical hreads hunambiguous.noSignature fun sig hsig => ?_
    obtain ⟨key, -, hverifies⟩ := hassign.exists_of_mem hsig
    exact ((verifies_iff hflag _).mp hverifies).1
  dsimp only at hassign
  rw [hcode] at hassign
  obtain ⟨signed, hsub, hverifies⟩ := Matching.assignable_iff.mp hassign
  have hsigned : ∀ key ∈ signed, (held.any fun sig => checkSig sig key s) = true := by
    intro key hkey
    obtain ⟨i, hi, rfl⟩ := List.mem_iff_getElem.mp hkey
    have hi' : i < sigs.length := by rwa [hverifies.length_eq]
    have hcheck := (verifies_iff hflag _).mp ((List.forall₂_iff_get.mp hverifies).2 i hi' hi)
    refine List.any_eq_true.mpr ⟨sigs[i], hheld _ ?_, hcheck.2.2⟩
    exact List.mem_append_left _ (List.mem_reverse.mpr (List.getElem_mem hi'))
  have hfilter := hsub.filter fun key => held.any fun sig => checkSig sig key s
  rw [List.filter_eq_self.mpr hsigned] at hfilter
  rw [← hsigs, hverifies.length_eq]
  exact hfilter.length_le

/-- Merged signatures satisfy the script if there are as many as it requires. -/
theorem succeeds_of_merged
    (hsolver : s.solver = some (TX_MULTISIG, [m] :: (pubkeys ++ [[n]])))
    (hflag : flags.testBit 1 = true)
    (hunambiguous : Unambiguous (fun sig key => checkSig sig key s) pubkeys held)
    (hmerged : Merged (fun sig key => checkSig sig key s) pubkeys held m.toNat sigs)
    (hle : m.toNat ≤ (signedKeys (fun sig key => checkSig sig key s) pubkeys held).length) :
    Succeeds ⟨s, flags, checkSig⟩ ([] :: sigs).reverse := by
  obtain ⟨keys, rfl, hm, hmn, hn, hlength, hrange, hreads⟩ := exists_keys_of_multisig hsolver
  have hreads' : Reads (ScriptContext.mk s flags checkSig).script _ [] := hreads
  obtain ⟨st', hst', htrue⟩ :=
    evalScript_multisig hm hmn hn hlength hrange hreads' hmerged.length_eq
  refine ⟨st', hst', htrue.mpr ?_⟩
  obtain ⟨sigsHave, rfl, hsigs⟩ := hmerged.exists_sigsHave
  have hcount := hsigs.length_eq
  rw [List.length_take, Nat.min_eq_left hle] at hcount
  rw [hcount, Nat.sub_self, List.replicate_zero, List.append_nil]
  -- no signature is missing, and each is canonical
  have hverifies : List.Forall₂ (fun sig key => verifies ⟨s, flags, checkSig⟩ s sig key = true)
      sigsHave ((signedKeys (fun sig key => checkSig sig key s) (keys.map Prod.snd) held).take
        m.toNat) := by
    refine List.forall₂_iff_get.mpr ⟨hsigs.length_eq, fun i hi hi' => ?_⟩
    obtain ⟨hmem, hcheck⟩ := (List.forall₂_iff_get.mp hsigs).2 i hi hi'
    have hkey := (List.mem_filter.mp (List.mem_of_mem_take (List.getElem_mem hi'))).1
    obtain ⟨hsig, hpub⟩ := hunambiguous.canonical _ hmem _ hkey hcheck
    exact (verifies_iff hflag s).mpr ⟨hsig, hpub, hcheck⟩
  have hassign : Matching.Assignable (verifies ⟨s, flags, checkSig⟩ s) sigsHave
      (keys.map Prod.snd) :=
    Matching.assignable_iff.mpr ⟨_, (List.take_sublist _ _).trans List.filter_sublist, hverifies⟩
  have hcode : codeWithout s sigsHave = s := by
    refine codeWithout_canonical hreads hunambiguous.noSignature fun sig hsig => ?_
    obtain ⟨key, -, hverifies⟩ := hassign.exists_of_mem hsig
    exact ((verifies_iff hflag _).mp hverifies).1
  dsimp only
  rw [hcode]
  exact hassign

omit [ScriptHashing] [ByteHashing] [ByteHashing160] in
theorem isPayToScriptHash_of_type (h : s.solverRet.1 = TX_SCRIPTHASH) :
    s.isPayToScriptHash = true := by
  cases hsolver : s.solver with
  | some solution =>
    obtain ⟨type, vSolutions⟩ := solution
    rw [solverRet_of_solver hsolver] at h
    obtain rfl : type = TX_SCRIPTHASH := h
    cases solution_of_solver hsolver with
    | scriptHash hp2sh => exact hp2sh
  | none =>
    have htypes : ∀ tplate ∈ mTemplates, tplate.1 ≠ TX_SCRIPTHASH := by decide
    rw [solverRet, hsolver] at h
    dsimp only at h
    cases hfound : mTemplates.findSome? fun tplate =>
        (matchTemplate tplate.2 s).map fun vSolutions => (tplate.1, vSolutions) with
    | none =>
      rw [hfound] at h
      cases h
    | some found =>
      rw [hfound, Option.getD_some] at h
      obtain ⟨tplate, htplate, hmatch⟩ := List.exists_of_findSome?_eq_some hfound
      obtain ⟨vSolutions, -, rfl⟩ := Option.map_eq_some_iff.mp hmatch
      exact absurd h (htypes tplate htplate)

/-- The output asks for a script with its hash. -/
theorem hash_of_succeeds {redeem : valtype} (hp2sh : s.isPayToScriptHash = true)
    (hlength : st.length ≤ 999) (h : Succeeds ⟨s, flags, checkSig⟩ (redeem :: st)) :
    writeUint160 (ByteHashing160.hash160 redeem) = (s.drop 2).take 20 := by
  obtain ⟨-, hreads⟩ := reads_of_isPayToScriptHash hp2sh
  obtain ⟨hscript, hsize, hops⟩ := scriptHash_limits hp2sh
  have hnumber : (0x14 : UInt8) ≤ OP_16 ∧ (0x14 : UInt8) ≠ 0x50 := by decide
  obtain ⟨st', hrun, htrue⟩ := h.run hscript hreads hops
  rw [run_cons_of_ok (runOp_hash160 (by decide) (by omega))] at hrun
  have hpushes : ∀ op ∈ [((0x14 : UInt8), (s.drop 2).take 20)],
      op.1 ≤ OP_16 ∧ op.1 ≠ 0x50 ∧ op.2.length ≤ MAX_SCRIPT_ELEMENT_SIZE := by
    intro op hop
    obtain rfl := List.mem_singleton.mp hop
    exact ⟨hnumber.1, hnumber.2, hsize⟩
  have hroom := le_of_run_pushes hpushes hrun
  simp only [List.length_cons, List.length_nil] at hroom
  rw [run_cons_of_ok (runOp_data (by decide) hsize (by rw [List.length_cons]; omega)),
    run_cons_of_ok (runOp_equal (by decide) (by omega))] at hrun
  obtain rfl := Except.ok.inj hrun
  by_contra hne
  rw [if_neg hne] at htrue
  cases htrue

theorem succeeds_scriptHash {redeem : valtype} {st' : List valtype}
    (hp2sh : s.isPayToScriptHash = true) (hlength : st.length ≤ 999) (hlength' : st'.length ≤ 900)
    (h : Succeeds ⟨s, flags, checkSig⟩ (redeem :: st)) :
    Succeeds ⟨s, flags, checkSig⟩ (redeem :: st') :=
  run_scriptHash flags checkSig hp2sh (hash_of_succeeds hp2sh hlength h) hlength'

/-! ## What prevails -/

/-- Any of the scripts does for a multisig script, and one that is alone for a script that looks like
one. -/
def AnyMultisig (checkSig : valtype → valtype → CScript → Bool) (s : CScript)
    (sts : List (List valtype)) (st : List valtype) : Prop :=
  sts = [st] ∨ st ∈ sts ∧ ∃ m n pubkeys,
    s.solver = some (TX_MULTISIG, [m] :: (pubkeys ++ [[n]])) ∧
      Unambiguous (fun sig key => checkSig sig key s) pubkeys sts.flatten

section

variable {sts : List (List valtype)} {merged : List valtype}
  {multisig multisig' : CScript → List (List valtype) → List valtype → Prop}

omit [ScriptHashing] [ByteHashing] [ByteHashing160] in
/-- The type of the script tells how the scripts were merged. -/
theorem MergedBy.of_type (h : MergedBy multisig s sts merged) : match s.solverRet.1 with
    | TX_NONSTANDARD => sts.argmax List.length = some merged
    | TX_PUBKEY | TX_PUBKEYHASH => merged = Choice.firstOrLast hasSignature sts []
    | TX_MULTISIG => multisig s sts merged
    | TX_SCRIPTHASH => (sts.filter hasScript = [] ∧ merged = sts.getLastD []) ∨
      ∃ redeem st sts' merged', sts.filter hasScript = (redeem :: st) :: sts' ∧
        merged = redeem :: merged' ∧
        MergedBy multisig redeem (st :: sts'.map List.tail) merged' := by
  cases h with
  | signature htype => obtain htype | htype := htype <;> rw [htype]
  | bigger htype hmax =>
    rw [htype]
    exact hmax
  | multisig htype hmultisig =>
    rw [htype]
    exact hmultisig
  | noScript htype hfilter =>
    rw [htype]
    exact .inl ⟨hfilter, rfl⟩
  | redeem htype hfilter hmerged =>
    rw [htype]
    exact .inr ⟨_, _, _, _, hfilter, rfl, hmerged⟩

omit [ScriptHashing] [ByteHashing] [ByteHashing160] in
/-- Only for multisig scripts, or below the hash of one, can two merges differ. -/
theorem MergedBy.eq_or (h : MergedBy multisig s sts merged) (h' : MergedBy multisig' s sts st) :
    merged = st ∨ (multisig s sts merged ∧ multisig' s sts st) ∨
      s.isPayToScriptHash = true ∧ ∃ redeem sts' merged' st', merged = redeem :: merged' ∧
        st = redeem :: st' ∧ MergedBy multisig redeem sts' merged' ∧
          MergedBy multisig' redeem sts' st' := by
  have hmerged := h.of_type
  have hst := h'.of_type
  cases htype : s.solverRet.1 with
  | TX_NONSTANDARD =>
    rw [htype] at hmerged hst
    exact .inl (Option.some.inj (hmerged.symm.trans hst))
  | TX_PUBKEY =>
    rw [htype] at hmerged hst
    exact .inl (hmerged.trans hst.symm)
  | TX_PUBKEYHASH =>
    rw [htype] at hmerged hst
    exact .inl (hmerged.trans hst.symm)
  | TX_MULTISIG =>
    rw [htype] at hmerged hst
    exact .inr (.inl ⟨hmerged, hst⟩)
  | TX_SCRIPTHASH =>
    rw [htype] at hmerged hst
    obtain ⟨hfilter, rfl⟩ | ⟨redeem, st1, sts', merged', hfilter, rfl, hmerged⟩ := hmerged
    · obtain ⟨-, rfl⟩ | ⟨redeem', st1', sts'', st', hfilter', -, -⟩ := hst
      · exact .inl rfl
      · rw [hfilter] at hfilter'
        cases hfilter'
    · obtain ⟨hfilter', -⟩ | ⟨redeem', st1', sts'', st', hfilter', rfl, hst⟩ := hst
      · rw [hfilter] at hfilter'
        cases hfilter'
      · rw [hfilter] at hfilter'
        obtain ⟨hfirst, rfl⟩ := List.cons.inj hfilter'
        obtain ⟨rfl, rfl⟩ := List.cons.inj hfirst
        exact .inr (.inr ⟨isPayToScriptHash_of_type htype, redeem, _, merged', st', rfl, rfl,
          hmerged, hst⟩)

omit [ScriptHashing] [ByteHashing] [ByteHashing160] in
/-- What was merged for a multisig script is another script with at most 16 signatures. -/
theorem mergedMultisig_cases (h : MergedMultisig checkSig s sts merged)
    (hany : AnyMultisig checkSig s sts st) : merged = st ∨ ∃ m n pubkeys sigs,
      s.solver = some (TX_MULTISIG, [m] :: (pubkeys ++ [[n]])) ∧ st ∈ sts ∧
        Unambiguous (fun sig key => checkSig sig key s) pubkeys sts.flatten ∧
        merged = ([] :: sigs).reverse ∧
        Merged (fun sig key => checkSig sig key s) pubkeys sts.flatten m.toNat sigs := by
  obtain rfl | ⟨hlength, sigs, rfl, -, hmerged⟩ := h
  · obtain heq | ⟨hmem, -⟩ := hany
    · exact .inl (List.cons.inj heq).1
    · exact .inl (List.mem_singleton.mp hmem).symm
  · obtain rfl | ⟨hmem, m, n, pubkeys, hsolver, hunambiguous⟩ := hany
    · exact absurd hlength (by simp)
    · have hkeys : multisigKeys s = pubkeys := by
        rw [multisigKeys, solverRet_of_solver hsolver, List.tail_cons, List.dropLast_concat]
      have hrequired : nSigsRequired s = m.toNat := by
        rw [nSigsRequired, solverRet_of_solver hsolver]
        rfl
      rw [hkeys, hrequired] at hmerged
      exact .inr ⟨m, n, pubkeys, sigs, hsolver, hmem, hunambiguous, rfl,
        hmerged hunambiguous.oneKey⟩

omit [ScriptHashing] [ByteHashing] [ByteHashing160] in
/-- The hashes of scripts one in another take room, so there are not many of them. -/
theorem length_of_mergedBy (h : MergedBy (MergedMultisig checkSig) s sts merged)
    (hst : MergedBy (AnyMultisig checkSig) s sts st) : merged = st ∨
      (s.isPayToScriptHash = false ∧ merged.length ≤ 17) ∨
      s.isPayToScriptHash = true ∧ 24 * merged.length ≤ (pushAll merged).length + 24 * 18 := by
  induction merged generalizing s sts st with
  | nil =>
    cases hp2sh : s.isPayToScriptHash with
    | false => exact .inr (.inl ⟨rfl, Nat.zero_le _⟩)
    | true => exact .inr (.inr ⟨rfl, Nat.zero_le _⟩)
  | cons top merged ih =>
    obtain heq | ⟨hmultisig, hany⟩ | ⟨hp2sh, redeem, sts', merged', st', heq, rfl, hmerged, hst'⟩ :=
      h.eq_or hst
    · exact .inl heq
    · obtain heq | ⟨m, n, pubkeys, sigs, hsolver, -, -, heq, hsigs⟩ :=
        mergedMultisig_cases hmultisig hany
      · exact .inl heq
      · obtain ⟨keys, -, -, hmn, hn, -⟩ := exists_keys_of_multisig hsolver
        have hm16 : m.toNat ≤ 16 := UInt8.le_iff_toNat_le.mp (UInt8.le_trans hmn hn)
        refine .inr (.inl ⟨not_scriptHash_of_multisig hsolver, ?_⟩)
        rw [heq, List.length_reverse, List.length_cons, hsigs.length_eq]
        omega
    · obtain ⟨rfl, rfl⟩ := List.cons.inj heq
      have hbytes : (pushAll (top :: merged)).length = (pushAll merged).length + (push top).length := by
        rw [pushAll_cons, List.length_append]
      obtain rfl | ⟨-, hle⟩ | ⟨hredeem, hle⟩ := ih hmerged hst'
      · exact .inl rfl
      · refine .inr (.inr ⟨hp2sh, ?_⟩)
        rw [List.length_cons]
        omega
      · refine .inr (.inr ⟨hp2sh, ?_⟩)
        have htop : top.length = 23 := by
          obtain ⟨hash, hlength, rfl⟩ := isPayToScriptHash_iff.mp hredeem
          simp [hlength]
        have hpush := (length_push top).1
        rw [List.length_cons]
        omega

theorem succeeds_of_mergedBy (hflag : flags.testBit 1 = true)
    (h : MergedBy (MergedMultisig checkSig) s sts merged)
    (hst : MergedBy (AnyMultisig checkSig) s sts st) (hlength : st.length ≤ 1000)
    (hbytes : (pushAll merged).length ≤ 10000) (hsucceeds : Succeeds ⟨s, flags, checkSig⟩ st) :
    Succeeds ⟨s, flags, checkSig⟩ merged := by
  obtain rfl | ⟨hmultisig, hany⟩ | ⟨hp2sh, redeem, sts', merged', st', rfl, rfl, -, -⟩ := h.eq_or hst
  · exact hsucceeds
  · obtain rfl | ⟨m, n, pubkeys, sigs, hsolver, hmem, hunambiguous, rfl, hmerged⟩ :=
      mergedMultisig_cases hmultisig hany
    · exact hsucceeds
    · refine succeeds_of_merged hsolver hflag hunambiguous hmerged ?_
      refine le_signedKeys_of_succeeds hsolver hflag hunambiguous (fun v hv => ?_) hsucceeds
      exact List.mem_flatten.mpr ⟨st, hmem, hv⟩
  · obtain heq | ⟨hp2sh', -⟩ | ⟨-, hle⟩ := length_of_mergedBy h hst
    · rw [heq]
      exact hsucceeds
    · rw [hp2sh] at hp2sh'
      cases hp2sh'
    · rw [List.length_cons] at hlength hle
      exact succeeds_scriptHash hp2sh (by omega) (by omega) hsucceeds

/-- The script that is left is accepted if the one that prevails is. -/
theorem isOk_of_mergedBy {scriptSig scriptSig' : CScript} {values values' : List valtype}
    (hflags : flags.testBit 0 = true ∧ flags.testBit 1 = true)
    (hpushes : PushesValues scriptSig values) (hpushes' : PushesValues scriptSig' values')
    (h : MergedBy (MergedMultisig checkSig) s sts values'.reverse)
    (hprevails : MergedBy (AnyMultisig checkSig) s sts values.reverse)
    (hbytes : (pushAll values'.reverse).length ≤ 10000)
    (hok : (verifyScript checkSig scriptSig s flags).result.isOk = true) :
    (verifyScript checkSig scriptSig' s flags).result.isOk = true := by
  rw [isOk_verifyScript_iff hpushes hflags.1] at hok
  rw [isOk_verifyScript_iff hpushes' hflags.1]
  have hlength : values.reverse.length ≤ 1000 := by
    rw [List.length_reverse]
    exact hpushes.count_le
  refine ⟨succeeds_of_mergedBy hflags.2 h hprevails hlength hbytes hok.1, fun hp2sh => ?_⟩
  obtain ⟨redeem, st, hst, hsucceeds⟩ := hok.2 hp2sh
  obtain heq | ⟨hmultisig, hany⟩ | ⟨-, redeem', sts', merged', st', heq', heq, hmerged, hst'⟩ :=
    h.eq_or hprevails
  · exact ⟨redeem, st, heq.trans hst, hsucceeds⟩
  · obtain heq | ⟨m, n, pubkeys, sigs, hsolver, -⟩ := mergedMultisig_cases hmultisig hany
    · exact ⟨redeem, st, heq.trans hst, hsucceeds⟩
    · rw [not_scriptHash_of_multisig hsolver] at hp2sh
      cases hp2sh
  · rw [hst] at heq hlength
    obtain ⟨rfl, rfl⟩ := List.cons.inj heq
    rw [heq', pushAll_cons, List.length_append] at hbytes
    rw [List.length_cons] at hlength
    exact ⟨redeem, merged', heq', succeeds_of_mergedBy hflags.2 hmerged hst' (by omega) (by omega)
      hsucceeds⟩

end

end

end

end Terracoin
