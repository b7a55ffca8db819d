import Terracoin.Script.Safety

/-!
# `VerifyScript`

`VerifyScript` evaluates `scriptSig`, then `scriptPubKey` on the stack that is left, and for a
pay-to-script-hash output the redeem script, which is the last element that `scriptSig` pushed. The
evaluations it makes are its trace here, for the counts of the calls of `CheckSig`: an evaluation
makes no more of them than `GetSigOpCount(true)` counts for its script.
-/

namespace Terracoin

open Traced (Meets emit fail)
open CScript

/-- The calls of `CheckSig`. -/
def Eval.calls {α : Type} (x : Eval α) : Nat := x.trace.count .checkSig

theorem getSigOpCount_true_le (s : CScript) : s.getSigOpCount true ≤ s.getSigOpCount false := by
  unfold getSigOpCount
  generalize OP_INVALIDOPCODE = lastOpcode
  induction s.ops.1 generalizing lastOpcode with
  | nil => exact Nat.le_refl 0
  | cons op ops ih =>
    obtain ⟨opcode, vch⟩ := op
    rw [sigOpsFrom, sigOpsFrom]
    refine Nat.add_le_add ?_ (ih opcode)
    split
    · exact Nat.le_refl 1
    · split
      · simp only [Bool.false_eq_true, false_and, if_false, true_and]
        split
        · rename_i hlast
          have hle := UInt8.le_iff_toNat_le.mp hlast.2
          unfold OP_16 at hle
          unfold OP_1
          simp at *
          omega
        · exact Nat.le_refl 20
      · exact Nat.le_refl 0

namespace EvalScript

def pushedBy (op : UInt8 × valtype) : valtype :=
  if op.1 ≤ OP_PUSHDATA4 then op.2 else CBigNum.getVch (op.1.toNat - (OP_1.toNat - 1))

/-- The numbers that are pushed are scripts without signature checks. -/
theorem getSigOpCount_pushedBy {op : UInt8 × valtype} (hle : op.1 ≤ OP_16)
    (hlt : ¬ op.1 ≤ OP_PUSHDATA4) : getSigOpCount (pushedBy op) true = 0 := by
  have hnumbers : ∀ n : Fin 18, getSigOpCount (CBigNum.getVch (n - 1 : Int)) true = 0 := by decide
  have hn : op.1.toNat - 0x4f < 18 ∧ 0x4f ≤ op.1.toNat := by
    simp only [UInt8.le_iff_toNat_le] at *
    unfold OP_16 OP_PUSHDATA4 at *
    simp at *
    omega
  rw [pushedBy, if_neg hlt, ← hnumbers ⟨op.1.toNat - 0x4f, hn.1⟩]
  congr 2
  unfold OP_1
  simp
  omega

end EvalScript

section

variable [ScriptHashing] [ByteHashing] [ByteHashing160]

/-! ## The evaluations -/

/-- `EvalScript` as `VerifyScript` calls it: the stack afterwards, unless it returns false. -/
def evaluate (ctx : ScriptContext) (stack : List valtype) :
    Traced (Eval ScriptState) Unit (List valtype) :=
  ⟨[evalScript ctx stack], ((evalScript ctx stack).result.map fun st => st.stack).mapError
    fun _ => ()⟩

theorem result_evaluate_of_ok {ctx : ScriptContext} {stack : List valtype} {st : ScriptState}
    (h : (evalScript ctx stack).result = .ok st) : (evaluate ctx stack).result = .ok st.stack := by
  rw [evaluate, h]
  rfl

theorem result_evaluate_of_error {ctx : ScriptContext} {stack : List valtype} {e : ScriptError}
    (h : (evalScript ctx stack).result = .error e) : (evaluate ctx stack).result = .error () := by
  rw [evaluate, h]
  rfl

/-- `CastToBool(stack.back())`, false for an empty stack. -/
def topIsTrue : List valtype → Bool
  | [] => false
  | vch :: _ => castToBool vch

/-- `VerifyScript`, with `CheckSig` for the transaction, the input, the hash type and the flags. -/
def verifyScript (checkSig : valtype → valtype → CScript → Bool) (scriptSig scriptPubKey : CScript)
    (flags : Nat) : Traced (Eval ScriptState) Unit Unit := do
  let stack ← evaluate ⟨scriptSig, flags, checkSig⟩ []
  let stackAfter ← evaluate ⟨scriptPubKey, flags, checkSig⟩ stack
  if !topIsTrue stackAfter then fail ()
  else if flags.testBit 0 && scriptPubKey.isPayToScriptHash then
    if !scriptSig.isPushOnly then fail ()
    else
      match stack with
      -- `assert(!stackCopy.empty())`
      | [] => fail ()
      | pubKey2 :: stackCopy => do
        let stackCopy ← evaluate ⟨pubKey2, flags, checkSig⟩ stackCopy
        if topIsTrue stackCopy then pure () else fail ()
  else pure ()

theorem calls_evalScript_le (ctx : ScriptContext) (stack : List valtype) :
    (evalScript ctx stack).calls ≤ ctx.script.getSigOpCount true := by
  obtain ⟨l, hlength, hsmall⟩ := EvalScript.Limits.exists_of stack
  exact (EvalScript.meets_evalScript (A := True) hlength hsmall fun _ _ _ _ => trivial).count_le

namespace EvalScript

variable {ctx : ScriptContext} {st st' : ScriptState} {opcode : UInt8} {vch : valtype} {pc : Nat}

/-- The instructions up to `OP_16` push, but `OP_RESERVED` has no case. -/
theorem perform_push (hop : opcode ≤ OP_16) (hexec : st.fExec = true) :
    perform ctx opcode vch pc st =
      if MAX_SCRIPT_ELEMENT_SIZE < vch.length ∨ opcode = 0x50 then fail .returnFalse
      else pure { st with stack := pushedBy (opcode, vch) :: st.stack } := by
  have h16 : ¬ OP_16 < opcode := UInt8.not_lt.mpr hop
  have hdisabled : isDisabled opcode = false := by
    refine Bool.eq_false_iff.mpr fun h => ?_
    have hall : ∀ b ∈ ([0x7e, 0x7f, 0x80, 0x81, 0x83, 0x84, 0x85, 0x86, 0x8d, 0x8e, 0x95, 0x96,
        0x97, 0x98, 0x99] : List UInt8), OP_16 < b := by decide +kernel
    exact h16 (hall _ (List.contains_iff_mem.mp h))
  simp only [perform, hdisabled, hexec, true_and, true_or, if_true, h16, false_and,
    if_false, Bool.false_eq_true]
  by_cases hsize : MAX_SCRIPT_ELEMENT_SIZE < vch.length
  · rw [if_pos hsize, if_pos (Or.inl hsize)]
  · rw [if_neg hsize]
    by_cases hpush : opcode ≤ OP_PUSHDATA4
    · have hne : opcode ≠ 0x50 := by
        rintro rfl
        exact absurd hpush (by decide)
      rw [if_pos hpush, if_neg (not_or.mpr ⟨hsize, hne⟩), pushedBy, if_pos hpush]
    · rw [if_neg hpush, execute, pushedBy, if_neg hpush]
      by_cases hreserved : opcode = 0x50
      · subst hreserved
        rw [if_pos (Or.inr rfl)]
        rfl
      · have hnumber : opcode = OP_1NEGATE ∨ (OP_1 ≤ opcode ∧ opcode ≤ OP_16) := by
          simp only [← UInt8.toNat_inj, UInt8.le_iff_toNat_le] at *
          unfold OP_1NEGATE OP_1 OP_16 OP_PUSHDATA4 at *
          simp at *
          omega
        rw [if_pos hnumber, if_neg (not_or.mpr ⟨hsize, hreserved⟩)]
        rfl

/-- Such a script pushes one element for each instruction. -/
theorem stack_loop_pushOnly {fuel : Nat} (hpc : pc ≤ ctx.script.length)
    (hfuel : ctx.script.length - pc ≤ fuel)
    (hops : ∀ op ∈ (parse fuel (ctx.script.drop pc)).1, op.1 ≤ OP_16) (hexec : st.vfExec = [])
    (h : (loop ctx fuel pc st).result = .ok st') :
    st'.stack = ((parse fuel (ctx.script.drop pc)).1.map pushedBy).reverse ++ st.stack := by
  induction fuel generalizing pc st with
  | zero =>
    have hnil : ctx.script.drop pc = [] := List.drop_eq_nil_of_le (by omega)
    rw [loop, if_neg (by omega)] at h
    obtain rfl := Except.ok.inj h
    rw [hnil]
    rfl
  | succ fuel ih =>
    rw [loop] at h
    split at h
    · rename_i hlt
      obtain ⟨c, hstep, hloop⟩ := Traced.result_bind_ok.mp h
      have hnext : Next ctx (pc, st) c := ⟨hlt, hstep⟩
      cases hop : getOp (ctx.script.drop pc) with
      | none =>
        rw [step, getOp2_eq hpc, hop] at hstep
        cases hstep
      | some r =>
        obtain ⟨opcode, vch, next⟩ := r
        obtain ⟨hdrop, hpos, hle⟩ := drop_of_getOp hpc hop
        rw [parse_of_getOp fuel hop] at hops ⊢
        rw [step_eq hpc hop] at hstep
        obtain ⟨st1, hperform, hrest⟩ := Traced.result_bind_ok.mp hstep
        have hfExec : st.fExec = true := by
          rw [ScriptState.fExec, hexec]
          rfl
        rw [perform_push (hops _ List.mem_cons_self) hfExec] at hperform
        split at hperform
        · cases hperform
        obtain rfl := Except.ok.inj hperform
        obtain ⟨st2, hsize, hc⟩ := Traced.result_bind_ok.mp hrest
        obtain rfl := Except.ok.inj hc
        unfold checkSize at hsize
        split at hsize
        · cases hsize
        obtain rfl := Except.ok.inj hsize
        have hexec1 : ({ st with stack := pushedBy (opcode, vch) :: st.stack } : ScriptState).vfExec =
            [] := hexec
        have hih := ih hle (by omega)
          (fun op h => hops op (List.mem_cons_of_mem _ (by rwa [hdrop] at h))) hexec1 hloop
        rw [hdrop] at hih
        rw [hih, List.map_cons, List.reverse_cons, List.append_assoc]
        rfl
    · rename_i hlt
      have hnil : ctx.script.drop pc = [] := List.drop_eq_nil_of_le (by omega)
      obtain rfl := Except.ok.inj h
      rw [hnil]
      rfl

theorem stack_evalScript_pushOnly (hpush : ctx.script.isPushOnly = true)
    (h : (evalScript ctx []).result = .ok st') :
    st'.stack = (ctx.script.ops.1.map pushedBy).reverse := by
  rw [isPushOnly, Bool.and_eq_true, List.all_eq_true] at hpush
  rw [evalScript] at h
  split at h
  · cases h
  · obtain ⟨st, hloop, hend⟩ := Traced.result_bind_ok.mp h
    have hstack := stack_loop_pushOnly (Nat.zero_le _) (Nat.le_refl _)
      (fun op hop => of_decide_eq_true (hpush.2 op hop)) rfl hloop
    split at hend
    · cases hend
    · obtain rfl := Except.ok.inj hend
      rw [hstack]
      exact List.append_nil _

end EvalScript

section

variable {checkSig : valtype → valtype → CScript → Bool} {scriptSig scriptPubKey : CScript}
  {flags : Nat}

/-- `scriptSig` comes first, then `scriptPubKey`, and for a pay-to-script-hash output what
`scriptSig` pushed last. -/
theorem trace_verifyScript (checkSig : valtype → valtype → CScript → Bool)
    (scriptSig scriptPubKey : CScript) (flags : Nat) :
    (verifyScript checkSig scriptSig scriptPubKey flags).trace =
        [evalScript ⟨scriptSig, flags, checkSig⟩ []] ∨
      (∃ stack, (verifyScript checkSig scriptSig scriptPubKey flags).trace =
        [evalScript ⟨scriptSig, flags, checkSig⟩ [],
          evalScript ⟨scriptPubKey, flags, checkSig⟩ stack]) ∨
      ∃ st vch rest, (evalScript ⟨scriptSig, flags, checkSig⟩ []).result = .ok st ∧
        st.stack = vch :: rest ∧ flags.testBit 0 = true ∧
        scriptPubKey.isPayToScriptHash = true ∧ scriptSig.isPushOnly = true ∧
        (verifyScript checkSig scriptSig scriptPubKey flags).trace =
          [evalScript ⟨scriptSig, flags, checkSig⟩ [],
            evalScript ⟨scriptPubKey, flags, checkSig⟩ st.stack,
            evalScript ⟨vch, flags, checkSig⟩ rest] := by
  unfold verifyScript
  cases hsig : (evalScript ⟨scriptSig, flags, checkSig⟩ []).result with
  | error e =>
    left
    rw [Traced.bind_of_error _ (result_evaluate_of_error hsig)]
    rfl
  | ok st =>
    rw [Traced.bind_of_ok _ (result_evaluate_of_ok hsig)]
    right
    cases hkey : (evalScript ⟨scriptPubKey, flags, checkSig⟩ st.stack).result with
    | error e =>
      left
      rw [Traced.bind_of_error _ (result_evaluate_of_error hkey)]
      exact ⟨st.stack, rfl⟩
    | ok stAfter =>
      rw [Traced.bind_of_ok _ (result_evaluate_of_ok hkey)]
      dsimp only
      split
      · exact .inl ⟨st.stack, rfl⟩
      split
      · rename_i hp2sh
        rw [Bool.and_eq_true] at hp2sh
        split
        · exact .inl ⟨st.stack, rfl⟩
        · rename_i hpush
          split
          · rename_i hnil
            rw [hnil]
            exact .inl ⟨[], rfl⟩
          · rename_i vch rest hstack
            refine .inr ⟨st, vch, rest, rfl, hstack, hp2sh.1, hp2sh.2, by simpa using hpush, ?_⟩
            rw [hstack]
            cases hredeem : (evalScript ⟨vch, flags, checkSig⟩ rest).result with
            | error e =>
              rw [Traced.bind_of_error _ (result_evaluate_of_error hredeem)]
              rfl
            | ok stRedeem =>
              rw [Traced.bind_of_ok _ (result_evaluate_of_ok hredeem)]
              dsimp only
              split <;> rfl
      · exact .inl ⟨st.stack, rfl⟩

/-- The last item that `scriptSig` pushes is what `GetSigOpCount(scriptSig)` reads. -/
theorem getSigOpCountP2SH_of_stack {st : ScriptState} {vch : valtype} {rest : List valtype}
    (hp2sh : scriptPubKey.isPayToScriptHash = true) (hpush : scriptSig.isPushOnly = true)
    (hsig : (evalScript ⟨scriptSig, flags, checkSig⟩ []).result = .ok st)
    (hstack : st.stack = vch :: rest) :
    getSigOpCount vch true ≤ scriptPubKey.getSigOpCountP2SH scriptSig := by
  have hpushed := EvalScript.stack_evalScript_pushOnly hpush hsig
  rw [hstack] at hpushed
  have hlast : (scriptSig.ops.1.map EvalScript.pushedBy).getLast? = some vch := by
    rw [← List.head?_reverse, ← hpushed]
    rfl
  rw [List.getLast?_map, Option.map_eq_some_iff] at hlast
  obtain ⟨op, hop, rfl⟩ := hlast
  rw [getSigOpCountP2SH, hp2sh, hpush, hop]
  by_cases hdata : op.1 ≤ OP_PUSHDATA4
  · rw [EvalScript.pushedBy, if_pos hdata]
    exact Nat.le_refl _
  · rw [isPushOnly, Bool.and_eq_true, List.all_eq_true] at hpush
    have hle := of_decide_eq_true (hpush.2 op (List.mem_of_getLast? hop))
    rw [EvalScript.getSigOpCount_pushedBy hle hdata]
    exact Nat.zero_le _

theorem calls_redeem_le {x : Eval ScriptState}
    (h : (verifyScript checkSig scriptSig scriptPubKey flags).trace[2]? = some x) :
    x.calls ≤ scriptPubKey.getSigOpCountP2SH scriptSig := by
  obtain htrace | ⟨stack, htrace⟩ | ⟨st, vch, rest, hsig, hstack, -, hp2sh, hpush, htrace⟩ :=
    trace_verifyScript checkSig scriptSig scriptPubKey flags
  · rw [htrace] at h
    cases h
  · rw [htrace] at h
    cases h
  · rw [htrace] at h
    obtain rfl := Option.some.inj h
    exact (calls_evalScript_le _ _).trans (getSigOpCountP2SH_of_stack hp2sh hpush hsig hstack)

end

end

end Terracoin
