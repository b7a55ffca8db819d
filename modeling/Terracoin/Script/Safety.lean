import Mathlib.Logic.Relation
import Terracoin.Script.Accesses

/-!
# Safety of evaluations

A run of `EvalScript` goes through positions and states (`Reaches`). It ends, stays above the
bottoms of the stacks and keeps to the size limits; it reads a byte outside of an element exactly
if it comes to `OP_RIPEMD160`, `OP_SHA1`, `OP_SHA256` or `OP_HASH160` with an empty element on top
(`evalScript_safe_iff`). On the way the calls of `CheckSig` are compared with what
`GetSigOpCount` counts (`meets_loop`).
-/

namespace Terracoin

open Traced (Meets)

/-! ## The values of the opcodes -/

theorem Opcode.mem_values {opcode : UInt8} {op : Opcode} (h : Opcode.ofByte opcode = some op) :
    (opcode, op) ∈ Opcode.values := by
  obtain ⟨l1, l2, hvalues, -⟩ := List.lookup_eq_some_iff.mp h
  rw [hvalues]
  exact List.mem_append_right _ List.mem_cons_self

namespace EvalScript

open CScript

theorem lt_of_takesAddress : ∀ opcode ∈ [OP_RIPEMD160, OP_SHA1, OP_SHA256, OP_HASH160],
    OP_16 < opcode ∧ OP_PUSHDATA4 < opcode ∧ OP_ENDIF < opcode := by
  decide +kernel

theorem takesAddress_values : ∀ p ∈ Opcode.values, takesAddress p.2 = true →
    p.1 ∈ [OP_RIPEMD160, OP_SHA1, OP_SHA256, OP_HASH160] := by
  decide +kernel

/-- The calls of `CheckSig` that an opcode makes if it is executed. -/
def byteChecks (stack : List valtype) (opcode : UInt8) : Nat :=
  (Opcode.ofByte opcode).elim 0 (sigChecks stack)

/-- What `GetSigOpCount` counts for an opcode after `lastOpcode`. -/
def sigOps (lastOpcode opcode : UInt8) : Nat :=
  if opcode = OP_CHECKSIG ∨ opcode = OP_CHECKSIGVERIFY then 1
  else if opcode = OP_CHECKMULTISIG ∨ opcode = OP_CHECKMULTISIGVERIFY then
    if OP_1 ≤ lastOpcode ∧ lastOpcode ≤ OP_16 then lastOpcode.toNat - (OP_1.toNat - 1) else 20
  else 0

theorem sigOpsFrom_cons (lastOpcode opcode : UInt8) (vch : valtype)
    (ops : List (UInt8 × List UInt8)) :
    sigOpsFrom true lastOpcode ((opcode, vch) :: ops) =
      sigOps lastOpcode opcode + sigOpsFrom true opcode ops := by
  rw [sigOpsFrom, sigOps]
  simp

/-- The opcode byte of the opcodes for signatures. -/
def signatureByte : Opcode → Option UInt8
  | .OP_CHECKSIG => some OP_CHECKSIG
  | .OP_CHECKSIGVERIFY => some OP_CHECKSIGVERIFY
  | .OP_CHECKMULTISIG => some OP_CHECKMULTISIG
  | .OP_CHECKMULTISIGVERIFY => some OP_CHECKMULTISIGVERIFY
  | _ => none

theorem signatureByte_values : ∀ p ∈ Opcode.values,
    ∀ byte ∈ signatureByte p.2, byte = p.1 := by
  decide +kernel

theorem byteChecks_of_le {opcode : UInt8} (h : opcode ≤ OP_ENDIF) (stack : List valtype) :
    byteChecks stack opcode = 0 := by
  unfold byteChecks
  cases hop : Opcode.ofByte opcode with
  | none => rfl
  | some op =>
    have hbyte := signatureByte_values _ (Opcode.mem_values hop)
    change sigChecks stack op = 0
    cases op with
    | OP_CHECKSIG | OP_CHECKSIGVERIFY | OP_CHECKMULTISIG | OP_CHECKMULTISIGVERIFY =>
      obtain rfl : opcode = _ := (hbyte _ rfl).symm
      exact absurd h (by decide)
    | _ => rfl

/-- After a small number that was executed, the number is on top of the stack. -/
def Follows (lastOpcode : UInt8) (st : ScriptState) : Prop :=
  OP_1 ≤ lastOpcode → lastOpcode ≤ OP_16 → st.fExec = true →
    numberOnTop st.stack = lastOpcode.toNat - (OP_1.toNat - 1)

theorem Follows.of_lt {lastOpcode : UInt8} (h : ¬ (OP_1 ≤ lastOpcode ∧ lastOpcode ≤ OP_16))
    (st : ScriptState) : Follows lastOpcode st := fun h1 h2 => absurd ⟨h1, h2⟩ h

theorem byteChecks_le {lastOpcode : UInt8} {st : ScriptState} (h : Follows lastOpcode st)
    (hexec : st.fExec = true) (opcode : UInt8) :
    byteChecks st.stack opcode ≤ sigOps lastOpcode opcode := by
  unfold byteChecks
  cases hop : Opcode.ofByte opcode with
  | none => exact Nat.zero_le _
  | some op =>
    have hbyte := signatureByte_values _ (Opcode.mem_values hop)
    have hmulti : min 20 (numberOnTop st.stack) ≤
        if OP_1 ≤ lastOpcode ∧ lastOpcode ≤ OP_16 then lastOpcode.toNat - (OP_1.toNat - 1)
        else 20 := by
      split
      · rename_i hlast
        rw [h hlast.1 hlast.2 hexec]
        exact Nat.min_le_right _ _
      · exact Nat.min_le_left _ _
    change sigChecks st.stack op ≤ _
    cases op with
    | OP_CHECKSIG | OP_CHECKSIGVERIFY =>
      obtain rfl : opcode = _ := (hbyte _ rfl).symm
      exact Nat.le_refl 1
    | OP_CHECKMULTISIG | OP_CHECKMULTISIGVERIFY =>
      obtain rfl : opcode = _ := (hbyte _ rfl).symm
      exact hmulti
    | _ => exact Nat.zero_le _

theorem numberOnTop_pushNumber {opcode : UInt8} (h1 : OP_1 ≤ opcode) (h2 : opcode ≤ OP_16)
    (stack : List valtype) :
    numberOnTop (CBigNum.getVch (opcode.toNat - (OP_1.toNat - 1)) :: stack) =
      opcode.toNat - (OP_1.toNat - 1) := by
  rw [numberOnTop, CBigNum.setVch_getVch, CBigNum.getInt_of_lt]
  all_goals
    unfold OP_1 at *
    unfold OP_16 at h2
    simp only [UInt8.le_iff_toNat_le] at *
    simp at *
    omega

/-- The next instruction will be executed, it is one of the four, and the top of the stack is
empty. -/
def HashesEmpty (ctx : ScriptContext) (pc : Nat) (st : ScriptState) : Prop :=
  ∃ opcode next, getOp (ctx.script.drop pc) = some (opcode, [], next) ∧
    opcode ∈ [OP_RIPEMD160, OP_SHA1, OP_SHA256, OP_HASH160] ∧ st.fExec = true ∧
    st.nOpCount < 201 ∧ st.stack.head? = some []

theorem HashesEmpty.lt {ctx : ScriptContext} {pc : Nat} {st : ScriptState}
    (h : HashesEmpty ctx pc st) : pc < ctx.script.length := by
  obtain ⟨opcode, next, hget, -⟩ := h
  refine Nat.lt_of_not_le fun hle => ?_
  rw [List.drop_eq_nil_of_le hle] at hget
  cases hget

section

variable [ScriptHashing] [ByteHashing] [ByteHashing160] {ctx : ScriptContext} {l : Limits}
  {A : Prop} {st : ScriptState} {opcode : UInt8} {pc : Nat}

theorem meets_execute (hst : Fits l st) (hlength : st.stack.length ≤ l.size)
    (hA : opcode ∈ [OP_RIPEMD160, OP_SHA1, OP_SHA256, OP_HASH160] → st.stack.head? = some [] → A) :
    Meets (contract A) (byteChecks st.stack opcode) (execute ctx opcode pc st)
      fun st' => Fits l st' ∧ Follows opcode st' := by
  refine .ite (fun hop => ?_) fun hop => ?_
  · refine .pure ⟨⟨hst.stack.cons (length_getVch_le_max ?_), hst.altstack⟩, ?_⟩
    · have := opcode.toNat_lt
      unfold OP_1
      simp
      omega
    · intro h1 h2 _
      exact numberOnTop_pushNumber h1 h2 st.stack
  · unfold byteChecks
    cases hbyte : Opcode.ofByte opcode with
    | none => exact meets_returnFalse
    | some op =>
      have hop' : ¬ (OP_1 ≤ opcode ∧ opcode ≤ OP_16) := fun h => hop (Or.inr h)
      refine (meets_executeOpcode ctx pc hst hlength op fun h => ?_).imp fun st' hst' =>
        ⟨hst', .of_lt hop' st'⟩
      exact hA (takesAddress_values _ (Opcode.mem_values hbyte) h)

theorem meets_perform {vch : valtype} (hst : Fits l st) (hlength : st.stack.length ≤ l.size)
    (hA : opcode ∈ [OP_RIPEMD160, OP_SHA1, OP_SHA256, OP_HASH160] → st.fExec = true →
      st.nOpCount < 201 → st.stack.head? = some [] → A) :
    Meets (contract A) (if st.fExec then byteChecks st.stack opcode else 0)
      (perform ctx opcode vch pc st) fun st' => Fits l st' ∧ Follows opcode st' := by
  refine .ite (fun _ => meets_returnFalse) fun hsize => ?_
  refine .ite (fun _ => meets_returnFalse) fun hcount => ?_
  refine .ite (fun _ => meets_returnFalse) fun _ => ?_
  refine .ite (fun hpush => ?_) fun _ => ?_
  · refine .pure ⟨⟨hst.stack.cons (l.le_of_le (Nat.le_of_not_lt hsize)), hst.altstack⟩, .of_lt ?_ _⟩
    intro h
    exact absurd (UInt8.le_trans h.1 hpush.2) (by decide)
  · refine .ite (fun hexecute => ?_) fun hskip =>
      .pure ⟨⟨hst.stack, hst.altstack⟩, fun _ _ hexec => absurd (Or.inl hexec) hskip⟩
    have hst1 : Fits l { st with
        nOpCount := if OP_16 < opcode then st.nOpCount + 1 else st.nOpCount } :=
      ⟨hst.stack, hst.altstack⟩
    cases hexec : st.fExec with
    | true =>
      refine meets_execute hst1 hlength fun hop hhead => hA hop hexec ?_ hhead
      have hlt := (lt_of_takesAddress opcode hop).1
      rw [if_pos hlt] at hcount
      exact Nat.lt_of_not_le fun h => hcount ⟨hlt, Nat.lt_succ_of_le h⟩
    | false =>
      obtain ⟨-, hle⟩ : OP_IF ≤ opcode ∧ opcode ≤ OP_ENDIF := by
        refine hexecute.resolve_left fun h => ?_
        exact absurd (hexec.symm.trans h) (by decide)
      have hzero : byteChecks st.stack opcode = 0 := byteChecks_of_le hle st.stack
      refine (meets_execute hst1 hlength fun hop _ => ?_).mono (Nat.le_of_eq hzero)
        fun _ h => h
      exact absurd hle (UInt8.not_le.mpr (lt_of_takesAddress opcode hop).2.2)

/-! ## The loop -/

/-- A step of the loop from a position and state to the next. -/
def Next (ctx : ScriptContext) (c c' : Nat × ScriptState) : Prop :=
  c.1 < ctx.script.length ∧ (step ctx c.1 c.2).result = .ok c'

/-- The loop goes from a position and state to another. -/
abbrev Reaches (ctx : ScriptContext) : Nat × ScriptState → Nat × ScriptState → Prop :=
  Relation.ReflTransGen (Next ctx)

/-- The state between two instructions. -/
structure Bounded (l : Limits) (st : ScriptState) : Prop extends Fits l st where
  size : st.stack.length + st.altstack.length ≤ l.size

theorem step_eq {vch : valtype} {next : CScript} (hpc : pc ≤ ctx.script.length)
    (hop : getOp (ctx.script.drop pc) = some (opcode, vch, next)) :
    step ctx pc st = perform ctx opcode vch (ctx.script.length - next.length) st >>= fun st =>
      checkSize st >>= fun st => pure (ctx.script.length - next.length, st) := by
  rw [step, getOp2_eq hpc, hop]
  rfl

theorem meets_step {vch : valtype} {next : CScript} (hst : Bounded l st)
    (hpc : pc ≤ ctx.script.length)
    (hop : getOp (ctx.script.drop pc) = some (opcode, vch, next)) (hA : HashesEmpty ctx pc st → A) :
    Meets (contract A) (if st.fExec then byteChecks st.stack opcode else 0) (step ctx pc st)
      fun c => c.1 = ctx.script.length - next.length ∧ Bounded l c.2 ∧ Follows opcode c.2 := by
  have hlength : st.stack.length ≤ l.size := Nat.le_trans (Nat.le_add_right _ _) hst.size
  rw [step_eq hpc hop]
  refine .bind (n := 0) (meets_perform hst.toFits hlength fun h hexec hcount hhead => hA ?_)
    fun st' hst' => ?_
  · have hnil := operand_eq_nil hop (lt_of_takesAddress opcode h).2.1
    exact ⟨opcode, next, hnil ▸ hop, h, hexec, hcount, hhead⟩
  · refine .bind_zero (P := fun st'' => st'' = st' ∧ Bounded l st') ?_ fun st'' hst'' => .pure ?_
    · exact .ite (fun _ => meets_returnFalse) fun h =>
        .pure ⟨rfl, hst'.1, Nat.le_trans (Nat.le_of_not_lt h) l.le_size⟩
    · obtain ⟨rfl, hbounded⟩ := hst''
      exact ⟨rfl, hbounded, hst'.2⟩

/-- The loop ends within the limits, and it calls `CheckSig` no more often than `GetSigOpCount`
counts from `lastOpcode` on. -/
theorem meets_loop {fuel : Nat} {lastOpcode : UInt8} (hst : Bounded l st)
    (hpc : pc ≤ ctx.script.length) (hfuel : ctx.script.length - pc ≤ fuel)
    (hlast : Follows lastOpcode st)
    (hA : ∀ c, Reaches ctx (pc, st) c → HashesEmpty ctx c.1 c.2 → A) :
    Meets (contract A) (sigOpsFrom true lastOpcode (parse fuel (ctx.script.drop pc)).1)
      (loop ctx fuel pc st) (Bounded l) := by
  induction fuel generalizing pc st lastOpcode with
  | zero =>
    rw [loop, if_neg (by omega)]
    exact .pure hst
  | succ fuel ih =>
    refine .ite (fun hlt => ?_) fun _ => .pure hst
    cases hop : getOp (ctx.script.drop pc) with
    | none =>
      rw [step, getOp2_eq hpc, hop]
      exact meets_returnFalse
    | some r =>
      obtain ⟨opcode, vch, next⟩ := r
      obtain ⟨hnext, hpc', hle⟩ := drop_of_getOp hpc hop
      rw [parse_of_getOp fuel hop, sigOpsFrom_cons]
      have hchecks : (if st.fExec then byteChecks st.stack opcode else 0) ≤
          sigOps lastOpcode opcode := by
        split
        · exact byteChecks_le hlast ‹_› opcode
        · exact Nat.zero_le _
      have hstep := meets_step (A := A) hst hpc hop (hA _ .refl)
      refine .bind (hstep.result.mono hchecks fun _ h => h) fun c hc => ?_
      obtain ⟨⟨hc1, hbounded, hfollows⟩, hresult⟩ := hc
      rw [← hnext, ← hc1]
      refine ih hbounded (hc1 ▸ hle) (by omega) hfollows fun c' hc' => hA c' (.head ?_ hc')
      exact ⟨hlt, hresult⟩

/-! ## A byte outside of an element -/

theorem outOfRange_execute (hop : opcode ∈ [OP_RIPEMD160, OP_SHA1, OP_SHA256, OP_HASH160])
    (hhead : st.stack.head? = some []) : .outOfRange ∈ (execute ctx opcode pc st).trace := by
  simp only [List.mem_cons, List.not_mem_nil, or_false] at hop
  obtain rfl | rfl | rfl | rfl := hop
  all_goals exact outOfRange_onStack (outOfRange_hashTop _ hhead)

theorem perform_of_executed (hop : opcode ∈ [OP_RIPEMD160, OP_SHA1, OP_SHA256, OP_HASH160])
    (hexec : st.fExec = true) (hcount : st.nOpCount < 201) :
    perform ctx opcode [] pc st =
      execute ctx opcode pc { st with nOpCount := st.nOpCount + 1 } := by
  obtain ⟨h16, hpush, -⟩ := lt_of_takesAddress opcode hop
  have hdisabled : isDisabled opcode = false := by
    revert opcode
    decide +kernel
  unfold perform
  rw [if_pos h16, if_neg (by simp), if_neg (by omega), hdisabled]
  simp only [Bool.false_eq_true, if_false]
  rw [if_neg fun h => absurd h.2 (UInt8.not_le.mpr hpush)]
  exact if_pos (Or.inl hexec)

theorem outOfRange_step (hpc : pc ≤ ctx.script.length) (h : HashesEmpty ctx pc st) :
    .outOfRange ∈ (step ctx pc st).trace := by
  obtain ⟨opcode, next, hget, hop, hexec, hcount, hhead⟩ := h
  rw [step_eq hpc hget, perform_of_executed hop hexec hcount]
  exact Traced.mem_trace_bind.mpr (Or.inl (outOfRange_execute hop hhead))

theorem Next.position {c c' : Nat × ScriptState} (h : Next ctx c c') :
    c.1 < c'.1 ∧ c'.1 ≤ ctx.script.length := by
  obtain ⟨hlt, hresult⟩ := h
  cases hop : getOp (ctx.script.drop c.1) with
  | none =>
    rw [step, getOp2_eq hlt.le, hop] at hresult
    cases hresult
  | some r =>
    obtain ⟨opcode, vch, next⟩ := r
    obtain ⟨-, hpos⟩ := drop_of_getOp hlt.le hop
    rw [step_eq hlt.le hop] at hresult
    obtain ⟨st1, -, h1⟩ := Traced.result_bind_ok.mp hresult
    obtain ⟨st2, -, h2⟩ := Traced.result_bind_ok.mp h1
    obtain rfl := Except.ok.inj h2
    exact hpos

theorem outOfRange_loop {c c' : Nat × ScriptState} {fuel : Nat} (h : Reaches ctx c c')
    (hempty : HashesEmpty ctx c'.1 c'.2) (hpc : c.1 ≤ ctx.script.length)
    (hfuel : ctx.script.length - c.1 ≤ fuel) : .outOfRange ∈ (loop ctx fuel c.1 c.2).trace := by
  induction h using Relation.ReflTransGen.head_induction_on generalizing fuel with
  | refl =>
    have hlt := hempty.lt
    cases fuel with
    | zero => omega
    | succ fuel =>
      rw [loop, if_pos hlt]
      exact Traced.mem_trace_bind.mpr (Or.inl (outOfRange_step hpc hempty))
  | head hnext _ ih =>
    obtain ⟨hlt, hle⟩ := hnext.position
    cases fuel with
    | zero => have := hnext.1; omega
    | succ fuel =>
      rw [loop, if_pos hnext.1]
      exact Traced.mem_trace_bind.mpr (Or.inr ⟨_, hnext.2, ih hle (by omega)⟩)

/-! ## Whole evaluations -/

/-- The evaluation ends, stays above the bottoms of the stacks, reads no byte outside of the script
or of an element, and leaves stacks within the limits. -/
structure Safe (x : Eval ScriptState) : Prop where
  terminates : x.result ≠ .error .outOfFuel
  aboveBottom : .belowStack ∉ x.trace
  inRange : .outOfRange ∉ x.trace
  size : ∀ st, x.result = .ok st → st.stack.length + st.altstack.length ≤ 1000
  small : ∀ st, x.result = .ok st → ∀ vch ∈ st.stack ++ st.altstack, vch.length ≤ 520

theorem meets_evalScript {stack : List valtype} (hlength : stack.length ≤ l.size)
    (hsmall : Small l stack) (hA : ctx.script.length ≤ 10000 →
      ∀ c, Reaches ctx (0, ScriptState.init stack) c → HashesEmpty ctx c.1 c.2 → A) :
    Meets (contract A) (ctx.script.getSigOpCount true) (evalScript ctx stack) (Bounded l) := by
  refine .ite (fun _ => meets_returnFalse) fun hscript => ?_
  have hinit : Bounded l (ScriptState.init stack) := ⟨⟨hsmall, fun _ h => nomatch h⟩, hlength⟩
  have hlast : Follows OP_INVALIDOPCODE (ScriptState.init stack) := .of_lt (by decide) _
  refine .bind (n := 0) (meets_loop hinit (Nat.zero_le _) (Nat.le_refl _) hlast
    (hA (Nat.le_of_not_lt hscript))) fun st hst => ?_
  exact .ite (fun _ => meets_returnFalse) fun _ => .pure hst

theorem outOfRange_evalScript {stack : List valtype} {c : Nat × ScriptState}
    (hscript : ctx.script.length ≤ 10000) (hc : Reaches ctx (0, ScriptState.init stack) c)
    (h : HashesEmpty ctx c.1 c.2) : .outOfRange ∈ (evalScript ctx stack).trace := by
  rw [evalScript, if_neg (Nat.not_lt.mpr hscript)]
  exact Traced.mem_trace_bind.mpr (Or.inl (outOfRange_loop hc h (Nat.zero_le _) (Nat.le_refl _)))

end

end EvalScript

open EvalScript in
/-- From a stack within the limits, an evaluation is safe exactly if it does not come to
`OP_RIPEMD160`, `OP_SHA1`, `OP_SHA256` or `OP_HASH160` with an empty element on top. -/
theorem evalScript_safe_iff [ScriptHashing] [ByteHashing] [ByteHashing160] (ctx : ScriptContext)
    (stack : List valtype) (hlength : stack.length ≤ 1000)
    (hsmall : ∀ vch ∈ stack, vch.length ≤ 520) :
    Safe (evalScript ctx stack) ↔ (ctx.script.length ≤ 10000 →
      ∀ c, Reaches ctx (0, ScriptState.init stack) c → ¬ HashesEmpty ctx c.1 c.2) := by
  constructor
  · intro h hscript c hc hempty
    exact h.inRange (outOfRange_evalScript hscript hc hempty)
  · intro h
    have hmeets := meets_evalScript (l := .checked) (A := False) hlength hsmall h
    refine ⟨fun he => hmeets.failure _ he rfl, fun ho => (hmeets.allowed _ ho).1 rfl,
      fun ho => (hmeets.allowed _ ho).2 rfl, fun st hst => (hmeets.ok st hst).size,
      fun st hst vch hvch => ?_⟩
    have hst := hmeets.ok st hst
    exact (List.mem_append.mp hvch).elim (hst.stack vch) (hst.altstack vch)

namespace ScriptSample

scoped instance scriptHashing : ScriptHashing :=
  ⟨fun bytes => bytes.length, fun bytes => bytes.length, fun bytes => bytes.length⟩

scoped instance hashing : ByteHashing := ⟨fun bytes => bytes.length⟩

scoped instance hashing160 : ByteHashing160 := ⟨fun bytes => bytes.length⟩

/-- The script of an opcode alone, and `CheckSig` never succeeds. -/
def ctx (opcode : UInt8) : ScriptContext := ⟨[opcode], 0, fun _ _ _ => false⟩

open EvalScript in
/-- `OP_SHA256` of an element of one byte. -/
theorem evalScript_safe_iff_sample :
    Safe (evalScript (ctx CScript.OP_SHA256) [[0]]) ↔
      ((ctx CScript.OP_SHA256).script.length ≤ 10000 →
        ∀ c, Reaches (ctx CScript.OP_SHA256) (0, ScriptState.init [[0]]) c →
          ¬ HashesEmpty (ctx CScript.OP_SHA256) c.1 c.2) :=
  evalScript_safe_iff (ctx CScript.OP_SHA256) [[0]] (by decide) (by decide)

/-- `OP_SHA256` of an empty element. -/
theorem not_safe_evalScript :
    ([[]] : List valtype).length ≤ 1000 ∧ (∀ vch ∈ ([[]] : List valtype), vch.length ≤ 520) ∧
      ¬ EvalScript.Safe (evalScript (ctx CScript.OP_SHA256) [[]]) := by
  refine ⟨by decide, by decide, fun h => ?_⟩
  exact h.inRange (by decide)

end ScriptSample

end Terracoin
