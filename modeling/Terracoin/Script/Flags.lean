import Terracoin.Script.Verify

/-!
# The flags of a verification

An evaluation looks at one flag, `SCRIPT_VERIFY_STRICTENC`, and `VerifyScript` itself at
`SCRIPT_VERIFY_P2SH`; the other flags only reach `CheckSig`. `SCRIPT_VERIFY_P2SH` adds a condition
and takes none away, so what passes with it passes without it (`verifyScript_isOk_mono`).
-/

namespace Terracoin

open Traced (emit fail)
open CScript

/-- Contexts that an evaluation does not tell apart. -/
structure ScriptContext.Alike (ctx ctx' : ScriptContext) : Prop where
  script : ctx.script = ctx'.script
  checkSig : ctx.checkSig = ctx'.checkSig
  strict : EvalScript.fStrictEncodings ctx = EvalScript.fStrictEncodings ctx'

namespace ScriptContext.Alike

open EvalScript

variable {ctx ctx' : ScriptContext} (h : ctx.Alike ctx')

include h

theorem verifySignature (vchSig vchPubKey : valtype) (scriptCode : CScript) :
    EvalScript.verifySignature ctx vchSig vchPubKey scriptCode =
      EvalScript.verifySignature ctx' vchSig vchPubKey scriptCode := by
  unfold EvalScript.verifySignature isCanonical
  rw [h.strict, h.checkSig]

theorem scriptCode (st : ScriptState) : EvalScript.scriptCode ctx st = EvalScript.scriptCode ctx' st := by
  unfold EvalScript.scriptCode
  rw [h.script]

theorem checkSig_eq (fVerify : Bool) (st : ScriptState) :
    EvalScript.checkSig ctx fVerify st = EvalScript.checkSig ctx' fVerify st := by
  unfold EvalScript.checkSig
  simp only [h.verifySignature, h.scriptCode]

theorem matchSignatures (stack : List valtype) (code : CScript) (nKeysCount ikey isig nSigsCount : Nat) :
    EvalScript.matchSignatures ctx stack code nKeysCount ikey isig nSigsCount =
      EvalScript.matchSignatures ctx' stack code nKeysCount ikey isig nSigsCount := by
  induction nKeysCount generalizing ikey isig nSigsCount with
  | zero =>
    cases nSigsCount with
    | zero => rfl
    | succ nSigsCount => rfl
  | succ nKeysCount ih =>
    cases nSigsCount with
    | zero => rfl
    | succ nSigsCount => simp only [EvalScript.matchSignatures, h.verifySignature, ih]

theorem checkMultiSig (fVerify : Bool) (st : ScriptState) :
    EvalScript.checkMultiSig ctx fVerify st = EvalScript.checkMultiSig ctx' fVerify st := by
  unfold EvalScript.checkMultiSig checkSignatures
  simp only [h.matchSignatures, h.scriptCode]

/-! ## The loop -/

variable [ScriptHashing] [ByteHashing] [ByteHashing160]

theorem executeOpcode (pc : Nat) (st : ScriptState) (op : Opcode) :
    EvalScript.executeOpcode ctx pc st op = EvalScript.executeOpcode ctx' pc st op := by
  cases op
  case OP_CHECKSIG => simp only [EvalScript.executeOpcode, h.checkSig_eq]
  case OP_CHECKSIGVERIFY => simp only [EvalScript.executeOpcode, h.checkSig_eq]
  case OP_CHECKMULTISIG => simp only [EvalScript.executeOpcode, h.checkMultiSig]
  case OP_CHECKMULTISIGVERIFY => simp only [EvalScript.executeOpcode, h.checkMultiSig]
  all_goals rfl

theorem step (pc : Nat) (st : ScriptState) : EvalScript.step ctx pc st = EvalScript.step ctx' pc st := by
  unfold EvalScript.step perform execute
  simp only [h.script, h.executeOpcode]

theorem loop (fuel pc : Nat) (st : ScriptState) :
    EvalScript.loop ctx fuel pc st = EvalScript.loop ctx' fuel pc st := by
  induction fuel generalizing pc st with
  | zero => simp only [EvalScript.loop, h.script]
  | succ fuel ih => simp only [EvalScript.loop, h.script, h.step, ih]

theorem evaluate (stack : List valtype) :
    Terracoin.evaluate ctx stack = Terracoin.evaluate ctx' stack := by
  unfold Terracoin.evaluate evalScript
  rw [h.script, h.loop]

end ScriptContext.Alike

section

variable [ScriptHashing] [ByteHashing] [ByteHashing160]
  {checkSig : valtype → valtype → CScript → Bool} {scriptSig scriptPubKey : CScript}
  {flags flags' : Nat}

theorem evaluate_flags (hstrict : flags.testBit 1 = flags'.testBit 1) (script : CScript)
    (stack : List valtype) :
    evaluate ⟨script, flags, checkSig⟩ stack = evaluate ⟨script, flags', checkSig⟩ stack := by
  have halike : ScriptContext.Alike ⟨script, flags, checkSig⟩ ⟨script, flags', checkSig⟩ :=
    ⟨rfl, rfl, hstrict⟩
  exact halike.evaluate stack

omit [ScriptHashing] [ByteHashing] [ByteHashing160] in
theorem bind_isOk {ω ε α β : Type} {x : Traced ω ε α} {f : α → Traced ω ε β} :
    (x >>= f).result.isOk = true ↔ ∃ a, x.result = .ok a ∧ (f a).result.isOk = true := by
  show (Traced.bind x f).result.isOk = true ↔ _
  unfold Traced.bind
  cases x.result with
  | ok a => simp
  | error e => simp [Except.isOk, Except.toBool]

/-- What passes keeps passing without pay-to-script-hash, for a `CheckSig` that does not change. -/
theorem verifyScript_isOk_mono (hstrict : flags.testBit 1 = flags'.testBit 1)
    (hp2sh : flags'.testBit 0 = true → flags.testBit 0 = true)
    (h : (verifyScript checkSig scriptSig scriptPubKey flags).result.isOk = true) :
    (verifyScript checkSig scriptSig scriptPubKey flags').result.isOk = true := by
  simp only [verifyScript, bind_isOk] at h ⊢
  obtain ⟨stack, hsig, stackAfter, hpub, h⟩ := h
  rw [evaluate_flags hstrict] at hsig hpub
  refine ⟨stack, hsig, stackAfter, hpub, ?_⟩
  by_cases htop : topIsTrue stackAfter = true
  · rw [htop, Bool.not_true, if_neg Bool.false_ne_true] at h ⊢
    by_cases hcond : (flags'.testBit 0 && scriptPubKey.isPayToScriptHash) = true
    · rw [if_pos hcond]
      rw [Bool.and_eq_true] at hcond
      rw [if_pos (by rw [hp2sh hcond.1, hcond.2]; rfl)] at h
      simp only [evaluate_flags hstrict] at h
      exact h
    · rw [if_neg hcond]
      rfl
  · rw [if_pos (by simpa using htop)] at h
    cases h

end

end Terracoin
