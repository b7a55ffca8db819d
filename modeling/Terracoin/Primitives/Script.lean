import Terracoin.Primitives.Transaction

/-!
# Scripts

The parser `CScript::GetOp2`, the signature-operation counts and the pattern tests that block
and pool validation use. Running a script is left to `ScriptEngine`.
-/

namespace Terracoin

namespace CScript

def OP_PUSHDATA1 : UInt8 := 0x4c
def OP_PUSHDATA2 : UInt8 := 0x4d
def OP_PUSHDATA4 : UInt8 := 0x4e
def OP_1 : UInt8 := 0x51
def OP_16 : UInt8 := 0x60
def OP_DUP : UInt8 := 0x76
def OP_EQUAL : UInt8 := 0x87
def OP_EQUALVERIFY : UInt8 := 0x88
def OP_HASH160 : UInt8 := 0xa9
def OP_CHECKSIG : UInt8 := 0xac
def OP_CHECKSIGVERIFY : UInt8 := 0xad
def OP_CHECKMULTISIG : UInt8 := 0xae
def OP_CHECKMULTISIGVERIFY : UInt8 := 0xaf
def OP_INVALIDOPCODE : UInt8 := 0xff

/-! ## Parsing -/

/-- The length of the immediate operand after `opcode`, and what follows the length field. -/
def operandSize (opcode : UInt8) (pc : CScript) : Option (Nat × CScript) :=
  if opcode < OP_PUSHDATA1 then some (opcode.toNat, pc)
  else if opcode = OP_PUSHDATA1 then
    match pc with
    | a :: pc => some (a.toNat, pc)
    | _ => none
  else if opcode = OP_PUSHDATA2 then
    match pc with
    | a :: b :: pc => some (a.toNat + 2 ^ 8 * b.toNat, pc)
    | _ => none
  else if opcode = OP_PUSHDATA4 then
    match pc with
    | a :: b :: c :: d :: pc =>
      some (a.toNat + 2 ^ 8 * b.toNat + 2 ^ 16 * c.toNat + 2 ^ 24 * d.toNat, pc)
    | _ => none
  else some (0, pc)

/-- `GetOp2`: the opcode at the start of the script, its operand, and the rest. -/
def getOp : CScript → Option (UInt8 × List UInt8 × CScript)
  | [] => none
  | opcode :: pc =>
    match operandSize opcode pc with
    | none => none
    | some (nSize, pc) =>
      if pc.length < nSize then none else some (opcode, pc.take nSize, pc.drop nSize)

/-- The opcodes parsed one after the other, up to the end or the first malformed one; whether
the end was reached. An opcode takes a byte, so the length of the script is enough fuel. -/
def parse : Nat → CScript → List (UInt8 × List UInt8) × Bool
  | _, [] => ([], true)
  | 0, _ :: _ => ([], false)
  | fuel + 1, pc =>
    match getOp pc with
    | none => ([], false)
    | some (opcode, data, pc) =>
      let (ops, fEnd) := parse fuel pc
      ((opcode, data) :: ops, fEnd)

def ops (s : CScript) : List (UInt8 × List UInt8) × Bool := parse s.length s

/-! ## Counting signature operations -/

/-- The loop of `GetSigOpCount(bool)` with `lastOpcode`. -/
def sigOpsFrom (fAccurate : Bool) : UInt8 → List (UInt8 × List UInt8) → Nat
  | _, [] => 0
  | lastOpcode, (opcode, _) :: ops =>
    (if opcode = OP_CHECKSIG ∨ opcode = OP_CHECKSIGVERIFY then 1
      else if opcode = OP_CHECKMULTISIG ∨ opcode = OP_CHECKMULTISIGVERIFY then
        if fAccurate ∧ OP_1 ≤ lastOpcode ∧ lastOpcode ≤ OP_16 then
          lastOpcode.toNat - (OP_1.toNat - 1)
        else 20
      else 0) + sigOpsFrom fAccurate opcode ops

def getSigOpCount (s : CScript) (fAccurate : Bool) : Nat :=
  sigOpsFrom fAccurate OP_INVALIDOPCODE s.ops.1

def isPayToScriptHash (s : CScript) : Bool :=
  s.length == 23 && s[0]? == some OP_HASH160 && s[1]? == some 0x14 && s[22]? == some OP_EQUAL

def isPushOnly (s : CScript) : Bool := s.ops.2 && s.ops.1.all (fun op => op.1 ≤ OP_16)

/-- `GetSigOpCount(const CScript&)`: for a pay-to-script-hash script, the count of the last item
that `scriptSig` pushes. -/
def getSigOpCountP2SH (s scriptSig : CScript) : Nat :=
  if !s.isPayToScriptHash then s.getSigOpCount true
  else if !scriptSig.isPushOnly then 0
  else getSigOpCount ((scriptSig.ops.1.getLast?.map Prod.snd).getD []) true

end CScript

/-- Running scripts: `VerifyScript(scriptSig, scriptPubKey, txTo, nIn, flags, nHashType)`, and the
standardness tests that go through `Solver` and `EvalScript`. -/
class ScriptEngine where
  verifyScript : CScript → CScript → CTransaction → Nat → Nat → Nat → Bool
  isStandardScript : CScript → Bool
  /-- The body of the loop of `AreInputsStandard`: the previous output of an input is standard
  and the input brings the arguments it expects. -/
  isStandardInput : CTransaction → Nat → CTxOut → Bool

def CTransaction.getLegacySigOpCount (tx : CTransaction) : Nat :=
  (tx.vin.map fun txin => txin.scriptSig.getSigOpCount false).sum +
    (tx.vout.map fun txout => txout.scriptPubKey.getSigOpCount false).sum

end Terracoin
