import Terracoin.Lib.Traced
import Terracoin.Net.Message
import Terracoin.Script.Numbers
import Terracoin.Wallet.Key

/-!
# The script interpreter

`EvalScript` of `script.cpp`. A stack is a list with its top first. What the source does not check
is checked here: an access below the bottom of a stack and a byte that is read outside a vector
leave an event in the trace of the evaluation, and so does every call of `CheckSig`.

The cases of the opcodes that the loop refuses before its `switch` (`OP_CAT` to `OP_RSHIFT`, see
`isDisabled`) are never reached and are left out.
-/

namespace Terracoin

open Traced (emit fail)

inductive ScriptEvent
  /-- `CheckSig` is called. -/
  | checkSig
  /-- An element below the bottom of the stack or of the altstack. -/
  | belowStack
  /-- A byte outside of a byte vector. -/
  | outOfRange
deriving DecidableEq, Repr

/-- How an evaluation ends if it does not reach the end of the script. -/
inductive ScriptError
  | returnFalse
  /-- `catch (...)`, which also returns false. -/
  | exception
  | outOfFuel
deriving DecidableEq, Repr

/-- A part of the evaluation of a script. -/
abbrev Eval := Traced ScriptEvent ScriptError

/-- The hash functions of OpenSSL that opcodes are named after. -/
class ScriptHashing where
  ripemd160 : List UInt8 → uint160
  sha1 : List UInt8 → uint160
  sha256 : List UInt8 → uint256

def writeUint160 (a : uint160) : List UInt8 := littleEndian 20 a.toNat

theorem length_writeUint160 (a : uint160) : (writeUint160 a).length = 20 :=
  length_littleEndian 20 _

/-- What does not change during an evaluation: the script, the flags, and `CheckSig` of a
signature, a public key and the script code, for the transaction, the input and the hash type. -/
structure ScriptContext where
  script : CScript
  flags : Nat
  checkSig : valtype → valtype → CScript → Bool

/-- The variables of `EvalScript`; the last element of `vfExec` is the head, and
`pbegincodehash` is a position in the script. -/
structure ScriptState where
  stack : List valtype
  altstack : List valtype
  vfExec : List Bool
  nOpCount : Nat
  pbegincodehash : Nat

def ScriptState.fExec (st : ScriptState) : Bool := st.vfExec.all id

namespace CScript

/-! ## Opcodes -/

def OP_1NEGATE : UInt8 := 0x4f
def OP_NOP : UInt8 := 0x61
def OP_IF : UInt8 := 0x63
def OP_ENDIF : UInt8 := 0x68
def OP_RIPEMD160 : UInt8 := 0xa6
def OP_SHA1 : UInt8 := 0xa7
def OP_SHA256 : UInt8 := 0xa8
def OP_HASH256 : UInt8 := 0xaa

def MAX_SCRIPT_ELEMENT_SIZE : Nat := 520

/-- `OP_CAT`, `OP_SUBSTR`, `OP_LEFT`, `OP_RIGHT`, `OP_INVERT`, `OP_AND`, `OP_OR`, `OP_XOR`,
`OP_2MUL`, `OP_2DIV`, `OP_MUL`, `OP_DIV`, `OP_MOD`, `OP_LSHIFT` and `OP_RSHIFT`. -/
def isDisabled (opcode : UInt8) : Bool :=
  [0x7e, 0x7f, 0x80, 0x81, 0x83, 0x84, 0x85, 0x86, 0x8d, 0x8e, 0x95, 0x96, 0x97, 0x98,
    0x99].contains opcode

/-- `operator<<` of a byte vector: what it appends. -/
def push (b : valtype) : CScript :=
  if b.length < OP_PUSHDATA1.toNat then UInt8.ofNat b.length :: b
  else if b.length ≤ 0xff then OP_PUSHDATA1 :: UInt8.ofNat b.length :: b
  else if b.length ≤ 0xffff then OP_PUSHDATA2 :: (littleEndian 2 b.length ++ b)
  else OP_PUSHDATA4 :: (littleEndian 4 b.length ++ b)

/-- The inner loop of `FindAndDelete`: erase the pattern as often as it is at `pc`. -/
def eraseMatches (b : CScript) : Nat → CScript → CScript
  | 0, pc => pc
  | fuel + 1, pc =>
    if b.length ≤ pc.length ∧ pc.take b.length = b then eraseMatches b fuel (pc.drop b.length)
    else pc

def findAndDeleteFrom (b : CScript) : Nat → CScript → CScript
  | 0, pc => pc
  | fuel + 1, pc =>
    let pc := eraseMatches b pc.length pc
    match getOp pc with
    | none => pc
    | some (_, _, next) => pc.take (pc.length - next.length) ++ findAndDeleteFrom b fuel next

def findAndDelete (s b : CScript) : CScript :=
  if b = [] then s else findAndDeleteFrom b s.length s

end CScript

/-- The other opcodes with a case in the `switch`; `OP_NOP` stands for `OP_NOP1` to `OP_NOP10`
too. -/
inductive Opcode
  | OP_NOP | OP_IF | OP_NOTIF | OP_ELSE | OP_ENDIF | OP_VERIFY | OP_RETURN
  | OP_TOALTSTACK | OP_FROMALTSTACK | OP_2DROP | OP_2DUP | OP_3DUP | OP_2OVER | OP_2ROT | OP_2SWAP
  | OP_IFDUP | OP_DEPTH | OP_DROP | OP_DUP | OP_NIP | OP_OVER | OP_PICK | OP_ROLL | OP_ROT
  | OP_SWAP | OP_TUCK | OP_SIZE | OP_EQUAL | OP_EQUALVERIFY
  | OP_1ADD | OP_1SUB | OP_NEGATE | OP_ABS | OP_NOT | OP_0NOTEQUAL
  | OP_ADD | OP_SUB | OP_BOOLAND | OP_BOOLOR | OP_NUMEQUAL | OP_NUMEQUALVERIFY | OP_NUMNOTEQUAL
  | OP_LESSTHAN | OP_GREATERTHAN | OP_LESSTHANOREQUAL | OP_GREATERTHANOREQUAL | OP_MIN | OP_MAX
  | OP_WITHIN | OP_RIPEMD160 | OP_SHA1 | OP_SHA256 | OP_HASH160 | OP_HASH256 | OP_CODESEPARATOR
  | OP_CHECKSIG | OP_CHECKSIGVERIFY | OP_CHECKMULTISIG | OP_CHECKMULTISIGVERIFY
deriving DecidableEq, Repr

namespace Opcode

def values : List (UInt8 × Opcode) := [
  (0x61, OP_NOP), (0x63, OP_IF), (0x64, OP_NOTIF), (0x67, OP_ELSE), (0x68, OP_ENDIF),
  (0x69, OP_VERIFY), (0x6a, OP_RETURN), (0x6b, OP_TOALTSTACK), (0x6c, OP_FROMALTSTACK),
  (0x6d, OP_2DROP), (0x6e, OP_2DUP), (0x6f, OP_3DUP), (0x70, OP_2OVER), (0x71, OP_2ROT),
  (0x72, OP_2SWAP), (0x73, OP_IFDUP), (0x74, OP_DEPTH), (0x75, OP_DROP), (0x76, OP_DUP),
  (0x77, OP_NIP), (0x78, OP_OVER), (0x79, OP_PICK), (0x7a, OP_ROLL), (0x7b, OP_ROT),
  (0x7c, OP_SWAP), (0x7d, OP_TUCK), (0x82, OP_SIZE), (0x87, OP_EQUAL), (0x88, OP_EQUALVERIFY),
  (0x8b, OP_1ADD), (0x8c, OP_1SUB), (0x8f, OP_NEGATE), (0x90, OP_ABS), (0x91, OP_NOT),
  (0x92, OP_0NOTEQUAL), (0x93, OP_ADD), (0x94, OP_SUB), (0x9a, OP_BOOLAND), (0x9b, OP_BOOLOR),
  (0x9c, OP_NUMEQUAL), (0x9d, OP_NUMEQUALVERIFY), (0x9e, OP_NUMNOTEQUAL), (0x9f, OP_LESSTHAN),
  (0xa0, OP_GREATERTHAN), (0xa1, OP_LESSTHANOREQUAL), (0xa2, OP_GREATERTHANOREQUAL),
  (0xa3, OP_MIN), (0xa4, OP_MAX), (0xa5, OP_WITHIN), (0xa6, OP_RIPEMD160), (0xa7, OP_SHA1),
  (0xa8, OP_SHA256), (0xa9, OP_HASH160), (0xaa, OP_HASH256), (0xab, OP_CODESEPARATOR),
  (0xac, OP_CHECKSIG), (0xad, OP_CHECKSIGVERIFY), (0xae, OP_CHECKMULTISIG),
  (0xaf, OP_CHECKMULTISIGVERIFY), (0xb0, OP_NOP), (0xb1, OP_NOP), (0xb2, OP_NOP), (0xb3, OP_NOP),
  (0xb4, OP_NOP), (0xb5, OP_NOP), (0xb6, OP_NOP), (0xb7, OP_NOP), (0xb8, OP_NOP), (0xb9, OP_NOP)]

def ofByte (opcode : UInt8) : Option Opcode := values.lookup opcode

end Opcode

namespace EvalScript

open CScript

/-! ## Accesses -/

section

variable {α : Type}

/-- `stack.at` and `popstack` throw. -/
def belowStack : Eval α := do
  emit .belowStack
  fail .exception

end

def stacktop (stack : List valtype) : Nat → Eval valtype
  | 0 => belowStack
  | i + 1 =>
    match stack[i]? with
    | some vch => pure vch
    | none => belowStack

def popstack : List valtype → Eval (List valtype)
  | [] => belowStack
  | _ :: stack => pure stack

/-- `stack.erase(stack.end()-i, stack.end()-j)`. -/
def eraseRange (stack : List valtype) (i j : Nat) : Eval (List valtype) :=
  if j ≤ i ∧ i ≤ stack.length then pure (stack.take j ++ stack.drop i) else belowStack

/-- `stack.erase(stack.end()-i)`. -/
def erase (stack : List valtype) (i : Nat) : Eval (List valtype) :=
  if 0 < i then eraseRange stack i (i - 1) else belowStack

/-- `stack.insert(stack.end()-i, vch)`. -/
def insert (stack : List valtype) (i : Nat) (vch : valtype) : Eval (List valtype) :=
  if i ≤ stack.length then pure (stack.take i ++ vch :: stack.drop i) else belowStack

/-- `swap(stacktop(-i), stacktop(-j))`. -/
def swapTop (stack : List valtype) (i j : Nat) : Eval (List valtype) := do
  let vch1 ← stacktop stack i
  let vch2 ← stacktop stack j
  pure ((stack.set (i - 1) vch2).set (j - 1) vch1)

/-- `vch[i]`. -/
def index (vch : List UInt8) (i : Nat) : Eval UInt8 :=
  match vch[i]? with
  | some b => pure b
  | none => do
    emit .outOfRange
    pure 0

/-- `n` bytes from `vch[i]` on. -/
def copy (vch : List UInt8) (i n : Nat) : Eval (List UInt8) :=
  if i + n ≤ vch.length then pure ((vch.drop i).take n)
  else do
    emit .outOfRange
    pure (List.replicate n 0)

/-- The length of the immediate operand in `GetOp2`, with the position after it. -/
def readSize (script : CScript) (opcode : UInt8) (pc : Nat) : Eval (Option (Nat × Nat)) :=
  if opcode < OP_PUSHDATA1 then pure (some (opcode.toNat, pc))
  else if opcode = OP_PUSHDATA1 then
    if script.length - pc < 1 then pure none
    else do
      let b ← index script pc
      pure (some (b.toNat, pc + 1))
  else if opcode = OP_PUSHDATA2 then
    if script.length - pc < 2 then pure none
    else do
      let bytes ← copy script pc 2
      pure (some (CBigNum.unsigned bytes, pc + 2))
  else
    if script.length - pc < 4 then pure none
    else do
      let bytes ← copy script pc 4
      pure (some (CBigNum.unsigned bytes, pc + 4))

/-- `GetOp2`: the opcode, its operand and the position after it, unless it returns false. -/
def getOp2 (script : CScript) (pc : Nat) : Eval (Option (UInt8 × valtype × Nat)) :=
  if script.length ≤ pc then pure none
  else do
    let opcode ← index script pc
    if OP_PUSHDATA4 < opcode then pure (some (opcode, [], pc + 1))
    else do
      let size ← readSize script opcode (pc + 1)
      match size with
      | none => pure none
      | some (nSize, pc) =>
        if script.length - pc < nSize then pure none
        else do
          let vch ← copy script pc nSize
          pure (some (opcode, vch, pc + nSize))

def isCanonicalPubKey (vchPubKey : valtype) : Eval Bool :=
  if vchPubKey.length < 33 then pure false
  else do
    let b ← index vchPubKey 0
    if b = 0x04 then pure (vchPubKey.length == 65)
    else if b = 0x02 ∨ b = 0x03 then pure (vchPubKey.length == 33)
    else pure false

/-- The tests of `R` and of `S`, which start at `n` and are `nLen` bytes long. -/
def isCanonicalInteger (vchSig : valtype) (n nLen : Nat) : Eval Bool := do
  let first ← index vchSig n
  let type ← index vchSig (n - 2)
  if type ≠ 0x02 then pure false
  else if nLen = 0 then pure false
  else if first &&& 0x80 ≠ 0 then pure false
  else if 1 < nLen ∧ first = 0 then do
    let second ← index vchSig (n + 1)
    pure (second &&& 0x80 != 0)
  else pure true

def isCanonicalSignature (vchSig : valtype) : Eval Bool :=
  if vchSig.length < 9 then pure false
  else if 73 < vchSig.length then pure false
  else do
    let last ← index vchSig (vchSig.length - 1)
    let nHashType := last &&& ~~~0x80
    if nHashType < 1 ∨ 3 < nHashType then pure false
    else do
      let type ← index vchSig 0
      if type ≠ 0x30 then pure false
      else do
        let nLen ← index vchSig 1
        if nLen.toNat ≠ vchSig.length - 3 then pure false
        else do
          let nLenR ← index vchSig 3
          if vchSig.length ≤ 5 + nLenR.toNat then pure false
          else do
            let nLenS ← index vchSig (5 + nLenR.toNat)
            if nLenR.toNat + nLenS.toNat + 7 ≠ vchSig.length then pure false
            else do
              let fR ← isCanonicalInteger vchSig 4 nLenR.toNat
              if fR then isCanonicalInteger vchSig (6 + nLenR.toNat) nLenS.toNat else pure false

/-! ## Opcodes that work on the stack -/

def twoDrop (stack : List valtype) : Eval (List valtype) :=
  if stack.length < 2 then fail .returnFalse
  else do
    let stack ← popstack stack
    popstack stack

def twoDup (stack : List valtype) : Eval (List valtype) :=
  if stack.length < 2 then fail .returnFalse
  else do
    let vch1 ← stacktop stack 2
    let vch2 ← stacktop stack 1
    pure (vch2 :: vch1 :: stack)

def threeDup (stack : List valtype) : Eval (List valtype) :=
  if stack.length < 3 then fail .returnFalse
  else do
    let vch1 ← stacktop stack 3
    let vch2 ← stacktop stack 2
    let vch3 ← stacktop stack 1
    pure (vch3 :: vch2 :: vch1 :: stack)

def twoOver (stack : List valtype) : Eval (List valtype) :=
  if stack.length < 4 then fail .returnFalse
  else do
    let vch1 ← stacktop stack 4
    let vch2 ← stacktop stack 3
    pure (vch2 :: vch1 :: stack)

def twoRot (stack : List valtype) : Eval (List valtype) :=
  if stack.length < 6 then fail .returnFalse
  else do
    let vch1 ← stacktop stack 6
    let vch2 ← stacktop stack 5
    let stack ← eraseRange stack 6 4
    pure (vch2 :: vch1 :: stack)

def twoSwap (stack : List valtype) : Eval (List valtype) :=
  if stack.length < 4 then fail .returnFalse
  else do
    let stack ← swapTop stack 4 2
    swapTop stack 3 1

def ifDup (stack : List valtype) : Eval (List valtype) :=
  if stack.length < 1 then fail .returnFalse
  else do
    let vch ← stacktop stack 1
    pure (if castToBool vch then vch :: stack else stack)

def depth (stack : List valtype) : Eval (List valtype) :=
  pure (CBigNum.getVch stack.length :: stack)

def drop (stack : List valtype) : Eval (List valtype) :=
  if stack.length < 1 then fail .returnFalse else popstack stack

def dup (stack : List valtype) : Eval (List valtype) :=
  if stack.length < 1 then fail .returnFalse
  else do
    let vch ← stacktop stack 1
    pure (vch :: stack)

def nip (stack : List valtype) : Eval (List valtype) :=
  if stack.length < 2 then fail .returnFalse else erase stack 2

def opOver (stack : List valtype) : Eval (List valtype) :=
  if stack.length < 2 then fail .returnFalse
  else do
    let vch ← stacktop stack 2
    pure (vch :: stack)

def rot (stack : List valtype) : Eval (List valtype) :=
  if stack.length < 3 then fail .returnFalse
  else do
    let stack ← swapTop stack 3 2
    swapTop stack 2 1

def swap (stack : List valtype) : Eval (List valtype) :=
  if stack.length < 2 then fail .returnFalse else swapTop stack 2 1

def tuck (stack : List valtype) : Eval (List valtype) :=
  if stack.length < 2 then fail .returnFalse
  else do
    let vch ← stacktop stack 1
    insert stack 2 vch

def castToBigNum (vch : valtype) : Eval Int :=
  if nMaxNumSize < vch.length then fail .exception
  else pure (CBigNum.setVch (CBigNum.getVch (CBigNum.setVch vch)))

/-- `OP_PICK`, or `OP_ROLL` with `fRoll`. -/
def pickRoll (fRoll : Bool) (stack : List valtype) : Eval (List valtype) :=
  if stack.length < 2 then fail .returnFalse
  else do
    let vch ← stacktop stack 1
    let bn ← castToBigNum vch
    let stack ← popstack stack
    if CBigNum.getInt bn < 0 ∨ stack.length ≤ CBigNum.getInt bn then fail .returnFalse
    else do
      let n := (CBigNum.getInt bn).toNat
      let vch ← stacktop stack (n + 1)
      if fRoll then do
        let stack ← erase stack (n + 1)
        pure (vch :: stack)
      else pure (vch :: stack)

def size (stack : List valtype) : Eval (List valtype) :=
  if stack.length < 1 then fail .returnFalse
  else do
    let vch ← stacktop stack 1
    pure (CBigNum.getVch vch.length :: stack)

/-- The end of the opcodes with a `VERIFY` variant: the result is pushed, and removed again by the
variant. -/
def pushResult (fVerify fSuccess : Bool) (stack : List valtype) : Eval (List valtype) :=
  let stack := (if fSuccess then vchTrue else vchFalse) :: stack
  if fVerify then if fSuccess then popstack stack else fail .returnFalse
  else pure stack

def equal (fVerify : Bool) (stack : List valtype) : Eval (List valtype) :=
  if stack.length < 2 then fail .returnFalse
  else do
    let vch1 ← stacktop stack 2
    let vch2 ← stacktop stack 1
    let stack ← popstack stack
    let stack ← popstack stack
    pushResult fVerify (vch1 == vch2) stack

/-! ## Numeric opcodes -/

/-- `bn = (condition)`. -/
def ofBool (b : Bool) : Int := if b then 1 else 0

/-- An opcode that computes `f` of a number. -/
def numeric1 (f : Int → Int) (stack : List valtype) : Eval (List valtype) :=
  if stack.length < 1 then fail .returnFalse
  else do
    let vch ← stacktop stack 1
    let bn ← castToBigNum vch
    let stack ← popstack stack
    pure (CBigNum.getVch (f bn) :: stack)

/-- An opcode that computes `f` of two numbers. -/
def numeric2 (f : Int → Int → Int) (stack : List valtype) : Eval (List valtype) :=
  if stack.length < 2 then fail .returnFalse
  else do
    let vch1 ← stacktop stack 2
    let bn1 ← castToBigNum vch1
    let vch2 ← stacktop stack 1
    let bn2 ← castToBigNum vch2
    let stack ← popstack stack
    let stack ← popstack stack
    pure (CBigNum.getVch (f bn1 bn2) :: stack)

/-- The end of `OP_NUMEQUALVERIFY`. -/
def verifyTop (stack : List valtype) : Eval (List valtype) := do
  let vch ← stacktop stack 1
  if castToBool vch then popstack stack else fail .returnFalse

def within (stack : List valtype) : Eval (List valtype) :=
  if stack.length < 3 then fail .returnFalse
  else do
    let vch1 ← stacktop stack 3
    let bn1 ← castToBigNum vch1
    let vch2 ← stacktop stack 2
    let bn2 ← castToBigNum vch2
    let vch3 ← stacktop stack 1
    let bn3 ← castToBigNum vch3
    let stack ← popstack stack
    let stack ← popstack stack
    let stack ← popstack stack
    pure ((if bn2 ≤ bn1 ∧ bn1 < bn3 then vchTrue else vchFalse) :: stack)

section

variable [ScriptHashing] [ByteHashing] [ByteHashing160]

/-- The address of the first byte, `&vch[0]`, goes to OpenSSL. -/
def hashFrom (hash : List UInt8 → valtype) (vch : valtype) : Eval valtype := do
  let _ ← index vch 0
  pure (hash vch)

def hashRIPEMD160 : valtype → Eval valtype :=
  hashFrom fun vch => writeUint160 (ScriptHashing.ripemd160 vch)

def hashSHA1 : valtype → Eval valtype := hashFrom fun vch => writeUint160 (ScriptHashing.sha1 vch)

def hashSHA256 : valtype → Eval valtype :=
  hashFrom fun vch => writeUint256 (ScriptHashing.sha256 vch)

/-- `Hash160`. -/
def hashHASH160 : valtype → Eval valtype :=
  hashFrom fun vch => writeUint160 (ByteHashing160.hash160 vch)

/-- `Hash`, which passes another address if there are no bytes. -/
def hashHASH256 (vch : valtype) : Eval valtype := pure (writeUint256 (ByteHashing.hash vch))

end

def hashTop (hash : valtype → Eval valtype) (stack : List valtype) : Eval (List valtype) :=
  if stack.length < 1 then fail .returnFalse
  else do
    let vch ← stacktop stack 1
    let vchHash ← hash vch
    let stack ← popstack stack
    pure (vchHash :: stack)

/-! ## Opcodes for signatures -/

section

variable (ctx : ScriptContext)

def fStrictEncodings : Bool := ctx.flags.testBit 1

/-- `!fStrictEncodings || (IsCanonicalSignature(vchSig) && IsCanonicalPubKey(vchPubKey))`. -/
def isCanonical (vchSig vchPubKey : valtype) : Eval Bool :=
  if fStrictEncodings ctx then do
    let fSig ← isCanonicalSignature vchSig
    if fSig then isCanonicalPubKey vchPubKey else pure false
  else pure true

/-- The encodings, and then `CheckSig`. -/
def verifySignature (vchSig vchPubKey : valtype) (scriptCode : CScript) : Eval Bool := do
  let fCanonical ← isCanonical ctx vchSig vchPubKey
  if fCanonical then do
    emit .checkSig
    pure (ctx.checkSig vchSig vchPubKey scriptCode)
  else pure false

/-- The script code: the script from the last `OP_CODESEPARATOR` on. -/
def scriptCode (st : ScriptState) : CScript := ctx.script.drop st.pbegincodehash

def checkSig (fVerify : Bool) (st : ScriptState) : Eval (List valtype) :=
  if st.stack.length < 2 then fail .returnFalse
  else do
    let vchSig ← stacktop st.stack 2
    let vchPubKey ← stacktop st.stack 1
    let fSuccess ← verifySignature ctx vchSig vchPubKey
      ((scriptCode ctx st).findAndDelete (push vchSig))
    let stack ← popstack st.stack
    let stack ← popstack stack
    pushResult fVerify fSuccess stack

/-- The first loop of `OP_CHECKMULTISIG`: `n` signatures from `stacktop(-i)` on are dropped from
the script code. -/
def dropSignatures (stack : List valtype) : Nat → Nat → CScript → Eval CScript
  | 0, _, scriptCode => pure scriptCode
  | n + 1, i, scriptCode => do
    let vchSig ← stacktop stack i
    dropSignatures stack n (i + 1) (scriptCode.findAndDelete (push vchSig))

/-- The second loop, by the number of keys that are left. It ends before there are more signatures
than keys. -/
def matchSignatures (stack : List valtype) (scriptCode : CScript) :
    Nat → Nat → Nat → Nat → Eval Bool
  | _, _, _, 0 => pure true
  | 0, _, _, _ + 1 => pure false
  | nKeysCount + 1, ikey, isig, nSigsCount + 1 => do
    let vchSig ← stacktop stack isig
    let vchPubKey ← stacktop stack ikey
    let fOk ← verifySignature ctx vchSig vchPubKey scriptCode
    if fOk then matchSignatures stack scriptCode nKeysCount (ikey + 1) (isig + 1) nSigsCount
    else if nKeysCount < nSigsCount + 1 then pure false
    else matchSignatures stack scriptCode nKeysCount (ikey + 1) isig (nSigsCount + 1)

/-- `while (i-- > 0) popstack(stack)`. -/
def popMany : Nat → List valtype → Eval (List valtype)
  | 0, stack => pure stack
  | i + 1, stack => do
    let stack ← popstack stack
    popMany i stack

/-- The case of `OP_CHECKMULTISIG` after the number of keys. -/
def checkSignatures (fVerify : Bool) (nKeysCount : Nat) (st : ScriptState) :
    Eval (List valtype) :=
  let i := 2 + nKeysCount
  if st.stack.length < i then fail .returnFalse
  else do
    let vch ← stacktop st.stack i
    let bn ← castToBigNum vch
    if CBigNum.getInt bn < 0 ∨ nKeysCount < CBigNum.getInt bn then fail .returnFalse
    else do
      let nSigsCount := (CBigNum.getInt bn).toNat
      let isig := i + 1
      let i := isig + nSigsCount
      if st.stack.length < i then fail .returnFalse
      else do
        let scriptCode ← dropSignatures st.stack nSigsCount isig (scriptCode ctx st)
        let fSuccess ← matchSignatures ctx st.stack scriptCode nKeysCount 2 isig nSigsCount
        let stack ← popMany i st.stack
        pushResult fVerify fSuccess stack

def checkMultiSig (fVerify : Bool) (st : ScriptState) : Eval ScriptState :=
  if st.stack.length < 1 then fail .returnFalse
  else do
    let vch ← stacktop st.stack 1
    let bn ← castToBigNum vch
    if CBigNum.getInt bn < 0 ∨ 20 < CBigNum.getInt bn then fail .returnFalse
    else do
      let nKeysCount := (CBigNum.getInt bn).toNat
      if 201 < st.nOpCount + nKeysCount then fail .returnFalse
      else do
        let stack ← checkSignatures ctx fVerify nKeysCount st
        pure { st with stack := stack, nOpCount := st.nOpCount + nKeysCount }

end

/-! ## The switch -/

/-- `OP_1NEGATE` and `OP_1` to `OP_16`. -/
def pushNumber (opcode : UInt8) (stack : List valtype) : Eval (List valtype) :=
  pure (CBigNum.getVch (opcode.toNat - (OP_1.toNat - 1)) :: stack)

/-- `OP_IF`, or `OP_NOTIF` with `fNot`. -/
def opIf (fNot : Bool) (st : ScriptState) : Eval ScriptState :=
  if st.fExec then
    if st.stack.length < 1 then fail .returnFalse
    else do
      let vch ← stacktop st.stack 1
      let stack ← popstack st.stack
      pure { st with stack := stack, vfExec := (castToBool vch != fNot) :: st.vfExec }
  else pure { st with vfExec := false :: st.vfExec }

def opElse (st : ScriptState) : Eval ScriptState :=
  match st.vfExec with
  | [] => fail .returnFalse
  | fValue :: vfExec => pure { st with vfExec := (!fValue) :: vfExec }

def opEndif (st : ScriptState) : Eval ScriptState :=
  match st.vfExec with
  | [] => fail .returnFalse
  | _ :: vfExec => pure { st with vfExec := vfExec }

def verify (stack : List valtype) : Eval (List valtype) :=
  if stack.length < 1 then fail .returnFalse
  else do
    let vch ← stacktop stack 1
    if castToBool vch then popstack stack else fail .returnFalse

def toAltStack (st : ScriptState) : Eval ScriptState :=
  if st.stack.length < 1 then fail .returnFalse
  else do
    let vch ← stacktop st.stack 1
    let stack ← popstack st.stack
    pure { st with stack := stack, altstack := vch :: st.altstack }

def fromAltStack (st : ScriptState) : Eval ScriptState :=
  if st.altstack.length < 1 then fail .returnFalse
  else do
    let vch ← stacktop st.altstack 1
    let altstack ← popstack st.altstack
    pure { st with stack := vch :: st.stack, altstack := altstack }

/-- An opcode that only changes the stack. -/
def onStack (f : List valtype → Eval (List valtype)) (st : ScriptState) : Eval ScriptState := do
  let stack ← f st.stack
  pure { st with stack := stack }

section

variable [ScriptHashing] [ByteHashing] [ByteHashing160] (ctx : ScriptContext)

/-- The `switch` for the opcodes other than the small numbers; `pc` is the position after the
instruction. -/
def executeOpcode (pc : Nat) (st : ScriptState) : Opcode → Eval ScriptState
  | .OP_NOP => pure st
  | .OP_IF => opIf false st
  | .OP_NOTIF => opIf true st
  | .OP_ELSE => opElse st
  | .OP_ENDIF => opEndif st
  | .OP_VERIFY => onStack verify st
  | .OP_RETURN => fail .returnFalse
  | .OP_TOALTSTACK => toAltStack st
  | .OP_FROMALTSTACK => fromAltStack st
  | .OP_2DROP => onStack twoDrop st
  | .OP_2DUP => onStack twoDup st
  | .OP_3DUP => onStack threeDup st
  | .OP_2OVER => onStack twoOver st
  | .OP_2ROT => onStack twoRot st
  | .OP_2SWAP => onStack twoSwap st
  | .OP_IFDUP => onStack ifDup st
  | .OP_DEPTH => onStack depth st
  | .OP_DROP => onStack drop st
  | .OP_DUP => onStack dup st
  | .OP_NIP => onStack nip st
  | .OP_OVER => onStack opOver st
  | .OP_PICK => onStack (pickRoll false) st
  | .OP_ROLL => onStack (pickRoll true) st
  | .OP_ROT => onStack rot st
  | .OP_SWAP => onStack swap st
  | .OP_TUCK => onStack tuck st
  | .OP_SIZE => onStack size st
  | .OP_EQUAL => onStack (equal false) st
  | .OP_EQUALVERIFY => onStack (equal true) st
  | .OP_1ADD => onStack (numeric1 fun bn => bn + 1) st
  | .OP_1SUB => onStack (numeric1 fun bn => bn - 1) st
  | .OP_NEGATE => onStack (numeric1 fun bn => -bn) st
  | .OP_ABS => onStack (numeric1 fun bn => if bn < 0 then -bn else bn) st
  | .OP_NOT => onStack (numeric1 fun bn => ofBool (bn == 0)) st
  | .OP_0NOTEQUAL => onStack (numeric1 fun bn => ofBool (bn != 0)) st
  | .OP_ADD => onStack (numeric2 fun bn1 bn2 => bn1 + bn2) st
  | .OP_SUB => onStack (numeric2 fun bn1 bn2 => bn1 - bn2) st
  | .OP_BOOLAND => onStack (numeric2 fun bn1 bn2 => ofBool (bn1 != 0 && bn2 != 0)) st
  | .OP_BOOLOR => onStack (numeric2 fun bn1 bn2 => ofBool (bn1 != 0 || bn2 != 0)) st
  | .OP_NUMEQUAL => onStack (numeric2 fun bn1 bn2 => ofBool (bn1 == bn2)) st
  | .OP_NUMEQUALVERIFY =>
    onStack (fun stack => numeric2 (fun bn1 bn2 => ofBool (bn1 == bn2)) stack >>= verifyTop) st
  | .OP_NUMNOTEQUAL => onStack (numeric2 fun bn1 bn2 => ofBool (bn1 != bn2)) st
  | .OP_LESSTHAN => onStack (numeric2 fun bn1 bn2 => ofBool (bn1 < bn2)) st
  | .OP_GREATERTHAN => onStack (numeric2 fun bn1 bn2 => ofBool (bn1 > bn2)) st
  | .OP_LESSTHANOREQUAL => onStack (numeric2 fun bn1 bn2 => ofBool (bn1 ≤ bn2)) st
  | .OP_GREATERTHANOREQUAL => onStack (numeric2 fun bn1 bn2 => ofBool (bn1 ≥ bn2)) st
  | .OP_MIN => onStack (numeric2 fun bn1 bn2 => if bn1 < bn2 then bn1 else bn2) st
  | .OP_MAX => onStack (numeric2 fun bn1 bn2 => if bn1 > bn2 then bn1 else bn2) st
  | .OP_WITHIN => onStack within st
  | .OP_RIPEMD160 => onStack (hashTop hashRIPEMD160) st
  | .OP_SHA1 => onStack (hashTop hashSHA1) st
  | .OP_SHA256 => onStack (hashTop hashSHA256) st
  | .OP_HASH160 => onStack (hashTop hashHASH160) st
  | .OP_HASH256 => onStack (hashTop hashHASH256) st
  | .OP_CODESEPARATOR => pure { st with pbegincodehash := pc }
  | .OP_CHECKSIG => onStack (fun _ => checkSig ctx false st) st
  | .OP_CHECKSIGVERIFY => onStack (fun _ => checkSig ctx true st) st
  | .OP_CHECKMULTISIG => checkMultiSig ctx false st
  | .OP_CHECKMULTISIGVERIFY => checkMultiSig ctx true st

/-- The `switch`. -/
def execute (opcode : UInt8) (pc : Nat) (st : ScriptState) : Eval ScriptState :=
  if opcode = OP_1NEGATE ∨ (OP_1 ≤ opcode ∧ opcode ≤ OP_16) then onStack (pushNumber opcode) st
  else
    match Opcode.ofByte opcode with
    | some op => executeOpcode ctx pc st op
    | none => fail .returnFalse

/-! ## The loop -/

/-- The body of the loop for an instruction, up to the size limits. -/
def perform (opcode : UInt8) (vchPushValue : valtype) (pc : Nat) (st : ScriptState) :
    Eval ScriptState :=
  let nOpCount := if OP_16 < opcode then st.nOpCount + 1 else st.nOpCount
  if MAX_SCRIPT_ELEMENT_SIZE < vchPushValue.length then fail .returnFalse
  else if OP_16 < opcode ∧ 201 < nOpCount then fail .returnFalse
  else if isDisabled opcode then fail .returnFalse
  else
    let st := { st with nOpCount := nOpCount }
    if st.fExec ∧ opcode ≤ OP_PUSHDATA4 then pure { st with stack := vchPushValue :: st.stack }
    else if st.fExec ∨ (OP_IF ≤ opcode ∧ opcode ≤ OP_ENDIF) then execute ctx opcode pc st
    else pure st

/-- The size limits at the end of the body. -/
def checkSize (st : ScriptState) : Eval ScriptState :=
  if 1000 < st.stack.length + st.altstack.length then fail .returnFalse else pure st

def step (pc : Nat) (st : ScriptState) : Eval (Nat × ScriptState) := do
  let op ← getOp2 ctx.script pc
  match op with
  | none => fail .returnFalse
  | some (opcode, vchPushValue, pc) => do
    let st ← perform ctx opcode vchPushValue pc st
    let st ← checkSize st
    pure (pc, st)

def loop : Nat → Nat → ScriptState → Eval ScriptState
  | 0, pc, st => if pc < ctx.script.length then fail .outOfFuel else pure st
  | fuel + 1, pc, st =>
    if pc < ctx.script.length then do
      let next ← step ctx pc st
      loop fuel next.1 next.2
    else pure st

end

end EvalScript

/-- The variables of `EvalScript` before its loop. -/
def ScriptState.init (stack : List valtype) : ScriptState := ⟨stack, [], [], 0, 0⟩

section

variable [ScriptHashing] [ByteHashing] [ByteHashing160]

/-- `EvalScript`: the variables at the end if it returns true. -/
def evalScript (ctx : ScriptContext) (stack : List valtype) : Eval ScriptState :=
  if 10000 < ctx.script.length then fail .returnFalse
  else do
    let st ← EvalScript.loop ctx ctx.script.length 0 (ScriptState.init stack)
    if st.vfExec ≠ [] then fail .returnFalse else pure st

end

end Terracoin
