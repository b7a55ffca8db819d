import Terracoin.Script.CheckSig
import Terracoin.Wallet.KeyStore

/-!
# `SignSignature`

Signing an input of a transaction with the keys of a store: `Sign1`, `SignN`, the `Solver` that
signs, and `SignSignature`, which tests its solution with `VerifyScript`. Where `IsMine` goes from
redeem script to redeem script, `SignSignature` takes one.
-/

namespace Terracoin

open CScript txnouttype

section

variable [ECDSA] [ByteHashing] [ByteHashing160]

/-- `Sign1`: what it appends to `scriptSigRet` if it succeeds. -/
def sign1 (nCall : Nat) (address : uint160) (keystore : CBasicKeyStore) (hash : uint256)
    (nHashType : Nat) : Option CScript :=
  match keystore.getKey address with
  | none => none
  | some key =>
    match key.sign nCall hash with
    | none => none
    | some vchSig => some (push (vchSig ++ [UInt8.ofNat nHashType]))

/-- The loop of `SignN` from a key on, for `nRequired` more signatures: how many are missing at the
end, and what it appends to `scriptSigRet`. -/
def signKeys (keystore : CBasicKeyStore) (hash : uint256) (nHashType : Nat) :
    Nat → Nat → List valtype → Nat × CScript
  | _, nRequired, [] => (nRequired, [])
  | _, 0, _ :: _ => (0, [])
  | nCall, nRequired + 1, pubkey :: pubkeys =>
    match sign1 nCall (CPubKey.getID pubkey) keystore hash nHashType with
    | some scriptSig =>
      let (nMissing, rest) := signKeys keystore hash nHashType (nCall + 1) nRequired pubkeys
      (nMissing, scriptSig ++ rest)
    | none => signKeys keystore hash nHashType (nCall + 1) (nRequired + 1) pubkeys

def signN (multisigdata : List valtype) (keystore : CBasicKeyStore) (hash : uint256)
    (nHashType : Nat) : Bool × CScript :=
  let nRequired := ((multisigdata.headD []).headD 0).toNat
  let (nMissing, scriptSig) :=
    signKeys keystore hash nHashType 0 nRequired multisigdata.tail.dropLast
  (nMissing == 0, scriptSig)

/-- The `Solver` that signs: `whichTypeRet` if it returns true, and `scriptSigRet`, which is the
redeem script for `TX_SCRIPTHASH`. -/
def solverSign (keystore : CBasicKeyStore) (scriptPubKey : CScript) (hash : uint256)
    (nHashType : Nat) : Option txnouttype × CScript :=
  match scriptPubKey.solver with
  | none => (none, [])
  | some (TX_NONSTANDARD, _) => (none, [])
  | some (TX_PUBKEY, vSolutions) =>
    match sign1 0 (CPubKey.getID (vSolutions.headD [])) keystore hash nHashType with
    | none => (none, [])
    | some scriptSig => (some TX_PUBKEY, scriptSig)
  | some (TX_PUBKEYHASH, vSolutions) =>
    let keyID := readUint160 (vSolutions.headD [])
    match sign1 0 keyID keystore hash nHashType with
    | none => (none, [])
    | some scriptSig =>
      (some TX_PUBKEYHASH, scriptSig ++ push ((keystore.getPubKey keyID).getD []))
  | some (TX_SCRIPTHASH, vSolutions) =>
    match keystore.getCScript (readUint160 (vSolutions.headD [])) with
    | none => (none, [])
    | some subscript => (some TX_SCRIPTHASH, subscript)
  | some (TX_MULTISIG, vSolutions) =>
    -- workaround CHECKMULTISIG bug
    let (fSigned, scriptSig) := signN vSolutions keystore hash nHashType
    (if fSigned then some TX_MULTISIG else none, OP_0 :: scriptSig)

variable [ScriptHashing]

def testSolution (fromPubKey scriptSig : CScript) (txTo : CTransaction) (nIn : Nat) : Bool :=
  (verifyScript (checkSig txTo nIn 0) scriptSig fromPubKey
    (SCRIPT_VERIFY_P2SH + SCRIPT_VERIFY_STRICTENC)).result.isOk

/-- `SignSignature` for an input that is there, with the transaction afterwards. -/
def signSignature (keystore : CBasicKeyStore) (fromPubKey : CScript) (txTo : CTransaction)
    (nIn nHashType : Nat) : Bool × CTransaction :=
  let hash := signatureHash fromPubKey txTo nIn nHashType
  match solverSign keystore fromPubKey hash nHashType with
  | (none, scriptSig) => (false, txTo.setScriptSig nIn scriptSig)
  | (some TX_SCRIPTHASH, subscript) =>
    -- Recompute txn hash using subscript in place of scriptPubKey:
    let hash2 := signatureHash subscript (txTo.setScriptSig nIn subscript) nIn nHashType
    let (subType, scriptSig) := solverSign keystore subscript hash2 nHashType
    let fSolved := subType.any fun subType => subType ≠ TX_SCRIPTHASH
    -- Append serialized subscript whether or not it is completely signed:
    let scriptSig := scriptSig ++ push subscript
    let txTo := txTo.setScriptSig nIn scriptSig
    (fSolved && testSolution fromPubKey scriptSig txTo nIn, txTo)
  | (some _, scriptSig) =>
    let txTo := txTo.setScriptSig nIn scriptSig
    (testSolution fromPubKey scriptSig txTo nIn, txTo)

def signatureScript (keystore : CBasicKeyStore) (fromPubKey : CScript) (txTo : CTransaction)
    (nIn nHashType : Nat) : CScript :=
  match solverSign keystore fromPubKey (signatureHash fromPubKey txTo nIn nHashType) nHashType with
  | (some TX_SCRIPTHASH, subscript) =>
    (solverSign keystore subscript (signatureHash subscript txTo nIn nHashType) nHashType).2 ++
      push subscript
  | (_, scriptSig) => scriptSig

theorem signSignature_snd (keystore : CBasicKeyStore) (fromPubKey : CScript) (txTo : CTransaction)
    (nIn nHashType : Nat) : (signSignature keystore fromPubKey txTo nIn nHashType).2 =
      txTo.setScriptSig nIn (signatureScript keystore fromPubKey txTo nIn nHashType) := by
  rw [signSignature, signatureScript]
  simp only [signatureHash_setScriptSig]
  cases hsolver : solverSign keystore fromPubKey (signatureHash fromPubKey txTo nIn nHashType)
      nHashType with
  | mk type scriptSig =>
    cases type with
    | none => rfl
    | some type => cases type <;> rfl

omit [ScriptHashing] in
theorem signatureScript_congr {txTo txTo' : CTransaction} (h : txTo.unsigned = txTo'.unsigned)
    (keystore : CBasicKeyStore) (fromPubKey : CScript) (nIn nHashType : Nat) :
    signatureScript keystore fromPubKey txTo nIn nHashType =
      signatureScript keystore fromPubKey txTo' nIn nHashType := by
  rw [signatureScript, signatureScript]
  simp only [signatureHash_congr h]

theorem testSolution_congr {txTo txTo' : CTransaction}
    (h : txTo.unsigned = txTo'.unsigned) (fromPubKey scriptSig : CScript) (nIn : Nat) :
    testSolution fromPubKey scriptSig txTo nIn = testSolution fromPubKey scriptSig txTo' nIn := by
  rw [testSolution, testSolution, checkSig_congr h]

end

end Terracoin
