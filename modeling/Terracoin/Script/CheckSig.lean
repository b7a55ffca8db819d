import Terracoin.Script.Interpreter
import Terracoin.Serialize.Transaction
import Terracoin.Validation.Inputs
import Terracoin.Wallet.Key

/-!
# `SignatureHash` and `CheckSig`

The hash that a signature signs is of the transaction with the scripts of its inputs blanked out,
so it does not change when an input is signed (`signatureHash_setScriptSig`). `CheckSig` remembers
the triples of hash, signature and key that verified; a hit answers what `Verify` would, and the
cache is left out here.
-/

namespace Terracoin

open CScript

def SIGHASH_ALL : Nat := 1
def SIGHASH_NONE : Nat := 2
def SIGHASH_SINGLE : Nat := 3
def SIGHASH_ANYONECANPAY : Nat := 0x80

def OP_CODESEPARATOR : UInt8 := 0xab

namespace CTransaction

/-- The transaction with another `scriptSig` in an input. -/
def setScriptSig (tx : CTransaction) (nIn : Nat) (scriptSig : CScript) : CTransaction :=
  { tx with vin := tx.vin.modify nIn fun txin => { txin with scriptSig := scriptSig } }

def blankInputs (tx : CTransaction) (nIn : Nat) (scriptCode : CScript) : List CTxIn :=
  (tx.vin.map fun txin => { txin with scriptSig := [] }).modify nIn
    fun txin => { txin with scriptSig := scriptCode }

def freeOthers (vin : List CTxIn) (nIn : Nat) : List CTxIn :=
  vin.mapIdx fun i txin => if i ≠ nIn then { txin with nSequence := 0 } else txin

/-- `txTmp` of `SignatureHash`, unless `SIGHASH_SINGLE` finds no output. -/
def signatureTx (tx : CTransaction) (scriptCode : CScript) (nIn nHashType : Nat) :
    Option CTransaction :=
  let vin := tx.blankInputs nIn (scriptCode.findAndDelete [OP_CODESEPARATOR])
  let txTmp : Option CTransaction :=
    if nHashType % 0x20 = SIGHASH_NONE then
      -- Wildcard payee
      some { tx with vin := freeOthers vin nIn, vout := [] }
    else if nHashType % 0x20 = SIGHASH_SINGLE then
      -- Only lock-in the txout payee at same index as txin
      match tx.vout[nIn]? with
      | none => none
      | some txout =>
        some { tx with
          vin := freeOthers vin nIn, vout := List.replicate nIn CTxOut.null ++ [txout] }
    else some { tx with vin := vin }
  if nHashType.testBit 7 then txTmp.map fun tx => { tx with vin := tx.vin[nIn]?.toList }
  else txTmp

end CTransaction

def signatureHash [ByteHashing] (scriptCode : CScript) (txTo : CTransaction)
    (nIn nHashType : Nat) : uint256 :=
  if txTo.vin.length ≤ nIn then 1
  else
    match txTo.signatureTx scriptCode nIn nHashType with
    | none => 1
    | some txTmp => ByteHashing.hash (txTmp.write ++ littleEndian 4 nHashType)

namespace CTransaction

/-- The transaction without its signatures. -/
def unsigned (tx : CTransaction) : CTransaction :=
  { tx with vin := tx.vin.map fun txin => { txin with scriptSig := [] } }

theorem getElem?_setScriptSig (tx : CTransaction) (nIn i : Nat) (scriptSig : CScript) :
    (tx.setScriptSig nIn scriptSig).vin[i]? = (tx.vin[i]?).map fun txin =>
      if nIn = i then { txin with scriptSig := scriptSig } else txin := by
  rw [setScriptSig, List.getElem?_modify, Option.map_eq_map]

theorem unsigned_setScriptSig (tx : CTransaction) (nIn : Nat) (scriptSig : CScript) :
    (tx.setScriptSig nIn scriptSig).unsigned = tx.unsigned := by
  rw [unsigned, unsigned]
  congr 1
  apply List.ext_getElem?
  intro i
  rw [List.getElem?_map, List.getElem?_map, getElem?_setScriptSig, Option.map_map]
  congr 1
  funext txin
  rw [Function.comp_apply]
  split <;> rfl

theorem signatureTx_unsigned (tx : CTransaction) (scriptCode : CScript) (nIn nHashType : Nat) :
    tx.unsigned.signatureTx scriptCode nIn nHashType = tx.signatureTx scriptCode nIn nHashType := by
  have hblank : ∀ script, tx.unsigned.blankInputs nIn script = tx.blankInputs nIn script := by
    intro script
    rw [blankInputs, blankInputs, unsigned, List.map_map]
    rfl
  unfold signatureTx
  rw [hblank]
  rfl

end CTransaction

theorem signatureHash_congr [ByteHashing] {txTo txTo' : CTransaction}
    (h : txTo.unsigned = txTo'.unsigned) (scriptCode : CScript) (nIn nHashType : Nat) :
    signatureHash scriptCode txTo nIn nHashType = signatureHash scriptCode txTo' nIn nHashType := by
  have hlength : txTo.vin.length = txTo'.vin.length := by
    have hvin := congrArg (fun tx => tx.vin.length) h
    simpa [CTransaction.unsigned] using hvin
  have htx : txTo.signatureTx scriptCode nIn nHashType =
      txTo'.signatureTx scriptCode nIn nHashType := by
    rw [← CTransaction.signatureTx_unsigned txTo, h, CTransaction.signatureTx_unsigned]
  rw [signatureHash, signatureHash, hlength, htx]

theorem signatureHash_setScriptSig [ByteHashing] (scriptCode scriptSig : CScript)
    (txTo : CTransaction) (nIn nHashType : Nat) :
    signatureHash scriptCode (txTo.setScriptSig nIn scriptSig) nIn nHashType =
      signatureHash scriptCode txTo nIn nHashType :=
  signatureHash_congr (txTo.unsigned_setScriptSig nIn scriptSig) scriptCode nIn nHashType

/-! ## `CheckSig` -/

/-- `ECDSA_sign`, for the number of the call, and `ECDSA_verify` of OpenSSL. -/
class ECDSA extends EllipticCurve where
  sign : Nat → List UInt8 → uint256 → Option (List UInt8)
  verify : Key → uint256 → List UInt8 → Bool

section

variable [ECDSA]

def CKey.sign (key : CKey) (nCall : Nat) (hash : uint256) : Option (List UInt8) :=
  match key.vchSecret with
  | none => none
  | some vchSecret => ECDSA.sign nCall vchSecret hash

/-- `CheckSig`. Hash type is one byte tacked on to the end of the signature. -/
def checkSig [ByteHashing] (txTo : CTransaction) (nIn nHashType : Nat) (vchSig vchPubKey : valtype)
    (scriptCode : CScript) : Bool :=
  match vchSig.getLast? with
  | none => false
  | some last =>
    if nHashType ≠ 0 ∧ nHashType ≠ last.toNat then false
    else
      match PublicKeys.o2i vchPubKey with
      | none => false
      | some key =>
        ECDSA.verify key (signatureHash scriptCode txTo nIn last.toNat) vchSig.dropLast

theorem checkSig_congr [ByteHashing] {txTo txTo' : CTransaction}
    (h : txTo.unsigned = txTo'.unsigned) (nIn nHashType : Nat) :
    checkSig txTo nIn nHashType = checkSig txTo' nIn nHashType := by
  funext vchSig vchPubKey scriptCode
  unfold checkSig
  simp only [signatureHash_congr h]

end

/-- Signing with a valid secret succeeds, and the signature verifies under its public key; it is a
sequence of two integers in DER. The encodings of a point start with a 4, or a 2 or 3 if they are
compressed. -/
class LawfulECDSA [ECDSA] : Prop extends LawfulEllipticCurve where
  sign_verify : ∀ nCall secret hash, EllipticCurve.checkKey secret = true →
    ∃ vchSig, ECDSA.sign nCall secret hash = some vchSig ∧
      ECDSA.verify (EllipticCurve.regenerate secret) hash vchSig = true ∧
      (EvalScript.isCanonicalSignature (vchSig ++ [UInt8.ofNat SIGHASH_ALL])).result = .ok true
  canonical_i2o : ∀ secret fCompressed, EllipticCurve.checkKey secret = true →
    (EvalScript.isCanonicalPubKey
      (PublicKeys.i2o fCompressed (EllipticCurve.regenerate secret))).result = .ok true

end Terracoin
