import Terracoin.Coins.View
import Terracoin.Script.Acceptance
import Terracoin.Serialize.Text
import Terracoin.Wallet.Accounts
import Terracoin.Wallet.Spendable

/-!
# `signrawtransaction`

`signrawtransaction` takes several versions of a transaction, signs what it can with its own keys, and
merges in the signatures of the versions. `complete` says whether every input of the result is
accepted. A version that has fewer inputs than the first is read beyond its end; apart from that, what
is returned for an input is what `MergedBy` describes, and it is accepted if the script that prevails
is (`signrawtransaction_spec`).
-/

namespace Terracoin

open CScript EvalScript txnouttype

/-! ## The argument -/

/-- The table `phexdigit`, without its negative entries. -/
def phexdigit (c : UInt8) : Option UInt8 :=
  if 48 ≤ c ∧ c ≤ 57 then some (c - 48)
  else if 65 ≤ c ∧ c ≤ 70 then some (c - 55)
  else if 97 ≤ c ∧ c ≤ 102 then some (c - 87)
  else none

def isHex (str : Text) : Bool :=
  str.all (fun c => (phexdigit c).isSome) && decide (0 < str.length) && str.length % 2 == 0

/-- The loop of `ParseHex`, for at most so many bytes. -/
def parseHexLoop : Nat → Text → List UInt8
  | 0, _ => []
  | fuel + 1, psz =>
    match psz.dropWhile isSpace with
    | c :: d :: psz =>
      match phexdigit c, phexdigit d with
      | some n, some m => (n <<< 4 ||| m) :: parseHexLoop fuel psz
      | _, _ => []
    | _ => []

def parseHex (str : Text) : List UInt8 := parseHexLoop str.length (cStr str)

def hexmap (n : UInt8) : UInt8 := if n < 10 then 48 + n else 87 + n

def hexStr (vch : List UInt8) : Text :=
  vch.flatMap fun val : UInt8 => [hexmap (val >>> 4), hexmap (val &&& 15)]

def parseHexV (strHex : Text) (strName : String) : Except JSONRPCError (List UInt8) :=
  if isHex strHex then .ok (parseHex strHex)
  else
    let text := String.ofList (strHex.map fun c => Char.ofNat c.toNat)
    .error ⟨-8, strName ++ " must be hexadecimal string (not \x27" ++ text ++ "\x27)"⟩

theorem phexdigit_hexmap (val : UInt8) : isSpace (hexmap (val >>> 4)) = false ∧
    (hexmap (val >>> 4) ≠ 0 ∧ hexmap (val &&& 15) ≠ 0) ∧
    phexdigit (hexmap (val >>> 4)) = some (val >>> 4) ∧
    phexdigit (hexmap (val &&& 15)) = some (val &&& 15) ∧
    ((val >>> 4) <<< 4 ||| (val &&& 15)) = val := by
  revert val
  apply forall_char
  decide +kernel

theorem parseHexLoop_hexStr {fuel : Nat} {vch : List UInt8} (h : vch.length ≤ fuel) :
    parseHexLoop fuel (hexStr vch) = vch := by
  induction vch generalizing fuel with
  | nil => cases fuel <;> rfl
  | cons val vch ih =>
    obtain ⟨fuel, rfl⟩ : ∃ n, fuel = n + 1 := ⟨fuel - 1, by rw [List.length_cons] at h; omega⟩
    obtain ⟨hspace, -, hhigh, hlow, hval⟩ := phexdigit_hexmap val
    have hcons : hexStr (val :: vch) = hexmap (val >>> 4) :: hexmap (val &&& 15) :: hexStr vch := rfl
    rw [parseHexLoop, hcons, List.dropWhile_cons_of_neg (Bool.eq_false_iff.mp hspace)]
    dsimp only
    rw [hhigh, hlow]
    dsimp only
    rw [hval, ih (Nat.le_of_succ_le_succ h)]

theorem parseHexV_hexStr {vch : List UInt8} (h : vch ≠ []) (strName : String) :
    parseHexV (hexStr vch) strName = .ok vch := by
  have hchar : ∀ c ∈ hexStr vch, c ≠ 0 ∧ (phexdigit c).isSome = true := by
    intro c hc
    obtain ⟨val, -, hc⟩ := List.mem_flatMap.mp hc
    obtain ⟨-, hzero, hhigh, hlow, -⟩ := phexdigit_hexmap val
    simp only [List.mem_cons, List.not_mem_nil, or_false] at hc
    obtain rfl | rfl := hc
    · exact ⟨hzero.1, by rw [hhigh]; rfl⟩
    · exact ⟨hzero.2, by rw [hlow]; rfl⟩
  have hlength : (hexStr vch).length = 2 * vch.length := by
    rw [hexStr, List.length_flatMap]
    simp [Nat.mul_comm]
  have hpos := List.length_pos_iff.mpr h
  have hhex : isHex (hexStr vch) = true := by
    simp only [isHex, Bool.and_eq_true, List.all_eq_true, decide_eq_true_eq, beq_iff_eq, hlength]
    exact ⟨⟨fun c hc => (hchar c hc).2, by omega⟩, Nat.mul_mod_right 2 _⟩
  have hcStr : cStr (hexStr vch) = hexStr vch :=
    List.takeWhile_eq_self_iff.mpr fun c hc => decide_eq_true (hchar c hc).1
  rw [parseHexV, if_pos hhex, parseHex, hcStr, parseHexLoop_hexStr (by omega)]

section

variable [ObjectSizes]

/-- The loop that reads `txVariants`, for at most so many transactions. -/
def decodeVariants : Nat → List UInt8 → Option (List CTransaction)
  | _, [] => some []
  | 0, _ :: _ => none
  | fuel + 1, b :: ssData => do
    let (tx, ssData) ← CTransaction.read (b :: ssData)
    let txVariants ← decodeVariants fuel ssData
    pure (tx :: txVariants)

omit [ObjectSizes] in
theorem size_transaction_pos (tx : CTransaction) : 0 < tx.getSerializeSize := by
  rw [CTransaction.getSerializeSize]
  omega

theorem decodeVariants_nil (fuel : Nat) : decodeVariants fuel [] = some [] := by
  cases fuel <;> rfl

/-- There are no more transactions than bytes. -/
theorem decodeVariants_fuel {fuel fuel' : Nat} {ssData : List UInt8} (h : ssData.length ≤ fuel)
    (h' : ssData.length ≤ fuel') : decodeVariants fuel ssData = decodeVariants fuel' ssData := by
  induction fuel generalizing fuel' ssData with
  | zero =>
    obtain rfl := List.eq_nil_of_length_eq_zero (Nat.le_zero.mp h)
    rw [decodeVariants_nil, decodeVariants_nil]
  | succ fuel ih =>
    cases ssData with
    | nil => rw [decodeVariants_nil, decodeVariants_nil]
    | cons b ssData =>
      obtain ⟨fuel', rfl⟩ : ∃ n, fuel' = n + 1 :=
        ⟨fuel' - 1, by rw [List.length_cons] at h'; omega⟩
      rw [decodeVariants, decodeVariants]
      cases hread : CTransaction.read (b :: ssData) with
      | none => rfl
      | some r =>
        obtain ⟨tx, rest⟩ := r
        obtain ⟨used, hused, hsize⟩ := format_transaction.takes _ _ _ hread
        have hpos := size_transaction_pos tx
        have hlength := congrArg List.length hused
        rw [List.length_append] at hlength
        have hrest : decodeVariants fuel rest = decodeVariants fuel' rest :=
          ih (by omega) (by omega)
        simp only [Option.bind_eq_bind, Option.bind_some, hrest]

/-- Transactions that are written one after the other are read again. -/
theorem decodeVariants_write {txVariants : List CTransaction} (hfits : ∀ tx ∈ txVariants, tx.Fits) :
    decodeVariants (txVariants.flatMap CTransaction.write).length
      (txVariants.flatMap CTransaction.write) = some txVariants := by
  induction txVariants with
  | nil => rfl
  | cons tx txVariants ih =>
    have hread : CTransaction.read (tx.write ++ txVariants.flatMap CTransaction.write) =
        some (tx, txVariants.flatMap CTransaction.write) :=
      format_transaction.decodes tx (hfits tx List.mem_cons_self) _
    have hrest := ih fun tx h => hfits tx (List.mem_cons_of_mem _ h)
    have hlength := format_transaction.length tx
    have hpos := size_transaction_pos tx
    rw [List.flatMap_cons]
    cases hwrite : tx.write with
    | nil =>
      rw [hwrite, List.length_nil] at hlength
      omega
    | cons b bytes =>
      rw [hwrite] at hread
      rw [List.cons_append] at hread ⊢
      rw [List.length_cons, decodeVariants, hread]
      simp only [Option.bind_eq_bind, Option.bind_some]
      rw [decodeVariants_fuel (by simp) (Nat.le_refl _), hrest]
      rfl

end

/-! ## Signing and merging -/

def mapSigHashValues : List (String × Nat) := [
  ("ALL", SIGHASH_ALL),
  ("ALL|ANYONECANPAY", SIGHASH_ALL ||| SIGHASH_ANYONECANPAY),
  ("NONE", SIGHASH_NONE),
  ("NONE|ANYONECANPAY", SIGHASH_NONE ||| SIGHASH_ANYONECANPAY),
  ("SINGLE", SIGHASH_SINGLE),
  ("SINGLE|ANYONECANPAY", SIGHASH_SINGLE ||| SIGHASH_ANYONECANPAY)]

/-- `nHashType`, from the argument if it is given. -/
def parseHashType : Option String → Except JSONRPCError Nat
  | none => .ok SIGHASH_ALL
  | some strHashType =>
    match mapSigHashValues.lookup strHashType with
    | some nHashType => .ok nHashType
    | none => .error ⟨-8, "Invalid sighash param"⟩

/-- `(nHashType & ~SIGHASH_ANYONECANPAY) == SIGHASH_SINGLE`. -/
def fHashSingle (nHashType : Nat) : Bool :=
  nHashType &&& (0xffffffff ^^^ SIGHASH_ANYONECANPAY) == SIGHASH_SINGLE

/-- `prevPubKey` of an input, unless its output is unknown or not available. -/
def prevPubKeyOf (view : CoinsView) (prevout : COutPoint) : Option CScript := do
  let coins ← view.coins prevout.hash
  if coins.isAvailable prevout.n.toNat then
    let out ← coins.vout[prevout.n.toNat]?
    pure out.scriptPubKey
  else none

/-- Why there is no result. -/
inductive SignFailure
  | jsonRPCError (e : JSONRPCError)
  /-- An input is read that is not there. -/
  | undefined
deriving DecidableEq

/-- What is returned: `hex` is the transaction, and `complete`. -/
structure SignedTransaction where
  mergedTx : CTransaction
  fComplete : Bool

section

variable [ECDSA] [ByteHashing] [ByteHashing160] [ScriptHashing]

/-- The loop that merges in other signatures, unless it reads an input that is not there. -/
def mergeVariants (prevPubKey : CScript) (i : Nat) :
    List CTransaction → CTransaction → Option CTransaction
  | [], mergedTx => some mergedTx
  | txv :: txVariants, mergedTx => do
    let txin ← mergedTx.vin[i]?
    let txinv ← txv.vin[i]?
    mergeVariants prevPubKey i txVariants (mergedTx.setScriptSig i
      (combineSignatures checkSig prevPubKey mergedTx i txin.scriptSig txinv.scriptSig))

/-- The body of the loop that signs what can be signed. -/
def signInput (view : CoinsView) (keystore : CBasicKeyStore) (nHashType : Nat)
    (txVariants : List CTransaction) (st : SignedTransaction) (i : Nat) : Option SignedTransaction := do
  let txin ← st.mergedTx.vin[i]?
  match prevPubKeyOf view txin.prevout with
  | none => pure { st with fComplete := false }
  | some prevPubKey =>
    let mergedTx := st.mergedTx.setScriptSig i []
    -- Only sign SIGHASH_SINGLE if there's a corresponding output:
    let mergedTx :=
      if !fHashSingle nHashType || i < mergedTx.vout.length then
        (signSignature keystore prevPubKey mergedTx i nHashType).2
      else mergedTx
    -- ... and merge in other signatures:
    let mergedTx ← mergeVariants prevPubKey i txVariants mergedTx
    let txin ← mergedTx.vin[i]?
    pure ⟨mergedTx, st.fComplete && testSolution prevPubKey txin.scriptSig mergedTx i⟩

variable [ObjectSizes]

/-- `signrawtransaction`, with the previous outputs and the keys that there are. -/
def signrawtransaction (view : CoinsView) (keystore : CBasicKeyStore) (strHashType : Option String)
    (hex : Text) : Except SignFailure SignedTransaction := do
  let txData ← (parseHexV hex "argument 1").mapError .jsonRPCError
  match decodeVariants txData.length txData with
  | none => .error (.jsonRPCError ⟨-22, "TX decode failed"⟩)
  | some [] => .error (.jsonRPCError ⟨-22, "Missing transaction"⟩)
  | some (mergedTx :: txVariants) => do
    let nHashType ← (parseHashType strHashType).mapError .jsonRPCError
    match (List.range mergedTx.vin.length).foldlM
      (signInput view keystore nHashType (mergedTx :: txVariants)) ⟨mergedTx, true⟩ with
    | none => .error .undefined
    | some result => .ok result

end

/-! ## The signatures of a transaction -/

namespace CTransaction

def scriptSigAt (tx : CTransaction) (i : Nat) : CScript := (tx.vin[i]?.map CTxIn.scriptSig).getD []

variable {tx : CTransaction} {i : Nat} {txin : CTxIn}

theorem scriptSigAt_of_getElem? (h : tx.vin[i]? = some txin) : tx.scriptSigAt i = txin.scriptSig := by
  rw [scriptSigAt, h]
  rfl

theorem setScriptSig_setScriptSig (tx : CTransaction) (i : Nat) (scriptSig scriptSig' : CScript) :
    (tx.setScriptSig i scriptSig).setScriptSig i scriptSig' = tx.setScriptSig i scriptSig' := by
  simp [setScriptSig, List.modify_modify_eq, Function.comp_def]

/-- The transaction with other signatures in its first inputs. -/
def withScriptSigs (tx : CTransaction) (scriptSig : Nat → CTxIn → CScript) (n : Nat) :
    CTransaction :=
  { tx with
    vin := tx.vin.mapIdx fun i txin =>
      if i < n then { txin with scriptSig := scriptSig i txin } else txin }

theorem getElem?_withScriptSigs (tx : CTransaction) (scriptSig : Nat → CTxIn → CScript) (n i : Nat) :
    (tx.withScriptSigs scriptSig n).vin[i]? = tx.vin[i]?.map fun txin =>
      if i < n then { txin with scriptSig := scriptSig i txin } else txin :=
  List.getElem?_mapIdx

theorem unsigned_withScriptSigs (tx : CTransaction) (scriptSig : Nat → CTxIn → CScript) (n : Nat) :
    (tx.withScriptSigs scriptSig n).unsigned = tx.unsigned := by
  rw [unsigned, unsigned]
  congr 1
  apply List.ext_getElem?
  intro i
  rw [List.getElem?_map, List.getElem?_map, getElem?_withScriptSigs, Option.map_map]
  congr 1
  funext txin
  rw [Function.comp_apply]
  split <;> rfl

theorem withScriptSigs_zero (tx : CTransaction) (scriptSig : Nat → CTxIn → CScript) :
    tx.withScriptSigs scriptSig 0 = tx := by
  have hvin : (tx.withScriptSigs scriptSig 0).vin = tx.vin := by
    apply List.ext_getElem?
    intro i
    simp [getElem?_withScriptSigs]
  exact congrArg (fun vin => { tx with vin := vin }) hvin

theorem withScriptSigs_succ (scriptSig : Nat → CTxIn → CScript) (h : tx.vin[i]? = some txin) :
    tx.withScriptSigs scriptSig (i + 1) =
      (tx.withScriptSigs scriptSig i).setScriptSig i (scriptSig i txin) := by
  have hvin : (tx.withScriptSigs scriptSig (i + 1)).vin =
      ((tx.withScriptSigs scriptSig i).setScriptSig i (scriptSig i txin)).vin := by
    apply List.ext_getElem?
    intro j
    rw [getElem?_setScriptSig, getElem?_withScriptSigs, getElem?_withScriptSigs]
    by_cases hj : i = j
    · subst hj
      simp [h]
    · have hlt : j < i + 1 ↔ j < i := by omega
      simp only [hj, hlt, if_false, Option.map_id']
  exact congrArg (fun vin => { tx with vin := vin }) hvin

theorem setScriptSig_scriptSig (h : tx.vin[i]? = some txin) :
    tx.setScriptSig i txin.scriptSig = tx := by
  have hvin : (tx.setScriptSig i txin.scriptSig).vin = tx.vin := by
    apply List.ext_getElem?
    intro j
    rw [getElem?_setScriptSig]
    by_cases hj : i = j
    · subst hj
      simp [h]
    · simp [hj]
  exact congrArg (fun vin => { tx with vin := vin }) hvin

end CTransaction

/-! ## Merging for an input -/

section

variable [ECDSA] [ByteHashing] [ByteHashing160] [ScriptHashing]

def localScriptSig (keystore : CBasicKeyStore) (nHashType : Nat) (prevPubKey : CScript)
    (tx : CTransaction) (i : Nat) : CScript :=
  if !fHashSingle nHashType || i < tx.vout.length then
    signatureScript keystore prevPubKey tx i nHashType
  else []

def mergedScriptSig (view : CoinsView) (keystore : CBasicKeyStore) (nHashType : Nat)
    (txVariants : List CTransaction) (tx : CTransaction) (i : Nat) (txin : CTxIn) : CScript :=
  match prevPubKeyOf view txin.prevout with
  | none => txin.scriptSig
  | some prevPubKey =>
    mergeScripts checkSig prevPubKey tx i (localScriptSig keystore nHashType prevPubKey tx i)
      (txVariants.map fun txv => txv.scriptSigAt i)

/-- The output is known, and the script is accepted for it. -/
def inputAccepted (view : CoinsView) (tx : CTransaction) (i : Nat) (prevout : COutPoint)
    (scriptSig : CScript) : Bool :=
  (prevPubKeyOf view prevout).any fun prevPubKey => testSolution prevPubKey scriptSig tx i

variable {view : CoinsView} {keystore : CBasicKeyStore} {nHashType : Nat}
  {txVariants : List CTransaction} {tx tx' : CTransaction} {prevPubKey : CScript} {i : Nat}

omit [ScriptHashing] in
theorem localScriptSig_congr (h : tx.unsigned = tx'.unsigned) (prevPubKey : CScript) (i : Nat) :
    localScriptSig keystore nHashType prevPubKey tx i =
      localScriptSig keystore nHashType prevPubKey tx' i := by
  have hvout : tx.vout = tx'.vout := congrArg (fun tx => tx.vout) h
  rw [localScriptSig, localScriptSig, signatureScript_congr h, hvout]

theorem mergedScriptSig_congr (h : tx.unsigned = tx'.unsigned) (i : Nat) (txin : CTxIn) :
    mergedScriptSig view keystore nHashType txVariants tx i txin =
      mergedScriptSig view keystore nHashType txVariants tx' i txin := by
  have hcheck : checkSig tx i = checkSig tx' i := by
    funext nHashType
    exact checkSig_congr h i nHashType
  rw [mergedScriptSig, mergedScriptSig]
  cases prevPubKeyOf view txin.prevout with
  | none => rfl
  | some prevPubKey =>
    dsimp only
    rw [localScriptSig_congr h, mergeScripts_congr hcheck]

theorem inputAccepted_congr (h : tx.unsigned = tx'.unsigned) (i : Nat) (prevout : COutPoint)
    (scriptSig : CScript) :
    inputAccepted view tx i prevout scriptSig = inputAccepted view tx' i prevout scriptSig := by
  rw [inputAccepted, inputAccepted]
  congr 1
  funext prevPubKey
  exact testSolution_congr h prevPubKey scriptSig i

/-- The loop merges one version after the other. -/
theorem mergeVariants_eq (hi : i < tx.vin.length) (hinputs : ∀ txv ∈ txVariants, i < txv.vin.length)
    (prevPubKey scriptSig : CScript) :
    mergeVariants prevPubKey i txVariants (tx.setScriptSig i scriptSig) =
      some (tx.setScriptSig i (mergeScripts checkSig prevPubKey tx i scriptSig
        (txVariants.map fun txv => txv.scriptSigAt i))) := by
  have hcheck : ∀ scriptSig, checkSig (tx.setScriptSig i scriptSig) i = checkSig tx i := by
    intro scriptSig
    funext nHashType
    exact checkSig_congr (tx.unsigned_setScriptSig i scriptSig) i nHashType
  have htxin : ∀ scriptSig, (tx.setScriptSig i scriptSig).vin[i]? =
      some { tx.vin[i] with scriptSig := scriptSig } := by
    intro scriptSig
    rw [CTransaction.getElem?_setScriptSig, List.getElem?_eq_getElem hi]
    simp
  induction txVariants generalizing scriptSig with
  | nil => rfl
  | cons txv txVariants ih =>
    have hv := List.getElem?_eq_getElem (hinputs txv List.mem_cons_self)
    rw [mergeVariants, htxin, hv]
    simp only [Option.bind_eq_bind, Option.bind_some]
    rw [CTransaction.setScriptSig_setScriptSig, combineSignatures_congr (hcheck scriptSig),
      ih fun txv h => hinputs txv (List.mem_cons_of_mem _ h)]
    rw [List.map_cons, CTransaction.scriptSigAt_of_getElem? hv, mergeScripts, mergeScripts,
      List.foldl_cons]

/-- One input. -/
theorem signInput_eq {st : SignedTransaction} {txin : CTxIn} (hvin : st.mergedTx.vin[i]? = some txin)
    (hinputs : ∀ txv ∈ txVariants, i < txv.vin.length) :
    let scriptSig := mergedScriptSig view keystore nHashType txVariants st.mergedTx i txin
    signInput view keystore nHashType txVariants st i =
      some ⟨st.mergedTx.setScriptSig i scriptSig,
        st.fComplete && inputAccepted view st.mergedTx i txin.prevout scriptSig⟩ := by
  obtain ⟨mergedTx, fComplete⟩ := st
  dsimp only at hvin ⊢
  rw [signInput, hvin, mergedScriptSig, inputAccepted]
  simp only [Option.bind_eq_bind, Option.bind_some]
  cases hknown : prevPubKeyOf view txin.prevout with
  | none =>
    rw [Option.any_none, Bool.and_false, CTransaction.setScriptSig_scriptSig hvin]
    rfl
  | some prevPubKey =>
    obtain ⟨hi, -⟩ := List.getElem?_eq_some_iff.mp hvin
    have hlocal : (if (!fHashSingle nHashType ||
          decide (i < (mergedTx.setScriptSig i []).vout.length)) = true
        then (signSignature keystore prevPubKey (mergedTx.setScriptSig i []) i nHashType).2
        else mergedTx.setScriptSig i []) =
        mergedTx.setScriptSig i (localScriptSig keystore nHashType prevPubKey mergedTx i) := by
      rw [← localScriptSig_congr (mergedTx.unsigned_setScriptSig i []), localScriptSig]
      split
      · rw [signSignature_snd, CTransaction.setScriptSig_setScriptSig]
      · rfl
    dsimp only
    rw [hlocal, mergeVariants_eq hi hinputs]
    simp only [Option.bind_some, CTransaction.getElem?_setScriptSig, hvin, Option.map_some, if_true,
      Option.any_some]
    rw [testSolution_congr (mergedTx.unsigned_setScriptSig i _)]
    rfl

/-! ## All inputs -/

/-- What the loop has done after so many inputs. -/
def signedInputs (view : CoinsView) (keystore : CBasicKeyStore) (nHashType : Nat)
    (txVariants : List CTransaction) (tx : CTransaction) (n : Nat) : SignedTransaction :=
  let scriptSig := mergedScriptSig view keystore nHashType txVariants tx
  ⟨tx.withScriptSigs scriptSig n, (List.range n).all fun i =>
    tx.vin[i]?.all fun txin => inputAccepted view tx i txin.prevout (scriptSig i txin)⟩

theorem signInput_signedInputs (hi : i < tx.vin.length)
    (hinputs : ∀ txv ∈ txVariants, i < txv.vin.length) :
    signInput view keystore nHashType txVariants
        (signedInputs view keystore nHashType txVariants tx i) i =
      some (signedInputs view keystore nHashType txVariants tx (i + 1)) := by
  have hvin := List.getElem?_eq_getElem hi
  have htxin : (signedInputs view keystore nHashType txVariants tx i).mergedTx.vin[i]? =
      some tx.vin[i] := by
    simp [signedInputs, CTransaction.getElem?_withScriptSigs, hvin]
  have hunsigned : (signedInputs view keystore nHashType txVariants tx i).mergedTx.unsigned =
      tx.unsigned :=
    tx.unsigned_withScriptSigs _ i
  rw [signInput_eq htxin hinputs, mergedScriptSig_congr hunsigned, inputAccepted_congr hunsigned]
  simp only [signedInputs, CTransaction.withScriptSigs_succ _ hvin, List.range_succ,
    List.all_append, List.all_cons, List.all_nil, Bool.and_true, hvin, Option.all_some]

theorem signInputs_eq {n : Nat} (hn : n ≤ tx.vin.length)
    (hinputs : ∀ txv ∈ txVariants, n ≤ txv.vin.length) :
    (List.range n).foldlM (signInput view keystore nHashType txVariants) ⟨tx, true⟩ =
      some (signedInputs view keystore nHashType txVariants tx n) := by
  induction n with
  | zero =>
    rw [signedInputs, CTransaction.withScriptSigs_zero]
    rfl
  | succ n ih =>
    rw [List.range_succ, List.foldlM_append,
      ih (Nat.le_of_succ_le hn) fun txv h => Nat.le_of_succ_le (hinputs txv h)]
    simp only [Option.bind_eq_bind, Option.bind_some, List.foldlM_cons, List.foldlM_nil]
    rw [signInput_signedInputs (Nat.lt_of_succ_le hn) fun txv h => Nat.lt_of_succ_le (hinputs txv h)]
    rfl

theorem getElem?_signedInputs {txin : CTxIn} : (signedInputs view keystore nHashType txVariants tx
      tx.vin.length).mergedTx.vin[i]? = some txin ↔
    ∃ txin0, tx.vin[i]? = some txin0 ∧ txin = { txin0 with
      scriptSig := mergedScriptSig view keystore nHashType txVariants tx i txin0 } := by
  simp only [signedInputs, CTransaction.getElem?_withScriptSigs, Option.map_eq_some_iff]
  refine exists_congr fun txin0 => and_congr_right fun hi => ?_
  rw [if_pos (List.getElem?_eq_some_iff.mp hi).1]
  exact eq_comm

/-- `complete`. -/
theorem fComplete_signedInputs :
    (signedInputs view keystore nHashType txVariants tx tx.vin.length).fComplete = true ↔
      ∀ i txin, (signedInputs view keystore nHashType txVariants tx
          tx.vin.length).mergedTx.vin[i]? = some txin →
        ∃ prevPubKey, prevPubKeyOf view txin.prevout = some prevPubKey ∧ testSolution prevPubKey
          txin.scriptSig (signedInputs view keystore nHashType txVariants tx tx.vin.length).mergedTx
            i = true := by
  have hunsigned : (signedInputs view keystore nHashType txVariants tx
      tx.vin.length).mergedTx.unsigned = tx.unsigned :=
    tx.unsigned_withScriptSigs _ _
  have haccepted : ∀ (i : Nat) (txin : CTxIn), (∃ prevPubKey,
      prevPubKeyOf view txin.prevout = some prevPubKey ∧ testSolution prevPubKey txin.scriptSig
        (signedInputs view keystore nHashType txVariants tx tx.vin.length).mergedTx i = true) ↔
      inputAccepted view tx i txin.prevout txin.scriptSig = true := by
    intro i txin
    rw [inputAccepted, Option.any_eq_true]
    simp only [testSolution_congr hunsigned]
  simp only [haccepted, getElem?_signedInputs]
  rw [signedInputs, List.all_eq_true]
  constructor
  · rintro h i txin ⟨txin0, hvin, rfl⟩
    have hi := h i (List.mem_range.mpr (List.getElem?_eq_some_iff.mp hvin).1)
    rw [hvin] at hi
    exact hi
  · intro h i hi
    have hvin := List.getElem?_eq_getElem (List.mem_range.mp hi)
    have htxin := h i _ ⟨_, hvin, rfl⟩
    rw [hvin, Option.all_some]
    exact htxin

/-! ## What is returned for an input -/

omit [ByteHashing160] [ScriptHashing] in
theorem checkSig_nil (txTo : CTransaction) (nIn : Nat) (key : valtype) (s : CScript) :
    checkSig txTo nIn 0 [] key s = false := rfl

/-- What is returned for an input whose candidates push values within the limits of `EvalScript`:
what `MergedBy` leaves of them. It is accepted if the script that prevails is. -/
def KeepsPrevailing (prevPubKey : CScript) (tx : CTransaction) (i : Nat) (scriptSig0 : CScript)
    (scriptSigs : List CScript) (returned : CScript) : Prop :=
  ∀ valuess : List (List valtype), List.Forall₂ PushesValues (scriptSig0 :: scriptSigs) valuess →
    KeepsLimits checkSig prevPubKey tx i scriptSig0 scriptSigs →
    ∃ values : List valtype, returned = pushAll values.reverse ∧
      MergedBy (MergedMultisig (checkSig tx i 0)) prevPubKey (valuess.map List.reverse)
        values.reverse ∧
      ∀ scriptSig values', PushesValues scriptSig values' →
        MergedBy (AnyMultisig (checkSig tx i 0)) prevPubKey (valuess.map List.reverse)
          values'.reverse →
        testSolution prevPubKey scriptSig tx i = true → testSolution prevPubKey returned tx i = true

theorem keepsPrevailing_mergeScripts (prevPubKey scriptSig0 : CScript) (tx : CTransaction) (i : Nat)
    {scriptSigs : List CScript} (hne : scriptSigs ≠ []) :
    KeepsPrevailing prevPubKey tx i scriptSig0 scriptSigs
      (mergeScripts checkSig prevPubKey tx i scriptSig0 scriptSigs) := by
  intro valuess hpushes hlimits
  cases hpushes with
  | @cons _ values0 _ valuess hfirst hpushes =>
    have hmerged : MergedBy (MergedMultisig (checkSig tx i 0)) prevPubKey [values0.reverse]
        values0.reverse :=
      mergedBy_singleton (fun _ _ => .inl rfl) prevPubKey values0.reverse
    have hsmall : ∀ v ∈ [values0.reverse].flatten, v.length ≤ MAX_SCRIPT_ELEMENT_SIZE := by
      intro v hv
      rw [List.flatten_singleton, List.mem_reverse] at hv
      exact hfirst.small v hv
    obtain ⟨values, hresult, hby, heq⟩ :=
      mergedBy_mergeScripts (checkSig_nil tx i) hfirst hmerged hsmall hpushes hlimits
    have hpushAll := heq (.inr hne)
    have hlength := hresult.length_le
    rw [hpushAll] at hlength
    refine ⟨values, hpushAll, hby, fun scriptSig values' hpushes' hprevails htest => ?_⟩
    exact isOk_of_mergedBy ⟨rfl, rfl⟩ hpushes' hresult hby hprevails hlength htest

variable [ObjectSizes]

theorem signrawtransaction_eq {strHashType : Option String} {hex : Text} {txData : List UInt8}
    (hhex : parseHexV hex "argument 1" = .ok txData)
    (hdecode : decodeVariants txData.length txData = some (tx :: txVariants))
    (htype : parseHashType strHashType = .ok nHashType)
    (hinputs : ∀ txv ∈ txVariants, tx.vin.length ≤ txv.vin.length) :
    signrawtransaction view keystore strHashType hex =
      .ok (signedInputs view keystore nHashType (tx :: txVariants) tx tx.vin.length) := by
  have hsigned := @signInputs_eq _ _ _ _ view keystore nHashType (tx :: txVariants) tx _
    (Nat.le_refl _) (List.forall_mem_cons.mpr ⟨Nat.le_refl _, hinputs⟩)
  have hbind : ∀ {α β : Type} (a : α) (f : α → Except SignFailure β),
      ((Except.ok a).mapError SignFailure.jsonRPCError >>= f) = f a := fun _ _ => rfl
  rw [signrawtransaction, hhex, hbind, hdecode]
  dsimp only
  rw [htype, hbind, hsigned]

/-- What is returned for the versions of a transaction. -/
structure Signs (view : CoinsView) (keystore : CBasicKeyStore) (nHashType : Nat) (tx : CTransaction)
    (txVariants : List CTransaction) (result : SignedTransaction) : Prop where
  /-- Only signatures are changed. -/
  unsigned : result.mergedTx.unsigned = tx.unsigned
  /-- Every input is accepted for its known and available output, or the result is not complete. -/
  complete : result.fComplete = true ↔ ∀ i txin, result.mergedTx.vin[i]? = some txin →
    ∃ prevPubKey, prevPubKeyOf view txin.prevout = some prevPubKey ∧
      testSolution prevPubKey txin.scriptSig result.mergedTx i = true
  unknown : ∀ i txin, result.mergedTx.vin[i]? = some txin → prevPubKeyOf view txin.prevout = none →
    txin.scriptSig = tx.scriptSigAt i
  prevails : ∀ i txin prevPubKey, result.mergedTx.vin[i]? = some txin →
    prevPubKeyOf view txin.prevout = some prevPubKey →
    KeepsPrevailing prevPubKey result.mergedTx i
      (localScriptSig keystore nHashType prevPubKey result.mergedTx i)
      ((tx :: txVariants).map fun txv => txv.scriptSigAt i) txin.scriptSig

/-- Unless a version has fewer inputs than the first, `complete` says whether every input of what is
returned is accepted, and the script that is left for an input is accepted if the one that prevails
is. -/
theorem signrawtransaction_spec {strHashType : Option String} {hex : Text} {txData : List UInt8}
    (hhex : parseHexV hex "argument 1" = .ok txData)
    (hdecode : decodeVariants txData.length txData = some (tx :: txVariants))
    (htype : parseHashType strHashType = .ok nHashType)
    (hinputs : ∀ txv ∈ txVariants, tx.vin.length ≤ txv.vin.length) :
    ∃ result, signrawtransaction view keystore strHashType hex = .ok result ∧
      Signs view keystore nHashType tx txVariants result := by
  have hunsigned : (signedInputs view keystore nHashType (tx :: txVariants) tx
      tx.vin.length).mergedTx.unsigned = tx.unsigned :=
    tx.unsigned_withScriptSigs _ _
  refine ⟨_, signrawtransaction_eq hhex hdecode htype hinputs, hunsigned, fComplete_signedInputs,
    fun i txin hvin hknown => ?_, fun i txin prevPubKey hvin hknown => ?_⟩
  · obtain ⟨txin0, hvin0, rfl⟩ := getElem?_signedInputs.mp hvin
    dsimp only at hknown ⊢
    rw [mergedScriptSig, hknown, CTransaction.scriptSigAt_of_getElem? hvin0]
  · obtain ⟨txin0, -, rfl⟩ := getElem?_signedInputs.mp hvin
    dsimp only at hknown ⊢
    rw [← mergedScriptSig_congr hunsigned, mergedScriptSig, hknown]
    exact keepsPrevailing_mergeScripts prevPubKey _ _ i (List.cons_ne_nil _ _)

end

/-! ## A sample -/

namespace SignRawSample

open KeySample SpendSample

def size : ObjectSize := ⟨56, by decide⟩

scoped instance sizes : ObjectSizes := ⟨size, size, size⟩

/-- `OP_1 OP_EQUAL`: a script of no known type. -/
def prevPubKey : CScript := [OP_1, OP_EQUAL]

def view : CoinsView where
  coins txid := if txid = 1 then some ⟨false, [⟨50, prevPubKey⟩], 0, 1⟩ else none
  pindexTip := none

def spend (scriptSig : CScript) : CTransaction := ⟨1, [⟨⟨1, 0⟩, scriptSig, 0xffffffff⟩], [], 0⟩

def twoValues : CTransaction := spend [1, 2, 1, 2]

def oneValue : CTransaction := spend [OP_1]

theorem fits_spend {scriptSig : CScript} (h : scriptSig.length ≤ maxSize) : (spend scriptSig).Fits where
  vin := by
    refine ⟨(by decide : 1 ≤ maxSize), fun txin htxin => ?_⟩
    rwa [List.mem_singleton.mp htxin]
  vout := ⟨Nat.zero_le _, fun out hout => absurd hout List.not_mem_nil⟩

def txData : List UInt8 := [twoValues, oneValue].flatMap CTransaction.write

theorem parseHexV_txData : parseHexV (hexStr txData) "argument 1" = .ok txData :=
  parseHexV_hexStr (by decide) "argument 1"

theorem decodeVariants_txData :
    decodeVariants txData.length txData = some [twoValues, oneValue] := by
  apply decodeVariants_write
  intro tx htx
  simp only [List.mem_cons, List.not_mem_nil, or_false] at htx
  obtain rfl | rfl := htx
  · exact fits_spend (by decide)
  · exact fits_spend (by decide)

theorem signrawtransaction_spec_sample :
    ∃ result, signrawtransaction view .empty none (hexStr txData) = .ok result ∧
      Signs view .empty SIGHASH_ALL twoValues [oneValue] result :=
  signrawtransaction_spec parseHexV_txData decodeVariants_txData rfl (by decide)

/-- Of scripts of no known type the biggest is kept, and it may be another one that is accepted. -/
theorem not_accepted_of_variant :
    ¬ ∀ (view : CoinsView) (keystore : CBasicKeyStore) (strHashType : Option String) (hex : Text)
      (txData : List UInt8) (txVariants : List CTransaction) (result : SignedTransaction),
      parseHexV hex "argument 1" = .ok txData →
      decodeVariants txData.length txData = some txVariants →
      signrawtransaction view keystore strHashType hex = .ok result →
      ∀ txv ∈ txVariants, ∀ i txin prevPubKey, result.mergedTx.vin[i]? = some txin →
        prevPubKeyOf view txin.prevout = some prevPubKey →
        testSolution prevPubKey (txv.scriptSigAt i) result.mergedTx i = true →
        testSolution prevPubKey txin.scriptSig result.mergedTx i = true := by
  intro h
  have hsign : signrawtransaction view .empty none (hexStr txData) =
      .ok (signedInputs view .empty SIGHASH_ALL [twoValues, oneValue] twoValues 1) :=
    signrawtransaction_eq parseHexV_txData decodeVariants_txData rfl (by decide)
  have hreturned : (signedInputs view .empty SIGHASH_ALL [twoValues, oneValue] twoValues
      1).mergedTx = twoValues := by
    decide +kernel
  have haccepted := h view .empty none _ _ _ _ parseHexV_txData decodeVariants_txData hsign oneValue
    (by decide) 0 ⟨⟨1, 0⟩, [1, 2, 1, 2], 0xffffffff⟩ prevPubKey
  rw [hreturned] at haccepted
  have hpasses : testSolution prevPubKey (oneValue.scriptSigAt 0) twoValues 0 = true := by
    decide +kernel
  have hfails : testSolution prevPubKey [1, 2, 1, 2] twoValues 0 ≠ true := by
    decide +kernel
  exact hfails (haccepted rfl (by decide) hpasses)

end SignRawSample

end Terracoin
