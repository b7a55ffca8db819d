import Terracoin.Script.Payment
import Terracoin.Wallet.Sign

/-!
# Spending what is mine

`IsMine` says that the keys for an output are there. `SignSignature` then finds them and its
signatures are accepted, unless the output pays to the hash of a redeem script that is itself a
pay-to-script-hash script, or longer than an element of the stack may be
(`signSignature_isMine_iff`).
-/

namespace Terracoin

open Traced (fail)
open CScript EvalScript txnouttype

section

variable [ECDSA] [ByteHashing] [ByteHashing160]

/-! ## Signatures -/

/-- A signature with the hash type, for a key of the store. -/
structure SignedBy (key : PrivateKey) (hash : uint256) (vchSig : valtype) : Prop where
  verify : ∃ sig, vchSig = sig ++ [UInt8.ofNat SIGHASH_ALL] ∧
    ECDSA.verify (EllipticCurve.regenerate key.vchSecret) hash sig = true
  canonical : (isCanonicalSignature vchSig).result = .ok true

def CBasicKeyStore.Holds (keystore : CBasicKeyStore) (key : PrivateKey) : Prop :=
  keystore.getKey key.getID = some key.toCKey

variable {keystore : CBasicKeyStore} {hash : uint256}

variable [LawfulECDSA]

omit [ByteHashing] in
theorem sign1_spec {address : uint160} (nCall : Nat) (h : keystore.haveKey address = true) :
    ∃ key vchSig, keystore.Holds key ∧ key.getID = address ∧ SignedBy key hash vchSig ∧
      ECDSA.sign nCall key.vchSecret hash = some vchSig.dropLast ∧
      sign1 nCall address keystore hash SIGHASH_ALL = some (push vchSig) := by
  obtain ⟨key, hid, hkey⟩ := CBasicKeyStore.exists_key h
  obtain ⟨sig, hsign, hverify, hcanonical⟩ :=
    LawfulECDSA.sign_verify nCall key.vchSecret hash key.checked
  refine ⟨key, sig ++ [UInt8.ofNat SIGHASH_ALL], ?_, hid, ⟨⟨sig, rfl, hverify⟩, hcanonical⟩, ?_, ?_⟩
  · rw [CBasicKeyStore.Holds, hid, hkey]
  · rw [List.dropLast_concat, hsign]
  · have hsignKey : key.toCKey.sign nCall hash = some sig := hsign
    rw [sign1, hkey]
    dsimp only
    rw [hsignKey]

omit [ByteHashing160] in
/-- The signature is accepted for the script that was signed. -/
theorem verifies_of_signedBy {key : PrivateKey} {vchSig : valtype} {s : CScript}
    {txTo : CTransaction} {nIn : Nat} (scriptSig : CScript)
    (h : SignedBy key (signatureHash s txTo nIn SIGHASH_ALL) vchSig) :
    verifies ⟨s, SCRIPT_VERIFY_P2SH + SCRIPT_VERIFY_STRICTENC,
      checkSig (txTo.setScriptSig nIn scriptSig) nIn 0⟩ s vchSig key.getPubKey = true := by
  obtain ⟨sig, rfl, hverify⟩ := h.verify
  have hpubkey : (isCanonicalPubKey key.getPubKey).result = .ok true :=
    LawfulECDSA.canonical_i2o _ _ key.checked
  have hpoint : PublicKeys.o2i key.getPubKey = some (EllipticCurve.regenerate key.vchSecret) :=
    LawfulEllipticCurve.o2i_i2o _ key.checked _
  have hcanonical : ∀ checkSig, (isCanonical ⟨s, SCRIPT_VERIFY_P2SH + SCRIPT_VERIFY_STRICTENC,
      checkSig⟩ (sig ++ [UInt8.ofNat SIGHASH_ALL]) key.getPubKey).result = .ok true := by
    intro checkSig
    rw [isCanonical, if_pos (by exact (by decide : Nat.testBit 3 1 = true)),
      Traced.bind_of_ok _ h.canonical]
    exact hpubkey
  rw [verifies, hcanonical, Bool.and_eq_true]
  refine ⟨rfl, ?_⟩
  have hlast : (UInt8.ofNat SIGHASH_ALL).toNat = SIGHASH_ALL := rfl
  simp only [checkSig, List.getLast?_concat, hpoint, List.dropLast_concat, ne_eq,
    not_true_eq_false, false_and, if_false]
  rw [hlast, signatureHash_setScriptSig]
  exact hverify

omit [ByteHashing] [ByteHashing160] in
theorem SignedBy.ne_pubKey {key key' : PrivateKey} {vchSig : valtype}
    (h : SignedBy key hash vchSig) : key'.getPubKey ≠ vchSig := by
  rintro rfl
  exact canonicalPubKey_spec (LawfulECDSA.canonical_i2o _ _ key'.checked)
    (canonicalSignature_spec h.canonical).2

omit [ByteHashing] [ByteHashing160] [LawfulECDSA] in
theorem SignedBy.ne_nil {key : PrivateKey} {vchSig : valtype} (h : SignedBy key hash vchSig) : vchSig ≠ [] := by
  rintro rfl
  exact absurd (canonicalSignature_spec h.canonical).2 (by decide)

omit [ByteHashing] [ByteHashing160] [LawfulECDSA] in
theorem SignedBy.length_lt {key : PrivateKey} {vchSig : valtype}
    (h : SignedBy key hash vchSig) : vchSig.length < 2 ^ 32 := by
  have := (canonicalSignature_spec h.canonical).1
  omega

/-- Signatures of keys of the store, one for each public key. -/
def SignedInOrder (keystore : CBasicKeyStore) (hash : uint256) (sigs pubkeys : List valtype) :
    Prop :=
  List.Forall₂ (fun vchSig pubkey => ∃ key, keystore.Holds key ∧
    key.getID = CPubKey.getID pubkey ∧ SignedBy key hash vchSig) sigs pubkeys

omit [ByteHashing] in
theorem signKeys_spec (hash : uint256) (nRequired nCall : Nat) {pubkeys : List valtype}
    (hhave : ∀ pubkey ∈ pubkeys, keystore.haveKey (CPubKey.getID pubkey) = true)
    (hle : nRequired ≤ pubkeys.length) :
    ∃ sigs, signKeys keystore hash SIGHASH_ALL nCall nRequired pubkeys =
        (0, (sigs.map push).flatten) ∧ sigs.length = nRequired ∧
      SignedInOrder keystore hash sigs (pubkeys.take nRequired) := by
  induction pubkeys generalizing nRequired nCall with
  | nil =>
    obtain rfl := Nat.le_zero.mp hle
    exact ⟨[], rfl, rfl, .nil⟩
  | cons pubkey pubkeys ih =>
    cases nRequired with
    | zero => exact ⟨[], rfl, rfl, .nil⟩
    | succ nRequired =>
      obtain ⟨key, vchSig, hholds, hid, hsigned, -, hsign⟩ :=
        sign1_spec nCall (hhave pubkey List.mem_cons_self)
      obtain ⟨sigs, hkeys, hlength, horder⟩ := ih nRequired (nCall + 1)
        (fun pubkey h => hhave pubkey (List.mem_cons_of_mem _ h)) (Nat.le_of_succ_le_succ hle)
      refine ⟨vchSig :: sigs, ?_, by rw [List.length_cons, hlength], ?_⟩
      · rw [signKeys, hsign]
        dsimp only
        rw [hkeys]
        rfl
      · exact .cons ⟨key, hholds, hid, hsigned⟩ horder

omit [ByteHashing] [LawfulECDSA] in
theorem SignedInOrder.of_mem {sigs pubkeys : List valtype}
    (h : SignedInOrder keystore hash sigs pubkeys) :
    ∀ vchSig ∈ sigs, ∃ key, SignedBy key hash vchSig := by
  induction h with
  | nil => exact fun _ h => absurd h List.not_mem_nil
  | cons hsigned _ ih =>
    intro vchSig hmem
    obtain rfl | hmem := List.mem_cons.mp hmem
    · obtain ⟨key, -, -, hsigned⟩ := hsigned
      exact ⟨key, hsigned⟩
    · exact ih vchSig hmem

omit [ByteHashing] [LawfulECDSA] in
theorem SignedInOrder.forall₂ {r : valtype → valtype → Prop} {sigs pubkeys : List valtype}
    (h : SignedInOrder keystore hash sigs pubkeys)
    (hr : ∀ pubkey ∈ pubkeys, ∀ key vchSig, keystore.Holds key →
      key.getID = CPubKey.getID pubkey → SignedBy key hash vchSig → r vchSig pubkey) :
    List.Forall₂ r sigs pubkeys := by
  induction h with
  | nil => exact .nil
  | cons hsigned _ ih =>
    obtain ⟨key, hholds, hid, hsigned⟩ := hsigned
    exact .cons (hr _ List.mem_cons_self key _ hholds hid hsigned)
      (ih fun pubkey hmem => hr pubkey (List.mem_cons_of_mem _ hmem))

/-! ## Evaluation of what was signed -/

/-- The public keys in the script that the store has are its own, and the signature for the input is
not the hash of its key. -/
structure NoCollision (keystore : CBasicKeyStore) (s : CScript) (txTo : CTransaction)
    (nIn : Nat) : Prop where
  pubKey : ∀ type vSolutions, s.solver = some (type, vSolutions) → ∀ vchPubKey ∈ vSolutions,
    33 ≤ vchPubKey.length → ∀ key, keystore.Holds key → key.getID = CPubKey.getID vchPubKey →
      key.getPubKey = vchPubKey
  signature : ∀ key, keystore.Holds key → ∀ sig, ECDSA.sign 0 key.vchSecret
    (signatureHash s txTo nIn SIGHASH_ALL) = some sig →
      sig ++ [UInt8.ofNat SIGHASH_ALL] ≠ writeUint160 key.getID

variable [ScriptHashing]

/-- What `testSolution` evaluates for a script. -/
def signContext (s : CScript) (txTo : CTransaction) (nIn : Nat) (scriptSig : CScript) :
    ScriptContext :=
  ⟨s, SCRIPT_VERIFY_P2SH + SCRIPT_VERIFY_STRICTENC, checkSig (txTo.setScriptSig nIn scriptSig) nIn 0⟩

/-- The script succeeds after the values have been pushed, whatever `scriptSig` is. -/
def Accepts (s : CScript) (txTo : CTransaction) (nIn : Nat) (values : List valtype) : Prop :=
  ∀ scriptSig, ∃ st, (evalScript (signContext s txTo nIn scriptSig) values.reverse).result = .ok st ∧
    topIsTrue st.stack = true

omit [LawfulECDSA] in
theorem accepts_of_run {s : CScript} {txTo : CTransaction} {nIn : Nat} {values : List valtype}
    {ops : List (UInt8 × valtype)} (hlength : s.length ≤ 10000) (hreads : Reads s ops [])
    (hops : ∀ op ∈ ops, op.1 ≠ 0xab)
    (h : ∀ scriptSig, ∃ nOpCount, run (signContext s txTo nIn scriptSig) ops
      ⟨values.reverse, [], [], 0, 0⟩ = .ok ⟨[vchTrue], [], [], nOpCount, 0⟩) :
    Accepts s txTo nIn values := by
  intro scriptSig
  obtain ⟨nOpCount, hrun⟩ := h scriptSig
  refine ⟨⟨[vchTrue], [], [], nOpCount, 0⟩, ?_, rfl⟩
  rw [result_evalScript_eq (signContext s txTo nIn scriptSig) values.reverse hlength hreads hops, ScriptState.init, hrun]
  rfl

section

variable {s : CScript} {txTo : CTransaction} {nIn : Nat} {key : PrivateKey} {vchSig : valtype}

theorem accepts_pubKey {opcode : UInt8} {vchPubKey : valtype} (h33 : 33 ≤ vchPubKey.length)
    (h120 : vchPubKey.length ≤ 120)
    (hreads : Reads s [(opcode, vchPubKey), (OP_CHECKSIG, [])] [])
    (hsig : SignedBy key (signatureHash s txTo nIn SIGHASH_ALL) vchSig)
    (hkey : key.getPubKey = vchPubKey) : Accepts s txTo nIn [vchSig] := by
  have hop : opcode ≤ OP_PUSHDATA4 := hreads.le_pushdata List.mem_cons_self fun hnil => by
    rw [hnil] at h33
    exact absurd h33 (by decide)
  have hcode : s.findAndDelete (push vchSig) = s := by
    refine findAndDelete_push hsig.length_lt hreads fun op hop => ?_
    obtain rfl | hop := List.mem_cons.mp hop
    · exact hkey ▸ hsig.ne_pubKey
    · obtain rfl := List.mem_singleton.mp hop
      exact hsig.ne_nil.symm
  have hlength := hreads.le_length
  simp only [List.map_cons, List.map_nil, List.sum_cons, List.sum_nil, List.length_nil] at hlength
  refine accepts_of_run (by omega) hreads (fun op hmem => ?_) fun scriptSig => ⟨1, ?_⟩
  · obtain rfl | hmem := List.mem_cons.mp hmem
    · rintro rfl
      exact absurd hop (by decide)
    · obtain rfl := List.mem_singleton.mp hmem
      decide
  · have hverifies : verifies (signContext s txTo nIn scriptSig) (s.findAndDelete (push vchSig))
        vchSig vchPubKey = true := by
      rw [hcode, ← hkey]
      exact verifies_of_signedBy scriptSig hsig
    have hsize : vchPubKey.length ≤ MAX_SCRIPT_ELEMENT_SIZE := Nat.le_trans h120 (by decide)
    rw [run_cons_of_ok (runOp_data hop hsize (by simp)), List.reverse_singleton,
      run_cons_of_ok (runOp_checkSig (by decide) (by decide) hverifies)]
    rfl

theorem accepts_pubKeyHash {opcode : UInt8} {hash160 : valtype} (h20 : hash160.length = 20)
    (hreads : Reads s [(OP_DUP, []), (OP_HASH160, []), (opcode, hash160), (OP_EQUALVERIFY, []),
      (OP_CHECKSIG, [])] [])
    (hsig : SignedBy key (signatureHash s txTo nIn SIGHASH_ALL) vchSig)
    (hkey : writeUint160 key.getID = hash160) (hne : vchSig ≠ hash160) :
    Accepts s txTo nIn [vchSig, key.getPubKey] := by
  have hop : opcode ≤ OP_PUSHDATA4 := by
    refine hreads.le_pushdata
      (List.mem_cons_of_mem _ (List.mem_cons_of_mem _ List.mem_cons_self)) fun hnil => ?_
    rw [hnil] at h20
    exact absurd h20 (by decide)
  have hops : ∀ op ∈ [(OP_DUP, []), (OP_HASH160, []), (opcode, hash160), (OP_EQUALVERIFY, []),
      (OP_CHECKSIG, [])], op.1 ≠ 0xab ∧ (op.2 = [] ∨ op.2 = hash160) := by
    simp only [List.forall_mem_cons, List.not_mem_nil, false_implies, implies_true, true_or,
      or_true, and_true]
    refine ⟨by decide, by decide, ?_, by decide, by decide⟩
    rintro rfl
    exact absurd hop (by decide)
  have hcode : s.findAndDelete (push vchSig) = s := by
    refine findAndDelete_push hsig.length_lt hreads fun op hop => ?_
    obtain h | h := (hops op hop).2
    · exact h ▸ hsig.ne_nil.symm
    · exact h ▸ hne.symm
  have hlength := hreads.le_length
  simp only [List.map_cons, List.map_nil, List.sum_cons, List.sum_nil, List.length_nil] at hlength
  refine accepts_of_run (by omega) hreads (fun op hop => (hops op hop).1) fun scriptSig => ⟨4, ?_⟩
  have hverifies : verifies (signContext s txTo nIn scriptSig) (s.findAndDelete (push vchSig))
      vchSig key.getPubKey = true := by
    rw [hcode]
    exact verifies_of_signedBy scriptSig hsig
  have hsize : hash160.length ≤ MAX_SCRIPT_ELEMENT_SIZE := by
    rw [h20]
    decide
  have hid : writeUint160 (ByteHashing160.hash160 key.getPubKey) = hash160 := hkey
  have hreverse : [vchSig, key.getPubKey].reverse = [key.getPubKey, vchSig] := rfl
  rw [hreverse, run_cons_of_ok (runOp_dup (by decide) (Nat.le_of_ble_eq_true rfl)),
    run_cons_of_ok (runOp_hash160 (by decide) (Nat.le_of_ble_eq_true rfl)), hid,
    run_cons_of_ok (runOp_data hop hsize (by simp)),
    run_cons_of_ok (runOp_equalVerify (by decide) (Nat.le_of_ble_eq_true rfl)),
    run_cons_of_ok (runOp_checkSig (by decide) (by decide) hverifies)]
  rfl

theorem accepts_multisig {m n : UInt8} {keys : List (UInt8 × valtype)} {sigs : List valtype}
    (hm : 1 ≤ m) (hmn : m ≤ n) (hn : n ≤ 16) (hlength : keys.length = n.toNat)
    (hrange : ∀ key ∈ keys, 33 ≤ key.2.length ∧ key.2.length ≤ 120)
    (hreads : Reads s ((OP_1 - 1 + m, []) :: (keys ++ [(OP_1 - 1 + n, []), (OP_CHECKMULTISIG, [])])) [])
    (hsigs : sigs.length = m.toNat)
    (horder : SignedInOrder keystore (signatureHash s txTo nIn SIGHASH_ALL) sigs
      ((keys.map Prod.snd).take m.toNat))
    (hpub : ∀ pubkey ∈ keys.map Prod.snd, ∀ key, keystore.Holds key →
      key.getID = CPubKey.getID pubkey → key.getPubKey = pubkey)
    (hown : ∀ pubkey ∈ keys.map Prod.snd, ∃ key : PrivateKey, key.getPubKey = pubkey) :
    Accepts s txTo nIn ([] :: sigs) := by
  have hcode : codeWithout s sigs = s := by
    refine codeWithout_eq hreads (fun vchSig hmem => ?_) fun vchSig hmem op hop => ?_
    · obtain ⟨key, hsigned⟩ := horder.of_mem vchSig hmem
      exact hsigned.length_lt
    · obtain ⟨key, hsigned⟩ := horder.of_mem vchSig hmem
      have hnil : ([] : valtype) ≠ vchSig := hsigned.ne_nil.symm
      obtain rfl | hop := List.mem_cons.mp hop
      · exact hnil
      · obtain hop | hop := List.mem_append.mp hop
        · obtain ⟨key', hkey'⟩ := hown op.2 (List.mem_map_of_mem hop)
          exact hkey' ▸ hsigned.ne_pubKey
        · simp only [List.mem_cons, List.not_mem_nil, or_false] at hop
          obtain rfl | rfl := hop <;> exact hnil
  intro scriptSig
  have hmatch : Matching.Assignable (verifies (signContext s txTo nIn scriptSig)
      (codeWithout s sigs)) sigs (keys.map Prod.snd) := by
    rw [Matching.assignable_iff, hcode]
    refine ⟨_, List.take_sublist m.toNat _, horder.forall₂ ?_⟩
    intro pubkey hmem key vchSig hholds hid hsigned
    rw [← hpub pubkey (List.mem_of_mem_take hmem) key hholds hid]
    exact verifies_of_signedBy scriptSig hsigned
  have hcontext : Reads (signContext s txTo nIn scriptSig).script _ [] := hreads
  obtain ⟨st, hst, htrue⟩ := evalScript_multisig hm hmn hn hlength hrange hcontext hsigs
  exact ⟨st, hst, htrue.mpr hmatch⟩

/-! ## The solution -/

/-- What `Solver` finds for a script whose keys are there. -/
structure Solves (keystore : CBasicKeyStore) (s : CScript) (txTo : CTransaction) (nIn : Nat)
    (values : List valtype) : Prop where
  solver : ∃ type, type ≠ TX_SCRIPTHASH ∧
    solverSign keystore s (signatureHash s txTo nIn SIGHASH_ALL) SIGHASH_ALL =
      (some type, (values.map push).flatten)
  count : values.length ≤ 17
  small : ∀ vch ∈ values, vch.length ≤ 73
  accepts : Accepts s txTo nIn values

theorem solves_pubKey {vchPubKey : valtype} (hsolver : s.solver = some (TX_PUBKEY, [vchPubKey]))
    (hsolution : Solution s TX_PUBKEY [vchPubKey])
    (hhave : keystore.haveKey (CPubKey.getID vchPubKey) = true)
    (hcollision : NoCollision keystore s txTo nIn) :
    ∃ values, Solves keystore s txTo nIn values := by
  cases hsolution with
  | pubKey h33 h120 hreads =>
    obtain ⟨key, vchSig, hholds, hid, hsigned, -, hsign⟩ := sign1_spec 0 hhave
    refine ⟨[vchSig], ⟨TX_PUBKEY, by decide, ?_⟩, Nat.le_of_ble_eq_true rfl, ?_, ?_⟩
    · rw [solverSign, hsolver]
      dsimp only [List.headD_cons]
      rw [hsign]
      simp
    · intro vch hvch
      obtain rfl := List.mem_singleton.mp hvch
      exact (canonicalSignature_spec hsigned.canonical).1
    · exact accepts_pubKey h33 h120 hreads hsigned
        (hcollision.pubKey _ _ hsolver _ (List.mem_singleton.mpr rfl) h33 key hholds hid)

theorem solves_pubKeyHash {hash160 : valtype} (hsolver : s.solver = some (TX_PUBKEYHASH, [hash160]))
    (hsolution : Solution s TX_PUBKEYHASH [hash160])
    (hhave : keystore.haveKey (readUint160 hash160) = true)
    (hcollision : NoCollision keystore s txTo nIn) :
    ∃ values, Solves keystore s txTo nIn values := by
  cases hsolution with
  | pubKeyHash h20 hreads =>
    obtain ⟨key, vchSig, hholds, hid, hsigned, hecdsa, hsign⟩ := sign1_spec 0 hhave
    have hpubkey : keystore.getPubKey (readUint160 hash160) = some key.getPubKey := by
      rw [CBasicKeyStore.getPubKey, ← hid, hholds]
      rfl
    have hbytes : writeUint160 key.getID = hash160 := by rw [hid, writeUint160_readUint160 h20]
    have hne : vchSig ≠ hash160 := by
      obtain ⟨sig, rfl, -⟩ := hsigned.verify
      rw [← hbytes]
      rw [List.dropLast_concat] at hecdsa
      exact hcollision.signature key hholds sig hecdsa
    refine ⟨[vchSig, key.getPubKey], ⟨TX_PUBKEYHASH, by decide, ?_⟩,
      Nat.le_of_ble_eq_true rfl, ?_, ?_⟩
    · rw [solverSign, hsolver]
      dsimp only [List.headD_cons]
      rw [hsign]
      dsimp only
      rw [hpubkey]
      simp
    · intro vch hvch
      simp only [List.mem_cons, List.not_mem_nil, or_false] at hvch
      obtain rfl | rfl := hvch
      · exact (canonicalSignature_spec hsigned.canonical).1
      · rw [PrivateKey.length_getPubKey]
        split <;> decide
    · exact accepts_pubKeyHash h20 hreads hsigned hbytes hne

theorem solves_multisig {vSolutions : List valtype}
    (hsolver : s.solver = some (TX_MULTISIG, vSolutions))
    (hsolution : Solution s TX_MULTISIG vSolutions)
    (hhave : haveKeys vSolutions.tail.dropLast keystore = vSolutions.tail.dropLast.length)
    (hcollision : NoCollision keystore s txTo nIn) :
    ∃ values, Solves keystore s txTo nIn values := by
  cases hsolution with
  | @multisig m n keys hm hmn hn hlength hrange hreads =>
    have htail : ([m] :: (keys.map Prod.snd ++ [[n]])).tail.dropLast = keys.map Prod.snd := by
      rw [List.tail_cons, List.dropLast_concat]
    rw [htail] at hhave
    have hall : ∀ pubkey ∈ keys.map Prod.snd, keystore.haveKey (CPubKey.getID pubkey) = true :=
      List.countP_eq_length.mp hhave
    have hpub : ∀ pubkey ∈ keys.map Prod.snd, ∀ key, keystore.Holds key →
        key.getID = CPubKey.getID pubkey → key.getPubKey = pubkey := by
      intro pubkey hmem key hholds hid
      refine hcollision.pubKey _ _ hsolver pubkey
        (List.mem_cons_of_mem _ (List.mem_append_left _ hmem)) ?_ key hholds hid
      obtain ⟨key', hkey', rfl⟩ := List.mem_map.mp hmem
      exact (hrange key' hkey').1
    have hown : ∀ pubkey ∈ keys.map Prod.snd, ∃ key : PrivateKey, key.getPubKey = pubkey := by
      intro pubkey hmem
      obtain ⟨key, hid, hkey⟩ := CBasicKeyStore.exists_key (hall pubkey hmem)
      refine ⟨key, hpub pubkey hmem key ?_ hid⟩
      rw [CBasicKeyStore.Holds, hid, hkey]
    have hmn' : m.toNat ≤ n.toNat := UInt8.le_iff_toNat_le.mp hmn
    have hn16 : n.toNat ≤ 16 := UInt8.le_iff_toNat_le.mp hn
    obtain ⟨sigs, hkeys, hsigs, horder⟩ := signKeys_spec (signatureHash s txTo nIn SIGHASH_ALL)
      m.toNat 0 hall (by rw [List.length_map]; omega)
    refine ⟨[] :: sigs, ⟨TX_MULTISIG, by decide, ?_⟩, ?_, ?_, ?_⟩
    · have hsignN : signN ([m] :: (keys.map Prod.snd ++ [[n]])) keystore
          (signatureHash s txTo nIn SIGHASH_ALL) SIGHASH_ALL = (true, (sigs.map push).flatten) := by
        have hfront : (([m] :: (keys.map Prod.snd ++ [[n]])).headD []).headD 0 = m := rfl
        simp only [signN, hfront, htail, hkeys]
        rfl
      rw [solverSign, hsolver]
      dsimp only
      rw [hsignN]
      rfl
    · rw [List.length_cons]
      omega
    · intro vch hvch
      obtain rfl | hvch := List.mem_cons.mp hvch
      · exact Nat.zero_le _
      · obtain ⟨key, hsigned⟩ := horder.of_mem vch hvch
        exact (canonicalSignature_spec hsigned.canonical).1
    · exact accepts_multisig hm hmn hn hlength hrange hreads hsigs horder hpub hown

/-- Where the keys are there, the script is solved. -/
theorem exists_solves {fuel : Nat} (hmine : isMine keystore fuel s = some true)
    (hp2sh : s.isPayToScriptHash = false) (hcollision : NoCollision keystore s txTo nIn) :
    ∃ values, Solves keystore s txTo nIn values := by
  cases fuel with
  | zero => cases hmine
  | succ fuel =>
    rw [isMine] at hmine
    cases hsolver : s.solver with
    | none =>
      rw [hsolver] at hmine
      cases hmine
    | some r =>
      obtain ⟨type, vSolutions⟩ := r
      rw [hsolver] at hmine
      have hsolution := solution_of_solver hsolver
      cases type with
      | TX_NONSTANDARD => cases hmine
      | TX_PUBKEY =>
        have hsolution' := hsolution
        cases hsolution with
        | pubKey => exact solves_pubKey hsolver hsolution' (Option.some.inj hmine) hcollision
      | TX_PUBKEYHASH =>
        have hsolution' := hsolution
        cases hsolution with
        | pubKeyHash =>
          exact solves_pubKeyHash hsolver hsolution' (Option.some.inj hmine) hcollision
      | TX_SCRIPTHASH =>
        cases hsolution with
        | scriptHash h => exact absurd h (by rw [hp2sh]; decide)
      | TX_MULTISIG =>
        exact solves_multisig hsolver hsolution (beq_iff_eq.mp (Option.some.inj hmine)) hcollision

omit [LawfulECDSA] in
theorem testSolution_of_accepts {values : List valtype} (hcount : values.length ≤ 17)
    (hsmall : ∀ vch ∈ values, vch.length ≤ 73) (haccepts : Accepts s txTo nIn values)
    (hp2sh : s.isPayToScriptHash = false) :
    testSolution s (values.map push).flatten (txTo.setScriptSig nIn (values.map push).flatten)
      nIn = true := by
  obtain ⟨st, hst, htrue⟩ := haccepts (values.map push).flatten
  rw [testSolution, isOk_verifyScript_pushes
    (fun vch hvch => Nat.le_trans (hsmall vch hvch) (by decide)) (Nat.le_trans hcount (by decide))
    hp2sh hst]
  exact htrue

omit [LawfulECDSA] in
theorem testSolution_scriptHash {subscript : CScript} {values : List valtype}
    (hcount : values.length ≤ 17) (hsmall : ∀ vch ∈ values, vch.length ≤ 73)
    (haccepts : Accepts subscript txTo nIn values) (hp2sh : s.isPayToScriptHash = true)
    (hid : writeUint160 subscript.getID = (s.drop 2).take 20)
    (hsize : subscript.length ≤ MAX_SCRIPT_ELEMENT_SIZE) :
    testSolution s ((values ++ [subscript]).map push).flatten
      (txTo.setScriptSig nIn ((values ++ [subscript]).map push).flatten) nIn = true := by
  have hvalues : ∀ vch ∈ values ++ [subscript], vch.length ≤ MAX_SCRIPT_ELEMENT_SIZE := by
    intro vch hvch
    obtain hvch | hvch := List.mem_append.mp hvch
    · exact Nat.le_trans (hsmall vch hvch) (by decide)
    · rwa [List.mem_singleton.mp hvch]
  obtain ⟨st, hst, htrue⟩ := haccepts ((values ++ [subscript]).map push).flatten
  rw [testSolution, isOk_verifyScript_scriptHash hvalues (Nat.le_trans hcount (by decide)) hp2sh
    hid rfl hst]
  exact htrue

omit [LawfulECDSA] in
theorem testSolution_too_large {subscript : CScript} {values : List valtype}
    (hcount : values.length ≤ 17) (hsmall : ∀ vch ∈ values, vch.length ≤ 73)
    (hsize : MAX_SCRIPT_ELEMENT_SIZE < subscript.length) :
    testSolution s ((values.map push).flatten ++ push subscript)
      (txTo.setScriptSig nIn ((values.map push).flatten ++ push subscript)) nIn = false := by
  have hsig := evalScript_push_too_large (SCRIPT_VERIFY_P2SH + SCRIPT_VERIFY_STRICTENC)
    (checkSig (txTo.setScriptSig nIn ((values.map push).flatten ++ push subscript)) nIn 0)
    (fun vch hvch => Nat.le_trans (hsmall vch hvch) (by decide)) (by omega) hsize
  rw [testSolution, verifyScript, Traced.bind_of_error _ (result_evaluate_of_error hsig)]
  rfl

/-! ## `SignSignature` -/

omit [ECDSA] [ByteHashing] [ByteHashing160] [LawfulECDSA] [ScriptHashing] in
theorem solver_of_isPayToScriptHash (h : s.isPayToScriptHash = true) :
    s.solver = some (TX_SCRIPTHASH, [(s.drop 2).take 20]) := if_pos h

/-- The script that is signed for an output: the redeem script if it is a pay-to-script-hash
output. -/
def CBasicKeyStore.signedScript (keystore : CBasicKeyStore) (scriptPubKey : CScript) : CScript :=
  if scriptPubKey.isPayToScriptHash then
    (keystore.getCScript (readUint160 ((scriptPubKey.drop 2).take 20))).getD []
  else scriptPubKey

/-- A redeem script can be signed for, and pushed. -/
def CBasicKeyStore.Signable (keystore : CBasicKeyStore) (scriptPubKey : CScript) : Prop :=
  scriptPubKey.isPayToScriptHash = true →
    (keystore.signedScript scriptPubKey).isPayToScriptHash = false ∧
      (keystore.signedScript scriptPubKey).length ≤ MAX_SCRIPT_ELEMENT_SIZE

theorem signSignature_of_not_scriptHash {fuel : Nat} (hmine : isMine keystore fuel s = some true)
    (hp2sh : s.isPayToScriptHash = false) (hcollision : NoCollision keystore s txTo nIn) :
    (signSignature keystore s txTo nIn SIGHASH_ALL).1 = true := by
  obtain ⟨values, ⟨type, htype, hsolver⟩, hcount, hsmall, haccepts⟩ :=
    exists_solves hmine hp2sh hcollision
  have htest := testSolution_of_accepts hcount hsmall haccepts hp2sh
  simp only [signSignature, hsolver]
  cases type with
  | TX_SCRIPTHASH => exact absurd rfl htype
  | TX_NONSTANDARD => exact htest
  | TX_PUBKEY => exact htest
  | TX_PUBKEYHASH => exact htest
  | TX_MULTISIG => exact htest

omit [ByteHashing] [LawfulECDSA] [ScriptHashing] in
/-- `IsMine` goes on with the redeem script, which has the hash of the output. -/
theorem exists_subscript {fuel : Nat} (hmine : isMine keystore fuel s = some true)
    (hp2sh : s.isPayToScriptHash = true) :
    ∃ subscript fuel', keystore.getCScript (readUint160 ((s.drop 2).take 20)) = some subscript ∧
      writeUint160 subscript.getID = (s.drop 2).take 20 ∧
      isMine keystore fuel' subscript = some true := by
  cases fuel with
  | zero => cases hmine
  | succ fuel =>
    rw [isMine, solver_of_isPayToScriptHash hp2sh] at hmine
    dsimp only [List.headD_cons] at hmine
    cases hscript : keystore.getCScript (readUint160 ((s.drop 2).take 20)) with
    | none =>
      rw [hscript] at hmine
      cases hmine
    | some subscript =>
      rw [hscript] at hmine
      refine ⟨subscript, fuel, rfl, ?_, hmine⟩
      rw [keystore.script_of _ _ hscript]
      exact writeUint160_readUint160 (reads_of_isPayToScriptHash hp2sh).1

/-- Outputs that pay to a script hash. -/
theorem signSignature_of_scriptHash {fuel : Nat} (hmine : isMine keystore fuel s = some true)
    (hp2sh : s.isPayToScriptHash = true)
    (hcollision : NoCollision keystore (keystore.signedScript s) txTo nIn) :
    (signSignature keystore s txTo nIn SIGHASH_ALL).1 = true ↔
      (keystore.signedScript s).isPayToScriptHash = false ∧
        (keystore.signedScript s).length ≤ MAX_SCRIPT_ELEMENT_SIZE := by
  obtain ⟨subscript, fuel', hscript, hid, hsubmine⟩ := exists_subscript hmine hp2sh
  have hsigned : keystore.signedScript s = subscript := by
    rw [CBasicKeyStore.signedScript, if_pos hp2sh, hscript]
    rfl
  rw [hsigned] at hcollision ⊢
  have hsolver : solverSign keystore s (signatureHash s txTo nIn SIGHASH_ALL) SIGHASH_ALL =
      (some TX_SCRIPTHASH, subscript) := by
    rw [solverSign, solver_of_isPayToScriptHash hp2sh]
    dsimp only [List.headD_cons]
    rw [hscript]
  simp only [signSignature, hsolver, signatureHash_setScriptSig]
  cases hnested : subscript.isPayToScriptHash with
  | true =>
    have htype : ((solverSign keystore subscript (signatureHash subscript txTo nIn SIGHASH_ALL)
        SIGHASH_ALL).1.any fun subType => subType ≠ TX_SCRIPTHASH) = false := by
      rw [solverSign, solver_of_isPayToScriptHash hnested]
      dsimp only
      split <;> rfl
    rw [htype, Bool.false_and]
    simp
  | false =>
    obtain ⟨values, ⟨type, htype, hsubsolver⟩, hcount, hsmall, haccepts⟩ :=
      exists_solves hsubmine hnested hcollision
    have hset : ∀ scriptSig, (txTo.setScriptSig nIn subscript).setScriptSig nIn scriptSig =
        txTo.setScriptSig nIn scriptSig := fun scriptSig => by
      simp [CTransaction.setScriptSig, List.modify_modify_eq, Function.comp_def]
    have hsolved : ((some type).any fun subType => subType ≠ TX_SCRIPTHASH) = true :=
      decide_eq_true htype
    rw [hsubsolver]
    dsimp only
    rw [hsolved, Bool.true_and]
    refine ⟨fun htest => ⟨rfl, Nat.le_of_not_lt fun hsize => ?_⟩, fun h => ?_⟩
    · rw [testSolution_too_large hcount hsmall hsize] at htest
      cases htest
    · have htest := testSolution_scriptHash hcount hsmall haccepts hp2sh hid h.2
      rw [List.map_append, List.flatten_append] at htest
      simpa using htest

/-- What is mine is signed for, unless it pays to a redeem script that is itself a
pay-to-script-hash script or longer than an element of the stack may be. -/
theorem signSignature_isMine_iff (keystore : CBasicKeyStore) (scriptPubKey : CScript)
    (txTo : CTransaction) (nIn : Nat) (hmine : ∃ fuel, isMine keystore fuel scriptPubKey = some true)
    (hcollision : NoCollision keystore (keystore.signedScript scriptPubKey) txTo nIn) :
    (signSignature keystore scriptPubKey txTo nIn SIGHASH_ALL).1 = true ↔
      keystore.Signable scriptPubKey := by
  obtain ⟨fuel, hmine⟩ := hmine
  cases hp2sh : scriptPubKey.isPayToScriptHash with
  | true =>
    rw [signSignature_of_scriptHash hmine hp2sh hcollision]
    exact ⟨fun h _ => h, fun h => h hp2sh⟩
  | false =>
    have hsigned : keystore.signedScript scriptPubKey = scriptPubKey := by
      rw [CBasicKeyStore.signedScript, hp2sh]
      rfl
    rw [hsigned] at hcollision
    refine iff_of_true (signSignature_of_not_scriptHash hmine hp2sh hcollision) fun h => ?_
    rw [hp2sh] at h
    cases h

end

end

/-! ## A sample -/

namespace SpendSample

open KeySample

/-- A signature that tells the first byte of the secret. -/
def signatureOf (secret : List UInt8) : List UInt8 :=
  [0x30, 6, 2, 1, secret.headD 0 % 128, 2, 1, 1]

scoped instance ecdsa : ECDSA where
  toEllipticCurve := curve
  sign _ secret _ := some (signatureOf secret)
  verify secret _ vchSig := vchSig == signatureOf secret

theorem canonical_signatureOf (b : UInt8) :
    (isCanonicalSignature [0x30, 6, 2, 1, b % 128, 2, 1, 1, 1]).result = .ok true := by
  have hall : ∀ n : Fin 128,
      (isCanonicalSignature [0x30, 6, 2, 1, UInt8.ofNat n, 2, 1, 1, 1]).result = .ok true := by
    decide +kernel
  have hlt : (b % 128).toNat < 128 := by
    rw [UInt8.toNat_mod]
    exact Nat.mod_lt _ (by decide)
  have hb := hall ⟨(b % 128).toNat, hlt⟩
  rwa [UInt8.ofNat_toNat] at hb

scoped instance lawfulECDSA : LawfulECDSA where
  toLawfulEllipticCurve := lawfulCurve
  sign_verify _ secret _ _ := ⟨signatureOf secret, rfl, beq_self_eq_true _, canonical_signatureOf _⟩
  canonical_i2o secret fCompressed h := by
    have hlength : secret.length = 32 := of_decide_eq_true h
    cases fCompressed <;>
      simp [PublicKeys.i2o, EllipticCurve.regenerate, isCanonicalPubKey, index_eq, hlength]

scoped instance scriptHashing : ScriptHashing where
  ripemd160 bytes := bytes.length
  sha1 bytes := bytes.length
  sha256 bytes := bytes.length

def redeemScript : CScript := push key.getPubKey ++ [OP_CHECKSIG]

def payToScriptHash (redeemScript : CScript) : CScript :=
  OP_HASH160 :: 0x14 :: (writeUint160 redeemScript.getID ++ [OP_EQUAL])

def keystore : CBasicKeyStore := (CBasicKeyStore.empty.addKey key).addCScript redeemScript

def longKey : PrivateKey := ⟨List.replicate 32 7, false, List.length_replicate, by decide⟩

def txTo : CTransaction := ⟨1, [⟨⟨1, 0⟩, [], 0xffffffff⟩], [], 0⟩

theorem getPubKey_of_holds {key' : PrivateKey} (h : keystore.Holds key') :
    key'.getPubKey = key.getPubKey := by
  have hentry : keystore.mapKeys[key'.getID]? =
      if key'.getID = key.getID then some (key.vchSecret, key.fCompressed) else none := by
    rw [keystore, CBasicKeyStore.addCScript, CBasicKeyStore.addKey, CCryptoKeyStore.getElem?_insert]
    simp [CBasicKeyStore.empty]
  by_cases hid : key'.getID = key.getID
  · rw [if_pos hid] at hentry
    rw [CBasicKeyStore.Holds, CBasicKeyStore.getKey, hentry] at h
    have hkey := Option.some.inj (key.setSecret_fresh.symm.trans h)
    have hpubkey := congrArg CKey.getPubKey hkey
    rw [PrivateKey.getPubKey_toCKey, PrivateKey.getPubKey_toCKey] at hpubkey
    exact (Option.some.inj hpubkey).symm
  · rw [if_neg hid] at hentry
    rw [CBasicKeyStore.Holds, CBasicKeyStore.getKey, hentry] at h
    cases h

theorem noCollision_redeemScript : NoCollision keystore redeemScript txTo 0 where
  pubKey type vSolutions hsolver vchPubKey hmem _ key' hholds _ := by
    have hredeem : redeemScript.solver = some (TX_PUBKEY, [key.getPubKey]) := by decide +kernel
    rw [hredeem] at hsolver
    obtain ⟨rfl, rfl⟩ := Prod.mk.inj (Option.some.inj hsolver)
    rw [List.mem_singleton.mp hmem]
    exact getPubKey_of_holds hholds
  signature key' _ sig hsign heq := by
    obtain rfl := Option.some.inj hsign
    have hlength := congrArg List.length heq
    rw [length_writeUint160] at hlength
    cases hlength

/-- A payment to a key, by the hash of its script. -/
theorem signSignature_isMine_sample :
    (signSignature keystore (payToScriptHash redeemScript) txTo 0 SIGHASH_ALL).1 = true := by
  have hsigned : keystore.signedScript (payToScriptHash redeemScript) = redeemScript := by
    decide +kernel
  refine (signSignature_isMine_iff keystore _ txTo 0 ⟨2, by decide +kernel⟩
    (hsigned ▸ noCollision_redeemScript)).mpr fun _ => ?_
  rw [hsigned]
  exact ⟨by decide +kernel, by decide +kernel⟩

/-- A multisignature script for one of eight uncompressed keys. -/
def longScript : CScript :=
  OP_1 :: ((List.replicate 8 (push longKey.getPubKey)).flatten ++ [0x58, OP_CHECKMULTISIG])

def longStore : CBasicKeyStore := (CBasicKeyStore.empty.addKey longKey).addCScript longScript

/-- It is mine, and cannot be pushed. -/
theorem isMine_longScript_not_signed :
    isMine longStore 2 (payToScriptHash longScript) = some true ∧
      (signSignature longStore (payToScriptHash longScript) txTo 0 SIGHASH_ALL).1 = false := by
  decide +kernel

end SpendSample

end Terracoin
