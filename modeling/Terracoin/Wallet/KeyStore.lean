import Terracoin.Script.Standard
import Terracoin.Wallet.CryptoKeyStore

/-!
# The basic key store, and `IsMine`

`CBasicKeyStore` of `keystore.cpp`. A store carries what `AddKey` and `AddCScript` see to: keys and
redeem scripts are filed under their own hashes. `IsMine` asks for the keys of a standard script, and
for a pay-to-script-hash output it goes on with the redeem script, however often.
-/

namespace Terracoin

open Std (TreeMap)
open CScript txnouttype

/-- `uint160(vch)`. -/
def readUint160 (vch : valtype) : uint160 :=
  if vch.length = 20 then BitVec.ofNat 160 (CBigNum.unsigned vch) else 0

theorem littleEndian_unsigned (vch : valtype) :
    littleEndian vch.length (CBigNum.unsigned vch) = vch := by
  induction vch with
  | nil => rfl
  | cons b vch ih =>
    have hb := b.toNat_lt
    have hdiv : (b.toNat + 256 * CBigNum.unsigned vch) / 256 = CBigNum.unsigned vch := by omega
    rw [List.length_cons, CBigNum.unsigned, littleEndian, hdiv, ih]
    congr 1
    rw [← UInt8.toNat_inj, UInt8.toNat_ofNat']
    omega

theorem writeUint160_readUint160 {vch : valtype} (h : vch.length = 20) :
    writeUint160 (readUint160 vch) = vch := by
  have hlt := CBigNum.unsigned_lt vch
  rw [h] at hlt
  have hvch := littleEndian_unsigned vch
  rw [h] at hvch
  rw [readUint160, if_pos h, writeUint160, BitVec.toNat_ofNat, Nat.mod_eq_of_lt hlt, hvch]

def CScript.getID [ByteHashing160] (s : CScript) : uint160 := ByteHashing160.hash160 s

section

variable [EllipticCurve] [ByteHashing160]

structure CBasicKeyStore where
  mapKeys : TreeMap uint160 (List UInt8 × Bool)
  mapScripts : TreeMap uint160 CScript
  /-- A key is filed under the hash of its public key. -/
  key_of : ∀ (address : uint160) (entry : List UInt8 × Bool), mapKeys[address]? = some entry →
    ∃ key : PrivateKey, entry = (key.vchSecret, key.fCompressed) ∧ key.getID = address
  /-- A redeem script is filed under its hash. -/
  script_of : ∀ (hash : uint160) (s : CScript), mapScripts[hash]? = some s → s.getID = hash

namespace CBasicKeyStore

def empty : CBasicKeyStore where
  mapKeys := ∅
  mapScripts := ∅
  key_of _ _ h := by simp at h
  script_of _ _ h := by simp at h

def addKey (keystore : CBasicKeyStore) (key : PrivateKey) : CBasicKeyStore where
  mapKeys := keystore.mapKeys.insert key.getID (key.vchSecret, key.fCompressed)
  mapScripts := keystore.mapScripts
  key_of address entry h := by
    rw [CCryptoKeyStore.getElem?_insert] at h
    split at h
    · rename_i haddress
      exact ⟨key, (Option.some.inj h).symm, haddress.symm⟩
    · exact keystore.key_of address entry h
  script_of := keystore.script_of

def haveKey (keystore : CBasicKeyStore) (address : uint160) : Bool :=
  keystore.mapKeys.contains address

/-- `GetKey`: `Reset` and `SetSecret`. -/
def getKey (keystore : CBasicKeyStore) (address : uint160) : Option CKey :=
  match keystore.mapKeys[address]? with
  | some (vchSecret, fCompressed) => CKey.fresh.setSecret vchSecret fCompressed
  | none => none

def getPubKey (keystore : CBasicKeyStore) (address : uint160) : Option CPubKey := do
  let key ← keystore.getKey address
  key.getPubKey

def addCScript (keystore : CBasicKeyStore) (redeemScript : CScript) : CBasicKeyStore where
  mapKeys := keystore.mapKeys
  mapScripts := keystore.mapScripts.insert redeemScript.getID redeemScript
  key_of := keystore.key_of
  script_of hash s h := by
    rw [CCryptoKeyStore.getElem?_insert] at h
    split at h
    · rename_i hhash
      rw [← Option.some.inj h, hhash]
    · exact keystore.script_of hash s h

def haveCScript (keystore : CBasicKeyStore) (hash : uint160) : Bool :=
  keystore.mapScripts.contains hash

def getCScript (keystore : CBasicKeyStore) (hash : uint160) : Option CScript :=
  keystore.mapScripts[hash]?

variable {keystore : CBasicKeyStore} {address : uint160}

theorem exists_key (h : keystore.haveKey address = true) :
    ∃ key : PrivateKey, key.getID = address ∧ keystore.getKey address = some key.toCKey := by
  rw [haveKey, TreeMap.contains_eq_isSome_getElem?, Option.isSome_iff_exists] at h
  obtain ⟨entry, hentry⟩ := h
  obtain ⟨key, rfl, hid⟩ := keystore.key_of address entry hentry
  exact ⟨key, hid, by rw [getKey, hentry]; exact key.setSecret_fresh⟩

end CBasicKeyStore

def haveKeys (pubkeys : List valtype) (keystore : CBasicKeyStore) : Nat :=
  pubkeys.countP fun pubkey => keystore.haveKey (CPubKey.getID pubkey)

/-- `IsMine(keystore, scriptPubKey)`, for at most so many redeem scripts in one another. -/
def isMine (keystore : CBasicKeyStore) : Nat → CScript → Option Bool
  | 0, _ => none
  | fuel + 1, scriptPubKey =>
    match scriptPubKey.solver with
    | none => some false
    | some (TX_NONSTANDARD, _) => some false
    | some (TX_PUBKEY, vSolutions) =>
      some (keystore.haveKey (CPubKey.getID (vSolutions.headD [])))
    | some (TX_PUBKEYHASH, vSolutions) =>
      some (keystore.haveKey (readUint160 (vSolutions.headD [])))
    | some (TX_SCRIPTHASH, vSolutions) =>
      match keystore.getCScript (readUint160 (vSolutions.headD [])) with
      | none => some false
      | some subscript => isMine keystore fuel subscript
    | some (TX_MULTISIG, vSolutions) =>
      -- Only consider transactions "mine" if we own ALL the keys involved.
      let keys := vSolutions.tail.dropLast
      some (haveKeys keys keystore == keys.length)

/-- `IsMine` of a script. Redeem scripts in one another are all different, unless one contains its
own hash. -/
def CBasicKeyStore.isMineScript (keystore : CBasicKeyStore) (scriptPubKey : CScript) : Bool :=
  (isMine keystore (keystore.mapScripts.size + 2) scriptPubKey).getD false

end

/-- `CTxDestination`, without `CNoDestination`. -/
inductive CTxDestination
  | CKeyID (id : uint160)
  | CScriptID (id : uint160)
deriving DecidableEq

section

variable [EllipticCurve] [ByteHashing160]

def extractDestination (scriptPubKey : CScript) : Option CTxDestination :=
  match scriptPubKey.solver with
  | none => none
  | some (TX_PUBKEY, vSolutions) => some (.CKeyID (CPubKey.getID (vSolutions.headD [])))
  | some (TX_PUBKEYHASH, vSolutions) => some (.CKeyID (readUint160 (vSolutions.headD [])))
  | some (TX_SCRIPTHASH, vSolutions) => some (.CScriptID (readUint160 (vSolutions.headD [])))
  -- Multisig txns have more than one address...
  | some (_, _) => none

def CBasicKeyStore.isMineDest (keystore : CBasicKeyStore) : CTxDestination → Bool
  | .CKeyID keyID => keystore.haveKey keyID
  | .CScriptID scriptID => keystore.haveCScript scriptID

def CScript.setDestination (keyID : uint160) : CScript :=
  OP_DUP :: OP_HASH160 :: (push (writeUint160 keyID) ++ [OP_EQUALVERIFY, OP_CHECKSIG])

end

end Terracoin
