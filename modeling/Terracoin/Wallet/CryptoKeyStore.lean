import Std.Data.TreeMap.Lemmas
import Terracoin.Lib.Index
import Terracoin.Wallet.Key

/-!
# The encrypted key store

`CCryptoKeyStore` of `keystore.cpp`: the keys are in `mapKeys` as long as the store is not
encrypted, and in `mapCryptedKeys` from then on, each encrypted with the master key and the hash
of its public key as initialization vector. The cipher is OpenSSL's (`AES`, `LawfulAES`).

Whatever is called in which order, the keys are in one of the maps only, every key that was added
is handed out unless the store is locked, and then none is, and a wrong master key does not unlock
the store (`keyStore_spec`).
-/

namespace Terracoin

open Std (TreeMap)

/-- AES-256-CBC, of a key of 32 bytes, an initialization vector and a text. -/
class AES where
  encrypt : List UInt8 → uint256 → List UInt8 → Option (List UInt8)
  decrypt : List UInt8 → uint256 → List UInt8 → Option (List UInt8)

/-- Decryption inverts encryption, and with another key it fails or yields a secret with another
public key. -/
class LawfulAES [EllipticCurve] [AES] : Prop where
  decrypt_encrypt : ∀ chKey chIV text cipher, AES.encrypt chKey chIV text = some cipher →
    AES.decrypt chKey chIV cipher = some text
  decrypt_wrong : ∀ chKey chKey' chIV secret secret' cipher, chKey.length = 32 →
    chKey'.length = 32 → chKey' ≠ chKey → EllipticCurve.checkKey secret = true →
    AES.encrypt chKey chIV secret = some cipher → AES.decrypt chKey' chIV cipher = some secret' →
    ∀ fCompressed, PublicKeys.i2o fCompressed (EllipticCurve.regenerate secret') ≠
      PublicKeys.i2o fCompressed (EllipticCurve.regenerate secret)

def walletCryptoKeySize : Nat := 32

section

variable [EllipticCurve] [ByteHashing] [ByteHashing160] [AES]

/-- `EncryptSecret`: `SetKey` refuses a master key of another length. -/
def encryptSecret (vMasterKey vchPlaintext : List UInt8) (nIV : uint256) : Option (List UInt8) :=
  if vMasterKey.length ≠ walletCryptoKeySize then none else AES.encrypt vMasterKey nIV vchPlaintext

def decryptSecret (vMasterKey vchCiphertext : List UInt8) (nIV : uint256) : Option (List UInt8) :=
  if vMasterKey.length ≠ walletCryptoKeySize then none
  else AES.decrypt vMasterKey nIV vchCiphertext

structure CCryptoKeyStore where
  mapKeys : TreeMap uint160 (List UInt8 × Bool)
  mapCryptedKeys : TreeMap uint160 (CPubKey × List UInt8)
  vMasterKey : List UInt8
  fUseCrypto : Bool

namespace CCryptoKeyStore

def empty : CCryptoKeyStore := ⟨∅, ∅, [], false⟩

def isCrypted (s : CCryptoKeyStore) : Bool := s.fUseCrypto

def isLocked (s : CCryptoKeyStore) : Bool := s.isCrypted && s.vMasterKey.isEmpty

def setCrypted (s : CCryptoKeyStore) : Bool × CCryptoKeyStore :=
  if s.fUseCrypto then (true, s)
  else if !s.mapKeys.isEmpty then (false, s)
  else (true, { s with fUseCrypto := true })

def lock (s : CCryptoKeyStore) : Bool × CCryptoKeyStore :=
  match s.setCrypted with
  | (false, s) => (false, s)
  | (true, s) => (true, { s with vMasterKey := [] })

/-- The body of the loop of `Unlock`: the secret that comes out has the public key. -/
def decryptsTo (vMasterKey : List UInt8) (entry : CPubKey × List UInt8) : Bool :=
  match decryptSecret vMasterKey entry.2 entry.1.getHash with
  | none => false
  | some vchSecret =>
    if vchSecret.length ≠ 32 then false
    else
      match (CKey.fresh.setPubKey entry.1).setSecret vchSecret false with
      -- not reached, the length has been checked
      | none => false
      | some key => key.getPubKey == some entry.1

/-- `Unlock`. The loop looks at the first entry only. -/
def unlock (s : CCryptoKeyStore) (vMasterKeyIn : List UInt8) : Bool × CCryptoKeyStore :=
  match s.setCrypted with
  | (false, s) => (false, s)
  | (true, s) =>
    match s.mapCryptedKeys.toList.head? with
    | none => (true, { s with vMasterKey := vMasterKeyIn })
    | some (_, entry) =>
      if decryptsTo vMasterKeyIn entry then (true, { s with vMasterKey := vMasterKeyIn })
      else (false, s)

def addCryptedKey (s : CCryptoKeyStore) (vchPubKey : CPubKey) (vchCryptedSecret : List UInt8) :
    Bool × CCryptoKeyStore :=
  match s.setCrypted with
  | (false, s) => (false, s)
  | (true, s) =>
    (true, { s with
      mapCryptedKeys := s.mapCryptedKeys.insert vchPubKey.getID (vchPubKey, vchCryptedSecret) })

def addKey (s : CCryptoKeyStore) (key : PrivateKey) : Bool × CCryptoKeyStore :=
  if !s.isCrypted then
    -- `CBasicKeyStore::AddKey`
    (true, { s with mapKeys := s.mapKeys.insert key.getID (key.vchSecret, key.fCompressed) })
  else if s.isLocked then (false, s)
  else
    match encryptSecret s.vMasterKey key.vchSecret key.getPubKey.getHash with
    | none => (false, s)
    | some vchCryptedSecret => s.addCryptedKey key.getPubKey vchCryptedSecret

def encryptLoop (vMasterKeyIn : List UInt8) :
    List (uint160 × List UInt8 × Bool) → CCryptoKeyStore → Bool × CCryptoKeyStore
  | [], s => (true, s)
  | (_, vchSecret, fCompressed) :: rest, s =>
    match CKey.fresh.setSecret vchSecret fCompressed with
    -- it throws, which leaves the call as well
    | none => (false, s)
    | some key =>
      match key.getPubKey, key.getSecret with
      | some vchPubKey, some (vchSecret, _) =>
        match encryptSecret vMasterKeyIn vchSecret vchPubKey.getHash with
        | none => (false, s)
        | some vchCryptedSecret =>
          match s.addCryptedKey vchPubKey vchCryptedSecret with
          | (false, s) => (false, s)
          | (true, s) => encryptLoop vMasterKeyIn rest s
      | _, _ => (false, s)

def encryptKeys (s : CCryptoKeyStore) (vMasterKeyIn : List UInt8) : Bool × CCryptoKeyStore :=
  if !s.mapCryptedKeys.isEmpty || s.isCrypted then (false, s)
  else
    match encryptLoop vMasterKeyIn s.mapKeys.toList { s with fUseCrypto := true } with
    | (false, s) => (false, s)
    | (true, s) => (true, { s with mapKeys := ∅ })

def getKey (s : CCryptoKeyStore) (address : uint160) (keyOut : CKey) : Option CKey :=
  if !s.isCrypted then
    -- `CBasicKeyStore::GetKey`
    match s.mapKeys[address]? with
    | none => none
    | some (vchSecret, fCompressed) => CKey.fresh.setSecret vchSecret fCompressed
  else
    match s.mapCryptedKeys[address]? with
    | none => none
    | some (vchPubKey, vchCryptedSecret) =>
      match decryptSecret s.vMasterKey vchCryptedSecret vchPubKey.getHash with
      | none => none
      | some vchSecret =>
        if vchSecret.length ≠ 32 then none
        else (keyOut.setPubKey vchPubKey).setSecret vchSecret false

/-! ## Histories -/

/-- The entry is an encrypted key that was encrypted with `vMasterKey`. -/
def EncryptedWith (vMasterKey : List UInt8) (address : uint160) (entry : CPubKey × List UInt8) :
    Prop :=
  ∃ key : PrivateKey, address = key.getID ∧ entry.1 = key.getPubKey ∧
    encryptSecret vMasterKey key.vchSecret key.getPubKey.getHash = some entry.2

/-- The master key of a store: every key in it was encrypted with this one, and no other one is
set. -/
structure IsMasterKey (s : CCryptoKeyStore) (vMasterKey : List UInt8) : Prop where
  length_eq : vMasterKey.length = walletCryptoKeySize
  current : s.vMasterKey = [] ∨ s.vMasterKey = vMasterKey
  encrypted : ∀ (address : uint160) (entry : CPubKey × List UInt8),
    s.mapCryptedKeys[address]? = some entry → EncryptedWith vMasterKey address entry

/-- `EncryptKeys` does not fail midway: it succeeds, or it refuses at once. -/
def EncryptKeysCompletes (s : CCryptoKeyStore) (vMasterKeyIn : List UInt8) : Prop :=
  (s.encryptKeys vMasterKeyIn).1 = true ∨ s.mapCryptedKeys.isEmpty = false ∨ s.isCrypted = true

/-- The stores that come out of a sequence of calls, with the keys that were added: those that
`AddKey` or `AddCryptedKey` took. -/
inductive Reaches : CCryptoKeyStore → List PrivateKey → Prop
  | empty : Reaches empty []
  | addKey {s : CCryptoKeyStore} {added : List PrivateKey} (key : PrivateKey) :
    Reaches s added →
      Reaches (s.addKey key).2 (if (s.addKey key).1 then added ++ [key] else added)
  | encryptKeys {s : CCryptoKeyStore} {added : List PrivateKey} (vMasterKeyIn : List UInt8) :
    Reaches s added → s.EncryptKeysCompletes vMasterKeyIn →
      Reaches (s.encryptKeys vMasterKeyIn).2 added
  | lock {s : CCryptoKeyStore} {added : List PrivateKey} :
    Reaches s added → Reaches s.lock.2 added
  | unlock {s : CCryptoKeyStore} {added : List PrivateKey} (vMasterKeyIn : List UInt8) :
    Reaches s added → Reaches (s.unlock vMasterKeyIn).2 added
  | addCryptedKey {s : CCryptoKeyStore} {added : List PrivateKey} (key : PrivateKey)
    (vMasterKey vchCryptedSecret : List UInt8) : Reaches s added → s.IsMasterKey vMasterKey →
      encryptSecret vMasterKey key.vchSecret key.getPubKey.getHash = some vchCryptedSecret →
      Reaches (s.addCryptedKey key.getPubKey vchCryptedSecret).2
        (if (s.addCryptedKey key.getPubKey vchCryptedSecret).1 then added ++ [key] else added)

/-- No two public keys of these keys have the same id. -/
def NoCollision (keys : List PrivateKey) : Prop :=
  ∀ key ∈ keys, ∀ key' ∈ keys, key.getID = key'.getID → key.getPubKey = key'.getPubKey

/-! ## The invariant -/

/-- `mapKeys` has the keys that were added and nothing else. -/
structure HoldsPlain (s : CCryptoKeyStore) (added : List PrivateKey) : Prop where
  mem : ∀ key ∈ added, s.mapKeys[key.getID]? = some (key.vchSecret, key.fCompressed)
  of_mem : ∀ (address : uint160) (entry : List UInt8 × Bool), s.mapKeys[address]? = some entry →
    ∃ key ∈ added, address = key.getID ∧ entry = (key.vchSecret, key.fCompressed)

/-- `mapCryptedKeys` has the keys that were added, under one master key. -/
structure HoldsCrypted (s : CCryptoKeyStore) (vMasterKey : List UInt8)
    (added : List PrivateKey) : Prop where
  master : s.IsMasterKey vMasterKey
  mem : ∀ key ∈ added, ∃ vchCryptedSecret,
    s.mapCryptedKeys[key.getID]? = some (key.getPubKey, vchCryptedSecret)

/-- The two modes of a store. -/
inductive Inv (s : CCryptoKeyStore) (added : List PrivateKey) : Prop
  | plain (mode : s.fUseCrypto = false) (locked : s.vMasterKey = [])
    (none : s.mapCryptedKeys.isEmpty = true) (keys : s.HoldsPlain added)
  | noKeys (mode : s.fUseCrypto = true) (none : s.mapKeys.isEmpty = true)
    (none' : s.mapCryptedKeys.isEmpty = true) (added : added = [])
  | crypted (mode : s.fUseCrypto = true) (none : s.mapKeys.isEmpty = true)
    (vMasterKey : List UInt8) (keys : s.HoldsCrypted vMasterKey added)

variable {s s' : CCryptoKeyStore} {added : List PrivateKey} {key : PrivateKey}
  {vMasterKey vchCryptedSecret : List UInt8}

omit [EllipticCurve] [ByteHashing] [ByteHashing160] [AES] in
theorem setCrypted_of_crypted (h : s.fUseCrypto = true) : s.setCrypted = (true, s) := by
  rw [setCrypted, if_pos h]

omit [EllipticCurve] [ByteHashing] [ByteHashing160] [AES] in
theorem setCrypted_of_isEmpty (h : s.fUseCrypto = false) (hempty : s.mapKeys.isEmpty = true) :
    s.setCrypted = (true, { s with fUseCrypto := true }) := by
  simp [setCrypted, h, hempty]

omit [EllipticCurve] [ByteHashing] [ByteHashing160] [AES] in
theorem setCrypted_of_plain (h : s.fUseCrypto = false) (hempty : s.mapKeys.isEmpty = false) :
    s.setCrypted = (false, s) := by
  simp [setCrypted, h, hempty]

omit [EllipticCurve] [ByteHashing] [AES] in
theorem addCryptedKey_of_crypted (h : s.fUseCrypto = true) (vchPubKey : CPubKey) :
    s.addCryptedKey vchPubKey vchCryptedSecret = (true, { s with
      mapCryptedKeys :=
        s.mapCryptedKeys.insert vchPubKey.getID (vchPubKey, vchCryptedSecret) }) := by
  rw [addCryptedKey, setCrypted_of_crypted h]

theorem addKey_of_plain (h : s.fUseCrypto = false) :
    s.addKey key = (true, { s with
      mapKeys := s.mapKeys.insert key.getID (key.vchSecret, key.fCompressed) }) := by
  simp [addKey, isCrypted, h]

/-- An encrypted store takes a key when it has a master key, and encrypts it. -/
theorem addKey_of_crypted (h : s.fUseCrypto = true) : s.addKey key = (false, s) ∨
    ∃ vchCryptedSecret, s.vMasterKey ≠ [] ∧
      encryptSecret s.vMasterKey key.vchSecret key.getPubKey.getHash = some vchCryptedSecret ∧
      s.addKey key = (true, { s with
        mapCryptedKeys :=
          s.mapCryptedKeys.insert key.getPubKey.getID (key.getPubKey, vchCryptedSecret) }) := by
  rw [addKey, if_neg (by simp [isCrypted, h])]
  split
  · exact .inl rfl
  · next hunlocked =>
    have hset : s.vMasterKey ≠ [] := by
      intro hnil
      simp [isLocked, isCrypted, h, hnil] at hunlocked
    split
    · exact .inl rfl
    · next vchCryptedSecret hencrypt =>
      exact .inr ⟨vchCryptedSecret, hset, hencrypt, addCryptedKey_of_crypted h _⟩

omit [ByteHashing] [AES] in
theorem HoldsPlain.eq_nil (h : s.HoldsPlain added) (hempty : s.mapKeys.isEmpty = true) :
    added = [] := by
  rw [List.eq_nil_iff_forall_not_mem]
  intro key hkey
  have hmem := h.mem key hkey
  rw [TreeMap.getElem?_of_isEmpty hempty] at hmem
  cases hmem

/-- A store without keys is encrypted by any call that asks for it. -/
theorem Inv.setCrypted (h : s.Inv added) :
    (∃ s', s.setCrypted = (true, s') ∧ s'.fUseCrypto = true ∧ s'.mapKeys = s.mapKeys ∧
      s'.mapCryptedKeys = s.mapCryptedKeys ∧ s'.vMasterKey = s.vMasterKey ∧ s'.Inv added) ∨
    s.fUseCrypto = false ∧ s.setCrypted = (false, s) := by
  have hcrypted : s.fUseCrypto = true → s.setCrypted = (true, s) := setCrypted_of_crypted
  cases h with
  | plain mode locked none keys =>
    cases hempty : s.mapKeys.isEmpty with
    | false => exact .inr ⟨mode, setCrypted_of_plain mode hempty⟩
    | true =>
      refine .inl ⟨_, setCrypted_of_isEmpty mode hempty, rfl, rfl, rfl, rfl, ?_⟩
      exact .noKeys rfl hempty none (keys.eq_nil hempty)
  | noKeys mode none none' added =>
    exact .inl ⟨s, hcrypted mode, mode, rfl, rfl, rfl, .noKeys mode none none' added⟩
  | crypted mode none vMasterKey keys =>
    exact .inl ⟨s, hcrypted mode, mode, rfl, rfl, rfl, .crypted mode none vMasterKey keys⟩

omit [EllipticCurve] [ByteHashing] [ByteHashing160] [AES] in
theorem getElem?_insert {α : Type} (m : TreeMap uint160 α) (address address' : uint160) (a : α) :
    (m.insert address a)[address']? = if address' = address then some a else m[address']? := by
  rw [TreeMap.getElem?_insert]
  simp only [Std.compare_eq_iff_eq, eq_comm (a := address)]

omit [ByteHashing] [AES] in
theorem NoCollision.of_append (h : NoCollision (added ++ [key])) : NoCollision added :=
  fun key' hkey' key'' hkey'' =>
    h key' (List.mem_append_left _ hkey') key'' (List.mem_append_left _ hkey'')

section

variable [LawfulEllipticCurve]

omit [ByteHashing] [AES] in
theorem NoCollision.eq_of_getID_eq (h : NoCollision (added ++ [key])) {key' : PrivateKey}
    (hkey' : key' ∈ added ++ [key]) (hid : key'.getID = key.getID) : key' = key :=
  PrivateKey.eq_of_getPubKey_eq
    (h key' hkey' key (List.mem_append_right _ (List.mem_singleton_self key)) hid)

omit [ByteHashing] [AES] in
theorem HoldsPlain.insert (h : s.HoldsPlain added) (hids : NoCollision (added ++ [key])) :
    HoldsPlain { s with
      mapKeys := s.mapKeys.insert key.getID (key.vchSecret, key.fCompressed) }
      (added ++ [key]) := by
  constructor
  · intro key' hkey'
    dsimp only
    rw [getElem?_insert]
    split
    · next hid => rw [hids.eq_of_getID_eq hkey' hid]
    · next hid =>
      rcases List.mem_append.mp hkey' with hkey' | hkey'
      · exact h.mem key' hkey'
      · rw [List.mem_singleton.mp hkey'] at hid
        exact absurd rfl hid
  · intro address entry hentry
    dsimp only at hentry
    rw [getElem?_insert] at hentry
    split at hentry
    · next hid =>
      refine ⟨key, List.mem_append_right _ (List.mem_singleton_self key), hid, ?_⟩
      exact (Option.some.inj hentry).symm
    · obtain ⟨key', hkey', hid, heq⟩ := h.of_mem address entry hentry
      exact ⟨key', List.mem_append_left _ hkey', hid, heq⟩

theorem HoldsCrypted.insert (h : s.HoldsCrypted vMasterKey added)
    (hids : NoCollision (added ++ [key]))
    (hencrypt : encryptSecret vMasterKey key.vchSecret key.getPubKey.getHash =
      some vchCryptedSecret) :
    HoldsCrypted { s with
      mapCryptedKeys :=
        s.mapCryptedKeys.insert key.getPubKey.getID (key.getPubKey, vchCryptedSecret) }
      vMasterKey (added ++ [key]) := by
  refine ⟨⟨h.master.length_eq, h.master.current, fun address entry hentry => ?_⟩,
    fun key' hkey' => ?_⟩
  · dsimp only at hentry
    rw [getElem?_insert] at hentry
    split at hentry
    · next hid =>
      obtain rfl := Option.some.inj hentry
      exact ⟨key, hid, rfl, hencrypt⟩
    · exact h.master.encrypted address entry hentry
  · dsimp only
    rw [getElem?_insert]
    split
    · next hid => exact ⟨vchCryptedSecret, by rw [hids.eq_of_getID_eq hkey' hid]⟩
    · next hid =>
      rcases List.mem_append.mp hkey' with hkey' | hkey'
      · exact h.mem key' hkey'
      · rw [List.mem_singleton.mp hkey'] at hid
        exact absurd rfl hid

end

/-! ## What `EncryptKeys` does -/

/-- The loop of `EncryptKeys` has replaced the entries of `l`. -/
structure Encrypts (vMasterKeyIn : List UInt8) (l : List (uint160 × List UInt8 × Bool))
    (s s' : CCryptoKeyStore) : Prop where
  fUseCrypto : s'.fUseCrypto = true
  mapKeys : s'.mapKeys = s.mapKeys
  vMasterKey : s'.vMasterKey = s.vMasterKey
  length_eq : l ≠ [] → vMasterKeyIn.length = walletCryptoKeySize
  other : ∀ address, address ∉ l.map Prod.fst →
    s'.mapCryptedKeys[address]? = s.mapCryptedKeys[address]?
  encrypted : ∀ (address : uint160) (entry : CPubKey × List UInt8),
    s'.mapCryptedKeys[address]? = some entry →
      s.mapCryptedKeys[address]? = some entry ∨ EncryptedWith vMasterKeyIn address entry
  mem : ∀ key : PrivateKey, (key.getID, key.vchSecret, key.fCompressed) ∈ l →
    ∃ vchCryptedSecret, s'.mapCryptedKeys[key.getID]? = some (key.getPubKey, vchCryptedSecret)

omit [EllipticCurve] [ByteHashing] [ByteHashing160] in
theorem length_of_encryptSecret {vchPlaintext : List UInt8} {nIV : uint256}
    (h : encryptSecret vMasterKey vchPlaintext nIV = some vchCryptedSecret) :
    vMasterKey.length = walletCryptoKeySize := by
  by_contra hne
  rw [encryptSecret, if_pos hne] at h
  cases h

theorem encryptLoop_cons (hs : s.fUseCrypto = true) (address : uint160)
    (rest : List (uint160 × List UInt8 × Bool)) :
    encryptLoop vMasterKey ((address, key.vchSecret, key.fCompressed) :: rest) s =
      match encryptSecret vMasterKey key.vchSecret key.getPubKey.getHash with
      | none => (false, s)
      | some vchCryptedSecret => encryptLoop vMasterKey rest { s with
          mapCryptedKeys :=
            s.mapCryptedKeys.insert key.getPubKey.getID (key.getPubKey, vchCryptedSecret) } := by
  rw [encryptLoop, PrivateKey.setSecret_fresh]
  simp only [PrivateKey.getPubKey_toCKey, PrivateKey.getSecret_toCKey]
  cases encryptSecret vMasterKey key.vchSecret key.getPubKey.getHash with
  | none => rfl
  | some vchCryptedSecret => simp only [addCryptedKey_of_crypted hs]

theorem encrypts_of_encryptLoop {l : List (uint160 × List UInt8 × Bool)}
    (hkeys : ∀ entry ∈ l, ∃ key : PrivateKey,
      entry = (key.getID, key.vchSecret, key.fCompressed))
    (hnodup : (l.map Prod.fst).Nodup) (hs : s.fUseCrypto = true)
    (h : encryptLoop vMasterKey l s = (true, s')) : Encrypts vMasterKey l s s' := by
  induction l generalizing s with
  | nil =>
    obtain rfl := (Prod.mk.inj h).2
    exact ⟨hs, rfl, rfl, fun hne => absurd rfl hne, fun _ _ => rfl, fun _ _ => .inl, nofun⟩
  | cons entry rest ih =>
    obtain ⟨key, rfl⟩ := hkeys entry List.mem_cons_self
    rw [List.map_cons, List.nodup_cons] at hnodup
    rw [encryptLoop_cons hs] at h
    split at h
    · cases h
    · next vchCryptedSecret hencrypt =>
      have hrest := ih (fun entry hentry => hkeys entry (List.mem_cons_of_mem _ hentry))
        hnodup.2 (by exact hs) h
      have hother := hrest.other
      have hencrypted := hrest.encrypted
      dsimp only at hother hencrypted
      refine ⟨hrest.fUseCrypto, hrest.mapKeys, hrest.vMasterKey,
        fun _ => length_of_encryptSecret hencrypt, fun address hnot => ?_,
        fun address entry hentry => ?_, fun key' hkey' => ?_⟩
      · rw [List.map_cons, List.mem_cons, not_or] at hnot
        have hne : address ≠ key.getPubKey.getID := hnot.1
        rw [hother address hnot.2, getElem?_insert, if_neg hne]
      · rcases hencrypted address entry hentry with hold | hnew
        · rw [getElem?_insert] at hold
          split at hold
          · next hid =>
            obtain rfl := Option.some.inj hold
            exact .inr ⟨key, hid, rfl, hencrypt⟩
          · exact .inl hold
        · exact .inr hnew
      · rcases List.mem_cons.mp hkey' with heq | hmem
        · obtain ⟨-, hsecret, hcompressed⟩ := Prod.mk.inj heq |>.imp_right Prod.mk.inj
          obtain rfl := PrivateKey.ext hsecret hcompressed
          refine ⟨vchCryptedSecret, (hother _ hnodup.1).trans ?_⟩
          exact (getElem?_insert ..).trans (if_pos rfl)
        · exact hrest.mem key' hmem

/-! ## The steps -/

section

variable [LawfulEllipticCurve]

theorem Inv.addKey (h : s.Inv added)
    (hids : NoCollision (if (s.addKey key).1 then added ++ [key] else added)) :
    (s.addKey key).2.Inv (if (s.addKey key).1 then added ++ [key] else added) := by
  cases h with
  | plain mode locked none keys =>
    rw [addKey_of_plain mode] at hids ⊢
    exact .plain mode locked none (keys.insert hids)
  | noKeys mode none none' hadded =>
    rcases addKey_of_crypted mode with hadd | ⟨vchCryptedSecret, -, hencrypt, hadd⟩
    · rw [hadd]
      exact .noKeys mode none none' hadded
    · have hmaster : s.IsMasterKey s.vMasterKey := by
        refine ⟨length_of_encryptSecret hencrypt, .inr rfl, fun address entry hentry => ?_⟩
        rw [TreeMap.getElem?_of_isEmpty none'] at hentry
        cases hentry
      have hkeys : s.HoldsCrypted s.vMasterKey added := ⟨hmaster, by rw [hadded]; exact nofun⟩
      rw [hadd] at hids ⊢
      exact .crypted mode none s.vMasterKey (hkeys.insert hids hencrypt)
  | crypted mode none vMasterKey keys =>
    rcases addKey_of_crypted mode with hadd | ⟨vchCryptedSecret, hset, hencrypt, hadd⟩
    · rw [hadd]
      exact .crypted mode none vMasterKey keys
    · rw [hadd] at hids ⊢
      rw [keys.master.current.resolve_left hset] at hencrypt
      exact .crypted mode none vMasterKey (keys.insert hids hencrypt)

theorem Inv.addCryptedKey (h : s.Inv added) (hmaster : s.IsMasterKey vMasterKey)
    (hencrypt : encryptSecret vMasterKey key.vchSecret key.getPubKey.getHash =
      some vchCryptedSecret)
    (hids : NoCollision (if (s.addCryptedKey key.getPubKey vchCryptedSecret).1 then
      added ++ [key] else added)) :
    (s.addCryptedKey key.getPubKey vchCryptedSecret).2.Inv
      (if (s.addCryptedKey key.getPubKey vchCryptedSecret).1 then added ++ [key] else added) := by
  rw [CCryptoKeyStore.addCryptedKey] at hids ⊢
  rcases h.setCrypted with ⟨s', hset, hmode, -, hcrypted, hmasterKey, hinv⟩ | ⟨-, hset⟩
  · rw [hset] at hids ⊢
    have hmaster' : s'.IsMasterKey vMasterKey := by
      refine ⟨hmaster.length_eq, ?_, ?_⟩
      · rw [hmasterKey]
        exact hmaster.current
      · rw [hcrypted]
        exact hmaster.encrypted
    cases hinv with
    | plain mode => exact absurd (mode.symm.trans hmode) Bool.false_ne_true
    | noKeys mode none none' hadded =>
      have hkeys : s'.HoldsCrypted vMasterKey added := ⟨hmaster', by rw [hadded]; exact nofun⟩
      exact .crypted mode none vMasterKey (hkeys.insert hids hencrypt)
    | crypted mode none vMasterKey' keys =>
      have hkeys : s'.HoldsCrypted vMasterKey added := ⟨hmaster', keys.mem⟩
      exact .crypted mode none vMasterKey (hkeys.insert hids hencrypt)
  · rw [hset]
    exact h

omit [LawfulEllipticCurve] in
theorem Inv.lock (h : s.Inv added) : s.lock.2.Inv added := by
  rw [CCryptoKeyStore.lock]
  rcases h.setCrypted with ⟨s', hset, hmode, -, -, -, hinv⟩ | ⟨-, hset⟩
  · simp only [hset]
    cases hinv with
    | plain mode => exact absurd (mode.symm.trans hmode) Bool.false_ne_true
    | noKeys mode none none' hadded => exact .noKeys mode none none' hadded
    | crypted mode none vMasterKey keys =>
      exact .crypted mode none vMasterKey
        ⟨⟨keys.master.length_eq, .inl rfl, keys.master.encrypted⟩, keys.mem⟩
  · simpa only [hset] using h

omit [LawfulEllipticCurve] in
theorem Inv.encryptKeys (h : s.Inv added) (hcompletes : s.EncryptKeysCompletes vMasterKey) :
    (s.encryptKeys vMasterKey).2.Inv added := by
  rw [EncryptKeysCompletes] at hcompletes
  rw [CCryptoKeyStore.encryptKeys, isCrypted] at hcompletes ⊢
  cases h with
  | noKeys mode none none' hadded =>
    simp only [mode, Bool.or_true, if_true]
    exact .noKeys mode none none' hadded
  | crypted mode none vMasterKey keys =>
    simp only [mode, Bool.or_true, if_true]
    exact .crypted mode none vMasterKey keys
  | plain mode locked none keys =>
    simp only [mode, none, Bool.not_true, Bool.or_false, Bool.false_eq_true, if_false] at hcompletes ⊢
    have hentries : ∀ entry ∈ s.mapKeys.toList, ∃ key ∈ added,
        entry = (key.getID, key.vchSecret, key.fCompressed) := by
      rintro ⟨address, entry⟩ hentry
      obtain ⟨key, hkey, rfl, rfl⟩ :=
        keys.of_mem address entry (TreeMap.mem_toList_iff_getElem?_eq_some.mp hentry)
      exact ⟨key, hkey, rfl⟩
    have hnodup := Index.nodup_map_fst_toList s.mapKeys
    split at hcompletes
    · simp at hcompletes
    · next s' hloop =>
      have hspec := encrypts_of_encryptLoop
        (fun entry hentry => (hentries entry hentry).imp fun _ hkey => hkey.2) hnodup rfl hloop
      have hmem : ∀ key ∈ added,
          (key.getID, key.vchSecret, key.fCompressed) ∈ s.mapKeys.toList := fun key hkey =>
        TreeMap.mem_toList_iff_getElem?_eq_some.mpr (keys.mem key hkey)
      have hcrypted : ∀ (address : uint160) (entry : CPubKey × List UInt8),
          s'.mapCryptedKeys[address]? = some entry → EncryptedWith vMasterKey address entry := by
        intro address entry hentry
        apply (hspec.encrypted address entry hentry).resolve_left
        rw [TreeMap.getElem?_of_isEmpty none]
        exact nofun
      cases hadded : added with
      | nil =>
        refine .noKeys hspec.fUseCrypto rfl ?_ rfl
        rw [TreeMap.isEmpty_iff_forall_not_mem]
        intro address hmem'
        have hnot : address ∉ s.mapKeys.toList.map Prod.fst := by
          rintro hin
          obtain ⟨entry, hentry, -⟩ := List.mem_map.mp hin
          obtain ⟨key, hkey, -⟩ := hentries entry hentry
          rw [hadded] at hkey
          cases hkey
        have hsome := TreeMap.mem_iff_isSome_getElem?.mp hmem'
        dsimp only at hsome
        rw [hspec.other address hnot, TreeMap.getElem?_of_isEmpty none] at hsome
        cases hsome
      | cons key rest =>
        have hne : s.mapKeys.toList ≠ [] :=
          List.ne_nil_of_mem (hmem key (hadded ▸ List.mem_cons_self))
        refine .crypted hspec.fUseCrypto rfl vMasterKey ⟨⟨hspec.length_eq hne, .inl ?_, hcrypted⟩,
          fun key' hkey' => hspec.mem key' (hmem key' (hadded ▸ hkey'))⟩
        exact hspec.vMasterKey.trans locked

section

variable [LawfulAES]

/-- Only the master key decrypts an entry to a secret with its public key. -/
theorem decryptsTo_iff {vMasterKeyIn : List UInt8} {address : uint160}
    {entry : CPubKey × List UInt8} (hlength : vMasterKey.length = walletCryptoKeySize)
    (h : EncryptedWith vMasterKey address entry) :
    decryptsTo vMasterKeyIn entry = true ↔ vMasterKeyIn = vMasterKey := by
  obtain ⟨key, -, hpub, hencrypt⟩ := h
  rw [encryptSecret, if_neg (not_not.mpr hlength)] at hencrypt
  rw [decryptsTo, decryptSecret, hpub]
  constructor
  · intro hdecrypts
    by_contra hne
    by_cases hlength' : vMasterKeyIn.length = walletCryptoKeySize
    · rw [if_neg (not_not.mpr hlength')] at hdecrypts
      split at hdecrypts
      · cases hdecrypts
      · next secret hdecrypt =>
        have hwrong := LawfulAES.decrypt_wrong _ _ _ _ _ _ hlength hlength' hne key.checked
          hencrypt hdecrypt key.fCompressed
        split at hdecrypts
        · cases hdecrypts
        · next hsize =>
          have hflag : (key.getPubKey.length == 33) = key.fCompressed := by
            rw [PrivateKey.length_getPubKey]
            cases key.fCompressed <;> rfl
          have hpoint : PublicKeys.o2i key.getPubKey = some (EllipticCurve.regenerate _) :=
            LawfulEllipticCurve.o2i_i2o _ key.checked _
          rw [CKey.setPubKey, hpoint, hflag, CKey.setSecret, if_neg hsize] at hdecrypts
          simp only [CKey.getPubKey, CKey.fresh, Bool.false_or, Option.map_some,
            beq_iff_eq, Option.some.injEq] at hdecrypts
          exact hwrong hdecrypts
    · rw [if_pos hlength'] at hdecrypts
      cases hdecrypts
  · rintro rfl
    rw [if_neg (not_not.mpr hlength), LawfulAES.decrypt_encrypt _ _ _ _ hencrypt]
    simp only
    rw [if_neg (not_not.mpr key.length_eq), PrivateKey.setSecret_setPubKey]
    simp

/-- A store that has keys is unlocked by its master key and by no other one. -/
theorem HoldsCrypted.unlock (h : s.HoldsCrypted vMasterKey added) (hmode : s.fUseCrypto = true)
    (hne : s.mapCryptedKeys.isEmpty = false) (vMasterKeyIn : List UInt8) :
    s.unlock vMasterKeyIn = if vMasterKeyIn = vMasterKey then
      (true, { s with vMasterKey := vMasterKeyIn }) else (false, s) := by
  rw [CCryptoKeyStore.unlock, setCrypted_of_crypted hmode]
  dsimp only
  cases hhead : s.mapCryptedKeys.toList.head? with
  | none =>
    rw [List.head?_eq_none_iff] at hhead
    rw [← TreeMap.isEmpty_toList, hhead] at hne
    cases hne
  | some entry =>
    have hentry := TreeMap.mem_toList_iff_getElem?_eq_some.mp (List.mem_of_head? hhead)
    dsimp only
    exact if_congr (decryptsTo_iff h.master.length_eq (h.master.encrypted _ _ hentry)) rfl rfl

theorem Inv.unlock (h : s.Inv added) (vMasterKeyIn : List UInt8) :
    (s.unlock vMasterKeyIn).2.Inv added := by
  have hnone : ∀ s : CCryptoKeyStore, s.mapCryptedKeys.isEmpty = true →
      s.mapCryptedKeys.toList.head? = none := by
    intro s hempty
    rw [List.head?_eq_none_iff, ← List.isEmpty_iff, TreeMap.isEmpty_toList, hempty]
  rcases h.setCrypted with ⟨s', hset, hmode, -, -, -, hinv⟩ | ⟨-, hset⟩
  · have hsame : s.unlock vMasterKeyIn = s'.unlock vMasterKeyIn := by
      rw [CCryptoKeyStore.unlock, CCryptoKeyStore.unlock, hset, setCrypted_of_crypted hmode]
    rw [hsame]
    cases hinv with
    | plain mode => exact absurd (mode.symm.trans hmode) Bool.false_ne_true
    | noKeys mode none none' hadded =>
      rw [CCryptoKeyStore.unlock, setCrypted_of_crypted mode]
      dsimp only
      rw [hnone s' none']
      exact .noKeys mode none none' hadded
    | crypted mode none vMasterKey keys =>
      cases hempty : s'.mapCryptedKeys.isEmpty with
      | true =>
        rw [CCryptoKeyStore.unlock, setCrypted_of_crypted mode]
        dsimp only
        rw [hnone s' hempty]
        refine .noKeys mode none hempty ?_
        rw [List.eq_nil_iff_forall_not_mem]
        intro key hkey
        obtain ⟨vchCryptedSecret, hentry⟩ := keys.mem key hkey
        rw [TreeMap.getElem?_of_isEmpty hempty] at hentry
        cases hentry
      | false =>
        rw [keys.unlock mode hempty]
        split
        · next heq =>
          exact .crypted mode none vMasterKey
            ⟨⟨keys.master.length_eq, .inr heq, keys.master.encrypted⟩, keys.mem⟩
        · exact .crypted mode none vMasterKey keys
  · rw [CCryptoKeyStore.unlock, hset]
    exact h

theorem Reaches.inv (h : Reaches s added) (hids : NoCollision added) : s.Inv added := by
  induction h with
  | empty =>
    refine .plain rfl rfl TreeMap.isEmpty_emptyc ⟨nofun, fun address entry hentry => ?_⟩
    rw [CCryptoKeyStore.empty, TreeMap.getElem?_emptyc] at hentry
    cases hentry
  | @addKey s added key h ih =>
    have hprefix : NoCollision added := by
      split at hids
      · exact hids.of_append
      · exact hids
    exact (ih hprefix).addKey hids
  | encryptKeys vMasterKeyIn h hcompletes ih => exact (ih hids).encryptKeys hcompletes
  | lock h ih => exact (ih hids).lock
  | unlock vMasterKeyIn h ih => exact (ih hids).unlock vMasterKeyIn
  | @addCryptedKey s added key vMasterKey vchCryptedSecret h hmaster hencrypt ih =>
    have hprefix : NoCollision added := by
      split at hids
      · exact hids.of_append
      · exact hids
    exact (ih hprefix).addCryptedKey hmaster hencrypt hids

/-! ## The result -/

/-- What a key store promises. -/
structure Keeps (s : CCryptoKeyStore) (added : List PrivateKey) : Prop where
  /-- There are no plain keys or no encrypted keys. -/
  exclusive : s.mapKeys.isEmpty = true ∨ s.mapCryptedKeys.isEmpty = true
  /-- Every key that was added comes back as it was. -/
  getKey : s.isLocked = false → ∀ key ∈ added,
    s.getKey key.getID CKey.fresh = some key.toCKey
  /-- Nothing is handed out. -/
  locked : s.isLocked = true → ∀ address keyOut, s.getKey address keyOut = none
  /-- A wrong master key changes nothing. -/
  unlock : s.mapCryptedKeys.isEmpty = false → ∀ vMasterKeyIn, ¬ s.IsMasterKey vMasterKeyIn →
    (s.unlock vMasterKeyIn).2.isLocked = s.isLocked

/-- After any sequence of calls in which no `EncryptKeys` fails midway. -/
theorem keyStore_spec (h : Reaches s added) (hids : NoCollision added) : s.Keeps added := by
  have hinv := h.inv hids
  constructor
  · cases hinv with
    | plain mode locked none keys => exact .inr none
    | noKeys mode none none' hadded => exact .inl none
    | crypted mode none vMasterKey keys => exact .inl none
  · intro hlocked key hkey
    rw [isLocked, isCrypted] at hlocked
    rw [CCryptoKeyStore.getKey, isCrypted]
    cases hinv with
    | plain mode locked none keys =>
      rw [if_pos (by simp [mode]), keys.mem key hkey]
      exact key.setSecret_fresh
    | noKeys mode none none' hadded =>
      rw [hadded] at hkey
      cases hkey
    | crypted mode none vMasterKey keys =>
      obtain ⟨vchCryptedSecret, hentry⟩ := keys.mem key hkey
      obtain ⟨key', -, hpub, hencrypt⟩ := keys.master.encrypted _ _ hentry
      obtain rfl := PrivateKey.eq_of_getPubKey_eq hpub
      have hcurrent : s.vMasterKey = vMasterKey := by
        apply keys.master.current.resolve_left
        rintro hnil
        simp [mode, hnil] at hlocked
      rw [encryptSecret, if_neg (not_not.mpr keys.master.length_eq)] at hencrypt
      rw [if_neg (by simp [mode]), hentry]
      dsimp only
      rw [decryptSecret, hcurrent, if_neg (not_not.mpr keys.master.length_eq),
        LawfulAES.decrypt_encrypt _ _ _ _ hencrypt]
      dsimp only
      rw [if_neg (not_not.mpr key.length_eq)]
      exact key.setSecret_setPubKey
  · intro hlocked address keyOut
    rw [isLocked, Bool.and_eq_true, List.isEmpty_iff] at hlocked
    rw [CCryptoKeyStore.getKey, hlocked.1, if_neg (by decide)]
    split
    · rfl
    · rw [decryptSecret, hlocked.2, if_pos (by decide)]
  · intro hne vMasterKeyIn hwrong
    cases hinv with
    | plain mode locked none keys => rw [none] at hne; cases hne
    | noKeys mode none none' hadded => rw [none'] at hne; cases hne
    | crypted mode none vMasterKey keys =>
      rw [keys.unlock mode hne, if_neg]
      rintro rfl
      exact hwrong keys.master

end

end

end CCryptoKeyStore

end

namespace KeySample

/-- A curve on which every secret is its own point. -/
scoped instance curve : EllipticCurve where
  Key := List UInt8
  o2i
    | 2 :: secret => if secret.length = 32 then some secret else none
    | 4 :: secret => if secret.length = 64 then some (secret.take 32) else none
    | _ => none
  i2o fCompressed secret := if fCompressed then 2 :: secret else 4 :: (secret ++ secret)
  regenerate := id
  checkKey secret := secret.length == 32

scoped instance lawfulCurve : LawfulEllipticCurve where
  o2i_i2o secret h fCompressed := by
    have hlength : secret.length = 32 := of_decide_eq_true h
    cases fCompressed <;> simp [PublicKeys.o2i, PublicKeys.i2o, EllipticCurve.regenerate, hlength]
  length_i2o secret h fCompressed := by
    have hlength : secret.length = 32 := of_decide_eq_true h
    cases fCompressed <;> simp [PublicKeys.i2o, EllipticCurve.regenerate, hlength]
  regenerate_inj _ _ _ _ h := h

/-- A cipher that puts the key before the text. -/
scoped instance cipher : AES where
  encrypt chKey _ text := some (chKey ++ text)
  decrypt chKey _ text :=
    if text.take chKey.length = chKey then some (text.drop chKey.length) else none

scoped instance lawfulCipher : LawfulAES where
  decrypt_encrypt chKey _ text cipher h := by
    obtain rfl := Option.some.inj h
    simp [AES.decrypt]
  decrypt_wrong chKey chKey' _ secret _ text hlength hlength' hne _ hencrypt hdecrypt := by
    obtain rfl := Option.some.inj hencrypt
    have htake : (chKey ++ secret).take chKey'.length = chKey :=
      List.take_left' (hlength.trans hlength'.symm)
    simp [AES.decrypt, htake, hne.symm] at hdecrypt

scoped instance hashing : ByteHashing := ⟨fun bytes => bytes.length⟩

scoped instance hashing160 : ByteHashing160 := ⟨fun bytes => bytes.length⟩

def key : PrivateKey := ⟨List.replicate 32 7, true, rfl, rfl⟩

def masterKey : List UInt8 := List.replicate 32 1

open CCryptoKeyStore in
/-- A key is added, the store is encrypted and unlocked. -/
theorem keyStore_spec_sample :
    Keeps (((empty.addKey key).2.encryptKeys masterKey).2.unlock masterKey).2 [key] := by
  have hadd : Reaches (empty.addKey key).2 [key] := Reaches.addKey key .empty
  have hcompletes : (empty.addKey key).2.EncryptKeysCompletes masterKey := .inl rfl
  refine keyStore_spec (.unlock masterKey (.encryptKeys masterKey hadd hcompletes)) ?_
  intro key1 hkey1 key2 hkey2 _
  rw [List.mem_singleton.mp hkey1, List.mem_singleton.mp hkey2]

end KeySample

end Terracoin
