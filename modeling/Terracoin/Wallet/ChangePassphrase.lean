import Terracoin.Serialize.Text
import Terracoin.Wallet.CryptoKeyStore

/-!
# Another passphrase

`Unlock` and `ChangeWalletPassphrase` of `wallet.cpp`. The master key of the key store is in
`mapMasterKeys`, encrypted with a key that is derived from the passphrase.

`ChangeWalletPassphrase` locks the wallet before it tries the old passphrase, and only the return
that succeeds brings the lock back to what it was: with a wrong passphrase an unlocked wallet stays
locked (`changeWalletPassphrase_iff`).
-/

namespace Terracoin

/-- `EVP_BytesToKey` with `EVP_sha512`: the key and the initialization vector of a passphrase, a salt
and a number of rounds. -/
class KeyDerivation where
  bytesToKey : Text → List UInt8 → UInt32 → Option (List UInt8 × uint256)

@[ext] structure CMasterKey where
  vchCryptedKey : List UInt8
  vchSalt : List UInt8
  /-- 0 is `EVP_sha512()`. -/
  nDerivationMethod : UInt32
  nDeriveIterations : UInt32
deriving DecidableEq, Repr

def walletCryptoSaltSize : Nat := 8

/-- The parts of a `CWallet` that a passphrase is about. -/
structure CryptedWallet where
  store : CCryptoKeyStore
  /-- The entries of the map, in its order. -/
  mapMasterKeys : List (UInt32 × CMasterKey)

namespace CMasterKey

theorem with_vchCryptedKey_iff {kMasterKey kMasterKey' : CMasterKey} {vchCryptedKey : List UInt8}
    (h : kMasterKey.vchCryptedKey = kMasterKey'.vchCryptedKey) :
    { kMasterKey with vchCryptedKey := vchCryptedKey } = kMasterKey' ↔
      kMasterKey = kMasterKey' ∧ kMasterKey'.vchCryptedKey = vchCryptedKey := by
  constructor
  · rintro rfl
    exact ⟨CMasterKey.ext h rfl rfl rfl, rfl⟩
  · rintro ⟨rfl, rfl⟩
    rfl

variable [AES] [KeyDerivation]

/-- `SetKeyFromPassphrase`, of the salt, the rounds and the method of a master key. -/
def setKeyFromPassphrase (strKeyData : Text) (kMasterKey : CMasterKey) :
    Option (List UInt8 × uint256) :=
  if kMasterKey.nDeriveIterations < 1 ∨ kMasterKey.vchSalt.length ≠ walletCryptoSaltSize then none
  else if kMasterKey.nDerivationMethod ≠ 0 then none
  else
    match KeyDerivation.bytesToKey strKeyData kMasterKey.vchSalt kMasterKey.nDeriveIterations with
    | none => none
    | some (chKey, chIV) =>
      if chKey.length ≠ walletCryptoKeySize then none else some (chKey, chIV)

/-- The key and the ciphertext give back the master key of the store. -/
def decryptWith (strKeyData : Text) (kMasterKey : CMasterKey) : Option (List UInt8) :=
  match kMasterKey.setKeyFromPassphrase strKeyData with
  | none => none
  | some (chKey, chIV) => AES.decrypt chKey chIV kMasterKey.vchCryptedKey

/-- The rounds that two runs of the derivation were timed to, 25000 at least. -/
def retime (kMasterKey : CMasterKey) (nTimed : UInt32) : CMasterKey :=
  { kMasterKey with nDeriveIterations := if nTimed < 25000 then 25000 else nTimed }

/-- The rest of the changes to a master key: the key for the new passphrase is derived, and
`vMasterKey` is encrypted with it. `Encrypt` overwrites the ciphertext before it can fail. -/
def reencrypt (kMasterKey : CMasterKey) (strNew : Text) (vMasterKey : List UInt8) :
    Bool × CMasterKey :=
  match kMasterKey.setKeyFromPassphrase strNew with
  | none => (false, kMasterKey)
  | some (chKey, chIV) =>
    match AES.encrypt chKey chIV vMasterKey with
    | none =>
      (false, { kMasterKey with vchCryptedKey := List.replicate (vMasterKey.length + 16) 0 })
    | some vchCryptedKey => (true, { kMasterKey with vchCryptedKey := vchCryptedKey })

end CMasterKey

/-! ## The entry that opens the store -/

/-- The entry of a master key, between the entries before and after it, and the master key of the
store that is in it. -/
structure OpenedKey where
  earlier : List (UInt32 × CMasterKey)
  nID : UInt32
  kMasterKey : CMasterKey
  vMasterKey : List UInt8
  later : List (UInt32 × CMasterKey)

theorem OpenedKey.replaced_iff {o : OpenedKey} {entries : List (UInt32 × CMasterKey)}
    {kMasterKey : CMasterKey}
    (h : entries = o.earlier ++ (o.nID, o.kMasterKey) :: o.later) :
    o.earlier ++ (o.nID, kMasterKey) :: o.later = entries ↔ kMasterKey = o.kMasterKey := by
  rw [h, List.append_right_inj, List.cons.injEq, Prod.mk.injEq]
  exact ⟨fun heq => heq.1.2, fun heq => ⟨⟨rfl, heq⟩, rfl⟩⟩

section

variable [AES] [KeyDerivation]

/-- The first entry whose master key is accepted. An entry before it that cannot be decrypted ends
the search. -/
def openedKey (accepts : List UInt8 → Bool) (strWalletPassphrase : Text) :
    List (UInt32 × CMasterKey) → Option OpenedKey
  | [] => none
  | (nID, kMasterKey) :: rest =>
    match kMasterKey.decryptWith strWalletPassphrase with
    | none => none
    | some vMasterKey =>
      if accepts vMasterKey then some ⟨[], nID, kMasterKey, vMasterKey, rest⟩
      else
        match openedKey accepts strWalletPassphrase rest with
        | none => none
        | some o => some { o with earlier := (nID, kMasterKey) :: o.earlier }

/-- The search does not end without a master key at one of the entries. -/
def passesOver (accepts : List UInt8 → Bool) (strWalletPassphrase : Text) :
    List (UInt32 × CMasterKey) → Bool
  | [] => true
  | (_, kMasterKey) :: rest =>
    match kMasterKey.decryptWith strWalletPassphrase with
    | none => false
    | some vMasterKey => accepts vMasterKey || passesOver accepts strWalletPassphrase rest

variable {accepts : List UInt8 → Bool} {strOld strNew : Text} {nTimed : UInt32}
  {entries : List (UInt32 × CMasterKey)} {o : OpenedKey}

theorem openedKey_spec (h : openedKey accepts strOld entries = some o) :
    entries = o.earlier ++ (o.nID, o.kMasterKey) :: o.later ∧ accepts o.vMasterKey = true := by
  induction entries generalizing o with
  | nil => cases h
  | cons entry rest ih =>
    obtain ⟨nID, kMasterKey⟩ := entry
    rw [openedKey] at h
    split at h
    · cases h
    · split at h
      · next haccepts =>
        obtain rfl := Option.some.inj h
        exact ⟨rfl, haccepts⟩
      · split at h
        · cases h
        · next o' hrest =>
          obtain rfl := Option.some.inj h
          obtain ⟨heq, haccepts⟩ := ih hrest
          exact ⟨congrArg _ heq, haccepts⟩

/-- With an entry that opens the store, the search fails only before it. -/
theorem isSome_openedKey_append {earlier later : List (UInt32 × CMasterKey)} {nID : UInt32}
    {kMasterKey : CMasterKey} {vMasterKey : List UInt8}
    (hdecrypt : kMasterKey.decryptWith strNew = some vMasterKey)
    (haccepts : accepts vMasterKey = true) :
    (openedKey accepts strNew (earlier ++ (nID, kMasterKey) :: later)).isSome
      = passesOver accepts strNew earlier := by
  induction earlier with
  | nil =>
    rw [List.nil_append, openedKey, hdecrypt]
    dsimp only
    rw [if_pos haccepts]
    rfl
  | cons entry rest ih =>
    obtain ⟨nID', kMasterKey'⟩ := entry
    rw [List.cons_append, openedKey, passesOver, ← ih]
    cases kMasterKey'.decryptWith strNew with
    | none => rfl
    | some vMasterKey' =>
      cases hfirst : accepts vMasterKey' with
      | true => simp [hfirst]
      | false =>
        cases openedKey accepts strNew (rest ++ (nID, kMasterKey) :: later) with
        | none => simp [hfirst]
        | some o => simp [hfirst]

end

namespace CCryptoKeyStore

variable {s : CCryptoKeyStore}

theorem lock_of_crypted (h : s.fUseCrypto = true) : s.lock = (true, { s with vMasterKey := [] }) := by
  rw [lock, setCrypted_of_crypted h]

theorem isLocked_of_crypted (h : s.fUseCrypto = true) : s.isLocked = s.vMasterKey.isEmpty := by
  rw [isLocked, isCrypted, h, Bool.true_and]

variable [EllipticCurve] [ByteHashing] [AES]

/-- The master key decrypts the first of the keys, if there is one. -/
def accepts (s : CCryptoKeyStore) (vMasterKey : List UInt8) : Bool :=
  match s.mapCryptedKeys.toList.head? with
  | none => true
  | some (_, entry) => decryptsTo vMasterKey entry

theorem unlock_of_crypted (h : s.fUseCrypto = true) (vMasterKey : List UInt8) :
    s.unlock vMasterKey =
      if s.accepts vMasterKey then (true, { s with vMasterKey := vMasterKey }) else (false, s) := by
  rw [unlock, setCrypted_of_crypted h, accepts]
  dsimp only
  cases s.mapCryptedKeys.toList.head? with
  | none => rfl
  | some entry => rfl

end CCryptoKeyStore

/-! ## The wallet -/

section

variable [EllipticCurve] [ByteHashing] [AES] [KeyDerivation]

namespace CryptedWallet

def unlockLoop (strWalletPassphrase : Text) :
    CCryptoKeyStore → List (UInt32 × CMasterKey) → Bool × CCryptoKeyStore
  | s, [] => (false, s)
  | s, (_, kMasterKey) :: rest =>
    match kMasterKey.decryptWith strWalletPassphrase with
    | none => (false, s)
    | some vMasterKey =>
      match s.unlock vMasterKey with
      | (true, s) => (true, s)
      | (false, s) => unlockLoop strWalletPassphrase s rest

def unlock (w : CryptedWallet) (strWalletPassphrase : Text) : Bool × CryptedWallet :=
  if !w.store.isLocked then (false, w)
  else
    let r := unlockLoop strWalletPassphrase w.store w.mapMasterKeys
    (r.1, { w with store := r.2 })

def lock (w : CryptedWallet) : CryptedWallet := { w with store := w.store.lock.2 }

/-- The loop of `ChangeWalletPassphrase`, with what becomes of the entries. `nTimed` are the rounds
that the two timed runs lead to. -/
def changeLoop (fWasLocked : Bool) (strOld strNew : Text) (nTimed : UInt32) :
    CCryptoKeyStore → List (UInt32 × CMasterKey) →
      Bool × CCryptoKeyStore × List (UInt32 × CMasterKey)
  | s, [] => (false, s, [])
  | s, (nID, kMasterKey) :: rest =>
    match kMasterKey.decryptWith strOld with
    | none => (false, s, (nID, kMasterKey) :: rest)
    | some vMasterKey =>
      match s.unlock vMasterKey with
      | (true, s) =>
        match (kMasterKey.retime nTimed).reencrypt strNew vMasterKey with
        | (false, kMasterKey) => (false, s, (nID, kMasterKey) :: rest)
        | (true, kMasterKey) =>
          (true, if fWasLocked then s.lock.2 else s, (nID, kMasterKey) :: rest)
      | (false, s) =>
        let r := changeLoop fWasLocked strOld strNew nTimed s rest
        (r.1, r.2.1, (nID, kMasterKey) :: r.2.2)

def changeWalletPassphrase (w : CryptedWallet) (strOld strNew : Text) (nTimed : UInt32) :
    Bool × CryptedWallet :=
  let fWasLocked := w.store.isLocked
  let r := changeLoop fWasLocked strOld strNew nTimed w.store.lock.2 w.mapMasterKeys
  (r.1, ⟨r.2.1, r.2.2⟩)

/-! ## The two loops -/

variable {strOld strNew : Text} {nTimed : UInt32} {entries : List (UInt32 × CMasterKey)}
  {s : CCryptoKeyStore}

theorem unlockLoop_eq (h : s.fUseCrypto = true) (strWalletPassphrase : Text) :
    unlockLoop strWalletPassphrase s entries =
      match openedKey s.accepts strWalletPassphrase entries with
      | none => (false, s)
      | some o => (true, { s with vMasterKey := o.vMasterKey }) := by
  induction entries with
  | nil => rfl
  | cons entry rest ih =>
    obtain ⟨nID, kMasterKey⟩ := entry
    rw [unlockLoop, openedKey]
    cases kMasterKey.decryptWith strWalletPassphrase with
    | none => rfl
    | some vMasterKey =>
      dsimp only
      rw [CCryptoKeyStore.unlock_of_crypted h]
      cases s.accepts vMasterKey with
      | true => rfl
      | false =>
        change unlockLoop strWalletPassphrase s rest = _
        rw [ih, if_neg Bool.false_ne_true]
        cases openedKey s.accepts strWalletPassphrase rest with
        | none => rfl
        | some o => rfl

theorem changeLoop_eq (h : s.fUseCrypto = true) (fWasLocked : Bool) :
    changeLoop fWasLocked strOld strNew nTimed s entries =
      match openedKey s.accepts strOld entries with
      | none => (false, s, entries)
      | some o =>
        let r := (o.kMasterKey.retime nTimed).reencrypt strNew o.vMasterKey
        (r.1, { s with vMasterKey := if r.1 && fWasLocked then [] else o.vMasterKey },
          o.earlier ++ (o.nID, r.2) :: o.later) := by
  induction entries with
  | nil => rfl
  | cons entry rest ih =>
    obtain ⟨nID, kMasterKey⟩ := entry
    rw [changeLoop, openedKey]
    cases kMasterKey.decryptWith strOld with
    | none => rfl
    | some vMasterKey =>
      dsimp only
      rw [CCryptoKeyStore.unlock_of_crypted h]
      cases s.accepts vMasterKey with
      | true =>
        rw [if_pos rfl, if_pos rfl]
        dsimp only
        rcases (kMasterKey.retime nTimed).reencrypt strNew vMasterKey with ⟨fOk, kMasterKey'⟩
        cases fOk with
        | false => rfl
        | true =>
          cases fWasLocked with
          | false => rfl
          | true =>
            dsimp only
            rw [if_pos rfl, CCryptoKeyStore.lock_of_crypted (by exact h)]
            rfl
      | false =>
        rw [if_neg Bool.false_ne_true, if_neg Bool.false_ne_true]
        dsimp only
        rw [ih]
        cases openedKey s.accepts strOld rest with
        | none => rfl
        | some o => rfl

variable {w : CryptedWallet}

/-- The call, of an encrypted wallet. -/
theorem changeWalletPassphrase_eq (strOld strNew : Text) (nTimed : UInt32)
    (h : w.store.fUseCrypto = true) :
    w.changeWalletPassphrase strOld strNew nTimed =
      match openedKey w.store.accepts strOld w.mapMasterKeys with
      | none => (false, ⟨{ w.store with vMasterKey := [] }, w.mapMasterKeys⟩)
      | some o =>
        let r := (o.kMasterKey.retime nTimed).reencrypt strNew o.vMasterKey
        (r.1, ⟨{ w.store with
          vMasterKey := if r.1 && w.store.isLocked then [] else o.vMasterKey },
          o.earlier ++ (o.nID, r.2) :: o.later⟩) := by
  have hloop : changeLoop w.store.isLocked strOld strNew nTimed
      { w.store with vMasterKey := [] } w.mapMasterKeys = _ :=
    changeLoop_eq (by exact h) _
  have haccepts :
      ({ w.store with vMasterKey := [] } : CCryptoKeyStore).accepts = w.store.accepts := rfl
  rw [haccepts] at hloop
  rw [changeWalletPassphrase, CCryptoKeyStore.lock_of_crypted h]
  dsimp only
  rw [hloop]
  cases openedKey w.store.accepts strOld w.mapMasterKeys with
  | none => rfl
  | some o => rfl

theorem unlock_lock (h : w.store.fUseCrypto = true) :
    (w.lock.unlock strNew).1 = (openedKey w.store.accepts strNew w.mapMasterKeys).isSome := by
  have hloop : unlockLoop strNew { w.store with vMasterKey := [] } w.mapMasterKeys = _ :=
    unlockLoop_eq (by exact h) strNew
  have haccepts :
      ({ w.store with vMasterKey := [] } : CCryptoKeyStore).accepts = w.store.accepts := rfl
  have hlocked : ({ w.store with vMasterKey := [] } : CCryptoKeyStore).isLocked = true :=
    CCryptoKeyStore.isLocked_of_crypted h
  rw [haccepts] at hloop
  rw [unlock, lock, CCryptoKeyStore.lock_of_crypted h]
  dsimp only
  rw [hlocked, hloop]
  cases openedKey w.store.accepts strNew w.mapMasterKeys with
  | none => rfl
  | some o => rfl

/-! ## The result -/

/-- What changing the passphrase should do: nothing if it fails, and if it succeeds the lock is as it
was and the new passphrase unlocks the wallet. -/
structure ChangesPassphrase (w : CryptedWallet) (strOld strNew : Text) (nTimed : UInt32) :
    Prop where
  failed : (w.changeWalletPassphrase strOld strNew nTimed).1 = false →
    (w.changeWalletPassphrase strOld strNew nTimed).2.store.isLocked = w.store.isLocked ∧
    (w.changeWalletPassphrase strOld strNew nTimed).2.store.vMasterKey = w.store.vMasterKey ∧
    (w.changeWalletPassphrase strOld strNew nTimed).2.mapMasterKeys = w.mapMasterKeys
  done : (w.changeWalletPassphrase strOld strNew nTimed).1 = true →
    (w.changeWalletPassphrase strOld strNew nTimed).2.store.isLocked = w.store.isLocked ∧
    ((w.changeWalletPassphrase strOld strNew nTimed).2.lock.unlock strNew).1 = true

/-- When it does. A wallet that the old passphrase does not open has to be locked. If the key for the
new one cannot be derived or nothing can be encrypted with it, the wallet has to be unlocked with the
master key that was found, and the entry has to be as the call leaves it. -/
def Restores (w : CryptedWallet) (strOld strNew : Text) (nTimed : UInt32) : Prop :=
  match openedKey w.store.accepts strOld w.mapMasterKeys with
  | none => w.store.vMasterKey = []
  | some o =>
    match (o.kMasterKey.retime nTimed).setKeyFromPassphrase strNew with
    | none => o.vMasterKey = w.store.vMasterKey ∧ o.kMasterKey.retime nTimed = o.kMasterKey
    | some (chKey, chIV) =>
      match AES.encrypt chKey chIV o.vMasterKey with
      | none => o.vMasterKey = w.store.vMasterKey ∧ o.kMasterKey.retime nTimed = o.kMasterKey ∧
          o.kMasterKey.vchCryptedKey = List.replicate (o.vMasterKey.length + 16) 0
      | some _ => (w.store.vMasterKey = [] ∨ o.vMasterKey ≠ []) ∧
          passesOver w.store.accepts strNew o.earlier = true

/-- A call that returns false, with the store that it leaves. -/
theorem changesPassphrase_failed {vMasterKey : List UInt8}
    {entries : List (UInt32 × CMasterKey)}
    (hcall : w.changeWalletPassphrase strOld strNew nTimed
      = (false, ⟨{ w.store with vMasterKey := vMasterKey }, entries⟩)) :
    w.ChangesPassphrase strOld strNew nTimed ↔
      vMasterKey = w.store.vMasterKey ∧ entries = w.mapMasterKeys := by
  constructor
  · intro hspec
    have hfailed := hspec.failed (by rw [hcall])
    rw [hcall] at hfailed
    exact hfailed.2
  · rintro ⟨rfl, rfl⟩
    constructor
    · intro _
      rw [hcall]
      exact ⟨rfl, rfl, rfl⟩
    · intro hdone
      rw [hcall] at hdone
      exact absurd hdone Bool.false_ne_true

/-- A call that returns true. -/
theorem changesPassphrase_done (h : w.store.fUseCrypto = true) {vMasterKey : List UInt8}
    {entries : List (UInt32 × CMasterKey)}
    (hcall : w.changeWalletPassphrase strOld strNew nTimed = (true,
      ⟨{ w.store with vMasterKey := if w.store.isLocked then [] else vMasterKey }, entries⟩)) :
    w.ChangesPassphrase strOld strNew nTimed ↔ (w.store.vMasterKey = [] ∨ vMasterKey ≠ []) ∧
      (openedKey w.store.accepts strNew entries).isSome = true := by
  have hlock : ({ w.store with vMasterKey := if w.store.isLocked then [] else vMasterKey } :
      CCryptoKeyStore).isLocked = w.store.isLocked ↔ w.store.vMasterKey = [] ∨ vMasterKey ≠ [] := by
    rw [CCryptoKeyStore.isLocked_of_crypted (by exact h), CCryptoKeyStore.isLocked_of_crypted h]
    cases hnil : w.store.vMasterKey with
    | nil => exact iff_of_true rfl (Or.inl rfl)
    | cons b rest =>
      cases vMasterKey with
      | nil => simp
      | cons b rest => simp
  have hunlock : ((⟨{ w.store with vMasterKey := if w.store.isLocked then [] else vMasterKey },
      entries⟩ : CryptedWallet).lock.unlock strNew).1
        = (openedKey w.store.accepts strNew entries).isSome := unlock_lock h
  constructor
  · intro hspec
    have hdone := hspec.done (by rw [hcall])
    rw [hcall] at hdone
    exact ⟨hlock.mp hdone.1, hunlock ▸ hdone.2⟩
  · rintro ⟨hfree, hopens⟩
    constructor
    · intro hfailed
      rw [hcall] at hfailed
      exact absurd hfailed.symm Bool.false_ne_true
    · intro _
      rw [hcall]
      exact ⟨hlock.mpr hfree, hunlock.trans hopens⟩

section

variable [LawfulAES]

omit [ByteHashing] in
theorem decryptWith_encrypt {kMasterKey : CMasterKey} {chKey vMasterKey vchCryptedKey : List UInt8}
    {chIV : uint256} (hkey : kMasterKey.setKeyFromPassphrase strNew = some (chKey, chIV))
    (hencrypt : AES.encrypt chKey chIV vMasterKey = some vchCryptedKey) :
    { kMasterKey with vchCryptedKey := vchCryptedKey }.decryptWith strNew = some vMasterKey := by
  have hsame : { kMasterKey with vchCryptedKey := vchCryptedKey }.setKeyFromPassphrase strNew
      = some (chKey, chIV) := hkey
  rw [CMasterKey.decryptWith, hsame]
  exact LawfulAES.decrypt_encrypt _ _ _ _ hencrypt

/-- For an encrypted wallet and any passphrases. -/
theorem changeWalletPassphrase_iff (h : w.store.fUseCrypto = true) (strOld strNew : Text)
    (nTimed : UInt32) :
    w.ChangesPassphrase strOld strNew nTimed ↔ w.Restores strOld strNew nTimed := by
  have hcall := changeWalletPassphrase_eq strOld strNew nTimed h
  rw [Restores]
  cases hopened : openedKey w.store.accepts strOld w.mapMasterKeys with
  | none =>
    rw [hopened] at hcall
    rw [changesPassphrase_failed hcall]
    exact ⟨fun hsame => hsame.1.symm, fun hnil => ⟨hnil.symm, rfl⟩⟩
  | some o =>
    obtain ⟨hentries, haccepts⟩ := openedKey_spec hopened
    rw [hopened] at hcall
    dsimp only at hcall ⊢
    rw [CMasterKey.reencrypt] at hcall
    cases hkey : (o.kMasterKey.retime nTimed).setKeyFromPassphrase strNew with
    | none =>
      -- the key for the new passphrase cannot be derived
      rw [hkey] at hcall
      rw [changesPassphrase_failed hcall, OpenedKey.replaced_iff hentries]
      exact Iff.rfl
    | some key =>
      obtain ⟨chKey, chIV⟩ := key
      rw [hkey] at hcall
      dsimp only at hcall ⊢
      cases hencrypt : AES.encrypt chKey chIV o.vMasterKey with
      | none =>
        simp only [hencrypt] at hcall
        rw [changesPassphrase_failed hcall, OpenedKey.replaced_iff hentries]
        exact and_congr_right fun _ => CMasterKey.with_vchCryptedKey_iff
          (by rfl : (o.kMasterKey.retime nTimed).vchCryptedKey = o.kMasterKey.vchCryptedKey)
      | some vchCryptedKey =>
        simp only [hencrypt, Bool.true_and] at hcall
        rw [changesPassphrase_done h hcall,
          isSome_openedKey_append (decryptWith_encrypt hkey hencrypt) haccepts]

end

end CryptedWallet

end

namespace PassphraseSample

open CCryptoKeyStore KeySample

/-- The key is the passphrase, filled up with zeros. -/
def paddedKey (strKeyData : Text) : List UInt8 := (strKeyData ++ List.replicate 32 0).take 32

scoped instance derivation : KeyDerivation where
  bytesToKey strKeyData _ _ := some (paddedKey strKeyData, 0)

def strOld : Text := [111, 108, 100]

def strNew : Text := [110, 101, 119]

def kMasterKey : CMasterKey := ⟨paddedKey strOld ++ masterKey, List.replicate 8 0, 0, 25000⟩

def wallet : CryptedWallet where
  store := (((empty.addKey key).2.encryptKeys masterKey).2.unlock masterKey).2
  mapMasterKeys := [(1, kMasterKey)]

theorem changeWalletPassphrase_iff_sample : wallet.ChangesPassphrase strOld strNew 50000 :=
  (CryptedWallet.changeWalletPassphrase_iff rfl strOld strNew 50000).mpr ⟨.inr (by decide), rfl⟩

/-- With a wrong passphrase, the wallet is locked. -/
theorem changeWalletPassphrase_locks : wallet.store.isLocked = false ∧
    (wallet.changeWalletPassphrase strNew strOld 50000).1 = false ∧
    (wallet.changeWalletPassphrase strNew strOld 50000).2.store.isLocked = true ∧
    ¬ wallet.ChangesPassphrase strNew strOld 50000 := by
  have hlocked : (wallet.changeWalletPassphrase strNew strOld 50000).2.store.isLocked = true := rfl
  refine ⟨rfl, rfl, hlocked, fun h => ?_⟩
  have hsame := (h.failed rfl).1
  rw [hlocked] at hsame
  cases hsame

end PassphraseSample

end Terracoin
