import Terracoin.Net.Message
import Terracoin.Serialize.TxOut

/-!
# Keys

`CPubKey` and `CKey` of `key.h`. The curve is OpenSSL's (`EllipticCurve`), with what is documented
about it (`LawfulEllipticCurve`). A `CKey` is an object with a state: `SetSecret` and `SetPubKey`
never clear `fCompressedPubKey`. The keys that are put into key stores are complete
(`PrivateKey`).
-/

namespace Terracoin

/-- `CKeyID` and `CScriptID`. -/
abbrev uint160 := BitVec 160

/-- `Hash160`. -/
class ByteHashing160 where
  hash160 : List UInt8 → uint160

/-- The parts of OpenSSL that make keys. -/
class EllipticCurve extends PublicKeys where
  /-- `EC_KEY_regenerate_key`: the public key that belongs to a secret. -/
  regenerate : List UInt8 → Key
  /-- `EC_KEY_check_key`: the secret is a number between 1 and the order of the group. -/
  checkKey : List UInt8 → Bool

open PublicKeys (Key o2i i2o)
open EllipticCurve (regenerate checkKey)

/-- Points are encoded in 33 bytes, or in 65 bytes uncompressed, and both encodings are parsed; a
public key belongs to one secret. -/
class LawfulEllipticCurve [EllipticCurve] : Prop where
  o2i_i2o : ∀ secret, checkKey secret = true → ∀ fCompressed,
    o2i (i2o fCompressed (regenerate secret)) = some (regenerate secret)
  length_i2o : ∀ secret, checkKey secret = true → ∀ fCompressed,
    (i2o fCompressed (regenerate secret)).length = if fCompressed then 33 else 65
  regenerate_inj : ∀ secret secret', checkKey secret = true → checkKey secret' = true →
    regenerate secret = regenerate secret' → secret = secret'

abbrev CPubKey := List UInt8

namespace CPubKey

def getID [ByteHashing160] (vchPubKey : CPubKey) : uint160 := ByteHashing160.hash160 vchPubKey

def getHash [ByteHashing] (vchPubKey : CPubKey) : uint256 := ByteHashing.hash vchPubKey

end CPubKey

section

variable [EllipticCurve]

/-- `CKey`: the point and the secret of `pkey` as far as they are set. The form in which the point
is encoded is compressed exactly if `fCompressedPubKey` is set. -/
structure CKey where
  point : Option Key
  vchSecret : Option (List UInt8)
  fCompressedPubKey : Bool

namespace CKey

/-- `Reset`, and the default constructor. -/
def fresh : CKey := ⟨none, none, false⟩

/-- `SetSecret`; it throws if there are not 32 bytes. -/
def setSecret (key : CKey) (vchSecret : List UInt8) (fCompressed : Bool) : Option CKey :=
  if vchSecret.length ≠ 32 then none
  else some ⟨some (regenerate vchSecret), some vchSecret, fCompressed || key.fCompressedPubKey⟩

def setPubKey (key : CKey) (vchPubKey : CPubKey) : CKey :=
  match o2i vchPubKey with
  | none => fresh
  | some point =>
    ⟨some point, key.vchSecret, key.fCompressedPubKey || vchPubKey.length == 33⟩

/-- `GetPubKey`; it throws if there is none. -/
def getPubKey (key : CKey) : Option CPubKey := key.point.map (i2o key.fCompressedPubKey)

/-- `GetSecret`; it throws if there is none. -/
def getSecret (key : CKey) : Option (List UInt8 × Bool) :=
  key.vchSecret.map fun vchSecret => (vchSecret, key.fCompressedPubKey)

end CKey

/-- A complete key, as `MakeNewKey`, `SetSecret` or `SetPubKey` and `SetPrivKey` make it from a new
object: `IsValid` accepts it. -/
structure PrivateKey where
  vchSecret : List UInt8
  fCompressed : Bool
  length_eq : vchSecret.length = 32
  checked : checkKey vchSecret = true

namespace PrivateKey

def toCKey (key : PrivateKey) : CKey :=
  ⟨some (regenerate key.vchSecret), some key.vchSecret, key.fCompressed⟩

def getPubKey (key : PrivateKey) : CPubKey := i2o key.fCompressed (regenerate key.vchSecret)

def getID [ByteHashing160] (key : PrivateKey) : uint160 := key.getPubKey.getID

@[ext] theorem ext {key key' : PrivateKey} (hsecret : key.vchSecret = key'.vchSecret)
    (hcompressed : key.fCompressed = key'.fCompressed) : key = key' := by
  cases key
  cases key'
  obtain rfl : _ = _ := hsecret
  obtain rfl : _ = _ := hcompressed
  rfl

@[simp] theorem getPubKey_toCKey (key : PrivateKey) :
    key.toCKey.getPubKey = some key.getPubKey := rfl

@[simp] theorem getSecret_toCKey (key : PrivateKey) :
    key.toCKey.getSecret = some (key.vchSecret, key.fCompressed) := rfl

theorem setSecret_fresh (key : PrivateKey) :
    CKey.fresh.setSecret key.vchSecret key.fCompressed = some key.toCKey := by
  rw [CKey.setSecret, if_neg (not_not.mpr key.length_eq)]
  simp [CKey.fresh, toCKey]

variable [LawfulEllipticCurve]

theorem length_getPubKey (key : PrivateKey) :
    key.getPubKey.length = if key.fCompressed then 33 else 65 :=
  LawfulEllipticCurve.length_i2o _ key.checked _

theorem setSecret_setPubKey (key : PrivateKey) :
    (CKey.fresh.setPubKey key.getPubKey).setSecret key.vchSecret false = some key.toCKey := by
  have hflag : (key.getPubKey.length == 33) = key.fCompressed := by
    rw [length_getPubKey]
    cases key.fCompressed <;> rfl
  have hpoint : o2i key.getPubKey = some (regenerate key.vchSecret) :=
    LawfulEllipticCurve.o2i_i2o _ key.checked _
  rw [CKey.setPubKey, hpoint, hflag, CKey.setSecret, if_neg (not_not.mpr key.length_eq)]
  simp [CKey.fresh, toCKey]

theorem eq_of_getPubKey_eq {key key' : PrivateKey} (h : key.getPubKey = key'.getPubKey) :
    key = key' := by
  have hflag : key.fCompressed = key'.fCompressed := by
    have hlength := congrArg List.length h
    rw [length_getPubKey, length_getPubKey] at hlength
    revert hlength
    cases key.fCompressed <;> cases key'.fCompressed <;> simp
  have hpoint := congrArg o2i h
  rw [getPubKey, getPubKey, LawfulEllipticCurve.o2i_i2o _ key.checked,
    LawfulEllipticCurve.o2i_i2o _ key'.checked] at hpoint
  apply PrivateKey.ext _ hflag
  exact LawfulEllipticCurve.regenerate_inj _ _ key.checked key'.checked (Option.some.inj hpoint)

end PrivateKey

end

end Terracoin
