import Terracoin.Lib.Run
import Terracoin.Wallet.Key
import Mathlib.Logic.Function.Basic

/-!
# Key objects

A `CKey` keeps the choice of compression twice, as `fCompressedPubKey` and as the form in which the
`EC_KEY` writes its point. `SetCompressedPubKey(false)` sets the flag, the copy constructor leaves it
uninitialised, and an assignment copies the form but not the flag. As long as no operation lets them
part, a key tells the form of its public key, and a key store gives back the key that was put into it
(`keyObjects_spec`); then a `CKey` is what it is in `Key.lean`, where there is only the flag
(`getPubKey_toCKey`).
-/

namespace Terracoin

open PublicKeys (Key o2i i2o)
open EllipticCurve (regenerate checkKey)
open Run (run Meets run_invariant_of_meets)

/-! ## `EC_KEY` -/

/-- `POINT_CONVERSION_COMPRESSED`. -/
def formCompressed : UInt8 := 2

/-- `POINT_CONVERSION_UNCOMPRESSED`. -/
def formUncompressed : UInt8 := 4

/-- `POINT_CONVERSION_HYBRID`. -/
def formHybrid : UInt8 := 6

/-- The point at infinity, and the third form of a point. -/
class PointEncoding extends EllipticCurve where
  infinity : Key
  hybrid : Key → List UInt8

open PointEncoding (infinity hybrid)

/-- The point at infinity is written in one byte, whatever the form is. It is not the public key of a
secret that is a number between 1 and the order of the group. -/
class LawfulPointEncoding [PointEncoding] : Prop where
  length_i2o : ∀ point, point ≠ infinity → ∀ fCompressed,
    (i2o fCompressed point).length = if fCompressed then 33 else 65
  length_i2o_infinity : ∀ fCompressed, (i2o fCompressed infinity).length = 1
  regenerate_ne : ∀ secret, checkKey secret = true → regenerate secret ≠ infinity
  o2i_ne : ∀ vch point, vch.length = 33 → o2i vch = some point → point ≠ infinity

section

variable [PointEncoding]

/-- `EC_KEY`. -/
structure ECKey where
  pub_key : Option Key
  priv_key : Option (List UInt8)
  conv_form : UInt8

namespace ECKey

/-- `EC_KEY_new_by_curve_name`. -/
def new : ECKey := ⟨none, none, formUncompressed⟩

/-- `EC_KEY_copy`: what the source does not have stays. -/
def copy (dest src : ECKey) : ECKey where
  pub_key := src.pub_key.or dest.pub_key
  priv_key := src.priv_key.or dest.priv_key
  conv_form := src.conv_form

def o2iPublicKey (pkey : ECKey) (vch : List UInt8) : Option ECKey :=
  (o2i vch).map fun point =>
    { pkey with pub_key := some point, conv_form := vch.headD 0 &&& 0xFE }

def i2oPublicKey (pkey : ECKey) : Option (List UInt8) := do
  let point ← pkey.pub_key
  if pkey.conv_form = formCompressed then some (i2o true point)
  else if pkey.conv_form = formUncompressed then some (i2o false point)
  else if pkey.conv_form = formHybrid then some (hybrid point)
  else none

end ECKey

/-! ## `CKey` -/

/-- `CKey`. -/
structure KeyObject where
  pkey : ECKey
  fSet : Bool
  fCompressedPubKey : Bool

namespace KeyObject

/-- `Reset`, and the default constructor. -/
def reset : KeyObject := ⟨.new, false, false⟩

def setCompressedPubKey (key : KeyObject) (fCompressed : Bool) : KeyObject :=
  { key with
    pkey.conv_form := if fCompressed then formCompressed else formUncompressed
    fCompressedPubKey := true }

def makeNewKey (key : KeyObject) (generated : PrivateKey) : KeyObject :=
  let pkey := { key.pkey with
    pub_key := some (regenerate generated.vchSecret)
    priv_key := some generated.vchSecret }
  let key := { key with pkey }
  let key := if generated.fCompressed then key.setCompressedPubKey true else key
  { key with fSet := true }

/-- The key after `SetSecret`, which throws if there are not 32 bytes. -/
def setSecret (key : KeyObject) (vchSecret : List UInt8) (fCompressed : Bool) : KeyObject :=
  let key := { key with pkey := .new }
  if vchSecret.length ≠ 32 then key
  else
    let pkey := { key.pkey with
      pub_key := some (regenerate vchSecret)
      priv_key := some vchSecret }
    let key := { key with pkey, fSet := true }
    if fCompressed || key.fCompressedPubKey then key.setCompressedPubKey true else key

def setPubKey (key : KeyObject) (vchPubKey : CPubKey) : KeyObject :=
  match key.pkey.o2iPublicKey vchPubKey with
  | some pkey =>
    let key := { key with pkey, fSet := true }
    if vchPubKey.length = 33 then key.setCompressedPubKey true else key
  | none => reset

/-- The copy constructor. The flag is what the memory has. -/
def copy (b : KeyObject) (fUninitialised : Bool) : KeyObject :=
  ⟨ECKey.new.copy b.pkey, b.fSet, fUninitialised⟩

/-- `operator=`. -/
def assign (key b : KeyObject) : KeyObject := { key with pkey := key.pkey.copy b.pkey, fSet := b.fSet }

/-- `GetPubKey`; it throws if there is none. -/
def getPubKey (key : KeyObject) : Option CPubKey := key.pkey.i2oPublicKey

/-- `GetSecret`; it throws if there is none. -/
def getSecret (key : KeyObject) : Option (List UInt8 × Bool) :=
  key.pkey.priv_key.map fun vchSecret => (vchSecret, key.fCompressedPubKey)

def isCompressed (key : KeyObject) : Bool := key.fCompressedPubKey

end KeyObject

abbrev KeyMap := uint160 → Option (List UInt8 × Bool)

namespace KeyMap

variable [ByteHashing160]

/-- `CBasicKeyStore::AddKey`; it throws if the key has no secret or no public key. -/
def addKey (mapKeys : KeyMap) (key : KeyObject) : Option KeyMap := do
  let (secret, fCompressed) ← key.getSecret
  let vchPubKey ← key.getPubKey
  pure (Function.update mapKeys vchPubKey.getID (some (secret, fCompressed)))

def getKey (mapKeys : KeyMap) (address : uint160) : Option KeyObject :=
  (mapKeys address).map fun (secret, fCompressed) => KeyObject.reset.setSecret secret fCompressed

end KeyMap

abbrev KeyObjects := Nat → Option KeyObject

inductive KeyOp
  | construct (i : Nat)
  | makeNewKey (i : Nat) (generated : PrivateKey)
  | setSecret (i : Nat) (vchSecret : List UInt8) (fCompressed : Bool)
  | setPubKey (i : Nat) (vchPubKey : CPubKey)
  | setCompressedPubKey (i : Nat) (fCompressed : Bool)
  | reset (i : Nat)
  | copyConstruct (i j : Nat) (fUninitialised : Bool)
  | assign (i j : Nat)

namespace KeyObjects

def empty : KeyObjects := fun _ => none

def modify (objects : KeyObjects) (i : Nat) (f : KeyObject → KeyObject) : Option KeyObjects :=
  (objects i).map fun key => Function.update objects i (some (f key))

def step (objects : KeyObjects) : KeyOp → Option KeyObjects
  | .construct i => some (Function.update objects i (some .reset))
  | .makeNewKey i generated => objects.modify i (·.makeNewKey generated)
  | .setSecret i vchSecret fCompressed => objects.modify i (·.setSecret vchSecret fCompressed)
  | .setPubKey i vchPubKey => objects.modify i (·.setPubKey vchPubKey)
  | .setCompressedPubKey i fCompressed => objects.modify i (·.setCompressedPubKey fCompressed)
  | .reset i => objects.modify i fun _ => .reset
  | .copyConstruct i j fUninitialised =>
    (objects j).map fun b => Function.update objects i (some (b.copy fUninitialised))
  | .assign i j => (objects j).bind fun b => objects.modify i (·.assign b)

end KeyObjects

namespace KeyObject

/-! ## The conditions -/

/-- The secret is not lost while the flag is set, and a compressed point is not the one at infinity. -/
def SecretKeeps (key : KeyObject) (vchSecret : List UInt8) (fCompressed : Bool) : Prop :=
  if vchSecret.length = 32 then
    (fCompressed || key.fCompressedPubKey) = true → regenerate vchSecret ≠ infinity
  else key.fCompressedPubKey = false

/-- A public key that is accepted belongs to the secret, if there is one, and it is in the form that
the flag says. -/
def PubKeyKeeps (key : KeyObject) (vchPubKey : CPubKey) : Prop :=
  ∀ point, o2i vchPubKey = some point →
    (∀ vchSecret, key.pkey.priv_key = some vchSecret → point = regenerate vchSecret) ∧
    (vchPubKey.length = 33 ∨
      key.fCompressedPubKey = false ∧ vchPubKey.headD 0 &&& 0xFE = formUncompressed)

/-- The compression is switched on, not off, and the point is not the one at infinity. -/
def CompressedKeeps (key : KeyObject) (fCompressed : Bool) : Prop :=
  fCompressed = true ∧
    ∀ vchSecret, key.pkey.priv_key = some vchSecret → regenerate vchSecret ≠ infinity

/-- The flags are the same, and no other public key comes to a secret. -/
def AssignKeeps (key b : KeyObject) : Prop :=
  key.fCompressedPubKey = b.fCompressedPubKey ∧
    (b.pkey.priv_key = none → key.pkey.priv_key ≠ none →
      b.pkey.pub_key = none ∨ b.pkey.pub_key = key.pkey.pub_key)

end KeyObject

/-- The operation does not let the flag and the form part. -/
def KeyObjects.Keeps (objects : KeyObjects) : KeyOp → Prop
  | .construct _ => True
  | .makeNewKey _ _ => True
  | .setSecret i vchSecret fCompressed =>
    ∀ key, objects i = some key → key.SecretKeeps vchSecret fCompressed
  | .setPubKey i vchPubKey => ∀ key, objects i = some key → key.PubKeyKeeps vchPubKey
  | .setCompressedPubKey i fCompressed =>
    ∀ key, objects i = some key → key.CompressedKeeps fCompressed
  | .reset _ => True
  | .copyConstruct _ j fUninitialised =>
    ∀ b, objects j = some b → fUninitialised = b.fCompressedPubKey
  | .assign i j => ∀ key b, objects i = some key → objects j = some b → key.AssignKeeps b

/-! ## One operation -/

namespace KeyObject

variable {key b : KeyObject} {vchSecret : List UInt8} {fCompressed : Bool} {vchPubKey : CPubKey}

/-- The form is what the flag says, and the point belongs to the secret. -/
structure Consistent (key : KeyObject) : Prop where
  form : key.pkey.conv_form = if key.fCompressedPubKey then formCompressed else formUncompressed
  pub : ∀ vchSecret, key.pkey.priv_key = some vchSecret →
    key.pkey.pub_key = some (regenerate vchSecret)
  length_eq : ∀ vchSecret, key.pkey.priv_key = some vchSecret → vchSecret.length = 32
  finite : key.fCompressedPubKey = true → ∀ vchSecret, key.pkey.priv_key = some vchSecret →
    regenerate vchSecret ≠ infinity

theorem consistent_reset : (reset : KeyObject).Consistent :=
  ⟨rfl, fun _ h => (nomatch h), fun _ h => (nomatch h), fun _ _ h => (nomatch h)⟩

theorem Consistent.setCompressedPubKey (hkey : key.Consistent)
    (hkeeps : key.CompressedKeeps fCompressed) : (key.setCompressedPubKey fCompressed).Consistent := by
  obtain ⟨rfl, hfinite⟩ := hkeeps
  exact ⟨rfl, hkey.pub, hkey.length_eq, fun _ => hfinite⟩

/-- A secret comes to a key with the form that the flag says. -/
theorem consistent_withSecret (key : KeyObject) (vchSecret : List UInt8) (fCompressed : Bool)
    (hform : key.pkey.conv_form =
      if key.fCompressedPubKey then formCompressed else formUncompressed)
    (hlength : vchSecret.length = 32)
    (hfinite : (fCompressed || key.fCompressedPubKey) = true → regenerate vchSecret ≠ infinity) :
    let key1 : KeyObject := { key with
      pkey.pub_key := some (regenerate vchSecret)
      pkey.priv_key := some vchSecret
      fSet := true }
    (if fCompressed then key1.setCompressedPubKey true else key1).Consistent := by
  intro key1
  have hsecret : ∀ s, some vchSecret = some s → s = vchSecret := fun s h => (Option.some.inj h).symm
  cases fCompressed with
  | true =>
    refine ⟨rfl, fun s h => ?_, fun s h => ?_, fun _ s h => ?_⟩
    · rw [hsecret s h]
      rfl
    · rw [hsecret s h]
      exact hlength
    · rw [hsecret s h]
      exact hfinite rfl
  | false =>
    refine ⟨hform, fun s h => ?_, fun s h => ?_, fun hflag s h => ?_⟩
    · rw [hsecret s h]
      rfl
    · rw [hsecret s h]
      exact hlength
    · rw [hsecret s h]
      exact hfinite hflag

theorem Consistent.makeNewKey [LawfulPointEncoding] (hkey : key.Consistent)
    (generated : PrivateKey) : (key.makeNewKey generated).Consistent := by
  have hfinite := LawfulPointEncoding.regenerate_ne _ generated.checked
  have hset := consistent_withSecret key generated.vchSecret generated.fCompressed hkey.form
    generated.length_eq fun _ => hfinite
  rw [KeyObject.makeNewKey]
  cases hcompressed : generated.fCompressed with
  | true =>
    rw [hcompressed] at hset
    exact hset
  | false =>
    rw [hcompressed] at hset
    exact hset

theorem consistent_setSecret (hkeeps : key.SecretKeeps vchSecret fCompressed) :
    (key.setSecret vchSecret fCompressed).Consistent := by
  rw [SecretKeeps] at hkeeps
  by_cases hlength : vchSecret.length = 32
  · rw [if_pos hlength] at hkeeps
    rw [KeyObject.setSecret, if_neg (not_not.mpr hlength)]
    have hset := consistent_withSecret { key with pkey := .new, fCompressedPubKey := false }
      vchSecret (fCompressed || key.fCompressedPubKey) rfl hlength (by simpa using hkeeps)
    cases hflag : key.fCompressedPubKey with
    | true => simpa [hflag, KeyObject.setCompressedPubKey] using hset
    | false => simpa [hflag] using hset
  · rw [if_neg hlength] at hkeeps
    rw [KeyObject.setSecret, if_pos hlength]
    refine ⟨?_, fun _ h => (nomatch h), fun _ h => (nomatch h), fun _ _ h => (nomatch h)⟩
    simp [hkeeps, ECKey.new]

theorem Consistent.setPubKey [LawfulPointEncoding] (hkey : key.Consistent)
    (hkeeps : key.PubKeyKeeps vchPubKey) : (key.setPubKey vchPubKey).Consistent := by
  cases hpoint : o2i vchPubKey with
  | none =>
    rw [KeyObject.setPubKey, ECKey.o2iPublicKey, hpoint]
    exact consistent_reset
  | some point =>
    obtain ⟨hown, hform⟩ := hkeeps point hpoint
    rw [KeyObject.setPubKey, ECKey.o2iPublicKey, hpoint]
    by_cases hlength : vchPubKey.length = 33
    · have hne := LawfulPointEncoding.o2i_ne _ _ hlength hpoint
      simp only [Option.map_some, if_pos hlength]
      refine ⟨rfl, fun s hs => ?_, hkey.length_eq, fun _ s hs => ?_⟩
      · rw [← hown s hs]
        rfl
      · rw [← hown s hs]
        exact hne
    · obtain ⟨hflag, huncompressed⟩ := hform.resolve_left hlength
      simp only [Option.map_some, if_neg hlength]
      refine ⟨?_, fun s hs => ?_, hkey.length_eq, hkey.finite⟩
      · rw [hflag]
        exact huncompressed
      · rw [← hown s hs]

theorem Consistent.copy (hb : b.Consistent) : (b.copy b.fCompressedPubKey).Consistent := by
  refine ⟨hb.form, fun s hs => ?_, fun s hs => ?_, fun hflag s hs => ?_⟩
  · simp only [KeyObject.copy, ECKey.copy, ECKey.new, Option.or_none] at hs ⊢
    exact hb.pub s hs
  · simp only [KeyObject.copy, ECKey.copy, ECKey.new, Option.or_none] at hs
    exact hb.length_eq s hs
  · simp only [KeyObject.copy, ECKey.copy, ECKey.new, Option.or_none] at hs
    exact hb.finite hflag s hs

/-- A secret that an assignment leaves is that of the source, or the old one with its public key. -/
theorem Consistent.assign (hkey : key.Consistent) (hb : b.Consistent)
    (hkeeps : key.AssignKeeps b) : (key.assign b).Consistent := by
  obtain ⟨hflag, hother⟩ := hkeeps
  have hform : b.pkey.conv_form =
      if key.fCompressedPubKey then formCompressed else formUncompressed := by
    rw [hflag]
    exact hb.form
  cases hpriv : b.pkey.priv_key with
  | some secret =>
    have hsecret : (key.assign b).pkey.priv_key = some secret := by
      simp [KeyObject.assign, ECKey.copy, hpriv]
    have hpub : (key.assign b).pkey.pub_key = some (regenerate secret) := by
      simp [KeyObject.assign, ECKey.copy, hb.pub secret hpriv]
    refine ⟨hform, fun s hs => ?_, fun s hs => ?_, fun hset s hs => ?_⟩
    all_goals obtain rfl : secret = s := Option.some.inj (hsecret.symm.trans hs)
    · exact hpub
    · exact hb.length_eq secret hpriv
    · exact hb.finite (hflag.symm.trans hset) secret hpriv
  | none =>
    have hsecret : (key.assign b).pkey.priv_key = key.pkey.priv_key := by
      simp [KeyObject.assign, ECKey.copy, hpriv]
    refine ⟨hform, fun s hs => ?_, fun s hs => ?_, fun hset s hs => ?_⟩
    all_goals rw [hsecret] at hs
    · have hne : key.pkey.priv_key ≠ none := by
        rw [hs]
        exact Option.some_ne_none s
      have hpub := hkey.pub s hs
      cases hother hpriv hne with
      | inl hnone => simp [KeyObject.assign, ECKey.copy, hnone, hpub]
      | inr hsame => simp [KeyObject.assign, ECKey.copy, hsame, hpub]
    · exact hkey.length_eq s hs
    · exact hkey.finite hset s hs

/-! ## The public key -/

theorem Consistent.getPubKey_eq (hkey : key.Consistent) :
    key.getPubKey = key.pkey.pub_key.map (i2o key.fCompressedPubKey) := by
  rw [KeyObject.getPubKey, ECKey.i2oPublicKey, hkey.form]
  cases key.pkey.pub_key with
  | none => rfl
  | some point => cases key.fCompressedPubKey <;> rfl

theorem Consistent.getPubKey_of_secret (hkey : key.Consistent)
    (hsecret : key.pkey.priv_key = some vchSecret) :
    key.getPubKey = some (i2o key.fCompressedPubKey (regenerate vchSecret)) := by
  rw [hkey.getPubKey_eq, hkey.pub vchSecret hsecret]
  rfl

theorem Consistent.length_iff [LawfulPointEncoding] (hkey : key.Consistent)
    (hsecret : key.pkey.priv_key = some vchSecret) :
    key.fCompressedPubKey = true ↔
      (i2o key.fCompressedPubKey (regenerate vchSecret)).length = 33 := by
  by_cases hinfinity : regenerate vchSecret = infinity
  · have hflag : key.fCompressedPubKey ≠ true := fun hflag =>
      hkey.finite hflag vchSecret hsecret hinfinity
    rw [hinfinity, LawfulPointEncoding.length_i2o_infinity]
    simp [hflag]
  · rw [LawfulPointEncoding.length_i2o _ hinfinity]
    cases key.fCompressedPubKey <;> simp

theorem Consistent.getPubKey_stored (hkey : key.Consistent)
    (hsecret : key.pkey.priv_key = some vchSecret) :
    (KeyObject.reset.setSecret vchSecret key.fCompressedPubKey).getPubKey = key.getPubKey := by
  rw [hkey.getPubKey_of_secret hsecret, KeyObject.setSecret,
    if_neg (not_not.mpr (hkey.length_eq vchSecret hsecret))]
  cases key.fCompressedPubKey <;> rfl

theorem Consistent.getKey_addKey [ByteHashing160] (hkey : key.Consistent)
    (hsecret : key.pkey.priv_key = some vchSecret) {pk : CPubKey} (hpk : key.getPubKey = some pk)
    (mapKeys : KeyMap) :
    ∃ mapKeys' keyOut, mapKeys.addKey key = some mapKeys' ∧
      mapKeys'.getKey pk.getID = some keyOut ∧ keyOut.getPubKey = some pk := by
  refine ⟨Function.update mapKeys pk.getID (some (vchSecret, key.fCompressedPubKey)),
    KeyObject.reset.setSecret vchSecret key.fCompressedPubKey, ?_, ?_, ?_⟩
  · simp [KeyMap.addKey, KeyObject.getSecret, hsecret, hpk]
  · simp [KeyMap.getKey]
  · rw [hkey.getPubKey_stored hsecret, hpk]

/-- The key as it is without the form of the `EC_KEY`. -/
def toCKey (key : KeyObject) : CKey := ⟨key.pkey.pub_key, key.pkey.priv_key, key.fCompressedPubKey⟩

theorem Consistent.getPubKey_toCKey (hkey : key.Consistent) :
    key.toCKey.getPubKey = key.getPubKey := hkey.getPubKey_eq.symm

theorem getSecret_toCKey (key : KeyObject) : key.toCKey.getSecret = key.getSecret := rfl

theorem setSecret_toCKey (key : KeyObject) (hlength : vchSecret.length = 32) :
    key.toCKey.setSecret vchSecret fCompressed = some (key.setSecret vchSecret fCompressed).toCKey := by
  rw [CKey.setSecret, KeyObject.setSecret, if_neg (not_not.mpr hlength),
    if_neg (not_not.mpr hlength)]
  cases hflag : fCompressed || key.fCompressedPubKey with
  | true => simp [toCKey, hflag, setCompressedPubKey]
  | false =>
    obtain ⟨rfl, hunset⟩ := Bool.or_eq_false_iff.mp hflag
    simp [toCKey, hunset]

theorem setPubKey_toCKey (key : KeyObject) (vchPubKey : CPubKey) :
    key.toCKey.setPubKey vchPubKey = (key.setPubKey vchPubKey).toCKey := by
  rw [CKey.setPubKey, KeyObject.setPubKey, ECKey.o2iPublicKey]
  cases o2i vchPubKey with
  | none => rfl
  | some point =>
    by_cases hlength : vchPubKey.length = 33
    · simp [toCKey, hlength, setCompressedPubKey]
    · simp [toCKey, hlength]

end KeyObject

/-! ## Runs of operations -/

namespace KeyObjects

variable {objects objects' : KeyObjects} {i : Nat} {f : KeyObject → KeyObject}

def Consistent (objects : KeyObjects) : Prop := ∀ i key, objects i = some key → key.Consistent

theorem consistent_empty : Consistent (empty : KeyObjects) := fun _ _ h => (nomatch h)

theorem Consistent.update (hobjects : objects.Consistent) {key : KeyObject} (hkey : key.Consistent) :
    Consistent (Function.update objects i (some key)) := by
  intro j key' hj
  by_cases hij : j = i
  · rw [hij, Function.update_self] at hj
    exact Option.some.inj hj ▸ hkey
  · rw [Function.update_of_ne hij] at hj
    exact hobjects j key' hj

theorem Consistent.modify (hobjects : objects.Consistent)
    (hf : ∀ key, objects i = some key → (f key).Consistent)
    (hstep : objects.modify i f = some objects') : objects'.Consistent := by
  obtain ⟨key, hkey, rfl⟩ := Option.map_eq_some_iff.mp hstep
  exact hobjects.update (hf key hkey)

/-- What an operation keeps. -/
theorem Consistent.step [LawfulPointEncoding] (hobjects : objects.Consistent) (op : KeyOp)
    (hkeeps : objects.Keeps op) (hstep : objects.step op = some objects') :
    objects'.Consistent := by
  cases op with
  | construct i =>
    obtain rfl := Option.some.inj hstep
    exact hobjects.update KeyObject.consistent_reset
  | makeNewKey i generated =>
    apply hobjects.modify _ hstep
    intro key hkey
    exact (hobjects i key hkey).makeNewKey generated
  | setSecret i vchSecret fCompressed =>
    apply hobjects.modify _ hstep
    intro key hkey
    exact KeyObject.consistent_setSecret (hkeeps key hkey)
  | setPubKey i vchPubKey =>
    apply hobjects.modify _ hstep
    intro key hkey
    exact (hobjects i key hkey).setPubKey (hkeeps key hkey)
  | setCompressedPubKey i fCompressed =>
    apply hobjects.modify _ hstep
    intro key hkey
    exact (hobjects i key hkey).setCompressedPubKey (hkeeps key hkey)
  | reset i =>
    apply hobjects.modify _ hstep
    intro _ _
    exact KeyObject.consistent_reset
  | copyConstruct i j fUninitialised =>
    obtain ⟨b, hb, rfl⟩ := Option.map_eq_some_iff.mp hstep
    apply hobjects.update
    rw [hkeeps b hb]
    exact (hobjects j b hb).copy
  | assign i j =>
    obtain ⟨b, hb, hassign⟩ := Option.bind_eq_some_iff.mp hstep
    apply hobjects.modify _ hassign
    intro key hkey
    exact (hobjects i key hkey).assign (hobjects j b hb) (hkeeps key b hkey hb)

theorem consistent_run [LawfulPointEncoding] {ops : List KeyOp}
    (hkeeps : Meets Keeps step empty ops) (hrun : run step empty ops = some objects') :
    objects'.Consistent :=
  run_invariant_of_meets (fun _ op _ hkeeps hobjects => hobjects.step op hkeeps) hkeeps
    consistent_empty hrun

/-- A key that has a secret tells the form of its public key, and a key store gives back a key with
the same public key, as long as every operation keeps the flag and the form together. -/
theorem keyObjects_spec [LawfulPointEncoding] [ByteHashing160] {ops : List KeyOp}
    (hkeeps : Meets Keeps step empty ops) (hrun : run step empty ops = some objects') {i : Nat}
    {key : KeyObject} (hkey : objects' i = some key) {vchSecret : List UInt8} {fCompressed : Bool}
    (hsecret : key.getSecret = some (vchSecret, fCompressed)) :
    key.isCompressed = fCompressed ∧
      ∃ vchPubKey, key.getPubKey = some vchPubKey ∧
        (fCompressed = true ↔ vchPubKey.length = 33) ∧
        ∀ mapKeys : KeyMap, ∃ mapKeys' keyOut, mapKeys.addKey key = some mapKeys' ∧
          mapKeys'.getKey vchPubKey.getID = some keyOut ∧ keyOut.getPubKey = some vchPubKey := by
  obtain ⟨secret, hpriv, hpair⟩ := Option.map_eq_some_iff.mp hsecret
  obtain ⟨rfl, rfl⟩ := Prod.mk.inj hpair
  have hconsistent := consistent_run hkeeps hrun i key hkey
  have hpk := hconsistent.getPubKey_of_secret hpriv
  refine ⟨rfl, _, hpk, hconsistent.length_iff hpriv, ?_⟩
  exact hconsistent.getKey_addKey hpriv hpk

end KeyObjects

end

namespace KeyObjectSample

open Sample (generatorX generatorY)

def one : List UInt8 := List.replicate 31 0 ++ [1]

/-- The point at infinity (`false`), and the generator, which is the public key of the secret 1. -/
scoped instance encoding : PointEncoding where
  Key := Bool
  o2i vch :=
    if vch = [0] then some false
    else if vch = 2 :: generatorX ∨ vch = 4 :: (generatorX ++ generatorY) ∨
      vch = 6 :: (generatorX ++ generatorY) then some true
    else none
  i2o fCompressed point :=
    if point then
      if fCompressed then 2 :: generatorX else 4 :: (generatorX ++ generatorY)
    else [0]
  regenerate secret := secret == one
  checkKey secret := secret == one
  infinity := false
  hybrid point := if point then 6 :: (generatorX ++ generatorY) else [0]

scoped instance lawfulEncoding : LawfulPointEncoding where
  length_i2o point hpoint fCompressed := by
    obtain rfl : point = true := Bool.eq_true_of_not_eq_false hpoint
    cases fCompressed <;> rfl
  length_i2o_infinity _ := rfl
  regenerate_ne secret hsecret hinfinity := by
    rw [show regenerate secret = true from hsecret] at hinfinity
    cases hinfinity
  o2i_ne vch point hlength hpoint hinfinity := by
    obtain rfl : point = false := hinfinity
    simp only [o2i] at hpoint
    split at hpoint
    · next hvch =>
      rw [hvch] at hlength
      cases hlength
    · split at hpoint <;> cases hpoint

scoped instance hashing160 : ByteHashing160 := ⟨fun bytes => bytes.length⟩

def generated : PrivateKey := ⟨one, true, rfl, rfl⟩

/-- A key is generated and copied to memory where the flag is set, and the copy is put into an empty
key store. -/
theorem keyObjects_spec_sample :
    ∃ objects' key, run KeyObjects.step .empty
        [.construct 0, .makeNewKey 0 generated, .copyConstruct 1 0 true] = some objects' ∧
      objects' 1 = some key ∧ key.isCompressed = true ∧
      ∃ vchPubKey, key.getPubKey = some vchPubKey ∧ (true = true ↔ vchPubKey.length = 33) ∧
        ∀ mapKeys : KeyMap, ∃ mapKeys' keyOut, mapKeys.addKey key = some mapKeys' ∧
          mapKeys'.getKey vchPubKey.getID = some keyOut ∧ keyOut.getPubKey = some vchPubKey := by
  have hkeeps : Meets KeyObjects.Keeps KeyObjects.step .empty
      [.construct 0, .makeNewKey 0 generated, .copyConstruct 1 0 true] := by
    refine ⟨trivial, fun _ h1 => ⟨trivial, fun _ h2 => ⟨?_, fun _ _ => trivial⟩⟩⟩
    obtain rfl := Option.some.inj h1
    obtain rfl := Option.some.inj h2
    intro b hb
    exact congrArg KeyObject.fCompressedPubKey (Option.some.inj hb)
  exact ⟨_, _, rfl, rfl, KeyObjects.keyObjects_spec hkeeps rfl (i := 1) rfl rfl⟩

/-- A compressed key is assigned to a new object: the new object says that its public key is not
compressed, `GetPubKey` has the 33 bytes, and the key store gives back the other public key. -/
theorem not_tells_form :
    ∃ objects' key, run KeyObjects.step .empty
        [.construct 0, .makeNewKey 0 generated, .construct 1, .assign 1 0] = some objects' ∧
      objects' 1 = some key ∧ key.getSecret = some (one, false) ∧
      key.getPubKey = some (2 :: generatorX) ∧
      ∃ mapKeys' keyOut, KeyMap.addKey (fun _ => none) key = some mapKeys' ∧
        mapKeys'.getKey (CPubKey.getID (2 :: generatorX)) = some keyOut ∧
        keyOut.getPubKey = some (4 :: (generatorX ++ generatorY)) :=
  ⟨_, _, rfl, rfl, rfl, rfl, _, _, rfl, rfl, rfl⟩

end KeyObjectSample

end Terracoin
