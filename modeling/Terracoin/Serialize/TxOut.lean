import Terracoin.Serialize.VarInt
import Terracoin.Primitives.Script

/-!
# Compressed outputs

`CTxOutCompressor` and `CScriptCompressor`: an output is stored with its amount in a decimal
floating form and with a short form for the usual scripts.

The public-key script of an uncompressed key is stored by one coordinate of the key, so reading it
back takes elliptic-curve arithmetic. `PublicKeys` stands for the two functions of the
cryptographic library that the source calls for it, and `LawfulPublicKeys` for what is documented
about them. Under it every output that a block may contain is read back
(`CTxOut.decodes_write`).
-/

namespace Terracoin

open Codec

/-! ## Amounts -/

/-- The loop of `CompressAmount`: divide by ten while that leaves no remainder, at most `fuel`
times. Returns the quotient and how often. -/
def stripZeros : Nat → Nat → Nat × Nat
  | 0, n => (n, 0)
  | fuel + 1, n =>
    if n % 10 = 0 then
      let r := stripZeros fuel (n / 10)
      (r.1, r.2 + 1)
    else (n, 0)

def compressAmount (nAmount : Nat) : Nat :=
  if nAmount = 0 then 0
  else
    let r := stripZeros 9 nAmount
    if r.2 < 9 then (1 + (r.1 / 10 * 9 + r.1 % 10 - 1) * 10 + r.2) % 2 ^ 64
    else (1 + (r.1 - 1) * 10 + 9) % 2 ^ 64

def decompressAmount (x : Nat) : Nat :=
  if x = 0 then 0
  else
    let e := (x - 1) % 10
    let y := (x - 1) / 10
    let n := if e < 9 then y / 9 * 10 + (y % 9 + 1) else y + 1
    n * 10 ^ e % 2 ^ 64

theorem stripZeros_spec (fuel : Nat) {n : Nat} (hn : 0 < n) :
    n = (stripZeros fuel n).1 * 10 ^ (stripZeros fuel n).2 ∧ 0 < (stripZeros fuel n).1 ∧
      (stripZeros fuel n).2 ≤ fuel ∧
      ((stripZeros fuel n).2 < fuel → (stripZeros fuel n).1 % 10 ≠ 0) := by
  induction fuel generalizing n with
  | zero =>
    unfold stripZeros
    refine ⟨?_, hn, le_refl 0, fun h => absurd h (by omega)⟩
    simp
  | succ fuel ih =>
    unfold stripZeros
    split
    · rename_i hmod
      obtain ⟨h1, h2, h3, h4⟩ := ih (n := n / 10) (by omega)
      refine ⟨?_, h2, by dsimp only; omega, fun h => h4 (by dsimp only at h; omega)⟩
      calc n = n / 10 * 10 := by omega
        _ = (stripZeros fuel (n / 10)).1 * 10 ^ (stripZeros fuel (n / 10)).2 * 10 := by
            rw [← h1]
        _ = _ := by
            dsimp only
            rw [pow_succ, Nat.mul_assoc]
    · rename_i hmod
      refine ⟨by simp, hn, by simp, fun _ => hmod⟩

/-- An amount far below 2^64 is read back. -/
theorem decompressAmount_compressAmount {n : Nat} (h : n < 2 ^ 60) :
    decompressAmount (compressAmount n) = n := by
  unfold compressAmount
  split
  · rename_i hn
    rw [hn]
    rfl
  · rename_i hn
    obtain ⟨h1, h2, h3, h4⟩ := stripZeros_spec 9 (Nat.pos_of_ne_zero hn)
    generalize stripZeros 9 n = r at h1 h2 h3 h4
    obtain ⟨m, e⟩ := r
    dsimp only at h1 h2 h3 h4 ⊢
    have hpow : 1 ≤ 10 ^ e := Nat.one_le_pow _ _ (by omega)
    have hm : m < 2 ^ 60 := by
      have : m * 1 ≤ m * 10 ^ e := Nat.mul_le_mul_left m hpow
      omega
    split
    · rename_i he
      have hd := h4 he
      have hx : (1 + (m / 10 * 9 + m % 10 - 1) * 10 + e) % 2 ^ 64 =
          1 + (m / 10 * 9 + m % 10 - 1) * 10 + e := Nat.mod_eq_of_lt (by omega)
      have hxe : (1 + (m / 10 * 9 + m % 10 - 1) * 10 + e - 1) % 10 = e := by omega
      have hxy : (1 + (m / 10 * 9 + m % 10 - 1) * 10 + e - 1) / 10 = m / 10 * 9 + m % 10 - 1 := by
        omega
      have hback : (m / 10 * 9 + m % 10 - 1) / 9 * 10 + ((m / 10 * 9 + m % 10 - 1) % 9 + 1) = m := by
        omega
      rw [hx, decompressAmount, if_neg (by omega)]
      simp only [hxe, hxy, if_pos he, hback]
      rw [← h1, Nat.mod_eq_of_lt (by omega)]
    · obtain rfl : e = 9 := by omega
      have hx : (1 + (m - 1) * 10 + 9) % 2 ^ 64 = 1 + (m - 1) * 10 + 9 :=
        Nat.mod_eq_of_lt (by omega)
      have hxe : (1 + (m - 1) * 10 + 9 - 1) % 10 = 9 := by omega
      have hxy : (1 + (m - 1) * 10 + 9 - 1) / 10 + 1 = m := by omega
      rw [hx, decompressAmount, if_neg (by omega)]
      simp only [hxe, lt_irrefl, if_false, hxy]
      rw [← h1, Nat.mod_eq_of_lt (by omega)]

/-- `o2i_ECPublicKey`, which parses the encoding of a point on the curve, and `i2o_ECPublicKey`,
which encodes one in compressed (`true`) or uncompressed form. -/
class PublicKeys where
  Key : Type
  o2i : List UInt8 → Option Key
  i2o : Bool → Key → List UInt8

/-- What is documented about the two encodings of a point: the uncompressed one is a 4 and the
coordinates, and is unique; the compressed one is 2 or 3, for the parity of the second
coordinate, and the first coordinate, and determines the point. -/
class LawfulPublicKeys [PublicKeys] : Prop where
  uncompressed : ∀ xy key, xy.length = 64 → PublicKeys.o2i (4 :: xy) = some key →
    PublicKeys.i2o false key = 4 :: xy
  compressed : ∀ x y key, x.length = 32 → y.length = 31 → ∀ last : UInt8,
    PublicKeys.o2i (4 :: (x ++ y ++ [last])) = some key →
    PublicKeys.o2i (UInt8.ofNat (2 + last.toNat % 2) :: x) = some key

/-! ## Scripts -/

namespace CScript

/-- The 20 bytes of a pay-to-pubkey-hash script. -/
def isToKeyID (script : CScript) : Option (List UInt8) :=
  if script.length = 25 ∧ script[0]? = some OP_DUP ∧ script[1]? = some OP_HASH160 ∧
      script[2]? = some 20 ∧ script[23]? = some OP_EQUALVERIFY ∧ script[24]? = some OP_CHECKSIG then
    some ((script.drop 3).take 20)
  else none

/-- The 20 bytes of a pay-to-script-hash script. -/
def isToScriptID (script : CScript) : Option (List UInt8) :=
  if script.length = 23 ∧ script[0]? = some OP_HASH160 ∧ script[1]? = some 20 ∧
      script[22]? = some OP_EQUAL then
    some ((script.drop 2).take 20)
  else none

/-- The public key of a pay-to-pubkey script; an uncompressed one must be valid. -/
def isToPubKey [PublicKeys] (script : CScript) : Option (List UInt8) :=
  if script.length = 35 ∧ script[0]? = some 33 ∧ script[34]? = some OP_CHECKSIG ∧
      (script[1]? = some 0x02 ∨ script[1]? = some 0x03) then
    some ((script.drop 1).take 33)
  else if script.length = 67 ∧ script[0]? = some 65 ∧ script[66]? = some OP_CHECKSIG ∧
      script[1]? = some 0x04 then
    let pubkey := (script.drop 1).take 65
    if (PublicKeys.o2i pubkey).isSome then some pubkey else none
  else none

/-- `CScriptCompressor::Compress`. -/
def compress [PublicKeys] (script : CScript) : Option (List UInt8) :=
  match script.isToKeyID, script.isToScriptID, script.isToPubKey with
  | some keyID, _, _ => some (0x00 :: keyID)
  | none, some scriptID, _ => some (0x01 :: scriptID)
  | none, none, some pubkey =>
    let first := pubkey.headD 0
    if first = 0x02 ∨ first = 0x03 then some (first :: (pubkey.drop 1).take 32)
    else if first = 0x04 then
      some (UInt8.ofNat (4 + ((pubkey[64]?).getD 0).toNat % 2) :: (pubkey.drop 1).take 32)
    else none
  | none, none, none => none

def nSpecialScripts : Nat := 6

def getSpecialSize (nSize : Nat) : Nat :=
  if nSize = 0 ∨ nSize = 1 then 20 else if nSize ≤ 5 then 32 else 0

/-- `CScriptCompressor::Decompress`; `none` when it returns `false`. -/
def decompress [PublicKeys] (nSize : Nat) (data : List UInt8) : Option CScript :=
  match nSize with
  | 0 => some ([OP_DUP, OP_HASH160, 20] ++ data ++ [OP_EQUALVERIFY, OP_CHECKSIG])
  | 1 => some ([OP_HASH160, 20] ++ data ++ [OP_EQUAL])
  | 2 => some ([33, 2] ++ data ++ [OP_CHECKSIG])
  | 3 => some ([33, 3] ++ data ++ [OP_CHECKSIG])
  | 4 | 5 =>
    (PublicKeys.o2i (UInt8.ofNat (nSize - 2) :: data)).map fun key =>
      65 :: (PublicKeys.i2o false key).take 65 ++ [OP_CHECKSIG]
  | _ => none

/-- `CScriptCompressor::Serialize`. -/
def write [PublicKeys] (script : CScript) : List UInt8 :=
  match script.compress with
  | some compr => compr
  | none => writeVarInt (script.length + nSpecialScripts : Nat) ++ script

/-- `CScriptCompressor::GetSerializeSize`. -/
def compressedSize [PublicKeys] (script : CScript) : Nat :=
  match script.compress with
  | some compr => compr.length
  | none => script.length + getSizeOfVarInt (script.length + nSpecialScripts : Nat)

/-- The rest of `CScriptCompressor::Unserialize`, into an empty script, after `nSize`. -/
def readAfter [PublicKeys] (nSize : Nat) : Reader CScript :=
  if nSize < nSpecialScripts then
    (fun data => (decompress nSize data).getD []) <$> readBytes (getSpecialSize nSize)
  else readBytes (nSize - nSpecialScripts)

/-- `CScriptCompressor::Unserialize`. -/
def read [PublicKeys] : Reader CScript := do
  let nSize ← readVarInt 32
  readAfter nSize

theorem length_write [PublicKeys] (script : CScript) :
    script.write.length = script.compressedSize := by
  unfold write compressedSize
  split
  · rfl
  · rw [List.length_append, length_writeVarInt, Nat.add_comm]

/-! ## The special scripts -/

theorem drop_eq_cons {α : Type} {s : List α} {k : Nat} {a : α} (h : s[k]? = some a) :
    s.drop k = a :: s.drop (k + 1) := by
  obtain ⟨hlt, rfl⟩ := List.getElem?_eq_some_iff.mp h
  exact List.drop_eq_getElem_cons hlt

theorem drop_eq_take_append {α : Type} (s : List α) (k n : Nat) :
    s.drop k = (s.drop k).take n ++ s.drop (k + n) := by
  rw [← List.drop_drop, List.take_append_drop]

theorem drop_eq_middle {α : Type} {s : List α} (k n : Nat) (h : k + n ≤ s.length) :
    s.drop k = (s.drop k).take n ++ s.drop (k + n) ∧ ((s.drop k).take n).length = n := by
  refine ⟨drop_eq_take_append s k n, ?_⟩
  rw [List.length_take, List.length_drop]
  omega

theorem isToKeyID_spec {script : CScript} {keyID : List UInt8}
    (h : script.isToKeyID = some keyID) : keyID.length = 20 ∧
      script = [OP_DUP, OP_HASH160, 20] ++ keyID ++ [OP_EQUALVERIFY, OP_CHECKSIG] := by
  unfold isToKeyID at h
  split at h
  · rename_i hs
    obtain ⟨hlen, h0, h1, h2, h23, h24⟩ := hs
    obtain rfl := Option.some.inj h
    obtain ⟨hmiddle, hsize⟩ := drop_eq_middle (s := script) 3 20 (by omega)
    have hend : script.drop 25 = [] := List.drop_eq_nil_of_le (by omega)
    refine ⟨hsize, ?_⟩
    calc script = script.drop 0 := rfl
      _ = OP_DUP :: OP_HASH160 :: 20 :: script.drop 3 := by
          rw [drop_eq_cons h0, drop_eq_cons h1, drop_eq_cons h2]
      _ = OP_DUP :: OP_HASH160 :: 20 :: ((script.drop 3).take 20 ++ script.drop 23) := by
          rw [← hmiddle]
      _ = _ := by
          rw [drop_eq_cons h23, drop_eq_cons h24, hend]
          rfl
  · cases h

theorem isToScriptID_spec {script : CScript} {scriptID : List UInt8}
    (h : script.isToScriptID = some scriptID) : scriptID.length = 20 ∧
      script = [OP_HASH160, 20] ++ scriptID ++ [OP_EQUAL] := by
  unfold isToScriptID at h
  split at h
  · rename_i hs
    obtain ⟨hlen, h0, h1, h22⟩ := hs
    obtain rfl := Option.some.inj h
    obtain ⟨hmiddle, hsize⟩ := drop_eq_middle (s := script) 2 20 (by omega)
    have hend : script.drop 23 = [] := List.drop_eq_nil_of_le (by omega)
    refine ⟨hsize, ?_⟩
    calc script = script.drop 0 := rfl
      _ = OP_HASH160 :: 20 :: script.drop 2 := by rw [drop_eq_cons h0, drop_eq_cons h1]
      _ = OP_HASH160 :: 20 :: ((script.drop 2).take 20 ++ script.drop 22) := by rw [← hmiddle]
      _ = _ := by
          rw [drop_eq_cons h22, hend]
          rfl
  · cases h

/-- A key that `IsToPubKey` finds is compressed, or uncompressed and valid. -/
theorem isToPubKey_spec [PublicKeys] {script : CScript} {pubkey : List UInt8}
    (h : script.isToPubKey = some pubkey) :
    (∃ (first : UInt8) (x : List UInt8), (first = 2 ∨ first = 3) ∧ x.length = 32 ∧ pubkey = first :: x ∧
      script = [33, first] ++ x ++ [OP_CHECKSIG]) ∨
    (∃ xy key, xy.length = 64 ∧ pubkey = 4 :: xy ∧ PublicKeys.o2i pubkey = some key ∧
      script = [65, 4] ++ xy ++ [OP_CHECKSIG]) := by
  unfold isToPubKey at h
  split at h
  · rename_i hs
    obtain ⟨hlen, h0, h34, h1⟩ := hs
    obtain rfl := Option.some.inj h
    left
    obtain ⟨first, hfirst, h1⟩ :
        ∃ first : UInt8, (first = 2 ∨ first = 3) ∧ script[1]? = some first := by
      rcases h1 with h1 | h1
      · exact ⟨2, .inl rfl, h1⟩
      · exact ⟨3, .inr rfl, h1⟩
    obtain ⟨hmiddle, hsize⟩ := drop_eq_middle (s := script) 2 32 (by omega)
    have hend : script.drop 35 = [] := List.drop_eq_nil_of_le (by omega)
    refine ⟨first, (script.drop 2).take 32, hfirst, hsize, by rw [drop_eq_cons h1]; rfl, ?_⟩
    calc script = script.drop 0 := rfl
      _ = 33 :: first :: script.drop 2 := by rw [drop_eq_cons h0, drop_eq_cons h1]
      _ = 33 :: first :: ((script.drop 2).take 32 ++ script.drop 34) := by rw [← hmiddle]
      _ = _ := by
          rw [drop_eq_cons h34, hend]
          rfl
  · split at h
    · rename_i hs
      obtain ⟨hlen, h0, h66, h1⟩ := hs
      dsimp only at h
      split at h
      · rename_i hvalid
        obtain rfl := Option.some.inj h
        right
        obtain ⟨key, hkey⟩ := Option.isSome_iff_exists.mp hvalid
        obtain ⟨hmiddle, hsize⟩ := drop_eq_middle (s := script) 2 64 (by omega)
        have hend : script.drop 67 = [] := List.drop_eq_nil_of_le (by omega)
        refine ⟨(script.drop 2).take 64, key, hsize, by rw [drop_eq_cons h1]; rfl, hkey, ?_⟩
        calc script = script.drop 0 := rfl
          _ = 65 :: 4 :: script.drop 2 := by rw [drop_eq_cons h0, drop_eq_cons h1]
          _ = 65 :: 4 :: ((script.drop 2).take 64 ++ script.drop 66) := by rw [← hmiddle]
          _ = _ := by
              rw [drop_eq_cons h66, hend]
              rfl
      · cases h
    · cases h

/-- A special script is written as its number, below `nSpecialScripts`, and as many bytes as
are read for that number; decompressing them gives the script back. -/
theorem compress_spec [PublicKeys] [LawfulPublicKeys] {script : CScript} {compr : List UInt8}
    (h : script.compress = some compr) :
    ∃ nSize data, nSize < nSpecialScripts ∧ compr = UInt8.ofNat nSize :: data ∧
      data.length = getSpecialSize nSize ∧ decompress nSize data = some script := by
  unfold compress at h
  split at h
  · rename_i keyID hkey
    obtain rfl := Option.some.inj h
    obtain ⟨hlen, hscript⟩ := isToKeyID_spec hkey
    exact ⟨0, keyID, by decide, rfl, hlen, by rw [hscript]; rfl⟩
  · rename_i scriptID _ hid
    obtain rfl := Option.some.inj h
    obtain ⟨hlen, hscript⟩ := isToScriptID_spec hid
    exact ⟨1, scriptID, by decide, rfl, hlen, by rw [hscript]; rfl⟩
  · rename_i pubkey hpubkey
    rcases isToPubKey_spec hpubkey with ⟨first, x, hfirst, hx, rfl, hscript⟩ |
      ⟨xy, key, hxy, rfl, hkey, hscript⟩
    · have hcompr : compr = first :: x := by
        simp only [List.headD_cons, if_pos hfirst, Option.some.injEq, List.drop_one,
          List.tail_cons] at h
        rw [← h, List.take_of_length_le (by omega)]
      rcases hfirst with rfl | rfl
      · exact ⟨2, x, by decide, hcompr, hx, by rw [hscript]; rfl⟩
      · exact ⟨3, x, by decide, hcompr, hx, by rw [hscript]; rfl⟩
    · obtain ⟨x, y, last, hx, hy, rfl⟩ : ∃ (x y : List UInt8) (last : UInt8), x.length = 32 ∧
          y.length = 31 ∧ xy = x ++ y ++ [last] := by
        refine ⟨xy.take 32, (xy.drop 32).take 31, xy.getLast (by
          intro he; rw [he] at hxy; cases hxy), ?_, ?_, ?_⟩
        · rw [List.length_take]
          omega
        · rw [List.length_take, List.length_drop]
          omega
        · obtain ⟨h1, -⟩ := drop_eq_middle (s := xy) 32 31 (by omega)
          have h63 : xy[63]? = some (xy.get ⟨63, by omega⟩) := List.getElem?_eq_getElem (by omega)
          have hlast := drop_eq_cons h63
          rw [List.drop_eq_nil_of_le (by omega : xy.length ≤ 63 + 1)] at hlast
          have hget : xy.getLast (by intro he; rw [he] at hxy; cases hxy) = xy.get ⟨63, by omega⟩ := by
            rw [List.getLast_eq_getElem]
            simp [hxy]
          rw [hget, List.append_assoc, ← hlast, ← h1, List.take_append_drop]
      have hunc := LawfulPublicKeys.uncompressed _ key hxy hkey
      have hcomp := LawfulPublicKeys.compressed x y key hx hy last hkey
      have hcompr : compr = UInt8.ofNat (4 + last.toNat % 2) :: x := by
        have h64 : (4 :: (x ++ y ++ [last]))[64]? = some last := by
          rw [List.getElem?_cons_succ, List.getElem?_append_right (by
            rw [List.length_append]; omega), List.length_append, hx, hy]
          rfl
        have htake : ((4 :: (x ++ y ++ [last])).drop 1).take 32 = x := by
          rw [List.drop_one, List.tail_cons, List.append_assoc,
            List.take_append_of_le_length (by omega), List.take_of_length_le (by omega)]
        rw [h64, htake] at h
        exact (Option.some.inj h).symm
      have hdec : ∀ n, n = 4 + last.toNat % 2 → decompress n x = some script := by
        intro n hn
        have htwo : n - 2 = 2 + last.toNat % 2 := by omega
        have hmain : (PublicKeys.o2i (UInt8.ofNat (n - 2) :: x)).map (fun key =>
            65 :: (PublicKeys.i2o false key).take 65 ++ [OP_CHECKSIG]) = some script := by
          rw [htwo, hcomp, Option.map_some, hunc, hscript,
            List.take_of_length_le (by rw [List.length_cons]; omega)]
          rfl
        have hcases : n = 4 ∨ n = 5 := by omega
        rcases hcases with rfl | rfl <;> exact hmain
      refine ⟨4 + last.toNat % 2, x, ?_, hcompr, ?_, hdec _ rfl⟩
      · unfold nSpecialScripts
        omega
      · unfold getSpecialSize
        rw [if_neg (by omega), if_pos (by omega), hx]
  · cases h

/-- Every script short enough for its length to be written is read back. -/
theorem decodes_write [PublicKeys] [LawfulPublicKeys] {script : CScript}
    (hlen : script.length + nSpecialScripts < 2 ^ 32) : Decodes read script.write script := by
  unfold read write
  split
  · rename_i compr hcompr
    obtain ⟨nSize, data, hsize, rfl, hdata, hdec⟩ := compress_spec hcompr
    have hsix : nSpecialScripts = 6 := rfl
    have hfirst : Decodes (readVarInt 32) [UInt8.ofNat nSize] nSize := by
      rw [← writeVarInt_of_lt (by omega)]
      exact decodes_writeVarInt (by omega)
    have hrest : Decodes (readAfter nSize) data script := by
      unfold readAfter
      rw [if_pos hsize, ← hdata]
      have := (Decodes.bytes data).map fun data => (decompress nSize data).getD []
      rwa [hdec, Option.getD_some] at this
    rw [← List.singleton_append]
    exact Decodes.bind hfirst hrest
  · refine Decodes.bind (decodes_writeVarInt hlen) ?_
    unfold readAfter
    rw [if_neg (by omega), Nat.add_sub_cancel]
    exact Decodes.bytes script

end CScript

/-! ## Outputs -/

namespace CTxOut

/-- `uint64` to `int64`. -/
def toInt64 (n : Nat) : Int := (BitVec.ofNat 64 n).toInt

/-- `CTxOutCompressor` when writing. -/
def write [PublicKeys] (out : CTxOut) : List UInt8 :=
  writeVarInt (compressAmount (out.nValue % 2 ^ 64).toNat : Nat) ++ out.scriptPubKey.write

def compressedSize [PublicKeys] (out : CTxOut) : Nat :=
  getSizeOfVarInt (compressAmount (out.nValue % 2 ^ 64).toNat : Nat) +
    out.scriptPubKey.compressedSize

/-- `CTxOutCompressor` when reading into `CTxOut()`. -/
def read [PublicKeys] : Reader CTxOut := do
  let nVal ← readVarInt 64
  let scriptPubKey ← CScript.read
  pure ⟨toInt64 (decompressAmount nVal), scriptPubKey⟩

/-- An output that a transaction of a block may have. -/
structure Storable (out : CTxOut) : Prop where
  nValue_nonneg : 0 ≤ out.nValue
  nValue_le : out.nValue ≤ maxMoney
  script_length : out.scriptPubKey.length ≤ maxBlockSize

theorem length_write [PublicKeys] (out : CTxOut) : out.write.length = out.compressedSize := by
  rw [write, List.length_append, length_writeVarInt, CScript.length_write, compressedSize]

theorem compressAmount_lt (n : Nat) : compressAmount n < 2 ^ 64 := by
  unfold compressAmount
  split
  · omega
  · dsimp only
    split <;> omega

theorem decodes_write [PublicKeys] [LawfulPublicKeys] {out : CTxOut} (h : out.Storable) :
    Decodes read out.write out := by
  have h0 := h.nValue_nonneg
  have h1 := h.nValue_le
  have h2 := h.script_length
  have hmm := maxMoney_eq
  have hbs : maxBlockSize = 1000000 := rfl
  have hss : CScript.nSpecialScripts = 6 := rfl
  have hvalue : toInt64 (decompressAmount (compressAmount (out.nValue % 2 ^ 64).toNat)) =
      out.nValue := by
    have hnat : (BitVec.ofNat 64 (out.nValue % 2 ^ 64).toNat).toNat = out.nValue.toNat := by
      rw [BitVec.toNat_ofNat]
      omega
    rw [decompressAmount_compressAmount (by omega), toInt64,
      BitVec.toInt_eq_toNat_of_lt (by rw [hnat]; omega), hnat]
    omega
  refine Decodes.bind (decodes_writeVarInt (compressAmount_lt _)) ?_
  rw [← List.append_nil out.scriptPubKey.write]
  refine Decodes.bind (CScript.decodes_write (by omega)) ?_
  rw [hvalue]
  exact Decodes.pure out

end CTxOut

theorem CTransaction.Checked.storable {tx : CTransaction} (h : tx.Checked) {out : CTxOut}
    (hout : out ∈ tx.vout) : out.Storable :=
  ⟨(h.value_range out hout).1, (h.value_range out hout).2,
    (CTransaction.scriptPubKey_le_size hout).trans h.size_le⟩

namespace Sample

/-- The coordinates of the generator of the curve. -/
def generatorX : List UInt8 :=
  [0x79, 0xBE, 0x66, 0x7E, 0xF9, 0xDC, 0xBB, 0xAC, 0x55, 0xA0, 0x62, 0x95, 0xCE, 0x87, 0x0B, 0x07,
    0x02, 0x9B, 0xFC, 0xDB, 0x2D, 0xCE, 0x28, 0xD9, 0x59, 0xF2, 0x81, 0x5B, 0x16, 0xF8, 0x17, 0x98]

def generatorY : List UInt8 :=
  [0x48, 0x3A, 0xDA, 0x77, 0x26, 0xA3, 0xC4, 0x65, 0x5D, 0xA4, 0xFB, 0xFC, 0x0E, 0x11, 0x08, 0xA8,
    0xFD, 0x17, 0xB4, 0x48, 0xA6, 0x85, 0x54, 0x19, 0x9C, 0x47, 0xD0, 0x8F, 0xFB, 0x10, 0xD4, 0xB8]

/-- The two encodings of the generator, and no other key. -/
scoped instance publicKeys : PublicKeys where
  Key := Unit
  o2i s := if s = 2 :: generatorX ∨ s = 4 :: (generatorX ++ generatorY) then some () else none
  i2o fCompressed _ := if fCompressed then 2 :: generatorX else 4 :: (generatorX ++ generatorY)

theorem o2i_uncompressed {xy : List UInt8} {key : Unit}
    (h : PublicKeys.o2i (4 :: xy) = some key) : xy = generatorX ++ generatorY := by
  change (if (4 :: xy) = 2 :: generatorX ∨ (4 :: xy) = 4 :: (generatorX ++ generatorY)
    then some () else none) = some key at h
  split at h
  · rename_i hs
    rcases hs with hs | hs
    · cases hs
    · exact (List.cons.inj hs).2
  · cases h

scoped instance lawfulPublicKeys : LawfulPublicKeys where
  uncompressed xy key _ h := by
    rw [o2i_uncompressed h]
    rfl
  compressed x y key hx hy last h := by
    have hxy := o2i_uncompressed h
    rw [List.append_assoc] at hxy
    obtain ⟨rfl, hylast⟩ := List.append_inj hxy hx
    have hlast : last = 0xB8 := by
      have h31 : (y ++ [last])[31]? = generatorY[31]? := by rw [hylast]
      rw [List.getElem?_append_right (by omega), hy] at h31
      exact Option.some.inj h31
    rw [hlast]
    rfl

end Sample

end Terracoin
