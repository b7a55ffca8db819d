import Terracoin.Serialize.BaseCode

/-!
# Base 64 and base 32

`EncodeBase64`, `DecodeBase64`, `EncodeBase32` and `DecodeBase32` of `util.cpp`. Where the source
puts bits together with `|`, they do not overlap and it is a sum.

The decoders stop at the first character that is not in their table and do not look at what is
behind the padding, and the table of base 32 has the capital letters too (`decodeBase64_iff`,
`decodeBase32_iff`).
-/

namespace Terracoin

open Regroup BaseCode

/-! ## Base 64 -/

/-- The body of the loop of `EncodeBase64`. -/
def encode64Step (st : BaseState) (enc : Nat) : BaseState :=
  match st.mode with
  | 0 => ⟨1, enc % 4 * 16, st.out ++ [enc / 4]⟩ -- we have no bits
  | 1 => ⟨2, enc % 16 * 4, st.out ++ [st.left + enc / 16]⟩ -- we have two bits
  | 2 => ⟨0, st.left, st.out ++ [st.left + enc / 64, enc % 64]⟩ -- we have four bits
  | _ => st

/-- The body of the loop of `DecodeBase64`. -/
def decode64Step (st : BaseState) (dec : Nat) : BaseState :=
  match st.mode with
  | 0 => ⟨1, dec, st.out⟩ -- we have no bits and get 6
  | 1 => ⟨2, dec % 16, st.out ++ [st.left * 4 + dec / 16]⟩ -- we have 6 bits and keep 4
  | 2 => ⟨3, dec % 4, st.out ++ [st.left * 16 + dec / 4]⟩ -- we have 4 bits and get 6, we keep 2
  | 3 => ⟨0, st.left, st.out ++ [st.left * 64 + dec]⟩ -- we have 2 bits and get 6
  | _ => st

/-- `pbase64`: capital letters, small letters, digits, `+` and `/`. -/
def pbase64 : List UInt8 :=
  (List.range' 65 26 ++ List.range' 97 26 ++ List.range' 48 10 ++ [43, 47]).map UInt8.ofNat

def decode64_table (c : UInt8) : Option Nat :=
  if 65 ≤ c ∧ c ≤ 90 then some (c.toNat - 65)
  else if 97 ≤ c ∧ c ≤ 122 then some (c.toNat - 71)
  else if 48 ≤ c ∧ c ≤ 57 then some (c.toNat + 4)
  else if c = 43 then some 62
  else if c = 47 then some 63
  else none

def base64 : BaseCode where
  width := 6
  chars := pbase64
  table := decode64_table
  encodeStep := encode64Step
  decodeStep := decode64Step
  nPadding mode := match mode with
    | 1 => 2
    | 2 => 1
    | _ => 0
  required mode := match mode with
    | 0 => some 0 -- 4n base64 characters processed: ok
    | 2 => some 2 -- 4n+2: require '=='
    | 3 => some 1 -- 4n+3: require '='
    | _ => none -- 4n+1: impossible

def encodeBase64 : List UInt8 → Text := base64.encode

def decodeBase64 : Text → List UInt8 × Bool := base64.decode

theorem encode64Step_encodes {input : List Nat} {st : BaseState}
    (h : base64.Encodes [0, 2, 4] input st) {enc : Nat} (henc : enc < 2 ^ 8) :
    base64.Encodes [0, 2, 4] (input ++ [enc]) (encode64Step st enc) := by
  obtain ⟨k, rest, hmode, hreg, hleft⟩ := h
  obtain ⟨mode, left, out⟩ := st
  change Regrouped 8 6 k input out rest at hreg
  have hlt := hreg.rest_lt
  match mode, hmode with
  | 0, rfl =>
    have hdigit := hreg.digit 2 henc rfl
    rw [show (rest * 2 ^ 8 + enc) / 2 ^ 2 = enc / 4 by omega] at hdigit
    exact ⟨2, _, rfl, hdigit, fun _ => show enc % 4 * 16 = _ * 16 by omega⟩
  | 1, rfl =>
    have hleft : left = rest * 16 := hleft (by decide)
    have hdigit := hreg.digit 4 henc rfl
    rw [show (rest * 2 ^ 8 + enc) / 2 ^ 4 = left + enc / 16 by omega] at hdigit
    exact ⟨4, _, rfl, hdigit, fun _ => show enc % 16 * 4 = _ * 4 by omega⟩
  | 2, rfl =>
    have hleft : left = rest * 4 := hleft (by decide)
    have hdigits := hreg.twoDigits 0 henc rfl
    rw [show (rest * 2 ^ 8 + enc) / 2 ^ (6 + 0) = left + enc / 64 by omega,
      show (rest * 2 ^ 8 + enc) % 2 ^ (6 + 0) / 2 ^ 0 = enc % 64 by omega] at hdigits
    exact ⟨0, _, rfl, hdigits, fun h0 => absurd h0 (by decide)⟩

theorem decode64Step_decodes {input : List Nat} {st : BaseState}
    (h : base64.Decodes [0, 6, 4, 2] input st) {dec : Nat} (hdec : dec < 2 ^ 6) :
    base64.Decodes [0, 6, 4, 2] (input ++ [dec]) (decode64Step st dec) := by
  obtain ⟨k, rest, hmode, hreg, hleft⟩ := h
  obtain ⟨mode, left, out⟩ := st
  change Regrouped 6 8 k input out rest at hreg
  have hlt := hreg.rest_lt
  match mode, hmode with
  | 0, rfl =>
    exact ⟨6, _, rfl, hreg.read hdec, fun _ => show dec = rest * 2 ^ 6 + dec by omega⟩
  | 1, rfl =>
    obtain rfl : left = rest := hleft (by decide)
    have hdigit := hreg.digit 4 hdec rfl
    rw [show (left * 2 ^ 6 + dec) / 2 ^ 4 = left * 4 + dec / 16 by omega] at hdigit
    exact ⟨4, _, rfl, hdigit, fun _ => show dec % 16 = (left * 2 ^ 6 + dec) % 2 ^ 4 by omega⟩
  | 2, rfl =>
    obtain rfl : left = rest := hleft (by decide)
    have hdigit := hreg.digit 2 hdec rfl
    rw [show (left * 2 ^ 6 + dec) / 2 ^ 2 = left * 16 + dec / 4 by omega] at hdigit
    exact ⟨2, _, rfl, hdigit, fun _ => show dec % 4 = (left * 2 ^ 6 + dec) % 2 ^ 2 by omega⟩
  | 3, rfl =>
    obtain rfl : left = rest := hleft (by decide)
    have hdigit := hreg.digit 0 hdec rfl
    rw [show (left * 2 ^ 6 + dec) / 2 ^ 0 = left * 64 + dec by omega] at hdigit
    exact ⟨0, _, rfl, hdigit, fun h0 => absurd h0 (by decide)⟩

theorem decode64_table_some (c : UInt8) :
    ∀ d ∈ decode64_table c, d < 2 ^ 6 ∧ c = pbase64.getD d 0 := by
  have hall : ∀ n < 256, ∀ d ∈ decode64_table (UInt8.ofNat n),
      d < 2 ^ 6 ∧ UInt8.ofNat n = pbase64.getD d 0 := by decide +kernel
  exact forall_char (P := fun c => ∀ d ∈ decode64_table c, d < 2 ^ 6 ∧ c = pbase64.getD d 0) hall c

theorem base64_lawful : base64.Lawful [0, 2, 4] [0, 6, 4, 2] where
  width_le := by decide
  table_chars := by decide
  table_lt := fun c d h => (decode64_table_some c d h).1
  table_pad := by decide
  table_nul := by decide
  encode_start := rfl
  encode_zero := by decide
  encode_lt := by decide
  encodes := fun _ _ h _ henc => encode64Step_encodes h henc
  decode_start := rfl
  decode_lt := by decide
  decodes := fun _ _ h _ hdec => decode64Step_decodes h hdec
  required := by decide
  required_lt := by decide
  required_zero := by decide

theorem decode64_table_iff : ∀ c, ∀ d < 2 ^ 6, decode64_table c = some d ↔ c = pbase64.getD d 0 := by
  refine fun c d hd => ⟨fun h => (decode64_table_some c d h).2, ?_⟩
  rintro rfl
  exact base64_lawful.table_chars d hd

/-- `DecodeBase64` does not complain exactly when the string starts with the encoding of the bytes it
returns and no character of the table follows. -/
theorem decodeBase64_iff {str : Text} {v : List UInt8} :
    decodeBase64 str = (v, false) ↔
      ∃ rest, cStr str = encodeBase64 v ++ rest ∧ ∀ c ∈ rest.head?, decode64_table c = none := by
  have hmap := base64_lawful.decode_iff_map (f := id) decode64_table_iff (fun _ => Iff.rfl)
    str v
  simp only [List.map_id_fun, id] at hmap
  refine hmap.trans ⟨?_, ?_⟩
  · rintro ⟨text, rest, hstr, rfl, hrest⟩
    exact ⟨rest, hstr, hrest⟩
  · rintro ⟨rest, hstr, hrest⟩
    exact ⟨_, rest, hstr, rfl, hrest⟩

/-! ## Base 32 -/

/-- The body of the loop of `EncodeBase32`. -/
def encode32Step (st : BaseState) (enc : Nat) : BaseState :=
  match st.mode with
  | 0 => ⟨1, enc % 8 * 4, st.out ++ [enc / 8]⟩ -- we have no bits
  | 1 => ⟨2, enc % 2 * 16, st.out ++ [st.left + enc / 64, enc / 2 % 32]⟩ -- we have three bits
  | 2 => ⟨3, enc % 16 * 2, st.out ++ [st.left + enc / 16]⟩ -- we have one bit
  | 3 => ⟨4, enc % 4 * 8, st.out ++ [st.left + enc / 128, enc / 4 % 32]⟩ -- we have four bits
  | 4 => ⟨0, st.left, st.out ++ [st.left + enc / 32, enc % 32]⟩ -- we have two bits
  | _ => st

/-- The body of the loop of `DecodeBase32`. -/
def decode32Step (st : BaseState) (dec : Nat) : BaseState :=
  match st.mode with
  | 0 => ⟨1, dec, st.out⟩ -- we have no bits and get 5
  | 1 => ⟨2, dec % 4, st.out ++ [st.left * 8 + dec / 4]⟩ -- we have 5 bits and keep 2
  | 2 => ⟨3, st.left * 32 + dec, st.out⟩ -- we have 2 bits and keep 7
  | 3 => ⟨4, dec % 16, st.out ++ [st.left * 2 + dec / 16]⟩ -- we have 7 bits and keep 4
  | 4 => ⟨5, dec % 2, st.out ++ [st.left * 16 + dec / 2]⟩ -- we have 4 bits, and keep 1
  | 5 => ⟨6, st.left * 32 + dec, st.out⟩ -- we have 1 bit, and keep 6
  | 6 => ⟨7, dec % 8, st.out ++ [st.left * 4 + dec / 8]⟩ -- we have 6 bits, and keep 3
  | 7 => ⟨0, st.left, st.out ++ [st.left * 32 + dec]⟩ -- we have 3 bits, and keep 0
  | _ => st

/-- `pbase32`: small letters and the digits from 2 to 7. -/
def pbase32 : List UInt8 := (List.range' 97 26 ++ List.range' 50 6).map UInt8.ofNat

def decode32_table (c : UInt8) : Option Nat :=
  if 50 ≤ c ∧ c ≤ 55 then some (c.toNat - 24)
  else if 65 ≤ c ∧ c ≤ 90 then some (c.toNat - 65)
  else if 97 ≤ c ∧ c ≤ 122 then some (c.toNat - 97)
  else none

def base32 : BaseCode where
  width := 5
  chars := pbase32
  table := decode32_table
  encodeStep := encode32Step
  decodeStep := decode32Step
  nPadding mode := [0, 6, 4, 3, 1].getD mode 0
  required mode := match mode with
    | 0 => some 0 -- 8n base32 characters processed: ok
    | 2 => some 6 -- 8n+2: require '======'
    | 4 => some 4 -- 8n+4: require '===='
    | 5 => some 3 -- 8n+5: require '==='
    | 7 => some 1 -- 8n+7: require '='
    | _ => none -- 8n+1, +3, +6: impossible

def encodeBase32 : List UInt8 → Text := base32.encode

def decodeBase32 : Text → List UInt8 × Bool := base32.decode

theorem encode32Step_encodes {input : List Nat} {st : BaseState}
    (h : base32.Encodes [0, 3, 1, 4, 2] input st) {enc : Nat} (henc : enc < 2 ^ 8) :
    base32.Encodes [0, 3, 1, 4, 2] (input ++ [enc]) (encode32Step st enc) := by
  obtain ⟨k, rest, hmode, hreg, hleft⟩ := h
  obtain ⟨mode, left, out⟩ := st
  change Regrouped 8 5 k input out rest at hreg
  have hlt := hreg.rest_lt
  match mode, hmode with
  | 0, rfl =>
    have hdigit := hreg.digit 3 henc rfl
    rw [show (rest * 2 ^ 8 + enc) / 2 ^ 3 = enc / 8 by omega] at hdigit
    exact ⟨3, _, rfl, hdigit, fun _ => show enc % 8 * 4 = _ * 4 by omega⟩
  | 1, rfl =>
    have hleft : left = rest * 4 := hleft (by decide)
    have hdigits := hreg.twoDigits 1 henc rfl
    rw [show (rest * 2 ^ 8 + enc) / 2 ^ (5 + 1) = left + enc / 64 by omega,
      show (rest * 2 ^ 8 + enc) % 2 ^ (5 + 1) / 2 ^ 1 = enc / 2 % 32 by omega] at hdigits
    exact ⟨1, _, rfl, hdigits, fun _ => show enc % 2 * 16 = _ * 16 by omega⟩
  | 2, rfl =>
    have hleft : left = rest * 16 := hleft (by decide)
    have hdigit := hreg.digit 4 henc rfl
    rw [show (rest * 2 ^ 8 + enc) / 2 ^ 4 = left + enc / 16 by omega] at hdigit
    exact ⟨4, _, rfl, hdigit, fun _ => show enc % 16 * 2 = _ * 2 by omega⟩
  | 3, rfl =>
    have hleft : left = rest * 2 := hleft (by decide)
    have hdigits := hreg.twoDigits 2 henc rfl
    rw [show (rest * 2 ^ 8 + enc) / 2 ^ (5 + 2) = left + enc / 128 by omega,
      show (rest * 2 ^ 8 + enc) % 2 ^ (5 + 2) / 2 ^ 2 = enc / 4 % 32 by omega] at hdigits
    exact ⟨2, _, rfl, hdigits, fun _ => show enc % 4 * 8 = _ * 8 by omega⟩
  | 4, rfl =>
    have hleft : left = rest * 8 := hleft (by decide)
    have hdigits := hreg.twoDigits 0 henc rfl
    rw [show (rest * 2 ^ 8 + enc) / 2 ^ (5 + 0) = left + enc / 32 by omega,
      show (rest * 2 ^ 8 + enc) % 2 ^ (5 + 0) / 2 ^ 0 = enc % 32 by omega] at hdigits
    exact ⟨0, _, rfl, hdigits, fun h0 => absurd h0 (by decide)⟩

theorem decode32Step_decodes {input : List Nat} {st : BaseState}
    (h : base32.Decodes [0, 5, 2, 7, 4, 1, 6, 3] input st) {dec : Nat} (hdec : dec < 2 ^ 5) :
    base32.Decodes [0, 5, 2, 7, 4, 1, 6, 3] (input ++ [dec]) (decode32Step st dec) := by
  obtain ⟨k, rest, hmode, hreg, hleft⟩ := h
  obtain ⟨mode, left, out⟩ := st
  change Regrouped 5 8 k input out rest at hreg
  have hlt := hreg.rest_lt
  match mode, hmode with
  | 0, rfl =>
    exact ⟨5, _, rfl, hreg.read hdec, fun _ => show dec = rest * 2 ^ 5 + dec by omega⟩
  | 1, rfl =>
    obtain rfl : left = rest := hleft (by decide)
    have hdigit := hreg.digit 2 hdec rfl
    rw [show (left * 2 ^ 5 + dec) / 2 ^ 2 = left * 8 + dec / 4 by omega] at hdigit
    exact ⟨2, _, rfl, hdigit, fun _ => show dec % 4 = (left * 2 ^ 5 + dec) % 2 ^ 2 by omega⟩
  | 2, rfl =>
    obtain rfl : left = rest := hleft (by decide)
    exact ⟨7, _, rfl, hreg.read hdec, fun _ => show left * 32 + dec = left * 2 ^ 5 + dec by omega⟩
  | 3, rfl =>
    obtain rfl : left = rest := hleft (by decide)
    have hdigit := hreg.digit 4 hdec rfl
    rw [show (left * 2 ^ 5 + dec) / 2 ^ 4 = left * 2 + dec / 16 by omega] at hdigit
    exact ⟨4, _, rfl, hdigit, fun _ => show dec % 16 = (left * 2 ^ 5 + dec) % 2 ^ 4 by omega⟩
  | 4, rfl =>
    obtain rfl : left = rest := hleft (by decide)
    have hdigit := hreg.digit 1 hdec rfl
    rw [show (left * 2 ^ 5 + dec) / 2 ^ 1 = left * 16 + dec / 2 by omega] at hdigit
    exact ⟨1, _, rfl, hdigit, fun _ => show dec % 2 = (left * 2 ^ 5 + dec) % 2 ^ 1 by omega⟩
  | 5, rfl =>
    obtain rfl : left = rest := hleft (by decide)
    exact ⟨6, _, rfl, hreg.read hdec, fun _ => show left * 32 + dec = left * 2 ^ 5 + dec by omega⟩
  | 6, rfl =>
    obtain rfl : left = rest := hleft (by decide)
    have hdigit := hreg.digit 3 hdec rfl
    rw [show (left * 2 ^ 5 + dec) / 2 ^ 3 = left * 4 + dec / 8 by omega] at hdigit
    exact ⟨3, _, rfl, hdigit, fun _ => show dec % 8 = (left * 2 ^ 5 + dec) % 2 ^ 3 by omega⟩
  | 7, rfl =>
    obtain rfl : left = rest := hleft (by decide)
    have hdigit := hreg.digit 0 hdec rfl
    rw [show (left * 2 ^ 5 + dec) / 2 ^ 0 = left * 32 + dec by omega] at hdigit
    exact ⟨0, _, rfl, hdigit, fun h0 => absurd h0 (by decide)⟩

def toLower (c : UInt8) : UInt8 := if 65 ≤ c ∧ c ≤ 90 then c + 32 else c

theorem toLower_eq_pad (c : UInt8) : toLower c = 61 ↔ c = 61 := by
  unfold toLower
  split
  · rename_i h
    constructor
    · intro h61
      grind
    · rintro rfl
      exact absurd h (by decide)
  · rfl

/-- The table does not tell a capital letter from a small one. -/
theorem decode32_table_toLower (c : UInt8) : decode32_table (toLower c) = decode32_table c := by
  unfold toLower
  split
  · rename_i h
    simp only [UInt8.le_iff_toNat_le] at h
    change 65 ≤ c.toNat ∧ c.toNat ≤ 90 at h
    have hlower : (c + 32).toNat = c.toNat + 32 := by
      rw [UInt8.toNat_add]
      exact Nat.mod_eq_of_lt (show c.toNat + 32 < 256 by omega)
    unfold decode32_table
    simp only [UInt8.le_iff_toNat_le, hlower]
    grind
  · rfl

theorem decode32_table_some (c : UInt8) :
    ∀ d ∈ decode32_table c, d < 2 ^ 5 ∧ toLower c = pbase32.getD d 0 := by
  have hall : ∀ n < 256, ∀ d ∈ decode32_table (UInt8.ofNat n),
      d < 2 ^ 5 ∧ toLower (UInt8.ofNat n) = pbase32.getD d 0 := by decide +kernel
  exact forall_char (P := fun c => ∀ d ∈ decode32_table c, d < 2 ^ 5 ∧ toLower c = pbase32.getD d 0)
    hall c

theorem base32_lawful : base32.Lawful [0, 3, 1, 4, 2] [0, 5, 2, 7, 4, 1, 6, 3] where
  width_le := by decide
  table_chars := by decide
  table_lt := fun c d h => (decode32_table_some c d h).1
  table_pad := by decide
  table_nul := by decide
  encode_start := rfl
  encode_zero := by decide
  encode_lt := by decide
  encodes := fun _ _ h _ henc => encode32Step_encodes h henc
  decode_start := rfl
  decode_lt := by decide
  decodes := fun _ _ h _ hdec => decode32Step_decodes h hdec
  required := by decide
  required_lt := by decide
  required_zero := by decide

theorem decode32_table_iff :
    ∀ c, ∀ d < 2 ^ 5, decode32_table c = some d ↔ toLower c = pbase32.getD d 0 := by
  refine fun c d hd => ⟨fun h => (decode32_table_some c d h).2, fun h => ?_⟩
  rw [← decode32_table_toLower c, h]
  exact base32_lawful.table_chars d hd

/-- `DecodeBase32` does not complain exactly when the string starts with the encoding of the bytes it
returns, in letters of either case, and no character of the table follows. -/
theorem decodeBase32_iff {str : Text} {v : List UInt8} :
    decodeBase32 str = (v, false) ↔
      ∃ text rest, cStr str = text ++ rest ∧ text.map toLower = encodeBase32 v ∧
        ∀ c ∈ rest.head?, decode32_table c = none :=
  base32_lawful.decode_iff_map decode32_table_iff toLower_eq_pad str v

/-- What was encoded is decoded; and the decoders complain unless the string starts with the encoding
of what they return, for base 32 in letters of either case, and no character of their table
follows. -/
theorem decode_base_iff :
    (∀ v, decodeBase64 (encodeBase64 v) = (v, false) ∧ decodeBase32 (encodeBase32 v) = (v, false)) ∧
    (∀ str v, decodeBase64 str = (v, false) ↔
      ∃ rest, cStr str = encodeBase64 v ++ rest ∧ ∀ c ∈ rest.head?, decode64_table c = none) ∧
    (∀ str v, decodeBase32 str = (v, false) ↔
      ∃ text rest, cStr str = text ++ rest ∧ text.map toLower = encodeBase32 v ∧
        ∀ c ∈ rest.head?, decode32_table c = none) :=
  ⟨fun v => ⟨base64_lawful.decode_encode v, base32_lawful.decode_encode v⟩,
    fun _ _ => decodeBase64_iff, fun _ _ => decodeBase32_iff⟩

/-- `QUI=!` is decoded to `AB` although `QUI=` is its encoding, and `MY======` to `f` although
`my======` is. -/
theorem decode_base_not_exact :
    (¬ ∀ str v, decodeBase64 str = (v, false) → str = encodeBase64 v) ∧
    ¬ ∀ str v, decodeBase32 str = (v, false) → str = encodeBase32 v := by
  constructor
  · intro h
    exact absurd (h [81, 85, 73, 61, 33] [65, 66] (by decide)) (by decide)
  · intro h
    exact absurd (h [77, 89, 61, 61, 61, 61, 61, 61] [102] (by decide)) (by decide)

end Terracoin
