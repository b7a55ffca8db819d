import Terracoin.Lib.Regroup
import Terracoin.Serialize.Text

/-!
# Codecs with padding

What `EncodeBase64` and `EncodeBase32`, and what `DecodeBase64` and `DecodeBase32` have in common: a
loop over a state with a mode and the bits that are left, and padding that depends on the mode the
loop ends in. A code is a `BaseCode`; what its tables and its loop bodies have to satisfy is
`BaseCode.Lawful`, and `BaseCode.decode_iff` says what the decoder accepts without complaint.
-/

namespace Terracoin

open Regroup

/-- `mode`, `left`, and the numbers of the characters or bytes put out so far. -/
structure BaseState where
  mode : Nat
  left : Nat
  out : List Nat
  deriving DecidableEq, Repr

structure BaseCode where
  /-- The bits of a character. -/
  width : Nat
  /-- The table of the encoder. -/
  chars : List UInt8
  /-- The table of the decoder, `none` for its `-1`. -/
  table : UInt8 → Option Nat
  /-- The body of the loop of the encoder. -/
  encodeStep : BaseState → Nat → BaseState
  /-- The body of the loop of the decoder. -/
  decodeStep : BaseState → Nat → BaseState
  /-- The number of `=` that the encoder puts behind the text that ends in a mode. -/
  nPadding : Nat → Nat
  /-- The number of `=` that the decoder requires behind a text that ends in a mode, `none` if none
  does. -/
  required : Nat → Option Nat

namespace BaseCode

def start : BaseState := ⟨0, 0, []⟩

def encoded (B : BaseCode) (v : List UInt8) : BaseState :=
  (v.map UInt8.toNat).foldl B.encodeStep start

/-- The numbers of all characters: a mode other than 0 puts out the bits that are left. -/
def digits (B : BaseCode) (v : List UInt8) : List Nat :=
  if (B.encoded v).mode ≠ 0 then (B.encoded v).out ++ [(B.encoded v).left] else (B.encoded v).out

def encode (B : BaseCode) (v : List UInt8) : Text :=
  (B.digits v).map (B.chars.getD · 0) ++ List.replicate (B.nPadding (B.encoded v).mode) 61

/-- The loop stops at the first character that is not in the table. -/
def decodeLoop (B : BaseCode) : BaseState → Text → BaseState × Text
  | st, [] => (st, [])
  | st, c :: p =>
    match B.table c with
    | none => (st, c :: p)
    | some dec => decodeLoop B (B.decodeStep st dec) p

/-- `n` characters `=` and then none that is in the table; behind its end a string has a NUL. -/
def isPadded (B : BaseCode) (n : Nat) (p : Text) : Bool :=
  p.take n == List.replicate n 61 && (B.table (p.getD n 0)).isNone

/-- `*pfInvalid` after the loop. -/
def isInvalid (B : BaseCode) (st : BaseState) (p : Text) : Bool :=
  match B.required st.mode with
  | none => true
  | some 0 => false
  | some n => st.left != 0 || !B.isPadded n p

/-- What the decoder returns and `*pfInvalid`. -/
def decode (B : BaseCode) (str : Text) : List UInt8 × Bool :=
  let r := B.decodeLoop start (cStr str)
  (r.1.out.map UInt8.ofNat, B.isInvalid r.1 r.2)

/-! ## What a code has to satisfy -/

/-- A loop has put the digits `input` into others; its mode says how many bits are left, and `left`
holds them as `leftOf` says. -/
def Converts (a b : Nat) (modeBits : List Nat) (leftOf : Nat → Nat → Nat) (input : List Nat)
    (st : BaseState) : Prop :=
  ∃ k rest, modeBits[st.mode]? = some k ∧ Regrouped a b k input st.out rest ∧
    (0 < k → st.left = leftOf k rest)

/-- The encoder keeps the bits in the high places of the next character. -/
def Encodes (B : BaseCode) (modeBits : List Nat) : List Nat → BaseState → Prop :=
  Converts 8 B.width modeBits fun k rest => rest * 2 ^ (B.width - k)

def Decodes (B : BaseCode) (modeBits : List Nat) : List Nat → BaseState → Prop :=
  Converts B.width 8 modeBits fun _ rest => rest

/-- How many bits the last character has too many when `k` bits are left for it. -/
def bitsToFill (width k : Nat) : Nat := if k = 0 then 0 else width - k

structure Lawful (B : BaseCode) (encodeBits decodeBits : List Nat) : Prop where
  width_le : B.width ≤ 8
  table_chars : ∀ d < 2 ^ B.width, B.table (B.chars.getD d 0) = some d
  table_lt : ∀ c d, B.table c = some d → d < 2 ^ B.width
  table_pad : B.table 61 = none
  table_nul : B.table 0 = none
  encode_start : encodeBits[0]? = some 0
  encode_zero : ∀ mode < encodeBits.length, encodeBits.getD mode 0 = 0 → mode = 0
  encode_lt : ∀ k ∈ encodeBits, k < B.width
  encodes : ∀ input st, B.Encodes encodeBits input st → ∀ enc < 2 ^ 8,
    B.Encodes encodeBits (input ++ [enc]) (B.encodeStep st enc)
  decode_start : decodeBits[0]? = some 0
  decode_lt : ∀ k ∈ decodeBits, k < 8
  decodes : ∀ input st, B.Decodes decodeBits input st → ∀ dec < 2 ^ B.width,
    B.Decodes decodeBits (input ++ [dec]) (B.decodeStep st dec)
  /-- The decoder requires the padding of the encoder when the text ends with as many bits too many
  as the encoder fills in. -/
  required : ∀ mode < encodeBits.length, ∀ mode' < decodeBits.length,
    decodeBits.getD mode' 0 = bitsToFill B.width (encodeBits.getD mode 0) →
      B.required mode' = some (B.nPadding mode)
  required_lt : ∀ mode < decodeBits.length, B.required mode ≠ none →
    decodeBits.getD mode 0 < B.width
  required_zero : ∀ mode < decodeBits.length,
    (B.required mode = some 0 ↔ decodeBits.getD mode 0 = 0)

variable {B : BaseCode} {encodeBits decodeBits : List Nat}

theorem getD_of_getElem? {bits : List Nat} {mode k : Nat} (h : bits[mode]? = some k) :
    mode < bits.length ∧ bits.getD mode 0 = k := by
  refine ⟨(List.getElem?_eq_some_iff.mp h).1, ?_⟩
  rw [List.getD_eq_getElem?_getD, h]
  rfl

/-! ## What the loops leave -/

theorem converts_start {a b : Nat} {modeBits : List Nat} {leftOf : Nat → Nat → Nat}
    (h : modeBits[0]? = some 0) : Converts a b modeBits leftOf [] start :=
  ⟨0, 0, h, .nil a b, fun h0 => absurd h0 (Nat.lt_irrefl 0)⟩

theorem Lawful.encodes_foldl (h : B.Lawful encodeBits decodeBits) {input bytes : List Nat}
    {st : BaseState} (hst : B.Encodes encodeBits input st) (hbytes : ∀ d ∈ bytes, d < 2 ^ 8) :
    B.Encodes encodeBits (input ++ bytes) (bytes.foldl B.encodeStep st) := by
  induction bytes generalizing input st with
  | nil =>
    rw [List.append_nil]
    exact hst
  | cons d bytes ih =>
    obtain ⟨hd, hbytes⟩ := List.forall_mem_cons.mp hbytes
    rw [List.foldl_cons, ← List.singleton_append, ← List.append_assoc]
    exact ih (h.encodes input st hst d hd) hbytes

theorem Lawful.decodes_foldl (h : B.Lawful encodeBits decodeBits) {input digits : List Nat}
    {st : BaseState} (hst : B.Decodes decodeBits input st) (hdigits : ∀ d ∈ digits, d < 2 ^ B.width) :
    B.Decodes decodeBits (input ++ digits) (digits.foldl B.decodeStep st) := by
  induction digits generalizing input st with
  | nil =>
    rw [List.append_nil]
    exact hst
  | cons d digits ih =>
    obtain ⟨hd, hdigits⟩ := List.forall_mem_cons.mp hdigits
    rw [List.foldl_cons, ← List.singleton_append, ← List.append_assoc]
    exact ih (h.decodes input st hst d hd) hdigits

theorem toNat_lt_of_mem {v : List UInt8} : ∀ d ∈ v.map UInt8.toNat, d < 2 ^ 8 := by
  intro d hd
  obtain ⟨c, -, rfl⟩ := List.mem_map.mp hd
  exact c.toNat_lt

/-- The characters of the encoder are those of the padded text. -/
theorem Lawful.digits_padded (h : B.Lawful encodeBits decodeBits) (v : List UInt8) :
    ∃ k, encodeBits[(B.encoded v).mode]? = some k ∧
      Padded B.width (bitsToFill B.width k) (v.map UInt8.toNat) (B.digits v) := by
  obtain ⟨k, rest, hmode, hregrouped, hleft⟩ :=
    h.encodes_foldl (converts_start h.encode_start) (toNat_lt_of_mem (v := v))
  have hpadded := hregrouped.padded (h.encode_lt k (List.mem_of_getElem? hmode))
  refine ⟨k, hmode, ?_⟩
  have hdigits : B.digits v = if k = 0 then (B.encoded v).out
      else (B.encoded v).out ++ [rest * 2 ^ (B.width - k)] := by
    unfold digits
    split
    · rename_i hne
      have hk : k ≠ 0 := by
        rintro rfl
        obtain ⟨hlt, hk⟩ := getD_of_getElem? hmode
        exact hne (h.encode_zero _ hlt hk)
      rw [if_neg hk, encoded, hleft (Nat.pos_of_ne_zero hk)]
    · rename_i hzero
      rw [not_not] at hzero
      have hk : k = 0 := by
        have h0 := h.encode_start
        unfold encoded at hzero
        rw [hzero, h0, Option.some.injEq] at hmode
        exact hmode.symm
      rw [if_pos hk]
  rw [hdigits]
  exact hpadded

/-- The loop of the decoder takes the characters that are in the table. -/
theorem decodeLoop_append (st : BaseState) {text rest : Text} {digits : List Nat}
    (htext : text.map B.table = digits.map some) (hrest : ∀ c ∈ rest.head?, B.table c = none) :
    B.decodeLoop st (text ++ rest) = (digits.foldl B.decodeStep st, rest) := by
  induction text generalizing st digits with
  | nil =>
    obtain rfl : digits = [] := List.map_eq_nil_iff.mp htext.symm
    cases rest with
    | nil => rfl
    | cons c rest =>
      rw [List.nil_append, decodeLoop, hrest c rfl]
      rfl
  | cons c text ih =>
    cases digits with
    | nil => cases htext
    | cons d digits =>
      obtain ⟨hc, htext⟩ := List.cons_eq_cons.mp htext
      rw [List.cons_append, decodeLoop, hc, List.foldl_cons]
      exact ih _ htext

theorem exists_decoded (B : BaseCode) (p : Text) : ∃ (text rest : Text) (digits : List Nat), p = text ++ rest ∧
    text.map B.table = digits.map some ∧ ∀ c ∈ rest.head?, B.table c = none := by
  induction p with
  | nil => exact ⟨[], [], [], rfl, rfl, fun c hc => absurd hc (Option.not_mem_none c)⟩
  | cons c p ih =>
    cases hc : B.table c with
    | none =>
      refine ⟨[], c :: p, [], rfl, rfl, fun d hd => ?_⟩
      obtain rfl := Option.some.inj hd
      exact hc
    | some d =>
      obtain ⟨text, rest, digits, rfl, htext, hrest⟩ := ih
      exact ⟨c :: text, rest, d :: digits, rfl, by rw [List.map_cons, hc, htext]; rfl, hrest⟩

theorem Lawful.digits_lt (h : B.Lawful encodeBits decodeBits) {text : Text} {digits : List Nat}
    (htext : text.map B.table = digits.map some) : ∀ d ∈ digits, d < 2 ^ B.width := by
  intro d hd
  have hmem : some d ∈ text.map B.table := by
    rw [htext]
    exact List.mem_map_of_mem hd
  obtain ⟨c, -, hc⟩ := List.mem_map.mp hmem
  exact h.table_lt c d hc

/-- `n` characters `=` are behind the text, and then none that is in the table. -/
theorem Lawful.isPadded_iff (h : B.Lawful encodeBits decodeBits) {n : Nat} {p : Text} :
    B.isPadded n p = true ↔
      ∃ rest, p = List.replicate n 61 ++ rest ∧ ∀ c ∈ rest.head?, B.table c = none := by
  rw [isPadded, Bool.and_eq_true, beq_iff_eq, Option.isNone_iff_eq_none]
  constructor
  · rintro ⟨htake, hnext⟩
    refine ⟨p.drop n, ?_, fun c hc => ?_⟩
    · rw [← htake, List.take_append_drop]
    · rw [List.head?_drop] at hc
      rw [List.getD_eq_getElem?_getD, Option.mem_def.mp hc] at hnext
      exact hnext
  · rintro ⟨rest, rfl, hrest⟩
    refine ⟨List.take_left' List.length_replicate, ?_⟩
    rw [List.getD_eq_getElem?_getD, List.getElem?_append_right (by rw [List.length_replicate]),
      List.length_replicate, Nat.sub_self]
    cases rest with
    | nil => exact h.table_nul
    | cons c rest => exact hrest c rfl

/-! ## What the decoder accepts -/

/-- The decoder does not complain exactly when the string starts with the characters for the bytes it
returns and their padding, and no character of the table follows. -/
theorem Lawful.decode_iff (h : B.Lawful encodeBits decodeBits) {str : Text} {v : List UInt8} :
    B.decode str = (v, false) ↔
      ∃ text rest, cStr str = text ++ List.replicate (B.nPadding (B.encoded v).mode) 61 ++ rest ∧
        text.map B.table = (B.digits v).map some ∧ ∀ c ∈ rest.head?, B.table c = none := by
  obtain ⟨kv, hmodev, hpadded⟩ := h.digits_padded v
  obtain ⟨hmodevlt, hmodevk⟩ := getD_of_getElem? hmodev
  constructor
  · intro hdecode
    obtain ⟨text, p, digits, hstr, htext, hp⟩ := exists_decoded B (cStr str)
    have hlt := h.digits_lt htext
    obtain ⟨k, rest, hmode, hregrouped, hleft⟩ := h.decodes_foldl (converts_start h.decode_start) hlt
    rw [decode, hstr, decodeLoop_append start htext hp] at hdecode
    generalize digits.foldl B.decodeStep start = st at hmode hregrouped hleft hdecode
    rw [List.nil_append] at hregrouped
    obtain ⟨rfl, hvalid⟩ := Prod.mk.inj hdecode
    obtain ⟨hmodelt, hmodek⟩ := getD_of_getElem? hmode
    have hzero_iff := h.required_zero _ hmodelt
    rw [hmodek] at hzero_iff
    unfold isInvalid at hvalid
    -- whatever padding is required, nothing is left and the padding is there
    have hok : ∃ n, B.required st.mode = some n ∧ rest = 0 ∧
        ∃ rest', p = List.replicate n 61 ++ rest' ∧ ∀ c ∈ rest'.head?, B.table c = none := by
      split at hvalid
      · cases hvalid
      · rename_i hzero
        obtain rfl := hzero_iff.mp hzero
        have hrest := hregrouped.rest_lt
        exact ⟨0, hzero, by omega, p, rfl, hp⟩
      · rename_i n hne hsome
        have hk : 0 < k := by
          rcases Nat.eq_zero_or_pos k with rfl | hk
          · have hzero := hzero_iff.mpr rfl
            rw [hsome, Option.some.injEq] at hzero
            exact absurd hzero hne
          · exact hk
        rw [Bool.or_eq_false_iff, bne_eq_false_iff_eq, Bool.not_eq_false', h.isPadded_iff,
          hleft hk] at hvalid
        exact ⟨n, hsome, hvalid.1, hvalid.2⟩
    obtain ⟨n, hrequired, rfl, rest', hpadding, hrest'⟩ := hok
    have hk := h.required_lt _ hmodelt (by rw [hrequired]; exact Option.some_ne_none n)
    rw [hmodek] at hk
    have hbytes : (st.out.map UInt8.ofNat).map UInt8.toNat = st.out := by
      rw [List.map_map]
      refine (List.map_congr_left fun d hd => ?_).trans (List.map_id _)
      exact UInt8.toNat_ofNat_of_lt' (hregrouped.output_lt d hd)
    rw [hbytes] at hpadded
    obtain ⟨hdigits, hpad⟩ := (hregrouped.padded_of_read hk hlt).digits_unique hpadded
    have hn := h.required _ hmodevlt _ hmodelt (by rw [hmodek, hmodevk]; exact hpad)
    rw [hrequired, Option.some.injEq] at hn
    refine ⟨text, rest', ?_, ?_, hrest'⟩
    · rw [hstr, hpadding, ← hn, List.append_assoc]
    · rw [htext, hdigits]
  · rintro ⟨text, rest, hstr, htext, hrest⟩
    generalize hn : B.nPadding (B.encoded v).mode = n at hstr
    have hlt := h.digits_lt htext
    obtain ⟨k, left, hmode, hregrouped, hleft⟩ := h.decodes_foldl (converts_start h.decode_start) hlt
    have hp : ∀ c ∈ (List.replicate n 61 ++ rest).head?, B.table c = none := by
      cases n with
      | zero => exact hrest
      | succ n =>
        intro c hc
        obtain rfl := Option.some.inj hc
        exact h.table_pad
    rw [List.append_assoc] at hstr
    rw [decode, hstr, decodeLoop_append start htext hp]
    generalize (B.digits v).foldl B.decodeStep start = st at hmode hregrouped hleft ⊢
    rw [List.nil_append] at hregrouped
    obtain ⟨hout, rfl, hk⟩ := hpadded.bytes_unique h.width_le toNat_lt_of_mem hregrouped
      (h.decode_lt k (List.mem_of_getElem? hmode))
    obtain ⟨hmodelt, hmodek⟩ := getD_of_getElem? hmode
    have hrequired := h.required _ hmodevlt _ hmodelt (by rw [hmodek, hmodevk]; exact hk)
    rw [hn] at hrequired
    dsimp only
    congr 1
    · rw [hout, List.map_map]
      refine (List.map_congr_left fun c _ => ?_).trans (List.map_id _)
      exact UInt8.ofNat_toNat
    · rw [isInvalid, hrequired]
      cases n with
      | zero => rfl
      | succ n =>
        have hpos : 0 < k := by
          rcases Nat.eq_zero_or_pos k with rfl | hpos
          · have hzero := (h.required_zero _ hmodelt).mpr hmodek
            rw [hrequired, Option.some.injEq] at hzero
            exact absurd hzero (Nat.succ_ne_zero n)
          · exact hpos
        have hpadding := h.isPadded_iff.mpr ⟨rest, (rfl : _ = List.replicate (n + 1) 61 ++ rest), hrest⟩
        have hleft : st.left = 0 := hleft hpos
        change (st.left != 0 || !B.isPadded (n + 1) (List.replicate (n + 1) 61 ++ rest)) = false
        rw [hleft, hpadding]
        rfl

/-- The characters of a text, each taken for the one that `f` makes of it. -/
theorem map_table_iff {f : UInt8 → UInt8} {text : Text} {digits : List Nat}
    (hf : ∀ c, ∀ d ∈ digits, B.table c = some d ↔ f c = B.chars.getD d 0) :
    text.map B.table = digits.map some ↔ text.map f = digits.map (B.chars.getD · 0) := by
  induction text generalizing digits with
  | nil =>
    cases digits with
    | nil => exact ⟨fun _ => rfl, fun _ => rfl⟩
    | cons d digits => exact ⟨fun h => (by cases h), fun h => (by cases h)⟩
  | cons c text ih =>
    cases digits with
    | nil => exact ⟨fun h => (by cases h), fun h => (by cases h)⟩
    | cons d digits =>
      rw [List.map_cons, List.map_cons, List.map_cons, List.map_cons, List.cons_eq_cons,
        List.cons_eq_cons, hf c d List.mem_cons_self,
        ih fun c d hd => hf c d (List.mem_cons_of_mem _ hd)]

/-- The decoder does not complain exactly when the string starts with the encoding of the bytes it
returns, up to what `f` does to a character, and no character of the table follows. -/
theorem Lawful.decode_iff_map (h : B.Lawful encodeBits decodeBits) {f : UInt8 → UInt8}
    (hf : ∀ c, ∀ d < 2 ^ B.width, B.table c = some d ↔ f c = B.chars.getD d 0)
    (hpad : ∀ c, f c = 61 ↔ c = 61) (str : Text) (v : List UInt8) :
    B.decode str = (v, false) ↔
      ∃ text rest, cStr str = text ++ rest ∧ text.map f = B.encode v ∧
        ∀ c ∈ rest.head?, B.table c = none := by
  obtain ⟨k, -, hpadded⟩ := h.digits_padded v
  have htable : ∀ text : Text, text.map B.table = (B.digits v).map some ↔
      text.map f = (B.digits v).map (B.chars.getD · 0) := fun text =>
    map_table_iff fun c d hd => hf c d (hpadded.digits_lt d hd)
  rw [h.decode_iff]
  constructor
  · rintro ⟨text, rest, hstr, htext, hrest⟩
    refine ⟨text ++ List.replicate (B.nPadding (B.encoded v).mode) 61, rest, hstr, ?_, hrest⟩
    rw [List.map_append, (htable text).mp htext, List.map_replicate, (hpad 61).mpr rfl, encode]
  · rintro ⟨text, rest, hstr, htext, hrest⟩
    obtain ⟨chars, padding, rfl, hchars, hpadding⟩ := List.map_eq_append_iff.mp htext
    refine ⟨chars, rest, ?_, (htable chars).mpr hchars, hrest⟩
    rw [hstr]
    congr 2
    have hlen := congrArg List.length hpadding
    rw [List.length_map, List.length_replicate] at hlen
    refine List.eq_replicate_iff.mpr ⟨hlen, fun c hc => (hpad c).mp ?_⟩
    have hmem := List.mem_map_of_mem (f := f) hc
    rw [hpadding] at hmem
    exact List.eq_of_mem_replicate hmem

theorem Lawful.cStr_encode (h : B.Lawful encodeBits decodeBits) (v : List UInt8) :
    cStr (B.encode v) = B.encode v := by
  obtain ⟨k, -, hpadded⟩ := h.digits_padded v
  refine List.takeWhile_eq_self_iff.mpr fun c hc => decide_eq_true ?_
  rintro rfl
  rcases List.mem_append.mp hc with hc | hc
  · obtain ⟨d, hd, hchar⟩ := List.mem_map.mp hc
    have htable := h.table_chars d (hpadded.digits_lt d hd)
    rw [hchar, h.table_nul] at htable
    cases htable
  · exact absurd (List.eq_of_mem_replicate hc) (by decide)

theorem Lawful.decode_encode (h : B.Lawful encodeBits decodeBits) (v : List UInt8) :
    B.decode (B.encode v) = (v, false) := by
  obtain ⟨k, -, hpadded⟩ := h.digits_padded v
  refine h.decode_iff.mpr ⟨(B.digits v).map (B.chars.getD · 0), [], ?_, ?_, ?_⟩
  · rw [h.cStr_encode, List.append_nil, encode]
  · rw [List.map_map]
    exact List.map_congr_left fun d hd => h.table_chars d (hpadded.digits_lt d hd)
  · exact fun c hc => absurd hc (Option.not_mem_none c)

end BaseCode

end Terracoin
