import Terracoin.Lib.Radix

/-!
# Natural numbers in DER

The contents of a DER integer are its bytes in base 256, the highest first. A natural number has a
first byte below 128, and a zero in front only if it would have none without it. `Minimal` says this
of bytes, and `natContents` writes a number; the minimal contents are exactly those of the numbers
(`natContents_value` and `value_natContents`).
-/

namespace Der

open Radix

variable {n : Nat} {b : UInt8} {contents contents' : List UInt8}

/-- The number that the contents of an integer make. -/
def value (contents : List UInt8) : Nat := bigValue 256 (contents.map UInt8.toNat)

def digitBytes (n : Nat) : List UInt8 := (bigDigits 256 n).map UInt8.ofNat

def natContents (n : Nat) : List UInt8 :=
  match digitBytes n with
  | [] => [0]
  | b :: bytes => if 128 ≤ b.toNat then 0 :: b :: bytes else b :: bytes

/-- The contents of a natural number, in as few bytes as there can be. -/
structure Minimal (contents : List UInt8) : Prop where
  ne_nil : contents ≠ []
  nonneg : ∀ b ∈ contents.head?, b.toNat < 128
  no_padding : ∀ b rest, contents = 0 :: b :: rest → 128 ≤ b.toNat

/-- A tagged value whose length is written in one byte. -/
def tlv (tag : UInt8) (contents : List UInt8) : List UInt8 :=
  tag :: UInt8.ofNat contents.length :: contents

@[simp] theorem length_tlv (tag : UInt8) (contents : List UInt8) :
    (tlv tag contents).length = contents.length + 2 := rfl

theorem map_toNat_digitBytes (n : Nat) : (digitBytes n).map UInt8.toNat = bigDigits 256 n := by
  rw [digitBytes, List.map_map]
  conv_rhs => rw [← List.map_id (bigDigits 256 n)]
  apply List.map_congr_left
  intro d hd
  exact UInt8.toNat_ofNat_of_lt' (bigDigits_lt (by decide) d hd)

@[simp] theorem value_digitBytes (n : Nat) : value (digitBytes n) = n := by
  rw [value, map_toNat_digitBytes, bigValue_bigDigits]

theorem head_digitBytes {bytes : List UInt8} (h : digitBytes n = b :: bytes) : b ≠ 0 := by
  have hdigits := map_toNat_digitBytes n
  rw [h, List.map_cons] at hdigits
  have hne := head_bigDigits 256 n b.toNat (by rw [← hdigits]; rfl)
  intro hzero
  exact hne (by rw [hzero]; rfl)

theorem digitBytes_value (h : ∀ b ∈ contents.head?, b ≠ 0) :
    digitBytes (value contents) = contents := by
  have hhead : ∀ d ∈ (contents.map UInt8.toNat).head?, d ≠ 0 := by
    intro d hd
    rw [List.head?_map] at hd
    obtain ⟨b, hb, rfl⟩ := Option.map_eq_some_iff.mp hd
    intro hzero
    exact h b hb (UInt8.toNat_inj.mp hzero)
  have hlt : ∀ d ∈ contents.map UInt8.toNat, d < 256 := by
    intro d hd
    obtain ⟨b, -, rfl⟩ := List.mem_map.mp hd
    exact b.toNat_lt
  rw [digitBytes, value, bigDigits_bigValue (by decide) hlt hhead, List.map_map]
  conv_rhs => rw [← List.map_id contents]
  apply List.map_congr_left
  intro b _
  exact UInt8.ofNat_toNat

theorem value_zero_cons (contents : List UInt8) : value (0 :: contents) = value contents :=
  bigValue_zeros 256 1 (contents.map UInt8.toNat)

/-! ## The contents -/

theorem minimal_natContents (n : Nat) : Minimal (natContents n) := by
  unfold natContents
  cases h : digitBytes n with
  | nil =>
    refine ⟨List.cons_ne_nil _ _, fun b hb => ?_, fun b rest heq => ?_⟩
    · obtain rfl := Option.some.inj hb
      decide
    · cases heq
  | cons b bytes =>
    dsimp only
    split
    · next hhigh =>
      refine ⟨List.cons_ne_nil _ _, fun c hc => ?_, fun c rest heq => ?_⟩
      · obtain rfl := Option.some.inj hc
        decide
      · rw [← (List.cons.inj (List.cons.inj heq).2).1]
        exact hhigh
    · next hlow =>
      refine ⟨List.cons_ne_nil _ _, fun c hc => ?_, fun c rest heq => ?_⟩
      · obtain rfl := Option.some.inj hc
        exact Nat.lt_of_not_le hlow
      · exact absurd (List.cons.inj heq).1 (head_digitBytes h)

theorem value_natContents (n : Nat) : value (natContents n) = n := by
  have hvalue := value_digitBytes n
  unfold natContents
  cases h : digitBytes n with
  | nil =>
    rw [h] at hvalue
    exact hvalue
  | cons b bytes =>
    rw [h] at hvalue
    dsimp only
    split
    · rw [value_zero_cons, hvalue]
    · exact hvalue

theorem natContents_value (h : Minimal contents) : natContents (value contents) = contents := by
  obtain _ | ⟨b, bytes⟩ := contents
  · exact absurd rfl h.ne_nil
  by_cases hb : b = 0
  · subst hb
    obtain _ | ⟨c, rest⟩ := bytes
    · decide
    · -- the zero is there because of the byte after it
      have hhigh : 128 ≤ c.toNat := h.no_padding c rest rfl
      have hdigits : digitBytes (value (c :: rest)) = c :: rest := by
        apply digitBytes_value
        intro d hd
        obtain rfl := Option.some.inj hd
        intro hzero
        rw [hzero] at hhigh
        exact absurd hhigh (by decide)
      rw [value_zero_cons, natContents, hdigits]
      exact if_pos hhigh
  · have hdigits : digitBytes (value (b :: bytes)) = b :: bytes := by
      apply digitBytes_value
      intro d hd
      obtain rfl := Option.some.inj hd
      exact hb
    rw [natContents, hdigits]
    exact if_neg (Nat.not_le.mpr (h.nonneg b rfl))

theorem natContents_inj {m : Nat} : natContents n = natContents m ↔ n = m := by
  constructor
  · intro h
    rw [← value_natContents n, h, value_natContents]
  · exact congrArg natContents

theorem minimal_iff : Minimal contents ↔ ∃ n, contents = natContents n := by
  constructor
  · intro h
    exact ⟨value contents, (natContents_value h).symm⟩
  · rintro ⟨n, rfl⟩
    exact minimal_natContents n

end Der
