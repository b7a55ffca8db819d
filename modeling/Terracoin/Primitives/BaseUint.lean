import Terracoin.Lib.Limbs
import Mathlib.Data.Int.ModEq

/-!
# Numbers of many bits

`base_uint` of `uint256.h`: `WIDTH` limbs of 32 bits, the lowest first, and the operators on them as
loops over the limbs. They are those of the numbers modulo `2 ^ BITS` (`baseUint_spec`), for every
width and every amount of a shift. The operators with an `uint64` need two limbs at least.
-/

namespace Terracoin

open Limbs

/-- `base_uint<BITS>`, with `WIDTH = BITS / 32`. -/
structure BaseUint (WIDTH : Nat) where
  pn : Vector UInt32 WIDTH
deriving DecidableEq

namespace BaseUint

variable {WIDTH : Nat}

/-! ## Operators -/

def zero (WIDTH : Nat) : BaseUint WIDTH := ⟨Vector.replicate WIDTH 0⟩

/-- `pn[i] |= x`, unless there is no such limb. -/
def orLimb (a : BaseUint WIDTH) (i : Nat) (x : UInt32) : BaseUint WIDTH :=
  if h : i < WIDTH then ⟨a.pn.set i (a.pn[i] ||| x)⟩ else a

/-- `operator~`. -/
def not (a : BaseUint WIDTH) : BaseUint WIDTH :=
  Fin.foldl WIDTH (fun ret i => ⟨ret.pn.set i (~~~ a.pn[i])⟩) (zero WIDTH)

/-- The loop of the prefix `operator++`, at the limb `i`. -/
def incLoop (a : BaseUint WIDTH) (i : Nat) (h : i < WIDTH) : BaseUint WIDTH :=
  let a : BaseUint WIDTH := ⟨a.pn.set i (a.pn[i] + 1)⟩
  if h' : a.pn[i] = 0 ∧ i + 1 < WIDTH then incLoop a (i + 1) h'.2 else a
termination_by WIDTH - i

/-- `operator++`. -/
def inc (a : BaseUint WIDTH) : BaseUint WIDTH := if h : 0 < WIDTH then incLoop a 0 h else a

/-- The loop of the prefix `operator--`, at the limb `i`; `-1` is compared as an `unsigned int`. -/
def decLoop (a : BaseUint WIDTH) (i : Nat) (h : i < WIDTH) : BaseUint WIDTH :=
  let a : BaseUint WIDTH := ⟨a.pn.set i (a.pn[i] - 1)⟩
  if h' : a.pn[i] = 0xffffffff ∧ i + 1 < WIDTH then decLoop a (i + 1) h'.2 else a
termination_by WIDTH - i

/-- `operator--`. -/
def dec (a : BaseUint WIDTH) : BaseUint WIDTH := if h : 0 < WIDTH then decLoop a 0 h else a

/-- The unary `operator-`. -/
def neg (a : BaseUint WIDTH) : BaseUint WIDTH := a.not.inc

/-- `operator=(uint64)`. -/
def ofUInt64 (_h : 2 ≤ WIDTH) (b : UInt64) : BaseUint WIDTH :=
  ⟨((Vector.replicate WIDTH 0).set 0 b.toUInt32).set 1 (b >>> 32).toUInt32⟩

/-- `operator<<=`. -/
def shiftLeft (a : BaseUint WIDTH) (shift : UInt32) : BaseUint WIDTH :=
  let k := (shift / 32).toNat
  let shift := shift % 32
  Fin.foldl WIDTH (fun pn i =>
    let pn := if shift ≠ 0 then pn.orLimb (i + k + 1) (a.pn[i] >>> (32 - shift)) else pn
    pn.orLimb (i + k) (a.pn[i] <<< shift)) (zero WIDTH)

/-- `operator>>=`; the indices are not negative. -/
def shiftRight (a : BaseUint WIDTH) (shift : UInt32) : BaseUint WIDTH :=
  let k := (shift / 32).toNat
  let shift := shift % 32
  Fin.foldl WIDTH (fun pn i =>
    let pn := if k + 1 ≤ i.val ∧ shift ≠ 0 then pn.orLimb (i - k - 1) (a.pn[i] <<< (32 - shift))
      else pn
    if k ≤ i.val then pn.orLimb (i - k) (a.pn[i] >>> shift) else pn) (zero WIDTH)

/-- The loop of `operator+=`, with `carry`. -/
def addLoop (a b : BaseUint WIDTH) : BaseUint WIDTH × UInt64 :=
  Fin.foldl WIDTH (fun (pn, carry) i =>
    let n := carry + pn.pn[i].toUInt64 + b.pn[i].toUInt64
    (⟨pn.pn.set i (n &&& 0xffffffff).toUInt32⟩, n >>> 32)) (a, 0)

/-- `operator+=`. -/
def add (a b : BaseUint WIDTH) : BaseUint WIDTH := (addLoop a b).1

/-- `operator-=`. -/
def sub (a b : BaseUint WIDTH) : BaseUint WIDTH := a.add b.neg

/-- `operator+=(uint64)`. -/
def addUInt64 (h : 2 ≤ WIDTH) (a : BaseUint WIDTH) (b64 : UInt64) : BaseUint WIDTH :=
  a.add (ofUInt64 h b64)

/-- `operator-=(uint64)`. -/
def subUInt64 (h : 2 ≤ WIDTH) (a : BaseUint WIDTH) (b64 : UInt64) : BaseUint WIDTH :=
  a.add (ofUInt64 h b64).neg

/-- The loop of a comparison from the highest limb on: what it returns if the highest limb that
differs is below or above, and if there is none. -/
def compareLoop (fBelow fAbove fEqual : Bool) (a b : BaseUint WIDTH) : (m : Nat) → m ≤ WIDTH → Bool
  | 0, _ => fEqual
  | i + 1, h =>
    if a.pn[i] < b.pn[i] then fBelow
    else if a.pn[i] > b.pn[i] then fAbove
    else compareLoop fBelow fAbove fEqual a b i (by omega)

/-- `operator<`. -/
def lt (a b : BaseUint WIDTH) : Bool := compareLoop true false false a b WIDTH le_rfl

/-- `operator<=`. -/
def le (a b : BaseUint WIDTH) : Bool := compareLoop true false true a b WIDTH le_rfl

/-- `operator>`. -/
def gt (a b : BaseUint WIDTH) : Bool := compareLoop false true false a b WIDTH le_rfl

/-- `operator>=`. -/
def ge (a b : BaseUint WIDTH) : Bool := compareLoop false true true a b WIDTH le_rfl

/-- `operator==`. -/
def eq (a b : BaseUint WIDTH) : Bool := (List.finRange WIDTH).all fun i => a.pn[i] == b.pn[i]

/-- `operator==(uint64)`. -/
def eqUInt64 (_h : 2 ≤ WIDTH) (a : BaseUint WIDTH) (b : UInt64) : Bool :=
  a.pn[0] == b.toUInt32 && a.pn[1] == (b >>> 32).toUInt32 &&
    (List.finRange WIDTH).all fun i => decide (i.val < 2) || a.pn[i] == 0

/-- `operator!=`. -/
def ne (a b : BaseUint WIDTH) : Bool := !a.eq b

/-- `operator!`. -/
def isZero (a : BaseUint WIDTH) : Bool := (List.finRange WIDTH).all fun i => a.pn[i] == 0

/-! ## The number -/

/-- The limb at `i`, zero above the highest. -/
def limb (a : BaseUint WIDTH) (i : Nat) : Nat := (a.pn[i]?.getD 0).toNat

def toNat (a : BaseUint WIDTH) : Nat := value 32 a.limb WIDTH

variable {a b : BaseUint WIDTH} {i j m : Nat} {x : UInt32}

theorem limb_eq (a : BaseUint WIDTH) (h : i < WIDTH) : a.limb i = a.pn[i].toNat := by
  simp [limb, h]

theorem limb_lt (a : BaseUint WIDTH) (i : Nat) : a.limb i < 2 ^ 32 := UInt32.toNat_lt _

theorem toNat_lt (a : BaseUint WIDTH) : a.toNat < 2 ^ (32 * WIDTH) :=
  value_lt fun i _ => a.limb_lt i

theorem ext_limb (h : ∀ i < WIDTH, a.limb i = b.limb i) : a = b := by
  obtain ⟨pn⟩ := a
  obtain ⟨qn⟩ := b
  congr 1
  ext i hi
  have hlimb := h i hi
  rw [limb_eq _ hi, limb_eq _ hi] at hlimb
  exact congrArg _ (UInt32.toNat_inj.mp hlimb)

theorem toNat_inj : a.toNat = b.toNat ↔ a = b := by
  constructor
  · intro h
    exact ext_limb (eq_of_value_eq (fun i _ => a.limb_lt i) (fun i _ => b.limb_lt i) h)
  · rintro rfl
    rfl

theorem limb_set (a : BaseUint WIDTH) (h : i < WIDTH) (x : UInt32) (j : Nat) :
    limb ⟨a.pn.set i x⟩ j = if j = i then x.toNat else a.limb j := by
  unfold limb
  by_cases hj : j = i
  · subst hj
    simp [h]
  · simp [hj, Ne.symm hj]

theorem toNat_set (a : BaseUint WIDTH) (h : i < WIDTH) (x : UInt32) :
    toNat ⟨a.pn.set i x⟩ + a.limb i * 2 ^ (32 * i) = a.toNat + x.toNat * 2 ^ (32 * i) := by
  have hothers : ∀ j < WIDTH, j ≠ i → limb ⟨a.pn.set i x⟩ j = a.limb j := fun j _ hne => by
    rw [limb_set a h, if_neg hne]
  have hself : limb ⟨a.pn.set i x⟩ i = x.toNat := by
    rw [limb_set a h, if_pos rfl]
  rw [toNat, toNat, ← hself]
  exact value_update hothers h

@[simp] theorem limb_zero (WIDTH i : Nat) : (zero WIDTH).limb i = 0 := by
  unfold limb zero
  by_cases h : i < WIDTH
  · simp [h]
  · simp [h]

@[simp] theorem toNat_zero (WIDTH : Nat) : (zero WIDTH).toNat = 0 := by
  rw [toNat, value]
  apply Finset.sum_eq_zero
  intro i _
  rw [limb_zero, Nat.zero_mul]

theorem toNat_eq_emod {z : Int} (h : (a.toNat : Int) ≡ z [ZMOD 2 ^ (32 * WIDTH)]) :
    (a.toNat : Int) = z % 2 ^ (32 * WIDTH) := by
  rw [← h]
  have hlt : (a.toNat : Int) < 2 ^ (32 * WIDTH) := by exact_mod_cast a.toNat_lt
  exact (Int.emod_eq_of_lt (Int.natCast_nonneg _) hlt).symm

/-! ## Increment, decrement and negation -/

theorem limb_not (a : BaseUint WIDTH) (h : i < WIDTH) : a.limb i + a.not.limb i + 1 = 2 ^ 32 := by
  refine foldl_invariant (P := fun m ret => ∀ j < m, a.limb j + limb ret j + 1 = 2 ^ 32)
    (fun j hj => absurd hj (Nat.not_lt_zero j)) (fun i ret hret j hj => ?_) i h
  rw [limb_set ret i.isLt]
  split
  · rename_i heq
    have hlt := UInt32.toNat_lt a.pn[i]
    rw [heq, limb_eq a i.isLt, Fin.getElem_fin, UInt32.toNat_not, show UInt32.size = 2 ^ 32 from rfl]
    rw [Fin.getElem_fin] at hlt
    omega
  · exact hret j (by omega)

theorem toNat_not (a : BaseUint WIDTH) : a.toNat + a.not.toNat + 1 = 2 ^ (32 * WIDTH) :=
  value_complement fun _ hi => a.limb_not hi

theorem toNat_set_wrapped (a : BaseUint WIDTH) (h : i < WIDTH) (hwrap : a.pn[i] + 1 = 0) :
    toNat ⟨a.pn.set i (a.pn[i] + 1)⟩ + 2 ^ (32 * (i + 1)) = a.toNat + 2 ^ (32 * i) := by
  have hset := toNat_set a h (a.pn[i] + 1)
  have hlimb : a.pn[i].toNat = 2 ^ 32 - 1 := by
    have hlt := UInt32.toNat_lt a.pn[i]
    have hzero := congrArg UInt32.toNat hwrap
    rw [UInt32.toNat_add, UInt32.toNat_one, UInt32.toNat_zero] at hzero
    omega
  rw [hwrap, limb_eq a h, hlimb, UInt32.toNat_zero, Nat.zero_mul, Nat.add_zero] at hset
  rw [hwrap, pow_succ_place]
  omega

theorem toNat_set_increased (a : BaseUint WIDTH) (h : i < WIDTH) (hne : a.pn[i] + 1 ≠ 0) :
    toNat ⟨a.pn.set i (a.pn[i] + 1)⟩ = a.toNat + 2 ^ (32 * i) := by
  have hset := toNat_set a h (a.pn[i] + 1)
  have hlimb : (a.pn[i] + 1).toNat = a.pn[i].toNat + 1 := by
    have hlt := UInt32.toNat_lt a.pn[i]
    have hzero : (a.pn[i] + 1).toNat ≠ 0 := fun hzero => hne (UInt32.toNat_inj.mp hzero)
    rw [UInt32.toNat_add, UInt32.toNat_one] at hzero ⊢
    omega
  rw [limb_eq a h, hlimb, Nat.add_mul, Nat.one_mul] at hset
  omega

/-- From its limb on, the loop adds one to the number above it. -/
theorem toNat_incLoop (a : BaseUint WIDTH) (i : Nat) (h : i < WIDTH) :
    ((incLoop a i h).toNat : Int) ≡ a.toNat + 2 ^ (32 * i) [ZMOD 2 ^ (32 * WIDTH)] := by
  induction hk : WIDTH - i generalizing a i with
  | zero => omega
  | succ k ih =>
    rw [incLoop]
    simp only [Vector.getElem_set_self]
    split
    · rename_i hcarry
      have hwrapped := toNat_set_wrapped a h hcarry.1
      refine (ih _ (i + 1) hcarry.2 (by omega)).trans ?_
      rw [show (toNat ⟨a.pn.set i (a.pn[i] + 1)⟩ : Int) + 2 ^ (32 * (i + 1)) =
        a.toNat + 2 ^ (32 * i) by exact_mod_cast hwrapped]
    · rename_i hstop
      by_cases hwrap : a.pn[i] + 1 = 0
      · -- the carry out of the highest limb is lost
        obtain rfl : WIDTH = i + 1 := by
          by_contra hne
          exact hstop ⟨hwrap, by omega⟩
        have hwrapped := toNat_set_wrapped a h hwrap
        rw [show (a.toNat : Int) + 2 ^ (32 * i) =
          toNat ⟨a.pn.set i (a.pn[i] + 1)⟩ + 2 ^ (32 * (i + 1)) by exact_mod_cast hwrapped.symm]
        exact Int.add_modEq_right.symm
      · rw [toNat_set_increased a h hwrap]
        push_cast
        rfl

theorem toNat_inc (a : BaseUint WIDTH) :
    (a.inc.toNat : Int) ≡ a.toNat + 1 [ZMOD 2 ^ (32 * WIDTH)] := by
  unfold inc
  split
  · rename_i h
    simpa using toNat_incLoop a 0 h
  · rename_i h
    obtain rfl : WIDTH = 0 := by omega
    simp

/-- A limb that wraps around to the greatest one, and a borrow from the next one. -/
theorem toNat_set_borrowed (a : BaseUint WIDTH) (h : i < WIDTH) (hwrap : a.pn[i] - 1 = 0xffffffff) :
    toNat ⟨a.pn.set i (a.pn[i] - 1)⟩ + 2 ^ (32 * i) = a.toNat + 2 ^ (32 * (i + 1)) := by
  have hset := toNat_set a h (a.pn[i] - 1)
  have hlimb : a.pn[i].toNat = 0 := by
    have hlt := UInt32.toNat_lt a.pn[i]
    have hmax := congrArg UInt32.toNat hwrap
    rw [UInt32.toNat_sub, UInt32.toNat_one, show (0xffffffff : UInt32).toNat = 2 ^ 32 - 1 from rfl]
      at hmax
    omega
  rw [hwrap, limb_eq a h, hlimb, show (0xffffffff : UInt32).toNat = 2 ^ 32 - 1 from rfl,
    Nat.zero_mul, Nat.add_zero] at hset
  rw [hwrap, pow_succ_place]
  omega

theorem toNat_set_decreased (a : BaseUint WIDTH) (h : i < WIDTH) (hne : a.pn[i] - 1 ≠ 0xffffffff) :
    toNat ⟨a.pn.set i (a.pn[i] - 1)⟩ + 2 ^ (32 * i) = a.toNat := by
  have hset := toNat_set a h (a.pn[i] - 1)
  have hlimb : (a.pn[i] - 1).toNat + 1 = a.pn[i].toNat := by
    have hlt := UInt32.toNat_lt a.pn[i]
    have hmax : (a.pn[i] - 1).toNat ≠ 2 ^ 32 - 1 := fun hmax => hne (UInt32.toNat_inj.mp hmax)
    rw [UInt32.toNat_sub, UInt32.toNat_one] at hmax ⊢
    omega
  rw [limb_eq a h, ← hlimb, Nat.add_mul, Nat.one_mul] at hset
  omega

/-- From its limb on, the loop subtracts one from the number above it. -/
theorem toNat_decLoop (a : BaseUint WIDTH) (i : Nat) (h : i < WIDTH) :
    ((decLoop a i h).toNat : Int) ≡ a.toNat - 2 ^ (32 * i) [ZMOD 2 ^ (32 * WIDTH)] := by
  induction hk : WIDTH - i generalizing a i with
  | zero => omega
  | succ k ih =>
    rw [decLoop]
    simp only [Vector.getElem_set_self]
    split
    · rename_i hborrow
      have hborrowed := toNat_set_borrowed a h hborrow.1
      refine (ih _ (i + 1) hborrow.2 (by omega)).trans ?_
      rw [show (toNat ⟨a.pn.set i (a.pn[i] - 1)⟩ : Int) - 2 ^ (32 * (i + 1)) =
        a.toNat - 2 ^ (32 * i) by
          have hcast : (toNat ⟨a.pn.set i (a.pn[i] - 1)⟩ : Int) + 2 ^ (32 * i) =
            a.toNat + 2 ^ (32 * (i + 1)) := by exact_mod_cast hborrowed
          omega]
    · rename_i hstop
      by_cases hwrap : a.pn[i] - 1 = 0xffffffff
      · -- the borrow from above the highest limb is lost
        obtain rfl : WIDTH = i + 1 := by
          by_contra hne
          exact hstop ⟨hwrap, by omega⟩
        have hborrowed := toNat_set_borrowed a h hwrap
        have hcast : (toNat ⟨a.pn.set i (a.pn[i] - 1)⟩ : Int) + 2 ^ (32 * i) =
          a.toNat + 2 ^ (32 * (i + 1)) := by exact_mod_cast hborrowed
        rw [show (toNat ⟨a.pn.set i (a.pn[i] - 1)⟩ : Int) =
          a.toNat - 2 ^ (32 * i) + 2 ^ (32 * (i + 1)) by omega]
        exact Int.add_modEq_right
      · have hdecreased := toNat_set_decreased a h hwrap
        rw [show (a.toNat : Int) - 2 ^ (32 * i) = toNat ⟨a.pn.set i (a.pn[i] - 1)⟩ by
          rw [← hdecreased]
          push_cast
          omega]

theorem toNat_dec (a : BaseUint WIDTH) :
    (a.dec.toNat : Int) ≡ a.toNat - 1 [ZMOD 2 ^ (32 * WIDTH)] := by
  unfold dec
  split
  · rename_i h
    simpa using toNat_decLoop a 0 h
  · rename_i h
    obtain rfl : WIDTH = 0 := by omega
    simp

theorem toNat_neg (a : BaseUint WIDTH) :
    (a.neg.toNat : Int) ≡ -a.toNat [ZMOD 2 ^ (32 * WIDTH)] := by
  refine (toNat_inc a.not).trans ?_
  have hnot : (a.not.toNat : Int) + 1 = -a.toNat + 2 ^ (32 * WIDTH) := by
    have hsum : (a.toNat : Int) + a.not.toNat + 1 = 2 ^ (32 * WIDTH) := by
      exact_mod_cast a.toNat_not
    omega
  rw [hnot]
  exact Int.add_modEq_right

/-! ## Addition and subtraction -/

theorem toNat_sum (x y : UInt32) {carry : UInt64} (h : carry.toNat ≤ 1) :
    (carry + x.toUInt64 + y.toUInt64).toNat = carry.toNat + x.toNat + y.toNat := by
  have hx := UInt32.toNat_lt x
  have hy := UInt32.toNat_lt y
  rw [UInt64.toNat_add, UInt64.toNat_add, UInt32.toNat_toUInt64, UInt32.toNat_toUInt64]
  omega

theorem toNat_low (n : UInt64) : (n &&& 0xffffffff).toUInt32.toNat = n.toNat % 2 ^ 32 := by
  rw [UInt64.toNat_toUInt32, UInt64.toNat_and, show (0xffffffff : UInt64).toNat = 2 ^ 32 - 1 from rfl,
    Nat.and_two_pow_sub_one_eq_mod, Nat.mod_mod]

theorem toNat_high (n : UInt64) : (n >>> 32).toNat = n.toNat / 2 ^ 32 := by
  rw [UInt64.toNat_shiftRight, show (32 : UInt64).toNat % 64 = 32 from rfl, Nat.shiftRight_eq_div_pow]

/-- The loop after its first turns: the lower limbs and the carry are the sum of the lower limbs, and
the higher limbs are as they were. -/
structure Added (a b : BaseUint WIDTH) (m : Nat) (r : BaseUint WIDTH × UInt64) : Prop where
  sum : value 32 r.1.limb m + r.2.toNat * 2 ^ (32 * m) = value 32 a.limb m + value 32 b.limb m
  carry : r.2.toNat ≤ 1
  higher : ∀ j, m ≤ j → r.1.limb j = a.limb j

theorem added_addLoop (a b : BaseUint WIDTH) : Added a b WIDTH (addLoop a b) := by
  refine foldl_invariant (P := Added a b) ⟨by simp, by simp, fun _ _ => rfl⟩ fun i r hr => ?_
  obtain ⟨pn, carry⟩ := r
  have hpn : pn.pn[i].toNat = a.limb i := by
    rw [Fin.getElem_fin, ← limb_eq pn i.isLt]
    exact hr.higher i le_rfl
  have hb : b.pn[i].toNat = b.limb i := by
    rw [Fin.getElem_fin, ← limb_eq b i.isLt]
  have hn : (carry + pn.pn[i].toUInt64 + b.pn[i].toUInt64).toNat =
      carry.toNat + a.limb i + b.limb i := by
    rw [toNat_sum _ _ hr.carry, hpn, hb]
  have ha_lt := a.limb_lt i
  have hb_lt := b.limb_lt i
  have hcarry : carry.toNat ≤ 1 := hr.carry
  refine ⟨?_, ?_, fun j hj => ?_⟩
  · have hlow : value 32 (limb ⟨pn.pn.set i
        (carry + pn.pn[i].toUInt64 + b.pn[i].toUInt64 &&& 0xffffffff).toUInt32⟩) i =
        value 32 pn.limb i := value_congr fun j hj => by
      rw [limb_set pn i.isLt, if_neg (by omega)]
    have hsum := hr.sum
    have hdiv := Nat.mod_add_div (carry.toNat + a.limb i + b.limb i) (2 ^ 32)
    simp only at hsum ⊢
    rw [value_succ, value_succ, value_succ, hlow, limb_set pn i.isLt, if_pos rfl, toNat_low,
      toNat_high, hn, pow_succ_place]
    calc _ = value 32 pn.limb i + ((carry.toNat + a.limb i + b.limb i) % 2 ^ 32 +
          2 ^ 32 * ((carry.toNat + a.limb i + b.limb i) / 2 ^ 32)) * 2 ^ (32 * i.val) := by ring
      _ = value 32 pn.limb i + carry.toNat * 2 ^ (32 * i.val) +
          (a.limb i + b.limb i) * 2 ^ (32 * i.val) := by rw [hdiv]; ring
      _ = _ := by rw [hsum]; ring
  · simp only
    rw [toNat_high, hn]
    omega
  · simp only
    rw [limb_set pn i.isLt, if_neg (by omega)]
    exact hr.higher j (by omega)

theorem toNat_add (a b : BaseUint WIDTH) :
    ((a.add b).toNat : Int) ≡ a.toNat + b.toNat [ZMOD 2 ^ (32 * WIDTH)] := by
  have hsum := (added_addLoop a b).sum
  have hcast : ((a.add b).toNat : Int) + (addLoop a b).2.toNat * 2 ^ (32 * WIDTH) =
      a.toNat + b.toNat := by exact_mod_cast hsum
  rw [← hcast]
  exact Int.modEq_iff_dvd.mpr ⟨(addLoop a b).2.toNat, by ring⟩

theorem toNat_sub (a b : BaseUint WIDTH) :
    ((a.sub b).toNat : Int) ≡ a.toNat - b.toNat [ZMOD 2 ^ (32 * WIDTH)] :=
  (toNat_add a b.neg).trans (Int.ModEq.rfl.add (toNat_neg b))

theorem toNat_ofUInt64 (h : 2 ≤ WIDTH) (b : UInt64) : (ofUInt64 h b).toNat = b.toNat := by
  have hlow := toNat_set (zero WIDTH) (show 0 < WIDTH by omega) b.toUInt32
  have hhigh := toNat_set ⟨(zero WIDTH).pn.set 0 b.toUInt32⟩ (show 1 < WIDTH by omega)
    (b >>> 32).toUInt32
  have hlt := UInt64.toNat_lt b
  rw [limb_zero, toNat_zero, UInt64.toNat_toUInt32] at hlow
  rw [limb_set _ (show 0 < WIDTH by omega), if_neg (by decide), limb_zero, UInt64.toNat_toUInt32,
    toNat_high] at hhigh
  have hlimbs : (ofUInt64 h b).toNat = toNat
      ⟨(BaseUint.mk ((zero WIDTH).pn.set 0 b.toUInt32)).pn.set 1 (b >>> 32).toUInt32⟩ := rfl
  rw [hlimbs]
  omega

/-! ## Shifts -/

theorem limb_orLimb (a : BaseUint WIDTH) (i : Nat) (x : UInt32) (h : j < WIDTH) :
    (a.orLimb i x).limb j = if j = i then a.limb j ||| x.toNat else a.limb j := by
  unfold orLimb
  split
  · rename_i hi
    rw [limb_set a hi]
    split
    · rename_i heq
      rw [heq, limb_eq a hi, UInt32.toNat_or]
    · rfl
  · rw [if_neg (by omega)]

theorem testBit_toNat (a : BaseUint WIDTH) (p : Nat) :
    a.toNat.testBit p = (decide (p < 32 * WIDTH) && (a.limb (p / 32)).testBit (p % 32)) :=
  testBit_value (by decide) (fun i _ => a.limb_lt i) p

theorem testBit_limb (a : BaseUint WIDTH) (h : i < WIDTH) (t : Nat) :
    a.pn[i].toNat.testBit t = (decide (t < 32) && a.toNat.testBit (32 * i + t)) := by
  by_cases ht : t < 32
  · have hdiv : (32 * i + t) / 32 = i := by omega
    have hmod : (32 * i + t) % 32 = t := by omega
    have hin : 32 * i + t < 32 * WIDTH := by omega
    rw [testBit_toNat, hdiv, hmod, limb_eq a h]
    simp [ht, hin]
  · have hlt := UInt32.toNat_lt a.pn[i]
    have hbit : a.pn[i].toNat.testBit t = false := by
      apply Nat.testBit_lt_two_pow
      exact hlt.trans_le (Nat.pow_le_pow_right (by decide) (Nat.not_lt.mp ht))
    simp [hbit, ht]

theorem testBit_orLimb (a : BaseUint WIDTH) (i : Nat) (x : UInt32) {p : Nat} (hp : p < 32 * WIDTH) :
    (a.orLimb i x).toNat.testBit p = true ↔
      a.toNat.testBit p = true ∨ p / 32 = i ∧ x.toNat.testBit (p % 32) = true := by
  have hlimb : p / 32 < WIDTH := by omega
  rw [testBit_toNat, testBit_toNat, limb_orLimb a i x hlimb]
  split
  · rename_i heq
    simp [hp, heq, Nat.testBit_or]
  · rename_i hne
    simp [hp, hne]

theorem testBit_shl (x : UInt32) {s : UInt32} (hs : s.toNat < 32) (t : Nat) :
    (x <<< s).toNat.testBit t = true ↔
      t < 32 ∧ s.toNat ≤ t ∧ x.toNat.testBit (t - s.toNat) = true := by
  rw [UInt32.toNat_shiftLeft, Nat.mod_eq_of_lt hs, Nat.testBit_mod_two_pow, Nat.testBit_shiftLeft]
  simp

theorem testBit_shr (x : UInt32) {s : UInt32} (hs : s.toNat < 32) (t : Nat) :
    (x >>> s).toNat.testBit t = true ↔ x.toNat.testBit (s.toNat + t) = true := by
  rw [UInt32.toNat_shiftRight, Nat.mod_eq_of_lt hs, Nat.testBit_shiftRight]

theorem testBit_limb_shl (a : BaseUint WIDTH) (i : Fin WIDTH) {t : UInt32} (ht : t.toNat < 32)
    {j p q : Nat} (hq : p / 32 = j → t.toNat ≤ p % 32 → 32 * i + (p % 32 - t.toNat) = q) :
    (p / 32 = j ∧ (a.pn[i] <<< t).toNat.testBit (p % 32) = true) ↔
      (p / 32 = j ∧ t.toNat ≤ p % 32) ∧ a.toNat.testBit q = true := by
  rw [testBit_shl _ ht, and_assoc, Fin.getElem_fin, testBit_limb a i.isLt, Bool.and_eq_true,
    decide_eq_true_eq]
  refine and_congr_right fun hj => ?_
  constructor
  · rintro ⟨-, hle, -, hbit⟩
    exact ⟨hle, hq hj hle ▸ hbit⟩
  · rintro ⟨hle, hbit⟩
    exact ⟨by omega, hle, by omega, (hq hj hle).symm ▸ hbit⟩

theorem testBit_limb_shr (a : BaseUint WIDTH) (i : Fin WIDTH) {t : UInt32} (ht : t.toNat < 32)
    {j p q : Nat} (hq : p / 32 = j → t.toNat + p % 32 < 32 → 32 * i + (t.toNat + p % 32) = q) :
    (p / 32 = j ∧ (a.pn[i] >>> t).toNat.testBit (p % 32) = true) ↔
      (p / 32 = j ∧ t.toNat + p % 32 < 32) ∧ a.toNat.testBit q = true := by
  rw [testBit_shr _ ht, and_assoc, Fin.getElem_fin, testBit_limb a i.isLt, Bool.and_eq_true,
    decide_eq_true_eq]
  refine and_congr_right fun hj => and_congr_right fun hlt => ?_
  rw [hq hj hlt]

theorem shift_split (shift : UInt32) :
    shift.toNat = 32 * (shift / 32).toNat + (shift % 32).toNat ∧ (shift % 32).toNat < 32 := by
  rw [UInt32.toNat_div, UInt32.toNat_mod, show (32 : UInt32).toNat = 32 from rfl]
  omega

theorem toNat_rest {s : UInt32} (hs : s.toNat < 32) (hne : s ≠ 0) :
    (32 - s).toNat = 32 - s.toNat ∧ 0 < s.toNat := by
  have hpos : s.toNat ≠ 0 := fun h => hne (UInt32.toNat_inj.mp h)
  rw [UInt32.toNat_sub_of_le _ _ (UInt32.le_iff_toNat_le.mpr hs.le)]
  exact ⟨rfl, Nat.pos_of_ne_zero hpos⟩

/-- The bits that limb `i` brings to their places `32 * k + s` higher. -/
theorem testBit_higher (a : BaseUint WIDTH) (i : Fin WIDTH) {k : Nat} {s : UInt32}
    (hs : s.toNat < 32) (ret : BaseUint WIDTH) {p : Nat} (hp : p < 32 * WIDTH) :
    ((if s ≠ 0 then ret.orLimb (i + k + 1) (a.pn[i] >>> (32 - s)) else ret).orLimb (i + k)
        (a.pn[i] <<< s)).toNat.testBit p = true ↔
      ret.toNat.testBit p = true ∨ (32 * k + s.toNat ≤ p ∧ 32 * i ≤ p - (32 * k + s.toNat) ∧
        p - (32 * k + s.toNat) < 32 * (i + 1) ∧
        a.toNat.testBit (p - (32 * k + s.toNat)) = true) := by
  have hlow := @testBit_limb_shl _ a i _ hs (i + k) p (p - (32 * k + s.toNat)) fun _ _ => by omega
  rw [testBit_orLimb _ _ _ hp, hlow]
  split
  · rename_i hne
    obtain ⟨hrest, hpos⟩ := toNat_rest hs hne
    have hhigh := @testBit_limb_shr _ a i (32 - s) (by omega) (i + k + 1) p
      (p - (32 * k + s.toNat)) fun _ _ => by omega
    rw [testBit_orLimb _ _ _ hp, hhigh, or_assoc, ← or_and_right]
    refine or_congr_right ?_
    rw [← and_assoc, ← and_assoc]
    refine and_congr_left fun _ => ?_
    omega
  · rename_i hzero
    have hs0 : s.toNat = 0 := by
      rw [not_not.mp hzero]
      rfl
    refine or_congr_right ?_
    rw [← and_assoc, ← and_assoc]
    refine and_congr_left fun _ => ?_
    omega

theorem toNat_shiftLeft (a : BaseUint WIDTH) (shift : UInt32) :
    (a.shiftLeft shift).toNat = a.toNat * 2 ^ shift.toNat % 2 ^ (32 * WIDTH) := by
  obtain ⟨hsplit, hlt⟩ := shift_split shift
  -- after `m` turns the bits of the first `m` limbs are in their places
  have hloop : ∀ p < 32 * WIDTH, (a.shiftLeft shift).toNat.testBit p = true ↔
      shift.toNat ≤ p ∧ p - shift.toNat < 32 * WIDTH ∧ a.toNat.testBit (p - shift.toNat) = true := by
    refine foldl_invariant (P := fun m (ret : BaseUint WIDTH) => ∀ p < 32 * WIDTH,
      ret.toNat.testBit p = true ↔ shift.toNat ≤ p ∧ p - shift.toNat < 32 * m ∧
        a.toNat.testBit (p - shift.toNat) = true) (fun p _ => by simp) fun i ret hret p hp => ?_
    rw [testBit_higher a i hlt ret hp, hret p hp, ← hsplit, ← and_assoc, ← and_assoc, ← and_assoc,
      ← or_and_right, ← and_assoc]
    refine and_congr_left fun _ => ?_
    omega
  apply Nat.eq_of_testBit_eq
  intro p
  by_cases hp : p < 32 * WIDTH
  · rw [Bool.eq_iff_iff, hloop p hp, Nat.testBit_mod_two_pow, Nat.testBit_mul_two_pow]
    simp only [hp, decide_true, Bool.true_and, Bool.and_eq_true, decide_eq_true_eq]
    constructor
    · rintro ⟨hle, -, hbit⟩
      exact ⟨hle, hbit⟩
    · rintro ⟨hle, hbit⟩
      exact ⟨hle, by omega, hbit⟩
  · rw [testBit_toNat, Nat.testBit_mod_two_pow]
    simp [hp]

/-- The bits that limb `i` brings to their places `32 * k + s` lower. -/
theorem testBit_lower (a : BaseUint WIDTH) (i : Fin WIDTH) {k : Nat} {s : UInt32}
    (hs : s.toNat < 32) (ret : BaseUint WIDTH) {p : Nat} (hp : p < 32 * WIDTH) :
    (if k ≤ i.val then
        (if k + 1 ≤ i.val ∧ s ≠ 0 then ret.orLimb (i - k - 1) (a.pn[i] <<< (32 - s)) else ret).orLimb
          (i - k) (a.pn[i] >>> s)
      else if k + 1 ≤ i.val ∧ s ≠ 0 then ret.orLimb (i - k - 1) (a.pn[i] <<< (32 - s))
      else ret).toNat.testBit p = true ↔
      ret.toNat.testBit p = true ∨ (32 * i ≤ p + (32 * k + s.toNat) ∧
        p + (32 * k + s.toNat) < 32 * (i + 1) ∧
        a.toNat.testBit (p + (32 * k + s.toNat)) = true) := by
  by_cases hk : k ≤ i.val
  · have hhigh := @testBit_limb_shr _ a i _ hs (i - k) p (p + (32 * k + s.toNat)) fun _ _ => by omega
    rw [if_pos hk, testBit_orLimb _ _ _ hp, hhigh]
    split
    · rename_i hne
      obtain ⟨hrest, hpos⟩ := toNat_rest hs hne.2
      have hlow := @testBit_limb_shl _ a i (32 - s) (by omega) (i - k - 1) p
        (p + (32 * k + s.toNat)) fun _ _ => by omega
      rw [testBit_orLimb _ _ _ hp, hlow, or_assoc, ← or_and_right]
      refine or_congr_right ?_
      rw [← and_assoc]
      refine and_congr_left fun _ => ?_
      omega
    · rename_i hnot
      have hcase : i.val = k ∨ s.toNat = 0 := by
        by_contra hboth
        refine hnot ⟨by omega, fun hs0 => ?_⟩
        rw [hs0] at hboth
        exact hboth (Or.inr rfl)
      refine or_congr_right ?_
      rw [← and_assoc]
      refine and_congr_left fun _ => ?_
      omega
  · rw [if_neg hk, if_neg (by omega)]
    constructor
    · exact Or.inl
    · rintro (hret | ⟨_, hlt, -⟩)
      · exact hret
      · omega

theorem toNat_shiftRight (a : BaseUint WIDTH) (shift : UInt32) :
    (a.shiftRight shift).toNat = a.toNat / 2 ^ shift.toNat := by
  obtain ⟨hsplit, hlt⟩ := shift_split shift
  have hloop : ∀ p < 32 * WIDTH, (a.shiftRight shift).toNat.testBit p = true ↔
      p + shift.toNat < 32 * WIDTH ∧ a.toNat.testBit (p + shift.toNat) = true := by
    refine foldl_invariant (P := fun m (ret : BaseUint WIDTH) => ∀ p < 32 * WIDTH,
      ret.toNat.testBit p = true ↔ p + shift.toNat < 32 * m ∧
        a.toNat.testBit (p + shift.toNat) = true) (fun p _ => by simp) fun i ret hret p hp => ?_
    rw [testBit_lower a i hlt ret hp, hret p hp, ← hsplit, ← and_assoc, ← or_and_right]
    refine and_congr_left fun _ => ?_
    omega
  apply Nat.eq_of_testBit_eq
  intro p
  rw [Nat.testBit_div_two_pow, Bool.eq_iff_iff]
  by_cases hp : p < 32 * WIDTH
  · rw [hloop p hp]
    constructor
    · exact And.right
    · intro hbit
      refine ⟨?_, hbit⟩
      rw [testBit_toNat, Bool.and_eq_true, decide_eq_true_eq] at hbit
      exact hbit.1
  · rw [testBit_toNat, testBit_toNat]
    simp [hp, show ¬ p + shift.toNat < 32 * WIDTH by omega]

/-! ## Comparisons -/

theorem compareLoop_eq (fBelow fAbove fEqual : Bool) (a b : BaseUint WIDTH) (h : m ≤ WIDTH) :
    compareLoop fBelow fAbove fEqual a b m h =
      if value 32 a.limb m < value 32 b.limb m then fBelow
      else if value 32 b.limb m < value 32 a.limb m then fAbove else fEqual := by
  induction m with
  | zero => simp [compareLoop]
  | succ m ih =>
    have hm : m < WIDTH := h
    have ha := fun i (_ : i < m) => a.limb_lt i
    have hb := fun i (_ : i < m) => b.limb_lt i
    have hlt : a.pn[m] < b.pn[m] ↔ a.limb m < b.limb m := by
      rw [UInt32.lt_iff_toNat_lt, limb_eq a hm, limb_eq b hm]
    have hgt : a.pn[m] > b.pn[m] ↔ b.limb m < a.limb m := by
      rw [gt_iff_lt, UInt32.lt_iff_toNat_lt, limb_eq a hm, limb_eq b hm]
    rw [compareLoop]
    rcases Nat.lt_trichotomy (a.limb m) (b.limb m) with hbelow | heq | habove
    · rw [if_pos (hlt.mpr hbelow), if_pos (value_succ_lt ha hbelow)]
    · rw [if_neg (by rw [hlt]; omega), if_neg (by rw [hgt]; omega), ih (by omega), value_succ,
        value_succ, heq]
      simp only [Nat.add_lt_add_iff_right]
    · rw [if_neg (by rw [hlt]; omega), if_pos (hgt.mpr habove),
        if_neg (value_succ_lt hb habove).le.not_gt, if_pos (value_succ_lt hb habove)]

theorem compare_eq (fBelow fAbove fEqual : Bool) (a b : BaseUint WIDTH) :
    compareLoop fBelow fAbove fEqual a b WIDTH le_rfl =
      if a.toNat < b.toNat then fBelow else if b.toNat < a.toNat then fAbove else fEqual :=
  compareLoop_eq fBelow fAbove fEqual a b le_rfl

theorem lt_iff : a.lt b = true ↔ a.toNat < b.toNat := by
  rw [lt, compare_eq]
  grind

theorem le_iff : a.le b = true ↔ a.toNat ≤ b.toNat := by
  rw [le, compare_eq]
  grind

theorem gt_iff : a.gt b = true ↔ a.toNat > b.toNat := by
  rw [gt, compare_eq]
  grind

theorem ge_iff : a.ge b = true ↔ a.toNat ≥ b.toNat := by
  rw [ge, compare_eq]
  grind

theorem eq_iff : a.eq b = true ↔ a.toNat = b.toNat := by
  rw [toNat_inj, eq, List.all_eq_true]
  constructor
  · intro h
    apply ext_limb
    intro i hi
    have hlimb := h ⟨i, hi⟩ (List.mem_finRange _)
    rw [limb_eq a hi, limb_eq b hi]
    exact congrArg UInt32.toNat (eq_of_beq hlimb)
  · rintro rfl i -
    exact beq_self_eq_true _

theorem isZero_iff : a.isZero = true ↔ a.toNat = 0 := by
  rw [← toNat_zero WIDTH, ← eq_iff, isZero, eq, List.all_eq_true, List.all_eq_true]
  simp [zero]

/-- The number of an `uint64` has its halves as its lowest limbs. -/
theorem eqUInt64_iff (h : 2 ≤ WIDTH) (a : BaseUint WIDTH) (b : UInt64) :
    a.eqUInt64 h b = true ↔ a.toNat = b.toNat := by
  rw [← toNat_ofUInt64 h, ← eq_iff, eqUInt64, eq, Bool.and_eq_true, Bool.and_eq_true,
    List.all_eq_true, List.all_eq_true]
  constructor
  · rintro ⟨⟨hlow, hhigh⟩, hrest⟩ ⟨i, hi⟩ -
    have hlimb := hrest ⟨i, hi⟩ (List.mem_finRange _)
    match i, hi with
    | 0, _ => simpa [ofUInt64] using hlow
    | 1, _ => simpa [ofUInt64] using hhigh
    | i + 2, _ => simpa [ofUInt64] using hlimb
  · intro hall
    refine ⟨⟨?_, ?_⟩, fun i _ => ?_⟩
    · simpa [ofUInt64] using hall ⟨0, by omega⟩ (List.mem_finRange _)
    · simpa [ofUInt64] using hall ⟨1, by omega⟩ (List.mem_finRange _)
    · have hlimb := hall i (List.mem_finRange _)
      obtain ⟨i, hi⟩ := i
      match i, hi with
      | 0, _ => rfl
      | 1, _ => rfl
      | i + 2, _ => simpa [ofUInt64] using hlimb

/-! ## The operators are those of the numbers -/

theorem toNat_eq_mod {n : Nat} (h : (a.toNat : Int) ≡ n [ZMOD 2 ^ (32 * WIDTH)]) :
    a.toNat = n % 2 ^ (32 * WIDTH) := by
  have hmod := toNat_eq_emod h
  exact_mod_cast hmod

/-- The operators compute modulo `2 ^ BITS`, and the comparisons are those of the numbers. -/
theorem baseUint_spec (a b : BaseUint WIDTH) (shift : UInt32) :
    (a.shiftLeft shift).toNat = a.toNat * 2 ^ shift.toNat % 2 ^ (32 * WIDTH) ∧
    (a.shiftRight shift).toNat = a.toNat / 2 ^ shift.toNat ∧
    (a.add b).toNat = (a.toNat + b.toNat) % 2 ^ (32 * WIDTH) ∧
    ((a.sub b).toNat : Int) = (a.toNat - b.toNat) % 2 ^ (32 * WIDTH) ∧
    (a.neg.toNat : Int) = -a.toNat % 2 ^ (32 * WIDTH) ∧
    a.inc.toNat = (a.toNat + 1) % 2 ^ (32 * WIDTH) ∧
    (a.dec.toNat : Int) = (a.toNat - 1) % 2 ^ (32 * WIDTH) ∧
    (a.lt b = true ↔ a.toNat < b.toNat) ∧ (a.le b = true ↔ a.toNat ≤ b.toNat) ∧
    (a.gt b = true ↔ a.toNat > b.toNat) ∧ (a.ge b = true ↔ a.toNat ≥ b.toNat) ∧
    (a.eq b = true ↔ a.toNat = b.toNat) ∧ (a.ne b = true ↔ a.toNat ≠ b.toNat) ∧
    (a.isZero = true ↔ a.toNat = 0) ∧
    ∀ (h : 2 ≤ WIDTH) (b64 : UInt64),
      (ofUInt64 h b64).toNat = b64.toNat ∧
      (a.addUInt64 h b64).toNat = (a.toNat + b64.toNat) % 2 ^ (32 * WIDTH) ∧
      ((a.subUInt64 h b64).toNat : Int) = (a.toNat - b64.toNat) % 2 ^ (32 * WIDTH) ∧
      (a.eqUInt64 h b64 = true ↔ a.toNat = b64.toNat) := by
  have hne : a.ne b = true ↔ a.toNat ≠ b.toNat := by
    rw [ne, Bool.not_eq_true', ← Bool.not_eq_true, eq_iff]
  refine ⟨toNat_shiftLeft a shift, toNat_shiftRight a shift, toNat_eq_mod (toNat_add a b),
    toNat_eq_emod (toNat_sub a b), toNat_eq_emod (toNat_neg a), toNat_eq_mod (toNat_inc a),
    toNat_eq_emod (toNat_dec a), lt_iff, le_iff, gt_iff, ge_iff, eq_iff, hne, isZero_iff,
    fun h b64 => ?_⟩
  have hof := toNat_ofUInt64 h b64
  refine ⟨hof, ?_, ?_, eqUInt64_iff h a b64⟩
  · rw [← hof]
    exact toNat_eq_mod (toNat_add a _)
  · rw [← hof]
    exact toNat_eq_emod (toNat_sub a _)

/-- One less than zero, of 256 bits. -/
theorem baseUint_spec_sample : 2 ≤ 8 ∧
    (((zero 8).subUInt64 (by decide) 1).toNat : Int) =
      ((zero 8).toNat - (1 : UInt64).toNat) % 2 ^ (32 * 8) := by
  have hspec := (baseUint_spec (zero 8) (zero 8) 0).2.2.2.2.2.2.2.2.2.2.2.2.2.2 (by decide) 1
  exact ⟨by decide, hspec.2.2.1⟩

/-! ## Bit vectors

The rest of the model takes a `uint256` as a bit vector. -/

def toBitVec (a : BaseUint WIDTH) : BitVec (32 * WIDTH) := BitVec.ofNat _ a.toNat

@[simp] theorem toNat_toBitVec (a : BaseUint WIDTH) : a.toBitVec.toNat = a.toNat := by
  rw [toBitVec, BitVec.toNat_ofNat, Nat.mod_eq_of_lt a.toNat_lt]

theorem toBitVec_add (a b : BaseUint WIDTH) : (a.add b).toBitVec = a.toBitVec + b.toBitVec := by
  apply BitVec.eq_of_toNat_eq
  rw [BitVec.toNat_add]
  simpa using toNat_eq_mod (toNat_add a b)

theorem toBitVec_shiftLeft (a : BaseUint WIDTH) (shift : UInt32) :
    (a.shiftLeft shift).toBitVec = a.toBitVec <<< shift.toNat := by
  apply BitVec.eq_of_toNat_eq
  rw [BitVec.toNat_shiftLeft, Nat.shiftLeft_eq]
  simpa using toNat_shiftLeft a shift

theorem toBitVec_shiftRight (a : BaseUint WIDTH) (shift : UInt32) :
    (a.shiftRight shift).toBitVec = a.toBitVec >>> shift.toNat := by
  apply BitVec.eq_of_toNat_eq
  rw [BitVec.toNat_ushiftRight, Nat.shiftRight_eq_div_pow]
  simpa using toNat_shiftRight a shift

theorem toBitVec_neg (a : BaseUint WIDTH) : a.neg.toBitVec = -a.toBitVec := by
  apply BitVec.eq_of_toNat_eq
  have hneg := toNat_eq_emod (toNat_neg a)
  have hle : a.toNat ≤ 2 ^ (32 * WIDTH) := a.toNat_lt.le
  rw [BitVec.toNat_neg, toNat_toBitVec, toNat_toBitVec]
  have hcast : ((2 ^ (32 * WIDTH) - a.toNat : Nat) : Int) = -a.toNat + 2 ^ (32 * WIDTH) := by
    push_cast [Nat.cast_sub hle]
    ring
  rw [← Int.natCast_inj, hneg, Int.natCast_emod, hcast]
  push_cast
  rw [Int.add_emod_right]

theorem toBitVec_sub (a b : BaseUint WIDTH) : (a.sub b).toBitVec = a.toBitVec - b.toBitVec := by
  rw [sub, toBitVec_add, toBitVec_neg, BitVec.sub_eq_add_neg]

theorem toBitVec_lt (a b : BaseUint WIDTH) : a.lt b = true ↔ a.toBitVec < b.toBitVec := by
  rw [lt_iff, BitVec.lt_def, toNat_toBitVec, toNat_toBitVec]

end BaseUint

end Terracoin
