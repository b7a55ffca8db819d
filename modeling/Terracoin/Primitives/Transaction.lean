import Terracoin.Lib.Checked

/-!
# Transactions

`COutPoint`, `CTxIn`, `CTxOut`, `CTransaction` and the fields of `CBlockHeader` of `main.h`,
serialized sizes, and the context-free test `CTransaction::CheckTransaction`.

The double SHA-256 of a serialized transaction, header or pair of tree nodes is not computed:
`Hashing` stands for it, and results that need more than "a function" say what they need.
-/

namespace Terracoin

open Checked

abbrev uint256 := BitVec 256

abbrev CScript := List UInt8

def coin : Int := 100000000
def maxMoney : Int := 42000000 * coin

def moneyRange (nValue : Int) : Bool := decide (0 ≤ nValue ∧ nValue ≤ maxMoney)

theorem moneyRange_iff {v : Int} : moneyRange v = true ↔ 0 ≤ v ∧ v ≤ maxMoney := by
  simp [moneyRange]

theorem maxMoney_eq : maxMoney = 4200000000000000 := rfl

/-! ## The parts of a transaction -/

structure COutPoint where
  hash : uint256
  n : UInt32
deriving DecidableEq, Repr

namespace COutPoint

/-- The outpoint that only a coinbase input carries. -/
def null : COutPoint := ⟨0, 0xFFFFFFFF⟩

def isNull (o : COutPoint) : Bool := o.hash == 0 && o.n == 0xFFFFFFFF

end COutPoint

structure CTxIn where
  prevout : COutPoint
  scriptSig : CScript
  nSequence : UInt32
deriving DecidableEq, Repr

def CTxIn.isFinal (txin : CTxIn) : Bool := txin.nSequence == 0xFFFFFFFF

structure CTxOut where
  nValue : Int
  scriptPubKey : CScript
deriving DecidableEq, Repr

namespace CTxOut

/-- `SetNull`: a spent output. -/
def null : CTxOut := ⟨-1, []⟩

def isNull (out : CTxOut) : Bool := out.nValue == -1

@[simp] theorem isNull_null : null.isNull = true := rfl

theorem isNull_of_nonneg {out : CTxOut} (h : 0 ≤ out.nValue) : out.isNull = false := by
  simp only [isNull, beq_eq_false_iff_ne]
  omega

end CTxOut

structure CTransaction where
  nVersion : Int32
  vin : List CTxIn
  vout : List CTxOut
  nLockTime : UInt32
deriving DecidableEq, Repr

structure CBlockHeader where
  nVersion : Int32
  hashPrevBlock : uint256
  hashMerkleRoot : uint256
  nTime : UInt32
  nBits : UInt32
  nNonce : UInt32
deriving DecidableEq, Repr

/-- The hash functions of `hash.h`: of a transaction, of a block header, and of two nodes of
a merkle tree. -/
class Hashing where
  hashTx : CTransaction → uint256
  hashHeader : CBlockHeader → uint256
  hash2 : uint256 → uint256 → uint256

/-! ## Serialized sizes -/

def maxBlockSize : Nat := 1000000
def maxBlockSizeGen : Nat := maxBlockSize / 2
def maxStandardTxSize : Nat := maxBlockSizeGen / 5

def getSizeOfCompactSize (nSize : Nat) : Nat :=
  if nSize < 253 then 1
  else if nSize ≤ 0xFFFF then 3
  else if nSize ≤ 0xFFFFFFFF then 5
  else 9

/-- `GetSerializeSize` of a vector: the count and then the elements. -/
def vectorSize {α : Type} (size : α → Nat) (v : List α) : Nat :=
  getSizeOfCompactSize v.length + (v.map size).sum

theorem le_sum_map {α : Type} {size : α → Nat} {v : List α} {a : α} (h : a ∈ v) :
    size a ≤ (v.map size).sum :=
  List.le_sum_of_mem (List.mem_map_of_mem h)

theorem le_vectorSize {α : Type} {size : α → Nat} {v : List α} {a : α} (h : a ∈ v) :
    size a ≤ vectorSize size v :=
  Nat.le_trans (le_sum_map h) (Nat.le_add_left _ _)

theorem length_le_vectorSize {α : Type} (size : α → Nat) {v : List α}
    (h : ∀ a ∈ v, 1 ≤ size a) : v.length ≤ vectorSize size v := by
  refine Nat.le_trans ?_ (Nat.le_add_left _ _)
  induction v with
  | nil => simp
  | cons a v ih =>
    have h1 := h a List.mem_cons_self
    have h2 := ih (fun b hb => h b (List.mem_cons_of_mem _ hb))
    simp only [List.map_cons, List.sum_cons, List.length_cons]
    omega

def CScript.getSerializeSize (s : CScript) : Nat := getSizeOfCompactSize s.length + s.length

def CTxIn.getSerializeSize (txin : CTxIn) : Nat :=
  36 + CScript.getSerializeSize txin.scriptSig + 4

def CTxOut.getSerializeSize (out : CTxOut) : Nat :=
  8 + CScript.getSerializeSize out.scriptPubKey

def CTransaction.getSerializeSize (tx : CTransaction) : Nat :=
  4 + vectorSize CTxIn.getSerializeSize tx.vin + vectorSize CTxOut.getSerializeSize tx.vout + 4

theorem CTransaction.scriptPubKey_le_size {tx : CTransaction} {out : CTxOut} (h : out ∈ tx.vout) :
    out.scriptPubKey.length ≤ tx.getSerializeSize := by
  have h1 : out.getSerializeSize ≤ vectorSize CTxOut.getSerializeSize tx.vout := le_vectorSize h
  have h2 : out.scriptPubKey.length ≤ out.getSerializeSize := by
    unfold CTxOut.getSerializeSize CScript.getSerializeSize
    omega
  unfold CTransaction.getSerializeSize
  omega

theorem CTransaction.vout_length_le_size (tx : CTransaction) :
    tx.vout.length ≤ tx.getSerializeSize := by
  have h := length_le_vectorSize CTxOut.getSerializeSize (v := tx.vout)
    (fun out _ => by unfold CTxOut.getSerializeSize; omega)
  unfold CTransaction.getSerializeSize
  omega

theorem CTransaction.vin_length_le_size (tx : CTransaction) :
    tx.vin.length ≤ tx.getSerializeSize := by
  have h := length_le_vectorSize CTxIn.getSerializeSize (v := tx.vin)
    (fun txin _ => by unfold CTxIn.getSerializeSize; omega)
  unfold CTransaction.getSerializeSize
  omega

/-- The ways out of a validation routine other than success. `DoS` is `CValidationState::DoS`
(and, at level `0`, `Invalid`): a rule of the network is violated. `error` leaves the
validation state alone, `abort` is `Abort`, `runtimeError` a thrown exception, `assertion` a
failed `assert` or a use of an object that is not there, `overflow` a signed 64-bit overflow
and `shift` a shift by more bits than the type has. -/
inductive Failure where
  | DoS (level : Nat) (message : String)
  | error (message : String)
  | abort (message : String)
  | runtimeError (message : String)
  | assertion
  | overflow
  | shift
deriving DecidableEq, Repr

/-- `CValidationState::IsInvalid` after the failure. -/
def Failure.isInvalid : Failure → Bool
  | .DoS _ _ => true
  | _ => false

abbrev Check := Except Failure

namespace CTransaction

def getHash [Hashing] (tx : CTransaction) : uint256 := Hashing.hashTx tx

/-- A single input whose prevout is null. -/
def isCoinBase (tx : CTransaction) : Bool :=
  match tx.vin with
  | [txin] => txin.prevout.isNull
  | _ => false

/-- The loop of `GetValueOut` from the running total `nValueOut`. -/
def valueOutFrom : Int → List CTxOut → Check Int
  | nValueOut, [] => .ok nValueOut
  | nValueOut, txout :: vout => do
    let nValueOut ← add64 .overflow nValueOut txout.nValue
    require (moneyRange txout.nValue && moneyRange nValueOut)
      (.runtimeError "CTransaction::GetValueOut() : value out of range")
    valueOutFrom nValueOut vout

def getValueOut (tx : CTransaction) : Check Int := valueOutFrom 0 tx.vout

def valueOut (tx : CTransaction) : Int := (tx.vout.map CTxOut.nValue).sum

/-! ## Context-free checks -/

/-- The loop of `CheckTransaction` over the outputs, from the running total `nValueOut`. -/
def checkOutputs : Int → List CTxOut → Check Unit
  | _, [] => .ok ()
  | nValueOut, txout :: vout => do
    require (0 ≤ txout.nValue)
      (.DoS 100 "CTransaction::CheckTransaction() : txout.nValue negative")
    require (txout.nValue ≤ maxMoney)
      (.DoS 100 "CTransaction::CheckTransaction() : txout.nValue too high")
    require (moneyRange (nValueOut + txout.nValue))
      (.DoS 100 "CTransaction::CheckTransaction() : txout total out of range")
    checkOutputs (nValueOut + txout.nValue) vout

def checkTransaction (tx : CTransaction) : Check Unit := do
  require (!tx.vin.isEmpty) (.DoS 10 "CTransaction::CheckTransaction() : vin empty")
  require (!tx.vout.isEmpty) (.DoS 10 "CTransaction::CheckTransaction() : vout empty")
  require (tx.getSerializeSize ≤ maxBlockSize)
    (.DoS 100 "CTransaction::CheckTransaction() : size limits failed")
  checkOutputs 0 tx.vout
  require (tx.vin.map CTxIn.prevout).Nodup
    (.DoS 100 "CTransaction::CheckTransaction() : duplicate inputs")
  if tx.isCoinBase then
    require (tx.vin.all fun txin => 2 ≤ txin.scriptSig.length && txin.scriptSig.length ≤ 100)
      (.DoS 100 "CTransaction::CheckTransaction() : coinbase script size")
  else
    require (tx.vin.all fun txin => !txin.prevout.isNull)
      (.DoS 10 "CTransaction::CheckTransaction() : prevout is null")

/-- The outputs passed by the loop are in range, one by one and in total. -/
theorem checkOutputs_ok {n : Int} {vout : List CTxOut} {u : Unit} (hn : moneyRange n = true)
    (h : checkOutputs n vout = .ok u) :
    (∀ out ∈ vout, 0 ≤ out.nValue ∧ out.nValue ≤ maxMoney) ∧
      n + (vout.map CTxOut.nValue).sum ≤ maxMoney := by
  induction vout generalizing n with
  | nil =>
    have := moneyRange_iff.mp hn
    simp
    omega
  | cons out vout ih =>
    simp only [checkOutputs, bind_ok, require_ok, decide_eq_true_eq] at h
    obtain ⟨_, h0, _, h1, _, h2, h3⟩ := h
    obtain ⟨hall, hsum⟩ := ih h2 h3
    refine ⟨?_, by simp only [List.map_cons, List.sum_cons]; omega⟩
    intro o ho
    rcases List.mem_cons.mp ho with rfl | ho
    · exact ⟨h0, h1⟩
    · exact hall o ho

/-- What `CheckTransaction` establishes. -/
structure Checked (tx : CTransaction) : Prop where
  vin_ne : tx.vin ≠ []
  vout_ne : tx.vout ≠ []
  size_le : tx.getSerializeSize ≤ maxBlockSize
  value_range : ∀ out ∈ tx.vout, 0 ≤ out.nValue ∧ out.nValue ≤ maxMoney
  valueOut_le : tx.valueOut ≤ maxMoney
  prevout_nodup : (tx.vin.map CTxIn.prevout).Nodup
  prevout_ne_null : tx.isCoinBase = false → ∀ txin ∈ tx.vin, txin.prevout.isNull = false

theorem checked_of_checkTransaction {tx : CTransaction} {u : Unit}
    (h : tx.checkTransaction = .ok u) : tx.Checked := by
  simp only [checkTransaction, bind_ok, require_ok, decide_eq_true_eq] at h
  obtain ⟨_, hvin, _, hvout, _, hsize, _, houts, _, hnodup, hrest⟩ := h
  obtain ⟨hrange, hsum⟩ := checkOutputs_ok (by decide) houts
  refine ⟨by simpa using hvin, by simpa using hvout, hsize, hrange, ?_, hnodup, ?_⟩
  · simpa [valueOut] using hsum
  · intro hcb txin hmem
    rw [if_neg (by simp [hcb]), require_ok, List.all_eq_true] at hrest
    simpa using hrest txin hmem

theorem Checked.valueOut_nonneg {tx : CTransaction} (h : tx.Checked) : 0 ≤ tx.valueOut := by
  apply List.sum_nonneg
  intro v hv
  obtain ⟨out, hout, rfl⟩ := List.mem_map.mp hv
  exact (h.value_range out hout).1

/-- On checked outputs the loop of `GetValueOut` neither throws nor overflows. -/
theorem valueOutFrom_eq {n : Int} {vout : List CTxOut} (hn : 0 ≤ n)
    (hr : ∀ out ∈ vout, 0 ≤ out.nValue) (hs : n + (vout.map CTxOut.nValue).sum ≤ maxMoney) :
    valueOutFrom n vout = .ok (n + (vout.map CTxOut.nValue).sum) := by
  induction vout generalizing n with
  | nil => simp [valueOutFrom]
  | cons out vout ih =>
    have h0 := hr out List.mem_cons_self
    have hr' : ∀ o ∈ vout, 0 ≤ o.nValue := fun o ho => hr o (List.mem_cons_of_mem _ ho)
    have hrest : 0 ≤ (vout.map CTxOut.nValue).sum := by
      apply List.sum_nonneg
      intro v hv
      obtain ⟨o, ho, rfl⟩ := List.mem_map.mp hv
      exact hr' o ho
    simp only [List.map_cons, List.sum_cons] at hs ⊢
    have hmm := maxMoney_eq
    have hrange : Int64Range (n + out.nValue) := by
      constructor <;> omega
    have h1 : moneyRange out.nValue = true := moneyRange_iff.mpr ⟨h0, by omega⟩
    have h2 : moneyRange (n + out.nValue) = true := moneyRange_iff.mpr ⟨by omega, by omega⟩
    have hstep := ih (n := n + out.nValue) (by omega) hr' (by omega)
    rw [valueOutFrom, add64_of_range hrange]
    simp only [bind, Except.bind, require, h1, h2, Bool.and_self, if_true]
    rw [hstep, Int.add_assoc]

theorem Checked.getValueOut_eq {tx : CTransaction} (h : tx.Checked) :
    tx.getValueOut = .ok tx.valueOut := by
  have h1 : valueOutFrom 0 tx.vout = .ok (0 + (tx.vout.map CTxOut.nValue).sum) :=
    valueOutFrom_eq (by omega) (fun out ho => (h.value_range out ho).1)
      (by simpa [valueOut] using h.valueOut_le)
  simpa [getValueOut, valueOut] using h1

end CTransaction

end Terracoin
