import Terracoin.Lib.Buckets
import Terracoin.Lib.Memo
import Terracoin.Lib.Run
import Terracoin.Script.CheckSig
import Mathlib.Data.Prod.Lex
import Mathlib.Data.List.Lex

/-!
# `CSignatureCache`

`CheckSig` remembers the triples of signature hash, signature and public key that verified. Each
of its two uses of the cache is done under a lock, so the calls of all threads are interleaved at
`Get` and `Set`: a call asks the cache and verifies, and what verified is put into the cache some
time later.

A triple has all that the verification depends on, so all triples of the cache verify
(`Sound`), and a call returns what it would return without the cache
(`checkSig_eq_uncached`). `Set` evicts entries at random, and the loop ends because each pass
makes the cache smaller (`set_isSome`).
-/

namespace Terracoin

open Buckets (setInsert)

/-- `sigdata_type`: signature hash, signature and public key. -/
structure SigData where
  hash : uint256
  vchSig : valtype
  pubKey : valtype
deriving DecidableEq, Repr

namespace SigData

/-- The order of tuples is lexicographic. -/
def toLexNat (k : SigData) : ℕ ×ₗ List ℕ ×ₗ List ℕ :=
  toLex (k.hash.toNat, toLex (k.vchSig.map UInt8.toNat, k.pubKey.map UInt8.toNat))

theorem toLexNat_injective : Function.Injective toLexNat := by
  rintro ⟨hash, vchSig, pubKey⟩ ⟨hash', vchSig', pubKey'⟩ h
  have hpair := Prod.mk.inj (toLex.injective h)
  have hlists := Prod.mk.inj (toLex.injective hpair.2)
  have hinj : Function.Injective UInt8.toNat := fun _ _ => UInt8.toNat_inj.mp
  obtain rfl := BitVec.eq_of_toNat_eq hpair.1
  obtain rfl := hinj.list_map hlists.1
  obtain rfl := hinj.list_map hlists.2
  rfl

instance : LinearOrder SigData := LinearOrder.lift' toLexNat toLexNat_injective

end SigData

/-! ## The cache -/

/-- `CSignatureCache`: the entries of `setValid`, in ascending order. -/
abbrev CSignatureCache := List SigData

namespace CSignatureCache

def get (setValid : CSignatureCache) (k : SigData) : Bool := setValid.contains k

/-- The entry that is evicted: the first one from a random hash on, or else the first one. -/
def victim (setValid : CSignatureCache) (randomHash : uint256) : Option SigData :=
  match setValid.find? fun k => decide (⟨randomHash, [], []⟩ ≤ k) with
  | some k => some k
  | none => setValid.head?

/-- The loop of `Set`. There is nothing to erase at the end of an empty set. -/
def evict (nMaxCacheSize : Int64) : (Nat → uint256) → Nat → CSignatureCache → Option CSignatureCache
  | _, 0, _ => none
  | getRandHash, fuel + 1, setValid =>
    if (setValid.length : Int) > nMaxCacheSize.toInt then
      match setValid.victim (getRandHash 0) with
      | none => none
      | some k => evict nMaxCacheSize (fun n => getRandHash (n + 1)) fuel (setValid.erase k)
    else some setValid

/-- `Set`, with `-maxsigcachesize` and the numbers that `GetRandHash` returns. -/
def set (setValid : CSignatureCache) (nMaxCacheSize : Int64) (getRandHash : Nat → uint256)
    (fuel : Nat) (k : SigData) : Option CSignatureCache :=
  if nMaxCacheSize ≤ 0 then some setValid
  else (setValid.evict nMaxCacheSize getRandHash fuel).map (setInsert k)

end CSignatureCache

namespace CSignatureCache

variable {setValid setValid' : CSignatureCache} {nMaxCacheSize : Int64}
  {getRandHash : Nat → uint256} {fuel : Nat}

theorem victim_mem {k : SigData} {randomHash : uint256}
    (h : setValid.victim randomHash = some k) : k ∈ setValid := by
  unfold victim at h
  split at h
  · next hfind =>
    obtain rfl := Option.some.inj h
    exact List.mem_of_find?_eq_some hfind
  · exact List.mem_of_mem_head? h

theorem exists_victim (hne : setValid ≠ []) (randomHash : uint256) :
    ∃ k, setValid.victim randomHash = some k := by
  obtain ⟨k, ks, rfl⟩ := List.exists_cons_of_ne_nil hne
  unfold victim
  split
  · exact ⟨_, rfl⟩
  · exact ⟨k, rfl⟩

theorem evict_subset (h : setValid.evict nMaxCacheSize getRandHash fuel = some setValid') :
    setValid' ⊆ setValid := by
  induction fuel generalizing setValid getRandHash with
  | zero => cases h
  | succ fuel ih =>
    unfold evict at h
    split at h
    · split at h
      · cases h
      · exact fun k hk => List.erase_subset (ih h hk)
    · obtain rfl := Option.some.inj h
      exact List.Subset.refl _

/-- Each pass of the loop makes the cache smaller, so it ends, and it always finds an entry. -/
theorem evict_isSome (hmax : 0 < nMaxCacheSize) (hfuel : setValid.length < fuel) :
    (setValid.evict nMaxCacheSize getRandHash fuel).isSome = true := by
  induction fuel generalizing setValid getRandHash with
  | zero => exact absurd hfuel (Nat.not_lt_zero _)
  | succ fuel ih =>
    unfold evict
    split
    · next hlarge =>
      have hpositive : (0 : Int) < nMaxCacheSize.toInt := Int64.lt_iff_toInt_lt.mp hmax
      have hne : setValid ≠ [] := by
        rintro rfl
        rw [List.length_nil] at hlarge
        omega
      obtain ⟨k, hk⟩ := exists_victim hne (getRandHash 0)
      rw [hk]
      have hlength := List.length_erase_of_mem (victim_mem hk)
      have hlarger := List.length_pos_of_ne_nil hne
      exact ih (by omega)
    · rfl

theorem set_isSome (k : SigData) (hfuel : setValid.length < fuel) :
    (setValid.set nMaxCacheSize getRandHash fuel k).isSome = true := by
  unfold set
  split
  · rfl
  · next hmax =>
    rw [Option.isSome_map]
    exact evict_isSome (Int64.not_le.mp hmax) hfuel

theorem set_subset {k : SigData}
    (h : setValid.set nMaxCacheSize getRandHash fuel k = some setValid') :
    setValid' ⊆ k :: setValid := by
  unfold set at h
  split at h
  · obtain rfl := Option.some.inj h
    exact List.subset_cons_self ..
  · obtain ⟨rest, hrest, rfl⟩ := Option.map_eq_some_iff.mp h
    intro k' hk'
    cases Buckets.mem_setInsert.mp hk' with
    | inl heq => exact heq ▸ List.mem_cons_self
    | inr hmem => exact List.mem_cons_of_mem _ (evict_subset hrest hmem)

end CSignatureCache

/-! ## `CheckSig` -/

/-- The arguments of `CheckSig`. -/
structure CheckSigCall where
  vchSig : valtype
  vchPubKey : valtype
  scriptCode : CScript
  txTo : CTransaction
  nIn : Nat
  nHashType : Int
  flags : Nat
deriving Repr

section

variable [ECDSA] [ByteHashing]

/-- `SetPubKey` and `Verify`. -/
def SigData.verifies (k : SigData) : Bool :=
  match PublicKeys.o2i k.pubKey with
  | none => false
  | some key => ECDSA.verify key k.hash k.vchSig

namespace CheckSigCall

/-- What the cache is asked for, unless there is no signature or its hash type is another one. Hash
type is one byte tacked on to the end of the signature. -/
def sigdata (call : CheckSigCall) : Option SigData :=
  match call.vchSig.getLast? with
  | none => none
  | some last =>
    if call.nHashType ≠ 0 ∧ call.nHashType ≠ last.toNat then none
    else
      some ⟨signatureHash call.scriptCode call.txTo call.nIn last.toNat, call.vchSig.dropLast,
        call.vchPubKey⟩

/-- `CheckSig` with `Get` of a cache, and the triple that it calls `Set` for. -/
def checkSig (call : CheckSigCall) (get : SigData → Bool) : Bool × Option SigData :=
  match call.sigdata with
  | none => (false, none)
  | some k =>
    if get k then (true, none)
    else if k.verifies then
      -- Bit 2 is `SCRIPT_VERIFY_NOCACHE`.
      (true, if call.flags.testBit 2 then none else some k)
    else (false, none)

def checkSigUncached (call : CheckSigCall) : Bool := (call.checkSig fun _ => false).1

end CheckSigCall

/-! ## The calls of all threads -/

/-- The cache, and the triples that verified and for which `Set` is yet to be called. -/
structure SigCacheState where
  setValid : CSignatureCache
  pending : List SigData
deriving DecidableEq, Repr

inductive SigCacheOp where
  /-- A thread calls `CheckSig` and gets to the end, or to the call of `Set`. -/
  | checkSig (call : CheckSigCall)
  /-- A thread does what it calls `Set` for. -/
  | set (k : SigData) (nMaxCacheSize : Int64) (getRandHash : Nat → uint256) (fuel : Nat)

namespace SigCacheState

/-- The static `signatureCache` before the first call. -/
def init : SigCacheState := ⟨[], []⟩

def step (s : SigCacheState) : SigCacheOp → Option SigCacheState
  | .checkSig call => some { s with pending := (call.checkSig s.setValid.get).2.toList ++ s.pending }
  | .set k nMaxCacheSize getRandHash fuel =>
    if k ∈ s.pending then
      (s.setValid.set nMaxCacheSize getRandHash fuel k).map fun setValid =>
        ⟨setValid, s.pending.erase k⟩
    else none

/-- Every triple in the cache, or on its way there, verifies. -/
structure Inv (s : SigCacheState) : Prop where
  setValid : Memo.Sound SigData.verifies s.setValid
  pending : Memo.Sound SigData.verifies s.pending

omit [ByteHashing] in
theorem inv_init : Inv init := ⟨Memo.sound_nil, Memo.sound_nil⟩

end SigCacheState

namespace CheckSigCall

variable {get : SigData → Bool} (call : CheckSigCall)

theorem verifies_of_checkSig {k : SigData} (h : (call.checkSig get).2 = some k) :
    k.verifies = true := by
  unfold checkSig at h
  split at h
  · cases h
  · next k' _ =>
    split at h
    · cases h
    · split at h
      · next hverifies =>
        split at h
        · cases h
        · exact Option.some.inj h ▸ hverifies
      · cases h

theorem checkSig_fst :
    (call.checkSig get).1 = call.sigdata.any fun k => get k || k.verifies := by
  unfold checkSig
  cases call.sigdata with
  | none => rfl
  | some k =>
    simp only [Option.any_some]
    cases get k <;> cases k.verifies <;> rfl

theorem checkSigUncached_eq : call.checkSigUncached = call.sigdata.any SigData.verifies := by
  rw [checkSigUncached, checkSig_fst]
  rfl

theorem checkSig_of_sound {setValid : CSignatureCache}
    (h : Memo.Sound SigData.verifies setValid) :
    (call.checkSig setValid.get).1 = call.checkSigUncached := by
  rw [checkSig_fst, checkSigUncached_eq]
  congr 1
  funext k
  exact h.contains_or k

theorem checkSigUncached_eq_checkSig (nHashType : Nat) (h : call.nHashType = nHashType) :
    call.checkSigUncached =
      Terracoin.checkSig call.txTo call.nIn nHashType call.vchSig call.vchPubKey
        call.scriptCode := by
  rw [checkSigUncached_eq, sigdata, Terracoin.checkSig, h]
  cases call.vchSig.getLast? with
  | none => rfl
  | some last =>
    simp only [ne_eq, Nat.cast_eq_zero, Nat.cast_inj]
    split <;> rfl

end CheckSigCall

namespace SigCacheState

variable {s s' : SigCacheState}

theorem Inv.step {op : SigCacheOp} (h : Inv s) (hstep : s.step op = some s') : Inv s' := by
  cases op with
  | checkSig call =>
    obtain rfl := Option.some.inj hstep
    refine ⟨h.setValid, ?_⟩
    cases hk : (call.checkSig s.setValid.get).2 with
    | none => exact h.pending
    | some k => exact h.pending.cons (call.verifies_of_checkSig hk)
  | set k nMaxCacheSize getRandHash fuel =>
    by_cases hk : k ∈ s.pending
    · rw [SigCacheState.step, if_pos hk] at hstep
      obtain ⟨setValid, hset, rfl⟩ := Option.map_eq_some_iff.mp hstep
      have hcons := h.setValid.cons (h.pending k hk)
      exact ⟨hcons.anti (CSignatureCache.set_subset hset), h.pending.anti List.erase_subset⟩
    · rw [SigCacheState.step, if_neg hk] at hstep
      cases hstep

theorem inv_run {ops : List SigCacheOp} (h : Run.run step init ops = some s) : Inv s :=
  Run.run_invariant (fun _ _ _ _ hs hstep => hs.step hstep) inv_init h

/-- After any calls of `CheckSig` and `Set` by any threads, a call returns what it returns with the
cache disabled; and the loop of `Set` ends, whatever it evicts. -/
theorem checkSig_eq_uncached :
    (∀ (ops : List SigCacheOp) (s : SigCacheState), Run.run step init ops = some s →
      ∀ call : CheckSigCall, (call.checkSig s.setValid.get).1 = call.checkSigUncached) ∧
    ∀ (setValid : CSignatureCache) (nMaxCacheSize : Int64) (getRandHash : Nat → uint256)
      (k : SigData), ∃ enough, ∀ fuel ≥ enough,
        (setValid.set nMaxCacheSize getRandHash fuel k).isSome = true := by
  refine ⟨fun ops s hrun call => ?_, fun setValid nMaxCacheSize getRandHash k => ?_⟩
  · exact call.checkSig_of_sound (inv_run hrun).setValid
  · exact ⟨setValid.length + 1, fun fuel hfuel => CSignatureCache.set_isSome k hfuel⟩

end SigCacheState

end

namespace SigCacheSample

/-- A key verifies one signature, which is the key. -/
scoped instance ecdsa : ECDSA where
  Key := List UInt8
  o2i := some
  i2o _ key := key
  regenerate secret := secret
  checkKey _ := true
  sign _ secret _ := some secret
  verify key _ vchSig := vchSig == key

scoped instance hashing : ByteHashing := ⟨fun bytes => bytes.length⟩

def call : CheckSigCall := ⟨[7, 1], [7], [], ⟨1, [⟨⟨1, 0⟩, [], 0xffffffff⟩], [], 0⟩, 0, 1, 0⟩

def entry : SigData := ⟨55, [7], [7]⟩

/-- The triple of the call is put into the cache, and then the cache is asked for it. -/
theorem checkSig_eq_uncached_sample :
    CSignatureCache.get [entry] entry = true ∧ call.sigdata = some entry ∧
      (call.checkSig (CSignatureCache.get [entry])).1 = call.checkSigUncached ∧
      ∃ enough, ∀ fuel ≥ enough,
        (CSignatureCache.set [entry] 1 (fun _ => 0) fuel ⟨0, [], []⟩).isSome = true :=
  ⟨by decide, by decide +kernel,
    SigCacheState.checkSig_eq_uncached.1 [.checkSig call, .set entry 1 (fun _ => 0) 1]
      ⟨[entry], []⟩ (by decide +kernel) call,
    SigCacheState.checkSig_eq_uncached.2 [entry] 1 (fun _ => 0) ⟨0, [], []⟩⟩

end SigCacheSample

end Terracoin
