import Mathlib.Data.Finset.Dedup
import Mathlib.Data.Finset.Empty
import Terracoin.Lib.CheckedInt
import Terracoin.Lib.Selected
import Terracoin.Mempool.Pool
import Terracoin.Wallet.WalletTx

/-!
# Selecting coins

`SelectCoinsMinConf` looks for outputs that sum up to a target: a single exact one, all the smaller
ones, the smallest larger one, or the best subset of the smaller ones that a randomised search
comes up with. The sums wrap around like an `int64`. As long as none does, whatever the random numbers
are, it finds outputs if there are enough of them, and never pays more than with the smallest larger
one (`selectCoinsMinConf_spec`).
-/

namespace Terracoin

open Checked (Int64Range wrap64 wrap64_of_range)
open Selected

/-- `COutput`. The key of the transaction in `mapWallet` stands for the pointer to it. -/
structure COutput where
  hash : uint256
  tx : CWalletTx
  i : Nat
  nDepth : Int

/-- `pair<const CWalletTx*,unsigned int>`. -/
abbrev OutputKey := uint256 × Nat

namespace COutput

def nValue (output : COutput) : Int := (output.tx.tx.vout[output.i]?.elim (-1) CTxOut.nValue)

def key (output : COutput) : OutputKey := (output.hash, output.i)

/-- What the selection remembers of an output. -/
def coin (output : COutput) : Int × OutputKey := (output.nValue, output.key)

end COutput

abbrev Coin := Int × OutputKey

def total (coins : List Coin) : Int := (coins.map Prod.fst).sum

/-! ## `ApproximateBestSubset` -/

/-- The variables of a round. -/
structure Pass where
  vfIncluded : List Bool
  nTotal : Int
  fReachedTarget : Bool
  vfBest : List Bool
  nBest : Int

namespace Pass

/-- Include a coin, and take it back if it reaches the target. -/
def visit (nTargetValue : Int) (i : Nat) (coin : Coin) (s : Pass) : Pass :=
  let nTotal := wrap64 (s.nTotal + coin.1)
  let vfIncluded := s.vfIncluded.set i true
  if nTargetValue ≤ nTotal then
    let s := if nTotal < s.nBest then { s with nBest := nTotal, vfBest := vfIncluded } else s
    { s with
      fReachedTarget := true
      nTotal := wrap64 (nTotal - coin.1)
      vfIncluded := vfIncluded.set i false }
  else { s with nTotal := nTotal, vfIncluded := vfIncluded }

/-- The loop over the coins from number `i` on. -/
def run (nTargetValue : Int) (take : Nat → Pass → Bool) : Nat → List Coin → Pass → Pass
  | _, [], s => s
  | i, coin :: vValue, s =>
    run nTargetValue take (i + 1) vValue (if take i s then s.visit nTargetValue i coin else s)

/-- A round: a pass over coins chosen at random, and, if that did not reach the target, one over
those that are left. -/
def round (vValue : List Coin) (nTargetValue : Int) (insecureRand : Nat → Bool)
    (best : List Bool × Int) : List Bool × Int :=
  let s : Pass := ⟨List.replicate vValue.length false, 0, false, best.1, best.2⟩
  let s := run nTargetValue (fun i _ => insecureRand i) 0 vValue s
  let s := if s.fReachedTarget then s
    else run nTargetValue (fun i s => !s.vfIncluded.getD i true) 0 vValue s
  (s.vfBest, s.nBest)

end Pass

/-- The rounds from number `nRep` on. -/
def bestSubsetFrom (vValue : List Coin) (nTargetValue : Int) (insecureRand : Nat → Nat → Bool) :
    Nat → Nat → List Bool × Int → List Bool × Int
  | 0, _, best => best
  | iterations + 1, nRep, best =>
    if best.2 = nTargetValue then best
    else bestSubsetFrom vValue nTargetValue insecureRand iterations (nRep + 1)
      (Pass.round vValue nTargetValue (insecureRand nRep) best)

/-- `vfBest` and `nBest`. The random bit for a coin in a round is `insecureRand`'s. -/
def approximateBestSubset (vValue : List Coin) (nTotalLower nTargetValue : Int)
    (insecureRand : Nat → Nat → Bool) (iterations : Nat) : List Bool × Int :=
  bestSubsetFrom vValue nTargetValue insecureRand iterations 0
    (List.replicate vValue.length true, nTotalLower)

/-! ## `SelectCoinsMinConf` -/

/-- What is left to chance: the order that `random_shuffle` makes, the order of equal values after
`sort`, and the random bits of the two calls of `ApproximateBestSubset`. -/
structure Choices where
  shuffle : List COutput → List COutput
  shuffle_perm : ∀ vCoins, (shuffle vCoins).Perm vCoins
  sort : List Coin → List Coin
  sort_perm : ∀ vValue, (sort vValue).Perm vValue
  sort_sorted : ∀ vValue, (sort vValue).Pairwise fun a b => b.1 ≤ a.1
  insecureRand : Bool → Nat → Nat → Bool

/-- The largest `int64` with a null pointer at first. -/
structure Lower where
  coinLowestLarger : Int × Option OutputKey
  vValue : List Coin
  nTotalLower : Int

def Lower.start : Lower := ⟨(2 ^ 63 - 1, none), [], 0⟩

section

variable (isFromMe : CWalletTx → Bool)

/-- Whether an output has the confirmations it needs. -/
def eligible (nConfMine nConfTheirs : Int) (output : COutput) : Bool :=
  !decide (output.nDepth < if isFromMe output.tx then nConfMine else nConfTheirs)

/-- The loop over the coins. It ends early with a coin of the very value. -/
def sortOut (nTargetValue nConfMine nConfTheirs : Int) : List COutput → Lower → Except Coin Lower
  | [], s => .ok s
  | output :: vCoins, s =>
    if !eligible isFromMe nConfMine nConfTheirs output then
      sortOut nTargetValue nConfMine nConfTheirs vCoins s
    else
      let n := output.nValue
      if n = nTargetValue then .error output.coin
      else if n < wrap64 (nTargetValue + CTransaction.cent) then
        sortOut nTargetValue nConfMine nConfTheirs vCoins
          { s with vValue := s.vValue ++ [output.coin], nTotalLower := wrap64 (s.nTotalLower + n) }
      else if n < s.coinLowestLarger.1 then
        sortOut nTargetValue nConfMine nConfTheirs vCoins
          { s with coinLowestLarger := (n, some output.key) }
      else sortOut nTargetValue nConfMine nConfTheirs vCoins s

def insertCoins (coins : List Coin) : Bool × Finset OutputKey × Int :=
  (true, (coins.map Prod.snd).toFinset,
    coins.foldl (fun nValueRet coin => wrap64 (nValueRet + coin.1)) 0)

/-- What is returned, `setCoinsRet` and `nValueRet`. -/
def selectCoinsMinConf (choices : Choices) (nTargetValue nConfMine nConfTheirs : Int)
    (vCoins : List COutput) : Bool × Finset OutputKey × Int :=
  match sortOut isFromMe nTargetValue nConfMine nConfTheirs (choices.shuffle vCoins) .start with
  | .error coin => insertCoins [coin]
  | .ok s =>
    if s.nTotalLower = nTargetValue then insertCoins s.vValue
    else if s.nTotalLower < nTargetValue then
      match s.coinLowestLarger with
      | (_, none) => (false, ∅, 0)
      | (n, some key) => insertCoins [(n, key)]
    else
      -- Solve subset sum by stochastic approximation
      let vValue := choices.sort s.vValue
      let best := approximateBestSubset vValue s.nTotalLower nTargetValue
        (choices.insecureRand false) 1000
      let best :=
        if best.2 ≠ nTargetValue ∧ wrap64 (nTargetValue + CTransaction.cent) ≤ s.nTotalLower then
          approximateBestSubset vValue s.nTotalLower (wrap64 (nTargetValue + CTransaction.cent))
            (choices.insecureRand true) 1000
        else best
      match s.coinLowestLarger with
      | (_, none) => insertCoins (selected vValue best.1)
      | (n, some key) =>
        -- The bigger coin is returned if no good subset was found or if it is closer
        if (best.2 ≠ nTargetValue ∧ best.2 < wrap64 (nTargetValue + CTransaction.cent)) ∨
            n ≤ best.2 then
          insertCoins [(n, key)]
        else insertCoins (selected vValue best.1)

end

/-! ## Sums -/

theorem total_perm {coins coins' : List Coin} (h : coins.Perm coins') :
    total coins = total coins' :=
  (h.map Prod.fst).sum_eq

theorem total_cons (coin : Coin) (coins : List Coin) : total (coin :: coins) = coin.1 + total coins := by
  rw [total, List.map_cons, List.sum_cons, total]

theorem total_singleton (c : Coin) : total [c] = c.1 := by
  rw [total_cons, total, List.map_nil, List.sum_nil, Int.add_zero]

theorem total_append (coins coins' : List Coin) : total (coins ++ coins') = total coins + total coins' := by
  rw [total, List.map_append, List.sum_append, total, total]

theorem total_le_of_sublist {coins coins' : List Coin} (h : coins.Sublist coins')
    (hpos : ∀ c ∈ coins', 0 < c.1) : total coins ≤ total coins' := by
  induction h with
  | slnil => exact Int.le_refl 0
  | cons c _ ih =>
    have hc := hpos c List.mem_cons_self
    have hrest := ih fun c hmem => hpos c (List.mem_cons_of_mem _ hmem)
    rw [total_cons]
    omega
  | cons_cons c _ ih =>
    have hrest := ih fun c hmem => hpos c (List.mem_cons_of_mem _ hmem)
    rw [total_cons, total_cons]
    omega

theorem total_le_of_subperm {coins coins' : List Coin} (h : coins.Subperm coins')
    (hpos : ∀ c ∈ coins', 0 < c.1) : total coins ≤ total coins' := by
  obtain ⟨l, hperm, hsub⟩ := h
  rw [← total_perm hperm]
  exact total_le_of_sublist hsub hpos

/-- The sums of the coins, whichever of them are taken, do not wrap around. -/
def SumsFit (coins : List Coin) : Prop :=
  ∀ chosen : List Coin, chosen.Subperm coins → Int64Range (total chosen)

theorem sumsFit_of_total {coins : List Coin} (hpos : ∀ c ∈ coins, 0 < c.1)
    (h : total coins < 2 ^ 63) : SumsFit coins := by
  intro chosen hsub
  have hle := total_le_of_subperm hsub hpos
  have hnonneg := total_le_of_sublist (List.nil_sublist chosen) fun c hc => hpos c (hsub.subset hc)
  have hnil : total [] = 0 := rfl
  exact ⟨by omega, by omega⟩

theorem SumsFit.subperm {coins coins' : List Coin} (h : SumsFit coins) (hsub : coins'.Subperm coins) :
    SumsFit coins' := fun chosen hchosen => h chosen (hchosen.trans hsub)

theorem SumsFit.foldl_eq {coins later : List Coin} (h : SumsFit (coins ++ later)) :
    later.foldl (fun nValueRet coin => wrap64 (nValueRet + coin.1)) (total coins) =
      total (coins ++ later) := by
  induction later generalizing coins with
  | nil => rw [List.append_nil, List.foldl_nil]
  | cons c later ih =>
    rw [← List.singleton_append, ← List.append_assoc] at h ⊢
    have hsum : total coins + c.1 = total (coins ++ [c]) := by rw [total_append, total_singleton]
    have hfit := h _ (List.sublist_append_left (coins ++ [c]) later).subperm
    rw [List.singleton_append, List.foldl_cons, hsum, wrap64_of_range hfit]
    exact ih h

theorem SumsFit.insertCoins_eq {coins : List Coin} (h : SumsFit coins) :
    insertCoins coins = (true, (coins.map Prod.snd).toFinset, total coins) := by
  have hsum := @SumsFit.foldl_eq [] coins h
  rw [insertCoins]
  exact congrArg (fun nValueRet => (true, _, nValueRet)) hsum

/-! ## The search -/

/-- The best subset is one, its sum is known, and it reaches the target. -/
structure Found (vValue : List Coin) (nTargetValue : Int) (best : List Bool × Int) : Prop where
  nBest : best.2 = total (selected vValue best.1)
  enough : nTargetValue ≤ best.2

namespace Pass

/-- What holds between two coins. -/
structure Good (vValue : List Coin) (nTargetValue : Int) (s : Pass) : Prop where
  nTotal : s.nTotal = total (selected vValue s.vfIncluded)
  found : Found vValue nTargetValue (s.vfBest, s.nBest)

variable {vValue : List Coin} {nTargetValue : Int} {s : Pass}

theorem total_set {i : Nat} {coin : Coin} (hcoin : vValue[i]? = some coin)
    (hi : s.vfIncluded[i]? = some false) :
    total (selected vValue (s.vfIncluded.set i true)) =
      total (selected vValue s.vfIncluded) + coin.1 := by
  rw [total_perm (selected_set_true hcoin hi), total_cons, Int.add_comm]

/-- A coin that was not included is included, or everything included is as before. -/
theorem Good.visit (hfit : SumsFit vValue) (h : Good vValue nTargetValue s) {i : Nat} {coin : Coin}
    (hcoin : vValue[i]? = some coin) (hi : s.vfIncluded[i]? = some false) :
    Good vValue nTargetValue (s.visit nTargetValue i coin) := by
  have htotal : s.nTotal + coin.1 = total (selected vValue (s.vfIncluded.set i true)) := by
    rw [total_set hcoin hi, h.nTotal]
  have hwith : wrap64 (s.nTotal + coin.1) = s.nTotal + coin.1 := by
    rw [htotal]
    exact wrap64_of_range (hfit _ (selected_sublist _ _).subperm)
  have hwithout : wrap64 s.nTotal = s.nTotal := by
    rw [h.nTotal]
    exact wrap64_of_range (hfit _ (selected_sublist _ _).subperm)
  rw [Pass.visit]
  dsimp only
  rw [hwith, Int.add_sub_cancel, hwithout]
  split
  · next hreach =>
    have hback : (s.vfIncluded.set i true).set i false = s.vfIncluded := set_set_of_getElem? hi
    constructor
    · split
      · rw [hback]
        exact h.nTotal
      · rw [hback]
        exact h.nTotal
    · split
      · exact ⟨htotal, hreach⟩
      · exact h.found
  · exact ⟨htotal, h.found⟩

theorem vfIncluded_visit_of_ne {i j : Nat} {coin : Coin} (hij : i ≠ j) :
    (s.visit nTargetValue i coin).vfIncluded[j]? = s.vfIncluded[j]? := by
  rw [Pass.visit]
  dsimp only
  split
  · rw [List.getElem?_set_ne hij, List.getElem?_set_ne hij]
  · exact List.getElem?_set_ne hij

/-- A pass that includes only what is not included, as `J` sees to. -/
theorem Good.run (hfit : SumsFit vValue) {take : Nat → Pass → Bool} {J : Nat → Pass → Prop}
    (htake : ∀ i s, J i s → i < vValue.length → take i s = true → s.vfIncluded[i]? = some false)
    (hskip : ∀ i s, J i s → J (i + 1) s)
    (hvisit : ∀ i s coin, J i s → J (i + 1) (s.visit nTargetValue i coin))
    {i : Nat} {coins : List Coin} (hcoins : vValue.drop i = coins) (h : Good vValue nTargetValue s)
    (hJ : J i s) : Good vValue nTargetValue (Pass.run nTargetValue take i coins s) := by
  induction coins generalizing i s with
  | nil => exact h
  | cons coin coins ih =>
    have hcoin : vValue[i]? = some coin := by
      rw [← List.head?_drop, hcoins, List.head?_cons]
    have hdrop : vValue.drop (i + 1) = coins := by
      rw [← List.tail_drop, hcoins, List.tail_cons]
    have hlt := (List.getElem?_eq_some_iff.mp hcoin).1
    rw [Pass.run]
    split
    · next htrue => exact ih hdrop (h.visit hfit hcoin (htake i s hJ hlt htrue)) (hvisit i s coin hJ)
    · exact ih hdrop h (hskip i s hJ)

/-- A round does not spoil what was found. -/
theorem found_round (hfit : SumsFit vValue) {best : List Bool × Int} (h : Found vValue nTargetValue best)
    (insecureRand : Nat → Bool) :
    Found vValue nTargetValue (round vValue nTargetValue insecureRand best) := by
  let s : Pass := ⟨List.replicate vValue.length false, 0, false, best.1, best.2⟩
  have hstart : Good vValue nTargetValue s := by
    refine ⟨?_, h⟩
    rw [selected_replicate_false]
    rfl
  have hfirst : Good vValue nTargetValue
      (Pass.run nTargetValue (fun i _ => insecureRand i) 0 vValue s) := by
    -- From the coin that is next on none is included
    refine hstart.run hfit
      (J := fun i s => ∀ j, i ≤ j → j < vValue.length → s.vfIncluded[j]? = some false)
      (fun i s hJ hlt _ => hJ i (Nat.le_refl i) hlt)
      (fun i s hJ j hij hlt => hJ j (by omega) hlt)
      (fun i s coin hJ j hij hlt => ?_) rfl ?_
    · rw [vfIncluded_visit_of_ne (by omega)]
      exact hJ j (by omega) hlt
    · intro j _ hlt
      exact List.getElem?_replicate_of_lt hlt
  rw [round]
  split
  · exact hfirst.found
  · have hleft : ∀ (i : Nat) (s : Pass), (!s.vfIncluded.getD i true) = true →
        s.vfIncluded[i]? = some false := by
      intro i s htake
      rw [Bool.not_eq_true', List.getD_eq_getElem?_getD] at htake
      cases hi : s.vfIncluded[i]? with
      | none =>
        rw [hi] at htake
        cases htake
      | some f =>
        rw [hi] at htake
        exact congrArg some htake
    exact (hfirst.run hfit (J := fun _ _ => True) (fun i s _ _ htake => hleft i s htake)
      (fun _ _ _ => trivial) (fun _ _ _ _ => trivial) rfl trivial).found

end Pass

theorem found_bestSubsetFrom {vValue : List Coin} (hfit : SumsFit vValue) {nTargetValue : Int}
    {best : List Bool × Int} (h : Found vValue nTargetValue best) (insecureRand : Nat → Nat → Bool) (iterations nRep : Nat) :
    Found vValue nTargetValue
      (bestSubsetFrom vValue nTargetValue insecureRand iterations nRep best) := by
  induction iterations generalizing nRep best with
  | zero => exact h
  | succ iterations ih =>
    rw [bestSubsetFrom]
    split
    · exact h
    · exact ih (Pass.found_round hfit h _) _

theorem found_approximateBestSubset {vValue : List Coin} (hfit : SumsFit vValue) {nTargetValue : Int}
    (h : nTargetValue ≤ total vValue) (insecureRand : Nat → Nat → Bool) (iterations : Nat) :
    Found vValue nTargetValue
      (approximateBestSubset vValue (total vValue) nTargetValue insecureRand iterations) := by
  refine found_bestSubsetFrom hfit ⟨?_, h⟩ insecureRand iterations 0
  rw [selected_replicate_true]

/-! ## Sorting the coins out -/

/-- The coins of the outputs that have their confirmations. -/
def eligibleCoins (isFromMe : CWalletTx → Bool) (nConfMine nConfTheirs : Int)
    (vCoins : List COutput) : List Coin :=
  (vCoins.filter (eligible isFromMe nConfMine nConfTheirs)).map COutput.coin

/-- The least of the coins that are larger than what is searched in, if there is one. -/
structure IsLowest (coins : List Coin) (nTargetValue : Int) (c : Coin) : Prop where
  mem : c ∈ coins
  larger : nTargetValue + CTransaction.cent ≤ c.1
  least : ∀ c' ∈ coins, nTargetValue + CTransaction.cent ≤ c'.1 → c.1 ≤ c'.1

/-- What the loop knows after the coins that it has seen. -/
structure Sorted (seen : List Coin) (nTargetValue : Int) (s : Lower) : Prop where
  vValue : s.vValue = seen.filter fun c => c.1 < nTargetValue + CTransaction.cent
  nTotalLower : s.nTotalLower = total s.vValue
  noLarger : s.coinLowestLarger.2 = none → s.coinLowestLarger.1 = 2 ^ 63 - 1 ∧
    ∀ c ∈ seen, c.1 < nTargetValue + CTransaction.cent
  larger : ∀ key, s.coinLowestLarger.2 = some key →
    IsLowest seen nTargetValue (s.coinLowestLarger.1, key)

theorem sorted_start (nTargetValue : Int) : Sorted [] nTargetValue .start :=
  ⟨rfl, rfl, fun _ => ⟨rfl, fun _ hc => absurd hc List.not_mem_nil⟩, fun _ h => by cases h⟩

section

variable {seen : List Coin} {nTargetValue : Int} {s : Lower} {c : Coin}

theorem Sorted.lower (h : Sorted seen nTargetValue s) (hc : c.1 < nTargetValue + CTransaction.cent) :
    Sorted (seen ++ [c]) nTargetValue
      { s with vValue := s.vValue ++ [c], nTotalLower := s.nTotalLower + c.1 } where
  vValue := by
    have hfilter : [c].filter (fun c => c.1 < nTargetValue + CTransaction.cent) = [c] :=
      List.filter_cons_of_pos (decide_eq_true hc)
    rw [List.filter_append, hfilter, ← h.vValue]
  nTotalLower := by
    rw [total_append, ← h.nTotalLower, total_singleton]
  noLarger hnone := by
    refine ⟨(h.noLarger hnone).1, fun c' hc' => ?_⟩
    rcases List.mem_append.mp hc' with hc' | hc'
    · exact (h.noLarger hnone).2 c' hc'
    · rwa [List.mem_singleton.mp hc']
  larger key hkey := by
    obtain ⟨hmem, hlarger, hleast⟩ := h.larger key hkey
    refine ⟨List.mem_append_left _ hmem, hlarger, fun c' hc' hle => ?_⟩
    rcases List.mem_append.mp hc' with hc' | hc'
    · exact hleast c' hc' hle
    · rw [List.mem_singleton.mp hc'] at hle
      omega

theorem Sorted.wrap_lower (h : Sorted seen nTargetValue s) (hfit : SumsFit (seen ++ [c])) :
    wrap64 (s.nTotalLower + c.1) = s.nTotalLower + c.1 := by
  have hsum : s.nTotalLower + c.1 = total (s.vValue ++ [c]) := by
    rw [total_append, total_singleton, h.nTotalLower]
  have hsub : (s.vValue ++ [c]).Sublist (seen ++ [c]) := by
    rw [h.vValue]
    exact List.filter_sublist.append (List.Sublist.refl [c])
  rw [hsum]
  exact wrap64_of_range (hfit _ hsub.subperm)

theorem filter_append_larger (hc : nTargetValue + CTransaction.cent ≤ c.1) :
    (seen ++ [c]).filter (fun c => c.1 < nTargetValue + CTransaction.cent) =
      seen.filter fun c => c.1 < nTargetValue + CTransaction.cent := by
  rw [List.filter_append, List.filter_cons_of_neg (by simpa using hc), List.filter_nil,
    List.append_nil]

theorem Sorted.lowest (h : Sorted seen nTargetValue s)
    (hc : nTargetValue + CTransaction.cent ≤ c.1) (hlt : c.1 < s.coinLowestLarger.1) :
    Sorted (seen ++ [c]) nTargetValue { s with coinLowestLarger := (c.1, some c.2) } where
  vValue := by rw [h.vValue, filter_append_larger hc]
  nTotalLower := h.nTotalLower
  noLarger hnone := by cases hnone
  larger key hkey := by
    cases hkey
    refine ⟨List.mem_append_right _ (List.mem_singleton.mpr rfl), hc, fun c' hc' hle => ?_⟩
    rcases List.mem_append.mp hc' with hc' | hc'
    · cases hold : s.coinLowestLarger.2 with
      | none =>
        have hsmall := (h.noLarger hold).2 c' hc'
        omega
      | some key =>
        have hleast := (h.larger key hold).least c' hc' hle
        dsimp only at hleast ⊢
        omega
    · rw [List.mem_singleton.mp hc']

theorem Sorted.higher (h : Sorted seen nTargetValue s)
    (hc : nTargetValue + CTransaction.cent ≤ c.1) (hmax : c.1 < 2 ^ 63 - 1)
    (hge : ¬ c.1 < s.coinLowestLarger.1) : Sorted (seen ++ [c]) nTargetValue s where
  vValue := by rw [h.vValue, filter_append_larger hc]
  nTotalLower := h.nTotalLower
  noLarger hnone := by
    have hfirst := (h.noLarger hnone).1
    omega
  larger key hkey := by
    obtain ⟨hmem, hlarger, hleast⟩ := h.larger key hkey
    refine ⟨List.mem_append_left _ hmem, hlarger, fun c' hc' hle => ?_⟩
    rcases List.mem_append.mp hc' with hc' | hc'
    · exact hleast c' hc' hle
    · rw [List.mem_singleton.mp hc']
      exact Int.not_lt.mp hge

end

/-- The loop ends early at a coin of the very value, or it has sorted out all of them. -/
def SortsOut (seen coins : List Coin) (nTargetValue : Int) : Except Coin Lower → Prop
  | .error c => c ∈ coins ∧ c.1 = nTargetValue
  | .ok s => Sorted (seen ++ coins) nTargetValue s

theorem SortsOut.cons {seen coins : List Coin} {nTargetValue : Int} {c : Coin}
    {r : Except Coin Lower} (h : SortsOut (seen ++ [c]) coins nTargetValue r) :
    SortsOut seen (c :: coins) nTargetValue r := by
  cases r with
  | error c' => exact ⟨List.mem_cons_of_mem _ h.1, h.2⟩
  | ok s =>
    change Sorted _ _ _ at h
    rwa [List.append_assoc, List.singleton_append] at h

theorem sortOut_spec {isFromMe : CWalletTx → Bool} {nTargetValue nConfMine nConfTheirs : Int}
    (htarget : Int64Range (nTargetValue + CTransaction.cent)) {vCoins : List COutput}
    (hmax : ∀ c ∈ eligibleCoins isFromMe nConfMine nConfTheirs vCoins, c.1 < 2 ^ 63 - 1)
    {seen : List Coin}
    (hfit : SumsFit (seen ++ eligibleCoins isFromMe nConfMine nConfTheirs vCoins)) {s : Lower}
    (h : Sorted seen nTargetValue s) :
    SortsOut seen (eligibleCoins isFromMe nConfMine nConfTheirs vCoins) nTargetValue
      (sortOut isFromMe nTargetValue nConfMine nConfTheirs vCoins s) := by
  induction vCoins generalizing seen s with
  | nil =>
    rw [sortOut, eligibleCoins, List.filter_nil, List.map_nil]
    change Sorted _ _ _
    rwa [List.append_nil]
  | cons output vCoins ih =>
    rw [sortOut]
    cases heligible : eligible isFromMe nConfMine nConfTheirs output with
    | false =>
      have hskip : eligibleCoins isFromMe nConfMine nConfTheirs (output :: vCoins) =
          eligibleCoins isFromMe nConfMine nConfTheirs vCoins := by
        rw [eligibleCoins, List.filter_cons_of_neg (by simp [heligible]), eligibleCoins]
      rw [hskip] at hmax hfit ⊢
      exact ih hmax hfit h
    | true =>
      have htake : eligibleCoins isFromMe nConfMine nConfTheirs (output :: vCoins) =
          output.coin :: eligibleCoins isFromMe nConfMine nConfTheirs vCoins := by
        rw [eligibleCoins, List.filter_cons_of_pos heligible, List.map_cons, eligibleCoins]
      rw [htake] at hmax hfit ⊢
      have hrest := fun c hc => hmax c (List.mem_cons_of_mem _ hc)
      rw [← List.singleton_append, ← List.append_assoc] at hfit
      have hlower := h.wrap_lower (hfit.subperm (List.sublist_append_left _ _).subperm)
      rw [Bool.not_true, if_neg Bool.false_ne_true]
      dsimp only
      rw [wrap64_of_range htarget]
      split
      · next heq => exact ⟨List.mem_cons_self, heq⟩
      · split
        · next hlt =>
          rw [show wrap64 (s.nTotalLower + output.nValue) = s.nTotalLower + output.nValue from hlower]
          exact (ih hrest hfit (h.lower hlt)).cons
        · next hge =>
          have hge : nTargetValue + CTransaction.cent ≤ output.coin.1 := Int.not_lt.mp hge
          split
          · next hlowest => exact (ih hrest hfit (h.lowest hge hlowest)).cons
          · next hhigher =>
            exact (ih hrest hfit (h.higher hge (hmax _ List.mem_cons_self) hhigher)).cons

/-! ## What is selected -/

/-- The coins that were chosen are among those there are, as often as they are there. -/
structure Covers (coins : List Coin) (nTargetValue : Int) (chosen : List Coin) : Prop where
  subperm : chosen.Subperm coins
  enough : nTargetValue ≤ total chosen
  least : ∀ c ∈ coins, nTargetValue + CTransaction.cent ≤ c.1 → total chosen ≤ c.1

/-- The coins cannot pay the target, or they do. -/
inductive Pays (coins : List Coin) (nTargetValue : Int) : Bool × Finset OutputKey × Int → Prop
  | short (h : total coins < nTargetValue) : Pays coins nTargetValue (false, ∅, 0)
  | covered (chosen : List Coin) (h : Covers coins nTargetValue chosen) :
    Pays coins nTargetValue (insertCoins chosen)

section

variable {coins : List Coin} {nTargetValue : Int} {c : Coin} {s : Lower}

theorem cent_pos : 0 < CTransaction.cent := by decide

theorem covers_exact (hc : c ∈ coins) (heq : c.1 = nTargetValue) :
    Covers coins nTargetValue [c] where
  subperm := (List.singleton_sublist.mpr hc).subperm
  enough := by rw [total_singleton, heq]
  least c' _ hle := by
    have hcent := cent_pos
    rw [total_singleton]
    omega

theorem IsLowest.covers (h : IsLowest coins nTargetValue c) : Covers coins nTargetValue [c] where
  subperm := (List.singleton_sublist.mpr h.mem).subperm
  enough := by
    have hlarger := h.larger
    have hcent := cent_pos
    rw [total_singleton]
    omega
  least c' hc' hle := by
    rw [total_singleton]
    exact h.least c' hc' hle

/-- Coins that were sorted out as smaller, if they are no more than the smallest larger one. -/
theorem Sorted.covers (h : Sorted coins nTargetValue s) {chosen : List Coin}
    (hchosen : chosen.Subperm s.vValue) (henough : nTargetValue ≤ total chosen)
    (hlarger : ∀ key, s.coinLowestLarger.2 = some key → total chosen ≤ s.coinLowestLarger.1) :
    Covers coins nTargetValue chosen where
  subperm := by
    rw [h.vValue] at hchosen
    exact hchosen.trans List.filter_sublist.subperm
  enough := henough
  least c hc hle := by
    cases hkey : s.coinLowestLarger.2 with
    | none =>
      have hlt := (h.noLarger hkey).2 c hc
      omega
    | some key => exact (hlarger key hkey).trans ((h.larger key hkey).least c hc hle)

end

theorem Covers.perm {coins coins' : List Coin} {nTargetValue : Int} {chosen : List Coin}
    (h : Covers coins nTargetValue chosen) (hperm : coins.Perm coins') :
    Covers coins' nTargetValue chosen where
  subperm := h.subperm.trans hperm.subperm
  enough := h.enough
  least c hc hle := h.least c (hperm.mem_iff.mpr hc) hle

/-- The subset that the search ends with, or the bigger coin. -/
theorem pays_search {coins : List Coin} {nTargetValue : Int} {s : Lower}
    (h : Sorted coins nTargetValue s) {vValue : List Coin} (hperm : vValue.Perm s.vValue)
    {best : List Bool × Int} (hbest : Found vValue nTargetValue best) :
    Pays coins nTargetValue
      (match s.coinLowestLarger with
      | (_, none) => insertCoins (selected vValue best.1)
      | (n, some key) =>
        if (best.2 ≠ nTargetValue ∧ best.2 < nTargetValue + CTransaction.cent) ∨ n ≤ best.2 then
          insertCoins [(n, key)]
        else insertCoins (selected vValue best.1)) := by
  have hsub : (selected vValue best.1).Subperm s.vValue :=
    (selected_sublist vValue best.1).subperm.trans hperm.subperm
  have henough : nTargetValue ≤ total (selected vValue best.1) := hbest.nBest ▸ hbest.enough
  obtain ⟨⟨n, key⟩, vValue', nTotalLower⟩ := s
  cases key with
  | none =>
    exact .covered _ (h.covers hsub henough fun key hkey => by cases hkey)
  | some key =>
    dsimp only
    split
    · exact .covered _ (h.larger key rfl).covers
    · next hcloser =>
      refine .covered _ (h.covers hsub henough fun key hkey => ?_)
      have hn := Int.not_le.mp (not_or.mp hcloser).2
      rw [hbest.nBest] at hn
      exact Int.le_of_lt hn

theorem Pays.perm {coins coins' : List Coin} {nTargetValue : Int}
    {r : Bool × Finset OutputKey × Int} (h : Pays coins nTargetValue r)
    (hperm : coins.Perm coins') : Pays coins' nTargetValue r := by
  cases h with
  | short h => exact .short (total_perm hperm ▸ h)
  | covered chosen h => exact .covered chosen (h.perm hperm)

/-- The search for the coins of one vector, in the order that they are in. -/
theorem pays_of_sorted {coins : List Coin} (hfit : SumsFit coins) {nTargetValue : Int} {s : Lower}
    (h : Sorted coins nTargetValue s) (choices : Choices) (hmore : nTargetValue ≤ s.nTotalLower) :
    let vValue := choices.sort s.vValue
    let best := approximateBestSubset vValue s.nTotalLower nTargetValue
      (choices.insecureRand false) 1000
    Found vValue nTargetValue
      (if best.2 ≠ nTargetValue ∧ nTargetValue + CTransaction.cent ≤ s.nTotalLower then
        approximateBestSubset vValue s.nTotalLower (nTargetValue + CTransaction.cent)
          (choices.insecureRand true) 1000
      else best) := by
  have htotal : s.nTotalLower = total (choices.sort s.vValue) := by
    rw [h.nTotalLower, total_perm (choices.sort_perm s.vValue)]
  have hsorted : SumsFit (choices.sort s.vValue) := by
    refine hfit.subperm ((choices.sort_perm s.vValue).subperm.trans ?_)
    rw [h.vValue]
    exact List.filter_sublist.subperm
  rw [htotal] at hmore ⊢
  dsimp only
  split
  · next hagain =>
    have hfound := found_approximateBestSubset hsorted hagain.2 (choices.insecureRand true) 1000
    have hcent := cent_pos
    have henough := hfound.enough
    exact ⟨hfound.nBest, by omega⟩
  · exact found_approximateBestSubset hsorted hmore (choices.insecureRand false) 1000

/-- The coins of positive values that do not wrap around, nor reach the start of `coinLowestLarger`. -/
structure Summable (coins : List Coin) : Prop where
  pos : ∀ c ∈ coins, 0 < c.1
  total_lt : total coins < 2 ^ 63 - 1

theorem Summable.sumsFit {coins : List Coin} (h : Summable coins) : SumsFit coins :=
  sumsFit_of_total h.pos (h.total_lt.trans (by decide))

theorem Summable.perm {coins coins' : List Coin} (h : Summable coins) (hperm : coins'.Perm coins) :
    Summable coins' where
  pos c hc := h.pos c (hperm.mem_iff.mp hc)
  total_lt := total_perm hperm ▸ h.total_lt

/-- Whatever is left to chance, the coins pay the target if they can. -/
theorem selectCoinsMinConf_pays (isFromMe : CWalletTx → Bool) (choices : Choices)
    {nTargetValue nConfMine nConfTheirs : Int}
    (htarget : Int64Range (nTargetValue + CTransaction.cent)) {vCoins : List COutput}
    (hsum : Summable (eligibleCoins isFromMe nConfMine nConfTheirs vCoins)) :
    Pays (eligibleCoins isFromMe nConfMine nConfTheirs vCoins) nTargetValue
      (selectCoinsMinConf isFromMe choices nTargetValue nConfMine nConfTheirs vCoins) := by
  have hshuffle : (eligibleCoins isFromMe nConfMine nConfTheirs (choices.shuffle vCoins)).Perm
      (eligibleCoins isFromMe nConfMine nConfTheirs vCoins) :=
    ((choices.shuffle_perm vCoins).filter _).map _
  have hshuffled := hsum.perm hshuffle
  have hmax : ∀ c ∈ eligibleCoins isFromMe nConfMine nConfTheirs (choices.shuffle vCoins),
      c.1 < 2 ^ 63 - 1 := by
    intro c hc
    have hle := total_le_of_sublist (List.singleton_sublist.mpr hc) hshuffled.pos
    rw [total_singleton] at hle
    exact hle.trans_lt hshuffled.total_lt
  have hsort := sortOut_spec htarget hmax hshuffled.sumsFit (sorted_start nTargetValue)
  refine Pays.perm ?_ hshuffle
  rw [selectCoinsMinConf, wrap64_of_range htarget]
  cases hsorted : sortOut isFromMe nTargetValue nConfMine nConfTheirs (choices.shuffle vCoins)
      .start with
  | error c =>
    rw [hsorted] at hsort
    exact .covered _ (covers_exact hsort.1 hsort.2)
  | ok s =>
    rw [hsorted] at hsort
    change Sorted _ _ _ at hsort
    rw [List.nil_append] at hsort
    dsimp only
    split
    · next heq =>
      have hlower := hsort.nTotalLower.symm.trans heq
      refine .covered _ (hsort.covers (List.Subperm.refl _) hlower.ge fun key hkey => ?_)
      have hlarger := (hsort.larger key hkey).larger
      have hcent := cent_pos
      dsimp only at hlarger
      omega
    · split
      · next hless =>
        cases hlargest : s.coinLowestLarger with
        | mk n key =>
          cases key with
          | none =>
            have hall := (hsort.noLarger (by rw [hlargest])).2
            have hvValue := hsort.vValue
            rw [List.filter_eq_self.mpr fun c hc => decide_eq_true (hall c hc)] at hvValue
            refine .short ?_
            rw [← hvValue, ← hsort.nTotalLower]
            exact hless
          | some key =>
            have hlowest := hsort.larger key (by rw [hlargest])
            rw [hlargest] at hlowest
            exact .covered _ hlowest.covers
      · next hnotless =>
        exact pays_search hsort (choices.sort_perm s.vValue)
          (pays_of_sorted hshuffled.sumsFit hsort choices (Int.not_lt.mp hnotless))

theorem outputs_of_subperm {isFromMe : CWalletTx → Bool} {nConfMine nConfTheirs : Int}
    {vCoins : List COutput} {chosen : List Coin}
    (h : chosen.Subperm (eligibleCoins isFromMe nConfMine nConfTheirs vCoins)) :
    ∃ outputs : List COutput,
      outputs.Sublist (vCoins.filter (eligible isFromMe nConfMine nConfTheirs)) ∧
      (outputs.map COutput.coin).Perm chosen := by
  obtain ⟨l, hperm, hsub⟩ := h
  obtain ⟨outputs, houtputs, rfl⟩ := List.sublist_map_iff.mp hsub
  exact ⟨outputs, houtputs, hperm⟩

theorem total_map_coin (outputs : List COutput) :
    total (outputs.map COutput.coin) = (outputs.map COutput.nValue).sum := by
  rw [total, List.map_map]
  rfl

/-- Different outputs that a set and a sum stand for. -/
structure StandsFor (outputs : List COutput) (setCoinsRet : Finset OutputKey) (nValueRet : Int) :
    Prop where
  distinct : (outputs.map COutput.key).Nodup
  set : setCoinsRet = (outputs.map COutput.key).toFinset
  sum : nValueRet = (outputs.map COutput.nValue).sum

/-- What was chosen stands for outputs with enough confirmations. -/
theorem exists_outputs {isFromMe : CWalletTx → Bool} {nConfMine nConfTheirs : Int}
    {vCoins : List COutput} (hdistinct : (vCoins.map COutput.key).Nodup) {chosen : List Coin}
    (h : chosen.Subperm (eligibleCoins isFromMe nConfMine nConfTheirs vCoins)) :
    ∃ outputs : List COutput,
      (∀ output ∈ outputs, output ∈ vCoins.filter (eligible isFromMe nConfMine nConfTheirs)) ∧
      StandsFor outputs (chosen.map Prod.snd).toFinset (total chosen) := by
  obtain ⟨outputs, hsub, hperm⟩ := outputs_of_subperm h
  have hkeys : (outputs.map COutput.coin).map Prod.snd = outputs.map COutput.key := by
    rw [List.map_map]
    rfl
  refine ⟨outputs, fun output houtput => hsub.subset houtput, ?_, ?_, ?_⟩
  · exact hdistinct.sublist ((hsub.trans List.filter_sublist).map COutput.key)
  · rw [← hkeys]
    exact (List.toFinset_eq_of_perm _ _ (hperm.map Prod.snd)).symm
  · rw [← total_map_coin, total_perm hperm]

/-- If no sum wraps around, `SelectCoinsMinConf` returns true exactly if the outputs with enough
confirmations sum up to the target. Then the set is one of different such outputs, which sum up to
`nValueRet`, at least the target and no more than the least output that is larger by a cent. -/
theorem selectCoinsMinConf_spec (isFromMe : CWalletTx → Bool) (choices : Choices)
    (nTargetValue nConfMine nConfTheirs : Int) (vCoins : List COutput)
    (htarget : 0 < nTargetValue) (hfits : nTargetValue + CTransaction.cent < 2 ^ 63)
    (hvalue : ∀ output ∈ vCoins, 0 < output.nValue)
    (hsum : ((vCoins.filter (eligible isFromMe nConfMine nConfTheirs)).map COutput.nValue).sum <
      2 ^ 63 - 1)
    (hdistinct : (vCoins.map COutput.key).Nodup) :
    let usable := vCoins.filter (eligible isFromMe nConfMine nConfTheirs)
    let r := selectCoinsMinConf isFromMe choices nTargetValue nConfMine nConfTheirs vCoins
    (r.1 = true ↔ nTargetValue ≤ (usable.map COutput.nValue).sum) ∧
    (r.1 = true → ∃ outputs : List COutput,
      (∀ output ∈ outputs, output ∈ usable) ∧ (outputs.map COutput.key).Nodup ∧
      r.2.1 = (outputs.map COutput.key).toFinset ∧ r.2.2 = (outputs.map COutput.nValue).sum ∧
      nTargetValue ≤ r.2.2 ∧
      ∀ output ∈ usable, nTargetValue + CTransaction.cent ≤ output.nValue →
        r.2.2 ≤ output.nValue) := by
  have hsummable : Summable (eligibleCoins isFromMe nConfMine nConfTheirs vCoins) := by
    refine ⟨fun c hc => ?_, (total_map_coin _).trans_lt hsum⟩
    obtain ⟨output, houtput, rfl⟩ := List.mem_map.mp hc
    exact hvalue output (List.mem_of_mem_filter houtput)
  have hrange : Int64Range (nTargetValue + CTransaction.cent) := by
    have hcent := cent_pos
    exact ⟨by omega, hfits⟩
  have hpays := selectCoinsMinConf_pays isFromMe choices hrange hsummable
  dsimp only
  rw [← total_map_coin]
  generalize selectCoinsMinConf isFromMe choices nTargetValue nConfMine nConfTheirs vCoins = r at hpays
  cases hpays with
  | short hshort =>
    refine ⟨?_, fun h => by cases h⟩
    exact iff_of_false Bool.false_ne_true (Int.not_le.mpr hshort)
  | covered chosen hcovers =>
    have hle := total_le_of_subperm hcovers.subperm hsummable.pos
    rw [(hsummable.sumsFit.subperm hcovers.subperm).insertCoins_eq]
    refine ⟨iff_of_true rfl (hcovers.enough.trans hle), fun _ => ?_⟩
    obtain ⟨outputs, hmem, hstands⟩ := exists_outputs hdistinct hcovers.subperm
    refine ⟨outputs, hmem, hstands.distinct, hstands.set, hstands.sum, hcovers.enough, ?_⟩
    intro output houtput hle
    exact hcovers.least output.coin (List.mem_map_of_mem houtput) hle

namespace CoinSample

/-- The order is left as it is, and every bit is one. -/
def choices : Choices where
  shuffle := id
  shuffle_perm _ := .refl _
  sort vValue := vValue.mergeSort fun a b => decide (b.1 ≤ a.1)
  sort_perm vValue := List.mergeSort_perm vValue _
  sort_sorted vValue := by
    have hsorted : (vValue.mergeSort fun a b => decide (b.1 ≤ a.1)).Pairwise
        fun a b => decide (b.1 ≤ a.1) = true :=
      List.pairwise_mergeSort (fun a b c hab hbc => by grind) (fun a b => by grind) vValue
    exact hsorted.imp of_decide_eq_true
  insecureRand _ _ _ := true

/-- An output of a transaction that pays two values. -/
def output (nValue nValue' : Int) (i : Nat) : COutput where
  hash := 7
  tx :=
    { tx := ⟨1, [], [⟨nValue, []⟩, ⟨nValue', []⟩], 0⟩
      hashBlock := 0
      vMerkleBranch := []
      nIndex := -1
      fMerkleVerified := false
      vtxPrev := []
      fFromMe := false
      vfSpent := []
      nDebitCached := none
      nCreditCached := none
      nImmatureCreditCached := none
      nAvailableCreditCached := none
      nChangeCached := none }
  i := i
  nDepth := 6

def few : List COutput :=
  [output (3 * CTransaction.cent) (5 * CTransaction.cent) 0,
    output (3 * CTransaction.cent) (5 * CTransaction.cent) 1]

theorem selectCoinsMinConf_spec_sample :
    (selectCoinsMinConf (fun _ => false) choices (7 * CTransaction.cent) 1 6 few).1 = true :=
  (selectCoinsMinConf_spec (fun _ => false) choices (7 * CTransaction.cent) 1 6 few (by decide)
    (by decide) (by decide) (by decide) (by decide)).1.mpr (by decide)

/-- The sum of two outputs wraps around, and is then less than the target. -/
def many : List COutput := [output (2 ^ 62) (2 ^ 62) 0, output (2 ^ 62) (2 ^ 62) 1]

theorem not_selectCoinsMinConf_spec : ¬ ∀ (nTargetValue : Int) (vCoins : List COutput),
    0 < nTargetValue → (∀ output ∈ vCoins, 0 < output.nValue ∧ output.nValue < 2 ^ 63) →
      (vCoins.map COutput.key).Nodup →
        ((selectCoinsMinConf (fun _ => false) choices nTargetValue 1 6 vCoins).1 = true ↔
          nTargetValue ≤
            ((vCoins.filter (eligible (fun _ => false) 1 6)).map COutput.nValue).sum) := by
  intro h
  have hfound := (h (2 ^ 62 + 1) many (by decide) (by decide) (by decide)).mpr (by decide)
  revert hfound
  decide

end CoinSample

end Terracoin
