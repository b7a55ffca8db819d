import Terracoin.Lib.Run
import Terracoin.Coins.Cache

/-!
# The caches behave like flat maps

`Refines` relates a stack of caches to a stack of flat views, layer by layer, and every call
preserves it. It needs the best block of a layer to be known when the layer is flushed, which is
why every `Flush` has to come after a `GetBestBlock` or `SetBestBlock` on the same layer: the
pointer that `BatchWrite` hands down would be null otherwise.
-/

namespace Terracoin

open Run

/-! ## Refinement -/

/-- The same entries, except that pruned ones may be gone, and the same best block. -/
structure CoinsView.Lags (v w : CoinsView) : Prop where
  coins : ∀ txid, v.coins txid = w.coins txid ∨
    v.coins txid = none ∧ ∃ coins, w.coins txid = some coins ∧ coins.isPruned = true
  pindexTip : v.pindexTip = w.pindexTip

namespace CoinsView.Lags

theorem refl (v : CoinsView) : v.Lags v := ⟨fun _ => .inl rfl, rfl⟩

theorem setCoins {v w : CoinsView} (h : v.Lags w) (txid : uint256) (coins : CCoins) :
    (v.setCoins txid coins).Lags (w.setCoins txid coins) := by
  refine ⟨fun txid' => ?_, h.pindexTip⟩
  unfold CoinsView.setCoins
  dsimp only
  by_cases ht : txid' = txid
  · rw [ht, Function.update_self, Function.update_self]
    exact .inl rfl
  · rw [Function.update_of_ne ht, Function.update_of_ne ht]
    exact h.coins txid'

theorem of_filter {u v w : CoinsView} (h : v.Lags w) (htip : u.pindexTip = v.pindexTip)
    (hcoins : ∀ txid, u.coins txid = v.coins txid ∨
      u.coins txid = none ∧ ∃ coins, v.coins txid = some coins ∧ coins.isPruned = true) :
    u.Lags w := by
  refine ⟨fun txid => ?_, htip.trans h.pindexTip⟩
  rcases hcoins txid with heq | ⟨hnone, coins, hv, hp⟩
  · rw [heq]
    exact h.coins txid
  · rcases h.coins txid with heq | ⟨hnone', -⟩
    · exact .inr ⟨hnone, coins, heq ▸ hv, hp⟩
    · rw [hnone'] at hv
      cases hv

end CoinsView.Lags

section

variable [Hashing] [BlockIndexMap]

/-- The cached best block of a layer is in the index, and once it was asked for it is missing only
if there is none below. -/
structure TipInv (c : CCoinsViewCache) (base : CCoinsStack) (asked : Bool) : Prop where
  known : ∀ pindex, c.pindexTip = some pindex →
    BlockIndexMap.mapBlockIndex pindex.getBlockHash = some pindex
  asked : asked = true → c.pindexTip = none → base.view.pindexTip = none

def Refines : CCoinsStack → List FlatLayer → Prop
  | .db d, [bottom] => (CCoinsStack.db d).view.Lags bottom.view
  | .cache c base, top :: rest =>
    Refines base rest ∧ (CCoinsStack.cache c base).view.Lags top.view ∧ TipInv c base top.asked
  | _, _ => False

namespace Refines

variable {s : CCoinsStack} {S : List FlatLayer} {c : CCoinsViewCache} {base : CCoinsStack}
  {top : FlatLayer} {rest : List FlatLayer}

theorem lags (h : Refines s (top :: rest)) : s.view.Lags top.view := by
  cases s with
  | db d =>
    cases rest with
    | nil => exact h
    | cons => exact h.elim
  | cache c base => exact h.2.1

theorem exists_cons (h : Refines s S) : ∃ top rest, S = top :: rest := by
  cases S with
  | nil => cases s <;> exact h.elim
  | cons top rest => exact ⟨top, rest, rfl⟩

theorem known (h : Refines s S) {pindex : CBlockIndex} (htip : s.view.pindexTip = some pindex) :
    BlockIndexMap.mapBlockIndex pindex.getBlockHash = some pindex := by
  induction s generalizing S with
  | db d =>
    obtain ⟨hash, -, hfind⟩ := Option.bind_eq_some_iff.mp htip
    rw [BlockIndexMap.hash_eq hash pindex hfind]
    exact hfind
  | cache c base ih =>
    obtain ⟨top, rest, rfl⟩ := h.exists_cons
    obtain ⟨hbase, -, hinv⟩ := h
    rw [CCoinsStack.view_cache_pindexTip] at htip
    cases hc : c.pindexTip with
    | some p =>
      rw [hc, Option.some_or] at htip
      exact hinv.known pindex (hc.trans htip)
    | none =>
      rw [hc, Option.none_or] at htip
      exact ih hbase htip

theorem getCoins (h : Refines s S) (txid : uint256) : Refines (s.getCoins txid).1 S := by
  induction s generalizing S with
  | db d => exact h
  | cache c base ih =>
    obtain ⟨top, rest, rfl⟩ := h.exists_cons
    obtain ⟨hbase, hlags, hinv⟩ := h
    have hbase' := ih hbase
    have hview : (base.getCoins txid).1.view = base.view :=
      Option.some.inj ((base.getCoins_spec txid).2 0)
    have hshow : ((CCoinsStack.cache c base).getCoins txid).1.view = (CCoinsStack.cache c base).view :=
      Option.some.inj (((CCoinsStack.cache c base).getCoins_spec txid).2 0)
    rw [← hshow] at hlags
    rw [CCoinsStack.getCoins_cache] at hlags ⊢
    cases hc : c.cacheCoins txid with
    | some coins =>
      rw [hc] at hlags
      exact ⟨hbase, hlags, hinv⟩
    | none =>
      have hinv' : TipInv c (base.getCoins txid).1 top.asked := ⟨hinv.known, by rw [hview]; exact hinv.asked⟩
      cases hb : (base.getCoins txid).2 with
      | none =>
        rw [hc, hb] at hlags
        exact ⟨hbase', hlags, hinv'⟩
      | some coins =>
        rw [hc, hb] at hlags
        exact ⟨hbase', hlags, hinv'.known, hinv'.asked⟩

theorem getBestBlock (h : Refines s S) : Refines s.getBestBlock.1 S := by
  induction s generalizing S with
  | db d => exact h
  | cache c base ih =>
    obtain ⟨top, rest, rfl⟩ := h.exists_cons
    obtain ⟨hbase, hlags, hinv⟩ := h
    have hvalue := base.getBestBlock_spec.1
    have hview : base.getBestBlock.1.view = base.view := Option.some.inj (base.getBestBlock_spec.2 0)
    have hshow : (CCoinsStack.cache c base).getBestBlock.1.view = (CCoinsStack.cache c base).view :=
      Option.some.inj ((CCoinsStack.cache c base).getBestBlock_spec.2 0)
    rw [← hshow] at hlags
    rw [CCoinsStack.getBestBlock] at hlags ⊢
    cases hc : c.pindexTip with
    | some pindex =>
      rw [hc] at hlags
      exact ⟨hbase, hlags, hinv⟩
    | none =>
      rw [hc] at hlags
      refine ⟨ih hbase, hlags, ?_, ?_⟩
      · intro pindex hp
        exact hbase.known (hvalue ▸ hp)
      · intro _ hnone
        rw [hview, ← hvalue]
        exact hnone

/-- After `GetBestBlock` the best block counts as asked for. -/
theorem getBestBlock_asked (h : Refines (.cache c base) (top :: rest)) :
    Refines (CCoinsStack.cache c base).getBestBlock.1 ({ top with asked := true } :: rest) := by
  have hbest := h.getBestBlock
  have hvalue := base.getBestBlock_spec.1
  have hview : base.getBestBlock.1.view = base.view := Option.some.inj (base.getBestBlock_spec.2 0)
  rw [CCoinsStack.getBestBlock] at hbest ⊢
  cases hc : c.pindexTip with
  | some pindex =>
    rw [hc] at hbest
    obtain ⟨hbase, hlags, hinv⟩ := hbest
    refine ⟨hbase, hlags, hinv.known, fun _ hnone => ?_⟩
    rw [hc] at hnone
    cases hnone
  | none =>
    rw [hc] at hbest
    obtain ⟨hbase, hlags, hinv⟩ := hbest
    refine ⟨hbase, hlags, hinv.known, fun _ hnone => ?_⟩
    rw [hview, ← hvalue]
    exact hnone

/-- `Flush` into another cache: what the layer showed is now shown by the layer below. -/
theorem flush_cache {c' : CCoinsViewCache} {below : FlatLayer} (fWritten : Bool)
    (h : Refines (.cache c (.cache c' base)) (top :: below :: rest)) (hasked : top.asked = true) :
    Refines (CCoinsStack.flush c (.cache c' base) fWritten).1
      (top :: { below with view := top.view } :: rest) := by
  obtain ⟨⟨hbase, -, hinv'⟩, hlags, hinv⟩ := h
  have htip : c.pindexTip = none → c'.pindexTip = none ∧ base.view.pindexTip = none := by
    intro hnone
    have := hinv.asked hasked hnone
    rwa [CCoinsStack.view_cache_pindexTip, Option.or_eq_none_iff] at this
  have hshow : (CCoinsStack.cache ⟨fun txid => (c.cacheCoins txid).or (c'.cacheCoins txid),
      c.pindexTip⟩ base).view = (CCoinsStack.cache c (.cache c' base)).view := by
    unfold CCoinsStack.view
    congr 1
    · funext txid
      exact Option.or_assoc
    · cases hc : c.pindexTip with
      | some pindex => rfl
      | none =>
        obtain ⟨h1, h2⟩ := htip hc
        rw [CCoinsStack.view_cache_pindexTip, h1, h2]
        rfl
  have hsame : (CCoinsStack.cache { c with cacheCoins := fun _ => none } (CCoinsStack.cache
      ⟨fun txid => (c.cacheCoins txid).or (c'.cacheCoins txid), c.pindexTip⟩ base)).view =
      (CCoinsStack.cache c (.cache c' base)).view := by
    rw [← hshow]
    refine congrArg (CoinsView.mk _) ?_
    rw [CCoinsStack.view_cache_pindexTip]
    cases c.pindexTip <;> rfl
  refine ⟨⟨hbase, ?_, ?_⟩, ?_, ?_⟩
  · rw [hshow]
    exact hlags
  · exact ⟨hinv.known, fun _ hnone => (htip hnone).2⟩
  · rw [hsame]
    exact hlags
  · refine ⟨hinv.known, fun _ hnone => ?_⟩
    rw [hshow, CCoinsStack.view_cache_pindexTip, hnone]
    exact hinv.asked hasked hnone

/-- `Flush` into the database: pruned entries are erased, and gone from both. -/
theorem flush_db {d : CCoinsViewDB} {below : FlatLayer}
    (h : Refines (.cache c (.db d)) [top, below]) (hasked : top.asked = true) :
    Refines (CCoinsStack.flush c (.db d) true).1 [top, { below with view := top.view }] := by
  obtain ⟨-, hlags, hinv⟩ := h
  have htip : (d.batchWrite c.cacheCoins c.pindexTip).getBestBlock =
      (CCoinsStack.cache c (.db d)).view.pindexTip := by
    rw [CCoinsStack.view_cache_pindexTip, CCoinsViewDB.getBestBlock,
      CCoinsViewDB.batchWrite_hashBestChain]
    cases hc : c.pindexTip with
    | some pindex => exact hinv.known pindex hc
    | none => rfl
  have hcoins : ∀ txid, (d.batchWrite c.cacheCoins c.pindexTip).coins txid =
      (CCoinsStack.cache c (.db d)).view.coins txid ∨
      (d.batchWrite c.cacheCoins c.pindexTip).coins txid = none ∧
        ∃ coins, (CCoinsStack.cache c (.db d)).view.coins txid = some coins ∧
          coins.isPruned = true := by
    intro txid
    rw [CCoinsStack.view_cache_coins, CCoinsViewDB.batchWrite_coins]
    cases hc : c.cacheCoins txid with
    | none => exact .inl rfl
    | some coins =>
      cases hp : coins.isPruned with
      | true => exact .inr ⟨if_pos hp, coins, rfl, hp⟩
      | false => exact .inl (if_neg (by rw [hp]; exact Bool.false_ne_true))
  have hdb : (CCoinsStack.db (d.batchWrite c.cacheCoins c.pindexTip)).view.Lags top.view :=
    hlags.of_filter htip hcoins
  refine ⟨hdb, ?_, hinv.known, ?_⟩
  · refine hdb.of_filter ?_ fun _ => .inl rfl
    rw [CCoinsStack.view_cache_pindexTip]
    cases hc : c.pindexTip with
    | some pindex => exact (hinv.known pindex hc).symm
    | none => rfl
  · intro _ hnone
    have hnone' := hinv.asked hasked hnone
    change (d.batchWrite c.cacheCoins c.pindexTip).getBestBlock = none
    rw [htip, CCoinsStack.view_cache_pindexTip, hnone]
    exact hnone'

theorem set_top {c' : CCoinsViewCache} {top' : FlatLayer} (h : Refines (.cache c base) (top :: rest))
    (hlags : (CCoinsStack.cache c' base).view.Lags top'.view) (hinv : TipInv c' base top'.asked) :
    Refines (.cache c' base) (top' :: rest) :=
  ⟨h.1, hlags, hinv⟩

theorem flush {S' : List FlatLayer} {below : FlatLayer} {fWritten : Bool}
    (h : Refines (.cache c base) (top :: below :: rest))
    (hS : flatStep (top :: below :: rest) (.flush fWritten) = some S') :
    Refines (CCoinsStack.flush c base fWritten).1 S' := by
  rw [flatStep] at hS
  split at hS
  · cases hS
  · rename_i hasked
    have hasked : top.asked = true := by simpa using hasked
    cases base with
    | db d =>
      obtain rfl : rest = [] := by
        cases rest with
        | nil => rfl
        | cons => exact h.1.elim
      cases fWritten with
      | true => exact Option.some.inj hS ▸ h.flush_db hasked
      | false => exact Option.some.inj hS ▸ h
    | cache c' base =>
      obtain ⟨below', rest', rfl⟩ := h.1.1.exists_cons
      exact Option.some.inj hS ▸ h.flush_cache _ hasked

/-- What one call preserves. -/
theorem step {S S' : List FlatLayer} {s s' : CCoinsStack} {op : CacheOp} (hop : op.Indexed)
    (h : Refines s S) (hs : s.step op = some s') (hS : flatStep S op = some S') : Refines s' S' := by
  obtain ⟨top, rest, rfl⟩ := h.exists_cons
  cases s with
  | db d =>
    cases op with
    | push =>
      obtain rfl := Option.some.inj hs
      obtain rfl := Option.some.inj hS
      exact ⟨h, h.lags, fun _ hnone => (by cases hnone), fun hasked => (by cases hasked)⟩
    | _ => cases hs
  | cache c base =>
    obtain ⟨below, rest, rfl⟩ := h.1.exists_cons
    cases op with
    | getCoins txid =>
      obtain rfl := Option.some.inj hs
      obtain rfl := Option.some.inj hS
      exact h.getCoins txid
    | getCoinsRef txid =>
      obtain rfl := Option.some.inj hS
      have hget := h.getCoins txid
      rw [← CCoinsStack.fetchCoins_eq] at hget
      rw [CCoinsStack.step] at hs
      split at hs
      · rename_i s1 coins hfetch
        rw [hfetch] at hget
        exact Option.some.inj hs ▸ hget
      · cases hs
    | write txid coins =>
      obtain rfl := Option.some.inj hS
      rw [CCoinsStack.step] at hs
      split at hs
      · obtain rfl := Option.some.inj hs
        refine h.set_top ?_ ⟨h.2.2.known, h.2.2.asked⟩
        rw [CCoinsStack.view_insert]
        exact h.2.1.setCoins txid coins
      · cases hs
    | haveCoins txid =>
      obtain rfl := Option.some.inj hs
      obtain rfl := Option.some.inj hS
      rw [CCoinsStack.haveCoins, CCoinsStack.fetchCoins_eq]
      exact h.getCoins txid
    | setCoins txid coins =>
      obtain rfl := Option.some.inj hs
      obtain rfl := Option.some.inj hS
      refine h.set_top ?_ ⟨h.2.2.known, h.2.2.asked⟩
      rw [CCoinsStack.view_insert]
      exact h.2.1.setCoins txid coins
    | getBestBlock =>
      obtain rfl := Option.some.inj hs
      obtain rfl := Option.some.inj hS
      exact h.getBestBlock_asked
    | setBestBlock pindex =>
      obtain rfl := Option.some.inj hs
      obtain rfl := Option.some.inj hS
      refine h.set_top ⟨h.2.1.coins, rfl⟩ ⟨?_, fun _ hnone => by cases hnone⟩
      intro p hp
      exact Option.some.inj hp ▸ hop
    | flush fWritten =>
      obtain rfl := Option.some.inj hs
      exact h.flush hS
    | push =>
      obtain rfl := Option.some.inj hs
      obtain rfl := Option.some.inj hS
      exact ⟨h, h.lags, fun _ hnone => (by cases hnone), fun hasked => (by cases hasked)⟩
    | pop =>
      obtain rfl := Option.some.inj hs
      obtain rfl := Option.some.inj hS
      exact h.1

/-- After a successful `Flush` the layer below has the flat view of the layer flushed. -/
theorem flush_below {c' : CCoinsViewCache} {base' : CCoinsStack} {fWritten : Bool}
    (h : Refines (.cache c base) (top :: rest)) (hasked : top.asked = true)
    (hflush : CCoinsStack.flush c base fWritten = (.cache c' base', true)) :
    base'.view.Lags top.view := by
  obtain ⟨below, rest, rfl⟩ := h.1.exists_cons
  cases base with
  | db d =>
    obtain rfl : rest = [] := by
      cases rest with
      | nil => rfl
      | cons => exact h.1.elim
    cases fWritten with
    | false => cases (Prod.mk.inj hflush).2
    | true =>
      have hnext := h.flush_db hasked
      rw [hflush] at hnext
      exact hnext.1.lags
  | cache c'' base =>
    have hnext := h.flush_cache fWritten hasked
    rw [hflush] at hnext
    exact hnext.1.lags

theorem run {S S' : List FlatLayer} {s s' : CCoinsStack} {ops : List CacheOp}
    (h : Refines s S) (hops : ∀ op ∈ ops, op.Indexed)
    (hs : Run.run CCoinsStack.step s ops = some s') (hS : Run.run flatStep S ops = some S') :
    Refines s' S' :=
  run_sim (fun _ _ _ hop _ _ hR hstep hstep' => hR.step (hops _ hop) hstep hstep') h hs hS

end Refines

theorem CCoinsStack.agrees_of_lags {s : CCoinsStack} {view : CoinsView} (h : s.view.Lags view) :
    s.Agrees view where
  getCoins txid := by
    rw [(s.getCoins_spec txid).1]
    exact h.coins txid
  fetchCoins txid := by rw [fetchCoins_eq]
  haveCoins txid := by rw [haveCoins, fetchCoins_eq]
  available txid n := by
    rw [(s.getCoins_spec txid).1, CoinsView.coinsAt]
    rcases h.coins txid with heq | ⟨hnone, coins, hsome, hp⟩
    · rw [heq]
    · rw [hnone, hsome, Option.getD_none, Option.getD_some, CCoins.isAvailable_eq,
        CCoins.isAvailable_eq, CCoins.isPruned_iff.mp hp, CCoins.output_empty]
  getBestBlock := s.getBestBlock_spec.1.trans h.pindexTip

/-! ## Dropping a layer -/

/-- Calls on the layer that is `n` layers below the top, and on layers above it, that neither
flush nor destroy this layer and leave it on top. -/
def Confined : Nat → List CacheOp → Prop
  | n, [] => n = 0
  | n, .push :: ops => Confined (n + 1) ops
  | 0, .pop :: _ => False
  | n + 1, .pop :: ops => Confined n ops
  | 0, .flush _ :: _ => False
  | n, _ :: ops => Confined n ops

namespace CCoinsStack

variable {s s' : CCoinsStack}

theorem under_flush {c : CCoinsViewCache} {base : CCoinsStack} {fWritten : Bool} (n : Nat) :
    (flush c base fWritten).1.under (n + 2) = (cache c base).under (n + 2) := by
  cases base with
  | db d => cases fWritten <;> rfl
  | cache c' base => rfl

/-- Below the top layer nothing changes, unless the layer is flushed or goes away. -/
theorem under_step {op : CacheOp} (hpush : op ≠ .push) (hpop : op ≠ .pop)
    (hflush : ∀ fWritten, op ≠ .flush fWritten) (h : s.step op = some s') (n : Nat) :
    s'.under (n + 1) = s.under (n + 1) := by
  cases s with
  | db d =>
    cases op with
    | push => exact absurd rfl hpush
    | _ => cases h
  | cache c base =>
    cases op with
    | getCoins txid => exact Option.some.inj h ▸ (getCoins_spec _ txid).2 (n + 1)
    | getCoinsRef txid =>
      rw [step, fetchCoins_eq] at h
      have hget := (getCoins_spec (cache c base) txid).2 (n + 1)
      split at h
      · rename_i s1 coins hfetch
        rw [hfetch] at hget
        exact Option.some.inj h ▸ hget
      · cases h
    | write txid coins =>
      rw [step] at h
      split at h
      · exact Option.some.inj h ▸ rfl
      · cases h
    | haveCoins txid =>
      rw [step, haveCoins, fetchCoins_eq] at h
      exact Option.some.inj h ▸ (getCoins_spec _ txid).2 (n + 1)
    | setCoins txid coins => exact Option.some.inj h ▸ rfl
    | getBestBlock => exact Option.some.inj h ▸ (getBestBlock_spec _).2 (n + 1)
    | setBestBlock pindex => exact Option.some.inj h ▸ rfl
    | flush fWritten => exact absurd rfl (hflush fWritten)
    | push => exact absurd rfl hpush
    | pop => exact absurd rfl hpop

/-- What is shown below a layer stays the same until the layer is flushed. -/
theorem under_run {n : Nat} {ops : List CacheOp} (hc : Confined n ops)
    (h : run step s ops = some s') : s'.under 1 = s.under (n + 1) := by
  induction ops generalizing n s with
  | nil =>
    obtain rfl : n = 0 := hc
    exact Option.some.inj h ▸ rfl
  | cons op ops ih =>
    obtain ⟨s1, h1, h2⟩ := run_cons.mp h
    cases op with
    | push =>
      have hbelow : s1.under (n + 2) = s.under (n + 1) := by
        cases s <;> exact Option.some.inj h1 ▸ rfl
      exact (ih hc h2).trans hbelow
    | pop =>
      cases n with
      | zero => exact hc.elim
      | succ n =>
        have hbelow : s1.under (n + 1) = s.under (n + 2) := by
          cases s with
          | db d => cases h1
          | cache c base => exact Option.some.inj h1 ▸ rfl
        exact (ih hc h2).trans hbelow
    | flush fWritten =>
      cases n with
      | zero => exact hc.elim
      | succ n =>
        have hbelow : s1.under (n + 2) = s.under (n + 2) := by
          cases s with
          | db d => cases h1
          | cache c base => exact Option.some.inj h1 ▸ under_flush n
        exact (ih hc h2).trans hbelow
    | _ =>
      refine (ih hc h2).trans (under_step ?_ ?_ ?_ h1 n)
      · exact CacheOp.noConfusion
      · exact CacheOp.noConfusion
      · exact fun _ => CacheOp.noConfusion

end CCoinsStack

/-- **The caches behave like flat maps.** After any sequence of calls on a stack of caches over the
database the top layer agrees with its flat view. Whatever then happens on the top layer and above
it, what is below shows the same as long as the layer is not flushed, and after a successful
`Flush` the layer below agrees with the flat view of the layer flushed. -/
theorem cache_refines_flat {d : CCoinsViewDB} {ops : List CacheOp} {s : CCoinsStack}
    {S : List FlatLayer} (hops : ∀ op ∈ ops, op.Indexed)
    (hs : run CCoinsStack.step (.db d) ops = some s)
    (hS : run flatStep [⟨(CCoinsStack.db d).view, false⟩] ops = some S) :
    ∃ top rest, S = top :: rest ∧ s.Agrees top.view ∧
      (∀ ops' s', Confined 0 ops' → run CCoinsStack.step s ops' = some s' →
        s'.under 1 = s.under 1) ∧
      (∀ c base fWritten c' base', s = .cache c base → top.asked = true →
        CCoinsStack.flush c base fWritten = (.cache c' base', true) → base'.Agrees top.view) := by
  have hinit : Refines (.db d) [⟨(CCoinsStack.db d).view, false⟩] := CoinsView.Lags.refl _
  have h : Refines s S := hinit.run hops hs hS
  obtain ⟨top, rest, rfl⟩ := h.exists_cons
  refine ⟨top, rest, rfl, CCoinsStack.agrees_of_lags h.lags, ?_, ?_⟩
  · intro ops' s' hc hrun
    exact CCoinsStack.under_run hc hrun
  · rintro c base fWritten c' base' rfl hasked hflush
    exact CCoinsStack.agrees_of_lags (h.flush_below hasked hflush)

end

namespace Sample

/-- An index with the genesis block alone. -/
scoped instance index : BlockIndexMap where
  mapBlockIndex hash := if hash = genesis.getBlockHash then some genesis else none
  hash_eq hash pindex h := by
    split at h
    · rename_i heq
      rw [heq, ← Option.some.inj h]
    · cases h

def coinDB : CCoinsViewDB where
  coins txid := if txid = 7 then some ⟨false, [⟨50, []⟩], 1, 1⟩ else none
  hashBestChain := none
  unpruned := by
    intro txid c h
    split at h
    · rw [← Option.some.inj h]
      rfl
    · cases h

/-- Two layers, a write through a reference and both flushed, the second one to a database that
first refuses the batch. -/
def calls : List CacheOp :=
  [.push, .setBestBlock genesis, .push, .haveCoins 7, .getCoinsRef 7, .write 7 ⟨false, [], 1, 1⟩,
    .getBestBlock, .flush true, .pop, .flush false, .flush true, .getCoins 7]

end Sample

open Sample in
theorem cache_refines_flat_sample : ∃ s, ∃ top : FlatLayer, run CCoinsStack.step (.db coinDB) calls = some s ∧
    s.Agrees top.view ∧
    (∀ ops' s', Confined 0 ops' → run CCoinsStack.step s ops' = some s' →
      s'.under 1 = s.under 1) ∧
    (∀ c base fWritten c' base', s = .cache c base → top.asked = true →
      CCoinsStack.flush c base fWritten = (.cache c' base', true) → base'.Agrees top.view) := by
  obtain ⟨s, hs⟩ := Option.isSome_iff_exists.mp
    (by decide +kernel : (run CCoinsStack.step (.db coinDB) calls).isSome = true)
  obtain ⟨S, hS⟩ := Option.isSome_iff_exists.mp
    (by decide +kernel : (run flatStep [⟨(CCoinsStack.db coinDB).view, false⟩] calls).isSome = true)
  have hops : ∀ op ∈ calls, op.Indexed := by
    simp only [calls, List.forall_mem_cons, CacheOp.Indexed, true_and]
    exact ⟨rfl, fun _ h => by cases h⟩
  obtain ⟨top, rest, -, hmain⟩ := cache_refines_flat hops hs hS
  exact ⟨s, top, hs, hmain⟩

end Terracoin
