import Mathlib.Algebra.Order.Ring.Int
import Mathlib.Computability.Language
import Mathlib.Data.List.Induction
import Mathlib.Logic.Function.Basic
import Terracoin.Lib.CheckedInt
import Terracoin.Net.NetAddr
import Terracoin.Serialize.Text

/-!
# Who may connect

Every node has a score, and a node whose score reaches `-banscore` is disconnected and its address
is banned for `-bantime`. The table keeps one time for each address, which other nodes of that
address move on. `bans_spec` reads the table back as the history of the calls: as long as no score
leaves the range of an `int` and no end of a ban that of an `int64`, an address is banned exactly
while one of the calls since the table was cleared bans it.

The RPC server answers the addresses that a mask of `-rpcallowip` describes, a language in which `*`
stands for any text and `?` for any character. `WildcardMatch` decides it by trying what a `*`
stands for, one character after the other (`wildcardMatch_iff`), and `ClientAllowed` looks for a
mask of the address, in which an IPv4 address that is written as one of IPv6 is an IPv4 address
(`clientAllowed_spec`).
-/

namespace Terracoin

open Checked

/-! ## Misbehaving nodes -/

/-- The options of the bans. -/
structure BanOptions where
  banscore : Int
  bantime : Int

/-- The scores of the nodes, the table of the banned addresses, and who was disconnected. -/
structure BanState (N : Type) where
  nMisbehavior : N → Int32
  setBanned : CNetAddr → Option Int
  fDisconnect : N → Bool

inductive BanAct (N : Type) where
  | misbehaving (pnode : N) (howmuch : Int32) (now : Int)
  | clearBanned
deriving DecidableEq

namespace BanState

variable {N : Type}

def init : BanState N := ⟨fun _ => 0, fun _ => none, fun _ => false⟩

def isBanned (s : BanState N) (ip : CNetAddr) (now : Int) : Bool :=
  match s.setBanned ip with
  | some t => decide (now < t)
  | none => false

variable [DecidableEq N] (addr : N → CNetAddr) (options : BanOptions)

/-- `Misbehaving`; not defined if a sum overflows. An address that is not in the table comes into it
with the time 0. -/
def misbehaving (s : BanState N) (pnode : N) (howmuch : Int32) (now : Int) :
    Option (BanState N × Bool) :=
  if (addr pnode).isLocal then some (s, false)
  else do
    let score ← int32 ((s.nMisbehavior pnode).toInt + howmuch.toInt)
    let s := { s with nMisbehavior := Function.update s.nMisbehavior pnode score }
    if options.banscore ≤ score.toInt then do
      let banTime ← int64 (now + options.bantime)
      let t := (s.setBanned (addr pnode)).getD 0
      let t := if t < banTime then banTime else t
      pure ({ s with
          setBanned := Function.update s.setBanned (addr pnode) (some t)
          fDisconnect := Function.update s.fDisconnect pnode true }, true)
    else pure (s, false)

def step (s : BanState N) : BanAct N → Option (BanState N)
  | .misbehaving pnode howmuch now => (misbehaving addr options s pnode howmuch now).map Prod.fst
  | .clearBanned => some { s with setBanned := fun _ => none }

def run (acts : List (BanAct N)) : Option (BanState N) := acts.foldlM (step addr options) init

end BanState

/-! ## The history -/

namespace BanAct

variable {N : Type} [DecidableEq N]

def score (n : N) : List (BanAct N) → Int
  | [] => 0
  | .misbehaving pnode howmuch _ :: acts => (if pnode = n then howmuch.toInt else 0) + score n acts
  | .clearBanned :: acts => score n acts

variable (addr : N → CNetAddr) (options : BanOptions)

/-- After these calls, one more brings the node to the limit. -/
structure Reaches (before : List (BanAct N)) (n : N) (howmuch : Int32) : Prop where
  notLocal : (addr n).isLocal = false
  banscore_le : options.banscore ≤ score n before + howmuch.toInt

/-- After these calls, one more does not overflow. -/
structure Fits (before : List (BanAct N)) (n : N) (howmuch : Int32) (now : Int) : Prop where
  score : (addr n).isLocal = false → Int32Range (score n before + howmuch.toInt)
  banTime : Reaches addr options before n howmuch → Int64Range (now + options.bantime)

def AllFit (acts : List (BanAct N)) : Prop :=
  ∀ before n howmuch now after, acts = before ++ .misbehaving n howmuch now :: after →
    Fits addr options before n howmuch now

/-- A call bans the address until the time `t`, and the table was not cleared after it. -/
def BansUntil (acts : List (BanAct N)) (ip : CNetAddr) (t : Int) : Prop :=
  ∃ before n howmuch now after, acts = before ++ .misbehaving n howmuch now :: after ∧
    addr n = ip ∧ Reaches addr options before n howmuch ∧ .clearBanned ∉ after ∧
    t = now + options.bantime

/-- A call of the node has reached the limit. -/
def Disconnects (acts : List (BanAct N)) (n : N) : Prop :=
  ∃ before howmuch now after, acts = before ++ .misbehaving n howmuch now :: after ∧
    Reaches addr options before n howmuch

variable {addr options} {acts : List (BanAct N)} {a : BanAct N} {ip : CNetAddr} {n : N} {t : Int}

theorem score_append (n : N) (acts acts' : List (BanAct N)) :
    score n (acts ++ acts') = score n acts + score n acts' := by
  induction acts with
  | nil => exact (Int.zero_add _).symm
  | cons a acts ih =>
    cases a with
    | misbehaving pnode howmuch now =>
      rw [List.cons_append, score, score, ih, Int.add_assoc]
    | clearBanned => exact ih

omit [DecidableEq N] in
/-- A call in a list is the last one or one of those before it. -/
theorem concat_eq_iff {b : BanAct N} {before after : List (BanAct N)} :
    acts ++ [a] = before ++ b :: after ↔
      (∃ after', after = after' ++ [a] ∧ acts = before ++ b :: after') ∨
        after = [] ∧ acts = before ∧ a = b := by
  rcases List.eq_nil_or_concat after with rfl | ⟨after', c, rfl⟩
  · constructor
    · intro h
      obtain ⟨hacts, ha⟩ := List.append_inj' h rfl
      exact .inr ⟨rfl, hacts, (List.cons.inj ha).1⟩
    · rintro (⟨after', hnil, -⟩ | ⟨-, rfl, rfl⟩)
      · exact absurd hnil.symm (List.append_ne_nil_of_right_ne_nil _ (List.cons_ne_nil _ _))
      · rfl
  · rw [List.concat_eq_append, ← List.cons_append, ← List.append_assoc]
    constructor
    · intro h
      obtain ⟨hacts, hc⟩ := List.append_inj' h rfl
      exact .inl ⟨after', by rw [(List.cons.inj hc).1], hacts⟩
    · rintro (⟨after'', hlast, rfl⟩ | ⟨hnil, -⟩)
      · obtain ⟨rfl, hc⟩ := List.append_inj' hlast rfl
        rw [hc]
      · exact absurd hnil (List.append_ne_nil_of_right_ne_nil _ (List.cons_ne_nil _ _))

theorem not_bansUntil_clear : ¬BansUntil addr options (acts ++ [.clearBanned]) ip t := by
  rintro ⟨before, n, howmuch, now, after, heq, -, -, hclear, -⟩
  rcases concat_eq_iff.mp heq with ⟨after', rfl, -⟩ | ⟨-, -, hlast⟩
  · exact hclear (List.mem_append_right _ (List.mem_singleton_self _))
  · cases hlast

theorem bansUntil_misbehaving {howmuch : Int32} {now : Int} :
    BansUntil addr options (acts ++ [.misbehaving n howmuch now]) ip t ↔
      BansUntil addr options acts ip t ∨ addr n = ip ∧ Reaches addr options acts n howmuch ∧
        t = now + options.bantime := by
  constructor
  · rintro ⟨before, n', howmuch', now', after, heq, hip, hreaches, hclear, ht⟩
    rcases concat_eq_iff.mp heq with ⟨after', rfl, rfl⟩ | ⟨-, rfl, hlast⟩
    · exact .inl ⟨before, n', howmuch', now', after', rfl, hip, hreaches,
        fun hmem => hclear (List.mem_append_left _ hmem), ht⟩
    · obtain ⟨rfl, rfl, rfl⟩ := BanAct.misbehaving.inj hlast
      exact .inr ⟨hip, hreaches, ht⟩
  · rintro (⟨before, n', howmuch', now', after, rfl, hip, hreaches, hclear, ht⟩ |
      ⟨hip, hreaches, ht⟩)
    · refine ⟨before, n', howmuch', now', after ++ [.misbehaving n howmuch now], by simp, hip,
        hreaches, fun hmem => ?_, ht⟩
      rcases List.mem_append.mp hmem with hmem | hmem
      · exact hclear hmem
      · cases List.mem_singleton.mp hmem
    · exact ⟨acts, n, howmuch, now, [], rfl, hip, hreaches, List.not_mem_nil, ht⟩

theorem disconnects_concat {n' : N} : Disconnects addr options (acts ++ [a]) n' ↔
    Disconnects addr options acts n' ∨
      ∃ howmuch now, a = .misbehaving n' howmuch now ∧ Reaches addr options acts n' howmuch := by
  constructor
  · rintro ⟨before, howmuch, now, after, heq, hreaches⟩
    rcases concat_eq_iff.mp heq with ⟨after', rfl, rfl⟩ | ⟨-, rfl, hlast⟩
    · exact .inl ⟨before, howmuch, now, after', rfl, hreaches⟩
    · exact .inr ⟨howmuch, now, hlast, hreaches⟩
  · rintro (⟨before, howmuch, now, after, rfl, hreaches⟩ | ⟨howmuch, now, rfl, hreaches⟩)
    · exact ⟨before, howmuch, now, after ++ [a], by simp, hreaches⟩
    · exact ⟨acts, howmuch, now, [], rfl, hreaches⟩

theorem bansUntil_of_not_reaches {howmuch : Int32} {now : Int}
    (h : ¬Reaches addr options acts n howmuch) :
    BansUntil addr options (acts ++ [.misbehaving n howmuch now]) ip t ↔
      BansUntil addr options acts ip t := by
  rw [bansUntil_misbehaving]
  exact or_iff_left fun hban => h hban.2.1

theorem disconnects_of_not_reaches {n' : N} {howmuch : Int32} {now : Int}
    (h : ¬Reaches addr options acts n howmuch) :
    Disconnects addr options (acts ++ [.misbehaving n howmuch now]) n' ↔
      Disconnects addr options acts n' := by
  rw [disconnects_concat]
  refine or_iff_left ?_
  rintro ⟨howmuch', now', heq, hreaches⟩
  obtain ⟨rfl, rfl, -⟩ := BanAct.misbehaving.inj heq
  exact h hreaches

theorem score_misbehaving (n' : N) (howmuch : Int32) (now : Int) :
    score n' (acts ++ [.misbehaving n howmuch now]) =
      score n' acts + if n = n' then howmuch.toInt else 0 := by
  rw [score_append, score, score, Int.add_zero]

theorem allFit_nil : AllFit addr options [] := fun _ _ _ _ _ heq =>
  absurd heq.symm (List.append_ne_nil_of_right_ne_nil _ (List.cons_ne_nil _ _))

theorem AllFit.misbehaving {howmuch : Int32} {now : Int} (h : AllFit addr options acts)
    (hfits : Fits addr options acts n howmuch now) :
    AllFit addr options (acts ++ [.misbehaving n howmuch now]) := by
  intro before n' howmuch' now' after heq
  rcases concat_eq_iff.mp heq with ⟨after', -, hbefore⟩ | ⟨-, rfl, hlast⟩
  · exact h before n' howmuch' now' after' hbefore
  · obtain ⟨rfl, rfl, rfl⟩ := BanAct.misbehaving.inj hlast
    exact hfits

theorem AllFit.before (h : AllFit addr options (acts ++ [a])) : AllFit addr options acts :=
  fun before n howmuch now after heq => h before n howmuch now (after ++ [a]) (by simp [heq])

theorem AllFit.last {howmuch : Int32} {now : Int}
    (h : AllFit addr options (acts ++ [.misbehaving n howmuch now])) :
    Fits addr options acts n howmuch now :=
  h acts n howmuch now [] rfl

end BanAct

/-! ## The table -/

namespace BanState

open BanAct

variable {N : Type} [DecidableEq N] {addr : N → CNetAddr} {options : BanOptions}
  {acts : List (BanAct N)}

/-- The entry of an address for the bans of a history. -/
def Latest (bans : Int → Prop) : Option Int → Prop
  | none => ∀ t, ¬bans t
  | some t => (∀ u, bans u → u ≤ t) ∧ (t = 0 ∨ bans t)

/-- What the state says about a history. -/
structure Tells (addr : N → CNetAddr) (options : BanOptions) (acts : List (BanAct N))
    (s : BanState N) : Prop where
  nMisbehavior : ∀ n, (addr n).isLocal = false → (s.nMisbehavior n).toInt = score n acts
  setBanned : ∀ ip, Latest (BansUntil addr options acts ip) (s.setBanned ip)
  fDisconnect : ∀ n, s.fDisconnect n = true ↔ Disconnects addr options acts n

theorem Latest.congr {bans bans' : Int → Prop} {entry : Option Int} (h : Latest bans entry)
    (hiff : ∀ t, bans' t ↔ bans t) : Latest bans' entry := by
  have hsame : bans' = bans := funext fun t => propext (hiff t)
  rwa [hsame]

/-- One more ban. -/
theorem Latest.ban {bans : Int → Prop} {entry : Option Int} (h : Latest bans entry) (u : Int) :
    Latest (fun t => bans t ∨ t = u)
      (some (if entry.getD 0 < u then u else entry.getD 0)) := by
  cases entry with
  | none =>
    rw [Option.getD_none]
    split
    · next hlt => exact ⟨fun t ht => (ht.resolve_left (h t)).le, .inr (.inr rfl)⟩
    · next hle => exact ⟨fun t ht => (ht.resolve_left (h t)) ▸ Int.not_lt.mp hle, .inl rfl⟩
  | some t =>
    rw [Option.getD_some]
    split
    · next hlt =>
      refine ⟨fun t' ht' => ?_, .inr (.inr rfl)⟩
      rcases ht' with ht' | rfl
      · exact Int.le_trans (h.1 t' ht') (Int.le_of_lt hlt)
      · exact Int.le_refl _
    · next hle =>
      refine ⟨fun t' ht' => ?_, h.2.imp_right .inl⟩
      rcases ht' with ht' | rfl
      · exact h.1 t' ht'
      · exact Int.not_lt.mp hle

theorem Tells.score {s : BanState N} (h : Tells addr options acts s) {n : N}
    (hremote : (addr n).isLocal = false) {howmuch score : Int32} (now : Int)
    (hscore : score.toInt = (s.nMisbehavior n).toInt + howmuch.toInt) (n' : N)
    (hn' : (addr n').isLocal = false) :
    (Function.update s.nMisbehavior n score n').toInt =
      BanAct.score n' (acts ++ [.misbehaving n howmuch now]) := by
  rw [score_misbehaving]
  by_cases hn : n' = n
  · rw [hn, Function.update_self, if_pos rfl, hscore, h.nMisbehavior n hremote]
  · rw [Function.update_of_ne hn, if_neg (Ne.symm hn), Int.add_zero, h.nMisbehavior n' hn']

/-- A call that brings the node to the limit. -/
theorem Tells.reaches {s : BanState N} (h : Tells addr options acts s) {n : N}
    {howmuch score : Int32} (hreaches : Reaches addr options acts n howmuch) (now : Int)
    (hscore : score.toInt = (s.nMisbehavior n).toInt + howmuch.toInt) :
    Tells addr options (acts ++ [.misbehaving n howmuch now])
      { nMisbehavior := Function.update s.nMisbehavior n score
        setBanned := Function.update s.setBanned (addr n)
          (some (if (s.setBanned (addr n)).getD 0 < now + options.bantime then
            now + options.bantime else (s.setBanned (addr n)).getD 0))
        fDisconnect := Function.update s.fDisconnect n true } where
  nMisbehavior := h.score hreaches.notLocal now hscore
  setBanned ip := by
    dsimp only
    by_cases hip : ip = addr n
    · subst hip
      rw [Function.update_self]
      refine ((h.setBanned (addr n)).ban (now + options.bantime)).congr fun t => ?_
      rw [bansUntil_misbehaving]
      exact or_congr_right ⟨fun hban => hban.2.2, fun ht => ⟨rfl, hreaches, ht⟩⟩
    · rw [Function.update_of_ne hip]
      refine (h.setBanned ip).congr fun t => ?_
      rw [bansUntil_misbehaving]
      exact or_iff_left fun hban => hip hban.1.symm
  fDisconnect n' := by
    dsimp only
    rw [disconnects_concat]
    by_cases hn : n' = n
    · subst hn
      rw [Function.update_self]
      exact ⟨fun _ => .inr ⟨howmuch, now, rfl, hreaches⟩, fun _ => rfl⟩
    · rw [Function.update_of_ne hn, h.fDisconnect]
      refine (or_iff_left ?_).symm
      rintro ⟨howmuch', now', heq, -⟩
      exact hn (BanAct.misbehaving.inj heq).1.symm

/-- A call that does not overflow says whether it has reached the limit. -/
theorem Tells.misbehaving {s : BanState N} (h : Tells addr options acts s) {n : N}
    {howmuch : Int32} {now : Int} (hfits : Fits addr options acts n howmuch now) :
    ∃ s' fBanned, misbehaving addr options s n howmuch now = some (s', fBanned) ∧
      Tells addr options (acts ++ [.misbehaving n howmuch now]) s' ∧
      (fBanned = true ↔ Reaches addr options acts n howmuch) := by
  have hnothing : ¬Reaches addr options acts n howmuch →
      (∀ ip, Latest (BansUntil addr options (acts ++ [.misbehaving n howmuch now]) ip)
        (s.setBanned ip)) ∧
      ∀ n', s.fDisconnect n' = true ↔
        Disconnects addr options (acts ++ [.misbehaving n howmuch now]) n' := fun hnot =>
    ⟨fun ip => (h.setBanned ip).congr fun _ => bansUntil_of_not_reaches hnot,
      fun n' => (h.fDisconnect n').trans (disconnects_of_not_reaches hnot).symm⟩
  unfold BanState.misbehaving
  by_cases hlocal : (addr n).isLocal = true
  · -- a local node is only warned about
    have hnot : ¬Reaches addr options acts n howmuch := fun hreaches =>
      absurd (hlocal.symm.trans hreaches.notLocal) (by decide)
    obtain ⟨hbanned, hdisconnect⟩ := hnothing hnot
    rw [if_pos hlocal]
    refine ⟨s, false, rfl, ⟨fun n' hn' => ?_, hbanned, hdisconnect⟩,
      fun hfalse => (by cases hfalse), fun hreaches => absurd hreaches hnot⟩
    have hne : n ≠ n' := by
      rintro rfl
      exact absurd (hlocal.symm.trans hn') (by decide)
    rw [score_misbehaving, if_neg hne, Int.add_zero]
    exact h.nMisbehavior n' hn'
  have hremote : (addr n).isLocal = false := Bool.eq_false_iff.mpr hlocal
  have hsum : (s.nMisbehavior n).toInt + howmuch.toInt = BanAct.score n acts + howmuch.toInt := by
    rw [h.nMisbehavior n hremote]
  obtain ⟨score, hsome, hscore⟩ : ∃ score, int32 ((s.nMisbehavior n).toInt + howmuch.toInt) =
      some score ∧ score.toInt = (s.nMisbehavior n).toInt + howmuch.toInt := by
    have hrange := hfits.score hremote
    rw [← hsum] at hrange
    exact ⟨_, int32_of_range hrange, toInt_ofInt hrange⟩
  rw [if_neg hlocal, hsome]
  simp only [Option.bind_eq_bind, Option.bind_some]
  by_cases hban : options.banscore ≤ BanAct.score n acts + howmuch.toInt
  · have hreaches : Reaches addr options acts n howmuch := ⟨hremote, hban⟩
    rw [hscore, hsum, if_pos hban, int64_eq_some.mpr ⟨rfl, hfits.banTime hreaches⟩,
      Option.bind_some]
    exact ⟨_, true, rfl, h.reaches hreaches now hscore, fun _ => hreaches, fun _ => rfl⟩
  · have hnot : ¬Reaches addr options acts n howmuch := fun hreaches => hban hreaches.banscore_le
    obtain ⟨hbanned, hdisconnect⟩ := hnothing hnot
    rw [hscore, hsum, if_neg hban]
    exact ⟨_, false, rfl, ⟨h.score hremote now hscore, hbanned, hdisconnect⟩,
      fun hfalse => (by cases hfalse), fun hreaches => absurd hreaches hnot⟩

theorem Tells.clearBanned {s : BanState N} (h : Tells addr options acts s) :
    Tells addr options (acts ++ [.clearBanned]) { s with setBanned := fun _ => none } where
  nMisbehavior n hn := by
    rw [score_append]
    exact (h.nMisbehavior n hn).trans (Int.add_zero _).symm
  setBanned ip t := not_bansUntil_clear
  fDisconnect n := by
    rw [disconnects_concat]
    refine (h.fDisconnect n).trans (or_iff_left ?_).symm
    rintro ⟨_, _, heq, -⟩
    cases heq

theorem tells_run {addr : N → CNetAddr} {options : BanOptions} {acts : List (BanAct N)}
    (hfit : AllFit addr options acts) :
    ∃ s, run addr options acts = some s ∧ Tells addr options acts s := by
  induction acts using List.reverseRecOn with
  | nil =>
    refine ⟨init, rfl, fun _ _ => rfl, fun ip t => ?_, fun n => ?_⟩
    · rintro ⟨before, _, _, _, after, heq, -⟩
      exact absurd heq.symm (List.append_ne_nil_of_right_ne_nil _ (List.cons_ne_nil _ _))
    · refine ⟨fun hset => (by cases hset), ?_⟩
      rintro ⟨before, _, _, after, heq, -⟩
      exact absurd heq.symm (List.append_ne_nil_of_right_ne_nil _ (List.cons_ne_nil _ _))
  | append_singleton acts a ih =>
    obtain ⟨s, hrun, htells⟩ := ih hfit.before
    have hlast : run addr options (acts ++ [a]) = step addr options s a := by
      rw [run] at hrun
      rw [run, List.foldlM_append, hrun, Option.bind_eq_bind, Option.bind_some, List.foldlM_cons]
      exact bind_pure _
    rw [hlast]
    cases a with
    | misbehaving n howmuch now =>
      obtain ⟨s', fBanned, hcall, htells', -⟩ := htells.misbehaving hfit.last
      refine ⟨s', ?_, htells'⟩
      rw [step, hcall]
      rfl
    | clearBanned => exact ⟨_, rfl, htells.clearBanned⟩

omit [DecidableEq N] in
theorem isBanned_iff {s : BanState N} {ip : CNetAddr} {now : Int} {bans : Int → Prop}
    (h : Latest bans (s.setBanned ip)) (hnow : 0 ≤ now) :
    s.isBanned ip now = true ↔ ∃ t, bans t ∧ now < t := by
  unfold isBanned
  cases hentry : s.setBanned ip with
  | none =>
    rw [hentry] at h
    exact ⟨fun hset => (by cases hset), fun ⟨t, ht, _⟩ => absurd ht (h t)⟩
  | some t =>
    rw [hentry] at h
    rw [decide_eq_true_iff]
    constructor
    · intro hlt
      rcases h.2 with rfl | ht
      · exact absurd hnow (Int.not_le.mpr hlt)
      · exact ⟨t, ht, hlt⟩
    · rintro ⟨u, hu, hlt⟩
      exact Int.lt_of_lt_of_le hlt (h.1 u hu)

/-- **Bans.** After any calls of `Misbehaving`, by any nodes and at any times, and of `ClearBanned`,
of which none overflows, an address is banned exactly while some call since the last `ClearBanned`
bans it: a node with that address, which is not local, has had a score of at least `-banscore` with
that call, and `-bantime` is not over. A node was disconnected exactly if a call of its own has
reached that score, which is also what the call returned. -/
theorem bans_spec {addr : N → CNetAddr} {options : BanOptions} {acts : List (BanAct N)}
    (hfit : AllFit addr options acts) :
    ∃ s, run addr options acts = some s ∧
      (∀ ip now, 0 ≤ now → (s.isBanned ip now = true ↔
        ∃ t, BansUntil addr options acts ip t ∧ now < t)) ∧
      (∀ n, s.fDisconnect n = true ↔ Disconnects addr options acts n) ∧
      ∀ n howmuch now, Fits addr options acts n howmuch now →
        ∃ s' fBanned, misbehaving addr options s n howmuch now = some (s', fBanned) ∧
          (fBanned = true ↔ Reaches addr options acts n howmuch) := by
  obtain ⟨s, hrun, htells⟩ := tells_run hfit
  refine ⟨s, hrun, fun ip now hnow => isBanned_iff (htells.setBanned ip) hnow, htells.fDisconnect,
    fun n howmuch now hfits => ?_⟩
  obtain ⟨s', fBanned, hcall, -, hiff⟩ := htells.misbehaving hfits
  exact ⟨s', fBanned, hcall, hiff⟩

namespace BanSample

/-- The first has done 50 twice, the second 100 an hour later. -/
def hourLater : List (BanAct Nat) :=
  [.misbehaving 0 50 1000, .misbehaving 0 50 2000, .misbehaving 1 100 5600]

def ip : CNetAddr :=
  ⟨⟨[0, 0, 0, 0, 0, 0, 0, 0, 0, 0, 0xff, 0xff, 0xa0, 0xb0, 0xc0, 0x01], by decide⟩⟩

theorem hourLater_fits : AllFit (fun _ : Nat => ip) ⟨100, 86400⟩ hourLater :=
  ((allFit_nil.misbehaving ⟨fun _ => by decide, fun _ => by decide⟩).misbehaving
    ⟨fun _ => by decide, fun _ => by decide⟩).misbehaving ⟨fun _ => by decide, fun _ => by decide⟩

theorem bans_spec_sample : ∃ s, run (fun _ : Nat => ip) ⟨100, 86400⟩ hourLater = some s ∧
    s.isBanned ip 90000 = true := by
  obtain ⟨s, hrun, hbanned, -⟩ := bans_spec hourLater_fits
  refine ⟨s, hrun, (hbanned ip 90000 (by decide)).mpr ?_⟩
  exact ⟨92000, ⟨[.misbehaving 0 50 1000, .misbehaving 0 50 2000], 1, 100, 5600, [], rfl, rfl,
    ⟨by decide, by decide⟩, by decide, by decide⟩, by decide⟩

end BanSample

end BanState

/-! ## Masks of `-rpcallowip` -/

def asterisk : UInt8 := 0x2A
def questionMark : UInt8 := 0x3F

/-- `WildcardMatch`, on what stands before the end of the strings. -/
def wildcardMatch (psz mask : List UInt8) : Bool :=
  match mask with
  | [] => psz.isEmpty
  | c :: rest =>
    if c = asterisk then
      wildcardMatch psz rest ||
        match psz with
        | [] => false
        | _ :: psz => wildcardMatch psz (c :: rest)
    else
      match psz with
      | [] => false
      | b :: psz => if c = questionMark ∨ b = c then wildcardMatch psz rest else false
termination_by psz.length + mask.length

/-- What one character of a mask stands for. -/
def maskPart (c : UInt8) : Language UInt8 :=
  {text | c = asterisk ∨ ∃ b, text = [b] ∧ (c = questionMark ∨ b = c)}

def maskLanguage (mask : List UInt8) : Language UInt8 := (mask.map maskPart).prod

variable {psz mask : List UInt8} {b c : UInt8}

theorem maskLanguage_cons (c : UInt8) (mask : List UInt8) :
    maskLanguage (c :: mask) = maskPart c * maskLanguage mask := by
  rw [maskLanguage, List.map_cons, List.prod_cons, maskLanguage]

theorem mem_maskLanguage_nil : psz ∈ maskLanguage [] ↔ psz = [] := by
  rw [maskLanguage, List.map_nil, List.prod_nil]
  exact Language.mem_one psz

theorem mem_maskLanguage_asterisk : psz ∈ maskLanguage (asterisk :: mask) ↔
    psz ∈ maskLanguage mask ∨
      ∃ b rest, psz = b :: rest ∧ rest ∈ maskLanguage (asterisk :: mask) := by
  rw [maskLanguage_cons, Language.mem_mul]
  constructor
  · rintro ⟨text, htext, rest, hrest, rfl⟩
    cases text with
    | nil => exact .inl hrest
    | cons b text => exact .inr ⟨b, text ++ rest, rfl, text, .inl rfl, rest, hrest, rfl⟩
  · rintro (hrest | ⟨b, rest, rfl, text, -, rest', hrest', rfl⟩)
    · exact ⟨[], .inl rfl, psz, hrest, rfl⟩
    · exact ⟨b :: text, .inl rfl, rest', hrest', rfl⟩

theorem mem_maskLanguage_of_ne (hc : c ≠ asterisk) : psz ∈ maskLanguage (c :: mask) ↔
    ∃ b rest, psz = b :: rest ∧ (c = questionMark ∨ b = c) ∧ rest ∈ maskLanguage mask := by
  rw [maskLanguage_cons, Language.mem_mul]
  constructor
  · rintro ⟨text, htext, rest, hrest, rfl⟩
    obtain ⟨b, rfl, hb⟩ := htext.resolve_left hc
    exact ⟨b, rest, rfl, hb, hrest⟩
  · rintro ⟨b, rest, rfl, hb, hrest⟩
    exact ⟨[b], .inr ⟨b, rfl, hb⟩, rest, hrest, rfl⟩

theorem wildcardMatch_iff (psz mask : List UInt8) :
    wildcardMatch psz mask = true ↔ psz ∈ maskLanguage mask := by
  induction mask generalizing psz with
  | nil =>
    rw [wildcardMatch, mem_maskLanguage_nil]
    exact List.isEmpty_iff
  | cons c mask ih =>
    by_cases hc : c = asterisk
    · -- the `*` stays in front until the rest of the mask fits
      subst hc
      induction psz with
      | nil =>
        rw [wildcardMatch, if_pos rfl, Bool.or_false, ih, mem_maskLanguage_asterisk]
        refine (or_iff_left ?_).symm
        rintro ⟨b, rest, heq, -⟩
        cases heq
      | cons b psz ihpsz =>
        rw [wildcardMatch, if_pos rfl, Bool.or_eq_true, ih, ihpsz]
        refine Iff.trans ?_ mem_maskLanguage_asterisk.symm
        refine or_congr_right ⟨fun hrest => ⟨b, psz, rfl, hrest⟩, ?_⟩
        rintro ⟨b', rest, heq, hrest⟩
        rw [(List.cons.inj heq).2]
        exact hrest
    · rw [mem_maskLanguage_of_ne hc]
      cases psz with
      | nil =>
        rw [wildcardMatch, if_neg hc]
        refine ⟨fun h => (by cases h), ?_⟩
        rintro ⟨b, rest, heq, -⟩
        cases heq
      | cons b psz =>
        rw [wildcardMatch, if_neg hc]
        by_cases hb : c = questionMark ∨ b = c
        · rw [if_pos hb, ih]
          refine ⟨fun hrest => ⟨b, psz, rfl, hb, hrest⟩, ?_⟩
          rintro ⟨b', rest, heq, -, hrest⟩
          rw [(List.cons.inj heq).2]
          exact hrest
        · rw [if_neg hb]
          refine ⟨fun h => (by cases h), ?_⟩
          rintro ⟨b', rest, heq, hb', -⟩
          rw [(List.cons.inj heq).1] at hb
          exact absurd hb' hb

/-! ## RPC clients -/

/-- What `ClientAllowed` uses of the addresses of Boost.Asio: the two kinds of addresses, the IPv4
addresses that IPv6 addresses stand for, the loopback addresses, the number of an IPv4 address, and
the text. -/
class AsioAddresses where
  address_v4 : Type
  address_v6 : Type
  decEqV4 : DecidableEq address_v4
  decEqV6 : DecidableEq address_v6
  is_v4_compatible : address_v6 → Bool
  is_v4_mapped : address_v6 → Bool
  to_v4 : address_v6 → address_v4
  loopback_v4 : address_v4
  loopback_v6 : address_v6
  to_ulong : address_v4 → UInt32
  to_string : address_v4 ⊕ address_v6 → Text

namespace AsioAddresses

/-- What its documentation says of the loopback addresses: 127.0.0.1, and `::1`, which does not stand
for an IPv4 address. -/
structure Documented [AsioAddresses] : Prop where
  to_ulong_loopback_v4 : to_ulong loopback_v4 = 0x7F000001
  not_v4_compatible : is_v4_compatible loopback_v6 = false
  not_v4_mapped : is_v4_mapped loopback_v6 = false

end AsioAddresses

section

open AsioAddresses

variable [AsioAddresses]

instance : DecidableEq address_v4 := decEqV4
instance : DecidableEq address_v6 := decEqV6

abbrev IpAddress : Type := address_v4 ⊕ address_v6

namespace IpAddress

/-- The loopback addresses and 127.0.0.0/8, as `ClientAllowed` checks them. -/
def isLoopback (address : IpAddress) : Bool :=
  decide (address = .inl loopback_v4) || decide (address = .inr loopback_v6) ||
    match address with
    | .inl address => to_ulong address &&& 0xFF000000 == 0x7F000000
    | .inr _ => false

/-- The IPv4 address that an IPv6 address stands for, if there is one. -/
def canonical : IpAddress → IpAddress
  | .inl address => .inl address
  | .inr address =>
    if is_v4_compatible address || is_v4_mapped address then .inl (to_v4 address)
    else .inr address

end IpAddress

open IpAddress

/-- The checks of `ClientAllowed` for an address that does not stand for another one; `vAllow` are
the masks. -/
def addressAllowed (vAllow : List Text) (address : IpAddress) : Bool :=
  isLoopback address ||
    vAllow.any fun strAllow => wildcardMatch (cStr (to_string address)) (cStr strAllow)

def clientAllowed (vAllow : List Text) (address : IpAddress) : Bool :=
  match address with
  | .inr address =>
    if is_v4_compatible address || is_v4_mapped address then
      addressAllowed vAllow (.inl (to_v4 address))
    else addressAllowed vAllow (.inr address)
  | .inl address => addressAllowed vAllow (.inl address)

/-- The loopback addresses: 127.0.0.0/8 and `::1`. -/
def Loopback : IpAddress → Prop
  | .inl address => (to_ulong address).toNat / 2 ^ 24 = 127
  | .inr address => address = loopback_v6

omit [AsioAddresses] in
theorem and_netmask_eq_iff (n : UInt32) :
    n &&& 0xFF000000 = 0x7F000000 ↔ n.toNat / 2 ^ 24 = 127 := by
  have hdiv : (n.toNat &&& 0xFF000000) / 2 ^ 24 = n.toNat / 2 ^ 24 := by
    rw [Nat.and_div_two_pow]
    have hlt : n.toNat / 2 ^ 24 < 2 ^ 8 := by
      have := n.toNat_lt
      omega
    exact (Nat.and_two_pow_sub_one_eq_mod _ 8).trans (Nat.mod_eq_of_lt hlt)
  have hmod : (n.toNat &&& 0xFF000000) % 2 ^ 24 = 0 := by
    rw [Nat.and_mod_two_pow]
    exact Nat.and_zero _
  rw [← UInt32.toNat_inj, UInt32.toNat_and]
  change n.toNat &&& 0xFF000000 = 127 * 2 ^ 24 ↔ _
  omega

theorem isLoopback_iff (hasio : Documented) (address : IpAddress) :
    isLoopback address = true ↔ Loopback address := by
  cases address with
  | inr address =>
    simp [isLoopback, Loopback]
  | inl address =>
    have hone : address = loopback_v4 → to_ulong address &&& 0xFF000000 = 0x7F000000 := by
      rintro rfl
      rw [hasio.to_ulong_loopback_v4]
      rfl
    simp only [isLoopback, Loopback, Bool.or_eq_true, decide_eq_true_eq, beq_iff_eq,
      Sum.inl.injEq, reduceCtorEq, or_false]
    rw [and_netmask_eq_iff] at hone ⊢
    exact or_iff_right_of_imp hone

theorem addressAllowed_iff (hasio : Documented) (vAllow : List Text) (address : IpAddress) :
    addressAllowed vAllow address = true ↔ Loopback address ∨
      ∃ strAllow ∈ vAllow, cStr (to_string address) ∈ maskLanguage (cStr strAllow) := by
  rw [addressAllowed, Bool.or_eq_true, isLoopback_iff hasio, List.any_eq_true]
  simp only [wildcardMatch_iff]

/-- **The RPC clients.** The server answers exactly the loopback addresses and those that a mask
describes, where an IPv6 address that stands for one of IPv4 is read as that; `::1` is always
answered. -/
theorem clientAllowed_spec (hasio : Documented) (vAllow : List Text) :
    (∀ address : IpAddress, clientAllowed vAllow address = true ↔ Loopback address.canonical ∨
      ∃ strAllow ∈ vAllow, cStr (to_string address.canonical) ∈ maskLanguage (cStr strAllow)) ∧
    clientAllowed vAllow (.inr loopback_v6) = true := by
  have hiff : ∀ address : IpAddress, clientAllowed vAllow address = true ↔
      Loopback address.canonical ∨
        ∃ strAllow ∈ vAllow, cStr (to_string address.canonical) ∈ maskLanguage (cStr strAllow) := by
    intro address
    rw [← addressAllowed_iff hasio]
    cases address with
    | inl address => rfl
    | inr address =>
      rw [clientAllowed, canonical]
      split
      · rfl
      · rfl
  refine ⟨hiff, (hiff _).mpr (.inl ?_)⟩
  rw [canonical, hasio.not_v4_compatible, hasio.not_v4_mapped]
  rfl

end

/-! ## An address in a home network -/

namespace AddressSample

/-- IPv4 addresses are numbers and IPv6 addresses bytes; the text of an IPv4 address has its bytes as
decimal numbers. -/
scoped instance asio : AsioAddresses where
  address_v4 := UInt32
  address_v6 := Bytes 16
  decEqV4 := inferInstance
  decEqV6 := inferInstance
  is_v4_compatible bytes := bytes.1.take 12 == List.replicate 12 0 &&
    bytes.1.drop 12 != [0, 0, 0, 0] && bytes.1.drop 12 != [0, 0, 0, 1]
  is_v4_mapped bytes := bytes.1.take 12 == List.replicate 10 0 ++ [0xFF, 0xFF]
  to_v4 bytes := UInt32.ofNat ((bytes.1.drop 12).foldl (fun n b => 256 * n + b.toNat) 0)
  loopback_v4 := 0x7F000001
  loopback_v6 := ⟨List.replicate 15 0 ++ [1], rfl⟩
  to_ulong n := n
  to_string
    | .inl n => [24, 16, 8, 0].flatMap fun k =>
        (if k = 24 then [] else [0x2E]) ++
          (Nat.toDigits 10 (n.toNat / 2 ^ k % 256)).map fun c => c.toNat.toUInt8
    | .inr bytes => bytes.1

theorem documented : AsioAddresses.Documented := ⟨rfl, rfl, rfl⟩

/-- The IPv6 address of 192.168.1.7. -/
def mapped : IpAddress :=
  .inr (⟨[0, 0, 0, 0, 0, 0, 0, 0, 0, 0, 0xFF, 0xFF, 192, 168, 1, 7], rfl⟩ : Bytes 16)

/-- The mask 192.168.*. -/
theorem clientAllowed_spec_sample :
    clientAllowed ["192.168.*".toUTF8.data.toList] mapped = true := by
  refine ((clientAllowed_spec documented _).1 mapped).mpr (.inr ⟨_, List.mem_singleton_self _, ?_⟩)
  have htext : cStr (AsioAddresses.to_string mapped.canonical) =
      [0x31, 0x39, 0x32, 0x2E, 0x31, 0x36, 0x38, 0x2E, 0x31, 0x2E, 0x37] := by decide +kernel
  have hmask : cStr "192.168.*".toUTF8.data.toList =
      [0x31, 0x39, 0x32, 0x2E, 0x31, 0x36, 0x38, 0x2E, asterisk] := by decide +kernel
  rw [htext, hmask, ← wildcardMatch_iff]
  simp [wildcardMatch, asterisk, questionMark]

end AddressSample

end Terracoin
