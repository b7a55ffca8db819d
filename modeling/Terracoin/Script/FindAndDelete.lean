import Terracoin.Script.Reading
import Mathlib.Logic.Relation
import Mathlib.Data.List.Infix

/-!
# Erasing a pattern from a script

`FindAndDelete` with its iterator: the inner loop erases the pattern as often as it stands at `pc`,
the outer one reads an opcode there. Both end, as each turn leaves fewer bytes behind `pc`.

The places where the loops look for the pattern are the boundaries of the script as it was before:
`next` goes on behind the pattern where it stands, and behind an opcode elsewhere. The pattern is
erased at exactly those boundaries where it stands (`findAndDelete_spec`). The script that is left
is the one of `findAndDelete`, by which signatures are taken out of the script code
(`findAndDeleteFound_fst`).
-/

namespace Terracoin

namespace CScript

/-! ## The loops -/

/-- `GetOp(pc, opcode)`: the position behind the opcode at `pc`. -/
def getOpAt (s : CScript) (pc : Nat) : Option Nat :=
  (getOp (s.drop pc)).map fun r => s.length - r.2.2.length

/-- `end() - pc >= (long)b.size() && memcmp(&pc[0], &b[0], b.size()) == 0`. -/
def MatchesAt (b s : CScript) (pc : Nat) : Prop :=
  b.length ≤ s.length - pc ∧ (s.drop pc).take b.length = b

instance (b s : CScript) (pc : Nat) : Decidable (b.MatchesAt s pc) :=
  inferInstanceAs (Decidable (_ ∧ _))

variable {b s : CScript} {pc p q n : Nat}

/-- `erase(pc, pc + b.size())`. -/
def eraseAt (b s : CScript) (pc : Nat) : CScript := s.take pc ++ s.drop (pc + b.length)

theorem length_eraseAt_lt (hb : b ≠ []) (h : b.MatchesAt s pc) :
    (b.eraseAt s pc).length < s.length := by
  have hpos := List.length_pos_iff.mpr hb
  have hle := h.1
  simp only [eraseAt, List.length_append, List.length_take, List.length_drop]
  omega

/-- The inner loop, with `nFound`. -/
def eraseLoop (b : CScript) (hb : b ≠ []) (s : CScript) (pc nFound : Nat) : CScript × Nat :=
  if h : b.MatchesAt s pc then eraseLoop b hb (b.eraseAt s pc) pc (nFound + 1) else (s, nFound)
termination_by s.length
decreasing_by exact length_eraseAt_lt hb h

theorem length_eraseLoop_le (hb : b ≠ []) (s : CScript) (pc nFound : Nat) :
    (eraseLoop b hb s pc nFound).1.length ≤ s.length := by
  fun_induction eraseLoop b hb s pc nFound with
  | case1 s nFound h ih => exact ih.trans (length_eraseAt_lt hb h).le
  | case2 s nFound h => exact le_rfl

theorem getOpAt_gt (h : getOpAt s pc = some p) : pc < p ∧ p ≤ s.length := by
  obtain ⟨⟨opcode, vch, rest⟩, hop, rfl⟩ := Option.map_eq_some_iff.mp h
  have hlt := length_lt_of_getOp hop
  rw [List.length_drop] at hlt
  simp only
  omega

def findAndDeleteLoop (b : CScript) (hb : b ≠ []) (s : CScript) (pc nFound : Nat) : CScript × Nat :=
  match _h : getOpAt (eraseLoop b hb s pc nFound).1 pc with
  | none => eraseLoop b hb s pc nFound
  | some pc' =>
    findAndDeleteLoop b hb (eraseLoop b hb s pc nFound).1 pc' (eraseLoop b hb s pc nFound).2
termination_by s.length - pc
decreasing_by
  have hlen := length_eraseLoop_le hb s pc nFound
  have hgt := getOpAt_gt _h
  omega

/-- `FindAndDelete`: the script afterwards, and the number that it returns. -/
def findAndDeleteFound (s b : CScript) : CScript × Nat :=
  if hb : b = [] then (s, 0) else findAndDeleteLoop b hb s 0 0

/-! ## Boundaries -/

/-- The next place where the loops look for the pattern, in the script as it was before. -/
def next (b s : CScript) (p : Nat) : Option Nat :=
  if b.MatchesAt s p then some (p + b.length) else getOpAt s p

/-- The loops, once at `p`, look for the pattern at `q`. -/
def Reaches (b s : CScript) (p q : Nat) : Prop :=
  Relation.ReflTransGen (fun p p' => b.next s p = some p') p q

/-- The loops look for the pattern at `q`. -/
def IsBoundary (b s : CScript) (q : Nat) : Prop := b.Reaches s 0 q

/-- The byte at `i` belongs to a pattern at one of the positions. -/
def isErased (b : CScript) (positions : List Nat) (i : Nat) : Bool :=
  positions.any fun p => decide (p ≤ i) && decide (i < p + b.length)

/-- The bytes from `p` on that do not belong to a pattern at one of the positions. -/
def keptFrom (b : CScript) (positions : List Nat) (s : CScript) (p : Nat) : CScript :=
  (((s.drop p).zipIdx p).filter fun x => !isErased b positions x.2).map Prod.fst

theorem next_gt (hb : b ≠ []) (h : b.next s p = some q) : p < q ∧ q ≤ s.length := by
  unfold next at h
  split at h
  · rename_i hmatch
    have hpos := List.length_pos_iff.mpr hb
    have hle := hmatch.1
    obtain rfl := Option.some.inj h
    omega
  · exact getOpAt_gt h

theorem reaches_of_none (h : b.next s p = none) : b.Reaches s p q ↔ q = p := by
  rw [Reaches, Relation.ReflTransGen.cases_head_iff]
  constructor
  · rintro (rfl | ⟨p', hp', -⟩)
    · rfl
    · rw [h] at hp'
      cases hp'
  · rintro rfl
    exact Or.inl rfl

theorem reaches_of_next {p' : Nat} (h : b.next s p = some p') :
    b.Reaches s p q ↔ q = p ∨ b.Reaches s p' q := by
  rw [Reaches, Relation.ReflTransGen.cases_head_iff, eq_comm]
  apply or_congr_right
  constructor
  · rintro ⟨p'', hp'', hreach⟩
    rw [h] at hp''
    obtain rfl := Option.some.inj hp''
    exact hreach
  · intro hreach
    exact ⟨p', h, hreach⟩

theorem isErased_nil (b : CScript) (i : Nat) : isErased b [] i = false := rfl

theorem isErased_cons (b : CScript) (p : Nat) (positions : List Nat) (i : Nat) :
    isErased b (p :: positions) i =
      ((decide (p ≤ i) && decide (i < p + b.length)) || isErased b positions i) := rfl

theorem isErased_of_lt {positions : List Nat} {i : Nat} (h : ∀ q ∈ positions, i < q) :
    isErased b positions i = false := by
  rw [isErased, List.any_eq_false]
  intro q hq
  have := h q hq
  simp only [Bool.and_eq_true, decide_eq_true_eq]
  omega

theorem keptFrom_nil (b s : CScript) (p : Nat) : keptFrom b [] s p = s.drop p := by
  simp [keptFrom, isErased_nil]

theorem keptFrom_skip {positions : List Nat} (hpq : p ≤ q) (hq : q ≤ s.length)
    (h : ∀ p' ∈ positions, q ≤ p') :
    keptFrom b positions s p = (s.drop p).take (q - p) ++ keptFrom b positions s q := by
  have hsplit : s.drop p = (s.drop p).take (q - p) ++ s.drop q := by
    rw [show s.drop q = (s.drop p).drop (q - p) by rw [List.drop_drop]; congr 1; omega,
      List.take_append_drop]
  have hlength : p + ((s.drop p).take (q - p)).length = q := by
    rw [List.length_take, List.length_drop]
    omega
  have hkeep : (((s.drop p).take (q - p)).zipIdx p).filter
      (fun x => !isErased b positions x.2) = ((s.drop p).take (q - p)).zipIdx p := by
    refine List.filter_eq_self.mpr fun x hx => ?_
    have hlt := (List.mem_zipIdx hx).2.1
    rw [isErased_of_lt fun p' hp' => by have := h p' hp'; omega]
    rfl
  rw [keptFrom, hsplit, List.zipIdx_append, List.filter_append, List.map_append, hlength, hkeep,
    List.zipIdx_map_fst, ← hsplit]
  rfl

/-- The bytes of the pattern at the first position are not kept. -/
theorem keptFrom_cons (positions : List Nat) (hmatch : b.MatchesAt s p) :
    keptFrom b (p :: positions) s p = keptFrom b positions s (p + b.length) := by
  have hsplit : s.drop p = b ++ s.drop (p + b.length) := by
    rw [← List.drop_drop]
    conv_lhs => rw [← List.take_append_drop b.length (s.drop p), hmatch.2]
  have herased : (b.zipIdx p).filter (fun x => !isErased b (p :: positions) x.2) = [] := by
    refine List.filter_eq_nil_iff.mpr fun x hx => ?_
    obtain ⟨hle, hlt, -⟩ := List.mem_zipIdx hx
    simp [isErased_cons, hle, hlt]
  have hrest : ((s.drop (p + b.length)).zipIdx (p + b.length)).filter
      (fun x => !isErased b (p :: positions) x.2) =
      ((s.drop (p + b.length)).zipIdx (p + b.length)).filter
        (fun x => !isErased b positions x.2) := by
    refine List.filter_congr fun x hx => ?_
    have hle := (List.mem_zipIdx hx).1
    rw [isErased_cons, show decide (x.2 < p + b.length) = false by simpa using hle, Bool.and_false,
      Bool.false_or]
  rw [keptFrom, hsplit, List.zipIdx_append, List.filter_append, herased, List.nil_append, hrest]
  rfl

/-! ## One turn of the loops -/

theorem findAndDeleteLoop_eq (hb : b ≠ []) (s : CScript) (pc n : Nat) :
    findAndDeleteLoop b hb s pc n =
      match getOpAt (eraseLoop b hb s pc n).1 pc with
      | none => eraseLoop b hb s pc n
      | some pc' =>
        findAndDeleteLoop b hb (eraseLoop b hb s pc n).1 pc' (eraseLoop b hb s pc n).2 := by
  rw [findAndDeleteLoop]
  split
  · rename_i h
    rw [h]
  · rename_i pc' h
    rw [h]

theorem findAndDeleteLoop_of_matches (hb : b ≠ []) (h : b.MatchesAt s pc) (n : Nat) :
    findAndDeleteLoop b hb s pc n = findAndDeleteLoop b hb (b.eraseAt s pc) pc (n + 1) := by
  have herase : eraseLoop b hb s pc n = eraseLoop b hb (b.eraseAt s pc) pc (n + 1) := by
    rw [eraseLoop, dif_pos h]
  rw [findAndDeleteLoop_eq, herase, ← findAndDeleteLoop_eq]

theorem findAndDeleteLoop_of_not (hb : b ≠ []) (h : ¬ b.MatchesAt s pc) (n : Nat) :
    findAndDeleteLoop b hb s pc n =
      match getOpAt s pc with
      | none => (s, n)
      | some pc' => findAndDeleteLoop b hb s pc' n := by
  have herase : eraseLoop b hb s pc n = (s, n) := by
    rw [eraseLoop, dif_neg h]
  rw [findAndDeleteLoop_eq, herase]

/-! The bytes before `pc` are those that the loops have kept, and the others those of the script as
it was. -/

theorem drop_kept (kept s : CScript) : (kept ++ s).drop kept.length = s := List.drop_left

theorem matchesAt_kept (kept : CScript) :
    b.MatchesAt (kept ++ s.drop p) kept.length ↔ b.MatchesAt s p := by
  rw [MatchesAt, MatchesAt, drop_kept, List.length_append, List.length_drop,
    Nat.add_sub_cancel_left]

theorem eraseAt_kept (kept : CScript) :
    b.eraseAt (kept ++ s.drop p) kept.length = kept ++ s.drop (p + b.length) := by
  rw [eraseAt, List.take_left, ← List.drop_drop, drop_kept, List.drop_drop]

theorem getOpAt_kept (kept : CScript) (hp : p ≤ s.length) :
    getOpAt (kept ++ s.drop p) kept.length =
      (getOpAt s p).map fun q => (kept ++ (s.drop p).take (q - p)).length := by
  rw [getOpAt, getOpAt, drop_kept, Option.map_map]
  cases hop : getOp (s.drop p) with
  | none => rfl
  | some r =>
    obtain ⟨opcode, vch, rest⟩ := r
    have hlt := length_lt_of_getOp hop
    rw [List.length_drop] at hlt
    simp only [Option.map_some, Function.comp_apply, List.length_append, List.length_take,
      List.length_drop]
    congr 1
    omega

/-- What the loops do from a boundary on. -/
theorem findAndDeleteLoop_spec (hb : b ≠ []) (kept : CScript) (hp : p ≤ s.length) (n : Nat) :
    ∃ positions : List Nat,
      (∀ q, q ∈ positions ↔ b.Reaches s p q ∧ b.MatchesAt s q) ∧
      positions.Pairwise (fun q q' => q + b.length ≤ q') ∧ (∀ q ∈ positions, p ≤ q) ∧
      findAndDeleteLoop b hb (kept ++ s.drop p) kept.length n =
        (kept ++ keptFrom b positions s p, n + positions.length) := by
  induction hk : s.length - p using Nat.strong_induction_on generalizing p kept n with
  | _ k ih =>
    by_cases hmatch : b.MatchesAt s p
    · -- the pattern stands at `p`, and the loops go on behind it
      have hnext : b.next s p = some (p + b.length) := if_pos hmatch
      obtain ⟨hlt, hle⟩ := next_gt hb hnext
      obtain ⟨positions, hmem, hpairwise, hge, hloop⟩ :=
        ih (s.length - (p + b.length)) (by omega) kept hle (n + 1) rfl
      refine ⟨p :: positions, fun q => ?_, List.pairwise_cons.mpr ⟨hge, hpairwise⟩, ?_, ?_⟩
      · rw [List.mem_cons, hmem, reaches_of_next hnext]
        constructor
        · rintro (rfl | ⟨hreach, hq⟩)
          · exact ⟨Or.inl rfl, hmatch⟩
          · exact ⟨Or.inr hreach, hq⟩
        · rintro ⟨rfl | hreach, hq⟩
          · exact Or.inl rfl
          · exact Or.inr ⟨hreach, hq⟩
      · rintro q (_ | ⟨_, hq⟩)
        · exact le_rfl
        · exact hlt.le.trans (hge q hq)
      · rw [findAndDeleteLoop_of_matches hb ((matchesAt_kept kept).mpr hmatch), eraseAt_kept, hloop,
          keptFrom_cons positions hmatch, List.length_cons, Nat.add_right_comm, Nat.add_assoc]
    · have hnot : ¬ b.MatchesAt (kept ++ s.drop p) kept.length :=
        fun h => hmatch ((matchesAt_kept kept).mp h)
      have hnext : b.next s p = getOpAt s p := if_neg hmatch
      have hop := getOpAt_kept kept hp
      cases hget : getOpAt s p with
      | none =>
        -- no opcode is read, and the loops end
        refine ⟨[], fun q => ?_, List.Pairwise.nil, by simp, ?_⟩
        · rw [reaches_of_none (hnext.trans hget)]
          refine iff_of_false List.not_mem_nil ?_
          rintro ⟨rfl, hq⟩
          exact hmatch hq
        · rw [findAndDeleteLoop_of_not hb hnot, hop, hget, keptFrom_nil]
          rfl
      | some p' =>
        obtain ⟨hlt, hle⟩ := getOpAt_gt hget
        have hsplit : kept ++ s.drop p = kept ++ (s.drop p).take (p' - p) ++ s.drop p' := by
          rw [List.append_assoc, show s.drop p' = (s.drop p).drop (p' - p) by
            rw [List.drop_drop]; congr 1; omega, List.take_append_drop]
        obtain ⟨positions, hmem, hpairwise, hge, hloop⟩ :=
          ih (s.length - p') (by omega) (kept ++ (s.drop p).take (p' - p)) hle n rfl
        refine ⟨positions, fun q => ?_, hpairwise, fun q hq => hlt.le.trans (hge q hq), ?_⟩
        · rw [hmem, reaches_of_next (hnext.trans hget)]
          constructor
          · rintro ⟨hreach, hq⟩
            exact ⟨Or.inr hreach, hq⟩
          · rintro ⟨rfl | hreach, hq⟩
            · exact absurd hq hmatch
            · exact ⟨hreach, hq⟩
        · rw [findAndDeleteLoop_of_not hb hnot, hop, hget]
          simp only [Option.map_some]
          rw [hsplit, hloop, keptFrom_skip hlt.le hle hge, List.append_assoc]

/-- A pattern is erased at exactly those boundaries of the script where it stands; these places do
not overlap, the other bytes are kept in their order, and the number of places is returned. -/
theorem findAndDelete_spec (s b : CScript) (hb : b ≠ []) :
    ∃ positions : List Nat,
      (∀ q, q ∈ positions ↔ b.IsBoundary s q ∧ b.MatchesAt s q) ∧
      positions.Pairwise (fun q q' => q + b.length ≤ q') ∧
      s.findAndDeleteFound b = (keptFrom b positions s 0, positions.length) := by
  obtain ⟨positions, hmem, hpairwise, -, hloop⟩ :=
    findAndDeleteLoop_spec hb [] (Nat.zero_le s.length) 0
  refine ⟨positions, hmem, hpairwise, ?_⟩
  rw [findAndDeleteFound, dif_neg hb]
  simpa using hloop

/-- Two signature checks before a push of the same byte, and one after it. -/
theorem findAndDelete_spec_sample :
    ([OP_CHECKSIG] : CScript) ≠ [] ∧ ∃ positions : List Nat,
      (∀ q, q ∈ positions ↔
        CScript.IsBoundary [OP_CHECKSIG] [OP_CHECKSIG, OP_CHECKSIG, 1, OP_CHECKSIG, OP_CHECKSIG] q ∧
          MatchesAt [OP_CHECKSIG] [OP_CHECKSIG, OP_CHECKSIG, 1, OP_CHECKSIG, OP_CHECKSIG] q) ∧
      positions.Pairwise (fun q q' => q + [OP_CHECKSIG].length ≤ q') ∧
      findAndDeleteFound [OP_CHECKSIG, OP_CHECKSIG, 1, OP_CHECKSIG, OP_CHECKSIG] [OP_CHECKSIG] =
        (keptFrom [OP_CHECKSIG] positions [OP_CHECKSIG, OP_CHECKSIG, 1, OP_CHECKSIG, OP_CHECKSIG] 0,
          positions.length) :=
  ⟨by decide, findAndDelete_spec _ _ (by decide)⟩

/-! ## The script code -/

/-- The inner loop of the list form does not depend on its fuel. -/
theorem eraseMatches_of_le (hb : b ≠ []) {pc : CScript} {fuel : Nat} (h : pc.length ≤ fuel) :
    eraseMatches b fuel pc = eraseMatches b pc.length pc := by
  induction fuel using Nat.strong_induction_on generalizing pc with
  | _ fuel ih =>
    have hpos := List.length_pos_iff.mpr hb
    cases fuel with
    | zero => rw [Nat.le_zero.mp h]
    | succ fuel =>
      by_cases hmatch : b.length ≤ pc.length ∧ pc.take b.length = b
      · obtain ⟨k, hk⟩ := Nat.exists_eq_succ_of_ne_zero (show pc.length ≠ 0 by omega)
        have hlen : (pc.drop b.length).length ≤ k := by
          rw [List.length_drop]
          omega
        rw [hk, eraseMatches, eraseMatches, if_pos hmatch, if_pos hmatch,
          ih fuel (Nat.lt_succ_self _) (by omega), ih k (by omega) hlen]
      · have hstop : ∀ n, eraseMatches b n pc = pc := by
          intro n
          cases n with
          | zero => rfl
          | succ n => exact if_neg hmatch
        rw [hstop, hstop]

theorem findAndDeleteFrom_of_matches (hb : b ≠ []) {pc : CScript} (fuel : Nat)
    (h : b.length ≤ pc.length ∧ pc.take b.length = b) :
    findAndDeleteFrom b (fuel + 1) pc = findAndDeleteFrom b (fuel + 1) (pc.drop b.length) := by
  have hpos := List.length_pos_iff.mpr hb
  obtain ⟨k, hk⟩ := Nat.exists_eq_succ_of_ne_zero (show pc.length ≠ 0 by omega)
  have hlen : (pc.drop b.length).length ≤ k := by
    rw [List.length_drop]
    omega
  have herase : eraseMatches b pc.length pc =
      eraseMatches b (pc.drop b.length).length (pc.drop b.length) := by
    rw [hk, eraseMatches, if_pos h, eraseMatches_of_le hb hlen]
  rw [findAndDeleteFrom, findAndDeleteFrom, herase]

/-- The loops leave the script that the list form leaves. -/
theorem findAndDeleteLoop_fst (hb : b ≠ []) (kept pc : CScript) (n : Nat) {fuel : Nat}
    (hfuel : pc.length ≤ fuel) :
    (findAndDeleteLoop b hb (kept ++ pc) kept.length n).1 = kept ++ findAndDeleteFrom b fuel pc := by
  induction hk : pc.length using Nat.strong_induction_on generalizing kept pc n fuel with
  | _ k ih =>
    have hpos := List.length_pos_iff.mpr hb
    have hlen : (kept ++ pc).length - kept.length = pc.length := by
      rw [List.length_append, Nat.add_sub_cancel_left]
    by_cases hmatch : b.length ≤ pc.length ∧ pc.take b.length = b
    · have hmatchAt : b.MatchesAt (kept ++ pc) kept.length := by
        rw [MatchesAt, hlen, drop_kept]
        exact hmatch
      have herase : b.eraseAt (kept ++ pc) kept.length = kept ++ pc.drop b.length := by
        rw [eraseAt, List.take_left, ← List.drop_drop, drop_kept]
      have hdrop : (pc.drop b.length).length < k := by
        rw [List.length_drop]
        omega
      obtain ⟨fuel, rfl⟩ := Nat.exists_eq_succ_of_ne_zero (show fuel ≠ 0 by omega)
      rw [findAndDeleteLoop_of_matches hb hmatchAt, herase, findAndDeleteFrom_of_matches hb fuel hmatch]
      exact ih _ hdrop kept (pc.drop b.length) (n + 1) (by omega) rfl
    · have hnot : ¬ b.MatchesAt (kept ++ pc) kept.length := by
        rw [MatchesAt, hlen, drop_kept]
        exact hmatch
      have hstop : ∀ m, eraseMatches b m pc = pc := by
        intro m
        cases m with
        | zero => rfl
        | succ m => exact if_neg hmatch
      rw [findAndDeleteLoop_of_not hb hnot, getOpAt, drop_kept]
      cases hop : getOp pc with
      | none =>
        cases fuel with
        | zero => rfl
        | succ fuel => simp only [findAndDeleteFrom, hstop, hop, Option.map_none]
      | some r =>
        obtain ⟨opcode, vch, rest⟩ := r
        obtain ⟨used, hused⟩ := getOp_append hop
        have hlt := length_lt_of_getOp hop
        obtain ⟨fuel, rfl⟩ := Nat.exists_eq_succ_of_ne_zero (show fuel ≠ 0 by omega)
        have hend : (kept ++ pc).length - rest.length = (kept ++ opcode :: used).length := by
          rw [hused]
          simp only [List.length_append, List.length_cons]
          omega
        have htake : pc.take (pc.length - rest.length) = opcode :: used := by
          rw [hused, List.length_append, Nat.add_sub_cancel]
          exact List.take_left
        have hrec := ih rest.length (by omega) (kept ++ opcode :: used) rest n
          (show rest.length ≤ fuel by omega) rfl
        simp only [Option.map_some, findAndDeleteFrom, hstop, hop, hend, htake]
        rw [hused, ← List.append_assoc, hrec, List.append_assoc]

theorem findAndDeleteFound_fst (s b : CScript) : (s.findAndDeleteFound b).1 = s.findAndDelete b := by
  by_cases hb : b = []
  · rw [findAndDeleteFound, dif_pos hb, findAndDelete, if_pos hb]
  · rw [findAndDeleteFound, dif_neg hb, findAndDelete, if_neg hb]
    exact findAndDeleteLoop_fst hb [] s 0 le_rfl

end CScript

end Terracoin
