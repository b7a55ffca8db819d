import Mathlib.Algebra.BigOperators.Group.List.Basic
import Mathlib.Algebra.Group.Basic
import Mathlib.Tactic.Abel

/-!
# Postings

Balances are kept by account, and a posting adds an amount to one. The balance of an account is the
sum of what was posted to it (`getD_postAll`), and the sum of the balances of some accounts is the sum
of what was posted to them (`total_postAll`).
-/

namespace Postings

open Std (TreeMap)

variable {A V : Type} {cmp : A → A → Ordering} [AddCommGroup V]

/-- Add an amount to the balance of an account. -/
def post (balances : TreeMap A V cmp) (a : A) (v : V) : TreeMap A V cmp :=
  balances.insert a (balances.getD a 0 + v)

def postAll (balances : TreeMap A V cmp) (l : List (A × V)) : TreeMap A V cmp :=
  l.foldl (fun balances p => post balances p.1 p.2) balances

theorem postAll_cons (balances : TreeMap A V cmp) (a : A) (v : V) (l : List (A × V)) :
    postAll balances ((a, v) :: l) = postAll (post balances a v) l := rfl

theorem postAll_append (balances : TreeMap A V cmp) (l l' : List (A × V)) :
    postAll balances (l ++ l') = postAll (postAll balances l) l' := List.foldl_append ..

theorem foldl_post {α : Type} (f : α → A) (v : α → V) (balances : TreeMap A V cmp) (l : List α) :
    l.foldl (fun balances x => post balances (f x) (v x)) balances =
      postAll balances (l.map fun x => (f x, v x)) := by
  rw [postAll, List.foldl_map]

theorem foldl_add {α : Type} (f : α → V) (v : V) (l : List α) :
    l.foldl (fun v x => v + f x) v = v + (l.map f).sum := by
  induction l generalizing v with
  | nil => exact (add_zero v).symm
  | cons x l ih => rw [List.foldl_cons, ih, List.map_cons, List.sum_cons, add_assoc]

theorem sum_filter_add {α : Type} (c : α → Bool) (f : α → V) (l : List α) :
    (l.map fun x => if c x then f x else 0).sum + ((l.filter fun x => !c x).map f).sum =
      (l.map f).sum := by
  induction l with
  | nil => exact add_zero 0
  | cons x l ih =>
    rw [List.map_cons, List.sum_cons, List.map_cons, List.sum_cons, ← ih]
    cases hc : c x with
    | true =>
      simp only [hc, if_true, List.filter_cons, Bool.not_true, Bool.false_eq_true, if_false]
      abel
    | false =>
      simp only [hc, Bool.false_eq_true, if_false, List.filter_cons, Bool.not_false, if_true,
        List.map_cons, List.sum_cons]
      abel

/-- What is posted to the accounts of a kind. -/
def posted (p : A → Bool) (l : List (A × V)) : V := ((l.filter fun e => p e.1).map Prod.snd).sum

/-- The sum of the balances of the accounts of a kind. -/
def total (p : A → Bool) (balances : TreeMap A V cmp) : V := posted p balances.toList

variable {p q : A → Bool} {l l' : List (A × V)} {a b : A} {v : V}

@[simp] theorem posted_nil : posted p ([] : List (A × V)) = 0 := rfl

theorem posted_cons (p : A → Bool) (a : A) (v : V) (l : List (A × V)) :
    posted p ((a, v) :: l) = (if p a then v else 0) + posted p l := by
  by_cases h : p a = true <;> simp [posted, h]

@[simp] theorem posted_append : posted p (l ++ l') = posted p l + posted p l' := by
  simp [posted]

theorem posted_flatMap {α : Type} (f : α → List (A × V)) (s : List α) :
    posted p (s.flatMap f) = (s.map fun x => posted p (f x)).sum := by
  induction s with
  | nil => rfl
  | cons x s ih => rw [List.flatMap_cons, posted_append, ih, List.map_cons, List.sum_cons]

theorem posted_perm (h : l.Perm l') : posted p l = posted p l' :=
  List.Perm.sum_eq ((h.filter fun e : A × V => p e.1).map Prod.snd)

theorem posted_map_const (p : A → Bool) (a : A) {α : Type} (f : α → V) (s : List α) :
    posted p (s.map fun x => (a, f x)) = if p a then (s.map f).sum else 0 := by
  induction s with
  | nil => simp [posted]
  | cons x s ih =>
    rw [List.map_cons, posted_cons, ih, List.map_cons, List.sum_cons]
    split
    · rfl
    · rw [add_zero]

theorem posted_filter_ne [DecidableEq A] (p : A → Bool) (a : A) (l : List (A × V)) :
    posted p (l.filter fun e => e.1 ≠ a) + (if p a then posted (· = a) l else 0) = posted p l := by
  induction l with
  | nil => simp
  | cons e l ih =>
    obtain ⟨b, v⟩ := e
    by_cases hb : b = a
    · subst hb
      rw [List.filter_cons_of_neg (by simp), posted_cons, posted_cons, ← ih]
      by_cases hp : p b = true
      · simp only [hp, if_true, decide_true]
        abel
      · simp [hp]
    · rw [List.filter_cons_of_pos (by simpa using hb), posted_cons, posted_cons, posted_cons, ← ih]
      simp only [hb, decide_false, Bool.false_eq_true, if_false, zero_add]
      abel

theorem posted_of_mem [DecidableEq A] (hdistinct : l.Pairwise fun e e' => e.1 ≠ e'.1)
    (h : (a, v) ∈ l) : posted (· = a) l = v := by
  induction l with
  | nil => exact absurd h List.not_mem_nil
  | cons e l ih =>
    obtain ⟨hne, hl⟩ := List.pairwise_cons.mp hdistinct
    obtain ⟨b, u⟩ := e
    rw [posted_cons]
    rcases List.mem_cons.mp h with heq | h
    · obtain ⟨rfl, rfl⟩ := Prod.mk.inj heq
      have hnone : l.filter (fun e => decide (e.1 = a)) = [] := by
        apply List.filter_eq_nil_iff.mpr
        intro e he
        simpa using (hne e he).symm
      simp [posted, hnone]
    · have hb : b ≠ a := hne (a, v) h
      simp [hb, ih hl h]

variable [Std.TransCmp cmp] [Std.LawfulEqCmp cmp] {balances : TreeMap A V cmp}

theorem getD_post [DecidableEq A] : (post balances a v).getD b 0 =
    balances.getD b 0 + if a = b then v else 0 := by
  rw [post, TreeMap.getD_insert]
  by_cases h : a = b
  · subst h
    simp
  · simp [h]

theorem getD_postAll [DecidableEq A] (balances : TreeMap A V cmp) (l : List (A × V)) (a : A) :
    (postAll balances l).getD a 0 = balances.getD a 0 + posted (· = a) l := by
  induction l generalizing balances with
  | nil => simp [postAll]
  | cons e l ih =>
    obtain ⟨b, v⟩ := e
    rw [postAll_cons, ih, getD_post, posted_cons, add_assoc]
    simp only [decide_eq_true_eq]

/-- The balance of an account as what the list of all balances has for it. -/
theorem posted_toList [DecidableEq A] (balances : TreeMap A V cmp) (a : A) :
    posted (· = a) balances.toList = balances.getD a 0 := by
  rw [TreeMap.getD_eq_getD_getElem?]
  cases hget : balances[a]? with
  | none =>
    have hnone : balances.toList.filter (fun e => decide (e.1 = a)) = [] := by
      apply List.filter_eq_nil_iff.mpr
      rintro ⟨b, v⟩ he hb
      obtain rfl : b = a := by simpa using hb
      rw [TreeMap.mem_toList_iff_getElem?_eq_some.mp he] at hget
      cases hget
    simp [posted, hnone]
  | some v =>
    apply posted_of_mem
    · exact TreeMap.distinct_keys_toList.imp fun hne heq =>
        hne (Std.LawfulEqCmp.compare_eq_iff_eq.mpr heq)
    · exact TreeMap.mem_toList_iff_getElem?_eq_some.mpr hget

theorem total_post [DecidableEq A] (balances : TreeMap A V cmp) (a : A) (v : V) :
    total p (post balances a v) = total p balances + if p a then v else 0 := by
  have hperm : (post balances a v).toList.Perm
      ((a, balances.getD a 0 + v) :: balances.toList.filter fun e => e.1 ≠ a) := by
    rw [post]
    apply TreeMap.toList_insert_perm.trans
    apply List.Perm.of_eq
    congr 1
    apply List.filter_congr
    intro e _
    by_cases h : a = e.1
    · simp [h]
    · simp [h, Ne.symm h]
  rw [total, posted_perm hperm, posted_cons, total, ← posted_filter_ne p a balances.toList,
    posted_toList]
  split
  · abel
  · abel

theorem total_postAll [DecidableEq A] (balances : TreeMap A V cmp) (l : List (A × V)) :
    total p (postAll balances l) = total p balances + posted p l := by
  induction l generalizing balances with
  | nil => simp [postAll]
  | cons e l ih =>
    obtain ⟨a, v⟩ := e
    rw [postAll_cons, ih, total_post, posted_cons, add_assoc]

end Postings
