import Terracoin.Wallet.AccountingEntry

/-!
# The accounting entries of a wallet file

The database keeps its records in the order of the bytes of their keys. The key of an accounting
entry has the account and a number, so that the entries of an account are together, and those of the
account "" come first (`listAccountCreditDebit_nil`).
-/

namespace Terracoin

open Std (ExtTreeMap)

/-- The key of an accounting entry, after its type. -/
def acentryKey (strAccount : Text) (nEntryNo : UInt64) : Text :=
  Text.write strAccount ++ littleEndian 8 nEntryNo.toNat

/-- The records of the type "acentry". The account and the number of an entry are in its key. -/
structure AcentryRecords where
  records : ExtTreeMap Text CAccountingEntry
  key_eq : ∀ key e, records[key]? = some e → key = acentryKey e.strAccount e.nEntryNo

namespace AcentryRecords

theorem key_eq_empty (key : Text) (e : CAccountingEntry)
    (h : (∅ : ExtTreeMap Text CAccountingEntry)[key]? = some e) :
    key = acentryKey e.strAccount e.nEntryNo := by
  simp at h

def empty : AcentryRecords := ⟨∅, key_eq_empty⟩

@[simp] theorem records_empty : empty.records = ∅ := rfl

/-- `WriteAccountingEntry`. -/
def write (db : AcentryRecords) (nAccEntryNum : UInt64) (acentry : CAccountingEntry) :
    AcentryRecords where
  records := db.records.insert (acentryKey acentry.strAccount nAccEntryNum)
    { acentry with nEntryNo := nAccEntryNum }
  key_eq key e h := by
    rw [ExtTreeMap.getElem?_insert] at h
    split at h
    · next heq =>
      obtain rfl := Option.some.inj h
      exact (Std.LawfulEqCmp.eq_of_compare heq).symm
    · exact db.key_eq key e h

def allAccounts : Text := [42]

/-- The cursor goes through the records in the order of their keys. -/
def listAccountCreditDebit (db : AcentryRecords) (strAccount : Text) : List CAccountingEntry :=
  let fAllAccounts := strAccount = allAccounts
  let ssKey := acentryKey (if fAllAccounts then [] else strAccount) 0
  let acentries := (db.records.toList.dropWhile fun r => compare r.1 ssKey == .lt).map Prod.snd
  acentries.takeWhile fun acentry => fAllAccounts || acentry.strAccount = strAccount

theorem not_lt_zero (c : UInt8) : compare c 0 ≠ .lt := by
  intro h
  have hlt : c < 0 := compareOfLessAndEq_eq_lt.mp h
  exact absurd (UInt8.lt_iff_toNat_lt.mp hlt) (Nat.not_lt_zero _)

theorem length_lt_of_lt_zeros {m : Nat} {k : Text} (h : compare k (List.replicate m 0) = .lt) :
    k.length < m := by
  induction m generalizing k with
  | zero =>
    cases k with
    | nil => cases h
    | cons c k => cases h
  | succ m ih =>
    cases k with
    | nil => exact Nat.succ_pos m
    | cons c k =>
      rw [List.replicate_succ, List.compare_cons_cons] at h
      cases hc : compare c 0 with
      | lt => exact absurd hc (not_lt_zero c)
      | eq =>
        rw [hc] at h
        exact Nat.succ_lt_succ (ih h)
      | gt =>
        rw [hc] at h
        cases h

theorem le_length_acentryKey (strAccount : Text) (nEntryNo : UInt64) :
    9 ≤ (acentryKey strAccount nEntryNo).length := by
  have hsize : 1 ≤ (writeCompactSize strAccount.length).length := by
    rw [writeCompactSize]
    split_ifs <;> simp
  rw [acentryKey, Text.write, List.length_append, List.length_append, length_littleEndian]
  omega

theorem acentryKey_lt {strAccount : Text} (h : strAccount ≠ []) (nEntryNo nEntryNo' : UInt64) :
    compare (acentryKey [] nEntryNo) (acentryKey strAccount nEntryNo') = .lt := by
  obtain ⟨c, rest, hsize, hc⟩ :
      ∃ c rest, writeCompactSize strAccount.length = c :: rest ∧ 0 < c.toNat := by
    have hpos := List.length_pos_iff.mpr h
    rw [writeCompactSize]
    split_ifs with hlt
    · refine ⟨_, [], rfl, ?_⟩
      rw [UInt8.toNat_ofNat']
      omega
    · exact ⟨_, _, rfl, by decide⟩
    · exact ⟨_, _, rfl, by decide⟩
    · exact ⟨_, _, rfl, by decide⟩
  have hlt : compare (0 : UInt8) c = .lt :=
    compareOfLessAndEq_eq_lt.mpr (UInt8.lt_iff_toNat_lt.mpr hc)
  rw [acentryKey, acentryKey, Text.write, Text.write, hsize]
  change compare (0 :: littleEndian 8 nEntryNo.toNat) (c :: (rest ++ strAccount ++ _)) = .lt
  rw [List.compare_cons_cons, hlt]
  rfl

theorem takeWhile_eq_filter {α : Type} {p : α → Bool} {l : List α}
    (h : l.Pairwise fun a b => p b = true → p a = true) : l.takeWhile p = l.filter p := by
  induction l with
  | nil => rfl
  | cons a l ih =>
    obtain ⟨ha, hl⟩ := List.pairwise_cons.mp h
    cases hp : p a with
    | true => rw [List.takeWhile_cons_of_pos hp, List.filter_cons_of_pos hp, ih hl]
    | false =>
      have hnone : l.filter p = [] := by
        rw [List.filter_eq_nil_iff]
        intro b hb hpb
        exact absurd (ha b hb hpb) (by simp [hp])
      rw [List.takeWhile_cons_of_neg (by simp [hp]), List.filter_cons_of_neg (by simp [hp]), hnone]

theorem key_of_mem (db : AcentryRecords) {r : Text × CAccountingEntry} (hr : r ∈ db.records.toList) :
    r.1 = acentryKey r.2.strAccount r.2.nEntryNo :=
  db.key_eq r.1 r.2 (ExtTreeMap.mem_toList_iff_getElem?_eq_some.mp hr)

/-- No record comes before the first one that the account "" could have. -/
theorem dropWhile_records (db : AcentryRecords) :
    (db.records.toList.dropWhile fun r => compare r.1 (acentryKey [] 0) == .lt) =
      db.records.toList := by
  cases hlist : db.records.toList with
  | nil => rfl
  | cons r l =>
    have hr := db.key_of_mem (hlist ▸ List.mem_cons_self : r ∈ db.records.toList)
    apply List.dropWhile_cons_of_neg
    intro hlt
    have hshort := length_lt_of_lt_zeros (m := 9) (eq_of_beq hlt)
    have hlong := le_length_acentryKey r.2.strAccount r.2.nEntryNo
    rw [← hr] at hlong
    omega

theorem listAccountCreditDebit_nil (db : AcentryRecords) :
    db.listAccountCreditDebit [] =
      (db.records.toList.map Prod.snd).filter fun acentry => acentry.strAccount = [] := by
  have hsorted : (db.records.toList.map Prod.snd).Pairwise fun a b =>
      decide (b.strAccount = []) = true → decide (a.strAccount = []) = true := by
    rw [List.pairwise_map]
    refine (ExtTreeMap.ordered_keys_toList).imp_of_mem ?_
    intro r r' hr hr' hlt hb
    refine decide_eq_true (Classical.byContradiction fun ha => ?_)
    have hgt := acentryKey_lt ha r'.2.nEntryNo r.2.nEntryNo
    rw [← of_decide_eq_true hb, ← db.key_of_mem hr, ← db.key_of_mem hr'] at hgt
    exact Std.OrientedCmp.not_lt_of_lt hlt hgt
  have hall : ([] : Text) ≠ allAccounts := by decide
  rw [← takeWhile_eq_filter hsorted]
  simp only [listAccountCreditDebit, hall, if_false, dropWhile_records, decide_false,
    Bool.false_or]

/-! ## The entries of any account -/

theorem listAccountCreditDebit_all (db : AcentryRecords) :
    db.listAccountCreditDebit allAccounts = db.records.toList.map Prod.snd := by
  simp [listAccountCreditDebit, dropWhile_records]

/-- What stands between two strings with the same beginning has it too. -/
theorem isPrefix_of_between {p k x y : Text} (hlo : compare k (p ++ x) ≠ .lt)
    (hhi : compare k (p ++ y) ≠ .gt) : p <+: k := by
  induction p generalizing k with
  | nil => exact List.nil_prefix
  | cons c p ih =>
    cases k with
    | nil => exact absurd rfl hlo
    | cons d k =>
      rw [List.cons_append, List.compare_cons_cons] at hlo hhi
      cases hd : compare d c with
      | lt =>
        rw [hd] at hlo
        exact absurd rfl hlo
      | gt =>
        rw [hd] at hhi
        exact absurd rfl hhi
      | eq =>
        rw [hd] at hlo hhi
        obtain rfl := Std.LawfulEqCmp.eq_of_compare hd
        exact (List.cons_prefix_cons).mpr ⟨rfl, ih hlo hhi⟩

theorem eq_of_between {strAccount strAccount' : Text} {nEntryNo nEntryNo' : UInt64}
    (hsize : strAccount.length < 2 ^ 64) (hsize' : strAccount'.length < 2 ^ 64)
    (hlo : compare (acentryKey strAccount' nEntryNo') (acentryKey strAccount 0) ≠ .lt)
    (hhi : compare (acentryKey strAccount' nEntryNo') (acentryKey strAccount nEntryNo) ≠ .gt) :
    strAccount' = strAccount := by
  obtain ⟨rest, hrest⟩ := isPrefix_of_between hlo hhi
  simp only [acentryKey, Text.write, List.append_assoc] at hrest
  obtain ⟨hlength, htail⟩ := writeCompactSize_append_inj hsize hsize' hrest
  exact (List.append_inj htail hlength).1.symm

theorem not_lt_first (strAccount : Text) (nEntryNo : UInt64) :
    compare (acentryKey strAccount nEntryNo) (acentryKey strAccount 0) ≠ .lt := by
  have hsuffix : ∀ p : Text, compare (p ++ littleEndian 8 nEntryNo.toNat)
      (p ++ littleEndian 8 (0 : UInt64).toNat) ≠ .lt := by
    intro p
    induction p with
    | nil =>
      intro hlt
      have hshort := length_lt_of_lt_zeros (m := 8) hlt
      rw [List.nil_append, length_littleEndian] at hshort
      exact absurd hshort (Nat.lt_irrefl 8)
    | cons c p ih =>
      have hself : compare c c = .eq := Std.ReflCmp.compare_self
      rw [List.cons_append, List.cons_append, List.compare_cons_cons, hself]
      exact ih
  exact hsuffix (Text.write strAccount)

theorem takeWhile_dropWhile_eq_filter {α : Type} {p q : α → Bool} {l : List α}
    (hpq : ∀ a ∈ l, p a = true → q a = false) (hq : l.Pairwise fun a b => q b = true → q a = true)
    (hp : l.Pairwise fun a b => p b = true → q a = true ∨ p a = true) :
    (l.dropWhile q).takeWhile p = l.filter p := by
  induction l with
  | nil => rfl
  | cons a l ih =>
    obtain ⟨hqa, hql⟩ := List.pairwise_cons.mp hq
    obtain ⟨hpa, hpl⟩ := List.pairwise_cons.mp hp
    cases h : q a with
    | true =>
      have hnot : ¬ p a = true := fun hpa => by
        rw [hpq a List.mem_cons_self hpa] at h
        cases h
      rw [List.dropWhile_cons_of_pos h, List.filter_cons_of_neg hnot]
      exact ih (fun b hb => hpq b (List.mem_cons_of_mem _ hb)) hql hpl
    | false =>
      rw [List.dropWhile_cons_of_neg (by simp [h])]
      apply takeWhile_eq_filter
      apply List.pairwise_cons.mpr
      constructor
      · intro b hb hpb
        exact (hpa b hb hpb).resolve_left (by simp [h])
      · refine (hpl.and hql).imp_of_mem ?_
        intro b c hb hc hbc hpc
        have hqb : q b = false := by
          by_contra hne
          have hqa := hqa b hb (by simpa using hne)
          rw [h] at hqa
          cases hqa
        exact (hbc.1 hpc).resolve_left (by simp [hqb])

/-- The entries of an account. -/
theorem listAccountCreditDebit_eq (db : AcentryRecords) {strAccount : Text}
    (hsizes : ∀ (key : Text) e, db.records[key]? = some e → e.strAccount.length < 2 ^ 64)
    (hne : strAccount ≠ allAccounts) (hsize : strAccount.length < 2 ^ 64) :
    db.listAccountCreditDebit strAccount =
      (db.records.toList.map Prod.snd).filter fun acentry => acentry.strAccount = strAccount := by
  have hsizes' : ∀ r ∈ db.records.toList, r.2.strAccount.length < 2 ^ 64 := fun r hr =>
    hsizes r.1 r.2 (ExtTreeMap.mem_toList_iff_getElem?_eq_some.mp hr)
  have hcut : (db.records.toList.dropWhile fun r =>
      compare r.1 (acentryKey strAccount 0) == .lt).takeWhile
        (fun r => decide (r.2.strAccount = strAccount)) =
      db.records.toList.filter fun r => decide (r.2.strAccount = strAccount) := by
    apply takeWhile_dropWhile_eq_filter
    · intro r hr haccount
      have hkey := db.key_of_mem hr
      rw [of_decide_eq_true haccount] at hkey
      rw [hkey]
      exact beq_eq_false_iff_ne.mpr (not_lt_first strAccount r.2.nEntryNo)
    · refine (ExtTreeMap.ordered_keys_toList).imp_of_mem ?_
      intro r r' hr hr' hlt hlt'
      exact beq_iff_eq.mpr (Std.TransCmp.lt_trans hlt (beq_iff_eq.mp hlt'))
    · refine (ExtTreeMap.ordered_keys_toList).imp_of_mem ?_
      intro r r' hr hr' hlt haccount
      by_cases hbefore : compare r.1 (acentryKey strAccount 0) = .lt
      · exact Or.inl (beq_iff_eq.mpr hbefore)
      · right
        have hkey' := db.key_of_mem hr'
        rw [of_decide_eq_true haccount] at hkey'
        rw [hkey', db.key_of_mem hr] at hlt
        rw [db.key_of_mem hr] at hbefore
        apply decide_eq_true
        apply eq_of_between hsize (hsizes' r hr) hbefore
        rw [hlt]
        exact nofun
  rw [listAccountCreditDebit]
  simp only [hne, if_false, decide_false, Bool.false_or]
  rw [List.takeWhile_map, List.filter_map]
  exact congrArg (List.map Prod.snd) hcut

end AcentryRecords

end Terracoin
