import Mathlib.Algebra.Order.Ring.Int
import Mathlib.Data.List.Basic
import Mathlib.Data.List.Nodup
import Mathlib.Data.Nat.Cast.Order.Basic
import Mathlib.Data.Nat.Init
import Terracoin.Lib.Holders

/-!
# Locked pages

`LockedPageManagerBase` keeps the pages of keys out of swap. The locks of the operating system do
not stack, so it counts for each page the objects that have a byte on it, and locks the page for the
first of them and unlocks it after the last (`lockedPages_spec`).
-/

namespace Terracoin

/-! ## The manager -/

/-- A call of the policy class that locks and unlocks memory pages. -/
inductive LockerCall where
  | lock (addr len : BitVec 64)
  | unlock (addr len : BitVec 64)
deriving DecidableEq

/-- `histogram` is a map of page base address to lock count. -/
structure LockedPageManagerBase where
  pageSize : BitVec 64
  pageMask : BitVec 64
  histogram : BitVec 64 → Option Int
  locker : List LockerCall

variable {S : Type}

/-- `for(size_t page = ..; page <= end_page; page += page_size)`. A loop over more than `2 ^ 64`
pages goes round the address space for ever. -/
def forPages (pageSize endPage : BitVec 64) (body : S → BitVec 64 → Option S) :
    Nat → BitVec 64 → S → Option S
  | 0, _, _ => none
  | fuel + 1, page, s =>
    if page ≤ endPage then
      (body s page).bind fun s => forPages pageSize endPage body fuel (page + pageSize) s
    else some s

namespace LockedPageManagerBase

variable (m : LockedPageManagerBase)

/-- The constructor; it asserts that the size is a power of two. -/
def new (pageSize : BitVec 64) : Option LockedPageManagerBase :=
  if pageSize &&& (pageSize - 1) = 0 then
    some { pageSize, pageMask := ~~~(pageSize - 1), histogram := fun _ => none, locker := [] }
  else none

/-- The body of the loop of `LockRange`. The count is an `int`. -/
def lockPage (page : BitVec 64) : Option LockedPageManagerBase :=
  match m.histogram page with
  -- Newly locked page
  | none => some { m with
      histogram := Function.update m.histogram page (some 1)
      locker := m.locker ++ [.lock page m.pageSize] }
  -- Page was already locked; increase counter
  | some count =>
    if count + 1 < 2 ^ 31 then
      some { m with histogram := Function.update m.histogram page (some (count + 1)) }
    else none

/-- The body of the loop of `UnlockRange`; it asserts that the page was locked. -/
def unlockPage (page : BitVec 64) : Option LockedPageManagerBase :=
  match m.histogram page with
  | none => none
  | some count =>
    if count - 1 = 0 then
      some { m with
        histogram := Function.update m.histogram page none
        locker := m.locker ++ [.unlock page m.pageSize] }
    else some { m with histogram := Function.update m.histogram page (some (count - 1)) }

def lockRange (p size : BitVec 64) : Option LockedPageManagerBase :=
  if size = 0 then some m
  else
    forPages m.pageSize ((p + size - 1) &&& m.pageMask) lockPage (2 ^ 64) (p &&& m.pageMask) m

def unlockRange (p size : BitVec 64) : Option LockedPageManagerBase :=
  if size = 0 then some m
  else
    forPages m.pageSize ((p + size - 1) &&& m.pageMask) unlockPage (2 ^ 64) (p &&& m.pageMask) m

end LockedPageManagerBase

/-- Whether a page is locked after calls, and `none` if one of them found it as it leaves it. -/
def pageLocked (calls : List LockerCall) (page : BitVec 64) : Option Bool :=
  calls.foldl (fun locked c => locked.bind fun locked =>
    match c with
    | .lock addr _ => if addr = page then (if locked then none else some true) else some locked
    | .unlock addr _ => if addr = page then (if locked then some false else none) else some locked)
    (some false)

/-- Memory in use, whose end is not on the last page of the address space. -/
structure LockedObject (pageSize : BitVec 64) where
  p : BitVec 64
  size : BitVec 64
  fits : p.toNat + size.toNat + pageSize.toNat ≤ 2 ^ 64
deriving DecidableEq

variable {pageSize : BitVec 64} {k : Nat}

theorem toNat_eq_two_pow (hassert : pageSize &&& (pageSize - 1) = 0) (hpos : pageSize ≠ 0) :
    ∃ k, pageSize.toNat = 2 ^ k := by
  have hne : pageSize.toNat ≠ 0 := fun h => hpos (BitVec.eq_of_toNat_eq h)
  have hone : (1 : BitVec 64).toNat = 1 := rfl
  have hsub : (pageSize - 1).toNat = pageSize.toNat - 1 := by
    rw [BitVec.toNat_sub_of_le, hone]
    rw [BitVec.le_def, hone]
    exact Nat.one_le_iff_ne_zero.mpr hne
  apply (Nat.and_sub_one_eq_zero_iff_isPowerOfTwo hne).mp
  rw [← hsub, ← BitVec.toNat_and, hassert]
  rfl

theorem toNat_sub_one (hpage : pageSize.toNat = 2 ^ k) : (pageSize - 1).toNat = 2 ^ k - 1 := by
  have hpos := Nat.two_pow_pos k
  have hone : (1 : BitVec 64).toNat = 1 := rfl
  rw [BitVec.toNat_sub_of_le, hpage, hone]
  rw [BitVec.le_def, hpage, hone]
  exact hpos

theorem toNat_and_mask (hpage : pageSize.toNat = 2 ^ k) (a : BitVec 64) :
    (a &&& ~~~(pageSize - 1)).toNat = a.toNat / pageSize.toNat * pageSize.toNat := by
  apply Nat.eq_of_testBit_eq
  intro i
  have hmask : (~~~(pageSize - 1)).toNat.testBit i = (decide (i < 64) && decide (k ≤ i)) := by
    have hlow : (pageSize - 1).getLsbD i = decide (i < k) := by
      rw [BitVec.getLsbD, toNat_sub_one hpage, Nat.testBit_two_pow_sub_one]
    rw [← BitVec.getLsbD, BitVec.getLsbD_not, hlow]
    by_cases hi : i < k
    · simp [hi, Nat.not_le.mpr hi]
    · simp [hi, Nat.le_of_not_lt hi]
  rw [BitVec.toNat_and, Nat.testBit_and, hmask, hpage, Nat.testBit_mul_two_pow]
  by_cases hi : k ≤ i
  · rw [Nat.testBit_div_two_pow, Nat.sub_add_cancel hi]
    by_cases h64 : i < 64
    · simp [hi, h64]
    · have hfalse : a.toNat.testBit i = false := a.getLsbD_of_ge i (Nat.le_of_not_lt h64)
      simp [hfalse]
  · simp [hi]

/-! ## The pages of a range -/

def pagesFrom (pageSize : BitVec 64) : Nat → BitVec 64 → List (BitVec 64)
  | 0, _ => []
  | n + 1, page => page :: pagesFrom pageSize n (page + pageSize)

theorem toNat_add_pageSize {page : BitVec 64} {n : Nat}
    (hfits : page.toNat + (n + 1) * pageSize.toNat < 2 ^ 64) :
    (page + pageSize).toNat = page.toNat + pageSize.toNat := by
  rw [BitVec.toNat_add, Nat.mod_eq_of_lt]
  rw [Nat.succ_mul] at hfits
  omega

theorem mem_pagesFrom {page p : BitVec 64} {n : Nat}
    (hfits : page.toNat + n * pageSize.toNat < 2 ^ 64) :
    p ∈ pagesFrom pageSize n page ↔ ∃ j < n, p.toNat = page.toNat + j * pageSize.toNat := by
  induction n generalizing page with
  | zero => simp [pagesFrom]
  | succ n ih =>
    have hadd := toNat_add_pageSize hfits
    rw [pagesFrom, List.mem_cons, ih (by rw [hadd]; rw [Nat.succ_mul] at hfits; omega), hadd]
    constructor
    · rintro (rfl | ⟨j, hj, hp⟩)
      · exact ⟨0, Nat.succ_pos n, by simp⟩
      · exact ⟨j + 1, Nat.succ_lt_succ hj, by rw [hp, Nat.succ_mul]; omega⟩
    · rintro ⟨j, hj, hp⟩
      cases j with
      | zero => exact .inl (BitVec.eq_of_toNat_eq (by simpa using hp))
      | succ j =>
        refine .inr ⟨j, Nat.lt_of_succ_lt_succ hj, ?_⟩
        rw [hp, Nat.succ_mul]
        omega

theorem pagesFrom_nodup {page : BitVec 64} {n : Nat} (hpos : 0 < pageSize.toNat)
    (hfits : page.toNat + n * pageSize.toNat < 2 ^ 64) : (pagesFrom pageSize n page).Nodup := by
  induction n generalizing page with
  | zero => exact List.nodup_nil
  | succ n ih =>
    have hadd := toNat_add_pageSize hfits
    have hfits' : (page + pageSize).toNat + n * pageSize.toNat < 2 ^ 64 := by
      rw [hadd]
      rw [Nat.succ_mul] at hfits
      omega
    refine List.nodup_cons.mpr ⟨fun hmem => ?_, ih hfits'⟩
    obtain ⟨j, -, hj⟩ := (mem_pagesFrom hfits').mp hmem
    omega

/-- The loop is a fold over its pages. -/
theorem forPages_eq {body : S → BitVec 64 → Option S} {endPage page : BitVec 64} {n fuel : Nat}
    (hpos : 0 < pageSize.toNat) (hn : endPage.toNat + pageSize.toNat = page.toNat +
      n * pageSize.toNat) (hfits : page.toNat + n * pageSize.toNat < 2 ^ 64) (hfuel : n < fuel)
    (s : S) :
    forPages pageSize endPage body fuel page s = (pagesFrom pageSize n page).foldlM body s := by
  induction n generalizing fuel page s with
  | zero =>
    obtain ⟨fuel, rfl⟩ : ∃ f, fuel = f + 1 := ⟨fuel - 1, by omega⟩
    have hnot : ¬page ≤ endPage := by
      rw [BitVec.le_def]
      omega
    rw [forPages, if_neg hnot]
    rfl
  | succ n ih =>
    obtain ⟨fuel, rfl⟩ : ∃ f, fuel = f + 1 := ⟨fuel - 1, by omega⟩
    have hadd := toNat_add_pageSize hfits
    rw [Nat.succ_mul] at hn hfits
    have hle : page ≤ endPage := by
      rw [BitVec.le_def]
      omega
    rw [forPages, if_pos hle, pagesFrom, List.foldlM_cons]
    apply Option.bind_congr
    intro s1 _
    exact ih (by omega) (by omega) (by omega) s1

namespace LockedObject

variable (r : LockedObject pageSize)

def pages : List (BitVec 64) :=
  if r.size = 0 then []
  else
    pagesFrom pageSize ((r.p + r.size - 1).toNat / pageSize.toNat - r.p.toNat / pageSize.toNat + 1)
      (r.p &&& ~~~(pageSize - 1))

theorem toNat_last (hsize : r.size ≠ 0) :
    (r.p + r.size - 1).toNat = r.p.toNat + r.size.toNat - 1 ∧ 0 < r.size.toNat := by
  have hne : r.size.toNat ≠ 0 := fun h => hsize (BitVec.eq_of_toNat_eq h)
  have hfits := r.fits
  have hp := r.p.isLt
  have hs := r.size.isLt
  have hone : (1 : BitVec 64).toNat = 1 := rfl
  by_cases hlt : r.p.toNat + r.size.toNat < 2 ^ 64
  · have hadd : (r.p + r.size).toNat = r.p.toNat + r.size.toNat := by
      rw [BitVec.toNat_add, Nat.mod_eq_of_lt hlt]
    rw [BitVec.toNat_sub_of_le, hadd, hone]
    · omega
    · rw [BitVec.le_def, hadd, hone]
      omega
  · rw [BitVec.toNat_sub, BitVec.toNat_add, hone]
    omega

/-- Where the pages of the object start and end. -/
theorem bounds (hpage : pageSize.toNat = 2 ^ k) (hsize : r.size ≠ 0) :
    let first := r.p.toNat / pageSize.toNat
    let last := (r.p + r.size - 1).toNat / pageSize.toNat
    first ≤ last ∧ (last + 1) * pageSize.toNat < 2 ^ 64 := by
  obtain ⟨hlast, hpos⟩ := r.toNat_last hsize
  have hps : 0 < pageSize.toNat := hpage ▸ Nat.two_pow_pos k
  refine ⟨Nat.div_le_div_right (by omega), ?_⟩
  have hk : k ≤ 64 := by
    have hlt := pageSize.isLt
    rw [hpage] at hlt
    exact ((Nat.pow_lt_pow_iff_right (by decide)).mp hlt).le
  -- both sides are a number of pages
  have hdvd : 2 ^ 64 = 2 ^ (64 - k) * pageSize.toNat := by
    rw [hpage, ← Nat.pow_add, Nat.sub_add_cancel hk]
  have hlt : (r.p + r.size - 1).toNat / pageSize.toNat + 1 < 2 ^ (64 - k) := by
    have hfits := r.fits
    rw [← Nat.add_div_right _ hps, Nat.div_lt_iff_lt_mul hps, ← hdvd, hlast]
    omega
  calc ((r.p + r.size - 1).toNat / pageSize.toNat + 1) * pageSize.toNat
      < 2 ^ (64 - k) * pageSize.toNat := Nat.mul_lt_mul_of_pos_right hlt hps
    _ = 2 ^ 64 := hdvd.symm

theorem pages_fit (hpage : pageSize.toNat = 2 ^ k) (hsize : r.size ≠ 0) :
    (r.p &&& ~~~(pageSize - 1)).toNat + ((r.p + r.size - 1).toNat / pageSize.toNat -
      r.p.toNat / pageSize.toNat + 1) * pageSize.toNat =
        ((r.p + r.size - 1).toNat / pageSize.toNat + 1) * pageSize.toNat := by
  obtain ⟨hle, -⟩ := r.bounds hpage hsize
  rw [toNat_and_mask hpage, ← Nat.add_mul]
  congr 1
  omega

theorem pages_nodup (hpage : pageSize.toNat = 2 ^ k) : r.pages.Nodup := by
  rw [pages]
  split
  · exact List.nodup_nil
  · next hsize =>
    apply pagesFrom_nodup (hpage ▸ Nat.two_pow_pos k)
    rw [r.pages_fit hpage hsize]
    exact (r.bounds hpage hsize).2

/-- The loops of `LockRange` and `UnlockRange` go over the pages of the object. -/
theorem forPages_pages (hpage : pageSize.toNat = 2 ^ k) (hsize : r.size ≠ 0)
    (body : S → BitVec 64 → Option S) (s : S) :
    forPages pageSize ((r.p + r.size - 1) &&& ~~~(pageSize - 1)) body (2 ^ 64)
      (r.p &&& ~~~(pageSize - 1)) s = r.pages.foldlM body s := by
  have hps : 0 < pageSize.toNat := hpage ▸ Nat.two_pow_pos k
  obtain ⟨-, hlt⟩ := r.bounds hpage hsize
  rw [pages, if_neg hsize]
  apply forPages_eq hps
  · rw [r.pages_fit hpage hsize, toNat_and_mask hpage, Nat.succ_mul]
  · rw [r.pages_fit hpage hsize]
    exact hlt
  · have hle := Nat.le_mul_of_pos_right ((r.p + r.size - 1).toNat / pageSize.toNat + 1) hps
    exact (Nat.succ_le_succ (Nat.sub_le _ _)).trans_lt (hle.trans_lt hlt)

/-- The pages are those with a byte of the object. -/
theorem mem_pages_iff (hpage : pageSize.toNat = 2 ^ k) (page : BitVec 64) :
    page ∈ r.pages ↔ ∃ a : BitVec 64, r.p.toNat ≤ a.toNat ∧
      a.toNat < r.p.toNat + r.size.toNat ∧ a &&& ~~~(pageSize - 1) = page := by
  have hps : 0 < pageSize.toNat := hpage ▸ Nat.two_pow_pos k
  by_cases hsize : r.size = 0
  · rw [pages, if_pos hsize, hsize]
    constructor
    · intro hmem
      cases hmem
    · rintro ⟨a, hle, hlt, -⟩
      exact absurd hlt (Nat.not_lt.mpr hle)
  obtain ⟨hle, hlt⟩ := r.bounds hpage hsize
  obtain ⟨hlast, hpos⟩ := r.toNat_last hsize
  rw [pages, if_neg hsize, mem_pagesFrom (by rw [r.pages_fit hpage hsize]; exact hlt),
    toNat_and_mask hpage]
  constructor
  · rintro ⟨j, hj, hpj⟩
    -- the first byte of the object on the page
    rw [← Nat.add_mul] at hpj
    have hstart : page.toNat / pageSize.toNat = r.p.toNat / pageSize.toNat + j := by
      rw [hpj, Nat.mul_div_cancel _ hps]
    rcases Nat.le_total r.p.toNat page.toNat with hpa | hap
    · refine ⟨page, hpa, ?_, BitVec.eq_of_toNat_eq ?_⟩
      · have hdiv : page.toNat ≤ (r.p + r.size - 1).toNat := by
          rw [hpj, ← Nat.le_div_iff_mul_le hps]
          omega
        omega
      · rw [toNat_and_mask hpage, hstart, hpj]
    · refine ⟨r.p, le_rfl, by omega, BitVec.eq_of_toNat_eq ?_⟩
      have hdiv := Nat.div_le_div_right (c := pageSize.toNat) hap
      rw [toNat_and_mask hpage, hpj]
      congr 1
      omega
  · rintro ⟨a, hpa, ha, rfl⟩
    have h1 := Nat.div_le_div_right (c := pageSize.toNat) hpa
    have h2 : a.toNat / pageSize.toNat ≤ (r.p + r.size - 1).toNat / pageSize.toNat :=
      Nat.div_le_div_right (by omega)
    refine ⟨a.toNat / pageSize.toNat - r.p.toNat / pageSize.toNat, by omega, ?_⟩
    rw [toNat_and_mask hpage, ← Nat.add_mul]
    congr 1
    omega

end LockedObject

/-! ## Runs -/

@[simp] theorem pageLocked_concat (calls : List LockerCall) (c : LockerCall) (page : BitVec 64) :
    pageLocked (calls ++ [c]) page = (pageLocked calls page).bind fun locked =>
      match c with
      | .lock addr _ => if addr = page then (if locked then none else some true) else some locked
      | .unlock addr _ =>
        if addr = page then (if locked then some false else none) else some locked := by
  rw [pageLocked, List.foldl_append]
  rfl

namespace LockedPageManagerBase

/-- What the manager and the operating system know of a page. -/
def pageView (m : LockedPageManagerBase) (page : BitVec 64) :
    (BitVec 64 × BitVec 64) × Option Int × Option Bool :=
  ((m.pageSize, m.pageMask), m.histogram page, pageLocked m.locker page)

/-- The view of a page with bytes of `n` objects. -/
def pageLevel (pageSize : BitVec 64) (n : Nat) :
    (BitVec 64 × BitVec 64) × Option Int × Option Bool :=
  ((pageSize, ~~~(pageSize - 1)), if n = 0 then none else some (n : Int), some (decide (0 < n)))

theorem pageView_update {m : LockedPageManagerBase} {page : BitVec 64} {count : Option Int}
    {locker : List LockerCall}
    (hother : ∀ other, other ≠ page → pageLocked locker other = pageLocked m.locker other) :
    pageView { m with histogram := Function.update m.histogram page count, locker := locker } =
      Function.update (pageView m) page
        ((m.pageSize, m.pageMask), count, pageLocked locker page) := by
  funext other
  by_cases he : other = page
  · subst he
    simp [pageView]
  · simp [pageView, he, hother other he]

/-- One more object on a page, and one less. -/
theorem ladder (pageSize : BitVec 64) :
    Holders.Ladder pageView (pageLevel pageSize) (2 ^ 31 - 1) lockPage unlockPage where
  acquire m page n hn hm := by
    obtain ⟨hsizes, hcount, hlocked⟩ : (m.pageSize, m.pageMask) = (pageSize, ~~~(pageSize - 1)) ∧
        m.histogram page = (if n = 0 then none else some (n : Int)) ∧
        pageLocked m.locker page = some (decide (0 < n)) := by
      simpa [pageView, pageLevel] using hm
    cases n with
    | zero =>
      refine ⟨_, by rw [lockPage, hcount]; rfl, ?_⟩
      rw [pageView_update fun other hne => by simp [Ne.symm hne]]
      simp [hlocked, hsizes, pageLevel]
    | succ n =>
      have hlt : ((n + 1 : Nat) : Int) + 1 < 2 ^ 31 := by omega
      refine ⟨_, by rw [lockPage, hcount]; exact if_pos hlt, ?_⟩
      rw [pageView_update fun _ _ => rfl]
      simp [hlocked, hsizes, pageLevel]
  release m page n hm := by
    obtain ⟨hsizes, hcount, hlocked⟩ : (m.pageSize, m.pageMask) = (pageSize, ~~~(pageSize - 1)) ∧
        m.histogram page = some ((n + 1 : Nat) : Int) ∧
        pageLocked m.locker page = some true := by
      simpa [pageView, pageLevel] using hm
    cases n with
    | zero =>
      refine ⟨_, by rw [unlockPage, hcount]; rfl, ?_⟩
      rw [pageView_update fun other hne => by simp [Ne.symm hne]]
      simp [hlocked, hsizes, pageLevel]
    | succ n =>
      have hne : ¬((n + 1 + 1 : Nat) : Int) - 1 = 0 := by omega
      refine ⟨_, by rw [unlockPage, hcount]; exact if_neg hne, ?_⟩
      rw [pageView_update fun _ _ => rfl]
      simp [hlocked, hsizes, pageLevel]

/-- An allocation locks its range, and the deallocation unlocks it. -/
def apply (m : LockedPageManagerBase) : Holders.Call (LockedObject pageSize) →
    Option LockedPageManagerBase
  | .hold r => m.lockRange r.p r.size
  | .drop r => m.unlockRange r.p r.size

theorem apply_eq {m : LockedPageManagerBase} (hpage : pageSize.toNat = 2 ^ k)
    (hsize : m.pageSize = pageSize) (hmask : m.pageMask = ~~~(pageSize - 1))
    (c : Holders.Call (LockedObject pageSize)) :
    m.apply c = Holders.step LockedObject.pages lockPage unlockPage m c := by
  cases c with
  | hold r =>
    rw [apply, Holders.step, lockRange, hsize, hmask]
    split
    · next hz => rw [LockedObject.pages, if_pos hz]; rfl
    · next hz => exact r.forPages_pages hpage hz lockPage m
  | drop r =>
    rw [apply, Holders.step, unlockRange, hsize, hmask]
    split
    · next hz => rw [LockedObject.pages, if_pos hz]; rfl
    · next hz => exact r.forPages_pages hpage hz unlockPage m

end LockedPageManagerBase

open LockedPageManagerBase in
/-- As long as only locked objects are unlocked, and fewer than `2 ^ 31` of them have a byte on one
page, no assertion fails. The manager then counts the objects on each page, and locks and unlocks a
page in turn, so that it is locked exactly while there is a byte of an object on it. -/
theorem lockedPages_spec {m₀ : LockedPageManagerBase} (hnew : new pageSize = some m₀)
    (hpos : pageSize ≠ 0) {calls : List (Holders.Call (LockedObject pageSize))}
    {live : List (LockedObject pageSize)}
    (hlive : Holders.Live LockedObject.pages (2 ^ 31 - 1) calls live) :
    (∀ (r : LockedObject pageSize) (page : BitVec 64), page ∈ r.pages ↔
      ∃ a : BitVec 64, r.p.toNat ≤ a.toNat ∧ a.toNat < r.p.toNat + r.size.toNat ∧
        a &&& m₀.pageMask = page) ∧
    ∃ m, Run.run apply m₀ calls = some m ∧ ∀ page,
      m.histogram page = (if Holders.count LockedObject.pages live page = 0 then none
        else some (Holders.count LockedObject.pages live page : Int)) ∧
      pageLocked m.locker page = some (decide (∃ r ∈ live, page ∈ r.pages)) := by
  rw [new] at hnew
  split at hnew
  swap
  · cases hnew
  next hassert =>
  have hm₀ := Option.some.inj hnew
  have hmask : m₀.pageMask = ~~~(pageSize - 1) := by rw [← hm₀]
  have hinit : ∀ page, pageView m₀ page = pageLevel pageSize 0 := fun page => by rw [← hm₀]; rfl
  obtain ⟨k, hpage⟩ := toNat_eq_two_pow hassert hpos
  refine ⟨fun r page => hmask ▸ r.mem_pages_iff hpage page, ?_⟩
  have happly : ∀ (m : LockedPageManagerBase) (live : List (LockedObject pageSize))
      (c : Holders.Call (LockedObject pageSize)),
      Holders.Shows pageView (pageLevel pageSize) LockedObject.pages m live →
      m.apply c = Holders.step LockedObject.pages lockPage unlockPage m c := by
    intro m live c hm
    have hsizes := congrArg Prod.fst (hm 0)
    exact apply_eq hpage (congrArg Prod.fst hsizes) (congrArg Prod.snd hsizes) c
  obtain ⟨m, hrun, hshows⟩ := Holders.shows_of_live (ladder pageSize)
    (fun r => r.pages_nodup hpage) happly hinit hlive
  refine ⟨m, hrun, fun page => ?_⟩
  have hview := congrArg Prod.snd (hshows page)
  refine ⟨congrArg Prod.fst hview, ?_⟩
  rw [show pageLocked m.locker page = _ from congrArg Prod.snd hview]
  simp only [Holders.count_pos_iff, pageLevel]

namespace PageSample

def key : LockedObject 4096 := ⟨4000, 200, by decide⟩

def iv : LockedObject 4096 := ⟨4200, 32, by decide⟩

def manager : LockedPageManagerBase := ⟨4096, ~~~(4096 - 1), fun _ => none, []⟩

theorem calls_live : Holders.Live LockedObject.pages (2 ^ 31 - 1)
    [.hold key, .hold iv, .drop key] [iv] := by
  have hlimit : ∀ (live : List (LockedObject 4096)) (page : BitVec 64), live.length ≤ 1 →
      Holders.count LockedObject.pages live page < 2 ^ 31 - 1 := by
    intro live page hlength
    have hle : Holders.count LockedObject.pages live page ≤ live.length := List.countP_le_length
    omega
  have h1 := Holders.Live.hold key Holders.Live.nil fun page _ => hlimit [] page (Nat.zero_le 1)
  have h2 := Holders.Live.hold iv h1 fun page _ => hlimit [key] page le_rfl
  exact Holders.Live.drop key h2 (by decide)

/-- Two objects share a page, and the first one is deallocated. -/
theorem lockedPages_spec_sample :
    ∃ m, Run.run LockedPageManagerBase.apply manager [.hold key, .hold iv, .drop key] = some m ∧
      m.histogram 0 = none ∧ m.histogram 4096 = some 1 ∧
      pageLocked m.locker 0 = some false ∧ pageLocked m.locker 4096 = some true := by
  have hnew : LockedPageManagerBase.new 4096 = some manager := rfl
  obtain ⟨-, m, hrun, hm⟩ := lockedPages_spec hnew (by decide) calls_live
  exact ⟨m, hrun, (hm 0).1, (hm 4096).1, (hm 0).2, (hm 4096).2⟩

end PageSample

end Terracoin
