/-
  SoroFuzz.Lib.Paging — rows read page by page, each page by a query of its own.

  Every query sorts the rows by falling key, and may leave rows of one key in any order
  (`Ordered`): two pages need not be of the same order. A reader asks for the pages in
  turn until one is empty (`Ends`). It has read the rows when what it gathered is all of
  them, each once, by falling key (`Complete`).

  Proved:
  - `complete_of_ordered`: of pages of one order, it has.
  - `complete_iff`: of pages of whatever orders, it is sure to have exactly when no two
    rows of one key are on two sides of a page's end (`Separated`).
-/

import Mathlib.Data.List.Nodup
import Mathlib.Data.List.Perm.Basic
import Mathlib.Data.List.Sort
import Mathlib.Order.Defs.LinearOrder

namespace SoroFuzz.Lib.Paging

variable {α β κ : Type*} [LinearOrder κ] {key : α → κ} {rows s t : List α} {p : Nat}

def Falling (key : α → κ) (s : List α) : Prop := s.Pairwise fun a b => key b ≤ key a

structure Ordered (key : α → κ) (rows s : List α) : Prop where
  perm : s.Perm rows
  falling : Falling key s

def page (p k : Nat) (s : List α) : List α := (s.drop (k * p)).take p

/-- Each page is of some order of the rows. -/
def Pages (key : α → κ) (rows : List α) (p : Nat) (pages : Nat → List α) : Prop :=
  ∀ k, ∃ s, Ordered key rows s ∧ pages k = page p k s

/-- Page `n` is the first that is empty. -/
structure Ends (pages : Nat → List α) (n : Nat) : Prop where
  last : pages n = []
  before : ∀ k < n, pages k ≠ []

def gathered (pages : Nat → List α) (n : Nat) : List α := (List.range n).flatMap pages

def Complete (key : α → κ) (rows : List α) (pages : Nat → List α) : Prop :=
  ∃ n, Ends pages n ∧ Ordered key rows (gathered pages n)

/-- The rows' keys, falling. -/
def keys (key : α → κ) (rows : List α) : List κ := (rows.map key).mergeSort fun a b => b ≤ a

/-- The last key of a page and the first of the next differ. -/
def Separated (key : α → κ) (rows : List α) (p : Nat) : Prop :=
  ∀ k a b, 0 < k → (keys key rows)[k * p - 1]? = some a → (keys key rows)[k * p]? = some b → a ≠ b

/-- The page that a slice between clamped bounds is. -/
theorem slice_eq (l : List α) (offset limit : Nat) :
    (l.take (min (min offset l.length + limit) l.length)).drop (min offset l.length) = (l.drop offset).take limit := by
  rw [List.drop_take]
  rcases Nat.le_total offset l.length with ho | ho
  · rw [Nat.min_eq_left ho, List.take_eq_take_iff, List.length_drop]
    omega
  · rw [Nat.min_eq_right ho, List.drop_eq_nil_of_le ho, List.drop_eq_nil_of_le (Nat.le_refl _)]
    simp

/-! ## Orders -/

theorem falling_map : (s.map key).Pairwise (fun a b => b ≤ a) ↔ Falling key s := List.pairwise_map

theorem falling_mergeSort (key : α → κ) (rows : List α) : Falling key (rows.mergeSort fun a b => key b ≤ key a) := by
  have h : (rows.mergeSort fun a b => key b ≤ key a).Pairwise fun a b => decide (key b ≤ key a) = true := by
    refine List.pairwise_mergeSort (fun a b c hab hbc => ?_) (fun a b => ?_) rows
    · simp only [decide_eq_true_eq] at hab hbc ⊢
      exact le_trans hbc hab
    · simpa using le_total (key b) (key a)
  exact h.imp of_decide_eq_true

/-- All orders have the same keys. -/
theorem Ordered.map_key (h : Ordered key rows s) : s.map key = keys key rows := by
  refine List.Perm.eq_of_pairwise (fun a b _ _ hab hba => le_antisymm hba hab) (falling_map.mpr h.falling)
    (falling_mergeSort id (rows.map key)) ?_
  exact (h.perm.map key).trans (List.mergeSort_perm _ _).symm

/-- Rows that fall already are an order. -/
theorem keys_eq (h : (rows.map key).Pairwise fun a b => b ≤ a) : keys key rows = rows.map key :=
  (Ordered.map_key ⟨.refl rows, falling_map.mp h⟩).symm

theorem Ordered.of_map_key (hperm : t.Perm rows) (hs : Ordered key rows s) (hkeys : t.map key = s.map key) :
    Ordered key rows t := ⟨hperm, falling_map.mp (hkeys ▸ falling_map.mpr hs.falling)⟩

theorem exists_ordered (key : α → κ) (rows : List α) : ∃ s, Ordered key rows s :=
  ⟨_, List.mergeSort_perm _ _, falling_mergeSort key rows⟩

theorem Ordered.length (h : Ordered key rows s) : s.length = rows.length := h.perm.length_eq

/-! ## Pages -/

theorem take_succ_page (p k : Nat) (s : List α) : s.take ((k + 1) * p) = s.take (k * p) ++ page p k s := by
  rw [Nat.succ_mul, List.take_add]
  rfl

theorem gathered_page (p n : Nat) (s : List α) : gathered (fun k => page p k s) n = s.take (n * p) := by
  induction n with
  | zero => simp [gathered]
  | succ n ih =>
    rw [take_succ_page, ← ih]
    simp [gathered, List.range_succ]

theorem page_eq_nil_iff (hp : 0 < p) {k : Nat} : page p k s = [] ↔ s.length ≤ k * p := by
  rw [page, List.take_eq_nil_iff, List.drop_eq_nil_iff]
  omega

theorem mem_page {k i : Nat} {x : α} (hx : s[i]? = some x) (hlo : k * p ≤ i) (hhi : i < (k + 1) * p) :
    x ∈ page p k s := by
  rw [Nat.succ_mul] at hhi
  refine List.mem_iff_getElem?.mpr ⟨i - k * p, ?_⟩
  rw [page, List.getElem?_take_of_lt (by omega), List.getElem?_drop, Nat.add_sub_cancel' hlo, hx]

theorem page_map (f : α → β) (p k : Nat) (s : List α) : page p k (s.map f) = (page p k s).map f := by
  rw [page, page, List.map_take, List.map_drop]

theorem gathered_map (f : α → β) (pages : Nat → List α) (n : Nat) :
    gathered (fun k => (pages k).map f) n = (gathered pages n).map f := by
  rw [gathered, gathered, List.map_flatMap]

section pages
variable {pages : Nat → List α}

theorem Pages.eq_nil_iff (h : Pages key rows p pages) (hp : 0 < p) {k : Nat} :
    pages k = [] ↔ rows.length ≤ k * p := by
  obtain ⟨s, hs, hk⟩ := h k
  rw [hk, page_eq_nil_iff hp, hs.length]

theorem Pages.ends (h : Pages key rows p pages) (hp : 0 < p) : ∃ n, Ends pages n := by
  have hex : ∃ n, pages n = [] := ⟨rows.length, (h.eq_nil_iff hp).mpr (Nat.le_mul_of_pos_right _ hp)⟩
  classical
  exact ⟨Nat.find hex, Nat.find_spec hex, fun k hk => Nat.find_min hex hk⟩

/-- What is gathered has the keys of the rows, whatever the orders are. -/
theorem Pages.gathered_key (h : Pages key rows p pages) (hp : 0 < p) {n : Nat} (hn : Ends pages n) :
    (gathered pages n).map key = keys key rows := by
  obtain ⟨s, hs⟩ := exists_ordered key rows
  have hpage : (fun k => (pages k).map key) = fun k => page p k (keys key rows) := by
    funext k
    obtain ⟨t, ht, hk⟩ := h k
    rw [hk, ← page_map, ht.map_key]
  rw [← gathered_map, hpage, gathered_page, ← hs.map_key, List.take_of_length_le]
  rw [List.length_map, hs.length]
  exact (h.eq_nil_iff hp).mp hn.last

end pages

/-! ## Pages of one order -/

theorem complete_of_ordered (hp : 0 < p) (hs : Ordered key rows s) : Complete key rows fun k => page p k s := by
  have hpages : Pages key rows p fun k => page p k s := fun k => ⟨s, hs, rfl⟩
  obtain ⟨n, hn⟩ := hpages.ends hp
  refine ⟨n, hn, ?_⟩
  rwa [gathered_page, List.take_of_length_le ((page_eq_nil_iff hp).mp hn.last)]

/-! ## Pages of several orders -/

/-- Where the keys differ on the two sides of a cut, it keeps apart what is above and
    what is below. -/
theorem take_eq_filter (hs : Falling key s) {m : Nat} {a : κ} (hm : 0 < m) (ha : (s.map key)[m - 1]? = some a)
    (hb : ∀ b, (s.map key)[m]? = some b → a ≠ b) : s.take m = s.filter fun x => a ≤ key x := by
  rw [List.getElem?_map, Option.map_eq_some_iff] at ha
  obtain ⟨x, hx, rfl⟩ := ha
  obtain ⟨hlt, rfl⟩ := List.getElem?_eq_some_iff.mp hx
  have hfalling := List.pairwise_iff_getElem.mp hs
  have habove : ∀ y ∈ s.take m, key s[m - 1] ≤ key y := by
    intro y hy
    obtain ⟨i, hi, rfl⟩ := List.mem_iff_getElem.mp hy
    rw [List.length_take] at hi
    rw [List.getElem_take]
    rcases Nat.lt_or_ge i (m - 1) with him | him
    · exact hfalling i (m - 1) (by omega) hlt him
    · have : i = m - 1 := by omega
      subst this
      exact le_refl _
  have hbelow : ∀ y ∈ s.drop m, ¬ key s[m - 1] ≤ key y := by
    intro y hy hle
    obtain ⟨i, hi, rfl⟩ := List.mem_iff_getElem.mp hy
    rw [List.length_drop] at hi
    rw [List.getElem_drop] at hle
    have hms : m < s.length := by omega
    have hne := hb (key s[m]) (by simp [List.getElem?_map, List.getElem?_eq_getElem hms])
    have hcut : key s[m] ≤ key s[m - 1] := hfalling (m - 1) m hlt hms (by omega)
    have hrest : key s[m + i] ≤ key s[m] := by
      rcases Nat.eq_zero_or_pos i with rfl | hi0
      · exact le_refl _
      · exact hfalling m (m + i) hms (by omega) (by omega)
    exact hne (le_antisymm (le_trans hle hrest) hcut)
  calc s.take m
      = (s.take m).filter (fun x => key s[m - 1] ≤ key x) ++ (s.drop m).filter (fun x => key s[m - 1] ≤ key x) := by
        rw [List.filter_eq_self.mpr (by simpa using habove), List.filter_eq_nil_iff.mpr (by simpa using hbelow),
          List.append_nil]
    _ = s.filter (fun x => key s[m - 1] ≤ key x) := by rw [← List.filter_append, List.take_append_drop]

/-- All orders have the same rows before a page's end. -/
theorem Separated.take_perm (hsep : Separated key rows p) (hs : Ordered key rows s) (ht : Ordered key rows t)
    (k : Nat) : (s.take (k * p)).Perm (t.take (k * p)) := by
  rcases Nat.eq_zero_or_pos (k * p) with hm | hm
  · rw [hm, List.take_zero, List.take_zero]
  · cases ha : (keys key rows)[k * p - 1]? with
    | none =>
      have hlen : rows.length ≤ k * p := by
        rw [List.getElem?_eq_none_iff, ← hs.map_key, List.length_map, hs.length] at ha
        omega
      rw [List.take_of_length_le (by rw [hs.length]; exact hlen),
        List.take_of_length_le (by rw [ht.length]; exact hlen)]
      exact hs.perm.trans ht.perm.symm
    | some a =>
      have hb : ∀ b, (keys key rows)[k * p]? = some b → a ≠ b :=
        fun b => hsep k a b (Nat.pos_of_mul_pos_right hm) ha
      rw [take_eq_filter hs.falling hm (hs.map_key ▸ ha) (hs.map_key ▸ hb),
        take_eq_filter ht.falling hm (ht.map_key ▸ ha) (ht.map_key ▸ hb)]
      exact (hs.perm.trans ht.perm.symm).filter _

theorem Separated.page_perm (hsep : Separated key rows p) (hs : Ordered key rows s) (ht : Ordered key rows t)
    (k : Nat) : (page p k s).Perm (page p k t) := by
  have h := hsep.take_perm hs ht (k + 1)
  rw [take_succ_page, take_succ_page] at h
  exact (List.perm_append_left_iff _).mp (h.trans ((hsep.take_perm hs ht k).symm.append_right _))

theorem Separated.complete (hsep : Separated key rows p) (hp : 0 < p) {pages : Nat → List α}
    (h : Pages key rows p pages) : Complete key rows pages := by
  obtain ⟨n, hn⟩ := h.ends hp
  obtain ⟨s, hs⟩ := exists_ordered key rows
  have hsame : (gathered pages n).Perm s := by
    have hone : gathered (fun k => page p k s) n = s := by
      rw [gathered_page, List.take_of_length_le]
      rw [hs.length]
      exact (h.eq_nil_iff hp).mp hn.last
    conv => rhs; rw [← hone]
    refine List.Perm.flatMap_left _ fun k _ => ?_
    obtain ⟨t, ht, hk⟩ := h k
    rw [hk]
    exact hsep.page_perm ht hs k
  exact ⟨n, hn, Ordered.of_map_key (hsame.trans hs.perm) hs ((h.gathered_key hp hn).trans hs.map_key.symm)⟩

theorem exists_tie (hp : 0 < p) (hnot : ¬ Separated key rows p) (hs : Ordered key rows s) :
    ∃ k pre x y post, s = pre ++ x :: y :: post ∧ pre.length + 1 = (k + 1) * p ∧ key x = key y := by
  simp only [Separated, not_forall, not_not] at hnot
  obtain ⟨k, a, b, hk, ha, hb, rfl⟩ := hnot
  rw [← hs.map_key, List.getElem?_map, Option.map_eq_some_iff] at ha hb
  obtain ⟨x, hx, hxa⟩ := ha
  obtain ⟨y, hy, hya⟩ := hb
  obtain ⟨hylt, rfl⟩ := List.getElem?_eq_some_iff.mp hy
  obtain ⟨k, rfl⟩ := Nat.exists_eq_add_one_of_ne_zero (Nat.ne_of_gt hk)
  have hm : 0 < (k + 1) * p := Nat.mul_pos (Nat.succ_pos k) hp
  refine ⟨k, s.take ((k + 1) * p - 1), x, s[(k + 1) * p], s.drop ((k + 1) * p + 1), ?_, ?_, hxa.trans hya.symm⟩
  · obtain ⟨hxlt, rfl⟩ := List.getElem?_eq_some_iff.mp hx
    have hsucc : (k + 1) * p - 1 + 1 = (k + 1) * p := by omega
    have hdrop := List.drop_eq_getElem_cons hxlt
    simp only [hsucc] at hdrop
    rw [← List.drop_eq_getElem_cons hylt, ← hdrop, List.take_append_drop]
  · rw [List.length_take]
    omega

/-- Of a tie at the end of page `k`, one order has a row last on page `k`, another has it
    first on page `k + 1`. -/
theorem exists_repeated (hp : 0 < p) (hnot : ¬ Separated key rows p) :
    ∃ pages x k, Pages key rows p pages ∧ x ∈ pages k ∧ x ∈ pages (k + 1) := by
  obtain ⟨s, hs⟩ := exists_ordered key rows
  obtain ⟨k, pre, x, y, post, rfl, hlen, hkey⟩ := exists_tie hp hnot hs
  have ht : Ordered key rows (pre ++ y :: x :: post) :=
    Ordered.of_map_key (((List.Perm.swap x y post).append_left pre).trans hs.perm) hs (by simp [hkey])
  refine ⟨fun j => if j = k then page p j (pre ++ x :: y :: post) else page p j (pre ++ y :: x :: post), x, k,
    fun j => ?_, ?_, ?_⟩
  · by_cases hj : j = k
    · exact ⟨_, hs, if_pos hj⟩
    · exact ⟨_, ht, if_neg hj⟩
  · simp only [if_true]
    refine mem_page (i := pre.length) (by simp) ?_ (by omega)
    rw [Nat.succ_mul] at hlen
    omega
  · simp only [if_neg (Nat.succ_ne_self k)]
    refine mem_page (i := pre.length + 1) (by simp) (Nat.le_of_eq hlen.symm) ?_
    rw [Nat.succ_mul]
    omega

theorem complete_iff (hp : 0 < p) (hnd : rows.Nodup) :
    (∀ pages, Pages key rows p pages → Complete key rows pages) ↔ Separated key rows p := by
  constructor
  · intro hall
    by_contra hnot
    obtain ⟨pages, x, k, hpages, hx, hx'⟩ := exists_repeated hp hnot
    obtain ⟨n, hn, ho⟩ := hall pages hpages
    have hk : k + 1 < n := by
      by_contra hle
      have hlen := (hpages.eq_nil_iff hp).mp hn.last
      have hnil := (hpages.eq_nil_iff hp).mpr (Nat.le_trans hlen (Nat.mul_le_mul_right p (Nat.not_lt.mp hle)))
      rw [hnil] at hx'
      cases hx'
    have hdisjoint := (List.nodup_flatMap.mp (ho.perm.nodup_iff.mpr hnd)).2
    have := List.pairwise_iff_getElem.mp hdisjoint k (k + 1) (by simp; omega) (by simp; omega) (by omega)
    simp only [List.getElem_range, Function.onFun] at this
    exact this hx hx'
  · exact fun hsep pages h => hsep.complete hp h

/-- Completeness is kept by what shows the rows one by one. -/
theorem complete_map {f : α → β} (hf : Function.Injective f) {key' : β → κ} (hkey : ∀ a, key' (f a) = key a)
    {pages : Nat → List α} :
    Complete key' (rows.map f) (fun k => (pages k).map f) ↔ Complete key rows pages := by
  refine exists_congr fun n => and_congr ?_ ?_
  · constructor
    · exact fun h => ⟨List.map_eq_nil_iff.mp h.last, fun k hk hnil => h.before k hk (by rw [hnil]; rfl)⟩
    · exact fun h => ⟨by rw [h.last]; rfl, fun k hk hnil => h.before k hk (List.map_eq_nil_iff.mp hnil)⟩
  · rw [gathered_map]
    constructor
    · exact fun h => ⟨(List.map_perm_map_iff hf).mp h.perm, by simpa [Falling, List.pairwise_map, hkey] using h.falling⟩
    · exact fun h => ⟨h.perm.map f, by simpa [Falling, List.pairwise_map, hkey] using h.falling⟩

end SoroFuzz.Lib.Paging
