/-
  SoroFuzz.Lib.Sweep — rows read page by page while rows are added.

  Each page is of the rows as they are when it is read. Rows have an identity and a key
  that stay; new ones come in anywhere in the order (`Grows`). What is added pushes a row
  back, never forward, so the row is still ahead of a reader that has not met it.

  Proved:
  - `rank_getElem`: in falling order, a row whose key is its own stands behind exactly the
    rows of a larger key.
  - `rank_le_of_grows`: it never comes to stand further ahead.
  - `sweep_finds`: so a reader that comes to the end has met it.
-/

import Mathlib.Data.List.Perm.Subperm
import SoroFuzz.Lib.Paging

namespace SoroFuzz.Lib.Paging

variable {α ι κ : Type*} [LinearOrder κ] {key : α → κ} {ident : α → ι} {rows rows' s : List α}

/-- The rows of `rows` are still there, each with its key. -/
def Grows (key : α → κ) (ident : α → ι) (rows rows' : List α) : Prop :=
  ∀ x ∈ rows, ∃ x' ∈ rows', ident x' = ident x ∧ key x' = key x

/-- How many rows have a key above `v`. -/
def rank (key : α → κ) (rows : List α) (v : κ) : Nat := rows.countP fun y => v < key y

theorem Ordered.rank (h : Ordered key rows s) (v : κ) : rank key s v = rank key rows v := h.perm.countP_eq _

/-- The rows above `v` are among those that are above it later. -/
theorem rank_le_of_grows (hnd : (rows.map ident).Nodup) (h : Grows key ident rows rows') (v : κ) :
    rank key rows v ≤ rank key rows' v := by
  have hsub : (rows.filter fun y => v < key y).map ident ⊆ (rows'.filter fun y => v < key y).map ident := by
    intro i hi
    obtain ⟨x, hx, rfl⟩ := List.mem_map.mp hi
    obtain ⟨hmem, hlt⟩ := List.mem_filter.mp hx
    obtain ⟨x', hx', hid, hkey⟩ := h x hmem
    exact List.mem_map.mpr ⟨x', List.mem_filter.mpr ⟨hx', by rw [hkey]; exact hlt⟩, hid⟩
  have hfiltered : ((rows.filter fun y => v < key y).map ident).Nodup :=
    hnd.sublist (List.filter_sublist.map ident)
  have hle := (hfiltered.subperm hsub).length_le
  rwa [List.length_map, List.length_map, ← List.countP_eq_length_filter, ← List.countP_eq_length_filter] at hle

theorem rank_getElem (hs : Falling key s) {i : Nat} {x : α} (hx : s[i]? = some x)
    (hone : ∀ j y, s[j]? = some y → key y = key x → j = i) : rank key s (key x) = i := by
  induction s generalizing i with
  | nil => cases hx
  | cons z zs ih =>
    obtain ⟨hz, hzs⟩ := List.pairwise_cons.mp hs
    cases i with
    | zero =>
      cases hx
      have hnone : zs.countP (fun y => key x < key y) = 0 :=
        List.countP_eq_zero.mpr fun y hy => by simpa using hz y hy
      rw [rank, List.countP_cons, hnone]
      simp
    | succ i =>
      have hmem : x ∈ zs := List.mem_iff_getElem?.mpr ⟨i, hx⟩
      have hlt : key x < key z := lt_of_le_of_ne (hz x hmem) fun e =>
        absurd (hone 0 z rfl e.symm) (Nat.succ_ne_zero i).symm
      have hrest : rank key zs (key x) = i := ih hzs hx fun j y hy hkey => by
        have := hone (j + 1) y hy hkey
        omega
      rw [rank, List.countP_cons, ← rank, hrest, decide_eq_true hlt]
      simp

section sweep
variable {rows : Nat → List α} {pages : Nat → List α} {p n : Nat} {x : α}

omit [LinearOrder κ] in
/-- A row of the first page's rows is among the rows of every later page. -/
theorem grows_all (hgrow : ∀ k < n, Grows key ident (rows k) (rows (k + 1))) {j k : Nat} (hjk : j ≤ k)
    (hk : k ≤ n) : Grows key ident (rows j) (rows k) := by
  induction k, hjk using Nat.le_induction with
  | base => exact fun x hx => ⟨x, hx, rfl, rfl⟩
  | succ k _ ih =>
    intro x hx
    obtain ⟨y, hy, hid, hkey⟩ := ih (by omega) x hx
    obtain ⟨z, hz, hid', hkey'⟩ := hgrow k hk y hy
    exact ⟨z, hz, hid'.trans hid, hkey'.trans hkey⟩

/-- Where the row is on page `k`'s order. -/
theorem found_at (hnd : ((rows n).map ident).Nodup) (hs : Ordered key (rows n) s) {y : α} (hy : y ∈ rows n)
    (hone : ∀ z ∈ rows n, key z = key y → ident z = ident y) : s[rank key (rows n) (key y)]? = some y := by
  obtain ⟨i, hi⟩ := List.mem_iff_getElem?.mp (hs.perm.mem_iff.mpr hy)
  have hids : (s.map ident).Nodup := (hs.perm.map ident).nodup_iff.mpr hnd
  have honly : ∀ j z, s[j]? = some z → key z = key y → j = i := by
    intro j z hz hkey
    have hmem := hs.perm.mem_iff.mp (List.mem_iff_getElem?.mpr ⟨j, hz⟩)
    have hid := hone z hmem hkey
    obtain ⟨hj, -⟩ := List.getElem?_eq_some_iff.mp hz
    refine (List.getElem?_inj (by rwa [List.length_map]) hids).mp ?_
    rw [List.getElem?_map, List.getElem?_map, hz, hi, Option.map_some, Option.map_some, hid]
  rw [← hs.rank, rank_getElem hs.falling hi honly]
  exact hi

/-- A reader of the pages in turn, each of the rows as they are by then, that has come to
    a page that is not full, has met every row that was there when it began and has a key
    of its own. -/
theorem sweep_finds (ident : α → ι) (pages : Nat → List α)
    (hpages : ∀ k ≤ n, ∃ s, Ordered key (rows k) s ∧ pages k = page p k s)
    (hgrow : ∀ k < n, Grows key ident (rows k) (rows (k + 1))) (hnd : ∀ k ≤ n, ((rows k).map ident).Nodup)
    (hlast : (pages n).length < p) (hx : x ∈ rows 0)
    (hone : ∀ y ∈ rows n, key y = key x → ident y = ident x) :
    ∃ k ≤ n, ∃ y ∈ pages k, y ∈ rows k ∧ ident y = ident x ∧ key y = key x := by
  -- Where the row is when page `k` is read.
  have hat : ∀ k ≤ n, ∃ s y, Ordered key (rows k) s ∧ pages k = page p k s ∧ y ∈ rows k ∧
      ident y = ident x ∧ key y = key x ∧ s[rank key (rows k) (key x)]? = some y := by
    intro k hk
    obtain ⟨s, hs, hpage⟩ := hpages k hk
    obtain ⟨y, hy, hid, hkey⟩ := grows_all hgrow (Nat.zero_le k) hk x hx
    have hown : ∀ z ∈ rows k, key z = key y → ident z = ident y := by
      intro z hz hzkey
      obtain ⟨z', hz', hzid, hzkey'⟩ := grows_all hgrow hk (Nat.le_refl n) z hz
      rw [← hzid, hid]
      exact hone z' hz' (hzkey'.trans (hzkey.trans hkey))
    exact ⟨s, y, hs, hpage, hy, hid, hkey, hkey ▸ found_at (hnd k hk) hs hy hown⟩
  by_contra hnot
  -- It is behind every page that was read.
  have hbehind : ∀ k ≤ n, (k + 1) * p ≤ rank key (rows k) (key x) := by
    intro k
    induction k with
    | zero =>
      intro hk
      obtain ⟨s, y, hs, hpage, hy, hid, hkey, hi⟩ := hat 0 hk
      by_contra hlt
      refine hnot ⟨0, hk, y, ?_, hy, hid, hkey⟩
      rw [hpage]
      exact mem_page hi (by omega) (by omega)
    | succ k ih =>
      intro hk
      obtain ⟨s, y, hs, hpage, hy, hid, hkey, hi⟩ := hat (k + 1) hk
      have hle := rank_le_of_grows (hnd k (by omega)) (hgrow k hk) (key x)
      have hbefore := ih (by omega)
      by_contra hlt
      refine hnot ⟨k + 1, hk, y, ?_, hy, hid, hkey⟩
      rw [hpage]
      exact mem_page hi (by omega) (by omega)
  obtain ⟨s, y, hs, hpage, -, -, -, hi⟩ := hat n (Nat.le_refl n)
  obtain ⟨hlen, -⟩ := List.getElem?_eq_some_iff.mp hi
  have hfull := hbehind n (Nat.le_refl n)
  rw [hpage, page, List.length_take, List.length_drop] at hlast
  rw [Nat.succ_mul] at hfull
  omega

end sweep

end SoroFuzz.Lib.Paging
