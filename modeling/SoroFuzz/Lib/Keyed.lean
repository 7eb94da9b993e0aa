/-
  SoroFuzz.Lib.Keyed — one collection kept in two ways: a list of items in the order they
  came, and a table that finds an item's row by its key.

  `Holds` relates the two; each rule says what a change of the list (one item appended,
  changed or filtered out) is in the table. A list is changed as a program changes it: the
  first item that a predicate finds, in place (`replaceF`). With ids that differ, that is
  `change`.

  Proved:
  - `Holds.append`, `Holds.change`, `Holds.frame`, `Holds.filter`: the rules.
  - `Holds.perm`: a scan of the table yields the items' rows, in some order.
  - `unique_insert`: a column whose values differ still does with a new row's.
  - `replaceF_map`: changing the first item found is changing the item of its id.
-/

import Mathlib.Data.List.Nodup
import Mathlib.Data.List.Perm.Basic

namespace SoroFuzz.Lib.Keyed

variable {α ι κ β ρ : Type}

/-- The table's rows are those of the items, each under its item's key. -/
def Holds (table : κ → Option ρ) (key : α → κ) (row : α → ρ) (xs : List α) : Prop :=
  ∀ k r, table k = some r ↔ ∃ x ∈ xs, key x = k ∧ row x = r

/-- The items whose id is `i` become what `f` makes of them. -/
def change [DecidableEq ι] (id : α → ι) (i : ι) (f : α → α) (xs : List α) : List α :=
  xs.map fun x => if id x = i then f x else x

/-! ## Tables -/

section tables
variable {table table' : κ → Option ρ} {key : α → κ} {row : α → ρ} {xs : List α} {x : α} {k : κ}

theorem holds_nil (h : ∀ k, table k = none) : Holds table key row [] := by
  intro k r
  simp [h k]

theorem Holds.lookup (h : Holds table key row xs) (hx : x ∈ xs) : table (key x) = some (row x) :=
  (h _ _).mpr ⟨x, hx, rfl, rfl⟩

theorem Holds.lookup_none (h : Holds table key row xs) (hk : ∀ x ∈ xs, key x ≠ k) : table k = none := by
  rw [Option.eq_none_iff_forall_ne_some]
  intro r hr
  obtain ⟨x, hx, hxk, -⟩ := (h k r).mp hr
  exact hk x hx hxk

/-- Looking up a key is finding the item that a predicate tells by it. -/
theorem Holds.lookup_eq (h : Holds table key row xs) {p : α → Bool} (hp : ∀ x ∈ xs, p x = true ↔ key x = k) :
    table k = (xs.find? p).map row := by
  cases hx : xs.find? p with
  | none =>
    refine h.lookup_none fun x hx' hk => ?_
    exact absurd ((hp x hx').mpr hk) (List.find?_eq_none.mp hx x hx')
  | some x =>
    rw [← (hp x (List.mem_of_find?_eq_some hx)).mp (List.find?_some hx)]
    exact h.lookup (List.mem_of_find?_eq_some hx)

theorem Holds.append [DecidableEq κ] (h : Holds table key row xs) {y : α} (hy : ∀ x ∈ xs, key x ≠ key y)
    (ht : ∀ k, table' k = if k = key y then some (row y) else table k) : Holds table' key row (xs ++ [y]) := by
  intro k r
  rw [ht]
  split
  · rename_i hk
    subst hk
    constructor
    · intro hr
      exact ⟨y, by simp, rfl, Option.some.inj hr⟩
    · intro hm
      obtain ⟨x, hx, hxk, rfl⟩ := hm
      rcases List.mem_append.mp hx with hx | hx
      · exact absurd hxk (hy x hx)
      · rw [List.mem_singleton.mp hx]
  · rename_i hk
    rw [h k r]
    constructor
    · intro hm
      obtain ⟨x, hx, hxr⟩ := hm
      exact ⟨x, List.mem_append_left _ hx, hxr⟩
    · intro hm
      obtain ⟨x, hx, hxk, hxr⟩ := hm
      rcases List.mem_append.mp hx with hx | hx
      · exact ⟨x, hx, hxk, hxr⟩
      · rw [List.mem_singleton.mp hx] at hxk
        exact absurd hxk.symm hk

variable [DecidableEq ι] {id : α → ι} {f : α → α}

theorem mem_change {i : ι} {y : α} : y ∈ change id i f xs ↔ ∃ x ∈ xs, (if id x = i then f x else x) = y := List.mem_map

/-- The one item of its id and of its key gets a new row. -/
theorem Holds.change [DecidableEq κ] (h : Holds table key row xs) (hx : x ∈ xs) (hid : ∀ y ∈ xs, id y = id x → y = x)
    (hkey : ∀ y ∈ xs, key y = key x → y = x) (hf : key (f x) = key x)
    (ht : ∀ k, table' k = if k = key x then some (row (f x)) else table k) :
    Holds table' key row (change id (id x) f xs) := by
  intro k r
  rw [ht]
  split
  · rename_i hk
    subst hk
    constructor
    · intro hr
      exact ⟨f x, mem_change.mpr ⟨x, hx, if_pos rfl⟩, hf, Option.some.inj hr⟩
    · intro hm
      obtain ⟨y, hy, hyk, rfl⟩ := hm
      obtain ⟨z, hz, rfl⟩ := mem_change.mp hy
      split at hyk
      · rename_i hzx
        rw [hid z hz hzx, if_pos rfl]
      · rename_i hzx
        exact absurd (congrArg id (hkey z hz hyk)) hzx
  · rename_i hk
    rw [h k r]
    constructor
    · intro hm
      obtain ⟨y, hy, hyk, hyr⟩ := hm
      have hne : id y ≠ id x := fun e => hk (hyk ▸ congrArg key (hid y hy e))
      exact ⟨y, mem_change.mpr ⟨y, hy, if_neg hne⟩, hyk, hyr⟩
    · intro hm
      obtain ⟨y, hy, hyk, hyr⟩ := hm
      obtain ⟨z, hz, rfl⟩ := mem_change.mp hy
      split at hyk
      · rename_i hzx
        rw [hid z hz hzx, hf] at hyk
        exact absurd hyk.symm hk
      · rename_i hzx
        rw [if_neg hzx] at hyr
        exact ⟨z, hz, hyk, hyr⟩

/-- A change that no row shows. -/
theorem Holds.frame (h : Holds table key row xs) {i : ι} (hkey : ∀ x, key (f x) = key x) (hrow : ∀ x, row (f x) = row x)
    (ht : ∀ k, table' k = table k) : Holds table' key row (Keyed.change id i f xs) := by
  have hk : ∀ x, key (if id x = i then f x else x) = key x := fun x => by split <;> simp [hkey]
  have hr : ∀ x, row (if id x = i then f x else x) = row x := fun x => by split <;> simp [hrow]
  intro k r
  rw [ht, h k r]
  simp [Keyed.change, hk, hr]

omit [DecidableEq ι] in
theorem Holds.filter (h : Holds table key row xs) {p : α → Bool} {q : ρ → Bool} (hq : ∀ x ∈ xs, q (row x) = p x)
    (ht : ∀ k, table' k = (table k).filter q) : Holds table' key row (xs.filter p) := by
  intro k r
  rw [ht, Option.filter_eq_some_iff, h k r]
  constructor
  · intro hm
    obtain ⟨⟨x, hx, hxk, rfl⟩, hqr⟩ := hm
    exact ⟨x, List.mem_filter.mpr ⟨hx, (hq x hx).symm.trans hqr⟩, hxk, rfl⟩
  · intro hm
    obtain ⟨x, hx, hxk, rfl⟩ := hm
    obtain ⟨hx, hp⟩ := List.mem_filter.mp hx
    exact ⟨⟨x, hx, hxk, rfl⟩, (hq x hx).trans hp⟩

omit [DecidableEq ι] in
/-- Whatever order the table is scanned in. -/
theorem Holds.perm (h : Holds table key row xs) (hxs : (xs.map key).Nodup) {l : List (κ × ρ)} (hl : l.Nodup)
    (hmem : ∀ k r, (k, r) ∈ l ↔ table k = some r) : l.Perm (xs.map fun x => (key x, row x)) := by
  have hnd : (xs.map fun x => (key x, row x)).Nodup := by
    refine List.Nodup.of_map Prod.fst ?_
    rw [List.map_map]
    exact hxs
  refine (List.perm_ext_iff_of_nodup hl hnd).mpr fun e => ?_
  obtain ⟨k, r⟩ := e
  rw [hmem, h k r, List.mem_map]
  simp only [Prod.mk.injEq]

/-- A column's values differ from row to row, and the new row's from them all. -/
theorem unique_insert [DecidableEq κ] {column : ρ → β} {j : κ} {r : ρ}
    (h : ∀ i k p q, table i = some p → table k = some q → column p = column q → i = k)
    (hnew : ∀ i q, table i = some q → column q ≠ column r)
    (ht : ∀ i, table' i = if i = j then some r else table i) (i k : κ) (p q : ρ) (hi : table' i = some p)
    (hk : table' k = some q) (e : column p = column q) : i = k := by
  rw [ht] at hi hk
  split at hi <;> split at hk
  · rename_i ei ek
    rw [ei, ek]
  · cases hi
    exact absurd e.symm (hnew k q hk)
  · cases hk
    exact absurd e (hnew i p hi)
  · exact h i k p q hi hk e

end tables

/-! ## Lists changed in place -/

section lists
variable [DecidableEq ι] {id : α → ι} {f : α → α} {xs : List α} {i : ι}

theorem change_of_forall_ne (h : ∀ x ∈ xs, id x ≠ i) : change id i f xs = xs := by
  refine List.map_congr_left (fun x hx => if_neg (h x hx)) |>.trans ?_
  exact List.map_id' xs

/-- Whatever the change does not touch is as it was. -/
theorem map_change_frame {proj : α → β} (h : ∀ x, proj (f x) = proj x) : (change id i f xs).map proj = xs.map proj := by
  rw [change, List.map_map]
  refine List.map_congr_left fun x _ => ?_
  dsimp only [Function.comp_apply]
  split
  · exact h x
  · rfl

/-- The first item found gets changed, and it is the only one of its id. -/
theorem replaceF_map {proj : α → β} {p : β → Bool} {g : β → β} {x : α} (hnd : (xs.map id).Nodup)
    (hx : xs.find? (fun y => p (proj y)) = some x) (hg : proj (f x) = g (proj x)) :
    (xs.map proj).replaceF (fun b => if p b then some (g b) else none) = (change id (id x) f xs).map proj := by
  induction xs with
  | nil => cases hx
  | cons y ys ih =>
    obtain ⟨hy, hys⟩ := List.nodup_cons.mp hnd
    rw [List.find?_cons] at hx
    rw [List.map_cons, List.replaceF_cons, change, List.map_cons, List.map_cons]
    split at hx
    · rename_i hp
      obtain rfl := Option.some.inj hx
      have hne : ∀ z ∈ ys, id z ≠ id y := fun z hz e => hy (e ▸ List.mem_map_of_mem hz)
      rw [if_pos hp, if_pos rfl, hg]
      exact congrArg (g (proj y) :: ·) (congrArg (List.map proj) (change_of_forall_ne hne).symm)
    · rename_i hp
      have hne : id y ≠ id x := fun e => hy (e ▸ List.mem_map_of_mem (List.mem_of_find?_eq_some hx))
      rw [if_neg (by simp [hp]), if_neg hne]
      exact congrArg (proj y :: ·) (ih hys hx)

omit [DecidableEq ι] in
/-- Items with ids that differ: the one found by its id is the one looked for. -/
theorem find?_id [DecidableEq ι] {x : α} (hnd : (xs.map id).Nodup) (hx : x ∈ xs) :
    xs.find? (fun y => id y = id x) = some x := by
  induction xs with
  | nil => cases hx
  | cons y ys ih =>
    obtain ⟨hy, hys⟩ := List.nodup_cons.mp hnd
    rw [List.find?_cons]
    rcases List.mem_cons.mp hx with rfl | hx
    · simp
    · have hne : id y ≠ id x := fun e => hy (e ▸ List.mem_map_of_mem hx)
      simp [hne, ih hys hx]

omit [DecidableEq ι] in
/-- The first one found comes before any other that could be. -/
theorem find?_first {r : α → α → Prop} {p : α → Bool} {x y : α} (hr : xs.Pairwise r) (hx : xs.find? p = some x)
    (hy : y ∈ xs) (hp : p y = true) : y = x ∨ r x y := by
  obtain ⟨-, as, bs, rfl, has⟩ := List.find?_eq_some_iff_append.mp hx
  obtain ⟨-, hbs, -⟩ := List.pairwise_append.mp hr
  rcases List.mem_append.mp hy with hy | hy
  · have hnot := has y hy
    rw [hp] at hnot
    cases hnot
  · rcases List.mem_cons.mp hy with hy | hy
    · exact Or.inl hy
    · exact Or.inr (List.rel_of_pairwise_cons hbs hy)

end lists

end SoroFuzz.Lib.Keyed
