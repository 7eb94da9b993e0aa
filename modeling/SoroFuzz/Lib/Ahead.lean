/-
  SoroFuzz.Lib.Ahead — transactions of `ReadCommitted` that commit ahead of time.

  What a transaction has written is locked, so nobody else writes it until it commits.
  One that has run all its statements may as well commit now as later: `ahead s is` are
  the rows that are committed once those of `is` are.

  Proved:
  - `ahead_perm`: they are the same in whatever order `is` commit.
  - `ahead_commit`: the rows ahead of a commit are those ahead of the state before it.
-/

import SoroFuzz.Lib.ReadCommitted

namespace SoroFuzz.Lib.ReadCommitted

variable {K : Type} [DecidableEq K] {Row : K → Type} {C L R : Type}

/-! ## The same rows -/

/-- The same rows, in whatever order they are kept. -/
def Alike (d d' : Db Row) : Prop := ∀ k, d.lookup k = d'.lookup k

section alike
variable {d d' d'' : Db Row} {ws xs : List (Write Row)}

@[refl] theorem Alike.refl (d : Db Row) : Alike d d := fun _ => rfl

theorem Alike.symm (h : Alike d d') : Alike d' d := fun k => (h k).symm

theorem Alike.trans (h : Alike d d') (h' : Alike d' d'') : Alike d d'' := fun k => (h k).trans (h' k)

theorem Alike.apply (h : Alike d d') (w : Write Row) : Alike (w.apply d) (w.apply d') := by
  intro k
  by_cases hk : k = w.key
  · subst hk
    rw [lookup_apply_self, lookup_apply_self]
  · rw [lookup_apply_ne w d hk, lookup_apply_ne w d' hk]
    exact h k

theorem Alike.applyAll (h : Alike d d') : Alike (applyAll ws d) (applyAll ws d') := by
  induction ws generalizing d d' with
  | nil => exact h
  | cons w ws ih => exact ih (h.apply w)

/-- What is written under a key does not depend on the rows it is written over. -/
theorem lookup_applyAll_wrote {k : K} (h : wrote ws k = true) (d d' : Db Row) :
    (ReadCommitted.applyAll ws d).lookup k = (ReadCommitted.applyAll ws d').lookup k := by
  induction ws generalizing d d' with
  | nil => cases h
  | cons w ws ih =>
    rw [applyAll_cons, applyAll_cons]
    cases hw : wrote ws k with
    | true => exact ih hw _ _
    | false =>
      rw [wrote_cons, hw, Bool.or_false, decide_eq_true_iff] at h
      subst h
      rw [lookup_applyAll_other _ _ hw, lookup_applyAll_other _ _ hw, lookup_apply_self, lookup_apply_self]

/-- Writes of different rows can be swapped. -/
theorem applyAll_swap (h : ∀ k, wrote ws k = true → wrote xs k = false) (d : Db Row) :
    Alike (ReadCommitted.applyAll (ws ++ xs) d) (ReadCommitted.applyAll (xs ++ ws) d) := by
  intro k
  rw [applyAll_append, applyAll_append]
  cases hk : wrote ws k with
  | true => rw [lookup_applyAll_other _ _ (h k hk), lookup_applyAll_wrote hk]
  | false =>
    rw [lookup_applyAll_other _ (ReadCommitted.applyAll xs d) hk]
    cases hx : wrote xs k with
    | true => exact lookup_applyAll_wrote hx _ _
    | false => rw [lookup_applyAll_other _ _ hx, lookup_applyAll_other _ _ hx, lookup_applyAll_other _ _ hk]

end alike

/-! ## Ahead -/

/-- What the transaction has written so far. -/
def writesOf (s : St Row C L R) (i : Nat) : List (Write Row) :=
  match s.txns.lookup i with
  | some t => t.writes
  | none => []

def ahead (s : St Row C L R) (is : List Nat) : Db Row := applyAll (is.flatMap (writesOf s)) s.db

section ahead
variable {S : Spec Row C L R} {s s' : St Row C L R} {i : Nat} {is js : List Nat} {t : Txn Row C L R}

omit [DecidableEq K] in
theorem writesOf_some (ht : s.txns.lookup i = some t) : writesOf s i = t.writes := by rw [writesOf, ht]

@[simp] theorem ahead_nil (s : St Row C L R) : ahead s [] = s.db := rfl

theorem ahead_concat (s : St Row C L R) (is : List Nat) (i : Nat) :
    ahead s (is ++ [i]) = applyAll (writesOf s i) (ahead s is) := by
  rw [ahead, List.flatMap_append, applyAll_append, List.flatMap_singleton]
  rfl

theorem ahead_congr (hdb : s'.db = s.db) (h : ∀ i ∈ is, writesOf s' i = writesOf s i) : ahead s' is = ahead s is := by
  rw [ahead, ahead, hdb, List.flatMap_congr h]

/-- A row that none of them has written is as it was. -/
theorem lookup_ahead_other {k : K} (h : ∀ i ∈ is, wrote (writesOf s i) k = false) :
    (ahead s is).lookup k = s.db.lookup k := by
  refine lookup_applyAll_other _ _ ?_
  rw [wrote, List.any_flatMap, List.any_eq_false]
  intro i hi
  rw [Bool.not_eq_true]
  exact h i hi

theorem Ok.writesOf_apart (h : Ok S s) {i j : Nat} (hij : i ≠ j) {k : K} (hk : wrote (writesOf s i) k = true) :
    wrote (writesOf s j) k = false := by
  unfold writesOf at hk ⊢
  split at hk
  · rename_i t ht
    split
    · rename_i u hu
      exact h.apart i j t u ht hu hij k hk
    · rfl
  · cases hk

theorem ahead_perm (h : Ok S s) (hp : is.Perm js) : Alike (ahead s is) (ahead s js) := by
  unfold ahead
  generalize s.db = d
  induction hp generalizing d with
  | nil => rfl
  | cons i _ ih =>
    rw [List.flatMap_cons, List.flatMap_cons, applyAll_append, applyAll_append]
    exact ih _
  | swap i j is =>
    by_cases hij : j = i
    · rw [hij]
    · rw [List.flatMap_cons, List.flatMap_cons, List.flatMap_cons, List.flatMap_cons, ← List.append_assoc,
        ← List.append_assoc, applyAll_append, applyAll_append _ (is.flatMap _)]
      exact (applyAll_swap (fun _ => h.writesOf_apart hij) d).applyAll
  | trans _ _ ih1 ih2 => exact (ih1 d).trans (ih2 d)

theorem ahead_commit (ht : s.txns.lookup i = some t) (hi : i ∉ is) (hdb : s'.db = applyAll t.writes s.db)
    (htxns : s'.txns = s.txns.erase i) : ahead s' is = ahead s (i :: is) := by
  have hsame : ∀ j ∈ is, writesOf s' j = writesOf s j := by
    intro j hj
    have hne : j ≠ i := fun e => hi (e ▸ hj)
    rw [writesOf, writesOf, htxns, AList.lookup_erase_ne hne]
  rw [ahead, ahead, List.flatMap_cons, applyAll_append, hdb, writesOf_some ht, List.flatMap_congr hsame]

end ahead

end SoroFuzz.Lib.ReadCommitted
