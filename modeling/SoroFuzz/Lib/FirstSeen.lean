/-
  SoroFuzz.Lib.FirstSeen — the values of a list without repetition, each kept where it
  first appears, gathered by a loop that appends what it has not yet gathered.

  Proved:
  - `mem_firsts`, `firsts_nodup`: every value of the list, once.
  - `firsts_pairwise`: in the order in which they first appear.
-/

import Mathlib.Data.List.Nodup
import Mathlib.Data.List.Induction

namespace SoroFuzz.Lib

variable {α : Type*} [DecidableEq α] {xs : List α} {x a : α}

def firsts (xs : List α) : List α := xs.foldl (fun out x => if x ∈ out then out else out ++ [x]) []

@[simp] theorem firsts_nil : firsts ([] : List α) = [] := rfl

/-- What the loop does with one more value. -/
theorem firsts_snoc : firsts (xs ++ [x]) = if x ∈ firsts xs then firsts xs else firsts xs ++ [x] := by
  rw [firsts, List.foldl_append]
  rfl

@[simp] theorem mem_firsts : a ∈ firsts xs ↔ a ∈ xs := by
  induction xs using List.reverseRecOn with
  | nil => simp
  | append_singleton xs x ih =>
    rw [firsts_snoc, List.mem_append, List.mem_singleton, ← ih]
    split
    · rename_i hx
      constructor
      · exact Or.inl
      · intro ha
        rcases ha with ha | rfl
        · exact ha
        · exact hx
    · rw [List.mem_append, List.mem_singleton]

theorem firsts_snoc_new (hx : x ∉ xs) : firsts (xs ++ [x]) = firsts xs ++ [x] := by
  rw [firsts_snoc, if_neg (mt mem_firsts.mp hx)]

theorem firsts_snoc_old (hx : x ∈ xs) : firsts (xs ++ [x]) = firsts xs := by
  rw [firsts_snoc, if_pos (mem_firsts.mpr hx)]

/-- A value gathered earlier first appears earlier. -/
theorem firsts_pairwise (xs : List α) : (firsts xs).Pairwise fun a b => xs.idxOf a < xs.idxOf b := by
  induction xs using List.reverseRecOn with
  | nil => simp
  | append_singleton xs x ih =>
    -- a value already gathered stays where it was first seen
    have hold : (firsts xs).Pairwise fun a b => (xs ++ [x]).idxOf a < (xs ++ [x]).idxOf b := by
      refine ih.imp_of_mem fun ha hb hab => ?_
      rwa [List.idxOf_append_of_mem (mem_firsts.mp ha), List.idxOf_append_of_mem (mem_firsts.mp hb)]
    by_cases hx : x ∈ xs
    · rwa [firsts_snoc_old hx]
    · rw [firsts_snoc_new hx, List.pairwise_append]
      refine ⟨hold, List.pairwise_singleton _ _, fun a ha b hb => ?_⟩
      rw [List.mem_singleton.mp hb, List.idxOf_append_of_mem (mem_firsts.mp ha), List.idxOf_append_of_notMem hx]
      have := List.idxOf_lt_length_of_mem (mem_firsts.mp ha)
      omega

theorem firsts_nodup (xs : List α) : (firsts xs).Nodup := by
  refine (firsts_pairwise xs).imp fun hab => ?_
  rintro rfl
  exact Nat.lt_irrefl _ hab

end SoroFuzz.Lib
