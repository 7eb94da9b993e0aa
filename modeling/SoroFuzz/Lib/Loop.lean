/-
  SoroFuzz.Lib.Loop — a loop over a list that counts its steps and stops at the first
  step that fails.

  The loop stops at step `k` exactly when it gets through the `k` steps before it and
  step `k` fails (`loop_error_iff`), and gets through when no step fails (`loop_ok_iff`).
-/

import Mathlib.Data.List.Basic

namespace SoroFuzz.Lib

variable {ε α σ : Type*}

def loop (f : Nat → α → σ → Except ε σ) : Nat → List α → σ → Except ε σ
  | _, [], s => .ok s
  | i, x :: xs, s =>
    match f i x s with
    | .ok s' => loop f (i + 1) xs s'
    | .error e => .error e

variable {f : Nat → α → σ → Except ε σ}

theorem loop_cons_ok {i : Nat} {x : α} {xs : List α} {s s' : σ} (h : f i x s = .ok s') :
    loop f i (x :: xs) s = loop f (i + 1) xs s' := by simp only [loop, h]

theorem loop_cons_error {i : Nat} {x : α} {xs : List α} {s : σ} {e : ε} (h : f i x s = .error e) :
    loop f i (x :: xs) s = .error e := by simp only [loop, h]

theorem loop_append_ok {xs ys : List α} {i : Nat} {s s' : σ} (h : loop f i xs s = .ok s') :
    loop f i (xs ++ ys) s = loop f (i + xs.length) ys s' := by
  induction xs generalizing i s with
  | nil => cases h; rfl
  | cons x xs ih =>
    cases hx : f i x s with
    | ok s1 =>
      rw [loop_cons_ok hx] at h
      rw [List.cons_append, loop_cons_ok hx, ih h, List.length_cons]
      congr 1
      omega
    | error e => rw [loop_cons_error hx] at h; cases h

theorem loop_append_error (ys : List α) {xs : List α} {i : Nat} {s : σ} {e : ε} (h : loop f i xs s = .error e) :
    loop f i (xs ++ ys) s = .error e := by
  induction xs generalizing i s with
  | nil => cases h
  | cons x xs ih =>
    cases hx : f i x s with
    | ok s1 =>
      rw [loop_cons_ok hx] at h
      rw [List.cons_append, loop_cons_ok hx, ih h]
    | error e' =>
      rw [loop_cons_error hx] at h
      rw [List.cons_append, loop_cons_error hx, h]

/-- The step taken after `k` steps. -/
theorem loop_take_succ {xs : List α} {i k : Nat} {x : α} {s s' : σ} (hx : xs[k]? = some x)
    (h : loop f i (xs.take k) s = .ok s') : loop f i (xs.take (k + 1)) s = f (i + k) x s' := by
  have hk : k < xs.length := (List.getElem?_eq_some_iff.mp hx).1
  rw [List.take_add_one, hx, Option.toList_some, loop_append_ok h, List.length_take, Nat.min_eq_left (Nat.le_of_lt hk)]
  simp only [loop]
  split <;> simp_all

theorem loop_error_iff {xs : List α} {i : Nat} {s : σ} {e : ε} :
    loop f i xs s = .error e ↔
      ∃ k x s', xs[k]? = some x ∧ loop f i (xs.take k) s = .ok s' ∧ f (i + k) x s' = .error e := by
  constructor
  · intro h
    induction xs generalizing i s with
    | nil => cases h
    | cons x xs ih =>
      cases hx : f i x s with
      | ok s1 =>
        rw [loop_cons_ok hx] at h
        obtain ⟨k, y, s', hy, hs', hf⟩ := ih h
        refine ⟨k + 1, y, s', by simpa using hy, ?_, ?_⟩
        · rw [List.take_succ_cons, loop_cons_ok hx, hs']
        · rw [← hf]; congr 1; omega
      | error e' =>
        rw [loop_cons_error hx] at h
        exact ⟨0, x, s, rfl, rfl, by rw [← h, ← hx]; rfl⟩
  · intro hm
    obtain ⟨k, x, s', hx, hs', hf⟩ := hm
    rw [← List.take_append_drop (k + 1) xs]
    exact loop_append_error _ (by rw [loop_take_succ hx hs', hf])

theorem loop_ok_take {xs : List α} {i : Nat} {s s' : σ} (h : loop f i xs s = .ok s') (k : Nat) :
    ∃ s1, loop f i (xs.take k) s = .ok s1 := by
  cases ht : loop f i (xs.take k) s with
  | ok s1 => exact ⟨s1, rfl⟩
  | error e =>
    have := loop_append_error (xs.drop k) ht
    rw [List.take_append_drop, h] at this
    cases this

theorem loop_ok_iff {xs : List α} {i : Nat} {s : σ} : (∃ s', loop f i xs s = .ok s') ↔
    ∀ k x s', xs[k]? = some x → loop f i (xs.take k) s = .ok s' → ∃ s'', f (i + k) x s' = .ok s'' := by
  constructor
  · intro hm k x s' hx hs'
    obtain ⟨sn, h⟩ := hm
    obtain ⟨s'', h''⟩ := loop_ok_take h (k + 1)
    exact ⟨s'', by rw [← loop_take_succ hx hs', h'']⟩
  · intro h
    cases hl : loop f i xs s with
    | ok s' => exact ⟨s', rfl⟩
    | error e =>
      obtain ⟨k, x, s', hx, hs', hf⟩ := loop_error_iff.mp hl
      obtain ⟨s'', hs''⟩ := h k x s' hx hs'
      rw [hf] at hs''
      cases hs''

end SoroFuzz.Lib
