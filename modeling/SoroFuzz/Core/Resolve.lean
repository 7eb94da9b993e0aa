/-
  SoroFuzz.Core.Resolve — `AddressPool::resolve` on every pool that `generate` builds
  (`auth.rs`).

  `get` takes an index modulo the pool's length and then looks it up, and Rust would panic
  in both on an empty pool. Here the pool carries that it is not; `getOrPanic` and
  `resolveOrPanic` are the same code on addresses that may be none.

  Proved:
  - `resolve_eq_firsts`: `resolve` gathers the selected addresses where they first appear.
  - `resolveOrPanic_eq`: the code that may panic computes it.
  - `resolve_generate`: so for every requested size and every selection.
-/

import SoroFuzz.Core.Command
import SoroFuzz.Lib.FirstSeen
import Mathlib.Data.List.Perm.Subperm

namespace SoroFuzz.Core

open Lib (firsts mem_firsts firsts_nodup firsts_pairwise)

namespace AddressPool

/-- `get` of a pool with these addresses. -/
def getOrPanic (addresses : List Address) (index : Nat) : Except Payload Address :=
  if addresses.length = 0 then .error (.str "attempt to calculate the remainder with a divisor of zero")
  else
    match addresses[index % addresses.length]? with
    | some addr => .ok addr
    | none =>
      .error (.string ("index out of bounds: the len is " ++ toString addresses.length ++ " but the index is " ++
        toString (index % addresses.length)))

/-- The loop of `resolve`, from what it has gathered. -/
def resolveOrPanic (addresses : List Address) : List UInt8 → List Address → Except Payload (List Address)
  | [], out => .ok out
  | rawIndex :: indices, out =>
    match getOrPanic addresses rawIndex.toNat with
    | .ok addr => resolveOrPanic addresses indices (if addr ∈ out then out else out ++ [addr])
    | .error e => .error e

/-! ## get -/

variable (p : AddressPool)

theorem length_pos : 0 < p.addresses.length := List.length_pos_iff.mpr p.nonempty

theorem getElem?_get (index : Nat) : p.addresses[index % p.addresses.length]? = some (p.get index) := by
  simp only [get, List.get_eq_getElem]
  exact List.getElem?_eq_getElem _

theorem getOrPanic_eq (index : Nat) : getOrPanic p.addresses index = .ok (p.get index) := by
  rw [getOrPanic, if_neg (Nat.ne_of_gt p.length_pos), p.getElem?_get]

theorem get_mem (index : Nat) : p.get index ∈ p.addresses := List.get_mem _ _

/-! ## resolve -/

/-- The addresses that the raw indices stand for, repetitions included. -/
def selected (s : AuthSelection) : List Address := s.indices.map fun i => p.get i.toNat

variable (s : AuthSelection)

theorem resolve_eq_firsts : p.resolve s = firsts (p.selected s) := by
  simp only [resolve, firsts, selected, List.foldl_map]

theorem mem_selected {a : Address} : a ∈ p.selected s ↔
    ∃ i ∈ s.indices, p.addresses[i.toNat % p.addresses.length]? = some a := by
  simp only [selected, List.mem_map, p.getElem?_get, Option.some.injEq]

theorem resolve_length_le : (p.resolve s).length ≤ p.addresses.length := by
  rw [resolve_eq_firsts]
  -- no repetition, and nothing from outside the pool
  refine ((firsts_nodup _).subperm fun a ha => ?_).length_le
  obtain ⟨i, -, rfl⟩ := List.mem_map.mp (mem_firsts.mp ha)
  exact p.get_mem _

theorem resolveOrPanic_loop (indices : List UInt8) (out : List Address) :
    resolveOrPanic p.addresses indices out =
      .ok (indices.foldl (fun out i => if p.get i.toNat ∈ out then out else out ++ [p.get i.toNat]) out) := by
  induction indices generalizing out with
  | nil => rfl
  | cons i indices ih =>
    simp only [resolveOrPanic, getOrPanic_eq, List.foldl_cons]
    exact ih _

theorem resolveOrPanic_eq : resolveOrPanic p.addresses s.indices [] = .ok (p.resolve s) :=
  p.resolveOrPanic_loop s.indices []

/-- Of a generated pool, `resolve` never panics; its result has no duplicate and at most
    as many addresses as the pool; it has exactly the addresses that some raw index stands
    for, in the order in which they first appear among them. -/
theorem resolve_generate {S : Type} (env : Env S) (size : Nat) (s : AuthSelection) :
    let pool := (generate env size).1
    resolveOrPanic pool.addresses s.indices [] = .ok (pool.resolve s) ∧
      (pool.resolve s).Nodup ∧
      (pool.resolve s).length ≤ pool.addresses.length ∧
      (∀ a, a ∈ pool.resolve s ↔ ∃ i ∈ s.indices, pool.addresses[i.toNat % pool.addresses.length]? = some a) ∧
      (pool.resolve s).Pairwise fun a b => (pool.selected s).idxOf a < (pool.selected s).idxOf b := by
  intro pool
  refine ⟨pool.resolveOrPanic_eq s, ?_, pool.resolve_length_le s, fun a => ?_, ?_⟩
  · rw [resolve_eq_firsts]
    exact firsts_nodup _
  · rw [resolve_eq_firsts, mem_firsts, mem_selected]
  · rw [resolve_eq_firsts]
    exact firsts_pairwise _

end AddressPool

end SoroFuzz.Core
