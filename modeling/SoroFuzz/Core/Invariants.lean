/-
  SoroFuzz.Core.Invariants — the shared invariants (`crates/invariants`).

  Each reads the shadow model, through the accessors its model provides.

  Proved:
  - `noNegativeBalance_ok_iff`, `authRequiredForMutation_ok_iff`: when each passes.
  - `supplyConservation_ok`: the sum of balances none of which is negative passes when it
    is the supply; it does not overflow on the way.
-/

import Mathlib.Algebra.Order.BigOperators.Group.List
import SoroFuzz.Core.Harness

namespace SoroFuzz.Core

open Lib (I128)

class HasBalances (M : Type) where
  balanceHolders : M → List Address
  balanceOf : M → Address → I128

class HasTotalSupply (M : Type) where
  totalSupply : M → I128

/-- Of a command type `C`, for an adapter with the model `M`. -/
class RequiresAuthorizer (C M : Type) where
  requiredAuthorizer : C → M → AddressPool → Option Address

open HasBalances HasTotalSupply RequiresAuthorizer

/-- The panic of an i128 `+` that overflows. -/
def addOverflow : Payload := .str "attempt to add with overflow"

/-- `a + b`, which panics on overflow. -/
def plus (a b : I128) : Except Payload I128 :=
  match a.checkedAdd b with
  | some c => .ok c
  | none => .error addOverflow

/-- `.sum()` of i128s. -/
def sumFrom (acc : I128) : List I128 → Except Payload I128
  | [] => .ok acc
  | x :: xs =>
    match plus acc x with
    | .ok acc => sumFrom acc xs
    | .error p => .error p

variable {A : ContractAdapter}

/-- `debug` is `{:?}` of an address, here and below. -/
def noNegativeBalance [HasBalances A.Model] (debug : Address → String) : Invariant A where
  name := "no-negative-balance"
  check ctx :=
    match (balanceHolders ctx.model).find? (fun holder => (balanceOf ctx.model holder).val < 0) with
    | some holder => .ok (.error {
        invariant := "no-negative-balance"
        message := "balance of " ++ debug holder ++ " went negative: " ++ toString (balanceOf ctx.model holder).val
        stepIndex := ctx.stepIndex })
    | none => .ok (.ok ())

def supplyConservation [HasBalances A.Model] [HasTotalSupply A.Model] : Invariant A where
  name := "supply-conservation"
  check ctx :=
    match sumFrom 0 ((balanceHolders ctx.model).map (balanceOf ctx.model)) with
    | .error p => .error p
    | .ok sum =>
      let total := totalSupply ctx.model
      if sum ≠ total then .ok (.error {
        invariant := "supply-conservation"
        message := "sum of balances (" ++ toString sum.val ++ ") != total supply (" ++ toString total.val ++ ")"
        stepIndex := ctx.stepIndex })
      else .ok (.ok ())

def authRequiredForMutation [RequiresAuthorizer A.Command A.Model] (debug : Address → String) : Invariant A where
  name := "auth-required-for-mutation"
  check ctx :=
    if !ctx.lastOutcome.isOk then .ok (.ok ())
    else
      match requiredAuthorizer ctx.command ctx.model ctx.addresses with
      | some required =>
        if required ∈ ctx.authorizers then .ok (.ok ())
        else .ok (.error {
          invariant := "auth-required-for-mutation"
          message := "command succeeded without authorization from required address " ++ debug required
          stepIndex := ctx.stepIndex })
      | none => .ok (.ok ())

/-! ## When they pass -/

theorem noNegativeBalance_ok_iff [HasBalances A.Model] (debug : Address → String) {ctx : InvariantCtx A} :
    (noNegativeBalance debug).check ctx = .ok (.ok ()) ↔
      ∀ a ∈ balanceHolders ctx.model, 0 ≤ (balanceOf ctx.model a).val := by
  simp only [noNegativeBalance]
  split
  · rename_i holder hf
    have hneg := List.find?_some hf
    simp only [decide_eq_true_eq] at hneg
    simp only [Except.ok.injEq, reduceCtorEq, false_iff, not_forall]
    exact ⟨holder, List.mem_of_find?_eq_some hf, by omega⟩
  · rename_i hf
    simpa using hf

/-- Otherwise it is a violation of this step. -/
theorem noNegativeBalance_error [HasBalances A.Model] (debug : Address → String) (ctx : InvariantCtx A) {a : Address}
    (ha : a ∈ balanceHolders ctx.model) (hneg : (balanceOf ctx.model a).val < 0) :
    ∃ v, (noNegativeBalance debug).check ctx = .ok (.error v) ∧ v.stepIndex = ctx.stepIndex := by
  simp only [noNegativeBalance]
  split
  · exact ⟨_, rfl, rfl⟩
  · rename_i hf
    have := List.find?_eq_none.mp hf a ha
    simp at this
    omega

theorem noNegativeBalance_invariant [HasBalances A.Model] {debug : Address → String} {ctx : InvariantCtx A} {v : Violation}
    (h : (noNegativeBalance debug).check ctx = .ok (.error v)) : v.invariant = "no-negative-balance" := by
  simp only [noNegativeBalance] at h
  split at h <;> cases h
  rfl

theorem authRequiredForMutation_invariant [RequiresAuthorizer A.Command A.Model] {debug : Address → String}
    {ctx : InvariantCtx A} {v : Violation} (h : (authRequiredForMutation debug).check ctx = .ok (.error v)) :
    v.invariant = "auth-required-for-mutation" := by
  simp only [authRequiredForMutation] at h
  split at h
  · cases h
  · split at h
    · split at h <;> cases h
      rfl
    · cases h

theorem plus_ok {a b c : I128} : plus a b = .ok c ↔ c.val = a.val + b.val := by
  rw [← Lib.SInt.checkedAdd_eq_some, plus]
  split <;> simp_all

/-- Partial sums of values none of which is negative are in range when the whole sum is. -/
theorem sumFrom_nonneg {xs : List I128} {acc t : I128} (hnn : ∀ x ∈ xs, 0 ≤ x.val)
    (ht : t.val = acc.val + (xs.map (·.val)).sum) :
    sumFrom acc xs = .ok t := by
  induction xs generalizing acc with
  | nil => rw [Lib.SInt.ext (a := t) (b := acc) (by simpa using ht)]; rfl
  | cons x xs ih =>
    have hx := hnn x List.mem_cons_self
    have hrest : 0 ≤ (xs.map (·.val)).sum := List.sum_nonneg (by
      intro y hy
      obtain ⟨z, hz, rfl⟩ := List.mem_map.mp hy
      exact hnn z (List.mem_cons_of_mem _ hz))
    have hl := acc.lower
    have hu := t.upper
    rw [List.map_cons, List.sum_cons] at ht
    obtain ⟨c, hc, hcv⟩ := Lib.SInt.ofInt?_of_range (w := 128) (x := acc.val + x.val) (by omega) (by omega)
    simp only [sumFrom, plus_ok.mpr hcv]
    exact ih (fun y hy => hnn y (List.mem_cons_of_mem _ hy)) (by omega)

theorem supplyConservation_ok [HasBalances A.Model] [HasTotalSupply A.Model] {ctx : InvariantCtx A}
    (hnn : ∀ a ∈ balanceHolders ctx.model, 0 ≤ (balanceOf ctx.model a).val)
    (hsum : (totalSupply ctx.model).val = ((balanceHolders ctx.model).map fun a => (balanceOf ctx.model a).val).sum) :
    supplyConservation.check ctx = .ok (.ok ()) := by
  have hs : sumFrom 0 ((balanceHolders ctx.model).map (balanceOf ctx.model)) = .ok (totalSupply ctx.model) := by
    refine sumFrom_nonneg (fun x hx => ?_) ?_
    · obtain ⟨a, ha, rfl⟩ := List.mem_map.mp hx
      exact hnn a ha
    · rw [List.map_map, hsum]
      simp [Function.comp_def]
  simp [supplyConservation, hs]

theorem authRequiredForMutation_ok_iff [RequiresAuthorizer A.Command A.Model] (debug : Address → String)
    {ctx : InvariantCtx A} :
    (authRequiredForMutation debug).check ctx = .ok (.ok ()) ↔ (ctx.lastOutcome.isOk = true →
      ∀ a, requiredAuthorizer ctx.command ctx.model ctx.addresses = some a → a ∈ ctx.authorizers) := by
  simp only [authRequiredForMutation]
  cases ctx.lastOutcome.isOk with
  | false => simp
  | true =>
    cases requiredAuthorizer ctx.command ctx.model ctx.addresses with
    | none => simp
    | some a => by_cases ha : a ∈ ctx.authorizers <;> simp [ha]

end SoroFuzz.Core
