/-
  SoroFuzz.Core.Supply — what `SupplyConservation` decides
  (`invariants/src/supply_conservation.rs`).

  The check adds the balances up in an i128, one after the other. Whether it comes to a
  verdict is a matter of the sums on the way: they can leave the range though the whole
  sum is in it, and a build with overflow checks panics there. The harness does not catch
  a panic of a check.

  Proved:
  - `supply_decides_iff`: the check decides whether the exact sum is the supply when every
    sum on the way is an i128, and panics otherwise.
  - `unwinds_run`: that panic leaves `Harness::run`.
  - `unchecked_decides_iff`: in a build without the checks it comes to a verdict always,
    and to a wrong one when the sum misses the supply by a multiple of 2 ^ 128.
-/

import SoroFuzz.Core.Invariants

namespace SoroFuzz.Core

open Lib (I128 SInt)
open HasBalances HasTotalSupply

/-- `x` is the value of an i128. -/
def Fits (x : Int) : Prop := -2 ^ 127 ≤ x ∧ x < 2 ^ 127

section model
variable {M : Type} [HasBalances M]

/-- The exact sum of the balances of these holders. -/
def exactSum (model : M) (holders : List Address) : Int := (holders.map fun a => (balanceOf model a).val).sum

/-- Each sum on the way to the sum of all balances is an i128. -/
def PartialSumsFit (model : M) : Prop :=
  ∀ k ≤ (balanceHolders model).length, Fits (exactSum model ((balanceHolders model).take k))

/-- The check comes to a verdict, and the verdict is whether the exact sum is the supply. -/
def Decides [HasTotalSupply M] (model : M) (check : Except Payload (Except Violation Unit)) : Prop :=
  ∃ verdict, check = .ok verdict ∧
    (verdict = .ok () ↔ exactSum model (balanceHolders model) = (totalSupply model).val)

end model

/-! ## Adding up -/

theorem fits_val (x : I128) : Fits x.val := ⟨x.lower, x.upper⟩

theorem plus_error {a b : I128} (h : ¬ Fits (a.val + b.val)) : plus a b = .error addOverflow := by
  have hno : a.checkedAdd b = none := dif_neg h
  rw [plus, hno]

/-- The sum has a result when every sum on the way is in range. -/
theorem sumFrom_eq_ok {xs : List I128} {acc t : I128} : sumFrom acc xs = .ok t ↔
    (∀ k ≤ xs.length, Fits (acc.val + ((xs.take k).map (·.val)).sum)) ∧ t.val = acc.val + (xs.map (·.val)).sum := by
  induction xs generalizing acc with
  | nil =>
    constructor
    · intro hs
      cases hs
      exact ⟨fun k _ => by simpa using fits_val t, by simp⟩
    · intro hs
      rw [sumFrom, SInt.ext (a := acc) (b := t) (by simpa using hs.2.symm)]
  | cons x xs ih =>
    by_cases hx : Fits (acc.val + x.val)
    · obtain ⟨c, hc, hcv⟩ := SInt.ofInt?_of_range (w := 128) hx.1 hx.2
      have hsums : ∀ k, acc.val + (((x :: xs).take (k + 1)).map (·.val)).sum =
          c.val + ((xs.take k).map (·.val)).sum := by
        intro k
        rw [hcv, List.take_succ_cons, List.map_cons, List.sum_cons, Int.add_assoc]
      simp only [sumFrom, plus_ok.mpr hcv]
      rw [ih, List.map_cons, List.sum_cons, ← Int.add_assoc, ← hcv]
      refine and_congr_left fun _ => ⟨fun hk k hlen => ?_, fun hk k hlen => ?_⟩
      · cases k with
        | zero => simpa using fits_val acc
        | succ k =>
          rw [hsums]
          exact hk k (Nat.le_of_succ_le_succ hlen)
      · rw [← hsums]
        exact hk (k + 1) (Nat.succ_le_succ hlen)
    · simp only [sumFrom, plus_error hx]
      constructor
      · intro hs
        cases hs
      · intro hs
        exact absurd (by simpa using hs.1 1 (by simp)) hx

theorem sumFrom_error {xs : List I128} {acc : I128} {p : Payload} (h : sumFrom acc xs = .error p) :
    p = addOverflow := by
  induction xs generalizing acc with
  | nil => cases h
  | cons x xs ih =>
    simp only [sumFrom] at h
    split at h
    · exact ih h
    · rename_i p' hp
      cases h
      rw [plus] at hp
      split at hp <;> cases hp
      rfl

/-! ## The check -/

variable {A : ContractAdapter} [HasBalances A.Model] [HasTotalSupply A.Model] {ctx : InvariantCtx A}

omit [HasTotalSupply A.Model] in
/-- The sum of the balances is the exact one, when there is one. -/
theorem sum_eq_ok {model : A.Model} {t : I128} :
    sumFrom 0 ((balanceHolders model).map (balanceOf model)) = .ok t ↔
      PartialSumsFit model ∧ t.val = exactSum model (balanceHolders model) := by
  rw [sumFrom_eq_ok]
  simp [PartialSumsFit, exactSum, List.map_map, ← List.map_take, Function.comp_def]

theorem supplyConservation_unwinds {c : InvariantCtx A} (h : ¬ PartialSumsFit c.model) :
    supplyConservation.check c = .error addOverflow := by
  simp only [supplyConservation]
  split
  · rename_i p hp
    rw [sumFrom_error hp]
  · rename_i t ht
    exact absurd (sum_eq_ok.mp ht).1 h

theorem supply_decides_iff : Decides ctx.model (supplyConservation.check ctx) ↔ PartialSumsFit ctx.model := by
  constructor
  · rintro ⟨verdict, hv, -⟩
    by_contra hno
    rw [supplyConservation_unwinds hno] at hv
    cases hv
  · intro hfit
    obtain ⟨t, -, ht⟩ := SInt.ofInt?_of_range (w := 128) (hfit _ (Nat.le_refl _)).1 (hfit _ (Nat.le_refl _)).2
    rw [List.take_length] at ht
    simp only [Decides, supplyConservation, sum_eq_ok.mpr ⟨hfit, ht⟩]
    by_cases heq : t = totalSupply ctx.model
    · exact ⟨.ok (), by simp [heq], by simp [← ht, heq]⟩
    · refine ⟨_, by rw [if_pos heq], ?_⟩
      simp only [reduceCtorEq, false_iff, ← ht]
      exact fun hval => heq (SInt.ext hval)

/-- The panic of a check leaves the run. -/
theorem unwinds_run {h : Harness A} {r : Run A.Command} {i : Nat} {step : Step A.Command} {s : State A}
    {model : A.Model} (hinv : h.invariants = [supplyConservation]) (hx : h.Executes r i step s)
    (ho : ∀ m, caught (executed h.ctx step s).1 ≠ .undeclaredPanic m)
    (ha : A.applyToModel step.command s.model h.ctx.addresses (caught (executed h.ctx step s).1) = .ok model)
    (hno : ¬ PartialSumsFit model) : h.run r = .error addOverflow := by
  have hs : h.step h.ctx i step s = .error (.unwound addOverflow) := by
    rw [step_of_outcome ho, hinv]
    simp only [judge, ha, checkAll]
    rw [supplyConservation_unwinds hno]
  rw [run_of_step_error hx hs, Stop.result]

/-! ## A build without overflow checks -/

/-- `.sum()` of i128s there. -/
def sumWrapping (acc : I128) : List I128 → I128
  | [] => acc
  | x :: xs => sumWrapping (SInt.wrap (w := 127) (acc.val + x.val)) xs

def supplyConservationUnchecked : Invariant A where
  name := "supply-conservation"
  check ctx :=
    let sum := sumWrapping 0 ((balanceHolders ctx.model).map (balanceOf ctx.model))
    let total := totalSupply ctx.model
    if sum ≠ total then .ok (.error {
      invariant := "supply-conservation"
      message := "sum of balances (" ++ toString sum.val ++ ") != total supply (" ++ toString total.val ++ ")"
      stepIndex := ctx.stepIndex })
    else .ok (.ok ())

theorem sumWrapping_eq (xs : List I128) (x : Int) :
    sumWrapping (SInt.wrap (w := 127) x) xs = SInt.wrap (w := 127) (x + (xs.map (·.val)).sum) := by
  induction xs generalizing x with
  | nil => simp [sumWrapping]
  | cons y ys ih => rw [sumWrapping, SInt.wrap_add_wrap, ih, List.map_cons, List.sum_cons, Int.add_assoc]

theorem unchecked_decides_iff : Decides ctx.model (supplyConservationUnchecked.check ctx) ↔
    ((2 ^ 128 : Int) ∣ (totalSupply ctx.model).val - exactSum ctx.model (balanceHolders ctx.model) →
      exactSum ctx.model (balanceHolders ctx.model) = (totalSupply ctx.model).val) := by
  have hsum : sumWrapping 0 ((balanceHolders ctx.model).map (balanceOf ctx.model)) =
      SInt.wrap (w := 127) (exactSum ctx.model (balanceHolders ctx.model)) := by
    have h0 : SInt.wrap (w := 127) 0 = (0 : I128) := SInt.ext (SInt.wrap_val (by decide) (by decide))
    rw [← h0, sumWrapping_eq, Int.zero_add, List.map_map]
    rfl
  have hiff := SInt.wrap_eq_iff (w := 127) (x := exactSum ctx.model (balanceHolders ctx.model))
    (a := totalSupply ctx.model)
  simp only [Decides, supplyConservationUnchecked, hsum]
  by_cases heq : SInt.wrap (w := 127) (exactSum ctx.model (balanceHolders ctx.model)) = totalSupply ctx.model
  · have hd := hiff.mp heq
    constructor
    · rintro ⟨verdict, hv, hi⟩ -
      rw [if_neg (not_not.mpr heq)] at hv
      cases hv
      exact hi.mp rfl
    · exact fun himp => ⟨.ok (), if_neg (not_not.mpr heq), iff_of_true rfl (himp hd)⟩
  · have hno := mt hiff.mpr heq
    constructor
    · exact fun _ hd => absurd hd hno
    · refine fun _ => ⟨_, if_pos heq, iff_of_false (by simp) fun he => hno ?_⟩
      rw [he, Int.sub_self]
      exact Int.dvd_zero _

/-! ## A sum that leaves the range on the way -/

/-- A shadow model that lists its balances. -/
structure Book where
  balances : List (Address × I128)
  supply : I128

instance : HasBalances Book where
  balanceHolders book := book.balances.map (·.1)
  balanceOf book who := ((book.balances.find? (·.1 = who)).map (·.2)).getD 0

instance : HasTotalSupply Book := ⟨Book.supply⟩

abbrev bookkeeping : ContractAdapter where
  Storage := Unit
  Command := Unit
  Model := Book
  empty := ()
  setup _ env := (env.nextAddress, ⟨[], 0⟩, env)
  execute _ _ _ env := (.ok .ok, env)
  applyToModel _ book _ _ := .ok book

def bookCtx (book : Book) : InvariantCtx bookkeeping where
  env := Env.default ()
  contractId := 0
  model := book
  command := ()
  lastOutcome := .ok
  authorizers := []
  addresses := ⟨[0], by decide⟩
  stepIndex := 0

def i128Max : I128 := ⟨2 ^ 127 - 1, by decide, by decide⟩
def plusTwo : I128 := ⟨2, by decide, by decide⟩
def minusTwo : I128 := ⟨-2, by decide, by decide⟩

/-- The largest balance there is, two more, and two less: their sum is the supply. -/
def overdrawn : Book := ⟨[(0, i128Max), (1, plusTwo), (2, minusTwo)], i128Max⟩

theorem supply_decides_overdrawn : (balanceHolders overdrawn).Nodup ∧
    exactSum overdrawn (balanceHolders overdrawn) = (totalSupply overdrawn).val ∧
    ¬ Decides overdrawn (supplyConservation.check (bookCtx overdrawn)) := by
  have hno : ¬ PartialSumsFit overdrawn := fun hf => absurd (hf 2 (by decide)) (by unfold Fits; decide)
  refine ⟨by decide, by decide, fun hd => ?_⟩
  obtain ⟨verdict, hv, -⟩ := hd
  have hu := supplyConservation_unwinds (A := bookkeeping) (c := bookCtx overdrawn) hno
  cases hu.symm.trans hv

end SoroFuzz.Core
