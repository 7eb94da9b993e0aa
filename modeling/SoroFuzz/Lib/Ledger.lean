/-
  SoroFuzz.Lib.Ledger — accounts that hold integer amounts, all but finitely many zero.

  What is deposited, withdrawn or transferred changes the total by exactly that
  (`total_deposit`, `total_withdraw`, `total_transfer`). The total is the sum over all
  accounts (`total_eq_finsum`), and over any list that names each account that is not
  empty once (`total_eq_sum`).
-/

import Mathlib.Algebra.BigOperators.Finprod
import Mathlib.Data.Finsupp.Weight

namespace SoroFuzz.Lib

abbrev Ledger (Account : Type*) := Account →₀ ℤ

namespace Ledger

variable {Account : Type*}

noncomputable def deposit (l : Ledger Account) (a : Account) (x : ℤ) : Ledger Account := l + Finsupp.single a x

noncomputable def withdraw (l : Ledger Account) (a : Account) (x : ℤ) : Ledger Account := l - Finsupp.single a x

noncomputable def transfer (l : Ledger Account) (a b : Account) (x : ℤ) : Ledger Account := (l.withdraw a x).deposit b x

noncomputable def total (l : Ledger Account) : ℤ := Finsupp.degree l

@[simp] theorem total_deposit (l : Ledger Account) (a : Account) (x : ℤ) : (l.deposit a x).total = l.total + x := by
  simp [total, deposit, Finsupp.degree_single]

@[simp] theorem total_withdraw (l : Ledger Account) (a : Account) (x : ℤ) : (l.withdraw a x).total = l.total - x := by
  simp [total, withdraw, Finsupp.degree_single]

@[simp] theorem total_transfer (l : Ledger Account) (a b : Account) (x : ℤ) : (l.transfer a b x).total = l.total := by
  simp [transfer]

theorem deposit_apply [DecidableEq Account] (l : Ledger Account) (a b : Account) (x : ℤ) :
    l.deposit a x b = if b = a then l b + x else l b := by
  by_cases h : b = a
  · subst h; simp [deposit]
  · simp [deposit, h]

theorem withdraw_apply [DecidableEq Account] (l : Ledger Account) (a b : Account) (x : ℤ) :
    l.withdraw a x b = if b = a then l b - x else l b := by
  by_cases h : b = a
  · subst h; simp [withdraw]
  · simp [withdraw, h]

/-- The total is the sum over all accounts. -/
theorem total_eq_finsum (l : Ledger Account) : l.total = ∑ᶠ a, l a := by
  rw [finsum_eq_sum_of_support_subset (s := l.support) _ (by simp)]
  rfl

/-- The total is the sum over any list without repetition that misses no account in use. -/
theorem total_eq_sum [DecidableEq Account] (l : Ledger Account) (as : List Account) (hnd : as.Nodup)
    (hall : ∀ a, l a ≠ 0 → a ∈ as) : l.total = (as.map l).sum := by
  rw [← List.sum_toFinset l hnd]
  refine Finset.sum_subset (fun a ha => ?_) (fun a _ ha => by simpa using ha)
  exact List.mem_toFinset.mpr (hall a (Finsupp.mem_support_iff.mp ha))

end Ledger

end SoroFuzz.Lib
