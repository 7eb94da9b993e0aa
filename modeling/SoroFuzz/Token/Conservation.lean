/-
  SoroFuzz.Token.Conservation — whether the balances the token holds add up to its supply.

  Proved:
  - `drift_invoke`: a call changes the gap between the two by what it inflates, and only
    a transfer from an address to itself inflates.
  - `conserved_iff`: the balances of every state of a run add up to the supply, none of
    them negative, exactly when no call of the run inflates.
  - `conserved_self_transfer`: a transfer of 50 from an address to itself.
-/

import SoroFuzz.Token.Contract

namespace SoroFuzz.Token

open SoroFuzz.Core
open Lib (I128 Ledger)

/-- Nothing is created or destroyed outside `mint` and `burn`. -/
structure Conserved (s : Storage) : Prop where
  total : ∑ᶠ a, (balance s a).val = (totalSupply s).val
  nonneg : ∀ a, 0 ≤ (balance s a).val

/-- The storage after the calls, each with those who authorize it. -/
def runCalls (s : Storage) (calls : List (Call × (Address → Bool))) : Storage :=
  calls.foldl (fun s c => (c.1.invoke c.2 s).2) s

/-- A transfer of a positive amount from an address to itself, authorized, covered by the
    balance, and small enough that the balance plus the amount is an i128. -/
def Inflates (auth : Address → Bool) (c : Call) (s : Storage) : Prop :=
  match c with
  | .transfer from_ to_ amount =>
    from_ = to_ ∧ auth from_ = true ∧ 0 < amount.val ∧ amount.val ≤ (balance s from_).val ∧
      (balance s from_).val + amount.val < 2 ^ 127
  | _ => False

instance (auth : Address → Bool) (c : Call) (s : Storage) : Decidable (Inflates auth c s) := by
  cases c <;> unfold Inflates <;> infer_instance

variable {auth : Address → Bool} {c : Call} {s : Storage}

theorem inflates_iff : Inflates auth c s ↔ c.selfTransfer ≠ none ∧ 0 < c.amount.val ∧ c.Succeeds auth s := by
  cases c with
  | mint | burn => simp [Inflates, Call.selfTransfer]
  | transfer from_ to_ amount =>
    simp only [Inflates, Call.selfTransfer, Call.amount]
    constructor
    · intro h
      obtain ⟨rfl, hauth, hpos, hle, hlt⟩ := h
      exact ⟨by simp, hpos, le_of_lt hpos, ⟨from_, rfl, hauth⟩, hle, hlt⟩
    · intro h
      obtain ⟨hself, hpos, -, ⟨a, ha, hauth⟩, hle, hlt⟩ := h
      simp only [ne_eq, ite_eq_right_iff, reduceCtorEq, imp_false, not_not] at hself
      subst hself
      cases ha
      exact ⟨rfl, hauth, hpos, hle, hlt⟩

theorem total_ledger (s : Storage) : s.ledger.total = ∑ᶠ a, (balance s a).val := by
  rw [Ledger.total_eq_finsum]
  exact finsum_congr (ledger_apply s)

/-- What the balances add up to, less the supply. -/
noncomputable def drift (s : Storage) : ℤ := s.ledger.total - (totalSupply s).val

theorem total_effect (l : Ledger Address) (c : Call) :
    (c.effect l).total = l.total + c.issued + if c.selfTransfer = none then 0 else c.amount.val := by
  cases c with
  | mint | burn => simp [Call.effect, Call.selfTransfer, total_post]
  | transfer from_ to_ amount =>
    by_cases h : from_ = to_ <;> simp [Call.effect, Call.selfTransfer, h, total_post, Call.issued]

open Classical in
theorem drift_invoke : drift (c.invoke auth s).2 = drift s + if Inflates auth c s then c.amount.val else 0 := by
  by_cases h : c.Succeeds auth s
  · obtain ⟨-, hd⟩ := invoke_ok h
    rw [drift, drift, hd.ledger, hd.supply, total_effect]
    have hnn := h.nonneg
    by_cases hself : c.selfTransfer = none
    · simp [hself, inflates_iff]
    · by_cases hpos : 0 < c.amount.val
      · rw [if_neg hself, if_pos (inflates_iff.mpr ⟨hself, hpos, h⟩)]; omega
      · rw [if_neg hself, if_neg (fun hi => hpos (inflates_iff.mp hi).2.1)]; omega
  · rw [(invoke_refused h).1, if_neg (fun hi => h (inflates_iff.mp hi).2.2), add_zero]

/-- No call leaves a negative balance. -/
theorem nonneg_invoke (hnn : ∀ a, 0 ≤ (balance s a).val) (a : Address) : 0 ≤ (balance (c.invoke auth s).2 a).val := by
  by_cases h : c.Succeeds auth s
  · obtain ⟨-, hd⟩ := invoke_ok h
    have hpos := h.nonneg
    have ham := h.amounts
    have ha := hnn a
    rw [← ledger_apply, hd.ledger]
    cases c with
    | mint to_ amount =>
      simp only [Call.amount] at hpos
      simp only [Call.effect, Call.selfTransfer, Call.post, Ledger.deposit_apply, ledger_apply]
      split <;> omega
    | burn from_ amount =>
      obtain ⟨hle, -⟩ := ham
      simp only [Call.effect, Call.selfTransfer, Call.post, Ledger.withdraw_apply, ledger_apply]
      split
      · rename_i e; subst e; omega
      · exact ha
    | transfer from_ to_ amount =>
      obtain ⟨hle, -⟩ := ham
      simp only [Call.amount] at hpos
      by_cases hself : from_ = to_
      · simp only [Call.effect, Call.selfTransfer, if_pos hself, Call.amount, Ledger.deposit_apply, ledger_apply]
        split <;> omega
      · simp only [Call.effect, Call.selfTransfer, if_neg hself, Call.post, Ledger.transfer, Ledger.deposit_apply,
          Ledger.withdraw_apply, ledger_apply]
        split <;> split
        · rename_i e e'; exact absurd (e'.symm.trans e) hself
        · omega
        · rename_i e; subst e; omega
        · exact ha
  · rw [(invoke_refused h).1]; exact hnn a

theorem conserved_iff_drift : Conserved s ↔ drift s = 0 ∧ ∀ a, 0 ≤ (balance s a).val := by
  rw [drift, total_ledger, sub_eq_zero]
  exact ⟨fun h => ⟨h.total, h.nonneg⟩, fun h => ⟨h.1, h.2⟩⟩

theorem conserved_invoke (h : Conserved s) : Conserved (c.invoke auth s).2 ↔ ¬ Inflates auth c s := by
  rw [conserved_iff_drift] at h ⊢
  rw [drift_invoke, h.1, zero_add]
  constructor
  · intro hm hi
    obtain ⟨hd, -⟩ := hm
    rw [if_pos hi] at hd
    exact absurd hd (ne_of_gt (inflates_iff.mp hi).2.1)
  · intro hi
    exact ⟨if_neg hi, nonneg_invoke h.2⟩

theorem conserved_construct (admin initialHolder : Address) {initialSupply : I128} (h : 0 ≤ initialSupply.val) :
    Conserved (construct admin initialHolder initialSupply) := by
  have hl : (construct admin initialHolder initialSupply).ledger =
    (0 : Ledger Address).deposit initialHolder initialSupply.val := by
    have h0 : ∀ a, balance { Storage.empty with admin := some admin } a = 0 := fun _ => rfl
    refine Finsupp.ext fun a => ?_
    by_cases e : a = initialHolder <;> simp [construct, Ledger.deposit_apply, e, h0]
  refine conserved_iff_drift.mpr ⟨?_, fun a => ?_⟩
  · rw [drift, hl]
    simp [construct, Ledger.total, Ledger.deposit, Finsupp.degree_single]
  · rw [← ledger_apply, hl, Ledger.deposit_apply]
    split <;> simp [h]

theorem runCalls_succ {calls : List (Call × (Address → Bool))} {n : Nat} (h : calls[n]? = some (c, auth)) :
    runCalls s (calls.take (n + 1)) = (c.invoke auth (runCalls s (calls.take n))).2 := by
  rw [List.take_add_one, h, runCalls, List.foldl_append]
  rfl

theorem conserved_iff (admin initialHolder : Address) (initialSupply : I128) (h : 0 ≤ initialSupply.val)
    (calls : List (Call × (Address → Bool))) :
    (∀ n, Conserved (runCalls (construct admin initialHolder initialSupply) (calls.take n))) ↔
      ∀ n c auth, calls[n]? = some (c, auth) →
        ¬ Inflates auth c (runCalls (construct admin initialHolder initialSupply) (calls.take n)) := by
  constructor
  · intro hall n c auth hn
    have hsucc := hall (n + 1)
    rw [runCalls_succ hn] at hsucc
    exact (conserved_invoke (hall n)).mp hsucc
  · intro hno n
    induction n with
    | zero => exact conserved_construct admin initialHolder h
    | succ n ih =>
      cases hn : calls[n]? with
      | none =>
        rw [List.getElem?_eq_none_iff] at hn
        rw [List.take_of_length_le (Nat.le_succ_of_le hn)]
        rwa [List.take_of_length_le hn] at ih
      | some ca =>
        rw [runCalls_succ hn]
        exact (conserved_invoke ih).mpr (hno n ca.1 ca.2 hn)

def hundred : I128 := ⟨100, by decide, by decide⟩
def fifty : I128 := ⟨50, by decide, by decide⟩

/-- A transfer to another address, then one from an address to itself that nobody authorized. -/
theorem conserved_example : Conserved (runCalls (construct 0 1 hundred)
    ([(.transfer 1 2 fifty, fun _ => true), (.transfer 1 1 fifty, fun _ => false)].take 2)) := by
  refine (conserved_iff 0 1 hundred (by decide) _).mpr (fun n c auth hn => ?_) 2
  match n with
  | 0 => cases hn; decide
  | 1 => cases hn; decide
  | n + 2 => cases hn

theorem conserved_self_transfer : ¬ ∀ (admin initialHolder : Address) (initialSupply : I128)
    (calls : List (Call × (Address → Bool))), 0 ≤ initialSupply.val →
      Conserved (runCalls (construct admin initialHolder initialSupply) calls) := by
  intro hall
  have h0 := conserved_construct 0 1 (show 0 ≤ hundred.val by decide)
  have h1 := hall 0 1 hundred [(.transfer 1 1 fifty, fun _ => true)] (by decide)
  exact (conserved_invoke h0).mp h1 (by decide)

end SoroFuzz.Token
