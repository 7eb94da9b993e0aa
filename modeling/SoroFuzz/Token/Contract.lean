/-
  SoroFuzz.Token.Contract — the token example's contract (`examples/token/src/lib.rs`).

  What a token is for is `Call.post`: a ledger of accounts on which a mint deposits, a
  burn withdraws and a transfer moves. The contract's storage is such a ledger
  (`Storage.ledger`).

  Proved:
  - `mint_ok`, `mint_refused`, `burn_ok`, ...: what each function does, and when.
  - `invoke_ok`, `invoke_refused`: a call that succeeds does to the ledger what it is for,
    except that a transfer from an address to itself deposits the amount there
    (`Call.effect`): both new balances are computed before either is written, and the
    second write wins. A call that fails does nothing.
-/

import Mathlib.Data.Finsupp.AList
import SoroFuzz.Core.Host
import SoroFuzz.Lib.Ledger

namespace SoroFuzz.Token

open SoroFuzz.Core
open Lib (I128 Ledger)

inductive Error where
  | insufficientBalance
  | overflow
  | negativeAmount
  deriving DecidableEq, Repr

/-- `e as u32`. -/
def Error.code : Error → UInt32
  | .insufficientBalance => 1
  | .overflow => 2
  | .negativeAmount => 3

/-- The storage, by `DataKey`: instance storage holds `Admin` and `TotalSupply`,
    persistent storage the `Balance(Address)`s. -/
structure Storage where
  admin : Option Address
  totalSupply : Option I128
  balances : AList fun _ : Address => I128

def Storage.empty : Storage := ⟨none, none, ∅⟩

def balance (s : Storage) (id : Address) : I128 := (s.balances.lookup id).getD 0

def totalSupply (s : Storage) : I128 := s.totalSupply.getD 0

def Storage.setBalance (s : Storage) (a : Address) (x : I128) : Storage := { s with balances := s.balances.insert a x }

def Storage.setTotalSupply (s : Storage) (x : I128) : Storage := { s with totalSupply := some x }

/-- `__constructor`. -/
def construct (admin initialHolder : Address) (initialSupply : I128) : Storage :=
  ({ Storage.empty with admin := some admin }.setTotalSupply initialSupply).setBalance initialHolder initialSupply

/-- `auth` is whom `require_auth` lets pass in this call. -/
def mint (auth : Address → Bool) (to_ : Address) (amount : I128) : Exec Storage Error I128 := do
  Exec.failIf (amount.val < 0) .negativeAmount
  let admin ← Exec.unwrap (← Exec.get).admin
  Exec.requireAuth auth admin
  let newBalance ← Exec.okOr ((balance (← Exec.get) to_).checkedAdd amount) .overflow
  let supply := totalSupply (← Exec.get)
  let newSupply ← Exec.okOr (supply.checkedAdd amount) .overflow
  Exec.modify (·.setBalance to_ newBalance)
  Exec.modify (·.setTotalSupply newSupply)
  pure newBalance

def burn (auth : Address → Bool) (from_ : Address) (amount : I128) : Exec Storage Error I128 := do
  Exec.failIf (amount.val < 0) .negativeAmount
  Exec.requireAuth auth from_
  let balance := balance (← Exec.get) from_
  Exec.failIf (balance.val < amount.val) .insufficientBalance
  -- `balance - amount`: an overflow would panic.
  let newBalance ← Exec.unwrap (balance.checkedSub amount)
  let supply := totalSupply (← Exec.get)
  let newSupply ← Exec.okOr (supply.checkedSub amount) .overflow
  Exec.modify (·.setBalance from_ newBalance)
  Exec.modify (·.setTotalSupply newSupply)
  pure newBalance

def transfer (auth : Address → Bool) (from_ to_ : Address) (amount : I128) : Exec Storage Error Unit := do
  Exec.failIf (amount.val < 0) .negativeAmount
  Exec.requireAuth auth from_
  let fromBalance := balance (← Exec.get) from_
  Exec.failIf (fromBalance.val < amount.val) .insufficientBalance
  let newFromBalance ← Exec.unwrap (fromBalance.checkedSub amount)
  let newToBalance ← Exec.okOr ((balance (← Exec.get) to_).checkedAdd amount) .overflow
  Exec.modify (·.setBalance from_ newFromBalance)
  Exec.modify (·.setBalance to_ newToBalance)

/-! ## Calls -/

inductive Call where
  | mint (to_ : Address) (amount : I128)
  | burn (from_ : Address) (amount : I128)
  | transfer (from_ to_ : Address) (amount : I128)
  deriving DecidableEq, Repr

/-- The call, its returned balance dropped. -/
def Call.run (auth : Address → Bool) : Call → Exec Storage Error Unit
  | .mint to_ amount => do discard (Token.mint auth to_ amount)
  | .burn from_ amount => do discard (Token.burn auth from_ amount)
  | .transfer from_ to_ amount => Token.transfer auth from_ to_ amount

/-- Whose authorization the call needs. -/
def Call.required (s : Storage) : Call → Option Address
  | .mint _ _ => s.admin
  | .burn from_ _ => some from_
  | .transfer from_ _ _ => some from_

def Call.amount : Call → I128
  | .mint _ amount => amount
  | .burn _ amount => amount
  | .transfer _ _ amount => amount

/-- The call's authorization and amounts are in order. -/
structure Call.Succeeds (c : Call) (auth : Address → Bool) (s : Storage) : Prop where
  nonneg : 0 ≤ c.amount.val
  auth : ∃ a, c.required s = some a ∧ auth a = true
  amounts : match c with
    | .mint to_ amount => (balance s to_).val + amount.val < 2 ^ 127 ∧ (totalSupply s).val + amount.val < 2 ^ 127
    | .burn from_ amount => amount.val ≤ (balance s from_).val ∧ -2 ^ 127 ≤ (totalSupply s).val - amount.val
    | .transfer from_ to_ amount => amount.val ≤ (balance s from_).val ∧ (balance s to_).val + amount.val < 2 ^ 127

/-! ## The ledger -/

noncomputable def Storage.ledger (s : Storage) : Ledger Address := s.balances.lookupFinsupp.mapRange Lib.SInt.val rfl

@[simp] theorem ledger_apply (s : Storage) (a : Address) : s.ledger a = (balance s a).val := by
  simp [Storage.ledger, balance, AList.lookupFinsupp_apply]

@[simp] theorem balance_setBalance (s : Storage) (a b : Address) (x : I128) :
    balance (s.setBalance a x) b = if b = a then x else balance s b := by
  by_cases h : b = a
  · subst h; simp [balance, Storage.setBalance, AList.lookup_insert]
  · simp [balance, Storage.setBalance, AList.lookup_insert_ne h, h]

@[simp] theorem balance_setTotalSupply (s : Storage) (a : Address) (x : I128) :
    balance (s.setTotalSupply x) a = balance s a := rfl
@[simp] theorem totalSupply_setBalance (s : Storage) (a : Address) (x : I128) :
    totalSupply (s.setBalance a x) = totalSupply s := rfl
@[simp] theorem totalSupply_setTotalSupply (s : Storage) (x : I128) : totalSupply (s.setTotalSupply x) = x := rfl
@[simp] theorem admin_setBalance (s : Storage) (a : Address) (x : I128) : (s.setBalance a x).admin = s.admin := rfl
@[simp] theorem admin_setTotalSupply (s : Storage) (x : I128) : (s.setTotalSupply x).admin = s.admin := rfl

/-- What the call is for. -/
noncomputable def Call.post (l : Ledger Address) : Call → Ledger Address
  | .mint to_ amount => l.deposit to_ amount.val
  | .burn from_ amount => l.withdraw from_ amount.val
  | .transfer from_ to_ amount => l.transfer from_ to_ amount.val

/-- What the call issues or takes out of circulation. -/
def Call.issued : Call → Int
  | .mint _ amount => amount.val
  | .burn _ amount => -amount.val
  | .transfer _ _ _ => 0

/-- The address a transfer is both from and to. -/
def Call.selfTransfer : Call → Option Address
  | .transfer from_ to_ _ => if from_ = to_ then some from_ else none
  | _ => none

/-- What the contract does to the ledger. -/
noncomputable def Call.effect (l : Ledger Address) (c : Call) : Ledger Address :=
  match c.selfTransfer with
  | some a => l.deposit a c.amount.val
  | none => c.post l

theorem total_post (l : Ledger Address) (c : Call) : (c.post l).total = l.total + c.issued := by
  cases c <;> simp [Call.post, Call.issued]
  omega

/-! ## What each function does -/

variable {auth : Address → Bool} {s : Storage}

/-- How a call fails: with one of the contract's errors, for want of authorization, or
    before the contract was constructed. -/
def Refused (auth : Address → Bool) (required : Option Address) (f : Fault Error) : Prop :=
  match f with
  | .declared _ => True
  | .authFailed => ∃ a, required = some a ∧ auth a = false
  | .panicked => required = none
  | .undeclared _ => False

theorem discard_ok {T : Type} {m : Exec Storage Error T} {t : T} {s s' : Storage} (h : m s = (.ok t, s')) :
    (discard m) s = (.ok (), s') := by
  show (m >>= fun _ => pure ()) s = _
  rw [Exec.bind_apply, h]
  rfl

theorem discard_error {T : Type} {m : Exec Storage Error T} {f : Fault Error} {s s' : Storage}
    (h : m s = (.error f, s')) :
    (discard m) s = (.error f, s') := by
  show (m >>= fun _ => pure ()) s = _
  rw [Exec.bind_apply, h]

theorem mint_ok {to_ : Address} {amount : I128} (h : (Call.mint to_ amount).Succeeds auth s) :
    ∃ nb ns : I128, nb.val = (balance s to_).val + amount.val ∧ ns.val = (totalSupply s).val + amount.val ∧
      mint auth to_ amount s = (.ok nb, (s.setBalance to_ nb).setTotalSupply ns) := by
  obtain ⟨hnn, ⟨a, ha, hauth⟩, hb, hs⟩ := h
  have hlb := (balance s to_).lower
  have hls := (totalSupply s).lower
  simp only [Call.amount, Call.required] at hnn ha
  obtain ⟨nb, hnb, hv⟩ := Lib.SInt.ofInt?_of_range (w := 128) (x := (balance s to_).val + amount.val)
    (by omega) (by omega)
  obtain ⟨ns, hns, hw⟩ := Lib.SInt.ofInt?_of_range (w := 128) (x := (totalSupply s).val + amount.val)
    (by omega) (by omega)
  refine ⟨nb, ns, hv, hw, ?_⟩
  have hlt : ¬ amount.val < 0 := by omega
  simp [mint, hlt, ha, hauth, Lib.SInt.checkedAdd, hnb, hns]

theorem mint_refused {to_ : Address} {amount : I128} (h : ¬ (Call.mint to_ amount).Succeeds auth s) :
    ∃ f, mint auth to_ amount s = (.error f, s) ∧ Refused auth s.admin f := by
  simp only [mint, Exec.failIf_bind, Exec.get_bind, Exec.unwrap_bind, Exec.requireAuth_bind, Exec.okOr_bind]
  split
  · exact ⟨_, rfl, trivial⟩
  · rename_i hnn
    split
    · rename_i admin ha
      split
      · rename_i hauth
        split
        · rename_i nb hnb
          split
          · rename_i ns hns
            rw [Lib.SInt.checkedAdd_eq_some] at hnb hns
            have hub := nb.upper
            have hus := ns.upper
            simp only [decide_eq_true_eq, not_lt] at hnn
            exact absurd ⟨hnn, ⟨admin, ha, hauth⟩, by omega, by omega⟩ h
          · exact ⟨_, rfl, trivial⟩
        · exact ⟨_, rfl, trivial⟩
      · rename_i hauth
        exact ⟨_, rfl, admin, ha, by simpa using hauth⟩
    · rename_i ha
      exact ⟨_, rfl, ha⟩

/-- What `burn` and `transfer` begin with: `next` gets the payer's new balance. -/
def debit {T : Type} (auth : Address → Bool) (from_ : Address) (amount : I128) (next : I128 → Exec Storage Error T) :
    Exec Storage Error T := do
  Exec.failIf (amount.val < 0) .negativeAmount
  Exec.requireAuth auth from_
  let balance := balance (← Exec.get) from_
  Exec.failIf (balance.val < amount.val) .insufficientBalance
  let newBalance ← Exec.unwrap (balance.checkedSub amount)
  next newBalance

/-- What each goes on with. -/
def burnFrom (from_ : Address) (amount : I128) (newBalance : I128) : Exec Storage Error I128 := do
  let supply := totalSupply (← Exec.get)
  let newSupply ← Exec.okOr (supply.checkedSub amount) .overflow
  Exec.modify (·.setBalance from_ newBalance)
  Exec.modify (·.setTotalSupply newSupply)
  pure newBalance

def payTo (from_ to_ : Address) (amount : I128) (newFromBalance : I128) : Exec Storage Error Unit := do
  let newToBalance ← Exec.okOr ((balance (← Exec.get) to_).checkedAdd amount) .overflow
  Exec.modify (·.setBalance from_ newFromBalance)
  Exec.modify (·.setBalance to_ newToBalance)

theorem burn_eq (auth : Address → Bool) (from_ : Address) (amount : I128) :
    burn auth from_ amount = debit auth from_ amount (burnFrom from_ amount) := rfl

theorem transfer_eq (auth : Address → Bool) (from_ to_ : Address) (amount : I128) :
    transfer auth from_ to_ amount = debit auth from_ amount (payTo from_ to_ amount) := rfl

section debit
variable {T : Type} {from_ : Address} {amount : I128} (next : I128 → Exec Storage Error T)

/-- `balance - amount` does not overflow: the amount is neither negative nor more than
    the balance. -/
theorem debit_ok (hnn : 0 ≤ amount.val) (hauth : auth from_ = true) (hle : amount.val ≤ (balance s from_).val) :
    ∃ nb : I128, nb.val = (balance s from_).val - amount.val ∧ debit auth from_ amount next s = next nb s := by
  have hub := (balance s from_).upper
  obtain ⟨nb, hnb, hv⟩ := Lib.SInt.ofInt?_of_range (w := 128) (x := (balance s from_).val - amount.val)
    (by omega) (by omega)
  refine ⟨nb, hv, ?_⟩
  have hlt : ¬ amount.val < 0 := by omega
  have hcovered : ¬ (balance s from_).val < amount.val := by omega
  simp [debit, hlt, hcovered, hauth, Lib.SInt.checkedSub, hnb]

theorem debit_refused (h : ¬ (0 ≤ amount.val ∧ auth from_ = true ∧ amount.val ≤ (balance s from_).val)) :
    ∃ f, debit auth from_ amount next s = (.error f, s) ∧ Refused auth (some from_) f := by
  simp only [debit, Exec.failIf_bind, Exec.get_bind, Exec.unwrap_bind, Exec.requireAuth_bind]
  split
  · exact ⟨_, rfl, trivial⟩
  · rename_i hnn
    split
    · rename_i hauth
      split
      · exact ⟨_, rfl, trivial⟩
      · rename_i hle
        simp only [decide_eq_true_eq, not_lt] at hnn hle
        exact absurd ⟨hnn, hauth, hle⟩ h
    · rename_i hauth
      exact ⟨_, rfl, from_, rfl, by simpa using hauth⟩

end debit

theorem burn_ok {from_ : Address} {amount : I128} (h : (Call.burn from_ amount).Succeeds auth s) :
    ∃ nb ns : I128, nb.val = (balance s from_).val - amount.val ∧ ns.val = (totalSupply s).val - amount.val ∧
      burn auth from_ amount s = (.ok nb, (s.setBalance from_ nb).setTotalSupply ns) := by
  obtain ⟨hnn, ⟨a, ha, hauth⟩, hb, hs⟩ := h
  have hus := (totalSupply s).upper
  simp only [Call.amount, Call.required] at hnn ha
  cases ha
  obtain ⟨nb, hv, hdebit⟩ := debit_ok (burnFrom from_ amount) hnn hauth hb
  obtain ⟨ns, hns, hw⟩ := Lib.SInt.ofInt?_of_range (w := 128) (x := (totalSupply s).val - amount.val)
    (by omega) (by omega)
  refine ⟨nb, ns, hv, hw, ?_⟩
  rw [burn_eq, hdebit]
  simp [burnFrom, Lib.SInt.checkedSub, hns]

theorem burn_refused {from_ : Address} {amount : I128} (h : ¬ (Call.burn from_ amount).Succeeds auth s) :
    ∃ f, burn auth from_ amount s = (.error f, s) ∧ Refused auth (some from_) f := by
  by_cases hd : 0 ≤ amount.val ∧ auth from_ = true ∧ amount.val ≤ (balance s from_).val
  · obtain ⟨hnn, hauth, hle⟩ := hd
    obtain ⟨nb, -, hdebit⟩ := debit_ok (burnFrom from_ amount) hnn hauth hle
    rw [burn_eq, hdebit]
    simp only [burnFrom, Exec.get_bind, Exec.okOr_bind]
    split
    · rename_i ns hns
      rw [Lib.SInt.checkedSub_eq_some] at hns
      have hls := ns.lower
      exact absurd ⟨hnn, ⟨from_, rfl, hauth⟩, hle, by omega⟩ h
    · exact ⟨_, rfl, trivial⟩
  · exact debit_refused (burnFrom from_ amount) hd

theorem transfer_ok {from_ to_ : Address} {amount : I128} (h : (Call.transfer from_ to_ amount).Succeeds auth s) :
    ∃ nf nt : I128, nf.val = (balance s from_).val - amount.val ∧ nt.val = (balance s to_).val + amount.val ∧
      transfer auth from_ to_ amount s = (.ok (), (s.setBalance from_ nf).setBalance to_ nt) := by
  obtain ⟨hnn, ⟨a, ha, hauth⟩, hf, ht⟩ := h
  have hlt' := (balance s to_).lower
  simp only [Call.amount, Call.required] at hnn ha
  cases ha
  obtain ⟨nf, hv, hdebit⟩ := debit_ok (payTo from_ to_ amount) hnn hauth hf
  obtain ⟨nt, hnt, hw⟩ := Lib.SInt.ofInt?_of_range (w := 128) (x := (balance s to_).val + amount.val)
    (by omega) (by omega)
  refine ⟨nf, nt, hv, hw, ?_⟩
  rw [transfer_eq, hdebit]
  simp [payTo, Lib.SInt.checkedAdd, hnt]

theorem transfer_refused {from_ to_ : Address} {amount : I128}
    (h : ¬ (Call.transfer from_ to_ amount).Succeeds auth s) :
    ∃ f, transfer auth from_ to_ amount s = (.error f, s) ∧ Refused auth (some from_) f := by
  by_cases hd : 0 ≤ amount.val ∧ auth from_ = true ∧ amount.val ≤ (balance s from_).val
  · obtain ⟨hnn, hauth, hle⟩ := hd
    obtain ⟨nf, -, hdebit⟩ := debit_ok (payTo from_ to_ amount) hnn hauth hle
    rw [transfer_eq, hdebit]
    simp only [payTo, Exec.get_bind, Exec.okOr_bind]
    split
    · rename_i nt hnt
      rw [Lib.SInt.checkedAdd_eq_some] at hnt
      have hut := nt.upper
      exact absurd ⟨hnn, ⟨from_, rfl, hauth⟩, hle, by omega⟩ h
    · exact ⟨_, rfl, trivial⟩
  · exact debit_refused (payTo from_ to_ amount) hd

/-! ## Any call -/

/-- What a call that succeeds leaves. -/
structure Call.Done (c : Call) (s s' : Storage) : Prop where
  ledger : s'.ledger = c.effect s.ledger
  supply : (totalSupply s').val = (totalSupply s).val + c.issued
  admin : s'.admin = s.admin

theorem Call.Done.balance {c : Call} {s s' : Storage} (h : c.Done s s') (a : Address) :
    (balance s' a).val = c.effect s.ledger a := by
  rw [← h.ledger, ledger_apply]

theorem run_ok {c : Call} (h : c.Succeeds auth s) : ∃ s', c.run auth s = (.ok (), s') ∧ c.Done s s' := by
  cases c with
  | mint to_ amount =>
    obtain ⟨nb, ns, hnb, hns, hrun⟩ := mint_ok h
    refine ⟨_, discard_ok hrun, Finsupp.ext fun a => ?_, by simp [Call.issued, hns], by simp⟩
    by_cases e : a = to_ <;> simp [Call.effect, Call.selfTransfer, Call.post, Ledger.deposit_apply, e, hnb]
  | burn from_ amount =>
    obtain ⟨nb, ns, hnb, hns, hrun⟩ := burn_ok h
    refine ⟨_, discard_ok hrun, Finsupp.ext fun a => ?_, by simp [Call.issued, hns]; omega, by simp⟩
    by_cases e : a = from_ <;> simp [Call.effect, Call.selfTransfer, Call.post, Ledger.withdraw_apply, e, hnb]
  | transfer from_ to_ amount =>
    obtain ⟨nf, nt, hnf, hnt, hrun⟩ := transfer_ok h
    refine ⟨_, hrun, Finsupp.ext fun a => ?_, by simp [Call.issued], by simp⟩
    by_cases hself : from_ = to_
    · -- The second write wins: the deposit without the withdrawal.
      subst hself
      by_cases e : a = from_ <;> simp [Call.effect, Call.selfTransfer, Call.amount, Ledger.deposit_apply, e, hnt]
    · by_cases e : a = to_
      · subst e
        simp [Call.effect, Call.selfTransfer, hself, Call.post, Ledger.transfer, Ledger.deposit_apply,
          Ledger.withdraw_apply, Ne.symm hself, hnt]
      · by_cases e' : a = from_ <;> simp [Call.effect, Call.selfTransfer, hself, Call.post, Ledger.transfer,
          Ledger.deposit_apply, Ledger.withdraw_apply, e, e', hnf]

theorem run_refused {c : Call} (h : ¬ c.Succeeds auth s) :
    ∃ f, c.run auth s = (.error f, s) ∧ Refused auth (c.required s) f := by
  cases c with
  | mint to_ amount =>
    obtain ⟨f, hf, hr⟩ := mint_refused h
    exact ⟨f, discard_error hf, hr⟩
  | burn from_ amount =>
    obtain ⟨f, hf, hr⟩ := burn_refused h
    exact ⟨f, discard_error hf, hr⟩
  | transfer from_ to_ amount => exact transfer_refused h

/-- The call as the host makes it. -/
def Call.invoke (auth : Address → Bool) (c : Call) (s : Storage) : CallEnd Unit Error × Storage :=
  Exec.invoke (c.run auth) s

theorem invoke_ok {c : Call} (h : c.Succeeds auth s) : (c.invoke auth s).1 = .ok () ∧ c.Done s (c.invoke auth s).2 := by
  obtain ⟨s', hrun, hd⟩ := run_ok h
  rw [Call.invoke, Exec.invoke_ok hrun]
  exact ⟨rfl, hd⟩

theorem invoke_refused {c : Call} (h : ¬ c.Succeeds auth s) :
    (c.invoke auth s).2 = s ∧ ∃ f, (c.invoke auth s).1 = .error f ∧ Refused auth (c.required s) f := by
  obtain ⟨f, hrun, hr⟩ := run_refused h
  rw [Call.invoke, Exec.invoke_error hrun]
  exact ⟨rfl, f, rfl, hr⟩

end SoroFuzz.Token
