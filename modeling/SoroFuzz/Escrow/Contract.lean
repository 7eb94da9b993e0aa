/-
  SoroFuzz.Escrow.Contract — the escrow example's contract (`examples/escrow/src/lib.rs`).

  A call is in order when it comes at its place in the lifecycle, on its side of the
  deadline and with the depositor's authorization if it is gated (`Call.Allowed`).

  Proved:
  - `run_ok`: a call in order does what it is for (`Call.effect`).
  - `run_refused`: any other fails before it writes, as the contract declares or for want
    of the depositor's authorization.
-/

import SoroFuzz.Core.Client

namespace SoroFuzz.Escrow

open SoroFuzz.Core
open Lib (I128)

inductive Error where
  | alreadyDeposited
  | notDeposited
  | notYetExpired
  | alreadyExpired
  deriving DecidableEq, Repr

/-- `e as u32`. -/
def Error.code : Error → UInt32
  | .alreadyDeposited => 1
  | .notDeposited => 2
  | .notYetExpired => 3
  | .alreadyExpired => 4

inductive Status where
  | empty
  | deposited
  | released
  | refunded
  deriving DecidableEq, Repr

/-- The instance storage, by key. -/
structure Storage where
  depositor : Option Address
  beneficiary : Option Address
  /-- Seconds; a u64. -/
  deadline : Option Nat
  status : Option Status
  amount : Option I128

def Storage.empty : Storage := ⟨none, none, none, none, none⟩

/-- `__constructor`. -/
def construct (depositor beneficiary : Address) (deadline : Nat) : Storage :=
  ⟨some depositor, some beneficiary, some deadline, some .empty, some 0⟩

def Storage.setStatus (s : Storage) (status : Status) : Storage := { s with status := some status }

def Storage.setAmount (s : Storage) (amount : I128) : Storage := { s with amount := some amount }

/-- `auth` is whom `require_auth` lets pass in this call. -/
def deposit (auth : Address → Bool) (amount : I128) : Exec Storage Error Unit := do
  let depositor ← Exec.unwrap (← Exec.get).depositor
  Exec.requireAuth auth depositor
  let status ← Exec.unwrap (← Exec.get).status
  Exec.failIf (status ≠ .empty) .alreadyDeposited
  Exec.modify (·.setAmount amount)
  Exec.modify (·.setStatus .deposited)

/-- `now` is the ledger's timestamp. -/
def release (auth : Address → Bool) (now : Nat) : Exec Storage Error Unit := do
  let depositor ← Exec.unwrap (← Exec.get).depositor
  Exec.requireAuth auth depositor
  let status ← Exec.unwrap (← Exec.get).status
  Exec.failIf (status ≠ .deposited) .notDeposited
  let deadline ← Exec.unwrap (← Exec.get).deadline
  Exec.failIf (now ≥ deadline) .alreadyExpired
  Exec.modify (·.setStatus .released)

def refund (now : Nat) : Exec Storage Error Unit := do
  let status ← Exec.unwrap (← Exec.get).status
  Exec.failIf (status ≠ .deposited) .notDeposited
  let deadline ← Exec.unwrap (← Exec.get).deadline
  Exec.failIf (now < deadline) .notYetExpired
  Exec.modify (·.setStatus .refunded)

/-- `EscrowContract::status`. -/
def status : Exec Storage Error Status := do
  Exec.unwrap (← Exec.get).status

/-! ## Any call -/

inductive Call where
  | deposit (amount : I128)
  | release
  | refund
  deriving DecidableEq, Repr

def Call.run (auth : Address → Bool) (now : Nat) : Call → Exec Storage Error Unit
  | .deposit amount => Escrow.deposit auth amount
  | .release => Escrow.release auth now
  | .refund => Escrow.refund now

/-- The call needs the depositor's authorization. -/
def Call.gated : Call → Bool
  | .deposit _ => true
  | .release => true
  | .refund => false

/-- The call's place in the lifecycle. -/
def Call.source : Call → Status
  | .deposit _ => .empty
  | .release => .deposited
  | .refund => .deposited

def Call.target : Call → Status
  | .deposit _ => .deposited
  | .release => .released
  | .refund => .refunded

/-- The call's side of the deadline. -/
def Call.Timely (now deadline : Nat) : Call → Prop
  | .deposit _ => True
  | .release => now < deadline
  | .refund => deadline ≤ now

structure Call.Allowed (c : Call) (authorized : Bool) (now deadline : Nat) (status : Status) : Prop where
  auth : c.gated = true → authorized = true
  status : status = c.source
  time : c.Timely now deadline

/-- What the call is for. -/
def Call.effect (s : Storage) : Call → Storage
  | .deposit amount => (s.setAmount amount).setStatus .deposited
  | .release => s.setStatus .released
  | .refund => s.setStatus .refunded

/-- The escrow's terms and its status, in the contract's storage. -/
structure Holds (depositor : Address) (deadline : Nat) (status : Status) (s : Storage) : Prop where
  depositor : s.depositor = some depositor
  deadline : s.deadline = some deadline
  status : s.status = some status

variable {auth : Address → Bool} {now deadline : Nat} {depositor : Address} {st : Status} {s : Storage} {c : Call}

theorem holds_construct (depositor beneficiary : Address) (deadline : Nat) :
    Holds depositor deadline .empty (construct depositor beneficiary deadline) := ⟨rfl, rfl, rfl⟩

theorem Holds.effect (h : Holds depositor deadline st s) (c : Call) :
    Holds depositor deadline c.target (c.effect s) := by
  cases c with
  | deposit amount => exact ⟨h.depositor, h.deadline, rfl⟩
  | release => exact ⟨h.depositor, h.deadline, rfl⟩
  | refund => exact ⟨h.depositor, h.deadline, rfl⟩

theorem run_ok (h : Holds depositor deadline st s) (ha : c.Allowed (auth depositor) now deadline st) :
    c.run auth now s = (.ok (), c.effect s) := by
  obtain ⟨hauth, hst, ht⟩ := ha
  subst hst
  cases c with
  | deposit amount => simp [Call.run, deposit, h.depositor, h.status, hauth rfl, Call.source, Call.effect]
  | release =>
    have hbefore : ¬ deadline ≤ now := Nat.not_le.mpr ht
    simp [Call.run, release, h.depositor, h.status, h.deadline, hauth rfl, Call.source, Call.effect, hbefore]
  | refund =>
    have hafter : ¬ now < deadline := Nat.not_lt.mpr ht
    simp [Call.run, refund, h.status, h.deadline, Call.source, Call.effect, hafter]

theorem run_refused (h : Holds depositor deadline st s) (ha : ¬ c.Allowed (auth depositor) now deadline st) :
    ∃ f, c.run auth now s = (.error f, s) ∧ Expected (!c.gated || auth depositor) f := by
  by_cases hauth : c.gated = true → auth depositor = true
  · by_cases hst : st = c.source
    · have ht : ¬ c.Timely now deadline := fun ht => ha ⟨hauth, hst, ht⟩
      subst hst
      cases c with
      | deposit amount => exact absurd trivial ht
      | release =>
        have hafter : deadline ≤ now := Nat.not_lt.mp ht
        exact ⟨.declared .alreadyExpired, by
          simp [Call.run, release, h.depositor, h.status, h.deadline, hauth rfl, Call.source, hafter], trivial⟩
      | refund =>
        have hbefore : now < deadline := Nat.not_le.mp ht
        exact ⟨.declared .notYetExpired, by
          simp [Call.run, refund, h.status, h.deadline, Call.source, hbefore], trivial⟩
    · cases c with
      | deposit amount =>
        exact ⟨.declared .alreadyDeposited, by
          simp [Call.run, deposit, h.depositor, h.status, hauth rfl, show st ≠ .empty from hst], trivial⟩
      | release =>
        exact ⟨.declared .notDeposited, by
          simp [Call.run, release, h.depositor, h.status, hauth rfl, show st ≠ .deposited from hst], trivial⟩
      | refund =>
        exact ⟨.declared .notDeposited, by simp [Call.run, refund, h.status, show st ≠ .deposited from hst], trivial⟩
  · have hno : auth depositor = false := by
      by_contra hyes
      exact hauth fun _ => by simpa using hyes
    cases c with
    | deposit amount => exact ⟨.authFailed, by simp [Call.run, deposit, h.depositor, hno], hno⟩
    | release => exact ⟨.authFailed, by simp [Call.run, release, h.depositor, hno], hno⟩
    | refund => exact absurd nofun hauth

end SoroFuzz.Escrow
