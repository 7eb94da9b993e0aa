/-
  SoroFuzz.Core.Client — how an adapter reaches its contract: the host's calls, and the
  authorization mocked for them.

  Proved:
  - `mockSingleAuth_authorizes`: `require_auth` then passes for the signer, if the step
    authorized it, and for nobody else.
  - `fromTryResult_expected`: a failure that is declared, or that withheld authorization
    explains, is neither `Ok` nor a finding.
-/

import SoroFuzz.Core.Harness

namespace SoroFuzz.Core

/-- A contract function called by the host. -/
def hostCall {S E T : Type} (m : Exec S E T) (env : Env S) : CallEnd T E × Env S :=
  ((Exec.invoke m env.storage).1, { env with storage := (Exec.invoke m env.storage).2 })

/-- `mock_single_auth`, which the token and escrow adapters define alike. -/
def mockSingleAuth {S : Type} (env : Env S) (contractId signer : Address) (authorizers : List Address) (fnName : String)
    (args : List Val) : Bool × Env S :=
  let satisfied := decide (signer ∈ authorizers)
  if satisfied then (satisfied, env.mockAuths [⟨signer, ⟨contractId, fnName, args⟩⟩])
  else (satisfied, env.mockAuths [])

/-- Whom `require_auth` lets pass: the signer, if the step authorized it. -/
def mocked (signer : Address) (authorizers : List Address) (a : Address) : Bool :=
  decide (signer ∈ authorizers) && decide (a = signer)

section mocks
variable {S : Type} (env : Env S) (contractId signer : Address) (authorizers : List Address) (fnName : String)
  (args : List Val)

theorem mockSingleAuth_fst :
    (mockSingleAuth env contractId signer authorizers fnName args).1 = decide (signer ∈ authorizers) := by
  by_cases h : signer ∈ authorizers <;> simp [mockSingleAuth, h]

@[simp] theorem mockSingleAuth_storage :
    (mockSingleAuth env contractId signer authorizers fnName args).2.storage = env.storage := by
  by_cases h : signer ∈ authorizers <;> simp [mockSingleAuth, h, Env.mockAuths]

@[simp] theorem mockSingleAuth_timestamp :
    (mockSingleAuth env contractId signer authorizers fnName args).2.timestamp = env.timestamp := by
  by_cases h : signer ∈ authorizers <;> simp [mockSingleAuth, h, Env.mockAuths]

theorem mocked_self : mocked signer authorizers signer = decide (signer ∈ authorizers) := by simp [mocked]

theorem mockSingleAuth_authorizes : (mockSingleAuth env contractId signer authorizers fnName args).2.authorizes
    ⟨contractId, fnName, args⟩ = mocked signer authorizers := by
  funext a
  by_cases h : signer ∈ authorizers <;>
    simp [mockSingleAuth, h, Env.mockAuths, Env.authorizes, mocked, eq_comm]

end mocks

/-- A failure the contract declares, or that withheld authorization explains. -/
def Expected {E : Type} (satisfied : Bool) : Fault E → Prop
  | .declared _ => True
  | .authFailed => satisfied = false
  | .panicked => False
  | .undeclared _ => False

theorem fromTryResult_expected {T ConvErr E : Type} (debug : ConvErr → String) (codeOf : E → UInt32) {satisfied : Bool}
    {f : Fault E} (h : Expected satisfied f) :
    ∃ o, Outcome.fromTryResult debug (encode (.error f : CallEnd T E)) satisfied codeOf = .ok o ∧ o.isOk = false ∧
      ∀ m, o ≠ .undeclaredPanic m := by
  cases f with
  | declared e => exact ⟨_, rfl, rfl, nofun⟩
  | authFailed =>
    cases h
    exact ⟨_, rfl, rfl, nofun⟩
  | panicked => exact h.elim
  | undeclared c => exact h.elim

end SoroFuzz.Core
