/-
  SoroFuzz.Core.Command — the generated action model (`auth.rs`, `command.rs`,
  `adapter.rs`, `invariant.rs`): the address pool, what a step is, how a client's result
  is classified, and what an adapter and an invariant provide.

  A computation that may panic returns `Except Payload`: its error is the payload of the
  unwinding.

  Proved:
  - `fromTryResult_undeclaredPanic`: which endings of a call `Outcome::from_try_result`
    classifies as a finding.
-/

import SoroFuzz.Core.Host

namespace SoroFuzz.Core

/-! ## auth.rs -/

/-- Generated with at least one address. -/
structure AddressPool where
  addresses : List Address
  nonempty : addresses ≠ []

structure AuthSelection where
  indices : List UInt8
  deriving DecidableEq, Repr

namespace AddressPool

theorem generate_nonempty (start size : Nat) : List.range' start (max size 1) ≠ [] := by
  rw [← List.length_pos_iff, List.length_range']
  omega

def generate {S : Type} (env : Env S) (size : Nat) : AddressPool × Env S :=
  (⟨List.range' env.nextAddress (max size 1), generate_nonempty _ _⟩,
    { env with nextAddress := env.nextAddress + max size 1 })

def get (p : AddressPool) (index : Nat) : Address :=
  p.addresses.get ⟨index % p.addresses.length, Nat.mod_lt _ (List.length_pos_iff.mpr p.nonempty)⟩

/-- The addresses selected, deduplicated, in the order they first appear. -/
def resolve (p : AddressPool) (selection : AuthSelection) : List Address :=
  selection.indices.foldl (fun out rawIndex =>
    let addr := p.get rawIndex.toNat
    if addr ∈ out then out else out ++ [addr]) []

end AddressPool

/-! ## command.rs -/

/-- What a panic carries, as far as `panic_message` looks. -/
inductive Payload where
  | str (s : String)
  | string (s : String)
  | other
  deriving DecidableEq, Repr

def panicMessage : Payload → String
  | .str s => s
  | .string s => s
  | .other => "non-string panic payload"

inductive Outcome where
  | ok
  | declaredError (code : UInt32)
  | rejected (detail : String)
  | undeclaredPanic (message : String)
  deriving DecidableEq, Repr

def Outcome.isOk : Outcome → Bool
  | .ok => true
  | _ => false

/-- `Outcome::from_try_result`; `debug` is `{:?}` of a conversion error. -/
def Outcome.fromTryResult {T ConvErr E : Type} (debug : ConvErr → String) (result : TryResult T ConvErr E)
    (requiredAuthSatisfied : Bool) (codeOf : E → UInt32) : Except Payload Outcome :=
  match result with
  | .ok (.ok _) => .ok .ok
  | .ok (.error convErr) => .error (.string ("unexpected value conversion error: " ++ debug convErr))
  | .error (.ok e) => .ok (.declaredError (codeOf e))
  | .error (.error invokeErr) =>
    if requiredAuthSatisfied then
      .ok (.undeclaredPanic ("host aborted the call (" ++ invokeErr.debug ++ ") despite every required " ++
        "address being authorized — soroban-sdk represents both a failed " ++
        "require_auth and an undeclared contract panic as " ++
        "InvokeError::Abort, and auth was satisfied here, so this can only " ++
        "be the latter"))
    else .ok (.rejected invokeErr.debug)

structure ExecContext where
  contractId : Address
  addresses : AddressPool

structure Step (C : Type) where
  command : C
  authorized : AuthSelection
  advanceTime : Option UInt32

structure Run (C : Type) where
  steps : List (Step C)

/-! ## adapter.rs -/

/-- A contract under test. `empty` is the contract's storage before `setup` registers it. -/
structure ContractAdapter where
  Storage : Type
  Command : Type
  Model : Type
  empty : Storage
  setup : AddressPool → Env Storage → Address × Model × Env Storage
  /-- `Command::execute`; it may unwind. -/
  execute : Command → ExecContext → List Address → Env Storage → Except Payload Outcome × Env Storage
  /-- `Command::apply_to_model`; its arithmetic may overflow. -/
  applyToModel : Command → Model → AddressPool → Outcome → Except Payload Model

/-! ## invariant.rs -/

structure Violation where
  invariant : String
  message : String
  stepIndex : Nat
  deriving DecidableEq, Repr

/-- `Display for Violation`. -/
def Violation.display (v : Violation) : String :=
  "invariant `" ++ v.invariant ++ "` violated at step " ++ toString v.stepIndex ++ ": " ++ v.message

structure InvariantCtx (A : ContractAdapter) where
  env : Env A.Storage
  contractId : Address
  model : A.Model
  command : A.Command
  lastOutcome : Outcome
  authorizers : List Address
  addresses : AddressPool
  stepIndex : Nat

structure Invariant (A : ContractAdapter) where
  name : String
  check : InvariantCtx A → Except Payload (Except Violation Unit)

/-! ## Which endings are findings -/

variable {T ConvErr E : Type} {debug : ConvErr → String} {codeOf : E → UInt32}

/-- With every required address authorized, a call that fails otherwise than with a
    declared error is a finding; without, nothing is. -/
theorem fromTryResult_undeclaredPanic {e : CallEnd T E} {satisfied : Bool} :
    (∃ m, Outcome.fromTryResult debug (encode e) satisfied codeOf = .ok (.undeclaredPanic m)) ↔
      satisfied = true ∧ (e = .error .authFailed ∨ e = .error .panicked ∨ ∃ c, e = .error (.undeclared c)) := by
  cases e with
  | ok t => simp [encode, Outcome.fromTryResult]
  | error f => cases f <;> cases satisfied <;> simp [encode, Outcome.fromTryResult]

theorem fromTryResult_encode {e : CallEnd T E} {satisfied : Bool} {p : Payload} :
    Outcome.fromTryResult debug (encode e) satisfied codeOf ≠ .error p := by
  cases e with
  | ok t => simp [encode, Outcome.fromTryResult]
  | error f => cases f <;> cases satisfied <;> simp [encode, Outcome.fromTryResult]

end SoroFuzz.Core
