/-
  SoroFuzz.Core.Host — the contract host a harness runs in: the `Env` of one test, what a
  contract function may do in it, and how the generated `try_*` clients report it.

  One contract is registered in an `Env`; `Storage` is its storage. `require_auth` passes
  exactly when the address was mocked for the invocation that runs (`mock_auths`). A call
  that fails leaves the storage as it was before it (`invoke`). The client's `Result`
  loses information (`encode`): a failed `require_auth` and a panic are both an `Abort`.
-/

import SoroFuzz.Lib.SInt

namespace SoroFuzz.Core

open Lib (I128 I64)

/-- Addresses, in the order the `Env` generates them. -/
abbrev Address := Nat

/-- A contract function's argument, as passed to the host. -/
inductive Val where
  | address (a : Address)
  | i128 (x : I128)
  | i64 (x : I64)
  deriving DecidableEq, Repr

structure MockAuthInvoke where
  contract : Address
  fnName : String
  args : List Val
  deriving DecidableEq, Repr

structure MockAuth where
  address : Address
  invoke : MockAuthInvoke
  deriving DecidableEq, Repr

structure Env (Storage : Type) where
  /-- Seconds; a u64. -/
  timestamp : Nat
  /-- The next address `Address::generate` or `register` hands out. -/
  nextAddress : Address
  auths : List MockAuth
  storage : Storage

def u64Max : Nat := 2 ^ 64 - 1

/-- `now.saturating_add(secs as u64)`. -/
def saturatingAdd (now secs : Nat) : Nat := min (now + secs) u64Max

theorem le_saturatingAdd {now : Nat} (h : now ≤ u64Max) (secs : Nat) : now ≤ saturatingAdd now secs :=
  le_min (Nat.le_add_right now secs) h

theorem saturatingAdd_le (now secs : Nat) : saturatingAdd now secs ≤ u64Max := min_le_right _ _

namespace Env

variable {S : Type}

/-- `Env::default()`, before any contract is registered. -/
def default (empty : S) : Env S := ⟨0, 0, [], empty⟩

def generateAddress (env : Env S) : Address × Env S :=
    (env.nextAddress, { env with nextAddress := env.nextAddress + 1 })

def mockAuths (env : Env S) (auths : List MockAuth) : Env S := { env with auths }

/-- Whom the mocked authorizations let act in `invoke`. -/
def authorizes (env : Env S) (invoke : MockAuthInvoke) (a : Address) : Bool := env.auths.any (· = ⟨a, invoke⟩)

/-- `env.ledger().set_timestamp(now.saturating_add(secs))`, for a step that advances time. -/
def advance (env : Env S) : Option UInt32 → Env S
  | some secs => { env with timestamp := saturatingAdd env.timestamp secs.toNat }
  | none => env

@[simp] theorem advance_storage (env : Env S) (secs : Option UInt32) : (env.advance secs).storage = env.storage := by
  cases secs <;> rfl

theorem advance_timestamp {env : Env S} (h : env.timestamp ≤ u64Max) (secs : Option UInt32) :
    env.timestamp ≤ (env.advance secs).timestamp ∧ (env.advance secs).timestamp ≤ u64Max := by
  cases secs with
  | none => exact ⟨le_refl _, h⟩
  | some secs => exact ⟨le_saturatingAdd h _, saturatingAdd_le _ _⟩

end Env

/-! ## Contract calls -/

/-- How a contract call ends when it does not return. -/
inductive Fault (E : Type) where
  | declared (e : E)
  | authFailed
  | panicked
  /-- `panic_with_error!` with a code the contract does not declare. -/
  | undeclared (code : UInt32)
  deriving DecidableEq, Repr

/-- How a contract call ends. -/
abbrev CallEnd (T E : Type) := Except (Fault E) T

inductive InvokeError where
  | abort
  | contract (code : UInt32)
  deriving DecidableEq, Repr

/-- `{:?}` of an `InvokeError`. -/
def InvokeError.debug : InvokeError → String
  | .abort => "Abort"
  | .contract code => "Contract(" ++ toString code.toNat ++ ")"

/-- What a generated `try_*` client method returns:
    `Result<Result<T, ConvErr>, Result<E, InvokeError>>`. -/
abbrev TryResult (T ConvErr E : Type) := Except (Except InvokeError E) (Except ConvErr T)

def encode {T ConvErr E : Type} : CallEnd T E → TryResult T ConvErr E
  | .ok t => .ok (.ok t)
  | .error (.declared e) => .error (.ok e)
  | .error .authFailed => .error (.error .abort)
  | .error .panicked => .error (.error .abort)
  | .error (.undeclared code) => .error (.error (.contract code))

/-- The body of a contract function: it reads and writes storage until it returns or fails. -/
def Exec (S E T : Type) := S → CallEnd T E × S

namespace Exec

variable {S E T U : Type}

instance : Monad (Exec S E) where
  pure t s := (.ok t, s)
  bind m f s :=
    match m s with
    | (.ok t, s) => f t s
    | (.error e, s) => (.error e, s)

def fail (f : Fault E) : Exec S E T := fun s => (.error f, s)
def get : Exec S E S := fun s => (.ok s, s)
def modify (f : S → S) : Exec S E Unit := fun s => (.ok (), f s)

/-- `if cond { return Err(e); }` -/
def failIf (cond : Bool) (e : E) : Exec S E Unit := if cond then fail (.declared e) else pure ()

/-- `.ok_or(e)?` -/
def okOr (o : Option T) (e : E) : Exec S E T :=
  match o with
  | some t => pure t
  | none => fail (.declared e)

def unwrap (o : Option T) : Exec S E T :=
  match o with
  | some t => pure t
  | none => fail .panicked

def requireAuth (auth : Address → Bool) (a : Address) : Exec S E Unit := if auth a then pure () else fail .authFailed

/-- The call as the host makes it: a failure rolls the storage back. -/
def invoke (m : Exec S E T) (s : S) : CallEnd T E × S :=
  match m s with
  | (.ok t, s') => (.ok t, s')
  | (.error f, _) => (.error f, s)

@[simp] theorem pure_apply (t : T) (s : S) : (pure t : Exec S E T) s = (.ok t, s) := rfl

theorem bind_apply (m : Exec S E T) (f : T → Exec S E U) (s : S) : (m >>= f) s =
    match m s with
    | (.ok t, s) => f t s
    | (.error e, s) => (.error e, s) := rfl

section binds
variable (f : Unit → Exec S E U) (g : T → Exec S E U) (s : S)

@[simp] theorem get_bind (f : S → Exec S E U) : (get >>= f) s = f s s := rfl

@[simp] theorem modify_bind (m : S → S) : (modify m >>= f) s = f () (m s) := rfl

@[simp] theorem modify_apply (m : S → S) : (modify m : Exec S E Unit) s = (.ok (), m s) := rfl

@[simp] theorem failIf_bind (c : Bool) (e : E) :
    (failIf c e >>= f) s = if c then (.error (.declared e), s) else f () s := by
  cases c <;> rfl

@[simp] theorem okOr_bind (o : Option T) (e : E) : (okOr o e >>= g) s =
    match o with
    | some t => g t s
    | none => (.error (.declared e), s) := by
  cases o <;> rfl

@[simp] theorem unwrap_bind (o : Option T) : (unwrap o >>= g) s =
    match o with
    | some t => g t s
    | none => (.error .panicked, s) := by
  cases o <;> rfl

@[simp] theorem requireAuth_bind (auth : Address → Bool) (a : Address) :
    (requireAuth auth a >>= f) s = if auth a then f () s else (.error .authFailed, s) := by
  rw [bind_apply, requireAuth]
  cases auth a <;> rfl

end binds

theorem invoke_ok {m : Exec S E T} {s s' : S} {t : T} (h : m s = (.ok t, s')) : invoke m s = (.ok t, s') := by
  simp only [invoke, h]

theorem invoke_error {m : Exec S E T} {s s' : S} {f : Fault E} (h : m s = (.error f, s')) :
    invoke m s = (.error f, s) := by
  simp only [invoke, h]

end Exec

end SoroFuzz.Core
