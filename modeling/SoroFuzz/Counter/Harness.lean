/-
  SoroFuzz.Counter.Harness — the counter's shadow model and its wiring into the harness
  (`examples/counter/src/harness.rs`).

  The contract fails where its count would leave the i64s; the model saturates there, but
  follows only calls that succeed.

  Proved:
  - `execute_ok`, `execute_refused`: what executing a command does, and its outcome.
  - `tracks_step`: every step goes through, and model and contract agree after it.
  - `counter_never_diverges`: so in every run they do, and it passes.
-/

import SoroFuzz.Core.Amounts
import SoroFuzz.Counter.Contract

namespace SoroFuzz.Counter

open SoroFuzz.Core
open Lib (I64 I128 SInt)

structure CounterModel where
  expectedCount : I64

abbrev SetValue := BoundedI128 (-2 ^ 63) (2 ^ 63 - 1)

/-- `x as i64`. -/
def asI64 (x : I128) : I64 := SInt.wrap (w := 63) x.val

inductive CounterCommand where
  | increment
  | decrement
  | reset
  | set (value : SetValue)
  deriving DecidableEq, Repr

/-- `mock_admin_auth`. -/
def mockAdminAuth (env : Env Storage) (contractId admin : Address) (authorizers : List Address) (fnName : String)
    (args : List Val) : Bool × Env Storage := mockSingleAuth env contractId admin authorizers fnName args

namespace CounterCommand

def execute (command : CounterCommand) (ctx : ExecContext) (authorizers : List Address) (env : Env Storage) :
    Except Payload Outcome × Env Storage :=
  let admin := ctx.addresses.get 0
  match command with
  | .increment =>
    let (result, env) := hostCall Counter.increment env
    (Outcome.fromTryResult Empty.elim (encode result) true Error.code, env)
  | .decrement =>
    let (result, env) := hostCall Counter.decrement env
    (Outcome.fromTryResult Empty.elim (encode result) true Error.code, env)
  | .reset =>
    let (authSatisfied, env) := mockAdminAuth env ctx.contractId admin authorizers "reset" []
    let (result, env) := hostCall (Counter.reset (env.authorizes ⟨ctx.contractId, "reset", []⟩)) env
    (Outcome.fromTryResult Empty.elim (encode result) authSatisfied Error.code, env)
  | .set value =>
    let value := asI64 value.get
    let (authSatisfied, env) := mockAdminAuth env ctx.contractId admin authorizers "set" [.i64 value]
    let (result, env) := hostCall (Counter.set (env.authorizes ⟨ctx.contractId, "set", [.i64 value]⟩) value) env
    (Outcome.fromTryResult Empty.elim (encode result) authSatisfied Error.code, env)

def applyToModel (command : CounterCommand) (model : CounterModel) (_ : AddressPool) (outcome : Outcome) :
    Except Payload CounterModel :=
  if !outcome.isOk then .ok model
  else
    match command with
    | .increment => .ok { expectedCount := model.expectedCount.saturatingAdd one }
    | .decrement => .ok { expectedCount := model.expectedCount.saturatingSub one }
    | .reset => .ok { expectedCount := 0 }
    | .set value => .ok { expectedCount := asI64 value.get }

end CounterCommand

def setup (addresses : AddressPool) (env : Env Storage) : Address × CounterModel × Env Storage :=
  let (contractId, env) := env.generateAddress
  (contractId, { expectedCount := 0 }, { env with storage := construct (addresses.get 0) })

/-- `CounterAdapter`. -/
abbrev counterAdapter : ContractAdapter where
  Storage := Storage
  Command := CounterCommand
  Model := CounterModel
  empty := Storage.empty
  setup := setup
  execute := CounterCommand.execute
  applyToModel := CounterCommand.applyToModel

def counterValueMatchesModel : Invariant counterAdapter where
  name := "counter-value-matches-model"
  check ctx :=
    let actual := get ctx.env.storage
    if actual ≠ ctx.model.expectedCount then .ok (.error {
      invariant := "counter-value-matches-model"
      message := "on-chain count " ++ toString actual.val ++ " != model's expected count " ++
        toString ctx.model.expectedCount.val
      stepIndex := ctx.stepIndex })
    else .ok (.ok ())

/-- The harness of `fuzz_targets/counter_fuzz.rs` and its `proptest` mirror, with any bounds. -/
def counterHarness (commandsPerRun addressPoolSize : Nat) : Harness counterAdapter :=
  (((Harness.new counterAdapter).withCommandsPerRun commandsPerRun).withAddressPoolSize addressPoolSize).withInvariant
    counterValueMatchesModel

/-! ## The cast -/

theorem asI64_val {x : I128} (hl : -2 ^ 63 ≤ x.val) (hu : x.val ≤ 2 ^ 63 - 1) : (asI64 x).val = x.val :=
  SInt.wrap_val hl (by omega)

def i64Min : I128 := ⟨-2 ^ 63, by decide, by decide⟩
def i64Max : I128 := ⟨2 ^ 63 - 1, by decide, by decide⟩

/-- Whatever the generator builds for `Set`. -/
theorem asI64_built {U : Unstructured} {v : I128} (hb : BoundedI128.Built U i64Min i64Max v) :
    (asI64 v).val = v.val := by
  obtain ⟨hl, hu⟩ := hb.inRange (by decide)
  exact asI64_val hl hu

/-! ## Executing a command -/

/-- The contract call the command makes. -/
def CounterCommand.call : CounterCommand → Call
  | .increment => .increment
  | .decrement => .decrement
  | .reset => .reset
  | .set value => .set (asI64 value.get)

section execute
variable {ctx : ExecContext} {command : CounterCommand} {authorizers : List Address} {env : Env Storage}

/-- The command's call, as `require_auth` finds the mocks. -/
def CounterCommand.result (command : CounterCommand) (ctx : ExecContext) (authorizers : List Address) (s : Storage) :
    CallEnd I64 Error × Storage :=
  Exec.invoke (command.call.run (mocked (ctx.addresses.get 0) authorizers)) s

variable (ctx command authorizers env) in
theorem execute_eq :
    (command.execute ctx authorizers env).1 =
      Outcome.fromTryResult Empty.elim (encode (command.result ctx authorizers env.storage).1)
        (!command.call.gated || mocked (ctx.addresses.get 0) authorizers (ctx.addresses.get 0)) Error.code ∧
    (command.execute ctx authorizers env).2.storage = (command.result ctx authorizers env.storage).2 := by
  cases command with
  | increment => exact ⟨rfl, rfl⟩
  | decrement => exact ⟨rfl, rfl⟩
  | reset =>
    simp only [CounterCommand.execute, CounterCommand.result, CounterCommand.call, Call.run, Call.gated, hostCall,
      mockAdminAuth, mockSingleAuth_authorizes, mockSingleAuth_fst, mockSingleAuth_storage, mocked_self]
    exact ⟨rfl, trivial⟩
  | set value =>
    simp only [CounterCommand.execute, CounterCommand.result, CounterCommand.call, Call.run, Call.gated, hostCall,
      mockAdminAuth, mockSingleAuth_authorizes, mockSingleAuth_fst, mockSingleAuth_storage, mocked_self]
    exact ⟨rfl, trivial⟩

/-- The step gives the command the authorization it needs. -/
def CounterCommand.Authorized (command : CounterCommand) (ctx : ExecContext) (authorizers : List Address) : Prop :=
  command.call.gated = true → ctx.addresses.get 0 ∈ authorizers

theorem authorized_iff : command.Authorized ctx authorizers ↔
    (command.call.gated = true → mocked (ctx.addresses.get 0) authorizers (ctx.addresses.get 0) = true) := by
  rw [mocked_self, decide_eq_true_iff]
  rfl

theorem execute_ok {v : I64} (ha : env.storage.admin = some (ctx.addresses.get 0))
    (hauth : command.Authorized ctx authorizers) (hv : v.val = command.call.target (get env.storage).val) :
    (command.execute ctx authorizers env).1 = .ok .ok ∧
      (command.execute ctx authorizers env).2.storage = env.storage.setCount v := by
  obtain ⟨ho, hs⟩ := execute_eq ctx command authorizers env
  rw [ho, hs, CounterCommand.result, Exec.invoke_ok (run_ok ha (authorized_iff.mp hauth) hv)]
  exact ⟨rfl, rfl⟩

theorem execute_refused (ha : env.storage.admin = some (ctx.addresses.get 0))
    (h : ¬ (command.Authorized ctx authorizers ∧ ∃ v : I64, v.val = command.call.target (get env.storage).val)) :
    (command.execute ctx authorizers env).2.storage = env.storage ∧
    ∃ o, (command.execute ctx authorizers env).1 = .ok o ∧ o.isOk = false ∧ ∀ m, o ≠ .undeclaredPanic m := by
  obtain ⟨ho, hs⟩ := execute_eq ctx command authorizers env
  rw [authorized_iff] at h
  obtain ⟨f, hrun, hf⟩ := run_refused ha h
  rw [ho, hs, CounterCommand.result, Exec.invoke_error hrun]
  exact ⟨rfl, fromTryResult_expected Empty.elim Error.code hf⟩

end execute

/-- The model saturates only where the contract fails. -/
theorem apply_ok {command : CounterCommand} {model : CounterModel} {v : I64} (addresses : AddressPool)
    (hv : v.val = command.call.target model.expectedCount.val) :
    command.applyToModel model addresses .ok = .ok { expectedCount := v } := by
  cases command with
  | increment => exact congrArg (fun x => Except.ok (CounterModel.mk x)) (SInt.saturate_of_val hv)
  | decrement => exact congrArg (fun x => Except.ok (CounterModel.mk x)) (SInt.saturate_of_val hv)
  | reset =>
    obtain rfl : v = 0 := SInt.ext hv
    rfl
  | set value =>
    obtain rfl : v = asI64 value.get := SInt.ext hv
    rfl

theorem apply_not_ok {command : CounterCommand} {model : CounterModel} {outcome : Outcome} (addresses : AddressPool)
    (ho : outcome.isOk = false) : command.applyToModel model addresses outcome = .ok model := by
  simp only [CounterCommand.applyToModel, ho, Bool.not_false, if_true]

theorem check_ok {ctx : InvariantCtx counterAdapter} (h : ctx.model.expectedCount = get ctx.env.storage) :
    checkAll [counterValueMatchesModel] ctx = .ok () := by
  refine checkAll_cons_ok ?_
  show (if get ctx.env.storage ≠ ctx.model.expectedCount then _ else _) = _
  rw [if_neg (not_not.mpr h.symm)]

/-! ## Runs -/

abbrev CounterState := State counterAdapter

/-- What holds before every step. -/
structure Tracks (ctx : ExecContext) (s : CounterState) : Prop where
  admin : s.env.storage.admin = some (ctx.addresses.get 0)
  count : s.model.expectedCount = get s.env.storage

section steps
variable {ctx : ExecContext} {step : Step CounterCommand} {s : CounterState} {i : Nat}

variable (step) in
/-- What a step does, by whether its command is authorized and its target fits. -/
theorem executed_cases (h : Tracks ctx s) :
    (step.command.Authorized ctx (ctx.addresses.resolve step.authorized) ∧
      ∃ v : I64, v.val = step.command.call.target (get s.env.storage).val ∧ (executed ctx step s).1 = .ok .ok ∧
        (executed ctx step s).2.storage = s.env.storage.setCount v) ∨
    ((executed ctx step s).2.storage = s.env.storage ∧
      ∃ o, (executed ctx step s).1 = .ok o ∧ o.isOk = false ∧ ∀ m, o ≠ .undeclaredPanic m) := by
  have hadv : (s.env.advance step.advanceTime).storage = s.env.storage := Env.advance_storage _ _
  have hadm : (s.env.advance step.advanceTime).storage.admin = some (ctx.addresses.get 0) := by rw [hadv]; exact h.admin
  by_cases hok : step.command.Authorized ctx (ctx.addresses.resolve step.authorized) ∧
      ∃ v : I64, v.val = step.command.call.target (get s.env.storage).val
  · obtain ⟨hauth, v, hv⟩ := hok
    obtain ⟨ho, hs⟩ := execute_ok hadm hauth (by rw [hadv]; exact hv)
    rw [hadv] at hs
    exact Or.inl ⟨hauth, v, hv, ho, hs⟩
  · obtain ⟨hs, ho⟩ := execute_refused hadm (by rw [hadv]; exact hok)
    rw [hadv] at hs
    exact Or.inr ⟨hs, ho⟩

variable (commandsPerRun addressPoolSize : Nat)

theorem tracks_step (h : Tracks ctx s) :
    ∃ s', (counterHarness commandsPerRun addressPoolSize).step ctx i step s = .ok s' ∧ Tracks ctx s' := by
  rcases executed_cases step h with ⟨-, v, hv, ho, hs⟩ | ⟨hs, o, ho, hnok, hno⟩
  · have hcaught : caught (executed ctx step s).1 = .ok := by rw [ho]; rfl
    refine ⟨⟨(executed ctx step s).2, ⟨v⟩⟩, ?_, ?_, ?_⟩
    · rw [step_of_outcome (by rw [hcaught]; exact nofun), hcaught]
      refine judge_ok (apply_ok ctx.addresses (by rw [h.count]; exact hv)) (check_ok ?_)
      show v = get (executed ctx step s).2.storage
      rw [hs, get_setCount]
    · show (executed ctx step s).2.storage.admin = _
      rw [hs, admin_setCount, h.admin]
    · show v = get (executed ctx step s).2.storage
      rw [hs, get_setCount]
  · have hcaught : caught (executed ctx step s).1 = o := by rw [ho]; rfl
    refine ⟨⟨(executed ctx step s).2, s.model⟩, ?_, ?_, ?_⟩
    · rw [step_of_outcome (by rw [hcaught]; exact hno), hcaught]
      refine judge_ok (apply_not_ok ctx.addresses hnok) (check_ok ?_)
      show s.model.expectedCount = get (executed ctx step s).2.storage
      rw [hs, h.count]
    · show (executed ctx step s).2.storage.admin = _
      rw [hs, h.admin]
    · show s.model.expectedCount = get (executed ctx step s).2.storage
      rw [hs, h.count]

end steps

/-- What a run of the counter shows, for the bounds of `h`. -/
structure NeverDiverges (h : Harness counterAdapter) (r : Run CounterCommand) : Prop where
  passes : h.run r = .ok (.ok ())
  agrees : ∀ i s, h.before r i = .ok s → s.model.expectedCount = get s.env.storage
  changes : ∀ i step s, h.Executes r i step s →
    get (executed h.ctx step s).2.storage ≠ get s.env.storage → (executed h.ctx step s).1 = .ok .ok
  admin : ∀ i step s, h.Executes r i step s → (executed h.ctx step s).1 = .ok .ok →
    step.command.Authorized h.ctx (h.ctx.addresses.resolve step.authorized)

theorem counter_never_diverges (commandsPerRun addressPoolSize : Nat) (r : Run CounterCommand) :
    NeverDiverges (counterHarness commandsPerRun addressPoolSize) r ∧
    (∀ value : SetValue, (asI64 value.get).val = value.get.val) ∧
    ∀ U v, BoundedI128.Built U i64Min i64Max v → (asI64 v).val = v.val := by
  set h := counterHarness commandsPerRun addressPoolSize with hh
  obtain ⟨hrun, hall⟩ := run_of_invariant (h := h) (r := r) (Tracks h.ctx) ⟨rfl, rfl⟩
    fun i step s _ hs => tracks_step commandsPerRun addressPoolSize (i := i) hs
  refine ⟨⟨hrun, fun i s hs => (hall i s hs).count, fun i step s hx hne => ?_, fun i step s hx hok => ?_⟩,
    fun value => asI64_val value.lower value.upper, fun U v hb => asI64_built hb⟩
  · rcases executed_cases step (hall i s hx.before) with ⟨-, v, -, ho, -⟩ | ⟨hs, -⟩
    · exact ho
    · exact absurd (by rw [hs]) hne
  · rcases executed_cases step (hall i s hx.before) with ⟨hauth, -⟩ | ⟨-, o, ho, hnok, -⟩
    · exact hauth
    · rw [hok] at ho
      cases ho
      cases hnok

/-- The admin sets the count, anyone increments it, and the admin resets it. -/
def setThenReset : Run CounterCommand :=
  ⟨[⟨.set ⟨.wrap 7, by decide, by decide⟩, ⟨[0]⟩, none⟩, ⟨.increment, ⟨[]⟩, none⟩,
    ⟨.reset, ⟨[0]⟩, none⟩]⟩

example : (List.range 4).map (fun i =>
    ((counterHarness 3 4).before setThenReset i).toOption.map fun s => (get s.env.storage).val) =
      [some 0, some 7, some 8, some 0] := rfl

end SoroFuzz.Counter
