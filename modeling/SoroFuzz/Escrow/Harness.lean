/-
  SoroFuzz.Escrow.Harness — the escrow's shadow model and its wiring into the harness
  (`examples/escrow/src/harness.rs`).

  The model knows neither clock nor deadline nor authorization: it follows the calls that
  succeed.

  Proved:
  - `execute_cases`: what executing a command does, and its outcome.
  - `tracks_step`: every step goes through, model and contract agree after it, and the
    clock has not gone back.
  - `escrow_never_diverges`: so it is over every run.
-/

import SoroFuzz.Core.Strategies
import SoroFuzz.Escrow.Contract

namespace SoroFuzz.Escrow

open SoroFuzz.Core

def depositorIndex : Nat := 0
def beneficiaryIndex : Nat := 1
def deadlineOffsetSecs : Nat := 1000

inductive ModelStatus where
  | empty
  | deposited
  | released
  | refunded
  deriving DecidableEq, Repr

structure EscrowModel where
  depositor : Address
  status : ModelStatus

inductive EscrowCommand where
  | deposit (amount : NonNegativeI128)
  | release
  | refund
  | advanceTime (advance : TimeAdvance)
  deriving DecidableEq, Repr

namespace EscrowCommand

def execute (command : EscrowCommand) (ctx : ExecContext) (authorizers : List Address) (env : Env Storage) :
    Except Payload Outcome × Env Storage :=
  let depositor := ctx.addresses.get depositorIndex
  match command with
  | .deposit amount =>
    let (authSatisfied, env) :=
      mockSingleAuth env ctx.contractId depositor authorizers "deposit" [.i128 amount.get]
    let (result, env) :=
      hostCall (Escrow.deposit (env.authorizes ⟨ctx.contractId, "deposit", [.i128 amount.get]⟩) amount.get) env
    (Outcome.fromTryResult Empty.elim (encode result) authSatisfied Error.code, env)
  | .release =>
    let (authSatisfied, env) := mockSingleAuth env ctx.contractId depositor authorizers "release" []
    let (result, env) := hostCall (Escrow.release (env.authorizes ⟨ctx.contractId, "release", []⟩) env.timestamp) env
    (Outcome.fromTryResult Empty.elim (encode result) authSatisfied Error.code, env)
  | .refund =>
    let (result, env) := hostCall (Escrow.refund env.timestamp) env
    (Outcome.fromTryResult Empty.elim (encode result) true Error.code, env)
  | .advanceTime advance =>
    (.ok .ok, { env with timestamp := saturatingAdd env.timestamp advance.secs.toNat })

def applyToModel (command : EscrowCommand) (model : EscrowModel) (_ : AddressPool) (outcome : Outcome) :
    Except Payload EscrowModel :=
  if !outcome.isOk then .ok model
  else
    match command with
    | .deposit _ => .ok { model with status := .deposited }
    | .release => .ok { model with status := .released }
    | .refund => .ok { model with status := .refunded }
    | .advanceTime _ => .ok model

end EscrowCommand

def setup (addresses : AddressPool) (env : Env Storage) : Address × EscrowModel × Env Storage :=
  let depositor := addresses.get depositorIndex
  let beneficiary := addresses.get beneficiaryIndex
  let deadline := saturatingAdd env.timestamp deadlineOffsetSecs
  let (contractId, env) := env.generateAddress
  (contractId, { depositor, status := .empty }, { env with storage := construct depositor beneficiary deadline })

/-- `EscrowAdapter`. -/
abbrev escrowAdapter : ContractAdapter where
  Storage := Storage
  Command := EscrowCommand
  Model := EscrowModel
  empty := Storage.empty
  setup := setup
  execute := EscrowCommand.execute
  applyToModel := EscrowCommand.applyToModel

/-- `{:?}` of a `Status`. -/
def Status.debug : Status → String
  | .empty => "Empty"
  | .deposited => "Deposited"
  | .released => "Released"
  | .refunded => "Refunded"

/-- What the model expects on chain. -/
def ModelStatus.expected : ModelStatus → Status
  | .empty => .empty
  | .deposited => .deposited
  | .released => .released
  | .refunded => .refunded

def escrowStatusMatchesModel : Invariant escrowAdapter where
  name := "escrow-status-matches-model"
  check ctx :=
    -- `client.status()` panics where `try_status` would return an error.
    match (hostCall status ctx.env).1 with
    | .error _ => .error .other
    | .ok actual =>
      let expected := ctx.model.status.expected
      if actual ≠ expected then .ok (.error {
        invariant := "escrow-status-matches-model"
        message := "on-chain status " ++ actual.debug ++ " != model status " ++ expected.debug
        stepIndex := ctx.stepIndex })
      else .ok (.ok ())

/-- The harness of `fuzz_targets/escrow_fuzz.rs` and its `proptest` mirror, with any bounds. -/
def escrowHarness (commandsPerRun addressPoolSize : Nat) : Harness escrowAdapter :=
  (((Harness.new escrowAdapter).withCommandsPerRun commandsPerRun).withAddressPoolSize addressPoolSize).withInvariant
    escrowStatusMatchesModel

/-! ## Executing a command -/

/-- The contract call the command makes, if it makes one. -/
def EscrowCommand.call : EscrowCommand → Option Call
  | .deposit amount => some (.deposit amount.get)
  | .release => some .release
  | .refund => some .refund
  | .advanceTime _ => none

/-- The status after the command succeeds. -/
def EscrowCommand.target (command : EscrowCommand) (st : Status) : Status :=
  match command.call with
  | some c => c.target
  | none => st

section execute
variable {ctx : ExecContext} {command : EscrowCommand} {authorizers : List Address} {env : Env Storage}

variable (ctx authorizers env) in
/-- A command that calls the contract: its outcome is the call's, and the clock stands still. -/
theorem execute_call {c : Call} (hc : command.call = some c) :
    (command.execute ctx authorizers env).1 =
      Outcome.fromTryResult Empty.elim
        (encode (Exec.invoke (c.run (mocked (ctx.addresses.get depositorIndex) authorizers) env.timestamp)
          env.storage).1)
        (!c.gated || mocked (ctx.addresses.get depositorIndex) authorizers (ctx.addresses.get depositorIndex))
        Error.code ∧
    (command.execute ctx authorizers env).2.storage =
      (Exec.invoke (c.run (mocked (ctx.addresses.get depositorIndex) authorizers) env.timestamp) env.storage).2 ∧
    (command.execute ctx authorizers env).2.timestamp = env.timestamp := by
  cases command with
  | deposit amount =>
    cases hc
    simp only [EscrowCommand.execute, Call.run, Call.gated, hostCall, mockSingleAuth_authorizes, mockSingleAuth_fst,
      mockSingleAuth_storage, mockSingleAuth_timestamp, mocked_self]
    exact ⟨rfl, trivial, trivial⟩
  | release =>
    cases hc
    simp only [EscrowCommand.execute, Call.run, Call.gated, hostCall, mockSingleAuth_authorizes, mockSingleAuth_fst,
      mockSingleAuth_storage, mockSingleAuth_timestamp, mocked_self]
    exact ⟨rfl, trivial, trivial⟩
  | refund =>
    cases hc
    exact ⟨rfl, rfl, rfl⟩
  | advanceTime advance => cases hc

variable (command authorizers) in
/-- What executing a command does: what it is for, or nothing; it never is a finding. -/
theorem execute_cases {deadline : Nat} {st : Status}
    (h : Holds (ctx.addresses.get depositorIndex) deadline st env.storage) :
    ∃ o, (command.execute ctx authorizers env).1 = .ok o ∧ (∀ m, o ≠ .undeclaredPanic m) ∧
      (o = .ok ∧ Holds (ctx.addresses.get depositorIndex) deadline (command.target st)
          (command.execute ctx authorizers env).2.storage ∨
        o.isOk = false ∧ (command.execute ctx authorizers env).2.storage = env.storage) := by
  cases hc : command.call with
  | none =>
    cases command with
    | advanceTime advance => exact ⟨.ok, rfl, nofun, Or.inl ⟨rfl, h⟩⟩
    | deposit | release | refund => cases hc
  | some c =>
    obtain ⟨ho, hs, -⟩ := execute_call ctx authorizers env hc
    by_cases ha : c.Allowed (mocked (ctx.addresses.get depositorIndex) authorizers (ctx.addresses.get depositorIndex))
        env.timestamp deadline st
    · rw [ho, hs, Exec.invoke_ok (run_ok h ha), EscrowCommand.target, hc]
      exact ⟨.ok, rfl, nofun, Or.inl ⟨rfl, h.effect c⟩⟩
    · obtain ⟨f, hrun, hf⟩ := run_refused h ha
      rw [ho, hs, Exec.invoke_error hrun]
      obtain ⟨o, hfo, hnok, hno⟩ := fromTryResult_expected (T := Unit) Empty.elim Error.code hf
      exact ⟨o, hfo, hno, Or.inr ⟨hnok, rfl⟩⟩

variable (ctx command authorizers) in
theorem execute_timestamp (h : env.timestamp ≤ u64Max) :
    env.timestamp ≤ (command.execute ctx authorizers env).2.timestamp ∧
      (command.execute ctx authorizers env).2.timestamp ≤ u64Max := by
  cases hc : command.call with
  | none =>
    cases command with
    | advanceTime advance => exact ⟨le_saturatingAdd h _, saturatingAdd_le _ _⟩
    | deposit | release | refund => cases hc
  | some c =>
    rw [(execute_call ctx authorizers env hc).2.2]
    exact ⟨le_refl _, h⟩

end execute

theorem apply_ok (command : EscrowCommand) (model : EscrowModel) (addresses : AddressPool) :
    ∃ model', command.applyToModel model addresses .ok = .ok model' ∧
      model'.status.expected = command.target model.status.expected := by
  cases command with
  | deposit | release | refund => exact ⟨_, rfl, rfl⟩
  | advanceTime advance => exact ⟨model, rfl, rfl⟩

theorem apply_not_ok (command : EscrowCommand) (model : EscrowModel) (addresses : AddressPool) {outcome : Outcome}
    (ho : outcome.isOk = false) : command.applyToModel model addresses outcome = .ok model := by
  simp only [EscrowCommand.applyToModel, ho, Bool.not_false, if_true]

theorem check_ok {ctx : InvariantCtx escrowAdapter} (h : ctx.env.storage.status = some ctx.model.status.expected) :
    checkAll [escrowStatusMatchesModel] ctx = .ok () := by
  have hstatus : (hostCall status ctx.env).1 = .ok ctx.model.status.expected := by
    show (Exec.invoke status ctx.env.storage).1 = _
    have hrun : status ctx.env.storage = (.ok ctx.model.status.expected, ctx.env.storage) := by
      show Exec.unwrap ctx.env.storage.status ctx.env.storage = _
      rw [h]
      rfl
    rw [Exec.invoke_ok hrun]
  refine checkAll_cons_ok ?_
  simp only [escrowStatusMatchesModel, hstatus, ne_eq, not_true_eq_false, if_false]

/-! ## Runs -/

abbrev EscrowState := State escrowAdapter

/-- What holds before every step. -/
structure Tracks (ctx : ExecContext) (deadline : Nat) (s : EscrowState) : Prop where
  holds : Holds (ctx.addresses.get depositorIndex) deadline s.model.status.expected s.env.storage
  clock : s.env.timestamp ≤ u64Max

section steps
variable {ctx : ExecContext} {deadline : Nat} {step : Step EscrowCommand} {s : EscrowState} {i : Nat}

variable (step) in
theorem executed_cases (h : Tracks ctx deadline s) :
    ∃ o, (executed ctx step s).1 = .ok o ∧ (∀ m, o ≠ .undeclaredPanic m) ∧
      (o = .ok ∧ Holds (ctx.addresses.get depositorIndex) deadline (step.command.target s.model.status.expected)
          (executed ctx step s).2.storage ∨
        o.isOk = false ∧ (executed ctx step s).2.storage = s.env.storage) := by
  have hadv : (s.env.advance step.advanceTime).storage = s.env.storage := Env.advance_storage _ _
  have hholds : Holds (ctx.addresses.get depositorIndex) deadline s.model.status.expected
      (s.env.advance step.advanceTime).storage := by rw [hadv]; exact h.holds
  have hexec := execute_cases step.command (ctx.addresses.resolve step.authorized) hholds
  rw [hadv] at hexec
  exact hexec

variable (step) in
theorem executed_timestamp (h : Tracks ctx deadline s) :
    s.env.timestamp ≤ (executed ctx step s).2.timestamp ∧ (executed ctx step s).2.timestamp ≤ u64Max := by
  obtain ⟨hle, hmax⟩ := Env.advance_timestamp h.clock step.advanceTime
  obtain ⟨hle', hmax'⟩ := execute_timestamp ctx step.command (ctx.addresses.resolve step.authorized) hmax
  exact ⟨le_trans hle hle', hmax'⟩

variable (commandsPerRun addressPoolSize : Nat)

theorem tracks_step (h : Tracks ctx deadline s) :
    ∃ s', (escrowHarness commandsPerRun addressPoolSize).step ctx i step s = .ok s' ∧ Tracks ctx deadline s' := by
  obtain ⟨o, ho, hno, hdo⟩ := executed_cases step h
  have hclock := (executed_timestamp step h).2
  have hcaught : caught (executed ctx step s).1 = o := by rw [ho]; rfl
  rw [step_of_outcome (by rw [hcaught]; exact hno), hcaught]
  rcases hdo with ⟨rfl, hh⟩ | ⟨hnok, hsame⟩
  · obtain ⟨model', hm, he⟩ := apply_ok step.command s.model ctx.addresses
    rw [← he] at hh
    refine ⟨⟨(executed ctx step s).2, model'⟩, ?_, hh, hclock⟩
    refine judge_ok hm (check_ok ?_)
    exact hh.status
  · have hh := h.holds
    rw [← hsame] at hh
    refine ⟨⟨(executed ctx step s).2, s.model⟩, ?_, hh, hclock⟩
    refine judge_ok (apply_not_ok step.command s.model ctx.addresses hnok) (check_ok ?_)
    exact hh.status

end steps

/-- What a run of the escrow shows, for the bounds of `h`. -/
structure NeverDiverges (h : Harness escrowAdapter) (r : Run EscrowCommand) : Prop where
  passes : h.run r = .ok (.ok ())
  agrees : ∀ i s, h.before r i = .ok s → s.env.storage.status = some s.model.status.expected
  quiet : ∀ i step s, h.Executes r i step s → ∀ m, caught (executed h.ctx step s).1 ≠ .undeclaredPanic m
  clock : ∀ i step s, h.Executes r i step s →
    s.env.timestamp ≤ (executed h.ctx step s).2.timestamp ∧ (executed h.ctx step s).2.timestamp ≤ u64Max

theorem escrow_never_diverges (commandsPerRun addressPoolSize : Nat) (r : Run EscrowCommand) :
    NeverDiverges (escrowHarness commandsPerRun addressPoolSize) r := by
  set h := escrowHarness commandsPerRun addressPoolSize with hh
  have h0 : Tracks h.ctx (saturatingAdd 0 deadlineOffsetSecs) h.start.2 := ⟨holds_construct _ _ _, Nat.zero_le _⟩
  obtain ⟨hrun, hall⟩ := run_of_invariant (r := r) (Tracks h.ctx (saturatingAdd 0 deadlineOffsetSecs)) h0
    fun i step s _ hs => tracks_step commandsPerRun addressPoolSize (i := i) hs
  refine ⟨hrun, fun i s hs => (hall i s hs).holds.status, fun i step s hx m hm => ?_, fun i step s hx => ?_⟩
  · obtain ⟨o, ho, hno, -⟩ := executed_cases step (hall i s hx.before)
    rw [ho] at hm
    exact hno m hm
  · exact executed_timestamp step (hall i s hx.before)

/-- A deposit, a release that comes too late, and a refund. -/
def depositThenLate : Run EscrowCommand :=
  ⟨[⟨.deposit ⟨.wrap 5, by decide, by decide⟩, ⟨[0]⟩, none⟩, ⟨.release, ⟨[0]⟩, some 1000⟩,
    ⟨.refund, ⟨[]⟩, none⟩]⟩

example : (List.range 4).map (fun i =>
    ((escrowHarness 3 4).before depositThenLate i).toOption.bind (·.env.storage.status)) =
      [some .empty, some .deposited, some .deposited, some .refunded] := rfl

end SoroFuzz.Escrow
