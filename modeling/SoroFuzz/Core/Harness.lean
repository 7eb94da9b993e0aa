/-
  SoroFuzz.Core.Harness — the run loop (`harness.rs`).

  One step advances the ledger, resolves the step's authorizers, executes the command
  (a panic is caught and becomes an `UndeclaredPanic`), updates the model and checks the
  invariants. `Stop` says why the loop stopped; `Harness.run` reports it as the source
  does, where an invariant's violation and the harness's own look alike.

  Proved:
  - `stop_undeclaredPanic_iff`: the harness's own violation comes at the step whose
    execution unwinds or yields `UndeclaredPanic`, and at no other.
  - `run_ok_iff`: a run passes when each step it reaches goes through.
  - `run_of_invariant`: it does when each step goes through from the states that have a
    property, and keeps it.
-/

import SoroFuzz.Core.Command
import SoroFuzz.Lib.Loop

namespace SoroFuzz.Core

open Lib (loop)

structure Harness (A : ContractAdapter) where
  commandsPerRun : Nat
  addressPoolSize : Nat
  invariants : List (Invariant A)

namespace Harness

variable {A : ContractAdapter}

def new (A : ContractAdapter) : Harness A := ⟨32, 4, []⟩

def withCommandsPerRun (h : Harness A) (n : Nat) : Harness A := { h with commandsPerRun := max n 1 }

def withAddressPoolSize (h : Harness A) (n : Nat) : Harness A := { h with addressPoolSize := max n 1 }

def withInvariant (h : Harness A) (invariant : Invariant A) : Harness A :=
  { h with invariants := h.invariants ++ [invariant] }

end Harness

/-- Why a run stopped. -/
inductive Stop where
  | undeclaredPanic (message : String) (stepIndex : Nat)
  | invariant (v : Violation)
  /-- A panic the harness does not catch. -/
  | unwound (payload : Payload)
  deriving DecidableEq, Repr

def Stop.result : Stop → Except Payload (Except Violation Unit)
  | .undeclaredPanic message stepIndex => .ok (.error { invariant := "no-undeclared-panic", message, stepIndex })
  | .invariant v => .ok (.error v)
  | .unwound payload => .error payload

/-- What a run changes from step to step. -/
structure State (A : ContractAdapter) where
  env : Env A.Storage
  model : A.Model

variable {A : ContractAdapter}

/-- `invariant.check(&invariant_ctx)?` for each, in order. -/
def checkAll : List (Invariant A) → InvariantCtx A → Except Stop Unit
  | [], _ => .ok ()
  | i :: is, ctx =>
    match i.check ctx with
    | .ok (.ok ()) => checkAll is ctx
    | .ok (.error v) => .error (.invariant v)
    | .error p => .error (.unwound p)

/-- The outcome of a `catch_unwind`. -/
def caught : Except Payload Outcome → Outcome
  | .ok outcome => outcome
  | .error payload => .undeclaredPanic (panicMessage payload)

/-- The step's command, executed on the advanced ledger. -/
def executed (ctx : ExecContext) (step : Step A.Command) (s : State A) : Except Payload Outcome × Env A.Storage :=
  A.execute step.command ctx (ctx.addresses.resolve step.authorized) (s.env.advance step.advanceTime)

/-- What follows an outcome that is no finding: the model's update and the checks. -/
def judge (invariants : List (Invariant A)) (ctx : ExecContext) (stepIndex : Nat) (step : Step A.Command)
    (model : A.Model) (outcome : Outcome) (env : Env A.Storage) : Except Stop (State A) :=
  match A.applyToModel step.command model ctx.addresses outcome with
  | .error payload => .error (.unwound payload)
  | .ok model =>
    match checkAll invariants
      { env, contractId := ctx.contractId, model, command := step.command, lastOutcome := outcome,
        authorizers := ctx.addresses.resolve step.authorized, addresses := ctx.addresses, stepIndex } with
    | .ok () => .ok { env, model }
    | .error stop => .error stop

namespace Harness

def step (h : Harness A) (ctx : ExecContext) (stepIndex : Nat) (step : Step A.Command) (s : State A) :
    Except Stop (State A) :=
  match caught (executed ctx step s).1 with
  | .undeclaredPanic message => .error (.undeclaredPanic message stepIndex)
  | outcome => judge h.invariants ctx stepIndex step s.model outcome (executed ctx step s).2

/-- The environment, the pool and the contract a run starts with. -/
def start (h : Harness A) : ExecContext × State A :=
  let (addresses, env) := AddressPool.generate (Env.default A.empty) h.addressPoolSize
  let (contractId, model, env) := A.setup addresses env
  (⟨contractId, addresses⟩, ⟨env, model⟩)

def ctx (h : Harness A) : ExecContext := h.start.1

/-- The steps a run executes: the first `commandsPerRun`. -/
def steps (h : Harness A) (r : Run A.Command) : List (Step A.Command) := r.steps.take h.commandsPerRun

def stop (h : Harness A) (r : Run A.Command) : Except Stop (State A) := loop (h.step h.ctx) 0 (h.steps r) h.start.2

/-- `Harness::run`; its own error is a panic that leaves it. -/
def run (h : Harness A) (r : Run A.Command) : Except Payload (Except Violation Unit) :=
  match h.stop r with
  | .ok _ => .ok (.ok ())
  | .error stop => stop.result

/-- The state before step `i`, when the run gets that far. -/
def before (h : Harness A) (r : Run A.Command) (i : Nat) : Except Stop (State A) :=
  loop (h.step h.ctx) 0 ((h.steps r).take i) h.start.2

/-- Step `i` of the run is executed, from `s`. -/
structure Executes (h : Harness A) (r : Run A.Command) (i : Nat) (step : Step A.Command) (s : State A) : Prop where
  step : (h.steps r)[i]? = some step
  before : h.before r i = .ok s

end Harness

/-! ## One step -/

open Harness

variable {h : Harness A} {r : Run A.Command} {i : Nat}

theorem checkAll_ne_undeclaredPanic (is : List (Invariant A)) (ctx : InvariantCtx A) (m : String) (k : Nat) :
    checkAll is ctx ≠ .error (.undeclaredPanic m k) := by
  induction is with
  | nil => simp [checkAll]
  | cons i is ih =>
    simp only [checkAll]
    split
    · exact ih
    · simp
    · simp

theorem judge_ne_undeclaredPanic {is : List (Invariant A)} {ctx : ExecContext} {step : Step A.Command} {model : A.Model}
    {outcome : Outcome} {env : Env A.Storage} (m : String) (k : Nat) :
    judge is ctx i step model outcome env ≠ .error (.undeclaredPanic m k) := by
  unfold judge
  split
  · simp
  · split
    · simp
    · rename_i stop hc
      intro he
      cases he
      exact checkAll_ne_undeclaredPanic _ _ _ _ hc

theorem step_undeclaredPanic_iff {ctx : ExecContext} {step : Step A.Command} {s : State A} {m : String} {k : Nat} :
    h.step ctx i step s = .error (.undeclaredPanic m k) ↔
      k = i ∧ caught (executed ctx step s).1 = .undeclaredPanic m := by
  unfold Harness.step
  split
  · rename_i message hm
    rw [hm]
    constructor
    · intro he; cases he; exact ⟨rfl, rfl⟩
    · rintro ⟨rfl, he⟩; cases he; rfl
  · rename_i outcome hne
    constructor
    · exact fun he => absurd he (judge_ne_undeclaredPanic m k)
    · exact fun he => absurd he.2 (hne m)

/-- A step whose outcome is no finding goes on to be judged. -/
theorem step_of_outcome {ctx : ExecContext} {step : Step A.Command} {s : State A}
    (ho : ∀ m, caught (executed ctx step s).1 ≠ .undeclaredPanic m) : h.step ctx i step s =
      judge h.invariants ctx i step s.model (caught (executed ctx step s).1) (executed ctx step s).2 := by
  unfold Harness.step
  split
  · rename_i m hm; exact absurd hm (ho m)
  · rfl

theorem checkAll_cons_ok {i : Invariant A} {is : List (Invariant A)} {ctx : InvariantCtx A}
    (hi : i.check ctx = .ok (.ok ())) :
    checkAll (i :: is) ctx = checkAll is ctx := by simp only [checkAll, hi]

theorem checkAll_cons_violation {i : Invariant A} {is : List (Invariant A)} {ctx : InvariantCtx A} {v : Violation}
    (hi : i.check ctx = .ok (.error v)) : checkAll (i :: is) ctx = .error (.invariant v) := by simp only [checkAll, hi]

/-- What the checks stop with is what one of them found. -/
theorem checkAll_error {is : List (Invariant A)} {ctx : InvariantCtx A} {v : Violation}
    (hc : checkAll is ctx = .error (.invariant v)) : ∃ i ∈ is, i.check ctx = .ok (.error v) := by
  induction is with
  | nil => cases hc
  | cons i is ih =>
    simp only [checkAll] at hc
    split at hc
    · obtain ⟨j, hj, hv⟩ := ih hc
      exact ⟨j, List.mem_cons_of_mem _ hj, hv⟩
    · rename_i hv
      cases hc
      exact ⟨i, List.mem_cons_self, hv⟩
    · cases hc

theorem judge_violation {is : List (Invariant A)} {ctx : ExecContext} {step : Step A.Command} {model model' : A.Model}
    {outcome : Outcome} {env : Env A.Storage} {v : Violation}
    (ha : A.applyToModel step.command model ctx.addresses outcome = .ok model')
    (hc : checkAll is
      { env, contractId := ctx.contractId, model := model', command := step.command, lastOutcome := outcome,
        authorizers := ctx.addresses.resolve step.authorized, addresses := ctx.addresses, stepIndex := i } =
          .error (.invariant v)) : judge is ctx i step model outcome env = .error (.invariant v) := by
  simp only [judge, ha, hc]

theorem judge_ok {is : List (Invariant A)} {ctx : ExecContext} {step : Step A.Command} {model model' : A.Model}
    {outcome : Outcome} {env : Env A.Storage}
    (ha : A.applyToModel step.command model ctx.addresses outcome = .ok model')
    (hc : checkAll is
      { env, contractId := ctx.contractId, model := model', command := step.command, lastOutcome := outcome,
        authorizers := ctx.addresses.resolve step.authorized, addresses := ctx.addresses, stepIndex := i } = .ok ()) :
    judge is ctx i step model outcome env = .ok { env, model := model' } := by
  simp only [judge, ha, hc]

theorem judge_eq_ok {is : List (Invariant A)} {ctx : ExecContext} {step : Step A.Command} {model : A.Model}
    {outcome : Outcome} {env : Env A.Storage} {s : State A} (hj : judge is ctx i step model outcome env = .ok s) :
    A.applyToModel step.command model ctx.addresses outcome = .ok s.model ∧ s.env = env := by
  unfold judge at hj
  split at hj
  · cases hj
  · rename_i model' ha
    split at hj
    · cases hj; exact ⟨ha, rfl⟩
    · cases hj

/-- A step that goes through has updated the model, and its environment is the command's. -/
theorem step_eq_ok {ctx : ExecContext} {step : Step A.Command} {s s' : State A} (hs : h.step ctx i step s = .ok s') :
    A.applyToModel step.command s.model ctx.addresses (caught (executed ctx step s).1) = .ok s'.model ∧
      s'.env = (executed ctx step s).2 := by
  have hno : ∀ m, caught (executed ctx step s).1 ≠ .undeclaredPanic m := by
    intro m hm
    have := (step_undeclaredPanic_iff (h := h) (i := i)).mpr ⟨rfl, hm⟩
    rw [hs] at this
    cases this
  rw [step_of_outcome hno] at hs
  exact judge_eq_ok hs

/-! ## Whole runs -/

theorem stop_error_iff {stop : Stop} : h.stop r = .error stop ↔
    ∃ i step s, h.Executes r i step s ∧ h.step h.ctx i step s = .error stop := by
  rw [Harness.stop, Lib.loop_error_iff]
  constructor
  · intro hm
    obtain ⟨k, step, s, hstep, hs, he⟩ := hm
    exact ⟨k, step, s, ⟨hstep, hs⟩, by simpa using he⟩
  · intro hm
    obtain ⟨k, step, s, hx, he⟩ := hm
    exact ⟨k, step, s, hx.step, hx.before, by simpa using he⟩

theorem run_of_step_error {step : Step A.Command} {s : State A} {stop : Stop} (hx : h.Executes r i step s)
    (he : h.step h.ctx i step s = .error stop) : h.run r = stop.result := by
  rw [Harness.run, stop_error_iff.mpr ⟨i, step, s, hx, he⟩]

/-- A violation is reported by whatever stopped the run. -/
theorem run_eq_error {v : Violation} (hv : h.run r = .ok (.error v)) :
    ∃ stop, h.stop r = .error stop ∧ stop.result = .ok (.error v) := by
  rw [Harness.run] at hv
  split at hv
  · cases hv
  · rename_i stop hs
    exact ⟨stop, hs, hv⟩

/-- A step whose check reports has updated the model. -/
theorem step_eq_invariant {ctx : ExecContext} {step : Step A.Command} {s : State A} {v : Violation}
    (hs : h.step ctx i step s = .error (.invariant v)) :
    ∃ model, A.applyToModel step.command s.model ctx.addresses (caught (executed ctx step s).1) = .ok model ∧
      checkAll h.invariants
        { env := (executed ctx step s).2, contractId := ctx.contractId, model, command := step.command
          lastOutcome := caught (executed ctx step s).1, authorizers := ctx.addresses.resolve step.authorized
          addresses := ctx.addresses, stepIndex := i } = .error (.invariant v) := by
  unfold Harness.step at hs
  split at hs
  · cases hs
  · unfold judge at hs
    split at hs
    · cases hs
    · rename_i model ha
      split at hs
      · cases hs
      · rename_i stop hc
        cases hs
        exact ⟨model, ha, hc⟩

/-- The addresses of a run's pool are distinct. -/
theorem pool_nodup (h : Harness A) : h.ctx.addresses.addresses.Nodup := List.nodup_range'

theorem stop_undeclaredPanic_iff {m : String} : h.stop r = .error (.undeclaredPanic m i) ↔
    ∃ step s, h.Executes r i step s ∧ caught (executed h.ctx step s).1 = .undeclaredPanic m := by
  rw [stop_error_iff]
  constructor
  · intro hm
    obtain ⟨k, step, s, hx, he⟩ := hm
    obtain ⟨rfl, hc⟩ := step_undeclaredPanic_iff.mp he
    exact ⟨step, s, hx, hc⟩
  · intro hm
    obtain ⟨step, s, hx, hc⟩ := hm
    exact ⟨i, step, s, hx, step_undeclaredPanic_iff.mpr ⟨rfl, hc⟩⟩

theorem executes_unique {step step' : Step A.Command} {s s' : State A} (hx : h.Executes r i step s)
    (hx' : h.Executes r i step' s') : step = step' ∧ s = s' := by
  have h1 := hx.step
  have h2 := hx.before
  rw [hx'.step] at h1
  rw [hx'.before] at h2
  cases h1
  cases h2
  exact ⟨rfl, rfl⟩

theorem Harness.Executes.before_succ {step : Step A.Command} {s : State A} (hx : h.Executes r i step s) :
    h.before r (i + 1) = h.step h.ctx i step s := by
  rw [Harness.before, Lib.loop_take_succ hx.step hx.before, Nat.zero_add]

/-- A property of the state that every executed step keeps holds before each step. -/
theorem before_invariant (P : State A → Prop) (h0 : P h.start.2)
    (hstep : ∀ i step s s', h.Executes r i step s → P s → h.step h.ctx i step s = .ok s' → P s') :
    ∀ i s, h.before r i = .ok s → P s := by
  intro i
  induction i with
  | zero => intro s hs; cases hs; exact h0
  | succ i ih =>
    intro s hs
    cases hi : (h.steps r)[i]? with
    | none =>
      have hlen := List.getElem?_eq_none_iff.mp hi
      refine ih s ?_
      rw [Harness.before, List.take_of_length_le (Nat.le_succ_of_le hlen)] at hs
      rw [Harness.before, List.take_of_length_le hlen, hs]
    | some step =>
      obtain ⟨s0, h0⟩ : ∃ s0, h.before r i = .ok s0 := by
        have := Lib.loop_ok_take hs i
        rwa [List.take_take, Nat.min_eq_left (Nat.le_succ i)] at this
      have hx : h.Executes r i step s0 := ⟨hi, h0⟩
      exact hstep i step s0 s hx (ih s0 h0) (by rw [← hx.before_succ, hs])

theorem stop_ok_iff : (∃ s, h.stop r = .ok s) ↔
    ∀ i step s, h.Executes r i step s → ∃ s', h.step h.ctx i step s = .ok s' := by
  rw [Harness.stop, Lib.loop_ok_iff]
  constructor
  · intro hall i step s hx
    simpa using hall i step s hx.step hx.before
  · intro hall i step s hstep hs
    simpa using hall i step s ⟨hstep, hs⟩

theorem run_ok_iff : h.run r = .ok (.ok ()) ↔
    ∀ i step s, h.Executes r i step s → ∃ s', h.step h.ctx i step s = .ok s' := by
  rw [← stop_ok_iff, Harness.run]
  cases hs : h.stop r with
  | ok s => simp
  | error stop => cases stop <;> simp [Stop.result]

theorem run_of_invariant (P : State A → Prop) (h0 : P h.start.2)
    (hstep : ∀ i step s, h.Executes r i step s → P s → ∃ s', h.step h.ctx i step s = .ok s' ∧ P s') :
    h.run r = .ok (.ok ()) ∧ ∀ i s, h.before r i = .ok s → P s := by
  have hall : ∀ i s, h.before r i = .ok s → P s := by
    refine before_invariant P h0 fun i step s s' hx hs hok => ?_
    obtain ⟨s'', hs'', hp⟩ := hstep i step s hx hs
    rw [hok] at hs''
    cases hs''
    exact hp
  refine ⟨run_ok_iff.mpr fun i step s hx => ?_, hall⟩
  obtain ⟨s', hs', -⟩ := hstep i step s hx (hall i s hx.before)
  exact ⟨s', hs'⟩

end SoroFuzz.Core
