/-
  SoroFuzz.Core.UndeclaredPanic — what the harness makes of a contract that panics, for an
  adapter that classifies its calls with `Outcome::from_try_result` and tells the truth
  about their authorization (`Classified`).

  Proved:
  - `findings_are_undeclared`: what the harness reports as `no-undeclared-panic` is always
    a panic of the contract's body or a code it does not declare, at that step.
  - `undeclared_is_found`: with the step's required authorization given, each is reported.
  - `undeclared_findings`: both, and that a panic under withheld authorization is not: the
    client cannot tell it from the failed `require_auth` the harness provoked, and it is
    `Rejected`.
-/

import SoroFuzz.Core.Harness

namespace SoroFuzz.Core

/-- An adapter whose every call is classified by `from_try_result`. A call's
    `require_auth`s are for the addresses in `required`: one fails only when one of those
    is not among the step's authorizers, and `required_auth_satisfied` is whether all are. -/
structure Classified (A : ContractAdapter) where
  Value : Type
  ConvErr : Type
  Error : Type
  debug : ConvErr → String
  codeOf : Error → UInt32
  call : A.Command → ExecContext → List Address → Env A.Storage → CallEnd Value Error
  required : A.Command → ExecContext → Env A.Storage → List Address
  execute_eq : ∀ c ctx authorizers env, (A.execute c ctx authorizers env).1 =
    Outcome.fromTryResult debug (encode (call c ctx authorizers env))
      (decide (∀ a ∈ required c ctx env, a ∈ authorizers)) codeOf
  truthful : ∀ c ctx authorizers env, call c ctx authorizers env = .error .authFailed →
    ∃ a ∈ required c ctx env, a ∉ authorizers

/-- The body panicked, or raised a code the contract does not declare. -/
def Undeclared {T E : Type} (e : CallEnd T E) : Prop := e = .error .panicked ∨ ∃ c, e = .error (.undeclared c)

variable {A : ContractAdapter}

/-- How the step's call ends. -/
def Classified.callAt (K : Classified A) (ctx : ExecContext) (step : Step A.Command) (s : State A) :
    CallEnd K.Value K.Error :=
  K.call step.command ctx (ctx.addresses.resolve step.authorized) (s.env.advance step.advanceTime)

/-- Every address the step's call requires is among the step's authorizers. -/
def Classified.AuthSatisfied (K : Classified A) (ctx : ExecContext) (step : Step A.Command) (s : State A) : Prop :=
  ∀ a ∈ K.required step.command ctx (s.env.advance step.advanceTime), a ∈ ctx.addresses.resolve step.authorized

/-- The harness stops with its own `no-undeclared-panic` violation at step `i`. -/
def FindsPanic (h : Harness A) (r : Run A.Command) (i : Nat) : Prop := ∃ m, h.stop r = .error (.undeclaredPanic m i)

/-- `Harness::run` returns a violation of that name at step `i`. -/
def Harness.Reports (h : Harness A) (r : Run A.Command) (i : Nat) : Prop :=
  ∃ message, h.run r = .ok (.error { invariant := "no-undeclared-panic", message, stepIndex := i })

/-- No registered invariant reports under the harness's own name. -/
def Harness.KeepsName (h : Harness A) : Prop :=
  ∀ inv ∈ h.invariants, ∀ c v, inv.check c = .ok (.error v) → v.invariant ≠ "no-undeclared-panic"

theorem FindsPanic.reports {h : Harness A} {r : Run A.Command} {i : Nat} (hf : FindsPanic h r i) : h.Reports r i := by
  obtain ⟨m, hm⟩ := hf
  exact ⟨m, by simp only [Harness.run, hm, Stop.result]⟩

theorem findsPanic_of_reports {h : Harness A} {r : Run A.Command} {i : Nat} (hname : h.KeepsName)
    (hr : h.Reports r i) : FindsPanic h r i := by
  obtain ⟨message, hrun⟩ := hr
  obtain ⟨stop, hstop, hresult⟩ := run_eq_error hrun
  cases stop with
  | undeclaredPanic m k =>
    cases hresult
    exact ⟨message, hstop⟩
  | unwound p => cases hresult
  | invariant v =>
    cases hresult
    obtain ⟨k, step, s, -, hk⟩ := stop_error_iff.mp hstop
    obtain ⟨model, -, hc⟩ := step_eq_invariant hk
    obtain ⟨inv, hinv, hv⟩ := checkAll_error hc
    exact absurd rfl (hname inv hinv _ _ hv)

theorem executed_undeclaredPanic_iff (K : Classified A) (ctx : ExecContext) (step : Step A.Command) (s : State A) :
    (∃ m, caught (executed ctx step s).1 = .undeclaredPanic m) ↔
      K.AuthSatisfied ctx step s ∧ Undeclared (K.callAt ctx step s) := by
  have heq := K.execute_eq step.command ctx (ctx.addresses.resolve step.authorized) (s.env.advance step.advanceTime)
  have hcaught : (∃ m, caught (executed ctx step s).1 = .undeclaredPanic m) ↔
      ∃ m, (executed ctx step s).1 = .ok (.undeclaredPanic m) := by
    cases he : (executed ctx step s).1 with
    | ok o => simp [caught]
    | error p => exact absurd (heq.symm.trans he) fromTryResult_encode
  rw [hcaught, executed, heq, fromTryResult_undeclaredPanic, decide_eq_true_iff]
  refine and_congr_right fun hsat => ⟨?_, Or.inr⟩
  -- A failed `require_auth` is excluded: everything required was authorized.
  rintro (hauth | hu)
  · obtain ⟨a, ha, hna⟩ := K.truthful _ _ _ _ hauth
    exact absurd (hsat a ha) hna
  · exact hu

variable (K : Classified A) (h : Harness A) (r : Run A.Command) (i : Nat)

theorem findsPanic_iff : FindsPanic h r i ↔
    ∃ step s, h.Executes r i step s ∧ K.AuthSatisfied h.ctx step s ∧ Undeclared (K.callAt h.ctx step s) := by
  constructor
  · intro hex
    obtain ⟨m, hm⟩ := hex
    obtain ⟨step, s, hx, hc⟩ := stop_undeclaredPanic_iff.mp hm
    exact ⟨step, s, hx, (executed_undeclaredPanic_iff K h.ctx step s).mp ⟨m, hc⟩⟩
  · intro hex
    obtain ⟨step, s, hx, hu⟩ := hex
    obtain ⟨m, hc⟩ := (executed_undeclaredPanic_iff K h.ctx step s).mpr hu
    exact ⟨m, stop_undeclaredPanic_iff.mpr ⟨step, s, hx, hc⟩⟩

theorem findings_are_undeclared (hf : FindsPanic h r i) :
    ∃ step s, h.Executes r i step s ∧ Undeclared (K.callAt h.ctx step s) := by
  obtain ⟨step, s, hx, -, hu⟩ := (findsPanic_iff K h r i).mp hf
  exact ⟨step, s, hx, hu⟩

theorem undeclared_is_found {step : Step A.Command} {s : State A} (hx : h.Executes r i step s)
    (hu : Undeclared (K.callAt h.ctx step s)) (hsat : K.AuthSatisfied h.ctx step s) : FindsPanic h r i :=
  (findsPanic_iff K h r i).mpr ⟨step, s, hx, hsat, hu⟩

theorem withheld_panic_is_absorbed {step : Step A.Command} {s : State A} (hx : h.Executes r i step s)
    (hsat : ¬ K.AuthSatisfied h.ctx step s) : ¬ FindsPanic h r i := by
  intro hf
  obtain ⟨step', s', hx', hsat', -⟩ := (findsPanic_iff K h r i).mp hf
  obtain ⟨rfl, rfl⟩ := executes_unique hx hx'
  exact hsat hsat'

/-- What `Harness::run` returns under the name `no-undeclared-panic` is its own finding,
    when no invariant has taken that name. -/
theorem undeclared_findings :
    (FindsPanic h r i → ∃ step s, h.Executes r i step s ∧ Undeclared (K.callAt h.ctx step s)) ∧
    (∀ step s, h.Executes r i step s →
      (Undeclared (K.callAt h.ctx step s) → K.AuthSatisfied h.ctx step s → FindsPanic h r i) ∧
      (K.callAt h.ctx step s = .error .panicked → ¬ K.AuthSatisfied h.ctx step s → ¬ FindsPanic h r i)) ∧
    (FindsPanic h r i → h.Reports r i) ∧ (h.KeepsName → h.Reports r i → FindsPanic h r i) :=
  ⟨findings_are_undeclared K h r i, fun _ _ hx =>
    ⟨undeclared_is_found K h r i hx, fun _ hsat => withheld_panic_is_absorbed K h r i hx hsat⟩, FindsPanic.reports,
    findsPanic_of_reports⟩

/-! ## A panic under withheld authorization -/

/-- One function, which panics before its `require_auth` of the pool's first address. -/
def panicsFirst : ContractAdapter where
  Storage := Unit
  Command := Unit
  Model := Unit
  empty := ()
  setup _ env := (env.nextAddress, (), env)
  execute _ ctx authorizers env :=
    (Outcome.fromTryResult (fun (_ : Unit) => "") (encode (.error .panicked : CallEnd Unit Unit))
      (decide (∀ a ∈ [ctx.addresses.get 0], a ∈ authorizers)) (fun _ => 0), env)
  applyToModel _ _ _ _ := .ok ()

def panicsFirstClassified : Classified panicsFirst where
  Value := Unit
  ConvErr := Unit
  Error := Unit
  debug _ := ""
  codeOf _ := 0
  call _ _ _ _ := .error .panicked
  required _ ctx _ := [ctx.addresses.get 0]
  execute_eq _ _ _ _ := rfl
  truthful _ _ _ _ h := by cases h

theorem undeclared_absorbed : ¬ ∀ (A : ContractAdapter) (K : Classified A) (h : Harness A)
    (r : Run A.Command) (i : Nat),
    FindsPanic h r i ↔ ∃ step s, h.Executes r i step s ∧ Undeclared (K.callAt h.ctx step s) := by
  intro hall
  have hx : (Harness.new panicsFirst).Executes ⟨[⟨(), ⟨[]⟩, none⟩]⟩ 0 ⟨(), ⟨[]⟩, none⟩
    (Harness.new panicsFirst).start.2 :=
    ⟨rfl, rfl⟩
  obtain ⟨m, hm⟩ := (hall panicsFirst panicsFirstClassified (Harness.new panicsFirst) ⟨[⟨(), ⟨[]⟩, none⟩]⟩ 0).mpr
    ⟨_, _, hx, Or.inl rfl⟩
  cases hm

end SoroFuzz.Core
