/-
  SoroFuzz.Core.Authorizer — which model `AuthRequiredForMutation` asks for the authorizer
  (`invariants/src/auth_required_for_mutation.rs`, `harness.rs`).

  `required_authorizer` is the address "that must have authorized this command for it to
  legitimately succeed": a matter of the state the command ran against. The harness
  updates the model first, and the check asks the updated one. A command that changes who
  is authorized is judged by the authority it has just installed.

  Proved:
  - `reported_iff`: a step is reported when the authorizer required after its own update
    is missing.
  - `judged_before_iff`: so a step is judged by the state it ran against exactly when the
    update leaves it as it was whether the authorizer is missing.
  - `judged_before_rotation`: a rotation that the owner signed is reported, and one that
    only the new owner signed is not.
-/

import SoroFuzz.Core.Invariants

namespace SoroFuzz.Core

open RequiresAuthorizer

variable {A : ContractAdapter} [RequiresAuthorizer A.Command A.Model]

/-- Seen from `model`, the command requires an address that is not among the authorizers. -/
def Unauthorized (command : A.Command) (model : A.Model) (addresses : AddressPool) (authorizers : List Address) :
    Prop :=
  ∃ required, requiredAuthorizer command model addresses = some required ∧ required ∉ authorizers

/-- The run ends on the invariant's violation at step `i`. -/
def Reported (h : Harness A) (r : Run A.Command) (i : Nat) : Prop :=
  ∃ message, h.run r = .ok (.error { invariant := "auth-required-for-mutation", message, stepIndex := i })

/-- Step `i`, taken from `s`, is reported when its authorizer is missing in `s`. -/
def JudgedBefore (h : Harness A) (r : Run A.Command) (i : Nat) (step : Step A.Command) (s : State A) : Prop :=
  Reported h r i ↔
    Unauthorized step.command s.model h.ctx.addresses (h.ctx.addresses.resolve step.authorized)

/-- The step's authorizer is missing from the model that the step leads to. -/
def MissingAfter (ctx : ExecContext) (step : Step A.Command) (s : State A) : Prop :=
  ∃ model, A.applyToModel step.command s.model ctx.addresses .ok = .ok model ∧
    Unauthorized step.command model ctx.addresses (ctx.addresses.resolve step.authorized)

/-! ## The check -/

variable {debug : Address → String} {c : InvariantCtx A} {v : Violation}

theorem authRequiredForMutation_violation (hv : (authRequiredForMutation debug).check c = .ok (.error v)) :
    v.invariant = "auth-required-for-mutation" ∧ v.stepIndex = c.stepIndex := by
  simp only [authRequiredForMutation] at hv
  split at hv
  · cases hv
  · split at hv
    · split at hv
      · cases hv
      · cases hv
        exact ⟨rfl, rfl⟩
    · cases hv

theorem authRequiredForMutation_error_iff (hok : c.lastOutcome = .ok) :
    (∃ v, (authRequiredForMutation debug).check c = .ok (.error v)) ↔
      Unauthorized c.command c.model c.addresses c.authorizers := by
  simp only [authRequiredForMutation, hok, Outcome.isOk, Unauthorized]
  cases requiredAuthorizer c.command c.model c.addresses with
  | none => simp
  | some required => by_cases ha : required ∈ c.authorizers <;> simp [ha]

/-! ## One step -/

variable {h : Harness A} {r : Run A.Command} {i : Nat} {ctx : ExecContext} {step : Step A.Command} {s : State A}

omit [RequiresAuthorizer A.Command A.Model] in
theorem checkAll_singleton {inv : Invariant A} :
    checkAll [inv] c = .error (.invariant v) ↔ inv.check c = .ok (.error v) := by
  simp only [checkAll]
  split <;> simp_all

/-- A step whose call succeeds fails the check when the authorizer is missing after it. -/
theorem step_reports_iff (hinv : h.invariants = [authRequiredForMutation debug])
    (hok : (executed ctx step s).1 = .ok .ok) :
    (∃ v, h.step ctx i step s = .error (.invariant v)) ↔ MissingAfter ctx step s := by
  have hcaught : caught (executed ctx step s).1 = .ok := by
    rw [hok]
    rfl
  constructor
  · rintro ⟨v, hv⟩
    obtain ⟨model, ha, hc⟩ := step_eq_invariant hv
    rw [hcaught] at ha hc
    rw [hinv, checkAll_singleton] at hc
    exact ⟨model, ha, (authRequiredForMutation_error_iff rfl).mp ⟨v, hc⟩⟩
  · rintro ⟨model, ha, hmiss⟩
    let c : InvariantCtx A :=
      { env := (executed ctx step s).2, contractId := ctx.contractId, model, command := step.command,
        lastOutcome := .ok, authorizers := ctx.addresses.resolve step.authorized, addresses := ctx.addresses,
        stepIndex := i }
    obtain ⟨v, hv⟩ : ∃ v, (authRequiredForMutation debug).check c = .ok (.error v) :=
      (authRequiredForMutation_error_iff rfl).mpr hmiss
    refine ⟨v, ?_⟩
    rw [step_of_outcome (by rw [hcaught]; simp), hcaught, hinv]
    exact judge_violation ha (checkAll_singleton.mpr hv)

theorem step_violation (hinv : h.invariants = [authRequiredForMutation debug])
    (hs : h.step ctx i step s = .error (.invariant v)) :
    v.invariant = "auth-required-for-mutation" ∧ v.stepIndex = i := by
  obtain ⟨model, -, hc⟩ := step_eq_invariant hs
  rw [hinv, checkAll_singleton] at hc
  exact authRequiredForMutation_violation hc

/-! ## Whole runs -/

/-- The run reports step `i` when that step fails the check. -/
theorem reported_step (hinv : h.invariants = [authRequiredForMutation debug]) (hx : h.Executes r i step s) :
    Reported h r i ↔ ∃ v, h.step h.ctx i step s = .error (.invariant v) := by
  constructor
  · rintro ⟨message, hrun⟩
    obtain ⟨stop, hstop, hresult⟩ := run_eq_error hrun
    obtain ⟨k, step', s', hx', hk⟩ := stop_error_iff.mp hstop
    cases stop with
    | undeclaredPanic m j => simp [Stop.result] at hresult
    | unwound p => cases hresult
    | invariant v =>
      cases hresult
      obtain rfl : i = k := (step_violation hinv hk).2
      obtain ⟨rfl, rfl⟩ := executes_unique hx hx'
      exact ⟨_, hk⟩
  · rintro ⟨v, hv⟩
    obtain ⟨hname, hindex⟩ := step_violation hinv hv
    refine ⟨v.message, ?_⟩
    rw [run_of_step_error hx hv, Stop.result, ← hname, ← hindex]

theorem reported_iff (hinv : h.invariants = [authRequiredForMutation debug]) (hx : h.Executes r i step s)
    (hok : (executed h.ctx step s).1 = .ok .ok) : Reported h r i ↔ MissingAfter h.ctx step s :=
  (reported_step hinv hx).trans (step_reports_iff hinv hok)

/-- A step that leaves its own required authorizer as it was is judged by it. -/
theorem judged_of_kept (hinv : h.invariants = [authRequiredForMutation debug]) (hx : h.Executes r i step s)
    (hok : (executed h.ctx step s).1 = .ok .ok) {model : A.Model}
    (ha : A.applyToModel step.command s.model h.ctx.addresses .ok = .ok model)
    (hkept : requiredAuthorizer step.command model h.ctx.addresses =
      requiredAuthorizer step.command s.model h.ctx.addresses) : JudgedBefore h r i step s := by
  rw [JudgedBefore, reported_iff hinv hx hok, MissingAfter]
  simp only [ha, Except.ok.injEq, exists_eq_left', Unauthorized, hkept]

theorem judged_before_iff (hinv : h.invariants = [authRequiredForMutation debug]) (hx : h.Executes r i step s)
    (hok : (executed h.ctx step s).1 = .ok .ok) :
    JudgedBefore h r i step s ↔ (MissingAfter h.ctx step s ↔
      Unauthorized step.command s.model h.ctx.addresses (h.ctx.addresses.resolve step.authorized)) := by
  rw [JudgedBefore, reported_iff hinv hx hok]

/-! ## Rotating the authority -/

inductive OwnedCommand where
  /-- The contract asks for its owner's authorization, ... -/
  | handOver (to_ : Nat)
  /-- ... and forgets to here. -/
  | seize (to_ : Nat)

def OwnedCommand.recipient : OwnedCommand → Nat
  | .handOver to_ | .seize to_ => to_

/-- A contract with an owner, the first of the pool. The model is the owner. -/
abbrev owned : ContractAdapter where
  Storage := Address
  Command := OwnedCommand
  Model := Address
  empty := 0
  setup addresses env := (env.nextAddress, addresses.get 0, { env with storage := addresses.get 0 })
  execute command ctx authorizers env :=
    match command with
    | .handOver to_ =>
      if env.storage ∈ authorizers then (.ok .ok, { env with storage := ctx.addresses.get to_ })
      else (.ok (.rejected "owner"), env)
    | .seize to_ => (.ok .ok, { env with storage := ctx.addresses.get to_ })
  applyToModel command owner addresses outcome :=
    .ok (if outcome.isOk then addresses.get command.recipient else owner)

instance : RequiresAuthorizer OwnedCommand Address := ⟨fun _ owner _ => some owner⟩

def ownedHarness : Harness owned := (Harness.new owned).withInvariant (authRequiredForMutation toString)

/-- The owner, at index 0, and the new owner both sign the hand-over. -/
def cosigned : Step OwnedCommand := ⟨.handOver 1, ⟨[0, 1]⟩, none⟩

/-- The owner signs the hand-over to index 1. -/
def signed : Step OwnedCommand := ⟨.handOver 1, ⟨[0]⟩, none⟩

/-- Index 1 takes the contract, and is the only one to sign. -/
def stolen : Step OwnedCommand := ⟨.seize 1, ⟨[1]⟩, none⟩

theorem judged_before_cosigned : JudgedBefore ownedHarness ⟨[cosigned]⟩ 0 cosigned ownedHarness.start.2 ∧
    (MissingAfter ownedHarness.ctx cosigned ownedHarness.start.2 ↔
      Unauthorized (A := owned) (.handOver 1) ownedHarness.start.2.model ownedHarness.ctx.addresses
        (ownedHarness.ctx.addresses.resolve ⟨[0, 1]⟩)) := by
  have hafter : ¬ MissingAfter ownedHarness.ctx cosigned ownedHarness.start.2 := by
    rintro ⟨model, hmodel, required, hr, hno⟩
    cases hmodel
    cases hr
    exact hno (by decide)
  have hbefore : ¬ Unauthorized (A := owned) (.handOver 1) ownedHarness.start.2.model ownedHarness.ctx.addresses
      (ownedHarness.ctx.addresses.resolve ⟨[0, 1]⟩) := by
    rintro ⟨required, hr, hno⟩
    cases hr
    exact hno (by decide)
  have hjudged : JudgedBefore ownedHarness ⟨[cosigned]⟩ 0 cosigned ownedHarness.start.2 ↔ _ :=
    judged_before_iff rfl ⟨rfl, rfl⟩ rfl
  exact ⟨hjudged.mpr (iff_of_false hafter hbefore), iff_of_false hafter hbefore⟩

/-- A false alarm, and a theft that goes unreported. -/
theorem judged_before_rotation :
    (ownedHarness.Executes ⟨[signed]⟩ 0 signed ownedHarness.start.2 ∧
      (executed ownedHarness.ctx signed ownedHarness.start.2).1 = .ok .ok ∧
        ¬ JudgedBefore ownedHarness ⟨[signed]⟩ 0 signed ownedHarness.start.2) ∧
    ownedHarness.Executes ⟨[stolen]⟩ 0 stolen ownedHarness.start.2 ∧
      (executed ownedHarness.ctx stolen ownedHarness.start.2).1 = .ok .ok ∧
        ¬ JudgedBefore ownedHarness ⟨[stolen]⟩ 0 stolen ownedHarness.start.2 := by
  have hinv : ownedHarness.invariants = [authRequiredForMutation (A := owned) toString] := rfl
  refine ⟨⟨⟨rfl, rfl⟩, rfl, fun hj => ?_⟩, ⟨rfl, rfl⟩, rfl, fun hj => ?_⟩
  · have hx : ownedHarness.Executes ⟨[signed]⟩ 0 signed ownedHarness.start.2 := ⟨rfl, rfl⟩
    obtain ⟨required, hr, hno⟩ := hj.mp ((reported_iff hinv hx rfl).mpr ⟨1, rfl, 1, rfl, by decide⟩)
    cases hr
    exact hno (by decide)
  · have hx : ownedHarness.Executes ⟨[stolen]⟩ 0 stolen ownedHarness.start.2 := ⟨rfl, rfl⟩
    obtain ⟨model, hm, required, hr, hno⟩ := (reported_iff hinv hx rfl).mp (hj.mpr ⟨0, rfl, by decide⟩)
    cases hm
    cases hr
    exact hno (by decide)

end SoroFuzz.Core
