/-
  SoroFuzz.Core.FirstViolation — what a run reports, said without the loop.

  Let the steps be taken one after the other whatever they find (`reaches`). A step goes
  wrong when its execution unwinds or yields `UndeclaredPanic`, or when an invariant fails
  after the model's update (`Wrong`); what it is then reported for is the panic, or the
  first invariant that fails (`Reports`).

  Proved, when only `execute` may panic (`Quiet`):
  - `run_of_first`: a run reports the first step that goes wrong; `run_of_none`: without
    one it passes.
  - `finds_first`: so what comes after that step, or after the bound, does not matter, and
    a run cut before it passes.
-/

import SoroFuzz.Core.Harness
import Mathlib.Data.Nat.Find

namespace SoroFuzz.Core

variable {A : ContractAdapter}

/-- Neither the model's update nor an invariant panics. -/
structure Quiet (h : Harness A) : Prop where
  applies : ∀ command model addresses outcome, ∃ model', A.applyToModel command model addresses outcome = .ok model'
  checks : ∀ invariant ∈ h.invariants, ∀ ctx, ∃ verdict, invariant.check ctx = .ok verdict

/-- Environment and model after a step, whatever the step finds. -/
def taken (ctx : ExecContext) (s : State A) (step : Step A.Command) : State A where
  env := (executed ctx step s).2
  model :=
    match A.applyToModel step.command s.model ctx.addresses (caught (executed ctx step s).1) with
    | .ok model => model
    | .error _ => s.model

/-- The state before step `k`, when nothing stops the run. -/
def reaches (h : Harness A) (r : Run A.Command) (k : Nat) : State A := (r.steps.take k).foldl (taken h.ctx) h.start.2

/-- What the invariants are shown after step `k`. -/
def invariantCtx (ctx : ExecContext) (k : Nat) (step : Step A.Command) (s : State A) : InvariantCtx A where
  env := (taken ctx s step).env
  contractId := ctx.contractId
  model := (taken ctx s step).model
  command := step.command
  lastOutcome := caught (executed ctx step s).1
  authorizers := ctx.addresses.resolve step.authorized
  addresses := ctx.addresses
  stepIndex := k

/-- Step `k`, taken from `s`, goes wrong. -/
def StepWrong (h : Harness A) (k : Nat) (step : Step A.Command) (s : State A) : Prop :=
  (∃ payload, (executed h.ctx step s).1 = .error payload) ∨
  (∃ message, (executed h.ctx step s).1 = .ok (.undeclaredPanic message)) ∨
  ∃ invariant ∈ h.invariants, ∃ v, invariant.check (invariantCtx h.ctx k step s) = .ok (.error v)

/-- The run has a step `k` within the bound, and it goes wrong. -/
def Wrong (h : Harness A) (r : Run A.Command) (k : Nat) : Prop :=
  k < min r.steps.length h.commandsPerRun ∧ ∃ step, r.steps[k]? = some step ∧ StepWrong h k step (reaches h r k)

/-- What a step that goes wrong is reported for: its panic, else the first invariant that
    fails, in the order of registration. -/
inductive StepReports (h : Harness A) (k : Nat) (step : Step A.Command) (s : State A) : Violation → Prop
  | panic (message : String) : caught (executed h.ctx step s).1 = .undeclaredPanic message →
      StepReports h k step s { invariant := "no-undeclared-panic", message, stepIndex := k }
  | invariant (before after : List (Invariant A)) (i : Invariant A) (v : Violation) :
      (∀ m, caught (executed h.ctx step s).1 ≠ .undeclaredPanic m) → h.invariants = before ++ i :: after →
      (∀ j ∈ before, j.check (invariantCtx h.ctx k step s) = .ok (.ok ())) →
      i.check (invariantCtx h.ctx k step s) = .ok (.error v) → StepReports h k step s v

def Reports (h : Harness A) (r : Run A.Command) (k : Nat) (v : Violation) : Prop :=
  ∃ step, r.steps[k]? = some step ∧ StepReports h k step (reaches h r k) v

/-! ## The checks -/

theorem checkAll_ok {is : List (Invariant A)} {ctx : InvariantCtx A} (hall : ∀ i ∈ is, i.check ctx = .ok (.ok ())) :
    checkAll is ctx = .ok () := by
  induction is with
  | nil => rfl
  | cons i is ih =>
    rw [checkAll_cons_ok (hall i List.mem_cons_self)]
    exact ih fun j hj => hall j (List.mem_cons_of_mem _ hj)

theorem checkAll_first {before after : List (Invariant A)} {i : Invariant A} {ctx : InvariantCtx A} {v : Violation}
    (hb : ∀ j ∈ before, j.check ctx = .ok (.ok ())) (hi : i.check ctx = .ok (.error v)) :
    checkAll (before ++ i :: after) ctx = .error (.invariant v) := by
  induction before with
  | nil => exact checkAll_cons_violation hi
  | cons j before ih =>
    rw [List.cons_append, checkAll_cons_ok (hb j List.mem_cons_self)]
    exact ih fun k hk => hb k (List.mem_cons_of_mem _ hk)

/-- Of checks that return, all pass or one is the first to fail. -/
theorem all_or_first {is : List (Invariant A)} {ctx : InvariantCtx A}
    (hq : ∀ i ∈ is, ∃ verdict, i.check ctx = .ok verdict) : (∀ i ∈ is, i.check ctx = .ok (.ok ())) ∨
      ∃ before after i v, is = before ++ i :: after ∧ (∀ j ∈ before, j.check ctx = .ok (.ok ())) ∧
        i.check ctx = .ok (.error v) := by
  induction is with
  | nil => exact Or.inl fun i hi => by cases hi
  | cons i is ih =>
    obtain ⟨verdict, hv⟩ := hq i List.mem_cons_self
    cases verdict with
    | error v => exact Or.inr ⟨[], is, i, v, rfl, nofun, hv⟩
    | ok u =>
      rcases ih fun j hj => hq j (List.mem_cons_of_mem _ hj) with hall | ⟨before, after, j, v, rfl, hb, hj⟩
      · left
        intro j hj
        rcases List.mem_cons.mp hj with rfl | hj
        · exact hv
        · exact hall j hj
      · refine Or.inr ⟨i :: before, after, j, v, rfl, fun k hk => ?_, hj⟩
        rcases List.mem_cons.mp hk with rfl | hk
        · exact hv
        · exact hb k hk

/-! ## One step -/

section step
variable {h : Harness A} {k : Nat} {step : Step A.Command} {s : State A}

theorem stepWrong_of_panic {m : String} (hm : caught (executed h.ctx step s).1 = .undeclaredPanic m) :
    StepWrong h k step s := by
  cases he : (executed h.ctx step s).1 with
  | error p => exact Or.inl ⟨p, he⟩
  | ok o =>
    rw [he] at hm
    exact Or.inr (Or.inl ⟨m, by rw [he]; exact congrArg _ hm⟩)

/-- What a step without a panic goes on to. -/
theorem step_eq_checks (hq : Quiet h) (hno : ∀ m, caught (executed h.ctx step s).1 ≠ .undeclaredPanic m) :
    h.step h.ctx k step s = (checkAll h.invariants (invariantCtx h.ctx k step s)).map fun _ => taken h.ctx s step := by
  obtain ⟨model, hm⟩ := hq.applies step.command s.model h.ctx.addresses (caught (executed h.ctx step s).1)
  have htaken : taken h.ctx s step = ⟨(executed h.ctx step s).2, model⟩ := by
    simp only [taken, hm]
  rw [step_of_outcome hno]
  unfold judge invariantCtx
  simp only [hm, htaken]
  cases checkAll h.invariants _ with
  | ok u => rfl
  | error stop => rfl

variable (k step s) in
/-- A step goes through when nothing goes wrong, and is reported when something does. -/
theorem step_ok_or_reports (hq : Quiet h) :
    (¬ StepWrong h k step s ∧ h.step h.ctx k step s = .ok (taken h.ctx s step)) ∨
    (StepWrong h k step s ∧ ∃ v, StepReports h k step s v) := by
  by_cases hp : ∃ m, caught (executed h.ctx step s).1 = .undeclaredPanic m
  · obtain ⟨m, hm⟩ := hp
    exact Or.inr ⟨stepWrong_of_panic hm, _, .panic m hm⟩
  · have hno : ∀ m, caught (executed h.ctx step s).1 ≠ .undeclaredPanic m := fun m hm => hp ⟨m, hm⟩
    rcases all_or_first fun i hi => hq.checks i hi (invariantCtx h.ctx k step s) with hall | hfirst
    · left
      constructor
      · rintro (⟨p, he⟩ | ⟨m, he⟩ | ⟨i, hi, v, hv⟩)
        · exact hno (panicMessage p) (by rw [he]; rfl)
        · exact hno m (by rw [he]; rfl)
        · rw [hall i hi] at hv
          cases hv
      · rw [step_eq_checks hq hno, checkAll_ok hall]
        rfl
    · obtain ⟨before, after, i, v, hinv, hb, hi⟩ := hfirst
      have hmem : i ∈ h.invariants := by rw [hinv]; simp
      exact Or.inr ⟨Or.inr (Or.inr ⟨i, hmem, v, hi⟩), v, .invariant before after i v hno hinv hb hi⟩

theorem step_of_reports (hq : Quiet h) {v : Violation} (hr : StepReports h k step s v) :
    ∃ stop, h.step h.ctx k step s = .error stop ∧ stop.result = .ok (.error v) := by
  cases hr with
  | panic m hm => exact ⟨_, step_undeclaredPanic_iff.mpr ⟨rfl, hm⟩, rfl⟩
  | invariant before after i v hno hinv hb hi =>
    refine ⟨.invariant v, ?_, rfl⟩
    rw [step_eq_checks hq hno, hinv, checkAll_first hb hi]
    rfl

end step

/-! ## Whole runs -/

section runs
variable {h : Harness A} {r r' : Run A.Command} {k : Nat}

theorem reaches_succ {step : Step A.Command} (hs : r.steps[k]? = some step) :
    reaches h r (k + 1) = taken h.ctx (reaches h r k) step := by
  rw [reaches, List.take_add_one, hs, Option.toList_some, List.foldl_append]
  rfl

theorem getElem?_steps {i : Nat} (hi : i < h.commandsPerRun) : (h.steps r)[i]? = r.steps[i]? := by
  rw [Harness.steps, List.getElem?_take_of_lt hi]

/-- As long as nothing goes wrong, the loop is where the steps lead. -/
theorem before_of_none (hq : Quiet h) (hk : k ≤ min r.steps.length h.commandsPerRun) (hno : ∀ i < k, ¬ Wrong h r i) :
    h.before r k = .ok (reaches h r k) := by
  induction k with
  | zero => rfl
  | succ k ih =>
    have hlt : k < min r.steps.length h.commandsPerRun := hk
    have hlen : k < r.steps.length := by omega
    obtain ⟨step, hs⟩ : ∃ step, r.steps[k]? = some step := ⟨_, List.getElem?_eq_getElem hlen⟩
    have hbefore := ih (by omega) fun i hi => hno i (by omega)
    have hx : h.Executes r k step (reaches h r k) := ⟨(getElem?_steps (by omega)).trans hs, hbefore⟩
    rw [hx.before_succ, reaches_succ hs]
    rcases step_ok_or_reports k step (reaches h r k) hq with ⟨-, hok⟩ | ⟨hw, -⟩
    · exact hok
    · exact absurd ⟨hlt, step, hs, hw⟩ (hno k (by omega))

theorem run_of_first (hq : Quiet h) {v : Violation} (hk : k < min r.steps.length h.commandsPerRun)
    (hno : ∀ i < k, ¬ Wrong h r i) (hr : Reports h r k v) : h.run r = .ok (.error v) := by
  obtain ⟨step, hs, hrep⟩ := hr
  obtain ⟨stop, hstep, hres⟩ := step_of_reports hq hrep
  have hx : h.Executes r k step (reaches h r k) :=
    ⟨(getElem?_steps (by omega)).trans hs, before_of_none hq (by omega) hno⟩
  rw [run_of_step_error hx hstep, hres]

theorem run_of_none (hq : Quiet h) (hno : ∀ i, ¬ Wrong h r i) : h.run r = .ok (.ok ()) := by
  rw [run_ok_iff]
  intro i step s hx
  have hlen : i < (h.steps r).length := (List.getElem?_eq_some_iff.mp hx.step).1
  have hlt : i < min r.steps.length h.commandsPerRun := by
    rw [Harness.steps, List.length_take] at hlen
    omega
  have hs : r.steps[i]? = some step := (getElem?_steps (by omega)).symm.trans hx.step
  obtain rfl : reaches h r i = s := by
    have := before_of_none hq (Nat.le_of_lt hlt) fun j _ => hno j
    rw [hx.before] at this
    cases this
    rfl
  rcases step_ok_or_reports i step (reaches h r i) hq with ⟨-, hok⟩ | ⟨hw, -⟩
  · exact ⟨_, hok⟩
  · exact absurd ⟨hlt, step, hs, hw⟩ (hno i)

theorem reports_of_wrong (hq : Quiet h) (hw : Wrong h r k) : ∃ v, Reports h r k v := by
  obtain ⟨-, step, hs, hw⟩ := hw
  rcases step_ok_or_reports k step (reaches h r k) hq with ⟨hno, -⟩ | ⟨-, v, hv⟩
  · exact absurd hw hno
  · exact ⟨v, step, hs, hv⟩

/-- The first step that goes wrong. -/
structure FirstWrong (h : Harness A) (r : Run A.Command) (k : Nat) : Prop where
  wrong : Wrong h r k
  least : ∀ i < k, ¬ Wrong h r i

theorem exists_first (hw : ∃ k, Wrong h r k) : ∃ k, FirstWrong h r k := by
  classical
  exact ⟨Nat.find hw, Nat.find_spec hw, fun i hi => Nat.find_min hw hi⟩

theorem run_of_firstWrong (hq : Quiet h) (hf : FirstWrong h r k) :
    ∃ v, Reports h r k v ∧ h.run r = .ok (.error v) := by
  obtain ⟨v, hv⟩ := reports_of_wrong hq hf.wrong
  exact ⟨v, hv, run_of_first hq hf.wrong.1 hf.least hv⟩

theorem run_ok_iff_none (hq : Quiet h) : h.run r = .ok (.ok ()) ↔ ∀ k, ¬ Wrong h r k := by
  constructor
  · intro hok k hw
    obtain ⟨j, hj⟩ := exists_first ⟨k, hw⟩
    obtain ⟨v, -, hv⟩ := run_of_firstWrong hq hj
    rw [hok] at hv
    cases hv
  · exact run_of_none hq

/-! Steps up to `k` decide whether step `k` goes wrong, and what is reported. -/

theorem reaches_congr (hrr : r.steps.take k = r'.steps.take k) : reaches h r k = reaches h r' k := by
  rw [reaches, reaches, hrr]

theorem getElem?_congr (hrr : r.steps.take (k + 1) = r'.steps.take (k + 1)) : r.steps[k]? = r'.steps[k]? := by
  rw [← List.getElem?_take_of_lt (Nat.lt_succ_self k), hrr, List.getElem?_take_of_lt (Nat.lt_succ_self k)]

theorem take_congr {i j : Nat} (hrr : r.steps.take j = r'.steps.take j) (hij : i ≤ j) :
    r.steps.take i = r'.steps.take i := by
  have := congrArg (List.take i) hrr
  rwa [List.take_take, List.take_take, Nat.min_eq_left hij] at this

theorem Wrong.congr (hrr : r.steps.take (k + 1) = r'.steps.take (k + 1)) (hw : Wrong h r k) : Wrong h r' k := by
  obtain ⟨hk, step, hs, hw⟩ := hw
  rw [getElem?_congr hrr] at hs
  rw [reaches_congr (take_congr hrr (Nat.le_succ k))] at hw
  have hlen := (List.getElem?_eq_some_iff.mp hs).1
  exact ⟨by omega, step, hs, hw⟩

theorem FirstWrong.congr (hrr : r.steps.take (k + 1) = r'.steps.take (k + 1)) (hf : FirstWrong h r k) :
    FirstWrong h r' k :=
  ⟨hf.wrong.congr hrr, fun i hi hw => hf.least i hi (hw.congr (take_congr hrr (by omega)).symm)⟩

/-- Runs that start alike report alike. -/
theorem run_congr (hq : Quiet h) (hrr : r.steps.take (k + 1) = r'.steps.take (k + 1)) (hf : FirstWrong h r k) :
    h.run r' = h.run r := by
  obtain ⟨v, ⟨step, hs, hv⟩, hrun⟩ := run_of_firstWrong hq hf
  have hf' := hf.congr hrr
  rw [hrun]
  refine run_of_first hq hf'.wrong.1 hf'.least ⟨step, (getElem?_congr hrr).symm.trans hs, ?_⟩
  rw [← reaches_congr (take_congr hrr (Nat.le_succ k))]
  exact hv

end runs

/-- What a run says is decided by its first step that goes wrong. -/
structure FindsFirst (h : Harness A) (r : Run A.Command) : Prop where
  ok : h.run r = .ok (.ok ()) ↔ ∀ k, ¬ Wrong h r k
  first : ∀ k, FirstWrong h r k → ∃ v, Reports h r k v ∧ h.run r = .ok (.error v)
  bound : h.run r = h.run ⟨r.steps.take h.commandsPerRun⟩
  append : ∀ v s, h.run r = .ok (.error v) → h.run ⟨r.steps ++ s⟩ = h.run r
  through : ∀ k, FirstWrong h r k → h.run ⟨r.steps.take (k + 1)⟩ = h.run r
  before : ∀ k, FirstWrong h r k → h.run ⟨r.steps.take k⟩ = .ok (.ok ())

theorem finds_first (h : Harness A) (hq : Quiet h) (r : Run A.Command) : FindsFirst h r where
  ok := run_ok_iff_none hq
  first k hf := run_of_firstWrong hq hf
  bound := by
    have hsteps : h.steps ⟨r.steps.take h.commandsPerRun⟩ = h.steps r := by
      rw [Harness.steps, Harness.steps, List.take_take, Nat.min_self]
    rw [Harness.run, Harness.run, Harness.stop, Harness.stop, hsteps]
  append v s hv := by
    have hw : ∃ k, Wrong h r k := by
      by_contra hno
      rw [(run_ok_iff_none hq).mpr fun k hk => hno ⟨k, hk⟩] at hv
      cases hv
    obtain ⟨k, hf⟩ := exists_first hw
    have hlen : k + 1 ≤ r.steps.length := by
      have := hf.wrong.1
      omega
    refine run_congr hq (k := k) ?_ hf
    rw [List.take_append_of_le_length hlen]
  through k hf := run_congr hq (by rw [List.take_take, Nat.min_self]) hf
  before k hf := by
    rw [run_ok_iff_none hq]
    intro i hw
    have hlt : i < k := by
      have := hw.1
      rw [List.length_take] at this
      omega
    exact hf.least i hlt (hw.congr (by rw [List.take_take, Nat.min_eq_left (by omega)]))

/-- A counter, and the claim that it stays below 2. -/
def bump : ContractAdapter where
  Storage := Nat
  Command := Unit
  Model := Unit
  empty := 0
  setup _ env := (env.nextAddress, (), env)
  execute _ _ _ env := (.ok .ok, { env with storage := env.storage + 1 })
  applyToModel _ _ _ _ := .ok ()

def belowTwo : Invariant bump where
  name := "below-two"
  check ctx :=
    if (show Nat from ctx.env.storage) < 2 then .ok (.ok ())
    else .ok (.error { invariant := "below-two", message := "", stepIndex := ctx.stepIndex })

def bumpHarness : Harness bump := (Harness.new bump).withInvariant belowTwo

theorem bumpHarness_quiet : Quiet bumpHarness := by
  refine ⟨fun _ _ _ _ => ⟨(), rfl⟩, fun i hi ctx => ?_⟩
  obtain rfl : i = belowTwo := List.mem_singleton.mp hi
  unfold belowTwo
  by_cases h : (show Nat from ctx.env.storage) < 2
  · exact ⟨_, if_pos h⟩
  · exact ⟨_, if_neg h⟩

theorem finds_first_bump : Quiet bumpHarness ∧ FindsFirst bumpHarness ⟨List.replicate 3 ⟨(), ⟨[]⟩, none⟩⟩ :=
  ⟨bumpHarness_quiet, finds_first bumpHarness bumpHarness_quiet _⟩

example : bumpHarness.run ⟨List.replicate 3 ⟨(), ⟨[]⟩, none⟩⟩ = .ok (.error ⟨"below-two", "", 1⟩) := rfl

end SoroFuzz.Core
