/-
  SoroFuzz.Runner.Publish — what the subprocess runner publishes of a run, and what it
  answers (`runner/subprocess.rs`).

  The events and the answer are made of one `ParsedRun`. On their way into an event its
  numbers are clamped at 0 and cast to unsigned types.

  Proved:
  - `parseIterations_nonneg`, `parseViolation_nonneg`: no number read off an output is
    negative, so nothing is clamped.
  - `run_published`: the iterations and the findings that are published are those of the
    answer, and of a run that failed there are none.
  - `script_brief`: it publishes no status, and three events at most.
-/

import SoroFuzz.Queue.Story
import SoroFuzz.Runner.Iterations
import SoroFuzz.Runner.Subprocess

namespace SoroFuzz.Runner

open Queue (RunJob RunFinding RunResult RunnerError RunnerScript ProgressEvent Terminal channelCapacity)
open Lib

variable {U : Unicode}

/-! ## The numbers of an output -/

theorem counterRe_groups {prev : Option Char} {s : List Char} {m : Match} (h : m ∈ (counterRe U).ways prev s) :
    ∃ ds, m.groups = [ds] ∧ ∀ c ∈ ds, U.digit c = true := by
  obtain ⟨a, b, ha, hb, rfl⟩ := Regex.mem_seq h
  rw [Regex.ways] at ha
  split at ha
  · rw [List.mem_singleton.mp ha] at hb ⊢
    obtain ⟨c, d, hc, hd, rfl⟩ := Regex.mem_seq hb
    obtain ⟨-, -, hcg⟩ := Regex.mem_lit hc
    obtain ⟨e, g, he, hg, rfl⟩ := Regex.mem_seq hd
    obtain ⟨e', he', rfl⟩ := Regex.mem_group he
    obtain ⟨-, heg, -, hds⟩ := Regex.mem_runs he'
    rw [Regex.ways] at hg
    split at hg
    · rw [List.mem_singleton.mp hg]
      exact ⟨e'.text, by simp [hcg, heg], hds⟩
    · cases hg
  · cases ha

theorem parseIterations_nonneg (text : List Char) : 0 ≤ parseIterations U text := by
  unfold parseIterations
  dsimp only
  split
  · rename_i n hn
    obtain ⟨m, hm, hn⟩ := Option.bind_eq_some_iff.mp hn
    obtain ⟨_, _, -, hway⟩ := Regex.find_sound hm
    obtain ⟨ds, hgroups, _, -, -, hds, -⟩ := mem_doneRunsRe hway
    rw [cap, hgroups] at hn
    exact (parseInt_count hds hn).1
  · cases hmax : (((counterRe U).capturesIter text).filterMap fun c => parseInt 64 (cap c 1)).max? with
    | none => exact Int.le_refl 0
    | some n =>
      obtain ⟨m, hm, hn⟩ := List.mem_filterMap.mp (List.max?_mem hmax)
      obtain ⟨_, _, hfind⟩ := Regex.mem_findAll hm
      obtain ⟨_, _, -, hway⟩ := Regex.find_sound hfind
      obtain ⟨ds, hgroups, hds⟩ := counterRe_groups hway
      rw [cap, hgroups] at hn
      exact (parseInt_count hds hn).1

theorem parseViolation_nonneg {text : List Char} {v : ParsedViolation} (h : parseViolation U text = some v) :
    0 ≤ v.stepIndex := by
  obtain ⟨m, hm, hv⟩ := Option.bind_eq_some_iff.mp h
  obtain ⟨n, hn, rfl⟩ := Option.map_eq_some_iff.mp hv
  obtain ⟨_, _, -, hway⟩ := Regex.find_sound hm
  obtain ⟨name, digits, line, hgroups, -, -, hdigits, -⟩ := mem_violationRe hway
  rw [cap, hgroups] at hn
  exact (parseInt_count hdigits hn).1

theorem parse_finding_nonneg {text : String} {exitCode : Option Int} {timedOut : Bool} {v : ParsedViolation}
    (h : (parse U text exitCode timedOut).finding = some v) : 0 ≤ v.stepIndex := by
  unfold parse at h
  dsimp only at h
  split at h
  · cases h
    cases hp : parseViolation U text.toList with
    | none => exact Int.le_refl 0
    | some v => exact parseViolation_nonneg hp
  · cases h

/-! ## run -/

/-- The event that a finding is published as. -/
def announced (finding : RunFinding) : ProgressEvent := .finding finding.invariant finding.stepIndex.toNat

/-- What `run` publishes, beside what it answers. -/
inductive Publishes (job : RunJob) : List ProgressEvent × Except RunnerError RunResult → Prop
  | failed (command : String) (e : RunnerError) : Publishes job ([.log command .info], .error e)
  | finished (command : String) (result : RunResult) : 0 ≤ result.iterations →
      (∀ finding ∈ result.findings, 0 ≤ finding.stepIndex) → result.findings.length ≤ 1 →
      Publishes job (.log command .info :: .iterations result.iterations.toNat job.timeBudgetSecs ::
        result.findings.map announced, .ok result)

theorem run_published (sandbox : Sandbox) (runner : SubprocessRunner) (job : RunJob) :
    Publishes job (runner.run U sandbox job) := by
  unfold SubprocessRunner.run
  dsimp only
  split
  · exact .failed _ _
  · rename_i output _
    split
    · exact .failed _ _
    · cases hf : (parse U output.combined output.exitCode output.timedOut).finding with
      | none =>
        exact .finished _ ⟨_, _, [], _⟩ (parseIterations_nonneg _) (fun _ h => by cases h) (Nat.zero_le 1)
      | some violation =>
        refine .finished _ ⟨_, _, [runFinding _ violation], _⟩ (parseIterations_nonneg _) (fun finding h => ?_)
          (Nat.le_refl 1)
        rw [List.mem_singleton.mp h]
        exact parse_finding_nonneg hf

/-- The runner, when its sandbox does of run `id` what `sandbox id` says. -/
def SubprocessRunner.script (U : Unicode) (sandbox : Store.Uuid → Sandbox) (runner : SubprocessRunner) :
    RunnerScript := fun job => runner.run U (sandbox job.runId) job

theorem script_brief (sandbox : Store.Uuid → Sandbox) (runner : SubprocessRunner) :
    (runner.script U sandbox).Brief where
  quiet job e he := by
    have hp := run_published (U := U) (sandbox job.runId) runner job
    unfold SubprocessRunner.script at he
    cases hrun : runner.run U (sandbox job.runId) job with
    | mk events answer =>
      rw [hrun] at hp he
      cases hp with
      | failed command =>
        rw [List.mem_singleton.mp he]
        exact Bool.false_ne_true
      | finished command result =>
        rcases List.mem_cons.mp he with rfl | he
        · exact Bool.false_ne_true
        · rcases List.mem_cons.mp he with rfl | he
          · exact Bool.false_ne_true
          · obtain ⟨finding, -, rfl⟩ := List.mem_map.mp he
            exact Bool.false_ne_true
  short job := by
    have hp := run_published (U := U) (sandbox job.runId) runner job
    unfold SubprocessRunner.script
    cases hrun : runner.run U (sandbox job.runId) job with
    | mk events answer =>
      rw [hrun] at hp
      cases hp with
      | failed command => exact Nat.le_of_ble_eq_true rfl
      | finished command result _ _ hone =>
        have hlen : (result.findings.map announced).length ≤ 1 := by rwa [List.length_map]
        simp only [List.length_cons, channelCapacity]
        omega

end SoroFuzz.Runner
