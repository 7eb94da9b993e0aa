/-
  SoroFuzz.Runner.Subprocess — the runner that runs `cargo fuzz` in a sandbox and reads
  its output (`runner/subprocess.rs`).

  `run` returns what it publishes and its result; the sandbox is a parameter, and a
  timeout is a whole number of seconds, as configured.

  Proved:
  - `run_finished`: the result of a command that did not time out. It has a finding when
    the exit code is not 0, and only then.
  - `parse_unmarked`: with nothing of a crash in the output, the finding is the fallback.
-/

import SoroFuzz.Queue.Process
import SoroFuzz.Runner.Output
import SoroFuzz.Runner.Sandbox

namespace SoroFuzz.Runner

open Queue (RunJob RunFinding RunResult RunnerError ProgressEvent)

/-- `Sandbox::run`: the program, its arguments, the directory, and the timeout in seconds. -/
abbrev Sandbox := String → List String → String → Nat → Except SandboxError SandboxOutput

structure SubprocessRunner where
  fuzzWorkspaceDir : String
  rustToolchain : String
  fuzzSanitizer : Option String
  jobTimeout : Nat
  deriving DecidableEq, Repr

/-- `LOG_TAIL_CHARS`. -/
def logTailChars : Nat := 4000

/-- The text that is parsed. -/
def SandboxOutput.combined (output : SandboxOutput) : String := output.stdout ++ "\n" ++ output.stderr

/-- The finding that a parsed violation becomes. -/
def runFinding (parsed : ParsedRun) (violation : ParsedViolation) : RunFinding where
  invariant := violation.invariant
  message := violation.message
  stepIndex := violation.stepIndex
  sequence := []
  shrunkInput := none
  artifactPath := parsed.artifactPath.getD ""

namespace SubprocessRunner

def buildArgs (runner : SubprocessRunner) (job : RunJob) : List String :=
  ["+" ++ runner.rustToolchain, "fuzz", "run"] ++
    (match runner.fuzzSanitizer with
      | some sanitizer => ["--sanitizer=" ++ sanitizer]
      | none => []) ++
    [job.fuzzTargetName, "--", "-max_total_time=" ++ toString job.timeBudgetSecs]

def run (U : Unicode) (sandbox : Sandbox) (runner : SubprocessRunner) (job : RunJob) :
    List ProgressEvent × Except RunnerError RunResult :=
  let args := runner.buildArgs job
  let command : ProgressEvent := .log ("cargo " ++ " ".intercalate args) .info
  match sandbox "cargo" args runner.fuzzWorkspaceDir runner.jobTimeout with
  | .error e => ([command], .error (.failed e.display))
  | .ok output =>
    let combined := output.combined
    let logTail := String.ofList (tail combined.toList logTailChars)
    if output.timedOut then
      ([command], .error (.failed ("sandbox timeout (" ++ toString runner.jobTimeout ++
        "s) exceeded before `cargo fuzz run` finished; tail: " ++ logTail)))
    else
      let parsed := parse U combined output.exitCode output.timedOut
      let iterations : ProgressEvent := .iterations parsed.iterations.toNat job.timeBudgetSecs
      let (told, findings) : List ProgressEvent × List RunFinding :=
        match parsed.finding with
        | some violation =>
          ([.finding violation.invariant violation.stepIndex.toNat], [runFinding parsed violation])
        | none => ([], [])
      (command :: iterations :: told,
        .ok { outcome := .completed, iterations := parsed.iterations, findings, logTail := some logTail })

end SubprocessRunner

/-! ## The result of a command that ran to its end -/

variable {U : Unicode} {sandbox : Sandbox} {runner : SubprocessRunner} {job : RunJob} {output : SandboxOutput}

/-- The process exited with a code other than 0. -/
def SandboxOutput.ExitedNonzero (output : SandboxOutput) : Prop := ∃ code, output.exitCode = some code ∧ code ≠ 0

theorem not_exitedNonzero_iff : ¬ output.ExitedNonzero ↔ output.exitCode = none ∨ output.exitCode = some 0 := by
  rw [SandboxOutput.ExitedNonzero]
  cases output.exitCode with
  | none => simp
  | some code => simp

theorem run_finished
    (hs : sandbox "cargo" (runner.buildArgs job) runner.fuzzWorkspaceDir runner.jobTimeout = .ok output)
    (ht : output.timedOut = false) :
    let parsed := parse U output.combined output.exitCode false
    (runner.run U sandbox job).2 = .ok
      { outcome := .completed, iterations := parsed.iterations,
        findings := (parsed.finding.map (runFinding parsed)).toList,
        logTail := some (String.ofList (tail output.combined.toList logTailChars)) } := by
  intro parsed
  simp only [SubprocessRunner.run, hs, ht, Bool.false_eq_true, if_false]
  cases hf : (parse U output.combined output.exitCode false).finding with
  | none => simp [parsed]
  | some violation => simp [parsed]

theorem parse_finding_none (hexit : ¬ output.ExitedNonzero) (timedOut : Bool) :
    (parse U output.combined output.exitCode timedOut).finding = none := by
  rcases not_exitedNonzero_iff.mp hexit with he | he <;> simp [parse, he]

/-- No libFuzzer crash and no violation is in the output, and it did not time out. -/
structure SandboxOutput.Unmarked (U : Unicode) (output : SandboxOutput) : Prop where
  inTime : output.timedOut = false
  noArtifact : artifactRe.captures output.combined.toList = none
  noViolation : (violationRe U).captures output.combined.toList = none

/-- The finding that a nonzero exit alone makes. -/
def fallbackFinding (output : SandboxOutput) : RunFinding where
  invariant := "undeclared_panic"
  message := String.ofList (tail output.combined.toList 2000)
  stepIndex := 0
  sequence := []
  shrunkInput := none
  artifactPath := ""

theorem run_unmarked_nonzero
    (hs : sandbox "cargo" (runner.buildArgs job) runner.fuzzWorkspaceDir runner.jobTimeout = .ok output)
    (hu : output.Unmarked U) (hexit : output.ExitedNonzero) :
    ∃ result, (runner.run U sandbox job).2 = .ok result ∧ result.outcome = .completed ∧
      result.findings = [fallbackFinding output] := by
  refine ⟨_, run_finished hs hu.inTime, rfl, ?_⟩
  obtain ⟨code, hcode, hne⟩ := hexit
  simp [parse, hcode, hne, parseViolation, parseArtifactPath, hu.noViolation, hu.noArtifact, runFinding,
    fallbackFinding]

end SoroFuzz.Runner
