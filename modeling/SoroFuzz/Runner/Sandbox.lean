/-
  SoroFuzz.Runner.Sandbox — what `run_with_timeout` returns of a child's output
  (`runner/sandbox.rs`).

  Two tasks read the child's pipes to their end while the child runs. After a timeout the
  child's process group is killed and the tasks are given `drainGrace` to finish, both
  together; of tasks given up nothing is kept. A pipe ends when the last process that
  holds it is gone, which may be later than the child, or never.

  Not modeled: the command that is spawned, and an I/O error while reading.

  Proved:
  - `read_shows_iff`: a task's text shows what it read exactly when that is UTF-8.
  - `captured_iff`: so each stream is captured exactly when it is empty, or is UTF-8 and,
    after a timeout, both pipes ended in time.
  - `captured_survivor`: a survivor that holds stderr costs a finding printed on stdout.
-/

import SoroFuzz.Lib.Utf8

namespace SoroFuzz.Runner

open Lib (utf8 utf8_toByteArray Shows shows_utf8 shows_nil_iff)

structure SandboxOutput where
  stdout : String
  stderr : String
  exitCode : Option Int
  timedOut : Bool
  deriving DecidableEq, Repr

/-- `Spawn`, with the text of the I/O error. -/
inductive SandboxError where
  | spawn (e : String)
  deriving DecidableEq, Repr

def SandboxError.display : SandboxError → String
  | .spawn e => "failed to spawn subprocess: " ++ e

/-- `timeout(timeout, child.wait()).await`. -/
inductive Waited where
  | exited (code : Option Int)
  | failed
  | elapsed
  deriving DecidableEq, Repr

/-- What a reader task reads off its pipe, and when the pipe ends, in milliseconds from
    where the wait ended. -/
structure Pipe where
  chunks : List (List UInt8)
  eof : Option Nat
  deriving DecidableEq, Repr

/-- `DRAIN_GRACE`. -/
def drainGrace : Nat := 2000

namespace Pipe

def bytes (p : Pipe) : List UInt8 := p.chunks.flatten

/-- `read_to_string`: the buffer stays empty when the bytes are not UTF-8. -/
def readToString (p : Pipe) : String := (String.fromUTF8? p.bytes.toByteArray).getD ""

def drains (p : Pipe) : Bool := p.eof.any (· ≤ drainGrace)

end Pipe

/-- `none` while a task still waits for its pipe's end. -/
def runWithTimeout (spawn : Except String Unit) (waited : Waited) (stdout stderr : Pipe) :
    Option (Except SandboxError SandboxOutput) :=
  match spawn with
  | .error e => some (.error (.spawn e))
  | .ok () =>
    let (timedOut, exitCode) :=
      match waited with
      | .exited code => (false, code)
      | .failed => (false, none)
      | .elapsed => (true, none)
    if timedOut then
      let (out, err) := if stdout.drains && stderr.drains then (stdout.readToString, stderr.readToString) else ("", "")
      some (.ok { stdout := out, stderr := err, exitCode, timedOut })
    else if stdout.eof.isSome && stderr.eof.isSome then
      some (.ok { stdout := stdout.readToString, stderr := stderr.readToString, exitCode, timedOut })
    else none

/-! ## What is captured -/

/-- Each text shows all that was read from its pipe. -/
structure Captured (stdout stderr : Pipe) (out : SandboxOutput) : Prop where
  stdout : Shows stdout.bytes out.stdout.toList
  stderr : Shows stderr.bytes out.stderr.toList

/-- The bytes are the encoding of a text. -/
def Pipe.IsUtf8 (p : Pipe) : Prop := ∃ text, p.bytes = utf8 text

variable {p stdout stderr : Pipe} {waited : Waited} {out : SandboxOutput}

theorem isUtf8_iff : p.IsUtf8 ↔ p.bytes.toByteArray.IsValidUTF8 := by
  constructor
  · rintro ⟨text, h⟩
    rw [h]
    exact ⟨text, rfl⟩
  · rintro ⟨text, h⟩
    rw [← utf8_toByteArray] at h
    exact ⟨text, List.toByteArray_inj.mp h⟩

theorem readToString_of_utf8 {text : List Char} (h : p.bytes = utf8 text) : p.readToString.toList = text := by
  have hvalid : p.bytes.toByteArray.IsValidUTF8 := isUtf8_iff.mp ⟨text, h⟩
  have hbytes : p.bytes.toByteArray = (String.ofList text).toByteArray := by
    rw [h, String.toByteArray_ofList]
    rfl
  rw [Pipe.readToString, String.fromUTF8?, dif_pos hvalid, Option.getD_some, ← String.toList_ofList (l := text)]
  exact congrArg String.toList (String.toByteArray_inj.mp hbytes)

theorem readToString_of_not_utf8 (h : ¬ p.IsUtf8) : p.readToString = "" := by
  rw [Pipe.readToString, String.fromUTF8?, dif_neg (mt isUtf8_iff.mpr h)]
  rfl

/-- The text lost shows only what was never there. -/
theorem lost_shows_iff : Shows p.bytes "".toList ↔ p.bytes = [] := shows_nil_iff

theorem read_shows_iff : Shows p.bytes p.readToString.toList ↔ p.IsUtf8 := by
  constructor
  · intro h
    by_contra hno
    rw [readToString_of_not_utf8 hno, lost_shows_iff] at h
    exact hno ⟨[], h⟩
  · rintro ⟨text, h⟩
    rw [readToString_of_utf8 h, h]
    exact shows_utf8 text

/-- No timeout, or both pipes end within the grace period. -/
def Collected (waited : Waited) (stdout stderr : Pipe) : Prop :=
  waited = .elapsed → stdout.drains = true ∧ stderr.drains = true

/-- What a call that returns an output returns. -/
theorem runWithTimeout_ok {spawn : Except String Unit}
    (h : runWithTimeout spawn waited stdout stderr = some (.ok out)) :
    (Collected waited stdout stderr ∧ out.stdout = stdout.readToString ∧ out.stderr = stderr.readToString) ∨
      (¬ Collected waited stdout stderr ∧ out.stdout = "" ∧ out.stderr = "") := by
  cases spawn with
  | error e => cases h
  | ok =>
    cases waited with
    | elapsed =>
      by_cases hdrains : (stdout.drains && stderr.drains) = true
      · simp only [runWithTimeout, hdrains, if_true] at h
        cases h
        exact Or.inl ⟨fun _ => by simpa using hdrains, rfl, rfl⟩
      · simp only [runWithTimeout, hdrains, if_true] at h
        cases h
        exact Or.inr ⟨fun hc => hdrains (by simpa using hc rfl), rfl, rfl⟩
    | _ =>
      simp only [runWithTimeout, Bool.false_eq_true, if_false] at h
      split at h
      · cases h
        refine Or.inl ⟨fun hw => ?_, rfl, rfl⟩
        cases hw
      · cases h

/-- An output shows all that was read exactly when each stream is empty, or is UTF-8 and
    neither task was given up. -/
theorem captured_iff {spawn : Except String Unit} (h : runWithTimeout spawn waited stdout stderr = some (.ok out)) :
    Captured stdout stderr out ↔
      (stdout.bytes = [] ∨ (stdout.IsUtf8 ∧ Collected waited stdout stderr)) ∧
      (stderr.bytes = [] ∨ (stderr.IsUtf8 ∧ Collected waited stdout stderr)) := by
  have hempty : ∀ p : Pipe, p.bytes = [] → p.IsUtf8 := fun p hp => ⟨[], hp⟩
  have hsplit : Captured stdout stderr out ↔
      Shows stdout.bytes out.stdout.toList ∧ Shows stderr.bytes out.stderr.toList :=
    ⟨fun hc => ⟨hc.stdout, hc.stderr⟩, fun hc => ⟨hc.1, hc.2⟩⟩
  rw [hsplit]
  rcases runWithTimeout_ok h with ⟨hc, ho, he⟩ | ⟨hc, ho, he⟩
  · rw [ho, he, read_shows_iff, read_shows_iff]
    simp only [hc, and_true, or_iff_right_of_imp (hempty _)]
  · rw [ho, he, lost_shows_iff, lost_shows_iff]
    simp only [hc, and_false, or_false]

/-- The line of a violation, on stdout. -/
def violationLine : String := "invariant `total` violated at step 3: 5 != 4\n"

def printed : Pipe := ⟨[utf8 violationLine.toList], some 0⟩

theorem captured_in_time : Captured printed ⟨[], some 0⟩ ⟨printed.readToString, "", none, true⟩ := by
  have h : runWithTimeout (.ok ()) .elapsed printed ⟨[], some 0⟩ = some (.ok ⟨printed.readToString, "", none, true⟩) :=
    rfl
  exact (captured_iff h).mpr
    ⟨Or.inr ⟨⟨violationLine.toList, by simp [printed, Pipe.bytes]⟩, fun _ => ⟨rfl, rfl⟩⟩, Or.inl rfl⟩

/-- With stderr held by a survivor and empty, the line on stdout is lost. -/
theorem captured_survivor : ¬ ∀ (spawn : Except String Unit) (waited : Waited) (stdout stderr : Pipe)
    (out : SandboxOutput), runWithTimeout spawn waited stdout stderr = some (.ok out) →
      Captured stdout stderr out := by
  intro hall
  have h := (hall (.ok ()) .elapsed printed ⟨[], none⟩ ⟨"", "", none, true⟩ rfl).stdout
  rw [lost_shows_iff] at h
  simp [printed, Pipe.bytes, violationLine, utf8] at h

end SoroFuzz.Runner
