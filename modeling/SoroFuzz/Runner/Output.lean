/-
  SoroFuzz.Runner.Output — what the server reads off libFuzzer's output
  (`runner/output.rs`).

  The `regex` crate is `Lib.Regex`; its Unicode tables for `\d` and `\w` are a parameter
  (`Unicode`), of which only the ASCII part is fixed. A text is the list of its
  characters; where the source counts bytes, so does `byteLen`.
-/

import Mathlib.Algebra.Order.Ring.Int
import Mathlib.Data.List.DropRight
import SoroFuzz.Lib.Regex

namespace SoroFuzz.Runner

open Lib

/-- The `regex` crate's Unicode classes. -/
structure Unicode where
  digit : Char → Bool
  word : Char → Bool
  digit_ascii : ∀ c : Char, c.toNat < 128 → digit c = c.isDigit
  word_ascii : ∀ c : Char, c.toNat < 128 → word c = (c.isAlphanum || c == '_')

/-- The classes, over ASCII. -/
def asciiOnly : Unicode where
  digit := Char.isDigit
  word c := c.isAlphanum || c == '_'
  digit_ascii _ _ := rfl
  word_ascii _ _ := rfl

/-- `char::is_whitespace`, the Unicode property White_Space. -/
def isWhitespace (c : Char) : Bool :=
  let n := c.toNat
  (0x9 ≤ n ∧ n ≤ 0xD) ∨ n = 0x20 ∨ n = 0x85 ∨ n = 0xA0 ∨ n = 0x1680 ∨ (0x2000 ≤ n ∧ n ≤ 0x200A) ∨
    n = 0x2028 ∨ n = 0x2029 ∨
    n = 0x202F ∨ n = 0x205F ∨ n = 0x3000

/-- `str::trim`. -/
def trim (s : List Char) : List Char := (s.dropWhile isWhitespace).rdropWhile isWhitespace

def byteLen : List Char → Nat
  | [] => 0
  | c :: cs => c.utf8Size + byteLen cs

/-- The text from the first character boundary at or after byte `n` on. -/
def dropBytes (n : Nat) : List Char → List Char
  | [] => []
  | c :: cs => if n = 0 then c :: cs else dropBytes (n - c.utf8Size) cs

def parseDigits (s : List Char) : Option Int :=
  if s ≠ [] ∧ s.all Char.isDigit then some (Nat.ofDigitChars 10 s 0) else none

/-- `str::parse` for a signed integer of `w` bits. -/
def parseInt (w : Nat) (s : List Char) : Option Int :=
  let value :=
    match s with
    | '-' :: ds => (parseDigits ds).map fun n => -n
    | '+' :: ds => parseDigits ds
    | ds => parseDigits ds
  value.filter fun n => -2 ^ (w - 1) ≤ n ∧ n < 2 ^ (w - 1)

/-! ## The expressions -/

section re
variable (U : Unicode)

def lit (s : String) : Regex := .lit s.toList

def violationRe : Regex :=
  .seq (lit "invariant `") <| .seq (.group (.many (· ≠ '`'))) <| .seq (lit "` violated at step ") <|
    .seq (.group (.many U.digit)) <| .seq (lit ": ") (.group (.many (· ≠ '\n')))

def doneRunsRe : Regex :=
  .seq (lit "Done ") <| .seq (.group (.many U.digit)) <| .seq (lit " run") <| .seq (.opt (lit "s")) (lit " in")

def counterRe : Regex := .seq .lineStart <| .seq (lit "#") <| .seq (.group (.many U.digit)) (.wordEdge U.word)

def artifactRe : Regex := .seq (lit "Test unit written to ") (.group (.many fun c => !isWhitespace c))

end re

/-! ## parse -/

/-- `soro_fuzz_core::Violation`, recovered. -/
structure ParsedViolation where
  invariant : String
  stepIndex : Int
  message : String
  deriving DecidableEq, Repr

structure ParsedRun where
  iterations : Int
  crashed : Bool
  artifactPath : Option String
  finding : Option ParsedViolation
  deriving DecidableEq, Repr

/-- The text `caps[k]`, for `k` from 1. -/
def cap (m : Match) (k : Nat) : List Char := m.groups.getD (k - 1) []

section parse
variable (U : Unicode)

def parseIterations (text : List Char) : Int :=
  let counters := ((counterRe U).capturesIter text).filterMap fun c => parseInt 64 (cap c 1)
  match ((doneRunsRe U).captures text).bind fun caps => parseInt 64 (cap caps 1) with
  | some n => n
  | none => counters.max?.getD 0

def parseArtifactPath (text : List Char) : Option String :=
  (artifactRe.captures text).map fun caps => String.ofList (cap caps 1)

def parseViolation (text : List Char) : Option ParsedViolation :=
  ((violationRe U).captures text).bind fun caps =>
    (parseInt 32 (cap caps 2)).map fun stepIndex =>
      { invariant := String.ofList (cap caps 1), stepIndex, message := String.ofList (trim (cap caps 3)) }

def tail (text : List Char) (maxChars : Nat) : List Char :=
  if byteLen text ≤ maxChars then trim text else trim (dropBytes (byteLen text - maxChars) text)

def parse (combinedOutput : String) (exitCode : Option Int) (timedOut : Bool) : ParsedRun :=
  let text := combinedOutput.toList
  let crashed := !timedOut && exitCode.any (· ≠ 0)
  { iterations := parseIterations U text
    artifactPath := parseArtifactPath text
    crashed
    finding :=
      if crashed then
        some ((parseViolation U text).getD
          { invariant := "undeclared_panic", stepIndex := 0, message := String.ofList (tail text 2000) })
      else none }

end parse

end SoroFuzz.Runner
