/-
  SoroFuzz.Counter.Contract — the counter example's contract (`examples/counter/src/lib.rs`).

  What a counter is for is `Call.target`: the number a call makes of the number there is.

  Proved:
  - `run_ok`: a call whose target fits an i64, and that the admin authorized if it is
    gated, stores the target and nothing else.
  - `run_refused`: any other changes nothing, and fails as the contract declares or for
    want of the admin's authorization.
-/

import SoroFuzz.Core.Client

namespace SoroFuzz.Counter

open SoroFuzz.Core
open Lib (I64)

inductive Error where
  | overflow
  | underflow
  deriving DecidableEq, Repr

/-- `e as u32`. -/
def Error.code : Error → UInt32
  | .overflow => 1
  | .underflow => 2

/-- The instance storage, by key. -/
structure Storage where
  admin : Option Address
  count : Option I64

def Storage.empty : Storage := ⟨none, none⟩

def Storage.setCount (s : Storage) (x : I64) : Storage := { s with count := some x }

/-- `__constructor`. -/
def construct (admin : Address) : Storage := { Storage.empty with admin := some admin }.setCount 0

def one : I64 := ⟨1, by decide, by decide⟩

def get (s : Storage) : I64 := s.count.getD 0

def increment : Exec Storage Error I64 := do
  let count := (← Exec.get).count.getD 0
  let newCount ← Exec.okOr (count.checkedAdd one) .overflow
  Exec.modify (·.setCount newCount)
  pure newCount

def decrement : Exec Storage Error I64 := do
  let count := (← Exec.get).count.getD 0
  let newCount ← Exec.okOr (count.checkedSub one) .underflow
  Exec.modify (·.setCount newCount)
  pure newCount

/-- `auth` is whom `require_auth` lets pass in this call. -/
def reset (auth : Address → Bool) : Exec Storage Error I64 := do
  let admin ← Exec.unwrap (← Exec.get).admin
  Exec.requireAuth auth admin
  Exec.modify (·.setCount 0)
  pure 0

def set (auth : Address → Bool) (value : I64) : Exec Storage Error I64 := do
  let admin ← Exec.unwrap (← Exec.get).admin
  Exec.requireAuth auth admin
  Exec.modify (·.setCount value)
  pure value

@[simp] theorem get_setCount (s : Storage) (x : I64) : get (s.setCount x) = x := rfl
@[simp] theorem admin_setCount (s : Storage) (x : I64) : (s.setCount x).admin = s.admin := rfl

/-! ## Any call -/

inductive Call where
  | increment
  | decrement
  | reset
  | set (value : I64)
  deriving DecidableEq, Repr

def Call.run (auth : Address → Bool) : Call → Exec Storage Error I64
  | .increment => Counter.increment
  | .decrement => Counter.decrement
  | .reset => Counter.reset auth
  | .set value => Counter.set auth value

/-- What the call is to make of the count `n`. -/
def Call.target (n : Int) : Call → Int
  | .increment => n + 1
  | .decrement => n - 1
  | .reset => 0
  | .set value => value.val

/-- The call needs the admin's authorization. -/
def Call.gated : Call → Bool
  | .increment => false
  | .decrement => false
  | .reset => true
  | .set _ => true

variable {auth : Address → Bool} {s : Storage} {admin : Address} {c : Call}

theorem run_ok {v : I64} (ha : s.admin = some admin) (hauth : c.gated = true → auth admin = true)
    (hv : v.val = c.target (get s).val) : c.run auth s = (.ok v, s.setCount v) := by
  cases c with
  | increment =>
    have hadd : (s.count.getD 0).checkedAdd one = some v := Lib.SInt.checkedAdd_eq_some.mpr hv
    simp [Call.run, increment, hadd]
  | decrement =>
    have hsub : (s.count.getD 0).checkedSub one = some v := Lib.SInt.checkedSub_eq_some.mpr hv
    simp [Call.run, decrement, hsub]
  | reset =>
    obtain rfl : v = 0 := Lib.SInt.ext hv
    simp [Call.run, reset, ha, hauth rfl]
  | set value =>
    obtain rfl : v = value := Lib.SInt.ext hv
    simp [Call.run, set, ha, hauth rfl]

theorem run_refused (ha : s.admin = some admin)
    (h : ¬ ((c.gated = true → auth admin = true) ∧ ∃ v : I64, v.val = c.target (get s).val)) :
    ∃ f, c.run auth s = (.error f, s) ∧ Expected (!c.gated || auth admin) f := by
  cases c with
  | increment =>
    have hnone : (s.count.getD 0).checkedAdd one = none := by
      by_contra hsome
      obtain ⟨v, hv⟩ := Option.ne_none_iff_exists'.mp hsome
      exact h ⟨nofun, v, Lib.SInt.checkedAdd_eq_some.mp hv⟩
    exact ⟨.declared .overflow, by simp [Call.run, increment, hnone], trivial⟩
  | decrement =>
    have hnone : (s.count.getD 0).checkedSub one = none := by
      by_contra hsome
      obtain ⟨v, hv⟩ := Option.ne_none_iff_exists'.mp hsome
      exact h ⟨nofun, v, Lib.SInt.checkedSub_eq_some.mp hv⟩
    exact ⟨.declared .underflow, by simp [Call.run, decrement, hnone], trivial⟩
  | reset =>
    have hno : auth admin = false := by
      by_contra hauth
      exact h ⟨fun _ => by simpa using hauth, 0, rfl⟩
    exact ⟨.authFailed, by simp [Call.run, reset, ha, hno], hno⟩
  | set value =>
    have hno : auth admin = false := by
      by_contra hauth
      exact h ⟨fun _ => by simpa using hauth, value, rfl⟩
    exact ⟨.authFailed, by simp [Call.run, set, ha, hno], hno⟩

end SoroFuzz.Counter
