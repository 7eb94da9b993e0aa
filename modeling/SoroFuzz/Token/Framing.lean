/-
  SoroFuzz.Token.Framing — what a call of the token may write, and for whom.

  A function makes every check before its first write, so a failure has written nothing:
  the storage it fails in, before the host's rollback, is the one it began with.

  Proved:
  - `run_framed`: a call that succeeds writes the balances it names, and the supply if it
    issues or retires tokens.
  - `authorized_and_framed`: whatever changes the storage is such a call, and was
    authorized.
-/

import SoroFuzz.Token.Contract

namespace SoroFuzz.Token

open SoroFuzz.Core
open Lib (I128)

/-- The addresses the call names. -/
def Call.named : Call → List Address
  | .mint to_ _ => [to_]
  | .burn from_ _ => [from_]
  | .transfer from_ to_ _ => [from_, to_]

/-- The call issues or retires tokens. -/
def Call.issues : Call → Bool
  | .mint _ _ => true
  | .burn _ _ => true
  | .transfer _ _ _ => false

/-- `s'` is `s` but for what the call names. -/
structure Framed (c : Call) (s s' : Storage) : Prop where
  balances : ∀ a, a ∉ c.named → s'.balances.lookup a = s.balances.lookup a
  supply : c.issues = false → s'.totalSupply = s.totalSupply
  admin : s'.admin = s.admin

variable {auth : Address → Bool} {s : Storage} {c : Call}

theorem lookup_setBalance {a b : Address} (x : I128) (h : b ≠ a) :
    (s.setBalance a x).balances.lookup b = s.balances.lookup b := AList.lookup_insert_ne h

theorem run_framed (h : c.Succeeds auth s) : ∃ s', c.run auth s = (.ok (), s') ∧ Framed c s s' := by
  cases c with
  | mint to_ amount =>
    obtain ⟨nb, ns, -, -, hrun⟩ := mint_ok h
    exact ⟨_, discard_ok hrun, fun a ha => lookup_setBalance nb (List.ne_of_not_mem_cons ha), nofun, rfl⟩
  | burn from_ amount =>
    obtain ⟨nb, ns, -, -, hrun⟩ := burn_ok h
    exact ⟨_, discard_ok hrun, fun a ha => lookup_setBalance nb (List.ne_of_not_mem_cons ha), nofun, rfl⟩
  | transfer from_ to_ amount =>
    obtain ⟨nf, nt, -, -, hrun⟩ := transfer_ok h
    refine ⟨_, hrun, fun a ha => ?_, fun _ => rfl, rfl⟩
    obtain ⟨hf, ht⟩ := List.ne_and_not_mem_of_not_mem_cons ha
    rw [lookup_setBalance nt (List.ne_of_not_mem_cons ht), lookup_setBalance nf hf]

/-- What a call whose storage differs from `s` has done. -/
structure Authorized (auth : Address → Bool) (c : Call) (s : Storage) : Prop where
  authorizer : ∃ a, c.required s = some a ∧ auth a = true
  nonneg : 0 ≤ c.amount.val
  returns : (c.invoke auth s).1 = .ok ()
  framed : Framed c s (c.invoke auth s).2

theorem authorized_of_changed (h : (c.invoke auth s).2 ≠ s) : Authorized auth c s := by
  by_cases hok : c.Succeeds auth s
  · obtain ⟨s', hrun, hframed⟩ := run_framed hok
    have hinv : c.invoke auth s = (.ok (), s') := Exec.invoke_ok hrun
    exact ⟨hok.auth, hok.nonneg, by rw [hinv], by rw [hinv]; exact hframed⟩
  · exact absurd (invoke_refused hok).1 h

theorem run_error {f : Fault Error} {s' : Storage} (h : c.run auth s = (.error f, s')) : s' = s := by
  by_cases hok : c.Succeeds auth s
  · obtain ⟨s'', hrun, -⟩ := run_framed hok
    rw [hrun] at h
    cases h
  · obtain ⟨f', hrun, -⟩ := run_refused hok
    rw [hrun] at h
    cases h
    rfl

theorem authorized_and_framed (auth : Address → Bool) (c : Call) (s : Storage) :
    ((c.invoke auth s).2 ≠ s → Authorized auth c s) ∧ ∀ f s', c.run auth s = (.error f, s') → s' = s :=
  ⟨authorized_of_changed, fun _ _ => run_error⟩

end SoroFuzz.Token
