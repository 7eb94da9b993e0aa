/-
  SoroFuzz.Escrow.Lifecycle — the life of an escrow, over any calls at any times.

  What an escrow is for is `Moves`: it is deposited into once, then released or refunded
  once, and that is the end. The order of the calls' timestamps plays no part: a call is
  judged by its own.

  Proved:
  - `invoke_cases`: a call moves the escrow along, or fails and writes nothing.
  - `isChain_statuses`: so the statuses move along or stay.
  - `release_xor_refund`: before the deadline a deposit can be released and not refunded,
    from the deadline on refunded and not released.
  - `escrow_lifecycle`: all of it.
-/

import Mathlib.Data.List.Destutter
import SoroFuzz.Escrow.Contract

namespace SoroFuzz.Escrow

open SoroFuzz.Core
open Lib (I128)

/-- A call, with its time and whom it is authorized by. -/
structure Invocation where
  now : Nat
  auth : Address → Bool
  call : Call

def Invocation.invoke (i : Invocation) (s : Storage) : CallEnd Unit Error × Storage :=
  Exec.invoke (i.call.run i.auth i.now) s

def Invocation.Succeeds (i : Invocation) (s : Storage) : Prop := (i.invoke s).1 = .ok ()

def after (s : Storage) : List Invocation → Storage
  | [] => s
  | i :: rest => after (i.invoke s).2 rest

/-- The status at the start, and after each call. -/
def statuses (s : Storage) : List Invocation → List (Option Status)
  | [] => [s.status]
  | i :: rest => s.status :: statuses (i.invoke s).2 rest

/-- The lifecycle: what a call makes of a status. -/
def Moves (a b : Option Status) : Prop := ∃ c : Call, a = some c.source ∧ b = some c.target

/-! ## Sequences that move or stay -/

section destutter
variable {α : Type} [DecidableEq α] {R : α → α → Prop}

theorem destutter'_head (a : α) (l : List α) : ∃ t, l.destutter' (· ≠ ·) a = a :: t := by
  induction l with
  | nil => exact ⟨[], rfl⟩
  | cons b l ih =>
    by_cases h : a = b
    · obtain ⟨t, ht⟩ := ih
      exact ⟨t, by rw [List.destutter'_cons_neg _ (not_not.mpr h), ht]⟩
    · exact ⟨_, List.destutter'_cons_pos _ h⟩

/-- With the repetitions left out, only the moves remain. -/
theorem isChain_destutter {l : List α} (h : l.IsChain fun a b => a = b ∨ R a b) : (l.destutter (· ≠ ·)).IsChain R := by
  cases l with
  | nil => exact .nil
  | cons a l =>
    rw [List.destutter_cons']
    induction l generalizing a with
    | nil => exact .singleton a
    | cons b l ih =>
      rw [List.isChain_cons_cons] at h
      by_cases hab : a = b
      · subst hab
        rw [List.destutter'_cons_neg _ (not_not.mpr rfl)]
        exact ih a h.2
      · have hchain := ih b h.2
        obtain ⟨t, ht⟩ := destutter'_head b l
        rw [List.destutter'_cons_pos _ hab, ht, List.isChain_cons_cons]
        rw [ht] at hchain
        exact ⟨h.1.resolve_left hab, hchain⟩

end destutter

theorem moves_empty {b : Option Status} (h : Moves (some .empty) b) : b = some .deposited := by
  obtain ⟨c, hc, rfl⟩ := h
  cases c with
  | deposit amount => rfl
  | release | refund => cases hc

theorem moves_deposited {b : Option Status} (h : Moves (some .deposited) b) :
    b = some .released ∨ b = some .refunded := by
  obtain ⟨c, hc, rfl⟩ := h
  cases c with
  | deposit amount => cases hc
  | release => exact Or.inl rfl
  | refund => exact Or.inr rfl

theorem moves_final {a b : Option Status} (h : Moves a b) : a ≠ some .released ∧ a ≠ some .refunded := by
  obtain ⟨c, rfl, -⟩ := h
  cases c <;> exact ⟨nofun, nofun⟩

/-- A whole life, or the part of one there has been. -/
theorem prefix_of_moves {l : List (Option Status)} (h : (some .empty :: l).IsChain Moves) :
    some .empty :: l <+: [some .empty, some .deposited, some .released] ∨
    some .empty :: l <+: [some .empty, some .deposited, some .refunded] := by
  cases l with
  | nil => exact Or.inl ⟨[some .deposited, some .released], rfl⟩
  | cons b l =>
    rw [List.isChain_cons_cons] at h
    obtain rfl := moves_empty h.1
    cases l with
    | nil => exact Or.inl ⟨[some .released], rfl⟩
    | cons c l =>
      rw [List.isChain_cons_cons] at h
      have hend : l = [] := by
        cases l with
        | nil => rfl
        | cons d l =>
          have hfinal := moves_final (List.isChain_cons_cons.mp h.2.2).1
          exact absurd (moves_deposited h.2.1) (not_or.mpr hfinal)
      subst hend
      rcases moves_deposited h.2.1 with rfl | rfl
      · exact Or.inl (List.prefix_refl _)
      · exact Or.inr (List.prefix_refl _)

/-! ## Calls -/

variable {depositor beneficiary : Address} {deadline : Nat} {st : Status} {s : Storage} {i : Invocation}

theorem invoke_cases (h : Holds depositor deadline st s) :
    (i.call.Allowed (i.auth depositor) i.now deadline st ∧ i.invoke s = (.ok (), i.call.effect s)) ∨
    ∃ f, i.call.run i.auth i.now s = (.error f, s) ∧ i.invoke s = (.error f, s) := by
  by_cases ha : i.call.Allowed (i.auth depositor) i.now deadline st
  · exact Or.inl ⟨ha, Exec.invoke_ok (run_ok h ha)⟩
  · obtain ⟨f, hrun, -⟩ := run_refused h ha
    exact Or.inr ⟨f, hrun, Exec.invoke_error hrun⟩

theorem succeeds_iff (h : Holds depositor deadline st s) :
    i.Succeeds s ↔ i.call.Allowed (i.auth depositor) i.now deadline st := by
  unfold Invocation.Succeeds
  constructor
  · intro hok
    rcases invoke_cases (i := i) h with ⟨ha, -⟩ | ⟨f, -, hf⟩
    · exact ha
    · rw [hf] at hok
      cases hok
  · intro ha
    rw [Invocation.invoke, Exec.invoke_ok (run_ok h ha)]

theorem invoke_of_succeeds (h : Holds depositor deadline st s) (hok : i.Succeeds s) :
    i.invoke s = (.ok (), i.call.effect s) := Exec.invoke_ok (run_ok h ((succeeds_iff h).mp hok))

theorem invoke_holds (h : Holds depositor deadline st s) :
    ∃ st', Holds depositor deadline st' (i.invoke s).2 ∧ (st = st' ∨ Moves (some st) (some st')) := by
  rcases invoke_cases (i := i) h with ⟨ha, hi⟩ | ⟨f, -, hi⟩
  · rw [hi]
    exact ⟨_, h.effect i.call, Or.inr ⟨i.call, congrArg some ha.status, rfl⟩⟩
  · rw [hi]
    exact ⟨st, h, Or.inl rfl⟩

theorem release_xor_refund (h : Holds depositor deadline .deposited s) (now : Nat) {auth : Address → Bool}
    (hauth : auth depositor = true) :
    Xor (Invocation.Succeeds ⟨now, auth, .release⟩ s) (Invocation.Succeeds ⟨now, auth, .refund⟩ s) := by
  rw [succeeds_iff h, succeeds_iff h]
  by_cases ht : now < deadline
  · exact Or.inl ⟨⟨fun _ => hauth, rfl, ht⟩, fun ha => absurd ha.time (Nat.not_le.mpr ht)⟩
  · exact Or.inr ⟨⟨nofun, rfl, Nat.not_lt.mp ht⟩, fun ha => ht ha.time⟩

/-! ## Runs -/

theorem after_holds (calls : List Invocation) (h : Holds depositor deadline st s) :
    ∃ st', Holds depositor deadline st' (after s calls) := by
  induction calls generalizing s st with
  | nil => exact ⟨st, h⟩
  | cons i rest ih =>
    obtain ⟨st', h', -⟩ := invoke_holds (i := i) h
    exact ih h'

theorem statuses_head (s : Storage) (calls : List Invocation) : ∃ t, statuses s calls = s.status :: t := by
  cases calls with
  | nil => exact ⟨[], rfl⟩
  | cons i rest => exact ⟨_, rfl⟩

theorem isChain_statuses (calls : List Invocation) (h : Holds depositor deadline st s) :
    (statuses s calls).IsChain fun a b => a = b ∨ Moves a b := by
  induction calls generalizing s st with
  | nil => exact .singleton _
  | cons i rest ih =>
    obtain ⟨st', h', hm⟩ := invoke_holds (i := i) h
    have hchain := ih h'
    obtain ⟨t, ht⟩ := statuses_head (i.invoke s).2 rest
    rw [statuses, ht, List.isChain_cons_cons, h.status, h'.status]
    rw [ht, h'.status] at hchain
    refine ⟨?_, hchain⟩
    rcases hm with rfl | hm
    · exact Or.inl rfl
    · exact Or.inr hm

/-- Once there was a deposit there is none again. -/
theorem after_not_empty (calls : List Invocation) (h : Holds depositor deadline st s) (hne : st ≠ .empty) :
    ∃ st', Holds depositor deadline st' (after s calls) ∧ st' ≠ .empty := by
  induction calls generalizing s st with
  | nil => exact ⟨st, h, hne⟩
  | cons i rest ih =>
    obtain ⟨st', h', hm⟩ := invoke_holds (i := i) h
    refine ih h' ?_
    rcases hm with rfl | ⟨c, -, hc⟩
    · exact hne
    · cases hc
      cases c <;> exact nofun

theorem after_append (s : Storage) (l m : List Invocation) : after s (l ++ m) = after (after s l) m := by
  induction l generalizing s with
  | nil => rfl
  | cons i l ih => exact ih _

/-- What a call does to an escrow in the state `s`. -/
structure Governed (depositor : Address) (deadline : Nat) (s : Storage) : Prop where
  release : ∀ i : Invocation, i.call = .release → i.Succeeds s → i.now < deadline ∧ i.auth depositor = true
  refund : ∀ i : Invocation, i.call = .refund → i.Succeeds s → deadline ≤ i.now
  amount : ∀ i : Invocation, (i.invoke s).2.amount ≠ s.amount → (∃ amount, i.call = .deposit amount) ∧ i.Succeeds s
  failed : ∀ (i : Invocation) f, (i.invoke s).1 = .error f →
    i.call.run i.auth i.now s = (.error f, s) ∧ (i.invoke s).2 = s
  exclusive : s.status = some .deposited → ∀ now auth, auth depositor = true →
    Xor (Invocation.Succeeds ⟨now, auth, .release⟩ s) (Invocation.Succeeds ⟨now, auth, .refund⟩ s)

theorem governed (h : Holds depositor deadline st s) : Governed depositor deadline s := by
  refine ⟨fun i hc hok => ?_, fun i hc hok => ?_, fun i hne => ?_, fun i f hf => ?_, fun hd now auth hauth => ?_⟩
  · obtain ⟨ha, -, ht⟩ := (succeeds_iff h).mp hok
    rw [hc] at ha ht
    exact ⟨ht, ha rfl⟩
  · obtain ⟨-, -, ht⟩ := (succeeds_iff h).mp hok
    rw [hc] at ht
    exact ht
  · rcases invoke_cases (i := i) h with ⟨-, hi⟩ | ⟨f, -, hi⟩
    · refine ⟨?_, by rw [Invocation.Succeeds, hi]⟩
      rw [hi] at hne
      cases hc : i.call with
      | deposit amount => exact ⟨amount, rfl⟩
      | release | refund =>
        rw [hc] at hne
        exact absurd rfl hne
    · rw [hi] at hne
      exact absurd rfl hne
  · rcases invoke_cases (i := i) h with ⟨-, hi⟩ | ⟨f', hrun, hi⟩
    · rw [hi] at hf
      cases hf
    · rw [hi] at hf
      cases hf
      exact ⟨hrun, by rw [hi]⟩
  · obtain rfl : st = .deposited := Option.some.inj (h.status.symm.trans hd)
    exact release_xor_refund h now hauth

/-- An escrow's life, under any calls. -/
structure Lifecycle (depositor beneficiary : Address) (deadline : Nat) (calls : List Invocation) : Prop where
  statuses :
    (statuses (construct depositor beneficiary deadline) calls).destutter (· ≠ ·) <+:
      [some .empty, some .deposited, some .released] ∨
    (statuses (construct depositor beneficiary deadline) calls).destutter (· ≠ ·) <+:
      [some .empty, some .deposited, some .refunded]
  governed : Governed depositor deadline (after (construct depositor beneficiary deadline) calls)
  /-- Of two deposits the second fails. -/
  single : ∀ before i between (next : Invocation) amount amount', calls = before ++ i :: between →
    i.call = .deposit amount → i.Succeeds (after (construct depositor beneficiary deadline) before) →
    next.call = .deposit amount' → ¬ next.Succeeds (after (construct depositor beneficiary deadline) calls)

theorem escrow_lifecycle (depositor beneficiary : Address) (deadline : Nat) (calls : List Invocation) :
    Lifecycle depositor beneficiary deadline calls := by
  have h0 := holds_construct depositor beneficiary deadline
  obtain ⟨st, h⟩ := after_holds calls h0
  refine ⟨?_, governed h, ?_⟩
  · have hchain := isChain_destutter (isChain_statuses calls h0)
    obtain ⟨t, ht⟩ := statuses_head (construct depositor beneficiary deadline) calls
    rw [ht, List.destutter_cons'] at hchain ⊢
    obtain ⟨t', ht'⟩ := destutter'_head (some Status.empty) t
    rw [show (construct depositor beneficiary deadline).status = some .empty from rfl, ht'] at hchain ⊢
    exact prefix_of_moves hchain
  · intro before i between next amount amount' hcalls hi hok hnext hok'
    obtain ⟨st1, h1⟩ := after_holds before h0
    have h2 := h1.effect i.call
    obtain ⟨st3, h3, hne⟩ := after_not_empty between h2 (by rw [hi]; exact nofun)
    have hafter : after (construct depositor beneficiary deadline) calls =
        after (i.call.effect (after (construct depositor beneficiary deadline) before)) between := by
      rw [hcalls, after_append, after, invoke_of_succeeds h1 hok]
    rw [hafter] at hok'
    obtain ⟨-, hst, -⟩ := (succeeds_iff h3).mp hok'
    rw [hnext] at hst
    exact hne hst

def fiveDeposited : Storage := after (construct 0 1 1000) [⟨0, (· == 0), .deposit (.wrap 5)⟩]

example : fiveDeposited.status = some .deposited ∧ Invocation.Succeeds ⟨999, (· == 0), .release⟩ fiveDeposited ∧
    Invocation.Succeeds ⟨1000, fun _ => false, .refund⟩ fiveDeposited := ⟨rfl, rfl, rfl⟩

end SoroFuzz.Escrow
