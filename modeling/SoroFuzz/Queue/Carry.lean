/-
  SoroFuzz.Queue.Carry — rules for invariants of worlds.

  Only a commit changes the committed rows and the commits so far, whatever the step is
  (`Stepped.recorded`). And what a worker knows, it knows from the answers it got: a
  protocol that tells how its knowledge grows carries a property of it along (`Carries`).

  Proved:
  - `reach_commits`: what every commit keeps holds of every reachable world.
  - `carries_step`: what no step takes back, and the answers of the store add to, every
    worker carries.
-/

import SoroFuzz.Queue.World

namespace SoroFuzz.Queue

open SoroFuzz.Store
open Lib.Process
open World

variable {ws : Nat → Worker} {s s' : World}

/-! ## The rows and the commits -/

theorem commits_cons {e : Event} {log : List Event} (h : ∀ tx c r, e ≠ .committed tx c r) :
    commits (e :: log) = commits log := by
  unfold commits
  rw [List.filterMap_cons]
  split
  · rfl
  · rename_i heq
    split at heq
    · exact absurd rfl (h _ _ _)
    · cases heq

/-- A step leaves the committed rows and the commits alone, or is a commit. -/
inductive Recorded (s s' : World) : Prop
  | still : s'.pg.db = s.pg.db → commits s'.log = commits s.log → Recorded s s'
  | commit (i : Nat) (t : Txn) (r : Reply) : s.pg.txns.lookup i = some t → t.prog = .commit r →
      s'.pg.db = Lib.ReadCommitted.applyAll t.writes s.pg.db →
      commits s'.log = ⟨i, t.call, r⟩ :: commits s.log → Recorded s s'

theorem World.Stepped.recorded (hs : Stepped ws s s') : Recorded s s' := by
  cases hs with
  | tick | poll | publisher => exact .still rfl rfl
  | reply | failed | emit | close | run | answer => exact .still rfl (commits_cons (by simp))
  | exec i t l pg ht hp hpg =>
    cases Lib.ReadCommitted.step_cases body hpg with
    | exec => exact .still rfl (commits_cons (by simp))
  | abort i t r pg ht hp hpg =>
    cases Lib.ReadCommitted.step_cases body hpg with
    | abort => exact .still rfl (commits_cons (by simp))
  | api c pg _ hpg =>
    cases Lib.ReadCommitted.step_cases body hpg with
    | start => exact .still rfl (commits_cons (by simp))
  | call k tie ids op next pg _ hpg =>
    cases Lib.ReadCommitted.step_cases body hpg with
    | start =>
      refine .still rfl ?_
      show commits (.called k op s.next :: .began s.next (op.call tie ids) :: s.log) = commits s.log
      rw [commits_cons (by simp), commits_cons (by simp)]
  | commit i t r pg ht hp hpg =>
    cases Lib.ReadCommitted.step_cases body hpg with
    | commit _ t' r' ht' _ =>
      rw [ht] at ht'
      cases ht'
      exact .commit i t r ht hp rfl rfl

theorem World.Stepped.log_subset (hs : Stepped ws s s') : ∀ e, e ∈ s.log → e ∈ s'.log := by
  intro e he
  cases hs with
  | tick | poll | publisher => exact he
  | call => exact List.mem_cons_of_mem _ (List.mem_cons_of_mem _ he)
  | _ => exact List.mem_cons_of_mem _ he

theorem reach_sound (h : World.Reach ws s) : Sound s := by
  induction h with
  | init => exact sound_init
  | step a _ hs ih => exact sound_step ih (step_cases hs)

/-- What holds before anything is committed, and is kept by every commit of a
    transaction on well-formed rows, holds of every reachable world. -/
theorem reach_commits (P : Db → List Commit → Prop) (h0 : P ∅ [])
    (hcommit : ∀ {b d0 d d' cs tx c r}, Wf d → Effect (fun _ => True) b d0 c r d d' → P d cs → P d' (⟨tx, c, r⟩ :: cs))
    (h : World.Reach ws s) : P s.pg.db (commits s.log) := by
  induction h with
  | init => exact h0
  | @step s s' a hr hs ih =>
    have hsound := reach_sound hr
    cases (step_cases hs).recorded with
    | still hdb hcs => rw [hdb, hcs]; exact ih
    | commit i t r ht hp hdb hcs =>
      have he := (Lib.ReadCommitted.commit_post hsound.ok ht hp).2.2
      rw [hdb, hcs]
      exact hcommit hsound.ok.inv he ih

/-! ## What a worker carries -/

section carries
variable {Φ : Type} (P : Nat → Protocol Action Action.Answer Φ) (I : World → Φ → Prop)

/-- Worker `k` obeys its protocol from a phase on of which `I` holds. -/
def Carries (s : World) (k : Nat) : Doing → Prop
  | .at p => ∃ φ, Obeys (P k) φ p ∧ I s φ
  | .waiting tx op next => .called k op tx ∈ s.log ∧
      ∃ φ, (P k).allows φ (.store op) ∧ (∀ r, Obeys (P k) ((P k).after φ (.store op) r) (next r)) ∧ I s φ
  | .running job next =>
      ∃ φ, (P k).allows φ (.run job) ∧ (∀ a, Obeys (P k) ((P k).after φ (.run job) a) (next a)) ∧ I s φ

variable {P I}

theorem Carries.later {k : Nat} {x : Doing} (h : Carries P I s k x) (hlog : ∀ e, e ∈ s.log → e ∈ s'.log)
    (hI : ∀ φ, I s φ → I s' φ) : Carries P I s' k x := by
  cases x with
  | «at» p =>
    obtain ⟨φ, hp, hφ⟩ := h
    exact ⟨φ, hp, hI φ hφ⟩
  | waiting tx op next =>
    obtain ⟨hc, φ, ha, hn, hφ⟩ := h
    exact ⟨hlog _ hc, φ, ha, hn, hI φ hφ⟩
  | running job next =>
    obtain ⟨φ, ha, hn, hφ⟩ := h
    exact ⟨φ, ha, hn, hI φ hφ⟩

/-- The worker's turn: all others carry what they carried. -/
theorem carries_turn (h : ∀ k, Carries P I s k (s.workers k)) {k : Nat} {x : Doing}
    (hworkers : s'.workers = Function.update s.workers k x) (hlog : ∀ e, e ∈ s.log → e ∈ s'.log)
    (hI : ∀ φ, I s φ → I s' φ) (hx : Carries P I s' k x) (j : Nat) : Carries P I s' j (s'.workers j) := by
  rw [hworkers]
  by_cases hj : j = k
  · subst hj
    rw [Function.update_self]
    exact hx
  · rw [Function.update_of_ne hj]
    exact (h j).later hlog hI

/-- A phase `φ0` from which a turn of `run_loop` may begin is as good as any. The answer
    to a call, an error without one, and what is no call at all keep `I`. -/
theorem carries_step (φ0 : Φ) (hloop : ∀ k, Obeys (P k) φ0 (ws k).runLoop) (hstart : ∀ s, I s φ0)
    (hI : ∀ φ, I s φ → I s' φ)
    (hreply : ∀ k φ op tx r, (P k).allows φ (.store op) → I s φ → .called k op tx ∈ s.log →
      replyOf s.log tx = some r → I s ((P k).after φ (.store op) r))
    (herror : ∀ k φ op, (P k).allows φ (.store op) → I s φ → I s ((P k).after φ (.store op) .error))
    (hlocal : ∀ k φ a r, (∀ op, a ≠ .store op) → (P k).allows φ a → I s φ → I s ((P k).after φ a r))
    (hs : Stepped ws s s') (h : ∀ k, Carries P I s k (s.workers k)) (j : Nat) : Carries P I s' j (s'.workers j) := by
  have hlog := hs.log_subset
  have hcarry : ∀ {k : Nat} {x : Doing}, s.workers k = x → Carries P I s k x := fun {k x} hk => hk ▸ h k
  cases hs with
  | tick | exec | commit | abort | api => exact (h j).later hlog hI
  | poll k hk => exact carries_turn h (k := k) (x := .at (ws k).runLoop) rfl hlog hI ⟨φ0, hloop k, hstart _⟩ j
  | call k tie ids op next pg hk hpg =>
    obtain ⟨φ, hp, hφ⟩ := hcarry hk
    exact carries_turn h (k := k) (x := .waiting s.next op next) rfl hlog hI
      ⟨List.mem_cons_self, φ, hp.allows, hp.next, hI φ hφ⟩ j
  | reply k tx op next r hk hr =>
    obtain ⟨hcalled, φ, ha, hn, hφ⟩ := hcarry hk
    exact carries_turn h (k := k) (x := .at (next r)) rfl hlog hI
      ⟨_, hn r, hI _ (hreply k φ op tx r ha hφ hcalled hr)⟩ j
  | failed k op next hk =>
    rcases hk with hk | ⟨tx, hk⟩
    · obtain ⟨φ, hp, hφ⟩ := hcarry hk
      exact carries_turn h (k := k) (x := .at (next .error)) rfl hlog hI
        ⟨_, hp.next .error, hI _ (herror k φ op hp.allows hφ)⟩ j
    · obtain ⟨-, φ, ha, hn, hφ⟩ := hcarry hk
      exact carries_turn h (k := k) (x := .at (next .error)) rfl hlog hI
        ⟨_, hn .error, hI _ (herror k φ op ha hφ)⟩ j
  | publisher k runId next hk | emit k runId e next hk | close k runId next hk =>
    obtain ⟨φ, hp, hφ⟩ := hcarry hk
    exact carries_turn h (k := k) (x := .at (next ())) rfl hlog hI
      ⟨_, hp.next (), hI _ (hlocal k φ _ () (by simp) hp.allows hφ)⟩ j
  | run k job next hk =>
    obtain ⟨φ, hp, hφ⟩ := hcarry hk
    exact carries_turn h (k := k) (x := .running job next) rfl hlog hI
      ⟨φ, hp.allows, hp.next, hI φ hφ⟩ j
  | answer k job next a hk =>
    obtain ⟨φ, ha, hn, hφ⟩ := hcarry hk
    exact carries_turn h (k := k) (x := .at (next a)) rfl hlog hI
      ⟨_, hn a, hI _ (hlocal k φ (.run job) a (by simp) ha hφ)⟩ j

end carries

end SoroFuzz.Queue
