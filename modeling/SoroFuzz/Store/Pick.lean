/-
  SoroFuzz.Store.Pick — the job that `claim_job` picks (`store/postgres.rs`).

  Proved:
  - `oldest_least`: no job that it could have picked is older than the one it picks.
  - `claimJob_stmt`: what its one statement does, whatever others have locked.
  - `alone_claimJob_none`, `alone_claimJob_some`: what it does alone.
-/

import SoroFuzz.Store.Postgres

namespace SoroFuzz.Store

open Lib.ReadCommitted (alone applyAll_nil)
open Lib.Sql (alone_updatePicked binding_ok)

/-! ## The oldest job -/

section oldest
variable {tie : Uuid → Nat} {jobs : List (Uuid × JobRow)} {x : Uuid × JobRow}

theorem oldest_mem (h : oldest tie jobs = some x) : x ∈ jobs := by
  induction jobs with
  | nil => cases h
  | cons y js ih =>
    simp only [oldest] at h
    split at h
    · rename_i best hb
      split at h <;> cases h
      · exact List.mem_cons_self
      · exact List.mem_cons_of_mem _ (ih hb)
    · cases h; exact List.mem_cons_self

theorem oldest_eq_none (h : oldest tie jobs = none) : jobs = [] := by
  cases jobs with
  | nil => rfl
  | cons j js =>
    simp only [oldest] at h
    split at h
    · split at h <;> cases h
    · cases h

theorem not_older_self (x : Uuid × JobRow) : older tie x x = false := by simp [older]

theorem oldest_least (h : oldest tie jobs = some x) : ∀ e ∈ jobs, older tie e x = false := by
  induction jobs generalizing x with
  | nil => cases h
  | cons y js ih =>
    intro e he
    simp only [oldest] at h
    split at h
    · rename_i best hb
      split at h <;> rename_i hy <;> cases h
      · rcases List.mem_cons.mp he with rfl | he
        · exact not_older_self _
        · have hnot := ih hb e he
          simp only [older, decide_eq_true_eq, decide_eq_false_iff_not] at hnot hy ⊢
          grind
      · rcases List.mem_cons.mp he with rfl | he
        · simpa using hy
        · exact ih hb e he
    · rename_i hb
      cases h
      rw [oldest_eq_none hb, List.mem_singleton] at he
      rw [he]
      exact not_older_self _

theorem oldest_le (h : oldest tie jobs = some x) : ∀ e ∈ jobs, x.2.createdAt ≤ e.2.createdAt := by
  intro e he
  have hnot := oldest_least h e he
  rw [older, decide_eq_false_iff_not, not_or] at hnot
  exact Nat.le_of_not_lt hnot.1

/-- A job that is older than every other is the one it picks. -/
theorem oldest_eq (hx : x ∈ jobs) (h : ∀ e ∈ jobs, e = x ∨ older tie x e = true) : oldest tie jobs = some x := by
  cases ho : oldest tie jobs with
  | none =>
    rw [oldest_eq_none ho] at hx
    cases hx
  | some e =>
    rcases h e (oldest_mem ho) with rfl | hold
    · rfl
    · rw [oldest_least ho x hx] at hold
      cases hold

end oldest

/-! ## claim_job -/

/-- The row of a job that `workerId` claims. -/
def JobRow.claim (j : JobRow) (workerId : String) (now : DateTime) : JobRow :=
  { j with claimedBy := some workerId, claimedAt := some now, attempts := j.attempts + 1 }

section claim
variable {tie : Uuid → Nat} {workerId : String} {now : DateTime} {d : Db} {jobId : Uuid} {j : JobRow}

theorem mem_claimable {locked : Key → Bool} : (jobId, j) ∈ claimable ⟨d, locked⟩ ↔ d.job jobId = some j ∧
    j.claimedBy = none ∧ (∃ r, d.run j.runId = some r ∧ r.status = .pending) ∧ locked (.jobQueue jobId) = false := by
  simp [claimable, Db.mem_jobQueue, Option.any_eq_true]

/-- Nothing is left for it, or it claims the oldest job. -/
theorem claimJob_stmt {l : Sql} {writes : View → List Write} {next : View → Program}
    (h : claimJob tie workerId now = .stmt l writes next) (v : View) : storable workerId = true ∧
      ((claimable v = [] ∧ writes v = [] ∧ next v = .commit (.claimed none)) ∨
        ∃ id j, oldest tie (claimable v) = some (id, j) ∧ writes v = [⟨.jobQueue id, some (j.claim workerId now)⟩] ∧
          next v = .commit (.claimed (some ⟨id, j.campaignId, j.runId, j.attempts + 1⟩))) := by
  cases hid : storable workerId with
  | false =>
    rw [claimJob, hid] at h
    cases h
  | true =>
    rw [claimJob, binding_ok hid] at h
    cases h
    refine ⟨rfl, ?_⟩
    dsimp only
    cases ho : oldest tie (claimable v) with
    | none => exact Or.inl ⟨oldest_eq_none ho, rfl, rfl⟩
    | some x => exact Or.inr ⟨x.1, x.2, rfl, rfl, rfl⟩

theorem alone_claimJob_none (hid : storable workerId = true) (now : DateTime)
    (h : oldest tie (claimable ⟨d, fun _ => false⟩) = none) :
    alone (claimJob tie workerId now) [] d = (.claimed none, d) := by
  rw [claimJob, binding_ok hid]
  refine (alone_updatePicked (e := none) ?_).trans rfl
  rw [applyAll_nil, h]
  rfl

theorem alone_claimJob_some (hid : storable workerId = true) (now : DateTime)
    (h : oldest tie (claimable ⟨d, fun _ => false⟩) = some (jobId, j)) :
    alone (claimJob tie workerId now) [] d =
      (.claimed (some ⟨jobId, j.campaignId, j.runId, j.attempts + 1⟩),
        d.insert (.jobQueue jobId) (j.claim workerId now)) := by
  rw [claimJob, binding_ok hid]
  refine (alone_updatePicked (e := some ⟨.jobQueue jobId, j.claim workerId now⟩) ?_).trans rfl
  rw [applyAll_nil, h]
  rfl

end claim

end SoroFuzz.Store
