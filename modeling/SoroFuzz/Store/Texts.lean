/-
  SoroFuzz.Store.Texts — a text that Postgres does not take (`store/postgres.rs`).

  The statement that binds it fails, and the method with it.

  Proved:
  - `body_meets_texts`: so a transaction that commits was handed no such text, in any
    interleaving.
  - `alone_refused`: and one that was does nothing, and returns its error.
-/

import SoroFuzz.Store.Postgres

namespace SoroFuzz.Store

open Lib.ReadCommitted
open Lib.Sql

/-- Postgres takes every text that the method binds. -/
def Call.storable : Call → Bool
  | .createCampaign _ _ _ input => input.storable
  | .getCampaign _ | .cancelCampaign _ => true
  | .claimJob _ workerId | .startRun _ workerId => Store.storable workerId
  | .finishRun _ finish _ => finish.storable

/-- Nothing is asked of the rows, only of what is committed, and of what is refused. -/
def textSpec : Lib.ReadCommitted.Spec Row Call Sql Reply where
  inv _ _ := True
  inv_later _ h := h
  guar _ _ := True
  guar_refl _ := trivial
  guar_trans _ _ := trivial
  assume _ _ _ _ := True
  refuse c r := c.storable = true ∨ r = .error
  post c _ _ _ _ _ := c.storable = true

section meets
variable {c : Call} {b n : Nat} {d0 d : Db} {ws : List Write} {runId : Uuid} {ids : Nat → Uuid}

theorem meets_storable (h : c.storable = true) {p : Program} : Meets textSpec c b d0 p ws n d := by
  induction p generalizing ws n d with
  | commit r => exact fun _ _ _ => ⟨trivial, trivial, h⟩
  | rollback r => exact Or.inl h
  | stmt l writes next ih => exact fun _ _ _ _ _ _ => ih _

/-- The finding that cannot be stored stops the loop. -/
theorem meets_insertFindings_refused {fs : List NewFinding} (h : fs.all NewFinding.storable = false) {k : Nat} :
    Meets textSpec c b d0 (insertFindings runId ids b fs k) ws n d := by
  induction fs generalizing k ws n d with
  | nil => cases h
  | cons f fs ih =>
    refine meets_insertRow (fun _ _ _ => Or.inr rfl) fun n' d' _ _ hok => ih ?_
    rw [Bool.or_eq_false_iff, Bool.not_eq_false'] at hok
    rwa [List.all_cons, hok.2, Bool.true_and] at h

end meets

theorem body_meets_texts (c : Call) (n : Nat) (d : Db) : Meets textSpec c n d (body c n) [] n d := by
  cases hc : c.storable with
  | true => exact meets_storable hc
  | false =>
    cases c with
    | getCampaign | cancelCampaign => cases hc
    | createCampaign campaignId runId jobId input =>
      show Meets textSpec _ n d (createCampaign campaignId runId jobId input n) [] n d
      refine meets_insertRow (fun _ _ _ => Or.inr rfl) fun _ _ _ _ hok => ?_
      rw [Bool.not_eq_false'] at hok
      cases hok.symm.trans hc
    | claimJob tie workerId =>
      refine binding_elim (motive := fun p => Meets textSpec (.claimJob tie workerId) n d p [] n d) (Or.inr rfl)
        fun hok => ?_
      cases hok.symm.trans hc
    | startRun runId workerId =>
      refine binding_elim (motive := fun p => Meets textSpec (.startRun runId workerId) n d p [] n d) (Or.inr rfl)
        fun hok => ?_
      cases hok.symm.trans hc
    | finishRun runId finish ids =>
      refine binding_elim (motive := fun p => Meets textSpec (.finishRun runId finish ids) n d p [] n d) (Or.inr rfl)
        fun hlog => ?_
      have hfindings : finish.findings.all NewFinding.storable = false := by
        rw [Call.storable, RunFinish.storable, hlog, Bool.true_and] at hc
        exact hc
      refine meets_update fun n1 d1 _ _ _ => ?_
      dsimp only
      split
      · exact meets_update fun _ _ _ _ _ => meets_insertFindings_refused hfindings
      · exact meets_insertFindings_refused hfindings

theorem alone_refused {c : Call} (h : c.storable = false) (now : DateTime) (d : Db) :
    alone (body c now) [] d = (.error, d) := by
  rcases alone_meets (S := textSpec) (fun _ _ => trivial) (n := now) (d := d) trivial (body_meets_texts c now d) with
    ⟨-, -, hok⟩ | ⟨hsame, hok | herror⟩
  · cases h.symm.trans hok
  · cases h.symm.trans hok
  · exact Prod.ext herror hsame

theorem alone_finishRun_refused (now : DateTime) {d : Db} {runId : Uuid} {finish : RunFinish} {ids : Nat → Uuid}
    (h : finish.storable = false) : alone (finishRun runId finish ids now) [] d = (.error, d) :=
  alone_refused (c := .finishRun runId finish ids) h now d

end SoroFuzz.Store
