/-
  SoroFuzz.Api.Campaigns — the handlers of `POST /campaigns` and `GET /campaigns`
  (`api/campaigns.rs`, `api/error.rs`), up to their call of the store and from its answer
  on.

  A budget has the width it has in the source; `as` wraps. Chrono's RFC 3339 parser is a
  parameter.

  Proved:
  - `createCampaign_ok`: what a request that is accepted asks for, and what of it is
    passed on.
  - `listFilter_page`: a query for one page asks the store for it.
-/

import SoroFuzz.Lib.SInt
import SoroFuzz.Queue.Targets
import SoroFuzz.Store.Read

namespace SoroFuzz.Api

open Lib (SInt I64)
open Queue (TargetRegistry Target)
open Runner (trim)
open SoroFuzz.Store

abbrev I32 := SInt 32

structure ApiError where
  status : Nat
  error : String
  message : String
  deriving DecidableEq, Repr

namespace ApiError

def badRequest (error message : String) : ApiError := ⟨400, error, message⟩

def internal : ApiError := ⟨500, "internal_error", "an internal error occurred"⟩

end ApiError

structure AppState where
  targets : TargetRegistry
  maxTimeBudgetSecs : I64

/-- `config.job_timeout.as_secs() as i64`, of `JOB_TIMEOUT_SECONDS`. -/
def maxTimeBudgetSecs (jobTimeoutSeconds : UInt64) : I64 := SInt.wrap jobTimeoutSeconds.toNat

structure CampaignDto where
  id : Uuid
  targetId : String
  name : String
  invariantIds : List String
  timeBudgetSecs : Int
  status : CampaignStatus
  runId : Uuid
  createdAt : DateTime
  deriving DecidableEq, Repr

def CampaignDto.from_ (r : CampaignRecord) : CampaignDto where
  id := r.id
  targetId := r.targetId
  name := r.name
  invariantIds := r.invariantIds
  timeBudgetSecs := r.timeBudgetSecs
  status := r.status
  runId := r.runId
  createdAt := r.createdAt

/-! ## POST /campaigns -/

structure CreateCampaignRequest where
  targetId : String
  name : String
  invariantIds : List String
  timeBudgetSecs : I64
  deriving DecidableEq, Repr

/-- What the store is asked to create. -/
def createCampaign (state : AppState) (body : CreateCampaignRequest) : Except ApiError NewCampaign :=
  match state.targets.get body.targetId with
  | none => .error (.badRequest "unknown_target" ("no target with id `" ++ body.targetId ++ "`"))
  | some target =>
    if trim body.name.toList = [] then .error (.badRequest "invalid_name" "name must not be empty")
    else
      match body.invariantIds.find? (fun id => id ∉ target.availableInvariants.map (·.id)) with
      | some invariantId =>
        .error (.badRequest "unknown_invariant"
          ("target `" ++ body.targetId ++ "` has no invariant `" ++ invariantId ++ "`"))
      | none =>
        if body.timeBudgetSecs.val < 1 ∨ state.maxTimeBudgetSecs.val < body.timeBudgetSecs.val then
          .error (.badRequest "invalid_time_budget"
            ("timeBudgetSecs must be between 1 and " ++ toString state.maxTimeBudgetSecs.val ++
              " (the configured JOB_TIMEOUT_SECONDS)"))
        else
          .ok { targetId := body.targetId, name := body.name, invariantIds := body.invariantIds,
                timeBudgetSecs := (SInt.wrap body.timeBudgetSecs.val : I32).val }

/-- The response to the store's answer. -/
def created : Reply → Except ApiError (Nat × CampaignDto)
  | .created record => .ok (201, .from_ record)
  | _ => .error .internal

variable {state : AppState} {body : CreateCampaignRequest} {input : NewCampaign}

theorem createCampaign_ok (h : createCampaign state body = .ok input) :
    (∃ target, state.targets.get body.targetId = some target ∧
      ∀ id ∈ body.invariantIds, id ∈ target.availableInvariants.map (·.id)) ∧
    1 ≤ body.timeBudgetSecs.val ∧ body.timeBudgetSecs.val ≤ state.maxTimeBudgetSecs.val ∧
    input = { targetId := body.targetId, name := body.name, invariantIds := body.invariantIds,
              timeBudgetSecs := (SInt.wrap body.timeBudgetSecs.val : I32).val } := by
  rw [createCampaign] at h
  split at h
  · cases h
  · rename_i target htarget
    split at h
    · cases h
    · split at h
      · cases h
      · rename_i hfind
        split at h
        · cases h
        · rename_i hbudget
          cases h
          refine ⟨⟨target, htarget, fun id hid => ?_⟩, by omega, by omega, rfl⟩
          simpa using List.find?_eq_none.mp hfind id hid

/-! ## GET /campaigns -/

theorem bind_ok {ε α β : Type} {x : Except ε α} {g : α → Except ε β} {b : β} (h : x >>= g = .ok b) :
    ∃ a, x = .ok a ∧ g a = .ok b := by
  cases x with
  | error e => cases h
  | ok a => exact ⟨a, rfl, h⟩

structure ListCampaignsQuery where
  status : Option String
  targetId : Option String
  since : Option String
  until_ : Option String
  limit : Option Int
  offset : Option Int

def defaultListLimit : Int := 50
def maxListLimit : Int := 200

def parseCampaignStatus : String → Except ApiError CampaignStatus
  | "queued" => .ok .queued
  | "running" => .ok .running
  | "completed" => .ok .completed
  | "cancelled" => .ok .cancelled
  | "failed" => .ok .failed
  | other => .error (.badRequest "invalid_status" ("`" ++ other ++ "` is not a valid status"))

section list
variable (parseRfc3339 : String → Option DateTime)

def parseDatetime (raw : String) : Except ApiError DateTime :=
  match parseRfc3339 raw with
  | some t => .ok t
  | none => .error (.badRequest "invalid_date" ("`" ++ raw ++ "` is not a valid ISO 8601 timestamp"))

/-- `Option::map` and `transpose`. -/
def parsed {α : Type} (parse : String → Except ApiError α) : Option String → Except ApiError (Option α)
  | none => .ok none
  | some raw => (parse raw).map some

/-- What the store is asked to list. -/
def listFilter (query : ListCampaignsQuery) : Except ApiError CampaignFilter := do
  let status ← parsed parseCampaignStatus query.status
  let since ← parsed (parseDatetime parseRfc3339) query.since
  let until_ ← parsed (parseDatetime parseRfc3339) query.until_
  .ok
    { status, targetId := query.targetId, since, until_
      limit := max 1 (min (query.limit.getD defaultListLimit) maxListLimit)
      offset := max 0 (query.offset.getD 0) }

end list

/-- The response to the store's answer. -/
def listed : Option (List CampaignRecord) → Except ApiError (List CampaignDto)
  | some records => .ok (records.map .from_)
  | none => .error .internal

/-- A query for one page asks for that page, with the same filter. -/
theorem listFilter_page {parseRfc3339 : String → Option DateTime} {query : ListCampaignsQuery} {f : CampaignFilter}
    (h : listFilter parseRfc3339 query = .ok f) {limit offset : Int} (hl : 1 ≤ limit ∧ limit ≤ 200)
    (ho : 0 ≤ offset) :
    listFilter parseRfc3339 { query with limit := some limit, offset := some offset } =
      .ok { f with limit, offset } := by
  have hlimit : max 1 (min limit 200) = limit := by omega
  have hoffset : max 0 offset = offset := by omega
  rw [listFilter] at h ⊢
  obtain ⟨status, hs, h⟩ := bind_ok h
  obtain ⟨since, hsince, h⟩ := bind_ok h
  obtain ⟨until_, huntil, h⟩ := bind_ok h
  cases h
  rw [hs, hsince, huntil]
  simp only [Option.getD_some, maxListLimit, hlimit, hoffset]
  rfl

theorem listFilter_targetId {parseRfc3339 : String → Option DateTime} {query : ListCampaignsQuery}
    {f : CampaignFilter} (h : listFilter parseRfc3339 query = .ok f) : f.targetId = query.targetId := by
  rw [listFilter] at h
  obtain ⟨status, -, h⟩ := bind_ok h
  obtain ⟨since, -, h⟩ := bind_ok h
  obtain ⟨until_, -, h⟩ := bind_ok h
  cases h
  rfl

end SoroFuzz.Api
