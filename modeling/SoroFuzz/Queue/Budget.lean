/-
  SoroFuzz.Queue.Budget — a campaign keeps what it was created with, and the job the
  runner is given is made from it.

  No statement updates a campaign's target, name, invariants or time budget, so a worker
  that loads the campaign reads what its creation stored, however late the read is and
  whatever runs beside it. `Budgeted` follows the record from the transaction that read
  it to the worker and into the job.

  Proved:
  - `effect_input`: no commit changes what a campaign was created with.
  - `runLoop_budgets`: a worker runs no job but with the budget of the record it loaded.
  - `budgeted_step`, `budgeted`: so in every reachable world, a job that the runner was
    given has its campaign's budget.
-/

import SoroFuzz.Queue.Custody

namespace SoroFuzz.Store

/-- What the campaign was created with. -/
def CampaignRow.input (c : CampaignRow) : NewCampaign := ⟨c.targetId, c.name, c.invariantIds, c.timeBudgetSecs⟩

def CampaignRecord.input (c : CampaignRecord) : NewCampaign := ⟨c.targetId, c.name, c.invariantIds, c.timeBudgetSecs⟩

/-- The campaign is there, and was created with `input`. -/
def CreatedWith (d : Db) (id : Uuid) (input : NewCampaign) : Prop := ∃ c, d.campaign id = some c ∧ c.input = input

variable {d d' d0 : Db} {id runId : Uuid} {input : NewCampaign}

theorem CreatedWith.moved {c c' : CampaignRow} {r' : RunRow} {i : Uuid} (hmv : Moved d d' i runId c' r')
    (hc : d.campaign i = some c) (hin : c'.input = c.input) (h : CreatedWith d id input) : CreatedWith d' id input := by
  obtain ⟨e, he, hei⟩ := h
  rw [CreatedWith, hmv.campaign]
  split
  · rename_i hid
    subst hid
    rw [hc] at he
    cases he
    exact ⟨c', rfl, hin.trans hei⟩
  · exact ⟨e, he, hei⟩

theorem effect_input {ok : CampaignStatus → Prop} {b : DateTime} {c : Call} {r : Reply}
    (he : Effect ok b d0 c r d d') (h : CreatedWith d id input) : CreatedWith d' id input := by
  cases he with
  | created campaignId _ _ _ _ hc _ _ =>
    obtain ⟨e, he, hei⟩ := h
    have hne : id ≠ campaignId := by rintro rfl; rw [hc] at he; cases he
    exact ⟨e, by simpa [hne] using he, hei⟩
  | got | cancelNoop | claimedNone | startedNot => exact h
  | cancelled _ _ _ _ _ _ hc _ _ _ hmv _ => exact h.moved hmv hc rfl
  | claimed _ _ _ _ _ _ =>
    obtain ⟨e, he, hei⟩ := h
    exact ⟨e, by simpa using he, hei⟩
  | started _ _ _ _ _ _ hc _ hmv _ _ => exact h.moved hmv hc rfl
  | finishedNot _ _ _ _ _ _ _ hs _ =>
    obtain ⟨e, he, hei⟩ := h
    exact ⟨e, (hs.campaign id).trans he, hei⟩
  | finished _ _ _ _ _ _ _ hc hmv _ => exact h.moved hmv hc rfl

theorem campaignWithRun_input {row : CampaignRecord} (h : campaignWithRun d id = some row) :
    CreatedWith d id row.input := by
  have hid : row.id = id := by simpa using List.find?_some h
  obtain ⟨⟨i, c⟩, hc, hm⟩ := List.mem_flatMap.mp (List.mem_of_find?_eq_some h)
  obtain ⟨⟨runId, r⟩, -, rfl⟩ := List.mem_map.mp hm
  cases hid
  exact ⟨c, Db.mem_campaigns.mp hc, rfl⟩

end SoroFuzz.Store

namespace SoroFuzz.Queue

open SoroFuzz.Store
open Lib.Process
open World

/-! ## The job that a worker runs -/

/-- What a worker knows of the campaign it is at. -/
inductive Known where
  | nothing
  | loaded (campaignId : Uuid) (row : CampaignRecord)

namespace Known

def reply : Known → StoreOp → Reply → Known
  | _, .getCampaign id, .campaign (some row) => .loaded id row
  | φ, _, _ => φ

/-- The job is made from the record. -/
def Makes : Known → RunJob → Prop
  | .nothing, _ => False
  | .loaded id row, job => job.campaignId = id ∧ job.timeBudgetSecs = (max row.input.timeBudgetSecs 0).toNat

/-- The record is what the campaign was created with. -/
def Agrees (d : Db) : Known → Prop
  | .nothing => True
  | .loaded id row => CreatedWith d id row.input

end Known

def budgeting : Protocol Action Action.Answer Known where
  allows
    | φ, .run job => φ.Makes job
    | _, _ => True
  after
    | φ, .store op, r => φ.reply op r
    | φ, _, _ => φ

variable {w : Worker}

theorem finished_budgets (φ : Known) (job : RunJob) (answer : Except RunnerError RunResult) :
    Obeys budgeting φ (w.finished job answer) :=
  obeys_act trivial fun _ => obeys_act trivial fun _ => obeys_act trivial fun _ => obeys_ret _

theorem started_budgets (campaignId runId : Uuid) (campaign : CampaignRecord) (target : Target) (r : Reply) :
    Obeys budgeting (.loaded campaignId campaign) (w.started campaignId runId campaign target r) := by
  unfold Worker.started
  split
  · exact obeys_act trivial fun _ => obeys_act trivial fun _ =>
      obeys_act ⟨rfl, rfl⟩ fun answer => finished_budgets _ _ answer
  · exact obeys_ret _

theorem loaded_budgets (φ : Known) (campaignId runId : Uuid) (r : Reply) :
    Obeys budgeting (φ.reply (.getCampaign campaignId) r) (w.loaded campaignId runId r) := by
  unfold Worker.loaded
  split
  · split
    · exact obeys_ret _
    · exact obeys_act trivial fun r => started_budgets _ _ _ _ r
  · exact obeys_ret _

theorem runLoop_budgets (φ : Known) : Obeys budgeting φ w.runLoop := by
  refine obeys_act trivial fun r => ?_
  split
  · exact obeys_act trivial fun r => loaded_budgets _ _ _ r
  · exact obeys_ret _

/-! ## Over every interleaving -/

/-- A transaction that reads a campaign is before its read, or carries what it read. -/
def Reading (d : Db) (id : Uuid) (t : Txn) : Prop :=
  t.writes = [] ∧
    (t.prog = getCampaign id ∨
      ∃ row, t.prog = .commit (.campaign row) ∧ ∀ rec, row = some rec → CreatedWith d id rec.input)

/-- What the worker knows is what was created, and it obeys from there on. -/
def Aware (d : Db) (log : List Event) (k : Nat) : Doing → Prop
  | .at p => ∃ φ : Known, Obeys budgeting φ p ∧ φ.Agrees d
  | .waiting tx op next =>
    .called k op tx ∈ log ∧ ∃ φ : Known, (∀ r, Obeys budgeting (φ.reply op r) (next r)) ∧ φ.Agrees d
  | .running _ next => ∃ φ : Known, (∀ a, Obeys budgeting φ (next a)) ∧ φ.Agrees d

structure Budgeted (s : World) : Prop where
  sound : Sound s
  created : ∀ tx id runId jobId input row,
    .committed tx (.createCampaign id runId jobId input) (.created row) ∈ s.log → CreatedWith s.pg.db id input
  reading : ∀ i t id, s.pg.txns.lookup i = some t → t.call = .getCampaign id → Reading s.pg.db id t
  read : ∀ tx id row, .committed tx (.getCampaign id) (.campaign (some row)) ∈ s.log →
    CreatedWith s.pg.db id row.input
  workers : ∀ k, Aware s.pg.db s.log k (s.workers k)
  invoked : ∀ k job, .invoked k job ∈ s.log →
    ∃ input, CreatedWith s.pg.db job.campaignId input ∧ job.timeBudgetSecs = (max input.timeBudgetSecs 0).toNat

variable {ws : Nat → Worker} {s s' : World}

theorem Aware.later {d d' : Db} {log log' : List Event} {k : Nat} {x : Doing}
    (h : Aware d log k x) (hd : ∀ id input, CreatedWith d id input → CreatedWith d' id input)
    (hlog : ∀ e, e ∈ log → e ∈ log') : Aware d' log' k x := by
  have hagrees : ∀ φ : Known, φ.Agrees d → φ.Agrees d' := fun φ hφ => by
    cases φ with
    | nothing => trivial
    | loaded id row => exact hd id _ hφ
  cases x with
  | «at» p =>
    obtain ⟨φ, hp, hφ⟩ := h
    exact ⟨φ, hp, hagrees φ hφ⟩
  | waiting tx op next =>
    obtain ⟨hc, φ, hn, hφ⟩ := h
    exact ⟨hlog _ hc, φ, hn, hagrees φ hφ⟩
  | running job next =>
    obtain ⟨φ, hn, hφ⟩ := h
    exact ⟨φ, hn, hagrees φ hφ⟩

theorem budgeted_init : Budgeted World.init where
  sound := sound_init
  created _ _ _ _ _ _ h := by cases h
  reading _ _ _ h := by cases h
  read _ _ _ h := by cases h
  workers _ := ⟨.nothing, obeys_ret _, trivial⟩
  invoked _ _ h := by cases h

/-- A step of Postgres: what it does to the rows, to the transactions and to the log. -/
theorem Budgeted.pg (h : Budgeted s) {pg : Pg} {e : Event} (hsound : Sound { s with pg, log := e :: s.log })
    (hd : ∀ id input, CreatedWith s.pg.db id input → CreatedWith pg.db id input)
    (htxns : ∀ i t id, pg.txns.lookup i = some t → t.call = .getCampaign id → Reading pg.db id t)
    (hcreated : ∀ tx id runId jobId input row,
      e = .committed tx (.createCampaign id runId jobId input) (.created row) → CreatedWith pg.db id input)
    (hread : ∀ tx id row, e = .committed tx (.getCampaign id) (.campaign (some row)) → CreatedWith pg.db id row.input)
    (hinvoked : ∀ k job, e ≠ .invoked k job) :
    Budgeted { s with pg, log := e :: s.log } where
  sound := hsound
  created tx id runId jobId input row hm := by
    rcases List.mem_cons.mp hm with heq | hm
    · exact hcreated _ _ _ _ _ _ heq.symm
    · exact hd _ _ (h.created tx id runId jobId input row hm)
  reading := htxns
  read tx id row hm := by
    rcases List.mem_cons.mp hm with heq | hm
    · exact hread _ _ _ heq.symm
    · exact hd _ _ (h.read tx id row hm)
  workers k := (h.workers k).later hd fun _ => List.mem_cons_of_mem _
  invoked k job hm := by
    rcases List.mem_cons.mp hm with heq | hm
    · exact absurd heq.symm (hinvoked k job)
    · obtain ⟨input, hin, hb⟩ := h.invoked k job hm
      exact ⟨input, hd _ _ hin, hb⟩

/-- A step of worker `k` alone. -/
theorem Budgeted.goto (h : Budgeted s) {k : Nat} {x : Doing} {log : List Event} (hsound : Sound (s.goto k x log))
    (hlog : ∀ tx c r, .committed tx c r ∉ log) (hx : Aware s.pg.db (log ++ s.log) k x)
    (hinvoked : ∀ j job, .invoked j job ∈ log →
      ∃ input, CreatedWith s.pg.db job.campaignId input ∧ job.timeBudgetSecs = (max input.timeBudgetSecs 0).toNat) :
    Budgeted (s.goto k x log) where
  sound := hsound
  created tx id runId jobId input row hm := by
    rcases List.mem_append.mp hm with hm | hm
    · exact absurd hm (hlog _ _ _)
    · exact h.created tx id runId jobId input row hm
  reading := h.reading
  read tx id row hm := by
    rcases List.mem_append.mp hm with hm | hm
    · exact absurd hm (hlog _ _ _)
    · exact h.read tx id row hm
  workers j := by
    have hmono : ∀ e, e ∈ s.log → e ∈ log ++ s.log := fun _ => List.mem_append_right _
    by_cases hj : j = k
    · subst hj
      show Aware s.pg.db (log ++ s.log) j (Function.update s.workers j x j)
      rw [Function.update_self]
      exact hx
    · show Aware s.pg.db (log ++ s.log) j (Function.update s.workers k x j)
      rw [Function.update_of_ne hj]
      exact (h.workers j).later (fun _ _ => id) hmono
  invoked j job hm := by
    rcases List.mem_append.mp hm with hm | hm
    · exact hinvoked j job hm
    · exact h.invoked j job hm

/-- A new transaction. -/
theorem reading_start {i : Nat} {c : Call} {pg : Pg} (h : Budgeted s)
    (hpg : Lib.ReadCommitted.step body s.pg (.start i c) = some pg) :
    pg.db = s.pg.db ∧ ∀ j t id, pg.txns.lookup j = some t → t.call = .getCampaign id → Reading pg.db id t := by
  cases Lib.ReadCommitted.step_cases body hpg with
  | start _ _ _ =>
    refine ⟨rfl, fun j t id ht hc => ?_⟩
    rcases Lib.ReadCommitted.lookup_insert_cases ht with ⟨-, rfl⟩ | ⟨-, ht⟩
    · cases hc
      exact ⟨rfl, Or.inl rfl⟩
    · exact h.reading j t id ht hc

/-- The answer that a worker waited for. -/
theorem Budgeted.replied (h : Budgeted s) {k tx : Nat} {op : StoreOp} {r : Reply} {φ : Known}
    (hcalled : .called k op tx ∈ s.log) (hφ : φ.Agrees s.pg.db) (hr : replyOf s.log tx = some r) :
    (φ.reply op r).Agrees s.pg.db := by
  unfold Known.reply
  split
  · rename_i id row
    rcases mem_of_replyOf hr with ⟨c, hc⟩ | ha
    · obtain ⟨tie, ids, hbegan⟩ := h.sound.called k _ tx hcalled
      cases h.sound.once tx _ _ (h.sound.committed tx c _ hc).1 hbegan
      exact h.read tx id row hc
    · rcases h.sound.aborted tx _ ha with he | he <;> cases he
  · exact hφ

theorem Budgeted.start (h : Budgeted s) {c : Call} {pg : Pg}
    (hsound : Sound { s with pg, next := s.next + 1, log := .began s.next c :: s.log })
    (hpg : Lib.ReadCommitted.step body s.pg (.start s.next c) = some pg) :
    Budgeted { s with pg, next := s.next + 1, log := .began s.next c :: s.log } := by
  obtain ⟨hdb, htxns⟩ := reading_start h hpg
  have hcons : ∀ e, e ∈ s.log → e ∈ .began s.next c :: s.log := fun _ => List.mem_cons_of_mem _
  have hold : ∀ e, (∀ i c', e ≠ .began i c') → e ∈ .began s.next c :: s.log → e ∈ s.log := fun e he hm =>
    (List.mem_cons.mp hm).resolve_left (he _ _)
  refine ⟨hsound, fun tx id runId jobId input row hm => ?_, htxns, fun tx id row hm => ?_, fun k => ?_,
    fun k job hm => ?_⟩
  · exact hdb ▸ h.created tx id runId jobId input row (hold _ (by simp) hm)
  · exact hdb ▸ h.read tx id row (hold _ (by simp) hm)
  · exact (h.workers k).later (fun _ _ hin => hdb ▸ hin) hcons
  · exact hdb ▸ h.invoked k job (hold _ (by simp) hm)

theorem Budgeted.aware_at (h : Budgeted s) {k : Nat} {x : Doing} (hk : s.workers k = x) : Aware s.pg.db s.log k x :=
  hk ▸ h.workers k

/-- A transaction that reads a campaign reads the committed rows. -/
theorem Budgeted.exec (h : Budgeted s) {i : Nat} {t : Txn} {l : Sql} {pg : Pg} (ht : s.pg.txns.lookup i = some t)
    (hsound : Sound { s with pg, log := .executed i t.call l :: s.log })
    (hpg : Lib.ReadCommitted.step body s.pg (.exec i) = some pg) :
    Budgeted { s with pg, log := .executed i t.call l :: s.log } := by
  cases Lib.ReadCommitted.step_cases body hpg with
  | exec _ t' _ writes next ht' hp' _ =>
    rw [ht] at ht'; cases ht'
    refine h.pg hsound (fun _ _ => id) (fun j u id hu hc => ?_) (by simp) (by simp) (by simp)
    rcases Lib.ReadCommitted.lookup_insert_cases hu with ⟨rfl, rfl⟩ | ⟨-, hu⟩
    · obtain ⟨hw, hprog | ⟨row, hprog, -⟩⟩ := h.reading _ t id ht hc
      · rw [hp'] at hprog
        cases hprog
        -- Its one read sees the committed rows.
        refine ⟨by simp [hw], Or.inr ⟨_, rfl, fun rec hrec => ?_⟩⟩
        simp only [Lib.ReadCommitted.viewOf, hw, Lib.ReadCommitted.applyAll_nil] at hrec
        exact campaignWithRun_input hrec
      · rw [hp'] at hprog
        cases hprog
    · exact h.reading j u id hu hc

/-- A commit leaves what campaigns were created with, and its reply says so. -/
theorem Budgeted.commit (h : Budgeted s) {i : Nat} {t : Txn} {r : Reply} {pg : Pg}
    (ht : s.pg.txns.lookup i = some t) (hp : t.prog = .commit r)
    (hsound : Sound { s with pg, log := .committed i t.call r :: s.log })
    (hpg : Lib.ReadCommitted.step body s.pg (.commit i) = some pg) :
    Budgeted { s with pg, log := .committed i t.call r :: s.log } := by
  have hpost := (Lib.ReadCommitted.commit_post h.sound.ok ht hp).2.2
  cases Lib.ReadCommitted.step_cases body hpg with
  | commit _ t' r' ht' hp' =>
    rw [ht] at ht'; cases ht'
    have hd : ∀ id input, CreatedWith s.pg.db id input →
        CreatedWith (Lib.ReadCommitted.applyAll t.writes s.pg.db) id input :=
      fun id input => effect_input hpost
    refine h.pg hsound hd (fun j u id hu hc => ?_) (fun tx id runId jobId input row heq => ?_)
      (fun tx id row heq => ?_) (by simp)
    · obtain ⟨hw, hprog⟩ := h.reading j u id (Lib.ReadCommitted.lookup_erase_cases hu).2 hc
      refine ⟨hw, hprog.imp_right ?_⟩
      rintro ⟨row, hrow, hin⟩
      exact ⟨row, hrow, fun rec hrec => hd _ _ (hin rec hrec)⟩
    · obtain ⟨-, hcall, rfl⟩ := Event.committed.inj heq
      rw [hcall] at hpost
      generalize Lib.ReadCommitted.applyAll t.writes s.pg.db = d' at hpost ⊢
      cases hpost with
      | created => exact ⟨_, (by simp; rfl), rfl⟩
    · obtain ⟨-, hcall, rfl⟩ := Event.committed.inj heq
      obtain ⟨hw, hprog⟩ := h.reading i t id ht hcall
      rcases hprog with hprog | ⟨row', hprog, hin⟩
      · rw [hp] at hprog
        cases hprog
      · rw [hp] at hprog
        cases hprog
        exact hd _ _ (hin row rfl)

theorem budgeted_step (h : Budgeted s) (hs : Stepped ws s s') : Budgeted s' := by
  have hsound := sound_step h.sound hs
  cases hs with
  | tick d => exact ⟨hsound, h.created, h.reading, h.read, h.workers, h.invoked⟩
  | exec i t l pg ht hp hpg => exact h.exec ht hsound hpg
  | commit i t r pg ht hp hpg => exact h.commit ht hp hsound hpg
  | abort i t r pg ht hp hpg =>
    cases Lib.ReadCommitted.step_cases body hpg with
    | abort _ hi =>
      exact h.pg hsound (fun _ _ => id)
        (fun j u id hu hc => h.reading j u id (Lib.ReadCommitted.lookup_erase_cases hu).2 hc) (by simp) (by simp)
        (by simp)
  | api c pg _ hpg => exact h.start hsound hpg
  | poll k hk =>
    obtain ⟨φ, -, hφ⟩ := h.aware_at hk
    exact h.goto hsound (by simp) ⟨φ, runLoop_budgets φ, hφ⟩ (by simp)
  | call k tie ids op next pg hk hpg =>
    obtain ⟨φ, hp, hφ⟩ := h.aware_at hk
    have hbegun := h.start (h.sound.start hpg) hpg
    obtain ⟨hdb, -⟩ := reading_start h hpg
    show Budgeted (({ s with pg, next := s.next + 1, log := .began s.next (op.call tie ids) :: s.log } : World).goto k
      (.waiting s.next op next) [.called k op s.next])
    exact hbegun.goto hsound (by simp) ⟨by simp, φ, hp.next, hdb ▸ hφ⟩ (by simp)
  | reply k tx op next r hk hr =>
    obtain ⟨hcalled, φ, hn, hφ⟩ := h.aware_at hk
    exact h.goto hsound (by simp) ⟨_, hn r, h.replied hcalled hφ hr⟩ (by simp)
  | failed k op next hk =>
    have hφ : ∃ φ : Known, (∀ r, Obeys budgeting (φ.reply op r) (next r)) ∧ φ.Agrees s.pg.db := by
      rcases hk with hk | ⟨tx, hk⟩
      · obtain ⟨φ, hp, hφ⟩ := h.aware_at hk
        exact ⟨φ, hp.next, hφ⟩
      · exact (h.aware_at hk).2
    obtain ⟨φ, hn, hφ⟩ := hφ
    exact h.goto hsound (by simp) ⟨_, hn .error, by cases op <;> exact hφ⟩ (by simp)
  | publisher k runId next hk | emit k runId e next hk | close k runId next hk =>
    obtain ⟨φ, hp, hφ⟩ := h.aware_at hk
    exact h.goto hsound (by simp) ⟨φ, hp.next (), hφ⟩ (by simp)
  | run k job next hk =>
    obtain ⟨φ, hp, hφ⟩ := h.aware_at hk
    refine h.goto hsound (by simp) ⟨φ, hp.next, hφ⟩ fun j job' hm => ?_
    cases List.mem_singleton.mp hm
    have hmakes := hp.allows
    cases φ with
    | nothing => cases hmakes
    | loaded id row =>
      obtain ⟨rfl, hb⟩ := hmakes
      exact ⟨row.input, hφ, hb⟩
  | answer k job next a hk =>
    obtain ⟨φ, hn, hφ⟩ := h.aware_at hk
    exact h.goto hsound (by simp) ⟨φ, hn a, hφ⟩ (by simp)

theorem budgeted (h : World.Reach ws s) : Budgeted s := by
  induction h with
  | init => exact budgeted_init
  | step a _ hs ih => exact budgeted_step ih (step_cases hs)

end SoroFuzz.Queue
