/-
  SoroFuzz.Queue.Serial — the store's transactions are serializable.

  They run interleaved at READ COMMITTED, beside each other and the workers. `Serial` says
  what a serial execution of the same calls is: one takes its turn after the other
  (`InTurn`), on the rows that those before it left.

  The turns are in the order in which the transactions took effect: `claim_job`, which is
  one statement, when its statement ran, any other call when it committed. A job may have
  been lost to a cancel, or an older one have come, by the time `claim_job` commits; that
  its row is locked until then is what lets it commit ahead of time.

  Proved, as long as no `cancel_campaign` overwrites an ended campaign:
  - `serializable`: the rows of every world are those of the serial execution of its
    commits.
-/

import SoroFuzz.Queue.Kept
import SoroFuzz.Queue.Turns

namespace SoroFuzz.Queue

open SoroFuzz.Store
open World
open Lib.ReadCommitted (Alike ahead ahead_commit ahead_concat ahead_congr ahead_perm applyAll lockedByOthers
  lookup_ahead_other lookup_erase_cases lookup_insert_cases wrote writesOf writesOf_some)

/-! ## Cancelled in time -/

/-- The step is not a `cancel_campaign`'s UPDATE that finds its campaign ended. -/
def cancelsUnended (s : Pg) : PgAct → Bool
  | .exec i =>
    match s.txns.lookup i with
    | some t =>
      match t.call, t.prog with
      | .cancelCampaign id, .stmt .cancelCampaign _ _ =>
        match Db.campaign (Lib.ReadCommitted.viewOf s i t).rows id with
        | some c => !c.status.isTerminal
        | none => true
      | _, _ => true
    | none => true
  | _ => true

/-- What `cancel_campaign` then takes for granted. -/
abbrev unended : Lib.ReadCommitted.Spec Row Call Sql Reply := storeSpec fun st => st.isTerminal = false

theorem cancelsUnended_allowed {s : Pg} {a : PgAct} (h : cancelsUnended s a = true) :
    Lib.ReadCommitted.Allowed unended s a := by
  cases a with
  | exec i =>
    intro t l writes next ht hp hl id row hc hrow
    subst hl
    have hrow' : Db.campaign (Lib.ReadCommitted.viewOf s i t).rows id = some row := hrow
    simpa [cancelsUnended, ht, hc, hp, hrow'] using h
  | _ => trivial

namespace World

def inTime (s : World) : Act → Bool
  | .pg a => cancelsUnended s.pg a
  | _ => true

/-- The worlds reached without a `cancel_campaign` that overwrites an ended campaign. -/
inductive InTime (ws : Nat → Worker) : World → Prop
  | init : InTime ws init
  | step {s s' : World} (a : Act) : InTime ws s → s.inTime a = true → step ws s a = some s' → InTime ws s'

def playInTime (ws : Nat → Worker) (s : World) : List Act → Option World
  | [] => some s
  | a :: as => if s.inTime a then (step ws s a).bind fun s' => playInTime ws s' as else none

variable {ws : Nat → Worker} {s s' : World}

theorem InTime.reach (h : InTime ws s) : Reach ws s := by
  induction h with
  | init => exact .init
  | step a _ _ hs ih => exact .step a ih hs

theorem playInTime_inTime : ∀ {as : List Act} {s s' : World}, InTime ws s → playInTime ws s as = some s' →
    InTime ws s' := by
  intro as
  induction as with
  | nil => intro s s' h hp; cases hp; exact h
  | cons a as ih =>
    intro s s' h hp
    unfold playInTime at hp
    split at hp
    · rename_i ha
      obtain ⟨s1, h1, h2⟩ := Option.bind_eq_some_iff.mp hp
      exact ih (.step a h ha h1) h2
    · cases hp

/-- Postgres takes the step of the world, or one that begins a transaction, or none. -/
theorem step_pg {a : Act} (h : step ws s a = some s') :
    (s'.pg = s.pg ∧ commits s'.log = commits s.log) ∨
      (∃ a', a = .pg a' ∧ Lib.ReadCommitted.step body s.pg a' = some s'.pg ∧ s'.log = observe s.pg a' ++ s.log) ∨
      ∃ c, Lib.ReadCommitted.step body s.pg (.start s.next c) = some s'.pg ∧ commits s'.log = commits s.log := by
  cases a with
  | pg a =>
    cases a with
    | start i c => cases h
    | tick δ =>
      cases h
      exact Or.inr (Or.inl ⟨.tick δ, rfl, rfl, rfl⟩)
    | _ =>
      obtain ⟨pg, hpg, rfl⟩ := Option.map_eq_some_iff.mp h
      exact Or.inr (Or.inl ⟨_, rfl, hpg, rfl⟩)
  | api c =>
    simp only [step] at h
    split at h
    · obtain ⟨pg, hpg, rfl⟩ := Option.map_eq_some_iff.mp h
      exact Or.inr (Or.inr ⟨c, hpg, rfl⟩)
    · cases h
  | call k tie ids =>
    simp only [step] at h
    split at h
    · obtain ⟨s1, hs1, rfl⟩ := Option.map_eq_some_iff.mp h
      obtain ⟨pg, hpg, rfl⟩ := Option.map_eq_some_iff.mp hs1
      exact Or.inr (Or.inr ⟨_, hpg, rfl⟩)
    · cases h
  | reply k =>
    simp only [step] at h
    split at h
    · obtain ⟨r, -, rfl⟩ := Option.map_eq_some_iff.mp h
      exact Or.inl ⟨rfl, rfl⟩
    · cases h
  | poll | fail | proceed | answer =>
    simp only [step] at h
    split at h <;> cases h <;> exact Or.inl ⟨rfl, rfl⟩

/-- What is verified of the store's programs, given that, holds of them here. -/
theorem InTime.ok_of {S : Lib.ReadCommitted.Spec Row Call Sql Reply} (h0 : S.inv 0 ∅)
    (hbody : ∀ c n d, S.inv n d → Lib.ReadCommitted.Meets S c n d (body c n) [] n d)
    (hallowed : ∀ {s a}, cancelsUnended s a = true → Lib.ReadCommitted.Allowed S s a) (h : InTime ws s) :
    Lib.ReadCommitted.Ok S s.pg := by
  induction h with
  | init => exact Lib.ReadCommitted.init_ok h0
  | @step s s' a _ ha hs ih =>
    rcases step_pg hs with ⟨heq, -⟩ | ⟨a', rfl, hpg, -⟩ | ⟨c, hpg, -⟩
    · rw [heq]
      exact ih
    · exact (Lib.ReadCommitted.step_ok body hbody ih hpg (hallowed ha)).1
    · exact (Lib.ReadCommitted.step_ok body hbody ih hpg trivial).1

theorem InTime.ok (h : InTime ws s) : Lib.ReadCommitted.Ok unended s.pg :=
  h.ok_of wf_empty (fun c n d => body_meets _ c n d) cancelsUnended_allowed

theorem InTime.texts (h : InTime ws s) : Lib.ReadCommitted.Ok textSpec s.pg :=
  h.ok_of trivial (fun c n d _ => body_meets_texts c n d) fun {_ a} _ => by
    cases a with
    | exec i => exact fun _ _ _ _ _ _ => trivial
    | _ => trivial

end World

/-! ## Serial executions -/

/-- A transaction's turn, taken in the world `seen`. -/
structure Turn where
  seen : World
  commit : Commit
  began : DateTime

namespace Turn

/-- The rows that the others hold locked then. -/
def locked (turn : Turn) : Key → Bool := lockedByOthers turn.seen.pg turn.commit.tx

/-- The step with which the transaction takes effect. -/
def act (turn : Turn) : Act :=
  if turn.commit.call.claims then .pg (.exec turn.commit.tx) else .pg (.commit turn.commit.tx)

/-- `s` comes after the turn. -/
def Taken (ws : Nat → Worker) (turn : Turn) (s : World) : Prop :=
  World.InTime ws turn.seen ∧
    (∃ t, turn.seen.pg.txns.lookup turn.commit.tx = some t ∧ t.call = turn.commit.call ∧ t.began = turn.began) ∧
      ∃ s1, World.step ws turn.seen turn.act = some s1 ∧ World.Onward ws s1 s

end Turn

/-- The turns, the newest first, leave the rows. -/
inductive Serial : List Turn → Db → Prop
  | nil (d : Db) : Alike d ∅ → Serial [] d
  | cons {turns : List Turn} {d d' : Db} (turn : Turn) : Serial turns d →
      InTurn turn.began turn.locked d turn.commit.call turn.commit.reply d' → Serial (turn :: turns) d'

/-- The transactions that have committed, and those of `A`, took these turns, one after
    the other, and would leave the rows if those of `A` committed now. -/
structure Serialized (ws : Nat → Worker) (s : World) (A : List Commit) (turns : List Turn) : Prop where
  perm : (turns.map Turn.commit).Perm (A ++ commits s.log)
  order : turns.Pairwise fun next turn => turn.Taken ws next.seen
  taken : ∀ turn ∈ turns, turn.Taken ws s
  serial : Serial turns (ahead s.pg (A.map Commit.tx))

/-- A `claim_job` that has picked its job, and may commit. -/
def Ready (s : Pg) (c : Commit) : Prop :=
  c.call.claims = true ∧ ∃ t, s.txns.lookup c.tx = some t ∧ t.call = c.call ∧ t.prog = .commit c.reply

/-- So it is whichever of those that are ready commit. -/
def SerializedAhead (ws : Nat → Worker) (s : World) : Prop :=
  ∀ A : List Commit, (∀ c ∈ A, Ready s.pg c) → (A.map Commit.tx).Nodup → ∃ turns, Serialized ws s A turns

/-! ## The claims ahead -/

/-- A transaction that claims is yet to run its statement, or was refused, or has picked
    its job: it has locked that job's row and no other. -/
def Claiming (t : Txn) : Prop :=
  (t.writes = [] ∧ t.prog = body t.call t.began) ∨ (∃ r, t.prog = .rollback r) ∨
    ((∃ r, t.prog = .commit r) ∧ ∀ w ∈ t.writes, ∃ id, w.key = .jobQueue id)

section claims
variable {ws : Nat → Worker} {s s' : World} {A : List Commit} {c : Commit}

theorem claims_cases {c : Call} (h : c.claims = true) : ∃ tie workerId, c = .claimJob tie workerId := by
  cases c with
  | claimJob tie workerId => exact ⟨tie, workerId, rfl⟩
  | _ => cases h

theorem body_not_commit {c : Call} (h : c.claims = true) {b : DateTime} {r : Reply} : body c b ≠ .commit r := by
  obtain ⟨tie, workerId, rfl⟩ := claims_cases h
  refine Lib.Sql.binding_elim (motive := fun p => p ≠ .commit r) (fun h => ?_) fun _ h => ?_ <;> cases h

theorem claiming_step {s s' : Pg} {a : PgAct}
    (h : ∀ i t, s.txns.lookup i = some t → t.call.claims = true → Claiming t)
    (hs : Lib.ReadCommitted.step body s a = some s') :
    ∀ i t, s'.txns.lookup i = some t → t.call.claims = true → Claiming t := by
  cases Lib.ReadCommitted.step_cases body hs with
  | tick δ => exact h
  | start i c _ =>
    intro j t ht hc
    rcases lookup_insert_cases ht with ⟨-, rfl⟩ | ⟨-, ht⟩
    · exact Or.inl ⟨rfl, rfl⟩
    · exact h j t ht hc
  | exec i t l writes next ht hp _ =>
    intro j u hu hc
    rcases lookup_insert_cases hu with ⟨-, rfl⟩ | ⟨-, hu⟩
    · obtain ⟨tie, workerId, hcall⟩ := claims_cases hc
      rcases h i t ht hc with ⟨hw, hbody⟩ | ⟨r, hroll⟩ | ⟨⟨r, hcommit⟩, -⟩
      · have hstmt : claimJob tie workerId t.began = .stmt l writes next := by rw [← hp, hbody, hcall]; rfl
        obtain ⟨-, ⟨-, hv, hn⟩ | ⟨id, q, -, hv, hn⟩⟩ := claimJob_stmt hstmt (Lib.ReadCommitted.viewOf s i t)
        · exact Or.inr (Or.inr ⟨⟨_, hn⟩, by rw [hw, hv]; exact nofun⟩)
        · refine Or.inr (Or.inr ⟨⟨_, hn⟩, ?_⟩)
          rw [hw, hv]
          exact List.forall_mem_singleton.mpr ⟨id, rfl⟩
      · cases hp.symm.trans hroll
      · cases hp.symm.trans hcommit
    · exact h j u hu hc
  | commit i t r _ _ => exact fun j u hu => h j u (lookup_erase_cases hu).2
  | abort i _ => exact fun j u hu => h j u (lookup_erase_cases hu).2

theorem claiming (h : World.Reach ws s) :
    ∀ i t, s.pg.txns.lookup i = some t → t.call.claims = true → Claiming t := by
  induction h with
  | init => intro i t ht; simp [World.init, Store.init, Lib.ReadCommitted.init] at ht
  | step a _ hs ih =>
    rcases step_pg hs with ⟨heq, -⟩ | ⟨a', -, hpg, -⟩ | ⟨c, hpg, -⟩
    · rw [heq]
      exact ih
    · exact claiming_step ih hpg
    · exact claiming_step ih hpg

/-- It was ready before the step, unless this was its statement. -/
theorem lookup_of_ready {a : Act} (hs : World.step ws s a = some s') (hr : Ready s'.pg c) (ha : a ≠ .pg (.exec c.tx)) :
    s'.pg.txns.lookup c.tx = s.pg.txns.lookup c.tx := by
  obtain ⟨hc, t, ht, hcall, hp⟩ := hr
  have hstart : ∀ call, Lib.ReadCommitted.step body s.pg (.start s.next call) = some s'.pg →
      s'.pg.txns.lookup c.tx = s.pg.txns.lookup c.tx := by
    intro call hpg
    cases h : s'.pg
    rw [h] at ht hpg
    cases Lib.ReadCommitted.step_cases body hpg with
    | start _ _ _ =>
      rcases lookup_insert_cases ht with ⟨-, rfl⟩ | ⟨hne, -⟩
      · have hclaims : call.claims = true := (congrArg Call.claims hcall).trans hc
        exact absurd hp (body_not_commit hclaims)
      · exact AList.lookup_insert_ne hne
  rcases step_pg hs with ⟨heq, -⟩ | ⟨a', rfl, hpg, -⟩ | ⟨call, hpg, -⟩
  · rw [heq]
  · cases h : s'.pg
    rw [h] at ht hpg
    cases Lib.ReadCommitted.step_cases body hpg with
    | tick => rfl
    | start => cases hs
    | exec i => exact AList.lookup_insert_ne fun e => ha (by rw [e])
    | commit | abort => exact AList.lookup_erase_ne (lookup_erase_cases ht).1
  · exact hstart call hpg

/-- They may commit before anything else happens. -/
theorem early (h : World.InTime ws s) (hA : ∀ c ∈ A, Ready s.pg c) (hnd : (A.map Commit.tx).Nodup) :
    ∃ u, World.InTime ws u ∧ u.pg.db = ahead s.pg (A.map Commit.tx) ∧
      ∀ i, i ∉ A.map Commit.tx → u.pg.txns.lookup i = s.pg.txns.lookup i := by
  induction A generalizing s with
  | nil => exact ⟨s, h, rfl, fun _ _ => rfl⟩
  | cons c A ih =>
    obtain ⟨-, t, ht, -, hp⟩ := hA c List.mem_cons_self
    rw [List.map_cons, List.nodup_cons] at hnd
    have hs : World.step ws s (.pg (.commit c.tx)) = some { s with
        pg := { s.pg with db := applyAll t.writes s.pg.db, txns := s.pg.txns.erase c.tx },
        log := observe s.pg (.commit c.tx) ++ s.log } := by
      simp [World.step, Lib.ReadCommitted.step, ht, hp]
    have hother : ∀ i, i ≠ c.tx → (s.pg.txns.erase c.tx).lookup i = s.pg.txns.lookup i := fun i hi =>
      AList.lookup_erase_ne hi
    obtain ⟨u, hu, hdb, htxns⟩ := ih (.step _ h rfl hs)
      (fun a ha => ⟨(hA a (List.mem_cons_of_mem _ ha)).1, by
        rw [hother _ fun e => hnd.1 (e ▸ List.mem_map_of_mem ha)]
        exact (hA a (List.mem_cons_of_mem _ ha)).2⟩) hnd.2
    refine ⟨u, hu, hdb.trans (ahead_commit ht hnd.1 rfl rfl), fun i hi => ?_⟩
    rw [List.map_cons, List.mem_cons, not_or] at hi
    rw [htxns i hi.2]
    exact hother i hi.1

theorem Ready.wrote_job (h : World.Reach ws s) (hr : Ready s.pg c) {k : Key}
    (hk : wrote (writesOf s.pg c.tx) k = true) : ∃ id, k = .jobQueue id := by
  obtain ⟨hclaims, t, ht, hcall, hp⟩ := hr
  have htc : t.call.claims = true := by rw [hcall]; exact hclaims
  rw [writesOf_some ht] at hk
  obtain ⟨w, hw, rfl⟩ := Lib.ReadCommitted.wrote_iff.mp hk
  rcases claiming h _ t ht htc with ⟨-, hbody⟩ | ⟨r, hroll⟩ | ⟨-, hkeys⟩
  · exact absurd (hbody.symm.trans hp) (body_not_commit htc)
  · cases hroll.symm.trans hp
  · exact hkeys w hw

/-- The claims ahead claim jobs that are locked, and change nothing else. -/
theorem mem_claimable_ahead (h : World.Reach ws s) (hA : ∀ c ∈ A, Ready s.pg c) {i : Nat} (hi : i ∉ A.map Commit.tx)
    (e : Uuid × JobRow) :
    e ∈ claimable ⟨ahead s.pg (A.map Commit.tx), lockedByOthers s.pg i⟩ ↔
      e ∈ claimable ⟨s.pg.db, lockedByOthers s.pg i⟩ := by
  obtain ⟨id, j⟩ := e
  rw [mem_claimable, mem_claimable]
  have hrun : Db.run (ahead s.pg (A.map Commit.tx)) j.runId = Db.run s.pg.db j.runId := by
    refine lookup_ahead_other fun k hk => ?_
    obtain ⟨c, hc, rfl⟩ := List.mem_map.mp hk
    rw [← Bool.not_eq_true]
    intro hw
    obtain ⟨id, hid⟩ := (hA c hc).wrote_job h hw
    cases hid
  have hjob : lockedByOthers s.pg i (.jobQueue id) = false →
      Db.job (ahead s.pg (A.map Commit.tx)) id = Db.job s.pg.db id := by
    intro hfree
    refine lookup_ahead_other fun k hk => ?_
    by_contra hw
    rw [Bool.not_eq_false] at hw
    obtain ⟨c, hc, rfl⟩ := List.mem_map.mp hk
    obtain ⟨-, t, ht, -⟩ := hA c hc
    rw [writesOf_some ht] at hw
    have hne : c.tx ≠ i := fun e => hi (e ▸ hk)
    rw [Lib.ReadCommitted.lockedByOthers_of ht hne hw] at hfree
    cases hfree
  rw [hrun]
  constructor
  · intro hm
    obtain ⟨hj, hnone, hpend, hfree⟩ := hm
    exact ⟨(hjob hfree).symm.trans hj, hnone, hpend, hfree⟩
  · intro hm
    obtain ⟨hj, hnone, hpend, hfree⟩ := hm
    exact ⟨(hjob hfree).trans hj, hnone, hpend, hfree⟩

/-- So the statement of `claim_job` takes its turn behind them. -/
theorem exec_inTurn (h : World.Reach ws s) (hs : World.step ws s (.pg (.exec c.tx)) = some s') (hr : Ready s'.pg c)
    (hA : ∀ c ∈ A, Ready s.pg c) (hc : c.tx ∉ A.map Commit.tx) :
    ∃ t, s.pg.txns.lookup c.tx = some t ∧ t.call = c.call ∧
      InTurn t.began (lockedByOthers s.pg c.tx) (ahead s.pg (A.map Commit.tx)) c.call c.reply
        (applyAll (writesOf s'.pg c.tx) (ahead s.pg (A.map Commit.tx))) := by
  obtain ⟨hclaims, t', ht', hcall, hp'⟩ := hr
  obtain ⟨pg, hpg, rfl⟩ := Option.map_eq_some_iff.mp hs
  cases Lib.ReadCommitted.step_cases body hpg with
  | exec _ t l writes next ht hp _ =>
    rw [writesOf_some ht']
    dsimp only at ht'
    rw [AList.lookup_insert] at ht'
    cases ht'
    have hcall : t.call = c.call := hcall
    refine ⟨t, ht, hcall, ?_⟩
    obtain ⟨tie, workerId, hcl⟩ := claims_cases hclaims
    have htc : t.call.claims = true := by rw [hcall]; exact hclaims
    rcases claiming h _ t ht htc with ⟨hw, hbody⟩ | ⟨r, hroll⟩ | ⟨⟨r, hcommit⟩, -⟩
    · have hstmt : claimJob tie workerId t.began = .stmt l writes next := by
        rw [← hp, hbody, hcall, hcl]
        rfl
      have hview : Lib.ReadCommitted.viewOf s.pg c.tx t = ⟨s.pg.db, lockedByOthers s.pg c.tx⟩ := by
        rw [Lib.ReadCommitted.viewOf, hw]
        rfl
      dsimp only at hp' ⊢
      rw [hview] at hp' ⊢
      rw [hw, hcl]
      exact picked_inTurn hstmt (mem_claimable_ahead h hA hc) hp'
    · cases hp.symm.trans hroll
    · cases hp.symm.trans hcommit

end claims

/-! ## Over every interleaving -/

section serial
variable {ws : Nat → Worker} {s s' : World} {A : List Commit} {turns : List Turn}

/-- A run is there before its `start_run` begins. -/
theorem start_seen (h : World.Reach ws s) {i : Nat} {t : Txn} {runId : Uuid} {workerId : String}
    (ht : s.pg.txns.lookup i = some t) (hc : t.call = .startRun runId workerId) :
    ∃ q, Db.run t.seen runId = some q := by
  induction h generalizing t with
  | init => cases ht
  | @step s s' a hr hs ih =>
    have hstep := step_cases hs
    rcases hstep.txns ht with ⟨t0, ht0, hcall, hseen⟩ | ⟨rfl, hseen⟩
    · rw [hseen]
      exact ih ht0 (hcall ▸ hc)
    · -- It begins with this step, so its job is in the rows, which the step leaves as they are.
      obtain ⟨S, hS⟩ := custody (.step a hr hs)
      have hbegan : .began s.next t.call ∈ s'.log := hS.sound.txns _ t ht
      obtain ⟨log, hsuffix⟩ := List.append_of_mem hbegan
      have hdb : s'.pg.db = s.pg.db := by
        rcases hstep.began ⟨log, hsuffix.choose_spec.symm⟩ with hold | ⟨-, -, hdb⟩
        · exact absurd ((reach_sound hr).lt _ _ (hold.subset List.mem_cons_self)) (Nat.lt_irrefl _)
        · exact hdb
      have hrank := hS.trace.starts _ runId workerId (hc ▸ hbegan)
      obtain ⟨id, j, hj, rfl, -⟩ := hS.jobs runId fun hu => by rw [hu] at hrank; cases hrank
      obtain ⟨q, hq, -⟩ := hS.sound.ok.inv.jobRun id j hj
      rw [hseen, ← hdb]
      exact ⟨q, hq⟩

theorem Turn.Taken.later {turn : Turn} (h : turn.Taken ws s) {a : Act} (hs : World.step ws s a = some s') :
    turn.Taken ws s' := by
  obtain ⟨hi, ht, s1, hs1, hon⟩ := h
  exact ⟨hi, ht, s1, hs1, hon.tail ⟨a, hs⟩⟩

/-- A step that takes no turn. -/
theorem Serialized.still (h : Serialized ws s A turns) {a : Act} (hs : World.step ws s a = some s')
    (hdb : s'.pg.db = s.pg.db) (hcs : commits s'.log = commits s.log)
    (hsame : ∀ c ∈ A, s'.pg.txns.lookup c.tx = s.pg.txns.lookup c.tx) : Serialized ws s' A turns where
  perm := by
    rw [hcs]
    exact h.perm
  order := h.order
  taken turn hm := (h.taken turn hm).later hs
  serial := by
    rw [ahead_congr hdb fun i hi => ?_]
    · exact h.serial
    · obtain ⟨c, hc, rfl⟩ := List.mem_map.mp hi
      rw [writesOf, writesOf, hsame c hc]

/-- A step that takes a turn. -/
theorem Serialized.turn (h : Serialized ws s A turns) (hi : World.InTime ws s) {turn : Turn} (hseen : turn.seen = s)
    {t : Txn} (ht : s.pg.txns.lookup turn.commit.tx = some t) (hcall : t.call = turn.commit.call) (hbegan : t.began = turn.began)
    (hs : World.step ws s turn.act = some s') {B : List Commit}
    (hperm : (turn.commit :: (A ++ commits s.log)).Perm (B ++ commits s'.log))
    (hin : InTurn turn.began turn.locked (ahead s.pg (A.map Commit.tx)) turn.commit.call turn.commit.reply
      (ahead s'.pg (B.map Commit.tx))) : Serialized ws s' B (turn :: turns) where
  perm := (h.perm.cons _).trans hperm
  order := List.pairwise_cons.mpr ⟨fun other hm => hseen ▸ h.taken other hm, h.order⟩
  taken other hm := by
    rcases List.mem_cons.mp hm with rfl | hm
    · exact ⟨hseen ▸ hi, ⟨t, hseen ▸ ht, hcall, hbegan⟩, s', hseen ▸ hs, .refl⟩
    · exact (h.taken other hm).later hs
  serial := .cons turn h.serial hin

/-- Only a commit changes the rows. -/
theorem step_still {a : Act} (hs : World.step ws s a = some s') (ha : ∀ i, a ≠ .pg (.commit i)) :
    s'.pg.db = s.pg.db ∧ commits s'.log = commits s.log := by
  rcases step_pg hs with ⟨heq, hcs⟩ | ⟨a', rfl, hpg, hlog⟩ | ⟨c, hpg, hcs⟩
  · exact ⟨by rw [heq], hcs⟩
  · rw [hlog]
    cases h : s'.pg
    rw [h] at hpg
    cases Lib.ReadCommitted.step_cases body hpg with
    | tick | start => exact ⟨rfl, rfl⟩
    | exec i t l _ _ ht hp _ => exact ⟨rfl, by simp [observe, ht, hp, commits]⟩
    | commit i => exact absurd rfl (ha i)
    | abort i hi =>
      obtain ⟨t, ht⟩ := Option.isSome_iff_exists.mp (AList.lookup_isSome.mpr hi)
      cases hp : t.prog <;> exact ⟨rfl, by simp [observe, ht, hp, commits]⟩
  · refine ⟨?_, hcs⟩
    cases h : s'.pg
    rw [h] at hpg
    cases Lib.ReadCommitted.step_cases body hpg with
    | start => rfl

/-- The statement of a claim takes its turn, and the claim is one of those ahead. -/
theorem serialized_exec (hi : World.InTime ws s) (ih : SerializedAhead ws s) {c : Commit} (hc : c ∈ A)
    (ha : s.inTime (.pg (.exec c.tx)) = true) (hs : World.step ws s (.pg (.exec c.tx)) = some s')
    (hA : ∀ c ∈ A, Ready s'.pg c) (hnd : (A.map Commit.tx).Nodup) : ∃ turns, Serialized ws s' A turns := by
  obtain ⟨A1, A2, rfl⟩ := List.append_of_mem hc
  have hperm : (A1 ++ c :: A2).Perm (c :: (A1 ++ A2)) := List.perm_middle
  obtain ⟨hnot, hnd⟩ := List.nodup_cons.mp ((hperm.map Commit.tx).nodup_iff.mp hnd)
  have hkeep : ∀ b ∈ A1 ++ A2, s'.pg.txns.lookup b.tx = s.pg.txns.lookup b.tx := by
    intro b hb
    refine lookup_of_ready hs (hA b (hperm.mem_iff.mpr (List.mem_cons_of_mem _ hb))) fun e => hnot ?_
    injection e with e
    injection e with e
    rw [e]
    exact List.mem_map_of_mem hb
  have hB : ∀ b ∈ A1 ++ A2, Ready s.pg b := by
    intro b hb
    obtain ⟨hclaims, hr⟩ := hA b (hperm.mem_iff.mpr (List.mem_cons_of_mem _ hb))
    exact ⟨hclaims, by rwa [hkeep b hb] at hr⟩
  obtain ⟨turns, hser⟩ := ih (A1 ++ A2) hB hnd
  obtain ⟨t, ht, hcall, hin⟩ := exec_inTurn hi.reach hs (hA c hc) hB hnot
  obtain ⟨hdb, hcs⟩ := step_still hs nofun
  refine ⟨⟨s, c, t.began⟩ :: turns, hser.turn hi rfl ht hcall rfl ?_ ?_ (hin.alike ?_)⟩
  · rw [Turn.act, if_pos (hA c hc).1]
    exact hs
  · rw [hcs, ← List.cons_append]
    exact hperm.symm.append_right _
  · have hsame : ahead s'.pg ((A1 ++ A2).map Commit.tx) = ahead s.pg ((A1 ++ A2).map Commit.tx) := by
      refine ahead_congr hdb fun i hm => ?_
      obtain ⟨b, hb, rfl⟩ := List.mem_map.mp hm
      rw [writesOf, writesOf, hkeep b hb]
    rw [← hsame, ← ahead_concat]
    refine ahead_perm (World.InTime.step _ hi ha hs).ok ?_
    exact (hperm.map Commit.tx).trans (List.perm_append_singleton _ _).symm

/-- What commits when it is no claim takes its turn behind those ahead. -/
theorem commit_inTurn (hi : World.InTime ws s) (hA : ∀ c ∈ A, Ready s.pg c) (hnd : (A.map Commit.tx).Nodup) {i : Nat}
    {t : Txn} {r : Reply} (ht : s.pg.txns.lookup i = some t) (hp : t.prog = .commit r) (hclaims : t.call.claims = false)
    (hnot : i ∉ A.map Commit.tx) (locked : Key → Bool) :
    InTurn t.began locked (ahead s.pg (A.map Commit.tx)) t.call r (applyAll t.writes (ahead s.pg (A.map Commit.tx))) := by
  obtain ⟨u, hu, hdb, htxns⟩ := early hi hA hnd
  have htu : u.pg.txns.lookup i = some t := (htxns i hnot).trans ht
  rw [← hdb]
  obtain ⟨-, -, he⟩ := Lib.ReadCommitted.commit_post hu.ok htu hp
  obtain ⟨-, -, hstored⟩ := Lib.ReadCommitted.commit_post hu.texts htu hp
  obtain ⟨S, hS⟩ := custody hu.reach
  refine effect_inTurn hu.ok.inv hS.history hclaims hstored (fun runId workerId hc => ?_) (fun runId f ids hc => ?_) he
  · exact start_seen hu.reach htu hc
  · exact (hS.finishing i t runId f ids htu hc).2

/-- A commit takes its turn, unless it is that of a claim, which has taken it. -/
theorem serialized_commit (hi : World.InTime ws s) (ih : SerializedAhead ws s) {i : Nat}
    (hs : World.step ws s (.pg (.commit i)) = some s') (hA : ∀ c ∈ A, Ready s'.pg c) (hnd : (A.map Commit.tx).Nodup) :
    ∃ turns, Serialized ws s' A turns := by
  have hB : ∀ c ∈ A, Ready s.pg c := by
    intro c hc
    have hkeep := lookup_of_ready hs (hA c hc) nofun
    exact ⟨(hA c hc).1, by
      rw [← hkeep]
      exact (hA c hc).2⟩
  obtain ⟨pg, hpg, rfl⟩ := Option.map_eq_some_iff.mp hs
  cases Lib.ReadCommitted.step_cases body hpg with
  | commit _ t r ht hp =>
    have hcs : commits (observe s.pg (.commit i) ++ s.log) = ⟨i, t.call, r⟩ :: commits s.log := by
      simp [observe, ht, hp, commits]
    have hnot : i ∉ A.map Commit.tx := by
      intro hm
      obtain ⟨c, hc, rfl⟩ := List.mem_map.mp hm
      obtain ⟨-, u, hu, -⟩ := hA c hc
      exact (lookup_erase_cases hu).1 rfl
    cases hclaims : t.call.claims with
    | true =>
      obtain ⟨turns, hser⟩ := ih (⟨i, t.call, r⟩ :: A)
        (List.forall_mem_cons.mpr ⟨⟨hclaims, t, ht, rfl, hp⟩, hB⟩) (List.nodup_cons.mpr ⟨hnot, hnd⟩)
      refine ⟨turns, ?_, hser.order, fun turn hm => (hser.taken turn hm).later hs, ?_⟩
      · rw [hcs]
        exact hser.perm.trans List.perm_middle.symm
      · rw [ahead_commit ht hnot rfl rfl]
        exact hser.serial
    | false =>
      obtain ⟨turns, hser⟩ := ih A hB hnd
      have hin := commit_inTurn hi hB hnd ht hp hclaims hnot (lockedByOthers s.pg i)
      refine ⟨⟨s, ⟨i, t.call, r⟩, t.began⟩ :: turns, hser.turn hi rfl ht rfl rfl ?_ ?_ (hin.alike ?_)⟩
      · rw [Turn.act, if_neg (by rw [hclaims]; exact Bool.false_ne_true)]
        exact hs
      · rw [hcs]
        exact List.perm_middle.symm
      · rw [ahead_commit ht hnot rfl rfl, ← writesOf_some ht, ← ahead_concat]
        exact ahead_perm hi.ok (List.perm_append_singleton _ _).symm

theorem serialized (h : World.InTime ws s) : SerializedAhead ws s := by
  induction h with
  | init =>
    intro A hA _
    obtain rfl : A = [] := List.eq_nil_iff_forall_not_mem.mpr fun c hc => by
      obtain ⟨-, t, ht, -⟩ := hA c hc
      simp [World.init, Store.init, Lib.ReadCommitted.init] at ht
    exact ⟨[], .refl _, .nil, List.forall_mem_nil _, .nil _ (.refl _)⟩
  | @step s s' a hi ha hs ih =>
    intro A hA hnd
    by_cases hexec : ∃ c ∈ A, a = .pg (.exec c.tx)
    · obtain ⟨c, hc, rfl⟩ := hexec
      exact serialized_exec hi ih hc ha hs hA hnd
    · by_cases hcommit : ∃ i, a = .pg (.commit i)
      · obtain ⟨i, rfl⟩ := hcommit
        exact serialized_commit hi ih hs hA hnd
      · have hkeep : ∀ c ∈ A, s'.pg.txns.lookup c.tx = s.pg.txns.lookup c.tx := fun c hc =>
          lookup_of_ready hs (hA c hc) fun e => hexec ⟨c, hc, e⟩
        obtain ⟨turns, hser⟩ := ih A (fun c hc => ⟨(hA c hc).1, hkeep c hc ▸ (hA c hc).2⟩) hnd
        obtain ⟨hdb, hcs⟩ := step_still hs fun i e => hcommit ⟨i, e⟩
        exact ⟨turns, hser.still hs hdb hcs hkeep⟩

/-- The rows are those of the committed calls, each in its turn. -/
theorem serializable (h : World.InTime ws s) :
    ∃ turns : List Turn, (turns.map Turn.commit).Perm (commits s.log) ∧
      turns.Pairwise (fun next turn => turn.Taken ws next.seen) ∧ (∀ turn ∈ turns, turn.Taken ws s) ∧
      Serial turns s.pg.db := by
  obtain ⟨turns, hser⟩ := serialized h [] (List.forall_mem_nil _) .nil
  exact ⟨turns, hser.perm, hser.order, hser.taken, hser.serial⟩

end serial

/-- A worker claims the job, and the campaign is cancelled before its `claim_job` commits. -/
def cancelAmidClaim : List Act :=
  createAct ++ [.poll 0, .call 0 id id, .pg (.exec 1), .api (.cancelCampaign 1), .pg (.exec 2), .pg (.exec 2),
    .pg (.exec 2), .pg (.commit 2), .pg (.commit 1)]

theorem serializable_cancelled : ∃ s, World.playInTime (fun _ => tokenWorker) World.init cancelAmidClaim = some s ∧
    ∃ turns : List Turn, (turns.map Turn.commit).Perm (commits s.log) ∧
      turns.Pairwise (fun next turn => turn.Taken (fun _ => tokenWorker) next.seen) ∧
      (∀ turn ∈ turns, turn.Taken (fun _ => tokenWorker) s) ∧ Serial turns s.pg.db := by
  obtain ⟨s, hs⟩ := Option.isSome_iff_exists.mp
    (show (World.playInTime (fun _ => tokenWorker) World.init cancelAmidClaim).isSome = true by decide)
  exact ⟨s, hs, serializable (World.playInTime_inTime .init hs)⟩

end SoroFuzz.Queue
