/-
  SoroFuzz.Lib.Script — transactions that are a fixed list of statements.

  A script's statements write, and nothing in it depends on what they saw but what they
  write. A statement is `Local` when that depends only on the rows it writes: these are
  locked from then on, so it is still what the statement would write at the commit.

  Proved:
  - `commit_alone`: a script of local statements commits what it does alone.
  - `serial`: so the committed rows of every interleaving are those that the scripts leave
    when they run one after the other, in the order of their commits.
  - `completes`: when every script locks rows in the order of one rank, no state is stuck:
    from each, the transactions in flight can all run to their commits, none aborted.
-/

import Mathlib.Data.Finset.Max
import SoroFuzz.Lib.Deadlock

namespace SoroFuzz.Lib.Script

open SoroFuzz.Lib.ReadCommitted
open SoroFuzz.Lib.Deadlock

variable {K : Type} [DecidableEq K] {Row : K → Type} {C L R : Type}

structure Stmt (Row : K → Type) (L : Type) where
  label : L
  writes : View Row → List (Write Row)

def script (r : R) : List (Stmt Row L) → Prog Row L R
  | [] => .commit r
  | x :: xs => .stmt x.label x.writes fun _ => script r xs

/-- Rows with no other transaction in flight. -/
def quiet (d : Db Row) : View Row := ⟨d, fun _ => false⟩

/-- What the statements do, one after the other. -/
def runAll (xs : List (Stmt Row L)) (d : Db Row) : Db Row := xs.foldl (fun d x => applyAll (x.writes (quiet d)) d) d

/-- All that is written by the end, when `ws` was before. -/
def written (d : Db Row) : List (Stmt Row L) → List (Write Row) → List (Write Row)
  | [], ws => ws
  | x :: xs, ws => written d xs (ws ++ x.writes (quiet (applyAll ws d)))

/-- What it writes depends only on the rows it writes. -/
def Local (x : Stmt Row L) : Prop :=
  ∀ v v' : View Row, (∀ k, wrote (x.writes v) k = true → v.rows.lookup k = v'.rows.lookup k) → x.writes v' = x.writes v

/-! ## A script alone -/

theorem applyAll_written (xs : List (Stmt Row L)) : ∀ (ws : List (Write Row)) (d : Db Row),
    applyAll (written d xs ws) d = runAll xs (applyAll ws d) := by
  induction xs with
  | nil => exact fun _ _ => rfl
  | cons x xs ih =>
    intro ws d
    rw [written, ih, applyAll_append]
    rfl

theorem alone_script (r : R) (xs : List (Stmt Row L)) (d : Db Row) :
    alone (script r xs) [] d = (r, runAll xs d) := by
  have hall : ∀ ws, alone (script r xs) ws d = (r, applyAll (written d xs ws) d) := by
    induction xs with
    | nil => exact fun _ => rfl
    | cons x xs ih => exact fun ws => ih _
  rw [hall, applyAll_written, applyAll_nil]

theorem written_append (d : Db Row) (xs ys : List (Stmt Row L)) : ∀ ws : List (Write Row),
    written d (xs ++ ys) ws = written d ys (written d xs ws) := by
  induction xs with
  | nil => exact fun _ => rfl
  | cons x xs ih => exact fun ws => ih _

theorem wrote_written (d : Db Row) (xs : List (Stmt Row L)) {k : K} : ∀ {ws : List (Write Row)},
    wrote ws k = true → wrote (written d xs ws) k = true := by
  induction xs with
  | nil => exact fun h => h
  | cons x xs ih =>
    intro ws h
    apply ih
    simp [h]

theorem lookup_apply_congr (w : Write Row) {d d' : Db Row} {k : K} (h : d.lookup k = d'.lookup k) :
    (w.apply d).lookup k = (w.apply d').lookup k := by
  by_cases hk : k = w.key
  · subst hk
    rw [lookup_apply_self, lookup_apply_self]
  · rw [lookup_apply_ne w d hk, lookup_apply_ne w d' hk, h]

theorem lookup_applyAll_congr (ws : List (Write Row)) {k : K} : ∀ {d d' : Db Row}, d.lookup k = d'.lookup k →
    (applyAll ws d).lookup k = (applyAll ws d').lookup k := by
  induction ws with
  | nil => exact fun h => h
  | cons w ws ih =>
    intro d d' h
    exact ih (lookup_apply_congr w h)

/-- Local statements write the same when the rows they wrote are the same. -/
theorem written_congr {d d' : Db Row} {xs : List (Stmt Row L)} (hl : ∀ x ∈ xs, Local x) : ∀ {ws : List (Write Row)},
    (∀ k, wrote (written d xs ws) k = true → d'.lookup k = d.lookup k) → written d' xs ws = written d xs ws := by
  induction xs with
  | nil => exact fun _ => rfl
  | cons x xs ih =>
    intro ws h
    have hx : x.writes (quiet (applyAll ws d')) = x.writes (quiet (applyAll ws d)) := by
      refine hl x List.mem_cons_self _ _ fun k hk => lookup_applyAll_congr ws ?_
      refine (h k (wrote_written d xs ?_)).symm
      rw [wrote_append, hk, Bool.or_true]
    show written d' xs (ws ++ x.writes (quiet (applyAll ws d'))) = _
    rw [hx]
    exact ih (fun y hy => hl y (List.mem_cons_of_mem _ hy)) h

theorem Local.unlocked {x : Stmt Row L} (h : Local x) (d : Db Row) (locked : K → Bool) :
    x.writes ⟨d, locked⟩ = x.writes (quiet d) := h _ _ fun _ _ => rfl

/-! ## In every interleaving -/

/-- What a commit does, whatever came between the statements. -/
def serialSpec (body : C → Nat → Prog Row L R) : Spec Row C L R where
  inv _ _ := True
  inv_later _ _ := trivial
  guar _ _ := True
  guar_refl _ := trivial
  guar_trans _ _ := trivial
  assume _ _ _ _ := True
  refuse _ _ := False
  post c b _ r d d' := alone (body c b) [] d = (r, d')

section serial
variable {body : C → Nat → Prog Row L R} {reply : C → R} {stmts : C → Nat → List (Stmt Row L)}
  (hbody : ∀ c n, body c n = script (reply c) (stmts c n)) (hlocal : ∀ c n, ∀ x ∈ stmts c n, Local x)

include hbody

/-- A commit does what the script does alone, on the rows committed by then. -/
theorem commit_alone {s : St Row C L R} (h : Ok (serialSpec body) s) {i : Nat} {t : Txn Row C L R} {r : R}
    (ht : s.txns.lookup i = some t) (hp : t.prog = .commit r) :
    applyAll t.writes s.db = runAll (stmts t.call t.began) s.db := by
  have hpost : alone (body t.call t.began) [] s.db = (r, applyAll t.writes s.db) := (commit_post h ht hp).2.2
  rw [hbody, alone_script] at hpost
  exact (Prod.mk.inj hpost).2.symm

include hlocal

theorem script_meets (c : C) (b : Nat) (d0 : Db Row) (rest : List (Stmt Row L)) :
    ∀ (done : List (Stmt Row L)) (n : Nat) (d : Db Row), stmts c b = done ++ rest →
      Meets (serialSpec body) c b d0 (script (reply c) rest) (written d done []) n d := by
  induction rest with
  | nil =>
    intro done n d hst n' d' hr
    refine ⟨trivial, trivial, ?_⟩
    have hdone : ∀ x ∈ done, Local x := fun x hx => hlocal c b x (hst ▸ List.mem_append_left _ hx)
    show alone (body c b) [] d' = _
    rw [hbody, alone_script, hst, List.append_nil, ← written_congr hdone hr.own, applyAll_written, applyAll_nil]
  | cons x rest ih =>
    intro done n d hst n' d' locked hr v _ _
    have hdone : ∀ y ∈ done, Local y := fun y hy => hlocal c b y (hst ▸ List.mem_append_left _ hy)
    have hx : Local x := hlocal c b x (hst ▸ List.mem_append_right _ List.mem_cons_self)
    have hws : written d done [] ++ x.writes v = written d' (done ++ [x]) [] := by
      rw [written_append, written_congr hdone hr.own, hx.unlocked]
      show _ = written d done [] ++ x.writes (quiet (applyAll (written d done []) d'))
      rfl
    rw [hws]
    exact ih (done ++ [x]) n' d' (by rw [hst, List.append_assoc]; rfl)

theorem serial_ok {p : St Row C L R → Act C → Bool} {s s' : St Row C L R} (h : Ok (serialSpec body) s)
    (hr : Run body p s s') : Ok (serialSpec body) s' := by
  refine (run_ok body (fun s a _ => ?_) (fun c n d _ => ?_) h hr).1
  · cases a with
    | exec i => exact fun _ _ _ _ _ _ => trivial
    | _ => trivial
  · rw [hbody]
    exact script_meets hbody hlocal c n d (stmts c n) [] n d rfl

end serial

/-! ## What has committed -/

/-- The call that the action commits, and when it began. -/
def committed (s : St Row C L R) : Act C → List (C × Nat)
  | .commit i => ((s.txns.lookup i).map fun t => (t.call, t.began)).toList
  | _ => []

/-- The runs from `s`, with what they committed, newest first. -/
inductive Logged (body : C → Nat → Prog Row L R) (s : St Row C L R) : List (C × Nat) → St Row C L R → Prop
  | refl : Logged body s [] s
  | step {cs : List (C × Nat)} {s' s'' : St Row C L R} (a : Act C) : Logged body s cs s' →
      ReadCommitted.step body s' a = some s'' → Logged body s (committed s' a ++ cs) s''

/-- The transactions in flight go on: none begins, and none is aborted. -/
def goesOn : Act C → Bool
  | .exec _ | .commit _ => true
  | .tick _ | .start _ _ | .abort _ => false

/-- The runs from `s` that only go on, with what they committed, newest first. -/
inductive RunsOut (body : C → Nat → Prog Row L R) (s : St Row C L R) : List (C × Nat) → St Row C L R → Prop
  | refl : RunsOut body s [] s
  | step {cs : List (C × Nat)} {s' s'' : St Row C L R} (a : Act C) : RunsOut body s cs s' → goesOn a = true →
      ReadCommitted.step body s' a = some s'' → RunsOut body s (committed s' a ++ cs) s''

section logged
variable {body : C → Nat → Prog Row L R} {s s' s'' : St Row C L R} {cs cs' : List (C × Nat)}

theorem RunsOut.trans (h : RunsOut body s cs s') (h' : RunsOut body s' cs' s'') : RunsOut body s (cs' ++ cs) s'' := by
  induction h' with
  | refl => exact h
  | step a _ ha hs ih =>
    rw [List.append_assoc]
    exact .step a ih ha hs

theorem Logged.run (h : Logged body s cs s') : Run body (fun _ _ => true) s s' := by
  induction h with
  | refl => exact .refl
  | step a _ hs ih => exact .step a ih rfl hs

theorem Logged.trans (h : Logged body s cs s') (h' : Logged body s' cs' s'') : Logged body s (cs' ++ cs) s'' := by
  induction h' with
  | refl => exact h
  | step a _ hs ih =>
    rw [List.append_assoc]
    exact .step a ih hs

/-- What the actions commit, newest first. -/
def playLog (body : C → Nat → Prog Row L R) (s : St Row C L R) : List (Act C) → List (C × Nat)
  | [] => []
  | a :: as =>
    match ReadCommitted.step body s a with
    | some s' => playLog body s' as ++ committed s a
    | none => []

theorem play_logged : ∀ (as : List (Act C)) {s : St Row C L R}, play body (fun _ _ => true) s as = some s' →
    Logged body s (playLog body s as) s' := by
  intro as
  induction as with
  | nil =>
    intro s h
    cases h
    exact .refl
  | cons a as ih =>
    intro s h
    simp only [play, if_true] at h
    obtain ⟨s1, hs, h⟩ := Option.bind_eq_some_iff.mp h
    simp only [playLog, hs]
    have hone := Logged.step a .refl hs
    rw [List.append_nil] at hone
    exact hone.trans (ih h)

/-- The rows are those that the scripts leave, run one after the other as they committed. -/
theorem serial {reply : C → R} {stmts : C → Nat → List (Stmt Row L)}
    (hbody : ∀ c n, body c n = script (reply c) (stmts c n)) (hlocal : ∀ c n, ∀ x ∈ stmts c n, Local x)
    (hok : Ok (serialSpec body) s) (h : Logged body s cs s') :
    s'.db = cs.foldr (fun c d => runAll (stmts c.1 c.2) d) s.db := by
  induction h with
  | refl => rfl
  | @step cs s1 s2 a h1 hs ih =>
    have hok1 := serial_ok hbody hlocal hok h1.run
    cases step_cases body hs with
    | commit i t r ht hp =>
      have hcs : committed s1 (.commit i) = [(t.call, t.began)] := by
        simp only [committed, ht, Option.map_some, Option.toList_some]
      show applyAll t.writes s1.db = _
      rw [hcs, commit_alone hbody hok1 ht hp, ih]
      rfl
    | _ => exact ih

end logged

/-! ## In the order of a rank -/

/-- The statement writes only rows that rank above all those written before it. -/
def Ascends (rank : K → Nat) (_ : C) (_ : Nat) (_ : L) (writes : View Row → List (Write Row))
    (_ : View Row → Prog Row L R) (ws : List (Write Row)) : Prop :=
  ∀ v, ∀ w ∈ writes v, ∀ k, wrote ws k = true → rank k < rank w.key

/-- The first rank above all the rows written. -/
def top (rank : K → Nat) (ws : List (Write Row)) : Nat := ws.foldr (fun w n => max (rank w.key + 1) n) 0

section ascends
variable {rank : K → Nat} {ws xs : List (Write Row)}

theorem lt_top {k : K} (h : wrote ws k = true) : rank k < top rank ws := by
  induction ws with
  | nil => cases h
  | cons w ws ih =>
    simp only [wrote_cons, Bool.or_eq_true, decide_eq_true_eq] at h
    simp only [top, List.foldr_cons] at ih ⊢
    rcases h with rfl | h
    · omega
    · have := ih h
      omega

theorem top_le {n : Nat} (h : ∀ k, wrote ws k = true → rank k < n) : top rank ws ≤ n := by
  induction ws with
  | nil => exact Nat.zero_le n
  | cons w ws ih =>
    have hw := h w.key (by simp)
    have hws := ih fun k hk => h k (by simp [hk])
    simp only [top, List.foldr_cons] at hws ⊢
    omega

theorem top_append : top rank ws ≤ top rank (ws ++ xs) :=
  top_le fun k hk => lt_top (by rw [wrote_append, hk, Bool.true_or])

variable {body : C → Nat → Prog Row L R} {s : St Row C L R} {i : Nat} {t : Txn Row C L R}

/-- No transaction holds a row of higher rank. -/
def Highest (rank : K → Nat) (s : St Row C L R) (i : Nat) (t : Txn Row C L R) : Prop :=
  ∀ j u, j ≠ i → s.txns.lookup j = some u → top rank u.writes ≤ top rank t.writes

/-- The transaction that holds the highest row waits for no other. -/
theorem Highest.free (h : Highest rank s i t) {l : L} {writes : View Row → List (Write Row)}
    {next : View Row → Prog Row L R} (ha : Ascends rank t.call t.began l writes next t.writes) :
    blocked (viewOf s i t) (writes (viewOf s i t)) = false := by
  refine List.any_eq_false.mpr fun w hw hlocked => ?_
  obtain ⟨⟨j, u⟩, hu, hwrote⟩ := List.any_eq_true.mp hlocked
  simp only [ne_eq, Bool.and_eq_true, decide_eq_true_eq] at hwrote
  have hlt : rank w.key < top rank u.writes := lt_top hwrote.2
  have hle : top rank u.writes ≤ top rank t.writes := h j u hwrote.1 (AList.mem_lookup_iff.mpr hu)
  have hown : top rank t.writes ≤ rank w.key := top_le (ha _ w hw)
  omega

/-- It runs to its commit, and leaves the others as they are. -/
theorem Highest.commits {r : R} (rest : List (Stmt Row L)) : ∀ {s : St Row C L R} {t : Txn Row C L R},
    s.txns.lookup i = some t → t.prog = script r rest → Throughout (Ascends rank t.call t.began) t.prog t.writes →
    Highest rank s i t →
    ∃ s', RunsOut body s [(t.call, t.began)] s' ∧ ∀ j, s'.txns.lookup j = if j = i then none else s.txns.lookup j := by
  induction rest with
  | nil =>
    intro s t ht hp _ _
    have hs : ReadCommitted.step body s (.commit i) =
        some { s with db := applyAll t.writes s.db, txns := s.txns.erase i } := by
      simp only [ReadCommitted.step, ht, hp, script]
    have hlog := RunsOut.step (.commit i) .refl rfl hs
    simp only [committed, ht, Option.map_some, Option.toList_some, List.append_nil] at hlog
    refine ⟨_, hlog, fun j => ?_⟩
    by_cases hj : j = i
    · subst hj
      rw [if_pos rfl]
      exact AList.lookup_erase _ _
    · rw [if_neg hj]
      exact AList.lookup_erase_ne hj
  | cons x rest ih =>
    intro s t ht hp hth hhigh
    rw [hp] at hth
    have hfree := hhigh.free hth.1
    let v := viewOf s i t
    let t' : Txn Row C L R := { t with prog := script r rest, writes := t.writes ++ x.writes v }
    have hs : ReadCommitted.step body s (.exec i) = some { s with txns := s.txns.insert i t' } := by
      simp only [ReadCommitted.step, ht, hp, script, hfree]
      rfl
    have hhigh' : Highest rank { s with txns := s.txns.insert i t' } i t' := by
      intro j u hj hu
      have hu' : s.txns.lookup j = some u := by rwa [AList.lookup_insert_ne hj] at hu
      exact Nat.le_trans (hhigh j u hj hu') top_append
    obtain ⟨s', hlog, hrest⟩ := ih (t := t') (AList.lookup_insert _) rfl (hth.2 s.db _) hhigh'
    refine ⟨s', (RunsOut.step (.exec i) .refl rfl hs).trans hlog, fun j => ?_⟩
    rw [hrest]
    by_cases hj : j = i
    · rw [if_pos hj, if_pos hj]
    · rw [if_neg hj, if_neg hj]
      exact AList.lookup_insert_ne hj

/-- All the transactions in flight run to their commits. -/
theorem all_commit (hth : ThroughoutAll (Ascends rank) s)
    (hscript : ∀ i t, s.txns.lookup i = some t → ∃ r xs, t.prog = script r xs) :
    ∃ cs s', RunsOut body s cs s' ∧ s'.txns = ∅ ∧ ∀ i t, s.txns.lookup i = some t → (t.call, t.began) ∈ cs := by
  obtain ⟨F, hF⟩ : ∃ F : Finset Nat, ∀ i, i ∈ s.txns ↔ i ∈ F :=
    ⟨s.txns.keys.toFinset, fun i => by simp [AList.mem_keys]⟩
  induction F using Finset.strongInduction generalizing s with
  | H F ih =>
    by_cases hne : F.Nonempty
    · obtain ⟨i, hi, hmax⟩ := Finset.exists_max_image F (fun i => (s.txns.lookup i).elim 0 (top rank ·.writes)) hne
      obtain ⟨t, ht⟩ := Option.isSome_iff_exists.mp (AList.lookup_isSome.mpr ((hF i).mpr hi))
      have hhigh : Highest rank s i t := by
        intro j u _ hu
        have hle := hmax j ((hF j).mp (AList.lookup_isSome.mp (by rw [hu]; rfl)))
        simpa only [hu, ht, Option.elim_some] using hle
      obtain ⟨r, xs, hp⟩ := hscript i t ht
      obtain ⟨s1, hlog1, hrest⟩ : ∃ s1, RunsOut body s [(t.call, t.began)] s1 ∧
          ∀ j, s1.txns.lookup j = if j = i then none else s.txns.lookup j :=
        hhigh.commits xs ht hp (hth i t ht)
      have hold : ∀ j u, s1.txns.lookup j = some u → s.txns.lookup j = some u := by
        intro j u hu
        rw [hrest] at hu
        split at hu
        · cases hu
        · exact hu
      have hF1 : ∀ j, j ∈ s1.txns ↔ j ∈ F.erase i := by
        intro j
        rw [← AList.lookup_isSome, hrest, Finset.mem_erase, ← hF, ← AList.lookup_isSome]
        by_cases hj : j = i
        · simp [hj]
        · simp [hj]
      obtain ⟨cs, s', hlog, hempty, hall⟩ := ih (F.erase i) (Finset.erase_ssubset hi)
        (fun j u hu => hth j u (hold j u hu)) (fun j u hu => hscript j u (hold j u hu)) hF1
      refine ⟨cs ++ [(t.call, t.began)], s', hlog1.trans hlog, hempty, fun j u hu => ?_⟩
      by_cases hj : j = i
      · subst hj
        rw [ht] at hu
        cases hu
        simp
      · exact List.mem_append_left _ (hall j u (by rw [hrest, if_neg hj, hu]))
    · have hnone : ∀ i, i ∉ s.txns := fun i hi => hne ⟨i, (hF i).mp hi⟩
      refine ⟨[], s, .refl, ?_, fun i t ht => absurd (AList.lookup_isSome.mp (by rw [ht]; rfl)) (hnone i)⟩
      refine AList.ext (List.eq_nil_iff_forall_not_mem.mpr fun e he => hnone e.1 ?_)
      exact AList.mem_keys.mpr (List.mem_map_of_mem he)

theorem scripted {reply : C → R} {stmts : C → Nat → List (Stmt Row L)}
    (hbody : ∀ c n, body c n = script (reply c) (stmts c n)) {p : St Row C L R → Act C → Bool}
    (hr : Run body p (init Row C L R) s) : ∀ i t, s.txns.lookup i = some t → ∃ r xs, t.prog = script r xs := by
  induction hr with
  | refl =>
    intro i t ht
    cases ht
  | step a _ _ hs ih =>
    cases step_cases body hs with
    | tick d => exact ih
    | start i c _ =>
      intro j u hu
      rcases lookup_insert_cases hu with ⟨-, rfl⟩ | ⟨-, hu⟩
      · exact ⟨_, _, hbody c _⟩
      · exact ih j u hu
    | exec i t l writes next ht hp _ =>
      intro j u hu
      rcases lookup_insert_cases hu with ⟨-, rfl⟩ | ⟨-, hu⟩
      · obtain ⟨r, xs, hscript⟩ := ih i t ht
        rw [hp] at hscript
        cases xs with
        | nil => cases hscript
        | cons x xs =>
          cases hscript
          exact ⟨r, xs, rfl⟩
      · exact ih j u hu
    | commit i t r _ _ => exact fun j u hu => ih j u (lookup_erase_cases hu).2
    | abort i _ => exact fun j u hu => ih j u (lookup_erase_cases hu).2

/-- From every state, when the scripts lock in the order of the rank. -/
theorem completes {reply : C → R} {stmts : C → Nat → List (Stmt Row L)}
    (hbody : ∀ c n, body c n = script (reply c) (stmts c n))
    (hrank : ∀ c n, Throughout (Ascends rank c n) (body c n) []) {p : St Row C L R → Act C → Bool}
    (hr : Run body p (init Row C L R) s) :
    ∃ cs s', RunsOut body s cs s' ∧ s'.txns = ∅ ∧ ∀ i t, s.txns.lookup i = some t → (t.call, t.began) ∈ cs :=
  all_commit (throughout_run body hrank hr) (scripted hbody hr)

end ascends

end SoroFuzz.Lib.Script
