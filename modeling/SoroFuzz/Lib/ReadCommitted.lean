/-
  SoroFuzz.Lib.ReadCommitted — transactions over a keyed store at READ COMMITTED.

  A store holds at most one committed version of each row (`Db`). A transaction is a
  program of statements (`Prog`). A statement is atomic: it sees the latest committed
  rows under its own transaction's writes (`View`), and it writes new row versions that
  nobody else sees until commit. Every row a transaction has written is locked by it
  until it commits or aborts; a statement that would write a row another transaction
  has locked does not run. It is tried again later, on the rows committed by then: that
  is the re-evaluation of a blocked UPDATE's WHERE clause. Any transaction may be
  aborted at any time (a deadlock broken, a connection lost); it then has no effect.

  A program is verified alone, against what the others may do meanwhile (`Meets`): they
  keep the invariant and the guarantee of the `Spec`, and leave its locked rows alone.
  Proved:
  - `step_ok`, `run_ok`: when every program meets the spec, the invariant holds of the
    committed rows of every interleaving, every commit keeps the guarantee, and so does
    every run.
  - `commit_post`: a commit takes the rows committed before it to its program's
    postcondition.
-/

import Mathlib.Data.List.AList

namespace SoroFuzz.Lib.ReadCommitted

variable {K : Type} [DecidableEq K]

/-- The committed version of each row. -/
abbrev Db (Row : K → Type) := AList Row

/-- A new version of one row, or its deletion. -/
structure Write (Row : K → Type) where
  key : K
  row : Option (Row key)

variable {Row : K → Type}

def Write.apply (w : Write Row) (d : Db Row) : Db Row :=
  match w.row with
  | some r => d.insert w.key r
  | none => d.erase w.key

def applyAll (ws : List (Write Row)) (d : Db Row) : Db Row := ws.foldl (fun d w => w.apply d) d

/-- The key is among those written, hence locked. -/
def wrote (ws : List (Write Row)) (k : K) : Bool := ws.any (·.key = k)

/-- What a statement sees: the rows, and which of them other transactions have locked. -/
structure View (Row : K → Type) where
  rows : Db Row
  locked : K → Bool

/-- A transaction's remaining statements: `L` names a statement, `R` is what the
    caller gets back. -/
inductive Prog (Row : K → Type) (L R : Type) where
  | commit (r : R)
  | rollback (r : R)
  | stmt (label : L) (writes : View Row → List (Write Row)) (next : View Row → Prog Row L R)

/-- A transaction in flight. -/
structure Txn (Row : K → Type) (C L R : Type) where
  call : C
  /-- The time at which the transaction began. -/
  began : Nat
  /-- The rows committed when it began: no step reads it, proofs speak of it. -/
  seen : Db Row
  prog : Prog Row L R
  writes : List (Write Row)

structure St (Row : K → Type) (C L R : Type) where
  db : Db Row
  now : Nat
  txns : AList fun _ : Nat => Txn Row C L R

variable {C L R : Type}

def init (Row : K → Type) (C L R : Type) : St Row C L R := ⟨∅, 0, ∅⟩

def lockedByOthers (s : St Row C L R) (i : Nat) (k : K) : Bool :=
  s.txns.entries.any fun e => e.1 ≠ i && wrote e.2.writes k

def viewOf (s : St Row C L R) (i : Nat) (t : Txn Row C L R) : View Row :=
  ⟨applyAll t.writes s.db, lockedByOthers s i⟩

inductive Act (C : Type) where
  | tick (d : Nat)
  | start (i : Nat) (c : C)
  | exec (i : Nat)
  | commit (i : Nat)
  | abort (i : Nat)
  deriving DecidableEq, Repr

variable (body : C → Nat → Prog Row L R)

/-- The statement `t` is at may not run: it would write a row another has locked. -/
def blocked (v : View Row) (ws : List (Write Row)) : Bool := ws.any fun w => v.locked w.key

def step (s : St Row C L R) : Act C → Option (St Row C L R)
  | .tick d => some { s with now := s.now + d }
  | .start i c =>
    if i ∈ s.txns then none
    else some { s with txns := s.txns.insert i ⟨c, s.now, s.db, body c s.now, []⟩ }
  | .exec i =>
    match s.txns.lookup i with
    | some t =>
      match t.prog with
      | .stmt _ writes next =>
        let v := viewOf s i t
        if blocked v (writes v) then none
        else some { s with txns := s.txns.insert i { t with prog := next v, writes := t.writes ++ writes v } }
      | _ => none
    | none => none
  | .commit i =>
    match s.txns.lookup i with
    | some t =>
      match t.prog with
      | .commit _ => some { s with db := applyAll t.writes s.db, txns := s.txns.erase i }
      | _ => none
    | none => none
  | .abort i => if i ∈ s.txns then some { s with txns := s.txns.erase i } else none

/-- The runs from `s` whose every step is one that `p` lets through. -/
inductive Run (p : St Row C L R → Act C → Bool) (s : St Row C L R) : St Row C L R → Prop
  | refl : Run p s s
  | step {s' s'' : St Row C L R} (a : Act C) : Run p s s' → p s' a = true → step body s' a = some s'' → Run p s s''

/-- The states of the interleavings as they are, nothing kept out. -/
def Reach (s : St Row C L R) : Prop := Run body (fun _ _ => true) (init Row C L R) s

/-- Run the actions in order; `none` when one of them cannot be taken. -/
def play (p : St Row C L R → Act C → Bool) (s : St Row C L R) : List (Act C) → Option (St Row C L R)
  | [] => some s
  | a :: as => if p s a then (step body s a).bind fun s' => play p s' as else none

theorem play_run {p : St Row C L R → Act C → Bool} {s0 : St Row C L R} : ∀ (as : List (Act C)) {s s' : St Row C L R},
    Run body p s0 s → play body p s as = some s' → Run body p s0 s' := by
  intro as
  induction as with
  | nil => intro s s' h hp; cases hp; exact h
  | cons a as ih =>
    intro s s' h hp
    simp only [play] at hp
    split at hp
    · rename_i ha
      obtain ⟨s1, h1, h2⟩ := Option.bind_eq_some_iff.mp hp
      exact ih (.step a h ha h1) h2
    · cases hp

/-! ## Rows under writes -/

@[simp] theorem applyAll_nil (d : Db Row) : applyAll [] d = d := rfl

@[simp] theorem applyAll_cons (w : Write Row) (ws : List (Write Row)) (d : Db Row) :
    applyAll (w :: ws) d = applyAll ws (w.apply d) := rfl

theorem applyAll_append (ws xs : List (Write Row)) (d : Db Row) :
    applyAll (ws ++ xs) d = applyAll xs (applyAll ws d) := List.foldl_append

@[simp] theorem apply_some (k : K) (r : Row k) (d : Db Row) : (Write.mk k (some r)).apply d = d.insert k r := rfl

theorem wrote_iff {ws : List (Write Row)} {k : K} : wrote ws k = true ↔ ∃ w ∈ ws, w.key = k := by
  simp [wrote]

@[simp] theorem wrote_nil (k : K) : wrote ([] : List (Write Row)) k = false := rfl

@[simp] theorem wrote_cons (w : Write Row) (ws : List (Write Row)) (k : K) :
    wrote (w :: ws) k = (decide (w.key = k) || wrote ws k) := rfl

@[simp] theorem wrote_append (ws xs : List (Write Row)) (k : K) : wrote (ws ++ xs) k = (wrote ws k || wrote xs k) :=
  List.any_append

theorem lookup_apply_ne (w : Write Row) (d : Db Row) {k : K} (h : k ≠ w.key) :
    (w.apply d).lookup k = d.lookup k := by
  unfold Write.apply
  split
  · exact AList.lookup_insert_ne h
  · exact AList.lookup_erase_ne h

theorem lookup_apply_self (w : Write Row) (d : Db Row) : (w.apply d).lookup w.key = w.row := by
  unfold Write.apply
  split
  · rename_i r hr; rw [hr]; exact AList.lookup_insert d
  · rename_i hr; rw [hr]; exact AList.lookup_erase _ d

/-- A row that was not written is as it was. -/
theorem lookup_applyAll_other : ∀ (ws : List (Write Row)) (d : Db Row) {k : K}, wrote ws k = false →
    (applyAll ws d).lookup k = d.lookup k := by
  intro ws
  induction ws with
  | nil => intro d k _; rfl
  | cons w ws ih =>
    intro d k h
    simp only [wrote, List.any_cons, Bool.or_eq_false_iff, decide_eq_false_iff_not] at h
    rw [applyAll_cons, ih (w.apply d) h.2, lookup_apply_ne w d (fun e => h.1 e.symm)]

/-! ## Verifying a program alone -/

/-- What the programs keep (`inv` of the committed rows at a time, `guar` across every
    commit), what a statement may take for granted when it runs (`assume`), what a call
    may return that wrote nothing (`refuse`), and what each call's commit promises of the
    rows when it began, and just before and after it (`post`). -/
structure Spec (Row : K → Type) (C L R : Type) where
  inv : Nat → Db Row → Prop
  inv_later : ∀ {n n' : Nat} {d : Db Row}, n ≤ n' → inv n d → inv n' d
  guar : Db Row → Db Row → Prop
  guar_refl : ∀ d, guar d d
  guar_trans : ∀ {d d' d'' : Db Row}, guar d d' → guar d' d'' → guar d d''
  assume : C → Nat → L → View Row → Prop
  refuse : C → R → Prop
  post : C → Nat → Db Row → R → Db Row → Db Row → Prop

variable (S : Spec Row C L R)

/-- What may have happened between two statements of a transaction that has written `ws`. -/
structure Rely (ws : List (Write Row)) (n : Nat) (d : Db Row) (n' : Nat) (d' : Db Row) : Prop where
  later : n ≤ n'
  inv : S.inv n' d'
  guar : S.guar d d'
  own : ∀ k, wrote ws k = true → d'.lookup k = d.lookup k

/-- The rest of a program, run after the writes `ws` from the committed rows `d` at
    time `n`, keeps the spec whatever the others do between its statements. -/
def Meets (c : C) (b : Nat) (d0 : Db Row) : Prog Row L R → List (Write Row) → Nat → Db Row → Prop
  | .commit r, ws, n, d => ∀ n' d', Rely S ws n d n' d' →
      S.inv n' (applyAll ws d') ∧ S.guar d' (applyAll ws d') ∧ S.post c b d0 r d' (applyAll ws d')
  | .rollback r, _, _, _ => S.refuse c r
  | .stmt l writes next, ws, n, d => ∀ n' d' locked, Rely S ws n d n' d' →
      let v : View Row := ⟨applyAll ws d', locked⟩
      S.assume c b l v → blocked v (writes v) = false → Meets c b d0 (next v) (ws ++ writes v) n' d'

theorem Rely.refl {ws : List (Write Row)} {n : Nat} {d : Db Row} (h : S.inv n d) : Rely S ws n d n d :=
  ⟨Nat.le_refl n, h, S.guar_refl d, fun _ _ => rfl⟩

theorem Rely.trans {ws : List (Write Row)} {n n' n'' : Nat} {d d' d'' : Db Row} (h : Rely S ws n d n' d')
    (h' : Rely S ws n' d' n'' d'') : Rely S ws n d n'' d'' :=
  ⟨Nat.le_trans h.later h'.later, h'.inv, S.guar_trans h.guar h'.guar, fun k hk => (h'.own k hk).trans (h.own k hk)⟩

/-- What the others do leaves a program's verification standing. -/
theorem meets_rely {c : C} {b : Nat} {d0 : Db Row} {p : Prog Row L R} {ws : List (Write Row)} {n n' : Nat}
    {d d' : Db Row} (h : Meets S c b d0 p ws n d) (hr : Rely S ws n d n' d') : Meets S c b d0 p ws n' d' := by
  cases p with
  | commit r => exact fun n'' d'' hr' => h n'' d'' (Rely.trans S hr hr')
  | rollback r => exact h
  | stmt l writes next => exact fun n'' d'' locked hr' => h n'' d'' locked (Rely.trans S hr hr')

/-! ## Soundness over every interleaving -/

/-- Every transaction in flight still meets the spec, and no row is locked twice. -/
structure Ok (s : St Row C L R) : Prop where
  inv : S.inv s.now s.db
  meets : ∀ i t, s.txns.lookup i = some t → Meets S t.call t.began t.seen t.prog t.writes s.now s.db
  apart : ∀ i j t u, s.txns.lookup i = some t → s.txns.lookup j = some u → i ≠ j →
    ∀ k, wrote t.writes k = true → wrote u.writes k = false

/-- The statement the action runs may take its assumption for granted. -/
def Allowed (s : St Row C L R) : Act C → Prop
  | .exec i => ∀ t l writes next, s.txns.lookup i = some t → t.prog = .stmt l writes next →
      S.assume t.call t.began l (viewOf s i t)
  | _ => True

theorem lookup_insert_cases {β : Type} {m : AList fun _ : Nat => β} {i j : Nat} {x y : β}
    (h : (m.insert i x).lookup j = some y) : (j = i ∧ x = y) ∨ (j ≠ i ∧ m.lookup j = some y) := by
  by_cases e : j = i
  · subst e
    rw [AList.lookup_insert] at h
    exact Or.inl ⟨rfl, Option.some.inj h⟩
  · rw [AList.lookup_insert_ne e] at h
    exact Or.inr ⟨e, h⟩

theorem lookup_erase_cases {β : Type} {m : AList fun _ : Nat => β} {i j : Nat} {y : β}
    (h : (m.erase i).lookup j = some y) : j ≠ i ∧ m.lookup j = some y := by
  by_cases e : j = i
  · subst e
    rw [AList.lookup_erase] at h
    cases h
  · rw [AList.lookup_erase_ne e] at h
    exact ⟨e, h⟩

/-- A row locked by another transaction in flight is one the view shows as locked. -/
theorem lockedByOthers_of {s : St Row C L R} {i j : Nat} {u : Txn Row C L R} {k : K} (hu : s.txns.lookup j = some u)
    (hij : j ≠ i) (hk : wrote u.writes k = true) : lockedByOthers s i k = true := by
  have hm : (⟨j, u⟩ : Sigma fun _ : Nat => Txn Row C L R) ∈ s.txns.entries := AList.mem_lookup_iff.mp hu
  exact List.any_eq_true.mpr ⟨_, hm, by simp [hij, hk]⟩

/-- What one step does, whichever action it is. -/
inductive Stepped (s : St Row C L R) : Act C → St Row C L R → Prop
  | tick (d : Nat) : Stepped s (.tick d) { s with now := s.now + d }
  | start (i : Nat) (c : C) : i ∉ s.txns →
      Stepped s (.start i c) { s with txns := s.txns.insert i ⟨c, s.now, s.db, body c s.now, []⟩ }
  | exec (i : Nat) (t : Txn Row C L R) (l : L) (writes : View Row → List (Write Row)) (next : View Row → Prog Row L R) :
      s.txns.lookup i = some t → t.prog = .stmt l writes next →
      blocked (viewOf s i t) (writes (viewOf s i t)) = false →
      Stepped s (.exec i) { s with
        txns := s.txns.insert i { t with prog := next (viewOf s i t), writes := t.writes ++ writes (viewOf s i t) } }
  | commit (i : Nat) (t : Txn Row C L R) (r : R) : s.txns.lookup i = some t → t.prog = .commit r →
      Stepped s (.commit i) { s with db := applyAll t.writes s.db, txns := s.txns.erase i }
  | abort (i : Nat) : i ∈ s.txns → Stepped s (.abort i) { s with txns := s.txns.erase i }

theorem step_cases {s s' : St Row C L R} {a : Act C} (h : step body s a = some s') : Stepped body s a s' := by
  cases a with
  | tick d => cases h; exact .tick d
  | start i c =>
    simp only [step] at h
    split at h
    · cases h
    · rename_i hi; cases h; exact .start i c hi
  | exec i =>
    simp only [step] at h
    split at h
    · rename_i t ht
      split at h
      · rename_i l writes next hp
        split at h
        · cases h
        · rename_i hb
          cases h
          exact .exec i t l writes next ht hp (by simpa using hb)
      · cases h
    · cases h
  | commit i =>
    simp only [step] at h
    split at h
    · rename_i t ht
      split at h
      · rename_i r hp; cases h; exact .commit i t r ht hp
      · cases h
    · cases h
  | abort i =>
    simp only [step] at h
    split at h
    · rename_i hi; cases h; exact .abort i hi
    · cases h

variable {S}

/-- The rows another transaction's commit wrote are not among those `u` has locked. -/
theorem rely_of_commit {s : St Row C L R} (h : Ok S s) {i j : Nat} {t u : Txn Row C L R}
    (ht : s.txns.lookup i = some t) (hu : s.txns.lookup j = some u) (hij : j ≠ i)
    (hi : S.inv s.now (applyAll t.writes s.db)) (hg : S.guar s.db (applyAll t.writes s.db)) :
    Rely S u.writes s.now s.db s.now (applyAll t.writes s.db) :=
  ⟨Nat.le_refl _, hi, hg, fun k hk => lookup_applyAll_other _ _ (h.apart j i u t hu ht hij k hk)⟩

theorem commit_post {s : St Row C L R} (h : Ok S s) {i : Nat} {t : Txn Row C L R} {r : R}
    (ht : s.txns.lookup i = some t) (hp : t.prog = .commit r) :
    S.inv s.now (applyAll t.writes s.db) ∧ S.guar s.db (applyAll t.writes s.db) ∧
      S.post t.call t.began t.seen r s.db (applyAll t.writes s.db) := by
  have hm := h.meets i t ht
  rw [hp] at hm
  exact hm s.now s.db (Rely.refl S h.inv)

/-- One allowed step keeps every transaction meeting the spec, and keeps the guarantee. -/
theorem step_ok (hbody : ∀ c n d, S.inv n d → Meets S c n d (body c n) [] n d) {s s' : St Row C L R} {a : Act C}
    (h : Ok S s) (hs : step body s a = some s') (ha : Allowed S s a) : Ok S s' ∧ S.guar s.db s'.db := by
  cases step_cases body hs with
  | tick d =>
    have hr : ∀ ws, Rely S ws s.now s.db (s.now + d) s.db := fun ws =>
      ⟨Nat.le_add_right _ _, S.inv_later (Nat.le_add_right _ _) h.inv, S.guar_refl _, fun _ _ => rfl⟩
    exact ⟨⟨S.inv_later (Nat.le_add_right _ _) h.inv, fun i t ht => meets_rely S (h.meets i t ht) (hr _), h.apart⟩,
      S.guar_refl _⟩
  | start i c hi =>
    refine ⟨⟨h.inv, fun j t ht => ?_, fun j k t u ht hu hjk x hx => ?_⟩, S.guar_refl _⟩
    · rcases lookup_insert_cases ht with ⟨-, rfl⟩ | ⟨-, ht⟩
      · exact hbody c s.now s.db h.inv
      · exact h.meets j t ht
    · rcases lookup_insert_cases ht with ⟨-, rfl⟩ | ⟨-, ht⟩
      · cases hx
      · rcases lookup_insert_cases hu with ⟨-, rfl⟩ | ⟨-, hu⟩
        · rfl
        · exact h.apart j k t u ht hu hjk x hx
  | exec i t l writes next ht hp hb =>
    have hfree : ∀ j u, s.txns.lookup j = some u → j ≠ i → ∀ k, wrote u.writes k = true →
        wrote (writes (viewOf s i t)) k = false := by
      intro j u hu hij k hk
      by_contra hw
      obtain ⟨w, hwm, rfl⟩ := wrote_iff.mp (by simpa using hw)
      have := List.any_eq_false.mp hb w hwm
      exact this (lockedByOthers_of hu hij hk)
    refine ⟨⟨h.inv, fun j u hu => ?_, fun j k u v hu hv hjk x hx => ?_⟩, S.guar_refl _⟩
    · rcases lookup_insert_cases hu with ⟨-, rfl⟩ | ⟨-, hu⟩
      · have hm := h.meets i t ht
        rw [hp] at hm
        exact hm s.now s.db _ (Rely.refl S h.inv) (ha t l writes next ht hp) hb
      · exact h.meets j u hu
    · rcases lookup_insert_cases hu with ⟨rfl, rfl⟩ | ⟨hji, hu'⟩ <;>
        rcases lookup_insert_cases hv with ⟨rfl, rfl⟩ | ⟨hki, hv'⟩
      · exact absurd rfl hjk
      · by_contra hvx
        have hvx : wrote v.writes x = true := by simpa using hvx
        rw [wrote_append, hfree k v hv' hki x hvx, h.apart k j v t hv' ht hki x hvx] at hx
        cases hx
      · rw [wrote_append, h.apart j k u t hu' ht hjk x hx, hfree j u hu' hji x hx]; rfl
      · exact h.apart j k u v hu' hv' hjk x hx
  | commit i t r ht hp =>
    obtain ⟨hi, hg, -⟩ := commit_post h ht hp
    refine ⟨⟨hi, fun j u hu => ?_, fun j k u v hu hv => ?_⟩, hg⟩
    · obtain ⟨hij, hu⟩ := lookup_erase_cases hu
      exact meets_rely S (h.meets j u hu) (rely_of_commit h ht hu hij hi hg)
    · exact h.apart j k u v (lookup_erase_cases hu).2 (lookup_erase_cases hv).2
  | abort i hi =>
    exact ⟨⟨h.inv, fun j u hu => h.meets j u (lookup_erase_cases hu).2,
      fun j k u v hu hv => h.apart j k u v (lookup_erase_cases hu).2 (lookup_erase_cases hv).2⟩, S.guar_refl _⟩

theorem run_ok {p : St Row C L R → Act C → Bool} (hp : ∀ s a, p s a = true → Allowed S s a)
    (hbody : ∀ c n d, S.inv n d → Meets S c n d (body c n) [] n d) {s s' : St Row C L R}
    (h : Ok S s) (hr : Run body p s s') : Ok S s' ∧ S.guar s.db s'.db := by
  induction hr with
  | refl => exact ⟨h, S.guar_refl _⟩
  | step a _ ha hs ih =>
    obtain ⟨hok, hg⟩ := step_ok body hbody ih.1 hs (hp _ a ha)
    exact ⟨hok, S.guar_trans ih.2 hg⟩

/-- A relation that every commit keeps, kept by every run: what a run does to the
    committed rows is what its commits do, one after the other. -/
theorem run_rel {p : St Row C L R → Act C → Bool} (hp : ∀ s a, p s a = true → Allowed S s a)
    (hbody : ∀ c n d, S.inv n d → Meets S c n d (body c n) [] n d) (T : Db Row → Db Row → Prop)
    (refl : ∀ d, T d d) (trans : ∀ {d d' d''}, T d d' → T d' d'' → T d d'')
    (hpost : ∀ {n c b d0 r d d'}, S.inv n d → S.post c b d0 r d d' → T d d') {s s' : St Row C L R}
    (h : Ok S s) (hr : Run body p s s') : T s.db s'.db := by
  induction hr with
  | refl => exact refl _
  | @step s1 s2 a h1 ha hs ih =>
    have hok := (run_ok body hp hbody h h1).1
    refine trans ih ?_
    cases step_cases body hs with
    | commit i t r ht hp => exact hpost hok.inv (commit_post hok ht hp).2.2
    | _ => exact refl _

/-- Nothing in flight: all there is to keep is the invariant. -/
theorem quiet_ok {d : Db Row} {n : Nat} (h : S.inv n d) : Ok S (⟨d, n, ∅⟩ : St Row C L R) :=
  ⟨h, fun _ _ ht => by simp at ht, fun _ _ _ _ ht => by simp at ht⟩

theorem init_ok (h : S.inv 0 ∅) : Ok S (init Row C L R) := quiet_ok h

/-! ## A program that runs alone -/

/-- What the program returns and the rows it leaves, when no other is in flight. -/
def alone : Prog Row L R → List (Write Row) → Db Row → R × Db Row
  | .commit r, ws, d => (r, applyAll ws d)
  | .rollback r, _, d => (r, d)
  | .stmt _ writes next, ws, d =>
    let v : View Row := ⟨applyAll ws d, fun _ => false⟩
    alone (next v) (ws ++ writes v) d

/-- It keeps its postcondition, or it wrote nothing. -/
theorem alone_meets {c : C} {b : Nat} {d0 : Db Row} (hall : ∀ l v, S.assume c b l v) {n : Nat} {d : Db Row}
    (hd : S.inv n d) :
    ∀ {p : Prog Row L R} {ws : List (Write Row)}, Meets S c b d0 p ws n d →
      (S.inv n (alone p ws d).2 ∧ S.guar d (alone p ws d).2 ∧ S.post c b d0 (alone p ws d).1 d (alone p ws d).2) ∨
        ((alone p ws d).2 = d ∧ S.refuse c (alone p ws d).1) := by
  intro p
  induction p with
  | commit r => exact fun h => Or.inl (h n d (Rely.refl S hd))
  | rollback r => exact fun h => Or.inr ⟨rfl, h⟩
  | stmt l writes next ih =>
    intro ws h
    exact ih _ (h n d (fun _ => false) (Rely.refl S hd) (hall l _) (by simp [blocked]))

/-- It is one of the interleavings: the transaction begins, runs to its end, and is gone. -/
theorem alone_run {s0 : St Row C L R} {d : Db Row} {n : Nat} (c : C) (h : Run body (fun _ _ => true) s0 ⟨d, n, ∅⟩) :
    Run body (fun _ _ => true) s0 ⟨(alone (body c n) [] d).2, n, ∅⟩ := by
  have hone : ∀ t : Txn Row C L R, AList.lookup 0 (AList.singleton 0 t : AList fun _ : Nat => Txn Row C L R) = some t :=
    fun _ => rfl
  have hset : ∀ t u : Txn Row C L R, (AList.singleton 0 t : AList fun _ : Nat => Txn Row C L R).insert 0 u =
    AList.singleton 0 u :=
    fun _ _ => rfl
  have hrest : ∀ (p : Prog Row L R) (ws : List (Write Row)),
      Run body (fun _ _ => true) s0 ⟨d, n, AList.singleton 0 ⟨c, n, d, p, ws⟩⟩ →
        Run body (fun _ _ => true) s0 ⟨(alone p ws d).2, n, ∅⟩ := by
    intro p
    induction p with
    | commit r => exact fun ws h => .step (.commit 0) h rfl rfl
    | rollback r => exact fun ws h => .step (.abort 0) h rfl rfl
    | stmt l writes next ih =>
      intro ws h
      refine ih _ (ws ++ writes ⟨applyAll ws d, fun _ => false⟩) (.step (.exec 0) h rfl ?_)
      have hfree : lockedByOthers (⟨d, n, AList.singleton 0 ⟨c, n, d, .stmt l writes next, ws⟩⟩ : St Row C L R) 0 =
        fun _ => false := by
        funext k
        simp [lockedByOthers, AList.singleton_entries]
      simp [step, hone, hset, viewOf, hfree, blocked]
  exact hrest _ [] (.step (.start 0 c) h rfl (by simp [step]))

end SoroFuzz.Lib.ReadCommitted
