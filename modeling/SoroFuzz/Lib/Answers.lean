/-
  SoroFuzz.Lib.Answers — what the transactions of `ReadCommitted` answer.

  A `Spec` says what a commit does to the rows. What a reply says of the rows is verified
  apart (`Answers`), each program alone again: between its statements the others do what
  the spec lets them, and keep whatever every commit that meets the spec keeps (`Keep`).
  A reply is judged against the rows on which its transaction began, and those that its
  commit leaves.

  Proved:
  - `answers_select`, `answers_update`, `answers_insertRow`: the rules, a statement at a
    time.
  - `answering_step`: in every interleaving, the transactions in flight answer right.
-/

import SoroFuzz.Lib.Sql

namespace SoroFuzz.Lib.ReadCommitted

open SoroFuzz.Lib.Sql

variable {K : Type} [DecidableEq K] {Row : K → Type} {C L R : Type}

/-- What every commit that meets the spec keeps of the rows. -/
structure Keep (S : Spec Row C L R) where
  rel : Db Row → Db Row → Prop
  refl : ∀ d, rel d d
  trans : ∀ {d d' d'' : Db Row}, rel d d' → rel d' d'' → rel d d''
  post : ∀ {n : Nat} {c : C} {b : Nat} {d0 : Db Row} {r : R} {d d' : Db Row}, S.inv n d → S.post c b d0 r d d' →
    rel d d'

variable (S : Spec Row C L R) (P : Keep S)

/-- What may have happened between two statements, with what is kept. -/
structure Meanwhile (ws : List (Write Row)) (n : Nat) (d : Db Row) (n' : Nat) (d' : Db Row) : Prop where
  rely : Rely S ws n d n' d'
  keep : P.rel d d'

variable {S P} in
theorem Meanwhile.trans {ws : List (Write Row)} {n n' n'' : Nat} {d d' d'' : Db Row} (h : Meanwhile S P ws n d n' d')
    (h' : Meanwhile S P ws n' d' n'' d'') : Meanwhile S P ws n d n'' d'' :=
  ⟨h.rely.trans S h'.rely, P.trans h.keep h'.keep⟩

theorem Meanwhile.refl {ws : List (Write Row)} {n : Nat} {d : Db Row} (h : S.inv n d) : Meanwhile S P ws n d n d :=
  ⟨Rely.refl S h, P.refl d⟩

/-- `ans c d0 r d'`: the call `c`, begun on the rows `d0`, may reply `r` when it leaves
    the rows `d'`. `refuse c d0 r`: it may reply `r` when it is rolled back. -/
structure Replies (Row : K → Type) (C R : Type) where
  ans : C → Db Row → R → Db Row → Prop
  refuse : C → Db Row → R → Prop

variable (A : Replies Row C R)

/-- The rest of a program answers right, whatever the others do between its statements. -/
def Answers (c : C) (b : Nat) (d0 : Db Row) : Prog Row L R → List (Write Row) → Nat → Db Row → Prop
  | .commit r, ws, n, d => ∀ n' d', Meanwhile S P ws n d n' d' → A.ans c d0 r (applyAll ws d')
  | .rollback r, _, _, _ => A.refuse c d0 r
  | .stmt l writes next, ws, n, d => ∀ n' d' locked, Meanwhile S P ws n d n' d' →
      let v : View Row := ⟨applyAll ws d', locked⟩
      S.assume c b l v → blocked v (writes v) = false → Answers c b d0 (next v) (ws ++ writes v) n' d'

variable {S P A} {c : C} {b n n' : Nat} {d0 d d' : Db Row} {ws : List (Write Row)}

theorem answers_meanwhile {p : Prog Row L R} (h : Answers S P A c b d0 p ws n d) (hm : Meanwhile S P ws n d n' d') :
    Answers S P A c b d0 p ws n' d' := by
  cases p with
  | commit r => exact fun n'' d'' hm' => h n'' d'' (hm.trans hm')
  | rollback r => exact h
  | stmt l writes next => exact fun n'' d'' locked hm' => h n'' d'' locked (hm.trans hm')

/-! ## Rules -/

/-- A call of which nothing is asked. -/
theorem answers_any (hans : ∀ r d', A.ans c d0 r d') (hrefuse : ∀ r, A.refuse c d0 r) {p : Prog Row L R} :
    Answers S P A c b d0 p ws n d := by
  induction p generalizing ws n d with
  | commit r => exact fun _ _ _ => hans r _
  | rollback r => exact hrefuse r
  | stmt l writes next ih => exact fun _ _ _ _ _ _ => ih _

theorem answers_select {l : L} {next : Db Row → Prog Row L R}
    (h : ∀ n' d', Meanwhile S P ws n d n' d' → Answers S P A c b d0 (next (applyAll ws d')) ws n' d') :
    Answers S P A c b d0 (select l next) ws n d := by
  intro n' d' locked hm v _ _
  rw [List.append_nil]
  exact h n' d' hm

theorem answers_update {l : L} {set : (k : K) → Row k → Option (Row k)} {next : List (Sigma Row) → Prog Row L R}
    (h : ∀ n' d', Meanwhile S P ws n d n' d' →
      let es := updates set (applyAll ws d')
      Answers S P A c b d0 (next es) (ws ++ puts es) n' d') : Answers S P A c b d0 (update l set next) ws n d :=
  fun n' d' _ hm _ _ => h n' d' hm

theorem answers_insertRow {l : L} {k : K} {r : Row k} {violates : Db Row → Bool} {clash next : Prog Row L R}
    (hclash : ∀ n' d', Meanwhile S P ws n d n' d' → Answers S P A c b d0 clash ws n' d')
    (h : ∀ n' d', Meanwhile S P ws n d n' d' → k ∉ applyAll ws d' →
      Answers S P A c b d0 next (ws ++ [⟨k, some r⟩]) n' d') :
    Answers S P A c b d0 (insertRow l k r violates clash next) ws n d := by
  intro n' d' locked hm v _ _
  by_cases hk : k ∈ v.rows ∨ violates v.rows = true
  · simp only [hk, if_true, List.append_nil]
    exact hclash n' d' hm
  · simp only [hk, if_false]
    exact h n' d' hm fun hmem => hk (Or.inl hmem)

/-! ## Every interleaving -/

variable (P A) in
/-- Every transaction in flight answers right, and what is kept has been kept since it
    began. -/
structure Answering (s : St Row C L R) : Prop where
  answers : ∀ i t, s.txns.lookup i = some t → Answers S P A t.call t.began t.seen t.prog t.writes s.now s.db
  since : ∀ i t, s.txns.lookup i = some t → S.guar t.seen s.db ∧ P.rel t.seen s.db

variable {s s' : St Row C L R} {body : C → Nat → Prog Row L R}

theorem answering_step (hbody : ∀ c n d, S.inv n d → Answers S P A c n d (body c n) [] n d) (h : Ok S s)
    (hA : Answering P A s) {a : Act C} (hs : step body s a = some s') (ha : Allowed S s a) : Answering P A s' := by
  cases step_cases body hs with
  | tick δ =>
    refine ⟨fun i t ht => answers_meanwhile (hA.answers i t ht) ⟨⟨Nat.le_add_right _ _, ?_, S.guar_refl _, fun _ _ => rfl⟩,
      P.refl _⟩, hA.since⟩
    exact S.inv_later (Nat.le_add_right _ _) h.inv
  | start i c hi =>
    refine ⟨fun j t ht => ?_, fun j t ht => ?_⟩
    · rcases lookup_insert_cases ht with ⟨-, rfl⟩ | ⟨-, ht⟩
      · exact hbody c s.now s.db h.inv
      · exact hA.answers j t ht
    · rcases lookup_insert_cases ht with ⟨-, rfl⟩ | ⟨-, ht⟩
      · exact ⟨S.guar_refl _, P.refl _⟩
      · exact hA.since j t ht
  | exec i t l writes next ht hp hb =>
    refine ⟨fun j u hu => ?_, fun j u hu => ?_⟩
    · rcases lookup_insert_cases hu with ⟨-, rfl⟩ | ⟨-, hu⟩
      · have hm := hA.answers i t ht
        rw [hp] at hm
        exact hm s.now s.db _ (.refl S P h.inv) (ha t l writes next ht hp) hb
      · exact hA.answers j u hu
    · rcases lookup_insert_cases hu with ⟨-, rfl⟩ | ⟨-, hu⟩
      · exact hA.since i t ht
      · exact hA.since j u hu
  | commit i t r ht hp =>
    obtain ⟨hi, hg, hpost⟩ := commit_post h ht hp
    have hkeep := P.post h.inv hpost
    refine ⟨fun j u hu => ?_, fun j u hu => ?_⟩
    · obtain ⟨hij, hu⟩ := lookup_erase_cases hu
      exact answers_meanwhile (hA.answers j u hu) ⟨rely_of_commit h ht hu hij hi hg, hkeep⟩
    · obtain ⟨hsg, hsk⟩ := hA.since j u (lookup_erase_cases hu).2
      exact ⟨S.guar_trans hsg hg, P.trans hsk hkeep⟩
  | abort i hi =>
    exact ⟨fun j u hu => hA.answers j u (lookup_erase_cases hu).2, fun j u hu => hA.since j u (lookup_erase_cases hu).2⟩

theorem answering_init : Answering P A (init Row C L R) :=
  ⟨fun _ _ ht => by simp [init] at ht, fun _ _ ht => by simp [init] at ht⟩

/-- A commit answers right of the rows that it leaves. -/
theorem Answering.commit (hA : Answering P A s) (h : Ok S s) {i : Nat} {t : Txn Row C L R} {r : R}
    (ht : s.txns.lookup i = some t) (hp : t.prog = .commit r) : A.ans t.call t.seen r (applyAll t.writes s.db) := by
  have hm := hA.answers i t ht
  rw [hp] at hm
  exact hm s.now s.db (.refl S P h.inv)

theorem Answering.rollback (hA : Answering P A s) {i : Nat} {t : Txn Row C L R} {r : R}
    (ht : s.txns.lookup i = some t) (hp : t.prog = .rollback r) : A.refuse t.call t.seen r := by
  have hm := hA.answers i t ht
  rw [hp] at hm
  exact hm

end SoroFuzz.Lib.ReadCommitted
