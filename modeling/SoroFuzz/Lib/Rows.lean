/-
  SoroFuzz.Lib.Rows — a property that every row has, whoever wrote it.

  When each statement, on rows that have the property, writes rows that have it, so do the
  committed rows of every interleaving: neither locks nor the order of the commits matter
  (`rows_run`). A statement may take something for granted when it runs, as long as the
  run lets through only steps of which it holds (`Assumed`).

  Each SQL statement has a rule: `keeps_select`, `keeps_update`, `keeps_delete`,
  `keeps_insertRow`, `keeps_updatePicked`.
-/

import SoroFuzz.Lib.Sql

namespace SoroFuzz.Lib.Rows

open SoroFuzz.Lib.ReadCommitted
open SoroFuzz.Lib.Sql

variable {K : Type} [DecidableEq K] {Row : K → Type} {C L R : Type}
variable (P : (k : K) → Row k → Prop)

def AllRows (d : Db Row) : Prop := ∀ k r, d.lookup k = some r → P k r

def AllWrites (ws : List (Write Row)) : Prop := ∀ w ∈ ws, ∀ r, w.row = some r → P w.key r

/-- The rest of a program writes rows with the property, on rows that have it. -/
def Keeps (assume : L → View Row → Prop) : Prog Row L R → Prop
  | .commit _ => True
  | .rollback _ => True
  | .stmt l writes next => ∀ v, AllRows P v.rows → assume l v → AllWrites P (writes v) ∧ Keeps assume (next v)

variable {P}

theorem allRows_empty : AllRows P (∅ : Db Row) := fun _ _ h => by cases h

theorem AllRows.apply {d : Db Row} (h : AllRows P d) {w : Write Row} (hw : ∀ r, w.row = some r → P w.key r) :
    AllRows P (w.apply d) := by
  intro k r hr
  by_cases hk : k = w.key
  · subst hk
    rw [lookup_apply_self] at hr
    exact hw r hr
  · rw [lookup_apply_ne w d hk] at hr
    exact h k r hr

theorem AllRows.applyAll {ws : List (Write Row)} {d : Db Row} (h : AllRows P d) (hws : AllWrites P ws) :
    AllRows P (applyAll ws d) := by
  induction ws generalizing d with
  | nil => exact h
  | cons w ws ih =>
    rw [applyAll_cons]
    exact ih (h.apply (hws w List.mem_cons_self)) fun x hx => hws x (List.mem_cons_of_mem _ hx)

omit [DecidableEq K] in
theorem AllWrites.append {ws xs : List (Write Row)} (h : AllWrites P ws) (h' : AllWrites P xs) :
    AllWrites P (ws ++ xs) := by
  intro w hw
  rcases List.mem_append.mp hw with hw | hw
  · exact h w hw
  · exact h' w hw

omit [DecidableEq K] in
theorem allWrites_nil : AllWrites P ([] : List (Write Row)) := fun _ h => by cases h

/-! ## Over every interleaving -/

variable (P)

/-- The committed rows have the property, and so will those of the transactions in flight. -/
structure RowsOk (assume : C → Nat → L → View Row → Prop) (s : St Row C L R) : Prop where
  db : AllRows P s.db
  txns : ∀ i t, s.txns.lookup i = some t → AllWrites P t.writes ∧ Keeps P (assume t.call t.began) t.prog

/-- The statement the action runs may take its assumption for granted. -/
def Assumed (assume : C → Nat → L → View Row → Prop) (s : St Row C L R) : Act C → Prop
  | .exec i => ∀ t l writes next, s.txns.lookup i = some t → t.prog = .stmt l writes next →
      assume t.call t.began l (viewOf s i t)
  | _ => True

variable {P} {assume : C → Nat → L → View Row → Prop} (body : C → Nat → Prog Row L R)

theorem rows_step (hbody : ∀ c n, Keeps P (assume c n) (body c n)) {s s' : St Row C L R} {a : Act C}
    (h : RowsOk P assume s) (hs : step body s a = some s') (ha : Assumed assume s a) : RowsOk P assume s' := by
  cases step_cases body hs with
  | tick d => exact ⟨h.db, h.txns⟩
  | start i c hi =>
    refine ⟨h.db, fun j t ht => ?_⟩
    rcases lookup_insert_cases ht with ⟨-, rfl⟩ | ⟨-, ht⟩
    · exact ⟨allWrites_nil, hbody c s.now⟩
    · exact h.txns j t ht
  | exec i t l writes next ht hp hb =>
    obtain ⟨hws, hk⟩ := h.txns i t ht
    rw [hp] at hk
    obtain ⟨hw, hn⟩ := hk (viewOf s i t) (h.db.applyAll hws) (ha t l writes next ht hp)
    refine ⟨h.db, fun j u hu => ?_⟩
    rcases lookup_insert_cases hu with ⟨-, rfl⟩ | ⟨-, hu⟩
    · exact ⟨hws.append hw, hn⟩
    · exact h.txns j u hu
  | commit i t r ht hp =>
    exact ⟨h.db.applyAll (h.txns i t ht).1, fun j u hu => h.txns j u (lookup_erase_cases hu).2⟩
  | abort i hi => exact ⟨h.db, fun j u hu => h.txns j u (lookup_erase_cases hu).2⟩

theorem rows_init : RowsOk P assume (init Row C L R) := ⟨allRows_empty, fun _ _ h => by simp [init] at h⟩

theorem rows_run (hbody : ∀ c n, Keeps P (assume c n) (body c n)) {p : St Row C L R → Act C → Bool}
    (hp : ∀ s a, p s a = true → Assumed assume s a) {s s' : St Row C L R} (h : RowsOk P assume s)
    (hr : Run body p s s') : RowsOk P assume s' := by
  induction hr with
  | refl => exact h
  | step a _ ha hs ih => exact rows_step body hbody ih hs (hp _ a ha)

/-! ## Rules -/

section rules
variable {assume : L → View Row → Prop}

theorem keeps_select {l : L} {next : Db Row → Prog Row L R} (h : ∀ d, Keeps P assume (next d)) :
    Keeps P assume (select l next) := fun v _ _ => ⟨allWrites_nil, h v.rows⟩

theorem keeps_update {l : L} {set : (k : K) → Row k → Option (Row k)} {next : List (Sigma Row) → Prog Row L R}
    (hset : ∀ v, assume l v → ∀ k r r', v.rows.lookup k = some r → P k r → set k r = some r' → P k r')
    (h : ∀ es, Keeps P assume (next es)) : Keeps P assume (update l set next) := by
  intro v hv ha
  refine ⟨fun w hw r' hr' => ?_, h _⟩
  obtain ⟨⟨k, r1⟩, he, rfl⟩ := List.mem_map.mp hw
  cases hr'
  obtain ⟨r, hr, hs⟩ := mem_updates.mp he
  exact hset v ha k r _ hr (hv k r hr) hs

theorem keeps_delete {l : L} {p : (k : K) → Row k → Bool} {next : Prog Row L R} (h : Keeps P assume next) :
    Keeps P assume (delete l p next) := by
  intro v _ _
  refine ⟨fun w hw r hr => ?_, h⟩
  rw [deletes_rows w hw] at hr
  cases hr

theorem keeps_insertRow {l : L} {k : K} {r : Row k} {violates : Db Row → Bool} {clash next : Prog Row L R}
    (hr : P k r) (hc : Keeps P assume clash) (h : Keeps P assume next) :
    Keeps P assume (insertRow l k r violates clash next) := by
  intro v _ _
  by_cases hk : k ∈ v.rows ∨ violates v.rows = true
  · simp only [hk, if_true]
    exact ⟨allWrites_nil, hc⟩
  · simp only [hk, if_false]
    refine ⟨fun w hw r' hr' => ?_, h⟩
    obtain rfl := List.mem_singleton.mp hw
    cases hr'
    exact hr

theorem keeps_updatePicked {l : L} {pick : View Row → Option (Sigma Row)} {next : Option (Sigma Row) → Prog Row L R}
    (hpick : ∀ v e, AllRows P v.rows → pick v = some e → P e.1 e.2) (h : ∀ e, Keeps P assume (next e)) :
    Keeps P assume (updatePicked l pick next) := by
  intro v hv _
  refine ⟨fun w hw r hr => ?_, h _⟩
  obtain ⟨e, he, rfl⟩ := List.mem_map.mp hw
  cases hr
  exact hpick v e hv (Option.mem_toList.mp he)

end rules

end SoroFuzz.Lib.Rows
