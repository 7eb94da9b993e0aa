/-
  SoroFuzz.Lib.Sql — SQL statements as steps of a transaction (`ReadCommitted.Prog`).

  A statement is given by what it does to one row: an UPDATE by the new version of each
  row its WHERE clause matches, a DELETE by the clause, an INSERT by its row and the
  constraints it may violate. Each has a rule that verifies a program starting with it
  (`meets_select`, `meets_update`, `meets_delete`, `meets_insertRow`, `meets_updatePicked`). What
  holds of a program that is refused and of one that goes on holds of the statement that
  may be refused (`binding_elim`). Which rows it writes is known row by row (`mem_updates`,
  `updates_eq_singleton`, `wrote_deletes`).
-/

import SoroFuzz.Lib.ReadCommitted

namespace SoroFuzz.Lib.Sql

open SoroFuzz.Lib.ReadCommitted

variable {K : Type} [DecidableEq K] {Row : K → Type} {C L R : Type}

/-- A scan of every row, in heap order: what `sel` makes of those it selects. -/
def scan {α : Type} (sel : (k : K) → Row k → Option α) (d : Db Row) : List α :=
  d.entries.filterMap fun e => sel e.1 e.2

/-- The rows an UPDATE matches, in their new versions: `set k r` is the new version of
    `r` when the WHERE clause holds of it. -/
def updates (set : (k : K) → Row k → Option (Row k)) (d : Db Row) : List (Sigma Row) :=
  scan (fun k r => (set k r).map fun r' => ⟨k, r'⟩) d

def puts (es : List (Sigma Row)) : List (Write Row) := es.map fun e => ⟨e.1, some e.2⟩

/-- The rows a DELETE matches. -/
def deletes (p : (k : K) → Row k → Bool) (d : Db Row) : List (Write Row) :=
  (d.entries.filter fun e => p e.1 e.2).map fun e => ⟨e.1, none⟩

def select (l : L) (next : Db Row → Prog Row L R) : Prog Row L R := .stmt l (fun _ => []) fun v => next v.rows

/-- UPDATE ... RETURNING: the program goes on with the rows it changed. -/
def update (l : L) (set : (k : K) → Row k → Option (Row k)) (next : List (Sigma Row) → Prog Row L R) : Prog Row L R :=
  .stmt l (fun v => puts (updates set v.rows)) fun v => next (updates set v.rows)

def delete (l : L) (p : (k : K) → Row k → Bool) (next : Prog Row L R) : Prog Row L R :=
  .stmt l (fun v => deletes p v.rows) fun _ => next

/-- INSERT of the row `r` under the key `k`: a taken key or a violated constraint is an
    error, and the program goes on with `clash`. -/
def insertRow (l : L) (k : K) (r : Row k) (violates : Db Row → Bool) (clash next : Prog Row L R) : Prog Row L R :=
  .stmt l (fun v => if k ∈ v.rows ∨ violates v.rows then [] else [⟨k, some r⟩])
    fun v => if k ∈ v.rows ∨ violates v.rows then clash else next

/-- An UPDATE of the one row a subselect with FOR UPDATE SKIP LOCKED picks, if any. -/
def updatePicked (l : L) (pick : View Row → Option (Sigma Row)) (next : Option (Sigma Row) → Prog Row L R) :
    Prog Row L R :=
  .stmt l (fun v => puts (pick v).toList) fun v => next (pick v)

/-- A statement that fails when its parameters are bound, if they are not `ok`. -/
def binding (ok : Bool) (clash next : Prog Row L R) : Prog Row L R := if ok then next else clash

omit [DecidableEq K] in
theorem binding_ok {ok : Bool} {clash next : Prog Row L R} (h : ok = true) : binding ok clash next = next := if_pos h

omit [DecidableEq K] in
theorem binding_elim {motive : Prog Row L R → Prop} {ok : Bool} {clash next : Prog Row L R} (hclash : motive clash)
    (hnext : ok = true → motive next) : motive (binding ok clash next) := by
  cases ok with
  | true => exact hnext rfl
  | false => exact hclash

/-! ## Which rows -/

theorem mem_scan {α : Type} {sel : (k : K) → Row k → Option α} {d : Db Row} {a : α} :
    a ∈ scan sel d ↔ ∃ k r, d.lookup k = some r ∧ sel k r = some a := by
  simp only [scan, List.mem_filterMap]
  constructor
  · intro h
    obtain ⟨⟨k, r⟩, hm, hs⟩ := h
    exact ⟨k, r, AList.mem_lookup_iff.mpr hm, hs⟩
  · intro h
    obtain ⟨k, r, hr, hs⟩ := h
    exact ⟨⟨k, r⟩, AList.mem_lookup_iff.mp hr, hs⟩

omit [DecidableEq K] in
/-- A scan that tells its rows apart yields no duplicates. -/
theorem scan_nodup {α : Type} {sel : (k : K) → Row k → Option α}
    (hsel : ∀ k r k' r' a, sel k r = some a → sel k' r' = some a → (⟨k, r⟩ : Sigma Row) = ⟨k', r'⟩) (d : Db Row) :
    (scan sel d).Nodup :=
  List.Nodup.filterMap (fun e e' a h h' => hsel e.1 e.2 e'.1 e'.2 a h h') (List.Nodup.of_map _ d.keys_nodup)

theorem mem_updates {set : (k : K) → Row k → Option (Row k)} {d : Db Row} {k : K} {r' : Row k} :
    (⟨k, r'⟩ : Sigma Row) ∈ updates set d ↔ ∃ r, d.lookup k = some r ∧ set k r = some r' := by
  rw [updates, mem_scan]
  constructor
  · intro h
    obtain ⟨k1, r1, hr, hs⟩ := h
    obtain ⟨r2, hs, he⟩ := Option.map_eq_some_iff.mp hs
    cases he
    exact ⟨r1, hr, hs⟩
  · intro h
    obtain ⟨r, hr, hs⟩ := h
    exact ⟨k, r, hr, by rw [hs]; rfl⟩

/-- The rows an UPDATE writes are those it matches. -/
theorem wrote_updates {set : (k : K) → Row k → Option (Row k)} {d : Db Row} {k : K} :
    wrote (puts (updates set d)) k = true ↔ ∃ r r', d.lookup k = some r ∧ set k r = some r' := by
  rw [wrote_iff]
  constructor
  · intro h
    obtain ⟨w, hw, rfl⟩ := h
    obtain ⟨⟨k, r'⟩, he, rfl⟩ := List.mem_map.mp hw
    obtain ⟨r, hr, hs⟩ := mem_updates.mp he
    exact ⟨r, r', hr, hs⟩
  · intro h
    obtain ⟨r, r', hr, hs⟩ := h
    exact ⟨_, List.mem_map_of_mem (mem_updates.mpr ⟨r, hr, hs⟩), rfl⟩

theorem updates_eq_nil {set : (k : K) → Row k → Option (Row k)} {d : Db Row}
    (h : ∀ k r, d.lookup k = some r → set k r = none) : updates set d = [] := by
  apply List.eq_nil_iff_forall_not_mem.mpr
  intro e hm
  obtain ⟨k, r'⟩ := e
  obtain ⟨r, hr, hs⟩ := mem_updates.mp hm
  rw [h k r hr] at hs
  cases hs

omit [DecidableEq K] in
theorem updates_nodup (set : (k : K) → Row k → Option (Row k)) (d : Db Row) : ((updates set d).map (·.1)).Nodup := by
  have hsub : ((updates set d).map (·.1)).Sublist (d.entries.map (·.1)) := by
    unfold updates scan
    rw [List.map_filterMap]
    induction d.entries with
    | nil => exact List.Sublist.refl _
    | cons e es ih =>
      cases hs : set e.1 e.2 with
      | none => simpa [hs] using ih.trans (List.sublist_cons_self _ _)
      | some r => simpa [hs] using ih
  exact hsub.nodup d.keys_nodup

/-- A WHERE clause that matches one row changes that row. -/
theorem updates_eq_singleton {set : (k : K) → Row k → Option (Row k)} {d : Db Row} {k : K} {r r' : Row k}
    (hr : d.lookup k = some r) (hs : set k r = some r')
    (honly : ∀ k1 r1, d.lookup k1 = some r1 → set k1 r1 ≠ none → k1 = k) : updates set d = [⟨k, r'⟩] := by
  have hmem : (⟨k, r'⟩ : Sigma Row) ∈ updates set d := mem_updates.mpr ⟨r, hr, hs⟩
  have hkeys : ∀ e ∈ updates set d, e = ⟨k, r'⟩ := by
    intro e hm
    obtain ⟨k1, r1'⟩ := e
    obtain ⟨r1, hr1, hs1⟩ := mem_updates.mp hm
    obtain rfl := honly k1 r1 hr1 (by rw [hs1]; simp)
    rw [hr1] at hr
    cases hr
    rw [hs1] at hs
    cases hs
    rfl
  have hnd := updates_nodup set d
  match hu : updates set d with
  | [] => rw [hu] at hmem; cases hmem
  | [e] => rw [hkeys e (by rw [hu]; simp)]
  | e :: f :: es =>
    rw [hu] at hnd
    have he := hkeys e (by rw [hu]; simp)
    have hf := hkeys f (by rw [hu]; simp)
    subst he hf
    simp at hnd

omit [DecidableEq K] in
@[simp] theorem puts_nil : puts ([] : List (Sigma Row)) = [] := rfl

omit [DecidableEq K] in
@[simp] theorem puts_cons (e : Sigma Row) (es : List (Sigma Row)) : puts (e :: es) = ⟨e.1, some e.2⟩ :: puts es := rfl

theorem wrote_deletes {p : (k : K) → Row k → Bool} {d : Db Row} {k : K} :
    wrote (deletes p d) k = true ↔ ∃ r, d.lookup k = some r ∧ p k r = true := by
  rw [wrote_iff]
  simp only [deletes, List.mem_map, List.mem_filter]
  constructor
  · intro h
    obtain ⟨w, ⟨⟨k1, r1⟩, ⟨hm, hp⟩, rfl⟩, rfl⟩ := h
    exact ⟨r1, AList.mem_lookup_iff.mpr hm, hp⟩
  · intro h
    obtain ⟨r, hr, hp⟩ := h
    exact ⟨_, ⟨⟨k, r⟩, ⟨AList.mem_lookup_iff.mp hr, hp⟩, rfl⟩, rfl⟩

theorem wrote_deletes_of {p : (k : K) → Row k → Bool} {d : Db Row} {k : K} (h : ∀ r, p k r = false) :
    wrote (deletes p d) k = false := by
  rw [← Bool.not_eq_true, wrote_deletes]
  intro hm
  obtain ⟨r, -, hp⟩ := hm
  rw [h r] at hp
  cases hp

/-- Deleting rows leaves no row under their keys, whatever was committed there. -/
theorem lookup_erases : ∀ (ws : List (Write Row)) (d : Db Row) {k : K}, (∀ w ∈ ws, w.row = none) →
    wrote ws k = true → (applyAll ws d).lookup k = none := by
  intro ws
  induction ws with
  | nil => intro d k _ h; cases h
  | cons w ws ih =>
    intro d k hn h
    rw [applyAll_cons]
    by_cases hw : wrote ws k = true
    · exact ih _ (fun x hx => hn x (List.mem_cons_of_mem _ hx)) hw
    · rw [lookup_applyAll_other ws _ (by simpa using hw)]
      have hk : w.key = k := by
        simp only [wrote, List.any_cons, Bool.or_eq_true, decide_eq_true_eq] at h hw
        exact h.resolve_right hw
      subst hk
      rw [lookup_apply_self, hn w List.mem_cons_self]

omit [DecidableEq K] in
theorem deletes_rows {p : (k : K) → Row k → Bool} {d : Db Row} : ∀ w ∈ deletes p d, w.row = none := by
  intro w hw
  obtain ⟨e, -, rfl⟩ := List.mem_map.mp hw
  rfl

/-- What a DELETE leaves under a key. -/
theorem lookup_deletes (p : (k : K) → Row k → Bool) (d : Db Row) (k : K) :
    (applyAll (deletes p d) d).lookup k = (d.lookup k).filter fun r => !p k r := by
  cases hr : d.lookup k with
  | none =>
    rw [Option.filter_none, lookup_applyAll_other, hr]
    rw [← Bool.not_eq_true, wrote_deletes]
    intro hm
    obtain ⟨r, hr', -⟩ := hm
    rw [hr] at hr'
    cases hr'
  | some r =>
    cases hp : p k r with
    | true =>
      rw [Option.filter_some, hp]
      exact lookup_erases _ d deletes_rows (wrote_deletes.mpr ⟨r, hr, hp⟩)
    | false =>
      have hw : wrote (deletes p d) k = false := by
        rw [← Bool.not_eq_true, wrote_deletes]
        intro hm
        obtain ⟨q, hq, hqp⟩ := hm
        rw [hr] at hq
        cases hq
        rw [hp] at hqp
        cases hqp
      rw [lookup_applyAll_other _ d hw, hr, Option.filter_some, hp]
      rfl

/-! ## Rules -/

section rules
variable {S : Spec Row C L R} {c : C} {b : Nat} {d0 : Db Row} {ws : List (Write Row)} {n : Nat} {d : Db Row}

theorem meets_select {l : L} {next : Db Row → Prog Row L R}
    (h : ∀ n' d' locked, Rely S ws n d n' d' → S.assume c b l ⟨applyAll ws d', locked⟩ →
      Meets S c b d0 (next (applyAll ws d')) ws n' d') : Meets S c b d0 (select l next) ws n d := by
  intro n' d' locked hr v ha _
  rw [List.append_nil]
  exact h n' d' locked hr ha

theorem meets_update {l : L} {set : (k : K) → Row k → Option (Row k)} {next : List (Sigma Row) → Prog Row L R}
    (h : ∀ n' d' locked, Rely S ws n d n' d' → S.assume c b l ⟨applyAll ws d', locked⟩ →
      let es := updates set (applyAll ws d')
      Meets S c b d0 (next es) (ws ++ puts es) n' d') : Meets S c b d0 (update l set next) ws n d :=
  fun n' d' locked hr ha _ => h n' d' locked hr ha

theorem meets_delete {l : L} {p : (k : K) → Row k → Bool} {next : Prog Row L R}
    (h : ∀ n' d', Rely S ws n d n' d' → Meets S c b d0 next (ws ++ deletes p (applyAll ws d')) n' d') :
    Meets S c b d0 (delete l p next) ws n d :=
  fun n' d' _ hr _ _ => h n' d' hr

/-- An insert goes on with its error, or with its key free and its constraints kept. -/
theorem meets_insertRow {l : L} {k : K} {r : Row k} {violates : Db Row → Bool} {clash next : Prog Row L R}
    (hclash : ∀ n' d', Rely S ws n d n' d' → Meets S c b d0 clash ws n' d')
    (h : ∀ n' d', Rely S ws n d n' d' → k ∉ applyAll ws d' → violates (applyAll ws d') = false →
      Meets S c b d0 next (ws ++ [⟨k, some r⟩]) n' d') :
        Meets S c b d0 (insertRow l k r violates clash next) ws n d := by
  intro n' d' locked hr v _ _
  by_cases hk : k ∈ v.rows ∨ violates v.rows = true
  · simp only [hk, if_true, List.append_nil]
    exact hclash n' d' hr
  · simp only [hk, if_false]
    rw [not_or, Bool.not_eq_true] at hk
    exact h n' d' hr hk.1 hk.2

theorem meets_updatePicked {l : L} {pick : View Row → Option (Sigma Row)} {next : Option (Sigma Row) → Prog Row L R}
    (h : ∀ n' d' locked, Rely S ws n d n' d' → let v : View Row := ⟨applyAll ws d', locked⟩
      Meets S c b d0 (next (pick v)) (ws ++ puts (pick v).toList) n' d') :
    Meets S c b d0 (updatePicked l pick next) ws n d :=
  fun n' d' locked hr _ _ => h n' d' locked hr

end rules

/-! ## Statements that run alone -/

section alone
variable {l : L} {ws : List (Write Row)} {d : Db Row}

theorem alone_select {next : Db Row → Prog Row L R} :
    alone (select l next) ws d = alone (next (applyAll ws d)) ws d := by
  simp [select, alone]

theorem alone_update {set : (k : K) → Row k → Option (Row k)} {next : List (Sigma Row) → Prog Row L R}
    {es : List (Sigma Row)} (h : updates set (applyAll ws d) = es) :
    alone (update l set next) ws d = alone (next es) (ws ++ puts es) d := by
  rw [← h]
  rfl

theorem alone_delete {p : (k : K) → Row k → Bool} {next : Prog Row L R} :
    alone (delete l p next) ws d = alone next (ws ++ deletes p (applyAll ws d)) d := rfl

theorem alone_insertRow {k : K} {r : Row k} {violates : Db Row → Bool} {clash next : Prog Row L R}
    (hk : (applyAll ws d).lookup k = none) (hv : violates (applyAll ws d) = false) :
    alone (insertRow l k r violates clash next) ws d = alone next (ws ++ [⟨k, some r⟩]) d := by
  have hnot : ¬ (k ∈ applyAll ws d ∨ violates (applyAll ws d) = true) := by
    rw [not_or, hv]
    exact ⟨AList.lookup_eq_none.mp hk, Bool.false_ne_true⟩
  simp only [insertRow, alone, if_neg hnot]

theorem alone_updatePicked {pick : View Row → Option (Sigma Row)} {next : Option (Sigma Row) → Prog Row L R}
    {e : Option (Sigma Row)} (h : pick ⟨applyAll ws d, fun _ => false⟩ = e) :
    alone (updatePicked l pick next) ws d = alone (next e) (ws ++ puts e.toList) d := by
  rw [← h]
  rfl

end alone

end SoroFuzz.Lib.Sql
