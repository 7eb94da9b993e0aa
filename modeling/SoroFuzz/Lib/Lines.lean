/-
  SoroFuzz.Lib.Lines — searches that can be told without the search.

  An expression that begins with a multi-line `^` and reads no newline matches at most
  once on each line, and depends on nothing but the line (`LineWise`). One that does not
  look behind it matches at the first position from which the text reads right.

  Proved:
  - `capturesIter_lines`: all matches in a text are those of its lines, in order.
  - `captures_tails`: the first match is that of the first tail that has one.
-/

import SoroFuzz.Lib.Regex

namespace SoroFuzz.Lib.Regex

variable {r : Regex} {f : List Char → Option (List (List Char))}

/-- Where a line begins. -/
def AtStart (prev : Option Char) : Prop := prev = none ∨ prev = some '\n'

/-- Where a line ends. -/
def AtEnd (rest : List Char) : Prop := rest = [] ∨ ∃ t, rest = '\n' :: t

/-- It matches only at the beginning of a line, and there what `f` says of the line. -/
structure LineWise (r : Regex) (f : List Char → Option (List (List Char))) : Prop where
  inner : ∀ prev s, ¬ AtStart prev → r.first prev s = none
  miss : ∀ prev line rest, AtStart prev → '\n' ∉ line → AtEnd rest → f line = none → r.first prev (line ++ rest) = none
  hit : ∀ prev line rest g, AtStart prev → '\n' ∉ line → AtEnd rest → f line = some g →
    ∃ text line', line = text ++ line' ∧ text ≠ [] ∧ r.first prev (line ++ rest) = some ⟨text, g, line' ++ rest⟩

/-! ## Lines -/

theorem splitOn_line {line rest : List Char} (hl : '\n' ∉ line) (hr : AtEnd rest) :
    (line ++ rest).splitOn '\n' = line :: (rest.splitOn '\n').tail := by
  rcases hr with rfl | ⟨t, rfl⟩
  · rw [List.append_nil, List.splitOn_eq_singleton hl]
    rfl
  · rw [List.splitOn_append_cons_self, List.splitOn_eq_singleton hl, List.splitOn_cons_eq_if_modifyHead]
    rfl

/-- The text is a line and what follows it. -/
theorem exists_line (s : List Char) : ∃ line rest, s = line ++ rest ∧ '\n' ∉ line ∧ AtEnd rest := by
  induction s with
  | nil => exact ⟨[], [], rfl, by simp, Or.inl rfl⟩
  | cons c s ih =>
    by_cases hc : c = '\n'
    · exact ⟨[], c :: s, rfl, by simp, Or.inr ⟨s, by rw [hc]⟩⟩
    · obtain ⟨line, rest, rfl, hl, hr⟩ := ih
      refine ⟨c :: line, rest, rfl, ?_, hr⟩
      simp [hl, Ne.symm hc]

/-- The lines that begin in `s`, after `prev`. -/
def linesFrom (prev : Option Char) (s : List Char) : List (List Char) :=
  if prev = none ∨ prev = some '\n' then s.splitOn '\n' else (s.splitOn '\n').tail

theorem linesFrom_start {prev : Option Char} (h : AtStart prev) (s : List Char) : linesFrom prev s = s.splitOn '\n' :=
  if_pos h

theorem linesFrom_inner {prev : Option Char} (h : ¬ AtStart prev) (s : List Char) :
    linesFrom prev s = (s.splitOn '\n').tail := if_neg h

/-- The lines that begin behind the first character. -/
theorem linesFrom_cons (c : Char) (s : List Char) : linesFrom (some c) s = ((c :: s).splitOn '\n').tail := by
  rw [List.splitOn_cons_eq_if_modifyHead]
  by_cases hc : c = '\n'
  · rw [linesFrom_start (Or.inr (by rw [hc])), if_pos (by simpa using hc)]
    rfl
  · rw [linesFrom_inner (by simp [AtStart, hc]), if_neg (by simpa using hc), List.tail_modifyHead]

/-! ## Line by line -/

theorem findAll_none {n : Nat} {prev : Option Char} (h : r.first prev [] = none) : r.findAll n prev [] = [] := by
  cases n with
  | zero => rfl
  | succ n => rw [findAll, find, h]

theorem findAll_skip {n : Nat} {prev : Option Char} {c : Char} {s : List Char} (h : r.first prev (c :: s) = none) :
    r.findAll n prev (c :: s) = r.findAll n (some c) s := by
  have hfind : r.find prev (c :: s) = r.find (some c) s := by
    rw [find, h]
    rfl
  cases n with
  | zero => rfl
  | succ n => rw [findAll, findAll, hfind]

theorem findAll_first {n : Nat} {prev : Option Char} {s : List Char} {m : Match} {c : Char}
    (h : r.first prev s = some m) (hc : m.text.getLast? = some c) :
    r.findAll (n + 1) prev s = m :: r.findAll n (some c) m.rest := by
  rw [findAll, find_of_first h]
  simp only [hc]

theorem LineWise.findAll (h : LineWise r f) : ∀ (k n : Nat) (prev : Option Char) (s : List Char), s.length = k →
    s.length < n → (r.findAll n prev s).map Match.groups = (linesFrom prev s).filterMap f := by
  intro k
  induction k using Nat.strong_induction_on with
  | _ k ih =>
    intro n prev s hk hn
    -- Where nothing matches the search goes on behind the next character.
    have hskip : r.first prev s = none → (linesFrom prev s).filterMap f = ((s.splitOn '\n').tail).filterMap f →
        (r.findAll n prev s).map Match.groups = (linesFrom prev s).filterMap f := by
      intro hnone hlines
      rw [hlines]
      cases s with
      | nil => rw [findAll_none hnone]; rfl
      | cons c s =>
        rw [List.length_cons] at hk hn
        rw [findAll_skip hnone, ih s.length (by omega) n _ s rfl (by omega), linesFrom_cons]
    by_cases hstart : AtStart prev
    · obtain ⟨line, rest, rfl, hl, hr⟩ := exists_line s
      have hlines := splitOn_line hl hr
      cases hf : f line with
      | none =>
        refine hskip (h.miss prev line rest hstart hl hr hf) ?_
        rw [linesFrom_start hstart, hlines, List.filterMap_cons_none hf]
        rfl
      | some g =>
        obtain ⟨text, line', rfl, hne, hfirst⟩ := h.hit prev line rest g hstart hl hr hf
        obtain ⟨n, rfl⟩ := Nat.exists_eq_succ_of_ne_zero (Nat.ne_of_gt (Nat.zero_lt_of_lt hn))
        have hpos := List.length_pos_of_ne_nil hne
        have hlast : text.getLast? = some (text.getLast hne) := List.getLast?_eq_getLast_of_ne_nil hne
        have hc : text.getLast hne ≠ '\n' := fun he =>
          hl (List.mem_append_left _ (he ▸ List.getLast_mem hne))
        have hl' : '\n' ∉ line' := fun hm => hl (List.mem_append_right _ hm)
        simp only [List.length_append] at hk hn
        rw [findAll_first hfirst hlast, List.map_cons,
          ih _ (by simp only [List.length_append]; omega) n _ (line' ++ rest) rfl
            (by simp only [List.length_append]; omega),
          linesFrom_inner (by simp [AtStart, hc]), splitOn_line hl' hr, linesFrom_start hstart, hlines,
          List.filterMap_cons_some hf]
        rfl
    · exact hskip (h.inner prev s hstart) (by rw [linesFrom_inner hstart])

/-- All matches in a text are those of its lines. -/
theorem capturesIter_lines (h : LineWise r f) (s : List Char) :
    (r.capturesIter s).map Match.groups = (s.splitOn '\n').filterMap f :=
  (h.findAll s.length (s.length + 1) none s rfl (Nat.lt_succ_self _)).trans (by rw [linesFrom_start (Or.inl rfl)])

/-! ## From where the text reads right -/

/-- It does not look at what stands before it. -/
def blind : Regex → Bool
  | .lit _ | .many _ => true
  | .seq r q => r.blind && q.blind
  | .opt r | .group r => r.blind
  | .lineStart | .wordEdge _ => false

theorem ways_blind (h : r.blind = true) (prev : Option Char) (s : List Char) : r.ways prev s = r.ways none s := by
  induction r generalizing prev s with
  | lit cs | many p => rfl
  | seq r q ihr ihq =>
    obtain ⟨hr, hq⟩ := Bool.and_eq_true_iff.mp h
    unfold ways
    rw [ihr hr]
    exact List.flatMap_congr fun m _ => by rw [ihq hq, ← ihq hq (m.text.getLast?.or none)]
  | opt r ih | group r ih =>
    unfold ways
    rw [ih h]
  | lineStart | wordEdge word => cases h

/-- The first match is that of the first tail that has one. -/
theorem captures_tails (h : r.blind = true) (s : List Char) : r.captures s = s.tails.findSome? (r.first none) := by
  have hfirst : ∀ prev s, r.first prev s = r.first none s := fun prev s => congrArg List.head? (ways_blind h prev s)
  have hfind : ∀ (s : List Char) (prev : Option Char), r.find prev s = s.tails.findSome? (r.first none) := by
    intro s
    induction s with
    | nil =>
      intro prev
      rw [find, hfirst]
      cases hf : r.first none [] <;> simp [hf]
    | cons c s ih =>
      intro prev
      rw [find, ih, hfirst, List.tails_cons, List.findSome?_cons]
      cases r.first none (c :: s) <;> rfl
  exact hfind s none

end SoroFuzz.Lib.Regex
