/-
  SoroFuzz.Lib.Regex — leftmost-first matching of regular expressions, with groups.

  An expression has, at a position of the text, a list of ways to match there, the
  preferred first: a greedy repetition prefers the longest, an option prefers to be
  taken, a sequence prefers as its first part does. A search takes the preferred way at
  the first position that has one.

  Proved:
  - `first_seq`, `first_many`, ...: the preferred way, where no part has to back off.
  - `find_skip`, `find_sound`: where a search ends.
-/

import Mathlib.Data.List.Infix

namespace SoroFuzz.Lib

inductive Regex where
  | lit (cs : List Char)
  /-- Greedy `[p]+`. -/
  | many (p : Char → Bool)
  | seq (r q : Regex)
  /-- Greedy `r?`. -/
  | opt (r : Regex)
  | group (r : Regex)
  /-- The `^` of a multi-line expression. -/
  | lineStart
  /-- Where a word begins or ends, `\b`. -/
  | wordEdge (word : Char → Bool)

/-- What a way to match reads, what its groups hold, and the text left. -/
structure Match where
  text : List Char
  groups : List (List Char)
  rest : List Char
  deriving DecidableEq, Repr

/-- The non-empty runs of `p` that the text begins with, the longest first. -/
def runs (p : Char → Bool) : List Char → List Match
  | [] => []
  | c :: cs => if p c then (runs p cs).map (fun m => { m with text := c :: m.text }) ++ [⟨[c], [], cs⟩] else []

namespace Regex

/-- The ways to match at the beginning of `s`, where `prev` is the character before it. -/
def ways : Regex → Option Char → List Char → List Match
  | .lit cs, _, s => if cs.isPrefixOf s then [⟨cs, [], s.drop cs.length⟩] else []
  | .many p, _, s => runs p s
  | .seq r q, prev, s =>
    (r.ways prev s).flatMap fun m => (q.ways (m.text.getLast?.or prev) m.rest).map fun n =>
      ⟨m.text ++ n.text, m.groups ++ n.groups, n.rest⟩
  | .opt r, prev, s => r.ways prev s ++ [⟨[], [], s⟩]
  | .group r, prev, s => (r.ways prev s).map fun m => { m with groups := m.text :: m.groups }
  | .lineStart, prev, s => if prev = none ∨ prev = some '\n' then [⟨[], [], s⟩] else []
  | .wordEdge word, prev, s => if prev.any word ≠ s.head?.any word then [⟨[], [], s⟩] else []

def first (r : Regex) (prev : Option Char) (s : List Char) : Option Match := (r.ways prev s).head?

/-- The preferred way at the first position that has one. -/
def find (r : Regex) : Option Char → List Char → Option Match
  | prev, [] => r.first prev []
  | prev, c :: cs => (r.first prev (c :: cs)).or (r.find (some c) cs)

def captures (r : Regex) (s : List Char) : Option Match := r.find none s

/-- The matches one after the other, none overlapping; `n` bounds their number. -/
def findAll (r : Regex) : Nat → Option Char → List Char → List Match
  | 0, _, _ => []
  | n + 1, prev, s =>
    match r.find prev s with
    | none => []
    | some m =>
      m :: match m.text.getLast?, m.rest with
        | some c, rest => r.findAll n (some c) rest
        -- The search goes on one character after an empty match.
        | none, c :: rest => r.findAll n (some c) rest
        | none, [] => []

def capturesIter (r : Regex) (s : List Char) : List Match := r.findAll (s.length + 1) none s

/-! ## What a way reads -/

theorem mem_runs {p : Char → Bool} {s : List Char} {m : Match} (h : m ∈ runs p s) :
    s = m.text ++ m.rest ∧ m.groups = [] ∧ m.text ≠ [] ∧ ∀ c ∈ m.text, p c = true := by
  induction s generalizing m with
  | nil => cases h
  | cons c cs ih =>
    rw [runs] at h
    split at h
    · rename_i hc
      rcases List.mem_append.mp h with h | h
      · obtain ⟨n, hn, rfl⟩ := List.mem_map.mp h
        obtain ⟨hs, hg, -, hp⟩ := ih hn
        exact ⟨congrArg (c :: ·) hs, hg, List.cons_ne_nil _ _, List.forall_mem_cons.mpr ⟨hc, hp⟩⟩
      · rw [List.mem_singleton.mp h]
        exact ⟨rfl, rfl, List.cons_ne_nil _ _, by simpa using hc⟩
    · cases h

theorem mem_lit {cs s : List Char} {prev : Option Char} {m : Match} (h : m ∈ (lit cs).ways prev s) :
    s = cs ++ m.rest ∧ m.text = cs ∧ m.groups = [] := by
  rw [ways] at h
  split at h
  · rename_i hp
    obtain ⟨t, rfl⟩ := List.isPrefixOf_iff_prefix.mp hp
    rw [List.mem_singleton.mp h]
    simp
  · cases h

theorem mem_seq {r q : Regex} {prev : Option Char} {s : List Char} {m : Match} (h : m ∈ (seq r q).ways prev s) :
    ∃ a b, a ∈ r.ways prev s ∧ b ∈ q.ways (a.text.getLast?.or prev) a.rest ∧
      m = ⟨a.text ++ b.text, a.groups ++ b.groups, b.rest⟩ := by
  obtain ⟨a, ha, hm⟩ := List.mem_flatMap.mp h
  obtain ⟨b, hb, rfl⟩ := List.mem_map.mp hm
  exact ⟨a, b, ha, hb, rfl⟩

theorem mem_group {r : Regex} {prev : Option Char} {s : List Char} {m : Match} (h : m ∈ (group r).ways prev s) :
    ∃ a, a ∈ r.ways prev s ∧ m = { a with groups := a.text :: a.groups } := by
  obtain ⟨a, ha, rfl⟩ := List.mem_map.mp h
  exact ⟨a, ha, rfl⟩

/-- A way reads the beginning of the text, and leaves the rest. -/
theorem ways_split {r : Regex} {prev : Option Char} {s : List Char} {m : Match} (h : m ∈ r.ways prev s) :
    s = m.text ++ m.rest := by
  induction r generalizing prev s m with
  | lit cs =>
    obtain ⟨hs, ht, -⟩ := mem_lit h
    rw [ht]; exact hs
  | many p => exact (mem_runs h).1
  | seq r q ihr ihq =>
    obtain ⟨a, b, ha, hb, rfl⟩ := mem_seq h
    rw [ihr ha, ihq hb, List.append_assoc]
  | opt r ih =>
    rcases List.mem_append.mp h with h | h
    · exact ih h
    · rw [List.mem_singleton.mp h]; rfl
  | group r ih =>
    obtain ⟨a, ha, rfl⟩ := mem_group h
    exact ih (m := a) ha
  | lineStart | wordEdge word =>
    rw [ways] at h
    split at h
    · rw [List.mem_singleton.mp h]; rfl
    · cases h

/-! ## The preferred way -/

theorem first_mem {r : Regex} {prev : Option Char} {s : List Char} {m : Match} (h : r.first prev s = some m) :
    m ∈ r.ways prev s := List.mem_of_mem_head? h

theorem first_lit (cs s : List Char) (prev : Option Char) : (lit cs).first prev (cs ++ s) = some ⟨cs, [], s⟩ := by
  have hp : cs.isPrefixOf (cs ++ s) = true := List.isPrefixOf_iff_prefix.mpr (List.prefix_append cs s)
  simp [first, ways, hp]

/-- A repetition takes the whole run. -/
theorem first_many {p : Char → Bool} {cs s : List Char} (prev : Option Char) (hne : cs ≠ [])
    (hcs : ∀ c ∈ cs, p c = true)
    (hs : ∀ c, s.head? = some c → p c = false) : (many p).first prev (cs ++ s) = some ⟨cs, [], s⟩ := by
  have hstop : runs p s = [] := by
    cases s with
    | nil => rfl
    | cons c s => rw [runs, hs c rfl]; rfl
  have hrun : ∀ cs : List Char, cs ≠ [] → (∀ c ∈ cs, p c = true) → (runs p (cs ++ s)).head? = some ⟨cs, [], s⟩ := by
    intro cs
    induction cs with
    | nil => exact fun h _ => absurd rfl h
    | cons c cs ih =>
      intro _ hcs
      obtain ⟨hc, hcs⟩ := List.forall_mem_cons.mp hcs
      rw [List.cons_append, runs, if_pos hc]
      by_cases he : cs = []
      · subst he; simp [hstop]
      · simp [ih he hcs]
  exact hrun cs hne hcs

theorem first_seq {r q : Regex} {prev : Option Char} {s : List Char} {m n : Match} (hm : r.first prev s = some m)
    (hn : q.first (m.text.getLast?.or prev) m.rest = some n) :
    (seq r q).first prev s = some ⟨m.text ++ n.text, m.groups ++ n.groups, n.rest⟩ := by
  obtain ⟨ms, hms⟩ := List.head?_eq_some_iff.mp hm
  obtain ⟨ns, hns⟩ := List.head?_eq_some_iff.mp hn
  simp [first, ways, hms, hns]

theorem first_group {r : Regex} {prev : Option Char} {s : List Char} {m : Match} (hm : r.first prev s = some m) :
    (group r).first prev s = some { m with groups := m.text :: m.groups } := by
  obtain ⟨ms, hms⟩ := List.head?_eq_some_iff.mp hm
  simp [first, ways, hms]

/-! ## Searching -/

theorem find_of_first {r : Regex} {prev : Option Char} {s : List Char} {m : Match} (h : r.first prev s = some m) :
    r.find prev s = some m := by
  cases s with
  | nil => exact h
  | cons c cs => rw [find, h]; rfl

/-- A search goes past the positions where nothing matches. -/
theorem find_skip {r : Regex} {s : List Char} : ∀ (before : List Char) (prev : Option Char),
    (∀ a b prev', before = a ++ b → b ≠ [] → r.ways prev' (b ++ s) = []) →
      ∃ prev', r.find prev (before ++ s) = r.find prev' s := by
  intro before
  induction before with
  | nil => exact fun prev _ => ⟨prev, rfl⟩
  | cons c cs ih =>
    intro prev h
    obtain ⟨prev', hp⟩ := ih (some c) fun a b prev' e => h (c :: a) b prev' (by rw [e]; rfl)
    refine ⟨prev', ?_⟩
    have hc : r.first prev (c :: (cs ++ s)) = none := by
      rw [first, ← List.cons_append, h [] (c :: cs) prev rfl (List.cons_ne_nil _ _)]; rfl
    rw [List.cons_append, find, hc, ← hp]
    rfl

/-- What a search finds is a way to match somewhere in the text. -/
theorem find_sound {r : Regex} {s : List Char} : ∀ {prev : Option Char} {m : Match}, r.find prev s = some m →
    ∃ before prev', s = before ++ (m.text ++ m.rest) ∧ m ∈ r.ways prev' (m.text ++ m.rest) := by
  induction s with
  | nil =>
    intro prev m h
    have hm := first_mem h
    exact ⟨[], prev, ways_split hm, ways_split hm ▸ hm⟩
  | cons c cs ih =>
    intro prev m h
    rw [find] at h
    rcases Option.or_eq_some_iff.mp h with hf | ⟨-, hf⟩
    · have hm := first_mem hf
      exact ⟨[], prev, ways_split hm, ways_split hm ▸ hm⟩
    · obtain ⟨before, prev', hs, hm⟩ := ih hf
      exact ⟨c :: before, prev', by rw [hs]; rfl, hm⟩

theorem mem_findAll {r : Regex} {m : Match} : ∀ {n : Nat} {prev : Option Char} {s : List Char}, m ∈ r.findAll n prev s →
    ∃ prev' s', r.find prev' s' = some m := by
  intro n
  induction n with
  | zero =>
    intro prev s h
    cases h
  | succ n ih =>
    intro prev s h
    rw [findAll] at h
    split at h
    · cases h
    · rename_i m' hm'
      rcases List.mem_cons.mp h with rfl | h
      · exact ⟨prev, s, hm'⟩
      · split at h
        · exact ih h
        · exact ih h
        · cases h

end Regex

end SoroFuzz.Lib
