/-
  SoroFuzz.Lib.Deadlock — transactions that wait for each other's row locks.

  A transaction waits for another when its next statement writes a row the other has
  locked (`waitsFor`); two that wait for each other are deadlocked, and only an abort
  helps. An INSERT waits for no row: the one it writes is not there yet.

  What a program holds and wants at each of its statements is checked on the program
  alone, for any rows that may be committed by then (`Throughout`). It is then so in
  every interleaving (`throughout_run`).
-/

import SoroFuzz.Lib.Sql

namespace SoroFuzz.Lib.Deadlock

open SoroFuzz.Lib.ReadCommitted
open SoroFuzz.Lib.Sql

variable {K : Type} [DecidableEq K] {Row : K → Type} {C L R : Type}

/-- The statement the program is at. -/
def label : Prog Row L R → Option L
  | .stmt l _ _ => some l
  | _ => none

/-- The rows the next statement writes, of those that are there. -/
def wants (v : View Row) : Prog Row L R → List K
  | .stmt _ writes _ => ((writes v).map (·.key)).filter (· ∈ v.rows)
  | _ => []

def waitsFor (s : St Row C L R) (i j : Nat) : Bool :=
  match s.txns.lookup i, s.txns.lookup j with
  | some t, some u => i ≠ j && (wants (viewOf s i t) t.prog).any (wrote u.writes)
  | _, _ => false

def deadlocked (s : St Row C L R) (i j : Nat) : Bool := waitsFor s i j && waitsFor s j i

theorem waitsFor_iff {s : St Row C L R} {i j : Nat} : waitsFor s i j = true ↔ i ≠ j ∧ ∃ t u, s.txns.lookup i = some t ∧
    s.txns.lookup j = some u ∧ ∃ k ∈ wants (viewOf s i t) t.prog, wrote u.writes k = true := by
  unfold waitsFor
  split
  · rename_i t u ht hu
    simp [ht, hu]
  · rename_i hno
    constructor
    · intro h
      cases h
    · intro h
      obtain ⟨-, t, u, ht, hu, -⟩ := h
      exact absurd hu (hno t u ht)

theorem mem_wants {v : View Row} {l : L} {writes : View Row → List (Write Row)} {next : View Row → Prog Row L R}
    {k : K} :
    k ∈ wants v (.stmt l writes next) ↔ wrote (writes v) k = true ∧ k ∈ v.rows := by
  simp [wants, wrote]

/-- `φ` holds at every statement of the program that has written `ws`, whatever is
    committed when it runs. -/
def Throughout (φ : L → (View Row → List (Write Row)) → (View Row → Prog Row L R) → List (Write Row) → Prop) :
    Prog Row L R → List (Write Row) → Prop
  | .stmt l writes next, ws => φ l writes next ws ∧ ∀ d locked,
      let v : View Row := ⟨applyAll ws d, locked⟩
      Throughout φ (next v) (ws ++ writes v)
  | _, _ => True

variable (φ : C → Nat → L → (View Row → List (Write Row)) → (View Row → Prog Row L R) → List (Write Row) → Prop)

/-- Every transaction in flight goes on as it was checked. -/
def ThroughoutAll (s : St Row C L R) : Prop :=
  ∀ i t, s.txns.lookup i = some t → Throughout (φ t.call t.began) t.prog t.writes

variable {φ} (body : C → Nat → Prog Row L R)

theorem throughout_step (hbody : ∀ c n, Throughout (φ c n) (body c n) []) {s s' : St Row C L R} {a : Act C}
    (h : ThroughoutAll φ s) (hs : step body s a = some s') : ThroughoutAll φ s' := by
  cases step_cases body hs with
  | tick d => exact h
  | start i c _ =>
    intro j t ht
    rcases lookup_insert_cases ht with ⟨-, rfl⟩ | ⟨-, ht⟩
    · exact hbody c s.now
    · exact h j t ht
  | exec i t l writes next ht hp _ =>
    intro j u hu
    rcases lookup_insert_cases hu with ⟨-, rfl⟩ | ⟨-, hu⟩
    · have := h i t ht
      rw [hp] at this
      exact this.2 s.db _
    · exact h j u hu
  | commit i t r _ _ => exact fun j u hu => h j u (lookup_erase_cases hu).2
  | abort i _ => exact fun j u hu => h j u (lookup_erase_cases hu).2

theorem throughout_run (hbody : ∀ c n, Throughout (φ c n) (body c n) []) {p : St Row C L R → Act C → Bool}
    {s : St Row C L R} (hr : Run body p (init Row C L R) s) : ThroughoutAll φ s := by
  induction hr with
  | refl => exact fun i t ht => by simp [init] at ht
  | step a _ _ hs ih => exact throughout_step body hbody ih hs

end SoroFuzz.Lib.Deadlock
