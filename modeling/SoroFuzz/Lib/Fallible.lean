/-
  SoroFuzz.Lib.Fallible — a step that may fail, and then another.

  Proved: `bind_eq_ok`, `bind_eq_error`: how the two succeed, and how they fail.
-/

namespace SoroFuzz.Lib

variable {ε α β : Type} {x : Except ε α} {g : α → Except ε β}

/-- Both steps succeed. -/
theorem bind_eq_ok {b : β} : x >>= g = .ok b ↔ ∃ a, x = .ok a ∧ g a = .ok b := by
  cases x with
  | error e => exact iff_of_false (fun h => by cases h) (by simp)
  | ok a =>
    constructor
    · exact fun h => ⟨a, rfl, h⟩
    · rintro ⟨a', ha, h⟩
      cases ha
      exact h

/-- The first step fails, or the second does. -/
theorem bind_eq_error {e : ε} : x >>= g = .error e ↔ x = .error e ∨ ∃ a, x = .ok a ∧ g a = .error e := by
  cases x with
  | error e' =>
    constructor
    · intro h
      cases h
      exact Or.inl rfl
    · rintro (h | ⟨a, ha, -⟩)
      · cases h
        rfl
      · cases ha
  | ok a =>
    constructor
    · exact fun h => Or.inr ⟨a, rfl, h⟩
    · rintro (h | ⟨a', ha, h⟩)
      · cases h
      · cases ha
        exact h

end SoroFuzz.Lib
