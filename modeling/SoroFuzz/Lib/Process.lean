/-
  SoroFuzz.Lib.Process — programs that act on their surroundings, and protocols.

  A process performs one action after the other and goes on with the answer to each. A
  protocol says which actions are allowed in which phase, and which phase an answer
  leads to. A process that obeys the protocol (`Obeys`) is, at every point of its
  execution, at a phase that allows what it does next. One that completes it
  (`Completes`) also returns only in a phase that is final.
-/

namespace SoroFuzz.Lib.Process

variable {A : Type} {Answer : A → Type}

inductive Proc (A : Type) (Answer : A → Type) where
  | ret
  | act (a : A) (next : Answer a → Proc A Answer)

structure Protocol (A : Type) (Answer : A → Type) (Phase : Type) where
  allows : Phase → A → Prop
  after : Phase → (a : A) → Answer a → Phase

variable {Phase : Type} (P : Protocol A Answer Phase)

/-- From the phase on, whatever the answers are, the process does only what is allowed. -/
def Obeys : Phase → Proc A Answer → Prop
  | _, .ret => True
  | φ, .act a next => P.allows φ a ∧ ∀ r, Obeys (P.after φ a r) (next r)

variable {P}

@[simp] theorem obeys_ret (φ : Phase) : Obeys P φ .ret := trivial

theorem obeys_act {φ : Phase} {a : A} {next : Answer a → Proc A Answer} (h : P.allows φ a)
    (hn : ∀ r, Obeys P (P.after φ a r) (next r)) : Obeys P φ (.act a next) := ⟨h, hn⟩

theorem Obeys.allows {φ : Phase} {a : A} {next : Answer a → Proc A Answer} (h : Obeys P φ (.act a next)) :
    P.allows φ a := h.1

theorem Obeys.next {φ : Phase} {a : A} {next : Answer a → Proc A Answer} (h : Obeys P φ (.act a next)) (r : Answer a) :
    Obeys P (P.after φ a r) (next r) := h.2 r

/-- It obeys the protocol, and returns in a final phase. -/
def Completes (P : Protocol A Answer Phase) (final : Phase → Prop) : Phase → Proc A Answer → Prop
  | φ, .ret => final φ
  | φ, .act a next => P.allows φ a ∧ ∀ r, Completes P final (P.after φ a r) (next r)

theorem completes_act {final : Phase → Prop} {φ : Phase} {a : A} {next : Answer a → Proc A Answer} (h : P.allows φ a)
    (hn : ∀ r, Completes P final (P.after φ a r) (next r)) : Completes P final φ (.act a next) := ⟨h, hn⟩

end SoroFuzz.Lib.Process
