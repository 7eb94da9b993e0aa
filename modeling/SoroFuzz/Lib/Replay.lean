/-
  SoroFuzz.Lib.Replay — two machines that are asked the same things, one request after
  the other, give the same answers.

  `same` says when two answers count as the same, `ok` which requests may be asked of the
  two states at hand. Proved:
  - `Lockstep.replay`: when, on related states, a request that may be asked makes neither
    machine stop, gets the same answer from both and leaves their states related, then so
    it is for every list of requests each of which may be asked.
  - `forall_of_replay`: a request that the two answer differently is in no such list.
-/

import Mathlib.Data.List.Forall2

namespace SoroFuzz.Lib.Replay

variable {σ τ ι α β : Type}

/-- A machine answers a request and goes on from its next state, or stops. -/
abbrev Machine (σ ι α : Type) := σ → ι → Option (α × σ)

/-- The answers to a list of requests; `none` when the machine stops at one of them. -/
def replay (m : Machine σ ι α) : σ → List ι → Option (List α)
  | _, [] => some []
  | s, i :: is => (m s i).bind fun (a, s') => (replay m s' is).map (a :: ·)

variable (m : Machine σ ι α) (n : Machine τ ι β) (ok : σ → τ → ι → Prop)

/-- Each request may be asked of the states that the ones before it lead to. -/
def Admits : σ → τ → List ι → Prop
  | _, _, [] => True
  | s, t, i :: is =>
    ok s t i ∧ match m s i, n t i with
      | some (_, s'), some (_, t') => Admits s' t' is
      | _, _ => True

instance decidableAdmits [∀ s t i, Decidable (ok s t i)] : ∀ s t is, Decidable (Admits m n ok s t is)
  | _, _, [] => .isTrue trivial
  | s, t, i :: is =>
    have : Decidable (match m s i, n t i with
      | some (_, s'), some (_, t') => Admits m n ok s' t' is
      | _, _ => True) :=
      match m s i, n t i with
      | some (_, s'), some (_, t') => decidableAdmits s' t' is
      | some _, none => .isTrue trivial
      | none, _ => .isTrue trivial
    inferInstanceAs (Decidable (_ ∧ _))

variable (same : α → β → Prop) (R : σ → τ → Prop)

/-- One request: neither machine stops, the answers are the same, the states stay related. -/
def Lockstep : Prop :=
  ∀ s t i, R s t → ok s t i → ∃ a s' b t', m s i = some (a, s') ∧ n t i = some (b, t') ∧ same a b ∧ R s' t'

variable {m n ok same R}

/-- What is asked of each request by itself is asked of the list. -/
theorem Admits.and {p : ι → Prop} {s : σ} {t : τ} {is : List ι} (h : Admits m n ok s t is) (hp : ∀ i ∈ is, p i) :
    Admits m n (fun s t i => ok s t i ∧ p i) s t is := by
  induction is generalizing s t with
  | nil => exact trivial
  | cons i is ih =>
    obtain ⟨hpi, hpis⟩ := List.forall_mem_cons.mp hp
    refine ⟨⟨h.1, hpi⟩, ?_⟩
    have hrest := h.2
    split
    · rename_i hm hn
      rw [hm, hn] at hrest
      exact ih hrest hpis
    · trivial

/-- When only requests of a kind get the same answer, so do only lists of that kind. -/
theorem forall_of_replay {p : ι → Prop}
    (h : ∀ s t i a s' b t', m s i = some (a, s') → n t i = some (b, t') → same a b → p i) {s : σ} {t : τ} {is : List ι} {as : List α} {bs : List β} (hs : replay m s is = some as)
    (ht : replay n t is = some bs) (hsame : List.Forall₂ same as bs) : ∀ i ∈ is, p i := by
  induction is generalizing s t as bs with
  | nil => exact List.forall_mem_nil _
  | cons i is ih =>
    obtain ⟨⟨a, s'⟩, hm, hs⟩ := Option.bind_eq_some_iff.mp hs
    obtain ⟨⟨b, t'⟩, hn, ht⟩ := Option.bind_eq_some_iff.mp ht
    obtain ⟨as, has, rfl⟩ := Option.map_eq_some_iff.mp hs
    obtain ⟨bs, hbs, rfl⟩ := Option.map_eq_some_iff.mp ht
    obtain ⟨hab, hrest⟩ := List.forall₂_cons.mp hsame
    exact List.forall_mem_cons.mpr ⟨h _ _ _ _ _ _ _ hm hn hab, ih has hbs hrest⟩

theorem Lockstep.replay (h : Lockstep m n ok same R) {s : σ} {t : τ} {is : List ι} (hr : R s t)
    (hok : Admits m n ok s t is) :
    ∃ as bs, replay m s is = some as ∧ replay n t is = some bs ∧ List.Forall₂ same as bs := by
  induction is generalizing s t with
  | nil => exact ⟨[], [], rfl, rfl, .nil⟩
  | cons i is ih =>
    obtain ⟨hi, hrest⟩ := hok
    obtain ⟨a, s', b, t', hm, hn, hab, hr'⟩ := h s t i hr hi
    rw [hm, hn] at hrest
    obtain ⟨as, bs, has, hbs, hsame⟩ := ih hr' hrest
    refine ⟨a :: as, b :: bs, ?_, ?_, .cons hab hsame⟩
    · simp [Replay.replay, hm, has]
    · simp [Replay.replay, hn, hbs]

end SoroFuzz.Lib.Replay
