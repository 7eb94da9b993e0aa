/-
  SoroFuzz.Lib.Broadcast — a broadcast channel of bounded memory (`tokio::sync::broadcast`).

  Every event that is sent goes to every receiver there is at that time. A receiver is
  the position of the event it takes next. The channel keeps the last `capacity` events:
  a receiver that is further behind is told that it lagged, and goes on with the oldest
  event kept. It is closed when the last sender is dropped, and a receiver is told so
  once it has taken what was sent.

  Proved:
  - `recv_cases`: all that a `recv` can answer.
  - `ahead_recv`: a receiver does not lag past the last event: what is only ever sent
    last (`Sealed`) is still ahead of it (`Ahead`), or it is what it got.
  - `not_closed`: it is not told that the channel closed while there is one ahead.
  - `took_ok`, `took_lagged`: what a receiver got so far is what was sent since it
    subscribed, in that order, and all of it unless it lagged (`Took`).
-/

import Mathlib.Data.List.Basic
import Mathlib.Data.List.Infix

namespace SoroFuzz.Lib.Broadcast

variable {E : Type}

structure Channel (E : Type) where
  /-- Every event sent so far, in order. -/
  sent : List E
  senders : Nat
  deriving DecidableEq, Repr

inductive Got (E : Type) where
  | ok (e : E)
  | lagged (missed : Nat)
  | closed
  deriving DecidableEq, Repr

def Got.isLagged : Got E → Bool
  | .lagged _ => true
  | .ok _ | .closed => false

namespace Channel

def send (c : Channel E) (e : E) : Channel E := { c with sent := c.sent ++ [e] }

/-- The position of a new receiver: it gets none of the events sent before. -/
def subscribe (c : Channel E) : Nat := c.sent.length

/-- What the receiver at `next` gets, and its position then; `none` as long as it waits. -/
def recv (capacity : Nat) (c : Channel E) (next : Nat) : Option (Got E × Nat) :=
  if next + capacity < c.sent.length then
    some (.lagged (c.sent.length - capacity - next), c.sent.length - capacity)
  else
    match c.sent[next]? with
    | some e => some (.ok e, next + 1)
    | none => if c.senders = 0 then some (.closed, next) else none

/-- What was sent from position `since` on, up to `next`. -/
def span (c : Channel E) (since next : Nat) : List E := (c.sent.take next).drop since

end Channel

open Channel

/-- What a receiver at `next` may be answered, and its position then. -/
inductive Received (capacity : Nat) (c : Channel E) (next : Nat) : Got E → Nat → Prop
  | ok (e : E) : c.sent.length ≤ next + capacity → c.sent[next]? = some e → Received capacity c next (.ok e) (next + 1)
  | lagged : next + capacity < c.sent.length →
      Received capacity c next (.lagged (c.sent.length - capacity - next)) (c.sent.length - capacity)
  | closed : c.sent.length ≤ next → c.senders = 0 → Received capacity c next .closed next

theorem recv_cases {capacity : Nat} {c : Channel E} {next next' : Nat} {got : Got E}
    (h : c.recv capacity next = some (got, next')) : Received capacity c next got next' := by
  unfold recv at h
  split at h
  · rename_i hlag
    cases h
    exact .lagged hlag
  · rename_i hlag
    split at h
    · rename_i e he
      cases h
      exact .ok e (Nat.le_of_not_lt hlag) he
    · rename_i hnone
      split at h
      · rename_i h0
        cases h
        exact .closed (List.getElem?_eq_none_iff.mp hnone) h0
      · cases h

/-- A receiver waits only where nothing was sent yet. -/
theorem recv_none {capacity : Nat} {c : Channel E} {next : Nat} (h : c.recv capacity next = none) :
    c.sent.length ≤ next := by
  unfold recv at h
  split at h
  · cases h
  · split at h
    · cases h
    · rename_i hnone
      exact List.getElem?_eq_none_iff.mp hnone

variable (P : E → Prop)

/-- Nothing was sent after an event with `P`. -/
def Sealed (c : Channel E) : Prop := ∀ i e, c.sent[i]? = some e → P e → i + 1 = c.sent.length

/-- The last event sent has `P`. -/
def Over (c : Channel E) : Prop := ∃ e, c.sent.getLast? = some e ∧ P e

/-- The receiver at `next` has passed no event with `P`. -/
structure Ahead (c : Channel E) (next : Nat) : Prop where
  le : next ≤ c.sent.length
  ahead : ∀ i e, c.sent[i]? = some e → P e → next ≤ i

variable {P}

/-! ## Sending -/

theorem getElem?_send {c : Channel E} {e e' : E} {i : Nat} (h : (c.send e).sent[i]? = some e') :
    c.sent[i]? = some e' ∨ (i = c.sent.length ∧ e' = e) := by
  rcases Nat.lt_trichotomy i c.sent.length with hi | hi | hi
  · left
    rwa [send, List.getElem?_append_left hi] at h
  · right
    subst hi
    rw [send, List.getElem?_concat_length] at h
    exact ⟨rfl, (Option.some.inj h).symm⟩
  · rw [send, List.getElem?_eq_none (by simp; omega)] at h
    cases h

@[simp] theorem length_send (c : Channel E) (e : E) : (c.send e).sent.length = c.sent.length + 1 := by simp [send]

theorem sealed_send {c : Channel E} {e : E} (h : ∀ e ∈ c.sent, ¬ P e) : Sealed P (c.send e) := by
  intro i e' hi hp
  rcases getElem?_send hi with hi | ⟨rfl, -⟩
  · exact absurd hp (h e' (List.mem_of_getElem? hi))
  · simp

theorem over_send (c : Channel E) {e : E} (h : P e) : Over P (c.send e) := ⟨e, by simp [send], h⟩

theorem Sealed.over {c : Channel E} (h : Sealed P c) {e : E} (he : e ∈ c.sent) (hp : P e) : Over P c := by
  obtain ⟨i, hi⟩ := List.mem_iff_getElem?.mp he
  have hend := h i e hi hp
  exact ⟨e, by rw [List.getLast?_eq_getElem?, ← hend, Nat.add_sub_cancel, hi], hp⟩

theorem ahead_subscribe {c : Channel E} (h : ∀ e ∈ c.sent, ¬ P e) : Ahead P c c.subscribe :=
  ⟨Nat.le_refl _, fun _ e hi hp => absurd hp (h e (List.mem_of_getElem? hi))⟩

/-- More is sent, and what is ahead stays ahead. -/
theorem Ahead.later {c c' : Channel E} {next : Nat} (h : Ahead P c next) (hc : c.sent <+: c'.sent) :
    Ahead P c' next := by
  refine ⟨Nat.le_trans h.le hc.length_le, fun i e hi hp => ?_⟩
  rcases Nat.lt_or_ge i c.sent.length with hlt | hge
  · obtain ⟨es, hes⟩ := hc
    rw [← hes, List.getElem?_append_left hlt] at hi
    exact h.ahead i e hi hp
  · exact Nat.le_trans h.le hge

theorem ahead_send {c : Channel E} {next : Nat} (h : Ahead P c next) (e : E) : Ahead P (c.send e) next :=
  h.later (List.prefix_append _ _)

/-- Nothing is sent after an event with `P`. -/
theorem Over.same {c c' : Channel E} (h : Over P c) (hs : Sealed P c') (hc : c.sent <+: c'.sent) :
    c'.sent = c.sent := by
  obtain ⟨e, he, hp⟩ := h
  obtain ⟨es, hes⟩ := hc
  have hi : c.sent[c.sent.length - 1]? = some e := by rw [← List.getLast?_eq_getElem?, he]
  have hlt : c.sent.length - 1 < c.sent.length := (List.getElem?_eq_some_iff.mp hi).1
  have hlen : c.sent.length - 1 + 1 = c'.sent.length := by
    refine hs _ e ?_ hp
    rw [← hes, List.getElem?_append_left hlt, hi]
  rw [← hes, List.length_append] at hlen
  obtain rfl : es = [] := List.eq_nil_of_length_eq_zero (by omega)
  rw [← hes, List.append_nil]

/-! ## Receiving -/

theorem ahead_recv {capacity : Nat} (hcap : 0 < capacity) {c : Channel E} (hs : Sealed P c) {next next' : Nat}
    {got : Got E} (h : Ahead P c next) (hr : c.recv capacity next = some (got, next')) :
    (∃ e, got = .ok e ∧ P e) ∨ Ahead P c next' := by
  cases recv_cases hr with
  | lagged hlag =>
    -- It lags to `capacity` events before the end, and only the last event has `P`.
    refine Or.inr ⟨Nat.sub_le _ _, fun i e hi hp => ?_⟩
    have := hs i e hi hp
    omega
  | ok e _ he =>
    by_cases hp : P e
    · exact Or.inl ⟨e, rfl, hp⟩
    · have hlt : next < c.sent.length := (List.getElem?_eq_some_iff.mp he).1
      refine Or.inr ⟨hlt, fun i e' hi hp' => ?_⟩
      have hle := h.ahead i e' hi hp'
      have hne : next ≠ i := by
        intro heq
        subst heq
        rw [he] at hi
        exact hp (Option.some.inj hi ▸ hp')
      omega
  | closed => exact Or.inr h

theorem recv_closed {capacity : Nat} {c : Channel E} {next next' : Nat}
    (hr : c.recv capacity next = some (.closed, next')) : c.sent.length ≤ next ∧ c.senders = 0 := by
  cases recv_cases hr with
  | closed hlen h0 => exact ⟨hlen, h0⟩

/-- The event with `P` is one that the receiver has not got. -/
theorem Ahead.lt_of_over {c : Channel E} {next : Nat} (h : Ahead P c next) (ho : Over P c) : next < c.sent.length := by
  obtain ⟨e, he, hp⟩ := ho
  have hlast : c.sent[c.sent.length - 1]? = some e := by rw [← List.getLast?_eq_getElem?, he]
  have hlt : c.sent.length - 1 < c.sent.length := (List.getElem?_eq_some_iff.mp hlast).1
  have hle := h.ahead _ e hlast hp
  omega

theorem not_closed {capacity : Nat} {c : Channel E} {next next' : Nat} (h : Ahead P c next) (ho : Over P c) :
    c.recv capacity next ≠ some (.closed, next') := by
  intro hr
  have := h.lt_of_over ho
  have := (recv_closed hr).1
  omega

/-! ## What a receiver got -/

/-- What the receiver that subscribed at `since` got until it came to `next`. -/
structure Took (c : Channel E) (since next : Nat) (lagged : Bool) (taken : List E) : Prop where
  since_le : since ≤ next
  next_le : next ≤ c.sent.length
  sublist : taken.Sublist (c.span since next)
  all : lagged = false → taken = c.span since next

theorem took_subscribe (c : Channel E) : Took c c.subscribe c.subscribe false [] where
  since_le := Nat.le_refl _
  next_le := Nat.le_refl _
  sublist := List.nil_sublist _
  all _ := by simp [span, subscribe]

/-- More is sent, and what it got is still what it got. -/
theorem Took.later {c c' : Channel E} {since next : Nat} {lagged : Bool} {taken : List E}
    (h : Took c since next lagged taken) (hc : c.sent <+: c'.sent) : Took c' since next lagged taken := by
  obtain ⟨es, hes⟩ := hc
  have hspan : c'.span since next = c.span since next := by
    rw [span, span, ← hes, List.take_append_of_le_length h.next_le]
  refine ⟨h.since_le, ?_, hspan ▸ h.sublist, fun hl => hspan ▸ h.all hl⟩
  rw [← hes, List.length_append]
  exact Nat.le_add_right_of_le h.next_le

theorem span_succ {c : Channel E} {since next : Nat} {e : E} (hle : since ≤ next) (he : c.sent[next]? = some e) :
    c.span since (next + 1) = c.span since next ++ [e] := by
  have hlt : next < c.sent.length := (List.getElem?_eq_some_iff.mp he).1
  rw [span, span, List.take_add_one, he, Option.toList_some, List.drop_append_of_le_length]
  rw [List.length_take]
  omega

theorem span_sublist {c : Channel E} {since next next' : Nat} (h : next ≤ next') :
    (c.span since next).Sublist (c.span since next') :=
  (List.take_sublist_take_left h).drop since

theorem took_ok {c : Channel E} {since next : Nat} {lagged : Bool} {taken : List E} {e : E}
    (h : Took c since next lagged taken) (he : c.sent[next]? = some e) :
    Took c since (next + 1) lagged (taken ++ [e]) where
  since_le := Nat.le_succ_of_le h.since_le
  next_le := (List.getElem?_eq_some_iff.mp he).1
  sublist := by
    rw [span_succ h.since_le he]
    exact h.sublist.append_right [e]
  all hl := by rw [span_succ h.since_le he, h.all hl]

theorem took_lagged {c : Channel E} {since next next' : Nat} {lagged : Bool} {taken : List E}
    (h : Took c since next lagged taken) (hle : next ≤ next') (hlen : next' ≤ c.sent.length) :
    Took c since next' true taken where
  since_le := Nat.le_trans h.since_le hle
  next_le := hlen
  sublist := h.sublist.trans (span_sublist hle)
  all hl := by cases hl

end SoroFuzz.Lib.Broadcast
