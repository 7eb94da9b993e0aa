/-
  SoroFuzz.Core.Amounts — how a `BoundedI128` is generated (`strategies/src/amounts.rs`).

  The generator draws from the fuzzer's bytes (`Unstructured`). One time in four it picks
  an edge, and two of the five edges are one step inside an end of the range. A range with
  a single value has no inside: the step leaves it.

  Proved:
  - `arbitrary_eq_ok`: how each value is drawn.
  - `built_in_range_iff`: a value is in range unless the range has a single value and the
    draw is such an edge (`Overshoots`).
  - `built_bytes_iff`: drawn from bytes as the `arbitrary` crate does, all values are in
    range exactly when the range has more than one.
-/

import SoroFuzz.Core.Command
import SoroFuzz.Core.Strategies

namespace SoroFuzz.Core

open Lib (I128 SInt)

/-- The input yet to be drawn from, and what a draw returns. -/
structure Unstructured where
  Input : Type
  Error : Type
  ratio : UInt32 → UInt32 → StateT Input (Except Error) Bool
  u8InRange : UInt8 → UInt8 → StateT Input (Except Error) UInt8
  i128InRange : I128 → I128 → StateT Input (Except Error) I128
  i128_mem : ∀ lo hi input v rest, lo.val ≤ hi.val → (i128InRange lo hi).run input = .ok (v, rest) →
    lo.val ≤ v.val ∧ v.val ≤ hi.val

/-! ## Drawing from bytes -/

namespace Unstructured

/-- The bytes taken for an offset of at most `delta`, as one number. -/
def takeBytes : Nat → Nat → List UInt8 → Nat × List UInt8
  | _, acc, [] => (acc, [])
  | delta, acc, b :: bytes =>
    if delta = 0 then (acc, b :: bytes) else takeBytes (delta / 256) (acc * 256 + b.toNat) bytes

/-- `Unstructured::int_in_range`, of the bounds' values. -/
def intInRange (lo hi : Int) (bytes : List UInt8) : Int × List UInt8 :=
  if lo = hi then (lo, bytes)
  else
    let (n, rest) := takeBytes (hi - lo).toNat 0 bytes
    (lo + n % (hi - lo + 1), rest)

theorem intInRange_mem {lo hi : Int} (h : lo ≤ hi) (bytes : List UInt8) :
    lo ≤ (intInRange lo hi bytes).1 ∧ (intInRange lo hi bytes).1 ≤ hi := by
  unfold intInRange
  split
  · exact ⟨le_refl _, h⟩
  · set n : Int := ((takeBytes (hi - lo).toNat 0 bytes).1 : Int)
    have hnn := Int.emod_nonneg n (b := hi - lo + 1) (by omega)
    have hlt := Int.emod_lt_of_pos n (b := hi - lo + 1) (by omega)
    exact ⟨by show lo ≤ lo + n % _; omega, by show lo + n % _ ≤ hi; omega⟩

/-- What remains of a fuzzer's bytes. A draw never fails: bytes that are missing count
    as none. -/
def bytes : Unstructured where
  Input := List UInt8
  Error := Unit
  ratio numerator denominator input :=
    let (x, rest) := intInRange 1 denominator.toNat input
    .ok (x ≤ numerator.toNat, rest)
  u8InRange lo hi input :=
    let (x, rest) := intInRange lo.toNat hi.toNat input
    .ok (UInt8.ofNat x.toNat, rest)
  i128InRange lo hi input :=
    if h : lo.val ≤ hi.val then
      have hmem := intInRange_mem h input
      .ok (⟨(intInRange lo.val hi.val input).1, le_trans lo.lower hmem.1, lt_of_le_of_lt hmem.2 hi.upper⟩,
        (intInRange lo.val hi.val input).2)
    else .error ()
  i128_mem lo hi input v rest h hv := by
    simp only [StateT.run, dif_pos h] at hv
    cases hv
    exact intInRange_mem h input

end Unstructured

/-! ## The generator -/

namespace BoundedI128

open Unstructured (bytes)

def one : I128 := ⟨1, by decide, by decide⟩

/-- `BoundedI128::<MIN, MAX>::new`: the value it wraps. -/
def new (MIN MAX value : I128) : Except Payload I128 :=
  if MIN.val ≤ value.val ∧ value.val ≤ MAX.val then .ok value
  else .error (.string ("BoundedI128::new: " ++ toString value.val ++ " is outside [" ++ toString MIN.val ++ ", " ++
    toString MAX.val ++ "]"))

/-- The edge picked by `choice`. -/
def edge (MIN MAX : I128) (choice : UInt8) : I128 :=
  match choice.toNat with
  | 0 => MIN
  | 1 => MAX
  | 2 => SInt.clamp 0 MIN MAX
  | 3 => MIN.saturatingAdd one
  | _ => MAX.saturatingSub one

/-- `BoundedI128::<MIN, MAX>::arbitrary`: the value it wraps. -/
def arbitrary (U : Unstructured) (MIN MAX : I128) : StateT U.Input (Except U.Error) I128 := do
  if ← U.ratio 1 4 then
    let choice ← U.u8InRange 0 4
    pure (edge MIN MAX choice)
  else
    U.i128InRange MIN MAX

/-- A value of the type: each way to get one. -/
inductive Built (U : Unstructured) (MIN MAX : I128) : I128 → Prop
  | new {value v : I128} : new MIN MAX value = .ok v → Built U MIN MAX v
  | arbitrary {input rest : U.Input} {v : I128} : (arbitrary U MIN MAX).run input = .ok (v, rest) → Built U MIN MAX v

def InRange (MIN MAX v : I128) : Prop := MIN.val ≤ v.val ∧ v.val ≤ MAX.val

/-- The input picks the edge `choice`. -/
def Picks (U : Unstructured) (input : U.Input) (choice : UInt8) (rest : U.Input) : Prop :=
  ∃ mid, (U.ratio 1 4).run input = .ok (true, mid) ∧ (U.u8InRange 0 4).run mid = .ok (choice, rest)

/-- The range is one value, and the input picks an edge that is a step away from it. -/
def Overshoots (U : Unstructured) (MIN MAX : I128) (input : U.Input) : Prop :=
  MIN.val = MAX.val ∧ ∃ choice rest, Picks U input choice rest ∧
    (choice.toNat = 3 ∧ MIN.val < 2 ^ 127 - 1 ∨ 3 < choice.toNat ∧ -2 ^ 127 < MAX.val)

/-! ## What is drawn -/

variable {U : Unstructured} {MIN MAX v : I128} {input rest : U.Input}

theorem new_eq_ok {value : I128} : new MIN MAX value = .ok v ↔ InRange MIN MAX value ∧ v = value := by
  unfold new InRange
  split
  · rename_i h
    simp [h, eq_comm]
  · rename_i h
    simp [h]

theorem run_arbitrary : (arbitrary U MIN MAX).run input =
    match (U.ratio 1 4).run input with
    | .ok (true, mid) =>
      match (U.u8InRange 0 4).run mid with
      | .ok (choice, rest) => .ok (edge MIN MAX choice, rest)
      | .error e => .error e
    | .ok (false, mid) => (U.i128InRange MIN MAX).run mid
    | .error e => .error e := by
  rw [arbitrary, StateT.run_bind]
  cases (U.ratio 1 4).run input with
  | error e => rfl
  | ok drawn =>
    obtain ⟨biased, mid⟩ := drawn
    cases biased with
    | false => rfl
    | true =>
      show (U.u8InRange 0 4 >>= fun choice => pure (edge MIN MAX choice)).run mid =
        match (U.u8InRange 0 4).run mid with
        | .ok (choice, rest) => .ok (edge MIN MAX choice, rest)
        | .error e => .error e
      rw [StateT.run_bind]
      cases (U.u8InRange 0 4).run mid with
      | error e => rfl
      | ok drawn => rfl

/-- A value is an edge, or drawn from the whole range. -/
theorem arbitrary_eq_ok : (arbitrary U MIN MAX).run input = .ok (v, rest) ↔
    (∃ choice, Picks U input choice rest ∧ v = edge MIN MAX choice) ∨
    (∃ mid, (U.ratio 1 4).run input = .ok (false, mid) ∧ (U.i128InRange MIN MAX).run mid = .ok (v, rest)) := by
  rw [run_arbitrary]
  unfold Picks
  cases (U.ratio 1 4).run input with
  | error e => simp
  | ok drawn =>
    obtain ⟨biased, mid⟩ := drawn
    cases biased with
    | false => simp
    | true =>
      cases hc : (U.u8InRange 0 4).run mid with
      | error e => simp [hc]
      | ok drawn =>
        obtain ⟨choice, rest'⟩ := drawn
        simp only [hc, Except.ok.injEq, Prod.mk.injEq, true_and, exists_eq_left', Bool.true_eq_false, false_and,
          exists_false, or_false]
        grind

/-- Of the edges only the steps inside can miss the range. -/
theorem edge_inRange_iff (h : MIN.val ≤ MAX.val) (choice : UInt8) : InRange MIN MAX (edge MIN MAX choice) ↔
    ¬ (MIN.val = MAX.val ∧
      (choice.toNat = 3 ∧ MIN.val < 2 ^ 127 - 1 ∨ 3 < choice.toNat ∧ -2 ^ 127 < MAX.val)) := by
  have hl := MIN.lower
  have hu := MAX.upper
  have hclamp := SInt.clamp_mem (a := 0) h
  have hadd : (MIN.saturatingAdd one).val = max (-2 ^ 127) (min (MIN.val + 1) (2 ^ 127 - 1)) := rfl
  have hsub : (MAX.saturatingSub one).val = max (-2 ^ 127) (min (MAX.val - 1) (2 ^ 127 - 1)) := rfl
  unfold InRange edge
  split
  · omega
  · omega
  · omega
  · rw [hadd]
    omega
  · rename_i h0 h1 h2 h3
    have hlast : 3 < choice.toNat := by grind
    rw [hsub]
    omega

theorem arbitrary_inRange_iff (h : MIN.val ≤ MAX.val) (hv : (arbitrary U MIN MAX).run input = .ok (v, rest)) :
    InRange MIN MAX v ↔ ¬ Overshoots U MIN MAX input := by
  rcases arbitrary_eq_ok.mp hv with ⟨choice, hp, rfl⟩ | ⟨mid, hr, hd⟩
  · rw [edge_inRange_iff h, not_iff_not]
    constructor
    · intro hedge
      exact ⟨hedge.1, choice, rest, hp, hedge.2⟩
    · intro hover
      obtain ⟨heq, choice', rest', hp', hstep⟩ := hover
      obtain ⟨mid, hr, hc⟩ := hp
      obtain ⟨mid', hr', hc'⟩ := hp'
      obtain rfl : mid = mid' := by rw [hr] at hr'; cases hr'; rfl
      obtain rfl : choice = choice' := by rw [hc] at hc'; cases hc'; rfl
      exact ⟨heq, hstep⟩
  · have hno : ¬ Overshoots U MIN MAX input := by
      intro hover
      obtain ⟨-, choice, rest', ⟨mid', hr', -⟩, -⟩ := hover
      rw [hr] at hr'
      cases hr'
    exact iff_of_true (U.i128_mem MIN MAX mid v rest h hd) hno

/-- An input that overshoots yields a value. -/
theorem Overshoots.draws (ho : Overshoots U MIN MAX input) :
    ∃ v rest, (arbitrary U MIN MAX).run input = .ok (v, rest) := by
  obtain ⟨-, choice, rest, hp, -⟩ := ho
  exact ⟨_, rest, arbitrary_eq_ok.mpr (Or.inl ⟨choice, hp, rfl⟩)⟩

/-- Whether some input overshoots decides whether a value out of range can be built. -/
theorem built_inRange_iff (h : MIN.val ≤ MAX.val) :
    (∀ v, Built U MIN MAX v → InRange MIN MAX v) ↔ ∀ input, ¬ Overshoots U MIN MAX input := by
  constructor
  · intro hall input ho
    obtain ⟨v, rest, hv⟩ := ho.draws
    exact (arbitrary_inRange_iff h hv).mp (hall v (.arbitrary hv)) ho
  · intro hno v hb
    cases hb with
    | new hv =>
      obtain ⟨hin, rfl⟩ := new_eq_ok.mp hv
      exact hin
    | arbitrary hv => exact (arbitrary_inRange_iff h hv).mpr (hno _)

/-- The bytes that pick an edge. -/
theorem picks_bytes {choice : UInt8} (h : choice.toNat ≤ 4) : Picks bytes [0, choice] choice [] := by
  refine ⟨[choice], rfl, ?_⟩
  show Except.ok (UInt8.ofNat ((0 : Int) + ((0 * 256 + choice.toNat : Nat) : Int) % 5).toNat, []) = _
  have hmod : ((0 : Int) + ((0 * 256 + choice.toNat : Nat) : Int) % 5).toNat = choice.toNat := by omega
  rw [hmod, UInt8.ofNat_toNat]
  rfl

theorem built_in_range_iff (U : Unstructured) (MIN MAX : I128) (h : MIN.val ≤ MAX.val) :
    (∀ input v rest, (arbitrary U MIN MAX).run input = .ok (v, rest) →
      (InRange MIN MAX v ↔ ¬ Overshoots U MIN MAX input)) ∧
    ((∀ v, Built U MIN MAX v → InRange MIN MAX v) ↔ ∀ input, ¬ Overshoots U MIN MAX input) :=
  ⟨fun _ _ _ hv => arbitrary_inRange_iff h hv, built_inRange_iff h⟩

def seven : I128 := ⟨7, by decide, by decide⟩

theorem built_in_range_seven : seven.val ≤ seven.val ∧
    ((∀ v, Built bytes seven seven v → InRange seven seven v) ↔ ∀ input, ¬ Overshoots bytes seven seven input) :=
  ⟨le_refl _, (built_in_range_iff bytes seven seven (le_refl _)).2⟩

/-- The one value between 7 and 7, drawn from the bytes 0 and 3, is 8. -/
theorem one_value_range_overshoots : ¬ ∀ (U : Unstructured) (MIN MAX : I128), MIN.val ≤ MAX.val →
    (∀ input v rest, (arbitrary U MIN MAX).run input = .ok (v, rest) → InRange MIN MAX v) ∧
    ∀ v, Built U MIN MAX v → InRange MIN MAX v := by
  intro hall
  have hdraw : (arbitrary bytes seven seven).run [0, 3] = .ok (edge seven seven 3, []) :=
    arbitrary_eq_ok.mpr (Or.inl ⟨3, picks_bytes (by decide), rfl⟩)
  exact absurd ((hall bytes seven seven (by decide)).1 _ _ _ hdraw) (by unfold InRange; decide)

/-- With more than one value in the range, every value built is in it. -/
theorem Built.inRange (h : MIN.val < MAX.val) (hb : Built U MIN MAX v) : InRange MIN MAX v :=
  (built_inRange_iff (le_of_lt h)).mpr (fun _ ho => absurd ho.1 (ne_of_lt h)) v hb

def Built.bounded (h : MIN.val < MAX.val) (hb : Built U MIN MAX v) : BoundedI128 MIN.val MAX.val :=
  ⟨v, (hb.inRange h).1, (hb.inRange h).2⟩

/-- A range of one value is always left: by one edge or the other. -/
theorem overshoots_bytes (MIN MAX : I128) (h : MIN.val = MAX.val) : ∃ input, Overshoots bytes MIN MAX input := by
  by_cases hlow : -2 ^ 127 < MAX.val
  · exact ⟨[0, 4], h, 4, [], picks_bytes (by decide), Or.inr ⟨by decide, hlow⟩⟩
  · exact ⟨[0, 3], h, 3, [], picks_bytes (by decide), Or.inl ⟨by decide, by omega⟩⟩

theorem built_bytes_iff (h : MIN.val ≤ MAX.val) :
    (∀ v, Built bytes MIN MAX v → InRange MIN MAX v) ↔ MIN.val < MAX.val := by
  constructor
  · intro hall
    by_contra hnot
    obtain ⟨input, ho⟩ := overshoots_bytes MIN MAX (by omega)
    exact (built_inRange_iff h).mp hall input ho
  · exact fun hlt v hb => hb.inRange hlt

end BoundedI128

end SoroFuzz.Core
