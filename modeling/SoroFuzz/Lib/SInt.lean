/-
  SoroFuzz.Lib.SInt — signed integers of a fixed width, with checked arithmetic.

  A value carries its range. An operation whose exact result is out of range has no
  result: what that means (`checked_add`'s `None`, a panic) is the caller's business. Or
  it saturates, or wraps around.
-/

import Mathlib.Algebra.Order.Ring.Int

namespace SoroFuzz.Lib

structure SInt (w : Nat) where
  val : Int
  lower : -2 ^ (w - 1) ≤ val
  upper : val < 2 ^ (w - 1)
  deriving DecidableEq, Repr

abbrev I128 := SInt 128
abbrev I64 := SInt 64

namespace SInt

variable {w : Nat}

@[ext] theorem ext {a b : SInt w} (h : a.val = b.val) : a = b := by
  cases a; cases b; cases h; rfl

instance : Zero (SInt w) := ⟨⟨0, by simp, Int.pow_pos (by decide)⟩⟩

@[simp] theorem val_zero : (0 : SInt w).val = 0 := rfl

/-- The value `x` as an integer of this width, when it is in range. -/
def ofInt? (x : Int) : Option (SInt w) :=
  if h : -2 ^ (w - 1) ≤ x ∧ x < 2 ^ (w - 1) then some ⟨x, h.1, h.2⟩ else none

def checkedAdd (a b : SInt w) : Option (SInt w) := ofInt? (a.val + b.val)
def checkedSub (a b : SInt w) : Option (SInt w) := ofInt? (a.val - b.val)

theorem ofInt?_eq_some {x : Int} {a : SInt w} : ofInt? x = some a ↔ a.val = x := by
  unfold ofInt?
  constructor
  · intro h
    split at h <;> cases h
    rfl
  · rintro rfl
    rw [dif_pos ⟨a.lower, a.upper⟩]

theorem checkedAdd_eq_some {a b c : SInt w} : checkedAdd a b = some c ↔ c.val = a.val + b.val := ofInt?_eq_some

theorem checkedSub_eq_some {a b c : SInt w} : checkedSub a b = some c ↔ c.val = a.val - b.val := ofInt?_eq_some

/-- A result that is some value's is in range. -/
theorem ofInt?_of_range {x : Int} (hl : -2 ^ (w - 1) ≤ x) (hu : x < 2 ^ (w - 1)) :
    ∃ a : SInt w, ofInt? x = some a ∧ a.val = x :=
  ⟨⟨x, hl, hu⟩, dif_pos ⟨hl, hu⟩, rfl⟩

/-- The value nearest to `x`. -/
def saturate (x : Int) : SInt w where
  val := max (-2 ^ (w - 1)) (min x (2 ^ (w - 1) - 1))
  lower := le_max_left _ _
  upper := by
    have hpos : (0 : Int) < 2 ^ (w - 1) := Int.pow_pos (by decide)
    omega

def saturatingAdd (a b : SInt w) : SInt w := saturate (a.val + b.val)
def saturatingSub (a b : SInt w) : SInt w := saturate (a.val - b.val)

theorem saturate_val (x : Int) : (saturate x : SInt w).val = max (-2 ^ (w - 1)) (min x (2 ^ (w - 1) - 1)) := rfl

theorem saturate_of_val {a : SInt w} {x : Int} (h : a.val = x) : saturate x = a := by
  have hl := a.lower
  have hu := a.upper
  refine ext ?_
  rw [saturate_val]
  omega

theorem two_pow_succ (w : Nat) : ((2 ^ (w + 1) : Nat) : Int) = 2 * 2 ^ w := by
  rw [Int.natCast_pow, pow_succ, Int.mul_comm]
  rfl

/-- The value equal to `x` up to a multiple of `2 ^ (w + 1)`. -/
def wrap (x : Int) : SInt (w + 1) where
  val := x.bmod (2 ^ (w + 1))
  lower := by
    have h := Int.le_bmod (x := x) (m := 2 ^ (w + 1)) (Nat.two_pow_pos _)
    rw [two_pow_succ] at h
    show -(2 ^ w : Int) ≤ x.bmod (2 ^ (w + 1))
    omega
  upper := by
    have h := Int.bmod_lt (x := x) (m := 2 ^ (w + 1)) (Nat.two_pow_pos _)
    rw [two_pow_succ] at h
    show x.bmod (2 ^ (w + 1)) < 2 ^ w
    omega

/-- Wrapping does nothing to what is in range. -/
theorem wrap_val {x : Int} (hl : -2 ^ w ≤ x) (hu : x < 2 ^ w) : (wrap x : SInt (w + 1)).val = x := by
  have hw := two_pow_succ w
  exact Int.bmod_eq_of_le (by omega) (by omega)

theorem wrap_val_le {x : Int} (hx : 0 ≤ x) : (wrap x : SInt (w + 1)).val ≤ x := by
  have hpos : (0 : Int) < (2 ^ (w + 1) : Nat) := Int.natCast_pos.mpr (Nat.two_pow_pos _)
  have hle : x % (2 ^ (w + 1) : Nat) ≤ x := by
    obtain ⟨n, rfl⟩ := Int.eq_ofNat_of_zero_le hx
    exact Int.ofNat_le.mpr (Nat.mod_le n _)
  show x.bmod (2 ^ (w + 1)) ≤ x
  rw [Int.bmod]
  split
  · exact hle
  · omega

theorem wrap_eq_iff {x : Int} {a : SInt (w + 1)} : wrap x = a ↔ (2 ^ (w + 1) : Int) ∣ a.val - x := by
  have hpow := two_pow_succ w
  have hcast : ((2 ^ (w + 1) : Nat) : Int) = 2 ^ (w + 1) := Int.natCast_pow ..
  have hl : -(2 ^ w : Int) ≤ a.val := a.lower
  have hu : a.val < (2 ^ w : Int) := a.upper
  constructor
  · rintro rfl
    rw [← hcast]
    exact Int.dvd_bmod_sub_self
  · intro hd
    rw [← hcast] at hd
    exact ext ((Int.bmod_eq_iff (Nat.two_pow_pos _)).mpr ⟨by omega, by omega, hd⟩)

/-- Wrapping on the way is wrapping once. -/
theorem wrap_add_wrap (x y : Int) : (wrap ((wrap x : SInt (w + 1)).val + y) : SInt (w + 1)) = wrap (x + y) :=
  ext Int.bmod_add_bmod

/-- `a.clamp(lo, hi)`, for `lo ≤ hi`. -/
def clamp (a lo hi : SInt w) : SInt w := if a.val < lo.val then lo else if hi.val < a.val then hi else a

theorem clamp_mem {a lo hi : SInt w} (h : lo.val ≤ hi.val) :
    lo.val ≤ (clamp a lo hi).val ∧ (clamp a lo hi).val ≤ hi.val := by
  unfold clamp
  split
  · exact ⟨le_refl _, h⟩
  · split
    · exact ⟨h, le_refl _⟩
    · omega

end SInt

end SoroFuzz.Lib
