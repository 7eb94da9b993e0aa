/-
  SoroFuzz.Runner.Tail — `tail` on the bytes of its text (`runner/output.rs`).

  Its limit counts bytes, so the cut can fall inside a character, where Rust panics if
  asked to slice. `tailOrPanic` is the code with all that can panic in it: the
  subtraction, and the slice at the position that the scan found.

  Proved:
  - `dropBytes_longest`: what `tail` keeps is the longest suffix within the limit.
  - `tailOrPanic_eq`: the code that may panic computes `tail`.
  - `tail_longest`: so for every text and every limit.
-/

import SoroFuzz.Lib.CharBoundary
import SoroFuzz.Runner.Output

namespace SoroFuzz.Runner

open Lib

/-- `a - b` of unsigned integers, with `none` for its panic. -/
def subOrPanic (a b : Nat) : Option Nat := if b ≤ a then some (a - b) else none

/-- `tail`, with `none` for a panic. -/
def tailOrPanic (text : List Char) (maxChars : Nat) : Option (List Char) :=
  let len := (utf8 text).length
  if len ≤ maxChars then some (trim text)
  else
    (subOrPanic len maxChars).bind fun byteStart =>
      let range := List.range' byteStart (len + 1 - byteStart)
      let start := (range.find? fun i => isCharBoundary (utf8 text) i).getD len
      (sliceFrom text start).map trim

/-! ## Bytes -/

theorem byteLen_eq (text : List Char) : byteLen text = (utf8 text).length := by
  induction text with
  | nil => rfl
  | cons c cs ih => rw [byteLen, ih, utf8_cons, List.length_append, String.length_utf8EncodeChar]

theorem byteLen_append (s t : List Char) : byteLen (s ++ t) = byteLen s + byteLen t := by
  induction s with
  | nil => rw [List.nil_append, byteLen, Nat.zero_add]
  | cons c cs ih => rw [List.cons_append, byteLen, byteLen, ih, Nat.add_assoc]

theorem byteLen_le_of_infix {s text : List Char} (h : s <:+: text) : byteLen s ≤ byteLen text := by
  obtain ⟨before, after, rfl⟩ := h
  rw [byteLen_append, byteLen_append]
  omega

theorem trim_infix (s : List Char) : trim s <:+: s :=
  (List.rdropWhile_prefix _ _).isInfix.trans (List.dropWhile_suffix _).isInfix

/-! ## Where the text is cut -/

theorem dropBytes_zero (text : List Char) : dropBytes 0 text = text := by
  cases text with
  | nil => rfl
  | cons c cs => rw [dropBytes, if_pos rfl]

theorem dropBytes_append (before after : List Char) : dropBytes (byteLen before) (before ++ after) = after := by
  induction before with
  | nil => cases after <;> rfl
  | cons c cs ih =>
    have hpos := c.utf8Size_pos
    rw [List.cons_append, dropBytes, byteLen, if_neg (by omega), Nat.add_sub_cancel_left, ih]

/-- Of the suffixes that leave out at least `k` bytes, `dropBytes k` is the longest. -/
theorem dropBytes_longest {text : List Char} {k : Nat} (hk : k ≤ byteLen text) :
    IsLongestSuffix (fun s => byteLen s + k ≤ byteLen text) text (dropBytes k text) := by
  induction text generalizing k with
  | nil =>
    have h0 : k = 0 := Nat.le_zero.mp hk
    subst h0
    exact IsLongestSuffix.self (Nat.le_refl _)
  | cons c cs ih =>
    by_cases h0 : k = 0
    · subst h0
      rw [dropBytes_zero]
      exact IsLongestSuffix.self (Nat.le_refl _)
    · rw [byteLen] at hk
      have hcs := ih (k := k - c.utf8Size) (by omega)
      have hholds := hcs.holds
      rw [dropBytes, if_neg h0]
      refine ⟨hcs.isSuffix.trans (List.suffix_cons c cs), ?_, ?_⟩
      · rw [byteLen]
        omega
      · intro t ht hfits
        rcases List.suffix_cons_iff.mp ht with rfl | hrest
        -- the whole text leaves out nothing
        · omega
        · have hle := byteLen_le_of_infix hrest.isInfix
          rw [byteLen] at hfits
          exact hcs.longest t hrest (by omega)

/-- The scan from byte `k` stops where `dropBytes k` begins. -/
theorem find_boundary {text before : List Char} {k : Nat} (hk : k ≤ byteLen text)
    (htext : before ++ dropBytes k text = text) :
    (List.range' k (byteLen text + 1 - k)).find? (fun i => isCharBoundary (utf8 text) i) = some (byteLen before) := by
  obtain ⟨-, hholds, hlongest⟩ := dropBytes_longest hk
  have hsum : byteLen before + byteLen (dropBytes k text) = byteLen text := by
    rw [← byteLen_append, htext]
  rw [List.find?_range'_eq_some]
  refine ⟨?_, ?_, ?_⟩
  · rw [byteLen_eq, ← htext]
    exact isCharBoundary_append
  · rw [List.mem_range'_1]
    omega
  · intro j hj hlt
    rw [Bool.not_eq_true', ← Bool.not_eq_true]
    intro hboundary
    -- what begins at `j` would be a longer suffix
    obtain ⟨b, a, hab, rfl⟩ := isCharBoundary_iff.mp hboundary
    have hsum' : (utf8 b).length + byteLen a = byteLen text := by
      rw [← byteLen_eq, ← byteLen_append, hab]
    have hshorter := hlongest a (hab ▸ List.suffix_append b a) (by omega)
    have hle := byteLen_le_of_infix hshorter.isInfix
    omega

theorem tailOrPanic_eq (text : List Char) (n : Nat) : tailOrPanic text n = some (tail text n) := by
  unfold tailOrPanic tail
  rw [← byteLen_eq]
  by_cases hn : byteLen text ≤ n
  · rw [if_pos hn, if_pos hn]
  · have hk : byteLen text - n ≤ byteLen text := Nat.sub_le _ _
    obtain ⟨before, htext⟩ := (dropBytes_longest hk).isSuffix
    rw [if_neg hn, if_neg hn, subOrPanic, if_pos (by omega)]
    simp only [Option.bind_some, find_boundary hk htext, Option.getD_some]
    have hslice : sliceFrom text (byteLen before) = some (dropBytes (byteLen text - n) text) := by
      rw [sliceFrom_eq_some]
      exact ⟨before, htext.symm, byteLen_eq before⟩
    rw [hslice]
    rfl

/-! ## tail -/

/-- `tail` of a long text is its end. -/
theorem tail_append {before after : List Char} {n : Nat} (hne : before ≠ []) (hlen : byteLen after = n) :
    tail (before ++ after) n = trim after := by
  have hpos : 0 < byteLen before := by
    cases before with
    | nil => exact absurd rfl hne
    | cons c cs => exact Nat.lt_of_lt_of_le c.utf8Size_pos (Nat.le_add_right _ _)
  have hsum : byteLen (before ++ after) = byteLen before + n := by rw [byteLen_append, hlen]
  rw [tail, if_neg (by omega), hsum, Nat.add_sub_cancel, dropBytes_append]

/-- The part of the text that `tail` trims. -/
theorem tail_eq_trim (text : List Char) (n : Nat) :
    ∃ l, IsLongestSuffix (fun s => byteLen s ≤ n) text l ∧ tail text n = trim l := by
  by_cases hn : byteLen text ≤ n
  · refine ⟨text, IsLongestSuffix.self hn, ?_⟩
    rw [tail, if_pos hn]
  · obtain ⟨hsuffix, hholds, hlongest⟩ := dropBytes_longest (Nat.sub_le (byteLen text) n)
    refine ⟨dropBytes (byteLen text - n) text, ⟨hsuffix, by omega, fun t ht hle => ?_⟩, ?_⟩
    · exact hlongest t ht (by omega)
    · rw [tail, if_neg hn]

/-- For every text and every limit `tail` returns, and returns, trimmed, the longest
    suffix of the text that begins at a character boundary and takes at most `n` bytes;
    so a contiguous part of the text, of at most `n` bytes. -/
theorem tail_longest (text : List Char) (n : Nat) :
    ∃ l, IsLongestSuffix (fun bytes => FromBoundary text bytes ∧ bytes.length ≤ n) (utf8 text) (utf8 l) ∧
      l <:+ text ∧
      tailOrPanic text n = some (trim l) ∧
      tail text n = trim l ∧
      tail text n <:+: text ∧
      (utf8 (tail text n)).length ≤ n := by
  obtain ⟨l, hl, htail⟩ := tail_eq_trim text n
  have hpart := trim_infix l
  have hle := byteLen_le_of_infix hpart
  refine ⟨l, ?_, hl.isSuffix, ?_, htail, ?_, ?_⟩
  · apply IsLongestSuffix.encode
    simpa only [byteLen_eq] using hl
  · rw [tailOrPanic_eq, htail]
  · rw [htail]
    exact hpart.trans hl.isSuffix.isInfix
  · rw [htail, ← byteLen_eq]
    exact Nat.le_trans hle hl.holds

/-- A limit that falls inside a character leaves out all of it. -/
example : tail ['a', '🦀', 'b'] 3 = ['b'] := by decide

end SoroFuzz.Runner
