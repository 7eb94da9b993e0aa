/-
  SoroFuzz.Lib.CharBoundary — where a text can be cut: the byte positions between two
  characters of its encoding.

  The standard library decides this by the one byte at the position (`isCharBoundary`):
  it continues no character.

  Proved:
  - `isCharBoundary_iff`: the boundaries of a text are the lengths of what it begins with.
  - `sliceFrom_eq_some`: so slicing there leaves the rest of the text, and slicing
    anywhere else panics.
  - `IsLongestSuffix.encode`: the longest suffix of a text is that of its bytes, among those
    that begin at a boundary.
-/

import SoroFuzz.Lib.Utf8

namespace SoroFuzz.Lib

open String (utf8EncodeChar)

/-- `u8::is_utf8_char_boundary`. -/
def isUtf8CharBoundary (b : UInt8) : Bool := -0x40 ≤ b.toInt8

/-- `str::is_char_boundary`, of the text with these bytes. -/
def isCharBoundary (bytes : List UInt8) (index : Nat) : Bool :=
  if index = 0 then true
  else
    match bytes[index]? with
    | some b => isUtf8CharBoundary b
    | none => index = bytes.length

/-- `&text[start..]`, with `none` for its panic: the text that the bytes from `start` on
    encode. -/
def sliceFrom (text : List Char) (start : Nat) : Option (List Char) :=
  if isCharBoundary (utf8 text) start then
    ((utf8 text).drop start).toByteArray.utf8Decode?.map Array.toList
  else none

variable {text before after : List Char} {c : Char} {i : Nat}

/-! ## The bytes of one character -/

theorem isUtf8CharBoundary_iff {b : UInt8} : isUtf8CharBoundary b ↔ b.toNat < 0x80 ∨ 0xC0 ≤ b.toNat := by
  have hb := b.toNat_lt
  have hsigned : b.toInt8.toInt = if b.toNat < 0x80 then (b.toNat : Int) else b.toNat - 0x100 := by
    rw [← Int8.toInt_toBitVec, UInt8.toBitVec_toInt8, BitVec.toInt_eq_toNat_bmod, UInt8.toNat_toBitVec, Int.bmod_def]
    omega
  have hmin : (-0x40 : Int8).toInt = -0x40 := by decide
  rw [isUtf8CharBoundary, decide_eq_true_eq, Int8.le_iff_toInt_le, hsigned, hmin]
  omega

theorem isUtf8CharBoundary_ofNat {n : Nat} (hn : n < 0x100) :
    isUtf8CharBoundary (UInt8.ofNat n) ↔ n < 0x80 ∨ 0xC0 ≤ n := by
  rw [isUtf8CharBoundary_iff, UInt8.toNat_ofNat_of_lt' hn]

theorem lead_boundary {n : Nat} (hlead : 0xC0 ≤ n) (hn : n < 0x100) : isUtf8CharBoundary (UInt8.ofNat n) :=
  (isUtf8CharBoundary_ofNat hn).mpr (Or.inr hlead)

theorem continuation_not_boundary (n : Nat) : isUtf8CharBoundary (UInt8.ofNat (n % 0x40 + 0x80)) = false := by
  rw [← Bool.not_eq_true, isUtf8CharBoundary_ofNat (by omega)]
  omega

/-- Of a character's bytes the first, and only it, is one that a character begins with. -/
theorem utf8EncodeChar_boundary (c : Char) : ∃ first rest, utf8EncodeChar c = first :: rest ∧
    isUtf8CharBoundary first ∧ ∀ b ∈ rest, isUtf8CharBoundary b = false := by
  unfold utf8EncodeChar
  simp only
  -- one byte, two, three or four
  split
  · refine ⟨_, _, rfl, ?_, by simp⟩
    rw [isUtf8CharBoundary_ofNat (by omega)]
    omega
  · have hcont := continuation_not_boundary
    split
    · refine ⟨_, _, rfl, (isUtf8CharBoundary_ofNat ?_).mpr (Or.inr ?_), ?_⟩
      · omega
      · omega
      · rw [List.forall_mem_singleton]
        exact hcont _
    · split
      · refine ⟨_, _, rfl, lead_boundary (by omega) (by omega), ?_⟩
        rw [List.forall_mem_cons, List.forall_mem_singleton]
        exact ⟨hcont _, hcont _⟩
      · refine ⟨_, _, rfl, lead_boundary (by omega) (by omega), ?_⟩
        rw [List.forall_mem_cons, List.forall_mem_cons, List.forall_mem_singleton]
        exact ⟨hcont _, hcont _, hcont _⟩

/-! ## The boundaries of a text -/

theorem isCharBoundary_zero {bytes : List UInt8} : isCharBoundary bytes 0 := rfl

theorem isCharBoundary_nil : isCharBoundary [] i ↔ i = 0 := by
  simp [isCharBoundary]

/-- A position in the text's first character, past its first byte. -/
theorem not_isCharBoundary_inside (h0 : i ≠ 0) (hi : i < c.utf8Size) : ¬ isCharBoundary (utf8 (c :: text)) i := by
  obtain ⟨first, rest, hc, -, hrest⟩ := utf8EncodeChar_boundary c
  obtain ⟨j, rfl⟩ := Nat.exists_eq_succ_of_ne_zero h0
  have hlen : rest.length + 1 = c.utf8Size := by rw [← String.length_utf8EncodeChar, hc, List.length_cons]
  have hj : j < rest.length := by omega
  have hget : (utf8 (c :: text))[j + 1]? = some rest[j] := by
    rw [utf8_cons, hc, List.cons_append, List.getElem?_cons_succ, List.getElem?_append_left hj,
      List.getElem?_eq_getElem hj]
  rw [isCharBoundary, if_neg h0]
  simp only [Nat.succ_eq_add_one, hget, hrest _ (List.getElem_mem hj), Bool.false_eq_true, not_false_eq_true]

/-- Past the text's first character, the boundaries are those of the rest. -/
theorem isCharBoundary_past : isCharBoundary (utf8 (c :: text)) (c.utf8Size + i) ↔ isCharBoundary (utf8 text) i := by
  have hpos := c.utf8Size_pos
  have hget : (utf8 (c :: text))[c.utf8Size + i]? = (utf8 text)[i]? := by
    rw [utf8_cons, ← String.length_utf8EncodeChar, List.getElem?_append_right (by omega)]
    congr 1
    omega
  rw [isCharBoundary, if_neg (by omega)]
  simp only [hget]
  by_cases hi : i = 0
  · subst hi
    cases text with
    | nil => simp [isCharBoundary]
    | cons d text =>
      -- the next character's first byte
      obtain ⟨first, rest, hd, hfirst, -⟩ := utf8EncodeChar_boundary d
      simp [hd, hfirst, isCharBoundary]
  · rw [isCharBoundary, if_neg hi]
    cases (utf8 text)[i]? with
    | some b => rfl
    | none => simp

theorem isCharBoundary_iff :
    isCharBoundary (utf8 text) i ↔ ∃ before after, text = before ++ after ∧ i = (utf8 before).length := by
  induction text generalizing i with
  | nil =>
    rw [utf8_nil, isCharBoundary_nil]
    constructor
    · rintro rfl
      exact ⟨[], [], rfl, rfl⟩
    · rintro ⟨before, after, h, rfl⟩
      rw [(List.append_eq_nil_iff.mp h.symm).1]
      rfl
  | cons c text ih =>
    constructor
    · intro h
      by_cases h0 : i = 0
      · subst h0
        exact ⟨[], c :: text, rfl, rfl⟩
      · by_cases hi : i < c.utf8Size
        · exact absurd h (not_isCharBoundary_inside h0 hi)
        · obtain ⟨j, rfl⟩ := Nat.exists_eq_add_of_le (Nat.le_of_not_lt hi)
          obtain ⟨before, after, rfl, rfl⟩ := ih.mp (isCharBoundary_past.mp h)
          exact ⟨c :: before, after, rfl, by simp⟩
    · rintro ⟨before, after, h, rfl⟩
      cases before with
      | nil => exact isCharBoundary_zero
      | cons d before =>
        obtain ⟨rfl, htext⟩ := List.cons.inj h
        have hlen : (utf8 (c :: before)).length = c.utf8Size + (utf8 before).length := by
          rw [utf8_cons, List.length_append, String.length_utf8EncodeChar]
        rw [hlen, isCharBoundary_past]
        exact ih.mpr ⟨before, after, htext, rfl⟩

theorem isCharBoundary_append : isCharBoundary (utf8 (before ++ after)) (utf8 before).length :=
  isCharBoundary_iff.mpr ⟨before, after, rfl, rfl⟩

/-! ## Slicing -/

theorem sliceFrom_append : sliceFrom (before ++ after) (utf8 before).length = some after := by
  rw [sliceFrom, if_pos isCharBoundary_append, utf8_append, List.drop_left, utf8_toByteArray,
    List.utf8Decode?_utf8Encode]
  simp

theorem sliceFrom_eq_some :
    sliceFrom text i = some after ↔ ∃ before, text = before ++ after ∧ i = (utf8 before).length := by
  constructor
  · intro h
    by_cases hb : isCharBoundary (utf8 text) i
    · obtain ⟨before, after', rfl, rfl⟩ := isCharBoundary_iff.mp hb
      rw [sliceFrom_append] at h
      exact ⟨before, by rw [Option.some.inj h], rfl⟩
    · rw [sliceFrom, if_neg hb] at h
      cases h
  · rintro ⟨before, rfl, rfl⟩
    exact sliceFrom_append

/-! ## The longest suffix -/

/-- Of the suffixes of `s` in `P`, the one that ends in all the others. -/
structure IsLongestSuffix {α : Type} (P : List α → Prop) (s l : List α) : Prop where
  isSuffix : l <:+ s
  holds : P l
  longest : ∀ t, t <:+ s → P t → t <:+ l

theorem IsLongestSuffix.self {α : Type} {P : List α → Prop} {s : List α} (h : P s) : IsLongestSuffix P s s :=
  ⟨List.suffix_refl _, h, fun _ ht _ => ht⟩

/-- Where these bytes begin, as the last of the text's, is a character boundary. -/
def FromBoundary (text : List Char) (bytes : List UInt8) : Prop :=
  isCharBoundary (utf8 text) ((utf8 text).length - bytes.length)

theorem utf8_suffix (h : after <:+ text) : utf8 after <:+ utf8 text := by
  obtain ⟨before, rfl⟩ := h
  exact ⟨utf8 before, utf8_append.symm⟩

theorem fromBoundary_utf8 (h : after <:+ text) : FromBoundary text (utf8 after) := by
  obtain ⟨before, rfl⟩ := h
  have hlen : (utf8 (before ++ after)).length - (utf8 after).length = (utf8 before).length := by
    rw [utf8_append, List.length_append, Nat.add_sub_cancel]
  rw [FromBoundary, hlen]
  exact isCharBoundary_append

theorem FromBoundary.exists_utf8 {bytes : List UInt8} (hb : FromBoundary text bytes) (h : bytes <:+ utf8 text) :
    ∃ after, after <:+ text ∧ bytes = utf8 after := by
  obtain ⟨before, after, rfl, hlen⟩ := isCharBoundary_iff.mp hb
  refine ⟨after, List.suffix_append _ _, ?_⟩
  rw [List.suffix_iff_eq_drop.mp h, hlen, utf8_append, List.drop_left]

theorem IsLongestSuffix.encode {P : List UInt8 → Prop} (h : IsLongestSuffix (fun s => P (utf8 s)) text after) :
    IsLongestSuffix (fun bytes => FromBoundary text bytes ∧ P bytes) (utf8 text) (utf8 after) where
  isSuffix := utf8_suffix h.isSuffix
  holds := ⟨fromBoundary_utf8 h.isSuffix, h.holds⟩
  longest := by
    rintro bytes hbytes ⟨hb, hP⟩
    obtain ⟨s, hs, rfl⟩ := hb.exists_utf8 hbytes
    exact utf8_suffix (h.longest s hs hP)

end SoroFuzz.Lib
