/-
  SoroFuzz.Lib.Utf8 — a text that shows bytes: the characters they encode, in order, with
  a replacement character for what encodes none.

  `Shows` leaves open how many bytes that encode no character share one replacement
  character, as decoders differ in that.

  Proved:
  - `shows_utf8_iff`: a text's encoding is shown by that text alone.
  - `shows_nil_iff`: the empty text shows no bytes but none.
-/

import Mathlib.Data.List.Basic

namespace SoroFuzz.Lib

open String (utf8EncodeChar)

def utf8 (text : List Char) : List UInt8 := text.flatMap utf8EncodeChar

def Begins (bytes : List UInt8) : Prop := ∃ c rest, bytes = utf8EncodeChar c ++ rest

inductive Shows : List UInt8 → List Char → Prop
  | nil : Shows [] []
  | char (c : Char) {bytes : List UInt8} {text : List Char} : Shows bytes text →
      Shows (utf8EncodeChar c ++ bytes) (c :: text)
  /-- No character begins at any of the bytes `bad`. -/
  | replaced {bad bytes : List UInt8} {text : List Char} : bad ≠ [] →
      (∀ pre post, bad = pre ++ post → post ≠ [] → ¬ Begins (post ++ bytes)) → Shows bytes text →
      Shows (bad ++ bytes) ('\uFFFD' :: text)

variable {bytes rest rest' : List UInt8} {text : List Char} {c c' : Char}

@[simp] theorem utf8_nil : utf8 [] = [] := rfl

@[simp] theorem utf8_cons : utf8 (c :: text) = utf8EncodeChar c ++ utf8 text := rfl

theorem utf8_append {text' : List Char} : utf8 (text ++ text') = utf8 text ++ utf8 text' := List.flatMap_append

theorem utf8_toByteArray : (utf8 text).toByteArray = text.utf8Encode := rfl

/-- No encoding begins another. -/
theorem utf8EncodeChar_append_inj (h : utf8EncodeChar c ++ rest = utf8EncodeChar c' ++ rest') :
    c = c' ∧ rest = rest' := by
  have hdecode : some c = some c' := by
    rw [← ByteArray.utf8DecodeChar?_utf8EncodeChar_append (b := rest.toByteArray),
      ← ByteArray.utf8DecodeChar?_utf8EncodeChar_append (b := rest'.toByteArray), ← List.toByteArray_append,
      ← List.toByteArray_append, h]
  cases hdecode
  exact ⟨rfl, List.append_cancel_left h⟩

theorem shows_utf8 (text : List Char) : Shows (utf8 text) text := by
  induction text with
  | nil => exact .nil
  | cons c text ih => exact .char c ih

theorem shows_nil_iff : Shows bytes [] ↔ bytes = [] := by
  constructor
  · intro h
    cases h
    rfl
  · rintro rfl
    exact .nil

theorem Shows.eq_of_utf8 (h : Shows bytes text) {chars : List Char} (hb : bytes = utf8 chars) : text = chars := by
  induction h generalizing chars with
  | nil =>
    cases chars with
    | nil => rfl
    | cons c chars => exact absurd (List.append_eq_nil_iff.mp hb.symm).1 String.utf8EncodeChar_ne_nil
  | char c _ ih =>
    cases chars with
    | nil => exact absurd (List.append_eq_nil_iff.mp hb).1 String.utf8EncodeChar_ne_nil
    | cons c' chars =>
      obtain ⟨rfl, hrest⟩ := utf8EncodeChar_append_inj hb
      rw [ih hrest]
  | replaced hne hbad _ _ =>
    cases chars with
    | nil => exact absurd (List.append_eq_nil_iff.mp hb).1 hne
    | cons c chars => exact absurd ⟨c, utf8 chars, hb⟩ (hbad [] _ rfl hne)

theorem shows_utf8_iff {chars : List Char} : Shows (utf8 chars) text ↔ text = chars := by
  constructor
  · exact fun h => h.eq_of_utf8 rfl
  · rintro rfl
    exact shows_utf8 _

end SoroFuzz.Lib
