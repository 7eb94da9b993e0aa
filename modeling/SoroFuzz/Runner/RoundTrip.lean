/-
  SoroFuzz.Runner.RoundTrip — what `parse` recovers of the violation the harness panicked
  with.

  The message is what `.+` matches, so it ends with the line, and there must be some of
  it.

  Proved:
  - `parse_line`: when the message's first line is not empty, `parse` recovers the name,
    the step and that line, trimmed, whatever comes before and after.
  - `violation_recovered_iff`: so it recovers every violation whose message is, but for
    white space, its first line, and no other.
  - `multiline_not_recovered`: the text of a caught panic that goes on for a second line.
-/

import SoroFuzz.Core.Command
import SoroFuzz.Runner.Tail

namespace SoroFuzz.Runner

open Lib
open SoroFuzz.Core (Violation)

/-! ## Text -/

/-- The text up to its first newline. -/
def firstLine (s : List Char) : List Char := s.takeWhile (· ≠ '\n')

theorem firstLine_split (s : List Char) : ∃ rest, s = firstLine s ++ rest ∧ (rest = [] ∨ ∃ t, rest = '\n' :: t) := by
  refine ⟨s.dropWhile (· ≠ '\n'), List.takeWhile_append_dropWhile.symm, ?_⟩
  cases h : s.dropWhile (· ≠ '\n') with
  | nil => exact Or.inl rfl
  | cons c t =>
    have hc := List.head?_dropWhile_not (· ≠ '\n') s
    rw [h] at hc
    exact Or.inr ⟨t, by simp at hc; rw [hc]⟩

theorem count_dropWhile {p : Char → Bool} {a : Char} (h : p a = false) (s : List Char) :
    (s.dropWhile p).count a = s.count a := by
  induction s with
  | nil => rfl
  | cons c cs ih =>
    rw [List.dropWhile_cons]
    split
    · rename_i hc
      rw [ih, List.count_cons_of_ne (by rintro rfl; rw [h] at hc; cases hc)]
    · rfl

/-- Trimming removes no other characters. -/
theorem count_trim {a : Char} (h : isWhitespace a = false) (s : List Char) : (trim s).count a = s.count a := by
  rw [trim, List.rdropWhile, List.count_reverse, count_dropWhile h, List.count_reverse, count_dropWhile h]

/-- A text without `c` does not reach across a `c`. -/
theorem prefix_of_prefix_append_cons {m a b : List Char} {c : Char} (hc : c ∉ m) (h : m <+: a ++ c :: b) : m <+: a := by
  rcases Nat.lt_or_ge a.length m.length with hlt | hle
  · have hpre : a ++ [c] <+: a ++ c :: b := ⟨b, by simp⟩
    have := List.prefix_of_prefix_length_le hpre h (by simpa using Nat.succ_le_of_lt hlt)
    exact absurd (this.subset (by simp)) hc
  · exact List.prefix_of_prefix_length_le h (List.prefix_append _ _) hle

theorem infix_of_infix_append_cons {m b : List Char} {c : Char} (hc : c ∉ m) :
    ∀ {a : List Char}, m <:+: a ++ c :: b → m <:+: a ∨ m <:+: b := by
  intro a
  induction a with
  | nil =>
    intro h
    rcases List.infix_cons_iff.mp h with h | h
    · exact Or.inl (prefix_of_prefix_append_cons (a := []) hc h).isInfix
    · exact Or.inr h
  | cons d a ih =>
    intro h
    rcases List.infix_cons_iff.mp h with h | h
    · exact Or.inl (prefix_of_prefix_append_cons (a := d :: a) hc h).isInfix
    · rcases ih h with h | h
      · exact Or.inl (List.infix_cons_iff.mpr (Or.inr h))
      · exact Or.inr h

/-- What comes before the first `c` is the same, and so is what comes after. -/
theorem append_cons_inj {a b s t : List Char} {c : Char} (ha : c ∉ a) (hb : c ∉ b) (h : a ++ c :: s = b ++ c :: t) :
    a = b ∧ s = t := by
  induction a generalizing b with
  | nil =>
    cases b with
    | nil => exact ⟨rfl, (List.cons.inj h).2⟩
    | cons d b => exact absurd (by rw [← (List.cons.inj h).1]; simp) hb
  | cons d a ih =>
    cases b with
    | nil => exact absurd (by rw [(List.cons.inj h).1]; simp) ha
    | cons e b =>
      obtain ⟨rfl, htail⟩ := List.cons.inj h
      obtain ⟨rfl, hs⟩ := ih (fun hm => ha (List.mem_cons_of_mem _ hm)) (fun hm => hb (List.mem_cons_of_mem _ hm)) htail
      exact ⟨rfl, hs⟩

/-! ## Where a violation's text begins -/

def opening : List Char := "invariant `".toList

/-- No occurrence of `opening` begins in a text that has none and ends after it, when
    `opening` follows: it does not overlap itself. -/
theorem opening_once {b t : List Char} (hb : b ≠ []) (h : ¬ opening <:+: b) : ¬ opening <+: b ++ (opening ++ t) := by
  intro hp
  rcases Nat.lt_or_ge b.length opening.length with hlt | hle
  · have hbo : b <+: opening := List.prefix_of_prefix_length_le (List.prefix_append _ _) hp (Nat.le_of_lt hlt)
    obtain ⟨c, hc⟩ := hbo
    have hc' : c <+: opening := by
      have hct : c <+: opening ++ t := by
        rw [← hc, List.prefix_append_right_inj] at hp
        rw [← hc]; exact hp
      exact List.prefix_of_prefix_length_le hct (List.prefix_append _ _) (by rw [← hc]; simp)
    have hdrop : c = opening.drop b.length := by rw [← hc]; simp
    have hnone : ∀ n, n < opening.length → n ≠ 0 → ¬ opening.drop n <+: opening := by decide
    exact hnone b.length hlt (by simpa using hb) (hdrop ▸ hc')
  · exact h (List.prefix_of_prefix_length_le hp (List.prefix_append _ _) hle).isInfix

/-! ## A violation's text -/

def atStep : List Char := " violated at step ".toList

/-- The text that `violationRe` matches, by what its groups hold. -/
def shown (name digits message : List Char) : List Char :=
  opening ++ (name ++ '`' :: (atStep ++ (digits ++ ':' :: ' ' :: message)))

def digitsOf (n : Nat) : List Char := Nat.toDigits 10 n

theorem toList_append_six (a b c d e f : String) : (a ++ b ++ c ++ d ++ e ++ f).toList =
    a.toList ++ (b.toList ++ (c.toList ++ (d.toList ++ (e.toList ++ f.toList)))) := by
  simp

theorem display_toList (v : Violation) :
    v.display.toList = shown v.invariant.toList (digitsOf v.stepIndex) v.message.toList := by
  have hdigits : (toString v.stepIndex).toList = digitsOf v.stepIndex := by simp [digitsOf]
  have h := toList_append_six "invariant `" v.invariant "` violated at step " (toString v.stepIndex) ": " v.message
  exact h.trans (congrArg (fun ds => opening ++
    (v.invariant.toList ++ '`' :: (atStep ++ (ds ++ ':' :: ' ' :: v.message.toList)))) hdigits)

variable {U : Unicode}

theorem shown_append (name digits message rest : List Char) :
    shown name digits message ++ rest = shown name digits (message ++ rest) := by
  simp [shown]

/-- What is matched is a violation's text. -/
theorem mem_violationRe {prev : Option Char} {s : List Char} {m : Match} (h : m ∈ (violationRe U).ways prev s) :
    ∃ name digits line, m.groups = [name, digits, line] ∧ m.text = shown name digits line ∧ '`' ∉ name ∧
      (∀ c ∈ digits, U.digit c = true) ∧ digits ≠ [] ∧ line ≠ [] ∧ '\n' ∉ line := by
  obtain ⟨a, b, ha, hb, rfl⟩ := Regex.mem_seq h
  obtain ⟨-, hat, hag⟩ := Regex.mem_lit ha
  obtain ⟨n, c, hn, hc, rfl⟩ := Regex.mem_seq hb
  obtain ⟨n', hn', rfl⟩ := Regex.mem_group hn
  obtain ⟨-, hng, -, hnp⟩ := Regex.mem_runs hn'
  obtain ⟨d, e, hd, he, rfl⟩ := Regex.mem_seq hc
  obtain ⟨-, hdt, hdg⟩ := Regex.mem_lit hd
  obtain ⟨k, f, hk, hf, rfl⟩ := Regex.mem_seq he
  obtain ⟨k', hk', rfl⟩ := Regex.mem_group hk
  obtain ⟨-, hkg, hkne, hkp⟩ := Regex.mem_runs hk'
  obtain ⟨g, l, hg, hl, rfl⟩ := Regex.mem_seq hf
  obtain ⟨-, hgt, hgg⟩ := Regex.mem_lit hg
  obtain ⟨l', hl', rfl⟩ := Regex.mem_group hl
  obtain ⟨-, hlg, hlne, hlp⟩ := Regex.mem_runs hl'
  refine ⟨n'.text, k'.text, l'.text, ?_, ?_, fun hm => ?_, hkp, hkne, hlne, fun hm => ?_⟩
  · simp only [hag, hng, hdg, hkg, hgg, hlg, List.nil_append, List.cons_append]
  · have ha : a.text = opening := hat
    have hd : d.text = '`' :: atStep := hdt
    have hg : g.text = [':', ' '] := hgt
    simp only [ha, hd, hg, shown, List.cons_append, List.nil_append]
  · simpa using hnp _ hm
  · simpa using hlp _ hm

/-- Nothing matches where `opening` does not begin. -/
theorem ways_violationRe_nil {prev : Option Char} {s : List Char} (h : ¬ opening <+: s) :
    (violationRe U).ways prev s = [] := by
  have hlit : (Regex.lit opening).ways prev s = [] := by
    rw [Regex.ways, if_neg (fun hp => h (List.isPrefixOf_iff_prefix.mp hp))]
  exact (congrArg (List.flatMap _) hlit).trans rfl

/-- A violation's text matches up to the end of its line, with no part backing off. -/
theorem first_violationRe {name digits line rest : List Char} (hname : name ≠ []) (hquote : '`' ∉ name)
    (hd : digits ≠ []) (hdigits : ∀ c ∈ digits, U.digit c = true) (hline : line ≠ []) (hnl : '\n' ∉ line)
    (hrest : rest = [] ∨ ∃ t, rest = '\n' :: t) (prev : Option Char) :
    (violationRe U).first prev (shown name digits line ++ rest) =
      some ⟨shown name digits line, [name, digits, line], rest⟩ := by
  have hcolon : U.digit ':' = false := by rw [U.digit_ascii _ (by decide)]; decide
  have hlines : ∀ prev, (Regex.group (.many (· ≠ '\n'))).first prev (line ++ rest) = some ⟨line, [line], rest⟩ :=
    fun prev => by
    refine Regex.first_group (m := ⟨line, [], rest⟩) (Regex.first_many prev hline (fun c hc => ?_) (fun c hc => ?_))
    · exact decide_eq_true (by rintro rfl; exact hnl hc)
    · rcases hrest with rfl | ⟨t, rfl⟩
      · cases hc
      · cases hc; decide
  have hnums : ∀ prev s, (Regex.group (.many U.digit)).first prev (digits ++ ':' :: s) =
    some ⟨digits, [digits], ':' :: s⟩ :=
    fun prev s => Regex.first_group (m := ⟨digits, [], ':' :: s⟩)
      (Regex.first_many prev hd hdigits (fun c hc => by cases hc; exact hcolon))
  have hnames : ∀ prev s, (Regex.group (.many (· ≠ '`'))).first prev (name ++ '`' :: s) =
    some ⟨name, [name], '`' :: s⟩ :=
    fun prev s => Regex.first_group (m := ⟨name, [], '`' :: s⟩) (Regex.first_many prev hname
      (fun c hc => decide_eq_true (by rintro rfl; exact hquote hc)) (fun c hc => by cases hc; decide))
  have h3 := fun prev => Regex.first_seq (Regex.first_lit [':', ' '] (line ++ rest) prev) (hlines _)
  have h2 := fun prev => Regex.first_seq (hnums prev (' ' :: (line ++ rest))) (h3 _)
  have h1 := fun prev => Regex.first_seq
    (Regex.first_lit ('`' :: atStep) (digits ++ ':' :: ' ' :: (line ++ rest)) prev) (h2 _)
  have h0 := fun prev => Regex.first_seq (hnames prev (atStep ++ (digits ++ ':' :: ' ' :: (line ++ rest)))) (h1 _)
  have h := Regex.first_seq (Regex.first_lit opening
    (name ++ '`' :: (atStep ++ (digits ++ ':' :: ' ' :: (line ++ rest)))) prev) (h0 _)
  have htext : shown name digits line ++ rest =
      opening ++ (name ++ '`' :: (atStep ++ (digits ++ ':' :: ' ' :: (line ++ rest)))) := by
    rw [shown_append]; rfl
  rw [htext]
  exact h

/-! ## What is recovered -/

theorem digitsOf_isDigit {n : Nat} {c : Char} (h : c ∈ digitsOf n) : c.isDigit = true :=
  Nat.isDigit_of_mem_toDigits (by decide) (by decide) h

theorem digitsOf_ne_nil (n : Nat) : digitsOf n ≠ [] := List.ne_nil_of_length_pos Nat.length_toDigits_pos

theorem digit_of_isDigit {c : Char} (h : c.isDigit = true) : U.digit c = true := by
  have hlt : c.toNat < 128 := by
    simp [Char.isDigit, UInt32.le_iff_toNat_le] at h
    exact Nat.lt_of_le_of_lt h.2 (by decide)
  rw [U.digit_ascii c hlt, h]

theorem parseInt_digitsOf {n : Nat} (h : n < 2 ^ 31) : parseInt 32 (digitsOf n) = some (n : Int) := by
  have hdigits : parseDigits (digitsOf n) = some (n : Int) := by
    have hall : (digitsOf n).all Char.isDigit = true := List.all_eq_true.mpr fun c hc => digitsOf_isDigit hc
    rw [parseDigits, if_pos ⟨digitsOf_ne_nil n, hall⟩, digitsOf, Nat.ofDigitChars_ten_toDigits]
  have hsign : ∀ c s, digitsOf n = c :: s → c ≠ '-' ∧ c ≠ '+' := by
    intro c s hc
    have hd := digitsOf_isDigit (n := n) (c := c) (by rw [hc]; exact List.mem_cons_self)
    constructor <;> rintro rfl <;> cases hd
  unfold parseInt
  split
  · rename_i ds e
    exact absurd rfl (hsign _ _ e).1
  · rename_i ds e
    exact absurd rfl (hsign _ _ e).2
  · rw [hdigits, Option.filter_some, if_pos]
    exact decide_eq_true ⟨by omega, by omega⟩

/-- A violation that a line of text can carry: its name can be told from the text around
    it, and its step is an `i32`. -/
structure Legible (v : Violation) : Prop where
  named : v.invariant ≠ ""
  unquoted : '`' ∉ v.invariant.toList
  oneLine : '\n' ∉ v.invariant.toList
  step : v.stepIndex < 2 ^ 31

variable {v : Violation} {before after : List Char}

/-- No match begins before the violation's text. -/
theorem captures_skip (hb : ¬ opening <:+: before) (name digits message : List Char) :
    ∃ prev, (violationRe U).captures (before ++ shown name digits message) = (violationRe U).find prev
      (shown name digits message) := by
  refine Regex.find_skip before none fun a b prev' e hne => ways_violationRe_nil (opening_once hne fun hin => hb ?_)
  exact hin.trans ⟨a, [], by rw [e]; simp⟩

theorem parse_line (hv : Legible v) (hb : ¬ opening <:+: before) (hline : firstLine v.message.toList ≠ []) :
    parseViolation U (before ++ shown v.invariant.toList (digitsOf v.stepIndex) (v.message.toList ++ '\n' :: after)) =
      some ⟨v.invariant, v.stepIndex, String.ofList (trim (firstLine v.message.toList))⟩ := by
  obtain ⟨rest, hsplit, hrest⟩ := firstLine_split v.message.toList
  have hnl : '\n' ∉ firstLine v.message.toList := fun hm => by simpa using List.mem_takeWhile_imp hm
  have hend : ∃ t, rest ++ '\n' :: after = '\n' :: t := by
    rcases hrest with rfl | ⟨t, rfl⟩
    · exact ⟨after, rfl⟩
    · exact ⟨_, rfl⟩
  have hfirst := first_violationRe (U := U) (by simpa using hv.named) hv.unquoted (digitsOf_ne_nil v.stepIndex)
    (fun c hc => digit_of_isDigit (digitsOf_isDigit hc)) hline hnl (Or.inr hend)
  obtain ⟨prev, hskip⟩ := captures_skip (U := U) hb v.invariant.toList (digitsOf v.stepIndex)
    (v.message.toList ++ '\n' :: after)
  have htext : shown v.invariant.toList (digitsOf v.stepIndex) (v.message.toList ++ '\n' :: after) =
      shown v.invariant.toList (digitsOf v.stepIndex) (firstLine v.message.toList) ++ (rest ++ '\n' :: after) := by
    rw [shown_append, ← List.append_assoc, ← hsplit]
  rw [parseViolation, hskip, htext, Regex.find_of_first (hfirst prev), Option.bind_some]
  simp only [cap, List.getD_cons_succ, List.getD_cons_zero, Nat.reduceSub, parseInt_digitsOf hv.step, Option.map_some,
    String.ofList_toList]

/-! ## What is not -/

theorem match_of_parseViolation {text : List Char} {w : ParsedViolation} (h : parseViolation U text = some w) :
    ∃ m, (violationRe U).captures text = some m ∧ w.invariant = String.ofList (cap m 1) ∧
      w.message = String.ofList (trim (cap m 3)) := by
  obtain ⟨m, hm, hw⟩ := Option.bind_eq_some_iff.mp h
  obtain ⟨n, -, rfl⟩ := Option.map_eq_some_iff.mp hw
  exact ⟨m, hm, rfl, rfl⟩

theorem ascii_notMem {digits : List Char} (h : ∀ c ∈ digits, U.digit c = true) {c : Char} (hc : c.toNat < 128)
    (hd : c.isDigit = false) : c ∉ digits := fun hm => by
  have := h _ hm
  rw [U.digit_ascii c hc, hd] at this
  cases this

theorem shown_eq (name digits line : List Char) :
    shown name digits line = "invariant ".toList ++ '`' ::
      (name ++ '`' :: (atStep ++ (digits ++ ':' :: ' ' :: line))) := rfl

theorem count_quote_shown {name digits line : List Char} (hname : '`' ∉ name) (hdigits : '`' ∉ digits) :
    (shown name digits line).count '`' = 2 + line.count '`' := by
  have ho : opening.count '`' = 1 := by decide
  have ha : atStep.count '`' = 0 := by decide
  simp [shown, List.count_eq_zero.mpr hname, List.count_eq_zero.mpr hdigits, ho, ha]
  omega

/-- Without a message, a violation's text has no match in it. -/
theorem shown_not_infix {name digits name' digits' line : List Char} (hname : '`' ∉ name) (hname' : '`' ∉ name')
    (hdigits : ∀ c ∈ digits, U.digit c = true) (hdigits' : ∀ c ∈ digits', U.digit c = true) (hline : line ≠ []) :
    ¬ shown name' digits' line <:+: shown name digits [] := by
  intro hm
  obtain ⟨x, y, h⟩ := hm
  have hcount := congrArg (List.count '`') h
  rw [List.count_append, List.count_append, count_quote_shown hname' (ascii_notMem hdigits' (by decide) (by decide)),
    count_quote_shown hname (ascii_notMem hdigits (by decide) (by decide)), List.count_nil] at hcount
  have hx : '`' ∉ x ++ "invariant ".toList := by
    have hx : '`' ∉ x := List.count_eq_zero.mp (by omega)
    simpa using hx
  -- Its two quotes are the match's two quotes, so the texts agree part by part.
  rw [List.append_assoc, shown_append, shown_eq, shown_eq, ← List.append_assoc x] at h
  obtain ⟨-, hafter⟩ := append_cons_inj hx (by decide) h
  obtain ⟨-, hstep⟩ := append_cons_inj hname' hname hafter
  rw [List.append_right_inj] at hstep
  have hmessage := (append_cons_inj (ascii_notMem hdigits' (by decide) (by decide))
    (ascii_notMem hdigits (by decide) (by decide)) hstep).2
  simp [hline] at hmessage

theorem byteLen_replicate {c : Char} (hc : c.utf8Size = 1) (n : Nat) : byteLen (List.replicate n c) = n := by
  induction n with
  | zero => rfl
  | succ n ih => rw [List.replicate_succ, byteLen, hc, ih, Nat.add_comm]

theorem shown_ne_nil (name digits line : List Char) : shown name digits line ≠ [] :=
  fun h => absurd (List.append_eq_nil_iff.mp h).1 (by decide)

/-- When enough follows a violation's text, `tail` has nothing of it. -/
theorem tail_following (before name digits message : List Char) {after : List Char} {n : Nat}
    (hlen : byteLen after = n) :
    tail (before ++ shown name digits (message ++ '\n' :: after)) n = trim after := by
  have hend : before ++ shown name digits (message ++ '\n' :: after) =
      (before ++ shown name digits (message ++ ['\n'])) ++ after := by
    rw [List.append_assoc, shown_append, List.append_assoc, List.cons_append, List.nil_append]
  rw [hend]
  exact tail_append (fun h => shown_ne_nil _ _ _ (List.append_eq_nil_iff.mp h).2) hlen

/-- A text of one line with more backticks than the message is not in what follows the
    header. -/
theorem not_infix_lines {text header message after : List Char} (hnl : '\n' ∉ text)
    (hline : firstLine message = []) (hafter : '`' ∉ after) (hcount : message.count '`' < text.count '`')
    (hheader : ¬ text <:+: header) : ¬ text <:+: header ++ (message ++ '\n' :: after) := by
  have hfollowing : ¬ text <:+: after := fun h => by
    have := h.sublist.count_le '`'
    rw [List.count_eq_zero.mpr hafter] at this
    omega
  obtain ⟨rest, hsplit, hrest⟩ := firstLine_split message
  rw [hline, List.nil_append] at hsplit
  intro hin
  rcases hrest with rfl | ⟨t, rfl⟩
  · rw [hsplit, List.nil_append] at hin
    rcases infix_of_infix_append_cons hnl hin with h | h
    · exact hheader h
    · exact hfollowing h
  · rw [hsplit, List.cons_append] at hin
    rcases infix_of_infix_append_cons hnl hin with h | h
    · exact hheader h
    · rcases infix_of_infix_append_cons hnl h with h | h
      · have := h.sublist.count_le '`'
        rw [hsplit, List.count_cons_of_ne (by decide)] at hcount
        omega
      · exact hfollowing h

/-- A match in what follows an empty first line has not the violation's message. -/
theorem lost_without_line (hv : Legible v) (hb : ¬ opening <:+: before) (hline : firstLine v.message.toList = [])
    (hafter : '`' ∉ after) {w : ParsedViolation}
    (hw : parseViolation U (before ++ shown v.invariant.toList (digitsOf v.stepIndex)
      (v.message.toList ++ '\n' :: after)) = some w)
    (hname : w.invariant = v.invariant) : w.message ≠ String.ofList (trim v.message.toList) := by
  intro hmessage
  obtain ⟨m, hm, hwn, hwm⟩ := match_of_parseViolation hw
  obtain ⟨prev, hskip⟩ := captures_skip (U := U) hb v.invariant.toList (digitsOf v.stepIndex)
    (v.message.toList ++ '\n' :: after)
  rw [hskip] at hm
  obtain ⟨x, prev', htext, hway⟩ := Regex.find_sound hm
  obtain ⟨name, digits, line, hgroups, hshown, hquote, hdigits, -, hlinene, hnl⟩ := mem_violationRe hway
  have hcap1 : cap m 1 = name := by rw [cap, hgroups]; rfl
  have hcap3 : cap m 3 = line := by rw [cap, hgroups]; rfl
  have hn : name = v.invariant.toList := by rw [← hname, hwn, hcap1, String.toList_ofList]
  have hcount : line.count '`' = v.message.toList.count '`' := by
    rw [hwm, hcap3] at hmessage
    have htrim := String.ofList_injective hmessage
    rw [← count_trim (by decide) line, htrim, count_trim (by decide)]
  have hdq : '`' ∉ digits := ascii_notMem hdigits (by decide) (by decide)
  have hmnl : '\n' ∉ m.text := by
    rw [hshown, shown_eq, hn]
    have hd : '\n' ∉ digits := ascii_notMem hdigits (by decide) (by decide)
    have hs : '\n' ∉ atStep := by decide
    simp [hv.oneLine, hd, hnl, hs]
  have hin : m.text <:+: shown v.invariant.toList (digitsOf v.stepIndex) (v.message.toList ++ '\n' :: after) := by
    rw [htext, ← List.append_assoc]; exact List.infix_append _ _ _
  have hquotes : m.text.count '`' = 2 + v.message.toList.count '`' := by
    rw [hshown, count_quote_shown hquote hdq, hcount]
  -- The match lies in one line.
  have hheader : ¬ m.text <:+: shown v.invariant.toList (digitsOf v.stepIndex) [] := by
    rw [hshown]
    exact shown_not_infix hv.unquoted hquote (fun c hc => digit_of_isDigit (digitsOf_isDigit hc)) hdigits hlinene
  rw [← List.nil_append (v.message.toList ++ _), ← shown_append] at hin
  exact not_infix_lines hmnl hline hafter (by omega) hheader hin

/-! ## The round trip -/

theorem output_toList (preceding following : String) : (preceding ++ v.display ++ "\n" ++ following).toList =
    preceding.toList ++ shown v.invariant.toList (digitsOf v.stepIndex)
      (v.message.toList ++ '\n' :: following.toList) := by
  have hnl : "\n".toList = ['\n'] := rfl
  simp only [String.toList_append, display_toList, hnl, List.append_assoc, List.cons_append, List.nil_append,
    ← shown_append]

theorem parse_finding {output : String} {code : Int} (h : code ≠ 0) : (parse U output (some code) false).finding =
    some ((parseViolation U output.toList).getD ⟨"undeclared_panic", 0, String.ofList (tail output.toList 2000)⟩) := by
  have hcrashed : (some code).any (· ≠ 0) = true := by simpa using h
  simp only [parse, hcrashed, Bool.not_false, Bool.and_self, if_true]

/-- The violation, in the shape that `parse` should give it. -/
def recovered (v : Violation) : ParsedViolation :=
  { invariant := v.invariant, stepIndex := v.stepIndex, message := String.ofList (trim v.message.toList) }

/-- Some text of `n` bytes is not `s`. -/
theorem exists_other (n : Nat) (hn : n ≠ 0) (s : List Char) :
    ∃ c : Char, (c = 'a' ∨ c = 'b') ∧ trim (List.replicate n c) ≠ s := by
  have htrim : ∀ c : Char, isWhitespace c = false → trim (List.replicate n c) = List.replicate n c := fun c hc => by
    rw [trim, List.dropWhile_eq_self_iff.mpr (by simp [hc]), List.rdropWhile_eq_self_iff.mpr (by simp [hc])]
  by_cases h : List.replicate n 'a' = s
  · refine ⟨'b', Or.inr rfl, fun hb => ?_⟩
    rw [htrim 'b' (by decide), ← h] at hb
    simp [List.replicate_inj, hn] at hb
  · exact ⟨'a', Or.inl rfl, by rw [htrim 'a' (by decide)]; exact h⟩

/-- Whatever follows, the violation is recovered, when the first line of its message is
    its message but for white space, and is not empty; and not otherwise. -/
theorem violation_recovered_iff (U : Unicode) (v : Violation) (hv : Legible v) (preceding : String)
    (hpre : ¬ opening <:+: preceding.toList) (code : Int) (hcode : code ≠ 0) :
    (∀ following : String,
      (parse U (preceding ++ v.display ++ "\n" ++ following) (some code) false).finding = some (recovered v)) ↔
    firstLine v.message.toList ≠ [] ∧ trim (firstLine v.message.toList) = trim v.message.toList := by
  simp only [parse_finding hcode, output_toList, Option.some_inj]
  constructor
  · intro h
    have hline : firstLine v.message.toList ≠ [] := by
      intro hline
      obtain ⟨c, hc, hother⟩ := exists_other 2000 (by decide) (trim v.message.toList)
      have hplain : c.utf8Size = 1 ∧ c ≠ '`' := by rcases hc with rfl | rfl <;> decide
      have hfound := h (String.ofList (List.replicate 2000 c))
      rw [String.toList_ofList] at hfound
      cases hw : parseViolation U (preceding.toList ++ shown v.invariant.toList (digitsOf v.stepIndex)
          (v.message.toList ++ '\n' :: List.replicate 2000 c)) with
      | none =>
        rw [hw, Option.getD_none] at hfound
        have hmessage := String.ofList_injective (congrArg ParsedViolation.message hfound)
        rw [tail_following _ _ _ _ (byteLen_replicate hplain.1 2000)] at hmessage
        exact hother hmessage
      | some w =>
        rw [hw, Option.getD_some] at hfound
        subst hfound
        refine lost_without_line hv hpre hline (fun hm => ?_) hw rfl rfl
        exact hplain.2 (List.eq_of_mem_replicate hm).symm
    refine ⟨hline, ?_⟩
    have hfound := h ""
    rw [parse_line hv hpre hline, Option.getD_some] at hfound
    exact String.ofList_injective (congrArg ParsedViolation.message hfound)
  · intro hex following
    obtain ⟨hline, htrim⟩ := hex
    rw [parse_line hv hpre hline, Option.getD_some, htrim]
    rfl

/-- A `CounterMatchesModel` violation in libFuzzer's output. -/
theorem counter_violation_recovered : (parse asciiOnly ("INFO: Seed: 42\n" ++
      Violation.display ⟨"counter-value-matches-model", "on-chain count 5 != model's expected count 4", 3⟩ ++
      "\n" ++ "note: run with `RUST_BACKTRACE=1` environment variable to display a backtrace\n")
        (some 77) false).finding =
    some ⟨"counter-value-matches-model", 3, "on-chain count 5 != model's expected count 4"⟩ :=
  (violation_recovered_iff asciiOnly ⟨"counter-value-matches-model", "on-chain count 5 != model's expected count 4", 3⟩
    ⟨by decide, by decide, by decide, by decide⟩ "INFO: Seed: 42\n" (by decide) 77 (by decide)).mpr
    ⟨by decide, by decide⟩ "note: run with `RUST_BACKTRACE=1` environment variable to display a backtrace\n"

/-- The panic of an `assert_eq!`, caught by the harness. -/
def assertPanic : Violation := ⟨"no-undeclared-panic", "assertion `left == right` failed\n  left: 5\n right: 4", 0⟩

theorem assertPanic_legible : Legible assertPanic := ⟨by decide, by decide, by decide, by decide⟩

/-- Its values, on the lines after the first, are lost. -/
theorem multiline_not_recovered : Legible assertPanic ∧ ¬ opening <:+: "INFO: Seed: 42\n".toList ∧
    (parse asciiOnly ("INFO: Seed: 42\n" ++ assertPanic.display ++ "\n" ++ "") (some 77) false).finding =
      some ⟨"no-undeclared-panic", 0, "assertion `left == right` failed"⟩ ∧
    recovered assertPanic = ⟨"no-undeclared-panic", 0, "assertion `left == right` failed\n  left: 5\n right: 4"⟩ := by
  refine ⟨assertPanic_legible, by decide, ?_, by decide⟩
  rw [parse_finding (by decide), output_toList, parse_line assertPanic_legible (by decide) (by decide)]
  decide

end SoroFuzz.Runner
