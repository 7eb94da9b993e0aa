/-
  SoroFuzz.Runner.Iterations — what `parse_iterations` reads off libFuzzer's output.

  `COUNTER_RE` and `DONE_RUNS_RE` search the whole text, stdout and stderr in one. `reported`
  says what they find without a search: the number of the first `Done N runs in`, or else
  the largest of those that begin a line.

  Proved:
  - `counterRe_lineWise`: `COUNTER_RE` matches once on each line that begins `#N`, where no
    word goes on behind the digits.
  - `first_doneRunsRe`: from where `DONE_RUNS_RE` matches, and what it captures there.
  - `iterations_reported`: so `parse_iterations` returns what is `reported`, which is a
    count that fits an `i64`, for every text.
-/

import SoroFuzz.Lib.Lines
import SoroFuzz.Runner.RoundTrip

namespace SoroFuzz.Runner

open Lib
open Lib.Regex (AtStart AtEnd LineWise)

variable (U : Unicode)

/-- The digits of the `#N` that the line begins with. -/
def counterOf (line : List Char) : Option (List Char) :=
  let ds := (line.drop 1).takeWhile U.digit
  let after := (line.drop 1).dropWhile U.digit
  if line.head? = some '#' ∧ ds ≠ [] ∧ after.head?.any U.word = false then some ds else none

/-- The digits of the `Done N runs in` that the text begins with. -/
def doneOf (s : List Char) : Option (List Char) :=
  let ds := (s.drop 5).takeWhile U.digit
  let after := (s.drop 5).dropWhile U.digit
  if "Done ".toList <+: s ∧ ds ≠ [] ∧ (" run in".toList <+: after ∨ " runs in".toList <+: after) then some ds else none

def reported (text : List Char) : Int :=
  let done := (text.tails.findSome? (doneOf U)).bind (parseInt 64)
  let counters := (text.splitOn '\n').filterMap fun line => (counterOf U line).bind (parseInt 64)
  done.getD (counters.max?.getD 0)

variable {U : Unicode}

/-! ## A run of digits -/

theorem span_digits {p : Char → Bool} {ds rest : List Char} (hds : ∀ c ∈ ds, p c = true)
    (hrest : rest.head?.any p = false) :
    (ds ++ rest).takeWhile p = ds ∧ (ds ++ rest).dropWhile p = rest := by
  rw [List.takeWhile_append_of_pos hds, List.dropWhile_append_of_pos hds]
  cases rest with
  | nil => simp
  | cons c rest =>
    have hc : p c = false := hrest
    simp [hc]

theorem digits_of_takeWhile {p : Char → Bool} {s : List Char} : ∀ c ∈ s.takeWhile p, p c = true :=
  fun _ hc => List.mem_takeWhile_imp hc

theorem not_digit {c : Char} (hc : c.toNat < 128) (hd : c.isDigit = false) : U.digit c = false := by
  rw [U.digit_ascii c hc, hd]

theorem not_word_newline : U.word '\n' = false := by
  rw [U.word_ascii _ (by decide)]
  decide

/-- What ends a word ends a number. -/
theorem head_not_digit (hU : ∀ c, U.digit c = true → U.word c = true) {s : List Char}
    (h : s.head?.any U.word = false) : s.head?.any U.digit = false := by
  cases s with
  | nil => rfl
  | cons c s =>
    have hc : U.word c = false := h
    show U.digit c = false
    by_contra hne
    rw [hU c (by simpa using hne)] at hc
    cases hc

/-! ## COUNTER_RE -/

theorem counterOf_eq_some (hU : ∀ c, U.digit c = true → U.word c = true) {line ds : List Char} :
    counterOf U line = some ds ↔ ∃ rest, line = '#' :: (ds ++ rest) ∧ ds ≠ [] ∧ (∀ c ∈ ds, U.digit c = true) ∧
      rest.head?.any U.word = false := by
  constructor
  · intro h
    unfold counterOf at h
    dsimp only at h
    split at h
    · rename_i hc
      obtain ⟨hhead, hne, hafter⟩ := hc
      cases h
      obtain ⟨t, rfl⟩ := List.head?_eq_some_iff.mp hhead
      exact ⟨_, congrArg _ List.takeWhile_append_dropWhile.symm, hne, digits_of_takeWhile, hafter⟩
    · cases h
  · rintro ⟨rest, rfl, hne, hds, hrest⟩
    obtain ⟨htake, hdrop⟩ := span_digits hds (head_not_digit hU hrest)
    unfold counterOf
    simp only [List.drop_succ_cons, List.drop_zero, htake, hdrop]
    exact if_pos ⟨rfl, hne, hrest⟩

theorem mem_counterRe (hU : ∀ c, U.digit c = true → U.word c = true) {prev : Option Char} {s : List Char} {m : Match}
    (h : m ∈ (counterRe U).ways prev s) : AtStart prev ∧ ∃ ds rest, s = '#' :: (ds ++ rest) ∧ ds ≠ [] ∧
      (∀ c ∈ ds, U.digit c = true) ∧ rest.head?.any U.word = false := by
  obtain ⟨a, b, ha, hb, rfl⟩ := Regex.mem_seq h
  rw [Regex.ways] at ha
  split at ha
  · rename_i hstart
    rw [List.mem_singleton.mp ha] at hb
    obtain ⟨c, d, hc, hd, rfl⟩ := Regex.mem_seq hb
    obtain ⟨hs, hct, -⟩ := Regex.mem_lit hc
    obtain ⟨e, g, he, hg, rfl⟩ := Regex.mem_seq hd
    obtain ⟨e', he', rfl⟩ := Regex.mem_group he
    obtain ⟨hrest, -, hne, hds⟩ := Regex.mem_runs he'
    refine ⟨hstart, e'.text, e'.rest, ?_, hne, hds, ?_⟩
    · rw [← hrest]
      exact hs
    · -- The last digit is of a word, so the word ends there.
      rw [Regex.ways] at hg
      split at hg
      · rename_i hedge
        have hlast : e'.text.getLast? = some (e'.text.getLast hne) := List.getLast?_eq_getLast_of_ne_nil hne
        have hword : U.word (e'.text.getLast hne) = true := hU _ (hds _ (List.getLast_mem hne))
        simp only [hlast, Option.some_or, Option.any_some, hword] at hedge
        cases hw : e'.rest.head?.any U.word with
        | false => rfl
        | true => exact absurd hw.symm hedge
      · cases hg
  · cases ha

theorem first_counterRe (hU : ∀ c, U.digit c = true → U.word c = true) {prev : Option Char} (hprev : AtStart prev)
    {ds rest : List Char} (hne : ds ≠ []) (hds : ∀ c ∈ ds, U.digit c = true) (hrest : rest.head?.any U.word = false) :
    (counterRe U).first prev ('#' :: (ds ++ rest)) = some ⟨'#' :: ds, [ds], rest⟩ := by
  have hlast : ds.getLast? = some (ds.getLast hne) := List.getLast?_eq_getLast_of_ne_nil hne
  have hword : U.word (ds.getLast hne) = true := hU _ (hds _ (List.getLast_mem hne))
  have hstop : ∀ c, rest.head? = some c → U.digit c = false := by
    intro c hc
    have := head_not_digit hU hrest
    rwa [hc] at this
  have hstart : (Regex.lineStart).first prev ('#' :: (ds ++ rest)) = some ⟨[], [], '#' :: (ds ++ rest)⟩ := by
    unfold Regex.first Regex.ways
    exact congrArg List.head? (if_pos hprev)
  have hedge : ∀ p, (Regex.wordEdge U.word).first (ds.getLast?.or p) rest = some ⟨[], [], rest⟩ := by
    intro p
    unfold Regex.first Regex.ways
    rw [hlast, Option.some_or, Option.any_some, hword, hrest]
    rfl
  have hdigits : ∀ p, (Regex.group (.many U.digit)).first p (ds ++ rest) = some ⟨ds, [ds], rest⟩ := fun p =>
    Regex.first_group (m := ⟨ds, [], rest⟩) (Regex.first_many p hne hds hstop)
  have h2 := fun p => Regex.first_seq (hdigits p) (hedge p)
  have h1 := fun p => Regex.first_seq (Regex.first_lit ['#'] (ds ++ rest) p) (h2 _)
  have h := Regex.first_seq hstart (h1 _)
  simp only [List.nil_append, List.append_nil] at h
  exact h

/-- A line's number is told from the line. -/
theorem counterRe_lineWise (hU : ∀ c, U.digit c = true → U.word c = true) :
    LineWise (counterRe U) fun line => (counterOf U line).map fun ds => [ds] where
  inner prev s hprev := by
    cases hf : (counterRe U).first prev s with
    | none => rfl
    | some m => exact absurd (mem_counterRe hU (Regex.first_mem hf)).1 hprev
  miss prev line rest hprev hl hr hf := by
    cases hm : (counterRe U).first prev (line ++ rest) with
    | none => rfl
    | some m =>
      obtain ⟨-, ds, after, hs, hne, hds, hafter⟩ := mem_counterRe hU (Regex.first_mem hm)
      have hcounter : counterOf U line = some ds := by
        refine (counterOf_eq_some hU).mpr ?_
        rcases List.append_eq_append_iff.mp (show line ++ rest = ('#' :: ds) ++ after from hs) with
          ⟨a, ha, hrest⟩ | ⟨c, rfl, hrest⟩
        · -- The number does not go on behind the line.
          cases a with
          | nil => exact ⟨[], by rw [← List.append_nil line, ← ha, List.append_nil], hne, hds, rfl⟩
          | cons b a =>
            have hb : b = '\n' := by
              rcases hr with rfl | ⟨t, rfl⟩
              · cases hrest
              · exact (List.cons.inj hrest).1.symm
            have hmem : '\n' ∈ '#' :: ds := by
              rw [ha, hb]
              simp
            rcases List.mem_cons.mp hmem with heq | hm
            · exact absurd heq (by decide)
            · have := hds _ hm
              rw [not_digit (by decide) (by decide)] at this
              cases this
        · refine ⟨c, rfl, hne, hds, ?_⟩
          cases c with
          | nil => rfl
          | cons b c =>
            rw [hrest] at hafter
            exact hafter
      rw [hcounter] at hf
      cases hf
  hit prev line rest g hprev hl hr hf := by
    obtain ⟨ds, hcounter, rfl⟩ := Option.map_eq_some_iff.mp hf
    obtain ⟨line', rfl, hne, hds, hline'⟩ := (counterOf_eq_some hU).mp hcounter
    refine ⟨'#' :: ds, line', by simp, by simp, ?_⟩
    have hrest : (line' ++ rest).head?.any U.word = false := by
      cases line' with
      | nil =>
        rcases hr with rfl | ⟨t, rfl⟩
        · rfl
        · exact not_word_newline
      | cons c line' => exact hline'
    have hfirst := first_counterRe hU hprev hne hds hrest
    simpa using hfirst

/-! ## DONE_RUNS_RE -/

/-- The text begins `Done N runs in`, or `Done N run in`. -/
def SaysDone (U : Unicode) (s ds : List Char) : Prop :=
  ∃ after, s = "Done ".toList ++ (ds ++ after) ∧ ds ≠ [] ∧ (∀ c ∈ ds, U.digit c = true) ∧
    (" run in".toList <+: after ∨ " runs in".toList <+: after)

theorem head_of_run {after : List Char} (h : " run in".toList <+: after ∨ " runs in".toList <+: after) :
    after.head? = some ' ' := by
  rcases h with ⟨t, rfl⟩ | ⟨t, rfl⟩ <;> rfl

theorem doneOf_eq_some {s ds : List Char} : doneOf U s = some ds ↔ SaysDone U s ds := by
  constructor
  · intro h
    unfold doneOf at h
    dsimp only at h
    split at h
    · rename_i hc
      obtain ⟨⟨t, rfl⟩, hne, hafter⟩ := hc
      cases h
      refine ⟨_, ?_, hne, digits_of_takeWhile, hafter⟩
      rw [List.takeWhile_append_dropWhile]
      rfl
    · cases h
  · rintro ⟨after, rfl, hne, hds, hafter⟩
    have hspan : (ds ++ after).takeWhile U.digit = ds ∧ (ds ++ after).dropWhile U.digit = after := by
      refine span_digits hds ?_
      rw [head_of_run hafter]
      exact not_digit (by decide) (by decide)
    have hdrop : ("Done ".toList ++ (ds ++ after)).drop 5 = ds ++ after := rfl
    unfold doneOf
    simp only [hdrop, hspan.1, hspan.2]
    exact if_pos ⟨List.prefix_append _ _, hne, hafter⟩

theorem mem_doneRunsRe {prev : Option Char} {s : List Char} {m : Match} (h : m ∈ (doneRunsRe U).ways prev s) :
    ∃ ds, m.groups = [ds] ∧ SaysDone U s ds := by
  obtain ⟨a, b, ha, hb, rfl⟩ := Regex.mem_seq h
  obtain ⟨hs, -, hag⟩ := Regex.mem_lit ha
  obtain ⟨c, d, hc, hd, rfl⟩ := Regex.mem_seq hb
  obtain ⟨c', hc', rfl⟩ := Regex.mem_group hc
  obtain ⟨hcs, hcg, hne, hds⟩ := Regex.mem_runs hc'
  obtain ⟨e, g, he, hg, rfl⟩ := Regex.mem_seq hd
  obtain ⟨hes, -, heg⟩ := Regex.mem_lit he
  obtain ⟨i, j, hi, hj, rfl⟩ := Regex.mem_seq hg
  obtain ⟨hjs, -, hjg⟩ := Regex.mem_lit hj
  have hopt : (e.rest = i.rest ∨ e.rest = 's' :: i.rest) ∧ i.groups = [] := by
    rw [Regex.ways] at hi
    rcases List.mem_append.mp hi with hi | hi
    · obtain ⟨his, -, hig⟩ := Regex.mem_lit hi
      exact ⟨Or.inr his, hig⟩
    · rw [List.mem_singleton.mp hi]
      exact ⟨Or.inl rfl, rfl⟩
  refine ⟨c'.text, ?_, c'.rest, ?_, hne, hds, ?_⟩
  · simp only [hag, hcg, heg, hopt.2, hjg, List.nil_append, List.append_nil]
  · rw [← hcs]
    exact hs
  · have hcr : c'.rest = " run".toList ++ e.rest := hes
    rw [hcr]
    rcases hopt.1 with he | he <;> rw [he, hjs]
    · exact Or.inl ⟨j.rest, rfl⟩
    · exact Or.inr ⟨j.rest, rfl⟩

theorem first_of_saysDone {s ds : List Char} (h : SaysDone U s ds) (prev : Option Char) :
    ∃ m, (doneRunsRe U).first prev s = some m := by
  obtain ⟨after, rfl, hne, hds, hafter⟩ := h
  have hdigits : ∀ p, (Regex.group (.many U.digit)).first p (ds ++ after) = some ⟨ds, [ds], after⟩ := by
    intro p
    refine Regex.first_group (m := ⟨ds, [], after⟩) (Regex.first_many p hne hds fun c hc => ?_)
    rw [head_of_run hafter] at hc
    cases hc
    exact not_digit (by decide) (by decide)
  have hrun : ∀ p, ∃ m, (Regex.seq (lit " run") (.seq (.opt (lit "s")) (lit " in"))).first p after = some m := by
    intro p
    rcases hafter with ⟨t, rfl⟩ | ⟨t, rfl⟩
    · exact ⟨_, rfl⟩
    · exact ⟨_, rfl⟩
  obtain ⟨m, hm⟩ := hrun (ds.getLast?.or ("Done ".toList.getLast?.or prev))
  exact ⟨_, Regex.first_seq (Regex.first_lit "Done ".toList (ds ++ after) prev) (Regex.first_seq (hdigits _) hm)⟩

theorem first_doneRunsRe (prev : Option Char) (s : List Char) :
    ((doneRunsRe U).first prev s).map Match.groups = (doneOf U s).map fun ds => [ds] := by
  cases hm : (doneRunsRe U).first prev s with
  | some m =>
    obtain ⟨ds, hg, hdone⟩ := mem_doneRunsRe (Regex.first_mem hm)
    rw [doneOf_eq_some.mpr hdone, Option.map_some, Option.map_some, hg]
  | none =>
    cases hd : doneOf U s with
    | none => rfl
    | some ds =>
      obtain ⟨m, hfirst⟩ := first_of_saysDone (doneOf_eq_some.mp hd) prev
      rw [hm] at hfirst
      cases hfirst

/-! ## parse_iterations -/

/-- A number that the text shows in digits. -/
theorem parseInt_count {w : Nat} {ds : List Char} (hds : ∀ c ∈ ds, U.digit c = true) {n : Int}
    (h : parseInt w ds = some n) : 0 ≤ n ∧ n < 2 ^ (w - 1) := by
  unfold parseInt at h
  obtain ⟨hvalue, hrange⟩ := Option.filter_eq_some_iff.mp h
  refine ⟨?_, (of_decide_eq_true hrange).2⟩
  have hdigits : ∀ {s : List Char} {k : Int}, parseDigits s = some k → 0 ≤ k := by
    intro s k hk
    unfold parseDigits at hk
    split at hk
    · cases hk
      exact Int.natCast_nonneg _
    · cases hk
  split at hvalue
  · have := hds '-' List.mem_cons_self
    rw [not_digit (by decide) (by decide)] at this
    cases this
  · exact hdigits hvalue
  · exact hdigits hvalue

theorem doneOf_count {text : List Char} {n : Int}
    (h : (text.tails.findSome? (doneOf U)).bind (parseInt 64) = some n) : 0 ≤ n ∧ n < 2 ^ 63 := by
  obtain ⟨ds, hds, hn⟩ := Option.bind_eq_some_iff.mp h
  obtain ⟨s, -, hs⟩ := List.exists_of_findSome?_eq_some hds
  obtain ⟨_, -, -, hdigits, -⟩ := doneOf_eq_some.mp hs
  exact parseInt_count hdigits hn

theorem counters_count (hU : ∀ c, U.digit c = true → U.word c = true) {lines : List (List Char)} {n : Int}
    (h : (lines.filterMap fun line => (counterOf U line).bind (parseInt 64)).max? = some n) : 0 ≤ n ∧ n < 2 ^ 63 := by
  obtain ⟨line, -, hline⟩ := List.mem_filterMap.mp (List.max?_mem h)
  obtain ⟨ds, hds, hn⟩ := Option.bind_eq_some_iff.mp hline
  obtain ⟨_, -, -, hdigits, -⟩ := (counterOf_eq_some hU).mp hds
  exact parseInt_count hdigits hn

/-- The number that a match captured. -/
def captured (groups : List (List Char)) : Option Int := parseInt 64 (groups.getD 0 [])

theorem done_captured (text : List Char) : (((doneRunsRe U).captures text).bind fun caps => parseInt 64 (cap caps 1)) =
    (text.tails.findSome? (doneOf U)).bind (parseInt 64) := by
  calc ((doneRunsRe U).captures text).bind (fun caps => parseInt 64 (cap caps 1))
      = (((doneRunsRe U).captures text).map Match.groups).bind captured := by rw [Option.bind_map]; rfl
    _ = (text.tails.findSome? fun s => (doneOf U s).map fun ds => [ds]).bind captured := by
        rw [Regex.captures_tails rfl, List.map_findSome?]
        exact congrArg (fun f => (text.tails.findSome? f).bind captured) (funext fun s => first_doneRunsRe none s)
    _ = ((text.tails.findSome? (doneOf U)).map fun ds => [ds]).bind captured := by rw [List.map_findSome?]; rfl
    _ = (text.tails.findSome? (doneOf U)).bind (parseInt 64) := by rw [Option.bind_map]; rfl

theorem counters_captured (hU : ∀ c, U.digit c = true → U.word c = true) (text : List Char) :
    (((counterRe U).capturesIter text).filterMap fun c => parseInt 64 (cap c 1)) =
      (text.splitOn '\n').filterMap fun line => (counterOf U line).bind (parseInt 64) := by
  calc ((counterRe U).capturesIter text).filterMap (fun c => parseInt 64 (cap c 1))
      = (((counterRe U).capturesIter text).map Match.groups).filterMap captured := by rw [List.filterMap_map]; rfl
    _ = ((text.splitOn '\n').filterMap fun line => (counterOf U line).map fun ds => [ds]).filterMap captured := by
        rw [Regex.capturesIter_lines (counterRe_lineWise hU)]
    _ = (text.splitOn '\n').filterMap fun line => (counterOf U line).bind (parseInt 64) := by
        rw [List.filterMap_filterMap]
        refine List.filterMap_congr fun line _ => ?_
        cases counterOf U line <;> rfl

/-- What `parse_iterations` returns, for any output. -/
theorem iterations_reported (hU : ∀ c, U.digit c = true → U.word c = true) (text : List Char) :
    parseIterations U text = reported U text ∧ 0 ≤ reported U text ∧ reported U text < 2 ^ 63 := by
  refine ⟨?_, ?_⟩
  · unfold parseIterations reported
    simp only [done_captured, counters_captured hU]
    cases (text.tails.findSome? (doneOf U)).bind (parseInt 64) <;> rfl
  · unfold reported
    dsimp only
    cases hd : (text.tails.findSome? (doneOf U)).bind (parseInt 64) with
    | some n => exact doneOf_count hd
    | none =>
      cases hc : ((text.splitOn '\n').filterMap fun line => (counterOf U line).bind (parseInt 64)).max? with
      | none => exact ⟨Int.le_refl 0, by decide⟩
      | some n => exact counters_count hU hc

theorem asciiOnly_digit_word (c : Char) (h : asciiOnly.digit c = true) : asciiOnly.word c = true := by
  have hd : c.isDigit = true := h
  show (c.isAlphanum || c == '_') = true
  rw [Char.isAlphanum, hd]
  simp

/-- The run is cut short, and its last line is not a count. -/
theorem iterations_reported_pulse :
    parseIterations asciiOnly "#2\tINITED\n#4096\tpulse\n#8192x\n".toList = 4096 := by
  rw [(iterations_reported asciiOnly_digit_word _).1]
  decide

end SoroFuzz.Runner
