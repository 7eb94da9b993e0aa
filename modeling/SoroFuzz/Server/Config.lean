/-
  SoroFuzz.Server.Config — the configuration, read from the environment (`config.rs`).

  `env` is `env::var(..).ok()`; a path is its text. The integers are parsed as the
  standard library does it; parsing a `SocketAddr` is a parameter.

  Not modeled: the texts of `ConfigError`.

  Proved:
  - `parseUnsigned_ok_iff`: which texts are an unsigned integer, and which one.
  - `parseSandbox_ok_iff`: `FUZZ_SANDBOX` is the text of the one sandbox it selects.
  - `fromEnv_ok_iff`: which environments are accepted, and what is read from them.
-/

import Mathlib.Algebra.Order.Ring.Nat
import Mathlib.Data.List.TakeWhile
import SoroFuzz.Lib.Fallible

namespace SoroFuzz.Server

inductive ConfigError where
  | missing (name : String)
  | invalid (name value reason : String)
  deriving DecidableEq, Repr

/-- `Local` and `DockerExec`. -/
inductive SandboxKind where
  | direct
  | dockerExec (container : String)
  deriving DecidableEq, Repr

/-! ## str::parse of an unsigned integer -/

def invalidDigit : String := "invalid digit found in string"
def tooLarge : String := "number too large to fit in target type"

/-- The loop over the digits; `n` is the number so far. -/
def parseRest (w : Nat) : Nat → List Char → Except String Nat
  | n, [] => .ok n
  | n, c :: cs =>
    if c.isDigit then
      if 10 * n + (c.toNat - '0'.toNat) < 2 ^ w then parseRest w (10 * n + (c.toNat - '0'.toNat)) cs
      else .error tooLarge
    else .error invalidDigit

/-- `str::parse` for an unsigned integer of `w` bits. -/
def parseUnsigned (w : Nat) (s : String) : Except String Nat :=
  match s.toList with
  | [] => .error "cannot parse integer from empty string"
  | ['+'] => .error invalidDigit
  | '+' :: ds => parseRest w 0 ds
  | ds => parseRest w 0 ds

/-! ## parse_sandbox -/

/-- `str::split_once`. -/
def splitOnce (c : Char) (s : List Char) : Option (List Char × List Char) :=
  match s.dropWhile (· ≠ c) with
  | [] => none
  | _ :: rest => some (s.takeWhile (· ≠ c), rest)

def parseSandbox (raw : String) : Except ConfigError SandboxKind :=
  let invalid : Except ConfigError SandboxKind :=
    .error (.invalid "FUZZ_SANDBOX" raw "expected `local` or `docker-exec:<container-name>`")
  match splitOnce ':' raw.toList with
  | none => if raw = "local" then .ok .direct else invalid
  | some (kind, container) =>
    if kind = "docker-exec".toList ∧ container ≠ [] then .ok (.dockerExec (String.ofList container)) else invalid

/-! ## from_env -/

structure Config (A : Type) where
  databaseUrl : String
  httpAddr : A
  targetsDir : String
  defaultBudgetSecs : Nat
  maxConcurrentCampaigns : Nat
  rustToolchain : String
  fuzzSanitizer : Option String
  fuzzSandbox : SandboxKind
  fuzzWorkspaceDir : String
  jobTimeout : Nat
  logLevel : String
  deriving DecidableEq, Repr

/-- `Path::join` of a relative path. -/
def join (dir file : String) : String :=
  if dir = "" then file else if dir.toList.getLast? = some '/' then dir ++ file else dir ++ "/" ++ file

section env
variable {A T : Type} (parseAddr : String → Except String A) (env : String → Option String)

def required (name : String) : Except ConfigError String :=
  match env name with
  | some value => .ok value
  | none => .error (.missing name)

def parseDefault (parse : String → Except String T) (name default : String) : Except ConfigError T :=
  let raw := (env name).getD default
  match parse raw with
  | .ok value => .ok value
  | .error reason => .error (.invalid name raw reason)

def fromEnv : Except ConfigError (Config A) := do
  let targetsDir ← required env "TARGETS_DIR"
  let databaseUrl ← required env "DATABASE_URL"
  let httpAddr ← parseDefault env parseAddr "HTTP_ADDR" "0.0.0.0:8080"
  let defaultBudgetSecs ← parseDefault env (parseUnsigned 32) "DEFAULT_BUDGET_SECONDS" "60"
  let maxConcurrentCampaigns ← parseDefault env (parseUnsigned 64) "MAX_CONCURRENT_CAMPAIGNS" "2"
  let fuzzSandbox ← parseSandbox ((env "FUZZ_SANDBOX").getD "local")
  let jobTimeout ← parseDefault env (parseUnsigned 64) "JOB_TIMEOUT_SECONDS" "600"
  .ok
    { databaseUrl, httpAddr, targetsDir, defaultBudgetSecs, maxConcurrentCampaigns
      rustToolchain := (env "RUST_TOOLCHAIN").getD "nightly"
      fuzzSanitizer := (env "FUZZ_SANITIZER").filter (· ≠ "")
      fuzzSandbox
      fuzzWorkspaceDir := (env "FUZZ_WORKSPACE_DIR").getD (join (join targetsDir "..") "fuzz")
      jobTimeout
      logLevel := (env "LOG_LEVEL").getD "info" }

end env

/-! ## Integers -/

theorem le_ofDigitChars (cs : List Char) (n : Nat) : n ≤ Nat.ofDigitChars 10 cs n := by
  induction cs generalizing n with
  | nil => exact Nat.le_refl n
  | cons c cs ih =>
    rw [Nat.ofDigitChars_cons]
    have := ih (10 * n + (c.toNat - '0'.toNat))
    omega

/-- The number read so far never exceeds the whole, so a text is rejected for its size
    only when its number is too large. -/
theorem parseRest_ok_iff {w n m : Nat} {cs : List Char} (hn : n < 2 ^ w) :
    parseRest w n cs = .ok m ↔ cs.all Char.isDigit = true ∧ Nat.ofDigitChars 10 cs n = m ∧ m < 2 ^ w := by
  induction cs generalizing n with
  | nil =>
    rw [parseRest, Nat.ofDigitChars_nil, Except.ok.injEq]
    constructor
    · rintro rfl
      exact ⟨rfl, rfl, hn⟩
    · exact fun h => h.2.1
  | cons c cs ih =>
    rw [parseRest, List.all_cons, Nat.ofDigitChars_cons, Bool.and_eq_true]
    generalize hnext : 10 * n + (c.toNat - '0'.toNat) = next
    by_cases hc : c.isDigit = true
    · rw [if_pos hc]
      by_cases hlt : next < 2 ^ w
      · rw [if_pos hlt, ih hlt]
        simp only [hc, true_and]
      · rw [if_neg hlt]
        refine iff_of_false (by simp) fun h => ?_
        have hle := le_ofDigitChars cs next
        rw [h.2.1] at hle
        exact hlt (Nat.lt_of_le_of_lt hle h.2.2)
    · rw [if_neg hc]
      exact iff_of_false (by simp) fun h => hc h.1.1

/-- The digits `ds`, of which there are some, are the number `m`. -/
structure Numeral (ds : List Char) (m : Nat) : Prop where
  digits : ds.all Char.isDigit = true
  nonempty : ds ≠ []
  value : Nat.ofDigitChars 10 ds 0 = m

/-- A number that fits is accepted, with or without a plus sign, and nothing else is. -/
theorem parseUnsigned_ok_iff {w m : Nat} {s : String} :
    parseUnsigned w s = .ok m ↔ m < 2 ^ w ∧ ∃ ds, Numeral ds m ∧ (s.toList = ds ∨ s.toList = '+' :: ds) := by
  have hrest : ∀ ds : List Char, ds ≠ [] → (parseRest w 0 ds = .ok m ↔ m < 2 ^ w ∧ Numeral ds m) := fun ds hne => by
    rw [parseRest_ok_iff (Nat.two_pow_pos w)]
    exact ⟨fun h => ⟨h.2.2, h.1, hne, h.2.1⟩, fun h => ⟨h.2.digits, h.2.value, h.1⟩⟩
  unfold parseUnsigned
  split
  · rename_i hs
    refine iff_of_false (by simp) fun h => ?_
    obtain ⟨-, ds, hds, rfl | hplus⟩ := h
    · exact hds.nonempty hs
    · rw [hs] at hplus
      cases hplus
  · rename_i hs
    refine iff_of_false (by simp) fun h => ?_
    obtain ⟨-, ds, hds, rfl | hplus⟩ := h
    · have := hds.digits
      rw [hs] at this
      cases this
    · rw [hs] at hplus
      cases hplus
      exact hds.nonempty rfl
  · rename_i ds hne hs
    rw [hrest ds hne]
    constructor
    · exact fun h => ⟨h.1, ds, h.2, Or.inr hs⟩
    · rintro ⟨hlt, ds', hds, rfl | hplus⟩
      · have := hds.digits
        rw [hs] at this
        cases this
      · rw [hs] at hplus
        cases hplus
        exact ⟨hlt, hds⟩
  · rename_i hne hone hplus
    rw [hrest s.toList hne]
    constructor
    · exact fun h => ⟨h.1, _, h.2, Or.inl rfl⟩
    · rintro ⟨hlt, ds, hds, rfl | hs⟩
      · exact ⟨hlt, hds⟩
      · exact absurd hs (hplus ds)

/-! ## parse_sandbox -/

theorem splitOnce_eq_some {c : Char} {s a b : List Char} : splitOnce c s = some (a, b) ↔ s = a ++ c :: b ∧ c ∉ a := by
  unfold splitOnce
  constructor
  · intro h
    split at h
    · cases h
    · rename_i d rest hdrop
      obtain ⟨rfl, rfl⟩ := Prod.mk.inj (Option.some.inj h)
      have hd : d = c := by
        have := List.head?_dropWhile_not (· ≠ c) s
        rw [hdrop] at this
        simpa using this
      refine ⟨?_, fun hm => ?_⟩
      · subst hd
        rw [← hdrop, List.takeWhile_append_dropWhile]
      · simpa using List.mem_takeWhile_imp hm
  · rintro ⟨rfl, hc⟩
    have hall : ∀ x ∈ a, decide (x ≠ c) = true := fun x hx => decide_eq_true (by rintro rfl; exact hc hx)
    rw [List.dropWhile_append_of_pos hall, List.takeWhile_append_of_pos hall]
    simp

theorem splitOnce_eq_none {c : Char} {s : List Char} : splitOnce c s = none ↔ c ∉ s := by
  have hnil : s.dropWhile (· ≠ c) = [] ↔ c ∉ s := by
    rw [List.dropWhile_eq_nil_iff]
    constructor
    · intro hall hc
      simpa using hall c hc
    · exact fun hc x hx => decide_eq_true (by rintro rfl; exact hc hx)
  rw [← hnil, splitOnce]
  split
  · rename_i hdrop
    exact iff_of_true rfl hdrop
  · rename_i hdrop
    rw [hdrop]
    simp

/-- What `FUZZ_SANDBOX` is set to for a sandbox. -/
def SandboxKind.text : SandboxKind → String
  | .direct => "local"
  | .dockerExec container => "docker-exec:" ++ container

/-- A text selects the sandbox whose text it is, provided its container has a name. -/
theorem parseSandbox_ok_iff {raw : String} {kind : SandboxKind} :
    parseSandbox raw = .ok kind ↔ raw = kind.text ∧ kind ≠ .dockerExec "" := by
  have hcolon : ':' ∉ "docker-exec".toList := by decide
  unfold parseSandbox
  split
  · rename_i hsplit
    have hno := splitOnce_eq_none.mp hsplit
    have hdocker : ∀ container, raw ≠ (SandboxKind.dockerExec container).text := by
      rintro container rfl
      exact hno (by simp [SandboxKind.text])
    split
    · rename_i hraw
      cases kind with
      | direct => simp [SandboxKind.text, hraw]
      | dockerExec container => exact iff_of_false (by simp) fun h => hdocker container h.1
    · rename_i hraw
      refine iff_of_false (by simp) fun h => ?_
      cases kind with
      | direct => exact hraw h.1
      | dockerExec container => exact hdocker container h.1
  · rename_i before container hsplit
    obtain ⟨hraw, -⟩ := splitOnce_eq_some.mp hsplit
    have hlocal : raw ≠ SandboxKind.direct.text := by
      rintro rfl
      have hm : ':' ∈ SandboxKind.direct.text.toList := by rw [hraw]; simp
      exact absurd hm (by decide)
    have hsame : ∀ name, raw = (SandboxKind.dockerExec name).text →
        before = "docker-exec".toList ∧ container = name.toList := by
      rintro name rfl
      have htext : (SandboxKind.dockerExec name).text.toList = "docker-exec".toList ++ ':' :: name.toList := by
        simp [SandboxKind.text]
      rw [splitOnce_eq_some.mpr ⟨htext, hcolon⟩] at hsplit
      cases hsplit
      exact ⟨rfl, rfl⟩
    split
    · rename_i hok
      obtain ⟨rfl, hne⟩ := hok
      have htext : raw = (SandboxKind.dockerExec (String.ofList container)).text := by
        rw [← String.toList_inj, hraw]
        simp [SandboxKind.text]
      cases kind with
      | direct => exact iff_of_false (by simp) fun h => hlocal h.1
      | dockerExec name =>
        rw [Except.ok.injEq, SandboxKind.dockerExec.injEq]
        constructor
        · rintro rfl
          refine ⟨htext, fun h => hne ?_⟩
          have := congrArg String.toList (SandboxKind.dockerExec.inj h)
          simpa using this
        · intro h
          rw [(hsame name h.1).2, String.ofList_toList]
    · rename_i hbad
      refine iff_of_false (by simp) fun h => ?_
      cases kind with
      | direct => exact hlocal h.1
      | dockerExec name =>
        obtain ⟨hb, hc⟩ := hsame name h.1
        refine hbad ⟨hb, fun hnil => h.2 ?_⟩
        have hname : name = "" := by
          rw [← String.toList_inj, ← hc, hnil]
          rfl
        rw [hname]

/-! ## from_env -/

section accepts
variable {A : Type} {parseAddr : String → Except String A} {env : String → Option String}

/-- The variable holds the number `n`, in digits; unset, `n` is its default. -/
def Reads (env : String → Option String) (w : Nat) (name : String) (default n : Nat) : Prop :=
  match env name with
  | none => n = default
  | some raw => n < 2 ^ w ∧ ∃ ds, Numeral ds n ∧ (raw.toList = ds ∨ raw.toList = '+' :: ds)

/-- The environment is one to start with, and says `cfg`. -/
structure Accepts (parseAddr : String → Except String A) (env : String → Option String) (cfg : Config A) : Prop where
  targetsDir : env "TARGETS_DIR" = some cfg.targetsDir
  databaseUrl : env "DATABASE_URL" = some cfg.databaseUrl
  httpAddr : parseAddr ((env "HTTP_ADDR").getD "0.0.0.0:8080") = .ok cfg.httpAddr
  defaultBudgetSecs : Reads env 32 "DEFAULT_BUDGET_SECONDS" 60 cfg.defaultBudgetSecs
  maxConcurrentCampaigns : Reads env 64 "MAX_CONCURRENT_CAMPAIGNS" 2 cfg.maxConcurrentCampaigns
  rustToolchain : cfg.rustToolchain = (env "RUST_TOOLCHAIN").getD "nightly"
  fuzzSanitizer : ∀ sanitizer, cfg.fuzzSanitizer = some sanitizer ↔
    env "FUZZ_SANITIZER" = some sanitizer ∧ sanitizer ≠ ""
  fuzzSandbox : (env "FUZZ_SANDBOX").getD "local" = cfg.fuzzSandbox.text ∧ cfg.fuzzSandbox ≠ .dockerExec ""
  fuzzWorkspaceDir : cfg.fuzzWorkspaceDir =
    (env "FUZZ_WORKSPACE_DIR").getD (join (join cfg.targetsDir "..") "fuzz")
  jobTimeout : Reads env 64 "JOB_TIMEOUT_SECONDS" 600 cfg.jobTimeout
  logLevel : cfg.logLevel = (env "LOG_LEVEL").getD "info"

theorem required_ok_iff {name value : String} : required env name = .ok value ↔ env name = some value := by
  unfold required
  cases env name with
  | none => simp
  | some v => simp

theorem parseDefault_ok_iff {T : Type} {parse : String → Except String T} {name default : String} {value : T} :
    parseDefault env parse name default = .ok value ↔ parse ((env name).getD default) = .ok value := by
  unfold parseDefault
  dsimp only
  cases parse ((env name).getD default) with
  | ok v => simp
  | error e => simp

/-- An integer's default is accepted as the number it shows. -/
theorem parseDefault_unsigned_iff {w d n : Nat} {name default : String} (hd : parseUnsigned w default = .ok d) :
    parseDefault env (parseUnsigned w) name default = .ok n ↔ Reads env w name d n := by
  rw [parseDefault_ok_iff, Reads]
  cases env name with
  | none =>
    rw [Option.getD_none, hd, Except.ok.injEq]
    exact eq_comm
  | some raw => exact parseUnsigned_ok_iff

theorem filter_ne_empty {o : Option String} {s : String} : o.filter (· ≠ "") = some s ↔ o = some s ∧ s ≠ "" := by
  rw [Option.filter_eq_some_iff]
  simp

/-- `from_env` returns what the environment says, when it is one to start with. -/
theorem fromEnv_ok_iff {cfg : Config A} : fromEnv parseAddr env = .ok cfg ↔ Accepts parseAddr env cfg := by
  have h60 : parseUnsigned 32 "60" = .ok 60 := by decide
  have h2 : parseUnsigned 64 "2" = .ok 2 := by decide
  have h600 : parseUnsigned 64 "600" = .ok 600 := by decide
  simp only [fromEnv, Lib.bind_eq_ok, required_ok_iff, parseDefault_unsigned_iff h60, parseDefault_unsigned_iff h2,
    parseDefault_unsigned_iff h600, parseSandbox_ok_iff]
  simp only [parseDefault_ok_iff]
  constructor
  · rintro ⟨targetsDir, htargets, databaseUrl, hdatabase, httpAddr, haddr, budget, hbudget, campaigns, hcampaigns, sandbox,
      hsandbox, timeout, htimeout, hcfg⟩
    cases hcfg
    exact
      { targetsDir := htargets, databaseUrl := hdatabase, httpAddr := haddr, defaultBudgetSecs := hbudget
        maxConcurrentCampaigns := hcampaigns, rustToolchain := rfl, fuzzSanitizer := fun _ => filter_ne_empty
        fuzzSandbox := hsandbox, fuzzWorkspaceDir := rfl, jobTimeout := htimeout, logLevel := rfl }
  · intro h
    have hsanitizer : (env "FUZZ_SANITIZER").filter (· ≠ "") = cfg.fuzzSanitizer :=
      Option.ext fun s => filter_ne_empty.trans (h.fuzzSanitizer s).symm
    refine ⟨_, h.targetsDir, _, h.databaseUrl, _, h.httpAddr, _, h.defaultBudgetSecs, _, h.maxConcurrentCampaigns, _,
      h.fuzzSandbox, _, h.jobTimeout, ?_⟩
    rw [hsanitizer, ← h.rustToolchain, ← h.fuzzWorkspaceDir, ← h.logLevel]

end accepts

end SoroFuzz.Server
