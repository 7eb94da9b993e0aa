/-
  SoroFuzz.Token.Simulation — the shadow model against the token contract, over whole runs.

  `Tracks` is the simulation: the model's balances and supply are the contract's, and the
  contract's balances add up.

  Proved:
  - `execute_succeeds`, `execute_refused`: the token's command does to the storage what its
    call does; its outcome is `Ok` exactly when the call succeeds, and never a finding.
  - `tracks_step`: a step that does not inflate goes through every check and keeps it.
  - `inflating_step_diverges`: one that does leaves the contract holding more than the
    model says.
  - `simulates_iff`: model and contract agree after every step of a run, and the run
    passes, exactly when no step of it inflates.
-/

import SoroFuzz.Token.Conservation
import SoroFuzz.Token.Harness

namespace SoroFuzz.Token

open SoroFuzz.Core
open Lib (I128 Ledger)

/-! ## Executing a command -/

theorem invoke_discard {T : Type} (m : Exec Storage Error T) (s : Storage) :
    Exec.invoke (discard m) s = ((Exec.invoke m s).1.map fun _ => (), (Exec.invoke m s).2) := by
  rcases hm : m s with ⟨r, s'⟩
  cases r with
  | ok t => rw [Exec.invoke_ok hm, Exec.invoke_ok (discard_ok hm)]; rfl
  | error f => rw [Exec.invoke_error hm, Exec.invoke_error (discard_error hm)]; rfl

theorem fromTryResult_map {T U ConvErr E : Type} {debug : ConvErr → String} {e : CallEnd T E} {f : T → U}
    {satisfied : Bool} {codeOf : E → UInt32} : Outcome.fromTryResult debug (encode (e.map f)) satisfied codeOf =
      Outcome.fromTryResult debug (encode e) satisfied codeOf := by
  cases e with
  | ok t => rfl
  | error g => cases g <;> rfl

variable {ctx : ExecContext} {command : TokenCommand} {authorizers : List Address} {env : Env Storage}

/-- The command's call, as `require_auth` finds the mocks. -/
def TokenCommand.result (command : TokenCommand) (ctx : ExecContext) (authorizers : List Address) (s : Storage) :
    CallEnd Unit Error × Storage :=
  (command.call ctx.addresses).invoke (mocked (command.signer ctx.addresses) authorizers) s

variable (command ctx authorizers env) in
theorem execute_tokenContract :
    (TokenCommand.execute tokenContract command ctx authorizers env).1 =
      Outcome.fromTryResult Empty.elim (encode (command.result ctx authorizers env.storage).1)
        (decide (command.signer ctx.addresses ∈ authorizers)) Error.code ∧
    (TokenCommand.execute tokenContract command ctx authorizers env).2.storage =
      (command.result ctx authorizers env.storage).2 := by
  cases command with
  | mint to_ amount =>
    simp only [TokenCommand.execute, TokenCommand.result, TokenCommand.call, TokenCommand.signer, tokenContract,
      hostCall, Call.invoke, Call.run, invoke_discard, fromTryResult_map, mockSingleAuth_authorizes,
      mockSingleAuth_fst, mockSingleAuth_storage]
    exact ⟨rfl, trivial⟩
  | burn from_ amount =>
    simp only [TokenCommand.execute, TokenCommand.result, TokenCommand.call, TokenCommand.signer, tokenContract,
      hostCall, Call.invoke, Call.run, invoke_discard, fromTryResult_map, mockSingleAuth_authorizes,
      mockSingleAuth_fst, mockSingleAuth_storage]
    exact ⟨rfl, trivial⟩
  | transfer from_ to_ amount =>
    simp only [TokenCommand.execute, TokenCommand.result, TokenCommand.call, TokenCommand.signer, tokenContract,
      hostCall, Call.invoke, Call.run, mockSingleAuth_authorizes, mockSingleAuth_fst, mockSingleAuth_storage]
    exact ⟨rfl, trivial⟩

/-- The command's call is in order. -/
def TokenCommand.Succeeds (command : TokenCommand) (ctx : ExecContext) (authorizers : List Address)
    (s : Storage) : Prop :=
  (command.call ctx.addresses).Succeeds (mocked (command.signer ctx.addresses) authorizers) s

theorem required_call {s : Storage} (hadmin : s.admin = some (ctx.addresses.get adminIndex)) :
    (command.call ctx.addresses).required s = some (command.signer ctx.addresses) := by
  cases command with
  | mint => exact hadmin
  | burn | transfer => rfl

variable (authorizers env) in
theorem execute_succeeds (h : command.Succeeds ctx authorizers env.storage) :
    caught (TokenCommand.execute tokenContract command ctx authorizers env).1 = .ok ∧
      (command.call ctx.addresses).Done env.storage
        (TokenCommand.execute tokenContract command ctx authorizers env).2.storage := by
  obtain ⟨ho, hs⟩ := execute_tokenContract ctx command authorizers env
  obtain ⟨hok, hd⟩ := invoke_ok h
  rw [ho, hs, TokenCommand.result, hok]
  exact ⟨rfl, hd⟩

/-- A call that fails for want of authorization is one the step withheld: a rejection,
    and no finding. -/
theorem execute_refused (hadmin : env.storage.admin = some (ctx.addresses.get adminIndex))
    (h : ¬ command.Succeeds ctx authorizers env.storage) :
    (TokenCommand.execute tokenContract command ctx authorizers env).2.storage = env.storage ∧
    (caught (TokenCommand.execute tokenContract command ctx authorizers env).1).isOk = false ∧
    ∀ m, caught (TokenCommand.execute tokenContract command ctx authorizers env).1 ≠ .undeclaredPanic m := by
  obtain ⟨ho, hs⟩ := execute_tokenContract ctx command authorizers env
  obtain ⟨hsame, f, hf, hr⟩ := invoke_refused h
  rw [required_call hadmin] at hr
  refine ⟨hs.trans hsame, ?_⟩
  rw [ho, TokenCommand.result, hf]
  cases f with
  | declared e => simp [encode, Outcome.fromTryResult, caught, Outcome.isOk]
  | authFailed =>
    obtain ⟨a, ha, hm⟩ := hr
    cases ha
    have hn : command.signer ctx.addresses ∉ authorizers := by simpa [mocked] using hm
    simp [encode, Outcome.fromTryResult, caught, Outcome.isOk, hn]
  | panicked => cases hr
  | undeclared c => exact hr.elim

/-! ## The model follows -/

/-- The model says what the contract holds, and what the contract holds adds up. -/
structure Tracks (m : TokenModel) (s : Storage) : Prop where
  supply : m.totalSupply = totalSupply s
  balance : ∀ a, balanceIn m.balances a = balance s a
  nodup : (m.balances.map (·.1)).Nodup
  conserved : Conserved s

/-- A balance set to what the contract's became. -/
theorem balance_sets {m m' : TokenModel} {s s' : Storage} {who : Address} (hs : m.Sets who (balance s' who) m')
    (hb : ∀ a, balanceIn m.balances a = balance s a) (hother : ∀ a, a ≠ who → (balance s' a).val = (balance s a).val)
      (a : Address) :
    balanceIn m'.balances a = balance s' a := by
  rw [hs.balance]
  split
  · rename_i e; rw [e]
  · rename_i e; rw [hb, Lib.SInt.ext (hother a e)]

section follows
variable {m : TokenModel} {s s' : Storage} {to_ from_ : AddressIndex} {amount : NonNegativeI128}

theorem tracks_mint (h : Tracks m s) (hd : ((TokenCommand.mint to_ amount).call ctx.addresses).Done s s')
    (hc : Conserved s') :
    ∃ m', (TokenCommand.mint to_ amount).applyToModel m ctx.addresses .ok = .ok m' ∧ m'.admin = m.admin ∧
      Tracks m' s' := by
  have hval := hd.balance
  have hsup := hd.supply
  simp only [TokenCommand.call, Call.effect, Call.selfTransfer, Call.post, Ledger.deposit_apply, ledger_apply] at hval
  simp only [TokenCommand.call, Call.issued] at hsup
  obtain ⟨m1, h1, hs1⟩ := addTo_ok m (ctx.addresses.get to_.index.toNat) amount.get
    (x := balance s' (ctx.addresses.get to_.index.toNat)) (by rw [h.balance, hval, if_pos rfl])
  have h2 : plus m1.totalSupply amount.get = .ok (totalSupply s') :=
    plus_ok.mpr (by rw [hs1.totalSupply, h.supply, hsup])
  have hb1 := balance_sets hs1 h.balance fun a ha => by rw [hval, if_neg ha]
  exact ⟨_, apply_mint h1 h2, hs1.admin, rfl, hb1, hs1.nodup h.nodup, hc⟩

theorem tracks_burn (h : Tracks m s) (hd : ((TokenCommand.burn from_ amount).call ctx.addresses).Done s s')
    (hc : Conserved s') :
    ∃ m', (TokenCommand.burn from_ amount).applyToModel m ctx.addresses .ok = .ok m' ∧ m'.admin = m.admin ∧
      Tracks m' s' := by
  have hval := hd.balance
  have hsup := hd.supply
  simp only [TokenCommand.call, Call.effect, Call.selfTransfer, Call.post, Ledger.withdraw_apply, ledger_apply] at hval
  simp only [TokenCommand.call, Call.issued] at hsup
  obtain ⟨m1, h1, hs1⟩ := subFrom_ok m (ctx.addresses.get from_.index.toNat) amount.get
    (x := balance s' (ctx.addresses.get from_.index.toNat)) (by rw [h.balance, hval, if_pos rfl])
  have h2 : minus m1.totalSupply amount.get = .ok (totalSupply s') :=
    minus_ok.mpr (by rw [hs1.totalSupply, h.supply, hsup]; omega)
  have hb1 := balance_sets hs1 h.balance fun a ha => by rw [hval, if_neg ha]
  exact ⟨_, apply_burn h1 h2, hs1.admin, rfl, hb1, hs1.nodup h.nodup, hc⟩

theorem transfer_supply (h : Tracks m s)
    (hd : ((TokenCommand.transfer from_ to_ amount).call ctx.addresses).Done s s') :
    m.totalSupply = totalSupply s' := by
  have hsup := hd.supply
  simp only [TokenCommand.call, Call.issued, add_zero] at hsup
  exact h.supply.trans (Lib.SInt.ext hsup).symm

/-- A transfer of an address to itself that does not inflate is one of nothing. -/
theorem tracks_self (h : Tracks m s) (hd : ((TokenCommand.transfer from_ to_ amount).call ctx.addresses).Done s s')
    (hself : ctx.addresses.get from_.index.toNat = ctx.addresses.get to_.index.toNat) (hzero : amount.get.val = 0)
    (hc : Conserved s') :
    ∃ m', (TokenCommand.transfer from_ to_ amount).applyToModel m ctx.addresses .ok = .ok m' ∧ m'.admin = m.admin ∧
      Tracks m' s' := by
  have hval : ∀ a, balance s' a = balance s a := by
    intro a
    apply Lib.SInt.ext
    rw [hd.balance]
    simp [TokenCommand.call, Call.effect, Call.selfTransfer, hself, Ledger.deposit_apply, Call.amount, hzero]
  obtain ⟨m1, h1, hs1⟩ := subFrom_ok m (ctx.addresses.get from_.index.toNat) amount.get
    (x := balance s' (ctx.addresses.get from_.index.toNat)) (by rw [h.balance, hval, hzero, sub_zero])
  have hb1 := balance_sets hs1 h.balance fun a _ => by rw [hval]
  obtain ⟨m2, h2, hs2⟩ := addTo_ok m1 (ctx.addresses.get to_.index.toNat) amount.get
    (x := balance s' (ctx.addresses.get to_.index.toNat)) (by rw [hb1, hzero, add_zero])
  refine ⟨m2, apply_transfer h1 h2, hs2.admin.trans hs1.admin, ?_, ?_, hs2.nodup (hs1.nodup h.nodup), hc⟩
  · exact (hs2.totalSupply.trans hs1.totalSupply).trans (transfer_supply h hd)
  · exact balance_sets hs2 hb1 fun _ _ => rfl

theorem tracks_transfer (h : Tracks m s)
    (hd : ((TokenCommand.transfer from_ to_ amount).call ctx.addresses).Done s s')
    (hself : ctx.addresses.get from_.index.toNat ≠ ctx.addresses.get to_.index.toNat) (hc : Conserved s') :
    ∃ m', (TokenCommand.transfer from_ to_ amount).applyToModel m ctx.addresses .ok = .ok m' ∧ m'.admin = m.admin ∧
      Tracks m' s' := by
  have hval := hd.balance
  simp only [TokenCommand.call, Call.effect, Call.selfTransfer, if_neg hself, Call.post, Ledger.transfer,
    Ledger.deposit_apply, Ledger.withdraw_apply, ledger_apply] at hval
  obtain ⟨m1, h1, hs1⟩ := subFrom_ok m (ctx.addresses.get from_.index.toNat) amount.get
    (x := balance s' (ctx.addresses.get from_.index.toNat)) (by rw [h.balance, hval, if_neg hself, if_pos rfl])
  obtain ⟨m2, h2, hs2⟩ := addTo_ok m1 (ctx.addresses.get to_.index.toNat) amount.get
    (x := balance s' (ctx.addresses.get to_.index.toNat))
    (by rw [hs1.balance, if_neg (Ne.symm hself), h.balance, hval, if_pos rfl, if_neg (Ne.symm hself)])
  refine ⟨m2, apply_transfer h1 h2, hs2.admin.trans hs1.admin, ?_, fun a => ?_, hs2.nodup (hs1.nodup h.nodup), hc⟩
  · exact (hs2.totalSupply.trans hs1.totalSupply).trans (transfer_supply h hd)
  · rw [hs2.balance, hs1.balance]
    split
    · rename_i e; rw [e]
    · rename_i e
      split
      · rename_i e'; rw [e']
      · rename_i e'; rw [h.balance]; exact Lib.SInt.ext (by rw [hval, if_neg e, if_neg e'])

theorem tracks_apply {auth : Address → Bool} (h : Tracks m s) (hok : (command.call ctx.addresses).Succeeds auth s)
    (hd : (command.call ctx.addresses).Done s s') (hinf : ¬ Inflates auth (command.call ctx.addresses) s)
    (hc : Conserved s') :
    ∃ m', command.applyToModel m ctx.addresses .ok = .ok m' ∧ m'.admin = m.admin ∧ Tracks m' s' := by
  cases command with
  | mint to_ amount => exact tracks_mint h hd hc
  | burn from_ amount => exact tracks_burn h hd hc
  | transfer from_ to_ amount =>
    by_cases hself : ctx.addresses.get from_.index.toNat = ctx.addresses.get to_.index.toNat
    · have hpos : ¬ 0 < amount.get.val := fun hpos => hinf (inflates_iff.mpr
        ⟨by simp [TokenCommand.call, Call.selfTransfer, hself], hpos, hok⟩)
      have hlow := amount.lower
      exact tracks_self h hd hself (by omega) hc
    · exact tracks_transfer h hd hself hc

end follows

/-! ## One step -/

variable {debug : Address → String} {commandsPerRun addressPoolSize : Nat}

abbrev TokenState := State (tokenAdapter tokenContract)

structure Sim (ctx : ExecContext) (s : TokenState) : Prop where
  admin : s.env.storage.admin = some (ctx.addresses.get adminIndex)
  modelAdmin : s.model.admin = ctx.addresses.get adminIndex
  tracks : Tracks s.model s.env.storage

/-- The step is a transfer from an address to itself that will inflate. -/
def StepInflates (ctx : ExecContext) (step : Step TokenCommand) (s : TokenState) : Prop :=
  Inflates (mocked (step.command.signer ctx.addresses) (ctx.addresses.resolve step.authorized))
    (step.command.call ctx.addresses) s.env.storage

theorem tracks_sum {m : TokenModel} {s : Storage} (h : Tracks m s) :
    m.totalSupply.val = ((m.balances.map (·.1)).map fun a => (balanceIn m.balances a).val).sum := by
  have hne : ∀ a, s.ledger a ≠ 0 → a ∈ m.balances.map (·.1) := by
    intro a ha
    refine mem_of_balanceIn_ne_zero _ fun hz => ha ?_
    rw [ledger_apply, ← h.balance, hz, Lib.SInt.val_zero]
  rw [h.supply, ← h.conserved.total, ← total_ledger, Ledger.total_eq_sum s.ledger _ h.nodup hne]
  exact congrArg List.sum (List.map_congr_left fun a _ => by rw [ledger_apply, h.balance])

theorem checks_pass {ctx : InvariantCtx (tokenAdapter tokenContract)} {s : Storage} (h : Tracks ctx.model s)
    (hauth : ctx.lastOutcome.isOk = true →
      ∀ a, ctx.command.requiredAuthorizer ctx.model ctx.addresses = some a → a ∈ ctx.authorizers) :
    checkAll (tokenInvariants tokenContract debug) ctx = .ok () := by
  have hnn : ∀ a ∈ HasBalances.balanceHolders ctx.model, 0 ≤ (HasBalances.balanceOf ctx.model a).val := by
    intro a _
    show 0 ≤ (balanceIn ctx.model.balances a).val
    rw [h.balance]
    exact h.conserved.nonneg a
  have h1 := (noNegativeBalance_ok_iff (A := tokenAdapter tokenContract) debug).mpr hnn
  have h2 := supplyConservation_ok (A := tokenAdapter tokenContract) hnn (tracks_sum h)
  have h3 := (authRequiredForMutation_ok_iff (A := tokenAdapter tokenContract) debug).mpr hauth
  rw [tokenInvariants, checkAll_cons_ok h1, checkAll_cons_ok h2, checkAll_cons_ok h3]
  rfl

section steps
variable {ctx : ExecContext} {step : Step TokenCommand} {s : TokenState} {i : Nat}
variable (debug commandsPerRun addressPoolSize)

/-- A step whose call succeeds: the contract asked for the authorization that the third
    invariant asks the step for. -/
theorem tracks_succeeds (h : Sim ctx s) (hinf : ¬ StepInflates ctx step s)
    (hok : step.command.Succeeds ctx (ctx.addresses.resolve step.authorized)
      (s.env.advance step.advanceTime).storage) : ∃ s',
      (tokenHarness tokenContract debug commandsPerRun addressPoolSize).step ctx i step s = .ok s' ∧ Sim ctx s' := by
  set authorizers := ctx.addresses.resolve step.authorized with hauthorizers
  have hadv : (s.env.advance step.advanceTime).storage = s.env.storage := Env.advance_storage _ _
  obtain ⟨ho, hd⟩ := execute_succeeds _ _ hok
  rw [hadv] at hok hd
  have hcons := (conserved_invoke h.tracks.conserved).mpr hinf
  set s' := (TokenCommand.execute tokenContract step.command ctx authorizers
    (s.env.advance step.advanceTime)).2 with hs'
  have hres : s'.storage = (step.command.result ctx authorizers s.env.storage).2 := by
    rw [hs', (execute_tokenContract _ _ _ _).2, hadv]
  have hcons' : Conserved s'.storage := by rw [hres]; exact hcons
  obtain ⟨m', hm', hadm, ht⟩ := tracks_apply h.tracks hok hd hinf hcons'
  refine ⟨⟨s', m'⟩, ?_, ?_, hadm.trans h.modelAdmin, ht⟩
  · rw [step_of_outcome (by intro m hm; exact absurd (ho.symm.trans hm) (by simp))]
    rw [show caught (executed ctx step s).1 = .ok from ho]
    refine judge_ok hm' (checks_pass ht fun _ a ha => ?_)
    have hreq : (some a : Option Address) = some (step.command.signer ctx.addresses) := by
      rw [← ha]
      show step.command.requiredAuthorizer m' ctx.addresses = _
      cases step.command with
      | mint => exact congrArg some (hadm.trans h.modelAdmin)
      | burn | transfer => rfl
    obtain ⟨b, hb, hmk⟩ := hok.auth
    rw [required_call h.admin] at hb
    cases hb
    cases hreq
    simp only [mocked, Bool.and_eq_true, decide_eq_true_eq] at hmk
    exact hmk.1
  · show s'.storage.admin = _
    rw [hd.admin, h.admin]

/-- A step whose call is refused changes neither side. -/
theorem tracks_refused (h : Sim ctx s)
    (hok : ¬ step.command.Succeeds ctx (ctx.addresses.resolve step.authorized)
      (s.env.advance step.advanceTime).storage) : ∃ s',
      (tokenHarness tokenContract debug commandsPerRun addressPoolSize).step ctx i step s = .ok s' ∧ Sim ctx s' := by
  have hadv : (s.env.advance step.advanceTime).storage = s.env.storage := Env.advance_storage _ _
  obtain ⟨hsame, hnok, hno⟩ := execute_refused (by rw [hadv]; exact h.admin) hok
  rw [hadv] at hsame
  set s' := (TokenCommand.execute tokenContract step.command ctx (ctx.addresses.resolve step.authorized)
    (s.env.advance step.advanceTime)).2 with hs'
  refine ⟨⟨s', s.model⟩, ?_, ?_, h.modelAdmin, ?_⟩
  · rw [step_of_outcome (A := tokenAdapter tokenContract) hno]
    refine judge_ok ?_ (checks_pass h.tracks fun hisok => ?_)
    · show TokenCommand.applyToModel step.command s.model ctx.addresses _ = .ok s.model
      unfold TokenCommand.applyToModel
      rw [if_pos]
      rw [show (caught (executed ctx step s).1).isOk = false from hnok]
      rfl
    · exact absurd (hnok.symm.trans hisok) (by simp)
  · show s'.storage.admin = _
    rw [hsame, h.admin]
  · show Tracks s.model s'.storage
    rw [hsame]
    exact h.tracks

theorem tracks_step (h : Sim ctx s) (hinf : ¬ StepInflates ctx step s) : ∃ s',
    (tokenHarness tokenContract debug commandsPerRun addressPoolSize).step ctx i step s = .ok s' ∧ Sim ctx s' := by
  by_cases hok : step.command.Succeeds ctx (ctx.addresses.resolve step.authorized)
    (s.env.advance step.advanceTime).storage
  · exact tracks_succeeds debug commandsPerRun addressPoolSize h hinf hok
  · exact tracks_refused debug commandsPerRun addressPoolSize h hok

end steps

/-! ## Whole runs -/

/-- Model and contract agree at the start and after every executed step, and the run passes. -/
structure Simulates (h : Harness (tokenAdapter tokenContract)) (r : Run TokenCommand) : Prop where
  agrees : ∀ i s, h.before r i = .ok s → Agrees tokenContract h.ctx.addresses s
  passes : h.run r = .ok (.ok ())

variable {h : Harness (tokenAdapter tokenContract)} {r : Run TokenCommand}

theorem Sim.agrees {ctx : ExecContext} {s : TokenState} (h : Sim ctx s) : Agrees tokenContract ctx.addresses s :=
  ⟨fun a _ => h.tracks.balance a, h.tracks.supply⟩

theorem sim_start (h : Harness (tokenAdapter tokenContract)) : Sim h.ctx h.start.2 := by
  refine ⟨rfl, rfl, rfl, fun a => ?_, ?_, ?_⟩
  · show balanceIn [(h.ctx.addresses.get initialHolderIndex, initialSupply)] a =
      balance (construct (h.ctx.addresses.get adminIndex) (h.ctx.addresses.get initialHolderIndex) initialSupply) a
    rw [construct, balance_setBalance, balanceIn_cons]
    by_cases e : h.ctx.addresses.get initialHolderIndex = a
    · rw [if_pos e, if_pos e.symm]
    · rw [if_neg e, if_neg (Ne.symm e)]
      rfl
  · exact List.nodup_singleton _
  · exact conserved_construct _ _ (by decide)

theorem get_mem (p : AddressPool) (i : Nat) : p.get i ∈ p.addresses := List.get_mem _ _

/-- The model is back where it was after subtracting and adding the amount; the contract
    holds the amount more. -/
theorem inflating_step_diverges {ctx : ExecContext} {step : Step TokenCommand} {s s' : TokenState} {i : Nat}
    (hinf : StepInflates ctx step s) (hs : h.step ctx i step s = .ok s') (ha : Agrees tokenContract ctx.addresses s) :
    ¬ Agrees tokenContract ctx.addresses s' := by
  intro ha'
  have hadv : (s.env.advance step.advanceTime).storage = s.env.storage := Env.advance_storage _ _
  obtain ⟨hself, hpos, hok⟩ := inflates_iff.mp hinf
  obtain ⟨ho, hd⟩ := execute_succeeds (ctx.addresses.resolve step.authorized) (s.env.advance step.advanceTime)
    (by rw [TokenCommand.Succeeds, hadv]; exact hok)
  have hcaught : caught (executed ctx step s).1 = .ok := ho
  rw [step_of_outcome (by rw [hcaught]; simp), hcaught] at hs
  obtain ⟨hm, henv⟩ := judge_eq_ok hs
  obtain ⟨command, authorized, advanceTime⟩ := step
  cases command with
  | mint | burn => simp [TokenCommand.call, Call.selfTransfer] at hself
  | transfer from_ to_ amount =>
    obtain ⟨m1, h1, h2⟩ := apply_transfer_inv hm
    obtain ⟨x, hx, rfl⟩ := subFrom_iff.mp h1
    obtain ⟨y, hy, hm'⟩ := addTo_iff.mp h2
    simp only [TokenCommand.call, Call.selfTransfer, ne_eq, ite_eq_right_iff, reduceCtorEq, imp_false, not_not] at hself
    set a := ctx.addresses.get from_.index.toNat with hadef
    rw [← hself] at hy hm'
    rw [balanceIn_setIn, if_pos rfl, hx] at hy
    have hbefore := ha.balance a (get_mem _ _)
    have hafter := ha'.balance a (get_mem _ _)
    have hcontract : (balance s'.env.storage a).val = (balance s.env.storage a).val + amount.get.val := by
      rw [henv, ← ledger_apply]
      refine (congrArg (fun l : Ledger Address => l a) hd.ledger).trans ?_
      simp [TokenCommand.call, Call.effect, Call.selfTransfer, ← hself, ← hadef, Call.amount, Ledger.deposit_apply]
    rw [hm', balanceIn_setIn, if_pos rfl] at hafter
    have hyb : y = balance s'.env.storage a := hafter
    have hb : balanceIn s.model.balances a = balance s.env.storage a := hbefore
    rw [hyb, hcontract, hb] at hy
    simp only [TokenCommand.call, Call.amount] at hpos
    omega

theorem simulates_iff (debug : Address → String) (commandsPerRun addressPoolSize : Nat) (r : Run TokenCommand) :
    Simulates (tokenHarness tokenContract debug commandsPerRun addressPoolSize) r ↔
      ∀ i step s, (tokenHarness tokenContract debug commandsPerRun addressPoolSize).Executes r i step s →
        ¬ StepInflates (tokenHarness tokenContract debug commandsPerRun addressPoolSize).ctx step s := by
  set h := tokenHarness tokenContract debug commandsPerRun addressPoolSize with hh
  constructor
  · intro hsim i step s hx hinf
    obtain ⟨s', hs'⟩ := run_ok_iff.mp hsim.passes i step s hx
    exact inflating_step_diverges hinf hs' (hsim.agrees i s hx.before)
      (hsim.agrees (i + 1) s' (by rw [hx.before_succ, hs']))
  · intro hno
    obtain ⟨hrun, hall⟩ := run_of_invariant (h := h) (r := r) (Sim h.ctx) (sim_start h) fun i step s hx hs =>
      tracks_step debug commandsPerRun addressPoolSize (i := i) hs (hno i step s hx)
    exact ⟨fun i s hs => (hall i s hs).agrees, hrun⟩

/-! ## A transfer to oneself -/

def five : NonNegativeI128 := ⟨⟨5, by decide, by decide⟩, by decide, by decide⟩

/-- The initial holder, who authorizes it, transfers 5 to itself. -/
def selfTransferStep : Step TokenCommand := ⟨.transfer ⟨1⟩ ⟨1⟩ five, ⟨[1]⟩, none⟩

def selfTransferRun : Run TokenCommand := ⟨[selfTransferStep]⟩

theorem simulation_self_transfer : ¬ ∀ (debug : Address → String) (commandsPerRun addressPoolSize : Nat)
    (r : Run TokenCommand),
    1 ≤ addressPoolSize → Simulates (tokenHarness tokenContract debug commandsPerRun addressPoolSize) r := by
  intro hall
  set h := tokenHarness tokenContract (fun _ => "") 32 4 with hh
  have hsim : Simulates h selfTransferRun := hall (fun _ => "") 32 4 selfTransferRun (by decide)
  have hx : h.Executes selfTransferRun 0 selfTransferStep h.start.2 := ⟨rfl, rfl⟩
  obtain ⟨s', hs'⟩ := run_ok_iff.mp hsim.passes 0 _ _ hx
  have hinf : StepInflates h.ctx selfTransferStep h.start.2 := by
    refine ⟨rfl, ?_, ?_, ?_, ?_⟩ <;> decide
  exact inflating_step_diverges hinf hs' (hsim.agrees 0 _ hx.before) (hsim.agrees 1 s' (by rw [hx.before_succ, hs']))

end SoroFuzz.Token
