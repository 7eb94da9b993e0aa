/-
  SoroFuzz.Token.Findings — what the token's harness reports of the token contract, over
  whole runs.

  The contract holds what a transfer from an address to itself inflated; the model does
  not, and no check compares the two. What the contract holds covers what the model has
  (`Covers`), until a call takes more from an address than the model has there.

  Proved:
  - `covered_step`: a step that does not overspend goes through every check and keeps it.
  - `overspending_step`: one that does is reported, by the payer's balance.
  - `first_inflates`: before it, a step inflated.
  - `reported_exactly`: a run of any length passes or reports that, and nothing else.
-/

import SoroFuzz.Token.Detection

namespace SoroFuzz.Token

open SoroFuzz.Core
open Lib (I128 Ledger)

/-! ## The holder that is named -/

theorem noNegativeBalance_names {A : ContractAdapter} [HasBalances A.Model] (debug : Address → String)
    {ctx : InvariantCtx A} {a : Address} (ha : a ∈ HasBalances.balanceHolders ctx.model)
    (hneg : (HasBalances.balanceOf ctx.model a).val < 0)
    (honly : ∀ b ∈ HasBalances.balanceHolders ctx.model, (HasBalances.balanceOf ctx.model b).val < 0 → b = a) :
    (noNegativeBalance debug).check ctx = .ok (.error {
      invariant := "no-negative-balance"
      message := "balance of " ++ debug a ++ " went negative: " ++ toString (HasBalances.balanceOf ctx.model a).val
      stepIndex := ctx.stepIndex }) := by
  simp only [noNegativeBalance]
  split
  · rename_i holder hf
    have hholder := List.find?_some hf
    simp only [decide_eq_true_eq] at hholder
    rw [honly holder (List.mem_of_find?_eq_some hf) hholder]
  · rename_i hf
    have := List.find?_eq_none.mp hf a ha
    simp at this
    omega

/-! ## What a call takes -/

/-- Whom the call leaves with less. -/
def Call.payer : Call → Option Address
  | .mint _ _ => none
  | .burn from_ _ => some from_
  | .transfer from_ to_ _ => if from_ = to_ then none else some from_

section post
variable {c : Call} {l l' : Ledger Address} {a : Address}

theorem post_payer (h : c.payer = some a) : c.post l a = l a - c.amount.val := by
  cases c with
  | mint => cases h
  | burn => cases h; simp [Call.post, Call.amount, Ledger.withdraw_apply]
  | transfer from_ to_ amount =>
    simp only [Call.payer] at h
    split at h
    · cases h
    · rename_i hne
      cases h
      simp [Call.post, Call.amount, Ledger.transfer, Ledger.deposit_apply, Ledger.withdraw_apply, hne]

theorem post_other (hpos : 0 ≤ c.amount.val) (h : c.payer ≠ some a) : l a ≤ c.post l a := by
  cases c with
  | mint to_ amount =>
    simp only [Call.amount] at hpos
    simp only [Call.post, Ledger.deposit_apply]
    split <;> omega
  | burn from_ amount =>
    have hne : a ≠ from_ := fun e => h (by rw [Call.payer, e])
    simp [Call.post, Ledger.withdraw_apply, hne]
  | transfer from_ to_ amount =>
    simp only [Call.amount] at hpos
    simp only [Call.post, Ledger.transfer, Ledger.deposit_apply, Ledger.withdraw_apply]
    by_cases hself : from_ = to_
    · subst hself; split <;> omega
    · have hne : a ≠ from_ := fun e => h (by rw [Call.payer, if_neg hself, e])
      rw [if_neg hne]
      split <;> omega

/-- What the contract does leaves no address with less than what the call is for. -/
theorem post_le_effect (hpos : 0 ≤ c.amount.val) (hle : ∀ b, l b ≤ l' b) (a : Address) :
    c.post l a ≤ c.effect l' a := by
  have ha := hle a
  cases c with
  | mint to_ amount =>
    simp only [Call.effect, Call.selfTransfer, Call.post, Ledger.deposit_apply]
    split <;> omega
  | burn from_ amount =>
    simp only [Call.effect, Call.selfTransfer, Call.post, Ledger.withdraw_apply]
    split <;> omega
  | transfer from_ to_ amount =>
    simp only [Call.amount] at hpos
    by_cases hself : from_ = to_
    · subst hself
      simp only [Call.effect, Call.selfTransfer, if_true, Call.amount, Call.post, Ledger.transfer, Ledger.deposit_apply,
        Ledger.withdraw_apply]
      split <;> omega
    · simp only [Call.effect, Call.selfTransfer, if_neg hself, Call.post, Ledger.transfer, Ledger.deposit_apply,
        Ledger.withdraw_apply]
      split <;> split <;> omega

/-- What the contract accepts, it holds. -/
theorem payer_holds {auth : Address → Bool} {s : Storage} (hok : c.Succeeds auth s) (h : c.payer = some a) :
    c.amount.val ≤ (balance s a).val := by
  have hb := hok.amounts
  cases c with
  | mint => cases h
  | burn => cases h; exact hb.1
  | transfer from_ to_ amount =>
    simp only [Call.payer] at h
    split at h
    · cases h
    · cases h; exact hb.1

end post

/-! ## The contract covers the model -/

/-- The model adds up, has no negative balance, and no balance the contract does not hold. -/
structure Covers (m : TokenModel) (s : Storage) : Prop where
  supply : m.totalSupply = totalSupply s
  total : (modelLedger m.balances).total = m.totalSupply.val
  nodup : (m.balances.map (·.1)).Nodup
  nonneg : ∀ a, 0 ≤ modelLedger m.balances a
  covered : ∀ a, modelLedger m.balances a ≤ s.ledger a

structure Covered (ctx : ExecContext) (s : TokenState) : Prop where
  admin : s.env.storage.admin = some (ctx.addresses.get adminIndex)
  modelAdmin : s.model.admin = ctx.addresses.get adminIndex
  covers : Covers s.model s.env.storage

section covers
variable {pool : AddressPool} {command : TokenCommand} {m m' : TokenModel} {s s' : Storage} {auth : Address → Bool}

theorem add_in_range (m : TokenModel) (who : Address) (amount : I128)
    (hl : -2 ^ 127 ≤ modelLedger m.balances who + amount.val)
    (hu : modelLedger m.balances who + amount.val < 2 ^ 127) :
    ∃ x m', x.val = modelLedger m.balances who + amount.val ∧ m.addTo who amount = .ok m' ∧ m.Sets who x m' := by
  obtain ⟨x, -, hx⟩ := Lib.SInt.ofInt?_of_range (w := 128) hl hu
  obtain ⟨m', hm, hs⟩ := addTo_ok m who amount hx
  exact ⟨x, m', hx, hm, hs⟩

/-- The amount is no less than nothing, and so is the balance: the difference is an i128. -/
theorem sub_in_range (m : TokenModel) (who : Address) (amount : I128) (hnn : 0 ≤ modelLedger m.balances who)
    (hpos : 0 ≤ amount.val) : ∃ x m', x.val = modelLedger m.balances who - amount.val ∧
      m.subFrom who amount = .ok m' ∧ m.Sets who x m' := by
  have hu := (balanceIn m.balances who).upper
  have ha := amount.upper
  rw [modelLedger_apply] at hnn ⊢
  obtain ⟨x, -, hx⟩ := Lib.SInt.ofInt?_of_range (w := 128) (x := (balanceIn m.balances who).val - amount.val)
    (by omega) (by omega)
  obtain ⟨m', hm, hs⟩ := subFrom_ok m who amount hx
  exact ⟨x, m', hx, hm, hs⟩

/-- What the contract accepts, the model follows without a panic. -/
theorem apply_accepted (h : Covers m s) (hok : (command.call pool).Succeeds auth s) :
    ∃ m', command.applyToModel m pool .ok = .ok m' ∧ m'.admin = m.admin ∧ (m'.balances.map (·.1)).Nodup := by
  have hpos := hok.nonneg
  have hb := hok.amounts
  have hsupply := congrArg Lib.SInt.val h.supply
  cases command with
  | mint to_ amount =>
    have hnn := h.nonneg (pool.get to_.index.toNat)
    have hle := h.covered (pool.get to_.index.toNat)
    have hls := m.totalSupply.lower
    simp only [TokenCommand.call, Call.amount] at hpos
    simp only [TokenCommand.call] at hb
    rw [ledger_apply] at hle
    obtain ⟨x, m1, hx, h1, hs1⟩ := add_in_range m (pool.get to_.index.toNat) amount.get (by omega) (by omega)
    obtain ⟨t, -, ht⟩ := Lib.SInt.ofInt?_of_range (w := 128) (x := m.totalSupply.val + amount.get.val)
      (by omega) (by omega)
    have h2 : plus m1.totalSupply amount.get = .ok t := plus_ok.mpr (by rw [ht, hs1.totalSupply])
    exact ⟨_, apply_mint h1 h2, hs1.admin, hs1.nodup h.nodup⟩
  | burn from_ amount =>
    have hus := m.totalSupply.upper
    simp only [TokenCommand.call, Call.amount] at hpos
    simp only [TokenCommand.call] at hb
    obtain ⟨x, m1, hx, h1, hs1⟩ := sub_in_range m (pool.get from_.index.toNat) amount.get (h.nonneg _) hpos
    obtain ⟨t, -, ht⟩ := Lib.SInt.ofInt?_of_range (w := 128) (x := m.totalSupply.val - amount.get.val)
      (by omega) (by omega)
    have h2 : minus m1.totalSupply amount.get = .ok t := minus_ok.mpr (by rw [ht, hs1.totalSupply])
    exact ⟨_, apply_burn h1 h2, hs1.admin, hs1.nodup h.nodup⟩
  | transfer from_ to_ amount =>
    simp only [TokenCommand.call, Call.amount] at hpos
    simp only [TokenCommand.call] at hb
    obtain ⟨x, m1, hx, h1, hs1⟩ := sub_in_range m (pool.get from_.index.toNat) amount.get (h.nonneg _) hpos
    -- Subtracting leaves no balance larger, the payee's included.
    have hlow : -2 ^ 127 ≤ modelLedger m1.balances (pool.get to_.index.toNat) := (balanceIn m1.balances _).lower
    have hto : modelLedger m1.balances (pool.get to_.index.toNat) ≤
        modelLedger m.balances (pool.get to_.index.toNat) := by
      rw [modelLedger_apply, hs1.balance]
      split
      · rename_i e; rw [hx, e]; omega
      · rw [modelLedger_apply]
    have hle := h.covered (pool.get to_.index.toNat)
    rw [ledger_apply] at hle
    obtain ⟨y, m2, hy, h2, hs2⟩ :=
      add_in_range m1 (pool.get to_.index.toNat) amount.get (by omega) (by omega)
    exact ⟨m2, apply_transfer h1 h2, hs2.admin.trans hs1.admin, hs2.nodup (hs1.nodup h.nodup)⟩

/-- A balance is negative afterwards only when the payer's was short. -/
theorem accepted_nonneg (h : Covers m s) (hok : (command.call pool).Succeeds auth s) (hp : Posted pool command m m')
    (a : Address) : 0 ≤ modelLedger m'.balances a ↔
      ¬ ((command.call pool).payer = some a ∧ (balanceIn m.balances a).val < (command.call pool).amount.val) := by
  have hnn := h.nonneg a
  rw [hp.ledger]
  by_cases hpay : (command.call pool).payer = some a
  · rw [post_payer hpay, modelLedger_apply]
    simp only [hpay, true_and]
    omega
  · have hle := post_other (l := modelLedger m.balances) hok.nonneg hpay
    simp only [hpay, false_and, not_false_eq_true, iff_true]
    omega

theorem accepted_covers (h : Covers m s) (hok : (command.call pool).Succeeds auth s) (hp : Posted pool command m m')
    (hd : (command.call pool).Done s s') (hnd : (m'.balances.map (·.1)).Nodup)
    (hnn : ∀ a, 0 ≤ modelLedger m'.balances a) : Covers m' s' := by
  refine ⟨?_, ?_, hnd, hnn, fun a => ?_⟩
  · exact Lib.SInt.ext (by rw [hp.supply, hd.supply, h.supply])
  · rw [hp.ledger, total_post, hp.supply, h.total]
  · rw [hp.ledger, hd.ledger]
    exact post_le_effect hok.nonneg h.covered a

theorem covers_sum (h : Covers m s) :
    m.totalSupply.val = ((m.balances.map (·.1)).map fun a => (balanceIn m.balances a).val).sum := by
  rw [← h.total, Ledger.total_eq_sum _ _ h.nodup fun a ha => mem_of_balanceIn_ne_zero _ fun hz => ha (by
    rw [modelLedger_apply, hz, Lib.SInt.val_zero])]
  rfl

end covers

/-! ## One step -/

variable {debug : Address → String} {commandsPerRun addressPoolSize : Nat}

/-- The contract accepts the step's call, which takes from `a` more than the model has there. -/
structure Overspends (ctx : ExecContext) (step : Step TokenCommand) (s : TokenState) (a : Address) : Prop where
  accepted : step.command.Succeeds ctx (ctx.addresses.resolve step.authorized) s.env.storage
  payer : (step.command.call ctx.addresses).payer = some a
  short : (balanceIn s.model.balances a).val < (step.command.call ctx.addresses).amount.val

/-- What is reported then. -/
def overspent (debug : Address → String) (ctx : ExecContext) (step : Step TokenCommand) (s : TokenState) (a : Address)
    (stepIndex : Nat) : Violation where
  invariant := "no-negative-balance"
  message := "balance of " ++ debug a ++ " went negative: " ++
    toString ((balanceIn s.model.balances a).val - (step.command.call ctx.addresses).amount.val)
  stepIndex := stepIndex

section steps
variable {ctx : ExecContext} {step : Step TokenCommand} {s : TokenState} {i : Nat}

theorem covers_checks {ctx : InvariantCtx (tokenAdapter tokenContract)} {s : Storage} (h : Covers ctx.model s)
    (hauth : ctx.lastOutcome.isOk = true →
      ∀ a, ctx.command.requiredAuthorizer ctx.model ctx.addresses = some a → a ∈ ctx.authorizers) :
    checkAll (tokenInvariants tokenContract debug) ctx = .ok () := by
  have hnn : ∀ a ∈ HasBalances.balanceHolders ctx.model, 0 ≤ (HasBalances.balanceOf ctx.model a).val :=
    fun a _ => h.nonneg a
  have h1 := (noNegativeBalance_ok_iff (A := tokenAdapter tokenContract) debug).mpr hnn
  have h2 := supplyConservation_ok (A := tokenAdapter tokenContract) hnn (covers_sum h)
  have h3 := (authRequiredForMutation_ok_iff (A := tokenAdapter tokenContract) debug).mpr hauth
  rw [tokenInvariants, checkAll_cons_ok h1, checkAll_cons_ok h2, checkAll_cons_ok h3]
  rfl

/-- The contract asked for the authorization that the third invariant asks the step for. -/
theorem accepted_authorized {m : TokenModel} {authorizers : List Address} {command : TokenCommand} {s : Storage}
    (hadmin : s.admin = some (ctx.addresses.get adminIndex)) (hmodel : m.admin = ctx.addresses.get adminIndex)
    (hok : command.Succeeds ctx authorizers s) (a : Address)
    (ha : command.requiredAuthorizer m ctx.addresses = some a) : a ∈ authorizers := by
  have hreq : command.requiredAuthorizer m ctx.addresses = some (command.signer ctx.addresses) := by
    cases command with
    | mint => exact congrArg some hmodel
    | burn | transfer => rfl
  obtain ⟨b, hb, hmk⟩ := hok.auth
  rw [required_call hadmin] at hb
  rw [hreq] at ha
  cases hb
  cases ha
  simp only [mocked, Bool.and_eq_true, decide_eq_true_eq] at hmk
  exact hmk.1

variable (debug commandsPerRun addressPoolSize)

/-- A step whose call is accepted comes to the checks, with the call posted. -/
theorem accepted_step (h : Covered ctx s)
    (hok : step.command.Succeeds ctx (ctx.addresses.resolve step.authorized) s.env.storage) :
    ∃ m' env', step.command.applyToModel s.model ctx.addresses .ok = .ok m' ∧ m'.admin = s.model.admin ∧
      Posted ctx.addresses step.command s.model m' ∧ (m'.balances.map (·.1)).Nodup ∧
      (step.command.call ctx.addresses).Done s.env.storage env'.storage ∧
      (tokenHarness tokenContract debug commandsPerRun addressPoolSize).step ctx i step s =
        judge (tokenInvariants tokenContract debug) ctx i step s.model .ok env' := by
  have hadv : (s.env.advance step.advanceTime).storage = s.env.storage := Env.advance_storage _ _
  obtain ⟨ho, hd⟩ := execute_succeeds (ctx.addresses.resolve step.authorized) (s.env.advance step.advanceTime)
    (by rw [TokenCommand.Succeeds, hadv]; exact hok)
  rw [hadv] at hd
  obtain ⟨m', hm', hadm, hnd⟩ := apply_accepted h.covers hok
  refine ⟨m', _, hm', hadm, model_post hm', hnd, hd, ?_⟩
  rw [step_of_outcome (by intro m hm; exact absurd (ho.symm.trans hm) (by simp))]
  rw [show caught (executed ctx step s).1 = .ok from ho]
  rfl

theorem refused_step (h : Covered ctx s)
    (hok : ¬ step.command.Succeeds ctx (ctx.addresses.resolve step.authorized) s.env.storage) :
    ∃ s', (tokenHarness tokenContract debug commandsPerRun addressPoolSize).step ctx i step s = .ok s' ∧
      Covered ctx s' := by
  have hadv : (s.env.advance step.advanceTime).storage = s.env.storage := Env.advance_storage _ _
  have hrefused : ¬ step.command.Succeeds ctx (ctx.addresses.resolve step.authorized)
      (s.env.advance step.advanceTime).storage := by
    rw [hadv]
    exact hok
  obtain ⟨hsame, hnok, hno⟩ := execute_refused (by rw [hadv]; exact h.admin) hrefused
  rw [hadv] at hsame
  set s' := (TokenCommand.execute tokenContract step.command ctx (ctx.addresses.resolve step.authorized)
    (s.env.advance step.advanceTime)).2 with hs'
  refine ⟨⟨s', s.model⟩, ?_, ?_, h.modelAdmin, ?_⟩
  · rw [step_of_outcome (A := tokenAdapter tokenContract) hno]
    refine judge_ok ?_ (covers_checks h.covers fun hisok => ?_)
    · show TokenCommand.applyToModel step.command s.model ctx.addresses _ = .ok s.model
      unfold TokenCommand.applyToModel
      rw [if_pos]
      rw [show (caught (executed ctx step s).1).isOk = false from hnok]
      rfl
    · exact absurd (hnok.symm.trans hisok) (by simp)
  · show s'.storage.admin = _
    rw [hsame, h.admin]
  · show Covers s.model s'.storage
    rw [hsame]
    exact h.covers

theorem covered_step (h : Covered ctx s) (hno : ∀ a, ¬ Overspends ctx step s a) :
    ∃ s', (tokenHarness tokenContract debug commandsPerRun addressPoolSize).step ctx i step s = .ok s' ∧
      Covered ctx s' := by
  by_cases hok : step.command.Succeeds ctx (ctx.addresses.resolve step.authorized) s.env.storage
  · obtain ⟨m', env', hm', hadm, hp, hnd, hd, hstep⟩ :=
      accepted_step debug commandsPerRun addressPoolSize (i := i) h hok
    have hnn : ∀ a, 0 ≤ modelLedger m'.balances a := fun a =>
      (accepted_nonneg h.covers hok hp a).mpr fun ⟨hpay, hshort⟩ => hno a ⟨hok, hpay, hshort⟩
    have hc := accepted_covers h.covers hok hp hd hnd hnn
    have hmodel : m'.admin = ctx.addresses.get adminIndex := hadm.trans h.modelAdmin
    refine ⟨⟨env', m'⟩, ?_, hd.admin.trans h.admin, hmodel, hc⟩
    rw [hstep]
    exact judge_ok hm' (covers_checks hc fun _ a ha => accepted_authorized h.admin hmodel hok a ha)
  · exact refused_step debug commandsPerRun addressPoolSize h hok

/-- The payer is the one holder with a negative balance, so it is the one named. -/
theorem overspending_step (h : Covered ctx s) {a : Address} (ho : Overspends ctx step s a) :
    (tokenHarness tokenContract debug commandsPerRun addressPoolSize).step ctx i step s =
      .error (.invariant (overspent debug ctx step s a i)) := by
  obtain ⟨m', env', hm', -, hp, -, -, hstep⟩ :=
    accepted_step debug commandsPerRun addressPoolSize (i := i) h ho.accepted
  have hneg : (balanceIn m'.balances a).val < 0 := by
    have hiff := accepted_nonneg h.covers ho.accepted hp a
    rw [modelLedger_apply] at hiff
    by_contra hnn
    exact hiff.mp (by omega) ⟨ho.payer, ho.short⟩
  have honly : ∀ b, (balanceIn m'.balances b).val < 0 → b = a := by
    intro b hb
    by_contra hne
    have hiff := accepted_nonneg h.covers ho.accepted hp b
    rw [modelLedger_apply] at hiff
    have hpay : ¬ (step.command.call ctx.addresses).payer = some b := fun hpay =>
      hne (Option.some.inj (hpay.symm.trans ho.payer))
    have hnn := hiff.mpr fun hshort => hpay hshort.1
    omega
  have hval : (balanceIn m'.balances a).val =
      (balanceIn s.model.balances a).val - (step.command.call ctx.addresses).amount.val := by
    rw [← modelLedger_apply, hp.ledger, post_payer ho.payer, modelLedger_apply]
  have hholder : a ∈ m'.balances.map (·.1) :=
    mem_of_balanceIn_ne_zero _ fun hz => by rw [hz, Lib.SInt.val_zero] at hneg; exact lt_irrefl _ hneg
  rw [hstep]
  refine judge_violation hm' (checkAll_cons_violation ?_)
  rw [noNegativeBalance_names (A := tokenAdapter tokenContract) debug hholder hneg fun b _ => honly b]
  show Except.ok (Except.error _) = _
  rw [overspent, ← hval]
  rfl

end steps

/-! ## Whole runs -/

theorem covered_start (h : Harness (tokenAdapter tokenContract)) : Covered h.ctx h.start.2 := by
  obtain ⟨hadmin, hmodel, ht⟩ := sim_start h
  have hle : ∀ a, modelLedger h.start.2.model.balances a = h.start.2.env.storage.ledger a := by
    intro a
    rw [modelLedger_apply, ledger_apply, ht.balance]
  refine ⟨hadmin, hmodel, ht.supply, (balanced_start h).total, ht.nodup, fun a => ?_, fun a => le_of_eq (hle a)⟩
  rw [hle, ledger_apply]
  exact ht.conserved.nonneg a

section runs
variable {debug : Address → String} {commandsPerRun addressPoolSize : Nat}
variable {r : Run TokenCommand} {i : Nat} {step : Step TokenCommand} {s : TokenState} {a : Address}

/-- The steps before one that is executed went through, so none of them overspent. -/
theorem covered_before (i : Nat) (s : TokenState)
    (hs : (tokenHarness tokenContract debug commandsPerRun addressPoolSize).before r i = .ok s) :
    Covered (tokenHarness tokenContract debug commandsPerRun addressPoolSize).ctx s := by
  set h := tokenHarness tokenContract debug commandsPerRun addressPoolSize with hh
  refine before_invariant (h := h) (r := r) (Covered h.ctx) (covered_start h) ?_ i s hs
  intro i step s s' _ hc hok
  have hno : ∀ a, ¬ Overspends h.ctx step s a := by
    intro a ho
    have herr := overspending_step debug commandsPerRun addressPoolSize (i := i) hc ho
    rw [← hh, hok] at herr
    cases herr
  obtain ⟨s'', hs'', hc'⟩ := covered_step debug commandsPerRun addressPoolSize (i := i) hc hno
  rw [← hh, hok] at hs''
  cases hs''
  exact hc'

/-- The contract holds what the model says until a step inflates. -/
theorem sim_before {h : Harness (tokenAdapter tokenContract)}
    (hh : h = tokenHarness tokenContract debug commandsPerRun addressPoolSize) (n : Nat) (hn : n ≤ (h.steps r).length)
    (hno : ∀ j < n, ∀ step s, h.Executes r j step s → ¬ StepInflates h.ctx step s) :
    ∃ s, h.before r n = .ok s ∧ Sim h.ctx s := by
  induction n with
  | zero => exact ⟨h.start.2, rfl, sim_start h⟩
  | succ n ih =>
    obtain ⟨s, hs, hsim⟩ := ih (by omega) fun j hj => hno j (by omega)
    obtain ⟨step, hstep⟩ : ∃ step, (h.steps r)[n]? = some step := ⟨_, List.getElem?_eq_getElem hn⟩
    have hx : h.Executes r n step s := ⟨hstep, hs⟩
    have hn' := hno n (by omega) step s hx
    obtain ⟨s', hs', hsim'⟩ := tracks_step debug commandsPerRun addressPoolSize (i := n) hsim hn'
    refine ⟨s', ?_, hsim'⟩
    rw [hx.before_succ, ← hs', hh]

theorem first_inflates (hx : (tokenHarness tokenContract debug commandsPerRun addressPoolSize).Executes r i step s)
    (ho : Overspends (tokenHarness tokenContract debug commandsPerRun addressPoolSize).ctx step s a) :
    ∃ j < i, ∃ step' s', (tokenHarness tokenContract debug commandsPerRun addressPoolSize).Executes r j step' s' ∧
      StepInflates (tokenHarness tokenContract debug commandsPerRun addressPoolSize).ctx step' s' := by
  set h := tokenHarness tokenContract debug commandsPerRun addressPoolSize with hh
  by_contra hno
  obtain ⟨hi, -⟩ := List.getElem?_eq_some_iff.mp hx.step
  obtain ⟨s', hs', hsim⟩ := sim_before hh i (le_of_lt hi) fun j hj step' s' hx' hinf =>
    hno ⟨j, hj, step', s', hx', hinf⟩
  rw [hx.before] at hs'
  cases hs'
  have hle := payer_holds ho.accepted ho.payer
  have hshort := ho.short
  rw [hsim.tracks.balance] at hshort
  omega

end runs

theorem reported_exactly (debug : Address → String) (commandsPerRun addressPoolSize : Nat) (r : Run TokenCommand) :
    ((tokenHarness tokenContract debug commandsPerRun addressPoolSize).run r = .ok (.ok ()) ↔
      ∀ i step s, (tokenHarness tokenContract debug commandsPerRun addressPoolSize).Executes r i step s →
        ∀ a, ¬ Overspends (tokenHarness tokenContract debug commandsPerRun addressPoolSize).ctx step s a) ∧
    ∀ i step s a, (tokenHarness tokenContract debug commandsPerRun addressPoolSize).Executes r i step s →
      Overspends (tokenHarness tokenContract debug commandsPerRun addressPoolSize).ctx step s a →
      (tokenHarness tokenContract debug commandsPerRun addressPoolSize).run r = .ok (.error
        (overspent debug (tokenHarness tokenContract debug commandsPerRun addressPoolSize).ctx step s a i)) ∧
      ∃ j < i, ∃ step' s',
        (tokenHarness tokenContract debug commandsPerRun addressPoolSize).Executes r j step' s' ∧
          StepInflates (tokenHarness tokenContract debug commandsPerRun addressPoolSize).ctx step' s' := by
  set h := tokenHarness tokenContract debug commandsPerRun addressPoolSize with hh
  have hreported : ∀ i step s a, h.Executes r i step s → Overspends h.ctx step s a →
      h.run r = .ok (.error (overspent debug h.ctx step s a i)) := by
    intro i step s a hx ho
    have hc := covered_before i s hx.before
    exact run_of_step_error hx (overspending_step debug commandsPerRun addressPoolSize hc ho)
  refine ⟨⟨?_, ?_⟩, fun i step s a hx ho => ⟨hreported i step s a hx ho, ?_⟩⟩
  · intro hok i step s hx a ho
    rw [hreported i step s a hx ho] at hok
    cases hok
  · intro hno
    exact (run_of_invariant (h := h) (r := r) (Covered h.ctx) (covered_start h) fun i step s hx hc =>
      covered_step debug commandsPerRun addressPoolSize (i := i) hc (hno i step s hx)).1
  · exact first_inflates hx ho

/-! ## Spending what was inflated -/

def billionAndFive : NonNegativeI128 := ⟨⟨1000000005, by decide, by decide⟩, by decide, by decide⟩

/-- What the initial holder sends on after it transferred 5 to itself. -/
def spendStep : Step TokenCommand := ⟨.transfer ⟨1⟩ ⟨2⟩ billionAndFive, ⟨[1]⟩, none⟩

def spendRun : Run TokenCommand := ⟨[selfTransferStep, spendStep]⟩

theorem reported_spend : (tokenHarness tokenContract (fun _ => "") 32 4).run spendRun =
    .ok (.error ⟨"no-negative-balance", "balance of  went negative: -5", 1⟩) := by
  set h := tokenHarness tokenContract (fun _ => "") 32 4 with hh
  obtain ⟨s, hs, ho, hb⟩ : ∃ s, h.before spendRun 1 = .ok s ∧ Overspends h.ctx spendStep s 1 ∧
      (balanceIn s.model.balances 1).val = 1000000000 := by
    refine ⟨_, rfl, ⟨⟨by decide, ⟨1, by rfl, by rfl⟩, by decide, by decide⟩, by rfl, by decide⟩, by rfl⟩
  have hx : h.Executes spendRun 1 spendStep s := ⟨rfl, hs⟩
  obtain ⟨hrun, -⟩ := (reported_exactly (fun _ => "") 32 4 spendRun).2 1 spendStep s 1 hx ho
  rw [hrun, overspent, hb]
  rfl

end SoroFuzz.Token
