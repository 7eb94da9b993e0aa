/-
  SoroFuzz.Token.Detection — what the token's harness can detect of an arbitrary contract
  behind its client.

  The invariants read the shadow model, and the model moves only by what the calls
  return: whatever the contract does, the model is a ledger on which every call that
  returned `Ok` was posted (`model_post`).

  Proved:
  - `tracked_sum`: so the model's balances of the pool always add up to its supply.
  - `negative_is_found`: a step that takes a tracked balance below zero is reported there.
  - `supply_passes`: `SupplyConservation` passes whenever it is asked.
  - `tracked_detected`: a step that leaves a tracked balance negative is reported there, by
    a violation that is never `SupplyConservation`'s, whatever the contract keeps.
  - `onchain_undetected`: a step that leaves the chain out of order need not be.
-/

import SoroFuzz.Token.Simulation

namespace SoroFuzz.Token

open SoroFuzz.Core
open Lib (I128 Ledger)

variable {T : TokenImpl}

/-! ## The model is a ledger -/

noncomputable def modelLedger (bs : List (Address × I128)) : Ledger Address :=
  Finsupp.onFinset (bs.map (·.1)).toFinset (fun a => (balanceIn bs a).val) fun a ha => by
    refine List.mem_toFinset.mpr (mem_of_balanceIn_ne_zero _ fun hz => ha ?_)
    rw [hz, Lib.SInt.val_zero]

@[simp] theorem modelLedger_apply (bs : List (Address × I128)) (a : Address) :
    modelLedger bs a = (balanceIn bs a).val := rfl

theorem modelLedger_addTo {m m' : TokenModel} {who : Address} {amount : I128} (h : m.addTo who amount = .ok m') :
    modelLedger m'.balances = (modelLedger m.balances).deposit who amount.val ∧ m'.totalSupply = m.totalSupply ∧
      (∀ a ∈ m'.balances.map (·.1), a ∈ m.balances.map (·.1) ∨ a = who) ∧
      ((m.balances.map (·.1)).Nodup → (m'.balances.map (·.1)).Nodup) := by
  obtain ⟨x, hx, rfl⟩ := addTo_iff.mp h
  refine ⟨Finsupp.ext fun a => ?_, rfl, fun a => mem_setIn.mp, nodup_setIn⟩
  rw [modelLedger_apply, balanceIn_setIn, Ledger.deposit_apply]
  split
  · rename_i e; rw [hx, e, modelLedger_apply]
  · rfl

theorem modelLedger_subFrom {m m' : TokenModel} {who : Address} {amount : I128} (h : m.subFrom who amount = .ok m') :
    modelLedger m'.balances = (modelLedger m.balances).withdraw who amount.val ∧ m'.totalSupply = m.totalSupply ∧
      (∀ a ∈ m'.balances.map (·.1), a ∈ m.balances.map (·.1) ∨ a = who) ∧
      ((m.balances.map (·.1)).Nodup → (m'.balances.map (·.1)).Nodup) := by
  obtain ⟨x, hx, rfl⟩ := subFrom_iff.mp h
  refine ⟨Finsupp.ext fun a => ?_, rfl, fun a => mem_setIn.mp, nodup_setIn⟩
  rw [modelLedger_apply, balanceIn_setIn, Ledger.withdraw_apply]
  split
  · rename_i e; rw [hx, e, modelLedger_apply]
  · rfl

/-- What the model becomes when a call returned `Ok`: the call is posted, and only
    addresses of the pool get a balance. -/
structure Posted (pool : AddressPool) (command : TokenCommand) (m m' : TokenModel) : Prop where
  ledger : modelLedger m'.balances = (command.call pool).post (modelLedger m.balances)
  supply : m'.totalSupply.val = m.totalSupply.val + (command.call pool).issued
  holders : ∀ a ∈ m'.balances.map (·.1), a ∈ m.balances.map (·.1) ∨ a ∈ pool.addresses
  nodup : (m.balances.map (·.1)).Nodup → (m'.balances.map (·.1)).Nodup

theorem model_post {pool : AddressPool} {command : TokenCommand} {m m' : TokenModel}
    (h : command.applyToModel m pool .ok = .ok m') : Posted pool command m m' := by
  cases command with
  | mint to_ amount =>
    obtain ⟨m1, t, h1, h2, rfl⟩ := apply_mint_inv h
    obtain ⟨hl, hs, hh, hnd⟩ := modelLedger_addTo h1
    exact ⟨hl, by rw [plus_ok.mp h2, hs]; rfl, fun a ha => (hh a ha).imp_right fun (e : a = _) => e ▸ get_mem _ _, hnd⟩
  | burn from_ amount =>
    obtain ⟨m1, t, h1, h2, rfl⟩ := apply_burn_inv h
    obtain ⟨hl, hs, hh, hnd⟩ := modelLedger_subFrom h1
    exact ⟨hl, by rw [minus_ok.mp h2, hs]; rfl, fun a ha => (hh a ha).imp_right fun (e : a = _) => e ▸ get_mem _ _, hnd⟩
  | transfer from_ to_ amount =>
    obtain ⟨m1, h1, h2⟩ := apply_transfer_inv h
    obtain ⟨hl1, hs1, hh1, hnd1⟩ := modelLedger_subFrom h1
    obtain ⟨hl2, hs2, hh2, hnd2⟩ := modelLedger_addTo h2
    refine ⟨by rw [hl2, hl1]; rfl, by rw [hs2, hs1]; simp [TokenCommand.call, Call.issued], fun a ha => ?_,
      fun hnd => hnd2 (hnd1 hnd)⟩
    rcases hh2 a ha with ha | rfl
    · exact (hh1 a ha).imp_right fun (e : a = _) => e ▸ get_mem _ _
    · exact Or.inr (get_mem _ _)

/-! ## What every run keeps of it -/

/-- The model's balances add up to its supply, and only addresses of the pool have one. -/
structure Balanced (pool : AddressPool) (m : TokenModel) : Prop where
  total : (modelLedger m.balances).total = m.totalSupply.val
  holders : ∀ a ∈ m.balances.map (·.1), a ∈ pool.addresses
  nodup : (m.balances.map (·.1)).Nodup

theorem balanced_apply {pool : AddressPool} {command : TokenCommand} {m m' : TokenModel} {outcome : Outcome}
    (hb : Balanced pool m) (h : command.applyToModel m pool outcome = .ok m') : Balanced pool m' := by
  cases outcome with
  | ok =>
    have hp := model_post h
    refine ⟨?_, fun a ha => (hp.holders a ha).elim (hb.holders a) fun ha => ha, hp.nodup hb.nodup⟩
    rw [hp.ledger, total_post, hp.supply, hb.total]
  | declaredError | rejected | undeclaredPanic => cases h; exact hb

variable {h : Harness (tokenAdapter T)} {r : Run TokenCommand}

theorem balanced_start (h : Harness (tokenAdapter T)) : Balanced h.ctx.addresses h.start.2.model := by
  have hm : h.start.2.model = ⟨h.ctx.addresses.get adminIndex,
    [(h.ctx.addresses.get initialHolderIndex, initialSupply)], initialSupply⟩ := rfl
  refine ⟨?_, fun a ha => ?_, by rw [hm]; exact List.nodup_singleton _⟩
  · rw [hm, Ledger.total_eq_sum _ [h.ctx.addresses.get initialHolderIndex] (List.nodup_singleton _)]
    · simp [balanceIn]
    · intro a ha
      refine mem_of_balanceIn_ne_zero [(h.ctx.addresses.get initialHolderIndex, initialSupply)] fun hz => ha ?_
      rw [modelLedger_apply, hz, Lib.SInt.val_zero]
  · rw [hm] at ha
    rw [List.mem_singleton.mp ha]
    exact get_mem _ _

theorem balanced_before (i : Nat) (s : State (tokenAdapter T)) (hs : h.before r i = .ok s) :
    Balanced h.ctx.addresses s.model := by
  refine before_invariant (h := h) (r := r) (fun s => Balanced h.ctx.addresses s.model) (balanced_start h) ?_ i s hs
  intro i step s s' _ hb hstep
  exact balanced_apply hb (step_eq_ok hstep).1

theorem tracked_sum {pool : AddressPool} {m : TokenModel} (hb : Balanced pool m) (hnd : pool.addresses.Nodup) :
    (pool.addresses.map fun a => (balanceIn m.balances a).val).sum = m.totalSupply.val := by
  rw [← hb.total, Ledger.total_eq_sum (modelLedger m.balances) _ hnd fun a ha =>
    hb.holders a (mem_of_balanceIn_ne_zero _ fun hz => ha (by
    rw [modelLedger_apply, hz, Lib.SInt.val_zero]))]
  rfl

/-! ## What is found -/

/-- Step `i` of the run is executed, and leaves this environment and this model. -/
def Leaves (h : Harness (tokenAdapter T)) (r : Run TokenCommand) (i : Nat) (s' : State (tokenAdapter T)) : Prop :=
  ∃ step s, h.Executes r i step s ∧ (executed h.ctx step s).2 = s'.env ∧
    step.command.applyToModel s.model h.ctx.addresses (caught (executed h.ctx step s).1) = .ok s'.model

/-- A balance of the pool is negative: a tracked one, or one on chain that is as the model
    has it. -/
def Overdrawn (T : TokenImpl) (pool : AddressPool) (s : State (tokenAdapter T)) : Prop :=
  ∃ a ∈ pool.addresses, (balanceIn s.model.balances a).val < 0 ∨
    (T.balance a s.env).val < 0 ∧ balanceIn s.model.balances a = T.balance a s.env

/-- A balance of the pool is negative on chain, or they do not add up to the supply there. -/
def OnChainOutOfOrder (T : TokenImpl) (pool : AddressPool) (env : Env T.Storage) : Prop :=
  (∃ a ∈ pool.addresses, (T.balance a env).val < 0) ∨
    (pool.addresses.map fun a => (T.balance a env).val).sum ≠ (T.totalSupply env).val

variable {debug : Address → String} {commandsPerRun addressPoolSize : Nat}

theorem negative_is_found {i : Nat} {s' : State (tokenAdapter T)}
    (hl : Leaves (tokenHarness T debug commandsPerRun addressPoolSize) r i s') {a : Address}
    (ha : (balanceIn s'.model.balances a).val < 0) :
    ∃ v, (tokenHarness T debug commandsPerRun addressPoolSize).run r = .ok (.error v) ∧ v.stepIndex = i := by
  set h := tokenHarness T debug commandsPerRun addressPoolSize with hh
  obtain ⟨step, s, hx, henv, hm⟩ := hl
  by_cases hp : ∃ m, caught (executed h.ctx step s).1 = .undeclaredPanic m
  · obtain ⟨m, hm⟩ := hp
    exact ⟨_, run_of_step_error hx (step_undeclaredPanic_iff.mpr ⟨rfl, hm⟩), rfl⟩
  · have hholder : a ∈ s'.model.balances.map (·.1) :=
      mem_of_balanceIn_ne_zero _ fun hz => by rw [hz, Lib.SInt.val_zero] at ha; exact lt_irrefl _ ha
    obtain ⟨v, hv, hvi⟩ := noNegativeBalance_error (A := tokenAdapter T) debug (a := a)
      ⟨(executed h.ctx step s).2, h.ctx.contractId, s'.model, step.command, caught (executed h.ctx step s).1,
        h.ctx.addresses.resolve step.authorized, h.ctx.addresses, i⟩ hholder ha
    have hj : h.step h.ctx i step s = .error (.invariant v) := by
      rw [step_of_outcome fun m hm => hp ⟨m, hm⟩]
      exact judge_violation hm (checkAll_cons_violation hv)
    exact ⟨v, run_of_step_error hx hj, hvi⟩

theorem leaves_balanced {i : Nat} {s' : State (tokenAdapter T)} (hl : Leaves h r i s') :
    Balanced h.ctx.addresses s'.model := by
  obtain ⟨step, s, hx, -, hm⟩ := hl
  exact balanced_apply (balanced_before i s hx.before) hm

/-- The states of a run: before a step, and after one that is executed. -/
def Visits (h : Harness (tokenAdapter T)) (r : Run TokenCommand) (s : State (tokenAdapter T)) : Prop :=
  ∃ i, h.before r i = .ok s ∨ Leaves h r i s

theorem visits_balanced {s : State (tokenAdapter T)} (hv : Visits h r s) : Balanced h.ctx.addresses s.model := by
  obtain ⟨i, hs | hl⟩ := hv
  · exact balanced_before i s hs
  · exact leaves_balanced hl

/-- The tracked balances are the supply however they are added up. -/
theorem holders_sum {pool : AddressPool} {m : TokenModel} (hb : Balanced pool m) :
    m.totalSupply.val = ((m.balances.map (·.1)).map fun a => (balanceIn m.balances a).val).sum := by
  rw [← hb.total, Ledger.total_eq_sum (modelLedger m.balances) _ hb.nodup fun a ha =>
    mem_of_balanceIn_ne_zero _ fun hz => ha (by rw [modelLedger_apply, hz, Lib.SInt.val_zero])]
  rfl

/-- `SupplyConservation` is asked only after `NoNegativeBalance` passed, and passes. -/
theorem supply_passes {ctx : InvariantCtx (tokenAdapter T)} (hb : Balanced ctx.addresses ctx.model)
    (hn : (noNegativeBalance (A := tokenAdapter T) debug).check ctx = .ok (.ok ())) :
    (supplyConservation (A := tokenAdapter T)).check ctx = .ok (.ok ()) :=
  supplyConservation_ok ((noNegativeBalance_ok_iff (A := tokenAdapter T) debug).mp hn) (holders_sum hb)

/-- A violation that the checks report is not `SupplyConservation`'s. -/
theorem checkAll_not_supply {ctx : InvariantCtx (tokenAdapter T)} {v : Violation} (hb : Balanced ctx.addresses ctx.model)
    (hc : checkAll (tokenInvariants T debug) ctx = .error (.invariant v)) : v.invariant ≠ "supply-conservation" := by
  simp only [tokenInvariants, checkAll] at hc
  split at hc
  · rename_i hn
    rw [supply_passes hb hn] at hc
    dsimp only at hc
    split at hc
    · cases hc
    · rename_i v' ha
      cases hc
      rw [authRequiredForMutation_invariant ha]
      decide
    · cases hc
  · rename_i v' hn
    cases hc
    rw [noNegativeBalance_invariant hn]
    decide
  · cases hc

theorem never_supply {v : Violation} (hv : (tokenHarness T debug commandsPerRun addressPoolSize).run r = .ok (.error v)) :
    v.invariant ≠ "supply-conservation" := by
  obtain ⟨stop, hstop, hres⟩ := run_eq_error hv
  obtain ⟨i, step, s, hx, he⟩ := stop_error_iff.mp hstop
  cases stop with
  | undeclaredPanic m k =>
    cases hres
    exact ne_of_beq_false rfl
  | unwound p => cases hres
  | invariant v' =>
    cases hres
    obtain ⟨m, hm, hc⟩ := step_eq_invariant he
    have hb : Balanced (tokenHarness T debug commandsPerRun addressPoolSize).ctx.addresses m :=
      balanced_apply (balanced_before i s hx.before) hm
    have hinv : (tokenHarness T debug commandsPerRun addressPoolSize).invariants = tokenInvariants T debug := rfl
    rw [hinv] at hc
    exact checkAll_not_supply hb hc

theorem tracked_detected (T : TokenImpl) (debug : Address → String) (commandsPerRun addressPoolSize : Nat)
    (r : Run TokenCommand) :
    (∀ i s', Leaves (tokenHarness T debug commandsPerRun addressPoolSize) r i s' →
      Overdrawn T (tokenHarness T debug commandsPerRun addressPoolSize).ctx.addresses s' →
        ∃ v, (tokenHarness T debug commandsPerRun addressPoolSize).run r = .ok (.error v) ∧ v.stepIndex = i) ∧
    (∀ s, Visits (tokenHarness T debug commandsPerRun addressPoolSize) r s →
      ((tokenHarness T debug commandsPerRun addressPoolSize).ctx.addresses.addresses.map fun a =>
        (balanceIn s.model.balances a).val).sum = s.model.totalSupply.val) ∧
    ∀ v, (tokenHarness T debug commandsPerRun addressPoolSize).run r = .ok (.error v) →
      v.invariant ≠ "supply-conservation" := by
  refine ⟨fun i s' hl hout => ?_, fun s hv => tracked_sum (visits_balanced hv) (pool_nodup _),
    fun v hv => never_supply hv⟩
  obtain ⟨a, -, hneg | ⟨hneg, hagree⟩⟩ := hout
  · exact negative_is_found hl hneg
  · exact negative_is_found hl (a := a) (by rw [hagree]; exact hneg)

/-- A contract that keeps accounts, and lets whoever asks overdraw them. -/
def lenient : TokenImpl where
  Storage := List (Address × I128)
  Error := Empty
  code := Empty.elim
  empty := []
  construct _ holder supply := [(holder, supply)]
  mint _ to_ amount env :=
    (.ok amount, { env with storage := setIn to_ (.wrap ((balanceIn env.storage to_).val + amount.val)) env.storage })
  burn _ from_ amount env :=
    (.ok amount, { env with storage := setIn from_ (.wrap ((balanceIn env.storage from_).val - amount.val)) env.storage })
  transfer _ _ _ _ env := (.ok (), env)
  balance id env := balanceIn env.storage id
  totalSupply _ := initialSupply

/-- An address without tokens burns 5. -/
def overdraw : Run TokenCommand := ⟨[⟨.burn ⟨2⟩ five, ⟨[2]⟩, none⟩]⟩

theorem overdraw_detected :
    ∃ v, (tokenHarness lenient (fun _ => "") 32 4).run overdraw = .ok (.error v) ∧ v.stepIndex = 0 := by
  have hl : Leaves (tokenHarness lenient (fun _ => "") 32 4) overdraw 0
      ⟨⟨0, 5, [⟨2, ⟨4, "burn", [.address 2, .i128 five.get]⟩⟩],
          [(1, initialSupply), (2, ⟨-5, by decide, by decide⟩)]⟩,
        ⟨0, [(1, initialSupply), (2, ⟨-5, by decide, by decide⟩)], ⟨999999995, by decide, by decide⟩⟩⟩ :=
    ⟨_, _, ⟨rfl, rfl⟩, rfl, rfl⟩
  exact (tracked_detected lenient (fun _ => "") 32 4 overdraw).1 0 _ hl
    ⟨2, by decide, Or.inr ⟨by decide, by decide⟩⟩

theorem onchain_undetected : ¬ ∀ (T : TokenImpl) (debug : Address → String) (commandsPerRun addressPoolSize : Nat)
    (r : Run TokenCommand) (i : Nat) (s' : State (tokenAdapter T)),
    Leaves (tokenHarness T debug commandsPerRun addressPoolSize) r i s' →
      OnChainOutOfOrder T (tokenHarness T debug commandsPerRun addressPoolSize).ctx.addresses s'.env →
        ∃ v, (tokenHarness T debug commandsPerRun addressPoolSize).run r = .ok (.error v) ∧ v.stepIndex ≤ i := by
  intro hall
  set h := tokenHarness tokenContract (fun _ => "") 32 4 with hh
  have hpass : h.run selfTransferRun = .ok (.ok ()) := by rfl
  have hx : h.Executes selfTransferRun 0 selfTransferStep h.start.2 := ⟨rfl, rfl⟩
  obtain ⟨s', hs'⟩ := run_ok_iff.mp hpass 0 _ _ hx
  obtain ⟨hm, henv⟩ := step_eq_ok hs'
  have hout : (h.before selfTransferRun 1).map (fun s => decide ((h.ctx.addresses.addresses.map fun a =>
      (tokenContract.balance a s.env).val).sum = (tokenContract.totalSupply s.env).val)) = .ok false := by rfl
  rw [hx.before_succ, hs'] at hout
  obtain ⟨v, hv, -⟩ := hall tokenContract (fun _ => "") 32 4 selfTransferRun 0 s' ⟨_, _, hx, henv.symm, hm⟩
    (Or.inr (of_decide_eq_false (Except.ok.inj hout)))
  rw [← hh, hpass] at hv
  cases hv

end SoroFuzz.Token
