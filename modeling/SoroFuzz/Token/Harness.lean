/-
  SoroFuzz.Token.Harness — the token's shadow model and its wiring into the harness
  (`examples/token/src/harness.rs`).

  The adapter is modeled for any contract behind its client (`TokenImpl`), of which the
  token contract is one (`tokenContract`): what the harness can see of a contract is what
  its calls return.

  Proved:
  - `addTo_iff`, `subFrom_iff`: what the model's `+=` and `-=` on a balance do.
  - `apply_mint`, `apply_burn`, ...: what an accepted command does to the model, and when
    that overflows.
-/

import SoroFuzz.Core.Client
import SoroFuzz.Core.Invariants
import SoroFuzz.Core.Strategies
import SoroFuzz.Token.Contract

namespace SoroFuzz.Token

open SoroFuzz.Core
open Lib (I128)

/-- A contract as its generated client shows it. A call is made to the contract's own
    id, in the `Env` as it stands; what a failed call may change is the contract's business. -/
structure TokenImpl where
  Storage : Type
  Error : Type
  code : Error → UInt32
  empty : Storage
  construct : Address → Address → I128 → Storage
  mint : Address → Address → I128 → Env Storage → CallEnd I128 Error × Env Storage
  burn : Address → Address → I128 → Env Storage → CallEnd I128 Error × Env Storage
  transfer : Address → Address → Address → I128 → Env Storage → CallEnd Unit Error × Env Storage
  balance : Address → Env Storage → I128
  totalSupply : Env Storage → I128

/-- `TokenContract` behind its client. -/
abbrev tokenContract : TokenImpl where
  Storage := Storage
  Error := Error
  code := Error.code
  empty := Storage.empty
  construct := construct
  mint contractId to_ amount env :=
    hostCall (Token.mint (env.authorizes ⟨contractId, "mint", [.address to_, .i128 amount]⟩) to_ amount) env
  burn contractId from_ amount env :=
    hostCall (Token.burn (env.authorizes ⟨contractId, "burn", [.address from_, .i128 amount]⟩) from_ amount) env
  transfer contractId from_ to_ amount env :=
    hostCall (Token.transfer (env.authorizes ⟨contractId, "transfer", [.address from_, .address to_, .i128 amount]⟩)
      from_ to_ amount) env
  balance id env := Token.balance env.storage id
  totalSupply env := Token.totalSupply env.storage

def adminIndex : Nat := 0
def initialHolderIndex : Nat := 1
def initialSupply : I128 := ⟨1000000000, by decide, by decide⟩

/-! ## The shadow model -/

structure TokenModel where
  admin : Address
  balances : List (Address × I128)
  totalSupply : I128

/-- The panic of an i128 `-` that overflows. -/
def subOverflow : Payload := .str "attempt to subtract with overflow"

/-- `a - b`, which panics on overflow. -/
def minus (a b : I128) : Except Payload I128 :=
  match a.checkedSub b with
  | some c => .ok c
  | none => .error subOverflow

def balanceIn (balances : List (Address × I128)) (who : Address) : I128 :=
  ((balances.find? fun e => e.1 = who).map (·.2)).getD 0

/-- The first entry for `who` set to `x`, or a new one at the end. -/
def setIn (who : Address) (x : I128) : List (Address × I128) → List (Address × I128)
  | [] => [(who, x)]
  | (a, b) :: rest => if a = who then (a, x) :: rest else (a, b) :: setIn who x rest

namespace TokenModel

/-- `*model.balance_mut(who) += amount`. -/
def addTo (m : TokenModel) (who : Address) (amount : I128) : Except Payload TokenModel :=
  (plus (balanceIn m.balances who) amount).map fun x => { m with balances := setIn who x m.balances }

/-- `*model.balance_mut(who) -= amount`. -/
def subFrom (m : TokenModel) (who : Address) (amount : I128) : Except Payload TokenModel :=
  (minus (balanceIn m.balances who) amount).map fun x => { m with balances := setIn who x m.balances }

end TokenModel

instance : HasBalances TokenModel where
  balanceHolders m := m.balances.map (·.1)
  balanceOf m who := balanceIn m.balances who

instance : HasTotalSupply TokenModel where
  totalSupply m := m.totalSupply

/-! ## The adapter -/

inductive TokenCommand where
  | mint (to_ : AddressIndex) (amount : NonNegativeI128)
  | burn (from_ : AddressIndex) (amount : NonNegativeI128)
  | transfer (from_ to_ : AddressIndex) (amount : NonNegativeI128)
  deriving DecidableEq, Repr

namespace TokenCommand

def execute (T : TokenImpl) (command : TokenCommand) (ctx : ExecContext) (authorizers : List Address)
    (env : Env T.Storage) :
    Except Payload Outcome × Env T.Storage :=
  match command with
  | .mint to_ amount =>
    let admin := ctx.addresses.get adminIndex
    let toAddr := ctx.addresses.get to_.index.toNat
    let (authSatisfied, env) :=
      mockSingleAuth env ctx.contractId admin authorizers "mint" [.address toAddr, .i128 amount.get]
    let (result, env) := T.mint ctx.contractId toAddr amount.get env
    (Outcome.fromTryResult Empty.elim (encode result) authSatisfied T.code, env)
  | .burn from_ amount =>
    let fromAddr := ctx.addresses.get from_.index.toNat
    let (authSatisfied, env) :=
      mockSingleAuth env ctx.contractId fromAddr authorizers "burn" [.address fromAddr, .i128 amount.get]
    let (result, env) := T.burn ctx.contractId fromAddr amount.get env
    (Outcome.fromTryResult Empty.elim (encode result) authSatisfied T.code, env)
  | .transfer from_ to_ amount =>
    let fromAddr := ctx.addresses.get from_.index.toNat
    let toAddr := ctx.addresses.get to_.index.toNat
    let (authSatisfied, env) := mockSingleAuth env ctx.contractId fromAddr authorizers "transfer"
      [.address fromAddr, .address toAddr, .i128 amount.get]
    let (result, env) := T.transfer ctx.contractId fromAddr toAddr amount.get env
    (Outcome.fromTryResult Empty.elim (encode result) authSatisfied T.code, env)

def applyToModel (command : TokenCommand) (model : TokenModel) (addresses : AddressPool) (outcome : Outcome) :
    Except Payload TokenModel :=
  if !outcome.isOk then .ok model
  else
    match command with
    | .mint to_ amount => do
      let model ← model.addTo (addresses.get to_.index.toNat) amount.get
      let totalSupply ← plus model.totalSupply amount.get
      pure { model with totalSupply }
    | .burn from_ amount => do
      let model ← model.subFrom (addresses.get from_.index.toNat) amount.get
      let totalSupply ← minus model.totalSupply amount.get
      pure { model with totalSupply }
    | .transfer from_ to_ amount => do
      let model ← model.subFrom (addresses.get from_.index.toNat) amount.get
      model.addTo (addresses.get to_.index.toNat) amount.get

def requiredAuthorizer (command : TokenCommand) (model : TokenModel) (addresses : AddressPool) : Option Address :=
  match command with
  | .mint _ _ => some model.admin
  | .burn from_ _ => some (addresses.get from_.index.toNat)
  | .transfer from_ _ _ => some (addresses.get from_.index.toNat)

end TokenCommand

def setup (T : TokenImpl) (addresses : AddressPool) (env : Env T.Storage) : Address × TokenModel × Env T.Storage :=
  let admin := addresses.get adminIndex
  let initialHolder := addresses.get initialHolderIndex
  let (contractId, env) := env.generateAddress
  (contractId, { admin, balances := [(initialHolder, initialSupply)], totalSupply := initialSupply },
    { env with storage := T.construct admin initialHolder initialSupply })

/-- `TokenAdapter`, over any contract. -/
abbrev tokenAdapter (T : TokenImpl) : ContractAdapter where
  Storage := T.Storage
  Command := TokenCommand
  Model := TokenModel
  empty := T.empty
  setup := setup T
  execute := TokenCommand.execute T
  applyToModel := TokenCommand.applyToModel

instance : RequiresAuthorizer TokenCommand TokenModel where
  requiredAuthorizer := TokenCommand.requiredAuthorizer

/-- The invariants of `fuzz_targets/token_fuzz.rs` and its `proptest` mirror. -/
def tokenInvariants (T : TokenImpl) (debug : Address → String) : List (Invariant (tokenAdapter T)) :=
  [noNegativeBalance debug, supplyConservation, authRequiredForMutation debug]

/-- Their harness, with any bounds. -/
def tokenHarness (T : TokenImpl) (debug : Address → String) (commandsPerRun addressPoolSize : Nat) :
    Harness (tokenAdapter T) :=
  (tokenInvariants T debug).foldl Harness.withInvariant
    (((Harness.new (tokenAdapter T)).withCommandsPerRun commandsPerRun).withAddressPoolSize addressPoolSize)

/-- The model's balances of the pool's addresses, and its supply, are those on chain. -/
structure Agrees (T : TokenImpl) (addresses : AddressPool) (s : State (tokenAdapter T)) : Prop where
  balance : ∀ a ∈ addresses.addresses, balanceIn s.model.balances a = T.balance a s.env
  supply : s.model.totalSupply = T.totalSupply s.env

/-! ## The model's arithmetic -/

theorem balanceIn_cons (e : Address × I128) (rest : List (Address × I128)) (a : Address) :
    balanceIn (e :: rest) a = if e.1 = a then e.2 else balanceIn rest a := by
  by_cases h : e.1 = a <;> simp [balanceIn, h]

theorem balanceIn_setIn (who : Address) (x : I128) (bs : List (Address × I128)) (a : Address) :
    balanceIn (setIn who x bs) a = if a = who then x else balanceIn bs a := by
  induction bs with
  | nil =>
    rw [setIn, balanceIn_cons]
    by_cases h : a = who
    · rw [if_pos h.symm, if_pos h]
    · rw [if_neg (Ne.symm h), if_neg h]
  | cons e rest ih =>
    obtain ⟨b, y⟩ := e
    rw [setIn]
    split
    · rename_i hb
      rw [balanceIn_cons, balanceIn_cons]
      by_cases h : b = a
      · rw [if_pos h, if_pos (h.symm.trans hb)]
      · rw [if_neg h, if_neg (fun e => h (hb.trans e.symm)), if_neg h]
    · rename_i hb
      rw [balanceIn_cons, balanceIn_cons, ih]
      by_cases h : b = a
      · rw [if_pos h, if_pos h, if_neg (fun e => hb (h.trans e))]
      · rw [if_neg h, if_neg h]

theorem mem_setIn {who a : Address} {x : I128} {bs : List (Address × I128)} :
    a ∈ (setIn who x bs).map (·.1) ↔ a ∈ bs.map (·.1) ∨ a = who := by
  induction bs with
  | nil => simp [setIn]
  | cons e rest ih =>
    rw [setIn]
    split
    · rename_i hb
      simp only [List.map_cons, List.mem_cons]
      constructor
      · exact Or.inl
      · rintro (h | rfl)
        · exact h
        · exact Or.inl hb.symm
    · simp only [List.map_cons, List.mem_cons, ih, or_assoc]

theorem nodup_setIn {who : Address} {x : I128} {bs : List (Address × I128)} (h : (bs.map (·.1)).Nodup) :
    ((setIn who x bs).map (·.1)).Nodup := by
  induction bs with
  | nil => simp [setIn]
  | cons e rest ih =>
    rw [List.map_cons, List.nodup_cons] at h
    rw [setIn]
    split
    · exact List.nodup_cons.mpr h
    · rename_i hb
      rw [List.map_cons, List.nodup_cons, mem_setIn]
      refine ⟨?_, ih h.2⟩
      rintro (hm | e)
      · exact h.1 hm
      · exact hb e

/-- A holder that is not tracked has no balance. -/
theorem mem_of_balanceIn_ne_zero {a : Address} (bs : List (Address × I128)) (h : balanceIn bs a ≠ 0) :
    a ∈ bs.map (·.1) := by
  unfold balanceIn at h
  cases hf : bs.find? fun e => e.1 = a with
  | none => simp [hf] at h
  | some e =>
    have he : e.1 = a := by simpa using List.find?_some hf
    exact List.mem_map.mpr ⟨e, List.mem_of_find?_eq_some hf, he⟩

theorem minus_ok {a b c : I128} : minus a b = .ok c ↔ c.val = a.val - b.val := by
  rw [← Lib.SInt.checkedSub_eq_some, minus]
  split <;> simp_all

/-- What setting one balance of the model does. -/
structure TokenModel.Sets (m : TokenModel) (who : Address) (x : I128) (m' : TokenModel) : Prop where
  admin : m'.admin = m.admin
  totalSupply : m'.totalSupply = m.totalSupply
  balance : ∀ a, balanceIn m'.balances a = if a = who then x else balanceIn m.balances a
  holders : ∀ a, a ∈ m'.balances.map (·.1) ↔ a ∈ m.balances.map (·.1) ∨ a = who
  nodup : (m.balances.map (·.1)).Nodup → (m'.balances.map (·.1)).Nodup

theorem sets_setIn (m : TokenModel) (who : Address) (x : I128) :
    m.Sets who x { m with balances := setIn who x m.balances } :=
  ⟨rfl, rfl, balanceIn_setIn who x m.balances, fun _ => mem_setIn, nodup_setIn⟩

/-- One balance is set to `v`, when the arithmetic comes to it. -/
theorem map_setIn_iff {m m' : TokenModel} {who : Address} {e : Except Payload I128} {v : Int}
    (he : ∀ x, e = .ok x ↔ x.val = v) :
    (e.map fun x => { m with balances := setIn who x m.balances }) = .ok m' ↔
      ∃ x, x.val = v ∧ m' = { m with balances := setIn who x m.balances } := by
  cases e with
  | ok x =>
    have hx := (he x).mp rfl
    constructor
    · intro h; cases h; exact ⟨x, hx, rfl⟩
    · rintro ⟨y, hy, rfl⟩; rw [Lib.SInt.ext (hy.trans hx.symm)]; rfl
  | error p =>
    constructor
    · intro h; cases h
    · rintro ⟨y, hy, rfl⟩; cases (he y).mpr hy

theorem addTo_iff {m m' : TokenModel} {who : Address} {amount : I128} : m.addTo who amount = .ok m' ↔
    ∃ x, x.val = (balanceIn m.balances who).val + amount.val ∧ m' = { m with balances := setIn who x m.balances } :=
  map_setIn_iff fun _ => plus_ok

theorem subFrom_iff {m m' : TokenModel} {who : Address} {amount : I128} : m.subFrom who amount = .ok m' ↔
    ∃ x, x.val = (balanceIn m.balances who).val - amount.val ∧ m' = { m with balances := setIn who x m.balances } :=
  map_setIn_iff fun _ => minus_ok

theorem addTo_ok (m : TokenModel) (who : Address) (amount : I128) {x : I128}
    (h : x.val = (balanceIn m.balances who).val + amount.val) :
    ∃ m', m.addTo who amount = .ok m' ∧ m.Sets who x m' := ⟨_, addTo_iff.mpr ⟨x, h, rfl⟩, sets_setIn m who x⟩

theorem subFrom_ok (m : TokenModel) (who : Address) (amount : I128) {x : I128}
    (h : x.val = (balanceIn m.balances who).val - amount.val) :
    ∃ m', m.subFrom who amount = .ok m' ∧ m.Sets who x m' := ⟨_, subFrom_iff.mpr ⟨x, h, rfl⟩, sets_setIn m who x⟩

section apply
variable {m m1 m2 : TokenModel} {addresses : AddressPool} {from_ to_ : AddressIndex}
  {amount : NonNegativeI128} {t : I128}

theorem apply_mint (h1 : m.addTo (addresses.get to_.index.toNat) amount.get = .ok m1)
    (h2 : plus m1.totalSupply amount.get = .ok t) :
    (TokenCommand.mint to_ amount).applyToModel m addresses .ok = .ok { m1 with totalSupply := t } := by
  show (m.addTo (addresses.get to_.index.toNat) amount.get >>= fun m => plus m.totalSupply amount.get >>=
    fun t => pure { m with totalSupply := t }) = _
  rw [h1]
  show (plus m1.totalSupply amount.get >>= fun t => pure { m1 with totalSupply := t }) = _
  rw [h2]
  rfl

theorem apply_burn (h1 : m.subFrom (addresses.get from_.index.toNat) amount.get = .ok m1)
    (h2 : minus m1.totalSupply amount.get = .ok t) :
    (TokenCommand.burn from_ amount).applyToModel m addresses .ok = .ok { m1 with totalSupply := t } := by
  show (m.subFrom (addresses.get from_.index.toNat) amount.get >>= fun m => minus m.totalSupply amount.get >>=
    fun t => pure { m with totalSupply := t }) = _
  rw [h1]
  show (minus m1.totalSupply amount.get >>= fun t => pure { m1 with totalSupply := t }) = _
  rw [h2]
  rfl

theorem apply_transfer (h1 : m.subFrom (addresses.get from_.index.toNat) amount.get = .ok m1)
    (h2 : m1.addTo (addresses.get to_.index.toNat) amount.get = .ok m2) :
    (TokenCommand.transfer from_ to_ amount).applyToModel m addresses .ok = .ok m2 := by
  show (m.subFrom (addresses.get from_.index.toNat) amount.get >>= fun m =>
    m.addTo (addresses.get to_.index.toNat) amount.get) = _
  rw [h1]
  exact h2

/-- A computation that succeeds did so step by step. -/
theorem bind_eq_ok {α β : Type} {x : Except Payload α} {f : α → Except Payload β} {y : β} (h : (x >>= f) = .ok y) :
    ∃ a, x = .ok a ∧ f a = .ok y := by
  cases x with
  | ok a => exact ⟨a, rfl, h⟩
  | error p => cases h

theorem apply_mint_inv (h : (TokenCommand.mint to_ amount).applyToModel m addresses .ok = .ok m2) :
    ∃ m1 t, m.addTo (addresses.get to_.index.toNat) amount.get = .ok m1 ∧ plus m1.totalSupply amount.get = .ok t ∧
      m2 = { m1 with totalSupply := t } := by
  obtain ⟨m1, h1, h⟩ := bind_eq_ok h
  obtain ⟨t, h2, h⟩ := bind_eq_ok h
  cases h
  exact ⟨m1, t, h1, h2, rfl⟩

theorem apply_burn_inv (h : (TokenCommand.burn from_ amount).applyToModel m addresses .ok = .ok m2) :
    ∃ m1 t, m.subFrom (addresses.get from_.index.toNat) amount.get = .ok m1 ∧ minus m1.totalSupply amount.get = .ok t ∧
      m2 = { m1 with totalSupply := t } := by
  obtain ⟨m1, h1, h⟩ := bind_eq_ok h
  obtain ⟨t, h2, h⟩ := bind_eq_ok h
  cases h
  exact ⟨m1, t, h1, h2, rfl⟩

theorem apply_transfer_inv (h : (TokenCommand.transfer from_ to_ amount).applyToModel m addresses .ok = .ok m2) :
    ∃ m1, m.subFrom (addresses.get from_.index.toNat) amount.get = .ok m1 ∧
      m1.addTo (addresses.get to_.index.toNat) amount.get = .ok m2 := bind_eq_ok h

end apply

/-! ## The token contract behind the adapter -/

/-- The contract call the command makes. -/
def TokenCommand.call (addresses : AddressPool) : TokenCommand → Call
  | .mint to_ amount => .mint (addresses.get to_.index.toNat) amount.get
  | .burn from_ amount => .burn (addresses.get from_.index.toNat) amount.get
  | .transfer from_ to_ amount => .transfer (addresses.get from_.index.toNat) (addresses.get to_.index.toNat) amount.get

/-- Whose authorization the command mocks. -/
def TokenCommand.signer (addresses : AddressPool) : TokenCommand → Address
  | .mint _ _ => addresses.get adminIndex
  | .burn from_ _ => addresses.get from_.index.toNat
  | .transfer from_ _ _ => addresses.get from_.index.toNat

end SoroFuzz.Token
