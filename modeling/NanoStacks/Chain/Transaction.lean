import NanoStacks.Chain.Ledger
import NanoStacks.Lib.Effect
import Mathlib.Logic.Function.Basic

/-!
# Transactions on a block's state

The state a block builds up holds account nonces and the tenure height, and beside them whatever
Clarity keeps (`World`). The Clarity engine is a parameter (`Clarity`): any functions of that state
that leave the nonces and the tenure height alone.

Executing one transaction is written once, for a VM whose operations are effects on any state
(`VmOperations`), and `Ran` says how it comes to a receipt. On the state of a block the engine is the VM
(`Clarity.vm`); `Chain.Rollback` runs it on the store, in a transaction of the store's own.
-/

namespace NanoStacks.Chain

open Bitcoin Sortition Result

/-! ## Costs and receipts -/

structure ExecutionCost where
  writeLength : Nat
  writeCount : Nat
  readLength : Nat
  readCount : Nat
  runtime : Nat

namespace ExecutionCost

def zero : ExecutionCost := ⟨0, 0, 0, 0, 0⟩

def plus (a b : ExecutionCost) : ExecutionCost :=
  ⟨a.writeLength + b.writeLength, a.writeCount + b.writeCount, a.readLength + b.readLength,
    a.readCount + b.readCount, a.runtime + b.runtime⟩

/-- Every dimension is a `u64`. -/
def Fits (cost : ExecutionCost) : Prop :=
  cost.writeLength < 2 ^ 64 ∧ cost.writeCount < 2 ^ 64 ∧ cost.readLength < 2 ^ 64 ∧
    cost.readCount < 2 ^ 64 ∧ cost.runtime < 2 ^ 64

instance (cost : ExecutionCost) : Decidable cost.Fits := by
  unfold Fits
  infer_instance

/-- The sum, refused when a dimension overflows. -/
def add (a b : ExecutionCost) : Option ExecutionCost :=
  if (a.plus b).Fits then some (a.plus b) else none

/-- What `a` has become when adding `b` stops: the dimensions are added one after another, up to the
first that overflows. -/
def addInto (a b : ExecutionCost) : ExecutionCost :=
  if 2 ^ 64 ≤ a.runtime + b.runtime then a
  else if 2 ^ 64 ≤ a.readCount + b.readCount then { a with runtime := a.runtime + b.runtime }
  else if 2 ^ 64 ≤ a.readLength + b.readLength then
    { a with runtime := a.runtime + b.runtime, readCount := a.readCount + b.readCount }
  else if 2 ^ 64 ≤ a.writeLength + b.writeLength then
    { a with
      runtime := a.runtime + b.runtime, readCount := a.readCount + b.readCount
      readLength := a.readLength + b.readLength }
  else if 2 ^ 64 ≤ a.writeCount + b.writeCount then { a.plus b with writeCount := a.writeCount }
  else a.plus b

def exceeds (a b : ExecutionCost) : Bool :=
  b.writeLength < a.writeLength || b.writeCount < a.writeCount || b.readLength < a.readLength ||
    b.readCount < a.readCount || b.runtime < a.runtime

end ExecutionCost

def epoch4BlockLimit : ExecutionCost := ⟨15000000, 15000, 200000000, 30000, 5000000000⟩

structure TransactionResult (Value Assets Event : Type) where
  value : Option Value
  cost : ExecutionCost
  assets : Assets
  events : List Event

inductive TransactionStatus
  | success
  | abortedByResponse
  | postConditionAborted (reason : String)
  | runtimeFailure (error : String)

inductive PayloadOutcome (Value Assets Event : Type)
  | success (result : TransactionResult Value Assets Event)
  | abortedByResponse (result : TransactionResult Value Assets Event)
  | runtimeFailure (result : TransactionResult Value Assets Event) (error : String)

/-- An event as it is reported: the members read one by one, and the whole document. -/
structure EventJson where
  txid : Option String
  type : Option String
  committed : String
  document : List UInt8

structure TransactionReceipt (Value Assets Event : Type) where
  txid : Txid
  status : TransactionStatus
  committed : Bool
  result : TransactionResult Value Assets Event

/-! ## The state of a block -/

structure World (State : Type) where
  tenureHeight : Nat
  nonce : Principal → Nat
  state : State

namespace World

variable {State : Type} (world : World State)

def withState (state : State) : World State := ⟨world.tenureHeight, world.nonce, state⟩

def setAccountNonce (principal : Principal) (nonce : Nat) : World State :=
  ⟨world.tenureHeight, Function.update world.nonce principal nonce, world.state⟩

def setTenureHeight (height : Nat) : World State := ⟨height, world.nonce, world.state⟩

@[simp] theorem setAccountNonce_nonce (principal : Principal) (nonce : Nat) :
    (world.setAccountNonce principal nonce).nonce = Function.update world.nonce principal nonce :=
  rfl

end World

/-- A step that leaves nonces and the tenure height alone. -/
structure World.Keeps {State : Type} (world world' : World State) : Prop where
  nonce : world'.nonce = world.nonce
  tenureHeight : world'.tenureHeight = world.tenureHeight

namespace World.Keeps

variable {State : Type} {world world' world'' : World State}

theorem rfl : world.Keeps world := ⟨Eq.refl _, Eq.refl _⟩

theorem trans (h : world.Keeps world') (h' : world'.Keeps world'') : world.Keeps world'' :=
  ⟨h'.nonce.trans h.nonce, h'.tenureHeight.trans h.tenureHeight⟩

theorem withState (state : State) : world.Keeps (world.withState state) := ⟨Eq.refl _, Eq.refl _⟩

end World.Keeps

/-- What the engine knows of the block it runs in. -/
structure BlockEnv where
  network : Network
  parent : Option StacksBlockId
  context : BitcoinBlockContext
  tenureStarts : OrdMap Nat Nat

/-- The Clarity engine, as functions of the state of the block under way. -/
structure Clarity where
  State : Type
  Value : Type
  Assets : Type
  Event : Type
  RewardSet : Type
  genesis : State
  okTrue : Value
  noAssets : Assets
  /-- What the error of a cost that overflows says. -/
  costOverflow : String
  parsesContract : ParsesContract
  pendingStateRoot : BlockEnv → World State → Bytes 32
  setupBlockMetadata : BlockEnv → Nat → World State → Except ChainStateError State
  executeBitcoinOperations : BlockEnv → List BitcoinOperation → Nat → World State →
    Except ChainStateError State
  /-- What `.signers` records for a cycle: nothing, entries, or entries that cannot be read. -/
  recordedSigners : BlockEnv → Nat → World State → Option (Except String (List (Hash160 × Nat)))
  /-- Compute and store the signer set of a cycle. -/
  setSigners : BlockEnv → Nat → Nat → World State →
    Except ChainStateError (Option RewardSet × State)
  sbtcPayoutAddress : BlockEnv → Option String → World State → Except ChainStateError PoxAddress
  debit : Principal → Nat → World State → Except ChainStateError State
  touchStxBalance : Principal → World State → Except ChainStateError State
  creditStx : Principal → Nat → World State → Except ChainStateError State
  incrementLiquidStxSupply : Nat → World State → Except ChainStateError State
  processScheduledUnlocks : BlockEnv → World State →
    Except ChainStateError (Nat × List Event × State)
  stxMintEvent : Principal → Nat → Event
  executePayload : BlockEnv → Transaction → Principal → Option Principal → ExecutionCost →
    World State → Except ChainStateError (PayloadOutcome Value Assets Event × State)
  checkPostconditions : Transaction → Principal → Assets → Except ChainStateError (Option String)
  /-- The transaction that reports a block's unlocks to observers. -/
  phantomUnlockTransaction : Network → Nat → Transaction
  serializeToHex : Value → Except String String
  jsonSerialize : Event → Nat → Txid → Bool → Except String EventJson

namespace Clarity

variable (E : Clarity)

abbrev Result := TransactionResult E.Value E.Assets E.Event
abbrev Receipt := TransactionReceipt E.Value E.Assets E.Event

/-- `debit_fee`: nothing is touched for no fee. -/
def debitFee (payer : Principal) (fee : Nat) (world : World E.State) :
    Except ChainStateError (World E.State) :=
  if fee = 0 then .ok world
  else do return world.withState (← E.debit payer fee world)

end Clarity

/-! ## What a transaction names -/

def incrementNonce (nonce : Nat) : Except ChainStateError Nat := do
  ensure (nonce + 1 < 2 ^ 64) (.invalidTransaction "origin nonce overflow")
  return nonce + 1

/-- Why the first attempt at a transaction ends without a receipt. -/
inductive TransactionStop (Value Assets Event : Type)
  | failure (result : TransactionResult Value Assets Event) (status : TransactionStatus)
  | refused (error : ChainStateError)

variable (H : Hashes) (E : Clarity)

namespace Transaction

variable (transaction : Transaction)

/-- `system_receipt`: the receipt of a coinbase or a tenure change. -/
def systemReceipt : Option E.Receipt :=
  if transaction.isCoinbase || transaction.isTenureChange then
    some ⟨transaction.txid H, .success, true, ⟨some E.okTrue, .zero, E.noAssets, []⟩⟩
  else none

def sender : Principal := .standard transaction.originAddress

def sponsor : Option Principal := transaction.sponsorAddress.map .standard

def payer : Principal := transaction.sponsor.getD transaction.sender

/-- Whether a transaction is the block's own: a coinbase or a tenure change. -/
def isSystem : Bool := transaction.isCoinbase || transaction.isTenureChange

/-- Whether a successful payload stands, or why it does not. -/
def postconditionFailure (result : E.Result) : Except ChainStateError (Option String) :=
  match transaction.payload with
  | .tokenTransfer .. => do
    ensure (transaction.postConditions = [])
      (.invalidTransaction "token transfers cannot have post-conditions")
    return none
  | _ => E.checkPostconditions transaction transaction.sender result.assets

end Transaction

/-! ## Operations of the VM -/

/-- What execution asks of the VM: effects on a state that is written in place. -/
structure VmOperations (σ ω : Type) where
  accountNonce : Principal → σ → Except ChainStateError Nat
  debitFee : Principal → Nat → Effect σ ω ChainStateError Unit
  touchStxBalance : Principal → Effect σ ω ChainStateError Unit
  setAccountNonce : Principal → Nat → Effect σ ω ChainStateError Unit
  executePayload : Transaction → Principal → Option Principal → ExecutionCost →
    Effect σ ω ChainStateError (PayloadOutcome E.Value E.Assets E.Event)

/-- The engine's functions as operations on the state of a block. -/
def Clarity.vm (env : BlockEnv) : VmOperations E (World E.State) Empty where
  accountNonce principal world := .ok (world.nonce principal)
  debitFee payer fee := .modify fun world => do return ((), ← E.debitFee payer fee world)
  touchStxBalance principal := .modify fun world => do
    return ((), world.withState (← E.touchStxBalance principal world))
  setAccountNonce principal nonce := .modify fun world =>
    .ok ((), world.setAccountNonce principal nonce)
  executePayload transaction sender sponsor cost := .modify fun world => do
    let (outcome, state) ← E.executePayload env transaction sender sponsor cost world
    return (outcome, world.withState state)

/-! ## Executing one transaction -/

section Execution

variable {E} {σ ω : Type} (vm : VmOperations E σ ω) (transaction : Transaction)

def updateTransactionNonces : Effect σ ω ChainStateError Unit := do
  let originNonce ← .lift (incrementNonce transaction.auth.origin.nonce)
  vm.setAccountNonce transaction.sender originNonce
  match transaction.sponsor with
  | none => return ()
  | some sponsor =>
    let payerNonce ← .lift (incrementNonce transaction.auth.payer.nonce)
    vm.setAccountNonce sponsor payerNonce

def prepareUserTransaction : Effect σ ω ChainStateError Unit := do
  let originNonce ← .reads (vm.accountNonce transaction.sender)
  .lift (ensure (originNonce = transaction.auth.origin.nonce)
    (.invalidTransaction "origin nonce does not match account state"))
  let payerNonce ← .reads (vm.accountNonce transaction.payer)
  .lift (ensure (payerNonce = transaction.auth.payer.nonce)
    (.invalidTransaction "payer nonce does not match account state"))
  vm.debitFee transaction.payer transaction.auth.payer.fee

/-- The fee and the nonces of a failed transaction stand. -/
def applyTransactionFailure (result : E.Result) (status : TransactionStatus) :
    Effect σ ω ChainStateError E.Receipt := do
  vm.debitFee transaction.payer transaction.auth.payer.fee
  updateTransactionNonces vm transaction
  return ⟨transaction.txid H, status, false, result⟩

def executeSystemTransaction (receipt : E.Receipt) : Effect σ ω ChainStateError E.Receipt := do
  let fee := transaction.auth.payer.fee
  (if fee = 0 then vm.touchStxBalance transaction.sender else vm.debitFee transaction.sender fee)
  let nonce ← .lift (incrementNonce transaction.auth.origin.nonce)
  vm.setAccountNonce transaction.sender nonce
  return receipt

/-- What follows the payload of a user's transaction. -/
def finishPayload (outcome : PayloadOutcome E.Value E.Assets E.Event) :
    Effect σ ω (TransactionStop E.Value E.Assets E.Event) E.Receipt :=
  match outcome with
  | .abortedByResponse result => do
    (updateTransactionNonces vm transaction).mapError .refused
    return ⟨transaction.txid H, .abortedByResponse, false, result⟩
  | .runtimeFailure result error => .lift (.error (.failure result (.runtimeFailure error)))
  | .success result => do
    match ← .lift ((transaction.postconditionFailure E result).mapError .refused) with
    | some reason => .lift (.error (.failure result (.postConditionAborted reason)))
    | none =>
      (updateTransactionNonces vm transaction).mapError .refused
      return ⟨transaction.txid H, .success, true, result⟩

variable (cost : ExecutionCost)

def executeTransactionInTransaction :
    Effect σ ω (TransactionStop E.Value E.Assets E.Event) E.Receipt :=
  match transaction.systemReceipt H E with
  | some receipt => (executeSystemTransaction vm transaction receipt).mapError .refused
  | none => do
    (prepareUserTransaction vm transaction).mapError .refused
    let outcome ← (vm.executePayload transaction transaction.sender transaction.sponsor cost).mapError
      .refused
    finishPayload H vm transaction outcome

/-- What `execute_transaction` leaves of a state: a failed transaction is rolled back and still pays
its fee. -/
def runTransaction (s : σ) : Except ChainStateError (E.Receipt × σ × List ω) :=
  match executeTransactionInTransaction H vm transaction cost s with
  | ⟨.ok receipt, s', writes⟩ => .ok (receipt, s', writes)
  | ⟨.error (.refused error), _, _⟩ => .error error
  | ⟨.error (.failure result status), _, _⟩ =>
    match applyTransactionFailure H vm transaction result status s with
    | ⟨.ok receipt, s', writes⟩ => .ok (receipt, s', writes)
    | ⟨.error error, _, _⟩ => .error error

/-! ## How a receipt comes about -/

/-- The nonces a transaction names are those of its accounts. -/
def NoncesMatch (s : σ) : Prop :=
  vm.accountNonce transaction.sender s = .ok transaction.auth.origin.nonce ∧
    vm.accountNonce transaction.payer s = .ok transaction.auth.payer.nonce

/-- The nonces of the origin and of a sponsor have been written. -/
def NoncesWritten (before after : σ) (writes : List ω) : Prop :=
  match transaction.sponsor with
  | none => vm.setAccountNonce transaction.sender (transaction.auth.origin.nonce + 1) before =
      ⟨.ok (), after, writes⟩
  | some sponsor => ∃ mid first second,
      vm.setAccountNonce transaction.sender (transaction.auth.origin.nonce + 1) before =
        ⟨.ok (), mid, first⟩ ∧
      vm.setAccountNonce sponsor (transaction.auth.payer.nonce + 1) mid = ⟨.ok (), after, second⟩ ∧
      first ++ second = writes

/-- How a transaction came to a receipt of some status. -/
inductive Ran (before : σ) : TransactionStatus → σ → List ω → Prop
  | system {receipt receipt' after writes} (system : transaction.isSystem = true)
    (executes : executeSystemTransaction vm transaction receipt before =
      ⟨.ok receipt', after, writes⟩) : Ran before receipt'.status after writes
  | failed {status paid after fee nonces} (user : transaction.isSystem = false)
    (hstatus : status ≠ .success) (hmatch : NoncesMatch vm transaction before)
    (hfee : vm.debitFee transaction.payer transaction.auth.payer.fee before = ⟨.ok (), paid, fee⟩)
    (hnonces : NoncesWritten vm transaction paid after nonces) :
    Ran before status after (fee ++ nonces)
  | finished {status outcome paid ran after fee payload nonces} (user : transaction.isSystem = false)
    (hstatus : status = .abortedByResponse ∧ (∃ result, outcome = .abortedByResponse result) ∨
      status = .success ∧ ∃ result, outcome = .success result ∧
        transaction.postconditionFailure E result = .ok none)
    (hmatch : NoncesMatch vm transaction before)
    (hfee : vm.debitFee transaction.payer transaction.auth.payer.fee before = ⟨.ok (), paid, fee⟩)
    (hpayload : vm.executePayload transaction transaction.sender transaction.sponsor cost paid =
      ⟨.ok outcome, ran, payload⟩)
    (hnonces : NoncesWritten vm transaction ran after nonces) :
    Ran before status after (fee ++ (payload ++ nonces))

variable {H vm transaction cost} {before after : σ} {writes : List ω} {receipt : E.Receipt}

theorem incrementNonce_eq_ok {nonce next : Nat} (h : incrementNonce nonce = .ok next) :
    next = nonce + 1 := by
  simp only [incrementNonce, bind_eq_ok, pure_eq_ok, Except.ok.injEq] at h
  obtain ⟨-, -, rfl⟩ := h
  rfl

theorem updateTransactionNonces_eq_ok
    (h : updateTransactionNonces vm transaction before = ⟨.ok (), after, writes⟩) :
    NoncesWritten vm transaction before after writes := by
  unfold NoncesWritten
  simp only [updateTransactionNonces, Effect.bind_eq_ok, Effect.lift_eq] at h
  obtain ⟨originNonce, _, _, rest, ⟨horigin, rfl, rfl⟩, ⟨_, mid, first, second, hset, hpayer, rfl⟩, rfl⟩ := h
  obtain rfl := incrementNonce_eq_ok horigin
  cases hsponsor : transaction.sponsor with
  | none =>
    rw [hsponsor] at hpayer
    obtain ⟨-, rfl, rfl⟩ := Effect.pure_eq_ok.1 hpayer
    simpa using hset
  | some sponsor =>
    simp only [hsponsor, Effect.bind_eq_ok, Effect.lift_eq] at hpayer
    obtain ⟨payerNonce, _, _, last, ⟨hnonce, rfl, rfl⟩, hlast, rfl⟩ := hpayer
    obtain rfl := incrementNonce_eq_ok hnonce
    exact ⟨mid, first, last, hset, hlast, rfl⟩

theorem prepareUserTransaction_eq_ok
    (h : prepareUserTransaction vm transaction before = ⟨.ok (), after, writes⟩) :
    NoncesMatch vm transaction before ∧
      vm.debitFee transaction.payer transaction.auth.payer.fee before = ⟨.ok (), after, writes⟩ := by
  simp only [prepareUserTransaction, Effect.bind_eq_ok, Effect.lift_eq, Effect.reads_eq,
    ensure_eq_ok] at h
  obtain ⟨_, _, _, _, ⟨horigin, rfl, rfl⟩, ⟨_, _, _, _, ⟨rfl, rfl, rfl⟩, ⟨_, _, _, _, ⟨hpayer, rfl, rfl⟩,
    ⟨_, _, _, _, ⟨rfl, rfl, rfl⟩, hdebit, rfl⟩, rfl⟩, rfl⟩, rfl⟩ := h
  exact ⟨⟨horigin, hpayer⟩, hdebit⟩

variable {result : E.Result} {status : TransactionStatus}
  {outcome : PayloadOutcome E.Value E.Assets E.Event}

theorem finishPayload_eq_ok
    (h : finishPayload H vm transaction outcome before = ⟨.ok receipt, after, writes⟩) :
    NoncesWritten vm transaction before after writes ∧
      (receipt.status = .abortedByResponse ∧ (∃ result, outcome = .abortedByResponse result) ∨
        receipt.status = .success ∧ ∃ result, outcome = .success result ∧
          transaction.postconditionFailure E result = .ok none) := by
  cases outcome with
  | abortedByResponse result =>
    simp only [finishPayload, Effect.bind_eq_ok, Effect.mapError_eq_ok, Effect.pure_eq_ok] at h
    obtain ⟨_, _, nonces, _, hnonces, ⟨rfl, rfl, rfl⟩, rfl⟩ := h
    rw [List.append_nil]
    exact ⟨updateTransactionNonces_eq_ok hnonces, .inl ⟨rfl, result, rfl⟩⟩
  | runtimeFailure result error => simp [finishPayload] at h
  | success result =>
    simp only [finishPayload, Effect.bind_eq_ok, Effect.lift_eq] at h
    obtain ⟨reason, _, _, _, ⟨hchecked, rfl, rfl⟩, h, rfl⟩ := h
    cases reason with
    | some reason => simp at h
    | none =>
      simp only [Effect.bind_eq_ok, Effect.mapError_eq_ok, Effect.pure_eq_ok] at h
      obtain ⟨_, _, nonces, _, hnonces, ⟨rfl, rfl, rfl⟩, rfl⟩ := h
      rw [List.append_nil, List.nil_append]
      exact ⟨updateTransactionNonces_eq_ok hnonces,
        .inr ⟨rfl, result, rfl, mapError_eq_ok.1 hchecked⟩⟩

theorem finishPayload_failure
    (h : finishPayload H vm transaction outcome before = ⟨.error (.failure result status), after, writes⟩) :
    status ≠ .success := by
  cases outcome with
  | abortedByResponse result =>
    simp [finishPayload, Effect.bind_eq_error, Effect.mapError_eq_error] at h
  | runtimeFailure result error =>
    simp only [finishPayload, Effect.lift_eq, Except.error.injEq, TransactionStop.failure.injEq] at h
    obtain ⟨⟨-, rfl⟩, -⟩ := h
    simp
  | success result =>
    simp only [finishPayload, Effect.bind_eq_error, Effect.lift_eq] at h
    rcases h with ⟨hchecked, -⟩ | ⟨reason, _, _, _, -, h, -⟩
    · cases hcheck : transaction.postconditionFailure E result <;>
        simp [hcheck, Except.mapError] at hchecked
    · cases reason with
      | some reason =>
        simp only [Effect.lift_eq, Except.error.injEq, TransactionStop.failure.injEq] at h
        obtain ⟨⟨-, rfl⟩, -⟩ := h
        simp
      | none => simp [Effect.bind_eq_error, Effect.mapError_eq_error] at h

variable (H E transaction) in
theorem isSome_systemReceipt : (transaction.systemReceipt H E).isSome = transaction.isSystem := by
  unfold Transaction.systemReceipt Transaction.isSystem
  split_ifs with hsystem
  · exact hsystem.symm
  · exact (Bool.eq_false_iff.2 hsystem).symm

theorem executeTransactionInTransaction_eq_ok
    (h : executeTransactionInTransaction H vm transaction cost before = ⟨.ok receipt, after, writes⟩) :
    Ran vm transaction cost before receipt.status after writes := by
  have hsystem := isSome_systemReceipt H E transaction
  unfold executeTransactionInTransaction at h
  cases hreceipt : transaction.systemReceipt H E with
  | some systemReceipt =>
    rw [hreceipt] at h hsystem
    exact .system hsystem.symm (Effect.mapError_eq_ok.1 h)
  | none =>
    simp only [hreceipt, Effect.bind_eq_ok, Effect.mapError_eq_ok] at h hsystem
    obtain ⟨_, paid, fee, _, hprepare, ⟨outcome, ran, payload, nonces, hpayload, hfinish, rfl⟩, rfl⟩ := h
    obtain ⟨hmatch, hfee⟩ := prepareUserTransaction_eq_ok hprepare
    obtain ⟨hnonces, hstatus⟩ := finishPayload_eq_ok hfinish
    exact .finished hsystem.symm hstatus hmatch hfee hpayload hnonces

theorem executeTransactionInTransaction_failure
    (h : executeTransactionInTransaction H vm transaction cost before =
      ⟨.error (.failure result status), after, writes⟩) :
    transaction.isSystem = false ∧ NoncesMatch vm transaction before ∧ status ≠ .success := by
  have hsystem := isSome_systemReceipt H E transaction
  unfold executeTransactionInTransaction at h
  cases hreceipt : transaction.systemReceipt H E with
  | some systemReceipt => simp [hreceipt, Effect.mapError_eq_error] at h
  | none =>
    rw [hreceipt] at hsystem
    simp only [hreceipt, Effect.bind_eq_error, Effect.mapError_eq_error, Effect.mapError_eq_ok,
      reduceCtorEq, and_false, exists_false, false_or] at h
    obtain ⟨_, _, _, _, hprepare, ⟨outcome, _, _, _, -, hfinish, -⟩, -⟩ := h
    exact ⟨hsystem.symm, (prepareUserTransaction_eq_ok hprepare).1, finishPayload_failure hfinish⟩

theorem runTransaction_eq_ok
    (h : runTransaction H vm transaction cost before = .ok (receipt, after, writes)) :
    Ran vm transaction cost before receipt.status after writes := by
  unfold runTransaction at h
  split at h
  · rename_i hfirst
    cases h
    exact executeTransactionInTransaction_eq_ok hfirst
  · cases h
  · rename_i result status _ _ hfirst
    split at h
    · rename_i happly
      cases h
      obtain ⟨huser, hmatch, hstatus⟩ := executeTransactionInTransaction_failure hfirst
      simp only [applyTransactionFailure, Effect.bind_eq_ok, Effect.pure_eq_ok] at happly
      obtain ⟨_, paid, fee, _, hfee, ⟨_, _, nonces, _, hnonces, ⟨rfl, rfl, rfl⟩, rfl⟩, rfl⟩ := happly
      rw [List.append_nil]
      exact .failed huser hstatus hmatch hfee (updateTransactionNonces_eq_ok hnonces)
    · cases h

end Execution

namespace Transaction

variable (transaction : Transaction)

/-- `execute_transaction` on the state of a block. -/
def execute (env : BlockEnv) (cost : ExecutionCost) (world : World E.State) :
    Except ChainStateError (E.Receipt × World E.State) :=
  (runTransaction H (E.vm env) transaction cost world).map fun (receipt, world, _) => (receipt, world)

/-! ## What a transaction does to nonces -/

/-- The nonces after a transaction of a user. -/
def nextNonces (nonce : Principal → Nat) : Principal → Nat :=
  let nonce := Function.update nonce transaction.sender (transaction.auth.origin.nonce + 1)
  match transaction.sponsor with
  | none => nonce
  | some sponsor => Function.update nonce sponsor (transaction.auth.payer.nonce + 1)

variable {H E transaction} {env : BlockEnv} {cost : ExecutionCost} {world world' : World E.State}
  {receipt : E.Receipt}

section Vm

variable {writes : List Empty}

theorem debitFee_keeps {payer : Principal} {fee : Nat}
    (h : (E.vm env).debitFee payer fee world = ⟨.ok (), world', writes⟩) : world.Keeps world' := by
  simp only [Clarity.vm, Effect.modify_eq_ok, bind_eq_ok, return_eq_ok, Prod.mk.injEq] at h
  obtain ⟨⟨_, hdebit, -, rfl⟩, -⟩ := h
  unfold Clarity.debitFee at hdebit
  split_ifs at hdebit
  · obtain rfl := Except.ok.inj hdebit
    exact .rfl
  · simp only [bind_eq_ok, return_eq_ok] at hdebit
    obtain ⟨state, -, rfl⟩ := hdebit
    exact .withState state

theorem touchStxBalance_keeps {principal : Principal}
    (h : (E.vm env).touchStxBalance principal world = ⟨.ok (), world', writes⟩) :
    world.Keeps world' := by
  simp only [Clarity.vm, Effect.modify_eq_ok, bind_eq_ok, return_eq_ok, Prod.mk.injEq] at h
  obtain ⟨⟨state, -, -, rfl⟩, -⟩ := h
  exact .withState state

theorem executePayload_keeps {sender : Principal} {sponsor : Option Principal}
    {outcome : PayloadOutcome E.Value E.Assets E.Event}
    (h : (E.vm env).executePayload transaction sender sponsor cost world =
      ⟨.ok outcome, world', writes⟩) : world.Keeps world' := by
  simp only [Clarity.vm, Effect.modify_eq_ok, bind_eq_ok, return_eq_ok, Prod.mk.injEq] at h
  obtain ⟨⟨⟨_, state⟩, -, -, rfl⟩, -⟩ := h
  exact .withState state

theorem setAccountNonce_eq_ok {principal : Principal} {nonce : Nat}
    (h : (E.vm env).setAccountNonce principal nonce world = ⟨.ok (), world', writes⟩) :
    world' = world.setAccountNonce principal nonce := by
  simp only [Clarity.vm, Effect.modify_eq_ok, Except.ok.injEq, Prod.mk.injEq] at h
  exact h.1.2.symm

theorem noncesWritten_eq (h : NoncesWritten (E.vm env) transaction world world' writes) :
    world'.nonce = transaction.nextNonces world.nonce ∧
      world'.tenureHeight = world.tenureHeight := by
  unfold NoncesWritten at h
  unfold nextNonces
  cases hsponsor : transaction.sponsor with
  | none =>
    rw [hsponsor] at h
    obtain rfl := setAccountNonce_eq_ok h
    exact ⟨rfl, rfl⟩
  | some sponsor =>
    rw [hsponsor] at h
    obtain ⟨mid, _, _, hfirst, hsecond, -⟩ := h
    obtain rfl := setAccountNonce_eq_ok hfirst
    obtain rfl := setAccountNonce_eq_ok hsecond
    exact ⟨rfl, rfl⟩

end Vm

theorem executeSystemTransaction_eq_ok {receipt' : E.Receipt} {writes : List Empty}
    (h : executeSystemTransaction (E.vm env) transaction receipt world =
      ⟨.ok receipt', world', writes⟩) :
    world'.nonce = Function.update world.nonce transaction.sender
        (transaction.auth.origin.nonce + 1) ∧
      world'.tenureHeight = world.tenureHeight := by
  simp only [executeSystemTransaction, Effect.bind_eq_ok, Effect.lift_eq, Effect.pure_eq_ok] at h
  obtain ⟨_, paid, _, _, hpaid, ⟨nonce, _, _, _, ⟨hnonce, rfl, -⟩,
    ⟨_, _, _, _, hset, ⟨-, rfl, -⟩, -⟩, -⟩, -⟩ := h
  obtain rfl := incrementNonce_eq_ok hnonce
  obtain rfl := setAccountNonce_eq_ok hset
  have hkeeps : world.Keeps paid := by
    split_ifs at hpaid
    · exact touchStxBalance_keeps hpaid
    · exact debitFee_keeps hpaid
  exact ⟨by rw [World.setAccountNonce_nonce, hkeeps.nonce], hkeeps.tenureHeight⟩

/-- How a transaction the engine ran has moved the nonces. Those of a user are compared with the
accounts first; those of a coinbase or a tenure change are only written. -/
inductive Moved (transaction : Transaction) (nonce nonce' : Principal → Nat) : Prop
  | system (h : transaction.isSystem = true)
    (after : nonce' = Function.update nonce transaction.sender (transaction.auth.origin.nonce + 1))
  | user (h : transaction.isSystem = false)
    (origin : nonce transaction.sender = transaction.auth.origin.nonce)
    (payer : nonce transaction.payer = transaction.auth.payer.nonce)
    (after : nonce' = transaction.nextNonces nonce)

theorem execute_eq_ok (h : transaction.execute H E env cost world = .ok (receipt, world')) :
    transaction.Moved world.nonce world'.nonce ∧ world'.tenureHeight = world.tenureHeight := by
  obtain ⟨⟨_, _, writes⟩, hrun, hreceipt⟩ := map_eq_ok.1 h
  cases hreceipt
  have hran := runTransaction_eq_ok hrun
  generalize receipt.status = status at hran
  cases hran with
  | system hsystem hexecutes =>
    obtain ⟨hnonce, htenure⟩ := executeSystemTransaction_eq_ok hexecutes
    exact ⟨.system hsystem hnonce, htenure⟩
  | failed huser hstatus hmatch hfee hnonces =>
    obtain ⟨hnonce, htenure⟩ := noncesWritten_eq hnonces
    have hkeeps := debitFee_keeps hfee
    rw [hkeeps.nonce] at hnonce
    exact ⟨.user huser (Except.ok.inj hmatch.1) (Except.ok.inj hmatch.2) hnonce,
      htenure.trans hkeeps.tenureHeight⟩
  | finished huser hstatus hmatch hfee hpayload hnonces =>
    obtain ⟨hnonce, htenure⟩ := noncesWritten_eq hnonces
    have hkeeps := (debitFee_keeps hfee).trans (executePayload_keeps hpayload)
    rw [hkeeps.nonce] at hnonce
    exact ⟨.user huser (Except.ok.inj hmatch.1) (Except.ok.inj hmatch.2) hnonce,
      htenure.trans hkeeps.tenureHeight⟩

end Transaction

end NanoStacks.Chain
