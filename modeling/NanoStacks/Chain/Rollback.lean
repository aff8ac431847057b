import NanoStacks.Chain.Plain

/-!
# One transaction on the store

`execute_transaction` works on a store that is written in place. What makes a failed transaction leave no
trace is not that its steps undo themselves: it is the copy `begin_transaction` takes of the unsealed state
and `rollback_transaction` puts back. The operations of the VM are arbitrary effects here, and one that fails
may leave anything behind. With the copy, a store and a pure state come to the same (`executeTransaction_eq`).
-/

namespace NanoStacks.Chain

open Sortition List

/-! ## The store -/

structure ActiveStore where
  block : Bytes 32
  parent : Option (Bytes 32)
  height : Nat

/-- `StoreTransaction`: what a transaction copies, which is all that its operations write in place. -/
structure StoreTransaction (Marf Metadata : Type) where
  marf : Marf
  metadata : Metadata
  readBlock : Option (Bytes 32)
  active : Option ActiveStore

def StoreTransaction.withMarf {Marf Metadata : Type} (contents : StoreTransaction Marf Metadata)
    (marf : Marf) : StoreTransaction Marf Metadata :=
  ⟨marf, contents.metadata, contents.readBlock, contents.active⟩

structure BlockJournal (Write : Type) where
  writes : List Write
  root : Option (Bytes 32)

/-- The recorded blocks, newest first, and how many writes the open one had when the transaction under way
began. -/
structure WriteJournal (Write : Type) where
  blocks : List (BlockJournal Write)
  transaction : Option Nat

namespace WriteJournal

variable {Write : Type} (journal : WriteJournal Write)

/-- The writes of the open block, if a block is open. -/
def openWrites : Option (List Write) :=
  match journal.blocks with
  | block :: _ => if block.root = none then some block.writes else none
  | [] => none

def modifyOpen (f : List Write → List Write) : WriteJournal Write :=
  match journal.blocks with
  | block :: blocks =>
    if block.root = none then ⟨⟨f block.writes, block.root⟩ :: blocks, journal.transaction⟩ else journal
  | [] => journal

def beginTransaction : WriteJournal Write :=
  ⟨journal.blocks, journal.openWrites.map List.length⟩

def commitTransaction : WriteJournal Write := ⟨journal.blocks, none⟩

def rollbackTransaction : WriteJournal Write :=
  match journal.transaction with
  | some started => (commitTransaction journal).modifyOpen (List.take started)
  | none => journal

/-- What `put` records. -/
def push (writes : List Write) : WriteJournal Write := journal.modifyOpen (· ++ writes)

@[simp] theorem modifyOpen_transaction (f : List Write → List Write) :
    (journal.modifyOpen f).transaction = journal.transaction := by
  unfold modifyOpen
  split
  · split <;> rfl
  · rfl

@[simp] theorem rollbackTransaction_transaction : journal.rollbackTransaction.transaction = none := by
  unfold rollbackTransaction
  split
  · exact modifyOpen_transaction _ _
  · assumption

variable {journal}

theorem rollbackTransaction_push (hidle : journal.transaction = none) (writes : List Write) :
    (journal.beginTransaction.push writes).rollbackTransaction = journal := by
  rcases journal with ⟨_ | ⟨⟨written, _ | root⟩, blocks⟩, transaction⟩
  · simp_all [beginTransaction, push, rollbackTransaction, modifyOpen, openWrites]
  · simp_all [beginTransaction, push, rollbackTransaction, modifyOpen, openWrites, commitTransaction]
  · simp_all [beginTransaction, push, rollbackTransaction, modifyOpen, openWrites]

theorem commitTransaction_push (hidle : journal.transaction = none) (writes : List Write) :
    (journal.beginTransaction.push writes).commitTransaction = journal.push writes := by
  rcases journal with ⟨_ | ⟨⟨written, _ | root⟩, blocks⟩, transaction⟩ <;>
    simp_all [beginTransaction, push, commitTransaction, modifyOpen]

end WriteJournal

structure MarfStore (Marf Metadata Write : Type) where
  marf : Marf
  metadata : Metadata
  readBlock : Option (Bytes 32)
  active : Option ActiveStore
  transaction : Option (StoreTransaction Marf Metadata)
  journal : Option (WriteJournal Write)
  journal_idle : transaction = none → ∀ j ∈ journal, j.transaction = none

namespace MarfStore

variable {Marf Metadata Write : Type} (store : MarfStore Marf Metadata Write)

def contents : StoreTransaction Marf Metadata :=
  ⟨store.marf, store.metadata, store.readBlock, store.active⟩

/-- The store after operations have written in place. -/
def advance (contents : StoreTransaction Marf Metadata) (writes : List Write) :
    MarfStore Marf Metadata Write where
  marf := contents.marf
  metadata := contents.metadata
  readBlock := contents.readBlock
  active := contents.active
  transaction := store.transaction
  journal := store.journal.map (·.push writes)
  journal_idle := by
    intro hnone j hj
    obtain ⟨j, hmem, rfl⟩ := Option.mem_map.1 hj
    exact (WriteJournal.modifyOpen_transaction _ _).trans (store.journal_idle hnone j hmem)

/-- The store with a transaction open on it. -/
def begun : MarfStore Marf Metadata Write :=
  { store with
    transaction := some store.contents
    journal := store.journal.map WriteJournal.beginTransaction
    journal_idle := nofun }

def committed : MarfStore Marf Metadata Write :=
  { store with
    transaction := none
    journal := store.journal.map WriteJournal.commitTransaction
    journal_idle := by
      intro _ j hj
      obtain ⟨j, -, rfl⟩ := Option.mem_map.1 hj
      rfl }

/-- The store with a copy put back. -/
def restored (copy : StoreTransaction Marf Metadata) : MarfStore Marf Metadata Write where
  marf := copy.marf
  metadata := copy.metadata
  readBlock := copy.readBlock
  active := copy.active
  transaction := none
  journal := store.journal.map WriteJournal.rollbackTransaction
  journal_idle := by
    intro _ j hj
    obtain ⟨j, -, rfl⟩ := Option.mem_map.1 hj
    exact WriteJournal.rollbackTransaction_transaction j

variable {store}

section

variable (hidle : store.transaction = none) (left : StoreTransaction Marf Metadata)
  (writes : List Write)

include hidle

theorem restored_begun : (store.begun.advance left writes).restored store.contents = store := by
  obtain ⟨marf, metadata, readBlock, active, transaction, journal, hjournal⟩ := store
  subst hidle
  cases journal with
  | none => rfl
  | some journal =>
    have hback := WriteJournal.rollbackTransaction_push (hjournal rfl journal rfl) writes
    simp [restored, advance, begun, contents, hback]

theorem committed_begun :
    (store.begun.advance left writes).committed = store.advance left writes := by
  obtain ⟨marf, metadata, readBlock, active, transaction, journal, hjournal⟩ := store
  subst hidle
  cases journal with
  | none => rfl
  | some journal =>
    have hpush := WriteJournal.commitTransaction_push (hjournal rfl journal rfl) writes
    simp [committed, advance, begun, hpush]

end

@[simp] theorem begun_contents : store.begun.contents = store.contents := rfl

end MarfStore

/-! ## On the store -/

section Execution

variable {Marf Metadata Write : Type} (H : Hashes) {E : Clarity}
  (vm : VmOperations E (StoreTransaction Marf Metadata) Write) (transaction : Transaction)

abbrev StoreM (Marf Metadata Write : Type) :=
  ExceptT ChainStateError (StateM (MarfStore Marf Metadata Write))

def beginTransaction : StoreM Marf Metadata Write Unit := fun store =>
  match store.transaction with
  | some _ => (.error (.storage .transactionInProgress), store)
  | none => (.ok (), store.begun)

def commitTransaction : StoreM Marf Metadata Write Unit := fun store =>
  match store.transaction with
  | some _ => (.ok (), store.committed)
  | none => (.error (.storage .noTransaction), store)

def rollbackTransaction : StoreM Marf Metadata Write Unit := fun store =>
  match store.transaction with
  | some copy => (.ok (), store.restored copy)
  | none => (.error (.storage .noTransaction), store)

/-- Run operations on the store in place; how they ended is the value. -/
def perform {ε α : Type} (body : Effect (StoreTransaction Marf Metadata) Write ε α) :
    StoreM Marf Metadata Write (Except ε α) := fun store =>
  (.ok (body store.contents).result,
    store.advance (body store.contents).state (body store.contents).writes)

def executeTransaction (cost : ExecutionCost) : StoreM Marf Metadata Write E.Receipt := do
  beginTransaction
  match ← perform (executeTransactionInTransaction H vm transaction cost) with
  | .ok receipt =>
    commitTransaction
    return receipt
  | .error (.failure result status) =>
    rollbackTransaction
    beginTransaction
    match ← perform (applyTransactionFailure H vm transaction result status) with
    | .ok receipt =>
      commitTransaction
      return receipt
    | .error error =>
      rollbackTransaction
      throw error
  | .error (.refused error) =>
    rollbackTransaction
    throw error

/-! ## All or nothing -/

section Run

variable {α β : Type} {store store' : MarfStore Marf Metadata Write} {m : StoreM Marf Metadata Write α}
  {f : α → StoreM Marf Metadata Write β}

theorem StoreM.bind_of_ok {a : α} (h : m store = (.ok a, store')) : (m >>= f) store = f a store' := by
  simp only [bind, ExceptT.bind, ExceptT.mk, StateT.bind, h]
  rfl

theorem StoreM.bind_of_error {e : ChainStateError} (h : m store = (.error e, store')) :
    (m >>= f) store = (.error e, store') := by
  simp only [bind, ExceptT.bind, ExceptT.mk, StateT.bind, h]
  rfl

end Run

variable {H vm transaction} {cost : ExecutionCost} {store : MarfStore Marf Metadata Write}

section

variable (hidle : store.transaction = none)

include hidle

theorem beginTransaction_of_idle : beginTransaction store = (.ok (), store.begun) := by
  simp only [beginTransaction, hidle]

section

variable (left : StoreTransaction Marf Metadata) (writes : List Write)

theorem commitTransaction_begun :
    commitTransaction (store.begun.advance left writes) = (.ok (), store.advance left writes) :=
  congrArg (Prod.mk _) (MarfStore.committed_begun hidle left writes)

theorem rollbackTransaction_begun :
    rollbackTransaction (store.begun.advance left writes) = (.ok (), store) :=
  congrArg (Prod.mk _) (MarfStore.restored_begun hidle left writes)

end

end

theorem perform_begun {ε α : Type} {body : Effect (StoreTransaction Marf Metadata) Write ε α}
    {result : Except ε α} {left : StoreTransaction Marf Metadata} {writes : List Write}
    (h : body store.contents = ⟨result, left, writes⟩) :
    perform body store.begun = (.ok result, store.begun.advance left writes) := by
  rw [perform, MarfStore.begun_contents, h]

theorem executeTransaction_of_open {copy : StoreTransaction Marf Metadata}
    (hopen : store.transaction = some copy) :
    executeTransaction H vm transaction cost store =
      (.error (.storage .transactionInProgress), store) := by
  refine StoreM.bind_of_error ?_
  simp only [beginTransaction, hopen]

/-- On an idle store, `execute_transaction` does to the contents what it does to any state, and an
error leaves the store as it was. -/
theorem executeTransaction_eq (hidle : store.transaction = none) :
    executeTransaction H vm transaction cost store =
      match runTransaction H vm transaction cost store.contents with
      | .ok (receipt, after, writes) => (.ok receipt, store.advance after writes)
      | .error error => (.error error, store) := by
  rw [executeTransaction, StoreM.bind_of_ok (beginTransaction_of_idle hidle), runTransaction]
  rcases hfirst : executeTransactionInTransaction H vm transaction cost store.contents with
    ⟨(⟨result, status⟩ | error) | receipt, left, writes⟩
  · rw [StoreM.bind_of_ok (perform_begun hfirst)]
    simp only
    rw [StoreM.bind_of_ok (rollbackTransaction_begun hidle left writes),
      StoreM.bind_of_ok (beginTransaction_of_idle hidle)]
    rcases hsecond : applyTransactionFailure H vm transaction result status store.contents with
      ⟨error | receipt, after, second⟩
    · rw [StoreM.bind_of_ok (perform_begun hsecond)]
      exact StoreM.bind_of_ok (rollbackTransaction_begun hidle after second)
    · rw [StoreM.bind_of_ok (perform_begun hsecond)]
      exact StoreM.bind_of_ok (commitTransaction_begun hidle after second)
  · rw [StoreM.bind_of_ok (perform_begun hfirst)]
    exact StoreM.bind_of_ok (rollbackTransaction_begun hidle left writes)
  · rw [StoreM.bind_of_ok (perform_begun hfirst)]
    exact StoreM.bind_of_ok (commitTransaction_begun hidle left writes)

/-! ## What a receipt stands for -/

variable (vm transaction cost)

/-- What executing a transaction has done to the contents, by the status of its receipt: the fee is taken
once and the nonces are written, with the payload between them only where it succeeded. -/
inductive Charged : TransactionStatus → StoreTransaction Marf Metadata → StoreTransaction Marf Metadata →
    List Write → Prop
  | failed {status before paid after fee nonces} (hstatus : status ≠ .success)
    (hfee : vm.debitFee transaction.payer transaction.auth.payer.fee before = ⟨.ok (), paid, fee⟩)
    (hnonces : NoncesWritten vm transaction paid after nonces) :
    Charged status before after (fee ++ nonces)
  | succeeded {result before paid ran after fee payload nonces}
    (hfee : vm.debitFee transaction.payer transaction.auth.payer.fee before = ⟨.ok (), paid, fee⟩)
    (hpayload : vm.executePayload transaction transaction.sender transaction.sponsor cost paid =
      ⟨.ok (.success result), ran, payload⟩)
    (hnonces : NoncesWritten vm transaction ran after nonces) :
    Charged .success before after (fee ++ payload ++ nonces)

/-- A payload aborted by its response has written nothing. -/
def VmOperations.AbortsCleanly : Prop :=
  ∀ transaction sender sponsor cost before after result writes,
    vm.executePayload transaction sender sponsor cost before =
      ⟨.ok (.abortedByResponse result), after, writes⟩ → after = before ∧ writes = []

variable {vm transaction cost}

theorem Ran.charged {status : TransactionStatus} {before after : StoreTransaction Marf Metadata}
    {writes : List Write} (haborts : vm.AbortsCleanly) (huser : transaction.isSystem = false)
    (h : Ran vm transaction cost before status after writes) :
    Charged vm transaction cost status before after writes := by
  cases h with
  | system hsystem hexecutes => exact absurd hsystem (Bool.eq_false_iff.1 huser)
  | failed _ hstatus hmatch hfee hnonces => exact .failed hstatus hfee hnonces
  | finished _ hstatus hmatch hfee hpayload hnonces =>
    obtain ⟨rfl, result, rfl⟩ | ⟨rfl, result, rfl, -⟩ := hstatus
    · obtain ⟨rfl, rfl⟩ := haborts _ _ _ _ _ _ _ _ hpayload
      rw [nil_append]
      exact .failed (by simp) hfee hnonces
    · rw [← append_assoc]
      exact .succeeded hfee hpayload hnonces

/-- A user's transaction leaves the store as it was, or has a receipt and has done exactly what its status
stands for. No transaction is left open in either case. -/
theorem executeTransaction_all_or_nothing (H : Hashes) (haborts : vm.AbortsCleanly)
    (huser : transaction.isSystem = false) (cost : ExecutionCost)
    (store : MarfStore Marf Metadata Write) :
    (∃ error, executeTransaction H vm transaction cost store = (.error error, store)) ∨
      ∃ receipt after writes,
        executeTransaction H vm transaction cost store = (.ok receipt, store.advance after writes) ∧
        Charged vm transaction cost receipt.status store.contents after writes ∧
        store.transaction = none ∧ (store.advance after writes).transaction = none := by
  cases hidle : store.transaction with
  | some copy => exact .inl ⟨_, executeTransaction_of_open hidle⟩
  | none =>
    rw [executeTransaction_eq hidle]
    cases hrun : runTransaction H vm transaction cost store.contents with
    | error error => exact .inl ⟨error, rfl⟩
    | ok ran =>
      obtain ⟨receipt, after, writes⟩ := ran
      exact .inr ⟨receipt, after, writes, rfl, (runTransaction_eq_ok hrun).charged haborts huser, rfl,
        hidle⟩

end Execution

/-- Note what was done, and nothing else. -/
def logEntry (entry : String) :
    Effect (StoreTransaction (List String) Unit) String ChainStateError Unit := fun contents =>
  ⟨.ok (), contents.withMarf (contents.marf ++ [entry]), [entry]⟩

def loggingVm : VmOperations plainClarity (StoreTransaction (List String) Unit) String where
  accountNonce := fun _ _ => .ok 0
  debitFee := fun _ _ => logEntry "fee"
  touchStxBalance := fun _ => logEntry "touch"
  setAccountNonce := fun _ _ => logEntry "nonce"
  executePayload := fun _ _ _ _ => do
    logEntry "payload"
    return .success ⟨none, .zero, (), []⟩

def emptyLog : MarfStore (List String) Unit String where
  marf := []
  metadata := ()
  readBlock := none
  active := none
  transaction := none
  journal := some ⟨[⟨[], none⟩], none⟩
  journal_idle := by
    rintro - j ⟨⟩
    rfl

theorem executeTransaction_all_or_nothing_logged :
    ∃ receipt after writes,
      executeTransaction plainCrypto loggingVm (plainTransfer 1 0) .zero emptyLog =
        (.ok receipt, emptyLog.advance after writes) ∧
      Charged loggingVm (plainTransfer 1 0) .zero receipt.status emptyLog.contents after writes := by
  have haborts : loggingVm.AbortsCleanly := by
    intro _ _ _ _ before after result writes h
    cases h
  have hok : (executeTransaction plainCrypto loggingVm (plainTransfer 1 0) .zero
      emptyLog).1.isOk = true := rfl
  obtain ⟨error, herror⟩ | ⟨receipt, after, writes, h, hcharged, -⟩ :=
    executeTransaction_all_or_nothing plainCrypto haborts
      (show (plainTransfer 1 0).isSystem = false from rfl) .zero emptyLog
  · rw [herror] at hok
    cases hok
  · exact ⟨receipt, after, writes, h, hcharged⟩

end NanoStacks.Chain
