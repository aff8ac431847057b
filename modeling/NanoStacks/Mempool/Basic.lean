import NanoStacks.Lib.Table
import NanoStacks.Codec.Block
import Mathlib.Data.List.Sort

/-!
# The mempool

The transactions a node holds for the next block: the checks a submitted transaction passes before it
is held (`judge`), what it displaces (`outbid`), and the three operations that change the pool. The
pool keeps two indexes beside its entries, one by origin and nonce and one by sponsor and nonce, and a
count of the bytes held. None of the three is ever recomputed, so every subtraction and every access
by key here is one that could fail: `Fault` says so, and nothing else in the module does.

Times are in seconds. A chain tip is the account it answers for an address.
-/

namespace NanoStacks.Pool

open Bitcoin Sortition Chain Result

/-! ## Constants and data -/

def maximumMempoolTxChaining : Nat := 25
def minimumTxFee : Nat := 1
def minimumTxFeeRatePerByte : Nat := 1
def maxTransactionAgeSecs : Nat := 256 * 10 * 60

structure MempoolLimits where
  transactions : Nat
  bytes : Nat

structure Account where
  nonce : Nat
  balance : Option Nat

abbrev ChainTip := StacksAddress → Account

structure NonceMismatch where
  expected : Nat
  actual : Nat
  principal : StacksAddress
  isOrigin : Bool

inductive Rejection
  | badTransactionVersion
  | signatureValidation (message : String)
  | feeTooLow (expected actual : Nat)
  | badNonce (mismatch : NonceMismatch)
  | tooMuchChaining (mismatch : NonceMismatch)
  | notEnoughFunds (expected actual : Nat)
  | conflictingNonceInMempool
  | mempoolFull (maxTransactions maxBytes : Nat)
  | transferRecipientCannotEqualSender (recipient : StacksAddress)
  | transferAmountMustBePositive
  | badAddressVersionByte
  | noCoinbaseViaMempool
  | noTenureChangeViaMempool
  | other (message : String)

inductive Admission
  | added
  | replaced (txids : List Txid)
  | alreadyPresent

/-- A held transaction and what admission read off it. -/
structure Entry where
  transaction : Codec.Transaction
  txid : Txid
  origin : StacksAddress
  originNonce : Nat
  sponsor : Option (StacksAddress × Nat)
  payer : StacksAddress
  fee : Nat
  length : Nat
  acceptedAt : Nat

/-- A transaction is stale once a tip spent one of its nonces or can no longer pay its fee, or once it
is too old. -/
def Entry.isStale (entry : Entry) (tip : ChainTip) (now : Nat) : Bool :=
  maxTransactionAgeSecs < now - entry.acceptedAt ||
    entry.originNonce < (tip entry.origin).nonce ||
    (entry.sponsor.any fun (sponsor, nonce) => nonce < (tip sponsor).nonce) ||
    ((tip entry.payer).balance.any fun balance => balance < entry.fee)

structure Mempool where
  network : Network
  limits : MempoolLimits
  entries : Table Txid Entry
  origins : Table (StacksAddress × Nat) Txid
  sponsors : Table (StacksAddress × Nat) Txid
  bytes : Nat
  saturations : Nat

/-- What would stop the node or wrap around: a subtraction below zero, or an entry that an index names
and the pool does not hold. -/
inductive Fault
  | underflow
  | missingEntry
  deriving DecidableEq

def subtract (a b : Nat) : Except Fault Nat := if b ≤ a then .ok (a - b) else .error .underflow

@[simp] theorem subtract_eq_ok {a b c : Nat} : subtract a b = .ok c ↔ c + b = a := by
  unfold subtract
  split_ifs with h
  · rw [Except.ok.injEq]
    omega
  · constructor
    · exact nofun
    · omega

def withLimits (network : Network) (limits : MempoolLimits) : Mempool :=
  ⟨network, limits, ∅, ∅, ∅, 0, 0⟩

/-! ## Admission checks -/

def validAddressVersion (mainnet : Bool) (version : Nat) : Bool :=
  if mainnet then version == 22 || version == 20 else version == 26 || version == 21

def principalVersion : Principal → Nat
  | .standard address | .contract address _ => address.version

/-- The checks that read the transaction alone. -/
def semanticChecks (payload : TransactionPayloadData) (origin : StacksAddress) (mainnet : Bool) :
    Except Rejection Unit :=
  match payload with
  | .tokenTransfer recipient amount _ => do
    ensure (recipient ≠ .standard origin) (.transferRecipientCannotEqualSender origin)
    ensure (amount ≠ 0) .transferAmountMustBePositive
    ensure (validAddressVersion mainnet (principalVersion recipient)) .badAddressVersionByte
  | _ => .ok ()

structure NonceCheck where
  origin : StacksAddress
  originNonce : Nat
  sponsor : Option StacksAddress
  payerNonce : Nat

/-- The nonce that is not the account's next one; the sponsor's where both are not. -/
def nonceMismatch (tip : ChainTip) (claimed : NonceCheck) : Option NonceMismatch :=
  let payer := claimed.sponsor.getD claimed.origin
  if claimed.sponsor.isSome ∧ claimed.payerNonce ≠ (tip payer).nonce then
    some ⟨(tip payer).nonce, claimed.payerNonce, payer, false⟩
  else if claimed.originNonce ≠ (tip claimed.origin).nonce then
    some ⟨(tip claimed.origin).nonce, claimed.originNonce, claimed.origin, true⟩
  else none

/-- The greatest nonce that may be chained onto an account, in 64 bits. -/
def maximumNonce (account : Account) : Nat :=
  (account.nonce + 1 + maximumMempoolTxChaining) % 2 ^ 64

def checkNonces (tip : ChainTip) (claimed : NonceCheck) : Except Rejection Unit :=
  match nonceMismatch tip claimed with
  | none => .ok ()
  | some mismatch => do
    -- A nonce the account has spent can never be chained onto.
    ensure (mismatch.expected ≤ mismatch.actual) (.badNonce mismatch)
    let payer := claimed.sponsor.getD claimed.origin
    let originMax := maximumNonce (tip claimed.origin)
    ensure (claimed.originNonce ≤ originMax)
      (.tooMuchChaining ⟨originMax, claimed.originNonce, claimed.origin, true⟩)
    let payerMax := maximumNonce (tip payer)
    ensure (claimed.sponsor.isSome → claimed.payerNonce ≤ payerMax)
      (.tooMuchChaining ⟨payerMax, claimed.payerNonce, payer, false⟩)

structure Spend where
  origin : StacksAddress
  payer : StacksAddress
  fee : Nat

/-- An account can pay, as far as the tip can say. -/
def checkFunds (account : Account) (total : Nat) : Except Rejection Unit :=
  match account.balance with
  | none => .ok ()
  | some balance => ensure (total ≤ balance) (.notEnoughFunds total balance)

/-- The checks that depend on what the transaction does. -/
def payloadChecks (payload : TransactionPayloadData) (tip : ChainTip) (mainnet : Bool)
    (spend : Spend) : Except Rejection Unit :=
  match payload with
  | .tokenTransfer recipient amount _ => do
    ensure (validAddressVersion mainnet (principalVersion recipient)) .badAddressVersionByte
    checkFunds (tip spend.origin) (amount + if spend.origin = spend.payer then spend.fee else 0)
  | .coinbase _ | .coinbaseToAltRecipient _ _ | .nakamotoCoinbase _ _ _ => .error .noCoinbaseViaMempool
  | .tenureChange _ => .error .noTenureChangeViaMempool
  | _ => .ok ()

def isTransfer : TransactionPayloadData → Bool
  | .tokenTransfer _ _ _ => true
  | _ => false

/-- The fee has to be there, but for transfers, which are asked for all they spend at once. -/
def checkFeeFunds (payload : TransactionPayloadData) (account : Account) (fee : Nat) :
    Except Rejection Unit :=
  if isTransfer payload then .ok () else checkFunds account fee

def isPoison : TransactionPayloadData → Bool
  | .poisonMicroblock _ _ => true
  | _ => false

section Judge

variable (H : Hashes) (verifyAuthorization : Codec.Transaction → Except String Unit)

/-- The admission checks in their order. -/
def judge (pool : Mempool) (transaction : Codec.Transaction) (tip : ChainTip) :
    Except Rejection Entry := do
  let mainnet := transaction.version == .mainnet
  ensure (mainnet = pool.network.mainnet) .badTransactionVersion
  let auth := transaction.auth.toChain
  let origin := auth.origin.accountAddress mainnet
  let sponsor := auth.sponsor.map (·.accountAddress mainnet)
  let payload := transaction.payload.data
  semanticChecks payload origin mainnet
  ensure (isPoison payload = false)
    (.other "PoisonMicroblock transactions not accepted via mempool")
  (verifyAuthorization transaction).mapError .signatureValidation
  ensure (transaction.chainId = pool.network.chainId) (.signatureValidation
    s!"invalid chain ID {transaction.chainId} (expected {pool.network.chainId})")
  let length := max transaction.bytes.length 1
  let fee := auth.payer.fee
  ensure (minimumTxFee ≤ fee ∧ minimumTxFeeRatePerByte ≤ fee / length)
    (.feeTooLow (max minimumTxFee (length * minimumTxFeeRatePerByte)) fee)
  let originNonce := auth.origin.nonce
  let payer := sponsor.getD origin
  let payerNonce := auth.payer.nonce
  checkNonces tip ⟨origin, originNonce, sponsor, payerNonce⟩
  ensure (validAddressVersion mainnet origin.version ∧ validAddressVersion mainnet payer.version)
    .badAddressVersionByte
  checkFeeFunds payload (tip payer) fee
  payloadChecks payload tip mainnet ⟨origin, payer, fee⟩
  return {
    transaction
    txid := transaction.txid H
    origin, originNonce
    sponsor := sponsor.map fun sponsor => (sponsor, payerNonce)
    payer, fee, length
    acceptedAt := 0 }

end Judge

/-! ## The pool -/

/-- A length as a `usize`. -/
def entryBytes (entry : Entry) : Nat := min entry.length (2 ^ 64 - 1)

def Entry.originKey (entry : Entry) : StacksAddress × Nat := (entry.origin, entry.originNonce)

namespace Mempool

def entry (pool : Mempool) (txid : Txid) : Except Fault Entry :=
  okOr (pool.entries.lookup txid) .missingEntry

def get (pool : Mempool) (txid : Txid) : Option Codec.Transaction :=
  (pool.entries.lookup txid).map (·.transaction)

/-- Forget one transaction, whatever became of it. -/
def remove (pool : Mempool) (txid : Txid) : Except Fault (Option Codec.Transaction × Mempool) :=
  match pool.entries.lookup txid with
  | none => .ok (none, pool)
  | some entry => do
    let bytes ← subtract pool.bytes (entryBytes entry)
    return (some entry.transaction, { pool with
      entries := pool.entries.erase txid
      origins := pool.origins.erase entry.originKey
      sponsors := Table.eraseKey pool.sponsors entry.sponsor
      bytes })

def removeAll (pool : Mempool) : List Txid → Except Fault Mempool
  | [] => .ok pool
  | txid :: txids => do
    let (_, pool) ← pool.remove txid
    removeAll pool txids

def stale (pool : Mempool) (tip : ChainTip) (now : Nat) : List Txid :=
  let dropped := (Table.values pool.entries).filter fun entry => entry.isStale tip now
  (dropped.map (·.txid)).insertionSort (· ≤ ·)

/-- Drop what is stale at a tip and report what left. -/
def advance (pool : Mempool) (tip : ChainTip) (now : Nat) : Except Fault (List Txid × Mempool) := do
  let dropped := pool.stale tip now
  let pool ← pool.removeAll dropped
  return (dropped, pool)

/-- The transactions that hold the nonces of an entry. -/
def holders (pool : Mempool) (entry : Entry) : List Txid :=
  let held := (pool.origins.lookup entry.originKey).toList ++
    (entry.sponsor.bind pool.sponsors.lookup).toList
  (held.insertionSort (· ≤ ·)).dedup

/-- Every one of some held transactions pays less than a fee. -/
def underbid (pool : Mempool) (fee : Nat) : List Txid → Except Fault Bool
  | [] => .ok true
  | prior :: rest => do
    let held ← pool.entry prior
    if fee ≤ held.fee then .ok false else underbid pool fee rest

/-- The transactions an entry displaces, if it pays more than all of them. -/
def outbid (pool : Mempool) (entry : Entry) : Except Fault (Except Rejection (List Txid)) := do
  let replaced := pool.holders entry
  let wins ← pool.underbid entry.fee replaced
  return if wins then .ok replaced else .error .conflictingNonceInMempool

/-- An entry put in under its keys. -/
def keep (pool : Mempool) (txid : Txid) (entry : Entry) : Mempool :=
  { pool with
    entries := pool.entries.insert txid entry
    origins := pool.origins.insert entry.originKey txid
    sponsors := Table.insertKey pool.sponsors txid entry.sponsor
    bytes := pool.bytes + entryBytes entry }

def admission (replaced : List Txid) : Admission :=
  if replaced = [] then .added else .replaced replaced

def full (pool : Mempool) : Except Rejection Admission × Mempool :=
  (.error (.mempoolFull pool.limits.transactions pool.limits.bytes),
    { pool with saturations := min (pool.saturations + 1) (2 ^ 64 - 1) })

/-- Hold a judged entry in place of those it outbids, if there is room then. -/
def admitEntry (pool : Mempool) (txid : Txid) (entry : Entry) (replaced : List Txid) :
    Except Fault (Except Rejection Admission × Mempool) := do
  let held ← replaced.mapM pool.entry
  let retainedTransactions ← subtract (Table.size pool.entries + 1) replaced.length
  let retainedBytes ← subtract pool.bytes (held.map entryBytes).sum
  if pool.limits.transactions < retainedTransactions ∨
      pool.limits.bytes - retainedBytes < entryBytes entry then
    return pool.full
  else do
    let cleared ← pool.removeAll replaced
    return (.ok (admission replaced), cleared.keep txid entry)

variable (H : Hashes) (verifyAuthorization : Codec.Transaction → Except String Unit)

/-- Hold a transaction, or say why not. -/
def submit (pool : Mempool) (transaction : Codec.Transaction) (tip : ChainTip) (now : Nat) :
    Except Fault (Except Rejection Admission × Mempool) :=
  let txid := transaction.txid H
  if (pool.entries.lookup txid).isSome then .ok (.ok .alreadyPresent, pool)
  else
    match judge H verifyAuthorization pool transaction tip with
    | .error rejection => .ok (.error rejection, pool)
    | .ok judged => do
      let entry := { judged with acceptedAt := now }
      match ← pool.outbid entry with
      | .error rejection => return (.error rejection, pool)
      | .ok replaced => pool.admitEntry txid entry replaced

/-- The pools that submissions, removals and new tips lead to. -/
inductive Reached (network : Network) (limits : MempoolLimits) : Mempool → Prop
  | new : Reached network limits (withLimits network limits)
  | submit {pool pool' : Mempool} {transaction tip now answer} (h : Reached network limits pool)
      (hsubmit : pool.submit H verifyAuthorization transaction tip now = .ok (answer, pool')) :
      Reached network limits pool'
  | remove {pool pool' : Mempool} {txid answer} (h : Reached network limits pool)
      (hremove : pool.remove txid = .ok (answer, pool')) : Reached network limits pool'
  | advance {pool pool' : Mempool} {tip now dropped} (h : Reached network limits pool)
      (hadvance : pool.advance tip now = .ok (dropped, pool')) : Reached network limits pool'

end Mempool

end NanoStacks.Pool
