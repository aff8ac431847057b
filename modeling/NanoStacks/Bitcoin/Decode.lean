import NanoStacks.Bitcoin.Basic

/-!
# Decoding Bitcoin blocks

A Stacks operation is a Bitcoin transaction whose first output pushes a tagged payload. Those that move
STX take their sender from the `PreStx` transaction their first input spends, which may be up to six
blocks older, so a decoder carries the `PreStx` senders it has seen from block to block.

Deserializing a block and reading the push out of a script are the Bitcoin library's; a `RawBlock` is
what they give.
-/

namespace NanoStacks.Bitcoin

open Option

structure RawTransaction where
  txid : Txid
  inputs : List BitcoinInput
  /-- What output zero pushes after `OP_RETURN`, if that is all it does. -/
  pushed : Option (List UInt8)
  /-- The other outputs: satoshis and script. -/
  outputs : List (Nat × List UInt8)
  deriving DecidableEq

structure RawBlock where
  hash : Bytes 32
  timestamp : Nat
  transactions : List RawTransaction
  deriving DecidableEq

/-! ## Scripts and payloads -/

/-- `data.get(start..start + n)`, as an array. -/
def field (n : Nat) (data : List UInt8) (start : Nat) : Option (Bytes n) :=
  Bytes.ofList? n ((data.drop start).take n)

/-- A big-endian number of `n` bytes. -/
def fieldNat (n : Nat) (data : List UInt8) (start : Nat) : Option Nat :=
  (field n data start).map fun bytes => ofLe bytes.toList.reverse

def PoxAddress.fromScriptPubkey (script : List UInt8) (mainnet : Bool) : Option PoxAddress :=
  if script.length = 25 ∧ script.take 3 = [0x76, 0xa9, 0x14] ∧ script.drop 23 = [0x88, 0xac] then
    (field 20 script 3).map fun bytes =>
      .standard ⟨if mainnet then 22 else 26, bytes, by split <;> omega⟩ (some .p2pkh)
  else if script.length = 23 ∧ script.take 2 = [0xa9, 0x14] ∧ script.drop 22 = [0x87] then
    (field 20 script 2).map fun bytes =>
      .standard ⟨if mainnet then 20 else 21, bytes, by split <;> omega⟩ (some .p2sh)
  else if script.length = 22 ∧ script.take 2 = [0x00, 0x14] then
    (field 20 script 2).map (.addr20 mainnet)
  else if script.length = 34 ∧ script.take 2 = [0x00, 0x20] then
    (field 32 script 2).map (.addr32 mainnet .p2wsh)
  else if script.length = 34 ∧ script.take 2 = [0x51, 0x20] then
    (field 32 script 2).map (.addr32 mainnet .p2tr)
  else none

/-- The opcode and the payload behind the network's magic. -/
def protocolPayload (magic : Bytes 2) (pushed : Option (List UInt8)) :
    Option (UInt8 × List UInt8) := do
  let data ← pushed
  match data with
  | first :: second :: opcode :: payload =>
    if [first, second] = magic.toList then some (opcode, payload) else none
  | _ => none

def parseLeaderBlockCommit (data : List UInt8) : Option BitcoinOperationKind := do
  let blockHeaderHash ← field 32 data 0
  let newSeed ← field 32 data 32
  let parentBlockHeight ← fieldNat 4 data 64
  let parentTransactionIndex ← fieldNat 2 data 68
  let keyBlockHeight ← fieldNat 4 data 70
  let keyTransactionIndex ← fieldNat 2 data 74
  let flags ← data[76]?
  return .leaderBlockCommit ⟨blockHeaderHash, newSeed, parentBlockHeight, parentTransactionIndex,
    keyBlockHeight, keyTransactionIndex, flags >>> 3, (flags &&& 0b111) % 5⟩

/-- `validKey` is the VRF library's check of a public key. -/
def parseLeaderKeyRegistration (validKey : Bytes 32 → Bool) (data : List UInt8) :
    Option BitcoinOperationKind := do
  let consensusHash ← field 20 data 0
  let vrfPublicKey ← field 32 data 20
  if validKey vrfPublicKey then
    let memo := data.drop 52
    return .leaderKeyRegistration consensusHash vrfPublicKey (field 20 memo 0) memo
  else none

def parseStackStx (data : List UInt8) (outputs : List BitcoinOutput) (sender : StacksAddress) :
    Option BitcoinOperationKind := do
  let amount ← fieldNat 16 data 0
  let cycles ← data[16]?
  let output ← outputs.head?
  return .stackStx sender output.recipient amount cycles.toNat (field 33 data 17)
    (fieldNat 16 data 50) (fieldNat 4 data 66)

def parseTransferStx (data : List UInt8) (outputs : List BitcoinOutput) (sender : StacksAddress) :
    Option BitcoinOperationKind := do
  if 16 ≤ data.length ∧ data.length ≤ 77 then
    let output ← outputs.head?
    let recipient ← output.recipient.asStacksAddress
    let amount ← fieldNat 16 data 0
    return .transferStx sender recipient amount (data.drop 16)
  else none

/-- A flag and the number behind it: absent, present, or neither. -/
def flaggedNat (n : Nat) (data : List UInt8) (start : Nat) : Option (Option Nat) :=
  match data[start]? with
  | some 0 => some none
  | some 1 => (fieldNat n data (start + 1)).map some
  | _ => none

def parseDelegateStx (data : List UInt8) (outputs : List BitcoinOutput) (sender : StacksAddress) :
    Option BitcoinOperationKind := do
  let amount ← fieldNat 16 data 0
  let rewardAddressOutput ← flaggedNat 4 data 16
  let untilBitcoinHeight ← flaggedNat 8 data 21
  let output ← outputs.head?
  let delegate ← output.recipient.asStacksAddress
  return .delegateStx sender delegate amount
    ((rewardAddressOutput.bind fun index => outputs[index]?).map (·.recipient)) rewardAddressOutput
    untilBitcoinHeight

def parseVoteForAggregateKey (data : List UInt8) (sender : StacksAddress) :
    Option BitcoinOperationKind := do
  if data.length = 47 then
    let signerIndex ← fieldNat 2 data 0
    let aggregateKey ← field 33 data 2
    let round ← fieldNat 4 data 35
    let rewardCycle ← fieldNat 8 data 39
    return .voteForAggregateKey sender signerIndex aggregateKey round rewardCycle
  else none

def parsePreStx (outputs : List BitcoinOutput) : Option BitcoinOperationKind := do
  let output ← outputs.head?
  let sender ← output.recipient.asStacksAddress
  return .preStx sender

/-- An operation that moves STX needs the sender its `PreStx` names. -/
def parseOperation (validKey : Bytes 32 → Bool) (opcode : UInt8) (data : List UInt8)
    (outputs : List BitcoinOutput) (sender : Option StacksAddress) :
    Option BitcoinOperationKind :=
  if opcode = 0x5b then parseLeaderBlockCommit data
  else if opcode = 0x5e then parseLeaderKeyRegistration validKey data
  else if opcode = 0x70 then parsePreStx outputs
  else if opcode = 0x78 then sender.bind (parseStackStx data outputs)
  else if opcode = 0x24 then sender.bind (parseTransferStx data outputs)
  else if opcode = 0x23 then sender.bind (parseDelegateStx data outputs)
  else if opcode = 0x76 then sender.bind (parseVoteForAggregateKey data)
  else none

/-! ## The senders seen -/

def preStxWindowBlocks : Nat := 6

/-- The sender of each `PreStx` transaction, with the height it was seen at. -/
structure PreStxCache where
  senders : Txid → Option (StacksAddress × Nat)

namespace PreStxCache

def new : PreStxCache := ⟨fun _ => none⟩

variable (cache : PreStxCache)

def retainWindow (height : Nat) : PreStxCache :=
  ⟨fun txid => (cache.senders txid).filter fun seen => height - seen.2 ≤ preStxWindowBlocks⟩

/-- Drop the pairings contributed at or above a height. -/
def invalidateFrom (height : Nat) : PreStxCache :=
  ⟨fun txid => (cache.senders txid).filter fun seen => seen.2 < height⟩

/-- The sender a transaction's first input names. -/
def senderOf (transaction : RawTransaction) : Option StacksAddress := do
  let input ← transaction.inputs.head?
  if input.outputIndex = 1 then (cache.senders input.txid).map (·.1) else none

/-- Keep what an operation of a block contributes. -/
def remember (height : Nat) (operation : BitcoinOperation) : PreStxCache :=
  match operation.kind with
  | .preStx sender => ⟨Function.update cache.senders operation.txid (some (sender, height))⟩
  | _ => cache

end PreStxCache

/-! ## Blocks -/

inductive BitcoinParseError
  | invalidBlock
  | tooManyTransactions

section Decode

variable (validKey : Bytes 32 → Bool) (magic : Bytes 2)

/-- The outputs behind the first, if every one of them has a recipient. -/
def decodeOutputs (outputs : List (Nat × List UInt8)) : Option (List BitcoinOutput) :=
  outputs.mapM fun (amountSats, script) =>
    (PoxAddress.fromScriptPubkey script false).map (⟨amountSats, ·⟩)

/-- The operation in a transaction, for the sender its first input names. -/
def decodeTransaction (index : Nat) (sender : Option StacksAddress) (transaction : RawTransaction) :
    Option BitcoinOperation := do
  let (opcode, payload) ← protocolPayload magic transaction.pushed
  let outputs ← decodeOutputs transaction.outputs
  if transaction.inputs = [] ∨ outputs = [] then none
  else
    let kind ← parseOperation validKey opcode payload outputs sender
    return ⟨transaction.txid, index, transaction.inputs, outputs, kind⟩

def decodeTransactions (height : Nat) : Nat → List RawTransaction → PreStxCache →
    Except BitcoinParseError (List BitcoinOperation) × PreStxCache
  | _, [], cache => (.ok [], cache)
  | index, transaction :: rest, cache =>
    if 2 ^ 32 ≤ index then (.error .tooManyTransactions, cache)
    else
      match decodeTransaction validKey magic index (cache.senderOf transaction) transaction with
      | none => decodeTransactions height (index + 1) rest cache
      | some operation =>
        let decoded := decodeTransactions height (index + 1) rest (cache.remember height operation)
        (decoded.1.map (operation :: ·), decoded.2)

/-- Decode a block, `none` for bytes that are not one. -/
def decodeBlockWithPreStx (height : Nat) (raw : Option RawBlock) (cache : PreStxCache) :
    Except BitcoinParseError BitcoinBlock × PreStxCache :=
  let cache := cache.retainWindow height
  match raw with
  | none => (.error .invalidBlock, cache)
  | some block =>
    let decoded := decodeTransactions validKey magic height 0 block.transactions cache
    (decoded.1.map fun operations => ⟨height, block.hash, block.timestamp, operations⟩, decoded.2)

/-! ## What a block leaves in the cache -/

/-- The sender a `PreStx` transaction names. -/
def preStxSender (transaction : RawTransaction) : Option StacksAddress :=
  (decodeTransaction validKey magic 0 none transaction).bind fun operation =>
    match operation.kind with
    | .preStx sender => some sender
    | _ => none

/-- What a transaction leaves in the cache. -/
def noteTransaction (height : Nat) (cache : PreStxCache) (transaction : RawTransaction) :
    PreStxCache :=
  match preStxSender validKey magic transaction with
  | some sender => ⟨Function.update cache.senders transaction.txid (some (sender, height))⟩
  | none => cache

variable {validKey magic}

variable {origin : Option StacksAddress} {sender : StacksAddress}

theorem parseOperation_preStx {opcode : UInt8} {data : List UInt8} {outputs : List BitcoinOutput} :
    parseOperation validKey opcode data outputs origin = some (.preStx sender) ↔
      opcode = 0x70 ∧ parsePreStx outputs = some (.preStx sender) := by
  unfold parseOperation
  split_ifs with h h h h h h h
  all_goals
    simp_all [parseLeaderBlockCommit, parseLeaderKeyRegistration, parseStackStx, parseTransferStx,
      parseDelegateStx, parseVoteForAggregateKey, bind_eq_some_iff]

variable {index : Nat} {transaction : RawTransaction} {operation : BitcoinOperation}

section

variable (h : decodeTransaction validKey magic index origin transaction = some operation)

include h

theorem decodeTransaction_preStx (hkind : operation.kind = .preStx sender) (index' : Nat)
    (origin' : Option StacksAddress) :
    ∃ operation', decodeTransaction validKey magic index' origin' transaction = some operation' ∧
      operation'.kind = .preStx sender := by
  simp only [decodeTransaction, bind_eq_bind, bind_eq_some_iff] at h ⊢
  obtain ⟨⟨opcode, payload⟩, hpayload, outputs, houtputs, h⟩ := h
  split_ifs at h with hempty
  simp only [bind_eq_some_iff, pure_def, some.injEq] at h
  obtain ⟨kind, hparse, rfl⟩ := h
  obtain rfl : kind = .preStx sender := hkind
  have hparse' : parseOperation validKey opcode payload outputs origin' = some (.preStx sender) :=
    parseOperation_preStx.2 (parseOperation_preStx.1 hparse)
  refine ⟨⟨transaction.txid, index', transaction.inputs, outputs, .preStx sender⟩,
    ⟨_, hpayload, outputs, houtputs, ?_⟩, rfl⟩
  rw [if_neg hempty]
  simp [hparse']

theorem txid_of_decodeTransaction : operation.txid = transaction.txid := by
  simp only [decodeTransaction, bind_eq_bind, bind_eq_some_iff] at h
  obtain ⟨_, -, outputs, -, h⟩ := h
  split_ifs at h
  simp only [bind_eq_some_iff, pure_def, some.injEq] at h
  obtain ⟨_, -, rfl⟩ := h
  rfl

end

/-- Whether a transaction is a `PreStx`, and for whom, is the same whatever sender it is given. -/
theorem preStxSender_eq_some :
    preStxSender validKey magic transaction = some sender ↔
      ∃ operation, decodeTransaction validKey magic index origin transaction = some operation ∧
        operation.kind = .preStx sender := by
  constructor
  · intro h
    obtain ⟨operation, hdecode, hkind⟩ := bind_eq_some_iff.1 h
    split at hkind
    · obtain rfl := some.inj hkind
      exact decodeTransaction_preStx hdecode ‹_› index origin
    · cases hkind
  · rintro ⟨operation, hdecode, hkind⟩
    obtain ⟨operation', hdecode', hkind'⟩ := decodeTransaction_preStx hdecode hkind 0 none
    simp [preStxSender, hdecode', hkind']

variable {height : Nat}

theorem remember_eq_note (cache : PreStxCache)
    (h : decodeTransaction validKey magic index origin transaction = some operation) :
    cache.remember height operation = noteTransaction validKey magic height cache transaction := by
  unfold PreStxCache.remember noteTransaction
  cases hsender : preStxSender validKey magic transaction with
  | none =>
    split
    · rename_i sender hkind
      rw [preStxSender_eq_some.2 ⟨operation, h, hkind⟩] at hsender
      cases hsender
    · rfl
  | some sender =>
    obtain ⟨operation', hdecode', hkind⟩ := preStxSender_eq_some.1 hsender
    obtain rfl : operation = operation' := some.inj (h.symm.trans hdecode')
    simp [hkind, txid_of_decodeTransaction h]

theorem note_of_decodeTransaction_none (cache : PreStxCache)
    (h : decodeTransaction validKey magic index origin transaction = none) :
    noteTransaction validKey magic height cache transaction = cache := by
  unfold noteTransaction
  cases hsender : preStxSender validKey magic transaction with
  | none => rfl
  | some sender =>
    obtain ⟨operation, hdecode, -⟩ := preStxSender_eq_some.1 hsender
    rw [h] at hdecode
    cases hdecode

/-- One step of the decoder: the operation in the first transaction, if any, and what the
transaction leaves in the cache. -/
theorem decodeTransactions_cons (hindex : index < 2 ^ 32) (transaction : RawTransaction)
    (rest : List RawTransaction) (cache : PreStxCache) :
    decodeTransactions validKey magic height index (transaction :: rest) cache =
      let decoded := decodeTransactions validKey magic height (index + 1) rest
        (noteTransaction validKey magic height cache transaction)
      (decoded.1.map ((decodeTransaction validKey magic index (cache.senderOf transaction)
        transaction).toList ++ ·), decoded.2) := by
  rw [decodeTransactions, if_neg (by omega)]
  cases hdecode : decodeTransaction validKey magic index (cache.senderOf transaction)
      transaction with
  | none =>
    rw [note_of_decodeTransaction_none cache hdecode]
    have hmap : ∀ decoded : Except BitcoinParseError (List BitcoinOperation),
        decoded.map ((none : Option BitcoinOperation).toList ++ ·) = decoded := by
      rintro (error | operations) <;> rfl
    simp only [hmap]
  | some operation =>
    rw [← remember_eq_note cache hdecode]
    rfl

theorem decodeTransactions_cache {transactions : List RawTransaction}
    (hindex : index + transactions.length ≤ 2 ^ 32) (cache : PreStxCache) :
    (decodeTransactions validKey magic height index transactions cache).2 =
      transactions.foldl (noteTransaction validKey magic height) cache := by
  induction transactions generalizing index cache with
  | nil => rfl
  | cons transaction rest ih =>
    rw [List.length_cons] at hindex
    have hrest : index + 1 + rest.length ≤ 2 ^ 32 := by omega
    rw [decodeTransactions_cons (by omega), List.foldl_cons, ← ih hrest]

end Decode

end NanoStacks.Bitcoin
