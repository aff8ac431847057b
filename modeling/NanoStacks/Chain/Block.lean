import NanoStacks.Sortition.Basic

/-!
# Nakamoto blocks

Transactions as `nano-codec` decodes them, the block header and its hashes, and the one check two
neighbouring blocks answer between themselves. A transaction keeps its consensus encoding, which is
what its identifier is the hash of; signatures inside an authorization are part of that encoding and
are not decoded further.
-/

namespace NanoStacks

namespace Chain

open Bitcoin Sortition

abbrev StacksBlockId := Bytes 32
abbrev MessageSignature := Bytes 65

/-! ## The network -/

structure Network where
  mainnet : Bool
  chainId : Nat

/-! ## Transactions -/

inductive Principal
  | standard (address : StacksAddress)
  | contract (address : StacksAddress) (contractName : String)
  deriving DecidableEq

inductive SinglesigHashMode
  | p2pkh
  | p2wpkh
  deriving DecidableEq

inductive SpendingCondition
  | singlesig (hashMode : SinglesigHashMode) (signer : Hash160) (nonce fee : Nat)
  | multisig (signer : Hash160) (nonce fee : Nat)
  | orderIndependentMultisig (signer : Hash160) (nonce fee : Nat)
  deriving DecidableEq

namespace SpendingCondition

def nonce : SpendingCondition → Nat
  | singlesig _ _ nonce _ | multisig _ nonce _ | orderIndependentMultisig _ nonce _ => nonce

def fee : SpendingCondition → Nat
  | singlesig _ _ _ fee | multisig _ _ fee | orderIndependentMultisig _ _ fee => fee

def accountAddress (mainnet : Bool) : SpendingCondition → StacksAddress
  | singlesig .p2pkh signer _ _ =>
    ⟨if mainnet then 22 else 26, signer, StacksAddress.single_le mainnet⟩
  | singlesig .p2wpkh signer _ _ | multisig signer _ _ | orderIndependentMultisig signer _ _ =>
    ⟨if mainnet then 20 else 21, signer, StacksAddress.multi_le mainnet⟩

end SpendingCondition

inductive TransactionAuth
  | standard (origin : SpendingCondition)
  | sponsored (origin sponsor : SpendingCondition)
  deriving DecidableEq

namespace TransactionAuth

def origin : TransactionAuth → SpendingCondition
  | standard origin | sponsored origin _ => origin

def sponsor : TransactionAuth → Option SpendingCondition
  | standard _ => none
  | sponsored _ sponsor => some sponsor

def payer : TransactionAuth → SpendingCondition
  | standard origin => origin
  | sponsored _ sponsor => sponsor

end TransactionAuth

inductive TransactionVersion
  | mainnet
  | testnet
  deriving DecidableEq

inductive AnchorMode
  | onChainOnly
  | offChainOnly
  | any
  deriving DecidableEq

inductive TenureChangeCause
  | blockFound
  | extended
  | extendedRuntime
  | extendedReadCount
  | extendedReadLength
  | extendedWriteCount
  | extendedWriteLength
  deriving DecidableEq

structure TenureChangePayload where
  tenureConsensusHash : ConsensusHash
  previousTenureConsensusHash : ConsensusHash
  bitcoinViewConsensusHash : ConsensusHash
  previousTenureEnd : StacksBlockId
  previousTenureBlocks : Nat
  cause : TenureChangeCause
  publicKeyHash : Hash160
  deriving DecidableEq

/-- The consensus encoding of a Clarity value. -/
abbrev ClarityValue := List UInt8

inductive TransactionPayloadData
  | tokenTransfer (recipient : Principal) (amount : Nat) (memo : Bytes 34)
  | smartContract (contractName source : String)
  | contractCall (address : StacksAddress) (contractName functionName : String)
      (arguments : List ClarityValue)
  | poisonMicroblock (first second : Bytes 132)
  | coinbase (payload : Bytes 32)
  | coinbaseToAltRecipient (payload : Bytes 32) (recipient : Principal)
  | versionedSmartContract (clarityVersion : Nat) (contractName source : String)
  | tenureChange (payload : TenureChangePayload)
  | nakamotoCoinbase (payload : Bytes 32) (recipient : Option Principal) (vrfProof : Bytes 80)
  deriving DecidableEq

/-- The encodings of the post-conditions are kept as they are; only whether there are any is asked
outside the engine. -/
structure Transaction where
  bytes : List UInt8
  version : TransactionVersion
  chainId : Nat
  auth : TransactionAuth
  anchorMode : AnchorMode
  postConditions : List (List UInt8)
  payload : TransactionPayloadData
  deriving DecidableEq

namespace Transaction

variable (transaction : Transaction)

def txid (H : Hashes) : Txid := H.sha512_256 transaction.bytes

def networkMainnet : Bool := transaction.version == .mainnet

def originAddress : StacksAddress :=
  transaction.auth.origin.accountAddress transaction.networkMainnet

def sponsorAddress : Option StacksAddress :=
  transaction.auth.sponsor.map (·.accountAddress transaction.networkMainnet)

/-- The tenure change a transaction is, if it is one. -/
def tenureChange? : Option TenureChangePayload :=
  match transaction.payload with
  | .tenureChange payload => some payload
  | _ => none

/-- `is_coinbase`: any of the three forms. -/
def isCoinbase : Bool :=
  match transaction.payload with
  | .coinbase .. | .coinbaseToAltRecipient .. | .nakamotoCoinbase .. => true
  | _ => false

def isTenureChange : Bool := transaction.tenureChange?.isSome

end Transaction

/-! ## The Merkle root -/

def taggedHash (H : Hashes) (tag : UInt8) (data : List UInt8) : Bytes 32 := H.sha512_256 (tag :: data)

/-- One level up; the last hash of an odd level is paired with itself. -/
def pairLevel (H : Hashes) : List (Bytes 32) → List (Bytes 32)
  | [] => []
  | [last] => [taggedHash H 1 (last.toList ++ last.toList)]
  | left :: right :: rest => taggedHash H 1 (left.toList ++ right.toList) :: pairLevel H rest

/-- The loop up to the root: a level halves each time, so its own length is fuel enough. -/
def reduceLevels (H : Hashes) : Nat → List (Bytes 32) → List (Bytes 32)
  | 0, level => level
  | fuel + 1, level => if level.length ≤ 1 then level else reduceLevels H fuel (pairLevel H level)

def transactionMerkleRoot (H : Hashes) (transactions : List Transaction) : Bytes 32 :=
  match transactions.map fun transaction => taggedHash H 0 (transaction.txid H).toList with
  | [] => Bytes.zero 32
  | [only] => taggedHash H 1 (only.toList ++ only.toList)
  | level => (reduceLevels H level.length level).headD (Bytes.zero 32)

/-! ## Blocks -/

/-- The stored bytes of a bit vector and the number of bits in them. -/
structure PoxTreatment where
  length : Nat
  data : List UInt8
  deriving DecidableEq

structure ProblematicTransaction where
  index : Nat
  category : UInt8
  deriving DecidableEq

structure NakamotoBlockHeader where
  version : UInt8
  chainLength : Nat
  bitcoinSpent : Nat
  consensusHash : ConsensusHash
  parentBlockId : StacksBlockId
  transactionMerkleRoot : Bytes 32
  stateIndexRoot : Bytes 32
  timestamp : Nat
  minerSignature : MessageSignature
  signerSignatures : List MessageSignature
  poxTreatment : PoxTreatment
  problematicTransactions : List ProblematicTransaction
  deriving DecidableEq

namespace NakamotoBlockHeader

variable (H : Hashes) (header : NakamotoBlockHeader)

def encodeWithoutSignatures : List UInt8 :=
  header.version :: toBe 8 header.chainLength ++ toBe 8 header.bitcoinSpent ++
    header.consensusHash.toList ++ header.parentBlockId.toList ++
    header.transactionMerkleRoot.toList ++ header.stateIndexRoot.toList ++ toBe 8 header.timestamp

def encodePoxTreatment : List UInt8 :=
  toBe 2 header.poxTreatment.length ++ toBe 4 header.poxTreatment.data.length ++
    header.poxTreatment.data

def encodeProblematicTransactions : List UInt8 :=
  if 1 ≤ header.version.toNat % 128 then
    toBe 4 header.problematicTransactions.length ++
      header.problematicTransactions.flatMap fun marker => toBe 4 marker.index ++ [marker.category]
  else []

def signingBytes (includeMinerSignature : Bool) : List UInt8 :=
  header.encodeWithoutSignatures ++
    (if includeMinerSignature then header.minerSignature.toList else []) ++
    header.encodePoxTreatment ++ header.encodeProblematicTransactions

def minerSignatureHash : Bytes 32 := H.sha512_256 (header.signingBytes false)

def signerSignatureHash : Bytes 32 := H.sha512_256 (header.signingBytes true)

def blockHash : Bytes 32 := header.signerSignatureHash H

def blockId : StacksBlockId :=
  H.sha512_256 ((header.blockHash H).toList ++ header.consensusHash.toList)

end NakamotoBlockHeader

structure NakamotoBlock where
  header : NakamotoBlockHeader
  transactions : List Transaction

inductive TenureError
  | parentBlockId
  | chainLength
  | timestamp
  | missingTenureChange
  deriving DecidableEq

/-- `u64::saturating_add`. -/
def saturatingAdd (a b : Nat) : Nat := min (a + b) (2 ^ 64 - 1)

namespace NakamotoBlock

variable (H : Hashes) (block : NakamotoBlock)

def blockId : StacksBlockId := block.header.blockId H

def tenureChangePayload : Option TenureChangePayload :=
  block.transactions.findSome? (·.tenureChange?)

def bitcoinViewConsensusHash : Option ConsensusHash :=
  block.tenureChangePayload.map (·.bitcoinViewConsensusHash)

/-- `block_starts_new_tenure`. -/
def startsNewTenure : Bool :=
  block.transactions.any fun transaction =>
    transaction.tenureChange?.any (·.cause == .blockFound)

def coinbaseVrfProof : Option (Bytes 80) :=
  block.transactions.findSome? fun transaction =>
    match transaction.payload with
    | .nakamotoCoinbase _ _ vrfProof => some vrfProof
    | _ => none

/-- `tenure_coinbase`: the coinbase a block carries, in any of its forms. -/
def tenureCoinbase : Option Transaction := block.transactions.find? (·.isCoinbase)

/-- `block_fees`. -/
def fees : Nat := (block.transactions.map (·.auth.payer.fee)).sum

def validateSuccessor (parent : NakamotoBlockHeader) : Except TenureError Unit := do
  Result.ensure (block.header.parentBlockId = parent.blockId H) .parentBlockId
  Result.ensure (block.header.chainLength = saturatingAdd parent.chainLength 1) .chainLength
  Result.ensure (parent.timestamp < block.header.timestamp) .timestamp
  Result.ensure (block.header.consensusHash = parent.consensusHash ∨
    block.transactions.any (·.isTenureChange)) .missingTenureChange

theorem validateSuccessor_eq_ok {parent : NakamotoBlockHeader} :
    block.validateSuccessor H parent = .ok () ↔
      block.header.parentBlockId = parent.blockId H ∧
      block.header.chainLength = saturatingAdd parent.chainLength 1 ∧
      parent.timestamp < block.header.timestamp ∧
      (block.header.consensusHash = parent.consensusHash ∨
        block.transactions.any (·.isTenureChange)) := by
  simp [validateSuccessor]

theorem any_isTenureChange :
    block.transactions.any (·.isTenureChange) = block.tenureChangePayload.isSome := by
  rw [tenureChangePayload, Bool.eq_iff_iff, List.findSome?_isSome_iff, List.any_eq_true]
  exact Iff.rfl

theorem tenureChangePayload_isSome_of_startsNewTenure (h : block.startsNewTenure = true) :
    block.tenureChangePayload.isSome := by
  obtain ⟨transaction, hmem, hfound⟩ := List.any_eq_true.1 h
  rw [← any_isTenureChange, List.any_eq_true]
  refine ⟨transaction, hmem, ?_⟩
  rw [Transaction.isTenureChange]
  cases hp : transaction.tenureChange? with
  | none => simp [hp] at hfound
  | some payload => rfl

end NakamotoBlock

end Chain

end NanoStacks
