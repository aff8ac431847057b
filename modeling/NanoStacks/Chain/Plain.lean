import NanoStacks.Chain.History

/-!
# A plain engine

The smallest engine and signature scheme the model runs on, for the examples that follow its
theorems. Every signature is good, one signer signs for every cycle, and all Clarity does is count
the transfers it has run and the fees it has taken. A contract call fails, past the block limit.
-/

namespace NanoStacks.Chain

open Sortition Result Bytes

/-- A digest that tells short texts apart. -/
def plainDigest (n : Nat) (text : List UInt8) : Bytes n :=
  fill n (toLe n (text.foldl (fun sum byte => (257 * sum + byte.toNat + 1) % 256 ^ n) 0))

def plainCrypto : Crypto where
  sha256 := plainDigest 32
  sha512_256 := plainDigest 32
  hash160 := plainDigest 20
  recover _ _ := some (zero 20)
  recoverError _ _ := ""
  verifyAuthorization _ := true
  authorizationError _ := ""
  vrfVerify _ _ _ := some true
  sign _ _ := zero 65

def plainCondition (account : UInt8) (nonce : Nat) : SpendingCondition :=
  .singlesig .p2pkh (replicate 20 account) nonce 0

/-- A transaction of an account, under the account's nonce and its payload's tag. -/
def plainTransaction (tag account : UInt8) (nonce : Nat) (payload : TransactionPayloadData) :
    Transaction where
  bytes := [tag, account] ++ toBe 8 nonce
  version := .testnet
  chainId := 0
  auth := .standard (plainCondition account nonce)
  anchorMode := .any
  postConditions := []
  payload := payload

def plainTransfer (account : UInt8) (nonce : Nat) : Transaction :=
  plainTransaction 0 account nonce (.tokenTransfer (.standard ⟨26, zero 20, by decide⟩) 1 (zero 34))

def plainClarity : Clarity where
  State := Nat
  Value := Unit
  Assets := Unit
  Event := Unit
  RewardSet := Unit
  genesis := 0
  okTrue := ()
  noAssets := ()
  costOverflow := ""
  parsesContract _ _ := true
  pendingStateRoot _ world := fill 32 (toBe 8 world.state)
  setupBlockMetadata _ _ world := .ok world.state
  executeBitcoinOperations _ _ _ world := .ok world.state
  recordedSigners _ _ _ := some (.ok [(zero 20, 1)])
  setSigners _ _ _ world := .ok (none, world.state)
  sbtcPayoutAddress _ _ _ := .error .unsupportedPayload
  debit _ _ world := .ok (world.state + 1)
  touchStxBalance _ world := .ok world.state
  creditStx _ _ world := .ok world.state
  incrementLiquidStxSupply _ world := .ok world.state
  processScheduledUnlocks _ world := .ok (0, [], world.state)
  stxMintEvent _ _ := ()
  executePayload _ transaction _ _ _ world :=
    match transaction.payload with
    | .tokenTransfer .. => .ok (.success ⟨none, .zero, (), []⟩, world.state + 1)
    | .contractCall .. =>
      .ok (.runtimeFailure ⟨none, { ExecutionCost.zero with runtime := 6000000000 }, (), []⟩
        "CostBalanceExceeded", world.state)
    | _ => .error .unsupportedPayload
  checkPostconditions _ _ _ := .ok none
  phantomUnlockTransaction _ _ := plainTransfer 0 0
  serializeToHex _ := .ok ""
  jsonSerialize _ _ _ _ := .ok ⟨none, none, "", []⟩

abbrev PlainChain := ChainState plainClarity.State

def plainTenure (tenure : UInt8) : ConsensusHash := replicate 20 tenure

/-- A block of a tenure at a height, with the root the engine reaches after `runs` payloads. -/
def plainBlock (parent : StacksBlockId) (height : Nat) (tenure : UInt8) (runs : Nat)
    (transactions : List Transaction) : NakamotoBlock where
  header :=
    { version := 1
      chainLength := height
      bitcoinSpent := 0
      consensusHash := plainTenure tenure
      parentBlockId := parent
      transactionMerkleRoot := transactionMerkleRoot plainCrypto transactions
      stateIndexRoot := fill 32 (toBe 8 runs)
      timestamp := height
      minerSignature := zero 65
      signerSignatures := [zero 65]
      poxTreatment := ⟨0, []⟩
      problematicTransactions := [] }
  transactions := transactions

/-- The tenure change and the coinbase a tenure starts with, as the miner's next transactions. -/
def plainStart (parent : StacksBlockId) (previous tenure : UInt8) (blocks nonce : Nat) :
    List Transaction :=
  [plainTransaction 1 0 nonce (.tenureChange ⟨plainTenure tenure, plainTenure previous,
      plainTenure tenure, parent, blocks, .blockFound, zero 20⟩),
    plainTransaction 2 0 (nonce + 1) (.nakamotoCoinbase (zero 32) none (zero 80))]

def plainContext : BitcoinBlockContext :=
  { BitcoinBlockContext.atHeight 5 with
    preparePhaseLength := 2
    rewardPhaseLength := 8
    vrfSeed := plainDigest 32 (zero 80).toList
    winnerVrfPublicKey := some (zero 32)
    winnerSigningKeyHash := some (zero 20) }

/-- A chain whose one state is that of a block, in tenure 1, with every nonce at `nonce`. -/
def plainImported (source : StacksBlockId) (height nonce : Nat) : PlainChain :=
  ⟨⟨⟨false, 0⟩, [⟨source, none, height, ⟨1, fun _ => nonce, plainClarity.genesis⟩⟩], [], .empty⟩,
    .fresh ⟨.empty, .empty, none, none⟩⟩

/-- The boundary behind a history whose first tenure follows tenure 0. -/
def plainBoundary : CheckpointBoundaryProof :=
  ⟨plainTenure 0, zero 80, zero 32, zero 32⟩

/-- A block as it is handed to a chain standing on its parent. -/
def plainAuthenticated (block : NakamotoBlock) : AuthenticatedBlock :=
  ⟨block, plainContext, [], some block.header.parentBlockId⟩

def plainEntries (blocks : List NakamotoBlock) : List CheckpointHistoryBlock :=
  blocks.map fun block => ⟨block, plainContext, []⟩

/-- What a chain makes of a history that ends in a given block. -/
def plainHistory (origin : PlainChain) (source : StacksBlockId) (blocks : List NakamotoBlock) :
    Except CheckpointHistoryError (PlainChain) :=
  ChainState.authenticateCheckpointHistory plainCrypto (E := plainClarity) origin source
    (zero 32) plainBoundary (plainEntries blocks)

/-- The chain after a history it adopts, and what it was if it does not. -/
def plainAdopt (origin : PlainChain) (source : StacksBlockId) (blocks : List NakamotoBlock) :
    PlainChain :=
  (plainHistory origin source blocks).toOption.getD origin

theorem plainAdopt_eq {origin : PlainChain} {source : StacksBlockId} {blocks : List NakamotoBlock}
    (h : (plainHistory origin source blocks).toOption.isSome = true) :
    plainHistory origin source blocks = .ok (plainAdopt origin source blocks) := by
  obtain ⟨adopted, hadopted⟩ := Option.isSome_iff_exists.1 h
  rw [plainAdopt, hadopted]
  exact toOption_eq_some.1 hadopted

/-- The chain after a block is committed to it. -/
def plainCommit (state : PlainChain) (block : NakamotoBlock) : PlainChain :=
  (ChainState.commitAuthenticated plainCrypto (E := plainClarity) state (plainAuthenticated block)
    none).2

theorem plainCommit_eq {state : PlainChain} {block : NakamotoBlock}
    (h : (ChainState.commitAuthenticated plainCrypto (E := plainClarity) state
      (plainAuthenticated block) none).1.toOption.isSome = true) :
    ∃ built, ChainState.commitAuthenticated plainCrypto (E := plainClarity) state
      (plainAuthenticated block) none = (.ok built, plainCommit state block) := by
  obtain ⟨built, hbuilt⟩ := Option.isSome_iff_exists.1 h
  exact ⟨built, Prod.ext (toOption_eq_some.1 hbuilt) rfl⟩

end NanoStacks.Chain
