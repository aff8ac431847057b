import NanoStacks.Chain.Store
import NanoStacks.Chain.Receipts

/-!
# Executing a block

`execute_nakamoto_block` in two halves: `buildBlock` runs a block on its parent's state and a copy of
the ledger, touching nothing; what it built is then sealed, or dropped. A followed block has to reach
the root its header commits to, a block under assembly is given the root it reaches.
-/

namespace NanoStacks.Chain

open Bitcoin Sortition Result

inductive RootPolicy
  | mine (minerKey : Bytes 32)
  | verify
  | trust

def RootPolicy.assembles : RootPolicy → Bool
  | mine _ => true
  | verify | trust => false

inductive BlockAuthentication
  | required
  | authenticated
  | proposal
  | unauthenticatedFixture

namespace BlockAuthentication

def checksBeforeExecution : BlockAuthentication → Bool
  | required | proposal => true
  | authenticated | unauthenticatedFixture => false

def checksSignerSignatures : BlockAuthentication → Bool
  | required => true
  | authenticated | proposal | unauthenticatedFixture => false

end BlockAuthentication

inductive BlockPersistence
  | seal
  | discard

structure BlockExecution where
  context : BitcoinBlockContext
  waterfallRegistry : Option String
  operations : List BitcoinOperation
  parent : Option StacksBlockId
  root : RootPolicy
  effects : NativeBlockEffects
  candidates : List Transaction
  authentication : BlockAuthentication
  persistence : BlockPersistence

structure ChainState (State : Type) where
  vm : Vm State
  ledger : ChainLedger

/-! ## The VRF of a tenure start -/

inductive TenureVrfError
  | missingLeaderKey
  | missingParentProof
  | missingProof
  | malformedProof
  | proofNotFromLeaderKey
  | seedNotFromParentProof
  deriving DecidableEq

def TenureVrfError.display : TenureVrfError → String
  | missingLeaderKey => "the local sortition carries no winning VRF key"
  | missingParentProof => "the authenticated state carries no parent-tenure VRF proof"
  | missingProof => "tenure-start block has no coinbase VRF proof"
  | malformedProof => "coinbase VRF proof is malformed"
  | proofNotFromLeaderKey => "coinbase VRF proof was not produced by the winning leader key"
  | seedNotFromParentProof => "committed seed is not the hash of the parent tenure's VRF proof"

variable (C : Crypto) (E : Clarity)

def verifyVrfProof (proof : Bytes 80) (key : Bytes 32) (sortitionHash : SortitionHash) :
    Except TenureVrfError Unit :=
  match C.vrfVerify key proof sortitionHash with
  | none => .error .malformedProof
  | some true => .ok ()
  | some false => .error .proofNotFromLeaderKey

def verifyCoinbaseVrfProof (block : NakamotoBlock) (key : Bytes 32) (sortitionHash : SortitionHash) :
    Except TenureVrfError Unit := do
  let proof ← okOr block.coinbaseVrfProof .missingProof
  verifyVrfProof C proof key sortitionHash

def verifyCommittedVrfSeed (committedSeed : Bytes 32) (parentTenureProof : Bytes 80) :
    Except TenureVrfError Unit :=
  ensure (C.sha512_256 parentTenureProof.toList = committedSeed) .seedNotFromParentProof

def checkTenureVrf (ledger : ChainLedger) (block : NakamotoBlock) (context : BitcoinBlockContext) :
    Except TenureVrfError Unit := do
  let key ← okOr context.winnerVrfPublicKey .missingLeaderKey
  verifyCoinbaseVrfProof C block key context.sortitionHash
  let parentProof ← okOr ledger.parentTenureProof .missingParentProof
  verifyCommittedVrfSeed C context.vrfSeed parentProof

/-! ## Checks before anything runs -/

def checkMinerWonTheSortition (block : NakamotoBlock) (context : BitcoinBlockContext)
    (operations : List BitcoinOperation) : Except ConsensusError Unit := do
  let vrfPublicKey ← okOr context.winnerVrfPublicKey .winnerVrfKeyUnavailable
  let signingKeyHash ← okOr
    ((registeredSigningKeyHash operations vrfPublicKey).or context.winnerSigningKeyHash)
    .winnerSigningKeyUnavailable
  verifyMinerSignature C block.header signingKeyHash

def checkBeforeExecuting (network : Network) (ledger : ChainLedger) (block : NakamotoBlock)
    (parent : Option StacksBlockId) (context : BitcoinBlockContext)
    (operations : List BitcoinOperation) (assembled : Bool) : Except ChainStateError Unit := do
  match parent with
  | none => .ok ()
  | some _ => do
    ensure (2 ≤ block.header.chainLength)
      (.invalidTransaction "Nakamoto block cannot extend the genesis height")
    ensure (block.header.chainLength - 2 < 2 ^ 32)
      (.invalidTransaction "Stacks height overflows u32")
  (authenticateBlock C block network (if assembled then .pending else .present)).mapError .consensus
  (checkTenureContinuity ledger block parent).mapError .consensus
  (if assembled then .ok ()
    else (checkMinerWonTheSortition C block context operations).mapError .consensus)
  (if block.startsNewTenure then
      (checkTenureVrf C ledger block context).mapError fun error => .invalidTransaction error.display
    else .ok ())

/-! ## The signers of the state a block stands on -/

def recordedSignerSet (env : BlockEnv) (world : World E.State) :
    Except ChainStateError SignerWeights := do
  let cycle ← okOr env.context.rewardCycle (.noSignerSet 0)
  match E.recordedSigners env cycle world with
  | none => .error (.noSignerSet cycle)
  | some (.error message) => .error (.invalidTransaction message)
  | some (.ok entries) => do
    ensure (entries ≠ []) (.noSignerSet cycle)
    (SignerWeights.new entries).mapError fun error => .invalidTransaction error.display

/-- The refusal names the error; the numbers the source prints beside it are left out. -/
def checkSignerSignatures (env : BlockEnv) (block : NakamotoBlock) (world : World E.State) :
    Except ChainStateError Unit :=
  match recordedSignerSet E env world with
  | .ok set => do
    let _ ← (set.verify C block.header).mapError fun error =>
      .invalidTransaction (ConsensusError.signerWeight error).display
    return ()
  | .error (.noSignerSet cycle) => .error (.consensus (.signerSetUnavailable cycle))
  | .error error => .error error

/-! ## Starting a tenure -/

def startTenure (env : BlockEnv) (operations : List BitcoinOperation) (block : NakamotoBlock)
    (ledger : ChainLedger) (world : World E.State) :
    Except ChainStateError (NativeBlockEffects × ChainLedger × World E.State) := do
  let next := world.tenureHeight + 1
  ensure (next < 2 ^ 32) (.invalidTransaction "tenure height overflow")
  let world := world.setTenureHeight next
  let state ← E.executeBitcoinOperations env operations env.context.height world
  let accounting ← (match ledger.accounting.schedule with
    | none => .ok ledger.accounting
    | some schedule => do
      let coinbase := saturatingAdd128 (schedule.emissionAt env.context.height)
        env.context.accumulatedCoinbase
      let earnings ← okOr (TenureEarnings.fromTenureStart E.parsesContract block coinbase)
        (.invalidTransaction "tenure-start block has no coinbase transaction")
      return ledger.accounting.recordEarnings next earnings)
  let effects ← (accounting.effectsForTenure env.network next).mapError fun error =>
    .invalidTransaction error.display
  return (effects, { ledger with accounting := accounting }, world.withState state)

def maturedRewardAmounts (effects : NativeBlockEffects) : Except ChainStateError (Nat × Nat) := do
  let coinbase := effects.liquidSupplyIncrease
  let first := (effects.credits.head?.map (·.amount)).getD 0
  ensure (coinbase ≤ first)
    (.invalidTransaction "matured liquid supply exceeds the first reward credit")
  return (coinbase, first - coinbase)

/-- What the start of a tenure adds to a block: its rewards, and how the first of them splits. -/
structure TenureStart where
  ledger : ChainLedger
  world : World E.State
  effects : NativeBlockEffects
  maturedRewards : List NativeStxCredit
  maturedCoinbase : Nat
  maturedAnchoredFees : Nat

def applyTenureStart (env : BlockEnv) (operations : List BitcoinOperation) (block : NakamotoBlock)
    (effects : NativeBlockEffects) (ledger : ChainLedger) (world : World E.State) :
    Except ChainStateError (TenureStart E) :=
  if block.startsNewTenure then do
    let (matured, ledger, world) ← startTenure E env operations block ledger world
    let (coinbase, anchoredFees) ← maturedRewardAmounts matured
    let supply := effects.liquidSupplyIncrease + matured.liquidSupplyIncrease
    ensure (supply < 2 ^ 128) (.invalidTransaction "native liquid supply increase overflow")
    return ⟨ledger, world, ⟨effects.credits ++ matured.credits, supply⟩, matured.credits, coinbase,
      anchoredFees⟩
  else .ok ⟨ledger, world, effects, [], 0, 0⟩

/-! ## Running the transactions -/

/-- The engine's own failure is reported with the transaction it happened in. -/
def identifyFailure (transaction : Transaction) (height : Nat) : ChainStateError → ChainStateError
  | .execution error => .transactionExecution (transaction.txid C) height error
  | error => error

/-- The loop over the transactions a block carries. -/
def runBlockTransactions (env : BlockEnv) (height : Nat) :
    ExecutionCost → World E.State → List Transaction →
      Except ChainStateError (ExecutionCost × List E.Receipt × World E.State)
  | cost, world, [] => .ok (cost, [], world)
  | cost, world, transaction :: rest => do
    ensure (C.verifyAuthorization transaction) (.invalidTransaction
      s!"transaction authorization failed: {C.authorizationError transaction}")
    let (receipt, world) ← (transaction.execute C E env cost world).mapError
      (identifyFailure C transaction height)
    let cost ← okOr (cost.add receipt.result.cost)
      (.invalidTransaction s!"block cost overflow: {E.costOverflow}")
    let (cost, receipts, world) ← runBlockTransactions env height cost world rest
    return (cost, receipt :: receipts, world)

/-- What a block under assembly has been filled with. -/
structure Admitted where
  transactions : List Transaction
  receipts : List E.Receipt
  cost : ExecutionCost
  world : World E.State

/-- The loop over the candidates: one that cannot run is passed over, and the first that overruns the
block's budget ends the loop. -/
def admitEach (env : BlockEnv) : ExecutionCost → World E.State → List Transaction → Admitted E
  | cost, world, [] => ⟨[], [], cost, world⟩
  | cost, world, candidate :: rest =>
    if C.verifyAuthorization candidate then
      match candidate.execute C E env cost world with
      | .error _ => admitEach env cost world rest
      | .ok (receipt, executed) =>
        match cost.add receipt.result.cost with
        | none => ⟨[], [], cost.addInto receipt.result.cost, executed⟩
        | some total =>
          if total.exceeds epoch4BlockLimit then ⟨[], [], total, executed⟩
          else
            let admitted := admitEach env total executed rest
            ⟨candidate :: admitted.transactions, receipt :: admitted.receipts, admitted.cost,
              admitted.world⟩
    else admitEach env cost world rest

/-- The block with the admitted candidates added and its Merkle root derived again. -/
def admitCandidates (env : BlockEnv) (block : NakamotoBlock) (candidates : List Transaction)
    (cost : ExecutionCost) (receipts : List E.Receipt) (world : World E.State) :
    NakamotoBlock × ExecutionCost × List E.Receipt × World E.State :=
  if candidates = [] then (block, cost, receipts, world)
  else
    let admitted := admitEach C E env cost world candidates
    let transactions := block.transactions ++ admitted.transactions
    (⟨{ block.header with
        transactionMerkleRoot := transactionMerkleRoot C transactions }, transactions⟩,
      admitted.cost, receipts ++ admitted.receipts, admitted.world)

def runTransactions (env : BlockEnv) (block : NakamotoBlock) (candidates : List Transaction)
    (assembled : Bool) (world : World E.State) :
    Except ChainStateError (NakamotoBlock × ExecutionCost × List E.Receipt × World E.State) := do
  let (cost, receipts, world) ←
    runBlockTransactions C E env block.header.chainLength .zero world block.transactions
  let filled := admitCandidates C E env block candidates cost receipts world
  ensure (¬(assembled ∧ filled.1.transactions = [])) (.consensus .emptyBlock)
  return filled

/-! ## Finishing a block -/

def updateSignerSet (env : BlockEnv) (world : World E.State) :
    Except ChainStateError (Option E.RewardSet × World E.State) :=
  match env.context.preparePhaseRewardCycle with
  | none => .ok (none, world)
  | some cycle => do
    let (set, state) ← E.setSigners env cycle world.tenureHeight world
    return (set, world.withState state)

def waterfallPayout (env : BlockEnv) (rewardSet : Option E.RewardSet) (registry : Option String)
    (world : World E.State) : Except ChainStateError (Option PoxAddress) :=
  if rewardSet.isNone || (!env.network.mainnet && registry.isNone) then .ok none
  else do return some (← E.sbtcPayoutAddress env registry world)

/-- Nothing is written where nothing matured. -/
def applyCredits (effects : NativeBlockEffects) (world : World E.State) :
    Except ChainStateError (World E.State) :=
  if effects.credits = [] then .ok world
  else do
    let world ← effects.credits.foldlM
      (fun world credit => do return world.withState (← E.creditStx credit.recipient credit.amount world))
      world
    return world.withState (← E.incrementLiquidStxSupply effects.liquidSupplyIncrease world)

/-- Add events to a receipt. -/
def addEvents (receipt : E.Receipt) (events : List E.Event) : E.Receipt :=
  { receipt with result := { receipt.result with events := receipt.result.events ++ events } }

/-- The unlocks are reported by the coinbase if it comes first, and are left over otherwise. -/
def attachUnlockEvents (block : NakamotoBlock) (receipts : List E.Receipt) (events : List E.Event) :
    List E.Receipt × List E.Event :=
  match block.transactions, receipts with
  | first :: _, receipt :: rest =>
    if first.isCoinbase then (addEvents E receipt events :: rest, []) else (receipts, events)
  | _, _ => (receipts, events)

def finalizeScheduledUnlocks (env : BlockEnv) (block : NakamotoBlock) (receipts : List E.Receipt)
    (world : World E.State) :
    Except ChainStateError ((List E.Receipt × List E.Event) × World E.State) := do
  let (unlocked, events, state) ← E.processScheduledUnlocks env world
  let world := world.withState state
  let world := world.withState (← E.incrementLiquidStxSupply unlocked world)
  return (attachUnlockEvents E block receipts events, world)

/-- Add events to the first receipt of a transaction. -/
def addEventsTo (txid : Txid) (events : List E.Event) : List E.Receipt → List E.Receipt
  | [] => []
  | receipt :: rest =>
    if receipt.txid = txid then addEvents E receipt events :: rest
    else receipt :: addEventsTo txid events rest

def mintSip031 (env : BlockEnv) (block : NakamotoBlock) (receipts : List E.Receipt)
    (world : World E.State) : Except ChainStateError (List E.Receipt × World E.State) :=
  let amount := sip031Emission env.network env.context.height
  if !block.startsNewTenure || amount == 0 then .ok (receipts, world)
  else do
    let recipient : Principal := .contract env.network.bootAddress "sip-031"
    let world := world.withState (← E.incrementLiquidStxSupply amount world)
    let world := world.withState (← E.creditStx recipient amount world)
    let reported := match block.tenureCoinbase with
      | some coinbase =>
        addEventsTo E (coinbase.txid C) [E.stxMintEvent recipient amount] receipts
      | none => receipts
    return (reported, world)

/-- Give a block its root and its miner's signature, or hold it to the root it has. -/
def settleStateRoot (root : RootPolicy) (sealed : Bytes 32) (block : NakamotoBlock) :
    Except ChainStateError NakamotoBlock :=
  match root with
  | .mine minerKey =>
    let header := { block.header with stateIndexRoot := sealed }
    .ok ⟨{ header with
      minerSignature := C.sign minerKey (header.minerSignatureHash C) }, block.transactions⟩
  | .verify =>
    if sealed = block.header.stateIndexRoot then .ok block
    else .error (.stateRootMismatch block.header.stateIndexRoot sealed)
  | .trust => .ok block

def phantomUnlocksForObserver (env : BlockEnv) (block : NakamotoBlock) (events : List E.Event) :
    List (ObservedTransaction E.Value E.Assets E.Event) :=
  if events.isEmpty then []
  else
    let transaction := E.phantomUnlockTransaction env.network block.header.chainLength
    [⟨transaction, ⟨transaction.txid C, .success, true,
      ⟨some E.okTrue, .zero, E.noAssets, events⟩⟩⟩]

/-! ## The whole block -/

/-- A block that has run, before anything of it is kept. -/
structure Built where
  block : NakamotoBlock
  ledger : ChainLedger
  world : World E.State
  cost : ExecutionCost
  receipts : List E.Receipt
  observerTransactions : List (ObservedTransaction E.Value E.Assets E.Event)
  maturedRewards : List NativeStxCredit
  maturedCoinbase : Nat
  maturedAnchoredFees : Nat
  rewardSet : Option E.RewardSet
  waterfallPayout : Option PoxAddress
  record : DecisionRecord

/-- What follows the transactions of a block. -/
def finishBlock (env : BlockEnv) (root : RootPolicy) (start : TenureStart E)
    (rewardSet : Option E.RewardSet) (payout : Option PoxAddress) (block : NakamotoBlock)
    (cost : ExecutionCost) (receipts : List E.Receipt) (world : World E.State) :
    Except ChainStateError (Built E) := do
  let ledger := { start.ledger with
    accounting := start.ledger.accounting.addFees world.tenureHeight block.fees }
  let world ← applyCredits E start.effects world
  let ((receipts, unlockEvents), world) ← finalizeScheduledUnlocks E env block receipts world
  let (receipts, world) ← mintSip031 C E env block receipts world
  let block ← settleStateRoot C root (E.pendingStateRoot env world) block
  let observed := phantomUnlocksForObserver C E env block unlockEvents
  let commitment ← (receiptCommitmentParts C E block receipts observed).mapError .ledger
  return ⟨block, ledger, world, cost, receipts, observed, start.maturedRewards,
    start.maturedCoinbase, start.maturedAnchoredFees, rewardSet, payout,
    acceptedRecordParts C block env.context cost commitment⟩

/-- Everything of `execute_nakamoto_block` between opening the parent's state and keeping the
block's. -/
def buildBlock (env : BlockEnv) (ledger : ChainLedger) (block : NakamotoBlock)
    (execution : BlockExecution) (world : World E.State) : Except ChainStateError (Built E) := do
  let assembled := execution.root.assembles
  (if !assembled && execution.authentication.checksSignerSignatures then
    checkSignerSignatures C E env block world else .ok ())
  let world := world.withState (← E.setupBlockMetadata env block.header.timestamp world)
  let start ← applyTenureStart E env execution.operations block execution.effects ledger world
  let (rewardSet, world) ← updateSignerSet E env start.world
  let payout ← waterfallPayout E env rewardSet execution.waterfallRegistry world
  let (block, cost, receipts, world) ←
    runTransactions C E env block execution.candidates assembled world
  finishBlock C E env execution.root start rewardSet payout block cost receipts world

/-- A block whose authentication has been checked against a chain. -/
structure AuthenticatedBlock where
  block : NakamotoBlock
  context : BitcoinBlockContext
  operations : List BitcoinOperation
  parent : Option StacksBlockId

/-- How an authenticated block is executed to be kept. -/
def AuthenticatedBlock.execution (authenticated : AuthenticatedBlock)
    (registry : Option String) : BlockExecution where
  context := authenticated.context
  waterfallRegistry := registry
  operations := authenticated.operations
  parent := authenticated.parent
  root := .verify
  effects := ⟨[], 0⟩
  candidates := []
  authentication := .authenticated
  persistence := .seal

/-- An optional identifier, as it is printed. -/
def debugId : Option StacksBlockId → String
  | none => "None"
  | some id => "Some(\"" ++ id.hex ++ "\")"

namespace ChainState

variable {E} (state : ChainState E.State)

/-- `execution_tip`: the last block executed, or the deepest state before there is one. -/
def executionTip : Option StacksBlockId :=
  match state.ledger.executed.getLast? with
  | some block => some block.blockId
  | none => state.vm.tip

def blockEnv (execution : BlockExecution) : BlockEnv :=
  ⟨state.vm.network, execution.parent, execution.context, state.vm.tenureStarts⟩

/-- `finish_block_execution` for a block to be kept. -/
def sealBlock (execution : BlockExecution) (height : Nat) (built : Built E) :
    Except ChainStateError (Built E) × ChainState E.State :=
  match noteExecutedBlock C built.world.tenureHeight built.ledger built.block execution.context with
  | .error error => (.error error, state)
  | .ok (header, noted) =>
    let ledger := noted.rememberProof built.block
    match state.vm.commitBlock ⟨built.block.blockId C, execution.parent, height, built.world⟩
        header ledger with
    | (.error error, vm) => (.error error, ⟨vm, state.ledger⟩)
    | (.ok (), vm) => (.ok built, ⟨vm, ledger⟩)

/-- `execute_nakamoto_block`. What it applied is the part of `Built` the source reports. -/
def executeNakamotoBlock (block : NakamotoBlock) (execution : BlockExecution) :
    Except ChainStateError (Built E) × ChainState E.State :=
  let built : Except ChainStateError (Built E × Nat) := do
    (if execution.authentication.checksBeforeExecution then
      checkBeforeExecuting C state.vm.network state.ledger block execution.parent execution.context
        execution.operations execution.root.assembles else .ok ())
    let (world, height) ← state.vm.openBlock E.genesis execution.parent
    let built ← buildBlock C E (state.blockEnv execution) state.ledger block execution world
    return (built, height)
  match built with
  | .error error => (.error error, state)
  | .ok (built, height) =>
    match execution.persistence with
    | .discard => (.ok built, state)
    | .seal => state.sealBlock C execution height built

/-- `authenticate_nakamoto_block_with_bitcoin_operations`: the signers are read from the state of the
parent, in a block that is opened for that and dropped. -/
def authenticateNakamotoBlock (context : BitcoinBlockContext) (operations : List BitcoinOperation)
    (parent : Option StacksBlockId) (block : NakamotoBlock) :
    Except ChainStateError AuthenticatedBlock := do
  checkBeforeExecuting C state.vm.network state.ledger block parent context operations false
  let (world, _) ← state.vm.openBlock E.genesis parent
  checkSignerSignatures C E ⟨state.vm.network, parent, context, state.vm.tenureStarts⟩ block world
  return ⟨block, context, operations, parent⟩

/-- `commit_authenticated_nakamoto_block`. -/
def commitAuthenticated (authenticated : AuthenticatedBlock) (registry : Option String) :
    Except ChainStateError (Built E) × ChainState E.State :=
  if authenticated.parent = state.executionTip then
    state.executeNakamotoBlock C authenticated.block (authenticated.execution registry)
  else
    (.error (.invalidTransaction ("authenticated block " ++
      (authenticated.block.blockId C).hex ++ " names parent " ++
      debugId authenticated.parent ++ ", but chainstate now stands on " ++
      debugId state.executionTip)), state)

end ChainState

/-! ## What a block leaves behind -/

/-- The part of `buildBlock` up to its first transaction: the state the transactions start from. -/
def openTransactions (env : BlockEnv) (operations : List BitcoinOperation)
    (effects : NativeBlockEffects) (ledger : ChainLedger) (block : NakamotoBlock)
    (world : World E.State) : Except ChainStateError (World E.State) := do
  let world := world.withState (← E.setupBlockMetadata env block.header.timestamp world)
  let start ← applyTenureStart E env operations block effects ledger world
  let (_, world) ← updateSignerSet E env start.world
  return world

/-- What executing a block of a tenure can do to the accounting. -/
inductive Accrues (accounting : TenureAccounting) (tenure : Nat) : TenureAccounting → Prop
  | fees (fees : Nat) : Accrues accounting tenure (accounting.addFees tenure fees)
  | start (earnings : TenureEarnings) (fees : Nat) :
    Accrues accounting tenure ((accounting.recordEarnings tenure earnings).addFees tenure fees)

/-- The tenure height after a block. -/
def tenureAfter (tenureHeight : Nat) (block : NakamotoBlock) : Nat :=
  if block.startsNewTenure then tenureHeight + 1 else tenureHeight

section Build

variable {C E} {env : BlockEnv} {ledger : ChainLedger} {block : NakamotoBlock}
  {world world' : World E.State} {receipts : List E.Receipt}

variable {effects : NativeBlockEffects} {operations : List BitcoinOperation}

theorem startTenure_eq_ok {ledger' : ChainLedger}
    (h : startTenure E env operations block ledger world = .ok (effects, ledger', world')) :
    world'.nonce = world.nonce ∧ world'.tenureHeight = world.tenureHeight + 1 ∧
      ∃ accounting, ledger' = { ledger with accounting := accounting } ∧
        (accounting = ledger.accounting ∨
          ∃ earnings, accounting = ledger.accounting.recordEarnings world'.tenureHeight earnings) := by
  simp only [startTenure, bind_eq_ok] at h
  obtain ⟨-, -, state, -, accounting, haccounting, -, -, ⟨⟩⟩ := h
  refine ⟨rfl, rfl, accounting, rfl, ?_⟩
  split at haccounting
  · exact .inl (Except.ok.inj haccounting).symm
  · obtain ⟨earnings, -, ⟨⟩⟩ := bind_eq_ok.1 haccounting
    exact .inr ⟨earnings, rfl⟩

theorem applyTenureStart_eq_ok {start : TenureStart E}
    (h : applyTenureStart E env operations block effects ledger world = .ok start) :
    start.world.nonce = world.nonce ∧
      start.world.tenureHeight = tenureAfter world.tenureHeight block ∧
      ∃ accounting, start.ledger = { ledger with accounting := accounting } ∧
        (accounting = ledger.accounting ∨ block.startsNewTenure = true ∧
          ∃ earnings, accounting =
            ledger.accounting.recordEarnings start.world.tenureHeight earnings) := by
  unfold applyTenureStart at h
  split_ifs at h with hstarts
  · simp only [bind_eq_ok] at h
    obtain ⟨⟨matured, ledger', world'⟩, hstart, -, -, -, -, ⟨⟩⟩ := h
    obtain ⟨hnonce, htenure, accounting, hledger, hcases⟩ := startTenure_eq_ok hstart
    refine ⟨hnonce, ?_, accounting, hledger, hcases.imp_right fun h => ⟨hstarts, h⟩⟩
    simpa [tenureAfter, hstarts] using htenure
  · cases h
    exact ⟨rfl, by simp [tenureAfter, hstarts], ledger.accounting, rfl, .inl rfl⟩

theorem updateSignerSet_keeps {set : Option E.RewardSet}
    (h : updateSignerSet E env world = .ok (set, world')) : world.Keeps world' := by
  unfold updateSignerSet at h
  split at h
  · cases h
    exact .rfl
  · obtain ⟨⟨_, state⟩, -, ⟨⟩⟩ := bind_eq_ok.1 h
    exact .withState state

theorem applyCredits_keeps (h : applyCredits E effects world = .ok world') :
    world.Keeps world' := by
  unfold applyCredits at h
  split_ifs at h
  · cases h
    exact .rfl
  · simp only [bind_eq_ok] at h
    obtain ⟨credited, hcredited, state, -, ⟨⟩⟩ := h
    have hkeeps : world.Keeps credited := by
      refine foldlM_invariant hcredited .rfl fun credit _ before after hkeeps hnext => ?_
      obtain ⟨state, -, ⟨⟩⟩ := bind_eq_ok.1 hnext
      exact hkeeps.trans (.withState state)
    exact hkeeps.trans (.withState state)

theorem finalizeScheduledUnlocks_keeps {reported : List E.Receipt × List E.Event}
    (h : finalizeScheduledUnlocks E env block receipts world = .ok (reported, world')) :
    world.Keeps world' := by
  simp only [finalizeScheduledUnlocks, bind_eq_ok] at h
  obtain ⟨⟨_, _, state⟩, -, state', -, ⟨⟩⟩ := h
  exact (World.Keeps.withState state).trans (.withState state')

theorem mintSip031_keeps {reported : List E.Receipt}
    (h : mintSip031 C E env block receipts world = .ok (reported, world')) : world.Keeps world' := by
  unfold mintSip031 at h
  dsimp only at h
  split_ifs at h
  · cases h
    exact .rfl
  · simp only [bind_eq_ok] at h
    obtain ⟨state, -, state', -, ⟨⟩⟩ := h
    exact (World.Keeps.withState state).trans (.withState state')

theorem runBlockTransactions_tenureHeight {height : Nat} {cost cost' : ExecutionCost}
    {transactions : List Transaction}
    (h : runBlockTransactions C E env height cost world transactions
      = .ok (cost', receipts, world')) : world'.tenureHeight = world.tenureHeight := by
  induction transactions generalizing cost cost' world receipts with
  | nil =>
    cases h
    rfl
  | cons transaction rest ih =>
    simp only [runBlockTransactions, bind_eq_ok, mapError_eq_ok] at h
    obtain ⟨-, -, ⟨receipt, executed⟩, hexecute, _, -, ⟨_, _, last⟩, hrest, ⟨⟩⟩ := h
    exact (ih hrest).trans (Transaction.execute_eq_ok hexecute).2

/-- A followed block carries what it carried when it came, and its transactions ran in order on the
state of its parent. -/
structure Followed (env : BlockEnv) (operations : List BitcoinOperation)
    (effects : NativeBlockEffects) (ledger : ChainLedger) (block : NakamotoBlock)
    (world : World E.State) (built : Built E) : Prop where
  block_eq : built.block = block
  tenureHeight : built.world.tenureHeight = tenureAfter world.tenureHeight block
  ledger_eq : ∃ accounting, built.ledger = { ledger with accounting := accounting } ∧
    Accrues ledger.accounting built.world.tenureHeight accounting
  ran : ∃ before after cost receipts,
    openTransactions E env operations effects ledger block world = .ok before ∧
    before.nonce = world.nonce ∧ after.nonce = built.world.nonce ∧
    runBlockTransactions C E env block.header.chainLength .zero before block.transactions
      = .ok (cost, receipts, after)
  root : E.pendingStateRoot env built.world = block.header.stateIndexRoot

theorem buildBlock_followed {execution : BlockExecution} {built : Built E}
    (hroot : execution.root = .verify) (hcandidates : execution.candidates = [])
    (h : buildBlock C E env ledger block execution world = .ok built) :
    Followed (C := C) env execution.operations execution.effects ledger block world built := by
  simp only [buildBlock, finishBlock, bind_eq_ok, hroot, hcandidates] at h
  obtain ⟨-, -, setup, hsetup, start, hstart, ⟨_, signed⟩, hsigned, -, -, ⟨_, _, _, _⟩,
    hrun, credited, hcredited, ⟨⟨_, _⟩, unlocked⟩, hunlocked, ⟨_, minted⟩, hminted, settled, hsettled,
    -, -, ⟨⟩⟩ := h
  obtain ⟨hnonce, htenure, accounting, hledger, haccounting⟩ := applyTenureStart_eq_ok hstart
  have hsign := updateSignerSet_keeps hsigned
  simp only [runTransactions, admitCandidates, if_true, bind_eq_ok] at hrun
  obtain ⟨⟨cost, ran, after⟩, hrun, -, -, ⟨⟩⟩ := hrun
  have hfinish : after.Keeps minted := ((applyCredits_keeps hcredited).trans
    (finalizeScheduledUnlocks_keeps hunlocked)).trans (mintSip031_keeps hminted)
  have htenureAfter : after.tenureHeight = tenureAfter world.tenureHeight block := by
    rw [runBlockTransactions_tenureHeight hrun, hsign.tenureHeight, htenure]
    rfl
  have hsettle : settled = block ∧ E.pendingStateRoot env minted = block.header.stateIndexRoot := by
    simp only [settleStateRoot] at hsettled
    split_ifs at hsettled with heq
    cases hsettled
    exact ⟨rfl, heq⟩
  have hopened : openTransactions E env execution.operations execution.effects ledger block world
      = .ok signed := by
    simp only [openTransactions, bind_eq_ok]
    exact ⟨setup, hsetup, start, hstart, _, hsigned, rfl⟩
  refine ⟨hsettle.1, hfinish.tenureHeight.trans htenureAfter, ⟨_, by rw [hledger], ?_⟩,
    ⟨signed, after, cost, ran, hopened, ?_, hfinish.nonce.symm, hrun⟩, hsettle.2⟩
  · rw [hledger, hfinish.tenureHeight]
    have htenures : start.world.tenureHeight = after.tenureHeight := by
      rw [htenureAfter, htenure]
      rfl
    rcases haccounting with rfl | ⟨-, earnings, rfl⟩
    · exact .fees _
    · rw [htenures]
      exact .start earnings _
  · rw [hsign.nonce, hnonce]
    rfl

end Build

/-! ## What a commit leaves behind -/

namespace ChainState

variable {C E} {state state' : ChainState E.State} {authenticated : AuthenticatedBlock}
  {registry : Option String} {built : Built E}

/-- The state and the ledger after a block has been committed. -/
structure Committed (C : Crypto) (state : ChainState E.State) (authenticated : AuthenticatedBlock)
    (state' : ChainState E.State) : Prop where
  parent : authenticated.parent = state.executionTip
  fresh : state.vm.stateAt (authenticated.block.blockId C) = none
  chainLength : authenticated.block.header.chainLength < 2 ^ 32
  step : ∃ world height built, state.vm.openBlock E.genesis authenticated.parent = .ok (world, height) ∧
    Followed (C := C) ⟨state.vm.network, authenticated.parent, authenticated.context,
      state.vm.tenureStarts⟩ authenticated.operations ⟨[], 0⟩ state.ledger authenticated.block world
      built ∧
    state'.ledger = (built.ledger.noted C authenticated.block
      built.world.tenureHeight).rememberProof authenticated.block ∧
    state'.vm = ⟨state.vm.network,
      state.vm.states ++ [⟨authenticated.block.blockId C, authenticated.parent, height,
        built.world⟩],
      writeLedger state.vm.rows (authenticated.block.blockId C) state'.ledger,
      state.vm.tenureStarts.insertNew built.world.tenureHeight
        ((built.ledger.tenureStartHeights.get built.world.tenureHeight).getD
          authenticated.block.header.chainLength)⟩

theorem commitAuthenticated_eq_ok
    (h : state.commitAuthenticated C authenticated registry = (.ok built, state')) :
    Committed C state authenticated state' := by
  unfold commitAuthenticated at h
  split_ifs at h with hparent
  · simp only [executeNakamotoBlock, AuthenticatedBlock.execution,
      BlockAuthentication.checksBeforeExecution, Bool.false_eq_true, if_false] at h
    split at h
    · simp at h
    · rename_i built' height hbuilt
      simp only [bind_eq_ok] at hbuilt
      obtain ⟨-, -, ⟨world, _⟩, hopen, _, hbuild, ⟨⟩⟩ := hbuilt
      have hfollowed := buildBlock_followed rfl rfl hbuild
      simp only [sealBlock] at h
      split at h
      · simp at h
      · rename_i header noted hnoted
        obtain ⟨rfl, hlength, htenure, hstart⟩ := noteExecutedBlock_eq_ok hnoted
        split at h
        · simp at h
        · rename_i vm hcommit
          obtain ⟨hfresh, rfl⟩ := Vm.commitBlock_eq_ok hcommit
          cases h
          rw [hfollowed.block_eq] at hfresh hlength hstart
          refine ⟨hparent, hfresh, hlength, world, _, _, hopen, hfollowed, ?_, ?_⟩
          · rw [hfollowed.block_eq]
          · simp only [hfollowed.block_eq, htenure, hstart]
  · simp at h

end ChainState

end NanoStacks.Chain
