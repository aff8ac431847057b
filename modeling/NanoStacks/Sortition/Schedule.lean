import NanoStacks.Sortition.Basic

/-!
# Schedules and the commitments of a block

When reward cycles open, how many outputs of a commitment are payouts, over how many blocks a
sortition is weighed, and which operations of a Bitcoin block count as commitments under these rules.
-/

namespace NanoStacks.Sortition

open Bitcoin

/-- The Bitcoin blocks a sortition weighs mining commitments over. -/
def miningCommitmentWindow : Nat := 6

def burnBlockMinedAtModulus : Nat := 5

/-- Recipients a commitment pays in a reward phase. -/
def outputsPerCommit : Nat := 2

/-! ## Reward cycles -/

structure RewardCycleSchedule where
  firstBitcoinHeight : Nat
  rewardCycleLength : Nat
  firstWaterfallHeight : Option Nat
  length_ne_zero : rewardCycleLength ≠ 0

namespace RewardCycleSchedule

variable (cycles : RewardCycleSchedule)

def offsetInCycle (bitcoinHeight : Nat) : Nat :=
  (bitcoinHeight - cycles.firstBitcoinHeight) % cycles.rewardCycleLength

def isWaterfallAt (bitcoinHeight : Nat) : Bool :=
  cycles.firstWaterfallHeight.any (· ≤ bitcoinHeight)

/-- Whether a Bitcoin block opens a reward cycle. -/
def startsAt (bitcoinHeight : Nat) : Bool :=
  let relativeHeight := bitcoinHeight - cycles.firstBitcoinHeight
  if cycles.isWaterfallAt bitcoinHeight then relativeHeight % cycles.rewardCycleLength = 0
  else relativeHeight % cycles.rewardCycleLength = 1

end RewardCycleSchedule

/-! ## Payouts -/

structure PayoutSchedule where
  cycles : RewardCycleSchedule
  preparePhaseLength : Nat
  waterfallRecipient : Option PoxAddress
  epochFourActivation : Option Nat
  prepare_lt : preparePhaseLength < cycles.rewardCycleLength

namespace PayoutSchedule

variable (payouts : PayoutSchedule)

/-- Require waterfall commitments to pay a given address. -/
def payingWaterfallTo (recipient : PoxAddress) : PayoutSchedule :=
  { payouts with waterfallRecipient := some recipient }

def isInPreparePhase (bitcoinHeight : Nat) : Bool :=
  if bitcoinHeight ≤ payouts.cycles.firstBitcoinHeight then false
  else
    let offset := payouts.cycles.offsetInCycle bitcoinHeight
    offset = 0 || offset > payouts.cycles.rewardCycleLength - payouts.preparePhaseLength

/-- How many payout outputs a commitment in this Bitcoin block carries. -/
def outputsAt (bitcoinHeight : Nat) : Nat :=
  if payouts.cycles.isWaterfallAt bitcoinHeight then 1
  else if payouts.isInPreparePhase bitcoinHeight then 1
  else outputsPerCommit

def isWaterfallAt (bitcoinHeight : Nat) : Bool := payouts.cycles.isWaterfallAt bitcoinHeight

def acceptsCommitmentOutputs (bitcoinHeight : Nat) (outputs : List BitcoinOutput) : Bool :=
  match outputs.head?.filter (·.amountSats > 0) with
  | none => false
  | some first =>
    if payouts.cycles.isWaterfallAt bitcoinHeight then
      payouts.waterfallRecipient.any (·.scriptPubkey = first.recipient.scriptPubkey)
    else if payouts.isInPreparePhase bitcoinHeight then
      first.recipient.asStacksAddress.any (·.isBurn)
    else
      outputs[1]?.any fun second => second.amountSats > 0 && second.amountSats = first.amountSats

/-- How many Bitcoin blocks the burn distribution of this block is weighed over. -/
def miningWindowAt (bitcoinHeight : Nat) : Nat :=
  if payouts.isInPreparePhase bitcoinHeight then 1
  else if payouts.epochFourActivation.any fun activation =>
      activation ≤ bitcoinHeight && bitcoinHeight - activation ≤ miningCommitmentWindow then 1
  else miningCommitmentWindow

/-- Whether this Bitcoin block adds a bit to the reward-cycle history. -/
def startsRewardCycle (bitcoinHeight : Nat) : Bool := payouts.cycles.startsAt bitcoinHeight

theorem miningWindowAt_le (bitcoinHeight : Nat) :
    payouts.miningWindowAt bitcoinHeight ≤ miningCommitmentWindow := by
  unfold miningWindowAt miningCommitmentWindow
  split_ifs <;> decide

end PayoutSchedule

/-! ## The commitments of a block -/

/-- How many Bitcoin blocks late a commitment arrived, as far as the modulus can tell. -/
def commitmentMissDistance (parentModulus : UInt8) (bitcoinHeight : Nat) : Nat :=
  let intended := (parentModulus.toNat % burnBlockMinedAtModulus + 1) % burnBlockMinedAtModulus
  let actual := bitcoinHeight % burnBlockMinedAtModulus
  if intended ≤ actual then actual - intended else burnBlockMinedAtModulus + actual - intended

def commitmentIsOnTime (parentModulus : UInt8) (bitcoinHeight : Nat) : Bool :=
  commitmentMissDistance parentModulus bitcoinHeight = 0

def commitmentIsAdmissible (bitcoinHeight : Nat) (operation : BitcoinOperation)
    (payouts : PayoutSchedule) : Bool :=
  match operation.kind with
  | .leaderBlockCommit commit =>
    !operation.inputs.isEmpty &&
      (commit.parentBlockHeight ≠ 0 || commit.parentTransactionIndex = 0) &&
      commit.parentBlockHeight < bitcoinHeight &&
      commit.keyBlockHeight ≠ 0 &&
      commit.keyBlockHeight < bitcoinHeight &&
      payouts.acceptsCommitmentOutputs bitcoinHeight operation.outputs
  | _ => false

/-- The operations a Bitcoin block contributes to its own consensus hash. -/
def acceptedOperationTxids (block : BitcoinBlock) (payouts : PayoutSchedule) : List Txid :=
  (block.operations.filter fun operation =>
    match operation.kind with
    | .leaderBlockCommit commit =>
      commitmentIsAdmissible block.height operation payouts &&
        commitmentIsOnTime commit.parentModulus block.height
    | _ => true).map (·.txid)

/-- What an admissible commitment of a block is filed as: a candidate when it is on time, a missed
one when it is one block late, and nothing otherwise. The payout sum wraps at `2 ^ 64`. -/
def fileCommitment (block : BitcoinBlock) (payouts : PayoutSchedule) (keys : LeaderKeys)
    (operation : BitcoinOperation) : Option (MiningCommitment ⊕ MissedCommitment) :=
  match operation.kind with
  | .leaderBlockCommit commit =>
    if !commitmentIsAdmissible block.height operation payouts then none
    else
      let spent := (operation.inputs.head?.map fun i => (i.txid, i.outputIndex)).getD
        (Bytes.zero 32, 0)
      let missDistance := commitmentMissDistance commit.parentModulus block.height
      if missDistance > 1 then none
      else if missDistance = 0 then
        let registration := keys.registration commit.keyBlockHeight commit.keyTransactionIndex
        some (.inl
          { txid := operation.txid
            spentTxid := spent.1
            spentOutput := spent.2
            burnSats := ((operation.outputs.take (payouts.outputsAt block.height)).map
              (·.amountSats)).sum % 2 ^ 64
            vrfSeed := commit.newSeed
            vrfPublicKey := registration.map (·.vrfPublicKey)
            signingKeyHash := registration.bind (·.signingKeyHash)
            committedBlockHash := commit.blockHeaderHash
            parentBitcoinHeight := commit.parentBlockHeight })
      else some (.inr ⟨operation.txid, spent.1, spent.2⟩)
  | _ => none

/-- The commitments a Bitcoin block contributes to the mining window. -/
def commitmentWindowBlock (block : BitcoinBlock) (payouts : PayoutSchedule) (keys : LeaderKeys) :
    CommitmentWindowBlock :=
  let filed := block.operations.filterMap (fileCommitment block payouts keys)
  { commitments := filed.filterMap Sum.getLeft?
    missedCommitments := filed.filterMap Sum.getRight?
    requiresSingleCommit := payouts.outputsAt block.height = 1 }

end NanoStacks.Sortition
