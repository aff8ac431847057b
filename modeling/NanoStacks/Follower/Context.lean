import NanoStacks.Chain.Context
import NanoStacks.Chain.Accounting
import NanoStacks.Tracker.Locate

/-!
# The Bitcoin context of a block

A node executes a block under a Bitcoin context it derives from its own sortition chain. Two of its
burn blocks go into it: the one the block's burn view names, which Clarity reads, and the one that
elected the block's tenure, whose keys authenticate the block. They are the same burn block until the
tenure is extended.
-/

namespace NanoStacks.Follower

open Bitcoin Sortition Chain

/-- The calendar a node is configured with. -/
structure PoxInfo where
  firstBitcoinHeight : Nat
  bitcoinHeight : Nat
  preparePhaseLength : Nat
  rewardPhaseLength : Nat
  rejectionFraction : Option Nat
  pox5ActivationHeight : Option Nat
  v1UnlockHeight : Option Nat
  v2UnlockHeight : Option Nat
  v3UnlockHeight : Option Nat

namespace PoxInfo

variable (pox : PoxInfo)

def rewardCycle (bitcoinHeight : Nat) : Nat :=
  let length := pox.preparePhaseLength + pox.rewardPhaseLength
  (bitcoinHeight - pox.firstBitcoinHeight) / max length 1

/-- The context of the height the calendar was read at, with nothing filled in yet. -/
def bitcoinContext : BitcoinBlockContext :=
  { BitcoinBlockContext.atHeight pox.bitcoinHeight with
    firstHeight := pox.firstBitcoinHeight
    preparePhaseLength := pox.preparePhaseLength
    rewardPhaseLength := pox.rewardPhaseLength
    rejectionFraction := pox.rejectionFraction.getD 0
    v1UnlockHeight := pox.v1UnlockHeight.getD (2 ^ 32 - 1)
    v2UnlockHeight := pox.v2UnlockHeight.getD (2 ^ 32 - 1)
    v3UnlockHeight := pox.v3UnlockHeight.getD (2 ^ 32 - 1)
    pox5ActivationHeight := pox.pox5ActivationHeight.getD (2 ^ 32 - 1)
    accumulatedCoinbase := 0 }

/-- `payout_schedule`. -/
def payoutSchedule : Option PayoutSchedule :=
  let length := pox.preparePhaseLength + pox.rewardPhaseLength
  let waterfall := pox.pox5ActivationHeight.map fun activation =>
    pox.firstBitcoinHeight + (pox.rewardCycle activation + 1) * length
  if hlength : length = 0 then none
  else if hprepare : pox.preparePhaseLength < length then
    some {
      cycles := ⟨pox.firstBitcoinHeight, length, waterfall, hlength⟩
      preparePhaseLength := pox.preparePhaseLength
      waterfallRecipient := none
      epochFourActivation := pox.pox5ActivationHeight
      prepare_lt := hprepare }
  else none

end PoxInfo

/-- What a node's Bitcoin source answers while it works on one block. -/
structure Burnchain where
  tipHeight : Except String Nat
  blockAt : Nat → Except String BitcoinBlock

/-! ## One burn block -/

/-- Everything about one burn block, as the node's own sortition chain derived it. -/
structure LocalSortition where
  bitcoinHeight : Nat
  sortitionHash : SortitionHash
  winnerVrfPublicKey : Option (Bytes 32)
  winnerSigningKeyHash : Option Hash160
  burnSpends : Option BurnSpends
  burnHeaderHash : BitcoinHeaderHash
  burnBlockTime : Nat
  winnerVrfSeed : Option (Bytes 32)

namespace LocalSortition

def fromSnapshot (snapshot : SortitionSnapshot) : LocalSortition where
  bitcoinHeight := snapshot.bitcoinHeight
  sortitionHash := snapshot.sortitionHash
  winnerVrfPublicKey := snapshot.winnerVrfPublicKey
  winnerSigningKeyHash := snapshot.winnerSigningKeyHash
  burnSpends := snapshot.burnSpends
  burnHeaderHash := snapshot.bitcoinHeaderHash
  burnBlockTime := snapshot.bitcoinTimestamp
  winnerVrfSeed := snapshot.winnerVrfSeed

variable (sortition : LocalSortition)

/-- The inputs of tenure authentication, without moving the context. -/
def recordAuthentication (context : BitcoinBlockContext) : BitcoinBlockContext :=
  { context with
    sortitionHash := sortition.sortitionHash
    winnerVrfPublicKey := sortition.winnerVrfPublicKey
    winnerSigningKeyHash := sortition.winnerSigningKeyHash }

/-- Everything a block's execution reads of its burn block. -/
def record (context : BitcoinBlockContext) : BitcoinBlockContext :=
  let moved := (sortition.recordAuthentication context).moveToBurnBlock sortition.bitcoinHeight
  { moved with
    burnHeaderHash := sortition.burnHeaderHash
    burnBlockTime := if 0 < sortition.burnBlockTime then sortition.burnBlockTime
      else moved.burnBlockTime
    vrfSeed := sortition.winnerVrfSeed.getD moved.vrfSeed
    burnSpendTotal := (sortition.burnSpends.map (·.total)).getD moved.burnSpendTotal
    burnSpendWinner := (sortition.burnSpends.map (·.winner)).getD moved.burnSpendWinner }

end LocalSortition

/-! ## Two burn blocks -/

/-- The context of a block that sees one burn block and whose tenure another elected. -/
def contextOf (pox : PoxInfo) (view tenure : SortitionSnapshot) : BitcoinBlockContext :=
  { (LocalSortition.fromSnapshot tenure).recordAuthentication
      ((LocalSortition.fromSnapshot view).record pox.bitcoinContext) with
    height := view.bitcoinHeight
    tenureBitcoinHeight := BitcoinBlockContext.asBurnHeight tenure.bitcoinHeight }

end NanoStacks.Follower
