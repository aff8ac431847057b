import NanoStacks.Sortition.Engine
import Mathlib.Data.Finset.Image
import Mathlib.Data.Finset.Union

/-!
# The sortition tracker

`SortitionTracker` walks a node's own Bitcoin blocks and derives every sortition from them. Beside the
engine it keeps the reward-cycle history, the leader keys registered, the payout addresses of the
waterfall and the positions of the commitments accepted so far; the last decide which commitments of
a later block count, since a commitment names its parent by burn position.
-/

namespace NanoStacks.Tracker

open Bitcoin Sortition Result

inductive TrackerError
  | seed (reason : String)
  | bitcoin (reason : String)
  | sortition (error : SortitionError)
  | boundaryNotWinner (consensusHash : ConsensusHash) (bitcoinHeight : Nat)
  | boundaryBlockMismatch (bitcoinHeight : Nat)
  | boundaryWinnerCommitmentMissing (bitcoinHeight : Nat) (winnerTxid : Txid)
  | boundaryWinnerKeyUnavailable (bitcoinHeight keyBlockHeight keyTransactionIndex : Nat)
  | boundaryWinnerMismatch (bitcoinHeight : Nat) (field : String)
  deriving DecidableEq

structure WaterfallPayout where
  observedAt : Nat
  recipient : PoxAddress
  deriving DecidableEq

/-- What a tracker keeps beside its engine. -/
structure TrackerNotes where
  poxId : PoxId
  keys : LeaderKeys
  /-- The waterfall recipients, by the first burn height that carried each. -/
  waterfallPayouts : OrdMap Nat WaterfallPayout
  primed : Bool
  /-- The burn positions of the commitments accepted since the priming window began. -/
  commitments : Finset (Nat × Nat)
  commitmentFloor : Option Nat
  deriving DecidableEq

structure SortitionTracker extends TrackerNotes where
  engine : SortitionEngine
  deriving DecidableEq

/-! ## The seed of a checkpoint -/

/-- The seed the on-time commitments of a block agree on. -/
def unanimousWinnerSeed (block : BitcoinBlock) : Option (Bytes 32) :=
  let seeds := block.operations.filterMap fun operation =>
    match operation.kind with
    | .leaderBlockCommit commit =>
      if commitmentIsOnTime commit.parentModulus block.height then some commit.newSeed else none
    | _ => none
  match seeds with
  | [] => none
  | first :: rest => if rest.all (· = first) then some first else none

/-- The seed the winning commitment of a block carried. -/
def winnerSeed (block : BitcoinBlock) (winnerTxid : Txid) : Option (Bytes 32) :=
  (block.operations.findSome? fun operation =>
    match operation.kind with
    | .leaderBlockCommit commit =>
      if operation.txid = winnerTxid ∧ commitmentIsOnTime commit.parentModulus block.height then
        some commit.newSeed
      else none
    | _ => none).or (unanimousWinnerSeed block)

/-! ## The notes and the blocks -/

/-- The leader key an operation registers. -/
def registrationOf (operation : BitcoinOperation) : Option LeaderKeyRegistration :=
  match operation.kind with
  | .leaderKeyRegistration _ vrfPublicKey blockSigningKeyHash _ =>
    some ⟨vrfPublicKey, blockSigningKeyHash⟩
  | _ => none

def registerOperation (blockHeight : Nat) (keys : LeaderKeys) (operation : BitcoinOperation) :
    LeaderKeys :=
  match registrationOf operation with
  | some registration => keys.register blockHeight operation.transactionIndex registration
  | none => keys

namespace TrackerNotes

variable (notes : TrackerNotes)

/-- The waterfall recipient in force at a height. -/
def waterfallRecipientAt (bitcoinHeight : Nat) : Option PoxAddress :=
  (notes.waterfallPayouts.floorEntry bitcoinHeight).map (·.2.recipient)

def payoutsAt (payouts : PayoutSchedule) (bitcoinHeight : Nat) :
    Except TrackerError PayoutSchedule :=
  if payouts.isWaterfallAt bitcoinHeight then do
    let recipient ← okOr (notes.waterfallRecipientAt bitcoinHeight)
      (.seed s!"burn {bitcoinHeight} uses the PoX waterfall, but the locally derived chain carries no sBTC payout address for it")
    return payouts.payingWaterfallTo recipient
  else .ok payouts

/-- Record the leader keys a burn block registers. -/
def registerKeys (block : BitcoinBlock) : TrackerNotes :=
  { notes with keys := block.operations.foldl (registerOperation block.height) notes.keys }

/-- Whether an operation of a block is kept: a commitment needs a parent that exists and a key that
is registered. -/
def keepsOperation (floor : Nat) (block : BitcoinBlock) (operation : BitcoinOperation) : Bool :=
  match operation.kind with
  | .leaderBlockCommit commit =>
    let parentExists :=
      (commit.parentBlockHeight < block.height || commit.parentBlockHeight = 0) &&
          commit.parentTransactionIndex = 0 ||
        commit.parentBlockHeight < floor ||
        (commit.parentBlockHeight, commit.parentTransactionIndex) ∈ notes.commitments
    let keyExists :=
      (notes.keys.registration commit.keyBlockHeight commit.keyTransactionIndex).isSome
    parentExists && keyExists
  | _ => true

/-- The block with the operations that are kept. -/
def acceptedOperations (block : BitcoinBlock) : BitcoinBlock :=
  { block with
    operations := block.operations.filter
      (notes.keepsOperation (notes.commitmentFloor.getD block.height) block) }

/-- The burn positions of the operations of a block that its window entry counts. -/
def positionsOf (block : BitcoinBlock) (commitments : CommitmentWindowBlock) : Finset (Nat × Nat) :=
  let acceptedTxids :=
    commitments.commitments.map (·.txid) ++ commitments.missedCommitments.map (·.txid)
  ((block.operations.filter (·.txid ∈ acceptedTxids)).map fun operation =>
    (block.height, operation.transactionIndex)).toFinset

theorem positionsOf_height {block : BitcoinBlock} {commitments : CommitmentWindowBlock}
    {position : Nat × Nat} (h : position ∈ positionsOf block commitments) :
    position.1 = block.height := by
  simp only [positionsOf, List.mem_toFinset, List.mem_map] at h
  obtain ⟨operation, -, rfl⟩ := h
  rfl

/-- Apply the checks a decoded commitment cannot answer alone, and note what was accepted. -/
def acceptedBlock (block : BitcoinBlock) (payouts : PayoutSchedule) :
    (BitcoinBlock × CommitmentWindowBlock) × TrackerNotes :=
  let accepted := notes.acceptedOperations block
  let commitments := commitmentWindowBlock accepted payouts notes.keys
  ((accepted, commitments),
    { notes with
      commitmentFloor := some (notes.commitmentFloor.getD block.height)
      commitments := notes.commitments ∪ positionsOf accepted commitments })

/-- Count the reward cycle a block opens. -/
def openCycle (block : BitcoinBlock) (payouts : PayoutSchedule) : TrackerNotes :=
  if payouts.startsRewardCycle block.height then
    { notes with poxId := notes.poxId.extendWithAnchor true }
  else notes

/-- What a block comes to beside the tip it stands on: the arguments of its append, and what is noted
on the way there. -/
def prepare (block : BitcoinBlock) (payouts : PayoutSchedule) : AppendInput × TrackerNotes :=
  let ((accepted, commitments), noted) :=
    ((notes.openCycle block payouts).registerKeys block).acceptedBlock block payouts
  ({ block := accepted
     acceptedOperationTxids := acceptedOperationTxids accepted payouts
     commitments
     poxId := noted.poxId
     windowLen := payouts.miningWindowAt accepted.height }, noted)

end TrackerNotes

/-! ## Walking -/

namespace SortitionTracker

/-- Start from a seed snapshot and the consensus hashes behind it. -/
def new (seed : SortitionSnapshot) (history : List ConsensusHash) :
    Except TrackerError SortitionTracker := do
  let engine ← okOr (SortitionEngine.withHistory seed history)
    (.seed "the history does not end at the snapshot it seeds")
  return {
    poxId := seed.poxId
    keys := .new
    waterfallPayouts := .empty
    primed := false
    commitments := ∅
    commitmentFloor := none
    engine }

variable (tracker : SortitionTracker)

def tip : SortitionSnapshot := tracker.engine.snapshots.tip

def snapshotAt (bitcoinHeight : Nat) : Option SortitionSnapshot :=
  tracker.engine.snapshots.snapshotAt bitcoinHeight

/-- Whether the chain's history holds a burn view. -/
def holdsConsensusHash (consensusHash : ConsensusHash) : Bool :=
  tracker.engine.snapshots.consensusHashes.contains consensusHash

/-- Whether a view is one this chain derived, told only of views whose burn total is below the
tip's. -/
def derived (consensusHash : ConsensusHash) (bitcoinSpent : Nat) : Option Bool :=
  if bitcoinSpent < tracker.tip.totalBurn then some (tracker.holdsConsensusHash consensusHash)
  else none

/-- The consensus hash the chain derived for a height. -/
def consensusHashAt (bitcoinHeight : Nat) : Option ConsensusHash :=
  let history := tracker.engine.snapshots.consensusHashes
  if bitcoinHeight ≤ tracker.tip.bitcoinHeight then
    let back := tracker.tip.bitcoinHeight - bitcoinHeight
    if back + 1 ≤ history.length then history[history.length - (back + 1)]? else none
  else none

/-- The height a burn view sits at, searched from the tip backwards. -/
def heightOfConsensusHash (consensusHash : ConsensusHash) : Option Nat := do
  let back ← tracker.engine.snapshots.consensusHashes.reverse.findIdx? (· = consensusHash)
  if back ≤ tracker.tip.bitcoinHeight then some (tracker.tip.bitcoinHeight - back) else none

def keepFrom (bitcoinHeight : Nat) : SortitionTracker :=
  { tracker with
    engine := { tracker.engine with
      snapshots := tracker.engine.snapshots.keepFrom bitcoinHeight } }

/-- The last burn height below this one that is known to have elected somebody. -/
def previousSortitionHeight (bitcoinHeight : Nat) : Option Nat :=
  if bitcoinHeight = 0 then none
  else tracker.engine.snapshots.lastSortitionAtOrBelow (bitcoinHeight - 1)

variable (H : Hashes) (advantage : CarryoverAdvantage)

/-- Extend the chain with one Bitcoin block, deriving everything about it. What was noted before the
engine refuses the block stays noted. -/
def advance (block : BitcoinBlock) (payouts : PayoutSchedule) :
    Except TrackerError SortitionSnapshot × SortitionTracker :=
  if tracker.engine.snapshots.effectiveWinnerSeed.isNone then
    let standing := tracker.tip.bitcoinHeight
    let next := block.height
    (.error (.seed s!"the chain at burn {standing} has no effective winner seed, so burn {next} cannot be sampled without substituting an all-zero seed"),
      tracker)
  else
    match tracker.payoutsAt payouts block.height with
    | .error e => (.error e, tracker)
    | .ok payouts =>
      let prepared := tracker.prepare block payouts
      let appended := tracker.engine.append H advantage prepared.1
      (appended.1.mapError .sortition, { prepared.2 with engine := appended.2 })

/-- Give back every sortition above a Bitcoin height. -/
def retractAbove (bitcoinHeight : Nat) :
    Except TrackerError (SortitionReorg × SortitionTracker) := do
  let (reorg, engine) ← (tracker.engine.retractAbove bitcoinHeight).mapError .sortition
  return (reorg, { tracker with
    engine
    commitments := tracker.commitments.filter (·.1 ≤ bitcoinHeight) })

/-! ## Priming -/

/-- The tracker with the chain that a root was changed in, if it could be. -/
def adopting (adopted : Bool × SnapshotChain) : Option SortitionTracker :=
  if adopted.1 then some { tracker with engine := { tracker.engine with snapshots := adopted.2 } }
  else none

def adoptRootWinnerSeed (seed : Bytes 32) : Option SortitionTracker :=
  tracker.adopting (tracker.engine.snapshots.adoptRootWinnerSeed seed)

def adoptRootWinnerVrfPublicKey (key : Bytes 32) : Option SortitionTracker :=
  tracker.adopting (tracker.engine.snapshots.adoptRootWinnerVrfPublicKey key)

theorem adopting_adoptRoot {tracker' : SortitionTracker}
    {f : SortitionSnapshot → SortitionSnapshot} :
    tracker.adopting (tracker.engine.snapshots.adoptRoot f) = some tracker' ↔
      tracker.engine.snapshots.snapshots.length = 1 ∧ { tracker with
        engine := ⟨tracker.engine.snapshots.updateTip f, tracker.engine.commitmentWindow⟩ } = tracker' := by
  unfold adopting SnapshotChain.adoptRoot
  split_ifs <;> simp_all

/-- Resolve the captured winner of the tip through its commitment and the leader keys. -/
def authenticateBoundaryWinner (block : BitcoinBlock) : Except TrackerError (Bytes 32) := do
  let boundary := tracker.tip
  let height := boundary.bitcoinHeight
  ensure (block.height = height ∧ block.hash = boundary.bitcoinHeaderHash)
    (.boundaryBlockMismatch height)
  let winnerTxid ← okOr boundary.winnerTxid (.boundaryNotWinner boundary.consensusHash height)
  let commit ← okOr
    (block.operations.findSome? fun operation =>
      match operation.kind with
      | .leaderBlockCommit commit =>
        if operation.txid = winnerTxid ∧ commitmentIsOnTime commit.parentModulus block.height then
          some commit
        else none
      | _ => none)
    (.boundaryWinnerCommitmentMissing height winnerTxid)
  ensure (boundary.winnerVrfSeed = some commit.newSeed)
    (.boundaryWinnerMismatch height "the effective VRF seed")
  ensure (boundary.committedBlockHash.all (· = commit.blockHeaderHash))
    (.boundaryWinnerMismatch height "the committed Stacks block")
  let registration ← okOr
    (tracker.keys.registration commit.keyBlockHeight commit.keyTransactionIndex)
    (.boundaryWinnerKeyUnavailable height commit.keyBlockHeight commit.keyTransactionIndex)
  ensure (boundary.winnerSigningKeyHash.all (some · = registration.signingKeyHash))
    (.boundaryWinnerMismatch height "the registered block-signing key")
  return registration.vrfPublicKey

/-- The seed of the tip, recovered from its own block when the tip does not carry it. -/
def recoverSeed (block : BitcoinBlock) : Except TrackerError SortitionTracker := do
  let height := tracker.tip.bitcoinHeight
  let winner ← okOr tracker.tip.winnerTxid
    (.seed s!"the sortition seed at burn {height} carries no effective winner seed and names no winning commitment")
  let named := winner.hex
  let seed ← okOr (winnerSeed block winner)
    (.seed s!"the sortition seed at burn {height} says commitment {named} won, and neither that eligible commitment nor an agreement between the block's eligible ones says which VRF seed it carried -- so the seed the next sortition mixes cannot be recovered. A checkpoint has to carry `winner_vrf_seed` for a seed row that elected somebody.")
  okOr (tracker.adoptRootWinnerSeed seed)
    (.seed "the checkpoint seed can only be adopted before the chain advances")

def recoverSeedFrom (block : BitcoinBlock) : Except TrackerError SortitionTracker :=
  let tip := tracker.tip
  let seedWasPresent := tracker.engine.snapshots.effectiveWinnerSeed.isSome
  let winnerKeyIsMissing := tip.winnerTxid.isSome && tip.winnerVrfPublicKey.isNone
  if seedWasPresent && !winnerKeyIsMissing then .ok tracker
  else do
    let height := tip.bitcoinHeight
    let header := tip.bitcoinHeaderHash.hex
    let readHeight := block.height
    let readHeader := block.hash.hex
    ensure (block.height = tip.bitcoinHeight ∧ block.hash = tip.bitcoinHeaderHash)
      (.seed s!"the seed snapshot names burn {height} with header {header}, but its Bitcoin source returned burn {readHeight} with header {readHeader}")
    let recovered ← (if seedWasPresent then .ok tracker else tracker.recoverSeed block)
    if seedWasPresent && winnerKeyIsMissing then do
      let key ← recovered.authenticateBoundaryWinner block
      okOr (recovered.adoptRootWinnerVrfPublicKey key)
        (.seed "the checkpoint winner key can only be adopted before the chain advances")
    else .ok recovered

/-- Read one block of the window behind the tip. -/
def primeBlock (block : BitcoinBlock) (payouts : PayoutSchedule) (bitcoinHeight : Nat) :
    Except TrackerError SortitionTracker := do
  let noted := tracker.registerKeys block
  let payouts ← noted.payoutsAt payouts bitcoinHeight
  let ((accepted, commitments), noted) := noted.acceptedBlock block payouts
  let read : SortitionTracker := { noted with engine := tracker.engine }
  let seeded ← (if bitcoinHeight = read.tip.bitcoinHeight then read.recoverSeedFrom accepted
    else .ok read)
  return { seeded with engine := seeded.engine.prime bitcoinHeight commitments }

/-- Fetch and read the block at a height. -/
def primeHeight (blockAt : Nat → Except String BitcoinBlock) (payouts : PayoutSchedule)
    (bitcoinHeight : Nat) : Except TrackerError SortitionTracker := do
  let block ← (blockAt bitcoinHeight).mapError .bitcoin
  tracker.primeBlock block payouts bitcoinHeight

/-- The heights `prime` reads, oldest first. -/
def primingHeights : List Nat :=
  let behind := miningCommitmentWindow - 1
  let first := tracker.tip.bitcoinHeight - behind
  List.range' first (tracker.tip.bitcoinHeight + 1 - first)

/-- The height the mining window behind the seed starts at. -/
abbrev readsFrom : Nat := tracker.tip.bitcoinHeight - (miningCommitmentWindow - 1)

/-- Read the mining window behind the seed. -/
def prime (blockAt : Nat → Except String BitcoinBlock) (payouts : PayoutSchedule) :
    Except TrackerError SortitionTracker := do
  let primed ← tracker.primingHeights.foldlM (·.primeHeight blockAt payouts ·) tracker
  return { primed with primed := true }

end SortitionTracker

end NanoStacks.Tracker
