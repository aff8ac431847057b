import NanoStacks.Tracker.Basic

/-!
# Writing a tracker down

`saveStandingOn` writes four files: one snapshot, the consensus hashes up to it, the leader keys and
the waterfall's payouts. `fromCapture` starts a tracker from such files, or from those of a
checkpoint. The accepted commitments, their floor and the mining window are in none of them; `prime`
reads the last six blocks again for these.

Files are modelled by what they hold: hexadecimal texts by the bytes they spell, decimal ones by the
number, a payout text by the address in it.
-/

namespace NanoStacks.Tracker

open Bitcoin Sortition Result

variable (H : Hashes)

/-! ## The files -/

/-- A row of `snapshots.json`. -/
structure CapturedSnapshot where
  blockHeight : Nat
  burnHeaderHash : BitcoinHeaderHash
  burnHeaderTimestamp : Nat
  sortitionId : SortitionId
  consensusHash : ConsensusHash
  sortitionHash : SortitionHash
  totalBurn : Nat
  /-- The payout text, as the network and program of the taproot address it names first; `some none`
  where it names no 32-byte address. -/
  poxPayouts : Option (Option (Bool × Bytes 32))
  numSortitions : Option Nat
  sortition : Option Int
  winningBlockTxid : Option Txid
  winnerVrfSeed : Option (Bytes 32)
  lastSortitionHeight : Option Nat
  sortitionsBelowWindow : List Nat
  parentSortitionId : Option SortitionId
  minerPkHash : Option Hash160
  winningStacksBlockHash : Option (Bytes 32)
  deriving DecidableEq

/-- A row of `leader-keys.json`; an empty memo is `none`. -/
structure CapturedLeaderKey where
  blockHeight : Nat
  vtxindex : Nat
  publicKey : Bytes 32
  memo : Option Hash160
  deriving DecidableEq

/-- A row of `waterfall-payouts.json`. -/
structure CapturedWaterfallPayout where
  bitcoinHeight : Nat
  observedAt : Nat
  mainnet : Bool
  bytes : Bytes 32
  deriving DecidableEq

/-- The files of a directory. -/
structure Capture where
  snapshots : List CapturedSnapshot
  hashes : List ConsensusHash
  leaderKeys : List CapturedLeaderKey
  waterfallPayouts : List CapturedWaterfallPayout
  deriving DecidableEq

def CapturedWaterfallPayout.payout (payout : CapturedWaterfallPayout) : WaterfallPayout :=
  ⟨payout.observedAt, .addr32 payout.mainnet .p2tr payout.bytes⟩

def CapturedLeaderKey.registration (key : CapturedLeaderKey) : LeaderKeyRegistration :=
  ⟨key.publicKey, key.memo⟩

/-- Whether the row says that its block elected somebody. -/
def CapturedSnapshot.elected (row : CapturedSnapshot) : Bool := row.sortition.any (· ≠ 0)

/-! ## Saving -/

def encodedWaterfallPayout : PoxAddress → Except TrackerError (Bool × Bytes 32)
  | .addr32 mainnet .p2tr bytes => .ok (mainnet, bytes)
  | _ => .error (.seed "a waterfall payout is not a P2TR address")

def capturedWaterfallPayout (bitcoinHeight : Nat) (payout : WaterfallPayout) :
    Except TrackerError CapturedWaterfallPayout := do
  let (mainnet, bytes) ← encodedWaterfallPayout payout.recipient
  return ⟨bitcoinHeight, payout.observedAt, mainnet, bytes⟩

/-- Every registration held, in burn order. -/
def registeredEntries (keys : LeaderKeys) : List CapturedLeaderKey :=
  keys.registered.entries.map fun entry =>
    ⟨(ofLex entry.1).1, (ofLex entry.1).2, entry.2.vrfPublicKey, entry.2.signingKeyHash⟩

namespace SortitionTracker

variable (tracker : SortitionTracker)

/-- The row a snapshot of this chain is written down as. -/
def capturedSnapshot (snapshot : SortitionSnapshot)
    (poxPayouts : Option (Bool × Bytes 32)) : CapturedSnapshot where
  blockHeight := snapshot.bitcoinHeight
  burnHeaderHash := snapshot.bitcoinHeaderHash
  burnHeaderTimestamp := snapshot.bitcoinTimestamp
  sortitionId := snapshot.sortitionId
  consensusHash := snapshot.consensusHash
  sortitionHash := snapshot.sortitionHash
  totalBurn := snapshot.totalBurn
  poxPayouts := poxPayouts.map some
  numSortitions := snapshot.numSortitions
  sortition := some (if snapshot.winnerTxid.isSome then 1 else 0)
  winningBlockTxid := snapshot.winnerTxid
  winnerVrfSeed := tracker.engine.snapshots.effectiveWinnerSeedAtOrBelow snapshot.bitcoinHeight
  lastSortitionHeight := tracker.engine.snapshots.lastSortitionAtOrBelow snapshot.bitcoinHeight
  sortitionsBelowWindow := tracker.engine.snapshots.sortitionsBelowWindow
  parentSortitionId := some snapshot.parentSortitionId
  minerPkHash := snapshot.winnerSigningKeyHash
  winningStacksBlockHash := snapshot.committedBlockHash

/-- Write the chain down as it stood at a Bitcoin height. -/
def saveStandingOn (bitcoinHeight : Nat) : Except TrackerError Capture := do
  let asked := min bitcoinHeight tracker.tip.bitcoinHeight
  let snapshot ← okOr (tracker.snapshotAt asked)
    (.seed s!"this chain keeps no snapshot for burn {asked}, which is the burn view execution has reached, so writing it down would save a chain seeded above what a restart needs")
  let poxPayouts ← (tracker.waterfallRecipientAt snapshot.bitcoinHeight).mapM encodedWaterfallPayout
  let history := tracker.engine.snapshots.consensusHashes
  let ahead := tracker.tip.bitcoinHeight - snapshot.bitcoinHeight
  let waterfallPayouts ← (tracker.waterfallPayouts.entries.filter
    (·.2.observedAt ≤ snapshot.bitcoinHeight)).mapM fun entry =>
      capturedWaterfallPayout entry.1 entry.2
  return {
    snapshots := [tracker.capturedSnapshot snapshot poxPayouts]
    hashes := history.take (history.length - ahead)
    leaderKeys := registeredEntries tracker.keys
    waterfallPayouts }

end SortitionTracker

/-! ## Loading -/

def poxHistorySearchLimit : Nat := 1024

/-- The reward-cycle history with this many cycles and no gap. -/
def PoxId.unbroken (cycles : Nat) : PoxId := ⟨List.replicate cycles true⟩

/-- The unbroken reward-cycle history an identifier was made with. -/
def unbrokenPoxIdFor (header : BitcoinHeaderHash) (identifier : SortitionId) (maxCycles : Nat) :
    Option PoxId :=
  ((List.range' 1 maxCycles).map PoxId.unbroken).find? (sortitionId H header · = identifier)

/-- The snapshot a row seeds a chain with. -/
def seedSnapshot (seed : CapturedSnapshot) : Except TrackerError SortitionSnapshot := do
  let height := seed.blockHeight
  ensure (seed.winnerVrfSeed.isSome ∨ seed.sortition.all (· ≠ 0))
    (.seed s!"burn {height} elected nobody, so the winning seed the next sortition mixes is an older block's and this snapshot does not carry it — seed the chain at a burn block that had a sortition, or resume from a chain that saved the seed")
  ensure (seed.winnerVrfSeed.isSome ∨ seed.sortition.isSome)
    (.seed s!"the snapshot at burn {height} says neither whether that block elected anybody nor what winning seed the next sortition mixes, which is how a chain saved before those were written down looks. Guessing costs a wrongly named winner one restart in three, and the only thing that names is the leader key a coinbase proof is checked against — so this is re-derived instead.")
  let identifier := seed.sortitionId.hex
  let poxId ← okOr (unbrokenPoxIdFor H seed.burnHeaderHash seed.sortitionId poxHistorySearchLimit)
    (.seed s!"the seed's sortition identifier {identifier} is not the burn header hash and an unbroken PoX history hashed together, so this node cannot tell which reward-cycle history the checkpoint stands on")
  return {
    bitcoinHeight := seed.blockHeight
    bitcoinHeaderHash := seed.burnHeaderHash
    bitcoinTimestamp := seed.burnHeaderTimestamp
    sortitionId := seed.sortitionId
    parentSortitionId := seed.parentSortitionId.getD (Bytes.zero 32)
    operationsHash := OpsHash.fromTxids H []
    consensusHash := seed.consensusHash
    totalBurn := seed.totalBurn
    sortitionHash := seed.sortitionHash
    numSortitions := seed.numSortitions
    winnerTxid := if seed.elected then seed.winningBlockTxid else none
    winnerVrfSeed := seed.winnerVrfSeed
    winnerVrfPublicKey := none
    winnerSigningKeyHash := if seed.elected then seed.minerPkHash else none
    committedBlockHash := if seed.elected then seed.winningStacksBlockHash else none
    parentBitcoinHeight := none
    burnSpends := none
    miningCompetition := none
    poxId }

/-- Take on the payout a row names, where it differs from the last one taken on. -/
def readRowPayout (payouts : OrdMap Nat WaterfallPayout) (row : CapturedSnapshot) :
    OrdMap Nat WaterfallPayout :=
  match row.poxPayouts.join with
  | none => payouts
  | some (mainnet, bytes) =>
    let recipient := PoxAddress.addr32 mainnet .p2tr bytes
    if payouts.entries.getLast?.all (·.2.recipient ≠ recipient) then
      payouts.insert row.blockHeight ⟨row.blockHeight, recipient⟩
    else payouts

/-- The payouts a capture knows of at a height. -/
def readWaterfallPayouts (capture : Capture) (through : Nat) : OrdMap Nat WaterfallPayout :=
  let fromRows := (capture.snapshots.filter (·.blockHeight ≤ through)).foldl readRowPayout .empty
  (capture.waterfallPayouts.filter (·.observedAt ≤ through)).foldl
    (fun payouts row => payouts.insert row.bitcoinHeight row.payout) fromRows

/-- Register every row of a registry. -/
def registerRows (keys : LeaderKeys) (rows : List CapturedLeaderKey) : LeaderKeys :=
  rows.foldl (fun keys row => keys.register row.blockHeight row.vtxindex row.registration) keys

def readLeaderKeys (rows : List CapturedLeaderKey) : LeaderKeys := registerRows .new rows

/-- Start a tracker from one row of a capture. -/
def trackerFromCaptureSeed (capture : Capture) (seed : CapturedSnapshot)
    (history : List ConsensusHash) : Except TrackerError SortitionTracker := do
  let snapshot ← seedSnapshot H seed
  let tracker ← SortitionTracker.new snapshot history
  let snapshots := tracker.engine.snapshots.seedSortitionBelowWindow seed.lastSortitionHeight
  let snapshots := if seed.sortitionsBelowWindow.isEmpty then snapshots
    else snapshots.seedSortitionsBelowWindow seed.sortitionsBelowWindow
  return { tracker with
    engine := { tracker.engine with snapshots }
    waterfallPayouts := readWaterfallPayouts capture seed.blockHeight
    keys := registerRows tracker.keys (registeredEntries (readLeaderKeys capture.leaderKeys)) }

/-- Start a tracker from the row the history of a capture ends at. -/
def SortitionTracker.fromCapture (capture : Capture) : Except TrackerError SortitionTracker := do
  let anchor ← okOr capture.hashes.getLast? (.seed "the history is empty")
  let named := anchor.hex
  let seed ← okOr (capture.snapshots.find? (·.consensusHash = anchor))
    (.seed s!"no snapshot for the hash the history ends at: {named}")
  trackerFromCaptureSeed H capture seed capture.hashes

end NanoStacks.Tracker
