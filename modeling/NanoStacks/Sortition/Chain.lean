import NanoStacks.Sortition.Distribution

/-!
# The chain of snapshots

`SnapshotChain` holds the newest snapshots, the whole history of consensus hashes behind the tip, and
the heights below the held snapshots that elected somebody. It grows by one snapshot for each Bitcoin
block, forgets the oldest ones, and gives back the newest ones when Bitcoin reorganizes.
-/

namespace NanoStacks.Sortition

open Bitcoin Result

def snapshotsKept : Nat := 144

def systemForkSetVersion : List UInt8 := [23, 0, 0, 0]

def consensusHash (H : Hashes) (header : BitcoinHeaderHash) (operationsHash : OpsHash)
    (totalBurn : Nat) (previousHashes : List ConsensusHash) (poxId : PoxId) : ConsensusHash :=
  H.hash160 (systemForkSetVersion ++ header.toList ++ operationsHash.toList ++
    (toLe 8 totalBurn).reverse ++ poxId.asConsensusBytes ++ previousHashes.flatMap (·.toList))

/-- The snapshots a reorganization took back, and the one it leaves on top. -/
structure SortitionReorg where
  validAncestor : SortitionSnapshot
  retracted : List SortitionSnapshot

def SortitionReorg.depth (reorg : SortitionReorg) : Nat := reorg.retracted.length

/-- The snapshots held, oldest first; there is always one, the root. -/
structure SnapshotChain where
  snapshots : List SortitionSnapshot
  consensusHashes : List ConsensusHash
  sortitionsBelowWindow : List Nat
  neededFrom : Option Nat
  snapshots_ne_nil : snapshots ≠ []
  deriving DecidableEq

/-- The consensus hashes at distances `2 ^ k - 1` behind the newest, for `k` from `exponent` on. -/
def hashesBehind (hashes : List ConsensusHash) (exponent : Nat) : Nat → List ConsensusHash
  | 0 => []
  | fuel + 1 =>
    let offset := 2 ^ exponent - 1
    if offset ≤ hashes.length - 1 then
      hashes.getD (hashes.length - 1 - offset) (Bytes.zero 20) ::
        hashesBehind hashes (exponent + 1) fuel
    else []

/-- Note a height that elected somebody and leaves the held snapshots. -/
def rememberSortition (remembered : List Nat) (bitcoinHeight : Nat) : List Nat :=
  if remembered.getLast? = some bitcoinHeight then remembered
  else
    let remembered := remembered ++ [bitcoinHeight]
    if remembered.length > snapshotsKept then remembered.tail else remembered

/-- Drop the oldest snapshots until no more than `keep` are left. -/
def forgetSnapshots (keep : Nat) : List SortitionSnapshot → List Nat →
    List SortitionSnapshot × List Nat
  | [], remembered => ([], remembered)
  | dropped :: rest, remembered =>
    if rest.length + 1 > keep then
      forgetSnapshots keep rest
        (if dropped.winnerTxid.isSome then rememberSortition remembered dropped.bitcoinHeight
          else remembered)
    else (dropped :: rest, remembered)

theorem forgetSnapshots_fst (keep : Nat) (snapshots : List SortitionSnapshot)
    (remembered : List Nat) :
    (forgetSnapshots keep snapshots remembered).1 = snapshots.drop (snapshots.length - keep) := by
  induction snapshots generalizing remembered with
  | nil => simp [forgetSnapshots]
  | cons dropped rest ih =>
    rw [forgetSnapshots, List.length_cons]
    by_cases hlong : rest.length + 1 > keep
    · rw [if_pos hlong, ih, show rest.length + 1 - keep = rest.length - keep + 1 by omega,
        List.drop_succ_cons]
    · rw [if_neg hlong, show rest.length + 1 - keep = 0 by omega, List.drop_zero]

namespace SnapshotChain

theorem singleton_ne_nil (root : SortitionSnapshot) : [root] ≠ [] := by simp

/-- The chain of a root snapshot with nothing known behind it. -/
def new (genesis : SortitionSnapshot) : SnapshotChain :=
  ⟨[genesis], [genesis.consensusHash], [], none, singleton_ne_nil genesis⟩

/-- The chain of a root snapshot and the consensus hashes up to it, if they end with its own. -/
def withHistory (genesis : SortitionSnapshot) (history : List ConsensusHash) :
    Option SnapshotChain :=
  if history.getLast? = some genesis.consensusHash then
    some ⟨[genesis], history, [], none, by simp⟩
  else none

variable (chain : SnapshotChain)

def tip : SortitionSnapshot := chain.snapshots.getLast chain.snapshots_ne_nil

def root : SortitionSnapshot := chain.snapshots.head chain.snapshots_ne_nil

def previousConsensusHashes : List ConsensusHash := hashesBehind chain.consensusHashes 0 64

/-- How many snapshots behind the tip the chain has to keep. -/
def snapshotsToKeep (tip : SortitionSnapshot) : Nat :=
  match chain.neededFrom with
  | some floor =>
    if floor ≤ tip.bitcoinHeight then max (tip.bitcoinHeight - floor + 1) snapshotsKept
    else snapshotsKept
  | none => snapshotsKept

theorem snapshotsToKeep_ge (tip : SortitionSnapshot) :
    snapshotsKept ≤ chain.snapshotsToKeep tip := by
  unfold snapshotsToKeep
  split
  · split_ifs
    · exact Nat.le_max_right _ _
    · exact Nat.le_refl _
  · exact Nat.le_refl _

def keepFrom (bitcoinHeight : Nat) : SnapshotChain :=
  if chain.neededFrom.all (· < bitcoinHeight) then { chain with neededFrom := some bitcoinHeight }
  else chain

/-- Put a snapshot on top and forget what nothing can ask for any more. -/
def push (snapshot : SortitionSnapshot) : SnapshotChain where
  snapshots := (forgetSnapshots (chain.snapshotsToKeep snapshot) (chain.snapshots ++ [snapshot])
    chain.sortitionsBelowWindow).1
  consensusHashes := chain.consensusHashes ++ [snapshot.consensusHash]
  sortitionsBelowWindow := (forgetSnapshots (chain.snapshotsToKeep snapshot)
    (chain.snapshots ++ [snapshot]) chain.sortitionsBelowWindow).2
  neededFrom := chain.neededFrom
  snapshots_ne_nil := by
    have hkeep := chain.snapshotsToKeep_ge snapshot
    rw [forgetSnapshots_fst, ← List.length_pos_iff, List.length_drop, List.length_append,
      List.length_singleton]
    unfold snapshotsKept at hkeep
    omega

/-- The snapshot of the next Bitcoin block, before what its miners spent is recorded on it. -/
def nextSnapshot (H : Hashes) (block : BitcoinBlock) (operationTxids : List Txid) (totalBurn : Nat)
    (poxId : PoxId) (winner : Option SortitionWinner) : SortitionSnapshot :=
  let parent := chain.tip
  let operationsHash := OpsHash.fromTxids H operationTxids
  let sortitionHash := parent.sortitionHash.mixBitcoinHeader H block.hash
  { bitcoinHeight := block.height
    bitcoinHeaderHash := block.hash
    bitcoinTimestamp := block.timestamp
    sortitionId := sortitionId H block.hash poxId
    parentSortitionId := parent.sortitionId
    operationsHash
    consensusHash := consensusHash H block.hash operationsHash totalBurn
      chain.previousConsensusHashes poxId
    totalBurn
    sortitionHash := match winner with
      | some winner => sortitionHash.mixVrfSeed H winner.vrfSeed
      | none => sortitionHash
    numSortitions := parent.numSortitions.bind fun count =>
      checkedAdd count (if winner.isSome then 1 else 0)
    winnerTxid := winner.map (·.txid)
    winnerVrfSeed := winner.map (·.vrfSeed)
    winnerVrfPublicKey := winner.bind (·.vrfPublicKey)
    winnerSigningKeyHash := winner.bind (·.signingKeyHash)
    committedBlockHash := winner.map (·.committedBlockHash)
    parentBitcoinHeight := winner.map (·.parentBitcoinHeight)
    burnSpends := none
    miningCompetition := none
    poxId }

def appendWithOperations (H : Hashes) (block : BitcoinBlock) (operationTxids : List Txid)
    (totalBurn : Nat) (poxId : PoxId) (winner : Option SortitionWinner) :
    Except SortitionError SnapshotChain := do
  let expectedHeight ← okOr (checkedAdd chain.tip.bitcoinHeight 1) .heightOverflow
  ensure (block.height = expectedHeight) (.unexpectedHeight expectedHeight block.height)
  return chain.push (chain.nextSnapshot H block operationTxids totalBurn poxId winner)

/-- Change the tip in place. -/
def updateTip (f : SortitionSnapshot → SortitionSnapshot) : SnapshotChain :=
  { chain with
    snapshots := chain.snapshots.dropLast ++ [f chain.tip]
    snapshots_ne_nil := by simp }

def recordTipBurnSpends (spends : Option BurnSpends) : SnapshotChain :=
  chain.updateTip fun tip => { tip with burnSpends := spends }

def recordTipMiningCompetition (competition : Option MiningCompetition) : SnapshotChain :=
  chain.updateTip fun tip => { tip with miningCompetition := competition }

/-- Change the root in place, as long as nothing is derived above it and it is the tip. -/
def adoptRoot (f : SortitionSnapshot → SortitionSnapshot) : Bool × SnapshotChain :=
  if chain.snapshots.length = 1 then (true, chain.updateTip f) else (false, chain)

def adoptRootWinnerSeed (seed : Bytes 32) : Bool × SnapshotChain :=
  chain.adoptRoot fun root => { root with winnerVrfSeed := some seed }

def adoptRootWinnerVrfPublicKey (key : Bytes 32) : Bool × SnapshotChain :=
  chain.adoptRoot fun root => { root with winnerVrfPublicKey := some key }

/-- Give back every snapshot above a Bitcoin height; the root stays. -/
def retractAbove (bitcoinHeight : Nat) : Except SortitionError (SortitionReorg × SnapshotChain) := do
  ensure (chain.root.bitcoinHeight ≤ bitcoinHeight) (.reorgBeyondChainRoot chain.root.bitcoinHeight)
  let kept := bitcoinHeight - chain.root.bitcoinHeight + 1
  let dropped := chain.snapshots.length - kept
  let retracted : SnapshotChain :=
    { chain with
      consensusHashes := chain.consensusHashes.take (chain.consensusHashes.length - dropped)
      snapshots := chain.snapshots.take kept
      snapshots_ne_nil := by
        have hpos := List.length_pos_iff.2 chain.snapshots_ne_nil
        rw [← List.length_pos_iff, List.length_take]
        omega }
  return (⟨retracted.tip, chain.snapshots.drop kept⟩, retracted)

/-- The newest winning seed of the snapshots held at or below a height. -/
def effectiveWinnerSeedAtOrBelow (bitcoinHeight : Nat) : Option (Bytes 32) :=
  (chain.snapshots.reverse.dropWhile (bitcoinHeight < ·.bitcoinHeight)).findSome? (·.winnerVrfSeed)

/-- The winning seed the next sortition's sampling mixes. -/
def effectiveWinnerSeed : Option (Bytes 32) :=
  chain.effectiveWinnerSeedAtOrBelow chain.tip.bitcoinHeight

/-- The snapshot of a Bitcoin height, if it is held. -/
def snapshotAt (bitcoinHeight : Nat) : Option SortitionSnapshot :=
  if bitcoinHeight ≤ chain.tip.bitcoinHeight then
    let back := chain.tip.bitcoinHeight - bitcoinHeight
    if back + 1 ≤ chain.snapshots.length then
      chain.snapshots[chain.snapshots.length - (back + 1)]?
    else none
  else none

/-- The last height at or below this one that is known to have elected somebody. -/
def lastSortitionAtOrBelow (bitcoinHeight : Nat) : Option Nat :=
  ((chain.snapshots.reverse.dropWhile (bitcoinHeight < ·.bitcoinHeight)).findSome? fun snapshot =>
      snapshot.winnerTxid.map fun _ => snapshot.bitcoinHeight).or
    (chain.sortitionsBelowWindow.reverse.find? (· ≤ bitcoinHeight))

def seedSortitionBelowWindow (bitcoinHeight : Option Nat) : SnapshotChain :=
  { chain with sortitionsBelowWindow := bitcoinHeight.toList }

def seedSortitionsBelowWindow (heights : List Nat) : SnapshotChain :=
  { chain with sortitionsBelowWindow := (heights.insertionSort (· ≤ ·)).dedup }

end SnapshotChain

end NanoStacks.Sortition
