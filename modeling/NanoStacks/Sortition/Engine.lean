import NanoStacks.Sortition.Chain

/-!
# The sortition engine

`SortitionEngine` holds the chain of snapshots and the commitments of the newest Bitcoin blocks. One
`append` weighs the newest commitments, draws the winner and puts a snapshot on the chain;
`retractAbove` gives both back.

The snapshot an append produces depends on four things only: the tip, the consensus hashes behind it,
the winning seed last held and the blocks it is weighed over (`append_fst`). What the engine is
afterwards follows from that snapshot alone (`append_snd`).
-/

namespace NanoStacks.Sortition

open Bitcoin Result SnapshotChain List

/-- Blocks of commitment history an engine keeps. -/
def retainedCommitmentBlocks : Nat := miningCommitmentWindow * 2

structure SortitionEngine where
  snapshots : SnapshotChain
  commitmentWindow : List CommitmentWindowBlock
  deriving DecidableEq

/-- What a block's sortition comes to: the running burn, the winner and the weights. -/
structure Election where
  totalBurn : Nat
  winner : Option SortitionWinner
  competition : MiningCompetition

/-- The arguments of one append. -/
structure AppendInput where
  block : BitcoinBlock
  acceptedOperationTxids : List Txid
  commitments : CommitmentWindowBlock
  poxId : PoxId
  windowLen : Nat

def winnerOf (candidate : MiningCommitment) : SortitionWinner where
  txid := candidate.txid
  vrfSeed := candidate.vrfSeed
  vrfPublicKey := candidate.vrfPublicKey
  signingKeyHash := candidate.signingKeyHash
  committedBlockHash := candidate.committedBlockHash
  parentBitcoinHeight := candidate.parentBitcoinHeight

/-- Add a block to the retained commitments, and let the oldest go when there are too many. -/
def retainCommitments (window : List CommitmentWindowBlock) (commitments : CommitmentWindowBlock) :
    List CommitmentWindowBlock :=
  let retained := window ++ [commitments]
  if retained.length > retainedCommitmentBlocks then retained.tail else retained

/-- The blocks of the retained commitments a sortition is weighed over. -/
def sampledWindow (retained : List CommitmentWindowBlock) (windowLen : Nat) :
    List CommitmentWindowBlock :=
  retained.drop (retained.length - max windowLen 1)

variable (H : Hashes) (advantage : CarryoverAdvantage)

/-- Weigh a window and draw the winner over a tip and the seed last won. -/
def elect (window : List CommitmentWindowBlock) (tip : SortitionSnapshot)
    (previousSeed : Option (Bytes 32)) (header : BitcoinHeaderHash) :
    Except SortitionError Election := do
  let statistics ← commitmentBurnStatistics window
  let distribution ← commitmentDistribution window
  let nextSortitionHash := tip.sortitionHash.mixBitcoinHeader H header
  let winnerIndex :=
    if statistics.blockBurn ≠ 0 then
      selectEpoch4Winner H advantage distribution window.length nextSortitionHash
        (previousSeed.getD (Bytes.zero 32)) statistics.blockBurn statistics.windowMedianBurn
    else none
  let candidate := winnerIndex.bind fun index => distribution[index]?.map (·.candidate)
  let competition :=
    miningCompetition distribution statistics window.length (candidate.map (·.txid))
  let won := candidate.bind fun candidate =>
    (checkedAdd tip.totalBurn statistics.blockBurn).map fun total => (total, winnerOf candidate)
  return {
    totalBurn := (won.map (·.1)).getD tip.totalBurn
    winner := won.map (·.2)
    competition }

/-- What the miners of a block spent, if the winner is among its commitments. -/
def spendsOf (block : CommitmentWindowBlock) (winnerTxid : Option Txid) : Option BurnSpends := do
  let winnerTxid ← winnerTxid
  let winner ← block.commitments.find? (·.txid = winnerTxid)
  let total ← block.burns.foldlM checkedAdd 0
  return ⟨total, winner.burnSats⟩

namespace SortitionEngine

def withHistory (genesis : SortitionSnapshot) (history : List ConsensusHash) :
    Option SortitionEngine :=
  (SnapshotChain.withHistory genesis history).map fun snapshots => ⟨snapshots, []⟩

variable (engine : SortitionEngine)

def spendsAtTip : Option BurnSpends := do
  let block ← engine.commitmentWindow.getLast?
  spendsOf block engine.snapshots.tip.winnerTxid

def recordSpends : SortitionEngine :=
  { engine with snapshots := engine.snapshots.recordTipBurnSpends engine.spendsAtTip }

/-- Add a Bitcoin block to the mining window without taking a snapshot of it. -/
def prime (bitcoinHeight : Nat) (commitments : CommitmentWindowBlock) : SortitionEngine :=
  let primed := { engine with
    commitmentWindow := retainCommitments engine.commitmentWindow commitments }
  if bitcoinHeight = primed.snapshots.tip.bitcoinHeight then primed.recordSpends else primed

def retractAbove (bitcoinHeight : Nat) :
    Except SortitionError (SortitionReorg × SortitionEngine) := do
  let depth := engine.snapshots.tip.bitcoinHeight - bitcoinHeight
  ensure (depth ≤ miningCommitmentWindow) (.reorgTooDeep depth miningCommitmentWindow)
  let (reorg, snapshots) ← engine.snapshots.retractAbove bitcoinHeight
  return (reorg, ⟨snapshots, engine.commitmentWindow.take
    (engine.commitmentWindow.length - reorg.depth)⟩)

/-- The blocks the next append is weighed over. -/
def sampled (input : AppendInput) : List CommitmentWindowBlock :=
  sampledWindow (retainCommitments engine.commitmentWindow input.commitments) input.windowLen

/-- Extend the chain with a Bitcoin block. An error after the weighing leaves the block's commitments
in the window. -/
def append (input : AppendInput) : Except SortitionError SortitionSnapshot × SortitionEngine :=
  match elect H advantage (engine.sampled input) engine.snapshots.tip
      engine.snapshots.effectiveWinnerSeed input.block.hash with
  | .error e => (.error e, engine)
  | .ok election =>
    let retained := retainCommitments engine.commitmentWindow input.commitments
    match engine.snapshots.appendWithOperations H input.block input.acceptedOperationTxids
        election.totalBurn input.poxId election.winner with
    | .error e => (.error e, { engine with commitmentWindow := retained })
    | .ok snapshots =>
      let spent := SortitionEngine.recordSpends ⟨snapshots, retained⟩
      let snapshots := spent.snapshots.recordTipMiningCompetition (some election.competition)
      (.ok snapshots.tip, { spent with snapshots })

end SortitionEngine

/-! ## Updating the tip -/

theorem forgetSnapshots_concat {keep : Nat} (hkeep : 0 < keep) (snapshots : List SortitionSnapshot)
    (snapshot : SortitionSnapshot) (remembered : List Nat) :
    forgetSnapshots keep (snapshots ++ [snapshot]) remembered =
      ((forgetSnapshots (keep - 1) snapshots remembered).1 ++ [snapshot],
        (forgetSnapshots (keep - 1) snapshots remembered).2) := by
  induction snapshots generalizing remembered with
  | nil => simp [forgetSnapshots, hkeep.ne']
  | cons dropped rest ih =>
    rw [cons_append, forgetSnapshots, forgetSnapshots]
    by_cases hlong : rest.length + 1 > keep - 1
    · have hlong' : (rest ++ [snapshot]).length + 1 > keep := by
        rw [length_append, length_singleton]
        omega
      rw [if_pos hlong, if_pos hlong', ih]
    · have hshort : ¬(rest ++ [snapshot]).length + 1 > keep := by
        rw [length_append, length_singleton]
        omega
      rw [if_neg hlong, if_neg hshort, cons_append]

namespace SnapshotChain

variable (chain : SnapshotChain) (snapshot : SortitionSnapshot)

theorem keep_pos : 0 < chain.snapshotsToKeep snapshot :=
  lt_of_lt_of_le (by decide) (chain.snapshotsToKeep_ge snapshot)

theorem push_snapshots : (chain.push snapshot).snapshots =
    (forgetSnapshots (chain.snapshotsToKeep snapshot - 1) chain.snapshots
      chain.sortitionsBelowWindow).1 ++ [snapshot] := by
  show (forgetSnapshots _ _ _).1 = _
  rw [forgetSnapshots_concat (chain.keep_pos snapshot)]

@[simp] theorem tip_push : (chain.push snapshot).tip = snapshot := by
  unfold tip
  simp only [push_snapshots, getLast_append_singleton]

@[simp] theorem tip_updateTip (f : SortitionSnapshot → SortitionSnapshot) :
    (chain.updateTip f).tip = f chain.tip := by
  simp [tip, updateTip]

variable {f : SortitionSnapshot → SortitionSnapshot}

theorem updateTip_self (hf : f chain.tip = chain.tip) : chain.updateTip f = chain := by
  have hsnapshots : chain.snapshots.dropLast ++ [f chain.tip] = chain.snapshots := by
    rw [hf]
    exact dropLast_append_getLast chain.snapshots_ne_nil
  cases chain
  simp only [updateTip, mk.injEq, and_true]
  exact hsnapshots

theorem updateTip_push (hheight : (f snapshot).bitcoinHeight = snapshot.bitcoinHeight)
    (hhash : (f snapshot).consensusHash = snapshot.consensusHash) :
    (chain.push snapshot).updateTip f = chain.push (f snapshot) := by
  have hkeep : chain.snapshotsToKeep (f snapshot) = chain.snapshotsToKeep snapshot := by
    unfold snapshotsToKeep
    rw [hheight]
  rw [mk.injEq]
  refine ⟨?_, ?_, ?_, rfl⟩
  · show (chain.push snapshot).snapshots.dropLast ++ [f (chain.push snapshot).tip] = _
    rw [tip_push, push_snapshots, push_snapshots, dropLast_concat, hkeep]
  · show chain.consensusHashes ++ [snapshot.consensusHash] =
      chain.consensusHashes ++ [(f snapshot).consensusHash]
    rw [hhash]
  · show (forgetSnapshots _ _ _).2 = (forgetSnapshots _ _ _).2
    rw [forgetSnapshots_concat (chain.keep_pos _), forgetSnapshots_concat (chain.keep_pos _), hkeep]

end SnapshotChain

/-! ## What an append comes to -/

theorem getLast?_retainCommitments (window : List CommitmentWindowBlock)
    (commitments : CommitmentWindowBlock) :
    (retainCommitments window commitments).getLast? = some commitments := by
  unfold retainCommitments
  simp only
  split_ifs with hlong
  · cases window with
    | nil => simp [retainedCommitmentBlocks, miningCommitmentWindow] at hlong
    | cons head rest => simp
  · simp

/-- The snapshot of the next block over a tip, the hashes behind it, the seed last won and the blocks
it is weighed over. -/
def deriveSnapshot (tip : SortitionSnapshot) (previousHashes : List ConsensusHash)
    (previousSeed : Option (Bytes 32)) (window : List CommitmentWindowBlock) (input : AppendInput) :
    Except SortitionError SortitionSnapshot := do
  let election ← elect H advantage window tip previousSeed input.block.hash
  let expectedHeight ← okOr (checkedAdd tip.bitcoinHeight 1) .heightOverflow
  ensure (input.block.height = expectedHeight) (.unexpectedHeight expectedHeight input.block.height)
  let chain : SnapshotChain := ⟨[tip], previousHashes, [], none, SnapshotChain.singleton_ne_nil tip⟩
  let snapshot := chain.nextSnapshot H input.block input.acceptedOperationTxids election.totalBurn
    input.poxId election.winner
  return { snapshot with
    burnSpends := spendsOf input.commitments snapshot.winnerTxid
    miningCompetition := some election.competition }

namespace SortitionEngine

variable (engine : SortitionEngine) (input : AppendInput)

/-- The engine after an append that produced the given snapshot. -/
def extended (snapshot : SortitionSnapshot) : SortitionEngine :=
  ⟨engine.snapshots.push snapshot, retainCommitments engine.commitmentWindow input.commitments⟩

theorem append_eq_of_ok {election : Election}
    (helect : elect H advantage (engine.sampled input) engine.snapshots.tip
      engine.snapshots.effectiveWinnerSeed input.block.hash = .ok election) {expectedHeight : Nat}
    (hexpected : checkedAdd engine.snapshots.tip.bitcoinHeight 1 = some expectedHeight)
    (hheight : input.block.height = expectedHeight) :
    engine.append H advantage input =
      (let next := engine.snapshots.nextSnapshot H input.block input.acceptedOperationTxids
          election.totalBurn input.poxId election.winner
        let snapshot := { next with
          burnSpends := spendsOf input.commitments next.winnerTxid
          miningCompetition := some election.competition }
        (.ok snapshot, engine.extended input snapshot)) := by
  have hchain : engine.snapshots.appendWithOperations H input.block input.acceptedOperationTxids
      election.totalBurn input.poxId election.winner =
      .ok (engine.snapshots.push (engine.snapshots.nextSnapshot H input.block
        input.acceptedOperationTxids election.totalBurn input.poxId election.winner)) := by
    simp [appendWithOperations, hexpected, hheight]
  unfold append
  simp only [helect, hchain, recordSpends, spendsAtTip, getLast?_retainCommitments,
    recordTipBurnSpends, recordTipMiningCompetition]
  rw [updateTip_push, updateTip_push, tip_push, tip_push]
  · rfl
  all_goals rfl

/-- **What an append produces.** -/
theorem append_fst : (engine.append H advantage input).1 =
    deriveSnapshot H advantage engine.snapshots.tip engine.snapshots.consensusHashes
      engine.snapshots.effectiveWinnerSeed (engine.sampled input) input := by
  unfold deriveSnapshot
  cases helect : elect H advantage (engine.sampled input) engine.snapshots.tip
      engine.snapshots.effectiveWinnerSeed input.block.hash with
  | error e => simp [append, helect]
  | ok election =>
    cases hexpected : checkedAdd engine.snapshots.tip.bitcoinHeight 1 with
    | none => simp [append, helect, appendWithOperations, hexpected]
    | some expectedHeight =>
      by_cases hheight : input.block.height = expectedHeight
      · rw [engine.append_eq_of_ok H advantage input helect hexpected hheight]
        simp only [ok_bind, okOr_some, ensure_of_true hheight, pure_eq_ok]
        rfl
      · simp [append, helect, appendWithOperations, hexpected, hheight]

variable {snapshot : SortitionSnapshot}

theorem append_snd (h : (engine.append H advantage input).1 = .ok snapshot) :
    (engine.append H advantage input).2 = engine.extended input snapshot := by
  have hderive := h
  rw [append_fst] at hderive
  simp only [deriveSnapshot, bind_eq_ok, okOr_eq_ok, ensure_eq_ok] at hderive
  obtain ⟨election, helect, expectedHeight, hexpected, -, hheight, -⟩ := hderive
  rw [engine.append_eq_of_ok H advantage input helect hexpected hheight] at h ⊢
  rw [← Except.ok.inj h]

theorem append_height (h : (engine.append H advantage input).1 = .ok snapshot) :
    snapshot.bitcoinHeight = engine.snapshots.tip.bitcoinHeight + 1 ∧
      input.block.height = engine.snapshots.tip.bitcoinHeight + 1 := by
  rw [append_fst] at h
  simp only [deriveSnapshot, bind_eq_ok, okOr_eq_ok, ensure_eq_ok, checkedAdd,
    Option.ite_none_right_eq_some, Option.some.injEq, return_eq_ok] at h
  obtain ⟨election, -, expectedHeight, ⟨-, rfl⟩, -, hheight, rfl⟩ := h
  exact ⟨hheight, hheight⟩

end SortitionEngine

end NanoStacks.Sortition
