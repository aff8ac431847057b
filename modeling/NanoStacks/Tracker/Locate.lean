import NanoStacks.Tracker.Elected

/-!
# Finding a burn view

A Stacks block names its burn view by hash. `locateView` answers with the height the tracker derived
that hash at; where it has not, the tracker walks its own Bitcoin blocks on before it answers. What it
read stays read when the walk fails, so every function here returns the tracker it leaves beside its
result. Whatever happens, the snapshots held stay numbered by their heights (`Numbered.locateView`).
-/

namespace NanoStacks.Tracker

open Bitcoin Sortition Result SortitionTracker

/-- How many Bitcoin blocks one walk may read. -/
def catchUpLimit : Nat := 144

/-! ## The texts of errors -/

/-- How a sortition error is printed inside a tracker's. -/
def debugSortitionError : SortitionError → String
  | .emptyCommitmentWindow => "EmptyCommitmentWindow"
  | .invalidCommitmentWindow => "InvalidCommitmentWindow"
  | .windowTooLong => "WindowTooLong"
  | .burnOverflow => "BurnOverflow"
  | .zeroBurnDistribution => "ZeroBurnDistribution"
  | .zeroRewardCycleLength => "ZeroRewardCycleLength"
  | .heightOverflow => "HeightOverflow"
  | .unexpectedHeight expected actual =>
    s!"UnexpectedHeight \x7b expected: {expected}, actual: {actual} \x7d"
  | .reorgBeyondChainRoot rootBitcoinHeight =>
    s!"ReorgBeyondChainRoot \x7b root_bitcoin_height: {rootBitcoinHeight} \x7d"
  | .reorgTooDeep depth limit => s!"ReorgTooDeep \x7b depth: {depth}, limit: {limit} \x7d"

def TrackerError.display : TrackerError → String
  | .seed reason => "sortition seed: " ++ reason
  | .bitcoin reason => "burnchain: " ++ reason
  | .sortition error => "sortition: " ++ debugSortitionError error
  | .boundaryNotWinner consensusHash bitcoinHeight =>
    "checkpoint boundary " ++ consensusHash.hex ++
      s!" at burn {bitcoinHeight} did not elect a winner"
  | .boundaryBlockMismatch bitcoinHeight =>
    s!"checkpoint boundary snapshot and Bitcoin block disagree at burn {bitcoinHeight}"
  | .boundaryWinnerCommitmentMissing bitcoinHeight winnerTxid =>
    s!"checkpoint boundary at burn {bitcoinHeight} names winning commitment " ++ winnerTxid.hex ++
      ", but that eligible commitment is absent"
  | .boundaryWinnerKeyUnavailable bitcoinHeight keyBlockHeight keyTransactionIndex =>
    s!"checkpoint boundary winner at burn {bitcoinHeight} names absent leader key {keyBlockHeight}:{keyTransactionIndex}"
  | .boundaryWinnerMismatch bitcoinHeight field =>
    s!"checkpoint boundary snapshot and winning commitment disagree on {field} at burn {bitcoinHeight}"

/-! ## Walking to a view -/

/-- A derived snapshot in the shape proposals are authenticated with. -/
structure SortitionInfo where
  bitcoinBlockHash : BitcoinHeaderHash
  bitcoinHeight : Nat
  bitcoinTimestamp : Nat
  sortitionId : SortitionId
  parentSortitionId : SortitionId
  consensusHash : ConsensusHash
  wasSortition : Bool
  minerPublicKeyHash : Option Hash160
  stacksParentConsensusHash : Option ConsensusHash
  lastSortitionConsensusHash : Option ConsensusHash
  committedBlockHash : Option (Bytes 32)
  vrfSeed : Option (Bytes 32)
  miningCompetition : Option MiningCompetition

namespace SortitionTracker

variable (tracker : SortitionTracker)

/-- Record the payout address computed for a waterfall cycle. -/
def recordWaterfallPayout (bitcoinHeight observedAt : Nat) (recipient : PoxAddress) :
    SortitionTracker :=
  { tracker with
    waterfallPayouts := tracker.waterfallPayouts.insert bitcoinHeight ⟨observedAt, recipient⟩ }

def sortitionInfoAt (bitcoinHeight : Nat) : Option SortitionInfo := do
  let snapshot ← tracker.snapshotAt bitcoinHeight
  return {
    bitcoinBlockHash := snapshot.bitcoinHeaderHash
    bitcoinHeight := snapshot.bitcoinHeight
    bitcoinTimestamp := snapshot.bitcoinTimestamp
    sortitionId := snapshot.sortitionId
    parentSortitionId := snapshot.parentSortitionId
    consensusHash := snapshot.consensusHash
    wasSortition := snapshot.winnerTxid.isSome
    minerPublicKeyHash := snapshot.winnerSigningKeyHash
    stacksParentConsensusHash := snapshot.parentBitcoinHeight.bind tracker.consensusHashAt
    lastSortitionConsensusHash :=
      (tracker.previousSortitionHeight snapshot.bitcoinHeight).bind tracker.consensusHashAt
    committedBlockHash := snapshot.committedBlockHash
    vrfSeed := snapshot.winnerVrfSeed
    miningCompetition := snapshot.miningCompetition }

section Walking

variable (H : Hashes) (advantage : CarryoverAdvantage) (blockAt : Nat → Except String BitcoinBlock)
  (payouts : PayoutSchedule)

/-- One block of `prime`, with what was noted before it fails. -/
def readHeight (bitcoinHeight : Nat) : Except TrackerError Unit × SortitionTracker :=
  match blockAt bitcoinHeight with
  | .error error => (.error (.bitcoin error), tracker)
  | .ok block =>
    let registered : SortitionTracker := { tracker.registerKeys block with engine := tracker.engine }
    match registered.payoutsAt payouts bitcoinHeight with
    | .error error => (.error error, registered)
    | .ok payouts =>
      let ((accepted, commitments), noted) := registered.acceptedBlock block payouts
      let read : SortitionTracker := { noted with engine := tracker.engine }
      match (if bitcoinHeight = read.tip.bitcoinHeight then read.recoverSeedFrom accepted
        else .ok read) with
      | .error error => (.error error, read)
      | .ok seeded =>
        (.ok (), { seeded with engine := seeded.engine.prime bitcoinHeight commitments })

/-- The loop of `prime`. -/
def readHeights : List Nat → SortitionTracker → Except TrackerError Unit × SortitionTracker
  | [], tracker => (.ok (), { tracker with primed := true })
  | height :: heights, tracker =>
    match tracker.readHeight blockAt payouts height with
    | (.error error, tracker) => (.error error, tracker)
    | (.ok (), tracker) => readHeights heights tracker

/-- `prime`, with the tracker it leaves when it fails. -/
def readWindow : Except TrackerError Unit × SortitionTracker :=
  readHeights blockAt payouts tracker.primingHeights tracker

/-- `walk`, with nothing to stop it before its bound. -/
def walkOn : Nat → SortitionTracker → Except TrackerError Unit × SortitionTracker
  | 0, tracker => (.ok (), tracker)
  | count + 1, tracker =>
    match checkedAdd tracker.tip.bitcoinHeight 1 with
    | none => (.error (.sortition .heightOverflow), tracker)
    | some height =>
      match blockAt height with
      | .error error => (.error (.bitcoin error), tracker)
      | .ok block =>
        match tracker.advance H advantage block payouts with
        | (.error error, tracker) => (.error error, tracker)
        | (.ok _, tracker) => walkOn count tracker

/-- The height of a view, and how many blocks were walked to find it. -/
def locateView (view : ConsensusHash) (burnchainTip limit : Nat) :
    Except TrackerError (Option Nat × Nat) × SortitionTracker :=
  match (if tracker.primed then (.ok (), tracker) else tracker.readWindow blockAt payouts) with
  | (.error error, tracker) => (.error error, tracker)
  | (.ok (), tracker) =>
    match tracker.heightOfConsensusHash view with
    | some height => (.ok (some height, 0), tracker)
    | none =>
      let room := min limit (burnchainTip - tracker.tip.bitcoinHeight)
      match walkOn H advantage blockAt payouts room tracker with
      | (.error error, tracker) => (.error error, tracker)
      | (.ok (), tracker) => (.ok (tracker.heightOfConsensusHash view, room), tracker)

end Walking

end SortitionTracker

section

variable (tracker : SortitionTracker) (blockAt : Nat → Except String BitcoinBlock)
  (payouts : PayoutSchedule)

/-- `readHeight` is `primeHeight` with the tracker a failure leaves. -/
theorem primeHeight_eq (height : Nat) :
    tracker.primeHeight blockAt payouts height
      = (tracker.readHeight blockAt payouts height).1.map
          fun _ => (tracker.readHeight blockAt payouts height).2 := by
  unfold primeHeight primeBlock readHeight
  cases blockAt height with
  | error reason => rfl
  | ok block =>
    simp only [Except.mapError, ok_bind]
    cases (tracker.registerKeys block).payoutsAt payouts height with
    | error error => rfl
    | ok resolved =>
      simp only [ok_bind]
      generalize (ite (height = _) _ _ : Except TrackerError SortitionTracker) = seeded
      cases seeded <;> rfl

/-- `readWindow` is `prime` with the tracker a failure leaves. -/
theorem prime_eq_readWindow :
    tracker.prime blockAt payouts = (tracker.readWindow blockAt payouts).1.map
      fun _ => (tracker.readWindow blockAt payouts).2 := by
  unfold prime readWindow
  generalize tracker.primingHeights = heights
  induction heights generalizing tracker with
  | nil => rfl
  | cons height heights ih =>
    rw [List.foldlM_cons, primeHeight_eq, readHeights]
    rcases hread : tracker.readHeight blockAt payouts height with ⟨outcome, next⟩
    cases outcome with
    | error error => rfl
    | ok => exact ih next

end

/-! ## What stays -/

section Numbered

variable {chain : SnapshotChain}

theorem Numbered.updateTip (h : Numbered chain) {f : SortitionSnapshot → SortitionSnapshot}
    (hf : (f chain.tip).bitcoinHeight = chain.tip.bitcoinHeight) : Numbered (chain.updateTip f) := by
  have hlast : chain.snapshots.dropLast ++ [chain.tip] = chain.snapshots :=
    List.dropLast_append_getLast chain.snapshots_ne_nil
  have hheights : (chain.updateTip f).snapshots.map (·.bitcoinHeight)
      = chain.snapshots.map (·.bitcoinHeight) := by
    conv_rhs => rw [← hlast]
    simp [SnapshotChain.updateTip, hf]
  obtain ⟨first, hfirst⟩ := h
  have hlength : (chain.updateTip f).snapshots.length = chain.snapshots.length := by
    simpa using congrArg List.length hheights
  exact ⟨first, by rw [hheights, hfirst, hlength]⟩

theorem Numbered.keepFrom (h : Numbered chain) (height : Nat) : Numbered (chain.keepFrom height) := by
  unfold SnapshotChain.keepFrom
  split_ifs
  · exact h
  · exact h

theorem Numbered.prime {engine : SortitionEngine} (h : Numbered engine.snapshots)
    (bitcoinHeight : Nat) (commitments : CommitmentWindowBlock) :
    Numbered (engine.prime bitcoinHeight commitments).snapshots := by
  unfold SortitionEngine.prime
  dsimp only
  split_ifs
  · simp only [SortitionEngine.recordSpends, SnapshotChain.recordTipBurnSpends]
    exact h.updateTip rfl
  · exact h

theorem Numbered.advance {tracker : SortitionTracker} (h : Numbered tracker.engine.snapshots)
    (H : Hashes) (advantage : CarryoverAdvantage) (block : BitcoinBlock)
    (payouts : PayoutSchedule) :
    Numbered (tracker.advance H advantage block payouts).2.engine.snapshots := by
  rcases advance_snapshots H advantage tracker block payouts with hsame | ⟨snapshot, hheight, hpush⟩
  · exact hsame ▸ h
  · exact hpush ▸ h.push hheight

variable (H : Hashes) (advantage : CarryoverAdvantage) (blockAt : Nat → Except String BitcoinBlock)
  (payouts : PayoutSchedule) {tracker : SortitionTracker}

theorem walkOn_invariant (Inv : SortitionTracker → Prop)
    (hadvance : ∀ tracker block, Inv tracker → Inv (tracker.advance H advantage block payouts).2)
    (h : Inv tracker) (count : Nat) : Inv (walkOn H advantage blockAt payouts count tracker).2 := by
  induction count generalizing tracker with
  | zero => exact h
  | succ count ih =>
    unfold walkOn
    split
    · exact h
    · split
      · exact h
      · rename_i block _
        have hnext := hadvance tracker block h
        split
        all_goals
          rename_i hstep
          rw [hstep] at hnext
        · exact hnext
        · exact ih hnext

section

variable (h : Numbered tracker.engine.snapshots)

include h

theorem Numbered.readHeight (bitcoinHeight : Nat) :
    Numbered (tracker.readHeight blockAt payouts bitcoinHeight).2.engine.snapshots := by
  unfold SortitionTracker.readHeight
  split
  · exact h
  · dsimp only
    split
    · exact h
    · split
      · exact h
      · rename_i seeded hseeded
        refine Numbered.prime ?_ _ _
        split_ifs at hseeded
        · obtain ⟨seed, key, rfl, -⟩ := recoverSeedFrom_eq hseeded
          simp only [fillTip]
          exact h.updateTip rfl
        · obtain rfl := Except.ok.inj hseeded
          exact h

theorem Numbered.readHeights (heights : List Nat) :
    Numbered (readHeights blockAt payouts heights tracker).2.engine.snapshots := by
  induction heights generalizing tracker with
  | nil => exact h
  | cons height heights ih =>
    have hread := h.readHeight blockAt payouts height
    unfold readHeights
    split
    all_goals
      rename_i hstep
      rw [hstep] at hread
    · exact hread
    · exact ih hread

theorem Numbered.walkOn (count : Nat) :
    Numbered (walkOn H advantage blockAt payouts count tracker).2.engine.snapshots :=
  walkOn_invariant H advantage blockAt payouts (fun tracker => Numbered tracker.engine.snapshots)
    (fun _ block h => h.advance H advantage block payouts) h count

/-- **Whatever a search comes to, the snapshots held are still numbered by their heights.** -/
theorem Numbered.locateView (view : ConsensusHash) (burnchainTip limit : Nat) :
    Numbered (tracker.locateView H advantage blockAt payouts view burnchainTip
      limit).2.engine.snapshots := by
  unfold SortitionTracker.locateView
  have hprimed : Numbered (if tracker.primed then ((.ok () : Except TrackerError Unit), tracker)
      else tracker.readWindow blockAt payouts).2.engine.snapshots := by
    split_ifs
    · exact h
    · exact h.readHeights blockAt payouts _
  split
  · rename_i hstep
    rw [hstep] at hprimed
    exact hprimed
  · rename_i primed hstep
    rw [hstep] at hprimed
    dsimp only at hprimed
    split
    · exact hprimed
    · have hwalk := hprimed.walkOn H advantage blockAt payouts
        (min limit (burnchainTip - primed.tip.bitcoinHeight))
      dsimp only
      split
      all_goals
        rename_i hwalked
        rw [hwalked] at hwalk
        exact hwalk

end

end Numbered

/-! ## Once the window has been read -/

section Primed

variable (H : Hashes) (advantage : CarryoverAdvantage) (blockAt : Nat → Except String BitcoinBlock)
  (payouts : PayoutSchedule) {tracker : SortitionTracker}

theorem advance_primed (h : tracker.primed = true) (block : BitcoinBlock) :
    (tracker.advance H advantage block payouts).2.primed = true := by
  unfold advance
  split_ifs
  · exact h
  · cases tracker.payoutsAt payouts block.height with
    | error e => exact h
    | ok resolved =>
      show ((tracker.openCycle block resolved).registerKeys block).primed = true
      unfold TrackerNotes.registerKeys TrackerNotes.openCycle
      split_ifs <;> exact h

theorem walkOn_primed (h : tracker.primed = true) (count : Nat) :
    (walkOn H advantage blockAt payouts count tracker).2.primed = true :=
  walkOn_invariant H advantage blockAt payouts (·.primed = true)
    (fun _ block h => advance_primed H advantage payouts h block) h count

variable {tracker' : SortitionTracker}

theorem readHeights_primed {heights : List Nat}
    (h : readHeights blockAt payouts heights tracker = (.ok (), tracker')) :
    tracker'.primed = true := by
  induction heights generalizing tracker with
  | nil =>
    simp only [readHeights, Prod.mk.injEq, true_and] at h
    exact h ▸ rfl
  | cons height heights ih =>
    unfold readHeights at h
    split at h
    · simp at h
    · exact ih h

/-- A tracker that has read its window keeps that, and one that finds a view has read it. -/
theorem locateView_primed {view : ConsensusHash} {burnchainTip limit : Nat}
    {result : Except TrackerError (Option Nat × Nat)}
    (h : tracker.locateView H advantage blockAt payouts view burnchainTip limit = (result, tracker'))
    (hor : tracker.primed = true ∨ result.isOk = true) : tracker'.primed = true := by
  unfold locateView at h
  have hprimed : ∀ primed,
      (if tracker.primed then ((.ok () : Except TrackerError Unit), tracker)
        else tracker.readWindow blockAt payouts) = (.ok (), primed) → primed.primed = true := by
    intro primed hstep
    split_ifs at hstep with hread
    · simp only [Prod.mk.injEq, true_and] at hstep
      exact hstep ▸ hread
    · exact readHeights_primed blockAt payouts hstep
  split at h
  · rename_i hstep
    simp only [Prod.mk.injEq] at h
    obtain ⟨rfl, rfl⟩ := h
    have hread := hor.resolve_right (by simp [Except.isOk, Except.toBool])
    simp [hread] at hstep
  · rename_i primed hstep
    have hread := hprimed primed hstep
    split at h
    · simp only [Prod.mk.injEq] at h
      exact h.2 ▸ hread
    · have hwalk := walkOn_primed H advantage blockAt payouts hread
        (min limit (burnchainTip - primed.tip.bitcoinHeight))
      dsimp only at h
      split at h
      all_goals
        rename_i hwalked
        rw [hwalked] at hwalk
        simp only [Prod.mk.injEq] at h
        exact h.2 ▸ hwalk

end Primed

/-! ## What is found -/

theorem keepFrom_answers (tracker : SortitionTracker) (height : Nat) :
    (tracker.keepFrom height).tip = tracker.tip ∧
      (tracker.keepFrom height).primed = tracker.primed ∧
      (tracker.keepFrom height).snapshotAt = tracker.snapshotAt ∧
      (tracker.keepFrom height).heightOfConsensusHash = tracker.heightOfConsensusHash ∧
      (tracker.keepFrom height).consensusHashAt = tracker.consensusHashAt ∧
      (tracker.keepFrom height).previousSortitionHeight = tracker.previousSortitionHeight := by
  unfold keepFrom SnapshotChain.keepFrom
  split_ifs <;> exact ⟨rfl, rfl, rfl, rfl, rfl, rfl⟩

theorem locateView_of_held {tracker : SortitionTracker} {view : ConsensusHash} {height : Nat}
    (hprimed : tracker.primed = true) (hheld : tracker.heightOfConsensusHash view = some height)
    (H : Hashes) (advantage : CarryoverAdvantage) (blockAt : Nat → Except String BitcoinBlock)
    (payouts : PayoutSchedule) (burnchainTip limit : Nat) :
    tracker.locateView H advantage blockAt payouts view burnchainTip limit
      = (.ok (some height, 0), tracker) := by
  simp [locateView, hprimed, hheld]

end NanoStacks.Tracker
