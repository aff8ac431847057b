import NanoStacks.Tracker.Capture
import NanoStacks.Tracker.Resuming

/-!
# Trackers that were loaded from files

What holds of a tracker when it has just been loaded (`Loaded`), and what holds of it as long as it
walks (`Coherent`): its reward-cycle history is unbroken and is the one its tip was identified with,
and its consensus hashes end at its tip. This is what lets a tracker be written down by one snapshot
and read back.
-/

namespace NanoStacks.Tracker

open Bitcoin Sortition Result SortitionEngine List PoxId

variable (H : Hashes) (advantage : CarryoverAdvantage)

/-- What holds of a tracker that walks on from files. -/
structure Coherent (tracker : SortitionTracker) : Prop where
  poxId : tracker.tip.poxId = tracker.poxId
  unbroken : ∃ cycles, 1 ≤ cycles ∧ tracker.poxId = unbroken cycles
  sortitionId : tracker.tip.sortitionId
    = sortitionId H tracker.tip.bitcoinHeaderHash tracker.tip.poxId
  hashes : tracker.engine.snapshots.consensusHashes.getLast? = some tracker.tip.consensusHash

/-- What holds of a tracker that has just been loaded. -/
structure Loaded (tracker : SortitionTracker) : Prop extends Coherent H tracker where
  root : tracker.engine.snapshots.snapshots = [tracker.tip]
  needed : tracker.engine.snapshots.neededFrom = none
  window : tracker.engine.commitmentWindow = []
  commitments : tracker.commitments = ∅
  floor : tracker.commitmentFloor = none
  spent : tracker.keys.spent = ∅
  payouts : ∀ entry ∈ tracker.waterfallPayouts.entries,
    entry.2.observedAt ≤ tracker.tip.bitcoinHeight
  winnerVrfPublicKey : tracker.tip.winnerVrfPublicKey = none

variable {tracker : SortitionTracker}

theorem Loaded.unprimed (h : Loaded H tracker) : Unprimed tracker :=
  ⟨⟨h.root, by rw [h.window]; exact Nat.zero_le _⟩, h.commitments⟩

theorem spent_registerRows (keys : LeaderKeys) (rows : List CapturedLeaderKey) :
    (registerRows keys rows).spent = keys.spent := by
  induction rows generalizing keys with
  | nil => rfl
  | cons row rows ih => exact ih _

/-- A row is read with the payouts that had been observed by then. -/
theorem observed_readWaterfallPayouts (capture : Capture) (through : Nat) :
    ∀ entry ∈ (readWaterfallPayouts capture through).entries, entry.2.observedAt ≤ through := by
  set Observed := fun payouts : OrdMap Nat WaterfallPayout =>
    ∀ entry ∈ payouts.entries, entry.2.observedAt ≤ through
  have hinsert : ∀ {payouts key} {payout : WaterfallPayout}, Observed payouts →
      payout.observedAt ≤ through → Observed (payouts.insert key payout) := by
    intro payouts key payout h hobserved entry hmem
    rcases OrdMap.mem_insert_entries _ hmem with rfl | hmem
    · exact hobserved
    · exact h entry hmem
  refine List.foldlRecOn (motive := Observed) _ _
    (List.foldlRecOn (motive := Observed) _ _ (by simp [Observed, OrdMap.empty]) ?_) ?_
  · intro payouts h row hrow
    unfold readRowPayout
    split
    · exact h
    · dsimp only
      split_ifs
      · exact hinsert h (of_decide_eq_true (List.mem_filter.1 hrow).2)
      · exact h
  · intro payouts h row hrow
    exact hinsert h (of_decide_eq_true (List.mem_filter.1 hrow).2)

/-! ## Loading -/

variable {header : BitcoinHeaderHash}

theorem unbrokenPoxIdFor_eq_some {identifier : SortitionId} {maxCycles : Nat} {poxId : PoxId}
    (h : unbrokenPoxIdFor H header identifier maxCycles = some poxId) :
    (∃ cycles, 1 ≤ cycles ∧ poxId = unbroken cycles) ∧
      sortitionId H header poxId = identifier := by
  have hfound := find?_some h
  obtain ⟨cycles, hcycles, heq⟩ := mem_map.1 (mem_of_find?_eq_some h)
  rw [mem_range'_1] at hcycles
  exact ⟨⟨cycles, hcycles.1, heq.symm⟩, of_decide_eq_true hfound⟩

theorem unbrokenPoxIdFor_of_shortest {cycles maxCycles : Nat}
    (hpos : 1 ≤ cycles) (hle : cycles ≤ maxCycles) (hshortest : ∀ fewer < cycles, 1 ≤ fewer →
      sortitionId H header (unbroken fewer) ≠ sortitionId H header (unbroken cycles)) :
    unbrokenPoxIdFor H header (sortitionId H header (unbroken cycles)) maxCycles
      = some (unbroken cycles) := by
  obtain ⟨before, rfl⟩ : ∃ before, cycles = 1 + before := ⟨cycles - 1, by omega⟩
  obtain ⟨after, rfl⟩ : ∃ after, maxCycles = before + (after + 1) :=
    ⟨maxCycles - (1 + before), by omega⟩
  rw [unbrokenPoxIdFor, ← range'_append_1, map_append, find?_append,
    range'_succ, map_cons, find?_cons_of_pos (by simp)]
  have hnone : ((range' 1 before).map unbroken).find?
      (sortitionId H header · = sortitionId H header (unbroken (1 + before))) = none := by
    rw [find?_eq_none]
    intro poxId hmem
    obtain ⟨fewer, hfewer, rfl⟩ := mem_map.1 hmem
    rw [mem_range'_1] at hfewer
    simpa using hshortest fewer hfewer.2 hfewer.1
  rw [hnone, Option.none_or]

/-- The heights a row says elected somebody below it. -/
def CapturedSnapshot.remembered (seed : CapturedSnapshot) : List Nat :=
  if seed.sortitionsBelowWindow.isEmpty then seed.lastSortitionHeight.toList
  else (seed.sortitionsBelowWindow.insertionSort (· ≤ ·)).dedup

/-- The tracker a row is loaded as. -/
def loadedTracker (capture : Capture) (seed : CapturedSnapshot) (snapshot : SortitionSnapshot)
    (history : List ConsensusHash) : SortitionTracker where
  poxId := snapshot.poxId
  keys := registerRows .new (registeredEntries (readLeaderKeys capture.leaderKeys))
  waterfallPayouts := readWaterfallPayouts capture seed.blockHeight
  primed := false
  commitments := ∅
  commitmentFloor := none
  engine := ⟨⟨[snapshot], history, seed.remembered, none, SnapshotChain.singleton_ne_nil snapshot⟩, []⟩

variable {seed : CapturedSnapshot} {history : List ConsensusHash}

theorem trackerFromCaptureSeed_eq_ok {capture : Capture} :
    trackerFromCaptureSeed H capture seed history = .ok tracker ↔
      ∃ snapshot, seedSnapshot H seed = .ok snapshot ∧
        history.getLast? = some snapshot.consensusHash ∧
        tracker = loadedTracker capture seed snapshot history := by
  simp only [trackerFromCaptureSeed, SortitionTracker.new, withHistory,
    SnapshotChain.withHistory, bind_eq_ok, okOr_eq_ok, Option.map_eq_some_iff,
    Option.ite_none_right_eq_some, Option.some.injEq, return_eq_ok]
  constructor
  · rintro ⟨snapshot, hseed, unseeded, ⟨engine, ⟨chain, ⟨hhistory, rfl⟩, rfl⟩, rfl⟩, rfl⟩
    refine ⟨snapshot, hseed, hhistory, ?_⟩
    unfold loadedTracker CapturedSnapshot.remembered
    split_ifs <;> rfl
  · rintro ⟨snapshot, hseed, hhistory, rfl⟩
    refine ⟨snapshot, hseed, _, ⟨_, ⟨_, ⟨hhistory, rfl⟩, rfl⟩, rfl⟩, ?_⟩
    unfold loadedTracker CapturedSnapshot.remembered
    split_ifs <;> rfl

variable {snapshot : SortitionSnapshot}

/-- A row is loaded with the shortest unbroken reward-cycle history that identifies it. -/
theorem seedSnapshot_spec (h : seedSnapshot H seed = .ok snapshot) :
    (∃ cycles, 1 ≤ cycles ∧ snapshot.poxId = unbroken cycles) ∧
      snapshot.sortitionId = sortitionId H snapshot.bitcoinHeaderHash snapshot.poxId ∧
      snapshot.winnerVrfPublicKey = none ∧ snapshot.bitcoinHeight = seed.blockHeight := by
  simp only [seedSnapshot, bind_eq_ok, okOr_eq_ok, return_eq_ok] at h
  obtain ⟨-, -, -, -, poxId, hpoxId, rfl⟩ := h
  obtain ⟨hunbroken, hidentifier⟩ := unbrokenPoxIdFor_eq_some H hpoxId
  exact ⟨hunbroken, hidentifier.symm, rfl, rfl⟩

theorem trackerFromCaptureSeed_loaded {capture : Capture}
    (h : trackerFromCaptureSeed H capture seed history = .ok tracker) : Loaded H tracker := by
  obtain ⟨snapshot, hseed, hhistory, rfl⟩ := (trackerFromCaptureSeed_eq_ok H).1 h
  obtain ⟨hunbroken, hidentifier, hkey, hheight⟩ := seedSnapshot_spec H hseed
  exact
    { poxId := rfl
      unbroken := hunbroken
      sortitionId := hidentifier
      hashes := hhistory
      root := rfl
      needed := rfl
      window := rfl
      commitments := rfl
      floor := rfl
      spent := spent_registerRows _ _
      payouts := fun entry hmem =>
        (observed_readWaterfallPayouts capture _ entry hmem).trans_eq hheight.symm
      winnerVrfPublicKey := hkey }

/-! ## Priming -/

section Primed

variable {payouts : PayoutSchedule}

theorem primeTip_eq_ok {before : TrackerNotes} {engine : SortitionEngine}
    {tracker' : SortitionTracker} {block : BitcoinBlock}
    (hheight : block.height = engine.snapshots.tip.bitcoinHeight) :
    SortitionTracker.primeTip payouts ⟨before, engine⟩ block = .ok tracker' ↔
      ∃ resolved, before.payoutsAt payouts block.height = .ok resolved ∧
        ∃ seeded, SortitionTracker.recoverSeedFrom
            ⟨((before.registerKeys block).acceptedBlock block resolved).2, engine⟩
            ((before.registerKeys block).acceptedBlock block resolved).1.1 = .ok seeded ∧
          tracker' = ⟨seeded.toTrackerNotes, seeded.engine.prime engine.snapshots.tip.bitcoinHeight
            ((before.registerKeys block).acceptedBlock block resolved).1.2⟩ := by
  have hsame : (before.registerKeys block).payoutsAt payouts engine.snapshots.tip.bitcoinHeight
      = before.payoutsAt payouts engine.snapshots.tip.bitcoinHeight := rfl
  have htip : ∀ notes : TrackerNotes, SortitionTracker.tip ⟨notes, engine⟩ = engine.snapshots.tip :=
    fun _ => rfl
  simp only [SortitionTracker.primeTip, SortitionTracker.primeBlock, htip, hsame, hheight,
    bind_eq_ok, return_eq_ok, if_true]
  refine exists_congr fun resolved => and_congr_right fun _ => exists_congr fun seeded => ?_
  rw [eq_comm (a := tracker')]

/-- The root of a tracker with what priming fills in. -/
def filledRoot (root : SortitionSnapshot) (seed key : Option (Bytes 32))
    (spends : Option BurnSpends) : SortitionSnapshot :=
  { root with winnerVrfSeed := seed, winnerVrfPublicKey := key, burnSpends := spends }

theorem prime_at_tip (engine : SortitionEngine) (commitments : CommitmentWindowBlock) :
    engine.prime engine.snapshots.tip.bitcoinHeight commitments =
      ⟨engine.snapshots.updateTip fun tip =>
          { tip with burnSpends := spendsOf commitments tip.winnerTxid },
        retainCommitments engine.commitmentWindow commitments⟩ := by
  unfold prime
  simp only [if_true, recordSpends, SnapshotChain.recordTipBurnSpends,
    spendsAtTip, getLast?_retainCommitments]
  congr 1

end Primed

/-! ## Walking on -/

section Walking

variable {H advantage}

theorem append_identified {engine : SortitionEngine} {input : AppendInput}
    (hok : (engine.append H advantage input).1 = .ok snapshot) :
    snapshot.poxId = input.poxId ∧ snapshot.bitcoinHeaderHash = input.block.hash ∧
      snapshot.sortitionId = sortitionId H snapshot.bitcoinHeaderHash snapshot.poxId := by
  rw [append_fst] at hok
  simp only [deriveSnapshot, bind_eq_ok, return_eq_ok] at hok
  obtain ⟨election, -, -, -, -, -, rfl⟩ := hok
  exact ⟨rfl, rfl, rfl⟩

theorem openCycle_unbroken {notes : TrackerNotes} (block : BitcoinBlock) (payouts : PayoutSchedule)
    (h : ∃ cycles, 1 ≤ cycles ∧ notes.poxId = unbroken cycles) :
    ∃ cycles, 1 ≤ cycles ∧ (notes.openCycle block payouts).poxId = unbroken cycles := by
  obtain ⟨cycles, hpos, hpoxId⟩ := h
  unfold TrackerNotes.openCycle
  split_ifs
  · refine ⟨cycles + 1, by omega, ?_⟩
    show notes.poxId.extendWithAnchor true = _
    rw [hpoxId, extendWithAnchor, unbroken, unbroken, replicate_succ']
  · exact ⟨cycles, hpos, hpoxId⟩

theorem Coherent.advance {tracker : SortitionTracker} (h : Coherent H tracker)
    {block : BitcoinBlock} {payouts : PayoutSchedule}
    (hok : (tracker.advance H advantage block payouts).1 = .ok snapshot) :
    Coherent H (tracker.advance H advantage block payouts).2 ∧
      (tracker.advance H advantage block payouts).2.tip = snapshot := by
  obtain ⟨-, resolved, hresolved, happend⟩ := (advance_eq_ok H advantage).1 hok
  obtain ⟨hpoxId, -, hidentified⟩ := append_identified happend
  rw [TrackerNotes.prepare_eq] at hpoxId
  have htip := (advance_tip H advantage hok).1
  refine ⟨⟨?_, ?_, ?_, ?_⟩, htip⟩
  · rw [htip, hpoxId, advance_snd H advantage hok hresolved, TrackerNotes.prepare_eq]
  · rw [advance_snd H advantage hok hresolved, TrackerNotes.prepare_eq]
    exact openCycle_unbroken block resolved h.unbroken
  · rw [htip]
    exact hidentified
  · rw [htip, advance_snd H advantage hok hresolved]
    exact getLast?_concat

theorem Coherent.walk {tracker tracker' : SortitionTracker} (h : Coherent H tracker)
    {inputs : List AdvanceInput} {derived : List SortitionSnapshot}
    (hwalk : tracker.walk H advantage inputs = .ok (derived, tracker')) : Coherent H tracker' :=
  SortitionTracker.walk_invariant (Coherent H) (fun _ _ _ h hok => (h.advance hok).1) h hwalk

end Walking

end NanoStacks.Tracker
