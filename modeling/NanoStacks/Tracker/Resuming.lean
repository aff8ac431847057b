import NanoStacks.Tracker.Reading
import NanoStacks.Tracker.Surviving

/-!
# A tracker resumed at a snapshot of another

Priming and walking both read one block after the other (`prime_eq`, `walk_reads`), so what two
trackers note of the same blocks is compared by `NotesAgree`. `Resumes` puts the engines beside it:
the resumed tracker stands on a snapshot that continues like the other's, has the same consensus
hashes and the same last five blocks of commitments, and holds the winning seed last won. Then it
derives the same snapshots, block after block (`Resumes.walk`).
-/

namespace NanoStacks.Tracker

open Bitcoin Sortition Result Suffix SortitionTracker List TrackerNotes

variable (H : Hashes) (advantage : CarryoverAdvantage)

/-! ## Priming as reading -/

theorem foldl_retainCommitments (windows retained : List CommitmentWindowBlock)
    (h : retained.length ≤ retainedCommitmentBlocks) :
    windows.foldl retainCommitments retained
      = (retained ++ windows).rtake retainedCommitmentBlocks := by
  induction windows generalizing retained with
  | nil => rw [foldl_nil, append_nil, rtake_of_length_le h]
  | cons window windows ih =>
    rw [foldl_cons, retainCommitments_eq h,
      ih _ ((length_rtake _ _).trans_le (Nat.min_le_left _ _)), rtake_append_rtake, append_assoc,
      singleton_append]

section Priming

variable {chain : Nat → BitcoinBlock} (payouts : PayoutSchedule)

/-- The tracker with other commitments in its window. -/
def SortitionTracker.withWindow (tracker : SortitionTracker) (notes : TrackerNotes)
    (window : List CommitmentWindowBlock) : SortitionTracker :=
  ⟨notes, ⟨tracker.engine.snapshots, window⟩⟩

variable {height : Nat} {tracker : SortitionTracker}

theorem primeHeight_below (hheight : (chain height).height = height)
    (hbelow : height ≠ tracker.tip.bitcoinHeight) :
    tracker.primeHeight (fun height => .ok (chain height)) payouts height =
      (fun read => tracker.withWindow read.2
        (retainCommitments tracker.engine.commitmentWindow read.1)) <$>
        tracker.toTrackerNotes.read (chain height) payouts := by
  have hsame : (tracker.registerKeys (chain height)).payoutsAt payouts height
      = tracker.payoutsAt payouts height := rfl
  simp only [primeHeight, Except.mapError, ok_bind, primeBlock, TrackerNotes.read, hheight, hsame]
  cases tracker.payoutsAt payouts height with
  | error e => rfl
  | ok resolved =>
    have htip : ∀ notes : TrackerNotes,
        tip { notes with engine := tracker.engine } = tracker.tip := fun _ => rfl
    simp only [ok_bind, pure_eq_ok, htip, if_neg hbelow, Except.map_ok]
    unfold SortitionEngine.prime
    have htip' : tracker.engine.snapshots.tip = tracker.tip := rfl
    simp only [htip', if_neg hbelow]
    rfl

theorem primeAll_below (hheight : ∀ height, (chain height).height = height) {heights : List Nat}
    (hbelow : ∀ height ∈ heights, height ≠ tracker.tip.bitcoinHeight) :
    heights.foldlM (·.primeHeight (fun height => .ok (chain height)) payouts ·) tracker =
      (fun read => tracker.withWindow read.2
        (read.1.foldl retainCommitments tracker.engine.commitmentWindow)) <$>
        tracker.toTrackerNotes.readAll chain payouts heights := by
  induction heights generalizing tracker with
  | nil => rfl
  | cons height heights ih =>
    rw [foldlM_cons, primeHeight_below payouts (hheight height)
      (hbelow height mem_cons_self), readAll]
    cases tracker.toTrackerNotes.read (chain height) payouts with
    | error e => rfl
    | ok read =>
      simp only [Except.map_ok, ok_bind]
      have hrest : ∀ height' ∈ heights, height' ≠ (tracker.withWindow read.2
          (retainCommitments tracker.engine.commitmentWindow read.1)).tip.bitcoinHeight :=
        fun height' hmem => hbelow height' (mem_cons_of_mem _ hmem)
      rw [ih hrest]
      show _ <$> read.2.readAll chain payouts heights = _
      cases read.2.readAll chain payouts heights with
      | error e => rfl
      | ok rest => rfl

/-- The block at the tip is read last: it fills in what the root lacks. -/
def SortitionTracker.primeTip (tracker : SortitionTracker) (block : BitcoinBlock) :
    Except TrackerError SortitionTracker :=
  tracker.primeBlock block payouts tracker.tip.bitcoinHeight

theorem prime_eq (hheight : ∀ height, (chain height).height = height) {fresh : SortitionTracker}
    {first n : Nat} (hfirst : fresh.tip.bitcoinHeight - (miningCommitmentWindow - 1) = first)
    (hn : fresh.tip.bitcoinHeight = first + n) :
    fresh.prime (fun height => .ok (chain height)) payouts = (do
      let read ← fresh.toTrackerNotes.readAll chain payouts (List.range' first n)
      let primed ← (fresh.withWindow read.2
        (read.1.foldl retainCommitments fresh.engine.commitmentWindow)).primeTip payouts
          (chain fresh.tip.bitcoinHeight) return { primed with primed := true }) := by
  have hheights : fresh.primingHeights = range' first n ++ [fresh.tip.bitcoinHeight] := by
    rw [primingHeights, hfirst, hn, Nat.add_right_comm, Nat.add_assoc,
      Nat.add_sub_cancel_left, Nat.add_comm 1 n, range'_concat, Nat.one_mul]
  have hbelow : ∀ height ∈ range' first n, height ≠ fresh.tip.bitcoinHeight := by
    intro height hmem
    rw [mem_range'_1] at hmem
    omega
  rw [prime, hheights, foldlM_append, primeAll_below payouts hheight hbelow]
  cases fresh.toTrackerNotes.readAll chain payouts (range' first n) with
  | error e => rfl
  | ok read =>
    simp only [Except.map_ok, ok_bind, foldlM_cons, foldlM_nil, bind_pure]
    rfl

end Priming

/-! ## Walking as reading -/

/-- Notes with another reward-cycle history; reading blocks does not look at it. -/
def TrackerNotes.stamped (notes : TrackerNotes) (poxId : PoxId) (primed : Bool) : TrackerNotes :=
  { notes with poxId, primed }

theorem TrackerNotes.prepare_eq (notes : TrackerNotes) (block : BitcoinBlock)
    (payouts : PayoutSchedule) :
    notes.prepare block payouts =
      (let accepted := (notes.registerKeys block).acceptedBlock block payouts
       let poxId := (notes.openCycle block payouts).poxId
       (⟨accepted.1.1, acceptedOperationTxids accepted.1.1 payouts, accepted.1.2, poxId,
          payouts.miningWindowAt block.height⟩, { accepted.2 with poxId })) := by
  unfold prepare openCycle
  split_ifs <;> rfl

section Reads

variable {H advantage} {chain : Nat → BitcoinBlock} {payouts : PayoutSchedule}

theorem TrackerNotes.readAll_stamped {notes noted : TrackerNotes} {heights : List Nat}
    {windows : List CommitmentWindowBlock}
    (h : notes.readAll chain payouts heights = .ok (windows, noted)) (poxId : PoxId) (primed : Bool) :
    (notes.stamped poxId primed).readAll chain payouts heights
      = .ok (windows, noted.stamped poxId primed) := by
  induction heights generalizing notes windows with
  | nil =>
    simp only [readAll, Except.ok.injEq, Prod.mk.injEq] at h ⊢
    exact ⟨h.1, by rw [h.2]⟩
  | cons height heights ih =>
    simp only [readAll, read, bind_eq_ok, return_eq_ok, Prod.mk.injEq, Prod.exists] at h ⊢
    obtain ⟨_, middle, ⟨resolved, hresolved, hwindow, rfl⟩, rest, _, hrest, hwindows, rfl⟩ := h
    exact ⟨_, _, ⟨resolved, hresolved, hwindow, rfl⟩, rest, _, ih hrest, hwindows, rfl⟩

variable {snapshot : SortitionSnapshot}

theorem advance_reads {height : Nat} {tracker : SortitionTracker}
    (hok : (tracker.advance H advantage (chain height) payouts).1 = .ok snapshot) :
    ∃ window noted, tracker.toTrackerNotes.read (chain height) payouts = .ok (window, noted) ∧
      (tracker.advance H advantage (chain height) payouts).2.toTrackerNotes = noted.stamped
        (tracker.advance H advantage (chain height) payouts).2.poxId tracker.primed ∧
      (tracker.advance H advantage (chain height) payouts).2.engine.commitmentWindow
        = retainCommitments tracker.engine.commitmentWindow window := by
  obtain ⟨-, resolved, hresolved, -⟩ := (advance_eq_ok H advantage).1 hok
  rw [advance_snd H advantage hok hresolved, TrackerNotes.prepare_eq]
  refine ⟨_, _, ?_, rfl, rfl⟩
  simp only [TrackerNotes.read, hresolved, ok_bind, pure_eq_ok]

/-- The blocks of a chain above one height and up to another, to be walked. -/
def blocksBetween (chain : Nat → BitcoinBlock) (payouts : PayoutSchedule) (low high : Nat) :
    List AdvanceInput :=
  (List.range' (low + 1) (high - low)).map fun height => ⟨chain height, payouts⟩

theorem walk_reads {tracker tracker' : SortitionTracker} {first n : Nat}
    {derived : List SortitionSnapshot} (hwalk : tracker.walk H advantage
      ((List.range' first n).map fun height => ⟨chain height, payouts⟩) = .ok (derived, tracker')) :
    ∃ windows noted,
      tracker.toTrackerNotes.readAll chain payouts (List.range' first n) = .ok (windows, noted) ∧
      tracker'.toTrackerNotes = noted.stamped tracker'.poxId tracker.primed ∧
      tracker'.engine.commitmentWindow
        = windows.foldl retainCommitments tracker.engine.commitmentWindow := by
  induction n generalizing tracker first derived with
  | zero =>
    obtain ⟨-, rfl⟩ := walk_nil_eq_ok.1 hwalk
    exact ⟨[], _, rfl, rfl, rfl⟩
  | succ n ih =>
    obtain ⟨snapshot, hok, rest, hrest, -⟩ := walk_cons_eq_ok.1 hwalk
    obtain ⟨window, noted, hread, hnotes, hwindow⟩ := advance_reads hok
    obtain ⟨windows, noted', hreads, hnotes', hwindows⟩ := ih hrest
    have hback := readAll_stamped hreads noted.poxId noted.primed
    rw [hnotes] at hback
    refine ⟨window :: windows, noted'.stamped noted.poxId noted.primed, ?_, ?_, ?_⟩
    · simp only [range'_succ, readAll, hread, ok_bind]
      rw [show noted.readAll chain payouts _ = _ from hback]
      rfl
    · have hprimed : (tracker.advance H advantage (chain first) payouts).2.primed = tracker.primed :=
        (congrArg primed hnotes).trans rfl
      exact hnotes'.trans (by rw [hprimed]; rfl)
    · rw [hwindows, hwindow, foldl_cons]

end Reads

/-! ## Standing on the same snapshot -/

/-- What the next snapshot is derived from, of the one below it. -/
structure SameStanding (tip tip' : SortitionSnapshot) : Prop where
  bitcoinHeight : tip'.bitcoinHeight = tip.bitcoinHeight
  sortitionId : tip'.sortitionId = tip.sortitionId
  totalBurn : tip'.totalBurn = tip.totalBurn
  sortitionHash : tip'.sortitionHash = tip.sortitionHash
  numSortitions : tip'.numSortitions = tip.numSortitions

theorem SameStanding.refl (tip : SortitionSnapshot) : SameStanding tip tip :=
  ⟨rfl, rfl, rfl, rfl, rfl⟩

/-- Inputs that differ in operations the sortition does not look at. -/
structure SameInput (input input' : AppendInput) : Prop where
  height : input'.block.height = input.block.height
  hash : input'.block.hash = input.block.hash
  timestamp : input'.block.timestamp = input.block.timestamp
  txids : input'.acceptedOperationTxids = input.acceptedOperationTxids
  commitments : input'.commitments = input.commitments
  poxId : input'.poxId = input.poxId
  windowLen : input'.windowLen = input.windowLen

variable {input input' : AppendInput}

theorem deriveSnapshot_congr {tip tip' : SortitionSnapshot} (htip : SameStanding tip tip')
    (hinput : SameInput input input') (previousHashes : List ConsensusHash)
    (previousSeed : Option (Bytes 32)) (window : List CommitmentWindowBlock) :
    deriveSnapshot H advantage tip' previousHashes previousSeed window input'
      = deriveSnapshot H advantage tip previousHashes previousSeed window input := by
  have helect : elect H advantage window tip' previousSeed input'.block.hash
      = elect H advantage window tip previousSeed input.block.hash := by
    unfold elect
    rw [htip.sortitionHash, htip.totalBurn, hinput.hash]
  unfold deriveSnapshot
  rw [helect, htip.bitcoinHeight, hinput.height]
  simp only [SnapshotChain.nextSnapshot, SnapshotChain.tip, getLast_singleton,
    SnapshotChain.previousConsensusHashes, hinput.height, hinput.hash, hinput.timestamp,
    hinput.txids, hinput.commitments, hinput.poxId, htip.sortitionHash, htip.sortitionId,
    htip.numSortitions]

theorem rtake_retainCommitments {window : List CommitmentWindowBlock}
    (hlength : window.length ≤ retainedCommitmentBlocks) (commitments : CommitmentWindowBlock)
    {n : Nat} (hn : n < retainedCommitmentBlocks) :
    (retainCommitments window commitments).rtake (n + 1) = window.rtake n ++ [commitments] := by
  rw [retainCommitments_eq hlength, rtake_rtake_of_le _ hn, rtake_concat_succ]

theorem sampled_congr {engine engine' : SortitionEngine}
    (hwindow : engine'.commitmentWindow.rtake (miningCommitmentWindow - 1)
      = engine.commitmentWindow.rtake (miningCommitmentWindow - 1))
    (hlength : engine.commitmentWindow.length ≤ retainedCommitmentBlocks)
    (hlength' : engine'.commitmentWindow.length ≤ retainedCommitmentBlocks)
    (hinput : SameInput input input') (hlen : input.windowLen ≤ miningCommitmentWindow) :
    engine'.sampled input' = engine.sampled input := by
  obtain ⟨n, hn⟩ : ∃ n, max input.windowLen 1 = n + 1 := ⟨max input.windowLen 1 - 1, by omega⟩
  have hsix : miningCommitmentWindow = 6 := rfl
  have htwelve : retainedCommitmentBlocks = 12 := rfl
  have hshort : n ≤ miningCommitmentWindow - 1 := by omega
  show (retainCommitments engine'.commitmentWindow input'.commitments).rtake
      (max input'.windowLen 1)
    = (retainCommitments engine.commitmentWindow input.commitments).rtake (max input.windowLen 1)
  rw [hinput.windowLen, hinput.commitments, hn, rtake_retainCommitments hlength' _ (by omega),
    rtake_retainCommitments hlength _ (by omega), ← rtake_rtake_of_le _ hshort, hwindow,
    rtake_rtake_of_le _ hshort]

theorem rtake_retainCommitments_congr {window window' : List CommitmentWindowBlock}
    (hwindow : window'.rtake (miningCommitmentWindow - 1)
      = window.rtake (miningCommitmentWindow - 1))
    (hlength : window.length ≤ retainedCommitmentBlocks)
    (hlength' : window'.length ≤ retainedCommitmentBlocks) (commitments : CommitmentWindowBlock) :
    (retainCommitments window' commitments).rtake (miningCommitmentWindow - 1)
      = (retainCommitments window commitments).rtake (miningCommitmentWindow - 1) := by
  show (retainCommitments window' commitments).rtake (4 + 1)
    = (retainCommitments window commitments).rtake (4 + 1)
  have hfour : 4 < retainedCommitmentBlocks := by decide
  have hshort : 4 ≤ miningCommitmentWindow - 1 := by decide
  rw [rtake_retainCommitments hlength' _ hfour, rtake_retainCommitments hlength _ hfour,
    ← rtake_rtake_of_le _ hshort, hwindow, rtake_rtake_of_le _ hshort]

/-! ## Going on side by side -/

section Simulation

variable {H advantage} {chain : Nat → BitcoinBlock} {payouts : PayoutSchedule} {first last : Nat}
  {start origin tracker resumed : SortitionTracker} {below common : List SortitionSnapshot}

/-- Where a tracker `start` had derived the snapshots `below` and another tracker was started on the
last of them. -/
structure Origin (start origin : SortitionTracker) (below : List SortitionSnapshot) : Prop where
  primed : Primed start.engine
  primed' : Primed origin.engine
  needed : start.engine.snapshots.neededFrom = none
  needed' : origin.engine.snapshots.neededFrom = none
  seed : below.reverse.findSome? (·.winnerVrfSeed) = origin.tip.winnerVrfSeed

variable (H advantage chain payouts first last) in
/-- The two trackers after both derived the snapshots `common`. -/
structure Resumes (start origin : SortitionTracker) (below common : List SortitionSnapshot)
    (tracker resumed : SortitionTracker) : Prop where
  walked : ∃ branch appends, Walked H advantage start branch appends (below ++ common) tracker
  walked' : ∃ branch appends, Walked H advantage origin branch appends (origin.tip :: common) resumed
  notes : NotesAgree chain payouts first last (tracker.tip.bitcoinHeight + 1)
    tracker.toTrackerNotes resumed.toTrackerNotes
  poxId : resumed.poxId = tracker.poxId
  hashes : resumed.engine.snapshots.consensusHashes = tracker.engine.snapshots.consensusHashes
  tip : SameStanding tracker.tip resumed.tip
  window : resumed.engine.commitmentWindow.rtake (miningCommitmentWindow - 1)
    = tracker.engine.commitmentWindow.rtake (miningCommitmentWindow - 1)

theorem Walked.held_snapshots {branch : List AdvanceInput} {appends : List AppendInput}
    {snapshots : List SortitionSnapshot} (hstart : Primed start.engine)
    (hneeded : start.engine.snapshots.neededFrom = none)
    (h : Walked H advantage start branch appends snapshots tracker) :
    tracker.engine.snapshots.snapshots = snapshots.rtake snapshotsKept ∧
      tracker.engine.commitmentWindow.length ≤ retainedCommitmentBlocks := by
  have hheld := h.built.held hstart
  refine ⟨?_, hheld.window_le⟩
  have hkeep : tracker.engine.snapshots.snapshotsToKeep tracker.engine.snapshots.tip
      = snapshotsKept := by
    rw [SnapshotChain.snapshotsToKeep, hheld.neededFrom, hneeded]
  rw [eq_rtake_of_suffix hheld.suffix, hheld.length_snapshots, hkeep,
    rtake_of_suffix (suffix_refl snapshots) snapshotsKept]

theorem Resumes.effectiveWinnerSeed (horigin : Origin start origin below)
    (h : Resumes H advantage chain payouts first last start origin below common tracker resumed)
    (hsome : tracker.engine.snapshots.effectiveWinnerSeed.isSome) :
    resumed.engine.snapshots.effectiveWinnerSeed = tracker.engine.snapshots.effectiveWinnerSeed := by
  obtain ⟨branch, appends, hwalked⟩ := h.walked
  obtain ⟨branch', appends', hwalked'⟩ := h.walked'
  have hheld := (hwalked.held_snapshots horigin.primed horigin.needed).1
  have hheld' := (hwalked'.held_snapshots horigin.primed' horigin.needed').1
  rw [effectiveWinnerSeed_eq, hheld] at hsome
  rw [effectiveWinnerSeed_eq, effectiveWinnerSeed_eq, hheld, hheld', ← singleton_append]
  rcases Nat.lt_or_ge common.length snapshotsKept with hshort | hlong
  · -- Both reach below what they derived together.
    obtain ⟨n, hn⟩ : ∃ n, snapshotsKept - common.length = n + 1 :=
      ⟨snapshotsKept - common.length - 1, by omega⟩
    rw [rtake_append_of_ge _ hshort.le, hn, reverse_append, findSome?_append] at hsome
    rw [rtake_append_of_ge _ hshort.le, rtake_append_of_ge _ hshort.le, hn, reverse_append,
      reverse_append, findSome?_append, findSome?_append]
    cases hcommon : common.reverse.findSome? (·.winnerVrfSeed) with
    | some seed => rfl
    | none =>
      rw [hcommon, Option.none_or] at hsome
      have hbelow := findSome?_reverse_of_suffix (rtake_suffix below _) hsome
      rw [Option.none_or, Option.none_or, ← hbelow, horigin.seed]
      simp [rtake]
  · rw [rtake_append_of_le _ hlong, rtake_append_of_le _ hlong]

variable {notes notes' : TrackerNotes}

theorem NotesAgree.withPoxId {top : Nat} (h : NotesAgree chain payouts first last top notes notes')
    (poxId poxId' : PoxId) (primed primed' : Bool) :
    NotesAgree chain payouts first last top (notes.stamped poxId primed)
      (notes'.stamped poxId' primed') :=
  ⟨h.spent, h.keys, h.commitments, h.floor, h.floor', h.payouts, h.parents⟩

section

variable (hheight : ∀ height, (chain height).height = height)

include hheight

section

variable (hnodup : ∀ height, ((chain height).operations.map (·.txid)).Nodup)

include hnodup

theorem NotesAgree.prepare {top : Nat} (h : NotesAgree chain payouts first last top notes notes')
    (hpoxId : notes'.poxId = notes.poxId) (hlast : top ≤ last) (resolved : PayoutSchedule) :
    SameInput (notes.prepare (chain top) resolved).1 (notes'.prepare (chain top) resolved).1 ∧
      (notes'.prepare (chain top) resolved).2.poxId = (notes.prepare (chain top) resolved).2.poxId ∧
      NotesAgree chain payouts first last (top + 1) (notes.prepare (chain top) resolved).2
        (notes'.prepare (chain top) resolved).2 := by
  have hregistered := h.registerKeys (hheight top)
  have hagree := hregistered.toNotesAgree
  have hopen : (notes'.openCycle (chain top) resolved).poxId
      = (notes.openCycle (chain top) resolved).poxId := by
    unfold openCycle
    split_ifs
    · exact congrArg (PoxId.extendWithAnchor · true) hpoxId
    · exact hpoxId
  rw [prepare_eq, prepare_eq]
  refine ⟨⟨rfl, rfl, rfl, ?_, ?_, hopen, rfl⟩, hopen, ?_⟩
  · exact hagree.acceptedOperationTxids_eq (hheight top) hlast resolved
  · exact hagree.commitmentWindowBlock_eq (hheight top) hlast resolved
  · exact (NotesAgree.acceptedBlock hregistered (hheight top) hlast (hnodup top) resolved).withPoxId _ _ _ _

section

variable (horigin : Origin start origin below)
  (h : Resumes H advantage chain payouts first last start origin below common tracker resumed)

include horigin h

theorem Resumes.advance {height : Nat} {snapshot : SortitionSnapshot}
    (hnext : height = tracker.tip.bitcoinHeight + 1) (hlast : height ≤ last)
    (hok : (tracker.advance H advantage (chain height) payouts).1 = .ok snapshot) :
    (resumed.advance H advantage (chain height) payouts).1 = .ok snapshot ∧
      Resumes H advantage chain payouts first last start origin below (common ++ [snapshot])
        (tracker.advance H advantage (chain height) payouts).2
        (resumed.advance H advantage (chain height) payouts).2 := by
  obtain ⟨branch, appends, hwalked⟩ := h.walked
  obtain ⟨branch', appends', hwalked'⟩ := h.walked'
  have hlength := (hwalked.held_snapshots horigin.primed horigin.needed).2
  have hlength' := (hwalked'.held_snapshots horigin.primed' horigin.needed').2
  obtain ⟨hseed, resolved, hresolved, happend⟩ := (advance_eq_ok H advantage).1 hok
  have hseed' := h.effectiveWinnerSeed horigin hseed
  have hnotes := h.notes
  rw [← hnext] at hnotes
  obtain ⟨hinput, hpoxId, hagree⟩ := hnotes.prepare hheight hnodup h.poxId hlast resolved
  have hresolved' : resumed.payoutsAt payouts (chain height).height = .ok resolved := by
    rw [hheight, hnotes.payouts height hlast]
    rw [hheight] at hresolved
    exact hresolved
  have hsampled := sampled_congr h.window hlength hlength' hinput
    (resolved.miningWindowAt_le (chain height).height)
  have happend' : (resumed.engine.append H advantage
      (resumed.prepare (chain height) resolved).1).1 = .ok snapshot := by
    rw [SortitionEngine.append_fst] at happend ⊢
    rw [hseed', hsampled, h.hashes, ← happend]
    exact deriveSnapshot_congr H advantage h.tip hinput _ _ _
  have hok' : (resumed.advance H advantage (chain height) payouts).1 = .ok snapshot :=
    (advance_eq_ok H advantage).2 ⟨by rwa [hseed'], resolved, hresolved', happend'⟩
  refine ⟨hok', ?_⟩
  obtain ⟨htip, hsnapshot, -⟩ := advance_tip H advantage hok
  have hafter := advance_snd H advantage hok hresolved
  have hafter' := advance_snd H advantage hok' hresolved'
  have hwalk : Walked H advantage start (branch ++ [⟨chain height, payouts⟩]) _ _ _ :=
    hwalked.advance hok hresolved
  have hwalk' : Walked H advantage origin (branch' ++ [⟨chain height, payouts⟩]) _ _ _ :=
    hwalked'.advance hok' hresolved'
  rw [append_assoc] at hwalk
  refine ⟨⟨_, _, hwalk⟩, ⟨_, _, hwalk'⟩, ?_, ?_, ?_, ?_, ?_⟩
  · rw [htip, hsnapshot, ← hnext, hafter, hafter']
    exact hagree
  · rw [hafter, hafter']
    exact hpoxId
  · rw [hafter, hafter']
    exact congrArg (· ++ [snapshot.consensusHash]) h.hashes
  · rw [htip, (advance_tip H advantage hok').1]
    exact .refl snapshot
  · rw [hafter, hafter']
    show (retainCommitments _ (resumed.prepare (chain height) resolved).1.commitments).rtake _ = _
    rw [hinput.commitments]
    exact rtake_retainCommitments_congr h.window hlength hlength' _

/-- **Going on, the resumed tracker derives the same snapshots.** -/
theorem Resumes.walk
    {height n : Nat} (hnext : height = tracker.tip.bitcoinHeight + 1) (hlast : height + n ≤ last + 1)
    {derived : List SortitionSnapshot} {tracker' : SortitionTracker}
    (hwalk : tracker.walk H advantage
      ((List.range' height n).map fun height => ⟨chain height, payouts⟩) = .ok (derived, tracker')) :
    ∃ resumed', resumed.walk H advantage
        ((List.range' height n).map fun height => ⟨chain height, payouts⟩)
          = .ok (derived, resumed') ∧
      Resumes H advantage chain payouts first last start origin below (common ++ derived) tracker'
        resumed' := by
  induction n generalizing tracker resumed common height derived with
  | zero =>
    obtain ⟨rfl, rfl⟩ := walk_nil_eq_ok.1 hwalk
    exact ⟨resumed, rfl, by rwa [append_nil]⟩
  | succ n ih =>
    obtain ⟨snapshot, hok, rest, hrest, rfl⟩ := walk_cons_eq_ok.1 hwalk
    obtain ⟨hok', hresumes⟩ := h.advance hheight hnodup horigin hnext (by omega) hok
    obtain ⟨htip, hsnapshot, -⟩ := advance_tip H advantage hok
    obtain ⟨resumed', hwalk', hresumes'⟩ := ih hresumes (by rw [htip, hsnapshot, hnext]) (by omega) hrest
    rw [append_assoc] at hresumes'
    exact ⟨resumed', walk_cons_eq_ok.2 ⟨snapshot, hok', rest, hwalk', rfl⟩, hresumes'⟩

end

end

end

end Simulation

end NanoStacks.Tracker
