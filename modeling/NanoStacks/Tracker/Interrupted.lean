import NanoStacks.Tracker.Locate
import NanoStacks.Tracker.Resuming

/-!
# Walks that were interrupted

A failed `advance` is retried over the tracker it left. What it notes before the engine is asked (the
cycle a block opens, its keys and its commitments) stays noted when the engine refuses the block; and a
window that was half read when a Bitcoin read failed stays in front of the one that is read in full.

* `interrupted_unchanged`: which failures leave the tracker as it was, and what follows for retries.
* `cycle_opened_twice`: a block of the wrong height opens a cycle, and the retry derives another hash.
-/

namespace NanoStacks.Tracker

open Bitcoin Sortition Result SortitionTracker TrackerNotes

variable (H : Hashes) (advantage : CarryoverAdvantage)

/-- Two trackers with one PoX history, commitment set, key registry, window and snapshots. -/
def SameChain (tracker tracker' : SortitionTracker) : Prop :=
  tracker.poxId = tracker'.poxId ∧ tracker.commitments = tracker'.commitments ∧
    tracker.keys = tracker'.keys ∧ tracker.engine = tracker'.engine

/-- A commitment that the window of a block counts: it is admissible and at most one block late. -/
def Counted (block : BitcoinBlock) (payouts : PayoutSchedule) (operation : BitcoinOperation) : Prop :=
  ∃ commit, operation.kind = .leaderBlockCommit commit ∧
    commitmentIsAdmissible block.height operation payouts ∧
    commitmentMissDistance commit.parentModulus block.height ≤ 1

/-- An advance over a block has nothing to note. The chain has no seed, or the payouts of the height
are unknown, or all of this holds: the block opens no cycle; the keys it registers are registered
already; no counted commitment among the operations the tracker keeps, nor any that shares its
transaction id, is at a position the tracker does not hold; and the window with the block's
commitments cannot be weighed, or was full of copies of them. -/
def Untouched (tracker : SortitionTracker) (block : BitcoinBlock) (payouts : PayoutSchedule) : Prop :=
  tracker.engine.snapshots.effectiveWinnerSeed = none ∨
    ∀ resolved, tracker.payoutsAt payouts block.height = .ok resolved →
      let kept := block.operations.filter
        (tracker.keepsOperation (tracker.commitmentFloor.getD block.height) block)
      let entry := commitmentWindowBlock { block with operations := kept } resolved tracker.keys
      let window := tracker.engine.commitmentWindow
      resolved.startsRewardCycle block.height = false ∧
        (∀ index registration, registeredAt block.operations index = some registration →
          tracker.keys.registered.get (toLex (block.height, index)) = some registration) ∧
        (∀ counted ∈ kept, Counted block resolved counted → ∀ operation ∈ kept,
          operation.txid = counted.txid →
            (block.height, operation.transactionIndex) ∈ tracker.commitments) ∧
        (¬Weighable (sampledWindow (retainCommitments window entry)
            (resolved.miningWindowAt block.height)) ∨
          retainedCommitmentBlocks ≤ window.length ∧ ∀ block ∈ window, block = entry)

variable {tracker left : SortitionTracker} {block : BitcoinBlock} {payouts : PayoutSchedule}
  {error : TrackerError}

theorem append_error_snd {engine : SortitionEngine} {input : AppendInput} {e : SortitionError}
    (h : (engine.append H advantage input).1 = .error e) :
    (engine.append H advantage input).2 = engine ↔ ¬Weighable (engine.sampled input) ∨
      retainedCommitmentBlocks ≤ engine.commitmentWindow.length ∧
        ∀ block ∈ engine.commitmentWindow, block = input.commitments := by
  have hweighed : (∃ election, elect H advantage (engine.sampled input) engine.snapshots.tip
      engine.snapshots.effectiveWinnerSeed input.block.hash = .ok election) ↔ _ := weighable_iff
  rw [← retainCommitments_eq_self, ← hweighed]
  unfold SortitionEngine.append at h ⊢
  split at h
  · rename_i helect
    simp [helect]
  · rename_i helect
    dsimp only at h ⊢
    split at h
    · cases engine
      simp [helect]
    · simp at h

/-- Registering a block's keys changes nothing exactly where each of them is registered already. -/
theorem registerKeys_keys (notes : TrackerNotes) :
    (notes.registerKeys block).keys = notes.keys ↔
      ∀ index registration, registeredAt block.operations index = some registration →
        notes.keys.registered.get (toLex (block.height, index)) = some registration := by
  have hget : ∀ height index,
      (notes.registerKeys block).keys.registered.get (toLex (height, index)) = _ :=
    get_registerOperations block.operations notes.keys block.height
  constructor
  · intro hsame index registration hregistered
    rw [← hsame, hget, if_pos rfl, hregistered, Option.some_or]
  · intro hheld
    have hregistered : (notes.registerKeys block).keys.registered = notes.keys.registered := by
      refine OrdMap.ext_get fun position => (hget position.1 position.2).trans ?_
      split_ifs with hheight
      · rw [← hheight] at hheld
        cases hnew : registeredAt block.operations position.2 with
        | none => rfl
        | some registration => exact (hheld _ registration hnew).symm
      · rfl
    have hspent := spent_registerOperations block.operations notes.keys block.height
    exact LeaderKeys.ext hregistered hspent

theorem fileCommitment_isSome (resolved : PayoutSchedule) (keys : LeaderKeys)
    (operation : BitcoinOperation) :
    (fileCommitment block resolved keys operation).isSome ↔ Counted block resolved operation := by
  unfold fileCommitment Counted
  cases operation.kind with
  | leaderBlockCommit commit =>
    simp only [BitcoinOperationKind.leaderBlockCommit.injEq, exists_eq_left']
    split_ifs <;> simp_all
  | _ => simp

theorem positionsOf_subset (resolved : PayoutSchedule) (keys : LeaderKeys)
    (held : Finset (Nat × Nat)) :
    positionsOf block (commitmentWindowBlock block resolved keys) ⊆ held ↔
      ∀ counted ∈ block.operations, Counted block resolved counted →
        ∀ operation ∈ block.operations, operation.txid = counted.txid →
          (block.height, operation.transactionIndex) ∈ held := by
  simp only [Finset.subset_iff, positionsOf, List.mem_toFinset, List.mem_map, List.mem_filter,
    decide_eq_true_eq, NotesAgree.txid_filed_iff, ← fileCommitment_isSome resolved keys]
  grind

section

variable (h : tracker.advance H advantage block payouts = (.error error, left))

include h

theorem advance_error_cases :
    left = tracker ∧ (tracker.engine.snapshots.effectiveWinnerSeed = none ∨
        ∃ e, tracker.payoutsAt payouts block.height = .error e) ∨
      tracker.engine.snapshots.effectiveWinnerSeed ≠ none ∧
        ∃ resolved e, tracker.payoutsAt payouts block.height = .ok resolved ∧
          (tracker.engine.append H advantage (tracker.prepare block resolved).1).1 = .error e ∧
          left = { (tracker.prepare block resolved).2 with
            engine := (tracker.engine.append H advantage (tracker.prepare block resolved).1).2 } := by
  unfold SortitionTracker.advance at h
  split_ifs at h with hseed
  · cases h
    exact .inl ⟨rfl, .inl (Option.isNone_iff_eq_none.1 hseed)⟩
  · split at h
    · rename_i hpayouts
      cases h
      exact .inl ⟨rfl, .inr ⟨_, hpayouts⟩⟩
    · rename_i resolved hpayouts
      obtain ⟨happend, rfl⟩ := Prod.mk.injEq .. ▸ h
      cases hfst : (tracker.engine.append H advantage (tracker.prepare block resolved).1).1 with
      | ok snapshot => simp [hfst, Except.mapError] at happend
      | error e =>
        exact .inr ⟨fun hnone => hseed (by simp [hnone]), resolved, e, hpayouts, hfst, rfl⟩

omit h in
theorem openCycle_poxId (notes : TrackerNotes) :
    (notes.openCycle block payouts).poxId = notes.poxId ↔
      payouts.startsRewardCycle block.height = false := by
  unfold openCycle
  split_ifs with hopens
  · refine iff_of_false (fun hsame => ?_) (by simp [hopens])
    simpa [PoxId.extendWithAnchor] using congrArg (·.bits.length) hsame
  · simp [hopens]

theorem advance_unchanged_iff : SameChain left tracker ↔ Untouched tracker block payouts := by
  obtain ⟨rfl, hearly⟩ | ⟨hseed, resolved, e, hpayouts, happend, rfl⟩ :=
    advance_error_cases H advantage h
  · refine iff_of_true ⟨rfl, rfl, rfl, rfl⟩ (hearly.imp_right ?_)
    rintro ⟨e, he⟩ resolved hpayouts
    cases he.symm.trans hpayouts
  · simp only [SameChain, Untouched, hseed, false_or, hpayouts, Except.ok.injEq, forall_eq',
      append_error_snd H advantage happend, ← registerKeys_keys tracker.toTrackerNotes,
      ← openCycle_poxId tracker.toTrackerNotes]
    by_cases hkeys : (tracker.registerKeys block).keys = tracker.keys
    · have hnotes : tracker.registerKeys block = tracker.toTrackerNotes := by
        exact congrArg (fun keys => { tracker.toTrackerNotes with keys }) hkeys
      rw [prepare_eq, hnotes]
      simp only [acceptedBlock, Finset.union_eq_left]
      rw [positionsOf_subset]
      exact and_congr_right fun _ => and_left_comm
    · refine iff_of_false (fun hsame => hkeys ?_) fun huntouched => hkeys huntouched.2.1
      rw [prepare_eq] at hsame
      exact hsame.2.2.1

end

theorem Untouched.left_eq (huntouched : Untouched tracker block payouts)
    (hfloor : tracker.commitmentFloor.isSome)
    (h : tracker.advance H advantage block payouts = (.error error, left)) : left = tracker := by
  have hsame := (advance_unchanged_iff H advantage h).2 huntouched
  obtain ⟨rfl, -⟩ | ⟨hseed, resolved, e, hpayouts, -, rfl⟩ := advance_error_cases H advantage h
  · rfl
  · obtain ⟨hopens, -⟩ := huntouched.resolve_left hseed resolved hpayouts
    obtain ⟨floor, hfloor⟩ := Option.isSome_iff_exists.1 hfloor
    obtain ⟨⟨poxId, keys, waterfallPayouts, primed, commitments, commitmentFloor⟩, engine⟩ := tracker
    simp_all [SameChain, prepare, acceptedBlock, registerKeys, openCycle]

variable {blockAt : Nat → Except String BitcoinBlock}

theorem walkOn_add (walked count : Nat) {reached : SortitionTracker}
    (h : walkOn H advantage blockAt payouts walked tracker = (.ok (), reached)) :
    walkOn H advantage blockAt payouts (walked + count) tracker
      = walkOn H advantage blockAt payouts count reached := by
  induction walked generalizing tracker with
  | zero =>
    cases h
    rw [Nat.zero_add]
  | succ walked ih =>
    rw [Nat.succ_add]
    simp only [walkOn] at h ⊢
    split at h
    · cases h
    · split at h
      · cases h
      · split at h
        · cases h
        · exact ih h

/-- A walk fails over the tracker its blocks so far have made, on a read or in an advance. -/
theorem walkOn_error_cases {count : Nat}
    (h : walkOn H advantage blockAt payouts count tracker = (.error error, left)) :
    ∃ walked reached, walkOn H advantage blockAt payouts walked tracker = (.ok (), reached) ∧
      (left = reached ∨ ∃ block, blockAt (reached.tip.bitcoinHeight + 1) = .ok block ∧
        reached.advance H advantage block payouts = (.error error, left)) := by
  induction count generalizing tracker with
  | zero => cases h
  | succ count ih =>
    unfold walkOn at h
    split at h
    · cases h
      exact ⟨0, _, rfl, .inl rfl⟩
    · rename_i height hheight
      obtain rfl : tracker.tip.bitcoinHeight + 1 = height := by
        unfold checkedAdd at hheight
        split_ifs at hheight
        exact Option.some.inj hheight
      split at h
      · cases h
        exact ⟨0, _, rfl, .inl rfl⟩
      · rename_i block hblock
        split at h
        · rename_i hadvance
          cases h
          exact ⟨0, _, rfl, .inr ⟨block, hblock, hadvance⟩⟩
        · rename_i hadvance
          obtain ⟨walked, reached, hwalked, hleft⟩ := ih h
          refine ⟨walked + 1, reached, ?_, hleft⟩
          unfold walkOn
          simpa only [hheight, hblock, hadvance] using hwalked

theorem primeHeight_length {height : Nat}
    (hroom : tracker.engine.commitmentWindow.length < retainedCommitmentBlocks)
    (h : tracker.primeHeight blockAt payouts height = .ok left) :
    left.tip.bitcoinHeight = tracker.tip.bitcoinHeight ∧
      left.engine.commitmentWindow.length = tracker.engine.commitmentWindow.length + 1 := by
  simp only [primeHeight, primeBlock, bind_eq_ok, return_eq_ok] at h
  obtain ⟨block, -, resolved, -, seeded, hseeded, rfl⟩ := h
  have hkept : seeded.engine.commitmentWindow = tracker.engine.commitmentWindow ∧
      seeded.tip.bitcoinHeight = tracker.tip.bitcoinHeight := by
    split_ifs at hseeded
    · obtain ⟨seed, key, rfl, -⟩ := recoverSeedFrom_eq hseeded
      exact ⟨rfl, congrArg (·.bitcoinHeight) (SnapshotChain.tip_updateTip _ _)⟩
    · cases hseeded
      exact ⟨rfl, rfl⟩
  refine ⟨(prime_tip_height _ _ _).trans hkept.2, ?_⟩
  unfold SortitionEngine.prime
  dsimp only
  split_ifs
  all_goals
    show (retainCommitments seeded.engine.commitmentWindow _).length = _
    rw [hkept.1, length_retainCommitments hroom.le]
    omega

theorem primeHeights_length {heights : List Nat}
    (hroom : tracker.engine.commitmentWindow.length + heights.length ≤ retainedCommitmentBlocks)
    (h : heights.foldlM (·.primeHeight blockAt payouts ·) tracker = .ok left) :
    left.tip.bitcoinHeight = tracker.tip.bitcoinHeight ∧ left.engine.commitmentWindow.length
      = tracker.engine.commitmentWindow.length + heights.length := by
  induction heights generalizing tracker with
  | nil =>
    cases h
    exact ⟨rfl, rfl⟩
  | cons height heights ih =>
    rw [List.length_cons] at hroom ⊢
    obtain ⟨next, hnext, hrest⟩ := bind_eq_ok.1 h
    obtain ⟨htip, hlength⟩ := primeHeight_length (by omega) hnext
    obtain ⟨htip', hlength'⟩ := ih (by omega) hrest
    exact ⟨htip'.trans htip, by omega⟩

theorem payoutsAt_ne_bitcoin (notes : TrackerNotes) (payouts : PayoutSchedule) (height : Nat)
    (reason : String) : notes.payoutsAt payouts height ≠ .error (.bitcoin reason) := by
  unfold payoutsAt
  split_ifs <;> simp [bind_eq_error, okOr_eq_error]

theorem recoverSeedFrom_ne_bitcoin (tracker : SortitionTracker) (block : BitcoinBlock)
    (reason : String) : tracker.recoverSeedFrom block ≠ .error (.bitcoin reason) := by
  unfold recoverSeedFrom recoverSeed authenticateBoundaryWinner
  dsimp only
  split_ifs <;> simp [bind_eq_error, okOr_eq_error, ensure_eq_error]

/-- A block of `prime` fails as a read only where its own read fails. -/
theorem readHeight_bitcoin {height : Nat} {reason : String}
    (h : tracker.readHeight blockAt payouts height = (.error (.bitcoin reason), left)) :
    left = tracker ∧ blockAt height = .error reason := by
  unfold readHeight at h
  split at h
  · cases h
    exact ⟨rfl, ‹_›⟩
  · dsimp only at h
    split at h
    · rename_i hpayouts
      cases h
      exact absurd hpayouts (payoutsAt_ne_bitcoin _ _ _ _)
    · split at h
      · rename_i hseeded
        cases h
        split_ifs at hseeded
        exact absurd hseeded (recoverSeedFrom_ne_bitcoin _ _ _)
      · cases h

/-- A prime fails on a read over the tracker its heights so far have made. -/
theorem readHeights_bitcoin {heights : List Nat} {reason : String}
    (h : readHeights blockAt payouts heights tracker = (.error (.bitcoin reason), left)) :
    ∃ before height after, heights = before ++ height :: after ∧ blockAt height = .error reason ∧
      before.foldlM (·.primeHeight blockAt payouts ·) tracker = .ok left := by
  induction heights generalizing tracker with
  | nil => cases h
  | cons height heights ih =>
    unfold readHeights at h
    split at h
    · rename_i hread
      cases h
      obtain ⟨rfl, hfailed⟩ := readHeight_bitcoin hread
      exact ⟨[], height, heights, rfl, hfailed, rfl⟩
    · rename_i next hread
      obtain ⟨before, failed, after, rfl, hfailed, hleft⟩ := ih h
      refine ⟨height :: before, failed, after, rfl, hfailed, ?_⟩
      rw [List.foldlM_cons, primeHeight_eq, hread]
      exact hleft

/-- A prime that a failed read stopped and that is made again leaves a block too many for each block
read before the failure. -/
theorem primed_again_iff {blockAt' : Nat → Except String BitcoinBlock} {reason : String}
    {fresh retried whole : SortitionTracker} (hfresh : fresh.engine.commitmentWindow = [])
    (hfailed : fresh.readWindow blockAt payouts = (.error (.bitcoin reason), left))
    (hretried : left.prime blockAt' payouts = .ok retried)
    (hwhole : fresh.prime blockAt' payouts = .ok whole) :
    retried.engine.commitmentWindow = whole.engine.commitmentWindow ↔
      ∃ reason, blockAt fresh.readsFrom = .error reason := by
  obtain ⟨before, height, after, hsplit, hfailed, hleft⟩ := readHeights_bitcoin hfailed
  have hlengths := congrArg List.length hsplit
  rw [List.length_append, List.length_cons] at hlengths
  have hheights : fresh.primingHeights.length ≤ miningCommitmentWindow := by
    simp only [primingHeights, List.length_range', miningCommitmentWindow]
    omega
  have hwindows : retainedCommitmentBlocks = miningCommitmentWindow * 2 := rfl
  have hlength : ∀ {tracker tracker' : SortitionTracker}, tracker.prime blockAt' payouts = .ok tracker' →
      tracker.tip.bitcoinHeight = fresh.tip.bitcoinHeight →
      tracker.engine.commitmentWindow.length ≤ miningCommitmentWindow →
        tracker'.engine.commitmentWindow.length
          = tracker.engine.commitmentWindow.length + fresh.primingHeights.length := by
    intro tracker tracker' hprime htip hroom
    have hsame : tracker.primingHeights = fresh.primingHeights := by
      unfold primingHeights
      rw [htip]
    simp only [SortitionTracker.prime, hsame, bind_eq_ok, return_eq_ok] at hprime
    obtain ⟨primed, hprimed, rfl⟩ := hprime
    exact (primeHeights_length (by omega) hprimed).2
  have hempty : fresh.engine.commitmentWindow.length = 0 := by rw [hfresh, List.length_nil]
  obtain ⟨htip, hleft'⟩ := primeHeights_length (by omega) hleft
  have hretries := hlength hretried htip (by omega)
  have hwholly := hlength hwhole rfl (by omega)
  have hfirst : fresh.primingHeights.head? = some fresh.readsFrom := by
    rw [primingHeights, List.head?_range', if_neg (by omega)]
  cases before with
  | nil =>
    cases hleft
    cases hretried.symm.trans hwhole
    rw [hsplit] at hfirst
    cases hfirst
    exact iff_of_true rfl ⟨reason, hfailed⟩
  | cons first before =>
    rw [List.length_cons] at hleft'
    refine iff_of_false (fun hsame => ?_) ?_
    · rw [hsame] at hretries
      omega
    · rintro ⟨reason', hunread⟩
      rw [hsplit] at hfirst
      cases hfirst
      obtain ⟨next, hnext, -⟩ := bind_eq_ok.1 hleft
      simp [primeHeight, hunread, Except.mapError] at hnext

/-- **What a failure leaves.** A failed advance leaves the tracker's chain as it was exactly when it
had nothing to note; a walk that such an advance or a failed read interrupts goes on as if it had not
been; and a prime that a failed read interrupts leaves, made again, the window of an unbroken one
exactly when the failed read was its first. -/
theorem interrupted_unchanged :
    (∀ tracker block payouts error left,
      tracker.advance H advantage block payouts = (.error error, left) →
        (SameChain left tracker ↔ Untouched tracker block payouts)) ∧
    (∀ tracker blockAt payouts count error left,
      walkOn H advantage blockAt payouts count tracker = (.error error, left) →
      (∀ walked reached block, walkOn H advantage blockAt payouts walked tracker = (.ok (), reached) →
        reached.advance H advantage block payouts = (.error error, left) →
          reached.commitmentFloor.isSome ∧ Untouched reached block payouts) →
      ∃ walked reached, walkOn H advantage blockAt payouts walked tracker = (.ok (), reached) ∧
        ∀ blockAt' more, walkOn H advantage blockAt' payouts walked tracker = (.ok (), reached) →
          walkOn H advantage blockAt' payouts (walked + more) tracker
            = walkOn H advantage blockAt' payouts more left) ∧
    ∀ (fresh : SortitionTracker) blockAt blockAt' payouts reason left retried whole,
      fresh.engine.commitmentWindow = [] →
      fresh.readWindow blockAt payouts = (.error (.bitcoin reason), left) →
      left.prime blockAt' payouts = .ok retried → fresh.prime blockAt' payouts = .ok whole →
        (retried.engine.commitmentWindow = whole.engine.commitmentWindow ↔
          ∃ reason, blockAt fresh.readsFrom = .error reason) := by
  refine ⟨fun _ _ _ _ _ h => advance_unchanged_iff H advantage h, ?_,
    fun _ _ _ _ _ _ _ _ hfresh hfailed hretried hwhole =>
      primed_again_iff hfresh hfailed hretried hwhole⟩
  intro tracker blockAt payouts count error left h huntouched
  obtain ⟨walked, reached, hwalked, hleft⟩ := walkOn_error_cases H advantage h
  obtain rfl : left = reached := by
    obtain rfl | ⟨block, -, hadvance⟩ := hleft
    · rfl
    · obtain ⟨hfloor, huntouched⟩ := huntouched walked reached block hwalked hadvance
      exact huntouched.left_eq H advantage hfloor hadvance
  exact ⟨walked, left, hwalked, fun blockAt' more h => walkOn_add H advantage walked more h⟩

/-- With cycles of twenty blocks, a tracker at burn 104 is handed burn 121 in place of burn 105. The
cycle that burn 121 opens stays counted, and burn 105 is then derived in a cycle too many. -/
theorem cycle_opened_twice :
    let walked := walkOn blankHashes (fun _ => 0) (.ok ∘ emptyBlock) twentyBlockCycles 1
    let misled := walkOn blankHashes (fun _ => 0) (fun _ => .ok (emptyBlock 121)) twentyBlockCycles 1
      (emptyStart 104)
    misled.1 = .error (.sortition (.unexpectedHeight 105 121)) ∧
      (emptyStart 104).poxId.bits = [true] ∧ misled.2.poxId.bits = [true, true] ∧
      (walked (emptyStart 104)).2.tip.poxId.bits = [true] ∧
      (walked misled.2).2.tip.poxId.bits = [true, true] := by
  decide +kernel

end NanoStacks.Tracker
