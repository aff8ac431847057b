import NanoStacks.Sortition.Elected
import NanoStacks.Tracker.Restart

/-!
# The last sortition across a restart

A tracker that is saved writes down the heights it remembers, and the one last sortition at or below
the height it is saved on. Loading takes the first where there are any, and the second otherwise, so
the sortitions of the snapshots it held are lost in the first case (`restart_answers`).
-/

namespace NanoStacks.Tracker

open Bitcoin Sortition Result Suffix Latest List SnapshotChain SortitionTracker

variable (H : Hashes) (advantage : CarryoverAdvantage)

/-! ## What a tracker can reach -/

/-- The trackers a run can reach from a start, whatever its calls return. -/
inductive Reached (start : SortitionTracker) : SortitionTracker → Prop
  | start : Reached start start
  | advance {tracker : SortitionTracker} (block : BitcoinBlock) (payouts : PayoutSchedule) :
      Reached start tracker → Reached start (tracker.advance H advantage block payouts).2
  | retractAbove {tracker tracker' : SortitionTracker} {height : Nat} {reorg : SortitionReorg} :
      Reached start tracker → tracker.retractAbove height = .ok (reorg, tracker') →
      Reached start tracker'
  | keepFrom {tracker : SortitionTracker} (height : Nat) :
      Reached start tracker → Reached start (tracker.keepFrom height)

/-- The snapshots held have consecutive heights. -/
def Numbered (chain : SnapshotChain) : Prop :=
  ∃ first, chain.snapshots.map (·.bitcoinHeight) = List.range' first chain.snapshots.length

/-- A chain whose snapshots follow each other, with what it remembers below. -/
structure Standing (chain : SnapshotChain) : Prop where
  orderly : Orderly chain.snapshots chain.sortitionsBelowWindow
  numbered : Numbered chain

section Standing

variable {chain : SnapshotChain}

theorem tip_numbered {first : Nat}
    (h : chain.snapshots.map (·.bitcoinHeight) = List.range' first chain.snapshots.length) :
    chain.tip.bitcoinHeight + 1 = first + chain.snapshots.length := by
  have hpos := length_pos_iff.2 chain.snapshots_ne_nil
  have hlast : (chain.snapshots.map (·.bitcoinHeight)).getLast? = some chain.tip.bitcoinHeight := by
    rw [getLast?_map, getLast?_eq_some_getLast chain.snapshots_ne_nil]
    rfl
  rw [h, getLast?_range', if_neg hpos.ne', Option.some.injEq] at hlast
  omega

variable {snapshot : SortitionSnapshot}

section

variable (h : Numbered chain) (hheight : snapshot.bitcoinHeight = chain.tip.bitcoinHeight + 1)

include h hheight

theorem Numbered.lt_next :
    ∀ held ∈ chain.snapshots, held.bitcoinHeight < snapshot.bitcoinHeight := by
  obtain ⟨first, hfirst⟩ := h
  intro held hheld
  have hmem := mem_map_of_mem (f := (·.bitcoinHeight)) hheld
  rw [hfirst, mem_range'_1] at hmem
  have htip := tip_numbered hfirst
  omega

theorem Numbered.push : Numbered (chain.push snapshot) := by
  obtain ⟨first, hfirst⟩ := h
  have htip := tip_numbered hfirst
  have hsnapshots : (chain.push snapshot).snapshots = (chain.snapshots ++ [snapshot]).drop
      (chain.snapshots.length + 1 - chain.snapshotsToKeep snapshot) := by
    show (forgetSnapshots _ _ _).1 = _
    rw [forgetSnapshots_fst, length_append, length_singleton]
  have hall : (chain.snapshots ++ [snapshot]).map (·.bitcoinHeight)
      = range' first (chain.snapshots.length + 1) := by
    rw [map_append, hfirst, range'_concat, Nat.one_mul, ← htip, ← hheight]
    rfl
  exact ⟨_, by rw [hsnapshots, map_drop, hall, drop_range', length_drop,
    length_append, length_singleton]⟩

end

theorem Standing.push (h : Standing chain)
    (hheight : snapshot.bitcoinHeight = chain.tip.bitcoinHeight + 1) :
    Standing (chain.push snapshot) :=
  ⟨Orderly.forgetSnapshots _
      ⟨h.orderly.concat chain.snapshots_ne_nil (Numbered.lt_next h.numbered hheight),
        h.orderly.short⟩,
    Numbered.push h.numbered hheight⟩

theorem take_range' (first n k : Nat) :
    (List.range' first n).take k = List.range' first (min k n) := by
  rcases le_total k n with hle | hle
  · obtain ⟨rest, rfl⟩ := Nat.exists_eq_add_of_le hle
    rw [Nat.min_eq_left hle, ← range'_append_1, take_left' (length_range' ..)]
  · rw [Nat.min_eq_right hle, take_of_length_le (by rwa [length_range'])]

variable {height : Nat}

theorem Numbered.retractAbove (h : Numbered chain) {chain' : SnapshotChain} {reorg : SortitionReorg}
    (hretract : chain.retractAbove height = .ok (reorg, chain')) : Numbered chain' := by
  simp only [SnapshotChain.retractAbove, bind_eq_ok, return_eq_ok, Prod.mk.injEq] at hretract
  obtain ⟨-, -, -, rfl⟩ := hretract
  obtain ⟨first, hfirst⟩ := h
  refine ⟨first, ?_⟩
  show map _ (take _ _) = range' first (take _ _).length
  rw [map_take, hfirst, take_range', length_take]

theorem Standing.retractAbove (h : Standing chain) {chain' : SnapshotChain} {reorg : SortitionReorg}
    (hretract : chain.retractAbove height = .ok (reorg, chain')) : Standing chain' := by
  have hnumbered := Numbered.retractAbove h.numbered hretract
  simp only [SnapshotChain.retractAbove, bind_eq_ok, return_eq_ok, Prod.mk.injEq] at hretract
  obtain ⟨-, -, -, rfl⟩ := hretract
  exact ⟨⟨⟨h.orderly.increasing.sublist (take_sublist _ _), h.orderly.sorted,
    fun height hmem snapshot hheld => h.orderly.below height hmem snapshot
      (mem_of_mem_take hheld)⟩, h.orderly.short⟩, hnumbered⟩

theorem append_snapshots (engine : SortitionEngine) (input : AppendInput) :
    (engine.append H advantage input).2.snapshots = engine.snapshots ∨
      ∃ snapshot, snapshot.bitcoinHeight = engine.snapshots.tip.bitcoinHeight + 1 ∧
        (engine.append H advantage input).2.snapshots = engine.snapshots.push snapshot := by
  cases hresult : (engine.append H advantage input).1 with
  | ok snapshot =>
    right
    refine ⟨snapshot, (engine.append_height H advantage input hresult).1, ?_⟩
    rw [engine.append_snd H advantage input hresult]
    rfl
  | error e =>
    left
    unfold SortitionEngine.append at hresult ⊢
    split at hresult
    · rfl
    · dsimp only at hresult ⊢
      split at hresult <;> simp_all

theorem advance_snapshots (tracker : SortitionTracker) (block : BitcoinBlock)
    (payouts : PayoutSchedule) :
    (tracker.advance H advantage block payouts).2.engine.snapshots = tracker.engine.snapshots ∨
      ∃ snapshot, snapshot.bitcoinHeight = tracker.tip.bitcoinHeight + 1 ∧
        (tracker.advance H advantage block payouts).2.engine.snapshots
          = tracker.engine.snapshots.push snapshot := by
  unfold advance
  split_ifs
  · exact .inl rfl
  · cases tracker.payoutsAt payouts block.height with
    | error e => exact .inl rfl
    | ok resolved => exact append_snapshots H advantage _ _

variable {H advantage}

/-- **Whatever a tracker is put through, its chain stands.** -/
theorem Reached.standing {start tracker : SortitionTracker}
    (hstart : Standing start.engine.snapshots) (h : Reached H advantage start tracker) :
    Standing tracker.engine.snapshots := by
  induction h with
  | start => exact hstart
  | @advance tracker block payouts _ ih =>
    rcases advance_snapshots H advantage tracker block payouts with
      hsame | ⟨snapshot, hheight, hpush⟩
    · exact hsame ▸ ih
    · exact hpush ▸ ih.push hheight
  | retractAbove _ hretract ih =>
    simp only [SortitionTracker.retractAbove, SortitionEngine.retractAbove, bind_eq_ok,
      mapError_eq_ok, return_eq_ok, Prod.mk.injEq, Prod.exists] at hretract
    obtain ⟨_, engine, ⟨-, -, _, chain, hchain, rfl, rfl⟩, -, rfl⟩ := hretract
    exact ih.retractAbove hchain
  | @keepFrom tracker height _ ih =>
    show Standing (tracker.engine.snapshots.keepFrom height)
    unfold SnapshotChain.keepFrom
    split_ifs
    · exact ⟨ih.orderly, ih.numbered⟩
    · exact ih

theorem Numbered.snapshotAt (h : Numbered chain) (hheld : chain.snapshotAt height = some snapshot) :
    snapshot ∈ chain.snapshots ∧ snapshot.bitcoinHeight = height ∧
      height ≤ chain.tip.bitcoinHeight := by
  obtain ⟨first, hfirst⟩ := h
  have htip := tip_numbered hfirst
  unfold SnapshotChain.snapshotAt at hheld
  have hle : height ≤ chain.tip.bitcoinHeight := by
    by_contra hnot
    simp [hnot] at hheld
  have hback : chain.tip.bitcoinHeight - height + 1 ≤ chain.snapshots.length := by
    by_contra hnot
    simp [hnot] at hheld
  simp only [hle, hback, if_true] at hheld
  refine ⟨mem_of_getElem? hheld, ?_, hle⟩
  have hget := congrArg (Option.map (·.bitcoinHeight)) hheld
  rw [← getElem?_map, hfirst, getElem?_range' (by omega), Option.map_some,
    Option.some.injEq] at hget
  omega

end Standing

/-! ## What a resumed tracker knows -/

/-- Nothing is lost of what a tracker knows by saving it on a height: it remembers nothing, so the last
sortition is written down, or it remembers every sortition it holds a snapshot of below. -/
def SortitionTracker.RemembersBelow (tracker : SortitionTracker) (height : Nat) : Prop :=
  tracker.engine.snapshots.sortitionsBelowWindow = [] ∨
    ∀ snapshot ∈ tracker.engine.snapshots.snapshots, snapshot.bitcoinHeight < height →
      snapshot.winnerTxid.isSome →
      snapshot.bitcoinHeight ∈ tracker.engine.snapshots.sortitionsBelowWindow

instance (tracker : SortitionTracker) (height : Nat) : Decidable (tracker.RemembersBelow height) := by
  unfold SortitionTracker.RemembersBelow
  infer_instance

/-- The heights a tracker that was saved on a height is loaded with. -/
def SortitionTracker.writtenDown (tracker : SortitionTracker) (height : Nat) : List Nat :=
  if tracker.engine.snapshots.sortitionsBelowWindow = [] then
    (tracker.engine.snapshots.lastSortitionAtOrBelow height).toList
  else tracker.engine.snapshots.sortitionsBelowWindow

variable {tracker : SortitionTracker}

theorem remembered_capturedSnapshot {snapshot : SortitionSnapshot}
    (hsorted : tracker.engine.snapshots.sortitionsBelowWindow.Pairwise (· < ·))
    (poxPayouts : Option (Bool × Bytes 32)) :
    (tracker.capturedSnapshot snapshot poxPayouts).remembered
      = tracker.writtenDown snapshot.bitcoinHeight := by
  show (if tracker.engine.snapshots.sortitionsBelowWindow.isEmpty then _ else
    (tracker.engine.snapshots.sortitionsBelowWindow.insertionSort (· ≤ ·)).dedup) = _
  rw [(hsorted.imp le_of_lt).insertionSort_eq, List.Nodup.dedup (hsorted.imp ne_of_lt)]
  simp only [List.isEmpty_iff, writtenDown]
  rfl

/-- The chain of a tracker loaded from what was saved. -/
structure LoadedOn (tracker : SortitionTracker) (snapshot root : SortitionSnapshot)
    (chain : SnapshotChain) : Prop where
  snapshots : chain.snapshots = [root]
  height : root.bitcoinHeight = snapshot.bitcoinHeight
  winner : root.winnerTxid = snapshot.winnerTxid
  needed : chain.neededFrom = none
  remembered : chain.sortitionsBelowWindow = tracker.writtenDown snapshot.bitcoinHeight

variable {capture : Capture}

theorem fromCapture_loadedOn {resumed : SortitionTracker} {snapshot : SortitionSnapshot}
    (hsorted : tracker.engine.snapshots.sortitionsBelowWindow.Pairwise (· < ·))
    (hsaved : SavedAs tracker snapshot capture) (hload : fromCapture H capture = .ok resumed) :
    LoadedOn tracker snapshot resumed.tip resumed.engine.snapshots := by
  obtain ⟨poxPayouts, hrows⟩ := hsaved.snapshots
  simp only [fromCapture, bind_eq_ok, okOr_eq_ok] at hload
  obtain ⟨anchor, -, row, hrow, hload⟩ := hload
  obtain rfl : row = tracker.capturedSnapshot snapshot poxPayouts := by
    have hmem := mem_of_find?_eq_some hrow
    rwa [hrows, mem_singleton] at hmem
  obtain ⟨root, hroot, -, rfl⟩ := (trackerFromCaptureSeed_eq_ok H).1 hload
  simp only [seedSnapshot, bind_eq_ok, okOr_eq_ok, return_eq_ok] at hroot
  obtain ⟨-, -, -, -, poxId, -, rfl⟩ := hroot
  refine ⟨rfl, rfl, ?_, rfl, remembered_capturedSnapshot hsorted poxPayouts⟩
  show (if CapturedSnapshot.elected _ then snapshot.winnerTxid else none) = snapshot.winnerTxid
  cases hwinner : snapshot.winnerTxid <;>
    simp [CapturedSnapshot.elected, capturedSnapshot, hwinner]

section Known

variable {tracker : SortitionTracker} {snapshot root : SortitionSnapshot} {chain : SnapshotChain}

theorem LoadedOn.mem_known (h : LoadedOn tracker snapshot root chain) {height : Nat} :
    height ∈ knownHeights chain.snapshots chain.sortitionsBelowWindow ↔
      height ∈ tracker.writtenDown snapshot.bitcoinHeight ∨
        snapshot.winnerTxid.isSome ∧ height = snapshot.bitcoinHeight := by
  rw [mem_knownHeights, h.snapshots, h.remembered]
  simp only [mem_singleton, exists_eq_left, h.winner, h.height,
    eq_comm (a := snapshot.bitcoinHeight)]

/-- **A resumed tracker knows a final segment of what the saved one knew exactly if that one
remembered** the sortitions below. -/
theorem LoadedOn.finalSegment_iff (h : LoadedOn tracker snapshot root chain)
    (hstanding : Standing tracker.engine.snapshots)
    (hmem : snapshot ∈ tracker.engine.snapshots.snapshots) :
    FinalSegment
        (knownHeights chain.snapshots chain.sortitionsBelowWindow ∩ Set.Iic snapshot.bitcoinHeight)
        (knownHeights tracker.engine.snapshots.snapshots
          tracker.engine.snapshots.sortitionsBelowWindow ∩ Set.Iic snapshot.bitcoinHeight) ↔
      tracker.RemembersBelow snapshot.bitcoinHeight := by
  have horderly := hstanding.orderly
  have hlatest := horderly.latestOf
  have helected : snapshot.winnerTxid.isSome → snapshot.bitcoinHeight ∈ knownHeights
      tracker.engine.snapshots.snapshots tracker.engine.snapshots.sortitionsBelowWindow :=
    fun hsome => mem_knownHeights.2 (.inr ⟨snapshot, hmem, hsome, rfl⟩)
  by_cases hempty : tracker.engine.snapshots.sortitionsBelowWindow = []
  · refine iff_of_true ?_ (.inl hempty)
    have hknown : ∀ height, height ∈ knownHeights chain.snapshots chain.sortitionsBelowWindow →
        tracker.engine.snapshots.lastSortitionAtOrBelow snapshot.bitcoinHeight = some height := by
      intro height hheight
      rcases h.mem_known.1 hheight with hwritten | ⟨hsome, rfl⟩
      · rw [writtenDown, if_pos hempty] at hwritten
        exact Option.mem_toList.1 hwritten
      · exact hlatest.eq_some ⟨⟨helected hsome, le_rfl⟩, fun _ hother => hother.2⟩
    refine ⟨fun height hheight => ⟨(hlatest.some (hknown height hheight.1)).1.1, hheight.2⟩, ?_⟩
    intro height hheight later hlater hle
    have hlast := hlatest.some (hknown height hheight.1)
    rw [le_antisymm (hlast.2 hlater) hle]
    exact hheight
  · have hwritten : tracker.writtenDown snapshot.bitcoinHeight
        = tracker.engine.snapshots.sortitionsBelowWindow := if_neg hempty
    constructor
    · intro hsegment
      refine .inr fun held hheld hlt hsome => ?_
      obtain ⟨oldest, holdest⟩ := exists_mem_of_ne_nil _ hempty
      have hle := horderly.below oldest holdest held hheld
      have hknown := hsegment.upward oldest
        ⟨h.mem_known.2 (.inl (hwritten ▸ holdest)), hle.trans hlt.le⟩ held.bitcoinHeight
        ⟨mem_knownHeights.2 (.inr ⟨held, hheld, hsome, rfl⟩), hlt.le⟩ hle
      rcases h.mem_known.1 hknown.1 with hmem | ⟨-, heq⟩
      · rwa [hwritten] at hmem
      · exact absurd heq hlt.ne
    · intro hremembers
      have hremembers := hremembers.resolve_left hempty
      refine ⟨fun height hheight => ⟨?_, hheight.2⟩, fun _ _ height hheight _ => ⟨?_, hheight.2⟩⟩
      · rcases h.mem_known.1 hheight.1 with hmem | ⟨hsome, rfl⟩
        · exact mem_knownHeights.2 (.inl (hwritten ▸ hmem))
        · exact helected hsome
      · apply h.mem_known.2
        rw [hwritten]
        rcases mem_knownHeights.1 hheight.1 with hremembered | ⟨held, hheld, hsome, rfl⟩
        · exact .inl hremembered
        · rcases (Set.mem_Iic.1 hheight.2).eq_or_lt with heq | hlt
          · have hnodup : (tracker.engine.snapshots.snapshots.map (·.bitcoinHeight)).Nodup :=
              (pairwise_map.2 horderly.increasing).imp ne_of_lt
            obtain rfl := inj_on_of_nodup_map hnodup hheld hmem heq
            exact .inr ⟨hsome, rfl⟩
          · exact .inl (hremembers held hheld hlt hsome)

end Known

section Answers

variable {H advantage} {tracker resumed : SortitionTracker}

theorem LoadedOn.orderly {snapshot root : SortitionSnapshot} {chain : SnapshotChain}
    (h : LoadedOn tracker snapshot root chain) (hstanding : Standing tracker.engine.snapshots)
    (hmem : snapshot ∈ tracker.engine.snapshots.snapshots) :
    Orderly chain.snapshots chain.sortitionsBelowWindow := by
  have horderly := hstanding.orderly
  have hroot : ∀ held ∈ chain.snapshots, held.bitcoinHeight = snapshot.bitcoinHeight := by
    intro held hheld
    rw [h.snapshots, mem_singleton] at hheld
    rw [hheld, h.height]
  refine ⟨⟨by rw [h.snapshots]; exact pairwise_singleton _ _, ?_, fun height hheight held hheld =>
    ?_⟩, ?_⟩
  all_goals rw [h.remembered, writtenDown] at *
  · split_ifs
    · cases tracker.engine.snapshots.lastSortitionAtOrBelow snapshot.bitcoinHeight <;> simp
    · exact horderly.sorted
  · rw [hroot held hheld]
    split_ifs at hheight
    · exact (horderly.latestOf.some (Option.mem_toList.1 hheight)).1.2
    · exact horderly.below height hheight snapshot hmem
  · split_ifs
    · cases tracker.engine.snapshots.lastSortitionAtOrBelow snapshot.bitcoinHeight <;>
        simp [snapshotsKept]
    · exact horderly.short

theorem previousSortitionHeight_iff (tracker resumed : SortitionTracker) (height : Nat) :
    (∀ query ≤ height + 1, resumed.previousSortitionHeight query = none ∨
        resumed.previousSortitionHeight query = tracker.previousSortitionHeight query) ↔
      ∀ point ∈ Set.Iic height,
        resumed.engine.snapshots.lastSortitionAtOrBelow point = none ∨
        resumed.engine.snapshots.lastSortitionAtOrBelow point
          = tracker.engine.snapshots.lastSortitionAtOrBelow point := by
  constructor
  · intro h point hpoint
    exact h (point + 1) (Nat.succ_le_succ hpoint)
  · intro h query hquery
    cases query with
    | zero => exact .inl rfl
    | succ point => exact h point (Nat.le_of_succ_le_succ hquery)

/-- **Up to the height it was saved on, a resumed tracker answers as the saved one did, or not at all,
exactly if that one remembered** the sortitions below. -/
theorem Standing.answers_iff (hstanding : Standing tracker.engine.snapshots) {height : Nat}
    {snapshot : SortitionSnapshot} (hheld : tracker.snapshotAt height = some snapshot)
    (hsave : tracker.saveStandingOn height = .ok capture)
    (hload : fromCapture H capture = .ok resumed) :
    (∀ query ≤ height + 1, resumed.previousSortitionHeight query = none ∨
        resumed.previousSortitionHeight query = tracker.previousSortitionHeight query) ↔
      tracker.RemembersBelow height := by
  obtain ⟨hmem, rfl, hle⟩ := Numbered.snapshotAt hstanding.numbered hheld
  have hsaved := saveStandingOn_savedAs hle hheld hsave
  have hloaded := fromCapture_loadedOn H hstanding.orderly.sorted hsaved hload
  rw [previousSortitionHeight_iff, (hloaded.orderly hstanding hmem).latestOf.none_or_eq_iff
    hstanding.orderly.latestOf (isLowerSet_Iic _)]
  exact hloaded.finalSegment_iff hstanding hmem

end Answers

/-! ## Walking on -/

section Walking

variable {chain behind ahead : SnapshotChain} {derived : List SortitionSnapshot}

theorem Standing.foldl_push (h : Standing chain) (hderived : derived.map (·.bitcoinHeight)
      = List.range' (chain.tip.bitcoinHeight + 1) derived.length) :
    Standing (derived.foldl SnapshotChain.push chain) := by
  induction derived generalizing chain with
  | nil => exact h
  | cons snapshot derived ih =>
    rw [map_cons, length_cons, range'_succ, cons.injEq] at hderived
    refine ih (h.push hderived.1) ?_
    rw [tip_push, hderived.1]
    exact hderived.2

/-- **Walking on over the same blocks leaves a chain trailing another.** -/
theorem foldl_push_trails (h : Trails behind ahead) (hstanding : Standing ahead)
    (hderived : derived.map (·.bitcoinHeight)
      = List.range' (ahead.tip.bitcoinHeight + 1) derived.length) :
    Trails (derived.foldl push behind) (derived.foldl push ahead) := by
  induction derived generalizing behind ahead with
  | nil => exact h
  | cons snapshot derived ih =>
    rw [map_cons, length_cons, range'_succ, cons.injEq] at hderived
    refine ih (h.push (Numbered.lt_next hstanding.numbered hderived.1)) (hstanding.push hderived.1) ?_
    rw [tip_push, hderived.1]
    exact hderived.2

theorem foldl_push_short (hneeded : chain.neededFrom = none)
    (hshort : chain.snapshots.length + derived.length ≤ snapshotsKept) :
    (derived.foldl push chain).snapshots = chain.snapshots ++ derived ∧
      (derived.foldl push chain).sortitionsBelowWindow = chain.sortitionsBelowWindow ∧
      (derived.foldl push chain).neededFrom = none := by
  induction derived generalizing chain with
  | nil => exact ⟨(append_nil _).symm, rfl, hneeded⟩
  | cons snapshot derived ih =>
    rw [length_cons] at hshort
    have hkeep : chain.snapshotsToKeep snapshot = snapshotsKept := by
      rw [snapshotsToKeep, hneeded]
    have hforget : forgetSnapshots (chain.snapshotsToKeep snapshot) (chain.snapshots ++ [snapshot])
        chain.sortitionsBelowWindow = (chain.snapshots ++ [snapshot], chain.sortitionsBelowWindow) := by
      rw [hkeep, forgetSnapshots_of_length_le]
      rw [length_append, length_singleton]
      omega
    have hsnapshots : (chain.push snapshot).snapshots = chain.snapshots ++ [snapshot] :=
      congrArg Prod.fst hforget
    have hremembered : (chain.push snapshot).sortitionsBelowWindow = chain.sortitionsBelowWindow :=
      congrArg Prod.snd hforget
    have hneeded' : (chain.push snapshot).neededFrom = none := hneeded
    have hshort' : (chain.push snapshot).snapshots.length + derived.length ≤ snapshotsKept := by
      rw [hsnapshots, length_append, length_singleton]
      omega
    have hrest := ih hneeded' hshort'
    rwa [hsnapshots, hremembered, append_assoc] at hrest

end Walking

section Restarted

variable {H advantage} {chain : Nat → BitcoinBlock} {payouts : PayoutSchedule}

variable {tracker : SortitionTracker}

theorem walk_heights {tracker' : SortitionTracker} {inputs : List AdvanceInput}
    {derived : List SortitionSnapshot}
    (hwalk : tracker.walk H advantage inputs = .ok (derived, tracker')) :
    derived.map (·.bitcoinHeight) = List.range' (tracker.tip.bitcoinHeight + 1) derived.length := by
  obtain ⟨appends, hwalked⟩ := Walked.start.append_walk hwalk
  have hheights := hwalked.built.heights.1
  have hlength := congrArg length hheights
  rw [length_map, length_append, length_singleton, length_range'] at hlength
  rw [map_append, ← hlength, Nat.add_comm 1, range'_succ] at hheights
  exact (cons.inj hheights).2

theorem PrimedFrom.standsOn {fresh start : SortitionTracker} {windows : List CommitmentWindowBlock}
    {before noted : TrackerNotes} {window : CommitmentWindowBlock}
    (h : PrimedFrom chain payouts fresh start windows before window noted) (hloaded : Loaded H fresh) :
    start.engine.snapshots.snapshots = [start.tip] ∧
      start.tip.bitcoinHeight = fresh.tip.bitcoinHeight ∧
      start.tip.winnerTxid = fresh.tip.winnerTxid ∧
      start.engine.snapshots.neededFrom = none ∧
      start.engine.snapshots.sortitionsBelowWindow
        = fresh.engine.snapshots.sortitionsBelowWindow := by
  obtain ⟨seed, key, spends, hsnapshots, -⟩ := h.root
  have htip : start.tip = filledRoot fresh.tip seed key spends := by
    rw [SortitionTracker.tip, hsnapshots, tip_updateTip]
    rfl
  refine ⟨?_, by rw [htip]; rfl, by rw [htip]; rfl, ?_, ?_⟩
  · rw [htip, hsnapshots]
    simp only [updateTip, hloaded.root, dropLast_singleton, nil_append]
    rfl
  · rw [hsnapshots]
    exact hloaded.needed
  · rw [hsnapshots]
    rfl

theorem fromCapture_loaded {resumed : SortitionTracker} (h : fromCapture H capture = .ok resumed) :
    Loaded H resumed := by
  simp only [fromCapture, bind_eq_ok, okOr_eq_ok] at h
  obtain ⟨anchor, -, row, -, hload⟩ := h
  exact trackerFromCaptureSeed_loaded H hload

/-- A tracker that resumes another on a height and walks up to it, without forgetting anything. -/
theorem LoadedOn.trails {snapshot root : SortitionSnapshot} {resumed : SnapshotChain}
    (h : LoadedOn tracker snapshot root resumed) (hstanding : Standing tracker.engine.snapshots)
    (hneeded : tracker.engine.snapshots.neededFrom = none)
    (hremembers : tracker.RemembersBelow snapshot.bitcoinHeight)
    {earlier back : List SortitionSnapshot}
    (hheld : tracker.engine.snapshots.snapshots = earlier ++ [snapshot] ++ back)
    (hlength : tracker.engine.snapshots.snapshots.length ≤ snapshotsKept) :
    Trails (back.foldl SnapshotChain.push resumed) tracker.engine.snapshots := by
  have hmem : snapshot ∈ tracker.engine.snapshots.snapshots := by simp [hheld]
  have horderly := h.orderly hstanding hmem
  have hroot : resumed.tip = root := by
    simp only [SnapshotChain.tip, h.snapshots, getLast_singleton]
  have hincreasing := hstanding.orderly.increasing
  rw [hheld, pairwise_append] at hincreasing
  have hback : ∀ later ∈ back, snapshot.bitcoinHeight < later.bitcoinHeight := fun later hlater =>
    hincreasing.2.2 snapshot (by simp) later hlater
  have hearlier : ∀ older ∈ earlier ++ [snapshot],
      older.bitcoinHeight ≤ snapshot.bitcoinHeight := by
    have hbefore := (pairwise_append.1 hincreasing.1).2.2
    simp only [mem_singleton, forall_eq] at hbefore
    grind
  have hnumbered : back.map (·.bitcoinHeight)
      = range' (resumed.tip.bitcoinHeight + 1) back.length := by
    obtain ⟨first, hfirst⟩ := hstanding.numbered
    rw [hheld, map_append, length_append, ← range'_append_1] at hfirst
    obtain ⟨hupTo, hrest⟩ := append_inj hfirst (by rw [length_map, length_range'])
    have hlast := congrArg getLast? hupTo
    rw [getLast?_map, getLast?_concat, getLast?_range', length_append, length_singleton] at hlast
    simp only [Option.map_some, Nat.add_one_ne_zero, if_false, Option.some.injEq] at hlast
    rw [hrest, hroot, h.height, hlast, length_append, length_singleton]
    rfl
  have hchain : Standing resumed :=
    ⟨horderly, root.bitcoinHeight, by rw [h.snapshots]; rfl⟩
  have hshort : resumed.snapshots.length + back.length ≤ snapshotsKept := by
    rw [hheld, length_append, length_append] at hlength
    rw [h.snapshots]
    simp only [length_singleton] at hlength ⊢
    omega
  obtain ⟨hsnapshots, hremembered, hneeded'⟩ := foldl_push_short h.needed hshort
  refine ⟨(hchain.foldl_push hnumbered).orderly, hstanding.orderly, hneeded', hneeded, ?_, ?_⟩
  · rw [hsnapshots, h.snapshots, hheld, append_assoc, map_append, map_append,
      map_append, map_singleton, map_singleton, h.height]
    exact suffix_append _ _
  · have hknown : knownHeights (back.foldl SnapshotChain.push resumed).snapshots
        (back.foldl SnapshotChain.push resumed).sortitionsBelowWindow =
          knownHeights resumed.snapshots resumed.sortitionsBelowWindow ∪
            {height | height ∈ electedHeights back} := by
      ext height
      simp [hsnapshots, hremembered, knownHeights, electedHeights, filterMap_append, or_assoc]
    rw [hknown]
    apply ((h.finalSegment_iff hstanding hmem).2 hremembers).union
    · intro height hheight
      show height ≤ snapshot.bitcoinHeight
      rw [← h.height]
      rcases mem_knownHeights.1 hheight with hmem | ⟨held, hheld, -, rfl⟩
      · exact horderly.below height hmem root (by simp [h.snapshots])
      · rw [h.snapshots, mem_singleton] at hheld
        rw [hheld]
    · exact forall_mem_electedHeights hback
    · intro height hheight
      obtain ⟨later, hlater, hsome, rfl⟩ := mem_electedHeights.1 hheight
      exact mem_knownHeights.2 (.inr ⟨later, hheld ▸ mem_append_right _ hlater, hsome, rfl⟩)
    · intro height hheight
      rcases mem_knownHeights.1 hheight with hmem' | ⟨held, hheld', hsome, rfl⟩
      · exact .inl (hstanding.orderly.below height hmem' snapshot hmem)
      · rw [hheld] at hheld'
        rcases mem_append.1 hheld' with holder | hlater
        · exact .inl (hearlier held holder)
        · exact .inr (mem_electedHeights.2 ⟨held, hlater, hsome, rfl⟩)

theorem trails_answers {behind ahead : SortitionTracker}
    (h : Trails behind.engine.snapshots ahead.engine.snapshots) (query : Nat) :
    behind.previousSortitionHeight query = none ∨
      behind.previousSortitionHeight query = ahead.previousSortitionHeight query := by
  have hall := h.orderly.latestOf.none_or_eq_iff h.orderly'.latestOf isLowerSet_univ
  rw [Set.inter_univ, Set.inter_univ] at hall
  exact (previousSortitionHeight_iff ahead behind query).2
    (fun point _ => hall.2 h.known point trivial) query (Nat.le_succ query)

/-- A row of a checkpoint that remembers no sortition above its own height, and not too many. -/
structure OrderlyRow (row : CapturedSnapshot) : Prop where
  remembered : ∀ height ∈ row.sortitionsBelowWindow, height ≤ row.blockHeight
  last : ∀ height ∈ row.lastSortitionHeight, height ≤ row.blockHeight
  short : row.sortitionsBelowWindow.length ≤ snapshotsKept

theorem OrderlyRow.standing {row : CapturedSnapshot} {history : List ConsensusHash}
    {fresh : SortitionTracker} (h : OrderlyRow row)
    (hload : trackerFromCaptureSeed H capture row history = .ok fresh) :
    Standing fresh.engine.snapshots := by
  obtain ⟨root, hroot, -, rfl⟩ := (trackerFromCaptureSeed_eq_ok H).1 hload
  have hheight : root.bitcoinHeight = row.blockHeight := by
    simp only [seedSnapshot, bind_eq_ok, okOr_eq_ok, return_eq_ok] at hroot
    obtain ⟨-, -, -, -, poxId, -, rfl⟩ := hroot
    rfl
  refine ⟨⟨⟨pairwise_singleton _ _, ?_, ?_⟩, ?_⟩, root.bitcoinHeight, rfl⟩
  · show row.remembered.Pairwise (· < ·)
    unfold CapturedSnapshot.remembered
    split_ifs
    · cases row.lastSortitionHeight <;> simp
    · exact pairwise_seeded _
  · show ∀ height ∈ row.remembered, ∀ snapshot ∈ [root], height ≤ snapshot.bitcoinHeight
    intro height hmem snapshot hsnapshot
    rw [mem_singleton.1 hsnapshot, hheight]
    unfold CapturedSnapshot.remembered at hmem
    split_ifs at hmem
    · exact h.last height (Option.mem_toList.1 hmem)
    · rw [mem_dedup, mem_insertionSort] at hmem
      exact h.remembered height hmem
  · show row.remembered.length ≤ snapshotsKept
    unfold CapturedSnapshot.remembered
    split_ifs
    · cases row.lastSortitionHeight <;> simp [snapshotsKept]
    · refine (dedup_sublist _).length_le.trans ?_
      rw [length_insertionSort]
      exact h.short

theorem LoadedOn.primed {resumed origin : SortitionTracker} {snapshot : SortitionSnapshot}
    (hheight : ∀ height, (chain height).height = height)
    (h : LoadedOn tracker snapshot resumed.tip resumed.engine.snapshots)
    (hloaded : Loaded H resumed)
    (hprime : resumed.prime (fun height => .ok (chain height)) payouts = .ok origin) :
    LoadedOn tracker snapshot origin.tip origin.engine.snapshots := by
  obtain ⟨_, _, _, _, hprimed, -⟩ := prime_reads hheight hprime
  obtain ⟨hsnapshots, htip, hwinner, hneeded, hremembered⟩ := hprimed.standsOn hloaded
  exact ⟨hsnapshots, htip.trans h.height, hwinner.trans h.winner, hneeded,
    hremembered.trans h.remembered⟩

end Restarted

/-! ## Two restarts -/

variable {H advantage} in
theorem Reached.walk {start tracker' : SortitionTracker} {inputs : List AdvanceInput}
    {derived : List SortitionSnapshot} (h : Reached H advantage start tracker)
    (hwalk : tracker.walk H advantage inputs = .ok (derived, tracker')) :
    Reached H advantage start tracker' :=
  walk_invariant (Reached H advantage start)
    (fun _ input _ h _ => h.advance input.block input.payouts) h hwalk

/-- Load what a tracker writes down standing on a height. -/
def reloaded (tracker : SortitionTracker) (height : Nat) : Except TrackerError SortitionTracker := do
  let capture ← tracker.saveStandingOn height
  fromCapture blankHashes capture

def wonReloaded : SortitionTracker :=
  (fromCapture blankHashes wonSaved).toOption.getD quietFresh

/-- A tracker that walked past the winner, from a row that remembers the sortition of height 100. -/
def walkedPastWinner : Except TrackerError SortitionTracker := do
  let fresh ← trackerFromCaptureSeed blankHashes quietCapture
    { quietRow with sortitionsBelowWindow := [100] } [Bytes.zero 20]
  let start ← fresh.prime (fun height => .ok (wonChain height)) epochFourAt131
  let (_, tracker) ← start.walk blankHashes (fun _ => 0)
    (blocksBetween wonChain epochFourAt131 120 132)
  return tracker

end NanoStacks.Tracker
