import NanoStacks.Lib.Latest
import NanoStacks.Lib.Suffix
import NanoStacks.Sortition.Engine

/-!
# The last sortition

A chain knows the heights that elected somebody among the snapshots it holds, and those it remembers
of the snapshots it forgot. `lastSortitionAtOrBelow` is answered with the latest of them
(`Ordered.latestOf`). Forgetting a snapshot moves its height from the first to the second, and where
too many are remembered the oldest goes. A chain that knows a final segment of what another knows, and
holds no older snapshots, still does when both are pushed the same snapshots (`Trails.push`).
-/

namespace NanoStacks.Sortition

open Latest Suffix List

/-- The heights that elected somebody. -/
def electedHeights (snapshots : List SortitionSnapshot) : List Nat :=
  snapshots.filterMap fun snapshot => snapshot.winnerTxid.map fun _ => snapshot.bitcoinHeight

variable {snapshots : List SortitionSnapshot}

theorem mem_electedHeights {height : Nat} :
    height ∈ electedHeights snapshots ↔
      ∃ snapshot ∈ snapshots, snapshot.winnerTxid.isSome ∧ snapshot.bitcoinHeight = height := by
  simp only [electedHeights, mem_filterMap, Option.map_eq_some_iff, Option.isSome_iff_exists]
  grind

theorem forall_mem_electedHeights {p : Nat → Prop} (h : ∀ snapshot ∈ snapshots, p snapshot.bitcoinHeight) :
    ∀ height ∈ electedHeights snapshots, p height := by
  intro height hmem
  obtain ⟨snapshot, hheld, -, rfl⟩ := mem_electedHeights.1 hmem
  exact h snapshot hheld

/-- The heights known to have elected somebody. -/
def knownHeights (snapshots : List SortitionSnapshot) (remembered : List Nat) : Set Nat :=
  {height | height ∈ remembered ++ electedHeights snapshots}

variable {remembered : List Nat}

theorem mem_knownHeights {height : Nat} : height ∈ knownHeights snapshots remembered ↔
      height ∈ remembered ∨
        ∃ snapshot ∈ snapshots, snapshot.winnerTxid.isSome ∧ snapshot.bitcoinHeight = height := by
  rw [← mem_electedHeights]
  exact List.mem_append

/-- Snapshots in the order of their heights, and remembered heights that are below them all. -/
structure Ordered (snapshots : List SortitionSnapshot) (remembered : List Nat) : Prop where
  increasing : snapshots.Pairwise (·.bitcoinHeight < ·.bitcoinHeight)
  sorted : remembered.Pairwise (· < ·)
  below : ∀ height ∈ remembered, ∀ snapshot ∈ snapshots, height ≤ snapshot.bitcoinHeight

/-- Not more heights are remembered than the chain itself ever remembers. -/
structure Orderly (snapshots : List SortitionSnapshot) (remembered : List Nat) : Prop
    extends Ordered snapshots remembered where
  short : remembered.length ≤ snapshotsKept

theorem findSome?_dropWhile
    (h : snapshots.Pairwise fun newer older => older.bitcoinHeight < newer.bitcoinHeight)
    (bitcoinHeight : Nat) :
    ((snapshots.dropWhile (bitcoinHeight < ·.bitcoinHeight)).findSome? fun snapshot =>
        snapshot.winnerTxid.map fun _ => snapshot.bitcoinHeight)
      = (electedHeights snapshots).find? (· ≤ bitcoinHeight) := by
  induction snapshots with
  | nil => rfl
  | cons newest older ih =>
    rw [pairwise_cons] at h
    by_cases habove : bitcoinHeight < newest.bitcoinHeight
    · rw [dropWhile_cons_of_pos (by simpa using habove), ih h.2]
      cases hwinner : newest.winnerTxid <;> simp [electedHeights, hwinner, habove]
    · rw [dropWhile_cons_of_neg (by simpa using habove)]
      -- Nothing from here on is above, so the first that elected is found.
      have hall : ∀ height ∈ electedHeights (newest :: older), height ≤ bitcoinHeight :=
        forall_mem_electedHeights (by grind)
      rw [← head?_filter, filter_eq_self.2 fun height hmem =>
        decide_eq_true (hall height hmem), electedHeights, head?_filterMap]

/-- **The last sortition is the latest height known.** -/
theorem Ordered.latestOf {chain : SnapshotChain}
    (h : Ordered chain.snapshots chain.sortitionsBelowWindow) :
    LatestOf (knownHeights chain.snapshots chain.sortitionsBelowWindow)
      chain.lastSortitionAtOrBelow := by
  have hanswer : chain.lastSortitionAtOrBelow = fun bitcoinHeight =>
      (chain.sortitionsBelowWindow ++ electedHeights chain.snapshots).reverse.find?
        (· ≤ bitcoinHeight) := by
    funext bitcoinHeight
    have hreverse : electedHeights chain.snapshots.reverse
        = (electedHeights chain.snapshots).reverse := filterMap_reverse
    rw [SnapshotChain.lastSortitionAtOrBelow, findSome?_dropWhile (pairwise_reverse.2 h.increasing),
      reverse_append, find?_append, hreverse]
  rw [hanswer]
  apply latestOf_reverse_find
  rw [pairwise_append]
  refine ⟨h.sorted.imp le_of_lt, ?_, ?_⟩
  · rw [electedHeights, pairwise_filterMap]
    refine h.increasing.imp fun {older newer} hlt height hheight height' hheight' => ?_
    obtain ⟨-, -, rfl⟩ := Option.map_eq_some_iff.1 hheight
    obtain ⟨-, -, rfl⟩ := Option.map_eq_some_iff.1 hheight'
    exact hlt.le
  · exact fun height hheight => forall_mem_electedHeights (h.below height hheight)

theorem pairwise_seeded (heights : List Nat) :
    (heights.insertionSort (· ≤ ·)).dedup.Pairwise (· < ·) := by
  have hsorted := (pairwise_insertionSort (· ≤ ·) heights).sublist (dedup_sublist _)
  exact (hsorted.and (nodup_dedup _)).imp fun hboth => lt_of_le_of_ne hboth.1 hboth.2

/-! ## Forgetting -/

/-- The heights remembered once the oldest snapshot is forgotten. -/
def rememberOldest (oldest : SortitionSnapshot) (remembered : List Nat) : List Nat :=
  if oldest.winnerTxid.isSome then rememberSortition remembered oldest.bitcoinHeight else remembered

theorem rememberSortition_eq (remembered : List Nat) (height : Nat) :
    rememberSortition remembered height =
      if remembered.getLast? = some height then remembered
      else if snapshotsKept < (remembered ++ [height]).length then (remembered ++ [height]).tail
      else remembered ++ [height] := rfl

theorem rememberSortition_sublist (remembered : List Nat) (height : Nat) :
    (rememberSortition remembered height).Sublist (remembered ++ [height]) := by
  rw [rememberSortition_eq]
  split_ifs
  · exact sublist_append_left _ _
  · exact tail_sublist _
  · exact List.Sublist.refl _

section Oldest

variable {oldest : SortitionSnapshot} {newer : List SortitionSnapshot} {remembered : List Nat}

section

variable (h : Ordered (oldest :: newer) remembered)

include h

theorem Ordered.notMem_or_getLast :
    remembered.getLast? = some oldest.bitcoinHeight ∨
      ∀ height ∈ remembered, height < oldest.bitcoinHeight := by
  rcases eq_nil_or_concat' remembered with rfl | ⟨earlier, last, rfl⟩
  · exact .inr (by simp)
  · have hsorted := pairwise_append.1 h.sorted
    have hlast := h.below last (by simp) oldest (by simp)
    rcases hlast.eq_or_lt with rfl | hlt
    · exact .inl (by simp)
    · right
      have hearlier : ∀ height ∈ earlier, height < last := by simpa using hsorted.2.2
      grind

omit h in
theorem pairwise_concat {l : List Nat} {a : Nat} (h : l.Pairwise (· < ·)) (hlt : ∀ x ∈ l, x < a) :
    (l ++ [a]).Pairwise (· < ·) :=
  pairwise_append.2 ⟨h, pairwise_singleton _ _, by simpa using hlt⟩

theorem Ordered.forget : Ordered newer (rememberOldest oldest remembered) := by
  have hincreasing := pairwise_cons.1 h.increasing
  unfold rememberOldest
  split_ifs with helected
  · have hle : ∀ height ∈ rememberSortition remembered oldest.bitcoinHeight,
        height ≤ oldest.bitcoinHeight := by
      intro height hmem
      rcases mem_append.1 ((rememberSortition_sublist _ _).subset hmem) with hmem | hmem
      · exact h.below height hmem oldest (by simp)
      · exact (mem_singleton.1 hmem).le
    refine ⟨hincreasing.2, ?_, fun height hmem snapshot hheld =>
      (hle height hmem).trans (hincreasing.1 snapshot hheld).le⟩
    rcases h.notMem_or_getLast with hlast | hlt
    · rw [rememberSortition, if_pos hlast]
      exact h.sorted
    · exact (pairwise_concat h.sorted hlt).sublist (rememberSortition_sublist _ _)
  · exact ⟨hincreasing.2, h.sorted, fun height hmem snapshot hheld =>
      h.below height hmem snapshot (mem_cons_of_mem _ hheld)⟩

/-- Forgetting the oldest snapshot keeps all that is known, unless too much is remembered: then the
oldest height goes. -/
theorem Ordered.known_forget :
    knownHeights newer (rememberOldest oldest remembered)
        = knownHeights (oldest :: newer) remembered ∨
      (∃ least, IsLeast (knownHeights (oldest :: newer) remembered) least ∧
        knownHeights newer (rememberOldest oldest remembered)
          = knownHeights (oldest :: newer) remembered \ {least}) ∧
      ∃ many : List Nat, many.Nodup ∧ snapshotsKept < many.length ∧
        ∀ height ∈ many, height ∈ knownHeights (oldest :: newer) remembered ∧
          height ≤ oldest.bitcoinHeight := by
  have hincreasing := pairwise_cons.1 h.increasing
  by_cases helected : oldest.winnerTxid.isSome
  · obtain ⟨txid, htxid⟩ := Option.isSome_iff_exists.1 helected
    have hknown : knownHeights (oldest :: newer) remembered
        = {height | height ∈ (remembered ++ [oldest.bitcoinHeight]) ++ electedHeights newer} := by
      simp [knownHeights, electedHeights, htxid]
    rw [rememberOldest, if_pos helected, hknown]
    rcases h.notMem_or_getLast with hlast | hlt
    · left
      have hmem := mem_of_getLast? hlast
      rw [rememberSortition_eq, if_pos hlast]
      ext height
      simp only [knownHeights, mem_append, mem_singleton, Set.mem_ofPred_eq]
      grind
    · have hlast : remembered.getLast? ≠ some oldest.bitcoinHeight := fun hlast =>
        (hlt _ (mem_of_getLast? hlast)).false
      rw [rememberSortition_eq, if_neg hlast]
      have hsorted := pairwise_concat h.sorted hlt
      have hle : ∀ height ∈ remembered ++ [oldest.bitcoinHeight],
          height ≤ oldest.bitcoinHeight := by grind
      have hnewer := forall_mem_electedHeights (p := (oldest.bitcoinHeight < ·)) hincreasing.1
      split_ifs with hlong
      · right
        refine ⟨?_, _, hsorted.imp ne_of_lt, hlong, fun height hmem =>
          ⟨mem_append_left _ hmem, hle height hmem⟩⟩
        generalize remembered ++ [oldest.bitcoinHeight] = many at *
        obtain ⟨least, rest, rfl⟩ := exists_cons_of_length_pos (Nat.zero_lt_of_lt hlong)
        rw [pairwise_cons] at hsorted
        have hleast : ∀ height ∈ rest ++ electedHeights newer, least < height := by
          intro height hmem
          rcases mem_append.1 hmem with hmem | hmem
          · exact hsorted.1 height hmem
          · exact (hle least mem_cons_self).trans_lt (hnewer height hmem)
        refine ⟨least, ⟨mem_cons_self, fun height hmem => ?_⟩, ?_⟩
        · rcases mem_cons.1 hmem with rfl | hmem
          · exact le_rfl
          · exact (hleast height hmem).le
        · ext height
          simp only [knownHeights, tail_cons, cons_append, Set.mem_ofPred_eq,
            Set.mem_sdiff, mem_cons, Set.mem_singleton_iff]
          grind
      · exact .inl rfl
  · left
    rw [Option.not_isSome_iff_eq_none] at helected
    simp [rememberOldest, knownHeights, electedHeights, helected]

end

end Oldest

theorem forgetSnapshots_cons (keep : Nat) (oldest : SortitionSnapshot)
    (newer : List SortitionSnapshot) (remembered : List Nat) :
    forgetSnapshots keep (oldest :: newer) remembered =
      if newer.length + 1 > keep then forgetSnapshots keep newer (rememberOldest oldest remembered)
      else (oldest :: newer, remembered) := rfl

theorem forgetSnapshots_of_length_le {keep : Nat} (h : snapshots.length ≤ keep) :
    forgetSnapshots keep snapshots remembered = (snapshots, remembered) := by
  cases snapshots with
  | nil => rfl
  | cons oldest newer => exact if_neg (Nat.not_lt.2 h)

theorem Ordered.forgetSnapshots (keep : Nat) (h : Ordered snapshots remembered) :
    Ordered (forgetSnapshots keep snapshots remembered).1
      (forgetSnapshots keep snapshots remembered).2 := by
  induction snapshots generalizing remembered with
  | nil => exact h
  | cons oldest newer ih =>
    rw [forgetSnapshots_cons]
    split_ifs
    · exact ih h.forget
    · exact h

theorem length_rememberOldest_le (oldest : SortitionSnapshot) (h : remembered.length ≤ snapshotsKept) :
    (rememberOldest oldest remembered).length ≤ snapshotsKept := by
  rw [rememberOldest, rememberSortition_eq]
  split_ifs with _ hlast hlong
  · exact h
  · rw [length_tail, length_append, length_singleton]
    omega
  · exact not_lt.1 hlong
  · exact h

theorem Orderly.forgetSnapshots (keep : Nat) (h : Orderly snapshots remembered) :
    Orderly (forgetSnapshots keep snapshots remembered).1
      (forgetSnapshots keep snapshots remembered).2 := by
  refine ⟨h.toOrdered.forgetSnapshots keep, ?_⟩
  have hshort := h.short
  clear h
  induction snapshots generalizing remembered with
  | nil => exact hshort
  | cons oldest newer ih =>
    rw [forgetSnapshots_cons]
    split_ifs
    · exact ih (length_rememberOldest_le oldest hshort)
    · exact hshort

theorem finalSegment_forgetSnapshots (keep : Nat) {all : Set Nat}
    (horderly : Ordered snapshots remembered)
    (h : FinalSegment (knownHeights snapshots remembered) all) :
    FinalSegment (knownHeights (forgetSnapshots keep snapshots remembered).1
      (forgetSnapshots keep snapshots remembered).2) all := by
  induction snapshots generalizing remembered with
  | nil => exact h
  | cons oldest newer ih =>
    rw [forgetSnapshots_cons]
    split_ifs
    · apply ih horderly.forget
      rcases horderly.known_forget with hsame | ⟨⟨least, hleast, hless⟩, -⟩
      · rwa [hsame]
      · rw [hless]
        exact h.forget hleast
    · exact h

/-- What a chain knows stays a final segment of what another knows that forgets snapshots, if it holds
none of those and does not remember too many heights. -/
theorem finalSegment_of_forgetSnapshots (keep : Nat) {few : List Nat} {some : Set Nat}
    (horderly : Ordered snapshots remembered) (hfew : few.length ≤ snapshotsKept)
    (hlow : ∀ height ∈ some, (∀ snapshot ∈ (forgetSnapshots keep snapshots remembered).1,
      height < snapshot.bitcoinHeight) → height ∈ few)
    (h : FinalSegment some (knownHeights snapshots remembered)) :
    FinalSegment some (knownHeights (forgetSnapshots keep snapshots remembered).1
      (forgetSnapshots keep snapshots remembered).2) := by
  induction snapshots generalizing remembered with
  | nil => exact h
  | cons oldest newer ih =>
    rw [forgetSnapshots_cons] at hlow ⊢
    split_ifs at hlow ⊢
    · apply ih horderly.forget hlow
      rcases horderly.known_forget with hsame | ⟨⟨least, hleast, hless⟩, many, hnodup, hmany, hold⟩
      · rwa [hsame]
      · rw [hless]
        apply h.forget_of_notMem
        -- Otherwise all the old heights would be known, and they are too many.
        intro hmem
        have hall := h.eq_of_least_mem hleast hmem
        have hsubset : many ⊆ few := by
          intro height hheight
          obtain ⟨hknown, hle⟩ := hold height hheight
          refine hlow height (hall ▸ hknown) fun snapshot hheld => hle.trans_lt ?_
          rw [forgetSnapshots_fst] at hheld
          exact (pairwise_cons.1 horderly.increasing).1 snapshot (mem_of_mem_drop hheld)
        exact absurd (hnodup.length_le_of_subset hsubset) (by omega)
    · exact h

/-! ## Two chains -/

/-- A chain that holds no older snapshots than another and knows a final segment of what it knows. -/
structure Trails (behind ahead : SnapshotChain) : Prop where
  orderly : Orderly behind.snapshots behind.sortitionsBelowWindow
  orderly' : Orderly ahead.snapshots ahead.sortitionsBelowWindow
  needed : behind.neededFrom = none
  needed' : ahead.neededFrom = none
  held : behind.snapshots.map (·.bitcoinHeight) <:+ ahead.snapshots.map (·.bitcoinHeight)
  known : FinalSegment (knownHeights behind.snapshots behind.sortitionsBelowWindow)
    (knownHeights ahead.snapshots ahead.sortitionsBelowWindow)

variable {snapshot : SortitionSnapshot}

theorem Ordered.concat (h : Ordered snapshots remembered) (hne : snapshots ≠ [])
    (habove : ∀ held ∈ snapshots, held.bitcoinHeight < snapshot.bitcoinHeight) :
    Ordered (snapshots ++ [snapshot]) remembered where
  increasing := by
    rw [pairwise_append]
    exact ⟨h.increasing, pairwise_singleton _ _, by simpa using habove⟩
  sorted := h.sorted
  below := by
    intro height hmem held hheld
    rcases mem_append.1 hheld with hheld | hheld
    · exact h.below height hmem held hheld
    · obtain ⟨older, holder⟩ := exists_mem_of_ne_nil _ hne
      rw [mem_singleton.1 hheld]
      exact (h.below height hmem older holder).trans (habove older holder).le

theorem knownHeights_concat (snapshots : List SortitionSnapshot) (remembered : List Nat)
    (snapshot : SortitionSnapshot) :
    knownHeights (snapshots ++ [snapshot]) remembered =
      if snapshot.winnerTxid.isSome then
        insert snapshot.bitcoinHeight (knownHeights snapshots remembered)
      else knownHeights snapshots remembered := by
  ext height
  cases hwinner : snapshot.winnerTxid <;>
    simp [knownHeights, electedHeights, filterMap_append, hwinner, or_comm, or_left_comm]

/-- **A snapshot on top of both leaves a chain trailing another.** -/
theorem Trails.push {behind ahead : SnapshotChain} (h : Trails behind ahead)
    (habove : ∀ held ∈ ahead.snapshots, held.bitcoinHeight < snapshot.bitcoinHeight) :
    Trails (behind.push snapshot) (ahead.push snapshot) := by
  have habove' : ∀ held ∈ behind.snapshots, held.bitcoinHeight < snapshot.bitcoinHeight := by
    intro held hheld
    obtain ⟨held', hheld', heq⟩ := mem_map.1 (h.held.subset (mem_map_of_mem hheld))
    rw [← heq]
    exact habove held' hheld'
  have horderly := h.orderly.concat behind.snapshots_ne_nil habove'
  have horderly' := h.orderly'.concat ahead.snapshots_ne_nil habove
  have hpushed' : Orderly (ahead.push snapshot).snapshots (ahead.push snapshot).sortitionsBelowWindow :=
    Orderly.forgetSnapshots _ ⟨horderly', h.orderly'.short⟩
  have hkeep : behind.snapshotsToKeep snapshot = snapshotsKept := by
    rw [SnapshotChain.snapshotsToKeep, h.needed]
  have hkeep' : ahead.snapshotsToKeep snapshot = snapshotsKept := by
    rw [SnapshotChain.snapshotsToKeep, h.needed']
  have hheld : (behind.push snapshot).snapshots.map (·.bitcoinHeight)
      <:+ (ahead.push snapshot).snapshots.map (·.bitcoinHeight) := by
    have hrtake : ∀ chain : SnapshotChain, chain.snapshotsToKeep snapshot = snapshotsKept →
        (chain.push snapshot).snapshots.map (·.bitcoinHeight) = (chain.snapshots.map
          (·.bitcoinHeight) ++ [snapshot.bitcoinHeight]).rtake snapshotsKept := by
      intro chain hchain
      show map _ (forgetSnapshots _ _ _).1 = _
      rw [hchain, forgetSnapshots_fst, map_drop, map_append,
        rtake, length_append, length_append, length_map]
      rfl
    rw [hrtake behind hkeep, hrtake ahead hkeep']
    obtain ⟨older, holder⟩ := h.held
    exact rtake_suffix_rtake ⟨older, by rw [← holder, append_assoc]⟩ _
  have hknown : FinalSegment
      (knownHeights (behind.snapshots ++ [snapshot]) behind.sortitionsBelowWindow)
      (knownHeights (ahead.snapshots ++ [snapshot]) ahead.sortitionsBelowWindow) := by
    rw [knownHeights_concat, knownHeights_concat]
    split_ifs
    · apply h.known.insert
      intro height hmem
      rcases mem_knownHeights.1 hmem with hmem | ⟨held, hheld, -, rfl⟩
      · obtain ⟨held, hheld⟩ := exists_mem_of_ne_nil _ ahead.snapshots_ne_nil
        exact (h.orderly'.below height hmem held hheld).trans_lt (habove held hheld)
      · exact habove held hheld
    · exact h.known
  have hpushed : Orderly (behind.push snapshot).snapshots
      (behind.push snapshot).sortitionsBelowWindow :=
    Orderly.forgetSnapshots _ ⟨horderly, h.orderly.short⟩
  have hfirst : FinalSegment (knownHeights (behind.push snapshot).snapshots
      (behind.push snapshot).sortitionsBelowWindow)
      (knownHeights (ahead.snapshots ++ [snapshot]) ahead.sortitionsBelowWindow) :=
    finalSegment_forgetSnapshots _ horderly hknown
  refine ⟨hpushed, hpushed', h.needed, h.needed', hheld, ?_⟩
  refine finalSegment_of_forgetSnapshots _ horderly' hpushed.short (fun height hmem hlow => ?_) hfirst
  rcases mem_knownHeights.1 hmem with hmem | ⟨held, hheld', -, rfl⟩
  · exact hmem
  · obtain ⟨held', hmem', heq⟩ := mem_map.1 (hheld.subset (mem_map_of_mem hheld'))
    exact absurd (hlow held' hmem') (by simp [heq])

end NanoStacks.Sortition
