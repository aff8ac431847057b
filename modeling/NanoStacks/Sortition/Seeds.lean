import NanoStacks.Sortition.Surviving

/-!
# The seed a sortition mixes

The sampling of a block mixes the seed last won. The engine finds it by walking the snapshots it still
holds, and a snapshot that leaves them takes its seed with it: unlike the heights that elected somebody,
no seed is remembered below. The walk therefore answers for as many blocks without a winner as there
are snapshots behind it, and with zeroes from there on.
-/

namespace NanoStacks.Sortition

open List

/-! ## Walking a part of a list -/

section Walk

variable {α β : Type} (f : α → Option β)

theorem findSome?_append_of_lt {front : List α} (rest : List α)
    (h : ((front ++ rest).takeWhile fun a => (f a).isNone).length < front.length) :
    (front ++ rest).findSome? f = front.findSome? f := by
  induction front with
  | nil => simp at h
  | cons a front ih =>
    rw [cons_append] at h ⊢
    cases ha : f a with
    | none =>
      rw [takeWhile_cons_of_pos (by simp [ha]), length_cons, length_cons] at h
      rw [findSome?_cons, findSome?_cons, ha]
      exact ih (by omega)
    | some b => rw [findSome?_cons, findSome?_cons, ha]

theorem findSome?_eq_none_of_le {front : List α} (rest : List α)
    (h : front.length ≤ ((front ++ rest).takeWhile fun a => (f a).isNone).length) :
    front.findSome? f = none := by
  induction front with
  | nil => rfl
  | cons a front ih =>
    rw [cons_append] at h
    cases ha : f a with
    | none =>
      rw [takeWhile_cons_of_pos (by simp [ha]), length_cons, length_cons] at h
      rw [findSome?_cons, ha]
      exact ih (by omega)
    | some b =>
      rw [takeWhile_cons_of_neg (by simp [ha])] at h
      simp at h

end Walk

/-! ## Runs -/

variable (H : Hashes) (advantage : CarryoverAdvantage)

namespace SortitionEngine

/-- The seed the next append mixes. -/
def previousVrfSeed (engine : SortitionEngine) : Bytes 32 :=
  engine.snapshots.effectiveWinnerSeed.getD (Bytes.zero 32)

def keepFrom (engine : SortitionEngine) (bitcoinHeight : Nat) : SortitionEngine :=
  { engine with snapshots := engine.snapshots.keepFrom bitcoinHeight }

end SortitionEngine

/-- An engine that started at a root, with the snapshots of the root and of every block since. -/
inductive Sampling (start : SortitionEngine) : List SortitionSnapshot → SortitionEngine → Prop
  | root {snapshot : SortitionSnapshot} (hroot : start.snapshots.snapshots = [snapshot]) :
      Sampling start [snapshot] start
  | appended {history : List SortitionSnapshot} {engine : SortitionEngine}
      (input : AppendInput) {snapshot : SortitionSnapshot} (h : Sampling start history engine)
      (hok : (engine.append H advantage input).1 = .ok snapshot) :
      Sampling start (history ++ [snapshot]) (engine.append H advantage input).2
  | refused {history : List SortitionSnapshot} {engine : SortitionEngine}
      (input : AppendInput) {error : SortitionError} (h : Sampling start history engine)
      (herror : (engine.append H advantage input).1 = .error error) :
      Sampling start history (engine.append H advantage input).2
  | kept {history : List SortitionSnapshot} {engine : SortitionEngine} (bitcoinHeight : Nat)
      (h : Sampling start history engine) : Sampling start history (engine.keepFrom bitcoinHeight)

/-- The seed of the newest block that elected somebody. -/
def lastWonSeed (history : List SortitionSnapshot) : Option (Bytes 32) :=
  history.reverse.findSome? (·.winnerVrfSeed)

/-- How many blocks at the top elected nobody. -/
def winnerlessSince (history : List SortitionSnapshot) : Nat :=
  (history.reverse.takeWhile (·.winnerVrfSeed.isNone)).length

theorem SortitionEngine.append_refused (engine : SortitionEngine) (input : AppendInput)
    {error : SortitionError} (h : (engine.append H advantage input).1 = .error error) :
    (engine.append H advantage input).2.snapshots = engine.snapshots := by
  unfold append at h ⊢
  split at h
  · rfl
  · split at h
    · rfl
    · cases h

variable {H advantage} {history : List SortitionSnapshot}

theorem Sampling.held {start engine : SortitionEngine}
    (h : Sampling H advantage start history engine) :
    engine.snapshots.snapshots <:+ history ∧
      min snapshotsKept history.length ≤ engine.snapshots.snapshots.length := by
  induction h with
  | root hroot =>
    rw [hroot]
    exact ⟨suffix_rfl, Nat.min_le_right _ _⟩
  | @appended history engine input snapshot _ hok ih =>
    obtain ⟨hsuffix, hlength⟩ := push_suffix engine.snapshots snapshot
    have hkeep := engine.snapshots.snapshotsToKeep_ge snapshot
    rw [engine.append_snd H advantage input hok]
    refine ⟨hsuffix.trans (suffix_append_self_iff.2 ih.1), ?_⟩
    show _ ≤ (engine.snapshots.push snapshot).snapshots.length
    rw [hlength, length_append, length_singleton]
    omega
  | @refused history engine input error _ herror ih =>
    rw [engine.append_refused H advantage input herror]
    exact ih
  | @kept history engine bitcoinHeight _ ih =>
    have hsame : (engine.keepFrom bitcoinHeight).snapshots.snapshots = engine.snapshots.snapshots := by
      show (engine.snapshots.keepFrom bitcoinHeight).snapshots = _
      unfold SnapshotChain.keepFrom
      split_ifs <;> rfl
    rw [hsame]
    exact ih

/-- What an engine finds that holds a part of the history: the seed last won, or nothing if more blocks
went without a winner than it holds. -/
theorem effectiveWinnerSeed_of_suffix {chain : SnapshotChain} (h : chain.snapshots <:+ history) :
    chain.effectiveWinnerSeed =
      if winnerlessSince history < chain.snapshots.length then lastWonSeed history else none := by
  obtain ⟨forgotten, rfl⟩ := h
  have hlength : chain.snapshots.reverse.length = chain.snapshots.length := length_reverse
  rw [effectiveWinnerSeed_eq, winnerlessSince, lastWonSeed, reverse_append]
  split_ifs with hlt
  · exact (findSome?_append_of_lt _ _ (by rwa [hlength])).symm
  · exact findSome?_eq_none_of_le _ forgotten.reverse (by rw [hlength]; exact not_lt.1 hlt)

/-- In every engine a run reaches, the next append mixes the seed last won exactly when nobody has won
yet, or fewer blocks have gone without a winner since than the engine holds snapshots, which is 144
at least once there are so many. (Where the seed last won is all zeroes, forgetting it makes no
difference.) -/
theorem mixed_seed_is_last_won {start engine : SortitionEngine} {history : List SortitionSnapshot}
    (h : Sampling H advantage start history engine) :
    (∀ input, (engine.append H advantage input).1 =
      deriveSnapshot H advantage engine.snapshots.tip engine.snapshots.consensusHashes
        (some engine.previousVrfSeed) (engine.sampled input) input) ∧
    min snapshotsKept history.length ≤ engine.snapshots.snapshots.length ∧
    (engine.previousVrfSeed = (lastWonSeed history).getD (Bytes.zero 32) ↔
      winnerlessSince history < engine.snapshots.snapshots.length ∨
        lastWonSeed history = none ∨ lastWonSeed history = some (Bytes.zero 32)) := by
  obtain ⟨hsuffix, hheld⟩ := h.held
  refine ⟨fun input => ?_, hheld, ?_⟩
  · rw [engine.append_fst, deriveSnapshot, deriveSnapshot, elect, elect, Option.getD_some]
    rfl
  · rw [SortitionEngine.previousVrfSeed, effectiveWinnerSeed_of_suffix hsuffix]
    split_ifs with hlt
    · simp [hlt]
    · cases lastWonSeed history with
      | none => simp
      | some seed => simp [hlt, eq_comm]

/-! ## Blocks nobody commits in -/

/-- A block without commitments, weighed alone. -/
def idleInput (height : Nat) : AppendInput := { quietInput height with windowLen := 1 }

/-- An engine at a root that won with a seed. -/
def wonAtRoot : SortitionEngine :=
  ⟨⟨[{ SortitionSnapshot.genesis 100 (Bytes.zero 32) with
      winnerVrfSeed := some (Bytes.replicate 32 3) }], [Bytes.zero 20], [], none, by simp⟩, []⟩

theorem sampled_idleInput (engine : SortitionEngine) (height : Nat) :
    engine.sampled (idleInput height) = [(idleInput height).commitments] := by
  have hlast := getLast?_retainCommitments engine.commitmentWindow (idleInput height).commitments
  obtain ⟨earlier, hretained⟩ := getLast?_eq_some_iff.1 hlast
  rw [SortitionEngine.sampled, sampledWindow, hretained, length_append]
  exact drop_left

theorem append_idleInput (engine : SortitionEngine) (height : Nat)
    (htip : engine.snapshots.tip.bitcoinHeight + 1 = height) (hfits : height < 2 ^ 64) :
    ∃ snapshot, (engine.append H advantage (idleInput height)).1 = .ok snapshot ∧
      snapshot.winnerVrfSeed = none := by
  have hexpected : checkedAdd engine.snapshots.tip.bitcoinHeight 1 = some height := by
    rw [checkedAdd, htip, if_pos hfits]
  have helect : elect H advantage (engine.sampled (idleInput height)) engine.snapshots.tip
      engine.snapshots.effectiveWinnerSeed (idleInput height).block.hash
      = .ok ⟨engine.snapshots.tip.totalBurn, none, miningCompetition [] ⟨0, 0⟩ 1 none⟩ := by
    rw [sampled_idleInput]
    rfl
  rw [engine.append_eq_of_ok H advantage (idleInput height) helect hexpected rfl]
  exact ⟨_, rfl, rfl⟩

theorem idle_run (count : Nat) (hfits : 100 + count < 2 ^ 64) :
    ∃ idle engine, idle.length = count ∧ (∀ snapshot ∈ idle, snapshot.winnerVrfSeed = none) ∧
      Sampling H advantage wonAtRoot (wonAtRoot.snapshots.snapshots ++ idle) engine ∧
      engine.snapshots.tip.bitcoinHeight = 100 + count ∧ engine.snapshots.neededFrom = none ∧
      engine.snapshots.snapshots.length ≤ snapshotsKept := by
  induction count with
  | zero => exact ⟨[], wonAtRoot, rfl, by simp, .root rfl, rfl, rfl, by decide⟩
  | succ count ih =>
    obtain ⟨idle, engine, hlength, hnone, hrun, htip, hfloor, -⟩ := ih (by omega)
    obtain ⟨snapshot, hok, hquiet⟩ := append_idleInput (H := H) engine (100 + (count + 1))
      (by omega) hfits
    have hrun' := hrun.appended (idleInput (100 + (count + 1))) hok
    rw [engine.append_snd H advantage _ hok, append_assoc] at hrun'
    refine ⟨idle ++ [snapshot], _, by simp [hlength], ?_, hrun', ?_, hfloor, ?_⟩
    · intro other hother
      rcases mem_append.1 hother with h | h
      · exact hnone other h
      · rw [mem_singleton.1 h]
        exact hquiet
    · have hheight := (engine.append_height H advantage _ hok).1
      show (engine.snapshots.push snapshot).tip.bitcoinHeight = _
      rw [SnapshotChain.tip_push, hheight, htip]
      omega
    · show (engine.snapshots.push snapshot).snapshots.length ≤ _
      rw [(push_suffix _ _).2, SnapshotChain.snapshotsToKeep, hfloor]
      exact Nat.min_le_left _ _

theorem mixed_seed_is_last_won_past_idle :
    (wonAtRoot.append blankHashes (fun _ => 0) (idleInput 101)).2.previousVrfSeed
      = Bytes.replicate 32 3 := by
  obtain ⟨snapshot, hok, hnone⟩ :=
    append_idleInput (H := blankHashes) wonAtRoot 101 rfl (by decide)
  have hroot : Sampling blankHashes (fun _ => 0) wonAtRoot [wonAtRoot.snapshots.tip] wonAtRoot :=
    .root rfl
  have hrun := hroot.appended (idleInput 101) hok
  have hlast : lastWonSeed ([wonAtRoot.snapshots.tip] ++ [snapshot])
      = some (Bytes.replicate 32 3) := by
    rw [lastWonSeed, reverse_append, findSome?_append, reverse_singleton, findSome?_cons, hnone]
    rfl
  have hsince : winnerlessSince ([wonAtRoot.snapshots.tip] ++ [snapshot]) = 1 := by
    rw [winnerlessSince, reverse_append, reverse_singleton, singleton_append,
      takeWhile_cons_of_pos (by simp [hnone])]
    rfl
  obtain ⟨-, hheld, hseed⟩ := mixed_seed_is_last_won hrun
  have hlong : winnerlessSince ([wonAtRoot.snapshots.tip] ++ [snapshot])
      < (wonAtRoot.append blankHashes (fun _ => 0) (idleInput 101)).2.snapshots.snapshots.length := by
    rw [hsince]
    exact Nat.lt_of_lt_of_le (show 1 < min snapshotsKept 2 by decide) hheld
  have hmixed := hseed.2 (.inl hlong)
  rw [hlast] at hmixed
  exact hmixed

/-- A root that elected somebody and 144 blocks that did not: the seed is gone with the root. -/
theorem seed_forgotten_after_idle_day :
    ∃ history engine, Sampling blankHashes (fun _ => 0) wonAtRoot history engine ∧
      history.length = 145 ∧ lastWonSeed history = some (Bytes.replicate 32 3) ∧
      engine.previousVrfSeed = Bytes.zero 32 := by
  obtain ⟨idle, engine, hlength, hnone, hrun, -, -, hheld⟩ :=
    idle_run 144 (by decide)
  have hwalk : (wonAtRoot.snapshots.snapshots ++ idle).reverse
      = idle.reverse ++ wonAtRoot.snapshots.snapshots := by
    rw [reverse_append]
    rfl
  have hidle : ∀ snapshot ∈ idle.reverse, snapshot.winnerVrfSeed = none :=
    fun snapshot h => hnone snapshot (mem_reverse.1 h)
  refine ⟨_, engine, hrun, ?_, ?_, ?_⟩
  · rw [length_append, hlength]
    rfl
  · rw [lastWonSeed, hwalk, findSome?_append, findSome?_eq_none_iff.2 hidle]
    rfl
  · have hlong : ¬winnerlessSince (wonAtRoot.snapshots.snapshots ++ idle)
        < engine.snapshots.snapshots.length := by
      rw [winnerlessSince, hwalk, takeWhile_append_of_pos fun snapshot h => by
        simp [hidle snapshot h], length_append, length_reverse, hlength]
      unfold snapshotsKept at hheld
      omega
    rw [SortitionEngine.previousVrfSeed, effectiveWinnerSeed_of_suffix hrun.held.1, if_neg hlong]
    rfl

end NanoStacks.Sortition
