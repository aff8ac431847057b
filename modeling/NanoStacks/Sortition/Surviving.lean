import NanoStacks.Lib.Suffix
import NanoStacks.Sortition.Engine

/-!
# Reorganizations and the surviving branch

An engine that appended blocks and gave some of them back again should go on as if it had only ever
seen the blocks that survived. `Built` is the engine of the surviving blocks alone, with every
snapshot it ever had. The engine at hand (`Follows`) has the same consensus hashes, while its
snapshots and its commitments are suffixes of all the snapshots and of all the commitments: both
histories are cut by every retraction and refill one block at a time.

So the two produce the same next snapshot as long as the engine's own suffixes reach as far as the
append reads them: far enough into the commitments for the blocks it weighs, and down to a winning
seed.
-/

namespace NanoStacks.Sortition

open Bitcoin Result Suffix List SortitionEngine Bytes

variable (H : Hashes) (advantage : CarryoverAdvantage)

/-! ## The engine of one branch -/

/-- The engine reached from `start` by appending a branch, with every snapshot it ever held. -/
inductive Built (start : SortitionEngine) :
    List AppendInput → List SortitionSnapshot → SortitionEngine → Prop
  | start : Built start [] [start.snapshots.tip] start
  | append {branch : List AppendInput} {snapshots : List SortitionSnapshot}
      {engine : SortitionEngine} {input : AppendInput} {snapshot : SortitionSnapshot} :
      Built start branch snapshots engine →
      (engine.append H advantage input).1 = .ok snapshot →
      Built start (branch ++ [input]) (snapshots ++ [snapshot]) (engine.extended input snapshot)

/-- An engine that stands on its root, with at most a full window of commitments. -/
structure Primed (start : SortitionEngine) : Prop where
  root : start.snapshots.snapshots = [start.snapshots.tip]
  window : start.commitmentWindow.length ≤ retainedCommitmentBlocks

section

variable {window : List CommitmentWindowBlock} (h : window.length ≤ retainedCommitmentBlocks)
  (commitments : CommitmentWindowBlock)

include h

theorem retainCommitments_eq : retainCommitments window commitments
    = (window ++ [commitments]).rtake retainedCommitmentBlocks := by
  unfold retainCommitments
  dsimp only
  split_ifs with hlong
  · rw [rtake, ← drop_one]
    congr 1
    rw [length_append, length_singleton] at hlong ⊢
    omega
  · rw [rtake_of_length_le (Nat.not_lt.1 hlong)]

theorem length_retainCommitments : (retainCommitments window commitments).length
    = min retainedCommitmentBlocks (window.length + 1) := by
  rw [retainCommitments_eq h, length_rtake, length_append, length_singleton]

theorem retainCommitments_suffix : retainCommitments window commitments <:+ window ++ [commitments] := by
  rw [retainCommitments_eq h]
  exact rtake_suffix _ _

end

theorem push_suffix (chain : SnapshotChain) (snapshot : SortitionSnapshot) :
    (chain.push snapshot).snapshots <:+ chain.snapshots ++ [snapshot] ∧
      (chain.push snapshot).snapshots.length
        = min (chain.snapshotsToKeep snapshot) (chain.snapshots.length + 1) := by
  have hpush : (chain.push snapshot).snapshots =
      (chain.snapshots ++ [snapshot]).rtake (chain.snapshotsToKeep snapshot) := by
    show (forgetSnapshots _ _ _).1 = _
    rw [forgetSnapshots_fst]
    rfl
  rw [hpush]
  refine ⟨rtake_suffix _ _, ?_⟩
  rw [length_rtake, length_append, length_singleton]

theorem snapshotsToKeep_mono (chain : SnapshotChain) {tip tip' : SortitionSnapshot} {d : Nat}
    (h : tip'.bitcoinHeight = tip.bitcoinHeight + d) :
    chain.snapshotsToKeep tip' ≤ chain.snapshotsToKeep tip + d := by
  unfold SnapshotChain.snapshotsToKeep
  split
  · split_ifs <;> omega
  · omega

/-- Everything a built engine holds, in terms of all its snapshots and the commitments appended. -/
structure Built.Held (start : SortitionEngine) (branch : List AppendInput)
    (snapshots : List SortitionSnapshot) (engine : SortitionEngine) : Prop where
  length_eq : snapshots.length = branch.length + 1
  suffix : engine.snapshots.snapshots <:+ snapshots
  length_snapshots : engine.snapshots.snapshots.length
    = min (engine.snapshots.snapshotsToKeep engine.snapshots.tip) snapshots.length
  window : engine.commitmentWindow <:+ start.commitmentWindow ++ branch.map (·.commitments)
  length_window : engine.commitmentWindow.length
    = min retainedCommitmentBlocks (start.commitmentWindow.length + branch.length)
  neededFrom : engine.snapshots.neededFrom = start.snapshots.neededFrom

variable {H advantage}

variable {branch : List AppendInput} {snapshots : List SortitionSnapshot} {engine : SortitionEngine}

theorem Built.Held.window_le {start : SortitionEngine} (h : Built.Held start branch snapshots engine) :
    engine.commitmentWindow.length ≤ retainedCommitmentBlocks :=
  h.length_window.le.trans (Nat.min_le_left _ _)

theorem Built.held {start : SortitionEngine} (hstart : Primed start)
    (h : Built H advantage start branch snapshots engine) :
    Built.Held start branch snapshots engine := by
  induction h with
  | start =>
    refine ⟨rfl, ?_, ?_, ?_, ?_, rfl⟩
    · rw [hstart.root]
    · have hkeep := start.snapshots.keep_pos start.snapshots.tip
      rw [hstart.root, length_singleton]
      omega
    · rw [map_nil, append_nil]
    · exact (Nat.min_eq_right hstart.window).symm
  | @append branch snapshots engine input snapshot _ hok ih =>
    obtain ⟨hsuffix, hlength⟩ := push_suffix engine.snapshots snapshot
    have hheight := (engine.append_height H advantage input hok).1
    refine ⟨?_, ?_, ?_, ?_, ?_, ih.neededFrom⟩
    · rw [length_append, length_append, ih.length_eq, length_singleton, length_singleton]
    · exact hsuffix.trans (suffix_append_self_iff.2 ih.suffix)
    · have hkeep := snapshotsToKeep_mono engine.snapshots hheight
      show (engine.snapshots.push snapshot).snapshots.length
        = min (engine.snapshots.snapshotsToKeep (engine.snapshots.push snapshot).tip) _
      rw [hlength, ih.length_snapshots, length_append, length_singleton, SnapshotChain.tip_push]
      omega
    · rw [map_append, ← append_assoc]
      exact (retainCommitments_suffix ih.window_le _).trans (suffix_append_self_iff.2 ih.window)
    · show (retainCommitments _ _).length = _
      rw [length_retainCommitments ih.window_le, ih.length_window, length_append, length_singleton]
      omega

theorem Built.getLast? {start : SortitionEngine}
    (h : Built H advantage start branch snapshots engine) :
    snapshots.getLast? = some engine.snapshots.tip := by
  cases h with
  | start => rfl
  | append _ _ => simp [extended]

theorem Built.tip_of_suffix {start : SortitionEngine}
    (h : Built H advantage start branch snapshots engine) {chain : SnapshotChain}
    (hsuffix : chain.snapshots <:+ snapshots) : chain.tip = engine.snapshots.tip := by
  have hlast := getLast?_of_suffix hsuffix chain.snapshots_ne_nil
  rw [h.getLast?, getLast?_eq_some_getLast chain.snapshots_ne_nil] at hlast
  exact Option.some.inj hlast

theorem Built.heights {start : SortitionEngine}
    (h : Built H advantage start branch snapshots engine) :
    snapshots.map (·.bitcoinHeight)
        = List.range' start.snapshots.tip.bitcoinHeight (branch.length + 1) ∧
      branch.map (·.block.height)
        = List.range' (start.snapshots.tip.bitcoinHeight + 1) branch.length ∧
      engine.snapshots.tip.bitcoinHeight = start.snapshots.tip.bitcoinHeight + branch.length := by
  induction h with
  | start => exact ⟨rfl, rfl, rfl⟩
  | @append branch snapshots engine input snapshot _ hok ih =>
    obtain ⟨hsnapshots, hbranch, htip⟩ := ih
    obtain ⟨hheight, hblock⟩ := engine.append_height H advantage input hok
    refine ⟨?_, ?_, ?_⟩
    · rw [map_append, hsnapshots, length_append, length_singleton,
        range'_concat (n := branch.length + 1)]
      simp [hheight, htip, Nat.add_assoc]
    · rw [map_append, hbranch, length_append, length_singleton,
        range'_concat (n := branch.length)]
      simp [hblock, htip, Nat.add_comm, Nat.add_left_comm]
    · rw [length_append, length_singleton]
      show ((engine.snapshots.push snapshot).tip).bitcoinHeight = _
      rw [SnapshotChain.tip_push, hheight, htip]
      omega

theorem Built.rdrop {start : SortitionEngine} (h : Built H advantage start branch snapshots engine) :
    ∀ d ≤ branch.length, ∃ engine', Built H advantage start (branch.rdrop d) (snapshots.rdrop d)
        engine' ∧ engine'.snapshots.consensusHashes = engine.snapshots.consensusHashes.rdrop d := by
  induction h with
  | start =>
    intro d hd
    obtain rfl : d = 0 := by simpa using hd
    exact ⟨start, by simpa using Built.start, by simp⟩
  | @append branch snapshots engine input snapshot hbuilt hok ih =>
    intro d hd
    cases d with
    | zero => exact ⟨engine.extended input snapshot, by simpa using hbuilt.append hok, by simp⟩
    | succ d =>
      rw [rdrop_concat_succ, rdrop_concat_succ]
      obtain ⟨engine', hbuilt', hhashes⟩ := ih d (by simpa using hd)
      refine ⟨engine', hbuilt', ?_⟩
      show _ = (engine.snapshots.consensusHashes ++ [snapshot.consensusHash]).rdrop (d + 1)
      rw [rdrop_concat_succ, hhashes]

/-! ## Runs with reorganizations -/

variable (H advantage)

inductive EngineOp
  | append (input : AppendInput)
  | retractAbove (bitcoinHeight : Nat)

/-- One call, if it returns without an error. -/
def SortitionEngine.apply (engine : SortitionEngine) :
    EngineOp → Except SortitionError SortitionEngine
  | .append input => do
    let _ ← (engine.append H advantage input).1
    return (engine.append H advantage input).2
  | .retractAbove bitcoinHeight => (·.2) <$> engine.retractAbove bitcoinHeight

def SortitionEngine.applyAll (engine : SortitionEngine) (ops : List EngineOp) :
    Except SortitionError SortitionEngine :=
  ops.foldlM (apply H advantage) engine

/-- The blocks that survive a list of calls: those appended and not given back since. -/
def survivors (branch : List AppendInput) : List EngineOp → List AppendInput
  | [] => branch
  | .append input :: ops => survivors (branch ++ [input]) ops
  | .retractAbove bitcoinHeight :: ops =>
    survivors (branch.filter (·.block.height ≤ bitcoinHeight)) ops

/-- The engine that only ever appended a branch. -/
def SortitionEngine.appendAll (start : SortitionEngine) (branch : List AppendInput) :
    Except SortitionError SortitionEngine :=
  start.applyAll H advantage (branch.map .append)

/-- No snapshot is missing that an engine which only ever appended would hold: those held still reach
down to the root, or are as many as are kept. -/
def Unbroken (start engine : SortitionEngine) : Prop :=
  engine.snapshots.root.bitcoinHeight = start.snapshots.tip.bitcoinHeight ∨
    engine.snapshots.snapshotsToKeep engine.snapshots.tip ≤ engine.snapshots.snapshots.length

/-- What an append needs to find in the engine: enough commitments to weigh the block over, and a
winning seed among the snapshots held if any snapshot is missing. -/
def Sufficient (start engine : SortitionEngine) (input : AppendInput) : Prop :=
  min retainedCommitmentBlocks (max input.windowLen 1) ≤ engine.commitmentWindow.length + 1 ∧
    (engine.snapshots.effectiveWinnerSeed.isSome ∨ Unbroken start engine)

instance (start engine : SortitionEngine) (input : AppendInput) :
    Decidable (Sufficient start engine input) := inferInstanceAs (Decidable (_ ∧ (_ ∨ _ ∨ _)))

/-- Every append of a run finds what it needs. -/
def AllSufficient (start : SortitionEngine) : SortitionEngine → List EngineOp → Bool
  | _, [] => true
  | engine, op :: ops =>
    (match op with
      | .append input => decide (Sufficient start engine input)
      | .retractAbove _ => true) &&
    match engine.apply H advantage op with
    | .ok engine' => AllSufficient start engine' ops
    | .error _ => true

/-- The engine at hand against the engine of the surviving blocks. -/
structure Follows (start : SortitionEngine) (branch : List AppendInput)
    (snapshots : List SortitionSnapshot) (reference engine : SortitionEngine) : Prop where
  built : Built H advantage start branch snapshots reference
  hashes : engine.snapshots.consensusHashes = reference.snapshots.consensusHashes
  suffix : engine.snapshots.snapshots <:+ snapshots
  length_snapshots : engine.snapshots.snapshots.length
    ≤ engine.snapshots.snapshotsToKeep engine.snapshots.tip
  window : engine.commitmentWindow <:+ start.commitmentWindow ++ branch.map (·.commitments)
  length_window : engine.commitmentWindow.length ≤ retainedCommitmentBlocks
  neededFrom : engine.snapshots.neededFrom = start.snapshots.neededFrom

theorem Follows.start {start : SortitionEngine} (hstart : Primed start) :
    Follows H advantage start [] [start.snapshots.tip] start start where
  built := .start
  hashes := rfl
  suffix := by rw [hstart.root]
  length_snapshots := by
    rw [hstart.root, length_singleton]
    exact start.snapshots.keep_pos _
  window := by rw [map_nil, append_nil]
  length_window := hstart.window
  neededFrom := rfl

theorem effectiveWinnerSeed_eq (chain : SnapshotChain) :
    chain.effectiveWinnerSeed = chain.snapshots.reverse.findSome? (·.winnerVrfSeed) := by
  have hlast := dropLast_append_getLast chain.snapshots_ne_nil
  rw [SnapshotChain.effectiveWinnerSeed, SnapshotChain.effectiveWinnerSeedAtOrBelow]
  conv_lhs => rw [← hlast, reverse_append, reverse_singleton]
  conv_rhs => rw [← hlast, reverse_append, reverse_singleton]
  rw [singleton_append, dropWhile_cons_of_neg]
  simp [SnapshotChain.tip]

theorem findSome?_reverse_of_suffix {α β : Type} {x l : List α} (h : x <:+ l) {f : α → Option β}
    (hsome : (x.reverse.findSome? f).isSome) : l.reverse.findSome? f = x.reverse.findSome? f := by
  obtain ⟨t, rfl⟩ := h
  obtain ⟨b, hb⟩ := Option.isSome_iff_exists.1 hsome
  rw [reverse_append, findSome?_append, hb, Option.some_or]

namespace Follows

variable {H advantage} {start reference engine : SortitionEngine} {branch : List AppendInput}
  {snapshots : List SortitionSnapshot}

section

variable (h : Follows H advantage start branch snapshots reference engine)

include h

theorem tip_eq : engine.snapshots.tip = reference.snapshots.tip :=
  h.built.tip_of_suffix h.suffix

theorem root_height :
    engine.snapshots.root.bitcoinHeight + engine.snapshots.snapshots.length
      = start.snapshots.tip.bitcoinHeight + branch.length + 1 := by
  obtain ⟨hheights, -, -⟩ := h.built.heights
  have hlength := congrArg length hheights
  rw [length_map, length_range'] at hlength
  have hroot := head_numbered hheights h.suffix engine.snapshots.snapshots_ne_nil
  rw [hlength] at hroot
  exact hroot

end

section

variable (hstart : Primed start) (h : Follows H advantage start branch snapshots reference engine)

include hstart h

theorem snapshotsToKeep_eq : engine.snapshots.snapshotsToKeep engine.snapshots.tip
    = reference.snapshots.snapshotsToKeep reference.snapshots.tip := by
  rw [SnapshotChain.snapshotsToKeep, SnapshotChain.snapshotsToKeep, h.tip_eq, h.neededFrom,
    (h.built.held hstart).neededFrom]

theorem suffix_reference : engine.snapshots.snapshots <:+ reference.snapshots.snapshots := by
  have hheld := h.built.held hstart
  refine suffix_of_suffix_length_le h.suffix hheld.suffix ?_
  rw [hheld.length_snapshots, ← h.snapshotsToKeep_eq hstart]
  exact Nat.le_min.2 ⟨h.length_snapshots, h.suffix.length_le⟩

theorem seed_eq (hseed : engine.snapshots.effectiveWinnerSeed.isSome ∨ Unbroken start engine) :
    engine.snapshots.effectiveWinnerSeed = reference.snapshots.effectiveWinnerSeed := by
  have hsuffix := h.suffix_reference hstart
  rw [effectiveWinnerSeed_eq] at hseed
  rw [effectiveWinnerSeed_eq, effectiveWinnerSeed_eq]
  rcases hseed with hsome | hunbroken
  · exact (findSome?_reverse_of_suffix hsuffix hsome).symm
  · have hall : engine.snapshots.snapshots = reference.snapshots.snapshots := by
      refine hsuffix.eq_of_length_le ?_
      have hlength := (h.built.held hstart).length_eq
      have hheights := h.root_height
      have hreference := (h.built.held hstart).length_snapshots
      have hkeep := h.snapshotsToKeep_eq hstart
      rcases hunbroken with hroot | hfull <;> omega
    rw [hall]

end

variable {input : AppendInput}

section

variable (hstart : Primed start) (h : Follows H advantage start branch snapshots reference engine)

include hstart h

theorem sampled_eq
    (hwindow : min retainedCommitmentBlocks (max input.windowLen 1)
      ≤ engine.commitmentWindow.length + 1) : engine.sampled input = reference.sampled input := by
  have hheld := h.built.held hstart
  refine rtake_eq_rtake
    ((retainCommitments_suffix h.length_window _).trans (suffix_append_self_iff.2 h.window))
    ((retainCommitments_suffix hheld.window_le _).trans (suffix_append_self_iff.2 hheld.window)) ?_
  have hshort := h.window.length_le
  rw [length_append, length_map] at hshort
  rw [length_retainCommitments h.length_window, length_retainCommitments hheld.window_le,
    hheld.length_window]
  omega

/-- **The two engines produce the same snapshot.** -/
theorem append_eq (hsufficient : Sufficient start engine input) :
    (engine.append H advantage input).1 = (reference.append H advantage input).1 := by
  rw [append_fst, append_fst, h.tip_eq, h.hashes,
    h.seed_eq hstart hsufficient.2, h.sampled_eq hstart hsufficient.1]

theorem append (hsufficient : Sufficient start engine input) {snapshot : SortitionSnapshot}
    (hok : (engine.append H advantage input).1 = .ok snapshot) :
    Follows H advantage start (branch ++ [input]) (snapshots ++ [snapshot])
      (reference.extended input snapshot) (engine.append H advantage input).2 := by
  rw [engine.append_snd H advantage input hok]
  rw [h.append_eq hstart hsufficient] at hok
  obtain ⟨hsuffix, hlength⟩ := push_suffix engine.snapshots snapshot
  refine ⟨h.built.append hok, ?_, ?_, ?_, ?_, ?_, h.neededFrom⟩
  · show engine.snapshots.consensusHashes ++ _ = reference.snapshots.consensusHashes ++ _
    rw [h.hashes]
  · exact hsuffix.trans (suffix_append_self_iff.2 h.suffix)
  · show (engine.snapshots.push snapshot).snapshots.length
      ≤ engine.snapshots.snapshotsToKeep (engine.snapshots.push snapshot).tip
    rw [hlength, SnapshotChain.tip_push]
    exact Nat.min_le_left _ _
  · rw [map_append, ← append_assoc]
    exact (retainCommitments_suffix h.length_window _).trans (suffix_append_self_iff.2 h.window)
  · show (retainCommitments _ _).length ≤ _
    rw [length_retainCommitments h.length_window]
    exact Nat.min_le_left _ _

end

/-- One retraction gives back as many blocks of the branch as the engine gives back snapshots, and
leaves it following whichever engine was built before them. -/
theorem retractAbove (h : Follows H advantage start branch snapshots reference engine)
    {bitcoinHeight : Nat} {reorg : SortitionReorg} {engine' : SortitionEngine}
    (hok : engine.retractAbove bitcoinHeight = .ok (reorg, engine')) :
    start.snapshots.tip.bitcoinHeight ≤ bitcoinHeight ∧ ∃ d ≤ branch.length,
      min (bitcoinHeight - start.snapshots.tip.bitcoinHeight) branch.length = branch.length - d ∧
      ∀ reference', Built H advantage start (branch.rdrop d) (snapshots.rdrop d) reference' →
        reference'.snapshots.consensusHashes = reference.snapshots.consensusHashes.rdrop d →
        Follows H advantage start (branch.rdrop d) (snapshots.rdrop d) reference' engine' := by
  simp only [SortitionEngine.retractAbove, SnapshotChain.retractAbove, bind_eq_ok, ensure_eq_ok,
    return_eq_ok] at hok
  obtain ⟨-, -, _, ⟨_, hroot, ⟨⟩⟩, ⟨⟩⟩ := hok
  have hheight := h.root_height
  obtain ⟨hsnapshots, -, htip⟩ := h.built.heights
  have hlength := congrArg length hsnapshots
  rw [length_map, length_range'] at hlength
  have hshort := h.suffix.length_le
  obtain ⟨kept, hkept⟩ : ∃ kept, kept = bitcoinHeight - engine.snapshots.root.bitcoinHeight + 1 :=
    ⟨_, rfl⟩
  obtain ⟨d, hd⟩ : ∃ d, d = engine.snapshots.snapshots.length - kept := ⟨_, rfl⟩
  have hdle : d ≤ branch.length := by omega
  have htake : engine.snapshots.snapshots.take kept = engine.snapshots.snapshots.rdrop d := by
    rw [rdrop]
    rcases Nat.le_total kept engine.snapshots.snapshots.length with hle | hle
    · congr 1
      omega
    · rw [take_of_length_le hle, take_of_length_le (by omega)]
  have hdepth : (engine.snapshots.snapshots.drop kept).length = d := by
    rw [length_drop, hd]
  refine ⟨by omega, d, hdle, by omega, fun reference' hbuilt hhashes => ?_⟩
  have hsuffix : engine.snapshots.snapshots.take kept <:+ snapshots.rdrop d := by
    rw [htake]
    exact suffix_rdrop h.suffix d
  -- The tip is lower by as much as there are fewer snapshots.
  have hkeep : ∀ chain : SnapshotChain,
      chain.snapshots = engine.snapshots.snapshots.take kept →
      chain.neededFrom = engine.snapshots.neededFrom →
      chain.snapshots.length ≤ chain.snapshotsToKeep chain.tip := by
    intro chain hchain hfloor
    have hlow : engine.snapshots.tip.bitcoinHeight = chain.tip.bitcoinHeight + d := by
      have htip' := hbuilt.heights.2.2
      have hsame : chain.tip = reference'.snapshots.tip := by
        apply hbuilt.tip_of_suffix
        rw [hchain]
        exact hsuffix
      rw [rdrop, length_take] at htip'
      rw [hsame, h.tip_eq]
      omega
    have hmono := snapshotsToKeep_mono engine.snapshots hlow
    have heq : engine.snapshots.snapshotsToKeep chain.tip = chain.snapshotsToKeep chain.tip := by
      rw [SnapshotChain.snapshotsToKeep, SnapshotChain.snapshotsToKeep, hfloor]
    have hheld := h.length_snapshots
    rw [hchain, htake, rdrop, length_take]
    omega
  refine ⟨hbuilt, ?_, ?_, ?_, ?_, ?_, h.neededFrom⟩
  · rw [hhashes, ← h.hashes]
    simp only [← hkept, ← hd]
    rfl
  · simp only [← hkept]
    exact hsuffix
  · exact hkeep _ (by rw [hkept]) rfl
  · simp only [SortitionReorg.depth, ← hkept, hdepth]
    have hmap : (branch.rdrop d).map (·.commitments) = (branch.map (·.commitments)).rdrop d := by
      rw [rdrop, rdrop, map_take, length_map]
    rw [hmap, ← append_rdrop _ _ (by rwa [length_map])]
    exact suffix_rdrop h.window d
  · exact (length_take_le' _ _).trans h.length_window

end Follows

/-! ## Whole runs -/

variable {H advantage}

theorem Built.appendAll {start : SortitionEngine}
    (h : Built H advantage start branch snapshots engine) :
    start.appendAll H advantage branch = .ok engine := by
  induction h with
  | start => rfl
  | @append branch snapshots engine input snapshot _ hok ih =>
    unfold SortitionEngine.appendAll SortitionEngine.applyAll at ih ⊢
    rw [map_append, foldlM_append, ih]
    simp [apply, hok, engine.append_snd H advantage input hok]

/-- A run whose appends find what they need ends with an engine that follows the surviving blocks. -/
theorem Follows.applyAll {start reference engine' : SortitionEngine} (hstart : Primed start)
    (h : Follows H advantage start branch snapshots reference engine) {ops : List EngineOp}
    (hsufficient : AllSufficient H advantage start engine ops)
    (hrun : engine.applyAll H advantage ops = .ok engine') :
    ∃ snapshots' reference',
      Follows H advantage start (survivors branch ops) snapshots' reference' engine' := by
  induction ops generalizing engine reference branch snapshots with
  | nil =>
    obtain rfl : engine = engine' := by simpa [applyAll] using hrun
    exact ⟨snapshots, reference, h⟩
  | cons op ops ih =>
    simp only [applyAll, foldlM_cons, bind_eq_ok] at hrun
    obtain ⟨middle, hmiddle, hrun⟩ := hrun
    cases op with
    | append input =>
      simp only [AllSufficient, hmiddle, Bool.and_eq_true, decide_eq_true_eq] at hsufficient
      simp only [apply, bind_eq_ok, return_eq_ok] at hmiddle
      obtain ⟨snapshot, hok, rfl⟩ := hmiddle
      exact ih (h.append hstart hsufficient.1 hok) hsufficient.2 hrun
    | retractAbove bitcoinHeight =>
      simp only [AllSufficient, hmiddle, Bool.true_and] at hsufficient
      simp only [apply, map_eq_ok, Prod.exists] at hmiddle
      obtain ⟨reorg, _, hok, rfl⟩ := hmiddle
      obtain ⟨-, d, hd, hcut, hfollows⟩ := h.retractAbove hok
      obtain ⟨reference', hbuilt, hhashes⟩ := h.built.rdrop d hd
      have hsurvive := (cut_numbered h.built.heights.2.1 (m := bitcoinHeight) (d := d)
        (by rwa [Nat.add_sub_add_right])).1
      rw [survivors, hsurvive]
      exact ih (hfollows reference' hbuilt hhashes) hsufficient hrun

/-! ## Priming -/

/-- Prime an engine with blocks, oldest first. -/
def SortitionEngine.primeAll (engine : SortitionEngine)
    (blocks : List (Nat × CommitmentWindowBlock)) : SortitionEngine :=
  blocks.foldl (fun engine block => engine.prime block.1 block.2) engine

theorem prime_spec (engine : SortitionEngine) (bitcoinHeight : Nat)
    (commitments : CommitmentWindowBlock)
    (hroot : engine.snapshots.snapshots = [engine.snapshots.tip]) :
    (engine.prime bitcoinHeight commitments).snapshots.snapshots
        = [(engine.prime bitcoinHeight commitments).snapshots.tip] ∧
      (engine.prime bitcoinHeight commitments).commitmentWindow
        = retainCommitments engine.commitmentWindow commitments := by
  unfold prime
  simp only
  split_ifs
  · refine ⟨?_, rfl⟩
    simp only [recordSpends, SnapshotChain.recordTipBurnSpends, SnapshotChain.tip_updateTip]
    simp [SnapshotChain.updateTip, hroot]
  · exact ⟨hroot, rfl⟩

theorem primeAll_spec (blocks : List (Nat × CommitmentWindowBlock)) (h : Primed engine) :
    Primed (engine.primeAll blocks) := by
  induction blocks generalizing engine with
  | nil => exact h
  | cons block blocks ih =>
    obtain ⟨hroot, hretained⟩ := prime_spec engine block.1 block.2 h.root
    refine ih ⟨hroot, ?_⟩
    rw [hretained, length_retainCommitments h.window]
    exact Nat.min_le_left _ _

theorem primed_withHistory {genesis : SortitionSnapshot} {history : List ConsensusHash}
    (hengine : withHistory genesis history = some engine) : Primed engine := by
  simp only [withHistory, SnapshotChain.withHistory, Option.map_eq_some_iff,
    Option.ite_none_right_eq_some, Option.some.injEq] at hengine
  obtain ⟨_, ⟨-, rfl⟩, rfl⟩ := hengine
  exact ⟨rfl, Nat.zero_le _⟩

/-! ## Going on after reorganizations -/

/-- **An engine goes on as if only the surviving blocks had been appended**, whenever every append of
the run, the next one included, finds enough commitments and a winning seed in it. -/
theorem append_as_surviving {genesis : SortitionSnapshot} {history : List ConsensusHash}
    {unprimed engine : SortitionEngine} {blocks : List (Nat × CommitmentWindowBlock)}
    {ops : List EngineOp} {input : AppendInput}
    (hstart : withHistory genesis history = some unprimed)
    (hrun : (unprimed.primeAll blocks).applyAll H advantage ops = .ok engine)
    (hsufficient : AllSufficient H advantage (unprimed.primeAll blocks) (unprimed.primeAll blocks) ops)
    (hnext : Sufficient (unprimed.primeAll blocks) engine input) :
    ∃ reference,
      (unprimed.primeAll blocks).appendAll H advantage (survivors [] ops) = .ok reference ∧
      engine.sampled input = reference.sampled input ∧
      (engine.append H advantage input).1 = (reference.append H advantage input).1 := by
  have hprimed := primeAll_spec blocks (primed_withHistory hstart)
  obtain ⟨snapshots, reference, h⟩ := (Follows.start H advantage hprimed).applyAll hprimed
    hsufficient hrun
  exact ⟨reference, h.built.appendAll, h.sampled_eq hprimed hnext.1, h.append_eq hprimed hnext⟩

/-! ## A refused append -/

/-- A window of commitments that can be weighed. -/
def Weighable (window : List CommitmentWindowBlock) : Prop :=
  ∃ statistics distribution, commitmentBurnStatistics window = .ok statistics ∧
    commitmentDistribution window = .ok distribution

theorem weighable_iff {window : List CommitmentWindowBlock} {tip : SortitionSnapshot}
    {previousSeed : Option (Bytes 32)} {header : BitcoinHeaderHash} :
    (∃ election, elect H advantage window tip previousSeed header = .ok election) ↔
      Weighable window := by
  simp [elect, Weighable, bind_eq_ok]

/-- Retaining a block changes nothing where only copies of it are retained, and no more fit. -/
theorem retainCommitments_eq_self {window : List CommitmentWindowBlock}
    {commitments : CommitmentWindowBlock} :
    retainCommitments window commitments = window ↔
      retainedCommitmentBlocks ≤ window.length ∧ ∀ block ∈ window, block = commitments := by
  unfold retainCommitments
  simp only [length_append, length_singleton]
  split_ifs with hlong
  · cases window with
    | nil => cases hlong.not_ge (by decide)
    | cons block window =>
      rw [cons_append, tail_cons, concat_eq_cons_iff]
      exact (and_iff_right (by omega)).symm
  · simp
    omega

/-- A refused append leaves the engine as it was exactly when the refusal comes before the window is
stored: the block is the next one, or the window cannot be weighed. Otherwise the block's commitments
stay behind in the window, unless it was full of copies of them. -/
theorem refused_append_keeps_engine_iff (engine : SortitionEngine) (input : AppendInput) :
    (∀ error, (engine.append H advantage input).1 = .error error →
        (engine.append H advantage input).2 = engine) ↔
      (engine.snapshots.tip.bitcoinHeight + 1 < 2 ^ 64 ∧
          input.block.height = engine.snapshots.tip.bitcoinHeight + 1) ∨
        ¬Weighable (engine.sampled input) ∨
        (retainedCommitmentBlocks ≤ engine.commitmentWindow.length ∧
          ∀ block ∈ engine.commitmentWindow, block = input.commitments) := by
  rw [← retainCommitments_eq_self]
  cases helect : elect H advantage (engine.sampled input) engine.snapshots.tip
      engine.snapshots.effectiveWinnerSeed input.block.hash with
  | error error =>
    have hrefused : ¬Weighable (engine.sampled input) := by
      rw [← weighable_iff, helect]
      simp
    simp [append, helect, hrefused]
  | ok election =>
    have hweighable : Weighable (engine.sampled input) := weighable_iff.1 ⟨election, helect⟩
    by_cases hnext : engine.snapshots.tip.bitcoinHeight + 1 < 2 ^ 64 ∧
        input.block.height = engine.snapshots.tip.bitcoinHeight + 1
    · rw [engine.append_eq_of_ok H advantage input helect (if_pos hnext.1) hnext.2]
      exact iff_of_true (by simp) (.inl hnext)
    · obtain ⟨error, herror⟩ : ∃ error, engine.snapshots.appendWithOperations H input.block
          input.acceptedOperationTxids election.totalBurn input.poxId election.winner
            = .error error := by
        unfold SnapshotChain.appendWithOperations checkedAdd
        split_ifs with hfits
        · exact ⟨_, by rw [okOr_some, ok_bind, ensure_of_false (not_and.1 hnext hfits)]; rfl⟩
        · exact ⟨_, rfl⟩
      simp only [append, helect, herror, hnext, hweighable, not_true, false_or]
      constructor
      · intro h
        exact congrArg (·.commitmentWindow) (h error rfl)
      · intro h _ _
        rw [h]

/-! A quiet chain: nobody commits until one miner does, for the first time. -/

def blankHashes : Hashes :=
  ⟨fun _ => zero 32, fun _ => zero 32, fun _ => zero 20⟩

def quietInput (height : Nat) : AppendInput where
  block := ⟨height, zero 32, 0, []⟩
  acceptedOperationTxids := []
  commitments := ⟨[], [], false⟩
  poxId := PoxId.initial
  windowLen := 6

def loneCommitment : MiningCommitment where
  txid := replicate 32 1
  spentTxid := replicate 32 2
  spentOutput := 3
  burnSats := 1000
  vrfSeed := replicate 32 3
  vrfPublicKey := none
  signingKeyHash := none
  committedBlockHash := zero 32
  parentBitcoinHeight := 100

def loneInput : AppendInput :=
  { quietInput 101 with commitments := ⟨[loneCommitment], [], false⟩ }

def quietUnprimed : SortitionEngine :=
  ⟨⟨[SortitionSnapshot.genesis 100 (zero 32)], [zero 20], [], none, by simp⟩, []⟩

def quietBlocks : List (Nat × CommitmentWindowBlock) :=
  (List.range' 89 12).map fun height => (height, ⟨[], [], false⟩)

variable (H advantage)

/-- The engine after a run that does not fail. -/
def SortitionEngine.after (engine : SortitionEngine) (ops : List EngineOp) : SortitionEngine :=
  (engine.applyAll H advantage ops).toOption.getD engine

theorem append_as_surviving_one_reorganization :
    ∃ reference, (quietUnprimed.primeAll quietBlocks).appendAll blankHashes (fun _ => 0) []
        = .ok reference ∧
      ((quietUnprimed.primeAll quietBlocks).after blankHashes (fun _ => 0)
          [.append (quietInput 101), .retractAbove 100]).sampled loneInput
        = reference.sampled loneInput ∧
      (((quietUnprimed.primeAll quietBlocks).after blankHashes (fun _ => 0)
          [.append (quietInput 101), .retractAbove 100]).append blankHashes (fun _ => 0)
            loneInput).1
        = (reference.append blankHashes (fun _ => 0) loneInput).1 :=
  append_as_surviving
    (show withHistory (SortitionSnapshot.genesis 100 (zero 32))
      [zero 20] = some quietUnprimed from rfl)
    (show (quietUnprimed.primeAll quietBlocks).applyAll blankHashes (fun _ => 0)
      [.append (quietInput 101), .retractAbove 100] = .ok _ by decide +kernel)
    (by decide +kernel) (by decide +kernel)

/-- The winner the next append names after a run, if all of it succeeds. -/
def winnerAfter (run : Except SortitionError SortitionEngine) (input : AppendInput) :
    Option (Option Txid) := do
  let engine ← run.toOption
  let snapshot ← (engine.append H advantage input).1.toOption
  return snapshot.winnerTxid

/-- Two retractions of six blocks, each within the limit, leave no commitments at all: the lone miner
is weighed over one block and wins, where over six it has not been active often enough. -/
theorem two_reorganizations_elect_another_winner :
    winnerAfter blankHashes (fun _ => 0) ((quietUnprimed.primeAll quietBlocks).applyAll blankHashes
        (fun _ => 0) ((List.range' 101 12).map (fun height => .append (quietInput height)) ++
          [.retractAbove 106, .retractAbove 100])) loneInput = some (some loneCommitment.txid) ∧
      winnerAfter blankHashes (fun _ => 0) ((quietUnprimed.primeAll quietBlocks).appendAll
        blankHashes (fun _ => 0) (survivors []
          ((List.range' 101 12).map (fun height => .append (quietInput height)) ++
            [.retractAbove 106, .retractAbove 100]))) loneInput = some none := by
  decide +kernel

/-- A block two above the root is refused and leaves its empty window behind. Offered the right block
after that, the engine weighs two blocks instead of one, and the lone miner no longer wins. -/
theorem refused_append_changes_winner :
    let refused := quietUnprimed.append blankHashes (fun _ => 0) (quietInput 102)
    refused.1 = .error (.unexpectedHeight 101 102) ∧ refused.2 ≠ quietUnprimed ∧
      winnerAfter blankHashes (fun _ => 0) (.ok quietUnprimed) loneInput
        = some (some loneCommitment.txid) ∧
      winnerAfter blankHashes (fun _ => 0) (.ok refused.2) loneInput = some none := by
  decide +kernel

end NanoStacks.Sortition
