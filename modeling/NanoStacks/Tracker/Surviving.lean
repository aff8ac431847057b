import NanoStacks.Sortition.Surviving
import NanoStacks.Tracker.Basic

/-!
# A tracker and the blocks that survive

What a tracker notes beside its engine has to be rewound by a reorganization as well. The positions of
accepted commitments are; the reward-cycle history and the leader keys are not. So a tracker goes on
as one that only ever walked the surviving blocks exactly as long as no block it gives back opened a
reward cycle or registered a key (`AdvanceInput.Quiet`).

`Walked` is the tracker of one branch, built block by block, and `TrackerFollows` relates it to the
tracker at hand: the engines are related as in `Follows`, and the notes are equal.
-/

namespace NanoStacks.Tracker

open Bitcoin Sortition Result Suffix SnapshotChain TrackerNotes List SortitionTracker Except

variable (H : Hashes) (advantage : CarryoverAdvantage)

/-- The arguments of one advance. -/
structure AdvanceInput where
  block : BitcoinBlock
  payouts : PayoutSchedule

/-- A block that opens no reward cycle and registers no leader key. -/
def AdvanceInput.Quiet (input : AdvanceInput) : Bool :=
  !input.payouts.startsRewardCycle input.block.height &&
    input.block.operations.all (registrationOf · = none)

/-! ## What a block leaves in the notes -/

namespace TrackerNotes

variable (notes : TrackerNotes) (block : BitcoinBlock) (payouts : PayoutSchedule)

@[simp] theorem prepare_height : (notes.prepare block payouts).1.block.height = block.height := rfl

theorem registerKeys_quiet (h : block.operations.all (registrationOf · = none)) :
    notes.registerKeys block = notes := by
  have hfold : ∀ (operations : List BitcoinOperation) (keys : LeaderKeys),
      (operations.all (registrationOf · = none)) →
      operations.foldl (registerOperation block.height) keys = keys := by
    intro operations
    induction operations with
    | nil => exact fun _ _ => rfl
    | cons operation operations ih =>
      intro keys hall
      rw [all_cons, Bool.and_eq_true, decide_eq_true_eq] at hall
      rw [foldl_cons, registerOperation, hall.1]
      exact ih keys hall.2
  rw [registerKeys, hfold _ _ h]

theorem prepare_quiet {notes : TrackerNotes} (hfloor : notes.commitmentFloor.isSome)
    {input : AdvanceInput} (hquiet : input.Quiet)
    (hcycles : payouts.startsRewardCycle input.block.height
      = input.payouts.startsRewardCycle input.block.height) :
    ∃ positions : Finset (Nat × Nat), (∀ position ∈ positions, position.1 = input.block.height) ∧
      (notes.prepare input.block payouts).2
        = { notes with commitments := notes.commitments ∪ positions } := by
  rw [AdvanceInput.Quiet, Bool.and_eq_true, Bool.not_eq_true', ← hcycles] at hquiet
  obtain ⟨floor, hfloor⟩ := Option.isSome_iff_exists.1 hfloor
  have hopen : notes.openCycle input.block payouts = notes := by
    rw [openCycle, hquiet.1, if_neg Bool.false_ne_true]
  refine ⟨positionsOf (notes.acceptedOperations input.block)
    (commitmentWindowBlock (notes.acceptedOperations input.block) payouts notes.keys), ?_, ?_⟩
  · intro position hposition
    have hheight := positionsOf_height hposition
    exact hheight
  · rw [prepare, hopen, registerKeys_quiet _ _ hquiet.2]
    simp only [acceptedBlock, hfloor, Option.getD_some]

theorem prepare_commitments {position : Nat × Nat}
    (h : position ∈ (notes.prepare block payouts).2.commitments) :
    position ∈ notes.commitments ∨ position.1 = block.height := by
  have hopen : (notes.openCycle block payouts).commitments = notes.commitments := by
    rw [openCycle]
    split_ifs <;> rfl
  simp only [prepare, acceptedBlock, registerKeys, Finset.mem_union, hopen] at h
  rcases h with h | h
  · exact .inl h
  · have hheight := positionsOf_height h
    exact .inr hheight

theorem prepare_floor : (notes.prepare block payouts).2.commitmentFloor.isSome := rfl

end TrackerNotes

variable {payouts : PayoutSchedule} {height : Nat}

/-- Naming the waterfall's recipient changes no schedule of cycles. -/
theorem payoutsAt_ok {notes : TrackerNotes} {payouts' : PayoutSchedule}
    (h : notes.payoutsAt payouts height = .ok payouts') :
    payouts'.cycles = payouts.cycles ∧
      ∀ at', payouts'.miningWindowAt at' = payouts.miningWindowAt at' := by
  unfold payoutsAt at h
  split_ifs at h
  · simp only [bind_eq_ok, okOr_eq_ok, return_eq_ok] at h
    obtain ⟨recipient, -, rfl⟩ := h
    exact ⟨rfl, fun _ => rfl⟩
  · cases h
    exact ⟨rfl, fun _ => rfl⟩

/-! ## What an advance comes to -/

variable {tracker : SortitionTracker} {block : BitcoinBlock} {snapshot : SortitionSnapshot}

/-- An advance succeeds exactly when there is a seed to sample with, the payouts are known and the
engine appends the block. -/
theorem advance_eq_ok :
    (tracker.advance H advantage block payouts).1 = .ok snapshot ↔
      tracker.engine.snapshots.effectiveWinnerSeed.isSome ∧
      ∃ payouts', tracker.payoutsAt payouts block.height = .ok payouts' ∧
        (tracker.engine.append H advantage (tracker.prepare block payouts').1).1 = .ok snapshot := by
  unfold advance
  cases hseed : tracker.engine.snapshots.effectiveWinnerSeed with
  | none => simp
  | some seed =>
    cases hpayouts : tracker.payoutsAt payouts block.height with
    | error e => simp
    | ok payouts' => simp [mapError_eq_ok]

section

variable (h : (tracker.advance H advantage block payouts).1 = .ok snapshot)

include h

theorem advance_snd {payouts' : PayoutSchedule}
    (hpayouts : tracker.payoutsAt payouts block.height = .ok payouts') :
    (tracker.advance H advantage block payouts).2 =
      { (tracker.prepare block payouts').2 with
        engine := tracker.engine.extended (tracker.prepare block payouts').1 snapshot } := by
  obtain ⟨hseed, payouts'', hpayouts', hok⟩ := (advance_eq_ok H advantage).1 h
  obtain rfl : payouts' = payouts'' := ok.inj (hpayouts.symm.trans hpayouts')
  obtain ⟨seed, hseed⟩ := Option.isSome_iff_exists.1 hseed
  unfold advance
  simp only [hseed, hpayouts, Option.isNone_some, Bool.false_eq_true, if_false]
  rw [tracker.engine.append_snd H advantage _ hok]

theorem advance_tip :
    (tracker.advance H advantage block payouts).2.tip = snapshot ∧
      snapshot.bitcoinHeight = tracker.tip.bitcoinHeight + 1 ∧
      block.height = tracker.tip.bitcoinHeight + 1 := by
  obtain ⟨-, payouts', hpayouts, happend⟩ := (advance_eq_ok H advantage).1 h
  rw [advance_snd H advantage h hpayouts]
  exact ⟨tip_push _ _, tracker.engine.append_height H advantage _ happend⟩

end

/-! ## The tracker of one branch -/

/-- The tracker reached from `start` by walking a branch, with the appends its engine made and every
snapshot it ever held. -/
inductive Walked (start : SortitionTracker) :
    List AdvanceInput → List AppendInput → List SortitionSnapshot → SortitionTracker → Prop
  | start : Walked start [] [] [start.tip] start
  | advance {branch : List AdvanceInput} {appends : List AppendInput}
      {snapshots : List SortitionSnapshot} {tracker : SortitionTracker} {input : AdvanceInput}
      {payouts : PayoutSchedule} {snapshot : SortitionSnapshot} :
      Walked start branch appends snapshots tracker →
      (tracker.advance H advantage input.block input.payouts).1 = .ok snapshot →
      tracker.payoutsAt input.payouts input.block.height = .ok payouts →
      Walked start (branch ++ [input]) (appends ++ [(tracker.prepare input.block payouts).1])
        (snapshots ++ [snapshot]) (tracker.advance H advantage input.block input.payouts).2

/-- A tracker that has been primed and stands on its root. -/
structure PrimedTracker (start : SortitionTracker) : Prop where
  engine : Primed start.engine
  floor : start.commitmentFloor.isSome
  commitments : ∀ position ∈ start.commitments, position.1 ≤ start.tip.bitcoinHeight

namespace Walked

variable {H advantage} {start tracker : SortitionTracker} {branch : List AdvanceInput}
  {appends : List AppendInput} {snapshots : List SortitionSnapshot}

section

variable (h : Walked H advantage start branch appends snapshots tracker)

include h

theorem built : Built H advantage start.engine appends snapshots tracker.engine := by
  induction h with
  | start => exact .start
  | advance _ hok hpayouts ih =>
    rw [advance_snd H advantage hok hpayouts]
    obtain ⟨-, payouts', hpayouts', happend⟩ := (advance_eq_ok H advantage).1 hok
    obtain rfl := ok.inj (hpayouts.symm.trans hpayouts')
    exact ih.append happend

theorem heights_eq : branch.map (·.block.height) = appends.map (·.block.height) := by
  induction h with
  | start => rfl
  | advance _ _ _ ih => simp [ih]

theorem length_eq : branch.length = appends.length := by
  have hlength := congrArg length h.heights_eq
  rwa [length_map, length_map] at hlength

end

section

variable (hstart : PrimedTracker start)
  (h : Walked H advantage start branch appends snapshots tracker)

include hstart h

theorem floor : tracker.commitmentFloor.isSome := by
  cases h with
  | start => exact hstart.floor
  | advance _ hok hpayouts =>
    rw [advance_snd H advantage hok hpayouts]
    exact prepare_floor _ _ _

theorem commitments_le :
    ∀ position ∈ tracker.commitments, position.1 ≤ tracker.tip.bitcoinHeight := by
  induction h with
  | start => exact hstart.commitments
  | advance _ hok hpayouts ih =>
    obtain ⟨htip, hheight, hblock⟩ := advance_tip H advantage hok
    intro position hposition
    rw [htip, hheight]
    rw [advance_snd H advantage hok hpayouts] at hposition
    rcases prepare_commitments _ _ _ hposition with hold | hnew
    · exact (ih position hold).trans (Nat.le_succ _)
    · exact (hnew.trans hblock).le

/-- The tracker before the last `d` blocks. When these were quiet it had the same notes, except for the
commitments at their heights. -/
theorem rdrop :
    ∀ d ≤ branch.length, (∀ input ∈ branch.rtake d, input.Quiet) →
      ∃ tracker', Walked H advantage start (branch.rdrop d) (appends.rdrop d) (snapshots.rdrop d)
          tracker' ∧
        tracker'.engine.snapshots.consensusHashes
          = tracker.engine.snapshots.consensusHashes.rdrop d ∧
        ∃ positions : Finset (Nat × Nat),
          (∀ position ∈ positions, ∃ input ∈ branch.rtake d, position.1 = input.block.height) ∧
          tracker.toTrackerNotes = { tracker'.toTrackerNotes with
            commitments := tracker'.commitments ∪ positions } := by
  induction h with
  | start =>
    intro d hd _
    obtain rfl : d = 0 := by simpa using hd
    exact ⟨start, by simpa using Walked.start, by simp, ∅, by simp, by simp⟩
  | @advance branch appends snapshots tracker input payouts snapshot hwalked hok hpayouts ih =>
    intro d hd hquiet
    cases d with
    | zero =>
      refine ⟨_, by simpa using hwalked.advance hok hpayouts, by simp, ∅, by simp, by simp⟩
    | succ d =>
      rw [rtake_concat_succ] at hquiet
      obtain ⟨tracker', hwalked', hhashes, positions, hpositions, hnotes⟩ :=
        ih d (by simpa using hd) fun input hinput => hquiet input (mem_append_left _ hinput)
      have hcycles := (payoutsAt_ok hpayouts).1
      obtain ⟨added, hadded, hprepare⟩ := prepare_quiet payouts
        (hwalked.floor hstart) (hquiet input (by simp))
        (by rw [PayoutSchedule.startsRewardCycle, hcycles]; rfl)
      rw [rdrop_concat_succ, rdrop_concat_succ, rdrop_concat_succ,
        rtake_concat_succ, advance_snd H advantage hok hpayouts]
      refine ⟨tracker', hwalked', ?_, positions ∪ added, ?_, ?_⟩
      · show _ = (tracker.engine.snapshots.consensusHashes ++ [snapshot.consensusHash]).rdrop (d + 1)
        rw [rdrop_concat_succ, hhashes]
      · intro position hposition
        rcases Finset.mem_union.1 hposition with hold | hnew
        · obtain ⟨input', hinput', heq⟩ := hpositions position hold
          exact ⟨input', mem_append_left _ hinput', heq⟩
        · exact ⟨input, by simp, hadded position hnew⟩
      · rw [hprepare, hnotes]
        simp only [Finset.union_assoc]

end

end Walked

/-! ## Runs with reorganizations -/

inductive TrackerOp
  | advance (input : AdvanceInput)
  | retractAbove (bitcoinHeight : Nat)

/-- One call, if it returns without an error. -/
def SortitionTracker.apply (tracker : SortitionTracker) :
    TrackerOp → Except TrackerError SortitionTracker
  | .advance input => do
    let _ ← (tracker.advance H advantage input.block input.payouts).1
    return (tracker.advance H advantage input.block input.payouts).2
  | .retractAbove bitcoinHeight => (·.2) <$> tracker.retractAbove bitcoinHeight

def SortitionTracker.applyAll (tracker : SortitionTracker) (ops : List TrackerOp) :
    Except TrackerError SortitionTracker :=
  ops.foldlM (apply H advantage) tracker

/-- Walk a list of blocks, and list the snapshots derived. -/
def SortitionTracker.walk (tracker : SortitionTracker) :
    List AdvanceInput → Except TrackerError (List SortitionSnapshot × SortitionTracker)
  | [] => .ok ([], tracker)
  | input :: inputs => do
    let snapshot ← (tracker.advance H advantage input.block input.payouts).1
    let (snapshots, tracker) ←
      walk (tracker.advance H advantage input.block input.payouts).2 inputs
    return (snapshot :: snapshots, tracker)

/-- The blocks that survive a list of calls. -/
def survivingBlocks (branch : List AdvanceInput) : List TrackerOp → List AdvanceInput
  | [] => branch
  | .advance input :: ops => survivingBlocks (branch ++ [input]) ops
  | .retractAbove bitcoinHeight :: ops =>
    survivingBlocks (branch.filter (·.block.height ≤ bitcoinHeight)) ops

/-- No block that is given back opened a reward cycle or registered a leader key. -/
def QuietReorgs (branch : List AdvanceInput) : List TrackerOp → Bool
  | [] => true
  | .advance input :: ops => QuietReorgs (branch ++ [input]) ops
  | .retractAbove bitcoinHeight :: ops =>
    (branch.filter (bitcoinHeight < ·.block.height)).all (·.Quiet) &&
      QuietReorgs (branch.filter (·.block.height ≤ bitcoinHeight)) ops

/-- A block is appended over as many blocks of commitments as it asks for. -/
def SortitionTracker.Wide (tracker : SortitionTracker) (input : AdvanceInput) : Bool :=
  input.payouts.miningWindowAt input.block.height ≤ tracker.engine.commitmentWindow.length + 1

/-- Every block of a run is appended over as many blocks of commitments as it asks for. -/
def AllWide : SortitionTracker → List TrackerOp → Bool
  | _, [] => true
  | tracker, .advance input :: ops => tracker.Wide input &&
    match tracker.apply H advantage (.advance input) with
    | .ok tracker' => AllWide tracker' ops
    | .error _ => true
  | tracker, .retractAbove bitcoinHeight :: ops =>
    match tracker.apply H advantage (.retractAbove bitcoinHeight) with
    | .ok tracker' => AllWide tracker' ops
    | .error _ => true

/-- The tracker at hand against the tracker of the surviving blocks. -/
structure TrackerFollows (start : SortitionTracker) (branch : List AdvanceInput)
    (appends : List AppendInput) (snapshots : List SortitionSnapshot)
    (reference tracker : SortitionTracker) : Prop where
  walked : Walked H advantage start branch appends snapshots reference
  engine : Follows H advantage start.engine appends snapshots reference.engine tracker.engine
  notes : tracker.toTrackerNotes = reference.toTrackerNotes

theorem TrackerFollows.start {start : SortitionTracker} (hstart : PrimedTracker start) :
    TrackerFollows H advantage start [] [] [start.tip] start start :=
  ⟨.start, .start H advantage hstart.engine, rfl⟩

namespace TrackerFollows

variable {H advantage} {start reference tracker : SortitionTracker} {branch : List AdvanceInput}
  {appends : List AppendInput} {snapshots : List SortitionSnapshot}

section

variable (hstart : PrimedTracker start)
  (h : TrackerFollows H advantage start branch appends snapshots reference tracker)

include hstart h

theorem advance {input : AdvanceInput} (hwide : tracker.Wide input)
    (hok : (tracker.advance H advantage input.block input.payouts).1 = .ok snapshot) :
    (reference.advance H advantage input.block input.payouts).1 = .ok snapshot ∧
      ∃ append, TrackerFollows H advantage start (branch ++ [input]) (appends ++ [append])
        (snapshots ++ [snapshot]) (reference.advance H advantage input.block input.payouts).2
        (tracker.advance H advantage input.block input.payouts).2 := by
  obtain ⟨hseed, payouts, hpayouts, happend⟩ := (advance_eq_ok H advantage).1 hok
  have hwindow := (payoutsAt_ok hpayouts).2 input.block.height
  have hsix := payouts.miningWindowAt_le input.block.height
  have hsufficient : Sufficient start.engine tracker.engine
      (tracker.prepare input.block payouts).1 := by
    refine ⟨?_, .inl hseed⟩
    show min retainedCommitmentBlocks (max (payouts.miningWindowAt input.block.height) 1) ≤ _
    rw [SortitionTracker.Wide, decide_eq_true_eq] at hwide
    omega
  have hfollows := h.engine.append hstart.engine hsufficient happend
  have hsame := h.engine.append_eq hstart.engine hsufficient
  have hpayouts' : reference.payoutsAt input.payouts input.block.height = .ok payouts := by
    rw [← h.notes]
    exact hpayouts
  have hok' : (reference.advance H advantage input.block input.payouts).1 = .ok snapshot := by
    refine (advance_eq_ok H advantage).2 ⟨?_, payouts, hpayouts', ?_⟩
    · rwa [← h.engine.seed_eq hstart.engine (.inl hseed)]
    · rw [← h.notes, ← hsame, happend]
  refine ⟨hok', _, h.walked.advance hok' hpayouts', ?_, ?_⟩
  · rw [advance_snd H advantage hok hpayouts, advance_snd H advantage hok' hpayouts', ← h.notes]
    rw [tracker.engine.append_snd H advantage _ happend] at hfollows
    exact hfollows
  · rw [advance_snd H advantage hok hpayouts, advance_snd H advantage hok' hpayouts', ← h.notes]

theorem retractAbove {bitcoinHeight : Nat}
    (hquiet : (branch.filter (bitcoinHeight < ·.block.height)).all (·.Quiet))
    {reorg : SortitionReorg} {tracker' : SortitionTracker}
    (hok : tracker.retractAbove bitcoinHeight = .ok (reorg, tracker')) :
    ∃ appends' snapshots' reference', TrackerFollows H advantage start
      (branch.filter (·.block.height ≤ bitcoinHeight)) appends' snapshots' reference' tracker' := by
  simp only [SortitionTracker.retractAbove, bind_eq_ok, mapError_eq_ok, return_eq_ok] at hok
  obtain ⟨⟨_, engine'⟩, hengine, ⟨⟩⟩ := hok
  obtain ⟨hlow, d, hd, hcut, hfollows⟩ := h.engine.retractAbove hengine
  have hnumbered := h.engine.built.heights.2.1
  rw [← h.walked.heights_eq, ← h.walked.length_eq] at hnumbered
  rw [← h.walked.length_eq] at hd hcut
  obtain ⟨hkept, hdropped⟩ := cut_numbered hnumbered (m := bitcoinHeight) (d := d)
    (by rwa [Nat.add_sub_add_right])
  rw [hdropped, all_eq_true] at hquiet
  obtain ⟨reference', hwalked, hhashes, positions, hpositions, hnotes⟩ :=
    h.walked.rdrop hstart d hd hquiet
  rw [hkept]
  refine ⟨appends.rdrop d, snapshots.rdrop d, reference', hwalked,
    hfollows reference'.engine hwalked.built hhashes, ?_⟩
  -- What the tracker forgets are the commitments of the blocks it gives back.
  have hbelow : ∀ position ∈ reference'.commitments, position.1 ≤ bitcoinHeight := by
    intro position hposition
    have htip := hwalked.built.heights.2.2
    have hle := hwalked.commitments_le hstart position hposition
    rw [← hwalked.length_eq, rdrop, length_take] at htip
    rw [SortitionTracker.tip] at hle
    omega
  have habove : ∀ position ∈ positions, ¬position.1 ≤ bitcoinHeight := by
    intro position hposition
    obtain ⟨input, hinput, heq⟩ := hpositions position hposition
    rw [← hdropped, mem_filter, decide_eq_true_eq] at hinput
    omega
  have hfilter : (reference'.commitments ∪ positions).filter (·.1 ≤ bitcoinHeight)
      = reference'.commitments := by
    rw [Finset.filter_union, Finset.filter_true_of_mem hbelow, Finset.filter_false_of_mem habove,
      Finset.union_empty]
  simp only [h.notes, hnotes, hfilter]

end

end TrackerFollows

/-! ## Whole runs -/

section Runs

variable {H advantage} {start reference tracker tracker' : SortitionTracker}
  {branch : List AdvanceInput} {appends : List AppendInput} {snapshots : List SortitionSnapshot}

/-- A run that gives back quiet blocks only ends with a tracker that follows the surviving blocks. -/
theorem TrackerFollows.applyAll (hstart : PrimedTracker start)
    (h : TrackerFollows H advantage start branch appends snapshots reference tracker)
    {ops : List TrackerOp} (hwide : AllWide H advantage tracker ops)
    (hquiet : QuietReorgs branch ops) (hrun : tracker.applyAll H advantage ops = .ok tracker') :
    ∃ appends' snapshots' reference', TrackerFollows H advantage start (survivingBlocks branch ops)
      appends' snapshots' reference' tracker' := by
  induction ops generalizing tracker reference branch appends snapshots with
  | nil =>
    obtain rfl : tracker = tracker' := by simpa [applyAll] using hrun
    exact ⟨appends, snapshots, reference, h⟩
  | cons op ops ih =>
    simp only [applyAll, foldlM_cons, bind_eq_ok] at hrun
    obtain ⟨middle, hmiddle, hrun⟩ := hrun
    cases op with
    | advance input =>
      simp only [AllWide, hmiddle, Bool.and_eq_true] at hwide
      simp only [apply, bind_eq_ok, return_eq_ok] at hmiddle
      obtain ⟨snapshot, hok, rfl⟩ := hmiddle
      obtain ⟨-, append, hnext⟩ := h.advance hstart hwide.1 hok
      exact ih hnext hwide.2 hquiet hrun
    | retractAbove bitcoinHeight =>
      simp only [AllWide, hmiddle] at hwide
      simp only [QuietReorgs, Bool.and_eq_true] at hquiet
      simp only [apply, map_eq_ok, Prod.exists] at hmiddle
      obtain ⟨reorg, _, hok, rfl⟩ := hmiddle
      obtain ⟨appends', snapshots', reference', hnext⟩ := h.retractAbove hstart hquiet.1 hok
      exact ih hnext hwide hquiet.2 hrun

variable {derived : List SortitionSnapshot}

section

variable {input : AdvanceInput} {inputs : List AdvanceInput}

theorem SortitionTracker.walk_nil_eq_ok :
    tracker.walk H advantage [] = .ok (derived, tracker') ↔ [] = derived ∧ tracker = tracker' := by
  simp only [walk, ok.injEq, Prod.mk.injEq]

theorem SortitionTracker.walk_cons_eq_ok :
    tracker.walk H advantage (input :: inputs) = .ok (derived, tracker') ↔
      ∃ snapshot, (tracker.advance H advantage input.block input.payouts).1 = .ok snapshot ∧
        ∃ rest, (tracker.advance H advantage input.block input.payouts).2.walk H advantage inputs
          = .ok (rest, tracker') ∧ snapshot :: rest = derived := by
  simp only [walk, bind_eq_ok, return_eq_ok, Prod.mk.injEq, Prod.exists,
    exists_eq_right_right]

/-- What holds of a tracker and is kept by every advance that succeeds holds after a walk. -/
theorem SortitionTracker.walk_invariant (Inv : SortitionTracker → Prop)
    (hstep : ∀ tracker (input : AdvanceInput) snapshot, Inv tracker →
      (tracker.advance H advantage input.block input.payouts).1 = .ok snapshot →
      Inv (tracker.advance H advantage input.block input.payouts).2) (h : Inv tracker)
    (hwalk : tracker.walk H advantage inputs = .ok (derived, tracker')) : Inv tracker' := by
  induction inputs generalizing tracker derived with
  | nil =>
    obtain ⟨-, rfl⟩ := walk_nil_eq_ok.1 hwalk
    exact h
  | cons input inputs ih =>
    obtain ⟨snapshot, hok, rest, hrest, -⟩ := walk_cons_eq_ok.1 hwalk
    exact ih (hstep tracker input snapshot h hok) hrest

end

theorem TrackerFollows.walk (hstart : PrimedTracker start)
    (h : TrackerFollows H advantage start branch appends snapshots reference tracker)
    {continuation : List AdvanceInput}
    (hwide : AllWide H advantage tracker (continuation.map .advance))
    (hwalk : tracker.walk H advantage continuation = .ok (derived, tracker')) :
    ∃ reference', reference.walk H advantage continuation = .ok (derived, reference') := by
  induction continuation generalizing tracker reference branch appends snapshots derived with
  | nil =>
    obtain ⟨rfl, rfl⟩ := walk_nil_eq_ok.1 hwalk
    exact ⟨reference, rfl⟩
  | cons input inputs ih =>
    obtain ⟨snapshot, hok, rest, hrest, rfl⟩ := walk_cons_eq_ok.1 hwalk
    have happly : tracker.apply H advantage (.advance input)
        = .ok (tracker.advance H advantage input.block input.payouts).2 := by
      simp only [apply, hok, ok_bind, pure_eq_ok]
    simp only [map_cons, AllWide, happly, Bool.and_eq_true] at hwide
    obtain ⟨hsame, append, hnext⟩ := h.advance hstart hwide.1 hok
    obtain ⟨reference', hreference⟩ := ih hnext hwide.2 hrest
    exact ⟨reference', walk_cons_eq_ok.2 ⟨snapshot, hsame, rest, hreference, rfl⟩⟩

theorem SortitionTracker.walk_append {inputs inputs' : List AdvanceInput}
    {middle : SortitionTracker} {derived' : List SortitionSnapshot}
    (h : tracker.walk H advantage inputs = .ok (derived, middle))
    (h' : middle.walk H advantage inputs' = .ok (derived', tracker')) :
    tracker.walk H advantage (inputs ++ inputs') = .ok (derived ++ derived', tracker') := by
  induction inputs generalizing tracker derived with
  | nil =>
    obtain ⟨rfl, rfl⟩ := walk_nil_eq_ok.1 h
    exact h'
  | cons input inputs ih =>
    obtain ⟨snapshot, hok, rest, hrest, rfl⟩ := walk_cons_eq_ok.1 h
    simp only [cons_append, walk, hok, ih hrest, ok_bind, pure_eq_ok]

section

variable (h : Walked H advantage start branch appends snapshots tracker)

include h

theorem Walked.walk : start.walk H advantage branch = .ok (snapshots.tail, tracker) := by
  induction h with
  | start => rfl
  | advance hwalked hok _ ih =>
    have hlast := hwalked.built.getLast?
    rw [tail_append_of_ne_nil (by rintro rfl; simp at hlast)]
    refine walk_append ih ?_
    simp only [SortitionTracker.walk, hok, ok_bind, pure_eq_ok]

omit h in
theorem SortitionTracker.walk_split {first second : List AdvanceInput}
    (h : tracker.walk H advantage (first ++ second) = .ok (derived, tracker')) :
    ∃ front back middle, derived = front ++ back ∧
      tracker.walk H advantage first = .ok (front, middle) ∧
      middle.walk H advantage second = .ok (back, tracker') := by
  induction first generalizing tracker derived with
  | nil => exact ⟨[], derived, tracker, rfl, rfl, h⟩
  | cons input inputs ih =>
    obtain ⟨snapshot, hok, rest, hrest, rfl⟩ := walk_cons_eq_ok.1 h
    obtain ⟨front, back, middle, rfl, hfront, hback⟩ := ih hrest
    refine ⟨snapshot :: front, back, middle, rfl, ?_, hback⟩
    simp only [walk, hok, hfront, ok_bind, pure_eq_ok]

theorem Walked.append_walk {inputs : List AdvanceInput}
    (hwalk : tracker.walk H advantage inputs = .ok (derived, tracker')) :
    ∃ appends', Walked H advantage start (branch ++ inputs) appends' (snapshots ++ derived)
      tracker' := by
  induction inputs generalizing tracker branch appends snapshots derived with
  | nil =>
    obtain ⟨rfl, rfl⟩ := walk_nil_eq_ok.1 hwalk
    exact ⟨appends, by simpa using h⟩
  | cons input inputs ih =>
    obtain ⟨snapshot, hok, rest, hrest, rfl⟩ := walk_cons_eq_ok.1 hwalk
    obtain ⟨-, payouts, hpayouts, -⟩ := (advance_eq_ok H advantage).1 hok
    obtain ⟨appends', hwalked⟩ := ih (h.advance hok hpayouts) hrest
    exact ⟨appends', by simpa using hwalked⟩

theorem Walked.poxId :
    tracker.poxId.bits = start.poxId.bits ++ List.replicate
      (branch.countP fun input => input.payouts.startsRewardCycle input.block.height) true := by
  induction h with
  | start => simp
  | @advance branch _ _ tracker input payouts _ _ hok hpayouts ih =>
    have hcycles : payouts.startsRewardCycle input.block.height
        = input.payouts.startsRewardCycle input.block.height := by
      rw [PayoutSchedule.startsRewardCycle, (payoutsAt_ok hpayouts).1]
      rfl
    rw [advance_snd H advantage hok hpayouts]
    show (tracker.openCycle input.block payouts).poxId.bits = _
    rw [openCycle, hcycles, countP_append, countP_singleton]
    split_ifs
    · rw [PoxId.extendWithAnchor, ih, append_assoc, replicate_succ']
    · exact ih

end

end Runs

/-! ## Priming -/

/-- A tracker as it is made from a checkpoint, before any block has been read. -/
structure Unprimed (tracker : SortitionTracker) : Prop where
  engine : Primed tracker.engine
  commitments : tracker.commitments = ∅

/-- What reading the priming window keeps: the tracker stands on its root, and has accepted
commitments no higher than that. -/
structure Priming (height : Nat) (tracker : SortitionTracker) : Prop where
  engine : Primed tracker.engine
  height_eq : tracker.tip.bitcoinHeight = height
  commitments : ∀ position ∈ tracker.commitments, position.1 ≤ height

/-- The tracker with the seed and the key its tip's winner had. -/
def SortitionTracker.fillTip (tracker : SortitionTracker) (seed key : Option (Bytes 32)) :
    SortitionTracker :=
  { tracker with engine := { tracker.engine with
    snapshots := tracker.engine.snapshots.updateTip fun tip =>
      { tip with winnerVrfSeed := seed, winnerVrfPublicKey := key } } }

theorem fillTip_self (tracker : SortitionTracker) :
    tracker.fillTip tracker.tip.winnerVrfSeed tracker.tip.winnerVrfPublicKey = tracker := by
  unfold fillTip
  rw [updateTip_self]
  rfl

/-- Recovering the seed fills in the tip and touches nothing else. A seed that is there stays, and
then the winner of the tip is authenticated. -/
theorem recoverSeedFrom_eq {tracker' : SortitionTracker}
    (hok : tracker.recoverSeedFrom block = .ok tracker') :
    ∃ seed key, tracker' = tracker.fillTip seed key ∧
      (tracker.engine.snapshots.effectiveWinnerSeed.isSome →
        seed = tracker.tip.winnerVrfSeed ∧
        (tracker.tip.winnerTxid.isSome → tracker.tip.winnerVrfPublicKey = none →
          tracker.authenticateBoundaryWinner block = .ok (key.getD (Bytes.zero 32)))) := by
  unfold recoverSeedFrom at hok
  simp only at hok
  split_ifs at hok with hdone hseed hkey hkey
  · obtain rfl := ok.inj hok
    refine ⟨_, _, (fillTip_self tracker).symm, fun _ => ⟨rfl, fun hwinner hmissing => ?_⟩⟩
    simp [hwinner, hmissing] at hdone
  · simp only [bind_eq_ok, okOr_eq_ok, ok.injEq] at hok
    obtain ⟨-, -, recovered, rfl, key, hauthentic, hadopt⟩ := hok
    obtain ⟨-, rfl⟩ := (adopting_adoptRoot _).1 hadopt
    refine ⟨tracker.tip.winnerVrfSeed, some key, ?_, fun _ => ⟨rfl, fun _ _ => hauthentic⟩⟩
    rfl
  · simp only [bind_eq_ok, ok.injEq] at hok
    obtain ⟨-, -, recovered, rfl, rfl⟩ := hok
    refine ⟨_, _, (fillTip_self tracker).symm, fun _ => ⟨rfl, fun hwinner hmissing => ?_⟩⟩
    simp [hseed, hwinner, hmissing] at hkey
  · simp_all
  · simp only [recoverSeed, bind_eq_ok, okOr_eq_ok, ok.injEq] at hok
    obtain ⟨-, -, recovered, ⟨winner, -, seed, -, hadopt⟩, rfl⟩ := hok
    obtain ⟨-, rfl⟩ := (adopting_adoptRoot _).1 hadopt
    refine ⟨some seed, tracker.tip.winnerVrfPublicKey, rfl, fun hpresent => ?_⟩
    exact absurd hpresent hseed

theorem Priming.fillTip (h : Priming height tracker) (seed key : Option (Bytes 32)) :
    Priming height (tracker.fillTip seed key) := by
  refine ⟨⟨?_, h.engine.window⟩, ?_, h.commitments⟩
  · simp only [SortitionTracker.fillTip, tip_updateTip]
    simp [updateTip, h.engine.root]
  · show (tracker.engine.snapshots.updateTip _).tip.bitcoinHeight = height
    rw [tip_updateTip]
    exact h.height_eq

theorem prime_tip_height (engine : SortitionEngine) (bitcoinHeight : Nat)
    (commitments : CommitmentWindowBlock) :
    (engine.prime bitcoinHeight commitments).snapshots.tip.bitcoinHeight
      = engine.snapshots.tip.bitcoinHeight := by
  unfold SortitionEngine.prime
  simp only
  split_ifs
  · simp only [SortitionEngine.recordSpends, recordTipBurnSpends, tip_updateTip]
  · rfl

theorem Priming.primeBlock {bitcoinHeight : Nat} {tracker' : SortitionTracker}
    (h : Priming height tracker) (hblock : block.height ≤ height)
    (hok : tracker.primeBlock block payouts bitcoinHeight = .ok tracker') :
    Priming height tracker' ∧ tracker'.commitmentFloor.isSome := by
  simp only [SortitionTracker.primeBlock, bind_eq_ok, return_eq_ok] at hok
  obtain ⟨payouts', -, seeded, hseeded, rfl⟩ := hok
  set noted := ((tracker.registerKeys block).acceptedBlock block payouts').2 with hnoted
  have hread : Priming height { noted with engine := tracker.engine } := by
    refine ⟨h.engine, h.height_eq, fun position hposition => ?_⟩
    simp only [hnoted, acceptedBlock, registerKeys, Finset.mem_union] at hposition
    rcases hposition with hold | hnew
    · exact h.commitments position hold
    · rw [positionsOf_height hnew]
      exact hblock
  obtain ⟨hseed, hnotes⟩ : Priming height seeded ∧ seeded.toTrackerNotes = noted := by
    split_ifs at hseeded
    · obtain ⟨seed, key, rfl, -⟩ := recoverSeedFrom_eq hseeded
      exact ⟨hread.fillTip seed key, rfl⟩
    · obtain rfl := ok.inj hseeded
      exact ⟨hread, rfl⟩
  obtain ⟨hroot, hretained⟩ := prime_spec seeded.engine bitcoinHeight
    ((tracker.registerKeys block).acceptedBlock block payouts').1.2 hseed.engine.root
  refine ⟨⟨⟨hroot, ?_⟩, ?_, hseed.commitments⟩, ?_⟩
  · rw [hretained, length_retainCommitments hseed.engine.window]
    exact Nat.min_le_left _ _
  · exact (prime_tip_height _ _ _).trans hseed.height_eq
  · show seeded.toTrackerNotes.commitmentFloor.isSome
    rw [hnotes]
    rfl

theorem prime_primed {fresh start : SortitionTracker} {blockAt : Nat → Except String BitcoinBlock}
    (hfresh : Unprimed fresh)
    (hsource : ∀ height block, blockAt height = .ok block → block.height = height)
    (hprime : fresh.prime blockAt payouts = .ok start) : PrimedTracker start := by
  simp only [prime, bind_eq_ok, return_eq_ok] at hprime
  obtain ⟨primed, hread, rfl⟩ := hprime
  have hstep : ∀ height ≤ fresh.tip.bitcoinHeight, ∀ tracker next, Priming fresh.tip.bitcoinHeight tracker →
      tracker.primeHeight blockAt payouts height = .ok next →
      Priming fresh.tip.bitcoinHeight next ∧ next.commitmentFloor.isSome := by
    intro height hle tracker next hpriming hnext
    simp only [primeHeight, bind_eq_ok, mapError_eq_ok] at hnext
    obtain ⟨block, hblock, hnext⟩ := hnext
    exact hpriming.primeBlock ((hsource height block hblock).trans_le hle) hnext
  have hlow : ∀ height ∈ fresh.primingHeights, height ≤ fresh.tip.bitcoinHeight := by
    intro height hheight
    simp only [primingHeights, mem_range'_1] at hheight
    omega
  cases hheights : fresh.primingHeights with
  | nil => simp [primingHeights] at hheights; omega
  | cons first heights =>
    rw [hheights, forall_mem_cons] at hlow
    rw [hheights, foldlM_cons, bind_eq_ok] at hread
    obtain ⟨next, hnext, hread⟩ := hread
    obtain ⟨hpriming, hfloor⟩ := foldlM_invariant hread
      (hstep first hlow.1 fresh next ⟨hfresh.engine, rfl, by simp [hfresh.commitments]⟩ hnext)
      fun height hmem tracker next h => hstep height (hlow.2 height hmem) tracker next h.1
    refine ⟨hpriming.engine, hfloor, ?_⟩
    show ∀ position ∈ primed.commitments, position.1 ≤ primed.tip.bitcoinHeight
    rw [hpriming.height_eq]
    exact hpriming.commitments

/-! ## Going on after reorganizations -/

/-- **A tracker goes on as if it had only walked the surviving blocks**, whenever no block given back
opened a reward cycle or registered a leader key and every block finds its window. Its notes are
those of the surviving blocks, with one bit for every reward cycle these opened. -/
theorem walk_as_surviving {fresh start tracker tracker' : SortitionTracker}
    {blockAt : Nat → Except String BitcoinBlock} {payouts : PayoutSchedule} {ops : List TrackerOp}
    {continuation : List AdvanceInput} {derived : List SortitionSnapshot} (hfresh : Unprimed fresh)
    (hsource : ∀ height block, blockAt height = .ok block → block.height = height)
    (hprime : fresh.prime blockAt payouts = .ok start)
    (hrun : start.applyAll H advantage ops = .ok tracker) (hquiet : QuietReorgs [] ops)
    (hwide : AllWide H advantage start ops)
    (hwalk : tracker.walk H advantage continuation = .ok (derived, tracker'))
    (hwide' : AllWide H advantage tracker (continuation.map .advance)) :
    ∃ snapshots reference reference',
      start.walk H advantage (survivingBlocks [] ops) = .ok (snapshots, reference) ∧
      reference.walk H advantage continuation = .ok (derived, reference') ∧
      tracker.toTrackerNotes = reference.toTrackerNotes ∧
      tracker.poxId.bits = start.poxId.bits ++ List.replicate ((survivingBlocks [] ops).countP
        fun input => input.payouts.startsRewardCycle input.block.height) true := by
  have hstart := prime_primed hfresh hsource hprime
  obtain ⟨appends, snapshots, reference, hfollows⟩ :=
    (TrackerFollows.start H advantage hstart).applyAll hstart hwide hquiet hrun
  obtain ⟨reference', hreference⟩ := hfollows.walk hstart hwide' hwalk
  refine ⟨_, reference, reference', hfollows.walked.walk, hreference, hfollows.notes, ?_⟩
  rw [hfollows.notes]
  exact hfollows.walked.poxId

/-! A chain of empty blocks, with reward cycles of twenty blocks. -/

def emptyBlock (height : Nat) : BitcoinBlock := ⟨height, Bytes.zero 32, 0, []⟩

def twentyBlockCycles : PayoutSchedule where
  cycles := ⟨0, 20, none, by decide⟩
  preparePhaseLength := 3
  waterfallRecipient := none
  epochFourActivation := none
  prepare_lt := by decide

def emptyInput (height : Nat) : AdvanceInput := ⟨emptyBlock height, twentyBlockCycles⟩

/-- A checkpoint taken at a height whose winning seed is known. -/
def seededAt (height : Nat) : SortitionTracker where
  poxId := PoxId.initial
  keys := .new
  waterfallPayouts := .empty
  primed := false
  commitments := ∅
  commitmentFloor := none
  engine := ⟨⟨[{ SortitionSnapshot.genesis height (Bytes.zero 32) with
    winnerVrfSeed := some (Bytes.zero 32) }], [Bytes.zero 20], [], none, by simp⟩, []⟩

/-- The tracker primed with empty blocks. -/
def emptyStart (height : Nat) : SortitionTracker :=
  ((seededAt height).prime (fun height => .ok (emptyBlock height)) twentyBlockCycles).toOption.getD
    (seededAt height)

/-- The tracker primed with empty blocks, after a run that does not fail. -/
def emptyRun (height : Nat) (ops : List TrackerOp) : SortitionTracker :=
  ((emptyStart height).applyAll blankHashes (fun _ => 0) ops).toOption.getD (emptyStart height)

/-- The snapshots derived after it, and the tracker that stands on them. -/
def emptyWalk (height : Nat) (ops : List TrackerOp) (continuation : List AdvanceInput) :
    List SortitionSnapshot × SortitionTracker :=
  ((emptyRun height ops).walk blankHashes (fun _ => 0) continuation).toOption.getD
    ([], emptyRun height ops)

theorem unprimed_seededAt (height : Nat) : Unprimed (seededAt height) :=
  ⟨⟨rfl, Nat.zero_le _⟩, rfl⟩

theorem walk_as_surviving_one_reorganization :
    ∃ snapshots reference reference',
      (emptyStart 119).walk blankHashes (fun _ => 0) [] = .ok (snapshots, reference) ∧
      reference.walk blankHashes (fun _ => 0) [emptyInput 120, emptyInput 121]
        = .ok ((emptyWalk 119 [.advance (emptyInput 120), .retractAbove 119]
            [emptyInput 120, emptyInput 121]).1, reference') ∧
      (emptyRun 119 [.advance (emptyInput 120), .retractAbove 119]).toTrackerNotes
        = reference.toTrackerNotes ∧
      (emptyRun 119 [.advance (emptyInput 120), .retractAbove 119]).poxId.bits
        = (emptyStart 119).poxId.bits ++ List.replicate 0 true :=
  walk_as_surviving blankHashes (fun _ => 0) (unprimed_seededAt 119)
    (fun _ _ hblock => by rw [← ok.inj hblock]; rfl)
    (show (seededAt 119).prime (fun height => .ok (emptyBlock height)) twentyBlockCycles
      = .ok (emptyStart 119) by decide +kernel)
    (show (emptyStart 119).applyAll blankHashes (fun _ => 0)
      [.advance (emptyInput 120), .retractAbove 119] = .ok _ by decide +kernel)
    (by decide +kernel) (by decide +kernel)
    (show _ = ok (_, (emptyWalk 119 [.advance (emptyInput 120), .retractAbove 119]
      [emptyInput 120, emptyInput 121]).2) by decide +kernel)
    (by decide +kernel)

/-- Giving back the block that opened a reward cycle leaves its bit behind, and the block in its place
adds another: the snapshot derived afterwards counts one cycle too many. -/
theorem reorganized_cycle_counted_twice :
    ((emptyStart 120).applyAll blankHashes (fun _ => 0)
        [.advance (emptyInput 121), .retractAbove 120, .advance (emptyInput 121)]).map
          (·.tip.poxId.bits) = .ok [true, true, true] ∧
      ((emptyStart 120).walk blankHashes (fun _ => 0) (survivingBlocks []
        [.advance (emptyInput 121), .retractAbove 120, .advance (emptyInput 121)])).map
          (·.2.tip.poxId.bits) = .ok [true, true] ∧
      AllWide blankHashes (fun _ => 0) (emptyStart 120)
        [.advance (emptyInput 121), .retractAbove 120, .advance (emptyInput 121)] := by
  decide +kernel

end NanoStacks.Tracker
