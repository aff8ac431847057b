import NanoStacks.Chain.Plain
import NanoStacks.Sortition.Chain

/-!
# Giving blocks back

A Bitcoin reorganization or a fork takes executed blocks off the chain. What is kept beside the MARF
is then read back from the row of the block the chain is left on, or, failing that, cut down to what
can be told without one.

Right after a block has become the tip the chain has some ledger and some tenure starts (`Standing`).
`retraction_restores` says when a retraction finds them again: when the row of the block it lands on
is still stored, or, if it takes everything, when nothing it cuts away was there before the first
block. A block of the checkpoint's own history never had a row, and `checkpoint_tenure_start_lost` is
what becomes of a chain that goes back to one.
-/

namespace NanoStacks.Chain

open Sortition OrdMap ChainState List Option

structure ChainRetraction where
  resumeFrom : Option StacksBlockId
  discarded : List StacksBlockId
  deriving DecidableEq

namespace ChainState

variable {State : Type} (state : ChainState State)

/-- The chain standing on a ledger that was written down. -/
def standingOn (ledger : ChainLedger) : ChainState State :=
  ⟨state.vm.standOnTenureStarts ledger.tenureStartHeights, ledger⟩

/-- `recover_ledger_at`; nothing if the block has no row. -/
def recoverLedgerAt (block : StacksBlockId) : Option (ChainState State) :=
  (ledgerAt state.vm.rows block).map state.standingOn

def standOn (resumeFrom : Option StacksBlockId) (discardedFromTenure : Nat) : ChainState State :=
  match resumeFrom.bind state.recoverLedgerAt with
  | some recovered => recovered
  | none => state.standingOn (state.ledger.rewind discardedFromTenure)

/-- Stand on the last of the kept blocks, if anything is discarded at all. -/
def giveBack (kept discarded : List ExecutedHeader) : ChainRetraction × ChainState State :=
  let resumeFrom := kept.getLast?.map (·.blockId)
  match discarded with
  | [] => (⟨resumeFrom, []⟩, state)
  | first :: _ =>
    (⟨resumeFrom, discarded.map (·.blockId)⟩,
      (⟨state.vm, { state.ledger with executed := kept }⟩ : ChainState State).standOn resumeFrom
        first.tenureHeight)

end ChainState

/-- A retraction asked of a chain: of what a reorganization invalidated, or back to a block. -/
inductive Retraction
  | reorg (invalidated : SortitionReorg)
  | to (blockId : StacksBlockId)

/-- How many of the executed blocks a retraction keeps. -/
def Retraction.keeps (executed : List ExecutedHeader) : Retraction → Nat
  | .reorg invalidated =>
    executed.findIdx fun block => block.consensusHash ∈ invalidated.retracted.map (·.consensusHash)
  | .to blockId =>
    match executed.findIdx? (·.blockId = blockId) with
    | some position => position + 1
    | none => executed.length

namespace ChainState

variable {State : Type} (state : ChainState State)

/-- Give back what a retraction does not keep. -/
def giveUp (retraction : Retraction) : ChainRetraction × ChainState State :=
  let keeps := retraction.keeps state.ledger.executed
  state.giveBack (state.ledger.executed.take keeps) (state.ledger.executed.drop keeps)

def retract (reorg : SortitionReorg) : ChainRetraction × ChainState State :=
  state.giveUp (.reorg reorg)

def retractTo (blockId : StacksBlockId) : ChainRetraction × ChainState State :=
  state.giveUp (.to blockId)

end ChainState

/-! ## Chains and what they have stood on -/

/-- What a retraction has to restore. -/
structure Standing where
  ledger : ChainLedger
  tenureStarts : OrdMap Nat Nat

def ChainState.standing {State : Type} (state : ChainState State) : Standing :=
  ⟨state.ledger, state.vm.tenureStarts⟩

/-- A chain nothing was executed on. -/
structure ChainState.Unused {State : Type} (state : ChainState State) : Prop where
  ledger : state.ledger = .fresh state.ledger.accounting
  rows : state.vm.rows = []
  tenureStarts : state.vm.tenureStarts = .empty

/-- What a retraction needs of the state it meets. The block it lands on has its row, if it gives up
any block at all. If it gives up every block, then no block has been dropped off the list and no
tenure out of the earnings, and the accounting the chain began with knows of no tenure from the first
executed one on. A list or a map at its bound is taken to have dropped something, since the state
does not tell. -/
structure Recoverable {State : Type} (origin state : ChainState State) (retraction : Retraction) :
    Prop where
  stored : retraction.keeps state.ledger.executed < state.ledger.executed.length →
    ∀ block ∈ (state.ledger.executed.take (retraction.keeps state.ledger.executed)).getLast?,
      state.vm.hasRecordedLedger block.blockId = true
  whole : retraction.keeps state.ledger.executed = 0 → ∀ first ∈ state.ledger.executed.head?,
    state.ledger.executed.length < reorgReach ∧
      state.ledger.accounting.earnings.entries.length < earningsKept ∧
      origin.ledger.accounting.EndsBefore first.tenureHeight

variable {C : Crypto} {E : Clarity}

/-- The states a chain gets to, with every block that became its tip and what it stood on then. -/
inductive Reached (C : Crypto) (origin : ChainState E.State) :
    ChainState E.State → List (StacksBlockId × Standing) → Prop
  | unused : Reached C origin origin []
  | adopted {source : StacksBlockId} {root : Bytes 32} {boundary : CheckpointBoundaryProof}
      {history : List CheckpointHistoryBlock} {state : ChainState E.State}
      (h : origin.authenticateCheckpointHistory C source root boundary history = .ok state) :
      Reached C origin state [(source, state.standing)]
  | committed {state state' : ChainState E.State} {log : List (StacksBlockId × Standing)}
      {authenticated : AuthenticatedBlock} {registry : Option String} {built : Built E}
      (reached : Reached C origin state log)
      (h : state.commitAuthenticated C authenticated registry = (.ok built, state')) :
      Reached C origin state' (log ++ [(authenticated.block.blockId C, state'.standing)])
  | retracted {state : ChainState E.State} {log : List (StacksBlockId × Standing)}
      (retraction : Retraction) (reached : Reached C origin state log)
      (recoverable : Recoverable origin state retraction) :
      Reached C origin (state.giveUp retraction).2 log

/-! ## What a retraction does -/

namespace ChainState

variable {State : Type} {state : ChainState State} {retraction : Retraction}

theorem giveUp_of_length_le
    (h : state.ledger.executed.length ≤ retraction.keeps state.ledger.executed) :
    state.giveUp retraction = (⟨state.ledger.executed.getLast?.map (·.blockId), []⟩, state) := by
  rw [giveUp, take_of_length_le h, drop_of_length_le h]
  rfl

theorem giveUp_of_row {block : ExecutedHeader} {ledger : ChainLedger}
    (h : retraction.keeps state.ledger.executed < state.ledger.executed.length)
    (hlast : (state.ledger.executed.take (retraction.keeps state.ledger.executed)).getLast?
      = some block) (hrow : ledgerAt state.vm.rows block.blockId = some ledger) :
    ∃ discarded, state.giveUp retraction
      = (⟨some block.blockId, discarded⟩, state.standingOn ledger) := by
  obtain ⟨first, rest, hdrop⟩ : ∃ first rest,
      state.ledger.executed.drop (retraction.keeps state.ledger.executed) = first :: rest :=
    exists_cons_of_ne_nil (by simpa using h)
  refine ⟨(first :: rest).map (·.blockId), ?_⟩
  rw [giveUp, hdrop, giveBack, hlast]
  simp [standOn, recoverLedgerAt, hrow, standingOn]

theorem giveUp_whole {first : ExecutedHeader} (hzero : retraction.keeps state.ledger.executed = 0)
    (hfirst : state.ledger.executed.head? = some first) :
    state.giveUp retraction = (⟨none, state.ledger.executed.map (·.blockId)⟩,
      state.standingOn ((⟨state.ledger.accounting, state.ledger.tenureStartHeights,
        state.ledger.tenureStartBlocks, [], state.ledger.parentTenureProof⟩ : ChainLedger).rewind
          first.tenureHeight)) := by
  obtain ⟨rest, hexecuted⟩ := head?_eq_some_iff.1 hfirst
  have hgive : state.giveUp retraction = state.giveBack [] (first :: rest) := by
    rw [giveUp, hzero, take_zero, drop_zero, hexecuted]
  rw [hgive, hexecuted]
  rfl

/-- A retraction that lands on a block changes nothing, or stands on the block's row if there is
one. -/
theorem giveUp_of_resume {target : StacksBlockId} {ledger : ChainLedger}
    (hresume : (state.giveUp retraction).1.resumeFrom = some target)
    (hrow : ledgerAt state.vm.rows target = some ledger) :
    (state.giveUp retraction).2 = state ∧
        state.ledger.executed.getLast?.map (·.blockId) = some target ∨
      (state.giveUp retraction).2 = state.standingOn ledger := by
  rcases Nat.lt_or_ge (retraction.keeps state.ledger.executed) state.ledger.executed.length
    with hlt | hle
  · have hkept : (state.giveUp retraction).1.resumeFrom = (state.ledger.executed.take
        (retraction.keeps state.ledger.executed)).getLast?.map (·.blockId) := by
      unfold giveUp giveBack
      dsimp only
      split <;> rfl
    rw [hkept, map_eq_some_iff] at hresume
    obtain ⟨block, hlast, rfl⟩ := hresume
    obtain ⟨discarded, hgive⟩ := giveUp_of_row hlt hlast hrow
    exact .inr (by rw [hgive])
  · rw [giveUp_of_length_le hle] at hresume ⊢
    exact .inl ⟨rfl, hresume⟩

theorem giveUp_of_discarded_nil (h : (state.giveUp retraction).1.discarded = []) :
    (state.giveUp retraction).2 = state := by
  cases hdrop : state.ledger.executed.drop (retraction.keeps state.ledger.executed) with
  | nil =>
    rw [giveUp, hdrop]
    rfl
  | cons first rest =>
    rw [giveUp, hdrop] at h
    simp [giveBack] at h

theorem giveUp_rows (state : ChainState State) (retraction : Retraction) :
    (state.giveUp retraction).2.vm.rows = state.vm.rows ∧
    (state.giveUp retraction).2.vm.states = state.vm.states := by
  unfold giveUp giveBack
  dsimp only
  split
  · exact ⟨rfl, rfl⟩
  · unfold standOn
    split
    · rename_i h
      simp only [recoverLedgerAt, bind_eq_some_iff, map_eq_some_iff] at h
      obtain ⟨_, -, _, -, rfl⟩ := h
      exact ⟨rfl, rfl⟩
    · exact ⟨rfl, rfl⟩

end ChainState

/-! ## How a ledger grows -/

/-- What a ledger has become since a first block in tenure `height`. -/
structure ChainLedger.GrownFrom (origin : TenureAccounting) (ledger : ChainLedger) (height : Nat) :
    Prop where
  first : ledger.executed.length < reorgReach →
    ∀ first ∈ ledger.executed.head?, first.tenureHeight = height
  accounting : origin.EndsBefore height → ledger.accounting.earnings.entries.length < earningsKept →
    TenureAccounting.Extends origin ledger.accounting height
  heights : ∀ e ∈ ledger.tenureStartHeights.entries, height ≤ e.1
  blocks : ∀ e ∈ ledger.tenureStartBlocks.entries, height ≤ e.1

theorem Accrues.length_lt {accounting accounting' : TenureAccounting} {tenure : Nat}
    (h : Accrues accounting tenure accounting')
    (hroom : accounting'.earnings.entries.length < earningsKept) :
    accounting.earnings.entries.length < earningsKept := by
  cases h with
  | fees fees => exact lt_of_le_of_lt (TenureAccounting.length_le_addFees tenure fees) hroom
  | start earnings fees =>
    have hbefore : (accounting.recordEarnings tenure earnings).earnings.entries.length
        < earningsKept := lt_of_le_of_lt (TenureAccounting.length_le_addFees tenure fees) hroom
    exact TenureAccounting.length_lt_of_recordEarnings hbefore

theorem Accrues.extends {origin accounting accounting' : TenureAccounting} {tenure height : Nat}
    (h : Accrues accounting tenure accounting') (htenure : height ≤ tenure)
    (hroom : accounting'.earnings.entries.length < earningsKept)
    (hextends : TenureAccounting.Extends origin accounting height) :
    TenureAccounting.Extends origin accounting' height := by
  cases h with
  | fees fees => exact hextends.addFees htenure fees
  | start earnings fees =>
    refine (hextends.recordEarnings htenure earnings ?_).addFees htenure fees
    exact lt_of_le_of_lt (TenureAccounting.length_le_addFees tenure fees) hroom

namespace ChainLedger

variable {origin accounting : TenureAccounting} {ledger : ChainLedger} {height tenure : Nat}

theorem GrownFrom.fresh (origin : TenureAccounting) (height : Nat) :
    GrownFrom origin (.fresh origin) height where
  first _ := by simp [ChainLedger.fresh]
  accounting h _ := h.extends
  heights := by simp [ChainLedger.fresh, empty]
  blocks := by simp [ChainLedger.fresh, empty]

theorem mem_noteTenureStart {H : Hashes} {block : NakamotoBlock} {e : Nat × StacksBlockId}
    (h : e ∈ (ledger.noteTenureStart H block tenure).entries) :
    e = (tenure, block.blockId H) ∨ e ∈ ledger.tenureStartBlocks.entries := by
  unfold noteTenureStart at h
  split_ifs at h
  · exact mem_insertNew_entries _ h
  · exact .inr h
  · exact .inr (mem_retain_entries _ |>.1 h).1

theorem rtake_concat_of_lt {executed : List ExecutedHeader} {header : ExecutedHeader}
    (h : ((executed ++ [header]).rtake reorgReach).length < reorgReach) :
    (executed ++ [header]).rtake reorgReach = executed ++ [header] ∧
      executed.length < reorgReach := by
  rw [Suffix.length_rtake, length_append, length_singleton] at h
  have hshort : (executed ++ [header]).length ≤ reorgReach := by
    rw [length_append, length_singleton]
    omega
  rw [rtake, Nat.sub_eq_zero_of_le hshort, drop_zero]
  exact ⟨rfl, by omega⟩

theorem GrownFrom.noted (h : GrownFrom origin ledger height) (htenure : height ≤ tenure)
    (hfirst : ledger.executed = [] → tenure = height)
    (haccrues : Accrues ledger.accounting tenure accounting) (H : Hashes) (block : NakamotoBlock) :
    GrownFrom origin
      (((⟨accounting, ledger.tenureStartHeights, ledger.tenureStartBlocks, ledger.executed,
        ledger.parentTenureProof⟩ : ChainLedger).noted H block tenure).rememberProof block) height where
  first hlength first hmem := by
    simp only [rememberProof, ChainLedger.noted, pushExecuted] at hlength hmem
    obtain ⟨hpush, hshort⟩ := rtake_concat_of_lt hlength
    rw [hpush, mem_def] at hmem
    cases hexecuted : ledger.executed with
    | nil =>
      rw [hexecuted, nil_append, head?_cons, some.injEq] at hmem
      rw [← hmem]
      exact hfirst hexecuted
    | cons oldest rest => exact h.first hshort first (by rwa [hexecuted] at hmem ⊢)
  accounting hends hroom := by
    rw [rememberProof, ChainLedger.noted] at hroom ⊢
    exact haccrues.extends htenure hroom (h.accounting hends (haccrues.length_lt hroom))
  heights e he := by
    rcases mem_insertNew_entries _ he with rfl | he
    · exact htenure
    · exact h.heights e he
  blocks e he := by
    rcases mem_noteTenureStart he with rfl | he
    · exact htenure
    · exact h.blocks e he

theorem GrownFrom.rewind (h : GrownFrom origin ledger height) (hends : origin.EndsBefore height)
    (hroom : ledger.accounting.earnings.entries.length < earningsKept) :
    (⟨ledger.accounting, ledger.tenureStartHeights, ledger.tenureStartBlocks, [],
      ledger.parentTenureProof⟩ : ChainLedger).rewind height = .fresh origin := by
  have hheights : ledger.tenureStartHeights.retain (· < height) = .empty :=
    retain_eq_empty _ fun e he => by simpa using h.heights e he
  have hblocks : ledger.tenureStartBlocks.retain (· < height) = .empty :=
    retain_eq_empty _ fun e he => by simpa using h.blocks e he
  rw [ChainLedger.rewind, hheights, hblocks, (h.accounting hends hroom).retractFrom hends]
  rfl

end ChainLedger

/-! ## What every chain keeps true -/

/-- What is known of a block that became the tip, and of what the chain stood on then. -/
structure Standing.Left {State : Type} (origin : TenureAccounting) (vm : Vm State)
    (block : StacksBlockId) (standing : Standing) : Prop where
  sealed : ∃ sealed, vm.stateAt block = some sealed ∧
    ∃ height ≤ sealed.world.tenureHeight, standing.ledger.GrownFrom origin height
  last : standing.ledger.executed.getLast?.map (·.blockId) = some block
  starts : standing.tenureStarts = standing.ledger.tenureStartHeights

structure Sound {State : Type} (origin state : ChainState State)
    (log : List (StacksBlockId × Standing)) : Prop where
  rows_nodup : (state.vm.rows.map (·.blockId)).Nodup
  rows : ∀ block ledger, ledgerAt state.vm.rows block = some ledger →
    (block, ⟨ledger, ledger.tenureStartHeights⟩) ∈ log
  log_nodup : (log.map (·.1)).Nodup
  left : ∀ entry ∈ log, entry.2.Left origin.ledger.accounting state.vm entry.1
  current : state.standing = origin.standing ∨ ∃ block, (block, state.standing) ∈ log

section

variable {State : Type} {origin state : ChainState State} {log : List (StacksBlockId × Standing)}
  {retraction : Retraction}

theorem Standing.Left.of_states {accounting : TenureAccounting} {vm vm' : Vm State}
    {block : StacksBlockId} {standing : Standing} (h : standing.Left accounting vm block)
    (hstates : ∀ sealed, vm.stateAt block = some sealed → vm'.stateAt block = some sealed) :
    standing.Left accounting vm' block := by
  obtain ⟨sealed, hsealed, hgrown⟩ := h.sealed
  exact ⟨⟨sealed, hstates sealed hsealed, hgrown⟩, h.last, h.starts⟩

theorem Sound.unused (unused : origin.Unused) : Sound origin origin [] where
  rows_nodup := by simp [unused.rows]
  rows block ledger h := by simp [unused.rows, ledgerAt] at h
  log_nodup := nodup_nil
  left := by simp
  current := .inl rfl

/-- How a retraction comes out: it changes nothing, it finds a row, or it takes everything. -/
inductive ChainState.GaveUp (origin state : ChainState State) :
    ChainRetraction × ChainState State → Prop
  | nothing : GaveUp origin state (⟨state.ledger.executed.getLast?.map (·.blockId), []⟩, state)
  | onto {block : StacksBlockId} {ledger : ChainLedger} (discarded : List StacksBlockId)
      (row : ledgerAt state.vm.rows block = some ledger) :
      GaveUp origin state (⟨some block, discarded⟩, state.standingOn ledger)
  | whole {first : ExecutedHeader} (discarded : List StacksBlockId)
      (head : state.ledger.executed.head? = some first)
      (short : state.ledger.executed.length < reorgReach)
      (room : state.ledger.accounting.earnings.entries.length < earningsKept)
      (ends : origin.ledger.accounting.EndsBefore first.tenureHeight) :
      GaveUp origin state (⟨none, discarded⟩, state.standingOn ((⟨state.ledger.accounting,
        state.ledger.tenureStartHeights, state.ledger.tenureStartBlocks, [],
        state.ledger.parentTenureProof⟩ : ChainLedger).rewind first.tenureHeight))

theorem Recoverable.gaveUp (h : Recoverable origin state retraction) :
    ChainState.GaveUp origin state (state.giveUp retraction) := by
  rcases Nat.lt_or_ge (retraction.keeps state.ledger.executed) state.ledger.executed.length
    with hlt | hle
  · cases hlast : (state.ledger.executed.take (retraction.keeps state.ledger.executed)).getLast? with
    | some block =>
      obtain ⟨ledger, hrow⟩ := isSome_iff_exists.1 (h.stored hlt block hlast)
      obtain ⟨discarded, hgive⟩ := giveUp_of_row hlt hlast hrow
      rw [hgive]
      exact .onto discarded hrow
    | none =>
      have hne : state.ledger.executed ≠ [] := ne_nil_of_length_pos (by omega)
      rw [getLast?_eq_none_iff, take_eq_nil_iff, or_iff_left hne] at hlast
      have hhead := head?_eq_some_head hne
      obtain ⟨hshort, hroom, hends⟩ := h.whole hlast _ hhead
      rw [giveUp_whole hlast hhead]
      exact .whole _ hhead hshort hroom hends
  · rw [giveUp_of_length_le hle]
    exact .nothing

theorem ChainState.Unused.standing_eq (unused : origin.Unused) :
    origin.standing = ⟨.fresh origin.ledger.accounting, .empty⟩ := by
  rw [standing, unused.tenureStarts]
  exact congrArg (Standing.mk · _) unused.ledger

theorem ChainState.Unused.executed_of_standing (unused : origin.Unused)
    (h : state.standing = origin.standing) : state.ledger.executed = [] := by
  rw [unused.standing_eq] at h
  rw [show state.ledger = _ from congrArg Standing.ledger h]
  rfl

/-- A row a retraction found is the log's, and one that takes everything ends where the chain
began. -/
theorem Sound.restores (h : Sound origin state log) (unused : origin.Unused)
    {result : ChainRetraction × ChainState State}
    (hresult : ChainState.GaveUp origin state result) :
    (∀ block, result.1.resumeFrom = some block → (block, result.2.standing) ∈ log) ∧
      (result.1.resumeFrom = none → result.2.standing = origin.standing) := by
  cases hresult with
  | nothing =>
    rcases h.current with horigin | ⟨block, hblock⟩
    · have hnil := unused.executed_of_standing horigin
      refine ⟨fun block hresume => ?_, fun _ => horigin⟩
      simp [hnil] at hresume
    · have hlast : state.ledger.executed.getLast?.map (·.blockId) = some block :=
        (h.left _ hblock).last
      refine ⟨fun other hresume => ?_, fun hresume => ?_⟩
      · obtain rfl : block = other := some.inj (hlast.symm.trans hresume)
        exact hblock
      · exact absurd (hlast.symm.trans hresume) (some_ne_none block)
  | @onto block ledger discarded row =>
    refine ⟨fun other hresume => ?_, fun hresume => absurd hresume (some_ne_none block)⟩
    obtain rfl : block = other := some.inj hresume
    exact h.rows block ledger row
  | @whole first discarded head short room ends =>
    refine ⟨fun other hresume => absurd hresume.symm (some_ne_none other), fun _ => ?_⟩
    rcases h.current with horigin | ⟨block, hblock⟩
    · simp [unused.executed_of_standing horigin] at head
    · obtain ⟨sealed, -, height, -, hgrown⟩ := (h.left _ hblock).sealed
      have hgrown : state.ledger.GrownFrom origin.ledger.accounting height := hgrown
      obtain rfl : first.tenureHeight = height := hgrown.first short first head
      rw [hgrown.rewind ends room, unused.standing_eq]
      rfl

theorem Sound.giveUp (h : Sound origin state log) (unused : origin.Unused)
    (recoverable : Recoverable origin state retraction) :
    Sound origin (state.giveUp retraction).2 log := by
  obtain ⟨hrows, hstates⟩ := state.giveUp_rows retraction
  obtain ⟨hsome, hnone⟩ := h.restores unused recoverable.gaveUp
  refine ⟨hrows ▸ h.rows_nodup, hrows ▸ h.rows, h.log_nodup, fun entry hentry => ?_, ?_⟩
  · refine (h.left entry hentry).of_states fun sealed hsealed => ?_
    rw [Vm.stateAt, hstates]
    exact hsealed
  · cases hresume : (state.giveUp retraction).1.resumeFrom with
    | none => exact .inl (hnone hresume)
    | some block => exact .inr ⟨block, hsome block hresume⟩

end

/-! ## Blocks and histories -/

section

variable {origin state state' : ChainState E.State} {log : List (StacksBlockId × Standing)}

theorem insertNew_getD (starts : OrdMap Nat Nat) (tenure chainLength : Nat) :
    starts.insertNew tenure ((starts.get tenure).getD chainLength)
      = starts.insertNew tenure chainLength := by
  unfold insertNew
  cases hget : starts.get tenure with
  | none => rfl
  | some start => rfl

/-- What the chain stands on has grown, up to the tenure of the state the next block opens. -/
theorem Sound.grown (h : Sound origin state log) (unused : origin.Unused) {genesis : E.State}
    {world : World E.State} {height : Nat} (block : NakamotoBlock)
    (hopen : state.vm.openBlock genesis state.executionTip = .ok (world, height)) :
    ∃ since ≤ tenureAfter world.tenureHeight block,
      state.ledger.GrownFrom origin.ledger.accounting since ∧
      (state.ledger.executed = [] → tenureAfter world.tenureHeight block = since) ∧
      state.vm.tenureStarts = state.ledger.tenureStartHeights := by
  rcases h.current with horigin | ⟨tip, htip⟩
  · rw [unused.standing_eq] at horigin
    have hledger : state.ledger = .fresh origin.ledger.accounting :=
      congrArg Standing.ledger horigin
    have hstarts : state.vm.tenureStarts = .empty := congrArg Standing.tenureStarts horigin
    refine ⟨_, le_rfl, ?_, fun _ => rfl, ?_⟩
    · rw [hledger]
      exact .fresh _ _
    · rw [hstarts, hledger]
      rfl
  · have hleft := h.left _ htip
    obtain ⟨sealed, hsealed, since, hsince, hgrown⟩ := hleft.sealed
    have hlast : state.ledger.executed.getLast?.map (·.blockId) = some tip := hleft.last
    obtain ⟨last, hget, hid⟩ := map_eq_some_iff.1 hlast
    have htip' : state.executionTip = some tip := by
      rw [executionTip, hget, ← hid]
    have hworld : world = sealed.world := Vm.world_of_openBlock hsealed (htip' ▸ hopen)
    refine ⟨since, ?_, hgrown, fun hnil => ?_, hleft.starts⟩
    · rw [hworld, tenureAfter]
      split_ifs <;> omega
    · simp [hnil] at hget

theorem Sound.commit (h : Sound origin state log) (unused : origin.Unused)
    {authenticated : AuthenticatedBlock}
    (hcommit : ChainState.Committed C state authenticated state') :
    Sound origin state' (log ++ [(authenticated.block.blockId C, state'.standing)]) := by
  obtain ⟨hparent, hfresh, -, world, height, built, hopen, hfollowed, hledger, hvm⟩ := hcommit
  obtain ⟨accounting, hbuilt, haccrues⟩ := hfollowed.ledger_eq
  rw [hparent] at hopen
  obtain ⟨since, hsince, hgrown, hfirst, hstarts⟩ :=
    h.grown unused authenticated.block hopen
  rw [← hfollowed.tenureHeight] at hsince hfirst
  have hgrown' : state'.ledger.GrownFrom origin.ledger.accounting since := by
    rw [hledger, hbuilt]
    exact hgrown.noted hsince hfirst haccrues C authenticated.block
  have hstarts' : state'.vm.tenureStarts = state'.ledger.tenureStartHeights := by
    rw [hvm, hledger, hbuilt, hstarts]
    exact insertNew_getD _ _ _
  have hstates : state'.vm.states = state.vm.states ++
      [⟨authenticated.block.blockId C, authenticated.parent, height, built.world⟩] := by
    rw [hvm]
  have hlast : state'.ledger.executed.getLast?.map (·.blockId)
      = some (authenticated.block.blockId C) := by
    rw [hledger]
    simp only [ChainLedger.rememberProof, ChainLedger.noted, ChainLedger.getLast?_pushExecuted,
      map_some]
  refine ⟨?_, ?_, ?_, ?_, .inr ⟨_, mem_append_right _ (mem_singleton_self _)⟩⟩
  · rw [hvm]
    exact nodup_writeLedger h.rows_nodup _ _
  · intro block ledger hrow
    rw [hvm] at hrow
    rcases ledgerAt_writeLedger h.rows_nodup hrow with ⟨rfl, rfl⟩ | ⟨-, hrow⟩
    · refine mem_append_right _ ?_
      rw [← hstarts', mem_singleton]
      rfl
    · exact mem_append_left _ (h.rows block ledger hrow)
  · rw [map_append, nodup_append]
    refine ⟨h.log_nodup, by simp, ?_⟩
    rintro block hblock _ hnew rfl
    rw [map_singleton, mem_singleton] at hnew
    obtain ⟨entry, hentry, rfl⟩ := mem_map.1 hblock
    obtain ⟨sealed, hsealed, -⟩ := (h.left entry hentry).sealed
    rw [hnew, hfresh] at hsealed
    exact absurd hsealed.symm (some_ne_none sealed)
  · intro entry hentry
    rcases mem_append.1 hentry with hentry | hentry
    · exact (h.left entry hentry).of_states fun sealed hsealed =>
        Vm.stateAt_concat hsealed _ hstates
    · rw [mem_singleton.1 hentry]
      exact ⟨⟨_, Vm.stateAt_concat_self hfresh _ hstates, since, hsince, hgrown'⟩, hlast, hstarts'⟩

/-- What a history has made of a fresh ledger since its first block in tenure `height`. -/
structure HistoryCursor.Since (accounting : TenureAccounting) (height : Nat)
    (cursor : HistoryCursor) : Prop where
  accounting : cursor.ledger.accounting = accounting
  tenure : height ≤ cursor.tenureHeight
  first : ∃ first, cursor.ledger.executed.head? = some first ∧ first.tenureHeight = height
  heights : ∀ e ∈ cursor.ledger.tenureStartHeights.entries, height ≤ e.1
  blocks : ∀ e ∈ cursor.ledger.tenureStartBlocks.entries, height ≤ e.1

theorem HistoryCursor.Accepted.mem_starts {cursor cursor' : HistoryCursor} {first : Bool}
    {entry : CheckpointHistoryBlock} (h : cursor.Accepted C first entry cursor') :
    (∀ e ∈ cursor'.ledger.tenureStartHeights.entries,
      e.1 = cursor.tenureHeight ∨ e ∈ cursor.ledger.tenureStartHeights.entries) ∧
    (∀ e ∈ cursor'.ledger.tenureStartBlocks.entries,
      e.1 = cursor.tenureHeight ∨ e ∈ cursor.ledger.tenureStartBlocks.entries) := by
  rw [h.heights, h.blocks]
  split_ifs
  · refine ⟨fun e he => ?_, fun e he => ?_⟩
    · exact (mem_insert_entries _ he).imp_left fun heq => by rw [heq]
    · exact (mem_insert_entries _ he).imp_left fun heq => by rw [heq]
  · exact ⟨fun e he => .inr he, fun e he => .inr he⟩

namespace HistoryCursor.Since

variable {accounting : TenureAccounting} {height : Nat} {cursor cursor' : HistoryCursor}
  {entry : CheckpointHistoryBlock}

theorem first_block {parentProof : Bytes 80}
    (h : Accepted C ⟨height, .fresh accounting, parentProof⟩ true entry cursor) :
    Since accounting height cursor where
  accounting := h.accounting
  tenure := h.tenureHeight.ge
  first := by
    rw [h.executed]
    exact ⟨_, rfl, rfl⟩
  heights e he := by
    rcases h.mem_starts.1 e he with heq | hnone
    · exact heq.ge
    · exact absurd hnone not_mem_nil
  blocks e he := by
    rcases h.mem_starts.2 e he with heq | hnone
    · exact heq.ge
    · exact absurd hnone not_mem_nil

theorem next (h : Since accounting height cursor)
    (haccepted : Accepted C ⟨tenureAfter cursor.tenureHeight entry.block, cursor.ledger,
      cursor.parentProof⟩ false entry cursor') : Since accounting height cursor' := by
  have htenure : height ≤ tenureAfter cursor.tenureHeight entry.block := by
    have := h.tenure
    rw [tenureAfter]
    split_ifs <;> omega
  obtain ⟨first, hfirst, hheight⟩ := h.first
  refine ⟨haccepted.accounting.trans h.accounting, haccepted.tenureHeight ▸ htenure,
    ⟨first, ?_, hheight⟩, fun e he => ?_, fun e he => ?_⟩
  · rw [haccepted.executed, head?_append, hfirst]
    rfl
  · rcases haccepted.mem_starts.1 e he with heq | he
    · exact heq ▸ htenure
    · exact h.heights e he
  · rcases haccepted.mem_starts.2 e he with heq | he
    · exact heq ▸ htenure
    · exact h.blocks e he

end HistoryCursor.Since

theorem Sound.adopted (unused : origin.Unused) {source : StacksBlockId}
    {history : List CheckpointHistoryBlock} (h : ChainState.Adopted C origin source history state) :
    Sound origin state [(source, state.standing)] := by
  obtain ⟨hsource, -, -, first, rest, imported, height, parentProof, entered, cursor, rfl, himported,
    -, hentered, hrest, htenure, rfl⟩ := h
  have hsince : HistoryCursor.Since origin.ledger.accounting height cursor :=
    HistoryCursor.authenticateRest_invariant (fun _ _ _ _ hinv hnext => hinv.next hnext)
      (.first_block hentered) hrest
  have hids := HistoryCursor.executed_history hentered hrest
  have hlast : (cursor.ledger.executed.rtake reorgReach).getLast?.map (·.blockId) = some source := by
    rw [Suffix.getLast?_rtake _ (by decide), ← getLast?_map, hids, getLast?_map]
    exact hsource
  have hgrown : (origin.adoptHistory cursor).ledger.GrownFrom origin.ledger.accounting height := by
    refine ⟨fun hlength oldest hmem => ?_, fun hends _ => ?_, hsince.heights, hsince.blocks⟩
    · simp only [adoptHistory] at hlength hmem
      have hall : cursor.ledger.executed.rtake reorgReach = cursor.ledger.executed := by
        rw [Suffix.length_rtake] at hlength
        rw [rtake, Nat.sub_eq_zero_of_le (by omega), drop_zero]
      obtain ⟨first, hfirst, hheight⟩ := hsince.first
      rw [hall, hfirst, mem_def, some.injEq] at hmem
      rw [← hmem, hheight]
    · simp only [adoptHistory]
      rw [hsince.accounting]
      exact hends.extends
  refine ⟨by simp [adoptHistory, Vm.standOnTenureStarts, unused.rows], ?_, by simp, ?_,
    .inr ⟨source, mem_singleton_self _⟩⟩
  · intro block ledger hrow
    simp [adoptHistory, Vm.standOnTenureStarts, unused.rows, ledgerAt] at hrow
  · intro entry hentry
    rw [mem_singleton.1 hentry]
    refine ⟨⟨imported, himported, height, htenure ▸ hsince.tenure, hgrown⟩, ?_, rfl⟩
    simp only [standing, adoptHistory]
    exact hlast

theorem Reached.sound (unused : origin.Unused) (reached : Reached C origin state log) :
    Sound origin state log := by
  induction reached with
  | unused => exact .unused unused
  | adopted h => exact .adopted unused (authenticateCheckpointHistory_eq_ok h)
  | committed _ h ih => exact ih.commit unused (commitAuthenticated_eq_ok h)
  | retracted retraction _ recoverable ih => exact ih.giveUp unused recoverable

/-- A retraction that finds what it needs leaves the chain standing on what it stood on when the
block it goes back to became its tip; taking everything, it leaves what was there at the
beginning. -/
theorem retraction_restores (unused : origin.Unused) (reached : Reached C origin state log)
    (retraction : Retraction) (recoverable : Recoverable origin state retraction) :
    (∀ block, (state.giveUp retraction).1.resumeFrom = some block →
      ∀ standing, (block, standing) ∈ log ↔ standing = (state.giveUp retraction).2.standing) ∧
    ((state.giveUp retraction).1.resumeFrom = none →
      (state.giveUp retraction).2.standing = origin.standing) := by
  have hsound := reached.sound unused
  obtain ⟨hsome, hnone⟩ := hsound.restores unused recoverable.gaveUp
  refine ⟨fun block hresume standing => ⟨fun hmem => ?_, fun heq => heq ▸ hsome block hresume⟩,
    hnone⟩
  have hsame := inj_on_of_nodup_map hsound.log_nodup hmem (hsome block hresume) rfl
  exact congrArg Prod.snd hsame

end

theorem plainAdopt_reached {origin : PlainChain} {source : StacksBlockId}
    {blocks : List NakamotoBlock} (h : (plainHistory origin source blocks).toOption.isSome = true) :
    Reached (E := plainClarity) plainCrypto origin (plainAdopt origin source blocks)
      [(source, (plainAdopt origin source blocks).standing)] :=
  .adopted (plainAdopt_eq h)

theorem plainCommit_reached {origin state : PlainChain} {log : List (StacksBlockId × Standing)}
    {block : NakamotoBlock} (reached : Reached (E := plainClarity) plainCrypto origin state log)
    (h : (ChainState.commitAuthenticated plainCrypto (E := plainClarity) state
      (plainAuthenticated block) none).1.toOption.isSome = true) :
    Reached (E := plainClarity) plainCrypto origin (plainCommit state block)
      (log ++ [(block.blockId plainCrypto, (plainCommit state block).standing)]) := by
  obtain ⟨built, hbuilt⟩ := plainCommit_eq h
  have hcommitted := Reached.committed reached hbuilt
  exact hcommitted

/-! A chain that adopted the first block of a tenure and went on with two more of it, or with the
start of the next. -/

def tenureFirst : NakamotoBlock :=
  plainBlock (Bytes.zero 32) 10 1 0 (plainStart (Bytes.zero 32) 0 1 3 0)

def firstId : StacksBlockId := tenureFirst.blockId plainCrypto

def tenureSecond : NakamotoBlock := plainBlock firstId 11 1 1 [plainTransfer 7 2]

def secondId : StacksBlockId := tenureSecond.blockId plainCrypto

def tenureThird : NakamotoBlock := plainBlock secondId 12 1 2 [plainTransfer 7 3]

def thirdId : StacksBlockId := tenureThird.blockId plainCrypto

def nextTenure : NakamotoBlock := plainBlock firstId 11 2 0 (plainStart firstId 1 2 1 2)

def importedFirst : PlainChain := plainImported firstId 10 2

def adoptedFirst : PlainChain := plainAdopt importedFirst firstId [tenureFirst]

def committedSecond : PlainChain := plainCommit adoptedFirst tenureSecond

def committedThird : PlainChain := plainCommit committedSecond tenureThird

def committedNext : PlainChain := plainCommit adoptedFirst nextTenure

theorem importedFirst_unused : importedFirst.Unused := ⟨rfl, rfl, rfl⟩

theorem adoptedFirst_reached :
    Reached (E := plainClarity) plainCrypto importedFirst adoptedFirst
      [(firstId, adoptedFirst.standing)] :=
  plainAdopt_reached (by decide +kernel)

theorem committedSecond_reached :
    Reached (E := plainClarity) plainCrypto importedFirst committedSecond
      ([(firstId, adoptedFirst.standing)] ++ [(secondId, committedSecond.standing)]) :=
  plainCommit_reached adoptedFirst_reached (by decide +kernel)

theorem committedThird_reached :
    Reached (E := plainClarity) plainCrypto importedFirst committedThird
      ([(firstId, adoptedFirst.standing)] ++ [(secondId, committedSecond.standing)] ++
        [(thirdId, committedThird.standing)]) :=
  plainCommit_reached committedSecond_reached (by decide +kernel)

/-- Going back one block: the second block has its row. -/
theorem retraction_restores_second :
    (committedThird.giveUp (.to secondId)).1 = ⟨some secondId, [thirdId]⟩ ∧
      committedSecond.standing = (committedThird.giveUp (.to secondId)).2.standing := by
  have hresult : (committedThird.giveUp (.to secondId)).1 = ⟨some secondId, [thirdId]⟩ := by
    decide +kernel
  have hresume : (committedThird.giveUp (.to secondId)).1.resumeFrom = some secondId := by
    rw [hresult]
  refine ⟨hresult, ?_⟩
  have hback := (retraction_restores importedFirst_unused committedThird_reached (.to secondId)
    ⟨fun _ => by decide +kernel, fun hzero => absurd hzero (by decide +kernel)⟩).1 secondId hresume
    committedSecond.standing
  exact hback.1 (by simp)

/-- Going back to the block whose history was adopted: it has no row, and the start of its tenure and
its proof are cut away with the block after it. -/
theorem checkpoint_tenure_start_lost :
    importedFirst.Unused ∧
    Reached (E := plainClarity) plainCrypto importedFirst committedSecond
      ([(firstId, adoptedFirst.standing)] ++ [(secondId, committedSecond.standing)]) ∧
    (committedSecond.giveUp (.to firstId)).1 = ⟨some firstId, [secondId]⟩ ∧
    adoptedFirst.ledger.tenureStartHeights.get 1 = some 10 ∧
    (committedSecond.giveUp (.to firstId)).2.ledger.tenureStartHeights = .empty ∧
    adoptedFirst.ledger.parentTenureProof = some (Bytes.zero 80) ∧
    (committedSecond.giveUp (.to firstId)).2.ledger.parentTenureProof = none := by
  refine ⟨importedFirst_unused, committedSecond_reached, ?_⟩
  decide +kernel

end NanoStacks.Chain
