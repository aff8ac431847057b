import NanoStacks.Chain.Transaction
import NanoStacks.Lib.Table

/-!
# The two stores under a chain

The MARF keeps the state every sealed block left, under the block's identifier; the side store keeps,
for the blocks sealed last, the ledger each was committed with. Sealing writes the ledger first and
the state after it (`commitTo`), and a block that is sealed already is refused only by the second.
-/

namespace NanoStacks.Chain

open Result List

/-- A state the MARF holds, at its own height. -/
structure SealedState (State : Type) where
  blockId : StacksBlockId
  parent : Option StacksBlockId
  height : Nat
  world : World State

/-- A ledger written down with the block that was committed with it. -/
structure LedgerRow where
  blockId : StacksBlockId
  sequence : Nat
  ledger : ChainLedger

def ledgerHistory : Nat := 256

/-- States are listed in the order they were sealed in. -/
structure Vm (State : Type) where
  network : Network
  states : List (SealedState State)
  rows : List LedgerRow
  tenureStarts : OrdMap Nat Nat

/-! ## Ledger rows -/

def maxSequence (rows : List LedgerRow) : Nat := (rows.map (·.sequence)).foldr max 0

def ledgerAt (rows : List LedgerRow) (block : StacksBlockId) : Option ChainLedger :=
  (rows.find? (·.blockId = block)).map (·.ledger)

/-- The insertion of `write_ledger`: a block written again keeps its place. -/
def upsertLedger (rows : List LedgerRow) (block : StacksBlockId) (ledger : ChainLedger) :
    List LedgerRow :=
  if rows.any (·.blockId = block) then
    rows.map fun row => if row.blockId = block then ⟨block, row.sequence, ledger⟩ else row
  else rows ++ [⟨block, maxSequence rows + 1, ledger⟩]

/-- The deletion of `write_ledger`: only the newest `ledgerHistory` are kept. -/
def pruneLedgers (rows : List LedgerRow) : List LedgerRow :=
  rows.filter fun row => maxSequence rows < row.sequence + ledgerHistory

def writeLedger (rows : List LedgerRow) (block : StacksBlockId) (ledger : ChainLedger) :
    List LedgerRow :=
  pruneLedgers (upsertLedger rows block ledger)

variable {rows : List LedgerRow}

section

variable (hnodup : (rows.map (·.blockId)).Nodup)

include hnodup

variable {block : StacksBlockId} {ledger : ChainLedger}

theorem ledgerAt_pruneLedgers (h : ledgerAt (pruneLedgers rows) block = some ledger) :
    ledgerAt rows block = some ledger := by
  simp only [ledgerAt, Option.map_eq_some_iff] at h ⊢
  obtain ⟨row, hrow, hledger⟩ := h
  refine ⟨row, (find?_key_eq_some hnodup).2 ⟨?_, by simpa using find?_some hrow⟩, hledger⟩
  exact mem_of_mem_filter (mem_of_find?_eq_some hrow)

section

variable (rows : List LedgerRow) (block : StacksBlockId) (ledger : ChainLedger)

omit hnodup in
theorem ledgerAt_map_row (other : StacksBlockId) :
    ledgerAt (rows.map fun row => if row.blockId = block then ⟨block, row.sequence, ledger⟩ else row)
        other =
      if other = block then (ledgerAt rows block).map fun _ => ledger else ledgerAt rows other := by
  induction rows with
  | nil => split_ifs <;> rfl
  | cons row rows ih =>
    simp only [ledgerAt, map_cons, find?_cons] at ih ⊢
    by_cases hrow : row.blockId = block
    · by_cases hother : other = block
      · simp [hrow, hother]
      · have hne : ¬block = other := fun h => hother h.symm
        simp only [hrow, if_true, hne, decide_false, if_neg hother] at ih ⊢
        simpa using ih
    · by_cases hother : other = block
      · subst hother
        simpa [hrow] using ih
      · by_cases hmatch : row.blockId = other
        · simp [hmatch, hother]
        · simpa [hrow, hmatch, hother] using ih

omit hnodup in
theorem ledgerAt_upsertLedger (other : StacksBlockId) :
    ledgerAt (upsertLedger rows block ledger) other =
      if other = block then some ledger else ledgerAt rows other := by
  unfold upsertLedger
  split_ifs with hany hother hother
  · rw [ledgerAt_map_row, if_pos hother]
    have hsome : (rows.find? (·.blockId = block)).isSome := by
      rw [find?_isSome]
      simpa using hany
    obtain ⟨row, hrow⟩ := Option.isSome_iff_exists.1 hsome
    simp [ledgerAt, hrow]
  · rw [ledgerAt_map_row, if_neg hother]
  · subst hother
    have hnone : rows.find? (·.blockId = other) = none := by
      rw [find?_eq_none]
      simpa using hany
    simp [ledgerAt, find?_append, hnone]
  · have hne : ¬block = other := fun h => hother h.symm
    simp [ledgerAt, find?_append, hne]

end

theorem nodup_upsertLedger (block : StacksBlockId) (ledger : ChainLedger) :
    ((upsertLedger rows block ledger).map (·.blockId)).Nodup := by
  unfold upsertLedger
  split_ifs with hany
  · have hids : (rows.map fun row =>
        if row.blockId = block then (⟨block, row.sequence, ledger⟩ : LedgerRow) else row).map
          (·.blockId) = rows.map (·.blockId) := by
      rw [map_map]
      refine map_congr_left fun row _ => ?_
      by_cases h : row.blockId = block <;> simp [h]
    rw [hids]
    exact hnodup
  · rw [map_append, nodup_append]
    refine ⟨hnodup, by simp, ?_⟩
    rintro a ha _ hb rfl
    obtain ⟨row, hrow, rfl⟩ := mem_map.1 ha
    rw [map_singleton, mem_singleton] at hb
    exact hany (any_eq_true.2 ⟨row, hrow, by simpa using hb⟩)

theorem nodup_writeLedger (block : StacksBlockId) (ledger : ChainLedger) :
    ((writeLedger rows block ledger).map (·.blockId)).Nodup :=
  (nodup_upsertLedger hnodup block ledger).sublist (filter_sublist.map _)

theorem ledgerAt_writeLedger {written : ChainLedger} {other : StacksBlockId}
    (h : ledgerAt (writeLedger rows block written) other = some ledger) :
    (other = block ∧ ledger = written) ∨ (other ≠ block ∧ ledgerAt rows other = some ledger) := by
  have hrow := ledgerAt_pruneLedgers (nodup_upsertLedger hnodup block written) h
  rw [ledgerAt_upsertLedger] at hrow
  split_ifs at hrow with hother
  · exact .inl ⟨hother, (Option.some.inj hrow).symm⟩
  · exact .inr ⟨hother, hrow⟩

/-! ## States -/

end

namespace Vm

variable {State : Type} (vm : Vm State)

def stateAt (block : StacksBlockId) : Option (SealedState State) :=
  vm.states.find? (·.blockId = block)

/-- The deeper of two states, the one sealed later if they are equally deep. -/
def deeper (best : Option (SealedState State)) (state : SealedState State) :
    Option (SealedState State) :=
  match best with
  | none => some state
  | some best => if best.height ≤ state.height then some state else some best

/-- `TrieStorage::tip`: the greatest height, and of those the state sealed last. -/
def tip : Option StacksBlockId := (vm.states.foldl deeper none).map (·.blockId)

def hasRecordedLedger (block : StacksBlockId) : Bool := (ledgerAt vm.rows block).isSome

def standOnTenureStarts (starts : OrdMap Nat Nat) : Vm State := { vm with tenureStarts := starts }

/-- `remember_block_header`, as far as tenures go: the first height heard of a tenure stands. -/
def rememberTenureStart (header : BlockHeader) : Vm State :=
  { vm with tenureStarts := vm.tenureStarts.insertNew header.tenureHeight header.tenureStartHeight }

/-- The state of the parent and the height a block on top of it gets. -/
def openBlock (genesis : State) (parent : Option StacksBlockId) :
    Except ChainStateError (World State × Nat) :=
  match parent with
  | none => .ok (⟨0, fun _ => 0, genesis⟩, 0)
  | some block => do
    let state ← okOr (vm.stateAt block) (.storage (.marf .unknownVersion))
    ensure (state.height + 1 < 2 ^ 32) (.storage (.marf .heightOverflow))
    return (state.world, state.height + 1)

/-- `prepare_commit`: everything outside the MARF, in one transaction. -/
def prepareCommit (block : StacksBlockId) (ledger : ChainLedger) : Vm State :=
  { vm with rows := writeLedger vm.rows block ledger }

/-- The MARF's own commit. -/
def sealTo (state : SealedState State) : Except ChainStateError (Vm State) := do
  ensure ((vm.stateAt state.blockId).isNone) (.storage (.marf .versionAlreadyExists))
  return { vm with states := vm.states ++ [state] }

/-- `commit_block`: the ledger, then the state, then what is kept in memory. What was written of the
ledger stays when the state is refused. -/
def commitBlock (state : SealedState State) (header : BlockHeader) (ledger : ChainLedger) :
    Except ChainStateError Unit × Vm State :=
  let prepared := vm.prepareCommit state.blockId ledger
  match prepared.sealTo state with
  | .error error => (.error error, prepared)
  | .ok committed => (.ok (), committed.rememberTenureStart header)

variable {vm} {state : SealedState State}

theorem sealTo_eq_ok {committed : Vm State} (h : vm.sealTo state = .ok committed) :
    vm.stateAt state.blockId = none ∧
      committed = ⟨vm.network, vm.states ++ [state], vm.rows, vm.tenureStarts⟩ := by
  simp only [sealTo, bind_eq_ok, ensure_eq_ok, return_eq_ok] at h
  obtain ⟨-, hnone, rfl⟩ := h
  exact ⟨Option.isNone_iff_eq_none.1 hnone, rfl⟩

theorem commitBlock_eq_ok {ledger : ChainLedger} {header : BlockHeader} {committed : Vm State}
    (h : vm.commitBlock state header ledger = (.ok (), committed)) :
    vm.stateAt state.blockId = none ∧
      committed = ⟨vm.network, vm.states ++ [state], writeLedger vm.rows state.blockId ledger,
        vm.tenureStarts.insertNew header.tenureHeight header.tenureStartHeight⟩ := by
  simp only [commitBlock] at h
  split at h
  · simp at h
  · rename_i sealed hsealed
    obtain ⟨hnone, rfl⟩ := sealTo_eq_ok hsealed
    simp only [Prod.mk.injEq, true_and] at h
    subst h
    exact ⟨hnone, rfl⟩

theorem commitBlock_eq_error {ledger : ChainLedger} {header : BlockHeader} {refused : Vm State}
    {error : ChainStateError} (h : vm.commitBlock state header ledger = (.error error, refused)) :
    refused.states = vm.states := by
  simp only [commitBlock] at h
  split at h
  · simp only [Prod.mk.injEq] at h
    obtain ⟨-, rfl⟩ := h
    rfl
  · simp at h

theorem world_of_openBlock {block : StacksBlockId} {genesis : State} {found : SealedState State}
    {world : World State} {height : Nat} (h : vm.stateAt block = some found)
    (hopen : vm.openBlock genesis (some block) = .ok (world, height)) : world = found.world := by
  simp only [openBlock, h, okOr_some, ok_bind, bind_eq_ok, return_eq_ok, Prod.mk.injEq] at hopen
  obtain ⟨-, -, rfl, -⟩ := hopen
  rfl

theorem stateAt_concat {block : StacksBlockId} {found : SealedState State}
    (h : vm.stateAt block = some found) (committed : Vm State)
    (hstates : committed.states = vm.states ++ [state]) : committed.stateAt block = some found := by
  rw [stateAt] at h ⊢
  rw [hstates, find?_append, h]
  rfl

theorem stateAt_concat_self (h : vm.stateAt state.blockId = none) (committed : Vm State)
    (hstates : committed.states = vm.states ++ [state]) :
    committed.stateAt state.blockId = some state := by
  rw [stateAt] at h ⊢
  rw [hstates, find?_append, h]
  simp

end Vm

end NanoStacks.Chain
