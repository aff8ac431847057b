import NanoStacks.Chain.Execute

/-!
# The history behind a checkpoint

A node that starts from an imported state has executed none of the blocks behind it. It is given the
last of them instead, checks each as far as it can without executing it, and adopts the ledger they
would have left: `authenticate_checkpoint_history`.
-/

namespace NanoStacks.Chain

open Bitcoin Sortition Result

structure CheckpointHistoryBlock where
  block : NakamotoBlock
  context : BitcoinBlockContext
  operations : List BitcoinOperation

structure CheckpointBoundaryProof where
  parentTenureConsensusHash : ConsensusHash
  coinbaseVrfProof : Bytes 80
  sortitionHash : SortitionHash
  winnerVrfPublicKey : Bytes 32

def checkpointHistoryLimit : Nat := 4096

inductive CheckpointHistoryError
  | empty
  | tooLong (blocks : Nat)
  | source (expected actual : StacksBlockId)
  | stateRoot (expected actual : Bytes 32)
  | link (height : Nat)
  | height (previous next : Nat)
  | firstBlockIsNotTenureStart
  | boundaryTenure
  | boundaryProof (error : TenureVrfError)
  | vrf (height : Nat) (error : TenureVrfError)
  | block (height : Nat) (error : ChainStateError)
  | tenureHeight
  deriving DecidableEq

variable (C : Crypto) (E : Clarity)

/-- Every block names the one before it as its parent, at the next height. -/
def checkLinks : List CheckpointHistoryBlock → Except CheckpointHistoryError Unit
  | previous :: next :: rest => do
    ensure (next.block.header.parentBlockId = previous.block.blockId C)
      (.link next.block.header.chainLength)
    ensure (next.block.header.chainLength = saturatingAdd previous.block.header.chainLength 1)
      (.height previous.block.header.chainLength next.block.header.chainLength)
    checkLinks (next :: rest)
  | _ => .ok ()

def validateCheckpointHistoryShape (tip : Option StacksBlockId) (source : StacksBlockId)
    (stateRoot : Bytes 32) (history : List CheckpointHistoryBlock) :
    Except CheckpointHistoryError Unit := do
  let last ← okOr history.getLast? .empty
  ensure (history.length ≤ checkpointHistoryLimit) (.tooLong history.length)
  let actual := last.block.blockId C
  ensure (actual = source ∧ tip = some source) (.source source actual)
  ensure (last.block.header.stateIndexRoot = stateRoot)
    (.stateRoot stateRoot last.block.header.stateIndexRoot)
  ensure (∀ first ∈ history.head?, first.block.startsNewTenure = true) .firstBlockIsNotTenureStart
  checkLinks C history

/-- What the history has made of the ledger so far. -/
structure HistoryCursor where
  tenureHeight : Nat
  ledger : ChainLedger
  parentProof : Bytes 80

namespace HistoryCursor

/-- A refusal of a history block by one of the consensus checks. -/
def refusal (height : Nat) (error : ConsensusError) : CheckpointHistoryError :=
  .block height (.invalidTransaction error.display)

/-- A tenure start proves itself against the proof before it, and is noted as the tenure's start. -/
def startTenure (cursor : HistoryCursor) (entry : CheckpointHistoryBlock) :
    Except CheckpointHistoryError HistoryCursor := do
  let height := entry.block.header.chainLength
  let key ← okOr entry.context.winnerVrfPublicKey (.vrf height .missingLeaderKey)
  (verifyCoinbaseVrfProof C entry.block key entry.context.sortitionHash).mapError (.vrf height)
  (verifyCommittedVrfSeed C entry.context.vrfSeed cursor.parentProof).mapError (.vrf height)
  let proof ← okOr entry.block.coinbaseVrfProof (.vrf height .missingProof)
  ensure (height < 2 ^ 32) .tenureHeight
  return ⟨cursor.tenureHeight,
    { cursor.ledger with
      tenureStartHeights := cursor.ledger.tenureStartHeights.insert cursor.tenureHeight height
      tenureStartBlocks := cursor.ledger.tenureStartBlocks.insert cursor.tenureHeight
        (entry.block.blockId C) }, proof⟩

/-- Note a block that was checked, in the tenure the cursor stands in. -/
def push (cursor : HistoryCursor) (block : NakamotoBlock) : HistoryCursor :=
  ⟨cursor.tenureHeight,
    { cursor.ledger with
      executed := cursor.ledger.executed ++
        [⟨block.blockId C, block.header.consensusHash, cursor.tenureHeight⟩] },
    cursor.parentProof⟩

/-- `authenticate_checkpoint_history_block`: the signers are those of the imported state. -/
def authenticateBlock (env : BitcoinBlockContext → BlockEnv) (world : World E.State)
    (cursor : HistoryCursor) (first : Bool) (entry : CheckpointHistoryBlock) :
    Except CheckpointHistoryError HistoryCursor := do
  let block := entry.block
  let height := block.header.chainLength
  (Chain.authenticateBlock C block (env entry.context).network .present).mapError (refusal height)
  (if first then .ok () else
    (checkTenureContinuity cursor.ledger block (some block.header.parentBlockId)).mapError
      (refusal height))
  (checkMinerWonTheSortition C block entry.context entry.operations).mapError (refusal height)
  let cursor ← (if block.startsNewTenure then cursor.startTenure C entry else .ok cursor)
  (checkSignerSignatures C E (env entry.context) block world).mapError (.block height)
  return cursor.push C block

/-- The tenure a block after the first belongs to. -/
def advance (cursor : HistoryCursor) (block : NakamotoBlock) :
    Except CheckpointHistoryError HistoryCursor :=
  if block.startsNewTenure then do
    ensure (cursor.tenureHeight + 1 < 2 ^ 32) .tenureHeight
    return { cursor with tenureHeight := cursor.tenureHeight + 1 }
  else .ok cursor

/-- The loop over the blocks after the first. -/
def authenticateRest (env : BitcoinBlockContext → BlockEnv) (world : World E.State) :
    HistoryCursor → List CheckpointHistoryBlock → Except CheckpointHistoryError HistoryCursor
  | cursor, [] => .ok cursor
  | cursor, entry :: rest => do
    let cursor ← cursor.advance entry.block
    let cursor ← cursor.authenticateBlock C E env world false entry
    authenticateRest env world cursor rest

end HistoryCursor

/-- The ledger nothing has been executed on, under an accounting. -/
def ChainLedger.fresh (accounting : TenureAccounting) : ChainLedger :=
  ⟨accounting, .empty, .empty, [], none⟩

namespace ChainState

variable {E} (state : ChainState E.State)

/-- The environment signer sets are read in outside a block. -/
def historyEnv (source : StacksBlockId) (context : BitcoinBlockContext) : BlockEnv :=
  ⟨state.vm.network, some source, context, state.vm.tenureStarts⟩

/-- The first tenure of a history that has to end in a given one. -/
def firstTenure (current : Nat) (history : List CheckpointHistoryBlock) :
    Except CheckpointHistoryError Nat := do
  let starts := history.countP (·.block.startsNewTenure)
  ensure (starts - 1 < 2 ^ 32 ∧ starts - 1 ≤ current) .tenureHeight
  return current - (starts - 1)

/-- What a checked history leaves this chain standing on. -/
def adoptHistory (cursor : HistoryCursor) : ChainState E.State :=
  let ledger := { cursor.ledger with
    executed := cursor.ledger.executed.rtake reorgReach
    parentTenureProof := some cursor.parentProof }
  ⟨state.vm.standOnTenureStarts ledger.tenureStartHeights, ledger⟩

def authenticateCheckpointHistory (source : StacksBlockId) (stateRoot : Bytes 32)
    (boundary : CheckpointBoundaryProof) (history : List CheckpointHistoryBlock) :
    Except CheckpointHistoryError (ChainState E.State) := do
  validateCheckpointHistoryShape C state.vm.tip source stateRoot history
  (verifyVrfProof C boundary.coinbaseVrfProof boundary.winnerVrfPublicKey
    boundary.sortitionHash).mapError .boundaryProof
  match history with
  | [] => .error .empty
  | first :: rest => do
    let payload ← okOr first.block.tenureChangePayload .firstBlockIsNotTenureStart
    ensure (payload.previousTenureConsensusHash = boundary.parentTenureConsensusHash) .boundaryTenure
    let imported ← okOr (state.vm.stateAt source) .tenureHeight
    let current := imported.world.tenureHeight
    let tenureHeight ← firstTenure current history
    let cursor : HistoryCursor := ⟨tenureHeight, .fresh state.ledger.accounting,
      boundary.coinbaseVrfProof⟩
    let cursor ← cursor.authenticateBlock C E (state.historyEnv source) imported.world true first
    let cursor ← cursor.authenticateRest C E (state.historyEnv source) imported.world rest
    ensure (cursor.tenureHeight = current) .tenureHeight
    return state.adoptHistory cursor

end ChainState

/-! ## What an accepted history leaves behind -/

section Accepted

variable {C E} {env : BitcoinBlockContext → BlockEnv} {world : World E.State}
  {cursor cursor' : HistoryCursor} {entry : CheckpointHistoryBlock}

namespace HistoryCursor

/-- What a history block that is accepted was held to, and what it leaves of the cursor. -/
structure Accepted (C : Crypto) (cursor : HistoryCursor) (first : Bool)
    (entry : CheckpointHistoryBlock) (cursor' : HistoryCursor) : Prop where
  authenticated : ∃ network, Chain.authenticateBlock C entry.block network .present = .ok ()
  continuity : first = false →
    checkTenureContinuity cursor.ledger entry.block (some entry.block.header.parentBlockId) = .ok ()
  chainLength : entry.block.startsNewTenure = true → entry.block.header.chainLength < 2 ^ 32
  tenureHeight : cursor'.tenureHeight = cursor.tenureHeight
  accounting : cursor'.ledger.accounting = cursor.ledger.accounting
  heights : cursor'.ledger.tenureStartHeights =
    if entry.block.startsNewTenure then
      cursor.ledger.tenureStartHeights.insert cursor.tenureHeight entry.block.header.chainLength
    else cursor.ledger.tenureStartHeights
  blocks : cursor'.ledger.tenureStartBlocks =
    if entry.block.startsNewTenure then
      cursor.ledger.tenureStartBlocks.insert cursor.tenureHeight (entry.block.blockId C)
    else cursor.ledger.tenureStartBlocks
  executed : cursor'.ledger.executed = cursor.ledger.executed ++
    [⟨entry.block.blockId C, entry.block.header.consensusHash, cursor.tenureHeight⟩]

theorem authenticateBlock_eq_ok {first : Bool}
    (h : cursor.authenticateBlock C E env world first entry = .ok cursor') :
    Accepted C cursor first entry cursor' := by
  simp only [authenticateBlock, bind_eq_ok, mapError_eq_ok, return_eq_ok] at h
  obtain ⟨⟨⟩, hauthentic, ⟨⟩, hcontinuity, -, -, started, hstarted, -, -, rfl⟩ := h
  have hcontinuous : first = false → checkTenureContinuity cursor.ledger entry.block
      (some entry.block.header.parentBlockId) = .ok () := by
    rintro rfl
    simpa [mapError_eq_ok] using hcontinuity
  by_cases hstarts : entry.block.startsNewTenure = true
  · simp only [hstarts, if_true, startTenure, bind_eq_ok, return_eq_ok] at hstarted
    obtain ⟨-, -, -, -, -, -, -, -, ⟨⟩, hlength, rfl⟩ := hstarted
    exact ⟨⟨_, hauthentic⟩, hcontinuous, fun _ => ensure_eq_ok.1 hlength, rfl, rfl,
      by simp [push, hstarts], by simp [push, hstarts], rfl⟩
  · simp only [hstarts, if_false, Bool.false_eq_true, Except.ok.injEq] at hstarted
    subst hstarted
    exact ⟨⟨_, hauthentic⟩, hcontinuous, fun h => absurd h hstarts, rfl, rfl,
      by simp [push, hstarts], by simp [push, hstarts], rfl⟩

theorem advance_eq_ok {block : NakamotoBlock} (h : cursor.advance block = .ok cursor') :
    cursor' = ⟨tenureAfter cursor.tenureHeight block, cursor.ledger, cursor.parentProof⟩ := by
  unfold advance at h
  unfold tenureAfter
  split_ifs at h ⊢ with hstarts
  · simp only [bind_eq_ok, ensure_eq_ok, return_eq_ok] at h
    obtain ⟨-, -, rfl⟩ := h
    rfl
  · exact (Except.ok.inj h).symm

variable {rest : List CheckpointHistoryBlock}

/-- What holds of the cursor and is kept by every block holds when the history has been read. -/
theorem authenticateRest_invariant {Inv : HistoryCursor → Prop}
    (hstep : ∀ cursor cursor', ∀ entry ∈ rest, Inv cursor →
      Accepted C ⟨tenureAfter cursor.tenureHeight entry.block, cursor.ledger, cursor.parentProof⟩ false
        entry cursor' → Inv cursor')
    (hcursor : Inv cursor) (h : cursor.authenticateRest C E env world rest = .ok cursor') :
    Inv cursor' := by
  induction rest generalizing cursor with
  | nil => exact Except.ok.inj h ▸ hcursor
  | cons entry rest ih =>
    simp only [authenticateRest, bind_eq_ok] at h
    obtain ⟨advanced, hadvance, accepted, haccepted, hrest⟩ := h
    rw [advance_eq_ok hadvance] at haccepted
    have hnext : Inv accepted :=
      hstep _ _ entry List.mem_cons_self hcursor (authenticateBlock_eq_ok haccepted)
    exact ih (fun c c' e he => hstep c c' e (List.mem_cons_of_mem _ he)) hnext hrest

theorem authenticateRest_executed (h : cursor.authenticateRest C E env world rest = .ok cursor') :
    cursor'.ledger.executed.map (·.blockId) = cursor.ledger.executed.map (·.blockId) ++
      rest.map (·.block.blockId C) := by
  induction rest generalizing cursor with
  | nil =>
    obtain rfl := Except.ok.inj h
    simp
  | cons entry rest ih =>
    simp only [authenticateRest, bind_eq_ok] at h
    obtain ⟨advanced, hadvance, accepted, haccepted, hrest⟩ := h
    rw [ih hrest, (authenticateBlock_eq_ok haccepted).executed, advance_eq_ok hadvance]
    simp

theorem executed_history {tenureHeight : Nat} {accounting : TenureAccounting}
    {parentProof : Bytes 80} {first : CheckpointHistoryBlock}
    (hfirst : Accepted C ⟨tenureHeight, .fresh accounting, parentProof⟩ true first cursor)
    (hrest : cursor.authenticateRest C E env world rest = .ok cursor') :
    cursor'.ledger.executed.map (·.blockId) = (first :: rest).map (·.block.blockId C) := by
  rw [authenticateRest_executed hrest, hfirst.executed]
  rfl

end HistoryCursor

namespace ChainState

variable {state adopted : ChainState E.State} {source : StacksBlockId} {stateRoot : Bytes 32}
  {boundary : CheckpointBoundaryProof} {history : List CheckpointHistoryBlock}

/-- How the adopted ledger came about. -/
structure Adopted (C : Crypto) (state : ChainState E.State) (source : StacksBlockId)
    (history : List CheckpointHistoryBlock) (adopted : ChainState E.State) : Prop where
  source_eq : history.getLast?.map (·.block.blockId C) = some source
  starts : ∀ first ∈ history.head?, first.block.startsNewTenure = true
  linked : checkLinks C history = .ok ()
  read : ∃ first rest imported tenureHeight parentProof entered cursor, history = first :: rest ∧
    state.vm.stateAt source = some imported ∧
    firstTenure imported.world.tenureHeight history = .ok tenureHeight ∧
    HistoryCursor.Accepted C ⟨tenureHeight, .fresh state.ledger.accounting, parentProof⟩ true first
      entered ∧
    entered.authenticateRest C E (state.historyEnv source) imported.world rest = .ok cursor ∧
    cursor.tenureHeight = imported.world.tenureHeight ∧ adopted = state.adoptHistory cursor

theorem authenticateCheckpointHistory_eq_ok
    (h : state.authenticateCheckpointHistory C source stateRoot boundary history = .ok adopted) :
    Adopted C state source history adopted := by
  cases history with
  | nil => simp [authenticateCheckpointHistory] at h
  | cons first rest =>
    simp only [authenticateCheckpointHistory, bind_eq_ok, pure_eq_ok, ensure_eq_ok, okOr_eq_ok,
      Except.ok.injEq] at h
    obtain ⟨⟨⟩, hshape, -, -, -, -, -, -, imported, himported, tenureHeight, hfirst, entered, hentered,
      cursor, hcursor, -, htenure, rfl⟩ := h
    simp only [validateCheckpointHistoryShape, bind_eq_ok, ensure_eq_ok, okOr_eq_ok] at hshape
    obtain ⟨last, hlast, -, -, -, ⟨hsource, -⟩, -, -, -, hstarts, hlinked⟩ := hshape
    refine ⟨by rw [hlast, ← hsource]; rfl, hstarts, hlinked, ?_⟩
    exact ⟨first, rest, imported, tenureHeight, boundary.coinbaseVrfProof, entered, cursor, rfl,
      himported, hfirst, HistoryCursor.authenticateBlock_eq_ok hentered, hcursor, htenure, rfl⟩

end ChainState

end Accepted

end NanoStacks.Chain
