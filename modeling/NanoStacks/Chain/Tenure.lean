import NanoStacks.Chain.Retract

/-!
# The law of tenures

Three checks in two places say how tenures follow each other, and none of them says it whole: a block
under another consensus hash than its parent's carries a tenure change (`validate_successor`), a
tenure change names the block's own tenure and is of the cause its coinbase calls for
(`authenticate_block`), and it names what the ledger says of its parent
(`check_tenure_continuity`). `PlacedBlock.Next` is the law they make together, and `tenure_law` says
that it holds of every two neighbours of a chain that was accepted.

The blocks behind a checkpoint answer the second and the third but not the first; a history has to
meet it by itself (`ChangesCarried`), and `unannounced_tenure_miscounted` is what follows a history
that does not.
-/

namespace NanoStacks.Chain

open Bitcoin Sortition Result ChainState List

/-- A block with the tenure height it was executed in. -/
structure PlacedBlock where
  block : NakamotoBlock
  tenureHeight : Nat

namespace PlacedBlock

/-- What the ledger notes of the block. -/
def executed (H : Hashes) (placed : PlacedBlock) : ExecutedHeader :=
  ⟨placed.block.blockId H, placed.block.header.consensusHash, placed.tenureHeight⟩

def consensusHash (placed : PlacedBlock) : ConsensusHash := placed.block.header.consensusHash

end PlacedBlock

/-- How many blocks of its tenure a chain ends in. -/
def tenureBlocks (chain : List PlacedBlock) : Nat :=
  (chain.rtakeWhile fun placed => some placed.consensusHash == chain.getLast?.map (·.consensusHash)).length

/-- The law of a block and its parent, given the blocks before them. -/
structure PlacedBlock.Next (before : List PlacedBlock) (parent placed : PlacedBlock) : Prop where
  chainLength : placed.block.header.chainLength = saturatingAdd parent.block.header.chainLength 1
  changes : placed.consensusHash ≠ parent.consensusHash ↔ placed.block.startsNewTenure = true
  named : placed.block.startsNewTenure = true →
    ∃ payload, placed.block.tenureChangePayload = some payload ∧ payload.cause = .blockFound ∧
      payload.previousTenureConsensusHash = parent.consensusHash ∧
      payload.tenureConsensusHash = placed.consensusHash ∧
      payload.previousTenureBlocks = tenureBlocks (before ++ [parent])
  tenureHeight : placed.tenureHeight = tenureAfter parent.tenureHeight placed.block

/-- A chain that begins with the start of a tenure and follows the law. -/
inductive Lawful : List PlacedBlock → Prop
  | first {placed : PlacedBlock} (starts : placed.block.startsNewTenure = true) : Lawful [placed]
  | next {before : List PlacedBlock} {parent placed : PlacedBlock}
      (lawful : Lawful (before ++ [parent])) (next : PlacedBlock.Next before parent placed) :
      Lawful (before ++ [parent] ++ [placed])

/-- The tenure starts a ledger records are those of the chain. -/
def StartsRecorded (ledger : ChainLedger) (chain : List PlacedBlock) : Prop :=
  ∀ tenure start, ledger.tenureStartHeights.get tenure = some start ↔
    ∃ placed ∈ chain, placed.block.startsNewTenure = true ∧ placed.tenureHeight = tenure ∧
      placed.block.header.chainLength = start

/-! ## The tenure a chain ends in -/

/-- A chain cut where its last tenure begins. -/
structure LastTenure (chain : List PlacedBlock) (last : PlacedBlock) (before : List PlacedBlock)
    (first : PlacedBlock) (rest : List PlacedBlock) : Prop where
  cut : chain = before ++ first :: rest
  starts : first.block.startsNewTenure = true
  continues : ∀ placed ∈ rest, placed.block.startsNewTenure = false
  tenure : ∀ placed ∈ first :: rest,
    placed.consensusHash = last.consensusHash ∧ placed.tenureHeight = last.tenureHeight
  before_hash : ∀ placed ∈ before.getLast?, placed.consensusHash ≠ last.consensusHash
  before_height : ∀ placed ∈ before, placed.tenureHeight < last.tenureHeight
  chainLength : last.block.header.chainLength < 2 ^ 64 - 1 →
    last.block.header.chainLength = first.block.header.chainLength + rest.length

theorem saturatingAdd_eq_succ {a b : Nat} (h : a = saturatingAdd b 1) (hlt : a < 2 ^ 64 - 1) :
    a = b + 1 := by
  unfold saturatingAdd at h
  omega

variable {chain : List PlacedBlock} {last : PlacedBlock}

theorem Lawful.lastTenure (h : Lawful chain) (hlast : chain.getLast? = some last) :
    ∃ before first rest, LastTenure chain last before first rest := by
  induction h generalizing last with
  | @first placed starts =>
    obtain rfl : placed = last := by simpa using hlast
    refine ⟨[], placed, [], rfl, starts, by simp, by simp, by simp, by simp, fun _ => rfl⟩
  | @next before parent placed lawful next ih =>
    obtain rfl : placed = last := by simpa using hlast
    have hparent : (before ++ [parent]).getLast? = some parent := getLast?_concat
    obtain ⟨front, first, rest, hcut⟩ := ih hparent
    have hheight := next.tenureHeight
    unfold tenureAfter at hheight
    by_cases hstarts : placed.block.startsNewTenure = true
    · -- a new tenure: everything before it is behind it
      rw [if_pos hstarts] at hheight
      refine ⟨before ++ [parent], placed, [], rfl, hstarts, by simp, by simp, ?_, ?_, fun _ => rfl⟩
      · simpa using (next.changes.2 hstarts).symm
      · intro other hother
        rw [hcut.cut] at hother
        rcases mem_append.1 hother with hother | hother
        · have := hcut.before_height other hother
          omega
        · have := (hcut.tenure other hother).2
          omega
    · rw [if_neg hstarts] at hheight
      have hhash : placed.consensusHash = parent.consensusHash :=
        not_not.1 fun hne => hstarts (next.changes.1 hne)
      refine ⟨front, first, rest ++ [placed], by simp [hcut.cut], hcut.starts, ?_, ?_,
        hhash ▸ hcut.before_hash, hheight ▸ hcut.before_height, ?_⟩
      · simpa [or_imp, forall_and, hstarts] using hcut.continues
      · simpa [or_imp, forall_and, hhash, hheight] using hcut.tenure
      · intro hlength
        have hsucc := saturatingAdd_eq_succ next.chainLength hlength
        have hparent := hcut.chainLength (by omega)
        rw [length_append, length_singleton]
        omega

theorem Lawful.tenureHeight_le (h : Lawful chain) (hlast : chain.getLast? = some last)
    {placed : PlacedBlock} (hmem : placed ∈ chain) : placed.tenureHeight ≤ last.tenureHeight := by
  obtain ⟨before, first, rest, hcut⟩ := h.lastTenure hlast
  rw [hcut.cut] at hmem
  rcases mem_append.1 hmem with hmem | hmem
  · exact (hcut.before_height placed hmem).le
  · exact (hcut.tenure placed hmem).2.le

theorem LastTenure.length_eq {first : PlacedBlock} {before rest : List PlacedBlock}
    (h : LastTenure chain last before first rest) (hlast : chain.getLast? = some last) :
    tenureBlocks chain = rest.length + 1 := by
  rw [tenureBlocks, hlast, h.cut, Suffix.rtakeWhile_append, length_cons]
  · intro placed hplaced
    simp [(h.tenure placed hplaced).1]
  · intro placed hplaced
    simp [h.before_hash placed hplaced]

/-! ## One more block -/

section Step

variable {C : Crypto} {ledger : ChainLedger} {before : List PlacedBlock} {parent : PlacedBlock}
  {block : NakamotoBlock}

theorem StartsRecorded.lastTenure {chain : List PlacedBlock} (h : StartsRecorded ledger chain)
    {last first : PlacedBlock} {front rest : List PlacedBlock}
    (hcut : LastTenure chain last front first rest) {start : Nat} :
    ledger.tenureStartHeights.get last.tenureHeight = some start ↔
      first.block.header.chainLength = start := by
  have hfirst := (hcut.tenure first mem_cons_self).2
  rw [h last.tenureHeight start]
  have hbefore := hcut.before_height
  have hrest := hcut.continues
  simp only [hcut.cut, mem_append, mem_cons]
  grind [hcut.starts]

theorem PlacedBlock.Next.of_checks (hlawful : Lawful (before ++ [parent]))
    (hrecorded : StartsRecorded ledger (before ++ [parent]))
    (hexecuted : ledger.executed.getLast? = some (parent.executed C)) {network : Network}
    {signatures : Signatures} (hauthentic : authenticateBlock C block network signatures = .ok ())
    (hcontinuity : checkTenureContinuity ledger block (some (parent.block.blockId C)) = .ok ())
    (hlength : block.header.chainLength = saturatingAdd parent.block.header.chainLength 1)
    (hhash : block.header.consensusHash = parent.consensusHash ∨
      block.transactions.any (·.isTenureChange) = true)
    (hsmall : block.startsNewTenure = true → block.header.chainLength < 2 ^ 32) :
    PlacedBlock.Next before parent ⟨block, tenureAfter parent.tenureHeight block⟩ := by
  -- a tenure change the ledger agreed to names the parent's tenure and its length
  have hchange : ∀ payload, block.tenureChangePayload = some payload →
      TenureChangeOf block payload ∧ payload.previousTenureConsensusHash = parent.consensusHash ∧
      ∃ start, ledger.tenureStartHeights.get parent.tenureHeight = some start ∧
        1 ≤ block.header.chainLength ∧ start ≤ block.header.chainLength - 1 ∧
        payload.previousTenureBlocks = block.header.chainLength - 1 - start + 1 := by
    intro payload hpayload
    obtain ⟨header, start, hfind, hprevious, hstart, hone, hle, hcount⟩ :=
      checkTenureContinuity_eq_ok hcontinuity hpayload
    obtain ⟨front, hfront⟩ := getLast?_eq_some_iff.1 hexecuted
    have hheader : header = parent.executed C := by
      rw [hfront, reverse_append, reverse_singleton, singleton_append,
        find?_cons_of_pos (by simp [PlacedBlock.executed])] at hfind
      exact (Option.some.inj hfind).symm
    rw [hheader] at hprevious hstart
    exact ⟨authenticateBlock_tenureChange hauthentic hpayload, hprevious, start, hstart, hone, hle,
      hcount⟩
  have hchanges : block.header.consensusHash ≠ parent.consensusHash ↔
      block.startsNewTenure = true := by
    constructor
    · intro hne
      obtain ⟨payload, hpayload⟩ : ∃ payload, block.tenureChangePayload = some payload := by
        rw [← Option.isSome_iff_exists, ← NakamotoBlock.any_isTenureChange]
        exact hhash.resolve_left hne
      obtain ⟨hof, hprevious, -⟩ := hchange payload hpayload
      rw [hof.startsNewTenure]
      by_contra hcause
      apply hne
      rw [← hof.tenure, ← hof.extends_iff.2 hcause, hprevious]
    · intro hstarts hsame
      obtain ⟨payload, hpayload⟩ := Option.isSome_iff_exists.1
        (block.tenureChangePayload_isSome_of_startsNewTenure hstarts)
      obtain ⟨hof, hprevious, -⟩ := hchange payload hpayload
      apply hof.extends_iff.1 _ (hof.startsNewTenure.1 hstarts)
      rw [hprevious, hof.tenure, hsame]
  refine ⟨hlength, hchanges, fun hstarts => ?_, rfl⟩
  obtain ⟨payload, hpayload⟩ := Option.isSome_iff_exists.1
    (block.tenureChangePayload_isSome_of_startsNewTenure hstarts)
  obtain ⟨hof, hprevious, start, hstart, hone, hle, hcount⟩ := hchange payload hpayload
  refine ⟨payload, hpayload, hof.startsNewTenure.1 hstarts, hprevious, hof.tenure, ?_⟩
  have hlast : (before ++ [parent]).getLast? = some parent := getLast?_concat
  obtain ⟨front, first, rest, hcut⟩ := hlawful.lastTenure hlast
  have hfirst := (hrecorded.lastTenure hcut).1 hstart
  have hsucc := saturatingAdd_eq_succ hlength (by have := hsmall hstarts; omega)
  have hparent := hcut.chainLength (by have := hsmall hstarts; omega)
  rw [hcut.length_eq hlast]
  omega

theorem StartsRecorded.next {ledger' : ChainLedger} (hlawful : Lawful (before ++ [parent]))
    (h : StartsRecorded ledger (before ++ [parent])) {placed : PlacedBlock}
    (hnext : PlacedBlock.Next before parent placed)
    (hheights : ∀ tenure, ledger'.tenureStartHeights.get tenure =
      if placed.block.startsNewTenure = true ∧ tenure = placed.tenureHeight then
        some placed.block.header.chainLength
      else ledger.tenureStartHeights.get tenure) :
    StartsRecorded ledger' (before ++ [parent] ++ [placed]) := by
  intro tenure start
  rw [hheights]
  by_cases hnew : placed.block.startsNewTenure = true ∧ tenure = placed.tenureHeight
  · obtain ⟨hstarts, rfl⟩ := hnew
    -- no block before is in the tenure that starts here
    have hle : ∀ other ∈ before ++ [parent], other.tenureHeight ≤ parent.tenureHeight :=
      fun other => hlawful.tenureHeight_le getLast?_concat
    have hheight := hnext.tenureHeight
    rw [tenureAfter, if_pos hstarts] at hheight
    rw [if_pos ⟨hstarts, rfl⟩, Option.some.injEq]
    simp only [mem_append, mem_singleton] at hle ⊢
    grind
  · rw [if_neg hnew, h tenure start]
    simp only [mem_append, mem_singleton]
    grind

end Step

/-! ## The history behind a checkpoint -/

/-- The blocks that follow a tenure height, placed. -/
def place (tenureHeight : Nat) : List NakamotoBlock → List PlacedBlock
  | [] => []
  | block :: rest =>
    ⟨block, tenureAfter tenureHeight block⟩ :: place (tenureAfter tenureHeight block) rest

/-- A history, its first block placed in a given tenure. -/
def placeHistory (tenureHeight : Nat) : List CheckpointHistoryBlock → List PlacedBlock
  | [] => []
  | first :: rest => ⟨first.block, tenureHeight⟩ :: place tenureHeight (rest.map (·.block))

/-- Every block of a history under another consensus hash than the one before carries a tenure
change. The law asks that of the history's own blocks too. -/
def ChangesCarried (history : List CheckpointHistoryBlock) : Prop :=
  history.IsChain fun previous next =>
    next.block.header.consensusHash = previous.block.header.consensusHash ∨
      next.block.transactions.any (·.isTenureChange) = true

section History

variable {C : Crypto} {E : Clarity} {env : BitcoinBlockContext → BlockEnv} {world : World E.State}

/-- What a cursor has read so far, placed. -/
structure HistoryCursor.Reads (C : Crypto) (cursor : HistoryCursor) (chain : List PlacedBlock)
    (last : PlacedBlock) : Prop where
  lawful : Lawful chain
  starts : StartsRecorded cursor.ledger chain
  executed : cursor.ledger.executed = chain.map (·.executed C)
  last_eq : chain.getLast? = some last
  tenureHeight : cursor.tenureHeight = last.tenureHeight

variable {cursor : HistoryCursor} {entry : CheckpointHistoryBlock}

theorem HistoryCursor.Reads.first {accounting : TenureAccounting} {height : Nat}
    {parentProof : Bytes 80}
    (h : Accepted C ⟨height, .fresh accounting, parentProof⟩ true entry cursor)
    (hstarts : entry.block.startsNewTenure = true) :
    cursor.Reads C [⟨entry.block, height⟩] ⟨entry.block, height⟩ := by
  refine ⟨.first hstarts, fun tenure start => ?_, by rw [h.executed]; rfl, rfl, h.tenureHeight⟩
  rw [h.heights, if_pos hstarts, OrdMap.get_insert]
  simp only [ChainLedger.fresh, OrdMap.get_empty, mem_singleton, exists_eq_left, hstarts, true_and]
  by_cases htenure : tenure = height
  · simp [htenure]
  · simp [htenure, Ne.symm htenure]

theorem HistoryCursor.Reads.next {cursor' : HistoryCursor} {chain : List PlacedBlock}
    {last : PlacedBlock} (h : cursor.Reads C chain last)
    (haccepted : Accepted C ⟨tenureAfter cursor.tenureHeight entry.block, cursor.ledger,
      cursor.parentProof⟩ false entry cursor')
    (hparent : entry.block.header.parentBlockId = last.block.blockId C)
    (hlength : entry.block.header.chainLength = saturatingAdd last.block.header.chainLength 1)
    (hhash : entry.block.header.consensusHash = last.consensusHash ∨
      entry.block.transactions.any (·.isTenureChange) = true) :
    cursor'.Reads C (chain ++ [⟨entry.block, tenureAfter last.tenureHeight entry.block⟩])
      ⟨entry.block, tenureAfter last.tenureHeight entry.block⟩ := by
  obtain ⟨before, rfl⟩ := getLast?_eq_some_iff.1 h.last_eq
  obtain ⟨network, hauthentic⟩ := haccepted.authenticated
  have hexecuted : cursor.ledger.executed.getLast? = some (last.executed C) := by
    rw [h.executed, map_append, map_singleton, getLast?_concat]
  have hnext : PlacedBlock.Next before last
      ⟨entry.block, tenureAfter last.tenureHeight entry.block⟩ :=
    .of_checks h.lawful h.starts hexecuted hauthentic (hparent ▸ haccepted.continuity rfl) hlength
      hhash haccepted.chainLength
  refine ⟨.next h.lawful hnext, h.starts.next h.lawful hnext fun tenure => ?_, ?_,
    getLast?_concat, ?_⟩
  · rw [haccepted.heights, h.tenureHeight]
    by_cases hstarts : entry.block.startsNewTenure = true
    · simp [hstarts]
    · simp [hstarts]
  · rw [haccepted.executed, h.executed, h.tenureHeight]
    simp [PlacedBlock.executed]
  · rw [haccepted.tenureHeight, h.tenureHeight]

theorem HistoryCursor.Reads.rest {rest : List CheckpointHistoryBlock}
    {previous : CheckpointHistoryBlock} {cursor' : HistoryCursor} {chain : List PlacedBlock}
    {last : PlacedBlock} (h : cursor.Reads C chain last) (hprevious : last.block = previous.block)
    (hlinks : checkLinks C (previous :: rest) = .ok ())
    (hcarried : ChangesCarried (previous :: rest))
    (hrest : cursor.authenticateRest C E env world rest = .ok cursor') :
    ∃ last', cursor'.Reads C (chain ++ place last.tenureHeight (rest.map (·.block))) last' := by
  induction rest generalizing previous cursor chain last with
  | nil =>
    obtain rfl := Except.ok.inj hrest
    exact ⟨last, by simpa [place] using h⟩
  | cons entry rest ih =>
    simp only [authenticateRest, bind_eq_ok] at hrest
    obtain ⟨advanced, hadvance, accepted, haccepted, hrest⟩ := hrest
    rw [advance_eq_ok hadvance] at haccepted
    simp only [checkLinks, bind_eq_ok, ensure_eq_ok] at hlinks
    obtain ⟨-, hparent, -, hlength, hlinks⟩ := hlinks
    rw [ChangesCarried, isChain_cons_cons] at hcarried
    rw [← hprevious] at hparent hlength hcarried
    have hreads := h.next (authenticateBlock_eq_ok haccepted) hparent hlength hcarried.1
    obtain ⟨last', hlast'⟩ := ih hreads rfl hlinks hcarried.2 hrest
    refine ⟨last', ?_⟩
    rw [append_assoc] at hlast'
    exact hlast'

end History

/-! ## Chains that are accepted -/

section Follows

variable {C : Crypto} {E : Clarity}

/-- The chains an executor accepts from a history on, with every chain it has stood on so far under
the block it ended in. A block is held to its parent's header, authenticated against the ledger and
committed; a retraction lands on a block whose ledger is stored, or gives nothing up. -/
inductive Follows (C : Crypto) (origin : ChainState E.State) (source : StacksBlockId)
    (history : List CheckpointHistoryBlock) :
    ChainState E.State → List PlacedBlock → List (StacksBlockId × List PlacedBlock) → Prop
  | adopted {root : Bytes 32} {boundary : CheckpointBoundaryProof} {state : ChainState E.State}
      {imported : SealedState E.State} {tenureHeight : Nat}
      (h : origin.authenticateCheckpointHistory C source root boundary history = .ok state)
      (himported : origin.vm.stateAt source = some imported)
      (htenure : ChainState.firstTenure imported.world.tenureHeight history = .ok tenureHeight) :
      Follows C origin source history state (placeHistory tenureHeight history)
        [(source, placeHistory tenureHeight history)]
  | accepted {state state' : ChainState E.State} {chain : List PlacedBlock}
      {log : List (StacksBlockId × List PlacedBlock)} {tip : PlacedBlock} {block : NakamotoBlock}
      {context : BitcoinBlockContext} {operations : List BitcoinOperation}
      {authenticated : AuthenticatedBlock} {registry : Option String} {built : Built E}
      {executed : ExecutedHeader}
      (follows : Follows C origin source history state chain log)
      (htip : chain.getLast? = some tip)
      (successor : block.validateSuccessor C tip.block.header = .ok ())
      (authenticates : state.authenticateNakamotoBlock C context operations
        (some (tip.block.blockId C)) block = .ok authenticated)
      (commits : state.commitAuthenticated C authenticated registry = (.ok built, state'))
      (noted : state'.ledger.executed.getLast? = some executed) :
      Follows C origin source history state' (chain ++ [⟨block, executed.tenureHeight⟩])
        (log ++ [(block.blockId C, chain ++ [⟨block, executed.tenureHeight⟩])])
  | stayed {state : ChainState E.State} {chain : List PlacedBlock}
      {log : List (StacksBlockId × List PlacedBlock)} (retraction : Retraction)
      (follows : Follows C origin source history state chain log)
      (nothing : (state.giveUp retraction).1.discarded = []) :
      Follows C origin source history (state.giveUp retraction).2 chain log
  | retracted {state : ChainState E.State} {chain kept : List PlacedBlock}
      {log : List (StacksBlockId × List PlacedBlock)} {block : StacksBlockId}
      (retraction : Retraction) (follows : Follows C origin source history state chain log)
      (resumes : (state.giveUp retraction).1.resumeFrom = some block)
      (stored : state.vm.hasRecordedLedger block = true) (landed : (block, kept) ∈ log) :
      Follows C origin source history (state.giveUp retraction).2 kept log

/-- A ledger that tells a chain: its newest blocks, and where its tenures start. -/
structure Recorded (H : Hashes) (ledger : ChainLedger) (chain : List PlacedBlock) : Prop where
  executed : ledger.executed = (chain.map (·.executed H)).rtake reorgReach
  starts : StartsRecorded ledger chain

/-- What every accepted chain keeps true. -/
structure TenureSound (C : Crypto) (state : ChainState E.State) (chain : List PlacedBlock)
    (log : List (StacksBlockId × List PlacedBlock)) : Prop where
  rows_nodup : (state.vm.rows.map (·.blockId)).Nodup
  rows : ∀ block ledger, ledgerAt state.vm.rows block = some ledger →
    ∃ kept, (block, kept) ∈ log ∧ Recorded C ledger kept
  log_nodup : (log.map (·.1)).Nodup
  entries : ∀ entry ∈ log, Lawful entry.2 ∧ ∃ last sealed, entry.2.getLast? = some last ∧
    last.block.blockId C = entry.1 ∧ state.vm.stateAt entry.1 = some sealed ∧
    last.tenureHeight = sealed.world.tenureHeight
  current : Recorded C state.ledger chain ∧ ∃ block, (block, chain) ∈ log

variable {origin state state' : ChainState E.State} {chain : List PlacedBlock}
  {log : List (StacksBlockId × List PlacedBlock)} {block : NakamotoBlock} {tip : PlacedBlock}

variable {authenticated : AuthenticatedBlock}

theorem ChainState.authenticateNakamotoBlock_eq_ok {context : BitcoinBlockContext}
    {operations : List BitcoinOperation} {parent : StacksBlockId}
    (h : state.authenticateNakamotoBlock C context operations (some parent) block
      = .ok authenticated) :
    authenticated = ⟨block, context, operations, some parent⟩ ∧
      authenticateBlock C block state.vm.network .present = .ok () ∧
      checkTenureContinuity state.ledger block (some parent) = .ok () := by
  simp only [authenticateNakamotoBlock, bind_eq_ok, return_eq_ok] at h
  obtain ⟨⟨⟩, hchecks, -, -, -, -, rfl⟩ := h
  simp only [checkBeforeExecuting, bind_eq_ok, mapError_eq_ok, Bool.false_eq_true, if_false] at hchecks
  obtain ⟨-, -, -, -, ⟨⟩, hauthentic, ⟨⟩, hcontinuity, -⟩ := hchecks
  exact ⟨rfl, hauthentic, hcontinuity⟩

variable {placed : PlacedBlock}

theorem StartsRecorded.get_insertNew {ledger : ChainLedger} {before : List PlacedBlock}
    {parent : PlacedBlock} (h : StartsRecorded ledger (before ++ [parent]))
    (hlawful : Lawful (before ++ [parent])) (hnext : PlacedBlock.Next before parent placed)
    (tenure : Nat) :
    (ledger.tenureStartHeights.insertNew placed.tenureHeight placed.block.header.chainLength).get
        tenure =
      if placed.block.startsNewTenure = true ∧ tenure = placed.tenureHeight then
        some placed.block.header.chainLength
      else ledger.tenureStartHeights.get tenure := by
  have hheight := hnext.tenureHeight
  have hunbound : ledger.tenureStartHeights.get placed.tenureHeight = none ↔
      placed.block.startsNewTenure = true := by
    unfold tenureAfter at hheight
    by_cases hstarts : placed.block.startsNewTenure = true
    · rw [if_pos hstarts] at hheight
      refine iff_of_true (Option.eq_none_iff_forall_not_mem.2 fun start hstart => ?_) hstarts
      obtain ⟨other, hmem, -, htenure, -⟩ := (h _ start).1 hstart
      have hle := hlawful.tenureHeight_le getLast?_concat hmem
      omega
    · rw [if_neg hstarts] at hheight
      refine iff_of_false (fun hnone => ?_) hstarts
      obtain ⟨front, first, rest, hcut⟩ := hlawful.lastTenure getLast?_concat
      rw [hheight, (h.lastTenure hcut).2 rfl] at hnone
      exact absurd hnone (Option.some_ne_none _)
  rw [OrdMap.get_insertNew]
  simp only [hunbound]

section

variable (h : TenureSound C state chain log)

include h

/-- What an accepted block was held to makes it follow the law, and the ledger records it. -/
theorem TenureSound.accept (htip : chain.getLast? = some tip)
    (successor : block.validateSuccessor C tip.block.header = .ok ())
    (hauthentic : authenticateBlock C block state.vm.network .present = .ok ())
    (hcontinuity : checkTenureContinuity state.ledger block (some (tip.block.blockId C)) = .ok ())
    (hblock : authenticated.block = block)
    (hparent : authenticated.parent = some (tip.block.blockId C))
    (hcommit : ChainState.Committed C state authenticated state') {executed : ExecutedHeader}
    (noted : state'.ledger.executed.getLast? = some executed) :
    Lawful (chain ++ [⟨block, executed.tenureHeight⟩]) ∧
      Recorded C state'.ledger (chain ++ [⟨block, executed.tenureHeight⟩]) := by
  subst hblock
  obtain ⟨-, hfresh, hsmall, world, height, built, hopen, hfollowed, hledger, hvm⟩ := hcommit
  obtain ⟨hrecorded, tipId, hentry⟩ := h.current
  obtain ⟨hlawful, last, sealed, hlast, hid, hsealed, htenure⟩ := h.entries _ hentry
  obtain rfl : tip = last := Option.some.inj (htip.symm.trans hlast)
  obtain ⟨before, rfl⟩ := getLast?_eq_some_iff.1 htip
  have hworld : world.tenureHeight = tip.tenureHeight := by
    rw [hparent, hid] at hopen
    rw [Vm.world_of_openBlock hsealed hopen, htenure]
  have hheight : executed.tenureHeight = tenureAfter tip.tenureHeight authenticated.block := by
    rw [hledger] at noted
    simp only [ChainLedger.rememberProof, ChainLedger.noted, ChainLedger.getLast?_pushExecuted,
      Option.some.injEq] at noted
    rw [← noted, hfollowed.tenureHeight, hworld]
  rw [NakamotoBlock.validateSuccessor_eq_ok] at successor
  obtain ⟨-, hlength, -, hhash⟩ := successor
  have hlastExecuted : state.ledger.executed.getLast? = some (tip.executed C) := by
    rw [hrecorded.executed, Suffix.getLast?_rtake _ (by decide), map_append, map_singleton,
      getLast?_concat]
  have hnext : PlacedBlock.Next before tip ⟨authenticated.block, executed.tenureHeight⟩ := by
    rw [hheight]
    exact .of_checks hlawful hrecorded.starts hlastExecuted hauthentic hcontinuity hlength hhash
      fun _ => hsmall
  obtain ⟨accounting, hbuilt, -⟩ := hfollowed.ledger_eq
  refine ⟨.next hlawful hnext, ?_, hrecorded.starts.next hlawful hnext fun tenure => ?_⟩
  · rw [hledger, hbuilt]
    simp only [ChainLedger.rememberProof, ChainLedger.noted, ChainLedger.pushExecuted]
    rw [hrecorded.executed, Suffix.rtake_append_rtake, hfollowed.tenureHeight, hworld, ← hheight]
    simp [PlacedBlock.executed]
  · rw [← hrecorded.starts.get_insertNew hlawful hnext, hledger, hbuilt, hheight, ← hworld,
      ← hfollowed.tenureHeight]
    rfl

variable {history : List CheckpointHistoryBlock} {source : StacksBlockId}

omit h in
theorem TenureSound.adopted (unused : origin.Unused) (hcarried : ChangesCarried history)
    (h : ChainState.Adopted C origin source history state) {imported : SealedState E.State}
    (himported : origin.vm.stateAt source = some imported) {tenureHeight : Nat}
    (htenure : ChainState.firstTenure imported.world.tenureHeight history = .ok tenureHeight) :
    TenureSound C state (placeHistory tenureHeight history)
      [(source, placeHistory tenureHeight history)] := by
  obtain ⟨hsource, hstarts, hlinks, first, rest, imported', height, parentProof, entered, cursor, rfl,
    himported', hfirst, hentered, hrest, hcursor, rfl⟩ := h
  obtain rfl : imported = imported' := Option.some.inj (himported.symm.trans himported')
  obtain rfl : tenureHeight = height := Except.ok.inj (htenure.symm.trans hfirst)
  have hentry : entered.Reads C [⟨first.block, tenureHeight⟩] ⟨first.block, tenureHeight⟩ :=
    .first hentered (hstarts first rfl)
  obtain ⟨last, hreads⟩ := hentry.rest rfl hlinks hcarried hrest
  have hreads : cursor.Reads C (placeHistory tenureHeight (first :: rest)) last := hreads
  have hlast : last.block.blockId C = source := by
    have hids := HistoryCursor.executed_history hentered hrest
    rw [hreads.executed, map_map] at hids
    have hends := congrArg getLast? hids
    rw [getLast?_map, hreads.last_eq, getLast?_map, hsource] at hends
    exact Option.some.inj hends
  refine ⟨by simp [adoptHistory, Vm.standOnTenureStarts, unused.rows], ?_, by simp, ?_,
    ⟨?_, fun tenure start => ?_⟩, source, mem_singleton_self _⟩
  · intro block ledger hrow
    simp [adoptHistory, Vm.standOnTenureStarts, unused.rows, ledgerAt] at hrow
  · intro entry hentry
    rw [mem_singleton.1 hentry]
    exact ⟨hreads.lawful, last, imported, hreads.last_eq, hlast, himported,
      hreads.tenureHeight.symm.trans hcursor⟩
  · simp only [adoptHistory]
    rw [hreads.executed]
  · simp only [adoptHistory]
    exact hreads.starts tenure start

theorem TenureSound.commit (hlawful : Lawful (chain ++ [placed]))
    (hrecorded : Recorded C state'.ledger (chain ++ [placed]))
    (hblock : authenticated.block = placed.block)
    (hcommit : ChainState.Committed C state authenticated state') :
    TenureSound C state' (chain ++ [placed])
      (log ++ [(placed.block.blockId C, chain ++ [placed])]) := by
  obtain ⟨-, hfresh, -, world, height, built, hopen, hfollowed, hledger, hvm⟩ := hcommit
  rw [hblock] at hfresh
  have hstates : state'.vm.states = state.vm.states ++
      [⟨placed.block.blockId C, authenticated.parent, height, built.world⟩] := by
    rw [hvm, hblock]
  have hheight : placed.tenureHeight = built.world.tenureHeight := by
    have hlast : state'.ledger.executed.getLast? = some (placed.executed C) := by
      rw [hrecorded.executed, Suffix.getLast?_rtake _ (by decide), map_append,
        map_singleton, getLast?_concat]
    rw [hledger] at hlast
    simp only [ChainLedger.rememberProof, ChainLedger.noted, ChainLedger.getLast?_pushExecuted,
      Option.some.injEq] at hlast
    exact (congrArg ExecutedHeader.tenureHeight hlast).symm
  refine ⟨?_, ?_, ?_, ?_, hrecorded, _, mem_append_right _ (mem_singleton_self _)⟩
  · rw [hvm]
    exact nodup_writeLedger h.rows_nodup _ _
  · intro block ledger hrow
    rw [hvm, hblock] at hrow
    rcases ledgerAt_writeLedger h.rows_nodup hrow with ⟨rfl, rfl⟩ | ⟨-, hrow⟩
    · exact ⟨chain ++ [placed], mem_append_right _ (mem_singleton_self _), hrecorded⟩
    · obtain ⟨kept, hkept, hrecords⟩ := h.rows block ledger hrow
      exact ⟨kept, mem_append_left _ hkept, hrecords⟩
  · rw [map_append, nodup_append]
    refine ⟨h.log_nodup, by simp, ?_⟩
    rintro block hmem _ hnew rfl
    rw [map_singleton, mem_singleton] at hnew
    obtain ⟨entry, hentry, rfl⟩ := mem_map.1 hmem
    obtain ⟨-, -, sealed, -, -, hsealed, -⟩ := h.entries entry hentry
    rw [hnew, hfresh] at hsealed
    exact absurd hsealed.symm (Option.some_ne_none sealed)
  · intro entry hentry
    rcases mem_append.1 hentry with hentry | hentry
    · obtain ⟨hlaw, last, sealed, hlast, hid, hsealed, htenure⟩ := h.entries entry hentry
      exact ⟨hlaw, last, sealed, hlast, hid, Vm.stateAt_concat hsealed _ hstates, htenure⟩
    · rw [mem_singleton.1 hentry]
      exact ⟨hlawful, placed, _, getLast?_concat, rfl,
        Vm.stateAt_concat_self hfresh _ hstates, hheight⟩

theorem TenureSound.retract {retraction : Retraction} {target : StacksBlockId}
    {kept : List PlacedBlock} (resumes : (state.giveUp retraction).1.resumeFrom = some target)
    (stored : state.vm.hasRecordedLedger target = true) (landed : (target, kept) ∈ log) :
    TenureSound C (state.giveUp retraction).2 kept log := by
  obtain ⟨ledger, hrow⟩ := Option.isSome_iff_exists.1 stored
  obtain ⟨hrows, hstates⟩ := state.giveUp_rows retraction
  refine ⟨hrows ▸ h.rows_nodup, hrows ▸ h.rows, h.log_nodup, fun entry hentry => ?_, ?_, target,
    landed⟩
  · obtain ⟨hlaw, last, sealed, hlast, hid, hsealed, htenure⟩ := h.entries entry hentry
    refine ⟨hlaw, last, sealed, hlast, hid, ?_, htenure⟩
    rw [Vm.stateAt, hstates]
    exact hsealed
  · -- whichever way it lands there, the log has one chain for the block
    have hsame : ∀ {chain' : List PlacedBlock}, (target, chain') ∈ log → chain' = kept := by
      intro chain' hmem
      exact congrArg Prod.snd (inj_on_of_nodup_map h.log_nodup hmem landed rfl)
    rcases giveUp_of_resume resumes hrow with ⟨hstate, hlast⟩ | hstate
    · obtain ⟨hrecorded, block, hentry⟩ := h.current
      obtain ⟨-, last, -, hend, hid, -⟩ := h.entries _ hentry
      have hblock : block = target := by
        rw [hrecorded.executed, Suffix.getLast?_rtake _ (by decide), getLast?_map, hend,
          Option.map_some, Option.map_some, Option.some.injEq] at hlast
        exact hid.symm.trans hlast
      rw [hstate, ← hsame (hblock ▸ hentry)]
      exact hrecorded
    · obtain ⟨chain', hmem, hrecords⟩ := h.rows target ledger hrow
      rw [hstate, ← hsame hmem]
      exact hrecords

end

theorem Follows.sound {source : StacksBlockId} {history : List CheckpointHistoryBlock}
    (unused : origin.Unused) (hcarried : ChangesCarried history)
    (follows : Follows C origin source history state chain log) : TenureSound C state chain log := by
  induction follows with
  | adopted h himported htenure =>
    exact .adopted unused hcarried (authenticateCheckpointHistory_eq_ok h) himported htenure
  | accepted _ htip successor authenticates commits noted ih =>
    obtain ⟨rfl, hauthentic, hcontinuity⟩ :=
      authenticateNakamotoBlock_eq_ok authenticates
    have hcommit := commitAuthenticated_eq_ok commits
    obtain ⟨hlawful, hrecorded⟩ :=
      ih.accept htip successor hauthentic hcontinuity rfl rfl hcommit noted
    have hsound := ih.commit hlawful hrecorded rfl hcommit
    exact hsound
  | stayed retraction _ nothing ih =>
    rw [giveUp_of_discarded_nil nothing]
    exact ih
  | retracted retraction _ resumes stored landed ih => exact ih.retract resumes stored landed

theorem Lawful.next_of_mem {chain : List PlacedBlock} (h : Lawful chain)
    {before after : List PlacedBlock} {parent : PlacedBlock}
    (hchain : chain = before ++ parent :: placed :: after) : PlacedBlock.Next before parent placed := by
  induction h generalizing after with
  | first starts =>
    have hlength := congrArg length hchain
    rw [length_append, length_cons, length_cons, length_cons, length_nil] at hlength
    omega
  | @next front oldParent newest lawful next ih =>
    rcases after.eq_nil_or_concat with rfl | ⟨rest, last, rfl⟩
    · have hsplit : front ++ [oldParent] ++ [newest] = before ++ [parent] ++ [placed] := by
        rw [hchain, append_assoc]
        rfl
      obtain ⟨hfront, hnewest⟩ := append_inj' hsplit rfl
      obtain ⟨rfl, hparent⟩ := append_inj' hfront rfl
      obtain rfl : oldParent = parent := singleton_inj.1 hparent
      obtain rfl : newest = placed := singleton_inj.1 hnewest
      exact next
    · have hsplit : front ++ [oldParent] ++ [newest] = (before ++ parent :: placed :: rest) ++ [last] := by
        rw [hchain, append_assoc, concat_eq_append]
        rfl
      exact ih (append_inj' hsplit rfl).1

/-- Every two neighbours of an accepted chain follow the law of tenures, and the ledger records the
newest of its blocks and where each of its tenures starts. -/
theorem tenure_law (unused : origin.Unused) {source : StacksBlockId}
    {history : List CheckpointHistoryBlock} (hcarried : ChangesCarried history)
    (follows : Follows C origin source history state chain log) :
    (∀ before parent placed after, chain = before ++ parent :: placed :: after →
      PlacedBlock.Next before parent placed) ∧ Recorded C state.ledger chain := by
  have hsound := follows.sound unused hcarried
  obtain ⟨hrecorded, block, hentry⟩ := hsound.current
  exact ⟨fun _ _ _ _ hchain => (hsound.entries _ hentry).1.next_of_mem hchain, hrecorded⟩

end Follows

/-! ## Two short chains -/

theorem plainAdopt_follows {source : StacksBlockId} {height nonce tenureHeight : Nat} {blocks : List NakamotoBlock}
    (h : (plainHistory (plainImported source height nonce) source blocks).toOption.isSome = true)
    (htenure : ChainState.firstTenure 1 (plainEntries blocks) = .ok tenureHeight) :
    Follows (E := plainClarity) plainCrypto (plainImported source height nonce) source
      (plainEntries blocks) (plainAdopt (plainImported source height nonce) source blocks)
      (placeHistory tenureHeight (plainEntries blocks))
      [(source, placeHistory tenureHeight (plainEntries blocks))] := by
  have himported : (plainImported source height nonce).vm.stateAt source
      = some ⟨source, none, height, ⟨1, fun _ => nonce, plainClarity.genesis⟩⟩ := by
    simp [plainImported, Vm.stateAt]
  exact .adopted (plainAdopt_eq h) himported htenure

theorem plainCommit_follows {source : StacksBlockId} {history : List CheckpointHistoryBlock}
    {origin state : PlainChain} {log : List (StacksBlockId × List PlacedBlock)} {tip : PlacedBlock}
    {block : NakamotoBlock} {executed : ExecutedHeader}
    (follows : Follows (E := plainClarity) plainCrypto origin source history state chain log)
    (htip : chain.getLast? = some tip)
    (successor : block.validateSuccessor plainCrypto tip.block.header = .ok ())
    (authenticates : (ChainState.authenticateNakamotoBlock plainCrypto (E := plainClarity) state
      plainContext [] (some (tip.block.blockId plainCrypto)) block).toOption.isSome = true)
    (commits : (ChainState.commitAuthenticated plainCrypto (E := plainClarity) state
      (plainAuthenticated block) none).1.toOption.isSome = true)
    (noted : (plainCommit state block).ledger.executed.getLast? = some executed) :
    Follows (E := plainClarity) plainCrypto origin source history (plainCommit state block)
      (chain ++ [⟨block, executed.tenureHeight⟩])
      (log ++ [(block.blockId plainCrypto, chain ++ [⟨block, executed.tenureHeight⟩])]) := by
  obtain ⟨authenticated, hauthenticated⟩ := Option.isSome_iff_exists.1 authenticates
  have hauthentic := toOption_eq_some.1 hauthenticated
  obtain ⟨built, hbuilt⟩ := plainCommit_eq commits
  obtain ⟨rfl, -⟩ := authenticateNakamotoBlock_eq_ok hauthentic
  rw [NakamotoBlock.validateSuccessor_eq_ok] at successor
  have hparent : plainAuthenticated block = ⟨block, plainContext, [],
      some (tip.block.blockId plainCrypto)⟩ := by
    rw [plainAuthenticated, successor.1]
    rfl
  rw [hparent] at hbuilt
  exact .accepted follows htip ((NakamotoBlock.validateSuccessor_eq_ok _ _).2 successor) hauthentic
    hbuilt noted

/-! The tenure after two that a history announces. -/

def nextId : StacksBlockId := nextTenure.blockId plainCrypto

def afterNext : NakamotoBlock := plainBlock nextId 12 3 0 (plainStart nextId 2 3 1 2)

def announced : List CheckpointHistoryBlock := plainEntries [tenureFirst, nextTenure]

def adoptedNext : PlainChain :=
  plainAdopt (plainImported nextId 11 2) nextId [tenureFirst, nextTenure]

theorem afterNext_follows :
    ∃ log, Follows (E := plainClarity) plainCrypto (plainImported nextId 11 2) nextId announced
      (plainCommit adoptedNext afterNext) ([⟨tenureFirst, 0⟩, ⟨nextTenure, 1⟩] ++ [⟨afterNext, 2⟩]) log := by
  have htenure : firstTenure 1 announced = .ok 0 := by decide +kernel
  have hnoted : (plainCommit adoptedNext afterNext).ledger.executed.getLast?
      = some ⟨afterNext.blockId plainCrypto, plainTenure 3, 2⟩ := by decide +kernel
  exact ⟨_, plainCommit_follows (by exact plainAdopt_follows (by decide +kernel) htenure) rfl
    (by decide +kernel) (by decide +kernel) (by decide +kernel) hnoted⟩

/-- The law at the start of the third tenure. -/
theorem tenure_law_next :
    ChangesCarried announced ∧ PlacedBlock.Next [⟨tenureFirst, 0⟩] ⟨nextTenure, 1⟩ ⟨afterNext, 2⟩ ∧
      afterNext.startsNewTenure = true := by
  have hcarried : ChangesCarried announced := .cons_cons (.inr (by decide +kernel)) (.singleton _)
  obtain ⟨log, hfollows⟩ := afterNext_follows
  exact ⟨hcarried, (tenure_law ⟨rfl, rfl, rfl⟩ hcarried hfollows).1 [⟨tenureFirst, 0⟩] _ _ [] rfl,
    by decide +kernel⟩

/-! A history whose second block is under another consensus hash, with no tenure change to say so. -/

def unannounced : NakamotoBlock := plainBlock firstId 11 2 0 [plainTransfer 7 0]

def unannouncedId : StacksBlockId := unannounced.blockId plainCrypto

def afterUnannounced : NakamotoBlock :=
  plainBlock unannouncedId 12 3 0 (plainStart unannouncedId 2 3 2 2)

def adoptedUnannounced : PlainChain :=
  plainAdopt (plainImported unannouncedId 11 2) unannouncedId [tenureFirst, unannounced]

/-- The tenure that follows reports two blocks of a tenure of one, and is accepted. -/
theorem unannounced_tenure_miscounted :
    ∃ log, Follows (E := plainClarity) plainCrypto (plainImported unannouncedId 11 2) unannouncedId
        (plainEntries [tenureFirst, unannounced]) (plainCommit adoptedUnannounced afterUnannounced)
        ([⟨tenureFirst, 1⟩, ⟨unannounced, 1⟩] ++ [⟨afterUnannounced, 2⟩]) log ∧
      afterUnannounced.tenureChangePayload.map (·.previousTenureBlocks) = some 2 ∧
      tenureBlocks [⟨tenureFirst, 1⟩, ⟨unannounced, 1⟩] = 1 ∧
      unannounced.header.consensusHash ≠ tenureFirst.header.consensusHash ∧
      unannounced.startsNewTenure = false := by
  have htenure : firstTenure 1 (plainEntries [tenureFirst, unannounced]) = .ok 1 := by
    decide +kernel
  have hnoted : (plainCommit adoptedUnannounced afterUnannounced).ledger.executed.getLast?
      = some ⟨afterUnannounced.blockId plainCrypto, plainTenure 3, 2⟩ := by decide +kernel
  exact ⟨_, plainCommit_follows (by exact plainAdopt_follows (by decide +kernel) htenure) rfl
    (by decide +kernel) (by decide +kernel) (by decide +kernel) hnoted, by decide +kernel⟩

end NanoStacks.Chain
