import NanoStacks.Chain.Nonces

/-!
# Blocks that are assembled

A miner fills a block from candidates: each is run on the state the block has built so far, and stays
if it can run and fits the block's budget. A follower runs the transactions the block then carries.

A candidate that cannot run is rolled back. One that runs but overruns the budget is left out of the
block after it ran: its effects and its cost stay. `assembly_agrees` says that a follower reaches what
the miner reached as long as the loop over the candidates never meets one, and that it never does
otherwise; `overrun_leaves_trace` is a block that no follower accepts.
-/

namespace NanoStacks.Chain

open Bitcoin Result List Transaction NakamotoBlock ChainState Except

variable (C : Crypto) (E : Clarity)

/-- Whether the loop over the candidates ends for want of candidates, and not over the budget. -/
def fitsBudget (env : BlockEnv) : ExecutionCost → World E.State → List Transaction → Bool
  | _, _, [] => true
  | cost, world, candidate :: rest =>
    if C.verifyAuthorization candidate then
      match candidate.execute C E env cost world with
      | .error _ => fitsBudget env cost world rest
      | .ok (receipt, executed) =>
        match cost.add receipt.result.cost with
        | none => false
        | some total => !total.exceeds epoch4BlockLimit && fitsBudget env total executed rest
    else fitsBudget env cost world rest

/-- A transaction that starts a tenure. -/
def Transaction.startsTenure (transaction : Transaction) : Bool :=
  transaction.tenureChange?.any (·.cause == .blockFound)

theorem Transaction.startsTenure_of_user {transaction : Transaction}
    (h : transaction.isSystem = false) : transaction.startsTenure = false := by
  have hchange : transaction.isTenureChange = false := by
    rw [isSystem, Bool.or_eq_false_iff] at h
    exact h.2
  have hnone : transaction.tenureChange? = none := by simpa [isTenureChange] using hchange
  rw [startsTenure, hnone]
  rfl

/-- The same execution as a follower does it: no candidates, and held to the header's root. -/
def BlockExecution.following (execution : BlockExecution) : BlockExecution :=
  { execution with
    root := .verify
    candidates := []
    authentication := .authenticated
    persistence := .discard }

section Candidates

variable {C E} {env : BlockEnv} {height : Nat} {cost : ExecutionCost} {world : World E.State}
  {candidates : List Transaction}

theorem runBlockTransactions_append {first second : List Transaction} {cost' cost'' : ExecutionCost}
    {receipts receipts' : List E.Receipt} {world' world'' : World E.State}
    (h : runBlockTransactions C E env height cost world first = .ok (cost', receipts, world'))
    (h' : runBlockTransactions C E env height cost' world' second
      = .ok (cost'', receipts', world'')) :
    runBlockTransactions C E env height cost world (first ++ second)
      = .ok (cost'', receipts ++ receipts', world'') := by
  induction first generalizing cost world receipts with
  | nil =>
    cases h
    exact h'
  | cons transaction rest ih =>
    simp only [runBlockTransactions, bind_eq_ok, return_eq_ok, Prod.mk.injEq] at h
    obtain ⟨_, hverified, ⟨receipt, executed⟩, hexecuted, total, htotal, ⟨_, tail, _⟩, hrest, rfl,
      rfl, rfl⟩ := h
    simp only [cons_append, runBlockTransactions, bind_eq_ok, return_eq_ok, Prod.mk.injEq]
    exact ⟨_, hverified, (receipt, executed), hexecuted, total, htotal, _, ih hrest, rfl, rfl, rfl⟩

theorem runBlockTransactions_cons {transaction : Transaction} {rest : List Transaction}
    {receipt : E.Receipt} {executed world' : World E.State} {total cost' : ExecutionCost}
    {receipts : List E.Receipt} (hverified : C.verifyAuthorization transaction = true)
    (hexecuted : transaction.execute C E env cost world = .ok (receipt, executed))
    (htotal : cost.add receipt.result.cost = some total)
    (h : runBlockTransactions C E env height total executed rest = .ok (cost', receipts, world')) :
    runBlockTransactions C E env height cost world (transaction :: rest)
      = .ok (cost', receipt :: receipts, world') := by
  simp only [runBlockTransactions, hverified, ensure_of_true, ok_bind, hexecuted, Except.mapError,
    htotal, okOr_some, h, pure_eq_ok]

/-- The ways of the loop over the candidates, with whether it ends within the budget. -/
inductive Admits (C : Crypto) (E : Clarity) (env : BlockEnv) :
    ExecutionCost → World E.State → List Transaction → Admitted E → Bool → Prop
  | done {cost : ExecutionCost} {world : World E.State} :
      Admits C E env cost world [] ⟨[], [], cost, world⟩ true
  | passed {cost : ExecutionCost} {world : World E.State} {candidate : Transaction}
      {rest : List Transaction} {admitted : Admitted E} {fits : Bool}
      (admits : Admits C E env cost world rest admitted fits) :
      Admits C E env cost world (candidate :: rest) admitted fits
  | overran {cost cost' : ExecutionCost} {world executed : World E.State} {candidate : Transaction}
      {rest : List Transaction} {receipt : E.Receipt}
      (executes : candidate.execute C E env cost world = .ok (receipt, executed)) :
      Admits C E env cost world (candidate :: rest) ⟨[], [], cost', executed⟩ false
  | admitted {cost total : ExecutionCost} {world executed : World E.State} {candidate : Transaction}
      {rest : List Transaction} {receipt : E.Receipt} {admitted : Admitted E} {fits : Bool}
      (verified : C.verifyAuthorization candidate = true)
      (executes : candidate.execute C E env cost world = .ok (receipt, executed))
      (added : cost.add receipt.result.cost = some total)
      (admits : Admits C E env total executed rest admitted fits) :
      Admits C E env cost world (candidate :: rest)
        ⟨candidate :: admitted.transactions, receipt :: admitted.receipts, admitted.cost,
          admitted.world⟩ fits

theorem admitEach_admits (cost : ExecutionCost) (world : World E.State)
    (candidates : List Transaction) :
    Admits C E env cost world candidates (admitEach C E env cost world candidates)
      (fitsBudget C E env cost world candidates) := by
  induction candidates generalizing cost world with
  | nil => exact .done
  | cons candidate rest ih =>
    simp only [fitsBudget, admitEach]
    by_cases hverified : C.verifyAuthorization candidate = true
    · simp only [hverified, if_true]
      cases hexecuted : candidate.execute C E env cost world with
      | error error => exact .passed (ih cost world)
      | ok result =>
        obtain ⟨receipt, executed⟩ := result
        cases htotal : cost.add receipt.result.cost with
        | none =>
          simp only [htotal]
          exact .overran hexecuted
        | some total =>
          by_cases hexceeds : total.exceeds epoch4BlockLimit = true
          · simp only [htotal, hexceeds, if_true, Bool.not_true, Bool.false_and]
            exact .overran hexecuted
          · simp only [htotal, hexceeds, Bool.false_eq_true, if_false, Bool.not_false, Bool.true_and]
            exact .admitted hverified hexecuted htotal (ih total executed)
    · simp only [hverified, Bool.false_eq_true, if_false]
      exact .passed (ih cost world)

variable {admitted : Admitted E} {fits : Bool}

section

variable (h : Admits C E env cost world candidates admitted fits)

include h

theorem Admits.subset : ∀ transaction ∈ admitted.transactions, transaction ∈ candidates := by
  induction h with
  | done => simp
  | passed _ ih => exact fun transaction hmem => mem_cons_of_mem _ (ih transaction hmem)
  | overran => simp
  | admitted _ _ _ _ ih =>
    intro transaction hmem
    rcases mem_cons.1 hmem with rfl | hmem
    · exact mem_cons_self
    · exact mem_cons_of_mem _ (ih transaction hmem)

theorem Admits.runs_again (hfits : fits = true) :
    runBlockTransactions C E env height cost world admitted.transactions
      = .ok (admitted.cost, admitted.receipts, admitted.world) := by
  induction h with
  | done => rfl
  | passed _ ih => exact ih hfits
  | overran => exact absurd hfits Bool.false_ne_true
  | admitted verified executes added _ ih =>
    exact runBlockTransactions_cons verified executes added (ih hfits)

/-- A user's transaction that overran the budget has moved its sender's nonce, and running the block
again does not. -/
theorem Admits.overrun (height : Nat)
    (husers : ∀ candidate ∈ candidates, candidate.isSystem = false) (hfits : fits = false) :
    ∃ cost' receipts world',
      runBlockTransactions C E env height cost world admitted.transactions
        = .ok (cost', receipts, world') ∧ world'.nonce ≠ admitted.world.nonce := by
  induction h with
  | done => exact absurd hfits.symm Bool.false_ne_true
  | passed _ ih =>
    rw [forall_mem_cons] at husers
    exact ih husers.2 hfits
  | @overran cost cost' world executed candidate rest receipt executes =>
    refine ⟨cost, [], world, rfl, fun hsame => ?_⟩
    have huser := husers candidate mem_cons_self
    cases (execute_eq_ok executes).1 with
    | system hsystem _ => exact absurd (huser.symm.trans hsystem) Bool.false_ne_true
    | user _ origin payer after =>
      have hmoved := congrFun (after.trans (nextNonces_eq_countUp origin payer)) candidate.sender
      rw [← hsame] at hmoved
      simp [countUp, touches] at hmoved
  | admitted verified executes added _ ih =>
    rw [forall_mem_cons] at husers
    obtain ⟨cost', receipts, world', hrun, hne⟩ := ih husers.2 hfits
    exact ⟨cost', _, world', runBlockTransactions_cons verified executes added hrun, hne⟩

end

end Candidates

/-! ## The two halves of a block -/

section Halves

variable {C E} {env : BlockEnv} {ledger : ChainLedger} {block : NakamotoBlock}
  {execution : BlockExecution} {world : World E.State} {built : Built E}

theorem buildBlock_eq_ok : buildBlock C E env ledger block execution world = .ok built ↔
    ∃ checked, (if !execution.root.assembles && execution.authentication.checksSignerSignatures then
      checkSignerSignatures C E env block world else .ok ()) = .ok checked ∧
    ∃ setup, E.setupBlockMetadata env block.header.timestamp world = .ok setup ∧
    ∃ start, applyTenureStart E env execution.operations block execution.effects ledger
        (world.withState setup) = .ok start ∧
    ∃ signed, updateSignerSet E env start.world = .ok signed ∧
    ∃ payout, waterfallPayout E env signed.1 execution.waterfallRegistry signed.2 = .ok payout ∧
    ∃ ran, runTransactions C E env block execution.candidates execution.root.assembles signed.2
        = .ok ran ∧
      finishBlock C E env execution.root start signed.1 payout ran.1 ran.2.1 ran.2.2.1 ran.2.2.2
        = .ok built := by
  simp only [buildBlock, bind_eq_ok]

variable {start : TenureStart E} {cost : ExecutionCost} {receipts : List E.Receipt}

variable {rewardSet : Option E.RewardSet}

variable {payout : Option PoxAddress}

theorem finishBlock_nonce {root : RootPolicy}
    (h : finishBlock C E env root start rewardSet payout block cost receipts world = .ok built) :
    built.world.nonce = world.nonce := by
  simp only [finishBlock, bind_eq_ok, return_eq_ok] at h
  obtain ⟨credited, hcredited, ⟨⟨_, _⟩, unlocked⟩, hunlocked, ⟨_, minted⟩, hminted, -, -, -, -, rfl⟩ := h
  exact (((applyCredits_keeps hcredited).trans (finalizeScheduledUnlocks_keeps hunlocked)).trans
    (mintSip031_keeps hminted)).nonce

theorem finish_congr (C : Crypto) (env : BlockEnv) {other : NakamotoBlock}
    (h : other.transactions = block.transactions) (receipts : List E.Receipt)
    (world : World E.State) :
    other.fees = block.fees ∧
      finalizeScheduledUnlocks E env other receipts world
        = finalizeScheduledUnlocks E env block receipts world ∧
      ∀ receipts world, mintSip031 C E env other receipts world
        = mintSip031 C E env block receipts world := by
  refine ⟨?_, ?_, fun receipts world => ?_⟩
  · rw [fees, fees, h]
  · simp only [finalizeScheduledUnlocks, attachUnlockEvents, h]
  · have hstarts : other.startsNewTenure = block.startsNewTenure := by
      rw [startsNewTenure, startsNewTenure, h]
    have hcoinbase : other.tenureCoinbase = block.tenureCoinbase := by
      rw [tenureCoinbase, tenureCoinbase, h]
    rw [mintSip031, mintSip031, hstarts, hcoinbase]

theorem finishBlock_again {minerKey : Bytes 32}
    (h : finishBlock C E env (.mine minerKey) start rewardSet payout block cost receipts world
      = .ok built) :
    built.block.transactions = block.transactions ∧
    built.block.header.timestamp = block.header.timestamp ∧
    built.block.header.chainLength = block.header.chainLength ∧
    E.pendingStateRoot env built.world = built.block.header.stateIndexRoot ∧
    finishBlock C E env .verify start rewardSet payout built.block cost receipts world
      = .ok built := by
  simp only [finishBlock, bind_eq_ok, return_eq_ok] at h
  obtain ⟨credited, hcredited, ⟨⟨reported, events⟩, unlocked⟩, hunlocked, ⟨minting, minted⟩, hminted,
    settled, hsettled, commitment, hcommitment, rfl⟩ := h
  simp only [settleStateRoot, ok.injEq] at hsettled
  have htransactions : settled.transactions = block.transactions := by rw [← hsettled]
  have hroot : E.pendingStateRoot env minted = settled.header.stateIndexRoot := by rw [← hsettled]
  refine ⟨htransactions, by rw [← hsettled], by rw [← hsettled], hroot, ?_⟩
  obtain ⟨hfees, hfinalize, hmint⟩ :=
    finish_congr C env htransactions receipts credited
  simp only [finishBlock, bind_eq_ok, return_eq_ok]
  refine ⟨credited, hcredited, ((reported, events), unlocked), ?_, (minting, minted), ?_, settled, ?_,
    commitment, hcommitment, ?_⟩
  · rw [hfinalize, hunlocked]
  · rw [hmint, hminted]
  · rw [settleStateRoot, if_pos hroot]
  · rw [hfees]

variable {filled : NakamotoBlock} {more : List Transaction}

section

variable (htransactions : filled.transactions = block.transactions ++ more)

include htransactions

theorem fromTenureStart_append {coinbase : Nat} {parses : ParsesContract}
    {earnings : TenureEarnings}
    (h : TenureEarnings.fromTenureStart parses block coinbase = some earnings) :
    TenureEarnings.fromTenureStart parses filled coinbase = some earnings := by
  cases hcoinbase : block.tenureCoinbase with
  | none => simp [TenureEarnings.fromTenureStart, hcoinbase] at h
  | some transaction =>
    have hfilled : filled.tenureCoinbase = some transaction := by
      rw [tenureCoinbase] at hcoinbase ⊢
      rw [htransactions, find?_append, hcoinbase]
      rfl
    rw [TenureEarnings.fromTenureStart, hcoinbase] at h
    rw [TenureEarnings.fromTenureStart, hfilled]
    exact h

variable {operations : List BitcoinOperation}

theorem startTenure_append {started : NativeBlockEffects × ChainLedger × World E.State}
    (h : startTenure E env operations block ledger world = .ok started) :
    startTenure E env operations filled ledger world = .ok started := by
  simp only [startTenure, bind_eq_ok] at h ⊢
  obtain ⟨_, hnext, state, hstate, accounting, haccounting, hrest⟩ := h
  refine ⟨_, hnext, state, hstate, accounting, ?_, hrest⟩
  cases hschedule : ledger.accounting.schedule with
  | none =>
    rw [hschedule] at haccounting
    exact haccounting
  | some schedule =>
    simp only [hschedule, bind_eq_ok, okOr_eq_ok] at haccounting ⊢
    obtain ⟨earnings, hearnings, hrecord⟩ := haccounting
    exact ⟨earnings, fromTenureStart_append htransactions hearnings, hrecord⟩

theorem applyTenureStart_append {effects : NativeBlockEffects}
    (hstarts : block.startsNewTenure = true ∨ ∀ candidate ∈ more, candidate.startsTenure = false)
    (h : applyTenureStart E env operations block effects ledger world = .ok start) :
    applyTenureStart E env operations filled effects ledger world = .ok start := by
  have hsame : filled.startsNewTenure = block.startsNewTenure := by
    rw [startsNewTenure, htransactions, any_append]
    rcases hstarts with hblock | hnone
    · rw [startsNewTenure] at hblock ⊢
      rw [hblock, Bool.true_or]
    · have hmore : (more.any fun transaction =>
          transaction.tenureChange?.any (·.cause == .blockFound)) = false := by
        rw [any_eq_false]
        intro candidate hcandidate
        simpa [startsTenure] using hnone candidate hcandidate
      rw [hmore, Bool.or_false]
      rfl
  unfold applyTenureStart at h ⊢
  rw [hsame]
  split_ifs at h ⊢
  · simp only [bind_eq_ok] at h ⊢
    obtain ⟨started, hstarted, hrest⟩ := h
    exact ⟨started, startTenure_append htransactions hstarted, hrest⟩
  · exact h

end

theorem runTransactions_eq_ok {candidates : List Transaction} {assembled : Bool}
    {ran : World E.State} (h : runTransactions C E env block candidates assembled world
      = .ok (filled, cost, receipts, ran)) :
    ∃ cost' receipts' world', runBlockTransactions C E env block.header.chainLength .zero world
        block.transactions = .ok (cost', receipts', world') ∧
      ∃ admitted, Admits C E env cost' world' candidates admitted
          (fitsBudget C E env cost' world' candidates) ∧
        filled.transactions = block.transactions ++ admitted.transactions ∧
        filled.header.timestamp = block.header.timestamp ∧
        filled.header.chainLength = block.header.chainLength ∧
        cost = admitted.cost ∧ receipts = receipts' ++ admitted.receipts ∧ ran = admitted.world := by
  simp only [runTransactions, bind_eq_ok, return_eq_ok] at h
  obtain ⟨⟨cost', receipts', world'⟩, hrun, -, -, hfilled⟩ := h
  refine ⟨cost', receipts', world', hrun, _, admitEach_admits cost' world' candidates, ?_⟩
  unfold admitCandidates at hfilled
  split_ifs at hfilled with hnone
  · cases hfilled
    simp [hnone, admitEach]
  · cases hfilled
    exact ⟨rfl, rfl, rfl, rfl, rfl, rfl⟩

theorem runTransactions_following {ran : World E.State} :
    runTransactions C E env block [] false world = .ok (block, cost, receipts, ran) ↔
      runBlockTransactions C E env block.header.chainLength .zero world block.transactions
        = .ok (cost, receipts, ran) := by
  simp [runTransactions, admitCandidates]

end Halves

/-! ## Miner and follower -/

namespace ChainState

variable {E} (state : ChainState E.State)

/-- Whether the candidates of a block fit its budget, run on the state its own transactions leave. -/
def candidatesFit (block : NakamotoBlock) (execution : BlockExecution) : Bool :=
  let env := state.blockEnv execution
  let ran := do
    let (world, _) ← state.vm.openBlock E.genesis execution.parent
    let start ← openTransactions E env execution.operations execution.effects state.ledger block world
    runBlockTransactions C E env block.header.chainLength .zero start block.transactions
  match ran with
  | .error _ => true
  | .ok (cost, _, world) => fitsBudget C E env cost world execution.candidates

/-- A follower on the same parent reaches what the miner reached. -/
def FollowsTo (execution : BlockExecution) (built : Built E) : Prop :=
  ∃ followed, (state.executeNakamotoBlock C built.block execution.following).1 = .ok followed ∧
    E.pendingStateRoot (state.blockEnv execution) followed.world
      = built.block.header.stateIndexRoot ∧
    followed.receipts = built.receipts ∧ followed.cost = built.cost ∧ followed.world = built.world

variable {C state} {block : NakamotoBlock} {execution : BlockExecution} {built : Built E}

theorem sealBlock_built {height : Nat} {sealed : Built E}
    (h : (state.sealBlock C execution height built).1 = .ok sealed) : built = sealed := by
  unfold sealBlock at h
  split at h
  · simp at h
  · dsimp only at h
    split at h
    · simp at h
    · exact ok.inj h

theorem executeNakamotoBlock_built
    (h : (state.executeNakamotoBlock C block execution).1 = .ok built) :
    ∃ world height, state.vm.openBlock E.genesis execution.parent = .ok (world, height) ∧
      buildBlock C E (state.blockEnv execution) state.ledger block execution world = .ok built := by
  simp only [executeNakamotoBlock] at h
  split at h
  · simp at h
  · rename_i result height hresult
    simp only [bind_eq_ok, return_eq_ok, Prod.mk.injEq] at hresult
    obtain ⟨-, -, ⟨world, _⟩, hopen, _, hbuild, rfl, rfl⟩ := hresult
    refine ⟨world, _, hopen, ?_⟩
    rw [hbuild, ok.injEq]
    split at h
    · exact ok.inj h
    · exact sealBlock_built h

theorem executeNakamotoBlock_following {world : World E.State} {height : Nat}
    (hopen : state.vm.openBlock E.genesis execution.parent = .ok (world, height)) :
    (state.executeNakamotoBlock C block execution.following).1 =
      buildBlock C E (state.blockEnv execution) state.ledger block execution.following world := by
  simp only [executeNakamotoBlock, BlockExecution.following,
    BlockAuthentication.checksBeforeExecution, Bool.false_eq_true, if_false, hopen, ok_bind,
    blockEnv]
  cases buildBlock C E _ state.ledger block _ world with
  | error error => rfl
  | ok built => rfl

end ChainState

section Agreement

variable {C E} {state : ChainState E.State} {block : NakamotoBlock} {execution : BlockExecution}
  {built : Built E} {minerKey : Bytes 32}

/-- A follower meets what the miner met up to the first transaction. From there on it runs the block's
own transactions and those admitted: to the same end if every candidate that ran was admitted, to other
nonces if a user's was not. -/
theorem buildBlock_following {env : BlockEnv} {ledger : ChainLedger} {world : World E.State}
    (hmine : execution.root = .mine minerKey) (hstarts : block.startsNewTenure = true ∨
      ∀ candidate ∈ execution.candidates, candidate.startsTenure = false)
    (h : buildBlock C E env ledger block execution world = .ok built) :
    E.pendingStateRoot env built.world = built.block.header.stateIndexRoot ∧
    ∃ start cost receipts ran,
      openTransactions E env execution.operations execution.effects ledger block world = .ok start ∧
      runBlockTransactions C E env block.header.chainLength .zero start block.transactions
        = .ok (cost, receipts, ran) ∧
      (fitsBudget C E env cost ran execution.candidates = true →
        buildBlock C E env ledger built.block execution.following world = .ok built) ∧
      ((∀ candidate ∈ execution.candidates, candidate.isSystem = false) →
        fitsBudget C E env cost ran execution.candidates = false →
        ∀ followed, buildBlock C E env ledger built.block execution.following world = .ok followed →
          followed.world ≠ built.world) := by
  obtain ⟨-, -, setup, hsetup, start, hstart, ⟨rewardSet, signed⟩, hsigned, payout, hpayout,
    ⟨filled, cost, receipts, ran⟩, hrun, hfinish⟩ := buildBlock_eq_ok.1 h
  rw [hmine] at hfinish
  obtain ⟨htransactions, htimestamp, hlength, hroot, hagain⟩ := finishBlock_again hfinish
  obtain ⟨cost', receipts', world', hown, admitted, hadmits, hfilled, hstamp, hheight, rfl, rfl,
    rfl⟩ := runTransactions_eq_ok hrun
  rw [hfilled] at htransactions
  have hstart' : applyTenureStart E env execution.operations built.block execution.effects ledger
      (world.withState setup) = .ok start :=
    applyTenureStart_append htransactions
      (hstarts.imp_right fun hnone transaction hmem => hnone transaction (hadmits.subset _ hmem)) hstart
  have hopened : openTransactions E env execution.operations execution.effects ledger block world
      = .ok signed := by
    simp only [openTransactions, bind_eq_ok, return_eq_ok]
    exact ⟨setup, hsetup, start, hstart, _, hsigned, rfl⟩
  rw [← hstamp, ← htimestamp] at hsetup
  -- the run of the block as it left the miner, from the run of what was admitted
  have hwhole : ∀ {cost receipts ran},
      runBlockTransactions C E env block.header.chainLength cost' world' admitted.transactions
        = .ok (cost, receipts, ran) →
      runTransactions C E env built.block [] false signed
        = .ok (built.block, cost, receipts' ++ receipts, ran) := by
    intro cost receipts ran hrest
    rw [runTransactions_following, htransactions, hlength, hheight]
    exact runBlockTransactions_append hown hrest
  refine ⟨hroot, signed, cost', receipts', world', hopened, hown, fun hfits => ?_,
    fun husers hover followed hfollowed hsame => ?_⟩
  · rw [hfits] at hadmits
    exact buildBlock_eq_ok.2 ⟨(), rfl, setup, hsetup, start, hstart', _, hsigned, payout, hpayout, _,
      hwhole (hadmits.runs_again rfl), hagain⟩
  · rw [hover] at hadmits
    obtain ⟨cost'', receipts'', world'', hrest, hne⟩ :=
      hadmits.overrun block.header.chainLength husers rfl
    obtain ⟨-, -, setup', hsetup', start', hstarted', signed', hsigned', _, -, ran', hrun', hfinish'⟩ :=
      buildBlock_eq_ok.1 hfollowed
    obtain rfl : setup' = setup := ok.inj (hsetup'.symm.trans hsetup)
    obtain rfl : start' = start := ok.inj (hstarted'.symm.trans hstart')
    obtain rfl : signed' = (rewardSet, signed) := ok.inj (hsigned'.symm.trans hsigned)
    obtain rfl := ok.inj (hrun'.symm.trans (hwhole hrest))
    apply hne
    rw [← finishBlock_nonce hfinish', hsame, finishBlock_nonce hfinish]

/-- A follower of an assembled block reaches the miner's root, receipts, cost and state if every
candidate that could run fitted the budget; and if the candidates are users' transactions, only
then. -/
theorem assembly_agrees (hmine : execution.root = .mine minerKey)
    (h : (state.executeNakamotoBlock C block execution).1 = .ok built) :
    ((block.startsNewTenure = true ∨
        ∀ candidate ∈ execution.candidates, candidate.startsTenure = false) →
      state.candidatesFit C block execution = true → state.FollowsTo C execution built) ∧
    ((∀ candidate ∈ execution.candidates, candidate.isSystem = false) →
      (state.FollowsTo C execution built ↔ state.candidatesFit C block execution = true)) := by
  obtain ⟨world, height, hopen, hbuild⟩ := executeNakamotoBlock_built h
  have hagrees : (block.startsNewTenure = true ∨
        ∀ candidate ∈ execution.candidates, candidate.startsTenure = false) →
      (state.candidatesFit C block execution = true → state.FollowsTo C execution built) ∧
      ((∀ candidate ∈ execution.candidates, candidate.isSystem = false) →
        state.FollowsTo C execution built → state.candidatesFit C block execution = true) := by
    intro hstarts
    obtain ⟨hroot, start, cost, receipts, ran, hopened, hown, hfits, hover⟩ :=
      buildBlock_following hmine hstarts hbuild
    have hfit : state.candidatesFit C block execution
        = fitsBudget C E (state.blockEnv execution) cost ran execution.candidates := by
      simp only [candidatesFit, hopen, ok_bind, hopened, hown]
    rw [hfit]
    refine ⟨fun hfit => ⟨built, ?_, hroot, rfl, rfl, rfl⟩, fun husers hfollows => ?_⟩
    · rw [executeNakamotoBlock_following hopen]
      exact hfits hfit
    · obtain ⟨followed, hfollowed, -, -, -, hsame⟩ := hfollows
      rw [executeNakamotoBlock_following hopen] at hfollowed
      by_contra hunfit
      exact hover husers (Bool.eq_false_iff.2 hunfit) followed hfollowed hsame
  refine ⟨fun hstarts => (hagrees hstarts).1, fun husers => ?_⟩
  have hstarts : ∀ candidate ∈ execution.candidates, candidate.startsTenure = false :=
    fun candidate hmem => startsTenure_of_user (husers candidate hmem)
  exact ⟨(hagrees (.inr hstarts)).2 husers, (hagrees (.inr hstarts)).1⟩

end Agreement

/-! An empty block on the first of a tenure, filled from a transfer that fits, and from a call after
it that does not. -/

def template : NakamotoBlock := plainBlock firstId 11 1 0 []

def filling (candidates : List Transaction) : BlockExecution where
  context := plainContext
  waterfallRegistry := none
  operations := []
  parent := some firstId
  root := .mine (Bytes.zero 32)
  effects := ⟨[], 0⟩
  candidates := candidates
  authentication := .required
  persistence := .discard

def building (block : NakamotoBlock) (execution : BlockExecution) :
    Except ChainStateError (Built plainClarity) :=
  (executeNakamotoBlock plainCrypto (E := plainClarity) adoptedFirst block execution).1

theorem assembly_agrees_fitting :
    ∃ built, building template (filling [plainTransfer 7 2]) = .ok built ∧
      ChainState.FollowsTo plainCrypto (E := plainClarity) adoptedFirst
        (filling [plainTransfer 7 2]) built := by
  obtain ⟨built, hbuilt⟩ := Option.isSome_iff_exists.1
    (show (building template (filling [plainTransfer 7 2])).toOption.isSome = true by decide +kernel)
  have hmined := toOption_eq_some.1 hbuilt
  exact ⟨built, hmined, (assembly_agrees rfl hmined).1 (.inr (by decide +kernel)) (by decide +kernel)⟩

def failingCall : Transaction :=
  { plainTransaction 3 8 2 (.contractCall ⟨26, Bytes.zero 20, StacksAddress.single_le false⟩ "pool" "pay" []) with
    auth := .standard (.singlesig .p2pkh (Bytes.replicate 20 8) 2 1) }

def overrunning : BlockExecution := filling [plainTransfer 7 2, failingCall]

/-- The block carries the transfer alone, under the root and at the cost of both, and no follower
accepts it. -/
theorem overrun_leaves_trace :
    ∃ built, building template overrunning = .ok built ∧
      built.block.transactions = [plainTransfer 7 2] ∧ built.cost.runtime = 6000000000 ∧
      (building built.block overrunning.following).toOption.isSome = false := by
  obtain ⟨built, hbuilt⟩ := Option.isSome_iff_exists.1
    (show (building template overrunning).toOption.isSome = true by decide +kernel)
  have hfacts : (building template overrunning).toOption.map (fun built =>
      (built.block.transactions, built.cost.runtime,
        (building built.block overrunning.following).toOption.isSome))
      = some ([plainTransfer 7 2], 6000000000, false) := by decide +kernel
  rw [hbuilt, Option.map_some, Option.some.injEq, Prod.mk.injEq, Prod.mk.injEq] at hfacts
  exact ⟨built, toOption_eq_some.1 hbuilt, hfacts⟩

end NanoStacks.Chain
