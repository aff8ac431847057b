import NanoStacks.Chain.Retract

/-!
# Nonces along a chain

Every transaction names the nonce of its account, and executing it moves the account on to the next.
For a user's transaction the two are compared first. For a coinbase and a tenure change they are not:
the account is set to one past whatever the transaction names, and a sponsor is not looked at.

`nonces_in_turn` is about every chain of sealed blocks: its transactions run in turn exactly when
those of the blocks' own do (`systemInTurn`), counted from the state of each block's parent, and then
no nonce ever falls and no transaction runs twice.
-/

namespace NanoStacks.Chain

open Result List ChainState

/-! ## Traces of nonces -/

/-- A transaction with the nonces right before and right after it. -/
structure NonceStep where
  transaction : Transaction
  before : Principal → Nat
  after : Principal → Nat

/-- The accounts of the transaction stood at the nonces it names, and have moved on by one. -/
structure NonceStep.InTurn (step : NonceStep) : Prop where
  before : step.before step.transaction.sender = step.transaction.auth.origin.nonce
  after : step.after step.transaction.sender = step.transaction.auth.origin.nonce + 1
  sponsor : ∀ sponsor ∈ step.transaction.sponsor, sponsor ≠ step.transaction.sender →
    step.before sponsor = step.transaction.auth.payer.nonce ∧
      step.after sponsor = step.transaction.auth.payer.nonce + 1

variable (C : Crypto) (E : Clarity)

/-- The nonces around every transaction of a block, as `runBlockTransactions` meets them. -/
def traceTransactions (env : BlockEnv) :
    ExecutionCost → World E.State → List Transaction → List NonceStep
  | _, _, [] => []
  | cost, world, transaction :: rest =>
    match transaction.execute C E env cost world with
    | .error _ => []
    | .ok (receipt, executed) =>
      ⟨transaction, world.nonce, executed.nonce⟩ ::
        match cost.add receipt.result.cost with
        | none => []
        | some cost => traceTransactions env cost executed rest

/-- Steps that follow each other, each as the engine moves nonces. -/
inductive Traces : (Principal → Nat) → List NonceStep → (Principal → Nat) → Prop
  | nil {nonce : Principal → Nat} : Traces nonce [] nonce
  | cons {transaction : Transaction} {before after nonce : Principal → Nat} {rest : List NonceStep}
      (moved : transaction.Moved before after) (traces : Traces after rest nonce) :
      Traces before (⟨transaction, before, after⟩ :: rest) nonce

theorem Traces.append {first second : List NonceStep} {nonce nonce' nonce'' : Principal → Nat}
    (h : Traces nonce first nonce') (h' : Traces nonce' second nonce'') :
    Traces nonce (first ++ second) nonce'' := by
  induction h with
  | nil => exact h'
  | cons moved _ ih => exact .cons moved (ih h')

variable {C E} in
theorem runBlockTransactions_traces {env : BlockEnv} {height : Nat} {cost cost' : ExecutionCost}
    {world world' : World E.State} {receipts : List E.Receipt} {transactions : List Transaction}
    (h : runBlockTransactions C E env height cost world transactions
      = .ok (cost', receipts, world')) :
    Traces world.nonce (traceTransactions C E env cost world transactions) world'.nonce ∧
      (traceTransactions C E env cost world transactions).map (·.transaction) = transactions := by
  induction transactions generalizing cost cost' world receipts with
  | nil =>
    simp only [runBlockTransactions, Except.ok.injEq, Prod.mk.injEq] at h
    rw [h.2.2]
    exact ⟨.nil, rfl⟩
  | cons transaction rest ih =>
    simp only [runBlockTransactions, bind_eq_ok, mapError_eq_ok, okOr_eq_ok] at h
    obtain ⟨-, -, ⟨receipt, executed⟩, hexecute, cost, hcost, ⟨_, _, last⟩, hrest, ⟨⟩⟩ := h
    obtain ⟨htraces, hmap⟩ := ih hrest
    simp only [traceTransactions, hexecute, hcost, map_cons, hmap, and_true]
    exact .cons (Transaction.execute_eq_ok hexecute).1 htraces

/-! ## Counting up -/

/-- Whether a transaction is sent or sponsored by an account. -/
def Transaction.touches (transaction : Transaction) (account : Principal) : Bool :=
  transaction.sender = account || transaction.sponsor = some account

/-- The nonces once every account of a transaction has moved on by one. -/
def Transaction.countUp (transaction : Transaction) (nonce : Principal → Nat) : Principal → Nat :=
  fun account => if transaction.touches account then nonce account + 1 else nonce account

/-- Every coinbase and tenure change of a block names the nonce its sender has when the transactions
before it are counted, and is not sponsored by another account. -/
def systemInTurn : (Principal → Nat) → List Transaction → Bool
  | _, [] => true
  | nonce, transaction :: rest =>
    (!transaction.isSystem || (transaction.sponsor.all (· = transaction.sender) &&
      nonce transaction.sender = transaction.auth.origin.nonce)) &&
      systemInTurn (transaction.countUp nonce) rest

namespace Transaction

variable {transaction : Transaction} {before after : Principal → Nat}

theorem le_countUp (transaction : Transaction) (nonce : Principal → Nat) (account : Principal) :
    nonce account ≤ transaction.countUp nonce account := by
  unfold countUp
  split_ifs
  · exact Nat.le_succ _
  · exact le_rfl

theorem payer_of_sponsor {sponsor : Principal} (h : transaction.sponsor = some sponsor) :
    transaction.payer = sponsor := by
  rw [payer, h]
  rfl

theorem nextNonces_eq_countUp (horigin : before transaction.sender = transaction.auth.origin.nonce)
    (hpayer : before transaction.payer = transaction.auth.payer.nonce) :
    transaction.nextNonces before = transaction.countUp before := by
  funext account
  unfold nextNonces countUp touches
  rw [← horigin, ← hpayer]
  cases hsponsor : transaction.sponsor with
  | none =>
    by_cases hsender : transaction.sender = account
    · subst hsender
      simp
    · simp [hsender, Function.update_of_ne (Ne.symm hsender)]
  | some sponsor =>
    rw [payer_of_sponsor hsponsor]
    by_cases hpays : sponsor = account
    · subst hpays
      simp
    · by_cases hsender : transaction.sender = account
      · subst hsender
        simp [Function.update_of_ne (Ne.symm hpays)]
      · simp [hsender, hpays, Function.update_of_ne (Ne.symm hpays),
          Function.update_of_ne (Ne.symm hsender)]

/-- A user's transaction always runs in turn; a block's own does if it names its nonce and nobody else
sponsors it. -/
theorem Moved.inTurn_iff (hmoved : transaction.Moved before after) :
    (⟨transaction, before, after⟩ : NonceStep).InTurn ↔ (transaction.isSystem = true →
      (∀ sponsor ∈ transaction.sponsor, sponsor = transaction.sender) ∧
        before transaction.sender = transaction.auth.origin.nonce) := by
  cases hmoved with
  | user huser origin payer hafter =>
    refine iff_of_true ?_ fun hsystem => absurd (huser.symm.trans hsystem) Bool.false_ne_true
    rw [nextNonces_eq_countUp origin payer] at hafter
    refine ⟨origin, ?_, fun sponsor hsponsor _ => ?_⟩
    · rw [← origin, hafter]
      simp [countUp, touches]
    · rw [Option.mem_def] at hsponsor
      rw [payer_of_sponsor hsponsor] at payer
      refine ⟨payer, ?_⟩
      rw [← payer, hafter]
      simp [countUp, touches, hsponsor]
  | system hsystem hafter =>
    constructor
    · intro h _
      refine ⟨fun sponsor hsponsor => ?_, h.before⟩
      -- another account's nonce would have to move, and only the sender's does
      by_contra hother
      obtain ⟨hbefore, hmoved⟩ := h.sponsor sponsor hsponsor hother
      have hkept : after sponsor = before sponsor := by
        rw [hafter, Function.update_of_ne hother]
      exact absurd (hmoved.symm.trans (hkept.trans hbefore)) (Nat.succ_ne_self _)
    · intro h
      obtain ⟨hself, hbefore⟩ := h hsystem
      have hmoved : after transaction.sender = transaction.auth.origin.nonce + 1 := by
        rw [hafter, Function.update_self]
      exact ⟨hbefore, hmoved, fun sponsor hsponsor hother => absurd (hself sponsor hsponsor) hother⟩

theorem Moved.after_eq (hmoved : transaction.Moved before after)
    (h : (⟨transaction, before, after⟩ : NonceStep).InTurn) : after = transaction.countUp before := by
  have hsystem := hmoved.inTurn_iff.1 h
  cases hmoved with
  | user _ origin payer hafter =>
    rw [hafter]
    exact nextNonces_eq_countUp origin payer
  | system hown hafter =>
    obtain ⟨hself, hbefore⟩ := hsystem hown
    rw [hafter, ← hbefore]
    funext account
    unfold countUp touches
    by_cases hsender : transaction.sender = account
    · subst hsender
      simp
    · have hsponsor : transaction.sponsor ≠ some account := fun hsome =>
        hsender (hself account hsome).symm
      simp [hsender, hsponsor, Function.update_of_ne (Ne.symm hsender)]

end Transaction

/-! ## Traces in turn -/

namespace Traces

variable {trace : List NonceStep} {nonce nonce' : Principal → Nat}

section

variable (h : Traces nonce trace nonce')

include h

theorem inTurn_iff :
    (∀ step ∈ trace, step.InTurn) ↔ systemInTurn nonce (trace.map (·.transaction)) = true := by
  induction h with
  | nil => simp [systemInTurn]
  | @cons transaction before after nonce rest moved traces ih =>
    rw [forall_mem_cons, map_cons, systemInTurn, Bool.and_eq_true]
    have hhead : (⟨transaction, before, after⟩ : NonceStep).InTurn ↔
        (!transaction.isSystem || (transaction.sponsor.all (· = transaction.sender) &&
          before transaction.sender = transaction.auth.origin.nonce)) = true := by
      rw [moved.inTurn_iff]
      cases transaction.isSystem <;> simp [Option.all_eq_true]
    rw [← hhead]
    refine and_congr_right fun hturn => ?_
    rw [ih, moved.after_eq hturn]

theorem le_of_inTurn (hturn : ∀ step ∈ trace, step.InTurn) :
    (∀ step ∈ trace, ∀ account, nonce account ≤ step.before account ∧
      step.before account ≤ step.after account) ∧
    trace.Pairwise (fun earlier later => ∀ account, earlier.after account ≤ later.before account) ∧
      ∀ account, nonce account ≤ nonce' account := by
  induction h with
  | nil => simp
  | @cons transaction before after nonce rest moved traces ih =>
    rw [forall_mem_cons] at hturn
    obtain ⟨hsteps, hpairwise, hlast⟩ := ih hturn.2
    have hfirst : ∀ account, before account ≤ after account := by
      intro account
      rw [moved.after_eq hturn.1]
      exact transaction.le_countUp before account
    refine ⟨?_, ?_, fun account => (hfirst account).trans (hlast account)⟩
    · rw [forall_mem_cons]
      refine ⟨fun account => ⟨le_rfl, hfirst account⟩, fun step hstep account => ?_⟩
      obtain ⟨hbefore, hafter⟩ := hsteps step hstep account
      exact ⟨(hfirst account).trans hbefore, hafter⟩
    · rw [pairwise_cons]
      exact ⟨fun step hstep account => (hsteps step hstep account).1, hpairwise⟩

/-- No transaction runs twice: its sender has moved past the nonce it names. -/
theorem nodup_of_inTurn (hturn : ∀ step ∈ trace, step.InTurn) :
    (trace.map (·.transaction)).Nodup := by
  have hpairwise := (h.le_of_inTurn hturn).2.1
  rw [List.Nodup, pairwise_map]
  refine hpairwise.imp_of_mem fun {earlier later} hearlier hlater hle hsame => ?_
  have hafter := (hturn earlier hearlier).after
  have hbefore := (hturn later hlater).before
  have hsender := hle earlier.transaction.sender
  rw [← hsame] at hbefore
  omega

end

end Traces

/-! ## Chains of sealed blocks -/

/-- A block that was committed, with the chain it was committed to. -/
structure CommitStep where
  state : ChainState E.State
  authenticated : AuthenticatedBlock
  registry : Option String

namespace CommitStep

variable {E} (commit : CommitStep E)

def transactions : List Transaction := commit.authenticated.block.transactions

/-- The state of the parent. -/
def opened : Except ChainStateError (World E.State × Nat) :=
  commit.state.vm.openBlock E.genesis commit.authenticated.parent

def env : BlockEnv := commit.state.blockEnv (commit.authenticated.execution commit.registry)

/-- The nonces around each of the block's transactions. -/
def trace : List NonceStep :=
  let start := do
    let (world, _) ← commit.opened
    openTransactions E commit.env commit.authenticated.operations ⟨[], 0⟩ commit.state.ledger
      commit.authenticated.block world
  match start with
  | .error _ => []
  | .ok world => traceTransactions C E commit.env .zero world commit.transactions

/-- The block's own transactions are in turn, counted from the state of its parent. -/
def ownInTurn : Bool :=
  match commit.opened with
  | .error _ => false
  | .ok (world, _) => systemInTurn world.nonce commit.transactions

end CommitStep

/-- The nonces around every transaction of a chain. -/
def nonceTrace {E : Clarity} (chain : List (CommitStep E)) : List NonceStep :=
  chain.flatMap (·.trace C)

/-- The chain of a parent: empty if the parent was there before the first block. -/
def chainOf {E : Clarity} (log : List (StacksBlockId × List (CommitStep E)))
    (parent : Option StacksBlockId) : List (CommitStep E) :=
  match parent.bind fun block => log.find? (·.1 = block) with
  | some entry => entry.2
  | none => []

variable {C E}

/-- The runs of a chain: blocks are sealed or refused, and blocks are given up. With them goes the
chain of every block that was sealed. -/
inductive Sealing (C : Crypto) (origin : ChainState E.State) :
    ChainState E.State → List (StacksBlockId × List (CommitStep E)) → Prop
  | start : Sealing C origin origin []
  | sealed {state state' : ChainState E.State} {log : List (StacksBlockId × List (CommitStep E))}
      {authenticated : AuthenticatedBlock} {registry : Option String} {built : Built E}
      (sealing : Sealing C origin state log)
      (h : state.commitAuthenticated C authenticated registry = (.ok built, state')) :
      Sealing C origin state' (log ++ [(authenticated.block.blockId C,
        chainOf log authenticated.parent ++ [⟨state, authenticated, registry⟩])])
  | refused {state state' : ChainState E.State} {log : List (StacksBlockId × List (CommitStep E))}
      {authenticated : AuthenticatedBlock} {registry : Option String} {error : ChainStateError}
      (sealing : Sealing C origin state log)
      (h : state.commitAuthenticated C authenticated registry = (.error error, state')) :
      Sealing C origin state' log
  | retracted {state : ChainState E.State} {log : List (StacksBlockId × List (CommitStep E))}
      (retraction : Retraction) (sealing : Sealing C origin state log) :
      Sealing C origin (state.giveUp retraction).2 log

/-- The commits of a chain, each opened on the nonces the one before left. -/
inductive ChainTraces (C : Crypto) {E : Clarity} :
    (Principal → Nat) → List (CommitStep E) → (Principal → Nat) → Prop
  | nil {nonce : Principal → Nat} : ChainTraces C nonce [] nonce
  | concat {nonce nonce' : Principal → Nat} {chain : List (CommitStep E)} {commit : CommitStep E}
      {world : World E.State} {height : Nat} (traces : ChainTraces C nonce chain world.nonce)
      (opened : commit.opened = .ok (world, height))
      (trace : Traces world.nonce (commit.trace C) nonce')
      (listed : (commit.trace C).map (·.transaction) = commit.transactions) :
      ChainTraces C nonce (chain ++ [commit]) nonce'

namespace ChainTraces

variable {chain : List (CommitStep E)} {nonce nonce' : Principal → Nat}

theorem traces (h : ChainTraces C nonce chain nonce') :
    Traces nonce (nonceTrace C chain) nonce' ∧
      (nonceTrace C chain).map (·.transaction) = chain.flatMap (·.transactions) := by
  induction h with
  | nil => exact ⟨.nil, rfl⟩
  | concat traces opened trace listed ih =>
    unfold nonceTrace at ih ⊢
    rw [flatMap_append, flatMap_singleton, flatMap_append, flatMap_singleton,
      map_append, ih.2, listed]
    exact ⟨ih.1.append trace, rfl⟩

theorem inTurn_iff (h : ChainTraces C nonce chain nonce') :
    (∀ step ∈ nonceTrace C chain, step.InTurn) ↔ ∀ commit ∈ chain, commit.ownInTurn = true := by
  induction h with
  | nil => simp [nonceTrace]
  | @concat nonce' chain commit world height traces opened trace listed ih =>
    unfold nonceTrace at ih ⊢
    rw [flatMap_append, flatMap_singleton, forall_mem_append, forall_mem_append,
      ih, trace.inTurn_iff, listed]
    simp [CommitStep.ownInTurn, opened]

end ChainTraces

variable {authenticated : AuthenticatedBlock}

theorem ChainState.commitAuthenticated_error {state state' : ChainState E.State}
    {registry : Option String} {error : ChainStateError}
    (h : state.commitAuthenticated C authenticated registry = (.error error, state')) :
    state'.vm.states = state.vm.states := by
  unfold commitAuthenticated at h
  split_ifs at h with hparent
  · simp only [executeNakamotoBlock, AuthenticatedBlock.execution] at h
    split at h
    · rw [← (Prod.mk.inj h).2]
    · simp only [sealBlock] at h
      split at h
      · rw [← (Prod.mk.inj h).2]
      · split at h
        · rename_i hrefused
          rw [← (Prod.mk.inj h).2]
          exact Vm.commitBlock_eq_error hrefused
        · simp at h
  · rw [← (Prod.mk.inj h).2]

variable {origin state state' : ChainState E.State}
  {log : List (StacksBlockId × List (CommitStep E))}

/-- The nonces of a sealed state are those its chain of blocks has led to. -/
def ChainsTraced (C : Crypto) (state : ChainState E.State)
    (log : List (StacksBlockId × List (CommitStep E))) : Prop :=
  ∀ entry ∈ log, ∃ sealed nonce, state.vm.stateAt entry.1 = some sealed ∧
    ChainTraces C nonce entry.2 sealed.world.nonce

section

variable (h : ChainsTraced C state log)

include h

theorem ChainsTraced.of_states (hstates : state'.vm.states = state.vm.states) :
    ChainsTraced C state' log := by
  intro entry hentry
  obtain ⟨sealed, nonce, hsealed, htraces⟩ := h entry hentry
  refine ⟨sealed, nonce, ?_, htraces⟩
  rw [Vm.stateAt, hstates]
  exact hsealed

theorem ChainsTraced.chainOf {parent : Option StacksBlockId} {world : World E.State} {height : Nat}
    (hopen : state.vm.openBlock E.genesis parent = .ok (world, height)) :
    ∃ nonce, ChainTraces C nonce (Chain.chainOf log parent) world.nonce := by
  cases parent with
  | none => exact ⟨world.nonce, .nil⟩
  | some block =>
    unfold Chain.chainOf
    simp only [Option.bind_some]
    split
    · rename_i entry hfind
      obtain ⟨sealed, nonce, hsealed, htraces⟩ := h entry (mem_of_find?_eq_some hfind)
      have hblock : entry.1 = block := by simpa using find?_some hfind
      exact ⟨nonce, Vm.world_of_openBlock hsealed (hblock ▸ hopen) ▸ htraces⟩
    · exact ⟨world.nonce, .nil⟩

theorem ChainsTraced.commit (registry : Option String)
    (hcommit : ChainState.Committed C state authenticated state') :
    ChainsTraced C state' (log ++ [(authenticated.block.blockId C,
      Chain.chainOf log authenticated.parent ++ [⟨state, authenticated, registry⟩])]) := by
  obtain ⟨-, hfresh, -, world, height, built, hopen, hfollowed, -, hvm⟩ := hcommit
  have hstates : state'.vm.states = state.vm.states ++
      [⟨authenticated.block.blockId C, authenticated.parent, height, built.world⟩] := by
    rw [hvm]
  obtain ⟨start, finish, cost, receipts, hstart, hbefore, hafter, hrun⟩ := hfollowed.ran
  obtain ⟨htraces, hlisted⟩ := runBlockTransactions_traces hrun
  intro entry hentry
  rcases mem_append.1 hentry with hentry | hentry
  · obtain ⟨sealed, nonce, hsealed, hchain⟩ := h entry hentry
    exact ⟨sealed, nonce, Vm.stateAt_concat hsealed _ hstates, hchain⟩
  · rw [mem_singleton.1 hentry]
    obtain ⟨nonce, hchain⟩ := h.chainOf hopen
    have htrace : (⟨state, authenticated, registry⟩ : CommitStep E).trace C
        = traceTransactions C E ⟨state.vm.network, authenticated.parent, authenticated.context,
          state.vm.tenureStarts⟩ .zero start authenticated.block.transactions := by
      simp only [CommitStep.trace, CommitStep.opened, CommitStep.env, hopen, ok_bind,
        blockEnv, AuthenticatedBlock.execution, hstart]
      rfl
    refine ⟨_, nonce, Vm.stateAt_concat_self hfresh _ hstates, .concat hchain hopen ?_ ?_⟩
    · rw [htrace, ← hbefore, ← hafter]
      exact htraces
    · rw [htrace]
      exact hlisted

end

theorem Sealing.traced (sealing : Sealing C origin state log) : ChainsTraced C state log := by
  induction sealing with
  | start => exact fun entry hentry => absurd hentry not_mem_nil
  | sealed _ h ih => exact ih.commit _ (commitAuthenticated_eq_ok h)
  | refused _ h ih => exact ih.of_states (commitAuthenticated_error h)
  | retracted retraction _ ih => exact ih.of_states (giveUp_rows _ retraction).2

/-- The transactions of a chain of sealed blocks run in turn exactly when the blocks' own do; and then
no nonce falls and no transaction runs twice. -/
theorem nonces_in_turn (sealing : Sealing C origin state log)
    {entry : StacksBlockId × List (CommitStep E)} (hentry : entry ∈ log) :
    (nonceTrace C entry.2).map (·.transaction) = entry.2.flatMap (·.transactions) ∧
    ((∀ step ∈ nonceTrace C entry.2, step.InTurn) ↔ ∀ commit ∈ entry.2, commit.ownInTurn = true) ∧
    ((∀ commit ∈ entry.2, commit.ownInTurn = true) →
      (∀ step ∈ nonceTrace C entry.2, ∀ account, step.before account ≤ step.after account) ∧
      (nonceTrace C entry.2).Pairwise
        (fun earlier later => ∀ account, earlier.after account ≤ later.before account) ∧
      (entry.2.flatMap (·.transactions)).Nodup) := by
  obtain ⟨sealed, nonce, -, htraces⟩ := sealing.traced entry hentry
  obtain ⟨htrace, hlisted⟩ := htraces.traces
  refine ⟨hlisted, htraces.inTurn_iff, fun hown => ?_⟩
  have hturn := htraces.inTurn_iff.2 hown
  obtain ⟨hsteps, hpairwise, -⟩ := htrace.le_of_inTurn hturn
  refine ⟨fun step hstep account => (hsteps step hstep account).2, hpairwise, ?_⟩
  rw [← hlisted]
  exact htrace.nodup_of_inTurn hturn

def plainCommitStep (state : PlainChain) (block : NakamotoBlock) : CommitStep plainClarity :=
  ⟨state, plainAuthenticated block, none⟩

theorem plainCommit_sealing {origin state : PlainChain}
    {log : List (StacksBlockId × List (CommitStep plainClarity))}
    (sealing : Sealing plainCrypto origin state log) (block : NakamotoBlock)
    (h : (commitAuthenticated plainCrypto (E := plainClarity) state
      (plainAuthenticated block) none).1.toOption.isSome = true) :
    Sealing plainCrypto origin (plainCommit state block)
      (log ++ [(block.blockId plainCrypto,
        chainOf log (some block.header.parentBlockId) ++ [plainCommitStep state block])]) := by
  obtain ⟨built, hbuilt⟩ := plainCommit_eq h
  have hsealed := Sealing.sealed sealing hbuilt
  exact hsealed

/-- The start of a tenure under the nonces its miner has come to. -/
theorem nonces_in_turn_next :
    (plainCommitStep adoptedFirst nextTenure).ownInTurn = true ∧
      (∀ step ∈ nonceTrace plainCrypto [plainCommitStep adoptedFirst nextTenure], step.InTurn) ∧
      (nextTenure.transactions ++ []).Nodup := by
  have hsealing : Sealing plainCrypto adoptedFirst committedNext
      ([] ++ [(nextTenure.blockId plainCrypto, [] ++ [plainCommitStep adoptedFirst nextTenure])]) :=
    plainCommit_sealing .start nextTenure (by decide +kernel)
  have hown : (plainCommitStep adoptedFirst nextTenure).ownInTurn = true := by decide +kernel
  have hall : ∀ commit ∈ [plainCommitStep adoptedFirst nextTenure], commit.ownInTurn = true := by
    simpa using hown
  obtain ⟨-, hturn, hrest⟩ := nonces_in_turn hsealing (mem_singleton_self _)
  exact ⟨hown, hturn.2 hall, (hrest hall).2.2⟩

/-! Two blocks of one chain. The second starts a tenure under nonces its miner has long used, which
puts the miner's account back, and then carries a transfer of the first again. -/

def spending : NakamotoBlock := plainBlock firstId 11 1 1 [plainTransfer 0 2]

def spendingId : StacksBlockId := spending.blockId plainCrypto

def committedSpending : PlainChain := plainCommit adoptedFirst spending

def replaying : NakamotoBlock :=
  plainBlock spendingId 12 2 2 (plainStart spendingId 1 2 2 0 ++ [plainTransfer 0 2])

def replayingChain : List (CommitStep plainClarity) :=
  [plainCommitStep adoptedFirst spending, plainCommitStep committedSpending replaying]

theorem replaying_sealed :
    ∃ log, Sealing plainCrypto adoptedFirst (plainCommit committedSpending replaying) log ∧
      (replaying.blockId plainCrypto, replayingChain) ∈ log := by
  have hspending : Sealing plainCrypto adoptedFirst committedSpending
      ([] ++ [(spendingId, [] ++ [plainCommitStep adoptedFirst spending])]) :=
    plainCommit_sealing .start spending (by decide +kernel)
  have hparent : chainOf ([] ++ [(spendingId, [] ++ [plainCommitStep adoptedFirst spending])])
      (some spendingId) = [plainCommitStep adoptedFirst spending] := by
    simp [chainOf]
  refine ⟨_, plainCommit_sealing hspending replaying (by decide +kernel),
    mem_append_right _ (mem_singleton.2 ?_)⟩
  rw [show replaying.header.parentBlockId = spendingId from rfl, hparent]
  rfl

/-- Both blocks authenticate and are sealed, the miner's nonce falls from 3 to 1, and the transfer
runs twice. -/
theorem transfer_replayed :
    (∃ log, Sealing plainCrypto adoptedFirst (plainCommit committedSpending replaying) log ∧
      (replaying.blockId plainCrypto, replayingChain) ∈ log) ∧
    (authenticateNakamotoBlock plainCrypto (E := plainClarity) adoptedFirst plainContext
      [] (some firstId) spending).toOption.isSome = true ∧
    (authenticateNakamotoBlock plainCrypto (E := plainClarity) committedSpending
      plainContext [] (some spendingId) replaying).toOption.isSome = true ∧
    (nonceTrace plainCrypto replayingChain).map (fun step =>
        (step.before (plainTransfer 0 2).sender, step.after (plainTransfer 0 2).sender))
      = [(2, 3), (3, 1), (1, 2), (2, 3)] ∧
    plainTransfer 0 2 ∈ spending.transactions ∧ plainTransfer 0 2 ∈ replaying.transactions := by
  refine ⟨replaying_sealed, ?_⟩
  decide +kernel

end NanoStacks.Chain
