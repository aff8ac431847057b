import NanoStacks.Chain.Plain
import NanoStacks.Follower.Context

/-!
# The burn view of a proposal

A signer's validator derives the context of a canonical block and that of a proposal from one
sortition chain (`LocalBurnView`). A tenure change names the burn view itself. Without one a canonical
block stands on the view the validator last observed, and a proposal on the burn height its proposer
recorded; that height has to be one the chain holds, under the burn total of the block's header.

* `proposal_context`: what the two paths agree on.
* `recorded_height_followed`: a proposal in an extended tenure whose contexts part.
-/

namespace NanoStacks.Follower

open Bitcoin Sortition Result Chain Tracker Option

structure LocalBurnView where
  tracker : SortitionTracker
  canonicalView : ConsensusHash

/-- The part of the proposal validator that contexts are written to, and the coinbase schedule of its
chainstate. -/
structure Validator where
  context : Option (SortitionInfo × Nat)
  bitcoinContext : BitcoinBlockContext
  accumulated : OrdMap Nat Nat
  coinbaseSchedule : Option CoinbaseSchedule

structure BlockProposal where
  block : NakamotoBlock
  bitcoinHeight : Nat
  rewardCycle : Nat

structure LocalBlockContext where
  bitcoin : BitcoinBlockContext
  sortition : SortitionInfo
  rewardCycle : Nat

/-- The burn height a block is judged at, and the state the search for it leaves. -/
def requestedBurnHeight {S : Type} (tenureChange : Option ConsensusHash)
    (proposalHeight : Option Nat) (canonical : ConsensusHash)
    (locate : ConsensusHash → Except String Nat × S) (state : S) : Except String Nat × S :=
  match tenureChange with
  | some view =>
    match locate view with
    | (.error error, state) => (.error error, state)
    | (.ok height, state) =>
      match proposalHeight with
      | some proposalHeight =>
        if proposalHeight ≠ height then
          (.error s!"proposal says burn {proposalHeight}, but its tenure change names burn {height}",
            state)
        else (.ok height, state)
      | none => (.ok height, state)
  | none =>
    match proposalHeight with
    | some proposalHeight => (.ok proposalHeight, state)
    | none => locate canonical

namespace LocalBurnView

section

variable (H : Hashes) (advantage : CarryoverAdvantage) (burn : LocalBurnView) (pox : PoxInfo)
  (bitcoin : Burnchain)

def locate (view : ConsensusHash) : Except String Nat × LocalBurnView :=
  match pox.payoutSchedule with
  | none => (.error "no payout schedule, so no sortition can be derived", burn)
  | some payouts =>
    match burn.tracker.heightOfConsensusHash burn.canonicalView with
    | none =>
      (.error ("the canonical burn view " ++ burn.canonicalView.hex ++
        " is absent from the local sortition history"), burn)
    | some standingOn =>
      let kept := burn.tracker.keepFrom standingOn
      match bitcoin.tipHeight with
      | .error error =>
        (.error ("this node's burnchain cannot be read: " ++ error), { burn with tracker := kept })
      | .ok burnchainTip =>
        match kept.locateView H advantage bitcoin.blockAt payouts view burnchainTip
            catchUpLimit with
        | (.error error, tracker) =>
          (.error ("deriving the burn view locally failed: " ++ error.display),
            { burn with tracker })
        | (.ok (found, _), tracker) =>
          (okOr found ("burn view " ++ view.hex ++ " is not on this node's burnchain yet"),
            { burn with tracker })

/-- The coinbase a tenure-start block's tenure accumulated. -/
def recordCoinbase (block : NakamotoBlock) (schedule : Option CoinbaseSchedule)
    (tenureHeight : Nat) (context : BitcoinBlockContext) : Except String BitcoinBlockContext :=
  if block.startsNewTenure then do
    let schedule ← okOr schedule
      s!"no authenticated coinbase schedule is available for tenure burn {tenureHeight}"
    let previous ← okOr (burn.tracker.previousSortitionHeight tenureHeight)
      s!"the local sortition history cannot derive accumulated coinbase for tenure burn {tenureHeight}"
    return { context with accumulatedCoinbase := schedule.accumulatedAt tenureHeight (some previous) }
  else .ok context

/-- The rest of `context_for`, once the burn height is known: nothing below moves the chain. -/
def contextAt (block : NakamotoBlock) (schedule : Option CoinbaseSchedule) (height : Nat) :
    Except String LocalBlockContext := do
  let view ← okOr (burn.tracker.snapshotAt height) s!"no derived snapshot for burn {height}"
  let chainLength := block.header.chainLength
  let spent := block.header.bitcoinSpent
  let total := view.totalBurn
  ensure (view.totalBurn = block.header.bitcoinSpent)
    s!"block {chainLength} says {spent} burn has been spent, while the local sortition at burn {height} derives {total}"
  let tenureHeight ← okOr (burn.tracker.heightOfConsensusHash block.header.consensusHash)
    ("tenure " ++ block.header.consensusHash.hex ++ " is absent from the local sortition history")
  let tenure ← okOr (burn.tracker.snapshotAt tenureHeight)
    s!"no derived snapshot for tenure burn {tenureHeight}"
  let sortition ← okOr (burn.tracker.sortitionInfoAt tenureHeight)
    s!"no local sortition for tenure burn {tenureHeight}"
  let context := (LocalSortition.fromSnapshot tenure).recordAuthentication
    ((LocalSortition.fromSnapshot view).record pox.bitcoinContext)
  let context := if tenureHeight ≠ height then
      (context.moveToBurnBlock tenureHeight).extendViewTo height
    else context
  let context ← burn.recordCoinbase block schedule tenureHeight context
  return ⟨context, sortition, pox.rewardCycle tenureHeight⟩

def contextFor (block : NakamotoBlock) (proposalHeight : Option Nat)
    (schedule : Option CoinbaseSchedule) : Except String LocalBlockContext × LocalBurnView :=
  match requestedBurnHeight block.bitcoinViewConsensusHash proposalHeight burn.canonicalView
      (burn.locate H advantage pox bitcoin) burn with
  | (.error error, burn) => (.error error, burn)
  | (.ok height, burn) => (burn.contextAt pox block schedule height, burn)

def prepareAt (block : NakamotoBlock) (proposalHeight : Option Nat) (validator : Validator) :
    Except String (Nat × Nat) × LocalBurnView × Validator :=
  let cleared := { validator with context := none }
  match burn.contextFor H advantage pox bitcoin block proposalHeight cleared.coinbaseSchedule with
  | (.error error, burn) => (.error error, burn, cleared)
  | (.ok context, burn) =>
    let accumulated := if block.startsNewTenure then
        cleared.accumulated.insert context.sortition.bitcoinHeight
          context.bitcoin.accumulatedCoinbase
      else cleared.accumulated
    (.ok (context.sortition.bitcoinHeight, context.rewardCycle), burn,
      { cleared with
        accumulated
        bitcoinContext := context.bitcoin
        context := some (context.sortition, context.rewardCycle) })

def prepare (block : NakamotoBlock) (validator : Validator) :
    Except String (Nat × Nat) × LocalBurnView × Validator :=
  burn.prepareAt H advantage pox bitcoin block none validator

def prepareProposal (proposal : BlockProposal) (validator : Validator) :
    Except String (Nat × Nat) × LocalBurnView × Validator :=
  burn.prepareAt H advantage pox bitcoin proposal.block (some proposal.bitcoinHeight) validator

/-- The first burn height of the cycle an observed payout is for. -/
def payoutStart (cycle : Nat) : Except String Nat := do
  let length := pox.preparePhaseLength + pox.rewardPhaseLength
  ensure (length < 2 ^ 64) "reward-cycle length overflow"
  ensure (cycle * length < 2 ^ 64) s!"reward cycle {cycle} starts past u64::MAX"
  okOr (checkedAdd pox.firstBitcoinHeight (cycle * length))
    s!"reward cycle {cycle} starts past u64::MAX"

/-- Observe a canonical block; `executed` is what the validator's chainstate makes of it under the
context prepared for it, and `saved` whether the chain could be written down. -/
def observe (block : NakamotoBlock)
    (executed : Validator → Nat → Except String (Option (Nat × PoxAddress)))
    (saved : Except TrackerError Unit) (validator : Validator) :
    Except String Unit × LocalBurnView × Validator :=
  match burn.prepare H advantage pox bitcoin block validator with
  | (.error error, burn, validator) => (.error error, burn, validator)
  | (.ok (bitcoinHeight, _), burn, validator) =>
    let adopted (burn : LocalBurnView) : LocalBurnView :=
      { burn with
        canonicalView := block.bitcoinViewConsensusHash.getD burn.canonicalView }
    match executed validator bitcoinHeight with
    | .error error =>
      let height := block.header.chainLength
      (.error ("canonical block " ++ (block.blockId H).hex ++
        s!" at height {height} failed to validate: " ++ error), burn, validator)
    | .ok none => (.ok (), adopted burn, validator)
    | .ok (some (cycle, recipient)) =>
      match payoutStart pox cycle with
      | .error error => (.error error, burn, validator)
      | .ok startsAt =>
        let paid := { burn with
          tracker := burn.tracker.recordWaterfallPayout startsAt bitcoinHeight recipient }
        match saved with
        | .error error =>
          (.error ("the locally derived waterfall payout could not be saved: " ++ error.display),
            paid, validator)
        | .ok () => (.ok (), adopted paid, validator)

end

/-! ## What preparing does to the chain -/

section Chain

variable {H : Hashes} {advantage : CarryoverAdvantage} {burn burn' : LocalBurnView} {pox : PoxInfo}
  {bitcoin : Burnchain}

theorem locate_numbered (h : Numbered burn.tracker.engine.snapshots) (view : ConsensusHash) :
    Numbered (burn.locate H advantage pox bitcoin view).2.tracker.engine.snapshots := by
  unfold locate
  split
  · exact h
  · rename_i payouts _
    split
    · exact h
    · rename_i standingOn _
      have hkept : Numbered (burn.tracker.keepFrom standingOn).engine.snapshots := h.keepFrom standingOn
      dsimp only
      split
      · exact hkept
      · rename_i burnchainTip _
        have hfound := hkept.locateView H advantage bitcoin.blockAt payouts view burnchainTip
          catchUpLimit
        split
        all_goals
          rename_i hstep
          rw [hstep] at hfound
          exact hfound

theorem locate_primed {view : ConsensusHash} {result : Except String Nat}
    (h : burn.locate H advantage pox bitcoin view = (result, burn'))
    (hfailed : result.isOk = false → burn.tracker.primed = true) : burn'.tracker.primed = true := by
  unfold locate at h
  split at h
  · cases h
    exact hfailed rfl
  · split at h
    · cases h
      exact hfailed rfl
    · rename_i standingOn _
      have hkept : (burn.tracker.keepFrom standingOn).primed = burn.tracker.primed :=
        (keepFrom_answers burn.tracker standingOn).2.1
      dsimp only at h
      split at h
      · cases h
        exact hkept.trans (hfailed rfl)
      · split at h
        · rename_i hstep
          cases h
          exact locateView_primed _ _ _ _ hstep (.inl (hkept.trans (hfailed rfl)))
        · rename_i hstep
          obtain ⟨-, rfl⟩ := Prod.mk.inj h
          exact locateView_primed _ _ _ _ hstep (.inr rfl)

theorem locate_canonical (hprimed : burn.tracker.primed = true) {height : Nat}
    (h : burn.locate H advantage pox bitcoin burn.canonicalView = (.ok height, burn')) :
    burn.tracker.heightOfConsensusHash burn.canonicalView = some height ∧
      burn' = { burn with tracker := burn.tracker.keepFrom height } := by
  unfold locate at h
  split at h
  · simp at h
  · rename_i payouts _
    split at h
    · simp at h
    · rename_i standingOn hstanding
      obtain ⟨-, hkeepPrimed, -, hkeepHeight, -⟩ := keepFrom_answers burn.tracker standingOn
      dsimp only at h
      split at h
      · simp at h
      · rename_i burnchainTip _
        rw [locateView_of_held (hkeepPrimed.trans hprimed)
          ((congrFun hkeepHeight _).trans hstanding) H advantage bitcoin.blockAt payouts
          burnchainTip catchUpLimit] at h
        cases h
        exact ⟨hstanding, rfl⟩

/-- What locating a view keeps, preparing a block keeps. -/
theorem prepareAt_invariant {P : LocalBurnView → Prop} (h : P burn)
    (hlocate : ∀ view, P (burn.locate H advantage pox bitcoin view).2) (block : NakamotoBlock)
    (proposalHeight : Option Nat) (validator : Validator) :
    P (burn.prepareAt H advantage pox bitcoin block proposalHeight validator).2.1 := by
  have hrequested : (burn.prepareAt H advantage pox bitcoin block proposalHeight validator).2.1
      = (requestedBurnHeight block.bitcoinViewConsensusHash proposalHeight burn.canonicalView
        (burn.locate H advantage pox bitcoin) burn).2 := by
    unfold prepareAt contextFor
    dsimp only
    split
    all_goals
      rename_i hcontext
      split at hcontext
      all_goals
        rename_i hrequested
        rw [hrequested]
        exact (Prod.mk.inj hcontext).2.symm
  rw [hrequested]
  unfold requestedBurnHeight
  split
  · rename_i view _
    have hview := hlocate view
    split
    all_goals
      rename_i hlocated
      rw [hlocated] at hview
    · exact hview
    · split
      · split_ifs <;> exact hview
      · exact hview
  · split
    · exact h
    · exact hlocate _

/-- What is prepared of a block, from the context found for it. -/
def written (validator : Validator) (block : NakamotoBlock) (context : LocalBlockContext) :
    Validator :=
  { validator with
    accumulated := if block.startsNewTenure then
        validator.accumulated.insert context.sortition.bitcoinHeight
          context.bitcoin.accumulatedCoinbase
      else validator.accumulated
    bitcoinContext := context.bitcoin
    context := some (context.sortition, context.rewardCycle) }

variable {validator validator' : Validator} {block : NakamotoBlock}

theorem prepareAt_eq_ok {proposalHeight : Option Nat} {named : Nat × Nat}
    (h : burn.prepareAt H advantage pox bitcoin block proposalHeight validator
      = (.ok named, burn', validator')) :
    ∃ height context,
      requestedBurnHeight block.bitcoinViewConsensusHash proposalHeight burn.canonicalView
        (burn.locate H advantage pox bitcoin) burn = (.ok height, burn') ∧
      burn'.contextAt pox block validator.coinbaseSchedule height = .ok context ∧
      named = (context.sortition.bitcoinHeight, context.rewardCycle) ∧
      validator' = written validator block context := by
  unfold prepareAt contextFor at h
  dsimp only at h
  split at h
  · simp at h
  · rename_i context located hcontext
    cases h
    split at hcontext
    · simp at hcontext
    · rename_i height located hrequested
      obtain ⟨hfound, rfl⟩ := Prod.mk.inj hcontext
      exact ⟨height, context, hrequested, hfound, rfl, rfl⟩

theorem prepare_primed {named : Nat × Nat}
    (h : burn.prepare H advantage pox bitcoin block validator = (.ok named, burn', validator')) :
    burn'.tracker.primed = true := by
  obtain ⟨height, -, hrequested, -⟩ := prepareAt_eq_ok h
  unfold requestedBurnHeight at hrequested
  split at hrequested
  · split at hrequested
    · simp at hrequested
    · rename_i hlocate
      cases hrequested
      exact locate_primed hlocate nofun
  · exact locate_primed hrequested nofun

theorem observe_chain {executed : Validator → Nat → Except String (Option (Nat × PoxAddress))}
    {saved : Except TrackerError Unit} {result : Except String Unit}
    (h : burn.observe H advantage pox bitcoin block executed saved validator
      = (result, burn', validator')) :
    let prepared := burn.prepare H advantage pox bitcoin block validator
    burn'.tracker.engine = prepared.2.1.tracker.engine ∧
      burn'.tracker.primed = prepared.2.1.tracker.primed ∧
      (result.isOk = true → ∃ named, prepared.1 = .ok named) := by
  intro prepared
  unfold observe at h
  split at h
  · rename_i hprepare
    cases h
    simp [prepared, hprepare, Except.isOk, Except.toBool]
  · rename_i hprepare
    simp only [prepared, hprepare]
    dsimp only at h
    repeat' split at h
    all_goals
      cases h
      exact ⟨rfl, rfl, fun _ => ⟨_, rfl⟩⟩

end Chain

end LocalBurnView

/-- The validators a run gets to, and whether they have observed a block. -/
inductive Validating (H : Hashes) (advantage : CarryoverAdvantage) : Bool → LocalBurnView → Prop
  | opened {burn : LocalBurnView}
      (loaded : burn.tracker.engine.snapshots.snapshots = [burn.tracker.tip]) :
      Validating H advantage false burn
  | prepared {burn : LocalBurnView} {observed : Bool} (run : Validating H advantage observed burn)
      (pox : PoxInfo) (bitcoin : Burnchain) (block : NakamotoBlock) (proposalHeight : Option Nat)
      (validator : Validator) :
      Validating H advantage observed
        (burn.prepareAt H advantage pox bitcoin block proposalHeight validator).2.1
  | refused {burn burn' : LocalBurnView} {observed : Bool} {pox : PoxInfo} {bitcoin : Burnchain}
      {block : NakamotoBlock} {validator validator' : Validator}
      {executed : Validator → Nat → Except String (Option (Nat × PoxAddress))}
      {saved : Except TrackerError Unit} {error : String}
      (run : Validating H advantage observed burn)
      (h : burn.observe H advantage pox bitcoin block executed saved validator
        = (.error error, burn', validator')) :
      Validating H advantage observed burn'
  | observed {burn burn' : LocalBurnView} {observed : Bool} {pox : PoxInfo} {bitcoin : Burnchain}
      {block : NakamotoBlock} {validator validator' : Validator}
      {executed : Validator → Nat → Except String (Option (Nat × PoxAddress))}
      {saved : Except TrackerError Unit}
      (run : Validating H advantage observed burn)
      (h : burn.observe H advantage pox bitcoin block executed saved validator
        = (.ok (), burn', validator')) :
      Validating H advantage true burn'

namespace Validating

variable {H : Hashes} {advantage : CarryoverAdvantage} {observed : Bool} {burn : LocalBurnView}

theorem numbered_prepared (h : Numbered burn.tracker.engine.snapshots) (pox : PoxInfo)
    (bitcoin : Burnchain) (block : NakamotoBlock) (proposalHeight : Option Nat)
    (validator : Validator) :
    Numbered (burn.prepareAt H advantage pox bitcoin block proposalHeight
      validator).2.1.tracker.engine.snapshots :=
  LocalBurnView.prepareAt_invariant (P := fun burn => Numbered burn.tracker.engine.snapshots) h
    (LocalBurnView.locate_numbered h) block proposalHeight validator

theorem primed_prepared (h : burn.tracker.primed = true) (pox : PoxInfo) (bitcoin : Burnchain)
    (block : NakamotoBlock) (proposalHeight : Option Nat) (validator : Validator) :
    (burn.prepareAt H advantage pox bitcoin block proposalHeight validator).2.1.tracker.primed
      = true :=
  LocalBurnView.prepareAt_invariant (P := fun burn => burn.tracker.primed = true) h
    (fun _ => LocalBurnView.locate_primed rfl fun _ => h) block proposalHeight validator

/-- The snapshots of a validator's chain are numbered, and one that has observed a block has read the
window behind them. -/
theorem chain (run : Validating H advantage observed burn) :
    Numbered burn.tracker.engine.snapshots ∧ (observed = true → burn.tracker.primed = true) := by
  induction run with
  | @opened burn loaded => exact ⟨⟨burn.tracker.tip.bitcoinHeight, by simp [loaded]⟩, by simp⟩
  | prepared _ pox bitcoin block proposalHeight validator ih =>
    exact ⟨numbered_prepared ih.1 pox bitcoin block proposalHeight validator,
      fun hobserved => primed_prepared (ih.2 hobserved) pox bitcoin block proposalHeight validator⟩
  | @refused burn burn' _ pox bitcoin block validator validator' _ _ _ _ h ih =>
    obtain ⟨hengine, hprimed, -⟩ := LocalBurnView.observe_chain h
    refine ⟨hengine ▸ numbered_prepared ih.1 pox bitcoin block none validator, fun hobserved => ?_⟩
    exact hprimed.trans (primed_prepared (ih.2 hobserved) pox bitcoin block none validator)
  | @observed burn burn' _ pox bitcoin block validator validator' _ _ _ h ih =>
    obtain ⟨hengine, hprimed, hok⟩ := LocalBurnView.observe_chain h
    obtain ⟨named, hnamed⟩ := hok rfl
    refine ⟨hengine ▸ numbered_prepared ih.1 pox bitcoin block none validator, fun _ => ?_⟩
    exact hprimed.trans (LocalBurnView.prepare_primed (Prod.ext hnamed rfl))

end Validating

/-! ## Proposals and canonical blocks -/

namespace LocalBurnView

variable {H : Hashes} {advantage : CarryoverAdvantage} {burn : LocalBurnView} {pox : PoxInfo}
  {bitcoin : Burnchain}

variable {block : NakamotoBlock}

/-- Where the tenure change names the view, the height of the proposal is only compared. -/
theorem prepareProposal_of_tenureChange {proposal : BlockProposal} {view : ConsensusHash}
    (hview : proposal.block.bitcoinViewConsensusHash = some view) (validator : Validator) :
    (∃ error, (burn.prepareProposal H advantage pox bitcoin proposal validator).1 = .error error) ∨
      burn.prepareProposal H advantage pox bitcoin proposal validator
        = burn.prepare H advantage pox bitcoin proposal.block validator := by
  unfold prepareProposal prepare prepareAt contextFor
  simp only [hview, requestedBurnHeight]
  rcases hlocate : burn.locate H advantage pox bitcoin view with ⟨located, after⟩
  cases located with
  | error error => exact .inl ⟨error, rfl⟩
  | ok height =>
    by_cases hsame : proposal.bitcoinHeight = height
    · exact .inr (by simp [hsame])
    · exact .inl (by simp [hsame])

theorem contextAt_keepFrom (block : NakamotoBlock) (schedule : Option CoinbaseSchedule)
    (height standingOn : Nat) :
    (⟨burn.tracker.keepFrom standingOn, burn.canonicalView⟩ : LocalBurnView).contextAt pox block
      schedule height = burn.contextAt pox block schedule height := by
  obtain ⟨-, -, hsnapshot, hheight, hhash, hprevious⟩ := keepFrom_answers burn.tracker standingOn
  have hinfo : (burn.tracker.keepFrom standingOn).sortitionInfoAt = burn.tracker.sortitionInfoAt := by
    funext height
    unfold SortitionTracker.sortitionInfoAt
    rw [hsnapshot, hhash, hprevious]
  unfold contextAt recordCoinbase
  rw [hsnapshot, hheight, hprevious, hinfo]

variable {schedule : Option CoinbaseSchedule}

theorem recordCoinbase_height {tenureHeight : Nat} {context context' : BitcoinBlockContext}
    (h : burn.recordCoinbase block schedule tenureHeight context = .ok context') :
    context'.height = context.height := by
  unfold recordCoinbase at h
  split_ifs at h
  · simp only [bind_eq_ok] at h
    obtain ⟨_, -, _, -, ⟨⟩⟩ := h
    rfl
  · rw [Except.ok.inj h]

theorem recordCoinbase_accumulated {tenureHeight : Nat}
    {context other context' other' : BitcoinBlockContext} (hstarts : block.startsNewTenure = true)
    (h : burn.recordCoinbase block schedule tenureHeight context = .ok context')
    (h' : burn.recordCoinbase block schedule tenureHeight other = .ok other') :
    context'.accumulatedCoinbase = other'.accumulatedCoinbase := by
  simp only [recordCoinbase, hstarts, if_true, bind_eq_ok, okOr_eq_ok, return_eq_ok] at h h'
  obtain ⟨schedule', hschedule, previous, hprevious, rfl⟩ := h
  obtain ⟨_, hschedule', _, hprevious', rfl⟩ := h'
  obtain rfl := some.inj (hschedule.symm.trans hschedule')
  obtain rfl := some.inj (hprevious.symm.trans hprevious')
  rfl

theorem contextAt_eq_ok (hnumbered : Numbered burn.tracker.engine.snapshots) {height : Nat}
    {context : LocalBlockContext} (h : burn.contextAt pox block schedule height = .ok context) :
    ∃ view tenure tenureHeight,
      burn.tracker.snapshotAt height = some view ∧
      view.totalBurn = block.header.bitcoinSpent ∧
      burn.tracker.heightOfConsensusHash block.header.consensusHash = some tenureHeight ∧
      burn.tracker.snapshotAt tenureHeight = some tenure ∧
      burn.tracker.sortitionInfoAt tenureHeight = some context.sortition ∧
      context.rewardCycle = pox.rewardCycle tenureHeight ∧
      burn.recordCoinbase block schedule tenureHeight (contextOf pox view tenure)
        = .ok context.bitcoin := by
  simp only [contextAt, bind_eq_ok, okOr_eq_ok, ensure_eq_ok] at h
  obtain ⟨view, hview, -, hspent, tenureHeight, htenureHeight, tenure, htenure, sortition, hsortition,
    bitcoin, hcoinbase, ⟨⟩⟩ := h
  refine ⟨view, tenure, tenureHeight, hview, hspent, htenureHeight, htenure, hsortition, rfl, ?_⟩
  rw [← hcoinbase]
  obtain ⟨-, rfl, -⟩ := hnumbered.snapshotAt hview
  obtain ⟨-, rfl, -⟩ := hnumbered.snapshotAt htenure
  congr 1
  split_ifs with hmoved
  · rfl
  · rw [not_not] at hmoved
    simp only [contextOf, hmoved]
    rfl

end LocalBurnView

/-- **What a proposal is prepared with.** Of a validator that has observed a block, for any proposal
and whatever height it records: if its block carries a tenure change, preparing it fails or comes to
what preparing the block as a canonical one comes to. If it carries none, then where both succeed the
sortition, the reward cycle and the coinbase are the same; the proposal's context sees the burn block
at the height it records, which the chain holds under the burn total of the header; the canonical one
sees the burn block of the view observed last; and they are one context exactly when these are one
height. -/
theorem proposal_context {H : Hashes} {advantage : CarryoverAdvantage} {burn : LocalBurnView}
    (run : Validating H advantage true burn) (pox : PoxInfo) (bitcoin : Burnchain)
    (proposal : BlockProposal) (validator : Validator) :
    (proposal.block.bitcoinViewConsensusHash.isSome →
      (∃ error, (burn.prepareProposal H advantage pox bitcoin proposal validator).1 = .error error) ∨
        burn.prepareProposal H advantage pox bitcoin proposal validator
          = burn.prepare H advantage pox bitcoin proposal.block validator) ∧
    (proposal.block.bitcoinViewConsensusHash = none →
      ∀ (named named' : Nat × Nat) (after after' : LocalBurnView) (proposed canonical : Validator),
        burn.prepareProposal H advantage pox bitcoin proposal validator
          = (.ok named, after, proposed) →
        burn.prepare H advantage pox bitcoin proposal.block validator
          = (.ok named', after', canonical) →
        named = named' ∧ proposed.context = canonical.context ∧
          proposed.accumulated = canonical.accumulated ∧
          (∃ snapshot, burn.tracker.snapshotAt proposal.bitcoinHeight = some snapshot ∧
            snapshot.totalBurn = proposal.block.header.bitcoinSpent) ∧
          proposed.bitcoinContext.height = proposal.bitcoinHeight ∧
          burn.tracker.heightOfConsensusHash burn.canonicalView
            = some canonical.bitcoinContext.height ∧
          (proposed.bitcoinContext = canonical.bitcoinContext ↔
            burn.tracker.heightOfConsensusHash burn.canonicalView
              = some proposal.bitcoinHeight)) := by
  obtain ⟨hnumbered, hprimed⟩ := run.chain
  constructor
  · intro hview
    obtain ⟨view, hview⟩ := isSome_iff_exists.1 hview
    exact LocalBurnView.prepareProposal_of_tenureChange hview validator
  · intro hview named named' after after' proposed canonical hproposal hcanonical
    obtain ⟨height, context, hrequested, hcontext, rfl, rfl⟩ :=
      LocalBurnView.prepareAt_eq_ok hproposal
    obtain ⟨height', context', hrequested', hcontext', rfl, rfl⟩ :=
      LocalBurnView.prepareAt_eq_ok hcanonical
    simp only [requestedBurnHeight, hview] at hrequested hrequested'
    cases hrequested
    obtain ⟨hheld, rfl⟩ := LocalBurnView.locate_canonical (hprimed rfl) hrequested'
    rw [LocalBurnView.contextAt_keepFrom] at hcontext'
    obtain ⟨view, tenure, tenureHeight, hsnapshot, hspent, htenureHeight, htenure, hsortition, hcycle,
      hcoinbase⟩ := LocalBurnView.contextAt_eq_ok hnumbered hcontext
    obtain ⟨view', tenure', tenureHeight', hsnapshot', -, htenureHeight', htenure', hsortition',
      hcycle', hcoinbase'⟩ := LocalBurnView.contextAt_eq_ok hnumbered hcontext'
    obtain rfl : tenureHeight = tenureHeight' := some.inj (htenureHeight.symm.trans htenureHeight')
    obtain rfl : tenure = tenure' := some.inj (htenure.symm.trans htenure')
    have hinfo : context.sortition = context'.sortition :=
      some.inj (hsortition.symm.trans hsortition')
    have hcycles : context.rewardCycle = context'.rewardCycle := hcycle.trans hcycle'.symm
    have hheight : context.bitcoin.height = proposal.bitcoinHeight :=
      (LocalBurnView.recordCoinbase_height hcoinbase).trans (hnumbered.snapshotAt hsnapshot).2.1
    have hheight' : context'.bitcoin.height = height' :=
      (LocalBurnView.recordCoinbase_height hcoinbase').trans (hnumbered.snapshotAt hsnapshot').2.1
    refine ⟨by rw [hinfo, hcycles], ?_, ?_, ⟨view, hsnapshot, hspent⟩, hheight, ?_, ?_⟩
    · simp only [LocalBurnView.written, hinfo, hcycles]
    · simp only [LocalBurnView.written]
      split_ifs with hstarts
      · rw [hinfo, LocalBurnView.recordCoinbase_accumulated hstarts hcoinbase hcoinbase']
      · rfl
    · exact hheld.trans (congrArg some hheight'.symm)
    · show context.bitcoin = context'.bitcoin ↔ _
      rw [hheld, some.injEq]
      constructor
      · intro hsame
        rw [← hheight, ← hheight', hsame]
      · rintro rfl
        obtain rfl : view = view' := some.inj (hsnapshot.symm.trans hsnapshot')
        exact Except.ok.inj (hcoinbase.symm.trans hcoinbase')

/-! A tenure elected at burn 100, extended into the view of burn 101, which adds nothing to the burn
total. -/

def twentyBlockPox : PoxInfo := ⟨0, 100, 3, 17, none, none, none, none, none⟩

def emptyBurnchain (tip : Nat) : Burnchain := ⟨.ok tip, fun height => .ok (emptyBlock height)⟩

/-- A tracker that holds one burn block, which elected tenure 1. -/
def electedAt (height : Nat) : SortitionTracker :=
  { seededAt height with
    engine := ⟨⟨[{ SortitionSnapshot.genesis height (Bytes.zero 32) with
      consensusHash := plainTenure 1, winnerVrfSeed := some (Bytes.zero 32) }],
      [plainTenure 1], [height - 1], none, by simp⟩, []⟩ }

/-- The consensus hash of the empty block above. -/
def viewAbove (height : Nat) : ConsensusHash :=
  (SortitionTracker.walkOn plainCrypto (fun _ => 0) (emptyBurnchain 0).blockAt
    twentyBlockCycles 1 (electedAt height)).2.tip.consensusHash

/-- The block that extends tenure 1 into a view. -/
def extendingBlock (parent : StacksBlockId) (view : ConsensusHash) : NakamotoBlock :=
  plainBlock parent 2 1 0 [plainTransaction 1 0 0 (.tenureChange ⟨plainTenure 1, plainTenure 1, view,
    parent, 1, .extended, Bytes.zero 20⟩)]

def plainValidator : Validator := ⟨none, .atHeight 0, .empty, none⟩

/-- The validator of the tenure observes the extension. -/
def extensionObserved : Except String Unit × LocalBurnView × Validator :=
  LocalBurnView.observe plainCrypto (fun _ => 0) ⟨electedAt 100, plainTenure 1⟩
    twentyBlockPox (emptyBurnchain 101) (extendingBlock (Bytes.zero 32) (viewAbove 100))
    (fun _ _ => .ok none) (.ok ()) plainValidator

theorem extensionObserved_fst : extensionObserved.1 = .ok () := by
  decide +kernel

theorem validating_extension : Validating plainCrypto (fun _ => 0) true extensionObserved.2.1 := by
  have hopened : Validating plainCrypto (fun _ => 0) false
      ⟨electedAt 100, plainTenure 1⟩ := .opened rfl
  have hobserved : extensionObserved = (.ok (), extensionObserved.2.1, extensionObserved.2.2) := by
    rw [← extensionObserved_fst]
  exact hopened.observed hobserved

/-- The next block of the tenure, proposed with the burn height that elected it. -/
def continuingProposal : BlockProposal :=
  ⟨plainBlock (Bytes.zero 32) 3 1 0 [], 100, 5⟩

def proposalPrepared : Except String (Nat × Nat) × LocalBurnView × Validator :=
  extensionObserved.2.1.prepareProposal plainCrypto (fun _ => 0) twentyBlockPox
    (emptyBurnchain 101) continuingProposal plainValidator

def canonicalPrepared : Except String (Nat × Nat) × LocalBurnView × Validator :=
  extensionObserved.2.1.prepare plainCrypto (fun _ => 0) twentyBlockPox
    (emptyBurnchain 101) continuingProposal.block plainValidator

theorem prepared_fst : proposalPrepared.1 = .ok (100, 5) ∧ canonicalPrepared.1 = .ok (100, 5) := by
  decide +kernel

/-- The two contexts of the continuing proposal, by the theorem: one sortition, two burn views. -/
theorem proposal_context_continuing :
    proposalPrepared.2.2.context = canonicalPrepared.2.2.context ∧
      proposalPrepared.2.2.bitcoinContext.height = 100 := by
  have hproposal : proposalPrepared
      = (.ok (100, 5), proposalPrepared.2.1, proposalPrepared.2.2) := by
    rw [← prepared_fst.1]
  have hcanonical : canonicalPrepared
      = (.ok (100, 5), canonicalPrepared.2.1, canonicalPrepared.2.2) := by
    rw [← prepared_fst.2]
  obtain ⟨-, hcontext, -, -, hheight, -⟩ := (proposal_context validating_extension twentyBlockPox
    (emptyBurnchain 101) continuingProposal plainValidator).2 rfl _ _ _ _ _ _ hproposal hcanonical
  exact ⟨hcontext, hheight⟩

/-- **A proposal is prepared under the burn block its proposer recorded.** The tenure stands on the
view of burn 101, and the canonical path executes its next block there; the proposal records burn 100,
which has the same burn total, and is prepared there. -/
theorem recorded_height_followed :
    Validating plainCrypto (fun _ => 0) true extensionObserved.2.1 ∧
      proposalPrepared.1 = .ok (100, 5) ∧ canonicalPrepared.1 = .ok (100, 5) ∧
      proposalPrepared.2.2.bitcoinContext.height = 100 ∧
      canonicalPrepared.2.2.bitcoinContext.height = 101 := by
  refine ⟨validating_extension, prepared_fst.1, prepared_fst.2, ?_, ?_⟩
  · decide +kernel
  · decide +kernel

end NanoStacks.Follower
