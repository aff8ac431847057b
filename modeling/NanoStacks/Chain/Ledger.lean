import NanoStacks.Chain.Context
import NanoStacks.Chain.Accounting
import NanoStacks.Marf.Basic
import NanoStacks.Lib.Suffix

/-!
# The ledger beside the MARF

What a block changes outside the MARF: the accounting, where each tenure started, the last blocks
executed, and the last coinbase proof. `noteExecutedBlock` is what sealing a block writes into it,
`checkTenureContinuity` is what is read out of it about the next one, and `rewind` is what a
retraction is left with when no written ledger says better.
-/

namespace NanoStacks.Chain

open Bitcoin Sortition Result Suffix

inductive MarfStoreError
  | marf (error : Marf.MarfError)
  | transactionInProgress
  | noTransaction
  | noActiveState
  deriving DecidableEq

/-- Errors of the engine are kept as their texts. -/
inductive ChainStateError
  | storage (error : MarfStoreError)
  | evaluation (error : String)
  | execution (error : String)
  | transactionExecution (txid : Txid) (height : Nat) (error : String)
  | invalidTransaction (message : String)
  | consensus (error : ConsensusError)
  | unsupportedPayload
  | noSignerSet (cycle : Nat)
  | stateRootMismatch (expected actual : Bytes 32)
  | ledger (message : String)
  deriving DecidableEq

structure ExecutedHeader where
  blockId : StacksBlockId
  consensusHash : ConsensusHash
  tenureHeight : Nat
  deriving DecidableEq

def reorgReach : Nat := 256

structure ChainLedger where
  accounting : TenureAccounting
  tenureStartHeights : OrdMap Nat Nat
  tenureStartBlocks : OrdMap Nat StacksBlockId
  executed : List ExecutedHeader
  parentTenureProof : Option (Bytes 80)

/-- What Clarity may later read about an executed block. -/
structure BlockHeader where
  burnHeaderHash : Bytes 32
  burnBlockHeight : Nat
  burnBlockTime : Nat
  stacksBlockTime : Nat
  blockHeaderHash : Bytes 32
  consensusHash : ConsensusHash
  vrfSeed : Bytes 32
  minerAddress : Nat × Hash160
  burnSpendTotal : Nat
  burnSpendWinner : Nat
  blockReward : Nat
  tenureHeight : Nat
  tenureStartHeight : Nat

/-! ## Reading the ledger -/

/-- The blocks from a tenure's first height to its last, as a `u32`. -/
def tenureLength (start last : Nat) : Option Nat :=
  if start ≤ last ∧ last - start + 1 < 2 ^ 32 then some (last - start + 1) else none

def checkTenureContinuity (ledger : ChainLedger) (block : NakamotoBlock)
    (parent : Option StacksBlockId) : Except ConsensusError Unit :=
  match block.tenureChangePayload with
  | none => .ok ()
  | some payload => do
    let parent ← okOr parent .tenureChangeParentUnavailable
    let executed ← okOr (ledger.executed.reverse.find? (·.blockId = parent))
      .tenureChangeParentUnavailable
    ensure (payload.previousTenureConsensusHash = executed.consensusHash) .tenureChangeParentTenure
    let start ← okOr (ledger.tenureStartHeights.get executed.tenureHeight)
      .tenureChangeLengthUnavailable
    ensure (1 ≤ block.header.chainLength) .tenureChangeLengthUnavailable
    let blocks ← okOr (tenureLength start (block.header.chainLength - 1))
      .tenureChangeLengthUnavailable
    ensure (blocks = payload.previousTenureBlocks)
      (.tenureChangeBlockCount payload.previousTenureBlocks blocks)

/-! ## Writing into the ledger -/

namespace ChainLedger

variable (H : Hashes) (ledger : ChainLedger)

/-- The newest `reorgReach` blocks executed, the given one last. -/
def pushExecuted (header : ExecutedHeader) : List ExecutedHeader :=
  (ledger.executed ++ [header]).rtake reorgReach

theorem getLast?_pushExecuted (header : ExecutedHeader) :
    (ledger.pushExecuted header).getLast? = some header := by
  rw [pushExecuted, getLast?_rtake _ (by decide), List.getLast?_concat]

/-- The tenure starts once a block of a tenure has been executed: the first block seen of a tenure
fixes its height, but only the block that started the tenure is remembered as its start. -/
def noteTenureStart (block : NakamotoBlock) (tenureHeight : Nat) : OrdMap Nat StacksBlockId :=
  if block.startsNewTenure then
    ledger.tenureStartBlocks.insertNew tenureHeight (block.blockId H)
  else if (ledger.tenureStartHeights.get tenureHeight).isSome then ledger.tenureStartBlocks
  else ledger.tenureStartBlocks.retain (· ≠ tenureHeight)

/-- The ledger with one more executed block. -/
def noted (block : NakamotoBlock) (tenureHeight : Nat) : ChainLedger where
  accounting := ledger.accounting
  tenureStartHeights := ledger.tenureStartHeights.insertNew tenureHeight block.header.chainLength
  tenureStartBlocks := ledger.noteTenureStart H block tenureHeight
  executed := ledger.pushExecuted ⟨block.blockId H, block.header.consensusHash, tenureHeight⟩
  parentTenureProof := ledger.parentTenureProof

def minerAddress (tenureHeight : Nat) : Nat × Hash160 :=
  match ledger.accounting.earnings.get tenureHeight with
  | some ⟨.standard address, _, _⟩ => (address.version, address.hash160)
  | _ => (0, Bytes.zero 20)

end ChainLedger

/-- The ledger and the header of an executed block, under the tenure height of its own state. -/
def noteExecutedBlock (H : Hashes) (tenureHeight : Nat) (ledger : ChainLedger)
    (block : NakamotoBlock) (context : BitcoinBlockContext) :
    Except ChainStateError (BlockHeader × ChainLedger) := do
  ensure (block.header.chainLength < 2 ^ 32) (.invalidTransaction "Stacks height overflows u32")
  let noted := ledger.noted H block tenureHeight
  ensure (context.height < 2 ^ 32) (.invalidTransaction "Bitcoin height overflows u32")
  let header : BlockHeader :=
    { burnHeaderHash := context.burnHeaderHash
      burnBlockHeight := context.height
      burnBlockTime := context.burnBlockTime
      stacksBlockTime := block.header.timestamp
      blockHeaderHash := block.header.blockHash H
      consensusHash := block.header.consensusHash
      vrfSeed := context.vrfSeed
      minerAddress := ledger.minerAddress tenureHeight
      burnSpendTotal := context.burnSpendTotal
      burnSpendWinner := context.burnSpendWinner
      blockReward := ledger.accounting.rewardForTenure tenureHeight
      tenureHeight := tenureHeight
      tenureStartHeight :=
        (ledger.tenureStartHeights.get tenureHeight).getD block.header.chainLength }
  return (header, noted)

namespace ChainLedger

/-- Keep the coinbase proof a block carries, if it carries one. -/
def rememberProof (ledger : ChainLedger) (block : NakamotoBlock) : ChainLedger :=
  { ledger with parentTenureProof := block.coinbaseVrfProof.or ledger.parentTenureProof }

/-- What is left of a ledger whose blocks from a tenure on are given up with nothing to stand on. -/
def rewind (ledger : ChainLedger) (discardedFromTenure : Nat) : ChainLedger where
  accounting := ledger.accounting.retractFrom discardedFromTenure
  tenureStartHeights := ledger.tenureStartHeights.retain (· < discardedFromTenure)
  tenureStartBlocks := ledger.tenureStartBlocks.retain (· < discardedFromTenure)
  executed := ledger.executed
  parentTenureProof := none

end ChainLedger

theorem noteExecutedBlock_eq_ok {H : Hashes} {tenureHeight : Nat} {ledger noted : ChainLedger}
    {block : NakamotoBlock} {context : BitcoinBlockContext} {header : BlockHeader}
    (h : noteExecutedBlock H tenureHeight ledger block context = .ok (header, noted)) :
    noted = ledger.noted H block tenureHeight ∧ block.header.chainLength < 2 ^ 32 ∧
      header.tenureHeight = tenureHeight ∧
      header.tenureStartHeight =
        (ledger.tenureStartHeights.get tenureHeight).getD block.header.chainLength := by
  simp only [noteExecutedBlock, bind_eq_ok, ensure_eq_ok, return_eq_ok, Prod.mk.injEq] at h
  obtain ⟨-, hheight, -, -, rfl, rfl⟩ := h
  exact ⟨rfl, hheight, rfl, rfl⟩

/-- What a ledger agrees to about a tenure change that follows a given parent. -/
theorem checkTenureContinuity_eq_ok {ledger : ChainLedger} {block : NakamotoBlock}
    {parent : StacksBlockId} (h : checkTenureContinuity ledger block (some parent) = .ok ())
    {payload : TenureChangePayload} (hpayload : block.tenureChangePayload = some payload) :
    ∃ executed start, ledger.executed.reverse.find? (·.blockId = parent) = some executed ∧
      payload.previousTenureConsensusHash = executed.consensusHash ∧
      ledger.tenureStartHeights.get executed.tenureHeight = some start ∧
      1 ≤ block.header.chainLength ∧ start ≤ block.header.chainLength - 1 ∧
      payload.previousTenureBlocks = block.header.chainLength - 1 - start + 1 := by
  simp only [checkTenureContinuity, hpayload, okOr_some, bind_eq_ok, Except.ok.injEq, okOr_eq_ok,
    ensure_eq_ok] at h
  obtain ⟨_, rfl, executed, hexecuted, -, hprevious, start, hstart, -, hlength, blocks, hblocks,
    hcount⟩ := h
  unfold tenureLength at hblocks
  split_ifs at hblocks with hfits
  obtain rfl := Option.some.inj hblocks
  exact ⟨executed, start, hexecuted, hprevious, hstart, hlength, hfits.1, hcount.symm⟩

end NanoStacks.Chain
