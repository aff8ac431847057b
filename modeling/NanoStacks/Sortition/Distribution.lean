import NanoStacks.Lib.Result
import NanoStacks.Sortition.Schedule
import Mathlib.Data.List.AList
import Mathlib.Data.List.Sort

/-!
# The burn distribution and the winner drawn from it

Each commitment of the newest block of the window is linked back through the outputs it spent, one
slot for each block; its weight is the smaller of what it paid and the median along its chain. The
weights cut the range of 256-bit numbers into intervals, and the winner is the commitment whose
interval the sortition's point falls in, unless it was too seldom active or the null miner wins.
-/

namespace NanoStacks.Sortition

open Bitcoin Result

/-! ## Statistics of a window -/

/-- The total burn of a list of amounts, refused when it does not fit in a `u64`. -/
def sumBurns (burns : List Nat) : Except SortitionError Nat :=
  burns.foldlM (fun total burn => okOr (checkedAdd total burn) .burnOverflow) 0

/-- The middle of the sorted amounts, or the rounded-down mean of the middle two. -/
def medianBurn (burns : List Nat) : Nat :=
  let sorted := burns.insertionSort (· ≤ ·)
  let middle := sorted.length / 2
  if sorted.length % 2 = 0 then (sorted.getD (middle - 1) 0 + sorted.getD middle 0) / 2
  else sorted.getD middle 0

def CommitmentWindowBlock.burns (block : CommitmentWindowBlock) : List Nat :=
  block.commitments.map (·.burnSats)

def commitmentBurnStatistics (window : List CommitmentWindowBlock) :
    Except SortitionError CommitmentBurnStatistics := do
  let latest ← okOr window.getLast? .emptyCommitmentWindow
  let blockBurns ← window.mapM fun block => sumBurns block.burns
  let blockBurn ← sumBurns latest.burns
  return ⟨blockBurn, medianBurn blockBurns⟩

/-! ## Linking commitments through the window -/

inductive Link
  | commitment (commitment : MiningCommitment)
  | missed (commitment : MissedCommitment)

namespace Link

def burnSats : Link → Nat
  | commitment c => c.burnSats
  | missed _ => 1

def spent : Link → Txid × Nat
  | commitment c => (c.spentTxid, c.spentOutput)
  | missed c => (c.spentTxid, c.spentOutput)

end Link

/-- The commitments of a block by transaction id; of two with one id the later one counts. -/
def commitmentsByTxid (commitments : List MiningCommitment) : AList fun _ : Txid => MiningCommitment :=
  commitments.foldl (fun m c => m.insert c.txid c) ∅

def missedByTxid (missed : List MissedCommitment) : AList fun _ : Txid => MissedCommitment :=
  missed.foldl (fun m c => m.insert c.txid c) ∅

/-- Extend every chain by its link in one earlier block. A commitment or a miss that one chain takes
is gone for the chains after it. -/
def linkChains (expectedOutput : Nat) : List (List (Option Link)) →
    AList (fun _ : Txid => MiningCommitment) → AList (fun _ : Txid => MissedCommitment) →
    Except SortitionError (List (List (Option Link)))
  | [], _, _ => .ok []
  | chain :: rest, commitments, missed => do
    let last ← okOr (chain.reverse.findSome? id) .invalidCommitmentWindow
    if last.spent.2 ≠ expectedOutput then
      let rest ← linkChains expectedOutput rest commitments missed
      return (chain ++ [none]) :: rest
    else
      match commitments.lookup last.spent.1 with
      | some c =>
        let rest ← linkChains expectedOutput rest (commitments.erase last.spent.1) missed
        return (chain ++ [some (.commitment c)]) :: rest
      | none =>
        match missed.lookup last.spent.1 with
        | some c =>
          let rest ← linkChains expectedOutput rest commitments (missed.erase last.spent.1)
          return (chain ++ [some (.missed c)]) :: rest
        | none =>
          let rest ← linkChains expectedOutput rest commitments missed
          return (chain ++ [none]) :: rest

/-- The link step for a block and the block above it, where its missed commitments arrived. -/
def linkSlot (linked : List (List (Option Link)))
    (slot : CommitmentWindowBlock × CommitmentWindowBlock) :
    Except SortitionError (List (List (Option Link))) :=
  linkChains (if slot.1.requiresSingleCommit then 2 else 3) linked
    (commitmentsByTxid slot.1.commitments) (missedByTxid slot.2.missedCommitments)

def makeBurnSample (chain : List (Option Link)) (windowLen : Nat) :
    Except SortitionError BurnSample :=
  match chain with
  | some (.commitment candidate) :: _ => do
    ensure (chain.length = windowLen) .invalidCommitmentWindow
    let burns := chain.map fun link => (link.map Link.burnSats).getD 1
    let medianBurnSats := medianBurn burns
    return {
      candidate
      burnSats := min candidate.burnSats medianBurnSats
      medianBurnSats
      frequency := (chain.filter Option.isSome).length
      rangeStart := 0
      rangeEnd := 0 }
  | _ => .error .invalidCommitmentWindow

/-! ## Ranges -/

def uint256Max : Nat := 2 ^ 256 - 1

def assignRangesFrom (total : Nat) : Nat → Nat → List BurnSample →
    Except SortitionError (List BurnSample)
  | _, _, [] => .ok []
  | accumulated, rangeStart, sample :: rest => do
    let accumulated ← okOr (checkedAdd accumulated sample.burnSats) .burnOverflow
    let rangeEnd := uint256Max * accumulated / total
    let rest ← assignRangesFrom total accumulated rangeEnd rest
    return { sample with rangeStart, rangeEnd } :: rest

def assignRanges : List BurnSample → Except SortitionError (List BurnSample)
  | [] => .ok []
  | [sample] => .ok [{ sample with rangeEnd := uint256Max }]
  | samples => do
    let total ← sumBurns (samples.map (·.burnSats))
    ensure (total ≠ 0) .zeroBurnDistribution
    assignRangesFrom total 0 0 samples

def commitmentDistribution (window : List CommitmentWindowBlock) :
    Except SortitionError (List BurnSample) := do
  let latest ← okOr window.getLast? .emptyCommitmentWindow
  ensure (window.length ≤ 255) .windowTooLong
  let linked ← (window.zip window.tail).reverse.foldlM linkSlot
    (latest.commitments.map fun c => [some (Link.commitment c)])
  let samples ← linked.mapM fun chain => makeBurnSample chain window.length
  assignRanges samples

def miningCompetition (distribution : List BurnSample) (statistics : CommitmentBurnStatistics)
    (sampledWindowBlocks : Nat) (winnerTxid : Option Txid) : MiningCompetition where
  winnerTxid := winnerTxid
  blockBurnSats := statistics.blockBurn
  windowMedianBurnSats := statistics.windowMedianBurn
  sampledWindowBlocks := sampledWindowBlocks
  participants := distribution.map fun sample =>
    { txid := sample.candidate.txid
      signingKeyHash := sample.candidate.signingKeyHash
      vrfPublicKey := sample.candidate.vrfPublicKey
      committedBlockHash := sample.candidate.committedBlockHash
      burnSats := sample.candidate.burnSats
      effectiveBurnSats := sample.burnSats
      medianBurnSats := sample.medianBurnSats
      frequency := sample.frequency }

/-! ## The null miner

Fixed-point numbers with 64 fractional bits. With amounts below `2 ^ 64` no product or sum here
reaches `2 ^ 256`, so the source's 256-bit arithmetic is that of the natural numbers. -/

namespace FixedPoint

def one : Nat := 2 ^ 64

def fraction (numerator denominator : Nat) : Nat := numerator * 2 ^ 64 / denominator

def multiply (a b : Nat) : Nat := a * b / 2 ^ 64

def integerPart (a : Nat) : Nat := a / 2 ^ 64 % 2 ^ 64

def probability (a : Nat) : Nat := if one ≤ a then (one - 1) * 2 ^ 192 else a * 2 ^ 192

end FixedPoint

def carryover (blockBurn windowMedianBurn : Nat) : Option Nat :=
  if windowMedianBurn = 0 then some 0
  else if blockBurn < windowMedianBurn then some (FixedPoint.fraction blockBurn windowMedianBurn)
  else none

def lookupAdvantage (advantage : CarryoverAdvantage) (carryover : Nat) : Nat :=
  let capped := min carryover FixedPoint.one
  let index := min (FixedPoint.integerPart (FixedPoint.multiply capped (FixedPoint.fraction 1024 1)))
    1023
  (advantage (Fin.ofNat 1024 index)).toNat

/-- The part of the range the null miner takes, or none when it cannot win. -/
def nullMinerProbability (advantage : CarryoverAdvantage) (blockBurn windowMedianBurn : Nat) :
    Option Nat := do
  let carryover ← carryover blockBurn windowMedianBurn
  let product := FixedPoint.multiply carryover (lookupAdvantage advantage carryover)
  let rest ← if carryover ≤ FixedPoint.one then some (FixedPoint.one - carryover) else none
  let probability ← if product + rest ≤ uint256Max then some (product + rest) else none
  return FixedPoint.probability (min probability FixedPoint.one)

/-! ## Drawing the winner -/

/-- The point of the range a sortition draws. -/
def sortitionPoint (H : Hashes) (hash : SortitionHash) (previousVrfSeed : Bytes 32) : Nat :=
  ofLe (hash.mixVrfSeed H previousVrfSeed).toList

def selectWinner (H : Hashes) (distribution : List BurnSample) (hash : SortitionHash)
    (previousVrfSeed : Bytes 32) : Option Nat :=
  match distribution with
  | [] => none
  | [_] => some 0
  | _ =>
    let point := sortitionPoint H hash previousVrfSeed
    distribution.findIdx? fun sample => sample.rangeStart ≤ point && point < sample.rangeEnd

def selectEpoch4Winner (H : Hashes) (advantage : CarryoverAdvantage)
    (distribution : List BurnSample) (sampledWindowLen : Nat) (hash : SortitionHash)
    (previousVrfSeed : Bytes 32) (blockBurn windowMedianBurn : Nat) : Option Nat := do
  let candidate ← selectWinner H distribution hash previousVrfSeed
  let sample ← distribution[candidate]?
  if sample.frequency < min 3 sampledWindowLen then none
  else
    match nullMinerProbability advantage blockBurn windowMedianBurn with
    | none => some candidate
    | some nullRangeEnd =>
      if nullRangeEnd ≤ sortitionPoint H hash previousVrfSeed then some candidate else none

end NanoStacks.Sortition
