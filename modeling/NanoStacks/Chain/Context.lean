import NanoStacks.Chain.Authenticate

/-!
# The Bitcoin block a block executes in, and its signers

A block is executed under a Bitcoin context, which names two Bitcoin heights: the view Clarity reads,
and the height of the sortition that elected the block's tenure. The reward cycle whose signers attest
to a block is read off such a context, and the weight of their signatures is counted in the order the
cycle lists them.
-/

namespace NanoStacks.Chain

open Bitcoin Sortition Result

structure BitcoinBlockContext where
  height : Nat
  tenureBitcoinHeight : Nat
  firstHeight : Nat
  preparePhaseLength : Nat
  rewardPhaseLength : Nat
  rejectionFraction : Nat
  v1UnlockHeight : Nat
  v2UnlockHeight : Nat
  v3UnlockHeight : Nat
  pox5ActivationHeight : Nat
  accumulatedCoinbase : Nat
  burnHeaderHash : Bytes 32
  burnBlockTime : Nat
  vrfSeed : Bytes 32
  burnSpendTotal : Nat
  burnSpendWinner : Nat
  sortitionHash : SortitionHash
  winnerVrfPublicKey : Option (Bytes 32)
  winnerSigningKeyHash : Option Hash160

namespace BitcoinBlockContext

/-- A burn height as a `u32`, saturating. -/
def asBurnHeight (height : Nat) : Nat := min height (2 ^ 32 - 1)

def moveToBurnBlock (context : BitcoinBlockContext) (height : Nat) : BitcoinBlockContext :=
  { context with height := height, tenureBitcoinHeight := asBurnHeight height }

def extendViewTo (context : BitcoinBlockContext) (view : Nat) : BitcoinBlockContext :=
  { context with height := view }

def tenureBurnHeight (context : BitcoinBlockContext) : Nat := context.tenureBitcoinHeight

def atHeight (height : Nat) : BitcoinBlockContext where
  height := height
  tenureBitcoinHeight := asBurnHeight height
  firstHeight := 0
  preparePhaseLength := 0
  rewardPhaseLength := 0
  rejectionFraction := 0
  v1UnlockHeight := 2 ^ 32 - 1
  v2UnlockHeight := 2 ^ 32 - 1
  v3UnlockHeight := 2 ^ 32 - 1
  pox5ActivationHeight := 2 ^ 32 - 1
  accumulatedCoinbase := 0
  burnHeaderHash := Bytes.zero 32
  burnBlockTime := 0
  vrfSeed := Bytes.zero 32
  burnSpendTotal := 0
  burnSpendWinner := 0
  sortitionHash := Bytes.zero 32
  winnerVrfPublicKey := none
  winnerSigningKeyHash := none

variable (context : BitcoinBlockContext)

/-- `reward_cycle_at`. -/
def rewardCycle : Option Nat :=
  let length := context.preparePhaseLength + context.rewardPhaseLength
  if context.height ≤ context.firstHeight ∨ length = 0 then none
  else some ((context.height - context.firstHeight) / length)

/-- `prepare_phase_reward_cycle`. -/
def preparePhaseRewardCycle : Option Nat :=
  let length := context.preparePhaseLength + context.rewardPhaseLength
  if context.tenureBurnHeight ≤ context.firstHeight ∨ length = 0 then none
  else
    let effective := context.tenureBurnHeight - context.firstHeight
    let index := effective % length
    if index ≠ 0 ∧ index ≤ length - context.preparePhaseLength then none
    else some (if index = 0 then effective / length else effective / length + 1)

end BitcoinBlockContext

/-! ## Signer weights -/

/-- The signers of a reward cycle in its order, with the weight of each. -/
structure SignerWeights where
  entries : List (Hash160 × Nat)
  entries_ne_nil : entries ≠ []
  nodup : (entries.map (·.1)).Nodup

/-- The sum of some `u32` weights. -/
def sumWeights (weights : List Nat) : Except SignerSetError Nat :=
  weights.foldlM (fun total weight => do
    ensure (total + weight < 2 ^ 32) .weightOverflow
    return total + weight) 0

namespace SignerWeights

def new (entries : List (Hash160 × Nat)) : Except SignerSetError SignerWeights :=
  if hempty : entries = [] then .error .empty
  else if hnodup : (entries.map (·.1)).Nodup then .ok ⟨entries, hempty, hnodup⟩
  else .error .duplicateSigner

variable (weights : SignerWeights)

def totalWeight : Except SignerSetError Nat := sumWeights (weights.entries.map (·.2))

/-- Seven tenths of the whole, rounded up. -/
def approvalThreshold : Except SignerSetError Nat := do
  let total ← weights.totalWeight
  return (total * 7 + 9) / 10

/-- The loop of `verify`: the entries not passed over yet, and the weight counted so far. -/
def countSignatures (recover : MessageSignature → Option Hash160)
    (recoverError : MessageSignature → String) :
    List (Hash160 × Nat) → Nat → List MessageSignature → Except SignerSetError Nat
  | _, signed, [] => .ok signed
  | remaining, signed, signature :: rest => do
    let signing ← okOr (recover signature) (.signature (recoverError signature))
    match remaining.dropWhile (·.1 ≠ signing) with
    | [] => .error .unknownOrUnorderedSigner
    | (_, weight) :: after =>
      ensure (signed + weight < 2 ^ 32) .weightOverflow
      countSignatures recover recoverError after (signed + weight) rest

def verify (C : Crypto) (header : NakamotoBlockHeader) : Except SignerSetError Nat := do
  let digest := header.signerSignatureHash C
  let signed ← countSignatures (C.recover · digest) (C.recoverError · digest) weights.entries 0
    header.signerSignatures
  let threshold ← weights.approvalThreshold
  ensure (threshold ≤ signed) .insufficientWeight
  return signed

end SignerWeights

end NanoStacks.Chain
