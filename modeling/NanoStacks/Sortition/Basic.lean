import NanoStacks.Lib.OrdMap
import NanoStacks.Bitcoin.Basic
import Mathlib.Data.Prod.Lex
import Mathlib.Data.Finset.Basic

/-!
# Sortitions: data

The values `nano-sortition` derives from Bitcoin: commitments, the snapshot of a Bitcoin block, and
the registry of leader keys. The three digests are parameters (`Hashes`), and so is the table of the
null miner's advantage, which the source generates while it is built.
-/

namespace NanoStacks.Sortition

open Bitcoin

abbrev BitcoinHeaderHash := Bytes 32
abbrev ConsensusHash := Bytes 20
abbrev SortitionId := Bytes 32
abbrev OpsHash := Bytes 32
abbrev SortitionHash := Bytes 32

/-- The digests the source calls by these names. -/
structure Hashes where
  sha256 : List UInt8 → Bytes 32
  sha512_256 : List UInt8 → Bytes 32
  hash160 : List UInt8 → Bytes 20

/-- The generated table `CARRYOVER_ADVANTAGE`. -/
abbrev CarryoverAdvantage := Fin 1024 → UInt64

inductive SortitionError
  | emptyCommitmentWindow
  | invalidCommitmentWindow
  | windowTooLong
  | burnOverflow
  | zeroBurnDistribution
  | zeroRewardCycleLength
  | heightOverflow
  | unexpectedHeight (expected actual : Nat)
  | reorgBeyondChainRoot (rootBitcoinHeight : Nat)
  | reorgTooDeep (depth limit : Nat)
  deriving DecidableEq

/-- Addition of two `u64`, refused when the sum does not fit. -/
def checkedAdd (a b : Nat) : Option Nat := if a + b < 2 ^ 64 then some (a + b) else none

@[simp] theorem checkedAdd_eq_some {a b c : Nat} :
    checkedAdd a b = some c ↔ a + b < 2 ^ 64 ∧ a + b = c := by
  simp [checkedAdd]

/-! ## Hashes of operations and sortitions -/

variable (H : Hashes)

def OpsHash.fromTxids (txids : List Txid) : OpsHash := H.sha256 (txids.flatMap (·.toList))

def SortitionHash.initial : SortitionHash := Bytes.zero 32

def SortitionHash.mixBitcoinHeader (hash : SortitionHash) (header : BitcoinHeaderHash) :
    SortitionHash :=
  H.sha256 (hash.toList ++ header.toList)

def SortitionHash.mixVrfSeed (hash : SortitionHash) (seed : Bytes 32) : SortitionHash :=
  H.sha256 (hash.toList ++ seed.toList)

/-! ## The reward-cycle history -/

/-- One bit for each reward cycle, oldest first. -/
structure PoxId where
  bits : List Bool
  deriving DecidableEq

def PoxId.initial : PoxId := ⟨[true]⟩

def PoxId.extendWithAnchor (poxId : PoxId) (present : Bool) : PoxId := ⟨poxId.bits ++ [present]⟩

def PoxId.asConsensusBytes (poxId : PoxId) : List UInt8 :=
  poxId.bits.map fun present => if present then 49 else 48

def sortitionId (header : BitcoinHeaderHash) (poxId : PoxId) : SortitionId :=
  H.sha512_256 (header.toList ++ poxId.asConsensusBytes)

/-! ## Commitments -/

structure MiningCommitment where
  txid : Txid
  spentTxid : Txid
  spentOutput : Nat
  burnSats : Nat
  vrfSeed : Bytes 32
  vrfPublicKey : Option (Bytes 32)
  signingKeyHash : Option Hash160
  committedBlockHash : Bytes 32
  parentBitcoinHeight : Nat
  deriving DecidableEq

structure MissedCommitment where
  txid : Txid
  spentTxid : Txid
  spentOutput : Nat
  deriving DecidableEq

/-- What one Bitcoin block contributes to the mining window. -/
structure CommitmentWindowBlock where
  commitments : List MiningCommitment
  missedCommitments : List MissedCommitment
  requiresSingleCommit : Bool
  deriving DecidableEq

structure SortitionWinner where
  txid : Txid
  vrfSeed : Bytes 32
  vrfPublicKey : Option (Bytes 32)
  signingKeyHash : Option Hash160
  committedBlockHash : Bytes 32
  parentBitcoinHeight : Nat

structure BurnSample where
  candidate : MiningCommitment
  burnSats : Nat
  medianBurnSats : Nat
  frequency : Nat
  rangeStart : Nat
  rangeEnd : Nat

structure SortitionParticipant where
  txid : Txid
  signingKeyHash : Option Hash160
  vrfPublicKey : Option (Bytes 32)
  committedBlockHash : Bytes 32
  burnSats : Nat
  effectiveBurnSats : Nat
  medianBurnSats : Nat
  frequency : Nat
  deriving DecidableEq

structure MiningCompetition where
  winnerTxid : Option Txid
  blockBurnSats : Nat
  windowMedianBurnSats : Nat
  sampledWindowBlocks : Nat
  participants : List SortitionParticipant
  deriving DecidableEq

structure CommitmentBurnStatistics where
  blockBurn : Nat
  windowMedianBurn : Nat

structure BurnSpends where
  total : Nat
  winner : Nat
  deriving DecidableEq

/-! ## Snapshots -/

/-- The consensus context derived from a Bitcoin block. -/
structure SortitionSnapshot where
  bitcoinHeight : Nat
  bitcoinHeaderHash : BitcoinHeaderHash
  bitcoinTimestamp : Nat
  sortitionId : SortitionId
  parentSortitionId : SortitionId
  operationsHash : OpsHash
  consensusHash : ConsensusHash
  totalBurn : Nat
  sortitionHash : SortitionHash
  numSortitions : Option Nat
  winnerTxid : Option Txid
  winnerVrfSeed : Option (Bytes 32)
  winnerVrfPublicKey : Option (Bytes 32)
  winnerSigningKeyHash : Option Hash160
  committedBlockHash : Option (Bytes 32)
  parentBitcoinHeight : Option Nat
  burnSpends : Option BurnSpends
  miningCompetition : Option MiningCompetition
  poxId : PoxId
  deriving DecidableEq

def SortitionSnapshot.genesis (bitcoinHeight : Nat) (header : BitcoinHeaderHash) :
    SortitionSnapshot where
  bitcoinHeight := bitcoinHeight
  bitcoinHeaderHash := header
  bitcoinTimestamp := 0
  sortitionId := header
  parentSortitionId := header
  operationsHash := Bytes.zero 32
  consensusHash := Bytes.zero 20
  totalBurn := 0
  sortitionHash := SortitionHash.initial
  numSortitions := some 0
  winnerTxid := none
  winnerVrfSeed := none
  winnerVrfPublicKey := none
  winnerSigningKeyHash := none
  committedBlockHash := none
  parentBitcoinHeight := none
  burnSpends := none
  miningCompetition := none
  poxId := PoxId.initial

/-! ## Leader keys -/

structure LeaderKeyRegistration where
  vrfPublicKey : Bytes 32
  signingKeyHash : Option Hash160
  deriving DecidableEq

/-- The registrations, by burn height and transaction index, and those already used up. -/
@[ext]
structure LeaderKeys where
  registered : OrdMap (Nat ×ₗ Nat) LeaderKeyRegistration
  spent : Finset (Nat × Nat)
  deriving DecidableEq

namespace LeaderKeys

def new : LeaderKeys := ⟨.empty, ∅⟩

def register (keys : LeaderKeys) (blockHeight transactionIndex : Nat)
    (registration : LeaderKeyRegistration) : LeaderKeys :=
  { keys with
    registered := keys.registered.insert (toLex (blockHeight, transactionIndex)) registration }

/-- The registration a commitment names, if it may still be used. -/
def registration (keys : LeaderKeys) (blockHeight transactionIndex : Nat) :
    Option LeaderKeyRegistration :=
  if (blockHeight, transactionIndex) ∈ keys.spent then none
  else keys.registered.get (toLex (blockHeight, transactionIndex))

end LeaderKeys

end NanoStacks.Sortition
