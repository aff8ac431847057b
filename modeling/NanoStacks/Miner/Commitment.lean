import NanoStacks.Tracker.Locate

/-!
# The commitment a miner publishes

A commitment names the commitment that won its parent's sortition by the place of that transaction in
its Bitcoin block. The winner is looked for twice: among the commitments to the elected block and
seed, and, when competing miners share these, by the signing key the registration of each commitment
names. The second search is over the whole Bitcoin block, not over what the first one left, so the
winner is found exactly when one of the two searches alone singles it out.
-/

namespace NanoStacks.Miner

open Bitcoin Sortition Tracker Result List Bytes

def epoch4Marker : UInt8 := 0x11

def bitcoinBlockMinedAtModulus : Nat := 5

/-- Where a miner's leader key was registered. -/
structure RegisteredLeaderKey where
  bitcoinHeight : Nat
  transactionIndex : Nat

structure CommitmentPlan where
  commitment : LeaderBlockCommit
  sbtcAddress : PoxAddress
  targetBitcoinHeight : Nat
  rewardCycle : Nat
  deriving DecidableEq

structure CommitmentParent where
  bitcoinTipHeight : Nat
  tenureStartBlockId : Bytes 32
  sortition : SortitionInfo
  tenureVrfProof : Bytes 80
  sbtcAddress : PoxAddress
  rewardCycle : Nat

inductive CommitmentPlanError (ε : Type)
  | bitcoin (error : ε)
  | noParentSortition
  | parentCommitmentNotFound
  | ambiguousParentCommitment
  | heightOverflow
  deriving DecidableEq

section

variable {ε : Type} (bitcoin : Nat → Except ε BitcoinBlock)

/-- The signing key a commitment inherits from its leader-key registration. -/
def signingKeyHash (operation : BitcoinOperation) : Option Hash160 :=
  match operation.kind with
  | .leaderBlockCommit commit => do
    let block ← (bitcoin commit.keyBlockHeight).toOption
    let candidate ← block.operations.find? (·.transactionIndex = commit.keyTransactionIndex)
    match candidate.kind with
    | .leaderKeyRegistration _ _ blockSigningKeyHash _ => blockSigningKeyHash
    | _ => none
  | _ => none

def transactionIndex (operation : BitcoinOperation) : Except (CommitmentPlanError ε) Nat := do
  ensure (operation.transactionIndex < 2 ^ 16) .heightOverflow
  return operation.transactionIndex

/-- A commitment to the block a sortition elected, with the seed it elected. -/
def commitsTo (committedBlockHash vrfSeed : Bytes 32) (operation : BitcoinOperation) : Bool :=
  match operation.kind with
  | .leaderBlockCommit commit => commit.blockHeaderHash = committedBlockHash ∧ commit.newSeed = vrfSeed
  | _ => false

def inheritsKey (minerKeyHash : Hash160) (operation : BitcoinOperation) : Bool :=
  signingKeyHash bitcoin operation = some minerKeyHash

/-- Locate the winning commitment of a sortition in its Bitcoin block. -/
def parentTransactionIndex (parent : SortitionInfo) : Except (CommitmentPlanError ε) Nat :=
  match parent.committedBlockHash, parent.vrfSeed, parent.minerPublicKeyHash with
  | some committedBlockHash, some vrfSeed, some minerKeyHash => do
    let block ← (bitcoin parent.bitcoinHeight).mapError .bitcoin
    match block.operations.filter (commitsTo committedBlockHash vrfSeed) with
    | [] => .error .parentCommitmentNotFound
    | [first] => transactionIndex first
    | _ =>
      match block.operations.filter (inheritsKey bitcoin minerKeyHash) with
      | [] => .error .parentCommitmentNotFound
      | [winner] => transactionIndex winner
      | _ => .error .ambiguousParentCommitment
  | _, _, _ => .error .noParentSortition

/-- Derive a commitment from locally authenticated parent state. -/
def planLocalCommitment (H : Hashes) (key : RegisteredLeaderKey) (parent : CommitmentParent) :
    Except (CommitmentPlanError ε) CommitmentPlan := do
  ensure (parent.bitcoinTipHeight + 1 < 2 ^ 64) .heightOverflow
  ensure (parent.sortition.bitcoinHeight < 2 ^ 32) .heightOverflow
  let index ← parentTransactionIndex bitcoin parent.sortition
  return {
    commitment := {
      blockHeaderHash := parent.tenureStartBlockId
      newSeed := H.sha512_256 parent.tenureVrfProof.toList
      parentBlockHeight := parent.sortition.bitcoinHeight
      parentTransactionIndex := index
      keyBlockHeight := key.bitcoinHeight
      keyTransactionIndex := key.transactionIndex
      memo := epoch4Marker
      parentModulus := .ofNat (parent.bitcoinTipHeight % bitcoinBlockMinedAtModulus) }
    sbtcAddress := parent.sbtcAddress
    targetBitcoinHeight := parent.bitcoinTipHeight + 1
    rewardCycle := parent.rewardCycle }

end

/-! ## Singled out by one search -/

theorem mem_filter_of_filter_and {α : Type} {l : List α} {p q : α → Bool} {a : α}
    (h : l.filter (fun x => p x && q x) = [a]) : a ∈ l.filter p ∧ a ∈ l.filter q := by
  have hmem : a ∈ l.filter fun x => p x && q x := by
    rw [h]
    exact mem_singleton_self a
  rw [mem_filter, Bool.and_eq_true] at hmem
  exact ⟨mem_filter.2 ⟨hmem.1, hmem.2.1⟩, mem_filter.2 ⟨hmem.1, hmem.2.2⟩⟩

variable {ε : Type} {bitcoin : Nat → Except ε BitcoinBlock}

theorem parentTransactionIndex_eq_ok {parent : SortitionInfo} {hash seed : Bytes 32}
    {keyHash : Hash160} {block : BitcoinBlock} {winner : BitcoinOperation}
    (hhash : parent.committedBlockHash = some hash) (hseed : parent.vrfSeed = some seed)
    (hkey : parent.minerPublicKeyHash = some keyHash)
    (hblock : bitcoin parent.bitcoinHeight = .ok block)
    (hcommits : winner ∈ block.operations.filter (commitsTo hash seed))
    (hinherits : winner ∈ block.operations.filter (inheritsKey bitcoin keyHash)) {index : Nat} :
    parentTransactionIndex bitcoin parent = .ok index ↔
      index = winner.transactionIndex ∧ winner.transactionIndex < 2 ^ 16 ∧
        (block.operations.filter (commitsTo hash seed) = [winner] ∨
          block.operations.filter (inheritsKey bitcoin keyHash) = [winner]) := by
  have hindex : ∀ operation : BitcoinOperation,
      (transactionIndex operation : Except (CommitmentPlanError ε) Nat) = .ok index ↔
        index = operation.transactionIndex ∧ operation.transactionIndex < 2 ^ 16 := by
    intro operation
    simp only [transactionIndex, bind_eq_ok, ensure_eq_ok, return_eq_ok]
    constructor
    · rintro ⟨-, hfits, rfl⟩
      exact ⟨rfl, hfits⟩
    · rintro ⟨rfl, hfits⟩
      exact ⟨(), hfits, rfl⟩
  rw [parentTransactionIndex, hhash, hseed, hkey, hblock]
  simp only [Except.mapError, ok_bind]
  rcases hfirst : block.operations.filter (commitsTo hash seed) with _ | ⟨first, _ | ⟨other, more⟩⟩
  · rw [hfirst] at hcommits
    exact absurd hcommits not_mem_nil
  · rw [hfirst, mem_singleton] at hcommits
    subst hcommits
    rw [hindex]
    simp
  · rcases hsecond : block.operations.filter (inheritsKey bitcoin keyHash)
      with _ | ⟨found, _ | ⟨another, rest⟩⟩
    · rw [hsecond] at hinherits
      exact absurd hinherits not_mem_nil
    · rw [hsecond, mem_singleton] at hinherits
      subst hinherits
      rw [hindex]
      simp
    · simp

/-- A commitment that alone combines the elected block, its seed and the miner's key is found exactly
when the heights and its place fit their fields and either no other operation commits to that block
and seed or no other operation inherits that key. -/
theorem plan_names_winner_iff (H : Hashes) (key : RegisteredLeaderKey) {parent : CommitmentParent}
    {hash seed : Bytes 32} {keyHash : Hash160} {block : BitcoinBlock} {winner : BitcoinOperation}
    (hhash : parent.sortition.committedBlockHash = some hash)
    (hseed : parent.sortition.vrfSeed = some seed)
    (hkey : parent.sortition.minerPublicKeyHash = some keyHash)
    (hblock : bitcoin parent.sortition.bitcoinHeight = .ok block)
    (hwinner : block.operations.filter
      (fun operation => commitsTo hash seed operation && inheritsKey bitcoin keyHash operation)
        = [winner]) :
    (∃ plan, planLocalCommitment bitcoin H key parent = .ok plan ∧
        plan.commitment.parentTransactionIndex = winner.transactionIndex) ↔
      parent.bitcoinTipHeight + 1 < 2 ^ 64 ∧ parent.sortition.bitcoinHeight < 2 ^ 32 ∧
        winner.transactionIndex < 2 ^ 16 ∧
        (block.operations.filter (commitsTo hash seed) = [winner] ∨
          block.operations.filter (inheritsKey bitcoin keyHash) = [winner]) := by
  obtain ⟨hcommits, hinherits⟩ := mem_filter_of_filter_and hwinner
  simp only [planLocalCommitment, bind_eq_ok, ensure_eq_ok, return_eq_ok,
    parentTransactionIndex_eq_ok hhash hseed hkey hblock hcommits hinherits]
  constructor
  · rintro ⟨plan, ⟨-, htip, -, hheight, index, ⟨rfl, hfits, halone⟩, rfl⟩, -⟩
    exact ⟨htip, hheight, hfits, halone⟩
  · rintro ⟨htip, hheight, hfits, halone⟩
    exact ⟨_, ⟨(), htip, (), hheight, _, ⟨rfl, hfits, halone⟩, rfl⟩, rfl⟩

/-! ## Two miners and a second commitment of the winner's -/

/-- A commitment in place `index`, whose key is registered in block 1 at `registration`. -/
def plainCommitment (index : Nat) (block : UInt8) (registration : Nat) : BitcoinOperation where
  txid := replicate 32 (.ofNat index)
  transactionIndex := index
  inputs := []
  outputs := []
  kind := .leaderBlockCommit ⟨replicate 32 block, zero 32, 1, 0, 1, registration, epoch4Marker, 0⟩

/-- The registration in place `index` of the key with that number. -/
def plainRegistration (index : Nat) : BitcoinOperation where
  txid := replicate 32 (.ofNat index)
  transactionIndex := index
  inputs := []
  outputs := []
  kind := .leaderKeyRegistration (zero 20) (zero 32) (some (replicate 20 (.ofNat index))) []

/-- Keys 0 and 1 are registered in block 1; block 2 holds the operations given. -/
def plainBitcoin (operations : List BitcoinOperation) (height : Nat) : Except String BitcoinBlock :=
  .ok ⟨height, zero 32, 0,
    if height = 1 then [plainRegistration 0, plainRegistration 1] else operations⟩

/-- A parent elected in block 2: block 7, committed to with key 0. -/
def plainParent : CommitmentParent where
  bitcoinTipHeight := 2
  tenureStartBlockId := zero 32
  sortition := {
    bitcoinBlockHash := zero 32
    bitcoinHeight := 2
    bitcoinTimestamp := 0
    sortitionId := zero 32
    parentSortitionId := zero 32
    consensusHash := zero 20
    wasSortition := true
    minerPublicKeyHash := some (replicate 20 0)
    stacksParentConsensusHash := none
    lastSortitionConsensusHash := none
    committedBlockHash := some (replicate 32 7)
    vrfSeed := some (zero 32)
    miningCompetition := none }
  tenureVrfProof := zero 80
  sbtcAddress := .addr20 true (zero 20)
  rewardCycle := 0

/-- Two miners commit to the elected block, and the winner to another block as well. -/
def rivalCommitments : List BitcoinOperation :=
  [plainCommitment 0 7 0, plainCommitment 1 7 1, plainCommitment 2 8 0]

/-- The winner alone has the block, the seed and the key, and is not found: its other commitment has
the key too. -/
theorem winner_hidden_by_own_commitment :
    rivalCommitments.filter (fun operation =>
        commitsTo (replicate 32 7) (zero 32) operation &&
          inheritsKey (plainBitcoin rivalCommitments) (replicate 20 0) operation)
      = [plainCommitment 0 7 0] ∧
    planLocalCommitment (plainBitcoin rivalCommitments) blankHashes ⟨1, 0⟩ plainParent
      = .error .ambiguousParentCommitment := by
  decide +kernel

theorem plan_names_lone_winner :
    ∃ plan, planLocalCommitment (plainBitcoin [plainCommitment 0 7 0, plainCommitment 1 7 1])
        blankHashes ⟨1, 0⟩ plainParent = .ok plan ∧ plan.commitment.parentTransactionIndex = 0 :=
  (plan_names_winner_iff blankHashes ⟨1, 0⟩ rfl rfl rfl rfl
    (show _ = [plainCommitment 0 7 0] by decide +kernel)).2 (by decide +kernel)

end NanoStacks.Miner
