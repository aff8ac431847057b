import NanoStacks.Chain.Block

/-!
# What a block says about itself

`authenticate_block`: the checks a block answers from its own contents and the chain's identity.
Signature recovery and the VRF are parameters beside the digests (`Crypto`). What later proofs use of
the whole check is `authenticateBlock_tenureChange`: the one tenure change a block may carry names the
block's own tenure and parent, and names its own tenure as the previous one exactly when it does not
start a new one.
-/

namespace NanoStacks.Chain

open Bitcoin Sortition Result List

/-- The digests and the signature schemes the source calls. -/
structure Crypto extends Hashes where
  /-- The `Hash160` of the public key a signature of a digest recovers to. -/
  recover : MessageSignature → Bytes 32 → Option Hash160
  /-- What the error says where it recovers to none. -/
  recoverError : MessageSignature → Bytes 32 → String
  /-- `Transaction::verify_authorization`. -/
  verifyAuthorization : Transaction → Bool
  authorizationError : Transaction → String
  /-- The verdict on a VRF proof, or `none` if the key or the proof is malformed. -/
  vrfVerify : Bytes 32 → Bytes 80 → Bytes 32 → Option Bool
  /-- The signature of a digest under a private key. -/
  sign : Bytes 32 → Bytes 32 → MessageSignature

instance : Coe Crypto Hashes := ⟨Crypto.toHashes⟩

inductive SignerSetError
  | empty
  | duplicateSigner
  | zeroThreshold
  | zeroRewardSlots
  | stackedAmountOverflow
  | weightOverflow
  | signature (error : String)
  | unknownOrUnorderedSigner
  | insufficientWeight
  deriving DecidableEq

inductive ConsensusError
  | headerVersion (version : UInt8)
  | emptyBlock
  | transactionNetwork (txid : Txid)
  | transactionChainId (txid : Txid) (chainId : Nat)
  | transactionAnchorMode (txid : Txid)
  | coinbaseWithoutVrfProof (txid : Txid)
  | tenureTransactionCount (coinbases tenureChanges : Nat)
  | coinbaseWithoutTenureChange
  | tenureTransactionPosition (tenureChange : Nat) (coinbase : Option Nat)
  | tenureChangeCause (cause : TenureChangeCause)
  | tenureChangeParent
  | tenureChangeConsensusHash
  | tenureChangePreviousTenure
  | tenureChangeParentTenure
  | tenureChangeParentUnavailable
  | tenureChangeLengthUnavailable
  | tenureChangeBlockCount (claimed executed : Nat)
  | minerSignatureUnrecoverable
  | tenureChangeMinerKey
  | minerIsNotTheSortitionWinner (registered signed : Hash160)
  | winnerVrfKeyUnavailable
  | winnerSigningKeyUnavailable
  | problematicMarkerCount (markers : Nat)
  | problematicMarkerOrder (index : Nat)
  | problematicMarkerOutOfBounds (index : Nat)
  | problematicMarkerTarget (index : Nat)
  | signerWeight (error : SignerSetError)
  | signerSetUnavailable (cycle : Nat)
  | bitcoinSpent (header derived : Nat)
  deriving DecidableEq

namespace SignerSetError

def display : SignerSetError → String
  | empty => "signer set is empty"
  | duplicateSigner => "signer set has duplicate public keys"
  | zeroThreshold => "signer threshold cannot be zero"
  | zeroRewardSlots => "reward slot count cannot be zero"
  | stackedAmountOverflow => "stacked amount overflows"
  | weightOverflow => "signer weight overflows"
  | signature error => s!"invalid signer signature: {error}"
  | unknownOrUnorderedSigner => "signer is unknown or signatures are out of reward-set order"
  | insufficientWeight => "signer weight is below approval threshold"

end SignerSetError

def TenureChangeCause.debug : TenureChangeCause → String
  | blockFound => "BlockFound"
  | extended => "Extended"
  | extendedRuntime => "ExtendedRuntime"
  | extendedReadCount => "ExtendedReadCount"
  | extendedReadLength => "ExtendedReadLength"
  | extendedWriteCount => "ExtendedWriteCount"
  | extendedWriteLength => "ExtendedWriteLength"

def debugNat : Option Nat → String
  | none => "None"
  | some n => "Some(" ++ toString n ++ ")"

def nakamotoBlockVersion : Nat := 1

def maxProblematicTransactionMarkers : Nat := 2 * 1024 * 1024 / 180

/-- The eight hexadecimal digits of a chain identifier. -/
def hexChainId (chainId : Nat) : String := "0x" ++ (Bytes.fill 4 (toBe 4 chainId)).hex

def ConsensusError.display : ConsensusError → String
  | headerVersion version => "block header version " ++ toString version ++ " is not epoch 4.0's"
  | emptyBlock => "block carries no transactions"
  | transactionNetwork txid => "transaction " ++ txid.hex ++ " is for another network"
  | transactionChainId txid chainId =>
    "transaction " ++ txid.hex ++ " names chain " ++ hexChainId chainId
  | transactionAnchorMode txid =>
    "transaction " ++ txid.hex ++ " is anchored off-chain, which 4.0 has no place for"
  | coinbaseWithoutVrfProof txid =>
    "coinbase " ++ txid.hex ++ " carries no VRF proof, which every Nakamoto coinbase does"
  | tenureTransactionCount coinbases tenureChanges =>
    "block carries " ++ toString coinbases ++ " coinbases and " ++ toString tenureChanges ++
      " tenure changes"
  | coinbaseWithoutTenureChange => "block carries a coinbase without a tenure change"
  | tenureTransactionPosition tenureChange coinbase =>
    "the tenure change is transaction " ++ toString tenureChange ++ " and the coinbase is " ++
      debugNat coinbase ++
      ", where a tenure starts with the change first and the coinbase second"
  | tenureChangeCause cause =>
    "tenure change cause " ++ cause.debug ++ " does not match the transactions accompanying it"
  | tenureChangeParent => "the tenure change does not end at this block's parent"
  | tenureChangeConsensusHash => "the tenure change names a tenure other than the block's own"
  | tenureChangePreviousTenure =>
    "the tenure change's previous tenure is not the one its cause requires"
  | tenureChangeParentTenure =>
    "the tenure change names a previous tenure this chain did not execute"
  | tenureChangeParentUnavailable =>
    "the tenure change's parent is absent from the authenticated block history"
  | tenureChangeLengthUnavailable =>
    "the tenure change's parent has no authenticated tenure start height"
  | tenureChangeBlockCount claimed executed =>
    "the tenure change reports " ++ toString claimed ++
      " blocks in the tenure it ends, where this chain executed " ++ toString executed
  | minerSignatureUnrecoverable => "the miner signature recovers to no public key"
  | tenureChangeMinerKey =>
    "the tenure change was not signed by the miner that signed the block"
  | minerIsNotTheSortitionWinner registered signed =>
    "the block was not signed by the miner whose leader key won its sortition: the winning key " ++
      "is registered with " ++ registered.hex ++ ", the header signed by " ++ signed.hex
  | winnerVrfKeyUnavailable => "the local sortition carries no winning VRF key for this tenure"
  | winnerSigningKeyUnavailable =>
    "the winning leader key carries no registered block-signing key hash"
  | problematicMarkerCount markers =>
    toString markers ++ " problematic-transaction markers exceed the cap of " ++
      toString maxProblematicTransactionMarkers
  | problematicMarkerOrder index =>
    "problematic-transaction marker " ++ toString index ++ " does not follow the one before it"
  | problematicMarkerOutOfBounds index =>
    "problematic-transaction marker " ++ toString index ++ " points past the end of the block"
  | problematicMarkerTarget index =>
    "problematic-transaction marker " ++ toString index ++ " points at a coinbase or tenure change"
  | signerWeight error => "signer signatures: " ++ error.display
  | signerSetUnavailable cycle =>
    "reward cycle " ++ toString cycle ++ " has no authenticated signer set"
  | bitcoinSpent header derived =>
    "the header spends " ++ toString header ++ " burn and this node's burnchain makes it " ++
      toString derived

inductive Signatures
  | present
  | pending
  deriving DecidableEq

variable (C : Crypto)

/-! ## One transaction -/

def checkTransaction (transaction : Transaction) (network : Network) :
    Except ConsensusError Unit := do
  let txid := transaction.txid C
  ensure (transaction.networkMainnet = network.mainnet) (.transactionNetwork txid)
  ensure (transaction.chainId = network.chainId) (.transactionChainId txid transaction.chainId)
  ensure (transaction.anchorMode ≠ .offChainOnly) (.transactionAnchorMode txid)
  match transaction.payload with
  | .coinbase .. | .coinbaseToAltRecipient .. => .error (.coinbaseWithoutVrfProof txid)
  | _ => .ok ()

/-! ## The tenure change and the coinbase -/

def positionsOf (wanted : Transaction → Bool) (transactions : List Transaction) : List Nat :=
  (transactions.zipIdx.filter fun entry => wanted entry.1).map (·.2)

def checkTenureTransactions (block : NakamotoBlock) : Except ConsensusError Unit := do
  let coinbases := positionsOf (·.isCoinbase) block.transactions
  let tenureChanges := positionsOf (·.isTenureChange) block.transactions
  ensure (coinbases.length ≤ 1 ∧ tenureChanges.length ≤ 1)
    (.tenureTransactionCount coinbases.length tenureChanges.length)
  let coinbase := coinbases.head?
  match tenureChanges.head? with
  | none => ensure (coinbase = none) .coinbaseWithoutTenureChange
  | some tenureChange =>
    let payload ← okOr block.tenureChangePayload (.tenureTransactionPosition tenureChange coinbase)
    let expectedCoinbase := if payload.cause = .blockFound then some 1 else none
    ensure (tenureChange = 0 ∧ coinbase = expectedCoinbase)
      (if coinbase.isSome = expectedCoinbase.isSome then
        .tenureTransactionPosition tenureChange coinbase
      else .tenureChangeCause payload.cause)
    ensure (payload.previousTenureEnd = block.header.parentBlockId) .tenureChangeParent
    ensure (payload.tenureConsensusHash = block.header.consensusHash) .tenureChangeConsensusHash
    ensure (payload.previousTenureConsensusHash = payload.tenureConsensusHash ↔
      payload.cause ≠ .blockFound) .tenureChangePreviousTenure

/-! ## The markers -/

/-- The loop over the markers, from the index of the one before. -/
def checkMarkers (transactions : List Transaction) :
    Option Nat → List ProblematicTransaction → Except ConsensusError Unit
  | _, [] => .ok ()
  | previous, marker :: rest => do
    ensure (∀ p ∈ previous, p < marker.index) (.problematicMarkerOrder marker.index)
    let transaction ← okOr transactions[marker.index]? (.problematicMarkerOutOfBounds marker.index)
    ensure (¬(transaction.isCoinbase || transaction.isTenureChange))
      (.problematicMarkerTarget marker.index)
    checkMarkers transactions (some marker.index) rest

def checkProblematicMarkers (block : NakamotoBlock) : Except ConsensusError Unit := do
  let markers := block.header.problematicTransactions
  ensure (markers.length ≤ maxProblematicTransactionMarkers)
    (.problematicMarkerCount markers.length)
  checkMarkers block.transactions none markers

/-! ## The miner -/

def recoveredMinerKeyHash (header : NakamotoBlockHeader) : Except ConsensusError Hash160 :=
  okOr (C.recover header.minerSignature (header.minerSignatureHash C))
    .minerSignatureUnrecoverable

def checkTenureChangeMiner (block : NakamotoBlock) : Except ConsensusError Unit :=
  match block.tenureChangePayload with
  | none => .ok ()
  | some payload => do
    let signed ← recoveredMinerKeyHash C block.header
    ensure (payload.publicKeyHash = signed) .tenureChangeMinerKey

def verifyMinerSignature (header : NakamotoBlockHeader) (registered : Hash160) :
    Except ConsensusError Unit := do
  let signed ← recoveredMinerKeyHash C header
  ensure (signed = registered) (.minerIsNotTheSortitionWinner registered signed)

def registeredSigningKeyHash (operations : List BitcoinOperation) (vrfPublicKey : Bytes 32) :
    Option Hash160 :=
  operations.findSome? fun operation =>
    match operation.kind with
    | .leaderKeyRegistration _ registered blockSigningKeyHash _ =>
      if registered = vrfPublicKey then blockSigningKeyHash else none
    | _ => none

/-! ## The whole block -/

def authenticateBlock (block : NakamotoBlock) (network : Network) (signatures : Signatures) :
    Except ConsensusError Unit := do
  ensure (block.header.version.toNat % 128 = nakamotoBlockVersion)
    (.headerVersion block.header.version)
  ensure (signatures = .pending ∨ block.transactions ≠ []) .emptyBlock
  block.transactions.forM (checkTransaction C · network)
  checkProblematicMarkers block
  checkTenureTransactions block
  match signatures with
  | .present => checkTenureChangeMiner C block
  | .pending => .ok ()

/-! ## What it establishes -/

theorem length_positionsOf (wanted : Transaction → Bool) (transactions : List Transaction) :
    (positionsOf wanted transactions).length = transactions.countP wanted := by
  rw [positionsOf, length_map, ← countP_eq_length_filter]
  conv_rhs => rw [← zipIdx_map_fst 0 transactions, countP_map]
  rfl

variable {payload : TenureChangePayload}

theorem any_tenureChange_of_countP_le_one (p : TenureChangePayload → Bool)
    {transactions : List Transaction} (hone : transactions.countP (·.isTenureChange) ≤ 1)
    (hfirst : transactions.findSome? (·.tenureChange?) = some payload) :
    (transactions.any fun transaction => transaction.tenureChange?.any p) = p payload := by
  induction transactions with
  | nil => simp at hfirst
  | cons transaction rest ih =>
    rw [findSome?_cons] at hfirst
    rw [countP_cons] at hone
    rw [any_cons]
    cases htx : transaction.tenureChange? with
    | none =>
      rw [htx] at hfirst
      have hnot : transaction.isTenureChange = false := by rw [Transaction.isTenureChange, htx]; rfl
      simpa using ih (by simpa [hnot] using hone) hfirst
    | some first =>
      rw [htx] at hfirst
      obtain rfl := Option.some.inj hfirst
      -- the count is used up, so the rest carries none
      have hchange : transaction.isTenureChange = true := by
        rw [Transaction.isTenureChange, htx]
        rfl
      have hzero : rest.countP (·.isTenureChange) = 0 := by
        rw [if_pos hchange] at hone
        omega
      have hnone : ∀ tx ∈ rest, tx.tenureChange? = none := by
        intro tx htx'
        simpa [Transaction.isTenureChange] using countP_eq_zero.1 hzero tx htx'
      have hrest : (rest.any fun tx => tx.tenureChange?.any p) = false := by
        rw [any_eq_false]
        intro tx htx'
        simp [hnone tx htx']
      simp [hrest]

/-- What the accepted shape of a tenure change says. -/
structure TenureChangeOf (block : NakamotoBlock) (payload : TenureChangePayload) : Prop where
  startsNewTenure : block.startsNewTenure = true ↔ payload.cause = .blockFound
  parent : payload.previousTenureEnd = block.header.parentBlockId
  tenure : payload.tenureConsensusHash = block.header.consensusHash
  extends_iff : payload.previousTenureConsensusHash = payload.tenureConsensusHash ↔
    payload.cause ≠ .blockFound

variable {block : NakamotoBlock}

theorem checkTenureTransactions_tenureChange (h : checkTenureTransactions block = .ok ())
    (hpayload : block.tenureChangePayload = some payload) : TenureChangeOf block payload := by
  simp only [checkTenureTransactions, bind_eq_ok, ensure_eq_ok, length_positionsOf] at h
  obtain ⟨-, ⟨-, hone⟩, h⟩ := h
  have hstarts := any_tenureChange_of_countP_le_one (·.cause == .blockFound) hone hpayload
  split at h
  · rename_i hhead
    -- without a tenure change there is no payload either
    rw [head?_eq_none_iff, ← length_eq_zero_iff, length_positionsOf, countP_eq_zero] at hhead
    have hsome : block.transactions.any (·.isTenureChange) = true := by
      rw [NakamotoBlock.any_isTenureChange, hpayload]
      rfl
    obtain ⟨tx, htx, hchange⟩ := any_eq_true.1 hsome
    exact absurd hchange (hhead tx htx)
  · simp only [hpayload, okOr_some, bind_eq_ok, Except.ok.injEq, ensure_eq_ok] at h
    obtain ⟨_, rfl, -, -, -, hparent, -, htenure, hextends⟩ := h
    refine ⟨?_, hparent, htenure, hextends⟩
    rw [NakamotoBlock.startsNewTenure, hstarts, beq_iff_eq]

variable {C}

theorem authenticateBlock_tenureTransactions {network : Network} {signatures : Signatures}
    (h : authenticateBlock C block network signatures = .ok ()) :
    checkTenureTransactions block = .ok () := by
  simp only [authenticateBlock, bind_eq_ok] at h
  obtain ⟨-, -, -, -, -, -, -, -, ⟨⟩, htenure, -⟩ := h
  exact htenure

theorem authenticateBlock_tenureChange {network : Network} {signatures : Signatures}
    (h : authenticateBlock C block network signatures = .ok ())
    (hpayload : block.tenureChangePayload = some payload) : TenureChangeOf block payload :=
  checkTenureTransactions_tenureChange (authenticateBlock_tenureTransactions h) hpayload

end NanoStacks.Chain
