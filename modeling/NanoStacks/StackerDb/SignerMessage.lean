import NanoStacks.Codec.Block
import NanoStacks.StackerDb.Chunk
import NanoStacks.Lib.Strings

/-!
# Signer messages

What miners and signers say to each other in their slots. A reader of a message fails unless it uses
up all the bytes.
-/

namespace NanoStacks.StackerDb

open Bitcoin Sortition Chain Result Reader

def latestSignerProtocolVersion : Nat := 2

def blockResponseDataVersion : UInt8 := 5

def notRejected : UInt8 := 255

structure BlockProposal where
  block : Codec.NakamotoBlock
  bitcoinHeight : Nat
  rewardCycle : Nat
  /-- The versioned extension, byte for byte. -/
  data : List UInt8
  deriving DecidableEq

def BlockProposal.emptyData : List UInt8 := [1, 0, 0, 0, 4, 0, 0, 0, 0]

structure BlockAcceptance where
  signerSignatureHash : Bytes 32
  signature : MessageSignature
  serverVersion : String
  fullExtendTimestamp : Nat
  readCountExtendTimestamp : Nat
  deriving DecidableEq

def BlockAcceptance.withExtendTimestamp (signerSignatureHash : Bytes 32) (signature : MessageSignature)
    (extendTimestamp : Nat) : BlockAcceptance :=
  ⟨signerSignatureHash, signature, "nano-stacks/0.1.0", extendTimestamp, extendTimestamp⟩

structure BlockRejection where
  reason : String
  reasonCode : List UInt8
  signerSignatureHash : Bytes 32
  chainId : Nat
  signature : MessageSignature
  serverVersion : String
  data : List UInt8
  deriving DecidableEq

inductive CurrentMiner
  | none
  | active (publicKeyHash : Hash160) (tenureConsensusHash parentTenureConsensusHash : ConsensusHash)
      (parentTenureLastBlock : StacksBlockId) (parentTenureLastBlockHeight : Nat)
  deriving DecidableEq

structure StateMachineUpdate where
  activeProtocolVersion : Nat
  localSupportedProtocolVersion : Nat
  bitcoinConsensusHash : ConsensusHash
  bitcoinHeight : Nat
  currentMiner : CurrentMiner
  replayTransactions : List Codec.Transaction
  deriving DecidableEq

inductive BlockResponse
  | accepted (response : BlockAcceptance)
  | rejected (response : BlockRejection)
  deriving DecidableEq

inductive SignerMessage
  | blockProposal (proposal : BlockProposal)
  | blockResponse (response : BlockResponse)
  | blockPushed (block : Codec.NakamotoBlock)
  | stateMachineUpdate (update : StateMachineUpdate)
  | blockPreCommit (signerSignatureHash : Bytes 32)
  deriving DecidableEq

inductive SignerMessageError
  | truncated
  | trailingBytes
  | oversized
  | invalidMessageType (kind : UInt8)
  | invalidResponseType (kind : UInt8)
  | invalidText
  | invalidProposalData
  | invalidMinerState (variant : UInt8)
  | unsupportedProtocolVersion (version : Nat)
  | block (error : String)
  deriving DecidableEq

/-! ## Reading -/

abbrev ReadMessage (α : Type) := Reader SignerMessageError α

namespace Message

def byte : ReadMessage UInt8 := Reader.byte .truncated

def take (length : Nat) : ReadMessage (List UInt8) := Reader.take .truncated length

def array (length : Nat) : ReadMessage (Bytes length) := Reader.fixed .truncated length

def u32 : ReadMessage Nat := Reader.uint .truncated 4

def u64 : ReadMessage Nat := Reader.uint .truncated 8

def bytes : ReadMessage (List UInt8) := do
  let length ← u32
  check (length ≤ maxChunkSize) .oversized
  take length

def text : ReadMessage String := do
  let held ← bytes
  match fromUtf8 held with
  | some text => return text
  | none => throw .invalidText

def finished : ReadMessage Unit := fun s => do
  ensure (s = []) .trailingBytes
  return ((), s)

/-- What a reader finds in bytes of their own. -/
def within {α : Type} (held : List UInt8) (p : ReadMessage α) : ReadMessage α := fun s => do
  let (found, _) ← p held
  return (found, s)

/-- From version 5 on a hash may follow, which is passed over. -/
def passReplacedHash (version : UInt8) : ReadMessage Unit :=
  if 5 ≤ version.toNat then do
    let flag ← byte
    if flag = 0 then return () else do
      let _ ← take 32
      return ()
  else return ()

def responseFields (version : UInt8) : ReadMessage (Nat × Nat) := do
  let timestamp ← u64
  let flag ← byte
  check (flag = notRejected) (.invalidResponseType 1)
  if version.toNat < 4 then do
    finished
    return (timestamp, 2 ^ 64 - 1)
  else do
    let readCountTimestamp ← u64
    passReplacedHash version
    finished
    return (timestamp, readCountTimestamp)

def responseData : ReadMessage (Nat × Nat) := do
  let version ← byte
  let held ← bytes
  within held (responseFields version)

def rejectionCode : ReadMessage (List UInt8) := do
  let code ← byte
  check (code.toNat ≤ 5) (.invalidResponseType code)
  if code = 0 then do
    let detail ← byte
    return [code, detail]
  else return [code]

def rejectionData : ReadMessage (List UInt8) := do
  let (_, data) ← taken (do let _ ← byte; bytes)
  return data

section Blocks

variable (H : Hashes) (vrfParses : Bytes 80 → Bool)

def block : ReadMessage Codec.NakamotoBlock := fun s =>
  match Codec.NakamotoBlock.decodePrefix H vrfParses s with
  | .ok (block, consumed) => .ok (block, s.drop consumed)
  | .error error => .error (.block error.display)

def replayTransaction : ReadMessage Codec.Transaction := fun s =>
  match Codec.Transaction.decode vrfParses s with
  | .ok (transaction, consumed) => .ok (transaction, s.drop consumed)
  | .error error => .error (.block error.display)

def replayTransactions (version : Nat) : ReadMessage (List Codec.Transaction) :=
  if 1 ≤ version then do
    let count ← u32
    times count (replayTransaction vrfParses)
  else return []

def currentMiner : ReadMessage CurrentMiner := do
  let variant ← byte
  match variant with
  | 0 => return .none
  | 1 => do
    let publicKeyHash ← array 20
    let tenureConsensusHash ← array 20
    let parentTenureConsensusHash ← array 20
    let parentTenureLastBlock ← array 32
    let parentTenureLastBlockHeight ← u64
    return .active publicKeyHash tenureConsensusHash parentTenureConsensusHash parentTenureLastBlock
      parentTenureLastBlockHeight
  | variant => throw (.invalidMinerState variant)

def updateContent (active supported : Nat) : ReadMessage StateMachineUpdate := do
  let bitcoinConsensusHash ← array 20
  let bitcoinHeight ← u64
  let miner ← currentMiner
  let transactions ← replayTransactions vrfParses (min active supported)
  finished
  return ⟨active, supported, bitcoinConsensusHash, bitcoinHeight, miner, transactions⟩

def stateMachineUpdate : ReadMessage StateMachineUpdate := do
  let active ← u64
  let supported ← u64
  check (min active supported ≤ latestSignerProtocolVersion)
    (.unsupportedProtocolVersion (min active supported))
  let length ← u32
  let content ← take length
  within content (updateContent vrfParses active supported)

def blockProposal : ReadMessage BlockProposal := do
  let block ← block H vrfParses
  let bitcoinHeight ← u64
  let rewardCycle ← u64
  let left ← remaining
  let data ← take left
  return ⟨block, bitcoinHeight, rewardCycle, data⟩

def acceptance : ReadMessage BlockAcceptance := do
  let signerSignatureHash ← array 32
  let signature ← array 65
  let serverVersion ← text
  let (fullExtendTimestamp, readCountExtendTimestamp) ← responseData
  return ⟨signerSignatureHash, signature, serverVersion, fullExtendTimestamp, readCountExtendTimestamp⟩

def rejection : ReadMessage BlockRejection := do
  let reason ← text
  let reasonCode ← rejectionCode
  let signerSignatureHash ← array 32
  let chainId ← u32
  let signature ← array 65
  let serverVersion ← text
  let data ← rejectionData
  return ⟨reason, reasonCode, signerSignatureHash, chainId, signature, serverVersion, data⟩

def blockResponse : ReadMessage BlockResponse := do
  let responseType ← byte
  match responseType with
  | 0 => .accepted <$> acceptance
  | 1 => .rejected <$> rejection
  | kind => throw (.invalidResponseType kind)

def read : ReadMessage SignerMessage := do
  let kind ← byte
  match kind with
  | 0 => .blockProposal <$> blockProposal H vrfParses
  | 1 => .blockResponse <$> blockResponse
  | 2 => .blockPushed <$> block H vrfParses
  | 6 => .stateMachineUpdate <$> stateMachineUpdate vrfParses
  | 7 => .blockPreCommit <$> array 32
  | kind => throw (.invalidMessageType kind)

end Blocks

/-! ## Writing -/

/-- Bytes behind their length. -/
def writeBytes (held : List UInt8) : Except SignerMessageError (List UInt8) := do
  ensure (held.length < 2 ^ 32) .oversized
  return toBe 4 held.length ++ held

def writeResponseData (response : BlockAcceptance) : Except SignerMessageError (List UInt8) := do
  let inner ← writeBytes (toBe 8 response.fullExtendTimestamp ++ [notRejected] ++
    toBe 8 response.readCountExtendTimestamp ++ [0])
  return blockResponseDataVersion :: inner

def writeMiner : CurrentMiner → List UInt8
  | .none => [0]
  | .active publicKeyHash tenureConsensusHash parentTenureConsensusHash parentTenureLastBlock
      parentTenureLastBlockHeight =>
    1 :: (publicKeyHash.toList ++ tenureConsensusHash.toList ++ parentTenureConsensusHash.toList ++
      parentTenureLastBlock.toList ++ toBe 8 parentTenureLastBlockHeight)

def writeReplay (version : Nat) (transactions : List Codec.Transaction) :
    Except SignerMessageError (List UInt8) :=
  if 1 ≤ version then do
    ensure (transactions.length < 2 ^ 32) .oversized
    return toBe 4 transactions.length ++ transactions.flatMap (·.bytes)
  else return []

def writeStateMachineUpdate (update : StateMachineUpdate) : Except SignerMessageError (List UInt8) := do
  let version := min update.activeProtocolVersion update.localSupportedProtocolVersion
  ensure (version ≤ latestSignerProtocolVersion) (.unsupportedProtocolVersion version)
  let replay ← writeReplay version update.replayTransactions
  let content ← writeBytes (update.bitcoinConsensusHash.toList ++ toBe 8 update.bitcoinHeight ++
    writeMiner update.currentMiner ++ replay)
  return toBe 8 update.activeProtocolVersion ++ toBe 8 update.localSupportedProtocolVersion ++ content

def write : SignerMessage → Except SignerMessageError (List UInt8)
  | .blockProposal proposal => do
    ensure (proposal.data ≠ []) .invalidProposalData
    return 0 :: (proposal.block.encode ++ toBe 8 proposal.bitcoinHeight ++ toBe 8 proposal.rewardCycle ++
      proposal.data)
  | .blockResponse (.accepted response) => do
    let serverVersion ← writeBytes (utf8 response.serverVersion)
    let data ← writeResponseData response
    return 1 :: 0 :: (response.signerSignatureHash.toList ++ response.signature.toList ++ serverVersion ++
      data)
  | .blockResponse (.rejected response) => do
    let reason ← writeBytes (utf8 response.reason)
    let serverVersion ← writeBytes (utf8 response.serverVersion)
    return 1 :: 1 :: (reason ++ response.reasonCode ++ response.signerSignatureHash.toList ++
      toBe 4 response.chainId ++ response.signature.toList ++ serverVersion ++ response.data)
  | .blockPushed block => return 2 :: block.encode
  | .blockPreCommit signerSignatureHash => return 7 :: signerSignatureHash.toList
  | .stateMachineUpdate update => do
    let content ← writeStateMachineUpdate update
    return 6 :: content

end Message

namespace SignerMessage

/-- The message a whole chunk holds. -/
def decode (H : Hashes) (vrfParses : Bytes 80 → Bool) (bytes : List UInt8) :
    Except SignerMessageError SignerMessage := do
  ensure (bytes.length ≤ maxChunkSize) .oversized
  let (message, rest) ← Message.read H vrfParses bytes
  ensure (rest = []) .trailingBytes
  return message

def encode (message : SignerMessage) : Except SignerMessageError (List UInt8) := do
  let bytes ← Message.write message
  ensure (bytes.length ≤ maxChunkSize) .oversized
  return bytes

end SignerMessage

/-! ## Reading an acceptance back -/

namespace Message

variable {s rest : List UInt8}

@[simp] theorem byte_eq_ok {b : UInt8} : byte s = .ok (b, rest) ↔ s = b :: rest := Reader.byte_eq_ok _

@[simp] theorem array_eq_ok {length : Nat} {b : Bytes length} :
    array length s = .ok (b, rest) ↔ s = b.toList ++ rest := Reader.fixed_eq_ok _

@[simp] theorem u64_eq_ok {n : Nat} : u64 s = .ok (n, rest) ↔ n < 256 ^ 8 ∧ s = toBe 8 n ++ rest :=
  Reader.uint_eq_ok _

@[simp] theorem bytes_eq_ok {held : List UInt8} :
    bytes s = .ok (held, rest) ↔
      held.length ≤ maxChunkSize ∧ s = toBe 4 held.length ++ (held ++ rest) := by
  have hbound : maxChunkSize < 256 ^ 4 := by decide
  simp [bytes, u32, take, Reader.uint_eq_ok, Reader.take_eq_ok]
  grind

@[simp] theorem text_eq_ok {value : String} :
    text s = .ok (value, rest) ↔ (utf8 value).length ≤ maxChunkSize ∧
      s = toBe 4 (utf8 value).length ++ (utf8 value ++ rest) := by
  have hfound (held mid : List UInt8) : (match fromUtf8 held with
      | some text => return text
      | none => throw .invalidText : ReadMessage String) mid = .ok (value, rest) ↔
        utf8 value = held ∧ mid = rest := by
    rw [← fromUtf8_eq_some]
    cases fromUtf8 held <;> simp
  simp [text, hfound]

@[simp] theorem finished_eq_ok {u : Unit} : finished s = .ok (u, rest) ↔ s = [] ∧ rest = [] := by
  simp [finished, Result.bind_eq_ok, ensure_eq_ok]
  grind

/-- What an acceptance says about extensions, as version 5 writes it. -/
def responseInner (response : BlockAcceptance) : List UInt8 :=
  toBe 8 response.fullExtendTimestamp ++ [notRejected] ++ toBe 8 response.readCountExtendTimestamp ++ [0]

theorem length_responseInner (response : BlockAcceptance) : (responseInner response).length = 18 := by
  simp [responseInner]

/-- The times of an acceptance are 64 bits wide. -/
def TimesFit (response : BlockAcceptance) : Prop :=
  response.fullExtendTimestamp < 2 ^ 64 ∧ response.readCountExtendTimestamp < 2 ^ 64

variable {response : BlockAcceptance}

theorem responseFields_inner (hfit : TimesFit response) :
    responseFields blockResponseDataVersion (responseInner response)
      = .ok ((response.fullExtendTimestamp, response.readCountExtendTimestamp), []) := by
  obtain ⟨hfull, hcount⟩ := hfit
  have hpass : passReplacedHash blockResponseDataVersion [0] = .ok ((), []) := rfl
  simp only [responseFields, Reader.bind_eq_ok, u64_eq_ok, byte_eq_ok, Reader.check_eq_ok]
  refine ⟨response.fullExtendTimestamp, notRejected :: (toBe 8 response.readCountExtendTimestamp ++ [0]),
    ⟨by omega, by simp [responseInner]⟩, notRejected, _, rfl, (), _, ⟨rfl, rfl⟩, ?_⟩
  rw [if_neg (by decide)]
  simp only [Reader.bind_eq_ok, u64_eq_ok]
  exact ⟨_, _, ⟨by omega, rfl⟩, (), [], hpass, (), [], finished_eq_ok.2 ⟨rfl, rfl⟩, rfl⟩

theorem responseData_inner (hfit : TimesFit response) :
    responseData (blockResponseDataVersion ::
        (toBe 4 (responseInner response).length ++ responseInner response))
      = .ok ((response.fullExtendTimestamp, response.readCountExtendTimestamp), []) := by
  simp only [responseData, Reader.bind_eq_ok, byte_eq_ok, bytes_eq_ok]
  refine ⟨_, _, rfl, responseInner response, [], ⟨?_, by rw [List.append_nil]⟩, ?_⟩
  · rw [length_responseInner]
    decide
  · rw [within, responseFields_inner hfit]
    rfl

theorem acceptance_written (hfit : TimesFit response)
    (htext : (utf8 response.serverVersion).length ≤ maxChunkSize) :
    acceptance (response.signerSignatureHash.toList ++ response.signature.toList ++
        (toBe 4 (utf8 response.serverVersion).length ++ utf8 response.serverVersion) ++
        blockResponseDataVersion :: (toBe 4 (responseInner response).length ++ responseInner response))
      = .ok (response, []) := by
  simp only [acceptance, Reader.bind_eq_ok, array_eq_ok, text_eq_ok, Reader.pure_eq_ok]
  exact ⟨_, _, by simp only [List.append_assoc], _, _, rfl, _, _, ⟨htext, rfl⟩, _, _,
    responseData_inner hfit, rfl, rfl⟩

end Message

end NanoStacks.StackerDb
