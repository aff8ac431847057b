import NanoStacks.StackerDb.SignerMessage
import NanoStacks.Lib.OrdMap
import NanoStacks.Lib.Runs
import Mathlib.Data.Prod.Lex

/-!
# The embedded signer

A signer answers a proposal with a signed chunk and remembers under the block's position what it has
signed there and when. What it remembers is written to a state file before a chunk is handed out, and
read again, and checked again, when the signer is opened.

The clock, the outcome of a write and the validator are not the signer's: a call takes the clock's
readings in the order it makes them (`Readings`), what becomes of its write (`Replacement`), and the
validator is any type with a verdict. A `World` is a process that may be running beside the file it
leaves behind, and a `Step` of it is a call, a call the process does not survive, a crash or an opening.
-/

namespace NanoStacks.Signer

open Sortition Chain Result StackerDb

/-- A tenure and a height in it. -/
abbrev Position := ConsensusHash ×ₗ Nat

structure SignedBlock where
  signatureHash : Bytes 32
  chunk : Chunk
  signedAtUnix : Nat

abbrev SignedBlocks := OrdMap Position SignedBlock

inductive SignerStateError
  | io
  | invalid (text : String)
  | chunk (error : StackerDbError)
  | message (error : SignerMessageError)
  deriving DecidableEq

inductive SignerError
  | validation (text : String)
  | equivocation
  | slotVersionOverflow
  | message (error : SignerMessageError)
  | chunk (error : StackerDbError)
  | state (error : SignerStateError)
  deriving DecidableEq

structure SignerConfig (C : Crypto) where
  privateKey : StacksPrivateKey C
  writerSlot : UInt32
  nextSlotVersion : UInt32
  conflictTimeoutSecs : Nat

structure PersistedSignedBlock where
  consensusHash : String
  chainLength : Nat
  signatureHash : String
  chunk : String
  signedAtUnix : Nat
  deriving DecidableEq

structure PersistedSignerState where
  version : UInt8
  writerPublicKeyHash : String
  writerSlot : UInt32
  nextSlotVersion : UInt32
  signed : List PersistedSignedBlock
  deriving DecidableEq

/-- The state file, if there is one. -/
abbrev StateFile := Option PersistedSignerState

def signerStateVersion : UInt8 := 1

/-- What becomes of an attempt to replace the file: it is replaced, or it is not, or it is and the
attempt is reported to have failed all the same, because the directory could not be synced. -/
inductive Replacement
  | stored
  | failed
  | unsynced
  deriving DecidableEq

/-! ## The state file -/

/-- The error of `hex::decode`. -/
def hexError (text : List UInt8) : String :=
  if text.length % 2 = 1 then "Odd number of digits"
  else
    let index := text.findIdx (hexValue · = none)
    let character := Char.ofNat (text.getD index 0).toNat
    s!"Invalid character {character.quote} at position {index}"

def decodeHex (n : Nat) (value : String) : Except SignerStateError (Bytes n) := do
  let text := utf8 value
  let bytes ← okOr (unhex text) (.invalid s!"invalid hexadecimal value: {hexError text}")
  let length := bytes.length
  okOr (Bytes.ofList? n bytes) (.invalid s!"expected {n} bytes, found {length}")

def acceptedResponse : SignerMessage → Except SignerStateError BlockAcceptance
  | .blockResponse (.accepted response) => .ok response
  | _ => .error (.invalid "stored chunk is not a block response")

namespace SignerStateStore

variable {C : Crypto} (vrfParses : Bytes 80 → Bool)

/-- One stored block of a state, checked against the state and the signer it is for. -/
def validateEntry (persisted : PersistedSignerState) (config : SignerConfig C)
    (entry : PersistedSignedBlock) : Except SignerStateError (Position × SignedBlock) := do
  let writer := writerIdentity config.privateKey
  let consensusHash ← decodeHex 20 entry.consensusHash
  let signatureHash ← decodeHex 32 entry.signatureHash
  let text := utf8 entry.chunk
  let bytes ← okOr (unhex text) (.invalid s!"invalid chunk hex: {hexError text}")
  let chunk ← (Chunk.decode bytes).mapError .chunk
  ensure (chunk.slotId = persisted.writerSlot) (.invalid "stored chunk has the wrong writer slot")
  ensure (chunk.slotVersion < persisted.nextSlotVersion)
    (.invalid "stored chunk version has not been reserved")
  let verified ← (chunk.verify C writer).mapError .chunk
  ensure (verified = true) (.invalid "stored chunk was not signed by this signer")
  let message ← (SignerMessage.decode C vrfParses chunk.data).mapError .message
  let response ← acceptedResponse message
  ensure (response.signerSignatureHash = signatureHash)
    (.invalid "stored response hashes a different block")
  let responseKey ← okOr (C.recover response.signature signatureHash)
    (.invalid s!"invalid response signature: {C.recoverError response.signature signatureHash}")
  ensure (responseKey = writer) (.invalid "stored response was not signed by this signer")
  return (toLex (consensusHash, entry.chainLength), ⟨signatureHash, chunk, entry.signedAtUnix⟩)

def insertEntry (signed : SignedBlocks) (entry : Position × SignedBlock) :
    Except SignerStateError SignedBlocks := do
  ensure (signed.get entry.1 = none) (.invalid "duplicate signed block position")
  return signed.insert entry.1 entry.2

def validateEntries (persisted : PersistedSignerState) (config : SignerConfig C) (signed : SignedBlocks) :
    List PersistedSignedBlock → Except SignerStateError SignedBlocks
  | [] => .ok signed
  | entry :: rest => do
    let found ← validateEntry vrfParses persisted config entry
    let signed ← insertEntry signed found
    validateEntries persisted config signed rest

def validate (persisted : PersistedSignerState) (config : SignerConfig C) :
    Except SignerStateError (UInt32 × SignedBlocks) := do
  let version := persisted.version
  ensure (version = signerStateVersion) (.invalid s!"unsupported format version {version}")
  ensure (persisted.writerPublicKeyHash = (writerIdentity config.privateKey).hex)
    (.invalid "writer key does not match this signer")
  ensure (persisted.writerSlot = config.writerSlot) (.invalid "writer slot does not match this signer")
  let signed ← validateEntries vrfParses persisted config .empty persisted.signed
  return (persisted.nextSlotVersion, signed)

/-- What a signer opened on a file starts from. -/
def openFile (config : SignerConfig C) : StateFile → Except SignerStateError (UInt32 × SignedBlocks)
  | none => .ok (config.nextSlotVersion, .empty)
  | some persisted => validate vrfParses persisted config

def persistedBlock (entry : Position × SignedBlock) : Except SignerStateError PersistedSignedBlock := do
  let bytes ← (entry.2.chunk.encode).mapError .chunk
  let (consensusHash, chainLength) := ofLex entry.1
  return ⟨consensusHash.hex, chainLength, entry.2.signatureHash.hex, hexEncode bytes, entry.2.signedAtUnix⟩

def persistedState (key : StacksPrivateKey C) (writerSlot nextSlotVersion : UInt32)
    (signed : SignedBlocks) : Except SignerStateError PersistedSignerState := do
  let blocks ← signed.entries.mapM persistedBlock
  return ⟨signerStateVersion, (writerIdentity key).hex, writerSlot, nextSlotVersion, blocks⟩

def persist (key : StacksPrivateKey C) (writerSlot nextSlotVersion : UInt32) (signed : SignedBlocks)
    (disk : Replacement) (file : StateFile) : Except SignerStateError Unit × StateFile :=
  match persistedState key writerSlot nextSlotVersion signed with
  | .error error => (.error error, file)
  | .ok persisted =>
    match disk with
    | .stored => (.ok (), some persisted)
    | .failed => (.error .io, file)
    | .unsynced => (.error .io, some persisted)

end SignerStateStore

/-! ## The signer -/

/-- A validator is anything that has a verdict on a proposal; it may learn from it. -/
class ProposalValidator (V : Type) where
  validate : V → BlockProposal → Except String Unit × V

structure EmbeddedSigner (C : Crypto) (V : Type) where
  privateKey : StacksPrivateKey C
  validator : V
  writerSlot : UInt32
  nextSlotVersion : UInt32
  conflictTimeoutSecs : Nat
  signed : SignedBlocks
  /-- Whether a state file is kept. -/
  state : Bool
  tenuresSeen : OrdMap ConsensusHash Nat

/-- The clock as a call reads it: when an answer given before is looked up, when it is checked against
the new block, when the tenure is dated and when the new answer is recorded. -/
structure Readings where
  looked : Nat
  checked : Nat
  dated : Nat
  recorded : Nat

/-- What a call answers and what it leaves. -/
structure Outcome (C : Crypto) (V α : Type) where
  answer : Except SignerError α
  signer : EmbeddedSigner C V
  file : StateFile

def tenureIdleTimeoutSecs : Nat := 122

/-- `starts_or_extends_tenure`. -/
def startsOrExtendsTenure (block : Codec.NakamotoBlock) : Bool :=
  block.transactions.any fun transaction =>
    match transaction.payload.data with
    | .tenureChange payload => payload.cause == .blockFound || payload.cause == .extended
    | _ => false

def positionOf (proposal : BlockProposal) : Position :=
  toLex (proposal.block.header.consensusHash, proposal.block.header.chainLength)

def signatureHashOf (H : Hashes) (proposal : BlockProposal) : Bytes 32 :=
  proposal.block.header.signerSignatureHash H

namespace EmbeddedSigner

variable {C : Crypto} {V : Type}

def new (config : SignerConfig C) (validator : V) : EmbeddedSigner C V :=
  ⟨config.privateKey, validator, config.writerSlot, config.nextSlotVersion, config.conflictTimeoutSecs,
    .empty, false, .empty⟩

def fromStateFile (vrfParses : Bytes 80 → Bool) (config : SignerConfig C) (validator : V)
    (file : StateFile) : Except SignerStateError (EmbeddedSigner C V) := do
  let (nextSlotVersion, signed) ← SignerStateStore.openFile vrfParses config file
  return ⟨config.privateKey, validator, config.writerSlot, nextSlotVersion, config.conflictTimeoutSecs,
    signed, true, .empty⟩

/-- When an extension of a block's tenure would be accepted: the tenure is dated from the first block
answered for, and again from every block that starts or extends it. -/
def extendTimestamp (signer : EmbeddedSigner C V) (block : Codec.NakamotoBlock) (now : Nat) :
    Nat × EmbeddedSigner C V :=
  let tenure := block.header.consensusHash
  let started := if startsOrExtendsTenure block then now else (signer.tenuresSeen.get tenure).getD now
  (min (started + tenureIdleTimeoutSecs) (2 ^ 64 - 1),
    { signer with tenuresSeen := signer.tenuresSeen.insert tenure started })

/-- Write a state to the file, if one is kept. -/
def save (signer : EmbeddedSigner C V) (nextSlotVersion : UInt32) (signed : SignedBlocks)
    (disk : Replacement) (file : StateFile) : Except SignerStateError Unit × StateFile :=
  if signer.state then
    SignerStateStore.persist signer.privateKey signer.writerSlot nextSlotVersion signed disk file
  else (.ok (), file)

def record (signer : EmbeddedSigner C V) (position : Position) (signatureHash : Bytes 32)
    (data : List UInt8) (slotVersion : UInt32) (now : Nat) (disk : Replacement) (file : StateFile) :
    Outcome C V Chunk :=
  if slotVersion.toNat + 1 < 2 ^ 32 then
    match (Chunk.new signer.writerSlot slotVersion data).sign signer.privateKey with
    | .error error => ⟨.error (.chunk error), signer, file⟩
    | .ok chunk =>
      let nextSigned := signer.signed.insert position ⟨signatureHash, chunk, now⟩
      match signer.save (slotVersion + 1) nextSigned disk file with
      | (.error error, file) => ⟨.error (.state error), signer, file⟩
      | (.ok (), file) =>
        ⟨.ok chunk, { signer with signed := nextSigned, nextSlotVersion := slotVersion + 1 }, file⟩
  else ⟨.error .slotVersionOverflow, signer, file⟩

/-- What `sign` does for a position under which nothing is remembered. -/
def signNew [ProposalValidator V] (signer : EmbeddedSigner C V) (proposal : BlockProposal)
    (now : Readings) (disk : Replacement) (file : StateFile) : Outcome C V Chunk :=
  let signatureHash := signatureHashOf C proposal
  match ProposalValidator.validate signer.validator proposal with
  | (.error text, validator) => ⟨.error (.validation text), { signer with validator }, file⟩
  | (.ok (), validator) =>
    let signer := { signer with validator }
    let (timestamp, signer) := signer.extendTimestamp proposal.block now.dated
    let response := BlockAcceptance.withExtendTimestamp signatureHash
      (signer.privateKey.sign signatureHash) timestamp
    match (SignerMessage.blockResponse (.accepted response)).encode with
    | .error error => ⟨.error (.message error), signer, file⟩
    | .ok data =>
      signer.record (positionOf proposal) signatureHash data signer.nextSlotVersion now.recorded disk file

/-- The signer without what it has signed at a position. -/
def forget (signer : EmbeddedSigner C V) (position : Position) : EmbeddedSigner C V :=
  { signer with signed := signer.signed.retain fun other => decide (other ≠ position) }

/-- Once an expired answer is forgotten, `sign` starts over and finds nothing at the position. -/
def sign [ProposalValidator V] (signer : EmbeddedSigner C V) (proposal : BlockProposal)
    (now : Readings) (disk : Replacement) (file : StateFile) : Outcome C V Chunk :=
  match signer.signed.get (positionOf proposal) with
  | some signed =>
    if signed.signatureHash = signatureHashOf C proposal then ⟨.ok signed.chunk, signer, file⟩
    else if now.checked - signed.signedAtUnix < signer.conflictTimeoutSecs then
      ⟨.error .equivocation, signer, file⟩
    else (signer.forget (positionOf proposal)).signNew proposal now disk file
  | none => signer.signNew proposal now disk file

def signAfterSlotVersion [ProposalValidator V] (signer : EmbeddedSigner C V) (proposal : BlockProposal)
    (remoteSlotVersion : UInt32) (now : Readings) (disk : Replacement) (file : StateFile) :
    Outcome C V Chunk :=
  match signer.signed.get (positionOf proposal) with
  | none => signer.sign proposal now disk file
  | some signed =>
    if signed.signatureHash ≠ signatureHashOf C proposal then
      if now.looked - signed.signedAtUnix < signer.conflictTimeoutSecs then
        ⟨.error .equivocation, signer, file⟩
      else signer.sign proposal now disk file
    else if remoteSlotVersion < signed.chunk.slotVersion then ⟨.ok signed.chunk, signer, file⟩
    else
      signer.record (positionOf proposal) (signatureHashOf C proposal) signed.chunk.data
        signer.nextSlotVersion now.recorded disk file

def setWriterSlot (signer : EmbeddedSigner C V) (writerSlot : UInt32) : EmbeddedSigner C V :=
  if signer.writerSlot ≠ writerSlot then
    { signer with writerSlot, nextSlotVersion := 1, signed := .empty }
  else signer

def advanceNextSlotVersion (signer : EmbeddedSigner C V) (nextSlotVersion : UInt32)
    (disk : Replacement) (file : StateFile) : Outcome C V Unit :=
  if nextSlotVersion ≤ signer.nextSlotVersion then ⟨.ok (), signer, file⟩
  else
    match signer.save nextSlotVersion signer.signed disk file with
    | (.error error, file) => ⟨.error (.state error), signer, file⟩
    | (.ok (), file) => ⟨.ok (), { signer with nextSlotVersion }, file⟩

/-- The version of the signer's slot as a replica lists it, once the signer's own is ahead of it. -/
def reconcileWriterSlot (signer : EmbeddedSigner C V) (slots : List SlotMetadata)
    (disk : Replacement) (file : StateFile) : Outcome C V UInt32 :=
  let version := ((slots.find? (·.slotId == signer.writerSlot)).map (·.slotVersion)).getD 0
  if version.toNat + 1 < 2 ^ 32 then
    let outcome := signer.advanceNextSlotVersion (version + 1) disk file
    ⟨outcome.answer.map fun _ => version, outcome.signer, outcome.file⟩
  else ⟨.error .slotVersionOverflow, signer, file⟩

end EmbeddedSigner

/-! ## Runs -/

inductive Call (V : Type)
  | sign (proposal : BlockProposal)
  | signAfterSlotVersion (proposal : BlockProposal) (remoteSlotVersion : UInt32)
  | advanceNextSlotVersion (nextSlotVersion : UInt32)
  | setWriterSlot (writerSlot : UInt32)
  | validate (proposal : BlockProposal)
  /-- The validator is handed out and comes back as any other. -/
  | validatorMut (validator : V)

/-- The proposal a call asks to sign. -/
def Call.request {V : Type} : Call V → Option BlockProposal
  | .sign proposal | .signAfterSlotVersion proposal _ => some proposal
  | _ => none

variable {C : Crypto} {V : Type} [ProposalValidator V]

def EmbeddedSigner.call (signer : EmbeddedSigner C V) (call : Call V) (now : Readings)
    (disk : Replacement) (file : StateFile) : Outcome C V (Option Chunk) :=
  match call with
  | .sign proposal =>
    let outcome := signer.sign proposal now disk file
    ⟨outcome.answer.map some, outcome.signer, outcome.file⟩
  | .signAfterSlotVersion proposal remoteSlotVersion =>
    let outcome := signer.signAfterSlotVersion proposal remoteSlotVersion now disk file
    ⟨outcome.answer.map some, outcome.signer, outcome.file⟩
  | .advanceNextSlotVersion nextSlotVersion =>
    let outcome := signer.advanceNextSlotVersion nextSlotVersion disk file
    ⟨outcome.answer.map fun _ => none, outcome.signer, outcome.file⟩
  | .setWriterSlot writerSlot => ⟨.ok none, signer.setWriterSlot writerSlot, file⟩
  | .validate proposal =>
    let (verdict, validator) := ProposalValidator.validate signer.validator proposal
    ⟨(verdict.mapError .validation).map fun _ => none, { signer with validator }, file⟩
  | .validatorMut validator => ⟨.ok none, { signer with validator }, file⟩

structure World (C : Crypto) (V : Type) where
  signer : Option (EmbeddedSigner C V)
  file : StateFile

/-- Nothing has been started and nothing has been written. -/
def World.start : World C V := ⟨none, none⟩

inductive Step (C : Crypto) (V : Type)
  | call (call : Call V) (now : Readings) (disk : Replacement)
  /-- A call that is made, but the process ends before it returns. -/
  | lost (call : Call V) (now : Readings) (disk : Replacement)
  | crash
  | fromStateFile (config : SignerConfig C) (validator : V)

variable (vrfParses : Bytes 80 → Bool)

/-- A process that is not running is called in vain, and one that is running holds the lock on its
file. -/
def World.step (world : World C V) : Step C V → World C V
  | .call call now disk =>
    match world.signer with
    | some signer =>
      let outcome := signer.call call now disk world.file
      ⟨some outcome.signer, outcome.file⟩
    | none => world
  | .lost call now disk =>
    match world.signer with
    | some signer => ⟨none, (signer.call call now disk world.file).file⟩
    | none => world
  | .crash => ⟨none, world.file⟩
  | .fromStateFile config validator =>
    match world.signer with
    | some _ => world
    | none =>
      match EmbeddedSigner.fromStateFile vrfParses config validator world.file with
      | .ok signer => ⟨some signer, world.file⟩
      | .error _ => world

def World.run (world : World C V) (steps : List (Step C V)) : World C V :=
  Runs.run (World.step vrfParses) world steps

/-- What a call on a running process returns. -/
def World.answer (world : World C V) (call : Call V) (now : Readings) (disk : Replacement) :
    Option (Except SignerError (Option Chunk)) :=
  world.signer.map fun signer => (signer.call call now disk world.file).answer

end NanoStacks.Signer
