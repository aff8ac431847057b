import NanoStacks.Chain.Authenticate
import NanoStacks.Lib.Reader

/-!
# Chunks

A chunk is what the writer of a slot publishes: some bytes under the slot's number and a version,
signed over both and the digest of the bytes. A chunk that a key signs is one that the key's hash
verifies (`Chunk.SignedBy.of_sign`), and one that is not too large is read back from its own encoding
(`Chunk.decode_of_encode`).
-/

namespace NanoStacks.StackerDb

open Bitcoin Sortition Chain Result

def maxChunkSize : Nat := 2 * 1024 * 1024

inductive StackerDbError
  | chunkTooLarge
  | truncated
  | trailingBytes
  | crypto
  deriving DecidableEq

structure SlotMetadata where
  slotId : UInt32
  slotVersion : UInt32
  dataHash : Bytes 32
  signature : MessageSignature

structure Chunk where
  slotId : UInt32
  slotVersion : UInt32
  signature : MessageSignature
  data : List UInt8
  deriving DecidableEq

/-- A private key: what it signs recovers to the hash of its public key. -/
structure StacksPrivateKey (C : Crypto) where
  secret : Bytes 32
  publicKeyHash : Hash160
  recovers : ∀ digest, C.recover (C.sign secret digest) digest = some publicKeyHash

variable {C : Crypto}

def StacksPrivateKey.sign (key : StacksPrivateKey C) (digest : Bytes 32) : MessageSignature :=
  C.sign key.secret digest

theorem StacksPrivateKey.recover_sign (key : StacksPrivateKey C) (digest : Bytes 32) :
    C.recover (key.sign digest) digest = some key.publicKeyHash :=
  key.recovers digest

/-- `writer_identity`. -/
def writerIdentity (key : StacksPrivateKey C) : Hash160 := key.publicKeyHash

namespace SlotMetadata

def digest (H : Hashes) (metadata : SlotMetadata) : Bytes 32 :=
  H.sha512_256 (toBe 4 metadata.slotId.toNat ++ toBe 4 metadata.slotVersion.toNat ++
    metadata.dataHash.toList)

def sign (metadata : SlotMetadata) (key : StacksPrivateKey C) : SlotMetadata :=
  { metadata with signature := key.sign (metadata.digest C) }

def writer (C : Crypto) (metadata : SlotMetadata) : Except StackerDbError Hash160 :=
  okOr (C.recover metadata.signature (metadata.digest C)) .crypto

def verify (C : Crypto) (metadata : SlotMetadata) (writer : Hash160) : Except StackerDbError Bool := do
  let found ← metadata.writer C
  return found == writer

end SlotMetadata

namespace Chunk

def new (slotId slotVersion : UInt32) (data : List UInt8) : Chunk :=
  ⟨slotId, slotVersion, Bytes.zero 65, data⟩

def metadata (H : Hashes) (chunk : Chunk) : SlotMetadata :=
  ⟨chunk.slotId, chunk.slotVersion, H.sha512_256 chunk.data, chunk.signature⟩

def sign (chunk : Chunk) (key : StacksPrivateKey C) : Except StackerDbError Chunk := do
  ensure (chunk.data.length ≤ maxChunkSize) .chunkTooLarge
  return { chunk with signature := ((chunk.metadata C).sign key).signature }

def verify (C : Crypto) (chunk : Chunk) (writer : Hash160) : Except StackerDbError Bool :=
  (chunk.metadata C).verify C writer

def encode (chunk : Chunk) : Except StackerDbError (List UInt8) := do
  ensure (chunk.data.length ≤ maxChunkSize) .chunkTooLarge
  ensure (chunk.data.length < 2 ^ 32) .chunkTooLarge
  return toBe 4 chunk.slotId.toNat ++ toBe 4 chunk.slotVersion.toNat ++ chunk.signature.toList ++
    toBe 4 chunk.data.length ++ chunk.data

def u32 : Reader StackerDbError UInt32 := do
  let value ← Reader.uint .truncated 4
  return UInt32.ofNat value

def read : Reader StackerDbError Chunk := do
  let slotId ← u32
  let slotVersion ← u32
  let signature ← Reader.fixed .truncated 65
  let length ← u32
  Reader.check (length.toNat ≤ maxChunkSize) .chunkTooLarge
  let data ← Reader.take .truncated length.toNat
  return ⟨slotId, slotVersion, signature, data⟩

def decode (bytes : List UInt8) : Except StackerDbError Chunk := do
  let (chunk, rest) ← read bytes
  ensure (rest = []) .trailingBytes
  return chunk

/-- The signature of a chunk is its writer's. -/
def SignedBy (C : Crypto) (chunk : Chunk) (writer : Hash160) : Prop :=
  C.recover chunk.signature ((chunk.metadata C).digest C) = some writer

theorem verify_eq_ok_true {chunk : Chunk} {writer : Hash160} :
    chunk.verify C writer = .ok true ↔ chunk.SignedBy C writer := by
  simp only [verify, SlotMetadata.verify, SlotMetadata.writer, bind_eq_ok, okOr_eq_ok, return_eq_ok,
    beq_iff_eq, SignedBy]
  constructor
  · rintro ⟨found, hfound, rfl⟩
    exact hfound
  · intro h
    exact ⟨writer, h, rfl⟩

theorem sign_eq_ok {chunk signed : Chunk} {key : StacksPrivateKey C} :
    chunk.sign key = .ok signed ↔ chunk.data.length ≤ maxChunkSize ∧
      signed = { chunk with signature := key.sign ((chunk.metadata C).digest C) } := by
  simp only [sign, bind_eq_ok, ensure_eq_ok, return_eq_ok, exists_const, SlotMetadata.sign,
    eq_comm (a := signed)]

/-- A key verifies what it signs: the digest does not depend on the signature it is signed into. -/
theorem SignedBy.of_sign {chunk signed : Chunk} {key : StacksPrivateKey C}
    (h : chunk.sign key = .ok signed) : signed.SignedBy C (writerIdentity key) := by
  obtain ⟨-, rfl⟩ := sign_eq_ok.1 h
  exact key.recover_sign _

theorem u32_eq_ok {value : UInt32} {s rest : List UInt8} :
    u32 s = .ok (value, rest) ↔ s = toBe 4 value.toNat ++ rest := by
  rw [u32, Reader.bind_eq_ok]
  constructor
  · rintro ⟨n, mid, hn, hvalue⟩
    obtain ⟨hlt, rfl⟩ := (Reader.uint_eq_ok _).1 hn
    obtain ⟨rfl, rfl⟩ := Reader.pure_eq_ok.1 hvalue
    rw [UInt32.toNat_ofNat_of_lt' (by omega)]
  · rintro rfl
    have hlt := value.toNat_lt
    exact ⟨value.toNat, rest, (Reader.uint_eq_ok _).2 ⟨by omega, rfl⟩,
      Reader.pure_eq_ok.2 ⟨UInt32.ofNat_toNat, rfl⟩⟩

theorem decode_of_encode {chunk : Chunk} {bytes : List UInt8} (h : chunk.encode = .ok bytes) :
    decode bytes = .ok chunk := by
  simp only [encode, bind_eq_ok, ensure_eq_ok, exists_const] at h
  obtain ⟨hsize, hlt, ⟨⟩⟩ := h
  have hlength : (UInt32.ofNat chunk.data.length).toNat = chunk.data.length :=
    UInt32.toNat_ofNat_of_lt' (by omega)
  have hread : read (toBe 4 chunk.slotId.toNat ++ toBe 4 chunk.slotVersion.toNat ++
      chunk.signature.toList ++ toBe 4 chunk.data.length ++ chunk.data) = .ok (chunk, []) := by
    simp only [read, Reader.bind_eq_ok, u32_eq_ok, Reader.fixed_eq_ok, Reader.check_eq_ok,
      Reader.take_eq_ok, Reader.pure_eq_ok]
    refine ⟨chunk.slotId, _, ?_, chunk.slotVersion, _, rfl, chunk.signature, _, rfl,
      UInt32.ofNat chunk.data.length, chunk.data, rfl, (), chunk.data, ⟨by omega, rfl⟩, chunk.data, [],
      ⟨hlength.symm, by simp⟩, rfl, rfl⟩
    rw [hlength]
    simp only [List.append_assoc]
  rw [decode, hread]
  rfl

/-- The bytes read as a chunk are those it is written as, and no others. -/
theorem decode_iff_encode (chunk : Chunk) (bytes : List UInt8) :
    decode bytes = .ok chunk ↔ chunk.encode = .ok bytes := by
  refine ⟨fun h => ?_, decode_of_encode⟩
  simp only [decode, bind_eq_ok, ensure_eq_ok] at h
  obtain ⟨⟨_, rest⟩, hread, -, rfl, ⟨⟩⟩ := h
  simp only [read, Reader.bind_eq_ok, u32_eq_ok, Reader.fixed_eq_ok, Reader.check_eq_ok,
    Reader.take_eq_ok, Reader.pure_eq_ok] at hread
  obtain ⟨slotId, _, rfl, slotVersion, _, rfl, signature, _, rfl, length, _, rfl, -, _, ⟨hsize, rfl⟩,
    data, _, ⟨hlength, rfl⟩, rfl, rfl⟩ := hread
  have hlt := length.toNat_lt
  simp [encode, hlength, hsize, hlt]

end Chunk

end NanoStacks.StackerDb
