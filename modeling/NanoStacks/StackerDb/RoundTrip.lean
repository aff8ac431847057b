import NanoStacks.Codec.RoundTrip
import NanoStacks.StackerDb.SignerMessage

/-!
# Signer messages read back

The two halves of the round trip meet at `FieldsFit`: a message that was read fits, and what is written
for a message that fits is read as that message. Blocks and replayed transactions are written with their
version bytes made canonical and with as many bytes behind them as before, so they are read again; a
response of an older version is written as the newest one, so only its size can grow.
-/

namespace NanoStacks.StackerDb

open Sortition Chain Result Reader List

namespace Message

variable {s rest : List UInt8}

@[simp] theorem u32_eq_ok {n : Nat} : u32 s = .ok (n, rest) ↔ n < 256 ^ 4 ∧ s = toBe 4 n ++ rest :=
  Reader.uint_eq_ok _

@[simp] theorem take_eq_ok {length : Nat} {front : List UInt8} :
    take length s = .ok (front, rest) ↔ front.length = length ∧ s = front ++ rest := Reader.take_eq_ok _

@[simp] theorem within_eq_ok {α : Type} {held : List UInt8} {p : ReadMessage α} {found : α} :
    within held p s = .ok (found, rest) ↔ (∃ left, p held = .ok (found, left)) ∧ s = rest := by
  simp only [within, Result.bind_eq_ok, Result.return_eq_ok, Prod.exists, Prod.mk.injEq]
  grind

/-! ## The parts of a message -/

/-- The code of a rejection; the first of them comes with a detail. -/
def CodeFits : List UInt8 → Prop
  | [code] => code ≠ 0 ∧ code.toNat ≤ 5
  | [code, _] => code = 0
  | _ => False

@[simp] theorem rejectionCode_decodes : Decodes rejectionCode id CodeFits := by
  intro s code rest
  have hone (first : UInt8) (after : List UInt8) :
      (if first = 0 then do let detail ← byte; return [first, detail] else return [first] :
        ReadMessage (List UInt8)) after = .ok (code, rest) ↔
      (∃ detail, first = 0 ∧ code = [0, detail] ∧ after = detail :: rest) ∨
        first ≠ 0 ∧ code = [first] ∧ after = rest := by
    by_cases hfirst : first = 0 <;> simp [hfirst] <;> grind
  simp only [rejectionCode, Reader.bind_eq_ok, byte_eq_ok, check_eq_ok, hone]
  have hzero {first : UInt8} (hfirst : first = 0) : first.toNat = 0 := by rw [hfirst]; rfl
  unfold CodeFits
  split <;> grind

/-- The data of a rejection: a version, and bytes behind their length. -/
def DataFits (data : List UInt8) : Prop :=
  ∃ version held, held.length ≤ maxChunkSize ∧ data = version :: (toBe 4 held.length ++ held)

@[simp] theorem rejectionData_decodes : Decodes rejectionData id DataFits := by
  have hlocal : Reader.Local (do let _ ← byte; bytes) := by
    intro s held rest h
    simp only [Reader.bind_eq_ok, byte_eq_ok, bytes_eq_ok] at h ⊢
    obtain ⟨version, _, rfl, hlength, rfl⟩ := h
    exact ⟨version :: (toBe 4 held.length ++ held), by simp, fun after =>
      ⟨version, _, rfl, hlength, by simp⟩⟩
  intro s data rest
  simp [rejectionData, hlocal.taken, DataFits]
  grind

def MinerFits : CurrentMiner → Prop
  | .none => True
  | .active _ _ _ _ height => height < 2 ^ 64

@[simp] theorem currentMiner_decodes : Decodes currentMiner writeMiner MinerFits := by
  intro s miner rest
  simp only [currentMiner, Reader.bind_eq_ok, byte_eq_ok]
  constructor
  · rintro ⟨variant, after, rfl, h⟩
    split at h
    · simp at h
      grind [writeMiner, MinerFits]
    · simp at h
      grind [writeMiner, MinerFits]
    · simp at h
  · rintro ⟨hfits, rfl⟩
    cases miner with
    | none => exact ⟨_, _, rfl, rfl⟩
    | active => 
      refine ⟨_, _, rfl, ?_⟩
      simp [MinerFits] at hfits ⊢
      grind

section Blocks

variable {H : Hashes} {vrfParses : Bytes 80 → Bool} {held : Codec.NakamotoBlock}

theorem block_eq_ok :
    block H vrfParses s = .ok (held, rest) ↔ ∃ consumed,
      Codec.NakamotoBlock.decodePrefix H vrfParses s = .ok (held, consumed) ∧ s.drop consumed = rest := by
  unfold block
  split <;> grind

theorem block_again (h : block H vrfParses s = .ok (held, rest)) :
    block H vrfParses (held.encode ++ rest) = .ok (held, rest) := by
  obtain ⟨consumed, hdecode, rfl⟩ := block_eq_ok.1 h
  exact block_eq_ok.2 ⟨_, Codec.decodePrefix_again hdecode, drop_left⟩

theorem block_of_canonical (h : Codec.Canonical H vrfParses held) :
    block H vrfParses (held.encode ++ rest) = .ok (held, rest) :=
  block_eq_ok.2 ⟨_, Codec.decodePrefix_encode h rest, drop_left⟩

variable {transactions : List Codec.Transaction}

theorem times_replayTransaction_eq_ok {count : Nat} :
    times count (replayTransaction vrfParses) s = .ok (transactions, rest) ↔
      transactions.length = count ∧ Codec.Spelled vrfParses transactions s rest := by
  have hone (s : List UInt8) (transaction : Codec.Transaction) (rest : List UInt8) :
      replayTransaction vrfParses s = .ok (transaction, rest) ↔
        Codec.readBlockTransaction vrfParses s = .ok (transaction, rest) := by
    unfold replayTransaction Codec.readBlockTransaction
    cases Codec.Transaction.decode vrfParses s <;> simp
  rw [times_congr hone, Codec.times_readBlockTransaction_eq_ok]

theorem responseFields_fit {version : UInt8} {times : Nat × Nat}
    (h : responseFields version s = .ok (times, rest)) : times.1 < 2 ^ 64 ∧ times.2 < 2 ^ 64 ∧ rest = [] := by
  simp only [responseFields, Reader.bind_eq_ok, u64_eq_ok, byte_eq_ok, check_eq_ok] at h
  obtain ⟨timestamp, _, ⟨htimestamp, -⟩, _, _, -, _, _, -, h⟩ := h
  split_ifs at h
  · simp at h
    grind
  · simp at h
    grind

theorem replayTransactions_eq_ok {version : Nat} :
    replayTransactions vrfParses version s = .ok (transactions, rest) ↔
      if 1 ≤ version then transactions.length < 2 ^ 32 ∧ ∃ spelling, s = toBe 4 transactions.length ++ spelling ∧
        Codec.Spelled vrfParses transactions spelling rest
      else transactions = [] ∧ s = rest := by
  unfold replayTransactions
  split_ifs with hversion
  · simp [times_replayTransaction_eq_ok]
    grind
  · rw [Reader.pure_eq_ok, eq_comm]

theorem updateContent_eq_ok {active supported : Nat} {update : StateMachineUpdate} :
    updateContent vrfParses active supported s = .ok (update, rest) ↔
      update.activeProtocolVersion = active ∧ update.localSupportedProtocolVersion = supported ∧
      update.bitcoinHeight < 2 ^ 64 ∧ MinerFits update.currentMiner ∧ rest = [] ∧
      ∃ replay, replayTransactions vrfParses (min active supported) replay = .ok (update.replayTransactions, []) ∧
        s = update.bitcoinConsensusHash.toList ++ toBe 8 update.bitcoinHeight ++
          writeMiner update.currentMiner ++ replay := by
  obtain ⟨_, _, _, _, _, _⟩ := update
  simp [updateContent]
  grind

end Blocks

/-! ## Whole messages -/

/-- What reading a message needs: every field within its width, the code and the data of a rejection
well formed, no replayed transactions before version 1, and blocks and replayed transactions that are
read from what is written for them. -/
def FieldsFit (blockReads : Codec.NakamotoBlock → List UInt8 → Prop)
    (replayReads : List Codec.Transaction → Prop) : SignerMessage → Prop
  | .blockProposal proposal =>
    blockReads proposal.block
      (toBe 8 proposal.bitcoinHeight ++ (toBe 8 proposal.rewardCycle ++ proposal.data)) ∧
    proposal.bitcoinHeight < 2 ^ 64 ∧ proposal.rewardCycle < 2 ^ 64
  | .blockResponse (.accepted response) => TimesFit response
  | .blockResponse (.rejected response) =>
    CodeFits response.reasonCode ∧ DataFits response.data ∧ response.chainId < 2 ^ 32
  | .blockPushed block => blockReads block []
  | .stateMachineUpdate update =>
    update.activeProtocolVersion < 2 ^ 64 ∧ update.localSupportedProtocolVersion < 2 ^ 64 ∧
    update.bitcoinHeight < 2 ^ 64 ∧ MinerFits update.currentMiner ∧
    if 1 ≤ min update.activeProtocolVersion update.localSupportedProtocolVersion then
      replayReads update.replayTransactions
    else update.replayTransactions = []
  | .blockPreCommit _ => True

end Message

namespace SignerMessage

open Message

variable (H : Hashes) (vrfParses : Bytes 80 → Bool)

/-- The fields fit, and the blocks and the replayed transactions are canonical. -/
def WellFormed : SignerMessage → Prop :=
  FieldsFit (fun block _ => Codec.Canonical H vrfParses block) fun transactions =>
    ∀ transaction ∈ transactions, Codec.Transaction.decode vrfParses transaction.encode =
      .ok (transaction, transaction.encode.length)

/-- The fields fit, and the blocks and the replayed transactions are read from what is written. -/
def Rereads : SignerMessage → Prop :=
  FieldsFit (fun held rest => block H vrfParses (held.encode ++ rest) = .ok (held, rest))
    fun transactions => Codec.Spelled vrfParses transactions (transactions.flatMap (·.bytes)) []

def EmptyProposal : SignerMessage → Prop
  | .blockProposal proposal => proposal.data = []
  | _ => False

def Supported : SignerMessage → Prop
  | .stateMachineUpdate update =>
    min update.activeProtocolVersion update.localSupportedProtocolVersion ≤ latestSignerProtocolVersion
  | _ => True

variable {H vrfParses} {message : SignerMessage} {bytes : List UInt8}

theorem WellFormed.rereads (h : WellFormed H vrfParses message) : Rereads H vrfParses message := by
  match message, h with
  | .blockProposal proposal, ⟨hblock, hwidths⟩ => exact ⟨block_of_canonical hblock, hwidths⟩
  | .blockResponse (.accepted response), h => exact h
  | .blockResponse (.rejected response), h => exact h
  | .blockPushed block, hblock => exact block_of_canonical hblock
  | .blockPreCommit hash, _ => exact trivial
  | .stateMachineUpdate update, ⟨hactive, hsupported, hheight, hminer, hreplay⟩ =>
    refine ⟨hactive, hsupported, hheight, hminer, ?_⟩
    split_ifs at hreplay ⊢
    · have hspelled := Codec.Spelled.of_encode [] hreplay
      rw [append_nil, ← hspelled.bytes_eq] at hspelled
      exact hspelled
    · exact hreplay

theorem rereads_of_read (h : Message.read H vrfParses bytes = .ok (message, [])) :
    Rereads H vrfParses message ∧ Supported message := by
  simp only [Message.read, Reader.bind_eq_ok, Message.byte_eq_ok] at h
  obtain ⟨kind, s, rfl, h⟩ := h
  split at h
  · simp [Message.blockProposal] at h
    obtain ⟨held, bitcoinHeight, rewardCycle, data, hblock, hheight, hcycle, rfl⟩ := h
    exact ⟨⟨block_again hblock, hheight, hcycle⟩, trivial⟩
  · simp [Message.blockResponse] at h
    obtain ⟨kind, s, rfl, response, h, rfl⟩ := h
    split at h
    · simp only [acceptance, responseData, Reader.map_eq_ok, Reader.bind_eq_ok, within_eq_ok, Reader.pure_eq_ok] at h
      obtain ⟨_, ⟨_, _, -, _, _, -, _, _, -, times, _, ⟨_, _, -, _, _, -, ⟨_, htimes⟩, -⟩, rfl, -⟩, rfl⟩ := h
      obtain ⟨hfull, hcount, -⟩ := responseFields_fit htimes
      exact ⟨⟨hfull, hcount⟩, trivial⟩
    · simp [rejection] at h
      obtain ⟨_, _, _, _, _, _, _, -, hcode, hchain, -, hdata, rfl⟩ := h
      exact ⟨⟨hcode, hdata, hchain⟩, trivial⟩
    · simp at h
  · simp at h
    obtain ⟨held, hblock, rfl⟩ := h
    exact ⟨block_again hblock, trivial⟩
  · simp [Message.stateMachineUpdate] at h
    obtain ⟨active, supported, content, ⟨hactive, -⟩, hsupported, hversion, -, update, ⟨_, h⟩, rfl⟩ := h
    obtain ⟨rfl, rfl, hheight, hminer, -, replay, hreplay, -⟩ := updateContent_eq_ok.1 h
    refine ⟨⟨hactive, hsupported, hheight, hminer, ?_⟩, min_le_iff.2 hversion⟩
    rw [replayTransactions_eq_ok] at hreplay
    split_ifs at hreplay ⊢
    · obtain ⟨-, spelling, -, hspelled⟩ := hreplay
      have hcanonical := hspelled.canonical
      rwa [append_nil, ← hspelled.bytes_eq] at hcanonical
    · exact hreplay.1
  · simp at h
    obtain ⟨hash, -, rfl⟩ := h
    exact ⟨trivial, trivial⟩
  · simp at h

theorem read_of_rereads (h : Rereads H vrfParses message) (hwrite : Message.write message = .ok bytes)
    (hsize : bytes.length ≤ maxChunkSize) : Message.read H vrfParses bytes = .ok (message, []) := by
  match message, h with
  | .blockProposal proposal, ⟨hblock, hheight, hcycle⟩ =>
    simp only [Message.write, Result.bind_eq_ok, ensure_eq_ok, append_assoc] at hwrite
    obtain ⟨_, -, ⟨⟩⟩ := hwrite
    simp [Message.read, Message.blockProposal]
    exact ⟨_, _, _, _, hblock, hheight, hcycle, rfl⟩
  | .blockResponse (.accepted response), hfit =>
    simp only [Message.write, Message.writeBytes, Message.writeResponseData, Result.bind_eq_ok,
      ensure_eq_ok] at hwrite
    obtain ⟨_, ⟨_, -, ⟨⟩⟩, _, ⟨_, ⟨_, -, ⟨⟩⟩, ⟨⟩⟩, ⟨⟩⟩ := hwrite
    have htext : (utf8 response.serverVersion).length ≤ maxChunkSize := by
      simp only [length_cons, length_append] at hsize
      omega
    simpa [Message.read, Message.blockResponse, responseInner] using acceptance_written hfit htext
  | .blockResponse (.rejected response), ⟨hcode, hdata, hchain⟩ =>
    simp only [Message.write, Message.writeBytes, Result.bind_eq_ok, ensure_eq_ok] at hwrite
    obtain ⟨_, ⟨_, -, ⟨⟩⟩, _, ⟨_, -, ⟨⟩⟩, ⟨⟩⟩ := hwrite
    simp only [length_cons, length_append] at hsize
    simp [Message.read, Message.blockResponse, rejection]
    exact ⟨_, _, _, _, _, _, _, ⟨by omega, rfl⟩, hcode, hchain, by omega, hdata, rfl⟩
  | .blockPushed held, hblock =>
    cases hwrite
    simpa [Message.read, Rereads, FieldsFit] using hblock
  | .blockPreCommit hash, _ =>
    cases hwrite
    simp [Message.read]
  | .stateMachineUpdate update, ⟨hactive, hsupported, hheight, hminer, hreplay⟩ =>
    simp only [Message.write, Message.writeBytes, writeStateMachineUpdate, Result.bind_eq_ok,
      ensure_eq_ok] at hwrite
    obtain ⟨_, ⟨_, hversion, replay, hwritten, _, ⟨_, hcontent, ⟨⟩⟩, ⟨⟩⟩, ⟨⟩⟩ := hwrite
    have hread : replayTransactions vrfParses
        (min update.activeProtocolVersion update.localSupportedProtocolVersion) replay =
        .ok (update.replayTransactions, []) := by
      rw [replayTransactions_eq_ok]
      unfold writeReplay at hwritten
      split_ifs at hreplay hwritten ⊢
      · simp only [Result.bind_eq_ok, ensure_eq_ok] at hwritten
        obtain ⟨_, hcount, ⟨⟩⟩ := hwritten
        exact ⟨hcount, _, rfl, hreplay⟩
      · cases hwritten
        exact ⟨hreplay, rfl⟩
    simp [Message.read, Message.stateMachineUpdate]
    exact ⟨_, _, _, ⟨hactive, by simp⟩, hsupported, min_le_iff.1 hversion, hcontent, [],
      updateContent_eq_ok.2 ⟨rfl, rfl, hheight, hminer, rfl, replay, hread, rfl⟩⟩

theorem decode_eq_ok : decode H vrfParses bytes = .ok message ↔
    bytes.length ≤ maxChunkSize ∧ Message.read H vrfParses bytes = .ok (message, []) := by
  simp only [decode, Result.bind_eq_ok, ensure_eq_ok, Result.return_eq_ok, Prod.exists]
  grind

theorem encode_eq_ok : encode message = .ok bytes ↔
    Message.write message = .ok bytes ∧ bytes.length ≤ maxChunkSize := by
  simp only [encode, Result.bind_eq_ok, ensure_eq_ok, Result.return_eq_ok]
  grind

theorem Rereads.decode_of_encode (h : Rereads H vrfParses message)
    (hencode : encode message = .ok bytes) : decode H vrfParses bytes = .ok message := by
  obtain ⟨hwrite, hsize⟩ := encode_eq_ok.1 hencode
  exact decode_eq_ok.2 ⟨hsize, read_of_rereads h hwrite hsize⟩

theorem encode_eq_error {error : SignerMessageError} (h : encode message = .error error) :
    error = .oversized ∨ EmptyProposal message ∨ ¬Supported message := by
  have hreplay {version : Nat} {transactions : List Codec.Transaction} :
      writeReplay version transactions = .error error → error = .oversized := by
    unfold writeReplay
    split_ifs <;> simp [Result.bind_eq_error, Result.ensure_eq_error]
    grind
  rcases message with proposal | (response | response) | held | update | hash <;>
    simp [encode, Message.write, writeBytes, writeResponseData, writeStateMachineUpdate,
      Result.bind_eq_error, Result.ensure_eq_error] at h <;>
    simp only [EmptyProposal, Supported] <;> grind

theorem decode_accepted {response : BlockAcceptance} (hfit : TimesFit response)
    (h : encode (.blockResponse (.accepted response)) = .ok bytes) :
    decode H vrfParses bytes = .ok (.blockResponse (.accepted response)) :=
  (show Rereads H vrfParses (.blockResponse (.accepted response)) from hfit).decode_of_encode h

variable (H vrfParses)

/-- What is accepted, but for a proposal without an extension, is written as bytes that are read as the
same message, unless they are too many; a well-formed message that is written is read as it was, and it is
written unless it is too large, such a proposal, or of an unsupported version. All bytes are read, also
those of the parts behind a length. -/
theorem message_round_trip :
    (∀ bytes message, decode H vrfParses bytes = .ok message → ¬EmptyProposal message →
      encode message = .error .oversized ∨
        ∃ again, encode message = .ok again ∧ decode H vrfParses again = .ok message) ∧
    (∀ message, WellFormed H vrfParses message →
      (∀ bytes, encode message = .ok bytes → decode H vrfParses bytes = .ok message) ∧
      ∀ error, encode message = .error error →
        error = .oversized ∨ EmptyProposal message ∨ ¬Supported message) ∧
    (∀ bytes message, decode H vrfParses bytes = .ok message →
      Message.read H vrfParses bytes = .ok (message, [])) ∧
    (∀ version held times left, responseFields version held = .ok (times, left) → left = []) ∧
    ∀ active supported held update left,
      updateContent vrfParses active supported held = .ok (update, left) → left = [] := by
  refine ⟨fun bytes message h hproposal => ?_, fun message h => ⟨fun bytes => h.rereads.decode_of_encode,
    fun error => encode_eq_error⟩, fun bytes message h => (decode_eq_ok.1 h).2, fun _ _ _ _ h =>
    (responseFields_fit h).2.2, fun _ _ _ _ _ h => (updateContent_eq_ok.1 h).2.2.2.2.1⟩
  obtain ⟨hrereads, hsupported⟩ := rereads_of_read (decode_eq_ok.1 h).2
  cases hencode : encode message with
  | ok again => exact .inr ⟨again, rfl, hrereads.decode_of_encode hencode⟩
  | error error =>
    rcases encode_eq_error hencode with rfl | hempty | hversion
    · exact .inl rfl
    · exact absurd hempty hproposal
    · exact absurd hsupported hversion

/-- A proposal of one transfer. -/
def transferProposal : SignerMessage :=
  .blockProposal ⟨Codec.transferBlock [], 5, 1, BlockProposal.emptyData⟩

theorem message_round_trip_proposal :
    ∃ bytes, encode transferProposal = .ok bytes ∧
      decode plainCrypto (fun _ => true) bytes = .ok transferProposal := by
  obtain ⟨-, hwritten, -⟩ := message_round_trip plainCrypto fun _ => true
  obtain ⟨hback, hfailed⟩ := hwritten transferProposal
    ⟨Codec.transferBlock_canonical, by decide, by decide⟩
  cases hencode : encode transferProposal with
  | ok bytes => exact ⟨bytes, rfl, hback bytes hencode⟩
  | error error =>
    rcases hfailed error hencode with rfl | hempty | hversion
    · exact absurd hencode (by decide +kernel)
    · cases hempty
    · exact absurd trivial hversion

end SignerMessage

end NanoStacks.StackerDb
