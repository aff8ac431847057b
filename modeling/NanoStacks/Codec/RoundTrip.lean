import NanoStacks.Codec.Block

/-!
# Blocks read back

A block is read from the bytes that spell it: its header, the number of its transactions, and each of them
behind some version byte (`Spelled`). Encoding a decoded block gives those bytes with the version bytes made
canonical, and the encoding of a block of canonical transactions spells the block, whatever follows it.
-/

namespace NanoStacks.Codec

open Sortition Chain Reader List NakamotoBlock

section RoundTrip

variable (H : Hashes) (vrfParses : Bytes 80 → Bool)

/-! ## Transactions one after another -/

/-- Some bytes spell transactions and go on with the rest. Of what follows a transaction only the length
matters: it has to leave room for the post-conditions. -/
inductive Spelled : List Transaction → List UInt8 → List UInt8 → Prop
  | nil {rest : List UInt8} : Spelled [] rest rest
  | cons {transaction : Transaction} {transactions : List Transaction} {version : UInt8}
    {after rest : List UInt8} (hversion : parseVersion version = transaction.version)
    (hgood : transaction.Grammatical vrfParses) (hkeeps : transaction.KeepsEncodings)
    (hbytes : transaction.bytes = transaction.encode) (hroom : transaction.RoomForPostConditions after)
    (hrest : Spelled transactions after rest) :
    Spelled (transaction :: transactions) (version :: transaction.encodedBody ++ after) rest

variable {H vrfParses} {s rest : List UInt8} {transaction : Transaction}
  {transactions : List Transaction}

theorem readBlockTransaction_eq_ok :
    readBlockTransaction vrfParses s = .ok (transaction, rest) ↔
      ∃ version, parseVersion version = transaction.version ∧
        transaction.Grammatical vrfParses ∧ transaction.KeepsEncodings ∧
        transaction.bytes = transaction.encode ∧ transaction.RoomForPostConditions rest ∧
        s = version :: transaction.encodedBody ++ rest := by
  have hdrop : ∀ (version : UInt8) (after : List UInt8),
      (version :: transaction.encodedBody ++ after).drop transaction.encode.length = after := by
    intro version after
    exact drop_left' (by rw [Transaction.encode, length_cons, length_cons])
  unfold readBlockTransaction
  constructor
  · intro h
    split at h
    · rename_i found consumed hfound
      cases h
      obtain ⟨hgood, hkeeps, hbytes, rfl, version, after, hversion, rfl, hroom⟩ :=
        Transaction.decode_eq_ok.1 hfound
      exact ⟨version, hversion, hgood, hkeeps, hbytes, by rwa [hdrop], by rw [hdrop]⟩
    · cases h
  · rintro ⟨version, hversion, hgood, hkeeps, hbytes, hroom, rfl⟩
    have hfound := Transaction.decode_eq_ok.2
      ⟨hgood, hkeeps, hbytes, rfl, version, rest, hversion, rfl, hroom⟩
    rw [hfound]
    simp only [hdrop]

theorem times_readBlockTransaction_eq_ok {count : Nat} :
    times count (readBlockTransaction vrfParses) s = .ok (transactions, rest) ↔
      transactions.length = count ∧ Spelled vrfParses transactions s rest := by
  induction count generalizing s rest transactions with
  | zero =>
    rw [times, pure_eq_ok]
    constructor
    · rintro ⟨rfl, rfl⟩
      exact ⟨rfl, .nil⟩
    · rintro ⟨hlength, hspelled⟩
      cases hspelled with
      | nil => exact ⟨rfl, rfl⟩
      | cons => cases hlength
  | succ count ih =>
    simp only [times, bind_eq_ok, pure_eq_ok, ih, readBlockTransaction_eq_ok]
    constructor
    · rintro ⟨first, after, ⟨version, hversion, hgood, hkeeps, hbytes, hroom, rfl⟩, others, _,
        ⟨hlength, hspelled⟩, rfl, rfl⟩
      exact ⟨by rw [length_cons, hlength], .cons hversion hgood hkeeps hbytes hroom hspelled⟩
    · rintro ⟨hlength, hspelled⟩
      cases hspelled with
      | nil => cases hlength
      | cons hversion hgood hkeeps hbytes hroom hrest =>
        exact ⟨_, _, ⟨_, hversion, hgood, hkeeps, hbytes, hroom, rfl⟩, _, _,
          ⟨Nat.succ.inj hlength, hrest⟩, rfl, rfl⟩

/-- The encodings of transactions behind the given version bytes. -/
def encodeBehind (versions : List UInt8) (transactions : List Transaction) : List UInt8 :=
  (List.zipWith (fun version transaction => version :: Transaction.encodedBody transaction) versions
    transactions).flatten

theorem encodeBehind_canonical (transactions : List Transaction) :
    encodeBehind (transactions.map fun transaction => versionByte transaction.version) transactions =
      transactions.flatMap (·.encode) := by
  induction transactions with
  | nil => rfl
  | cons transaction transactions ih =>
    rw [flatMap_cons, ← ih]
    rfl

namespace Spelled

section

variable (h : Spelled vrfParses transactions s rest)

include h

/-- What spells transactions is their encodings, but for the version bytes. -/
theorem eq_encodeBehind :
    ∃ versions, List.Forall₂ (fun version transaction => parseVersion version = transaction.version)
        versions transactions ∧ s = encodeBehind versions transactions ++ rest := by
  induction h with
  | nil => exact ⟨[], .nil, rfl⟩
  | @cons transaction transactions version after rest hversion _ _ _ _ _ ih =>
    obtain ⟨versions, hversions, rfl⟩ := ih
    exact ⟨version :: versions, .cons hversion hversions, by simp [encodeBehind]⟩

theorem length_le : transactions.length ≤ s.length := by
  induction h with
  | nil => exact Nat.zero_le _
  | cons => simp; omega

theorem length_eq : s.length = (transactions.flatMap (·.encode)).length + rest.length := by
  induction h with
  | nil => simp
  | cons => simp [Transaction.encode] at *; omega

theorem bytes_eq : transactions.flatMap (·.bytes) = transactions.flatMap (·.encode) := by
  induction h with
  | nil => rfl
  | cons _ _ _ hbytes _ _ ih => rw [flatMap_cons, flatMap_cons, hbytes, ih]

/-- The encodings spell what was spelled, with as many bytes after each transaction. -/
theorem canonical :
    Spelled vrfParses transactions (transactions.flatMap (·.encode) ++ rest) rest := by
  induction h with
  | nil => exact .nil
  | cons hversion hgood hkeeps hbytes hroom hrest ih =>
    rw [flatMap_cons, append_assoc]
    refine .cons (parseVersion_versionByte _) hgood hkeeps hbytes ?_ ih
    rw [Transaction.RoomForPostConditions, hrest.length_eq] at hroom
    rwa [Transaction.RoomForPostConditions, length_append]

end

theorem of_encode (rest : List UInt8) (h : ∀ transaction ∈ transactions,
      Transaction.decode vrfParses transaction.encode = .ok (transaction, transaction.encode.length)) :
    Spelled vrfParses transactions (transactions.flatMap (·.encode) ++ rest) rest := by
  induction transactions with
  | nil => exact .nil
  | cons transaction transactions ih =>
    rw [forall_mem_cons] at h
    obtain ⟨hgood, hkeeps, hbytes, -, version, after, -, hencode, hroom⟩ :=
      Transaction.decode_eq_ok.1 h.1
    -- alone, the transaction has room for its post-conditions in its own bytes
    have hnil : after = [] :=
      self_eq_append_right.1 (show transaction.encodedBody = _ from (cons.inj hencode).2)
    rw [flatMap_cons, append_assoc]
    refine .cons (parseVersion_versionByte _) hgood hkeeps hbytes ?_ (ih h.2)
    rw [hnil, Transaction.RoomForPostConditions] at hroom
    rw [Transaction.RoomForPostConditions]
    exact hroom.trans (Nat.add_le_add_left (Nat.zero_le _) _)

end Spelled

/-! ## Whole blocks -/

theorem readBlock_eq_ok {header : NakamotoBlockHeader} :
    readBlock vrfParses s = .ok ((header, transactions), rest) ↔
      Header.HeaderGrammar header ∧ transactions.length < 2 ^ 32 ∧
      ∃ spelling, s = Header.encodeHeader header ++ toBe 4 transactions.length ++ spelling ∧
        Spelled vrfParses transactions spelling rest := by
  have hlength (spelling : List UInt8) (h : Spelled vrfParses transactions spelling rest) := h.length_le
  simp [readBlock, Header.readHeader_decodes, times_readBlockTransaction_eq_ok]
  grind

/-- The values a block can be read back from: every field within its width and its count within the
encoder's, no problematic transactions before version 1, the transactions canonical and distinct, and their
root in the header. -/
structure Canonical (H : Hashes) (vrfParses : Bytes 80 → Bool) (block : NakamotoBlock) : Prop where
  header : Header.HeaderGrammar block.header
  count : block.transactions.length < 2 ^ 32
  transactions : ∀ transaction ∈ block.transactions,
    Transaction.decode vrfParses transaction.encode = .ok (transaction, transaction.encode.length)
  distinct : (block.transactions.map (·.txid H)).Nodup
  root : transactionMerkleRoot H (block.transactions.map (·.toChain)) = block.header.transactionMerkleRoot

theorem decodePrefix_encode {block : NakamotoBlock} (hblock : Canonical H vrfParses block)
    (rest : List UInt8) :
    decodePrefix H vrfParses (block.encode ++ rest) =
      .ok (block, block.encode.length) := by
  refine (decodePrefix_eq_ok H vrfParses).2
    ⟨⟨rest, readBlock_eq_ok.2 ⟨hblock.header, hblock.count, _, ?_, .of_encode rest hblock.transactions⟩, ?_⟩,
      hblock.distinct, hblock.root⟩
  · rw [encode, append_assoc]
  · rw [length_append, Nat.add_sub_cancel]

/-- A block that is read is read again from its encoding in front of the same bytes. -/
theorem decodePrefix_again {block : NakamotoBlock} {consumed : Nat}
    (h : decodePrefix H vrfParses s = .ok (block, consumed)) :
    decodePrefix H vrfParses (block.encode ++ s.drop consumed) =
      .ok (block, block.encode.length) := by
  rw [decodePrefix_eq_ok] at h ⊢
  obtain ⟨⟨rest, hread, rfl⟩, hvalid⟩ := h
  obtain ⟨hheader, hcount, spelling, rfl, hspelled⟩ := readBlock_eq_ok.1 hread
  have hrest : (Header.encodeHeader block.header ++ toBe 4 block.transactions.length ++ spelling).drop
      ((Header.encodeHeader block.header ++ toBe 4 block.transactions.length ++ spelling).length -
        rest.length) = rest := by
    obtain ⟨versions, -, rfl⟩ := hspelled.eq_encodeBehind
    rw [← append_assoc]
    exact drop_left' (by simp only [length_append]; omega)
  rw [hrest]
  refine ⟨⟨rest, readBlock_eq_ok.2 ⟨hheader, hcount, _, ?_, hspelled.canonical⟩, ?_⟩, hvalid⟩
  · rw [encode, append_assoc]
  · rw [length_append, Nat.add_sub_cancel]

variable (H vrfParses)

/-- A block that is decoded is encoded to the bytes it was read from, but for its transactions' version
bytes. A block of canonical transactions is read back from its encoding, also in front of other bytes. -/
theorem block_round_trip :
    (∀ (bytes : List UInt8) (block : NakamotoBlock),
      decode H vrfParses bytes = .ok block →
      ∃ versions, List.Forall₂ (fun version transaction =>
          parseVersion version = Transaction.version transaction) versions block.transactions ∧
        bytes = Header.encodeHeader block.header ++ toBe 4 block.transactions.length ++
          encodeBehind versions block.transactions ∧
        block.encode = Header.encodeHeader block.header ++ toBe 4 block.transactions.length ++
          encodeBehind (block.transactions.map fun transaction => versionByte transaction.version)
            block.transactions) ∧
    ∀ block : NakamotoBlock, Canonical H vrfParses block →
      decode H vrfParses block.encode = .ok block ∧
      ∀ rest, decodePrefix H vrfParses (block.encode ++ rest) =
        .ok (block, block.encode.length) := by
  constructor
  · intro bytes block h
    rw [decode_eq_ok, decodePrefix_eq_ok] at h
    obtain ⟨⟨rest, hread, hwhole⟩, -⟩ := h
    obtain ⟨-, -, spelling, rfl, hspelled⟩ := readBlock_eq_ok.1 hread
    obtain ⟨versions, hversions, rfl⟩ := hspelled.eq_encodeBehind
    have hrest : rest = [] := by
      rw [← length_eq_zero_iff]
      simp only [length_append] at hwhole
      omega
    refine ⟨versions, hversions, by rw [hrest, append_nil], ?_⟩
    rw [encodeBehind_canonical, encode]
  · intro block hblock
    refine ⟨?_, decodePrefix_encode hblock⟩
    have hprefix := decodePrefix_encode hblock []
    rw [append_nil] at hprefix
    exact (decode_eq_ok H vrfParses).2 hprefix

end RoundTrip

theorem transferBlock_canonical : Canonical plainCrypto (fun _ => true) (transferBlock []) where
  header := ⟨by decide, by decide, by decide, by decide, ⟨by decide, by decide, by decide⟩, by decide,
    by decide, fun _ => rfl⟩
  count := by decide
  transactions := by decide +kernel
  distinct := nodup_singleton _
  root := by decide +kernel

theorem block_round_trip_transfer :
    decodePrefix plainCrypto (fun _ => true)
        ((transferBlock []).encode ++ (transferBlock []).encode) =
      .ok (transferBlock [], (transferBlock []).encode.length) ∧
    ∃ versions, List.Forall₂ (fun version transaction =>
        parseVersion version = Transaction.version transaction) versions (transferBlock []).transactions ∧
      (transferBlock []).encode = Header.encodeHeader (transferBlock []).header ++
        toBe 4 (transferBlock []).transactions.length ++
        encodeBehind versions (transferBlock []).transactions := by
  obtain ⟨hdecoded, hencoded⟩ := block_round_trip plainCrypto fun _ => true
  obtain ⟨hback, hfront⟩ := hencoded _ transferBlock_canonical
  obtain ⟨versions, hversions, hbytes, -⟩ := hdecoded _ _ hback
  exact ⟨hfront _, versions, hversions, hbytes⟩

end NanoStacks.Codec
