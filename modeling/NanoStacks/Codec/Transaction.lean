import NanoStacks.Codec.Auth
import NanoStacks.Codec.PostCondition
import NanoStacks.Codec.Payload

/-!
# Transactions

`Transaction::decode` and `encode` for whole transactions. Every part decodes what it encodes
(`readAuth_decodes`, `readPostCondition_decodes`, `readPayload_decodes`); what `decode` adds is the
version byte, of which it keeps one bit, the anchoring of coinbases, and a bound on the number of
post-conditions: eleven bytes of the input have to be left for each of them (`RoomForPostConditions`).
A post-condition about stacking takes as few as three, so the bound refuses transactions that are
there, and whether it does depends on the bytes behind them.
-/

namespace NanoStacks.Codec

open Bitcoin Sortition Chain Reader List

inductive PostConditionMode
  | deny
  | allow
  | originator
  deriving DecidableEq

/-- A post-condition and the bytes it was read from. -/
structure PostCondition where
  data : PostConditionData
  bytes : List UInt8
  deriving DecidableEq

structure TransactionPayload where
  data : TransactionPayloadData
  bytes : List UInt8
  deriving DecidableEq

structure Transaction where
  bytes : List UInt8
  version : TransactionVersion
  chainId : Nat
  auth : TransactionAuth
  anchorMode : AnchorMode
  postConditionMode : PostConditionMode
  postConditions : List PostCondition
  payload : TransactionPayload
  deriving DecidableEq

/-! ## Tags -/

def parseVersion (value : UInt8) : TransactionVersion :=
  if value &&& 0x80 = 0 then .mainnet else .testnet

def versionByte : TransactionVersion → UInt8
  | .mainnet => 0
  | .testnet => 0x80

def parseAnchorMode : UInt8 → Read AnchorMode
  | 1 => pure .onChainOnly
  | 2 => pure .offChainOnly
  | 3 => pure .any
  | _ => throw .invalidTransaction

def anchorModeByte : AnchorMode → UInt8
  | .onChainOnly => 1
  | .offChainOnly => 2
  | .any => 3

def PostConditionMode.parse : UInt8 → Read PostConditionMode
  | 1 => pure allow
  | 2 => pure deny
  | 3 => pure originator
  | _ => throw .invalidTransaction

def PostConditionMode.byte : PostConditionMode → UInt8
  | allow => 1
  | deny => 2
  | originator => 3

variable {s rest : List UInt8}

@[simp] theorem parseAnchorMode_eq_ok {b : UInt8} {mode : AnchorMode} :
    parseAnchorMode b s = .ok (mode, rest) ↔ b = anchorModeByte mode ∧ s = rest := by
  unfold parseAnchorMode
  split <;> cases mode <;> simp_all [anchorModeByte]

@[simp] theorem PostConditionMode.parse_eq_ok {b : UInt8} {mode : PostConditionMode} :
    PostConditionMode.parse b s = .ok (mode, rest) ↔ b = mode.byte ∧ s = rest := by
  unfold PostConditionMode.parse
  split <;> cases mode <;> simp_all [PostConditionMode.byte]

theorem parseVersion_eq_iff {b b' : UInt8} :
    parseVersion b = parseVersion b' ↔ b &&& 0x80 = b' &&& 0x80 := by
  have hbit : ∀ n < 256, UInt8.ofNat n &&& 0x80 = 0 ∨ UInt8.ofNat n &&& 0x80 = 0x80 := by
    decide +kernel
  have hb := hbit b.toNat b.toNat_lt
  have hb' := hbit b'.toNat b'.toNat_lt
  rw [UInt8.ofNat_toNat] at hb hb'
  rcases hb with hb | hb <;> rcases hb' with hb' | hb' <;> simp [parseVersion, hb, hb']

theorem parseVersion_versionByte (version : TransactionVersion) :
    parseVersion (versionByte version) = version := by
  cases version <;> rfl

/-! ## Reading and writing -/

/-- A coinbase, or the proof of a poisoned microblock, has to be anchored on-chain. -/
def mustAnchor : TransactionPayloadData → Bool
  | .coinbase _ | .coinbaseToAltRecipient _ _ | .nakamotoCoinbase _ _ _ | .poisonMicroblock _ _ => true
  | _ => false

section Decode

variable (vrfParses : Bytes 80 → Bool)

/-- Everything `decode` reads, before the bytes themselves are kept. -/
def readTransaction : Read Transaction := do
  let version ← byte
  let chainId ← u32
  let auth ← readAuth
  let anchorMode ← parseAnchorMode (← byte)
  let postConditionMode ← PostConditionMode.parse (← byte)
  let postConditionCount ← u32
  let left ← remaining
  check (postConditionCount ≤ left / 11) .invalidLength
  let postConditions ← times postConditionCount (taken readPostCondition)
  let payload ← taken (readPayload vrfParses)
  check (anchorMode = .onChainOnly ∨ mustAnchor payload.1 = false) .invalidTransaction
  return {
    bytes := []
    version := parseVersion version
    chainId, auth, anchorMode, postConditionMode
    postConditions := postConditions.map fun (data, bytes) => ⟨data, bytes⟩
    payload := ⟨payload.1, payload.2⟩ }

/-- The transaction in front of some bytes and the number of bytes it takes. The bytes kept are those
read, but for the version byte. -/
def Transaction.decode (bytes : List UInt8) : Except CodecError (Transaction × Nat) := do
  let (transaction, rest) ← readTransaction vrfParses bytes
  let length := bytes.length - rest.length
  return ({ transaction with
    bytes := (bytes.take length).set 0 (versionByte transaction.version) }, length)

end Decode

namespace Transaction

variable (transaction : Transaction)

/-- The post-conditions and the payload, encoded. -/
def encodedTail : List UInt8 :=
  transaction.postConditions.flatMap (fun condition => encodePostCondition condition.data) ++
    encodePayload transaction.payload.data

/-- Everything behind the version byte. -/
def encodedBody : List UInt8 :=
  toBe 4 transaction.chainId ++ encodeAuth transaction.auth ++
    [anchorModeByte transaction.anchorMode, transaction.postConditionMode.byte] ++
    toBe 4 transaction.postConditions.length ++ transaction.encodedTail

def encode : List UInt8 := versionByte transaction.version :: transaction.encodedBody

def txid (H : Hashes) : Txid :=
  if transaction.bytes = [] then H.sha512_256 transaction.encode else H.sha512_256 transaction.bytes

/-- What the identifier is the hash of. -/
def hashedBytes : List UInt8 := if transaction.bytes = [] then transaction.encode else transaction.bytes

theorem txid_eq (H : Hashes) : transaction.txid H = H.sha512_256 transaction.hashedBytes :=
  (apply_ite H.sha512_256 _ _ _).symm

/-- The fields of a transaction are within the codec's grammar, and its counts within their width (the
encoder panics otherwise). -/
structure Grammatical (vrfParses : Bytes 80 → Bool) : Prop where
  chainId : transaction.chainId < 2 ^ 32
  auth : AuthGrammar transaction.auth
  count : transaction.postConditions.length < 2 ^ 32
  postConditions : ∀ condition ∈ transaction.postConditions, PostConditionGrammar condition.data
  payload : PayloadGrammar vrfParses transaction.payload.data
  anchored : transaction.anchorMode = .onChainOnly ∨ mustAnchor transaction.payload.data = false

/-- The same transaction with the encodings it keeps filled in. -/
def cached : Transaction :=
  { transaction with
    bytes := transaction.encode
    postConditions := transaction.postConditions.map fun condition =>
      ⟨condition.data, encodePostCondition condition.data⟩
    payload := ⟨transaction.payload.data, encodePayload transaction.payload.data⟩ }

/-- The bytes kept beside a post-condition or a payload are its encoding. -/
structure KeepsEncodings : Prop where
  postConditions : ∀ condition ∈ transaction.postConditions,
    condition.bytes = encodePostCondition condition.data
  payload : transaction.payload.bytes = encodePayload transaction.payload.data

/-- Eleven bytes are left for each post-condition, with what follows the transaction. -/
def RoomForPostConditions (rest : List UInt8) : Prop :=
  11 * transaction.postConditions.length ≤ transaction.encodedTail.length + rest.length

instance (rest : List UInt8) : Decidable (transaction.RoomForPostConditions rest) :=
  inferInstanceAs (Decidable (_ ≤ _))

end Transaction

/-- What is read is a transaction within the grammar, for which the bytes left have room. -/
theorem readTransaction_eq_ok {vrfParses : Bytes 80 → Bool} {transaction : Transaction} :
    readTransaction vrfParses s = .ok (transaction, rest) ↔
      transaction.Grammatical vrfParses ∧ transaction.RoomForPostConditions rest ∧
      transaction.KeepsEncodings ∧ transaction.bytes = [] ∧
      ∃ version, parseVersion version = transaction.version ∧
        s = version :: transaction.encodedBody ++ rest := by
  obtain ⟨bytes, version, chainId, auth, anchorMode, mode, conditions, ⟨data, kept⟩⟩ := transaction
  have hpairs (pairs : List (PostConditionData × List UInt8)) :
      pairs.map (fun r => (⟨r.1, r.2⟩ : PostCondition)) = conditions ↔
        pairs = conditions.map fun condition => (condition.data, condition.bytes) := by
    constructor
    · rintro rfl
      rw [map_map]
      exact (map_id pairs).symm
    · rintro rfl
      rw [map_map]
      exact map_id conditions
  simp [readTransaction, readPostCondition_decodes.taken.times, (readPayload_decodes vrfParses).taken,
    hpairs, flatMap_map, Transaction.RoomForPostConditions, Transaction.encodedBody, Transaction.encodedTail]
  constructor
  · rintro ⟨version, rfl, hchain, hauth, hcount, hroom, heach, hpayload, hanchored, rfl, rfl, rfl⟩
    exact ⟨⟨hchain, hauth, hcount, fun c hc => (heach _ _ c hc rfl rfl).1, hpayload, hanchored⟩,
      by omega, ⟨fun c hc => (heach _ _ c hc rfl rfl).2, rfl⟩, rfl, version, rfl, rfl⟩
  · rintro ⟨hgood, hroom, hkeeps, rfl, version, rfl, rfl⟩
    refine ⟨version, rfl, hgood.chainId, hgood.auth, hgood.count, by omega, ?_, hgood.payload,
      hgood.anchored, rfl, rfl, hkeeps.payload.symm⟩
    rintro _ _ condition hmem rfl rfl
    exact ⟨hgood.postConditions condition hmem, hkeeps.postConditions condition hmem⟩

namespace Transaction

section Whole

variable {vrfParses : Bytes 80 → Bool} {transaction : Transaction} {bytes : List UInt8}
  {length : Nat}

theorem taken_eq_encode (transaction : Transaction) (version : UInt8) (rest : List UInt8) :
    (version :: transaction.encodedBody ++ rest).length - rest.length = transaction.encode.length ∧
      ((version :: transaction.encodedBody ++ rest).take transaction.encode.length).set 0
        (versionByte transaction.version) = transaction.encode := by
  have hlength : (version :: transaction.encodedBody).length = transaction.encode.length := by
    rw [encode, length_cons, length_cons]
  constructor
  · rw [length_append, Nat.add_sub_cancel, hlength]
  · rw [take_left' hlength, set_cons_zero]
    rfl

/-- `decode` finds the transactions within the grammar that there is room for, and keeps their
encodings. Any version byte with the right high bit will do. -/
theorem decode_eq_ok :
    decode vrfParses bytes = .ok (transaction, length) ↔
      transaction.Grammatical vrfParses ∧ transaction.KeepsEncodings ∧
      transaction.bytes = transaction.encode ∧ length = transaction.encode.length ∧
      ∃ version rest, parseVersion version = transaction.version ∧
        bytes = version :: transaction.encodedBody ++ rest ∧ transaction.RoomForPostConditions rest := by
  rw [decode, Result.bind_eq_ok]
  constructor
  · rintro ⟨⟨found, rest⟩, hread, hkept⟩
    obtain ⟨hgood, hroom, hkeeps, -, version, hversion, rfl⟩ := readTransaction_eq_ok.1 hread
    obtain ⟨rfl, rfl⟩ := Prod.mk.inj (Except.ok.inj hkept)
    obtain ⟨hlength, hbytes⟩ := taken_eq_encode found version rest
    refine ⟨⟨hgood.chainId, hgood.auth, hgood.count, hgood.postConditions, hgood.payload,
      hgood.anchored⟩, ⟨hkeeps.postConditions, hkeeps.payload⟩, ?_, hlength, version, rest, hversion, rfl,
      hroom⟩
    rw [hlength, hbytes]
    rfl
  · rintro ⟨hgood, hkeeps, hbytes, rfl, version, rest, hversion, rfl, hroom⟩
    refine ⟨({ transaction with bytes := [] }, rest), readTransaction_eq_ok.2
      ⟨⟨hgood.chainId, hgood.auth, hgood.count, hgood.postConditions, hgood.payload, hgood.anchored⟩,
        hroom, ⟨hkeeps.postConditions, hkeeps.payload⟩, rfl, version, hversion, rfl⟩, ?_⟩
    obtain ⟨hlength, hset⟩ := taken_eq_encode transaction version rest
    simp only [Result.pure_eq_ok, hlength, hset]
    rw [← hbytes]

theorem encode_cached : transaction.cached.encode = transaction.encode := by
  simp only [encode, encodedBody, encodedTail, cached, length_map, flatMap_map]

theorem roomForPostConditions_cached {rest : List UInt8} :
    transaction.cached.RoomForPostConditions rest ↔ transaction.RoomForPostConditions rest := by
  simp only [RoomForPostConditions, encodedTail, cached, length_map, flatMap_map]

theorem keepsEncodings_cached : transaction.cached.KeepsEncodings := by
  refine ⟨fun condition hmem => ?_, rfl⟩
  obtain ⟨condition', -, rfl⟩ := mem_map.1 hmem
  rfl

theorem Grammatical.cached (h : transaction.Grammatical vrfParses) :
    transaction.cached.Grammatical vrfParses := by
  refine ⟨h.chainId, h.auth, by simpa [Transaction.cached] using h.count, ?_, h.payload, h.anchored⟩
  intro condition hmem
  obtain ⟨condition', hmem', rfl⟩ := mem_map.1 hmem
  exact h.postConditions condition' hmem'

end Whole

/-! ## The room for post-conditions -/

theorem length_encodePostCondition {data : PostConditionData}
    (hpox : ∀ principal condition, data ≠ .pox principal condition) :
    11 ≤ (encodePostCondition data).length := by
  have hprincipal : ∀ principal, 1 ≤ (encodePostConditionPrincipal principal).length := by
    intro principal
    cases principal <;> simp [encodePostConditionPrincipal]
  cases data with
  | stx principal | fungible principal | staking principal =>
    have h := hprincipal principal
    simp only [encodePostCondition, length_cons, length_append, length_toBe, length_nil]
    omega
  | nonFungible principal asset value condition =>
    simp only [encodePostCondition, encodeAssetInfo, writeAddress, length_cons, length_append,
      Bytes.length_toList]
    omega
  | pox principal condition => exact absurd rfl (hpox principal condition)

theorem roomForPostConditions_of_no_pox (transaction : Transaction) (rest : List UInt8)
    (h : ∀ condition ∈ transaction.postConditions, ∀ principal stacking,
      condition.data ≠ .pox principal stacking) : transaction.RoomForPostConditions rest := by
  have henough : 11 * transaction.postConditions.length
      ≤ (transaction.postConditions.flatMap fun condition => encodePostCondition condition.data).length :=
    length_flatMap_ge fun condition hmem => length_encodePostCondition (h condition hmem)
  rw [RoomForPostConditions, encodedTail, length_append]
  omega

variable {vrfParses : Bytes 80 → Bool}

/-- A transaction within the grammar is read back from its encoding, whatever follows, exactly when
eleven bytes are left for each post-condition; that is so whenever none of them is about stacking. -/
theorem decode_encode {transaction : Transaction} (hgood : transaction.Grammatical vrfParses)
    (rest : List UInt8) :
    (decode vrfParses (transaction.encode ++ rest)
        = .ok (transaction.cached, transaction.encode.length) ↔
      transaction.RoomForPostConditions rest) ∧
    ((∀ condition ∈ transaction.postConditions, ∀ principal stacking,
        condition.data ≠ .pox principal stacking) → transaction.RoomForPostConditions rest) := by
  refine ⟨?_, transaction.roomForPostConditions_of_no_pox rest⟩
  have hbody : transaction.cached.encodedBody = transaction.encodedBody :=
    (cons.inj encode_cached).2
  rw [decode_eq_ok, encode_cached, hbody]
  constructor
  · rintro ⟨-, -, -, -, version, rest', -, hbytes, hroom⟩
    have hrest : rest = rest' := append_cancel_left (cons.inj hbytes).2
    rw [hrest]
    exact roomForPostConditions_cached.1 hroom
  · intro hroom
    exact ⟨hgood.cached, keepsEncodings_cached, rfl, rfl, versionByte transaction.version,
      rest, parseVersion_versionByte _, rfl, roomForPostConditions_cached.2 hroom⟩

/-- What `decode` returns is the canonical form of what it took: the encoding is the bytes taken but
for the version byte, the bytes kept and hashed are the encoding, and the same transaction is never
read from bytes that differ elsewhere. Decoding the encoding again succeeds exactly when there is room
for the post-conditions without what followed. -/
theorem encode_decode (H : Hashes) {transaction : Transaction} {bytes : List UInt8} {length : Nat}
    (h : decode vrfParses bytes = .ok (transaction, length)) :
    length ≤ bytes.length ∧
    transaction.encode = (bytes.take length).set 0 (versionByte transaction.version) ∧
    transaction.bytes = transaction.encode ∧
    transaction.txid H = H.sha512_256 transaction.encode ∧
    (decode vrfParses transaction.encode = .ok (transaction, length) ↔
      transaction.RoomForPostConditions []) ∧
    ∀ bytes' length', decode vrfParses bytes' = .ok (transaction, length') →
      length' = length ∧ (bytes'.take length).tail = (bytes.take length).tail ∧
        bytes'.headD 0 &&& 0x80 = bytes.headD 0 &&& 0x80 := by
  obtain ⟨hgood, hkeeps, hbytes, rfl, version, rest, hversion, rfl, -⟩ := decode_eq_ok.1 h
  obtain ⟨-, hset⟩ := taken_eq_encode transaction version rest
  have htake : ∀ (version : UInt8) (rest : List UInt8),
      (version :: transaction.encodedBody ++ rest).take transaction.encode.length
        = version :: transaction.encodedBody := by
    intro version rest
    exact take_left' (by rw [encode, length_cons, length_cons])
  refine ⟨?_, hset.symm, hbytes, ?_, ?_, ?_⟩
  · rw [length_append, length_cons, encode, length_cons]
    omega
  · rw [txid, hbytes, ite_self]
  · rw [decode_eq_ok]
    constructor
    · rintro ⟨-, -, -, -, version', rest', -, henc, hroom⟩
      have hnil : rest' = [] := by
        have heq : transaction.encodedBody = transaction.encodedBody ++ rest' := (cons.inj henc).2
        exact self_eq_append_right.1 heq
      rwa [hnil] at hroom
    · intro hroom
      exact ⟨hgood, hkeeps, hbytes, rfl, versionByte transaction.version, [],
        parseVersion_versionByte _, (append_nil _).symm, hroom⟩
  · intro bytes' length' h'
    obtain ⟨-, -, -, rfl, version', rest', hversion', rfl, -⟩ := decode_eq_ok.1 h'
    refine ⟨rfl, ?_, ?_⟩
    · rw [htake, htake]
      rfl
    · exact parseVersion_eq_iff.1 (hversion'.trans hversion.symm)

/-- Some bytes decode to the transaction. -/
def IsDecoded (vrfParses : Bytes 80 → Bool) (transaction : Transaction) : Prop :=
  ∃ bytes length, decode vrfParses bytes = .ok (transaction, length)

theorem eq_of_hashedBytes_eq {transaction transaction' : Transaction}
    (h : transaction.IsDecoded vrfParses) (h' : transaction'.IsDecoded vrfParses)
    (hbytes : transaction.hashedBytes = transaction'.hashedBytes) : transaction = transaction' := by
  obtain ⟨_, _, h⟩ := h
  obtain ⟨_, _, h'⟩ := h'
  obtain ⟨hgood, hkeeps, hencode, -⟩ := decode_eq_ok.1 h
  obtain ⟨hgood', hkeeps', hencode', -⟩ := decode_eq_ok.1 h'
  rw [hashedBytes, hashedBytes, ← hencode, ← hencode', ite_self, ite_self] at hbytes
  -- Behind enough bytes there is room for the post-conditions of both.
  have hread : ∀ {t : Transaction} (padding : List UInt8), t.Grammatical vrfParses →
      t.KeepsEncodings → t.bytes = t.encode → 11 * t.postConditions.length ≤ padding.length →
      decode vrfParses (t.bytes ++ padding) = .ok (t, t.bytes.length) := by
    intro t padding hgood hkeeps hencode hroom
    rw [hencode]
    exact decode_eq_ok.2 ⟨hgood, hkeeps, hencode, rfl, versionByte t.version, padding,
      parseVersion_versionByte _, rfl, by rw [RoomForPostConditions]; omega⟩
  have hleft := hread (replicate (11 * transaction.postConditions.length
    + 11 * transaction'.postConditions.length) 0) hgood hkeeps hencode (by simp)
  have hright := hread (replicate (11 * transaction.postConditions.length
    + 11 * transaction'.postConditions.length) 0) hgood' hkeeps' hencode' (by simp)
  rw [hbytes, hright] at hleft
  exact (Prod.mk.inj (Except.ok.inj hleft)).1.symm

/-! ## Small transactions -/

/-- A signed transfer to the burn address under some post-conditions. -/
def transferUnder (postConditions : List PostConditionData) : Transaction where
  bytes := []
  version := .mainnet
  chainId := 1
  auth := .standard (.singlesig .p2pkh (Bytes.zero 20) 0 0 .compressed (Bytes.zero 65))
  anchorMode := .any
  postConditionMode := .deny
  postConditions := postConditions.map fun data => ⟨data, []⟩
  payload := ⟨.tokenTransfer (.standard ⟨22, Bytes.zero 20, StacksAddress.single_le true⟩) 1 (Bytes.zero 34), []⟩

theorem transferUnder_grammatical {postConditions : List PostConditionData}
    (hcount : postConditions.length < 2 ^ 32)
    (h : ∀ data ∈ postConditions, PostConditionGrammar data) :
    (transferUnder postConditions).Grammatical fun _ => true where
  chainId := show 1 < 2 ^ 32 by decide
  auth := ⟨by decide, by decide, by decide⟩
  count := by simpa [transferUnder] using hcount
  postConditions := by
    intro condition hmem
    obtain ⟨data, hdata, rfl⟩ := mem_map.1 hmem
    exact h data hdata
  payload := ⟨trivial, by decide⟩
  anchored := .inr rfl

def oneAmount : Transaction := transferUnder [.stx .origin .sentEqual 1]

theorem decode_encode_one_amount :
    decode (fun _ => true) (oneAmount.encode ++ [7])
      = .ok (oneAmount.cached, oneAmount.encode.length) :=
  (decode_encode (transferUnder_grammatical (by decide) (by
    intro data hdata
    rw [mem_singleton.1 hdata]
    exact ⟨trivial, by decide⟩)) [7]).1.2 (by decide)

/-- Nine conditions on stacking by the origin take 27 bytes where 99 are asked for. -/
def nineStackingConditions : Transaction := transferUnder (List.replicate 9 (.pox .origin .performed))

theorem nineStackingConditions_grammatical : nineStackingConditions.Grammatical fun _ => true := by
  refine transferUnder_grammatical (by decide) fun data hdata => ?_
  rw [eq_of_mem_replicate hdata]
  trivial

theorem stacking_conditions_refused :
    nineStackingConditions.Grammatical (fun _ => true) ∧
      decode (fun _ => true) (nineStackingConditions.encode ++ []) = .error .invalidLength :=
  ⟨nineStackingConditions_grammatical, by decide +kernel⟩

theorem encode_decode_one_amount :
    decode (fun _ => true) oneAmount.encode = .ok (oneAmount.cached, oneAmount.encode.length) := by
  have hread : decode (fun _ => true) oneAmount.encode
      = .ok (oneAmount.cached, oneAmount.encode.length) := by
    decide +kernel
  have hagain := (encode_decode
    ⟨fun _ => Bytes.zero 32, fun _ => Bytes.zero 32, fun _ => Bytes.zero 20⟩ hread).2.2.2.2.1
  rw [encode_cached] at hagain
  exact hagain.2 (by decide)

/-- With enough bytes behind it the same transaction is read, and not from its own encoding. -/
theorem stacking_conditions_read_once :
    decode (fun _ => true) (nineStackingConditions.encode ++ List.replicate 9 0)
        = .ok (nineStackingConditions.cached, nineStackingConditions.encode.length) ∧
      decode (fun _ => true) nineStackingConditions.cached.encode = .error .invalidLength := by
  decide +kernel

end Transaction

end NanoStacks.Codec
