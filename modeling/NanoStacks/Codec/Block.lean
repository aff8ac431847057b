import NanoStacks.Codec.Transaction
import NanoStacks.Chain.Plain
import NanoStacks.Lib.Pairing

/-!
# Blocks

`NakamotoBlock::decode`: the header, the transactions one after another, and the two checks that tie
them together. The identifier of a block then stands for all of it but the signers' signatures: the
header's signing bytes can be read back (`readHeader_decodes`), the Merkle root in them can be taken
apart because no transaction occurs twice (`Pairing.Tree.level_eq`), and a transaction is
determined by its bytes (`Transaction.eq_of_hashedBytes_eq`).
-/

namespace NanoStacks.Codec

open Bitcoin Sortition Chain Reader Pairing List Bytes

inductive BitVecError
  | empty
  | tooLong (len max : Nat)
  deriving DecidableEq

def BitVecError.display : BitVecError → String
  | empty => "bit vector length must be positive"
  | tooLong len max => s!"bit vector length {len} exceeds {max}"

inductive NakamotoCodecError
  | endOfInput
  | length
  | trailingBytes
  | bitVec (error : BitVecError)
  | transaction (error : CodecError)
  | duplicateTransaction
  | transactionMerkleRoot
  deriving DecidableEq

def NakamotoCodecError.display : NakamotoCodecError → String
  | endOfInput => "unexpected end of Nakamoto block"
  | length => "invalid Nakamoto block length"
  | trailingBytes => "Nakamoto block has trailing bytes"
  | bitVec error => s!"invalid PoX treatment bit vector: {error.display}"
  | transaction error => s!"invalid block transaction: {error.display}"
  | duplicateTransaction => "Nakamoto block has duplicate transactions"
  | transactionMerkleRoot => "Nakamoto block transaction Merkle root mismatches"

/-- A block with its transactions as they were decoded. -/
structure NakamotoBlock where
  header : NakamotoBlockHeader
  transactions : List Transaction
  deriving DecidableEq

/-! ## What the chain sees of a transaction -/

def SpendingCondition.toChain : SpendingCondition → Chain.SpendingCondition
  | singlesig hashMode signer nonce fee _ _ => .singlesig hashMode signer nonce fee
  | multisig _ held => .multisig held.signer held.nonce held.fee
  | orderIndependentMultisig _ held => .orderIndependentMultisig held.signer held.nonce held.fee

def TransactionAuth.toChain : TransactionAuth → Chain.TransactionAuth
  | standard origin => .standard origin.toChain
  | sponsored origin sponsor => .sponsored origin.toChain sponsor.toChain

def Transaction.toChain (transaction : Transaction) : Chain.Transaction where
  bytes := transaction.hashedBytes
  version := transaction.version
  chainId := transaction.chainId
  auth := transaction.auth.toChain
  anchorMode := transaction.anchorMode
  postConditions := transaction.postConditions.map (·.bytes)
  payload := transaction.payload.data

def NakamotoBlock.toChain (block : NakamotoBlock) : Chain.NakamotoBlock :=
  ⟨block.header, block.transactions.map (·.toChain)⟩

/-! ## The header -/

abbrev ReadBlock (α : Type) := Reader NakamotoCodecError α

namespace Header

def byte : ReadBlock UInt8 := Reader.byte .endOfInput

def array (length : Nat) : ReadBlock (Bytes length) := Reader.fixed .endOfInput length

def uint (width : Nat) : ReadBlock Nat := Reader.uint .endOfInput width

variable {s rest : List UInt8}

@[simp] theorem byte_eq_ok {b : UInt8} : byte s = .ok (b, rest) ↔ s = b :: rest := Reader.byte_eq_ok _

@[simp] theorem array_eq_ok {length : Nat} {b : Bytes length} :
    array length s = .ok (b, rest) ↔ s = b.toList ++ rest := Reader.fixed_eq_ok _

@[simp] theorem uint_eq_ok {width n : Nat} :
    uint width s = .ok (n, rest) ↔ n < 256 ^ width ∧ s = toBe width n ++ rest := Reader.uint_eq_ok _

def signature : ReadBlock MessageSignature := array 65

def readSignatures : ReadBlock (List MessageSignature) := do
  let count ← uint 4
  let left ← remaining
  check (count ≤ left / 65) .length
  times count signature

def maximumTreatment : Nat := 4000

def readBitVec : ReadBlock PoxTreatment := do
  let length ← uint 2
  let declared ← uint 4
  check (declared = (length + 7) / 8) .length
  let data ← Reader.take .endOfInput ((length + 7) / 8)
  check (length ≠ 0) (.bitVec .empty)
  check (length ≤ maximumTreatment) (.bitVec (.tooLong length maximumTreatment))
  return ⟨length, data⟩

def readProblematicTransaction : ReadBlock ProblematicTransaction := do
  let index ← uint 4
  let category ← byte
  return ⟨index, category⟩

def readProblematicTransactions : ReadBlock (List ProblematicTransaction) := do
  let count ← uint 4
  let left ← remaining
  check (count ≤ left / 5) .length
  times count readProblematicTransaction

/-- The problematic transactions are there from version 1 on. -/
def readVersioned (version : UInt8) : ReadBlock (List ProblematicTransaction) :=
  if 1 ≤ version.toNat % 128 then readProblematicTransactions else pure []

def readHeader : ReadBlock NakamotoBlockHeader := do
  let version ← byte
  let chainLength ← uint 8
  let bitcoinSpent ← uint 8
  let consensusHash ← array 20
  let parentBlockId ← array 32
  let transactionMerkleRoot ← array 32
  let stateIndexRoot ← array 32
  let timestamp ← uint 8
  let minerSignature ← array 65
  let signerSignatures ← readSignatures
  let poxTreatment ← readBitVec
  let problematicTransactions ← readVersioned version
  return ⟨version, chainLength, bitcoinSpent, consensusHash, parentBlockId, transactionMerkleRoot,
    stateIndexRoot, timestamp, minerSignature, signerSignatures, poxTreatment, problematicTransactions⟩

def encodeSignatures (signatures : List MessageSignature) : List UInt8 :=
  toBe 4 signatures.length ++ signatures.flatMap fun signature : MessageSignature => signature.toList

def encodeHeader (header : NakamotoBlockHeader) : List UInt8 :=
  header.encodeWithoutSignatures ++ header.minerSignature.toList ++
    encodeSignatures header.signerSignatures ++ header.encodePoxTreatment ++
    header.encodeProblematicTransactions

def TreatmentGrammar (treatment : PoxTreatment) : Prop :=
  treatment.length ≠ 0 ∧ treatment.length ≤ maximumTreatment ∧
    treatment.data.length = (treatment.length + 7) / 8

structure HeaderGrammar (header : NakamotoBlockHeader) : Prop where
  chainLength : header.chainLength < 2 ^ 64
  bitcoinSpent : header.bitcoinSpent < 2 ^ 64
  timestamp : header.timestamp < 2 ^ 64
  signatures : header.signerSignatures.length < 2 ^ 32
  treatment : TreatmentGrammar header.poxTreatment
  problematicCount : header.problematicTransactions.length < 2 ^ 32
  problematic : ∀ marker ∈ header.problematicTransactions, marker.index < 2 ^ 32
  unversioned : header.version.toNat % 128 = 0 → header.problematicTransactions = []

@[simp] theorem readSignatures_decodes :
    Decodes readSignatures encodeSignatures fun signatures => signatures.length < 2 ^ 32 := by
  have hone : Decodes signature (fun signature : MessageSignature => signature.toList)
      fun _ => True := by
    intro s b rest
    simp [signature]
  intro s signatures rest
  simp [readSignatures, encodeSignatures, hone.times]
  omega

/-- The wire form of a bit vector. -/
def encodeTreatment (treatment : PoxTreatment) : List UInt8 :=
  toBe 2 treatment.length ++ toBe 4 treatment.data.length ++ treatment.data

@[simp] theorem readBitVec_decodes : Decodes readBitVec encodeTreatment TreatmentGrammar := by
  rintro s ⟨length, data⟩ rest
  have hbound : maximumTreatment = 4000 := rfl
  simp [readBitVec, Reader.take_eq_ok, encodeTreatment, TreatmentGrammar]
  grind

theorem readProblematicTransaction_decodes :
    Decodes readProblematicTransaction (fun marker => toBe 4 marker.index ++ [marker.category])
      fun marker => marker.index < 2 ^ 32 := by
  rintro s ⟨index, category⟩ rest
  simp [readProblematicTransaction]

/-- The problematic transactions with their count in front. -/
def encodeProblematic (markers : List ProblematicTransaction) : List UInt8 :=
  toBe 4 markers.length ++ markers.flatMap fun marker => toBe 4 marker.index ++ [marker.category]

theorem readProblematicTransactions_decodes :
    Decodes readProblematicTransactions encodeProblematic fun markers =>
      markers.length < 2 ^ 32 ∧ ∀ marker ∈ markers, marker.index < 2 ^ 32 := by
  intro s markers rest
  simp [readProblematicTransactions, encodeProblematic, readProblematicTransaction_decodes.times]
  grind

@[simp] theorem readVersioned_decodes (version : UInt8) :
    Decodes (readVersioned version)
      (fun markers => if 1 ≤ version.toNat % 128 then encodeProblematic markers else [])
      fun markers => (markers.length < 2 ^ 32 ∧ ∀ marker ∈ markers, marker.index < 2 ^ 32) ∧
        (version.toNat % 128 = 0 → markers = []) := by
  intro s markers rest
  unfold readVersioned
  split_ifs with hversion
  · rw [readProblematicTransactions_decodes]
    grind
  · rw [pure_eq_ok]
    grind

theorem readHeader_decodes : Decodes readHeader encodeHeader HeaderGrammar := by
  intro s header rest
  cases header
  simp [readHeader, encodeHeader, NakamotoBlockHeader.encodeWithoutSignatures, encodeTreatment,
    NakamotoBlockHeader.encodePoxTreatment, NakamotoBlockHeader.encodeProblematicTransactions,
    encodeProblematic]
  constructor
  · rintro ⟨rfl, hchain, hspent, htime, hsigners, htreatment, ⟨hcount, hmarkers⟩, hnone⟩
    exact ⟨⟨hchain, hspent, htime, hsigners, htreatment, hcount, hmarkers, hnone⟩, rfl⟩
  · rintro ⟨⟨hchain, hspent, htime, hsigners, htreatment, hcount, hmarkers, hnone⟩, rfl⟩
    exact ⟨rfl, hchain, hspent, htime, hsigners, htreatment, ⟨hcount, hmarkers⟩, hnone⟩

theorem signingBytes_inj {header header' : NakamotoBlockHeader} (h : HeaderGrammar header)
    (h' : HeaderGrammar header') (heq : header.signingBytes true = header'.signingBytes true) :
    { header with signerSignatures := [] } = { header' with signerSignatures := [] } := by
  have hunsigned {header : NakamotoBlockHeader} (h : HeaderGrammar header) :
      HeaderGrammar { header with signerSignatures := [] } :=
    { h with signatures := show 0 < 2 ^ 32 by decide }
  -- the signing bytes are those of the header without the signatures and their count
  have hencoded (header : NakamotoBlockHeader) : encodeHeader { header with signerSignatures := [] }
      = (header.signingBytes true).take 206 ++ encodeSignatures [] ++
        (header.signingBytes true).drop 206 := by
    have hwidth : (header.encodeWithoutSignatures ++ header.minerSignature.toList).length = 206 := by
      simp [NakamotoBlockHeader.encodeWithoutSignatures]
    rw [NakamotoBlockHeader.signingBytes, if_pos rfl, append_assoc _ header.encodePoxTreatment,
      take_left' hwidth, drop_left' hwidth, ← append_assoc]
    rfl
  refine (readHeader_decodes.inj (hunsigned h) (hunsigned h') (congrArg (· ++ []) ?_)).1
  rw [hencoded, hencoded, heq]

end Header

/-! ## The Merkle root -/

section Merkle

variable (H : Hashes)

/-- The node above two hashes. -/
def merkleNode (left right : Bytes 32) : Bytes 32 := taggedHash H 1 (left.toList ++ right.toList)

/-- What is hashed for a pair. -/
def pairString (pair : Bytes 32 × Bytes 32) : List UInt8 := 1 :: (pair.1.toList ++ pair.2.toList)

/-- What is hashed for a leaf. -/
def leafString (txid : Txid) : List UInt8 := 0 :: txid.toList

/-- What `reduceLevels` hashes. -/
def reducedStrings : Nat → List (Bytes 32) → List (List UInt8)
  | 0, _ => []
  | fuel + 1, level =>
    if level.length ≤ 1 then []
    else (Pairing.pairs level).map pairString ++ reducedStrings fuel (pairLevel H level)

def merkleLeaves (txids : List Txid) : List (Bytes 32) := txids.map fun txid => H.sha512_256 (leafString txid)

/-- Everything that is hashed for the root of some transactions. -/
def merkleStrings (txids : List Txid) : List (List UInt8) :=
  txids.map leafString ++
    match merkleLeaves H txids with
    | [only] => [pairString (only, only)]
    | level => reducedStrings H level.length level

theorem pairLevel_eq (level : List (Bytes 32)) :
    pairLevel H level = Pairing.pairUp (merkleNode H) level := by
  induction level using pairLevel.induct with
  | case1 => rfl
  | case2 last => rfl
  | case3 left right rest ih =>
    rw [pairLevel, ih]
    rfl

/-- The loop ends with the top of a tree over its level, and hashes exactly the pairs below it. -/
theorem reduceLevels_spec {fuel : Nat} {level : List (Bytes 32)} (hne : level ≠ [])
    (hfuel : level.length ≤ fuel + 1) :
    ∃ height top, reduceLevels H fuel level = [top] ∧
      (Pairing.pairUp (merkleNode H))^[height] level = [top] ∧
      ∀ p ∈ Pairing.pairsBelow (merkleNode H) level height, pairString p ∈ reducedStrings H fuel level := by
  have hpos := length_pos_iff.2 hne
  induction fuel generalizing level with
  | zero =>
    obtain ⟨top, rfl⟩ := length_eq_one_iff.1 (show level.length = 1 by omega)
    exact ⟨0, top, rfl, rfl, by simp [pairsBelow]⟩
  | succ fuel ih =>
    by_cases hshort : level.length ≤ 1
    · obtain ⟨top, rfl⟩ := length_eq_one_iff.1 (show level.length = 1 by omega)
      exact ⟨0, top, rfl, rfl, by simp [pairsBelow]⟩
    · have hlength := length_pairUp (merkleNode H) level
      rw [← pairLevel_eq] at hlength
      have hpos' : 0 < (pairLevel H level).length := by omega
      obtain ⟨height, top, hreduce, hiterate, hstrings⟩ :=
        ih (length_pos_iff.1 hpos') (by omega) hpos'
      refine ⟨height + 1, top, ?_, ?_, ?_⟩
      · rw [reduceLevels, if_neg hshort, hreduce]
      · rw [Function.iterate_succ_apply, ← pairLevel_eq, hiterate]
      · intro p hp
        rw [reducedStrings, if_neg hshort, mem_append]
        rcases mem_pairsBelow_succ.1 hp with hp | hp
        · exact .inl (mem_map_of_mem hp)
        · rw [← pairLevel_eq] at hp
          exact .inr (hstrings p hp)

theorem transactionMerkleRoot_spec {transactions : List Chain.Transaction} (hne : transactions ≠ []) :
    ∃ height, (Pairing.pairUp (merkleNode H))^[height] (merkleLeaves H (transactions.map (·.txid H)))
        = [transactionMerkleRoot H transactions] ∧
      ∀ p ∈ Pairing.pairsBelow (merkleNode H) (merkleLeaves H (transactions.map (·.txid H))) height,
        pairString p ∈ merkleStrings H (transactions.map (·.txid H)) := by
  have hleaves : (transactions.map fun transaction => taggedHash H 0 (transaction.txid H).toList)
      = merkleLeaves H (transactions.map (·.txid H)) := by
    rw [merkleLeaves, map_map]
    rfl
  rw [transactionMerkleRoot, hleaves, merkleStrings]
  have hlevel : merkleLeaves H (transactions.map (·.txid H)) ≠ [] := by
    simpa [merkleLeaves] using hne
  generalize merkleLeaves H (transactions.map (·.txid H)) = level at hlevel
  match level, hlevel with
  | [only], _ =>
    refine ⟨1, rfl, fun p hp => ?_⟩
    rw [mem_pairsBelow_succ] at hp
    obtain rfl : p = (only, only) := by simpa [pairs, pairsBelow] using hp
    exact mem_append_right _ mem_cons_self
  | left :: right :: rest, hlevel =>
    obtain ⟨height, top, hreduce, hiterate, hstrings⟩ :=
      reduceLevels_spec H hlevel (Nat.le_succ (left :: right :: rest).length)
    refine ⟨height, ?_, fun p hp => mem_append_right _ (hstrings p hp)⟩
    rw [hiterate]
    simp only [hreduce, headD_cons]

theorem leafString_injective {txid txid' : Txid} (h : leafString txid = leafString txid') :
    txid = txid' :=
  ext (cons.inj h).2

theorem pairString_injective {p q : Bytes 32 × Bytes 32} (h : pairString p = pairString q) : p = q := by
  obtain ⟨hleft, hright⟩ := append_inj (cons.inj h).2
    (p.1.length_toList.trans q.1.length_toList.symm)
  exact Prod.ext (ext hleft) (ext hright)

/-- What is hashed for identifiers, none of them twice, is a tree over them, if the digest does not collide
on it: the tags keep leaves and nodes apart. -/
theorem merkleTree {txids : List Txid} (hne : txids ≠ []) (hnodup : txids.Nodup)
    {hashed : Set (List UInt8)} (hinj : Set.InjOn H.sha512_256 hashed)
    (hhashed : ∀ s ∈ merkleStrings H txids, s ∈ hashed) {height : Nat}
    (hpairs : ∀ p ∈ Pairing.pairsBelow (merkleNode H) (merkleLeaves H txids) height,
      pairString p ∈ merkleStrings H txids) :
    Pairing.Tree (merkleNode H) {p | pairString p ∈ hashed} (merkleLeaves H txids) height := by
  have hleaf : ∀ txid ∈ txids, leafString txid ∈ hashed :=
    fun txid h => hhashed _ (mem_append_left _ (mem_map_of_mem h))
  refine ⟨hnodup.map_on fun a ha b hb heq => ?_, by simpa [merkleLeaves] using hne, ?_,
    fun p hp => hhashed _ (hpairs p hp)⟩
  · exact leafString_injective (hinj (hleaf a ha) (hleaf b hb) heq)
  · intro p hp hmem
    obtain ⟨txid, htxid, heq⟩ := mem_map.1 hmem
    exact absurd (cons.inj (hinj (hleaf txid htxid) hp heq)).1 (by decide)

end Merkle

/-! ## Decoding a block -/

section Decode

variable (H : Hashes) (vrfParses : Bytes 80 → Bool)

/-- A transaction and no more of the bytes left than it takes. -/
def readBlockTransaction : ReadBlock Transaction := fun s =>
  match Transaction.decode vrfParses s with
  | .ok (transaction, consumed) => .ok (transaction, s.drop consumed)
  | .error error => .error (.transaction error)

def validateBlock (header : NakamotoBlockHeader) (transactions : List Transaction) :
    Except NakamotoCodecError NakamotoBlock := do
  Result.ensure ((transactions.map (·.txid H)).Nodup) .duplicateTransaction
  Result.ensure (transactionMerkleRoot H (transactions.map (·.toChain)) = header.transactionMerkleRoot)
    .transactionMerkleRoot
  return ⟨header, transactions⟩

/-- Everything a block is read from. -/
def readBlock : ReadBlock (NakamotoBlockHeader × List Transaction) := do
  let header ← Header.readHeader
  let count ← Header.uint 4
  let left ← remaining
  check (count ≤ left) .length
  let transactions ← times count (readBlockTransaction vrfParses)
  return (header, transactions)

namespace NakamotoBlock

/-- The block in front of some bytes and the number of bytes it takes. -/
def decodePrefix (bytes : List UInt8) : Except NakamotoCodecError (NakamotoBlock × Nat) := do
  let ((header, transactions), rest) ← readBlock vrfParses bytes
  let block ← validateBlock H header transactions
  return (block, bytes.length - rest.length)

def decode (bytes : List UInt8) : Except NakamotoCodecError NakamotoBlock := do
  let (block, consumed) ← decodePrefix H vrfParses bytes
  Result.ensure (consumed = bytes.length) .trailingBytes
  return block

def encode (block : NakamotoBlock) : List UInt8 :=
  Header.encodeHeader block.header ++ toBe 4 block.transactions.length ++
    block.transactions.flatMap (·.encode)

def blockId (block : NakamotoBlock) : StacksBlockId := block.header.blockId H

end NakamotoBlock

/-- What every decoded block satisfies. -/
structure BlockGrammar (block : NakamotoBlock) : Prop where
  header : Header.HeaderGrammar block.header
  transactions : ∀ transaction ∈ block.transactions, transaction.IsDecoded vrfParses
  distinct : (block.transactions.map (·.txid H)).Nodup
  root : transactionMerkleRoot H (block.transactions.map (·.toChain))
    = block.header.transactionMerkleRoot

variable {block : NakamotoBlock} {bytes : List UInt8}

theorem NakamotoBlock.decodePrefix_eq_ok {consumed : Nat} :
    decodePrefix H vrfParses bytes = .ok (block, consumed) ↔
      (∃ rest, readBlock vrfParses bytes = .ok ((block.header, block.transactions), rest) ∧
        bytes.length - rest.length = consumed) ∧
      (block.transactions.map (·.txid H)).Nodup ∧
      transactionMerkleRoot H (block.transactions.map (·.toChain)) = block.header.transactionMerkleRoot := by
  simp only [decodePrefix, validateBlock, Result.bind_eq_ok, Result.ensure_eq_ok,
    Result.return_eq_ok, Prod.exists, Prod.mk.injEq]
  grind

theorem NakamotoBlock.decode_eq_ok :
    decode H vrfParses bytes = .ok block ↔
      decodePrefix H vrfParses bytes = .ok (block, bytes.length) := by
  simp only [decode, Result.bind_eq_ok, Result.ensure_eq_ok, Result.return_eq_ok, Prod.exists]
  grind

theorem NakamotoBlock.grammar_of_decode (h : decode H vrfParses bytes = .ok block) :
    BlockGrammar H vrfParses block := by
  rw [decode_eq_ok, decodePrefix_eq_ok] at h
  obtain ⟨⟨rest, hread, -⟩, hdistinct, hroot⟩ := h
  simp only [readBlock, bind_eq_ok, Header.readHeader_decodes, pure_eq_ok] at hread
  obtain ⟨_, _, ⟨hheader, -⟩, _, _, -, _, _, -, -, _, -, _, _, htimes, ⟨⟩, -⟩ := hread
  refine ⟨hheader, fun transaction hmem => ?_, hdistinct, hroot⟩
  obtain ⟨s, rest, hone⟩ := exists_of_mem_times htimes transaction hmem
  unfold readBlockTransaction at hone
  split at hone
  · rename_i found consumed hfound
    cases hone
    exact ⟨s, consumed, hfound⟩
  · cases hone

theorem map_txid_toChain (transactions : List Transaction) :
    (transactions.map (·.toChain)).map (·.txid H) = transactions.map (·.txid H) := by
  rw [map_map]
  exact map_congr_left fun transaction _ => (transaction.txid_eq H).symm

/-- What is hashed for some transactions: each of them, and the tree over their identifiers. -/
def transactionStrings (transactions : List Transaction) : List (List UInt8) :=
  transactions.map (·.hashedBytes) ++ merkleStrings H (transactions.map (·.txid H))

/-- What is hashed for a block and its identifier. -/
def NakamotoBlock.hashedStrings (block : NakamotoBlock) : List (List UInt8) :=
  block.header.signingBytes true ::
    ((block.header.blockHash H).toList ++ block.header.consensusHash.toList) ::
    transactionStrings H block.transactions

variable {H vrfParses} {transactions transactions' : List Transaction}

/-- The Merkle root determines what is hashed of the transactions, however many there are. -/
theorem hashedBytes_eq_of_merkleRoot_eq (hne : transactions ≠ []) (hne' : transactions' ≠ [])
    (hnodup : (transactions.map (·.txid H)).Nodup) (hnodup' : (transactions'.map (·.txid H)).Nodup)
    {hashed : Set (List UInt8)} (hhashed : ∀ s ∈ transactionStrings H transactions, s ∈ hashed)
    (hhashed' : ∀ s ∈ transactionStrings H transactions', s ∈ hashed)
    (hinj : Set.InjOn H.sha512_256 hashed)
    (heq : transactionMerkleRoot H (transactions.map (·.toChain))
      = transactionMerkleRoot H (transactions'.map (·.toChain))) :
    transactions.map (·.hashedBytes) = transactions'.map (·.hashedBytes) := by
  obtain ⟨height, htop, hpairs⟩ := transactionMerkleRoot_spec H (map_eq_nil_iff.not.2 hne)
  obtain ⟨height', htop', hpairs'⟩ := transactionMerkleRoot_spec H (map_eq_nil_iff.not.2 hne')
  rw [map_txid_toChain] at htop hpairs htop' hpairs'
  have hmerkle : ∀ s ∈ merkleStrings H (transactions.map (·.txid H)), s ∈ hashed :=
    fun s hs => hhashed s (mem_append_right _ hs)
  have hmerkle' : ∀ s ∈ merkleStrings H (transactions'.map (·.txid H)), s ∈ hashed :=
    fun s hs => hhashed' s (mem_append_right _ hs)
  have hleaves := (merkleTree H (map_eq_nil_iff.not.2 hne) hnodup hinj hmerkle hpairs).level_eq
    (merkleTree H (map_eq_nil_iff.not.2 hne') hnodup' hinj hmerkle' hpairs')
    (fun p hp q hq heq => pairString_injective (hinj hp hq heq)) (by rw [htop, htop', heq])
  have htxids : transactions.map (·.txid H) = transactions'.map (·.txid H) := by
    refine eq_of_map_eq_map (fun txid h txid' h' heq => leafString_injective (hinj ?_ ?_ heq)) hleaves
    · exact hmerkle _ (mem_append_left _ (mem_map_of_mem h))
    · exact hmerkle' _ (mem_append_left _ (mem_map_of_mem h'))
  -- Equal identifiers are digests of equal bytes.
  have hids : (transactions.map (·.hashedBytes)).map H.sha512_256
      = (transactions'.map (·.hashedBytes)).map H.sha512_256 := by
    simpa only [map_map, Function.comp_def, ← Transaction.txid_eq] using htxids
  refine eq_of_map_eq_map (fun s hs t ht hst => hinj ?_ ?_ hst) hids
  · exact hhashed s (mem_append_left _ hs)
  · exact hhashed' t (mem_append_left _ ht)

theorem transactions_eq_of_hashedBytes_eq
    (hdecoded : ∀ transaction ∈ transactions, transaction.IsDecoded vrfParses)
    (hdecoded' : ∀ transaction ∈ transactions', transaction.IsDecoded vrfParses)
    (h : transactions.map (·.hashedBytes) = transactions'.map (·.hashedBytes)) :
    transactions = transactions' :=
  eq_of_map_eq_map
    (fun t ht t' ht' => Transaction.eq_of_hashedBytes_eq (hdecoded t ht) (hdecoded' t' ht')) h

variable (H vrfParses)

/-- Blocks with transactions that decode and have the same identifier agree in all their headers say
but the signers' signatures, and in their transactions, if the digest does not collide on the strings
hashed for the two. Any transactions, none of them twice, with the same Merkle root are hashed from the
same bytes, and are the same if they were decoded. -/
theorem blockId_binds_block :
    (∀ bytes bytes' block block',
      NakamotoBlock.decode H vrfParses bytes = .ok block →
      NakamotoBlock.decode H vrfParses bytes' = .ok block' →
      block.transactions ≠ [] → block'.transactions ≠ [] →
      Set.InjOn H.sha512_256 {s | s ∈ block.hashedStrings H ++ block'.hashedStrings H} →
      block.blockId H = block'.blockId H →
      { block.header with signerSignatures := [] } = { block'.header with signerSignatures := [] } ∧
        block.transactions = block'.transactions) ∧
    ∀ transactions transactions' : List Transaction,
      transactions ≠ [] → transactions' ≠ [] →
      (transactions.map (·.txid H)).Nodup → (transactions'.map (·.txid H)).Nodup →
      Set.InjOn H.sha512_256
        {s | s ∈ transactionStrings H transactions ++ transactionStrings H transactions'} →
      transactionMerkleRoot H (transactions.map (·.toChain))
        = transactionMerkleRoot H (transactions'.map (·.toChain)) →
      transactions.map (·.hashedBytes) = transactions'.map (·.hashedBytes) ∧
      ((∀ transaction ∈ transactions ++ transactions', transaction.IsDecoded vrfParses) →
        transactions = transactions') := by
  constructor
  · intro bytes bytes' block block' hdecode hdecode' hne hne' hinj hid
    have hblock := NakamotoBlock.grammar_of_decode H vrfParses hdecode
    have hblock' := NakamotoBlock.grammar_of_decode H vrfParses hdecode'
    have hpreimage := hinj (mem_append_left _ (by simp [NakamotoBlock.hashedStrings]))
      (mem_append_right _ (by simp [NakamotoBlock.hashedStrings])) hid
    have hhash : block.header.blockHash H = block'.header.blockHash H := by
      refine ext (append_inj_left hpreimage ?_)
      rw [length_toList, length_toList]
    have hsigning := hinj (mem_append_left _ mem_cons_self) (mem_append_right _ mem_cons_self) hhash
    have hheaders := Header.signingBytes_inj hblock.header hblock'.header hsigning
    have hroots := congrArg NakamotoBlockHeader.transactionMerkleRoot hheaders
    refine ⟨hheaders, transactions_eq_of_hashedBytes_eq hblock.transactions hblock'.transactions
      (hashedBytes_eq_of_merkleRoot_eq hne hne' hblock.distinct hblock'.distinct (fun s hs => ?_)
        (fun s hs => ?_) hinj ?_)⟩
    · exact mem_append_left _ (mem_cons_of_mem _ (mem_cons_of_mem _ hs))
    · exact mem_append_right _ (mem_cons_of_mem _ (mem_cons_of_mem _ hs))
    · rw [hblock.root, hblock'.root]
      exact hroots
  · intro transactions transactions' hne hne' hnodup hnodup' hinj heq
    have hbytes := hashedBytes_eq_of_merkleRoot_eq hne hne' hnodup hnodup'
      (fun s hs => mem_append_left _ hs) (fun s hs => mem_append_right _ hs) hinj heq
    refine ⟨hbytes, fun hdecoded => ?_⟩
    exact transactions_eq_of_hashedBytes_eq (fun t ht => hdecoded t (mem_append_left _ ht))
      (fun t ht => hdecoded t (mem_append_right _ ht)) hbytes

end Decode

/-- A block with one transfer, signed by some signers. -/
def transferBlock (signers : List MessageSignature) : NakamotoBlock where
  header :=
    { (plainBlock (zero 32) 1 1 0 [(Transaction.transferUnder []).cached.toChain]).header with
      signerSignatures := signers
      poxTreatment := ⟨1, [1]⟩ }
  transactions := [(Transaction.transferUnder []).cached]

theorem blockId_binds_block_signed_twice :
    { (transferBlock []).header with signerSignatures := [] }
        = { (transferBlock [zero 65]).header with signerSignatures := [] } ∧
      (transferBlock []).transactions = (transferBlock [zero 65]).transactions := by
  have hapart : ∀ s ∈ (transferBlock []).hashedStrings plainCrypto ++
        (transferBlock [zero 65]).hashedStrings plainCrypto,
      ∀ t ∈ (transferBlock []).hashedStrings plainCrypto ++
        (transferBlock [zero 65]).hashedStrings plainCrypto,
      plainCrypto.sha512_256 s = plainCrypto.sha512_256 t → s = t := by
    decide +kernel
  exact (blockId_binds_block plainCrypto fun _ => true).1 (transferBlock []).encode
    (transferBlock [zero 65]).encode _ _ (by decide +kernel) (by decide +kernel) (by decide)
    (by decide) (fun s hs t ht heq => hapart s hs t ht heq) (by decide +kernel)

end NanoStacks.Codec
