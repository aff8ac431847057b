import NanoStacks.Chain.Transaction

/-!
# The commitment over a block's receipts

One digest over every receipt of a block and every event of every receipt, in order. The digest is of
plain text: identifiers, statuses, serialized values and decimal costs follow one another with nothing
between them.
-/

namespace NanoStacks.Chain

open Bitcoin Sortition Result

/-- The bytes of a text of ASCII characters. -/
def ascii (text : String) : List UInt8 := text.toList.map fun c => UInt8.ofNat c.toNat

/-- A number as decimal digits. -/
def decimal (n : Nat) : List UInt8 := (Nat.toDigits 10 n).map fun c => UInt8.ofNat c.toNat

structure ReceiptCommitment where
  height : Nat
  block : String
  transactions : Nat
  events : Nat
  digest : String

/-- A transaction observers are told of that the block does not carry. -/
structure ObservedTransaction (Value Assets Event : Type) where
  transaction : Transaction
  receipt : TransactionReceipt Value Assets Event

def receiptStatus : TransactionStatus → String
  | .success => "success"
  | .postConditionAborted _ => "abort_by_post_condition"
  | .abortedByResponse | .runtimeFailure _ => "abort_by_response"

variable (H : Hashes) (E : Clarity)

/-- The text of a result's value: nothing for none. -/
def valueText : Option E.Value → Except String (List UInt8)
  | none => .ok []
  | some value => ascii <$> E.serializeToHex value

/-- The part of the preimage one receipt contributes. -/
def receiptPreimage (receipt : E.Receipt) : Except String (List UInt8) := do
  let value ← valueText E receipt.result.value
  let cost := receipt.result.cost
  return ascii receipt.txid.hex ++ ascii (receiptStatus receipt.status) ++ value ++
    decimal cost.runtime ++ decimal cost.readCount ++ decimal cost.readLength ++
    decimal cost.writeCount ++ decimal cost.writeLength

/-- Strip every leading `0x`. -/
def trimHexMark : List Char → List Char
  | '0' :: 'x' :: rest => trimHexMark rest
  | text => text

/-- A member of an event that has to be a string. -/
def jsonString (member : Option String) (field : String) : Except String (List UInt8) := do
  let text ← okOr member ("event has no string " ++ field)
  return ascii (String.ofList (trimHexMark text.toList))

/-- The part of the preimage one event contributes. -/
def eventPreimage (event : EventJson) : Except String (List UInt8) := do
  let txid ← jsonString event.txid "txid"
  let type ← jsonString event.type "type"
  return txid ++ type ++ ascii event.committed ++ event.document

/-- The events of all receipts, each with its transaction, in order. -/
def reportedEvents (receipts : List E.Receipt) : List (E.Event × Txid × Bool) :=
  receipts.flatMap fun receipt =>
    receipt.result.events.map fun event => (event, receipt.txid, receipt.committed)

def serializedEvents (receipts : List E.Receipt) : Except String (List EventJson) :=
  (reportedEvents E receipts).zipIdx.mapM fun entry =>
    E.jsonSerialize entry.1.1 entry.2 entry.1.2.1 entry.1.2.2

/-- The text the digest is taken of. -/
def commitmentPreimage (receipts : List E.Receipt) : Except String (List UInt8 × Nat) := do
  let reported ← receipts.mapM (receiptPreimage E)
  let events ← serializedEvents E receipts
  let texts ← events.mapM eventPreimage
  return (reported.flatten ++ texts.flatten, events.length)

def receiptCommitmentParts (block : NakamotoBlock) (blockReceipts : List E.Receipt)
    (observed : List (ObservedTransaction E.Value E.Assets E.Event)) :
    Except String ReceiptCommitment := do
  let receipts := blockReceipts ++ observed.map (·.receipt)
  let (preimage, events) ← commitmentPreimage E receipts
  return ⟨block.header.chainLength, (block.header.blockHash H).hex, receipts.length, events,
    (H.sha512_256 preimage).hex⟩

/-! ## The decision record -/

structure CostSummary where
  runtime : Nat
  readCount : Nat
  readLength : Nat
  writeCount : Nat
  writeLength : Nat

/-- The record a block is committed under. The schema, the compiler and the profile it names are
constants of the build and are left out. -/
structure DecisionRecord where
  blockId : String
  parentBlockId : String
  height : Nat
  burnViewHeight : Nat
  stateRoot : Option String
  cost : Option CostSummary
  receipts : Option ReceiptCommitment

def acceptedRecordParts (block : NakamotoBlock) (context : BitcoinBlockContext)
    (cost : ExecutionCost) (receipts : ReceiptCommitment) : DecisionRecord where
  blockId := (block.blockId H).hex
  parentBlockId := block.header.parentBlockId.hex
  height := block.header.chainLength
  burnViewHeight := context.height
  stateRoot := some block.header.stateIndexRoot.hex
  cost := some ⟨cost.runtime, cost.readCount, cost.readLength, cost.writeCount, cost.writeLength⟩
  receipts := some receipts

end NanoStacks.Chain
