import NanoStacks.Lib.Bytes

/-!
# The trie of the MARF: nodes and their hashes

`nano-marf` keeps one copy-on-write radix trie per block. A node is a leaf with the rest of its path
and a value, or an internal node with a compressed path and children told apart by one byte. A child
is either held in memory, because the state being written made it, or stored under
`(block, index)` by an earlier state, in which case the consensus preimage may name the block it
belongs to (`referencedBlock`).

The digest `sha512_256` is a parameter throughout.
-/

namespace NanoStacks.Marf

open Result

abbrev MarfBlockId := Bytes 32
abbrev TrieHash := Bytes 32
abbrev MarfValue := Bytes 40

/-- A whole trie path, the hash of a logical key. -/
abbrev TriePath := Bytes 32

/-- A digest function, `sha512_256` in the source. -/
abbrev Digest := List UInt8 → Bytes 32

inductive MarfError
  | invalidPath
  | invalidPointerCount
  | invalidBackPointer
  | unknownVersion
  | versionAlreadyExists
  | writeInProgress
  | writeNotBegun
  | heightOverflow
  | storage (reason : String)
  /-- The source stops here: an index out of bounds or an explicit abort, not an error it returns. -/
  | abort (reason : String)
  deriving DecidableEq, Repr

inductive TrieNodeId
  | leaf
  | node4
  | node16
  | node48
  | node256
  deriving DecidableEq, Repr

namespace TrieNodeId

def toByte : TrieNodeId → UInt8
  | leaf => 1
  | node4 => 2
  | node16 => 3
  | node48 => 4
  | node256 => 5

def pointerCount : TrieNodeId → Nat
  | leaf => 0
  | node4 => 4
  | node16 => 16
  | node48 => 48
  | node256 => 256

def fromByte (byte : UInt8) : Except MarfError TrieNodeId :=
  if byte = 1 then .ok leaf
  else if byte = 2 then .ok node4
  else if byte = 3 then .ok node16
  else if byte = 4 then .ok node48
  else if byte = 5 then .ok node256
  else .error .invalidPointerCount

@[simp] theorem fromByte_toByte (id : TrieNodeId) : fromByte id.toByte = .ok id := by
  cases id <;> rfl

end TrieNodeId

mutual
inductive TrieNode
  | leaf (path : List UInt8) (value : MarfValue)
  | internal (path : List UInt8) (children : List TrieChild)

structure TrieChild where
  character : UInt8
  /-- The ancestor a back-pointer names in the consensus preimage. -/
  referencedBlock : Option MarfBlockId
  target : ChildTarget

inductive ChildTarget
  | memory (node : TrieNode)
  | stored (block index : Nat) (kind : TrieNodeId)
end

structure TriePointer where
  id : UInt8
  character : UInt8
  referencedBlock : Option MarfBlockId

/-! ## Values and keys -/

/-- `TrieHash::EMPTY`. -/
def emptyHash : TrieHash :=
  ⟨[0xc6, 0x72, 0xb8, 0xd1, 0xef, 0x56, 0xed, 0x28, 0xab, 0x87, 0xc3, 0x62, 0x2c, 0x51, 0x14,
    0x06, 0x9b, 0xdd, 0x3a, 0xd7, 0xb8, 0xf9, 0x73, 0x74, 0x98, 0xd0, 0xc0, 0x1e, 0xce, 0xf0,
    0x96, 0x7a], rfl⟩

/-- `MarfValue::from_u32`: the four little-endian bytes, then zeroes. -/
def MarfValue.fromU32 (value : Nat) : MarfValue := Bytes.fill 40 (toLe 4 value)

/-- `MarfValue::from_block_id`. -/
def MarfValue.fromBlockId (block : MarfBlockId) : MarfValue := Bytes.fill 40 block.toList

/-- Hash a logical key into the 32-byte trie path (`TrieHash::from_data`). -/
def keyPath (sha : Digest) (key : List UInt8) : TriePath :=
  if key = [] then emptyHash else sha key

/-! ## Nodes -/

def TrieChild.localChild (character : UInt8) (node : TrieNode) : TrieChild :=
  { character, referencedBlock := none, target := .memory node }

/-- The layout a number of children takes; an internal node has at least two. -/
def nodeIdForChildren (children : Nat) : Except MarfError TrieNodeId :=
  if children < 2 then .error (.abort "an internal trie node needs at least two children")
  else if children ≤ 4 then .ok .node4
  else if children ≤ 16 then .ok .node16
  else if children ≤ 48 then .ok .node48
  else .ok .node256

def TrieNode.nodeId : TrieNode → Except MarfError TrieNodeId
  | .leaf _ _ => .ok .leaf
  | .internal _ children => nodeIdForChildren children.length

def TrieChild.kind (child : TrieChild) : Except MarfError TrieNodeId :=
  match child.target with
  | .memory node => node.nodeId
  | .stored _ _ kind => .ok kind

/-- Name `block` as the owner of every child that names none yet. -/
def prepareRootForCopy (children : List TrieChild) (block : MarfBlockId) : List TrieChild :=
  children.map fun child =>
    { child with referencedBlock := some (child.referencedBlock.getD block) }

def TrieNode.prepareForCopy : TrieNode → MarfBlockId → TrieNode
  | .leaf path value, _ => .leaf path value
  | .internal path children, block => .internal path (prepareRootForCopy children block)

/-- How many leading bytes two paths share. -/
def sharedPrefix : List UInt8 → List UInt8 → Nat
  | a :: left, b :: right => if a = b then sharedPrefix left right + 1 else 0
  | _, _ => 0

/-! ## Consensus preimages -/

/-- The high bit of a pointer byte, set on a back-pointer. -/
def backPointer : UInt8 := 0x80

/-- A child's kind, with the high bit set when it names a referenced block. -/
def pointerByte (kind : TrieNodeId) (referenced : Bool) : UInt8 :=
  kind.toByte ||| (if referenced then backPointer else 0)

def pointerBytes (pointer : TriePointer) : Except MarfError (List UInt8) :=
  match (decide (pointer.id &&& backPointer ≠ 0)), pointer.referencedBlock with
  | true, some block => .ok ((pointer.id &&& 0x8f) :: pointer.character :: block.toList)
  | false, none => .ok ((pointer.id &&& 0x8f) :: pointer.character :: List.replicate 32 0)
  | _, _ => .error .invalidBackPointer

/-- Hash an internal node's consensus preimage. -/
def internalNodeHash (sha : Digest) (id : TrieNodeId) (pointers : List TriePointer)
    (path : List UInt8) (childHashes : List TrieHash) : Except MarfError TrieHash := do
  ensure (path.length ≤ 32) .invalidPath
  ensure (pointers.length = id.pointerCount ∧ childHashes.length = pointers.length)
    .invalidPointerCount
  let pointers ← pointers.mapM pointerBytes
  return sha (id.toByte :: pointers.flatten ++ UInt8.ofNat path.length :: path
    ++ (childHashes.map Bytes.toList).flatten)

/-- Hash a leaf's path suffix and fixed-width value. -/
def leafHash (sha : Digest) (path : List UInt8) (value : MarfValue) :
    Except MarfError TrieHash := do
  ensure (path.length ≤ 32) .invalidPath
  return sha (TrieNodeId.leaf.toByte :: UInt8.ofNat path.length :: path ++ value.toList)

/-- Fold a content hash into the roots of the ancestors at distances 1, 2, 4, … -/
def stateRoot (sha : Digest) (content : TrieHash) (ancestorRoots : List TrieHash) : TrieHash :=
  if ancestorRoots = [] then content
  else sha (content.toList ++ (ancestorRoots.map Bytes.toList).flatten)

/-- One node's pointer slots and the hash each slot contributes. `node256` indexes its slots by
character; the smaller layouts pack theirs in insertion order. -/
def slots (id : TrieNodeId) (children : List TrieChild) (hashes : List TrieHash) :
    Except MarfError (List TriePointer × List TrieHash) :=
  let free : List TriePointer := List.replicate id.pointerCount ⟨0, 0, none⟩
  let empty : List TrieHash := List.replicate id.pointerCount emptyHash
  ((children.zipIdx.zip hashes).foldlM
    fun (pointers, slotHashes) ((child, index), hash) => do
      let index := if id = .node256 then child.character.toNat else index
      ensure (index < pointers.length) (.abort "index out of bounds")
      let kind ← child.kind
      let pointer := ⟨pointerByte kind child.referencedBlock.isSome, child.character,
        child.referencedBlock⟩
      return (pointers.set index pointer, slotHashes.set index hash)) (free, empty)

end NanoStacks.Marf
