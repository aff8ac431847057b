import NanoStacks.Marf.Storage

/-!
# Walking, writing and persisting the trie

The recursive functions of `nano-marf`. `get` and `insert` follow a path downwards and lose at least
one byte of it at each child, so they take the number of bytes left as fuel; `find…` and
`insertUnderRoot` start them with enough. `persistNode` writes the nodes held in memory, children
before their parent.

Where the source would index out of bounds the model answers `MarfError.abort`.
-/

namespace NanoStacks.Marf

open Result

/-! ## Reading -/

def TrieChild.node (st : TrieStorage) (child : TrieChild) : Except MarfError TrieNode :=
  match child.target with
  | .memory node => .ok node
  | .stored block index _ => st.node block index

/-- The child under a character. -/
def findChild (character : UInt8) (children : List TrieChild) : Option TrieChild :=
  children.find? (·.character = character)

/-- `path.strip_prefix(node_path)`. -/
def stripPath : List UInt8 → List UInt8 → Option (List UInt8)
  | [], path => some path
  | _ :: _, [] => none
  | a :: nodePath, b :: path => if a = b then stripPath nodePath path else none

def TrieNode.get (st : TrieStorage) : Nat → TrieNode → List UInt8 →
    Except MarfError (Option MarfValue)
  | 0, _, _ => .error (.abort "out of fuel")
  | _ + 1, .leaf leafPath value, path => .ok (if leafPath = path then some value else none)
  | fuel + 1, .internal nodePath children, path =>
    match stripPath nodePath path with
    | none => .ok none
    | some [] => .ok none
    | some (character :: remaining) =>
      match findChild character children with
      | none => .ok none
      | some child => do
        let node ← child.node st
        node.get st fuel remaining

/-- Read a path suffix from a node. -/
def TrieNode.lookup (st : TrieStorage) (node : TrieNode) (path : List UInt8) :
    Except MarfError (Option MarfValue) :=
  node.get st (path.length + 1) path

/-- `find_path`: read a path under a root. -/
def findPath (st : TrieStorage) (rootChildren : List TrieChild) (path : TriePath) :
    Except MarfError (Option MarfValue) :=
  match path.toList with
  | [] => .error (.abort "index out of bounds")
  | character :: suffix =>
    match findChild character rootChildren with
    | none => .ok none
    | some child => do
      let node ← child.node st
      node.lookup st suffix

/-! ## Writing -/

/-- Take ownership of a child for the state being written: the node it stands for, whose own children
become back-pointers to the block that owns them. -/
def TrieChild.owned (st : TrieStorage) (child : TrieChild) : Except MarfError TrieNode :=
  match child.target with
  | .stored block index _ => do
    let owner ← match child.referencedBlock with
      | some block => .ok block
      | none => st.blockHash block
    let stored ← st.node block index
    return stored.prepareForCopy owner
  | .memory node =>
    match child.referencedBlock with
    | some block => .ok (node.prepareForCopy block)
    | none => .ok node

/-- Change the first child under a character, or answer `none` when there is no such child. -/
def updateChild (character : UInt8) (f : TrieChild → Except MarfError TrieNode) :
    List TrieChild → Option (Except MarfError (List TrieChild))
  | [] => none
  | child :: children =>
    if child.character = character then
      some (do
        let node ← f child
        return TrieChild.localChild child.character node :: children)
    else
      (updateChild character f children).map fun rest => do
        let rest ← rest
        return child :: rest

/-- Two nodes that part after `shared` bytes, under the bytes they part at. -/
def splitAt (shared : Nat) (left right : List UInt8)
    (build : UInt8 → List UInt8 → UInt8 → List UInt8 → List TrieChild) :
    Except MarfError TrieNode :=
  match left.drop shared, right.drop shared with
  | a :: leftRest, b :: rightRest => .ok (.internal (left.take shared) (build a leftRest b rightRest))
  | _, _ => .error (.abort "index out of bounds")

def TrieNode.insert (st : TrieStorage) : Nat → TrieNode → List UInt8 → MarfValue →
    Except MarfError TrieNode
  | 0, _, _, _ => .error (.abort "out of fuel")
  | _ + 1, .leaf leafPath leafValue, path, value =>
    if leafPath = path then .ok (.leaf leafPath value)
    else
      splitAt (sharedPrefix leafPath path) leafPath path fun old oldRest new newRest =>
        [.localChild old (.leaf oldRest leafValue), .localChild new (.leaf newRest value)]
  | fuel + 1, .internal nodePath children, path, value =>
    if sharedPrefix nodePath path < nodePath.length then
      -- The new leaf takes the first slot and the displaced node the second.
      splitAt (sharedPrefix nodePath path) nodePath path fun old oldRest new newRest =>
        [.localChild new (.leaf newRest value), .localChild old (.internal oldRest children)]
    else
      match path.drop nodePath.length with
      | [] => .error (.abort "index out of bounds")
      | character :: suffix =>
        match updateChild character (fun child => do
            let node ← child.owned st
            node.insert st fuel suffix value) children with
        | none => .ok (.internal nodePath (children ++ [.localChild character (.leaf suffix value)]))
        | some updated => do
          let children ← updated
          return .internal nodePath children

def insertUnderRoot (st : TrieStorage) (rootChildren : List TrieChild) (path : TriePath)
    (value : MarfValue) : Except MarfError (List TrieChild) :=
  match path.toList with
  | [] => .error (.abort "index out of bounds")
  | character :: suffix =>
    match updateChild character (fun child => do
        let node ← child.owned st
        node.insert st (suffix.length + 1) suffix value) rootChildren with
    | none => .ok (rootChildren ++ [.localChild character (.leaf suffix value)])
    | some updated => updated

/-- Take over the sealed state `parent`, turning every child it owns into a back-pointer to it. -/
def extendRoot (st : TrieStorage) (parent : BlockRecord) : Except MarfError (List TrieChild) :=
  match parent.node with
  | none => .ok []
  | some index => do
    match ← st.node parent.id index with
    | .internal _ children => return prepareRootForCopy children parent.hash
    | .leaf _ _ => throw (.storage "root state is a leaf")

/-! ## Persisting -/

section
variable (sha : Digest)

/-- What has been written so far: the storage and the next free index. -/
structure Persist where
  storage : TrieStorage
  next : Nat

/-- File one node under the next index and remember it. -/
def Persist.write (block : Nat) (p : Persist) (hash : TrieHash) (record : TrieNode) :
    Except MarfError (Nat × Persist) := do
  ensure (p.next + 1 < 2 ^ 32) .heightOverflow
  let storage ← p.storage.insertNode block p.next hash record
  return (p.next, ⟨storage.remember block p.next record, p.next + 1⟩)

mutual
def persistNode (block : Nat) : TrieNode → Persist →
    Except MarfError ((Nat × TrieHash × TrieNodeId) × Persist)
  | .leaf path value, p => do
    let hash ← leafHash sha path value
    let (index, p) ← p.write block hash (.leaf path value)
    return ((index, hash, .leaf), p)
  | .internal path children, p => do
    let ((children', hashes), p) ← persistChildren block children p
    let id ← nodeIdForChildren children'.length
    let (pointers, childHashes) ← slots id children' hashes
    let hash ← internalNodeHash sha id pointers path childHashes
    let (index, p) ← p.write block hash (.internal path children')
    return ((index, hash, id), p)

def persistChildren (block : Nat) : List TrieChild → Persist →
    Except MarfError ((List TrieChild × List TrieHash) × Persist)
  | [], p => .ok (([], []), p)
  | ⟨_, some _, .memory _⟩ :: _, _ => .error .invalidBackPointer
  | ⟨character, none, .memory node⟩ :: children, p => do
    let ((index, hash, kind), p) ← persistNode block node p
    let ((rest, hashes), p) ← persistChildren block children p
    return ((⟨character, none, .stored block index kind⟩ :: rest, hash :: hashes), p)
  | ⟨character, some referenced, .stored owner index kind⟩ :: children, p => do
    let ((rest, hashes), p) ← persistChildren block children p
    return ((⟨character, some referenced, .stored owner index kind⟩ :: rest, referenced :: hashes), p)
  | ⟨character, none, .stored owner index kind⟩ :: children, p => do
    let hash ← p.storage.nodeHash owner index
    let ((rest, hashes), p) ← persistChildren block children p
    return ((⟨character, none, .stored owner index kind⟩ :: rest, hash :: hashes), p)
end

/-- Write every node a state owns, returning its root node and content hash. -/
def persistRoot (block : Nat) (rootChildren : List TrieChild) (p : Persist) :
    Except MarfError ((Nat × TrieHash) × Persist) := do
  let ((children, hashes), p) ← persistChildren sha block rootChildren p
  let (pointers, childHashes) ← slots .node256 children hashes
  let hash ← internalNodeHash sha .node256 pointers [] childHashes
  let (index, p) ← p.write block hash (.internal [] children)
  return ((index, hash), p)

end

end NanoStacks.Marf
