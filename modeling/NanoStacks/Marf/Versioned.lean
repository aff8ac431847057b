import NanoStacks.Marf.Trie

/-!
# The versioned MARF

`VersionedMarf`: sealed states in storage, and at most one state being written. Each operation
returns what the source returns together with the store it leaves behind; a sealing that fails rolls
its transaction back and forgets the caches, everything else that fails changes nothing.
-/

namespace NanoStacks.Marf

open Result

structure ActiveVersion where
  block : MarfBlockId
  parent : Option MarfBlockId
  height : Nat
  rootChildren : List TrieChild

/-- The unsealed state, kept so a failed transaction can put it back. -/
structure MarfSnapshot where
  active : Option ActiveVersion

structure VersionedMarf where
  storage : TrieStorage
  active : Option ActiveVersion
  /-- The file the store is held in, for messages. -/
  path : Option String

/-! ## Height keys -/

def blockHashToHeightKey : String := "__MARF_BLOCK_HASH_TO_HEIGHT"
def blockHeightToHashKey : String := "__MARF_BLOCK_HEIGHT_TO_HASH"
def ownBlockHeightKey : String := "__MARF_BLOCK_HEIGHT_SELF"

/-- The MARF's own height keys for a state, in the order `begin` writes them. -/
def heightKeys (parent : Option MarfBlockId) (block : MarfBlockId) (height : Nat) :
    List (String × MarfValue) :=
  [(ownBlockHeightKey, .fromU32 height),
    (s!"{blockHeightToHashKey}::{height}", .fromBlockId block),
    (s!"{blockHashToHeightKey}::{block.hex}", .fromU32 height)] ++
  match parent with
  | none => []
  | some parent =>
    [(s!"{blockHeightToHashKey}::{height - 1}", .fromBlockId parent),
      (s!"{blockHashToHeightKey}::{parent.hex}", .fromU32 (height - 1))]

/-- The paths and values `begin` writes for a state. -/
def metadata (sha : Digest) (parent : Option MarfBlockId) (block : MarfBlockId) (height : Nat) :
    List (TriePath × MarfValue) :=
  (heightKeys parent block height).map fun (key, value) =>
    (keyPath sha key.toUTF8.toList, value)

/-- Write a list of paths under a root, one after another. -/
def insertAll (st : TrieStorage) (rootChildren : List TrieChild) :
    List (TriePath × MarfValue) → Except MarfError (List TrieChild)
  | [] => .ok rootChildren
  | (path, value) :: rest => do
    let rootChildren ← insertUnderRoot st rootChildren path value
    insertAll st rootChildren rest

def insertMetadata (sha : Digest) (st : TrieStorage) (rootChildren : List TrieChild)
    (parent : Option MarfBlockId) (block : MarfBlockId) (height : Nat) :
    Except MarfError (List TrieChild) :=
  insertAll st rootChildren (metadata sha parent block height)

namespace VersionedMarf

variable (sha : Digest) (m : VersionedMarf)

/-- A new store with nothing in it. -/
def empty (path : Option String) : VersionedMarf := ⟨.empty, none, path⟩

/-! ## The state being written -/

def snapshot : MarfSnapshot := ⟨m.active⟩

def restore (snapshot : MarfSnapshot) : VersionedMarf := { m with active := snapshot.active }

/-- The root children and the height a new state starts from. -/
def inherit (parent : Option MarfBlockId) : Except MarfError (List TrieChild × Nat) :=
  match parent with
  | none => .ok ([], 0)
  | some parent => do
    let record ← okOr (m.storage.block parent) .unknownVersion
    let rootChildren ← extendRoot m.storage record
    ensure (record.height + 1 < 2 ^ 32) .heightOverflow
    return (rootChildren, record.height + 1)

/-- Start a new state from an existing parent, or from an empty genesis state. -/
def begin (parent : Option MarfBlockId) (block : MarfBlockId) : Except MarfError VersionedMarf := do
  ensure (m.active.isNone) .writeInProgress
  ensure ((m.storage.block block).isNone) .versionAlreadyExists
  let (rootChildren, height) ← m.inherit parent
  let rootChildren ← insertMetadata sha m.storage rootChildren parent block height
  return { m with active := some ⟨block, parent, height, rootChildren⟩ }

/-- Write a raw path into the active state. -/
def insertPath (path : TriePath) (value : MarfValue) : Except MarfError VersionedMarf := do
  let active ← okOr m.active .writeNotBegun
  let rootChildren ← insertUnderRoot m.storage active.rootChildren path value
  return { m with active := some { active with rootChildren } }

/-- Discard the unsealed state currently being written. -/
def abort : Except MarfError VersionedMarf := do
  let _ ← okOr m.active .writeNotBegun
  return { m with active := none }

/-! ## Sealing -/

/-- Lengthen a jump table: entry `step` is the ancestor `2 ^ (step - 1)` back from entry
`step - 1`. The shift the source makes bounds the number of steps by 64. -/
def jumpsFrom (st : TrieStorage) (height : Nat) : Nat → Nat → MarfBlockId → List MarfBlockId →
    Except MarfError (List MarfBlockId)
  | 0, _, _, _ => .error (.abort "shift overflow")
  | fuel + 1, step, previous, jumps =>
    if 2 ^ step ≤ height then do
      let older ← st.jumps previous
      let ancestor ← okOr older[step - 1]? .unknownVersion
      jumpsFrom st height fuel (step + 1) ancestor (jumps ++ [ancestor])
    else .ok jumps

/-- The ancestors at back-distances 1, 2, 4, … from a state about to be sealed. -/
def jumps (parent : Option MarfBlockId) (height : Nat) : Except MarfError (List MarfBlockId) :=
  match parent with
  | none => .ok []
  | some parent => jumpsFrom m.storage height 64 1 parent [parent]

def ancestorRootsFor (jumps : List MarfBlockId) : Except MarfError (List TrieHash) :=
  jumps.mapM fun block => okOr ((m.storage.block block).map (·.root)) .unknownVersion

/-- The transaction of a sealing: the new root, and the storage once it is committed. -/
def writeSealed (block : MarfBlockId) (active : ActiveVersion) :
    Except MarfError (TrieHash × TrieStorage) := do
  let parent := active.parent.bind fun parent => (m.storage.block parent).map (·.id)
  let jumps ← m.jumps active.parent active.height
  let ancestorRoots ← m.ancestorRootsFor jumps
  let (id, storage) ← m.storage.reserveBlock block parent active.height jumps
  let ((node, content), p) ← persistRoot sha id active.rootChildren ⟨storage, 0⟩
  let root := stateRoot sha content ancestorRoots
  return (root, p.storage.completeBlock block id root content (some node))

/-- Seal the active state while registering it under its committed block id. -/
def sealTo (block : MarfBlockId) : Except MarfError TrieHash × VersionedMarf :=
  if (m.storage.block block).isSome then (.error .versionAlreadyExists, m)
  else match m.active with
    | none => (.error .writeNotBegun, m)
    | some active =>
      match m.writeSealed sha block active with
      | .ok (root, storage) => (.ok root, { m with storage, active := none })
      -- The transaction is rolled back, and nothing cached may outlive it.
      | .error error => (.error error, { m with storage := m.storage.forget })

/-- `seal`: seal the active state under the id it was begun with. -/
def sealVersion : Except MarfError TrieHash × VersionedMarf :=
  match m.active with
  | none => (.error .writeNotBegun, m)
  | some active => m.sealTo sha active.block

/-- Give back every sealed state above a height. -/
def discardAbove (height : Nat) : Except MarfError (Nat × VersionedMarf) := do
  ensure (m.active.isNone) .writeInProgress
  let (removed, storage) := m.storage.discardAbove height
  return (removed, { m with storage })

/-! ## Reads -/

/-- Name the file and the block in a storage error. -/
def readError (block : Option MarfBlockId) (error : MarfError) : MarfError :=
  match error with
  | .storage reason =>
    let path := m.path.getD "in-memory MARF"
    let block := (block.map fun block => "block " ++ block.hex).getD "unknown block"
    .storage s!"{path}, {block}: {reason}"
  | error => error

def sealedRoot (block : MarfBlockId) : Except MarfError (Option TrieNode) :=
  match (m.storage.block block).bind fun record => record.node.map fun index => (record.id, index) with
  | none => .ok none
  | some (id, index) => some <$> m.storage.node id index

/-- Read a raw path from a sealed state. -/
def getPath (block : MarfBlockId) (path : TriePath) : Except MarfError (Option MarfValue) :=
  Except.mapError (m.readError (some block)) do
    match ← m.sealedRoot block with
    | none => return none
    | some root => root.lookup m.storage path.toList

/-- Read a raw path from the state being written. -/
def getActivePath (path : TriePath) : Except MarfError (Option MarfValue) :=
  match m.active with
  | none => .ok none
  | some active =>
    Except.mapError (m.readError (some active.block)) (findPath m.storage active.rootChildren path)

/-- Whether a sealed state exists. -/
def contains (block : MarfBlockId) : Bool := (m.storage.block block).isSome

def height (block : MarfBlockId) : Option Nat := (m.storage.block block).map (·.height)

end VersionedMarf

end NanoStacks.Marf
