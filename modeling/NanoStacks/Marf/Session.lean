import NanoStacks.Lib.Runs
import NanoStacks.Lib.Versions
import NanoStacks.Marf.Persist
import NanoStacks.Marf.Versioned

/-!
# Sessions with a versioned MARF

A session drives a `VersionedMarf` through any list of operations and keeps a record of what was
asked: for the state being written the parent and the block id it was begun with, its height and the
writes made so far, for each sealed state the same at the moment it was sealed, and the snapshots
taken since the state being written was begun together with the writes made until then. What is
recorded comes from the operations and from the record itself, and from the store only whether an
operation succeeded. The record never influences the store. It is what the law of the next module is
stated against.

A snapshot can be put back only while the version it was taken in is still the one being written;
ending that version drops the snapshots. Between operations caches may be filled by reads and
evicted, which are operations here too.
-/

namespace NanoStacks.Marf

open Versions

abbrev Write := TriePath × MarfValue

/-- What has been asked of a state: its parent and writes, the block id it was begun with, and its
height. -/
structure MarfDraft extends Draft MarfBlockId TriePath MarfValue where
  block : MarfBlockId
  height : Nat

inductive MarfOp
  | begin (parent : Option MarfBlockId) (block : MarfBlockId)
  | insertPath (path : TriePath) (value : MarfValue)
  | snapshot
  /-- Put back the snapshot with the given number, the last one taken being number 0. -/
  | restore (number : Nat)
  | abort
  | sealVersion
  | sealTo (block : MarfBlockId)
  | discardAbove (height : Nat)
  | recallNode (block index : Nat)
  | recallNodeHash (block index : Nat)
  | recallBlock (hash : MarfBlockId)
  | recallBlockHash (id : Nat)
  | evict (keepNode keepHash : Nat → Nat → Bool) (keepBlock : MarfBlockId → Bool)

structure Session where
  marf : VersionedMarf
  /-- What has been asked of the state being written. -/
  draft : Option MarfDraft
  /-- The snapshots of the state being written, newest first, with the writes made until each. -/
  held : List (MarfSnapshot × List Write)
  /-- What had been asked of each sealed state that has not been discarded. -/
  book : MarfBlockId → Option MarfDraft

namespace Session

variable (sha : Digest)

def start (path : Option String) : Session := ⟨.empty path, none, [], fun _ => none⟩

/-- The record of a state that has just been begun: it stands one above the record of its parent,
and `begin` has written its metadata. -/
def begun (s : Session) (parent : Option MarfBlockId) (block : MarfBlockId) : MarfDraft :=
  let height := (parent.bind s.book).elim 0 (·.height + 1)
  ⟨⟨parent, metadata sha parent block height⟩, block, height⟩

/-- Record the outcome of a sealing under a block id. -/
def sealedAs (s : Session) (block : MarfBlockId) :
    Except MarfError TrieHash × VersionedMarf → Session
  | (.ok _, marf) =>
    ⟨marf, none, [], fun b => if b = block then s.draft else s.book b⟩
  | (.error _, marf) => { s with marf }

def withStorage (s : Session) (storage : TrieStorage) : Session :=
  { s with marf := { s.marf with storage } }

/-- One operation; an operation that fails leaves the record as it was. -/
def step (s : Session) : MarfOp → Session
  | .begin parent block =>
    match s.marf.begin sha parent block with
    | .ok marf => ⟨marf, some (s.begun sha parent block), [], s.book⟩
    | .error _ => s
  | .insertPath path value =>
    match s.marf.insertPath path value with
    | .ok marf =>
      { s with marf, draft := s.draft.map fun d => { d with writes := d.writes ++ [(path, value)] } }
    | .error _ => s
  | .snapshot =>
    match s.draft with
    | some d => { s with held := (s.marf.snapshot, d.writes) :: s.held }
    | none => s
  | .restore number =>
    match s.held[number]? with
    | some (snapshot, writes) =>
      { s with marf := s.marf.restore snapshot, draft := s.draft.map fun d => { d with writes } }
    | none => s
  | .abort =>
    match s.marf.abort with
    | .ok marf => ⟨marf, none, [], s.book⟩
    | .error _ => s
  | .sealVersion =>
    match s.draft with
    | some d => s.sealedAs d.block (s.marf.sealVersion sha)
    | none => s
  | .sealTo block => s.sealedAs block (s.marf.sealTo sha block)
  | .discardAbove height =>
    match s.marf.discardAbove height with
    | .ok (_, marf) =>
      { s with marf, book := fun b => (s.book b).filter (·.height ≤ height) }
    | .error _ => s
  | .recallNode block index => s.withStorage (s.marf.storage.recallNode block index)
  | .recallNodeHash block index => s.withStorage (s.marf.storage.recallNodeHash block index)
  | .recallBlock hash => s.withStorage (s.marf.storage.recallBlock hash)
  | .recallBlockHash id => s.withStorage (s.marf.storage.recallBlockHash id)
  | .evict keepNode keepHash keepBlock =>
    s.withStorage (s.marf.storage.evict keepNode keepHash keepBlock)

/-- The session after a list of operations on a new store. -/
def after (path : Option String) (ops : List MarfOp) : Session :=
  Runs.run (step sha) (start path) ops

end Session

end NanoStacks.Marf
