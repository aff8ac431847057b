import NanoStacks.Marf.Record
import NanoStacks.Lib.Table

/-!
# Trie storage

The two SQLite tables that hold sealed states (`marf_block`, `marf_node`) and the caches in front of
them. A cache is a partial map: what the source decides about generations and byte budgets shows here
only as the steps `evict` and `recall…`, which may drop entries and file what a read found at any
moment between two operations. The reads themselves leave the caches as they are.

`Coherent` says that every cache answers what the tables would. It makes `block`, `blockHash` and
`node` functions of the tables alone (`block_eq_some`, `blockHash_eq_ok`, `node_eq_ok`), which is the
only form later modules use.
-/

namespace NanoStacks.Marf

open Result List

/-- One sealed state, without the nodes it owns. -/
structure BlockRecord where
  id : Nat
  hash : MarfBlockId
  parent : Option Nat
  height : Nat
  root : TrieHash
  content : TrieHash
  /-- The index of this state's root node. -/
  node : Option Nat

/-- A row of `marf_block`: the record and the ancestors at distances 1, 2, 4, … -/
structure BlockRow extends BlockRecord where
  jumps : List MarfBlockId

/-- A row of `marf_node`. -/
structure NodeRow where
  hash : TrieHash
  data : List UInt8

structure TrieStorage where
  blockRows : List BlockRow
  /-- The last row id that was given out; rows deleted later do not free theirs. -/
  lastId : Nat
  nodeRows : Nat → Nat → Option NodeRow
  nodes : Nat → Nat → Option TrieNode
  nodeHashes : Nat → Nat → Option TrieHash
  blocks : MarfBlockId → Option BlockRecord
  /-- The arena of block hashes by row id. -/
  hashesById : Nat → Option MarfBlockId

namespace TrieStorage

/-- A new store. -/
def empty : TrieStorage where
  blockRows := []
  lastId := 0
  nodeRows := fun _ _ => none
  nodes := fun _ _ => none
  nodeHashes := fun _ _ => none
  blocks := fun _ => none
  hashesById := fun _ => none

variable (st : TrieStorage)

/-! ## Reads -/

def rowById (id : Nat) : Option BlockRow := st.blockRows.find? (·.id = id)

def rowByHash (hash : MarfBlockId) : Option BlockRow := st.blockRows.find? (·.hash = hash)

def block (hash : MarfBlockId) : Option BlockRecord :=
  match st.blocks hash with
  | some record => some record
  | none => (st.rowByHash hash).map (·.toBlockRecord)

def blockHash (id : Nat) : Except MarfError MarfBlockId :=
  if id = 0 then .error (missing "block 0")
  else match (st.hashesById id).filter (· ≠ Bytes.zero 32) with
    | some hash => .ok hash
    | none => okOr ((st.rowById id).map (·.hash)) (missing s!"block {id}")

def jumps (hash : MarfBlockId) : Except MarfError (List MarfBlockId) :=
  okOr ((st.rowByHash hash).map (·.jumps)) (missing "block")

def node (block index : Nat) : Except MarfError TrieNode :=
  match st.nodes block index with
  | some node => .ok node
  | none => do
    let row ← okOr (st.nodeRows block index) (missing s!"trie node {block}/{index}")
    decode st.blockHash block row.data

def nodeHash (block index : Nat) : Except MarfError TrieHash :=
  match st.nodeHashes block index with
  | some hash => .ok hash
  | none => do
    let row ← okOr (st.nodeRows block index) (missing s!"trie node {block}/{index}")
    return row.hash

/-! ## Writes -/

/-- Reserve a state's row before its nodes are written, so the nodes can carry its identifier. -/
def reserveBlock (hash : MarfBlockId) (parent : Option Nat) (height : Nat)
    (jumps : List MarfBlockId) : Except MarfError (Nat × TrieStorage) := do
  let id := st.lastId + 1
  ensure (id < 2 ^ 32) (.storage "block identifier overflowed")
  let row : BlockRow :=
    { id, hash, parent, height, root := Bytes.zero 32, content := Bytes.zero 32, node := none, jumps }
  return (id, { st with blockRows := st.blockRows ++ [row], lastId := id })

/-- Complete a reserved state once its nodes and root are known. -/
def completeBlock (hash : MarfBlockId) (id : Nat) (root content : TrieHash) (node : Option Nat) :
    TrieStorage :=
  { st with
    blockRows := st.blockRows.map fun row =>
      if row.id = id then { row with root, content, node } else row
    blocks := fun h => if h = hash then none else st.blocks h }

/-- `insert_node`: write a row, replacing the one that may be there. -/
def insertNode (block index : Nat) (hash : TrieHash) (node : TrieNode) :
    Except MarfError TrieStorage := do
  let data ← encode node
  return { st with
    nodeRows := fun b i => if b = block ∧ i = index then some ⟨hash, data⟩ else st.nodeRows b i }

/-- Cache a node the caller has just written. -/
def remember (block index : Nat) (node : TrieNode) : TrieStorage :=
  { st with nodes := fun b i => if b = block ∧ i = index then some node else st.nodes b i }

/-- Put one block's hash into the arena. -/
def rememberHash (id : Nat) (hash : MarfBlockId) : TrieStorage :=
  { st with hashesById := fun i => if i = id then some hash else st.hashesById i }

/-- Drop everything cached and fill the arena again from the table. -/
def forget : TrieStorage :=
  { st with
    nodes := fun _ _ => none
    nodeHashes := fun _ _ => none
    blocks := fun _ => none
    hashesById := fun id => (st.rowById id).map (·.hash) }

/-- Delete every sealed state above a height, and the trie nodes they own. -/
def discardAbove (height : Nat) : Nat × TrieStorage :=
  let above := st.blockRows.filter (height < ·.height)
  (above.length, forget { st with
    blockRows := st.blockRows.filter (·.height ≤ height)
    nodeRows := fun b i => if above.any (·.id = b) then none else st.nodeRows b i })

/-! ## What reading does to the caches -/

def recallNode (block index : Nat) : TrieStorage :=
  match st.node block index with
  | .ok node => st.remember block index node
  | .error _ => st

def recallNodeHash (block index : Nat) : TrieStorage :=
  match st.nodeHash block index with
  | .ok hash => { st with
      nodeHashes := fun b i => if b = block ∧ i = index then some hash else st.nodeHashes b i }
  | .error _ => st

def recallBlock (hash : MarfBlockId) : TrieStorage :=
  match st.block hash with
  | some record =>
    { st with blocks := fun h => if h = hash then some record else st.blocks h }.rememberHash
      record.id hash
  | none => st

def recallBlockHash (id : Nat) : TrieStorage :=
  match st.blockHash id with
  | .ok hash => st.rememberHash id hash
  | .error _ => st

/-- Drop the cached nodes, node hashes and block records that are not kept. The arena is never
evicted. -/
def evict (keepNode keepHash : Nat → Nat → Bool) (keepBlock : MarfBlockId → Bool) : TrieStorage :=
  { st with
    nodes := fun b i => if keepNode b i then st.nodes b i else none
    nodeHashes := fun b i => if keepHash b i then st.nodeHashes b i else none
    blocks := fun h => if keepBlock h then st.blocks h else none }

/-! ## Coherence -/

/-- The block table keeps its keys, and the arena answers what it holds. -/
structure Keyed : Prop where
  ids : (st.blockRows.map (·.id)).Nodup
  hashes : (st.blockRows.map (·.hash)).Nodup
  bounds : ∀ row ∈ st.blockRows, 0 < row.id ∧ row.id ≤ st.lastId ∧ row.id < 2 ^ 32
  arena : ∀ id hash, st.hashesById id = some hash →
    ∃ row ∈ st.blockRows, row.id = id ∧ row.hash = hash

/-- Every cache answers what the tables would. -/
structure Coherent : Prop extends st.Keyed where
  owners : ∀ b i, st.nodeRows b i ≠ none → ∃ row ∈ st.blockRows, row.id = b
  nodes : ∀ b i node, st.nodes b i = some node →
    ∃ row, st.nodeRows b i = some row ∧ decode st.blockHash b row.data = .ok node
  nodeHashes : ∀ b i hash, st.nodeHashes b i = some hash →
    ∃ row, st.nodeRows b i = some row ∧ row.hash = hash
  blocks : ∀ hash record, st.blocks hash = some record →
    ∃ row ∈ st.blockRows, row.hash = hash ∧ row.toBlockRecord = record

/-- `st'` still names every block `st` named, by the same hash. -/
def KeepsHashes (st st' : TrieStorage) : Prop :=
  ∀ id hash, st.blockHash id = .ok hash → st'.blockHash id = .ok hash

variable {st}

theorem empty_coherent : empty.Coherent := by
  refine ⟨⟨?_, ?_, ?_, ?_⟩, ?_, ?_, ?_, ?_⟩ <;> simp [empty]

namespace Keyed

section

variable (hst : st.Keyed)

include hst

theorem row_eq_of_id {a b : BlockRow} (ha : a ∈ st.blockRows) (hb : b ∈ st.blockRows)
    (h : a.id = b.id) : a = b :=
  inj_on_of_nodup_map hst.ids ha hb h

theorem row_eq_of_hash {a b : BlockRow} (ha : a ∈ st.blockRows) (hb : b ∈ st.blockRows)
    (h : a.hash = b.hash) : a = b :=
  inj_on_of_nodup_map hst.hashes ha hb h

variable {row : BlockRow}

theorem rowById_eq_some {id : Nat} : st.rowById id = some row ↔ row ∈ st.blockRows ∧ row.id = id :=
  find?_key_eq_some hst.ids

theorem rowByHash_eq_some {hash : MarfBlockId} :
    st.rowByHash hash = some row ↔ row ∈ st.blockRows ∧ row.hash = hash :=
  find?_key_eq_some hst.hashes

theorem blockHash_eq_ok {id : Nat} {hash : MarfBlockId} :
    st.blockHash id = .ok hash ↔ ∃ row ∈ st.blockRows, row.id = id ∧ row.hash = hash := by
  unfold blockHash
  split_ifs with hzero
  · subst hzero
    constructor
    · intro h; cases h
    · rintro ⟨row, hmem, hid, -⟩
      exact absurd (hst.bounds row hmem).1 (by omega)
  · cases harena : (st.hashesById id).filter (· ≠ Bytes.zero 32) with
    | none => simp only [okOr_eq_ok, Option.map_eq_some_iff, hst.rowById_eq_some, and_assoc]
    | some found =>
      obtain ⟨hfound, -⟩ := Option.filter_eq_some_iff.1 harena
      obtain ⟨row, hmem, hid, rfl⟩ := hst.arena id found hfound
      constructor
      · intro h
        cases h
        exact ⟨row, hmem, hid, rfl⟩
      · rintro ⟨row', hmem', hid', rfl⟩
        rw [hst.row_eq_of_id hmem hmem' (hid.trans hid'.symm)]

end

end Keyed

namespace Coherent

section

variable (hst : st.Coherent)

include hst

theorem block_eq_some {hash : MarfBlockId} {record : BlockRecord} :
    st.block hash = some record ↔
      ∃ row ∈ st.blockRows, row.hash = hash ∧ row.toBlockRecord = record := by
  unfold block
  cases hcache : st.blocks hash with
  | none => simp only [Option.map_eq_some_iff, hst.rowByHash_eq_some, and_assoc]
  | some cached =>
    obtain ⟨row, hmem, hhash, rfl⟩ := hst.blocks hash cached hcache
    constructor
    · intro h
      cases h
      exact ⟨row, hmem, hhash, rfl⟩
    · rintro ⟨row', hmem', hhash', rfl⟩
      rw [hst.row_eq_of_hash hmem hmem' (hhash.trans hhash'.symm)]

variable {b i : Nat} {node : TrieNode}

theorem node_eq_ok :
    st.node b i = .ok node ↔
      ∃ row, st.nodeRows b i = some row ∧ decode st.blockHash b row.data = .ok node := by
  unfold TrieStorage.node
  cases hcache : st.nodes b i with
  | none => simp [bind_eq_ok]
  | some cached =>
    obtain ⟨row, hrow, hdec⟩ := hst.nodes b i cached hcache
    simp [hrow, hdec]

theorem nodeHash_eq_ok {hash : TrieHash} :
    st.nodeHash b i = .ok hash ↔ ∃ row, st.nodeRows b i = some row ∧ row.hash = hash := by
  unfold TrieStorage.nodeHash
  cases hcache : st.nodeHashes b i with
  | none => simp [bind_eq_ok]
  | some cached =>
    obtain ⟨row, hrow, rfl⟩ := hst.nodeHashes b i cached hcache
    simp [hrow]

theorem owner_lt (h : st.nodeRows b i ≠ none) : b < 2 ^ 32 := by
  obtain ⟨row, hmem, rfl⟩ := hst.owners b i h
  exact (hst.bounds row hmem).2.2

variable {st' : TrieStorage}

theorem decode_keeps (hkeep : KeepsHashes st st') {row : NodeRow}
    (hrow : st.nodeRows b i = some row) (hdec : decode st.blockHash b row.data = .ok node) :
    decode st'.blockHash b row.data = .ok node :=
  decode_mono (hst.owner_lt (i := i) (by simp [hrow])) hdec hkeep

/-- Every node the storage hands out has the shape of a record of its block. -/
theorem node_filed (h : st.node b i = .ok node) : node.Filed st.blockHash b := by
  obtain ⟨row, hrow, hdec⟩ := hst.node_eq_ok.1 h
  exact decode_filed (hst.owner_lt (i := i) (by simp [hrow])) hdec

end

end Coherent

/-! ## Every write keeps the store coherent -/

theorem Keyed.keepsHashes {st' : TrieStorage} (hst : st.Keyed) (hst' : st'.Keyed)
    (h : ∀ row ∈ st.blockRows, ∃ row' ∈ st'.blockRows, row'.id = row.id ∧ row'.hash = row.hash) :
    KeepsHashes st st' := by
  intro id hash hid
  obtain ⟨row, hmem, rfl, rfl⟩ := hst.blockHash_eq_ok.1 hid
  obtain ⟨row', hmem', hid', hhash'⟩ := h row hmem
  exact hst'.blockHash_eq_ok.2 ⟨row', hmem', hid', hhash'⟩

theorem Coherent.node_mono {st' : TrieStorage} {b i : Nat} (hst : st.Coherent) (hst' : st'.Coherent)
    {node : TrieNode} (hrow : st'.nodeRows b i = st.nodeRows b i) (hkeep : KeepsHashes st st')
    (h : st.node b i = .ok node) : st'.node b i = .ok node := by
  obtain ⟨row, hfound, hdec⟩ := hst.node_eq_ok.1 h
  exact hst'.node_eq_ok.2 ⟨row, hrow.trans hfound, hst.decode_keeps hkeep hfound hdec⟩

theorem reserveBlock_coherent {st' : TrieStorage} (hst : st.Coherent) {hash : MarfBlockId}
    {parent : Option Nat} {height id : Nat} {jumps : List MarfBlockId}
    (h : st.reserveBlock hash parent height jumps = .ok (id, st'))
    (hnew : ∀ row ∈ st.blockRows, row.hash ≠ hash) :
    st'.Coherent ∧ KeepsHashes st st' ∧ id = st.lastId + 1 ∧ st'.lastId = id ∧
      st'.nodeRows = st.nodeRows ∧
      ∃ row : BlockRow, st'.blockRows = st.blockRows ++ [row] ∧ row.id = id ∧ row.hash = hash ∧
        row.height = height ∧ row.parent = parent ∧ row.jumps = jumps := by
  simp only [reserveBlock, bind_eq_ok, ensure_eq_ok] at h
  obtain ⟨-, hid, ⟨⟩⟩ := h
  have hkeyed : TrieStorage.Keyed { st with
      blockRows := st.blockRows ++ [⟨⟨st.lastId + 1, hash, parent, height, Bytes.zero 32,
        Bytes.zero 32, none⟩, jumps⟩], lastId := st.lastId + 1 } := by
    refine ⟨?_, ?_, ?_, ?_⟩
    · rw [map_append]
      refine hst.ids.append (nodup_singleton _) (disjoint_singleton.2 fun hmem => ?_)
      obtain ⟨row, hrow, hsame⟩ := mem_map.1 hmem
      exact Nat.not_succ_le_self _ (hsame ▸ (hst.bounds row hrow).2.1)
    · rw [map_append]
      refine hst.hashes.append (nodup_singleton _) (disjoint_singleton.2 fun hmem => ?_)
      obtain ⟨row, hrow, hhash⟩ := mem_map.1 hmem
      exact hnew row hrow hhash
    · intro row hrow
      rcases mem_append.1 hrow with hrow | hrow
      · have := hst.bounds row hrow
        exact ⟨this.1, this.2.1.trans (Nat.le_succ _), this.2.2⟩
      · rw [mem_singleton.1 hrow]
        exact ⟨Nat.succ_pos _, Nat.le_refl _, hid⟩
    · intro i hash' hi
      obtain ⟨row, hrow, hid', hhash'⟩ := hst.arena i hash' hi
      exact ⟨row, mem_append_left _ hrow, hid', hhash'⟩
  have hkeep := hst.toKeyed.keepsHashes hkeyed
    (fun row hrow => ⟨row, mem_append_left _ hrow, rfl, rfl⟩)
  refine ⟨⟨hkeyed, ?_, ?_, hst.nodeHashes, ?_⟩, hkeep, rfl, rfl, rfl, _, rfl, rfl, rfl,
    rfl, rfl, rfl⟩
  · intro b i hrow
    obtain ⟨row, hmem, hb⟩ := hst.owners b i hrow
    exact ⟨row, mem_append_left _ hmem, hb⟩
  · intro b i node hnode
    obtain ⟨row, hrow, hdec⟩ := hst.nodes b i node hnode
    exact ⟨row, hrow, hst.decode_keeps hkeep hrow hdec⟩
  · intro h record hcache
    obtain ⟨row, hrow, hhash, hrecord⟩ := hst.blocks h record hcache
    exact ⟨row, mem_append_left _ hrow, hhash, hrecord⟩

theorem insertNode_coherent {st' : TrieStorage} {b i : Nat} (hst : st.Coherent) {hash : TrieHash}
    {node : TrieNode} (h : st.insertNode b i hash node = .ok st') (hfree : st.nodeRows b i = none)
    (hfiled : node.Filed st.blockHash b) (hrow : ∃ row ∈ st.blockRows, row.id = b) :
    (st'.remember b i node).Coherent ∧ (st'.remember b i node).node b i = .ok node := by
  simp only [insertNode, bind_eq_ok] at h
  obtain ⟨data, hdata, ⟨⟩⟩ := h
  have hdec : decode st.blockHash b data = .ok node := decode_encode_filed hfiled hdata
  have hother : ∀ {b' i' : Nat} {row : NodeRow}, st.nodeRows b' i' = some row →
      ¬(b' = b ∧ i' = i) := by
    rintro b' i' row hfound ⟨rfl, rfl⟩
    simp [hfree] at hfound
  constructor
  · refine ⟨⟨hst.ids, hst.hashes, hst.bounds, hst.arena⟩, ?_, ?_, ?_, hst.blocks⟩
    · intro b' i' hrow'
      by_cases heq : b' = b ∧ i' = i
      · rw [heq.1]
        exact hrow
      · exact hst.owners b' i' (by simpa [remember, heq] using hrow')
    · intro b' i' node' hnode'
      by_cases heq : b' = b ∧ i' = i
      · obtain ⟨rfl, rfl⟩ := heq
        simp only [remember, and_self, if_true, Option.some.injEq] at hnode'
        subst hnode'
        exact ⟨⟨hash, data⟩, by simp [remember], hdec⟩
      · simp only [remember, heq, if_false] at hnode'
        obtain ⟨row, hrow', hdec'⟩ := hst.nodes b' i' node' hnode'
        exact ⟨row, by simpa [remember, heq] using hrow', hdec'⟩
    · intro b' i' hash' hhash'
      obtain ⟨row, hrow', hhash''⟩ := hst.nodeHashes b' i' hash' hhash'
      exact ⟨row, by simpa [remember, hother hrow'] using hrow', hhash''⟩
  · simp [remember, TrieStorage.node]

theorem completeBlock_coherent (hst : st.Coherent) (hash : MarfBlockId) (id : Nat)
    (root content : TrieHash) (node : Option Nat)
    (hrow : ∀ row ∈ st.blockRows, row.id = id → row.hash = hash) :
    (st.completeBlock hash id root content node).Coherent ∧
      KeepsHashes st (st.completeBlock hash id root content node) := by
  set f : BlockRow → BlockRow := fun row =>
    if row.id = id then { row with root, content, node } else row with hf
  have hfid : ∀ row, (f row).id = row.id := by
    intro row; simp only [hf]; split_ifs <;> rfl
  have hfhash : ∀ row, (f row).hash = row.hash := by
    intro row; simp only [hf]; split_ifs <;> rfl
  have hmem : ∀ row ∈ st.blockRows, f row ∈ (st.completeBlock hash id root content node).blockRows :=
    fun row hrow => mem_map_of_mem hrow
  have hkeyed : (st.completeBlock hash id root content node).Keyed := by
    refine ⟨?_, ?_, ?_, ?_⟩
    · show ((st.blockRows.map f).map (·.id)).Nodup
      simpa only [map_map, Function.comp_def, hfid] using hst.ids
    · show ((st.blockRows.map f).map (·.hash)).Nodup
      simpa only [map_map, Function.comp_def, hfhash] using hst.hashes
    · intro row hrow'
      obtain ⟨old, hold, hrow''⟩ := mem_map.1 hrow'
      have hid' : row.id = old.id := hrow'' ▸ hfid old
      rw [hid']
      exact hst.bounds old hold
    · intro i h harena
      obtain ⟨row, hrow', hid', hhash'⟩ := hst.arena i h harena
      exact ⟨f row, hmem row hrow', (hfid row).trans hid', (hfhash row).trans hhash'⟩
  have hkeep : KeepsHashes st (st.completeBlock hash id root content node) :=
    hst.toKeyed.keepsHashes hkeyed (fun row hrow' => ⟨f row, hmem row hrow', hfid row, hfhash row⟩)
  refine ⟨⟨hkeyed, ?_, ?_, hst.nodeHashes, ?_⟩, hkeep⟩
  · intro b i hrow'
    obtain ⟨row, hrow'', hb⟩ := hst.owners b i hrow'
    exact ⟨f row, hmem row hrow'', (hfid row).trans hb⟩
  · intro b i node' hnode'
    obtain ⟨row, hrow', hdec⟩ := hst.nodes b i node' hnode'
    exact ⟨row, hrow', hst.decode_keeps hkeep hrow' hdec⟩
  · intro h record hcache
    -- The completed row's own entry was removed; every other row is as it was.
    simp only [completeBlock] at hcache
    split_ifs at hcache with hne
    obtain ⟨row, hrow', hhash', hrecord⟩ := hst.blocks h record hcache
    have hid' : row.id ≠ id := fun hid' => hne (hhash'.symm.trans (hrow row hrow' hid'))
    refine ⟨f row, hmem row hrow', (hfhash row).trans hhash', ?_⟩
    simp only [hf, if_neg hid']
    exact hrecord

/-! ## Steps that touch only the caches -/

/-- `st'` holds the rows of `st`. -/
def SameTables (st st' : TrieStorage) : Prop :=
  st'.blockRows = st.blockRows ∧ st'.lastId = st.lastId ∧ st'.nodeRows = st.nodeRows

section

variable (hst : st.Coherent)

include hst

/-- Caches that only answer what reading `st` answers are coherent. -/
theorem Coherent.of_sameTables {st' : TrieStorage} (h : SameTables st st')
    (harena : ∀ id hash, st'.hashesById id = some hash → st.blockHash id = .ok hash)
    (hnodes : ∀ b i node, st'.nodes b i = some node → st.node b i = .ok node)
    (hhashes : ∀ b i hash, st'.nodeHashes b i = some hash → st.nodeHash b i = .ok hash)
    (hblocks : ∀ hash record, st'.blocks hash = some record → st.block hash = some record) :
    st'.Coherent := by
  obtain ⟨hrows, hlast, hnodeRows⟩ := h
  have hkeyed : st'.Keyed := by
    refine ⟨hrows ▸ hst.ids, hrows ▸ hst.hashes, ?_, ?_⟩
    · rw [hrows, hlast]
      exact hst.bounds
    · intro id hash hid
      rw [hrows]
      exact hst.blockHash_eq_ok.1 (harena id hash hid)
  have hkeep : KeepsHashes st st' := hst.toKeyed.keepsHashes hkeyed
    (fun row hrow => ⟨row, hrows ▸ hrow, rfl, rfl⟩)
  refine ⟨hkeyed, ?_, ?_, ?_, ?_⟩
  · rw [hrows, hnodeRows]
    exact hst.owners
  · intro b i node hnode
    obtain ⟨row, hrow, hdec⟩ := hst.node_eq_ok.1 (hnodes b i node hnode)
    exact ⟨row, hnodeRows ▸ hrow, hst.decode_keeps hkeep hrow hdec⟩
  · intro b i hash hhash
    rw [hnodeRows]
    exact hst.nodeHash_eq_ok.1 (hhashes b i hash hhash)
  · intro hash record hrecord
    rw [hrows]
    exact hst.block_eq_some.1 (hblocks hash record hrecord)

variable {hash : MarfBlockId}

theorem blockHash_of_arena {id : Nat} (h : st.hashesById id = some hash) :
    st.blockHash id = .ok hash :=
  hst.blockHash_eq_ok.2 (hst.arena id hash h)

omit hst in
theorem node_of_cache {b i : Nat} {node : TrieNode} (h : st.nodes b i = some node) :
    st.node b i = .ok node := by
  simp [TrieStorage.node, h]

omit hst in
theorem nodeHash_of_cache {b i : Nat} {hash : TrieHash} (h : st.nodeHashes b i = some hash) :
    st.nodeHash b i = .ok hash := by
  simp [TrieStorage.nodeHash, h]

omit hst in
theorem block_of_cache {record : BlockRecord} (h : st.blocks hash = some record) :
    st.block hash = some record := by
  simp [block, h]

theorem forget_coherent : st.forget.Coherent := by
  refine hst.of_sameTables ⟨rfl, rfl, rfl⟩ ?_ ?_ ?_ ?_
  · intro id hash h
    obtain ⟨row, hrow, rfl⟩ := Option.map_eq_some_iff.1 h
    obtain ⟨hmem, hid⟩ := hst.rowById_eq_some.1 hrow
    exact hst.blockHash_eq_ok.2 ⟨row, hmem, hid, rfl⟩
  · intro b i node h; cases h
  · intro b i hash h; cases h
  · intro hash record h; cases h

theorem evict_coherent (keepNode keepHash : Nat → Nat → Bool) (keepBlock : MarfBlockId → Bool) :
    (st.evict keepNode keepHash keepBlock).Coherent := by
  refine hst.of_sameTables ⟨rfl, rfl, rfl⟩ (fun id hash => blockHash_of_arena hst) ?_ ?_ ?_
  · intro b i node h
    simp only [evict] at h
    split_ifs at h
    exact node_of_cache h
  · intro b i hash h
    simp only [evict] at h
    split_ifs at h
    exact nodeHash_of_cache h
  · intro hash record h
    simp only [evict] at h
    split_ifs at h
    exact block_of_cache h

theorem recallNode_coherent (b i : Nat) : (st.recallNode b i).Coherent := by
  unfold recallNode
  split
  case h_2 => exact hst
  case h_1 node hnode =>
    refine hst.of_sameTables ⟨rfl, rfl, rfl⟩ (fun id hash => blockHash_of_arena hst) ?_
      (fun b i hash => nodeHash_of_cache) (fun hash record => block_of_cache)
    intro b' i' node' h
    simp only [remember] at h
    split_ifs at h with heq
    · cases h
      rw [heq.1, heq.2]
      exact hnode
    · exact node_of_cache h

theorem recallNodeHash_coherent (b i : Nat) : (st.recallNodeHash b i).Coherent := by
  unfold recallNodeHash
  split
  case h_2 => exact hst
  case h_1 hash hhash =>
    refine hst.of_sameTables ⟨rfl, rfl, rfl⟩ (fun id hash => blockHash_of_arena hst)
      (fun b i node => node_of_cache) ?_ (fun hash record => block_of_cache)
    intro b' i' hash' h
    simp only at h
    split_ifs at h with heq
    · cases h
      rw [heq.1, heq.2]
      exact hhash
    · exact nodeHash_of_cache h

theorem rememberHash_coherent {id : Nat} (h : st.blockHash id = .ok hash) :
    (st.rememberHash id hash).Coherent := by
  refine hst.of_sameTables ⟨rfl, rfl, rfl⟩ ?_ (fun b i node h => @node_of_cache st b i node h)
    (fun b i hash h => @nodeHash_of_cache st b i hash h)
    (fun hash record h => @block_of_cache st hash record h)
  intro id' hash' h'
  simp only [rememberHash] at h'
  split_ifs at h' with heq
  · cases h'
    exact heq ▸ h
  · exact blockHash_of_arena hst h'

theorem recallBlockHash_coherent (id : Nat) : (st.recallBlockHash id).Coherent := by
  unfold recallBlockHash
  split
  case h_2 => exact hst
  case h_1 hash hhash => exact rememberHash_coherent hst hhash

theorem recallBlock_coherent (hash : MarfBlockId) : (st.recallBlock hash).Coherent := by
  unfold recallBlock
  split
  case h_2 => exact hst
  case h_1 record hrecord =>
    obtain ⟨row, hmem, rfl, rfl⟩ := hst.block_eq_some.1 hrecord
    have hcached : TrieStorage.Coherent { st with
        blocks := fun h => if h = row.hash then some row.toBlockRecord else st.blocks h } := by
      refine hst.of_sameTables ⟨rfl, rfl, rfl⟩ (fun id hash => blockHash_of_arena hst)
        (fun b i node => node_of_cache) (fun b i hash => nodeHash_of_cache) ?_
      intro hash' record' h
      simp only at h
      split_ifs at h with heq
      · cases h
        exact heq ▸ hrecord
      · exact block_of_cache h
    exact rememberHash_coherent hcached (hcached.blockHash_eq_ok.2 ⟨row, hmem, rfl, rfl⟩)

/-! The reads that fill a cache leave the tables as they are. -/

end

theorem recallNode_sameTables (b i : Nat) : SameTables st (st.recallNode b i) := by
  unfold recallNode
  split <;> exact ⟨rfl, rfl, rfl⟩

theorem recallNodeHash_sameTables (b i : Nat) : SameTables st (st.recallNodeHash b i) := by
  unfold recallNodeHash
  split <;> exact ⟨rfl, rfl, rfl⟩

theorem recallBlock_sameTables (hash : MarfBlockId) : SameTables st (st.recallBlock hash) := by
  unfold recallBlock
  split <;> exact ⟨rfl, rfl, rfl⟩

theorem recallBlockHash_sameTables (id : Nat) : SameTables st (st.recallBlockHash id) := by
  unfold recallBlockHash
  split <;> exact ⟨rfl, rfl, rfl⟩

/-! ## Discarding -/

theorem discardAbove_coherent (hst : st.Coherent) (height : Nat) :
    (st.discardAbove height).2.Coherent := by
  set kept : TrieStorage := { st with
    blockRows := st.blockRows.filter (·.height ≤ height)
    nodeRows := fun b i =>
      if (st.blockRows.filter (height < ·.height)).any (·.id = b) then none else st.nodeRows b i
    nodes := fun _ _ => none
    nodeHashes := fun _ _ => none
    blocks := fun _ => none
    hashesById := fun _ => none } with hkept
  have hsub : kept.blockRows.Sublist st.blockRows := filter_sublist
  have hcoh : kept.Coherent := by
    refine ⟨⟨hst.ids.sublist (hsub.map _), hst.hashes.sublist (hsub.map _),
      fun row hrow => hst.bounds row (hsub.subset hrow), by simp [hkept]⟩,
      ?_, by simp [hkept], by simp [hkept], by simp [hkept]⟩
    intro b i hrow
    have habove : ¬(st.blockRows.filter (height < ·.height)).any (·.id = b) = true := by
      intro h
      exact hrow (by simp only [hkept, if_pos h])
    obtain ⟨row, hmem, rfl⟩ := hst.owners b i (by simpa only [hkept, if_neg habove] using hrow)
    refine ⟨row, mem_filter.2 ⟨hmem, ?_⟩, rfl⟩
    simp only [decide_eq_true_eq]
    by_contra hlow
    exact habove (any_eq_true.2 ⟨row, mem_filter.2 ⟨hmem, by simpa using hlow⟩, by simp⟩)
  have hdiscard : (st.discardAbove height).2 = kept.forget := rfl
  exact hdiscard ▸ forget_coherent hcoh

theorem discardAbove_nodeRows {row : BlockRow} (hst : st.Coherent) {height : Nat}
    (hrow : row ∈ st.blockRows) (hlow : row.height ≤ height) (i : Nat) :
    (st.discardAbove height).2.nodeRows row.id i = st.nodeRows row.id i := by
  have habove : ¬(st.blockRows.filter (height < ·.height)).any (·.id = row.id) = true := by
    intro h
    obtain ⟨other, hother, hid⟩ := any_eq_true.1 h
    obtain ⟨hmem, hhigh⟩ := mem_filter.1 hother
    rw [hst.row_eq_of_id hmem hrow (by simpa using hid)] at hhigh
    simp only [decide_eq_true_eq] at hhigh
    omega
  simp only [discardAbove, forget, if_neg habove]

@[simp] theorem discardAbove_blockRows (height : Nat) :
    (st.discardAbove height).2.blockRows = st.blockRows.filter (·.height ≤ height) := rfl

end TrieStorage

end NanoStacks.Marf
