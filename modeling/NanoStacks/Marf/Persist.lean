import NanoStacks.Marf.Insert
import Mathlib.Data.List.Forall2

/-!
# Persisting a state keeps what it reads

Sealing writes the nodes held in memory, children first, under the block's own row id and replaces
each by a pointer to its row. `persistRoot_spec` says that the stored root reads every path as the
root in memory did, and that nothing filed before is touched.

The argument needs nodes to keep their meaning while the store grows. `Keeps own st st'` says that
`st'` holds the same rows under the pairs in `own` and names their blocks by the same hashes; a
well-formed node then stays well formed and reads the same (`Wf.transport`).
-/

namespace NanoStacks.Marf

open Result

variable {st st' : TrieStorage} {own : Nat → Nat → Prop}

/-! ## Nodes in a growing store -/

variable {child : TrieChild} {own' : Nat → Nat → Prop}

theorem TrieChild.Within.mono (h : child.Within own) (hmono : ∀ b i, own b i → own' b i) :
    child.Within own' := by
  unfold TrieChild.Within at h ⊢
  split at h
  · trivial
  · exact hmono _ _ h

variable {k : Nat} {node : TrieNode}

theorem Wf.mono (hwf : Wf st own k node) (h : ∀ b i, own b i → own' b i) : Wf st own' k node := by
  induction hwf with
  | leaf path value => exact .leaf path value
  | internal path children k hchars hown hnode _ ih =>
    exact .internal path children k hchars (fun child hchild => (hown child hchild).mono h) hnode ih

/-- The rows under `own` and the hashes of their blocks are still there. -/
structure Keeps (own : Nat → Nat → Prop) (st st' : TrieStorage) : Prop where
  rows : ∀ b i, own b i → st'.nodeRows b i = st.nodeRows b i
  hashes : ∀ b i hash, own b i → st.blockHash b = .ok hash → st'.blockHash b = .ok hash

/-- Every stored child of the node lies within `own`. -/
def TrieNode.Within (own : Nat → Nat → Prop) : TrieNode → Prop
  | .leaf _ _ => True
  | .internal _ children => ∀ child ∈ children, child.Within own

theorem Wf.within (hwf : Wf st own k node) : node.Within own := by
  cases hwf with
  | leaf path value => trivial
  | internal path children k hchars hown hnode hwf => exact hown

variable {b : Nat}

theorem TrieNode.Filed.kept (hfiled : node.Filed st.blockHash b) (hkeep : Keeps own st st')
    (hown : node.Within own) : node.Filed st'.blockHash b := by
  cases node with
  | leaf path value => exact hfiled
  | internal path children =>
    refine ⟨hfiled.1, fun child hchild => ?_⟩
    obtain ⟨character, referenced, target⟩ := child
    cases target with
    | memory node => exact hfiled.2 _ hchild
    | stored target index kind =>
      obtain ⟨htarget, hindex, howner⟩ := hfiled.2 _ hchild
      have htargetOwn : own target index := hown _ hchild
      cases referenced with
      | none => exact ⟨htarget, hindex, howner⟩
      | some hash => exact ⟨htarget, hindex, hkeep.hashes _ _ _ htargetOwn howner⟩

section

variable (hst : st.Coherent) (hst' : st'.Coherent) (hkeep : Keeps own st st')

include hst hst' hkeep

theorem Wf.node_kept {i : Nat} (hown : own b i) (hnode : st.node b i = .ok node)
    (hwf : Wf st own k node) : st'.node b i = .ok node := by
  obtain ⟨row, hrow, hdec⟩ := hst.node_eq_ok.1 hnode
  exact hst'.node_eq_ok.2 ⟨row, (hkeep.rows b i hown).trans hrow,
    decode_congr hdec ((hst.node_filed hnode).kept hkeep hwf.within)⟩

theorem Wf.child_kept (hown : child.Within own) (hnode : child.node st = .ok node)
    (hwf : Wf st own k node) : child.node st' = .ok node := by
  obtain ⟨character, referenced, target⟩ := child
  cases target with
  | memory inner => exact hnode
  | stored b i kind => exact hwf.node_kept hst hst' hkeep hown hnode

/-- **A well-formed node keeps its meaning while the store changes elsewhere.** -/
theorem Wf.transport (hwf : Wf st own k node) :
    Wf st' own k node ∧ ∀ path, path.length = k → node.lookup st' path = node.lookup st path := by
  induction hwf with
  | leaf path value => exact ⟨.leaf path value, fun _ _ => rfl⟩
  | internal nodePath children k hchars hown hnode hwf ih =>
    have hkept : ∀ child ∈ children, ∃ node, child.node st = .ok node ∧ child.node st' = .ok node ∧
        Wf st' own k node ∧ ∀ rest, rest.length = k → node.lookup st' rest = node.lookup st rest := by
      intro child hmem
      obtain ⟨node, hn⟩ := hnode child hmem
      exact ⟨node, hn, (hwf child hmem node hn).child_kept hst hst' hkeep (hown child hmem) hn,
        ih child hmem node hn⟩
    have hwf' : Wf st' own (nodePath.length + 1 + k) (.internal nodePath children) := by
      refine wf_internal.2 ⟨hchars, fun child hmem => ⟨hown child hmem, ?_⟩⟩
      obtain ⟨node, -, hn, hnodeWf, -⟩ := hkept child hmem
      exact ⟨node, hn, hnodeWf⟩
    refine ⟨hwf', fun path hpath => ?_⟩
    rcases through_or_off hpath with ⟨character, rest, rfl, hrest⟩ | ⟨-, hoff⟩
    · rw [hwf'.lookup_at character hrest,
        (Wf.internal nodePath children k hchars hown hnode hwf).lookup_at character hrest]
      unfold readChild
      cases hfind : findChild character children with
      | none => rfl
      | some child =>
        obtain ⟨node, hn, hn', -, hreads⟩ := hkept child (findChild_eq_some hfind).1
        simp [hn, hn', hreads rest hrest]
    · rw [hoff, hoff]

end

variable {children : List TrieChild}

theorem Wf.findPath_kept (hst : st.Coherent) (hst' : st'.Coherent) (hkeep : Keeps own st st')
    (hwf : Wf st own 32 (.internal [] children)) (path : TriePath) :
    findPath st' children path = findPath st children path := by
  obtain ⟨hwf', hreads⟩ := hwf.transport hst hst' hkeep
  rw [findPath_eq_lookup hwf', findPath_eq_lookup hwf, hreads path.toList path.length_toList]

/-! ## Filing one node -/

/-- A block whose nodes are being written: its row is there and every index from `next` on is free. -/
structure Persist.Open (block : Nat) (p : Persist) : Prop where
  coherent : p.storage.Coherent
  row : ∃ row ∈ p.storage.blockRows, row.id = block
  free : ∀ i, p.next ≤ i → p.storage.nodeRows block i = none
  next_lt : p.next < 2 ^ 32

/-- Writing has only filed nodes of `block` under new indices. -/
structure Persist.Grows (block : Nat) (p p' : Persist) : Prop where
  next_le : p.next ≤ p'.next
  rows : ∀ b i, ¬(b = block ∧ p.next ≤ i) → p'.storage.nodeRows b i = p.storage.nodeRows b i
  blockRows : p'.storage.blockRows = p.storage.blockRows
  lastId : p'.storage.lastId = p.storage.lastId
  hashesById : p'.storage.hashesById = p.storage.hashesById
  blocks : p'.storage.blocks = p.storage.blocks

namespace Persist.Grows

variable {block : Nat} {p p' p'' : Persist}

theorem refl (block : Nat) (p : Persist) : Grows block p p :=
  ⟨Nat.le_refl _, fun _ _ _ => rfl, rfl, rfl, rfl, rfl⟩

theorem trans (h : Grows block p p') (h' : Grows block p' p'') : Grows block p p'' where
  next_le := h.next_le.trans h'.next_le
  rows := fun b i hbi => (h'.rows b i fun ⟨hb, hi⟩ => hbi ⟨hb, h.next_le.trans hi⟩).trans (h.rows b i hbi)
  blockRows := h'.blockRows.trans h.blockRows
  lastId := h'.lastId.trans h.lastId
  hashesById := h'.hashesById.trans h.hashesById
  blocks := h'.blocks.trans h.blocks

theorem blockHash (h : Grows block p p') : p'.storage.blockHash = p.storage.blockHash := by
  funext id
  simp [TrieStorage.blockHash, TrieStorage.rowById, h.blockRows, h.hashesById]

theorem keeps (h : Grows block p p') {own : Nat → Nat → Prop}
    (hown : ∀ i, own block i → i < p.next) : Keeps own p.storage p'.storage where
  rows := fun b i hbi => h.rows b i fun ⟨hb, hi⟩ => by
    subst hb
    exact absurd (hown i hbi) (by omega)
  hashes := fun b i hash _ hb => h.blockHash ▸ hb

end Persist.Grows

variable {block index : Nat} {p p' : Persist} {hash : TrieHash}

theorem Persist.write_spec {record : TrieNode} (hopen : p.Open block)
    (hfiled : record.Filed p.storage.blockHash block)
    (h : p.write block hash record = .ok (index, p')) :
    p'.Open block ∧ Persist.Grows block p p' ∧ index = p.next ∧ p'.next = p.next + 1 ∧
      p'.storage.node block index = .ok record := by
  simp only [Persist.write, bind_eq_ok, ensure_eq_ok] at h
  obtain ⟨-, hnext, storage, hstorage, ⟨⟩⟩ := h
  obtain ⟨hcoh, hnode⟩ := TrieStorage.insertNode_coherent hopen.coherent hstorage
    (hopen.free _ (Nat.le_refl _)) hfiled hopen.row
  simp only [TrieStorage.insertNode, bind_eq_ok] at hstorage
  obtain ⟨data, -, ⟨⟩⟩ := hstorage
  refine ⟨⟨hcoh, hopen.row, ?_, hnext⟩, ⟨Nat.le_succ _, ?_, rfl, rfl, rfl, rfl⟩, rfl, rfl, hnode⟩
  · intro i hi
    have hi : p.next + 1 ≤ i := hi
    have hne : i ≠ p.next := by omega
    simpa [TrieStorage.remember, hne] using hopen.free i (by omega)
  · intro b i hbi
    have hne : ¬(b = block ∧ i = p.next) := fun h => hbi ⟨h.1, h.2.ge⟩
    simp only [TrieStorage.remember, if_neg hne]

/-! ## Filing a whole tree -/

/-- The pairs a persisted node may point at: those it could before, and what this block has filed. -/
def ownWith (own : Nat → Nat → Prop) (block next : Nat) (b i : Nat) : Prop :=
  own b i ∨ (b = block ∧ i < next)

theorem ownWith_mono {next next' i : Nat} (h : next ≤ next') (hown : ownWith own block next b i) :
    ownWith own block next' b i :=
  hown.imp_right fun ⟨hb, hi⟩ => ⟨hb, hi.trans_le h⟩

/-- What a child in memory and its stored replacement have in common. -/
structure Saved (own : Nat → Nat → Prop) (block k : Nat) (st : TrieStorage) (p : Persist)
    (child saved : TrieChild) : Prop where
  character : saved.character = child.character
  filed : saved.Filed p.storage.blockHash block
  within : saved.Within (ownWith own block p.next)
  reads : ∃ node node', child.node st = .ok node ∧ saved.node p.storage = .ok node' ∧
    Wf p.storage (ownWith own block p.next) k node' ∧
    ∀ path, path.length = k → node'.lookup p.storage path = node.lookup st path

theorem Saved.grow {saved : TrieChild} (h : Saved own block k st p child saved)
    (hgrow : Persist.Grows block p p') (hown : ∀ i, ¬own block i) (hopen : p.Open block)
    (hopen' : p'.Open block) : Saved own block k st p' child saved := by
  obtain ⟨node, node', hnode, hnode', hwf, hreads⟩ := h.reads
  have hkeep : Keeps (ownWith own block p.next) p.storage p'.storage :=
    hgrow.keeps fun i hi => hi.elim (fun hi => absurd hi (hown i)) And.right
  obtain ⟨hwf', hreads'⟩ := hwf.transport hopen.coherent hopen'.coherent hkeep
  have hmono : ∀ b i, ownWith own block p.next b i → ownWith own block p'.next b i :=
    fun b i => ownWith_mono hgrow.next_le
  exact ⟨h.character, hgrow.blockHash ▸ h.filed, h.within.mono hmono, node, node', hnode,
    hwf.child_kept hopen.coherent hopen'.coherent hkeep h.within hnode', hwf'.mono hmono,
    fun path hpath => (hreads' path hpath).trans (hreads path hpath)⟩

variable {saved : List TrieChild}

section

variable (h : List.Forall₂ (Saved own block k st p) children saved)

include h

theorem findChild_saved (character : UInt8) :
    (findChild character children = none ∧ findChild character saved = none) ∨
      ∃ child child', findChild character children = some child ∧
        findChild character saved = some child' ∧ Saved own block k st p child child' := by
  induction h with
  | nil => exact .inl ⟨rfl, rfl⟩
  | @cons child child' children saved hhead _ ih =>
    simp only [findChild_cons, hhead.character]
    by_cases hchar : child.character = character
    · exact .inr ⟨child, child', by simp [hchar], by simp [hchar], hhead⟩
    · simpa [hchar] using ih

theorem exists_saved : ∀ child' ∈ saved, ∃ child, Saved own block k st p child child' := by
  induction h with
  | nil => simp
  | @cons child child' _ _ hhead _ ih =>
    intro c hc
    rcases List.mem_cons.1 hc with rfl | hc
    · exact ⟨child, hhead⟩
    · exact ih c hc

end

theorem saved_internal {nodePath : List UInt8}
    (hwf : Wf st own (nodePath.length + 1 + k) (.internal nodePath children))
    (h : List.Forall₂ (Saved own block k st p) children saved) :
    Wf p.storage (ownWith own block p.next) (nodePath.length + 1 + k) (.internal nodePath saved) ∧
      ∀ path, path.length = nodePath.length + 1 + k →
        TrieNode.lookup p.storage (.internal nodePath saved) path
          = TrieNode.lookup st (.internal nodePath children) path := by
  have hchars : saved.map (·.character) = children.map (·.character) := by
    clear hwf
    induction h with
    | nil => rfl
    | cons hhead _ ih => simp [hhead.character, ih]
  have hwf' : Wf p.storage (ownWith own block p.next) (nodePath.length + 1 + k)
      (.internal nodePath saved) := by
    refine wf_internal.2 ⟨hchars ▸ (wf_internal.1 hwf).1, fun child' hchild' => ?_⟩
    obtain ⟨child, hsaved⟩ := exists_saved h child' hchild'
    obtain ⟨_, node', -, hnode', hnodeWf, -⟩ := hsaved.reads
    exact ⟨hsaved.within, node', hnode', hnodeWf⟩
  refine ⟨hwf', fun path hpath => ?_⟩
  rcases through_or_off hpath with ⟨character, rest, rfl, hrest⟩ | ⟨-, hoff⟩
  · rw [hwf'.lookup_at character hrest, hwf.lookup_at character hrest]
    rcases findChild_saved h character with ⟨h₁, h₂⟩ | ⟨child, child', h₁, h₂, hcc⟩
    · simp [readChild, h₁, h₂]
    · obtain ⟨node, node', hnode, hnode', -, hreads⟩ := hcc.reads
      simp [readChild, h₁, h₂, hnode, hnode', hreads rest hrest]
  · rw [hoff, hoff]

theorem Readable.transport (hst : st.Coherent) (hst' : st'.Coherent) (hkeep : Keeps own st st')
    (h : Readable st own k children) : Readable st' own k children := by
  intro child hchild
  obtain ⟨hown, node, hnode, hwf⟩ := h child hchild
  exact ⟨hown, node, hwf.child_kept hst hst' hkeep hown hnode, (hwf.transport hst hst' hkeep).1⟩

/-- Saved children keep standing for what their originals read before this block wrote anything. -/
theorem Saved.rebase {saved : TrieChild} (hst : st.Coherent) (hst' : st'.Coherent)
    (hkeep : Keeps own st st') (hown : child.Within own)
    (hread : ∃ node, child.node st = .ok node ∧ Wf st own k node)
    (h : Saved own block k st' p child saved) : Saved own block k st p child saved := by
  obtain ⟨node, hnode, hwf⟩ := hread
  obtain ⟨mid, node', hmid, hnode', hwf', hreads⟩ := h.reads
  have hkept := hwf.child_kept hst hst' hkeep hown hnode
  obtain rfl : node = mid := Except.ok.inj (hkept.symm.trans hmid)
  refine ⟨h.character, h.filed, h.within, node, node', hnode, hnode', hwf', fun path hpath => ?_⟩
  rw [hreads path hpath, (hwf.transport hst hst' hkeep).2 path hpath]

/-- The stored record of a node reads as the node did. -/
structure NodeSaved (own : Nat → Nat → Prop) (block k : Nat) (p p' : Persist) (node : TrieNode)
    (index : Nat) : Prop where
  opened : p'.Open block
  grows : Persist.Grows block p p'
  index_lt : index < p'.next
  reads : ∃ record, p'.storage.node block index = .ok record ∧
    Wf p'.storage (ownWith own block p'.next) k record ∧
    ∀ path, path.length = k → record.lookup p'.storage path = node.lookup p.storage path

theorem write_record {q : Persist} {record : TrieNode} (hopen : q.Open block)
    (hgrow : Persist.Grows block p q) (hown : ∀ i, ¬own block i)
    (hfiled : record.Filed q.storage.blockHash block)
    (hwf : Wf q.storage (ownWith own block q.next) k record)
    (hreads : ∀ path, path.length = k → record.lookup q.storage path = node.lookup p.storage path)
    (h : q.write block hash record = .ok (index, p')) : NodeSaved own block k p p' node index := by
  obtain ⟨hopen', hgrow', rfl, hnext, hnode⟩ := Persist.write_spec hopen hfiled h
  have hkeep : Keeps (ownWith own block q.next) q.storage p'.storage :=
    hgrow'.keeps fun i hi => hi.elim (fun hi => absurd hi (hown i)) And.right
  obtain ⟨hwf', hreads'⟩ := hwf.transport hopen.coherent hopen'.coherent hkeep
  exact ⟨hopen', hgrow.trans hgrow', by omega, record, hnode,
    hwf'.mono fun b i => ownWith_mono hgrow'.next_le,
    fun path hpath => (hreads' path hpath).trans (hreads path hpath)⟩

theorem saved_filed (h : List.Forall₂ (Saved own block k st p) children saved) :
    ∀ child ∈ saved, child.Filed p.storage.blockHash block := by
  intro child hchild
  obtain ⟨_, hsaved⟩ := exists_saved h child hchild
  exact hsaved.filed

theorem saved_rebase (hst : st.Coherent) (hst' : st'.Coherent) (hkeep : Keeps own st st')
    (hread : Readable st own k children) (h : List.Forall₂ (Saved own block k st' p) children saved) :
    List.Forall₂ (Saved own block k st p) children saved := by
  induction h with
  | nil => exact .nil
  | cons hhead _ ih =>
    obtain ⟨hown, hnode⟩ := hread _ (List.mem_cons_self ..)
    exact .cons (hhead.rebase hst hst' hkeep hown hnode)
      (ih fun c hc => hread c (List.mem_cons_of_mem _ hc))

theorem saved_memory {q : Persist} {character : UInt8} {kind : TrieNodeId}
    (h : NodeSaved own block k p q node index) :
    Saved own block k p.storage q ⟨character, none, .memory node⟩
      ⟨character, none, .stored block index kind⟩ := by
  obtain ⟨row, hrow, hid⟩ := h.opened.row
  have hblock : block < 2 ^ 32 := hid ▸ (h.opened.coherent.bounds row hrow).2.2
  obtain ⟨record, hrecord, hwf, hreads⟩ := h.reads
  exact ⟨rfl, ⟨hblock, h.index_lt.trans h.opened.next_lt, rfl⟩, .inr ⟨rfl, h.index_lt⟩,
    node, record, rfl, hrecord, hwf, hreads⟩

theorem saved_stored {character : UInt8} {referenced : MarfBlockId} {owner : Nat}
    {kind : TrieNodeId} (hstaged : owner < 2 ^ 32 ∧ index < 2 ^ 32 ∧
      ∃ hash, some referenced = some hash ∧ p.storage.blockHash owner = .ok hash)
    (hread : TrieChild.Within own ⟨character, some referenced, .stored owner index kind⟩ ∧
      ∃ node, TrieChild.node p.storage ⟨character, some referenced, .stored owner index kind⟩
        = .ok node ∧ Wf p.storage own k node) :
    Saved own block k p.storage p ⟨character, some referenced, .stored owner index kind⟩
      ⟨character, some referenced, .stored owner index kind⟩ := by
  obtain ⟨howner, hindex, hash, hhash, hblockHash⟩ := hstaged
  cases hhash
  obtain ⟨hown, node, hnode, hwf⟩ := hread
  exact ⟨rfl, ⟨howner, hindex, hblockHash⟩, .inl hown, node, node, hnode, hnode,
    hwf.mono fun b i => .inl, fun _ _ => rfl⟩

mutual
theorem persistNode_spec (sha : Digest) {block k index : Nat} {p p' : Persist} {hash : TrieHash}
    {kind : TrieNodeId} (hown : ∀ i, ¬own block i) (hk : k ≤ 32) :
    ∀ (node : TrieNode), p.Open block → Wf p.storage own k node →
      node.Staged p.storage.blockHash →
      persistNode sha block node p = .ok ((index, hash, kind), p') →
      NodeSaved own block k p p' node index
  | .leaf path value, hopen, hwf, _, h => by
    simp only [persistNode, bind_eq_ok, pure_eq_ok, Prod.exists, Except.ok.injEq,
      Prod.mk.injEq] at h
    obtain ⟨hash', -, index', p'', hwrite, ⟨rfl, rfl, rfl⟩, rfl⟩ := h
    have hpath : path.length ≤ 32 := by
      cases hwf with
      | leaf => exact hk
    have hfiled : (TrieNode.leaf path value).Filed p.storage.blockHash block := hpath
    exact write_record hopen (.refl block p) hown hfiled (hwf.mono fun b i => .inl)
      (fun _ _ => rfl) hwrite
  | .internal path children, hopen, hwf, hstaged, h => by
    simp only [persistNode, bind_eq_ok, pure_eq_ok, Prod.exists, Except.ok.injEq,
      Prod.mk.injEq] at h
    obtain ⟨saved, hashes, q, hchildren, id, -, pointers, childHashes, -, hash', -, index', p'',
      hwrite, ⟨rfl, rfl, rfl⟩, rfl⟩ := h
    obtain ⟨k', rfl, -, hread⟩ := hwf.exists_readable
    obtain ⟨hopenq, hgrow, hsaved⟩ :=
      persistChildren_spec sha hown (by omega) children hopen hread hstaged hchildren
    obtain ⟨hwfq, hreads⟩ := saved_internal hwf hsaved
    have hfiled : (TrieNode.internal path saved).Filed q.storage.blockHash block :=
      ⟨by omega, saved_filed hsaved⟩
    exact write_record hopenq hgrow hown hfiled hwfq hreads hwrite

theorem persistChildren_spec (sha : Digest) {block k : Nat} {p p' : Persist}
    {saved : List TrieChild} {hashes : List TrieHash} (hown : ∀ i, ¬own block i) (hk : k ≤ 32) :
    ∀ (children : List TrieChild), p.Open block → Readable p.storage own k children →
      StagedList p.storage.blockHash children →
      persistChildren sha block children p = .ok ((saved, hashes), p') →
      p'.Open block ∧ Persist.Grows block p p' ∧
        List.Forall₂ (Saved own block k p.storage p') children saved
  | [], hopen, _, _, h => by
    simp only [persistChildren, Except.ok.injEq, Prod.mk.injEq] at h
    obtain ⟨⟨rfl, rfl⟩, rfl⟩ := h
    exact ⟨hopen, .refl block p, .nil⟩
  | ⟨_, some _, .memory _⟩ :: _, _, _, hstaged, _ => by
    simp [StagedList] at hstaged
  | ⟨character, none, .memory node⟩ :: children, hopen, hread, hstaged, h => by
    simp only [persistChildren, bind_eq_ok, pure_eq_ok, Prod.exists, Except.ok.injEq,
      Prod.mk.injEq] at h
    obtain ⟨index, hash, kind, q, hnode, rest, hashes', q', hrest, ⟨rfl, rfl⟩, rfl⟩ := h
    obtain ⟨⟨-, hnodeStaged⟩, hstaged⟩ := hstaged
    obtain ⟨_, _, ⟨⟩, hnodeWf⟩ := hread _ (List.mem_cons_self ..)
    have hhead := persistNode_spec sha hown hk node hopen hnodeWf hnodeStaged hnode
    have hkeep : Keeps own p.storage q.storage :=
      hhead.grows.keeps fun i hi => absurd hi (hown i)
    have hread := fun c hc => hread c (List.mem_cons_of_mem _ hc)
    obtain ⟨hopen', hgrow', htail⟩ := persistChildren_spec sha hown hk children hhead.opened
      (Readable.transport hopen.coherent hhead.opened.coherent hkeep hread)
      (hhead.grows.blockHash ▸ hstaged) hrest
    refine ⟨hopen', hhead.grows.trans hgrow', .cons ?_
      (saved_rebase hopen.coherent hhead.opened.coherent hkeep hread htail)⟩
    exact (saved_memory hhead).grow hgrow' hown hhead.opened hopen'
  | ⟨character, some referenced, .stored owner index kind⟩ :: children, hopen, hread, hstaged, h => by
    simp only [persistChildren, bind_eq_ok, pure_eq_ok, Prod.exists, Except.ok.injEq,
      Prod.mk.injEq] at h
    obtain ⟨rest, hashes', q', hrest, ⟨rfl, rfl⟩, rfl⟩ := h
    obtain ⟨hhead, hstaged⟩ := hstaged
    obtain ⟨hopen', hgrow', htail⟩ := persistChildren_spec sha hown hk children hopen
      (fun c hc => hread c (List.mem_cons_of_mem _ hc)) hstaged hrest
    exact ⟨hopen', hgrow', .cons ((saved_stored hhead (hread _ (List.mem_cons_self ..))).grow hgrow'
      hown hopen hopen') htail⟩
  | ⟨character, none, .stored owner index kind⟩ :: children, hopen, hread, hstaged, h => by
    simp [StagedList] at hstaged
end

/-- **The stored root reads every path as the root in memory did.** -/
theorem persistRoot_spec (sha : Digest) {rootChildren : List TrieChild} (hown : ∀ i, ¬own block i)
    (hopen : p.Open block) (hwf : Wf p.storage own 32 (.internal [] rootChildren))
    (hstaged : StagedList p.storage.blockHash rootChildren)
    (h : persistRoot sha block rootChildren p = .ok ((index, hash), p')) :
    p'.Open block ∧ Persist.Grows block p p' ∧ ∃ saved,
      p'.storage.node block index = .ok (.internal [] saved) ∧
      Wf p'.storage (ownWith own block p'.next) 32 (.internal [] saved) ∧
      ∀ path, path.length = 32 → TrieNode.lookup p'.storage (.internal [] saved) path
        = TrieNode.lookup p.storage (.internal [] rootChildren) path := by
  simp only [persistRoot, bind_eq_ok, pure_eq_ok, Prod.exists, Except.ok.injEq, Prod.mk.injEq] at h
  obtain ⟨saved, hashes, q, hchildren, pointers, childHashes, -, hash', -, index', p'', hwrite,
    ⟨rfl, rfl⟩, rfl⟩ := h
  have hroot : Wf p.storage own (([] : List UInt8).length + 1 + 31) (.internal [] rootChildren) := hwf
  obtain ⟨-, hread⟩ := wf_internal.1 hroot
  obtain ⟨hopenq, hgrow, hsaved⟩ :=
    persistChildren_spec sha hown (by omega) rootChildren hopen hread hstaged hchildren
  obtain ⟨hwfq, hreads⟩ := saved_internal hroot hsaved
  have hfiled : (TrieNode.internal [] saved).Filed q.storage.blockHash block :=
    ⟨by simp, saved_filed hsaved⟩
  obtain ⟨-, -, -, -, hnode⟩ := Persist.write_spec hopenq hfiled hwrite
  obtain ⟨hopen', hgrow', -, record, hnode', hreads'⟩ :=
    write_record hopenq hgrow hown hfiled hwfq hreads hwrite
  obtain rfl := Except.ok.inj (hnode.symm.trans hnode')
  exact ⟨hopen', hgrow', saved, hnode, hreads'⟩

end NanoStacks.Marf
