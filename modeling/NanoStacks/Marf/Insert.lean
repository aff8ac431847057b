import NanoStacks.Marf.Trie

/-!
# The trie is a map

A node reached after `32 - k` bytes of a path is well formed at depth `k` (`Wf st own k`): below it
every branch ends in a leaf after exactly `k` bytes, siblings have different characters, and every
stored node it can reach exists under a pair for which `own` holds. On such nodes reading never
fails (`Wf.lookup_ok`), and inserting a path changes what that path reads and nothing else
(`insert_spec`).

The nodes of the state being written are moreover `Staged`: a child in memory names no referenced
block, and a stored child names the hash of the block it is stored under.
-/

namespace NanoStacks.Marf

open Result List TrieNode

/-! ## Paths -/

theorem stripPath_append (nodePath rest : List UInt8) :
    stripPath nodePath (nodePath ++ rest) = some rest := by
  induction nodePath with
  | nil => rfl
  | cons a nodePath ih => simp [stripPath, ih]

variable {nodePath path rest : List UInt8}

theorem stripPath_eq_some : stripPath nodePath path = some rest ↔ path = nodePath ++ rest := by
  constructor
  · intro h
    induction nodePath generalizing path with
    | nil => simpa [stripPath] using h
    | cons a nodePath ih =>
      cases path with
      | nil => simp [stripPath] at h
      | cons b path =>
        simp only [stripPath] at h
        split_ifs at h with hab
        rw [hab, ih h, cons_append]
  · rintro rfl
    exact stripPath_append nodePath rest

variable {k : Nat}

theorem exists_cut {n : Nat} (h : path.length = n + 1 + k) :
    ∃ front character rest, path = front ++ character :: rest ∧ front.length = n ∧
      rest.length = k := by
  refine ⟨path.take n, path[n], path.drop (n + 1), ?_, ?_, ?_⟩
  · simp
  · simp; omega
  · simp; omega

variable {left right : List UInt8}

theorem sharedPrefix_split (hleft : sharedPrefix left right < left.length)
    (hright : sharedPrefix left right < right.length) :
    ∃ front a leftRest b rightRest, left = front ++ a :: leftRest ∧
      right = front ++ b :: rightRest ∧ a ≠ b ∧ sharedPrefix left right = front.length := by
  induction left generalizing right with
  | nil => simp at hleft
  | cons a left ih =>
    cases right with
    | nil => simp at hright
    | cons b right =>
      simp only [sharedPrefix] at hleft hright ⊢
      split_ifs at hleft hright ⊢ with hab
      · obtain ⟨front, a', l, b', r, rfl, rfl, hne, hshared⟩ :=
          @ih right (by simpa using hleft) (by simpa using hright)
        exact ⟨a :: front, a', l, b', r, rfl, by simp [hab], hne, by simp [hshared]⟩
      · exact ⟨[], a, left, b, right, rfl, rfl, hab, rfl⟩

theorem eq_append_of_sharedPrefix (h : ¬sharedPrefix left right < left.length) :
    ∃ rest, right = left ++ rest := by
  induction left generalizing right with
  | nil => exact ⟨right, rfl⟩
  | cons a left ih =>
    cases right with
    | nil => simp [sharedPrefix] at h
    | cons b right =>
      simp only [sharedPrefix] at h
      split_ifs at h with hab
      · obtain ⟨rest, rfl⟩ := @ih right (by simpa using h)
        exact ⟨rest, by simp [hab]⟩
      · simp at h

theorem sharedPrefix_lt_of_ne (hlen : left.length = right.length) (hne : left ≠ right) :
    sharedPrefix left right < left.length := by
  by_contra h
  obtain ⟨rest, rfl⟩ := eq_append_of_sharedPrefix h
  have hnil : rest = [] := by
    rw [length_append] at hlen
    exact eq_nil_of_length_eq_zero (by omega)
  exact hne (by simp [hnil])

/-! ## Children -/

variable {character : UInt8} {children : List TrieChild} {child : TrieChild}

theorem findChild_eq_some (h : findChild character children = some child) :
    child ∈ children ∧ child.character = character :=
  ⟨mem_of_find?_eq_some h, by simpa using find?_some h⟩

theorem findChild_eq_none :
    findChild character children = none ↔ character ∉ children.map (·.character) := by
  simp only [findChild, find?_eq_none, decide_eq_true_eq, mem_map, not_exists, not_and]

@[simp] theorem findChild_append (character : UInt8) (left right : List TrieChild) :
    findChild character (left ++ right)
      = (findChild character left).or (findChild character right) :=
  find?_append

@[simp] theorem findChild_cons (character : UInt8) (child : TrieChild) (children : List TrieChild) :
    findChild character (child :: children)
      = if child.character = character then some child else findChild character children := by
  unfold findChild
  rw [find?_cons]
  split_ifs with h <;> simp [h]

@[simp] theorem findChild_nil (character : UInt8) : findChild character [] = none := rfl

/-- The pairs a child may be stored under. -/
def TrieChild.Within (own : Nat → Nat → Prop) (child : TrieChild) : Prop :=
  match child.target with
  | .memory _ => True
  | .stored block index _ => own block index

@[simp] theorem localChild_character (character : UInt8) (node : TrieNode) :
    (TrieChild.localChild character node).character = character := rfl

@[simp] theorem localChild_node (st : TrieStorage) (character : UInt8) (node : TrieNode) :
    (TrieChild.localChild character node).node st = .ok node := rfl

/-! ## Well-formed nodes -/

/-- Every branch below the node ends in a leaf after exactly `k` more bytes. -/
inductive Wf (st : TrieStorage) (own : Nat → Nat → Prop) : Nat → TrieNode → Prop
  | leaf (path : List UInt8) (value : MarfValue) : Wf st own path.length (.leaf path value)
  | internal (path : List UInt8) (children : List TrieChild) (k : Nat)
      (hchars : (children.map (·.character)).Nodup)
      (hown : ∀ child ∈ children, child.Within own)
      (hnode : ∀ child ∈ children, ∃ node, child.node st = .ok node)
      (hwf : ∀ child ∈ children, ∀ node, child.node st = .ok node → Wf st own k node) :
      Wf st own (path.length + 1 + k) (.internal path children)

variable {st : TrieStorage} {own : Nat → Nat → Prop} {node : TrieNode}

/-- Every child lies within `own` and reads as a well-formed node. -/
def Readable (st : TrieStorage) (own : Nat → Nat → Prop) (k : Nat) (children : List TrieChild) : Prop :=
  ∀ child ∈ children, child.Within own ∧ ∃ node, child.node st = .ok node ∧ Wf st own k node

theorem Wf.exists_readable (hwf : Wf st own k (.internal nodePath children)) :
    ∃ k', k = nodePath.length + 1 + k' ∧ (children.map (·.character)).Nodup ∧
      Readable st own k' children := by
  cases hwf with
  | internal _ _ k' hchars hown hnode hwf =>
    refine ⟨k', rfl, hchars, fun child hchild => ⟨hown child hchild, ?_⟩⟩
    obtain ⟨node, hn⟩ := hnode child hchild
    exact ⟨node, hn, hwf child hchild node hn⟩

theorem wf_internal : Wf st own (nodePath.length + 1 + k) (.internal nodePath children) ↔
    (children.map (·.character)).Nodup ∧ Readable st own k children := by
  constructor
  · intro hwf
    obtain ⟨k', hk, hread⟩ := hwf.exists_readable
    obtain rfl : k = k' := by omega
    exact hread
  · rintro ⟨hchars, hread⟩
    refine .internal nodePath children k hchars (fun child hchild => (hread child hchild).1) ?_ ?_
    all_goals
      intro child hchild
      obtain ⟨-, node, hnode, hwf⟩ := hread child hchild
    · exact ⟨node, hnode⟩
    · intro other hother
      rwa [← Except.ok.inj (hnode.symm.trans hother)]

theorem localChild_readable (character : UInt8) (hwf : Wf st own k node) :
    (TrieChild.localChild character node).Within own ∧
      ∃ n, (TrieChild.localChild character node).node st = .ok n ∧ Wf st own k n :=
  ⟨trivial, node, rfl, hwf⟩

theorem Wf.get_eq_lookup {fuel : Nat} (hwf : Wf st own k node) (hlen : path.length = k)
    (hfuel : k < fuel) : node.get st fuel path = node.lookup st path := by
  induction hwf generalizing path fuel with
  | leaf leafPath value =>
    obtain ⟨fuel, rfl⟩ : ∃ f, fuel = f + 1 := ⟨fuel - 1, by omega⟩
    rfl
  | internal nodePath children k hchars hown hnode hwf ih =>
    obtain ⟨fuel, rfl⟩ : ∃ f, fuel = f + 1 := ⟨fuel - 1, by omega⟩
    unfold TrieNode.lookup TrieNode.get
    split
    · rfl
    · rfl
    · rename_i character remaining hstrip
      split
      · rfl
      · rename_i child hchild
        obtain ⟨hmem, -⟩ := findChild_eq_some hchild
        obtain ⟨node, hnode⟩ := hnode child hmem
        have hrem : remaining.length = k := by
          have := congrArg length (stripPath_eq_some.1 hstrip)
          simp only [length_append, length_cons] at this
          omega
        simp only [hnode, ok_bind]
        rw [ih child hmem node hnode hrem (by omega), ih child hmem node hnode hrem (by omega)]

/-- What the children of a node read, from the next byte on. -/
def readChild (st : TrieStorage) (children : List TrieChild) (character : UInt8)
    (rest : List UInt8) : Except MarfError (Option MarfValue) :=
  match findChild character children with
  | none => .ok none
  | some child => child.node st >>= fun node => node.lookup st rest

theorem Wf.lookup_at (hwf : Wf st own (nodePath.length + 1 + k) (.internal nodePath children))
    (character : UInt8) (hlen : rest.length = k) :
    TrieNode.lookup st (.internal nodePath children) (nodePath ++ character :: rest) =
      readChild st children character rest := by
  obtain ⟨-, hread⟩ := wf_internal.1 hwf
  simp only [TrieNode.lookup, TrieNode.get, stripPath_append, readChild]
  cases hfind : findChild character children with
  | none => rfl
  | some child =>
    obtain ⟨hmem, -⟩ := findChild_eq_some hfind
    obtain ⟨-, node, hnode, hwf'⟩ := hread child hmem
    simp only [hnode, ok_bind]
    refine hwf'.get_eq_lookup hlen ?_
    simp only [length_append, length_cons]
    omega

variable {front : List UInt8}

theorem lookup_off (hlen : front.length = nodePath.length) (hne : front ≠ nodePath) :
    TrieNode.lookup st (.internal nodePath children) (front ++ character :: rest) = .ok none := by
  have hstrip : stripPath nodePath (front ++ character :: rest) = none := by
    rw [Option.eq_none_iff_forall_ne_some]
    intro r hr
    exact hne (append_inj (stripPath_eq_some.1 hr) hlen).1
  simp [TrieNode.lookup, TrieNode.get, hstrip]

/-- A path runs through a node, or the node has nothing under it. -/
theorem through_or_off (hlen : path.length = nodePath.length + 1 + k) :
    (∃ character rest, path = nodePath ++ character :: rest ∧ rest.length = k) ∨
      (∀ rest, path ≠ nodePath ++ rest) ∧
        ∀ st children, lookup st (.internal nodePath children) path = .ok none := by
  obtain ⟨front, character, rest, rfl, hfront, hrest⟩ := exists_cut hlen
  by_cases heq : front = nodePath
  · exact .inl ⟨character, rest, by rw [heq], hrest⟩
  · exact .inr ⟨fun _ h => heq (append_inj h hfront).1, fun _ _ => lookup_off hfront heq⟩

@[simp] theorem lookup_leaf (leafPath path : List UInt8) (value : MarfValue) :
    lookup st (.leaf leafPath value) path
      = .ok (if leafPath = path then some value else none) := rfl

theorem Wf.lookup_ok (hwf : Wf st own k node) (hlen : path.length = k) :
    ∃ value, node.lookup st path = .ok value := by
  induction hwf generalizing path with
  | leaf leafPath value => exact ⟨_, lookup_leaf leafPath path value⟩
  | internal nodePath children k hchars hown hnode hwf ih =>
    rcases through_or_off hlen with ⟨character, rest, rfl, hrest⟩ | ⟨-, hoff⟩
    · rw [(Wf.internal nodePath children k hchars hown hnode hwf).lookup_at character hrest, readChild]
      cases hfind : findChild character children with
      | none => exact ⟨none, rfl⟩
      | some child =>
        obtain ⟨hmem, -⟩ := findChild_eq_some hfind
        obtain ⟨node, hnode⟩ := hnode child hmem
        obtain ⟨value, hvalue⟩ := ih child hmem node hnode hrest
        exact ⟨value, by simp [hnode, hvalue]⟩
    · exact ⟨none, hoff st children⟩

/-! ## Back-pointers do not change what a node reads -/

theorem findChild_prepare (character : UInt8) (children : List TrieChild) (block : MarfBlockId) :
    findChild character (prepareRootForCopy children block) =
      (findChild character children).map fun child =>
        { child with referencedBlock := some (child.referencedBlock.getD block) } := by
  induction children with
  | nil => rfl
  | cons child children ih =>
    rw [prepareRootForCopy, map_cons, findChild_cons, findChild_cons]
    split_ifs with h
    · rfl
    · exact ih

theorem lookup_prepareForCopy (node : TrieNode) (block : MarfBlockId) (path : List UInt8) :
    (node.prepareForCopy block).lookup st path = node.lookup st path := by
  cases node with
  | leaf leafPath value => rfl
  | internal nodePath children =>
    simp only [TrieNode.prepareForCopy, TrieNode.lookup, TrieNode.get, findChild_prepare]
    split
    · rfl
    · rfl
    · cases findChild _ children with
      | none => rfl
      | some child => rfl

theorem Wf.prepareForCopy (hwf : Wf st own k node) (block : MarfBlockId) :
    Wf st own k (node.prepareForCopy block) := by
  cases hwf with
  | leaf leafPath value => exact .leaf leafPath value
  | internal nodePath children k hchars hown hnode hwf =>
    refine .internal nodePath _ k ?_ ?_ ?_ ?_
    · rw [prepareRootForCopy, map_map]
      exact hchars
    all_goals
      intro child hchild
      obtain ⟨old, hold, rfl⟩ := mem_map.1 hchild
    · exact hown old hold
    · exact hnode old hold
    · exact hwf old hold

/-! ## The state being written -/

mutual
/-- In memory a child names no referenced block; a stored child names its block's hash. -/
def TrieNode.Staged (blockHash : Nat → Except MarfError MarfBlockId) : TrieNode → Prop
  | .leaf _ _ => True
  | .internal _ children => StagedList blockHash children

def StagedList (blockHash : Nat → Except MarfError MarfBlockId) : List TrieChild → Prop
  | [] => True
  | ⟨_, referenced, .memory node⟩ :: children =>
    (referenced = none ∧ node.Staged blockHash) ∧ StagedList blockHash children
  | ⟨_, referenced, .stored block index _⟩ :: children =>
    (block < 2 ^ 32 ∧ index < 2 ^ 32 ∧ ∃ hash, referenced = some hash ∧ blockHash block = .ok hash)
      ∧ StagedList blockHash children
end

def TrieChild.Staged (blockHash : Nat → Except MarfError MarfBlockId) (child : TrieChild) : Prop :=
  match child.target with
  | .memory node => child.referencedBlock = none ∧ node.Staged blockHash
  | .stored block index _ => block < 2 ^ 32 ∧ index < 2 ^ 32 ∧
    ∃ hash, child.referencedBlock = some hash ∧ blockHash block = .ok hash

variable {blockHash : Nat → Except MarfError MarfBlockId}

theorem stagedList_iff :
    StagedList blockHash children ↔ ∀ child ∈ children, child.Staged blockHash := by
  induction children with
  | nil => simp [StagedList]
  | cons child children ih =>
    obtain ⟨character, referenced, target⟩ := child
    cases target <;> simp [StagedList, TrieChild.Staged, ih]

theorem TrieNode.Filed.staged {block : Nat} {hash : MarfBlockId} (h : node.Filed blockHash block)
    (hblock : blockHash block = .ok hash) : (node.prepareForCopy hash).Staged blockHash := by
  cases node with
  | leaf path value => trivial
  | internal path children =>
    refine stagedList_iff.2 fun child hchild => ?_
    obtain ⟨⟨character, referenced, target⟩, hmem, rfl⟩ := mem_map.1 hchild
    have hfiled := h.2 _ hmem
    cases target with
    | memory node => exact hfiled.elim
    | stored target index kind =>
      obtain ⟨htarget, hindex, howner⟩ := hfiled
      refine ⟨htarget, hindex, _, rfl, ?_⟩
      cases referenced with
      | none =>
        simp only at howner
        simpa [howner] using hblock
      | some named => exact howner

mutual
theorem TrieNode.Staged.mono {blockHash blockHash' : Nat → Except MarfError MarfBlockId}
    (hkeep : ∀ id hash, blockHash id = .ok hash → blockHash' id = .ok hash) :
    ∀ {node : TrieNode}, node.Staged blockHash → node.Staged blockHash'
  | .leaf _ _, _ => trivial
  | .internal _ _, h => stagedList_mono hkeep h

theorem stagedList_mono {blockHash blockHash' : Nat → Except MarfError MarfBlockId}
    (hkeep : ∀ id hash, blockHash id = .ok hash → blockHash' id = .ok hash) :
    ∀ {children : List TrieChild}, StagedList blockHash children → StagedList blockHash' children
  | [], _ => trivial
  | ⟨_, _, .memory _⟩ :: _, ⟨⟨hnone, hnode⟩, h⟩ =>
    ⟨⟨hnone, TrieNode.Staged.mono hkeep hnode⟩, stagedList_mono hkeep h⟩
  | ⟨_, _, .stored _ _ _⟩ :: _, ⟨⟨hblock, hindex, hash, hsome, hhash⟩, h⟩ =>
    ⟨⟨hblock, hindex, hash, hsome, hkeep _ _ hhash⟩, stagedList_mono hkeep h⟩
end

theorem localChild_staged (h : node.Staged blockHash) :
    (TrieChild.localChild character node).Staged blockHash := ⟨rfl, h⟩

theorem owned_spec (hst : st.Coherent) (hstaged : child.Staged st.blockHash)
    (hnode : child.node st = .ok node) :
    ∃ copy, child.owned st = .ok copy ∧ copy.Staged st.blockHash ∧
      (∀ path, copy.lookup st path = node.lookup st path) ∧
      ∀ {own k}, Wf st own k node → Wf st own k copy := by
  obtain ⟨character, referenced, target⟩ := child
  cases target with
  | memory inner =>
    obtain ⟨rfl, hinner⟩ := hstaged
    cases hnode
    exact ⟨node, rfl, hinner, fun _ => rfl, fun h => h⟩
  | stored block index kind =>
    obtain ⟨-, -, hash, rfl, hhash⟩ := hstaged
    have hstored : st.node block index = .ok node := hnode
    refine ⟨node.prepareForCopy hash, ?_, (hst.node_filed hstored).staged hhash,
      lookup_prepareForCopy node hash, fun h => h.prepareForCopy hash⟩
    simp [TrieChild.owned, hstored]

/-! ## Inserting -/

variable {f : TrieChild → Except MarfError TrieNode}

theorem updateChild_eq_none (h : findChild character children = none) :
    updateChild character f children = none := by
  induction children with
  | nil => rfl
  | cons child children ih =>
    rw [findChild_cons] at h
    split_ifs at h with hchar
    simp [updateChild, hchar, ih h]

theorem updateChild_spec (h : findChild character children = some child) (hf : f child = .ok node) :
    ∃ updated, updateChild character f children = some (.ok updated) ∧
      updated.map (·.character) = children.map (·.character) ∧
      (∀ c, findChild c updated
        = if c = character then some (.localChild character node) else findChild c children) ∧
      ∀ c ∈ updated, c = .localChild character node ∨ c ∈ children := by
  induction children with
  | nil => cases h
  | cons head children ih =>
    rw [findChild_cons] at h
    by_cases hchar : head.character = character
    · rw [if_pos hchar] at h
      cases h
      refine ⟨.localChild character node :: children, ?_, ?_, ?_, ?_⟩
      · simp [updateChild, hchar, hf]
      · simp [hchar]
      · intro c
        by_cases hc : c = character
        · simp [hc]
        · simp [hc, hchar, Ne.symm hc]
      · intro c hc
        rcases mem_cons.1 hc with rfl | hc
        · exact .inl rfl
        · exact .inr (mem_cons_of_mem _ hc)
    · rw [if_neg hchar] at h
      obtain ⟨updated, hupdated, hchars, hfind, hmem⟩ := ih h
      refine ⟨head :: updated, ?_, ?_, ?_, ?_⟩
      · simp [updateChild, hchar, hupdated]
      · simp [hchars]
      · intro c
        rw [findChild_cons, findChild_cons, hfind]
        by_cases hc : c = character
        · simp [hc, hchar]
        · simp [hc]
      · intro c hc
        rcases mem_cons.1 hc with rfl | hc
        · exact .inr (mem_cons_self ..)
        · exact (hmem c hc).imp_right (mem_cons_of_mem _)

theorem Wf.pair {a b : UInt8} {left right : TrieNode} (hne : a ≠ b) (hleft : Wf st own k left)
    (hright : Wf st own k right) :
    Wf st own (front.length + 1 + k)
      (.internal front [.localChild a left, .localChild b right]) := by
  refine wf_internal.2 ⟨by simpa using hne, fun child hchild => ?_⟩
  rcases mem_pair.1 hchild with rfl | rfl
  · exact localChild_readable a hleft
  · exact localChild_readable b hright

/-- What an inserted path reads afterwards, and what every other path does. -/
def Written (st : TrieStorage) (k : Nat) (path : List UInt8) (value : MarfValue)
    (before after : TrieNode) : Prop :=
  ∀ q : List UInt8, q.length = k →
    after.lookup st q = if q = path then .ok (some value) else before.lookup st q

variable {value : MarfValue} {oldRest newRest : List UInt8}

theorem written_leaf_split {old new : UInt8} {leafValue : MarfValue} (hne : old ≠ new)
    (hlen : oldRest.length = newRest.length) :
    Written st (front.length + 1 + newRest.length) (front ++ new :: newRest) value
      (.leaf (front ++ old :: oldRest) leafValue)
      (.internal front [.localChild old (.leaf oldRest leafValue),
        .localChild new (.leaf newRest value)]) := by
  intro q hq
  have hpair : Wf st (fun _ _ => True) (front.length + 1 + newRest.length)
      (.internal front [.localChild old (.leaf oldRest leafValue),
        .localChild new (.leaf newRest value)]) :=
    Wf.pair hne (hlen ▸ .leaf oldRest leafValue) (.leaf newRest value)
  rcases through_or_off hq with ⟨c, rest, rfl, hrest⟩ | ⟨hne', hoff⟩
  · rw [hpair.lookup_at c hrest, readChild]
    by_cases hold : old = c
    · subst hold
      simp [hne]
    · by_cases hnew : new = c
      · subst hnew
        by_cases hr : rest = newRest
        · simp [hold, hr]
        · simp [hold, hr, Ne.symm hr]
      · simp [hold, hnew, Ne.symm hnew]
  · rw [hoff, if_neg (hne' _), lookup_leaf, if_neg (hne' _).symm]

theorem written_splice {old new : UInt8} (hne : old ≠ new)
    (hlen : newRest.length = oldRest.length + 1 + k)
    (hbefore : Wf st own ((front ++ old :: oldRest).length + 1 + k)
      (.internal (front ++ old :: oldRest) children))
    (hinner : Wf st own (oldRest.length + 1 + k) (.internal oldRest children)) :
    Written st (front.length + 1 + newRest.length) (front ++ new :: newRest) value
      (.internal (front ++ old :: oldRest) children)
      (.internal front [.localChild new (.leaf newRest value),
        .localChild old (.internal oldRest children)]) := by
  intro q hq
  obtain ⟨qfront, c, rest, rfl, hfront, hrest⟩ := exists_cut hq
  obtain ⟨mid, d, tail, rfl, hmid, htail⟩ := exists_cut (hrest.trans hlen)
  have hpair : Wf st own (front.length + 1 + newRest.length)
      (.internal front [.localChild new (.leaf newRest value),
        .localChild old (.internal oldRest children)]) :=
    Wf.pair hne.symm (.leaf newRest value) (hlen ▸ hinner)
  have hregroup : qfront ++ c :: (mid ++ d :: tail) = (qfront ++ c :: mid) ++ d :: tail := by simp
  have hlens : (qfront ++ c :: mid).length = (front ++ old :: oldRest).length := by
    simp [hfront, hmid]
  -- A path that does not run through `front` and then `old` misses the node as it was.
  have hoff : ¬(qfront = front ∧ c = old) →
      lookup st (.internal (front ++ old :: oldRest) children)
        (qfront ++ c :: (mid ++ d :: tail)) = .ok none := by
    intro hpath
    rw [hregroup]
    refine lookup_off hlens fun h => hpath ?_
    obtain ⟨h₁, h₂⟩ := append_inj h hfront
    exact ⟨h₁, (cons.inj h₂).1⟩
  by_cases heq : qfront = front
  · subst heq
    rw [hpair.lookup_at c hrest, readChild]
    by_cases hold : c = old
    · subst hold
      have hcut : lookup st (.internal (qfront ++ c :: oldRest) children)
          (qfront ++ c :: (mid ++ d :: tail))
          = lookup st (.internal oldRest children) (mid ++ d :: tail) := by
        by_cases hm : mid = oldRest
        · subst hm
          rw [hregroup, hbefore.lookup_at d htail, hinner.lookup_at d htail]
        · rw [hregroup, lookup_off hlens (by simpa using hm), lookup_off hmid hm]
      simp [hne, hne.symm, hcut]
    · rw [hoff (fun h => hold h.2)]
      by_cases hnew : new = c
      · subst hnew
        by_cases hr : mid ++ d :: tail = newRest
        · simp [hr]
        · simp [hr, Ne.symm hr]
      · simp [hnew, Ne.symm hold, Ne.symm hnew]
  · rw [lookup_off hfront heq, hoff (fun h => heq h.1), if_neg]
    intro h
    exact heq (append_inj h hfront).1

variable {suffix : List UInt8}

/-- A child that holds what is written, beside the other children as they were. -/
theorem write_child (value : MarfValue) {updated : List TrieChild} {after : TrieNode}
    (hwf : Wf st own (nodePath.length + 1 + suffix.length) (.internal nodePath children))
    (hafter : Wf st own suffix.length after)
    (hwritten : ∀ rest, rest.length = suffix.length → after.lookup st rest
      = if rest = suffix then .ok (some value) else readChild st children character rest)
    (hchars : (updated.map (·.character)).Nodup) (hupdated : ∀ c, findChild c updated
      = if c = character then some (.localChild character after) else findChild c children)
    (hmem : ∀ c ∈ updated, c = .localChild character after ∨ c ∈ children) :
    Wf st own (nodePath.length + 1 + suffix.length) (.internal nodePath updated) ∧
      Written st (nodePath.length + 1 + suffix.length) (nodePath ++ character :: suffix) value
        (.internal nodePath children) (.internal nodePath updated) := by
  have hwf' : Wf st own (nodePath.length + 1 + suffix.length) (.internal nodePath updated) := by
    refine wf_internal.2 ⟨hchars, fun c hc => ?_⟩
    rcases hmem c hc with rfl | hc
    · exact localChild_readable character hafter
    · exact (wf_internal.1 hwf).2 c hc
  refine ⟨hwf', fun q hq => ?_⟩
  rcases through_or_off hq with ⟨c, rest, rfl, hrest⟩ | ⟨hne, hoff⟩
  · rw [hwf'.lookup_at c hrest, hwf.lookup_at c hrest]
    by_cases hc : c = character
    · subst hc
      simp [readChild, hupdated, hwritten rest hrest]
    · simp [readChild, hupdated, hc]
  · rw [hoff, hoff, if_neg (hne _)]

theorem splitAt_append {leftRest rightRest : List UInt8} {a b : UInt8}
    {build : UInt8 → List UInt8 → UInt8 → List UInt8 → List TrieChild} :
    splitAt front.length (front ++ a :: leftRest) (front ++ b :: rightRest) build
      = .ok (.internal front (build a leftRest b rightRest)) := by
  simp [splitAt]

theorem stagedList_update {updated : List TrieChild} (h : StagedList blockHash children)
    (hnode : node.Staged blockHash)
    (hmem : ∀ c ∈ updated, c = .localChild character node ∨ c ∈ children) :
    StagedList blockHash updated := by
  rw [stagedList_iff] at h ⊢
  intro c hc
  rcases hmem c hc with rfl | hc
  · exact localChild_staged hnode
  · exact h c hc

/-- Writing the rest of a path into the children of a node, given that writing into the nodes below
succeeds. This is the step that `insert` and `insertUnderRoot` share. -/
theorem update_spec (hst : st.Coherent) (character : UInt8) (value : MarfValue) (fuel : Nat)
    (hwf : Wf st own (nodePath.length + 1 + suffix.length) (.internal nodePath children))
    (hstaged : StagedList st.blockHash children)
    (hrec : ∀ node, Wf st own suffix.length node → node.Staged st.blockHash →
      ∃ after, node.insert st fuel suffix value = .ok after ∧ Wf st own suffix.length after ∧
        after.Staged st.blockHash ∧ Written st suffix.length suffix value node after) :
    ∃ updated, (match updateChild character (fun child => do
          let node ← child.owned st
          node.insert st fuel suffix value) children with
        | none => .ok (children ++ [.localChild character (.leaf suffix value)])
        | some result => result) = Except.ok updated ∧
      Wf st own (nodePath.length + 1 + suffix.length) (.internal nodePath updated) ∧
      StagedList st.blockHash updated ∧
      Written st (nodePath.length + 1 + suffix.length) (nodePath ++ character :: suffix) value
        (.internal nodePath children) (.internal nodePath updated) := by
  cases hfind : findChild character children with
  | none =>
    have hmem : ∀ c ∈ children ++ [.localChild character (.leaf suffix value)],
        c = .localChild character (.leaf suffix value) ∨ c ∈ children := by
      intro c hc
      rcases mem_append.1 hc with hc | hc
      · exact .inr hc
      · exact .inl (mem_singleton.1 hc)
    obtain ⟨hwf', hwritten⟩ := write_child value hwf (.leaf suffix value)
      (fun rest _ => by
        by_cases hr : rest = suffix
        · simp [hr]
        · simp [hr, Ne.symm hr, readChild, hfind])
      (by
        rw [map_append]
        refine (wf_internal.1 hwf).1.append (by simp) ?_
        simpa using findChild_eq_none.1 hfind)
      (fun c => by
        by_cases hc : c = character
        · simp [hc, hfind]
        · simp [hc, Ne.symm hc]) hmem
    refine ⟨_, by rw [updateChild_eq_none hfind], hwf', ?_, hwritten⟩
    exact stagedList_update hstaged (show (leaf suffix value).Staged _ from trivial) hmem
  | some child =>
    obtain ⟨hmem, -⟩ := findChild_eq_some hfind
    obtain ⟨hnodup, hread⟩ := wf_internal.1 hwf
    obtain ⟨-, before, hbefore, hbeforeWf⟩ := hread child hmem
    obtain ⟨copy, hcopy, hcopyStaged, hcopyLookup, hcopyWf⟩ :=
      owned_spec hst (stagedList_iff.1 hstaged child hmem) hbefore
    obtain ⟨after, hafter, hafterWf, hafterStaged, hafterWritten⟩ :=
      hrec copy (hcopyWf hbeforeWf) hcopyStaged
    have hwritten : ∀ rest, rest.length = suffix.length → after.lookup st rest
        = if rest = suffix then .ok (some value) else readChild st children character rest := by
      intro rest hrest
      rw [hafterWritten rest hrest, hcopyLookup]
      simp [readChild, hfind, hbefore]
    have hwrite : (child.owned st >>= fun node => node.insert st fuel suffix value) = .ok after := by
      simp [hcopy, hafter]
    obtain ⟨updated, hupdated, hchars, hfind', hmem'⟩ :=
      updateChild_spec (f := fun child => child.owned st >>= fun node =>
        node.insert st fuel suffix value) hfind hwrite
    obtain ⟨hwf', hwritten'⟩ :=
      write_child value hwf hafterWf hwritten (hchars ▸ hnodup) hfind' hmem'
    exact ⟨updated, by rw [hupdated], hwf', stagedList_update hstaged hafterStaged hmem', hwritten'⟩

/-- **Inserting a path into a well-formed node succeeds, and changes that path only.** -/
theorem insert_spec (hst : st.Coherent) {fuel : Nat} (hwf : Wf st own k node)
    (hstaged : node.Staged st.blockHash) (hlen : path.length = k) (hfuel : k < fuel) :
    ∃ after, node.insert st fuel path value = .ok after ∧ Wf st own k after ∧
      after.Staged st.blockHash ∧ Written st k path value node after := by
  induction fuel generalizing k node path with
  | zero => omega
  | succ fuel ih =>
    cases hwf with
    | leaf leafPath leafValue =>
      by_cases heq : leafPath = path
      · subst heq
        refine ⟨.leaf leafPath value, by simp [TrieNode.insert], .leaf _ _, trivial, fun q hq => ?_⟩
        by_cases hq' : q = leafPath
        · simp [hq']
        · simp [hq', Ne.symm hq']
      · have hshared := sharedPrefix_lt_of_ne hlen.symm heq
        obtain ⟨front, old, oldRest, new, newRest, rfl, rfl, hne, hfront⟩ :=
          sharedPrefix_split hshared (by omega)
        have hrest : oldRest.length = newRest.length := by simpa using hlen.symm
        have hk : (front ++ old :: oldRest).length = front.length + 1 + newRest.length := by
          simp [hrest]; omega
        rw [hk]
        refine ⟨_, ?_, Wf.pair hne (hrest ▸ .leaf oldRest leafValue) (.leaf newRest value), ?_,
          written_leaf_split hne hrest⟩
        · rw [TrieNode.insert, if_neg heq, hfront]
          exact splitAt_append
        · exact ⟨⟨rfl, trivial⟩, ⟨rfl, trivial⟩, trivial⟩
    | internal nodePath children k hchars hown hnode hwf =>
      have hbefore : Wf st own (nodePath.length + 1 + k) (.internal nodePath children) :=
        .internal nodePath children k hchars hown hnode hwf
      by_cases hshared : sharedPrefix nodePath path < nodePath.length
      · obtain ⟨front, old, oldRest, new, newRest, rfl, rfl, hne, hfront⟩ :=
          sharedPrefix_split hshared (by omega)
        have hrest : newRest.length = oldRest.length + 1 + k := by
          simp only [length_append, length_cons] at hlen
          omega
        have hinner : Wf st own (oldRest.length + 1 + k) (.internal oldRest children) :=
          .internal oldRest children k hchars hown hnode hwf
        have hk : (front ++ old :: oldRest).length + 1 + k = front.length + 1 + newRest.length := by
          simp [hrest]; omega
        rw [hk]
        refine ⟨_, ?_, Wf.pair hne.symm (.leaf newRest value) (hrest ▸ hinner), ?_,
          written_splice hne hrest hbefore hinner⟩
        · rw [TrieNode.insert, if_pos hshared, hfront]
          exact splitAt_append
        · exact ⟨⟨rfl, trivial⟩, ⟨rfl, hstaged⟩, trivial⟩
      · obtain ⟨rest, rfl⟩ := eq_append_of_sharedPrefix hshared
        obtain ⟨character, suffix, rfl⟩ : ∃ c s, rest = c :: s := by
          cases rest with
          | nil => simp at hlen; omega
          | cons c s => exact ⟨c, s, rfl⟩
        obtain rfl : k = suffix.length := by
          simp only [length_append, length_cons] at hlen
          omega
        obtain ⟨updated, hupdated, hwf', hstaged', hwritten⟩ :=
          update_spec hst character value fuel hbefore hstaged
            (fun node hnode hnodeStaged => ih hnode hnodeStaged rfl (by omega))
        refine ⟨.internal nodePath updated, ?_, hwf', hstaged', hwritten⟩
        rw [TrieNode.insert, if_neg hshared, drop_left]
        split at hupdated
        · cases hupdated
          simp [*]
        · simp [*]

/-! ## Under a root -/

theorem TriePath.exists_cons (path : TriePath) :
    ∃ character suffix, path.toList = character :: suffix ∧ suffix.length = 31 := by
  have hlen := path.length_toList
  cases hpath : path.toList with
  | nil => simp [hpath] at hlen
  | cons c s => exact ⟨c, s, rfl, by simpa [hpath] using hlen⟩

variable {rootChildren : List TrieChild}

section

variable (hwf : Wf st own 32 (.internal [] rootChildren)) (path : TriePath)

include hwf

theorem findPath_eq_lookup :
    findPath st rootChildren path = lookup st (.internal [] rootChildren) path.toList := by
  obtain ⟨character, suffix, hpath, hlen⟩ := path.exists_cons
  have hroot : Wf st own (([] : List UInt8).length + 1 + 31) (.internal [] rootChildren) := hwf
  have h := hroot.lookup_at character hlen
  rw [findPath, hpath]
  exact h.symm

theorem findPath_ok : ∃ value, findPath st rootChildren path = .ok value := by
  rw [findPath_eq_lookup hwf]
  exact hwf.lookup_ok path.length_toList

end

/-- **Writing a path under a root succeeds, and changes that path only.** -/
theorem insertUnderRoot_spec (hst : st.Coherent) (hwf : Wf st own 32 (.internal [] rootChildren))
    (hstaged : StagedList st.blockHash rootChildren) (path : TriePath) (value : MarfValue) :
    ∃ updated, insertUnderRoot st rootChildren path value = .ok updated ∧
      Wf st own 32 (.internal [] updated) ∧ StagedList st.blockHash updated ∧
      ∀ q, findPath st updated q
        = if q = path then .ok (some value) else findPath st rootChildren q := by
  obtain ⟨character, suffix, hpath, hlen⟩ := path.exists_cons
  have hroot : Wf st own (([] : List UInt8).length + 1 + suffix.length)
      (.internal [] rootChildren) := by
    rw [hlen]
    exact hwf
  obtain ⟨updated, hupdated, hwf', hstaged', hwritten⟩ :=
    update_spec hst character value (suffix.length + 1) hroot hstaged
      (fun node hnode hnodeStaged => insert_spec hst hnode hnodeStaged rfl (Nat.lt_succ_self _))
  rw [hlen] at hwf' hwritten
  refine ⟨updated, ?_, hwf', hstaged', fun q => ?_⟩
  · rw [insertUnderRoot, hpath]
    exact hupdated
  · rw [findPath_eq_lookup hwf', findPath_eq_lookup hwf, hwritten q.toList q.length_toList,
      nil_append, ← hpath]
    by_cases hq : q = path
    · simp [hq]
    · rw [if_neg hq, if_neg (fun h => hq (Bytes.ext h))]

end NanoStacks.Marf
