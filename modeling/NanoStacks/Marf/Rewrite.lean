import NanoStacks.Marf.Law

/-!
# Writing a path again

The first write of a path in a version decides where its leaf stands; later writes only change the
value the leaf carries. `Owns` says that a path leads through nodes of the version being written
to a leaf of its own, and `rewrite` changes the value of that leaf and nothing else. Inserting a
written path is rewriting it (`Owns.insert_eq`), and rewriting one path commutes with inserting
another (`insert_rewrite`). So a list of writes leaves the very same trie as its `firstWrites`: each
path once, where it is first written, with its last value.
-/

namespace NanoStacks.Marf

open Result Versions VersionedMarf List TrieNode

/-! ## Rewriting -/

mutual
/-- Change the value at the end of a path, following nodes in memory only. -/
def TrieNode.rewrite (value : MarfValue) : TrieNode → List UInt8 → TrieNode
  | .leaf leafPath old, path => .leaf leafPath (if leafPath = path then value else old)
  | .internal nodePath children, path =>
    match stripPath nodePath path with
    | some (character :: rest) => .internal nodePath (rewriteList value character rest children)
    | _ => .internal nodePath children

def rewriteList (value : MarfValue) (character : UInt8) (rest : List UInt8) :
    List TrieChild → List TrieChild
  | [] => []
  | ⟨c, referenced, .memory node⟩ :: children =>
    if c = character then ⟨c, referenced, .memory (node.rewrite value rest)⟩ :: children
    else ⟨c, referenced, .memory node⟩ :: rewriteList value character rest children
  | ⟨c, referenced, .stored block index kind⟩ :: children =>
    if c = character then ⟨c, referenced, .stored block index kind⟩ :: children
    else ⟨c, referenced, .stored block index kind⟩ :: rewriteList value character rest children
end

mutual
/-- The path leads through nodes the version owns to a leaf of its own. -/
def TrieNode.Owns : TrieNode → List UInt8 → Prop
  | .leaf leafPath _, path => leafPath = path
  | .internal nodePath children, path =>
    ∃ character rest, path = nodePath ++ character :: rest ∧ OwnsList character rest children

def OwnsList (character : UInt8) (rest : List UInt8) : List TrieChild → Prop
  | [] => False
  | ⟨c, referenced, .memory node⟩ :: children =>
    if c = character then referenced = none ∧ node.Owns rest
    else OwnsList character rest children
  | ⟨c, _, .stored _ _ _⟩ :: children => c ≠ character ∧ OwnsList character rest children
end

@[simp] theorem rewrite_internal (value : MarfValue) (nodePath : List UInt8) (character : UInt8)
    (rest : List UInt8) (children : List TrieChild) :
    (internal nodePath children).rewrite value (nodePath ++ character :: rest)
      = .internal nodePath (rewriteList value character rest children) := by
  simp [rewrite, stripPath_append]

@[simp] theorem owns_internal (nodePath : List UInt8) (character : UInt8) (rest : List UInt8)
    (children : List TrieChild) :
    (internal nodePath children).Owns (nodePath ++ character :: rest)
      ↔ OwnsList character rest children := by
  constructor
  · rintro ⟨c, r, hpath, h⟩
    obtain ⟨rfl, rfl⟩ : character = c ∧ rest = r := by simpa using hpath
    exact h
  · intro h
    exact ⟨character, rest, rfl, h⟩

@[simp] theorem rewrite_leaf (value old : MarfValue) (path : List UInt8) :
    (leaf path old).rewrite value path = .leaf path value := by
  simp [rewrite]

theorem rewriteList_local_self (value : MarfValue) (character : UInt8) (rest : List UInt8)
    (node : TrieNode) (children : List TrieChild) :
    rewriteList value character rest (.localChild character node :: children)
      = .localChild character (node.rewrite value rest) :: children := by
  simp [TrieChild.localChild, rewriteList]

theorem ownsList_local_self (character : UInt8) (rest : List UInt8) (node : TrieNode)
    (children : List TrieChild) :
    OwnsList character rest (.localChild character node :: children) ↔ node.Owns rest := by
  simp [TrieChild.localChild, OwnsList]

variable {character : UInt8} {child : TrieChild}

theorem rewriteList_cons_ne (value : MarfValue) (rest : List UInt8)
    (h : child.character ≠ character) (children : List TrieChild) :
    rewriteList value character rest (child :: children)
      = child :: rewriteList value character rest children := by
  obtain ⟨c, referenced, target⟩ := child
  have hc : c ≠ character := h
  cases target <;> simp [rewriteList, hc]

theorem ownsList_cons_ne (rest : List UInt8) (h : child.character ≠ character)
    (children : List TrieChild) :
    OwnsList character rest (child :: children) ↔ OwnsList character rest children := by
  obtain ⟨c, referenced, target⟩ := child
  have hc : c ≠ character := h
  cases target <;> simp [OwnsList, hc]

theorem ownsList_cons_self {rest : List UInt8} (h : child.character = character)
    {children : List TrieChild} (hw : OwnsList character rest (child :: children)) :
    ∃ node, child = .localChild character node ∧ node.Owns rest := by
  obtain ⟨c, referenced, target⟩ := child
  obtain rfl : c = character := h
  cases target with
  | memory node =>
    obtain ⟨rfl, hnode⟩ : referenced = none ∧ node.Owns rest := by
      simpa [OwnsList] using hw
    exact ⟨node, rfl, hnode⟩
  | stored block index kind => exact absurd rfl hw.1

/-! ## Shape -/

mutual
/-- A node with the values of its leaves in memory taken out. -/
def TrieNode.shape : TrieNode → TrieNode
  | .leaf path _ => .leaf path (Bytes.zero 40)
  | .internal path children => .internal path (shapeList children)

def shapeList : List TrieChild → List TrieChild
  | [] => []
  | ⟨c, referenced, .memory node⟩ :: children =>
    ⟨c, referenced, .memory node.shape⟩ :: shapeList children
  | ⟨c, referenced, .stored block index kind⟩ :: children =>
    ⟨c, referenced, .stored block index kind⟩ :: shapeList children
end

mutual
theorem shape_rewrite (value : MarfValue) :
    ∀ (node : TrieNode) (path : List UInt8), (node.rewrite value path).shape = node.shape
  | .leaf leafPath old, path => rfl
  | .internal nodePath children, path => by
    cases hstrip : stripPath nodePath path with
    | none => simp [rewrite, hstrip]
    | some tail =>
      cases tail with
      | nil => simp [rewrite, hstrip]
      | cons character rest =>
        simp [rewrite, hstrip, shape, shapeList_rewriteList value children]

theorem shapeList_rewriteList (value : MarfValue) :
    ∀ (children : List TrieChild) (character : UInt8) (rest : List UInt8),
      shapeList (rewriteList value character rest children) = shapeList children
  | [], _, _ => rfl
  | ⟨c, referenced, .memory node⟩ :: children, character, rest => by
    by_cases hc : c = character
    · simp [rewriteList, shapeList, hc, shape_rewrite value node]
    · simp [rewriteList, shapeList, hc, shapeList_rewriteList value children]
  | ⟨c, referenced, .stored block index kind⟩ :: children, character, rest => by
    by_cases hc : c = character
    · simp [rewriteList, shapeList, hc]
    · simp [rewriteList, shapeList, hc, shapeList_rewriteList value children]
end

/-! ## Placing a path among children

What `insert` does below an internal node and `insertUnderRoot` below the root, as one recursion over
the children. -/

section
variable (st : TrieStorage)

def placeChild (fuel : Nat) (character : UInt8) (suffix : List UInt8) (value : MarfValue) :
    List TrieChild → Except MarfError (List TrieChild)
  | [] => .ok [.localChild character (.leaf suffix value)]
  | child :: children =>
    if child.character = character then do
      let node ← child.owned st
      let node ← node.insert st fuel suffix value
      return TrieChild.localChild character node :: children
    else do
      let children ← placeChild fuel character suffix value children
      return child :: children

theorem placeChild_eq (fuel : Nat) (character : UInt8) (suffix : List UInt8) (value : MarfValue)
    (children : List TrieChild) :
    (match updateChild character (fun child => do
        let node ← child.owned st
        node.insert st fuel suffix value) children with
      | none => .ok (children ++ [.localChild character (.leaf suffix value)])
      | some updated => updated)
      = placeChild st fuel character suffix value children := by
  induction children with
  | nil => rfl
  | cons child children ih =>
    by_cases hc : child.character = character
    · cases howned : child.owned st with
      | error e => simp [updateChild, placeChild, hc, howned]
      | ok node => simp [updateChild, placeChild, hc, howned]
    · rw [placeChild, if_neg hc, ← ih, updateChild, if_neg hc]
      cases updateChild character _ children with
      | none => rfl
      | some updated => rfl

variable {character : UInt8} {suffix : List UInt8}

theorem insertUnderRoot_eq {path : TriePath} (hpath : path.toList = character :: suffix)
    (children : List TrieChild) (value : MarfValue) :
    insertUnderRoot st children path value
      = placeChild st (suffix.length + 1) character suffix value children := by
  rw [insertUnderRoot, hpath]
  exact placeChild_eq st (suffix.length + 1) character suffix value children

theorem insert_below (fuel : Nat) (nodePath : List UInt8) (children : List TrieChild)
    (character : UInt8) (suffix : List UInt8) (value : MarfValue) :
    (internal nodePath children).insert st (fuel + 1) (nodePath ++ character :: suffix) value
      = (internal nodePath <$> placeChild st fuel character suffix value children) := by
  have hshared : ¬sharedPrefix nodePath (nodePath ++ character :: suffix) < nodePath.length := by
    induction nodePath with
    | nil => simp [sharedPrefix]
    | cons a nodePath ih => simpa [sharedPrefix] using ih
  rw [← placeChild_eq, TrieNode.insert, if_neg hshared, drop_left]
  dsimp only
  cases updateChild character _ children with
  | none => rfl
  | some updated => cases updated <;> rfl

variable {st}

theorem sharedPrefix_parted (front : List UInt8) {a b : UInt8} (hne : a ≠ b)
    (left right : List UInt8) :
    sharedPrefix (front ++ a :: left) (front ++ b :: right) = front.length := by
  induction front with
  | nil => simp [sharedPrefix, hne]
  | cons c front ih => simpa [sharedPrefix] using ih

variable {node : TrieNode}

theorem splitAt_eq_ok {left right : List UInt8}
    {build : UInt8 → List UInt8 → UInt8 → List UInt8 → List TrieChild} :
    splitAt (sharedPrefix left right) left right build = .ok node ↔
      ∃ front a leftRest b rightRest, left = front ++ a :: leftRest ∧
        right = front ++ b :: rightRest ∧ a ≠ b ∧
        node = .internal front (build a leftRest b rightRest) := by
  constructor
  · intro h
    unfold splitAt at h
    split at h
    · rename_i a l b r hleft hright
      obtain ⟨front, a', l', b', r', rfl, rfl, hne, hshared⟩ :=
        @sharedPrefix_split left right (length_lt_of_drop_ne_nil (by simp [hleft]))
          (length_lt_of_drop_ne_nil (by simp [hright]))
      simp only [hshared, drop_left, cons.injEq] at hleft hright
      obtain ⟨⟨rfl, rfl⟩, rfl, rfl⟩ := And.intro hleft hright
      refine ⟨front, a', l', b', r', rfl, rfl, hne, ?_⟩
      simpa [hshared] using h.symm
    · cases h
  · rintro ⟨front, a, l, b, r, rfl, rfl, hne, rfl⟩
    simp [splitAt, sharedPrefix_parted front hne]

variable {fuel : Nat} {path : List UInt8} {value : MarfValue}

theorem insert_leaf_eq_ok {leafPath : List UInt8} {old : MarfValue} :
    (leaf leafPath old).insert st (fuel + 1) path value = .ok node ↔
      leafPath = path ∧ node = .leaf path value ∨
      ∃ front a l b r, leafPath = front ++ a :: l ∧ path = front ++ b :: r ∧ a ≠ b ∧
        node = .internal front [.localChild a (.leaf l old), .localChild b (.leaf r value)] := by
  rw [TrieNode.insert]
  by_cases h : leafPath = path
  · subst h
    rw [if_pos rfl, Except.ok.injEq]
    constructor
    · exact fun hnode => .inl ⟨rfl, hnode.symm⟩
    · rintro (⟨-, rfl⟩ | ⟨front, a, l, b, r, rfl, hpath, hne, -⟩)
      · rfl
      · obtain ⟨hab, -⟩ : a = b ∧ l = r := by simpa using hpath
        exact absurd hab hne
  · rw [if_neg h, splitAt_eq_ok]
    simp [h]

variable {children : List TrieChild}

/-- An insertion at an internal node either splits its path or goes on to its children. -/
theorem insert_internal_eq_ok {nodePath : List UInt8} :
    (internal nodePath children).insert st (fuel + 1) path value = .ok node ↔
      (∃ front a l b r, nodePath = front ++ a :: l ∧ path = front ++ b :: r ∧ a ≠ b ∧
        node = .internal front [.localChild b (.leaf r value), .localChild a (.internal l children)]) ∨
      ∃ character suffix updated, path = nodePath ++ character :: suffix ∧
        placeChild st fuel character suffix value children = .ok updated ∧
        node = .internal nodePath updated := by
  constructor
  · intro h
    by_cases hshared : sharedPrefix nodePath path < nodePath.length
    · rw [TrieNode.insert, if_pos hshared, splitAt_eq_ok] at h
      exact .inl h
    · obtain ⟨rest, rfl⟩ := eq_append_of_sharedPrefix hshared
      cases rest with
      | nil =>
        rw [TrieNode.insert, if_neg hshared] at h
        simp at h
      | cons character suffix =>
        rw [insert_below, map_eq_ok] at h
        obtain ⟨updated, hupdated, hnode⟩ := h
        exact .inr ⟨character, suffix, updated, rfl, hupdated, hnode.symm⟩
  · rintro (⟨front, a, l, b, r, rfl, rfl, hne, rfl⟩ | ⟨character, suffix, updated, rfl, hupdated, rfl⟩)
    · rw [TrieNode.insert, if_pos, splitAt_eq_ok]
      · exact ⟨front, a, l, b, r, rfl, rfl, hne, rfl⟩
      · simp [sharedPrefix_parted front hne]
    · rw [insert_below, hupdated]
      rfl

variable {child : TrieChild} {updated : List TrieChild}

theorem placeChild_cons_self (hc : child.character = character) :
    placeChild st fuel character suffix value (child :: children) = .ok updated ↔
      ∃ node node', child.owned st = .ok node ∧ node.insert st fuel suffix value = .ok node' ∧
        .localChild character node' :: children = updated := by
  simp [placeChild, hc]

theorem placeChild_cons_ne (hc : child.character ≠ character) :
    placeChild st fuel character suffix value (child :: children) = .ok updated ↔
      ∃ rest, placeChild st fuel character suffix value children = .ok rest ∧
        child :: rest = updated := by
  simp [placeChild, hc]

/-! ## A path written twice -/

theorem placeChild_again {first : MarfValue}
    (ih : ∀ {node node' : TrieNode}, node.insert st fuel suffix first = .ok node' →
      node'.Owns suffix ∧ ∀ last, node.insert st fuel suffix last = .ok (node'.rewrite last suffix))
    (h : placeChild st fuel character suffix first children = .ok updated) :
    OwnsList character suffix updated ∧ ∀ last,
      placeChild st fuel character suffix last children
        = .ok (rewriteList last character suffix updated) := by
  induction children generalizing updated with
  | nil =>
    obtain rfl : _ = updated := Except.ok.inj h
    refine ⟨(ownsList_local_self ..).2 rfl, fun last => ?_⟩
    rw [rewriteList_local_self, rewrite_leaf]
    rfl
  | cons child children ihc =>
    by_cases hc : child.character = character
    · obtain ⟨node, node', howned, hnode, rfl⟩ := (placeChild_cons_self hc).1 h
      obtain ⟨hwritten, hagain⟩ := ih hnode
      refine ⟨(ownsList_local_self ..).2 hwritten, fun last => ?_⟩
      rw [rewriteList_local_self]
      exact (placeChild_cons_self hc).2 ⟨node, _, howned, hagain last, rfl⟩
    · obtain ⟨rest, hrest, rfl⟩ := (placeChild_cons_ne hc).1 h
      obtain ⟨hwritten, hagain⟩ := ihc hrest
      refine ⟨(ownsList_cons_ne suffix hc rest).2 hwritten, fun last => ?_⟩
      rw [rewriteList_cons_ne last suffix hc]
      exact (placeChild_cons_ne hc).2 ⟨_, hagain last, rfl⟩

variable {node' : TrieNode}

theorem insert_again {first : MarfValue} (h : node.insert st fuel path first = .ok node') :
    node'.Owns path ∧ ∀ last, node.insert st fuel path last = .ok (node'.rewrite last path) := by
  induction fuel generalizing node node' path with
  | zero => simp [TrieNode.insert] at h
  | succ fuel ih =>
    cases node with
    | leaf leafPath old =>
      rcases insert_leaf_eq_ok.1 h with ⟨rfl, rfl⟩ | ⟨front, a, l, b, r, rfl, rfl, hne, rfl⟩
      · refine ⟨rfl, fun last => ?_⟩
        rw [rewrite_leaf]
        exact insert_leaf_eq_ok.2 (.inl ⟨rfl, rfl⟩)
      · refine ⟨?_, fun last => ?_⟩
        · rw [owns_internal, ownsList_cons_ne r hne, ownsList_local_self]
          rfl
        · rw [rewrite_internal, rewriteList_cons_ne last r hne, rewriteList_local_self, rewrite_leaf]
          exact insert_leaf_eq_ok.2 (.inr ⟨front, a, l, b, r, rfl, rfl, hne, rfl⟩)
    | internal nodePath children =>
      rcases insert_internal_eq_ok.1 h with
        ⟨front, a, l, b, r, rfl, rfl, hne, rfl⟩ | ⟨character, suffix, updated, rfl, hupdated, rfl⟩
      · refine ⟨?_, fun last => ?_⟩
        · rw [owns_internal, ownsList_local_self]
          rfl
        · rw [rewrite_internal, rewriteList_local_self, rewrite_leaf]
          exact insert_internal_eq_ok.2 (.inl ⟨front, a, l, b, r, rfl, rfl, hne, rfl⟩)
      · obtain ⟨hwritten, hagain⟩ := placeChild_again ih hupdated
        refine ⟨(owns_internal ..).2 hwritten, fun last => ?_⟩
        rw [rewrite_internal, insert_below, hagain last]
        rfl

theorem OwnsList.placeChild_eq (ih : ∀ {node : TrieNode}, node.Owns suffix →
      node.insert st fuel suffix value = .ok (node.rewrite value suffix))
    (h : OwnsList character suffix children) :
    placeChild st fuel character suffix value children
      = .ok (rewriteList value character suffix children) := by
  induction children with
  | nil => exact h.elim
  | cons child children ihc =>
    by_cases hc : child.character = character
    · obtain ⟨node, rfl, hnode⟩ := ownsList_cons_self hc h
      rw [rewriteList_local_self]
      exact (placeChild_cons_self rfl).2 ⟨node, _, rfl, ih hnode, rfl⟩
    · rw [rewriteList_cons_ne value suffix hc]
      exact (placeChild_cons_ne hc).2 ⟨_, ihc ((ownsList_cons_ne suffix hc children).1 h), rfl⟩

theorem TrieNode.Owns.insert_eq (h : node.Owns path) (hfuel : path.length < fuel) :
    node.insert st fuel path value = .ok (node.rewrite value path) := by
  induction fuel generalizing node path with
  | zero => omega
  | succ fuel ih =>
    cases node with
    | leaf leafPath old =>
      obtain rfl : leafPath = path := h
      rw [rewrite_leaf]
      exact insert_leaf_eq_ok.2 (.inl ⟨rfl, rfl⟩)
    | internal nodePath children =>
      obtain ⟨character, rest, rfl, hlist⟩ := h
      have hrest : rest.length < fuel := by
        simp only [length_append, length_cons] at hfuel
        omega
      rw [rewrite_internal, insert_below, hlist.placeChild_eq fun hnode => ih hnode hrest]
      rfl

/-! ## Two paths -/

/-- Placing another path keeps a written one, and its value can be changed before or after. -/
theorem placeChild_rewrite {c : UInt8} {rest : List UInt8} (hne : c :: rest ≠ character :: suffix)
    (ih : ∀ {node node' : TrieNode}, node.Owns rest → rest ≠ suffix →
      node.insert st fuel suffix value = .ok node' →
      node'.Owns rest ∧ ∀ v, (node.rewrite v rest).insert st fuel suffix value
        = .ok (node'.rewrite v rest)) (hw : OwnsList c rest children)
    (h : placeChild st fuel character suffix value children = .ok updated) :
    OwnsList c rest updated ∧ ∀ v,
      placeChild st fuel character suffix value (rewriteList v c rest children)
        = .ok (rewriteList v c rest updated) := by
  induction children generalizing updated with
  | nil => exact hw.elim
  | cons child children ihc =>
    by_cases hchild : child.character = c
    · obtain ⟨node, rfl, hnode⟩ := ownsList_cons_self hchild hw
      by_cases hc : c = character
      · -- Both paths go through this child.
        subst hc
        have hrest : rest ≠ suffix := fun heq => hne (by rw [heq])
        obtain ⟨owned, node', howned, hnode', rfl⟩ := (placeChild_cons_self hchild).1 h
        obtain rfl : node = owned := Except.ok.inj howned
        obtain ⟨hwritten, hcomm⟩ := ih hnode hrest hnode'
        refine ⟨(ownsList_local_self ..).2 hwritten, fun v => ?_⟩
        rw [rewriteList_local_self, rewriteList_local_self]
        exact (placeChild_cons_self rfl).2 ⟨_, _, rfl, hcomm v, rfl⟩
      · obtain ⟨others, hothers, rfl⟩ := (placeChild_cons_ne hc).1 h
        refine ⟨(ownsList_local_self ..).2 hnode, fun v => ?_⟩
        rw [rewriteList_local_self, rewriteList_local_self]
        exact (placeChild_cons_ne hc).2 ⟨others, hothers, rfl⟩
    · have hw' := (ownsList_cons_ne rest hchild children).1 hw
      by_cases hc : child.character = character
      · obtain ⟨owned, node', howned, hnode', rfl⟩ := (placeChild_cons_self hc).1 h
        have hother : (TrieChild.localChild character node').character ≠ c := hc ▸ hchild
        refine ⟨(ownsList_cons_ne rest hother children).2 hw', fun v => ?_⟩
        rw [rewriteList_cons_ne v rest hchild, rewriteList_cons_ne v rest hother]
        exact (placeChild_cons_self hc).2 ⟨owned, node', howned, hnode', rfl⟩
      · obtain ⟨others, hothers, rfl⟩ := (placeChild_cons_ne hc).1 h
        obtain ⟨hwritten, hcomm⟩ := ihc hw' hothers
        refine ⟨(ownsList_cons_ne rest hchild others).2 hwritten, fun v => ?_⟩
        rw [rewriteList_cons_ne v rest hchild, rewriteList_cons_ne v rest hchild]
        exact (placeChild_cons_ne hc).2 ⟨_, hcomm v, rfl⟩

/-- Inserting another path keeps a written one, and its value can be changed before or after. -/
theorem insert_rewrite {other : List UInt8} (hw : node.Owns path) (hne : path ≠ other)
    (h : node.insert st fuel other value = .ok node') :
    node'.Owns path ∧ ∀ v,
      (node.rewrite v path).insert st fuel other value = .ok (node'.rewrite v path) := by
  induction fuel generalizing node node' path other with
  | zero => simp [TrieNode.insert] at h
  | succ fuel ih =>
    cases node with
    | leaf leafPath old =>
      obtain rfl : leafPath = path := hw
      rcases insert_leaf_eq_ok.1 h with ⟨rfl, rfl⟩ | ⟨front, a, l, b, r, rfl, rfl, hab, rfl⟩
      · exact absurd rfl hne
      · refine ⟨?_, fun v => ?_⟩
        · rw [owns_internal, ownsList_local_self]
          rfl
        · rw [rewrite_internal, rewriteList_local_self, rewrite_leaf, rewrite_leaf]
          exact insert_leaf_eq_ok.2 (.inr ⟨front, a, l, b, r, rfl, rfl, hab, rfl⟩)
    | internal nodePath children =>
      obtain ⟨c, rest, rfl, hlist⟩ := hw
      rcases insert_internal_eq_ok.1 h with
        ⟨front, a, l, b, r, rfl, rfl, hab, rfl⟩ | ⟨character, suffix, updated, rfl, hupdated, rfl⟩
      · -- The node moves below the split, and the written path with it.
        have hba : (TrieChild.localChild b (.leaf r value)).character ≠ a := Ne.symm hab
        have happ : (front ++ a :: l) ++ c :: rest = front ++ a :: (l ++ c :: rest) := by simp
        refine ⟨?_, fun v => ?_⟩
        · rw [happ, owns_internal, ownsList_cons_ne _ hba, ownsList_local_self,
            owns_internal]
          exact hlist
        · rw [rewrite_internal, happ, rewrite_internal, rewriteList_cons_ne v _ hba,
            rewriteList_local_self, rewrite_internal]
          exact insert_internal_eq_ok.2 (.inl ⟨front, a, l, b, r, rfl, rfl, hab, rfl⟩)
      · obtain ⟨hwritten, hcomm⟩ :=
          placeChild_rewrite (fun heq => hne (by rw [heq])) ih hlist hupdated
        refine ⟨(owns_internal ..).2 hwritten, fun v => ?_⟩
        rw [rewrite_internal, rewrite_internal, insert_below, hcomm v]
        rfl

/-! ## Under the root -/

def rewriteUnderRoot (rootChildren : List TrieChild) (path : TriePath) (value : MarfValue) :
    List TrieChild :=
  match path.toList with
  | [] => rootChildren
  | character :: rest => rewriteList value character rest rootChildren

/-- The path was written in the version with these root children. -/
def OwnsUnderRoot (rootChildren : List TrieChild) (path : TriePath) : Prop :=
  (internal [] rootChildren).Owns path.toList

theorem overwrites_insertUnderRoot :
    Overwrites (insertUnderRoot st) rewriteUnderRoot OwnsUnderRoot where
  put_first := by
    intro children updated path value h
    obtain ⟨character, suffix, hpath, -⟩ := path.exists_cons
    rw [insertUnderRoot_eq st hpath] at h
    obtain ⟨hwritten, hagain⟩ := placeChild_again insert_again h
    refine ⟨⟨character, suffix, hpath, hwritten⟩, fun last => ?_⟩
    simp only [insertUnderRoot_eq st hpath, hagain last, rewriteUnderRoot, hpath]
  put_again := by
    rintro children path ⟨character, suffix, hpath, hwritten⟩ value
    replace hpath : path.toList = character :: suffix := hpath
    simp only [insertUnderRoot_eq st hpath, rewriteUnderRoot, hpath]
    exact hwritten.placeChild_eq fun hnode => hnode.insert_eq (Nat.lt_succ_self _)
  put_other := by
    rintro children updated path other value ⟨c, rest, hpath, hwritten⟩ hne h
    replace hpath : path.toList = c :: rest := hpath
    obtain ⟨character, suffix, hother, -⟩ := other.exists_cons
    rw [insertUnderRoot_eq st hother] at h
    have hlists : c :: rest ≠ character :: suffix := by
      rw [← hpath, ← hother]
      exact fun heq => hne (Bytes.ext heq)
    obtain ⟨hwritten', hcomm⟩ := placeChild_rewrite hlists insert_rewrite hwritten h
    refine ⟨⟨c, rest, hpath, hwritten'⟩, fun v => ?_⟩
    simp only [insertUnderRoot_eq st hother, hcomm v, rewriteUnderRoot, hpath]

theorem insertAll_eq_foldlM (children : List TrieChild) (writes : List Write) :
    insertAll st children writes
      = writes.foldlM (fun children w => insertUnderRoot st children w.1 w.2) children := by
  induction writes generalizing children with
  | nil => rfl
  | cons head writes ih =>
    obtain ⟨path, value⟩ := head
    simp only [insertAll, foldlM_cons, ih]

theorem insertAll_firstWrites {writes : List Write} (h : insertAll st children writes = .ok updated) :
    insertAll st children (firstWrites writes) = .ok updated := by
  rw [insertAll_eq_foldlM] at h ⊢
  exact overwrites_insertUnderRoot.foldlM_firstWrites h

theorem owns_of_insertAll {writes : List Write} (h : insertAll st children writes = .ok updated)
    {path : TriePath} (hpath : OwnsUnderRoot children path ∨ path ∈ writes.map (·.1)) :
    OwnsUnderRoot updated path := by
  induction writes generalizing children with
  | nil =>
    obtain rfl : children = updated := Except.ok.inj h
    simpa using hpath
  | cons head writes ih =>
    obtain ⟨first, value⟩ := head
    simp only [insertAll, bind_eq_ok] at h
    obtain ⟨mid, hmid, hrest⟩ := h
    obtain ⟨hfirst, -⟩ := overwrites_insertUnderRoot.put_first hmid
    refine ih hrest ?_
    by_cases heq : path = first
    · exact .inl (heq ▸ hfirst)
    · rcases hpath with hpath | hpath
      · exact .inl (overwrites_insertUnderRoot.put_other hpath heq hmid).1
      · exact .inr (by simpa [heq] using hpath)

end

/-! ## A version's writes -/

namespace VersionedMarf

variable (sha : Digest) (m : VersionedMarf)

/-- Write a list of paths into the active state, one after another. -/
def insertPaths (writes : List Write) : Except MarfError VersionedMarf :=
  writes.foldlM (fun m w => m.insertPath w.1 w.2) m

/-- The root of the active state once a list of paths is written and it is sealed under an id. -/
def rootAfter (writes : List Write) (block : MarfBlockId) : Except MarfError TrieHash := do
  let m ← m.insertPaths writes
  (m.sealTo sha block).1

/-- The trie of the active state without its values. -/
def shape : Option (List TrieChild) := m.active.map fun active => shapeList active.rootChildren

/-- The store with other root children in its active state. -/
def withRoot (active : ActiveVersion) (rootChildren : List TrieChild) : VersionedMarf :=
  ⟨m.storage, some ⟨active.block, active.parent, active.height, rootChildren⟩, m.path⟩

variable {m}

variable {active : ActiveVersion}

section

variable (hactive : m.active = some active)

include hactive

theorem insertPath_eq (path : TriePath) (value : MarfValue) :
    m.insertPath path value
      = m.withRoot active <$> insertUnderRoot m.storage active.rootChildren path value := by
  rw [insertPath, hactive]
  rfl

theorem insertPath_written {path : TriePath} (h : OwnsUnderRoot active.rootChildren path)
    (value : MarfValue) :
    m.insertPath path value
      = .ok (m.withRoot active (rewriteUnderRoot active.rootChildren path value)) ∧
    (m.withRoot active (rewriteUnderRoot active.rootChildren path value)).shape = m.shape := by
  constructor
  · rw [insertPath_eq hactive, overwrites_insertUnderRoot.put_again h]
    rfl
  · obtain ⟨character, rest, hpath, -⟩ := path.exists_cons
    simp [shape, withRoot, hactive, rewriteUnderRoot, hpath, shapeList_rewriteList]

theorem insertPaths_eq (writes : List Write) :
    m.insertPaths writes
      = m.withRoot active <$> insertAll m.storage active.rootChildren writes := by
  induction writes generalizing m active with
  | nil =>
    obtain ⟨storage, active', path⟩ := m
    obtain rfl : active' = some active := hactive
    rfl
  | cons head writes ih =>
    obtain ⟨path, value⟩ := head
    rw [insertPaths, foldlM_cons, insertPath_eq hactive]
    cases h : insertUnderRoot m.storage active.rootChildren path value with
    | error e => simp [insertAll, h]
    | ok updated =>
      simp only [insertAll, h, ok_bind]
      exact @ih (m.withRoot active updated) _ rfl

end

theorem insertPaths_of_none (hactive : m.active = none) (writes : List Write) :
    m.insertPaths writes = if writes = [] then .ok m else .error .writeNotBegun := by
  cases writes with
  | nil => rfl
  | cons head writes =>
    rw [insertPaths, foldlM_cons, insertPath, hactive]
    rfl

end VersionedMarf

/-- In a session writing never fails, and the first writes leave the store that all leave. -/
theorem Session.Inv.insertPaths_firstWrites {s : Session} (hinv : s.Inv) {a : ActiveVersion}
    (hactive : s.marf.active = some a) (writes : List Write) :
    ∃ updated, insertAll s.marf.storage a.rootChildren writes = .ok updated ∧
      s.marf.insertPaths writes = .ok (s.marf.withRoot a updated) ∧
      s.marf.insertPaths (firstWrites writes) = .ok (s.marf.withRoot a updated) := by
  obtain ⟨d, -, hlaw⟩ := hinv.activeLaw hactive
  obtain ⟨updated, hupdated, -, -, -⟩ :=
    insertAll_spec hinv.coherent writes hlaw.wf hlaw.staged
  refine ⟨updated, hupdated, ?_, ?_⟩
  · rw [insertPaths_eq hactive, hupdated]
    rfl
  · rw [insertPaths_eq hactive, insertAll_firstWrites hupdated]
    rfl

theorem Session.Inv.rootAfter_firstWrites {s : Session} (hinv : s.Inv) (sha : Digest)
    (writes : List Write) (block : MarfBlockId) :
    s.marf.rootAfter sha (firstWrites writes) block = s.marf.rootAfter sha writes block := by
  unfold rootAfter
  cases hactive : s.marf.active with
  | none =>
    rw [insertPaths_of_none hactive, insertPaths_of_none hactive]
    cases writes with
    | nil => simp [firstWrites]
    | cons head writes =>
      obtain ⟨path, value⟩ := head
      simp [firstWrites]
  | some a =>
    obtain ⟨updated, -, hall, hfirst⟩ := hinv.insertPaths_firstWrites hactive writes
    rw [hall, hfirst]

/-- The root a version seals to is a function of the order in which its paths are first written and
of their last values. Whatever a session has done, leaving out every write of a path but the first
and giving that one the last value seals to the same root under every id; so do any two lists of
writes with the same first writes. In an open version the writes succeed, both lists leave the very
same store, and writing a written path again leaves the shape of its trie. -/
theorem sealed_root_of_firstWrites (sha : Digest) (path : Option String) (ops : List MarfOp)
    (writes : List Write) :
    let m := (Session.after sha path ops).marf
    (∀ block, m.rootAfter sha (firstWrites writes) block = m.rootAfter sha writes block) ∧
    (∀ others, firstWrites others = firstWrites writes →
      ∀ block, m.rootAfter sha others block = m.rootAfter sha writes block) ∧
    (m.active.isSome → ∃ m', m.insertPaths writes = .ok m' ∧
      m.insertPaths (firstWrites writes) = .ok m' ∧
      ∀ written ∈ writes.map (·.1), ∀ value, ∃ m'',
        m'.insertPath written value = .ok m'' ∧ m''.shape = m'.shape) := by
  have hinv := Session.after_inv sha path ops
  refine ⟨hinv.rootAfter_firstWrites sha writes, fun others hothers block => ?_, fun hactive => ?_⟩
  · rw [← hinv.rootAfter_firstWrites sha others, hothers, hinv.rootAfter_firstWrites sha writes]
  · obtain ⟨a, hactive⟩ := Option.isSome_iff_exists.1 hactive
    obtain ⟨updated, hupdated, hall, hfirst⟩ := hinv.insertPaths_firstWrites hactive writes
    refine ⟨_, hall, hfirst, fun written hmem value => ?_⟩
    have hwritten := owns_of_insertAll hupdated (.inr hmem)
    exact ⟨_, insertPath_written (m := withRoot _ a updated) rfl hwritten value⟩

end NanoStacks.Marf
