import NanoStacks.Marf.Basic

/-!
# Node records

The bytes a node row holds. A leaf is `0`, the length of its path, the path and the value; an
internal node is `1`, its path and, for each child, a kind byte whose high bit marks a back-pointer,
the child's character, and the block and index it is stored under.

A record says less than a node: a child without the back-pointer bit is read back as belonging to the
block the record itself is filed under, and one with it as naming the hash of the block row it
targets. `Filed` says that a node already has that shape. Every node that `decode` returns is filed
(`decode_filed`), and a filed node survives the trip through its bytes (`decode_encode_filed`).
-/

namespace NanoStacks.Marf

open Result List

def leafRecord : UInt8 := 0
def internalRecord : UInt8 := 1

def corrupt (what : String) : MarfError :=
  .storage s!"trie storage holds an invalid {what}"

def missing (what : String) : MarfError :=
  .storage s!"trie storage is missing {what}"

/-! ## Writing -/

def pathLength (path : List UInt8) : Except MarfError UInt8 :=
  if path.length < 256 then .ok (UInt8.ofNat path.length) else .error .invalidPath

def encodeChild (child : TrieChild) : Except MarfError (List UInt8) :=
  match child.target with
  | .memory _ => .error (.storage "trie child was not persisted before its parent")
  | .stored block index kind =>
    .ok (pointerByte kind child.referencedBlock.isSome :: child.character ::
      (toLe 4 block ++ toLe 4 index))

def encode : TrieNode → Except MarfError (List UInt8)
  | .leaf path value => do
    let length ← pathLength path
    return leafRecord :: length :: (path ++ value.toList)
  | .internal path children => do
    let length ← pathLength path
    ensure (children.length < 2 ^ 16) (corrupt "node has too many children")
    let children' ← children.mapM encodeChild
    return internalRecord :: length :: (path ++ (toLe 2 children.length ++ children'.flatten))

/-! ## Reading -/

/-- `Reader::take`. -/
def Reader.take (length : Nat) (bytes : List UInt8) : Except MarfError (List UInt8 × List UInt8) :=
  okOr (takeBytes length bytes) (corrupt "node record")

def Reader.byte : List UInt8 → Except MarfError (UInt8 × List UInt8)
  | [] => .error (corrupt "node record")
  | b :: rest => .ok (b, rest)

def Reader.path (bytes : List UInt8) : Except MarfError (List UInt8 × List UInt8) := do
  let (length, bytes) ← Reader.byte bytes
  ensure (length.toNat ≤ 32) .invalidPath
  Reader.take length.toNat bytes

section
variable (blockHash : Nat → Except MarfError MarfBlockId) (block : Nat)

def decodeChild (bytes : List UInt8) : Except MarfError (TrieChild × List UInt8) := do
  let (flags, bytes) ← Reader.byte bytes
  let (character, bytes) ← Reader.byte bytes
  let (target, bytes) ← Reader.take 4 bytes
  let (index, bytes) ← Reader.take 4 bytes
  let kind ← TrieNodeId.fromByte (flags &&& ~~~backPointer)
  if flags &&& backPointer = 0 then
    return (⟨character, none, .stored block (ofLe index) kind⟩, bytes)
  else
    let referenced ← blockHash (ofLe target)
    return (⟨character, some referenced, .stored (ofLe target) (ofLe index) kind⟩, bytes)

def decodeChildren : Nat → List UInt8 → Except MarfError (List TrieChild × List UInt8)
  | 0, bytes => .ok ([], bytes)
  | count + 1, bytes => do
    let (child, bytes) ← decodeChild blockHash block bytes
    let (children, bytes) ← decodeChildren count bytes
    return (child :: children, bytes)

def decode (bytes : List UInt8) : Except MarfError TrieNode := do
  let (kind, bytes) ← Reader.byte bytes
  let (path, bytes) ← Reader.path bytes
  if kind = leafRecord then
    let (value, _) ← Reader.take 40 bytes
    let value ← okOr (Bytes.ofList? 40 value) (corrupt "leaf value")
    return .leaf path value
  else
    ensure (kind = internalRecord) (corrupt "node record kind")
    let (count, bytes) ← Reader.take 2 bytes
    let (children, _) ← decodeChildren blockHash block (ofLe count) bytes
    return .internal path children

/-! ## What a record can say -/

/-- The child is stored, and names its owner the way a record of `block` would be read back. -/
def TrieChild.Filed (child : TrieChild) : Prop :=
  match child.target with
  | .memory _ => False
  | .stored target index _ => target < 2 ^ 32 ∧ index < 2 ^ 32 ∧
    match child.referencedBlock with
    | none => target = block
    | some hash => blockHash target = .ok hash

def TrieNode.Filed : TrieNode → Prop
  | .leaf path _ => path.length ≤ 32
  | .internal path children => path.length ≤ 32 ∧ ∀ child ∈ children, child.Filed blockHash block

variable {blockHash block}

@[simp] theorem Reader.take_append (front rest : List UInt8) {n : Nat} (h : front.length = n) :
    Reader.take n (front ++ rest) = .ok (front, rest) := by
  simp [Reader.take, takeBytes_append front rest h]

variable {bytes rest : List UInt8}

theorem Reader.take_length {n : Nat} {front : List UInt8}
    (h : Reader.take n bytes = .ok (front, rest)) : front.length = n :=
  takeBytes_length (okOr_eq_ok.1 h)

theorem Reader.path_append {path : List UInt8} (h : path.length ≤ 32) :
    Reader.path (UInt8.ofNat path.length :: (path ++ rest)) = .ok (path, rest) := by
  have hlen : (UInt8.ofNat path.length).toNat = path.length := by
    rw [UInt8.toNat_ofNat']; omega
  simp [Reader.path, Reader.byte, hlen, h]

theorem Reader.path_length {path : List UInt8} (h : Reader.path bytes = .ok (path, rest)) :
    path.length ≤ 32 := by
  simp only [Reader.path, bind_eq_ok, Prod.exists, ensure_eq_ok] at h
  obtain ⟨length, bytes', -, -, hlong, h⟩ := h
  exact (Reader.take_length h).trans_le hlong

theorem pointerByte_kind (kind : TrieNodeId) (referenced : Bool) :
    pointerByte kind referenced &&& ~~~backPointer = kind.toByte := by
  cases kind <;> cases referenced <;> decide

theorem pointerByte_back (kind : TrieNodeId) (referenced : Bool) :
    pointerByte kind referenced &&& backPointer = 0 ↔ referenced = false := by
  cases kind <;> cases referenced <;> decide

variable {child : TrieChild}

theorem decodeChild_encodeChild (h : child.Filed blockHash block)
    (henc : encodeChild child = .ok bytes) (rest : List UInt8) :
    decodeChild blockHash block (bytes ++ rest) = .ok (child, rest) := by
  obtain ⟨character, referenced, target⟩ := child
  cases target with
  | memory node => exact h.elim
  | stored target index kind =>
    obtain ⟨htarget, hindex, howner⟩ := h
    have hle : ∀ n : Nat, n < 2 ^ 32 → ofLe (toLe 4 n) = n := fun n hn => ofLe_toLe (by simpa using hn)
    simp only [encodeChild, Except.ok.injEq] at henc
    subst henc
    simp only [cons_append, append_assoc, decodeChild, Reader.byte, ok_bind,
      Reader.take_append _ _ (length_toLe _ _), pointerByte_kind, TrieNodeId.fromByte_toByte,
      pointerByte_back, hle target htarget, hle index hindex]
    cases referenced with
    | none => simp_all
    | some hash => simp_all

variable {children : List TrieChild}

theorem decodeChildren_encode (h : ∀ child ∈ children, child.Filed blockHash block)
    {bytes : List (List UInt8)} (henc : children.mapM encodeChild = .ok bytes) (rest : List UInt8) :
    decodeChildren blockHash block children.length (bytes.flatten ++ rest)
      = .ok (children, rest) := by
  induction children generalizing bytes with
  | nil =>
    simp only [mapM_nil, return_eq_ok] at henc
    subst henc
    rfl
  | cons child children ih =>
    simp only [mapM_cons, bind_eq_ok] at henc
    obtain ⟨head, hhead, tail, htail, ⟨⟩⟩ := henc
    have hchild := decodeChild_encodeChild (h child (by simp)) hhead (tail.flatten ++ rest)
    simp only [flatten_cons, append_assoc, length_cons, decodeChildren, hchild,
      ok_bind, ih (fun c hc => h c (by simp [hc])) htail, pure_eq_ok]

variable {node : TrieNode}

/-- **A filed node survives the trip through its record.** -/
theorem decode_encode_filed (h : node.Filed blockHash block) (henc : encode node = .ok bytes) :
    decode blockHash block bytes = .ok node := by
  cases node with
  | leaf path value =>
    have hpath : path.length ≤ 32 := h
    simp only [encode, pathLength, if_pos (show path.length < 256 by omega), ok_bind, return_eq_ok] at henc
    subst henc
    have hvalue : Reader.take 40 value.toList = .ok (value.toList, []) := by
      simpa using Reader.take_append value.toList [] value.length_toList
    simp [decode, Reader.byte, Reader.path_append hpath, hvalue]
  | internal path children =>
    obtain ⟨hpath, hchildren⟩ := h
    simp only [encode, pathLength, if_pos (show path.length < 256 by omega), ok_bind, bind_eq_ok,
      ensure_eq_ok] at henc
    obtain ⟨-, hcount, bytes', hbytes', ⟨⟩⟩ := henc
    have hdec := decodeChildren_encode hchildren hbytes' []
    have hle : ofLe (toLe 2 children.length) = children.length := ofLe_toLe (by simpa using hcount)
    simp only [append_nil] at hdec
    simp [decode, Reader.byte, Reader.path_append hpath, hle, hdec, leafRecord, internalRecord]

/-! ## Every decoded node is filed -/

theorem decodeChild_filed (hblock : block < 2 ^ 32)
    (h : decodeChild blockHash block bytes = .ok (child, rest)) : child.Filed blockHash block := by
  simp only [decodeChild, bind_eq_ok, Prod.exists] at h
  obtain ⟨flags, _, -, character, _, -, target, _, htarget, index, _, hindex, kind, -, h⟩ := h
  have hlt : ∀ {l r r' : List UInt8}, Reader.take 4 l = .ok (r, r') → ofLe r < 2 ^ 32 := by
    intro l r r' hl
    simpa [Reader.take_length hl] using ofLe_lt r
  split_ifs at h with hback
  · simp only [return_eq_ok, Prod.mk.injEq] at h
    obtain ⟨rfl, -⟩ := h
    exact ⟨hblock, hlt hindex, rfl⟩
  · simp only [bind_eq_ok] at h
    obtain ⟨hash, hhash, ⟨⟩⟩ := h
    exact ⟨hlt htarget, hlt hindex, hhash⟩

theorem decodeChildren_filed (hblock : block < 2 ^ 32) {count : Nat}
    (h : decodeChildren blockHash block count bytes = .ok (children, rest)) :
    ∀ child ∈ children, child.Filed blockHash block := by
  induction count generalizing bytes rest children with
  | zero =>
    simp only [decodeChildren, Except.ok.injEq, Prod.mk.injEq] at h
    simp [← h.1]
  | succ count ih =>
    simp only [decodeChildren, bind_eq_ok, Prod.exists] at h
    obtain ⟨child, _, hchild, tail, _, htail, ⟨⟩⟩ := h
    intro c hc
    rcases mem_cons.1 hc with rfl | hc
    · exact decodeChild_filed hblock hchild
    · exact ih htail c hc

theorem decode_filed (hblock : block < 2 ^ 32) (h : decode blockHash block bytes = .ok node) :
    node.Filed blockHash block := by
  simp only [decode, bind_eq_ok, Prod.exists] at h
  obtain ⟨kind, _, -, path, _, hpath, h⟩ := h
  split_ifs at h
  · simp only [bind_eq_ok, Prod.exists] at h
    obtain ⟨-, -, -, value, -, ⟨⟩⟩ := h
    exact Reader.path_length hpath
  · simp only [bind_eq_ok, Prod.exists] at h
    obtain ⟨-, -, count, _, -, children, _, hchildren, ⟨⟩⟩ := h
    exact ⟨Reader.path_length hpath, decodeChildren_filed hblock hchildren⟩

/-! ## Reading a record against another block table -/

variable {blockHash' : Nat → Except MarfError MarfBlockId}

theorem decodeChild_congr (h : decodeChild blockHash block bytes = .ok (child, rest))
    (hfiled : child.Filed blockHash' block) :
    decodeChild blockHash' block bytes = .ok (child, rest) := by
  simp only [decodeChild, bind_eq_ok, Prod.exists] at h ⊢
  obtain ⟨flags, b₁, h₁, character, b₂, h₂, target, b₃, h₃, index, b₄, h₄, kind, hkind, h⟩ := h
  refine ⟨flags, b₁, h₁, character, b₂, h₂, target, b₃, h₃, index, b₄, h₄, kind, hkind, ?_⟩
  split_ifs at h ⊢ with hback
  · exact h
  · simp only [bind_eq_ok, return_eq_ok, Prod.mk.injEq] at h ⊢
    obtain ⟨hash, -, rfl, rfl⟩ := h
    exact ⟨hash, hfiled.2.2, rfl, rfl⟩

theorem decodeChildren_congr {count : Nat}
    (h : decodeChildren blockHash block count bytes = .ok (children, rest))
    (hfiled : ∀ child ∈ children, child.Filed blockHash' block) :
    decodeChildren blockHash' block count bytes = .ok (children, rest) := by
  induction count generalizing bytes rest children with
  | zero => exact h
  | succ count ih =>
    simp only [decodeChildren, bind_eq_ok, Prod.exists, return_eq_ok, Prod.mk.injEq] at h ⊢
    obtain ⟨child, b₁, hchild, tail, b₂, htail, rfl, rfl⟩ := h
    exact ⟨child, b₁, decodeChild_congr hchild (hfiled child (by simp)), tail, b₂,
      ih htail (fun c hc => hfiled c (by simp [hc])), rfl, rfl⟩

theorem decode_congr (h : decode blockHash block bytes = .ok node)
    (hfiled : node.Filed blockHash' block) : decode blockHash' block bytes = .ok node := by
  simp only [decode, bind_eq_ok, Prod.exists] at h ⊢
  obtain ⟨kind, b₁, h₁, path, b₂, h₂, h⟩ := h
  refine ⟨kind, b₁, h₁, path, b₂, h₂, ?_⟩
  split_ifs at h ⊢
  · exact h
  · simp only [bind_eq_ok, Prod.exists, return_eq_ok] at h ⊢
    obtain ⟨u, hu, count, b₃, h₃, children, b₄, hchildren, rfl⟩ := h
    exact ⟨u, hu, count, b₃, h₃, children, b₄, decodeChildren_congr hchildren hfiled.2, rfl⟩

theorem TrieNode.Filed.mono (h : node.Filed blockHash block)
    (hkeep : ∀ id hash, blockHash id = .ok hash → blockHash' id = .ok hash) :
    node.Filed blockHash' block := by
  cases node with
  | leaf path value => exact h
  | internal path children =>
    refine ⟨h.1, fun child hchild => ?_⟩
    obtain ⟨character, referenced, target⟩ := child
    cases target with
    | memory node => exact h.2 _ hchild
    | stored target index kind =>
      obtain ⟨htarget, hindex, howner⟩ := h.2 _ hchild
      cases referenced with
      | none => exact ⟨htarget, hindex, howner⟩
      | some hash => exact ⟨htarget, hindex, hkeep _ _ howner⟩

theorem decode_mono (hblock : block < 2 ^ 32) (h : decode blockHash block bytes = .ok node)
    (hkeep : ∀ id hash, blockHash id = .ok hash → blockHash' id = .ok hash) :
    decode blockHash' block bytes = .ok node :=
  decode_congr h ((decode_filed hblock h).mono hkeep)

end

end NanoStacks.Marf
