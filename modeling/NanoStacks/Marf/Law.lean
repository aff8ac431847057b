import NanoStacks.Marf.Session

/-!
# Every state answers its own writes, and its parent's otherwise

The invariant of a session: the store is coherent, every sealed state has a well-formed root that
points only at states no higher than itself, the state being written points only at lower ones, and
both answer what the record of their writes says.

The steps fall into three kinds. Caches may change while the tables stay (`Evolves` with every height
alive and the same rows); sealing adds one row and files nodes under it; discarding removes the rows
above a height. In each case the states that stay keep their rows, the rows of everything they point
at, and hence their answers (`Evolves.getPath`).
-/

namespace NanoStacks.Marf

open Result Versions Session TrieStorage Option

/-! ## Stored roots -/

/-- The pairs filed under states no higher than `height`. -/
def below (st : TrieStorage) (height b _i : Nat) : Prop :=
  ∃ row ∈ st.blockRows, row.id = b ∧ row.height ≤ height

/-- The pairs filed under states lower than `height`. -/
def under (st : TrieStorage) (height b _i : Nat) : Prop :=
  ∃ row ∈ st.blockRows, row.id = b ∧ row.height < height

/-- `children` are the children of the stored root of a state. -/
def Rooted (st : TrieStorage) (row : BlockRow) (children : List TrieChild) : Prop :=
  ∃ index, row.node = some index ∧ st.node row.id index = .ok (.internal [] children) ∧
    Wf st (below st row.height) 32 (.internal [] children)

variable {m : VersionedMarf} {children : List TrieChild} {row : BlockRow}

theorem getPath_of_rooted (hst : m.storage.Coherent) (hrow : row ∈ m.storage.blockRows)
    (hroot : Rooted m.storage row children) (path : TriePath) :
    ∃ value, m.getPath row.hash path = .ok value ∧
      findPath m.storage children path = .ok value := by
  obtain ⟨index, hindex, hnode, hwf⟩ := hroot
  obtain ⟨value, hvalue⟩ := findPath_ok hwf path
  have hblock : m.storage.block row.hash = some row.toBlockRecord :=
    hst.block_eq_some.2 ⟨row, hrow, rfl, rfl⟩
  refine ⟨value, ?_, hvalue⟩
  rw [findPath_eq_lookup hwf] at hvalue
  simp [VersionedMarf.getPath, VersionedMarf.sealedRoot, hblock, hindex, hnode, hvalue,
    Except.mapError]

variable {block : MarfBlockId}

theorem getPath_of_absent (hst : m.storage.Coherent)
    (h : ¬∃ row ∈ m.storage.blockRows, row.hash = block) (path : TriePath) :
    m.getPath block path = .ok none := by
  have hblock : m.storage.block block = none := by
    rw [eq_none_iff_forall_ne_some]
    intro record hrecord
    obtain ⟨row, hrow, hhash, -⟩ := hst.block_eq_some.1 hrecord
    exact h ⟨row, hrow, hhash⟩
  simp [VersionedMarf.getPath, VersionedMarf.sealedRoot, hblock, Except.mapError]

/-! ## Stores that keep what is below a height -/

/-- The states at heights that are `alive` keep their row and the rows of their nodes. -/
structure Evolves (alive : Nat → Prop) (st st' : TrieStorage) : Prop where
  down : ∀ {h h'}, h' ≤ h → alive h → alive h'
  kept : ∀ row ∈ st.blockRows, alive row.height → row ∈ st'.blockRows
  rows : ∀ row ∈ st.blockRows, alive row.height → ∀ i, st'.nodeRows row.id i = st.nodeRows row.id i

namespace Evolves

variable {alive : Nat → Prop} {st st' : TrieStorage}

theorem keeps (h : Evolves alive st st') (hst : st.Coherent) (hst' : st'.Coherent) (height : Nat)
    (halive : alive height) : Keeps (below st height) st st' := by
  constructor
  · rintro b i ⟨row, hrow, rfl, hle⟩
    exact h.rows row hrow (h.down hle halive) i
  · rintro b i hash ⟨row, hrow, rfl, hle⟩ hhash
    obtain ⟨row', hrow', hid, rfl⟩ := hst.blockHash_eq_ok.1 hhash
    obtain rfl := hst.row_eq_of_id hrow hrow' hid.symm
    exact hst'.blockHash_eq_ok.2 ⟨row, h.kept row hrow (h.down hle halive), rfl, rfl⟩

theorem below_mono (h : Evolves alive st st') {height : Nat} (halive : alive height) (b i : Nat)
    (hb : below st height b i) : below st' height b i := by
  obtain ⟨row, hrow, hid, hle⟩ := hb
  exact ⟨row, h.kept row hrow (h.down hle halive), hid, hle⟩

theorem rooted (h : Evolves alive st st') (hst : st.Coherent) (hst' : st'.Coherent)
    {children : List TrieChild} (hrow : row ∈ st.blockRows) (halive : alive row.height)
    (hroot : Rooted st row children) :
    Rooted st' row children ∧ ∀ path, findPath st' children path = findPath st children path := by
  obtain ⟨index, hindex, hnode, hwf⟩ := hroot
  have hkeep := h.keeps hst hst' row.height halive
  have hself : below st row.height row.id index := ⟨row, hrow, rfl, Nat.le_refl _⟩
  have hwf' := (hwf.transport hst hst' hkeep).1
  exact ⟨⟨index, hindex, hwf.node_kept hst hst' hkeep hself hnode,
    hwf'.mono fun b i => h.below_mono halive b i⟩, fun path => hwf.findPath_kept hst hst' hkeep path⟩

/-- **A state that stays answers as before.** -/
theorem getPath {m m' : VersionedMarf} (h : Evolves alive m.storage m'.storage)
    (hst : m.storage.Coherent) (hst' : m'.storage.Coherent) {children : List TrieChild}
    (hrow : row ∈ m.storage.blockRows) (halive : alive row.height)
    (hroot : Rooted m.storage row children) (path : TriePath) :
    m'.getPath row.hash path = m.getPath row.hash path := by
  obtain ⟨hroot', hreads⟩ := h.rooted hst hst' hrow halive hroot
  obtain ⟨value, hget, hvalue⟩ := getPath_of_rooted hst hrow hroot path
  obtain ⟨value', hget', hvalue'⟩ :=
    getPath_of_rooted hst' (h.kept row hrow halive) hroot' path
  rw [hreads path, hvalue] at hvalue'
  rw [hget, hget', Except.ok.inj hvalue']

end Evolves

/-! ## The invariant -/

/-- What a state inherits for a path from the parent it was begun from. -/
def Inherits (m : VersionedMarf) (parent : Option MarfBlockId) (path : TriePath)
    (inherited : Option MarfValue) : Prop :=
  match parent with
  | none => inherited = none
  | some parent => m.getPath parent path = .ok inherited

/-- The state being written is well formed and answers what its draft says. -/
structure ActiveLaw (m : VersionedMarf) (active : ActiveVersion) (draft : MarfDraft) : Prop where
  parent_eq : active.parent = draft.parent
  block_eq : active.block = draft.block
  height_eq : active.height = draft.height
  wf : Wf m.storage (under m.storage active.height) 32 (.internal [] active.rootChildren)
  staged : StagedList m.storage.blockHash active.rootChildren
  parent_row : ∀ parent, draft.parent = some parent →
    ∃ row ∈ m.storage.blockRows, row.hash = parent ∧ row.height < active.height
  law : ∀ path, ∃ inherited, Inherits m draft.parent path inherited ∧
    findPath m.storage active.rootChildren path = .ok ((lastWrite draft.writes path).or inherited)

structure Session.Inv (s : Session) : Prop where
  coherent : s.marf.storage.Coherent
  rooted : ∀ row ∈ s.marf.storage.blockRows, ∃ children, Rooted s.marf.storage row children
  heights : ∀ b height, (∃ d, s.book b = some d ∧ d.height = height) ↔
    ∃ row ∈ s.marf.storage.blockRows, row.hash = b ∧ row.height = height
  parents : ∀ row ∈ s.marf.storage.blockRows, ∀ d parent, s.book row.hash = some d →
    d.parent = some parent →
    ∃ row' ∈ s.marf.storage.blockRows, row'.hash = parent ∧ row'.height < row.height
  law : ∀ b d, s.book b = some d → ∀ path, ∃ inherited, Inherits s.marf d.parent path inherited ∧
    s.marf.getPath b path = .ok ((lastWrite d.writes path).or inherited)
  drafted : s.draft.isSome = s.marf.active.isSome
  active : ∀ a d, s.marf.active = some a → s.draft = some d → ActiveLaw s.marf a d
  held : ∀ x ∈ s.held, ∃ a d, x.1.active = some a ∧ s.draft = some d ∧
    ActiveLaw s.marf a { d with writes := x.2 }

/-- The states both sessions hold answer alike. -/
def SameAnswers (s s' : Session) : Prop :=
  ∀ b, (s.book b).isSome → (s'.book b).isSome → ∀ path, s'.marf.getPath b path = s.marf.getPath b path

theorem Session.Inv.booked {s : Session} (hinv : s.Inv) (b : MarfBlockId) :
    (s.book b).isSome ↔ ∃ row ∈ s.marf.storage.blockRows, row.hash = b := by
  rw [isSome_iff_exists]
  constructor
  · rintro ⟨d, hd⟩
    obtain ⟨row, hrow, hhash, -⟩ := (hinv.heights b d.height).1 ⟨d, hd, rfl⟩
    exact ⟨row, hrow, hhash⟩
  · rintro ⟨row, hrow, hhash⟩
    obtain ⟨d, hd, -⟩ := (hinv.heights b row.height).2 ⟨row, hrow, hhash, rfl⟩
    exact ⟨d, hd⟩

theorem Session.Inv.height_eq {s : Session} (hinv : s.Inv) (b : MarfBlockId) :
    (s.book b).map (·.height) = s.marf.height b := by
  ext height
  rw [VersionedMarf.height, map_eq_some_iff, hinv.heights, map_eq_some_iff]
  simp only [hinv.coherent.block_eq_some]
  grind

theorem Session.start_inv (path : Option String) : (Session.start path).Inv where
  coherent := empty_coherent
  rooted := by simp [start, VersionedMarf.empty, empty]
  heights := by simp [start, VersionedMarf.empty, empty]
  parents := by simp [start, VersionedMarf.empty, empty]
  law := by simp [start]
  drafted := rfl
  active := by simp [start]
  held := by simp [start]

/-! ## Steps that keep every row -/

variable {m' : VersionedMarf} {parent : Option MarfBlockId} {inherited : Option MarfValue}

theorem Inherits.evolve {alive : Nat → Prop} (h : Evolves alive m.storage m'.storage)
    (hst : m.storage.Coherent) (hst' : m'.storage.Coherent)
    (hrooted : ∀ row ∈ m.storage.blockRows, ∃ children, Rooted m.storage row children)
    {path : TriePath}
    (hparent : ∀ p, parent = some p → ∃ row ∈ m.storage.blockRows, row.hash = p ∧ alive row.height)
    (hin : Inherits m parent path inherited) : Inherits m' parent path inherited := by
  cases parent with
  | none => exact hin
  | some parent =>
    obtain ⟨row, hrow, rfl, halive⟩ := hparent parent rfl
    obtain ⟨children, hroot⟩ := hrooted row hrow
    exact (h.getPath hst hst' hrow halive hroot path).trans hin

variable {st : TrieStorage} {height : Nat}

theorem under_below {b i : Nat} (h : under st height b i) : below st height b i := by
  obtain ⟨row, hrow, hid, hlt⟩ := h
  exact ⟨row, hrow, hid, hlt.le⟩

variable {a : ActiveVersion} {d : MarfDraft}

theorem ActiveLaw.evolve (h : Evolves (fun _ => True) m.storage m'.storage)
    (hst : m.storage.Coherent) (hst' : m'.storage.Coherent)
    (hrooted : ∀ row ∈ m.storage.blockRows, ∃ children, Rooted m.storage row children)
    (hactive : ActiveLaw m a d) : ActiveLaw m' a d := by
  have hkeep : Keeps (under m.storage a.height) m.storage m'.storage := by
    have hkeep := h.keeps hst hst' a.height trivial
    exact ⟨fun b i hb => hkeep.rows b i (under_below hb),
      fun b i hash hb => hkeep.hashes b i hash (under_below hb)⟩
  refine ⟨hactive.parent_eq, hactive.block_eq, hactive.height_eq, ?_, ?_, ?_, ?_⟩
  · refine (hactive.wf.transport hst hst' hkeep).1.mono fun b i hb => ?_
    obtain ⟨row, hrow, hid, hlt⟩ := hb
    exact ⟨row, h.kept row hrow trivial, hid, hlt⟩
  · refine stagedList_mono (fun id hash hid => ?_) hactive.staged
    obtain ⟨row, hrow, rfl, rfl⟩ := hst.blockHash_eq_ok.1 hid
    exact hst'.blockHash_eq_ok.2 ⟨row, h.kept row hrow trivial, rfl, rfl⟩
  · intro parent hparent
    obtain ⟨row, hrow, hhash, hlt⟩ := hactive.parent_row parent hparent
    exact ⟨row, h.kept row hrow trivial, hhash, hlt⟩
  · intro path
    obtain ⟨inherited, hin, hfind⟩ := hactive.law path
    refine ⟨inherited, hin.evolve h hst hst' hrooted ?_, ?_⟩
    · intro parent hparent
      obtain ⟨row, hrow, hhash, -⟩ := hactive.parent_row parent hparent
      exact ⟨row, hrow, hhash, trivial⟩
    · rw [hactive.wf.findPath_kept hst hst' hkeep, hfind]

variable {st' : TrieStorage}

theorem evolves_sameTables (h : TrieStorage.SameTables st st') :
    Evolves (fun _ => True) st st' where
  down := fun _ _ => trivial
  kept := fun row hrow _ => h.1 ▸ hrow
  rows := fun row _ _ i => by rw [h.2.2]

variable {s : Session}

/-- What the invariant says of a sealed state still holds where the state stays. -/
theorem Session.Inv.kept {alive : Nat → Prop} (hinv : s.Inv)
    (hev : Evolves alive s.marf.storage m'.storage) (hst' : m'.storage.Coherent)
    (hrow : row ∈ s.marf.storage.blockRows) (halive : alive row.height) :
    (∃ children, Rooted m'.storage row children) ∧
      (∀ path, m'.getPath row.hash path = s.marf.getPath row.hash path) ∧
      ∀ d, s.book row.hash = some d →
        (∀ parent, d.parent = some parent →
          ∃ row' ∈ m'.storage.blockRows, row'.hash = parent ∧ row'.height < row.height) ∧
        ∀ path, ∃ inherited, Inherits m' d.parent path inherited ∧
          m'.getPath row.hash path = .ok ((lastWrite d.writes path).or inherited) := by
  obtain ⟨children, hroot⟩ := hinv.rooted row hrow
  have hget := hev.getPath hinv.coherent hst' hrow halive hroot
  refine ⟨⟨children, (hev.rooted hinv.coherent hst' hrow halive hroot).1⟩, hget, fun d hd =>
    ⟨fun parent hparent => ?_, fun path => ?_⟩⟩
  · obtain ⟨row', hrow', hhash, hlt⟩ := hinv.parents row hrow d parent hd hparent
    exact ⟨row', hev.kept row' hrow' (hev.down hlt.le halive), hhash, hlt⟩
  · obtain ⟨inherited, hin, hlaw⟩ := hinv.law _ d hd path
    refine ⟨inherited, hin.evolve hev hinv.coherent hst' hinv.rooted fun parent hparent => ?_,
      (hget path).trans hlaw⟩
    obtain ⟨row', hrow', hhash, hlt⟩ := hinv.parents row hrow d parent hd hparent
    exact ⟨row', hrow', hhash, hev.down hlt.le halive⟩

theorem Session.Inv.withStorage (hinv : s.Inv) (hst' : st'.Coherent)
    (h : TrieStorage.SameTables s.marf.storage st') :
    (s.withStorage st').Inv ∧ SameAnswers s (s.withStorage st') := by
  have hev : Evolves (fun _ => True) s.marf.storage (s.withStorage st').marf.storage :=
    evolves_sameTables h
  have hrows : (s.withStorage st').marf.storage.blockRows = s.marf.storage.blockRows := h.1
  have hbook : ∀ b, (s.book b).isSome → ∃ row ∈ s.marf.storage.blockRows, row.hash = b :=
    fun b hb => (hinv.booked b).1 hb
  refine ⟨⟨hst', ?_, hrows ▸ hinv.heights, hrows ▸ hinv.parents, ?_, hinv.drafted, ?_, ?_⟩, ?_⟩
  · exact fun row hrow => (hinv.kept hev hst' (hrows ▸ hrow) trivial).1
  · intro b d hd path
    obtain ⟨row, hrow, rfl⟩ := hbook b (isSome_of_eq_some hd)
    exact ((hinv.kept hev hst' hrow trivial).2.2 d hd).2 path
  · intro a d ha hd
    exact (hinv.active a d ha hd).evolve hev hinv.coherent hst' hinv.rooted
  · intro x hx
    obtain ⟨a, d, ha, hd, hlaw⟩ := hinv.held x hx
    exact ⟨a, d, ha, hd, hlaw.evolve hev hinv.coherent hst' hinv.rooted⟩
  · intro b hb _ path
    obtain ⟨row, hrow, rfl⟩ := hbook b hb
    exact (hinv.kept hev hst' hrow trivial).2.1 path

/-! ## Writing -/

theorem insertAll_spec {own : Nat → Nat → Prop} (hst : st.Coherent) (writes : List Write)
    (hwf : Wf st own 32 (.internal [] children)) (hstaged : StagedList st.blockHash children) :
    ∃ updated, insertAll st children writes = .ok updated ∧ Wf st own 32 (.internal [] updated) ∧
      StagedList st.blockHash updated ∧ ∀ path value, findPath st children path = .ok value →
        findPath st updated path = .ok ((lastWrite writes path).or value) := by
  induction writes generalizing children with
  | nil => exact ⟨children, rfl, hwf, hstaged, fun path value h => h⟩
  | cons head writes ih =>
    obtain ⟨path, value⟩ := head
    obtain ⟨mid, hmid, hwf', hstaged', hwritten⟩ := insertUnderRoot_spec hst hwf hstaged path value
    obtain ⟨updated, hupdated, hwf'', hstaged'', hlaw⟩ := ih hwf' hstaged'
    refine ⟨updated, by simp [insertAll, hmid, hupdated], hwf'', hstaged'', fun q old hold => ?_⟩
    by_cases hq : q = path
    · rw [hlaw q (some value) (by rw [hwritten, if_pos hq]), lastWrite, if_pos hq]
      cases lastWrite writes q <;> rfl
    · rw [hlaw q old (by rw [hwritten, if_neg hq, hold]), lastWrite, if_neg hq]
      cases lastWrite writes q <;> rfl

theorem inherit_spec (hst : m.storage.Coherent)
    (hrooted : ∀ row ∈ m.storage.blockRows, ∃ children, Rooted m.storage row children)
    (h : m.inherit parent = .ok (children, height)) :
    Wf m.storage (under m.storage height) 32 (.internal [] children) ∧
      StagedList m.storage.blockHash children ∧
      (∀ p, parent = some p → ∃ row ∈ m.storage.blockRows, row.hash = p ∧ row.height < height) ∧
      ∀ path, ∃ inherited, Inherits m parent path inherited ∧
        findPath m.storage children path = .ok inherited := by
  cases parent with
  | none =>
    simp only [VersionedMarf.inherit] at h
    obtain ⟨⟨⟩⟩ := h
    have hwf : Wf m.storage (under m.storage 0) 32 (.internal [] []) :=
      .internal [] [] 31 List.nodup_nil (by simp) (by simp) (by simp)
    refine ⟨hwf, trivial, by simp, fun path => ⟨none, rfl, ?_⟩⟩
    obtain ⟨c, rest, hpath, -⟩ := path.exists_cons
    simp [findPath, hpath]
  | some parent =>
    simp only [VersionedMarf.inherit, bind_eq_ok, okOr_eq_ok, ensure_eq_ok, return_eq_ok, Prod.mk.injEq] at h
    obtain ⟨record, hrecord, copied, hcopied, -, -, rfl, rfl⟩ := h
    obtain ⟨row, hrow, rfl, rfl⟩ := hst.block_eq_some.1 hrecord
    obtain ⟨stored, hroot⟩ := hrooted row hrow
    obtain ⟨index, hindex, hnode, hwf⟩ := id hroot
    obtain rfl : copied = prepareRootForCopy stored row.hash := by
      simpa [extendRoot, hindex, hnode, eq_comm] using hcopied
    have hunder : ∀ b i, below m.storage row.height b i → under m.storage (row.height + 1) b i := by
      rintro b i ⟨r, hr, hid, hle⟩
      exact ⟨r, hr, hid, Nat.lt_succ_of_le hle⟩
    have hhash : m.storage.blockHash row.id = .ok row.hash :=
      hst.blockHash_eq_ok.2 ⟨row, hrow, rfl, rfl⟩
    have hcopy := hwf.prepareForCopy row.hash
    refine ⟨hcopy.mono hunder, (hst.node_filed hnode).staged hhash, ?_, fun path => ?_⟩
    · rintro p ⟨⟩
      exact ⟨row, hrow, rfl, Nat.lt_succ_self _⟩
    · obtain ⟨value, hget, hfind⟩ := getPath_of_rooted hst hrow hroot path
      refine ⟨value, hget, ?_⟩
      rw [findPath_eq_lookup hwf] at hfind
      rw [findPath_eq_lookup hcopy, ← hfind]
      exact lookup_prepareForCopy (.internal [] stored) row.hash path.toList

/-- A state stands one above the parent it is begun from. -/
theorem inherit_height (h : m.inherit parent = .ok (children, height)) :
    height = (parent.bind m.height).elim 0 (· + 1) := by
  cases parent with
  | none =>
    obtain ⟨⟨⟩⟩ := h
    rfl
  | some parent =>
    simp only [VersionedMarf.inherit, bind_eq_ok, okOr_eq_ok, ensure_eq_ok, return_eq_ok,
      Prod.mk.injEq] at h
    obtain ⟨record, hrecord, -, -, -, -, -, rfl⟩ := h
    simp [VersionedMarf.height, hrecord]

theorem begin_active (sha : Digest) (hst : m.storage.Coherent)
    (hrooted : ∀ row ∈ m.storage.blockRows, ∃ children, Rooted m.storage row children)
    (h : m.begin sha parent block = .ok m')
    (hheight : height = (parent.bind m.height).elim 0 (· + 1)) :
    m'.storage = m.storage ∧ m'.path = m.path ∧ ∃ a, m'.active = some a ∧
      ActiveLaw m' a ⟨⟨parent, metadata sha parent block height⟩, block, height⟩ := by
  simp only [VersionedMarf.begin, bind_eq_ok, ensure_eq_ok, Prod.exists] at h
  obtain ⟨-, -, -, -, children, above, hinherit, updated, hupdated, ⟨⟩⟩ := h
  obtain rfl : above = height := (inherit_height hinherit).trans hheight.symm
  obtain ⟨hwf, hstaged, hrow, hreads⟩ := inherit_spec hst hrooted hinherit
  obtain ⟨updated', hupdated', hwf', hstaged', hlaw⟩ :=
    insertAll_spec hst (metadata sha parent block above) hwf hstaged
  obtain rfl : updated' = updated := Except.ok.inj (hupdated'.symm.trans hupdated)
  refine ⟨rfl, rfl, _, rfl, rfl, rfl, rfl, hwf', hstaged', hrow, fun path => ?_⟩
  obtain ⟨inherited, hin, hfind⟩ := hreads path
  refine ⟨inherited, ?_, hlaw path inherited hfind⟩
  cases parent with
  | none => exact hin
  | some parent => exact hin

/-! ## Sealing -/

theorem mem_completeBlock {rows : List BlockRow} {reserved : BlockRow} (hash : MarfBlockId)
    (root content : TrieHash) (node : Option Nat) (hrows : st.blockRows = rows ++ [reserved])
    (hids : ∀ row ∈ rows, row.id ≠ reserved.id) (row : BlockRow) :
    row ∈ (st.completeBlock hash reserved.id root content node).blockRows ↔
      row ∈ rows ∨ row = { reserved with root, content, node } := by
  have hmap : rows.map (fun row => if row.id = reserved.id then { row with root, content, node }
      else row) = rows := by
    refine (List.map_congr_left fun row hrow => ?_).trans (List.map_id rows)
    simp [hids row hrow]
  simp [completeBlock, hrows, hmap]

theorem hash_of_reserved {rows : List BlockRow} {reserved : BlockRow} {hash : MarfBlockId}
    (hrows : st.blockRows = rows ++ [reserved]) (hids : ∀ row ∈ rows, row.id ≠ reserved.id)
    (hhash : reserved.hash = hash) :
    ∀ row ∈ st.blockRows, row.id = reserved.id → row.hash = hash := by
  intro row hrow hrowId
  rw [hrows] at hrow
  rcases List.mem_append.1 hrow with hrow | hrow
  · exact absurd hrowId (hids row hrow)
  · rw [List.mem_singleton.1 hrow, hhash]

/-- A state being written can be filed under a row that was just reserved for it: nothing it points
at is filed there, and it reads there as it did. -/
theorem reserved_open (hst : m.storage.Coherent) (hactive : ActiveLaw m a d) {id : Nat}
    {st₁ : TrieStorage} (hst₁ : st₁.Coherent) (hkeep : TrieStorage.KeepsHashes m.storage st₁)
    (hid : id = m.storage.lastId + 1) (hnodes : st₁.nodeRows = m.storage.nodeRows)
    (hrow : ∃ row ∈ st₁.blockRows, row.id = id) :
    (∀ row ∈ m.storage.blockRows, row.id ≠ id) ∧ (∀ i, ¬under m.storage a.height id i) ∧
      Persist.Open id ⟨st₁, 0⟩ ∧ Keeps (under m.storage a.height) m.storage st₁ ∧
      Wf st₁ (under m.storage a.height) 32 (.internal [] a.rootChildren) ∧
      StagedList st₁.blockHash a.rootChildren := by
  have hfresh : ∀ row ∈ m.storage.blockRows, row.id ≠ id := by
    intro row hrow
    have := (hst.bounds row hrow).2.1
    omega
  have hkeeps : Keeps (under m.storage a.height) m.storage st₁ :=
    ⟨fun b i _ => by rw [hnodes], fun b i hash _ hb => hkeep b hash hb⟩
  refine ⟨hfresh, ?_, ⟨hst₁, hrow, fun i _ => ?_, by norm_num⟩, hkeeps,
    (hactive.wf.transport hst hst₁ hkeeps).1, stagedList_mono hkeep hactive.staged⟩
  · rintro i ⟨row, hmem, hrowId, -⟩
    exact hfresh row hmem hrowId
  · by_contra hfiled
    obtain ⟨row, hmem, hrowId⟩ := hst.owners id i (by rwa [← hnodes])
    exact hfresh row hmem hrowId

/-- **Sealing adds one state, which reads as the state being written did.** -/
theorem writeSealed_spec (sha : Digest) (hst : m.storage.Coherent) (hactive : ActiveLaw m a d)
    {root : TrieHash} (hnew : ∀ row ∈ m.storage.blockRows, row.hash ≠ block)
    (h : m.writeSealed sha block a = .ok (root, st')) :
    st'.Coherent ∧ Evolves (fun _ => True) m.storage st' ∧ st'.lastId = m.storage.lastId + 1 ∧
      ∃ row children,
      (∀ r, r ∈ st'.blockRows ↔ r ∈ m.storage.blockRows ∨ r = row) ∧ row.hash = block ∧
      row.height = a.height ∧ m.jumps a.parent a.height = .ok row.jumps ∧ Rooted st' row children ∧
      ∀ path, findPath st' children path = findPath m.storage a.rootChildren path := by
  simp only [VersionedMarf.writeSealed, bind_eq_ok, Prod.exists] at h
  obtain ⟨jumps, hjumps, roots, -, id, st₁, hreserve, index, content, p, hpersist, ⟨⟩⟩ := h
  obtain ⟨hst₁, hkeep₁, hid, hlast, hnodes₁, reserved, hrows₁, rfl, hhash, hheight, -, rfl⟩ :=
    reserveBlock_coherent hst hreserve hnew
  obtain ⟨hlt, hown, hopen, hkeeps₁, hwf₁, hstaged₁⟩ :=
    reserved_open hst hactive hst₁ hkeep₁ hid hnodes₁ ⟨reserved, by simp [hrows₁], rfl⟩
  obtain ⟨hopen', hgrow, saved, hnode, hwf', hreads⟩ :=
    persistRoot_spec sha hown hopen hwf₁ hstaged₁ hpersist
  have hrowsp : p.storage.blockRows = m.storage.blockRows ++ [reserved] :=
    hgrow.blockRows.trans hrows₁
  set root := stateRoot sha content roots
  obtain ⟨hst', hkeep'⟩ := completeBlock_coherent hopen'.coherent block reserved.id root
    content (some index) (hash_of_reserved hrowsp hlt hhash)
  have hmem := mem_completeBlock block root content (some index) hrowsp hlt
  set st' := p.storage.completeBlock block reserved.id root content (some index)
  have hkeeps' : Keeps (ownWith (under m.storage a.height) reserved.id p.next) p.storage st' :=
    ⟨fun _ _ _ => rfl, fun b i hash _ hb => hkeep' b hash hb⟩
  refine ⟨hst', ⟨fun _ _ => trivial, fun row hrow _ => (hmem row).2 (.inl hrow), ?_⟩,
    hgrow.lastId.trans (hlast.trans hid), { reserved with root, content, node := some index }, saved,
    hmem, hhash, hheight, hjumps, ⟨index, rfl, hopen'.coherent.node_mono hst' rfl hkeep' hnode, ?_⟩, fun path => ?_⟩
  · intro row hrow _ i
    rw [← hnodes₁]
    exact hgrow.rows row.id i fun h => hlt row hrow h.1
  · refine (hwf'.transport hopen'.coherent hst' hkeeps').1.mono ?_
    rintro b i (⟨row, hrow, hrowId, hlow⟩ | ⟨rfl, -⟩)
    · exact ⟨row, (hmem row).2 (.inl hrow), hrowId, hlow.le.trans hheight.ge⟩
    · exact ⟨_, (hmem _).2 (.inr rfl), rfl, Nat.le_refl _⟩
  · rw [hwf'.findPath_kept hopen'.coherent hst' hkeeps', findPath_eq_lookup hwf',
      hreads path.toList path.length_toList, ← findPath_eq_lookup hwf₁,
      hactive.wf.findPath_kept hst hst₁ hkeeps₁]

/-! ## Every operation keeps the invariant -/

/-- Two stores that differ only in what is being written. -/
def SameSealed (m m' : VersionedMarf) : Prop := m'.storage = m.storage ∧ m'.path = m.path

theorem SameSealed.getPath (h : SameSealed m m') (b : MarfBlockId) (path : TriePath) :
    m'.getPath b path = m.getPath b path := by
  obtain ⟨hstorage, hpath⟩ := h
  simp only [VersionedMarf.getPath, VersionedMarf.sealedRoot, hstorage]
  congr 1
  funext error
  simp only [VersionedMarf.readError, hpath]

theorem SameSealed.inherits (h : SameSealed m m') {path : TriePath} :
    Inherits m' parent path inherited ↔ Inherits m parent path inherited := by
  cases parent with
  | none => exact Iff.rfl
  | some parent => simp only [Inherits, h.getPath]

theorem SameSealed.activeLaw (h : SameSealed m m') (hlaw : ActiveLaw m a d) : ActiveLaw m' a d := by
  refine ⟨hlaw.parent_eq, hlaw.block_eq, hlaw.height_eq, ?_, ?_, ?_, fun path => ?_⟩
  · rw [h.1]
    exact hlaw.wf
  · rw [h.1]
    exact hlaw.staged
  · rw [h.1]
    exact hlaw.parent_row
  · obtain ⟨inherited, hin, hfind⟩ := hlaw.law path
    exact ⟨inherited, h.inherits.2 hin, by rw [h.1, hfind]⟩

theorem Session.Inv.of_active {s' : Session} (hinv : s.Inv) (h : SameSealed s.marf s'.marf)
    (hbook : s'.book = s.book) (hdrafted : s'.draft.isSome = s'.marf.active.isSome)
    (hactive : ∀ a d, s'.marf.active = some a → s'.draft = some d → ActiveLaw s'.marf a d)
    (hheld : ∀ x ∈ s'.held, ∃ a d, x.1.active = some a ∧ s'.draft = some d ∧
      ActiveLaw s'.marf a { d with writes := x.2 }) : s'.Inv ∧ SameAnswers s s' := by
  refine ⟨⟨?_, ?_, ?_, ?_, ?_, hdrafted, hactive, hheld⟩, fun b _ _ path => h.getPath b path⟩
  · rw [h.1]
    exact hinv.coherent
  · rw [h.1]
    exact hinv.rooted
  · rw [h.1, hbook]
    exact hinv.heights
  · rw [h.1, hbook]
    exact hinv.parents
  · intro b d hd path
    obtain ⟨inherited, hin, hlaw⟩ := hinv.law b d (hbook ▸ hd) path
    exact ⟨inherited, h.inherits.2 hin, by rw [h.getPath, hlaw]⟩

theorem Session.Inv.begun_height (hinv : s.Inv) (parent : Option MarfBlockId) :
    (parent.bind s.book).elim 0 (·.height + 1) = (parent.bind s.marf.height).elim 0 (· + 1) := by
  cases parent with
  | none => rfl
  | some parent =>
    rw [bind_some, bind_some, ← hinv.height_eq]
    cases s.book parent <;> rfl

section

variable (sha : Digest) (hinv : s.Inv)

include hinv

theorem Session.begin_spec (parent : Option MarfBlockId) (block : MarfBlockId) :
    (s.step sha (.begin parent block)).Inv ∧ SameAnswers s (s.step sha (.begin parent block)) := by
  simp only [step]
  cases h : s.marf.begin sha parent block with
  | error e => exact ⟨hinv, fun _ _ _ _ => rfl⟩
  | ok m =>
    obtain ⟨hstorage, hpath, a, ha, hlaw⟩ :=
      begin_active sha hinv.coherent hinv.rooted h (hinv.begun_height parent)
    refine hinv.of_active ⟨hstorage, hpath⟩ rfl ?_ ?_ ?_
    · simp [ha]
    · intro a' d ha' hd
      simp only [ha, some.injEq] at ha' hd
      subst ha' hd
      exact hlaw
    · simp

theorem Session.insertPath_spec (path : TriePath) (value : MarfValue) :
    (s.step sha (.insertPath path value)).Inv ∧
      SameAnswers s (s.step sha (.insertPath path value)) := by
  simp only [step]
  cases h : s.marf.insertPath path value with
  | error e => exact ⟨hinv, fun _ _ _ _ => rfl⟩
  | ok m =>
    simp only [VersionedMarf.insertPath, bind_eq_ok, okOr_eq_ok] at h
    obtain ⟨a, ha, updated, hupdated, ⟨⟩⟩ := h
    obtain ⟨d, hd⟩ : ∃ d, s.draft = some d := by
      rw [← isSome_iff_exists, hinv.drafted, ha]
      rfl
    have hlaw := hinv.active a d ha hd
    obtain ⟨updated', hupdated', hwf, hstaged, hwritten⟩ :=
      insertUnderRoot_spec hinv.coherent hlaw.wf hlaw.staged path value
    obtain rfl : updated' = updated := Except.ok.inj (hupdated'.symm.trans hupdated)
    have hsame : SameSealed s.marf
        { s.marf with active := some { a with rootChildren := updated' } } := ⟨rfl, rfl⟩
    refine hinv.of_active hsame rfl ?_ ?_ ?_
    · simp [hd]
    · intro a' d' ha' hd'
      simp only [hd, map_some, some.injEq] at ha' hd'
      subst ha' hd'
      refine ⟨hlaw.parent_eq, hlaw.block_eq, hlaw.height_eq, hwf, hstaged, hlaw.parent_row,
        fun q => ?_⟩
      obtain ⟨inherited, hin, hfind⟩ := hlaw.law q
      refine ⟨inherited, hsame.inherits.2 hin, ?_⟩
      simp only [hwritten, lastWrite_concat]
      split_ifs with hq
      · rfl
      · exact hfind
    · intro x hx
      obtain ⟨a', d', ha', hd', hlaw'⟩ := hinv.held x hx
      obtain rfl : d = d' := some.inj (hd.symm.trans hd')
      exact ⟨a', { d with writes := d.writes ++ [(path, value)] }, ha', by simp [hd],
        hsame.activeLaw hlaw'⟩

theorem Session.snapshot_spec :
    (s.step sha .snapshot).Inv ∧ SameAnswers s (s.step sha .snapshot) := by
  simp only [step]
  cases hd : s.draft with
  | none => exact ⟨hinv, fun _ _ _ _ => rfl⟩
  | some d =>
    obtain ⟨a, ha⟩ : ∃ a, s.marf.active = some a := by
      rw [← isSome_iff_exists, ← hinv.drafted, hd]
      rfl
    refine hinv.of_active ⟨rfl, rfl⟩ rfl (by simp [ha])
      (fun a' d' ha' hd' => hinv.active a' d' ha' (hd.trans hd')) ?_
    intro x hx
    rcases List.mem_cons.1 hx with rfl | hx
    · exact ⟨a, d, ha, rfl, hinv.active a d ha hd⟩
    · obtain ⟨a', d', ha', hd', hlaw⟩ := hinv.held x hx
      exact ⟨a', d', ha', hd.symm.trans hd', hlaw⟩

theorem Session.restore_spec (number : Nat) :
    (s.step sha (.restore number)).Inv ∧ SameAnswers s (s.step sha (.restore number)) := by
  simp only [step]
  cases hx : s.held[number]? with
  | none => exact ⟨hinv, fun _ _ _ _ => rfl⟩
  | some x =>
    obtain ⟨a, d, ha, hd, hlaw⟩ := hinv.held x (List.mem_of_getElem? hx)
    have hsame : SameSealed s.marf (s.marf.restore x.1) := ⟨rfl, rfl⟩
    refine hinv.of_active hsame rfl ?_ ?_ ?_
    · simp [VersionedMarf.restore, ha, hd]
    · intro a' d' ha' hd'
      simp only [VersionedMarf.restore, ha, hd, map_some, some.injEq] at ha' hd'
      subst ha' hd'
      exact hsame.activeLaw hlaw
    · intro y hy
      obtain ⟨a', d', ha', hd', hlaw'⟩ := hinv.held y hy
      obtain rfl : d = d' := some.inj (hd.symm.trans hd')
      exact ⟨a', { d with writes := x.2 }, ha', by simp [hd], hsame.activeLaw hlaw'⟩

theorem Session.abort_spec : (s.step sha .abort).Inv ∧ SameAnswers s (s.step sha .abort) := by
  simp only [step]
  cases h : s.marf.abort with
  | error e => exact ⟨hinv, fun _ _ _ _ => rfl⟩
  | ok m =>
    simp only [VersionedMarf.abort, bind_eq_ok, okOr_eq_ok] at h
    obtain ⟨a, -, ⟨⟩⟩ := h
    exact hinv.of_active ⟨rfl, rfl⟩ rfl rfl (by simp) (by simp)

end

variable {b : MarfBlockId}

theorem block_isSome (hst : st.Coherent) :
    (st.block b).isSome ↔ ∃ row ∈ st.blockRows, row.hash = b := by
  rw [isSome_iff_exists]
  simp only [hst.block_eq_some]
  grind

/-- A sealing is refused, rolled back, or committed. -/
theorem sealTo_cases (sha : Digest) (m : VersionedMarf) (block : MarfBlockId) :
    (∃ e, m.sealTo sha block = (.error e, m)) ∨
    (∃ e, m.sealTo sha block = (.error e, { m with storage := m.storage.forget })) ∨
    ∃ a root st', m.active = some a ∧ ¬(m.storage.block block).isSome ∧
      m.writeSealed sha block a = .ok (root, st') ∧
      m.sealTo sha block = (.ok root, { m with storage := st', active := none }) := by
  unfold VersionedMarf.sealTo
  split_ifs with hexists
  · exact .inl ⟨_, rfl⟩
  · split
    · exact .inl ⟨_, rfl⟩
    · rename_i a ha
      split
      · rename_i root st' hwrite
        exact .inr (.inr ⟨a, root, st', ha, hexists, hwrite, rfl⟩)
      · exact .inr (.inl ⟨_, rfl⟩)

theorem Session.sealed_inv (hinv : s.Inv) {new : BlockRow} (hd : s.draft = some d)
    (hlaw : ActiveLaw s.marf a d) (hst' : st'.Coherent)
    (hev : Evolves (fun _ => True) s.marf.storage st')
    (hmem : ∀ r, r ∈ st'.blockRows ↔ r ∈ s.marf.storage.blockRows ∨ r = new)
    (hnew : ∀ row ∈ s.marf.storage.blockRows, row.hash ≠ new.hash) (hheight : new.height = a.height)
    (hroot : Rooted st' new children)
    (hfind : ∀ path, findPath st' children path = findPath s.marf.storage a.rootChildren path) :
    Session.Inv ⟨{ s.marf with storage := st', active := none }, none, [],
        fun b => if b = new.hash then s.draft else s.book b⟩ ∧
      SameAnswers s ⟨{ s.marf with storage := st', active := none }, none, [],
        fun b => if b = new.hash then s.draft else s.book b⟩ := by
  set m' : VersionedMarf := { s.marf with storage := st', active := none }
  have hev' : Evolves (fun _ => True) s.marf.storage m'.storage := hev
  have hkept := fun (row : BlockRow) hrow => hinv.kept hev' hst' (hrow : row ∈ _) trivial
  refine ⟨⟨hst', ?_, ?_, ?_, ?_, rfl, by simp [m'], by simp⟩, ?_⟩
  · intro row hrow
    rcases (hmem row).1 hrow with hrow | rfl
    · exact (hkept row hrow).1
    · exact ⟨children, hroot⟩
  · intro b height
    by_cases hb : b = new.hash
    · grind [hlaw.height_eq]
    · simp only [if_neg hb, hinv.heights, m', hmem]
      grind
  · intro row hrow d' parent hd' hparent
    rcases (hmem row).1 hrow with hrow | rfl
    · simp only [if_neg (hnew row hrow)] at hd'
      exact ((hkept row hrow).2.2 d' hd').1 parent hparent
    · simp only [if_true, hd, some.injEq] at hd'
      subst hd'
      obtain ⟨row', hrow', hhash, hlt⟩ := hlaw.parent_row parent hparent
      exact ⟨row', (hmem row').2 (.inl hrow'), hhash, hheight ▸ hlt⟩
  · intro b d' hd' path
    by_cases hb : b = new.hash
    · subst hb
      simp only [if_true, hd, some.injEq] at hd'
      subst hd'
      obtain ⟨inherited, hin, hactive⟩ := hlaw.law path
      obtain ⟨value, hvalue, hread⟩ :=
        getPath_of_rooted (m := m') hst' ((hmem new).2 (.inr rfl)) hroot path
      refine ⟨inherited, hin.evolve hev' hinv.coherent hst' hinv.rooted fun p hp => ?_, ?_⟩
      · obtain ⟨row, hrow, hhash, -⟩ := hlaw.parent_row p hp
        exact ⟨row, hrow, hhash, trivial⟩
      · rw [hvalue, ← hread]
        exact (hfind path).trans hactive
    · simp only [if_neg hb] at hd'
      obtain ⟨row, hrow, rfl⟩ := (hinv.booked b).1 (isSome_of_eq_some hd')
      exact ((hkept row hrow).2.2 d' hd').2 path
  · intro b hb _ path
    obtain ⟨row, hrow, rfl⟩ := (hinv.booked b).1 hb
    exact (hkept row hrow).2.1 path

theorem Session.sealTo_spec (sha : Digest) (hinv : s.Inv) (block : MarfBlockId) :
    (s.sealedAs block (s.marf.sealTo sha block)).Inv ∧
      SameAnswers s (s.sealedAs block (s.marf.sealTo sha block)) := by
  rcases sealTo_cases sha s.marf block with ⟨e, h⟩ | ⟨e, h⟩ | ⟨a, root, st', ha, hexists, hwrite, h⟩
  · rw [h]
    exact ⟨hinv, fun _ _ _ _ => rfl⟩
  · rw [h]
    exact hinv.withStorage (forget_coherent hinv.coherent) ⟨rfl, rfl, rfl⟩
  · obtain ⟨d, hd⟩ : ∃ d, s.draft = some d := by
      rw [← isSome_iff_exists, hinv.drafted, ha]
      rfl
    have hlaw := hinv.active a d ha hd
    have hnew : ∀ row ∈ s.marf.storage.blockRows, row.hash ≠ block := by
      intro row hrow hhash
      exact hexists ((block_isSome hinv.coherent).2 ⟨row, hrow, hhash⟩)
    obtain ⟨hst', hev, -, new, children, hmem, rfl, hheight, -, hroot, hfind⟩ :=
      writeSealed_spec sha hinv.coherent hlaw hnew hwrite
    rw [h]
    exact sealed_inv hinv hd hlaw hst' hev hmem hnew hheight hroot hfind

theorem Session.sealVersion_spec (sha : Digest) (hinv : s.Inv) :
    (s.step sha .sealVersion).Inv ∧ SameAnswers s (s.step sha .sealVersion) := by
  simp only [step]
  split
  · rename_i d hd
    obtain ⟨a, ha⟩ : ∃ a, s.marf.active = some a := by
      rw [← isSome_iff_exists, ← hinv.drafted, hd]
      rfl
    have hseal : s.marf.sealVersion sha = s.marf.sealTo sha d.block := by
      simp [VersionedMarf.sealVersion, ha, (hinv.active a d ha hd).block_eq]
    rw [hseal]
    exact sealTo_spec sha hinv d.block
  · exact ⟨hinv, fun _ _ _ _ => rfl⟩

theorem evolves_discardAbove (hst : st.Coherent) (height : Nat) :
    Evolves (· ≤ height) st (st.discardAbove height).2 where
  down := fun hle h => hle.trans h
  kept := fun row hrow hlow => List.mem_filter.2 ⟨hrow, by simpa using hlow⟩
  rows := fun _ hrow hlow i => discardAbove_nodeRows hst hrow hlow i

theorem Session.discarded_inv (hinv : s.Inv) (hidle : s.marf.active = none) (hst' : st'.Coherent)
    (hev : Evolves (· ≤ height) s.marf.storage st')
    (hmem : ∀ row, row ∈ st'.blockRows ↔ row ∈ s.marf.storage.blockRows ∧ row.height ≤ height) :
    Session.Inv { s with
        marf := { s.marf with storage := st' }
        book := fun b => (s.book b).filter (·.height ≤ height) } ∧
      SameAnswers s { s with
        marf := { s.marf with storage := st' }
        book := fun b => (s.book b).filter (·.height ≤ height) } := by
  set m' : VersionedMarf := { s.marf with storage := st' }
  have hnodraft : s.draft = none := by
    rw [← isNone_iff_eq_none, ← not_isSome, hinv.drafted, hidle]
    rfl
  have hev' : Evolves (· ≤ height) s.marf.storage m'.storage := hev
  -- What is still booked was booked before, and its row is low enough to have stayed.
  have hbook : ∀ {b d}, (s.book b).filter (·.height ≤ height) = some d → s.book b = some d ∧
      ∃ row ∈ s.marf.storage.blockRows, row.hash = b ∧ row.height ≤ height := by
    intro b d h
    simp only [filter_eq_some_iff, decide_eq_true_eq] at h
    obtain ⟨row, hrow, hhash, hlow⟩ := (hinv.heights b d.height).1 ⟨d, h.1, rfl⟩
    exact ⟨h.1, row, hrow, hhash, hlow.trans_le h.2⟩
  refine ⟨⟨hst', ?_, ?_, ?_, ?_, hinv.drafted, by simp [hnodraft], ?_⟩, ?_⟩
  · intro row hrow
    obtain ⟨hrow, hlow⟩ := (hmem row).1 hrow
    exact (hinv.kept hev' hst' hrow hlow).1
  · intro b low
    have hheights := hinv.heights b low
    simp only [filter_eq_some_iff, decide_eq_true_eq, m', hmem]
    grind
  · intro row hrow d parent hd hparent
    obtain ⟨hrow, hlow⟩ := (hmem row).1 hrow
    exact ((hinv.kept hev' hst' hrow hlow).2.2 d (hbook hd).1).1 parent hparent
  · intro b d hd path
    obtain ⟨hd, row, hrow, rfl, hlow⟩ := hbook hd
    exact ((hinv.kept hev' hst' hrow hlow).2.2 d hd).2 path
  · intro x hx
    obtain ⟨a, d, -, hd, -⟩ := hinv.held x hx
    simp [hnodraft] at hd
  · intro b _ hb path
    obtain ⟨d, hd⟩ := isSome_iff_exists.1 hb
    obtain ⟨-, row, hrow, rfl, hlow⟩ := hbook hd
    exact (hinv.kept hev' hst' hrow hlow).2.1 path

theorem Session.discardAbove_spec (sha : Digest) (hinv : s.Inv) (height : Nat) :
    (s.step sha (.discardAbove height)).Inv ∧
      SameAnswers s (s.step sha (.discardAbove height)) := by
  simp only [step]
  cases h : s.marf.discardAbove height with
  | error e => exact ⟨hinv, fun _ _ _ _ => rfl⟩
  | ok result =>
    obtain ⟨removed, m⟩ := result
    simp only [VersionedMarf.discardAbove, bind_eq_ok, ensure_eq_ok] at h
    obtain ⟨-, hidle, ⟨⟩⟩ := h
    exact discarded_inv hinv (by simpa using hidle)
      (discardAbove_coherent hinv.coherent height)
      (evolves_discardAbove hinv.coherent height) (by simp)

/-! ## Whole sessions -/

theorem Session.step_spec (sha : Digest) (hinv : s.Inv) (op : MarfOp) :
    (s.step sha op).Inv ∧ SameAnswers s (s.step sha op) := by
  cases op with
  | begin parent block => exact begin_spec sha hinv parent block
  | insertPath path value => exact insertPath_spec sha hinv path value
  | snapshot => exact snapshot_spec sha hinv
  | restore number => exact restore_spec sha hinv number
  | abort => exact abort_spec sha hinv
  | sealVersion => exact sealVersion_spec sha hinv
  | sealTo block => exact sealTo_spec sha hinv block
  | discardAbove height => exact discardAbove_spec sha hinv height
  | recallNode block index =>
    exact hinv.withStorage (recallNode_coherent hinv.coherent block index)
      (recallNode_sameTables block index)
  | recallNodeHash block index =>
    exact hinv.withStorage (recallNodeHash_coherent hinv.coherent block index)
      (recallNodeHash_sameTables block index)
  | recallBlock hash =>
    exact hinv.withStorage (recallBlock_coherent hinv.coherent hash) (recallBlock_sameTables hash)
  | recallBlockHash id =>
    exact hinv.withStorage (recallBlockHash_coherent hinv.coherent id)
      (recallBlockHash_sameTables id)
  | evict keepNode keepHash keepBlock =>
    exact hinv.withStorage
      (evict_coherent hinv.coherent keepNode keepHash keepBlock) ⟨rfl, rfl, rfl⟩

theorem Session.run_inv (sha : Digest) (hinv : s.Inv) (ops : List MarfOp) :
    (Runs.run (Session.step sha) s ops).Inv :=
  Runs.run_invariant Session.Inv (fun _ op h => (step_spec sha h op).1) hinv ops

theorem Session.after_inv (sha : Digest) (path : Option String) (ops : List MarfOp) :
    (Session.after sha path ops).Inv :=
  run_inv sha (start_inv path) ops

theorem Session.Inv.activeLaw (hinv : s.Inv) (hactive : s.marf.active = some a) :
    ∃ d, s.draft = some d ∧ ActiveLaw s.marf a d := by
  have hdraft : s.draft.isSome := by rw [hinv.drafted, hactive]; rfl
  obtain ⟨d, hd⟩ := isSome_iff_exists.1 hdraft
  exact ⟨d, hd, hinv.active a d hactive hd⟩

theorem Session.run_answers (sha : Digest) (hinv : s.Inv) {later : List MarfOp}
    (hstays : ∀ k ≤ later.length, ((Runs.run (Session.step sha) s (later.take k)).book b).isSome)
    (p : TriePath) : (Runs.run (Session.step sha) s later).marf.getPath b p = s.marf.getPath b p :=
  Runs.run_relation (fun s s' : Session => s'.marf.getPath b p = s.marf.getPath b p)
    (fun _ => rfl) (fun _ _ _ h h' => h'.trans h) (fun _ op h => (step_spec sha h op).1)
    (fun _ op h hb hb' => (step_spec sha h op).2 b hb hb' p) hinv hstays

theorem Session.Inv.getPath_ok (hinv : s.Inv) (b : MarfBlockId) (p : TriePath) :
    ∃ value, s.marf.getPath b p = .ok value := by
  by_cases hb : ∃ row ∈ s.marf.storage.blockRows, row.hash = b
  · obtain ⟨row, hrow, rfl⟩ := hb
    obtain ⟨children, hroot⟩ := hinv.rooted row hrow
    obtain ⟨value, hvalue, -⟩ := getPath_of_rooted hinv.coherent hrow hroot p
    exact ⟨value, hvalue⟩
  · exact ⟨none, getPath_of_absent hinv.coherent hb p⟩

variable {answer : MarfBlockId → TriePath → Option MarfValue}

theorem Inherits.eq_answer (hanswer : ∀ b p, m.getPath b p = .ok (answer b p)) {p : TriePath}
    (h : Inherits m parent p inherited) :
    inherited = parent.bind fun parent => answer parent p := by
  cases parent with
  | none => exact h
  | some parent =>
    rw [Inherits, hanswer, Except.ok.injEq] at h
    exact h.symm

theorem ActiveLaw.getActivePath (h : ActiveLaw m a d) (ha : m.active = some a)
    (hanswer : ∀ b p, m.getPath b p = .ok (answer b p)) (p : TriePath) :
    m.getActivePath p = .ok (d.read answer p) := by
  obtain ⟨inherited, hin, hfind⟩ := h.law p
  rw [hin.eq_answer hanswer] at hfind
  simp [VersionedMarf.getActivePath, ha, hfind, Draft.read, Except.mapError]

/-- **Every state answers its own last writes, and its parent's answers otherwise.** After any
operations on an empty store every sealed state answers every path; what it answers is the last of
its writes that no restore undid, or what the state it was begun from answers; the state being
written answers by the same law; and whatever is done later, a state that is not discarded on the
way goes on answering the same. -/
theorem answers_of_every_session (sha : Digest) (path : Option String) (ops : List MarfOp) :
    ∃ answer : MarfBlockId → TriePath → Option MarfValue,
      (∀ b p, (Session.after sha path ops).marf.getPath b p = .ok (answer b p)) ∧
      (∀ b, (Session.after sha path ops).marf.contains b
        = ((Session.after sha path ops).book b).isSome) ∧
      Obeys (fun b => ((Session.after sha path ops).book b).map (·.toDraft)) answer ∧
      (∀ p, (Session.after sha path ops).marf.getActivePath p
        = .ok ((Session.after sha path ops).draft.bind fun draft => draft.read answer p)) ∧
      ∀ later b, (∀ k ≤ later.length,
          ((Session.after sha path (ops ++ later.take k)).book b).isSome) →
        ∀ p, (Session.after sha path (ops ++ later)).marf.getPath b p = .ok (answer b p) := by
  have hinv : (after sha path ops).Inv := run_inv sha (start_inv path) ops
  set s := after sha path ops with hs
  choose answer hanswer using hinv.getPath_ok
  refine ⟨answer, hanswer, ?_, ?_, ?_, ?_⟩
  · intro b
    rw [Bool.eq_iff_iff, VersionedMarf.contains, block_isSome hinv.coherent, hinv.booked]
  · intro b _ hbook p
    obtain ⟨d, hd, rfl⟩ := map_eq_some_iff.1 hbook
    obtain ⟨inherited, hin, hget⟩ := hinv.law b d hd p
    rw [hanswer, Except.ok.injEq] at hget
    rw [hget, hin.eq_answer hanswer, Draft.read]
  · intro p
    have hdrafted := hinv.drafted
    cases ha : s.marf.active with
    | none =>
      have hd : s.draft = none := by simpa [ha] using hdrafted
      simp [VersionedMarf.getActivePath, ha, hd]
    | some a =>
      obtain ⟨d, hd⟩ := isSome_iff_exists.1 (hdrafted.trans (by simp [ha]))
      rw [(hinv.active a d ha hd).getActivePath ha hanswer p, hd]
      rfl
  · intro later b hstays p
    simp only [after, Runs.run_append] at hstays
    rw [← hanswer, after, Runs.run_append]
    exact run_answers sha hinv hstays p

end NanoStacks.Marf
