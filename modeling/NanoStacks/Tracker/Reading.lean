import NanoStacks.Tracker.Basic

/-!
# Reading the same blocks from a later start

A tracker that starts `first` blocks into a chain knows nothing of the commitments below, and counts
every parent below `first` as known. It reads the blocks from there on as a tracker that started
earlier does, as long as every commitment that names a parent below `first` names one the earlier
tracker accepted or started above (`NotesAgree.parents`).

Keys are compared by where they were registered: the notes may differ on keys of blocks still to be
read, since a tracker is saved with the keys of all the blocks it has read. A commitment cannot use
such a key before the block that registers it.
-/

namespace NanoStacks.Tracker

open Bitcoin Sortition Result List TrackerNotes

/-! ## The keys a block registers -/

/-- The key the operations of a block register at an index; the last one counts. -/
def registeredAt (operations : List BitcoinOperation) (index : Nat) :
    Option LeaderKeyRegistration :=
  operations.reverse.findSome? fun operation =>
    if operation.transactionIndex = index then registrationOf operation else none

section

variable (operations : List BitcoinOperation) (keys : LeaderKeys)

theorem get_registerOperations (blockHeight height index : Nat) :
    (operations.foldl (registerOperation blockHeight) keys).registered.get (toLex (height, index)) =
      if height = blockHeight then
        (registeredAt operations index).or (keys.registered.get (toLex (height, index)))
      else keys.registered.get (toLex (height, index)) := by
  induction operations generalizing keys with
  | nil => simp [registeredAt]
  | cons operation operations ih =>
    have hlast : registeredAt (operation :: operations) index =
        (registeredAt operations index).or
          (if operation.transactionIndex = index then registrationOf operation else none) := by
      simp [registeredAt, findSome?_append]
    rw [foldl_cons, ih, hlast]
    cases hregistration : registrationOf operation with
    | none => simp [registerOperation, hregistration]
    | some registration =>
      simp only [registerOperation, hregistration, LeaderKeys.register, OrdMap.get_insert,
        EmbeddingLike.apply_eq_iff_eq, Prod.mk.injEq]
      by_cases hheight : height = blockHeight
      · by_cases hindex : index = operation.transactionIndex
        · simp [hheight, hindex]
        · simp [hheight, hindex, Ne.symm hindex]
      · simp [hheight]

theorem spent_registerOperations (blockHeight : Nat) :
    (operations.foldl (registerOperation blockHeight) keys).spent = keys.spent := by
  induction operations generalizing keys with
  | nil => rfl
  | cons operation operations ih =>
    rw [foldl_cons, ih, registerOperation]
    split <;> rfl

end

/-! ## Notes that read alike -/

section Agree

variable (chain : Nat → BitcoinBlock) (payouts : PayoutSchedule) (first last : Nat)

/-- The notes of a tracker and those of one started at `first`, when both read the block at `top`
next. -/
structure NotesAgree (top : Nat) (notes notes' : TrackerNotes) : Prop where
  spent : notes'.keys.spent = notes.keys.spent
  keys : ∀ height index,
    (top ≤ height → registeredAt (chain height).operations index = none) →
    notes'.keys.registered.get (toLex (height, index))
      = notes.keys.registered.get (toLex (height, index))
  commitments : ∀ position : Nat × Nat, first ≤ position.1 →
    (position ∈ notes'.commitments ↔ position ∈ notes.commitments)
  floor : notes.commitmentFloor.getD top ≤ first
  floor' : notes'.commitmentFloor.getD top = first
  payouts : ∀ height ≤ last, notes'.payoutsAt payouts height = notes.payoutsAt payouts height
  parents : ∀ height, top ≤ height → height ≤ last → ∀ operation ∈ (chain height).operations,
    ∀ commit, operation.kind = .leaderBlockCommit commit → commit.parentTransactionIndex ≠ 0 →
    commit.parentBlockHeight < first →
    commit.parentBlockHeight < notes.commitmentFloor.getD top ∨
      (commit.parentBlockHeight, commit.parentTransactionIndex) ∈ notes.commitments

end Agree

namespace NotesAgree

variable {chain : Nat → BitcoinBlock} {payouts : PayoutSchedule} {first last top : Nat}
  {notes notes' : TrackerNotes}

theorem registration_eq (h : NotesAgree chain payouts first last top notes notes') {height : Nat}
    (hheight : height < top) (index : Nat) :
    notes'.keys.registration height index = notes.keys.registration height index := by
  rw [LeaderKeys.registration, LeaderKeys.registration, h.spent,
    h.keys height index fun hle => absurd hheight (not_lt.2 hle)]

/-- Both have registered the keys of the next block. -/
structure Registered (chain : Nat → BitcoinBlock) (payouts : PayoutSchedule) (first last top : Nat)
    (notes notes' : TrackerNotes) : Prop extends
    NotesAgree chain payouts first last top notes notes' where
  keys_next : ∀ height index,
    (top + 1 ≤ height → registeredAt (chain height).operations index = none) →
    notes'.keys.registered.get (toLex (height, index))
      = notes.keys.registered.get (toLex (height, index))

theorem registerKeys (h : NotesAgree chain payouts first last top notes notes')
    (hheight : (chain top).height = top) :
    Registered chain payouts first last top (notes.registerKeys (chain top))
      (notes'.registerKeys (chain top)) := by
  have hspent : (notes'.registerKeys (chain top)).keys.spent
      = (notes.registerKeys (chain top)).keys.spent := by
    simp only [TrackerNotes.registerKeys, spent_registerOperations, h.spent]
  have hnext : ∀ height index,
      (top + 1 ≤ height → registeredAt (chain height).operations index = none) →
      (notes'.registerKeys (chain top)).keys.registered.get (toLex (height, index))
        = (notes.registerKeys (chain top)).keys.registered.get (toLex (height, index)) := by
    intro height index hnone
    simp only [TrackerNotes.registerKeys, get_registerOperations, hheight]
    by_cases htop : height = top
    · subst htop
      rw [if_pos rfl, if_pos rfl]
      cases hregistered : registeredAt (chain height).operations index with
      | some registration => rfl
      | none => rw [Option.none_or, Option.none_or, h.keys height index fun _ => hregistered]
    · rw [if_neg htop, if_neg htop]
      exact h.keys height index fun hle => hnone (by omega)
  exact
    { spent := hspent
      keys := fun height index hnone => hnext height index fun hle => hnone (by omega)
      commitments := h.commitments
      floor := h.floor
      floor' := h.floor'
      payouts := h.payouts
      parents := h.parents
      keys_next := hnext }

/-! ## Accepting commitments -/

variable {operation : BitcoinOperation} {resolved : PayoutSchedule}

/-- An admissible commitment is kept by both or by neither. -/
theorem keepsOperation_eq (h : NotesAgree chain payouts first last top notes notes')
    (hheight : (chain top).height = top) (hlast : top ≤ last)
    (hmem : operation ∈ (chain top).operations)
    (hadmissible : commitmentIsAdmissible (chain top).height operation resolved) :
    notes'.keepsOperation (notes'.commitmentFloor.getD top) (chain top) operation
      = notes.keepsOperation (notes.commitmentFloor.getD top) (chain top) operation := by
  cases hkind : operation.kind with
  | leaderBlockCommit commit =>
    simp only [commitmentIsAdmissible, hkind, Bool.and_eq_true, Bool.or_eq_true,
      decide_eq_true_eq, hheight] at hadmissible
    obtain ⟨⟨⟨⟨⟨-, -⟩, hparent⟩, -⟩, hkey⟩, -⟩ := hadmissible
    have hparents := h.parents top (Nat.le_refl _) hlast operation hmem commit hkind
    have hcommitments := h.commitments (commit.parentBlockHeight, commit.parentTransactionIndex)
    have hfloor := h.floor
    rw [keepsOperation, keepsOperation, hkind]
    simp only [h.registration_eq hkey, hheight, h.floor']
    congr 1
    rw [Bool.eq_iff_iff]
    simp only [Bool.or_eq_true, Bool.and_eq_true, decide_eq_true_eq]
    by_cases hbelow : commit.parentBlockHeight < first
    · by_cases hindex : commit.parentTransactionIndex = 0
      · simp [hindex, hparent]
      · have hknown := hparents hindex hbelow
        simp only [hindex, and_false, false_or, hbelow, true_or, true_iff]
        exact hknown
    · have hnot : ¬commit.parentBlockHeight < notes.commitmentFloor.getD top := by omega
      simp only [hbelow, hnot, hcommitments (not_lt.1 hbelow)]
  | _ => simp [commitmentIsAdmissible, hkind] at hadmissible

variable {block : BitcoinBlock} {keys : LeaderKeys}

/-- What a block's operations are filed as depends on the height of the block, on the key each names,
and on nothing else of the notes. -/
theorem fileCommitment_congr {block' : BitcoinBlock} (hheight : block'.height = block.height)
    {keys' : LeaderKeys} (hkeys : ∀ height < block.height, ∀ index,
      keys'.registration height index = keys.registration height index) (resolved : PayoutSchedule)
    (operation : BitcoinOperation) :
    fileCommitment block' resolved keys' operation = fileCommitment block resolved keys operation := by
  unfold fileCommitment
  cases hkind : operation.kind with
  | leaderBlockCommit commit =>
    simp only [hheight]
    by_cases hadmissible : commitmentIsAdmissible block.height operation resolved
    · have hkey := hadmissible
      simp only [commitmentIsAdmissible, hkind, Bool.and_eq_true, decide_eq_true_eq] at hkey
      rw [hkeys commit.keyBlockHeight hkey.1.2 commit.keyTransactionIndex]
    · simp [hadmissible]
  | _ => rfl

theorem fileCommitment_eq_some {filed : MiningCommitment ⊕ MissedCommitment}
    (h : fileCommitment block resolved keys operation = some filed) :
    commitmentIsAdmissible block.height operation resolved ∧
      filed.elim (·.txid) (·.txid) = operation.txid := by
  unfold fileCommitment at h
  cases hkind : operation.kind with
  | leaderBlockCommit commit =>
    simp only [hkind] at h
    split_ifs at h with hnot <;> rw [Option.some.injEq] at h <;> subst h <;>
      exact ⟨by simpa using hnot, rfl⟩
  | _ => simp [hkind] at h

theorem operations_acceptedOperations (hheight : (chain top).height = top) (notes : TrackerNotes) :
    (notes.acceptedOperations (chain top)).operations = (chain top).operations.filter
      (notes.keepsOperation (notes.commitmentFloor.getD top) (chain top)) := by
  simp only [acceptedOperations, hheight]

/-- The transaction ids in the window entry of a block are those of the operations it files. -/
theorem txid_filed_iff {txid : Txid} :
    txid ∈ (commitmentWindowBlock block resolved keys).commitments.map (·.txid) ++
        (commitmentWindowBlock block resolved keys).missedCommitments.map (·.txid) ↔
      ∃ operation ∈ block.operations, operation.txid = txid ∧
        (fileCommitment block resolved keys operation).isSome := by
  simp only [commitmentWindowBlock, mem_append, mem_map, mem_filterMap]
  constructor
  · rintro (⟨commitment, ⟨filed, ⟨operation, hmem, hfile⟩, hleft⟩, rfl⟩ |
      ⟨missed, ⟨filed, ⟨operation, hmem, hfile⟩, hright⟩, rfl⟩)
    · rw [Sum.getLeft?_eq_some_iff.1 hleft] at hfile
      exact ⟨operation, hmem, (fileCommitment_eq_some hfile).2.symm, by simp [hfile]⟩
    · rw [Sum.getRight?_eq_some_iff.1 hright] at hfile
      exact ⟨operation, hmem, (fileCommitment_eq_some hfile).2.symm, by simp [hfile]⟩
  · rintro ⟨operation, hmem, rfl, hsome⟩
    obtain ⟨filed, hfile⟩ := Option.isSome_iff_exists.1 hsome
    have htxid := (fileCommitment_eq_some hfile).2
    cases filed with
    | inl commitment => exact .inl ⟨commitment, ⟨_, ⟨operation, hmem, hfile⟩, rfl⟩, htxid⟩
    | inr missed => exact .inr ⟨missed, ⟨_, ⟨operation, hmem, hfile⟩, rfl⟩, htxid⟩

theorem eq_of_txid (hnodup : (block.operations.map (·.txid)).Nodup) {operation' : BitcoinOperation}
    (hmem : operation ∈ block.operations) (hmem' : operation' ∈ block.operations)
    (htxid : operation.txid = operation'.txid) : operation = operation' :=
  inj_on_of_nodup_map hnodup hmem hmem' htxid

section Accepted

variable (h : NotesAgree chain payouts first last top notes notes')
  (hheight : (chain top).height = top) (hlast : top ≤ last) (resolved : PayoutSchedule)

include h hheight hlast

theorem commitmentWindowBlock_eq :
    commitmentWindowBlock (notes'.acceptedOperations (chain top)) resolved notes'.keys
      = commitmentWindowBlock (notes.acceptedOperations (chain top)) resolved notes.keys := by
  have hfiled : (notes'.acceptedOperations (chain top)).operations.filterMap
      (fileCommitment (notes'.acceptedOperations (chain top)) resolved notes'.keys)
      = (notes.acceptedOperations (chain top)).operations.filterMap
        (fileCommitment (notes.acceptedOperations (chain top)) resolved notes.keys) := by
    rw [operations_acceptedOperations hheight, operations_acceptedOperations hheight,
      filterMap_filter, filterMap_filter]
    refine filterMap_congr fun operation hmem => ?_
    have hfile : fileCommitment (notes'.acceptedOperations (chain top)) resolved notes'.keys operation
        = fileCommitment (notes.acceptedOperations (chain top)) resolved notes.keys operation :=
      fileCommitment_congr rfl
        (fun height hlt index => h.registration_eq (hlt.trans_eq hheight) index) resolved operation
    rw [hfile]
    by_cases hadmissible : commitmentIsAdmissible (chain top).height operation resolved
    · rw [h.keepsOperation_eq hheight hlast hmem hadmissible]
    · have hnone : fileCommitment (notes.acceptedOperations (chain top)) resolved notes.keys operation
          = none := by
        by_contra hsome
        obtain ⟨filed, hfiled⟩ := Option.ne_none_iff_exists'.1 hsome
        exact hadmissible (fileCommitment_eq_some hfiled).1
      rw [hnone, ite_self, ite_self]
  unfold commitmentWindowBlock
  simp only [hfiled]
  rfl

theorem acceptedOperationTxids_eq :
    acceptedOperationTxids (notes'.acceptedOperations (chain top)) resolved
      = acceptedOperationTxids (notes.acceptedOperations (chain top)) resolved := by
  unfold acceptedOperationTxids
  rw [operations_acceptedOperations hheight, operations_acceptedOperations hheight,
    filter_filter, filter_filter]
  refine congrArg (map _) (filter_congr fun operation hmem => ?_)
  have hblock : ∀ notes : TrackerNotes,
      (notes.acceptedOperations (chain top)).height = (chain top).height := fun _ => rfl
  cases hkind : operation.kind with
  | leaderBlockCommit commit =>
    simp only [hblock]
    by_cases hadmissible : commitmentIsAdmissible (chain top).height operation resolved
    · rw [h.keepsOperation_eq hheight hlast hmem hadmissible]
    · rw [Bool.not_eq_true] at hadmissible
      rw [hadmissible, Bool.false_and, Bool.false_and, Bool.false_and]
  | _ => simp [keepsOperation, hkind]

theorem positionsOf_eq (hnodup : ((chain top).operations.map (·.txid)).Nodup) :
    positionsOf (notes'.acceptedOperations (chain top))
        (commitmentWindowBlock (notes'.acceptedOperations (chain top)) resolved notes'.keys)
      = positionsOf (notes.acceptedOperations (chain top))
        (commitmentWindowBlock (notes.acceptedOperations (chain top)) resolved notes.keys) := by
  rw [h.commitmentWindowBlock_eq hheight hlast resolved]
  unfold positionsOf
  simp only
  refine congrArg toFinset (congrArg (map _) ?_)
  rw [operations_acceptedOperations hheight, operations_acceptedOperations hheight,
    filter_filter, filter_filter]
  refine filter_congr fun operation hmem => ?_
  by_cases hfiled : operation.txid ∈
      (commitmentWindowBlock (notes.acceptedOperations (chain top)) resolved
        notes.keys).commitments.map (·.txid) ++
      (commitmentWindowBlock (notes.acceptedOperations (chain top)) resolved
        notes.keys).missedCommitments.map (·.txid)
  · -- The operation filed under this transaction is this one, so it is admissible.
    obtain ⟨filed, hmem', htxid, hsome⟩ := txid_filed_iff.1 hfiled
    obtain ⟨_, hfile⟩ := Option.isSome_iff_exists.1 hsome
    have hadmissible := (fileCommitment_eq_some hfile).1
    rw [operations_acceptedOperations hheight] at hmem'
    obtain rfl := eq_of_txid hnodup (mem_of_mem_filter hmem') hmem htxid
    rw [h.keepsOperation_eq hheight hlast hmem hadmissible]
  · rw [decide_eq_false hfiled, Bool.false_and, Bool.false_and]

end Accepted

theorem acceptedBlock (h : Registered chain payouts first last top notes notes')
    (hheight : (chain top).height = top) (hlast : top ≤ last)
    (hnodup : ((chain top).operations.map (·.txid)).Nodup) (resolved : PayoutSchedule) :
    NotesAgree chain payouts first last (top + 1)
      (notes.acceptedBlock (chain top) resolved).2 (notes'.acceptedBlock (chain top) resolved).2 := by
  have hpositions := h.toNotesAgree.positionsOf_eq hheight hlast resolved hnodup
  have hfloor : (notes.acceptedBlock (chain top) resolved).2.commitmentFloor.getD (top + 1)
      = notes.commitmentFloor.getD top := by
    simp [TrackerNotes.acceptedBlock, hheight]
  refine
    { spent := h.spent
      keys := h.keys_next
      commitments := fun position hle => ?_
      floor := hfloor.trans_le h.floor
      floor' := ?_
      payouts := h.payouts
      parents := fun height htop hle operation hmem commit hkind hindex hbelow => ?_ }
  · simp only [TrackerNotes.acceptedBlock, Finset.mem_union, hpositions, h.commitments position hle]
  · simpa [TrackerNotes.acceptedBlock, hheight] using h.floor'
  · rw [hfloor]
    refine (h.parents height (by omega) hle operation hmem commit hkind hindex hbelow).imp_right ?_
    exact fun hmem => Finset.mem_union_left _ hmem

end NotesAgree

/-! ## Reading many blocks -/

/-- Read one block: what it adds to the mining window, and what is noted of it. -/
def TrackerNotes.read (notes : TrackerNotes) (block : BitcoinBlock) (payouts : PayoutSchedule) :
    Except TrackerError (CommitmentWindowBlock × TrackerNotes) := do
  let resolved ← notes.payoutsAt payouts block.height
  let accepted := (notes.registerKeys block).acceptedBlock block resolved
  return (accepted.1.2, accepted.2)

/-- Read the blocks of a chain at some heights, one after the other. -/
def TrackerNotes.readAll (chain : Nat → BitcoinBlock) (payouts : PayoutSchedule) :
    TrackerNotes → List Nat → Except TrackerError (List CommitmentWindowBlock × TrackerNotes)
  | notes, [] => .ok ([], notes)
  | notes, height :: heights => do
    let (window, noted) ← notes.read (chain height) payouts
    let (windows, noted) ← noted.readAll chain payouts heights
    return (window :: windows, noted)

namespace TrackerNotes

variable {chain : Nat → BitcoinBlock} {payouts : PayoutSchedule} {notes notes' notes'' : TrackerNotes}
  {windows : List CommitmentWindowBlock}

theorem readAll_append_eq_ok {heights heights' : List Nat} :
    notes.readAll chain payouts (heights ++ heights') = .ok (windows, notes'') ↔
      ∃ front back middle, front ++ back = windows ∧
        notes.readAll chain payouts heights = .ok (front, middle) ∧
        middle.readAll chain payouts heights' = .ok (back, notes'') := by
  induction heights generalizing notes windows with
  | nil => simp [readAll]
  | cons height heights ih =>
    simp only [cons_append, readAll, bind_eq_ok, return_eq_ok, Prod.mk.injEq, Prod.exists]
    grind

/-- What reading one block leaves as it was. -/
structure ReadFrame (chain : Nat → BitcoinBlock) (first top : Nat) (notes notes' : TrackerNotes) :
    Prop where
  poxId : notes'.poxId = notes.poxId
  primed : notes'.primed = notes.primed
  waterfallPayouts : notes'.waterfallPayouts = notes.waterfallPayouts
  spent : notes'.keys.spent = notes.keys.spent
  keys : ∀ height index, (first ≤ height → registeredAt (chain height).operations index = none) →
    notes'.keys.registered.get (toLex (height, index))
      = notes.keys.registered.get (toLex (height, index))
  commitments : ∀ position ∈ notes'.commitments,
    position ∈ notes.commitments ∨ first ≤ position.1 ∧ position.1 < top
  commitments_subset : notes.commitments ⊆ notes'.commitments
  floor : notes'.commitmentFloor.getD top = notes.commitmentFloor.getD first

theorem ReadFrame.refl (first : Nat) (notes : TrackerNotes) :
    ReadFrame chain first first notes notes :=
  ⟨rfl, rfl, rfl, rfl, fun _ _ _ => rfl, fun _ h => .inl h, Finset.Subset.refl _, rfl⟩

theorem ReadFrame.trans {first middle top : Nat} (hfirst : first ≤ middle) (htop : middle ≤ top)
    (h : ReadFrame chain first middle notes notes')
    (h' : ReadFrame chain middle top notes' notes'') :
    ReadFrame chain first top notes notes'' where
  poxId := h'.poxId.trans h.poxId
  primed := h'.primed.trans h.primed
  waterfallPayouts := h'.waterfallPayouts.trans h.waterfallPayouts
  spent := h'.spent.trans h.spent
  keys := fun height index hnone =>
    (h'.keys height index fun hle => hnone (hfirst.trans hle)).trans (h.keys height index hnone)
  commitments := fun position hposition => by
    rcases h'.commitments position hposition with hold | hnew
    · exact (h.commitments position hold).imp_right fun hbetween =>
        ⟨hbetween.1, hbetween.2.trans_le htop⟩
    · exact .inr ⟨hfirst.trans hnew.1, hnew.2⟩
  commitments_subset := h.commitments_subset.trans h'.commitments_subset
  floor := h'.floor.trans h.floor

theorem read_frame {top : Nat} (hheight : (chain top).height = top) {window : CommitmentWindowBlock}
    (h : notes.read (chain top) payouts = .ok (window, notes')) :
    ReadFrame chain top (top + 1) notes notes' := by
  simp only [read, bind_eq_ok, return_eq_ok, Prod.mk.injEq] at h
  obtain ⟨resolved, -, -, rfl⟩ := h
  refine ⟨rfl, rfl, rfl, ?_, ?_, ?_, Finset.subset_union_left, ?_⟩
  · simp only [acceptedBlock, registerKeys, spent_registerOperations]
  · intro height index hnone
    simp only [acceptedBlock, registerKeys, get_registerOperations, hheight]
    by_cases htop : height = top
    · rw [if_pos htop, ← htop, hnone htop.ge, Option.none_or]
    · rw [if_neg htop]
  · intro position hposition
    simp only [acceptedBlock, Finset.mem_union] at hposition
    refine hposition.imp id fun hnew => ?_
    have hat := positionsOf_height hnew
    have hat' : position.1 = top := hat.trans hheight
    omega
  · simp [acceptedBlock, registerKeys, hheight]

theorem readAll_frame (hheight : ∀ height, (chain height).height = height) {first n : Nat}
    (h : notes.readAll chain payouts (List.range' first n) = .ok (windows, notes')) :
    ReadFrame chain first (first + n) notes notes' ∧ windows.length = n := by
  induction n generalizing first notes windows with
  | zero =>
    simp only [range'_zero, readAll, Except.ok.injEq, Prod.mk.injEq] at h
    obtain ⟨rfl, rfl⟩ := h
    exact ⟨.refl first notes, rfl⟩
  | succ n ih =>
    simp only [range'_succ, readAll, bind_eq_ok, return_eq_ok, Prod.mk.injEq, Prod.exists] at h
    obtain ⟨window, noted, hread, rest, _, hrest, rfl, rfl⟩ := h
    obtain ⟨hframe, hlength⟩ := ih hrest
    rw [Nat.add_right_comm] at hframe
    exact ⟨(read_frame (hheight first) hread).trans (Nat.le_succ _) (by omega) hframe,
      congrArg (· + 1) hlength⟩

end TrackerNotes

theorem NotesAgree.readAll {chain : Nat → BitcoinBlock} {payouts : PayoutSchedule}
    (hheight : ∀ height, (chain height).height = height)
    (hnodup : ∀ height, ((chain height).operations.map (·.txid)).Nodup) {first last top n : Nat}
    {notes notes' noted : TrackerNotes} {windows : List CommitmentWindowBlock}
    (h : NotesAgree chain payouts first last top notes notes') (hlast : top + n ≤ last + 1)
    (hread : notes.readAll chain payouts (List.range' top n) = .ok (windows, noted)) :
    ∃ noted', notes'.readAll chain payouts (List.range' top n) = .ok (windows, noted') ∧
      NotesAgree chain payouts first last (top + n) noted noted' := by
  induction n generalizing top notes notes' windows with
  | zero =>
    simp only [range'_zero, TrackerNotes.readAll, Except.ok.injEq, Prod.mk.injEq] at hread ⊢
    obtain ⟨rfl, rfl⟩ := hread
    exact ⟨notes', ⟨rfl, rfl⟩, h⟩
  | succ n ih =>
    simp only [range'_succ, TrackerNotes.readAll, TrackerNotes.read, bind_eq_ok, return_eq_ok,
      Prod.mk.injEq, Prod.exists] at hread
    obtain ⟨_, _, ⟨resolved, hresolved, rfl, rfl⟩, rest, _, hrest, rfl, rfl⟩ := hread
    rw [hheight] at hresolved
    have hregistered := h.registerKeys (hheight top)
    have hnext := NotesAgree.acceptedBlock hregistered (hheight top) (by omega) (hnodup top) resolved
    obtain ⟨noted', hrest', hagree⟩ := ih hnext (by omega) hrest
    have hwindow := hregistered.toNotesAgree.commitmentWindowBlock_eq (hheight top) (by omega) resolved
    have hresolved' : notes'.payoutsAt payouts (chain top).height = .ok resolved := by
      rw [hheight, h.payouts top (by omega)]
      exact hresolved
    refine ⟨noted', ?_, by rwa [Nat.add_right_comm] at hagree⟩
    simp only [range'_succ, TrackerNotes.readAll, TrackerNotes.read, hresolved', ok_bind,
      pure_eq_ok, hrest', Except.ok.injEq, Prod.mk.injEq, cons.injEq, and_true]
    exact hwindow

end NanoStacks.Tracker
