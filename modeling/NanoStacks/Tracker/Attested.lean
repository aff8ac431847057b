import NanoStacks.Sortition.Winner
import NanoStacks.Tracker.Loading

/-!
# The winner of a snapshot in its own block

Priming checks the winner its root names against the root's own block: a commitment of that
transaction must be kept, be on time, and carry the seed, the block and the key the root names
(`Attested`). Every winner a tracker elects is attested, so a tracker that is resumed on a snapshot
of its own passes the check.
-/

namespace NanoStacks.Tracker

open Bitcoin Sortition Result SortitionTracker SortitionEngine List Option TrackerNotes

variable (H : Hashes) (advantage : CarryoverAdvantage)

/-- The notes with the keys of a block, ready to accept its commitments. -/
def TrackerNotes.keepsOf (before : TrackerNotes) (block : BitcoinBlock)
    (operation : BitcoinOperation) : Bool :=
  (before.registerKeys block).keepsOperation (before.commitmentFloor.getD block.height) block
    operation

/-- The winner a snapshot names is a commitment the notes keep of its block. -/
def Attested (block : BitcoinBlock) (before : TrackerNotes) (snapshot : SortitionSnapshot) : Prop :=
  ∀ txid, snapshot.winnerTxid = some txid → block.hash = snapshot.bitcoinHeaderHash ∧
    ∃ operation ∈ block.operations, ∃ commit registration,
      operation.kind = .leaderBlockCommit commit ∧ operation.txid = txid ∧
      commitmentIsOnTime commit.parentModulus block.height ∧
      commit.keyBlockHeight < block.height ∧ before.keepsOf block operation ∧
      snapshot.winnerVrfSeed = some commit.newSeed ∧
      snapshot.committedBlockHash.all (· = commit.blockHeaderHash) ∧
      (before.registerKeys block).keys.registration commit.keyBlockHeight
        commit.keyTransactionIndex = some registration ∧
      snapshot.winnerSigningKeyHash.all (some · = registration.signingKeyHash)

/-! ## Winners that were elected -/

variable {block : BitcoinBlock} {resolved : PayoutSchedule} {operation : BitcoinOperation}

theorem fileCommitment_inl {keys : LeaderKeys} {candidate : MiningCommitment}
    (h : fileCommitment block resolved keys operation = some (.inl candidate)) :
    ∃ commit, operation.kind = .leaderBlockCommit commit ∧ operation.txid = candidate.txid ∧
      commitmentIsOnTime commit.parentModulus block.height ∧
      commit.keyBlockHeight < block.height ∧ candidate.vrfSeed = commit.newSeed ∧
      candidate.committedBlockHash = commit.blockHeaderHash ∧
      candidate.signingKeyHash = (keys.registration commit.keyBlockHeight
        commit.keyTransactionIndex).bind (·.signingKeyHash) := by
  have hadmissible := (NotesAgree.fileCommitment_eq_some h).1
  unfold fileCommitment at h
  cases hkind : operation.kind with
  | leaderBlockCommit commit =>
    simp only [hkind] at h
    simp only [commitmentIsAdmissible, hkind, Bool.and_eq_true, decide_eq_true_eq] at hadmissible
    split_ifs at h with hno hlate hontime
    · rw [some.injEq, Sum.inl.injEq] at h
      subst h
      exact ⟨commit, rfl, rfl, decide_eq_true hontime, hadmissible.1.2, rfl, rfl, rfl⟩
    · simp at h
  | _ => simp [hkind] at h

variable {commit : LeaderBlockCommit}

theorem keepsOperation_registration {notes : TrackerNotes} {floor : Nat}
    (hkind : operation.kind = .leaderBlockCommit commit)
    (h : notes.keepsOperation floor block operation) :
    (notes.keys.registration commit.keyBlockHeight commit.keyTransactionIndex).isSome := by
  simp only [keepsOperation, hkind, Bool.and_eq_true] at h
  exact h.2

variable {tracker : SortitionTracker} {snapshot : SortitionSnapshot}

/-- **Every winner a tracker elects is attested** by the notes it had before. -/
theorem advance_attested {payouts : PayoutSchedule}
    (hok : (tracker.advance H advantage block payouts).1 = .ok snapshot) :
    Attested block tracker.toTrackerNotes snapshot := by
  intro txid hwinner
  obtain ⟨-, resolved, -, happend⟩ := (advance_eq_ok H advantage).1 hok
  have hheader : snapshot.bitcoinHeaderHash = block.hash := (append_identified happend).2.1
  obtain ⟨candidate, hcandidate, rfl, hseed, hsigning, hcommitted⟩ :=
    append_winner H advantage happend hwinner
  rw [prepare_eq] at hcandidate
  simp only [acceptedBlock, commitmentWindowBlock, mem_filterMap,
    Sum.getLeft?_eq_some_iff] at hcandidate
  obtain ⟨_, ⟨operation, hmem, hfile⟩, rfl⟩ := hcandidate
  obtain ⟨commit, hkind, htxid, hontime, hkey, hnew, hblock, hhash⟩ := fileCommitment_inl hfile
  have hkept := mem_filter.1 hmem
  obtain ⟨registration, hregistration⟩ :=
    isSome_iff_exists.1 (keepsOperation_registration hkind hkept.2)
  refine ⟨hheader.symm, operation, hkept.1, commit, registration, hkind, htxid, hontime, hkey, hkept.2, ?_, ?_,
    hregistration, ?_⟩
  · rw [hseed, hnew]
  · rw [hcommitted, hblock]
    simp
  · rw [hsigning, hhash, hregistration]
    cases hsome : registration.signingKeyHash <;> simp [hsome]

/-! ## Winners that were authenticated -/

/-- The one commitment of a transaction that is on time. -/
def commitmentOf (block : BitcoinBlock) (txid : Txid) : Option LeaderBlockCommit :=
  block.operations.findSome? fun operation =>
    match operation.kind with
    | .leaderBlockCommit commit =>
      if operation.txid = txid ∧ commitmentIsOnTime commit.parentModulus block.height then
        some commit
      else none
    | _ => none

theorem authenticateBoundaryWinner_eq_ok {key : Bytes 32} :
    tracker.authenticateBoundaryWinner block = .ok key ↔
      (block.height = tracker.tip.bitcoinHeight ∧ block.hash = tracker.tip.bitcoinHeaderHash) ∧
      ∃ txid, tracker.tip.winnerTxid = some txid ∧
      ∃ commit, commitmentOf block txid = some commit ∧
        tracker.tip.winnerVrfSeed = some commit.newSeed ∧
        tracker.tip.committedBlockHash.all (· = commit.blockHeaderHash) ∧
      ∃ registration, tracker.keys.registration commit.keyBlockHeight commit.keyTransactionIndex
          = some registration ∧
        tracker.tip.winnerSigningKeyHash.all (some · = registration.signingKeyHash) ∧
        registration.vrfPublicKey = key := by
  simp only [authenticateBoundaryWinner, bind_eq_ok, okOr_eq_ok, ensure_eq_ok,
    return_eq_ok, commitmentOf]
  constructor
  · rintro ⟨-, hblock, txid, htxid, commit, hcommit, -, hseed, -, hcommitted, registration,
      hregistration, -, hsigning, rfl⟩
    exact ⟨hblock, txid, htxid, commit, hcommit, hseed, hcommitted, registration, hregistration,
      hsigning, rfl⟩
  · rintro ⟨hblock, txid, htxid, commit, hcommit, hseed, hcommitted, registration, hregistration,
      hsigning, rfl⟩
    exact ⟨(), hblock, txid, htxid, commit, hcommit, (), hseed, (), hcommitted, registration,
      hregistration, (), hsigning, rfl⟩

theorem commitmentOf_eq_some {txid : Txid} (h : commitmentOf block txid = some commit) :
    ∃ operation ∈ block.operations, operation.kind = .leaderBlockCommit commit ∧
      operation.txid = txid ∧ commitmentIsOnTime commit.parentModulus block.height := by
  obtain ⟨operation, hmem, hfound⟩ := exists_of_findSome?_eq_some h
  cases hkind : operation.kind with
  | leaderBlockCommit commit' =>
    simp only [hkind, ite_none_right_eq_some, some.injEq] at hfound
    obtain ⟨⟨htxid, hontime⟩, rfl⟩ := hfound
    exact ⟨operation, hmem, hkind, htxid, hontime⟩
  | _ => simp [hkind] at hfound

theorem commitmentOf_of_mem (hnodup : (block.operations.map (·.txid)).Nodup)
    (hmem : operation ∈ block.operations) (hkind : operation.kind = .leaderBlockCommit commit)
    (hontime : commitmentIsOnTime commit.parentModulus block.height) :
    commitmentOf block operation.txid = some commit := by
  have hsome : (commitmentOf block operation.txid).isSome := by
    rw [commitmentOf, findSome?_isSome_iff]
    exact ⟨operation, hmem, by simp [hkind, hontime]⟩
  obtain ⟨commit', hcommit'⟩ := isSome_iff_exists.1 hsome
  obtain ⟨operation', hmem', hkind', htxid', -⟩ := commitmentOf_eq_some hcommit'
  obtain rfl := NotesAgree.eq_of_txid hnodup hmem' hmem htxid'
  rw [hkind] at hkind'
  rw [hcommit', BitcoinOperationKind.leaderBlockCommit.inj hkind']

/-- The winner of a root that was authenticated is attested, if its key is older than its block. -/
theorem authenticate_attested {before : TrackerNotes} {key : Bytes 32}
    (hnotes : tracker.toTrackerNotes = ((before.registerKeys block).acceptedBlock block resolved).2)
    (hkeys : ∀ operation ∈ block.operations, tracker.tip.winnerTxid = some operation.txid →
      ∀ commit, operation.kind = .leaderBlockCommit commit → commit.keyBlockHeight < block.height)
    (hok : tracker.authenticateBoundaryWinner
      ((before.registerKeys block).acceptedBlock block resolved).1.1 = .ok key) :
    Attested block before tracker.tip := by
  intro txid hwinner
  obtain ⟨hblock, txid', hwinner', commit, hcommit, hseed, hcommitted, registration, hregistration,
    hsigning, -⟩ := authenticateBoundaryWinner_eq_ok.1 hok
  obtain rfl : txid' = txid := some.inj (hwinner'.symm.trans hwinner)
  obtain ⟨operation, hmem, hkind, rfl, hontime⟩ := commitmentOf_eq_some hcommit
  have hkept := mem_filter.1 hmem
  rw [hnotes] at hregistration
  exact ⟨hblock.2, operation, hkept.1, commit, registration, hkind, rfl, hontime,
    hkeys operation hkept.1 hwinner commit hkind, hkept.2, hseed, hcommitted, hregistration,
    hsigning⟩

theorem Attested.authenticate {before : TrackerNotes} (h : Attested block before tracker.tip)
    (hwinner : tracker.tip.winnerTxid.isSome)
    (hnotes : tracker.toTrackerNotes = ((before.registerKeys block).acceptedBlock block resolved).2)
    (hnodup : (block.operations.map (·.txid)).Nodup)
    (hheight : block.height = tracker.tip.bitcoinHeight) :
    ∃ key, tracker.authenticateBoundaryWinner
      ((before.registerKeys block).acceptedBlock block resolved).1.1 = .ok key := by
  obtain ⟨txid, htxid⟩ := isSome_iff_exists.1 hwinner
  obtain ⟨hhash, operation, hmem, commit, registration, hkind, rfl, hontime, -, hkept, hseed,
    hcommitted, hregistration, hsigning⟩ := h txid htxid
  have haccepted : operation ∈ ((before.registerKeys block).acceptedOperations block).operations :=
    mem_filter.2 ⟨hmem, hkept⟩
  have hunique : (((before.registerKeys block).acceptedOperations block).operations.map
      (·.txid)).Nodup := (filter_sublist.map _).nodup hnodup
  have hcommit := commitmentOf_of_mem hunique haccepted hkind hontime
  exact ⟨registration.vrfPublicKey, authenticateBoundaryWinner_eq_ok.2 ⟨⟨hheight, hhash⟩, operation.txid,
    htxid, commit, hcommit, hseed, hcommitted, registration, by rw [hnotes]; exact hregistration,
    hsigning, rfl⟩⟩

section Agree

variable {chain : Nat → BitcoinBlock} {payouts : PayoutSchedule} {first last top : Nat}
  {notes notes' : TrackerNotes}

section

variable (h : NotesAgree chain payouts first last top notes notes')
  (hheight : (chain top).height = top)

include h hheight

/-- What one keeps of the next block the other keeps as well, if it names an older key. -/
theorem NotesAgree.keepsOf_mono {operation : BitcoinOperation} {commit : LeaderBlockCommit}
    (hkind : operation.kind = .leaderBlockCommit commit) (hkey : commit.keyBlockHeight < top)
    (hkept : notes.keepsOf (chain top) operation) : notes'.keepsOf (chain top) operation := by
  have hregistered := (h.registerKeys hheight).toNotesAgree
  have hfloor := h.floor
  have hcommitments := h.commitments (commit.parentBlockHeight, commit.parentTransactionIndex)
  simp only [keepsOf, keepsOperation, hkind, Bool.and_eq_true,
    Bool.or_eq_true, decide_eq_true_eq, hheight, h.floor'] at hkept ⊢
  rw [hregistered.registration_eq hkey]
  refine ⟨?_, hkept.2⟩
  rcases hkept.1 with (hindex | hlow) | hmem
  · exact .inl (.inl hindex)
  · exact .inl (.inr (by omega))
  · by_cases hbelow : commit.parentBlockHeight < first
    · exact .inl (.inr hbelow)
    · exact .inr ((hcommitments (not_lt.1 hbelow)).2 hmem)

theorem NotesAgree.attested (hattested : Attested (chain top) notes snapshot) :
    Attested (chain top) notes' snapshot := by
  intro txid hwinner
  obtain ⟨hhash, operation, hmem, commit, registration, hkind, htxid, hontime, hkey, hkept, hseed,
    hcommitted, hregistration, hsigning⟩ := hattested txid hwinner
  rw [hheight] at hkey
  refine ⟨hhash, operation, hmem, commit, registration, hkind, htxid, hontime,
    hkey.trans_eq hheight.symm, h.keepsOf_mono hheight hkind hkey hkept, hseed, hcommitted, ?_, hsigning⟩
  rw [(h.registerKeys hheight).toNotesAgree.registration_eq hkey]
  exact hregistration

end

end Agree

/-! ## Priming a loaded tracker -/

theorem recoverSeedFrom_ok (hroot : tracker.engine.snapshots.snapshots.length = 1)
    (hseed : tracker.engine.snapshots.effectiveWinnerSeed.isSome)
    (hauthentic : tracker.tip.winnerTxid.isSome →
      (block.height = tracker.tip.bitcoinHeight ∧ block.hash = tracker.tip.bitcoinHeaderHash) ∧
        ∃ key, tracker.authenticateBoundaryWinner block = .ok key) :
    ∃ key, tracker.recoverSeedFrom block = .ok (tracker.fillTip tracker.tip.winnerVrfSeed key) := by
  unfold recoverSeedFrom
  by_cases hmissing : (tracker.tip.winnerTxid.isSome && tracker.tip.winnerVrfPublicKey.isNone) = true
  · rw [Bool.and_eq_true] at hmissing
    obtain ⟨hblock, key, hkey⟩ := hauthentic hmissing.1
    refine ⟨some key, ?_⟩
    simp only [hseed, hmissing.1, hmissing.2, Bool.and_self, Bool.not_true, Bool.and_false,
      Bool.false_eq_true, if_false, if_true, ensure_of_true hblock, ok_bind, hkey, okOr_eq_ok]
    exact (adopting_adoptRoot _).2 ⟨hroot, rfl⟩
  · rw [Bool.not_eq_true] at hmissing
    refine ⟨tracker.tip.winnerVrfPublicKey, ?_⟩
    simp only [hseed, hmissing, Bool.not_false, Bool.and_self, if_true, fillTip_self]

theorem effectiveWinnerSeed_root {chain : SnapshotChain} (h : chain.snapshots = [chain.tip]) :
    chain.effectiveWinnerSeed = chain.tip.winnerVrfSeed := by
  rw [effectiveWinnerSeed_eq, h]
  simp

/-- A tracker that was primed: it has read the blocks behind its root, and the root is filled in. -/
structure PrimedFrom (chain : Nat → BitcoinBlock) (payouts : PayoutSchedule)
    (fresh start : SortitionTracker) (windows : List CommitmentWindowBlock)
    (before : TrackerNotes) (window : CommitmentWindowBlock) (noted : TrackerNotes) : Prop where
  reads : fresh.toTrackerNotes.readAll chain payouts
    (List.range' (fresh.tip.bitcoinHeight - (miningCommitmentWindow - 1))
      (fresh.tip.bitcoinHeight - (fresh.tip.bitcoinHeight - (miningCommitmentWindow - 1))))
    = .ok (windows, before)
  read : before.read (chain fresh.tip.bitcoinHeight) payouts = .ok (window, noted)
  notes : start.toTrackerNotes = noted.stamped noted.poxId true
  window_eq : start.engine.commitmentWindow
    = (windows ++ [window]).foldl retainCommitments fresh.engine.commitmentWindow
  root : ∃ seed key spends, start.engine.snapshots
      = fresh.engine.snapshots.updateTip (filledRoot · seed key spends) ∧
    (fresh.engine.snapshots.effectiveWinnerSeed.isSome → seed = fresh.tip.winnerVrfSeed)

section Prime

variable {chain : Nat → BitcoinBlock} {payouts : PayoutSchedule}

variable {before noted : TrackerNotes} {window : CommitmentWindowBlock}

theorem read_eq_ok {block : BitcoinBlock} :
    before.read block payouts = .ok (window, noted) ↔
      ∃ resolved, before.payoutsAt payouts block.height = .ok resolved ∧
        ((before.registerKeys block).acceptedBlock block resolved).1.2 = window ∧
        ((before.registerKeys block).acceptedBlock block resolved).2 = noted := by
  simp only [TrackerNotes.read, bind_eq_ok, return_eq_ok, Prod.mk.injEq]

theorem prime_fillTip (tracker : SortitionTracker) (seed key : Option (Bytes 32))
    (commitments : CommitmentWindowBlock) :
    ∃ spends, (tracker.fillTip seed key).engine.prime tracker.tip.bitcoinHeight commitments =
      ⟨tracker.engine.snapshots.updateTip (filledRoot · seed key spends),
        retainCommitments tracker.engine.commitmentWindow commitments⟩ := by
  have hheight : (tracker.fillTip seed key).engine.snapshots.tip.bitcoinHeight
      = tracker.tip.bitcoinHeight := by
    simp only [fillTip, SnapshotChain.tip_updateTip]
    rfl
  refine ⟨spendsOf commitments tracker.tip.winnerTxid, ?_⟩
  rw [← hheight, prime_at_tip]
  simp only [fillTip, SnapshotChain.updateTip, SnapshotChain.tip,
    dropLast_concat, getLast_append_singleton]
  rfl

variable {fresh start : SortitionTracker}

theorem readsFrom_le (tracker : SortitionTracker) : tracker.readsFrom ≤ tracker.tip.bitcoinHeight :=
  Nat.sub_le _ _

theorem readsFrom_add (tracker : SortitionTracker) :
    tracker.tip.bitcoinHeight = tracker.readsFrom + (tracker.tip.bitcoinHeight - tracker.readsFrom) :=
  (Nat.add_sub_cancel' (readsFrom_le tracker)).symm

/-- What a primed tracker has read; and where the root's winner was authenticated, it is attested. -/
theorem prime_reads (hheight : ∀ height, (chain height).height = height)
    (hprime : fresh.prime (fun height => .ok (chain height)) payouts = .ok start) :
    ∃ windows before window noted,
      PrimedFrom chain payouts fresh start windows before window noted ∧
      (fresh.engine.snapshots.effectiveWinnerSeed.isSome → fresh.tip.winnerVrfPublicKey = none →
        (∀ operation ∈ (chain fresh.tip.bitcoinHeight).operations,
          fresh.tip.winnerTxid = some operation.txid → ∀ commit,
          operation.kind = .leaderBlockCommit commit →
          commit.keyBlockHeight < fresh.tip.bitcoinHeight) →
        Attested (chain fresh.tip.bitcoinHeight) before fresh.tip) := by
  rw [prime_eq payouts hheight rfl (readsFrom_add fresh)] at hprime
  simp only [bind_eq_ok, return_eq_ok, Prod.exists] at hprime
  obtain ⟨windows, before, hreads, primed, hprimed, rfl⟩ := hprime
  obtain ⟨resolved, hresolved, seeded, hseeded, rfl⟩ := (primeTip_eq_ok (hheight _)).1 hprimed
  obtain ⟨seed, key, rfl, hfacts⟩ := recoverSeedFrom_eq hseeded
  obtain ⟨spends, hengine⟩ := prime_fillTip
    ⟨((before.registerKeys (chain fresh.tip.bitcoinHeight)).acceptedBlock
        (chain fresh.tip.bitcoinHeight) resolved).2,
      ⟨fresh.engine.snapshots, windows.foldl retainCommitments fresh.engine.commitmentWindow⟩⟩
    seed key ((before.registerKeys (chain fresh.tip.bitcoinHeight)).acceptedBlock
      (chain fresh.tip.bitcoinHeight) resolved).1.2
  refine ⟨windows, before, _, _, ⟨hreads, read_eq_ok.2 ⟨resolved, hresolved, rfl, rfl⟩, rfl, ?_, ?_⟩,
    ?_⟩
  · refine (congrArg commitmentWindow hengine).trans ?_
    rw [foldl_append, foldl_cons, foldl_nil]
  · exact ⟨seed, key, spends, congrArg snapshots hengine, fun hsome => (hfacts hsome).1⟩
  · intro hsome hmissing hkeys txid hwinner
    have hauthentic := (hfacts hsome).2 (isSome_iff_exists.2 ⟨txid, hwinner⟩) hmissing
    refine authenticate_attested rfl (fun operation hmem htxid commit hkind => ?_) hauthentic txid
      hwinner
    rw [hheight]
    exact hkeys operation hmem htxid commit hkind

variable {windows : List CommitmentWindowBlock}

/-- A loaded tracker that can read its blocks and whose root is attested is primed. -/
theorem prime_ok (hheight : ∀ height, (chain height).height = height)
    (hnodup : ∀ height, ((chain height).operations.map (·.txid)).Nodup) (hloaded : Loaded H fresh)
    (hreads : fresh.toTrackerNotes.readAll chain payouts
      (List.range' fresh.readsFrom
        (fresh.tip.bitcoinHeight - fresh.readsFrom)) = .ok (windows, before))
    (hread : before.read (chain fresh.tip.bitcoinHeight) payouts = .ok (window, noted))
    (hseed : fresh.tip.winnerVrfSeed.isSome)
    (hattested : Attested (chain fresh.tip.bitcoinHeight) before fresh.tip) :
    ∃ start, fresh.prime (fun height => .ok (chain height)) payouts = .ok start ∧
      PrimedFrom chain payouts fresh start windows before window noted := by
  obtain ⟨resolved, hresolved, rfl, rfl⟩ := read_eq_ok.1 hread
  have heffective : fresh.engine.snapshots.effectiveWinnerSeed.isSome := by
    rw [effectiveWinnerSeed_root hloaded.root]
    exact hseed
  -- The tracker that has read all its blocks, before its root is filled in.
  obtain ⟨reader, hreader⟩ : ∃ reader : SortitionTracker, reader =
      ⟨((before.registerKeys (chain fresh.tip.bitcoinHeight)).acceptedBlock
          (chain fresh.tip.bitcoinHeight) resolved).2,
        ⟨fresh.engine.snapshots, windows.foldl retainCommitments fresh.engine.commitmentWindow⟩⟩ :=
    ⟨_, rfl⟩
  have htip : reader.tip = fresh.tip := by rw [hreader]; rfl
  have hnotes : reader.toTrackerNotes = ((before.registerKeys
      (chain fresh.tip.bitcoinHeight)).acceptedBlock (chain fresh.tip.bitcoinHeight) resolved).2 := by
    rw [hreader]
  have hsnapshots : reader.engine.snapshots = fresh.engine.snapshots := by rw [hreader]
  rw [← htip] at hattested
  have hblock : reader.tip.winnerTxid.isSome →
      (chain reader.tip.bitcoinHeight).height = reader.tip.bitcoinHeight ∧
        (chain reader.tip.bitcoinHeight).hash = reader.tip.bitcoinHeaderHash :=
    fun hwinner => ⟨hheight _, (hattested _ (get_mem hwinner)).1⟩
  rw [← htip] at hnotes
  have hrecovered : ∃ key, reader.recoverSeedFrom ((before.registerKeys
      (chain reader.tip.bitcoinHeight)).acceptedBlock (chain reader.tip.bitcoinHeight) resolved).1.1
        = .ok (reader.fillTip reader.tip.winnerVrfSeed key) :=
    recoverSeedFrom_ok (by rw [hsnapshots, hloaded.root]; rfl) (by rwa [hsnapshots])
      fun hwinner => ⟨hblock hwinner, hattested.authenticate hwinner hnotes (hnodup _) (hheight _)⟩
  obtain ⟨key, hrecovered⟩ := hrecovered
  obtain ⟨spends, hengine⟩ := prime_fillTip reader reader.tip.winnerVrfSeed key
    ((before.registerKeys (chain reader.tip.bitcoinHeight)).acceptedBlock
      (chain reader.tip.bitcoinHeight) resolved).1.2
  rw [htip] at hrecovered hengine
  subst hreader
  have htop : (chain fresh.tip.bitcoinHeight).height = (mk fresh.engine.snapshots
      (windows.foldl retainCommitments fresh.engine.commitmentWindow)).snapshots.tip.bitcoinHeight :=
    hheight _
  have hprimed := (primeTip_eq_ok htop).2 ⟨resolved, hresolved, _, hrecovered, rfl⟩
  have hprime := congrArg (· >>= fun primed : SortitionTracker =>
    (pure { primed with primed := true } : Except TrackerError SortitionTracker)) hprimed
  rw [ok_bind, pure_eq_ok] at hprime
  have hstart := prime_eq payouts hheight rfl (readsFrom_add fresh)
  rw [hreads, ok_bind] at hstart
  refine ⟨_, hstart.trans hprime, ⟨hreads, hread, rfl, ?_, ?_⟩⟩
  · refine (congrArg commitmentWindow hengine).trans ?_
    rw [foldl_append, foldl_cons, foldl_nil]
  · exact ⟨_, key, spends, congrArg snapshots hengine, fun _ => rfl⟩

theorem PrimedFrom.tip_eq (h : PrimedFrom chain payouts fresh start windows before window noted) :
    ∃ seed key spends, start.tip = filledRoot fresh.tip seed key spends ∧
      (fresh.engine.snapshots.effectiveWinnerSeed.isSome → seed = fresh.tip.winnerVrfSeed) := by
  obtain ⟨seed, key, spends, hsnapshots, hseed⟩ := h.root
  refine ⟨seed, key, spends, ?_, hseed⟩
  rw [tip, hsnapshots, SnapshotChain.tip_updateTip]
  rfl

variable {H} in
theorem PrimedFrom.coherent (hheight : ∀ height, (chain height).height = height)
    (hloaded : Loaded H fresh)
    (h : PrimedFrom chain payouts fresh start windows before window noted) :
    Coherent H start ∧ start.poxId = fresh.poxId ∧
      start.engine.snapshots.neededFrom = none ∧
      start.engine.snapshots.consensusHashes = fresh.engine.snapshots.consensusHashes ∧
      start.engine.snapshots.snapshots = [start.tip] := by
  obtain ⟨seed, key, spends, hsnapshots, -⟩ := h.root
  have htip : start.tip = filledRoot fresh.tip seed key spends := by
    rw [tip, hsnapshots, SnapshotChain.tip_updateTip]
    rfl
  have hpoxId : start.poxId = fresh.poxId := by
    rw [h.notes]
    exact ((read_frame (hheight _) h.read).poxId).trans
      (readAll_frame hheight h.reads).1.poxId
  refine ⟨⟨?_, ?_, ?_, ?_⟩, hpoxId, ?_, ?_, ?_⟩
  · rw [htip, hpoxId]
    exact hloaded.poxId
  · rw [hpoxId]
    exact hloaded.unbroken
  · rw [htip]
    exact hloaded.sortitionId
  · rw [htip, hsnapshots]
    exact hloaded.hashes
  · rw [hsnapshots]
    exact hloaded.needed
  · rw [hsnapshots]
    rfl
  · rw [htip, hsnapshots]
    simp only [SnapshotChain.updateTip, hloaded.root, dropLast_singleton, nil_append]
    rfl

end Prime

end NanoStacks.Tracker
