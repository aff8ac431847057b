import NanoStacks.Tracker.Attested

/-!
# A tracker saved and loaded again

A tracker saved at a height and loaded back reads the six blocks up to that height again, and walks
on from there. It derives what the tracker that was never restarted derives, provided what it cannot
know does not matter (`Restartable`): above all, that no commitment from there on names a parent
below those six blocks that the tracker had not accepted, since the resumed one lets every such
parent pass.
-/

namespace NanoStacks.Tracker

open Bitcoin Sortition Result Suffix SortitionTracker TrackerNotes OrdMap List Bytes Except

variable (H : Hashes) (advantage : CarryoverAdvantage)

/-! ## What comes back of the keys -/

theorem registerRows_registered (keys : LeaderKeys) (rows : List CapturedLeaderKey) :
    (registerRows keys rows).registered = keys.registered.insertAll
      (rows.map fun row => (toLex (row.blockHeight, row.vtxindex), row.registration)) := by
  induction rows generalizing keys with
  | nil => rfl
  | cons row rows ih => exact ih _

theorem map_registeredEntries (keys : LeaderKeys) :
    (registeredEntries keys).map
      (fun row => (toLex (row.blockHeight, row.vtxindex), row.registration))
        = keys.registered.entries := by
  rw [registeredEntries, map_map]
  exact map_id' _

theorem registerRows_registeredEntries (keys : LeaderKeys) :
    (registerRows .new (registeredEntries keys)).registered = keys.registered := by
  refine ext_get fun position => ?_
  rw [registerRows_registered, map_registeredEntries, get_insertAll _ keys.registered.sorted]
  exact Option.or_none

/-! ## What comes back of the payouts -/

theorem encodedWaterfallPayout_eq_ok {recipient : PoxAddress} {encoded : Bool × Bytes 32}
    (h : encodedWaterfallPayout recipient = .ok encoded) :
    recipient = .addr32 encoded.1 .p2tr encoded.2 := by
  unfold encodedWaterfallPayout at h
  split at h
  · rw [← ok.inj h]
  · simp at h

theorem capturedWaterfallPayouts_eq_ok {entries : List (Nat × WaterfallPayout)}
    {rows : List CapturedWaterfallPayout}
    (h : entries.mapM (fun entry => capturedWaterfallPayout entry.1 entry.2) = .ok rows) :
    rows.map (fun row => (row.bitcoinHeight, row.payout)) = entries := by
  induction entries generalizing rows with
  | nil =>
    obtain rfl : rows = [] := by simpa using h.symm
    rfl
  | cons entry entries ih =>
    simp only [mapM_cons, capturedWaterfallPayout, bind_eq_ok, return_eq_ok] at h
    obtain ⟨row, ⟨encoded, hencoded, rfl⟩, rest, hrest, rfl⟩ := h
    rw [map_cons, ih hrest, CapturedWaterfallPayout.payout, ← encodedWaterfallPayout_eq_ok hencoded]

/-- The payouts of a tracker, as far as they were observed at a height, with the recipient in force
there bound to the height itself. -/
def resumedPayouts (payouts : OrdMap Nat WaterfallPayout) (height : Nat) :
    OrdMap Nat WaterfallPayout :=
  OrdMap.insertAll
    (((payouts.floorEntry height).elim .empty fun entry =>
      OrdMap.empty.insert height ⟨height, entry.2.recipient⟩))
    (payouts.entries.filter (·.2.observedAt ≤ height))

section Payouts

variable {payouts : OrdMap Nat WaterfallPayout} {height : Nat} {entry : Nat × WaterfallPayout}

theorem get_resumedPayouts (key : Nat) :
    (resumedPayouts payouts height).get key =
      (OrdMap.getEntry key (payouts.entries.filter (·.2.observedAt ≤ height))).or
        (if key = height then
          (payouts.floorEntry height).map fun entry => ⟨height, entry.2.recipient⟩
        else none) := by
  rw [resumedPayouts, get_insertAll _ (payouts.sorted.filter _)]
  cases payouts.floorEntry height with
  | none => simp
  | some entry => simp

theorem mem_resumedPayouts_of_observed (hmem : entry ∈ payouts.entries)
    (hobserved : entry.2.observedAt ≤ height) : entry ∈ (resumedPayouts payouts height).entries := by
  have hget : getEntry entry.1 (payouts.entries.filter (·.2.observedAt ≤ height)) = some entry.2 :=
    (getEntry_eq_some (payouts.sorted.filter _)).2 (mem_filter.2 ⟨hmem, decide_eq_true hobserved⟩)
  refine (get_eq_some _).1 ?_
  rw [get_resumedPayouts, hget, Option.some_or]

theorem exists_resumedPayouts (hfloor : payouts.floorEntry height = some entry) :
    ∃ bound ∈ (resumedPayouts payouts height).entries,
      bound.1 = height ∧ bound.2.recipient = entry.2.recipient := by
  cases hget : getEntry height (payouts.entries.filter (·.2.observedAt ≤ height)) with
  | none =>
    refine ⟨(height, ⟨height, entry.2.recipient⟩), (get_eq_some _).1 ?_, rfl, rfl⟩
    rw [get_resumedPayouts, hget, hfloor, Option.none_or, if_pos rfl, Option.map_some]
  | some payout =>
    -- Then the entry in force is the one at the height.
    have hmem := (getEntry_eq_some (payouts.sorted.filter _)).1 hget
    obtain ⟨hentry, hle, hmax⟩ := (floorEntry_eq_some _).1 hfloor
    have hkey : entry.1 = height :=
      Nat.le_antisymm hle (hmax _ (mem_of_mem_filter hmem) (Nat.le_refl _))
    have hsame : entry = (height, payout) := by
      have hget' := (get_eq_some payouts).2 hentry
      rw [hkey, (get_eq_some payouts).2 (mem_of_mem_filter hmem)] at hget'
      exact Prod.ext hkey (Option.some.inj hget').symm
    refine ⟨(height, payout), (get_eq_some _).1 ?_, rfl, by rw [hsame]⟩
    rw [get_resumedPayouts, hget, Option.some_or]

theorem mem_payouts_of_mem_resumed (hmem : entry ∈ (resumedPayouts payouts height).entries) :
    entry ∈ payouts.entries ∨ entry.1 = height ∧
      ∃ inForce, payouts.floorEntry height = some inForce ∧
        entry.2.recipient = inForce.2.recipient := by
  have hget := (get_eq_some _).2 hmem
  rw [get_resumedPayouts, Option.or_eq_some_iff] at hget
  rcases hget with hget | ⟨-, hget⟩
  · exact .inl (mem_of_mem_filter ((getEntry_eq_some (payouts.sorted.filter _)).1 hget))
  · split_ifs at hget with hkey
    obtain ⟨inForce, hfloor, hpayout⟩ := Option.map_eq_some_iff.1 hget
    exact .inr ⟨hkey, inForce, hfloor, by rw [← hpayout]⟩

/-- Where every payout had been observed when they were saved, the recipient in force at any height
comes back. -/
theorem recipient_resumedPayouts {query : Nat}
    (hobserved : ∀ entry ∈ payouts.entries, entry.2.observedAt ≤ height) :
    ((resumedPayouts payouts height).floorEntry query).map (·.2.recipient)
      = (payouts.floorEntry query).map (·.2.recipient) := by
  cases hfloor : payouts.floorEntry query with
  | none =>
    have hnone : (resumedPayouts payouts height).floorEntry query = none := by
      rw [floorEntry_eq_none] at hfloor ⊢
      intro entry hmem hle
      rcases mem_payouts_of_mem_resumed hmem with hold | ⟨hkey, inForce, hin, -⟩
      · exact hfloor entry hold hle
      · obtain ⟨hmem', hle', -⟩ := (floorEntry_eq_some _).1 hin
        exact hfloor inForce hmem' (by omega)
    rw [hnone]
  | some entry =>
    obtain ⟨hmem, hle, hmax⟩ := (floorEntry_eq_some _).1 hfloor
    have hkept := mem_resumedPayouts_of_observed hmem (hobserved entry hmem)
    by_cases hsaved : height ≤ query ∧ entry.1 ≤ height
    · -- The entry was in force at the saved height, which is bound to its recipient.
      have hin : payouts.floorEntry height = some entry :=
        (floorEntry_eq_some _).2 ⟨hmem, hsaved.2, fun entry' hmem' hle' =>
          hmax entry' hmem' (hle'.trans hsaved.1)⟩
      obtain ⟨bound, hbound, hkey, hrecipient⟩ := exists_resumedPayouts hin
      have hfloor' : (resumedPayouts payouts height).floorEntry query = some bound := by
        refine (floorEntry_eq_some _).2 ⟨hbound, by omega, fun entry' hmem' hle' => ?_⟩
        rcases mem_payouts_of_mem_resumed hmem' with hold | ⟨hkey', -⟩
        · exact (hmax entry' hold hle').trans (hsaved.2.trans_eq hkey.symm)
        · omega
      rw [hfloor', Option.map_some, Option.map_some, hrecipient]
    · have hfloor' : (resumedPayouts payouts height).floorEntry query = some entry := by
        refine (floorEntry_eq_some _).2 ⟨hkept, hle, fun entry' hmem' hle' => ?_⟩
        rcases mem_payouts_of_mem_resumed hmem' with hold | ⟨hkey', -⟩
        · exact hmax entry' hold hle'
        · omega
      rw [hfloor']

end Payouts

/-! ## What is saved -/

theorem foldl_insert_payouts (base : OrdMap Nat WaterfallPayout)
    (rows : List CapturedWaterfallPayout) :
    rows.foldl (fun payouts row => payouts.insert row.bitcoinHeight row.payout) base
      = base.insertAll (rows.map fun row => (row.bitcoinHeight, row.payout)) := by
  rw [insertAll, foldl_map]

/-- The files of a tracker saved at a height it holds. -/
structure SavedAs (tracker : SortitionTracker) (snapshot : SortitionSnapshot) (capture : Capture) :
    Prop where
  snapshots : ∃ poxPayouts, capture.snapshots = [tracker.capturedSnapshot snapshot poxPayouts]
  hashes : capture.hashes = tracker.engine.snapshots.consensusHashes.rdrop
    (tracker.tip.bitcoinHeight - snapshot.bitcoinHeight)
  leaderKeys : capture.leaderKeys = registeredEntries tracker.keys
  waterfallPayouts : readWaterfallPayouts capture snapshot.bitcoinHeight
    = resumedPayouts tracker.waterfallPayouts snapshot.bitcoinHeight

variable {tracker : SortitionTracker} {snapshot : SortitionSnapshot} {capture : Capture}

theorem saveStandingOn_savedAs {height : Nat} (hle : height ≤ tracker.tip.bitcoinHeight)
    (hheld : tracker.snapshotAt height = some snapshot)
    (hsave : tracker.saveStandingOn height = .ok capture) : SavedAs tracker snapshot capture := by
  simp only [saveStandingOn, Nat.min_eq_left hle, hheld, okOr_some, ok_bind,
    bind_eq_ok, return_eq_ok] at hsave
  obtain ⟨poxPayouts, hencoded, rows, hrows, rfl⟩ := hsave
  refine ⟨⟨poxPayouts, rfl⟩, rfl, rfl, ?_⟩
  have hentries := capturedWaterfallPayouts_eq_ok hrows
  have hobserved : rows.filter (·.observedAt ≤ snapshot.bitcoinHeight) = rows := by
    refine filter_eq_self.2 fun row hrow => ?_
    have hmem : (row.bitcoinHeight, row.payout) ∈ tracker.waterfallPayouts.entries.filter
        (·.2.observedAt ≤ snapshot.bitcoinHeight) := by
      rw [← hentries]
      exact mem_map_of_mem hrow
    exact (mem_filter.1 hmem).2
  have hbase : [tracker.capturedSnapshot snapshot poxPayouts].foldl readRowPayout .empty =
      (tracker.waterfallPayouts.floorEntry snapshot.bitcoinHeight).elim .empty fun entry =>
        empty.insert snapshot.bitcoinHeight ⟨snapshot.bitcoinHeight, entry.2.recipient⟩ := by
    rw [waterfallRecipientAt] at hencoded
    cases hfloor : tracker.waterfallPayouts.floorEntry snapshot.bitcoinHeight with
    | none =>
      rw [hfloor] at hencoded
      obtain rfl : poxPayouts = none := by simpa using hencoded.symm
      rfl
    | some entry =>
      simp only [hfloor, Option.map_some, Option.mapM_some, map_eq_ok] at hencoded
      obtain ⟨encoded, hencoded, rfl⟩ := hencoded
      rw [Option.elim_some, encodedWaterfallPayout_eq_ok hencoded]
      rfl
  rw [readWaterfallPayouts, hobserved, foldl_insert_payouts, hentries, resumedPayouts, ← hbase]
  congr 2
  simp [capturedSnapshot]

/-! ## The snapshot saved -/

/-- A chain of snapshots cut at a height: what it holds up to there, and what it holds above. -/
structure CutAt (snapshots : SnapshotChain) (height : Nat)
    (upTo above : List SortitionSnapshot) : Prop where
  eq : snapshots.snapshots = upTo ++ above
  ne_nil : upTo ≠ []
  le : ∀ snapshot ∈ upTo, snapshot.bitcoinHeight ≤ height
  lt : ∀ snapshot ∈ above, height < snapshot.bitcoinHeight

theorem CutAt.dropWhile {snapshots : SnapshotChain} {height : Nat}
    {upTo above : List SortitionSnapshot} (h : CutAt snapshots height upTo above) :
    snapshots.snapshots.reverse.dropWhile (height < ·.bitcoinHeight) = upTo.reverse := by
  have habove : above.reverse.dropWhile (height < ·.bitcoinHeight) = [] := by
    rw [dropWhile_eq_nil_iff]
    exact fun snapshot hmem => decide_eq_true (h.lt snapshot (mem_reverse.1 hmem))
  rw [h.eq, reverse_append, dropWhile_append, habove, isEmpty_nil, if_pos rfl]
  refine dropWhile_eq_self_iff.2 fun hpos => ?_
  have hle := h.le _ (mem_reverse.1 (getElem_mem hpos))
  simpa using hle

section Cut

variable {H advantage} {start tracker : SortitionTracker} {branch : List AdvanceInput}
  {appends : List AppendInput} {below above : List SortitionSnapshot}

theorem Walked.bounds_of_held (hstart : Primed start.engine) {snapshots : List SortitionSnapshot}
    (h : Walked H advantage start branch appends snapshots tracker) {height : Nat}
    {snapshot : SortitionSnapshot} (hheld : tracker.snapshotAt height = some snapshot) :
    start.tip.bitcoinHeight ≤ height ∧ height ≤ tracker.tip.bitcoinHeight := by
  have hheights := h.built.heights
  have hlength := (h.built.held hstart).length_eq
  have hsuffix := (h.built.held hstart).suffix.length_le
  unfold snapshotAt SnapshotChain.snapshotAt at hheld
  have hle : height ≤ tracker.engine.snapshots.tip.bitcoinHeight := by
    by_contra hnot
    simp [hnot] at hheld
  have hback : tracker.engine.snapshots.tip.bitcoinHeight - height + 1
      ≤ tracker.engine.snapshots.snapshots.length := by
    by_contra hnot
    simp [hnot] at hheld
  unfold tip
  omega

/-- A snapshot that is still held is where the chain is cut; it is the last one derived up to
there. -/
theorem Walked.cutAt (hstart : Primed start.engine)
    (h : Walked H advantage start branch appends (below ++ above) tracker) (hne : below ≠ [])
    {height : Nat} (hheight : height + above.length = tracker.tip.bitcoinHeight)
    {snapshot : SortitionSnapshot} (hheld : tracker.snapshotAt height = some snapshot) :
    ∃ upTo, upTo <:+ below ∧ CutAt tracker.engine.snapshots height upTo above ∧
      below.getLast? = some snapshot := by
  have hsuffix := (h.built.held hstart).suffix
  obtain ⟨hnumbered, -, htip⟩ := h.built.heights
  have hlength := (h.built.held hstart).length_eq
  have hbranch := h.length_eq
  rw [length_append] at hlength
  have hback : tracker.engine.snapshots.tip.bitcoinHeight - height = above.length := by
    rw [tip] at hheight
    omega
  have hlong : above.length + 1 ≤ tracker.engine.snapshots.snapshots.length := by
    unfold snapshotAt SnapshotChain.snapshotAt at hheld
    simp only [hback] at hheld
    by_contra hshort
    simp [hshort] at hheld
  have hcut : tracker.engine.snapshots.snapshots
      = below.rtake (tracker.engine.snapshots.snapshots.length - above.length) ++ above := by
    rw [← rtake_append_of_ge _ (by omega), ← eq_rtake_of_suffix hsuffix]
  have hupTo : below.rtake (tracker.engine.snapshots.snapshots.length - above.length) ≠ [] := by
    have hpos := length_pos_iff.2 hne
    rw [← length_pos_iff, length_rtake]
    omega
  -- The heights count up from the root, so they tell the two parts apart.
  have hparts : below.map (·.bitcoinHeight) = range' start.tip.bitcoinHeight below.length ∧
      above.map (·.bitcoinHeight)
        = range' (start.tip.bitcoinHeight + below.length) above.length := by
    have hsplit : range' start.tip.bitcoinHeight (appends.length + 1)
        = range' start.tip.bitcoinHeight below.length ++
          range' (start.tip.bitcoinHeight + below.length) above.length := by
      rw [range'_append_1, hlength]
    rw [map_append] at hnumbered
    exact append_inj (hnumbered.trans hsplit) (by rw [length_map, length_range'])
  have hroot : height + 1 = start.tip.bitcoinHeight + below.length := by
    rw [tip] at hheight ⊢
    omega
  refine ⟨_, rtake_suffix below _, ⟨hcut, hupTo, fun earlier hmem => ?_, fun later hmem => ?_⟩, ?_⟩
  · have hin := mem_map_of_mem (f := (·.bitcoinHeight))
      ((rtake_suffix below _).subset hmem)
    rw [hparts.1, mem_range'_1] at hin
    omega
  · have hin := mem_map_of_mem (f := (·.bitcoinHeight)) hmem
    rw [hparts.2, mem_range'_1] at hin
    omega
  · unfold snapshotAt SnapshotChain.snapshotAt at hheld
    have hle : height ≤ tracker.engine.snapshots.tip.bitcoinHeight := by
      rw [tip] at hheight
      omega
    simp only [hback, hle, hlong, if_true] at hheld
    rw [← getLast?_of_suffix (rtake_suffix below _) hupTo, getLast?_eq_getElem?, ← hheld]
    conv_rhs => rw [hcut]
    rw [getElem?_append_left, length_append]
    · congr 1
      omega
    · rw [length_append]
      have hpos := length_pos_iff.2 hupTo
      omega

end Cut

/-! ## The root a saved snapshot is loaded as -/

/-- The snapshot a tracker resumes on: what is not written down of it is left out. -/
def resumedRoot (tracker : SortitionTracker) (snapshot : SortitionSnapshot) : SortitionSnapshot :=
  { snapshot with
    operationsHash := OpsHash.fromTxids H []
    winnerVrfSeed := tracker.engine.snapshots.effectiveWinnerSeedAtOrBelow snapshot.bitcoinHeight
    winnerVrfPublicKey := none
    winnerSigningKeyHash :=
      if snapshot.winnerTxid.isSome then snapshot.winnerSigningKeyHash else none
    committedBlockHash := if snapshot.winnerTxid.isSome then snapshot.committedBlockHash else none
    parentBitcoinHeight := none
    burnSpends := none
    miningCompetition := none }

theorem seedSnapshot_capturedSnapshot {cycles : Nat} (hpos : 1 ≤ cycles)
    (hle : cycles ≤ poxHistorySearchLimit) (hpoxId : snapshot.poxId = PoxId.unbroken cycles)
    (hidentified : snapshot.sortitionId = sortitionId H snapshot.bitcoinHeaderHash snapshot.poxId)
    (hshortest : ∀ fewer < cycles, 1 ≤ fewer →
      sortitionId H snapshot.bitcoinHeaderHash (PoxId.unbroken fewer) ≠ snapshot.sortitionId)
    (hseed : (tracker.engine.snapshots.effectiveWinnerSeedAtOrBelow snapshot.bitcoinHeight).isSome)
    (poxPayouts : Option (Bool × Bytes 32)) :
    seedSnapshot H (tracker.capturedSnapshot snapshot poxPayouts)
      = .ok (resumedRoot H tracker snapshot) := by
  have hfound : unbrokenPoxIdFor H snapshot.bitcoinHeaderHash snapshot.sortitionId
      poxHistorySearchLimit = some snapshot.poxId := by
    rw [hidentified, hpoxId] at hshortest
    rw [hidentified, hpoxId]
    exact unbrokenPoxIdFor_of_shortest H hpos hle hshortest
  have helected : (tracker.capturedSnapshot snapshot poxPayouts).elected
      = snapshot.winnerTxid.isSome := by
    cases hwinner : snapshot.winnerTxid <;>
      simp [CapturedSnapshot.elected, capturedSnapshot, hwinner]
  have hwinner : (if snapshot.winnerTxid.isSome then snapshot.winnerTxid else none)
      = snapshot.winnerTxid := by
    cases snapshot.winnerTxid <;> rfl
  have hrow : (tracker.capturedSnapshot snapshot poxPayouts).winnerVrfSeed.isSome := hseed
  unfold seedSnapshot
  simp only [helected, ensure_of_true (Or.inl hrow), ok_bind]
  simp only [capturedSnapshot, hfound, okOr_some, ok_bind, hwinner, Option.getD_some]
  rfl

theorem Attested.resumedRoot {block : BitcoinBlock} {before : TrackerNotes}
    {below : List SortitionSnapshot} (hlast : below.getLast? = some snapshot)
    (hseed : below.reverse.findSome? (·.winnerVrfSeed)
      = tracker.engine.snapshots.effectiveWinnerSeedAtOrBelow snapshot.bitcoinHeight)
    (h : Attested block before snapshot) : Attested block before (resumedRoot H tracker snapshot) := by
  intro txid hwinner
  obtain ⟨hhash, operation, hmem, commit, registration, hkind, htxid, hontime, hkey, hkept, hnew,
    hcommitted, hregistration, hsigning⟩ := h txid hwinner
  have helected : snapshot.winnerTxid.isSome := Option.isSome_iff_exists.2 ⟨txid, hwinner⟩
  refine ⟨hhash, operation, hmem, commit, registration, hkind, htxid, hontime, hkey, hkept, ?_, ?_,
    hregistration, ?_⟩
  · obtain ⟨earlier, rfl⟩ := getLast?_eq_some_iff.1 hlast
    rw [reverse_append, reverse_singleton, singleton_append, findSome?_cons, hnew] at hseed
    exact hseed.symm
  · show Option.all _ (if snapshot.winnerTxid.isSome then _ else _) = true
    rw [if_pos helected]
    exact hcommitted
  · show Option.all _ (if snapshot.winnerTxid.isSome then _ else _) = true
    rw [if_pos helected]
    exact hsigning

theorem fromCapture_saved (hsaved : SavedAs tracker snapshot capture)
    (hlast : capture.hashes.getLast? = some snapshot.consensusHash)
    (hseed : ∀ poxPayouts, seedSnapshot H (tracker.capturedSnapshot snapshot poxPayouts)
      = .ok (resumedRoot H tracker snapshot)) :
    ∃ poxPayouts, fromCapture H capture = .ok (loadedTracker capture
      (tracker.capturedSnapshot snapshot poxPayouts) (resumedRoot H tracker snapshot)
      capture.hashes) := by
  obtain ⟨poxPayouts, hrows⟩ := hsaved.snapshots
  refine ⟨poxPayouts, ?_⟩
  have hfind : capture.snapshots.find? (·.consensusHash = snapshot.consensusHash)
      = some (tracker.capturedSnapshot snapshot poxPayouts) := by
    rw [hrows, find?_cons_of_pos]
    exact decide_eq_true rfl
  simp only [fromCapture, hlast, okOr_some, ok_bind, hfind]
  exact (trackerFromCaptureSeed_eq_ok H).2 ⟨_, hseed poxPayouts, hlast, rfl⟩

/-! ## What a tracker has read -/

/-- A tracker that has read the blocks of a chain from `first` up to its tip. -/
structure HasRead (chain : Nat → BitcoinBlock) (payouts : PayoutSchedule)
    (fresh tracker : SortitionTracker) (first : Nat) (windows : List CommitmentWindowBlock)
    (notes : TrackerNotes) : Prop where
  le : first ≤ tracker.tip.bitcoinHeight
  reads : fresh.toTrackerNotes.readAll chain payouts
    (List.range' first (tracker.tip.bitcoinHeight + 1 - first)) = .ok (windows, notes)
  notes_eq : tracker.toTrackerNotes = notes.stamped tracker.poxId true
  window : tracker.engine.commitmentWindow = windows.foldl retainCommitments []

section HasRead

variable {H advantage} {chain : Nat → BitcoinBlock} {payouts : PayoutSchedule}
  {fresh tracker tracker' : SortitionTracker} {windows : List CommitmentWindowBlock}
  {notes : TrackerNotes} {first : Nat}

variable {derived : List SortitionSnapshot} {inputs : List AdvanceInput}

theorem walk_tip (hwalk : tracker.walk H advantage inputs = .ok (derived, tracker')) :
    tracker'.tip.bitcoinHeight = tracker.tip.bitcoinHeight + inputs.length ∧
      derived.length = inputs.length := by
  obtain ⟨appends, hwalked⟩ := Walked.start.append_walk hwalk
  rw [nil_append] at hwalked
  have hheights := hwalked.built.heights
  have hlength := congrArg length hheights.1
  have hinputs := hwalked.length_eq
  rw [length_map, length_range', length_append, length_singleton] at hlength
  refine ⟨?_, by omega⟩
  rw [hinputs]
  exact hheights.2.2

theorem HasRead.walk (h : HasRead chain payouts fresh tracker first windows notes) {n : Nat}
    (hwalk : tracker.walk H advantage ((List.range' (tracker.tip.bitcoinHeight + 1) n).map
      fun height => ⟨chain height, payouts⟩) = .ok (derived, tracker')) :
    ∃ windows' notes',
      notes.readAll chain payouts (List.range' (tracker.tip.bitcoinHeight + 1) n)
        = .ok (windows', notes') ∧
      HasRead chain payouts fresh tracker' first (windows ++ windows') notes' := by
  have htip := (walk_tip hwalk).1
  rw [length_map, length_range'] at htip
  have hle := h.le
  obtain ⟨windows', noted, hreads, hnotes, hwindow⟩ := walk_reads hwalk
  have hback := readAll_stamped hreads notes.poxId notes.primed
  rw [h.notes_eq] at hback
  have hprimed : tracker.primed = true := (congrArg primed h.notes_eq).trans rfl
  refine ⟨windows', _, hback, ⟨by omega, ?_, ?_, ?_⟩⟩
  · have hall := readAll_append_eq_ok.2 ⟨_, _, _, rfl, h.reads, hback⟩
    have hrange : range' first (tracker.tip.bitcoinHeight + 1 - first) ++
        range' (tracker.tip.bitcoinHeight + 1) n
        = range' first (tracker'.tip.bitcoinHeight + 1 - first) := by
      have hstep : tracker.tip.bitcoinHeight + 1
          = first + (tracker.tip.bitcoinHeight + 1 - first) := by omega
      conv_lhs => rw [hstep, Nat.add_sub_cancel_left]
      rw [range'_append_1]
      congr 1
      omega
    rwa [hrange] at hall
  · rw [hprimed] at hnotes
    exact hnotes
  · rw [hwindow, h.window, foldl_append]

theorem PrimedFrom.hasRead {start : SortitionTracker} {before noted : TrackerNotes}
    {window : CommitmentWindowBlock} (hloaded : Loaded H fresh)
    (h : PrimedFrom chain payouts fresh start windows before window noted) :
    HasRead chain payouts fresh start fresh.readsFrom (windows ++ [window]) noted := by
  obtain ⟨seed, key, spends, htip, -⟩ := h.tip_eq
  have hheight : start.tip.bitcoinHeight = fresh.tip.bitcoinHeight := by
    rw [htip]
    rfl
  have hone : before.readAll chain payouts [fresh.tip.bitcoinHeight] = .ok ([window], noted) := by
    simp only [readAll, h.read, ok_bind, pure_eq_ok]
  have hfirst := readsFrom_le fresh
  refine ⟨by omega, ?_, ?_, ?_⟩
  · have hall := readAll_append_eq_ok.2 ⟨_, _, _, rfl, h.reads, hone⟩
    have hrange : range' fresh.readsFrom (fresh.tip.bitcoinHeight - fresh.readsFrom) ++
        [fresh.tip.bitcoinHeight]
        = range' fresh.readsFrom (start.tip.bitcoinHeight + 1 - fresh.readsFrom) := by
      rw [hheight, Nat.sub_add_comm hfirst, range'_concat, Nat.one_mul, Nat.add_sub_cancel' hfirst]
    rwa [hrange] at hall
  · have hpoxId : start.poxId = noted.poxId := (congrArg poxId h.notes).trans rfl
    rw [hpoxId]
    exact h.notes
  · rw [h.window_eq, hloaded.window]

end HasRead

/-! ## Restarting -/

/-- What a restart at a height cannot know does not matter for the blocks up to `last`. -/
structure Restartable (chain : Nat → BitcoinBlock) (payouts : PayoutSchedule)
    (fresh tracker : SortitionTracker) (height last : Nat) : Prop where
  /-- A commitment of the blocks read again or after, with a parent below these, other than by
  index zero, names one the tracker accepted or started above. -/
  parents : ∀ at', height - (miningCommitmentWindow - 1) ≤ at' → at' ≤ last →
    ∀ operation ∈ (chain at').operations, ∀ commit,
    operation.kind = .leaderBlockCommit commit → commit.parentTransactionIndex ≠ 0 →
    commit.parentBlockHeight < height - (miningCommitmentWindow - 1) →
    commit.parentBlockHeight < fresh.tip.bitcoinHeight - (miningCommitmentWindow - 1) ∨
      (commit.parentBlockHeight, commit.parentTransactionIndex) ∈ tracker.commitments
  /-- A winning seed at or below the height is still held. -/
  seed : (tracker.engine.snapshots.effectiveWinnerSeedAtOrBelow height).isSome
  /-- The reward-cycle history of the height can be found from its identifier. -/
  cycles : ∀ snapshot, tracker.snapshotAt height = some snapshot →
    snapshot.poxId.bits.length ≤ poxHistorySearchLimit ∧
    ∀ fewer < snapshot.poxId.bits.length, 1 ≤ fewer →
      sortitionId H snapshot.bitcoinHeaderHash (PoxId.unbroken fewer) ≠ snapshot.sortitionId
  /-- At its own root, the tracker was given the seed of the winner, if there was one, and the
  winner's key is older than the root. -/
  root : fresh.tip.bitcoinHeight = height → fresh.tip.winnerTxid = none ∨
    fresh.tip.winnerVrfSeed.isSome ∧
      ∀ operation ∈ (chain height).operations, fresh.tip.winnerTxid = some operation.txid →
        ∀ commit, operation.kind = .leaderBlockCommit commit → commit.keyBlockHeight < height

theorem range'_split {first middle top : Nat} (hfirst : first ≤ middle) (htop : middle ≤ top) :
    List.range' first (top - first)
      = List.range' first (middle - first) ++ List.range' middle (top - middle) := by
  have hmiddle : middle = first + (middle - first) := by omega
  conv_rhs => rw [hmiddle, Nat.add_sub_cancel_left]
  rw [range'_append_1]
  congr 1
  omega

section Restart

variable {H advantage} {chain : Nat → BitcoinBlock} {payouts : PayoutSchedule}
  {fresh start tracker : SortitionTracker} {height last : Nat}

variable {low high : Nat}

variable {derived : List SortitionSnapshot} {tracker' : SortitionTracker}

theorem walk_snapshots {inputs : List AdvanceInput}
    (hwalk : tracker.walk H advantage inputs = .ok (derived, tracker')) :
    tracker'.engine.snapshots = derived.foldl SnapshotChain.push tracker.engine.snapshots := by
  induction inputs generalizing tracker derived with
  | nil =>
    obtain ⟨rfl, rfl⟩ := walk_nil_eq_ok.1 hwalk
    rfl
  | cons input inputs ih =>
    obtain ⟨snapshot, hok, rest, hrest, rfl⟩ := walk_cons_eq_ok.1 hwalk
    obtain ⟨-, resolved, hresolved, happend⟩ := (advance_eq_ok H advantage).1 hok
    rw [ih hrest, advance_snd H advantage hok hresolved, foldl_cons]
    rfl

theorem foldl_push_hashes (derived : List SortitionSnapshot) (snapshots : SnapshotChain) :
    (derived.foldl SnapshotChain.push snapshots).consensusHashes
      = snapshots.consensusHashes ++ derived.map (·.consensusHash) := by
  induction derived generalizing snapshots with
  | nil => simp
  | cons snapshot derived ih =>
    rw [foldl_cons, ih, map_cons, append_cons]
    rfl

theorem blocksBetween_append {middle : Nat} (hlow : low ≤ middle) (hhigh : middle ≤ high) :
    blocksBetween chain payouts low high
      = blocksBetween chain payouts low middle ++ blocksBetween chain payouts middle high := by
  have hrange := range'_split (Nat.succ_le_succ hlow) (Nat.succ_le_succ hhigh)
  simp only [Nat.succ_eq_add_one, Nat.add_sub_add_right] at hrange
  rw [blocksBetween, blocksBetween, blocksBetween, ← map_append, hrange]

theorem walk_between_split {middle : Nat} (hlow : low ≤ middle) (hhigh : middle ≤ high)
    (hwalk : tracker.walk H advantage (blocksBetween chain payouts low high)
      = .ok (derived, tracker')) :
    ∃ front back reached, derived = front ++ back ∧
      tracker.walk H advantage (blocksBetween chain payouts low middle) = .ok (front, reached) ∧
      reached.walk H advantage (blocksBetween chain payouts middle high)
        = .ok (back, tracker') := by
  rw [blocksBetween_append hlow hhigh] at hwalk
  exact walk_split hwalk

theorem length_blocksBetween (low high : Nat) :
    (blocksBetween chain payouts low high).length = high - low := by
  rw [blocksBetween, length_map, length_range']

theorem Coherent.seedSnapshot_tip {standing : SortitionTracker} (hstanding : Coherent H standing)
    (hheld : tracker.snapshotAt standing.tip.bitcoinHeight = some standing.tip)
    (hrestart : Restartable H chain payouts fresh tracker standing.tip.bitcoinHeight last)
    (poxPayouts : Option (Bool × Bytes 32)) :
    seedSnapshot H (tracker.capturedSnapshot standing.tip poxPayouts)
      = .ok (resumedRoot H tracker standing.tip) := by
  obtain ⟨cycles, hpos, hunbroken⟩ := hstanding.unbroken
  have hpoxId := hstanding.poxId.trans hunbroken
  have hcycles := hrestart.cycles standing.tip hheld
  have hbits : standing.tip.poxId.bits.length = cycles := by
    rw [hpoxId, PoxId.unbroken, length_replicate]
  rw [hbits] at hcycles
  exact seedSnapshot_capturedSnapshot H hpos hcycles.1 hpoxId hstanding.sortitionId hcycles.2
    hrestart.seed poxPayouts

variable {windows front : List CommitmentWindowBlock} {notes before : TrackerNotes}

section

variable {first middle : Nat} (hfirst : first ≤ middle)

include hfirst

theorem readAll_split {after : TrackerNotes} {top : Nat} (htop : middle ≤ top) :
    notes.readAll chain payouts (range' first (top - first)) = .ok (windows, after) ↔
      ∃ front back between, front ++ back = windows ∧
        notes.readAll chain payouts (range' first (middle - first)) = .ok (front, between) ∧
        between.readAll chain payouts (range' middle (top - middle)) = .ok (back, after) := by
  rw [range'_split hfirst htop]
  exact readAll_append_eq_ok

/-- What is read after what has been read up to a height. -/
theorem HasRead.rest (hread : HasRead chain payouts fresh tracker first windows notes)
    (hmiddle : middle ≤ tracker.tip.bitcoinHeight + 1)
    (hfront : fresh.toTrackerNotes.readAll chain payouts (range' first (middle - first))
      = .ok (front, before)) :
    ∃ back, front ++ back = windows ∧ before.readAll chain payouts
      (range' middle (tracker.tip.bitcoinHeight + 1 - middle)) = .ok (back, notes) := by
  obtain ⟨front', back, between, hwindows, hfront', hback⟩ :=
    (readAll_split hfirst hmiddle).1 hread.reads
  rw [hfront, ok.injEq, Prod.mk.injEq] at hfront'
  obtain ⟨rfl, rfl⟩ := hfront'
  exact ⟨back, hwindows, hback⟩

end

section

variable (hheight : ∀ height, (chain height).height = height)

include hheight

theorem resumed_agree (hloaded : Loaded H fresh)
    (hread : HasRead chain payouts fresh tracker fresh.readsFrom windows notes)
    (hfresh : fresh.tip.bitcoinHeight ≤ height) (hle : height ≤ tracker.tip.bitcoinHeight)
    (hfront : fresh.toTrackerNotes.readAll chain payouts
      (List.range' fresh.readsFrom
        (height - (miningCommitmentWindow - 1) - fresh.readsFrom)) = .ok (front, before))
    (hrestart : Restartable H chain payouts fresh tracker height last)
    {snapshot root : SortitionSnapshot} (hsaved : SavedAs tracker snapshot capture)
    (hsnapshot : snapshot.bitcoinHeight = height) (poxPayouts : Option (Bool × Bytes 32))
    (hashes : List ConsensusHash) :
    NotesAgree chain payouts (height - (miningCommitmentWindow - 1)) last
      (height - (miningCommitmentWindow - 1)) before
      (loadedTracker capture (tracker.capturedSnapshot snapshot poxPayouts) root
        hashes).toTrackerNotes := by
  have hfirst : fresh.readsFrom ≤ height - (miningCommitmentWindow - 1) := Nat.sub_le_sub_right hfresh _
  obtain ⟨back, -, hback⟩ := hread.rest hfirst (by omega) hfront
  have hbelow := (readAll_frame hheight hfront).1
  have habove := (readAll_frame hheight hback).1
  have hkeys : (loadedTracker capture (tracker.capturedSnapshot snapshot poxPayouts) root
      hashes).keys.registered = notes.keys.registered := by
    show (registerRows .new (registeredEntries (registerRows .new capture.leaderKeys))).registered = _
    rw [registerRows_registeredEntries, hsaved.leaderKeys, registerRows_registeredEntries,
      hread.notes_eq]
    rfl
  have hfloor : before.commitmentFloor.getD (height - (miningCommitmentWindow - 1))
      = fresh.readsFrom := by
    have hframe := hbelow.floor
    rw [hloaded.floor, Option.getD_none, Nat.add_sub_cancel' (by omega)] at hframe
    exact hframe
  refine
    { spent := ?_
      keys := fun at' index hnone => ?_
      commitments := fun position hle' => ?_
      floor := by rw [hfloor]; omega
      floor' := rfl
      payouts := fun at' hle' => ?_
      parents := fun at' hge hle' operation hmem commit hkind hindex hlow => ?_ }
  · rw [hbelow.spent, hloaded.spent]
    exact spent_registerRows _ _
  · rw [hkeys]
    exact habove.keys at' index hnone
  · constructor
    · intro hmem
      exact absurd hmem (Finset.notMem_empty _)
    · intro hmem
      rcases hbelow.commitments position hmem with hold | hnew
      · rw [hloaded.commitments] at hold
        exact absurd hold (Finset.notMem_empty _)
      · omega
  · have hpayouts : tracker.waterfallPayouts = before.waterfallPayouts := by
      rw [hread.notes_eq]
      exact habove.waterfallPayouts
    have hresumed : (loadedTracker capture (tracker.capturedSnapshot snapshot poxPayouts) root
        hashes).waterfallPayouts = resumedPayouts before.waterfallPayouts height := by
      rw [← hsnapshot, ← hpayouts, ← hsaved.waterfallPayouts]
      rfl
    rw [payoutsAt, payoutsAt, waterfallRecipientAt, waterfallRecipientAt, hresumed,
      recipient_resumedPayouts fun entry hmem => ?_]
    rw [hbelow.waterfallPayouts] at hmem
    exact (hloaded.payouts entry hmem).trans hfresh
  · rw [hfloor]
    refine (hrestart.parents at' hge hle' operation hmem commit hkind hindex hlow).imp_right ?_
    intro haccepted
    rw [hread.notes_eq] at haccepted
    refine (habove.commitments _ haccepted).resolve_right fun hnew => ?_
    exact absurd hnew.1 (not_le.2 hlow)

omit hheight in
theorem HasRead.walk_between {first : Nat}
    (h : HasRead chain payouts fresh tracker first windows notes) (hwalk : tracker.walk H advantage
      (blocksBetween chain payouts tracker.tip.bitcoinHeight high) = .ok (derived, tracker')) :
    ∃ windows' notes', HasRead chain payouts fresh tracker' first windows' notes' := by
  obtain ⟨windows', notes', -, hread⟩ := h.walk hwalk
  exact ⟨_, notes', hread⟩

/-- The winner of every snapshot a tracker derived, or was primed on, is attested by what it had
read below that height. -/
theorem attested_at (hloaded : Loaded H fresh)
    (hprime : fresh.prime (fun height => .ok (chain height)) payouts = .ok start)
    (hroot : fresh.tip.bitcoinHeight = height → fresh.tip.winnerTxid = none ∨
      fresh.tip.winnerVrfSeed.isSome ∧
        ∀ operation ∈ (chain height).operations, fresh.tip.winnerTxid = some operation.txid →
          ∀ commit, operation.kind = .leaderBlockCommit commit → commit.keyBlockHeight < height)
    (hle : start.tip.bitcoinHeight ≤ height) {reached : SortitionTracker}
    (hwalk : start.walk H advantage (blocksBetween chain payouts start.tip.bitcoinHeight height)
      = .ok (derived, reached)) (hbefore : fresh.toTrackerNotes.readAll chain payouts
      (List.range' fresh.readsFrom (height - fresh.readsFrom)) = .ok (windows, before)) :
    Attested (chain height) before reached.tip := by
  obtain ⟨behind, below, window, noted, hprimed, hattested⟩ := prime_reads hheight hprime
  obtain ⟨seed, key, spends, htip, hseed⟩ := hprimed.tip_eq
  have htop : start.tip.bitcoinHeight = fresh.tip.bitcoinHeight := by
    rw [htip]
    rfl
  rcases hle.eq_or_lt with heq | hlt
  · -- The tracker stands on its root.
    have hsame : fresh.tip.bitcoinHeight = height := htop.symm.trans heq
    subst hsame
    have hstay : reached = start := by
      rw [heq, blocksBetween, Nat.sub_self] at hwalk
      simp only [range'_zero, map_nil, walk, ok.injEq, Prod.mk.injEq] at hwalk
      exact hwalk.2.symm
    have hbelow : below = before := by
      have hreads := hprimed.reads
      rw [hbefore, ok.injEq, Prod.mk.injEq] at hreads
      exact hreads.2.symm
    rw [hstay, htip]
    rcases hroot rfl with hnone | ⟨hsome, hkeys⟩
    · intro txid hwinner
      exact absurd (hnone.symm.trans hwinner) (by simp)
    · have heffective : fresh.engine.snapshots.effectiveWinnerSeed.isSome := by
        rw [effectiveWinnerSeed_root hloaded.root]
        exact hsome
      rw [hseed heffective, ← hbelow]
      exact hattested heffective hloaded.winnerVrfPublicKey hkeys
  · -- The last block was advanced over, by a tracker that had read all below it.
    obtain ⟨below', rfl⟩ : ∃ below', height = below' + 1 := ⟨height - 1, by omega⟩
    obtain ⟨front, back, middle, -, hfront, hback⟩ :=
      walk_between_split (Nat.le_of_lt_succ hlt) (Nat.le_succ below') hwalk
    obtain ⟨windows', notes', hread⟩ := (hprimed.hasRead hloaded).walk_between hfront
    have hmiddle : middle.tip.bitcoinHeight = below' := by
      rw [(walk_tip hfront).1, length_blocksBetween]
      omega
    have hcoherent : Coherent H middle := (hprimed.coherent hheight hloaded).1.walk hfront
    have hnotes : notes' = before := by
      have hreads := hread.reads
      rw [hmiddle, hbefore, ok.injEq, Prod.mk.injEq] at hreads
      exact hreads.2.symm
    have hone : blocksBetween chain payouts below' (below' + 1)
        = [⟨chain (below' + 1), payouts⟩] := by
      rw [blocksBetween, Nat.add_sub_cancel_left]
      rfl
    rw [hone] at hback
    obtain ⟨snapshot, hok, _, hend, -⟩ := walk_cons_eq_ok.1 hback
    obtain ⟨-, rfl⟩ := walk_nil_eq_ok.1 hend
    have hnew := advance_attested H advantage hok
    rw [hread.notes_eq, hnotes] at hnew
    rw [(hcoherent.advance hok).2]
    exact hnew

omit hheight in
/-- Windows read from some block on, and those of the last blocks of them, end alike. -/
theorem rtake_retained {back : List CommitmentWindowBlock}
    (h : miningCommitmentWindow - 1 ≤ back.length ∨ front = []) :
    (back.foldl retainCommitments []).rtake (miningCommitmentWindow - 1)
      = ((front ++ back).foldl retainCommitments []).rtake (miningCommitmentWindow - 1) := by
  have hshort : miningCommitmentWindow - 1 ≤ retainedCommitmentBlocks := by decide
  rw [foldl_retainCommitments _ _ (Nat.zero_le _), foldl_retainCommitments _ _ (Nat.zero_le _),
    rtake_rtake_of_le _ hshort, rtake_rtake_of_le _ hshort, nil_append, nil_append]
  rcases h with hlong | rfl
  · rw [rtake_append_of_le _ hlong]
  · rw [nil_append]

section

variable (hnodup : ∀ height, ((chain height).operations.map (·.txid)).Nodup)

include hnodup

/-- **A tracker loaded on what another stands on resumes it**, once it has read again the blocks
behind it. -/
theorem Loaded.resumes {reached resumed : SortitionTracker} {branch : List AdvanceInput}
    {appends : List AppendInput} {below : List SortitionSnapshot} {floor : Nat}
    (hstart : Primed start.engine) (hneeded : start.engine.snapshots.neededFrom = none)
    (hwalked : Walked H advantage start branch appends below reached)
    (hread : HasRead chain payouts fresh reached floor windows notes) (hloaded : Loaded H resumed)
    (htip : SameStanding reached.tip resumed.tip) (hpoxId : resumed.poxId = reached.poxId)
    (hhashes : resumed.engine.snapshots.consensusHashes = reached.engine.snapshots.consensusHashes)
    (hseed : below.reverse.findSome? (·.winnerVrfSeed) = resumed.tip.winnerVrfSeed)
    (hsome : resumed.tip.winnerVrfSeed.isSome) (hfloor : floor ≤ reached.readsFrom)
    (hfront : fresh.toTrackerNotes.readAll chain payouts (List.range' floor
      (reached.readsFrom - floor)) = .ok (front, before))
    (hagree : NotesAgree chain payouts reached.readsFrom last reached.readsFrom before
      resumed.toTrackerNotes) (hlast : reached.tip.bitcoinHeight ≤ last)
    (hattested : ∀ windows before, fresh.toTrackerNotes.readAll chain payouts
        (List.range' floor (reached.tip.bitcoinHeight - floor)) = .ok (windows, before) →
      Attested (chain reached.tip.bitcoinHeight) before resumed.tip) :
    ∃ origin, resumed.prime (fun height => .ok (chain height)) payouts = .ok origin ∧
      Origin start origin below ∧
      Resumes H advantage chain payouts reached.readsFrom last start origin below [] reached
        origin := by
  have hsame := htip.bitcoinHeight
  have hfirst := readsFrom_le reached
  -- What was read below the blocks that are read again, in them, and in the tip's own.
  obtain ⟨back, middle, top, hwindows, hback, htop⟩ : ∃ back middle top,
      windows = front ++ back ++ top ∧
      before.readAll chain payouts
        (range' reached.readsFrom (reached.tip.bitcoinHeight - reached.readsFrom))
          = .ok (back, middle) ∧
      middle.readAll chain payouts (range' reached.tip.bitcoinHeight 1) = .ok (top, notes) := by
    obtain ⟨rest, hrest, hreads⟩ := hread.rest hfloor (by omega) hfront
    obtain ⟨back, top, middle, rfl, hback, htop⟩ :=
      (readAll_split (Nat.sub_le _ _) (Nat.le_succ reached.tip.bitcoinHeight)).1 hreads
    rw [Nat.succ_eq_add_one, Nat.add_sub_cancel_left] at htop
    exact ⟨back, middle, top, by rw [← hrest, append_assoc], hback, htop⟩
  obtain ⟨middle', hback', hmiddle⟩ := hagree.readAll hheight hnodup (by omega) hback
  rw [Nat.add_sub_cancel' (Nat.sub_le _ _)] at hmiddle
  obtain ⟨notes', htop', hnotes⟩ := hmiddle.readAll hheight hnodup (by omega) htop
  obtain ⟨window, rfl, hwindow⟩ : ∃ window, top = [window] ∧
      middle'.read (chain reached.tip.bitcoinHeight) payouts = .ok (window, notes') := by
    simp only [range'_one, readAll, bind_eq_ok, return_eq_ok, Prod.mk.injEq, Prod.exists] at htop'
    obtain ⟨window, _, hwindow, _, _, ⟨rfl, rfl⟩, rfl, rfl⟩ := htop'
    exact ⟨window, rfl, hwindow⟩
  have hattested' : Attested (chain reached.tip.bitcoinHeight) middle' resumed.tip := by
    refine hmiddle.attested (hheight _) (hattested (front ++ back) middle ?_)
    exact (readAll_split hfloor (Nat.sub_le _ _)).2 ⟨_, _, _, rfl, hfront, hback⟩
  rw [readsFrom, ← hsame] at hback'
  rw [← hsame] at hwindow hattested'
  obtain ⟨origin, hprime, hprimed⟩ :=
    prime_ok H hheight hnodup hloaded hback' hwindow hsome hattested'
  obtain ⟨seed, key, spends, htipped, hkept⟩ := hprimed.tip_eq
  obtain ⟨-, hpoxId', hneeded', hhashes', -⟩ := hprimed.coherent hheight hloaded
  have hseed' : seed = resumed.tip.winnerVrfSeed := by
    apply hkept
    rw [effectiveWinnerSeed_root hloaded.root]
    exact hsome
  have hsource : ∀ height block, (fun height => ok (chain height)) height
      = (ok block : Except String BitcoinBlock) → block.height = height := by
    rintro height block h
    rw [← ok.inj h, hheight]
  refine ⟨origin, hprime, ⟨hstart, (prime_primed (hloaded.unprimed H) hsource hprime).engine, hneeded,
    hneeded', ?_⟩, ?_⟩
  · rw [hseed, htipped, hseed']
    rfl
  · refine
      { walked := ⟨branch, appends, by rwa [append_nil]⟩
        walked' := ⟨[], [], .start⟩
        notes := ?_
        poxId := hpoxId'.trans hpoxId
        hashes := hhashes'.trans hhashes
        tip := ?_
        window := ?_ }
    · rw [hread.notes_eq, hprimed.notes]
      exact hnotes.withPoxId _ _ _ _
    · rw [htipped]
      exact ⟨htip.bitcoinHeight, htip.sortitionId, htip.totalBurn, htip.sortitionHash,
        htip.numSortitions⟩
    · rw [hprimed.window_eq, hread.window, hloaded.window, hwindows, append_assoc]
      apply rtake_retained
      have hfrontLength := (readAll_frame hheight hfront).2
      have hbackLength := (readAll_frame hheight hback).2
      rw [length_append, length_singleton, hbackLength, ← length_eq_zero_iff, hfrontLength]
      unfold readsFrom
      omega

section

variable {capture' : Capture} {seed : CapturedSnapshot} {history : List ConsensusHash}
  {reached : Nat} {derived' : List SortitionSnapshot} {final : SortitionTracker}
  (hload : trackerFromCaptureSeed H capture seed history = .ok fresh)
  (hprime : fresh.prime (fun height => .ok (chain height)) payouts = .ok start)
  (hwalk : start.walk H advantage (blocksBetween chain payouts start.tip.bitcoinHeight reached)
    = .ok (derived, tracker))
  (hmore : tracker.walk H advantage (blocksBetween chain payouts reached last)
    = .ok (derived', final))
  (hstart : start.tip.bitcoinHeight ≤ reached) (hlast : reached ≤ last)
  (hheld : (tracker.snapshotAt height).isSome)
  (hsave : tracker.saveStandingOn height = .ok capture')
  (hrestart : Restartable H chain payouts fresh tracker height last)

include hload hprime hwalk hmore hstart hlast hheld hsave hrestart

/-- A tracker that was loaded, primed and walked is saved standing on a height it still holds. What is
written down loads, primes and resumes it from that height on. -/
theorem restart_resumes :
    ∃ resumed origin final', fromCapture H capture' = .ok resumed ∧
      resumed.prime (fun height => .ok (chain height)) payouts = .ok origin ∧
      origin.walk H advantage (blocksBetween chain payouts height last)
        = .ok ((derived ++ derived').drop (height - start.tip.bitcoinHeight), final') ∧
      ∃ below common, Resumes H advantage chain payouts (height - (miningCommitmentWindow - 1)) last
        start origin below common final final' := by
  obtain ⟨snapshot, hheld⟩ := Option.isSome_iff_exists.1 hheld
  have hloaded := trackerFromCaptureSeed_loaded H hload
  obtain ⟨behind, _, window, noted, hprimed, -⟩ := prime_reads hheight hprime
  obtain ⟨hcoherent, -, hneeded, -, -⟩ := hprimed.coherent hheight hloaded
  obtain ⟨_, _, _, htip, -⟩ := hprimed.tip_eq
  have hroot : start.tip.bitcoinHeight = fresh.tip.bitcoinHeight := by
    rw [htip]
    rfl
  have hengine : Primed start.engine := (prime_primed (hloaded.unprimed H)
    (fun height block h => by rw [← ok.inj h, hheight]) hprime).engine
  have hreached : tracker.tip.bitcoinHeight = reached := by
    rw [(walk_tip hwalk).1, length_blocksBetween]
    omega
  -- The height lies in what was walked, as its snapshot is still held.
  obtain ⟨_, hall⟩ := Walked.start.append_walk hwalk
  have hbounds := hall.bounds_of_held hengine hheld
  rw [hreached] at hbounds
  obtain ⟨front, back, standing, rfl, hfront, hback⟩ :=
    walk_between_split hbounds.1 hbounds.2 hwalk
  have hfrontLength := (walk_tip hfront).2
  have hbackLength := (walk_tip hback).2
  rw [length_blocksBetween] at hfrontLength hbackLength
  obtain rfl : standing.tip.bitcoinHeight = height := by
    rw [(walk_tip hfront).1, length_blocksBetween]
    omega
  obtain ⟨_, hbelow⟩ := Walked.start.append_walk hfront
  obtain ⟨_, hwalked⟩ := hbelow.append_walk hback
  -- What is saved is the tip of the tracker that stood on the height.
  obtain ⟨upTo, hsuffix, hcut, hgetLast⟩ :=
    hwalked.cutAt hengine (by simp) (by omega) hheld
  obtain rfl : standing.tip = snapshot :=
    Option.some.inj (hbelow.built.getLast?.symm.trans hgetLast)
  have hsaved := saveStandingOn_savedAs (by omega) hheld hsave
  have hstanding : Coherent H standing := hcoherent.walk hfront
  have hhashes : capture'.hashes = standing.engine.snapshots.consensusHashes := by
    rw [hsaved.hashes, walk_snapshots hback, foldl_push_hashes, hreached, ← hbackLength,
      ← length_map (f := (·.consensusHash)), rdrop_append_length]
  have hseed : ([start.tip] ++ front).reverse.findSome? (·.winnerVrfSeed)
      = tracker.engine.snapshots.effectiveWinnerSeedAtOrBelow standing.tip.bitcoinHeight := by
    have hsome := hrestart.seed
    rw [SnapshotChain.effectiveWinnerSeedAtOrBelow, hcut.dropWhile] at hsome ⊢
    exact findSome?_reverse_of_suffix hsuffix hsome
  have hrow := hstanding.seedSnapshot_tip hheld hrestart
  obtain ⟨poxPayouts, hresumed⟩ :=
    fromCapture_saved H hsaved (hhashes ▸ hstanding.hashes) hrow
  have hloaded' : Loaded H (loadedTracker capture' (tracker.capturedSnapshot standing.tip poxPayouts)
      (resumedRoot H tracker standing.tip) capture'.hashes) :=
    trackerFromCaptureSeed_loaded H ((trackerFromCaptureSeed_eq_ok H).2
      ⟨_, hrow poxPayouts, hhashes ▸ hstanding.hashes, rfl⟩)
  -- What was read before the blocks that are read again agrees with what was written down.
  obtain ⟨_, _, hread⟩ := (hprimed.hasRead hloaded).walk_between hfront
  obtain ⟨_, _, hread'⟩ := hread.walk_between hback
  have hfloor : fresh.readsFrom ≤ standing.readsFrom := by
    unfold readsFrom
    omega
  obtain ⟨reads, _, before, -, hreads, -⟩ :=
    (readAll_split hfloor ((readsFrom_le standing).trans (Nat.le_succ _))).1 hread.reads
  have hagree : NotesAgree chain payouts standing.readsFrom last standing.readsFrom before
      (loadedTracker capture' (tracker.capturedSnapshot standing.tip poxPayouts)
        (resumedRoot H tracker standing.tip) capture'.hashes).toTrackerNotes :=
    resumed_agree hheight hloaded hread' (by omega) (by omega) hreads hrestart hsaved rfl poxPayouts
      capture'.hashes
  have hattested : ∀ windows before, fresh.toTrackerNotes.readAll chain payouts
      (range' fresh.readsFrom (standing.tip.bitcoinHeight - fresh.readsFrom))
        = .ok (windows, before) →
      Attested (chain standing.tip.bitcoinHeight) before (resumedRoot H tracker standing.tip) := by
    intro windows before hbefore
    have hstands := attested_at hheight hloaded hprime hrestart.root hbounds.1 hfront hbefore
    exact hstands.resumedRoot H hgetLast hseed
  obtain ⟨origin, hprime', horigin, hresumes⟩ := Loaded.resumes hheight hnodup hengine hneeded hbelow
    hread hloaded' ⟨rfl, rfl, rfl, rfl, rfl⟩ hstanding.poxId hhashes hseed hrestart.seed hfloor
    hreads hagree (by omega) hattested
  have hrest := walk_append hback hmore
  rw [← blocksBetween_append hbounds.2 hlast] at hrest
  obtain ⟨final', hwalk', hresumes'⟩ := hresumes.walk hheight hnodup horigin rfl (by omega) hrest
  refine ⟨_, origin, final', hresumed, hprime', ?_, _, _, hresumes'⟩
  rw [append_assoc, ← hfrontLength, drop_left]
  exact hwalk'

/-- **A restart derives the same snapshots.** A tracker that was loaded, primed and walked over a
chain of blocks is saved standing on a height it still holds. What is written down loads, primes and
walks the blocks from that height on, and every snapshot it derives is the one the tracker derived
that was not restarted. -/
theorem restart_derives_same :
    ∃ resumed origin final', fromCapture H capture' = .ok resumed ∧
      resumed.prime (fun height => .ok (chain height)) payouts = .ok origin ∧
      origin.walk H advantage (blocksBetween chain payouts height last)
        = .ok ((derived ++ derived').drop (height - start.tip.bitcoinHeight), final') := by
  obtain ⟨resumed, origin, final', hresumed, hprime', hwalk', -⟩ := restart_resumes hheight hnodup
    hload hprime hwalk hmore hstart hlast hheld hsave hrestart
  exact ⟨resumed, origin, final', hresumed, hprime', hwalk'⟩

end

end

end

end Restart

/-! ## Two restarts -/

/-- A checkpoint at height 120 that elected nobody, with one leader key. -/
def quietRow : CapturedSnapshot where
  blockHeight := 120
  burnHeaderHash := zero 32
  burnHeaderTimestamp := 0
  sortitionId := zero 32
  consensusHash := zero 20
  sortitionHash := zero 32
  totalBurn := 0
  poxPayouts := none
  numSortitions := some 1
  sortition := some 0
  winningBlockTxid := none
  winnerVrfSeed := some (zero 32)
  lastSortitionHeight := none
  sortitionsBelowWindow := []
  parentSortitionId := none
  minerPkHash := none
  winningStacksBlockHash := none

def quietCapture : Capture :=
  ⟨[quietRow], [zero 20], [⟨110, 1, zero 32, none⟩], []⟩

/-- Reward cycles of a thousand blocks; the fourth epoch starts at height 131, with a mining window of
one block. -/
def epochFourAt131 : PayoutSchedule where
  cycles := ⟨0, 1000, none, by decide⟩
  preparePhaseLength := 3
  waterfallRecipient := none
  epochFourActivation := some 131
  prepare_lt := by decide

/-- A block whose one operation commits on time, to a parent at a burn position. -/
def committing (height parentHeight parentIndex : Nat) : BitcoinBlock :=
  ⟨height, zero 32, 0, [⟨zero 32, 1, [⟨zero 32, 0⟩],
    [⟨1000, .addr20 true (zero 20)⟩, ⟨1000, .addr20 true (zero 20)⟩],
    .leaderBlockCommit ⟨zero 32, zero 32, parentHeight, parentIndex, 110, 1, 0, 0⟩⟩]⟩

/-- Empty blocks, but for one commitment in block 131 to a parent in block 122 that is not there. -/
def strayChain (height : Nat) : BitcoinBlock :=
  if height = 131 then committing 131 122 1 else emptyBlock height

/-- Empty blocks, but for a commitment in block 131, which wins, and one to it in block 141. -/
def wonChain (height : Nat) : BitcoinBlock :=
  if height = 131 then committing 131 122 0
  else if height = 141 then committing 141 131 1
  else emptyBlock height

def quietFresh : SortitionTracker :=
  (trackerFromCaptureSeed blankHashes quietCapture quietRow [zero 20]).toOption.getD
    (seededAt 120)

def quietStart (chain : Nat → BitcoinBlock) : SortitionTracker :=
  (quietFresh.prime (fun height => .ok (chain height)) epochFourAt131).toOption.getD quietFresh

/-- What a tracker that started at height 120 derives up to a height. -/
def quietWalk (chain : Nat → BitcoinBlock) (high : Nat) : List SortitionSnapshot × SortitionTracker :=
  ((quietStart chain).walk blankHashes (fun _ => 0)
    (blocksBetween chain epochFourAt131 120 high)).toOption.getD ([], quietFresh)

/-! A tracker walks past the winner, is saved at height 140, and walks on over the second commitment,
whose parent lies below what a restart reads again. -/

def wonAt (height : Nat) : SortitionTracker := (quietWalk wonChain height).2

def wonSaved : Capture := ((wonAt 140).saveStandingOn 140).toOption.getD quietCapture

theorem wonChain_height (height : Nat) : (wonChain height).height = height := by
  unfold wonChain
  split_ifs with hfirst hsecond
  · exact hfirst.symm
  · exact hsecond.symm
  · rfl

theorem wonChain_nodup (height : Nat) : ((wonChain height).operations.map (·.txid)).Nodup := by
  unfold wonChain
  split_ifs
  · exact nodup_singleton _
  · exact nodup_singleton _
  · exact nodup_nil

theorem won_loaded : trackerFromCaptureSeed blankHashes quietCapture quietRow [zero 20]
    = .ok quietFresh := by
  decide +kernel

theorem won_primed : quietFresh.prime (fun height => .ok (wonChain height)) epochFourAt131
    = .ok (quietStart wonChain) := by
  decide +kernel

theorem won_walked : (quietStart wonChain).walk blankHashes (fun _ => 0)
    (blocksBetween wonChain epochFourAt131 (quietStart wonChain).tip.bitcoinHeight 140)
      = .ok (quietWalk wonChain 140) := by
  decide +kernel

theorem won_walkedOn : (wonAt 140).walk blankHashes (fun _ => 0)
    (blocksBetween wonChain epochFourAt131 140 141)
      = .ok ([(wonAt 141).tip], (wonAt 141)) := by
  decide +kernel

theorem won_saved : (wonAt 140).saveStandingOn 140 = .ok wonSaved := by
  decide +kernel

theorem won_restartable :
    Restartable blankHashes wonChain epochFourAt131 quietFresh (wonAt 140) 140 141 where
  parents := by
    intro at' hlow hhigh operation hmem commit hkind hindex hbelow
    have hfirst : at' ≠ 131 := by
      rintro rfl
      exact absurd hlow (by decide)
    rw [wonChain, if_neg hfirst] at hmem
    split_ifs at hmem
    · obtain rfl := mem_singleton.1 hmem
      cases hkind
      exact .inr (by decide +kernel)
    · cases hmem
  seed := by decide +kernel
  cycles := by
    show ∀ snapshot ∈ (wonAt 140).snapshotAt 140, _
    decide +kernel
  root := fun hheight => absurd hheight (by decide +kernel)

/-- What is derived of block 141. -/
def wonDerived : List SortitionSnapshot :=
  ((quietWalk wonChain 140).1 ++ [(wonAt 141).tip]).drop (140 - (quietStart wonChain).tip.bitcoinHeight)

theorem restart_derives_same_won :
    (141, 1) ∈ (wonAt 141).commitments ∧
    ∃ resumed origin final', fromCapture blankHashes wonSaved = .ok resumed ∧
      resumed.prime (fun height => .ok (wonChain height)) epochFourAt131 = .ok origin ∧
      origin.walk blankHashes (fun _ => 0) (blocksBetween wonChain epochFourAt131 140 141)
        = .ok (wonDerived, final') :=
  ⟨by decide +kernel, restart_derives_same wonChain_height wonChain_nodup won_loaded won_primed
    won_walked won_walkedOn (by decide +kernel) (by decide) (by decide +kernel) won_saved
    won_restartable⟩

/-- Save the tracker, load what was written down and walk on. -/
def restarted (tracker : SortitionTracker) (chain : Nat → BitcoinBlock) (height last : Nat) :
    Except TrackerError (List SortitionSnapshot) := do
  let capture ← tracker.saveStandingOn height
  let resumed ← fromCapture blankHashes capture
  let origin ← resumed.prime (fun height => .ok (chain height)) epochFourAt131
  let (derived, _) ← origin.walk blankHashes (fun _ => 0)
    (blocksBetween chain epochFourAt131 height last)
  return derived

/-- A commitment to a parent that was never accepted is refused by the tracker that walked past the
parent's block. After a restart that block is below the floor, and the commitment wins. -/
theorem restarted_elects_stray_commitment :
    (quietWalk strayChain 131).1.map (·.winnerTxid) = List.replicate 11 none ∧
      (quietWalk strayChain 130).2.tip.bitcoinHeight = 130 ∧
      (restarted (quietWalk strayChain 130).2 strayChain 130 131).map
        (·.map (·.winnerTxid)) = .ok [some (zero 32)] := by
  decide +kernel

end NanoStacks.Tracker
