import NanoStacks.Lib.Runs
import NanoStacks.Tracker.Locate

/-!
# The branch a snapshot chain stands on

A snapshot chain keeps two histories: the newest snapshots, which are pruned from the front, and the
consensus hashes, which never are. Both are cut on a reorganization. The branch here is what was appended
and not taken back, with nothing pruned; the chain is said to stand on it, and what is asked of a chain
follows from that.
-/

namespace NanoStacks.Tracker

open Bitcoin Sortition Result List SnapshotChain

/-- What can be done to a snapshot chain. -/
inductive ChainOp
  | append (block : BitcoinBlock) (operationTxids : List Txid) (totalBurn : Nat) (poxId : PoxId)
      (winner : Option SortitionWinner)
  | retractAbove (bitcoinHeight : Nat)
  | keepFrom (bitcoinHeight : Nat)
  | adoptRootWinnerSeed (seed : Bytes 32)
  | adoptRootWinnerVrfPublicKey (key : Bytes 32)
  | recordTipBurnSpends (spends : Option BurnSpends)
  | recordTipMiningCompetition (competition : Option MiningCompetition)

/-- The height and the consensus hash of a snapshot. -/
def stamp (snapshot : SortitionSnapshot) : Nat × ConsensusHash :=
  (snapshot.bitcoinHeight, snapshot.consensusHash)

/-- A chain and the branch it stands on: every height and hash since its start, oldest first, that was
appended and not taken back. -/
structure Branch where
  chain : SnapshotChain
  surviving : List (Nat × ConsensusHash)

variable (H : Hashes)

def Branch.step (branch : Branch) : ChainOp → Branch
  | .append block operationTxids totalBurn poxId winner =>
    match branch.chain.appendWithOperations H block operationTxids totalBurn poxId winner with
    | .ok chain => ⟨chain, branch.surviving ++ [stamp chain.tip]⟩
    | .error _ => branch
  | .retractAbove bitcoinHeight =>
    match branch.chain.retractAbove bitcoinHeight with
    | .ok (_, chain) => ⟨chain, branch.surviving.filter (·.1 ≤ bitcoinHeight)⟩
    | .error _ => branch
  | .keepFrom bitcoinHeight => ⟨branch.chain.keepFrom bitcoinHeight, branch.surviving⟩
  | .adoptRootWinnerSeed seed => ⟨(branch.chain.adoptRootWinnerSeed seed).2, branch.surviving⟩
  | .adoptRootWinnerVrfPublicKey key =>
    ⟨(branch.chain.adoptRootWinnerVrfPublicKey key).2, branch.surviving⟩
  | .recordTipBurnSpends spends => ⟨branch.chain.recordTipBurnSpends spends, branch.surviving⟩
  | .recordTipMiningCompetition competition =>
    ⟨branch.chain.recordTipMiningCompetition competition, branch.surviving⟩

def Branch.run (branch : Branch) (ops : List ChainOp) : Branch := Runs.run (Branch.step H) branch ops

/-- The hashes at distances 1, 2, 4, 8 and so on below the block after the last of them. -/
def mixedHashes (hashes : List ConsensusHash) : List ConsensusHash :=
  (List.range 64).filterMap fun exponent => hashes.reverse[2 ^ exponent - 1]?

theorem hashesBehind_eq {hashes : List ConsensusHash} (hne : hashes ≠ []) (exponent fuel : Nat) :
    hashesBehind hashes exponent fuel
      = (List.range' exponent fuel).filterMap fun exponent => hashes.reverse[2 ^ exponent - 1]? := by
  have hpos := length_pos_iff.2 hne
  induction fuel generalizing exponent with
  | zero => rfl
  | succ fuel ih =>
    rw [hashesBehind, range'_succ]
    split_ifs with hreach
    · have hget : hashes.reverse[2 ^ exponent - 1]?
          = some (hashes.getD (hashes.length - 1 - (2 ^ exponent - 1)) (Bytes.zero 20)) := by
        rw [getElem?_reverse (by omega), getD_eq_getElem?_getD,
          getElem?_eq_getElem (by omega), Option.getD_some]
      rw [filterMap_cons, hget, ih]
    · -- every later distance is out of reach too
      rw [eq_comm, filterMap_eq_nil_iff]
      intro later hlater
      rw [← range'_succ, mem_range'_1] at hlater
      have hpow := Nat.pow_le_pow_right Nat.two_pos hlater.1
      rw [getElem?_eq_none_iff, length_reverse]
      omega

/-! ## What a step does -/

theorem appendWithOperations_eq_ok {chain chain' : SnapshotChain} {block : BitcoinBlock}
    {operationTxids : List Txid} {totalBurn : Nat} {poxId : PoxId} {winner : Option SortitionWinner}
    (h : chain.appendWithOperations H block operationTxids totalBurn poxId winner = .ok chain') :
    block.height = chain.tip.bitcoinHeight + 1 ∧
      chain' = chain.push (chain.nextSnapshot H block operationTxids totalBurn poxId winner) := by
  simp only [appendWithOperations, bind_eq_ok, okOr_eq_ok, checkedAdd_eq_some, ensure_eq_ok] at h
  obtain ⟨_, ⟨-, rfl⟩, -, hheight, ⟨⟩⟩ := h
  exact ⟨hheight, rfl⟩

/-- What one operation can make of a chain and its branch. -/
inductive Branch.Stepped (branch : Branch) : Branch → Prop
  | same : Stepped branch branch
  | pushed (snapshot : SortitionSnapshot)
      (hheight : snapshot.bitcoinHeight = branch.chain.tip.bitcoinHeight + 1) :
      Stepped branch ⟨branch.chain.push snapshot, branch.surviving ++ [stamp snapshot]⟩
  | retracted (height : Nat) (reorg : SortitionReorg) (chain : SnapshotChain)
      (hretract : branch.chain.retractAbove height = .ok (reorg, chain)) :
      Stepped branch ⟨chain, branch.surviving.filter (·.1 ≤ height)⟩
  | kept (height : Nat) : Stepped branch ⟨branch.chain.keepFrom height, branch.surviving⟩
  | restamped (f : SortitionSnapshot → SortitionSnapshot)
      (hf : stamp (f branch.chain.tip) = stamp branch.chain.tip) :
      Stepped branch ⟨branch.chain.updateTip f, branch.surviving⟩

variable {f : SortitionSnapshot → SortitionSnapshot}

theorem Branch.stepped_adoptRoot (branch : Branch)
    (hf : stamp (f branch.chain.tip) = stamp branch.chain.tip) :
    branch.Stepped ⟨(branch.chain.adoptRoot f).2, branch.surviving⟩ := by
  unfold adoptRoot
  split_ifs
  · exact .restamped f hf
  · exact .same

theorem Branch.step_cases (branch : Branch) (op : ChainOp) : branch.Stepped (branch.step H op) := by
  cases op with
  | append block operationTxids totalBurn poxId winner =>
    simp only [Branch.step]
    split
    · next chain happend =>
      obtain ⟨hheight, rfl⟩ := appendWithOperations_eq_ok H happend
      rw [tip_push]
      exact .pushed _ hheight
    · exact .same
  | retractAbove height =>
    simp only [Branch.step]
    split
    · next reorg chain hretract => exact .retracted height reorg chain hretract
    · exact .same
  | keepFrom height => exact .kept height
  | adoptRootWinnerSeed seed => exact branch.stepped_adoptRoot rfl
  | adoptRootWinnerVrfPublicKey key => exact branch.stepped_adoptRoot rfl
  | recordTipBurnSpends spends => exact .restamped _ rfl
  | recordTipMiningCompetition competition => exact .restamped _ rfl

/-! ## Standing on a branch -/

/-- A chain that stands on its branch above the given hashes. -/
structure Branch.Stands (prior : List ConsensusHash) (branch : Branch) : Prop where
  numbered : ∃ first, branch.surviving.map (·.1) = List.range' first branch.surviving.length
  held : branch.chain.snapshots.map stamp <:+ branch.surviving
  hashes : branch.chain.consensusHashes = prior ++ branch.surviving.map (·.2)

section Stands

variable {prior : List ConsensusHash} {branch : Branch} {chain : SnapshotChain} {first : Nat}

theorem heights_above {surviving below : List (Nat × ConsensusHash)}
    (hfirst : surviving.map (·.1) = List.range' first surviving.length)
    (hbelow : below ++ chain.snapshots.map stamp = surviving) :
    chain.snapshots.map (·.bitcoinHeight) = List.range' (first + below.length) chain.snapshots.length := by
  have hlength : surviving.length = below.length + chain.snapshots.length := by
    rw [← hbelow, length_append, length_map]
  have hdrop := congrArg (drop below.length) hfirst
  rw [← hbelow, map_append, drop_left' (length_map _), map_map, drop_range',
    hbelow, hlength, Nat.mul_one, Nat.add_sub_cancel_left] at hdrop
  exact hdrop

section

variable (h : branch.Stands prior)

include h

theorem Branch.Stands.numbered_chain : Numbered branch.chain := by
  obtain ⟨first, hfirst⟩ := h.numbered
  obtain ⟨below, hbelow⟩ := h.held
  exact ⟨first + below.length, heights_above hfirst hbelow⟩

theorem Branch.Stands.getLast? : branch.surviving.getLast? = some (stamp branch.chain.tip) := by
  obtain ⟨below, hbelow⟩ := h.held
  have hlast : branch.chain.snapshots.getLast? = some branch.chain.tip :=
    getLast?_eq_some_getLast branch.chain.snapshots_ne_nil
  rw [← hbelow, getLast?_append, getLast?_map, hlast]
  rfl

theorem Branch.Stands.congr (hstamps : chain.snapshots.map stamp = branch.chain.snapshots.map stamp)
    (hhashes : chain.consensusHashes = branch.chain.consensusHashes) :
    Branch.Stands prior ⟨chain, branch.surviving⟩ :=
  ⟨h.numbered, hstamps ▸ h.held, hhashes.trans h.hashes⟩

omit h in
theorem stamps_updateTip (chain : SnapshotChain) (hf : stamp (f chain.tip) = stamp chain.tip) :
    (chain.updateTip f).snapshots.map stamp = chain.snapshots.map stamp := by
  have hlast : chain.snapshots.dropLast ++ [chain.tip] = chain.snapshots :=
    dropLast_append_getLast chain.snapshots_ne_nil
  conv_rhs => rw [← hlast]
  simp [updateTip, hf]

omit h in
theorem stamps_keepFrom (chain : SnapshotChain) (height : Nat) :
    (chain.keepFrom height).snapshots = chain.snapshots ∧
      (chain.keepFrom height).consensusHashes = chain.consensusHashes := by
  unfold keepFrom
  split_ifs <;> exact ⟨rfl, rfl⟩

theorem Branch.Stands.push {snapshot : SortitionSnapshot}
    (hheight : snapshot.bitcoinHeight = branch.chain.tip.bitcoinHeight + 1) :
    Branch.Stands prior ⟨branch.chain.push snapshot, branch.surviving ++ [stamp snapshot]⟩ := by
  obtain ⟨first, hfirst⟩ := h.numbered
  have hlast := h.getLast?
  refine ⟨⟨first, ?_⟩, ?_, ?_⟩
  · have htip : (branch.surviving.map (·.1)).getLast? = some branch.chain.tip.bitcoinHeight := by
      rw [getLast?_map, hlast]
      rfl
    have hpos : branch.surviving.length ≠ 0 := by
      intro hzero
      rw [length_eq_zero_iff.1 hzero] at hlast
      cases hlast
    rw [hfirst, getLast?_range', if_neg hpos, Option.some.injEq] at htip
    rw [map_append, hfirst, length_append, length_singleton, range'_concat, Nat.one_mul]
    have hnext : (stamp snapshot).1 = first + branch.surviving.length := by
      show snapshot.bitcoinHeight = _
      omega
    rw [map_singleton, hnext]
  · have hsuffix := ((push_suffix branch.chain snapshot).1).map stamp
    rw [map_append] at hsuffix
    exact hsuffix.trans ((suffix_append_inj_of_length_eq rfl).2 ⟨h.held, rfl⟩)
  · show branch.chain.consensusHashes ++ [snapshot.consensusHash] = _
    rw [h.hashes, map_append, append_assoc]
    rfl

omit h in
theorem filter_le_eq_take {α : Type} {f : α → Nat} {l : List α}
    (h : l.map f = List.range' first l.length) (height : Nat) :
    l.filter (f · ≤ height) = l.take (height + 1 - first) := by
  induction l generalizing first with
  | nil => simp
  | cons a l ih =>
    rw [length_cons, range'_succ, map_cons, cons.injEq] at h
    obtain ⟨rfl, hrest⟩ := h
    by_cases hle : f a ≤ height
    · rw [filter_cons_of_pos (by simpa using hle), ih hrest,
        show height + 1 - f a = height + 1 - (f a + 1) + 1 by omega, take_succ_cons]
    · rw [filter_cons_of_neg (by simpa using hle), ih hrest,
        show height + 1 - (f a + 1) = 0 by omega, show height + 1 - f a = 0 by omega, take_zero,
        take_zero]

variable {reorg : SortitionReorg}

omit h in
theorem retractAbove_eq_ok {chain' : SnapshotChain} {height : Nat}
    (h : chain.retractAbove height = .ok (reorg, chain')) :
    chain.root.bitcoinHeight ≤ height ∧
      chain'.snapshots = chain.snapshots.take (height - chain.root.bitcoinHeight + 1) ∧
      chain'.consensusHashes = chain.consensusHashes.take (chain.consensusHashes.length
        - (chain.snapshots.length - (height - chain.root.bitcoinHeight + 1))) ∧
      chain'.neededFrom = chain.neededFrom ∧
      chain'.sortitionsBelowWindow = chain.sortitionsBelowWindow := by
  simp only [retractAbove, bind_eq_ok, ensure_eq_ok] at h
  obtain ⟨-, hroot, ⟨⟩⟩ := h
  exact ⟨hroot, rfl, rfl, rfl, rfl⟩

omit h in
theorem root_numbered
    (h : chain.snapshots.map (·.bitcoinHeight) = List.range' first chain.snapshots.length) :
    chain.root.bitcoinHeight = first := by
  have hpos := length_pos_iff.2 chain.snapshots_ne_nil
  have hhead : (chain.snapshots.map (·.bitcoinHeight)).head? = some chain.root.bitcoinHeight := by
    rw [head?_map, head?_eq_some_head chain.snapshots_ne_nil]
    rfl
  rw [h, head?_range', if_neg hpos.ne', Option.some.injEq] at hhead
  exact hhead.symm

theorem Branch.Stands.retractAbove {height : Nat}
    (hretract : branch.chain.retractAbove height = .ok (reorg, chain)) :
    Branch.Stands prior ⟨chain, branch.surviving.filter (·.1 ≤ height)⟩ := by
  obtain ⟨first, hfirst⟩ := h.numbered
  obtain ⟨below, hbelow⟩ := h.held
  obtain ⟨hroot, hsnapshots, hhashes, -⟩ := retractAbove_eq_ok hretract
  have hlength : branch.surviving.length = below.length + branch.chain.snapshots.length := by
    rw [← hbelow, length_append, length_map]
  have hstart := root_numbered (heights_above hfirst hbelow)
  have hcount : height + 1 - first
      = below.length + (height - branch.chain.root.bitcoinHeight + 1) := by omega
  have hcut : branch.surviving.filter (·.1 ≤ height) = below ++ (branch.chain.snapshots.map stamp).take
      (height - branch.chain.root.bitcoinHeight + 1) := by
    rw [filter_le_eq_take hfirst, hcount, ← hbelow, take_length_add_append]
  refine ⟨⟨first, ?_⟩, ?_, ?_⟩
  · rw [filter_le_eq_take hfirst, map_take, hfirst, take_range', length_take]
  · rw [hcut, hsnapshots, map_take]
    exact suffix_append _ _
  · rw [hhashes, h.hashes, filter_le_eq_take hfirst, hcount, map_take, length_append,
      length_map, take_append]
    congr 1
    · apply take_of_length_le
      omega
    · rw [take_eq_take_iff, length_map]
      omega

theorem Branch.Stands.stepped {next : Branch} (hstep : branch.Stepped next) :
    next.Stands prior := by
  cases hstep with
  | same => exact h
  | pushed snapshot hheight => exact h.push hheight
  | retracted height reorg chain hretract => exact h.retractAbove hretract
  | kept height =>
    obtain ⟨hsnapshots, hhashes⟩ := stamps_keepFrom branch.chain height
    exact h.congr (by rw [hsnapshots]) hhashes
  | restamped f hf => exact h.congr (stamps_updateTip _ hf) rfl

end

end Stands

/-! ## The floor -/

/-- The snapshots held reach down to the floor. -/
def Floored (chain : SnapshotChain) (floor : Nat) : Prop :=
  chain.neededFrom = some floor ∧ chain.root.bitcoinHeight ≤ floor

section Floor

variable {chain : SnapshotChain} {floor : Nat} {height : Nat} {snapshot : SortitionSnapshot}

theorem snapshotAt_eq_some (h : Numbered chain) :
    chain.snapshotAt height = some snapshot ↔ snapshot ∈ chain.snapshots ∧ snapshot.bitcoinHeight = height := by
  constructor
  · intro hheld
    have hfound := h.snapshotAt hheld
    exact ⟨hfound.1, hfound.2.1⟩
  · rintro ⟨hmem, rfl⟩
    obtain ⟨first, hfirst⟩ := h
    have htip := tip_numbered hfirst
    obtain ⟨index, hindex, rfl⟩ := getElem_of_mem hmem
    have hheight : chain.snapshots[index].bitcoinHeight = first + index := by
      have hget : (chain.snapshots.map (·.bitcoinHeight))[index]? = some (first + index) := by
        rw [hfirst, getElem?_range' hindex, Nat.one_mul]
      rw [getElem?_map, getElem?_eq_getElem hindex] at hget
      exact Option.some.inj hget
    rw [snapshotAt, hheight, if_pos (by omega)]
    dsimp only
    rw [if_pos (by omega), show chain.snapshots.length - (chain.tip.bitcoinHeight - (first + index) + 1)
      = index by omega, getElem?_eq_getElem hindex]

theorem exists_snapshotAt (h : Numbered chain) :
    (∃ snapshot, chain.snapshotAt height = some snapshot) ↔
      chain.root.bitcoinHeight ≤ height ∧ height ≤ chain.tip.bitcoinHeight := by
  have hnumbered := h
  obtain ⟨first, hfirst⟩ := h
  have htip := tip_numbered hfirst
  have hroot := root_numbered hfirst
  constructor
  · rintro ⟨snapshot, hheld⟩
    obtain ⟨hmem, rfl⟩ := (snapshotAt_eq_some hnumbered).1 hheld
    have hheight := mem_map_of_mem (f := (·.bitcoinHeight)) hmem
    rw [hfirst, mem_range'_1] at hheight
    omega
  · rintro ⟨hlow, hhigh⟩
    have hmem : height ∈ chain.snapshots.map (·.bitcoinHeight) := by
      rw [hfirst, mem_range'_1]
      omega
    obtain ⟨snapshot, hheld, rfl⟩ := mem_map.1 hmem
    exact ⟨snapshot, (snapshotAt_eq_some hnumbered).2 ⟨hheld, rfl⟩⟩

theorem floored_keepFrom (h : Numbered chain) (hheld : chain.snapshotAt height = some snapshot) :
    ∃ floor, height ≤ floor ∧ Floored (chain.keepFrom height) floor := by
  have hroot := ((exists_snapshotAt h).1 ⟨snapshot, hheld⟩).1
  unfold keepFrom
  split_ifs with hhigher
  · exact ⟨height, le_rfl, rfl, hroot⟩
  · cases hfloor : chain.neededFrom with
    | none => simp [hfloor] at hhigher
    | some floor =>
      have hle : height ≤ floor := by simpa [hfloor] using hhigher
      exact ⟨floor, hle, hfloor, hroot.trans hle⟩

section

variable (h : Floored chain floor)

include h

theorem Floored.keepFrom (height : Nat) :
    ∃ floor', floor ≤ floor' ∧ Floored (chain.keepFrom height) floor' := by
  unfold SnapshotChain.keepFrom
  split_ifs with hhigher
  · have hlt : floor < height := by simpa [h.1] using hhigher
    exact ⟨height, hlt.le, rfl, h.2.trans hlt.le⟩
  · exact ⟨floor, le_rfl, h⟩

theorem Floored.push (hnumbered : Numbered chain)
    (hheight : snapshot.bitcoinHeight = chain.tip.bitcoinHeight + 1) :
    Floored (chain.push snapshot) floor := by
  obtain ⟨hneeded, hroot⟩ := h
  refine ⟨hneeded, ?_⟩
  obtain ⟨first, hfirst⟩ := hnumbered
  obtain ⟨first', hfirst'⟩ := Numbered.push ⟨first, hfirst⟩ hheight
  have htip := tip_numbered hfirst
  have htip' := tip_numbered hfirst'
  rw [tip_push] at htip'
  rw [root_numbered hfirst] at hroot
  rw [root_numbered hfirst']
  have hlength := (push_suffix chain snapshot).2
  have hkeep : snapshot.bitcoinHeight + 1 ≤ floor + chain.snapshotsToKeep snapshot := by
    have hpos := chain.keep_pos snapshot
    unfold snapshotsToKeep at hpos ⊢
    rw [hneeded] at hpos ⊢
    dsimp only at hpos ⊢
    split_ifs at hpos ⊢ <;> omega
  omega

omit h in
theorem root_of_heights {other : SnapshotChain}
    (h : other.snapshots.map (·.bitcoinHeight) = chain.snapshots.map (·.bitcoinHeight)) :
    other.root.bitcoinHeight = chain.root.bitcoinHeight := by
  have hhead : ∀ chain : SnapshotChain,
      (chain.snapshots.map (·.bitcoinHeight)).head? = some chain.root.bitcoinHeight := by
    intro chain
    rw [head?_map, head?_eq_some_head chain.snapshots_ne_nil]
    rfl
  exact Option.some.inj ((hhead other).symm.trans ((congrArg head? h).trans (hhead chain)))

theorem Floored.updateTip (hf : stamp (f chain.tip) = stamp chain.tip) :
    Floored (chain.updateTip f) floor := by
  refine ⟨h.1, ?_⟩
  have hstamps := congrArg (map (·.1)) (stamps_updateTip chain hf)
  rw [map_map, map_map] at hstamps
  rw [root_of_heights hstamps]
  exact h.2

theorem Floored.retractAbove {reorg : SortitionReorg} {chain' : SnapshotChain}
    (hretract : chain.retractAbove height = .ok (reorg, chain')) : Floored chain' floor := by
  obtain ⟨-, hsnapshots, -, hneeded, -⟩ := retractAbove_eq_ok hretract
  refine ⟨hneeded.trans h.1, ?_⟩
  have hroot : chain'.root = chain.root := by
    simp only [root, hsnapshots, head_take]
  rw [hroot]
  exact h.2

end

theorem Floored.stepped {branch next : Branch} {prior : List ConsensusHash}
    (h : Floored branch.chain floor) (hstands : branch.Stands prior) (hstep : branch.Stepped next) :
    ∃ floor', floor ≤ floor' ∧ Floored next.chain floor' := by
  cases hstep with
  | same => exact ⟨floor, le_rfl, h⟩
  | pushed snapshot hheight => exact ⟨floor, le_rfl, h.push hstands.numbered_chain hheight⟩
  | retracted height reorg chain hretract => exact ⟨floor, le_rfl, h.retractAbove hretract⟩
  | kept height => exact h.keepFrom height
  | restamped f hf => exact ⟨floor, le_rfl, h.updateTip hf⟩

end Floor

/-! ## Runs -/

section Runs

variable {prior : List ConsensusHash} {branch : Branch}

theorem Branch.Stands.run (h : branch.Stands prior) (ops : List ChainOp) :
    (branch.run H ops).Stands prior :=
  Runs.run_invariant (Branch.Stands prior) (fun branch op h => h.stepped (branch.step_cases H op)) h ops

theorem Floored.run {floor : Nat} (h : Floored branch.chain floor) (hstands : branch.Stands prior)
    (ops : List ChainOp) : ∃ floor', floor ≤ floor' ∧ Floored (branch.run H ops).chain floor' := by
  induction ops generalizing branch floor with
  | nil => exact ⟨floor, le_rfl, h⟩
  | cons op rest ih =>
    have hstep := branch.step_cases H op
    obtain ⟨next, hle, hnext⟩ := h.stepped hstands hstep
    obtain ⟨last, hle', hlast⟩ := ih hnext (hstands.stepped hstep)
    exact ⟨last, hle.trans hle', hlast⟩

theorem Branch.Stands.mixed (h : branch.Stands prior) :
    branch.chain.previousConsensusHashes = mixedHashes (prior ++ branch.surviving.map (·.2)) := by
  have hne : branch.chain.consensusHashes ≠ [] := by
    intro hnil
    have hempty := h.hashes.symm.trans hnil
    rw [append_eq_nil_iff, map_eq_nil_iff] at hempty
    have hlast := h.getLast?
    rw [hempty.2] at hlast
    cases hlast
  rw [previousConsensusHashes, hashesBehind_eq hne, ← range_eq_range', h.hashes, mixedHashes]

end Runs

/-- Whatever is done to a snapshot chain from its start: its snapshots have consecutive heights with the
tip last, the newest consensus hashes are their own, a height is answered with its snapshot or not at all,
once `keepFrom` is called with a height that is held, everything from the greatest height it was called
with up to the tip stays held, and every hash appended mixes the hashes at distances 1, 2, 4, 8 and so on
below it on the surviving branch. -/
theorem snapshot_chain_stands (genesis : SortitionSnapshot) (history : List ConsensusHash)
    (start : SnapshotChain)
    (hstart : (history = [genesis.consensusHash] ∧ start = new genesis) ∨
      withHistory genesis history = some start) (ops : List ChainOp) :
    let branch := Branch.run H ⟨start, [stamp genesis]⟩ ops
    (∃ first, branch.chain.snapshots.map (·.bitcoinHeight)
        = List.range' first branch.chain.snapshots.length ∧
      branch.chain.tip.bitcoinHeight + 1 = first + branch.chain.snapshots.length) ∧
      branch.chain.snapshots.map (·.consensusHash) <:+ branch.chain.consensusHashes ∧
      (∀ height snapshot, branch.chain.snapshotAt height = some snapshot ↔
        snapshot ∈ branch.chain.snapshots ∧ snapshot.bitcoinHeight = height) ∧
      (∀ before height after, ops = before ++ .keepFrom height :: after →
        (∃ snapshot, (Branch.run H ⟨start, [stamp genesis]⟩ before).chain.snapshotAt height
          = some snapshot) →
        ∃ floor, branch.chain.neededFrom = some floor ∧ height ≤ floor ∧
          ∀ asked, floor ≤ asked → asked ≤ branch.chain.tip.bitcoinHeight →
            ∃ snapshot, branch.chain.snapshotAt asked = some snapshot) ∧
      branch.chain.consensusHashes = history.dropLast ++ branch.surviving.map (·.2) ∧
      ∀ block operationTxids totalBurn poxId winner appended,
        branch.chain.appendWithOperations H block operationTxids totalBurn poxId winner = .ok appended →
        appended.tip.consensusHash = consensusHash H block.hash (OpsHash.fromTxids H operationTxids)
          totalBurn (mixedHashes (history.dropLast ++ branch.surviving.map (·.2))) poxId := by
  intro branch
  have hbegins : Branch.Stands history.dropLast ⟨start, [stamp genesis]⟩ := by
    rcases hstart with ⟨rfl, rfl⟩ | hstart
    · exact ⟨⟨genesis.bitcoinHeight, rfl⟩, suffix_rfl, rfl⟩
    · unfold withHistory at hstart
      split_ifs at hstart with hlast
      cases hstart
      refine ⟨⟨genesis.bitcoinHeight, rfl⟩, suffix_rfl, ?_⟩
      exact (dropLast_append_getLast? _ hlast).symm
  have hstands : branch.Stands history.dropLast := hbegins.run H ops
  have hnumbered := hstands.numbered_chain
  refine ⟨?_, ?_, fun height snapshot => snapshotAt_eq_some hnumbered, ?_, hstands.hashes, ?_⟩
  · obtain ⟨first, hfirst⟩ := hnumbered
    exact ⟨first, hfirst, tip_numbered hfirst⟩
  · have hsuffix := hstands.held.map (·.2)
    rw [map_map] at hsuffix
    rw [hstands.hashes]
    exact hsuffix.trans (suffix_append _ _)
  · rintro before height after rfl ⟨snapshot, hheld⟩
    have hbefore := hbegins.run H before
    obtain ⟨floor, hle, hfloored⟩ := floored_keepFrom hbefore.numbered_chain hheld
    have hkept := hbefore.stepped (Branch.step_cases H _ (.keepFrom height))
    obtain ⟨last, hle', hlast⟩ := Floored.run H hfloored hkept after
    have hbranch : branch = Branch.run H (Branch.step H (Branch.run H ⟨start, [stamp genesis]⟩ before)
        (.keepFrom height)) after := Runs.run_append _ _ before _
    rw [← hbranch] at hlast
    refine ⟨last, hlast.1, hle.trans hle', fun asked hlow hhigh => ?_⟩
    exact (exists_snapshotAt hnumbered).2 ⟨hlast.2.trans hlow, hhigh⟩
  · intro block operationTxids totalBurn poxId winner appended happend
    obtain ⟨-, rfl⟩ := appendWithOperations_eq_ok H happend
    rw [tip_push, ← hstands.mixed]
    rfl

/-- Set the floor at the root, append two blocks, give one back and append another. -/
def reorganizedOps : List ChainOp :=
  [.keepFrom 100, .append (quietInput 101).block [] 0 .initial none,
    .append (quietInput 102).block [] 0 .initial none, .retractAbove 101,
    .append (quietInput 102).block [] 7 .initial none]

def reorganized : Branch :=
  .run blankHashes ⟨.new (.genesis 100 (Bytes.zero 32)), [stamp (.genesis 100 (Bytes.zero 32))]⟩
    reorganizedOps

theorem snapshot_chain_stands_reorganized :
    reorganized.chain.tip.bitcoinHeight = 102 ∧
      ∃ snapshot, reorganized.chain.snapshotAt 101 = some snapshot := by
  have hstands := snapshot_chain_stands blankHashes (.genesis 100 (Bytes.zero 32)) _ _ (.inl ⟨rfl, rfl⟩)
    reorganizedOps
  obtain ⟨floor, hfloor, -, hheld⟩ := hstands.2.2.2.1 [] 100 _ rfl ⟨_, rfl⟩
  have htip : reorganized.chain.tip.bitcoinHeight = 102 := by decide +kernel
  have hset : some floor = some 100 := hfloor.symm.trans (by decide +kernel)
  obtain rfl := Option.some.inj hset
  exact ⟨htip, hheld 101 (by decide) (htip ▸ by decide)⟩

end NanoStacks.Tracker
