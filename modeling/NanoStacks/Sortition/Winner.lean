import NanoStacks.Lib.Suffix
import NanoStacks.Sortition.Engine

/-!
# Whom a sortition can elect

Every chain of the distribution starts with a commitment of the newest block and only grows at its
other end, so the winner of a sortition is one of the commitments of its own block.
-/

namespace NanoStacks.Sortition

open Bitcoin Result List

/-- Every chain starts with one of the given commitments. -/
def StartWith (commitments : List MiningCommitment) (chains : List (List (Option Link))) : Prop :=
  ∀ chain ∈ chains, ∃ candidate ∈ commitments, ∃ links, chain = some (.commitment candidate) :: links

variable {commitments : List MiningCommitment}

theorem linkChains_startWith {expectedOutput : Nat} {chains linked : List (List (Option Link))}
    {byTxid : AList fun _ : Txid => MiningCommitment}
    {missed : AList fun _ : Txid => MissedCommitment} (h : StartWith commitments chains)
    (hok : linkChains expectedOutput chains byTxid missed = .ok linked) :
    StartWith commitments linked := by
  induction chains generalizing linked byTxid missed with
  | nil =>
    obtain rfl : linked = [] := by simpa [linkChains] using hok.symm
    exact h
  | cons chain rest ih =>
    have hrest : StartWith commitments rest := fun c hc => h c (mem_cons_of_mem _ hc)
    obtain ⟨candidate, hcandidate, links, rfl⟩ := h chain mem_cons_self
    -- Whatever is linked goes to the end of the chain.
    have hgrown : ∀ {byTxid' missed' link tail},
        linkChains expectedOutput rest byTxid' missed' = .ok tail →
        StartWith commitments ((some (.commitment candidate) :: links ++ [link]) :: tail) := by
      intro byTxid' missed' link tail htail c hc
      rcases mem_cons.1 hc with rfl | hc
      · exact ⟨candidate, hcandidate, links ++ [link], rfl⟩
      · exact ih hrest htail c hc
    simp only [linkChains, bind_eq_ok] at hok
    obtain ⟨last, -, hok⟩ := hok
    split_ifs at hok with houtput
    · simp only [bind_eq_ok, return_eq_ok] at hok
      obtain ⟨tail, htail, rfl⟩ := hok
      exact hgrown htail
    · split at hok
      · simp only [bind_eq_ok, return_eq_ok] at hok
        obtain ⟨tail, htail, rfl⟩ := hok
        exact hgrown htail
      · split at hok <;> simp only [bind_eq_ok, return_eq_ok] at hok <;>
          obtain ⟨tail, htail, rfl⟩ := hok <;> exact hgrown htail

theorem makeBurnSample_candidate {chains : List (List (Option Link))}
    (h : StartWith commitments chains) {chain : List (Option Link)} (hchain : chain ∈ chains)
    {windowLen : Nat} {sample : BurnSample} (hok : makeBurnSample chain windowLen = .ok sample) :
    sample.candidate ∈ commitments := by
  obtain ⟨candidate, hcandidate, links, rfl⟩ := h chain hchain
  simp only [makeBurnSample, bind_eq_ok, return_eq_ok] at hok
  obtain ⟨-, -, rfl⟩ := hok
  exact hcandidate

variable {samples assigned : List BurnSample}

theorem assignRangesFrom_candidates {total accumulated rangeStart : Nat}
    (hok : assignRangesFrom total accumulated rangeStart samples = .ok assigned) :
    assigned.map (·.candidate) = samples.map (·.candidate) := by
  induction samples generalizing accumulated rangeStart assigned with
  | nil =>
    obtain rfl : assigned = [] := by simpa [assignRangesFrom] using hok.symm
    rfl
  | cons sample samples ih =>
    simp only [assignRangesFrom, bind_eq_ok, return_eq_ok] at hok
    obtain ⟨accumulated', -, rest, hrest, rfl⟩ := hok
    rw [map_cons, map_cons, ih hrest]

theorem assignRanges_candidates (hok : assignRanges samples = .ok assigned) :
    assigned.map (·.candidate) = samples.map (·.candidate) := by
  unfold assignRanges at hok
  split at hok
  · rw [← Except.ok.inj hok]
  · rw [← Except.ok.inj hok]
    rfl
  · simp only [bind_eq_ok] at hok
    obtain ⟨total, -, -, -, hok⟩ := hok
    exact assignRangesFrom_candidates hok

theorem commitmentDistribution_candidate {window : List CommitmentWindowBlock}
    {latest : CommitmentWindowBlock} (hlatest : window.getLast? = some latest)
    {distribution : List BurnSample} (hok : commitmentDistribution window = .ok distribution)
    {sample : BurnSample} (hsample : sample ∈ distribution) :
    sample.candidate ∈ latest.commitments := by
  simp only [commitmentDistribution, hlatest, okOr_some, ok_bind, bind_eq_ok] at hok
  obtain ⟨-, -, linked, hlinked, samples, hsamples, hassigned⟩ := hok
  have hstart : StartWith latest.commitments linked := by
    refine foldlM_invariant hlinked (fun chain hchain => ?_) fun _ _ _ _ => linkChains_startWith
    obtain ⟨candidate, hcandidate, rfl⟩ := mem_map.1 hchain
    exact ⟨candidate, hcandidate, [], rfl⟩
  have hcandidate : sample.candidate ∈ samples.map (·.candidate) := by
    rw [← assignRanges_candidates hassigned]
    exact mem_map_of_mem hsample
  obtain ⟨sample', hsample', heq⟩ := mem_map.1 hcandidate
  obtain ⟨chain, hchain, hmake⟩ := mem_of_mapM_ok hsamples hsample'
  rw [← heq]
  exact makeBurnSample_candidate hstart hchain hmake

theorem getLast?_sampled (engine : SortitionEngine) (input : AppendInput) :
    (engine.sampled input).getLast? = some input.commitments := by
  have hretained := getLast?_retainCommitments engine.commitmentWindow input.commitments
  rw [← hretained]
  refine Suffix.getLast?_of_suffix (drop_suffix _ _) fun hnil => ?_
  rw [SortitionEngine.sampled, sampledWindow, drop_eq_nil_iff] at hnil
  have hempty : retainCommitments engine.commitmentWindow input.commitments = [] :=
    length_eq_zero_iff.1 (by omega)
  rw [hempty] at hretained
  simp at hretained

variable (H : Hashes) (advantage : CarryoverAdvantage)

/-- **The winner of an append is a commitment of its block**, and the snapshot names what it
carried. -/
theorem append_winner {engine : SortitionEngine} {input : AppendInput}
    {snapshot : SortitionSnapshot} (hok : (engine.append H advantage input).1 = .ok snapshot)
    {txid : Txid} (hwinner : snapshot.winnerTxid = some txid) :
    ∃ candidate ∈ input.commitments.commitments, candidate.txid = txid ∧
      snapshot.winnerVrfSeed = some candidate.vrfSeed ∧
      snapshot.winnerSigningKeyHash = candidate.signingKeyHash ∧
      snapshot.committedBlockHash = some candidate.committedBlockHash := by
  rw [SortitionEngine.append_fst] at hok
  simp only [deriveSnapshot, bind_eq_ok, return_eq_ok] at hok
  obtain ⟨election, helect, -, -, -, -, rfl⟩ := hok
  obtain ⟨winner, hwon, rfl⟩ := Option.map_eq_some_iff.1 hwinner
  have hcandidate : ∃ candidate ∈ input.commitments.commitments, winner = winnerOf candidate := by
    simp only [elect, bind_eq_ok, return_eq_ok] at helect
    obtain ⟨statistics, -, distribution, hdistribution, rfl⟩ := helect
    obtain ⟨⟨total, winner'⟩, hpair, rfl⟩ := Option.map_eq_some_iff.1 hwon
    obtain ⟨candidate, hdrawn, hpair⟩ := Option.bind_eq_some_iff.1 hpair
    obtain ⟨sum, -, heq⟩ := Option.map_eq_some_iff.1 hpair
    obtain ⟨index, -, hindex⟩ := Option.bind_eq_some_iff.1 hdrawn
    obtain ⟨sample, hsample, rfl⟩ := Option.map_eq_some_iff.1 hindex
    exact ⟨sample.candidate, commitmentDistribution_candidate (getLast?_sampled engine input)
      hdistribution (mem_of_getElem? hsample), (congrArg Prod.snd heq).symm⟩
  obtain ⟨candidate, hmem, rfl⟩ := hcandidate
  refine ⟨candidate, hmem, rfl, ?_, ?_, ?_⟩
  · show election.winner.map (·.vrfSeed) = _
    rw [hwon]
    rfl
  · show election.winner.bind (·.signingKeyHash) = _
    rw [hwon]
    rfl
  · show election.winner.map (·.committedBlockHash) = _
    rw [hwon]
    rfl

end NanoStacks.Sortition
