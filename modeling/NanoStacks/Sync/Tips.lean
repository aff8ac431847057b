import NanoStacks.Lib.Greatest
import NanoStacks.Chain.Plain
import NanoStacks.Tracker.Basic

/-!
# Choosing the tip to follow

Each peer offers a tip: the tenure it says it is in, and the header of the block it names. A candidate
is refused on the node's own burn view and its own record of the signers, and among those left the
longest chain wins.

* `canonical_tip`: the choice depends only on which candidates are not refused, and is the greatest
  of them by length, by the burn height of the header's sortition and by smaller identifier. A
  candidate whose header names a view the node judges is chosen only if that view is derived and the
  signers' weight is there, exactly unless its peer names another view in its place.
* `foreign_view_followed`: such a candidate.
-/

namespace NanoStacks.Sync

open Sortition Chain Tracker

/-! ## What peers offer -/

/-- A peer's `v3/tenures/info`, as far as fork choice reads it. -/
structure TenureInfo where
  consensusHash : ConsensusHash
  tipBlockId : StacksBlockId

structure CandidateTip where
  peer : Nat
  info : TenureInfo
  header : NakamotoBlockHeader

/-- What a peer answers, with `none` for no answer. -/
structure SyncClient where
  tenureInfo : Option TenureInfo
  block : StacksBlockId → Option NakamotoBlock

variable (H : Hashes)

/-- The block asked for, refused if the answer is another one. -/
def SyncClient.fetch (client : SyncClient) (id : StacksBlockId) : Option NakamotoBlock := do
  let block ← client.block id
  if block.blockId H = id then some block else none

def candidateTips (trusted : List (Nat × SyncClient)) : List CandidateTip :=
  trusted.filterMap fun (index, client) => do
    let info ← client.tenureInfo
    let tip ← client.fetch H info.tipBlockId
    return ⟨index, info, tip.header⟩

/-! ## Refusing and ranking -/

inductive TipRejection
  | insufficientWeight
  | unknownOrUnorderedSigner
  | unrecoverableSignature
  | foreignBurnView

/-- What a node's own burnchain says of a tenure: the height of a view it derived, and whether it
derived a view, with `none` where it cannot tell. -/
structure BurnView where
  heightOf : ConsensusHash → Option Nat
  derived : ConsensusHash → Nat → Option Bool

/-- A tracker judges a view by the burn total of the header: below its own total, every view is in
its history. -/
def burnView (tracker : SortitionTracker) : BurnView where
  heightOf := tracker.heightOfConsensusHash
  derived := tracker.derived

section Choice

variable (C : Crypto)

def weighTip (header : NakamotoBlockHeader) (signers : SignerWeights) : Except TipRejection Nat :=
  (signers.verify C header).mapError fun error =>
    match error with
    | .insufficientWeight => .insufficientWeight
    | .signature _ => .unrecoverableSignature
    | _ => .unknownOrUnorderedSigner

/-- Whether the weight rule applies to a candidate: its view is judged by the tenure its peer names
and the burn total its header states. -/
def judgeable (candidate : CandidateTip) (burn : Option BurnView) : Except TipRejection Bool :=
  match burn with
  | some burn =>
    match burn.derived candidate.info.consensusHash candidate.header.bitcoinSpent with
    | some true => .ok true
    | some false => .error .foreignBurnView
    | none => .ok false
  | none => .ok true

def refuseTip (candidate : CandidateTip) (signers : Option SignerWeights)
    (burn : Option BurnView) : Option TipRejection :=
  match judgeable candidate burn with
  | .error rejection => some rejection
  | .ok false => none
  | .ok true =>
    signers.bind fun signers =>
      match weighTip C candidate.header signers with
      | .error rejection => some rejection
      | .ok _ => none

/-- The burn height of a tip's own sortition. -/
def sortitionHeight (burn : Option BurnView) (candidate : CandidateTip) : Option Nat :=
  burn.bind (·.heightOf candidate.header.consensusHash)

def tipOrder (burn : Option BurnView) (left right : CandidateTip) : Ordering :=
  (compare left.header.chainLength right.header.chainLength).then
    ((compare (sortitionHeight burn left) (sortitionHeight burn right)).then
      (compare (right.header.blockId C).toList (left.header.blockId C).toList))

def chooseCanonicalTip (candidates : List CandidateTip) (signers : Option SignerWeights)
    (burn : Option BurnView) : Option CandidateTip :=
  maxBy (tipOrder C burn) (candidates.filter fun candidate =>
    (refuseTip C candidate signers burn).isNone)

/-! ## What is chosen -/

instance tipOrder_transCmp (burn : Option BurnView) : Std.TransCmp (tipOrder C burn) :=
  inferInstanceAs (Std.TransCmp (compareLex (compareOn fun candidate => candidate.header.chainLength)
    (compareLex (compareOn (sortitionHeight burn)) fun left right =>
      compareOn (fun candidate : CandidateTip => (candidate.header.blockId C).toList)
        right left)))

variable {burn : Option BurnView}

theorem blockId_eq_of_tipOrder {left right : CandidateTip} (h : tipOrder C burn left right = .eq) :
    left.header.blockId C = right.header.blockId C := by
  simp only [tipOrder, Ordering.then_eq_eq] at h
  exact (Bytes.ext (Std.LawfulEqCmp.eq_of_compare h.2.2)).symm

/-- A candidate does not rank above another: it is shorter, or its sortition is lower, a sortition
the node does not know being the lowest, or its identifier is not smaller. -/
def NotAbove (burn : Option BurnView) (other chosen : CandidateTip) : Prop :=
  other.header.chainLength < chosen.header.chainLength ∨
    other.header.chainLength = chosen.header.chainLength ∧
      (sortitionHeight burn other < sortitionHeight burn chosen ∨
        sortitionHeight burn other = sortitionHeight burn chosen ∧
          (compare (chosen.header.blockId C).toList (other.header.blockId C).toList).isLE)

theorem compare_eq_lt_iff {a b : Option Nat} : compare a b = .lt ↔ a < b := by
  cases a <;> cases b <;> simp [compare]

theorem notAbove_of_tipOrder {other chosen : CandidateTip} (h : (tipOrder C burn other chosen).isLE)
    : NotAbove C burn other chosen := by
  simp only [tipOrder, Ordering.isLE_then_iff_or, Nat.compare_eq_lt, compare_eq_lt_iff] at h
  rcases h with h | ⟨hlength, h | ⟨hheight, hid⟩⟩
  · exact .inl h
  · exact .inr ⟨Nat.compare_eq_eq.1 hlength, .inl h⟩
  · exact .inr ⟨Nat.compare_eq_eq.1 hlength, .inr ⟨Std.LawfulEqCmp.eq_of_compare hheight, hid⟩⟩

variable {C}

variable {candidates : List CandidateTip} {signers : Option SignerWeights}
  {candidate : CandidateTip}

theorem mem_unrefused :
    candidate ∈ candidates.filter (fun candidate => (refuseTip C candidate signers burn).isNone) ↔
      candidate ∈ candidates ∧ refuseTip C candidate signers burn = none := by
  simp [List.mem_filter]

theorem chooseCanonicalTip_congr {candidates' : List CandidateTip}
    (hmem : ∀ candidate, refuseTip C candidate signers burn = none →
      (candidate ∈ candidates ↔ candidate ∈ candidates')) :
    (chooseCanonicalTip C candidates signers burn).map (·.header.blockId C) =
      (chooseCanonicalTip C candidates' signers burn).map (·.header.blockId C) := by
  have hsame : ∀ candidate,
      candidate ∈ candidates.filter (fun candidate => (refuseTip C candidate signers burn).isNone) ↔
        candidate ∈ candidates'.filter
          (fun candidate => (refuseTip C candidate signers burn).isNone) := by
    intro candidate
    rw [mem_unrefused, mem_unrefused]
    constructor
    · rintro ⟨hin, hkept⟩
      exact ⟨(hmem candidate hkept).1 hin, hkept⟩
    · rintro ⟨hin, hkept⟩
      exact ⟨(hmem candidate hkept).2 hin, hkept⟩
  cases hchosen : chooseCanonicalTip C candidates signers burn with
  | none =>
    have hnil := (maxBy_eq_none _).1 hchosen
    rw [hnil] at hsame
    have hnil' := List.eq_nil_iff_forall_not_mem.2 fun candidate hin =>
      List.not_mem_nil ((hsame candidate).2 hin)
    rw [chooseCanonicalTip, hnil']
    rfl
  | some chosen =>
    cases hchosen' : chooseCanonicalTip C candidates' signers burn with
    | none =>
      have hnil := (maxBy_eq_none _).1 hchosen'
      have hin := (hsame chosen).1 (maxBy_eq_some _ hchosen).1
      rw [hnil] at hin
      exact absurd hin List.not_mem_nil
    | some chosen' =>
      have heq := maxBy_eq_of_mem_iff (tipOrder C burn) hsame hchosen hchosen'
      simp only [Option.map_some, blockId_eq_of_tipOrder C heq]

theorem chooseCanonicalTip_eq_some {chosen : CandidateTip}
    (h : chooseCanonicalTip C candidates signers burn = some chosen) :
    chosen ∈ candidates ∧ refuseTip C chosen signers burn = none ∧
      ∀ other ∈ candidates, refuseTip C other signers burn = none → NotAbove C burn other chosen := by
  obtain ⟨hmem, hmax⟩ := maxBy_eq_some _ h
  obtain ⟨hin, hkept⟩ := mem_unrefused.1 hmem
  refine ⟨hin, hkept, fun other hother hkept' => ?_⟩
  exact notAbove_of_tipOrder C (hmax other (mem_unrefused.2 ⟨hother, hkept'⟩))

variable (C)

/-- The signatures of a header carry threshold weight. -/
def Weighs (signers : SignerWeights) (header : NakamotoBlockHeader) : Prop :=
  ∃ weight, signers.verify C header = .ok weight

/-- A header whose view the node can judge names a view it derived, and carries the weight. -/
def Sound (signers : SignerWeights) (burn : BurnView) (header : NakamotoBlockHeader) : Prop :=
  ∀ known, burn.derived header.consensusHash header.bitcoinSpent = some known →
    known = true ∧ Weighs C signers header

/-- The tenure a peer names is judged more kindly than its header's own: a derived view or an unknown
one in place of a foreign view, or an unknown one in place of a view that is derived, for a header
that lacks the weight. -/
def Misnamed (signers : SignerWeights) (burn : BurnView) (candidate : CandidateTip) : Prop :=
  let own := burn.derived candidate.header.consensusHash candidate.header.bitcoinSpent
  let named := burn.derived candidate.info.consensusHash candidate.header.bitcoinSpent
  own = some false ∧ (named = none ∨ named = some true ∧ Weighs C signers candidate.header) ∨
    own = some true ∧ named = none ∧ ¬Weighs C signers candidate.header

variable {C}

theorem weighTip_match {header : NakamotoBlockHeader} {signers : SignerWeights} :
    (match weighTip C header signers with
      | .error rejection => some rejection
      | .ok _ => none) = none ↔ Weighs C signers header := by
  unfold weighTip Weighs
  cases signers.verify C header with
  | error error => simp [Except.mapError]
  | ok weight => simp [Except.mapError]

theorem refuseTip_eq_none {signers : SignerWeights} {burn : BurnView} :
    refuseTip C candidate (some signers) (some burn) = none ↔
      burn.derived candidate.info.consensusHash candidate.header.bitcoinSpent = none ∨
        burn.derived candidate.info.consensusHash candidate.header.bitcoinSpent = some true ∧
          Weighs C signers candidate.header := by
  cases hnamed : burn.derived candidate.info.consensusHash candidate.header.bitcoinSpent with
  | none => simp [refuseTip, judgeable, hnamed]
  | some known =>
    cases known with
    | false => simp [refuseTip, judgeable, hnamed]
    | true => simpa [refuseTip, judgeable, hnamed] using weighTip_match

theorem misnamed_iff {signers : SignerWeights} {burn : BurnView} :
    Misnamed C signers burn candidate ↔
      refuseTip C candidate (some signers) (some burn) = none ∧
        ¬Sound C signers burn candidate.header := by
  rw [refuseTip_eq_none]
  unfold Misnamed Sound
  cases burn.derived candidate.header.consensusHash candidate.header.bitcoinSpent with
  | none => simp
  | some known =>
    cases known with
    | false => simp
    | true =>
      simp only [Option.some.injEq, forall_eq', true_and]
      tauto

variable (C)

/-- What is chosen depends only on the candidates that are not refused, and is the greatest of them;
and nothing chosen from some candidates stands on a view the node judges against it, or lacks the
weight where the node can judge, exactly if none of them is misnamed. -/
theorem canonical_tip :
    (∀ signers burn candidates candidates',
      (∀ candidate, refuseTip C candidate signers burn = none →
        (candidate ∈ candidates ↔ candidate ∈ candidates')) →
      (chooseCanonicalTip C candidates signers burn).map (·.header.blockId C) =
        (chooseCanonicalTip C candidates' signers burn).map (·.header.blockId C)) ∧
    (∀ signers burn candidates chosen,
      chooseCanonicalTip C candidates signers burn = some chosen →
      chosen ∈ candidates ∧ refuseTip C chosen signers burn = none ∧
        ∀ other ∈ candidates, refuseTip C other signers burn = none →
          NotAbove C burn other chosen) ∧
    (∀ signers burn candidates,
      chooseCanonicalTip C candidates signers burn = none ↔
        ∀ candidate ∈ candidates, refuseTip C candidate signers burn ≠ none) ∧
    ∀ signers burn candidates,
      (∀ offered ⊆ candidates, ∀ chosen,
        chooseCanonicalTip C offered (some signers) (some burn) = some chosen →
          Sound C signers burn chosen.header) ↔
        ∀ candidate ∈ candidates, ¬Misnamed C signers burn candidate := by
  refine ⟨fun _ _ _ _ => chooseCanonicalTip_congr, fun _ _ _ _ => chooseCanonicalTip_eq_some,
    fun signers burn candidates => ?_, fun signers burn candidates => ⟨?_, ?_⟩⟩
  · rw [chooseCanonicalTip, maxBy_eq_none]
    simp [List.filter_eq_nil_iff]
  · -- a misnamed candidate is chosen when it is the only one
    intro hsound candidate hin hmisnamed
    obtain ⟨hkept, hunsound⟩ := misnamed_iff.1 hmisnamed
    have halone : chooseCanonicalTip C [candidate] (some signers) (some burn) = some candidate := by
      simp [chooseCanonicalTip, hkept, maxBy]
    exact hunsound (hsound [candidate] (by simpa using hin) candidate halone)
  · intro hnone offered hoffered chosen hchosen
    obtain ⟨hin, hkept, -⟩ := chooseCanonicalTip_eq_some hchosen
    by_contra hunsound
    exact hnone chosen (hoffered hin) (misnamed_iff.2 ⟨hkept, hunsound⟩)

end Choice

/-! ## A foreign view that is followed -/

/-- A tracker that knows one burn view, at height 120, with a burn total of 10. -/
def followingTracker : SortitionTracker where
  poxId := .initial
  keys := .new
  waterfallPayouts := .empty
  primed := true
  commitments := ∅
  commitmentFloor := none
  engine :=
    ⟨⟨[{ SortitionSnapshot.genesis 120 (Bytes.zero 32) with
        consensusHash := plainTenure 1, totalBurn := 10 }], [plainTenure 1], [], none, by simp⟩, []⟩

/-- A signed block of a tenure on another burnchain. -/
def foreignBlock : NakamotoBlock :=
  { plainBlock (Bytes.zero 32) 20 2 0 [] with
    header := { (plainBlock (Bytes.zero 32) 20 2 0 []).header with bitcoinSpent := 5 } }

def foreignId : StacksBlockId := foreignBlock.blockId plainCrypto

/-- A peer that serves the foreign block and says it is in the tenure the node derived. -/
def misleadingPeer : SyncClient where
  tenureInfo := some ⟨plainTenure 1, foreignId⟩
  block id := if id = foreignId then some foreignBlock else none

def oneSigner : SignerWeights := ⟨[(Bytes.zero 20, 1)], by simp, by simp⟩

theorem foreign_view_followed :
    (chooseCanonicalTip plainCrypto (candidateTips plainCrypto [(0, misleadingPeer)])
        (some oneSigner) (some (burnView followingTracker))).map (·.header) =
      some foreignBlock.header ∧
    (burnView followingTracker).derived foreignBlock.header.consensusHash
      foreignBlock.header.bitcoinSpent = some false := by
  decide +kernel

end NanoStacks.Sync
