import NanoStacks.Chain.Quorum
import NanoStacks.StackerDb.SignerMessage
import NanoStacks.Lib.OrdMap

/-!
# Collecting the signers' answers

A miner reads every signer's slot and puts the acceptances of its proposal in reward-set order. One
message that cannot be read, one acceptance that no signer of the set made and one signer's second
acceptance each end the whole collection, so with signers of threshold weight behind the proposal the
block is finalized exactly when the other slots hold none of these (`Undisturbed`).
-/

namespace NanoStacks.Chain.SignerWeights

open Bitcoin Result List

variable (C : Crypto) (weights : SignerWeights)

/-- File one response under the place of its signer in the reward set. -/
def fileResponse (digest : Bytes 32) (ordered : OrdMap Nat MessageSignature)
    (signature : MessageSignature) : Except SignerSetError (OrdMap Nat MessageSignature) := do
  let signing ← okOr (C.recover signature digest) (.signature (C.recoverError signature digest))
  ensure (signing ∈ weights.members) .unknownOrUnorderedSigner
  let index := weights.members.idxOf signing
  ensure ((ordered.get index).isNone) .unknownOrUnorderedSigner
  return ordered.insert index signature

/-- Order valid signer responses by reward-set index and require threshold weight. -/
def orderResponses (header : NakamotoBlockHeader) (responses : List MessageSignature) :
    Except SignerSetError (List MessageSignature) := do
  let digest := header.signerSignatureHash C
  let ordered ← responses.foldlM (weights.fileResponse C digest) .empty
  let signatures := ordered.entries.map (·.2)
  let _ ← weights.verify C { header with signerSignatures := signatures }
  return signatures

/-! ## What is filed -/

/-- The place in the reward set of the signer a signature recovers to. -/
def placeOf (digest : Bytes 32) (signature : MessageSignature) : Nat :=
  (C.recover signature digest).elim 0 weights.members.idxOf

variable {C weights} {digest : Bytes 32} {ordered ordered' : OrdMap Nat MessageSignature}

theorem fileResponse_eq_ok {signature : MessageSignature} :
    weights.fileResponse C digest ordered signature = .ok ordered' ↔
      (∃ signing ∈ weights.members, C.recover signature digest = some signing) ∧
        ordered.get (weights.placeOf C digest signature) = none ∧
        ordered' = ordered.insert (weights.placeOf C digest signature) signature := by
  unfold fileResponse placeOf
  cases C.recover signature digest <;> simp [@eq_comm _ ordered']

/-- Responses can be filed exactly when each recovers to a member, and no two of them nor anything
filed before have one place. -/
theorem foldlM_fileResponse_eq_ok {responses : List MessageSignature} :
    responses.foldlM (weights.fileResponse C digest) ordered = .ok ordered' ↔
      (∀ signature ∈ responses, ∃ signing ∈ weights.members,
        C.recover signature digest = some signing) ∧
      (responses.map (fun signature => (weights.placeOf C digest signature, signature)) ++
        ordered.entries).Perm ordered'.entries := by
  induction responses generalizing ordered with
  | nil => simp [OrdMap.entries_perm_iff]
  | cons first responses ih =>
    simp only [foldlM_cons, bind_eq_ok, fileResponse_eq_ok, ih, forall_mem_cons, map_cons, cons_append]
    constructor
    · rintro ⟨_, ⟨hfirst, hnone, rfl⟩, hall, hperm⟩
      refine ⟨⟨hfirst, hall⟩, perm_middle.symm.trans ?_⟩
      exact ((ordered.insert_perm hnone first).symm.append_left _).trans hperm
    · rintro ⟨⟨hfirst, hall⟩, hperm⟩
      have hnone : ordered.get (weights.placeOf C digest first) = none := by
        have hdistinct := hperm.symm.pairwise (ordered'.sorted.imp fun hlt => hlt.ne) fun hne => hne.symm
        refine OrdMap.getEntry_eq_none fun entry hentry hsame => ?_
        exact (pairwise_cons.1 hdistinct).1 entry (mem_append_right _ hentry) hsame.symm
      refine ⟨_, ⟨hfirst, hnone, rfl⟩, hall, ?_⟩
      exact ((ordered.insert_perm hnone first).append_left _).trans (perm_middle.trans hperm)

variable {header : NakamotoBlockHeader} {responses signatures : List MessageSignature} {weight : Nat}

theorem Approved.map_recover {signing : List Hash160}
    (h : weights.Approved C { header with signerSignatures := signatures } weight signing) :
    signatures.map (C.recover · (header.signerSignatureHash C)) = signing.map some :=
  mapM_eq_some_iff.1 h.recovered

theorem verify_increasing
    (h : weights.verify C { header with signerSignatures := signatures } = .ok weight) :
    (∀ signature ∈ signatures, ∃ signing ∈ weights.members,
      C.recover signature (header.signerSignatureHash C) = some signing) ∧
    (signatures.map (weights.placeOf C (header.signerSignatureHash C))).Pairwise (· < ·) := by
  obtain ⟨signing, happroved⟩ := weights.verify_eq_ok.1 h
  have hrecovered := happroved.map_recover
  constructor
  · intro signature hsignature
    have hmem := mem_map_of_mem (f := (C.recover · (header.signerSignatureHash C))) hsignature
    rw [hrecovered] at hmem
    obtain ⟨hash, hhash, hsome⟩ := mem_map.1 hmem
    exact ⟨hash, happroved.members hash hhash, hsome.symm⟩
  · have hplaces : signatures.map (weights.placeOf C (header.signerSignatureHash C))
        = signing.map weights.members.idxOf := by
      have := congrArg (map (Option.elim · 0 weights.members.idxOf)) hrecovered
      rw [map_map, map_map] at this
      exact this
    rw [hplaces]
    exact pairwise_map.2 happroved.ordered

/-- The responses are ordered to that permutation of them which the reward set verifies. -/
theorem orderResponses_eq_ok :
    weights.orderResponses C header responses = .ok signatures ↔ signatures.Perm responses ∧
      ∃ weight, weights.verify C { header with signerSignatures := signatures } = .ok weight := by
  simp only [orderResponses, bind_eq_ok, return_eq_ok, foldlM_fileResponse_eq_ok]
  constructor
  · rintro ⟨ordered, ⟨-, hperm⟩, weight, hverify, rfl⟩
    refine ⟨?_, weight, hverify⟩
    simpa [OrdMap.empty, Function.comp_def] using (hperm.map Prod.snd).symm
  · rintro ⟨hperm, weight, hverify⟩
    obtain ⟨hmembers, hincreasing⟩ := verify_increasing hverify
    refine ⟨⟨signatures.map fun signature =>
        (weights.placeOf C (header.signerSignatureHash C) signature, signature),
      pairwise_map.2 (pairwise_map.1 hincreasing)⟩,
      ⟨fun signature hsignature => hmembers signature (hperm.mem_iff.2 hsignature), ?_⟩, weight, ?_, ?_⟩
    · simpa [OrdMap.empty] using hperm.symm.map _
    · simpa [Function.comp_def] using hverify
    · simp [Function.comp_def]

/-- What a header is verified with comes from different members, whatever order it is read in. -/
theorem distinct_of_verify (hperm : signatures.Perm responses)
    (hverify : weights.verify C { header with signerSignatures := signatures } = .ok weight) :
    ∃ signers : List Hash160,
      responses.map (C.recover · (header.signerSignatureHash C)) = signers.map some ∧
      signers.Nodup ∧ ∀ signing ∈ signers, signing ∈ weights.members := by
  obtain ⟨signing, happroved⟩ := weights.verify_eq_ok.1 hverify
  have hrecovered := hperm.symm.map (C.recover · (header.signerSignatureHash C))
  rw [happroved.map_recover, ← congrFun₂ (eq_map_comp_perm some)] at hrecovered
  obtain ⟨signers, hsigners, hsame⟩ := hrecovered
  exact ⟨signers, hsigners, hsame.nodup_iff.2 happroved.distinct,
    fun signer hsigner => happroved.members signer (hsame.subset hsigner)⟩

/-- Responses of different members can be put in an order that is verified, if members of threshold
weight are among them. -/
theorem exists_verify {found signers : List Hash160} {threshold : Nat}
    (hfound : responses.map (C.recover · (header.signerSignatureHash C)) = found.map some)
    (hnodup : found.Nodup) (hmembers : ∀ signing ∈ found, signing ∈ weights.members)
    (hthreshold : weights.approvalThreshold = .ok threshold) (hdistinct : signers.Nodup)
    (hsub : signers ⊆ found) (hweight : threshold ≤ (signers.map weights.weightOf).sum) :
    ∃ signatures : List MessageSignature, signatures.Perm responses ∧
      ∃ weight, weights.verify C { header with signerSignatures := signatures } = .ok weight := by
  obtain ⟨hfits, rfl⟩ := weights.approvalThreshold_eq_ok.1 hthreshold
  have hpart : (weights.members.filter (· ∈ found)).Sublist weights.members := filter_sublist
  have hsame : (weights.members.filter (· ∈ found)).Perm found := by
    refine (perm_ext_iff_of_nodup (weights.nodup.sublist hpart) hnodup).2 fun signing => ?_
    simpa using hmembers signing
  obtain ⟨signatures, hsignatures, hperm⟩ :
      Relation.Comp (· = map (C.recover · (header.signerSignatureHash C)) ·) List.Perm
        ((weights.members.filter (· ∈ found)).map some) responses := by
    rw [eq_map_comp_perm]
    show List.Perm _ (responses.map _)
    rw [hfound]
    exact hsame.map some
  obtain ⟨hin, hordered⟩ := (sublist_iff_idxOf_increasing weights.nodup).1 hpart
  refine ⟨signatures, hperm, _, weights.verify_eq_ok.2 ⟨_, mapM_eq_some_iff.2 hsignatures.symm,
    weights.nodup.sublist hpart, hin, hordered, rfl, hfits, hweight.trans ?_⟩⟩
  obtain ⟨part, hpart, hle⟩ := hdistinct.subperm fun signing h => hsame.symm.subset (hsub h)
  rw [← (hpart.map weights.weightOf).sum_eq]
  exact (hle.map weights.weightOf).sum_le_sum fun _ _ => Nat.zero_le _

/-- In whatever order the responses arrive, they are refused alike or ordered alike; what they are
ordered to is the only order of them that the reward set verifies. -/
theorem responses_ordered_alike (C : Crypto) (weights : SignerWeights)
    (header : NakamotoBlockHeader) {responses responses' : List MessageSignature}
    (hperm : responses'.Perm responses) :
    (weights.orderResponses C header responses').toOption
        = (weights.orderResponses C header responses).toOption ∧
      ∀ signatures, weights.orderResponses C header responses = .ok signatures →
        signatures.Perm responses ∧ ∀ other, other.Perm responses →
          ((∃ weight, weights.verify C { header with signerSignatures := other } = .ok weight) ↔
            other = signatures) := by
  constructor
  · apply Option.ext
    intro signatures
    have hsame : signatures.Perm responses' ↔ signatures.Perm responses :=
      ⟨(·.trans hperm), (·.trans hperm.symm)⟩
    simp only [toOption_eq_some, orderResponses_eq_ok, hsame]
  · intro signatures h
    obtain ⟨hsignatures, hverify⟩ := orderResponses_eq_ok.1 h
    refine ⟨hsignatures, fun other hother => ⟨fun hother' => ?_, fun heq => heq ▸ hverify⟩⟩
    have hordered := orderResponses_eq_ok.2 ⟨hother, hother'⟩
    exact Except.ok.inj (hordered.symm.trans h)

theorem responses_of_two_ordered_alike :
    (threeSigners.orderResponses namingCrypto (signedBy [])
      [Bytes.replicate 65 2, Bytes.replicate 65 1]).toOption
      = some [Bytes.replicate 65 1, Bytes.replicate 65 2] :=
  (responses_ordered_alike namingCrypto threeSigners (signedBy []) (.swap _ _ _)).1.trans
    (by decide +kernel)

end NanoStacks.Chain.SignerWeights

namespace NanoStacks.Miner

open Bitcoin Result Chain StackerDb

/-- What ends a collection: a message that cannot be read, or the responses. -/
inductive ProposalError
  | message (error : SignerMessageError)
  | signerSet (error : SignerSetError)
  deriving DecidableEq

section

variable (C : Crypto) (vrfParses : Bytes 80 → Bool)

/-- What the signers of a proposal sign. -/
abbrev expectedHash (proposal : BlockProposal) : Bytes 32 :=
  proposal.block.header.signerSignatureHash C

/-- The signature of an acceptance of the proposal with that hash. -/
def acceptanceOf (expectedHash : Bytes 32) : SignerMessage → Option MessageSignature
  | .blockResponse (.accepted response) =>
    if response.signerSignatureHash = expectedHash then some response.signature else none
  | _ => none

/-- Read all slot messages and return the ordered threshold signatures. -/
def responseSignatures (proposal : BlockProposal) (signerSet : SignerWeights)
    (messages : List (List UInt8)) : Except ProposalError (List MessageSignature) := do
  let messages ← messages.mapM fun bytes =>
    (SignerMessage.decode C vrfParses bytes).mapError .message
  (signerSet.orderResponses C proposal.block.header
    (messages.filterMap (acceptanceOf (expectedHash C proposal)))).mapError .signerSet

def finalizeBlock (proposal : BlockProposal) (signatures : List MessageSignature) :
    Codec.NakamotoBlock :=
  { proposal.block with header := { proposal.block.header with signerSignatures := signatures } }

end

variable {C : Crypto} {vrfParses : Bytes 80 → Bool}

/-! ## Which collections succeed -/

/-- Signers of threshold weight each have an acceptance of the proposal in the slots. -/
structure Backed (C : Crypto) (vrfParses : Bytes 80 → Bool) (proposal : BlockProposal)
    (signerSet : SignerWeights) (messages : List (List UInt8)) (signers : List Hash160) : Prop where
  nodup : signers.Nodup
  accepted : ∀ signing ∈ signers, ∃ bytes ∈ messages, ∃ message signature,
    SignerMessage.decode C vrfParses bytes = .ok message ∧
    acceptanceOf (expectedHash C proposal) message = some signature ∧
    C.recover signature (expectedHash C proposal) = some signing
  weighs : ∃ threshold, signerSet.approvalThreshold = .ok threshold ∧
    threshold ≤ (signers.map signerSet.weightOf).sum

/-- Every slot holds a message, and the acceptances of the proposal are those of different signers of
the set. -/
def Undisturbed (C : Crypto) (vrfParses : Bytes 80 → Bool) (proposal : BlockProposal)
    (signerSet : SignerWeights) (messages : List (List UInt8)) : Prop :=
  ∃ held : List SignerMessage,
    messages.map (SignerMessage.decode C vrfParses) = held.map .ok ∧
    ∃ signers : List Hash160,
      (held.filterMap (acceptanceOf (expectedHash C proposal))).map
        (C.recover · (expectedHash C proposal)) = signers.map some ∧
      signers.Nodup ∧ ∀ signing ∈ signers, signing ∈ signerSet.members

theorem mapM_decode_eq_ok {messages : List (List UInt8)} {held : List SignerMessage} :
    (messages.mapM fun bytes =>
        (SignerMessage.decode C vrfParses bytes).mapError ProposalError.message) = .ok held ↔
      messages.map (SignerMessage.decode C vrfParses) = held.map .ok := by
  simp only [mapM_eq_ok_iff, ← List.forall₂_eq_eq_eq, List.forall₂_map_left_iff,
    List.forall₂_map_right_iff, mapError_eq_ok]

/-- With signers of threshold weight behind it, a proposal is finalized with signatures the reward set
verifies exactly when nothing in the slots disturbs the collection. -/
theorem responses_finalize_iff {proposal : BlockProposal} {signerSet : SignerWeights}
    {messages : List (List UInt8)} {signers : List Hash160}
    (hbacked : Backed C vrfParses proposal signerSet messages signers) :
    (∃ signatures weight,
        responseSignatures C vrfParses proposal signerSet messages = .ok signatures ∧
        signerSet.verify C (finalizeBlock proposal signatures).header = .ok weight) ↔
      Undisturbed C vrfParses proposal signerSet messages := by
  simp only [responseSignatures, bind_eq_ok, mapError_eq_ok, mapM_decode_eq_ok,
    SignerWeights.orderResponses_eq_ok]
  constructor
  · rintro ⟨signatures, _, ⟨held, hheld, hperm, weight, hverify⟩, -⟩
    exact ⟨held, hheld, SignerWeights.distinct_of_verify hperm hverify⟩
  · rintro ⟨held, hheld, found, hfound, hnodup, hmembers⟩
    obtain ⟨threshold, hthreshold, hweight⟩ := hbacked.weighs
    have hbacking : signers ⊆ found := by
      intro signing hsigning
      obtain ⟨bytes, hbytes, message, signature, hdecode, hacceptance, hrecover⟩ :=
        hbacked.accepted signing hsigning
      have hmessage : (.ok message : Except SignerMessageError SignerMessage) ∈ held.map .ok := by
        rw [← hheld, ← hdecode]
        exact List.mem_map_of_mem hbytes
      obtain ⟨_, hin, heq⟩ := List.mem_map.1 hmessage
      cases heq
      have hsome : some signing ∈ found.map some := by
        rw [← hfound, ← hrecover]
        exact List.mem_map_of_mem (List.mem_filterMap.2 ⟨message, hin, hacceptance⟩)
      simpa using hsome
    obtain ⟨signatures, hperm, weight, hverify⟩ := SignerWeights.exists_verify hfound hnodup hmembers
      hthreshold hbacked.nodup hbacking hweight
    exact ⟨signatures, weight, ⟨held, hheld, hperm, weight, hverify⟩, hverify⟩

/-! Three signers, of whom the first two are enough. -/

def plainProposal : BlockProposal := ⟨⟨signedBy [], []⟩, 1, 0, BlockProposal.emptyData⟩

/-- The acceptance of that proposal in the slot of a signer. -/
def plainAcceptance (signer : UInt8) : List UInt8 :=
  [1, 0] ++ ((signedBy []).signerSignatureHash namingCrypto).toList ++
    List.replicate 65 signer ++ [0, 0, 0, 0, 5, 0, 0, 0, 18] ++ List.replicate 8 0 ++ [255] ++
    List.replicate 9 0

theorem decode_plainAcceptance : ∀ signer ∈ [1, 2],
    SignerMessage.decode namingCrypto (fun _ => true) (plainAcceptance signer)
      = .ok (.blockResponse (.accepted
        ⟨expectedHash namingCrypto plainProposal, Bytes.replicate 65 signer, "", 0, 0⟩)) ∧
    namingCrypto.recover (Bytes.replicate 65 signer) (expectedHash namingCrypto plainProposal)
      = some (Bytes.replicate 20 signer) := by
  decide +kernel

theorem acceptanceOf_accepted (response : BlockAcceptance) :
    acceptanceOf response.signerSignatureHash (.blockResponse (.accepted response))
      = some response.signature :=
  if_pos rfl

theorem backed_by_two (more : List (List UInt8)) :
    Backed namingCrypto (fun _ => true) plainProposal threeSigners
      (plainAcceptance 1 :: plainAcceptance 2 :: more)
      [Bytes.replicate 20 1, Bytes.replicate 20 2] where
  nodup := by decide
  accepted := by
    intro signing hsigning
    rcases List.mem_pair.1 hsigning with rfl | rfl
    · obtain ⟨hdecode, hrecover⟩ := decode_plainAcceptance 1 (by simp)
      exact ⟨_, List.mem_cons_self, _, _, hdecode, acceptanceOf_accepted _, hrecover⟩
    · obtain ⟨hdecode, hrecover⟩ := decode_plainAcceptance 2 (by simp)
      exact ⟨_, List.mem_cons_of_mem _ List.mem_cons_self, _, _, hdecode, acceptanceOf_accepted _,
        hrecover⟩
  weighs := ⟨7, by decide, by decide⟩

/-- A third slot with one byte that starts no message keeps an accepted block from being finalized. -/
theorem collection_stopped_by_one_byte :
    Backed namingCrypto (fun _ => true) plainProposal threeSigners
      [plainAcceptance 1, plainAcceptance 2, [9]] [Bytes.replicate 20 1, Bytes.replicate 20 2] ∧
    responseSignatures namingCrypto (fun _ => true) plainProposal threeSigners
      [plainAcceptance 1, plainAcceptance 2, [9]] = .error (.message (.invalidMessageType 9)) :=
  ⟨backed_by_two [[9]], by decide +kernel⟩

theorem responses_of_two_finalize :
    ∃ signatures weight,
      responseSignatures namingCrypto (fun _ => true) plainProposal threeSigners
        [plainAcceptance 1, plainAcceptance 2] = .ok signatures ∧
      threeSigners.verify namingCrypto (finalizeBlock plainProposal signatures).header = .ok weight :=
  (responses_finalize_iff (backed_by_two [])).2 (by
    obtain ⟨hfirst, hone⟩ := decode_plainAcceptance 1 (by simp)
    obtain ⟨hsecond, htwo⟩ := decode_plainAcceptance 2 (by simp)
    refine ⟨[_, _], by rw [List.map_cons, hfirst, List.map_singleton, hsecond]; exact rfl,
      [Bytes.replicate 20 1, Bytes.replicate 20 2], ?_, by decide, by decide⟩
    simp only [List.filterMap_cons, acceptanceOf, if_true, List.filterMap_nil, List.map_cons, hone, htwo,
      List.map_nil])

end NanoStacks.Miner
