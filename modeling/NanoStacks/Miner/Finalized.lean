import NanoStacks.Miner.Responses
import NanoStacks.Signer.Protection
import Mathlib.Data.List.ReduceOption

/-!
# From the signers' answers to a finalized block

Both ends of a proposal together: what a signer answers it with, in whatever run its process is, is an
acceptance the miner reads out of the slot and counts (`InSlot.read`).
-/

namespace NanoStacks.Miner

open Bitcoin Result Chain StackerDb Signer List

variable {C : Crypto} {vrfParses : Bytes 80 → Bool} {proposal : BlockProposal}

variable (vrfParses proposal) in
/-- What a slot holds, and whose acceptance of the proposal that is: the answer of a signer's process to
a request for it, or a message that is no acceptance of it. -/
inductive InSlot : List UInt8 → Option Hash160 → Prop
  | answer {V : Type} [ProposalValidator V] (key : StacksPrivateKey C) (timeout : Nat) {journals : Bool}
      {start : World C V} (hbegins : Begins key timeout start journals) {steps : List (Step C V)}
      (hconfigured : ∀ step ∈ steps, step.Configured key timeout journals) {call : Call V}
      {now : Readings} {disk : Replacement} (hclock : Clocked 0 (steps ++ [.call call now disk]))
      (hrequest : call.request = some proposal) {chunk : Chunk}
      (hanswer : (start.run vrfParses steps).answer call now disk = some (.ok (some chunk))) :
      InSlot chunk.data (some (writerIdentity key))
  | other {bytes : List UInt8} {message : SignerMessage}
      (hdecode : SignerMessage.decode C vrfParses bytes = .ok message)
      (hnone : acceptanceOf (expectedHash C proposal) message = none) : InSlot bytes none

theorem InSlot.read {bytes : List UInt8} {signer : Option Hash160}
    (h : InSlot (C := C) vrfParses proposal bytes signer) :
    ∃ message, SignerMessage.decode C vrfParses bytes = .ok message ∧
      (acceptanceOf (expectedHash C proposal) message).map (C.recover · (expectedHash C proposal))
        = signer.map some := by
  cases h with
  | answer key timeout hbegins hconfigured hclock hrequest hanswer =>
    obtain ⟨hsteps, hticks, -⟩ := clocked_append.1 hclock
    obtain ⟨-, -, -, ⟨response, hdecode, hhash, hrecover⟩, -⟩ :=
      guarded_of_answer (hbegins.upright.run hconfigured hsteps) hrequest hticks hanswer
    have haccepted : response.signerSignatureHash = expectedHash C proposal := hhash
    refine ⟨_, hdecode, ?_⟩
    rw [acceptanceOf, if_pos haccepted]
    exact congrArg some hrecover
  | other hdecode hnone => exact ⟨_, hdecode, by rw [hnone]; rfl⟩

variable {messages : List (List UInt8)} {signers : List (Option Hash160)}

theorem InSlot.readAll (h : Forall₂ (InSlot (C := C) vrfParses proposal) messages signers) :
    ∃ held : List SignerMessage,
      messages.map (SignerMessage.decode C vrfParses) = held.map .ok ∧
      (held.filterMap (acceptanceOf (expectedHash C proposal))).map
        (C.recover · (expectedHash C proposal)) = signers.reduceOption.map some := by
  induction h with
  | nil => exact ⟨[], rfl, rfl⟩
  | cons hslot _ ih =>
    obtain ⟨message, hdecode, hsigner⟩ := hslot.read
    obtain ⟨held, hheld, hfound⟩ := ih
    refine ⟨message :: held, by simp only [map_cons, hdecode, hheld], ?_⟩
    rw [reduceOption, map_filterMap, map_filterMap] at hfound ⊢
    rw [filterMap_cons, filterMap_cons, hsigner, hfound]
    rfl

/-- Where every slot holds a signer's answer to the proposal or a message that is no acceptance of it,
the block is finalized exactly when the signers that answered weigh the threshold. -/
theorem answers_finalize_iff (signerSet : SignerWeights)
    (hslots : Forall₂ (InSlot (C := C) vrfParses proposal) messages signers)
    (hnodup : signers.reduceOption.Nodup)
    (hmembers : ∀ signing ∈ signers.reduceOption, signing ∈ signerSet.members) {threshold : Nat}
    (hthreshold : signerSet.approvalThreshold = .ok threshold) :
    (∃ signatures weight,
        responseSignatures C vrfParses proposal signerSet messages = .ok signatures ∧
        signerSet.verify C (finalizeBlock proposal signatures).header = .ok weight) ↔
      threshold ≤ (signers.reduceOption.map signerSet.weightOf).sum := by
  obtain ⟨held, hheld, hfound⟩ := InSlot.readAll hslots
  simp only [responseSignatures, bind_eq_ok, mapError_eq_ok, mapM_decode_eq_ok,
    SignerWeights.orderResponses_eq_ok]
  constructor
  · rintro ⟨signatures, weight, ⟨held', hheld', hperm, -⟩, hverify⟩
    obtain ⟨signing, happroved⟩ := signerSet.verify_eq_ok.1 hverify
    obtain rfl : held' = held :=
      map_injective_iff.2 (fun _ _ => Except.ok.inj) (hheld'.symm.trans hheld)
    have hsigning : (signing.map some).Perm (signers.reduceOption.map some) := by
      rw [← hfound, ← happroved.map_recover]
      exact hperm.map _
    rw [map_perm_map_iff (Option.some_injective _)] at hsigning
    rw [← (hsigning.map signerSet.weightOf).sum_eq, happroved.weighs,
      ← (signerSet.approvalThreshold_eq_ok.1 hthreshold).2]
    exact happroved.reaches
  · intro hweight
    obtain ⟨signatures, hperm, weight, hverify⟩ := SignerWeights.exists_verify hfound hnodup hmembers
      hthreshold hnodup (Subset.refl _) hweight
    exact ⟨signatures, weight, ⟨held, hheld, hperm, weight, hverify⟩, hverify⟩

def namingKey (signer : UInt8) : StacksPrivateKey namingCrypto :=
  ⟨Bytes.replicate 32 signer, Bytes.replicate 20 signer, fun _ => rfl⟩

theorem exists_answer : ∀ signer ∈ [1, 2], ∃ bytes, InSlot (C := namingCrypto) (fun _ => true)
    (Signer.plainProposal 1 0) bytes (some (Bytes.replicate 20 signer)) := by
  intro signer hsigner
  have hsome : ∀ signer ∈ [1, 2], (chunkOf ((World.start.run (fun _ => true)
      [.fromStateFile ⟨namingKey signer, 7, 3, 30⟩ Lenient.lenient]).answer
        (.sign (Signer.plainProposal 1 0)) (atTime 10) .stored)).isSome = true := by
    decide +kernel
  obtain ⟨chunk, hchunk⟩ := Option.isSome_iff_exists.1 (hsome signer hsigner)
  exact ⟨chunk.data, .answer (namingKey signer) 30 .opened (by simp [Step.Configured])
    (by simp [Clocked, Step.Ticks, Step.clock, atTime]) rfl (eq_of_chunkOf hchunk)⟩

/-- Two of three signers have answered the proposal, and the third has only announced an answer. -/
theorem answers_of_two_finalize :
    ∃ first second signatures weight,
      responseSignatures namingCrypto (fun _ => true) (Signer.plainProposal 1 0) threeSigners
        [first, 7 :: replicate 32 0, second] = .ok signatures ∧
      threeSigners.verify namingCrypto (finalizeBlock (Signer.plainProposal 1 0) signatures).header
        = .ok weight := by
  obtain ⟨first, hfirst⟩ := exists_answer 1 (by simp)
  obtain ⟨second, hsecond⟩ := exists_answer 2 (by simp)
  have hthird : InSlot (C := namingCrypto) (fun _ => true) (Signer.plainProposal 1 0)
      (7 :: replicate 32 0) none := .other rfl rfl
  exact ⟨first, second, (answers_finalize_iff threeSigners (.cons hfirst (.cons hthird
    (.cons hsecond .nil))) (by decide) (by decide) rfl).2 (by decide)⟩

end NanoStacks.Miner
