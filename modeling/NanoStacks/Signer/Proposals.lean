import NanoStacks.StackerDb.SignerMessage
import NanoStacks.Lib.Greatest
import NanoStacks.Lib.Runs
import Mathlib.Data.Prod.Lex
import Mathlib.Data.Finset.Insert

/-!
# Which proposal to answer

Miner slots keep their last chunk, so a signer sees old proposals beside new ones and remembers what it
has answered, but only at the position it has reached. `Newest` says what a selection is worth, whatever
the slots hold; from it follows that no proposal is answered twice (`answered_in_order`).
-/

namespace NanoStacks.Signer

open Sortition Chain StackerDb Runs List

structure PendingProposal where
  hash : Bytes 32
  proposal : BlockProposal

structure ProposalCursor where
  position : Nat ×ₗ Nat
  answered : Finset (Bytes 32)

def proposalPosition (pending : PendingProposal) : Nat ×ₗ Nat :=
  toLex (pending.proposal.bitcoinHeight, pending.proposal.block.header.chainLength)

/-- The proposals in the latest chunks of the miner slots; `none` is a slot without a chunk. -/
def pendingProposals (H : Hashes) (vrfParses : Bytes 80 → Bool) (slots : List (Option (List UInt8))) :
    List PendingProposal :=
  slots.filterMap fun chunk => chunk.bind fun bytes =>
    match SignerMessage.decode H vrfParses bytes with
    | .ok (.blockProposal proposal) => some ⟨H.sha512_256 bytes, proposal⟩
    | _ => none

def newestProposalForCycle (proposals : List PendingProposal) (rewardCycle : Nat)
    (cursor : Option ProposalCursor) : Option PendingProposal := do
  let ofCycle := proposals.filter (·.proposal.rewardCycle = rewardCycle)
  let newestPosition ← maxBy compare (ofCycle.map proposalPosition)
  if cursor.any (newestPosition < ·.position) then none
  else
    maxBy (compareOn (·.hash)) ((ofCycle.filter (proposalPosition · = newestPosition)).filter
      fun pending => cursor.all fun cursor =>
        cursor.position ≠ newestPosition ∨ pending.hash ∉ cursor.answered)

def recordAnswered (cursor : Option ProposalCursor) (pending : PendingProposal) : ProposalCursor :=
  match cursor with
  | some cursor =>
    if cursor.position = proposalPosition pending then
      { cursor with answered := insert pending.hash cursor.answered }
    else if proposalPosition pending < cursor.position then cursor
    else ⟨proposalPosition pending, {pending.hash}⟩
  | none => ⟨proposalPosition pending, {pending.hash}⟩

/-- What a poll finds, and whether its response is taken; one that fails before that records nothing. -/
structure Poll where
  rewardCycle : Nat
  slots : List (Option (List UInt8))
  accepted : Bool

/-- The service between two rebinds, and the proposals it has marked as answered. -/
structure Polling where
  cursor : Option ProposalCursor
  marked : List PendingProposal

namespace Polling

variable (H : Hashes) (vrfParses : Bytes 80 → Bool)

def rebound : Polling := ⟨none, []⟩

def nextProposalForCycle (service : Polling) (poll : Poll) : Option PendingProposal :=
  newestProposalForCycle (pendingProposals H vrfParses poll.slots) poll.rewardCycle service.cursor

def poll (service : Polling) (poll : Poll) : Polling :=
  match service.nextProposalForCycle H vrfParses poll with
  | some pending =>
    if poll.accepted then ⟨some (recordAnswered service.cursor pending), service.marked ++ [pending]⟩
    else service
  | none => service

end Polling

/-! ## What is selected -/

variable {proposals : List PendingProposal} {rewardCycle : Nat} {cursor : Option ProposalCursor}
  {pending chosen : PendingProposal}

/-- A proposal at the highest position shown in the cycle, which the cursor has not passed, and not
answered there. -/
structure Open (Shown : PendingProposal → Prop) (rewardCycle : Nat) (cursor : Option ProposalCursor)
    (pending : PendingProposal) : Prop where
  shown : Shown pending
  ofCycle : pending.proposal.rewardCycle = rewardCycle
  highest : ∀ other, Shown other → other.proposal.rewardCycle = rewardCycle →
    proposalPosition other ≤ proposalPosition pending
  reached : ∀ c ∈ cursor, c.position ≤ proposalPosition pending
  unanswered : ∀ c ∈ cursor, c.position = proposalPosition pending → pending.hash ∉ c.answered

/-- The one with the greatest hash of those. -/
structure Newest (Shown : PendingProposal → Prop) (rewardCycle : Nat) (cursor : Option ProposalCursor)
    (chosen : PendingProposal) : Prop extends Open Shown rewardCycle cursor chosen where
  greatest : ∀ other, Open Shown rewardCycle cursor other → other.hash ≤ chosen.hash

theorem isLE_compare {α : Type} [LinearOrder α] {a b : α} : (compare a b).isLE ↔ a ≤ b := by
  rw [Ordering.isLE_iff_ne_gt]
  exact compare_le_iff_le

theorem newestProposalForCycle_eq (proposals : List PendingProposal) (rewardCycle : Nat)
    (cursor : Option ProposalCursor) :
    ∃ candidates, newestProposalForCycle proposals rewardCycle cursor
        = maxBy (compareOn (·.hash)) candidates ∧
      ∀ pending, pending ∈ candidates ↔ Open (· ∈ proposals) rewardCycle cursor pending := by
  unfold newestProposalForCycle
  dsimp only
  generalize hcycle : proposals.filter (·.proposal.rewardCycle = rewardCycle) = ofCycle
  have hmem : ∀ pending, pending ∈ ofCycle ↔
      pending ∈ proposals ∧ pending.proposal.rewardCycle = rewardCycle := by
    simp [← hcycle]
  cases hnewest : maxBy compare (ofCycle.map proposalPosition) with
  | none =>
    rw [maxBy_eq_none, map_eq_nil_iff] at hnewest
    refine ⟨[], rfl, fun pending => iff_of_false not_mem_nil fun h => ?_⟩
    exact not_mem_nil (hnewest ▸ (hmem pending).2 ⟨h.shown, h.ofCycle⟩)
  | some newest =>
    obtain ⟨hin, hmax⟩ := maxBy_eq_some compare hnewest
    simp only [forall_mem_map, isLE_compare] at hmax
    obtain ⟨first, hfirst, hposition⟩ := mem_map.1 hin
    have hat : ∀ pending, Open (· ∈ proposals) rewardCycle cursor pending →
        proposalPosition pending = newest :=
      fun pending h => le_antisymm (hmax pending ((hmem pending).2 ⟨h.shown, h.ofCycle⟩))
        (hposition ▸ h.highest first ((hmem first).1 hfirst).1 ((hmem first).1 hfirst).2)
    rw [Option.bind_eq_bind, Option.bind_some]
    by_cases habove : cursor.any (newest < ·.position) = true
    · rw [if_pos habove]
      refine ⟨[], rfl, fun pending => iff_of_false not_mem_nil fun h => ?_⟩
      obtain ⟨c, hc, hlt⟩ := (Option.any_eq_true _ _).1 habove
      exact absurd (hat pending h ▸ h.reached c hc) (not_le.2 (of_decide_eq_true hlt))
    · rw [if_neg habove]
      refine ⟨_, rfl, fun pending => ?_⟩
      simp only [mem_filter, hmem, decide_eq_true_eq, Option.all_eq_true]
      constructor
      · rintro ⟨⟨⟨hpending, hof⟩, rfl⟩, hfresh⟩
        refine ⟨hpending, hof, fun other hother hsame => hmax other ((hmem other).2 ⟨hother, hsame⟩),
          fun c hc => ?_, fun c hc hsame => (hfresh c hc).resolve_left (not_not.2 hsame)⟩
        by_contra hlt
        exact habove ((Option.any_eq_true _ _).2 ⟨c, hc, decide_eq_true (not_le.1 hlt)⟩)
      · intro h
        refine ⟨⟨⟨h.shown, h.ofCycle⟩, hat pending h⟩, fun c hc => ?_⟩
        exact not_or_of_imp fun hsame => h.unanswered c hc (hsame.trans (hat pending h).symm)

theorem newest_of_eq_some (h : newestProposalForCycle proposals rewardCycle cursor = some chosen) :
    Newest (· ∈ proposals) rewardCycle cursor chosen := by
  obtain ⟨candidates, heq, hopen⟩ := newestProposalForCycle_eq proposals rewardCycle cursor
  obtain ⟨hmem, hmax⟩ := maxBy_eq_some _ (heq.symm.trans h)
  exact ⟨(hopen chosen).1 hmem, fun other hother => isLE_compare.1 (hmax other ((hopen other).2 hother))⟩

theorem exists_newest (h : Open (· ∈ proposals) rewardCycle cursor pending) :
    ∃ chosen, newestProposalForCycle proposals rewardCycle cursor = some chosen := by
  obtain ⟨candidates, heq, hopen⟩ := newestProposalForCycle_eq proposals rewardCycle cursor
  rw [heq, ← Option.ne_none_iff_exists', ne_eq, maxBy_eq_none]
  exact ne_nil_of_mem ((hopen pending).2 h)

theorem newestProposalForCycle_eq_some
    (hhash : ∀ a ∈ proposals, ∀ b ∈ proposals, a.hash = b.hash → a = b) :
    newestProposalForCycle proposals rewardCycle cursor = some chosen ↔
      Newest (· ∈ proposals) rewardCycle cursor chosen := by
  refine ⟨newest_of_eq_some, fun h => ?_⟩
  obtain ⟨other, hother⟩ := exists_newest h.toOpen
  have hnewest := newest_of_eq_some hother
  have hsame := le_antisymm (h.greatest other hnewest.toOpen) (hnewest.greatest chosen h.toOpen)
  rw [hother, hhash other hnewest.shown chosen h.shown hsame]

/-! ## What is answered -/

variable {H : Hashes} {vrfParses : Bytes 80 → Bool} {seen : Set (List UInt8)} {service : Polling}

/-- A proposal decoded from a chunk that was seen. -/
def Decoded (H : Hashes) (vrfParses : Bytes 80 → Bool) (seen : Set (List UInt8))
    (pending : PendingProposal) : Prop :=
  ∃ bytes ∈ seen, SignerMessage.decode H vrfParses bytes = .ok (.blockProposal pending.proposal) ∧
    pending.hash = H.sha512_256 bytes

theorem decoded_of_mem {slots : List (Option (List UInt8))} (hslots : ∀ bytes, some bytes ∈ slots → bytes ∈ seen)
    (h : pending ∈ pendingProposals H vrfParses slots) : Decoded H vrfParses seen pending := by
  simp only [pendingProposals, mem_filterMap, Option.bind_eq_some_iff] at h
  obtain ⟨_, hchunk, bytes, rfl, hdecode⟩ := h
  split at hdecode
  · cases hdecode
    exact ⟨bytes, hslots bytes hchunk, ‹_›, rfl⟩
  · cases hdecode

theorem Decoded.eq_of_hash (hseen : seen.InjOn H.sha512_256) {other : PendingProposal}
    (h : Decoded H vrfParses seen pending) (hother : Decoded H vrfParses seen other)
    (hhash : pending.hash = other.hash) : pending = other := by
  obtain ⟨bytes, hbytes, hdecode, hpending⟩ := h
  obtain ⟨bytes', hbytes', hdecode', hother⟩ := hother
  obtain rfl := hseen hbytes hbytes' (hpending.symm.trans (hhash.trans hother))
  obtain ⟨hash, proposal⟩ := pending
  obtain ⟨hash', proposal'⟩ := other
  cases hdecode.symm.trans hdecode'
  cases hhash
  rfl

/-- The cursor is at the last position answered and remembers what was answered there. -/
structure Polling.Kept (H : Hashes) (vrfParses : Bytes 80 → Bool) (seen : Set (List UInt8))
    (service : Polling) : Prop where
  decoded : ∀ pending ∈ service.marked, Decoded H vrfParses seen pending
  remembered : ∀ pending ∈ service.marked, ∃ c ∈ service.cursor,
    proposalPosition pending ≤ c.position ∧
      (proposalPosition pending = c.position → pending.hash ∈ c.answered)
  once : (service.marked.map (·.hash)).Nodup
  inOrder : (service.marked.map proposalPosition).Pairwise (· ≤ ·)

theorem recordAnswered_spec (h : ∀ c ∈ cursor, c.position ≤ proposalPosition pending) :
    (recordAnswered cursor pending).position = proposalPosition pending ∧
      pending.hash ∈ (recordAnswered cursor pending).answered ∧
      ∀ c ∈ cursor, c.position = proposalPosition pending →
        c.answered ⊆ (recordAnswered cursor pending).answered := by
  unfold recordAnswered
  cases cursor with
  | none => simp
  | some c =>
    have hle := h c rfl
    dsimp only
    split_ifs with hsame hlt
    · simp [hsame]
    · exact absurd hlt (not_lt.2 hle)
    · simp [hsame]

theorem Polling.Kept.poll (hseen : seen.InjOn H.sha512_256) (h : service.Kept H vrfParses seen)
    (poll : Poll) (hpoll : ∀ bytes, some bytes ∈ poll.slots → bytes ∈ seen) :
    (service.poll H vrfParses poll).Kept H vrfParses seen := by
  unfold Polling.poll
  split
  · rename_i chosen hchosen
    split_ifs
    · have hnewest := newest_of_eq_some hchosen
      have hdecoded := decoded_of_mem hpoll hnewest.shown
      obtain ⟨hposition, hhash, hkeeps⟩ := recordAnswered_spec hnewest.reached
      have hbefore : ∀ pending ∈ service.marked, proposalPosition pending ≤ proposalPosition chosen := by
        intro pending hmem
        obtain ⟨c, hc, hle, -⟩ := h.remembered pending hmem
        exact hle.trans (hnewest.reached c hc)
      refine ⟨?_, ?_, ?_, ?_⟩
      · exact forall_mem_append.2 ⟨h.decoded, forall_mem_singleton.2 hdecoded⟩
      · refine forall_mem_append.2 ⟨fun pending hmem => ⟨_, rfl, ?_, fun hsame => ?_⟩,
          forall_mem_singleton.2 ⟨_, rfl, hposition.ge, fun _ => hhash⟩⟩
        · exact hposition ▸ hbefore pending hmem
        · obtain ⟨c, hc, hle, hin⟩ := h.remembered pending hmem
          rw [hposition] at hsame
          have hat : c.position = proposalPosition chosen :=
            le_antisymm (hnewest.reached c hc) (hsame ▸ hle)
          exact hkeeps c hc hat (hin (hsame.trans hat.symm))
      · rw [map_append, nodup_append]
        refine ⟨h.once, by simp, fun hash hmem other hother hsame => ?_⟩
        obtain ⟨pending, hpending, rfl⟩ := mem_map.1 hmem
        rw [map_singleton, mem_singleton] at hother
        -- the same hash is the same proposal, which the cursor has at its position
        obtain rfl := (h.decoded pending hpending).eq_of_hash hseen hdecoded (hsame.trans hother)
        obtain ⟨c, hc, hle, hin⟩ := h.remembered pending hpending
        have hat := le_antisymm (hnewest.reached c hc) hle
        exact hnewest.unanswered c hc hat (hin hat.symm)
      · rw [map_append, pairwise_append]
        refine ⟨h.inOrder, by simp, ?_⟩
        simpa using hbefore
    · exact h
  · exact h

/-- Between two rebinds, whatever the slots show: no hash is marked twice and positions do not go down;
a selection does not depend on the order of the slots; and where a proposal is at the highest position
shown in the cycle, not below the cursor and not answered, it or one like it with a greater hash is
selected. Chunks of different content have different hashes. -/
theorem answered_in_order (H : Hashes) (vrfParses : Bytes 80 → Bool) (seen : Set (List UInt8))
    (hseen : seen.InjOn H.sha512_256) (polls : List Poll)
    (hpolls : ∀ poll ∈ polls, ∀ bytes, some bytes ∈ poll.slots → bytes ∈ seen) :
    let service := run (Polling.poll H vrfParses) .rebound polls
    (service.marked.map (·.hash)).Nodup ∧ (service.marked.map proposalPosition).Pairwise (· ≤ ·) ∧
    (∀ poll : Poll, (∀ bytes, some bytes ∈ poll.slots → bytes ∈ seen) →
      ∀ slots, slots.Perm poll.slots → service.nextProposalForCycle H vrfParses { poll with slots }
        = service.nextProposalForCycle H vrfParses poll) ∧
    ∀ poll pending, Open (· ∈ pendingProposals H vrfParses poll.slots) poll.rewardCycle service.cursor
        pending →
      ∃ chosen, service.nextProposalForCycle H vrfParses poll = some chosen ∧
        Open (· ∈ pendingProposals H vrfParses poll.slots) poll.rewardCycle service.cursor chosen ∧
        pending.hash ≤ chosen.hash := by
  intro service
  have hkept : service.Kept H vrfParses seen :=
    foldlRecOn polls _ ⟨by simp [Polling.rebound], by simp [Polling.rebound], nodup_nil, .nil⟩
      fun _ h poll hmem => h.poll hseen poll (hpolls poll hmem)
  refine ⟨hkept.once, hkept.inOrder, fun poll hpoll slots hslots => ?_, fun poll pending hopen => ?_⟩
  · have hhash : ∀ a ∈ pendingProposals H vrfParses poll.slots,
        ∀ b ∈ pendingProposals H vrfParses poll.slots, a.hash = b.hash → a = b :=
      fun a ha b hb => (decoded_of_mem hpoll ha).eq_of_hash hseen (decoded_of_mem hpoll hb)
    have hmem : ∀ pending, pending ∈ pendingProposals H vrfParses slots ↔
        pending ∈ pendingProposals H vrfParses poll.slots :=
      fun pending => (hslots.filterMap _).mem_iff
    refine Option.ext fun chosen => ?_
    rw [Polling.nextProposalForCycle, Polling.nextProposalForCycle, newestProposalForCycle_eq_some hhash,
      newestProposalForCycle_eq_some (by simpa only [hmem] using hhash), funext fun p => propext (hmem p)]
  · obtain ⟨chosen, hchosen⟩ := exists_newest hopen
    have hnewest := newest_of_eq_some hchosen
    exact ⟨chosen, hchosen, hnewest.toOpen, hnewest.greatest pending hopen⟩

/-- The chunk of a miner that proposes a block. -/
def proposedChunk : List UInt8 :=
  (SignerMessage.blockProposal ⟨Codec.transferBlock [], 5, 21, BlockProposal.emptyData⟩).encode.toOption.getD []

theorem answered_in_order_again :
    let polls := [Poll.mk 21 [some proposedChunk] true, ⟨21, [none, some proposedChunk], true⟩]
    let service := run (Polling.poll plainCrypto fun _ => true) .rebound polls
    service.marked.length = 1 ∧ (service.marked.map (·.hash)).Nodup := by
  refine ⟨by decide +kernel, ?_⟩
  exact (answered_in_order plainCrypto (fun _ => true) {proposedChunk} (by simp) _ (by simp)).1

end NanoStacks.Signer
