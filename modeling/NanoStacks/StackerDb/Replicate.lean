import NanoStacks.StackerDb.Chunk
import NanoStacks.Lib.Runs

/-!
# Handing chunks on

The chunks a hosted signer writes wait in a queue. Each round takes them over, offers all that are
outstanding to the peer whose turn it is, and lets go of them if the peer answered everything it was
asked. Which contracts it is asked about follows from the reward cycle the peer reports, and a chunk
for another contract is offered to nobody and let go of with the rest.
-/

namespace NanoStacks.StackerDb

open Runs List

/-- A chunk waiting for a peer, with the number of its queue reservation. -/
structure Pending where
  lease : Nat
  contractId : String
  chunk : Chunk
  deriving DecidableEq

def signerMessageIds : List Nat := [1, 2, 3]

/-- Every contract the signers and miners of a reward cycle exchange chunks on. -/
def replicated (address : String) (cycle : Nat) : List String :=
  s!"{address}.miners" :: signerMessageIds.map fun message => s!"{address}.signers-{cycle % 2}-{message}"

/-- The peers of a pool, the endpoints asked for, and whose turn it is. -/
structure Replicas where
  requested : List String
  endpoints : List String
  cursor : Nat
  failures : Nat
  deriving DecidableEq

namespace Replicas

/-- The peers at the endpoints that parse, each once; `parse` gives an address in its normal form. -/
def fromEndpoints (parse : String → Option String) (endpoints : List String) : Replicas :=
  ⟨endpoints, (endpoints.filterMap parse).eraseDups, 0, 0⟩

variable (replicas : Replicas)

def current : Option String := replicas.endpoints[replicas.cursor % replicas.endpoints.length]?

def rotate : Replicas :=
  { replicas with
    failures := replicas.failures + 1
    cursor := (replicas.cursor + 1) % replicas.endpoints.length }

/-- Take on the endpoints discovery has found, keeping whose turn it was. -/
def refresh (parse : String → Option String) (endpoints : List String) : Replicas :=
  if endpoints = replicas.requested ∨ endpoints = [] then replicas
  else
    let rebuilt := fromEndpoints parse endpoints
    if rebuilt.endpoints = [] then replicas
    else
      let cursor := (replicas.current.bind (rebuilt.endpoints.idxOf? ·)).getD 0
      { rebuilt with cursor, failures := replicas.failures }

end Replicas

/-- What the peer whose turn it is answers in one round; `none` is a request that failed. -/
structure Answers where
  tenureInfo : Option Nat
  /-- Whether a chunk is accepted. -/
  putChunk : Pending → Option Bool
  /-- Whether a contract's slots were served. -/
  pull : String → Bool

/-- A `put_chunk` request. -/
structure Offer where
  endpoint : String
  pending : Pending
  answered : Bool
  deriving DecidableEq

/-- The state of the loop, and every request it has made, round by round. -/
structure Replication where
  replicas : Replicas
  written : List Pending
  outbound : List Pending
  /-- Every chunk that has been written. -/
  taken : List Pending
  offers : List (List Offer)
  deriving DecidableEq

/-- Hand one chunk to the peer: whether it responded, and the request made. -/
def push (endpoint : String) (answers : Answers) (contracts : List String) (pending : Pending) :
    Bool × List Offer :=
  match contracts.find? (· = pending.contractId) with
  | none => (true, [])
  | some _ =>
    match answers.putChunk pending with
    | some _ => (true, [⟨endpoint, pending, true⟩])
    | none => (false, [⟨endpoint, pending, false⟩])

namespace Replication

variable (parse : String → Option String) (address : String) (s : Replication)

/-- One round with whichever peer's turn it is. -/
def round (answers : Answers) : Bool × Replication :=
  match s.replicas.current with
  | none => (false, { s with offers := s.offers ++ [[]] })
  | some endpoint =>
    match answers.tenureInfo with
    | none => (false, { s with replicas := s.replicas.rotate, offers := s.offers ++ [[]] })
    | some cycle =>
      let contracts := replicated address cycle
      let pushed := s.outbound.map (push endpoint answers contracts)
      let answered := pushed.all (·.1) && contracts.all answers.pull
      (answered, {
        s with
        replicas := if answered then s.replicas else s.replicas.rotate
        offers := s.offers ++ [pushed.flatMap (·.2)] })

/-- What happens: the hosted signer writes a chunk, or the loop goes round once. -/
inductive Event
  | write (contractId : String) (chunk : Chunk)
  | turn (discovered : List String) (answers : Answers)

def retainWrittenChunks : Replication :=
  { s with written := [], outbound := s.outbound ++ s.written }

def step : Event → Replication
  | .write contractId chunk =>
    let pending := ⟨s.taken.length, contractId, chunk⟩
    { s with written := s.written ++ [pending], taken := s.taken ++ [pending] }
  | .turn discovered answers =>
    let s := { s with replicas := s.replicas.refresh parse discovered }.retainWrittenChunks
    let (answered, s) := s.round address answers
    { s with outbound := if answered then [] else s.outbound }

def start (endpoints : List String) : Replication :=
  ⟨.fromEndpoints parse endpoints, [], [], [], []⟩

/-! ## Custody -/

/-- The chunks still held are the latest written, every earlier one was answered for, and every
round offered chunks in the order they were written. -/
structure Custody (s : Replication) : Prop where
  numbered : s.taken.map (·.lease) = List.range s.taken.length
  held : ∃ answered, s.taken = answered ++ (s.outbound ++ s.written) ∧
    ∀ pending ∈ answered, ∃ offer ∈ s.offers.flatten,
      offer.pending = pending ∧ offer.answered = true
  ordered : ∀ offers ∈ s.offers, (offers.map (·.pending)).Sublist s.taken

/-- Whatever cycle the peer reports, the chunks waiting are for contracts of it. -/
def Concerned (s : Replication) : Event → Prop
  | .write _ _ => True
  | .turn _ answers => ∀ cycle, answers.tenureInfo = some cycle →
      ∀ pending ∈ s.outbound ++ s.written, pending.contractId ∈ replicated address cycle

theorem push_sublist (endpoint : String) (answers : Answers) (contracts : List String)
    (pending : Pending) :
    ((push endpoint answers contracts pending).2.map (·.pending)).Sublist [pending] := by
  unfold push
  split
  · exact nil_sublist _
  · split
    · exact List.Sublist.refl _
    · exact List.Sublist.refl _

theorem push_answered {endpoint : String} {answers : Answers} {contracts : List String}
    {pending : Pending} (hmem : pending.contractId ∈ contracts)
    (h : (push endpoint answers contracts pending).1 = true) :
    (⟨endpoint, pending, true⟩ : Offer) ∈ (push endpoint answers contracts pending).2 := by
  have hfound : contracts.find? (· = pending.contractId) ≠ none := by
    simpa using hmem
  unfold push at h ⊢
  split at h
  · exact absurd ‹_› hfound
  · split at h
    · exact mem_singleton_self _
    · cases h

theorem round_eq (answers : Answers) : ∃ replicas offers,
    (s.round address answers).2 = { s with replicas, offers := s.offers ++ [offers] } ∧
      (offers.map (·.pending)).Sublist s.outbound ∧
      ((s.round address answers).1 = true → ∃ cycle, answers.tenureInfo = some cycle ∧
        ∀ pending ∈ s.outbound, pending.contractId ∈ replicated address cycle →
          ∃ offer ∈ offers, offer.pending = pending ∧ offer.answered = true) := by
  unfold round
  split
  · exact ⟨_, [], rfl, nil_sublist _, nofun⟩
  · rename_i endpoint _
    split
    · exact ⟨_, [], rfl, nil_sublist _, nofun⟩
    · rename_i cycle hcycle
      refine ⟨_, _, rfl, ?_, ?_⟩
      · rw [flatMap_map, map_flatMap]
        induction s.outbound with
        | nil => exact nil_sublist _
        | cons pending rest ih =>
          rw [flatMap_cons]
          exact (push_sublist endpoint answers _ pending).append ih
      · intro hall
        rw [Bool.and_eq_true, all_map, all_eq_true] at hall
        refine ⟨cycle, hcycle, fun pending hpending hmem => ?_⟩
        refine ⟨⟨endpoint, pending, true⟩, ?_, rfl, rfl⟩
        rw [flatMap_map]
        exact mem_flatMap.2 ⟨pending, hpending, push_answered hmem (hall.1 pending hpending)⟩

variable {parse address s}

theorem Custody.write (h : Custody s) (contractId : String) (chunk : Chunk) :
    Custody (s.step parse address (.write contractId chunk)) where
  numbered := by simp [step, h.numbered, range_succ]
  held := by
    obtain ⟨answered, htaken, hanswered⟩ := h.held
    exact ⟨answered, by simp [step, ← append_assoc, ← htaken], hanswered⟩
  ordered offers hmem := (h.ordered offers hmem).trans (sublist_append_left _ _)

theorem Custody.turn (h : Custody s) {discovered : List String} {answers : Answers}
    (hconcerned : Concerned address s (.turn discovered answers)) :
    Custody (s.step parse address (.turn discovered answers)) := by
  obtain ⟨answered, htaken, hleft⟩ := h.held
  obtain ⟨replicas, offers, hround, hpart, hanswered⟩ := round_eq address
    ({ s with replicas := s.replicas.refresh parse discovered }.retainWrittenChunks) answers
  have hstep : s.step parse address (.turn discovered answers) = ⟨replicas, [],
      if (({ s with replicas := s.replicas.refresh parse discovered }.retainWrittenChunks).round
        address answers).1 then [] else s.outbound ++ s.written, s.taken, s.offers ++ [offers]⟩ := by
    simp only [step, hround]
    exact rfl
  have hpart : (offers.map (·.pending)).Sublist s.taken := by
    rw [htaken]
    exact hpart.trans (sublist_append_right _ _)
  rw [hstep]
  refine ⟨h.numbered, ?_, ?_⟩
  · split
    · rename_i hall
      -- everything held was offered and answered for
      obtain ⟨cycle, hcycle, hoffered⟩ := hanswered hall
      refine ⟨s.taken, by simp, fun pending hpending => ?_⟩
      rw [flatten_append, flatten_singleton]
      rw [htaken] at hpending
      rcases mem_append.1 hpending with hpending | hpending
      · obtain ⟨offer, hoffer, hsame⟩ := hleft pending hpending
        exact ⟨offer, mem_append_left _ hoffer, hsame⟩
      · obtain ⟨offer, hoffer, hsame⟩ :=
          hoffered pending hpending (hconcerned cycle hcycle pending hpending)
        exact ⟨offer, mem_append_right _ hoffer, hsame⟩
    · refine ⟨answered, by rwa [append_nil], fun pending hpending => ?_⟩
      obtain ⟨offer, hoffer, hsame⟩ := hleft pending hpending
      exact ⟨offer, by simp [hoffer], hsame⟩
  · simpa [or_imp, forall_and] using ⟨h.ordered, hpart⟩

/-- In every run whose peers only ever report cycles that the chunks waiting are for, each chunk
written is still held or was answered for by a peer, and rounds offer chunks in written order. -/
theorem chunks_leave_answered (parse : String → Option String) (address : String)
    (endpoints : List String) {events : List Event}
    (hconcerned : AllMeet (step parse address) (Concerned address) (start parse endpoints) events) :
    Custody (run (step parse address) (start parse endpoints) events) := by
  refine run_invariant_of_allMeet Custody ?_ ?_ hconcerned
  · intro s event h hmeets
    cases event with
    | write contractId chunk => exact h.write contractId chunk
    | turn discovered answers => exact h.turn hmeets
  · exact ⟨rfl, ⟨[], rfl, nofun⟩, nofun⟩

def plainChunk : Chunk := ⟨0, 1, Bytes.zero 65, []⟩

/-- A peer that answers everything, in a cycle of its own. -/
def answeringPeer (cycle : Nat) : Answers := ⟨some cycle, fun _ => some true, fun _ => true⟩

/-- One chunk for the odd cycle's signers, and a round with the peer. -/
def oneChunk (cycle : Nat) : Replication :=
  run (step some "ST") (start some ["peer"])
    [.write "ST.signers-1-1" plainChunk, .turn ["peer"] (answeringPeer cycle)]

/-- The peer is still in the even cycle: the chunk is gone, and nobody was ever asked to take it. -/
theorem chunk_lost_between_cycles :
    oneChunk 6 = ⟨⟨["peer"], ["peer"], 0, 0⟩, [], [], [⟨0, "ST.signers-1-1", plainChunk⟩], [[]]⟩ ∧
      ¬Custody (oneChunk 6) := by
  have hrun : oneChunk 6
      = ⟨⟨["peer"], ["peer"], 0, 0⟩, [], [], [⟨0, "ST.signers-1-1", plainChunk⟩], [[]]⟩ := by
    decide +kernel
  refine ⟨hrun, fun h => ?_⟩
  rw [hrun] at h
  obtain ⟨answered, htaken, hleft⟩ := h.held
  obtain rfl : _ = answered := by simpa using htaken
  obtain ⟨offer, hoffer, -⟩ := hleft _ (mem_singleton_self _)
  simp at hoffer

theorem chunk_leaves_answered_in_cycle : Custody (oneChunk 7) :=
  chunks_leave_answered some "ST" ["peer"] ⟨trivial, by
    rintro cycle ⟨⟩ pending hpending
    obtain rfl := mem_singleton.1 hpending
    decide +kernel, trivial⟩

end Replication

end NanoStacks.StackerDb
