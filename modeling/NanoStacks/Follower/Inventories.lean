import NanoStacks.Follower.Hosting
import NanoStacks.Lib.Runs
import Mathlib.Data.Int.CardIntervalMod

/-!
# Scheduling tenures by inventory

The swarm asks its peers which tenures of a reward cycle they have, and keeps the answers as bare bit
vectors. The follower reads the bits as offsets from the cycle its own burn view sits in when it
schedules, which need not be the cycle that was asked about.

* `scheduled_claimed`: a schedule is right while the last exchange asked about the node's own cycle.
* `scheduled_from_last_cycle`: a cycle opens between an exchange and a schedule.
-/

namespace NanoStacks.Follower

open Sortition Tracker Chain Runs List

/-- The burn height whose consensus hash names a height's cycle on the inventory wire. -/
def PoxInfo.inventoryCycleStart (pox : PoxInfo) (bitcoinHeight : Nat) : Option Nat :=
  let length := pox.preparePhaseLength + pox.rewardPhaseLength
  if length = 0 ∨ bitcoinHeight < pox.firstBitcoinHeight + 1 then none
  else
    let offset := bitcoinHeight - pox.firstBitcoinHeight - 1
    some (pox.firstBitcoinHeight + offset / length * length + 1)

/-- A peer's answer about a cycle: a bit for each of its burn blocks. -/
structure TenureClaim where
  peer : Bytes 20
  endpoint : Option String
  tenures : List Bool

/-- A connected peer and what it answers; `none` is a refusal or a failed request. -/
structure Connected where
  peer : Bytes 20
  endpoint : Option String
  nakamotoInventory : Option (List Bool)

/-- The claims of the peers that answered. -/
def tenureClaims (connected : List Connected) : List TenureClaim :=
  connected.filterMap fun peer =>
    peer.nakamotoInventory.map fun tenures => ⟨peer.peer, peer.endpoint, tenures⟩

abbrev Server := Bytes 20 × String × List Bool

/-- The claims that can be fetched from, in the order of the peers' keys. -/
def servers (claims : List TenureClaim) : List Server :=
  (claims.filterMap fun claim => claim.endpoint.map fun endpoint =>
    (claim.peer, endpoint, claim.tenures)).insertionSort fun left right => left.1 ≤ right.1

/-- The first server at or after `next`, once round, that claims a tenure. -/
def nextClaiming (servers : List Server) (next tenure : Nat) : Option (Nat × String) :=
  (List.range servers.length).findSome? fun offset =>
    let index := (next + offset) % servers.length
    match servers[index]? with
    | none => none
    | some (_, endpoint, tenures) =>
      if tenures[tenure]? = some true then some (index, endpoint) else none

def assignTenure (servers : List Server) (assigned : Nat × List (Nat × String)) (tenure : Nat) :
    Nat × List (Nat × String) :=
  match nextClaiming servers assigned.1 tenure with
  | some (index, endpoint) => (index + 1, assigned.2 ++ [(tenure, endpoint)])
  | none => assigned

/-- Spread the wanted tenures over the peers that claim to have them. -/
def assignTenures (claims : List TenureClaim) (wanted : List Nat) : List (Nat × String) :=
  (wanted.foldl (assignTenure (servers claims)) (0, [])).2

/-- Some peer's inventory has a tenure's bit, and the peer can be fetched from. -/
def Claims (claims : List TenureClaim) (tenure : Nat) (endpoint : String) : Prop :=
  ∃ claim ∈ claims, claim.endpoint = some endpoint ∧ claim.tenures[tenure]? = some true

/-- Some peer that can be fetched from claims a tenure. -/
def claimed (claims : List TenureClaim) (tenure : Nat) : Bool :=
  claims.any fun claim => claim.endpoint.isSome && claim.tenures[tenure]? == some true

variable {claims : List TenureClaim} {wanted : List Nat} {next tenure index : Nat}
  {endpoint : String}

theorem mem_servers {server : Server} : server ∈ servers claims ↔
    ∃ claim ∈ claims, ∃ endpoint, claim.endpoint = some endpoint ∧
      (claim.peer, endpoint, claim.tenures) = server := by
  simp only [servers, mem_insertionSort, mem_filterMap, Option.map_eq_some_iff]

theorem claims_of_nextClaiming
    (h : nextClaiming (servers claims) next tenure = some (index, endpoint)) :
    Claims claims tenure endpoint := by
  obtain ⟨offset, -, hoffset⟩ := exists_of_findSome?_eq_some h
  dsimp only at hoffset
  split at hoffset
  · simp at hoffset
  · rename_i peer endpoint' tenures hserver
    split_ifs at hoffset with hbit
    cases hoffset
    obtain ⟨claim, hclaim, _, hendpoint, hsame⟩ := mem_servers.1 (mem_of_getElem? hserver)
    cases hsame
    exact ⟨claim, hclaim, hendpoint, hbit⟩

theorem claimed_iff : claimed claims tenure = true ↔ ∃ endpoint, Claims claims tenure endpoint := by
  simp only [claimed, any_eq_true, Bool.and_eq_true, Option.isSome_iff_exists, beq_iff_eq, Claims]
  exact ⟨fun ⟨claim, hclaim, ⟨endpoint, hend⟩, hbit⟩ => ⟨endpoint, claim, hclaim, hend, hbit⟩,
    fun ⟨endpoint, claim, hclaim, hend, hbit⟩ => ⟨claim, hclaim, ⟨endpoint, hend⟩, hbit⟩⟩

theorem isSome_nextClaiming (claims : List TenureClaim) (next tenure : Nat) :
    (nextClaiming (servers claims) next tenure).isSome = claimed claims tenure := by
  rw [Bool.eq_iff_iff, claimed_iff, Option.isSome_iff_exists]
  constructor
  · rintro ⟨⟨index, endpoint⟩, hfound⟩
    exact ⟨endpoint, claims_of_nextClaiming hfound⟩
  · rintro ⟨endpoint, claim, hclaim, hendpoint, hbit⟩
    obtain ⟨index, hlt, hindex⟩ := mem_iff_getElem.1
      (mem_servers.2 ⟨claim, hclaim, endpoint, hendpoint, rfl⟩)
    -- once round every index is met
    generalize servers claims = list at *
    have hmod := Nat.mod_lt next (Nat.zero_lt_of_lt hlt)
    have hround : (next + (index + (list.length - next % list.length)) % list.length) % list.length
        = index := by
      rw [Nat.add_mod_mod, ← Nat.mod_add_mod, Nat.add_left_comm, Nat.add_sub_cancel' hmod.le,
        Nat.add_mod_right, Nat.mod_eq_of_lt hlt]
    rw [← Option.isSome_iff_exists, nextClaiming, findSome?_isSome_iff]
    refine ⟨(index + (list.length - next % list.length)) % list.length,
      mem_range.2 (Nat.mod_lt _ (Nat.zero_lt_of_lt hlt)), ?_⟩
    simp [hround, getElem?_eq_getElem hlt, hindex, hbit]

/-- A claimed tenure is given to a peer that claims it, another is passed over. -/
theorem foldl_assignTenure (claims : List TenureClaim) (wanted : List Nat)
    (assigned : Nat × List (Nat × String)) :
    ∃ more, (wanted.foldl (assignTenure (servers claims)) assigned).2 = assigned.2 ++ more ∧
      more.map Prod.fst = wanted.filter (claimed claims) ∧
      ∀ entry ∈ more, Claims claims entry.1 entry.2 := by
  induction wanted generalizing assigned with
  | nil => exact ⟨[], by simp⟩
  | cons tenure wanted ih =>
    rw [foldl_cons, assignTenure, filter_cons, ← isSome_nextClaiming claims assigned.1]
    cases hfound : nextClaiming (servers claims) assigned.1 tenure with
    | none => exact ih assigned
    | some found =>
      obtain ⟨more, hmore, htenures, hclaims⟩ := ih (found.1 + 1, assigned.2 ++ [(tenure, found.2)])
      refine ⟨(tenure, found.2) :: more, ?_, ?_, ?_⟩
      · rw [hmore, append_assoc]
        rfl
      · rw [map_cons, htenures]
        rfl
      · exact forall_mem_cons.2 ⟨claims_of_nextClaiming hfound, hclaims⟩

/-- Only peers that claim a tenure are asked for it. -/
theorem mem_assignTenures (h : (tenure, endpoint) ∈ assignTenures claims wanted) :
    tenure ∈ wanted ∧ Claims claims tenure endpoint := by
  obtain ⟨more, hmore, htenures, hclaims⟩ := foldl_assignTenure claims wanted (0, [])
  rw [assignTenures, hmore, nil_append] at h
  have hmem := mem_map_of_mem (f := Prod.fst) h
  rw [htenures] at hmem
  exact ⟨mem_of_mem_filter hmem, hclaims _ h⟩

theorem servers_perm {claims' : List TenureClaim} (hpeers : (claims.map (·.peer)).Nodup)
    (h : claims'.Perm claims) : servers claims' = servers claims := by
  refine List.Perm.eq_of_pairwise ?_ (pairwise_insertionSort _ _) (pairwise_insertionSort _ _) ?_
  · intro left right hleft hright hle hge
    obtain ⟨claim, hclaim, endpoint, hendpoint, rfl⟩ := mem_servers.1 hleft
    obtain ⟨other, hother, endpoint', hendpoint', rfl⟩ := mem_servers.1 hright
    obtain rfl := inj_on_of_nodup_map hpeers (h.subset hclaim) hother (le_antisymm hle hge)
    rw [Option.some.inj (hendpoint.symm.trans hendpoint')]
  · exact (perm_insertionSort _ _).trans ((h.filterMap _).trans (perm_insertionSort _ _).symm)

/-- Where every server claims a tenure, the one whose turn it is gets it. -/
theorem nextClaiming_of_all {list : List Server} {server : Server}
    (hserver : list[next % list.length]? = some server) (hbit : server.2.2[tenure]? = some true) :
    nextClaiming list next tenure = some (next % list.length, server.2.1) := by
  obtain ⟨hlt, -⟩ := List.getElem?_eq_some_iff.1 hserver
  obtain ⟨n, hn⟩ := Nat.exists_eq_succ_of_ne_zero (Nat.ne_of_gt (Nat.zero_lt_of_lt hlt))
  rw [nextClaiming, hn, range_succ_eq_map, ← hn, findSome?_cons]
  simp [hserver, hbit]

/-- The servers in turn. -/
def turns (list : List Server) (next count : Nat) : List Server :=
  (List.range' next count).filterMap fun turn => list[turn % list.length]?

theorem foldl_assignTenure_of_all {list : List Server} (wanted : List Nat)
    (hall : ∀ server ∈ list, ∀ tenure ∈ wanted, server.2.2[tenure]? = some true)
    (assigned : Nat × List (Nat × String)) (hnext : assigned.1 % list.length = next % list.length) :
    (wanted.foldl (assignTenure list) assigned).2 = assigned.2 ++
      List.zipWith (fun tenure server => (tenure, server.2.1)) wanted
        (turns list next wanted.length) := by
  by_cases hempty : list = []
  · rw [hempty, foldl_fixed' fun _ => rfl]
    simp [turns]
  induction wanted generalizing assigned next with
  | nil => simp
  | cons tenure wanted ih =>
    have hlt := Nat.mod_lt next (length_pos_of_ne_nil hempty)
    have hserver := getElem?_eq_getElem hlt
    have hfound := nextClaiming_of_all ((congrArg (list[·]?) hnext).trans hserver)
      (hall _ (getElem_mem hlt) tenure mem_cons_self)
    have hrest : ∀ server ∈ list, ∀ tenure ∈ wanted, server.2.2[tenure]? = some true :=
      fun server hmem tenure htenure => hall server hmem tenure (mem_cons_of_mem _ htenure)
    have hturn : (next % list.length + 1) % list.length = (next + 1) % list.length := by simp
    rw [foldl_cons, assignTenure, hfound, hnext, ih hrest _ hturn]
    simp [turns, range'_succ, hserver]

/-- However often the servers take turns, none is ahead of another by more than one. -/
theorem count_turns_le {list : List Server} (hnodup : list.Nodup) {first second : Server}
    (hfirst : first ∈ list) (hsecond : second ∈ list) (count : Nat) :
    (turns list 0 count).count first ≤ (turns list 0 count).count second + 1 := by
  have hcount : ∀ server ∈ list, (turns list 0 count).count server
      = Nat.count (· ≡ list.idxOf server [MOD list.length]) count := by
    intro server hmem
    induction count with
    | zero => rfl
    | succ count ih =>
      have hlt := Nat.mod_lt count (length_pos_of_mem hmem)
      have hturn : list[count % list.length] = server ↔
          count ≡ list.idxOf server [MOD list.length] := by
        rw [Nat.ModEq, Nat.mod_eq_of_lt (idxOf_lt_length_of_mem hmem)]
        refine ⟨fun heq => ?_, fun heq => ?_⟩
        · rw [← heq, hnodup.idxOf_getElem]
        · simp only [heq, getElem_idxOf]
      rw [turns] at ih ⊢
      rw [range'_concat, filterMap_append, count_append, ih, Nat.count_succ]
      simp [getElem?_eq_getElem hlt, count_singleton, hturn]
  have hpos := length_pos_of_mem hfirst
  rw [hcount first hfirst, hcount second hsecond, Nat.count_modEq_card count hpos,
    Nat.count_modEq_card count hpos]
  split_ifs <;> omega

theorem nodup_servers (hpeers : (claims.map (·.peer)).Nodup) : (servers claims).Nodup := by
  rw [servers, (perm_insertionSort _ _).nodup_iff, List.Nodup, pairwise_filterMap]
  refine (pairwise_map.1 hpeers).imp fun hpeer left hleft right hright hsame => ?_
  obtain ⟨_, -, rfl⟩ := Option.map_eq_some_iff.1 hleft
  obtain ⟨_, -, rfl⟩ := Option.map_eq_some_iff.1 hright
  exact hpeer (congrArg Prod.fst hsame)

/-- The wanted tenures that are claimed are assigned, each once, in their order and to a peer that claims
it, whatever order the claims came in; and servers that all claim all of them take turns. -/
theorem tenures_assigned (claims : List TenureClaim) (wanted : List Nat)
    (hpeers : (claims.map (·.peer)).Nodup) :
    (assignTenures claims wanted).map Prod.fst = wanted.filter (claimed claims) ∧
    (∀ entry ∈ assignTenures claims wanted, Claims claims entry.1 entry.2) ∧
    (∀ claims', claims'.Perm claims → assignTenures claims' wanted = assignTenures claims wanted) ∧
    ((∀ server ∈ servers claims, ∀ tenure ∈ wanted, server.2.2[tenure]? = some true) →
      assignTenures claims wanted = List.zipWith (fun tenure server => (tenure, server.2.1)) wanted
          (turns (servers claims) 0 wanted.length) ∧
        ∀ first ∈ servers claims, ∀ second ∈ servers claims,
          (turns (servers claims) 0 wanted.length).count first
            ≤ (turns (servers claims) 0 wanted.length).count second + 1) := by
  obtain ⟨more, hmore, htenures, hclaims⟩ := foldl_assignTenure claims wanted (0, [])
  have hassigned : assignTenures claims wanted = more := hmore
  refine ⟨hassigned ▸ htenures, hassigned ▸ hclaims, fun claims' hperm => ?_, fun hall => ⟨?_, ?_⟩⟩
  · rw [assignTenures, servers_perm hpeers hperm, assignTenures]
  · exact foldl_assignTenure_of_all wanted hall (0, []) rfl
  · exact fun first hfirst second hsecond => count_turns_le (nodup_servers hpeers) hfirst hsecond _

/-- Two servers that claim three tenures: the second tenure goes to the second server. -/
theorem tenures_assigned_in_turn :
    let claims := [TenureClaim.mk (Bytes.zero 20) (some "a") [true, true, true],
      ⟨Bytes.replicate 20 1, some "b", [true, true, true]⟩]
    (claims.map (·.peer)).Nodup ∧
      assignTenures claims [0, 1, 2] = [(0, "a"), (1, "b"), (2, "a")] ∧
      (assignTenures claims [0, 1, 2]).map Prod.fst = [0, 1, 2].filter (claimed claims) :=
  ⟨by decide +kernel, by decide +kernel, (tenures_assigned _ _ (by decide +kernel)).1⟩

/-- One round of asking: which cycle was asked about, and the claims that came of it. -/
structure Exchange where
  cycleStart : ConsensusHash
  claims : List TenureClaim

/-- What a schedule is made from, and every exchange so far, the latest first. -/
structure Downloader where
  sortition : Option SortitionTracker
  /-- The Bitcoin height the executed tip stands on. -/
  bitcoinHeight : Nat
  claims : List TenureClaim
  exchanges : List Exchange

inductive DownloadStep where
  /-- The swarm asks its peers about a cycle. -/
  | exchange (cycleStart : ConsensusHash) (connected : List Connected)
  /-- Sortitions are derived or retracted, and blocks executed. -/
  | progress (sortition : Option SortitionTracker) (bitcoinHeight : Nat)

def scheduledTenures : Nat := 32

namespace Downloader

/-- Before the first exchange. -/
def start (sortition : Option SortitionTracker) (bitcoinHeight : Nat) : Downloader :=
  ⟨sortition, bitcoinHeight, [], []⟩

variable (node : Downloader)

/-- The claims of an exchange take the place of the last ones. -/
def exchangeInventories (cycleStart : ConsensusHash) (connected : List Connected) : Downloader :=
  { node with
    claims := tenureClaims connected
    exchanges := ⟨cycleStart, tenureClaims connected⟩ :: node.exchanges }

def step : DownloadStep → Downloader
  | .exchange cycleStart connected => node.exchangeInventories cycleStart connected
  | .progress sortition bitcoinHeight => { node with sortition, bitcoinHeight }

/-- The node after some run. -/
def Reached : Prop :=
  ∃ sortition bitcoinHeight actions, node = run step (start sortition bitcoinHeight) actions

variable (pox : PoxInfo) (acquired : Option ConsensusHash)

/-- The height the cycle of the node's burn view opens at. -/
def cycleStartHeight : Option Nat := do
  let tracker ← node.sortition
  pox.inventoryCycleStart (min node.bitcoinHeight tracker.tip.bitcoinHeight)

/-- The hash by which the node asks about its cycle. -/
def cycleStartConsensusHash : Option ConsensusHash := do
  let tracker ← node.sortition
  tracker.consensusHashAt (← node.cycleStartHeight pox)

/-- The furthest of the executed and the acquired burn heights. -/
def furthest : Nat :=
  max ((acquired.bind fun view => node.sortition.bind (·.heightOfConsensusHash view)).getD 0)
    node.bitcoinHeight

/-- The offsets in the node's cycle it has yet to execute. -/
def wantedTenures (bound : Nat) : Option (Nat × List Nat) := do
  let start ← node.cycleStartHeight pox
  let length := pox.preparePhaseLength + pox.rewardPhaseLength
  let first := node.furthest acquired - start
  if length < 2 ^ 16 ∧ start ≤ node.furthest acquired ∧ first < 2 ^ 16 then
    some (start, (List.range' first (length - first)).take bound)
  else none

/-- Where to ask for each tenure the node wants next, and of whom. -/
def scheduleTenures : List (ConsensusHash × String) :=
  if node.claims = [] then []
  else
    match node.sortition, node.wantedTenures pox acquired scheduledTenures with
    | some tracker, some (start, wanted) =>
      (assignTenures node.claims wanted).filterMap fun (offset, endpoint) =>
        (tracker.consensusHashAt (start + offset)).map fun view => (view, endpoint)
    | _, _ => []

/-- The exchange in which the peer at an endpoint last gave an inventory. -/
def latestFrom (endpoint : String) : Option Exchange :=
  node.exchanges.find? fun exchange => exchange.claims.any (·.endpoint = some endpoint)

/-- A view at or above the furthest height, whose bit is set in the last inventory of the peer at the
endpoint; and that inventory is of the cycle the view belongs to. -/
def Claimed (scheduled : ConsensusHash × String) : Prop :=
  ∃ tracker height cycle exchange, node.sortition = some tracker ∧
    tracker.consensusHashAt height = some scheduled.1 ∧ node.furthest acquired ≤ height ∧
    pox.inventoryCycleStart height = some cycle ∧ node.latestFrom scheduled.2 = some exchange ∧
    tracker.consensusHashAt cycle = some exchange.cycleStart ∧
    Claims exchange.claims (height - cycle) scheduled.2

/-- The cycle the last exchange asked about. -/
def asked : Option ConsensusHash := node.exchanges.head?.map (·.cycleStart)

end Downloader

theorem inventoryCycleStart_within {pox : PoxInfo} {height start offset : Nat}
    (h : pox.inventoryCycleStart height = some start)
    (hoffset : offset < pox.preparePhaseLength + pox.rewardPhaseLength) :
    pox.inventoryCycleStart (start + offset) = some start := by
  unfold PoxInfo.inventoryCycleStart at h ⊢
  generalize pox.preparePhaseLength + pox.rewardPhaseLength = length at *
  dsimp only at h ⊢
  split_ifs at h with hnone
  cases h
  generalize (height - pox.firstBitcoinHeight - 1) / length = cycles
  have hrest : pox.firstBitcoinHeight + cycles * length + 1 + offset - pox.firstBitcoinHeight - 1
      = offset + cycles * length := by omega
  rw [if_neg (by omega), hrest, Nat.add_mul_div_right _ _ (by omega), Nat.div_eq_of_lt hoffset,
    Nat.zero_add]

namespace Downloader

variable {node : Downloader} {pox : PoxInfo} {acquired : Option ConsensusHash}

theorem wantedTenures_spec {bound start : Nat} {wanted : List Nat}
    (h : node.wantedTenures pox acquired bound = some (start, wanted)) :
    node.cycleStartHeight pox = some start ∧ ∀ offset ∈ wanted,
      node.furthest acquired ≤ start + offset ∧
        offset < pox.preparePhaseLength + pox.rewardPhaseLength := by
  simp only [wantedTenures, Option.bind_eq_bind, Option.bind_eq_some_iff] at h
  obtain ⟨start', hstart, h⟩ := h
  split_ifs at h with hfits
  cases h
  refine ⟨hstart, fun offset hoffset => ?_⟩
  have hrange := mem_range'_1.1 (mem_of_mem_take hoffset)
  omega

theorem mem_scheduleTenures {scheduled : ConsensusHash × String}
    (h : scheduled ∈ node.scheduleTenures pox acquired) :
    ∃ tracker start offset, node.sortition = some tracker ∧
      node.cycleStartHeight pox = some start ∧ node.furthest acquired ≤ start + offset ∧
      offset < pox.preparePhaseLength + pox.rewardPhaseLength ∧
      tracker.consensusHashAt (start + offset) = some scheduled.1 ∧
      Claims node.claims offset scheduled.2 := by
  unfold scheduleTenures at h
  split_ifs at h
  · simp at h
  · split at h
    · rename_i tracker start wanted htracker hwanted
      obtain ⟨⟨offset, endpoint⟩, hassigned, hview⟩ := mem_filterMap.1 h
      obtain ⟨view, hat, rfl⟩ := Option.map_eq_some_iff.1 hview
      obtain ⟨hmem, hclaims⟩ := mem_assignTenures hassigned
      obtain ⟨hstart, hwanted⟩ := wantedTenures_spec hwanted
      exact ⟨tracker, start, offset, htracker, hstart, (hwanted offset hmem).1,
        (hwanted offset hmem).2, hat, hclaims⟩
    · simp at h

/-- The claims the node holds are those of the last exchange. -/
def Held (node : Downloader) : Prop :=
  node.claims = (node.exchanges.head?.map (·.claims)).getD []

theorem Held.step (h : node.Held) (action : DownloadStep) : (node.step action).Held := by
  cases action with
  | exchange cycleStart connected => exact rfl
  | progress sortition bitcoinHeight => exact h

theorem Reached.held (h : node.Reached) : node.Held := by
  obtain ⟨sortition, bitcoinHeight, actions, rfl⟩ := h
  apply run_invariant Held (fun _ action h => h.step action)
  exact rfl

theorem Held.latestFrom (h : node.Held) {offset : Nat} {endpoint : String}
    (hclaims : Claims node.claims offset endpoint) :
    ∃ exchange, node.latestFrom endpoint = some exchange ∧
      node.asked = some exchange.cycleStart ∧ exchange.claims = node.claims := by
  obtain ⟨claim, hclaim, hendpoint, -⟩ := hclaims
  unfold Held at h
  cases hexchanges : node.exchanges with
  | nil => simp [h, hexchanges] at hclaim
  | cons exchange rest =>
    have hheld : exchange.claims = node.claims := by simp [h, hexchanges]
    refine ⟨exchange, ?_, by simp [asked, hexchanges], hheld⟩
    rw [Downloader.latestFrom, hexchanges, find?_cons_of_pos]
    simpa [hheld] using ⟨claim, hclaim, hendpoint⟩

/-- After every run, what is scheduled while the last exchange asked about the node's own cycle was
claimed, in that cycle, by the peer it is asked of. -/
theorem scheduled_claimed (node : Downloader) (hnode : node.Reached) (pox : PoxInfo)
    (acquired : Option ConsensusHash) (hasked : node.asked = node.cycleStartConsensusHash pox) :
    ∀ scheduled ∈ node.scheduleTenures pox acquired, node.Claimed pox acquired scheduled := by
  intro scheduled hscheduled
  obtain ⟨tracker, first, offset, htracker, hfirst, hfurthest, hoffset, hview, hclaims⟩ :=
    mem_scheduleTenures hscheduled
  obtain ⟨exchange, hlatest, hlast, hsame⟩ := hnode.held.latestFrom hclaims
  have hcycle : node.cycleStartConsensusHash pox = tracker.consensusHashAt first := by
    simp [cycleStartConsensusHash, htracker, hfirst]
  have hopens : pox.inventoryCycleStart (first + offset) = some first := by
    simp only [cycleStartHeight, htracker, Option.bind_eq_bind, Option.bind_some] at hfirst
    exact inventoryCycleStart_within hfirst hoffset
  refine ⟨tracker, first + offset, first, exchange, htracker, hview, hfurthest, hopens, hlatest, ?_,
    ?_⟩
  · rw [← hcycle, ← hasked, hlast]
  · rwa [hsame, Nat.add_sub_cancel_left]

/-! Cycles of two burn blocks. A peer is asked about the cycle that opens at burn 101 and has both its
tenures; then burn 102 and 103 arrive and are executed. -/

def twoBlockPox : PoxInfo := ⟨0, 101, 1, 1, none, none, none, none, none⟩

def completePeer : Connected := ⟨Bytes.zero 20, some "http://peer", some [true, true]⟩

def twoBlocksOn : SortitionTracker :=
  (SortitionTracker.walkOn plainCrypto (fun _ => 0) (emptyBurnchain 0).blockAt
    twentyBlockCycles 2 (electedAt 101)).2

/-- The node that asked about its cycle at burn 101. -/
def askedDownloader : Downloader :=
  run step (start (some (electedAt 101)) 101) [.exchange (plainTenure 1) [completePeer]]

theorem scheduled_claimed_in_cycle :
    askedDownloader.scheduleTenures twoBlockPox none = [(plainTenure 1, "http://peer")] ∧
      askedDownloader.Claimed twoBlockPox none (plainTenure 1, "http://peer") := by
  have hscheduled : askedDownloader.scheduleTenures twoBlockPox none
      = [(plainTenure 1, "http://peer")] := by decide +kernel
  refine ⟨hscheduled, scheduled_claimed _ ⟨_, _, _, rfl⟩ _ _ (by decide +kernel) _ ?_⟩
  exact hscheduled ▸ mem_singleton_self _

/-- The tenure of burn 103 is asked of a peer that was never asked about its cycle. -/
theorem scheduled_from_last_cycle :
    let node := run step askedDownloader [.progress (some twoBlocksOn) 103]
    let scheduled := (twoBlocksOn.tip.consensusHash, "http://peer")
    node.scheduleTenures twoBlockPox none = [scheduled] ∧
      ¬ node.Claimed twoBlockPox none scheduled := by
  refine ⟨by decide +kernel, ?_⟩
  rintro ⟨tracker, height, cycle, exchange, htracker, hview, hfurthest, hcycle, hlatest, hasked, -⟩
  cases htracker
  cases hlatest
  have hheight : height = 103 := by
    have hbelow : height ≤ twoBlocksOn.tip.bitcoinHeight := by
      unfold SortitionTracker.consensusHashAt at hview
      by_contra habove
      simp [habove] at hview
    have htip : twoBlocksOn.tip.bitcoinHeight = 103 := by decide +kernel
    have hleast : 103 ≤ height := hfurthest
    omega
  subst hheight
  cases hcycle
  exact absurd hasked (by decide +kernel)

end Downloader

end NanoStacks.Follower
