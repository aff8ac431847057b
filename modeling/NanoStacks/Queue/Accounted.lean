import NanoStacks.Queue.Channel
import Mathlib.Algebra.BigOperators.Group.List.Basic
import Mathlib.Data.List.Perm.Basic

/-!
# What the queue accounts for

Every reservation is held by one thing at a time: a permit, an entry of the channel, a lease, or a call
that is under way. The accounting is right as long as it keeps what is held, and one lemma for each thing
an action does to it (`Books.reserve`, `Books.release`) and one for what only moves (`Books.moved`) say so
for every action. Two actions need a condition, both while the receiver is dropped: the channel may close
on entries that no send will release any more, and a send may find the channel closed whose entry a lease
already holds.
-/

namespace NanoStacks.Queue

open List Option World

variable {T : Type}

/-- The entry a receiver that is being dropped has taken. -/
def Receiver.taken : Receiver → Option Reservation
  | .draining taken => taken
  | _ => none

/-- The reservations that are held: by a call or a permit, by an entry of the channel or one taken out of
it to be dropped, by a send that has yet to find its entry thrown away, and by a lease. -/
def World.held (world : World T) : List Reservation :=
  world.reserving.toList ++ world.permits ++ world.channel.queue.map (·.reservation) ++
    world.receiver.taken.toList ++ world.channel.thrown ++ world.leases.map (·.reservation)

/-! ## The books -/

/-- An accounting that keeps exactly what is held, within its limits, and a history in which everything
reserved is released once or still held. -/
structure Books (limits : Limits) (accounting : Accounting) (history : History T)
    (held : List Reservation) : Prop where
  limits_eq : accounting.limits = limits
  entries : accounting.entries.entries.Perm held
  bytes : accounting.bytes = (held.map (·.2)).sum
  items_le : held.length ≤ limits.items
  bytes_le : accounting.bytes ≤ limits.bytes
  reserved : history.reserved.Perm (history.released ++ held)

section Books

variable {limits : Limits} {accounting : Accounting} {history history' : History T} {held held' : List Reservation}

theorem Books.moved (h : Books limits accounting history held) (hreserved : history'.reserved = history.reserved)
    (hreleased : history'.released = history.released) (hperm : held.Perm held') :
    Books limits accounting history' held' where
  limits_eq := h.limits_eq
  entries := h.entries.trans hperm
  bytes := h.bytes.trans (hperm.map _).sum_eq
  items_le := hperm.length_eq ▸ h.items_le
  bytes_le := h.bytes_le
  reserved := hreserved ▸ hreleased ▸ h.reserved.trans (hperm.append_left _)

theorem Books.refuse (h : Books limits accounting history held) (error : ReserveError) :
    Books limits (accounting.refuse error) history held := by
  cases error with
  | full => exact ⟨h.limits_eq, h.entries, h.bytes, h.items_le, h.bytes_le, h.reserved⟩
  | closed => exact ⟨h.limits_eq, h.entries, h.bytes, h.items_le, h.bytes_le, h.reserved⟩

variable {reservation : Reservation}

section

variable (h : Books limits accounting history held)

include h

theorem Books.get_eq_some :
    accounting.entries.get reservation.1 = some reservation.2 ↔ reservation ∈ held :=
  (OrdMap.get_eq_some _).trans h.entries.mem_iff

theorem Books.get_eq_none {id : Nat} :
    accounting.entries.get id = none ↔ ∀ reservation ∈ held, reservation.1 ≠ id := by
  constructor
  · rintro hnone reservation hmem rfl
    have hsome := h.get_eq_some.2 hmem
    rw [hnone] at hsome
    cases hsome
  · intro hne
    exact OrdMap.getEntry_eq_none fun e he => hne e (h.entries.mem_iff.1 he)

theorem Books.nodup : (held.map (·.1)).Nodup := by
  rw [← (h.entries.map _).nodup_iff, nodup_iff_pairwise_ne, pairwise_map]
  exact accounting.entries.sorted.imp fun hlt => hlt.ne

theorem Books.other_id {rest : List Reservation} (hperm : held.Perm (reservation :: rest)) :
    ∀ other ∈ rest, other.1 ≠ reservation.1 := by
  have hnodup := (hperm.map Prod.fst).nodup_iff.1 h.nodup
  rw [map_cons, nodup_cons] at hnodup
  exact fun other hother heq => hnodup.1 (mem_map.2 ⟨other, hother, heq⟩)

theorem Books.reserve {bytes : Nat} (hnew : accounting.entries.get accounting.nextId = none)
    (hitems : accounting.entries.entries.length < limits.items)
    (hbytes : bytes ≤ limits.bytes - accounting.bytes)
    (hreserved : history'.reserved = history.reserved ++ [(accounting.nextId, bytes)])
    (hreleased : history'.released = history.released) :
    Books limits (accounting.reserve bytes).2 history' ((accounting.nextId, bytes) :: held) where
  limits_eq := h.limits_eq
  entries := (OrdMap.insert_perm _ hnew bytes).trans (h.entries.cons _)
  bytes := by
    show accounting.bytes + bytes = _
    rw [map_cons, sum_cons, ← h.bytes, Nat.add_comm]
  items_le := by
    rw [h.entries.length_eq] at hitems
    exact hitems
  bytes_le := by
    have hle := h.bytes_le
    show accounting.bytes + bytes ≤ limits.bytes
    omega
  reserved := by
    rw [hreserved, hreleased]
    refine (h.reserved.append_right _).trans ?_
    rw [append_assoc]
    exact (perm_append_comm).append_left _

end

variable {world : World T}

theorem Books.release (h : Books limits world.accounting world.history held)
    (hmem : reservation ∈ held) :
    Books limits (world.release reservation.1).accounting (world.release reservation.1).history
      (held.erase reservation) := by
  have hget := h.get_eq_some.2 hmem
  have hperm : held.Perm (reservation :: held.erase reservation) := perm_cons_erase hmem
  have hsum : (held.map (·.2)).sum = reservation.2 + ((held.erase reservation).map (·.2)).sum := by
    rw [(hperm.map _).sum_eq, map_cons, sum_cons]
  have hbytes := h.bytes
  have hbytes_le := h.bytes_le
  have hitems := h.items_le
  have hlength := hperm.length_eq
  simp only [World.release, Accounting.release, hget]
  refine ⟨h.limits_eq, ?_, ?_, ?_, ?_, ?_⟩
  · show (world.accounting.entries.retain (· ≠ reservation.1)).entries.Perm _
    rw [OrdMap.retain_ne_entries _ hget]
    exact h.entries.erase _
  · show world.accounting.bytes - reservation.2 = _
    omega
  · rw [length_cons] at hlength
    omega
  · show world.accounting.bytes - reservation.2 ≤ limits.bytes
    omega
  · refine h.reserved.trans ?_
    rw [map_some, toList_some, append_assoc]
    exact hperm.append_left _

theorem Books.release_head (h : Books limits world.accounting world.history (reservation :: held)) :
    Books limits (world.release reservation.1).accounting (world.release reservation.1).history held := by
  have hbooks := h.release mem_cons_self
  rw [erase_cons_head] at hbooks
  exact hbooks

theorem Books.release_of_not_held (h : Books limits world.accounting world.history held) {id : Nat}
    (hnot : ∀ reservation ∈ held, reservation.1 ≠ id) :
    Books limits (world.release id).accounting (world.release id).history held := by
  have hget := h.get_eq_none.2 hnot
  simp only [World.release, Accounting.release, hget, map_none, toList_none,
    append_nil]
  exact h

end Books

/-! ## What holds of every world -/

/-- The books balance, and the sends under way are those a thrown-away entry waits for. -/
structure Balanced (limits : Limits) (world : World T) : Prop where
  books : Books limits world.accounting world.history world.held
  apart : ∀ id ∈ world.sending, ∀ reservation ∈ world.reserving.toList ++ world.permits,
    reservation.1 ≠ id
  underWay : ∀ reservation ∈ world.channel.thrown, reservation.1 ∈ world.sending
  emptied : world.channel.closed = true → world.receiver = .gone ∧ world.channel.queue = []
  kept : world.channel.closed = false → world.channel.thrown = []

/-- What an action must find for the books to balance after it. -/
def Action.Timely (world : World T) : Action T → Prop
  | .tryReserve _ => world.accounting.entries.get world.accounting.nextId = none ∧
      world.accounting.nextId ∉ world.sending
  | .sendReturns id => world.channel.closed = true → ∀ lease ∈ world.leases, lease.reservation.1 ≠ id
  | .closes => ∀ entry ∈ world.channel.queue, entry.reservation.1 ∈ world.sending
  | _ => True

section Steps

variable {limits : Limits} {world : World T}

theorem balanced_new (limits : Limits) : Balanced limits (new limits : World T) where
  books := ⟨rfl, .refl _, rfl, Nat.zero_le _, Nat.zero_le _, .refl _⟩
  apart := by simp [new]
  underWay := by simp [new, Channel.new]
  emptied := by simp [new, Channel.new]
  kept := fun _ => rfl

theorem Balanced.tryReserve (h : Balanced limits world) {bytes : Nat} (hlock : world.reserving = none)
    (htimely : (Action.tryReserve bytes).Timely world) : Balanced limits (world.tryReserve bytes).1 := by
  obtain ⟨hnew, hsending⟩ := htimely
  unfold World.tryReserve
  split_ifs with hclosed hfull
  · exact ⟨h.books.refuse .closed, h.apart, h.underWay, h.emptied, h.kept⟩
  · exact ⟨h.books.refuse .full, h.apart, h.underWay, h.emptied, h.kept⟩
  · rw [not_or, not_le, not_lt, h.books.limits_eq] at hfull
    refine ⟨?_, ?_, h.underWay, h.emptied, h.kept⟩
    · have hheld : world.held = [] ++ world.permits ++ world.channel.queue.map (·.reservation) ++
          world.receiver.taken.toList ++ world.channel.thrown ++ world.leases.map (·.reservation) := by
        rw [held, hlock]
        rfl
      have hbooks : Books limits (world.accounting.reserve bytes).2
          { world.history with
            reserved := world.history.reserved ++ [(world.accounting.nextId, bytes)] }
          ((world.accounting.nextId, bytes) :: world.held) :=
        h.books.reserve hnew hfull.1 hfull.2 rfl rfl
      rw [hheld] at hbooks
      exact hbooks
    · intro id hid reservation hmem
      rcases mem_cons.1 hmem with rfl | hmem
      · rintro rfl
        exact hsending hid
      · exact h.apart id hid reservation (mem_append_right _ hmem)

theorem Balanced.isOpen (h : Balanced limits world) (hreceiver : world.receiver ≠ .gone) :
    world.channel.closed = false := by
  cases hclosed : world.channel.closed with
  | false => rfl
  | true => exact absurd (h.emptied hclosed).1 hreceiver

theorem tryReserveOwned_eq_ok {channel channel' : Channel T}
    (h : channel.tryReserveOwned = .ok channel') : ∃ slots, channel' = { channel with slots } := by
  unfold Channel.tryReserveOwned at h
  split_ifs at h
  split at h
  · cases h
  · cases h
    exact ⟨_, rfl⟩

theorem Balanced.tryReserveOwned (h : Balanced limits world) {reservation : Reservation}
    (hreserving : world.reserving = some reservation) :
    Balanced limits (world.tryReserveOwned reservation).1 := by
  have hheld : world.held = reservation :: { world with reserving := none }.held := by
    simp [held, hreserving]
  unfold World.tryReserveOwned
  split
  · next channel hchannel =>
    obtain ⟨slots, rfl⟩ := tryReserveOwned_eq_ok hchannel
    refine ⟨h.books.moved rfl rfl ?_, ?_, h.underWay, h.emptied, h.kept⟩
    · refine perm_iff_count.2 fun r => ?_
      simp only [held, hreserving, count_append, toList_some, toList_none,
        count_nil]
      omega
    · intro id hid permit hpermit
      refine h.apart id hid permit ?_
      rw [hreserving]
      simpa [or_comm] using hpermit
  · next error herror =>
    refine ⟨Books.refuse ?_ error, ?_, h.underWay, h.emptied, h.kept⟩
    · exact Books.release_head (hheld ▸ h.books)
    · exact fun id hid permit hpermit => h.apart id hid permit (mem_append_right _ hpermit)

variable {permit : Reservation}

theorem count_erase_add {permits : List Reservation} (h : permit ∈ permits) (r : Reservation) :
    (permits.erase permit).count r + (if permit == r then 1 else 0) = permits.count r := by
  rw [(perm_cons_erase h).count_eq r, count_cons]

theorem held_of_permit (h : permit ∈ world.permits) :
    world.held.Perm (permit :: { world with permits := world.permits.erase permit }.held) := by
  refine perm_iff_count.2 fun r => ?_
  have hcount := count_erase_add h r
  simp only [held, count_append, count_cons]
  omega

section

variable (h : Balanced limits world)

include h

theorem Balanced.send (hpermit : permit ∈ world.permits) (value : T) :
    Balanced limits (world.send permit value) := by
  have hsplit := held_of_permit hpermit
  have hother := h.books.other_id hsplit
  have hapart : ∀ id ∈ world.sending ++ [permit.1],
      ∀ reservation ∈ world.reserving.toList ++ world.permits.erase permit, reservation.1 ≠ id := by
    intro id hid reservation hmem
    rcases mem_append.1 hid with hid | hid
    · exact h.apart id hid reservation (Sublist.mem hmem (erase_sublist.append_left _))
    · rw [mem_singleton.1 hid]
      refine hother reservation ?_
      simp only [held, append_assoc, mem_append] at hmem ⊢
      tauto
  unfold World.send Channel.send
  split_ifs with hclosed
  · refine ⟨h.books.moved rfl rfl (hsplit.trans ?_), hapart, ?_, h.emptied, ?_⟩
    · refine perm_iff_count.2 fun r => ?_
      simp only [held, count_append, count_cons, count_nil]
      omega
    · simp only [mem_append, mem_singleton, or_imp, forall_and, forall_eq, or_true, and_true]
      exact fun reservation hmem => .inl (h.underWay reservation hmem)
    · exact fun hopen => absurd (hclosed.symm.trans hopen) (by decide)
  · refine ⟨h.books.moved rfl rfl (hsplit.trans ?_), hapart, ?_, fun hshut => absurd hshut hclosed, h.kept⟩
    · refine perm_iff_count.2 fun r => ?_
      simp only [held, map_append, map_cons, map_nil, count_append, count_cons, count_nil]
      omega
    · exact fun reservation hmem => mem_append_left _ (h.underWay reservation hmem)

theorem Balanced.sendReturns {id : Nat} (hsending : id ∈ world.sending)
    (hlock : world.channel.closed = true → world.reserving = none)
    (htimely : (Action.sendReturns id).Timely world) : Balanced limits (world.sendReturns id) := by
  have hapart : ∀ other ∈ world.sending.erase id, ∀ reservation ∈ world.reserving.toList ++ world.permits,
      reservation.1 ≠ other :=
    fun other hother => h.apart other (mem_of_mem_erase hother)
  unfold World.sendReturns
  dsimp only
  split_ifs with hclosed
  · obtain ⟨hgone, hqueue⟩ := h.emptied hclosed
    by_cases hthrown : ∃ reservation ∈ world.channel.thrown, reservation.1 = id
    · -- the entry was thrown away: this is where its reservation ends
      obtain ⟨found, hfound, hfoundId⟩ := hthrown
      obtain ⟨reservation, front, back, -, hid, hlist, herase⟩ :=
        exists_of_eraseP (p := fun reservation => reservation.1 = id) hfound
          (decide_eq_true hfoundId)
      obtain rfl := of_decide_eq_true hid
      have hsplit : world.held.Perm (reservation :: { world with
          channel := { world.channel with thrown := front ++ back } }.held) := by
        refine perm_iff_count.2 fun r => ?_
        simp only [held, hlist, count_append, count_cons]
        omega
      rw [herase]
      refine ⟨Books.release_head (h.books.moved rfl rfl hsplit), hapart, fun other hother => ?_, h.emptied,
        fun hopen => absurd (hclosed.symm.trans hopen) (by decide)⟩
      replace hother : other ∈ front ++ back := hother
      have hne : other.1 ≠ reservation.1 :=
        h.books.other_id hsplit other (mem_append_left _ (mem_append_right _ hother))
      refine (mem_erase_of_ne hne).2 (h.underWay other ?_)
      rw [hlist]
      exact Sublist.mem hother ((sublist_cons_self _ _).append_left _)
    · -- its entry was received or drained, and whoever had it released it
      rw [not_exists] at hthrown
      have hkept : world.channel.thrown.eraseP (·.1 = id) = world.channel.thrown :=
        eraseP_of_forall_not fun reservation hmem hid =>
          hthrown reservation ⟨hmem, of_decide_eq_true hid⟩
      have hnot : ∀ reservation ∈ world.held, reservation.1 ≠ id := by
        intro reservation hmem
        rw [held, hlock hclosed, hqueue, hgone] at hmem
        simp only [toList_none, Receiver.taken, map_nil, nil_append, append_nil,
          mem_append, List.mem_map] at hmem
        rcases hmem with (hpermit | hthrew) | ⟨lease, hlease, rfl⟩
        · exact h.apart id hsending reservation (mem_append_right _ hpermit)
        · exact fun heq => hthrown reservation ⟨hthrew, heq⟩
        · exact htimely hclosed lease hlease
      rw [hkept]
      refine ⟨Books.release_of_not_held h.books hnot, hapart, ?_, h.emptied, h.kept⟩
      intro other hother
      exact (mem_erase_of_ne fun heq => hthrown other ⟨hother, heq⟩).2 (h.underWay other hother)
  · refine ⟨h.books, hapart, ?_, h.emptied, h.kept⟩
    rw [h.kept (by simpa using hclosed)]
    exact nofun

theorem Balanced.dropPermit (hpermit : permit ∈ world.permits) :
    Balanced limits (world.dropPermit permit) := by
  refine ⟨Books.release_head (h.books.moved rfl rfl (held_of_permit hpermit)), ?_, h.underWay, h.emptied,
    h.kept⟩
  exact fun id hid reservation hmem =>
    h.apart id hid reservation (Sublist.mem hmem (erase_sublist.append_left _))

theorem Balanced.recvLease (hreceiver : world.receiver = .alive) :
    Balanced limits world.recvLease := by
  have hopen := h.isOpen (by rw [hreceiver]; decide)
  unfold World.recvLease
  split
  · exact h
  · next entry rest hqueue =>
    refine ⟨h.books.moved rfl rfl ?_, h.apart, h.underWay, (nomatch hopen.symm.trans ·), h.kept⟩
    refine perm_iff_count.2 fun r => ?_
    simp only [held, Channel.taken, hqueue, map_cons, map_append, map_nil,
      count_append, count_cons, count_nil]
    omega

omit h in
theorem map_eraseP_reservation (leases : List (Entry T)) (lease : Reservation) :
    (leases.eraseP (·.reservation = lease)).map (·.reservation)
      = (leases.map (·.reservation)).erase lease := by
  induction leases with
  | nil => rfl
  | cons entry rest ih =>
    by_cases heq : entry.reservation = lease
    · simp [heq]
    · simp [heq, ih]

theorem Balanced.endLease {lease : Reservation}
    (hlease : lease ∈ world.leases.map (·.reservation)) : Balanced limits (world.endLease lease) := by
  refine ⟨Books.release_head (h.books.moved rfl rfl ?_), h.apart, h.underWay, h.emptied, h.kept⟩
  refine perm_iff_count.2 fun r => ?_
  have hcount := count_erase_add hlease r
  simp only [World.held, World.release, World.endLease, map_eraseP_reservation, count_append,
    count_cons]
  omega

theorem Balanced.drain (hreceiver : world.receiver = .draining none) :
    Balanced limits world.drain := by
  have hopen := h.isOpen (by rw [hreceiver]; decide)
  unfold World.drain
  split
  · exact h
  · next entry rest hqueue =>
    refine ⟨h.books.moved rfl rfl ?_, h.apart, h.underWay, (nomatch hopen.symm.trans ·), h.kept⟩
    refine perm_iff_count.2 fun r => ?_
    simp only [held, Channel.taken, Receiver.taken, hqueue, hreceiver, map_cons,
      toList_none, toList_some, count_append, count_cons, count_nil]
    omega

theorem Balanced.receiver {receiver : Receiver} (hnow : world.receiver ≠ .gone)
    (htaken : receiver.taken = world.receiver.taken) : Balanced limits { world with receiver } := by
  refine ⟨h.books.moved rfl rfl ?_, h.apart, h.underWay, by simp [h.isOpen hnow], h.kept⟩
  simp only [held, htaken]
  exact .refl _

theorem Balanced.releaseDrained {reservation : Reservation}
    (hreceiver : world.receiver = .draining (some reservation)) :
    Balanced limits ({ world with receiver := .draining none }.release reservation.1) := by
  have hopen := h.isOpen (by rw [hreceiver]; nofun)
  refine ⟨Books.release_head (h.books.moved rfl rfl ?_), h.apart, h.underWay,
    (nomatch hopen.symm.trans ·), h.kept⟩
  refine perm_iff_count.2 fun r => ?_
  simp only [held, release, Receiver.taken, hreceiver, toList_none,
    toList_some, count_append, count_cons, count_nil]
  omega

theorem Balanced.closes (hreceiver : world.receiver = .drained)
    (htimely : (Action.closes : Action T).Timely world) :
    Balanced limits { world with receiver := .gone, channel := world.channel.close } := by
  have hthrown := h.kept (h.isOpen (by rw [hreceiver]; decide))
  refine ⟨h.books.moved rfl rfl ?_, h.apart, ?_, fun _ => ⟨rfl, rfl⟩, nofun⟩
  · refine perm_iff_count.2 fun r => ?_
    simp only [held, Channel.close, Receiver.taken, hreceiver, hthrown, map_nil,
      toList_none, count_append, count_nil]
    omega
  · intro reservation hmem
    obtain ⟨entry, hentry, rfl⟩ := mem_map.1 hmem
    exact htimely entry hentry

theorem Balanced.step {action : Action T} (htimely : action.Timely world) :
    Balanced limits (world.step action) := by
  unfold World.step
  cases action with
  | tryReserve bytes =>
    dsimp only
    split_ifs with hlock
    · exact h.tryReserve hlock htimely
    · exact h
  | tryReserveOwned =>
    dsimp only
    split
    · next reservation hreserving => exact h.tryReserveOwned hreserving
    · exact h
  | send permit value =>
    dsimp only
    split_ifs with hpermit
    · exact h.send hpermit value
    · exact h
  | sendReturns id =>
    dsimp only
    split_ifs with hcan
    · exact h.sendReturns hcan.1 hcan.2 htimely
    · exact h
  | dropPermit permit =>
    dsimp only
    split_ifs with hcan
    · exact h.dropPermit hcan.1
    · exact h
  | returnSlot =>
    dsimp only
    split
    · exact h
    · exact ⟨h.books, h.apart, h.underWay, h.emptied, h.kept⟩
  | recvLease =>
    dsimp only
    split_ifs with hreceiver
    · exact h.recvLease hreceiver
    · exact h
  | intoInner lease =>
    dsimp only
    split_ifs with hcan
    · exact h.endLease hcan.1
    · exact h
  | dropLease lease =>
    dsimp only
    split_ifs with hcan
    · exact h.endLease hcan.1
    · exact h
  | dropReceiver =>
    dsimp only
    split_ifs with hreceiver
    · exact h.receiver (by rw [hreceiver]; decide) (by rw [hreceiver]; rfl)
    · exact h
  | drain =>
    dsimp only
    split_ifs with hreceiver
    · exact h.drain hreceiver
    · exact h
  | releaseDrained =>
    dsimp only
    split
    · next reservation hreceiver =>
      split_ifs with hlock
      · exact h.releaseDrained hreceiver
      · exact h
    · exact h
  | drainEnds =>
    dsimp only
    split_ifs with hcan
    · exact h.receiver (by rw [hcan.1]; decide) (by rw [hcan.1]; rfl)
    · exact h
  | closes =>
    dsimp only
    split_ifs with hreceiver
    · exact h.closes hreceiver htimely
    · exact h

end

end Steps

/-- Every action of a run finds what it must. -/
def Timed (world : World T) : List (Action T) → Prop
  | [] => True
  | action :: rest => action.Timely world ∧ Timed (world.step action) rest

theorem Balanced.run {limits : Limits} {world : World T} (h : Balanced limits world) {actions : List (Action T)}
    (htimed : Timed world actions) : Balanced limits (world.run actions) := by
  induction actions generalizing world with
  | nil => exact h
  | cons action rest ih => exact ih (h.step htimed.1) htimed.2

/-! ## The order of what is received -/

/-- What was sent is what was received, what went with the receiver, and what is in the channel, in this
order; as long as there is a receiver nothing is lost. -/
structure Ordered (world : World T) : Prop where
  closed : world.receiver = .gone → world.channel.closed = true
  emptied : world.channel.closed = true → world.receiver = .gone ∧ world.channel.queue = []
  order : ∃ lost, world.history.sent
      = world.history.received ++ lost ++ world.channel.queue.map (·.value) ∧
    (world.receiver = .alive → lost = [])

section Order

variable {world : World T}

section

variable (h : Ordered world)

include h

theorem Ordered.congr {other : World T} (hqueue : other.channel.queue = world.channel.queue)
    (hclosed : other.channel.closed = world.channel.closed)
    (hreceiver : other.receiver = world.receiver) (hsent : other.history.sent = world.history.sent)
    (hreceived : other.history.received = world.history.received) : Ordered other := by
  obtain ⟨hgone, hemptied, horder⟩ := h
  refine ⟨?_, ?_, ?_⟩
  · rw [hreceiver, hclosed]
    exact hgone
  · rw [hclosed, hreceiver, hqueue]
    exact hemptied
  · rw [hsent, hreceived, hqueue, hreceiver]
    exact horder

theorem Ordered.isOpen (hreceiver : world.receiver ≠ .gone) : world.channel.closed = false := by
  cases hclosed : world.channel.closed with
  | false => rfl
  | true => exact absurd (h.emptied hclosed).1 hreceiver

theorem Ordered.send (permit : Reservation) (value : T) : Ordered (world.send permit value) := by
  obtain ⟨lost, hsent, halive⟩ := h.order
  unfold World.send Channel.send
  split_ifs with hclosed
  · obtain ⟨hgone, hqueue⟩ := h.emptied hclosed
    refine ⟨h.closed, h.emptied, lost ++ [value], ?_,
      fun hreceiver => absurd (hgone.symm.trans hreceiver) (by decide)⟩
    simp only [hsent, hqueue, map_nil, append_nil, append_assoc]
  · refine ⟨h.closed, fun hshut => absurd hshut hclosed, lost, ?_, halive⟩
    simp only [hsent, map_append, map_cons, map_nil, append_assoc]

theorem Ordered.recvLease (hreceiver : world.receiver = .alive) : Ordered world.recvLease := by
  have hopen := h.isOpen (by rw [hreceiver]; decide)
  obtain ⟨lost, hsent, halive⟩ := h.order
  unfold World.recvLease
  split
  · exact h
  · next entry rest hqueue =>
    refine ⟨fun hgone => absurd (hreceiver.symm.trans hgone) (by decide), (nomatch hopen.symm.trans ·),
      [], ?_, fun _ => rfl⟩
    simp only [hsent, halive hreceiver, hqueue, Channel.taken, map_cons, append_assoc,
      append_nil, nil_append, cons_append]

theorem Ordered.drain (hreceiver : world.receiver = .draining none) : Ordered world.drain := by
  have hopen := h.isOpen (by rw [hreceiver]; decide)
  obtain ⟨lost, hsent, -⟩ := h.order
  unfold World.drain
  split
  · exact h
  · next entry rest hqueue =>
    refine ⟨nofun, (nomatch hopen.symm.trans ·), lost ++ [entry.value], ?_, nofun⟩
    simp only [hsent, hqueue, Channel.taken, map_cons, append_assoc, cons_append,
      nil_append]

theorem Ordered.closes :
    Ordered { world with receiver := .gone, channel := world.channel.close } := by
  obtain ⟨lost, hsent, -⟩ := h.order
  refine ⟨fun _ => rfl, fun _ => ⟨rfl, rfl⟩, lost ++ world.channel.queue.map (·.value), ?_, nofun⟩
  simp only [hsent, Channel.close, map_nil, append_nil, append_assoc]

theorem Ordered.receiver {receiver : Receiver} (hnow : world.receiver ≠ .gone)
    (hnext : receiver ≠ .alive ∧ receiver ≠ .gone) : Ordered { world with receiver } := by
  obtain ⟨lost, hsent, -⟩ := h.order
  exact ⟨fun hgone => absurd hgone hnext.2, by simp [h.isOpen hnow], lost, hsent,
    fun halive => absurd halive hnext.1⟩

theorem Ordered.step (action : Action T) : Ordered (world.step action) := by
  unfold World.step
  cases action with
  | tryReserve bytes =>
    dsimp only [tryReserve]
    split_ifs
    · exact h.congr rfl rfl rfl rfl rfl
    · exact h.congr rfl rfl rfl rfl rfl
    · exact h.congr rfl rfl rfl rfl rfl
    · exact h
  | tryReserveOwned =>
    dsimp only [tryReserveOwned]
    split
    · split
      · next channel hchannel =>
        obtain ⟨slots, rfl⟩ := tryReserveOwned_eq_ok hchannel
        exact h.congr rfl rfl rfl rfl rfl
      · exact h.congr rfl rfl rfl rfl rfl
    · exact h
  | send permit value =>
    dsimp only
    split_ifs
    · exact h.send permit value
    · exact h
  | sendReturns id =>
    dsimp only [sendReturns]
    split_ifs
    · exact h.congr rfl rfl rfl rfl rfl
    · exact h.congr rfl rfl rfl rfl rfl
    · exact h
  | dropPermit permit =>
    dsimp only
    split_ifs
    · exact h.congr rfl rfl rfl rfl rfl
    · exact h
  | returnSlot =>
    dsimp only
    split
    · exact h
    · exact h.congr rfl rfl rfl rfl rfl
  | recvLease =>
    dsimp only
    split_ifs with hreceiver
    · exact h.recvLease hreceiver
    · exact h
  | intoInner lease | dropLease lease =>
    dsimp only
    split_ifs
    · exact h.congr rfl rfl rfl rfl rfl
    · exact h
  | dropReceiver =>
    dsimp only
    split_ifs with hreceiver
    · exact h.receiver (by rw [hreceiver]; decide) (by decide)
    · exact h
  | drain =>
    dsimp only
    split_ifs with hreceiver
    · exact h.drain hreceiver
    · exact h
  | releaseDrained =>
    dsimp only
    split
    · next reservation hreceiver =>
      split_ifs
      · refine (h.receiver ?_ ?_).congr rfl rfl rfl rfl rfl
        · rw [hreceiver]
          nofun
        · exact ⟨nofun, nofun⟩
      · exact h
    · exact h
  | drainEnds =>
    dsimp only
    split_ifs with hcan
    · exact h.receiver (by rw [hcan.1]; decide) (by decide)
    · exact h
  | closes =>
    dsimp only
    split_ifs
    · exact h.closes
    · exact h

end

end Order

theorem ordered_new (limits : Limits) : Ordered (new limits : World T) :=
  ⟨nofun, nofun, [], rfl, fun _ => rfl⟩

/-- In every interleaving whose actions find what they must, the accounting is within the limits and
keeps exactly what is held, everything reserved is released once or still held, what is received is what
was sent in its order, and once every call has returned, every permit and lease is gone and the receiver
is dropped, nothing is accounted for. -/
theorem queue_accounted (limits : Limits) (actions : List (Action T))
    (htimed : Timed (new limits) actions) :
    let world := (new limits : World T).run actions
    world.accounting.entries.entries.length ≤ limits.items ∧
      world.accounting.bytes ≤ limits.bytes ∧
      world.accounting.entries.entries.Perm world.held ∧
      world.accounting.bytes = (world.held.map (·.2)).sum ∧
      (∀ reservation ∈ world.channel.thrown, reservation.1 ∈ world.sending) ∧
      world.history.reserved.Perm (world.history.released ++ world.accounting.entries.entries) ∧
      (∃ lost, world.history.sent
          = world.history.received ++ lost ++ world.channel.queue.map (·.value) ∧
        (world.receiver = .alive → lost = [])) ∧
      (world.reserving = none → world.permits = [] → world.sending = [] → world.leases = [] →
        world.receiver = .gone → world.accounting.entries.entries = [] ∧ world.accounting.bytes = 0) := by
  intro world
  have hbalanced : Balanced limits world := (balanced_new limits).run htimed
  have hordered : Ordered world :=
    Runs.run_invariant Ordered (fun _ action h => h.step action) (ordered_new limits) actions
  have hbooks := hbalanced.books
  refine ⟨hbooks.entries.length_eq ▸ hbooks.items_le, hbooks.bytes_le, hbooks.entries, hbooks.bytes,
    hbalanced.underWay, hbooks.reserved.trans (hbooks.entries.symm.append_left _), hordered.order, ?_⟩
  intro hreserving hpermits hsending hleases hreceiver
  have hthrown : world.channel.thrown = [] := by
    refine eq_nil_iff_forall_not_mem.2 fun reservation hmem => ?_
    have hunderWay := hbalanced.underWay reservation hmem
    rw [hsending] at hunderWay
    cases hunderWay
  have hqueue := (hordered.emptied (hordered.closed hreceiver)).2
  have hheld : world.held = [] := by
    simp [held, hreserving, hpermits, hqueue, hreceiver, Receiver.taken, hthrown, hleases]
  rw [hheld] at hbooks
  exact ⟨hbooks.entries.eq_nil, hbooks.bytes⟩

def plainLimits : Limits := ⟨2, 8, by decide, by decide⟩

/-- The actions that reserve five bytes and get a permit for them. -/
def granted (rest : List (Action Nat)) : List (Action Nat) :=
  .tryReserve 5 :: .tryReserveOwned :: rest

theorem queue_accounted_received :
    let world := (new plainLimits).run (granted [.send (0, 5) 7, .recvLease, .sendReturns 0,
      .intoInner (0, 5), .dropReceiver, .drainEnds, .closes])
    world.history.received = [7] ∧ world.accounting.entries.entries = [] ∧ world.accounting.bytes = 0 := by
  refine ⟨rfl, ?_⟩
  have haccounted := queue_accounted plainLimits (granted [.send (0, 5) 7, .recvLease, .sendReturns 0,
    .intoInner (0, 5), .dropReceiver, .drainEnds, .closes])
    ⟨⟨rfl, by decide⟩, trivial, trivial, trivial, nofun, trivial, trivial, trivial, nofun, trivial⟩
  exact haccounted.2.2.2.2.2.2.2 rfl rfl rfl rfl rfl

/-- A send comes between the end of the loop that empties the channel and the close. -/
def sentLate : World Nat :=
  (new plainLimits).run
    (granted [.dropReceiver, .drainEnds, .send (0, 5) 7, .sendReturns 0, .closes])

/-- An entry is received before its send has looked whether the channel is closed. -/
def receivedEarly : World Nat :=
  (new plainLimits).run
    (granted [.send (0, 5) 7, .recvLease, .dropReceiver, .drainEnds, .closes, .sendReturns 0])

/-- Dropping the receiver races with sends: five bytes stay accounted for with nothing left, and a send
releases what a live lease holds. -/
theorem receiver_drop_races :
    (sentLate.reserving = none ∧ sentLate.permits = [] ∧ sentLate.sending = [] ∧
        sentLate.leases.isEmpty = true ∧ sentLate.receiver = .gone ∧ sentLate.accounting.bytes = 5) ∧
      receivedEarly.leases.map (·.reservation) = [(0, 5)] ∧ receivedEarly.accounting.bytes = 0 := by
  decide

end NanoStacks.Queue
