import NanoStacks.Lib.OrdMap
import NanoStacks.Lib.Runs
import Mathlib.Algebra.GroupWithZero.Nat

/-!
# The bounded queue

`nano_queue::channel`: a channel of the async runtime beside a count of the items and bytes that are
reserved, which is kept under a lock. Reservations are made before the work they are for is done, move
with it through the channel into the consumer's lease, and are released from five places.

An interleaving is a list of the actions the threads take, each the part of a call that happens at once:
one operation of the channel, or what is done under the lock. Reserving holds the lock across an operation
of the channel, so it is two actions with the lock held between them; an action that cannot be taken leaves
the world as it is.
-/

namespace NanoStacks.Queue

/-- The limits of a queue, which are positive. -/
structure Limits where
  items : Nat
  bytes : Nat
  items_pos : 0 < items
  bytes_pos : 0 < bytes

inductive ReserveError
  | full
  | closed

/-- The id a reservation is kept under and its bytes. -/
abbrev Reservation := Nat × Nat

/-- `u64::saturating_add(1)`. -/
def saturatingSucc64 (n : Nat) : Nat := min (n + 1) (2 ^ 64 - 1)

/-! ## The accounting -/

structure Accounting where
  limits : Limits
  entries : OrdMap Nat Nat
  bytes : Nat
  nextId : Nat
  dropped : Nat
  saturations : Nat

namespace Accounting

def new (limits : Limits) : Accounting := ⟨limits, OrdMap.empty, 0, 0, 0, 0⟩

def reserve (accounting : Accounting) (bytes : Nat) : Nat × Accounting :=
  (accounting.nextId,
    { accounting with
      nextId := (accounting.nextId + 1) % 2 ^ 64
      bytes := accounting.bytes + bytes
      entries := accounting.entries.insert accounting.nextId bytes })

def release (accounting : Accounting) (id : Nat) : Accounting :=
  match accounting.entries.get id with
  | some bytes =>
    { accounting with
      entries := accounting.entries.retain (· ≠ id)
      bytes := accounting.bytes - bytes }
  | none => accounting

/-- What is counted when a reservation is refused: a full queue is also a saturation. -/
def refuse (accounting : Accounting) : ReserveError → Accounting
  | .full =>
    { accounting with
      dropped := saturatingSucc64 accounting.dropped
      saturations := saturatingSucc64 accounting.saturations }
  | .closed => { accounting with dropped := saturatingSucc64 accounting.dropped }

end Accounting

/-! ## The channel -/

/-- What goes through the channel. Its id is what the source has of its reservation. -/
structure Entry (T : Type) where
  reservation : Reservation
  value : T

/-- The runtime's channel: first in, first out, with as many slots as the queue has items. An entry that
is in it when the receiver is gone is thrown away, and so is one that is sent later. -/
structure Channel (T : Type) where
  slots : Nat
  queue : List (Entry T)
  closed : Bool
  thrown : List Reservation

namespace Channel

variable {T : Type}

def new (slots : Nat) : Channel T := ⟨slots, [], false, []⟩

def tryReserveOwned (channel : Channel T) : Except ReserveError (Channel T) :=
  if channel.closed then .error .closed
  else match channel.slots with
    | 0 => .error .full
    | slots + 1 => .ok { channel with slots }

def send (channel : Channel T) (entry : Entry T) : Channel T :=
  if channel.closed then { channel with thrown := channel.thrown ++ [entry.reservation] }
  else { channel with queue := channel.queue ++ [entry] }

/-- The rest of the channel once its first entry is taken. -/
def taken (channel : Channel T) (rest : List (Entry T)) : Channel T :=
  { channel with queue := rest, slots := channel.slots + 1 }

def close (channel : Channel T) : Channel T :=
  { channel with closed := true, queue := [], thrown := channel.queue.map (·.reservation) }

end Channel

/-! ## The world -/

/-- How far dropping the receiver has come. -/
inductive Receiver
  | alive
  /-- The loop that empties the channel, with an entry it took but has not released. -/
  | draining (taken : Option Reservation)
  /-- The loop found the channel empty; the channel's own receiver is still to be dropped. -/
  | drained
  | gone
  deriving DecidableEq

/-- What has happened so far. -/
structure History (T : Type) where
  sent : List T
  received : List T
  reserved : List Reservation
  released : List Reservation

structure World (T : Type) where
  accounting : Accounting
  channel : Channel T
  /-- A reservation that is made and waits for the channel's slot, with the lock held. -/
  reserving : Option Reservation
  permits : List Reservation
  /-- Sends whose entry is in the channel and that have yet to look whether it is closed. -/
  sending : List Nat
  /-- Dropped permits that are released and have yet to give back their slot. -/
  returning : Nat
  leases : List (Entry T)
  receiver : Receiver
  history : History T

inductive Action (T : Type)
  | tryReserve (bytes : Nat)
  | tryReserveOwned
  | send (permit : Reservation) (value : T)
  | sendReturns (id : Nat)
  | dropPermit (permit : Reservation)
  | returnSlot
  | recvLease
  | intoInner (lease : Reservation)
  | dropLease (lease : Reservation)
  | dropReceiver
  | drain
  | releaseDrained
  | drainEnds
  | closes

namespace World

variable {T : Type} (world : World T)

/-- `channel`. -/
def new (limits : Limits) : World T where
  accounting := Accounting.new limits
  channel := Channel.new limits.items
  reserving := none
  permits := []
  sending := []
  returning := 0
  leases := []
  receiver := .alive
  history := ⟨[], [], [], []⟩

def release (id : Nat) : World T :=
  { world with
    accounting := world.accounting.release id
    history := { world.history with
      released := world.history.released ++
        ((world.accounting.entries.get id).map fun bytes => (id, bytes)).toList } }

/-- The part of `try_reserve` before the channel's slot is asked for. -/
def tryReserve (bytes : Nat) : World T × Option ReserveError :=
  if world.channel.closed then
    ({ world with accounting := world.accounting.refuse .closed }, some .closed)
  else if world.accounting.limits.items ≤ world.accounting.entries.entries.length ∨
      world.accounting.limits.bytes - world.accounting.bytes < bytes then
    ({ world with accounting := world.accounting.refuse .full }, some .full)
  else
    let (id, accounting) := world.accounting.reserve bytes
    ({ world with
      accounting
      reserving := some (id, bytes)
      history := { world.history with reserved := world.history.reserved ++ [(id, bytes)] } }, none)

/-- The part of `try_reserve` that asks for the slot and gives the lock back. -/
def tryReserveOwned (reservation : Reservation) : World T × Except ReserveError Reservation :=
  match world.channel.tryReserveOwned with
  | .ok channel =>
    ({ world with channel, reserving := none, permits := world.permits ++ [reservation] },
      .ok reservation)
  | .error error =>
    let released := { world with reserving := none }.release reservation.1
    ({ released with accounting := released.accounting.refuse error }, .error error)

/-- The part of `Permit::send` that fills the channel's slot. -/
def send (permit : Reservation) (value : T) : World T :=
  { world with
    permits := world.permits.erase permit
    sending := world.sending ++ [permit.1]
    channel := world.channel.send ⟨permit, value⟩
    history := { world.history with sent := world.history.sent ++ [value] } }

/-- The rest of `Permit::send`: a send into a closed channel is released. -/
def sendReturns (id : Nat) : World T :=
  let returned := { world with sending := world.sending.erase id }
  if world.channel.closed then
    { returned with
      channel := { world.channel with thrown := world.channel.thrown.eraseP (·.1 = id) } }.release id
  else returned

def dropPermit (permit : Reservation) : World T :=
  { world with permits := world.permits.erase permit, returning := world.returning + 1 }.release permit.1

def recvLease : World T :=
  match world.channel.queue with
  | [] => world
  | entry :: rest =>
    { world with
      channel := world.channel.taken rest
      leases := world.leases ++ [entry]
      history := { world.history with received := world.history.received ++ [entry.value] } }

/-- What `into_inner` and dropping a lease both do. -/
def endLease (lease : Reservation) : World T :=
  { world with leases := world.leases.eraseP (·.reservation = lease) }.release lease.1

/-- One turn of the loop that empties the channel. -/
def drain : World T :=
  match world.channel.queue with
  | [] => world
  | entry :: rest =>
    { world with
      channel := world.channel.taken rest
      receiver := .draining (some entry.reservation) }

def step (action : Action T) : World T :=
  match action with
  | .tryReserve bytes => if world.reserving = none then (world.tryReserve bytes).1 else world
  | .tryReserveOwned =>
    match world.reserving with
    | some reservation => (world.tryReserveOwned reservation).1
    | none => world
  | .send permit value => if permit ∈ world.permits then world.send permit value else world
  | .sendReturns id =>
    if id ∈ world.sending ∧ (world.channel.closed = true → world.reserving = none) then
      world.sendReturns id
    else world
  | .dropPermit permit =>
    if permit ∈ world.permits ∧ world.reserving = none then world.dropPermit permit else world
  | .returnSlot =>
    match world.returning with
    | 0 => world
    | returning + 1 =>
      { world with returning, channel := { world.channel with slots := world.channel.slots + 1 } }
  | .recvLease => if world.receiver = .alive then world.recvLease else world
  | .intoInner lease | .dropLease lease =>
    if lease ∈ world.leases.map (·.reservation) ∧ world.reserving = none then world.endLease lease
    else world
  | .dropReceiver =>
    if world.receiver = .alive then { world with receiver := .draining none } else world
  | .drain => if world.receiver = .draining none then world.drain else world
  | .releaseDrained =>
    match world.receiver with
    | .draining (some reservation) =>
      if world.reserving = none then { world with receiver := .draining none }.release reservation.1
      else world
    | _ => world
  | .drainEnds =>
    if world.receiver = .draining none ∧ world.channel.queue.isEmpty then
      { world with receiver := .drained }
    else world
  | .closes =>
    if world.receiver = .drained then
      { world with receiver := .gone, channel := world.channel.close }
    else world

def run (actions : List (Action T)) : World T := Runs.run step world actions

end World

end NanoStacks.Queue
