import CrossbeamChannel.Flavors.Buffer

/-!
# Channels, and the functions that touch shared state

Any number of channels of all flavors, the contexts and wakers of the threads that block on
them, the packets of the zero flavor, the timers, the clock and the reference counts: the
shared state `Shared`. The functions of the crate that touch it are `Call`s. A call is
executed one atomic step at a time by `Shared.exec`; `Prog` says how far it has come where
one step is not enough (the functions of a buffered channel keep their place in the channel
itself). What a call does is the code of the flavor of its channel, from
`src/flavors/{array,list,zero,after,tick,never}.rs`, and of `src/waker.rs`,
`src/context.rs` and `src/utils.rs`.

Sections under a mutex are single steps (see `CrossbeamChannel.Waker`). `Instant::now` reads
`clock`, which time moves forward at will.

## Which call is which function

* `start` is `SelectHandle::try`: `start_send` and `start_recv` of the array and list flavors, the
  section at the beginning of `start_send` and `start_recv` of the zero flavor (`zero.rs` 117-129 and
  194-206), and `try_recv` of the timers. `retry` differs for the zero flavor only, where it goes on to
  offer a packet (`short_pause`), and `pair` is that section in `send` and `recv` (`zero.rs` 305-328).
* `register` is `SelectHandle::register`, and the `register` and the look behind it in the blocking
  phases (`array.rs` 390-395 and 449-454, `list.rs` 420-425), which are the same steps in the same order.
* `waitUntil` is `Context::wait_until` (`context.rs` 136-174) access by access, since other threads
  select the operation between any two of them. `wait_packet` and `wait_ready` are loops around one load.
* `wakeOne` and `unregister` of a `SyncWaker` look at the cached `len` first (`waker.rs` 202-224). The
  look and the section are two steps; whoever registers in between is missed, and the accounts of
  `World.Wakeups` have to answer for it.

A call that returns at once, without an effect, still is a step: nothing is known between two steps, so
an observation is always of one instant.
-/

namespace CrossbeamChannel

variable {Tid T : Type}

/-- The flavor of a channel, with what it was built from. -/
inductive Kind (T : Type) where
  | array (ch : ArrayFlavor.Channel T)
      (built : ∃ maxValue cap, ArrayFlavor.Channel.withCapacity maxValue none cap = some ch)
  | list
  | zero
  | after (deliveryTime : Nat)
  | tick (firstTick duration : Nat)
  | never

/-- There are no senders of a timer. -/
def Kind.HasSide : Kind T → Side → Bool
  | .array _ _, _ | .list, _ | .zero, _ => true
  | .after _, d | .tick _ _, d | .never, d => d = .recv

/-- What a successful attempt left in the `Token`. -/
inductive Token where
  /-- A slot of the array or list flavor, which `Buffer` keeps for the thread. -/
  | slot
  /-- A null pointer: the channel is disconnected. -/
  | null
  /-- The address of a packet. -/
  | packet (p : Nat)
  /-- The message of an `after` or `tick` channel. -/
  | instant (i : Nat)
  deriving DecidableEq

/-- A slot for passing one message from a sender to a receiver. -/
structure Packet (T : Type) where
  onStack : Bool
  /-- Equals `true` once the packet is ready for reading or writing. -/
  ready : Bool
  msg : Option T

/-- The state of a `tick` channel. -/
structure Tick where
  nextTick : Nat
  /-- The index of the next message to be received. -/
  index : Nat

/-- All wakers, with the cached lengths of the `SyncWaker`s, and all contexts. -/
structure Registry (Tid : Type) where
  waker : Nat → Side → Waker Tid
  len : Nat → Side → Nat
  cx : Tid → Context Tid

/-- What the threads share. -/
structure Shared (Tid T : Type) where
  /-- The array and list channels. -/
  buffer : Nat → Buffer Tid T
  reg : Registry Tid
  /-- `is_disconnected` of the zero channels. -/
  isDisconnected : Nat → Bool
  packet : Nat → Packet T
  /-- The first address at which there never was a packet. -/
  fresh : Nat
  /-- The `received` flag of the `after` channels. -/
  received : Nat → Bool
  tick : Nat → Tick
  clock : Nat

/-- The functions that touch shared state. -/
inductive Call (T : Type) where
  /-- Not in a call. -/
  | none
  /-- A step that touches no shared state. -/
  | skip
  -- `SelectHandle`
  /-- `try`, which is `start_send` or `start_recv` -/
  | start (c : Nat) (d : Side)
  /-- `retry` up to the short pause of the zero flavor -/
  | retry (c : Nat) (d : Side)
  /-- Registers, and then checks again whether the operation is ready. -/
  | register (c : Nat) (d : Side) (slot : Nat)
  | unregister (c : Nat) (d : Side) (slot : Nat)
  /-- Accepts an operation another thread has selected. -/
  | accept (c : Nat) (d : Side)
  | state (c : Nat) (d : Side)
  | deadline (c : Nat)
  -- array, list
  | write (c : Nat) (msg : T)
  | read (c : Nat)
  | wakeOne (c : Nat) (d : Side)
  /-- The swap of the flag in `disconnect`. -/
  | setDisconnected (c : Nat)
  /-- `SyncWaker::disconnect` -/
  | disconnectWaker (c : Nat) (d : Side)
  -- zero
  /-- The section at the start of every operation: pair up with a waiting partner, else see
      whether the channel is disconnected, else queue the packet that is offered. -/
  | pair (c : Nat) (d : Side) (offer : Option (Packet T))
  /-- `lock().unregister(oper)` -/
  | withdraw (c : Nat) (d : Side)
  | disconnectZero (c : Nat)
  | storeMsg (p : Nat) (msg : T)
  | setReady (p : Nat)
  | loadOnStack (p : Nat)
  | waitReady (p : Nat)
  | takeMsg (p : Nat)
  | dropPacket (p : Nat)
  -- `Context`
  | reset
  /-- `try_select(Selected::Aborted)`, with the state that results. -/
  | abort
  | selected
  | waitUntil (deadline : Option Nat)
  | waitPacket
  -- timers
  /-- `recv` of the after, tick and never flavors -/
  | recvTimer (c : Nat) (deadline : Option Nat)
  | now

/-- What a call returns. -/
inductive Ret (Tid T : Type) where
  | unit
  /-- `true`, with a token. -/
  | token (tk : Token)
  /-- `false`, or a timeout. -/
  | failed
  /-- No partner: the packet at this address was queued. -/
  | queued (p : Nat)
  | flag (b : Bool)
  | nat (n : Nat)
  | instant (i : Option Nat)
  | selected (sel : Selected Tid)
  | removed (e : Option (Entry Tid))
  | answer (a : Answer T)
  | msg (m : Option T)

/-- How far a call has come. -/
inductive Prog where
  | start
  /-- The cached length was not zero: take the mutex. -/
  | locked
  /-- Registered; `is_empty` or `is_full` is next. -/
  | checking
  /-- Not ready so far; `is_disconnected` is next. -/
  | connecting
  /-- The first loop of `wait_until`, with its `Backoff` counter. -/
  | spin (n : Nat)
  -- the second loop of `wait_until`
  | check
  | clock
  | park
  | abort
  -- `after`
  | now
  | swap
  | sleep
  | forever
  deriving DecidableEq

/-- One step of a call: the call goes on, or it returns. -/
inductive Reply (Tid T : Type) where
  | more (pr : Prog)
  | ret (r : Ret Tid T)

/-! ## Wakers and contexts -/

namespace Registry

variable [DecidableEq Tid] (r : Registry Tid)

/-- The end of a section under the mutex of a waker. -/
def setWaker (c : Nat) (d : Side) (w : Waker Tid) : Registry Tid :=
  { r with
    waker := Function.update r.waker c (Function.update (r.waker c) d w)
    len := Function.update r.len c (Function.update (r.len c) d w.entries.length) }

def register (c : Nat) (d : Side) (e : Entry Tid) : Registry Tid :=
  r.setWaker c d ((r.waker c d).register e)

def unregister (c : Nat) (d : Side) (op : Operation Tid) : Option (Entry Tid) × Registry Tid :=
  (((r.waker c d).unregister op).1, r.setWaker c d ((r.waker c d).unregister op).2)

def wakeOne (c : Nat) (d : Side) (me : Tid) : Option (Entry Tid) × Registry Tid :=
  (((r.waker c d).wakeOne r.cx me).1,
    { r.setWaker c d ((r.waker c d).wakeOne r.cx me).2 with
      cx := Waker.wakeContext r.cx ((r.waker c d).wakeOne r.cx me).1 })

def disconnect (c : Nat) (d : Side) : Registry Tid :=
  { r with cx := (r.waker c d).disconnect r.cx }

/-- `Context::reset` -/
def reset (t : Tid) : Registry Tid := { r with cx := Function.update r.cx t .fresh }

/-- `try_select(Selected::Aborted)` -/
def abort (t : Tid) : Registry Tid :=
  { r with cx := Function.update r.cx t ((r.cx t).trySelect .aborted) }

end Registry

/-! ## What a step does to the shared state -/

/-- The effect of one atomic step. -/
inductive Act (Tid T : Type) where
  | silent
  /-- A step of `k` on a buffered channel, which is `b` afterwards. -/
  | drive (c : Nat) (k : BufferCall T) (b : Buffer Tid T) (a : Option (Answer T))
  | setReceived (c : Nat)
  /-- The message of a `tick` channel is taken. -/
  | takeTick (c duration : Nat)
  -- sections under the mutex of a waker
  | register (c : Nat) (d : Side) (slot : Nat)
  | unregister (c : Nat) (d : Side) (slot : Nat)
  | wakeOne (c : Nat) (d : Side)
  | disconnect (c : Nat) (d : Side)
  -- sections under the mutex of a zero channel
  /-- `register` with an empty packet on the heap. -/
  | offer (c : Nat) (d : Side) (slot : Nat)
  /-- `Context::with`, and `register` with this packet. -/
  | queue (c : Nat) (d : Side) (v : Packet T)
  | disconnectZero (c : Nat)
  -- the thread's own context
  | reset
  | abort
  | setPacket (p : Nat) (v : Packet T)

/-- An empty packet on the heap. -/
def Packet.emptyOnHeap : Packet T := ⟨false, false, none⟩

namespace Shared

variable [DecidableEq Tid] (w : Shared Tid T) (t : Tid)

/-- A new packet. -/
def alloc (v : Packet T) : Shared Tid T :=
  { w with packet := Function.update w.packet w.fresh v, fresh := w.fresh + 1 }

/-- The state after a step of thread `t`. -/
def apply : Act Tid T → Shared Tid T
  | .silent => w
  | .drive c _ b _ => { w with buffer := Function.update w.buffer c b }
  | .setReceived c => { w with received := Function.update w.received c true }
  | .takeTick c duration =>
      { w with tick := Function.update w.tick c ⟨w.clock + duration, (w.tick c).index + 1⟩ }
  -- The buffered flavors pass no packet along.
  | .register c d slot => { w with reg := w.reg.register c d ⟨⟨t, slot⟩, none⟩ }
  | .unregister c d slot => { w with reg := (w.reg.unregister c d ⟨t, slot⟩).2 }
  | .wakeOne c d => { w with reg := (w.reg.wakeOne c d t).2 }
  | .disconnect c d => { w with reg := w.reg.disconnect c d }
  | .offer c d slot =>
      { w.alloc .emptyOnHeap with reg := w.reg.register c d ⟨⟨t, slot⟩, some w.fresh⟩ }
  | .queue c d v =>
      { w.alloc v with reg := (w.reg.reset t).register c d ⟨⟨t, 0⟩, some w.fresh⟩ }
  | .disconnectZero c =>
      { w with
        isDisconnected := Function.update w.isDisconnected c true
        reg := (w.reg.disconnect c .send).disconnect c .recv }
  | .reset => { w with reg := w.reg.reset t }
  | .abort => { w with reg := w.reg.abort t }
  | .setPacket p v => { w with packet := Function.update w.packet p v }

/-! ## One step of a call -/

/-- One step of a function of a buffered channel, in a call that goes on at `pr` until it has
    the answer. -/
def drive (c : Nat) (k : BufferCall T) (pr : Prog) (spurious : Bool) (f : Answer T → Reply Tid T) :
    Option (Act Tid T × Reply Tid T) :=
  ((w.buffer c).drive t k spurious).map fun r =>
    (.drive c k r.1 r.2,
      match r.2 with
      | some a => f a
      | none => .more pr)

/-- How `try` reports the answer of `start_send` or `start_recv`. -/
def started : Answer T → Reply Tid T
  | .granted => .ret (.token .slot)
  | .null => .ret (.token .null)
  | _ => .ret .failed

/-- What `is_disconnected` means for a registration. -/
def connected : Answer T → Reply Tid T
  | .flag b => .ret (.flag !b)
  | _ => .ret .failed

/-- What `is_empty` or `is_full` means for a registration. -/
def unready : Answer T → Reply Tid T
  | .flag true => .more .connecting
  | _ => .ret (.flag false)

/-- The section at the start of every operation of the zero flavor. A packet is offered from
    inside `Context::with`. -/
def pair (c : Nat) (d : Side) (offer : Option (Packet T)) : Act Tid T × Reply Tid T :=
  match (w.reg.wakeOne c d.opposite t).1 with
  | some e => (.wakeOne c d.opposite, .ret (.token ((e.packet.map .packet).getD .null)))
  | none =>
      -- The queue comes first: a select that has just registered waits in it, connected or not.
      if w.isDisconnected c then (.silent, .ret (.token .null))
      else
        match offer with
        | none => (.silent, .ret .failed)
        | some v => (.queue c d v, .ret (.queued w.fresh))

/-- `after::Channel::try_recv` -/
def tryAfter (c deliveryTime : Nat) : Prog → Option (Act Tid T × Reply Tid T)
  | .start => some (.silent, if w.received c then .ret .failed else .more .now)
  | .now => some (.silent, if w.clock < deliveryTime then .ret .failed else .more .swap)
  | .swap =>
      some (.setReceived c,
        .ret (if w.received c then .failed else .token (.instant deliveryTime)))
  | _ => none

/-- `tick::Channel::try_recv` -/
def tryTick (c duration : Nat) : Act Tid T × Reply Tid T :=
  if w.clock ≥ (w.tick c).nextTick then
    (.takeTick c duration, .ret (.token (.instant (w.tick c).nextTick)))
  else (.silent, .ret .failed)

/-- `SelectHandle::try` -/
def start (kind : Nat → Kind T) (c : Nat) (d : Side) (pr : Prog) (spurious : Bool) :
    Option (Act Tid T × Reply Tid T) :=
  match kind c with
  | .array _ _ | .list => w.drive t c (.start d) .start spurious started
  | .zero => some (w.pair t c d none)
  | .after deliveryTime => w.tryAfter c deliveryTime pr
  | .tick _ duration => some (w.tryTick c duration)
  | .never => some (.silent, .ret .failed)

/-- `SelectHandle::retry`: as `try`, but the zero flavor offers a packet. -/
def retry (kind : Nat → Kind T) (c : Nat) (d : Side) (pr : Prog) (spurious : Bool) :
    Option (Act Tid T × Reply Tid T) :=
  match kind c with
  | .zero => some (w.pair t c d (some .emptyOnHeap))
  | _ => w.start t kind c d pr spurious

/-- `register` of a buffered channel: put the entry into the queue, then look again whether
    the operation is ready. The blocking phases of `send` and `recv` do the same. -/
def registerBuffer (c : Nat) (d : Side) (slot : Nat) (pr : Prog) (spurious : Bool) :
    Option (Act Tid T × Reply Tid T) :=
  match pr with
  | .start => some (.register c d slot, .more .checking)
  | .checking => w.drive t c (.unavailable d) .checking spurious unready
  | .connecting => w.drive t c .isDisconnected .connecting spurious connected
  | _ => none

/-- `SelectHandle::register`: `true` if the operation is not ready. A list sender never
    blocks and registers nothing. -/
def register (kind : Nat → Kind T) (c : Nat) (d : Side) (slot : Nat) (pr : Prog) (spurious : Bool) :
    Option (Act Tid T × Reply Tid T) :=
  match kind c, d with
  | .list, .send => w.drive t c .isDisconnected .start spurious connected
  | .array _ _, _ | .list, .recv => w.registerBuffer t c d slot pr spurious
  | .zero, _ =>
      if pr = .start then
        some (.offer c d slot,
          .ret (.flag (!(w.reg.waker c d.opposite).canWakeOne w.reg.cx t && !w.isDisconnected c)))
      else none
  | .after _, _ | .tick _ _, _ | .never, _ => some (.silent, .ret (.flag true))

/-- `SyncWaker::unregister` -/
def unregisterSync (c : Nat) (d : Side) (slot : Nat) : Prog → Act Tid T × Reply Tid T
  | .locked =>
      (.unregister c d slot, .ret (.removed (w.reg.unregister c d ⟨t, slot⟩).1))
  | _ => (.silent, if w.reg.len c d = 0 then .ret (.removed none) else .more .locked)

/-- `SelectHandle::unregister`, and `SyncWaker::unregister` in the blocking phases. The zero
    flavor also drops the packet of the entry. -/
def unregister (kind : Nat → Kind T) (c : Nat) (d : Side) (slot : Nat) (pr : Prog) :
    Act Tid T × Reply Tid T :=
  match kind c, d with
  | .list, .send => (.silent, .ret (.removed none))
  | .array _ _, _ | .list, .recv => w.unregisterSync t c d slot pr
  | .zero, _ => (.unregister c d slot, .ret (.removed (w.reg.unregister c d ⟨t, slot⟩).1))
  | .after _, _ | .tick _ _, _ | .never, _ => (.silent, .ret (.removed none))

/-- `wait_packet` -/
def waitPacket : Act Tid T × Reply Tid T :=
  (.silent,
    match (w.reg.cx t).packet with
    | some p => .ret (.token (.packet p))
    | none => .more .start)

/-- `SelectHandle::accept` -/
def accept (kind : Nat → Kind T) (c : Nat) (d : Side) (pr : Prog) (spurious : Bool) :
    Option (Act Tid T × Reply Tid T) :=
  match kind c with
  | .zero => some (w.waitPacket t)
  | _ => w.start t kind c d pr spurious

/-- `SelectHandle::state` -/
def state (kind : Nat → Kind T) (c : Nat) (d : Side) (pr : Prog) : Reply Tid T :=
  match kind c with
  | .array _ _ | .list => .ret (.nat ((w.buffer c).state d))
  | .zero => .ret (.nat (w.reg.waker c d.opposite).registerCount)
  | .after deliveryTime =>
      if pr = .now then .ret (.nat (if w.clock < deliveryTime then 0 else 1))
      else if w.received c then .ret (.nat 1)
      else .more .now
  | .tick _ _ =>
      .ret (.nat (if w.clock < (w.tick c).nextTick then (w.tick c).index else (w.tick c).index + 1))
  | .never => .ret (.nat 0)

/-- `SelectHandle::deadline` -/
def deadline (kind : Nat → Kind T) (c : Nat) : Option Nat :=
  match kind c with
  | .after deliveryTime => some deliveryTime
  | .tick _ _ => some (w.tick c).nextTick
  | _ => none

/-- `sleep_until`, or the check of a deadline before sleeping again. `thread::sleep` may
    return at any time. -/
def orExpired (deadline : Option Nat) (pr : Prog) : Reply Tid T :=
  if deadline.any (· ≤ w.clock) then .ret .failed else .more pr

/-- `recv` of the after, tick and never flavors. -/
def recvTimer (kind : Nat → Kind T) (c : Nat) (deadline : Option Nat) (pr : Prog) :
    Option (Act Tid T × Reply Tid T) :=
  match kind c, pr with
  | .after _, .start => some (.silent, if w.received c then .more .sleep else .more .now)
  | .after deliveryTime, .now =>
      some (.silent, if w.clock ≥ deliveryTime then .more .swap else w.orExpired deadline .now)
  -- The deadline is not looked at any more (`after.rs` 92-100).
  | .after deliveryTime, .swap =>
      some (.setReceived c,
        if w.received c then .more .forever else .ret (.token (.instant deliveryTime)))
  | .after _, .sleep | .never, _ => some (.silent, w.orExpired deadline .sleep)
  | .after _, .forever => some (.silent, .more .forever)
  | .tick _ duration, _ =>
      some (if w.clock ≥ (w.tick c).nextTick then
          (.takeTick c duration, .ret (.token (.instant (w.tick c).nextTick)))
        else (.silent, w.orExpired deadline .start))
  | _, _ => none

/-- `try_select(Selected::Aborted)`, with the selection that results. -/
def abort : Act Tid T × Reply Tid T :=
  (.abort,
    .ret (.selected (if (w.reg.cx t).select = .waiting then .aborted else (w.reg.cx t).select)))

/-- A look at the context in `wait_until`: return what is selected, or go on at `pr`. -/
def orSelected (pr : Prog) : Reply Tid T :=
  if (w.reg.cx t).select = .waiting then .more pr else .ret (.selected (w.reg.cx t).select)

/-- `Context::wait_until` -/
def waitUntil (deadline : Option Nat) : Prog → Option (Act Tid T × Reply Tid T)
  | .start => some (.silent, w.orSelected t (.spin 1))
  | .spin n => some (.silent, w.orSelected t (if n < 10 then .spin (n + 1) else .check))
  | .check => some (.silent, w.orSelected t (if deadline.isSome then .clock else .park))
  | .clock => some (.silent, .more (if deadline.any (w.clock < ·) then .park else .abort))
  | .park => some (.silent, .more .check)
  | .abort => some (w.abort t)
  | _ => none

/-- `SyncWaker::wake_one` -/
def wakeOneSync (c : Nat) (d : Side) : Prog → Act Tid T × Reply Tid T
  | .locked => (.wakeOne c d, .ret .unit)
  | _ => (.silent, if w.reg.len c d = 0 then .ret .unit else .more .locked)

/-- **One atomic step of a call**: its effect, and whether the call goes on or returns. -/
def exec (kind : Nat → Kind T) (call : Call T) (pr : Prog) (spurious : Bool) :
    Option (Act Tid T × Reply Tid T) :=
  match call with
  | .none => none
  | .skip => some (.silent, .ret .unit)
  | .start c d => w.start t kind c d pr spurious
  | .retry c d => w.retry t kind c d pr spurious
  | .register c d slot => w.register t kind c d slot pr spurious
  | .unregister c d slot => some (w.unregister t kind c d slot pr)
  | .accept c d => w.accept t kind c d pr spurious
  | .state c d => some (.silent, w.state kind c d pr)
  | .deadline c => some (.silent, .ret (.instant (w.deadline kind c)))
  | .write c msg => w.drive t c (.write msg) .start spurious fun a => .ret (.answer a)
  | .read c => w.drive t c .read .start spurious fun a => .ret (.answer a)
  | .wakeOne c d => some (w.wakeOneSync c d pr)
  | .setDisconnected c => w.drive t c .disconnect .start spurious fun a => .ret (.answer a)
  | .disconnectWaker c d => some (.disconnect c d, .ret .unit)
  | .pair c d offer => some (w.pair t c d offer)
  | .withdraw c d => some (.unregister c d 0, .ret (.removed (w.reg.unregister c d ⟨t, 0⟩).1))
  | .disconnectZero c =>
      some (if w.isDisconnected c then .silent else .disconnectZero c, .ret .unit)
  | .storeMsg p msg => some (.setPacket p { w.packet p with msg := some msg }, .ret .unit)
  | .setReady p => some (.setPacket p { w.packet p with ready := true }, .ret .unit)
  | .loadOnStack p => some (.silent, .ret (.flag (w.packet p).onStack))
  | .waitReady p => some (.silent, if (w.packet p).ready then .ret .unit else .more .start)
  | .takeMsg p => some (.setPacket p { w.packet p with msg := none }, .ret (.msg (w.packet p).msg))
  | .dropPacket _ => some (.silent, .ret .unit)
  | .reset => some (.reset, .ret .unit)
  | .abort => some (w.abort t)
  | .selected => some (.silent, .ret (.selected (w.reg.cx t).select))
  | .waitUntil deadline => w.waitUntil t deadline pr
  | .waitPacket => some (w.waitPacket t)
  | .recvTimer c deadline => w.recvTimer kind c deadline pr
  | .now => some (.silent, .ret (.nat w.clock))

end Shared

end CrossbeamChannel
