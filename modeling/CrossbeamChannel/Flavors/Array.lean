import CrossbeamChannel.Lib.Threads
import Mathlib.Algebra.Group.Nat.Defs

/-!
# The array flavor, one atomic step at a time (`src/flavors/array.rs`)

The words of one `Channel`, and every function that touches them without the wakers:
`start_send`, `write`, `start_recv`, `read`, `len`, `is_empty`, `is_full`,
`is_disconnected` and the flag swap of `disconnect`; and `Drop`, which has the channel for
itself. A thread inside one of the others is at a *program counter* `Pc`, which names the
next access to shared memory and carries the local variables that are still needed;
`Channel.step` performs that one access. A result pc (`sent`, `full`, `received`, …) says
what the call returned; `sent` and `received` are also the states in which the thread holds
the token for the following `write` or `read`.

Two things are not modelled and do not matter here: `Backoff::spin`, which only burns time,
and the calls of `write` and `read` into the wakers, which touch none of these words.

Stamps are natural numbers. `Channel.wrap` is the modulus of the stamp arithmetic: `none`
for counters that never wrap, `some (2 ^ w)` for `w`-bit words.
-/

namespace CrossbeamChannel.ArrayFlavor

variable {Tid T : Type}

/-- A slot in a channel. -/
structure Slot (T : Type) where
  /-- The current stamp. -/
  stamp : Nat
  /-- The message in this slot; `none` while the cell is uninitialised or read out. -/
  msg : Option T

/-- The token type for the array flavor. A null `slot` is `none`; otherwise it is the
    position of the slot in the buffer. -/
structure ArrayToken where
  slot : Option Nat
  stamp : Nat
  deriving DecidableEq

/-- The token `start_send` and `start_recv` leave behind on a disconnected channel. -/
def ArrayToken.null : ArrayToken := ⟨none, 0⟩

/-- The words of a bounded channel. -/
structure Channel (T : Type) where
  head : Nat
  tail : Nat
  buffer : Nat → Slot T
  cap : Nat
  /-- A stamp with the value of `{ lap: 1, index: 0 }`. -/
  oneLap : Nat
  isDisconnected : Bool
  /-- The modulus of the stamp arithmetic, if it has one. -/
  wrap : Option Nat

/-- `usize::next_power_of_two`: the smallest power of two at or above `n`. -/
def nextPowerOfTwo (n : Nat) : Nat := if n ≤ 1 then 1 else 2 ^ ((n - 1).log2 + 1)

namespace Channel

variable (ch : Channel T)

def wrappingAdd (a b : Nat) : Nat :=
  match ch.wrap with
  | none => a + b
  | some m => (a + b) % m

def wrappingMul (a b : Nat) : Nat :=
  match ch.wrap with
  | none => a * b
  | some m => (a * b) % m

/-- `with_capacity`: `none` is the panic of one of the two assertions. -/
def withCapacity (maxValue : Nat) (wrap : Option Nat) (cap : Nat) : Option (Channel T) :=
  if cap > 0 then
    if cap ≤ maxValue / 4 then
      some
        { head := nextPowerOfTwo cap
          tail := 0
          buffer := fun i => ⟨i, none⟩
          cap := cap
          oneLap := nextPowerOfTwo cap
          isDisconnected := false
          wrap := wrap }
    else none
  else none

/-- `stamp & (one_lap - 1)` -/
def index (stamp : Nat) : Nat := stamp &&& (ch.oneLap - 1)

/-- `stamp & !(one_lap - 1)` -/
def lap (stamp : Nat) : Nat := stamp - ch.index stamp

/-- The stamp after `stamp`, as both `start_send` and `start_recv` compute it: same lap and
    incremented index, or two laps forward and index zero. -/
def advance (stamp : Nat) : Nat :=
  if ch.index stamp + 1 < ch.cap then stamp + 1
  else ch.wrappingAdd (ch.lap stamp) (ch.wrappingMul ch.oneLap 2)

/-- The value `len` computes from one consistent pair of loads. -/
def lenOf (tail head : Nat) : Nat :=
  let hix := ch.index head
  let tix := ch.index tail
  if hix < tix then tix - hix
  else if hix > tix then ch.cap - hix + tix
  else if ch.wrappingAdd tail ch.oneLap = head then 0
  else ch.cap

/-- The index of the `i`-th slot that `drop` visits. -/
def dropIndex (i : Nat) : Nat :=
  let hix := ch.index ch.head
  if hix + i < ch.cap then hix + i else hix + i - ch.cap

/-- What the slots hold that `drop` drops in place, one after the other. Nobody else is
    there any more, so its `len` sees the tail it has loaded. -/
def drop : List (Option T) :=
  (List.range (ch.lenOf ch.tail ch.head)).map fun i => (ch.buffer (ch.dropIndex i)).msg

def setStamp (i stamp : Nat) : Channel T :=
  { ch with buffer := Function.update ch.buffer i { ch.buffer i with stamp := stamp } }

def setMsg (i : Nat) (m : Option T) : Channel T :=
  { ch with buffer := Function.update ch.buffer i { ch.buffer i with msg := m } }

end Channel

/-- Where a thread stands in its current call. -/
inductive Pc (T : Type) where
  /-- Outside every call, holding no token. -/
  | idle
  -- start_send
  | sendDisconnected
  | sendTail
  | sendStamp (tail : Nat)
  | sendCas (tail stamp : Nat)
  | sendHead (tail : Nat)
  /-- `start_send` returned `true` with this token. -/
  | sent (token : ArrayToken)
  /-- `start_send` returned `false`. -/
  | full
  -- write
  | writeMsg (slot stamp : Nat) (msg : T)
  | writeStamp (slot stamp : Nat)
  | written
  | writeErr (msg : T)
  -- start_recv
  | recvHead
  | recvStamp (head : Nat)
  | recvCas (head stamp : Nat)
  | recvTail (head : Nat)
  | recvDisconnected (head tail : Nat)
  | recvTailAgain (head tail : Nat)
  /-- `start_recv` returned `true` with this token. -/
  | received (token : ArrayToken)
  /-- `start_recv` returned `false`. -/
  | empty
  -- read
  | readMsg (slot stamp : Nat)
  | readStamp (slot stamp : Nat) (msg : Option T)
  | readOk (msg : Option T)
  | readErr
  -- is_empty, is_full, len, is_disconnected
  | emptyHead
  | emptyTail (head : Nat)
  | isEmpty (res : Bool)
  | fullTail
  | fullHead (tail : Nat)
  | isFull (res : Bool)
  | lenTail
  | lenHead (tail : Nat)
  | lenTailAgain (tail head : Nat)
  | len (res : Nat)
  | disconnectedLoad
  | isDisconnected (res : Bool)
  -- disconnect: the swap of the flag
  | disconnectSwap
  | swapped (before : Bool)

/-- What a step did, for the history. -/
inductive Event (T : Type) where
  | silent
  /-- A successful tail CAS. -/
  | tailCas
  /-- The message written into the slot. -/
  | put (msg : T)
  /-- The stamp stored after writing. -/
  | publish
  /-- A successful head CAS. -/
  | headCas
  /-- What the message cell held when it was read. -/
  | got (msg : Option T)
  /-- The stamp stored after reading. -/
  | release

/-- One access to shared memory by a thread at this pc. `spurious` lets a
    `compare_exchange_weak` fail although the value matches. `none`: the pc is not inside a
    call. -/
def Channel.step (ch : Channel T) (spurious : Bool) :
    Pc T → Option (Channel T × Pc T × Event T)
  | .sendDisconnected =>
      if ch.isDisconnected then some (ch, .sent .null, .silent)
      else some (ch, .sendTail, .silent)
  | .sendTail => some (ch, .sendStamp ch.tail, .silent)
  | .sendStamp tail =>
      let stamp := (ch.buffer (ch.index tail)).stamp
      if tail = stamp then some (ch, .sendCas tail stamp, .silent)
      else if ch.wrappingAdd stamp ch.oneLap = tail then some (ch, .sendHead tail, .silent)
      else some (ch, .sendTail, .silent)
  | .sendCas tail stamp =>
      if ch.tail = tail ∧ spurious = false then
        some ({ ch with tail := ch.advance tail },
          .sent ⟨some (ch.index tail), ch.wrappingAdd stamp ch.oneLap⟩, .tailCas)
      else some (ch, .sendTail, .silent)
  | .sendHead tail =>
      if ch.wrappingAdd ch.head ch.oneLap = tail then some (ch, .full, .silent)
      else some (ch, .sendTail, .silent)
  | .writeMsg slot stamp msg =>
      some (ch.setMsg slot (some msg), .writeStamp slot stamp, .put msg)
  | .writeStamp slot stamp => some (ch.setStamp slot stamp, .written, .publish)
  | .recvHead => some (ch, .recvStamp ch.head, .silent)
  | .recvStamp head =>
      let stamp := (ch.buffer (ch.index head)).stamp
      if head = stamp then some (ch, .recvCas head stamp, .silent)
      else if ch.wrappingAdd stamp ch.oneLap = head then some (ch, .recvTail head, .silent)
      else some (ch, .recvHead, .silent)
  | .recvCas head stamp =>
      if ch.head = head ∧ spurious = false then
        some ({ ch with head := ch.advance head },
          .received ⟨some (ch.index head), ch.wrappingAdd stamp ch.oneLap⟩, .headCas)
      else some (ch, .recvHead, .silent)
  | .recvTail head =>
      if ch.wrappingAdd ch.tail ch.oneLap = head then
        some (ch, .recvDisconnected head ch.tail, .silent)
      else some (ch, .recvHead, .silent)
  | .recvDisconnected head tail =>
      if ch.isDisconnected then some (ch, .recvTailAgain head tail, .silent)
      else some (ch, .empty, .silent)
  | .recvTailAgain _ tail =>
      if ch.tail = tail then some (ch, .received .null, .silent)
      else some (ch, .recvHead, .silent)
  | .readMsg slot stamp =>
      some (ch.setMsg slot none, .readStamp slot stamp (ch.buffer slot).msg,
        .got (ch.buffer slot).msg)
  | .readStamp slot stamp msg => some (ch.setStamp slot stamp, .readOk msg, .release)
  | .emptyHead => some (ch, .emptyTail ch.head, .silent)
  | .emptyTail head =>
      some (ch, .isEmpty (ch.wrappingAdd ch.tail ch.oneLap = head), .silent)
  | .fullTail => some (ch, .fullHead ch.tail, .silent)
  | .fullHead tail =>
      some (ch, .isFull (ch.wrappingAdd ch.head ch.oneLap = tail), .silent)
  | .lenTail => some (ch, .lenHead ch.tail, .silent)
  | .lenHead tail => some (ch, .lenTailAgain tail ch.head, .silent)
  | .lenTailAgain tail head =>
      if ch.tail = tail then some (ch, .len (ch.lenOf tail head), .silent)
      else some (ch, .lenTail, .silent)
  | .disconnectedLoad => some (ch, .isDisconnected ch.isDisconnected, .silent)
  | .disconnectSwap =>
      some ({ ch with isDisconnected := true }, .swapped ch.isDisconnected, .silent)
  | _ => none

/-- The calls a thread may make, and the return from one. -/
inductive Call (T : Type) where
  | startSend
  | write (msg : T)
  | startRecv
  | read
  | isEmpty
  | isFull
  | len
  | isDisconnected
  | disconnect
  | ret

/-- Entering a call, or taking its result. `write` and `read` need the token the preceding
    `start_send` or `start_recv` left; with a null token they return at once. -/
def Pc.call : Pc T → Call T → Option (Pc T)
  | .idle, .startSend => some .sendDisconnected
  | .idle, .startRecv => some .recvHead
  | .idle, .isEmpty => some .emptyHead
  | .idle, .isFull => some .fullTail
  | .idle, .len => some .lenTail
  | .idle, .isDisconnected => some .disconnectedLoad
  | .idle, .disconnect => some .disconnectSwap
  | .sent ⟨some slot, stamp⟩, .write msg => some (.writeMsg slot stamp msg)
  | .sent ⟨none, _⟩, .write msg => some (.writeErr msg)
  | .received ⟨some slot, stamp⟩, .read => some (.readMsg slot stamp)
  | .received ⟨none, _⟩, .read => some .readErr
  | .full, .ret => some .idle
  | .written, .ret => some .idle
  | .writeErr _, .ret => some .idle
  | .empty, .ret => some .idle
  | .readOk _, .ret => some .idle
  | .readErr, .ret => some .idle
  | .isEmpty _, .ret => some .idle
  | .isFull _, .ret => some .idle
  | .len _, .ret => some .idle
  | .isDisconnected _, .ret => some .idle
  | .swapped _, .ret => some .idle
  | _, _ => none

/-- How far the position taken by some tail CAS has come. -/
inductive Stage (Tid : Type) where
  | vacant
  | reserved (t : Tid)
  | stored (t : Tid)
  | published
  | claimed (t : Tid)
  | taken (t : Tid)
  | released

/-- History variables: they record what happened and influence no step. Positions count the
    successful tail CASes (and the successful head CASes) from zero. -/
structure History (Tid T : Type) where
  /-- How many tail CASes succeeded. -/
  sends : Nat
  /-- How many head CASes succeeded. -/
  recvs : Nat
  /-- The position a thread's last successful CAS took. -/
  ticket : Tid → Nat
  /-- The message written for the `k`-th tail CAS. -/
  put : Nat → Option T
  /-- The message read for the `k`-th head CAS. -/
  got : Nat → Option T
  stage : Nat → Stage Tid

variable [DecidableEq Tid]

def History.empty : History Tid T where
  sends := 0
  recvs := 0
  ticket := fun _ => 0
  put := fun _ => none
  got := fun _ => none
  stage := fun _ => .vacant

def History.record (h : History Tid T) (t : Tid) : Event T → History Tid T
  | .silent => h
  | .tailCas =>
      { h with
        sends := h.sends + 1
        ticket := Function.update h.ticket t h.sends
        stage := Function.update h.stage h.sends (.reserved t) }
  | .put msg =>
      { h with
        put := Function.update h.put (h.ticket t) (some msg)
        stage := Function.update h.stage (h.ticket t) (.stored t) }
  | .publish => { h with stage := Function.update h.stage (h.ticket t) .published }
  | .headCas =>
      { h with
        recvs := h.recvs + 1
        ticket := Function.update h.ticket t h.recvs
        stage := Function.update h.stage h.recvs (.claimed t) }
  | .got msg =>
      { h with
        got := Function.update h.got (h.ticket t) msg
        stage := Function.update h.stage (h.ticket t) (.taken t) }
  | .release => { h with stage := Function.update h.stage (h.ticket t) .released }

/-- One channel, the threads using it, and the history. -/
abbrev State (Tid T : Type) := Lib.Threads Tid (Channel T) (Pc T) (History Tid T)

abbrev Label (Tid T : Type) := Lib.Move Tid (Call T)

def program : Lib.Program Tid (Channel T) (Pc T) (Call T) (Event T) (History Tid T) where
  call := Pc.call
  access := Channel.step
  record := History.record

/-- A new channel, no thread in a call. -/
def State.init (ch : Channel T) : State Tid T where
  chan := ch
  pc := fun _ => .idle
  hist := .empty

/-- **The machine**: any number of threads, each making any calls in any order, one atomic
    step at a time, on one channel. -/
def system (ch : Channel T) : Lib.System (State Tid T) (Label Tid T) :=
  program.system (State.init ch)

end CrossbeamChannel.ArrayFlavor
