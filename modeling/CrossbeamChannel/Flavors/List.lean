import CrossbeamChannel.Lib.Threads

/-!
# The list flavor, one atomic step at a time (`src/flavors/list.rs`)

The words of one unbounded `Channel` and every function that touches them without the
waker: `start_send`, `write`, `start_recv`, `read`, `len`, `is_empty`, `is_full`,
`is_disconnected` and the flag swap of `disconnect`; and `Drop`, which has the channel for
itself. As for the array flavor, a thread inside one of them is at a program counter that
names the next access to shared memory.

The heap is a map from addresses to blocks. `Owned::new(Block::new(…))` is allocated by the
`compare_and_set` that publishes it: a block that loses this race is dropped by the very
call that made it and nobody ever sees it. Addresses are not used twice: a thread that
still knows the address of a block is pinned, so the block is not reclaimed under it.

Indices are natural numbers, so `wrapping_sub` is a subtraction that may fail: a
difference below zero would be a number far above `BLOCK_CAP`, which neither branch of the
loops takes (`Block.offset`).
-/

namespace CrossbeamChannel.ListFlavor

variable {Tid T : Type}

/-- The maximum number of messages a block can hold. -/
def blockCap : Nat := 32

/-- A slot in a block. -/
structure Slot (T : Type) where
  /-- The message; `none` while the cell is uninitialised or read out. -/
  msg : Option T
  /-- Equals `true` if the message is ready for reading. -/
  ready : Bool

/-- A block in a linked list. -/
structure Block (T : Type) where
  startIndex : Nat
  /-- The address of the next block; `none` is the null pointer. -/
  next : Option Nat
  slots : Nat → Slot T

/-- `Block::new` -/
def Block.new (startIndex : Nat) : Block T := ⟨startIndex, none, fun _ => ⟨none, false⟩⟩

/-- `index.wrapping_sub(start_index)` -/
def Block.offset (b : Block T) (index : Nat) : Option Nat :=
  if b.startIndex ≤ index then some (index - b.startIndex) else none

/-- Position in the channel. -/
structure Position where
  index : Nat
  /-- The address of a block. -/
  block : Nat

/-- The token type for the list flavor: the block and the offset of a slot, or null. The
    guard it also carries only keeps that block alive. -/
abbrev ListToken := Option (Nat × Nat)

/-- The words of an unbounded channel. -/
structure Channel (T : Type) where
  head : Position
  tail : Position
  heap : Nat → Block T
  /-- The first address that was never used. -/
  fresh : Nat
  isDisconnected : Bool

namespace Channel

/-- `Channel::new` -/
def new : Channel T where
  head := ⟨0, 0⟩
  tail := ⟨0, 0⟩
  heap := fun _ => .new 0
  fresh := 1
  isDisconnected := false

/-- `is_full`: an unbounded channel is never full. -/
def isFull (_ : Channel T) : Bool := false

variable (ch : Channel T)

def setSlot (block offset : Nat) (s : Slot T) : Channel T :=
  let b := ch.heap block
  { ch with
    heap := Function.update ch.heap block
      { b with slots := Function.update b.slots offset s } }

/-- The first `compare_and_set` of `install_next_block`: links a new block behind `block`
    unless one is linked, and returns the block that is linked afterwards. -/
def linkNext (block : Nat) : Channel T × Nat :=
  let b := ch.heap block
  match b.next with
  | some next => (ch, next)
  | none =>
      ({ ch with
          heap := Function.update
            (Function.update ch.heap block { b with next := some ch.fresh })
            ch.fresh (.new (b.startIndex + blockCap))
          fresh := ch.fresh + 1 },
        ch.fresh)

/-- The second `compare_and_set` of `install_next_block` in `start_send`. -/
def casTailBlock (block next : Nat) : Channel T :=
  if ch.tail.block = block then { ch with tail := { ch.tail with block := next } } else ch

/-- The second `compare_and_set` of `install_next_block` in `start_recv`. -/
def casHeadBlock (block next : Nat) : Channel T :=
  if ch.head.block = block then { ch with head := { ch.head with block := next } } else ch

end Channel

/-- What `drop` has done so far. -/
structure Dropped (T : Type) where
  /-- What the slots held that were dropped, in order. -/
  msgs : List (Option T)
  /-- The blocks that were freed, in order. -/
  freed : List Nat

/-- The loop of `drop`, with indices modulo `m` and at most `fuel` iterations; the result is
    the block it ends at. `none`: the loop does not end, or a null pointer is dereferenced, or
    an offset is out of bounds. -/
def Channel.dropLoop (ch : Channel T) (m tailIndex : Nat) :
    Nat → Nat → Option Nat → Dropped T → Option (Option Nat × Dropped T)
  | 0, headIndex, headPtr, acc => if headIndex = tailIndex then some (headPtr, acc) else none
  | fuel + 1, headIndex, headPtr, acc =>
      if headIndex = tailIndex then some (headPtr, acc)
      else
        match headPtr with
        | none => none
        | some block =>
            let head := ch.heap block
            let offset := (headIndex + m - head.startIndex % m) % m
            if offset < blockCap then
              let msgs := acc.msgs ++ [(head.slots offset).msg]
              if offset + 1 = blockCap then
                ch.dropLoop m tailIndex fuel ((headIndex + 1) % m) head.next
                  ⟨msgs, acc.freed ++ [block]⟩
              else ch.dropLoop m tailIndex fuel ((headIndex + 1) % m) (some block) ⟨msgs, acc.freed⟩
            else none

/-- `drop`: if there is one last remaining block in the end, it is freed. -/
def Channel.drop (ch : Channel T) (m fuel : Nat) : Option (Dropped T) :=
  (ch.dropLoop m (ch.tail.index % m) fuel (ch.head.index % m) (some ch.head.block) ⟨[], []⟩).map
    fun r => ⟨r.2.msgs, r.2.freed ++ r.1.toList⟩

/-- Where a thread stands in its current call. In `install_next_block`, `slot` is the offset
    the thread has just reserved, and `none` when it only helps. -/
inductive Pc (T : Type) where
  /-- Outside every call, holding no token. -/
  | idle
  -- start_send
  | sendDisconnected
  | sendBlock
  | sendIndex (block : Nat)
  | sendCas (block index offset : Nat)
  | sendNext (block : Nat) (slot : Option Nat)
  | sendBlockCas (block next : Nat) (slot : Option Nat)
  /-- `start_send` returned `true` with this token. -/
  | sent (token : ListToken)
  -- write
  | writeMsg (block offset : Nat) (msg : T)
  | writeReady (block offset : Nat)
  | written
  | writeErr (msg : T)
  -- start_recv
  | recvBlock
  | recvIndex (block : Nat)
  | recvReady (block index offset : Nat)
  | recvTail (block index offset : Nat)
  | recvDisconnected (block index offset tail : Nat)
  | recvTailAgain (block index offset tail : Nat)
  | recvCas (block index offset : Nat)
  | recvNext (block : Nat) (slot : Option Nat)
  | recvBlockCas (block next : Nat) (slot : Option Nat)
  | recvDestroy (block offset : Nat)
  /-- `start_recv` returned `true` with this token. -/
  | received (token : ListToken)
  /-- `start_recv` returned `false`. -/
  | empty
  -- read
  | readReady (block offset : Nat)
  | readMsg (block offset : Nat)
  | readOk (msg : Option T)
  | readErr
  -- is_empty, len, is_disconnected
  | emptyHead
  | emptyTail (head : Nat)
  | isEmpty (res : Bool)
  | lenTail
  | lenHead (tail : Nat)
  | lenTailAgain (tail head : Nat)
  | len (res : Nat)
  | disconnectedLoad
  | isDisconnected (res : Bool)
  -- disconnect: the swap of the flag
  | disconnectSwap
  | swapped (before : Bool)

/-- What a step did, for the history. -/
inductive Event (T : Type) where
  | silent
  /-- A successful tail-index CAS. -/
  | tailCas
  /-- The message written into the slot. -/
  | put (msg : T)
  /-- The ready flag set after writing. -/
  | publish
  /-- A successful head-index CAS. -/
  | headCas
  /-- What the message cell held when it was read. -/
  | got (msg : Option T)
  /-- A tail-block `compare_and_set` away from this block, successful or not. -/
  | tailBlockCas (block : Nat)
  /-- The block handed to `defer_destroy`. -/
  | destroy (block : Nat)

/-- Where the loop of `start_send` goes after loading the block and the index. -/
def sendBranch (b : Block T) (block index : Nat) : Pc T :=
  match b.offset index with
  | some offset =>
      if offset < blockCap then .sendCas block index offset
      else if offset = blockCap then .sendNext block none
      else .sendBlock
  | none => .sendBlock

/-- Where the loop of `start_recv` goes after loading the block and the index. -/
def recvBranch (b : Block T) (block index : Nat) : Pc T :=
  match b.offset index with
  | some offset =>
      if offset < blockCap then .recvReady block index offset
      else if offset = blockCap then .recvNext block none
      else .recvBlock
  | none => .recvBlock

/-- After a successful tail-index CAS: if this was the last slot in the block, install a new
    block. -/
def sendReserved (block offset : Nat) : Pc T :=
  if offset + 1 = blockCap then .sendNext block (some offset) else .sent (some (block, offset))

/-- After a successful head-index CAS: if this was the last slot in the block, install a new
    block and destroy the old one. -/
def recvClaimed (block offset : Nat) : Pc T :=
  if offset + 1 = blockCap then .recvNext block (some offset)
  else .received (some (block, offset))

/-- Where `start_send` goes after `install_next_block`. -/
def sendInstalled (block : Nat) : Option Nat → Pc T
  | some offset => .sent (some (block, offset))
  | none => .sendBlock

/-- Where `start_recv` goes after `install_next_block`. -/
def recvInstalled (block : Nat) : Option Nat → Pc T
  | some offset => .recvDestroy block offset
  | none => .recvBlock

/-- One access to shared memory by a thread at this pc. `spurious` lets a
    `compare_exchange_weak` fail although the value matches. `none`: the pc is not inside a
    call. -/
def Channel.step (ch : Channel T) (spurious : Bool) :
    Pc T → Option (Channel T × Pc T × Event T)
  | .sendDisconnected =>
      if ch.isDisconnected then some (ch, .sent none, .silent)
      else some (ch, .sendBlock, .silent)
  | .sendBlock => some (ch, .sendIndex ch.tail.block, .silent)
  | .sendIndex block => some (ch, sendBranch (ch.heap block) block ch.tail.index, .silent)
  | .sendCas block index offset =>
      if ch.tail.index = index ∧ spurious = false then
        some ({ ch with tail := { ch.tail with index := index + 1 } },
          sendReserved block offset, .tailCas)
      else some (ch, .sendBlock, .silent)
  | .sendNext block slot =>
      some ((ch.linkNext block).1, .sendBlockCas block (ch.linkNext block).2 slot, .silent)
  | .sendBlockCas block next slot =>
      some (ch.casTailBlock block next, sendInstalled block slot, .tailBlockCas block)
  | .writeMsg block offset msg =>
      some (ch.setSlot block offset { (ch.heap block).slots offset with msg := some msg },
        .writeReady block offset, .put msg)
  | .writeReady block offset =>
      some (ch.setSlot block offset { (ch.heap block).slots offset with ready := true },
        .written, .publish)
  | .recvBlock => some (ch, .recvIndex ch.head.block, .silent)
  | .recvIndex block => some (ch, recvBranch (ch.heap block) block ch.head.index, .silent)
  | .recvReady block index offset =>
      if ((ch.heap block).slots offset).ready then some (ch, .recvCas block index offset, .silent)
      else some (ch, .recvTail block index offset, .silent)
  | .recvTail block index offset =>
      if ch.tail.index = index then
        some (ch, .recvDisconnected block index offset ch.tail.index, .silent)
      else some (ch, .recvCas block index offset, .silent)
  | .recvDisconnected block index offset tail =>
      if ch.isDisconnected then some (ch, .recvTailAgain block index offset tail, .silent)
      else some (ch, .empty, .silent)
  | .recvTailAgain block index offset tail =>
      if ch.tail.index = tail then some (ch, .received none, .silent)
      else some (ch, .recvCas block index offset, .silent)
  | .recvCas block index offset =>
      if ch.head.index = index ∧ spurious = false then
        some ({ ch with head := { ch.head with index := index + 1 } },
          recvClaimed block offset, .headCas)
      else some (ch, .recvBlock, .silent)
  | .recvNext block slot =>
      some ((ch.linkNext block).1, .recvBlockCas block (ch.linkNext block).2 slot, .silent)
  | .recvBlockCas block next slot =>
      some (ch.casHeadBlock block next, recvInstalled block slot, .silent)
  | .recvDestroy block offset => some (ch, .received (some (block, offset)), .destroy block)
  | .readReady block offset =>
      if ((ch.heap block).slots offset).ready then some (ch, .readMsg block offset, .silent)
      else some (ch, .readReady block offset, .silent)
  | .readMsg block offset =>
      let slot := (ch.heap block).slots offset
      some (ch.setSlot block offset { slot with msg := none }, .readOk slot.msg, .got slot.msg)
  | .emptyHead => some (ch, .emptyTail ch.head.index, .silent)
  | .emptyTail head => some (ch, .isEmpty (head = ch.tail.index), .silent)
  | .lenTail => some (ch, .lenHead ch.tail.index, .silent)
  | .lenHead tail => some (ch, .lenTailAgain tail ch.head.index, .silent)
  | .lenTailAgain tail head =>
      if ch.tail.index = tail then some (ch, .len (tail - head), .silent)
      else some (ch, .lenTail, .silent)
  | .disconnectedLoad => some (ch, .isDisconnected ch.isDisconnected, .silent)
  | .disconnectSwap =>
      some ({ ch with isDisconnected := true }, .swapped ch.isDisconnected, .silent)
  | _ => none

theorem Channel.step_put {ch ch' : Channel T} {spurious : Bool} {pc pc' : Pc T} {m : T}
    (h : ch.step spurious pc = some (ch', pc', .put m)) : ∃ b offset, pc = .writeMsg b offset m := by
  cases pc with
  | writeMsg b offset msg =>
    simp only [Channel.step, Option.some.injEq, Prod.mk.injEq, Event.put.injEq] at h
    exact ⟨b, offset, by rw [h.2.2]⟩
  | _ =>
    simp only [Channel.step] at h
    repeat' split at h
    all_goals simp at h

theorem Channel.step_got {ch ch' : Channel T} {spurious : Bool} {pc pc' : Pc T} {msg : Option T}
    (h : ch.step spurious pc = some (ch', pc', .got msg)) :
    ∃ b offset, pc = .readMsg b offset ∧ msg = ((ch.heap b).slots offset).msg := by
  cases pc with
  | readMsg b offset =>
    simp only [Channel.step, Option.some.injEq, Prod.mk.injEq, Event.got.injEq] at h
    exact ⟨b, offset, rfl, h.2.2.symm⟩
  | _ =>
    simp only [Channel.step] at h
    repeat' split at h
    all_goals simp at h

/-- The calls a thread may make, and the return from one. `is_full` is the constant `false`
    and `capacity` the constant `None`. -/
inductive Call (T : Type) where
  | startSend
  | write (msg : T)
  | startRecv
  | read
  | isEmpty
  | len
  | isDisconnected
  | disconnect
  | ret

/-- Entering a call, or taking its result. `write` and `read` need the token the preceding
    `start_send` or `start_recv` left; with a null token they return at once. -/
def Pc.call : Pc T → Call T → Option (Pc T)
  | .idle, .startSend => some .sendDisconnected
  | .idle, .startRecv => some .recvBlock
  | .idle, .isEmpty => some .emptyHead
  | .idle, .len => some .lenTail
  | .idle, .isDisconnected => some .disconnectedLoad
  | .idle, .disconnect => some .disconnectSwap
  | .sent (some (block, offset)), .write msg => some (.writeMsg block offset msg)
  | .sent none, .write msg => some (.writeErr msg)
  | .received (some (block, offset)), .read => some (.readReady block offset)
  | .received none, .read => some .readErr
  | .written, .ret => some .idle
  | .writeErr _, .ret => some .idle
  | .empty, .ret => some .idle
  | .readOk _, .ret => some .idle
  | .readErr, .ret => some .idle
  | .isEmpty _, .ret => some .idle
  | .len _, .ret => some .idle
  | .isDisconnected _, .ret => some .idle
  | .swapped _, .ret => some .idle
  | _, _ => none

/-- How far the sender of an index has come. -/
inductive SendStage (Tid : Type) where
  | vacant
  | reserved (t : Tid)
  | stored (t : Tid)
  | ready

/-- How far the receiver of an index has come. It may overtake the sender: an index is
    claimed as soon as it is reserved. -/
inductive RecvStage (Tid : Type) where
  | vacant
  | claimed (t : Tid)
  | taken

/-- History variables: they record what happened and influence no step. -/
structure History (Tid T : Type) where
  /-- How many tail-index CASes succeeded. -/
  sends : Nat
  /-- How many head-index CASes succeeded. -/
  recvs : Nat
  /-- The number of a thread's last successful index CAS, counted from zero. -/
  ticket : Tid → Nat
  /-- The message written for the `k`-th tail CAS. -/
  put : Nat → Option T
  /-- The message read for the `k`-th head CAS. -/
  got : Nat → Option T
  sendStage : Nat → SendStage Tid
  recvStage : Nat → RecvStage Tid
  /-- The blocks some `start_send` has tried to move `tail.block` away from. -/
  moved : Nat → Bool
  /-- The blocks handed to `defer_destroy`, latest first. -/
  destroyed : List Nat

variable [DecidableEq Tid]

def History.empty : History Tid T where
  sends := 0
  recvs := 0
  ticket := fun _ => 0
  put := fun _ => none
  got := fun _ => none
  sendStage := fun _ => .vacant
  recvStage := fun _ => .vacant
  moved := fun _ => false
  destroyed := []

def History.record (h : History Tid T) (t : Tid) : Event T → History Tid T
  | .silent => h
  | .tailCas =>
      { h with
        sends := h.sends + 1
        ticket := Function.update h.ticket t h.sends
        sendStage := Function.update h.sendStage h.sends (.reserved t) }
  | .put msg =>
      { h with
        put := Function.update h.put (h.ticket t) (some msg)
        sendStage := Function.update h.sendStage (h.ticket t) (.stored t) }
  | .publish => { h with sendStage := Function.update h.sendStage (h.ticket t) .ready }
  | .headCas =>
      { h with
        recvs := h.recvs + 1
        ticket := Function.update h.ticket t h.recvs
        recvStage := Function.update h.recvStage h.recvs (.claimed t) }
  | .got msg =>
      { h with
        got := Function.update h.got (h.ticket t) msg
        recvStage := Function.update h.recvStage (h.ticket t) .taken }
  | .tailBlockCas block => { h with moved := Function.update h.moved block true }
  | .destroy block => { h with destroyed := block :: h.destroyed }

/-- One channel, the threads using it, and the history. -/
abbrev State (Tid T : Type) := Lib.Threads Tid (Channel T) (Pc T) (History Tid T)

abbrev Label (Tid T : Type) := Lib.Move Tid (Call T)

def program : Lib.Program Tid (Channel T) (Pc T) (Call T) (Event T) (History Tid T) where
  call := Pc.call
  access := Channel.step
  record := History.record

/-- A new channel, no thread in a call. -/
def State.init : State Tid T where
  chan := .new
  pc := fun _ => .idle
  hist := .empty

/-- **The machine**: any number of threads, each making any calls in any order, one atomic
    step at a time, on one channel. -/
def system : Lib.System (State Tid T) (Label Tid T) :=
  program.system State.init

end CrossbeamChannel.ListFlavor
