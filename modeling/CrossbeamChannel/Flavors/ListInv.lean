import CrossbeamChannel.Lib.Tickets
import CrossbeamChannel.Flavors.List
import Mathlib.Tactic.Common

/-!
# The invariant of the list flavor

The blocks form one chain: block `b` is the `b`-th block ever linked, it starts at
`b * BLOCK_CAP` and its next block is `b + 1` once that exists. Index and block of an end
move separately, so the block of an end may lag behind its index, but by no more than one
block (`headLow`, `headHigh`, `tailLow`, `tailHigh`). No relation is claimed between the two
blocks: the head may leave a block before the tail does.

Every index has a sender's stage and a receiver's stage. They are independent, up to one
rule: what has been taken was ready.
-/

namespace CrossbeamChannel.ListFlavor

variable {Tid T : Type}

/-! ## Stages in order -/

def SendStage.rank : SendStage Tid → Nat
  | .vacant => 0
  | .reserved _ => 1
  | .stored _ => 2
  | .ready => 3

def RecvStage.rank : RecvStage Tid → Nat
  | .vacant => 0
  | .claimed _ => 1
  | .taken => 2

/-- The sender that has to move the index on. -/
def SendStage.owner : SendStage Tid → Option Tid
  | .reserved t | .stored t => some t
  | _ => none

/-- The receiver that has to move the index on. -/
def RecvStage.owner : RecvStage Tid → Option Tid
  | .claimed t => some t
  | _ => none

@[simp] theorem SendStage.rank_vacant : (SendStage.vacant : SendStage Tid).rank = 0 := rfl
@[simp] theorem SendStage.rank_reserved (t : Tid) : (SendStage.reserved t).rank = 1 := rfl
@[simp] theorem SendStage.rank_stored (t : Tid) : (SendStage.stored t).rank = 2 := rfl
@[simp] theorem SendStage.rank_ready : (SendStage.ready : SendStage Tid).rank = 3 := rfl
@[simp] theorem RecvStage.rank_vacant : (RecvStage.vacant : RecvStage Tid).rank = 0 := rfl
@[simp] theorem RecvStage.rank_claimed (t : Tid) : (RecvStage.claimed t).rank = 1 := rfl
@[simp] theorem RecvStage.rank_taken : (RecvStage.taken : RecvStage Tid).rank = 2 := rfl

/-- The stage of the index a thread still has to write to. -/
def Pc.sendStage (t : Tid) : Pc T → Option (SendStage Tid)
  | .sendNext _ (some _) | .sendBlockCas _ _ (some _) | .sent (some _) | .writeMsg _ _ _ =>
      some (.reserved t)
  | .writeReady _ _ => some (.stored t)
  | _ => none

/-- The stage of the index a thread still has to read from. -/
def Pc.recvStage (t : Tid) : Pc T → Option (RecvStage Tid)
  | .recvNext _ (some _) | .recvBlockCas _ _ (some _) | .recvDestroy _ _ | .received (some _)
  | .readReady _ _ | .readMsg _ _ => some (.claimed t)
  | _ => none

/-- The block a thread is going to hand to `defer_destroy`. -/
def Pc.retiring : Pc T → Option Nat
  | .recvNext b (some _) | .recvBlockCas b _ (some _) | .recvDestroy b _ => some b
  | _ => none

namespace History

variable (h : History Tid T)

abbrev sendRank (k : Nat) : Nat := (h.sendStage k).rank

abbrev recvRank (k : Nat) : Nat := (h.recvStage k).rank

/-- What the slot of index `k` holds. -/
def view (k : Nat) : Slot T where
  msg := if 2 ≤ h.sendRank k ∧ h.recvRank k < 2 then h.put k else none
  ready := decide (h.sendRank k = 3)

/-- The slot `offset` of block `b` is the one thread `t` took with its last index CAS. -/
def At (t : Tid) (b offset : Nat) : Prop :=
  offset < blockCap ∧ h.ticket t = blockCap * b + offset

end History

/-- The thread took the last slot of block `b` with its last index CAS, if it says so. -/
def History.Last (h : History Tid T) (t : Tid) (b : Nat) (slot : Option Nat) : Prop :=
  ∀ offset, slot = some offset → offset + 1 = blockCap ∧ h.At t b offset

/-- What a thread's local variables are known to satisfy, whatever the others do. -/
def PcOk (s : State Tid T) (t : Tid) : Pc T → Prop
  | .sendIndex b => b ≤ s.chan.tail.block
  | .sendCas b index offset =>
      b ≤ s.chan.tail.block ∧ offset < blockCap ∧ index = blockCap * b + offset
  | .sendNext b slot =>
      b ≤ s.chan.tail.block ∧ blockCap * (b + 1) ≤ s.hist.sends ∧ s.hist.Last t b slot
  | .sendBlockCas b next slot =>
      b ≤ s.chan.tail.block ∧ blockCap * (b + 1) ≤ s.hist.sends ∧ s.hist.Last t b slot ∧
        next = b + 1 ∧ b + 1 < s.chan.fresh
  | .sent (some (b, offset)) | .writeMsg b offset _ | .writeReady b offset =>
      b < s.chan.fresh ∧ s.hist.At t b offset
  | .recvIndex b => b ≤ s.chan.head.block
  | .recvReady b index offset | .recvTail b index offset =>
      b ≤ s.chan.head.block ∧ offset < blockCap ∧ index = blockCap * b + offset ∧
        index ≤ s.hist.recvs
  | .recvDisconnected b index offset tail | .recvTailAgain b index offset tail =>
      b ≤ s.chan.head.block ∧ offset < blockCap ∧ index = blockCap * b + offset ∧
        index ≤ s.hist.recvs ∧ tail = index
  | .recvCas b index offset =>
      b ≤ s.chan.head.block ∧ offset < blockCap ∧ index = blockCap * b + offset ∧
        index < s.hist.sends
  | .recvNext b slot =>
      b ≤ s.chan.head.block ∧ blockCap * (b + 1) ≤ s.hist.recvs ∧ s.hist.Last t b slot
  | .recvBlockCas b next slot =>
      b ≤ s.chan.head.block ∧ blockCap * (b + 1) ≤ s.hist.recvs ∧ s.hist.Last t b slot ∧
        next = b + 1 ∧ b + 1 < s.chan.fresh
  | .recvDestroy b offset =>
      b < s.chan.head.block ∧ s.hist.Last t b (some offset)
  | .received (some (b, offset)) | .readReady b offset =>
      b < s.chan.fresh ∧ s.hist.At t b offset
  | .readMsg b offset =>
      b < s.chan.fresh ∧ s.hist.At t b offset ∧ s.hist.sendRank (s.hist.ticket t) = 3
  | .readOk msg => s.hist.got (s.hist.ticket t) = msg ∧ s.hist.recvRank (s.hist.ticket t) = 2
  | .emptyTail head => head ≤ s.hist.recvs
  | _ => True

/-- `s'` is what thread `t` may find after steps of other threads from `s`. -/
structure Le (t : Tid) (s s' : State Tid T) : Prop where
  tailBlock : s.chan.tail.block ≤ s'.chan.tail.block
  headBlock : s.chan.head.block ≤ s'.chan.head.block
  fresh : s.chan.fresh ≤ s'.chan.fresh
  sends : s.hist.sends ≤ s'.hist.sends
  recvs : s.hist.recvs ≤ s'.hist.recvs
  ticket : s'.hist.ticket t = s.hist.ticket t
  ready : ∀ k, s.hist.sendRank k = 3 → s'.hist.sendRank k = 3
  taken : ∀ k, s.hist.recvRank k = 2 → s'.hist.recvRank k = 2 ∧ s'.hist.got k = s.hist.got k

section

variable {t : Tid} {s s' : State Tid T} {b offset : Nat} {slot : Option Nat}

theorem Le.at (hle : Le t s s') (h : s.hist.At t b offset) : s'.hist.At t b offset :=
  ⟨h.1, hle.ticket.trans h.2⟩

theorem Le.last (hle : Le t s s') (h : s.hist.Last t b slot) : s'.hist.Last t b slot :=
  fun offset ho => ⟨(h offset ho).1, hle.at (h offset ho).2⟩

/-- **Loaded values only go stale in the harmless direction.** -/
theorem PcOk.mono (hle : Le t s s') {pc : Pc T} (hp : PcOk s t pc) : PcOk s' t pc := by
  have htail := hle.tailBlock
  have hhead := hle.headBlock
  have hfresh := hle.fresh
  have hsends := hle.sends
  have hrecvs := hle.recvs
  cases pc with
  | sendIndex b => exact Nat.le_trans hp htail
  | sendCas b index offset => exact ⟨Nat.le_trans hp.1 htail, hp.2⟩
  | sendNext b slot =>
    obtain ⟨h1, h2, h3⟩ := hp
    exact ⟨by omega, by omega, hle.last h3⟩
  | sendBlockCas b next slot =>
    obtain ⟨h1, h2, h3, h4, h5⟩ := hp
    exact ⟨by omega, by omega, hle.last h3, h4, by omega⟩
  | sent token | received token =>
    obtain _ | ⟨b, offset⟩ := token
    · trivial
    · exact ⟨Nat.lt_of_lt_of_le hp.1 hfresh, hle.at hp.2⟩
  | writeMsg b offset msg | writeReady b offset | readReady b offset =>
    exact ⟨Nat.lt_of_lt_of_le hp.1 hfresh, hle.at hp.2⟩
  | recvIndex b => exact Nat.le_trans hp hhead
  | recvReady b index offset | recvTail b index offset =>
    obtain ⟨h1, h2, h3, h4⟩ := hp
    exact ⟨by omega, h2, h3, by omega⟩
  | recvDisconnected b index offset tail | recvTailAgain b index offset tail =>
    obtain ⟨h1, h2, h3, h4, h5⟩ := hp
    exact ⟨by omega, h2, h3, by omega, h5⟩
  | recvCas b index offset =>
    obtain ⟨h1, h2, h3, h4⟩ := hp
    exact ⟨by omega, h2, h3, by omega⟩
  | recvNext b slot =>
    obtain ⟨h1, h2, h3⟩ := hp
    exact ⟨by omega, by omega, hle.last h3⟩
  | recvBlockCas b next slot =>
    obtain ⟨h1, h2, h3, h4, h5⟩ := hp
    exact ⟨by omega, by omega, hle.last h3, h4, by omega⟩
  | recvDestroy b offset => exact ⟨Nat.lt_of_lt_of_le hp.1 hhead, hle.last hp.2⟩
  | readMsg b offset =>
    obtain ⟨h1, h2, h3⟩ := hp
    exact ⟨by omega, hle.at h2, by rw [hle.ticket]; exact hle.ready _ h3⟩
  | readOk msg =>
    obtain ⟨hg, hr⟩ := hp
    obtain ⟨hr', hg'⟩ := hle.taken _ hr
    exact ⟨by rw [hle.ticket, hg']; exact hg, by rw [hle.ticket]; exact hr'⟩
  | emptyTail head => exact Nat.le_trans hp hrecvs
  | _ => trivial

end

/-- The blocks form one chain. -/
structure Chain (ch : Channel T) : Prop where
  start : ∀ b, b < ch.fresh → (ch.heap b).startIndex = blockCap * b
  next : ∀ b, b < ch.fresh → (ch.heap b).next = if b + 1 < ch.fresh then some (b + 1) else none
  headBlock : ch.head.block < ch.fresh
  tailBlock : ch.tail.block < ch.fresh

/-- Where the two ends are. -/
structure Ends (ch : Channel T) (h : History Tid T) : Prop where
  headIndex : ch.head.index = h.recvs
  tailIndex : ch.tail.index = h.sends
  headLow : blockCap * ch.head.block ≤ h.recvs
  headHigh : h.recvs ≤ blockCap * (ch.head.block + 1)
  tailLow : blockCap * ch.tail.block ≤ h.sends
  tailHigh : h.sends ≤ blockCap * (ch.tail.block + 1)
  ordered : h.recvs ≤ h.sends

/-- The counts and the messages follow from the stages. -/
structure Stages (h : History Tid T) : Prop where
  sends : ∀ k, k < h.sends ↔ 1 ≤ h.sendRank k
  recvs : ∀ k, k < h.recvs ↔ 1 ≤ h.recvRank k
  /-- A receiver waits until the message is ready. -/
  ready : ∀ k, h.recvRank k = 2 → h.sendRank k = 3
  put : ∀ k, (h.put k).isSome ↔ 2 ≤ h.sendRank k
  got : ∀ k, h.got k = if h.recvRank k = 2 then h.put k else none

/-- Who has left which block. -/
structure Retired (ch : Channel T) (h : History Tid T) : Prop where
  /-- The blocks the tail has left are the ones a sender tried to move it away from. -/
  moved : ∀ b, h.moved b = true ↔ b < ch.tail.block
  /-- The head has left every block handed to `defer_destroy`. -/
  destroyed : ∀ b, b ∈ h.destroyed → b < ch.head.block
  once : h.destroyed.Nodup

/-- **The invariant.** -/
structure Inv (s : State Tid T) : Prop where
  chain : Chain s.chan
  ends : Ends s.chan s.hist
  stages : Stages s.hist
  slot : ∀ b offset, b < s.chan.fresh → offset < blockCap →
    (s.chan.heap b).slots offset = s.hist.view (blockCap * b + offset)
  /-- Every unfinished send and every unfinished receive is in the hands of its thread. -/
  senders : Lib.Tickets SendStage.owner s.hist.sendStage s.hist.ticket
    fun t => (s.pc t).sendStage t
  receivers : Lib.Tickets RecvStage.owner s.hist.recvStage s.hist.ticket
    fun t => (s.pc t).recvStage t
  retired : Retired s.chan s.hist
  retiring : ∀ t b, (s.pc t).retiring = some b → b ∉ s.hist.destroyed
  pcs : ∀ t, PcOk s t (s.pc t)

end CrossbeamChannel.ListFlavor
