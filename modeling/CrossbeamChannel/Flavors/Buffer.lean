import CrossbeamChannel.Waker
import CrossbeamChannel.Flavors.ArrayFifo
import CrossbeamChannel.Flavors.ListFifo

/-!
# What the array and the list flavor look like from outside

The code that blocks, selects and disconnects is the same for both buffered flavors and
never looks into a channel. It sees a `View`, how many messages were reserved and claimed
and whether the flag is set, and each thread has a `Phase`: how far its current call has
come, in terms of what that call will answer.

`Phase.Step` is the abstract channel: what one atomic step of a call may do to the view and
what it may conclude from it. `Buffer.run_step` connects it to the two machines below: every
atomic step of an array or a list channel is a step of the abstract channel, so a conclusion
such as "the channel is empty" is only drawn in a state in which it is true.
-/

namespace CrossbeamChannel

variable {Tid T : Type}

/-- The functions of `array::Channel` and `list::Channel` that touch no waker. -/
inductive BufferCall (T : Type) where
  /-- `start_send` or `start_recv` -/
  | start (d : Side)
  | write (msg : T)
  | read
  /-- `is_full` for a sender, `is_empty` for a receiver -/
  | unavailable (d : Side)
  | isDisconnected
  /-- The swap of the flag in `disconnect`. -/
  | disconnect

/-- What these functions return. -/
inductive Answer (T : Type) where
  /-- `true`, with a slot in the token. -/
  | granted
  /-- `true`, with a null token. -/
  | null
  /-- `false` -/
  | refused
  /-- `write` returned `Ok`. -/
  | written
  /-- `write` returned `Err`. -/
  | unsent (msg : T)
  /-- `read` returned `Ok`, with what the slot held. -/
  | got (msg : Option T)
  /-- `read` returned `Err`. -/
  | unread
  | flag (b : Bool)

/-- How far a thread's current call has come. -/
inductive Phase (T : Type) where
  /-- Outside every call, holding no token. -/
  | idle
  /-- `start_send` before it has loaded the flag. -/
  | fresh
  | trying (d : Side)
  /-- `start_recv` has found the channel empty and turns to the flag. -/
  | late
  /-- `start_recv` has found the channel empty and the flag set. -/
  | gone
  /-- The CAS succeeded, the call has not returned yet. -/
  | taken (d : Side)
  /-- The call returned `true` and left a slot in the token. -/
  | granted (d : Side)
  /-- The call returned `true` and left a null token. -/
  | null (d : Side)
  | refused (d : Side)
  /-- Inside `write` or `read`. -/
  | completing (d : Side)
  | written
  | unsent (msg : T)
  | got (msg : Option T)
  | unread
  | asking (d : Side)
  | answered (d : Side) (b : Bool)
  | loading
  | loaded (b : Bool)
  | swapping
  | swapped (b : Bool)
  /-- Inside `len`. -/
  | counting

/-- What can be seen of a channel. -/
structure View where
  sends : Nat
  recvs : Nat
  isDisconnected : Bool

/-- Counts one more reservation or one more claim. -/
def View.take (v : View) : Side → View
  | .send => { v with sends := v.sends + 1 }
  | .recv => { v with recvs := v.recvs + 1 }

/-- An operation on side `d` would have to wait, the flag aside. -/
def View.Unavailable (cap : Option Nat) (v : View) : Side → Prop
  | .send => ∃ n, cap = some n ∧ v.sends = v.recvs + n
  | .recv => v.sends = v.recvs

namespace Phase

/-- Entering a call, or completing one with the token of the preceding `start`. -/
def enter : Phase T → BufferCall T → Option (Phase T)
  | .idle, .start .send => some .fresh
  | .idle, .start .recv => some (.trying .recv)
  | .idle, .unavailable d => some (.asking d)
  | .idle, .isDisconnected => some .loading
  | .idle, .disconnect => some .swapping
  | .granted .send, .write _ => some (.completing .send)
  | .null .send, .write msg => some (.unsent msg)
  | .granted .recv, .read => some (.completing .recv)
  | .null .recv, .read => some .unread
  | _, _ => none

/-- What a call that has come this far returns. -/
def answer : Phase T → BufferCall T → Option (Answer T)
  | .granted _, .start _ => some .granted
  | .null _, .start _ => some .null
  | .refused _, .start _ => some .refused
  | .written, .write _ => some .written
  | .unsent msg, .write _ => some (.unsent msg)
  | .got msg, .read => some (.got msg)
  | .unread, .read => some .unread
  | .answered _ b, .unavailable _ => some (.flag b)
  | .loaded b, .isDisconnected => some (.flag b)
  | .swapped b, .disconnect => some (.flag b)
  | _, _ => none

/-- After the return: a token stays with the thread. -/
def leave : Phase T → Phase T
  | .granted d => .granted d
  | .null d => .null d
  | _ => .idle

/-- A thread that has come this far has found the flag set, or has set it. -/
def Closed : Phase T → Prop
  | .gone | .null _ | .unsent _ | .unread | .loaded true | .swapped _ => True
  | _ => False

/-- **The abstract channel.** One atomic step of a call. -/
inductive Step (cap : Option Nat) : View → Phase T → View → Phase T → Prop where
  | stay {v : View} {p : Phase T} : Step cap v p v p
  | connected {v : View} (h : v.isDisconnected = false) : Step cap v .fresh v (.trying .send)
  | closed {v : View} (h : v.isDisconnected = true) : Step cap v .fresh v (.null .send)
  | take {v : View} {d : Side} {p : Phase T} (h : p = .taken d ∨ p = .granted d) :
      Step cap v (.trying d) (v.take d) p
  | settle {v : View} {d : Side} : Step cap v (.taken d) v (.granted d)
  | full {v : View} (h : v.Unavailable cap .send) : Step cap v (.trying .send) v (.refused .send)
  | empty {v : View} (h : v.Unavailable cap .recv) : Step cap v (.trying .recv) v .late
  | refuse {v : View} (h : v.isDisconnected = false) : Step cap v .late v (.refused .recv)
  | gone {v : View} (h : v.isDisconnected = true) : Step cap v .late v .gone
  | null {v : View} (h : v.Unavailable cap .recv) : Step cap v .gone v (.null .recv)
  | retry {v : View} : Step cap v .gone v (.trying .recv)
  | wrote {v : View} : Step cap v (.completing .send) v .written
  | got {v : View} {msg : Option T} : Step cap v (.completing .recv) v (.got msg)
  | answer {v : View} {d : Side} {b : Bool} (h : b = true → v.Unavailable cap d) :
      Step cap v (.asking d) v (.answered d b)
  | loaded {v : View} : Step cap v .loading v (.loaded v.isDisconnected)
  | swapped {v : View} :
      Step cap v .swapping { v with isDisconnected := true } (.swapped v.isDisconnected)

end Phase

/-! ## The array flavor -/

namespace ArrayFlavor

/-- How far the call at this pc has come. -/
def Pc.phase : Pc T → Phase T
  | .idle => .idle
  | .sendDisconnected => .fresh
  | .sendTail | .sendStamp _ | .sendCas _ _ | .sendHead _ => .trying .send
  | .sent ⟨some _, _⟩ => .granted .send
  | .sent ⟨none, _⟩ => .null .send
  | .full => .refused .send
  | .writeMsg _ _ _ | .writeStamp _ _ => .completing .send
  | .written => .written
  | .writeErr msg => .unsent msg
  | .recvHead | .recvStamp _ | .recvCas _ _ | .recvTail _ => .trying .recv
  | .recvDisconnected _ _ => .late
  | .recvTailAgain _ _ => .gone
  | .received ⟨some _, _⟩ => .granted .recv
  | .received ⟨none, _⟩ => .null .recv
  | .empty => .refused .recv
  | .readMsg _ _ | .readStamp _ _ _ => .completing .recv
  | .readOk msg => .got msg
  | .readErr => .unread
  | .emptyHead | .emptyTail _ => .asking .recv
  | .isEmpty res => .answered .recv res
  | .fullTail | .fullHead _ => .asking .send
  | .isFull res => .answered .send res
  | .lenTail | .lenHead _ | .lenTailAgain _ _ | .len _ => .counting
  | .disconnectedLoad => .loading
  | .isDisconnected res => .loaded res
  | .disconnectSwap => .swapping
  | .swapped before => .swapped before

def State.view (s : State Tid T) : View := ⟨s.hist.sends, s.hist.recvs, s.chan.isDisconnected⟩

/-- `None` is `is_full`, which a receiver has no use for. -/
def Call.ofBuffer : BufferCall T → Call T
  | .start .send => .startSend
  | .start .recv => .startRecv
  | .write msg => .write msg
  | .read => .read
  | .unavailable .send => .isFull
  | .unavailable .recv => .isEmpty
  | .isDisconnected => .isDisconnected
  | .disconnect => .disconnect

theorem Pc.call_phase (pc : Pc T) (k : BufferCall T) :
    (pc.call (.ofBuffer k)).map Pc.phase = pc.phase.enter k := by
  cases pc with
  | sent token | received token =>
    obtain ⟨_ | i, stamp⟩ := token <;> rcases k with (_ | _) | _ | _ | (_ | _) | _ | _ <;> rfl
  | _ => rcases k with (_ | _) | _ | _ | (_ | _) | _ | _ <;> rfl

theorem Pc.ret_phase (pc : Pc T) {k : BufferCall T} {a : Answer T}
    (h : pc.phase.answer k = some a) : ((pc.call .ret).getD pc).phase = pc.phase.leave := by
  cases pc with
  | sent token | received token =>
    obtain ⟨_ | i, stamp⟩ := token <;> rfl
  | _ => rcases k with (_ | _) | _ | _ | (_ | _) | _ | _ <;> first | rfl | cases h

/-- A receiver that finds the tail unchanged after it has seen the flag sees an empty queue. -/
theorem Inv.empty_of_tailAgain {s : State Tid T} (hi : Inv s) {t : Tid} {head : Nat}
    (hpc : s.pc t = .recvTailAgain head s.chan.tail) : s.hist.sends = s.hist.recvs := by
  have hg := hi.geo
  obtain ⟨k, hk, -, heq⟩ : ∃ k, k ≤ s.hist.recvs ∧ head = headStamp s.chan.cap s.chan.oneLap k ∧
      s.chan.tail = tailStamp s.chan.cap s.chan.oneLap k := Inv.pc_eq hpc hi
  rw [hi.tail, tailStamp_inj hg.pos hg.le] at heq
  have := hi.recvs_le_sends
  omega

/-- `is_empty` says "empty" only of an empty queue. -/
theorem Inv.empty_of_emptyTail {s : State Tid T} (hi : Inv s) {t : Tid}
    (hpc : s.pc t = .emptyTail (s.chan.wrappingAdd s.chan.tail s.chan.oneLap)) :
    s.hist.sends = s.hist.recvs := by
  have hg := hi.geo
  obtain ⟨k, hk, heq⟩ : ∃ k, k ≤ s.hist.recvs ∧ _ = headStamp s.chan.cap s.chan.oneLap k :=
    Inv.pc_eq hpc hi
  rw [hg.wrappingAdd_eq, hi.tail, tailStamp_add_eq hg.pos hg.le] at heq
  have := hi.recvs_le_sends
  omega

/-- `is_full` says "full" only of a full queue. -/
theorem Inv.full_of_fullHead {s : State Tid T} (hi : Inv s) {t : Tid}
    (hpc : s.pc t = .fullHead (s.chan.wrappingAdd s.chan.head s.chan.oneLap)) :
    s.hist.sends = s.hist.recvs + s.chan.cap := by
  have hg := hi.geo
  obtain ⟨k, hk, heq⟩ : ∃ k, k ≤ s.hist.sends ∧ _ = tailStamp s.chan.cap s.chan.oneLap k :=
    Inv.pc_eq hpc hi
  rw [hg.wrappingAdd_eq, hi.head, headStamp_add_eq hg.pos hg.le] at heq
  have := hi.sends_le
  omega

variable [DecidableEq Tid]

/-- Every atomic step of an array channel is a step of the abstract channel. -/
theorem run_step {s s' : State Tid T} (hi : Inv s) {t : Tid} {spurious : Bool}
    (h : program.run s t spurious = some s') :
    Phase.Step (some s.chan.cap) s.view (s.pc t).phase s'.view (s'.pc t).phase := by
  obtain ⟨ch, pc, ev, hrun, rfl⟩ := Lib.Program.run_eq_some h
  change s.chan.step spurious (s.pc t) = some (ch, pc, ev) at hrun
  simp only [Function.update_self]
  generalize hpc : s.pc t = p at hrun
  cases p with
  | sendDisconnected =>
    simp only [Channel.step] at hrun
    split at hrun <;> cases hrun
    · rename_i hd
      exact .closed hd
    · rename_i hd
      exact .connected (Bool.eq_false_of_not_eq_true hd)
  | sendCas tail stamp =>
    simp only [Channel.step] at hrun
    split at hrun <;> cases hrun
    · exact .take (.inr rfl)
    · exact .stay
  | sendHead tail =>
    simp only [Channel.step] at hrun
    split at hrun <;> cases hrun
    · rename_i heq
      exact .full ⟨_, rfl, hi.full_of_head (heq ▸ hpc)⟩
    · exact .stay
  | recvCas head stamp =>
    simp only [Channel.step] at hrun
    split at hrun <;> cases hrun
    · exact .take (.inr rfl)
    · exact .stay
  | recvTail head =>
    simp only [Channel.step] at hrun
    split at hrun <;> cases hrun
    · rename_i heq
      exact .empty (hi.empty_of_tail (heq ▸ hpc))
    · exact .stay
  | recvDisconnected head tail =>
    simp only [Channel.step] at hrun
    split at hrun <;> cases hrun
    · rename_i hd
      exact .gone hd
    · rename_i hd
      exact .refuse (Bool.eq_false_of_not_eq_true hd)
  | recvTailAgain head tail =>
    simp only [Channel.step] at hrun
    split at hrun <;> cases hrun
    · rename_i heq
      exact .null (hi.empty_of_tailAgain (heq ▸ hpc))
    · exact .retry
  | writeStamp slot stamp =>
    cases hrun
    exact .wrote
  | readStamp slot stamp msg =>
    cases hrun
    exact .got
  | emptyTail head =>
    cases hrun
    refine .answer fun heq => ?_
    rw [decide_eq_true_eq] at heq
    exact hi.empty_of_emptyTail (heq ▸ hpc)
  | fullHead tail =>
    cases hrun
    refine .answer fun heq => ?_
    rw [decide_eq_true_eq] at heq
    exact ⟨_, rfl, hi.full_of_fullHead (heq ▸ hpc)⟩
  | disconnectedLoad =>
    cases hrun
    exact .loaded
  | disconnectSwap =>
    cases hrun
    exact .swapped
  | _ =>
    simp only [Channel.step] at hrun
    repeat' split at hrun
    all_goals cases hrun
    all_goals exact .stay

end ArrayFlavor

/-! ## The list flavor -/

namespace ListFlavor

/-- How far the call at this pc has come. -/
def Pc.phase : Pc T → Phase T
  | .idle => .idle
  | .sendDisconnected => .fresh
  | .sendBlock | .sendIndex _ | .sendCas _ _ _ => .trying .send
  | .sendNext _ none | .sendBlockCas _ _ none => .trying .send
  | .sendNext _ (some _) | .sendBlockCas _ _ (some _) => .taken .send
  | .sent (some _) => .granted .send
  | .sent none => .null .send
  | .writeMsg _ _ _ | .writeReady _ _ => .completing .send
  | .written => .written
  | .writeErr msg => .unsent msg
  | .recvBlock | .recvIndex _ | .recvReady _ _ _ | .recvTail _ _ _ | .recvCas _ _ _ => .trying .recv
  | .recvDisconnected _ _ _ _ => .late
  | .recvTailAgain _ _ _ _ => .gone
  | .recvNext _ none | .recvBlockCas _ _ none => .trying .recv
  | .recvNext _ (some _) | .recvBlockCas _ _ (some _) | .recvDestroy _ _ => .taken .recv
  | .received (some _) => .granted .recv
  | .received none => .null .recv
  | .empty => .refused .recv
  | .readReady _ _ | .readMsg _ _ => .completing .recv
  | .readOk msg => .got msg
  | .readErr => .unread
  | .emptyHead | .emptyTail _ => .asking .recv
  | .isEmpty res => .answered .recv res
  | .lenTail | .lenHead _ | .lenTailAgain _ _ | .len _ => .counting
  | .disconnectedLoad => .loading
  | .isDisconnected res => .loaded res
  | .disconnectSwap => .swapping
  | .swapped before => .swapped before

def State.view (s : State Tid T) : View := ⟨s.hist.sends, s.hist.recvs, s.chan.isDisconnected⟩

/-- A list channel has no `is_full` worth calling. -/
def Call.ofBuffer : BufferCall T → Option (Call T)
  | .start .send => some .startSend
  | .start .recv => some .startRecv
  | .write msg => some (.write msg)
  | .read => some .read
  | .unavailable .send => none
  | .unavailable .recv => some .isEmpty
  | .isDisconnected => some .isDisconnected
  | .disconnect => some .disconnect

theorem Pc.call_phase {pc pc' : Pc T} {k : BufferCall T}
    (h : ((Call.ofBuffer k).bind fun c => pc.call c) = some pc') :
    pc.phase.enter k = some pc'.phase := by
  cases pc with
  | sent token | received token | sendNext _ token | sendBlockCas _ _ token | recvNext _ token
  | recvBlockCas _ _ token =>
    cases token <;> rcases k with (_ | _) | _ | _ | (_ | _) | _ | _ <;> cases h <;> rfl
  | _ => rcases k with (_ | _) | _ | _ | (_ | _) | _ | _ <;> cases h <;> rfl

theorem Pc.ret_phase (pc : Pc T) {k : BufferCall T} {a : Answer T}
    (h : pc.phase.answer k = some a) : ((pc.call .ret).getD pc).phase = pc.phase.leave := by
  cases pc with
  | sent token | received token => cases token <;> rfl
  | sendNext _ token | sendBlockCas _ _ token | recvNext _ token | recvBlockCas _ _ token =>
    cases token <;> rcases k with (_ | _) | _ | _ | (_ | _) | _ | _ <;> cases h
  | _ => rcases k with (_ | _) | _ | _ | (_ | _) | _ | _ <;> first | rfl | cases h

/-- `is_empty` says "empty" only of an empty queue. -/
theorem Inv.empty_of_emptyTail {s : State Tid T} (hi : Inv s) {t : Tid}
    (hpc : s.pc t = .emptyTail s.chan.tail.index) : s.hist.sends = s.hist.recvs := by
  have hle : s.chan.tail.index ≤ s.hist.recvs := Inv.pc_eq hpc hi
  have h1 := hi.ends.tailIndex
  have h2 := hi.ends.ordered
  omega

theorem sendBranch_phase (b : Block T) (block index : Nat) :
    (sendBranch b block index).phase = .trying .send := by
  unfold sendBranch
  repeat' split
  all_goals rfl

theorem recvBranch_phase (b : Block T) (block index : Nat) :
    (recvBranch b block index).phase = .trying .recv := by
  unfold recvBranch
  repeat' split
  all_goals rfl

theorem view_congr {ch ch' : Channel T} {pc : Tid → Pc T} {h : History Tid T}
    (hd : ch'.isDisconnected = ch.isDisconnected) :
    (State.view ⟨ch', pc, h⟩ : View) = ⟨h.sends, h.recvs, ch.isDisconnected⟩ := by
  rw [State.view, hd]

theorem casTailBlock_isDisconnected (ch : Channel T) (b next : Nat) :
    (ch.casTailBlock b next).isDisconnected = ch.isDisconnected := by
  rw [Inv.casTailBlock_eq]

theorem casHeadBlock_isDisconnected (ch : Channel T) (b next : Nat) :
    (ch.casHeadBlock b next).isDisconnected = ch.isDisconnected := by
  rw [Inv.casHeadBlock_eq]

variable [DecidableEq Tid]

/-- Every atomic step of a list channel is a step of the abstract channel. -/
theorem run_step {s s' : State Tid T} (hi : Inv s) {t : Tid} {spurious : Bool}
    (h : program.run s t spurious = some s') :
    Phase.Step none s.view (s.pc t).phase s'.view (s'.pc t).phase := by
  obtain ⟨ch, pc, ev, hrun, rfl⟩ := Lib.Program.run_eq_some h
  change s.chan.step spurious (s.pc t) = some (ch, pc, ev) at hrun
  simp only [Function.update_self]
  generalize hpc : s.pc t = p at hrun
  cases p with
  | sendDisconnected =>
    simp only [Channel.step] at hrun
    split at hrun <;> cases hrun
    · rename_i hd
      exact .closed hd
    · rename_i hd
      exact .connected (Bool.eq_false_of_not_eq_true hd)
  | sendCas b index offset =>
    simp only [Channel.step] at hrun
    split at hrun <;> cases hrun
    · refine .take (d := .send) ?_
      unfold sendReserved
      split
      · exact .inl rfl
      · exact .inr rfl
    · exact .stay
  | recvCas b index offset =>
    simp only [Channel.step] at hrun
    split at hrun <;> cases hrun
    · refine .take (d := .recv) ?_
      unfold recvClaimed
      split
      · exact .inl rfl
      · exact .inr rfl
    · exact .stay
  | sendIndex b =>
    cases hrun
    rw [sendBranch_phase]
    exact .stay
  | recvIndex b =>
    cases hrun
    rw [recvBranch_phase]
    exact .stay
  | sendNext b slot | recvNext b slot =>
    cases hrun
    rw [view_congr (linkNext_isDisconnected _ _)]
    cases slot <;> exact .stay
  | sendBlockCas b next slot =>
    cases hrun
    rw [view_congr (casTailBlock_isDisconnected _ _ _)]
    cases slot
    · exact .stay
    · exact .settle
  | recvBlockCas b next slot =>
    cases hrun
    rw [view_congr (casHeadBlock_isDisconnected _ _ _)]
    cases slot <;> exact .stay
  | recvDestroy b offset =>
    cases hrun
    exact .settle
  | recvTail b index offset =>
    simp only [Channel.step] at hrun
    split at hrun <;> cases hrun
    · rename_i heq
      exact .empty (hi.empty_of_tail (heq ▸ hpc))
    · exact .stay
  | recvDisconnected b index offset tail =>
    simp only [Channel.step] at hrun
    split at hrun <;> cases hrun
    · rename_i hd
      exact .gone hd
    · rename_i hd
      exact .refuse (Bool.eq_false_of_not_eq_true hd)
  | recvTailAgain b index offset tail =>
    simp only [Channel.step] at hrun
    split at hrun <;> cases hrun
    · rename_i heq
      exact .null (hi.empty_of_tailAgain (heq ▸ hpc))
    · exact .retry
  | writeReady b offset =>
    cases hrun
    exact .wrote
  | readMsg b offset =>
    cases hrun
    exact .got
  | emptyTail head =>
    cases hrun
    refine .answer fun heq => ?_
    rw [decide_eq_true_eq] at heq
    exact hi.empty_of_emptyTail (heq ▸ hpc)
  | disconnectedLoad =>
    cases hrun
    exact .loaded
  | disconnectSwap =>
    cases hrun
    exact .swapped
  | _ =>
    simp only [Channel.step] at hrun
    repeat' split at hrun
    all_goals cases hrun
    all_goals exact .stay

end ListFlavor

/-! ## Both flavors at once -/

/-- A buffered channel with the threads inside its functions. -/
inductive Buffer (Tid T : Type) where
  | array (s : ArrayFlavor.State Tid T)
  | list (s : ListFlavor.State Tid T)

namespace Buffer

def cap : Buffer Tid T → Option Nat
  | .array s => some s.chan.cap
  | .list _ => none

def view : Buffer Tid T → View
  | .array s => s.view
  | .list s => s.view

def phase : Buffer Tid T → Tid → Phase T
  | .array s, t => (s.pc t).phase
  | .list s, t => (s.pc t).phase

/-- `state()`: where the opposite end of the channel is. -/
def state : Buffer Tid T → Side → Nat
  | .array s, .recv => s.chan.tail
  | .array s, .send => s.chan.head
  | .list s, .recv => s.chan.tail.index
  | .list s, .send => s.chan.head.index

variable [DecidableEq Tid]

/-- Thread `t` enters a call. -/
def enter (b : Buffer Tid T) (t : Tid) (k : BufferCall T) : Option (Buffer Tid T) :=
  match b with
  | .array s => (ArrayFlavor.program.enter s t (.ofBuffer k)).map .array
  | .list s =>
      (ListFlavor.Call.ofBuffer k).bind fun c => (ListFlavor.program.enter s t c).map .list

/-- Thread `t` takes one atomic step of the call it is in. -/
def run (b : Buffer Tid T) (t : Tid) (spurious : Bool) : Option (Buffer Tid T) :=
  match b with
  | .array s => (ArrayFlavor.program.run s t spurious).map .array
  | .list s => (ListFlavor.program.run s t spurious).map .list

/-- Thread `t` takes the result of its call; a token stays with it. -/
def leave (b : Buffer Tid T) (t : Tid) : Buffer Tid T :=
  match b with
  | .array s => .array ((ArrayFlavor.program.enter s t .ret).getD s)
  | .list s => .list ((ListFlavor.program.enter s t .ret).getD s)

/-- Thread `t`, which is to call `k`, does the next thing for it: enter, step, or return. -/
def drive (b : Buffer Tid T) (t : Tid) (k : BufferCall T) (spurious : Bool) :
    Option (Buffer Tid T × Option (Answer T)) :=
  match (b.phase t).answer k with
  | some a => some (b.leave t, some a)
  | none =>
      match b.enter t k with
      | some b' => some (b', none)
      | none => (b.run t spurious).map fun b' => (b', none)

/-- What holds of a channel in every reachable state. -/
def Ok : Buffer Tid T → Prop
  | .array s => ArrayFlavor.Inv s ∧ ∀ t, (s.pc t).phase.Closed → s.chan.isDisconnected = true
  | .list s => ListFlavor.Inv s ∧ ∀ t, (s.pc t).phase.Closed → s.chan.isDisconnected = true

end Buffer

/-- What thread `t` does to a channel in one step of the call `k`. -/
inductive Phase.Drive (cap : Option Nat) (k : BufferCall T) :
    View → Phase T → View → Phase T → Option (Answer T) → Prop where
  | enter {v : View} {p p' : Phase T} (h : p.enter k = some p') : Drive cap k v p v p' none
  | run {v v' : View} {p p' : Phase T} (h : Phase.Step cap v p v' p') : Drive cap k v p v' p' none
  | answer {v : View} {p : Phase T} {a : Answer T} (h : p.answer k = some a) :
      Drive cap k v p v p.leave (some a)

/-- `b'` is `b` after one step of thread `t`. -/
structure Buffer.Driven [DecidableEq Tid] (t : Tid) (k : BufferCall T) (b b' : Buffer Tid T)
    (r : Option (Answer T)) : Prop where
  ok : b'.Ok
  cap : b'.cap = b.cap
  others : ∀ u, u ≠ t → b'.phase u = b.phase u
  drive : Phase.Drive b.cap k b.view (b.phase t) b'.view (b'.phase t) r

namespace Buffer

variable [DecidableEq Tid] {b b' : Buffer Tid T} {t : Tid} {k : BufferCall T}

/-- The flag is never taken back, and found set only when it is. -/
theorem closed_step {cap : Option Nat} {v v' : View} {p p' : Phase T}
    (h : Phase.Step cap v p v' p') (hp : p.Closed → v.isDisconnected = true) :
    (v.isDisconnected = true → v'.isDisconnected = true) ∧
      (p'.Closed → v'.isDisconnected = true) := by
  cases h with
  | stay => exact ⟨id, hp⟩
  | gone h | closed h => exact ⟨id, fun _ => h⟩
  | null h => exact ⟨id, fun _ => hp trivial⟩
  | take h =>
    refine ⟨fun hv => ?_, fun hg => ?_⟩
    · rename_i d
      cases d <;> exact hv
    · rcases h with rfl | rfl <;> exact hg.elim
  | loaded =>
    refine ⟨id, fun hg => ?_⟩
    cases hv : v.isDisconnected with
    | true => rfl
    | false =>
      rw [hv] at hg
      exact hg.elim
  | swapped => exact ⟨fun _ => rfl, fun _ => rfl⟩
  | _ => exact ⟨id, fun hg => hg.elim⟩

theorem enter_closed {p p' : Phase T} (h : p.enter k = some p') (hp' : p'.Closed) : p.Closed := by
  unfold Phase.enter at h
  split at h <;> cases h <;> first | exact hp'.elim | trivial

theorem leave_closed {p : Phase T} (h : p.leave.Closed) : p.Closed := by
  cases p <;> first | exact h.elim | trivial

/-- One thread's phase changed. -/
theorem closed_update {f : Tid → Phase T} {p : Phase T} {v v' : Bool} (hv : v = true → v' = true)
    (hf : ∀ u, (f u).Closed → v = true) (hp : p.Closed → v' = true) :
    ∀ u, (Function.update f t p u).Closed → v' = true := by
  intro u hu
  by_cases hut : u = t
  · subst hut
    exact hp (by rwa [Function.update_self] at hu)
  · exact hv (hf u (by rwa [Function.update_of_ne hut] at hu))

theorem array_phase (s : ArrayFlavor.State Tid T) (ch : ArrayFlavor.Channel T)
    (pc : ArrayFlavor.Pc T) (h : ArrayFlavor.History Tid T) :
    (array ⟨ch, Function.update s.pc t pc, h⟩).phase =
      Function.update (array s).phase t pc.phase := by
  funext u
  by_cases hut : u = t
  · subst hut
    simp only [phase, Function.update_self]
  · simp only [phase, Function.update_of_ne hut]

theorem list_phase (s : ListFlavor.State Tid T) (ch : ListFlavor.Channel T)
    (pc : ListFlavor.Pc T) (h : ListFlavor.History Tid T) :
    (list ⟨ch, Function.update s.pc t pc, h⟩).phase =
      Function.update (list s).phase t pc.phase := by
  funext u
  by_cases hut : u = t
  · subst hut
    simp only [phase, Function.update_self]
  · simp only [phase, Function.update_of_ne hut]

/-- What has to be shown of a step that gives thread `t` a new phase. -/
theorem Driven.mk' {p : Phase T} {r : Option (Answer T)} (hphase : b'.phase = Function.update b.phase t p)
    (hinv : (∀ u, (b'.phase u).Closed → b'.view.isDisconnected = true) → b'.Ok) (hb : b.Ok)
    (hcap : b'.cap = b.cap)
    (hv : b.view.isDisconnected = true → b'.view.isDisconnected = true)
    (hp : p.Closed → b'.view.isDisconnected = true)
    (hd : Phase.Drive b.cap k b.view (b.phase t) b'.view p r) : Driven t k b b' r := by
  have hclosed : ∀ u, (b.phase u).Closed → b.view.isDisconnected = true := by
    cases b with
    | array s => exact hb.2
    | list s => exact hb.2
  refine ⟨hinv ?_, hcap, fun u hu => ?_, ?_⟩
  · rw [hphase]
    exact closed_update hv hclosed hp
  · rw [hphase, Function.update_of_ne hu]
  · rw [hphase, Function.update_self]
    exact hd

theorem enter_driven (hb : b.Ok) (h : b.enter t k = some b') : Driven t k b b' none := by
  cases b with
  | array s =>
    obtain ⟨s', hs, rfl⟩ := Option.map_eq_some_iff.mp h
    have hinv := hb.1.call hs
    obtain ⟨pc, hpc, rfl⟩ := Lib.Program.enter_eq_some hs
    have hp : (s.pc t).phase.enter k = some pc.phase := by
      rw [← ArrayFlavor.Pc.call_phase]
      exact congrArg _ hpc
    exact .mk' (array_phase _ _ _ _) (fun hg => ⟨hinv, hg⟩) hb rfl id
      (fun hg => hb.2 t (enter_closed hp hg)) (.enter hp)
  | list s =>
    obtain ⟨c, hc, hs⟩ := Option.bind_eq_some_iff.mp h
    obtain ⟨s', hs', rfl⟩ := Option.map_eq_some_iff.mp hs
    have hinv := hb.1.call hs'
    obtain ⟨pc, hpc, rfl⟩ := Lib.Program.enter_eq_some hs'
    have hp : (s.pc t).phase.enter k = some pc.phase :=
      ListFlavor.Pc.call_phase (Option.bind_eq_some_iff.mpr ⟨c, hc, hpc⟩)
    exact .mk' (list_phase _ _ _ _) (fun hg => ⟨hinv, hg⟩) hb rfl id
      (fun hg => hb.2 t (enter_closed hp hg)) (.enter hp)

theorem run_driven (hb : b.Ok) {spurious : Bool} (h : b.run t spurious = some b') :
    Driven t k b b' none := by
  cases b with
  | array s =>
    obtain ⟨s', hs, rfl⟩ := Option.map_eq_some_iff.mp h
    have hinv := hb.1.run hs
    have hstep := ArrayFlavor.run_step hb.1 hs
    obtain ⟨hv, hp⟩ := closed_step hstep (hb.2 t)
    obtain ⟨ch, pc, ev, hrun, rfl⟩ := Lib.Program.run_eq_some hs
    simp only [Function.update_self] at hstep hp
    exact .mk' (array_phase _ _ _ _) (fun hg => ⟨hinv, hg⟩) hb
      (congrArg some (ArrayFlavor.Channel.step_cap hrun)) hv hp (.run hstep)
  | list s =>
    obtain ⟨s', hs, rfl⟩ := Option.map_eq_some_iff.mp h
    have hinv := hb.1.run hs
    have hstep := ListFlavor.run_step hb.1 hs
    obtain ⟨hv, hp⟩ := closed_step hstep (hb.2 t)
    obtain ⟨ch, pc, ev, hrun, rfl⟩ := Lib.Program.run_eq_some hs
    simp only [Function.update_self] at hstep hp
    exact .mk' (list_phase _ _ _ _) (fun hg => ⟨hinv, hg⟩) hb rfl hv hp (.run hstep)

theorem leave_driven (hb : b.Ok) {a : Answer T} (h : (b.phase t).answer k = some a) :
    Driven t k b (b.leave t) (some a) := by
  cases b with
  | array s =>
    have hphase := ArrayFlavor.Pc.ret_phase (s.pc t) h
    simp only [leave]
    cases hs : ArrayFlavor.program.enter s t .ret with
    | none =>
      have hret : (s.pc t).call .ret = none := Option.map_eq_none_iff.mp hs
      rw [hret] at hphase
      exact .mk' (p := (s.pc t).phase.leave) (by rw [← hphase]; exact (Function.update_eq_self t _).symm)
        (fun hg => ⟨hb.1, hg⟩) hb rfl id (fun hg => hb.2 t (leave_closed hg)) (.answer h)
    | some s' =>
      have hinv := hb.1.call hs
      obtain ⟨pc, hpc, rfl⟩ := Lib.Program.enter_eq_some hs
      have hret : (s.pc t).call .ret = some pc := hpc
      rw [hret] at hphase
      exact .mk' (p := (s.pc t).phase.leave) (by rw [← hphase]; exact array_phase _ _ _ _)
        (fun hg => ⟨hinv, hg⟩) hb rfl id (fun hg => hb.2 t (leave_closed hg)) (.answer h)
  | list s =>
    have hphase := ListFlavor.Pc.ret_phase (s.pc t) h
    simp only [leave]
    cases hs : ListFlavor.program.enter s t .ret with
    | none =>
      have hret : (s.pc t).call .ret = none := Option.map_eq_none_iff.mp hs
      rw [hret] at hphase
      exact .mk' (p := (s.pc t).phase.leave) (by rw [← hphase]; exact (Function.update_eq_self t _).symm)
        (fun hg => ⟨hb.1, hg⟩) hb rfl id (fun hg => hb.2 t (leave_closed hg)) (.answer h)
    | some s' =>
      have hinv := hb.1.call hs
      obtain ⟨pc, hpc, rfl⟩ := Lib.Program.enter_eq_some hs
      have hret : (s.pc t).call .ret = some pc := hpc
      rw [hret] at hphase
      exact .mk' (p := (s.pc t).phase.leave) (by rw [← hphase]; exact list_phase _ _ _ _)
        (fun hg => ⟨hinv, hg⟩) hb rfl id (fun hg => hb.2 t (leave_closed hg)) (.answer h)

/-- **What one step of a call does to a buffered channel.** -/
theorem drive_driven (hb : b.Ok) {spurious : Bool} {r : Option (Answer T)}
    (h : b.drive t k spurious = some (b', r)) : Driven t k b b' r := by
  unfold drive at h
  split at h
  · cases h
    exact leave_driven hb ‹_›
  · split at h
    · cases h
      exact enter_driven hb ‹_›
    · obtain ⟨b'', hrun, heq⟩ := Option.map_eq_some_iff.mp h
      cases heq
      exact run_driven hb hrun

omit [DecidableEq Tid] in
/-- The claims never overtake the reservations, and stay within the capacity of them. -/
theorem Ok.ordered (hb : b.Ok) : b.view.recvs ≤ b.view.sends := by
  cases b with
  | array s => exact hb.1.recvs_le_sends
  | list s => exact hb.1.ends.ordered

omit [DecidableEq Tid] in
theorem Ok.bounded (hb : b.Ok) {n : Nat} (hn : b.cap = some n) :
    b.view.sends ≤ b.view.recvs + n := by
  cases b with
  | array s =>
    obtain rfl := Option.some.inj hn
    exact hb.1.sends_le
  | list s => exact absurd hn (by simp [cap])

omit [DecidableEq Tid] in
theorem Ok.closed (hb : b.Ok) (h : (b.phase t).Closed) : b.view.isDisconnected = true := by
  cases b with
  | array s => exact hb.2 t h
  | list s => exact hb.2 t h

end Buffer

end CrossbeamChannel
