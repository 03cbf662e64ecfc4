import CrossbeamChannel.Lib.Fifo
import CrossbeamChannel.Flavors.ListStep

/-!
# The list flavor is an unbounded FIFO queue

The refinement and the verdict of `start_recv`, as for the array flavor; `start_send` has no
verdict, it never returns `false`. What is special here is where a message lives: the block
and the offset in a token always lead to the slot of the index the thread reserved or
claimed, whatever the two ends and the helpers did to the blocks in between
(`Exact.place`).
-/

namespace CrossbeamChannel.ListFlavor

variable {Tid T : Type}

/-! ## The view -/

/-- What the queue of this channel looks like from outside. -/
def State.queue (s : State Tid T) : Lib.Fifo T where
  sends := s.hist.sends
  recvs := s.hist.recvs
  put := s.hist.put
  got := s.hist.got

/-- The thread holds a reserved index whose message is not written yet. -/
def Pc.MayWrite : Pc T → Prop
  | .sendNext _ (some _) | .sendBlockCas _ _ (some _) | .sent (some _) | .writeMsg _ _ _ => True
  | _ => False

/-- The thread holds a claimed index whose message is not read yet. -/
def Pc.MayRead : Pc T → Prop
  | .recvNext _ (some _) | .recvBlockCas _ _ (some _) | .recvDestroy _ _ | .received (some _)
  | .readReady _ _ | .readMsg _ _ => True
  | _ => False

/-- Inside `start_recv`, or at a return that claims nothing. -/
def Pc.InStartRecv : Pc T → Prop
  | .recvBlock | .recvIndex _ | .recvReady _ _ _ | .recvTail _ _ _ | .recvDisconnected _ _ _ _
  | .recvTailAgain _ _ _ _ | .recvCas _ _ _ | .recvNext _ none | .recvBlockCas _ _ none
  | .empty | .received none => True
  | _ => False

/-- The slot a thread is going to write to or to read from. -/
def Pc.slot : Pc T → Option (Nat × Nat)
  | .sendNext b (some offset) | .sendBlockCas b _ (some offset) | .sent (some (b, offset))
  | .writeMsg b offset _ | .writeReady b offset => some (b, offset)
  | .recvNext b (some offset) | .recvBlockCas b _ (some offset) | .recvDestroy b offset
  | .received (some (b, offset)) | .readReady b offset | .readMsg b offset => some (b, offset)
  | _ => none

theorem Pc.mayWrite_iff {pc : Pc T} (t : Tid) :
    pc.MayWrite ↔ pc.sendStage t = some (.reserved t) := by
  cases pc with
  | sendNext b slot | sendBlockCas b next slot => cases slot <;> simp [MayWrite, sendStage]
  | sent token => cases token <;> simp [MayWrite, sendStage]
  | _ => simp [MayWrite, sendStage]

theorem Pc.mayRead_iff {pc : Pc T} (t : Tid) :
    pc.MayRead ↔ pc.recvStage t = some (.claimed t) := by
  cases pc with
  | recvNext b slot | recvBlockCas b next slot => cases slot <;> simp [MayRead, recvStage]
  | received token => cases token <;> simp [MayRead, recvStage]
  | _ => simp [MayRead, recvStage]

/-- What every state of an unbounded queue has to satisfy, index by index and block by
    block. -/
structure Exact (s : State Tid T) : Prop where
  /-- The `k`-th successful head-index CAS yields the message of the `k`-th tail-index CAS. -/
  yields : ∀ k m, s.hist.got k = some m → s.hist.put k = some m
  /-- A claimed message was read, or is about to be read by exactly one thread. -/
  claimed : ∀ k, k < s.hist.recvs ↔
    (s.hist.got k).isSome ∨ ∃! t, s.hist.ticket t = k ∧ (s.pc t).MayRead
  /-- A reserved index was written, or is about to be written by exactly one thread. -/
  reserved : ∀ k, k < s.hist.sends ↔
    (s.hist.put k).isSome ∨ ∃! t, s.hist.ticket t = k ∧ (s.pc t).MayWrite
  /-- `read` returns the message of the index its `start_recv` claimed. -/
  returned : ∀ t msg, s.pc t = .readOk msg → ∃ m, msg = some m ∧ s.hist.put (s.hist.ticket t) = msg
  /-- The indices count the successful CASes, and the head never passes the tail. -/
  headIndex : s.chan.head.index = s.hist.recvs
  tailIndex : s.chan.tail.index = s.hist.sends
  ordered : s.chan.head.index ≤ s.chan.tail.index
  /-- Each end points into its block, or just behind it. -/
  headBlock : (s.chan.heap s.chan.head.block).startIndex ≤ s.chan.head.index ∧
    s.chan.head.index - blockCap ≤ (s.chan.heap s.chan.head.block).startIndex
  tailBlock : (s.chan.heap s.chan.tail.block).startIndex ≤ s.chan.tail.index ∧
    s.chan.tail.index - blockCap ≤ (s.chan.heap s.chan.tail.block).startIndex
  /-- A block and its next differ by exactly `BLOCK_CAP`. -/
  next : ∀ b n, b < s.chan.fresh → (s.chan.heap b).next = some n →
    n < s.chan.fresh ∧ (s.chan.heap n).startIndex = (s.chan.heap b).startIndex + blockCap
  /-- Only one block is linked for each start index. -/
  unique : ∀ b c, b < s.chan.fresh → c < s.chan.fresh →
    (s.chan.heap b).startIndex = (s.chan.heap c).startIndex → b = c
  /-- The slot in a thread's hands is the slot of the index it reserved or claimed. -/
  place : ∀ t b offset, (s.pc t).slot = some (b, offset) → b < s.chan.fresh ∧
    offset < blockCap ∧ s.hist.ticket t = (s.chan.heap b).startIndex + offset
  /-- Two different indices never share a slot, and the two sides of an index always do. -/
  distinct : ∀ t u x y, (s.pc t).slot = some x → (s.pc u).slot = some y →
    (x = y ↔ s.hist.ticket t = s.hist.ticket u)
  /-- A slot is written once, before it is read. -/
  overwrites : ∀ t b offset m, s.pc t = .writeMsg b offset m →
    (s.chan.heap b).slots offset = ⟨none, false⟩ ∧ s.hist.put (s.hist.ticket t) = none
  /-- A slot is read once, when it holds the message of its index. -/
  reads : ∀ t b offset, s.pc t = .readMsg b offset → s.hist.got (s.hist.ticket t) = none ∧
    ∃ m, ((s.chan.heap b).slots offset).msg = some m ∧ s.hist.put (s.hist.ticket t) = some m

namespace Inv

variable {s : State Tid T}

theorem sendRank_held (hi : Inv s) {t : Tid} {st : SendStage Tid}
    (hpc : (s.pc t).sendStage t = some st) : s.hist.sendRank (s.hist.ticket t) = st.rank := by
  rw [History.sendRank, hi.senders.own t st hpc]

theorem recvRank_held (hi : Inv s) {t : Tid} {st : RecvStage Tid}
    (hpc : (s.pc t).recvStage t = some st) : s.hist.recvRank (s.hist.ticket t) = st.rank := by
  rw [History.recvRank, hi.receivers.own t st hpc]

/-- A slot in a thread's hands. -/
theorem at_slot (hi : Inv s) {t : Tid} {b offset : Nat} (h : (s.pc t).slot = some (b, offset)) :
    b < s.chan.fresh ∧ s.hist.At t b offset := by
  have hok := hi.pcs t
  have hhead := hi.chain.headBlock
  have htail := hi.chain.tailBlock
  revert h hok
  generalize s.pc t = p
  intro h hok
  unfold Pc.slot at h
  split at h <;> cases h
  · exact ⟨Nat.lt_of_le_of_lt hok.1 htail, (hok.2.2 _ rfl).2⟩
  · exact ⟨Nat.lt_of_le_of_lt hok.1 htail, (hok.2.2.1 _ rfl).2⟩
  · exact hok
  · exact hok
  · exact hok
  · exact ⟨Nat.lt_of_le_of_lt hok.1 hhead, (hok.2.2 _ rfl).2⟩
  · exact ⟨Nat.lt_of_le_of_lt hok.1 hhead, (hok.2.2.1 _ rfl).2⟩
  · exact ⟨Nat.lt_trans hok.1 hhead, (hok.2 _ rfl).2⟩
  · exact hok
  · exact hok
  · exact ⟨hok.1, hok.2.1⟩

/-- The slot a thread writes to was never written. -/
theorem writeMsg_slot (hi : Inv s) {t : Tid} {b offset : Nat} {m : T}
    (hpc : s.pc t = .writeMsg b offset m) :
    s.hist.sendRank (s.hist.ticket t) = 1 ∧ (s.chan.heap b).slots offset = ⟨none, false⟩ := by
  obtain ⟨hb, ho, hk⟩ := hi.at_slot (show (s.pc t).slot = some (b, offset) by rw [hpc]; rfl)
  have hr : s.hist.sendRank (s.hist.ticket t) = 1 := hi.sendRank_held (by rw [hpc]; rfl)
  refine ⟨hr, ?_⟩
  rw [hi.slot b offset hb ho, ← hk]
  unfold History.view
  rw [hr]
  rfl

theorem exact (hi : Inv s) : Exact s where
  yields := by
    intro k m hk
    rw [hi.stages.got] at hk
    split at hk
    · exact hk
    · exact absurd hk (by simp)
  claimed := by
    intro k
    rw [hi.stages.recvs k, hi.stages.got]
    constructor
    · intro h1
      by_cases h2 : s.hist.recvRank k = 2
      · have hput := (hi.stages.put k).mpr (by rw [hi.stages.ready k h2]; omega)
        exact .inl (by rw [if_pos h2]; exact hput)
      · right
        obtain ⟨t, hst⟩ : ∃ t, s.hist.recvStage k = .claimed t := by
          cases hs : s.hist.recvStage k <;> simp [History.recvRank, hs] at h1 h2
          exact ⟨_, rfl⟩
        simpa only [← Pc.mayRead_iff] using hi.receivers.holder (fun _ => rfl) hst
    · rintro (hg | ⟨t, ⟨rfl, ht⟩, -⟩)
      · split at hg
        · omega
        · exact absurd hg (by simp)
      · rw [hi.recvRank_held ((Pc.mayRead_iff t).mp ht)]
        exact Nat.le_refl 1
  reserved := by
    intro k
    rw [hi.stages.sends k, hi.stages.put]
    constructor
    · intro h1
      rcases Nat.lt_or_ge (s.hist.sendRank k) 2 with h1' | h2
      · right
        obtain ⟨t, hst⟩ : ∃ t, s.hist.sendStage k = .reserved t := by
          cases hs : s.hist.sendStage k <;> simp [History.sendRank, hs] at h1 h1'
          exact ⟨_, rfl⟩
        simpa only [← Pc.mayWrite_iff] using hi.senders.holder (fun _ => rfl) hst
      · exact .inl h2
    · rintro (hg | ⟨t, ⟨rfl, ht⟩, -⟩)
      · omega
      · rw [hi.sendRank_held ((Pc.mayWrite_iff t).mp ht)]
        exact Nat.le_refl 1
  returned := by
    intro t msg hpc
    obtain ⟨hgot, h2⟩ : PcOk s t (.readOk msg) := hpc ▸ hi.pcs t
    have h3 := hi.stages.ready _ h2
    rw [hi.stages.got, if_pos h2] at hgot
    obtain ⟨m, hm⟩ := Option.isSome_iff_exists.mp
      ((hi.stages.put (s.hist.ticket t)).mpr (by omega))
    exact ⟨m, hgot ▸ hm, hgot⟩
  headIndex := hi.ends.headIndex
  tailIndex := hi.ends.tailIndex
  ordered := by
    rw [hi.ends.headIndex, hi.ends.tailIndex]
    exact hi.ends.ordered
  headBlock := by
    have h1 := hi.ends.headLow
    have h2 := hi.ends.headHigh
    rw [Nat.mul_succ] at h2
    rw [hi.chain.start _ hi.chain.headBlock, hi.ends.headIndex]
    omega
  tailBlock := by
    have h1 := hi.ends.tailLow
    have h2 := hi.ends.tailHigh
    rw [Nat.mul_succ] at h2
    rw [hi.chain.start _ hi.chain.tailBlock, hi.ends.tailIndex]
    omega
  next := by
    intro b n hb hn
    rw [hi.chain.next b hb] at hn
    split at hn
    · rename_i hlt
      obtain rfl := Option.some.inj hn
      exact ⟨hlt, by rw [hi.chain.start _ hlt, hi.chain.start b hb, Nat.mul_succ]⟩
    · exact absurd hn (by simp)
  unique := by
    intro b c hb hc heq
    rw [hi.chain.start b hb, hi.chain.start c hc] at heq
    exact Nat.eq_of_mul_eq_mul_left (by decide) heq
  place := by
    intro t b offset h
    obtain ⟨hb, ho, hk⟩ := hi.at_slot h
    exact ⟨hb, ho, by rw [hi.chain.start b hb]; exact hk⟩
  distinct := by
    rintro t u ⟨b, i⟩ ⟨c, j⟩ ht hu
    obtain ⟨-, hi', hk⟩ := hi.at_slot ht
    obtain ⟨-, hj', hl⟩ := hi.at_slot hu
    rw [hk, hl]
    constructor
    · rintro ⟨⟩
      rfl
    · intro heq
      obtain ⟨rfl, rfl⟩ := Inv.index_inj hi' hj' heq
      rfl
  overwrites := by
    intro t b offset m hpc
    obtain ⟨hr, hslot⟩ := hi.writeMsg_slot hpc
    have hput := mt (hi.stages.put (s.hist.ticket t)).mp (by omega)
    exact ⟨hslot, by simpa using hput⟩
  reads := by
    intro t b offset hpc
    obtain ⟨hr, hsome, hslot⟩ := hi.readMsg_slot hpc
    obtain ⟨m, hm⟩ := Option.isSome_iff_exists.mp hsome
    exact ⟨by rw [hi.stages.got, if_neg (by omega)], m, by rw [hslot]; exact hm, hm⟩

end Inv

/-! ## Refinement -/

section

variable [DecidableEq Tid]

/-- **The list flavor refines the unbounded FIFO queue.** -/
theorem refines_fifo :
    Lib.Refines (system : Lib.System (State Tid T) _) (Lib.Fifo.system none) State.queue where
  init := by
    rintro s rfl
    rfl
  step := by
    intro s l s' hr hs
    have hi := inv_reachable hr
    have hi' := inv_reachable (.step hr hs)
    cases l with
    | call t c =>
      obtain ⟨pc, -, rfl⟩ := Lib.Program.enter_eq_some hs
      exact .inl rfl
    | run t spurious =>
      obtain ⟨ch', pc, ev, hstep, rfl⟩ := Lib.Program.run_eq_some hs
      cases ev with
      | silent | publish | tailBlockCas b | destroy b => exact .inl rfl
      | tailCas => exact .inr ⟨(), .push fun n hn => absurd hn (by simp)⟩
      | headCas =>
        exact .inr ⟨(), .pop (show s.hist.recvs < s.hist.sends from hi'.ends.ordered)⟩
      | put m =>
        obtain ⟨b, offset, hpc⟩ := Channel.step_put hstep
        obtain ⟨hr1, -⟩ := hi.writeMsg_slot hpc
        obtain ⟨-, hnew⟩ := hi.exact.overwrites t b offset m hpc
        exact .inr ⟨(), .fill m ((hi.stages.sends _).mpr (by omega)) hnew⟩
      | got msg =>
        obtain ⟨b, offset, hpc, rfl⟩ := Channel.step_got hstep
        obtain ⟨hr1, -⟩ := hi.readMsg_slot hpc
        obtain ⟨hnew, m, hslot, hput⟩ := hi.exact.reads t b offset hpc
        refine .inr ⟨(), ?_⟩
        rw [hslot]
        exact .take m ((hi.stages.recvs _).mpr (by omega)) hput hnew

/-! ## The verdict of `start_recv` -/

omit [DecidableEq Tid] in
theorem linkNext_isDisconnected (ch : Channel T) (b : Nat) :
    (ch.linkNext b).1.isDisconnected = ch.isDisconnected := by
  simp only [Channel.linkNext]
  split <;> rfl

omit [DecidableEq Tid] in
theorem Channel.step_disconnected {ch : Channel T} {spurious : Bool} {pc : Pc T}
    {r : Channel T × Pc T × Event T} (h : ch.step spurious pc = some r)
    (hd : ch.isDisconnected = true) : r.1.isDisconnected = true := by
  cases pc <;> simp only [Channel.step] at h <;> (repeat' split at h) <;> cases h <;>
    simp only [linkNext_isDisconnected, Inv.casTailBlock_eq, Inv.casHeadBlock_eq,
      Channel.setSlot, hd]

/-- The flag is never cleared. -/
theorem disconnected_step {s s' : State Tid T} {l : Label Tid T} (hs : system.step s l s')
    (hd : s.chan.isDisconnected = true) : s'.chan.isDisconnected = true :=
  Lib.Program.step_chan (Q := fun c => c.isDisconnected = true)
    (fun _ _ _ _ hr hd => Channel.step_disconnected hr hd) hs hd

omit [DecidableEq Tid] in
theorem Channel.step_empty {ch ch' : Channel T} {spurious : Bool} {pc : Pc T} {ev : Event T}
    (h : ch.step spurious pc = some (ch', .empty, ev)) :
    (∃ b index offset tail, pc = .recvDisconnected b index offset tail) ∧
      ch.isDisconnected = false := by
  cases pc with
  | sendBlockCas b next slot | recvBlockCas b next slot =>
    cases slot <;> simp [Channel.step, sendInstalled, recvInstalled] at h
  | _ =>
    simp only [Channel.step, sendBranch, recvBranch, sendReserved, recvClaimed] at h
    repeat' split at h
    all_goals cases h
    all_goals exact ⟨⟨_, _, _, _, rfl⟩, by simp_all⟩

omit [DecidableEq Tid] in
theorem Channel.step_recvTailAgain {ch ch' : Channel T} {spurious : Bool} {pc : Pc T}
    {b index offset tail : Nat} {ev : Event T}
    (h : ch.step spurious pc = some (ch', .recvTailAgain b index offset tail, ev)) :
    ch.isDisconnected = true := by
  cases pc with
  | sendBlockCas b next slot | recvBlockCas b next slot =>
    cases slot <;> simp [Channel.step, sendInstalled, recvInstalled] at h
  | _ =>
    simp only [Channel.step, sendBranch, recvBranch, sendReserved, recvClaimed] at h
    repeat' split at h
    all_goals cases h
    all_goals simp_all

omit [DecidableEq Tid] in
/-- The token of a disconnected channel comes from a tail that did not move. -/
theorem Channel.step_received_none {ch ch' : Channel T} {spurious : Bool} {pc : Pc T}
    {ev : Event T} (h : ch.step spurious pc = some (ch', .received none, ev)) :
    ∃ b index offset, pc = .recvTailAgain b index offset ch.tail.index := by
  cases pc with
  | sendBlockCas b next slot | recvBlockCas b next slot =>
    cases slot <;> simp [Channel.step, sendInstalled, recvInstalled] at h
  | recvTailAgain b index offset tail =>
    simp only [Channel.step] at h
    split at h
    · rename_i heq
      exact ⟨b, index, offset, by rw [heq]⟩
    · cases h
  | _ =>
    simp only [Channel.step, sendBranch, recvBranch, sendReserved, recvClaimed] at h
    repeat' split at h
    all_goals cases h

omit [DecidableEq Tid] in
theorem Channel.step_recvDisconnected {ch ch' : Channel T} {spurious : Bool} {pc : Pc T}
    {b index offset tail : Nat} {ev : Event T}
    (h : ch.step spurious pc = some (ch', .recvDisconnected b index offset tail, ev)) :
    pc = .recvTail b ch.tail.index offset := by
  cases pc with
  | sendBlockCas b next slot | recvBlockCas b next slot =>
    cases slot <;> simp [Channel.step, sendInstalled, recvInstalled] at h
  | _ =>
    simp only [Channel.step, sendBranch, recvBranch, sendReserved, recvClaimed] at h
    repeat' split at h
    all_goals cases h
    all_goals simp_all

omit [DecidableEq Tid] in
theorem Pc.call_verdict {pc pc' : Pc T} {c : Call T} (h : pc.call c = some pc') :
    pc' ≠ .empty ∧ pc' ≠ .received none ∧
      (∀ b index offset tail, pc' ≠ .recvDisconnected b index offset tail) ∧
      ∀ b index offset tail, pc' ≠ .recvTailAgain b index offset tail := by
  unfold Pc.call at h
  split at h <;> cases h <;> exact ⟨by simp, by simp, by simp, by simp⟩

omit [DecidableEq Tid] in
/-- A receiver that finds the tail at its index sees an empty queue. -/
theorem Inv.empty_of_tail {s : State Tid T} (hi : Inv s) {t : Tid} {b offset : Nat}
    (hpc : s.pc t = .recvTail b s.chan.tail.index offset) : s.hist.sends = s.hist.recvs := by
  obtain ⟨-, -, -, hle⟩ : PcOk s t (.recvTail b s.chan.tail.index offset) := hpc ▸ hi.pcs t
  have h1 := hi.ends.tailIndex
  have h2 := hi.ends.ordered
  omega

omit [DecidableEq Tid] in
/-- A receiver that finds the tail where it was sees an empty queue, still or again. -/
theorem Inv.empty_of_tailAgain {s : State Tid T} (hi : Inv s) {t : Tid} {b index offset : Nat}
    (hpc : s.pc t = .recvTailAgain b index offset s.chan.tail.index) :
    s.hist.sends = s.hist.recvs := by
  obtain ⟨-, -, -, hle, heq⟩ : PcOk s t (.recvTailAgain b index offset s.chan.tail.index) :=
    hpc ▸ hi.pcs t
  have h1 := hi.ends.tailIndex
  have h2 := hi.ends.ordered
  omega

/-- Whoever looks at the tail again has seen the flag. -/
theorem tailAgain_flag {s : State Tid T} (hs : system.Reachable s) :
    ∀ t b index offset tail, s.pc t = .recvTailAgain b index offset tail →
      s.chan.isDisconnected = true := by
  refine hs.invariant (P := fun s => ∀ t b index offset tail,
    s.pc t = .recvTailAgain b index offset tail → s.chan.isDisconnected = true) ?_ ?_
  · rintro s rfl t b index offset tail hpc
    simp [State.init] at hpc
  · intro s l s' _ ih hstep t b index offset tail hpc
    rcases Lib.Program.step_pc hstep t with heq | ⟨c, hc⟩ | ⟨spurious, ev, hrun⟩
    · exact disconnected_step hstep (ih t b index offset tail (heq ▸ hpc))
    · exact absurd hpc ((Pc.call_verdict hc).2.2.2 b index offset tail)
    · rw [hpc] at hrun
      exact disconnected_step hstep (Channel.step_recvTailAgain hrun)

section

variable (e : (system : Lib.System (State Tid T) (Label Tid T)).Exec)

/-- `start_recv` turns to the flag only if the queue was empty at an instant of the call. -/
theorem tail_instant {j : Nat} (hj : j ≤ e.len) {t : Tid}
    (hpc : ∃ b index offset tail, (e.state j).pc t = .recvDisconnected b index offset tail) :
    ∃ k, k ≤ j ∧ (e.state k).hist.sends = (e.state k).hist.recvs ∧
      ∀ m, k ≤ m → m ≤ j → ((e.state m).pc t).InStartRecv := by
  refine e.since (I := fun s => (s.pc t).InStartRecv)
    (P := fun s => s.hist.sends = s.hist.recvs)
    (Q := fun s => ∃ b index offset tail, s.pc t = .recvDisconnected b index offset tail)
    ?_ ?_ ?_ hj hpc
  · rintro s rfl ⟨b, index, offset, tail, hs⟩
    simp [State.init] at hs
  · rintro s _ ⟨b, index, offset, tail, hs⟩
    rw [hs]
    trivial
  · rintro s l s' hr hs ⟨b, index, offset, tail, hd⟩
    rcases Lib.Program.step_pc hs t with heq | ⟨c, hc⟩ | ⟨spurious, ev, hrun⟩
    · exact .inl ⟨b, index, offset, tail, heq ▸ hd⟩
    · exact absurd hd ((Pc.call_verdict hc).2.2.1 b index offset tail)
    · rw [hd] at hrun
      have hp := Channel.step_recvDisconnected hrun
      exact .inr ⟨(inv_reachable hr).empty_of_tail hp, by rw [hp]; trivial⟩

/-- `start_recv` says "empty" only if the queue was empty and connected at an instant of
    the call. -/
theorem empty_instant {j : Nat} (hj : j ≤ e.len) {t : Tid} (hpc : (e.state j).pc t = .empty) :
    ∃ k, k ≤ j ∧ (e.state k).hist.sends = (e.state k).hist.recvs ∧
      (e.state k).chan.isDisconnected = false ∧
      ∀ m, k ≤ m → m ≤ j → ((e.state m).pc t).InStartRecv := by
  -- the instant of the flag load, which comes after the instant of the tail load
  obtain ⟨i, hij, ⟨hseen, hflag⟩, hin⟩ : ∃ i, i ≤ j ∧
      ((∃ b index offset tail, (e.state i).pc t = .recvDisconnected b index offset tail) ∧
        (e.state i).chan.isDisconnected = false) ∧
      ∀ m, i ≤ m → m ≤ j → ((e.state m).pc t).InStartRecv := by
    refine e.since (I := fun s => (s.pc t).InStartRecv)
      (P := fun s => (∃ b index offset tail, s.pc t = .recvDisconnected b index offset tail) ∧
        s.chan.isDisconnected = false)
      (Q := fun s => s.pc t = .empty) ?_ ?_ ?_ hj hpc
    · rintro s rfl
      simp [State.init]
    · intro s _ hs
      rw [hs]
      trivial
    · intro s l s' hr hs hempty
      rcases Lib.Program.step_pc hs t with heq | ⟨c, hc⟩ | ⟨spurious, ev, hrun⟩
      · exact .inl (heq ▸ hempty)
      · exact absurd hempty (Pc.call_verdict hc).1
      · rw [hempty] at hrun
        obtain ⟨⟨b, index, offset, tail, hp⟩, hflag⟩ := Channel.step_empty hrun
        exact .inr ⟨⟨⟨b, index, offset, tail, hp⟩, hflag⟩, by rw [hp]; trivial⟩
  obtain ⟨k, hki, heq, hink⟩ := tail_instant e (by omega) hseen
  refine ⟨k, by omega, heq, ?_, fun m hkm hm => ?_⟩
  · by_contra hd
    have hlate := e.persists (Q := fun s => s.chan.isDisconnected = true)
      (fun s l s' _ hs => disconnected_step hs) hki (by omega) (by simpa using hd)
    simp [hlate] at hflag
  · rcases Nat.le_total m i with hle | hge
    · exact hink m hkm hle
    · exact hin m hge hm

/-- `start_recv` says "disconnected" only if the queue was empty and disconnected at an
    instant of the call. -/
theorem disconnected_instant {j : Nat} (hj : j ≤ e.len) {t : Tid}
    (hpc : (e.state j).pc t = .received none) :
    ∃ k, k ≤ j ∧ ((e.state k).hist.sends = (e.state k).hist.recvs ∧
      (e.state k).chan.isDisconnected = true) ∧
      ∀ m, k ≤ m → m ≤ j → ((e.state m).pc t).InStartRecv := by
  refine e.since (I := fun s => (s.pc t).InStartRecv)
    (P := fun s => s.hist.sends = s.hist.recvs ∧ s.chan.isDisconnected = true)
    (Q := fun s => s.pc t = .received none) ?_ ?_ ?_ hj hpc
  · rintro s rfl
    simp [State.init]
  · intro s _ hs
    rw [hs]
    trivial
  · intro s l s' hr hs hnone
    rcases Lib.Program.step_pc hs t with heq | ⟨c, hc⟩ | ⟨spurious, ev, hrun⟩
    · exact .inl (heq ▸ hnone)
    · exact absurd hnone (Pc.call_verdict hc).2.1
    · rw [hnone] at hrun
      obtain ⟨b, index, offset, hp⟩ := Channel.step_received_none hrun
      exact .inr ⟨⟨(inv_reachable hr).empty_of_tailAgain hp, tailAgain_flag hr t _ _ _ _ hp⟩,
        by rw [hp]; trivial⟩

end

/-- **The list flavor is an unbounded FIFO queue.** Any number of threads, any interleaving
    of atomic steps: the channel refines the unbounded queue, every state of every run is
    exact, and "empty" and "disconnected" tell the truth about some instant of the call. -/
theorem channel_refines_unbounded_fifo :
    Lib.Refines (system : Lib.System (State Tid T) _) (Lib.Fifo.system none) State.queue ∧
      ∀ (e : (system : Lib.System (State Tid T) (Label Tid T)).Exec) (j : Nat), j ≤ e.len →
        Exact (e.state j) ∧
        ∀ t, ((e.state j).pc t = .empty →
            ∃ k, k ≤ j ∧ (e.state k).hist.sends = (e.state k).hist.recvs ∧
              (e.state k).chan.isDisconnected = false ∧
              ∀ m, k ≤ m → m ≤ j → ((e.state m).pc t).InStartRecv) ∧
          ((e.state j).pc t = .received none →
            ∃ k, k ≤ j ∧ ((e.state k).hist.sends = (e.state k).hist.recvs ∧
              (e.state k).chan.isDisconnected = true) ∧
              ∀ m, k ≤ m → m ≤ j → ((e.state m).pc t).InStartRecv) :=
  ⟨refines_fifo, fun e _ hj => ⟨(inv_reachable (e.reachable hj)).exact, fun _ =>
    ⟨empty_instant e hj, disconnected_instant e hj⟩⟩⟩

/-- One message goes through, then the receiver is refused; the sender leaves and the
    receiver is told so. -/
def oneMessageLabels : List (Label Bool Nat) :=
  [.call false .startSend, .run false false, .run false false, .run false false,
    .run false true, .run false false, .run false false, .run false false,
    .call false (.write 7), .run false false, .run false false, .call false .ret,
    .call true .startRecv, .run true false, .run true false, .run true false, .run true false,
    .call true .read, .run true false, .run true false, .call true .ret,
    .call true .startRecv, .run true false, .run true false, .run true false, .run true false,
    .run true false, .call true .ret,
    .call false .disconnect, .run false false,
    .call true .startRecv, .run true false, .run true false, .run true false, .run true false,
    .run true false, .run true false]

def oneMessageRun : (system : Lib.System (State Bool Nat) (Label Bool Nat)).Exec :=
  .ofReplay (fun _ _ _ (hs : program.step _ _ = some _) => hs) .init rfl oneMessageLabels
    (by decide)

theorem channel_refines_unbounded_fifo_oneMessage :
    (oneMessageRun.state 27).pc true = .empty ∧ (oneMessageRun.state 37).hist.got 0 = some 7 ∧
      (∃ k, k ≤ 27 ∧ (oneMessageRun.state k).hist.sends = (oneMessageRun.state k).hist.recvs ∧
        (oneMessageRun.state k).chan.isDisconnected = false ∧
        ∀ m, k ≤ m → m ≤ 27 → ((oneMessageRun.state m).pc true).InStartRecv) ∧
      (oneMessageRun.state 37).pc true = .received none ∧ Exact (oneMessageRun.state 37) := by
  obtain ⟨-, hrun⟩ := @channel_refines_unbounded_fifo Bool Nat _
  have hempty : (oneMessageRun.state 27).pc true = .empty := rfl
  exact ⟨hempty, rfl, ((hrun oneMessageRun 27 (by decide)).2 true).1 hempty, rfl,
    (hrun oneMessageRun 37 (by decide)).1⟩
end

end CrossbeamChannel.ListFlavor
