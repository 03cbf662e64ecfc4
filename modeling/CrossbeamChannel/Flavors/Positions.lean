import CrossbeamChannel.Flavors.Buffer

/-!
# The positions of a buffered channel

A send takes a position with its tail CAS and writes its message there later, a receive takes one
with its head CAS and reads the message later. In between the thread *holds* the position: `Role`
says how far it has come with it. `Role.Drive` is what one step of a call does to the queue and to
what the thread holds, for both flavors at once.
-/

namespace CrossbeamChannel

variable {Tid T : Type}

/-- What a thread holds of a channel. -/
inductive Role (T : Type) where
  | none
  /-- A position of the tail, where `msg` is what `write` is going to put. -/
  | reserved (msg : Option T)
  /-- The message is there. -/
  | stored
  /-- A position of the head. -/
  | claimed
  /-- This is what was there. -/
  | taken (msg : Option T)

namespace Role

/-- Whose position it is. -/
def side : Role T → Option Side
  | .none => Option.none
  | .reserved _ | .stored => some .send
  | .claimed | .taken _ => some .recv

/-- **One step of a thread** whose last CAS took position `k`: what it does to the queue, and what
    the thread holds afterwards. -/
inductive Step (k : Nat) : Lib.Fifo T → Role T → Lib.Fifo T → Nat → Role T → Prop where
  | stay {q : Lib.Fifo T} {r : Role T} : Step k q r q k r
  | reserve {q : Lib.Fifo T} : Step k q .none { q with sends := q.sends + 1 } q.sends (.reserved Option.none)
  | store {q : Lib.Fifo T} {m : T} :
      Step k q (.reserved (some m)) { q with put := Function.update q.put k (some m) } k .stored
  | claim {q : Lib.Fifo T} : Step k q .none { q with recvs := q.recvs + 1 } q.recvs .claimed
  | take {q : Lib.Fifo T} {m : T} (h : q.put k = some m) :
      Step k q .claimed { q with got := Function.update q.got k (some m) } k (.taken (some m))

/-- What a step of the call `call` does. -/
inductive Drive (call : BufferCall T) (k : Nat) :
    Lib.Fifo T → Role T → Lib.Fifo T → Nat → Role T → Option (Answer T) → Prop where
  | run {q q' : Lib.Fifo T} {r r' : Role T} {k' : Nat} (h : Step k q r q' k' r') :
      Drive call k q r q' k' r' Option.none
  | write {q : Lib.Fifo T} {m : T} (h : call = .write m) :
      Drive call k q (.reserved Option.none) q k (.reserved (some m)) Option.none
  /-- `write` or `read` returns, and the thread holds nothing any more. -/
  | ends {q : Lib.Fifo T} {r : Role T} {a : Answer T}
      (h : (r = .stored ∧ a = .written) ∨ ∃ m, r = .taken m ∧ a = .got m) :
      Drive call k q r q k .none (some a)
  | keep {q : Lib.Fifo T} {r : Role T} {a : Answer T} (hw : a ≠ .written) (hg : ∀ m, a ≠ .got m) :
      Drive call k q r q k r (some a)

end Role

/-- How many positions of this side have been taken. -/
def Side.count (q : Lib.Fifo T) : Side → Nat
  | .send => q.sends
  | .recv => q.recvs

namespace Role

/-- What becomes of the position of a thread in one step of a call. -/
inductive Stride (k : Nat) (q : Lib.Fifo T) (x : Role T) (q' : Lib.Fifo T) (k' : Nat) (x' : Role T) :
    Option (Answer T) → Prop where
  | takes {d : Side} (hrole : x = .none) (hside : x'.side = some d) (hticket : k' = d.count q)
      (hcount : d.count q' = d.count q + 1) (hother : d.opposite.count q' = d.opposite.count q) :
      Stride k q x q' k' x' Option.none
  | goes {r : Option (Answer T)} (hside : x'.side = x.side) (hticket : k' = k)
      (hcount : ∀ d : Side, d.count q' = d.count q)
      (hr : ∀ a, r = some a → a ≠ .written ∧ ∀ m, a ≠ .got m) : Stride k q x q' k' x' r
  | ends {a : Answer T} (hrole : x' = .none) (hcount : ∀ d : Side, d.count q' = d.count q)
      (h : (x = .stored ∧ a = .written) ∨ ∃ m, x = .taken m ∧ a = .got m) : Stride k q x q' k' x' (some a)

variable {call : BufferCall T} {k k' : Nat} {q q' : Lib.Fifo T} {x x' : Role T} {r : Option (Answer T)}

theorem Drive.stride (h : Drive call k q x q' k' x' r) : Stride k q x q' k' x' r := by
  cases h with
  | run h =>
    cases h with
    | stay => exact .goes rfl rfl (fun _ => rfl) (by simp)
    | reserve => exact .takes (d := .send) rfl rfl rfl rfl rfl
    | store => exact .goes rfl rfl (fun d => by cases d <;> rfl) (by simp)
    | claim => exact .takes (d := .recv) rfl rfl rfl rfl rfl
    | take _ => exact .goes rfl rfl (fun d => by cases d <;> rfl) (by simp)
  | write _ => exact .goes rfl rfl (fun _ => rfl) (by simp)
  | ends h => exact .ends rfl (fun _ => rfl) h
  | keep hw hg =>
    refine .goes rfl rfl (fun _ => rfl) fun a ha => ?_
    cases ha
    exact ⟨hw, hg⟩

/-- A message is put by who is about to write it. -/
theorem Drive.put_cases (h : Drive call k q x q' k' x' r) {j : Nat} {m : T} (hput : q'.put j = some m) :
    q.put j = some m ∨ x = .reserved (some m) ∧ j = k := by
  cases h with
  | run h =>
    cases h with
    | store =>
      by_cases hj : j = k
      · subst hj
        simp only [Function.update_self] at hput
        exact .inr ⟨by rw [hput], rfl⟩
      · exact .inl (by simpa only [Function.update_of_ne hj] using hput)
    | _ => exact .inl hput
  | _ => exact .inl hput

/-- What has been put stays there. -/
theorem Drive.put_keeps (h : Drive call k q x q' k' x' r)
    (hnew : ∀ m, x = .reserved m → q.put k = Option.none) {j : Nat} {m : T} (hput : q.put j = some m) :
    q'.put j = some m := by
  cases h with
  | run h =>
    cases h with
    | store =>
      have hj : j ≠ k := by
        rintro rfl
        rw [hnew _ rfl] at hput
        cases hput
      simpa only [Function.update_of_ne hj] using hput
    | _ => exact hput
  | _ => exact hput

/-- What a thread is going to write, it was going to write before, or has just been called with. -/
theorem Drive.reserved_cases {m : T} (h : Drive call k q x q' k' (.reserved (some m)) r) :
    (x = .reserved (some m) ∨ call = .write m) ∧ r = Option.none ∨
      x = .reserved (some m) ∧ ∃ a, r = some a := by
  cases h with
  | run h =>
    cases h with
    | stay => exact .inl ⟨.inl rfl, rfl⟩
  | write h => exact .inl ⟨.inr h, rfl⟩
  | keep _ _ => exact .inr ⟨rfl, _, rfl⟩

/-- What has been written is there. -/
theorem Drive.stored (h : Drive call k q x q' k' .stored r)
    (hx : x = .stored → ∃ m, q.put k = some m) : ∃ m, q'.put k' = some m := by
  cases h with
  | run h =>
    cases h with
    | stay => exact hx rfl
    | store => exact ⟨_, Function.update_self _ _ _⟩
  | keep _ _ => exact hx rfl

end Role

/-- What a thread in this phase holds. -/
def Phase.Holds : Phase T → Role T → Prop
  | .taken .send, r | .granted .send, r => r = .reserved none
  | .completing .send, r => (∃ m, r = .reserved (some m)) ∨ r = .stored
  | .written, r => r = .stored
  | .taken .recv, r | .granted .recv, r => r = .claimed
  | .completing .recv, r => r = .claimed ∨ ∃ m, r = .taken m
  | .got m, r => r = .taken m
  | _, r => r = .none

/-! ## The array flavor -/

namespace ArrayFlavor

def Pc.role : Pc T → Role T
  | .sent ⟨some _, _⟩ => .reserved none
  | .writeMsg _ _ msg => .reserved (some msg)
  | .writeStamp _ _ | .written => .stored
  | .received ⟨some _, _⟩ | .readMsg _ _ => .claimed
  | .readStamp _ _ msg | .readOk msg => .taken msg
  | _ => .none

theorem Pc.phase_holds (pc : Pc T) : pc.phase.Holds pc.role := by
  cases pc with
  | sent token | received token => obtain ⟨_ | i, stamp⟩ := token <;> rfl
  | writeMsg _ _ msg => exact .inl ⟨msg, rfl⟩
  | readStamp _ _ msg => exact .inr ⟨msg, rfl⟩
  | writeStamp _ _ => exact .inr rfl
  | readMsg _ _ => exact .inl rfl
  | _ => rfl

/-- Entering a call changes what the thread holds only where it begins to write. -/
theorem Pc.call_role {pc pc' : Pc T} {k : BufferCall T} (h : pc.call (.ofBuffer k) = some pc') :
    pc'.role = pc.role ∨ ∃ m, k = .write m ∧ pc.role = .reserved none ∧ pc'.role = .reserved (some m) := by
  cases pc with
  | sent token | received token =>
    obtain ⟨_ | i, stamp⟩ := token <;> rcases k with (_ | _) | _ | _ | (_ | _) | _ | _ <;> cases h
    all_goals first | exact .inl rfl | exact .inr ⟨_, rfl, rfl, rfl⟩
  | _ => rcases k with (_ | _) | _ | _ | (_ | _) | _ | _ <;> cases h <;> exact .inl rfl

/-- Taking the result of a call ends what it has completed. -/
theorem Pc.ret_role (pc : Pc T) {k : BufferCall T} {a : Answer T} (h : pc.phase.answer k = some a) :
    (((pc.role = .stored ∧ a = .written) ∨ ∃ m, pc.role = .taken m ∧ a = .got m) ∧
      ((pc.call .ret).getD pc).role = .none) ∨
    a ≠ .written ∧ (∀ m, a ≠ .got m) ∧ ((pc.call .ret).getD pc).role = pc.role := by
  cases pc with
  | sent token | received token =>
    obtain ⟨_ | i, stamp⟩ := token <;> rcases k with (_ | _) | _ | _ | (_ | _) | _ | _ <;> cases h
    all_goals exact .inr ⟨by simp, by simp, rfl⟩
  | written =>
    rcases k with (_ | _) | _ | _ | (_ | _) | _ | _ <;> cases h
    exact .inl ⟨.inl ⟨rfl, rfl⟩, rfl⟩
  | readOk msg =>
    rcases k with (_ | _) | _ | _ | (_ | _) | _ | _ <;> cases h
    exact .inl ⟨.inr ⟨msg, rfl, rfl⟩, rfl⟩
  | _ =>
    rcases k with (_ | _) | _ | _ | (_ | _) | _ | _ <;> cases h
    all_goals exact .inr ⟨by simp, by simp, rfl⟩

variable [DecidableEq Tid] {s : State Tid T} {t : Tid}

/-- Every atomic step of an array channel is a step of the queue. -/
theorem Inv.role_step (hi : Inv s) {spurious : Bool} {ch : Channel T} {pc : Pc T} {ev : Event T}
    (hrun : s.chan.step spurious (s.pc t) = some (ch, pc, ev)) :
    Role.Step (s.hist.ticket t) s.queue (s.pc t).role
      (State.queue ⟨ch, Function.update s.pc t pc, s.hist.record t ev⟩)
      ((s.hist.record t ev).ticket t) pc.role := by
  generalize hpc : s.pc t = p at hrun
  cases p with
  | sendCas tail stamp =>
    simp only [Channel.step] at hrun
    split at hrun <;> cases hrun
    · simp only [History.record, Function.update_self]
      exact .reserve
    · exact .stay
  | recvCas head stamp =>
    simp only [Channel.step] at hrun
    split at hrun <;> cases hrun
    · simp only [History.record, Function.update_self]
      exact .claim
    · exact .stay
  | writeMsg slot stamp msg =>
    cases hrun
    exact .store
  | readMsg slot stamp =>
    cases hrun
    obtain ⟨hslot, hsome⟩ := hi.readMsg_slot hpc
    obtain ⟨m, hm⟩ := Option.isSome_iff_exists.mp hsome
    rw [hslot, hm]
    exact .take hm
  | writeStamp _ _ | readStamp _ _ _ | emptyTail _ | fullHead _ | disconnectedLoad | disconnectSwap =>
    cases hrun
    exact .stay
  | _ =>
    simp only [Channel.step] at hrun
    repeat' split at hrun
    all_goals cases hrun
    all_goals exact .stay

omit [DecidableEq Tid] in
/-- Nothing has been put at a position whose message is yet to be written. -/
theorem Inv.put_of_reserved (hi : Inv s) {m : Option T} (hr : (s.pc t).role = .reserved m) :
    s.hist.put (s.hist.ticket t) = none := by
  have hst : (s.pc t).stage t = some (.reserved t) := by
    cases hpc : s.pc t with
    | sent token | received token =>
      obtain ⟨_ | i, stamp⟩ := token <;> rw [hpc] at hr <;> cases hr
      all_goals rfl
    | _ =>
      rw [hpc] at hr
      cases hr <;> rfl
  have hrank := hi.held_rank hst
  have hno := mt (hi.put (s.hist.ticket t)).mp (by rw [hrank]; simp)
  exact Option.not_isSome_iff_eq_none.mp hno

omit [DecidableEq Tid] in
/-- What a thread has read is what was put at its position. -/
theorem Inv.got_of_taken (hi : Inv s) {m : Option T} (hr : (s.pc t).role = .taken m) :
    s.hist.put (s.hist.ticket t) = m ∧ (s.hist.put (s.hist.ticket t)).isSome := by
  have read : s.hist.got (s.hist.ticket t) = m → 5 ≤ s.hist.rankAt (s.hist.ticket t) →
      s.hist.put (s.hist.ticket t) = m ∧ (s.hist.put (s.hist.ticket t)).isSome := by
    intro hgot hrank
    rw [hi.got, if_pos hrank] at hgot
    exact ⟨hgot, (hi.put _).mpr (by omega)⟩
  have hok := hi.pcs t
  cases hpc : s.pc t with
  | readStamp i stamp msg =>
    rw [hpc] at hr hok
    cases hr
    obtain ⟨-, -, hgot⟩ := hok
    obtain ⟨hst, -⟩ := hi.tickets.held_owner (show (s.pc t).stage t = some (.taken t) by rw [hpc]; rfl)
    exact read hgot (by rw [History.rankAt, hst]; exact Nat.le_refl 5)
  | readOk msg =>
    rw [hpc] at hr hok
    cases hr
    exact read hok.1 hok.2
  | sent token | received token =>
    obtain ⟨_ | i, stamp⟩ := token <;> rw [hpc] at hr <;> cases hr
  | _ =>
    rw [hpc] at hr
    cases hr

end ArrayFlavor

/-! ## The list flavor -/

namespace ListFlavor

def Pc.role : Pc T → Role T
  | .sendNext _ (some _) | .sendBlockCas _ _ (some _) | .sent (some _) => .reserved none
  | .writeMsg _ _ msg => .reserved (some msg)
  | .writeReady _ _ | .written => .stored
  | .recvNext _ (some _) | .recvBlockCas _ _ (some _) | .recvDestroy _ _ | .received (some _)
  | .readReady _ _ | .readMsg _ _ => .claimed
  | .readOk msg => .taken msg
  | _ => .none

theorem Pc.phase_holds (pc : Pc T) : pc.phase.Holds pc.role := by
  cases pc with
  | sent token | received token | sendNext _ token | sendBlockCas _ _ token | recvNext _ token
  | recvBlockCas _ _ token => cases token <;> rfl
  | writeMsg _ _ msg => exact .inl ⟨msg, rfl⟩
  | writeReady _ _ => exact .inr rfl
  | readReady _ _ | readMsg _ _ => exact .inl rfl
  | _ => rfl

/-- Entering a call changes what the thread holds only where it begins to write. -/
theorem Pc.call_role {pc pc' : Pc T} {k : BufferCall T}
    (h : ((Call.ofBuffer k).bind fun c => pc.call c) = some pc') :
    pc'.role = pc.role ∨ ∃ m, k = .write m ∧ pc.role = .reserved none ∧ pc'.role = .reserved (some m) := by
  cases pc with
  | sent token | received token | sendNext _ token | sendBlockCas _ _ token | recvNext _ token
  | recvBlockCas _ _ token =>
    cases token <;> rcases k with (_ | _) | _ | _ | (_ | _) | _ | _ <;> cases h
    all_goals first | exact .inl rfl | exact .inr ⟨_, rfl, rfl, rfl⟩
  | _ => rcases k with (_ | _) | _ | _ | (_ | _) | _ | _ <;> cases h <;> exact .inl rfl

/-- Taking the result of a call ends what it has completed. -/
theorem Pc.ret_role (pc : Pc T) {k : BufferCall T} {a : Answer T} (h : pc.phase.answer k = some a) :
    (((pc.role = .stored ∧ a = .written) ∨ ∃ m, pc.role = .taken m ∧ a = .got m) ∧
      ((pc.call .ret).getD pc).role = .none) ∨
    a ≠ .written ∧ (∀ m, a ≠ .got m) ∧ ((pc.call .ret).getD pc).role = pc.role := by
  cases pc with
  | sent token | received token | sendNext _ token | sendBlockCas _ _ token | recvNext _ token
  | recvBlockCas _ _ token =>
    cases token <;> rcases k with (_ | _) | _ | _ | (_ | _) | _ | _ <;> cases h
    all_goals exact .inr ⟨by simp, by simp, rfl⟩
  | written =>
    rcases k with (_ | _) | _ | _ | (_ | _) | _ | _ <;> cases h
    exact .inl ⟨.inl ⟨rfl, rfl⟩, rfl⟩
  | readOk msg =>
    rcases k with (_ | _) | _ | _ | (_ | _) | _ | _ <;> cases h
    exact .inl ⟨.inr ⟨msg, rfl, rfl⟩, rfl⟩
  | _ =>
    rcases k with (_ | _) | _ | _ | (_ | _) | _ | _ <;> cases h
    all_goals exact .inr ⟨by simp, by simp, rfl⟩

theorem sendBranch_role (b : Block T) (block index : Nat) : (sendBranch b block index).role = .none := by
  unfold sendBranch
  repeat' split
  all_goals rfl

theorem recvBranch_role (b : Block T) (block index : Nat) : (recvBranch b block index).role = .none := by
  unfold recvBranch
  repeat' split
  all_goals rfl

theorem sendReserved_role (block offset : Nat) :
    (sendReserved block offset : Pc T).role = .reserved none := by
  unfold sendReserved
  split <;> rfl

theorem recvClaimed_role (block offset : Nat) : (recvClaimed block offset : Pc T).role = .claimed := by
  unfold recvClaimed
  split <;> rfl

variable [DecidableEq Tid] {s : State Tid T} {t : Tid}

/-- Every atomic step of a list channel is a step of the queue. -/
theorem Inv.role_step (hi : Inv s) {spurious : Bool} {ch : Channel T} {pc : Pc T} {ev : Event T}
    (hrun : s.chan.step spurious (s.pc t) = some (ch, pc, ev)) :
    Role.Step (s.hist.ticket t) s.queue (s.pc t).role
      (State.queue ⟨ch, Function.update s.pc t pc, s.hist.record t ev⟩)
      ((s.hist.record t ev).ticket t) pc.role := by
  generalize hpc : s.pc t = p at hrun
  cases p with
  | sendCas b index offset =>
    simp only [Channel.step] at hrun
    split at hrun <;> cases hrun
    · simp only [History.record, Function.update_self, sendReserved_role]
      exact .reserve
    · exact .stay
  | recvCas b index offset =>
    simp only [Channel.step] at hrun
    split at hrun <;> cases hrun
    · simp only [History.record, Function.update_self, recvClaimed_role]
      exact .claim
    · exact .stay
  | sendIndex b =>
    cases hrun
    rw [sendBranch_role]
    exact .stay
  | recvIndex b =>
    cases hrun
    rw [recvBranch_role]
    exact .stay
  | sendNext b slot | recvNext b slot | sendBlockCas b next slot | recvBlockCas b next slot =>
    cases hrun
    cases slot <;> exact .stay
  | writeMsg b offset msg =>
    cases hrun
    exact .store
  | readMsg b offset =>
    cases hrun
    obtain ⟨-, hsome, hslot⟩ := hi.readMsg_slot hpc
    obtain ⟨m, hm⟩ := Option.isSome_iff_exists.mp hsome
    rw [hslot, hm]
    exact .take hm
  | _ =>
    simp only [Channel.step] at hrun
    repeat' split at hrun
    all_goals cases hrun
    all_goals exact .stay

omit [DecidableEq Tid] in
/-- Nothing has been put at a position whose message is yet to be written. -/
theorem Inv.put_of_reserved (hi : Inv s) {m : Option T} (hr : (s.pc t).role = .reserved m) :
    s.hist.put (s.hist.ticket t) = none := by
  have hst : (s.pc t).sendStage t = some (.reserved t) := by
    cases hpc : s.pc t with
    | sent token | received token | sendNext _ token | sendBlockCas _ _ token | recvNext _ token
    | recvBlockCas _ _ token =>
      cases token <;> rw [hpc] at hr <;> cases hr
      all_goals rfl
    | _ =>
      rw [hpc] at hr
      cases hr <;> rfl
  have hrank := hi.sendRank_held hst
  have hno := mt (hi.stages.put (s.hist.ticket t)).mp (by rw [hrank]; simp)
  exact Option.not_isSome_iff_eq_none.mp hno

omit [DecidableEq Tid] in
/-- What a thread has read is what was put at its position. -/
theorem Inv.got_of_taken (hi : Inv s) {m : Option T} (hr : (s.pc t).role = .taken m) :
    s.hist.put (s.hist.ticket t) = m ∧ (s.hist.put (s.hist.ticket t)).isSome := by
  have hok := hi.pcs t
  cases hpc : s.pc t with
  | readOk msg =>
    rw [hpc] at hr hok
    cases hr
    obtain ⟨hgot, hrank⟩ := hok
    rw [hi.stages.got, if_pos hrank] at hgot
    have hready := hi.stages.ready _ hrank
    exact ⟨hgot, (hi.stages.put _).mpr (by omega)⟩
  | sent token | received token | sendNext _ token | sendBlockCas _ _ token | recvNext _ token
  | recvBlockCas _ _ token => cases token <;> rw [hpc] at hr <;> cases hr
  | _ =>
    rw [hpc] at hr
    cases hr

end ListFlavor

/-! ## Both flavors at once -/

namespace Buffer

def queue : Buffer Tid T → Lib.Fifo T
  | .array s => s.queue
  | .list s => s.queue

/-- The position the last CAS of thread `t` has taken. -/
def ticket : Buffer Tid T → Tid → Nat
  | .array s, t => s.hist.ticket t
  | .list s, t => s.hist.ticket t

def role : Buffer Tid T → Tid → Role T
  | .array s, t => (s.pc t).role
  | .list s, t => (s.pc t).role

theorem phase_holds (b : Buffer Tid T) (t : Tid) : (b.phase t).Holds (b.role t) := by
  cases b with
  | array s => exact ArrayFlavor.Pc.phase_holds _
  | list s => exact ListFlavor.Pc.phase_holds _

/-- How many positions of this side have been taken. -/
abbrev count (b : Buffer Tid T) (d : Side) : Nat := d.count b.queue

theorem view_sends (b : Buffer Tid T) : b.view.sends = b.queue.sends := by
  cases b <;> rfl

theorem view_recvs (b : Buffer Tid T) : b.view.recvs = b.queue.recvs := by
  cases b <;> rfl

variable [DecidableEq Tid] {b b' : Buffer Tid T} {t : Tid} {k : BufferCall T} {r : Option (Answer T)}

/-- What one step of thread `t` does to the queue, and to what the threads hold. -/
structure Plays (t : Tid) (k : BufferCall T) (b b' : Buffer Tid T) (r : Option (Answer T)) : Prop where
  others : ∀ u, u ≠ t → b'.role u = b.role u ∧ b'.ticket u = b.ticket u
  drive : Role.Drive k (b.ticket t) b.queue (b.role t) b'.queue (b'.ticket t) (b'.role t) r

theorem array_plays {s : ArrayFlavor.State Tid T} {ch : ArrayFlavor.Channel T} {pc : ArrayFlavor.Pc T}
    {h : ArrayFlavor.History Tid T} (hticket : ∀ u, u ≠ t → h.ticket u = s.hist.ticket u)
    (hd : Role.Drive k (s.hist.ticket t) s.queue (s.pc t).role (ArrayFlavor.State.queue ⟨ch, s.pc, h⟩)
      (h.ticket t) pc.role r) :
    Plays t k (.array s) (.array ⟨ch, Function.update s.pc t pc, h⟩) r := by
  refine ⟨fun u hu => ⟨?_, hticket u hu⟩, ?_⟩
  · simp only [role, Function.update_of_ne hu]
  · simp only [role, Function.update_self]
    exact hd

theorem list_plays {s : ListFlavor.State Tid T} {ch : ListFlavor.Channel T} {pc : ListFlavor.Pc T}
    {h : ListFlavor.History Tid T} (hticket : ∀ u, u ≠ t → h.ticket u = s.hist.ticket u)
    (hd : Role.Drive k (s.hist.ticket t) s.queue (s.pc t).role (ListFlavor.State.queue ⟨ch, s.pc, h⟩)
      (h.ticket t) pc.role r) :
    Plays t k (.list s) (.list ⟨ch, Function.update s.pc t pc, h⟩) r := by
  refine ⟨fun u hu => ⟨?_, hticket u hu⟩, ?_⟩
  · simp only [role, Function.update_of_ne hu]
  · simp only [role, Function.update_self]
    exact hd

/-- A thread that enters a call takes no position. -/
theorem drive_of_entered {q : Lib.Fifo T} {n : Nat} {x x' : Role T}
    (h : x' = x ∨ ∃ m, k = .write m ∧ x = .reserved none ∧ x' = .reserved (some m)) :
    Role.Drive k n q x q n x' none := by
  rcases h with rfl | ⟨m, hk, rfl, rfl⟩
  · exact .run .stay
  · exact .write hk

theorem drive_of_left {q : Lib.Fifo T} {n : Nat} {x x' : Role T} {a : Answer T}
    (h : (((x = .stored ∧ a = .written) ∨ ∃ m, x = .taken m ∧ a = .got m) ∧ x' = .none) ∨
      a ≠ .written ∧ (∀ m, a ≠ .got m) ∧ x' = x) :
    Role.Drive k n q x q n x' (some a) := by
  rcases h with ⟨h, rfl⟩ | ⟨hw, hg, rfl⟩
  · exact .ends h
  · exact .keep hw hg

theorem enter_plays (h : b.enter t k = some b') : Plays t k b b' none := by
  cases b with
  | array s =>
    obtain ⟨s', hs, rfl⟩ := Option.map_eq_some_iff.mp h
    obtain ⟨pc, hpc, rfl⟩ := Lib.Program.enter_eq_some hs
    exact array_plays (fun _ _ => rfl) (drive_of_entered (ArrayFlavor.Pc.call_role hpc))
  | list s =>
    obtain ⟨c, hc, hs⟩ := Option.bind_eq_some_iff.mp h
    obtain ⟨s', hs', rfl⟩ := Option.map_eq_some_iff.mp hs
    obtain ⟨pc, hpc, rfl⟩ := Lib.Program.enter_eq_some hs'
    exact list_plays (fun _ _ => rfl)
      (drive_of_entered (ListFlavor.Pc.call_role (Option.bind_eq_some_iff.mpr ⟨c, hc, hpc⟩)))

theorem run_plays (hb : b.Ok) {spurious : Bool} (h : b.run t spurious = some b') :
    Plays t k b b' none := by
  cases b with
  | array s =>
    obtain ⟨s', hs, rfl⟩ := Option.map_eq_some_iff.mp h
    obtain ⟨ch, pc, ev, hrun, rfl⟩ := Lib.Program.run_eq_some hs
    refine array_plays (fun u hu => ?_) (.run (hb.1.role_step hrun))
    cases ev <;> first | rfl | exact Function.update_of_ne hu _ _
  | list s =>
    obtain ⟨s', hs, rfl⟩ := Option.map_eq_some_iff.mp h
    obtain ⟨ch, pc, ev, hrun, rfl⟩ := Lib.Program.run_eq_some hs
    refine list_plays (fun u hu => ?_) (.run (hb.1.role_step hrun))
    cases ev <;> first | rfl | exact Function.update_of_ne hu _ _

theorem leave_plays {a : Answer T} (h : (b.phase t).answer k = some a) :
    Plays t k b (b.leave t) (some a) := by
  cases b with
  | array s =>
    have hret := drive_of_left (k := k) (q := s.queue) (n := s.hist.ticket t)
      (ArrayFlavor.Pc.ret_role (s.pc t) h)
    simp only [leave, Lib.Program.enter, ArrayFlavor.program]
    cases hpc : (s.pc t).call .ret with
    | none =>
      rw [hpc] at hret
      exact ⟨fun _ _ => ⟨rfl, rfl⟩, hret⟩
    | some pc =>
      rw [hpc] at hret
      exact array_plays (fun _ _ => rfl) hret
  | list s =>
    have hret := drive_of_left (k := k) (q := s.queue) (n := s.hist.ticket t)
      (ListFlavor.Pc.ret_role (s.pc t) h)
    simp only [leave, Lib.Program.enter, ListFlavor.program]
    cases hpc : (s.pc t).call .ret with
    | none =>
      rw [hpc] at hret
      exact ⟨fun _ _ => ⟨rfl, rfl⟩, hret⟩
    | some pc =>
      rw [hpc] at hret
      exact list_plays (fun _ _ => rfl) hret

/-- **What one step of a call does to the positions of a buffered channel.** -/
theorem drive_plays (hb : b.Ok) {spurious : Bool} (h : b.drive t k spurious = some (b', r)) :
    Plays t k b b' r := by
  unfold drive at h
  split at h
  · cases h
    exact leave_plays ‹_›
  · split at h
    · cases h
      exact enter_plays ‹_›
    · obtain ⟨b'', hrun, heq⟩ := Option.map_eq_some_iff.mp h
      cases heq
      exact run_plays hb hrun

omit [DecidableEq Tid] in
/-- What a thread has read is what was put at its position. -/
theorem Ok.put_of_taken (hb : b.Ok) {m : Option T} (hr : b.role t = .taken m) :
    ∃ msg, m = some msg ∧ b.queue.put (b.ticket t) = some msg := by
  cases b with
  | array s =>
    obtain ⟨hgot, hput⟩ := hb.1.got_of_taken hr
    obtain ⟨msg, hmsg⟩ := Option.isSome_iff_exists.mp hput
    exact ⟨msg, hgot.symm.trans hmsg, hmsg⟩
  | list s =>
    obtain ⟨hgot, hput⟩ := hb.1.got_of_taken hr
    obtain ⟨msg, hmsg⟩ := Option.isSome_iff_exists.mp hput
    exact ⟨msg, hgot.symm.trans hmsg, hmsg⟩

omit [DecidableEq Tid] in
theorem Ok.put_of_reserved (hb : b.Ok) {m : Option T} (hr : b.role t = .reserved m) :
    b.queue.put (b.ticket t) = none := by
  cases b with
  | array s => exact hb.1.put_of_reserved hr
  | list s => exact hb.1.put_of_reserved hr

omit [DecidableEq Tid] in
/-- No more is received than sent. -/
theorem Ok.le (hb : b.Ok) : b.count .recv ≤ b.count .send := by
  cases b with
  | array s => exact hb.1.recvs_le_sends
  | list s => exact hb.1.ends.ordered

omit [DecidableEq Tid] in
/-- No more is outstanding than there is room for. -/
theorem Ok.bound (hb : b.Ok) {n : Nat} (hcap : b.cap = some n) : b.count .send ≤ b.count .recv + n := by
  cases b with
  | array s =>
    cases hcap
    exact hb.1.sends_le
  | list s => cases hcap

end Buffer

/-- A position is taken by an attempt of its side. -/
theorem Phase.Drive.trying {cap : Option Nat} {k : BufferCall T} {v v' : View} {p p' : Phase T}
    {r : Option (Answer T)} {x' : Role T} {d : Side} (h : Phase.Drive cap k v p v' p' r)
    (hx : p.Holds .none) (hx' : p'.Holds x') (hside : x'.side = some d) : p = .trying d := by
  -- Who holds nothing does not come to hold a position, but by its CAS.
  have nothing : x' ≠ .none := by
    rintro rfl
    cases hside
  cases h with
  | enter he =>
    unfold Phase.enter at he
    split at he <;> cases he <;> first | exact absurd hx' nothing | cases hx
  | run hs =>
    cases hs with
    | stay =>
      cases p with
      | taken d' | granted d' => cases d' <;> cases hx
      | completing d' => cases d' <;> rcases hx with hx | hx <;> simp at hx
      | written | got _ => cases hx
      | _ => exact absurd hx' nothing
    | take hp =>
      rename_i d'
      rcases hp with rfl | rfl <;> cases d' <;> cases hx' <;> cases hside <;> rfl
    | settle =>
      rename_i d'
      cases d' <;> cases hx
    | wrote | got => rcases hx with hx | hx <;> simp at hx
    | _ => exact absurd hx' nothing
  | answer _ =>
    cases p with
    | granted d' => cases d' <;> cases hx
    | _ => exact absurd hx' nothing

end CrossbeamChannel
