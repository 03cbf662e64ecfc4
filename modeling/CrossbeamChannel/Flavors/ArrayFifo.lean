import CrossbeamChannel.Lib.Fifo
import CrossbeamChannel.Flavors.ArrayStep

/-!
# The array flavor is a FIFO queue of its capacity

The view of a state is its history: how many positions were reserved and claimed, and what
was written and read at each. Along this view every atomic step of the channel is a step of
the abstract queue or no step at all (`refines_fifo`). What the abstract queue does not
speak about, the slots and the verdicts of the two loops, follows from the invariant
(`Inv.exact`) and from the instant rule (`full_instant`, `empty_instant`).
-/

namespace CrossbeamChannel.ArrayFlavor

variable {Tid T : Type}

/-! ## The view -/

/-- What the queue of this channel looks like from outside. -/
def State.queue (s : State Tid T) : Lib.Fifo T where
  sends := s.hist.sends
  recvs := s.hist.recvs
  put := s.hist.put
  got := s.hist.got

/-- The thread holds a reserved position whose message is not written yet. -/
def Pc.MayWrite : Pc T → Prop
  | .sent ⟨some _, _⟩ | .writeMsg _ _ _ => True
  | _ => False

/-- The thread holds a claimed position whose message is not read yet. -/
def Pc.MayRead : Pc T → Prop
  | .received ⟨some _, _⟩ | .readMsg _ _ => True
  | _ => False

/-- Inside `start_send`, or at its `false` return. -/
def Pc.InStartSend : Pc T → Prop
  | .sendDisconnected | .sendTail | .sendStamp _ | .sendCas _ _ | .sendHead _ | .full => True
  | _ => False

/-- Inside `start_recv`, or at its `false` return. -/
def Pc.InStartRecv : Pc T → Prop
  | .recvHead | .recvStamp _ | .recvCas _ _ | .recvTail _ | .recvDisconnected _ _
  | .recvTailAgain _ _ | .empty => True
  | _ => False

theorem Pc.mayWrite_iff {pc : Pc T} (t : Tid) : pc.MayWrite ↔ pc.stage t = some (.reserved t) := by
  cases pc with
  | sent token | received token => obtain ⟨_ | i, stamp⟩ := token <;> simp [MayWrite, stage]
  | _ => simp [MayWrite, stage]

theorem Pc.mayRead_iff {pc : Pc T} (t : Tid) : pc.MayRead ↔ pc.stage t = some (.claimed t) := by
  cases pc with
  | sent token | received token => obtain ⟨_ | i, stamp⟩ := token <;> simp [MayRead, stage]
  | _ => simp [MayRead, stage]

/-- What every state of a bounded queue has to satisfy, position by position and slot by
    slot. -/
structure Exact (s : State Tid T) : Prop where
  /-- The `k`-th successful head CAS yields the message of the `k`-th tail CAS. -/
  yields : ∀ k m, s.hist.got k = some m → s.hist.put k = some m
  /-- A claimed message was read, or is about to be read by exactly one thread. -/
  claimed : ∀ k, k < s.hist.recvs ↔
    (s.hist.got k).isSome ∨ ∃! t, s.hist.ticket t = k ∧ (s.pc t).MayRead
  /-- A reserved position was written, or is about to be written by exactly one thread. -/
  reserved : ∀ k, k < s.hist.sends ↔
    (s.hist.put k).isSome ∨ ∃! t, s.hist.ticket t = k ∧ (s.pc t).MayWrite
  /-- `read` returns the message of the position its `start_recv` claimed. -/
  returned : ∀ t msg, s.pc t = .readOk msg → ∃ m, msg = some m ∧ s.hist.put (s.hist.ticket t) = msg
  /-- The tail CASes are ahead of the head CASes by `0..=cap`. -/
  ordered : s.hist.recvs ≤ s.hist.sends
  bounded : s.hist.sends ≤ s.hist.recvs + s.chan.cap
  /-- A slot is only written when its message was read out. -/
  overwrites : ∀ t i stamp m, s.pc t = .writeMsg i stamp m →
    i < s.chan.cap ∧ (s.chan.buffer i).msg = none ∧ s.hist.put (s.hist.ticket t) = none
  /-- A slot is only read when it holds the message of the position, for the first time. -/
  reads : ∀ t i stamp, s.pc t = .readMsg i stamp →
    i < s.chan.cap ∧ s.hist.got (s.hist.ticket t) = none ∧
      ∃ m, (s.chan.buffer i).msg = some m ∧ s.hist.put (s.hist.ticket t) = some m

namespace Inv

variable {s : State Tid T}

theorem held_rank (hi : Inv s) {t : Tid} {st : Stage Tid} (hpc : (s.pc t).stage t = some st) :
    s.hist.rankAt (s.hist.ticket t) = st.rank := by
  rw [History.rankAt, hi.tickets.own t st hpc]

/-- The slot a thread writes to was read out. -/
theorem writeMsg_slot (hi : Inv s) {t : Tid} {i stamp : Nat} {m : T}
    (hpc : s.pc t = .writeMsg i stamp m) :
    i < s.chan.cap ∧ (s.chan.buffer i).msg = none := by
  have hr : s.hist.rankAt (s.hist.ticket t) = 1 := hi.held_rank (by rw [hpc]; rfl)
  have hok := hi.pcs t
  rw [hpc] at hok
  obtain ⟨rfl, -⟩ := hok
  refine ⟨Nat.mod_lt _ hi.geo.pos, ?_⟩
  rw [hi.slot _ ⟨by omega, hi.held_free (by omega)⟩, History.view, hr]
  rfl

theorem exact (hi : Inv s) : Exact s where
  yields := by
    intro k m hk
    rw [hi.got] at hk
    split at hk
    · exact hk
    · exact absurd hk (by simp)
  claimed := by
    intro k
    rw [hi.recvs k]
    constructor
    · intro h4
      rcases Nat.lt_or_ge (s.hist.rankAt k) 5 with h4' | h5
      · right
        have heq : s.hist.rankAt k = 4 := by omega
        obtain ⟨t, hst⟩ : ∃ t, s.hist.stage k = .claimed t := by
          cases hs : s.hist.stage k <;> simp [History.rankAt, hs] at heq
          exact ⟨_, rfl⟩
        simpa only [← Pc.mayRead_iff] using hi.tickets.holder (fun _ => rfl) hst
      · exact .inl (by rw [hi.got, if_pos h5, hi.put]; omega)
    · rintro (hg | ⟨t, ⟨rfl, ht⟩, -⟩)
      · rw [hi.got] at hg
        split at hg
        · omega
        · exact absurd hg (by simp)
      · rw [hi.held_rank ((Pc.mayRead_iff t).mp ht)]
        exact Nat.le_refl 4
  reserved := by
    intro k
    rw [hi.sends k, hi.put]
    constructor
    · intro h1
      rcases Nat.lt_or_ge (s.hist.rankAt k) 2 with h1' | h2
      · right
        have heq : s.hist.rankAt k = 1 := by omega
        obtain ⟨t, hst⟩ : ∃ t, s.hist.stage k = .reserved t := by
          cases hs : s.hist.stage k <;> simp [History.rankAt, hs] at heq
          exact ⟨_, rfl⟩
        simpa only [← Pc.mayWrite_iff] using hi.tickets.holder (fun _ => rfl) hst
      · exact .inl h2
    · rintro (hg | ⟨t, ⟨rfl, ht⟩, -⟩)
      · omega
      · rw [hi.held_rank ((Pc.mayWrite_iff t).mp ht)]
        exact Nat.le_refl 1
  returned := by
    intro t msg hpc
    have hok := hi.pcs t
    rw [hpc] at hok
    obtain ⟨hgot, h5⟩ := hok
    rw [hi.got, if_pos h5] at hgot
    obtain ⟨m, hm⟩ := Option.isSome_iff_exists.mp ((hi.put (s.hist.ticket t)).mpr (by omega))
    exact ⟨m, hgot ▸ hm, hgot⟩
  ordered := hi.recvs_le_sends
  bounded := hi.sends_le
  overwrites := by
    intro t i stamp m hpc
    have hr : s.hist.rankAt (s.hist.ticket t) = 1 := hi.held_rank (by rw [hpc]; rfl)
    obtain ⟨hlt, hmsg⟩ := hi.writeMsg_slot hpc
    refine ⟨hlt, hmsg, ?_⟩
    have hput := mt (hi.put (s.hist.ticket t)).mp (by omega)
    simpa using hput
  reads := by
    intro t i stamp hpc
    have hr : s.hist.rankAt (s.hist.ticket t) = 4 := hi.held_rank (by rw [hpc]; rfl)
    obtain ⟨hslot, hsome⟩ := hi.readMsg_slot hpc
    obtain ⟨m, hm⟩ := Option.isSome_iff_exists.mp hsome
    have hok := hi.pcs t
    rw [hpc] at hok
    obtain ⟨rfl, -⟩ := hok
    refine ⟨Nat.mod_lt _ hi.geo.pos, ?_, m, by rw [hslot]; exact hm, hm⟩
    rw [hi.got, if_neg (by omega)]

end Inv

/-! ## Refinement -/

theorem Channel.step_put {ch ch' : Channel T} {spurious : Bool} {pc pc' : Pc T} {m : T}
    (h : ch.step spurious pc = some (ch', pc', .put m)) : ∃ i stamp, pc = .writeMsg i stamp m := by
  cases pc with
  | writeMsg i stamp msg =>
    simp only [Channel.step, Option.some.injEq, Prod.mk.injEq, Event.put.injEq] at h
    exact ⟨i, stamp, by rw [h.2.2]⟩
  | _ =>
    simp only [Channel.step] at h
    repeat' split at h
    all_goals simp at h

theorem Channel.step_got {ch ch' : Channel T} {spurious : Bool} {pc pc' : Pc T} {msg : Option T}
    (h : ch.step spurious pc = some (ch', pc', .got msg)) :
    ∃ i stamp, pc = .readMsg i stamp ∧ msg = (ch.buffer i).msg := by
  cases pc with
  | readMsg i stamp =>
    simp only [Channel.step, Option.some.injEq, Prod.mk.injEq, Event.got.injEq] at h
    exact ⟨i, stamp, rfl, h.2.2.symm⟩
  | _ =>
    simp only [Channel.step] at h
    repeat' split at h
    all_goals simp at h

theorem Channel.step_cap {ch : Channel T} {spurious : Bool} {pc : Pc T}
    {r : Channel T × Pc T × Event T} (h : ch.step spurious pc = some r) : r.1.cap = ch.cap := by
  cases pc <;> simp only [Channel.step] at h <;> (repeat' split at h) <;> cases h <;> rfl

section

variable [DecidableEq Tid]

theorem cap_reachable {ch : Channel T} {maxValue cap : Nat}
    (h : Channel.withCapacity maxValue none cap = some ch) {s : State Tid T}
    (hs : (system ch).Reachable s) : s.chan.cap = cap := by
  refine hs.invariant (P := fun s => s.chan.cap = cap) (fun s0 h0 => ?_)
    fun s0 l s1 _ hi hstep => ?_
  · obtain rfl := h0
    unfold Channel.withCapacity at h
    split at h <;> [split at h; skip]
    · rw [← Option.some.inj h]; rfl
    · exact absurd h (by simp)
    · exact absurd h (by simp)
  · exact Lib.Program.step_chan (Q := fun c => c.cap = cap)
      (fun _ _ _ _ hr hq => (Channel.step_cap hr).trans hq) hstep hi

/-- **The array flavor refines the bounded FIFO queue.** -/
theorem refines_fifo {ch : Channel T} {maxValue cap : Nat}
    (h : Channel.withCapacity maxValue none cap = some ch) :
    Lib.Refines (system ch : Lib.System (State Tid T) _) (Lib.Fifo.system (some cap))
      State.queue where
  init := by
    rintro s rfl
    rfl
  step := by
    intro s l s' hr hs
    have hi := inv_reachable h hr
    have hx := (inv_reachable h (.step hr hs)).exact
    have hcap' := cap_reachable h (.step hr hs)
    cases l with
    | call t c =>
      obtain ⟨pc, -, rfl⟩ := Lib.Program.enter_eq_some hs
      exact .inl rfl
    | run t spurious =>
      obtain ⟨ch', pc, ev, hstep, rfl⟩ := Lib.Program.run_eq_some hs
      cases ev with
      | silent | publish | release => exact .inl rfl
      | tailCas =>
        refine .inr ⟨(), .push fun n hn => ?_⟩
        obtain rfl := Option.some.inj hn
        have hb : s.hist.sends + 1 ≤ s.hist.recvs + ch'.cap := hx.bounded
        change ch'.cap = cap at hcap'
        change s.hist.sends < s.hist.recvs + cap
        omega
      | headCas =>
        exact .inr ⟨(), .pop (show s.hist.recvs < s.hist.sends from hx.ordered)⟩
      | put m =>
        obtain ⟨i, stamp, hpc⟩ := Channel.step_put hstep
        obtain ⟨-, -, hnew⟩ := hi.exact.overwrites t i stamp m hpc
        have hr : s.hist.rankAt (s.hist.ticket t) = 1 := hi.held_rank (by rw [hpc]; rfl)
        exact .inr ⟨(), .fill m ((hi.sends _).mpr (by omega)) hnew⟩
      | got msg =>
        obtain ⟨i, stamp, hpc, rfl⟩ := Channel.step_got hstep
        obtain ⟨-, hnew, m, hslot, hput⟩ := hi.exact.reads t i stamp hpc
        have hr : s.hist.rankAt (s.hist.ticket t) = 4 := hi.held_rank (by rw [hpc]; rfl)
        refine .inr ⟨(), ?_⟩
        rw [hslot]
        exact .take m ((hi.recvs _).mpr (by omega)) hput hnew

/-! ## The verdicts of the two loops -/

theorem Channel.step_disconnected {ch : Channel T} {spurious : Bool} {pc : Pc T}
    {r : Channel T × Pc T × Event T} (h : ch.step spurious pc = some r)
    (hd : ch.isDisconnected = true) : r.1.isDisconnected = true := by
  cases pc <;> simp only [Channel.step] at h <;> (repeat' split at h) <;> cases h <;>
    first | exact hd | rfl

/-- The flag is never cleared. -/
theorem disconnected_step {ch : Channel T} {s s' : State Tid T} {l : Label Tid T}
    (hs : (system ch).step s l s') (hd : s.chan.isDisconnected = true) :
    s'.chan.isDisconnected = true :=
  Lib.Program.step_chan (Q := fun c => c.isDisconnected = true)
    (fun _ _ _ _ hr hd => Channel.step_disconnected hr hd) hs hd

theorem Channel.step_full {ch ch' : Channel T} {spurious : Bool} {pc : Pc T} {ev : Event T}
    (h : ch.step spurious pc = some (ch', .full, ev)) :
    pc = .sendHead (ch.wrappingAdd ch.head ch.oneLap) := by
  cases pc <;> simp only [Channel.step] at h <;> (repeat' split at h) <;> cases h
  rename_i heq
  rw [heq]

theorem Channel.step_empty {ch ch' : Channel T} {spurious : Bool} {pc : Pc T} {ev : Event T}
    (h : ch.step spurious pc = some (ch', .empty, ev)) :
    (∃ head tail, pc = .recvDisconnected head tail) ∧ ch.isDisconnected = false := by
  cases pc <;> simp only [Channel.step] at h <;> (repeat' split at h) <;> cases h
  rename_i hd
  exact ⟨⟨_, _, rfl⟩, by simpa using hd⟩

theorem Channel.step_recvDisconnected {ch ch' : Channel T} {spurious : Bool} {pc : Pc T}
    {head tail : Nat} {ev : Event T}
    (h : ch.step spurious pc = some (ch', .recvDisconnected head tail, ev)) :
    pc = .recvTail (ch.wrappingAdd ch.tail ch.oneLap) := by
  cases pc <;> simp only [Channel.step] at h <;> (repeat' split at h) <;> cases h
  rename_i heq
  rw [heq]

theorem Pc.call_verdict {pc pc' : Pc T} {c : Call T} (h : pc.call c = some pc') :
    pc' ≠ .full ∧ pc' ≠ .empty ∧ ∀ head tail, pc' ≠ .recvDisconnected head tail := by
  unfold Pc.call at h
  split at h <;> cases h <;> exact ⟨by simp, by simp, by simp⟩

omit [DecidableEq Tid] in
/-- A sender that finds its tail a whole round behind the head sees a full queue. -/
theorem Inv.full_of_head {s : State Tid T} (hi : Inv s) {t : Tid}
    (hpc : s.pc t = .sendHead (s.chan.wrappingAdd s.chan.head s.chan.oneLap)) :
    s.hist.sends = s.hist.recvs + s.chan.cap := by
  have hg := hi.geo
  obtain ⟨k, hk, heq⟩ : ∃ k, k ≤ s.hist.sends ∧ _ = tailStamp s.chan.cap s.chan.oneLap k :=
    Inv.pc_eq hpc hi
  rw [hg.wrappingAdd_eq, hi.head, headStamp_add_eq hg.pos hg.le] at heq
  have := hi.sends_le
  omega

omit [DecidableEq Tid] in
/-- A receiver that finds the tail at its head sees an empty queue. -/
theorem Inv.empty_of_tail {s : State Tid T} (hi : Inv s) {t : Tid}
    (hpc : s.pc t = .recvTail (s.chan.wrappingAdd s.chan.tail s.chan.oneLap)) :
    s.hist.sends = s.hist.recvs := by
  have hg := hi.geo
  obtain ⟨k, hk, heq⟩ : ∃ k, k ≤ s.hist.recvs ∧ _ = headStamp s.chan.cap s.chan.oneLap k :=
    Inv.pc_eq hpc hi
  rw [hg.wrappingAdd_eq, hi.tail, tailStamp_add_eq hg.pos hg.le] at heq
  have := hi.recvs_le_sends
  omega

section

variable {ch : Channel T} {maxValue cap : Nat}
variable (h : Channel.withCapacity maxValue none cap = some ch)
variable (e : (system ch : Lib.System (State Tid T) (Label Tid T)).Exec)

include h

/-- `start_send` says "full" only if the queue was full at an instant of the call. -/
theorem full_instant {j : Nat} (hj : j ≤ e.len) {t : Tid} (hpc : (e.state j).pc t = .full) :
    ∃ k, k ≤ j ∧ (e.state k).hist.sends = (e.state k).hist.recvs + cap ∧
      ∀ m, k ≤ m → m ≤ j → ((e.state m).pc t).InStartSend := by
  refine e.since (I := fun s => (s.pc t).InStartSend)
    (P := fun s => s.hist.sends = s.hist.recvs + cap) (Q := fun s => s.pc t = .full)
    ?_ ?_ ?_ hj hpc
  · rintro s rfl
    simp [State.init]
  · intro s _ hs
    rw [hs]
    trivial
  · intro s l s' hr hs hfull
    rcases Lib.Program.step_pc hs t with heq | ⟨c, hc⟩ | ⟨spurious, ev, hrun⟩
    · exact .inl (heq ▸ hfull)
    · exact absurd hfull (Pc.call_verdict hc).1
    · rw [hfull] at hrun
      have hp := Channel.step_full hrun
      refine .inr ⟨?_, by rw [hp]; trivial⟩
      rw [(inv_reachable h hr).full_of_head hp, cap_reachable h hr]

/-- `start_recv` turns to the flag only if the queue was empty at an instant of the call. -/
theorem tail_instant {j : Nat} (hj : j ≤ e.len) {t : Tid}
    (hpc : ∃ head tail, (e.state j).pc t = .recvDisconnected head tail) :
    ∃ k, k ≤ j ∧ (e.state k).hist.sends = (e.state k).hist.recvs ∧
      ∀ m, k ≤ m → m ≤ j → ((e.state m).pc t).InStartRecv := by
  refine e.since (I := fun s => (s.pc t).InStartRecv)
    (P := fun s => s.hist.sends = s.hist.recvs)
    (Q := fun s => ∃ head tail, s.pc t = .recvDisconnected head tail) ?_ ?_ ?_ hj hpc
  · rintro s rfl ⟨head, tail, hs⟩
    simp [State.init] at hs
  · rintro s _ ⟨head, tail, hs⟩
    rw [hs]
    trivial
  · rintro s l s' hr hs ⟨head, tail, hd⟩
    rcases Lib.Program.step_pc hs t with heq | ⟨c, hc⟩ | ⟨spurious, ev, hrun⟩
    · exact .inl ⟨head, tail, heq ▸ hd⟩
    · exact absurd hd ((Pc.call_verdict hc).2.2 head tail)
    · rw [hd] at hrun
      have hp := Channel.step_recvDisconnected hrun
      exact .inr ⟨(inv_reachable h hr).empty_of_tail hp, by rw [hp]; trivial⟩

/-- `start_recv` says "empty" only if the queue was empty and connected at an instant of
    the call. -/
theorem empty_instant {j : Nat} (hj : j ≤ e.len) {t : Tid} (hpc : (e.state j).pc t = .empty) :
    ∃ k, k ≤ j ∧ (e.state k).hist.sends = (e.state k).hist.recvs ∧
      (e.state k).chan.isDisconnected = false ∧
      ∀ m, k ≤ m → m ≤ j → ((e.state m).pc t).InStartRecv := by
  -- the instant of the flag load, which comes after the instant of the tail load
  obtain ⟨i, hij, ⟨hseen, hflag⟩, hin⟩ : ∃ i, i ≤ j ∧
      ((∃ head tail, (e.state i).pc t = .recvDisconnected head tail) ∧
        (e.state i).chan.isDisconnected = false) ∧
      ∀ m, i ≤ m → m ≤ j → ((e.state m).pc t).InStartRecv := by
    refine e.since (I := fun s => (s.pc t).InStartRecv)
      (P := fun s => (∃ head tail, s.pc t = .recvDisconnected head tail) ∧
        s.chan.isDisconnected = false)
      (Q := fun s => s.pc t = .empty) ?_ ?_ ?_ hj hpc
    · rintro s rfl
      simp [State.init]
    · intro s _ hs
      rw [hs]
      trivial
    · intro s l s' hr hs hempty
      rcases Lib.Program.step_pc hs t with heq | ⟨c, hc⟩ | ⟨spurious, ev, hrun⟩
      · exact .inl (heq ▸ hempty)
      · exact absurd hempty (Pc.call_verdict hc).2.1
      · rw [hempty] at hrun
        obtain ⟨⟨head, tail, hp⟩, hflag⟩ := Channel.step_empty hrun
        exact .inr ⟨⟨⟨head, tail, hp⟩, hflag⟩, by rw [hp]; trivial⟩
  obtain ⟨k, hki, heq, hink⟩ := tail_instant h e (by omega) hseen
  refine ⟨k, by omega, heq, ?_, fun m hkm hm => ?_⟩
  · by_contra hd
    have hlate := e.persists (Q := fun s => s.chan.isDisconnected = true)
      (fun s l s' _ hs => disconnected_step hs) hki (by omega) (by simpa using hd)
    simp [hlate] at hflag
  · rcases Nat.le_total m i with hle | hge
    · exact hink m hkm hle
    · exact hin m hge hm

omit e

/-- **The array flavor is a FIFO queue of capacity `cap`.** Any number of threads, any
    interleaving of atomic steps, from `with_capacity` on: the channel refines the bounded
    queue, every state of every run is exact, and a `false` return tells the truth about
    some instant of the call. -/
theorem channel_refines_fifo :
    Lib.Refines (system ch : Lib.System (State Tid T) _) (Lib.Fifo.system (some cap))
        State.queue ∧
      ∀ (e : (system ch : Lib.System (State Tid T) (Label Tid T)).Exec) (j : Nat), j ≤ e.len →
        (e.state j).chan.cap = cap ∧ Exact (e.state j) ∧
        ∀ t, ((e.state j).pc t = .full →
            ∃ k, k ≤ j ∧ (e.state k).hist.sends = (e.state k).hist.recvs + cap ∧
              ∀ m, k ≤ m → m ≤ j → ((e.state m).pc t).InStartSend) ∧
          ((e.state j).pc t = .empty →
            ∃ k, k ≤ j ∧ (e.state k).hist.sends = (e.state k).hist.recvs ∧
              (e.state k).chan.isDisconnected = false ∧
              ∀ m, k ≤ m → m ≤ j → ((e.state m).pc t).InStartRecv) := by
  refine ⟨refines_fifo h, fun e j hj => ?_⟩
  have hr := e.reachable hj
  exact ⟨cap_reachable h hr, (inv_reachable h hr).exact, fun t =>
    ⟨full_instant h e hj, empty_instant h e hj⟩⟩

end

/-- One sender fills a channel of capacity one and is refused once; a receiver takes the
    message and is refused once. -/
def oneSlotLabels : List (Label Bool Nat) :=
  [.call false .startSend, .run false false, .run false false, .run false false,
    .run false true, .run false false, .run false false, .run false false,
    .call false (.write 7), .run false false, .run false false, .call false .ret,
    .call false .startSend, .run false false, .run false false, .run false false,
    .run false false,
    .call true .startRecv, .run true false, .run true false, .run true false,
    .call true .read, .run true false, .run true false, .call true .ret,
    .call true .startRecv, .run true false, .run true false, .run true false,
    .run true false]

/-- The channel `with_capacity(1)` builds. -/
def oneSlot : Channel Nat := ⟨1, 0, fun i => ⟨i, none⟩, 1, 1, false, none⟩

def oneSlotRun : (system oneSlot : Lib.System (State Bool Nat) (Label Bool Nat)).Exec :=
  .ofReplay (fun _ _ _ (hs : program.step _ _ = some _) => hs) (State.init oneSlot) rfl oneSlotLabels
    (by decide)

theorem channel_refines_fifo_oneSlot :
    (oneSlotRun.state 30).hist.got 0 = some 7 ∧
      (oneSlotRun.state 30).pc false = .full ∧ (oneSlotRun.state 30).pc true = .empty ∧
      (∃ k, k ≤ 30 ∧ (oneSlotRun.state k).hist.sends = (oneSlotRun.state k).hist.recvs + 1 ∧
        ∀ m, k ≤ m → m ≤ 30 → ((oneSlotRun.state m).pc false).InStartSend) ∧
      Exact (oneSlotRun.state 30) := by
  have h : Channel.withCapacity 100 none 1 = some oneSlot := rfl
  have hrun := (@channel_refines_fifo Bool Nat _ _ _ _ h).2
  obtain ⟨-, hexact, hverdict⟩ := hrun oneSlotRun 30 (by decide)
  have hfull : (oneSlotRun.state 30).pc false = .full := rfl
  exact ⟨rfl, hfull, rfl, (hverdict false).1 hfull, hexact⟩

end

end CrossbeamChannel.ArrayFlavor
