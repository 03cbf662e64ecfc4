import CrossbeamChannel.Lib.Counters
import CrossbeamChannel.Flavors.ArrayFifo
import CrossbeamChannel.Flavors.ListFifo

/-!
# What `len`, `is_empty` and `is_full` tell

Each observer combines loads of the two ends made at different moments. `is_empty` loads the
head first and `is_full` the tail first: the number loaded first is the one that must not be
ahead of the other, so that either answer was right at some instant of the call
(`Lib.System.Counters.answer`). `len` reads the tail twice, and between two equal readings it
did not move: the distance it returns was right when it loaded the head.
-/

namespace CrossbeamChannel

variable {Tid T : Type}

namespace ArrayFlavor

namespace Pc

/-- Inside `len`, or at its return. -/
def InLen : Pc T → Prop
  | .lenTail | .lenHead _ | .lenTailAgain _ _ | .len _ => True
  | _ => False

/-- Inside `is_empty`, or at its return. -/
def InIsEmpty : Pc T → Prop
  | .emptyHead | .emptyTail _ | .isEmpty _ => True
  | _ => False

/-- Inside `is_full`, or at its return. -/
def InIsFull : Pc T → Prop
  | .fullTail | .fullHead _ | .isFull _ => True
  | _ => False

/-- The pcs of the observers behind their first load. -/
def observes : Pc T → Bool
  | .lenHead _ | .lenTailAgain _ _ | .len _ | .emptyTail _ | .isEmpty _ | .fullHead _
  | .isFull _ => true
  | _ => false

theorem call_observes {pc pc' : Pc T} {c : Call T} (h : pc.call c = some pc') :
    pc'.observes = false := by
  unfold Pc.call at h
  split at h <;> cases h <;> rfl

theorem not_called {q : Pc T} (hq : q.observes = true) (pc : Pc T) (c : Call T) :
    pc.call c ≠ some q := by
  intro h
  rw [call_observes h] at hq
  cases hq

end Pc

/-! ## Single loads -/

section

variable {ch ch' : Channel T} {spurious : Bool} {pc : Pc T} {ev : Event T} {tail head n : Nat}
  {res : Bool}

theorem Channel.step_lenHead (h : ch.step spurious pc = some (ch', .lenHead tail, ev)) :
    pc = .lenTail ∧ ch.tail = tail := by
  cases pc <;> simp only [Channel.step] at h <;> (repeat' split at h) <;> cases h
  exact ⟨rfl, rfl⟩

theorem Channel.step_lenTailAgain
    (h : ch.step spurious pc = some (ch', .lenTailAgain tail head, ev)) :
    pc = .lenHead tail ∧ ch.head = head := by
  cases pc <;> simp only [Channel.step] at h <;> (repeat' split at h) <;> cases h
  exact ⟨rfl, rfl⟩

theorem Channel.step_len (h : ch.step spurious pc = some (ch', .len n, ev)) :
    ∃ tail head, pc = .lenTailAgain tail head ∧ ch.tail = tail ∧ n = ch.lenOf tail head := by
  cases pc <;> simp only [Channel.step] at h <;> (repeat' split at h) <;> cases h
  exact ⟨_, _, rfl, ‹_›, rfl⟩

theorem Channel.step_emptyTail (h : ch.step spurious pc = some (ch', .emptyTail head, ev)) :
    pc = .emptyHead ∧ ch.head = head := by
  cases pc <;> simp only [Channel.step] at h <;> (repeat' split at h) <;> cases h
  exact ⟨rfl, rfl⟩

theorem Channel.step_isEmpty (h : ch.step spurious pc = some (ch', .isEmpty res, ev)) :
    ∃ head, pc = .emptyTail head ∧ (res = true ↔ ch.wrappingAdd ch.tail ch.oneLap = head) := by
  cases pc <;> simp only [Channel.step] at h <;> (repeat' split at h) <;> cases h
  exact ⟨_, rfl, decide_eq_true_iff⟩

theorem Channel.step_fullHead (h : ch.step spurious pc = some (ch', .fullHead tail, ev)) :
    pc = .fullTail ∧ ch.tail = tail := by
  cases pc <;> simp only [Channel.step] at h <;> (repeat' split at h) <;> cases h
  exact ⟨rfl, rfl⟩

theorem Channel.step_isFull (h : ch.step spurious pc = some (ch', .isFull res, ev)) :
    ∃ tail, pc = .fullHead tail ∧ (res = true ↔ ch.wrappingAdd ch.head ch.oneLap = tail) := by
  cases pc <;> simp only [Channel.step] at h <;> (repeat' split at h) <;> cases h
  exact ⟨_, rfl, decide_eq_true_iff⟩

theorem Channel.step_oneLap {r : Channel T × Pc T × Event T} (h : ch.step spurious pc = some r) :
    r.1.oneLap = ch.oneLap := by
  cases pc <;> simp only [Channel.step] at h <;> (repeat' split at h) <;> cases h <;> rfl

end

/-- The distance between two stamps. -/
theorem Channel.Geometry.lenOf_eq {ch : Channel T} (g : ch.Geometry) {r s : Nat} (hle : r ≤ s)
    (hcap : s ≤ r + ch.cap) :
    ch.lenOf (tailStamp ch.cap ch.oneLap s) (headStamp ch.cap ch.oneLap r) = s - r := by
  have hr := Nat.mod_lt r g.pos
  have hs := Nat.mod_lt s g.pos
  obtain ⟨n, rfl⟩ := Nat.exists_eq_add_of_le hle
  have hmod := add_mod_cap g.pos (r := r) (show n ≤ ch.cap by omega)
  unfold Channel.lenOf
  rw [g.index_tailStamp, g.index_headStamp, g.wrappingAdd_eq, hmod]
  simp only [tailStamp_add_eq g.pos g.le]
  split_ifs at hmod ⊢ <;> omega

variable [DecidableEq Tid] {ch : Channel T} {maxValue cap : Nat}

theorem oneLap_reachable {s : State Tid T} (hs : (system ch).Reachable s) :
    s.chan.oneLap = ch.oneLap := by
  refine hs.invariant (P := fun s => s.chan.oneLap = ch.oneLap) ?_ fun s l s' _ hi hstep => ?_
  · rintro s rfl
    rfl
  · exact Lib.Program.step_chan (Q := fun c => c.oneLap = ch.oneLap)
      (fun _ _ _ _ hr hq => (Channel.step_oneLap hr).trans hq) hstep hi

/-- A step moves one of the ends at most. -/
theorem counts_step {s s' : State Tid T} {l : Label Tid T} (hs : (system ch).step s l s') :
    (s'.hist.recvs = s.hist.recvs ∧ s.hist.sends ≤ s'.hist.sends) ∨
      (s.hist.recvs ≤ s'.hist.recvs ∧ s'.hist.sends = s.hist.sends) := by
  cases l with
  | call t c =>
    obtain ⟨pc, -, rfl⟩ := Lib.Program.enter_eq_some hs
    exact .inl ⟨rfl, Nat.le_refl _⟩
  | run t spurious =>
    obtain ⟨ch', pc, ev, -, rfl⟩ := Lib.Program.run_eq_some hs
    cases ev with
    | tailCas => exact .inl ⟨rfl, Nat.le_succ _⟩
    | headCas => exact .inr ⟨Nat.le_succ _, rfl⟩
    | _ => exact .inl ⟨rfl, Nat.le_refl _⟩

section

variable (h : Channel.withCapacity maxValue none cap = some ch)
variable (e : (system ch : Lib.System (State Tid T) (Label Tid T)).Exec)
include h

theorem counters :
    Lib.System.Counters (system ch) (fun s : State Tid T => s.hist.recvs) fun s => s.hist.sends where
  le _ hr := (inv_reachable h hr).recvs_le_sends
  step _ _ _ _ hs := counts_step hs

theorem room_counters :
    Lib.System.Counters (system ch) (fun s : State Tid T => s.hist.sends)
      fun s => s.hist.recvs + cap where
  le s hr := cap_reachable h hr ▸ (inv_reachable h hr).sends_le
  step s l s' _ hs := by
    rcases counts_step hs with hstep | hstep
    · exact .inr ⟨hstep.2, by rw [hstep.1]⟩
    · exact .inl ⟨hstep.2, Nat.add_le_add_right hstep.1 cap⟩

/-- The words of the two ends, in every state. -/
theorem words {j : Nat} (hj : j ≤ e.len) :
    (e.state j).chan.tail = tailStamp cap ch.oneLap (e.state j).hist.sends ∧
      (e.state j).chan.head = headStamp cap ch.oneLap (e.state j).hist.recvs ∧
      (e.state j).chan.oneLap = ch.oneLap ∧ (e.state j).chan.Geometry ∧
      (e.state j).chan.cap = cap := by
  have hr := e.reachable hj
  have hi := inv_reachable h hr
  have hcap := cap_reachable h hr
  have hlap := oneLap_reachable hr
  exact ⟨by rw [hi.tail, hcap, hlap], by rw [hi.head, hcap, hlap], hlap, hi.geo, hcap⟩

/-- **`len` tells the distance between tail and head at an instant of the call.** -/
theorem len_instant {j : Nat} (hj : j ≤ e.len) {t : Tid} {n : Nat} (hpc : (e.state j).pc t = .len n) :
    ∃ k ≤ j, n = (e.state k).hist.sends - (e.state k).hist.recvs ∧
      ∀ m, k ≤ m → m ≤ j → ((e.state m).pc t).InLen := by
  -- The second load of the tail, that of the head, and the first load of the tail.
  obtain ⟨c, hcj, ⟨tail, head, hpc₃, htail₃, hn⟩, hin₃⟩ := Lib.Program.since e (I := Pc.InLen)
    (Q := fun s => ∃ tail head, s.pc t = .lenTailAgain tail head ∧ s.chan.tail = tail ∧
      n = s.chan.lenOf tail head) hj hpc trivial nofun (Pc.not_called rfl)
    fun s ch' spurious ev _ hrun => by
      obtain ⟨tail, head, hp, hrest⟩ := Channel.step_len hrun
      exact ⟨⟨tail, head, hp, hrest⟩, by rw [hp]; trivial⟩
  obtain ⟨b, hbc, ⟨hpc₂, hhead⟩, hin₂⟩ := Lib.Program.since e (I := Pc.InLen)
    (Q := fun s => s.pc t = .lenHead tail ∧ s.chan.head = head) (Nat.le_trans hcj hj) hpc₃ trivial
    nofun (Pc.not_called rfl) fun s ch' spurious ev _ hrun => by
      have hp := Channel.step_lenTailAgain hrun
      exact ⟨hp, by rw [hp.1]; trivial⟩
  obtain ⟨a, hab, htail₁, -⟩ := Lib.Program.since e (I := Pc.InLen)
    (Q := fun s => s.chan.tail = tail) (by omega) hpc₂ trivial
    nofun (Pc.not_called rfl) fun s ch' spurious ev _ hrun => by
      have hp := Channel.step_lenHead hrun
      exact ⟨hp.2, by rw [hp.1]; trivial⟩
  -- The tail did not move between its two loads, so it is the same at the load of the head.
  obtain ⟨ht₃, -, hlap, hg, hcap⟩ := words h e (j := c) (by omega)
  obtain ⟨-, hh₂, -⟩ := words h e (j := b) (by omega)
  obtain ⟨ht₁, -⟩ := words h e (j := a) (by omega)
  have hsame : (e.state a).hist.sends = (e.state c).hist.sends := by
    rw [← tailStamp_inj hg.pos hg.le, hcap, hlap, ← ht₁, ← ht₃, htail₁, htail₃]
  have hstill := (counters h).still e hab hbc (by omega) hsame
  have hb := e.reachable (i := b) (by omega)
  have hle := (inv_reachable h hb).recvs_le_sends
  have hroom := (inv_reachable h hb).sends_le
  rw [cap_reachable h hb] at hroom
  refine ⟨b, by omega, ?_, fun m hbm hm => ?_⟩
  · rw [hn, ← htail₃, ← hhead, ht₃, hh₂, ← hcap, ← hlap, hg.lenOf_eq (hstill ▸ hle) (by rw [hcap]; exact hstill ▸ hroom)]
    rw [hstill]
  · rcases Nat.le_total m c with hmc | hcm
    · exact hin₂ m hbm hmc
    · exact hin₃ m hcm hm

/-- **`is_empty` tells whether the channel was empty at an instant of the call.** -/
theorem isEmpty_instant {j : Nat} (hj : j ≤ e.len) {t : Tid} {res : Bool}
    (hpc : (e.state j).pc t = .isEmpty res) :
    ∃ k ≤ j, (res = true ↔ (e.state k).hist.sends = (e.state k).hist.recvs) ∧
      ∀ m, k ≤ m → m ≤ j → ((e.state m).pc t).InIsEmpty := by
  obtain ⟨b, hbj, ⟨head, hpc₂, hres⟩, hin₂⟩ := Lib.Program.since e (I := Pc.InIsEmpty)
    (Q := fun s => ∃ head, s.pc t = .emptyTail head ∧
      (res = true ↔ s.chan.wrappingAdd s.chan.tail s.chan.oneLap = head)) hj hpc trivial
    nofun (Pc.not_called rfl) fun s ch' spurious ev _ hrun => by
      obtain ⟨head, hp, hres⟩ := Channel.step_isEmpty hrun
      exact ⟨⟨head, hp, hres⟩, by rw [hp]; trivial⟩
  obtain ⟨a, hab, hhead, hin₁⟩ := Lib.Program.since e (I := Pc.InIsEmpty)
    (Q := fun s => s.chan.head = head) (Nat.le_trans hbj hj) hpc₂ trivial nofun (Pc.not_called rfl)
    fun s ch' spurious ev _ hrun => by
      have hp := Channel.step_emptyTail hrun
      exact ⟨hp.2, by rw [hp.1]; trivial⟩
  obtain ⟨ht, -, hlap, hg, hcap⟩ := words h e (j := b) (by omega)
  obtain ⟨-, hh, -⟩ := words h e (j := a) (by omega)
  obtain ⟨k, hak, hkb, hk⟩ := (counters h).answer e hab (by omega)
  refine ⟨k, by omega, ?_, fun m hkm hm => ?_⟩
  · rw [hres, eq_comm (a := (e.state k).hist.sends), hk, hg.wrappingAdd_eq, ht, ← hhead, hh, hlap,
      ← hcap, ← hlap, tailStamp_add_eq hg.pos hg.le]
    exact eq_comm
  · rcases Nat.le_total m b with hmb | hbm
    · exact hin₁ m (by omega) hmb
    · exact hin₂ m hbm hm

/-- **`is_full` tells whether the channel was full at an instant of the call.** -/
theorem isFull_instant {j : Nat} (hj : j ≤ e.len) {t : Tid} {res : Bool}
    (hpc : (e.state j).pc t = .isFull res) :
    ∃ k ≤ j, (res = true ↔ (e.state k).hist.sends = (e.state k).hist.recvs + cap) ∧
      ∀ m, k ≤ m → m ≤ j → ((e.state m).pc t).InIsFull := by
  obtain ⟨b, hbj, ⟨tail, hpc₂, hres⟩, hin₂⟩ := Lib.Program.since e (I := Pc.InIsFull)
    (Q := fun s => ∃ tail, s.pc t = .fullHead tail ∧
      (res = true ↔ s.chan.wrappingAdd s.chan.head s.chan.oneLap = tail)) hj hpc trivial
    nofun (Pc.not_called rfl) fun s ch' spurious ev _ hrun => by
      obtain ⟨tail, hp, hres⟩ := Channel.step_isFull hrun
      exact ⟨⟨tail, hp, hres⟩, by rw [hp]; trivial⟩
  obtain ⟨a, hab, htail, hin₁⟩ := Lib.Program.since e (I := Pc.InIsFull)
    (Q := fun s => s.chan.tail = tail) (Nat.le_trans hbj hj) hpc₂ trivial nofun (Pc.not_called rfl)
    fun s ch' spurious ev _ hrun => by
      have hp := Channel.step_fullHead hrun
      exact ⟨hp.2, by rw [hp.1]; trivial⟩
  obtain ⟨-, hh, hlap, hg, hcap⟩ := words h e (j := b) (by omega)
  obtain ⟨ht, -⟩ := words h e (j := a) (by omega)
  obtain ⟨k, hak, hkb, hk⟩ := (room_counters h).answer e hab (by omega)
  refine ⟨k, by omega, ?_, fun m hkm hm => ?_⟩
  · rw [hres, hk, hg.wrappingAdd_eq, hh, ← htail, ht, ← hcap, ← hlap, headStamp_add_eq hg.pos hg.le]
  · rcases Nat.le_total m b with hmb | hbm
    · exact hin₁ m (by omega) hmb
    · exact hin₂ m hbm hm

end

end ArrayFlavor

namespace ListFlavor

namespace Pc

/-- Inside `len`, or at its return. -/
def InLen : Pc T → Prop
  | .lenTail | .lenHead _ | .lenTailAgain _ _ | .len _ => True
  | _ => False

/-- Inside `is_empty`, or at its return. -/
def InIsEmpty : Pc T → Prop
  | .emptyHead | .emptyTail _ | .isEmpty _ => True
  | _ => False

/-- The pcs of the observers behind their first load. -/
def observes : Pc T → Bool
  | .lenHead _ | .lenTailAgain _ _ | .len _ | .emptyTail _ | .isEmpty _ => true
  | _ => false

theorem not_called {q : Pc T} (hq : q.observes = true) (pc : Pc T) (c : Call T) :
    pc.call c ≠ some q := by
  intro h
  have hnot : q.observes = false := by
    unfold Pc.call at h
    split at h <;> cases h <;> rfl
  rw [hnot] at hq
  cases hq

/-- The pcs of the observers that make a load. -/
def loads : Pc T → Bool
  | .lenTail | .lenHead _ | .lenTailAgain _ _ | .emptyHead | .emptyTail _ => true
  | _ => false

end Pc

/-! ## Single loads -/

section

variable {ch ch' : Channel T} {spurious : Bool} {pc q : Pc T} {ev : Event T} {tail head n : Nat}
  {res : Bool}

/-- No other function leads into an observer. -/
theorem Channel.step_observes (h : ch.step spurious pc = some (ch', q, ev))
    (hq : q.observes = true) : pc.loads = true := by
  cases pc with
  | sendBlockCas block next slot | recvBlockCas block next slot =>
    cases slot <;> cases h <;> cases hq
  | lenTail | lenHead _ | lenTailAgain _ _ | emptyHead | emptyTail _ => rfl
  | _ =>
    simp only [Channel.step, sendBranch, recvBranch, sendReserved, recvClaimed] at h
    repeat' split at h
    all_goals cases h
    all_goals cases hq

theorem Channel.step_lenHead (h : ch.step spurious pc = some (ch', .lenHead tail, ev)) :
    pc = .lenTail ∧ ch.tail.index = tail := by
  have hpc := Channel.step_observes h rfl
  cases pc <;> cases hpc <;> simp only [Channel.step] at h <;> (repeat' split at h) <;> cases h
  exact ⟨rfl, rfl⟩

theorem Channel.step_lenTailAgain
    (h : ch.step spurious pc = some (ch', .lenTailAgain tail head, ev)) :
    pc = .lenHead tail ∧ ch.head.index = head := by
  have hpc := Channel.step_observes h rfl
  cases pc <;> cases hpc <;> simp only [Channel.step] at h <;> (repeat' split at h) <;> cases h
  exact ⟨rfl, rfl⟩

theorem Channel.step_len (h : ch.step spurious pc = some (ch', .len n, ev)) :
    ∃ tail head, pc = .lenTailAgain tail head ∧ ch.tail.index = tail ∧ n = tail - head := by
  have hpc := Channel.step_observes h rfl
  cases pc <;> cases hpc <;> simp only [Channel.step] at h <;> (repeat' split at h) <;> cases h
  exact ⟨_, _, rfl, ‹_›, rfl⟩

theorem Channel.step_emptyTail (h : ch.step spurious pc = some (ch', .emptyTail head, ev)) :
    pc = .emptyHead ∧ ch.head.index = head := by
  have hpc := Channel.step_observes h rfl
  cases pc <;> cases hpc <;> simp only [Channel.step] at h <;> (repeat' split at h) <;> cases h
  exact ⟨rfl, rfl⟩

theorem Channel.step_isEmpty (h : ch.step spurious pc = some (ch', .isEmpty res, ev)) :
    ∃ head, pc = .emptyTail head ∧ (res = true ↔ head = ch.tail.index) := by
  have hpc := Channel.step_observes h rfl
  cases pc <;> cases hpc <;> simp only [Channel.step] at h <;> (repeat' split at h) <;> cases h
  exact ⟨_, rfl, decide_eq_true_iff⟩

end

variable [DecidableEq Tid]

/-- A step moves one of the ends at most. -/
theorem counts_step {s s' : State Tid T} {l : Label Tid T} (hs : system.step s l s') :
    (s'.hist.recvs = s.hist.recvs ∧ s.hist.sends ≤ s'.hist.sends) ∨
      (s.hist.recvs ≤ s'.hist.recvs ∧ s'.hist.sends = s.hist.sends) := by
  cases l with
  | call t c =>
    obtain ⟨pc, -, rfl⟩ := Lib.Program.enter_eq_some hs
    exact .inl ⟨rfl, Nat.le_refl _⟩
  | run t spurious =>
    obtain ⟨ch', pc, ev, -, rfl⟩ := Lib.Program.run_eq_some hs
    cases ev with
    | tailCas => exact .inl ⟨rfl, Nat.le_succ _⟩
    | headCas => exact .inr ⟨Nat.le_succ _, rfl⟩
    | _ => exact .inl ⟨rfl, Nat.le_refl _⟩

theorem counters :
    Lib.System.Counters system (fun s : State Tid T => s.hist.recvs) fun s => s.hist.sends where
  le _ hr := (inv_reachable hr).ends.ordered
  step _ _ _ _ hs := counts_step hs

section

variable (e : (system : Lib.System (State Tid T) (Label Tid T)).Exec)

/-- **`len` tells the distance between tail and head at an instant of the call.** -/
theorem len_instant {j : Nat} (hj : j ≤ e.len) {t : Tid} {n : Nat} (hpc : (e.state j).pc t = .len n) :
    ∃ k ≤ j, n = (e.state k).hist.sends - (e.state k).hist.recvs ∧
      ∀ m, k ≤ m → m ≤ j → ((e.state m).pc t).InLen := by
  -- The second load of the tail, that of the head, and the first load of the tail.
  obtain ⟨c, hcj, ⟨tail, head, hpc₃, htail₃, hn⟩, hin₃⟩ := Lib.Program.since e (I := Pc.InLen)
    (Q := fun s => ∃ tail head, s.pc t = .lenTailAgain tail head ∧ s.chan.tail.index = tail ∧
      n = tail - head) hj hpc trivial nofun (Pc.not_called rfl)
    fun s ch' spurious ev _ hrun => by
      obtain ⟨tail, head, hp, hrest⟩ := Channel.step_len hrun
      exact ⟨⟨tail, head, hp, hrest⟩, by rw [hp]; trivial⟩
  obtain ⟨b, hbc, ⟨hpc₂, hhead⟩, hin₂⟩ := Lib.Program.since e (I := Pc.InLen)
    (Q := fun s => s.pc t = .lenHead tail ∧ s.chan.head.index = head) (Nat.le_trans hcj hj) hpc₃
    trivial nofun (Pc.not_called rfl) fun s ch' spurious ev _ hrun => by
      have hp := Channel.step_lenTailAgain hrun
      exact ⟨hp, by rw [hp.1]; trivial⟩
  obtain ⟨a, hab, htail₁, -⟩ := Lib.Program.since e (I := Pc.InLen)
    (Q := fun s => s.chan.tail.index = tail) (by omega) hpc₂ trivial nofun (Pc.not_called rfl)
    fun s ch' spurious ev _ hrun => by
      have hp := Channel.step_lenHead hrun
      exact ⟨hp.2, by rw [hp.1]; trivial⟩
  -- The tail did not move between its two loads, so it is the same at the load of the head.
  have hc := (inv_reachable (e.reachable (i := c) (by omega))).ends
  have hb := (inv_reachable (e.reachable (i := b) (by omega))).ends
  have ha := (inv_reachable (e.reachable (i := a) (by omega))).ends
  have hsame : (e.state a).hist.sends = (e.state c).hist.sends := by
    rw [← ha.tailIndex, ← hc.tailIndex, htail₁, htail₃]
  have hstill := counters.still e hab hbc (by omega) hsame
  refine ⟨b, by omega, ?_, fun m hbm hm => ?_⟩
  · rw [hn, ← htail₃, ← hhead, hc.tailIndex, hb.headIndex, hstill]
  · rcases Nat.le_total m c with hmc | hcm
    · exact hin₂ m hbm hmc
    · exact hin₃ m hcm hm

/-- **`is_empty` tells whether the channel was empty at an instant of the call.** -/
theorem isEmpty_instant {j : Nat} (hj : j ≤ e.len) {t : Tid} {res : Bool}
    (hpc : (e.state j).pc t = .isEmpty res) :
    ∃ k ≤ j, (res = true ↔ (e.state k).hist.sends = (e.state k).hist.recvs) ∧
      ∀ m, k ≤ m → m ≤ j → ((e.state m).pc t).InIsEmpty := by
  obtain ⟨b, hbj, ⟨head, hpc₂, hres⟩, hin₂⟩ := Lib.Program.since e (I := Pc.InIsEmpty)
    (Q := fun s => ∃ head, s.pc t = .emptyTail head ∧ (res = true ↔ head = s.chan.tail.index)) hj
    hpc trivial nofun (Pc.not_called rfl) fun s ch' spurious ev _ hrun => by
      obtain ⟨head, hp, hres⟩ := Channel.step_isEmpty hrun
      exact ⟨⟨head, hp, hres⟩, by rw [hp]; trivial⟩
  obtain ⟨a, hab, hhead, hin₁⟩ := Lib.Program.since e (I := Pc.InIsEmpty)
    (Q := fun s => s.chan.head.index = head) (Nat.le_trans hbj hj) hpc₂ trivial nofun
    (Pc.not_called rfl) fun s ch' spurious ev _ hrun => by
      have hp := Channel.step_emptyTail hrun
      exact ⟨hp.2, by rw [hp.1]; trivial⟩
  have hb := (inv_reachable (e.reachable (i := b) (by omega))).ends
  have ha := (inv_reachable (e.reachable (i := a) (by omega))).ends
  obtain ⟨k, hak, hkb, hk⟩ := counters.answer e hab (by omega)
  refine ⟨k, by omega, ?_, fun m hkm hm => ?_⟩
  · rw [hres, eq_comm (a := (e.state k).hist.sends), hk, ← hhead, ha.headIndex, hb.tailIndex]
  · rcases Nat.le_total m b with hmb | hbm
    · exact hin₁ m (by omega) hmb
    · exact hin₂ m hbm hm

end

end ListFlavor

/-! ## Both flavors -/

section

variable [DecidableEq Tid]

/-- What the observers of a bounded channel have to satisfy in a run. -/
structure ArrayFlavor.Truthful {ch : ArrayFlavor.Channel T} (cap : Nat)
    (e : (ArrayFlavor.system ch : Lib.System (ArrayFlavor.State Tid T) _).Exec) (j : Nat) (t : Tid) :
    Prop where
  len : ∀ n, (e.state j).pc t = .len n → n ≤ cap ∧
    ∃ k ≤ j, n = (e.state k).hist.sends - (e.state k).hist.recvs ∧
      ∀ m, k ≤ m → m ≤ j → ((e.state m).pc t).InLen
  isEmpty : ∀ res, (e.state j).pc t = .isEmpty res →
    ∃ k ≤ j, (res = true ↔ (e.state k).hist.sends = (e.state k).hist.recvs) ∧
      ∀ m, k ≤ m → m ≤ j → ((e.state m).pc t).InIsEmpty
  isFull : ∀ res, (e.state j).pc t = .isFull res →
    ∃ k ≤ j, (res = true ↔ (e.state k).hist.sends = (e.state k).hist.recvs + cap) ∧
      ∀ m, k ≤ m → m ≤ j → ((e.state m).pc t).InIsFull

/-- What the observers of an unbounded channel have to satisfy in a run. -/
structure ListFlavor.Truthful
    (e : (ListFlavor.system : Lib.System (ListFlavor.State Tid T) _).Exec) (j : Nat) (t : Tid) :
    Prop where
  len : ∀ n, (e.state j).pc t = .len n →
    ∃ k ≤ j, n = (e.state k).hist.sends - (e.state k).hist.recvs ∧
      ∀ m, k ≤ m → m ≤ j → ((e.state m).pc t).InLen
  isEmpty : ∀ res, (e.state j).pc t = .isEmpty res →
    ∃ k ≤ j, (res = true ↔ (e.state k).hist.sends = (e.state k).hist.recvs) ∧
      ∀ m, k ≤ m → m ≤ j → ((e.state m).pc t).InIsEmpty
  isFull : (e.state j).chan.isFull = true ↔ ¬ (e.state j).queue.Room none

/-- **The observers tell the truth about some instant of the call**, in every run of either
    flavor. -/
theorem observers_tell_truth :
    (∀ {maxValue cap : Nat} {ch : ArrayFlavor.Channel T},
      ArrayFlavor.Channel.withCapacity maxValue none cap = some ch →
      ∀ (e : (ArrayFlavor.system ch : Lib.System (ArrayFlavor.State Tid T) _).Exec) (j : Nat),
        j ≤ e.len → ∀ t, ArrayFlavor.Truthful cap e j t) ∧
    ∀ (e : (ListFlavor.system : Lib.System (ListFlavor.State Tid T) _).Exec) (j : Nat),
      j ≤ e.len → ∀ t, ListFlavor.Truthful e j t := by
  refine ⟨fun h e j hj t => ⟨fun n hn => ?_, fun res => ArrayFlavor.isEmpty_instant h e hj,
    fun res => ArrayFlavor.isFull_instant h e hj⟩, fun e j hj t => ⟨fun n =>
    ListFlavor.len_instant e hj, fun res => ListFlavor.isEmpty_instant e hj, ?_⟩⟩
  · obtain ⟨k, hkj, heq, hin⟩ := ArrayFlavor.len_instant h e hj hn
    have hroom := (ArrayFlavor.room_counters h).le _ (e.reachable (i := k) (by omega))
    exact ⟨by omega, k, hkj, heq, hin⟩
  · refine iff_of_false Bool.false_ne_true fun hfull => hfull fun n hn => ?_
    cases hn

/-- `is_empty` loads the head of an empty channel, a sender reserves a position, and then it
    loads the tail. -/
def pushedBetween : List (ArrayFlavor.Label Bool Nat) :=
  [.call false .isEmpty, .run false false, .call true .startSend, .run true false, .run true false,
    .run true false, .run true false, .run false false]

theorem oneSlot_init : (ArrayFlavor.system ArrayFlavor.oneSlot :
    Lib.System (ArrayFlavor.State Bool Nat) _).init (.init ArrayFlavor.oneSlot) := rfl

theorem pushedBetween_runs : (Lib.System.replay ArrayFlavor.program.step
    (ArrayFlavor.State.init ArrayFlavor.oneSlot : ArrayFlavor.State Bool Nat)
    pushedBetween).isSome := by
  decide

def pushedBetweenRun :
    (ArrayFlavor.system ArrayFlavor.oneSlot : Lib.System (ArrayFlavor.State Bool Nat) _).Exec :=
  .ofReplay (fun _ _ _ (hs : ArrayFlavor.program.step _ _ = some _) => hs)
    (ArrayFlavor.State.init ArrayFlavor.oneSlot) oneSlot_init pushedBetween pushedBetween_runs

theorem observers_tell_truth_pushedBetween :
    (pushedBetweenRun.state 8).pc false = .isEmpty false ∧
      ArrayFlavor.Truthful 1 pushedBetweenRun 8 false :=
  have h : ArrayFlavor.Channel.withCapacity 100 none 1 = some ArrayFlavor.oneSlot := rfl
  ⟨rfl, observers_tell_truth.1 h pushedBetweenRun 8 (by decide) false⟩

end

end CrossbeamChannel
