import CrossbeamChannel.Flavors.ListFifo

/-!
# Block reclamation in the list flavor

`start_recv` hands a finished block to `defer_destroy`, whose contract is that no thread
that pins later can still find the block. The head side of that contract always holds, and
no block is handed over twice. The tail side does not: the receiver of the last index of a
block may finish while the sender of that index is still between its index CAS and its
`install_next_block`, and then `tail.block` still is the block that is being destroyed.
`reclaimed_iff` says exactly when the contract is met.
-/

namespace CrossbeamChannel.ListFlavor

variable {Tid T : Type}

/-- The step from `s` to `s'` hands block `b` to `defer_destroy`. -/
def Hands (s s' : State Tid T) (b : Nat) : Prop := s'.hist.destroyed = b :: s.hist.destroyed

/-- A thread that pins in this state can still find block `b`. -/
def Findable (s : State Tid T) (b : Nat) : Prop := s.chan.head.block = b ∨ s.chan.tail.block = b

section

variable [DecidableEq Tid]

/-- Each block is handed over at most once, and from that moment on it is not found. -/
def Reclaimed (e : (system : Lib.System (State Tid T) (Label Tid T)).Exec) : Prop :=
  (∀ j, j ≤ e.len → (e.state j).hist.destroyed.Nodup) ∧
    ∀ i, i < e.len → ∀ b, Hands (e.state i) (e.state (i + 1)) b →
      ∀ j, i ≤ j → j ≤ e.len → ¬ Findable (e.state j) b

/-- Whenever a block is handed over, some `start_send` has already tried to move
    `tail.block` away from it. -/
def TailFirst (e : (system : Lib.System (State Tid T) (Label Tid T)).Exec) : Prop :=
  ∀ i, i < e.len → ∀ b, Hands (e.state i) (e.state (i + 1)) b →
    (e.state i).hist.moved b = true

omit [DecidableEq Tid] in
theorem Channel.step_destroy {ch ch' : Channel T} {spurious : Bool} {pc pc' : Pc T} {b : Nat}
    (h : ch.step spurious pc = some (ch', pc', .destroy b)) :
    ∃ offset, pc = .recvDestroy b offset := by
  cases pc <;> simp only [Channel.step] at h <;> (repeat' split at h) <;> cases h
  exact ⟨_, rfl⟩

theorem record_destroyed (h : History Tid T) (t : Tid) (ev : Event T) :
    (h.record t ev).destroyed = h.destroyed ∨
      ∃ b, ev = .destroy b ∧ (h.record t ev).destroyed = b :: h.destroyed := by
  cases ev with
  | destroy b => exact .inr ⟨b, rfl, rfl⟩
  | _ => exact .inl rfl

theorem record_moved (h : History Tid T) (t : Tid) (ev : Event T) (b : Nat)
    (hb : h.moved b = true) : (h.record t ev).moved b = true := by
  cases ev with
  | tailBlockCas c =>
    simp only [History.record, Function.update_apply]
    split <;> [rfl; exact hb]
  | _ => exact hb

/-- The thread that hands a block over stands right before it. -/
theorem hands_pc {s s' : State Tid T} {l : Label Tid T} (hs : system.step s l s') {b : Nat}
    (h : Hands s s' b) : ∃ t offset, s.pc t = .recvDestroy b offset := by
  have hne : s'.hist.destroyed ≠ s.hist.destroyed := by
    rw [h]
    exact List.cons_ne_self _ _
  cases l with
  | call t c =>
    obtain ⟨pc, -, rfl⟩ := Lib.Program.enter_eq_some hs
    exact absurd rfl hne
  | run t spurious =>
    obtain ⟨ch, pc, ev, hrun, rfl⟩ := Lib.Program.run_eq_some hs
    rcases record_destroyed s.hist t ev with heq | ⟨c, rfl, heq⟩
    · exact absurd heq hne
    · have hcb : c :: s.hist.destroyed = b :: s.hist.destroyed := heq.symm.trans h
      obtain rfl : c = b := (List.cons.inj hcb).1
      exact ⟨t, Channel.step_destroy hrun⟩

theorem destroyed_step {s s' : State Tid T} {l : Label Tid T} (hs : system.step s l s') {b : Nat}
    (hb : b ∈ s.hist.destroyed) : b ∈ s'.hist.destroyed := by
  cases l with
  | call t c =>
    obtain ⟨pc, -, rfl⟩ := Lib.Program.enter_eq_some hs
    exact hb
  | run t spurious =>
    obtain ⟨ch, pc, ev, -, rfl⟩ := Lib.Program.run_eq_some hs
    rcases record_destroyed s.hist t ev with heq | ⟨c, -, heq⟩
    · exact heq.symm ▸ hb
    · exact heq.symm ▸ List.mem_cons_of_mem _ hb

theorem moved_step {s s' : State Tid T} {l : Label Tid T} (hs : system.step s l s') {b : Nat}
    (hb : s.hist.moved b = true) : s'.hist.moved b = true := by
  cases l with
  | call t c =>
    obtain ⟨pc, -, rfl⟩ := Lib.Program.enter_eq_some hs
    exact hb
  | run t spurious =>
    obtain ⟨ch, pc, ev, -, rfl⟩ := Lib.Program.run_eq_some hs
    exact record_moved s.hist t ev b hb

section

variable (e : (system : Lib.System (State Tid T) (Label Tid T)).Exec)

/-- The head side of the contract always holds: the head has left the block, for good. -/
theorem head_left {i : Nat} (hi : i < e.len) {b : Nat}
    (h : Hands (e.state i) (e.state (i + 1)) b) {j : Nat} (hij : i ≤ j) (hj : j ≤ e.len) :
    b < (e.state j).chan.head.block := by
  rcases Nat.lt_or_ge i j with hlt | hge
  · have hmem : b ∈ (e.state j).hist.destroyed :=
      e.persists (Q := fun s => b ∈ s.hist.destroyed) (fun s l s' _ hs => destroyed_step hs) hlt hj
        (h.symm ▸ List.mem_cons_self)
    exact (inv_reachable (e.reachable hj)).retired.destroyed b hmem
  · obtain rfl : i = j := by omega
    obtain ⟨l, hl⟩ := e.next i hi
    obtain ⟨t, offset, hpc⟩ := hands_pc hl h
    have hok : PcOk (e.state i) t (.recvDestroy b offset) :=
      hpc ▸ (inv_reachable (e.reachable hj)).pcs t
    exact hok.1

/-- The tail never falls behind a block that is handed over. -/
theorem tail_ge {i : Nat} (hi : i < e.len) {b : Nat}
    (h : Hands (e.state i) (e.state (i + 1)) b) : b ≤ (e.state i).chan.tail.block := by
  have hinv := inv_reachable (e.reachable (Nat.le_of_lt hi))
  have hhead := head_left e hi h (Nat.le_refl i) (Nat.le_of_lt hi)
  have h1 := hinv.ends.headLow
  have h2 := hinv.ends.ordered
  have h3 := hinv.ends.tailHigh
  have h4 := Nat.mul_le_mul_left blockCap hhead
  unfold blockCap at *
  omega

/-- **The contract of `defer_destroy` is met exactly when the tail goes first.** -/
theorem reclaimed_iff : Reclaimed e ↔ TailFirst e := by
  constructor
  · rintro ⟨-, hrec⟩ i hi b h
    have hne := hrec i hi b h i (Nat.le_refl i) (Nat.le_of_lt hi)
    have hge := tail_ge e hi h
    refine ((inv_reachable (e.reachable (Nat.le_of_lt hi))).retired.moved b).mpr ?_
    exact Nat.lt_of_le_of_ne hge fun heq => hne (.inr heq.symm)
  · intro hfirst
    refine ⟨fun j hj => (inv_reachable (e.reachable hj)).retired.once, ?_⟩
    rintro i hi b h j hij hj (hhead | htail)
    · have := head_left e hi h hij hj
      omega
    · have hmoved := e.persists (Q := fun s => s.hist.moved b = true)
        (fun s l s' _ hs => moved_step hs) hij hj (hfirst i hi b h)
      have := ((inv_reachable (e.reachable hj)).retired.moved b).mp hmoved
      omega

end

end

/-! ## A sender that is late -/

/-- `start_send` and `write`, to the end. -/
def sendLabels : List (Label Bool Nat) :=
  [.call false .startSend, .run false false, .run false false, .run false false,
    .run false false, .call false (.write 7), .run false false, .run false false,
    .call false .ret]

/-- `start_recv` and `read` of a message that is ready, to the end. -/
def recvLabels : List (Label Bool Nat) :=
  [.call true .startRecv, .run true false, .run true false, .run true false, .run true false,
    .call true .read, .run true false, .run true false, .call true .ret]

/-- After 31 messages the sender reserves the last slot of the block and stops right before
    `install_next_block`; the receiver claims that slot and finishes the block. -/
def lateSenderLabels : List (Label Bool Nat) :=
  (List.replicate 31 (sendLabels ++ recvLabels)).flatten ++
    [.call false .startSend, .run false false, .run false false, .run false false,
      .run false false,
      .call true .startRecv, .run true false, .run true false, .run true false,
      .run true false, .run true false, .run true false, .run true false, .run true false]

theorem init_init : (system : Lib.System (State Bool Nat) (Label Bool Nat)).init .init := rfl

theorem lateSender_runs :
    (Lib.System.replay program.step (State.init : State Bool Nat) lateSenderLabels).isSome := by
  decide +kernel

def lateSenderRun : (system : Lib.System (State Bool Nat) (Label Bool Nat)).Exec :=
  .ofReplay (fun _ _ _ (hs : program.step _ _ = some _) => hs) .init init_init lateSenderLabels
    lateSender_runs

/-- The last step of the run hands over block 0, which `tail.block` still points to. -/
theorem lateSender_not_reclaimed : ¬ Reclaimed lateSenderRun := by
  rintro ⟨-, hrec⟩
  have hlen : lateSenderRun.len = 572 := by decide +kernel
  have hands : Hands (lateSenderRun.state 571) (lateSenderRun.state 572) 0 := by
    unfold Hands
    decide +kernel
  have htail : (lateSenderRun.state 571).chan.tail.block = 0 := by decide +kernel
  exact hrec 571 (by omega) 0 hands 571 (Nat.le_refl _) (by omega) (.inr htail)

end CrossbeamChannel.ListFlavor
