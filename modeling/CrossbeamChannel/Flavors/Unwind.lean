import CrossbeamChannel.Lib.Lives
import CrossbeamChannel.Flavors.Observers
import CrossbeamChannel.Flavors.ListDrop

/-!
# Dropping a channel after a selection was abandoned

`SelectedOperation` panics when it is dropped before the operation was completed. The panic
unwinds, and nothing takes back what `run_select` had reserved: the thread is out of the
operation, its slot stays reserved for ever. `Drop` of either channel goes from the head to
the tail, which count reservations, and so comes to that slot, which nobody wrote to.
`drop_after_unwind` says that this is the one way to get there.
-/

namespace CrossbeamChannel

variable {Tid T : Type} [DecidableEq Tid]

namespace ArrayFlavor

/-- The thread has a token and has not used it: it may be inside a `SelectedOperation`. -/
def Pc.selected : Pc T → Bool
  | .sent _ | .received _ => true
  | _ => false

/-- The thread is outside every call, or a call has just returned. It holds no token. -/
def Pc.Done (pc : Pc T) : Prop := pc = .idle ∨ pc.call .ret = some .idle

/-- The thread has reserved a slot and has not begun to write to it. -/
def Pc.Reserving : Pc T → Prop
  | .sent ⟨some _, _⟩ => True
  | _ => False

/-- The machine whose threads may drop a `SelectedOperation` without completing it. -/
def unwinding (ch : Channel T) : Lib.System (Lib.Lives Tid (Channel T) (Pc T) (History (Tid × Nat) T))
    (Lib.LifeMove Tid (Call T)) :=
  program.lives Pc.selected (State.init ch)

omit [DecidableEq Tid] in
/-- Who still has a slot to write to, when all that is left are unused tokens. -/
theorem Pc.reserving_iff {pc : Pc T} (h : pc.Done ∨ pc.selected = true) (t : Tid) :
    pc.Reserving ↔ pc.stage t = some (.reserved t) := by
  rcases h with (rfl | h) | h
  · exact iff_of_false False.elim (by simp [Pc.stage])
  · unfold Pc.call at h
    split at h <;> cases h <;> exact iff_of_false False.elim (by simp [Pc.stage])
  · unfold Pc.selected at h
    split at h
    · rename_i token
      obtain ⟨_ | i, stamp⟩ := token
      · exact iff_of_false False.elim (by simp [Pc.stage])
      · exact iff_of_true trivial rfl
    · rename_i token
      obtain ⟨_ | i, stamp⟩ := token <;> exact iff_of_false False.elim (by simp [Pc.stage])
    · cases h

section

variable {s : State Tid T}

omit [DecidableEq Tid] in
/-- `drop` visits the positions between head and tail. -/
theorem Inv.drop_eq (hi : Inv s) :
    s.chan.drop = (List.range (s.hist.sends - s.hist.recvs)).map fun i =>
      (s.hist.view s.chan.cap s.chan.oneLap (s.hist.recvs + i)).msg := by
  have hg := hi.geo
  have hle := hi.recvs_le_sends
  have hroom := hi.sends_le
  unfold Channel.drop
  rw [hi.tail, hi.head, hg.lenOf_eq hle hroom]
  refine List.map_congr_left fun i hlt => ?_
  rw [List.mem_range] at hlt
  have hidx : s.chan.dropIndex i = (s.hist.recvs + i) % s.chan.cap := by
    unfold Channel.dropIndex
    rw [hi.head, hg.index_headStamp, add_mod_cap hg.pos (by omega)]
  have hsent : s.hist.recvs + i < s.hist.sends := by omega
  have hrank := mt (hi.recvs (s.hist.recvs + i)).mpr (by omega)
  rw [hidx, hi.slot _ ⟨by omega, hi.free _ hsent⟩]

omit [DecidableEq Tid] in
/-- The slot of a position between head and tail holds a message unless the position is only
    reserved. -/
theorem Inv.view_isSome (hi : Inv s) {k : Nat} (hlow : s.hist.recvs ≤ k) (hk : k < s.hist.sends) :
    (s.hist.view s.chan.cap s.chan.oneLap k).msg.isSome ↔ s.hist.rankAt k ≠ 1 := by
  have h1 := (hi.sends k).mp hk
  have h4 := mt (hi.recvs k).mpr (by omega)
  have hput := hi.put k
  unfold History.view
  dsimp only
  split_ifs with hrank
  · rw [hput]
    omega
  · exact iff_of_false Bool.false_ne_true (by omega)

omit [DecidableEq Tid] in
/-- **What `drop` finds**, when nobody is left but threads with unused tokens. -/
theorem Inv.drop_iff (hi : Inv s) (hq : ∀ t, (s.pc t).Done ∨ (s.pc t).selected = true) :
    (∀ msg ∈ s.chan.drop, msg.isSome) ↔ ∀ t, ¬ (s.pc t).Reserving := by
  rw [hi.drop_eq]
  constructor
  · intro hall t ht
    obtain ⟨hstage, -⟩ := hi.tickets.held_owner (((s.pc t).reserving_iff (hq t) t).mp ht)
    have hrank : s.hist.rankAt (s.hist.ticket t) = 1 := by
      rw [History.rankAt, hstage, Stage.rank_reserved]
    have hlt := (hi.sends _).mpr (show 1 ≤ s.hist.rankAt (s.hist.ticket t) by omega)
    have hge := mt (hi.recvs (s.hist.ticket t)).mp (by omega)
    have hsome := hall _ (List.mem_map_of_mem
      (List.mem_range.mpr (show s.hist.ticket t - s.hist.recvs < _ by omega)))
    rw [show s.hist.recvs + (s.hist.ticket t - s.hist.recvs) = s.hist.ticket t by omega,
      hi.view_isSome (by omega) hlt] at hsome
    exact hsome hrank
  · intro hnone msg hmsg
    obtain ⟨i, hlt, rfl⟩ := List.mem_map.mp hmsg
    rw [List.mem_range] at hlt
    rw [hi.view_isSome (by omega) (by omega)]
    intro hrank
    cases hstage : s.hist.stage (s.hist.recvs + i) with
    | reserved t =>
      have hheld := (hi.tickets.owned _ t (by rw [hstage]; rfl)).2
      rw [hstage] at hheld
      exact hnone t (((s.pc t).reserving_iff (hq t) t).mpr hheld)
    | _ => simp [History.rankAt, hstage, Stage.rank] at hrank

end

end ArrayFlavor

namespace ListFlavor

/-- The thread has a token and has not used it: it may be inside a `SelectedOperation`. -/
def Pc.selected : Pc T → Bool
  | .sent _ | .received _ => true
  | _ => false

/-- The thread has reserved a slot and has not begun to write to it. -/
def Pc.Reserving : Pc T → Prop
  | .sent (some _) => True
  | _ => False

/-- The machine whose threads may drop a `SelectedOperation` without completing it. -/
def unwinding : Lib.System (Lib.Lives Tid (Channel T) (Pc T) (History (Tid × Nat) T))
    (Lib.LifeMove Tid (Call T)) :=
  program.lives Pc.selected State.init

omit [DecidableEq Tid] in
theorem Pc.reserving_iff {pc : Pc T} (h : pc.Done ∨ pc.selected = true) (t : Tid) :
    (pc.Reserving ↔ pc.sendStage t = some (.reserved t)) ∧
      ∀ b, ¬ pc.leavesTail b ∧ ¬ pc.leavesHead b := by
  have hfalse : ∀ {P : Prop}, ¬ P → (False ↔ P) := fun h => iff_of_false False.elim h
  rcases h with (rfl | h) | h
  · exact ⟨hfalse (by simp [Pc.sendStage]), fun _ => ⟨False.elim, False.elim⟩⟩
  · unfold Pc.call at h
    split at h <;> cases h <;>
      exact ⟨hfalse (by simp [Pc.sendStage]), fun _ => ⟨False.elim, False.elim⟩⟩
  · unfold Pc.selected at h
    split at h
    · rename_i token
      obtain _ | slot := token
      · exact ⟨hfalse (by simp [Pc.sendStage]), fun _ => ⟨False.elim, False.elim⟩⟩
      · exact ⟨iff_of_true trivial rfl, fun _ => ⟨False.elim, False.elim⟩⟩
    · exact ⟨hfalse (by simp [Pc.sendStage]), fun _ => ⟨False.elim, False.elim⟩⟩
    · cases h

section

variable {s : State Tid T}

omit [DecidableEq Tid] in
/-- The slot of an index between head and tail holds a message unless it is only reserved. -/
theorem Inv.view_isSome (hi : Inv s) {k : Nat} (hlow : s.hist.recvs ≤ k) (hk : k < s.hist.sends) :
    (s.hist.view k).msg.isSome ↔ s.hist.sendRank k ≠ 1 := by
  have h1 := (hi.stages.sends k).mp hk
  have h0 := mt (hi.stages.recvs k).mpr (by omega)
  have hput := hi.stages.put k
  unfold History.view
  dsimp only
  split_ifs with hrank
  · rw [hput]
    omega
  · exact iff_of_false Bool.false_ne_true (by omega)

omit [DecidableEq Tid] in
/-- **What `drop` finds**, when nobody is left but threads with unused tokens. -/
theorem Inv.views_iff (hi : Inv s) (hq : ∀ t, (s.pc t).Done ∨ (s.pc t).selected = true) :
    (∀ k, s.hist.recvs ≤ k → k < s.hist.sends → (s.hist.view k).msg.isSome) ↔
      ∀ t, (s.pc t).Reserving → s.hist.ticket t < s.hist.recvs := by
  constructor
  · intro hall t ht
    obtain ⟨hstage, -⟩ :=
      hi.senders.held_owner (((s.pc t).reserving_iff (hq t) t).1.mp ht)
    have hrank : s.hist.sendRank (s.hist.ticket t) = 1 := by
      rw [History.sendRank, hstage, SendStage.rank_reserved]
    have hlt := (hi.stages.sends _).mpr (show 1 ≤ s.hist.sendRank (s.hist.ticket t) by omega)
    by_contra hge
    exact (hi.view_isSome (by omega) hlt).mp (hall _ (by omega) hlt) hrank
  · intro hpast k hlow hk
    rw [hi.view_isSome hlow hk]
    intro hrank
    cases hstage : s.hist.sendStage k with
    | reserved t =>
      obtain ⟨rfl, hheld⟩ := hi.senders.owned k t (by rw [hstage]; rfl)
      rw [hstage] at hheld
      have := hpast t (((s.pc t).reserving_iff (hq t) t).1.mpr hheld)
      omega
    | _ => simp [History.sendRank, hstage] at hrank

end

end ListFlavor

/-- Nobody is inside an operation any more: what was not completed was abandoned. -/
def Over {C P H : Type} (done : P → Prop) (s : Lib.Lives Tid C P H) : Prop :=
  ∀ t, done (s.all.pc (t, s.life t))

/-- Every life of every thread either ended in a call that returned or gave up. -/
theorem Over.quiet {C P K E H : Type} {p : Lib.Program (Tid × Nat) C P K E H} {gives : P → Bool}
    {start : Lib.Threads (Tid × Nat) C P H} {done : P → Prop} {s : Lib.Lives Tid C P H}
    (h : Over done s) (hs : (p.lives gives start).Reachable s) (hstart : ∀ u, done (start.pc u))
    (u : Tid × Nat) : done (s.all.pc u) ∨ gives (s.all.pc u) = true := by
  obtain ⟨t, n⟩ := u
  obtain ⟨hpast, hcome⟩ := Lib.Program.Lives.past hs t n
  rcases Nat.lt_trichotomy n (s.life t) with hlt | rfl | hgt
  · exact .inr (hpast hlt)
  · exact .inl (h t)
  · exact .inl (hcome hgt ▸ hstart (t, n))

/-- **What `Drop` drops after any number of abandoned selections**: messages only, unless an
    abandoned send still has its slot between head and tail. -/
theorem drop_after_unwind :
    (∀ {maxValue cap : Nat} {ch : ArrayFlavor.Channel T},
      ArrayFlavor.Channel.withCapacity maxValue none cap = some ch →
      ∀ s : Lib.Lives Tid _ _ _, (ArrayFlavor.unwinding ch).Reachable s →
        Over ArrayFlavor.Pc.Done s →
        ((∀ msg ∈ s.all.chan.drop, msg.isSome) ↔ ∀ u, ¬ (s.all.pc u).Reserving)) ∧
    ∀ {w : Nat} {address : Nat × Nat → Fin (2 ^ w)}, ListFlavor.blockCap ∣ 2 ^ w →
      ∀ s : Lib.Lives Tid _ _ _, (ListFlavor.unwinding (T := T)).Reachable s →
        Over ListFlavor.Pc.Done s → ListFlavor.Placed s.all.chan w address →
        ∃ d, (∀ fuel, s.all.hist.sends - s.all.hist.recvs ≤ fuel →
            s.all.chan.drop (2 ^ w) fuel = some d) ∧
          ((∀ msg ∈ d.msgs, msg.isSome) ↔
            ∀ u, (s.all.pc u).Reserving → s.all.hist.ticket u < s.all.hist.recvs) := by
  constructor
  · intro maxValue cap ch hch s hs hover
    exact (ArrayFlavor.inv_reachable hch (Lib.Program.Lives.reachable hs)).drop_iff
      (hover.quiet hs fun _ => .inl rfl)
  · intro w address hw s hs hover hplaced
    have hr := Lib.Program.Lives.reachable hs
    have hq := hover.quiet hs fun _ => .inl rfl
    refine ⟨_, fun fuel hfuel => (ListFlavor.drop_eq hw hr
      (fun u => (ListFlavor.Pc.reserving_iff (hq u) u).2) hplaced hfuel).2, ?_⟩
    rw [← (ListFlavor.inv_reachable hr).views_iff hq]
    refine ⟨fun h k hlow hk => h _ (List.mem_map_of_mem (List.mem_range'_1.mpr ⟨hlow, by omega⟩)),
      fun h msg hmsg => ?_⟩
    obtain ⟨k, hk, rfl⟩ := List.mem_map.mp hmsg
    rw [List.mem_range'_1] at hk
    exact h k hk.1 (by omega)

/-! ## Abandoned selections -/

/-- A select reserves the first slot for a send, and the `SelectedOperation` is dropped. -/
def abandonedSend (K : Type) (startSend : K) : List (Lib.LifeMove Bool K) :=
  [.call false startSend, .run false false, .run false false, .run false false, .run false false,
    .unwind false]

def arrayAbandoned : (ArrayFlavor.unwinding ArrayFlavor.oneSlot :
    Lib.System (Lib.Lives Bool _ _ _) _).Exec :=
  .ofReplay (fun _ _ _ (hs : ArrayFlavor.program.live ArrayFlavor.Pc.selected _ _ = some _) => hs)
    ⟨ArrayFlavor.State.init ArrayFlavor.oneSlot, fun _ => 0⟩ rfl
    (abandonedSend (ArrayFlavor.Call Nat) .startSend) (by decide)

def listAbandoned : (ListFlavor.unwinding (T := Nat) : Lib.System (Lib.Lives Bool _ _ _) _).Exec :=
  .ofReplay (fun _ _ _ (hs : ListFlavor.program.live ListFlavor.Pc.selected _ _ = some _) => hs)
    ⟨ListFlavor.State.init, fun _ => 0⟩ rfl
    (abandonedSend (ListFlavor.Call Nat) .startSend) (by decide)

theorem arrayAbandoned_over : Over ArrayFlavor.Pc.Done (arrayAbandoned.state 6) := by
  intro t
  cases t
  · exact .inl rfl
  · exact .inl rfl

theorem listAbandoned_over : Over ListFlavor.Pc.Done (listAbandoned.state 6) := by
  intro t
  cases t
  · exact .inl rfl
  · exact .inl rfl

theorem drop_after_unwind_abandonedSend :
    (¬ ∀ msg ∈ (arrayAbandoned.state 6).all.chan.drop, msg.isSome) ∧
      ∃ d, (∀ fuel, 1 ≤ fuel → (listAbandoned.state 6).all.chan.drop (2 ^ 5) fuel = some d) ∧
        ¬ ∀ msg ∈ d.msgs, msg.isSome := by
  constructor
  · have h : ArrayFlavor.Channel.withCapacity 100 none 1 = some ArrayFlavor.oneSlot := rfl
    rw [(drop_after_unwind.1 h _ (arrayAbandoned.reachable (by decide)) arrayAbandoned_over)]
    exact fun hnone => hnone (false, 0) trivial
  · obtain ⟨d, hdrop, hiff⟩ := drop_after_unwind.2 (w := 5) (by decide) _
      (listAbandoned.reachable (by decide)) listAbandoned_over
      (ListFlavor.placed_blocks (w := 5) (n := 1) (by decide) (by decide))
    refine ⟨d, hdrop, fun hall => ?_⟩
    exact absurd (hiff.mp hall (false, 0) trivial) (by decide)

/-- Both channels drop a slot nobody wrote to. -/
theorem abandonedSend_drops_unwritten :
    (¬ ∀ s : Lib.Lives Bool _ _ _, (ArrayFlavor.unwinding ArrayFlavor.oneSlot).Reachable s →
      Over ArrayFlavor.Pc.Done s → ∀ msg ∈ s.all.chan.drop, msg.isSome) ∧
    ¬ ∀ s : Lib.Lives Bool _ _ _, (ListFlavor.unwinding (T := Nat)).Reachable s →
      Over ListFlavor.Pc.Done s → ∀ fuel d, s.all.chan.drop (2 ^ 64) fuel = some d →
        ∀ msg ∈ d.msgs, msg.isSome := by
  constructor
  · intro hsafe
    have hdrop : (arrayAbandoned.state 6).all.chan.drop = [none] := by decide
    have hnone := hsafe _ (arrayAbandoned.reachable (by decide)) arrayAbandoned_over none
    rw [hdrop] at hnone
    exact absurd (hnone List.mem_cons_self) (by decide)
  · intro hsafe
    have hdrop : ((listAbandoned.state 6).all.chan.drop (2 ^ 64) 1).map ListFlavor.Dropped.msgs =
        some [none] := by decide
    obtain ⟨d, hd, hmsgs⟩ := Option.map_eq_some_iff.mp hdrop
    have hnone := hsafe _ (listAbandoned.reachable (by decide)) listAbandoned_over 1 d hd none
    rw [hmsgs] at hnone
    exact absurd (hnone List.mem_cons_self) (by decide)

end CrossbeamChannel
