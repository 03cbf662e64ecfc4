import CrossbeamChannel.World.Severance

/-!
# Who leaves last disconnects the channel

A channel becomes disconnected when all its senders or all its receivers have been dropped. Who drops
the last handle of a side has yet to call `disconnect`, so for a while the side is gone and the channel
still connected: `World.Leaving`. Apart from that the one holds whenever the other does.

`drop` of a `Sender` or `Receiver` (`channel.rs` 566-576 and 1010-1022) decrements the count and calls
`disconnect` if it was one. No handle can be cloned any more then, as cloning needs one.
-/

namespace CrossbeamChannel

variable {Tid T : Type} [DecidableEq Tid]

namespace World

variable {kind : Nat → Kind T} {w w' : World Tid T} {t : Tid} {act : Act Tid T} {th : Thread Tid T}
  {count : Nat → Side → Nat} {c : Nat} {d : Side}

/-- The thread has dropped the last handle of a side, and is about to disconnect the channel. -/
def Leaving (w : World Tid T) (t : Tid) (c : Nat) : Prop :=
  ∃ d, (w.thread t).frame = .close c d .setDisconnected ∨ (w.thread t).frame = .close c d .zero

/-- When a side is gone the channel is disconnected, or is about to be. -/
def Deserted (kind : Nat → Kind T) (w : World Tid T) : Prop :=
  ∀ c d, (kind c).Buffered ∨ (kind c).IsZero → w.count c d = 0 →
    w.Disconnected kind c ∨ ∃ t, w.Leaving t c

/-- **`disconnect` does what it is for**: where it goes on, or returns, the channel is disconnected. -/
theorem disconnected_of_leaving (hx : Stepped kind w w' t act th count) (h : w.Leaving t c) :
    w'.Disconnected kind c ∨ w'.Leaving t c := by
  obtain ⟨d, hf⟩ := h
  have hturn := hx.turn
  have hframe := hx.after.frame
  have htyped := hx.typed
  have hrunning : (w.thread t).frame.ended = false := by
    rcases hf with hf | hf <;> rw [hf] <;> rfl
  cases hturn with
  | next hn =>
    generalize hfr : (w.thread t).frame = f at hn
    cases hn with
    | more he =>
      refine .inr ⟨d, ?_⟩
      rw [hframe]
      exact hfr ▸ hf
    | ret he hres =>
      left
      subst hfr
      rcases hf with hf | hf <;> rw [hf] at he htyped
      · -- Whoever has the answer of the swap finds the flag set.
        obtain ⟨a, hdrives⟩ := Shared.exec_onBuffer (c := c) (k := .disconnect) rfl he
        obtain ⟨spurious', b, hdrive, -⟩ := hdrives.drive
        cases a with
        | none =>
          obtain ⟨pr, hrep, -⟩ := hdrives.goes rfl
          cases hrep
        | some a =>
          have hanswer := (Buffer.drive_driven (hx.sound.buffer c) hdrive).drive.answered
          have hclosed : ((w.shared.buffer c).phase t).Closed := by
            generalize (w.shared.buffer c).phase t = p at hanswer
            cases p <;> trivial
          have hd := disconnected_of_flag htyped ((hx.sound.buffer c).closed hclosed)
          exact hd.after hx.sound hx.turn hx.after
      · refine disconnected_of_zero htyped ?_
        rw [hx.after.shared]
        cases he
        split
        · assumption
        · exact Function.update_self ..
  | start hover _ | drop hover _ _ => cases hrunning.symm.trans hover
  | complete hfr _ => rcases hf with hf | hf <;> cases hf.symm.trans hfr

theorem Deserted.after (h : Deserted kind w) (hx : Stepped kind w w' t act th count) :
    Deserted kind w' := by
  intro c d hk hzero
  by_cases hold : w.count c d = 0
  · rcases h c d hk hold with hd | ⟨u, hu⟩
    · exact .inl (hd.after hx.sound hx.turn hx.after)
    · by_cases hut : u = t
      · subst hut
        rcases disconnected_of_leaving hx hu with hd | hu
        · exact .inl hd
        · exact .inr ⟨u, hu⟩
      · obtain ⟨d', hf⟩ := hu
        exact .inr ⟨u, d', by rwa [hx.after.others hut]⟩
  · -- The last handle is dropped.
    have hturn := hx.turn
    have hframe := hx.after.frame
    rw [hx.after.count] at hzero
    cases hturn with
    | drop hover hpos hfree =>
      rename_i c' d'
      rw [setCount_count] at hzero
      split at hzero
      · rename_i heq
        obtain ⟨rfl, rfl⟩ := heq
        have hone : w.count c d = 1 := by omega
        refine .inr ⟨t, d, ?_⟩
        rw [hframe]
        simp only [hone, if_true, lastDropped]
        rcases hk with hk | hk
        · left
          cases hkind : kind c <;> rw [hkind] at hk <;> first | rfl | exact hk.elim
        · right
          cases hkind : kind c <;> rw [hkind] at hk <;> first | rfl | exact hk.elim
      · exact absurd hzero hold
    | next _ | start _ _ | complete _ _ => exact absurd hzero hold

theorem deserted_of_reachable (h : (system kind).Reachable w) : Deserted kind w := by
  refine h.invariant (P := Deserted kind) ?_ fun w l w' hw hold hs => ?_
  · rintro _ rfl c d hk hzero
    exfalso
    have hside : (kind c).HasSide d = true := by
      rcases hk with hk | hk <;> cases hkind : kind c <;> rw [hkind] at hk <;>
        first | rfl | exact hk.elim
    simp only [World.init, hside, if_true] at hzero
    cases hzero
  · rcases step_cases hs with ⟨t, act, th, count, ht, ha⟩ | ⟨c', d', hpos, rfl⟩ | ⟨now, -, rfl⟩
    · exact hold.after ⟨sound_of_reachable hw, sound_of_reachable (hw.step hs), aware_of_reachable hw,
        typed_of_reachable hw t, ht, ha⟩
    · intro c d hk hzero
      rw [setCount_count] at hzero
      split at hzero
      · cases hzero
      · exact hold c d hk hzero
    · exact hold

/-- **All senders or all receivers are gone exactly if the channel is disconnected**, or is about to be. -/
theorem disconnected_when_deserted (h : (system kind).Reachable w)
    (hk : (kind c).Buffered ∨ (kind c).IsZero) :
    (w.Disconnected kind c ∨ ∃ t, w.Leaving t c) ↔ ∃ d, w.count c d = 0 := by
  constructor
  · rintro (hd | ⟨t, d, hf | hf⟩)
    · exact severed_of_reachable h c hd
    · exact ⟨d, (lent_of_reachable h).closing t c d _ hf⟩
    · exact ⟨d, (lent_of_reachable h).closing t c d _ hf⟩
  · rintro ⟨d, hzero⟩
    exact deserted_of_reachable h c d hk hzero

/-- The only sender is dropped. Its `disconnect` is still to come, or done. -/
theorem disconnected_when_deserted_onlySender :
    ∃ w w' : World Nat Nat, (system fun _ => .zero).Reachable w ∧ (system fun _ => .zero).Reachable w' ∧
      ((w.Disconnected (fun _ => .zero) 0 ∨ ∃ t, w.Leaving t 0) ↔ ∃ d, w.count 0 d = 0) ∧
      ((w'.Disconnected (fun _ => .zero) 0 ∨ ∃ t, w'.Leaving t 0) ↔ ∃ d, w'.count 0 d = 0) ∧
      w.count 0 .send = 0 ∧ w.shared.isDisconnected 0 = false ∧ w'.shared.isDisconnected 0 = true := by
  have hsome : (runs (T := Nat) (fun _ => .zero) [.drop 0 0 .send]).map (fun w : World Nat Nat =>
      (w.count 0 .send, w.shared.isDisconnected 0)) = some (0, false) := by decide +kernel
  have hsome' : (runs (T := Nat) (fun _ => .zero) [.drop 0 0 .send, .run 0 false []]).map
      (fun w : World Nat Nat => w.shared.isDisconnected 0) = some true := by decide +kernel
  obtain ⟨w, hw, heq⟩ := Option.map_eq_some_iff.mp hsome
  obtain ⟨w', hw', heq'⟩ := Option.map_eq_some_iff.mp hsome'
  obtain ⟨hcount, hopen⟩ := Prod.mk.inj heq
  have hr := reachable_of_runs hw
  have hr' := reachable_of_runs hw'
  exact ⟨w, w', hr, hr', disconnected_when_deserted hr (.inr trivial),
    disconnected_when_deserted hr' (.inr trivial), hcount, hopen, heq'⟩

end World

end CrossbeamChannel
