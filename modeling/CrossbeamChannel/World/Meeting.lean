import CrossbeamChannel.World.Effects

/-!
# Nobody misses a rendezvous

A blocking operation of a zero channel queues its packet in the section in which it finds no
partner; a select registers first and looks afterwards, and gives up its attempt when it
finds one. So two threads that wait for each other's side of a channel are not both past
their registration.

`send` and `recv` (`zero.rs` 303-328 and 374-398) do both under one lock, so of two of them the second
finds the first. `SelectHandle::register` of the zero flavor (`zero.rs` 473-480 and 514-521) queues an
entry and then asks `can_wake_one` of the other queue, also under the lock; of two selects the second one
sees the first, and aborts. It need not get a partner by that, for the first may give up as well: what is
excluded is that both go to sleep. `can_wake_one` overlooks the entries of the thread itself, and so does
`Met`, which is about different owners.
-/

namespace CrossbeamChannel

variable {Tid T : Type} [DecidableEq Tid]

/-- The call is `Context::wait_until`. -/
def Call.waits : Call T → Bool
  | .waitUntil _ => true
  | _ => false

theorem Call.waitUntil_of_waits {call : Call T} (h : call.waits = true) :
    ∃ deadline, call = .waitUntil deadline := by
  cases call with
  | waitUntil deadline => exact ⟨deadline, rfl⟩
  | _ => cases h

omit [DecidableEq Tid] in
/-- Who is in `wait_until` has registered everywhere it works. -/
theorem Frame.left_of_waits {kind : Nat → Kind T} {c : Nat} {d : Side} (f : Frame Tid T) {pr : Prog}
    (hwaits : f.call.waits = true) (hworks : f.Works c d) (hq : (kind c).Queues d) :
    ∃ slot, (f.stake kind pr).left ⟨c, d, slot⟩ := by
  obtain ⟨deadline, hcall⟩ := Call.waitUntil_of_waits hwaits
  rcases Frame.calls_of_eq hcall with ⟨job, mode, rfl, -⟩ | ⟨job, mode, p, rfl, -⟩ |
    ⟨handles, timeout, rfl⟩
  · obtain ⟨rfl, rfl⟩ := hworks
    exact ⟨0, hq, rfl⟩
  · obtain ⟨rfl, rfl⟩ := hworks
    exact ⟨0, rfl⟩
  · obtain ⟨y, hy, rfl, rfl⟩ := hworks
    obtain ⟨j, hj⟩ := List.mem_iff_getElem?.mp hy
    exact ⟨j + 1, j, y, (List.getElem?_eq_some_iff.mp hj).1, hj, hq, rfl⟩

namespace World

/-- Thread `t` is in `wait_until`, and its context has not been decided. -/
def Parked (w : World Tid T) (t : Tid) : Prop :=
  (w.thread t).frame.call.waits = true ∧ (w.shared.reg.cx t).select = .waiting

/-- The `run_select` of thread `t` has seen during its registration that an operation is
    ready, and is about to abort its attempt to block. -/
def Aborting (w : World Tid T) (t : Tid) : Prop :=
  ∃ handles timeout i, (w.thread t).frame = .select handles timeout (.abort i)

/-- Of two threads that wait for each other on a zero channel, one is about to abort. -/
def Met (kind : Nat → Kind T) (w : World Tid T) : Prop :=
  ∀ c d e e', (kind c).IsZero → e ∈ (w.shared.reg.waker c d).entries →
    e' ∈ (w.shared.reg.waker c d.opposite).entries → e.owner ≠ e'.owner →
    (w.shared.reg.cx e.owner).select = .waiting → (w.shared.reg.cx e'.owner).select = .waiting →
    w.Aborting e.owner ∨ w.Aborting e'.owner

variable {kind : Nat → Kind T} {w w' : World Tid T} {t : Tid} {act : Act Tid T}
  {th : Thread Tid T} {count : Nat → Side → Nat}

omit [DecidableEq Tid] in
theorem calm_of_pairs {f : Frame Tid T} {c : Nat} {d : Side} {offer : Option (Packet T)}
    (h : f.call.Pairs kind c d offer) : f.Calm kind := by
  rcases h with h | ⟨-, ⟨h, -⟩ | ⟨h, -⟩⟩
  · exact Frame.calm_of_call (.inr (.inr (.inl ⟨c, d, offer, h⟩)))
  · exact Frame.calm_of_call (.inl ⟨c, d, h⟩)
  · exact Frame.calm_of_call (.inr (.inl ⟨c, d, h⟩))

/-- A thread that enters `Context::with` had registered nothing. -/
theorem calm_of_renews {f : Frame Tid T} {pr : Prog} {rep : Reply Tid T} {w : Shared Tid T}
    (he : w.Explains t kind f.call pr rep act) (hr : Shared.Renews act) : f.Calm kind := by
  cases act with
  | reset => exact Frame.calm_of_call (.inr (.inr (.inr he.1)))
  | queue c d v => exact calm_of_pairs he.1
  | _ => exact hr.elim

/-- The thread whose entry is at stake takes a step itself. -/
theorem Met.own (hmet : Met kind w) (hs : Sound kind w) (htyped : (w.thread t).frame.Typed kind)
    {f : Frame Tid T} {pr : Prog}
    (hn : Frame.Next kind w.shared t (w.thread t).frame (w.thread t).prog act f pr)
    {c : Nat} {d : Side} {e e' : Entry Tid} (hc : (kind c).IsZero) (howner : e.owner = t)
    (he : e ∈ ((w.shared.apply t act).reg.waker c d).entries)
    (he' : e' ∈ (w.shared.reg.waker c d.opposite).entries) (hne : e'.owner ≠ t)
    (hw : ((w.shared.apply t act).reg.cx t).select = .waiting)
    (hw' : (w.shared.reg.cx e'.owner).select = .waiting) :
    (∃ handles timeout i, f = .select handles timeout (.abort i)) ∨ w.Aborting e'.owner := by
  obtain ⟨spurious, rep, hexec, -, hrep⟩ := hn.exec
  have hex := Shared.exec_explains hexec
  rcases Shared.mem_apply he with he | henters
  · -- An old entry: its owner was waiting before, and has not just given up.
    rcases Shared.waiting_apply hw with hold | ⟨-, hrenews⟩
    · rcases hmet c d e e' hc he he' (by rw [howner]; exact hne.symm) (by rwa [howner]) hw' with
        ⟨handles, timeout, i, hf⟩ | hother
      · rw [howner] at hf
        rw [hf] at hexec
        cases hexec
        simp only [Shared.apply, Registry.abort, Function.update_self] at hw
        exact absurd hw (Context.trySelect_ne_waiting (by simp))
      · exact .inr hother
    -- A thread resets its context outside the scope of the old one, where it has no entries.
    · have hleft := hs.books.listed c d e he
      rw [howner, stakes, calm_of_renews hex hrenews] at hleft
      exact hleft.elim
  · -- A new entry: the thread has looked at the opposite queue.
    have hwake : (w.shared.reg.waker c d.opposite).canWakeOne w.shared.reg.cx t = true :=
      Waker.canWakeOne_iff.mpr ⟨e', he', hne, hw'⟩
    cases act with
    | register c' d' slot =>
      obtain ⟨rfl, -⟩ := henters
      exact absurd hc hex.2.2.1.not_zero
    | offer c' d' slot =>
      obtain ⟨rfl, rfl, -⟩ := henters
      obtain ⟨hcall, -, rfl⟩ := hex
      obtain ⟨-, order, hr⟩ := hrep _ rfl
      rw [hwake] at hr
      rcases Frame.calls_of_eq hcall with ⟨job, mode, hf, rfl, -⟩ | ⟨handles, timeout, i, x, hf, -⟩
      · rw [hf] at htyped
        exact absurd hc htyped.not_zero
      · rw [hf] at hr
        cases hr
        exact .inl ⟨handles, timeout, i, rfl⟩
    | queue c' d' v =>
      obtain ⟨rfl, rfl, -⟩ := henters
      obtain ⟨-, hnone, -⟩ := hex
      exact absurd hw' (Waker.wakeOne_none.mp hnone e' he' hne)
    | _ => exact henters.elim

theorem Met.after (hmet : Met kind w) (hs : Sound kind w) (htyped : (w.thread t).frame.Typed kind)
    (ht : Turn kind w t act th count) (ha : After w w' t act th count) : Met kind w' := by
  -- What the threads that did not move have to do with each other is as before.
  have other : ∀ u, u ≠ t → w.Aborting u → w'.Aborting u := by
    rintro u hu ⟨handles, timeout, i, hf⟩
    exact ⟨handles, timeout, i, by rw [ha.others hu, hf]⟩
  have own : ∀ c d e e', (kind c).IsZero → e ∈ (w'.shared.reg.waker c d).entries →
      e' ∈ (w'.shared.reg.waker c d.opposite).entries → e.owner = t → e'.owner ≠ t →
      (w'.shared.reg.cx t).select = .waiting → (w'.shared.reg.cx e'.owner).select = .waiting →
      w'.Aborting t ∨ w'.Aborting e'.owner := by
    intro c d e e' hc he he' howner hne hw hw'
    have hold := ha.mem_before he' hne
    have hwold := ha.waiting_before hw' hne
    have silent : act = .silent → ¬ w.Aborting t → w'.Aborting t ∨ w'.Aborting e'.owner := by
      rintro rfl hnot
      rw [ha.shared] at he hw
      rcases hmet c d e e' hc he hold (by rw [howner]; exact hne.symm) (by rwa [howner]) hwold with h | h
      · exact absurd (howner ▸ h) hnot
      · exact .inr (other _ hne h)
    have idle : (w.thread t).frame.ended = true → ¬ w.Aborting t := by
      rintro hover ⟨handles, timeout, i, hf⟩
      rw [hf] at hover
      cases hover
    cases ht with
    | next hn =>
      rw [ha.shared] at he hw
      rcases hmet.own hs htyped hn hc howner he hold hne hw hwold with ⟨handles, timeout, i, hf⟩ | h
      · exact .inl ⟨handles, timeout, i, by rw [ha.frame, hf]⟩
      · exact .inr (other _ hne h)
    | start hover _ => exact silent rfl (idle hover)
    | complete hf _ =>
      refine silent rfl ?_
      rintro ⟨handles, timeout, i, hf'⟩
      rw [hf] at hf'
      cases hf'
    | drop hover _ _ => exact silent rfl (idle hover)
  intro c d e e' hc he he' hne hw hw'
  by_cases he_t : e.owner = t
  · have hne' : e'.owner ≠ t := fun h => hne (he_t.trans h.symm)
    rw [he_t] at hw ⊢
    exact own c d e e' hc he he' he_t hne' hw hw'
  · by_cases he'_t : e'.owner = t
    · rw [he'_t] at hw' ⊢
      refine (own c d.opposite e' e hc he' ?_ he'_t he_t hw' hw).symm
      rwa [Side.opposite_opposite]
    · exact (hmet c d e e' hc (ha.mem_before he he_t) (ha.mem_before he' he'_t) hne
        (ha.waiting_before hw he_t) (ha.waiting_before hw' he'_t)).imp (other _ he_t) (other _ he'_t)

theorem met_of_reachable (h : (system kind).Reachable w) : Met kind w := by
  refine h.invariant ?_ fun w l w' hr hmet hstep => ?_
  · rintro _ rfl c d e e' - he
    exact absurd he List.not_mem_nil
  · rcases step_cases hstep with ⟨t, act, th, count, ht, ha⟩ | ⟨c, d, -, rfl⟩ | ⟨now, -, rfl⟩
    · exact hmet.after (sound_of_reachable hr) (typed_of_reachable hr t) ht ha
    · exact hmet
    · exact hmet

/-- **No missed rendezvous.** When every thread that has an entry in the queues of a zero
    channel is parked, no two different threads wait there for each other. -/
theorem no_missed_rendezvous (h : (system kind).Reachable w) {c : Nat} (hc : kind c = .zero)
    (hparked : ∀ d, ∀ e ∈ (w.shared.reg.waker c d).entries, w.Parked e.owner)
    {e e' : Entry Tid} (he : e ∈ (w.shared.reg.waker c .send).entries)
    (he' : e' ∈ (w.shared.reg.waker c .recv).entries) : e.owner = e'.owner := by
  by_contra hne
  have settled : ∀ {u}, w.Parked u → ¬ w.Aborting u := by
    rintro u ⟨hwaits, -⟩ ⟨handles, timeout, i, hf⟩
    rw [hf] at hwaits
    cases hwaits
  have hp := hparked .send e he
  have hp' := hparked .recv e' he'
  rcases met_of_reachable h c .send e e' (by rw [hc]; trivial) he he' hne hp.2 hp'.2 with ha | ha
  · exact settled hp ha
  · exact settled hp' ha

/-- One thread selects over both sides of a channel, finds no partner, and goes to sleep. -/
def bothSides : List (Label Nat Nat) :=
  .start 0 (.select [⟨0, .send, 0, 0⟩, ⟨0, .recv, 1, 1⟩] .never) ::
    List.replicate 18 (.run 0 false [⟨0, .send, 0, 0⟩, ⟨0, .recv, 1, 1⟩])

theorem no_missed_rendezvous_bothSides :
    ∃ w : World Nat Nat, (system fun _ => .zero).Reachable w ∧
      ∃ e ∈ (w.shared.reg.waker 0 .send).entries, ∃ e' ∈ (w.shared.reg.waker 0 .recv).entries,
        e.owner = e'.owner := by
  have hrun : (runs (T := Nat) (fun _ => .zero) bothSides).map (fun w =>
      ((w.shared.reg.waker 0 .send).entries.map Entry.oper,
        (w.shared.reg.waker 0 .recv).entries.map Entry.oper,
        (w.thread 0).frame.call.waits, (w.shared.reg.cx 0).select)) =
      some ([⟨0, 1⟩], [⟨0, 2⟩], true, .waiting) := by decide +kernel
  obtain ⟨w, hw, hview⟩ := Option.map_eq_some_iff.mp hrun
  simp only [Prod.mk.injEq] at hview
  obtain ⟨hsend, hrecv, hwaits, hsel⟩ := hview
  have owner : ∀ {d slot}, (w.shared.reg.waker 0 d).entries.map Entry.oper = [⟨0, slot⟩] →
      ∀ e ∈ (w.shared.reg.waker 0 d).entries, e.owner = 0 := by
    intro d slot h e he
    have hmem : e.oper ∈ [⟨0, slot⟩] := h ▸ List.mem_map_of_mem he
    exact congrArg Operation.thread (List.mem_singleton.mp hmem)
  obtain ⟨e, he, -⟩ := List.mem_map.mp (hsend ▸ List.mem_singleton_self _)
  obtain ⟨e', he', -⟩ := List.mem_map.mp (hrecv ▸ List.mem_singleton_self _)
  refine ⟨w, reachable_of_runs hw, e, he, e', he', ?_⟩
  refine no_missed_rendezvous (reachable_of_runs hw) rfl (fun d x hx => ?_) he he'
  have hx0 : x.owner = 0 := by
    cases d with
    | send => exact owner hsend x hx
    | recv => exact owner hrecv x hx
  rw [hx0]
  exact ⟨hwaits, hsel⟩

end World

end CrossbeamChannel
