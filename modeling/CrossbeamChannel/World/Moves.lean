import CrossbeamChannel.World.Books

/-!
# One step of the machine

Every step is a turn of one thread, or clones a handle, or lets time pass: `World.step_cases`.
A turn is one atomic step in the body of an operation, or the beginning of an operation, or
of the completion of a selected one.

Everything that follows argues from `Turn` and `After` and never unfolds `World.step` again. `Turn` has
what the thread does and where it comes to; `After` has what the new state is in terms of that, field by
field. An invariant that speaks of one thread is shown for the thread whose turn it is by a case split on
`Turn`, and for the others by `After.others`.
-/

namespace CrossbeamChannel

variable {Tid T : Type}

/-- An operation that is over borrows no handle any more. -/
def Thread.settled (th : Thread Tid T) : Thread Tid T :=
  if th.frame.ended then { th with uses := [] } else th

namespace Thread

variable (th : Thread Tid T)

@[simp] theorem settled_frame : th.settled.frame = th.frame := by unfold settled; split <;> rfl

@[simp] theorem settled_prog : th.settled.prog = th.prog := by unfold settled; split <;> rfl

@[simp] theorem settled_ops : th.settled.ops = th.ops := by unfold settled; split <;> rfl

@[simp] theorem settled_job : th.settled.job = th.job := by unfold settled; split <;> rfl

theorem settled_uses : th.settled.uses = if th.frame.ended then [] else th.uses := by
  unfold settled
  split <;> rfl

end Thread

variable [DecidableEq Tid]

namespace World

/-- A turn of thread `t`: its effect on the shared state, the thread afterwards, and how many
    handles there are afterwards. -/
inductive Turn (kind : Nat → Kind T) (w : World Tid T) (t : Tid) :
    Act Tid T → Thread Tid T → (Nat → Side → Nat) → Prop where
  | next {act : Act Tid T} {f : Frame Tid T} {pr : Prog}
      (h : Frame.Next kind w.shared t (w.thread t).frame (w.thread t).prog act f pr) :
      Turn kind w t act { w.thread t with frame := f, prog := pr } w.count
  | start {op : Op T} (hover : (w.thread t).frame.ended = true)
      (huses : ∀ x ∈ op.uses, 0 < w.count x.1 x.2) :
      Turn kind w t .silent ⟨op.frame kind, .start, op.uses, (w.thread t).ops + 1, op.job⟩ w.count
  | complete {h : Handle} {tk : Token} {msg : Option T} (hframe : (w.thread t).frame = .chosen h tk)
      (hside : Job.side ⟨h.chan, msg⟩ = h.side) :
      Turn kind w t .silent
        { w.thread t with
          frame := .finishWith kind ⟨h.chan, msg⟩ tk, prog := .start, job := some ⟨h.chan, msg⟩ }
        w.count
  | drop {c : Nat} {d : Side} (hover : (w.thread t).frame.ended = true) (hpos : 0 < w.count c d)
      (hfree : w.count c d = 1 → ¬ w.InUse c d) :
      Turn kind w t .silent
        ⟨if w.count c d = 1 then lastDropped kind c d else .done .dropped, .start, [],
          (w.thread t).ops + 1, none⟩
        (w.setCount c d (w.count c d - 1)).count

/-- Who is in an operation after a turn of thread `t`. -/
def activeAfter (w : World Tid T) (t : Tid) (ended : Bool) : List Tid :=
  match (w.thread t).frame.ended, ended with
  | true, true => w.active
  | true, false => t :: w.active
  | false, true => w.active.erase t
  | false, false => w.active

/-- The state after a turn of thread `t`. -/
structure After (w w' : World Tid T) (t : Tid) (act : Act Tid T) (th : Thread Tid T)
    (count : Nat → Side → Nat) : Prop where
  shared : w'.shared = w.shared.apply t act
  thread : w'.thread = Function.update w.thread t th.settled
  count : w'.count = count
  active : w'.active = w.activeAfter t th.frame.ended

variable {kind : Nat → Kind T} {w w' : World Tid T} {t : Tid}

theorem put_thread (w : World Tid T) (t : Tid) (f : Frame Tid T) :
    (w.put t f).thread =
      Function.update w.thread t { w.thread t with frame := f, prog := .start : Thread Tid T }.settled := by
  unfold put Thread.settled
  split <;> rfl

@[simp] theorem put_shared (w : World Tid T) (t : Tid) (f : Frame Tid T) :
    (w.put t f).shared = w.shared := by
  unfold put
  split <;> rfl

@[simp] theorem put_count (w : World Tid T) (t : Tid) (f : Frame Tid T) :
    (w.put t f).count = w.count := by
  unfold put
  split <;> rfl

theorem run_exec {spurious : Bool} {order : List Handle} (h : w.run kind t spurious order = some w') :
    ∃ act rep, w.shared.exec t kind (w.thread t).frame.call (w.thread t).prog spurious =
        some (act, rep) ∧
      ∃ f pr, Frame.Next kind w.shared t (w.thread t).frame (w.thread t).prog act f pr ∧
        After w w' t act { w.thread t with frame := f, prog := pr } w.count := by
  have running : ∀ {rep}, w.shared.exec t kind (w.thread t).frame.call (w.thread t).prog spurious =
      some rep → (w.thread t).frame.ended = false := by
    intro rep he
    cases hf : (w.thread t).frame <;> first | rfl | (rw [hf] at he; cases he)
  unfold run at h
  dsimp only at h
  split at h
  · cases h
  · rename_i act pr he
    cases h
    refine ⟨act, _, he, _, pr, .more he, rfl, ?_, rfl, ?_⟩
    · simp only [Thread.settled, running he, Bool.false_eq_true, if_false]
    · simp only [activeAfter, running he]
  · rename_i act r he
    obtain ⟨f, hr, rfl⟩ := Option.map_eq_some_iff.mp h
    refine ⟨act, _, he, f, .start, .ret he hr, put_shared _ _ _, put_thread _ _ _, put_count _ _ _, ?_⟩
    simp only [put, activeAfter, running he]
    cases f.ended <;> rfl

theorem run_turn {spurious : Bool} {order : List Handle} (h : w.run kind t spurious order = some w') :
    ∃ act f pr, Frame.Next kind w.shared t (w.thread t).frame (w.thread t).prog act f pr ∧
      After w w' t act { w.thread t with frame := f, prog := pr } w.count := by
  obtain ⟨act, -, -, f, pr, hn, ha⟩ := run_exec h
  exact ⟨act, f, pr, hn, ha⟩

theorem begin_after (w : World Tid T) {t : Tid} (hover : (w.thread t).frame.ended = true)
    (f : Frame Tid T) (uses : List (Nat × Side)) (job : Option (Job T)) :
    After w (w.begin t f uses job) t .silent ⟨f, .start, uses, (w.thread t).ops + 1, job⟩ w.count := by
  refine ⟨put_shared _ _ _, ?_, put_count _ _ _, ?_⟩
  · rw [begin, put_thread]
    simp only [Function.update_self, Function.update_idem]
  · simp only [begin, put, activeAfter, hover]
    cases f.ended <;> simp

omit [DecidableEq Tid] in
/-- Who has ended is in no call. -/
theorem call_of_ended {f : Frame Tid T} (h : f.ended = true) : f.call = .none := by
  cases f <;> first | rfl | cases h

/-- What a step does that is not one in the body of an operation. -/
theorem other_cases {l : Label Tid T} (h : w.step kind l = some w')
    (hl : ∀ t spurious order, l ≠ .run t spurious order) :
    (∃ t act th count, Turn kind w t act th count ∧ After w w' t act th count ∧
        (w.thread t).frame.call = .none ∧ l.thread = some t) ∨
      (∃ c d, 0 < w.count c d ∧ w' = w.setCount c d (w.count c d + 1) ∧ l.thread = none) ∨
      (∃ now, w.shared.clock ≤ now ∧ w' = { w with shared := { w.shared with clock := now } } ∧
        l.thread = none) := by
  cases l with
  | start t op =>
    simp only [step] at h
    split at h
    · rename_i hc
      cases h
      exact .inl ⟨t, _, _, _, .start hc.1 hc.2, begin_after w hc.1 _ _ _, call_of_ended hc.1, rfl⟩
    · cases h
  | run t spurious order => exact absurd rfl (hl t spurious order)
  | complete t msg =>
    simp only [step] at h
    split at h
    · rename_i hd tk hf
      split at h
      · rename_i hs
        cases h
        -- Completing may be over at once: a null token of the zero flavor needs no step.
        refine .inl ⟨t, _, _, _, .complete hf hs, ⟨put_shared _ _ _, ?_, put_count _ _ _, ?_⟩,
          by rw [hf]; rfl, rfl⟩
        · rw [complete, put_thread]
          simp only [Function.update_self, Function.update_idem]
        · simp only [complete, put, activeAfter, hf]
          cases (Frame.finishWith kind ⟨hd.chan, msg⟩ tk : Frame Tid T).ended <;> rfl
      · cases h
    · cases h
  | clone c d =>
    simp only [step] at h
    split at h
    · cases h
      exact .inr (.inl ⟨c, d, ‹_›, rfl, rfl⟩)
    · cases h
  | drop t c d =>
    simp only [step] at h
    split at h
    · rename_i hc
      cases h
      have ha := begin_after (w.setCount c d (w.count c d - 1)) hc.1
        (if w.count c d = 1 then lastDropped kind c d else .done .dropped) [] none
      exact .inl ⟨t, _, _, _, .drop hc.1 hc.2.1 hc.2.2,
        ⟨ha.shared, ha.thread, ha.count, ha.active⟩, call_of_ended hc.1, rfl⟩
    · cases h
  | advance now =>
    simp only [step] at h
    split at h
    · cases h
      exact .inr (.inr ⟨now, ‹_›, rfl, rfl⟩)
    · cases h

/-- **What one step of the machine does.** -/
theorem step_cases {l : Label Tid T} (h : w.step kind l = some w') :
    (∃ t act th count, Turn kind w t act th count ∧ After w w' t act th count) ∨
      (∃ c d, 0 < w.count c d ∧ w' = w.setCount c d (w.count c d + 1)) ∨
      (∃ now, w.shared.clock ≤ now ∧ w' = { w with shared := { w.shared with clock := now } }) := by
  have hother := other_cases h
  cases l with
  | run t spurious order =>
    obtain ⟨act, f, pr, hn, ha⟩ := run_turn h
    exact .inl ⟨t, _, _, _, .next hn, ha⟩
  | start _ _ | complete _ _ | clone _ _ | drop _ _ _ | advance _ =>
    rcases hother (fun _ _ _ => by simp) with ⟨t, act, th, count, ht, ha, -⟩ |
      ⟨c, d, hpos, hw, -⟩ | ⟨now, hle, hw, -⟩
    · exact .inl ⟨t, act, th, count, ht, ha⟩
    · exact .inr (.inl ⟨c, d, hpos, hw⟩)
    · exact .inr (.inr ⟨now, hle, hw⟩)

namespace After

variable {act : Act Tid T} {th : Thread Tid T} {count : Nat → Side → Nat}

theorem frame (h : After w w' t act th count) : (w'.thread t).frame = th.frame := by
  rw [h.thread, Function.update_self, Thread.settled_frame]

theorem prog (h : After w w' t act th count) : (w'.thread t).prog = th.prog := by
  rw [h.thread, Function.update_self, Thread.settled_prog]

theorem ops (h : After w w' t act th count) : (w'.thread t).ops = th.ops := by
  rw [h.thread, Function.update_self, Thread.settled_ops]

theorem job (h : After w w' t act th count) : (w'.thread t).job = th.job := by
  rw [h.thread, Function.update_self, Thread.settled_job]

theorem others (h : After w w' t act th count) {u : Tid} (hu : u ≠ t) :
    w'.thread u = w.thread u := by
  rw [h.thread, Function.update_of_ne hu]

end After

/-- A thread goes on to its next operation and never back. -/
theorem After.ops_le {act : Act Tid T} {th : Thread Tid T} {count : Nat → Side → Nat}
    (ha : After w w' t act th count) (ht : Turn kind w t act th count) (u : Tid) :
    (w.thread u).ops ≤ (w'.thread u).ops := by
  by_cases hu : u = t
  · subst hu
    rw [ha.ops]
    cases ht with
    | next _ | complete _ _ => exact Nat.le_refl _
    | start _ _ | drop _ _ _ => exact Nat.le_succ _
  · rw [ha.others hu]

theorem ops_step {l : Label Tid T} (hs : w.step kind l = some w') (t : Tid) :
    (w.thread t).ops ≤ (w'.thread t).ops := by
  rcases step_cases hs with ⟨u, act, th, count, ht, ha⟩ | ⟨c', d', -, rfl⟩ | ⟨now, -, rfl⟩
  · exact ha.ops_le ht t
  · exact Nat.le_refl _
  · exact Nat.le_refl _

@[simp] theorem apply_clock (w : Shared Tid T) (t : Tid) (act : Act Tid T) :
    (w.apply t act).clock = w.clock := by
  cases act <;> rfl

/-- Time does not go back. -/
theorem clock_step {l : Label Tid T} (hs : w.step kind l = some w') :
    w.shared.clock ≤ w'.shared.clock := by
  rcases step_cases hs with ⟨u, act, th, count, ht, ha⟩ | ⟨c', d', -, rfl⟩ | ⟨now, hle, rfl⟩
  · rw [ha.shared, apply_clock]
  · exact Nat.le_refl _
  · exact hle

/-- **How the body of one operation moves**: it stays where it is, or goes on with the result of
    its call, or begins to complete the operation it has selected. -/
theorem frame_step {l : Label Tid T} (hs : w.step kind l = some w')
    (hops : (w'.thread t).ops = (w.thread t).ops) :
    (w'.thread t).frame = (w.thread t).frame ∨
      (∃ spurious act r order,
        w.shared.exec t kind (w.thread t).frame.call (w.thread t).prog spurious = some (act, .ret r) ∧
          w'.shared = w.shared.apply t act ∧
          (w.thread t).frame.resume kind t order r = some (w'.thread t).frame) ∨
      ∃ h tk msg, (w.thread t).frame = .chosen h tk ∧
        (w'.thread t).frame = .finishWith kind ⟨h.chan, msg⟩ tk := by
  rcases step_cases hs with ⟨u, act, th, count, ht, ha⟩ | ⟨c', d', -, rfl⟩ | ⟨now, -, rfl⟩
  · by_cases hu : t = u
    · subst hu
      rw [ha.ops] at hops
      rw [ha.frame, ha.shared]
      cases ht with
      | next hn =>
        obtain ⟨spurious, rep, he, hmore, hret⟩ := hn.exec
        cases rep with
        | more pr => exact .inl (hmore pr rfl).1
        | ret r =>
          obtain ⟨-, order, hres⟩ := hret r rfl
          exact .inr (.inl ⟨spurious, act, r, order, he, rfl, hres⟩)
      | start _ _ => exact absurd hops (Nat.succ_ne_self _)
      | complete hf _ => exact .inr (.inr ⟨_, _, _, hf, rfl⟩)
      | drop _ _ _ => exact absurd hops (Nat.succ_ne_self _)
    · rw [ha.others hu]
      exact .inl rfl
  · exact .inl rfl
  · exact .inl rfl

/-! ## One operation of a run -/

section

variable {x : (system kind : Lib.System (World Tid T) _).Exec} {i j : Nat}

theorem ops_run (hij : i ≤ j) (hj : j ≤ x.len) (t : Tid) :
    ((x.state i).thread t).ops ≤ ((x.state j).thread t).ops :=
  x.persists (Q := fun w => ((x.state i).thread t).ops ≤ (w.thread t).ops)
    (fun _ _ _ _ hs h => Nat.le_trans h (ops_step hs t)) hij hj (Nat.le_refl _)

/-- What every step of one operation keeps holds to its end. -/
theorem along {P : Nat → Prop} (hij : i ≤ j) (hj : j ≤ x.len)
    (hops : ((x.state j).thread t).ops = ((x.state i).thread t).ops) (hi : P i)
    (hstep : ∀ m, i ≤ m → m < j → ((x.state (m + 1)).thread t).ops = ((x.state m).thread t).ops →
      P m → P (m + 1)) : P j := by
  have upTo : ∀ m, i ≤ m → m ≤ j → P m := by
    intro m him
    induction m, him using Nat.le_induction with
    | base => exact fun _ => hi
    | succ m him ih =>
      intro hmj
      have hbegin := ops_run (x := x) him (by omega) t
      have hone := ops_run (x := x) (Nat.le_succ m) (by omega) t
      have hend := ops_run (x := x) hmj hj t
      refine hstep m him (by omega) ?_ (ih (by omega))
      simp only [Nat.succ_eq_add_one] at hone
      omega
  exact upTo j hij (Nat.le_refl j)

end

end World

end CrossbeamChannel
