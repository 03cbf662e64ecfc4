import CrossbeamChannel.World.Assertions

/-!
# Disconnecting strands nobody

`Channel::disconnect` sets the flag and then sweeps the two queues; `send`, `recv` and `run_select`
put their entries into the queues and then look at the flag again. `World.Quiet` has it that one of the
two orders catches every entry: when a call of `disconnect` has returned, whoever has an entry in a queue
of the channel is decided, or is about to find out by itself (`World.Quiet.told`).

From the entries the step to the threads is not immediate: a thread could wait on the channel and have
no entry there. An entry that is missing has been taken out by who selected the operation, so the thread
is decided; but a list sender never enters a queue in the first place (`SelectHandle::register` of the
list flavor only looks at the flag). It never comes to wait either. `start_send` of the list flavor does
not fail, so `run_select` fires it, or another handle, before it blocks: `Frame.Tried`.
-/

namespace CrossbeamChannel

variable {Tid T : Type}

/-- Of `n` handles in their present order, this many have been tried since the top of the loop. From
    `SelectStage.again` on it is all of them. -/
def SelectStage.tried (n : Nat) : SelectStage Tid → Nat
  | .attempt i => i
  | .shuffle | .shuffleNow | .snapshot _ | .probe _ _ | .recheck _ _ _ | .sleep _ => 0
  | _ => n

namespace Frame

/-- A list sender that had been tried would have been fired. -/
def Tried (kind : Nat → Kind T) : Frame Tid T → Prop
  | .select handles _ st =>
      ∀ x ∈ handles.take (st.tried handles.length), kind x.chan = .list → x.side ≠ .send
  | _ => True

variable {kind : Nat → Kind T} {handles : List Handle} {timeout : Timeout} {st : SelectStage Tid}
  {f g : Frame Tid T} {i : Nat}

/-- A select whose handles are none of a list sender has tried none. -/
theorem tried_of_all (h : ∀ x ∈ handles, kind x.chan = .list → x.side ≠ .send) :
    (Frame.select handles timeout st : Frame Tid T).Tried kind :=
  fun x hx => h x (List.mem_of_mem_take hx)

theorem tried_zero (h : st.tried handles.length = 0) :
    (Frame.select handles timeout st : Frame Tid T).Tried kind := by
  intro x hx
  rw [h] at hx
  cases hx

/-- The failed try of the `i`-th handle is one more. -/
theorem tried_next (h : (Frame.select handles timeout (.attempt i) : Frame Tid T).Tried kind)
    (hi : ∀ x, handles[i]? = some x → kind x.chan = .list → x.side ≠ .send) :
    (nextHandle handles timeout i .attempt (.select handles timeout (.again 0 .first)) :
      Frame Tid T).Tried kind := by
  have htake : ∀ x ∈ handles.take (i + 1), kind x.chan = .list → x.side ≠ .send := by
    intro x hx
    rw [List.take_add_one, List.mem_append, Option.mem_toList] at hx
    rcases hx with hx | hx
    · exact h x hx
    · exact hi x hx
  unfold nextHandle
  split
  · exact htake
  · rw [List.take_of_length_le (by omega)] at htake
    exact tried_of_all htake

/-- **What a select goes on with.** Only a try that fails makes more of the handles tried. -/
theorem tried_of_resume [DecidableEq Tid] {t : Tid} {order : List Handle} {r : Ret Tid T}
    (hr : (Frame.select handles timeout st).resume kind t order r = some g)
    (h : (Frame.select handles timeout st : Frame Tid T).Tried kind)
    (hi : ∀ i x, st = .attempt i → r = .failed → handles[i]? = some x → kind x.chan = .list →
      x.side ≠ .send) : g.Tried kind := by
  have hstays := resume_stays hr
  -- Once all have been tried, that stays so for the same handles in any order.
  have all : st.tried handles.length = handles.length → g.Tried kind := by
    intro hall
    simp only [Tried, hall, List.take_length] at h
    cases hstays with
    | same => exact tried_of_all h
    | select hperm => exact tried_of_all fun x hx => h x (hperm.mem_iff.mp hx)
    | _ => trivial
  cases st with
  | attempt i =>
    cases r with
    | token tk =>
      obtain ⟨x, -, rfl⟩ := Option.map_eq_some_iff.mp hr
      trivial
    | failed =>
      cases hr
      exact tried_next h fun x => hi i x rfl rfl
    | _ => cases hr
  | shuffle | shuffleNow =>
    cases r with
    | unit =>
      simp only [resume, selectResume] at hr
      split at hr <;> cases hr
      exact tried_zero rfl
    | _ => cases hr
  | snapshot _ =>
    cases r with
    | nat _ =>
      cases hr
      split <;> exact tried_zero rfl
    | _ => cases hr
  | probe _ _ =>
    cases r with
    | token tk =>
      obtain ⟨x, -, rfl⟩ := Option.map_eq_some_iff.mp hr
      trivial
    | failed =>
      cases hr
      unfold nextHandle probed
      repeat' split
      all_goals first | exact tried_zero rfl | trivial
    | _ => cases hr
  | recheck _ _ _ =>
    cases r with
    | nat _ =>
      cases hr
      unfold rechecked
      repeat' split
      all_goals first | exact tried_zero rfl | trivial
    | _ => cases hr
  | sleep _ =>
    cases r with
    | nat _ =>
      cases hr
      split
      · trivial
      · exact tried_zero rfl
    | _ => cases hr
  | _ => exact all rfl

end Frame

namespace World

variable [DecidableEq Tid] {kind : Nat → Kind T} {w w' : World Tid T} {t : Tid} {c : Nat} {d : Side}

omit [DecidableEq Tid] in
/-- A new operation has tried nothing yet. -/
theorem opFrame_tried (op : Op T) : (op.frame kind : Frame Tid T).Tried kind := by
  unfold Op.frame Frame.nowStart Frame.loopStart
  repeat' split
  all_goals first | exact Frame.tried_zero rfl | trivial

/-- **No select has come past a list sender**: the try of that handle does not fail. -/
theorem tried_of_reachable (h : (system kind).Reachable w) (t : Tid) :
    (w.thread t).frame.Tried kind := by
  refine h.invariant (P := fun w => ∀ t, (w.thread t).frame.Tried kind) ?_
    (fun w l w' hr ih hs => ?_) t
  · rintro _ rfl t
    trivial
  · rcases step_cases hs with ⟨t, act, th, count, ht, ha⟩ | ⟨c, d, -, rfl⟩ | ⟨now, -, rfl⟩
    · intro u
      by_cases hu : u = t
      · subst hu
        rw [ha.frame]
        have hold := ih u
        cases ht with
        | next hn =>
          have hno : ∀ {c spurious act}, kind c = .list → (w.thread u).frame.call = .start c .send →
              w.shared.exec u kind (w.thread u).frame.call (w.thread u).prog spurious ≠
                some (act, .ret .failed) := fun hk hcall => not_failed hr hk hcall
          generalize (w.thread u).frame = f at hn hold hno
          cases hn with
          | more he => exact hold
          | ret he hres =>
            cases f with
            | select handles timeout st =>
              refine Frame.tried_of_resume hres hold ?_
              rintro i x rfl rfl hx hk hside
              refine hno hk ?_ he
              simp only [Frame.call, Frame.selectCall, Frame.onHandle, hx, hside]
            | _ =>
              have hstays := Frame.resume_stays hres
              cases hstays <;> trivial
        | start hover huses => exact opFrame_tried _
        | complete hframe hside =>
          rcases Frame.finishWith_cases kind ⟨_, _⟩ _ with ⟨st, h⟩ | ⟨out, h⟩ <;> rw [h] <;> trivial
        | drop hover hpos hfree =>
          unfold lastDropped
          repeat' split
          all_goals trivial
      · rw [ha.others hu]
        exact ih u
    · exact ih
    · exact ih

/-- **Who waits has an entry to be found by** wherever it works: only a list sender enters no queue, and
    nobody waits for one. -/
theorem queues_of_parked (hr : (system kind).Reachable w) (hp : w.Parked t)
    (hworks : (w.thread t).frame.Works c d) (hd : w.Disconnected kind c) : (kind c).Queues d := by
  have hlist : kind c = .list → d ≠ .send := by
    intro hk
    obtain ⟨deadline, hcall⟩ := Call.waitUntil_of_waits hp.1
    have hwaits := (orderly_of_reachable hr t).2
    have htyped := typed_of_reachable hr t
    have htried := tried_of_reachable hr t
    generalize (w.thread t).frame = f at hcall hworks hwaits htyped htried
    rcases Frame.calls_of_eq hcall with ⟨job, mode, rfl, -⟩ | ⟨job, mode, p, rfl, -⟩ |
      ⟨handles, timeout, rfl⟩
    · obtain ⟨rfl, rfl⟩ := hworks
      intro hside
      have hq : (kind job.chan).Queues job.side := hwaits
      rw [hk, hside] at hq
      cases hq
    · obtain ⟨rfl, rfl⟩ := hworks
      have hz : (kind job.chan).IsZero := htyped
      rw [hk] at hz
      exact hz.elim
    · obtain ⟨x, hx, rfl, rfl⟩ := hworks
      refine htried x ?_ hk
      simpa only [SelectStage.tried, List.take_length] using hx
  cases hk : kind c with
  | array ch built => trivial
  | list =>
    cases d with
    | send => exact absurd rfl (hlist hk)
    | recv => rfl
  | zero => trivial
  | after _ | tick _ _ | never =>
    unfold Disconnected at hd
    rw [hk] at hd
    exact hd.elim

/-- **Nobody is left behind** on a channel that `disconnect` has been called for. -/
structure Unstranded (kind : Nat → Kind T) (w : World Tid T) (c : Nat) : Prop where
  /-- Whoever has an entry in a queue of the channel is decided, or is in the check behind its
      registration, which is going to report "ready", or about to abort because it has. -/
  told : ∀ d, ∀ e ∈ (w.shared.reg.waker c d).entries,
    (w.shared.reg.cx e.owner).select ≠ .waiting ∨ w.Rechecks e.owner c d e.oper.slot
  /-- No thread in an operation on the channel is parked, whether it has an entry there or not. A select
      is in an operation on every channel it has a handle of. -/
  awake : ∀ t d, (w.thread t).frame.Works c d → ¬ w.Parked t

/-- Whoever is parked has an entry, and who has an entry on a quiet channel is not parked. -/
theorem Quiet.unstranded (hr : (system kind).Reachable w) (hq : Quiet kind w c) :
    Unstranded kind w c where
  told := fun _ _ he => hq.told hr he
  awake := by
    intro t d hworks hp
    have hbooks := (sound_of_reachable hr).books
    obtain ⟨slot, hleft⟩ := (w.thread t).frame.left_of_waits hp.1 hworks
      (queues_of_parked hr hp hworks hq.1)
    -- Nobody has selected the operation, so its entry is still there.
    obtain ⟨e, he, hoper⟩ := hbooks.present t ⟨c, d, slot⟩ hleft (by rw [hp.2]; simp)
    obtain rfl : e.owner = t := by rw [Entry.owner, hoper]
    rcases hq.told hr he with hdec | hre
    · exact hdec hp.2
    · exact hre.not_parked hp

/-- **Disconnecting strands nobody.** From the return of a `disconnect` on, every entry in the queues of
    the channel belongs to a thread whose context is decided, or that is in the check behind its
    registration and about to abort; and no thread is parked in an operation on the channel. -/
theorem disconnect_strands_nobody (x : (system kind : Lib.System (World Tid T) _).Exec) {i j : Nat}
    (hi : i < j) (hj : j ≤ x.len) (hret : Returns (x.state i) (x.state (i + 1)) c) :
    Unstranded kind (x.state j) c := by
  obtain ⟨l, hl⟩ := x.next i (by omega)
  have hq := x.persists (Q := fun w => Quiet kind w c) (fun w l w' hr hs hq => hq.step hr hs)
    hi hj (quiet_of_returns (x.reachable (by omega)) hl hret)
  exact hq.unstranded (x.reachable hj)

/-- A receiver of a zero channel goes to sleep, and the last sender is dropped. -/
def lastSender : List (Label Nat Nat) :=
  [.start 0 (.plain ⟨0, none⟩ (.blocking none)), .run 0 false [], .drop 1 0 .send, .run 1 false []]

/-- The receiver is parked when the sender is dropped. It still waits after the return of `disconnect`,
    and has an entry, but it is decided. -/
theorem disconnect_strands_nobody_lastSender :
    ∃ x : (system fun _ => .zero : Lib.System (World Nat Nat) _).Exec,
      (x.state 3).Parked 0 ∧ Unstranded (fun _ => .zero) (x.state 4) 0 ∧
        ((x.state 4).thread 0).frame.Works 0 .recv ∧
        ⟨⟨0, 0⟩, some 0⟩ ∈ ((x.state 4).shared.reg.waker 0 .recv).entries := by
  let x : (system fun _ => .zero : Lib.System (World Nat Nat) _).Exec :=
    Lib.System.Exec.ofReplay (fun _ _ _ hs => hs) _ rfl lastSender (by decide +kernel)
  have hret : Returns (x.state 3) (x.state 4) 0 := ⟨1, .send, .zero, rfl, rfl⟩
  exact ⟨x, ⟨rfl, rfl⟩, disconnect_strands_nobody x (i := 3) (by decide) (by decide) hret, ⟨rfl, rfl⟩,
    List.mem_singleton_self _⟩

end World

end CrossbeamChannel
