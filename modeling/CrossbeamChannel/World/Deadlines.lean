import CrossbeamChannel.World.Delivery
import Mathlib.Tactic.IntervalCases

/-!
# What a blocking select wakes up for

`run_select` waits until the earliest of its own timeout and of the deadlines its handles
report. A handle of a `tick` channel reports when the next message arrives, and so does one of
an `after` channel, but it goes on doing so when the message has been received. Where that
does not happen, a wait that has run out of time has done so for a reason.

The deadlines are asked for after the registrations (`select.rs` 297-308), `SelectHandle::deadline` of the
two flavors is `after.rs` 184-186 and `tick.rs` 171-173. `Stale` is the call that gets an old answer.
Without it, `Bound` carries through the rest of the round that one of the tries to come is going to
succeed, unless another thread takes the message first.
-/

namespace CrossbeamChannel

variable {Tid T : Type} [DecidableEq Tid]

namespace Shared

variable {w : Shared Tid T} {t : Tid} {kind : Nat → Kind T} {pr : Prog} {act : Act Tid T}
  {rep : Reply Tid T} {spurious : Bool} {c : Nat} {d : Side}

/-- What a call of thread `t` returns within `n` steps if nothing else happens. -/
def alone (kind : Nat → Kind T) (t : Tid) (call : Call T) :
    Nat → Prog → Shared Tid T → Option (Ret Tid T)
  | 0, _, _ => none
  | n + 1, pr, w =>
      match w.exec t kind call pr false with
      | some (_, .ret r) => some r
      | some (act, .more pr') => alone kind t call n pr' (w.apply t act)
      | none => none

/-- A message of the timed channel can be received now. -/
def Due (w : Shared Tid T) (kind : Nat → Kind T) (c : Nat) : Prop :=
  match kind c with
  | .after deliveryTime => w.received c = false ∧ deliveryTime ≤ w.clock
  | .tick _ _ => (w.tick c).nextTick ≤ w.clock
  | _ => False

/-- No try fails on a message that can be received. -/
theorem Due.not_failed (h : w.Due kind c) {r : Ret Tid T}
    (he : w.exec t kind (.start c d) pr spurious = some (act, .ret r)) :
    ∃ m, r = .token (.instant m) := by
  unfold Due at h
  simp only [exec, start] at he
  cases hk : kind c with
  | after deliveryTime =>
    rw [hk] at h he
    simp only [tryAfter, h.1, Nat.not_lt.mpr h.2, if_false, Bool.false_eq_true] at he
    split at he <;> cases he
    exact ⟨_, rfl⟩
  | tick firstTick duration =>
    rw [hk] at h he
    simp only [tryTick, ge_iff_le, if_pos h] at he
    cases he
    exact ⟨_, rfl⟩
  | array _ _ | list | zero | never =>
    rw [hk] at h
    exact h.elim

/-- A try succeeds on a message that can be received. -/
theorem Due.alone (h : w.Due kind c) :
    ∃ n m, alone kind t (.start c d) n .start w = some (.token (.instant m)) := by
  unfold Due at h
  cases hk : kind c with
  | after deliveryTime =>
    rw [hk] at h
    refine ⟨3, deliveryTime, ?_⟩
    simp [Shared.alone, exec, start, hk, tryAfter, apply, h.1, Nat.not_lt.mpr h.2]
  | tick firstTick duration =>
    rw [hk] at h
    refine ⟨1, (w.tick c).nextTick, ?_⟩
    simp [Shared.alone, exec, start, hk, tryTick, h]
  | array _ _ | list | zero | never =>
    rw [hk] at h
    exact h.elim

end Shared

namespace Frame

variable {kind : Nat → Kind T} {t : Tid} {order handles hs : List Handle} {timeout tm : Timeout}
  {st : SelectStage Tid} {f g : Frame Tid T} {r : Ret Tid T} {acc : Option Nat} {i : Nat}

/-- The body computes the deadline, or waits for it. -/
def preparing : Frame Tid T → Bool
  | .select _ _ (.deadline _ _) | .select _ _ (.wait _) => true
  | _ => false

/-- The deadline is `acc` so far. -/
def Prepares (handles : List Handle) (timeout : Timeout) (acc : Option Nat) (f : Frame Tid T) :
    Prop :=
  (∃ i, f = .select handles timeout (.deadline i acc)) ∨ f = .select handles timeout (.wait acc)

omit [DecidableEq Tid] in
theorem Prepares.preparing (h : f.Prepares handles timeout acc) : f.preparing = true := by
  rcases h with ⟨i, rfl⟩ | rfl <;> rfl

omit [DecidableEq Tid] in
theorem nextHandle_preparing {n : Nat → SelectStage Tid} {last : Frame Tid T}
    (hn : ∀ i, (select hs tm (n i) : Frame Tid T).preparing = false)
    (hl : last.preparing = false) : (nextHandle hs tm i n last).preparing = false := by
  unfold nextHandle
  split
  · exact hn _
  · exact hl

omit [DecidableEq Tid] in
theorem loopStart_preparing : (loopStart hs tm : Frame Tid T).preparing = false := by
  unfold loopStart
  split <;> rfl

omit [DecidableEq Tid] in
theorem nowStart_preparing : (nowStart hs : Frame Tid T).preparing = false := by
  unfold nowStart
  split <;> rfl

omit [DecidableEq Tid] in
theorem roundOver_preparing : (roundOver hs tm : Frame Tid T).preparing = false := by
  unfold roundOver
  split
  · rfl
  · exact loopStart_preparing
  · rfl

theorem selectedNow_preparing {sel : Selected Tid} :
    (selectedNow t hs tm sel : Frame Tid T).preparing = false := by
  unfold selectedNow
  split
  · rfl
  · split
    · rfl
    · exact roundOver_preparing
  · exact roundOver_preparing

omit [DecidableEq Tid] in
theorem opFrame_preparing (op : Op T) : (op.frame kind : Frame Tid T).preparing = false := by
  unfold Op.frame
  split
  · split <;> rfl
  · rfl
  · rfl
  · exact nowStart_preparing
  · exact loopStart_preparing

omit [DecidableEq Tid] in
theorem choose_preparing {tk : Token} (h : choose hs i tk = some g) : g.preparing = false := by
  obtain ⟨x, -, rfl⟩ := Option.map_eq_some_iff.mp h
  rfl

omit [DecidableEq Tid] in
theorem retryResume_preparing {rst : RetryStage Tid} (h : retryResume hs tm i rst r = some g) :
    g.preparing = false := by
  have next : (nextHandle hs tm i (.again · .first) (select hs tm .reset) : Frame Tid T).preparing =
      false := nextHandle_preparing (fun _ => rfl) rfl
  unfold retryResume at h
  split at h
  · exact choose_preparing h
  · exact choose_preparing h
  · cases h
    exact next
  · cases h
    rfl
  · cases h
    rfl
  · cases h
    rfl
  · cases h
    rfl
  · cases h
    rfl
  · cases h
    rfl
  · exact choose_preparing h
  · cases h
    exact next
  · cases h

/-- How the deadline comes about: it begins as the timeout, and becomes the earlier of what it
    was and what a handle reports. -/
theorem Prepares.of_selectResume (h : selectResume t order hs tm st r = some g)
    (hg : g.Prepares handles timeout acc) :
    acc = timeout.deadline ∨ ∃ i acc' x, hs = handles ∧ tm = timeout ∧ st = .deadline i acc' ∧
      r = .instant x ∧ acc = earlier acc' x := by
  have absurd : g.preparing = false → acc = timeout.deadline ∨ ∃ i acc' x, hs = handles ∧
      tm = timeout ∧ st = .deadline i acc' ∧ r = .instant x ∧ acc = earlier acc' x := by
    intro hnot
    rw [hg.preparing] at hnot
    cases hnot
  unfold selectResume at h
  split at h
  · split at h <;> cases h
    exact absurd rfl
  · exact absurd (choose_preparing h)
  · exact absurd (choose_preparing h)
  · exact absurd (choose_preparing h)
  · cases h
    exact absurd (nextHandle_preparing (fun _ => rfl) rfl)
  · exact absurd (retryResume_preparing h)
  · cases h
    exact absurd rfl
  · cases h
    split at hg
    · rcases hg with ⟨i, hg⟩ | hg <;> cases hg
    · rcases hg with ⟨i, hg⟩ | hg <;> cases hg
  · cases h
    exact absurd rfl
  · -- The registrations are through.
    cases h
    unfold nextHandle at hg
    repeat' split at hg
    all_goals rcases hg with ⟨i, hg⟩ | hg <;> cases hg
    exact .inl rfl
  · cases h
    unfold nextHandle at hg
    split at hg
    · rcases hg with ⟨i, hg⟩ | hg <;> cases hg
      exact .inr ⟨_, _, _, rfl, rfl, rfl, rfl, rfl⟩
    · rcases hg with ⟨i, hg⟩ | hg <;> cases hg
      exact .inr ⟨_, _, _, rfl, rfl, rfl, rfl, rfl⟩
  · cases h
    exact absurd rfl
  · cases h
    refine absurd ?_
    split
    · rfl
    · exact selectedNow_preparing
  · cases h
    exact absurd roundOver_preparing
  · cases h
    refine absurd ?_
    split
    · exact nowStart_preparing
    · exact loopStart_preparing
  · split at h <;> cases h
    exact absurd rfl
  · cases h
    refine absurd ?_
    split <;> rfl
  · cases h
    refine absurd (nextHandle_preparing (fun _ => rfl) ?_)
    unfold probed
    split <;> rfl
  · cases h
    refine absurd ?_
    unfold rechecked
    repeat' split
    all_goals rfl
  · cases h
    refine absurd ?_
    split <;> rfl
  · cases h

theorem Prepares.of_resume (h : f.resume kind t order r = some g)
    (hg : g.Prepares handles timeout acc) :
    acc = timeout.deadline ∨ ∃ i acc' x, f = .select handles timeout (.deadline i acc') ∧
      r = .instant x ∧ acc = earlier acc' x := by
  have hselect : ∃ hs tm st, f = .select hs tm st := by
    have hstays := resume_stays h
    rcases hg with ⟨i, rfl⟩ | rfl <;> cases hstays <;> exact ⟨_, _, _, rfl⟩
  obtain ⟨hs, tm, st, rfl⟩ := hselect
  rcases of_selectResume h hg with heq | ⟨i, acc', x, rfl, rfl, rfl, hr, hacc⟩
  · exact .inl heq
  · exact .inr ⟨i, acc', x, rfl, hr, hacc⟩

end Frame

namespace World

variable {kind : Nat → Kind T} {w w' : World Tid T} {t : Tid} {handles : List Handle}
  {timeout : Timeout} {acc : Option Nat} {c d : Nat}

/-- A try of the handle, by thread `t` and with nothing else happening, succeeds. -/
def TrySucceeds (kind : Nat → Kind T) (w : World Tid T) (t : Tid) (h : Handle) : Prop :=
  ∃ n tk, Shared.alone kind t (.start h.chan h.side) n .start w.shared = some (.token tk)

/-- The timed channel has a message, or will have one, and `d` is its time. -/
def Awaits (kind : Nat → Kind T) (w : World Tid T) (c d : Nat) : Prop :=
  match kind c with
  | .after deliveryTime => deliveryTime = d ∧ w.shared.received c = false
  | .tick _ _ => (w.shared.tick c).nextTick = d
  | _ => False

/-- A `run_select` is about to ask an `after` channel for its deadline whose message has been
    received. -/
def Stale (kind : Nat → Kind T) (w : World Tid T) : Prop :=
  ∃ t handles timeout i acc h deliveryTime,
    (w.thread t).frame = .select handles timeout (.deadline i acc) ∧ handles[i]? = some h ∧
      kind h.chan = .after deliveryTime ∧ w.shared.received h.chan = true

omit [DecidableEq Tid] in
theorem Awaits.due (h : w.Awaits kind c d) (hd : d ≤ w.shared.clock) : w.shared.Due kind c := by
  unfold Awaits at h
  unfold Shared.Due
  cases hk : kind c with
  | after deliveryTime =>
    rw [hk] at h
    exact ⟨h.2, h.1 ▸ hd⟩
  | tick firstTick duration =>
    rw [hk] at h
    exact h.le.trans hd
  | array _ _ | list | zero | never =>
    rw [hk] at h
    exact h.elim

/-- A message that is awaited stays so until somebody receives it. -/
theorem Awaits.step {l : Label Tid T} (hs : w.step kind l = some w') (h : w.Awaits kind c d) :
    w'.Awaits kind c d ∨ ∃ u m, Takes kind w w' u c m := by
  rcases step_timed hs c with ⟨-, hidle⟩ | ⟨u, spurious, order, m, -, -, htakes⟩
  · left
    unfold Awaits at h ⊢
    rwa [hidle.tick, hidle.received]
  · exact .inr ⟨u, m, htakes⟩

/-- A thread that prepares to wait, or waits, receives nothing. -/
theorem Takes.not_preparing {u : Tid} {m : Nat} (h : Takes kind w w' u c m)
    (hf : (w.thread u).frame.Prepares handles timeout acc) : False := by
  have hsource := h.source
  rcases hf with ⟨i, hf⟩ | hf
  · rw [hf] at hsource
    simp only [Frame.call, Frame.selectCall, Frame.onHandle] at hsource
    split at hsource <;> cases hsource
  · rw [hf] at hsource
    cases hsource

omit [DecidableEq Tid] in
/-- What a handle of a timed channel reports, it awaits. -/
theorem Awaits.of_deadline (h : w.shared.deadline kind c = some d)
    (hfresh : ∀ deliveryTime, kind c = .after deliveryTime → w.shared.received c = false) :
    w.Awaits kind c d := by
  unfold Shared.deadline at h
  unfold Awaits
  cases hk : kind c with
  | after deliveryTime =>
    rw [hk] at h
    cases h
    exact ⟨rfl, hfresh _ hk⟩
  | tick firstTick duration =>
    rw [hk] at h
    exact Option.some.inj h
  | array _ _ | list | zero | never =>
    rw [hk] at h
    cases h

omit [DecidableEq Tid] in
/-- The earlier of two deadlines is one of them. -/
theorem earlier_eq {x y : Option Nat} (h : Frame.earlier x y = some d) : x = some d ∨ y = some d := by
  unfold Frame.earlier at h
  cases x with
  | none => cases y <;> exact .inr h
  | some x =>
    cases y with
    | none => exact .inl h
    | some y =>
      obtain rfl := Option.some.inj h
      rcases Nat.le_total x y with hle | hle
      · exact .inl (congrArg some (Nat.min_eq_left hle).symm)
      · exact .inr (congrArg some (Nat.min_eq_right hle).symm)

/-- What the deadline of a `run_select` that prepares to wait is made of. -/
theorem prepares_step {l : Label Tid T} (hs : w.step kind l = some w') (hfresh : ¬ w.Stale kind)
    (hf : (w'.thread t).frame.Prepares handles timeout (some d)) (hne : timeout.deadline ≠ some d) :
    (w.thread t).frame.Prepares handles timeout (some d) ∨
      ((∃ h ∈ handles, w.Awaits kind h.chan d) ∧
        ∃ acc, (w.thread t).frame.Prepares handles timeout acc) := by
  rcases step_cases hs with ⟨u, act, th, count, ht, ha⟩ | ⟨c', d', -, rfl⟩ | ⟨now, -, rfl⟩
  · by_cases hu : t = u
    · subst hu
      rw [ha.frame] at hf
      cases ht with
      | next hn =>
        obtain ⟨spurious, rep, he, hmore, hret⟩ := hn.exec
        cases rep with
        | more pr =>
          rw [(hmore _ rfl).1] at hf
          exact .inl hf
        | ret r =>
          obtain ⟨-, order, hres⟩ := hret r rfl
          rcases Frame.Prepares.of_resume hres hf with heq | ⟨i, acc, x, hframe, rfl, hacc⟩
          · exact absurd heq.symm hne
          · have hprep : (w.thread t).frame.Prepares handles timeout acc := .inl ⟨i, hframe⟩
            rcases earlier_eq hacc.symm with rfl | rfl
            · exact .inl hprep
            · -- The handle that is asked for its deadline awaits a message.
              refine .inr ⟨?_, acc, hprep⟩
              rw [hframe] at he
              obtain ⟨h, hi, hcall⟩ := Frame.onHandle_exec he
              have hdeadline : w.shared.deadline kind h.chan = some d := by
                simpa [Shared.exec] using (Prod.mk.inj (Option.some.inj hcall)).2
              refine ⟨h, List.mem_of_getElem? hi, .of_deadline hdeadline fun deliveryTime hk => ?_⟩
              cases hr : w.shared.received h.chan with
              | false => rfl
              | true => exact absurd ⟨t, handles, timeout, i, acc, h, _, hframe, hi, hk, hr⟩ hfresh
      -- No other turn leads into the loop that asks for the deadlines.
      | start ho _ =>
        rename_i op
        exact absurd hf.preparing (by rw [Frame.opFrame_preparing]; exact Bool.false_ne_true)
      | complete _ _ =>
        rename_i h tk msg _ _
        rcases Frame.finishWith_cases kind ⟨h.chan, msg⟩ tk with ⟨st, hst⟩ | ⟨out, hout⟩
        · rw [hst] at hf
          cases hf.preparing
        · rw [hout] at hf
          cases hf.preparing
      | drop _ _ _ =>
        have hnot := hf.preparing
        unfold lastDropped at hnot
        repeat' split at hnot
        all_goals cases hnot
    · rw [ha.others hu] at hf
      exact .inl hf
  · exact .inl hf
  · exact .inl hf

end World

/-! ## What comes after the wait -/

namespace Frame

variable {kind : Nat → Kind T} {t : Tid} {order hs : List Handle} {tm : Timeout}
  {st : SelectStage Tid} {f g : Frame Tid T} {r : Ret Tid T} {now now' c i : Nat} {due due' : Prop}

/-- One of the handles is of channel `c`, which is due. -/
def Among (c : Nat) (due : Prop) (handles : List Handle) : Prop :=
  due ∧ ∃ h ∈ handles, h.chan = c

/-- The body fires an operation or reaches its timeout before it registers again: on its way,
    it tries a handle of channel `c`, if that is due, or finds that its timeout has passed. -/
def Bound (now c : Nat) (due : Prop) : Frame Tid T → Prop
  | .select handles timeout st =>
      match st with
      | .wait _ | .unregister _ _ _ | .accept _ =>
          timeout.deadline.any (· ≤ now) ∨ Among c due handles
      | .timeCheck when => when ≤ now ∨ Among c due handles
      | .shuffle => Among c due handles
      | .attempt i => Among c due (handles.drop i)
      | .shuffleNow | .snapshot _ | .probe _ _ | .recheck _ _ _ => True
      | _ => False
  | _ => True

omit [DecidableEq Tid] in
theorem Bound.mono (h : f.Bound now c due) (hnow : now ≤ now') (hdue : due → due') :
    f.Bound now' c due' := by
  have among : ∀ {handles}, Among c due handles → Among c due' handles :=
    fun h => ⟨hdue h.1, h.2⟩
  cases f with
  | select handles timeout st =>
    cases st with
    | wait _ | unregister _ _ _ | accept _ =>
      refine h.imp (fun h => ?_) among
      simp only [Option.any_eq_true, decide_eq_true_eq] at h ⊢
      obtain ⟨when, hw, hle⟩ := h
      exact ⟨when, hw, hle.trans hnow⟩
    | timeCheck when => exact h.imp (fun hle => hle.trans hnow) among
    | shuffle => exact among h
    | attempt i => exact among h
    | _ => exact h
  | _ => exact h

omit [DecidableEq Tid] in
theorem loopStart_bound (h : Among c due hs) : (loopStart hs tm : Frame Tid T).Bound now c due := by
  unfold loopStart
  split <;> exact h

omit [DecidableEq Tid] in
theorem nowStart_bound : (nowStart hs : Frame Tid T).Bound now c due := by
  unfold nowStart
  split <;> trivial

omit [DecidableEq Tid] in
theorem roundOver_bound (h : tm.deadline.any (· ≤ now) ∨ Among c due hs) :
    (roundOver hs tm : Frame Tid T).Bound now c due := by
  unfold roundOver
  split
  · trivial
  · exact loopStart_bound (h.resolve_left (by simp [Timeout.deadline]))
  · exact h.imp_left fun h => by simpa [Timeout.deadline] using h

theorem selectedNow_bound {sel : Selected Tid} (h : tm.deadline.any (· ≤ now) ∨ Among c due hs) :
    (selectedNow t hs tm sel : Frame Tid T).Bound now c due := by
  unfold selectedNow
  split
  · trivial
  · split
    · exact h
    · exact roundOver_bound h
  · exact roundOver_bound h

/-- The clock that is read is the clock, and a try of a due channel does not fail. -/
structure Answers (hs : List Handle) (now c : Nat) (due : Prop) (st : SelectStage Tid)
    (r : Ret Tid T) : Prop where
  clock : ∀ when n, st = .timeCheck when → r = .nat n → n = now
  tried : ∀ i x, st = .attempt i → hs[i]? = some x → x.chan = c → due → r ≠ .failed

theorem Bound.selectResume (h : selectResume t order hs tm st r = some g)
    (hb : (select hs tm st : Frame Tid T).Bound now c due) (ha : Answers hs now c due st r) :
    g.Bound now c due := by
  have chosen : ∀ {i tk}, choose hs i tk = some g → g.Bound now c due := by
    intro i tk h
    obtain ⟨x, -, rfl⟩ := Option.map_eq_some_iff.mp h
    trivial
  unfold Frame.selectResume at h
  split at h
  · split at h <;> cases h
    rename_i hperm
    obtain ⟨hdue, x, hx, hc⟩ := hb
    exact ⟨hdue, x, hperm.mem_iff.mpr hx, hc⟩
  · exact chosen h
  · exact chosen h
  · exact chosen h
  · -- The `i`-th handle is not the one that is due.
    cases h
    rename_i i
    obtain ⟨hdue, x, hx, hc⟩ := hb
    have hlater : x ∈ hs.drop (i + 1) := by
      obtain ⟨n, hn⟩ := List.mem_iff_getElem?.mp hx
      rw [List.getElem?_drop] at hn
      cases n with
      | zero => exact absurd rfl (ha.tried i x rfl hn hc hdue)
      | succ n =>
        refine List.mem_iff_getElem?.mpr ⟨n, ?_⟩
        rw [List.getElem?_drop, ← hn]
        congr 1
        omega
    have hlen : i + 1 < hs.length := by
      by_contra hge
      rw [List.drop_eq_nil_of_le (Nat.le_of_not_lt hge)] at hlater
      cases hlater
    rw [nextHandle, if_pos hlen]
    exact ⟨hdue, x, hlater, hc⟩
  · exact hb.elim
  · exact hb.elim
  · exact hb.elim
  · exact hb.elim
  · exact hb.elim
  · exact hb.elim
  · cases h
    exact hb
  · cases h
    split
    · exact hb
    · exact selectedNow_bound hb
  · cases h
    exact roundOver_bound hb
  · cases h
    rename_i when n
    obtain rfl := ha.clock when n rfl rfl
    split
    · exact nowStart_bound
    · exact loopStart_bound (hb.resolve_left ‹_›)
  · split at h <;> cases h
    trivial
  · cases h
    split <;> trivial
  · cases h
    unfold nextHandle probed
    repeat' split
    all_goals trivial
  · cases h
    unfold rechecked
    repeat' split
    all_goals trivial
  · exact hb.elim
  · cases h

end Frame

namespace World

variable {kind : Nat → Kind T} {w w' : World Tid T} {t : Tid} {c m : Nat} {due due' : Prop}

/-- Who receives a message has fired an operation. -/
theorem bound_of_receipt {spurious : Bool} {order : List Handle} {x : Nat × Nat}
    (h : w.step kind (.run t spurious order) = some w')
    (hr : w.receipt kind c (.run t spurious order) = some x) (now : Nat) :
    (w'.thread t).frame.Bound now c due := by
  simp only [receipt] at hr
  split at hr
  · rename_i act m he
    simp only [step, run, he] at h
    obtain ⟨f, hres, rfl⟩ := Option.map_eq_some_iff.mp h
    rw [put_thread, Function.update_self, Thread.settled_frame]
    rcases Frame.resume_token hres with ⟨job, rfl, -⟩ | ⟨-, -, -, -, -, -, -, rfl, -⟩ |
      ⟨-, -, -, -, -, rfl⟩
    · rcases Frame.finishWith_cases kind job (.instant m) with ⟨st, hst⟩ | ⟨out, hout⟩
      · dsimp only
        rw [hst]
        trivial
      · dsimp only
        rw [hout]
        trivial
    · trivial
    · trivial
  · cases hr

/-- A message that can be received now can be until somebody receives it. -/
theorem due_step {l : Label Tid T} (hs : w.step kind l = some w') (h : w.shared.Due kind c) :
    w'.shared.Due kind c ∨ ∃ u m, Takes kind w w' u c m ∧
      ∀ now due, (w'.thread u).frame.Bound now c due := by
  rcases step_timed hs c with ⟨-, hidle⟩ | ⟨u, spurious, order, m, rfl, hreceipt, htakes⟩
  · left
    unfold Shared.Due at h ⊢
    rw [hidle.tick, hidle.received]
    have hclock := hidle.clock
    split at h
    · exact ⟨h.1, h.2.trans hclock⟩
    · exact h.trans hclock
    · exact h
  · exact .inr ⟨u, m, htakes, fun now due => bound_of_receipt hs hreceipt now⟩

/-- On its way a thread stays, as long as what is due stays so. -/
theorem bound_step {l : Label Tid T} (hs : w.step kind l = some w')
    (hops : (w'.thread t).ops = (w.thread t).ops) (htry : due → w.shared.Due kind c)
    (hkeep : due → due') (hb : (w.thread t).frame.Bound w.shared.clock c due) :
    (w'.thread t).frame.Bound w'.shared.clock c due' := by
  refine Frame.Bound.mono ?_ (clock_step hs) hkeep
  rcases step_cases hs with ⟨u, act, th, count, ht, ha⟩ | ⟨c', d', -, rfl⟩ | ⟨now, -, rfl⟩
  · by_cases hu : t = u
    · subst hu
      rw [ha.frame]
      rw [ha.ops] at hops
      cases ht with
      | next hn =>
        obtain ⟨spurious, rep, he, hmore, hret⟩ := hn.exec
        cases rep with
        | more pr => rwa [(hmore _ rfl).1]
        | ret r =>
          obtain ⟨-, order, hres⟩ := hret r rfl
          cases hf : (w.thread t).frame with
          | select handles timeout st =>
            rw [hf] at hb he hres
            refine hb.selectResume hres ⟨?_, ?_⟩
            -- The clock that `Instant::now` reads is that of the state.
            · rintro when n rfl rfl
              have hret : n = w.shared.clock := by
                simpa [Frame.call, Frame.selectCall, Shared.exec, eq_comm] using
                  (Prod.mk.inj (Option.some.inj he)).2
              exact hret
            -- A try of a due channel does not fail, since nobody else has taken the message.
            · rintro i x rfl hi rfl hdue rfl
              obtain ⟨x', hi', hcall⟩ := Frame.onHandle_exec he
              obtain rfl : x = x' := Option.some.inj (hi.symm.trans hi')
              obtain ⟨m, hm⟩ := (htry hdue).not_failed hcall
              cases hm
          | _ =>
            have hstays := hn.stays
            rw [hf] at hstays
            cases hstays <;> trivial
      | start _ _ => exact absurd hops (Nat.succ_ne_self _)
      | complete _ _ =>
        rename_i h tk msg _ _
        rcases Frame.finishWith_cases kind ⟨h.chan, msg⟩ tk with ⟨st, hst⟩ | ⟨out, hout⟩
        · rw [hst]
          trivial
        · rw [hout]
          trivial
      | drop _ _ _ => exact absurd hops (Nat.succ_ne_self _)
    · rwa [ha.others hu]
  · exact hb
  · exact hb

/-! ## Runs -/

variable {x : (system kind : Lib.System (World Tid T) _).Exec} {j k d : Nat}
  {handles : List Handle} {timeout : Timeout}

/-- Another thread takes, before instant `k`, the message of one of these handles, and thread
    `t` prepares its wait of instant `j` already, or that wait is over. -/
def Interrupted (x : (system kind : Lib.System (World Tid T) _).Exec) (t : Tid)
    (handles : List Handle) (j k : Nat) : Prop :=
  ∃ i < k, (∀ n, i ≤ n → n ≤ j → ((x.state n).thread t).frame.preparing = true) ∧
    ∃ h ∈ handles, ∃ u m, u ≠ t ∧ Takes kind (x.state i) (x.state (i + 1)) u h.chan m

/-- The deadline of a wait is that of a message that is awaited, unless another thread has
    taken that message in the meantime. -/
theorem awaits_of_prepares (hfresh : ∀ i ≤ x.len, ¬ (x.state i).Stale kind)
    (hne : timeout.deadline ≠ some d) (hj : j ≤ x.len)
    (hf : ((x.state j).thread t).frame.Prepares handles timeout (some d)) :
    (∃ h ∈ handles, (x.state j).Awaits kind h.chan d) ∨ Interrupted x t handles j j := by
  induction j with
  | zero =>
    rw [show x.state 0 = World.init kind from x.start] at hf
    rcases hf with ⟨i, hf⟩ | hf <;> cases hf
  | succ j ih =>
    obtain ⟨l, hl⟩ := x.next j hj
    have now := hf.preparing
    -- What is awaited one step earlier still is, or has just been taken by another thread.
    have await : ∀ {acc}, ((x.state j).thread t).frame.Prepares handles timeout acc →
        (∃ h ∈ handles, (x.state j).Awaits kind h.chan d) →
        (∃ h ∈ handles, (x.state (j + 1)).Awaits kind h.chan d) ∨
          Interrupted x t handles (j + 1) (j + 1) := by
      rintro acc hbefore ⟨h, hh, hawait⟩
      rcases hawait.step hl with hawait' | ⟨u, m, htakes⟩
      · exact .inl ⟨h, hh, hawait'⟩
      · have hut : u ≠ t := by
          rintro rfl
          exact htakes.not_preparing hbefore
        refine .inr ⟨j, Nat.lt_succ_self j, fun n hjn hn => ?_, h, hh, u, m, hut, htakes⟩
        rcases Nat.le_succ_iff.mp hn with hn | rfl
        · obtain rfl : n = j := Nat.le_antisymm hn hjn
          exact hbefore.preparing
        · exact now
    rcases prepares_step hl (hfresh j (by omega)) hf hne with hbefore | ⟨hawait, acc, hbefore⟩
    · rcases ih (by omega) hbefore with hawait | ⟨i, hi, hprep, htaken⟩
      · exact await hbefore hawait
      · refine .inr ⟨i, by omega, fun n hin hn => ?_, htaken⟩
        rcases Nat.le_succ_iff.mp hn with hn | rfl
        · exact hprep n hin hn
        · exact now
    · exact await hbefore hawait

/-- On its way a thread stays through a whole run of one operation, as long as what is due
    stays so. -/
theorem bound_run (due : Nat → Prop) (htry : ∀ i ≤ x.len, due i → (x.state i).shared.Due kind c)
    (hkeep : ∀ i, j ≤ i → i < k → due i →
      due (i + 1) ∨ ∀ due', ((x.state (i + 1)).thread t).frame.Bound (x.state (i + 1)).shared.clock c due')
    (hk : k ≤ x.len) (hjk : j ≤ k)
    (hb : ((x.state j).thread t).frame.Bound (x.state j).shared.clock c (due j))
    (hops : ((x.state k).thread t).ops = ((x.state j).thread t).ops) :
    ((x.state k).thread t).frame.Bound (x.state k).shared.clock c (due k) := by
  refine along (P := fun i =>
      ((x.state i).thread t).frame.Bound (x.state i).shared.clock c (due i)) hjk hk hops hb ?_
  intro i hji hik hops' hbefore
  obtain ⟨l, hl⟩ := x.next i (by omega)
  by_cases hdue : due i → due (i + 1)
  · exact bound_step hl hops' (htry i (by omega)) hdue hbefore
  · obtain ⟨hnow, hnot⟩ := Classical.not_imp.mp hdue
    exact (hkeep i hji hik hnow).resolve_left hnot _

/-- **A wait that has run out of time.** The timeout has passed, or a try of one of the handles
    succeeds, or another thread has just taken the message; and the operation does not wait
    another time unless another thread takes the message. -/
def WakesForReason (x : (system kind : Lib.System (World Tid T) _).Exec) : Prop :=
  ∀ j ≤ x.len, ∀ t handles timeout d,
    ((x.state j).thread t).frame = .select handles timeout (.wait (some d)) →
    d ≤ (x.state j).shared.clock →
      (timeout.deadline.any (· ≤ (x.state j).shared.clock) ∨
        (∃ h ∈ handles, (x.state j).TrySucceeds kind t h) ∨ Interrupted x t handles j j) ∧
      ∀ k, j ≤ k → k ≤ x.len → ((x.state k).thread t).ops = ((x.state j).thread t).ops →
        ∀ handles' timeout', ((x.state k).thread t).frame = .select handles' timeout' .reset →
          Interrupted x t handles j k

/-- What a thread that waits past its deadline `d` is bound for. -/
theorem wakes_for_reason (x : (system kind : Lib.System (World Tid T) _).Exec)
    (hfresh : ∀ i ≤ x.len, ¬ (x.state i).Stale kind) : WakesForReason x := by
  intro j hj t handles timeout d hf hd
  -- Nobody on the way registers again.
  have never : ∀ {k} c due {handles' timeout'},
      ((x.state k).thread t).frame = .select handles' timeout' .reset →
        ¬ ((x.state k).thread t).frame.Bound (x.state k).shared.clock c due := by
    intro k c due _ _ hreset hb
    rw [hreset] at hb
    exact hb
  by_cases hexp : timeout.deadline.any (· ≤ (x.state j).shared.clock)
  · refine ⟨.inl hexp, fun k hjk hk hops handles' timeout' hreset => (never 0 False hreset ?_).elim⟩
    refine bound_run (fun _ => False) (fun _ _ h => h.elim) (fun _ _ _ h => h.elim) hk hjk ?_ hops
    rw [hf]
    exact .inl hexp
  · have hne : timeout.deadline ≠ some d := by
      intro heq
      rw [heq] at hexp
      exact hexp (by simpa using hd)
    rcases awaits_of_prepares hfresh hne hj (.inr hf) with ⟨h, hh, hawait⟩ | hinterrupted
    · have hdue := hawait.due hd
      obtain ⟨n, m, hm⟩ := hdue.alone (t := t) (d := h.side)
      refine ⟨.inr (.inl ⟨h, hh, n, _, hm⟩), fun k hjk hk hops handles' timeout' hreset => ?_⟩
      by_contra hnot
      -- The message stays there, except that the thread itself may take it.
      have keep : ∀ i, j ≤ i → i < k → (x.state i).shared.Due kind h.chan →
          (x.state (i + 1)).shared.Due kind h.chan ∨ ∀ due',
            ((x.state (i + 1)).thread t).frame.Bound (x.state (i + 1)).shared.clock h.chan due' := by
        intro i hji hik hdue
        obtain ⟨l, hl⟩ := x.next i (by omega)
        rcases due_step hl hdue with hdue' | ⟨u, m, htakes, hbound⟩
        · exact .inl hdue'
        · by_cases hut : u = t
          · subst hut
            exact .inr fun _ => hbound _ _
          · refine (hnot ⟨i, hik, fun n hin hn => ?_, h, hh, u, m, hut, htakes⟩).elim
            obtain rfl : n = i := by omega
            obtain rfl : n = j := by omega
            rw [hf]
            rfl
      refine never h.chan _ hreset (bound_run (fun i => (x.state i).shared.Due kind h.chan)
        (fun _ _ hdue => hdue) keep hk hjk ?_ hops)
      rw [hf]
      exact .inr ⟨hdue, h, hh, rfl⟩
    · refine ⟨.inr (.inr hinterrupted), fun k hjk hk hops handles' timeout' hreset => ?_⟩
      obtain ⟨i, hi, hprep, htaken⟩ := hinterrupted
      exact ⟨i, by omega, hprep, htaken⟩

/-- One handle of the channel whose message comes at 5. -/
def receiver : List Handle := [⟨0, .recv, 0, 0⟩]

/-- Thread 0 selects on the channel, and waits for its message until 5. -/
def untilFive : List (Label Nat Nat) :=
  .start 0 (.select receiver .never) :: List.replicate 6 (.run 0 false []) ++ [.advance 5]

theorem wakes_for_reason_untilFive :
    ∃ x : (system atFive : Lib.System (World Nat Nat) _).Exec, x.len = 8 ∧ WakesForReason x := by
  let x := Lib.System.Exec.ofReplay (S := (system atFive : Lib.System (World Nat Nat) _))
    (fun _ _ _ hs => hs) (World.init atFive) rfl untilFive (by decide +kernel)
  refine ⟨x, rfl, wakes_for_reason x fun i hi => ?_⟩
  -- Nobody has received the message.
  have hfree : ∀ i ≤ 8, ∀ c, (x.state i).shared.received c = false := by
    intro i hi c
    interval_cases i <;> rfl
  rintro ⟨t, handles, timeout, n, acc, h, deliveryTime, -, -, -, htaken⟩
  rw [hfree i hi] at htaken
  cases htaken

/-- The message is received, and then thread 0 selects on the channel. -/
def receivedBefore : List (Label Nat Nat) :=
  [.advance 5, .start 0 (.plain ⟨0, none⟩ .nonblocking)] ++ List.replicate 3 (.run 0 false []) ++
    .start 0 (.select receiver .never) :: List.replicate 6 (.run 0 false [])

/-- The select waits until 5, at 5, with nothing to receive. -/
theorem receivedBefore_wakes_for_nothing :
    ∃ x : (system atFive : Lib.System (World Nat Nat) _).Exec, ¬ WakesForReason x := by
  let x := Lib.System.Exec.ofReplay (S := (system atFive : Lib.System (World Nat Nat) _))
    (fun _ _ _ hs => hs) (World.init atFive) rfl receivedBefore (by decide +kernel)
  refine ⟨x, fun hwakes => ?_⟩
  have hframe : ((x.state 12).thread 0).frame = .select receiver .never (.wait (some 5)) := rfl
  have hclock : (x.state 12).shared.clock = 5 := by decide +kernel
  have htaken : (x.state 12).shared.received 0 = true := by decide +kernel
  have hactive : ∀ i ≤ 12, ∀ u ∈ (x.state i).active, u = 0 := by decide +kernel
  rcases (hwakes 12 (le_refl 12) 0 receiver .never 5 hframe hclock.ge).1 with
    hexp | ⟨h, hh, n, tk, htry⟩ | ⟨i, hi, -, h, hh, u, m, hu, htakes⟩
  · cases hexp
  · obtain rfl := List.mem_singleton.mp hh
    cases n with
    | zero => cases htry
    | succ n =>
      simp [Shared.alone, Shared.exec, Shared.start, atFive, Shared.tryAfter, htaken] at htry
  · -- Nobody else is in an operation.
    have hidle : ((x.state i).thread u).frame.ended = true := by
      by_contra hrun
      have hlent := lent_of_reachable (x.reachable (show i ≤ x.len from hi.le))
      have hmem := (hlent.active u).mpr (Bool.eq_false_of_not_eq_true hrun)
      exact hu (hactive i (by omega) u hmem)
    have hsource := htakes.source
    cases hf : ((x.state i).thread u).frame with
    | done _ | panicked =>
      rw [hf] at hsource
      cases hsource
    | _ =>
      rw [hf] at hidle
      cases hidle

end World

end CrossbeamChannel
