import CrossbeamChannel.World.Contexts

/-!
# What other threads do to a context

A section selects a waiting operation, or disconnects it, or stores the packet of the operation it
has selected. Each of these reaches the context inside the `Context::with` in which the entry was
registered, so that what the owner reads there is about its present operation:
`FineWorld.accesses_are_current`.

`touches` names the next access of a section, from `wake_one` and `disconnect` of `src/waker.rs`. A failed
compare-and-swap changes nothing and is not one. `Changes` lists all ways a context can change while its
owner is inside, and a run carries back from a value read in `wait_until` or `wait_packet` to the access
that has written it, with the registration and the scope in between.
-/

namespace CrossbeamChannel

variable {Tid T : Type} [DecidableEq Tid]

/-- What a section does to the context of another thread. -/
inductive Access (Tid : Type) where
  /-- A successful `try_select` on the context of the entry. -/
  | select (c : Nat) (d : Side) (e : Entry Tid) (sel : Selected Tid)
  /-- `store_packet` with the packet of the entry, when it is not null. -/
  | store (c : Nat) (d : Side) (e : Entry Tid) (p : Nat)

namespace FineWorld

/-- The access the holder of a mutex makes next. -/
def touches (F : FineWorld Tid T) (s : Critical T) (h : Holder Tid) : Option (Access Tid) :=
  let cx := F.world.shared.reg.cx
  match h.stage with
  | .scan i =>
      ((F.entries s.chan h.side)[i]?.filter fun e => Waker.Wakeable cx h.thread e).map fun e =>
        .select s.chan h.side e (.operation e.oper)
  | .store i =>
      (F.entries s.chan h.side)[i]?.bind fun e => e.packet.map fun p => .store s.chan h.side e p
  | .tell i =>
      ((F.entries s.chan h.side)[i]?.filter fun e => (cx e.owner).select = .waiting).map fun e =>
        .select s.chan h.side e .disconnected
  | _ => none

/-- The access thread `t` makes next. -/
def access (kind : Nat → Kind T) (F : FineWorld Tid T) (t : Tid) : Option (Access Tid) :=
  match (F.world.thread t).frame.call.critical kind (F.world.thread t).prog with
  | some s =>
      match F.holder s.chan (mutexOf kind s.chan s.side) with
      | some h => if h.thread = t then F.touches s h else none
      | none => none
  | none => none

/-- Thread `t` is inside `Context::with`. -/
def Within (F : FineWorld Tid T) (t : Tid) : Prop := (F.world.thread t).frame.inside = true

variable {F F' : FineWorld Tid T} {kind : Nat → Kind T} {c : Nat} {d : Side} {e : Entry Tid}
  {t u : Tid} {s : Critical T} {h : Holder Tid} {act : Act Tid T}

theorem access_eq (hs : (F.world.thread h.thread).frame.call.critical kind
    (F.world.thread h.thread).prog = some s)
    (hh : F.holder s.chan (mutexOf kind s.chan s.side) = some h) :
    F.access kind h.thread = F.touches s h := by
  simp only [access, hs, hh, if_true]

/-- Where an access is made, and what it is. -/
theorem access_cases {a : Access Tid} (ha : F.access kind u = some a) :
    ∃ s h i e, (F.world.thread u).frame.call.critical kind (F.world.thread u).prog = some s ∧
      F.holder s.chan (mutexOf kind s.chan s.side) = some h ∧ h.thread = u ∧
      (F.entries s.chan h.side)[i]? = some e ∧
      ((h.stage = .scan i ∧ e.owner ≠ u ∧ (F.world.shared.reg.cx e.owner).select = .waiting ∧
          a = .select s.chan h.side e (.operation e.oper)) ∨
        (h.stage = .tell i ∧ (F.world.shared.reg.cx e.owner).select = .waiting ∧
          a = .select s.chan h.side e .disconnected) ∨
        (h.stage = .store i ∧ ∃ p, e.packet = some p ∧ a = .store s.chan h.side e p)) := by
  unfold access at ha
  split at ha
  · rename_i s hs
    split at ha
    · rename_i h hh
      split at ha
      · rename_i hu
        subst hu
        unfold touches at ha
        dsimp only at ha
        split at ha
        · rename_i i hst
          obtain ⟨e, he, rfl⟩ := Option.map_eq_some_iff.mp ha
          obtain ⟨hi, hw⟩ := Option.filter_eq_some_iff.mp he
          obtain ⟨hne, hwait⟩ := Waker.wakeable_iff.mp hw
          exact ⟨s, h, i, e, hs, hh, rfl, hi, .inl ⟨hst, hne, hwait, rfl⟩⟩
        · rename_i i hst
          obtain ⟨e, hi, hp⟩ := Option.bind_eq_some_iff.mp ha
          obtain ⟨p, hpk, rfl⟩ := Option.map_eq_some_iff.mp hp
          exact ⟨s, h, i, e, hs, hh, rfl, hi, .inr (.inr ⟨hst, p, hpk, rfl⟩)⟩
        · rename_i i hst
          obtain ⟨e, he, rfl⟩ := Option.map_eq_some_iff.mp ha
          obtain ⟨hi, hw⟩ := Option.filter_eq_some_iff.mp he
          exact ⟨s, h, i, e, hs, hh, rfl, hi, .inr (.inl ⟨hst, of_decide_eq_true hw, rfl⟩)⟩
        · cases ha
      · cases ha
    · cases ha
  · cases ha

omit [DecidableEq Tid] in
/-- A thread in a section is outside `Context::with`. -/
theorem outside_of_enters {f : Frame Tid T} (h : Frame.Enters kind f s) : f.inside = false := by
  cases h <;> rfl

omit [DecidableEq Tid] in
/-- Another thread than the owner of the context makes the access. -/
theorem other_of_enters (hb : Books kind F) (hin : F.Within t)
    (hs : (F.world.thread u).frame.call.critical kind (F.world.thread u).prog = some s) : u ≠ t := by
  rintro rfl
  rw [Within, outside_of_enters (Frame.enters_of_critical (hb.typed u) hs)] at hin
  cases hin

/-! ## What one step does to the context of a thread that is inside -/

/-- `run_select` enters `Context::with` by the reset. -/
theorem inside_of_select {w : Shared Tid T} {g : Frame Tid T} {pr : Prog} {r : Ret Tid T}
    {handles order : List Handle} {timeout : Timeout} {st : SelectStage Tid} {spurious : Bool}
    (hcrit : (Frame.select handles timeout st : Frame Tid T).call.critical kind pr = none)
    (he : w.exec t kind (Frame.select handles timeout st : Frame Tid T).call pr spurious =
      some (act, .ret r))
    (hr : (Frame.select handles timeout st : Frame Tid T).resume kind t order r = some g)
    (hg : g.inside = true) :
    (Frame.select handles timeout st : Frame Tid T).inside = true ∨ act = .reset := by
  have off : g.inside = false →
      (Frame.select handles timeout st : Frame Tid T).inside = true ∨ act = .reset := fun h => by
    rw [h] at hg
    cases hg
  cases st with
  | attempt i =>
    cases r with
    | token tk => exact off (Frame.choose_inside hr)
    | failed =>
      cases hr
      exact off (Frame.nextHandle_inside (fun _ => rfl) rfl)
    | _ => cases hr
  | probe i states =>
    cases r with
    | token tk => exact off (Frame.choose_inside hr)
    | failed =>
      cases hr
      refine off (Frame.nextHandle_inside (fun _ => rfl) ?_)
      unfold Frame.probed
      split <;> rfl
    | _ => cases hr
  | again i st =>
    cases st with
    | first =>
      cases r with
      | token tk => exact off (Frame.choose_inside hr)
      | failed =>
        cases hr
        exact off (Frame.nextHandle_inside (fun _ => rfl) rfl)
      | queued p =>
        -- Only the section of a zero channel queues a packet.
        obtain ⟨x, hx, he'⟩ := Frame.onHandle_exec he
        have hz := (Shared.retry_queued he').eq
        simp [Frame.call, Frame.selectCall, Frame.onHandle, hx, Call.critical, hz] at hcrit
      | _ => cases hr
    | _ => exact .inl rfl
  | reset =>
    cases he
    exact .inr rfl
  | shuffle | shuffleNow =>
    cases r with
    | unit =>
      simp only [Frame.resume, Frame.selectResume] at hr
      split at hr <;> cases hr
      exact off rfl
    | _ => cases hr
  | timeCheck when =>
    cases r with
    | nat now =>
      cases hr
      refine off ?_
      unfold Frame.nowStart Frame.loopStart
      repeat' split
      all_goals rfl
    | _ => cases hr
  | snapshot states =>
    cases r with
    | nat v =>
      cases hr
      refine off ?_
      split <;> rfl
    | _ => cases hr
  | recheck states current changed =>
    cases r with
    | nat v =>
      cases hr
      refine off ?_
      unfold Frame.rechecked
      repeat' split
      all_goals rfl
    | _ => cases hr
  | sleep until_ =>
    cases r with
    | nat now =>
      cases hr
      refine off ?_
      split <;> rfl
    | _ => cases hr
  | register _ | abort _ | selected _ | deadline _ _ | wait _ | unregister _ _ _ | accept _ =>
    exact .inl rfl

/-- A body enters `Context::with` by the reset. -/
theorem inside_of_next {w : Shared Tid T} {f g : Frame Tid T} {pr pr' : Prog}
    (hn : Frame.Next kind w t f pr act g pr') (hcrit : f.call.critical kind pr = none)
    (hg : g.inside = true) : f.inside = true ∨ act = .reset := by
  cases hn with
  | more he => exact .inl hg
  | ret he hr =>
    rename_i spurious order r
    -- At most places the body is not inside a scope afterwards.
    have off : g.inside = false → f.inside = true ∨ act = .reset := fun h => by
      rw [h] at hg
      cases hg
    cases f with
    | plain job mode st =>
      cases st with
      | attempt n =>
        refine off ?_
        cases r with
        | token tk =>
          cases hr
          exact Frame.finishWith_inside _ _
        | failed =>
          cases hr
          unfold Frame.plainFailed
          repeat' split
          all_goals rfl
        | _ => cases hr
      | reset =>
        cases he
        exact .inr rfl
      | deadline woken =>
        refine off ?_
        cases r with
        | nat now =>
          cases hr
          split <;> rfl
        | _ => cases hr
      | _ => exact .inl rfl
    | zero job mode st =>
      cases st with
      | pair => cases hcrit
      | _ => exact .inl rfl
    | select handles timeout st => exact inside_of_select hcrit he hr hg
    | timer c mode =>
      refine off ?_
      simp only [Frame.resume, Frame.timerResume] at hr
      repeat' split at hr
      all_goals cases hr
      all_goals rfl
    | finish job st =>
      refine off ?_
      simp only [Frame.resume, Frame.finishResume, Frame.completed] at hr
      repeat' split at hr
      all_goals cases hr
      all_goals rfl
    | close c d st =>
      refine off ?_
      simp only [Frame.resume, Frame.closeResume] at hr
      repeat' split at hr
      all_goals cases hr
      all_goals rfl
    | done out | chosen x tk | panicked => cases hr

/-- A section leads into `Context::with` by queueing a packet. -/
theorem queued_of_inside {f g : Frame Tid T} {order : List Handle} {r : Ret Tid T}
    (h : Frame.Enters kind f s) (hr : f.resume kind t order r = some g) (hg : g.inside = true) :
    ∃ p, r = .queued p := by
  have off : g.inside = false → ∃ p, r = .queued p := fun hno => by
    rw [hno] at hg
    cases hg
  cases h with
  | zero =>
    cases r with
    | queued p => exact ⟨p, rfl⟩
    | token tk =>
      cases hr
      exact off (Frame.finishWith_inside _ _)
    | failed =>
      cases hr
      exact off rfl
    | _ => cases hr
  | attempt hx hk | again hx hk =>
    cases r with
    | queued p => exact ⟨p, rfl⟩
    | token tk => exact off (Frame.choose_inside hr)
    | failed =>
      cases hr
      exact off (Frame.nextHandle_inside (fun _ => rfl) rfl)
    | _ => cases hr
  | probe hx hk =>
    cases r with
    | token tk => exact off (Frame.choose_inside hr)
    | failed =>
      cases hr
      refine off (Frame.nextHandle_inside (fun _ => rfl) ?_)
      unfold Frame.probed
      split <;> rfl
    | _ => cases hr
  | finish =>
    cases r <;> cases hr
    exact off rfl
  | senders | receivers | close =>
    cases r <;> cases hr
    exact off rfl

/-- Who aborts its attempt is inside `Context::with`. -/
theorem inside_of_abort {w : Shared Tid T} {f g : Frame Tid T} {pr pr' : Prog}
    (hn : Frame.Next kind w t f pr .abort g pr') : f.inside = true := by
  obtain ⟨spurious, rep, he, -⟩ := hn.exec
  rcases (Shared.exec_explains he).1 with hcall | ⟨deadline, hcall⟩
  · rcases Frame.calls_of_eq hcall with ⟨job, mode, rfl⟩ | ⟨handles, timeout, i, rfl⟩ |
      ⟨handles, timeout, i, p, rfl⟩ <;> rfl
  · rcases Frame.calls_of_eq hcall with ⟨job, mode, rfl, -⟩ | ⟨job, mode, p, rfl, -⟩ |
      ⟨handles, timeout, rfl⟩ <;> rfl

/-- The ways a step can change the context of a thread that is inside after it. -/
inductive Changes (kind : Nat → Kind T) (F : FineWorld Tid T) (l : Label Tid T) (t : Tid)
    (cx' : Context Tid) : Prop where
  | same (hin : F.Within t) (hcx : cx' = F.world.shared.reg.cx t)
  | reset (hcx : cx' = .fresh)
  /-- The thread gives up. -/
  | abort (hin : F.Within t) (hl : l.Runs t) (hwait : (F.world.shared.reg.cx t).select = .waiting)
      (hcx : cx' = { F.world.shared.reg.cx t with select := .aborted })
  | select {u : Tid} {c : Nat} {d : Side} {e : Entry Tid} {sel : Selected Tid} (hin : F.Within t)
      (hl : l.Runs u) (hu : u ≠ t) (ha : F.access kind u = some (.select c d e sel))
      (hown : e.owner = t) (hcx : cx' = { F.world.shared.reg.cx t with select := sel })
  | store {u : Tid} {c : Nat} {d : Side} {e : Entry Tid} {p : Nat} (hin : F.Within t)
      (hl : l.Runs u) (hu : u ≠ t) (ha : F.access kind u = some (.store c d e p))
      (hown : e.owner = t) (hcx : cx' = { F.world.shared.reg.cx t with packet := some p })

/-- One access inside a section, seen by a thread that is inside `Context::with`. -/
theorem changes_inside {l : Label Tid T} (hb : Books kind F)
    (hs : (F.world.thread h.thread).frame.call.critical kind (F.world.thread h.thread).prog = some s)
    (hh : F.holder s.chan (mutexOf kind s.chan s.side) = some h) (hi : Inside kind F s h F')
    (hl : l.Runs h.thread) (hin : F'.Within t) :
    Changes kind F l t (F'.world.shared.reg.cx t) := by
  have hents := Frame.enters_of_critical (hb.typed h.thread) hs
  have haccess := access_eq hs hh
  have other : F.Within t → h.thread ≠ t := fun hin => other_of_enters hb hin hs
  -- The end of a section changes a context only where the thread begins a scope of its own.
  have leave : ∀ {F₁ : FineWorld Tid T} {order act r}, F₁.world.thread = F.world.thread →
      F₁.world.shared.reg.cx = F.world.shared.reg.cx →
      (act = .silent ∧ (∀ p, r ≠ .queued p) ∨ ∃ c d v, act = .queue c d v) →
      F₁.leave kind h.thread order s act r = some F' →
      Changes kind F l t (F'.world.shared.reg.cx t) := by
    intro F₁ order act r hthread hcx hact hleave
    obtain ⟨g, hr, ha, -⟩ := leave_after (by rw [hthread]; exact hents.running) hleave
    rw [hthread] at hr
    rw [ha.shared]
    by_cases ht : t = h.thread
    · subst ht
      rw [Within, ha.frame] at hin
      obtain ⟨p, rfl⟩ := queued_of_inside hents hr hin
      rcases hact with ⟨-, hno⟩ | ⟨c, d, v, rfl⟩
      · exact absurd rfl (hno p)
      · exact .reset (Function.update_self _ _ _)
    · rw [Within, ha.others ht, hthread] at hin
      refine .same hin ?_
      rcases hact with ⟨rfl, -⟩ | ⟨c, d, v, rfl⟩
      · exact congrFun hcx t
      · exact (Function.update_of_ne ht _ _).trans (congrFun hcx t)
  cases hi with
  | pass _ _ _ | unpark _ | flag _ | turn _ _ => exact .same hin rfl
  | tell hst he =>
    rename_i i e
    change Changes kind F l t (Function.update F.world.shared.reg.cx e.owner _ t)
    by_cases ht : t = e.owner
    · subst ht
      rw [Function.update_self]
      by_cases hw : (F.world.shared.reg.cx e.owner).select = .waiting
      · have hacc : F.access kind h.thread = some (.select s.chan h.side e .disconnected) := by
          rw [haccess]
          simp [touches, hst, he, hw]
        exact .select hin hl (other hin) hacc rfl (Context.trySelect_waiting hw)
      · exact .same hin (Context.trySelect_decided hw)
    · rw [Function.update_of_ne ht]
      exact .same hin rfl
  | select hst he hyes =>
    rename_i i e
    change Changes kind F l t (Function.update F.world.shared.reg.cx e.owner _ t)
    by_cases ht : t = e.owner
    · subst ht
      rw [Function.update_self]
      have hacc : F.access kind h.thread =
          some (.select s.chan h.side e (.operation e.oper)) := by
        rw [haccess]
        simp [touches, hst, he, hyes]
      exact .select hin hl (other hin) hacc rfl
        (Context.trySelect_waiting (Waker.wakeable_iff.mp hyes).2)
    · rw [Function.update_of_ne ht]
      exact .same hin rfl
  | store hst he =>
    rename_i i e
    change Changes kind F l t (Function.update F.world.shared.reg.cx e.owner _ t)
    by_cases ht : t = e.owner
    · subst ht
      rw [Function.update_self]
      cases hp : e.packet with
      | none => exact .same hin rfl
      | some p =>
        have hacc : F.access kind h.thread = some (.store s.chan h.side e p) := by
          rw [haccess]
          simp [touches, hst, he, hp]
        exact .store hin hl (other hin) hacc rfl rfl
    · rw [Function.update_of_ne ht]
      exact .same hin rfl
  | remove hst he hleave =>
    refine leave (by rfl) (by rfl) (.inl ⟨rfl, ?_⟩) hleave
    cases s <;> simp [Critical.found]
  | nobody hst he hleave =>
    refine leave (by rfl) (by rfl) ?_ hleave
    cases s with
    | pair c d offer =>
      simp only [Critical.nobody]
      split
      · exact .inl ⟨rfl, by simp⟩
      · split
        · exact .inl ⟨rfl, by simp⟩
        · exact .inr ⟨_, _, _, rfl⟩
    | _ => exact .inl ⟨rfl, by simp [Critical.nobody]⟩
  | told hst hleave => exact leave rfl rfl (.inl ⟨rfl, by simp⟩) hleave

/-- **What one step does to the context of a thread that is inside `Context::with` after it.** -/
theorem changes_step {l : Label Tid T} (hr : (system kind).Reachable F) (hs : F.step kind l = some F')
    (hin : F'.Within t) : Changes kind F l t (F'.world.shared.reg.cx t) := by
  have hb := books_reachable hr
  rcases step_cases hs with ⟨u, act, th, count, ht, ha, hu, hh, hl⟩ | ⟨u, s, -, hh, rfl⟩ |
    ⟨s, h, hs, hh, hi, hl⟩ | ⟨c, d, rfl⟩ | ⟨now, rfl⟩
  · obtain ⟨hplain, -⟩ := turn_plain ht hu
    rw [ha.shared]
    by_cases htu : t = u
    · subst htu
      rw [Within, ha.frame] at hin
      rcases turn_blind ht with ⟨f, pr, rfl, hn⟩ | ⟨-, -, -, hno⟩
      · have hbefore := inside_of_next hn hu.1 hin
        have same : act ≠ .reset → act ≠ .abort →
            Changes kind F l t ((F.world.shared.apply t act).reg.cx t) := by
          intro hreset habort
          refine .same (hbefore.resolve_right hreset) ?_
          cases act with
          | reset => exact absurd rfl hreset
          | abort => exact absurd rfl habort
          | wakeOne _ _ | disconnect _ _ | disconnectZero _ | queue _ _ _ => exact hplain.elim
          | _ => rfl
        cases act with
        | reset => exact .reset (Function.update_self _ _ _)
        | abort =>
          have hwithin := inside_of_abort hn
          simp only [Shared.apply, Registry.abort, Function.update_self]
          by_cases hw : (F.world.shared.reg.cx t).select = .waiting
          · refine .abort hwithin (hl.resolve_right fun hnone => ?_) hw (Context.trySelect_waiting hw)
            obtain ⟨spurious, rep, he, -⟩ := hn.exec
            rw [hnone] at he
            cases he
          · exact .same hwithin (Context.trySelect_decided hw)
        | _ => exact same (by simp) (by simp)
      · rw [hno] at hin
        cases hin
    · rw [Within, ha.others htu] at hin
      exact .same hin (cx_of_others hplain htu)
  · exact .same hin rfl
  · exact changes_inside hb hs hh hi hl hin
  · exact .same hin rfl
  · exact .same hin rfl

/-! ## Runs -/

section

variable {x : (system kind : Lib.System (FineWorld Tid T) _).Exec} {i j k : Nat}

/-- The `k`-th step of the run is one of thread `u`. -/
def Does (x : (system kind : Lib.System (FineWorld Tid T) _).Exec) (k : Nat) (u : Tid) : Prop :=
  ∃ l, l.Runs u ∧ (x.state k).step kind l = some (x.state (k + 1))

/-- The thread stays inside `Context::with` behind the `i`-th step up to instant `j`. -/
def Throughout (x : (system kind : Lib.System (FineWorld Tid T) _).Exec) (i j : Nat) (t : Tid) :
    Prop :=
  ∀ m, i < m → m ≤ j → (x.state m).Within t

/-- The `i`-th step has registered the entry. It is queued, and its owner inside
    `Context::with`, up to instant `j`. -/
def Registered (x : (system kind : Lib.System (FineWorld Tid T) _).Exec) (i j c : Nat) (d : Side)
    (e : Entry Tid) : Prop :=
  e ∉ (x.state i).entries c d ∧
    ∀ m, i < m → m ≤ j → e ∈ (x.state m).entries c d ∧ (x.state m).Within e.owner

/-- The next step of thread `t`, outside the sections, returns this from its call. -/
def Returns (kind : Nat → Kind T) (F : FineWorld Tid T) (t : Tid) (r : Ret Tid T) : Prop :=
  (F.world.thread t).frame.call.critical kind (F.world.thread t).prog = none ∧
    ∃ spurious act, F.world.shared.exec t kind (F.world.thread t).frame.call
      (F.world.thread t).prog spurious = some (act, .ret r)

/-- A property that only a registration brings about. -/
theorem registered_since {Q : FineWorld Tid T → Prop}
    (hQ : ∀ F, (system kind).Reachable F → Q F → e ∈ F.entries c d ∧ F.Within e.owner)
    (hstep : ∀ F F', (system kind).Reachable F → Careful kind F F' → Q F' →
      Q F ∨ Added kind F F' c d e) (hj : j ≤ x.len) (h : Q (x.state j)) :
    ∃ i < j, Registered x i j c d e := by
  have h0 : ¬ Q (x.state 0) := by
    intro h0
    have hmem := (hQ _ (x.reachable (Nat.zero_le _)) h0).1
    rw [show x.state 0 = FineWorld.init kind from x.start] at hmem
    exact absurd hmem List.not_mem_nil
  have hone : ∀ i < x.len, Q (x.state (i + 1)) → Q (x.state i) ∨ e ∉ (x.state i).entries c d := by
    intro i hi hq
    obtain ⟨l, hl⟩ := x.next i hi
    have hr := x.reachable (Nat.le_of_lt hi)
    have hcareful := careful_step (books_reachable hr) (packets_reachable hr) hl
    exact (hstep _ _ hr hcareful hq).imp_right fun hadd =>
      hadd.not_mem (books_reachable (x.reachable hi))
  obtain ⟨i, hij, hnot, hall⟩ := x.since_event h0 hone hj h
  exact ⟨i, hij, hnot, fun m him hm => hQ _ (x.reachable (by omega)) (hall m him hm)⟩

omit [DecidableEq Tid] in
theorem within_of_settled (hb : Books kind F) (he : e ∈ ((F.settled kind).waker c d).entries) :
    F.Within e.owner := Frame.inside_of_made (made_of_settled hb he)

/-- The entry whose operation is selected, or disconnected, was registered in this scope. -/
theorem select_registered {sel : Selected Tid} (hj : j ≤ x.len)
    (ha : (x.state j).access kind u = some (.select c d e sel)) :
    e.owner ≠ u ∧ ∃ i < j, Registered x i j c d e := by
  have hb := books_reachable (x.reachable hj)
  obtain ⟨s, h, n, e', hs, hh, rfl, he, hcase⟩ := access_cases ha
  have hset : e ∈ (((x.state j).settled kind).waker c d).entries := by
    have hself := hb.taken_self hh
    rcases hcase with ⟨hst, -, -, heq⟩ | ⟨hst, -, heq⟩ | ⟨-, p, -, heq⟩
    · cases heq
      exact settled_of_free (hself.trans (by rw [hst]; rfl)) (List.mem_of_getElem? he)
    · cases heq
      exact settled_of_free (hself.trans (by rw [hst]; rfl)) (List.mem_of_getElem? he)
    · cases heq
  refine ⟨fun heq => ?_, registered_since
    (Q := fun F => e ∈ ((F.settled kind).waker c d).entries) (fun F hr hq => ?_)
    (fun F F' _ hcareful hq => hcareful.settled c d e hq) hj hset⟩
  · exact other_of_enters hb (within_of_settled hb hset) hs heq.symm
  · exact ⟨Registry.mem_settle hq, within_of_settled (books_reachable hr) hq⟩

/-- The packet that is stored was registered in this scope, with the operation that was
    selected. -/
theorem store_registered {p : Nat} (hj : j ≤ x.len)
    (ha : (x.state j).access kind u = some (.store c d e p)) :
    e.packet = some p ∧ ((x.state j).world.shared.reg.cx e.owner).select = .operation e.oper ∧
      e.owner ≠ u ∧ ∃ i < j, Registered x i j c d e := by
  have hb := books_reachable (x.reachable hj)
  obtain ⟨s, h, n, e', hs, hh, rfl, he, hcase⟩ := access_cases ha
  rcases hcase with ⟨-, -, -, heq⟩ | ⟨-, -, heq⟩ | ⟨hst, p', hp, heq⟩
  · cases heq
  · cases heq
  · cases heq
    have hpd : (x.state j).Pending kind s.chan h.side e :=
      ⟨h, n, by rwa [hb.same_mutex hh], rfl, hst, he⟩
    have within : ∀ F, (system kind).Reachable F → F.Offered kind s.chan h.side e →
        F.Within e.owner := by
      intro F hr ho
      rcases ho with hset | hpd
      · exact within_of_settled (books_reachable hr) hset
      · exact ((scopes_reachable hr).pending _ _ _ p hpd hp).2.2.inside
    refine ⟨hp, ((scopes_reachable (x.reachable hj)).pending _ _ _ p hpd hp).1, fun heq => ?_,
      registered_since (Q := fun F => F.Offered kind s.chan h.side e)
        (fun F hr ho => ⟨mem_of_offered ho, within F hr ho⟩)
        (fun F F' _ hcareful ho => hcareful.offered ho) hj (.inr hpd)⟩
    exact other_of_enters hb (within _ (x.reachable hj) (.inr hpd)) hs heq.symm

/-- Before instant `j` another thread has made this access, through entry `e`, to the context of
    `t`. The entry was registered, and the access made, in the `Context::with` that `t` is in. -/
def Caused (x : (system kind : Lib.System (FineWorld Tid T) _).Exec) (j : Nat) (t : Tid)
    (e : Entry Tid) (a : Nat → Side → Access Tid) : Prop :=
  e.owner = t ∧ ∃ i k u c d, i < k ∧ k < j ∧ u ≠ t ∧ Does x k u ∧
    (x.state k).access kind u = some (a c d) ∧ Registered x i k c d e ∧ Throughout x i j t

/-- Before instant `j` the thread has given up, in the `Context::with` it is in. -/
def GaveUp (x : (system kind : Lib.System (FineWorld Tid T) _).Exec) (j : Nat) (t : Tid) : Prop :=
  ∃ k < j, Does x k t ∧ (x.state k).Within t ∧
    ((x.state k).world.shared.reg.cx t).select = .waiting ∧ Throughout x k j t

theorem caused_of_access {a : Nat → Side → Access Tid} (hkj : k < j) (hu : u ≠ t)
    (hdoes : Does x k u) (ha : (x.state k).access kind u = some (a c d)) (hown : e.owner = t)
    (hreg : ∃ i < k, Registered x i k c d e) (hafter : Throughout x k j t) : Caused x j t e a := by
  obtain ⟨i, hik, hreg⟩ := hreg
  refine ⟨hown, i, k, u, c, d, hik, hkj, hu, hdoes, ha, hreg, fun m him hm => ?_⟩
  rcases Nat.lt_or_ge k m with hlt | hge
  · exact hafter m hlt hm
  · exact hown ▸ (hreg.2 m him hge).2

/-- A context that is decided was decided in the present scope. -/
theorem selected_since {sel : Selected Tid} (hj : j ≤ x.len) (hin : (x.state j).Within t)
    (hne : sel ≠ .waiting) (hsel : ((x.state j).world.shared.reg.cx t).select = sel) :
    (sel = .aborted ∧ GaveUp x j t) ∨ ∃ e, Caused x j t e fun c d => .select c d e sel := by
  have h0 : ¬ ((x.state 0).Within t ∧ ((x.state 0).world.shared.reg.cx t).select = sel) := by
    rintro ⟨h0, -⟩
    rw [show x.state 0 = FineWorld.init kind from x.start] at h0
    cases h0
  have hone : ∀ k < x.len, (x.state (k + 1)).Within t ∧
      ((x.state (k + 1)).world.shared.reg.cx t).select = sel →
      ((x.state k).Within t ∧ ((x.state k).world.shared.reg.cx t).select = sel) ∨
      ((sel = .aborted ∧ Does x k t ∧ (x.state k).Within t ∧
          ((x.state k).world.shared.reg.cx t).select = .waiting) ∨
        ∃ u c d e, u ≠ t ∧ Does x k u ∧
          (x.state k).access kind u = some (.select c d e sel) ∧ e.owner = t) := by
    rintro k hk ⟨hin', hsel'⟩
    obtain ⟨l, hl⟩ := x.next k hk
    cases changes_step (x.reachable (Nat.le_of_lt hk)) hl hin' with
    | same hin hcx => exact .inl ⟨hin, by rw [← hcx, hsel']⟩
    | reset hcx =>
      rw [hcx] at hsel'
      exact absurd hsel'.symm hne
    | abort hin hlt hwait hcx =>
      rw [hcx] at hsel'
      exact .inr (.inl ⟨hsel'.symm, ⟨l, hlt, hl⟩, hin, hwait⟩)
    | select hin hlu hu ha hown hcx =>
      rw [hcx] at hsel'
      subst hsel'
      exact .inr (.inr ⟨_, _, _, _, hu, ⟨l, hlu, hl⟩, ha, hown⟩)
    | store hin hlu hu ha hown hcx =>
      rw [hcx] at hsel'
      exact .inl ⟨hin, hsel'⟩
  obtain ⟨k, hkj, hE, hall⟩ := x.since_event
    (Q := fun F => F.Within t ∧ (F.world.shared.reg.cx t).select = sel) h0 hone hj ⟨hin, hsel⟩
  have hafter : Throughout x k j t := fun m hkm hm => (hall m hkm hm).1
  rcases hE with ⟨rfl, hdoes, hwithin, hwait⟩ | ⟨u, c, d, e, hu, hdoes, ha, hown⟩
  · exact .inl ⟨rfl, k, hkj, hdoes, hwithin, hwait, hafter⟩
  · exact .inr ⟨e, caused_of_access hkj hu hdoes ha hown (select_registered (by omega) ha).2 hafter⟩

/-- A packet in a context was provided in the present scope, with the selected operation. -/
theorem packet_since {p : Nat} (hj : j ≤ x.len) (hin : (x.state j).Within t)
    (hp : ((x.state j).world.shared.reg.cx t).packet = some p) :
    ∃ e, e.packet = some p ∧ ((x.state j).world.shared.reg.cx t).select = .operation e.oper ∧
      Caused x j t e fun c d => .store c d e p := by
  -- Back to the last step at which the packet was not there. It has stored it.
  have h0 : ¬ ((x.state 0).Within t ∧ ((x.state 0).world.shared.reg.cx t).packet = some p) := by
    rintro ⟨h0, -⟩
    rw [show x.state 0 = FineWorld.init kind from x.start] at h0
    cases h0
  have hone : ∀ k < x.len, (x.state (k + 1)).Within t ∧
      ((x.state (k + 1)).world.shared.reg.cx t).packet = some p →
      ((x.state k).Within t ∧ ((x.state k).world.shared.reg.cx t).packet = some p) ∨
      ∃ u c d e, u ≠ t ∧ Does x k u ∧
        (x.state k).access kind u = some (.store c d e p) ∧ e.owner = t := by
    rintro k hk ⟨hin', hp'⟩
    obtain ⟨l, hl⟩ := x.next k hk
    cases changes_step (x.reachable (Nat.le_of_lt hk)) hl hin' with
    | same hin hcx => exact .inl ⟨hin, by rw [← hcx, hp']⟩
    | reset hcx =>
      rw [hcx] at hp'
      cases hp'
    | abort hin hlt hwait hcx =>
      rw [hcx] at hp'
      exact .inl ⟨hin, hp'⟩
    | select hin hlu hu ha hown hcx =>
      rw [hcx] at hp'
      exact .inl ⟨hin, hp'⟩
    | store hin hlu hu ha hown hcx =>
      rw [hcx] at hp'
      cases hp'
      exact .inr ⟨_, _, _, _, hu, ⟨l, hlu, hl⟩, ha, hown⟩
  obtain ⟨k, hkj, ⟨u, c, d, e, hu, hdoes, ha, hown⟩, hall⟩ := x.since_event
    (Q := fun F => F.Within t ∧ (F.world.shared.reg.cx t).packet = some p) h0 hone hj ⟨hin, hp⟩
  obtain ⟨hpk, hsel, -, hreg⟩ := store_registered (by omega) ha
  rw [hown] at hsel
  -- Since then the selection has not changed: a decided context is reset only with its packet.
  have hstays : ∀ m, k ≤ m → m ≤ j →
      ((x.state m).world.shared.reg.cx t).select = .operation e.oper := by
    intro m hkm
    induction m, hkm using Nat.le_induction with
    | base => exact fun _ => hsel
    | succ m hkm ih =>
      intro hmj
      have hold := ih (by omega)
      obtain ⟨hin', hp'⟩ := hall (m + 1) (by omega) hmj
      obtain ⟨l, hl⟩ := x.next m (by omega)
      cases changes_step (x.reachable (by omega)) hl hin' with
      | same hin hcx => rw [hcx, hold]
      | reset hcx =>
        rw [hcx] at hp'
        cases hp'
      | abort hin hlt hwait hcx =>
        rw [hold] at hwait
        cases hwait
      | select hin hlu hu ha' hown' hcx =>
        obtain ⟨s, h, n, e', -, -, -, -, hcase⟩ := access_cases ha'
        have hwait : ((x.state m).world.shared.reg.cx t).select = .waiting := by
          rcases hcase with ⟨-, -, hw, heq⟩ | ⟨-, hw, heq⟩ | ⟨-, q, -, heq⟩
          · cases heq
            rwa [hown'] at hw
          · cases heq
            rwa [hown'] at hw
          · cases heq
        rw [hold] at hwait
        cases hwait
      | store hin hlu hu ha' hown' hcx => rw [hcx, hold]
  exact ⟨e, hpk, hstays j (by omega) (Nat.le_refl j), caused_of_access hkj hu hdoes ha hown hreg
    fun m hkm hm => (hall m hkm hm).1⟩

omit [DecidableEq Tid] in
/-- The places at which a thread waits for its context, or for a packet there. -/
theorem within_of_call {f : Frame Tid T}
    (h : (∃ deadline, f.call = .waitUntil deadline) ∨ f.call = .waitPacket ∨
      ∃ c d, f.call = .accept c d) : f.inside = true := by
  rcases h with ⟨deadline, h⟩ | h | ⟨c, d, h⟩
  · rcases Frame.calls_of_eq h with ⟨job, mode, rfl, -⟩ | ⟨job, mode, p, rfl, -⟩ |
      ⟨handles, timeout, rfl⟩ <;> rfl
  · obtain ⟨handles, timeout, i, rfl⟩ := Frame.calls_of_eq h
    rfl
  · obtain ⟨handles, timeout, i, x, rfl, -⟩ := Frame.calls_of_eq h
    rfl

/-- `wait_until` returns what it reads, or gives up. -/
theorem waitUntil_reads {w : Shared Tid T} {deadline : Option Nat} {pr : Prog} {sel : Selected Tid}
    (h : w.waitUntil t deadline pr = some (act, .ret (.selected sel))) :
    ((w.reg.cx t).select = sel ∧ sel ≠ .waiting) ∨
      ((w.reg.cx t).select = .waiting ∧ sel = .aborted) := by
  have looks : ∀ {pr'}, (Act.silent, w.orSelected t pr') = (act, .ret (.selected sel)) →
      (w.reg.cx t).select = sel ∧ sel ≠ .waiting := fun h =>
    Shared.orSelected_selected (Prod.mk.inj h).2
  unfold Shared.waitUntil at h
  split at h
  · exact .inl (looks (Option.some.inj h))
  · exact .inl (looks (Option.some.inj h))
  · exact .inl (looks (Option.some.inj h))
  · cases h
  · cases h
  · simp only [Shared.abort, Option.some.injEq, Prod.mk.injEq, Reply.ret.injEq,
      Ret.selected.injEq] at h
    obtain ⟨-, hsel⟩ := h
    split at hsel
    · exact .inr ⟨‹_›, hsel.symm⟩
    · rename_i hne
      exact .inl ⟨hsel, hsel ▸ hne⟩
  · cases h

/-- **Whatever is done to a context is done inside the `Context::with` it is meant for.** Every
    successful `try_select` of a section, and every `store_packet`, reaches its context in the
    scope in which the entry it acts on was registered. So what `wait_until` returns was decided in
    the present scope, by the thread itself or through an entry registered there, and what
    `wait_packet` returns is the packet of the entry that was selected. -/
theorem accesses_are_current (x : (system kind : Lib.System (FineWorld Tid T) _).Exec) {j : Nat}
    (hj : j ≤ x.len) :
    (∀ u c d e sel, (x.state j).access kind u = some (.select c d e sel) →
      e.owner ≠ u ∧ ∃ i < j, Registered x i j c d e) ∧
    (∀ u c d e p, (x.state j).access kind u = some (.store c d e p) →
      e.owner ≠ u ∧ e.packet = some p ∧ ∃ i < j, Registered x i j c d e) ∧
    (∀ t deadline sel, ((x.state j).world.thread t).frame.call = .waitUntil deadline →
      Returns kind (x.state j) t (.selected sel) →
        (sel = .aborted ∧
          (((x.state j).world.shared.reg.cx t).select = .waiting ∨ GaveUp x j t)) ∨
        ∃ e, Caused x j t e fun c d => .select c d e sel) ∧
    (∀ t p, (((x.state j).world.thread t).frame.call = .waitPacket ∨
        ∃ c d, ((x.state j).world.thread t).frame.call = .accept c d) →
      Returns kind (x.state j) t (.token (.packet p)) →
        ∃ e, e.packet = some p ∧ ((x.state j).world.shared.reg.cx t).select = .operation e.oper ∧
          Caused x j t e fun c d => .store c d e p) := by
  refine ⟨fun u c d e sel ha => select_registered hj ha, fun u c d e p ha => ?_,
    fun t deadline sel hcall hret => ?_, fun t p hcall hret => ?_⟩
  · obtain ⟨hp, -, hne, hreg⟩ := store_registered hj ha
    exact ⟨hne, hp, hreg⟩
  · obtain ⟨-, spurious, act, he⟩ := hret
    have hin := within_of_call (.inl ⟨deadline, hcall⟩)
    rw [hcall] at he
    rcases waitUntil_reads he with ⟨hsel, hne⟩ | ⟨hwait, rfl⟩
    · rcases selected_since hj hin hne hsel with ⟨rfl, hgave⟩ | hcaused
      · exact .inl ⟨rfl, .inr hgave⟩
      · exact .inr hcaused
    · exact .inl ⟨rfl, .inl hwait⟩
  · obtain ⟨hcrit, spurious, act, he⟩ := hret
    exact packet_since hj (within_of_call (.inr hcall)) (Frame.token_source hcrit he)

end

/-- A sender finds a receiver of a zero channel asleep. -/
def handOver : List (Label Nat Nat) :=
  [.start 0 (.plain ⟨0, none⟩ (.blocking none)), .run 0 false [], .run 0 false [],
    .start 1 (.plain ⟨0, some 7⟩ (.blocking none)), .run 1 false [], .run 1 false []]

theorem accesses_are_current_handOver :
    ∃ x : (system fun _ => .zero : Lib.System (FineWorld Nat Nat) _).Exec,
      (x.state 6).access (fun _ => .zero) 1 = some (.store 0 .recv ⟨⟨0, 0⟩, some 0⟩ 0) ∧
        ∃ i < 6, Registered x i 6 0 .recv ⟨⟨0, 0⟩, some 0⟩ := by
  let x : (system fun _ => .zero : Lib.System (FineWorld Nat Nat) _).Exec :=
    Lib.System.Exec.ofReplay (fun _ _ _ hs => hs) _ rfl handOver (by decide +kernel)
  have ha : (x.state 6).access (fun _ => .zero) 1 =
      some (.store 0 .recv ⟨⟨0, 0⟩, some 0⟩ 0) := rfl
  exact ⟨x, ha, ((accesses_are_current x (j := 6) (by decide)).2.1 _ _ _ _ _ ha).2.2⟩

end FineWorld

end CrossbeamChannel
