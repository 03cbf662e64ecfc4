import CrossbeamChannel.World.Refusals
import CrossbeamChannel.World.Endless

/-!
# No timeout comes early

An operation returns `Timeout` only when it has a deadline, and the deadline has passed while the
operation was running: `World.timeouts_overdue`.

A buffered channel compares `Instant::now()` with the deadline in the loop itself (`array.rs` 409-413 and
470-474). At a zero channel `wait_until` does it, aborts the operation, and the body goes on with
`Aborted`; `Expired` follows it from the clock to the return.
-/

namespace CrossbeamChannel

variable {Tid T : Type} [DecidableEq Tid]

namespace Shared

variable {w : Shared Tid T} {t : Tid} {kind : Nat → Kind T} {pr pr' : Prog} {act : Act Tid T}
  {rep : Reply Tid T} {deadline : Option Nat}

/-- `wait_until` is about to give up. It comes to the clock only with a deadline. -/
def GivesUp (deadline : Option Nat) (pr : Prog) : Prop :=
  pr = .abort ∨ (pr = .clock ∧ deadline = none)

theorem givesUp_of_waitUntil (he : w.waitUntil t deadline pr = some (act, .more pr'))
    (hpr : GivesUp deadline pr') :
    GivesUp deadline pr ∨ ∃ d, deadline = some d ∧ d ≤ w.clock := by
  have looks : ∀ {next}, ¬ GivesUp deadline next →
      (Act.silent, w.orSelected t next) = (act, .more pr') → False := by
    intro next hnext heq
    have h := (Prod.mk.inj heq).2
    unfold orSelected at h
    split at h <;> cases h
    exact hnext hpr
  unfold waitUntil at he
  split at he
  · exact (looks (by simp [GivesUp]) (Option.some.inj he)).elim
  · refine (looks ?_ (Option.some.inj he)).elim
    split <;> simp [GivesUp]
  · refine (looks ?_ (Option.some.inj he)).elim
    cases deadline <;> simp [GivesUp]
  · -- The clock has been read.
    cases deadline with
    | none => exact .inl (.inr ⟨rfl, rfl⟩)
    | some d =>
      refine .inr ⟨d, rfl, ?_⟩
      have h := Option.some.inj he
      by_cases hlt : w.clock < d
      · simp only [Option.any_some, hlt, decide_true, if_true] at h
        cases h
        rcases hpr with hpr | ⟨hpr, -⟩ <;> cases hpr
      · exact Nat.le_of_not_lt hlt
  · cases he
    rcases hpr with hpr | ⟨hpr, -⟩ <;> cases hpr
  · cases he
  · cases he

/-- Until it returns it changes nothing. -/
theorem waitUntil_silent (he : w.waitUntil t deadline pr = some (act, .more pr')) :
    act = .silent := by
  unfold waitUntil at he
  split at he
  all_goals first
    | exact (Prod.mk.inj (Option.some.inj he)).1.symm
    | cases he

omit [DecidableEq Tid] in
/-- `recv` of a timer fails only when its deadline has passed. -/
theorem recvTimer_failed {c : Nat} (he : w.recvTimer kind c deadline pr = some (act, .ret .failed)) :
    ∃ d, deadline = some d ∧ d ≤ w.clock := by
  have passed : ∀ {next}, (w.orExpired deadline next : Reply Tid T) = .ret .failed →
      ∃ d, deadline = some d ∧ d ≤ w.clock := by
    intro next h
    unfold orExpired at h
    split at h
    · rename_i hany
      cases deadline with
      | none => cases hany
      | some d => exact ⟨d, rfl, of_decide_eq_true hany⟩
    · cases h
  unfold recvTimer at he
  split at he
  · have h := (Prod.mk.inj (Option.some.inj he)).2
    split at h <;> cases h
  · have h := (Prod.mk.inj (Option.some.inj he)).2
    split at h
    · cases h
    · exact passed h
  · have h := (Prod.mk.inj (Option.some.inj he)).2
    split at h <;> cases h
  · exact passed (Prod.mk.inj (Option.some.inj he)).2
  · exact passed (Prod.mk.inj (Option.some.inj he)).2
  · cases he
  · have h := Option.some.inj he
    split at h
    · cases h
    · exact passed (Prod.mk.inj h).2
  · cases he

theorem givesUp_of_aborted (he : w.waitUntil t deadline pr = some (act, .ret (.selected .aborted))) :
    GivesUp deadline pr ∨ (w.reg.cx t).select = .aborted := by
  have looks : ∀ {next}, (Act.silent, w.orSelected t next) = (act, .ret (.selected .aborted)) →
      (w.reg.cx t).select = .aborted :=
    fun heq => (orSelected_selected (Prod.mk.inj heq).2).1
  unfold waitUntil at he
  split at he
  · exact .inr (looks (Option.some.inj he))
  · exact .inr (looks (Option.some.inj he))
  · exact .inr (looks (Option.some.inj he))
  · cases he
  · cases he
  · exact .inl (.inl rfl)
  · cases he

end Shared

namespace Frame

variable {kind : Nat → Kind T} {f g : Frame Tid T} {pr pr' : Prog} {t : Tid} {order : List Handle}
  {r : Ret Tid T} {sel sel' : Selected Tid}

/-- The deadline of the operation. -/
def deadline : Frame Tid T → Option Nat
  | .plain _ mode _ | .zero _ mode _ | .timer _ mode => mode.deadline
  | _ => none

/-- The operation is going to time out. -/
def Expired (pr : Prog) (sel : Selected Tid) : Frame Tid T → Prop
  | .zero _ mode (.wait _) => Shared.GivesUp mode.deadline pr ∨ sel = .aborted
  | .zero _ _ (.withdraw _ sel') | .zero _ _ (.recover _ sel') => sel' ≠ .disconnected
  -- Nobody carries such an outcome this far.
  | .finish _ (.wakeOne out) | .finish _ (.setReady _ out) => ∃ msg, out = .timeout msg
  | _ => False

omit [DecidableEq Tid] in
theorem finishWith_not_expired {job : Job T} {tk : Token} :
    ¬ (finishWith kind job tk : Frame Tid T).Expired pr sel := by
  unfold finishWith
  repeat' split
  all_goals exact id

omit [DecidableEq Tid] in
theorem opFrame_not_expired (op : Op T) : ¬ (op.frame kind : Frame Tid T).Expired pr sel := by
  unfold Op.frame nowStart loopStart
  repeat' split
  all_goals exact id

omit [DecidableEq Tid] in
/-- Only while it waits a body goes by its context. -/
theorem Expired.anywhere {pr₀ : Prog} {sel₀ : Selected Tid} (h : f.Expired pr₀ sel₀)
    (hf : ∀ job mode p, f ≠ .zero job mode (.wait p)) : f.Expired pr sel := by
  unfold Expired at h ⊢
  split at h <;> first | exact absurd rfl (hf _ _ _) | exact h

/-- A body that gives up its packet goes on giving it up. -/
theorem expired_of_resume (hres : f.resume kind t order r = some g)
    (hf : ∀ job mode p, f ≠ .zero job mode (.wait p)) (hr : ∀ p, r ≠ .queued p)
    (hg : g.Expired pr' sel') : f.Expired pr sel := by
  cases f with
  | plain job mode st =>
    simp only [resume] at hres
    unfold plainResume plainFailed plainWaited at hres
    repeat' split at hres
    all_goals first
      | contradiction
      | (cases hres; first | exact absurd hg finishWith_not_expired | exact hg.elim)
  | zero job mode st =>
    cases st with
    | wait p => exact absurd rfl (hf _ _ _)
    | withdraw p sel₀ =>
      cases r with
      | removed e =>
        cases e with
        | none =>
          cases hres
          exact hg.elim
        | some e =>
          simp only [resume, zeroResume, unselected] at hres
          split at hres
          · cases hres
            exact hg
          · split at hres <;> cases hres <;> exact hg.elim
      | _ => cases hres
    | _ =>
      simp only [resume] at hres
      unfold zeroResume unselected at hres
      repeat' split at hres
      all_goals first
        | contradiction
        | (cases hres; first
            | exact absurd hg finishWith_not_expired | exact absurd rfl (hr _) | exact hg.elim)
  | timer c mode =>
    simp only [resume] at hres
    unfold timerResume at hres
    repeat' split at hres
    all_goals
      cases hres
      all_goals exact hg.elim
  | finish job st =>
    simp only [resume] at hres
    unfold finishResume completed at hres
    repeat' split at hres
    all_goals
      cases hres
      all_goals first
        | exact hg.elim
        | (obtain ⟨msg, hout⟩ := hg; cases hout)
  | close c d st =>
    simp only [resume] at hres
    unfold closeResume at hres
    repeat' split at hres
    all_goals
      cases hres
      all_goals exact hg.elim
  | select handles timeout st => cases select_leads hres <;> exact hg.elim
  | done _ | chosen _ _ | panicked => cases hres

/-- **It learns that from the clock.** -/
theorem Next.expired {w : Shared Tid T} {act : Act Tid T} (hn : Next kind w t f pr act g pr')
    (hg : g.Expired pr' ((w.apply t act).reg.cx t).select) :
    f.Expired pr (w.reg.cx t).select ∨ ∃ d, f.deadline = some d ∧ d ≤ w.clock := by
  by_cases hwait : ∃ job mode p, f = .zero job mode (.wait p)
  · obtain ⟨job, mode, p, rfl⟩ := hwait
    cases hn with
    | more he =>
      obtain rfl := Shared.waitUntil_silent he
      rcases hg with hg | hg
      · exact (Shared.givesUp_of_waitUntil he hg).imp .inl id
      · exact .inl (.inr hg)
    | ret he hr =>
      rename_i r
      cases r with
      | selected sel =>
        cases sel with
        | aborted =>
          rcases Shared.givesUp_of_aborted he with h | h
          · exact .inl (.inl h)
          · exact .inl (.inr h)
        | disconnected =>
          cases hr
          exact absurd rfl hg
        | waiting | operation _ =>
          cases hr
          exact hg.elim
      | _ => cases hr
  · have hwait : ∀ job mode p, f ≠ .zero job mode (.wait p) :=
      fun job mode p h => hwait ⟨job, mode, p, h⟩
    cases hn with
    | more he => exact .inl (hg.anywhere hwait)
    -- Elsewhere the clock is read by the buffered flavors only, which return at once.
    | ret he hr =>
      rename_i r
      left
      by_cases hpair : ∃ p, r = .queued p
      · -- With its packet in the queue it begins to wait.
        exfalso
        obtain ⟨p, rfl⟩ := hpair
        obtain ⟨c, d, v, rfl, -⟩ := queue_of_resume he hr
        cases f with
        | zero job mode st =>
          cases st <;> cases hr
          rcases hg with (hg | ⟨hg, -⟩) | hg
          · cases hg
          · cases hg
          · simp [Shared.apply, Registry.register, Registry.reset, Context.fresh] at hg
        | select handles timeout st => cases select_leads hr <;> exact hg.elim
        | plain job mode st => cases st <;> cases hr
        | finish job st => cases st <;> cases hr
        | close c d st => cases st <;> cases hr
        | timer c mode => cases hr
        | done _ | chosen _ _ | panicked => cases hr
      · exact expired_of_resume hr hwait (fun p h => hpair ⟨p, h⟩) hg

/-- **Who times out** was going to, or reads the clock now. -/
theorem expired_of_timeout {w : Shared Tid T} {act : Act Tid T} {spurious : Bool} {msg : Option T}
    (he : w.exec t kind f.call pr spurious = some (act, .ret r))
    (hres : f.resume kind t order r = some (.done (.timeout msg))) :
    f.Expired pr (w.reg.cx t).select ∨ ∃ d, f.deadline = some d ∧ d ≤ w.clock := by
  cases f with
  | plain job mode st =>
    cases st with
    | deadline woken =>
      cases r with
      | nat now =>
        cases he
        simp only [resume, plainResume] at hres
        split at hres
        · rename_i hany
          cases hd : mode.deadline with
          | none =>
            rw [hd] at hany
            cases hany
          | some d =>
            rw [hd] at hany
            exact .inr ⟨d, hd, of_decide_eq_true hany⟩
        · cases hres
      | _ => cases hres
    | _ =>
      simp only [resume] at hres
      unfold plainResume plainFailed plainWaited at hres
      repeat' split at hres
      all_goals first
        | contradiction
        | exact absurd trivial (finishWith_not_fails (Option.some.inj hres))
        | cases hres
  | zero job mode st =>
    have told : ∀ {sel : Selected Tid} {m : Option T},
        (unselected sel m : Frame Tid T) = .done (.timeout msg) → sel ≠ .disconnected := by
      rintro sel m h rfl
      cases h
    cases st with
    | withdraw p sel =>
      cases r with
      | removed e =>
        cases e with
        | none => cases hres
        | some e =>
          have h := Option.some.inj hres
          split at h
          · cases h
          · exact .inl (told h)
      | _ => cases hres
    | recover p sel =>
      cases r with
      | msg m =>
        cases m with
        | none => cases hres
        | some m => exact .inl (told (Option.some.inj hres))
      | _ => cases hres
    | _ =>
      simp only [resume] at hres
      unfold zeroResume unselected at hres
      repeat' split at hres
      all_goals first
        | contradiction
        | exact absurd trivial (finishWith_not_fails (Option.some.inj hres))
        | cases hres
  | timer c mode =>
    cases r with
    | failed =>
      cases mode with
      | nonblocking => cases hres
      | blocking deadline => exact .inr (Shared.recvTimer_failed he)
    | token tk => cases tk <;> cases hres
    | _ => cases hres
  | finish job st =>
    simp only [resume] at hres
    unfold finishResume completed at hres
    repeat' split at hres
    all_goals
      cases hres
      all_goals exact .inl ⟨_, rfl⟩
  | close c d st =>
    simp only [resume] at hres
    unfold closeResume at hres
    repeat' split at hres
    all_goals cases hres
  | select handles timeout st => cases select_leads hres
  | done _ | chosen _ _ | panicked => cases hres

end Frame

/-- It returns `Timeout`. -/
def Event.timesOut : Event Tid T → Option (Ident Tid × Option T)
  | .over a (.timeout msg) => some (a, msg)
  | _ => none

namespace World

variable {kind : Nat → Kind T} {w w' : World Tid T} {t : Tid} {act : Act Tid T} {th : Thread Tid T}
  {count : Nat → Side → Nat} {a : Ident Tid}

/-- The deadline of the thread's operation has passed. -/
def Overdue (w : World Tid T) (t : Tid) : Prop :=
  ∃ d, (w.thread t).frame.deadline = some d ∧ d ≤ w.shared.clock

/-- The operation is running, and is going to time out. -/
def Expires (w : World Tid T) (a : Ident Tid) : Prop :=
  w.Running a ∧
    (w.thread a.thread).frame.Expired (w.thread a.thread).prog (w.shared.reg.cx a.thread).select

theorem Expires.before (h : w'.Expires a) (hx : Stepped kind w w' t act th count) :
    w.Expires a ∨ (w.Overdue a.thread ∧ w.Running a) := by
  obtain ⟨⟨hop, hrunning⟩, hexp⟩ := h
  by_cases hu : a.thread = t
  · subst hu
    have hturn := hx.turn
    have hops := hx.after.ops
    rw [hx.after.frame, hx.after.prog, hx.after.shared] at hexp
    cases hturn with
    | next hn =>
      have hrun : w.Running a := by
        refine ⟨hops.symm.trans hop, ?_⟩
        cases hended : (w.thread a.thread).frame.ended with
        | false => rfl
        | true => exact absurd hn (not_next_of_ended hended)
      rcases hn.expired hexp with hexp | hover
      · exact .inl ⟨hrun, hexp⟩
      · exact .inr ⟨hover, hrun⟩
    | start hover huses => exact absurd hexp (Frame.opFrame_not_expired _)
    | complete hfr hside => exact absurd hexp Frame.finishWith_not_expired
    | drop hover hpos hfree =>
      exfalso
      dsimp only at hexp
      unfold lastDropped at hexp
      repeat' split at hexp
      all_goals exact hexp
  · rw [Running, hx.after.others hu] at *
    refine .inl ⟨⟨hop, hrunning⟩, ?_⟩
    rw [hx.after.shared] at hexp
    rcases (Shared.cx_others hu :
      (w.shared.apply t act).reg.cx a.thread = w.shared.reg.cx a.thread ∨ _) with hcx | ⟨-, hcx⟩
    · rwa [hcx] at hexp
    · -- Another thread selects the operation or disconnects its channel: it never aborts it.
      have hsel : ((w.shared.apply t act).reg.cx a.thread).select ≠ .aborted := by
        rcases hcx with hcx | ⟨c, d, e, -, -, -, hcx⟩ <;> rw [hcx] <;> simp
      by_cases hwait : ∃ job mode p, (w.thread a.thread).frame = .zero job mode (.wait p)
      · obtain ⟨job, mode, p, hwait⟩ := hwait
        rw [hwait] at hexp ⊢
        exact .inl (hexp.resolve_right hsel)
      · exact hexp.anywhere fun job mode p h => hwait ⟨job, mode, p, h⟩

/-- Who returns that it has timed out was going to, or reads the clock now. -/
theorem expires_of_returns (hx : Stepped kind w w' t act th count) (ht : a.thread = t)
    (hop : (w'.thread t).ops = a.op) {msg : Option T}
    (hdone : (w'.thread t).frame = .done (.timeout msg)) :
    w.Expires a ∨ (w.Overdue a.thread ∧ w.Running a) := by
  subst ht
  have hturn := hx.turn
  have hops := hx.after.ops
  rw [hx.after.frame] at hdone
  cases hturn with
  | next hn =>
    have hrun : w.Running a := by
      refine ⟨hops.symm.trans hop, ?_⟩
      cases hended : (w.thread a.thread).frame.ended with
      | false => rfl
      | true => exact absurd hn (not_next_of_ended hended)
    dsimp only at hdone
    have hcall := call_of_next hn
    generalize hfr : (w.thread a.thread).frame = f at hn hcall
    cases hn with
    | more he =>
      rw [hdone] at hcall
      exact absurd rfl hcall
    | ret he hres =>
      subst hfr hdone
      rcases Frame.expired_of_timeout he hres with hexp | hover
      · exact .inl ⟨hrun, hexp⟩
      · exact .inr ⟨hover, hrun⟩
  | start hover huses =>
    dsimp only at hdone
    unfold Op.frame Frame.nowStart Frame.loopStart at hdone
    repeat' split at hdone
    all_goals cases hdone
  | complete hf hside => exact absurd trivial (Frame.finishWith_not_fails hdone)
  | drop hover hpos hfree =>
    dsimp only at hdone
    unfold lastDropped at hdone
    repeat' split at hdone
    all_goals cases hdone

/-- An operation that has returned had returned before, or does so now. -/
theorem returns_step {x y : World Tid T × List (List (Event Tid T))} {l : Label Tid T}
    (hr : (history kind).Reachable x) (hs : (history kind).step x l y) {out : Outcome T}
    (hover : .over a out ∈ y.2.flatten) :
    .over a out ∈ x.2.flatten ∨
      ((y.1.thread a.thread).ops = a.op ∧ (y.1.thread a.thread).frame = .done out ∧
        ∃ act th count, Stepped kind x.1 y.1 a.thread act th count) := by
  obtain ⟨D, hc⟩ := chronicle_of_reachable hr
  rw [flatten_of_step hs] at hover
  rcases hc.page hr.forget hs.1 with ⟨t, act, th, count, D'', ds, ts, hp, hes⟩ | ⟨hno, -⟩
  · rw [hes] at hover
    rcases List.mem_append.mp hover with hold | hnew
    · exact .inl hold
    · obtain ⟨rfl, hdone⟩ := (hp.tells.overs a _).mp hnew
      exact .inr ⟨rfl, hdone, act, th, count, hp.stepped⟩
  · rw [hno, List.append_nil] at hover
    exact .inl hover

/-- **No timeout comes early**: the deadline has passed while the operation was running. -/
theorem timeouts_overdue
    (x : (history kind : Lib.System (World Tid T × List (List (Event Tid T))) _).Exec) {j : Nat}
    (hj : j ≤ x.len) {msg : Option T} (hover : .over a (.timeout msg) ∈ (x.state j).2.flatten) :
    ∃ i ≤ j, (x.state i).1.Running a ∧ (x.state i).1.Overdue a.thread := by
  induction j with
  | zero =>
    rw [show (x.state 0).2 = [] from x.start.2] at hover
    cases hover
  | succ j ih =>
    have hlt : j < x.len := hj
    obtain ⟨l, hs⟩ := x.next j hlt
    rcases returns_step (x.reachable hlt.le) hs hover with hold | ⟨hop, hdone, act, th, count, hx⟩
    · obtain ⟨i, hi, hfound⟩ := ih hlt.le hold
      exact ⟨i, Nat.le_succ_of_le hi, hfound⟩
    rcases expires_of_returns hx rfl hop hdone with hexp | ⟨hover, hrun⟩
    · obtain ⟨i, hi, hfound⟩ := known_since (P := fun w => w.Overdue a.thread)
        (Q := fun w => w.Expires a) (fun _ h => h.1) (fun hx h => h.before hx) (fun _ _ _ h => h)
        hlt.le hexp
      exact ⟨i, Nat.le_succ_of_le hi, hfound⟩
    · exact ⟨j, Nat.le_succ j, hrun, hover⟩

omit [DecidableEq Tid] in
theorem mem_of_timesOut {es : List (Event Tid T)} {msg : Option T}
    (h : es.filterMap Event.timesOut = [(a, msg)]) : .over a (.timeout msg) ∈ es := by
  obtain ⟨e, he, ht⟩ := List.mem_filterMap.mp (h ▸ List.mem_singleton_self (a, msg))
  unfold Event.timesOut at ht
  split at ht
  · obtain ⟨rfl, rfl⟩ := Prod.mk.inj (Option.some.inj ht)
    exact he
  · cases ht

/-- Thread 0 waits on a zero channel until 3. -/
def waitsInVain : List (Label Nat Nat) :=
  .start 0 (.plain ⟨0, some 7⟩ (.blocking (some 3))) :: List.replicate 12 (.run 0 false []) ++
    .advance 4 :: List.replicate 5 (.run 0 false [])

theorem timeouts_overdue_waitsInVain :
    ∃ x : (history fun _ => .zero :
        Lib.System (World Nat Nat × List (List (Event Nat Nat))) _).Exec,
      .over ⟨0, 1⟩ (.timeout (some 7)) ∈ (x.state 19).2.flatten ∧
        ∃ i ≤ 19, (x.state i).1.Running ⟨0, 1⟩ ∧ (x.state i).1.Overdue 0 := by
  let x : (history fun _ => .zero :
      Lib.System (World Nat Nat × List (List (Event Nat Nat))) _).Exec :=
    Lib.System.Exec.ofReplay (fun _ _ _ h => Lib.System.recorded_step (fun _ _ _ hs => hs) h)
      (World.init _, []) ⟨rfl, rfl⟩ waitsInVain (by decide +kernel)
  have hlen : 19 ≤ x.len := by decide +kernel
  have hmem : .over ⟨0, 1⟩ (.timeout (some 7)) ∈ (x.state 19).2.flatten :=
    mem_of_timesOut (by decide +kernel)
  exact ⟨x, hmem, timeouts_overdue x hlen hmem⟩

end World

end CrossbeamChannel
