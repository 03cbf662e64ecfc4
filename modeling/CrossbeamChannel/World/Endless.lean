import CrossbeamChannel.World.Pairing

/-!
# Operations without a deadline

A `send` or `recv` without a deadline does not time out: its `wait_until` gives up at no point, and
no other thread ever aborts the operation of this one: `World.no_timeout`. That is why `Sender::send`
and `try_send` of the list flavor may call `unreachable!` for a timeout.

`Sender::send` maps the result of `send(msg, None)` and has `Timeout(_) => unreachable!()` there
(`channel.rs` 421, and `list.rs` 373 for `try_send`). The only source of the answer is a look at the
clock, which `wait_until` and the loops of the buffered flavors take with a deadline only.
-/

namespace CrossbeamChannel

variable {Tid T : Type} [DecidableEq Tid]

namespace Shared

variable {w : Shared Tid T} {t : Tid} {kind : Nat → Kind T} {pr : Prog} {act : Act Tid T}
  {rep : Reply Tid T}

/-- `wait_until` without a deadline never gives up. -/
theorem waitUntil_endless (hclock : pr ≠ .clock) (habort : pr ≠ .abort)
    (he : w.waitUntil t none pr = some (act, rep)) :
    act = .silent ∧ (∀ pr', rep = .more pr' → pr' ≠ .clock ∧ pr' ≠ .abort) ∧
      ∀ sel, rep = .ret (.selected sel) → (w.reg.cx t).select = sel := by
  have looks : ∀ {pr'}, pr' ≠ .clock ∧ pr' ≠ .abort → (Act.silent, w.orSelected t pr') = (act, rep) →
      act = .silent ∧ (∀ pr', rep = .more pr' → pr' ≠ .clock ∧ pr' ≠ .abort) ∧
        ∀ sel, rep = .ret (.selected sel) → (w.reg.cx t).select = sel := by
    intro pr' hpr heq
    obtain ⟨rfl, rfl⟩ := Prod.mk.inj heq
    refine ⟨rfl, fun pr'' h => ?_, fun sel h => (orSelected_selected h).1⟩
    unfold orSelected at h
    split at h <;> cases h
    exact hpr
  unfold waitUntil at he
  split at he
  · exact looks (by simp) (Option.some.inj he)
  · refine looks ?_ (Option.some.inj he)
    split <;> simp
  · exact looks (by simp) (Option.some.inj he)
  · exact absurd rfl hclock
  · obtain ⟨rfl, rfl⟩ := Prod.mk.inj (Option.some.inj he)
    refine ⟨rfl, fun pr' h => ?_, fun sel h => by cases h⟩
    cases h
    simp
  · exact absurd rfl habort
  · cases he

omit [DecidableEq Tid] in
@[simp] theorem orExpired_none (pr : Prog) : (w.orExpired none pr : Reply Tid T) = .more pr := by
  simp [orExpired]

omit [DecidableEq Tid] in
/-- `recv` of a timer without a deadline never gives up. -/
theorem recvTimer_endless {c : Nat} : w.recvTimer kind c none pr ≠ some (act, .ret .failed) := by
  unfold recvTimer
  simp only [orExpired_none]
  repeat' split
  all_goals simp

end Shared

namespace Frame

variable {kind : Nat → Kind T} {f g : Frame Tid T} {pr pr' : Prog} {t : Tid} {order : List Handle}
  {r : Ret Tid T} {sel : Selected Tid}

/-- The body of a `send` or `recv` without a deadline, at a place it can come to. -/
def Endless (pr : Prog) (sel : Selected Tid) : Frame Tid T → Prop
  | .zero _ mode (.wait _) =>
      mode.deadline = none ∧ pr ≠ .clock ∧ pr ≠ .abort ∧ sel ≠ .aborted
  | .zero _ mode (.withdraw _ sel') | .zero _ mode (.recover _ sel') =>
      mode.deadline = none ∧ sel' = .disconnected
  | .plain _ mode _ | .zero _ mode _ | .timer _ mode => mode.deadline = none
  | .finish _ (.wakeOne out) | .finish _ (.setReady _ out) | .done out => ∀ msg, out ≠ .timeout msg
  | .finish _ _ | .panicked => True
  | .select _ _ _ | .chosen _ _ | .close _ _ _ => False

omit [DecidableEq Tid] in
theorem finishWith_endless (job : Job T) (tk : Token) :
    (finishWith kind job tk : Frame Tid T).Endless pr sel := by
  unfold finishWith
  repeat' split
  all_goals first | trivial | (intro msg h; cases h)

omit [DecidableEq Tid] in
theorem completed_endless {job : Job T} {a : Answer T} (h : completed kind job a = some g) :
    g.Endless pr sel := by
  unfold completed at h
  repeat' split at h
  all_goals cases h
  all_goals intro msg h; cases h

omit [DecidableEq Tid] in
/-- A body that is not waiting for an answer about its packet does not look at its context. -/
theorem Endless.anywhere {pr₀ : Prog} {sel₀ : Selected Tid} (h : f.Endless pr₀ sel₀)
    (hf : ∀ job mode p, f ≠ .zero job mode (.wait p)) : f.Endless pr sel := by
  unfold Endless at h ⊢
  split at h <;> first | exact absurd rfl (hf _ _ _) | exact h

theorem Next.endless {w : Shared Tid T} {act : Act Tid T} (hn : Next kind w t f pr act g pr')
    (hf : f.Endless pr (w.reg.cx t).select) : g.Endless pr' ((w.apply t act).reg.cx t).select := by
  cases f with
  | plain job mode st =>
    have hmode : mode.deadline = none := hf
    cases hn with
    | more he => exact hmode
    | ret he hr =>
      simp only [resume] at hr
      unfold plainResume plainFailed plainWaited at hr
      simp only [hmode] at hr
      repeat' split at hr
      all_goals first
        | contradiction
        | (cases hr
           first
             | exact finishWith_endless _ _
             | exact hmode
             | trivial
             | (intro msg h; cases h))
  | zero job mode st =>
    cases st with
    | pair =>
      have hmode : mode.deadline = none := hf
      cases hn with
      | more he => exact hmode
      | ret he hr =>
        rename_i r
        cases r with
        | token tk =>
          cases hr
          exact finishWith_endless _ _
        | failed =>
          cases hr
          intro msg h
          cases h
        | queued p =>
          obtain ⟨c, d, v, rfl, -⟩ := queue_of_resume he hr
          cases hr
          refine ⟨hmode, by simp, by simp, ?_⟩
          simp [Shared.apply, Registry.register, Registry.reset, Context.fresh]
        | _ => cases hr
    | wait p =>
      -- Without a deadline `wait_until` goes round between `check` and `park`.
      obtain ⟨hmode, hclock, habort, hsel⟩ := hf
      have waits : ∀ {rep spurious}, w.exec t kind (.waitUntil mode.deadline) pr spurious =
          some (act, rep) → w.waitUntil t none pr = some (act, rep) :=
        fun he => hmode ▸ he
      cases hn with
      | more he =>
        obtain ⟨rfl, hpr, -⟩ := Shared.waitUntil_endless hclock habort (waits he)
        exact ⟨hmode, (hpr _ rfl).1, (hpr _ rfl).2, hsel⟩
      | ret he hr =>
        rename_i r
        cases r with
        | selected sel =>
          rw [(Shared.waitUntil_endless hclock habort (waits he)).2.2 sel rfl] at hsel
          cases sel with
          | aborted => exact absurd rfl hsel
          | disconnected =>
            cases hr
            exact ⟨hmode, rfl⟩
          | waiting =>
            cases hr
            trivial
          | operation op =>
            cases hr
            exact hmode
        | _ => cases hr
    | withdraw p sel =>
      obtain ⟨hmode, rfl⟩ := hf
      cases hn with
      | more he => exact ⟨hmode, rfl⟩
      | ret he hr =>
        rename_i r
        cases r with
        | removed e =>
          cases e with
          | none =>
            cases hr
            trivial
          | some e =>
            simp only [resume, zeroResume, unselected] at hr
            split at hr <;> cases hr
            · exact ⟨hmode, rfl⟩
            · intro msg h
              cases h
        | _ => cases hr
    | recover p sel =>
      obtain ⟨hmode, rfl⟩ := hf
      cases hn with
      | more he => exact ⟨hmode, rfl⟩
      | ret he hr =>
        rename_i r
        cases r with
        | msg m =>
          cases m with
          | none =>
            cases hr
            trivial
          | some m =>
            cases hr
            intro msg h
            cases h
        | _ => cases hr
    | waitReady p | takeMsg p =>
      have hmode : mode.deadline = none := hf
      cases hn with
      | more he => exact hmode
      | ret he hr =>
        simp only [resume] at hr
        unfold zeroResume at hr
        repeat' split at hr
        all_goals first
          | contradiction
          | (cases hr; first | trivial | exact hmode | (intro msg h; cases h))
  | timer c mode =>
    have hmode : mode.deadline = none := hf
    cases hn with
    | more he => exact hmode
    | ret he hr =>
      rename_i r
      cases r with
      | token tk =>
        cases tk <;> cases hr
        intro msg h
        cases h
      | failed =>
        cases mode with
        | nonblocking =>
          cases hr
          intro msg h
          cases h
        | blocking deadline =>
          obtain rfl : deadline = none := hmode
          exact absurd he Shared.recvTimer_endless
      | _ => cases hr
  | finish job st =>
    cases hn with
    | more he =>
      exact hf.anywhere fun _ _ _ h => by cases h
    | ret he hr =>
      simp only [resume] at hr
      unfold finishResume at hr
      split at hr
      all_goals first
        | contradiction
        | exact completed_endless hr
        | (cases hr; first | trivial | exact hf | (intro msg h; cases h))
  | panicked =>
    obtain ⟨spurious, rep, he, -⟩ := hn.exec
    cases he
  | done out =>
    obtain ⟨spurious, rep, he, -⟩ := hn.exec
    cases he
  | _ => exact hf.elim

end Frame

namespace World

variable {kind : Nat → Kind T} {w w' : World Tid T} {t : Tid}

/-- One step of an operation without a deadline, or of any other thread. -/
theorem endless_step {l : Label Tid T} (hs : w.step kind l = some w')
    (hops : (w'.thread t).ops = (w.thread t).ops)
    (hf : (w.thread t).frame.Endless (w.thread t).prog (w.shared.reg.cx t).select) :
    (w'.thread t).frame.Endless (w'.thread t).prog (w'.shared.reg.cx t).select := by
  rcases step_cases hs with ⟨u, act, th, count, ht, ha⟩ | ⟨c, d, -, rfl⟩ | ⟨now, -, rfl⟩
  · by_cases hu : t = u
    · subst hu
      rw [ha.ops] at hops
      rw [ha.frame, ha.prog, ha.shared]
      cases ht with
      | next hn => exact hn.endless hf
      | start _ _ => exact absurd hops (Nat.succ_ne_self _)
      | complete hframe _ =>
        rw [hframe] at hf
        exact hf.elim
      | drop _ _ _ => exact absurd hops (Nat.succ_ne_self _)
    · rw [ha.others hu, ha.shared]
      rcases (Shared.cx_others hu : (w.shared.apply u act).reg.cx t = w.shared.reg.cx t ∨ _) with
        hcx | ⟨-, hcx⟩
      · rw [hcx]
        exact hf
      · -- Another thread selects the operation or disconnects its channel: it never aborts it.
        have hsel : ((w.shared.apply u act).reg.cx t).select ≠ .aborted := by
          rcases hcx with hcx | ⟨c, d, e, -, -, -, hcx⟩ <;> rw [hcx] <;> simp
        by_cases hwait : ∃ job mode p, (w.thread t).frame = .zero job mode (.wait p)
        · obtain ⟨job, mode, p, hwait⟩ := hwait
          rw [hwait] at hf ⊢
          exact ⟨hf.1, hf.2.1, hf.2.2.1, hsel⟩
        · exact hf.anywhere fun job mode p h => hwait ⟨job, mode, p, h⟩
  · exact hf
  · exact hf

omit [DecidableEq Tid] in
theorem opFrame_endless {mode : Mode} (hmode : mode.deadline = none) (job : Job T) (pr : Prog)
    (sel : Selected Tid) : ((Op.plain job mode).frame kind : Frame Tid T).Endless pr sel := by
  simp only [Op.frame]
  split <;> exact hmode

/-- **A `send` or `recv` without a deadline never times out.** -/
theorem no_timeout {x : (system kind : Lib.System (World Tid T) _).Exec} {i j : Nat} {job : Job T}
    {mode : Mode} (hmode : mode.deadline = none)
    (hstart : (x.state i).step kind (.start t (.plain job mode)) = some (x.state (i + 1)))
    (hij : i < j) (hj : j ≤ x.len)
    (hops : ((x.state j).thread t).ops = ((x.state (i + 1)).thread t).ops) (msg : Option T) :
    ((x.state j).thread t).frame ≠ .done (.timeout msg) := by
  have hbegin : ((x.state (i + 1)).thread t).frame = (Op.plain job mode).frame kind := by
    obtain ⟨hcond, heq⟩ := Option.ite_none_right_eq_some.mp hstart
    rw [← Option.some.inj heq, (begin_after _ hcond.1 _ _ _).frame]
  have hend := along (P := fun m => ((x.state m).thread t).frame.Endless ((x.state m).thread t).prog
      ((x.state m).shared.reg.cx t).select) hij hj hops
    (by rw [hbegin]; exact opFrame_endless hmode _ _ _) fun m _ hm hsame hP => by
      obtain ⟨l, hl⟩ := x.next m (by omega)
      exact endless_step hl hsame hP
  intro hf
  rw [hf] at hend
  exact hend msg rfl

end World

end CrossbeamChannel
