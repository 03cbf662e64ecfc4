import CrossbeamChannel.World.Timers

/-!
# The after flavor: one message, not before its time

The flag `received` is swapped by whoever is about to receive the message, after a look at
the clock. So there is at most one message, and it is never early. A `recv` that waits for
it and loses it to another clone has left its deadline behind: it goes to sleep for good.

`after.rs` 63-101: behind the loop the deadline is not looked at any more, and who loses the `swap` calls
`sleep_until(None)`. `CanReturn` says at which places of `recv` that has not been settled against the
thread, `Raced` in which step it is.
-/

namespace CrossbeamChannel

variable {Tid T : Type} [DecidableEq Tid]

namespace Shared

variable {w : Shared Tid T} {t : Tid} {kind : Nat → Kind T} {call : Call T} {pr pr' : Prog}
  {act : Act Tid T} {rep : Reply Tid T} {spurious : Bool} {c deliveryTime : Nat}

/-- Nobody gets to the swap of the flag before the delivery time. -/
theorem exec_swap (h : w.exec t kind call pr spurious = some (act, .more .swap))
    (hc : call.source = some c) (hk : kind c = .after deliveryTime) : deliveryTime ≤ w.clock := by
  have start : ∀ {d}, w.start t kind c d pr spurious = some (act, .more .swap) →
      deliveryTime ≤ w.clock := by
    intro d h
    simp only [Shared.start, hk, tryAfter] at h
    repeat' split at h
    all_goals cases h
    exact Nat.le_of_not_lt ‹_›
  cases call with
  | start c' d =>
    cases hc
    exact start h
  | retry c' d =>
    cases hc
    simp only [exec, retry, hk] at h
    exact start h
  | accept c' d =>
    cases hc
    simp only [exec, accept, hk] at h
    exact start h
  | recvTimer c' deadline =>
    cases hc
    simp only [exec, recvTimer, hk, orExpired] at h
    cases pr <;> dsimp only at h <;> repeat' split at h
    all_goals cases h
    assumption
  | _ => cases hc

/-- **One step of `recv` with a deadline** on an `after` channel. -/
theorem exec_recvAfter {d : Nat} (hk : kind c = .after deliveryTime)
    (h : w.exec t kind (.recvTimer c (some d)) pr spurious = some (act, rep)) :
    (pr = .start ∧ act = .silent ∧ rep = .more (if w.received c then .sleep else .now)) ∨
    (pr = .now ∧ act = .silent ∧ ((deliveryTime ≤ w.clock ∧ rep = .more .swap) ∨
      (w.clock < deliveryTime ∧ (rep = .more .now ∨ (d ≤ w.clock ∧ rep = .ret .failed))))) ∨
    (pr = .swap ∧ act = .setReceived c ∧ ((w.received c = true ∧ rep = .more .forever) ∨
      (w.received c = false ∧ rep = .ret (.token (.instant deliveryTime))))) ∨
    (pr = .sleep ∧ act = .silent ∧ ((d ≤ w.clock ∧ rep = .ret .failed) ∨ rep = .more .sleep)) ∨
    (pr = .forever ∧ act = .silent ∧ rep = .more .forever) := by
  have expired : ∀ pr', (d ≤ w.clock ∧ (w.orExpired (some d) pr' : Reply Tid T) = .ret .failed) ∨
      (w.orExpired (some d) pr' : Reply Tid T) = .more pr' := by
    intro pr'
    unfold orExpired
    split
    · exact .inl ⟨of_decide_eq_true ‹_›, rfl⟩
    · exact .inr rfl
  simp only [exec, recvTimer, hk] at h
  cases pr <;> cases h
  · refine .inl ⟨rfl, rfl, ?_⟩
    split <;> rfl
  · refine .inr (.inl ⟨rfl, rfl, ?_⟩)
    split
    · exact .inl ⟨‹_›, rfl⟩
    · exact .inr ⟨Nat.lt_of_not_le ‹_›, (expired .now).symm⟩
  · refine .inr (.inr (.inl ⟨rfl, rfl, ?_⟩))
    cases w.received c with
    | true => exact .inl ⟨rfl, rfl⟩
    | false => exact .inr ⟨rfl, rfl⟩
  · exact .inr (.inr (.inr (.inl ⟨rfl, rfl, expired .sleep⟩)))
  · exact .inr (.inr (.inr (.inr ⟨rfl, rfl, rfl⟩)))

end Shared

omit [DecidableEq Tid] in
theorem Frame.Stays.of_timer {f g : Frame Tid T} {c : Nat} {mode : Mode} (h : Stays f g)
    (hg : g = .timer c mode) : f = .timer c mode := by
  subst hg
  cases h
  rfl

namespace World

variable {kind : Nat → Kind T} {w w' : World Tid T} {c deliveryTime : Nat}

/-- Whoever is about to swap the flag has seen the clock at the delivery time. -/
def OnTime (kind : Nat → Kind T) (w : World Tid T) : Prop :=
  ∀ t c deliveryTime, (w.thread t).frame.call.source = some c → kind c = .after deliveryTime →
    (w.thread t).prog = .swap → deliveryTime ≤ w.shared.clock

theorem onTime_of_reachable (h : (system kind).Reachable w) : OnTime kind w := by
  refine h.invariant ?_ fun w l w' hr hold hstep => ?_
  · rintro _ rfl t c deliveryTime hs
    cases hs
  · intro u c deliveryTime hs hk hp
    rcases step_cases hstep with ⟨t, act, th, count, ht, ha⟩ | ⟨c', d, -, rfl⟩ | ⟨now, hnow, rfl⟩
    · have hclock : w.shared.clock ≤ w'.shared.clock := by
        rcases step_timed hstep c with ⟨-, hidle⟩ | ⟨t, spurious, order, m, rfl, -, htakes⟩
        · exact hidle.clock
        · exact htakes.clock.ge
      by_cases hu : u = t
      · subst hu
        rw [ha.frame] at hs
        rw [ha.prog] at hp
        cases ht with
        | next hn =>
          obtain ⟨spurious, rep, he, hmore, hret⟩ := hn.exec
          cases rep with
          | more pr =>
            obtain ⟨hf, rfl⟩ := hmore _ rfl
            dsimp only at hs hp
            subst hp
            rw [hf] at hs
            exact (Shared.exec_swap he hs hk).trans hclock
          | ret r =>
            rw [(hret _ rfl).1] at hp
            cases hp
        | start _ _ => cases hp
        | complete _ _ => cases hp
        | drop _ _ _ => cases hp
      · rw [ha.others hu] at hs hp
        exact (hold u c deliveryTime hs hk hp).trans hclock
    · exact hold u c deliveryTime hs hk hp
    · exact (hold u c deliveryTime hs hk hp).trans hnow

/-- The laws of what is received from an `after` channel. -/
structure AfterLaws (deliveryTime : Nat) (log : List (Nat × Nat)) : Prop where
  once : log.length ≤ 1
  delivery : ∀ x ∈ log, x.1 = deliveryTime ∧ deliveryTime ≤ x.2

theorem afterLaws_of_reachable (hk : kind c = .after deliveryTime)
    {x : World Tid T × List (Nat × Nat)} (h : (receipts kind c).Reachable x) :
    AfterLaws deliveryTime x.2 ∧ (x.1.shared.received c = false → x.2 = []) := by
  refine h.invariant
    (P := fun x => AfterLaws deliveryTime x.2 ∧ (x.1.shared.received c = false → x.2 = [])) ?_
    fun x l y hr hinv hstep => ?_
  · rintro ⟨w, log⟩ ⟨rfl, rfl⟩
    exact ⟨⟨Nat.zero_le _, by simp⟩, fun _ => rfl⟩
  · obtain ⟨w, log⟩ := x
    obtain ⟨w', log'⟩ := y
    obtain ⟨hs, hlog⟩ := hstep
    dsimp only at hlog hs
    subst hlog
    rcases step_timed hs c with ⟨hnone, hidle⟩ | ⟨t, spurious, order, m, rfl, hsome, htakes⟩
    · simp only [hnone, Option.toList_none, List.append_nil, hidle.received]
      exact hinv
    · simp only [hsome, Option.toList_some]
      rcases htakes.taken with ⟨firstTick, duration, hk', -⟩ | ⟨hk', hpr, hfree, htaken⟩
      · rw [hk] at hk'
        cases hk'
      · cases hk.symm.trans hk'
        have hlog : log = [] := hinv.2 hfree
        subst hlog
        refine ⟨⟨le_refl 1, fun x hx => ?_⟩, fun h => ?_⟩
        · obtain rfl := List.mem_singleton.mp hx
          exact ⟨rfl, onTime_of_reachable hr.forget t c _ htakes.source hk hpr⟩
        · rw [htaken] at h
          cases h

/-! ## `recv` with a deadline -/

/-- Thread `t` is in `recv` with this deadline. -/
def Receiving (w : World Tid T) (t : Tid) (c d : Nat) : Prop :=
  (w.thread t).frame = .timer c (.blocking (some d))

/-- A turn of a thread that is in `recv` is a step of it. -/
theorem Receiving.turn {t : Tid} {d : Nat} (hr : w.Receiving t c d) {act : Act Tid T}
    {th : Thread Tid T} {count : Nat → Side → Nat} (ht : Turn kind w t act th count) :
    ∃ spurious rep,
      w.shared.exec t kind (.recvTimer c (some d)) (w.thread t).prog spurious = some (act, rep) ∧
      (∀ pr, rep = .more pr → th.frame = .timer c (.blocking (some d)) ∧ th.prog = pr) ∧
      ∀ r, rep = .ret r → Frame.timerResume (.blocking (some d)) r = some th.frame := by
  unfold Receiving at hr
  cases ht with
  | next hn =>
    obtain ⟨spurious, rep, he, hmore, hret⟩ := hn.exec
    rw [hr] at he hmore hret
    refine ⟨spurious, rep, he, hmore, fun r hrep => ?_⟩
    obtain ⟨-, order, hres⟩ := hret r hrep
    exact hres
  | start ho _ | drop ho _ _ =>
    rw [hr] at ho
    cases ho
  | complete hf _ =>
    rw [hr] at hf
    cases hf

/-- A `recv` with a deadline goes on, returns the message, or returns `Timeout`, which it does
    no earlier than the deadline. -/
theorem Receiving.step {l : Label Tid T} (h : w.step kind l = some w') {t : Tid} {d : Nat}
    (hr : w.Receiving t c d) (hk : kind c = .after deliveryTime) :
    w'.Receiving t c d ∨ (w'.thread t).frame = .done (.okInstant deliveryTime) ∨
      ((w'.thread t).frame = .done (.timeout none) ∧ d ≤ w.shared.clock) := by
  rcases step_cases h with ⟨u, act, th, count, ht, ha⟩ | ⟨c', d', -, rfl⟩ | ⟨now, -, rfl⟩
  · by_cases hu : t = u
    · subst hu
      obtain ⟨spurious, rep, he, hmore, hret⟩ := hr.turn ht
      unfold Receiving
      rw [ha.frame]
      rcases Shared.exec_recvAfter hk he with ⟨-, -, rfl⟩ | ⟨-, -, ⟨-, rfl⟩ | ⟨-, rfl | ⟨hd, rfl⟩⟩⟩ |
        ⟨-, -, ⟨-, rfl⟩ | ⟨-, rfl⟩⟩ | ⟨-, -, ⟨hd, rfl⟩ | rfl⟩ | ⟨-, -, rfl⟩
      · exact .inl (hmore _ rfl).1
      · exact .inl (hmore _ rfl).1
      · exact .inl (hmore _ rfl).1
      · exact .inr (.inr ⟨(Option.some.inj (hret _ rfl)).symm, hd⟩)
      · exact .inl (hmore _ rfl).1
      · exact .inr (.inl (Option.some.inj (hret _ rfl)).symm)
      · exact .inr (.inr ⟨(Option.some.inj (hret _ rfl)).symm, hd⟩)
      · exact .inl (hmore _ rfl).1
      · exact .inl (hmore _ rfl).1
    · left
      unfold Receiving
      rw [ha.others hu]
      exact hr
  · exact .inl hr
  · exact .inl hr

/-- From here the `recv` of thread `t` can return: it has yet to look at the flag, it only waits
    for its deadline, or nobody has taken the message it waits for. -/
def CanReturn (w : World Tid T) (t : Tid) (c : Nat) : Prop :=
  (w.thread t).prog = .start ∨ (w.shared.received c = true ∧ (w.thread t).prog = .sleep) ∨
    (w.shared.received c = false ∧ ((w.thread t).prog = .now ∨ (w.thread t).prog = .swap))

/-- Somebody else has taken the message the `recv` of thread `t` waits for. -/
def Stuck (w : World Tid T) (t : Tid) (c deliveryTime : Nat) : Prop :=
  w.shared.received c = true ∧ deliveryTime ≤ w.shared.clock ∧
    ((w.thread t).prog = .now ∨ (w.thread t).prog = .swap ∨ (w.thread t).prog = .forever)

/-- In this step a thread receives the message while another one is inside a `recv` with a
    deadline, past its first look at the flag. -/
def Raced (kind : Nat → Kind T) (w w' : World Tid T) (c : Nat) : Prop :=
  ∃ t m, Takes kind w w' t c m ∧
    ∃ u d, u ≠ t ∧ w.Receiving u c d ∧ (w.thread u).prog ≠ .start

/-- What becomes of the flag in a step. -/
theorem received_step {l : Label Tid T} (h : w.step kind l = some w')
    (hk : kind c = .after deliveryTime) :
    w'.shared.received c = w.shared.received c ∨
      ∃ t spurious order m, l = .run t spurious order ∧ Takes kind w w' t c m ∧
        w.shared.received c = false ∧ w'.shared.received c = true := by
  rcases step_timed h c with ⟨-, hidle⟩ | ⟨t, spurious, order, m, hl, -, htakes⟩
  · exact .inl hidle.received
  · rcases htakes.taken with ⟨firstTick, duration, hk', -⟩ | ⟨-, -, hfree, htaken⟩
    · rw [hk] at hk'
      cases hk'
    · exact .inr ⟨t, spurious, order, m, hl, htakes, hfree, htaken⟩

theorem CanReturn.own {t : Tid} {act : Act Tid T} {th : Thread Tid T} {count : Nat → Side → Nat}
    (ht : Turn kind w t act th count) (ha : After w w' t act th count)
    (hk : kind c = .after deliveryTime) (hold : ∀ t d, w.Receiving t c d → w.CanReturn t c) {d : Nat}
    (hr : w'.Receiving t c d) : w'.CanReturn t c := by
  unfold CanReturn
  rw [ha.prog]
  have hf : th.frame = .timer c (.blocking (some d)) := by rw [← ha.frame]; exact hr
  cases ht with
  | next hn =>
    have hrw : w.Receiving t c d := hn.stays.of_timer hf
    have hcan := hold t d hrw
    obtain ⟨spurious, rep, he, hmore, hret⟩ := hrw.turn (.next hn)
    -- The thread is inside `recv` after the step, so the call has not returned.
    have goesOn : ∀ r, rep = .ret r → False := by
      intro r hrep
      have hres := hret r hrep
      rw [hf] at hres
      unfold Frame.timerResume at hres
      repeat' split at hres
      all_goals cases hres
    rcases Shared.exec_recvAfter hk he with ⟨-, rfl, rfl⟩ | ⟨hpr, rfl, ⟨-, rfl⟩ | ⟨-, rfl | ⟨-, rfl⟩⟩⟩ |
      ⟨hpr, -, ⟨htaken, rfl⟩ | ⟨-, rfl⟩⟩ | ⟨hpr, rfl, ⟨-, rfl⟩ | rfl⟩ |
      ⟨hpr, -, rfl⟩
    · rw [(hmore _ rfl).2, ha.shared]
      cases hfree : w.shared.received c with
      | true => exact .inr (.inl ⟨hfree, rfl⟩)
      | false => exact .inr (.inr ⟨hfree, .inl rfl⟩)
    · rw [(hmore _ rfl).2, ha.shared]
      rcases hcan with h | ⟨-, h⟩ | ⟨hfree, -⟩
      · rw [hpr] at h
        cases h
      · rw [hpr] at h
        cases h
      · exact .inr (.inr ⟨hfree, .inr rfl⟩)
    · rw [(hmore _ rfl).2, ha.shared]
      rcases hcan with h | ⟨-, h⟩ | ⟨hfree, -⟩
      · rw [hpr] at h
        cases h
      · rw [hpr] at h
        cases h
      · exact .inr (.inr ⟨hfree, .inl rfl⟩)
    · exact (goesOn _ rfl).elim
    · rcases hcan with h | ⟨-, h⟩ | ⟨hfree, -⟩
      · rw [hpr] at h
        cases h
      · rw [hpr] at h
        cases h
      · rw [htaken] at hfree
        cases hfree
    · exact (goesOn _ rfl).elim
    · exact (goesOn _ rfl).elim
    · rw [(hmore _ rfl).2, ha.shared]
      rcases hcan with h | ⟨htaken, -⟩ | ⟨-, h | h⟩
      · rw [hpr] at h
        cases h
      · exact .inr (.inl ⟨htaken, rfl⟩)
      · rw [hpr] at h
        cases h
      · rw [hpr] at h
        cases h
    · rcases hcan with h | ⟨-, h⟩ | ⟨-, h | h⟩ <;> rw [hpr] at h <;> cases h
  | start _ _ | complete _ _ | drop _ _ _ => exact .inl rfl

/-- Without a race, every `recv` that could return still can. -/
theorem CanReturn.step {l : Label Tid T} (h : w.step kind l = some w')
    (hk : kind c = .after deliveryTime) (hrace : ¬ Raced kind w w' c)
    (hold : ∀ t d, w.Receiving t c d → w.CanReturn t c) {t : Tid} {d : Nat}
    (hr : w'.Receiving t c d) : w'.CanReturn t c := by
  rcases step_cases h with ⟨u, act, th, count, ht, ha⟩ | ⟨c', d', -, rfl⟩ | ⟨now, -, rfl⟩
  · by_cases hu : t = u
    · subst hu
      exact .own ht ha hk hold hr
    · have hrw : w.Receiving t c d := by
        unfold Receiving at hr ⊢
        rwa [ha.others hu] at hr
      rcases received_step h hk with hsame | ⟨s, spurious, order, m, rfl, htakes, -, -⟩
      · have hcan := hold t d hrw
        unfold CanReturn at hcan ⊢
        rwa [ha.others hu, hsame]
      · by_cases hst : t = s
        · subst hst
          obtain ⟨act', f, pr, hn, ha'⟩ := run_turn h
          exact .own (.next hn) ha' hk hold hr
        · refine .inl ?_
          rw [ha.others hu]
          by_contra hne
          exact hrace ⟨s, m, htakes, t, d, hst, hrw, hne⟩
  · exact hold t d hr
  · exact hold t d hr

/-- Before the message is received, nobody waits in vain. -/
theorem canReturn_of_free (h : (system kind).Reachable w) (hk : kind c = .after deliveryTime)
    (hfree : w.shared.received c = false) {t : Tid} {d : Nat} (hr : w.Receiving t c d) :
    w.CanReturn t c := by
  have inv : w.shared.received c = false → ∀ t d, w.Receiving t c d → w.CanReturn t c := by
    refine h.invariant (P := fun w => w.shared.received c = false →
      ∀ t d, w.Receiving t c d → w.CanReturn t c) ?_ fun w l w' _ hold hstep hfree' t d hrec => ?_
    · rintro _ rfl - t d hrec
      cases hrec
    · rcases received_step hstep hk with hsame | ⟨-, -, -, -, -, -, -, htaken⟩
      · rw [hsame] at hfree'
        refine CanReturn.step hstep hk ?_ (hold hfree') hrec
        rintro ⟨s, m, htakes, -⟩
        rcases htakes.taken with ⟨firstTick, duration, hk', -⟩ | ⟨-, -, -, htaken⟩
        · rw [hk] at hk'
          cases hk'
        · rw [hsame, hfree'] at htaken
          cases htaken
      · rw [hfree'] at htaken
        cases htaken
  exact inv hfree t d hr

/-- A thread that has lost the message never leaves `recv`. -/
theorem Stuck.step {l : Label Tid T} (h : w.step kind l = some w')
    (hk : kind c = .after deliveryTime) {t : Tid} {d : Nat} (hr : w.Receiving t c d)
    (hs : w.Stuck t c deliveryTime) : w'.Receiving t c d ∧ w'.Stuck t c deliveryTime := by
  obtain ⟨htaken, hdue, hpr⟩ := hs
  have htaken' : w'.shared.received c = true := by
    rcases received_step h hk with hsame | ⟨-, -, -, -, -, -, -, htaken'⟩
    · rwa [hsame]
    · exact htaken'
  have hdue' := hdue.trans (clock_step h)
  rcases step_cases h with ⟨u, act, th, count, ht, ha⟩ | ⟨c', d', -, rfl⟩ | ⟨now, -, rfl⟩
  · by_cases hu : t = u
    · subst hu
      obtain ⟨spurious, rep, he, hmore, -⟩ := hr.turn ht
      unfold Receiving Stuck
      rw [ha.frame, ha.prog]
      rcases Shared.exec_recvAfter hk he with ⟨hp, -⟩ | ⟨-, -, ⟨-, rfl⟩ | ⟨hlate, -⟩⟩ |
        ⟨-, -, ⟨-, rfl⟩ | ⟨hfree, -⟩⟩ | ⟨hp, -⟩ | ⟨-, -, rfl⟩
      · rcases hpr with hpr | hpr | hpr <;> rw [hp] at hpr <;> cases hpr
      · exact ⟨(hmore _ rfl).1, htaken', hdue', .inr (.inl (hmore _ rfl).2)⟩
      · exact absurd hdue (Nat.not_le.mpr hlate)
      · exact ⟨(hmore _ rfl).1, htaken', hdue', .inr (.inr (hmore _ rfl).2)⟩
      · rw [htaken] at hfree
        cases hfree
      · rcases hpr with hpr | hpr | hpr <;> rw [hp] at hpr <;> cases hpr
      · exact ⟨(hmore _ rfl).1, htaken', hdue', .inr (.inr (hmore _ rfl).2)⟩
    · unfold Receiving at hr ⊢
      unfold Stuck
      rw [ha.others hu]
      exact ⟨hr, htaken', hdue', hpr⟩
  · exact ⟨hr, htaken', hdue', hpr⟩
  · exact ⟨hr, htaken', hdue', hpr⟩

/-! ### A thread on its own -/

/-- Thread `t`, taking steps while nothing else happens, returns after at most `n` of them. -/
def ReturnsWithin (kind : Nat → Kind T) (t : Tid) (n : Nat) (w : World Tid T) : Prop :=
  ∃ m ≤ n, ∃ w', Lib.System.replay (fun w l => w.step kind l) w
    (List.replicate m (.run t false [])) = some w' ∧ (w'.thread t).frame.ended = true

/-- Once its deadline has passed, thread `t` returns after at most three steps of its own. -/
def Finishes (kind : Nat → Kind T) (w : World Tid T) (t : Tid) (d : Nat) : Prop :=
  ∀ now, w.shared.clock ≤ now → d ≤ now →
    ∃ w', w.step kind (.advance now) = some w' ∧ ReturnsWithin kind t 3 w'

variable {t : Tid} {d : Nat}

theorem ReturnsWithin.more {act : Act Tid T} {pr : Prog} {n : Nat} (hr : w.Receiving t c d)
    (he : w.shared.exec t kind (.recvTimer c (some d)) (w.thread t).prog false = some (act, .more pr))
    (hrest : ∀ w' : World Tid T, w'.Receiving t c d → (w'.thread t).prog = pr →
      w'.shared = w.shared.apply t act → ReturnsWithin kind t n w') :
    ReturnsWithin kind t (n + 1) w := by
  have hstep : w.step kind (.run t false []) = some { w with
      shared := w.shared.apply t act
      thread := Function.update w.thread t { w.thread t with prog := pr } } := by
    have he' : w.shared.exec t kind (w.thread t).frame.call (w.thread t).prog false =
        some (act, .more pr) := by
      rw [show (w.thread t).frame = _ from hr]
      exact he
    simp only [step, run, he']
  obtain ⟨m, hm, w'', hreplay, hended⟩ := hrest
    { w with
      shared := w.shared.apply t act
      thread := Function.update w.thread t { w.thread t with prog := pr } }
    (by simpa only [Receiving, Function.update_self] using hr) (by simp only [Function.update_self]) rfl
  refine ⟨m + 1, Nat.succ_le_succ hm, w'', ?_, hended⟩
  rw [List.replicate_succ, Lib.System.replay, hstep]
  exact hreplay

theorem ReturnsWithin.ret {act : Act Tid T} {r : Ret Tid T} {out : Outcome T} {n : Nat}
    (hr : w.Receiving t c d)
    (he : w.shared.exec t kind (.recvTimer c (some d)) (w.thread t).prog false = some (act, .ret r))
    (hres : Frame.timerResume (.blocking (some d)) r = some (.done out : Frame Tid T)) :
    ReturnsWithin kind t (n + 1) w := by
  have hstep : w.step kind (.run t false []) =
      some ({ w with shared := w.shared.apply t act }.put t (.done out)) := by
    have he' : w.shared.exec t kind (w.thread t).frame.call (w.thread t).prog false =
        some (act, .ret r) := by
      rw [show (w.thread t).frame = _ from hr]
      exact he
    have hres' : (w.thread t).frame.resume kind t [] r = some (.done out) := by
      rw [show (w.thread t).frame = _ from hr]
      exact hres
    simp only [step, run, he', hres', Option.map_some]
  refine ⟨1, Nat.succ_le_succ (Nat.zero_le n),
    { w with shared := w.shared.apply t act }.put t (.done out), ?_, ?_⟩
  · rw [List.replicate_one, Lib.System.replay, hstep]
    rfl
  · rw [put_thread, Function.update_self, Thread.settled_frame]
    rfl

/-- **A `recv` that can return does so** within three steps of its deadline. -/
theorem CanReturn.returns (hk : kind c = .after deliveryTime) (hr : w.Receiving t c d)
    (hcan : w.CanReturn t c) (hd : d ≤ w.shared.clock) : ReturnsWithin kind t 3 w := by
  have exec : ∀ {w : World Tid T} {act rep}, w.shared.recvTimer kind c (some d) (w.thread t).prog =
      some (act, rep) → w.shared.exec t kind (.recvTimer c (some d)) (w.thread t).prog false =
        some (act, rep) := id
  -- From the last place backwards: what is left of `recv` at each, with the deadline behind it.
  have sleep : ∀ {w : World Tid T} {n}, w.Receiving t c d → (w.thread t).prog = .sleep →
      d ≤ w.shared.clock → ReturnsWithin kind t (n + 1) w := by
    intro w n hr hpr hd
    have he : w.shared.recvTimer kind c (some d) (w.thread t).prog =
        some ((.silent : Act Tid T), .ret .failed) := by
      simp [Shared.recvTimer, hk, hpr, Shared.orExpired, hd]
    exact .ret hr (exec he) rfl
  have swap : ∀ {w : World Tid T} {n}, w.Receiving t c d → (w.thread t).prog = .swap →
      w.shared.received c = false → ReturnsWithin kind t (n + 1) w := by
    intro w n hr hpr hfree
    have he : w.shared.recvTimer kind c (some d) (w.thread t).prog =
        some ((.setReceived c : Act Tid T), .ret (.token (.instant deliveryTime))) := by
      simp [Shared.recvTimer, hk, hpr, hfree]
    exact .ret hr (exec he) rfl
  have now : ∀ {w : World Tid T} {n}, w.Receiving t c d → (w.thread t).prog = .now →
      w.shared.received c = false → d ≤ w.shared.clock → ReturnsWithin kind t (n + 2) w := by
    intro w n hr hpr hfree hd
    by_cases hdue : deliveryTime ≤ w.shared.clock
    · have he : w.shared.recvTimer kind c (some d) (w.thread t).prog =
          some ((.silent : Act Tid T), .more .swap) := by
        simp [Shared.recvTimer, hk, hpr, hdue]
      exact .more hr (exec he) fun w' hr' hpr' hshared =>
        swap hr' hpr' (by rw [hshared]; exact hfree)
    · have he : w.shared.recvTimer kind c (some d) (w.thread t).prog =
          some ((.silent : Act Tid T), .ret .failed) := by
        simp [Shared.recvTimer, hk, hpr, Nat.lt_of_not_le hdue, Shared.orExpired, hd]
      exact .ret hr (exec he) rfl
  rcases hcan with hpr | ⟨-, hpr⟩ | ⟨hfree, hpr | hpr⟩
  · cases hfree : w.shared.received c with
    | true =>
      have he : w.shared.recvTimer kind c (some d) (w.thread t).prog =
          some ((.silent : Act Tid T), .more .sleep) := by
        simp [Shared.recvTimer, hk, hpr, hfree]
      exact .more hr (exec he) fun w' hr' hpr' hshared =>
        sleep hr' hpr' (by rw [hshared]; exact hd)
    | false =>
      have he : w.shared.recvTimer kind c (some d) (w.thread t).prog =
          some ((.silent : Act Tid T), .more .now) := by
        simp [Shared.recvTimer, hk, hpr, hfree]
      exact .more hr (exec he) fun w' hr' hpr' hshared =>
        now hr' hpr' (by rw [hshared]; exact hfree) (by rw [hshared]; exact hd)
  · exact sleep hr hpr hd
  · exact now hr hpr hfree hd
  · exact swap hr hpr hfree

/-- A thread that has lost the message does not return, however long it runs. -/
theorem Stuck.not_finishes (hk : kind c = .after deliveryTime) (hr : w.Receiving t c d)
    (hs : w.Stuck t c deliveryTime) : ¬ Finishes kind w t d := by
  intro hfin
  obtain ⟨w₁, hadv, n, -, w', hreplay, hended⟩ :=
    hfin (max w.shared.clock d) (Nat.le_max_left _ _) (Nat.le_max_right _ _)
  have stays : ∀ (n : Nat) (v v' : World Tid T), v.Receiving t c d → v.Stuck t c deliveryTime →
      Lib.System.replay (fun w l => w.step kind l) v (List.replicate n (.run t false [])) = some v' →
      v'.Receiving t c d := by
    intro n
    induction n with
    | zero =>
      intro v v' hr _ h
      cases h
      exact hr
    | succ n ih =>
      intro v v' hr hs h
      rw [List.replicate_succ] at h
      obtain ⟨v₁, hone, hrest⟩ := Option.bind_eq_some_iff.mp h
      obtain ⟨hr₁, hs₁⟩ := Stuck.step hone hk hr hs
      exact ih v₁ v' hr₁ hs₁ hrest
  obtain ⟨hr₁, hs₁⟩ := Stuck.step hadv hk hr hs
  have hrec := stays n w₁ w' hr₁ hs₁ hreplay
  unfold Receiving at hrec
  rw [hrec] at hended
  cases hended

/-- The loser of a race is stuck. -/
theorem Raced.stuck {l : Label Tid T} (hreach : (system kind).Reachable w)
    (h : w.step kind l = some w') (hk : kind c = .after deliveryTime) (hrace : Raced kind w w' c) :
    ∃ u d, w'.Receiving u c d ∧ w'.Stuck u c deliveryTime := by
  obtain ⟨t, m, htakes, u, d, hut, hr, hpr⟩ := hrace
  rcases htakes.taken with ⟨firstTick, duration, hk', -⟩ | ⟨hk', hswap, hfree, htaken⟩
  · rw [hk] at hk'
    cases hk'
  · have hdue := onTime_of_reachable hreach t c _ htakes.source hk hswap
    rcases canReturn_of_free hreach hk hfree hr with hp | ⟨htaken', -⟩ | ⟨-, hp⟩
    · exact absurd hp hpr
    · rw [hfree] at htaken'
      cases htaken'
    · obtain ⟨spurious, order, hrun⟩ := htakes.step
      obtain ⟨act, f, pr, -, ha⟩ := run_turn hrun
      refine ⟨u, d, ?_, htaken, hdue.trans (clock_step h), ?_⟩
      · unfold Receiving at hr ⊢
        rwa [ha.others hut]
      · rw [ha.others hut]
        exact hp.imp_right .inl

/-- **The after flavor.** In every run at most one receive from an `after` channel succeeds; it
    returns the delivery time, no earlier than that; and a `recv` with a deadline ends with the
    message, or with `Timeout` no earlier than its deadline. It can always do so unless the
    message has been received by another thread while it was waiting for it: then it never
    returns. -/
theorem after_delivers_once (hk : kind c = .after deliveryTime)
    (x : (receipts kind c : Lib.System (World Tid T × _) _).Exec) :
    (∀ j ≤ x.len, AfterLaws deliveryTime (x.state j).2) ∧
    (∀ j < x.len, ∀ t d, (x.state j).1.Receiving t c d → (x.state (j + 1)).1.Receiving t c d ∨
      ((x.state (j + 1)).1.thread t).frame = .done (.okInstant deliveryTime) ∨
      (((x.state (j + 1)).1.thread t).frame = .done (.timeout none) ∧
        d ≤ (x.state j).1.shared.clock)) ∧
    ((∀ j < x.len, ¬ Raced kind (x.state j).1 (x.state (j + 1)).1 c) ↔
      ∀ j ≤ x.len, ∀ t d, (x.state j).1.Receiving t c d →
        ((x.state j).1.thread t).prog ≠ .forever ∧ Finishes kind (x.state j).1 t d) := by
  have reach : ∀ j ≤ x.len, (system kind).Reachable (x.state j).1 := fun j hj => (x.reachable hj).forget
  have next : ∀ j < x.len, ∃ l, (x.state j).1.step kind l = some (x.state (j + 1)).1 := by
    intro j hj
    obtain ⟨l, hl⟩ := x.next j hj
    exact ⟨l, hl.1⟩
  refine ⟨fun j hj => (afterLaws_of_reachable hk (x.reachable hj)).1, fun j hj t d hr => ?_, ?_⟩
  · obtain ⟨l, hl⟩ := next j hj
    exact hr.step hl hk
  constructor
  · intro hrace j hj t d hr
    have can : ∀ j ≤ x.len, ∀ t d, (x.state j).1.Receiving t c d → (x.state j).1.CanReturn t c := by
      intro j
      induction j with
      | zero =>
        intro _ t d hr
        unfold Receiving at hr
        rw [show (x.state 0).1 = World.init kind from x.start.1] at hr
        cases hr
      | succ j ih =>
        intro hj t d hr
        obtain ⟨l, hl⟩ := next j hj
        exact CanReturn.step hl hk (hrace j hj) (ih (by omega)) hr
    have hcan := can j hj t d hr
    refine ⟨?_, fun now hnow hd => ?_⟩
    · intro hpr
      rcases hcan with h | ⟨-, h⟩ | ⟨-, h | h⟩ <;> rw [hpr] at h <;> cases h
    · refine ⟨_, by simp only [step]; rw [if_pos hnow], ?_⟩
      exact CanReturn.returns hk hr hcan hd
  · intro hfin j hj hrace
    obtain ⟨l, hl⟩ := next j hj
    obtain ⟨u, d, hr, hs⟩ := hrace.stuck (reach j (by omega)) hl hk
    exact hs.not_finishes hk hr (hfin (j + 1) hj u d hr).2

/-- The message is delivered at 5. -/
def atFive : Nat → Kind Nat := fun _ => .after 5

/-- A `recv` with deadline 3 gives up at 3. -/
def tooEarly : List (Label Nat Nat) :=
  [.start 0 (.plain ⟨0, none⟩ (.blocking (some 3))), .run 0 false [], .advance 3, .run 0 false []]

theorem after_delivers_once_tooEarly :
    ∃ x : (receipts atFive 0 : Lib.System (World Nat Nat × _) _).Exec,
      x.len = 4 ∧ (x.state 2).1.Receiving 0 0 3 ∧ AfterLaws 5 (x.state 4).2 := by
  let step := Lib.System.recordStep (fun w l => w.step atFive l)
    fun (w : World Nat Nat) l _ => w.receipt atFive 0 l
  have hstep : ∀ x l y, step x l = some y → (receipts atFive 0).step x l y :=
    fun _ _ _ h => Lib.System.recorded_step (fun _ _ _ hs => hs) h
  let x := Lib.System.Exec.ofReplay hstep (World.init _, []) ⟨rfl, rfl⟩ tooEarly (by decide +kernel)
  have hk : atFive 0 = .after 5 := rfl
  exact ⟨x, rfl, rfl, (after_delivers_once hk x).1 4 (le_refl 4)⟩

/-- Thread 0 waits for the message until 10, and thread 1 gets it at 5. -/
def lostMessage : List (Label Nat Nat) :=
  [.start 0 (.plain ⟨0, none⟩ (.blocking (some 10))), .run 0 false [], .advance 5,
    .start 1 (.plain ⟨0, none⟩ .nonblocking), .run 1 false [], .run 1 false [], .run 1 false [],
    .run 0 false [], .run 0 false []]

/-- Thread 0 is in the sleep that has no end, and does not return when its deadline passes. -/
theorem lostMessage_sleeps_forever :
    ∃ w : World Nat Nat, runs atFive lostMessage = some w ∧ (system atFive).Reachable w ∧
      w.Receiving 0 0 10 ∧ (w.thread 0).prog = .forever ∧ ¬ Finishes atFive w 0 10 := by
  obtain ⟨w, hw⟩ := Option.isSome_iff_exists.mp
    (show (runs atFive lostMessage).isSome from by decide +kernel)
  have hprog : (runs atFive lostMessage).map (fun w => ((w.thread 0).prog,
      w.shared.received 0, w.shared.clock)) = some (.forever, true, 5) := by decide +kernel
  have hrec : (runs atFive lostMessage).map (fun w => (w.thread 0).frame) =
      some (.timer 0 (.blocking (some 10))) := rfl
  rw [hw] at hprog hrec
  simp only [Option.map_some, Option.some.injEq, Prod.mk.injEq] at hprog hrec
  refine ⟨w, hw, reachable_of_runs hw, hrec, hprog.1, ?_⟩
  exact Stuck.not_finishes rfl hrec ⟨hprog.2.1, hprog.2.2.ge, .inr (.inr hprog.1)⟩

end World

end CrossbeamChannel
