import CrossbeamChannel.World.Stakes

/-!
# The bodies of the operations keep the books of the registry

One step of any thread in the body of any operation takes the registry from books that say
what each thread has registered to books in which only this thread's stake has moved with its
frame: `Frame.Next.registry`.

There is one lemma for each body, and within `run_select` one for each stage that puts an entry into a
queue, takes one out, or returns what it has found. All other stages neither register nor unregister, and
leave by `registry_calm`, `registry_same` or `registry_keep`. A stage that returns has to be outside
`Context::with`: everything that was registered has been taken back by then (`select.rs` 314-317), or was
taken out by the thread that selected it.
-/

namespace CrossbeamChannel

variable {Tid T : Type}

namespace Shared

variable [DecidableEq Tid] {w : Shared Tid T} {t : Tid} {kind : Nat → Kind T}
  {act : Act Tid T} {rep : Reply Tid T} {st : Tid → Stake} {c : Nat} {d : Side} {slot : Nat}
  {pr pr' : Prog} {s : Stake}

/-- `unregister` has returned: the registration is off. -/
theorem unregister_ok {r : Ret Tid T} (h : w.reg.Ok st)
    (he : w.unregister t kind c d slot pr = (act, .ret r))
    (hmem : (st t).left ⟨c, d, slot⟩ → (kind c).Queues d) (hs : s.Ok)
    (hleft : ∀ x, s.left x ↔ (st t).left x ∧ x ≠ ⟨c, d, slot⟩)
    (hmade : s.inside = true → (st t).inside = true ∧ ∀ x, (st t).made x → s.made x) :
    (w.apply t act).reg.Ok (Function.update st t s) := by
  -- A flavor without this queue has nothing to take back.
  have idle : ¬ (kind c).Queues d → w.reg.Ok (Function.update st t s) := by
    intro hq
    refine h.restake hs (fun x hx => ((hleft x).mp hx).1) (fun x hx hnx => ?_) hmade
    refine absurd ((hleft x).mpr ⟨hx, ?_⟩) hnx
    rintro rfl
    exact hq (hmem hx)
  have sync : w.unregisterSync t c d slot pr = (act, .ret r) →
      (w.apply t act).reg.Ok (Function.update st t s) := by
    intro hu
    unfold unregisterSync at hu
    split at hu
    · cases hu
      exact h.unregister hs hleft hmade
    · split at hu
      · rename_i hlen
        cases hu
        refine h.restake hs (fun x hx => ((hleft x).mp hx).1) (fun x hx hnx => ?_) hmade
        by_cases hx' : x = ⟨c, d, slot⟩
        · subst hx'
          exact h.gone_of_empty hlen
        · exact absurd ((hleft x).mpr ⟨hx, hx'⟩) hnx
      · cases hu
  unfold unregister at he
  cases hk : kind c with
  | array ch built =>
    rw [hk] at he
    exact sync he
  | list =>
    rw [hk] at he
    cases d with
    | send =>
      cases he
      exact idle (by rw [hk]; simp [Kind.Queues])
    | recv => exact sync he
  | zero =>
    rw [hk] at he
    cases he
    exact h.unregister hs hleft hmade
  | after _ | tick _ _ | never =>
    rw [hk] at he
    cases he
    exact idle (by rw [hk]; exact id)

/-- `unregister` goes on: nothing has changed yet. -/
theorem unregister_more (he : w.unregister t kind c d slot pr = (act, .more pr')) :
    act = .silent := by
  unfold unregister unregisterSync at he
  repeat' split at he
  all_goals cases he
  all_goals rfl

/-- After any step of `register` the registration is on. -/
theorem register_ok {spurious : Bool} (h : w.reg.Ok st)
    (he : w.register t kind c d slot pr spurious = some (act, rep)) (hin : (st t).inside = true)
    (hnew : pr = .start → ∀ x, (st t).made x → x.slot ≠ slot)
    (hold : pr ≠ .start → (kind c).Queues d → (st t).left ⟨c, d, slot⟩) (hs : s.Ok)
    (hleft : ∀ x, s.left x ↔ ((kind c).Queues d ∧ x = ⟨c, d, slot⟩) ∨ (st t).left x)
    (hmade : ∀ x, (st t).made x → s.made x) :
    (w.apply t act).reg.Ok (Function.update st t s) := by
  -- A flavor without this queue has nothing to add, nor has a step behind the first.
  have idle : ((kind c).Queues d → pr ≠ .start) → act.Keeps →
      (w.apply t act).reg.Ok (Function.update st t s) := by
    intro hq hact
    refine (apply_ok h hact).restake hs (fun x hx => ?_) (fun x hx hnx => ?_) fun _ => ⟨hin, hmade⟩
    · rcases (hleft x).mp hx with ⟨hq', rfl⟩ | hx
      · exact hold (hq hq') hq'
      · exact hx
    · exact absurd ((hleft x).mpr (.inr hx)) hnx
  have enter : (kind c).Queues d → pr = .start → ∀ packet,
      (w.reg.register c d ⟨⟨t, slot⟩, packet⟩).Ok (Function.update st t s) := by
    intro hq hpr packet
    refine h.register hin (hnew hpr) hs (fun x => ?_) hmade
    rw [hleft x]
    exact or_congr_left ⟨And.right, fun hx => ⟨hq, hx⟩⟩
  have buffer : (kind c).Queues d → w.registerBuffer t c d slot pr spurious = some (act, rep) →
      (w.apply t act).reg.Ok (Function.update st t s) := by
    intro hq hb
    unfold registerBuffer at hb
    split at hb
    · cases hb
      exact enter hq rfl none
    · exact idle (fun _ => by simp) (drive_keeps hb)
    · exact idle (fun _ => by simp) (drive_keeps hb)
    · cases hb
  unfold register at he
  cases hk : kind c with
  | array ch built =>
    rw [hk] at he
    exact buffer (by rw [hk]; trivial) he
  | list =>
    rw [hk] at he
    cases d with
    | send => exact idle (by rw [hk]; simp [Kind.Queues]) (drive_keeps he)
    | recv => exact buffer (by rw [hk]; rfl) he
  | zero =>
    rw [hk] at he
    dsimp only at he
    split at he
    · cases he
      exact enter (by rw [hk]; trivial) ‹_› (some w.fresh)
    · cases he
  | after _ | tick _ _ | never =>
    rw [hk] at he
    cases he
    exact idle (by rw [hk]; exact False.elim) trivial

/-- A registration that goes on is behind its first step. -/
theorem register_more {spurious : Bool}
    (he : w.register t kind c d slot pr spurious = some (act, .more pr')) (hq : (kind c).Queues d) :
    pr' ≠ .start := by
  have buffer : w.registerBuffer t c d slot pr spurious = some (act, .more pr') → pr' ≠ .start := by
    intro hb
    unfold registerBuffer at hb
    split at hb
    · cases hb
      simp
    · obtain ⟨b, a, -, -, hrep⟩ := drive_act hb
      unfold unready at hrep
      repeat' split at hrep
      all_goals cases hrep
      all_goals simp
    · obtain ⟨b, a, -, -, hrep⟩ := drive_act hb
      unfold connected at hrep
      repeat' split at hrep
      all_goals cases hrep
      simp
    · cases hb
  unfold register at he
  cases hk : kind c with
  | array ch built =>
    rw [hk] at he
    exact buffer he
  | list =>
    rw [hk] at he hq
    obtain rfl : d = .recv := hq
    exact buffer he
  | zero =>
    rw [hk] at he
    dsimp only at he
    split at he <;> cases he
  | after _ | tick _ _ | never =>
    rw [hk] at hq
    exact hq.elim

/-- The section at the start of an operation of the zero flavor: the thread enters
    `Context::with` and queues its packet, or changes nothing of its own. -/
theorem pair_cases {offer : Option (Packet T)} (he : w.pair t c d offer = (act, rep)) :
    (∃ v, offer = some v ∧ act = .queue c d v ∧ rep = .ret (.queued w.fresh)) ∨
      (act.Keeps ∧ ∀ p, rep ≠ .ret (.queued p)) := by
  unfold pair at he
  split at he
  · cases he
    exact .inr ⟨trivial, by simp⟩
  · split at he
    · cases he
      exact .inr ⟨trivial, by simp⟩
    · split at he
      · cases he
        exact .inr ⟨trivial, by simp⟩
      · cases he
        exact .inl ⟨_, rfl, rfl, rfl⟩

/-- Queueing a packet, from outside `Context::with`. -/
theorem queue_ok (h : w.reg.Ok st) (hout : ∀ x, ¬ (st t).left x) (v : Packet T) :
    (w.apply t (.queue c d v)).reg.Ok
      (Function.update st t (.holding (· = ⟨c, d, 0⟩))) := by
  have hr := h.reset hout
  have : ((w.reg.reset t).register c d ⟨⟨t, 0⟩, some w.fresh⟩).Ok
      (Function.update (Function.update st t (.holding fun _ => False)) t
        (.holding (· = ⟨c, d, 0⟩))) := hr.register (by rw [Function.update_self]; rfl)
    (by rw [Function.update_self]; exact fun x hx => hx.elim)
    (Frame.holding_ok fun x y hx hy _ => Eq.trans hx (Eq.symm hy))
    (by rw [Function.update_self]; exact fun x => ⟨.inl, fun hx => hx.elim id False.elim⟩)
    (by rw [Function.update_self]; exact fun x hx => hx.elim)
  rwa [Function.update_idem] at this

/-- Entering `Context::with`. -/
theorem reset_ok (h : w.reg.Ok st) (hout : ∀ x, ¬ (st t).left x) :
    (w.apply t .reset).reg.Ok (Function.update st t (.holding fun _ => False)) :=
  h.reset hout

/-- A step of `try` never queues anything. -/
theorem start_reply {spurious : Bool} (he : w.start t kind c d pr spurious = some (act, rep))
    (p : Nat) : rep ≠ .ret (.queued p) := by
  have driven : w.drive t c (.start d) .start spurious started = some (act, rep) →
      rep ≠ .ret (.queued p) := by
    intro hd
    obtain ⟨b, a, -, -, rfl⟩ := drive_act hd
    cases a with
    | none => simp
    | some a => cases a <;> simp [started]
  unfold start at he
  split at he
  · exact driven he
  · exact driven he
  · rcases pair_cases (Option.some.inj he) with ⟨v, hv, -⟩ | hx
    · cases hv
    · exact hx.2 p
  · unfold tryAfter at he
    repeat' split at he
    all_goals cases he
    all_goals simp
  · unfold tryTick at he
    split at he <;> cases he <;> simp
  · cases he
    simp

/-- A step of `retry`. -/
theorem retry_cases {spurious : Bool} (he : w.retry t kind c d pr spurious = some (act, rep)) :
    (∃ v, act = .queue c d v ∧ rep = .ret (.queued w.fresh)) ∨
      (act.Keeps ∧ ∀ p, rep ≠ .ret (.queued p)) := by
  unfold retry at he
  split at he
  · rcases pair_cases (Option.some.inj he) with ⟨v, -, hact, hrep⟩ | hx
    · exact .inl ⟨v, hact, hrep⟩
    · exact .inr hx
  · exact .inr ⟨start_keeps he, start_reply he⟩

end Shared

namespace Frame.Next

variable [DecidableEq Tid] {w : Shared Tid T} {t : Tid} {kind : Nat → Kind T}
  {act : Act Tid T} {f f' : Frame Tid T} {pr pr' : Prog} {st : Tid → Stake}

/-- A step outside `Context::with` that stays outside. -/
theorem registry_calm (hn : Next kind w t f pr act f' pr') (h : w.reg.Ok st)
    (hst : st t = f.stake kind pr) (hc : f.call.Keeps) (hf : f.Calm kind)
    (hf' : ∀ order r f', f.resume kind t order r = some f' → f'.Calm kind) :
    (w.apply t act).reg.Ok (Function.update st t (f'.stake kind pr')) := by
  refine hn.registry_same h hst hc ?_
  rw [hf pr]
  cases hn with
  | more he => exact hf pr'
  | ret he hr => exact hf' _ _ _ hr .start

/-- The operation that was selected is the only one registered: nothing is left. -/
theorem registry_selected (hn : Next kind w t f pr act f' pr') (h : w.reg.Ok st)
    (hst : st t = f.stake kind pr) (hc : f.call.Keeps) {op : Operation Tid}
    (hsel : ((w.apply t act).reg.cx t).select = .operation op)
    (hin : (f.stake kind pr).inside = true)
    (hone : ∀ x y, (f.stake kind pr).made x → (f.stake kind pr).made y → x = y)
    (hleft : ∀ x, ¬ (f'.stake kind pr').left x)
    (hmade : (f'.stake kind pr').inside = true → (f.stake kind pr).inside = true ∧
      ∀ x, (f.stake kind pr).made x → (f'.stake kind pr').made x) :
    (w.apply t act).reg.Ok (Function.update st t (f'.stake kind pr')) := by
  refine hn.registry_keep h hst hc (fun x hx => absurd hx (hleft x)) (fun hok x hx _ => ?_) hmade
  obtain ⟨y, hy, -, hgone⟩ := Shared.gone_of_selected hok (by rwa [hst]) hsel
  rw [hst] at hy
  rwa [hone x y ((stake_ok f pr).sub x hx) hy]

/-- `send` and `recv` of a buffered channel. -/
theorem registry_plain {job : Job T} {mode : Mode} {st' : PlainStage}
    (hn : Next kind w t (.plain job mode st') pr act f' pr') (h : w.reg.Ok st)
    (hst : st t = (plain job mode st' : Frame Tid T).stake kind pr) :
    (w.apply t act).reg.Ok (Function.update st t (f'.stake kind pr')) := by
  -- The one operation of the body has one registration.
  have one : ∀ {x y}, Alone kind job.chan job.side x → Alone kind job.chan job.side y → x = y :=
    fun hx hy => hx.2.trans hy.2.symm
  cases st' with
  | attempt n =>
    refine hn.registry_calm h hst trivial (fun _ => rfl) fun order r f' hr => ?_
    cases r with
    | token tk =>
      cases hr
      exact finishWith_calm job tk
    | failed =>
      cases hr
      exact plainFailed_calm job mode n
    | _ => cases hr
  | deadline woken =>
    refine hn.registry_calm h hst trivial (fun _ => rfl) fun order r f' hr => ?_
    cases r with
    | nat now =>
      cases hr
      split <;> exact fun _ => rfl
    | _ => cases hr
  | reset =>
    have hreset := Shared.reset_ok h (t := t) (by rw [hst]; exact fun _ => id)
    cases hn with
    | more he => cases he
    | ret he hr =>
      cases he
      cases hr
      convert hreset using 2
      exact holding_congr fun x => ⟨fun hx => hx.1 rfl, False.elim⟩
  | register =>
    have key : ∀ {rep : Reply Tid T} {spurious : Bool},
        w.register t kind job.chan job.side 0 pr spurious = some (act, rep) →
        (w.apply t act).reg.Ok (Function.update st t (.holding (Alone kind job.chan job.side))) := by
      intro rep spurious he
      refine Shared.register_ok h he (by rw [hst]; rfl) (fun hpr x hx => ?_) (fun hpr hq => ?_)
        (holding_ok fun x y hx hy _ => one hx hy) (fun x => ?_) (fun x hx => ?_)
      · rw [hst] at hx
        exact absurd hpr hx.1
      · rw [hst]
        exact ⟨hpr, hq, rfl⟩
      · rw [hst]
        exact ⟨.inl, fun hx => hx.elim id And.right⟩
      · rw [hst] at hx
        exact hx.2
    cases hn with
    | more he =>
      convert key he using 2
      refine holding_congr fun x => and_iff_right_of_imp fun hx => ?_
      exact Shared.register_more he hx.1
    | ret he hr =>
      rename_i r
      cases r with
      | flag ok =>
        cases hr
        cases ok <;> exact key he
      | _ => cases hr
  | abort =>
    refine hn.registry_same h hst trivial ?_
    cases hn with
    | more he => rfl
    | ret he hr =>
      rename_i r
      cases r with
      | selected sel =>
        cases hr
        rfl
      | _ => cases hr
  | wait =>
    cases hn with
    | more he => exact (Next.more he).registry_same h hst trivial rfl
    | ret he hr =>
      have hn := Next.ret he hr
      rename_i r
      cases r with
      | selected sel =>
        obtain ⟨hsel, hne⟩ := Shared.waitUntil_selected he
        cases sel with
        | waiting => exact absurd rfl hne
        | operation op =>
          cases hr
          have hcalm : (plainWaited job mode true : Frame Tid T).stake kind .start = .outside :=
            plainWaited_calm job mode true .start
          refine hn.registry_selected h hst trivial hsel rfl (fun x y => one) ?_ ?_
          · rw [hcalm]
            exact fun _ => id
          · rw [hcalm]
            intro hin
            cases hin
        | aborted | disconnected =>
          cases hr
          exact hn.registry_same h hst trivial rfl
      | _ => cases hr
  | unregister =>
    cases hn with
    | more he =>
      obtain rfl := Shared.unregister_more (Option.some.inj he)
      have := h
      rwa [← Function.update_eq_self t st, hst] at this
    | ret he hr =>
      have key : ∀ g : Frame Tid T, g.stake kind .start = .outside →
          (w.apply t act).reg.Ok (Function.update st t (g.stake kind .start)) := by
        intro g hg
        rw [hg]
        refine Shared.unregister_ok h (Option.some.inj he) ?_ outside_ok (fun x => ?_) (fun hin => ?_)
        · rw [hst]
          exact And.left
        · rw [hst]
          exact ⟨False.elim, fun hx => hx.2 hx.1.2⟩
        · cases hin
      rename_i r
      cases r with
      | removed e =>
        cases e with
        | none =>
          cases hr
          exact key .panicked rfl
        | some e =>
          cases hr
          exact key _ (plainWaited_calm job mode false .start)
      | _ => cases hr

/-- A step outside `Context::with`, with a call that might have entered it. -/
theorem registry_stay (h : w.reg.Ok st) (hst : st t = .outside) (hact : act.Keeps) {g : Frame Tid T}
    (hg : g.Calm kind) (pr' : Prog) :
    (w.apply t act).reg.Ok (Function.update st t (g.stake kind pr')) := by
  rw [hg, ← hst, Function.update_eq_self]
  exact Shared.apply_ok h hact

/-- The only registration is taken back. -/
theorem registry_withdraw (h : w.reg.Ok st) {c : Nat} {d : Side} {P : Place → Prop}
    (hP : ∀ x, P x ↔ x = ⟨c, d, 0⟩) (hst : st t = .holding P) {g : Frame Tid T} (hg : g.Calm kind) :
    (w.apply t (.unregister c d 0)).reg.Ok (Function.update st t (g.stake kind .start)) := by
  rw [hg]
  refine h.unregister outside_ok (fun x => ?_) fun hin => ?_
  · rw [hst]
    exact ⟨False.elim, fun hx => hx.2 ((hP x).mp hx.1)⟩
  · cases hin

/-- `send` and `recv` of a zero channel. -/
theorem registry_zero {job : Job T} {mode : Mode} {st' : ZeroStage Tid}
    (hn : Next kind w t (.zero job mode st') pr act f' pr') (h : w.reg.Ok st)
    (hst : st t = (zero job mode st' : Frame Tid T).stake kind pr) :
    (w.apply t act).reg.Ok (Function.update st t (f'.stake kind pr')) := by
  cases st' with
  | pair =>
    cases hn with
    | more he =>
      rcases Shared.pair_cases (Option.some.inj he) with ⟨v, -, -, hrep⟩ | ⟨hact, -⟩
      · cases hrep
      · exact registry_stay h hst hact (g := .zero job mode .pair) (fun _ => rfl) pr'
    | ret he hr =>
      rename_i r
      rcases Shared.pair_cases (Option.some.inj he) with ⟨v, -, rfl, hrep⟩ | ⟨hact, hrep⟩
      · cases hrep
        cases hr
        exact Shared.queue_ok h (by rw [hst]; exact fun _ => id) v
      · cases r with
        | token tk =>
          cases hr
          exact registry_stay h hst hact (finishWith_calm job tk) .start
        | failed =>
          cases hr
          exact registry_stay h hst hact (g := .done (.unavailable job.msg)) (fun _ => rfl) .start
        | queued p => exact absurd rfl (hrep p)
        | _ => cases hr
  | wait p =>
    cases hn with
    | more he => exact (Next.more he).registry_same h hst trivial rfl
    | ret he hr =>
      have hn := Next.ret he hr
      rename_i r
      cases r with
      | selected sel =>
        obtain ⟨hsel, hne⟩ := Shared.waitUntil_selected he
        cases sel with
        | waiting => exact absurd rfl hne
        | operation op =>
          cases hr
          exact hn.registry_selected h hst trivial hsel rfl
            (fun x y hx hy => Eq.trans hx (Eq.symm hy)) (fun _ => id) fun hin => by cases hin
        | aborted | disconnected =>
          cases hr
          exact hn.registry_same h hst trivial rfl
      | _ => cases hr
  | withdraw p sel =>
    cases hn with
    | more he => cases he
    | ret he hr =>
      cases he
      refine registry_withdraw h (fun x => Iff.rfl) hst ?_
      generalize (w.reg.unregister _ _ _).1 = e at hr
      cases e with
      | none =>
        cases hr
        exact fun _ => rfl
      | some e =>
        cases hr
        cases job.side with
        | send => exact fun _ => rfl
        | recv => exact unselected_calm sel none
  | recover p sel =>
    refine hn.registry_calm h hst trivial (fun _ => rfl) fun order r f' hr => ?_
    cases r with
    | msg m =>
      cases m with
      | none =>
        cases hr
        exact fun _ => rfl
      | some m =>
        cases hr
        exact unselected_calm sel _
    | _ => cases hr
  | waitReady p =>
    refine hn.registry_calm h hst trivial (fun _ => rfl) fun order r f' hr => ?_
    cases r with
    | unit =>
      cases hr
      split <;> exact fun _ => rfl
    | _ => cases hr
  | takeMsg p =>
    refine hn.registry_calm h hst trivial (fun _ => rfl) fun order r f' hr => ?_
    cases r with
    | msg m => cases m <;> cases hr <;> exact fun _ => rfl
    | _ => cases hr

/-- The handle is tried once more. At a zero channel where nobody waits, that queues a packet for a
    short pause. -/
theorem registry_first {handles : List Handle} {timeout : Timeout} {i : Nat}
    (hn : Next kind w t (.select handles timeout (.again i .first)) pr act f' pr')
    (h : w.reg.Ok st)
    (hst : st t = (select handles timeout (.again i .first) : Frame Tid T).stake kind pr) :
    (w.apply t act).reg.Ok (Function.update st t (f'.stake kind pr')) := by
  -- Only the section that finds no partner queues something, and it returns at once.
  have key : ∀ {rep : Reply Tid T} {spurious : Bool},
      w.exec t kind (onHandle handles i fun x => .retry x.chan x.side) pr spurious =
        some (act, rep) →
      (∃ x v, handles[i]? = some x ∧ act = .queue x.chan x.side v ∧
        rep = .ret (.queued w.fresh)) ∨ (act.Keeps ∧ ∀ p, rep ≠ .ret (.queued p)) := by
    intro rep spurious he
    unfold onHandle at he
    split at he
    · rcases Shared.retry_cases he with ⟨v, hact, hrep⟩ | hx
      · exact .inl ⟨_, v, ‹_›, hact, hrep⟩
      · exact .inr hx
    · cases he
  cases hn with
  | more he =>
    rcases key he with ⟨x, v, -, -, hrep⟩ | ⟨hact, -⟩
    · cases hrep
    · exact registry_stay h hst hact (g := .select handles timeout (.again i .first))
        (fun _ => rfl) pr'
  | ret he hr =>
    rename_i r
    rcases key he with ⟨x, v, hx, rfl, hrep⟩ | ⟨hact, hrep⟩
    · cases hrep
      cases hr
      convert Shared.queue_ok h (by rw [hst]; exact fun _ => id) v using 2
      refine holding_congr fun y => ⟨?_, fun hy => ⟨x, hx, hy⟩⟩
      rintro ⟨x', hx', hy⟩
      obtain rfl : x = x' := Option.some.inj (hx.symm.trans hx')
      exact hy
    · cases r with
      | token tk => exact registry_stay h hst hact (choose_calm hr) .start
      | failed =>
        cases hr
        exact registry_stay h hst hact (nextHandle_calm (fun _ _ => rfl) fun _ => rfl) .start
      | queued p => exact absurd rfl (hrep p)
      | _ => cases hr

/-- The pause was in vain, and the packet is taken back out of the queue. -/
theorem registry_retryWithdraw {handles : List Handle} {timeout : Timeout} {i p : Nat}
    {sel : Selected Tid}
    (hn : Next kind w t (.select handles timeout (.again i (.withdraw p sel))) pr act f' pr')
    (h : w.reg.Ok st)
    (hst : st t = (select handles timeout (.again i (.withdraw p sel)) : Frame Tid T).stake kind pr) :
    (w.apply t act).reg.Ok (Function.update st t (f'.stake kind pr')) := by
  have key : ∀ {rep : Reply Tid T} {spurious : Bool},
      w.exec t kind (onHandle handles i fun x => .withdraw x.chan x.side) pr spurious =
        some (act, rep) →
      ∃ x e, handles[i]? = some x ∧ act = .unregister x.chan x.side 0 ∧ rep = .ret (.removed e) := by
    intro rep spurious he
    unfold onHandle at he
    split at he
    · cases he
      exact ⟨_, _, ‹_›, rfl, rfl⟩
    · cases he
  cases hn with
  | more he =>
    obtain ⟨x, e, -, -, hrep⟩ := key he
    cases hrep
  | ret he hr =>
    obtain ⟨x, e, hx, rfl, hrep⟩ := key he
    cases hrep
    refine registry_withdraw h (fun y => ⟨?_, fun hy => ⟨x, hx, hy⟩⟩) hst ?_
    · rintro ⟨x', hx', hy⟩
      obtain rfl : x = x' := Option.some.inj (hx.symm.trans hx')
      exact hy
    · cases e <;> cases hr <;> exact fun _ => rfl

/-- The second round of tries, with the short pause of the zero flavor. -/
theorem registry_again {handles : List Handle} {timeout : Timeout} {i : Nat} {st' : RetryStage Tid}
    (hn : Next kind w t (.select handles timeout (.again i st')) pr act f' pr') (h : w.reg.Ok st)
    (hst : st t = (select handles timeout (.again i st') : Frame Tid T).stake kind pr) :
    (w.apply t act).reg.Ok (Function.update st t (f'.stake kind pr')) := by
  have next : (nextHandle handles timeout i (.again · .first) (select handles timeout .reset) :
      Frame Tid T).Calm kind := nextHandle_calm (fun _ _ => rfl) fun _ => rfl
  cases st' with
  | first => exact hn.registry_first h hst
  | pause p =>
    cases hn with
    | more he => cases he
    | ret he hr =>
      have hn := Next.ret he hr
      rename_i r
      cases r with
      | selected sel =>
        obtain ⟨hsel, hne⟩ := Shared.abort_selected (Option.some.inj he)
        cases sel with
        | waiting => exact absurd rfl hne
        | operation op =>
          cases hr
          exact hn.registry_selected h hst trivial hsel rfl (fun x y => Pausing.eq) (fun _ => id)
            fun _ => ⟨rfl, fun _ hx => hx⟩
        | aborted | disconnected =>
          cases hr
          exact hn.registry_same h hst trivial rfl
      | _ => cases hr
  | withdraw p sel => exact hn.registry_retryWithdraw h hst
  | dropPacket p sel =>
    refine hn.registry_calm h hst trivial (fun _ => rfl) fun order r f' hr => ?_
    cases r with
    | unit =>
      cases sel with
      | disconnected => exact choose_calm hr
      | _ =>
        cases hr
        exact next
    | _ => cases sel <;> cases hr
  | packet =>
    cases hn with
    | more he => exact (Next.more he).registry_same h hst trivial rfl
    | ret he hr =>
      have hn := Next.ret he hr
      rename_i r
      cases r with
      | token tk =>
        have hcalm : Calm kind _ := choose_calm hr
        refine hn.registry_keep h hst trivial ?_ (fun _ x hx _ => hx.elim) ?_
        · rw [hcalm .start]
          exact fun _ hx => hx
        · rw [hcalm]
          intro hin
          cases hin
      | _ => cases hr

theorem onHandle_keeps {handles : List Handle} {i : Nat} {g : Handle → Call T}
    (hg : ∀ x, (g x).Keeps) : (onHandle handles i g).Keeps := by
  unfold onHandle
  split
  · exact hg _
  · trivial

/-- After the last `unregister` nothing is registered any more. -/
theorem selectedNow_stake (t : Tid) (handles : List Handle) (timeout : Timeout)
    (sel : Selected Tid) :
    (selectedNow t handles timeout sel : Frame Tid T).stake kind .start = .outside ∨
      (selectedNow t handles timeout sel : Frame Tid T).stake kind .start =
        ⟨true, UpTo kind handles handles.length, fun _ => False⟩ := by
  unfold selectedNow
  split
  · exact .inl rfl
  · split
    · exact .inr rfl
    · exact .inl (roundOver_calm _ _ _)
  · exact .inl (roundOver_calm _ _ _)

omit [DecidableEq Tid] in
/-- Before the first `unregister` everything is still registered. -/
theorem unregister_zero {handles : List Handle} {timeout : Timeout} {count : Nat}
    (sel : Selected Tid) :
    (select handles timeout (.unregister 0 count sel) : Frame Tid T).stake kind .start =
      .holding (UpTo kind handles count) := by
  simp only [stake, Stake.holding, Stake.mk.injEq, true_and]
  funext x
  exact propext (and_iff_left_of_imp fun hx => hx.slot_pos.1)

/-- The next handle is registered; the ones before it stay so. -/
theorem registry_register {handles : List Handle} {timeout : Timeout} {i : Nat}
    (hn : Next kind w t (.select handles timeout (.register i)) pr act f' pr')
    (h : w.reg.Ok st)
    (hst : st t = (select handles timeout (.register i) : Frame Tid T).stake kind pr) :
    (w.apply t act).reg.Ok (Function.update st t (f'.stake kind pr')) := by
  -- The books after the step hold the registration of this handle, whether the call goes on or not.
  have key : ∀ {rep : Reply Tid T} {spurious : Bool},
      w.exec t kind (onHandle handles i fun x => .register x.chan x.side (i + 1)) pr spurious =
        some (act, rep) →
      (w.apply t act).reg.Ok (Function.update st t (.holding (UpTo kind handles (i + 1)))) ∧
        ∀ pr', rep = .more pr' → pr' = .start →
          ∀ y, UpTo kind handles (i + 1) y → UpTo kind handles i y := by
    intro rep spurious he
    unfold onHandle at he
    split at he
    · rename_i x hx
      have hplace : ∀ y, UpTo kind handles (i + 1) y ↔ UpTo kind handles i y ∨
          (kind x.chan).Queues x.side ∧ y = ⟨x.chan, x.side, i + 1⟩ := by
        intro y
        rw [UpTo.succ_iff]
        refine or_congr_right ⟨?_, fun hy => ⟨x, hx, hy⟩⟩
        rintro ⟨x', hx', hy⟩
        obtain rfl : x = x' := Option.some.inj (hx.symm.trans hx')
        exact hy
      have hmade : ∀ y, (st t).made y ↔ UpTo kind handles (if pr = .start then i else i + 1) y := by
        rw [hst]
        exact fun y => Iff.rfl
      have hmono : ∀ y, UpTo kind handles (if pr = .start then i else i + 1) y →
          UpTo kind handles (i + 1) y := by
        intro y
        refine UpTo.mono ?_
        split <;> omega
      refine ⟨Shared.register_ok h he (by rw [hst]; rfl) (fun hpr y hy => ?_) (fun hpr hq => ?_)
        (holding_ok fun y z hy hz heq => hy.eq hz heq) (fun y => ?_)
        (fun y hy => hmono y ((hmade y).mp hy)), ?_⟩
      · rw [hmade, if_pos hpr] at hy
        have := hy.slot_pos
        omega
      · rw [hst]
        change UpTo kind handles (if pr = .start then i else i + 1) _
        rw [if_neg hpr]
        exact (hplace _).mpr (.inr ⟨hq, rfl⟩)
      · rw [hst]
        change UpTo kind handles (i + 1) y ↔ _ ∨ UpTo kind handles (if pr = .start then i else i + 1) y
        rw [hplace y]
        split
        · exact or_comm
        · rw [hplace y]
          tauto
      · rintro pr' rfl hpr' y hy
        refine ((hplace y).mp hy).resolve_right fun hx => ?_
        exact Shared.register_more he hx.1 hpr'
    · cases he
  cases hn with
  | more he =>
    obtain ⟨hok, hmore⟩ := key he
    convert hok using 2
    refine holding_congr fun y => ?_
    split
    · exact ⟨UpTo.mono (Nat.le_succ i), hmore _ rfl ‹_› y⟩
    · exact Iff.rfl
  | ret he hr =>
    have hok := (key he).1
    rename_i r
    cases r with
    | flag ok =>
      cases hr
      cases ok <;> exact hok
    | _ => cases hr

/-- The next handle is unregistered; the ones behind it are registered still. -/
theorem registry_unregister {handles : List Handle} {timeout : Timeout} {i count : Nat}
    {sel : Selected Tid}
    (hn : Next kind w t (.select handles timeout (.unregister i count sel)) pr act f' pr')
    (h : w.reg.Ok st)
    (hst : st t = (select handles timeout (.unregister i count sel) : Frame Tid T).stake kind pr) :
    (w.apply t act).reg.Ok (Function.update st t (f'.stake kind pr')) := by
  have key : ∀ {rep : Reply Tid T} {spurious : Bool},
      w.exec t kind (onHandle handles i fun x => .unregister x.chan x.side (i + 1)) pr spurious =
        some (act, rep) →
      ∃ x, handles[i]? = some x ∧ w.unregister t kind x.chan x.side (i + 1) pr = (act, rep) := by
    intro rep spurious he
    unfold onHandle at he
    split at he
    · exact ⟨_, ‹_›, Option.some.inj he⟩
    · cases he
  cases hn with
  | more he =>
    obtain ⟨x, -, hu⟩ := key he
    obtain rfl := Shared.unregister_more hu
    have := h
    rwa [← Function.update_eq_self t st, hst] at this
  | ret he hr =>
    obtain ⟨x, hx, hu⟩ := key he
    -- Whatever the next place has registered, it is what was left without this handle.
    have off : ∀ s : Stake, s.Ok →
        (∀ y, s.left y ↔ UpTo kind handles count y ∧ i + 1 < y.slot) →
        (s.inside = true → ∀ y, UpTo kind handles count y → s.made y) →
        (w.apply t act).reg.Ok (Function.update st t s) := by
      intro s hs hleft hmade
      refine Shared.unregister_ok h hu (fun hy => ?_) hs (fun y => ?_) fun hin => ?_
      · rw [hst] at hy
        obtain ⟨j, x', -, hx', hq, heq⟩ := hy.1
        injection heq with hc hd hj
        rwa [hc, hd]
      · rw [hleft y, hst]
        change _ ↔ (UpTo kind handles count y ∧ i < y.slot) ∧ _
        rw [and_assoc]
        refine and_congr_right fun hy => ⟨fun hlt => ⟨by omega, ?_⟩, fun hlt => ?_⟩
        · rintro rfl
          exact absurd hlt (Nat.lt_irrefl _)
        · refine Nat.lt_of_le_of_ne hlt.1 fun heq => hlt.2 ?_
          obtain ⟨j, x', -, hx', -, rfl⟩ := hy
          obtain rfl : i = j := Nat.succ.inj heq
          obtain rfl : x = x' := Option.some.inj (hx.symm.trans hx')
          rfl
      · rw [hst]
        exact ⟨rfl, hmade hin⟩
    rename_i r
    cases r with
    | removed e =>
      cases hr
      split
      · exact off _ (stake_ok (.select handles timeout (.unregister (i + 1) count sel)) .start)
          (fun y => Iff.rfl) fun _ y hy => hy
      · have hnone : ∀ y, ¬ (UpTo kind handles count y ∧ i + 1 < y.slot) := by
          intro y hy
          have := hy.1.slot_pos
          omega
        rcases selectedNow_stake t handles timeout sel with hg | hg
        · rw [hg]
          exact off _ outside_ok (fun y => ⟨False.elim, hnone y⟩) fun hin => by cases hin
        · rw [hg]
          exact off _ ⟨fun y hy => hy.elim, fun y z hy hz heq => hy.eq hz heq, fun y hy => hy.elim⟩
            (fun y => ⟨False.elim, hnone y⟩) fun _ y => UpTo.full
    | _ => cases hr

/-- The handle that has been selected is accepted, when nothing is registered any more. -/
theorem registry_accept {handles : List Handle} {timeout : Timeout} {i : Nat}
    (hn : Next kind w t (.select handles timeout (.accept i)) pr act f' pr')
    (h : w.reg.Ok st)
    (hst : st t = (select handles timeout (.accept i) : Frame Tid T).stake kind pr) :
    (w.apply t act).reg.Ok (Function.update st t (f'.stake kind pr')) := by
  cases hn with
  | more he => exact (Next.more he).registry_same h hst (onHandle_keeps fun _ => trivial) rfl
  | ret he hr =>
    have hn := Next.ret he hr
    have calm : f'.Calm kind → (w.apply t act).reg.Ok (Function.update st t (f'.stake kind .start)) := by
      intro hcalm
      refine hn.registry_keep h hst (onHandle_keeps fun _ => trivial) ?_ (fun _ x hx _ => hx.elim) ?_
      · rw [hcalm .start]
        exact fun _ hx => hx
      · rw [hcalm]
        intro hin
        cases hin
    rename_i r
    cases r with
    | token tk => exact calm (choose_calm hr)
    | failed =>
      cases hr
      exact calm (roundOver_calm handles timeout)
    | _ => cases hr

/-- The rest of `run_select`. -/
theorem registry_select {handles : List Handle} {timeout : Timeout} {st' : SelectStage Tid}
    (hn : Next kind w t (.select handles timeout st') pr act f' pr') (h : w.reg.Ok st)
    (hst : st t = (select handles timeout st' : Frame Tid T).stake kind pr) :
    (w.apply t act).reg.Ok (Function.update st t (f'.stake kind pr')) := by
  cases st' with
  | again i st'' => exact hn.registry_again h hst
  | shuffle =>
    refine hn.registry_calm h hst trivial (fun _ => rfl) fun order r f' hr => ?_
    cases r with
    | unit =>
      simp only [resume, selectResume] at hr
      split at hr <;> cases hr
      exact fun _ => rfl
    | _ => cases hr
  | shuffleNow =>
    refine hn.registry_calm h hst trivial (fun _ => rfl) fun order r f' hr => ?_
    cases r with
    | unit =>
      simp only [resume, selectResume] at hr
      split at hr <;> cases hr
      exact fun _ => rfl
    | _ => cases hr
  | attempt i =>
    refine hn.registry_calm h hst (onHandle_keeps fun _ => trivial) (fun _ => rfl)
      fun order r f' hr => ?_
    cases r with
    | token tk => exact choose_calm hr
    | failed =>
      cases hr
      exact nextHandle_calm (fun _ _ => rfl) fun _ => rfl
    | _ => cases hr
  | probe i states =>
    refine hn.registry_calm h hst (onHandle_keeps fun _ => trivial) (fun _ => rfl)
      fun order r f' hr => ?_
    cases r with
    | token tk => exact choose_calm hr
    | failed =>
      cases hr
      exact nextHandle_calm (fun _ _ => rfl) (probed_calm _ _ _)
    | _ => cases hr
  | reset =>
    have hreset := Shared.reset_ok h (t := t) (by rw [hst]; exact fun _ => id)
    cases hn with
    | more he => cases he
    | ret he hr =>
      cases he
      cases hr
      convert hreset using 2
      exact holding_congr fun x => ⟨not_upTo_zero, False.elim⟩
  | register i => exact hn.registry_register h hst
  | abort i =>
    refine hn.registry_same h hst trivial ?_
    cases hn with
    | more he => rfl
    | ret he hr =>
      rename_i r
      cases r with
      | selected sel =>
        cases hr
        exact unregister_zero _
      | _ => cases hr
  | selected i =>
    refine hn.registry_same h hst trivial ?_
    cases hn with
    | more he => rfl
    | ret he hr =>
      rename_i r
      cases r with
      | selected sel =>
        cases hr
        split
        · unfold nextHandle
          split
          · rfl
          · refine holding_congr fun x => ⟨UpTo.mono (by omega), UpTo.full⟩
        · exact unregister_zero _
      | _ => cases hr
  | deadline i acc =>
    refine hn.registry_same h hst (onHandle_keeps fun _ => trivial) ?_
    cases hn with
    | more he => rfl
    | ret he hr =>
      rename_i r
      cases r with
      | instant x =>
        cases hr
        unfold nextHandle
        split <;> rfl
      | _ => cases hr
  | wait deadline =>
    refine hn.registry_same h hst trivial ?_
    cases hn with
    | more he => rfl
    | ret he hr =>
      rename_i r
      cases r with
      | selected sel =>
        cases hr
        exact unregister_zero _
      | _ => cases hr
  | unregister i count sel => exact hn.registry_unregister h hst
  | accept i => exact hn.registry_accept h hst
  | timeCheck when =>
    refine hn.registry_calm h hst trivial (fun _ => rfl) fun order r f' hr => ?_
    cases r with
    | nat now =>
      cases hr
      split
      · exact nowStart_calm handles
      · exact loopStart_calm handles timeout
    | _ => cases hr
  | snapshot states =>
    refine hn.registry_calm h hst (onHandle_keeps fun _ => trivial) (fun _ => rfl)
      fun order r f' hr => ?_
    cases r with
    | nat v =>
      cases hr
      split <;> exact fun _ => rfl
    | _ => cases hr
  | recheck states current changed =>
    refine hn.registry_calm h hst (onHandle_keeps fun _ => trivial) (fun _ => rfl)
      fun order r f' hr => ?_
    cases r with
    | nat v =>
      cases hr
      exact rechecked_calm _ _ _ _ _
    | _ => cases hr
  | sleep until_ =>
    refine hn.registry_calm h hst trivial (fun _ => rfl) fun order r f' hr => ?_
    cases r with
    | nat now =>
      cases hr
      split <;> exact fun _ => rfl
    | _ => cases hr

/-- Completing an operation. -/
theorem registry_finish {job : Job T} {st' : FinishStage T}
    (hn : Next kind w t (.finish job st') pr act f' pr') (h : w.reg.Ok st)
    (hst : st t = (finish job st' : Frame Tid T).stake kind pr) :
    (w.apply t act).reg.Ok (Function.update st t (f'.stake kind pr')) := by
  refine hn.registry_calm h hst ?_ (fun _ => rfl) fun order r f' hr => ?_
  · cases st' with
    | complete =>
      obtain ⟨c, msg⟩ := job
      cases msg <;> trivial
    | storeMsg p =>
      obtain ⟨c, msg⟩ := job
      cases msg <;> trivial
    | _ => trivial
  · simp only [resume, finishResume] at hr
    split at hr
    · exact completed_calm hr
    all_goals cases hr
    all_goals exact fun _ => rfl

/-- `disconnect`. -/
theorem registry_close {c : Nat} {d : Side} {st' : CloseStage}
    (hn : Next kind w t (.close c d st') pr act f' pr') (h : w.reg.Ok st)
    (hst : st t = (close c d st' : Frame Tid T).stake kind pr) :
    (w.apply t act).reg.Ok (Function.update st t (f'.stake kind pr')) := by
  refine hn.registry_calm h hst ?_ (fun _ => rfl) fun order r f' hr => ?_
  · cases st' <;> trivial
  · simp only [resume, closeResume] at hr
    repeat' split at hr
    all_goals cases hr
    all_goals exact fun _ => rfl

/-- **A step of any body keeps the books of the registry.** -/
theorem registry (hn : Next kind w t f pr act f' pr') (h : w.reg.Ok st)
    (hst : st t = f.stake kind pr) :
    (w.apply t act).reg.Ok (Function.update st t (f'.stake kind pr')) := by
  cases f with
  | plain job mode st' => exact hn.registry_plain h hst
  | zero job mode st' => exact hn.registry_zero h hst
  | finish job st' => exact hn.registry_finish h hst
  | select handles timeout st' => exact hn.registry_select h hst
  | close c d st' => exact hn.registry_close h hst
  | timer c mode =>
    refine hn.registry_calm h hst ?_ (fun _ => rfl) fun order r f' hr => ?_
    · cases mode <;> trivial
    · simp only [resume, timerResume] at hr
      repeat' split at hr
      all_goals cases hr
      all_goals exact fun _ => rfl
  | done out => cases hn with | more he => cases he | ret he => cases he
  | chosen x tk => cases hn with | more he => cases he | ret he => cases he
  | panicked => cases hn with | more he => cases he | ret he => cases he

end Frame.Next

end CrossbeamChannel
