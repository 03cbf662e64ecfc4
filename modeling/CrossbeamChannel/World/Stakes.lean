import CrossbeamChannel.World.Step
import CrossbeamChannel.World.Registry

/-!
# The registrations of an operation

Where an operation stands determines what its thread has registered: `Frame.stake`. The
bodies of the operations keep the books of the registry in order, whatever the other threads
do: `registry_ok`.

A blocking `send` or `recv` hooks its operation to its token (`Operation::hook(token)`, `array.rs` 389):
slot 0. `run_select` hooks the place of each handle in its list (`select.rs` 280): slot
`i + 1`. The short pause of the zero flavor hooks the token again, and is over before the loop of
registrations begins, so slot 0 is free for it. This is why the names of what one thread has registered
are distinct, without any assumption about addresses.

`register` puts the entry into the queue first and looks at the channel afterwards, so in the middle of a
call the stake depends on how far the call has come: that is the argument `pr` of `Frame.stake`.
-/

namespace CrossbeamChannel

variable {Tid T : Type}

/-- Operations on this side of the channel enter a queue to wait. -/
def Kind.Queues : Kind T → Side → Prop
  | .array _ _, _ | .zero, _ => True
  | .list, d => d = .recv
  | .after _, _ | .tick _ _, _ | .never, _ => False

namespace Frame

/-- The registration of `send` or `recv` of a buffered channel. -/
def Alone (kind : Nat → Kind T) (c : Nat) (d : Side) (x : Place) : Prop :=
  (kind c).Queues d ∧ x = ⟨c, d, 0⟩

/-- The registrations of the first `n` handles of a select. -/
def UpTo (kind : Nat → Kind T) (handles : List Handle) (n : Nat) (x : Place) : Prop :=
  ∃ j h, j < n ∧ handles[j]? = some h ∧ (kind h.chan).Queues h.side ∧
    x = ⟨h.chan, h.side, j + 1⟩

/-- The registration of the short pause of the `i`-th handle. -/
def Pausing (handles : List Handle) (i : Nat) (x : Place) : Prop :=
  ∃ h, handles[i]? = some h ∧ x = ⟨h.chan, h.side, 0⟩

/-- What a thread at this place has registered. -/
def stake (kind : Nat → Kind T) : Frame Tid T → Prog → Stake
  | .plain job _ .register, pr =>
      .holding fun x => pr ≠ .start ∧ Alone kind job.chan job.side x
  | .plain job _ .abort, _ | .plain job _ .wait, _ | .plain job _ .unregister, _ =>
      .holding (Alone kind job.chan job.side)
  | .zero job _ (.wait _), _ | .zero job _ (.withdraw _ _), _ =>
      .holding (· = ⟨job.chan, job.side, 0⟩)
  | .select handles _ (.again i (.pause _)), _
  | .select handles _ (.again i (.withdraw _ _)), _ => .holding (Pausing handles i)
  | .select handles _ (.again i .packet), _ => ⟨true, Pausing handles i, fun _ => False⟩
  | .select handles _ (.register i), pr =>
      .holding (UpTo kind handles (if pr = .start then i else i + 1))
  | .select handles _ (.abort i), _ | .select handles _ (.selected i), _ =>
      .holding (UpTo kind handles (i + 1))
  | .select handles _ (.deadline _ _), _ | .select handles _ (.wait _), _ =>
      .holding (UpTo kind handles handles.length)
  | .select handles _ (.unregister i count _), _ =>
      ⟨true, UpTo kind handles count, fun x => UpTo kind handles count x ∧ i < x.slot⟩
  | .select handles _ (.accept _), _ =>
      ⟨true, UpTo kind handles handles.length, fun _ => False⟩
  | _, _ => .outside

variable {kind : Nat → Kind T}

theorem UpTo.mono {handles : List Handle} {m n : Nat} (hmn : m ≤ n) {x : Place}
    (h : UpTo kind handles m x) : UpTo kind handles n x := by
  obtain ⟨j, h, hj, hx⟩ := h
  exact ⟨j, h, by omega, hx⟩

theorem UpTo.full {handles : List Handle} {n : Nat} {x : Place} (h : UpTo kind handles n x) :
    UpTo kind handles handles.length x := by
  obtain ⟨j, h, -, hj, hx⟩ := h
  exact ⟨j, h, (List.getElem?_eq_some_iff.mp hj).1, hj, hx⟩

theorem UpTo.slot_pos {handles : List Handle} {n : Nat} {x : Place} (h : UpTo kind handles n x) :
    0 < x.slot ∧ x.slot ≤ n := by
  obtain ⟨j, h, hj, -, -, rfl⟩ := h
  exact ⟨Nat.succ_pos j, hj⟩

theorem UpTo.eq {handles : List Handle} {m n : Nat} {x y : Place} (hx : UpTo kind handles m x)
    (hy : UpTo kind handles n y) (h : x.slot = y.slot) : x = y := by
  obtain ⟨j, hj, -, hgj, -, rfl⟩ := hx
  obtain ⟨k, hk, -, hgk, -, rfl⟩ := hy
  obtain rfl : j = k := Nat.succ.inj h
  obtain rfl : hj = hk := Option.some.inj (hgj.symm.trans hgk)
  rfl

theorem Pausing.eq {handles : List Handle} {i : Nat} {x y : Place} (hx : Pausing handles i x)
    (hy : Pausing handles i y) : x = y := by
  obtain ⟨h, hi, rfl⟩ := hx
  obtain ⟨h', hi', rfl⟩ := hy
  obtain rfl : h = h' := Option.some.inj (hi.symm.trans hi')
  rfl

theorem UpTo.succ_iff {handles : List Handle} {i : Nat} {x : Place} :
    UpTo kind handles (i + 1) x ↔ UpTo kind handles i x ∨
      ∃ h, handles[i]? = some h ∧ (kind h.chan).Queues h.side ∧ x = ⟨h.chan, h.side, i + 1⟩ := by
  constructor
  · rintro ⟨j, h, hj, hx⟩
    rcases Nat.lt_succ_iff_lt_or_eq.mp hj with hlt | rfl
    · exact .inl ⟨j, h, hlt, hx⟩
    · exact .inr ⟨h, hx⟩
  · rintro (⟨j, h, hj, hx⟩ | ⟨h, hx⟩)
    · exact ⟨j, h, Nat.lt_succ_of_lt hj, hx⟩
    · exact ⟨i, h, Nat.lt_succ_self i, hx⟩

theorem not_upTo_zero {handles : List Handle} {x : Place} : ¬ UpTo kind handles 0 x := by
  rintro ⟨j, h, hj, -⟩
  exact absurd hj (Nat.not_lt_zero j)

theorem holding_congr {P Q : Place → Prop} (h : ∀ x, P x ↔ Q x) :
    Stake.holding P = Stake.holding Q := by
  rw [show P = Q from funext fun x => propext (h x)]

theorem holding_ok {P : Place → Prop} (h : ∀ x y, P x → P y → x.slot = y.slot → x = y) :
    (Stake.holding P).Ok :=
  ⟨fun _ hx => hx, h, fun _ _ => rfl⟩

theorem outside_ok : Stake.outside.Ok := ⟨fun _ hx => hx, fun _ _ hx => hx.elim, fun _ hx => hx.elim⟩

theorem stake_ok (f : Frame Tid T) (pr : Prog) : (f.stake kind pr).Ok := by
  have alone : ∀ {c d} {x y : Place}, Alone kind c d x → Alone kind c d y → x = y :=
    fun hx hy => hx.2.trans hy.2.symm
  unfold stake
  split
  · exact holding_ok fun x y hx hy _ => alone hx.2 hy.2
  · exact holding_ok fun x y hx hy _ => alone hx hy
  · exact holding_ok fun x y hx hy _ => alone hx hy
  · exact holding_ok fun x y hx hy _ => alone hx hy
  · exact holding_ok fun x y hx hy _ => Eq.trans hx (Eq.symm hy)
  · exact holding_ok fun x y hx hy _ => Eq.trans hx (Eq.symm hy)
  · exact holding_ok fun x y hx hy _ => hx.eq hy
  · exact holding_ok fun x y hx hy _ => hx.eq hy
  · exact ⟨fun _ hx => hx.elim, fun x y hx hy _ => hx.eq hy, fun _ hx => hx.elim⟩
  · exact holding_ok fun x y hx hy heq => hx.eq hy heq
  · exact holding_ok fun x y hx hy heq => hx.eq hy heq
  · exact holding_ok fun x y hx hy heq => hx.eq hy heq
  · exact holding_ok fun x y hx hy heq => hx.eq hy heq
  · exact holding_ok fun x y hx hy heq => hx.eq hy heq
  · exact ⟨fun _ hx => hx.1, fun x y hx hy heq => hx.eq hy heq, fun _ _ => rfl⟩
  · exact ⟨fun _ hx => hx.elim, fun x y hx hy heq => hx.eq hy heq, fun _ hx => hx.elim⟩
  · exact outside_ok

end Frame

/-! ## Calls that register nothing -/

/-- The step neither registers nor unregisters anything for its thread. -/
def Act.Keeps : Act Tid T → Prop
  | .register _ _ _ | .unregister _ _ _ | .offer _ _ _ | .queue _ _ _ | .reset => False
  | _ => True

/-- A call all of whose steps are such steps. -/
def Call.Keeps : Call T → Prop
  | .register _ _ _ | .unregister _ _ _ | .withdraw _ _ | .retry _ _ | .reset => False
  | .pair _ _ offer => offer = Option.none
  | _ => True

namespace Shared

variable [DecidableEq Tid] {w : Shared Tid T} {t : Tid} {kind : Nat → Kind T}
  {act : Act Tid T} {rep : Reply Tid T} {st : Tid → Stake}

theorem apply_ok (h : w.reg.Ok st) (hk : act.Keeps) : (w.apply t act).reg.Ok st := by
  cases act with
  | wakeOne c d => exact h.wakeOne c d
  | disconnect c d => exact h.disconnect c d
  | disconnectZero c => exact (h.disconnect c .send).disconnect c .recv
  | abort => exact h.abort
  | silent | drive _ _ _ _ | setReceived _ | takeTick _ _ | setPacket _ _ => exact h
  | register _ _ _ | unregister _ _ _ | offer _ _ _ | queue _ _ _ | reset => exact hk.elim

theorem drive_act {c : Nat} {k : BufferCall T} {pr : Prog} {spurious : Bool}
    {f : Answer T → Reply Tid T} (h : w.drive t c k pr spurious f = some (act, rep)) :
    ∃ b a, (w.buffer c).drive t k spurious = some (b, a) ∧ act = .drive c k b a ∧
      rep = match a with
        | some a => f a
        | none => .more pr := by
  obtain ⟨⟨b, a⟩, hd, heq⟩ := Option.map_eq_some_iff.mp h
  cases heq
  exact ⟨b, a, hd, rfl, rfl⟩

theorem drive_keeps {c : Nat} {k : BufferCall T} {pr : Prog} {spurious : Bool}
    {f : Answer T → Reply Tid T} (h : w.drive t c k pr spurious f = some (act, rep)) :
    act.Keeps := by
  obtain ⟨b, a, -, rfl, -⟩ := drive_act h
  trivial

theorem pair_keeps {c : Nat} {d : Side} (h : w.pair t c d none = (act, rep)) : act.Keeps := by
  unfold pair at h
  split at h
  · cases h
    trivial
  · split at h <;> cases h <;> trivial

theorem start_keeps {c : Nat} {d : Side} {pr : Prog} {spurious : Bool}
    (h : w.start t kind c d pr spurious = some (act, rep)) : act.Keeps := by
  unfold start at h
  split at h
  · exact drive_keeps h
  · exact drive_keeps h
  · exact pair_keeps (Option.some.inj h)
  · unfold tryAfter at h
    split at h <;> cases h <;> trivial
  · unfold tryTick at h
    split at h <;> cases h <;> trivial
  · cases h
    trivial

theorem exec_keeps {call : Call T} {pr : Prog} {spurious : Bool} (hc : call.Keeps)
    (h : w.exec t kind call pr spurious = some (act, rep)) : act.Keeps := by
  cases call with
  | start c d => exact start_keeps h
  | accept c d =>
    simp only [exec, accept] at h
    split at h
    · cases h
      trivial
    · exact start_keeps h
  | write c msg | read c | setDisconnected c => exact drive_keeps h
  | wakeOne c d =>
    simp only [exec, wakeOneSync] at h
    split at h <;> cases h <;> trivial
  | pair c d offer =>
    obtain rfl : offer = none := hc
    exact pair_keeps (Option.some.inj h)
  | disconnectZero c =>
    simp only [exec] at h
    cases h
    split <;> trivial
  | waitUntil deadline =>
    simp only [exec, waitUntil] at h
    split at h <;> cases h <;> trivial
  | recvTimer c deadline =>
    simp only [exec, recvTimer] at h
    split at h
    case h_7 => split at h <;> cases h <;> trivial
    all_goals cases h <;> trivial
  | register _ _ _ | unregister _ _ _ | withdraw _ _ | retry _ _ | reset => exact hc.elim
  | none => cases h
  | _ =>
    cases h
    trivial

end Shared

/-! ## One step of a body -/

/-- One atomic step of thread `t` in the body of its operation, from `f`, `pr` to `f'`, `pr'`. -/
inductive Frame.Next [DecidableEq Tid] (kind : Nat → Kind T) (w : Shared Tid T) (t : Tid)
    (f : Frame Tid T) (pr : Prog) (act : Act Tid T) : Frame Tid T → Prog → Prop where
  | more {spurious : Bool} {pr' : Prog}
      (h : w.exec t kind f.call pr spurious = some (act, .more pr')) : Next kind w t f pr act f pr'
  | ret {spurious : Bool} {order : List Handle} {r : Ret Tid T} {f' : Frame Tid T}
      (h : w.exec t kind f.call pr spurious = some (act, .ret r))
      (hf : f.resume kind t order r = some f') : Next kind w t f pr act f' .start

namespace Frame

variable {kind : Nat → Kind T}

/-- The call behind a step of a body, and where the body goes when it returns. -/
theorem Next.exec [DecidableEq Tid] {w : Shared Tid T} {t : Tid} {act : Act Tid T}
    {f g : Frame Tid T} {pr pr' : Prog} (h : Next kind w t f pr act g pr') :
    ∃ spurious rep, w.exec t kind f.call pr spurious = some (act, rep) ∧
      (∀ pr'', rep = .more pr'' → g = f ∧ pr' = pr'') ∧
      ∀ r, rep = .ret r → pr' = .start ∧ ∃ order, f.resume kind t order r = some g := by
  cases h with
  | more he =>
    refine ⟨_, _, he, ?_, ?_⟩
    · intro pr'' heq
      cases heq
      exact ⟨rfl, rfl⟩
    · intro r heq
      cases heq
  | ret he hr =>
    refine ⟨_, _, he, ?_, ?_⟩
    · intro pr'' heq
      cases heq
    · intro r heq
      cases heq
      exact ⟨rfl, _, hr⟩

/-- At this place nothing is registered. -/
def Calm (kind : Nat → Kind T) (f : Frame Tid T) : Prop := ∀ pr, f.stake kind pr = .outside

theorem finishWith_calm (job : Job T) (tk : Token) :
    (finishWith kind job tk : Frame Tid T).Calm kind := by
  intro pr
  unfold finishWith
  split
  · rfl
  · split <;> rfl
  · split <;> rfl
  · rfl

theorem plainFailed_calm (job : Job T) (mode : Mode) (n : Nat) :
    (plainFailed kind job mode n : Frame Tid T).Calm kind := by
  intro pr
  unfold plainFailed
  split
  · rfl
  · rfl
  · split <;> rfl

theorem plainWaited_calm (job : Job T) (mode : Mode) (woken : Bool) :
    (plainWaited job mode woken : Frame Tid T).Calm kind := by
  intro pr
  unfold plainWaited
  split <;> rfl

theorem unselected_calm (sel : Selected Tid) (msg : Option T) : (unselected sel msg).Calm kind := by
  intro pr
  unfold unselected
  split <;> rfl

theorem completed_calm {job : Job T} {a : Answer T} {f : Frame Tid T}
    (h : completed kind job a = some f) : f.Calm kind := by
  intro pr
  unfold completed at h
  split at h
  · cases h
    rfl
  · cases h
    rfl
  · split at h <;> cases h <;> rfl
  · cases h
    rfl
  · cases h

theorem loopStart_calm (handles : List Handle) (timeout : Timeout) :
    (loopStart handles timeout : Frame Tid T).Calm kind := by
  intro pr
  unfold loopStart
  split <;> rfl

theorem nowStart_calm (handles : List Handle) : (nowStart handles : Frame Tid T).Calm kind := by
  intro pr
  unfold nowStart
  split <;> rfl

theorem roundOver_calm (handles : List Handle) (timeout : Timeout) :
    (roundOver handles timeout : Frame Tid T).Calm kind := by
  intro pr
  unfold roundOver
  split
  · rfl
  · exact loopStart_calm _ _ _
  · rfl

theorem probed_calm (handles : List Handle) (timeout : Timeout) (states : Option (List Nat)) :
    (probed handles timeout states : Frame Tid T).Calm kind := by
  intro pr
  unfold probed
  split <;> rfl

theorem rechecked_calm (handles : List Handle) (timeout : Timeout) (states current : List Nat)
    (changed : Bool) : (rechecked handles timeout states current changed : Frame Tid T).Calm kind := by
  intro pr
  unfold rechecked
  repeat' split
  all_goals rfl

theorem choose_calm {handles : List Handle} {i : Nat} {tk : Token} {f : Frame Tid T}
    (h : choose handles i tk = some f) : f.Calm kind := by
  obtain ⟨h, -, rfl⟩ := Option.map_eq_some_iff.mp h
  intro pr
  rfl

theorem nextHandle_calm {handles : List Handle} {timeout : Timeout} {i : Nat}
    {g : Nat → SelectStage Tid} {last : Frame Tid T}
    (hg : ∀ j, (select handles timeout (g j) : Frame Tid T).Calm kind) (hl : last.Calm kind) :
    (nextHandle handles timeout i g last).Calm kind := by
  unfold nextHandle
  split
  · exact hg _
  · exact hl

theorem over_calm {f : Frame Tid T} (h : f.ended = true) : f.Calm kind := by
  intro pr
  cases f with
  | done out => rfl
  | panicked => rfl
  | _ => cases h

end Frame

/-! ## What a thread learns of its context -/

namespace Shared

variable [DecidableEq Tid] {w : Shared Tid T} {t : Tid} {kind : Nat → Kind T}
  {act : Act Tid T} {sel : Selected Tid}

theorem abort_selected (h : w.abort t = (act, .ret (.selected sel))) :
    ((w.apply t act).reg.cx t).select = sel ∧ sel ≠ .waiting := by
  obtain ⟨hact, hrep⟩ := Prod.mk.inj h
  subst hact
  simp only [Reply.ret.injEq, Ret.selected.injEq] at hrep
  simp only [apply, Registry.abort, Function.update_self]
  split at hrep
  · rename_i hw
    rw [Context.trySelect_waiting hw]
    subst hrep
    exact ⟨rfl, by simp⟩
  · rename_i hw
    rw [Context.trySelect_decided hw]
    subst hrep
    exact ⟨rfl, hw⟩

theorem orSelected_selected {pr : Prog} (h : w.orSelected t pr = .ret (.selected sel)) :
    (w.reg.cx t).select = sel ∧ sel ≠ .waiting := by
  unfold orSelected at h
  split at h
  · cases h
  · rename_i hw
    cases h
    exact ⟨rfl, hw⟩

/-- `wait_until` returns what the context says, and never `Waiting`. -/
theorem waitUntil_selected {deadline : Option Nat} {pr : Prog}
    (h : w.waitUntil t deadline pr = some (act, .ret (.selected sel))) :
    ((w.apply t act).reg.cx t).select = sel ∧ sel ≠ .waiting := by
  unfold waitUntil at h
  split at h
  · obtain ⟨rfl, hrep⟩ := Prod.mk.inj (Option.some.inj h)
    exact orSelected_selected hrep
  · obtain ⟨rfl, hrep⟩ := Prod.mk.inj (Option.some.inj h)
    exact orSelected_selected hrep
  · obtain ⟨rfl, hrep⟩ := Prod.mk.inj (Option.some.inj h)
    exact orSelected_selected hrep
  · cases h
  · cases h
  · exact abort_selected (Option.some.inj h)
  · cases h

omit [DecidableEq Tid] in
/-- A thread that looks at its context after its step sees the operation that was selected:
    one it has registered. -/
theorem gone_of_selected {st : Tid → Stake} (h : w.reg.Ok st) (hin : (st t).inside = true)
    {op : Operation Tid} (hsel : (w.reg.cx t).select = .operation op) :
    ∃ x, (st t).made x ∧ op = x.oper t ∧ w.reg.Gone t x := by
  obtain ⟨rfl, x, hx, hslot⟩ := h.hit t op hsel hin
  have hop : op = x.oper op.thread := by rw [Place.oper, hslot]
  exact ⟨x, hx, hop, h.gone_of_hit (hop ▸ hsel)⟩

end Shared

namespace Frame.Next

variable [DecidableEq Tid] {w : Shared Tid T} {t : Tid} {kind : Nat → Kind T}
  {act : Act Tid T} {f f' : Frame Tid T} {pr pr' : Prog} {st : Tid → Stake}

/-- A step with a call that registers nothing, after which no more is registered. -/
theorem registry_keep (hn : Next kind w t f pr act f' pr') (h : w.reg.Ok st)
    (hst : st t = f.stake kind pr) (hc : f.call.Keeps)
    (hleft : ∀ x, (f'.stake kind pr').left x → (f.stake kind pr).left x)
    (hgone : (w.apply t act).reg.Ok st → ∀ x, (f.stake kind pr).left x →
      ¬ (f'.stake kind pr').left x → (w.apply t act).reg.Gone t x)
    (hmade : (f'.stake kind pr').inside = true → (f.stake kind pr).inside = true ∧
      ∀ x, (f.stake kind pr).made x → (f'.stake kind pr').made x) :
    (w.apply t act).reg.Ok (Function.update st t (f'.stake kind pr')) := by
  have hact : act.Keeps := by
    cases hn with
    | more he => exact Shared.exec_keeps hc he
    | ret he => exact Shared.exec_keeps hc he
  have hok := Shared.apply_ok (t := t) h hact
  exact hok.restake (stake_ok f' pr') (by rwa [hst]) (by rw [hst]; exact hgone hok) (by rwa [hst])

/-- A step that leaves the registrations as they are. -/
theorem registry_same (hn : Next kind w t f pr act f' pr') (h : w.reg.Ok st)
    (hst : st t = f.stake kind pr) (hc : f.call.Keeps)
    (heq : f'.stake kind pr' = f.stake kind pr) :
    (w.apply t act).reg.Ok (Function.update st t (f'.stake kind pr')) := by
  have hact : act.Keeps := by
    cases hn with
    | more he => exact Shared.exec_keeps hc he
    | ret he => exact Shared.exec_keeps hc he
  rw [heq, ← hst, Function.update_eq_self]
  exact Shared.apply_ok h hact

end Frame.Next

end CrossbeamChannel
