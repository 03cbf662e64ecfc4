import CrossbeamChannel.World.Agents
import CrossbeamChannel.World.Selections

/-!
# What a disconnected channel is like

The drop of the last handle of a side disconnects a channel, so one side of a disconnected channel is
gone: `World.severed_of_reachable`. The senders are told of it at once. The receivers are told when
nothing is left to be received, and then nothing ever will be: `World.Shut`. Nobody is told before:
`World.Truthful`.

`start_recv` reports the disconnection when the slot at `head` is not ready, `tail` is there as well, and
the flag is set (`array.rs` 313-332, `list.rs` 291-310). A sender that has already moved `tail` but has
not written yet keeps the channel from looking empty. For the receivers `Shut` says therefore that the
senders are gone, not only that the flag is set: `disconnect` may also be run by the last receiver. A
message in a context, a local variable or a token may be older than the present state, so `Informed`
covers each place where a body carries one along.
-/

namespace CrossbeamChannel

variable {Tid T : Type}

namespace Phase

variable {cap : Option Nat} {v v' : View} {p p' : Phase T} {k : BufferCall T} {r : Option (Answer T)}
  {d : Side}

/-- The positions move one at a time, by the CAS. -/
theorem Drive.counts (h : Drive cap k v p v' p' r) :
    (v'.sends = v.sends ∧ v'.recvs = v.recvs) ∨ ∃ d, p = .trying d ∧ v' = v.take d := by
  cases h with
  | enter _ | answer _ => exact .inl ⟨rfl, rfl⟩
  | run hs =>
    cases hs with
    | take _ => exact .inr ⟨_, rfl, rfl⟩
    | _ => exact .inl ⟨rfl, rfl⟩

/-- The thread has been told that operations of this side come to nothing. -/
def Informed (d : Side) : Phase T → Prop
  | .null d' => d' = d
  | .unsent _ => d = .send
  | .unread => d = .recv
  | _ => False

/-- A sender is told when it has seen the flag, and a receiver when it has also seen that the channel is
    empty. -/
theorem Drive.informed (h : Drive cap k v p v' p' r) (hp' : p'.Informed d) :
    p.Informed d ∨ v' = v ∧ ((d = .send ∧ p = .fresh ∧ v.isDisconnected = true) ∨
      d = .recv ∧ p = .gone ∧ v.Unavailable cap .recv) := by
  cases h with
  | enter he =>
    left
    unfold Phase.enter at he
    split at he <;> cases he <;> first | exact hp'.elim | exact Eq.symm hp'
  | answer _ =>
    left
    cases p <;> first | exact hp'.elim | exact hp'
  | run hs =>
    cases hs with
    | stay => exact .inl hp'
    | closed hv => exact .inr ⟨rfl, .inl ⟨Eq.symm hp', rfl, hv⟩⟩
    | null hv => exact .inr ⟨rfl, .inr ⟨Eq.symm hp', rfl, hv⟩⟩
    | take ht => rcases ht with rfl | rfl <;> exact hp'.elim
    | _ => exact hp'.elim

/-- `write` and `read` return an error to whom has been told. -/
theorem informed_of_answer {a : Answer T} (h : p.answer k = some a) :
    (∀ m, a = .unsent m → p.Informed .send ∧ k ≠ .read) ∧
      (a = .unread → p.Informed .recv ∧ ∀ m, k ≠ .write m) := by
  unfold Phase.answer at h
  split at h <;> cases h
  all_goals refine ⟨fun m hm => ?_, fun hm => ?_⟩
  all_goals first | exact ⟨rfl, by simp⟩ | cases hm

end Phase

namespace Frame

variable {kind : Nat → Kind T} {f g : Frame Tid T} {pr : Prog} {c : Nat} {d : Side}

/-- The body goes by what it has been told: that operations of this side of the channel come to nothing.
    In the short pause, and while it waits with a packet, that is in its context. -/
def Informed (sel : Selected Tid) (c : Nat) (d : Side) : Frame Tid T → Prop
  | .zero job _ (.wait _) => sel = .disconnected ∧ job.chan = c ∧ job.side = d
  | .zero job _ (.withdraw _ sel') | .zero job _ (.recover _ sel') =>
      sel' = .disconnected ∧ job.chan = c ∧ job.side = d
  | .select handles _ (.again i (.pause _)) =>
      sel = .disconnected ∧ ∃ x, handles[i]? = some x ∧ x.chan = c ∧ x.side = d
  | .select handles _ (.again i (.withdraw _ sel')) | .select handles _ (.again i (.dropPacket _ sel')) =>
      sel' = .disconnected ∧ ∃ x, handles[i]? = some x ∧ x.chan = c ∧ x.side = d
  | .chosen x .null => x.chan = c ∧ x.side = d
  | .finish job (.wakeOne (.disconnected _)) | .finish job (.setReady _ (.disconnected _)) =>
      job.chan = c ∧ job.side = d
  | _ => False

theorem Informed.works {sel : Selected Tid} (h : f.Informed sel c d) : f.Works c d := by
  unfold Informed at h
  split at h <;> first
    | exact h
    | exact h.2
    | exact h.elim
    | obtain ⟨-, x, hx, hc, hd⟩ := h; exact ⟨x, List.mem_of_getElem? hx, hc, hd⟩

theorem Informed.congr {sel sel' : Selected Tid} (h : f.Informed sel c d)
    (hsel : sel = .disconnected → sel' = .disconnected) : f.Informed sel' c d := by
  unfold Informed at h ⊢
  split at h <;> first
    | exact h
    | exact ⟨hsel h.1, h.2⟩

/-- A body that is told by its context waits at a zero channel, and nowhere else. -/
theorem Informed.pends {sel : Selected Tid} (h : f.Informed sel c d) (hf : f.Typed kind) :
    (∀ sel', f.Informed sel' c d) ∨
      (kind c).IsZero ∧ ∀ pr x, (f.stake kind pr).left x → x.chan = c := by
  unfold Informed at h
  split at h
  · obtain ⟨-, rfl, -⟩ := h
    refine .inr ⟨hf, fun pr x hx => ?_⟩
    obtain rfl : x = _ := hx
    rfl
  · exact .inl fun _ => h
  · exact .inl fun _ => h
  · obtain ⟨-, x, hi, rfl, -⟩ := h
    obtain ⟨y, hi', hz⟩ := hf
    obtain rfl : x = y := Option.some.inj (hi.symm.trans hi')
    refine .inr ⟨hz, fun pr z hz => ?_⟩
    obtain ⟨y, hi', rfl⟩ := hz
    exact congrArg Handle.chan (Option.some.inj (hi'.symm.trans hi))
  · exact .inl fun _ => h
  · exact .inl fun _ => h
  · exact .inl fun _ => h
  · exact .inl fun _ => h
  · exact .inl fun _ => h
  · exact h.elim

theorem finishWith_not_informed {job : Job T} {tk : Token} {sel : Selected Tid} :
    ¬ (finishWith kind job tk : Frame Tid T).Informed sel c d := by
  unfold finishWith
  repeat' split
  all_goals exact id

theorem opFrame_not_informed (op : Op T) {sel : Selected Tid} :
    ¬ (op.frame kind : Frame Tid T).Informed sel c d := by
  unfold Op.frame nowStart loopStart
  repeat' split
  all_goals exact id

/-- How the body comes to be told. -/
inductive Learns (f : Frame Tid T) (r : Ret Tid T) (sel : Selected Tid) (c : Nat) (d : Side) : Prop where
  /-- It begins to wait with a packet. -/
  | queued (p : Nat) (hr : r = .queued p) (hsel : sel = .disconnected)
  /-- It reads it from its context. -/
  | selected (hr : r = .selected .disconnected) (hf : f.Informed .disconnected c d)
      (hcall : f.call = .abort ∨ ∃ deadline, f.call = .waitUntil deadline)
  | told (hf : ∀ sel, f.Informed sel c d)
  | null (hr : r = .token .null)

variable [DecidableEq Tid] {t : Tid} {order : List Handle} {r : Ret Tid T} {sel : Selected Tid}

theorem informed_of_select {handles : List Handle} {timeout : Timeout} {st : SelectStage Tid}
    (hr : selectResume t order handles timeout st r = some g) (hg : g.Informed sel c d) :
    Learns (.select handles timeout st : Frame Tid T) r sel c d := by
  have hleads := select_leads hr
  cases hleads with
  | panics | gives_up => exact hg.elim
  | closes hx hst =>
    obtain ⟨p, rfl⟩ := hst
    exact .told fun _ => ⟨rfl, _, hx, hg⟩
  | fires hx htk hst =>
    rename_i tk
    cases tk with
    | null => exact .null htk
    | _ => exact hg.elim
  | stays order' timeout' st' =>
    -- Among the stages of the loop only the short pause remembers that it has been told.
    have hpauses : (select order' timeout' st' : Frame Tid T).Pauses := by
      cases st' with
      | again i rst => cases rst <;> trivial
      | _ => exact hg.elim
    have hres : (select handles timeout st : Frame Tid T).resume (fun _ => .never) t order r =
        some (.select order' timeout' st') := hr
    obtain ⟨hs, tm, i, rst, heq, hretry⟩ := pauses_of_resume hres hpauses
    cases heq
    unfold retryResume at hretry
    split at hretry
    · obtain ⟨x, -, heq⟩ := Option.map_eq_some_iff.mp hretry
      cases heq
    · obtain ⟨x, -, heq⟩ := Option.map_eq_some_iff.mp hretry
      cases heq
    · obtain hnext := Option.some.inj hretry
      unfold nextHandle at hnext
      split at hnext <;> cases hnext <;> exact hg.elim
    · cases hretry
      exact .queued _ rfl hg.1
    · cases hretry
    · cases hretry
      exact hg.elim
    · cases hretry
      obtain ⟨rfl, hx⟩ := hg
      exact .selected rfl ⟨rfl, hx⟩ (.inl rfl)
    · cases hretry
    · cases hretry
      exact .told fun _ => hg
    · obtain ⟨x, -, heq⟩ := Option.map_eq_some_iff.mp hretry
      cases heq
    · obtain hnext := Option.some.inj hretry
      unfold nextHandle at hnext
      split at hnext <;> cases hnext <;> exact hg.elim
    · cases hretry

omit [DecidableEq Tid] in
theorem informed_of_zero {job : Job T} {mode : Mode} {st : ZeroStage Tid}
    (hr : zeroResume kind job mode st r = some g) (hg : g.Informed sel c d) :
    Learns (.zero job mode st : Frame Tid T) r sel c d := by
  unfold zeroResume at hr
  split at hr
  · cases hr
    exact absurd hg finishWith_not_informed
  · cases hr
    exact hg.elim
  · cases hr
    exact .queued _ rfl hg.1
  · cases hr
    exact hg.elim
  · cases hr
    exact hg.elim
  · cases hr
    obtain ⟨rfl, hplace⟩ := hg
    exact .selected rfl ⟨rfl, hplace⟩ (.inr ⟨_, rfl⟩)
  · cases hr
    exact hg.elim
  · cases hr
    split at hg
    · exact .told fun _ => hg
    · unfold unselected at hg
      split at hg <;> exact hg.elim
  · cases hr
    exact hg.elim
  · cases hr
    unfold unselected at hg
    split at hg <;> exact hg.elim
  · cases hr
    split at hg <;> exact hg.elim
  · cases hr
    exact hg.elim
  · cases hr
    exact hg.elim
  · cases hr

/-- **A body is told by its context, by a null token, or has been told before.** -/
theorem informed_of_resume (hr : f.resume kind t order r = some g) (hg : g.Informed sel c d) :
    f.Learns r sel c d := by
  cases f with
  | plain job mode st =>
    simp only [resume] at hr
    unfold plainResume at hr
    split at hr <;> cases hr
    · exact absurd hg finishWith_not_informed
    · unfold plainFailed at hg
      repeat' split at hg
      all_goals exact hg.elim
    all_goals first
      | exact hg.elim
      | unfold plainWaited at hg; split at hg <;> exact hg.elim
      | split at hg <;> exact hg.elim
  | zero job mode st => exact informed_of_zero hr hg
  | finish job st =>
    simp only [resume] at hr
    unfold finishResume at hr
    split at hr
    · unfold completed at hr
      repeat' split at hr
      all_goals cases hr
      all_goals exact hg.elim
    all_goals cases hr
    all_goals exact hg.elim
  | select handles timeout st => exact informed_of_select hr hg
  | timer c' mode =>
    simp only [resume] at hr
    unfold timerResume at hr
    repeat' split at hr
    all_goals cases hr
    all_goals exact hg.elim
  | close c' d' st =>
    simp only [resume] at hr
    unfold closeResume at hr
    repeat' split at hr
    all_goals cases hr
    all_goals exact hg.elim
  | done _ | chosen _ _ | panicked => cases hr

/-- **Who reports that the channel is disconnected** has been told so. -/
theorem disconnected_of_resume {msg : Option T} (hf : f.Typed kind)
    (hr : f.resume kind t order r = some (.done (.disconnected msg))) :
    ∃ job, f.job = some job ∧ ((∀ sel, f.Informed sel job.chan job.side) ∨
      (r = .token .null ∧ ∃ mode, f = .zero job mode .pair) ∨
      f = .finish job .complete ∧ ((∃ m, r = .answer (.unsent m)) ∨ r = .answer .unread)) := by
  have finished : ∀ {job : Job T} {tk : Token},
      (finishWith kind job tk : Frame Tid T) = .done (.disconnected msg) →
        tk = .null ∧ ¬ (kind job.chan).Buffered := by
    intro job tk h
    unfold finishWith at h
    repeat' split at h
    all_goals first
      | rename_i hz; exact ⟨rfl, by rw [hz]; exact id⟩
      | cases h
  have told : ∀ {sel : Selected Tid} {m : Option T},
      (unselected sel m : Frame Tid T) = .done (.disconnected msg) → sel = .disconnected := by
    intro sel m h
    unfold unselected at h
    split at h
    · rfl
    · cases h
  cases f with
  | plain job mode st =>
    simp only [resume] at hr
    unfold plainResume at hr
    split at hr
    · exact absurd hf (finished (Option.some.inj hr)).2
    · have hr := Option.some.inj hr
      unfold plainFailed at hr
      repeat' split at hr
      all_goals cases hr
    all_goals first
      | cases hr
      | have hr := Option.some.inj hr; unfold plainWaited at hr; split at hr <;> cases hr
  | zero job mode st =>
    refine ⟨job, rfl, ?_⟩
    simp only [resume] at hr
    unfold zeroResume at hr
    split at hr
    · obtain ⟨rfl, -⟩ := finished (Option.some.inj hr)
      exact .inr (.inl ⟨rfl, mode, rfl⟩)
    · cases hr
    · cases hr
    · cases hr
    · cases hr
    · cases hr
    · cases hr
    · have hr := Option.some.inj hr
      split at hr
      · cases hr
      · exact .inl fun _ => ⟨told hr, rfl, rfl⟩
    · cases hr
    · exact .inl fun _ => ⟨told (Option.some.inj hr), rfl, rfl⟩
    · have hr := Option.some.inj hr
      split at hr <;> cases hr
    all_goals cases hr
  | finish job st =>
    refine ⟨job, rfl, ?_⟩
    simp only [resume] at hr
    unfold finishResume at hr
    split at hr
    · unfold completed at hr
      split at hr
      · cases hr
      · exact .inr (.inr ⟨rfl, .inl ⟨_, rfl⟩⟩)
      · split at hr <;> cases hr
      · exact .inr (.inr ⟨rfl, .inr rfl⟩)
      · cases hr
    · cases hr
      exact .inl fun _ => ⟨rfl, rfl⟩
    · cases hr
    · cases hr
      exact .inl fun _ => ⟨rfl, rfl⟩
    all_goals cases hr
  | select handles timeout st => cases select_leads hr
  | timer c mode =>
    simp only [resume] at hr
    unfold timerResume at hr
    repeat' split at hr
    all_goals cases hr
  | close c d st =>
    simp only [resume] at hr
    unfold closeResume at hr
    repeat' split at hr
    all_goals cases hr
  | done _ | chosen _ _ | panicked => cases hr

end Frame

variable [DecidableEq Tid]

namespace Shared

variable {w : Shared Tid T} {t u : Tid} {act : Act Tid T} {kind : Nat → Kind T} {pr : Prog}
  {spurious : Bool} {c : Nat} {d : Side}

/-- Only `disconnect` tells a context so, and only those of who is queued at the channel. -/
theorem disconnected_before (h : ((w.apply t act).reg.cx u).select = .disconnected) :
    (w.reg.cx u).select = .disconnected ∨
      ∃ c d, ∃ e ∈ (w.reg.waker c d).entries, e.owner = u ∧
        (act = .disconnect c d ∨ act = .disconnectZero c) := by
  have swept : ∀ (r : Registry Tid) c d, ((r.disconnect c d).cx u).select = .disconnected →
      (r.cx u).select = .disconnected ∨ ∃ e ∈ (r.waker c d).entries, e.owner = u := by
    intro r c d h
    simp only [Registry.disconnect, Waker.disconnect_apply] at h
    split at h
    · rename_i he
      exact .inr he
    · exact .inl h
  cases act with
  | reset | queue c d v =>
    by_cases hu : u = t
    · subst hu
      simp only [apply, Registry.reset, Registry.register, Registry.setWaker_cx,
        Function.update_self] at h
      cases h
    · simp only [apply, Registry.reset, Registry.register, Registry.setWaker_cx,
        Function.update_of_ne hu] at h
      exact .inl h
  | abort =>
    by_cases hu : u = t
    · subst hu
      simp only [apply, Registry.abort, Function.update_self] at h
      by_cases hw : (w.reg.cx u).select = .waiting
      · rw [Context.trySelect_waiting hw] at h
        cases h
      · rw [Context.trySelect_decided hw] at h
        exact .inl h
    · simp only [apply, Registry.abort, Function.update_of_ne hu] at h
      exact .inl h
  | disconnect c d =>
    rcases swept w.reg c d h with h | ⟨e, he, hu⟩
    · exact .inl h
    · exact .inr ⟨c, d, e, he, hu, .inl rfl⟩
  | disconnectZero c =>
    rcases swept (w.reg.disconnect c .send) c .recv h with h | ⟨e, he, hu⟩
    · rcases swept w.reg c .send h with h | ⟨e, he, hu⟩
      · exact .inl h
      · exact .inr ⟨c, .send, e, he, hu, .inr rfl⟩
    · exact .inr ⟨c, .recv, e, he, hu, .inr rfl⟩
  | wakeOne c d =>
    left
    cases he : (w.reg.wakeOne c d t).1 with
    | none =>
      have hfound : ((w.reg.waker c d).wakeOne w.reg.cx t).1 = none := he
      simpa only [apply, Registry.wakeOne, hfound, Waker.wakeContext_none] using h
    | some e =>
      simp only [apply, Registry.wakeOne_cx he] at h
      split at h
      · rw [Context.storePacket_select] at h
        cases h
      · exact h
  | _ => exact .inl h

/-- What a call says that reads the context. -/
theorem disconnected_of_selected {call : Call T}
    (h : w.exec t kind call pr spurious = some (act, .ret (.selected .disconnected)))
    (hcall : call = .abort ∨ ∃ deadline, call = .waitUntil deadline) :
    ((w.apply t act).reg.cx t).select = .disconnected := by
  rcases hcall with rfl | ⟨deadline, rfl⟩
  · exact (abort_selected (Option.some.inj h)).1
  · exact (waitUntil_selected h).1

/-- A null token of the zero flavor says that the channel is disconnected. -/
theorem null_of_pair {offer : Option (Packet T)} (h : w.pair t c d offer = (act, .ret (.token .null)))
    (hpacket : ∀ e ∈ (w.reg.waker c d.opposite).entries, e.packet ≠ none) :
    w.isDisconnected c = true := by
  unfold pair at h
  split at h
  · rename_i e hfound
    obtain ⟨p, hp⟩ := Option.ne_none_iff_exists'.mp (hpacket e (Waker.wakeOne_some hfound).1)
    rw [hp] at h
    cases h
  · split at h
    · assumption
    · split at h <;> cases h

end Shared

namespace World

variable {kind : Nat → Kind T} {w w' : World Tid T} {t : Tid} {act : Act Tid T} {th : Thread Tid T}
  {count : Nat → Side → Nat} {c : Nat} {d : Side}

/-! ## One side is gone -/

/-- One side of a disconnected channel has no handles left. -/
def Severed (kind : Nat → Kind T) (w : World Tid T) : Prop :=
  ∀ c, w.Disconnected kind c → ∃ d, w.count c d = 0

theorem Severed.after (h : Severed kind w) (hl : Lent w) (hx : Stepped kind w w' t act th count) :
    Severed kind w' := by
  intro c hd
  have hl' := hl.after hx.turn hx.after
  rcases hd.before hx.sound hx.turn hx.after with hd | rfl | ⟨d, hf, -⟩
  · obtain ⟨d, hzero⟩ := h c hd
    refine ⟨d, ?_⟩
    rw [hx.after.count]
    exact hx.turn.count_zero hzero
  · -- `disconnect` of the zero flavor
    have hturn := hx.turn
    generalize hact : (Act.disconnectZero c : Act Tid T) = act at hturn
    cases hturn with
    | next hn =>
      obtain ⟨spurious, rep, he, -⟩ := hn.exec
      subst hact
      obtain ⟨hcall, -⟩ := Shared.exec_explains he
      obtain ⟨d, hf⟩ := Frame.calls_of_eq hcall
      refine ⟨d, ?_⟩
      rw [hx.after.count]
      exact hl.closing t c d _ hf
    | start _ _ | complete _ _ | drop _ _ _ => cases hact
  · exact ⟨d, hl'.closing t c d _ (hx.after.frame.trans hf)⟩

omit [DecidableEq Tid] in
/-- A new channel is connected. -/
theorem not_disconnected_init : ¬ (World.init kind : World Tid T).Disconnected kind c := by
  intro hd
  cases hk : kind c with
  | array ch built =>
    simp only [Disconnected, hk, World.init, Shared.init, Buffer.init] at hd
    obtain ⟨maxValue, cap, hbuilt⟩ := built
    unfold ArrayFlavor.Channel.withCapacity at hbuilt
    repeat' split at hbuilt
    all_goals cases hbuilt
    cases hd
  | list =>
    simp only [Disconnected, hk, World.init, Shared.init, Buffer.init] at hd
    cases hd
  | zero | after _ | tick _ _ | never => simp [Disconnected, hk, World.init, Shared.init] at hd

theorem severed_of_reachable (h : (system kind).Reachable w) : Severed kind w := by
  refine h.invariant (P := Severed kind) ?_ fun w l w' hw hold hs => ?_
  · rintro _ rfl c hd
    exact absurd hd not_disconnected_init
  · rcases step_cases hs with ⟨t, act, th, count, ht, ha⟩ | ⟨c, d, hpos, rfl⟩ | ⟨now, -, rfl⟩
    · exact hold.after (lent_of_reachable hw) ⟨sound_of_reachable hw, sound_of_reachable (hw.step hs),
        aware_of_reachable hw, typed_of_reachable hw t, ht, ha⟩
    · intro c' hd
      obtain ⟨d', hzero⟩ := hold c' hd
      refine ⟨d', ?_⟩
      rw [setCount_count, if_neg]
      · exact hzero
      · rintro ⟨rfl, rfl⟩
        exact absurd hzero (Nat.ne_of_gt hpos)
    · exact hold

omit [DecidableEq Tid] in
theorem Lent.count_pos (hl : Lent w) (h : (w.thread t).frame.Works c d) : 0 < w.count c d :=
  hl.lent t (c, d) (hl.borrowed t c d h)

omit [DecidableEq Tid] in
/-- Who still works on a disconnected channel is alone with the threads of its side. -/
theorem Severed.alone (h : Severed kind w) (hl : Lent w) (hd : w.Disconnected kind c)
    (hworks : (w.thread t).frame.Works c d) : w.count c d.opposite = 0 := by
  have hpos := hl.count_pos hworks
  obtain ⟨d', hzero⟩ := h c hd
  cases d <;> cases d' <;> first | exact hzero | exact absurd hzero (Nat.ne_of_gt hpos)

/-! ## Nothing is left -/

/-- Nothing more can be done on this side of the channel. For the receivers that is so when it is
    disconnected, nobody is left to send, and there is nothing to receive. -/
structure Shut (kind : Nat → Kind T) (w : World Tid T) (c : Nat) (d : Side) : Prop where
  disconnected : w.Disconnected kind c
  gone : d = .recv → w.count c .send = 0
  drained : d = .recv → (kind c).Buffered →
    (w.shared.buffer c).view.sends = (w.shared.buffer c).view.recvs

omit [DecidableEq Tid] in
/-- Who works on the channel needs only look whether there is anything to receive. -/
theorem shut_of_works (hsev : Severed kind w) (hl : Lent w) (hd : w.Disconnected kind c)
    (hworks : (w.thread t).frame.Works c d)
    (hempty : d = .recv → (kind c).Buffered →
      (w.shared.buffer c).view.sends = (w.shared.buffer c).view.recvs) : w.Shut kind c d where
  disconnected := hd
  gone := by
    rintro rfl
    exact hsev.alone hl hd hworks
  drained := hempty

/-- **What is shut stays shut.** -/
theorem Shut.after (h : w.Shut kind c d) (hl : Lent w) (hx : Stepped kind w w' t act th count) :
    w'.Shut kind c d where
  disconnected := h.disconnected.after hx.sound hx.turn hx.after
  gone := by
    intro hd
    rw [hx.after.count]
    exact hx.turn.count_zero (h.gone hd)
  drained := by
    intro hd hk
    have hempty := h.drained hd hk
    rcases drive_next hx c with hsame | ⟨k, r, hc, hdrive⟩
    · rwa [hsame]
    · rcases hdrive.counts with ⟨hs, hr⟩ | ⟨d', hp, hv⟩
      · rw [hs, hr, hempty]
      · -- Somebody takes a position: nobody is there to send, and nothing to receive.
        have hfits := hx.sound.fits hc
        rw [hp] at hfits
        cases d' with
        | send =>
          have hkstart : k = .start .send := by
            cases k <;> first | exact hfits.elim | exact congrArg _ (Eq.symm hfits)
          subst hkstart
          have hpos := hl.count_pos (Frame.works_of_starts hc hx.typed)
          rw [h.gone hd] at hpos
          exact absurd hpos (Nat.lt_irrefl 0)
        | recv =>
          have hle := (hx.sound'.buffer c).ordered
          rw [hv] at hle
          simp only [View.take, hempty] at hle
          exact absurd hle (Nat.not_succ_le_self _)

omit [DecidableEq Tid] in
theorem Shut.congr (h : w.Shut kind c d) (hshared : w'.shared.buffer = w.shared.buffer)
    (hflag : w'.shared.isDisconnected = w.shared.isDisconnected)
    (hcount : w.count c .send = 0 → w'.count c .send = 0) : w'.Shut kind c d where
  disconnected := by
    have hd := h.disconnected
    unfold Disconnected at hd ⊢
    rw [hshared, hflag]
    exact hd
  gone := fun hd => hcount (h.gone hd)
  drained := by
    rw [hshared]
    exact h.drained

theorem Shut.step {l : Label Tid T} (h : w.Shut kind c d) (hr : (system kind).Reachable w)
    (hs : w.step kind l = some w') : w'.Shut kind c d := by
  rcases step_cases hs with ⟨t, act, th, count, ht, ha⟩ | ⟨c', d', hpos, rfl⟩ | ⟨now, -, rfl⟩
  · exact h.after (lent_of_reachable hr) ⟨sound_of_reachable hr, sound_of_reachable (hr.step hs),
      aware_of_reachable hr, typed_of_reachable hr t, ht, ha⟩
  · refine h.congr rfl rfl fun hzero => ?_
    rw [setCount_count, if_neg]
    · exact hzero
    · rintro ⟨rfl, rfl⟩
      exact absurd hzero (Nat.ne_of_gt hpos)
  · exact h.congr rfl rfl id

/-! ## What the threads are told -/

/-- **Nobody is told that a channel is disconnected before his side of it is shut.** -/
structure Truthful (kind : Nat → Kind T) (w : World Tid T) : Prop where
  phase : ∀ t c d, ((w.shared.buffer c).phase t).Informed d → w.Shut kind c d
  frame : ∀ t c d, (w.thread t).frame.Informed (w.shared.reg.cx t).select c d → w.Shut kind c d
  returns : ∀ t job msg, (w.thread t).job = some job →
    (w.thread t).frame = .done (.disconnected msg) → w.Shut kind job.chan job.side

omit [DecidableEq Tid] in
theorem disconnected_of_flag (hk : (kind c).Buffered)
    (hv : (w.shared.buffer c).view.isDisconnected = true) : w.Disconnected kind c := by
  unfold Disconnected
  cases hkind : kind c <;> rw [hkind] at hk <;> first | exact hv | exact hk.elim

omit [DecidableEq Tid] in
theorem disconnected_of_zero (hz : (kind c).IsZero) (hv : w.shared.isDisconnected c = true) :
    w.Disconnected kind c := by
  unfold Disconnected
  rw [hz.eq]
  exact hv

/-- A thread finds out from a buffered channel itself. -/
theorem Truthful.informed_phase (h : Truthful kind w) (hsev : Severed kind w) (hl : Lent w)
    (hx : Stepped kind w w' t act th count) {u : Tid}
    (hp : ((w'.shared.buffer c).phase u).Informed d) : w'.Shut kind c d := by
  by_cases hu : u = t
  · subst hu
    rcases drive_next hx c with hsame | ⟨k, r, hc, hdrive⟩
    · rw [hsame] at hp
      exact (h.phase u c d hp).after hl hx
    · have hfits := hx.sound.fits hc
      rcases hdrive.informed hp with hold | ⟨-, ⟨rfl, hp, hv⟩ | ⟨rfl, hp, hempty⟩⟩
      · exact (h.phase u c d hold).after hl hx
      · rw [hp] at hfits
        have hk : k = .start .send := by
          cases k <;> first | exact hfits.elim | exact congrArg _ hfits
        subst hk
        have hd := disconnected_of_flag (Frame.tries_of_starts hc).2 hv
        have hworks := Frame.works_of_starts hc hx.typed
        exact (shut_of_works hsev hl hd hworks (fun h => by cases h)).after hl hx
      · have hv := (hx.sound.buffer c).closed (t := u) (by rw [hp]; trivial)
        rw [hp] at hfits
        have hk : k = .start .recv := by
          cases k <;> first | exact hfits.elim | exact congrArg _ hfits
        subst hk
        have hd := disconnected_of_flag (Frame.tries_of_starts hc).2 hv
        have hworks := Frame.works_of_starts hc hx.typed
        exact (shut_of_works hsev hl hd hworks (fun _ _ => hempty)).after hl hx
  · rw [hx.after.shared, (hx.turn.kept hx.sound hx.typed).others c u hu] at hp
    exact (h.phase u c d hp).after hl hx

/-- What the thread's own context says, it said before the thread's step. -/
theorem disconnected_own {g : Frame Tid T} {pr' : Prog}
    (hn : Frame.Next kind w.shared t (w.thread t).frame (w.thread t).prog act g pr')
    (hinf : (w.thread t).frame.Informed .disconnected c d)
    (h : ((w.shared.apply t act).reg.cx t).select = .disconnected) :
    (w.shared.reg.cx t).select = .disconnected := by
  obtain ⟨spurious, rep, he, -⟩ := hn.exec
  rcases Shared.disconnected_before h with hold | ⟨c', d', e, -, -, rfl | rfl⟩
  · exact hold
  · obtain ⟨hcall, -⟩ := Shared.exec_explains he
    rcases Frame.calls_of_eq hcall with ⟨-, d'', hf⟩ | ⟨-, d'', hf⟩ <;> rw [hf] at hinf <;>
      exact hinf.elim
  · obtain ⟨hcall, -⟩ := Shared.exec_explains he
    obtain ⟨d'', hf⟩ := Frame.calls_of_eq hcall
    rw [hf] at hinf
    exact hinf.elim

/-- A null token of the zero flavor is true. -/
theorem null_of_zero {D : Ledger Tid T} (hacc : Accounts kind w D) {call : Call T} {spurious : Bool}
    {pr : Prog} {offer : Option (Packet T)} (hz : (kind c).IsZero) (hpairs : call.Pairs kind c d offer)
    (he : w.shared.exec t kind call pr spurious = some (act, .ret (.token .null))) :
    w.Disconnected kind c := by
  refine disconnected_of_zero hz (Shared.null_of_pair (Shared.exec_pairs hpairs he) fun e hmem => ?_)
  obtain ⟨p, hp, -⟩ := hacc.queued c d.opposite e hz hmem
  rw [hp]
  exact Option.some_ne_none p

/-- A select that gets a null token. -/
theorem Truthful.chosen_null (h : Truthful kind w) (hsev : Severed kind w) (hl : Lent w)
    {D : Ledger Tid T} (hacc : Accounts kind w D) (hx : Stepped kind w w' t act th count)
    (htyped' : (w'.thread t).frame.Typed kind) {x : Handle} {spurious : Bool} {order : List Handle}
    (he : w.shared.exec t kind (w.thread t).frame.call (w.thread t).prog spurious =
      some (act, .ret (.token .null)))
    (hr : (w.thread t).frame.resume kind t order (.token .null) = some (.chosen x .null))
    (hg : (w'.thread t).frame = .chosen x .null) : w'.Shut kind x.chan x.side := by
  by_cases hk : (kind x.chan).Buffered
  · refine h.informed_phase hsev hl hx (u := t) ?_
    have hm := hx.sound'.phase t x.chan
    rw [hg] at hm
    simp only [Frame.Matches, if_true] at hm
    rw [hm]
    generalize kind x.chan = k at hk
    cases k <;> first | rfl | exact hk.elim
  · have hz : (kind x.chan).IsZero := by
      rw [hg] at htyped'
      rcases htyped' with hb | hz
      · exact absurd hb hk
      · exact hz
    rcases Frame.resume_token hr with ⟨job, hfin, -⟩ | ⟨hs, tm, st, i, y, hf, hi, heq, hst⟩ |
      ⟨c, mode, i, -, hno, -⟩
    · rcases Frame.finishWith_cases kind job .null with ⟨st, heq⟩ | ⟨out, heq⟩ <;> rw [heq] at hfin <;>
        cases hfin
    · cases heq
      have hworks : (w.thread t).frame.Works x.chan x.side := by
        rw [hf]
        exact ⟨x, List.mem_of_getElem? hi, rfl, rfl⟩
      have hcall := fun m : Handle → Call T => Frame.onHandle_eq (m := m) hi
      have hd : w.Disconnected kind x.chan := by
        rw [hf] at he
        rcases hst with rfl | rfl | ⟨states, rfl⟩ | rfl | rfl
        · exact null_of_zero (d := x.side) hacc hz (.inr ⟨hz, .inl ⟨hcall _, rfl⟩⟩) he
        · simp only [Frame.call, Frame.selectCall, hcall, Shared.exec, Shared.accept, hz.eq] at he
          unfold Shared.waitPacket at he
          split at he <;> cases he
        · exact null_of_zero (d := x.side) hacc hz (.inr ⟨hz, .inl ⟨hcall _, rfl⟩⟩) he
        · exact null_of_zero (d := x.side) hacc hz (.inr ⟨hz, .inr ⟨hcall _, rfl⟩⟩) he
        · simp only [Frame.call, Frame.selectCall, Shared.exec] at he
          unfold Shared.waitPacket at he
          split at he <;> cases he
      exact (shut_of_works hsev hl hd hworks (fun _ hb => absurd hb hk)).after hl hx
    · cases hno

/-- A thread finds out from its context, or from a null token. -/
theorem Truthful.informed_next (h : Truthful kind w) (hsev : Severed kind w) (hl : Lent w)
    {D : Ledger Tid T} (hacc : Accounts kind w D) (hx : Stepped kind w w' t act th count)
    (htyped' : (w'.thread t).frame.Typed kind) {g : Frame Tid T} {pr' : Prog}
    (hn : Frame.Next kind w.shared t (w.thread t).frame (w.thread t).prog act g pr')
    (hg : (w'.thread t).frame = g) (hinf : g.Informed (w'.shared.reg.cx t).select c d) :
    w'.Shut kind c d := by
  have hshared := hx.after.shared
  have hown := disconnected_own hn (c := c) (d := d)
  have old : ∀ {sel}, (w.thread t).frame.Informed sel c d →
      (sel = .disconnected → (w.shared.reg.cx t).select = .disconnected) → w'.Shut kind c d :=
    fun hf hsel => (h.frame t c d (hf.congr hsel)).after hl hx
  generalize hfr : (w.thread t).frame = f at hn
  cases hn with
  | more he =>
    subst hfr
    refine old hinf fun hsel => hown (hinf.congr fun _ => rfl) ?_
    rwa [← hshared]
  | ret he hres =>
    subst hfr
    rcases Frame.informed_of_resume hres hinf with ⟨p, rfl, hsel⟩ | ⟨rfl, hf, hcall⟩ | hf | rfl
    · obtain ⟨c', d', v, rfl, -⟩ := Frame.queue_of_resume he hres
      rw [hshared] at hsel
      simp only [Shared.apply, Registry.reset, Registry.register, Registry.setWaker_cx,
        Function.update_self] at hsel
      cases hsel
    · exact old hf fun _ => hown hf (Shared.disconnected_of_selected he hcall)
    · exact (h.frame t c d (hf _)).after hl hx
    · rcases Frame.resume_token hres with ⟨job, rfl, -⟩ | ⟨hs, tm, st, i, x, -, -, rfl, -⟩ |
        ⟨c', mode, i, -, hno, -⟩
      · exact absurd hinf Frame.finishWith_not_informed
      · obtain ⟨rfl, rfl⟩ := hinf
        exact h.chosen_null hsev hl hacc hx htyped' he hres hg
      · cases hno

/-- What the context of another thread is told, and by whom. -/
theorem Truthful.informed_other (h : Truthful kind w) (hsev : Severed kind w) (hl : Lent w)
    (hx : Stepped kind w w' t act th count) {u : Tid} (hu : u ≠ t)
    (hinf : (w'.thread u).frame.Informed (w'.shared.reg.cx u).select c d)
    (htyped : (w.thread u).frame.Typed kind) : w'.Shut kind c d := by
  rw [hx.after.others hu] at hinf
  by_cases hold : (w'.shared.reg.cx u).select = .disconnected → (w.shared.reg.cx u).select = .disconnected
  · exact (h.frame u c d (hinf.congr hold)).after hl hx
  · obtain ⟨hsel, hne⟩ := Classical.not_imp.mp hold
    rcases hinf.pends htyped with htold | ⟨hz, hplace⟩
    · exact (h.frame u c d (htold _)).after hl hx
    · rw [hx.after.shared] at hsel
      rcases Shared.disconnected_before hsel with hno | ⟨c', d', e, he, rfl, hact⟩
      · exact absurd hno hne
      · obtain rfl : c' = c := hplace _ _ (hx.sound.books.listed c' d' e he)
        have hworks : (w'.thread e.owner).frame.Works c' d := by
          rw [hx.after.others hu]
          exact hinf.works
        have hturn := hx.turn
        generalize hshared : act = act' at hturn
        cases hturn with
        | next hn =>
          subst hshared
          obtain ⟨spurious, rep, hexec, -⟩ := hn.exec
          rcases hact with rfl | rfl
          · -- `SyncWaker::disconnect` is for the buffered flavors.
            obtain ⟨hcall, -⟩ := Shared.exec_explains hexec
            have htyped := hx.typed
            rcases Frame.calls_of_eq hcall with ⟨-, d'', hf⟩ | ⟨-, d'', hf⟩ <;> rw [hf] at htyped <;>
              exact absurd hz (Kind.Buffered.not_zero htyped)
          · have hd : w'.Disconnected kind c' := by
              refine disconnected_of_zero hz ?_
              rw [hx.after.shared]
              exact Function.update_self ..
            exact shut_of_works (hsev.after hl hx) (hl.after hx.turn hx.after) hd hworks
              fun _ hb => absurd hz hb.not_zero
        | start _ _ | complete _ _ | drop _ _ _ => rcases hact with rfl | rfl <;> cases hshared

/-- Who returns that the channel is disconnected. -/
theorem Truthful.over_next (h : Truthful kind w) (hsev : Severed kind w) (hl : Lent w)
    {D : Ledger Tid T} (hacc : Accounts kind w D) (hx : Stepped kind w w' t act th count)
    {g : Frame Tid T} {pr' : Prog} {msg : Option T}
    (hn : Frame.Next kind w.shared t (w.thread t).frame (w.thread t).prog act g pr')
    (hg : g = .done (.disconnected msg)) :
    ∃ job, (w.thread t).job = some job ∧ w'.Shut kind job.chan job.side := by
  generalize hfr : (w.thread t).frame = f at hn
  cases hn with
  | more he =>
    rw [hg] at he
    cases he
  | ret he hres =>
    subst hfr hg
    obtain ⟨job, hjob, hwhy⟩ := Frame.disconnected_of_resume hx.typed hres
    refine ⟨job, hl.job t job hjob, ?_⟩
    rcases hwhy with htold | ⟨rfl, mode, hf⟩ | ⟨hf, hanswer⟩
    · exact (h.frame t _ _ (htold _)).after hl hx
    · have hz := hx.typed
      have hworks : (w.thread t).frame.Works job.chan job.side := by
        rw [hf]
        exact ⟨rfl, rfl⟩
      rw [hf] at he hz
      have hd := null_of_zero (d := job.side) hacc hz (.inl rfl) he
      exact (shut_of_works hsev hl hd hworks fun _ hb => absurd hz hb.not_zero).after hl hx
    · have hc : ∃ k, (w.thread t).frame.call.onBuffer kind (w.thread t).prog = some (job.chan, k) ∧
          ((∃ m, k = .write m ∧ job.side = .send) ∨ k = .read ∧ job.side = .recv) := by
        rw [hf]
        obtain ⟨c, _ | m⟩ := job
        · exact ⟨_, rfl, .inr ⟨rfl, rfl⟩⟩
        · exact ⟨_, rfl, .inl ⟨m, rfl, rfl⟩⟩
      obtain ⟨k, hc, hk⟩ := hc
      obtain ⟨a, hdrives⟩ := Shared.exec_onBuffer hc he
      obtain ⟨spurious, b, hdrive, -⟩ := hdrives.drive
      cases a with
      | none =>
        obtain ⟨pr, hrep, -⟩ := hdrives.goes rfl
        cases hrep
      | some a =>
        have hdriven := (Buffer.drive_driven (hx.sound.buffer job.chan) hdrive).drive
        have hinf := Phase.informed_of_answer hdriven.answered
        have hrep := hdrives.answers a rfl
        refine (h.phase t job.chan job.side ?_).after hl hx
        rcases hk with ⟨m, rfl, hside⟩ | ⟨rfl, hside⟩ <;> rcases hanswer with ⟨m', rfl⟩ | rfl <;>
          cases hrep
        all_goals rw [hside]
        · exact (hinf.1 _ rfl).1
        · exact absurd rfl ((hinf.2 rfl).2 m)
        · exact absurd rfl (hinf.1 _ rfl).2
        · exact (hinf.2 rfl).1

/-- **Every turn keeps to the truth.** -/
theorem Truthful.after (h : Truthful kind w) (hsev : Severed kind w) (hl : Lent w)
    {D : Ledger Tid T} (hacc : Accounts kind w D) (hx : Stepped kind w w' t act th count)
    (htyped : ∀ u, (w.thread u).frame.Typed kind) (htyped' : ∀ u, (w'.thread u).frame.Typed kind) :
    Truthful kind w' where
  phase := fun u c d hp => h.informed_phase hsev hl hx hp
  frame := by
    intro u c d hinf
    by_cases hu : u = t
    · subst hu
      have hturn := hx.turn
      have hframe := hx.after.frame
      cases hturn with
      | next hn =>
        rw [hframe] at hinf
        exact h.informed_next hsev hl hacc hx (htyped' u) hn hframe hinf
      | start hover huses =>
        rw [hframe] at hinf
        exact absurd hinf (Frame.opFrame_not_informed _)
      | complete hf hside =>
        rw [hframe] at hinf
        exact absurd hinf Frame.finishWith_not_informed
      | drop hover hpos hfree =>
        rw [hframe] at hinf
        dsimp only at hinf
        split at hinf
        · exact absurd hinf.works (lastDropped_calm.1 c d)
        · exact hinf.elim
    · exact h.informed_other hsev hl hx hu hinf (htyped u)
  returns := by
    intro u job msg hjob hover
    by_cases hu : u = t
    · subst hu
      have hturn := hx.turn
      have hframe := hx.after.frame
      have hjob' := hx.after.job
      cases hturn with
      | next hn =>
        obtain ⟨job', hjob'', hshut⟩ := h.over_next hsev hl hacc hx hn (hframe.symm.trans hover)
        obtain rfl : job = job' := Option.some.inj (hjob.symm.trans (hjob'.trans hjob''))
        exact hshut
      | start hover' huses =>
        rw [hframe] at hover
        dsimp only at hover
        unfold Op.frame Frame.nowStart Frame.loopStart at hover
        repeat' split at hover
        all_goals cases hover
      | complete hf hside =>
        rename_i x tk m
        rw [hframe] at hover
        cases hjob.symm.trans hjob'
        -- Only a null token completes with an error.
        have htk : tk = .null := by
          dsimp only at hover
          unfold Frame.finishWith at hover
          repeat' split at hover
          all_goals first | rfl | cases hover
        subst htk
        dsimp only
        rw [hside]
        refine (h.frame u x.chan x.side ?_).after hl hx
        rw [hf]
        exact ⟨rfl, rfl⟩
      | drop hover' hpos hfree => cases hjob.symm.trans hjob'
    · rw [hx.after.others hu] at hjob hover
      exact (h.returns u job msg hjob hover).after hl hx

theorem truthful_of_reachable (h : (system kind).Reachable w) : Truthful kind w := by
  refine h.invariant (P := Truthful kind) ?_ fun w l w' hw hold hs => ?_
  · rintro _ rfl
    refine ⟨fun t c d hp => ?_, fun t c d hinf => hinf.elim, fun t job msg hjob => by cases hjob⟩
    have hidle : (Buffer.init (kind c) : Buffer Tid T).phase t = .idle := (buffer_init_ok (kind c)).2 t
    change ((Buffer.init (kind c) : Buffer Tid T).phase t).Informed d at hp
    rw [hidle] at hp
    exact hp.elim
  · rcases step_cases hs with ⟨t, act, th, count, ht, ha⟩ | ⟨c', d', hpos, heq⟩ | ⟨now, hnow, heq⟩
    · obtain ⟨D, hacc⟩ := accounts_of_reachable hw
      exact hold.after (severed_of_reachable hw) (lent_of_reachable hw) hacc
        ⟨sound_of_reachable hw, sound_of_reachable (hw.step hs), aware_of_reachable hw,
          typed_of_reachable hw t, ht, ha⟩ (typed_of_reachable hw) (typed_of_reachable (hw.step hs))
    · have keep : ∀ {c d}, w.Shut kind c d → w'.Shut kind c d := fun hshut => hshut.step hw hs
      subst heq
      exact ⟨fun t c d hp => keep (hold.phase t c d hp), fun t c d hinf => keep (hold.frame t c d hinf),
        fun t job msg hjob hover => keep (hold.returns t job msg hjob hover)⟩
    · have keep : ∀ {c d}, w.Shut kind c d → w'.Shut kind c d := fun hshut => hshut.step hw hs
      subst heq
      exact ⟨fun t c d hp => keep (hold.phase t c d hp), fun t c d hinf => keep (hold.frame t c d hinf),
        fun t job msg hjob hover => keep (hold.returns t job msg hjob hover)⟩

end World

end CrossbeamChannel
