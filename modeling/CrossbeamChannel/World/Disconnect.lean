import CrossbeamChannel.World.Meeting

/-!
# What `disconnect` tells those who wait

`disconnect` of a buffered channel sets the flag and then sweeps the two queues; a thread that
blocks registers and then looks at the flag. So of a thread and a sweep that come together,
one sees the other. Once no sweep is outstanding, whoever is registered and still waiting is
looking at the flag right now, or has seen it and is about to abort: `World.Quiet.told`. In the zero
flavor all of it happens under one lock, the sweep with the flag and the registration with the look
at it, so there nobody is ever between the two.

`Told` is the invariant: a registered thread that is still waiting on a disconnected channel either has
its look at the flag ahead of it (`Rechecks`) or a sweep of its queue is to come (`Sweeps`). It speaks of
the entries in the queues, since those are what a sweep goes through (`waker.rs` 114-126). Only the first
caller of `disconnect` sweeps (`array.rs` 509-514: the `swap` returns `false` once), and a second caller
can return while the first is still at it. But it was called for the other side then, so no handle of
the channel is left and nobody can wait there: this is the other case of `Quiet`.
-/

namespace CrossbeamChannel

variable {Tid T : Type}

namespace Frame

variable {kind : Nat → Kind T} {f : Frame Tid T} {pr : Prog} {x : Place}

/-- A thread has registered only on channels it works on. -/
theorem works_of_left (h : (f.stake kind pr).left x) : f.Works x.chan x.side := by
  have upTo : ∀ {handles n}, UpTo kind handles n x → ∃ y ∈ handles, y.chan = x.chan ∧ y.side = x.side := by
    rintro handles n ⟨j, y, -, hj, -, rfl⟩
    exact ⟨y, List.mem_of_getElem? hj, rfl, rfl⟩
  have pausing : ∀ {handles i}, Pausing handles i x → ∃ y ∈ handles, y.chan = x.chan ∧ y.side = x.side := by
    rintro handles i ⟨y, hj, rfl⟩
    exact ⟨y, List.mem_of_getElem? hj, rfl, rfl⟩
  unfold stake at h
  split at h
  · obtain ⟨-, -, rfl⟩ := h
    exact ⟨rfl, rfl⟩
  · obtain ⟨-, rfl⟩ := h
    exact ⟨rfl, rfl⟩
  · obtain ⟨-, rfl⟩ := h
    exact ⟨rfl, rfl⟩
  · obtain ⟨-, rfl⟩ := h
    exact ⟨rfl, rfl⟩
  · cases h
    exact ⟨rfl, rfl⟩
  · cases h
    exact ⟨rfl, rfl⟩
  · exact pausing h
  · exact pausing h
  · exact h.elim
  · exact upTo h
  · exact upTo h
  · exact upTo h
  · exact upTo h
  · exact upTo h
  · exact upTo h.1
  · exact h.elim
  · exact h.elim

/-- A thread has registered only where threads queue. -/
theorem queues_of_left (hf : f.Typed kind) (h : (f.stake kind pr).left x) :
    (kind x.chan).Queues x.side := by
  have upTo : ∀ {handles n}, UpTo kind handles n x → (kind x.chan).Queues x.side := by
    rintro handles n ⟨j, y, -, -, hq, rfl⟩
    exact hq
  have zero : ∀ {c d}, (kind c).IsZero → (kind c).Queues d := by
    intro c d hk
    rw [hk.eq]
    trivial
  have pausing : ∀ {handles i}, (∃ y, handles[i]? = some y ∧ (kind y.chan).IsZero) →
      Pausing handles i x → (kind x.chan).Queues x.side := by
    rintro handles i ⟨y, hy, hk⟩ ⟨z, hz, rfl⟩
    obtain rfl : y = z := Option.some.inj (hy.symm.trans hz)
    exact zero hk
  unfold stake at h
  split at h
  · obtain ⟨-, hq, rfl⟩ := h
    exact hq
  · obtain ⟨hq, rfl⟩ := h
    exact hq
  · obtain ⟨hq, rfl⟩ := h
    exact hq
  · obtain ⟨hq, rfl⟩ := h
    exact hq
  · cases h
    exact zero hf
  · cases h
    exact zero hf
  · exact pausing hf h
  · exact pausing hf h
  · exact h.elim
  · exact upTo h
  · exact upTo h
  · exact upTo h
  · exact upTo h
  · exact upTo h
  · exact upTo h.1
  · exact h.elim
  · exact h.elim

end Frame

namespace Phase

variable {cap : Option Nat} {v v' : View} {p p' : Phase T} {k : BufferCall T} {r : Option (Answer T)}

/-- Once the flag is set nobody reads it unset. -/
theorem Drive.not_loaded (h : Drive cap k v p v' p' r) (hv : v.isDisconnected = true)
    (hp : p ≠ .loaded false) : p' ≠ .loaded false := by
  cases h with
  | enter he =>
    unfold Phase.enter at he
    split at he <;> cases he <;> simp
  | answer ha => cases p <;> simp [leave]
  | run hs =>
    cases hs with
    | stay => exact hp
    | loaded => simp [hv]
    | take hp' => rcases hp' with rfl | rfl <;> simp
    | _ => simp

/-- Once the flag is set nobody swaps it from unset. -/
theorem Drive.not_swapped (h : Drive cap k v p v' p' r) (hv : v.isDisconnected = true)
    (hp : p ≠ .swapped false) : p' ≠ .swapped false := by
  cases h with
  | enter he =>
    unfold Phase.enter at he
    split at he <;> cases he <;> simp
  | answer ha => cases p <;> simp [leave]
  | run hs =>
    cases hs with
    | stay => exact hp
    | swapped => simp [hv]
    | take hp' => rcases hp' with rfl | rfl <;> simp
    | _ => simp

theorem Drive.flag_kept (h : Drive cap k v p v' p' r) (hv : v.isDisconnected = true) :
    v'.isDisconnected = true := by
  cases h with
  | enter _ | answer _ => exact hv
  | run hs =>
    cases hs with
    | swapped => rfl
    | take _ =>
      rename_i d _
      cases d <;> exact hv
    | _ => exact hv

/-- The step that returns finds the answer in the phase. -/
theorem Drive.answered {a : Answer T} (h : Drive cap k v p v' p' (some a)) : p.answer k = some a := by
  cases h with
  | answer ha => exact ha

/-- Nor does `is_disconnected` return `false` any more. -/
theorem Drive.disconnected_answer {a : Answer T}
    (h : Drive cap .isDisconnected v p v' p' (some a)) (hp : p ≠ .loaded false) : a = .flag true := by
  cases h with
  | answer ha =>
    cases p with
    | loaded b =>
      cases ha
      cases b with
      | false => exact absurd rfl hp
      | true => rfl
    | _ => cases ha

/-- The step that sets the flag is the swap. -/
theorem Drive.sets (h : Drive cap k v p v' p' r) (hv : v.isDisconnected = false)
    (hv' : v'.isDisconnected = true) : p = .swapping ∧ p' = .swapped false ∧ r = none := by
  cases h with
  | enter he => simp [hv] at hv'
  | answer ha => simp [hv] at hv'
  | run hs =>
    cases hs with
    | swapped => exact ⟨rfl, by rw [hv], rfl⟩
    | take _ =>
      rename_i d _
      cases d <;> simp [View.take, hv] at hv'
    | _ => simp [hv] at hv'

end Phase

namespace Shared

variable [DecidableEq Tid] {w : Shared Tid T} {t : Tid} {kind : Nat → Kind T}
  {act : Act Tid T} {rep : Reply Tid T} {pr : Prog} {spurious : Bool} {c : Nat} {d : Side} {slot : Nat}

/-- On a disconnected channel the check behind a registration goes on, or says "ready". -/
theorem register_disconnected (he : w.exec t kind (.register c d slot) pr spurious = some (act, rep))
    (hq : (kind c).Queues d) (hpr : pr ≠ .start) (hb : (w.buffer c).Ok)
    (hv : (kind c).Buffered → (w.buffer c).view.isDisconnected = true)
    (hp : (w.buffer c).phase t ≠ .loaded false) :
    (∃ pr', rep = .more pr' ∧ pr' ≠ .start ∧ ((w.apply t act).buffer c).phase t ≠ .loaded false) ∨
      rep = .ret (.flag false) := by
  have buffer : (kind c).Buffered → w.registerBuffer t c d slot pr spurious = some (act, rep) →
      (∃ pr', rep = .more pr' ∧ pr' ≠ .start ∧ ((w.apply t act).buffer c).phase t ≠ .loaded false) ∨
        rep = .ret (.flag false) := by
    intro hk h
    have hv := hv hk
    unfold registerBuffer at h
    split at h
    · exact absurd rfl hpr
    · obtain ⟨b, a, hd, rfl, hrep⟩ := drive_act h
      have hdriven := Buffer.drive_driven hb hd
      have hp' : ((w.apply t (.drive c (.unavailable d) b a)).buffer c).phase t ≠ .loaded false := by
        simp only [apply, Function.update_self]
        exact hdriven.drive.not_loaded hv hp
      cases a with
      | none => exact .inl ⟨_, hrep, by simp, hp'⟩
      | some a =>
        cases a with
        | flag b' =>
          cases b' with
          | true => exact .inl ⟨_, hrep, by simp, hp'⟩
          | false => exact .inr hrep
        | _ => exact .inr hrep
    · obtain ⟨b, a, hd, rfl, hrep⟩ := drive_act h
      have hdriven := Buffer.drive_driven hb hd
      cases a with
      | none =>
        refine .inl ⟨_, hrep, by simp, ?_⟩
        simp only [apply, Function.update_self]
        exact hdriven.drive.not_loaded hv hp
      | some a =>
        obtain rfl := hdriven.drive.disconnected_answer hp
        exact .inr hrep
    · cases h
  simp only [exec, Shared.register] at he
  cases hk : kind c with
  | array ch built =>
    rw [hk] at he
    exact buffer (by rw [hk]; trivial) he
  | list =>
    rw [hk] at he hq
    obtain rfl : d = .recv := hq
    exact buffer (by rw [hk]; trivial) he
  | zero =>
    rw [hk] at he
    dsimp only at he
    rw [if_neg hpr] at he
    cases he
  | after _ | tick _ _ | never =>
    rw [hk] at hq
    exact hq.elim

end Shared

namespace World

variable [DecidableEq Tid]

/-- The channel is disconnected. -/
def Disconnected (kind : Nat → Kind T) (w : World Tid T) (c : Nat) : Prop :=
  match kind c with
  | .array _ _ | .list => (w.shared.buffer c).view.isDisconnected = true
  | .zero => w.shared.isDisconnected c = true
  | .after _ | .tick _ _ | .never => False

/-- The thread is between its registration and the end of the check that follows it, and the
    check is going to report that the operation is ready; or it has just done so, and the
    thread is about to abort its attempt to block. -/
def Rechecks (w : World Tid T) (t : Tid) (c : Nat) (d : Side) (slot : Nat) : Prop :=
  ((w.thread t).frame.call = .register c d slot ∧ (w.thread t).prog ≠ .start ∧
    (w.shared.buffer c).phase t ≠ .loaded false) ∨
  (∃ job mode, (w.thread t).frame = .plain job mode .abort) ∨ w.Aborting t

/-- Thread `t`, inside `disconnect`, has yet to sweep the queue of this side. -/
def Sweeps (w : World Tid T) (t : Tid) (c : Nat) (d : Side) : Prop :=
  (∃ d', (w.thread t).frame = .close c d' .setDisconnected ∧
    (w.shared.buffer c).phase t = .swapped false) ∨
  (∃ d', (w.thread t).frame = .close c d' .senders) ∨
  (d = .recv ∧ ∃ d', (w.thread t).frame = .close c d' .receivers)

/-- Whoever waits on a disconnected channel is going to find out. -/
def Told (kind : Nat → Kind T) (w : World Tid T) : Prop :=
  ∀ c d e, w.Disconnected kind c → e ∈ (w.shared.reg.waker c d).entries →
    (w.shared.reg.cx e.owner).select = .waiting →
    w.Rechecks e.owner c d e.oper.slot ∨ ∃ t, w.Sweeps t c d

variable {kind : Nat → Kind T} {w w' : World Tid T} {t : Tid} {act : Act Tid T}
  {th : Thread Tid T} {count : Nat → Side → Nat} {c : Nat} {d : Side}

/-- A swept queue holds no operation that is still waiting. -/
theorem swept {r : Registry Tid} {c : Nat} {d : Side} {e : Entry Tid}
    (he : e ∈ (r.waker c d).entries) : ((r.disconnect c d).cx e.owner).select ≠ .waiting := by
  simp only [Registry.disconnect, Waker.disconnect_apply]
  rw [if_pos ⟨e, he, rfl⟩]
  exact Context.trySelect_ne_waiting (by simp)

omit [DecidableEq Tid] in
/-- Only `disconnect` swaps the flag. -/
theorem close_of_onBuffer {f : Frame Tid T} {pr : Prog}
    (h : f.call.onBuffer kind pr = some (c, .disconnect)) :
    ∃ d, f = .close c d .setDisconnected := by
  have hcall : f.call = .setDisconnected c := by
    cases hf : f.call with
    | start c' d | retry c' d | accept c' d =>
      rw [hf] at h
      cases (Kind.starts_eq h).1
    | register c' d slot =>
      have checks : (pr.checks c' d : Option (Nat × BufferCall T)) ≠ some (c, .disconnect) := by
        cases pr <;> simp [Prog.checks]
      rw [hf] at h
      simp only [Call.onBuffer] at h
      split at h
      · cases h
      · exact absurd h checks
      · exact absurd h checks
      · cases h
    | setDisconnected c' =>
      rw [hf] at h
      cases h
      rfl
    | _ =>
      rw [hf] at h
      cases h
  exact Frame.calls_of_eq hcall

/-- The step that sets the flag of a buffered channel is the swap in `disconnect`. -/
theorem sets_flag (hs : Sound kind w) {f : Frame Tid T} {pr : Prog}
    (hn : Frame.Next kind w.shared t (w.thread t).frame (w.thread t).prog act f pr)
    (hold : (w.shared.buffer c).view.isDisconnected = false)
    (hnew : ((w.shared.apply t act).buffer c).view.isDisconnected = true) :
    ∃ d, f = .close c d .setDisconnected ∧
      ((w.shared.apply t act).buffer c).phase t = .swapped false := by
  rcases hn.driven hs.buffer c with hsame | ⟨k, r, hc, hdrive, hnone, -⟩
  · rw [hsame, hold] at hnew
    cases hnew
  · obtain ⟨hp, hp', rfl⟩ := hdrive.sets hold hnew
    have hfits := hs.fits hc
    rw [hp] at hfits
    obtain rfl : k = .disconnect := by cases k <;> first | rfl | exact hfits.elim
    obtain ⟨d, hf⟩ := close_of_onBuffer hc
    exact ⟨d, (hnone rfl).1.trans hf, hp'⟩

theorem flag_kept (hs : Sound kind w) {f : Frame Tid T} {pr : Prog}
    (hn : Frame.Next kind w.shared t (w.thread t).frame (w.thread t).prog act f pr)
    (hv : (w.shared.buffer c).view.isDisconnected = true) :
    ((w.shared.apply t act).buffer c).view.isDisconnected = true := by
  rcases hn.driven hs.buffer c with hsame | ⟨k, r, -, hdrive, -⟩
  · rwa [hsame]
  · exact hdrive.flag_kept hv

/-- A sweep that is outstanding stays so until it is done. -/
theorem Sweeps.next (hsw : w.Sweeps t c d) {f : Frame Tid T} {pr : Prog}
    (hn : Frame.Next kind w.shared t (w.thread t).frame (w.thread t).prog act f pr) :
    (d = .send ∧ ¬ (kind c).Queues d) ∨ act = .disconnect c d ∨
      (∃ d', f = .close c d' .senders) ∨ (d = .recv ∧ ∃ d', f = .close c d' .receivers) := by
  obtain ⟨spurious, rep, he, -, hret⟩ := hn.exec
  rcases hsw with ⟨d', hf, hphase⟩ | ⟨d', hf⟩ | ⟨rfl, d', hf⟩
  · rw [hf] at he hret
    simp only [Frame.call, Frame.closeCall, Shared.exec, Shared.drive, Buffer.drive, hphase,
      Phase.answer, Option.map_some, Option.some.injEq, Prod.mk.injEq] at he
    obtain ⟨rfl, rfl⟩ := he
    obtain ⟨-, order, hr⟩ := hret _ rfl
    simp only [Frame.resume, Frame.closeResume] at hr
    split at hr
    · rename_i hk
      cases hr
      cases d with
      | send => exact .inl ⟨rfl, by rw [hk]; simp [Kind.Queues]⟩
      | recv => exact .inr (.inr (.inr ⟨rfl, d', rfl⟩))
    · cases hr
      exact .inr (.inr (.inl ⟨d', rfl⟩))
  · rw [hf] at he hret
    cases he
    obtain ⟨-, order, hr⟩ := hret _ rfl
    cases hr
    cases d with
    | send => exact .inr (.inl rfl)
    | recv => exact .inr (.inr (.inr ⟨rfl, d', rfl⟩))
  · rw [hf] at he
    cases he
    exact .inr (.inl rfl)

omit [DecidableEq Tid] in
theorem Disconnected.buffered (h : w.Disconnected kind c) (hk : (kind c).Buffered) :
    (w.shared.buffer c).view.isDisconnected = true := by
  unfold Disconnected at h
  cases hkind : kind c <;> rw [hkind] at h hk <;> first | exact h | exact hk.elim

omit [DecidableEq Tid] in
theorem Disconnected.zero (h : w.Disconnected kind c) (hk : (kind c).IsZero) :
    w.shared.isDisconnected c = true := by
  unfold Disconnected at h
  rw [hk.eq] at h
  exact h

/-- Whoever is about to find out does, or goes on to. -/
theorem Rechecks.own {slot : Nat} (hr : w.Rechecks t c d slot) (hs : Sound kind w)
    (hd : w.Disconnected kind c) (hq : (kind c).Queues d) {f : Frame Tid T} {pr : Prog}
    (hn : Frame.Next kind w.shared t (w.thread t).frame (w.thread t).prog act f pr)
    (hw : ((w.shared.apply t act).reg.cx t).select = .waiting) :
    (f.call = .register c d slot ∧ pr ≠ .start ∧
      ((w.shared.apply t act).buffer c).phase t ≠ .loaded false) ∨
    (∃ job mode, f = .plain job mode .abort) ∨
      ∃ handles timeout i, f = .select handles timeout (.abort i) := by
  obtain ⟨spurious, rep, he, hmore, hret⟩ := hn.exec
  rcases hr with ⟨hcall, hpr, hphase⟩ | habort
  · rw [hcall] at he
    rcases Shared.register_disconnected he hq hpr (hs.buffer c) hd.buffered hphase with
      ⟨pr', hrep, hpr', hphase'⟩ | hrep
    · obtain ⟨rfl, rfl⟩ := hmore _ hrep
      exact .inl ⟨hcall, hpr', hphase'⟩
    · obtain ⟨rfl, order, hres⟩ := hret _ hrep
      rcases Frame.calls_of_eq hcall with ⟨job, mode, hf, -⟩ | ⟨handles, timeout, i, x, hf, -⟩
      · rw [hf] at hres
        cases hres
        exact .inr (.inl ⟨job, mode, rfl⟩)
      · rw [hf] at hres
        cases hres
        exact .inr (.inr ⟨handles, timeout, i, rfl⟩)
  · have hcall : (w.thread t).frame.call = .abort := by
      rcases habort with ⟨job, mode, hf⟩ | ⟨handles, timeout, i, hf⟩ <;> rw [hf] <;> rfl
    rw [hcall] at he
    cases he
    simp only [Shared.apply, Registry.abort, Function.update_self] at hw
    exact absurd hw (Context.trySelect_ne_waiting (by simp))

/-- Whoever registers on a disconnected channel is about to find out. -/
theorem rechecks_of_enters (hs : Sound kind w) (htyped : (w.thread t).frame.Typed kind)
    {f : Frame Tid T} {pr : Prog}
    (hn : Frame.Next kind w.shared t (w.thread t).frame (w.thread t).prog act f pr) {e : Entry Tid}
    (he : Shared.Enters w.shared t c d e act) (hq : (kind c).Queues d)
    (hd : (kind c).IsZero → w.shared.isDisconnected c = true) :
    (f.call = .register c d e.oper.slot ∧ pr ≠ .start ∧
      ((w.shared.apply t act).buffer c).phase t ≠ .loaded false) ∨
    (∃ job mode, f = .plain job mode .abort) ∨
      ∃ handles timeout i, f = .select handles timeout (.abort i) := by
  obtain ⟨spurious, rep, hexec, hmore, hret⟩ := hn.exec
  have hex := Shared.exec_explains hexec
  cases act with
  | register c' d' slot =>
    obtain ⟨rfl, rfl, rfl⟩ := he
    obtain ⟨hcall, hpr, hk, hrep⟩ := hex
    obtain ⟨rfl, rfl⟩ := hmore _ hrep
    refine .inl ⟨hcall, by simp, ?_⟩
    have hmatch := (Frame.matches_iff (fun x tk hx => by rw [hx] at hcall; cases hcall)).mp
      (hs.phase t c')
    have hidle : (w.thread t).frame.call.onBuffer kind (w.thread t).prog = none := by
      rw [hcall, hpr]
      cases hkind : kind c' with
      | array ch built => simp only [Call.onBuffer, hkind, Prog.checks]
      | list =>
        rw [hkind] at hq
        obtain rfl : d' = .recv := hq
        simp only [Call.onBuffer, hkind, Prog.checks]
      | zero | after _ | tick _ _ | never =>
        rw [hkind] at hk
        exact hk.elim
    rw [hidle] at hmatch
    change (w.shared.buffer c').phase t ≠ _
    rw [hmatch]
    simp
  | offer c' d' slot =>
    obtain ⟨rfl, rfl, rfl⟩ := he
    obtain ⟨hcall, hk, hrep⟩ := hex
    rw [hd hk, Bool.not_true, Bool.and_false] at hrep
    obtain ⟨rfl, order, hres⟩ := hret _ hrep
    rcases Frame.calls_of_eq hcall with ⟨job, mode, hf, rfl, -⟩ | ⟨handles, timeout, i, x, hf, -⟩
    · rw [hf] at htyped
      exact absurd hk htyped.not_zero
    · rw [hf] at hres
      cases hres
      exact .inr (.inr ⟨handles, timeout, i, rfl⟩)
  | queue c' d' v =>
    obtain ⟨rfl, rfl, rfl⟩ := he
    obtain ⟨hpairs, -, hnot, -⟩ := hex
    have hzero : (kind c').IsZero := by
      rcases hpairs with hcall | ⟨hk, -⟩
      · obtain ⟨job, mode, hf, rfl, -⟩ := Frame.calls_of_eq hcall
        rw [hf] at htyped
        exact htyped
      · exact hk
    rw [hd hzero] at hnot
    cases hnot
  | _ => exact he.elim

/-- How a channel comes to be disconnected. -/
theorem Disconnected.before (hs : Sound kind w) (ht : Turn kind w t act th count)
    (ha : After w w' t act th count) (hd : w'.Disconnected kind c) :
    w.Disconnected kind c ∨ act = .disconnectZero c ∨
      ∃ d, th.frame = .close c d .setDisconnected ∧ (w'.shared.buffer c).phase t = .swapped false := by
  have silent : act = .silent → w.Disconnected kind c := by
    rintro rfl
    unfold Disconnected at hd
    rw [ha.shared] at hd
    exact hd
  cases ht with
  | next hn =>
    rename_i f pr
    have buffered : (w'.shared.buffer c).view.isDisconnected = true →
        (w.shared.buffer c).view.isDisconnected = true ∨
          ∃ d, f = .close c d .setDisconnected ∧ (w'.shared.buffer c).phase t = .swapped false := by
      intro hnew
      cases hold : (w.shared.buffer c).view.isDisconnected with
      | true => exact .inl rfl
      | false =>
        rw [ha.shared] at hnew ⊢
        exact .inr (sets_flag hs hn hold hnew)
    unfold Disconnected at hd ⊢
    cases hk : kind c with
    | array ch built | list =>
      rw [hk] at hd
      exact (buffered hd).imp_right .inr
    | zero =>
      rw [hk, ha.shared] at hd
      cases act with
      | disconnectZero c' =>
        by_cases hc : c = c'
        · exact .inr (.inl (by rw [hc]))
        · simp only [Shared.apply, Function.update_of_ne hc] at hd
          exact .inl hd
      | _ => exact .inl hd
    | after _ | tick _ _ | never =>
      rw [hk] at hd
      exact hd.elim
  | start _ _ => exact .inl (silent rfl)
  | complete _ _ => exact .inl (silent rfl)
  | drop _ _ _ => exact .inl (silent rfl)

theorem swept_zero {r : Registry Tid} {e : Entry Tid} (he : e ∈ (r.waker c d).entries) :
    (((r.disconnect c .send).disconnect c .recv).cx e.owner).select ≠ .waiting := by
  cases d with
  | recv => exact swept (r := r.disconnect c .send) he
  | send =>
    intro hw
    have hw := hw
    simp only [Registry.disconnect, Waker.disconnect_apply] at hw
    split at hw
    · exact Context.trySelect_ne_waiting (by simp) hw
    · rw [if_pos ⟨e, he, rfl⟩] at hw
      exact Context.trySelect_ne_waiting (by simp) hw

theorem Told.after (hold : Told kind w) (hs : Sound kind w) (hs' : Sound kind w')
    (htyped : ∀ t, (w.thread t).frame.Typed kind) (htyped' : ∀ t, (w'.thread t).frame.Typed kind)
    (ht : Turn kind w t act th count) (ha : After w w' t act th count) : Told kind w' := by
  have hkept := ht.kept hs (htyped t)
  intro c d e hd he hw
  have hleft := hs'.books.listed c d e he
  have hq : (kind c).Queues d := Frame.queues_of_left (htyped' _) hleft
  have hbuffer : ∀ {u}, u ≠ t → (w'.shared.buffer c).phase u = (w.shared.buffer c).phase u := by
    intro u hu
    rw [ha.shared]
    exact hkept.others c u hu
  have outside : ∀ {d' st}, th.frame = .close c d' st → e.owner ≠ t := by
    rintro d' st hf rfl
    rw [stakes, ha.frame, hf] at hleft
    exact hleft.elim
  -- Another thread's sweep, or one that has still to reach this queue.
  have sweeps : ∀ {s}, w.Sweeps s c d → ∃ s, w'.Sweeps s c d := by
    intro s hsw
    by_cases hst : s = t
    · subst hst
      have hn : ∃ f pr, Frame.Next kind w.shared s (w.thread s).frame (w.thread s).prog act f pr ∧
          th.frame = f := by
        have hclose : ∃ d' st, (w.thread s).frame = .close c d' st := by
          rcases hsw with ⟨d', hf, -⟩ | ⟨d', hf⟩ | ⟨-, d', hf⟩ <;> exact ⟨d', _, hf⟩
        obtain ⟨d', st, hf⟩ := hclose
        cases ht with
        | next hn => exact ⟨_, _, hn, rfl⟩
        | start hover _ =>
          rw [hf] at hover
          cases hover
        | complete hf' _ =>
          rw [hf] at hf'
          cases hf'
        | drop hover _ _ =>
          rw [hf] at hover
          cases hover
      obtain ⟨f, pr, hn, hf⟩ := hn
      rcases hsw.next hn with ⟨-, hnq⟩ | rfl | ⟨d', hf'⟩ | ⟨hrecv, d', hf'⟩
      · exact absurd hq hnq
      · rw [ha.shared] at he hw
        exact absurd hw (swept he)
      · exact ⟨s, .inr (.inl ⟨d', by rw [ha.frame, hf, hf']⟩)⟩
      · exact ⟨s, .inr (.inr ⟨hrecv, d', by rw [ha.frame, hf, hf']⟩)⟩
    · refine ⟨s, ?_⟩
      unfold Sweeps at hsw ⊢
      rwa [ha.others hst, hbuffer hst]
  rcases Disconnected.before hs ht ha hd with hdold | rfl | ⟨d', hf, hphase⟩
  · by_cases hu : e.owner = t
    · have hidle : act = .silent → (w.thread t).frame.call = .none → ∃ s, w'.Sweeps s c d := by
        rintro rfl hcall
        rw [ha.shared] at he hw
        rcases hold c d e hdold he hw with
          (⟨hcall', -⟩ | ⟨job, mode, hf⟩ | ⟨handles, timeout, i, hf⟩) | ⟨s, hsw⟩
        · rw [hu, hcall] at hcall'
          cases hcall'
        · rw [hu] at hf
          rw [hf] at hcall
          cases hcall
        · rw [hu] at hf
          rw [hf] at hcall
          cases hcall
        · exact sweeps hsw
      cases ht with
      | next hn =>
        rename_i f pr
        have rechecks : (f.call = .register c d e.oper.slot ∧ pr ≠ .start ∧
            ((w.shared.apply t act).buffer c).phase t ≠ .loaded false) ∨
            (∃ job mode, f = .plain job mode .abort) ∨
            (∃ handles timeout i, f = .select handles timeout (.abort i)) →
            w'.Rechecks e.owner c d e.oper.slot := by
          intro h
          unfold Rechecks Aborting
          rwa [hu, ha.frame, ha.prog, ha.shared]
        rw [ha.shared] at he hw
        obtain ⟨spurious, rep, hexec, -⟩ := hn.exec
        rcases Shared.mem_apply he with heold | henters
        · rcases Shared.waiting_apply hw with hwold | ⟨-, hrenews⟩
          · rcases hold c d e hdold heold hwold with hr | ⟨s, hsw⟩
            · rw [hu] at hr hw
              exact .inl (rechecks (hr.own hs hdold hq hn hw))
            · exact .inr (sweeps hsw)
          · have := hs.books.listed c d e heold
            rw [hu, stakes, calm_of_renews (Shared.exec_explains hexec) hrenews] at this
            exact this.elim
        · exact .inl (rechecks (rechecks_of_enters hs (htyped t) hn henters hq hdold.zero))
      | start hover _ =>
        exact .inr (hidle rfl (by cases hf : (w.thread t).frame <;> rw [hf] at hover <;> first | rfl | cases hover))
      | complete hf _ => exact .inr (hidle rfl (by rw [hf]; rfl))
      | drop hover _ _ =>
        exact .inr (hidle rfl (by cases hf : (w.thread t).frame <;> rw [hf] at hover <;> first | rfl | cases hover))
    · rcases hold c d e hdold (ha.mem_before he hu) (ha.waiting_before hw hu) with hr | ⟨s, hsw⟩
      · left
        unfold Rechecks Aborting at hr ⊢
        rwa [ha.others hu, hbuffer hu]
      · exact .inr (sweeps hsw)
  · rw [ha.shared] at he hw
    exact absurd hw (swept_zero he)
  · exact .inr ⟨t, .inl ⟨d', by rw [ha.frame, hf], hphase⟩⟩

theorem told_of_reachable (h : (system kind).Reachable w) : Told kind w := by
  refine h.invariant ?_ fun w l w' hr htold hstep => ?_
  · rintro _ rfl c d e - he
    exact absurd he List.not_mem_nil
  · have hr' := hr.step hstep
    rcases step_cases hstep with ⟨t, act, th, count, ht, ha⟩ | ⟨c, d, -, rfl⟩ | ⟨now, -, rfl⟩
    · exact htold.after (sound_of_reachable hr) (sound_of_reachable hr') (typed_of_reachable hr)
        (typed_of_reachable hr') ht ha
    · exact htold
    · exact htold

/-! ## After `disconnect` has returned -/

/-- How a thread comes to be in `disconnect`: it was there before, or it has just dropped the
    last handle of the side. -/
theorem Turn.of_close (ht : Turn kind w t act th count) {st : CloseStage}
    (hf : th.frame = .close c d st) :
    (∃ st' pr, (w.thread t).frame = .close c d st' ∧
      Frame.Next kind w.shared t (.close c d st') (w.thread t).prog act (.close c d st) pr) ∨
    ((w.thread t).frame.ended = true ∧ w.count c d = 1 ∧ act = .silent ∧
      (st = .setDisconnected ∨ st = .zero)) := by
  cases ht with
  | next hn =>
    obtain ⟨st', hst⟩ := hn.stays.of_close hf
    dsimp only at hf
    rw [hst, hf] at hn
    exact .inl ⟨st', _, hst, hn⟩
  | start hover _ => exact absurd hf Op.frame_ne_close
  | @complete x tk msg hf' _ =>
    rcases Frame.finishWith_cases kind ⟨x.chan, msg⟩ tk with
      ⟨st, hst⟩ | ⟨out, hout⟩
    · rw [show _ = Frame.finish _ st from hst] at hf
      cases hf
    · rw [show _ = Frame.done out from hout] at hf
      cases hf
  | drop hover hpos hfree =>
    dsimp only at hf
    split at hf
    · unfold lastDropped at hf
      split at hf <;> cases hf
      · exact .inr ⟨hover, ‹_›, rfl, .inl rfl⟩
      · exact .inr ⟨hover, ‹_›, rfl, .inl rfl⟩
      · exact .inr ⟨hover, ‹_›, rfl, .inr rfl⟩
    · cases hf

/-- At most one thread runs `disconnect` for a side of a channel. -/
def Sole (w : World Tid T) : Prop :=
  ∀ c d t t' st st', (w.thread t).frame = .close c d st → (w.thread t').frame = .close c d st' → t = t'

/-- No sweep of the channel is outstanding, or there are no handles of it left. -/
def Quiet (kind : Nat → Kind T) (w : World Tid T) (c : Nat) : Prop :=
  w.Disconnected kind c ∧ ((∀ t d, ¬ w.Sweeps t c d) ∨ ∀ d, w.count c d = 0)

theorem sole_of_reachable (h : (system kind).Reachable w) : Sole w := by
  refine h.invariant ?_ fun w l w' hr hsole hstep => ?_
  · rintro _ rfl c d t t' st st' hf
    cases hf
  · rcases step_cases hstep with ⟨t, act, th, count, ht, ha⟩ | ⟨c, d, -, rfl⟩ | ⟨now, -, rfl⟩
    · have hl := lent_of_reachable hr
      -- Whoever is new in `disconnect` dropped the last handle, which nobody does twice.
      have own : ∀ c d st, th.frame = .close c d st → ∀ u st', u ≠ t →
          (w.thread u).frame = .close c d st' → False := by
        intro c d st hf u st' hu hfu
        rcases ht.of_close hf with ⟨st'', -, hst, -⟩ | ⟨-, hone, -⟩
        · exact hu (hsole c d u t _ _ hfu hst)
        · have := hl.closing u _ _ _ hfu
          omega
      intro c d u u' st st' hf hf'
      by_cases hu : u = t <;> by_cases hu' : u' = t
      · rw [hu, hu']
      · subst hu
        rw [ha.frame] at hf
        rw [ha.others hu'] at hf'
        exact (own c d st hf u' st' hu' hf').elim
      · subst hu'
        rw [ha.frame] at hf'
        rw [ha.others hu] at hf
        exact (own c d st' hf' u st hu hf).elim
      · rw [ha.others hu] at hf
        rw [ha.others hu'] at hf'
        exact hsole c d u u' st st' hf hf'
    · exact hsole
    · exact hsole

omit [DecidableEq Tid] in
/-- Whoever has swapped the flag is in `disconnect`. -/
theorem Sound.close_of_swapped (hs : Sound kind w) {b : Bool}
    (hp : (w.shared.buffer c).phase t = .swapped b) :
    ∃ d, (w.thread t).frame = .close c d .setDisconnected := by
  by_cases hch : ∃ x tk, (w.thread t).frame = .chosen x tk
  · obtain ⟨x, tk, hf⟩ := hch
    have hm := hs.phase t c
    rw [hf, hp] at hm
    have hm : (.swapped b : Phase T) = if c = x.chan then tk.phase (kind x.chan) x.side else .idle := hm
    have hne : (tk.phase (kind x.chan) x.side : Phase T) ≠ .swapped b := by
      cases tk <;> cases kind x.chan <;> simp [Token.phase]
    split at hm
    · exact absurd hm.symm hne
    · cases hm
  · have hm := (Frame.matches_iff (fun x tk hx => hch ⟨x, tk, hx⟩)).mp (hs.phase t c)
    rw [hp] at hm
    split at hm
    · rename_i c' k hc
      split at hm
      · subst c'
        obtain rfl : k = .disconnect := by cases k <;> first | rfl | exact hm.elim
        exact close_of_onBuffer hc
      · cases hm
    · cases hm

/-- The swap of the flag goes on, or it is over and its answer decides what follows. -/
theorem next_of_setDisconnected {pr pr' : Prog} {f : Frame Tid T} (hb : (w.shared.buffer c).Ok)
    (hn : Frame.Next kind w.shared t (.close c d .setDisconnected) pr act f pr') :
    f = .close c d .setDisconnected ∨ ∃ b, (w.shared.buffer c).phase t = .swapped b ∧
      (Frame.closeResume kind c d .setDisconnected (.answer (.flag b) : Ret Tid T)) = some f := by
  obtain ⟨spurious, rep, he, hmore, hret⟩ := hn.exec
  obtain ⟨b, a, hd, rfl, hrep⟩ := Shared.drive_act he
  cases a with
  | none => exact .inl (hmore _ hrep).1
  | some a =>
    obtain ⟨-, order, hr⟩ := hret _ hrep
    have ha := (Buffer.drive_driven hb hd).drive.answered
    cases hp : (w.shared.buffer c).phase t <;> rw [hp] at ha <;> cases ha
    exact .inr ⟨_, rfl, hr⟩

/-- Behind the swap the flag is set. -/
def Flagged (w : World Tid T) : Prop :=
  ∀ t c d st, (w.thread t).frame = .close c d st → st = .senders ∨ st = .receivers →
    (w.shared.buffer c).view.isDisconnected = true

theorem Flagged.after (hold : Flagged w) (hs : Sound kind w) (ht : Turn kind w t act th count)
    (ha : After w w' t act th count) : Flagged w' := by
  intro u c d st hf hst
  have kept : (w.shared.buffer c).view.isDisconnected = true →
      (w'.shared.buffer c).view.isDisconnected = true := by
    intro hv
    rw [ha.shared]
    cases ht with
    | next hn => exact flag_kept hs hn hv
    | _ => exact hv
  by_cases hu : u = t
  · subst hu
    rw [ha.frame] at hf
    rcases ht.of_close hf with ⟨st', pr, hf', hn⟩ | ⟨-, -, -, rfl | rfl⟩
    · refine kept ?_
      cases st' with
      | setDisconnected =>
        rcases next_of_setDisconnected (hs.buffer c) hn with heq | ⟨b, hp, -⟩
        · cases heq
          rcases hst with hst | hst <;> cases hst
        · exact (hs.buffer c).closed (by rw [hp]; trivial)
      | senders => exact hold u c d _ hf' (.inl rfl)
      | receivers => exact hold u c d _ hf' (.inr rfl)
      | zero =>
        obtain ⟨spurious, rep, he, -, hret⟩ := hn.exec
        cases he
        obtain ⟨-, order, hr⟩ := hret _ rfl
        cases hr
    · rcases hst with hst | hst <;> cases hst
    · rcases hst with hst | hst <;> cases hst
  · rw [ha.others hu] at hf
    exact kept (hold u c d st hf hst)

theorem flagged_of_reachable (h : (system kind).Reachable w) : Flagged w := by
  refine h.invariant ?_ fun w l w' hr hold hstep => ?_
  · rintro _ rfl t c d st hf
    cases hf
  · rcases step_cases hstep with ⟨t, act, th, count, ht, ha⟩ | ⟨c, d, -, rfl⟩ | ⟨now, -, rfl⟩
    · exact hold.after (sound_of_reachable hr) ht ha
    · exact hold
    · exact hold

theorem Disconnected.after (hd : w.Disconnected kind c) (hs : Sound kind w)
    (ht : Turn kind w t act th count) (ha : After w w' t act th count) : w'.Disconnected kind c := by
  have silent : act = .silent → w'.Disconnected kind c := by
    rintro rfl
    unfold Disconnected at hd ⊢
    rw [ha.shared]
    exact hd
  cases ht with
  | next hn =>
    unfold Disconnected at hd ⊢
    rw [ha.shared]
    cases hk : kind c with
    | array ch built | list =>
      rw [hk] at hd
      exact flag_kept hs hn hd
    | zero =>
      rw [hk] at hd
      cases act with
      | disconnectZero c' =>
        by_cases hc : c = c'
        · simp only [Shared.apply, hc, Function.update_self]
        · simpa only [Shared.apply, Function.update_of_ne hc] using hd
      | _ => exact hd
    | after _ | tick _ _ | never =>
      rw [hk] at hd
      exact hd.elim
  | start _ _ => exact silent rfl
  | complete _ _ => exact silent rfl
  | drop _ _ _ => exact silent rfl

/-- On a channel whose flag is set, no thread begins to sweep. -/
theorem Sweeps.before {u : Tid} (hsw : w'.Sweeps u c d) (hs : Sound kind w)
    (hv : (w.shared.buffer c).view.isDisconnected = true) (ht : Turn kind w t act th count)
    (ha : After w w' t act th count) : ∃ d, w.Sweeps u c d := by
  -- The swap: it found the flag unset, so it was made before.
  have swap : (w'.shared.buffer c).phase u = .swapped false → ∃ d, w.Sweeps u c d := by
    intro hp
    have hold : (w.shared.buffer c).phase u = .swapped false := by
      rw [ha.shared] at hp
      by_cases hu : u = t
      · subst hu
        cases ht with
        | next hn =>
          rcases hn.driven hs.buffer c with hsame | ⟨k, r, -, hdrive, -⟩
          · rwa [hsame] at hp
          · by_contra hne
            exact hdrive.not_swapped hv hne hp
        | _ => exact hp
      · cases ht with
        | next hn => rwa [(hn.buffers hs.buffer).2.2 c u hu] at hp
        | _ => exact hp
    obtain ⟨d', hf⟩ := hs.close_of_swapped hold
    exact ⟨.recv, .inl ⟨d', hf, hold⟩⟩
  -- The sweeps: they follow each other.
  have later : ∀ {d' st}, (w'.thread u).frame = .close c d' st → st = .senders ∨ st = .receivers →
      ∃ d, w.Sweeps u c d := by
    intro d' st hf hst
    by_cases hu : u = t
    · subst hu
      rw [ha.frame] at hf
      rcases ht.of_close hf with ⟨st', pr, hf', hn⟩ | ⟨-, -, -, rfl | rfl⟩
      · cases st' with
        | setDisconnected =>
          rcases next_of_setDisconnected (hs.buffer c) hn with heq | ⟨b, hp, hr⟩
          · cases heq
            rcases hst with hst | hst <;> cases hst
          · cases b with
            | false => exact ⟨.recv, .inl ⟨d', hf', hp⟩⟩
            | true => cases hr
        | senders => exact ⟨.recv, .inr (.inl ⟨d', hf'⟩)⟩
        | receivers => exact ⟨.recv, .inr (.inr ⟨rfl, d', hf'⟩)⟩
        | zero =>
          obtain ⟨spurious, rep, he, -, hret⟩ := hn.exec
          cases he
          obtain ⟨-, order, hr⟩ := hret _ rfl
          cases hr
      · rcases hst with hst | hst <;> cases hst
      · rcases hst with hst | hst <;> cases hst
    · rw [ha.others hu] at hf
      rcases hst with rfl | rfl
      · exact ⟨.recv, .inr (.inl ⟨d', hf⟩)⟩
      · exact ⟨.recv, .inr (.inr ⟨rfl, d', hf⟩)⟩
  rcases hsw with ⟨d', -, hp⟩ | ⟨d', hf⟩ | ⟨-, d', hf⟩
  · exact swap hp
  · exact later hf (.inl rfl)
  · exact later hf (.inr rfl)

/-- Once the sweeps are done they stay done. -/
theorem Quiet.step {l : Label Tid T} (hr : (system kind).Reachable w) (hstep : w.step kind l = some w')
    (hq : Quiet kind w c) : Quiet kind w' c := by
  obtain ⟨hd, hq⟩ := hq
  rcases step_cases hstep with ⟨t, act, th, count, ht, ha⟩ | ⟨c', d', hpos, rfl⟩ | ⟨now, -, rfl⟩
  · have hs := sound_of_reachable hr
    refine ⟨hd.after hs ht ha, ?_⟩
    rcases hq with hnone | hzero
    · by_cases hk : (kind c).Buffered
      · refine .inl fun u d hsw => ?_
        obtain ⟨d', hsw'⟩ := hsw.before hs (hd.buffered hk) ht ha
        exact hnone u d' hsw'
      · refine .inl fun u d hsw => hk ?_
        have hclose : ∃ d' st, (w'.thread u).frame = .close c d' st ∧ st ≠ .zero := by
          rcases hsw with ⟨d', hf, -⟩ | ⟨d', hf⟩ | ⟨-, d', hf⟩ <;> exact ⟨d', _, hf, by simp⟩
        obtain ⟨d', st, hf, hne⟩ := hclose
        have htyped := typed_of_reachable (hr.step hstep) u
        rw [hf] at htyped
        cases st with
        | zero => exact absurd rfl hne
        | _ => exact htyped
    · exact .inr fun d => by rw [ha.count]; exact ht.count_zero (hzero d)
  · refine ⟨hd, hq.imp_right fun hzero d => ?_⟩
    rw [setCount_count]
    split
    · rename_i heq
      have := hzero d'
      rw [← heq.1] at hpos
      omega
    · exact hzero d
  · exact ⟨hd, hq⟩

/-- In this step a call of `disconnect` on channel `c` returns. -/
def Returns (w w' : World Tid T) (c : Nat) : Prop :=
  ∃ t d st, (w.thread t).frame = .close c d st ∧ (w'.thread t).frame.ended = true

/-- When `disconnect` returns, the sweeps of the channel are done; or another call is still
    sweeping, and the channel has no handles left. -/
theorem quiet_of_returns {l : Label Tid T} (hr : (system kind).Reachable w)
    (hstep : w.step kind l = some w') (hret : Returns w w' c) : Quiet kind w' c := by
  obtain ⟨t, d, st, hf, hover⟩ := hret
  have hl := lent_of_reachable hr
  have hs := sound_of_reachable hr
  have hne : ∀ {v : World Tid T}, v.thread = w.thread → (v.thread t).frame.ended ≠ true := by
    intro v hv
    rw [hv, hf]
    simp [Frame.ended]
  rcases step_cases hstep with ⟨u, act, th, count, ht, ha⟩ | ⟨c', d', hpos, rfl⟩ | ⟨now, -, rfl⟩
  · have hut : t = u := by
      by_contra hut
      rw [ha.others hut, hf] at hover
      cases hover
    subst hut
    rw [ha.frame] at hover
    have hn : ∃ pr, Frame.Next kind w.shared t (.close c d st) (w.thread t).prog act th.frame pr := by
      cases ht with
      | next hn =>
        rw [hf] at hn
        exact ⟨_, hn⟩
      | start ho _ =>
        rw [hf] at ho
        cases ho
      | complete hf' _ =>
        rw [hf] at hf'
        cases hf'
      | drop ho _ _ =>
        rw [hf] at ho
        cases ho
    obtain ⟨pr, hn⟩ := hn
    have htyped := typed_of_reachable hr t
    rw [hf] at htyped
    have flagged : (kind c).Buffered → (w.shared.buffer c).view.isDisconnected = true →
        w.Disconnected kind c := by
      intro hk hv
      unfold Disconnected
      cases hkind : kind c <;> rw [hkind] at hk <;> first | exact hv | exact hk.elim
    -- Wherever the call returns, the flag is set: by it, or by another call.
    have hd : w'.Disconnected kind c := by
      cases st with
      | setDisconnected =>
        rcases next_of_setDisconnected (hs.buffer c) hn with heq | ⟨b, hp, -⟩
        · rw [heq] at hover
          cases hover
        · exact (flagged htyped ((hs.buffer c).closed (by rw [hp]; trivial))).after hs ht ha
      | senders =>
        exact (flagged htyped (flagged_of_reachable hr t c d _ hf (.inl rfl))).after hs ht ha
      | receivers =>
        exact (flagged htyped (flagged_of_reachable hr t c d _ hf (.inr rfl))).after hs ht ha
      | zero =>
        obtain ⟨spurious, rep, he, -, -⟩ := hn.exec
        cases he
        have hk : kind c = .zero := htyped.eq
        unfold Disconnected
        rw [hk, ha.shared]
        dsimp only
        split
        · assumption
        · simp only [Shared.apply, Function.update_self]
    refine ⟨hd, ?_⟩
    by_cases hsw : ∃ s d', w'.Sweeps s c d'
    · -- Another thread is in `disconnect`, for the other side.
      obtain ⟨s, d', hsw⟩ := hsw
      have hclose : ∃ d'' st', (w'.thread s).frame = .close c d'' st' := by
        rcases hsw with ⟨d'', hf, -⟩ | ⟨d'', hf⟩ | ⟨-, d'', hf⟩ <;> exact ⟨d'', _, hf⟩
      obtain ⟨d'', st', hf'⟩ := hclose
      have hst : s ≠ t := by
        rintro rfl
        rw [ha.frame] at hf'
        rw [hf'] at hover
        cases hover
      rw [ha.others hst] at hf'
      have hside : d'' ≠ d := fun h => hst (sole_of_reachable hr c d s t _ _ (h ▸ hf') hf)
      refine .inr fun x => ?_
      rw [ha.count]
      refine ht.count_zero ?_
      by_cases hx : x = d
      · exact hx ▸ hl.closing t c d _ hf
      · have : x = d'' := by cases x <;> cases d <;> cases d'' <;> simp_all
        exact this ▸ hl.closing s c d'' _ hf'
    · exact .inl fun s d' h => hsw ⟨s, d', h⟩
  · exact absurd hover (hne (v := w.setCount c' d' (w.count c' d' + 1)) rfl)
  · exact absurd hover (hne (v := { w with shared := { w.shared with clock := now } }) rfl)

/-- On a quiet channel every entry is one whose operation is decided, or about to be. -/
theorem Quiet.told (hr : (system kind).Reachable w) (hq : Quiet kind w c) {e : Entry Tid}
    (he : e ∈ (w.shared.reg.waker c d).entries) :
    (w.shared.reg.cx e.owner).select ≠ .waiting ∨ w.Rechecks e.owner c d e.oper.slot := by
  by_cases hw : (w.shared.reg.cx e.owner).select = .waiting
  · refine .inr ?_
    rcases told_of_reachable hr c d e hq.1 he hw with hre | ⟨s, hsw⟩
    · exact hre
    · rcases hq.2 with hnone | hzero
      · exact absurd hsw (hnone s d)
      · -- The owner of the entry works on the channel, so it has a handle.
        have hl := lent_of_reachable hr
        have hleft := (sound_of_reachable hr).books.listed c d e he
        have huses := hl.borrowed _ c d (Frame.works_of_left hleft)
        have hpos := hl.lent _ _ huses
        rw [hzero d] at hpos
        exact absurd hpos (Nat.lt_irrefl 0)
  · exact .inl hw

omit [DecidableEq Tid] in
theorem Rechecks.not_parked {slot : Nat} (h : w.Rechecks t c d slot) : ¬ w.Parked t := by
  rintro ⟨hwaits, -⟩
  rcases h with ⟨hcall, -⟩ | ⟨job, mode, hf⟩ | ⟨handles, timeout, i, hf⟩
  · rw [hcall] at hwaits
    cases hwaits
  · rw [hf] at hwaits
    cases hwaits
  · rw [hf] at hwaits
    cases hwaits

end World

end CrossbeamChannel
