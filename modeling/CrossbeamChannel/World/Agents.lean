import CrossbeamChannel.World.Disconnect
import CrossbeamChannel.World.Transfers
import CrossbeamChannel.Lib.Cover

/-!
# Who sees to what can be had

A thread that sends a message, or frees a slot, wakes one of the threads that wait for one, and
the thread that is woken tries to get it. Until the message has been received it is somebody's
turn: `World.Agent` says whose. An agent steps back only when it has got something, or has
handed on, or there is nothing to be had: `World.Agent.next`. The exception is a timed operation
that is woken after its deadline, and returns `Timeout` at once: `World.Squanders`.

`write` ends with `receivers.wake_one()` and `read` with `senders.wake_one()` (`array.rs` 273 and 355,
`list.rs` 245), which removes the entry it selects: the wake-up is in the hands of one thread from then
on, and `unregister` does not pass it on. A thread that has been selected goes back to `start_recv` in the
loop, or to `accept` in a select. It may find the channel empty because a third thread has been faster, and
has nothing to hand on then.
-/

namespace CrossbeamChannel

variable {Tid T : Type}

/-- How many operations of a side could do without waiting: messages for the receivers, free
    slots for the senders. -/
def View.available (cap : Option Nat) (v : View) : Side → Nat
  | .send => cap.elim 0 fun n => v.recvs + n - v.sends
  | .recv => v.sends - v.recvs

namespace Buffer

variable {b b' : Buffer Tid T} {d : Side}

/-- How many operations of a side the channel could serve. -/
abbrev available (b : Buffer Tid T) (d : Side) : Nat := b.view.available b.cap d

theorem available_eq_zero (h : b.view.Unavailable b.cap d) : b.available d = 0 := by
  cases d with
  | send =>
    obtain ⟨n, hn, hv⟩ := h
    simp only [available, View.available, hn, Option.elim_some, hv, Nat.sub_self]
  | recv =>
    have hv : b.view.sends = b.view.recvs := h
    simp only [available, View.available, hv, Nat.sub_self]

theorem unavailable (hb : b.Ok) (hcap : d = .send → b.cap ≠ none) (h : b.available d = 0) :
    b.view.Unavailable b.cap d := by
  cases d with
  | send =>
    obtain ⟨n, hn⟩ := Option.ne_none_iff_exists'.mp (hcap rfl)
    have hle := hb.bounded hn
    simp only [available, View.available, hn, Option.elim_some] at h
    exact ⟨n, hn, by omega⟩
  | recv =>
    have hle := hb.ordered
    simp only [available, View.available] at h
    exact (by omega : b.view.sends = b.view.recvs)

/-- Who takes something leaves one less of it. -/
theorem available_take (hb' : b'.Ok) (hcap : b'.cap = b.cap) (hd : d = .send → b.cap ≠ none)
    (h : b'.view = b.view.take d) : b.available d = b'.available d + 1 := by
  cases d with
  | send =>
    obtain ⟨n, hn⟩ := Option.ne_none_iff_exists'.mp (hd rfl)
    have hle := hb'.bounded (hcap.trans hn)
    simp only [h, View.take] at hle
    simp only [available, View.available, hcap, hn, Option.elim_some, h, View.take]
    omega
  | recv =>
    have hle := hb'.ordered
    simp only [h, View.take] at hle
    simp only [available, View.available, h, View.take]
    omega

/-- And one more for the other side. -/
theorem available_give (hb : b.Ok) (hcap : b'.cap = b.cap) (hd : d = .send → b.cap ≠ none)
    (h : b'.view = b.view.take d.opposite) : b'.available d = b.available d + 1 := by
  cases d with
  | send =>
    obtain ⟨n, hn⟩ := Option.ne_none_iff_exists'.mp (hd rfl)
    have hle := hb.bounded hn
    simp only [available, View.available, hcap, hn, Option.elim_some, h, View.take, Side.opposite]
    omega
  | recv =>
    have hle := hb.ordered
    simp only [available, View.available, h, View.take, Side.opposite]
    omega

end Buffer

namespace Phase

/-- The thread has moved the position of this side and has yet to `write` or `read`. -/
def Moved (d : Side) : Phase T → Prop
  | .taken d' | .granted d' | .completing d' => d' = d
  | .written => d = .send
  | .got _ => d = .recv
  | _ => False

/-- The thread has not looked at the channel yet. -/
def Looks (d : Side) : Phase T → Prop
  | .idle => True
  | .fresh => d = .send
  | .trying d' => d' = d
  | _ => False

variable {cap : Option Nat} {v v' : View} {p p' : Phase T} {k : BufferCall T} {r : Option (Answer T)}
  {d : Side}

/-- Only the CAS moves a position. -/
theorem Drive.view_cases (h : Drive cap k v p v' p' r) :
    v' = v ∨ (∃ d, p = .trying d ∧ v' = v.take d ∧ p'.Moved d) ∨ v'.isDisconnected = true := by
  cases h with
  | enter _ | answer _ => exact .inl rfl
  | run hs =>
    cases hs with
    | take hp =>
      refine .inr (.inl ⟨_, rfl, rfl, ?_⟩)
      rcases hp with rfl | rfl <;> rfl
    | swapped => exact .inr (.inr rfl)
    | _ => exact .inl rfl

/-- Who has moved a position goes on to the end of its `write` or `read`. -/
theorem Drive.moved (h : Drive cap k v p v' p' r) (hp : p.Moved d) :
    p'.Moved d ∨ (∃ msg, k = .write msg ∧ r = some .written ∧ d = .send) ∨
      ∃ msg, k = .read ∧ r = some (.got msg) ∧ d = .recv := by
  cases h with
  | enter he =>
    unfold Phase.enter at he
    split at he <;> cases he <;> first | exact hp.elim | exact .inl hp
  | run hs =>
    cases hs with
    | stay | settle => exact .inl hp
    | wrote | got => exact .inl (Eq.symm hp)
    | _ => exact hp.elim
  | answer ha =>
    unfold Phase.answer at ha
    split at ha <;> cases ha
    all_goals first
      | exact hp.elim
      | exact .inl hp
      | exact .inr (.inl ⟨_, rfl, rfl, hp⟩)
      | exact .inr (.inr ⟨_, rfl, rfl, hp⟩)

/-- An attempt goes on until it takes something, or finds that there is nothing, or that the
    channel is disconnected. -/
theorem Drive.looks (h : Drive cap (.start d) v p v' p' r) (hp : p.Looks d) :
    (r = none ∧ p'.Looks d) ∨ v' = v.take d ∨ (v.Unavailable cap d ∧ v' = v) ∨
      v'.isDisconnected = true := by
  cases h with
  | enter he =>
    cases p with
    | idle =>
      cases d with
      | send | recv =>
        cases he
        exact .inl ⟨rfl, rfl⟩
    | _ => first | exact hp.elim | cases he
  | run hs =>
    cases hs with
    | stay => exact .inl ⟨rfl, hp⟩
    | connected _ => exact .inl ⟨rfl, Eq.symm hp⟩
    | closed hv => exact .inr (.inr (.inr hv))
    | take _ =>
      obtain rfl : _ = d := hp
      exact .inr (.inl rfl)
    | full hv =>
      obtain rfl : _ = d := hp
      exact .inr (.inr (.inl ⟨hv, rfl⟩))
    | empty hv =>
      obtain rfl : _ = d := hp
      exact .inr (.inr (.inl ⟨hv, rfl⟩))
    | _ => exact hp.elim
  | answer ha => cases p <;> first | exact hp.elim | cases ha

/-- Only a look that finds nothing says so. -/
theorem Drive.finds (h : Drive cap k v p v' p' r) (hp : p ≠ .answered d true)
    (hp' : p' = .answered d true) : v'.Unavailable cap d := by
  cases h with
  | enter he =>
    unfold Phase.enter at he
    split at he <;> cases he <;> cases hp'
  | answer _ => cases p <;> cases hp'
  | run hs =>
    cases hs with
    | stay => exact absurd hp' hp
    | answer hb =>
      cases hp'
      exact hb rfl
    | take ht => rcases ht with rfl | rfl <;> cases hp'
    | _ => cases hp'

end Phase

theorem Kind.Buffered.starts {k : Kind T} (hk : k.Buffered) {c : Nat} {d : Side} :
    k.starts c d = some (c, .start d) := by
  cases k <;> first | rfl | exact hk.elim

namespace Frame

variable {kind : Nat → Kind T} {f : Frame Tid T} {pr : Prog} {c : Nat} {d : Side}

/-- Who tries a buffered channel works on this side of it. -/
theorem works_of_starts (h : f.call.onBuffer kind pr = some (c, .start d)) (hf : f.Typed kind) :
    f.Works c d := by
  obtain ⟨⟨d', hcall⟩, hk⟩ := tries_of_starts h
  have hd : d' = d := by
    rcases hcall with hcall | hcall | hcall <;> rw [hcall] at h <;>
      exact (BufferCall.start.inj (Prod.mk.inj (Kind.starts_eq h).1).2).symm
  subst hd
  have hcalls := f.calls
  rcases hcall with hcall | hcall | hcall <;> rw [hcall] at hcalls
  · rcases hcalls with ⟨job, mode, n, rfl, rfl, rfl⟩ | ⟨rfl, -⟩ |
      ⟨hs, timeout, st, i, x, rfl, hx, rfl, rfl, -⟩
    · exact ⟨rfl, rfl⟩
    · exact absurd hk hf.1
    · exact ⟨x, List.mem_of_getElem? hx, rfl, rfl⟩
  · obtain ⟨hs, timeout, i, x, rfl, hx, rfl, rfl⟩ := hcalls
    exact ⟨x, List.mem_of_getElem? hx, rfl, rfl⟩
  · obtain ⟨hs, timeout, i, x, rfl, hx, rfl, rfl⟩ := hcalls
    exact ⟨x, List.mem_of_getElem? hx, rfl, rfl⟩

/-- Whoever is in a call on a buffered channel, other than `disconnect`, works on the channel. -/
theorem works_of_onBuffer {k : BufferCall T} (h : f.call.onBuffer kind pr = some (c, k))
    (hf : f.Typed kind) (hk : k ≠ .disconnect) : ∃ d, f.Works c d := by
  have hcalls := f.calls
  cases hcall : f.call with
  | start c' d' | retry c' d' | accept c' d' =>
    have hstarts : k = .start d' := by
      rw [hcall] at h
      exact (Prod.mk.inj (Kind.starts_eq h).1).2
    subst hstarts
    exact ⟨d', works_of_starts h hf⟩
  | register c' d' slot =>
    rw [hcall] at h hcalls
    obtain rfl : c' = c := by
      have checks : ∀ {d'}, (pr.checks c' d' : Option (Nat × BufferCall T)) = some (c, k) → c' = c := by
        intro d' hch
        cases pr <;> simp_all [Prog.checks]
      simp only [Call.onBuffer] at h
      split at h
      · cases h
        rfl
      · exact checks h
      · exact checks h
      · cases h
    rcases hcalls with ⟨job, mode, rfl, rfl, rfl, -⟩ | ⟨hs, timeout, i, x, rfl, hx, rfl, rfl, -⟩
    · exact ⟨_, rfl, rfl⟩
    · exact ⟨_, x, List.mem_of_getElem? hx, rfl, rfl⟩
  | write c' msg =>
    rw [hcall] at h hcalls
    cases h
    obtain rfl := hcalls
    exact ⟨_, rfl, rfl⟩
  | read c' =>
    rw [hcall] at h hcalls
    cases h
    obtain rfl := hcalls
    exact ⟨_, rfl, rfl⟩
  | setDisconnected c' =>
    rw [hcall] at h
    cases h
    exact absurd rfl hk
  | _ =>
    rw [hcall] at h
    cases h

/-- A thread has registered only on channels it works on, whether it has unregistered since or
    not. -/
theorem works_of_made {x : Place} (h : (f.stake kind pr).made x) : f.Works x.chan x.side := by
  have upTo : ∀ {handles n}, UpTo kind handles n x → ∃ y ∈ handles, y.chan = x.chan ∧ y.side = x.side := by
    rintro handles n ⟨j, y, -, hj, -, rfl⟩
    exact ⟨y, List.mem_of_getElem? hj, rfl, rfl⟩
  have pausing : ∀ {handles i}, Pausing handles i x → ∃ y ∈ handles, y.chan = x.chan ∧ y.side = x.side := by
    rintro handles i ⟨y, hj, rfl⟩
    exact ⟨y, List.mem_of_getElem? hj, rfl, rfl⟩
  cases f with
  | plain job mode st =>
    cases st with
    | register =>
      obtain ⟨-, -, rfl⟩ := h
      exact ⟨rfl, rfl⟩
    | abort | wait | unregister =>
      obtain ⟨-, rfl⟩ := h
      exact ⟨rfl, rfl⟩
    | _ => exact h.elim
  | zero job mode st =>
    cases st with
    | wait p | withdraw p sel =>
      obtain rfl : x = _ := h
      exact ⟨rfl, rfl⟩
    | _ => exact h.elim
  | select handles timeout st =>
    cases st with
    | again i st =>
      cases st with
      | pause p | withdraw p sel | packet => exact pausing h
      | _ => exact h.elim
    | register i | abort i | selected i | deadline i acc | wait dl | unregister i n sel | accept i =>
      exact upTo h
    | _ => exact h.elim
  | _ => exact h.elim

end Frame

variable [DecidableEq Tid]

namespace World

/-- Thread `t` sees to what operations on side `d` of the channel wait for. -/
inductive Agent (kind : Nat → Kind T) (w : World Tid T) (c : Nat) (d : Side) (t : Tid) : Prop where
  /-- It has moved the position of the other side, and goes on to `wake_one`. -/
  | moved (hp : ((w.shared.buffer c).phase t).Moved d.opposite)
  | wakes {job : Job T} {out : Outcome T} (hf : (w.thread t).frame = .finish job (.wakeOne out))
      (hchan : job.chan = c) (hside : job.side.opposite = d)
  /-- It has been selected, and has yet to find out or to accept. -/
  | woken {slot : Nat} (hsel : (w.shared.reg.cx t).select = .operation ⟨t, slot⟩)
      (hmade : (w.stakes kind t).made ⟨c, d, slot⟩)
      (hcall : ∀ c d, (w.thread t).frame.call ≠ .accept c d)
  /-- It has been selected, and looks at its deadline. -/
  | late {job : Job T} {mode : Mode} (hf : (w.thread t).frame = .plain job mode (.deadline true))
      (hchan : job.chan = c) (hside : job.side = d)
  /-- It tries, and has not looked yet. -/
  | tries (hcall : (w.thread t).frame.call.onBuffer kind (w.thread t).prog = some (c, .start d))
      (hp : ((w.shared.buffer c).phase t).Looks d)

/-- In this step a timed operation that has been selected returns `Timeout`. -/
def Squanders (w w' : World Tid T) (t : Tid) : Prop :=
  ∃ job mode msg, (w.thread t).frame = .plain job mode (.deadline true) ∧
    (w'.thread t).frame = .done (.timeout msg)

/-- Why thread `t` may step back in a step. -/
inductive Quits (w w' : World Tid T) (t : Tid) (c : Nat) (d : Side) (act : Act Tid T) : Prop where
  | takes (h : (w'.shared.buffer c).view = (w.shared.buffer c).view.take d)
  /-- There is nothing to be had. -/
  | empty (h : (w'.shared.buffer c).available d = 0)
  | wakes {job : Job T} {out : Outcome T} (hf : (w.thread t).frame = .finish job (.wakeOne out))
      (hact : act = .wakeOne c d)
  /-- Nobody waits. -/
  | alone (h : (w'.shared.reg.waker c d).entries = [])
  | closed (h : (w'.shared.buffer c).view.isDisconnected = true)

variable {kind : Nat → Kind T} {w w' : World Tid T} {t : Tid} {act : Act Tid T}
  {th : Thread Tid T} {count : Nat → Side → Nat} {c : Nat} {d : Side}

omit [DecidableEq Tid] in
/-- Outside the calls on a channel a thread has looked at nothing. -/
theorem Sound.idle (hs : Sound kind w) (hnc : ∀ x tk, (w.thread t).frame ≠ .chosen x tk)
    (hc : ∀ k, (w.thread t).frame.call.onBuffer kind (w.thread t).prog ≠ some (c, k)) :
    (w.shared.buffer c).phase t = .idle := by
  have hm := (Frame.matches_iff hnc).mp (hs.phase t c)
  cases hcall : (w.thread t).frame.call.onBuffer kind (w.thread t).prog with
  | none => rwa [hcall] at hm
  | some ck =>
    obtain ⟨c', k⟩ := ck
    rw [hcall] at hm
    have hcc : c' ≠ c := by
      rintro rfl
      exact hc k hcall
    simpa only [hcc, if_false] using hm

omit [DecidableEq Tid] in
/-- Who has moved a position is in a call on the channel, or is to complete the operation. -/
theorem Sound.call_of_moved (hs : Sound kind w) (hp : ((w.shared.buffer c).phase t).Moved d)
    (hnc : ∀ x tk, (w.thread t).frame ≠ .chosen x tk) :
    ∃ k, (w.thread t).frame.call.onBuffer kind (w.thread t).prog = some (c, k) := by
  by_contra hno
  rw [hs.idle hnc fun k hk => hno ⟨k, hk⟩] at hp
  exact hp

/-- What a turn does to a channel is one step of one call. -/
theorem drive_next (hx : Stepped kind w w' t act th count) (c : Nat) :
    w'.shared.buffer c = w.shared.buffer c ∨
      ∃ k r, (w.thread t).frame.call.onBuffer kind (w.thread t).prog = some (c, k) ∧
        Phase.Drive (w.shared.buffer c).cap k (w.shared.buffer c).view ((w.shared.buffer c).phase t)
          (w'.shared.buffer c).view ((w'.shared.buffer c).phase t) r := by
  have hturn := hx.turn
  rw [hx.after.shared]
  cases hturn with
  | next hn =>
    rcases hn.driven hx.sound.buffer c with hsame | ⟨k, r, hc, hdrive, -⟩
    · exact .inl hsame
    · exact .inr ⟨k, r, hc, hdrive⟩
  | start _ _ | complete _ _ | drop _ _ _ => exact .inl rfl

omit [DecidableEq Tid] in
/-- A body that goes to a new call is about to try. -/
theorem tries_of_call (hk : (kind c).Buffered)
    (hcall : (w.thread t).frame.call = .start c d ∨ (w.thread t).frame.call = .accept c d)
    (hp : (w.shared.buffer c).phase t = .idle) : Agent kind w c d t := by
  refine .tries ?_ (by rw [hp]; trivial)
  rcases hcall with hcall | hcall <;> rw [hcall] <;> exact hk.starts

section

variable {g : Frame Tid T} {pr' : Prog}

/-- Who has moved a position goes on to wake somebody up. -/
theorem moved_next (hx : Stepped kind w w' t act th count)
    (hn : Frame.Next kind w.shared t (w.thread t).frame (w.thread t).prog act g pr')
    (hg : (w'.thread t).frame = g) (hq : (kind c).Queues d)
    (hp : ((w.shared.buffer c).phase t).Moved d.opposite) : Agent kind w' c d t := by
  have hnc : ∀ x tk, (w.thread t).frame ≠ .chosen x tk := by
    intro x tk hf
    rw [hf] at hn
    obtain ⟨spurious, rep, he, -⟩ := hn.exec
    cases he
  obtain ⟨k, hc⟩ := hx.sound.call_of_moved hp hnc
  obtain ⟨r, hdrive, -, hanswer⟩ := hn.drives hx.sound.buffer hc
  have hfinish := Frame.finish_of_onBuffer hc
  rcases hdrive.moved hp with hp' | ⟨msg, rfl, rfl, hside⟩ | ⟨msg, rfl, rfl, hside⟩
  · refine .moved ?_
    rwa [hx.after.shared]
  · obtain ⟨-, order, hr⟩ := (hanswer _ rfl).2 _ rfl
    rw [hfinish.1 msg rfl] at hr
    cases hr
    exact .wakes hg rfl (by cases d <;> first | rfl | cases hside)
  · obtain ⟨-, order, hr⟩ := (hanswer _ rfl).2 _ rfl
    rw [hfinish.2 rfl] at hr
    obtain rfl : d = .send := by cases d <;> first | rfl | cases hside
    simp only [Frame.resume, Frame.finishResume, Frame.completed] at hr
    split at hr
    · rename_i hk
      rw [hk] at hq
      cases hq
    · cases hr
      exact .wakes hg rfl rfl

/-- Who is to wake somebody up does, unless nobody waits. -/
theorem wakes_next (hx : Stepped kind w w' t act th count)
    (hn : Frame.Next kind w.shared t (w.thread t).frame (w.thread t).prog act g pr')
    (hg : (w'.thread t).frame = g) {job : Job T} {out : Outcome T}
    (hf : (w.thread t).frame = .finish job (.wakeOne out)) (hchan : job.chan = c)
    (hside : job.side.opposite = d) : Agent kind w' c d t ∨ Quits w w' t c d act := by
  subst hchan hside
  obtain ⟨spurious, rep, he, hmore, -⟩ := hn.exec
  have hsame : w.shared.wakeOneSync job.chan job.side.opposite (w.thread t).prog = (act, rep) := by
    rw [hf] at he
    exact Option.some.inj he
  unfold Shared.wakeOneSync at hsame
  split at hsame
  · cases hsame
    exact .inr (.wakes hf rfl)
  · obtain ⟨rfl, rfl⟩ := Prod.mk.inj hsame
    split at hmore
    · rename_i hlen
      refine .inr (.alone ?_)
      rw [hx.after.shared]
      rwa [hx.sound.books.len, List.length_eq_zero_iff] at hlen
    · obtain ⟨rfl, -⟩ := hmore _ rfl
      exact .inl (.wakes (hg.trans hf) rfl rfl)

/-- An attempt ends with something, or there is nothing. -/
theorem tries_next (hx : Stepped kind w w' t act th count)
    (hn : Frame.Next kind w.shared t (w.thread t).frame (w.thread t).prog act g pr')
    (hg : (w'.thread t).frame = g) (hpr : (w'.thread t).prog = pr')
    (hcall : (w.thread t).frame.call.onBuffer kind (w.thread t).prog = some (c, .start d))
    (hp : ((w.shared.buffer c).phase t).Looks d) :
    Agent kind w' c d t ∨ Quits w w' t c d act := by
  obtain ⟨r, hdrive, hmore, -⟩ := hn.drives hx.sound.buffer hcall
  have hcap : (w'.shared.buffer c).cap = (w.shared.buffer c).cap := by
    rw [hx.after.shared]
    exact (hx.turn.kept hx.sound hx.typed).cap c
  rw [← hx.after.shared] at hdrive
  rcases hdrive.looks hp with ⟨hr, hp'⟩ | htake | ⟨hempty, hsame⟩ | hclosed
  · obtain ⟨rfl, hcall'⟩ := hmore hr
    refine .inl (.tries ?_ hp')
    rwa [hg, hpr]
  · exact .inr (.takes htake)
  · refine .inr (.empty (Buffer.available_eq_zero ?_))
    rwa [hcap, hsame]
  · exact .inr (.closed hclosed)

/-- A call that returns without a token leaves nothing of it in the channels. -/
theorem idle_of_ret (hx : Stepped kind w w' t act th count) {spurious : Bool} {r : Ret Tid T}
    {order : List Handle}
    (he : w.shared.exec t kind (w.thread t).frame.call (w.thread t).prog spurious = some (act, .ret r))
    (hres : (w.thread t).frame.resume kind t order r = some g) (hr : ∀ tk, r ≠ .token tk) :
    (w'.shared.buffer c).phase t = .idle := by
  have hnc : ∀ x tk, (w.thread t).frame ≠ .chosen x tk := by
    intro x tk hf
    rw [hf] at hres
    cases hres
  rw [hx.after.shared]
  by_cases hc : ∃ k, (w.thread t).frame.call.onBuffer kind (w.thread t).prog = some (c, k)
  · obtain ⟨k, hc⟩ := hc
    obtain ⟨a, hd⟩ := Shared.exec_onBuffer hc he
    obtain ⟨spurious', b, hdrive, rfl⟩ := hd.drive
    cases a with
    | none =>
      obtain ⟨pr'', hrep, -⟩ := hd.goes rfl
      cases hrep
    | some a =>
      have hdriven := (Buffer.drive_driven (hx.sound.buffer c) hdrive).drive
      have hleft := ((hx.sound.fits hc).drive hdriven).2 a rfl
      simp only [Shared.apply, Function.update_self]
      exact BufferCall.idle_of_answered (hd.answers a rfl).symm hr hleft
  · rw [(Frame.Next.ret he hres).undriven fun k hk => hc ⟨k, hk⟩]
    exact hx.sound.idle hnc fun k hk => hc ⟨k, hk⟩

/-- Who was selected and still has time goes on to try. -/
theorem late_next (hx : Stepped kind w w' t act th count)
    (hn : Frame.Next kind w.shared t (w.thread t).frame (w.thread t).prog act g pr')
    (hg : (w'.thread t).frame = g) (hno : ¬ w.Squanders w' t) {job : Job T} {mode : Mode}
    (hf : (w.thread t).frame = .plain job mode (.deadline true)) (hchan : job.chan = c)
    (hside : job.side = d) : Agent kind w' c d t := by
  subst hchan hside
  have hk : (kind job.chan).Buffered := by
    have htyped := hx.typed
    rwa [hf] at htyped
  generalize hfr : (w.thread t).frame = f at hn
  cases hn with
  | more he =>
    rw [← hfr, hf] at he
    cases he
  | ret he hres =>
    subst hfr
    have hidle := idle_of_ret (c := job.chan) hx he hres
    rw [hf] at he hres
    cases he
    simp only [Frame.resume, Frame.plainResume] at hres
    split at hres
    · cases hres
      exact absurd ⟨job, mode, _, hf, hg⟩ hno
    · cases hres
      refine tries_of_call hk (.inl ?_) (hidle (by simp))
      rw [hg]
      rfl

/-- A thread that has registered leaves its context alone once it is decided. -/
theorem cx_after (hx : Stepped kind w w' t act th count)
    (hn : Frame.Next kind w.shared t (w.thread t).frame (w.thread t).prog act g pr') {x : Place}
    (hmade : (w.stakes kind t).made x) (hne : (w.shared.reg.cx t).select ≠ .waiting) :
    w'.shared.reg.cx t = w.shared.reg.cx t := by
  obtain ⟨spurious, rep, he, -⟩ := hn.exec
  rw [hx.after.shared]
  refine Shared.cx_kept hne fun _ hrenews => ?_
  rw [stakes, calm_of_renews (Shared.exec_explains he) hrenews] at hmade
  exact hmade

/-- A select that has been selected accepts in the end. -/
theorem woken_select (hx : Stepped kind w w' t act th count)
    (hn : Frame.Next kind w.shared t (w.thread t).frame (w.thread t).prog act g pr')
    (hg : (w'.thread t).frame = g) (hpr : (w'.thread t).prog = pr') (hk : (kind c).Buffered)
    {slot : Nat} (hsel : (w.shared.reg.cx t).select = .operation ⟨t, slot⟩)
    (hmade : (w.stakes kind t).made ⟨c, d, slot⟩)
    (hcall : ∀ c d, (w.thread t).frame.call ≠ .accept c d)
    {handles : List Handle} {timeout : Timeout} {st : SelectStage Tid}
    (hf : (w.thread t).frame = .select handles timeout st) : Agent kind w' c d t := by
  have hcx := cx_after hx hn hmade (by rw [hsel]; simp)
  have hsel' : (w'.shared.reg.cx t).select = .operation ⟨t, slot⟩ := by rw [hcx, hsel]
  have htyped := hx.typed
  have hknows := hx.aware.knows t
  rw [stakes, hf] at hmade
  rw [hf] at htyped hknows
  -- It pauses only on a zero channel, and has not come to accept.
  have hpacket : ∀ i, st ≠ .again i .packet := by
    rintro i rfl
    obtain ⟨x, hi, hz⟩ := htyped
    obtain ⟨y, hi', heq⟩ := hmade
    obtain rfl : x = y := Option.some.inj (hi.symm.trans hi')
    cases heq
    exact hk.not_zero hz
  have haccept : ∀ i, st ≠ .accept i := by
    rintro i rfl
    obtain ⟨j, x, -, hj, -, heq⟩ := hmade
    have hslot : Selected.operation (⟨t, slot⟩ : Operation Tid) = .operation ⟨t, i + 1⟩ := by
      rw [← hsel]
      exact hknows
    cases hslot
    cases heq
    refine hcall x.chan x.side ?_
    rw [hf]
    simp only [Frame.call, Frame.selectCall, Frame.onHandle, hj]
  -- Until then it does nothing but unregister, and what it has made stays made.
  have hstays : (w'.stakes kind t).made ⟨c, d, slot⟩ := by
    rw [stakes, hg, hpr]
    rw [hf] at hn
    exact hn.stays_registered hknows hsel hmade hpacket haccept
  by_cases hcall' : ∃ c' d', (w'.thread t).frame.call = .accept c' d'
  · -- It has come to accept, and what it accepts is what it was selected for.
    obtain ⟨c', d', hcall'⟩ := hcall'
    have hidle : (w'.shared.buffer c).phase t = .idle := by
      generalize hfr : (w.thread t).frame = f at hn
      cases hn with
      | more he => exact absurd (by rw [hfr, ← hg, hcall']) (hcall c' d')
      | ret he hres =>
        subst hfr
        refine idle_of_ret hx he hres ?_
        rintro tk rfl
        rw [hf] at hres
        rcases Frame.resume_token hres with ⟨job, -, ⟨mode, n, h⟩ | ⟨mode, h⟩⟩ |
          ⟨hs, tm, st', i, x, -, -, rfl, -⟩ | ⟨c'', mode, i, h, -⟩
        · cases h
        · cases h
        · rw [hg] at hcall'
          cases hcall'
        · cases h
    obtain ⟨hs, tm, i, x, hf', hx', rfl, rfl⟩ := Frame.calls_of_eq hcall'
    have hknows' := (hx.aware.after hx.typed hx.turn hx.after).knows t
    rw [hf'] at hknows'
    have hslot : Selected.operation (⟨t, slot⟩ : Operation Tid) = .operation ⟨t, i + 1⟩ := by
      rw [← hsel']
      exact hknows'
    cases hslot
    rw [stakes, hf'] at hstays
    obtain ⟨j, y, -, hj, -, heq⟩ := hstays
    cases heq
    obtain rfl : x = y := Option.some.inj (hx'.symm.trans hj)
    exact tries_of_call hk (.inr hcall') hidle
  · exact .woken hsel' hstays fun c' d' h => hcall' ⟨c', d', h⟩

/-- A send or receive that has been selected looks at its deadline, or tries again. -/
theorem woken_plain (hx : Stepped kind w w' t act th count)
    (hn : Frame.Next kind w.shared t (w.thread t).frame (w.thread t).prog act g pr')
    (hg : (w'.thread t).frame = g) (hpr : (w'.thread t).prog = pr')
    {slot : Nat} (hsel : (w.shared.reg.cx t).select = .operation ⟨t, slot⟩)
    (hmade : (w.stakes kind t).made ⟨c, d, slot⟩) {job : Job T} {mode : Mode} {st : PlainStage}
    (hf : (w.thread t).frame = .plain job mode st) : Agent kind w' c d t := by
  have hcx := cx_after hx hn hmade (by rw [hsel]; simp)
  have hsel' : (w'.shared.reg.cx t).select = .operation ⟨t, slot⟩ := by rw [hcx, hsel]
  have hk : (kind job.chan).Buffered := by
    have htyped := hx.typed
    rwa [hf] at htyped
  have halone : Frame.Alone kind job.chan job.side ⟨c, d, slot⟩ := by
    rw [stakes, hf] at hmade
    cases st with
    | register => exact hmade.2
    | abort | wait | unregister => exact hmade
    | _ => exact hmade.elim
  -- As long as it is registered nothing changes.
  have still : (∃ st', g = .plain job mode st' ∧ (st' = .register ∧ pr' ≠ .start ∨
      st' = .abort ∨ st' = .wait)) → Agent kind w' c d t := by
    rintro ⟨st', rfl, hst⟩
    refine .woken hsel' ?_ fun c' d' hcall => ?_
    · rw [stakes, hg, hpr]
      rcases hst with ⟨rfl, hne⟩ | rfl | rfl
      · exact ⟨hne, halone⟩
      · exact halone
      · exact halone
    · rw [hg] at hcall
      rcases hst with ⟨rfl, -⟩ | rfl | rfl <;> cases hcall
  generalize hfr : (w.thread t).frame = f at hn
  cases hn with
  | more he =>
    rw [← hfr, hf] at he
    refine still ⟨st, hfr.symm.trans hf, ?_⟩
    cases st with
    | register => exact .inl ⟨rfl, Shared.register_more he halone.1⟩
    | wait => exact .inr (.inr rfl)
    | unregister =>
      have hrelies := hx.aware.relies t
      rw [hf] at hrelies
      exact absurd hsel (hrelies.2 _)
    | abort => cases he
    | _ =>
      rw [stakes, hf] at hmade
      exact hmade.elim
  | ret he hres =>
    subst hfr
    have hidle := fun hr => idle_of_ret (c := c) hx he hres hr
    rename_i r
    rw [hf] at he hres
    cases st with
    | register =>
      cases r with
      | flag ok =>
        cases hres
        cases ok
        · exact still ⟨_, rfl, .inr (.inl rfl)⟩
        · exact still ⟨_, rfl, .inr (.inr rfl)⟩
      | _ => cases hres
    | abort =>
      cases r with
      | selected sel =>
        cases hres
        exact still ⟨_, rfl, .inr (.inr rfl)⟩
      | _ => cases hres
    | wait =>
      cases r with
      | selected sel =>
        obtain ⟨hnow, -⟩ := Shared.waitUntil_selected he
        rw [← hx.after.shared, hsel'] at hnow
        subst hnow
        obtain ⟨-, heq⟩ := halone
        cases heq
        simp only [Frame.resume, Frame.plainResume, Frame.plainWaited, Option.some.injEq] at hres
        split at hres
        · exact .late (hg.trans hres.symm) rfl rfl
        · refine tries_of_call hk (.inl ?_) (hidle (by simp))
          rw [hg, ← hres]
          rfl
      | _ => cases hres
    | unregister =>
      have hrelies := hx.aware.relies t
      rw [hf] at hrelies
      exact absurd hsel (hrelies.2 _)
    | _ =>
      rw [stakes, hf] at hmade
      exact hmade.elim

/-- **An agent steps back only for a reason**, if it does not squander what it was woken for. -/
theorem Agent.next (h : Agent kind w c d t) (hx : Stepped kind w w' t act th count)
    (hk : (kind c).Buffered) (hq : (kind c).Queues d) (hno : ¬ w.Squanders w' t) :
    Agent kind w' c d t ∨ Quits w w' t c d act := by
  have hturn := hx.turn
  -- Who begins or completes an operation is in none of the calls.
  have idle : act = .silent → (w.thread t).frame.call = .none →
      (w.thread t).frame.Calm kind → Agent kind w' c d t := by
    intro hact hcall hcalm
    have hsame : w'.shared = w.shared := by
      rw [hx.after.shared, hact]
      rfl
    cases h with
    | moved hp =>
      refine .moved ?_
      rwa [hsame]
    | wakes hf _ _ | late hf _ _ =>
      rw [hf] at hcall
      cases hcall
    | woken _ hmade _ =>
      rw [stakes, hcalm] at hmade
      exact hmade.elim
    | tries hcall' _ =>
      rw [hcall] at hcall'
      cases hcall'
  cases hturn with
  | next hn =>
    have hg := hx.after.frame
    have hpr := hx.after.prog
    cases h with
    | moved hp => exact .inl (moved_next hx hn hg hq hp)
    | wakes hf hchan hside => exact wakes_next hx hn hg hf hchan hside
    | woken hsel hmade hcall =>
      cases hf : (w.thread t).frame with
      | plain job mode st => exact .inl (woken_plain hx hn hg hpr hsel hmade hf)
      | select handles timeout st => exact .inl (woken_select hx hn hg hpr hk hsel hmade hcall hf)
      | zero job mode st =>
        have htyped := hx.typed
        have hworks := Frame.works_of_made hmade
        rw [hf] at htyped hworks
        obtain ⟨hchan, -⟩ : job.chan = c ∧ job.side = d := hworks
        rw [← hchan] at hk
        exact absurd htyped hk.not_zero
      | _ =>
        rw [stakes, hf] at hmade
        exact hmade.elim
    | late hf hchan hside => exact .inl (late_next hx hn hg hno hf hchan hside)
    | tries hcall hp => exact tries_next hx hn hg hpr hcall hp
  | start hover _ | drop hover _ _ =>
    exact .inl (idle rfl (call_of_ended hover) (Frame.over_calm hover))
  | complete hf _ => exact .inl (idle rfl (by rw [hf]; rfl) (by rw [hf]; exact fun _ => rfl))

/-- The other threads have nothing to do with it. -/
theorem Agent.other (h : Agent kind w c d t) {u : Tid} (hx : Stepped kind w w' u act th count)
    (hu : t ≠ u) : Agent kind w' c d t := by
  have hphase : (w'.shared.buffer c).phase t = (w.shared.buffer c).phase t := by
    rw [hx.after.shared]
    exact (hx.turn.kept hx.sound hx.typed).others c t hu
  have hthread := hx.after.others hu
  cases h with
  | moved hp => exact .moved (by rwa [hphase])
  | wakes hf hchan hside => exact .wakes (by rwa [hthread]) hchan hside
  | woken hsel hmade hcall =>
    have hcx : w'.shared.reg.cx t = w.shared.reg.cx t := by
      rw [hx.after.shared]
      exact Shared.cx_kept (by rw [hsel]; simp) fun h => absurd h hu
    refine .woken (by rwa [hcx]) ?_ (by rwa [hthread])
    rw [stakes, hthread]
    exact hmade
  | late hf hchan hside => exact .late (by rwa [hthread]) hchan hside
  | tries hcall hp => exact .tries (by rwa [hthread]) (by rwa [hphase])

end

end World

end CrossbeamChannel
