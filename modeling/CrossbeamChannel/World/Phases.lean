import CrossbeamChannel.World.Typed

/-!
# Operations and the channels they call

Where the operation of a thread stands says how far the thread can have come in each buffered
channel: it is inside the call its body is making, or holds the token an attempt has left,
and otherwise outside every call. So what the abstract channel says of a phase is said of
the operation.

`start_send`, `write`, `start_recv`, `read` and the rest of `array.rs` and `list.rs` are proved about on
their own, as machines of one channel, where a thread may make any call whose protocol it keeps. `Matches`
is that protocol from the side of the bodies: a thread calls `write` only with a token `start_send` has
granted, and calls nothing else while it has one. `Drives` says what a step of such a call is to both
sides. With `Sound` the books of the registry, the abstract channels and the phases hold together in every
reachable state, and all further invariants are proved on top of it.
-/

namespace CrossbeamChannel

variable {Tid T : Type}

namespace Phase

/-- A thread that is making this call can have come this far. -/
def Fits : BufferCall T → Phase T → Prop
  | .start _, .idle => True
  | .start d, .fresh => d = .send
  | .start d, .late | .start d, .gone => d = .recv
  | .start d, .trying d' | .start d, .taken d' | .start d, .granted d' | .start d, .null d'
  | .start d, .refused d' => d' = d
  | .write _, .granted d | .write _, .null d | .write _, .completing d => d = .send
  | .write _, .written => True
  | .write msg, .unsent msg' => msg' = msg
  | .read, .granted d | .read, .null d | .read, .completing d => d = .recv
  | .read, .got _ | .read, .unread => True
  | .unavailable _, .idle => True
  | .unavailable d, .asking d' | .unavailable d, .answered d' _ => d' = d
  | .isDisconnected, .idle | .isDisconnected, .loading | .isDisconnected, .loaded _ => True
  | .disconnect, .idle | .disconnect, .swapping | .disconnect, .swapped _ => True
  | _, _ => False

/-- What the answer of a call leaves behind. -/
def Left (k : BufferCall T) (a : Answer T) (p : Phase T) : Prop :=
  match k, a with
  | .start d, .granted => p = .granted d
  | .start d, .null => p = .null d
  | _, _ => p = .idle

variable {cap : Option Nat} {v v' : View} {p p' : Phase T} {k : BufferCall T}

theorem Fits.enter (h : Fits k p) (he : p.enter k = some p') : Fits k p' := by
  unfold Phase.enter at he
  split at he <;> cases he <;> trivial

theorem Fits.step (h : Fits k p) (hs : Step cap v p v' p') : Fits k p' := by
  cases hs with
  | stay => exact h
  | take hp =>
    rcases hp with rfl | rfl <;> cases k <;> first | exact h | exact h.elim
  | connected _ | closed _ | settle | full _ | empty _ | refuse _ | gone _ | null _ | retry | wrote
  | got | answer _ | loaded | swapped =>
    cases k <;> first | exact h | exact Eq.symm h | exact trivial | cases h

theorem Fits.left {a : Answer T} (h : Fits k p) (ha : p.answer k = some a) : Left k a p.leave := by
  unfold Phase.answer at ha
  split at ha <;> cases ha <;> first | rfl | (cases h; rfl)

/-- One step of the call `k`, from where such a call can be. -/
theorem Fits.drive {r : Option (Answer T)} (h : Fits k p) (hd : Drive cap k v p v' p' r) :
    (r = none → Fits k p') ∧ ∀ a, r = some a → Left k a p' := by
  cases hd with
  | enter he => exact ⟨fun _ => h.enter he, by simp⟩
  | run hs => exact ⟨fun _ => h.step hs, by simp⟩
  | answer ha =>
    refine ⟨by simp, fun a heq => ?_⟩
    cases heq
    exact h.left ha

end Phase

/-- What `try` calls. -/
def Kind.starts (c : Nat) (d : Side) : Kind T → Option (Nat × BufferCall T)
  | .array _ _ | .list => some (c, .start d)
  | _ => none

theorem Kind.starts_eq {k : Kind T} {c : Nat} {d : Side} {x : Nat × BufferCall T}
    (h : k.starts c d = some x) : x = (c, .start d) ∧ k.Buffered := by
  cases k <;> cases h <;> exact ⟨rfl, trivial⟩

theorem Kind.starts_none {k : Kind T} {c : Nat} {d : Side} (h : k.starts c d = none) :
    ¬ k.Buffered := by
  cases k <;> first | exact id | cases h

/-- What the look of `register` behind its queue calls. -/
def Prog.checks (c : Nat) (d : Side) : Prog → Option (Nat × BufferCall T)
  | .checking => some (c, .unavailable d)
  | .connecting => some (c, .isDisconnected)
  | _ => none

/-- The call of a buffered channel that a call is making. -/
def Call.onBuffer (kind : Nat → Kind T) (pr : Prog) : Call T → Option (Nat × BufferCall T)
  | .start c d | .retry c d | .accept c d => (kind c).starts c d
  | .register c d _ =>
      match kind c, d with
      | .list, .send => some (c, .isDisconnected)
      | .array _ _, _ | .list, .recv => pr.checks c d
      | _, _ => Option.none
  | .write c msg => some (c, .write msg)
  | .read c => some (c, .read)
  | .setDisconnected c => some (c, .disconnect)
  | _ => Option.none

/-- How the caller goes on with the answer of the buffered channel. -/
def BufferCall.answered : BufferCall T → Answer T → Reply Tid T
  | .start _, a => Shared.started a
  | .unavailable _, a => Shared.unready a
  | .isDisconnected, a => Shared.connected a
  | _, a => .ret (.answer a)

namespace BufferCall

variable {k : BufferCall T} {a : Answer T} {p : Phase T}

/-- Only the first look of a registration goes on to another. -/
theorem answered_more {pr : Prog} (h : (k.answered a : Reply Tid T) = .more pr) :
    ∃ d, k = .unavailable d := by
  cases k with
  | unavailable d => exact ⟨d, rfl⟩
  | start d => cases a <;> cases h
  | isDisconnected => cases a <;> cases h
  | _ => cases h

/-- A call that returns no token leaves none behind. -/
theorem idle_of_answered {r : Ret Tid T} (h : k.answered a = .ret r) (hr : ∀ tk, r ≠ .token tk)
    (hp : Phase.Left k a p) : p = .idle := by
  cases k with
  | start d =>
    cases a with
    | granted | null =>
      cases h
      exact absurd rfl (hr _)
    | _ => exact hp
  | _ => exact hp

/-- A call that returns a token is an attempt. -/
theorem start_of_answered {tk : Token} (h : (k.answered a : Reply Tid T) = .ret (.token tk)) :
    ∃ d, k = .start d := by
  cases k with
  | start d => exact ⟨d, rfl⟩
  | unavailable d =>
    cases a with
    | flag b => cases b <;> cases h
    | _ => cases h
  | isDisconnected => cases a <;> cases h
  | _ => cases h

end BufferCall

/-- The phase that goes with a token. -/
def Token.phase (k : Kind T) (d : Side) : Token → Phase T
  | .slot => .granted d
  | .null =>
      match k with
      | .zero => .idle
      | _ => .null d
  | _ => .idle

theorem Token.phase_idle {tk : Token} {k : Kind T} {d : Side} (hs : tk.Suits k)
    (hk : ¬ k.Buffered) : (tk.phase k d : Phase T) = .idle := by
  cases tk with
  | slot => exact absurd hs hk
  | null =>
    rw [(hs.resolve_left hk).eq]
    rfl
  | packet _ | instant _ => rfl

/-- The answer of `start` that goes with a token. -/
theorem Token.phase_of_left {tk : Token} {k : Kind T} {d : Side} {a : Answer T} {p : Phase T}
    (hk : k.Buffered) (ha : (Shared.started a : Reply Tid T) = .ret (.token tk))
    (hp : Phase.Left (.start d) a p) : (tk = .slot ∨ tk = .null) ∧ p = tk.phase k d := by
  cases a <;> cases ha
  · exact ⟨.inl rfl, hp⟩
  · refine ⟨.inr rfl, ?_⟩
    cases k <;> first | exact hp | exact hk.elim

namespace Frame

/-- Where the operation stands, the thread can be in this phase of channel `c`. -/
def Matches (kind : Nat → Kind T) (f : Frame Tid T) (pr : Prog) (c : Nat) (p : Phase T) : Prop :=
  match f with
  | .chosen x tk => p = if c = x.chan then tk.phase (kind x.chan) x.side else .idle
  | f =>
      match f.call.onBuffer kind pr with
      | some (c', k) => if c' = c then p.Fits k else p = .idle
      | none => p = .idle

end Frame

namespace Shared

variable [DecidableEq Tid] {w : Shared Tid T} {t : Tid} {kind : Nat → Kind T} {call : Call T}
  {act : Act Tid T} {rep : Reply Tid T} {pr : Prog} {spurious : Bool}

/-- A call that is calling the buffered channel `c`: its step drives the channel. -/
structure Drives (w : Shared Tid T) (t : Tid) (kind : Nat → Kind T) (call : Call T) (pr : Prog)
    (c : Nat) (k : BufferCall T) (act : Act Tid T) (rep : Reply Tid T) (a : Option (Answer T)) :
    Prop where
  drive : ∃ spurious b, (w.buffer c).drive t k spurious = some (b, a) ∧ act = .drive c k b a
  goes : a = none → ∃ pr', rep = .more pr' ∧ call.onBuffer kind pr' = some (c, k)
  answers : ∀ a', a = some a' → rep = k.answered a'

theorem drives_of_drive {c : Nat} {k : BufferCall T} {f : Answer T → Reply Tid T} {pr' : Prog}
    (h : w.drive t c k pr' spurious f = some (act, rep)) (hpr : call.onBuffer kind pr' = some (c, k))
    (hf : ∀ a, f a = k.answered a) : ∃ a, Drives w t kind call pr c k act rep a := by
  obtain ⟨b, a, hd, hact, hrep⟩ := drive_act h
  refine ⟨a, ⟨spurious, b, hd, hact⟩, ?_, ?_⟩
  · rintro rfl
    exact ⟨pr', hrep, hpr⟩
  · rintro a' rfl
    exact hrep.trans (hf a')

theorem start_buffered {c : Nat} {d : Side} (hk : (kind c).Buffered) :
    w.start t kind c d pr spurious = w.drive t c (.start d) .start spurious started := by
  unfold start
  cases h : kind c <;> first | rfl | (rw [h] at hk; exact hk.elim)

theorem retry_buffered {c : Nat} {d : Side} (hk : (kind c).Buffered) :
    w.retry t kind c d pr spurious = w.start t kind c d pr spurious := by
  unfold retry
  cases h : kind c <;> first | rfl | (rw [h] at hk; exact hk.elim)

theorem accept_buffered {c : Nat} {d : Side} (hk : (kind c).Buffered) :
    w.accept t kind c d pr spurious = w.start t kind c d pr spurious := by
  unfold accept
  cases h : kind c <;> first | rfl | (rw [h] at hk; exact hk.elim)

/-- The step of a call that is calling a buffered channel. -/
theorem exec_onBuffer {c : Nat} {k : BufferCall T} (hc : call.onBuffer kind pr = some (c, k))
    (h : w.exec t kind call pr spurious = some (act, rep)) :
    ∃ a, Drives w t kind call pr c k act rep a := by
  cases call with
  | start c' d =>
    obtain ⟨heq, hk⟩ := Kind.starts_eq hc
    cases heq
    exact drives_of_drive ((start_buffered hk).symm.trans h) hc fun _ => rfl
  | retry c' d =>
    obtain ⟨heq, hk⟩ := Kind.starts_eq hc
    cases heq
    exact drives_of_drive (((retry_buffered hk).trans (start_buffered hk)).symm.trans h) hc
      fun _ => rfl
  | accept c' d =>
    obtain ⟨heq, hk⟩ := Kind.starts_eq hc
    cases heq
    exact drives_of_drive (((accept_buffered hk).trans (start_buffered hk)).symm.trans h) hc
      fun _ => rfl
  | register c' d slot =>
    have buffer : w.registerBuffer t c' d slot pr spurious = some (act, rep) →
        (∀ pr', Call.onBuffer kind pr' (.register c' d slot) = pr'.checks c' d) →
        ∃ a, Drives w t kind (.register c' d slot) pr c k act rep a := by
      intro hb hon
      rw [hon] at hc
      cases pr <;> cases hc
      · exact drives_of_drive hb (hon .checking) fun _ => rfl
      · exact drives_of_drive hb (hon .connecting) fun _ => rfl
    simp only [exec, Shared.register] at h
    simp only [Call.onBuffer] at hc buffer
    cases hk : kind c' with
    | array ch built =>
      rw [hk] at h buffer
      exact buffer h fun _ => rfl
    | list =>
      rw [hk] at h buffer hc
      cases d with
      | send =>
        cases hc
        exact drives_of_drive h (by simp only [Call.onBuffer, hk]) fun _ => rfl
      | recv => exact buffer h fun _ => rfl
    | zero | after _ | tick _ _ | never =>
      rw [hk] at hc
      cases hc
  | write c' msg =>
    cases hc
    exact drives_of_drive h rfl fun _ => rfl
  | read c' =>
    cases hc
    exact drives_of_drive h rfl fun _ => rfl
  | setDisconnected c' =>
    cases hc
    exact drives_of_drive h rfl fun _ => rfl
  | _ => cases hc

theorem pair_buffer {c : Nat} {d : Side} {offer : Option (Packet T)}
    (h : w.pair t c d offer = (act, rep)) : (w.apply t act).buffer = w.buffer := by
  unfold pair at h
  repeat' split at h
  all_goals cases h
  all_goals rfl

theorem start_unbuffered {c : Nat} {d : Side} (hk : ¬ (kind c).Buffered)
    (h : w.start t kind c d pr spurious = some (act, rep)) : (w.apply t act).buffer = w.buffer := by
  unfold start at h
  split at h
  · rename_i hkc
    rw [hkc] at hk
    exact absurd trivial hk
  · rename_i hkc
    rw [hkc] at hk
    exact absurd trivial hk
  · exact pair_buffer (Option.some.inj h)
  · unfold tryAfter at h
    split at h <;> cases h <;> rfl
  · unfold tryTick at h
    split at h <;> cases h <;> rfl
  · cases h
    rfl

/-- The step of any other call. -/
theorem exec_offBuffer (hc : call.onBuffer kind pr = none)
    (h : w.exec t kind call pr spurious = some (act, rep)) : (w.apply t act).buffer = w.buffer := by
  cases call with
  | start c d => exact start_unbuffered (Kind.starts_none hc) h
  | retry c d =>
    simp only [exec, retry] at h
    split at h
    · exact pair_buffer (Option.some.inj h)
    · exact start_unbuffered (Kind.starts_none hc) h
  | accept c d =>
    simp only [exec, accept] at h
    split at h
    · cases h
      rfl
    · exact start_unbuffered (Kind.starts_none hc) h
  | register c d slot =>
    have buffer : w.registerBuffer t c d slot pr spurious = some (act, rep) →
        (pr.checks c d : Option (Nat × BufferCall T)) = none →
        (w.apply t act).buffer = w.buffer := by
      intro hb hon
      cases pr <;> cases hon <;> cases hb
      rfl
    simp only [exec, Shared.register] at h
    simp only [Call.onBuffer] at hc
    cases hk : kind c with
    | array ch built =>
      rw [hk] at h hc
      exact buffer h hc
    | list =>
      rw [hk] at h hc
      cases d with
      | send => cases hc
      | recv => exact buffer h hc
    | zero =>
      rw [hk] at h
      dsimp only at h
      split at h <;> cases h
      rfl
    | after _ | tick _ _ | never =>
      rw [hk] at h
      cases h
      rfl
  | unregister c d slot =>
    simp only [exec, Shared.unregister, unregisterSync] at h
    repeat' split at h
    all_goals cases h
    all_goals rfl
  | wakeOne c d =>
    simp only [exec, wakeOneSync] at h
    split at h <;> cases h <;> rfl
  | pair c d offer => exact pair_buffer (Option.some.inj h)
  | disconnectZero c =>
    simp only [exec] at h
    cases h
    split <;> rfl
  | waitUntil deadline =>
    simp only [exec, waitUntil] at h
    split at h <;> cases h <;> rfl
  | recvTimer c deadline =>
    simp only [exec, recvTimer] at h
    split at h
    case h_7 => split at h <;> cases h <;> rfl
    all_goals cases h <;> rfl
  | write c msg | read c | setDisconnected c => cases hc
  | none => cases h
  | _ =>
    cases h
    rfl

end Shared

namespace Call

/-- A call that needs no token. -/
def Tokenless : Call T → Prop
  | .write _ _ | .read _ => False
  | _ => True

theorem Tokenless.fits_idle {kind : Nat → Kind T} {call : Call T} (h : call.Tokenless) {pr : Prog}
    {c : Nat} {k : BufferCall T} (hc : call.onBuffer kind pr = some (c, k)) :
    (.idle : Phase T).Fits k := by
  cases call with
  | start c' d | retry c' d | accept c' d =>
    obtain ⟨heq, -⟩ := Kind.starts_eq hc
    cases heq
    trivial
  | register c' d slot =>
    have checks : (pr.checks c' d : Option (Nat × BufferCall T)) = some (c, k) →
        (.idle : Phase T).Fits k := by
      intro h
      unfold Prog.checks at h
      split at h <;> cases h <;> trivial
    simp only [onBuffer] at hc
    split at hc
    · cases hc
      trivial
    · exact checks hc
    · exact checks hc
    · cases hc
  | write _ _ | read _ => exact h.elim
  | setDisconnected c' =>
    cases hc
    trivial
  | _ => cases hc

theorem onBuffer_tokenless {kind : Nat → Kind T} {call : Call T} {pr : Prog}
    (h : call.onBuffer kind pr = Option.none) : call.Tokenless := by
  cases call with
  | write _ _ | read _ => cases h
  | _ => trivial

end Call

namespace Frame

variable {kind : Nat → Kind T}

/-- At this place the thread holds no token of a buffered channel. -/
def Resting (kind : Nat → Kind T) : Frame Tid T → Prop
  | .chosen x tk => tk.phase (kind x.chan) x.side = .idle
  | .finish _ .complete => False
  | _ => True

theorem onHandle_tokenless {handles : List Handle} {i : Nat} {g : Handle → Call T}
    (hg : ∀ x, (g x).Tokenless) : (onHandle handles i g).Tokenless := by
  unfold onHandle
  split
  · exact hg _
  · trivial

theorem Resting.tokenless {f : Frame Tid T} (h : f.Resting kind) : f.call.Tokenless := by
  cases f with
  | plain job mode st => cases st <;> trivial
  | zero job mode st => cases st <;> trivial
  | timer c mode => cases mode <;> trivial
  | finish job st =>
    cases st with
    | complete => exact h.elim
    | storeMsg p =>
      obtain ⟨c, msg⟩ := job
      cases msg <;> trivial
    | _ => trivial
  | select handles timeout st =>
    cases st with
    | again i st => cases st <;> first | trivial | exact onHandle_tokenless fun _ => trivial
    | attempt _ | probe _ _ | register _ | deadline _ _ | unregister _ _ _ | accept _ | snapshot _
    | recheck _ _ _ => exact onHandle_tokenless fun _ => trivial
    | _ => trivial
  | close c d st => cases st <;> trivial
  | done _ | chosen _ _ | panicked => trivial

theorem Resting.matches_idle {f : Frame Tid T} (h : f.Resting kind) (pr : Prog) (c : Nat) :
    f.Matches kind pr c .idle := by
  have other : (match f.call.onBuffer kind pr with
      | some (c', k) => if c' = c then (.idle : Phase T).Fits k else (.idle : Phase T) = .idle
      | none => (.idle : Phase T) = .idle) := by
    split
    · split
      · exact h.tokenless.fits_idle ‹_›
      · rfl
    · rfl
  cases f with
  | chosen x tk =>
    change _ = if c = x.chan then tk.phase (kind x.chan) x.side else .idle
    split
    · exact Eq.symm h
    · rfl
  | _ => exact other

theorem completed_resting {job : Job T} {a : Answer T} {g : Frame Tid T}
    (h : completed kind job a = some g) : g.Resting kind := by
  unfold completed at h
  repeat' split at h
  all_goals cases h
  all_goals trivial

theorem nextHandle_resting {handles : List Handle} {timeout : Timeout} {i : Nat}
    {g : Nat → SelectStage Tid} {last : Frame Tid T} (hl : last.Resting kind) :
    (nextHandle handles timeout i g last).Resting kind := by
  unfold nextHandle
  split
  · trivial
  · exact hl

theorem loopStart_resting (handles : List Handle) (timeout : Timeout) :
    (loopStart handles timeout : Frame Tid T).Resting kind := by
  unfold loopStart
  split <;> trivial

theorem nowStart_resting (handles : List Handle) :
    (nowStart handles : Frame Tid T).Resting kind := by
  unfold nowStart
  split <;> trivial

theorem roundOver_resting (handles : List Handle) (timeout : Timeout) :
    (roundOver handles timeout : Frame Tid T).Resting kind := by
  unfold roundOver
  split
  · trivial
  · exact loopStart_resting _ _
  · trivial

theorem unselected_resting (sel : Selected Tid) (msg : Option T) :
    (unselected sel msg).Resting kind := by
  unfold unselected
  split <;> trivial

theorem plainWaited_resting (job : Job T) (mode : Mode) (woken : Bool) :
    (plainWaited job mode woken : Frame Tid T).Resting kind := by
  unfold plainWaited
  split <;> trivial

variable [DecidableEq Tid] {t : Tid} {order : List Handle} {f g : Frame Tid T} {r : Ret Tid T}

omit [DecidableEq Tid] in
theorem plainResume_resting {job : Job T} {mode : Mode} {st : PlainStage}
    (h : plainResume kind job mode st r = some g) (hr : ∀ tk, r ≠ .token tk) : g.Resting kind := by
  unfold plainResume at h
  split at h
  · exact absurd rfl (hr _)
  · cases h
    unfold plainFailed
    repeat' split
    all_goals trivial
  all_goals cases h
  all_goals first | exact plainWaited_resting _ _ _ | trivial | (split <;> trivial)

omit [DecidableEq Tid] in
theorem zeroResume_resting {job : Job T} {mode : Mode} {st : ZeroStage Tid}
    (h : zeroResume kind job mode st r = some g) (hr : ∀ tk, r ≠ .token tk) : g.Resting kind := by
  unfold zeroResume at h
  split at h
  · exact absurd rfl (hr _)
  all_goals cases h
  all_goals first | trivial | exact unselected_resting _ _ | split
  all_goals first | trivial | exact unselected_resting _ _

omit [DecidableEq Tid] in
theorem retryResume_resting {handles : List Handle} {timeout : Timeout} {i : Nat}
    {st : RetryStage Tid} (hf : (select handles timeout (.again i st) : Frame Tid T).Typed kind)
    (h : retryResume handles timeout i st r = some g) (hr : ∀ tk, r ≠ .token tk) :
    g.Resting kind := by
  unfold retryResume at h
  split at h
  · exact absurd rfl (hr _)
  · exact absurd rfl (hr _)
  · cases h
    exact nextHandle_resting trivial
  case h_10 =>
    -- A disconnected zero channel leaves a null token, but no buffered channel knows of it.
    obtain ⟨x, hx, hk⟩ := hf
    obtain ⟨y, hy, rfl⟩ := Option.map_eq_some_iff.mp h
    obtain rfl : x = y := Option.some.inj (hx.symm.trans hy)
    simp only [Resting, Token.phase, hk.eq]
  case h_11 =>
    cases h
    exact nextHandle_resting trivial
  all_goals cases h
  all_goals trivial

theorem selectResume_resting {handles : List Handle} {timeout : Timeout} {st : SelectStage Tid}
    (hf : (select handles timeout st : Frame Tid T).Typed kind)
    (h : selectResume t order handles timeout st r = some g) (hr : ∀ tk, r ≠ .token tk) :
    g.Resting kind := by
  unfold selectResume at h
  split at h
  · split at h <;> cases h
    trivial
  · exact absurd rfl (hr _)
  · exact absurd rfl (hr _)
  · exact absurd rfl (hr _)
  · cases h
    exact nextHandle_resting trivial
  · exact retryResume_resting hf h hr
  · cases h
    trivial
  · cases h
    trivial
  · cases h
    trivial
  · cases h
    split
    · exact nextHandle_resting trivial
    · trivial
  · cases h
    exact nextHandle_resting trivial
  · cases h
    trivial
  · cases h
    split
    · trivial
    · unfold selectedNow
      split
      · trivial
      · split
        · trivial
        · exact roundOver_resting _ _
      · exact roundOver_resting _ _
  · cases h
    exact roundOver_resting _ _
  · cases h
    split
    · exact nowStart_resting _
    · exact loopStart_resting _ _
  · split at h <;> cases h
    trivial
  · cases h
    split <;> trivial
  · cases h
    refine nextHandle_resting ?_
    unfold probed
    split <;> trivial
  · cases h
    unfold rechecked
    repeat' split
    all_goals trivial
  · cases h
    split <;> trivial
  · cases h

/-- Only a token takes an operation to a place where it holds one. -/
theorem resume_resting (hf : f.Typed kind) (h : f.resume kind t order r = some g)
    (hr : ∀ tk, r ≠ .token tk) : g.Resting kind := by
  cases f with
  | plain job mode st => exact plainResume_resting h hr
  | zero job mode st => exact zeroResume_resting h hr
  | finish job st =>
    simp only [resume, finishResume] at h
    split at h
    · exact completed_resting h
    all_goals cases h
    all_goals trivial
  | select handles timeout st => exact selectResume_resting hf h hr
  | timer c mode =>
    simp only [resume, timerResume] at h
    repeat' split at h
    all_goals cases h
    all_goals trivial
  | close c d st =>
    simp only [resume, closeResume] at h
    repeat' split at h
    all_goals cases h
    all_goals trivial
  | done out => cases h
  | chosen x tk => cases h
  | panicked => cases h

omit [DecidableEq Tid] in
theorem choose_eq {handles : List Handle} {i : Nat} {tk : Token} (h : choose handles i tk = some g) :
    ∃ x, handles[i]? = some x ∧ g = .chosen x tk := by
  obtain ⟨x, hx, rfl⟩ := Option.map_eq_some_iff.mp h
  exact ⟨x, hx, rfl⟩

/-- Where a token takes an operation. -/
theorem resume_token {tk : Token} (h : f.resume kind t order (.token tk) = some g) :
    (∃ job, g = finishWith kind job tk ∧
      ((∃ mode n, f = .plain job mode (.attempt n)) ∨ ∃ mode, f = .zero job mode .pair)) ∨
    (∃ handles timeout st i x, f = .select handles timeout st ∧ handles[i]? = some x ∧
      g = .chosen x tk ∧ (st = .attempt i ∨ st = .accept i ∨ (∃ states, st = .probe i states) ∨
        st = .again i .first ∨ st = .again i .packet)) ∨
    (∃ c mode i, f = .timer c mode ∧ tk = .instant i ∧ g = .done (.okInstant i)) := by
  cases f with
  | plain job mode st =>
    cases st <;> cases h
    exact .inl ⟨job, rfl, .inl ⟨mode, _, rfl⟩⟩
  | zero job mode st =>
    cases st <;> cases h
    exact .inl ⟨job, rfl, .inr ⟨mode, rfl⟩⟩
  | finish job st => cases st <;> cases h
  | select handles timeout st =>
    cases st with
    | attempt i =>
      obtain ⟨x, hx, rfl⟩ := choose_eq h
      exact .inr (.inl ⟨handles, timeout, _, i, x, rfl, hx, rfl, .inl rfl⟩)
    | accept i =>
      obtain ⟨x, hx, rfl⟩ := choose_eq h
      exact .inr (.inl ⟨handles, timeout, _, i, x, rfl, hx, rfl, .inr (.inl rfl)⟩)
    | probe i states =>
      obtain ⟨x, hx, rfl⟩ := choose_eq h
      exact .inr (.inl ⟨handles, timeout, _, i, x, rfl, hx, rfl, .inr (.inr (.inl ⟨states, rfl⟩))⟩)
    | again i st =>
      cases st with
      | first =>
        obtain ⟨x, hx, rfl⟩ := choose_eq h
        exact .inr (.inl ⟨handles, timeout, _, i, x, rfl, hx, rfl, .inr (.inr (.inr (.inl rfl)))⟩)
      | packet =>
        obtain ⟨x, hx, rfl⟩ := choose_eq h
        exact .inr (.inl ⟨handles, timeout, _, i, x, rfl, hx, rfl, .inr (.inr (.inr (.inr rfl)))⟩)
      | dropPacket p sel => cases sel <;> cases h
      | _ => cases h
    | _ => cases h
  | timer c mode =>
    simp only [resume, timerResume] at h
    split at h
    · rename_i i heq
      cases heq
      cases h
      exact .inr (.inr ⟨c, mode, i, rfl, rfl, rfl⟩)
    · rename_i heq
      cases heq
    · cases h
  | close c d st => cases st <;> cases h
  | done out => cases h
  | chosen x tk => cases h
  | panicked => cases h

end Frame

namespace Frame

variable [DecidableEq Tid] {kind : Nat → Kind T} {w : Shared Tid T} {t : Tid} {act : Act Tid T}
  {f g : Frame Tid T} {pr pr' : Prog}

omit [DecidableEq Tid] in
theorem matches_iff (hf : ∀ x tk, f ≠ .chosen x tk) {c : Nat} {p : Phase T} :
    f.Matches kind pr c p ↔
      match f.call.onBuffer kind pr with
      | some (c', k) => if c' = c then p.Fits k else p = .idle
      | none => p = .idle := by
  cases f with
  | chosen x tk => exact absurd rfl (hf x tk)
  | _ => exact Iff.rfl

/-- What a step of thread `t` does to the buffered channels: it drives at most one of them. -/
theorem Next.buffers (h : Next kind w t f pr act g pr') (hb : ∀ c, (w.buffer c).Ok) :
    (∀ c, ((w.apply t act).buffer c).Ok) ∧
    (∀ c, ((w.apply t act).buffer c).cap = (w.buffer c).cap) ∧
    (∀ c u, u ≠ t → ((w.apply t act).buffer c).phase u = (w.buffer c).phase u) := by
  have key : ∀ {spurious rep}, w.exec t kind f.call pr spurious = some (act, rep) →
      (∀ c, ((w.apply t act).buffer c).Ok) ∧
      (∀ c, ((w.apply t act).buffer c).cap = (w.buffer c).cap) ∧
      (∀ c u, u ≠ t → ((w.apply t act).buffer c).phase u = (w.buffer c).phase u) := by
    intro spurious rep he
    cases hc : f.call.onBuffer kind pr with
    | none =>
      rw [Shared.exec_offBuffer hc he]
      exact ⟨hb, fun _ => rfl, fun _ _ _ => rfl⟩
    | some ck =>
      obtain ⟨c, k⟩ := ck
      obtain ⟨a, hd⟩ := Shared.exec_onBuffer hc he
      obtain ⟨spurious', b, hdrive, rfl⟩ := hd.drive
      have hdriven := Buffer.drive_driven (hb c) hdrive
      refine ⟨fun c' => ?_, fun c' => ?_, fun c' u hu => ?_⟩ <;> by_cases hcc : c' = c
      · subst hcc
        simp only [Shared.apply, Function.update_self]
        exact hdriven.ok
      · simp only [Shared.apply, Function.update_of_ne hcc]
        exact hb c'
      · subst hcc
        simp only [Shared.apply, Function.update_self]
        exact hdriven.cap
      · simp only [Shared.apply, Function.update_of_ne hcc]
      · subst hcc
        simp only [Shared.apply, Function.update_self]
        exact hdriven.others u hu
      · simp only [Shared.apply, Function.update_of_ne hcc]
  cases h with
  | more he => exact key he
  | ret he => exact key he

omit [DecidableEq Tid] in
/-- A place reached with a token of another flavor. -/
theorem resting_of_unbuffered {job : Job T} {tk : Token} (hs : tk.Suits (kind job.chan))
    (hk : ¬ (kind job.chan).Buffered) : (finishWith kind job tk : Frame Tid T).Resting kind := by
  cases tk with
  | slot => exact absurd hs hk
  | null =>
    have hzero := (hs.resolve_left hk).eq
    simp only [finishWith, hzero]
    trivial
  | packet p =>
    simp only [finishWith]
    split <;> trivial
  | instant i => trivial

/-- A step of a call that calls no buffered channel. -/
theorem Next.matches_off (h : Next kind w t f pr act g pr') (hf : f.Typed kind)
    (hm : ∀ c, f.Matches kind pr c ((w.buffer c).phase t)) (hnc : ∀ x tk, f ≠ .chosen x tk)
    (hc : f.call.onBuffer kind pr = none) :
    ∀ c, g.Matches kind pr' c (((w.apply t act).buffer c).phase t) := by
  have hidle : ∀ c, (w.buffer c).phase t = .idle := by
    intro c
    have := (matches_iff hnc).mp (hm c)
    rwa [hc] at this
  intro c
  cases h with
  | more he =>
    rw [Shared.exec_offBuffer hc he, hidle, matches_iff hnc]
    split
    · split
      · exact (Call.onBuffer_tokenless hc).fits_idle ‹_›
      · rfl
    · rfl
  | ret he hr =>
    rw [Shared.exec_offBuffer hc he, hidle]
    rename_i r
    by_cases htok : ∃ tk, r = .token tk
    · obtain ⟨tk, rfl⟩ := htok
      have hg := (Next.ret he hr).typed hf
      refine Resting.matches_idle ?_ .start c
      rcases resume_token hr with ⟨job, rfl, ⟨mode, n, rfl⟩ | ⟨mode, rfl⟩⟩ |
        ⟨handles, timeout, st, i, x, rfl, hx, rfl, hst⟩ | ⟨c', mode, i, rfl, -, rfl⟩
      · exact absurd hf (Kind.starts_none hc)
      · exact resting_of_unbuffered (Shared.pair_token (Option.some.inj he) hf) fun hb => hb.not_zero hf
      · refine Token.phase_idle hg ?_
        rcases hst with rfl | rfl | ⟨states, rfl⟩ | rfl | rfl
        · simp only [call, selectCall, onHandle, hx] at hc
          exact Kind.starts_none hc
        · simp only [call, selectCall, onHandle, hx] at hc
          exact Kind.starts_none hc
        · simp only [call, selectCall, onHandle, hx] at hc
          exact Kind.starts_none hc
        · simp only [call, selectCall, onHandle, hx] at hc
          exact Kind.starts_none hc
        · obtain ⟨y, hy, hk⟩ := hf
          obtain rfl : x = y := Option.some.inj (hx.symm.trans hy)
          exact fun hb => hb.not_zero hk
      · trivial
    · exact (resume_resting hf hr fun tk htk => htok ⟨tk, htk⟩).matches_idle .start c

omit [DecidableEq Tid] in
/-- Completing an operation begins where its token says. -/
theorem finishWith_matches {job : Job T} {tk : Token} (hs : tk.Suits (kind job.chan)) (c : Nat) :
    (finishWith kind job tk : Frame Tid T).Matches kind .start c
      (if c = job.chan then tk.phase (kind job.chan) job.side else .idle) := by
  by_cases hk : (kind job.chan).Buffered
  · have hg : (finishWith kind job tk : Frame Tid T) = .finish job .complete := by
      cases tk with
      | slot => rfl
      | null =>
        simp only [finishWith]
        split
        · rename_i hzero
          rw [hzero] at hk
          exact hk.elim
        · rfl
      | packet p => exact absurd hs hk.not_zero
      | instant i => exact absurd hk hs.1
    have hphase : tk.phase (kind job.chan) job.side = (.granted job.side : Phase T) ∨
        tk.phase (kind job.chan) job.side = (.null job.side : Phase T) := by
      cases tk with
      | slot => exact .inl rfl
      | null =>
        right
        cases hkind : kind job.chan <;> first | rfl | (rw [hkind] at hk; exact hk.elim)
      | packet p => exact absurd hs hk.not_zero
      | instant i => exact absurd hk hs.1
    rw [hg]
    obtain ⟨c', msg⟩ := job
    cases msg <;>
    · change if c' = c then _ else _
      by_cases hcc : c' = c
      · subst hcc
        rw [if_pos rfl, if_pos rfl]
        rcases hphase with h | h <;> rw [h] <;> rfl
      · rw [if_neg hcc, if_neg (Ne.symm hcc)]
  · have hidle : (if c = job.chan then tk.phase (kind job.chan) job.side else .idle : Phase T) =
        .idle := by
      split
      · exact Token.phase_idle hs hk
      · rfl
    rw [hidle]
    exact (resting_of_unbuffered hs hk).matches_idle .start c

/-- The token of a buffered channel takes the operation to where it holds it. -/
theorem token_matches {tk : Token} {order : List Handle} {c : Nat} {k : BufferCall T}
    {a : Answer T} {p : Phase T} (hf : f.Typed kind)
    (hc : f.call.onBuffer kind pr = some (c, k)) (ha : (k.answered a : Reply Tid T) = .ret (.token tk))
    (hr : f.resume kind t order (.token tk) = some g) (hp : Phase.Left k a p) (c' : Nat) :
    g.Matches kind .start c' (if c' = c then p else .idle) := by
  obtain ⟨d, rfl⟩ := BufferCall.start_of_answered ha
  rcases resume_token hr with ⟨job, rfl, ⟨mode, n, rfl⟩ | ⟨mode, rfl⟩⟩ |
    ⟨handles, timeout, st, i, x, rfl, hx, rfl, hst⟩ | ⟨c'', mode, i, rfl, rfl, rfl⟩
  · obtain ⟨heq, hk⟩ := Kind.starts_eq hc
    cases heq
    obtain ⟨htk, rfl⟩ := Token.phase_of_left hk ha hp
    refine finishWith_matches ?_ c'
    rcases htk with rfl | rfl
    · exact hk
    · exact .inl hk
  · cases hc
  · have hxc : (kind x.chan).starts x.chan x.side = some (c, .start d) := by
      rcases hst with rfl | rfl | ⟨states, rfl⟩ | rfl | rfl
      · simpa only [call, selectCall, onHandle, hx, Call.onBuffer] using hc
      · simpa only [call, selectCall, onHandle, hx, Call.onBuffer] using hc
      · simpa only [call, selectCall, onHandle, hx, Call.onBuffer] using hc
      · simpa only [call, selectCall, onHandle, hx, Call.onBuffer] using hc
      · cases hc
    obtain ⟨heq, hk⟩ := Kind.starts_eq hxc
    cases heq
    obtain ⟨-, rfl⟩ := Token.phase_of_left hk ha hp
    rfl
  · cases a <;> cases ha

/-- A step of a call that calls a buffered channel. -/
theorem Next.matches_on (h : Next kind w t f pr act g pr') (hf : f.Typed kind)
    (hb : ∀ c, (w.buffer c).Ok) (hm : ∀ c, f.Matches kind pr c ((w.buffer c).phase t))
    (hnc : ∀ x tk, f ≠ .chosen x tk) {c : Nat} {k : BufferCall T}
    (hc : f.call.onBuffer kind pr = some (c, k)) :
    ∀ c', g.Matches kind pr' c' (((w.apply t act).buffer c').phase t) := by
  -- Before the step the thread is in a call on `c`, and in none on any other channel.
  have hfits : ∀ c', if c' = c then ((w.buffer c').phase t).Fits k else (w.buffer c').phase t = .idle := by
    intro c'
    have := (matches_iff hnc).mp (hm c')
    rw [hc] at this
    simpa only [eq_comm] using this
  -- What the step does to the phases, and what it answers.
  have key : ∀ {spurious rep}, w.exec t kind f.call pr spurious = some (act, rep) →
      ∃ p a, (∀ c', ((w.apply t act).buffer c').phase t = if c' = c then p else .idle) ∧
        (a = none → (∃ pr'', rep = .more pr'' ∧ f.call.onBuffer kind pr'' = some (c, k)) ∧ p.Fits k) ∧
        ∀ a', a = some a' → rep = k.answered a' ∧ Phase.Left k a' p := by
    intro spurious rep he
    obtain ⟨a, hd⟩ := Shared.exec_onBuffer hc he
    obtain ⟨spurious', b, hdrive, rfl⟩ := hd.drive
    have hdriven := Buffer.drive_driven (hb c) hdrive
    have hstep := Phase.Fits.drive (by simpa using hfits c) hdriven.drive
    refine ⟨b.phase t, a, fun c' => ?_, fun ha => ⟨hd.goes ha, hstep.1 ha⟩,
      fun a' ha => ⟨hd.answers a' ha, hstep.2 a' ha⟩⟩
    by_cases hcc : c' = c
    · subst hcc
      simp only [Shared.apply, Function.update_self, if_true]
    · simp only [Shared.apply, Function.update_of_ne hcc, if_neg hcc]
      simpa [hcc] using hfits c'
  intro c'
  cases h with
  | more he =>
    obtain ⟨p, a, hphase, hnone, hsome⟩ := key he
    rw [hphase, matches_iff hnc]
    cases a with
    | none =>
      obtain ⟨⟨pr'', hrep, hpr⟩, hp⟩ := hnone rfl
      cases hrep
      rw [hpr]
      dsimp only
      split
      · rename_i heq
        rw [if_pos heq.symm]
        exact hp
      · rename_i hne
        rw [if_neg fun heq => hne heq.symm]
    | some a =>
      obtain ⟨hrep, hleft⟩ := hsome a rfl
      obtain ⟨d, rfl⟩ := BufferCall.answered_more hrep.symm
      have hidle : p = .idle := by simpa only [Phase.Left] using hleft
      have htokenless : f.call.Tokenless := by
        cases hcall : f.call <;> first | trivial | (rw [hcall] at hc; cases hc)
      rw [hidle, ite_self]
      split
      · split
        · exact htokenless.fits_idle ‹_›
        · rfl
      · rfl
  | ret he hr =>
    obtain ⟨p, a, hphase, hnone, hsome⟩ := key he
    rw [hphase]
    cases a with
    | none =>
      obtain ⟨⟨pr'', hrep, -⟩, -⟩ := hnone rfl
      cases hrep
    | some a =>
      obtain ⟨hrep, hleft⟩ := hsome a rfl
      rename_i r
      by_cases htok : ∃ tk, r = .token tk
      · obtain ⟨tk, rfl⟩ := htok
        exact token_matches hf hc hrep.symm hr hleft c'
      · rw [BufferCall.idle_of_answered hrep.symm (fun tk htk => htok ⟨tk, htk⟩) hleft, ite_self]
        exact (resume_resting hf hr fun tk htk => htok ⟨tk, htk⟩).matches_idle .start c'

/-- **A step of a body keeps thread and channels together.** -/
theorem Next.matches (h : Next kind w t f pr act g pr') (hf : f.Typed kind)
    (hb : ∀ c, (w.buffer c).Ok) (hm : ∀ c, f.Matches kind pr c ((w.buffer c).phase t)) :
    ∀ c, g.Matches kind pr' c (((w.apply t act).buffer c).phase t) := by
  have hnc : ∀ x tk, f ≠ .chosen x tk := by
    rintro x tk rfl
    cases h with
    | more he => cases he
    | ret he => cases he
  cases hc : f.call.onBuffer kind pr with
  | none => exact h.matches_off hf hm hnc hc
  | some ck => exact h.matches_on hf hb hm hnc hc

end Frame

namespace World

/-- The registrations of all threads. -/
def stakes (kind : Nat → Kind T) (w : World Tid T) (t : Tid) : Stake :=
  (w.thread t).frame.stake kind (w.thread t).prog

/-- Channels, wakers and threads agree. -/
structure Sound (kind : Nat → Kind T) (w : World Tid T) : Prop where
  books : w.shared.reg.Ok (w.stakes kind)
  buffer : ∀ c, (w.shared.buffer c).Ok
  phase : ∀ t c, (w.thread t).frame.Matches kind (w.thread t).prog c ((w.shared.buffer c).phase t)

variable [DecidableEq Tid] {kind : Nat → Kind T} {w w' : World Tid T} {t : Tid} {act : Act Tid T}
  {th : Thread Tid T} {count : Nat → Side → Nat}

omit [DecidableEq Tid] in
theorem opFrame_resting (op : Op T) : (op.frame kind : Frame Tid T).Resting kind := by
  cases op with
  | plain job mode =>
    simp only [Op.frame]
    split <;> trivial
  | select handles timeout =>
    cases handles with
    | nil => cases timeout <;> trivial
    | cons x xs =>
      cases timeout with
      | now => exact Frame.nowStart_resting _
      | never | «at» when => exact Frame.loopStart_resting _ _

omit [DecidableEq Tid] in
theorem opFrame_calm (op : Op T) : (op.frame kind : Frame Tid T).Calm kind := by
  cases op with
  | plain job mode =>
    simp only [Op.frame]
    split <;> exact fun _ => rfl
  | select handles timeout =>
    cases handles with
    | nil => cases timeout <;> exact fun _ => rfl
    | cons x xs =>
      cases timeout with
      | now => exact Frame.nowStart_calm _
      | never | «at» when => exact Frame.loopStart_calm _ _

omit [DecidableEq Tid] in
theorem lastDropped_rests (c : Nat) (d : Side) :
    (lastDropped kind c d : Frame Tid T).Calm kind ∧ (lastDropped kind c d : Frame Tid T).Resting kind := by
  unfold lastDropped
  split <;> exact ⟨fun _ => rfl, trivial⟩

/-- What a turn of thread `t` has to show. -/
structure Kept (kind : Nat → Kind T) (w : World Tid T) (t : Tid) (act : Act Tid T)
    (th : Thread Tid T) : Prop where
  books : (w.shared.apply t act).reg.Ok
    (Function.update (w.stakes kind) t (th.frame.stake kind th.prog))
  buffer : ∀ c, ((w.shared.apply t act).buffer c).Ok
  cap : ∀ c, ((w.shared.apply t act).buffer c).cap = (w.shared.buffer c).cap
  others : ∀ c u, u ≠ t → ((w.shared.apply t act).buffer c).phase u = (w.shared.buffer c).phase u
  phase : ∀ c, th.frame.Matches kind th.prog c (((w.shared.apply t act).buffer c).phase t)

theorem Turn.kept (ht : Turn kind w t act th count) (hs : Sound kind w)
    (htyped : (w.thread t).frame.Typed kind) : Kept kind w t act th := by
  have idle : (w.thread t).frame.ended = true → ∀ c, (w.shared.buffer c).phase t = .idle := by
    intro hover c
    have := hs.phase t c
    cases hf : (w.thread t).frame <;> rw [hf] at hover this <;> first | exact this | cases hover
  -- A thread outside every call comes to such a place.
  have rest : ∀ {th : Thread Tid T}, (w.thread t).frame.ended = true → th.frame.Calm kind →
      th.frame.Resting kind → Kept kind w t .silent th := by
    intro th hover hcalm hrest
    refine ⟨?_, hs.buffer, fun _ => rfl, fun _ _ _ => rfl, fun c => ?_⟩
    · have : w.stakes kind t = .outside := Frame.over_calm hover (w.thread t).prog
      rw [hcalm, ← this, Function.update_eq_self]
      exact hs.books
    · change th.frame.Matches kind th.prog c ((w.shared.buffer c).phase t)
      rw [idle hover c]
      exact hrest.matches_idle _ c
  cases ht with
  | next hn =>
    obtain ⟨hok, hcap, hothers⟩ := hn.buffers hs.buffer
    exact ⟨hn.registry hs.books rfl, hok, hcap, hothers,
      hn.matches htyped hs.buffer (hs.phase t)⟩
  | start hover huses => exact rest hover (opFrame_calm _) (opFrame_resting _)
  | complete hf hside =>
    rename_i x tk msg
    refine ⟨?_, hs.buffer, fun _ => rfl, fun _ _ _ => rfl, fun c => ?_⟩
    · rw [Frame.finishWith_calm]
      have : w.stakes kind t = .outside := by rw [stakes, hf]; rfl
      rw [← this, Function.update_eq_self]
      exact hs.books
    · rw [hf] at htyped
      have hphase := hs.phase t c
      rw [hf] at hphase
      change Frame.Matches kind _ .start c ((w.shared.buffer c).phase t)
      rw [show (w.shared.buffer c).phase t = _ from hphase, ← hside]
      have hsuits : tk.Suits (kind (Job.chan ⟨x.chan, msg⟩)) := htyped
      exact Frame.finishWith_matches hsuits c
  | drop hover hpos hfree =>
    refine rest hover ?_ ?_ <;> dsimp only <;> split
    · exact (lastDropped_rests _ _).1
    · exact fun _ => rfl
    · exact (lastDropped_rests _ _).2
    · trivial

theorem After.stakes (ha : After w w' t act th count) :
    w'.stakes kind = Function.update (w.stakes kind) t (th.frame.stake kind th.prog) := by
  funext u
  by_cases hu : u = t
  · subst hu
    rw [World.stakes, ha.frame, ha.prog, Function.update_self]
  · rw [World.stakes, ha.others hu, Function.update_of_ne hu, World.stakes]

theorem Sound.after (hs : Sound kind w) (hk : Kept kind w t act th)
    (ha : After w w' t act th count) : Sound kind w' := by
  refine ⟨?_, fun c => ?_, fun u c => ?_⟩
  · rw [ha.stakes, ha.shared]
    exact hk.books
  · rw [ha.shared]
    exact hk.buffer c
  · by_cases hu : u = t
    · subst hu
      rw [ha.frame, ha.prog, ha.shared]
      exact hk.phase c
    · rw [ha.others hu, ha.shared, hk.others c u hu]
      exact hs.phase u c

omit [DecidableEq Tid] in
theorem buffer_init_ok (k : Kind T) :
    (Buffer.init k : Buffer Tid T).Ok ∧ ∀ t, (Buffer.init k : Buffer Tid T).phase t = .idle := by
  have list : (Buffer.list .init : Buffer Tid T).Ok :=
    ⟨ListFlavor.Inv.init, fun t ht => ht.elim⟩
  cases k with
  | array ch built =>
    obtain ⟨maxValue, cap, hcap⟩ := built
    exact ⟨⟨ArrayFlavor.Inv.init hcap, fun t ht => ht.elim⟩, fun _ => rfl⟩
  | _ => exact ⟨list, fun _ => rfl⟩

omit [DecidableEq Tid] in
theorem Sound.init : Sound kind (World.init kind : World Tid T) where
  books := {
    stake := fun _ => Frame.outside_ok
    listed := fun c d e he => absurd he List.not_mem_nil
    present := fun t x hx => hx.elim
    nodup := fun c d => List.nodup_nil
    hit := fun t op hop => by cases hop
    live := fun c d e he => absurd he List.not_mem_nil
    len := fun c d => rfl }
  buffer := fun c => (buffer_init_ok (kind c)).1
  phase := fun t c => (buffer_init_ok (kind c)).2 t

omit [DecidableEq Tid] in
/-- A thread that is making a call of a buffered channel is in a phase of that call. -/
theorem Sound.fits (hs : Sound kind w) {c : Nat} {k : BufferCall T}
    (hc : (w.thread t).frame.call.onBuffer kind (w.thread t).prog = some (c, k)) :
    ((w.shared.buffer c).phase t).Fits k := by
  have hmatch := (Frame.matches_iff (fun x tk hx => by rw [hx] at hc; cases hc)).mp (hs.phase t c)
  rw [hc] at hmatch
  simpa only [if_true] using hmatch

theorem sound_of_reachable (h : (system kind).Reachable w) : Sound kind w := by
  refine h.invariant ?_ fun w l w' hw hs hstep => ?_
  · rintro _ rfl
    exact Sound.init
  · rcases step_cases hstep with ⟨t, act, th, count, ht, ha⟩ | ⟨c, d, hpos, rfl⟩ | ⟨now, -, rfl⟩
    · exact hs.after (ht.kept hs (typed_of_reachable hw t)) ha
    · exact ⟨hs.books, hs.buffer, hs.phase⟩
    · exact ⟨hs.books, hs.buffer, hs.phase⟩

end World

end CrossbeamChannel
