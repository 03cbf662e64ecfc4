import CrossbeamChannel.Flavors.Positions
import CrossbeamChannel.World.Exchange

/-!
# The positions of the buffered channels, and the operations

An operation that takes a position of a buffered channel holds it until its message is in the slot,
or out of it, and then returns successfully: `World.Bears`. `World.Traded` says how the positions,
the messages and the history go together, and every turn keeps it.

A position is taken in `start_send` or `start_recv`, and the slot is written or read in `write` or `read`
(`array.rs` 260-275 and 342-357, `list.rs` 231-247 and 347-366). In a select a good deal lies between the
two, among other things the return of `run_select` to the caller. `Bears` follows the operation over it:
it holds the ticket, then it is on its way to `wake_one`, then it has returned. The message at a position
is what the sender was asked to send, since `write` is only called with that.
-/

namespace CrossbeamChannel

variable {Tid T : Type}

/-- The position of side `d` of channel `c` that is taken. -/
def Event.position (c : Nat) (d : Side) : Event Tid T → Option Nat
  | .take _ c' d' k => if c' = c ∧ d' = d then some k else none
  | _ => none

/-- Who takes a position. -/
def Event.taker : Event Tid T → Option (Ident Tid)
  | .take a _ _ _ => some a
  | _ => none

theorem Event.of_position {e : Event Tid T} {c k : Nat} {d : Side} (h : e.position c d = some k) :
    ∃ a, e = .take a c d k := by
  cases e with
  | take a c' d' k' =>
    simp only [position] at h
    split at h
    · rename_i hcd
      obtain ⟨rfl, rfl⟩ := hcd
      exact ⟨a, congrArg _ (Option.some.inj h)⟩
    · cases h
  | _ => cases h

theorem Event.position_ite {P : Prop} [Decidable P] {a : Ident Tid} {c c' k : Nat} {d d' : Side} :
    (if P then [Event.take (T := T) a c' d' k] else []).filterMap (Event.position c d) =
      if c' = c ∧ d' = d ∧ P then [k] else [] := by
  by_cases hP : P
  · by_cases hcd : c' = c ∧ d' = d
    · simp [hP, hcd, position]
    · rw [if_pos hP, if_neg fun hall => hcd ⟨hall.1, hall.2.1⟩]
      simp [position, hcd]
  · rw [if_neg hP, if_neg fun hall => hP hall.2.2]
    rfl

namespace Phase

variable {p : Phase T} {r : Role T} {d : Side} {k : BufferCall T}

/-- Who holds a position is getting it, or is on its way to complete a send or receive. -/
theorem Holds.fits (h : p.Holds r) (hp : p.Fits k) (hr : r.side = some d) :
    k = .start d ∨ (∃ msg, k = .write msg ∧ d = .send) ∨ k = .read ∧ d = .recv := by
  cases k with
  | start d' =>
    cases p with
    | taken d'' | granted d'' =>
      obtain rfl : d'' = d' := hp
      cases d'' <;> cases h <;> cases hr <;> exact .inl rfl
    | idle | fresh | trying _ | late | gone | null _ | refused _ =>
      cases h
      cases hr
    | _ => exact hp.elim
  | write msg =>
    refine .inr (.inl ⟨msg, rfl, ?_⟩)
    cases p with
    | granted d' =>
      obtain rfl : d' = .send := hp
      cases h
      cases hr
      rfl
    | completing d' =>
      obtain rfl : d' = .send := hp
      rcases h with ⟨m, rfl⟩ | rfl <;> cases hr <;> rfl
    | written =>
      cases h
      cases hr
      rfl
    | null _ | unsent _ =>
      cases h
      cases hr
    | _ => exact hp.elim
  | read =>
    refine .inr (.inr ⟨rfl, ?_⟩)
    cases p with
    | granted d' =>
      obtain rfl : d' = .recv := hp
      cases h
      cases hr
      rfl
    | completing d' =>
      obtain rfl : d' = .recv := hp
      rcases h with rfl | ⟨m, rfl⟩ <;> cases hr <;> rfl
    | got _ =>
      cases h
      cases hr
      rfl
    | null _ | unread =>
      cases h
      cases hr
    | _ => exact hp.elim
  | unavailable _ | isDisconnected | disconnect =>
    cases p <;> first | exact hp.elim | (cases h; cases hr)

theorem answer_written (h : p.answer k = some .written) : ∃ msg, k = .write msg := by
  unfold answer at h
  split at h <;> cases h
  exact ⟨_, rfl⟩

theorem answer_got {m : Option T} (h : p.answer k = some (.got m)) : k = .read := by
  unfold answer at h
  split at h <;> cases h
  rfl

end Phase

variable [DecidableEq Tid]

namespace Frame

variable {kind : Nat → Kind T} {w : Shared Tid T} {t : Tid} {act : Act Tid T} {f g : Frame Tid T}
  {pr pr' : Prog} {c : Nat} {j : Job T}

/-- What a step in the body of thread `t` does to a buffered channel it calls. -/
structure Trades (kind : Nat → Kind T) (w w' : Shared Tid T) (t : Tid) (f g : Frame Tid T) (c : Nat)
    (k : BufferCall T) (r : Option (Answer T)) : Prop where
  plays : Buffer.Plays t k (w.buffer c) (w'.buffer c) r
  drive : Phase.Drive (w.buffer c).cap k (w.buffer c).view ((w.buffer c).phase t)
    (w'.buffer c).view ((w'.buffer c).phase t) r
  stays : r = none → g = f
  resumes : ∀ a r', r = some a → k.answered a = (.ret r' : Reply Tid T) →
    ∃ order, f.resume kind t order r' = some g

theorem Next.trades (h : Next kind w t f pr act g pr') (hb : ∀ c, (w.buffer c).Ok) {k : BufferCall T}
    (hc : f.call.onBuffer kind pr = some (c, k)) : ∃ r, Trades kind w (w.apply t act) t f g c k r := by
  obtain ⟨spurious, rep, he, hmore, hret⟩ := h.exec
  obtain ⟨a, hd⟩ := Shared.exec_onBuffer hc he
  obtain ⟨spurious', b, hdrive, rfl⟩ := hd.drive
  have hbuf : ((w.apply t (.drive c k b a)).buffer c) = b := Function.update_self _ _ _
  refine ⟨a, ?_, ?_, fun ha => ?_, fun a' r' ha hrep => ?_⟩
  · rw [hbuf]
    exact Buffer.drive_plays (hb c) hdrive
  · rw [hbuf]
    exact (Buffer.drive_driven (hb c) hdrive).drive
  · obtain ⟨pr'', hrep, -⟩ := hd.goes ha
    exact (hmore _ hrep).1
  · exact (hret _ ((hd.answers a' ha).trans hrep)).2

omit [DecidableEq Tid] in
/-- Who writes or reads completes a send or receive. -/
theorem finish_of_onBuffer {k : BufferCall T} (hc : f.call.onBuffer kind pr = some (c, k)) :
    (∀ msg, k = .write msg → f = .finish ⟨c, some msg⟩ .complete) ∧
      (k = .read → f = .finish ⟨c, none⟩ .complete) := by
  have checks : ∀ {c' d}, (pr.checks c' d : Option (Nat × BufferCall T)) = some (c, k) →
      (∀ msg, k ≠ .write msg) ∧ k ≠ .read := by
    intro c' d h
    unfold Prog.checks at h
    split at h <;> cases h <;> simp
  cases hcall : f.call with
  | write c' msg =>
    rw [hcall] at hc
    cases hc
    refine ⟨fun msg' h => ?_, by simp⟩
    cases h
    exact calls_of_eq hcall
  | read c' =>
    rw [hcall] at hc
    cases hc
    exact ⟨by simp, fun _ => calls_of_eq hcall⟩
  | start _ _ | retry _ _ | accept _ _ =>
    rw [hcall] at hc
    obtain ⟨heq, -⟩ := Kind.starts_eq hc
    cases heq
    simp
  | register c' d slot =>
    rw [hcall] at hc
    simp only [Call.onBuffer] at hc
    split at hc
    · cases hc
      simp
    · simp [checks hc]
    · simp [checks hc]
    · cases hc
  | setDisconnected _ =>
    rw [hcall] at hc
    cases hc
    simp
  | _ =>
    rw [hcall] at hc
    cases hc

/-- A call that is over has been completed by `write` or `read`. -/
theorem Trades.completed {w w' : Shared Tid T} {k : BufferCall T} {a : Answer T}
    (htr : Trades kind w w' t f g c k (some a)) (hc : f.call.onBuffer kind pr = some (c, k))
    (hends : ((w.buffer c).role t = .stored ∧ a = .written) ∨
      ∃ m, (w.buffer c).role t = .taken m ∧ a = .got m) :
    ∃ job d, f = .finish job .complete ∧ job.chan = c ∧ job.side = d ∧
      ((w.buffer c).role t).side = some d ∧ completed kind job a = some g := by
  have hanswer := htr.drive.answered
  have hfinish := finish_of_onBuffer hc
  rcases hends with ⟨hrole, rfl⟩ | ⟨m, hrole, rfl⟩
  · obtain ⟨msg, rfl⟩ := Phase.answer_written hanswer
    have hf := hfinish.1 msg rfl
    obtain ⟨order, hr⟩ := htr.resumes _ _ rfl rfl
    rw [hf] at hr
    exact ⟨_, .send, hf, rfl, rfl, by rw [hrole]; rfl, hr⟩
  · obtain rfl := Phase.answer_got hanswer
    have hf := hfinish.2 rfl
    obtain ⟨order, hr⟩ := htr.resumes _ _ rfl rfl
    rw [hf] at hr
    exact ⟨_, .recv, hf, rfl, rfl, by rw [hrole]; rfl, hr⟩

omit [DecidableEq Tid] in
theorem finishWith_not_wakes {job job' : Job T} {tk : Token} {out : Outcome T} :
    (finishWith kind job tk : Frame Tid T) ≠ .finish job' (.wakeOne out) := by
  unfold finishWith
  repeat' split
  all_goals intro hno
  all_goals cases hno

omit [DecidableEq Tid] in
/-- Only a message that has been put or taken out wakes somebody up. -/
theorem answer_of_wakes {job job' : Job T} {a : Answer T} {out : Outcome T}
    (h : completed kind job a = some (.finish job' (.wakeOne out) : Frame Tid T)) :
    a = .written ∨ ∃ m, a = .got m := by
  unfold completed at h
  split at h
  · exact .inl rfl
  · cases h
  · exact .inr ⟨_, rfl⟩
  · cases h
  · cases h

/-- Who comes to wake somebody up has completed its operation. -/
theorem wakes_of_resume {order : List Handle} {r : Ret Tid T} {job : Job T} {out : Outcome T}
    (hr : f.resume kind t order r = some (.finish job (.wakeOne out))) :
    ∃ a, f = .finish job .complete ∧ r = .answer a ∧
      completed kind job a = some (.finish job (.wakeOne out) : Frame Tid T) := by
  cases resume_stays hr with
  | same => cases r <;> cases hr
  | plainFinish =>
    simp only [resume, plainResume, plainFailed, plainWaited] at hr
    split at hr
    · exact absurd (Option.some.inj hr) finishWith_not_wakes
    all_goals repeat' split at hr
    all_goals cases hr
  | zeroFinish =>
    simp only [resume, zeroResume, unselected] at hr
    split at hr
    · exact absurd (Option.some.inj hr) finishWith_not_wakes
    all_goals repeat' split at hr
    all_goals cases hr
  | finish =>
    simp only [resume, finishResume] at hr
    split at hr
    · exact ⟨_, rfl, rfl, hr⟩
    all_goals cases hr

omit [DecidableEq Tid] in
theorem opFrame_not_finish (op : Op T) {job : Job T} {st : FinishStage T} :
    (op.frame kind : Frame Tid T) ≠ .finish job st := by
  unfold Op.frame nowStart loopStart
  repeat' split
  all_goals intro hno
  all_goals cases hno

omit [DecidableEq Tid] in
/-- A send or receive of a buffered channel is completed by a call. -/
theorem finishWith_buffered {job : Job T} {tk : Token} (hk : (kind job.chan).Buffered)
    (hs : tk.Suits (kind job.chan)) : (finishWith kind job tk : Frame Tid T) = .finish job .complete := by
  cases tk with
  | slot => rfl
  | null =>
    simp only [finishWith]
    split
    · rename_i hz
      rw [hz] at hk
      exact hk.elim
    · rfl
  | packet p => exact absurd hs hk.not_zero
  | instant i => exact absurd hk hs.1

omit [DecidableEq Tid] in
/-- The calls that take positions. -/
theorem tries_of_starts {call : Call T} {d : Side} (hc : call.onBuffer kind pr = some (c, .start d)) :
    call.Tries c ∧ (kind c).Buffered := by
  have checks : ∀ {c' d'}, (pr.checks c' d' : Option (Nat × BufferCall T)) ≠ some (c, .start d) := by
    intro c' d' h
    unfold Prog.checks at h
    split at h <;> cases h
  have starts : ∀ {c' d'}, (kind c').starts c' d' = some (c, .start d) →
      c' = c ∧ d' = d ∧ (kind c).Buffered := by
    intro c' d' h
    obtain ⟨heq, hk⟩ := Kind.starts_eq h
    cases heq
    exact ⟨rfl, rfl, hk⟩
  cases call with
  | start c' d' =>
    obtain ⟨rfl, rfl, hk⟩ := starts hc
    exact ⟨⟨d', .inl rfl⟩, hk⟩
  | retry c' d' =>
    obtain ⟨rfl, rfl, hk⟩ := starts hc
    exact ⟨⟨d', .inr (.inl rfl)⟩, hk⟩
  | accept c' d' =>
    obtain ⟨rfl, rfl, hk⟩ := starts hc
    exact ⟨⟨d', .inr (.inr rfl)⟩, hk⟩
  | register c' d' slot =>
    simp only [Call.onBuffer] at hc
    split at hc
    · cases hc
    · exact absurd hc checks
    · exact absurd hc checks
    · cases hc
  | _ => cases hc

omit [DecidableEq Tid] in
/-- Who attempts a send or receive has been asked for it. -/
theorem role_of_starts {d : Side} (hc : f.call.onBuffer kind pr = some (c, .start d))
    (hf : f.Serves (some j)) (htyped : f.Typed kind) : j.chan = c ∧ j.side = d := by
  cases f with
  | plain job mode st =>
    cases hf
    have checks : ∀ {c' d'}, (pr.checks c' d' : Option (Nat × BufferCall T)) ≠ some (c, .start d) := by
      intro c' d' h
      unfold Prog.checks at h
      split at h <;> cases h
    cases st with
    | attempt n =>
      obtain ⟨heq, -⟩ := Kind.starts_eq hc
      cases heq
      exact ⟨rfl, rfl⟩
    | register =>
      simp only [call, plainCall, Call.onBuffer] at hc
      split at hc
      · cases hc
      · exact absurd hc checks
      · exact absurd hc checks
      · cases hc
    | _ => cases hc
  | timer c' mode =>
    cases mode with
    | nonblocking => exact absurd (Kind.starts_eq hc).2 htyped.1
    | blocking deadline => cases hc
  | finish job st =>
    cases st with
    | complete =>
      obtain ⟨c', msg⟩ := job
      cases msg <;> cases hc
    | storeMsg p =>
      obtain ⟨c', msg⟩ := job
      cases msg <;> cases hc
    | _ => cases hc
  | zero job mode st => cases st <;> cases hc
  | close c' d' st => cases st <;> cases hc
  | select _ _ _ | chosen _ _ => cases hf
  | done _ | panicked => cases hc

end Frame

namespace World

variable {kind : Nat → Kind T} {w w' : World Tid T} {t : Tid} {act : Act Tid T} {th : Thread Tid T}
  {count : Nat → Side → Nat} {D D' : Ledger Tid T} {h ds ts : List (Event Tid T)} {a : Ident Tid}
  {c k : Nat} {d : Side}

/-- How many positions of side `d` of channel `c` have been taken. -/
def positions (w : World Tid T) (c : Nat) (d : Side) : Nat := (w.shared.buffer c).count d

omit [DecidableEq Tid] in
theorem taken_eq (b : Buffer Tid T) (c : Nat) : w.taken t c b =
    (if w.positions c .send < b.count .send then [.take (w.ident t) c .send (w.positions c .send)] else []) ++
      if w.positions c .recv < b.count .recv then [.take (w.ident t) c .recv (w.positions c .recv)]
      else [] := by
  simp only [taken, Buffer.view_sends, Buffer.view_recvs]
  rfl

omit [DecidableEq Tid] in
theorem mem_taken {b : Buffer Tid T} {c' : Nat} : .take a c d k ∈ w.taken t c' b ↔
    a = w.ident t ∧ c = c' ∧ w.positions c' d < b.count d ∧ k = w.positions c' d := by
  rw [taken_eq]
  simp only [List.mem_append, List.mem_ite_nil_right, List.mem_singleton, Event.take.injEq]
  constructor
  · rintro (⟨hlt, rfl, rfl, rfl, rfl⟩ | ⟨hlt, rfl, rfl, rfl, rfl⟩) <;> exact ⟨rfl, rfl, hlt, rfl⟩
  · rintro ⟨rfl, rfl, hlt, rfl⟩
    cases d with
    | send => exact .inl ⟨hlt, rfl, rfl, rfl, rfl⟩
    | recv => exact .inr ⟨hlt, rfl, rfl, rfl, rfl⟩

/-- A position is taken by a step that drives its channel. -/
theorem mem_deeds_take (he : .take a c d k ∈ w.deeds kind t act) : a = w.ident t ∧
    w.positions c d < ((w.shared.apply t act).buffer c).count d ∧ k = w.positions c d ∧
      w.deeds kind t act = w.taken t c ((w.shared.apply t act).buffer c) := by
  cases act with
  | drive c' k' b r =>
    obtain ⟨ha, rfl, hlt, hk⟩ := mem_taken.mp he
    have hbuf : (w.shared.apply t (.drive c k' b r)).buffer c = b := Function.update_self _ _ _
    exact ⟨ha, by rwa [hbuf], hk, by rw [hbuf]; rfl⟩
  | offer _ _ _ | queue _ _ _ | takeTick _ _ => cases List.mem_singleton.mp he
  | wakeOne c' d' =>
    simp only [deeds, paired] at he
    repeat' split at he
    all_goals cases he <;> contradiction
  | unregister _ _ _ =>
    simp only [deeds, dropped] at he
    repeat' split at he
    all_goals cases he <;> contradiction
  | _ =>
    simp only [deeds] at he
    split at he <;> cases he <;> contradiction

/-- The positions taken in a step. -/
theorem positions_deeds : (w.deeds kind t act).filterMap (Event.position c d) =
    if w.positions c d < ((w.shared.apply t act).buffer c).count d then [w.positions c d] else [] := by
  have nothing : (∀ a k, .take a c d k ∉ w.deeds kind t act) →
      (w.deeds kind t act).filterMap (Event.position c d) = [] := by
    intro hno
    refine List.filterMap_eq_nil_iff.mpr fun e he => ?_
    cases e with
    | take a c' d' k =>
      refine if_neg ?_
      rintro ⟨rfl, rfl⟩
      exact hno a k he
    | _ => rfl
  by_cases hdrive : ∃ k b r, act = .drive c k b r
  · obtain ⟨k, b, r, rfl⟩ := hdrive
    simp only [deeds, taken_eq, List.filterMap_append, Shared.apply, Function.update_self,
      Event.position_ite, true_and]
    cases d <;> simp only [reduceCtorEq, false_and, if_false, List.append_nil, List.nil_append, true_and]
  · have hsame : ((w.shared.apply t act).buffer c).count d = w.positions c d := by
      cases act with
      | drive c' k b r =>
        have hc : c ≠ c' := by
          rintro rfl
          exact hdrive ⟨k, b, r, rfl⟩
        simp only [Shared.apply, Function.update_of_ne hc, positions]
      | _ => rfl
    rw [hsame, if_neg (Nat.lt_irrefl _)]
    refine nothing fun a k he => ?_
    have hlt := (mem_deeds_take he).2.1
    rw [hsame] at hlt
    exact Nat.lt_irrefl _ hlt

/-! ## Who holds a position -/

omit [DecidableEq Tid] in
/-- Who holds a position has selected its operation, or is in the call that completes it. -/
theorem Sound.holder (hs : Sound kind w) (hr : ((w.shared.buffer c).role t).side = some d) :
    (∃ x, (w.thread t).frame = .chosen x .slot ∧ x.chan = c ∧ x.side = d) ∨
      ∃ k, (w.thread t).frame.call.onBuffer kind (w.thread t).prog = some (c, k) ∧
        (k = .start d ∨ (∃ msg, k = .write msg ∧ d = .send) ∨ k = .read ∧ d = .recv) := by
  have hholds := (w.shared.buffer c).phase_holds t
  have hphase := hs.phase t c
  generalize (w.shared.buffer c).phase t = p at hholds hphase
  generalize (w.shared.buffer c).role t = r at hholds hr
  have idle : p ≠ .idle := by
    rintro rfl
    cases hholds
    cases hr
  by_cases hf : ∃ x tk, (w.thread t).frame = .chosen x tk
  · obtain ⟨x, tk, hf⟩ := hf
    rw [hf] at hphase
    simp only [Frame.Matches] at hphase
    split at hphase
    · rename_i hc
      cases tk with
      | slot =>
        refine .inl ⟨x, hf, hc.symm, ?_⟩
        subst hphase
        generalize x.side = d' at hholds
        cases d' <;> cases hholds <;> cases hr <;> rfl
      | null =>
        simp only [Token.phase] at hphase
        split at hphase
        · exact absurd hphase idle
        · subst hphase
          cases hholds
          cases hr
      | packet _ | instant _ => exact absurd hphase idle
    · exact absurd hphase idle
  · have hmatch := (Frame.matches_iff fun x tk hx => hf ⟨x, tk, hx⟩).mp hphase
    split at hmatch
    · rename_i c' k hc
      split at hmatch
      · rename_i heq
        subst heq
        exact .inr ⟨k, hc, hholds.fits hmatch hr⟩
      · exact absurd hmatch idle
    · exact absurd hmatch idle

omit [DecidableEq Tid] in
theorem Sound.holder_running (hs : Sound kind w)
    (hr : ((w.shared.buffer c).role t).side = some d) : (w.thread t).frame.ended = false := by
  rcases hs.holder hr with ⟨x, hf, -⟩ | ⟨k, hc, -⟩
  · rw [hf]
    rfl
  · cases hf : (w.thread t).frame with
    | done _ | panicked =>
      rw [hf] at hc
      cases hc
    | _ => rfl

/-- The message of position `k` of channel `c`, once it has been put there. -/
def carried (w : World Tid T) (c k : Nat) : Option T := (w.shared.buffer c).queue.put k

/-- **What becomes of an operation that has taken a position.** -/
inductive Bears (w : World Tid T) (h : List (Event Tid T)) (a : Ident Tid) (c : Nat) (d : Side)
    (k : Nat) : Prop where
  /-- It has yet to put its message there, or to take it out. -/
  | holds (hop : a.op = (w.thread a.thread).ops)
      (hside : ((w.shared.buffer c).role a.thread).side = some d)
      (hticket : (w.shared.buffer c).ticket a.thread = k)
  /-- It has yet to wake somebody up. -/
  | wakes {job : Job T} {m : T} (hop : a.op = (w.thread a.thread).ops)
      (hf : (w.thread a.thread).frame = .finish job (.wakeOne (Frame.handed (some m) d)))
      (hchan : job.chan = c) (hside : job.side = d) (hput : w.carried c k = some m)
  | returned {m : T} (hover : .over a (Frame.handed (some m) d) ∈ h) (hput : w.carried c k = some m)

/-- **The positions, the messages and the history agree.** -/
structure Traded (kind : Nat → Kind T) (w : World Tid T) (h : List (Event Tid T)) : Prop where
  /-- Positions are taken in order, and each once. -/
  numbered : ∀ c d, h.filterMap (Event.position c d) = List.range (w.positions c d)
  buffered : ∀ a c d k, .take a c d k ∈ h → (kind c).Buffered
  bears : ∀ a c d k, .take a c d k ∈ h → w.Bears h a c d k
  /-- What is held has been taken. -/
  held : ∀ t c d, ((w.shared.buffer c).role t).side = some d →
    .take (w.ident t) c d ((w.shared.buffer c).ticket t) ∈ h
  wakes : ∀ t job out, (w.thread t).frame = .finish job (.wakeOne out) →
    ∃ k, .take (w.ident t) job.chan job.side k ∈ h
  /-- Who is about to put a message is sending it. -/
  writes : ∀ t c m, (w.shared.buffer c).role t = .reserved (some m) →
    (w.thread t).frame = .finish ⟨c, some m⟩ .complete
  stored : ∀ t c, (w.shared.buffer c).role t = .stored →
    ∃ m, w.carried c ((w.shared.buffer c).ticket t) = some m
  /-- What has been put was asked to be sent by who has taken the position. -/
  put : ∀ c k m, w.carried c k = some m → ∃ a, .take a c .send k ∈ h ∧ .ask a ⟨c, some m⟩ ∈ h
  /-- An operation takes at most one position, of all channels. -/
  once : (h.filterMap Event.taker).Nodup
  sides : ∀ a c d k j, .take a c d k ∈ h → .ask a j ∈ h → j.chan = c ∧ j.side = d
  /-- A message is claimed after its position has been reserved. -/
  later : ∀ (i : Nat) b c k, h[i]? = some (.take b c .recv k) →
    ∃ (j : Nat) (a : Ident Tid), j < i ∧ h[j]? = some (.take a c .send k)
  /-- A position is reserved after the one a lap before has been claimed. -/
  room : ∀ (i : Nat) a c k n, (w.shared.buffer c).cap = some n → n ≤ k →
    h[i]? = some (.take a c .send k) →
    ∃ (j : Nat) (b : Ident Tid), j < i ∧ h[j]? = some (.take b c .recv (k - n))
  within : ∀ (i j : Nat) a c d k out, h[i]? = some (.take a c d k) → h[j]? = some (.over a out) → i < j
  /-- Who takes none comes to nothing. -/
  fails : ∀ a out j, (kind j.chan).Buffered → .ask a j ∈ h → .over a out ∈ h →
    (∀ c d k, .take a c d k ∉ h) → out.Refuses j.msg

omit [DecidableEq Tid] in
/-- A position below the count has been taken. -/
theorem Traded.taken_below (ht : Traded kind w h) (hk : k < w.positions c d) :
    ∃ (j : Nat) (b : Ident Tid), j < h.length ∧ h[j]? = some (.take b c d k) := by
  have hmem : k ∈ h.filterMap (Event.position c d) := by
    rw [ht.numbered]
    exact List.mem_range.mpr hk
  obtain ⟨e, he, hpos⟩ := List.mem_filterMap.mp hmem
  obtain ⟨b, rfl⟩ := Event.of_position hpos
  obtain ⟨j, hj⟩ := List.mem_iff_getElem?.mp he
  exact ⟨j, b, (List.getElem?_eq_some_iff.mp hj).1, hj⟩

namespace Page

variable {u : Tid} {m : T}

/-- What a turn does to a buffered channel: nothing, or one step of a call of thread `t`. -/
theorem trades (hp : Page kind w w' t act th count D D' h ds ts) (c : Nat) :
    ((∀ k, (w.thread t).frame.call.onBuffer kind (w.thread t).prog ≠ some (c, k)) ∧
        w'.shared.buffer c = w.shared.buffer c) ∨
      ∃ k r, (w.thread t).frame.call.onBuffer kind (w.thread t).prog = some (c, k) ∧
        Frame.Trades kind w.shared w'.shared t (w.thread t).frame (w'.thread t).frame c k r := by
  have hafter := hp.stepped.after
  have hturn := hp.stepped.turn
  rw [hafter.shared, hafter.frame]
  have silent : (w.thread t).frame.call = .none →
      ∀ k, (w.thread t).frame.call.onBuffer kind (w.thread t).prog ≠ some (c, k) := by
    intro hcall k hc
    rw [hcall] at hc
    cases hc
  cases hturn with
  | next hn =>
    by_cases hc : ∃ k, (w.thread t).frame.call.onBuffer kind (w.thread t).prog = some (c, k)
    · obtain ⟨k, hc⟩ := hc
      obtain ⟨r, htr⟩ := hn.trades hp.stepped.sound.buffer hc
      exact .inr ⟨k, r, hc, htr⟩
    · exact .inl ⟨fun k hk => hc ⟨k, hk⟩, hn.undriven fun k hk => hc ⟨k, hk⟩⟩
  | start hover _ | drop hover _ _ => exact .inl ⟨silent (call_of_ended hover), rfl⟩
  | complete hf _ => exact .inl ⟨silent (by rw [hf]; rfl), rfl⟩

/-- Who is in an operation stays in it for this turn. -/
theorem ops_of_running (hp : Page kind w w' t act th count D D' h ds ts)
    (hrun : (w.thread u).frame.ended = false) : (w'.thread u).ops = (w.thread u).ops := by
  have hafter := hp.stepped.after
  have hturn := hp.stepped.turn
  by_cases hu : u = t
  · subst hu
    rw [hafter.ops]
    cases hturn with
    | next _ | complete _ _ => rfl
    | start hover _ | drop hover _ _ =>
      rw [hover] at hrun
      cases hrun
  · rw [hafter.others hu]

/-- What has been put stays there. -/
theorem carried_keeps (hp : Page kind w w' t act th count D D' h ds ts) {n : Nat}
    (hput : w.carried c n = some m) : w'.carried c n = some m := by
  rcases hp.trades c with ⟨-, heq⟩ | ⟨k, r, -, htr⟩
  · rw [carried, heq]
    exact hput
  · exact htr.plays.drive.put_keeps
      (fun _ hr => (hp.stepped.sound.buffer c).put_of_reserved hr) hput

/-- The other threads hold what they held. -/
theorem others_hold (hp : Page kind w w' t act th count D D' h ds ts) (hu : u ≠ t) (c : Nat) :
    (w'.shared.buffer c).role u = (w.shared.buffer c).role u ∧
      (w'.shared.buffer c).ticket u = (w.shared.buffer c).ticket u := by
  rcases hp.trades c with ⟨-, heq⟩ | ⟨k, r, -, htr⟩
  · rw [heq]
    exact ⟨rfl, rfl⟩
  · exact htr.plays.others u hu

/-- How far a channel goes in one turn. -/
theorem positions_cases (hp : Page kind w w' t act th count D D' h ds ts) (c : Nat) :
    (∀ d, w'.positions c d = w.positions c d) ∨
    ∃ d, w'.positions c d = w.positions c d + 1 ∧
      w'.positions c d.opposite = w.positions c d.opposite ∧
      (w'.thread t).frame = (w.thread t).frame ∧
      (w.thread t).frame.call.onBuffer kind (w.thread t).prog = some (c, .start d) ∧
      (w.shared.buffer c).role t = .none ∧ ((w'.shared.buffer c).role t).side = some d ∧
      (w'.shared.buffer c).ticket t = w.positions c d := by
  rcases hp.trades c with ⟨-, heq⟩ | ⟨k, r, hc, htr⟩
  · exact .inl fun d => by rw [positions, heq]; rfl
  · have hstride := htr.plays.drive.stride
    cases hstride with
    | takes hrole hside hticket hcount hother =>
      rename_i d
      have hholds := (w.shared.buffer c).phase_holds t
      rw [hrole] at hholds
      have htrying := htr.drive.trying hholds ((w'.shared.buffer c).phase_holds t) hside
      have hfits := hp.stepped.sound.fits hc
      rw [htrying] at hfits
      have hk : k = .start d := by
        cases k with
        | start d' => rw [show d = d' from hfits]
        | _ => exact hfits.elim
      rw [hk] at hc
      exact .inr ⟨d, hcount, hother, htr.stays rfl, hc, hrole, hside, hticket⟩
    | goes _ _ hcount _ | ends _ hcount _ => exact .inl hcount

/-- A position that is taken in a turn. -/
structure Taking (kind : Nat → Kind T) (w w' : World Tid T) (t : Tid) (ds : List (Event Tid T))
    (a : Ident Tid) (c : Nat) (d : Side) (k : Nat) : Prop where
  ident : a = w.ident t
  ident' : w'.ident t = w.ident t
  frame : (w'.thread t).frame = (w.thread t).frame
  call : (w.thread t).frame.call.onBuffer kind (w.thread t).prog = some (c, .start d)
  before : (w.shared.buffer c).role t = .none
  side : ((w'.shared.buffer c).role t).side = some d
  ticket : (w'.shared.buffer c).ticket t = k
  number : k = w.positions c d
  next : w'.positions c d = k + 1
  other : w'.positions c d.opposite = w.positions c d.opposite
  only : ds = [.take a c d k]

theorem taking (hp : Page kind w w' t act th count D D' h ds ts) (he : .take a c d k ∈ ds) :
    Taking kind w w' t ds a c d k := by
  have hds := hp.written
  rw [hds] at he
  obtain ⟨ha, hlt, hk, htaken⟩ := mem_deeds_take he
  rw [← hp.stepped.after.shared] at hlt htaken
  rcases hp.positions_cases c with hsame | ⟨d', hcount, hother, hframe, hcall, hbefore, hside, hticket⟩
  · exact absurd hlt (Nat.not_lt.mpr (Nat.le_of_eq (hsame d)))
  · obtain rfl : d = d' := by
      cases d <;> cases d' <;> first | rfl | exact absurd hlt (Nat.not_lt.mpr (Nat.le_of_eq hother))
    have hrun : (w.thread t).frame.ended = false := by
      rw [← hframe]
      exact hp.stepped.sound'.holder_running hside
    refine ⟨ha, by rw [ident, hp.ops_of_running hrun]; rfl, hframe, hcall, hbefore, hside,
      hticket.trans hk.symm, hk, by rw [hk]; exact hcount, hother, ?_⟩
    have hnot : ¬ w.positions c d.opposite < (w'.shared.buffer c).count d.opposite :=
      Nat.not_lt.mpr (Nat.le_of_eq hother)
    rw [hds, htaken, taken_eq, ha, hk]
    cases d <;> simp only [Side.opposite] at hnot
    · rw [if_pos hlt, if_neg hnot, List.append_nil]
    · rw [if_pos hlt, if_neg hnot, List.nil_append]

/-- What is said of the operations takes no position. -/
theorem take_mem (hp : Page kind w w' t act th count D D' h ds ts) :
    .take a c d k ∈ h ++ (ds ++ ts) ↔ .take a c d k ∈ h ∨ .take a c d k ∈ ds := by
  rw [List.mem_append, List.mem_append]
  refine or_congr_right (or_iff_left fun he => ?_)
  cases hp.blank _ he

theorem numbered (hp : Page kind w w' t act th count D D' h ds ts) (ht : Traded kind w h) (c : Nat)
    (d : Side) : (h ++ (ds ++ ts)).filterMap (Event.position c d) = List.range (w'.positions c d) := by
  have hts : ts.filterMap (Event.position c d) = [] := by
    refine List.filterMap_eq_nil_iff.mpr fun e he => ?_
    cases hp.blank e he <;> rfl
  have hds : ds.filterMap (Event.position c d) =
      if w.positions c d < w'.positions c d then [w.positions c d] else [] := by
    rw [hp.written, positions_deeds, positions, positions, hp.stepped.after.shared]
  rw [List.filterMap_append, List.filterMap_append, hts, List.append_nil, hds, ht.numbered]
  have hone : w'.positions c d = w.positions c d ∨ w'.positions c d = w.positions c d + 1 := by
    rcases hp.positions_cases c with hsame | ⟨d', hcount, hother, -⟩
    · exact .inl (hsame d)
    · cases d <;> cases d' <;> first | exact .inr hcount | exact .inl hother
  rcases hone with hsame | hmore
  · rw [hsame, if_neg (Nat.lt_irrefl _), List.append_nil]
  · rw [hmore, if_pos (Nat.lt_succ_self _), List.range_succ]

/-- Who holds a position goes on to hold it, or has put its message there or taken it out. -/
theorem holds_on (hp : Page kind w w' t act th count D D' h ds ts) (ht : Traded kind w h)
    (hside : ((w.shared.buffer c).role t).side = some d) :
    w'.Bears (h ++ (ds ++ ts)) (w.ident t) c d ((w.shared.buffer c).ticket t) := by
  have hops := hp.ops_of_running (hp.stepped.sound.holder_running hside)
  rcases hp.trades c with ⟨-, heq⟩ | ⟨k, r, hc, htr⟩
  · exact .holds hops.symm (by rw [heq]; exact hside) (by rw [heq]; rfl)
  · have hstride := htr.plays.drive.stride
    cases hstride with
    | takes hrole =>
      rw [hrole] at hside
      cases hside
    | goes hside' hticket => exact .holds hops.symm (hside'.trans hside) hticket
    | ends hrole hcount hends =>
      rename_i a
      obtain ⟨job, d', hf, hchan, hd, hd', hg⟩ := htr.completed hc hends
      obtain rfl := Option.some.inj (hside.symm.trans hd')
      -- The message is in the slot, or it has been taken out.
      obtain ⟨m, hput, ha⟩ : ∃ m, w.carried c ((w.shared.buffer c).ticket t) = some m ∧
          (a = .written ∧ d = .send ∨ a = .got (some m) ∧ d = .recv) := by
        rcases hends with ⟨hrole, rfl⟩ | ⟨m, hrole, rfl⟩
        · obtain ⟨m, hput⟩ := ht.stored t c hrole
          rw [hrole] at hside
          exact ⟨m, hput, .inl ⟨rfl, (Option.some.inj hside).symm⟩⟩
        · obtain ⟨msg, rfl, hput⟩ := (hp.stepped.sound.buffer c).put_of_taken hrole
          rw [hrole] at hside
          exact ⟨msg, hput, .inr ⟨rfl, (Option.some.inj hside).symm⟩⟩
      have hput' := hp.carried_keeps hput
      rcases ha with ⟨rfl, rfl⟩ | ⟨rfl, rfl⟩
      · exact .wakes hops.symm (Option.some.inj hg).symm hchan hd hput'
      · simp only [Frame.completed] at hg
        split at hg
        · refine .returned (List.mem_append_right _ ((hp.tells.overs _ _).mpr ⟨?_, ?_⟩)) hput'
          · rw [ident, ident, hops]
          · exact (Option.some.inj hg).symm
        · exact .wakes hops.symm (Option.some.inj hg).symm hchan hd hput'

/-- Who has yet to wake somebody up does so, and returns. -/
theorem wakes_on (hp : Page kind w w' t act th count D D' h ds ts) {job : Job T} {out : Outcome T}
    (hf : (w.thread t).frame = .finish job (.wakeOne out)) :
    (w'.thread t).frame = .finish job (.wakeOne out) ∨ (w'.thread t).frame = .done out := by
  have hturn := hp.stepped.turn
  rw [hp.stepped.after.frame]
  cases hturn with
  | next hn =>
    obtain ⟨spurious, rep, he, hmore, hret⟩ := hn.exec
    cases rep with
    | more pr => exact .inl ((hmore pr rfl).1.trans hf)
    | ret r =>
      obtain ⟨-, order, hr⟩ := hret r rfl
      rw [hf] at hr
      cases r <;> cases hr
      exact .inr rfl
  | start hover _ | drop hover _ _ =>
    rw [hf] at hover
    cases hover
  | complete hf' _ => cases hf.symm.trans hf'

/-- **What becomes of a position that has been taken.** -/
theorem bears_old (hp : Page kind w w' t act th count D D' h ds ts) (ht : Traded kind w h)
    (hb : w.Bears h a c d k) : w'.Bears (h ++ (ds ++ ts)) a c d k := by
  have hothers : ∀ {u}, u ≠ t → w'.thread u = w.thread u := hp.stepped.after.others
  obtain ⟨u, n⟩ := a
  cases hb with
  | holds hop hside hticket =>
    by_cases hu : u = t
    · subst hu
      obtain rfl : n = (w.thread u).ops := hop
      rw [← hticket]
      exact hp.holds_on ht hside
    · obtain ⟨hrole, hsame⟩ := hp.others_hold hu c
      exact .holds (by rw [hothers hu]; exact hop) (by rw [hrole]; exact hside) (hsame.trans hticket)
  | wakes hop hf hchan hside hput =>
    have hput' := hp.carried_keeps hput
    by_cases hu : u = t
    · subst hu
      have hops := hp.ops_of_running (u := u) (by rw [hf]; rfl)
      rcases hp.wakes_on hf with hf' | hf'
      · exact .wakes (hop.trans hops.symm) hf' hchan hside hput'
      · refine .returned (List.mem_append_right _ ((hp.tells.overs _ _).mpr ⟨?_, hf'⟩)) hput'
        rw [ident, hops, ← hop]
    · exact .wakes (by rw [hothers hu]; exact hop) (by rw [hothers hu]; exact hf) hchan hside hput'
  | returned hover hput => exact .returned (List.mem_append_left _ hover) (hp.carried_keeps hput)

theorem bears (hp : Page kind w w' t act th count D D' h ds ts) (ht : Traded kind w h)
    (he : .take a c d k ∈ h ++ (ds ++ ts)) : w'.Bears (h ++ (ds ++ ts)) a c d k := by
  rcases hp.take_mem.mp he with hold | hnew
  · exact hp.bears_old ht (ht.bears a c d k hold)
  · have hk := hp.taking hnew
    rw [hk.ident, ← hk.ident']
    exact .holds rfl hk.side hk.ticket

theorem held (hp : Page kind w w' t act th count D D' h ds ts) (ht : Traded kind w h)
    (hside : ((w'.shared.buffer c).role u).side = some d) :
    .take (w'.ident u) c d ((w'.shared.buffer c).ticket u) ∈ h ++ (ds ++ ts) := by
  by_cases hu : u = t
  · subst hu
    -- It has been held before, or it is taken now.
    have before : ((w.shared.buffer c).role u).side = some d →
        (w'.shared.buffer c).ticket u = (w.shared.buffer c).ticket u →
        .take (w'.ident u) c d ((w'.shared.buffer c).ticket u) ∈ h ++ (ds ++ ts) := by
      intro hold hticket
      rw [hticket, ident, hp.ops_of_running (hp.stepped.sound.holder_running hold)]
      exact List.mem_append_left _ (ht.held u c d hold)
    rcases hp.trades c with ⟨-, heq⟩ | ⟨k, r, hc, htr⟩
    · rw [heq] at hside
      exact before hside (by rw [heq])
    · have hstride := htr.plays.drive.stride
      cases hstride with
      | takes hrole hside' hticket hcount hother =>
        rename_i d'
        obtain rfl := Option.some.inj (hside.symm.trans hside')
        have hmem : w.positions c d ∈ ds.filterMap (Event.position c d) := by
          rw [hp.written, positions_deeds, ← hp.stepped.after.shared, if_pos]
          · exact List.mem_singleton_self _
          · exact Nat.lt_of_lt_of_eq (Nat.lt_succ_self _) hcount.symm
        obtain ⟨e, he, hpos⟩ := List.mem_filterMap.mp hmem
        obtain ⟨a, rfl⟩ := Event.of_position hpos
        have hk := hp.taking he
        rw [hk.ident', hk.ticket, ← hk.ident]
        exact hp.take_mem.mpr (.inr he)
      | goes hside' hticket _ _ => exact before (hside'.symm.trans hside) hticket
      | ends hrole _ _ =>
        rw [hrole] at hside
        cases hside
  · obtain ⟨hrole, hticket⟩ := hp.others_hold hu c
    rw [hrole] at hside
    rw [hticket, ident, hp.stepped.after.others hu]
    exact List.mem_append_left _ (ht.held u c d hside)

/-- `write` or `read` goes on until it is over. -/
theorem completes (hp : Page kind w w' t act th count D D' h ds ts) {job : Job T}
    (hf : (w.thread t).frame = .finish job .complete)
    (hmove : (w'.thread t).frame ≠ (w.thread t).frame) :
    ∃ k a, (w.thread t).frame.call.onBuffer kind (w.thread t).prog = some (job.chan, k) ∧
      (∀ m, job.msg = some m → k = .write m) ∧ (job.msg = none → k = .read) ∧
      Frame.Trades kind w.shared w'.shared t (w.thread t).frame (w'.thread t).frame job.chan k (some a) ∧
      Frame.completed kind job a = some (w'.thread t).frame := by
  obtain ⟨k, hc, hret, hwrite, hread⟩ : ∃ k, (w.thread t).frame.call.onBuffer kind (w.thread t).prog =
      some (job.chan, k) ∧ (∀ a, (k.answered a : Reply Tid T) = .ret (.answer a)) ∧
        (∀ m, job.msg = some m → k = .write m) ∧ (job.msg = none → k = .read) := by
    rw [hf]
    obtain ⟨c, msg⟩ := job
    cases msg <;> exact ⟨_, rfl, fun _ => rfl, by simp, by simp⟩
  rcases hp.trades job.chan with ⟨hno, -⟩ | ⟨k', r, hc', htr⟩
  · exact absurd hc (hno k)
  · obtain rfl := (Prod.mk.inj (Option.some.inj (hc.symm.trans hc'))).2
    cases r with
    | none => exact absurd (htr.stays rfl) hmove
    | some a =>
      obtain ⟨order, hr⟩ := htr.resumes a _ rfl (hret a)
      rw [hf] at hr
      exact ⟨k, a, hc, hwrite, hread, htr, hr⟩

theorem wakes (hp : Page kind w w' t act th count D D' h ds ts) (ht : Traded kind w h) {job : Job T}
    {out : Outcome T} (hf : (w'.thread u).frame = .finish job (.wakeOne out)) :
    ∃ k, .take (w'.ident u) job.chan job.side k ∈ h ++ (ds ++ ts) := by
  have hafter := hp.stepped.after
  by_cases hu : u = t
  · subst hu
    rw [ident, hafter.ops]
    have hturn := hp.stepped.turn
    have hf' := hf
    rw [hafter.frame] at hf'
    cases hturn with
    | next hn =>
      dsimp only at hf' ⊢
      subst hf'
      obtain ⟨spurious, rep, he, hmore, hret⟩ := hn.exec
      cases rep with
      | more pr =>
        obtain ⟨k, hk⟩ := ht.wakes u job out (hmore pr rfl).1.symm
        exact ⟨k, List.mem_append_left _ hk⟩
      | ret r =>
        obtain ⟨-, order, hr⟩ := hret r rfl
        obtain ⟨a, hfr, rfl, hdone⟩ := Frame.wakes_of_resume hr
        obtain ⟨k, a', hc, -, -, htr, hdone'⟩ := hp.completes hfr (by rw [hf, hfr]; simp)
        have hstride := htr.plays.drive.stride
        rw [hf] at hdone'
        cases hstride with
        | goes _ _ _ hno =>
          rcases Frame.answer_of_wakes hdone' with rfl | ⟨m, rfl⟩
          · exact absurd rfl (hno _ rfl).1
          · exact absurd rfl ((hno _ rfl).2 m)
        | ends _ _ hends =>
          obtain ⟨job', d, hfr', hchan, hd, hside, -⟩ := htr.completed hc hends
          obtain rfl : job = job' := (Frame.finish.inj (hfr.symm.trans hfr')).1
          exact ⟨_, List.mem_append_left _ (by rw [hd]; exact ht.held u job.chan d hside)⟩
    | start _ _ => exact absurd hf' (Frame.opFrame_not_finish _)
    | complete _ _ => exact absurd hf' Frame.finishWith_not_wakes
    | drop _ _ _ =>
      simp only [lastDropped] at hf'
      repeat' split at hf'
      all_goals cases hf'
  · rw [hafter.others hu] at hf
    rw [ident, hafter.others hu]
    obtain ⟨k, hk⟩ := ht.wakes u job out hf
    exact ⟨k, List.mem_append_left _ hk⟩

theorem writes (hp : Page kind w w' t act th count D D' h ds ts) (ht : Traded kind w h)
    (hr : (w'.shared.buffer c).role u = .reserved (some m)) :
    (w'.thread u).frame = .finish ⟨c, some m⟩ .complete := by
  by_cases hu : u = t
  · subst hu
    -- What it was going to write before it still is.
    have before : (w.shared.buffer c).role u = .reserved (some m) →
        (w'.thread u).frame = (w.thread u).frame →
        (w'.thread u).frame = .finish ⟨c, some m⟩ .complete := fun hold hframe =>
      hframe.trans (ht.writes u c m hold)
    rcases hp.trades c with ⟨hno, heq⟩ | ⟨k, r, hc, htr⟩
    · rw [heq] at hr
      refine absurd ?_ (hno (.write m))
      rw [ht.writes u c m hr]
      rfl
    · have hdrive := htr.plays.drive
      rw [hr] at hdrive
      rcases hdrive.reserved_cases with ⟨hold | hk, rfl⟩ | ⟨hold, a, rfl⟩
      · exact before hold (htr.stays rfl)
      · exact (htr.stays rfl).trans ((Frame.finish_of_onBuffer hc).1 m hk)
      · have hholds := (w.shared.buffer c).phase_holds u
        have hanswer := htr.drive.answered
        rw [hold] at hholds
        generalize (w.shared.buffer c).phase u = p at hanswer hholds
        cases p with
        | taken d | granted d => cases d <;> cases hholds
        | completing d => cases k <;> cases hanswer
        | _ => cases hholds
  · rw [(hp.others_hold hu c).1] at hr
    rw [hp.stepped.after.others hu]
    exact ht.writes u c m hr

theorem stored (hp : Page kind w w' t act th count D D' h ds ts) (ht : Traded kind w h)
    (hr : (w'.shared.buffer c).role u = .stored) :
    ∃ m, w'.carried c ((w'.shared.buffer c).ticket u) = some m := by
  by_cases hu : u = t
  · subst hu
    rcases hp.trades c with ⟨-, heq⟩ | ⟨k, r, hc, htr⟩
    · rw [heq] at hr
      rw [carried, heq]
      exact ht.stored u c hr
    · have hdrive := htr.plays.drive
      rw [hr] at hdrive
      exact hdrive.stored fun hold => ht.stored u c hold
  · obtain ⟨hrole, hticket⟩ := hp.others_hold hu c
    rw [hrole] at hr
    rw [hticket]
    exact (ht.stored u c hr).imp fun _ hput => hp.carried_keeps hput

theorem put (hp : Page kind w w' t act th count D D' h ds ts) (ht : Traded kind w h) {n : Nat}
    (hput : w'.carried c n = some m) :
    ∃ a, .take a c .send n ∈ h ++ (ds ++ ts) ∧ .ask a ⟨c, some m⟩ ∈ h ++ (ds ++ ts) := by
  suffices hold : ∃ a, .take a c .send n ∈ h ∧ .ask a ⟨c, some m⟩ ∈ h from
    hold.imp fun a ha => ⟨List.mem_append_left _ ha.1, List.mem_append_left _ ha.2⟩
  rcases hp.trades c with ⟨-, heq⟩ | ⟨k, r, hc, htr⟩
  · rw [carried, heq] at hput
    exact ht.put c n m hput
  · rcases htr.plays.drive.put_cases hput with hold | ⟨hrole, rfl⟩
    · exact ht.put c n m hold
    · refine ⟨w.ident t, ht.held t c .send (by rw [hrole]; rfl), hp.asked_of_job ?_⟩
      rw [ht.writes t c m hrole]
      rfl

/-- The present operation of a thread that has taken a position. -/
theorem bears_now (hp : Page kind w w' t act th count D D' h ds ts) (ht : Traded kind w h)
    (he : .take (w.ident t) c d k ∈ h) : ((w.shared.buffer c).role t).side = some d ∨
      (∃ job out, (w.thread t).frame = .finish job (.wakeOne out)) ∨
      (w.thread t).frame.ended = true := by
  cases ht.bears _ _ _ _ he with
  | holds hop hside hticket => exact .inl hside
  | wakes hop hf hchan hside hput => exact .inr (.inl ⟨_, _, hf⟩)
  | returned hover hput =>
    have hf : (w.thread t).frame = .done _ := (hp.attested.overs _ _ hover).2 rfl
    exact .inr (.inr (by rw [hf]; rfl))

/-- Who takes a position has taken none before. -/
theorem Taking.first (hp : Page kind w w' t act th count D D' h ds ts) (ht : Traded kind w h)
    (hk : Taking kind w w' t ds a c d k) {c' k' : Nat} {d' : Side} : .take a c' d' k' ∉ h := by
  intro hold
  have hcall := hk.call
  rw [hk.ident] at hold
  rcases hp.bears_now ht hold with hside | ⟨job, out, hf⟩ | hover
  · rcases hp.stepped.sound.holder hside with ⟨x, hf, -⟩ | ⟨k, hc, -⟩
    · rw [hf] at hcall
      cases hcall
    · obtain rfl : c = c' := (Prod.mk.inj (Option.some.inj (hcall.symm.trans hc))).1
      rw [hk.before] at hside
      cases hside
  · rw [hf] at hcall
    cases hcall
  · rw [call_of_ended hover] at hcall
    cases hcall

theorem once (hp : Page kind w w' t act th count D D' h ds ts) (ht : Traded kind w h) :
    ((h ++ (ds ++ ts)).filterMap Event.taker).Nodup := by
  have hts : ts.filterMap Event.taker = [] := by
    refine List.filterMap_eq_nil_iff.mpr fun e he => ?_
    cases hp.blank e he <;> rfl
  rw [List.filterMap_append, List.filterMap_append, hts, List.append_nil]
  by_cases hds : ∃ a c d k, .take a c d k ∈ ds
  · obtain ⟨a, c, d, k, he⟩ := hds
    have hk := hp.taking he
    rw [hk.only]
    refine List.nodup_append.mpr ⟨ht.once, List.nodup_singleton a, ?_⟩
    rintro b hb _ hb' rfl
    obtain rfl := List.mem_singleton.mp hb'
    obtain ⟨e, he', htaker⟩ := List.mem_filterMap.mp hb
    cases e with
    | take b' c' d' k' =>
      cases htaker
      exact hk.first hp ht he'
    | _ => cases htaker
  · have hnone : ds.filterMap Event.taker = [] := by
      refine List.filterMap_eq_nil_iff.mpr fun e he => ?_
      cases e with
      | take a c d k => exact absurd ⟨a, c, d, k, he⟩ hds
      | _ => rfl
    rw [hnone, List.append_nil]
    exact ht.once

theorem sides (hp : Page kind w w' t act th count D D' h ds ts) (ht : Traded kind w h) {j : Job T}
    (he : .take a c d k ∈ h ++ (ds ++ ts)) (hask : .ask a j ∈ h ++ (ds ++ ts)) :
    j.chan = c ∧ j.side = d := by
  rcases hp.take_mem.mp he with hold | hnew
  · rcases hp.ask_old hask with hask | rfl | ⟨rfl, x, tk, hf, hchan, hside⟩
    · exact ht.sides a c d k j hold hask
    · -- Nothing has been done by an operation that is yet to begin.
      cases ht.bears _ _ _ _ hold with
      | holds hop _ _ | wakes hop _ _ _ _ => exact absurd hop (Nat.succ_ne_self _)
      | returned hover _ => exact absurd (hp.attested.overs _ _ hover).1 (Nat.not_succ_le_self _)
    · rcases hp.bears_now ht hold with hrole | ⟨job, out, hf'⟩ | hover
      · rcases hp.stepped.sound.holder hrole with ⟨x', hf', hc, hd⟩ | ⟨k, hc, -⟩
        · obtain ⟨rfl, -⟩ := Frame.chosen.inj (hf.symm.trans hf')
          exact ⟨hchan.trans hc, hside.trans hd⟩
        · rw [hf] at hc
          cases hc
      · cases hf.symm.trans hf'
      · rw [hf] at hover
        cases hover
  · have hk := hp.taking hnew
    have hcall := hk.call
    rcases hp.ask_old hask with hask | ha | ⟨-, x, tk, hf, -⟩
    · have hserves := hp.serves t
      rw [hk.ident] at hask
      have hjob : (w.thread t).job = some j := (hp.attested.asks _ _ hask).2 rfl
      rw [hjob] at hserves
      exact Frame.role_of_starts hcall hserves hp.stepped.typed
    · rw [hk.ident] at ha
      exact absurd (Ident.mk.inj ha).2.symm (Nat.succ_ne_self _)
    · rw [hf] at hcall
      cases hcall

/-- What is not yet in the history and takes a position is in this turn. -/
theorem take_new (hp : Page kind w w' t act th count D D' h ds ts) {i : Nat} (hi : ¬ i < h.length)
    (he : (h ++ (ds ++ ts))[i]? = some (.take a c d k)) : Taking kind w w' t ds a c d k := by
  rw [List.getElem?_append_right (Nat.le_of_not_lt hi)] at he
  rcases List.mem_append.mp (List.mem_of_getElem? he) with he | he
  · exact hp.taking he
  · cases hp.blank _ he

theorem later (hp : Page kind w w' t act th count D D' h ds ts) (ht : Traded kind w h) {i : Nat}
    (hi : (h ++ (ds ++ ts))[i]? = some (.take a c .recv k)) :
    ∃ (j : Nat) (b : Ident Tid), j < i ∧ (h ++ (ds ++ ts))[j]? = some (.take b c .send k) := by
  by_cases hlt : i < h.length
  · rw [List.getElem?_append_left hlt] at hi
    obtain ⟨j, b, hj, hb⟩ := ht.later i a c k hi
    exact ⟨j, b, hj, by rw [List.getElem?_append_left (Nat.lt_trans hj hlt), hb]⟩
  · have hk := hp.take_new hlt hi
    have hle : w'.positions c .recv ≤ w'.positions c .send := (hp.stepped.sound'.buffer c).le
    have hother : w'.positions c .send = w.positions c .send := hk.other
    rw [hk.next, hother] at hle
    obtain ⟨j, b, hj, hb⟩ := ht.taken_below hle
    exact ⟨j, b, Nat.lt_of_lt_of_le hj (Nat.le_of_not_lt hlt), by
      rw [List.getElem?_append_left hj, hb]⟩

/-- The capacity of a channel is fixed. -/
theorem cap_eq (hp : Page kind w w' t act th count D D' h ds ts) (c : Nat) :
    (w'.shared.buffer c).cap = (w.shared.buffer c).cap := by
  rw [hp.stepped.after.shared]
  exact (hp.stepped.turn.kept hp.stepped.sound hp.stepped.typed).cap c

theorem room (hp : Page kind w w' t act th count D D' h ds ts) (ht : Traded kind w h) {i n : Nat}
    (hcap : (w'.shared.buffer c).cap = some n) (hn : n ≤ k)
    (hi : (h ++ (ds ++ ts))[i]? = some (.take a c .send k)) :
    ∃ (j : Nat) (b : Ident Tid), j < i ∧ (h ++ (ds ++ ts))[j]? = some (.take b c .recv (k - n)) := by
  by_cases hlt : i < h.length
  · rw [List.getElem?_append_left hlt] at hi
    obtain ⟨j, b, hj, hb⟩ := ht.room i a c k n ((hp.cap_eq c).symm.trans hcap) hn hi
    exact ⟨j, b, hj, by rw [List.getElem?_append_left (Nat.lt_trans hj hlt), hb]⟩
  · have hk := hp.take_new hlt hi
    have hle : w'.positions c .send ≤ w'.positions c .recv + n :=
      (hp.stepped.sound'.buffer c).bound hcap
    have hother : w'.positions c .recv = w.positions c .recv := hk.other
    rw [hk.next, hother] at hle
    obtain ⟨j, b, hj, hb⟩ := ht.taken_below (c := c) (d := .recv) (k := k - n) (by omega)
    exact ⟨j, b, Nat.lt_of_lt_of_le hj (Nat.le_of_not_lt hlt), by
      rw [List.getElem?_append_left hj, hb]⟩

theorem within (hp : Page kind w w' t act th count D D' h ds ts) (ht : Traded kind w h) {i j : Nat}
    {out : Outcome T} (hi : (h ++ (ds ++ ts))[i]? = some (.take a c d k))
    (hj : (h ++ (ds ++ ts))[j]? = some (.over a out)) : i < j := by
  by_cases hlt : i < h.length
  · rw [List.getElem?_append_left hlt] at hi
    by_cases hlt' : j < h.length
    · rw [List.getElem?_append_left hlt'] at hj
      exact ht.within i j a c d k out hi hj
    · omega
  · -- Who takes a position now is running.
    have hk := hp.take_new hlt hi
    have hcall := hk.call
    have hover := (hp.attested'.overs a out (List.mem_of_getElem? hj)).2
    rw [hk.ident, ← hk.ident'] at hover
    have hf : (w'.thread t).frame = .done out := hover rfl
    rw [hk.frame] at hf
    rw [hf] at hcall
    cases hcall

/-- A send or receive that is completed without a position comes to nothing. -/
theorem refused_complete (hp : Page kind w w' t act th count D D' h ds ts) (ht : Traded kind w h)
    {job : Job T} {out : Outcome T} (hf : (w.thread t).frame = .finish job .complete)
    (hf' : (w'.thread t).frame = .done out) (hnone : ∀ k, .take (w.ident t) job.chan job.side k ∉ h) :
    out.Refuses job.msg := by
  obtain ⟨k, a, hc, hwrite, hread, htr, hdone⟩ := hp.completes hf (by rw [hf, hf']; simp)
  rw [hf'] at hdone
  have hanswer := htr.drive.answered
  cases a with
  | unsent msg =>
    have hfits := hp.stepped.sound.fits hc
    cases hdone
    generalize (w.shared.buffer job.chan).phase t = p at hanswer hfits
    unfold Phase.answer at hanswer
    split at hanswer <;> cases hanswer
    rename_i m'
    obtain rfl : msg = m' := hfits
    cases hm : job.msg with
    | none => cases hread hm
    | some m =>
      obtain rfl := BufferCall.write.inj (hwrite m hm)
      exact .disconnected
  | unread =>
    cases hdone
    cases hm : job.msg with
    | none => exact .disconnected
    | some m =>
      rw [hwrite m hm] at hanswer
      unfold Phase.answer at hanswer
      split at hanswer <;> cases hanswer
      all_goals contradiction
  | got m =>
    exfalso
    have hstride := htr.plays.drive.stride
    cases hstride with
    | goes _ _ _ hno => exact (hno _ rfl).2 m rfl
    | ends _ _ hends =>
      obtain ⟨job', d, hfr, -, hd, hside, -⟩ := htr.completed hc hends
      obtain rfl : job = job' := (Frame.finish.inj (hf.symm.trans hfr)).1
      exact hnone _ (by rw [hd]; exact ht.held t job.chan d hside)
  | _ => cases hdone

/-- A send or receive of a buffered channel that returns without a position comes to nothing. -/
theorem refused_buffered (hp : Page kind w w' t act th count D D' h ds ts) (ht : Traded kind w h)
    {out : Outcome T} {j : Job T} (hf' : (w'.thread t).frame = .done out)
    (hjob : (w'.thread t).job = some j) (hb : (kind j.chan).Buffered)
    (hnone : ∀ c d k, .take (w'.ident t) c d k ∉ h) : out.Refuses j.msg := by
  have hafter := hp.stepped.after
  have hturn := hp.stepped.turn
  have htyped := hp.stepped.typed
  have hserves := hp.serves t
  have hdone := hf'
  rw [hafter.frame] at hf'
  rw [hafter.job] at hjob
  rw [ident, hafter.ops] at hnone
  cases hturn with
  | next hn =>
    dsimp only at hf' hjob hnone
    subst hf'
    rw [hjob] at hserves
    obtain ⟨spurious, rep, he, hmore, hret⟩ := hn.exec
    cases hfr : (w.thread t).frame with
    | plain job mode st =>
      rw [hfr] at hserves htyped
      cases hserves
      cases rep with
      | more pr =>
        have hsame := (hmore pr rfl).1
        rw [hfr] at hsame
        cases hsame
      | ret r =>
        obtain ⟨-, order, hr⟩ := hret r rfl
        rw [hfr] at hr he
        simp only [Frame.resume, Frame.plainResume, Frame.plainFailed, Frame.plainWaited] at hr
        split at hr
        · rename_i tk
          rw [Frame.finishWith_buffered hb (Shared.start_token he)] at hr
          cases hr
        all_goals repeat' split at hr
        all_goals cases hr
        · exact .unavailable
        · exact .timeout
    | finish job st =>
      rw [hfr] at hserves htyped
      cases hserves
      cases st with
      -- With a token of a position it would have taken that position.
      | complete => exact hp.refused_complete ht hfr hdone fun k => hnone _ _ k
      | wakeOne out' =>
        obtain ⟨k, hk⟩ := ht.wakes t _ _ hfr
        exact absurd hk (hnone _ _ k)
      | _ => exact absurd htyped hb.not_zero
    | zero job mode st =>
      rw [hfr] at hserves htyped
      cases hserves
      exact absurd htyped hb.not_zero
    | timer c mode =>
      rw [hfr] at hserves htyped
      obtain rfl := Option.some.inj hserves
      exact absurd hb htyped.1
    | select _ _ _ | chosen _ _ | close _ _ _ =>
      rw [hfr] at hserves
      cases hserves
    | done _ | panicked => exact absurd hn (not_next_of_ended (by rw [hfr]; rfl))
  | start hover huses =>
    rename_i op
    cases op with
    | select handles timeout => cases hjob
    | plain job mode =>
      dsimp only [Op.frame] at hf'
      split at hf' <;> cases hf'
  | complete hf hside =>
    rw [hf] at htyped
    cases hjob
    rw [Frame.finishWith_buffered hb htyped] at hf'
    cases hf'
  | drop _ _ _ => cases hjob

theorem trade_fails (hp : Page kind w w' t act th count D D' h ds ts) (ht : Traded kind w h)
    {out : Outcome T} {j : Job T} (hb : (kind j.chan).Buffered) (hask : .ask a j ∈ h ++ (ds ++ ts))
    (hover : .over a out ∈ h ++ (ds ++ ts)) (hnone : ∀ c d k, .take a c d k ∉ h ++ (ds ++ ts)) :
    out.Refuses j.msg := by
  have hold : ∀ c d k, .take a c d k ∉ h := fun c d k he => hnone c d k (List.mem_append_left _ he)
  rcases List.mem_append.mp hover with hover' | hnew
  · obtain ⟨hle, hnow⟩ := hp.attested.overs a out hover'
    rcases hp.ask_old hask with hask | rfl | ⟨rfl, x, tk, hf, -⟩
    · exact ht.fails a out j hb hask hover' hold
    · exact absurd hle (Nat.not_succ_le_self _)
    · cases hf.symm.trans (hnow rfl)
  · obtain ⟨rfl, hf⟩ := (hp.tells.overs a out).mp hnew
    exact hp.refused_buffered ht hf ((hp.attested'.asks _ _ hask).2 rfl) hb hold

/-- **Every turn keeps positions, messages and history in agreement.** -/
theorem traded (hp : Page kind w w' t act th count D D' h ds ts) (ht : Traded kind w h) :
    Traded kind w' (h ++ (ds ++ ts)) where
  numbered := hp.numbered ht
  buffered := by
    intro a c d k he
    rcases hp.take_mem.mp he with hold | hnew
    · exact ht.buffered a c d k hold
    · exact (Frame.tries_of_starts (hp.taking hnew).call).2
  bears := fun _ _ _ _ he => hp.bears ht he
  held := fun _ _ _ hside => hp.held ht hside
  wakes := fun _ _ _ hf => hp.wakes ht hf
  writes := fun _ _ _ hr => hp.writes ht hr
  stored := fun _ _ hr => hp.stored ht hr
  put := fun _ _ _ hput => hp.put ht hput
  once := hp.once ht
  sides := fun _ _ _ _ _ he hask => hp.sides ht he hask
  later := fun _ _ _ _ hi => hp.later ht hi
  room := fun _ _ _ _ _ hcap hn hi => hp.room ht hcap hn hi
  within := fun _ _ _ _ _ _ _ hi hj => hp.within ht hi hj
  fails := fun _ _ _ hb hask hover hnone => hp.trade_fails ht hb hask hover hnone

end Page

omit [DecidableEq Tid] in
/-- Handles and time are of no account. -/
theorem Traded.congr (ht : Traded kind w h) (hthread : w'.thread = w.thread)
    (hbuffer : w'.shared.buffer = w.shared.buffer) : Traded kind w' h where
  numbered := by
    simp only [positions, hbuffer]
    exact ht.numbered
  buffered := ht.buffered
  bears := by
    intro a c d k he
    cases ht.bears a c d k he with
    | holds hop hside hticket =>
      exact .holds (by rwa [hthread]) (by rwa [hbuffer]) (by rwa [hbuffer])
    | wakes hop hf hchan hside hput =>
      exact .wakes (by rwa [hthread]) (by rwa [hthread]) hchan hside (by rwa [carried, hbuffer])
    | returned hover hput => exact .returned hover (by rwa [carried, hbuffer])
  held := by
    simp only [ident, hthread, hbuffer]
    exact ht.held
  wakes := by
    simp only [ident, hthread]
    exact ht.wakes
  writes := by
    simp only [hthread, hbuffer]
    exact ht.writes
  stored := by
    simp only [carried, hbuffer]
    exact ht.stored
  put := by
    simp only [carried, hbuffer]
    exact ht.put
  once := ht.once
  sides := ht.sides
  later := ht.later
  room := by
    rw [hbuffer]
    exact ht.room
  within := ht.within
  fails := ht.fails

omit [DecidableEq Tid] in
theorem buffer_init_empty (k : Kind T) : (Buffer.init k : Buffer Tid T).queue = .empty ∧
    ∀ t, (Buffer.init k : Buffer Tid T).role t = .none := by
  cases k <;> exact ⟨rfl, fun _ => rfl⟩

omit [DecidableEq Tid] in
theorem Traded.init : Traded kind (World.init kind : World Tid T) [] where
  numbered := by
    intro c d
    have hzero : (World.init kind : World Tid T).positions c d = 0 := by
      change d.count (Buffer.init (kind c) : Buffer Tid T).queue = 0
      rw [(buffer_init_empty (kind c)).1]
      cases d <;> rfl
    rw [hzero]
    rfl
  buffered := by intros; contradiction
  bears := by intros; contradiction
  held := by
    intro t c d hside
    rw [show ((World.init kind : World Tid T).shared.buffer c).role t = .none from
      (buffer_init_empty (kind c)).2 t] at hside
    cases hside
  wakes := by intros; contradiction
  writes := by
    intro t c m hr
    rw [show ((World.init kind : World Tid T).shared.buffer c).role t = .none from
      (buffer_init_empty (kind c)).2 t] at hr
    cases hr
  stored := by
    intro t c hr
    rw [show ((World.init kind : World Tid T).shared.buffer c).role t = .none from
      (buffer_init_empty (kind c)).2 t] at hr
    cases hr
  put := by
    intro c k m hput
    rw [show (World.init kind : World Tid T).carried c k = none from
      congrArg (fun q => Lib.Fifo.put q k) (buffer_init_empty (kind c)).1] at hput
    cases hput
  once := List.nodup_nil
  sides := by intros; contradiction
  later := by
    intro i b c k hi
    cases hi
  room := by
    intro i a c k n _ _ hi
    cases hi
  within := by
    intro i j a c d k out hi
    cases hi
  fails := by intros; contradiction

/-- **In every run, positions, messages and history agree**, beside the deals. -/
theorem traded_of_reachable {x : World Tid T × List (List (Event Tid T))}
    (hr : (history kind).Reachable x) : Traded kind x.1 x.2.flatten := by
  refine hr.invariant (P := fun x => Traded kind x.1 x.2.flatten) ?_ fun x l y hx ht hs => ?_
  · rintro ⟨_, _⟩ ⟨rfl, rfl⟩
    exact Traded.init
  · rw [flatten_of_step hs]
    obtain ⟨D, hc⟩ := chronicle_of_reachable hx
    rcases hc.page hx.forget hs.1 with ⟨t, act, th, count, D', ds, ts, hp, hes⟩ | ⟨hno, hw⟩
    · rw [hes]
      exact hp.traded ht
    · rw [hno, List.append_nil]
      rcases hw with ⟨c, d, hw⟩ | ⟨now, hw⟩
      · exact ht.congr (by rw [hw]; rfl) (by rw [hw]; rfl)
      · exact ht.congr (by rw [hw]) (by rw [hw])

end World

end CrossbeamChannel
