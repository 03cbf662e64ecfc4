import CrossbeamChannel.World.Moves

/-!
# Handles, operations in progress, and disconnection

An operation works on channels it holds handles of, so a side of a channel that some thread
is working on has a handle; and `disconnect` runs only for a side that has none.

`Sender` and `Receiver` are counted in `channel.rs` by `senders` and `receivers`; the machine counts them
by `World.count`, and an operation in progress has its channels in `uses`. `Lent` relates the two, and
`Works` and `job` to them: a body stays the body of one operation until it ends (`Frame.Stays`). Timers
have no senders, and their receivers can go without a `disconnect`.
-/

namespace CrossbeamChannel

variable {Tid T : Type}

namespace Frame

/-- Where a step of a body can lead: the operation stays the same one. -/
inductive Stays : Frame Tid T → Frame Tid T → Prop where
  | same {f : Frame Tid T} : Stays f f
  | done {f : Frame Tid T} {out : Outcome T} : Stays f (.done out)
  | panicked {f : Frame Tid T} : Stays f .panicked
  | plain {job : Job T} {mode : Mode} {st st' : PlainStage} :
      Stays (.plain job mode st) (.plain job mode st')
  | plainFinish {job : Job T} {mode : Mode} {st : PlainStage} {st' : FinishStage T} :
      Stays (.plain job mode st) (.finish job st')
  | zero {job : Job T} {mode : Mode} {st st' : ZeroStage Tid} :
      Stays (.zero job mode st) (.zero job mode st')
  | zeroFinish {job : Job T} {mode : Mode} {st : ZeroStage Tid} {st' : FinishStage T} :
      Stays (.zero job mode st) (.finish job st')
  | finish {job : Job T} {st st' : FinishStage T} : Stays (.finish job st) (.finish job st')
  | select {handles order : List Handle} {timeout timeout' : Timeout} {st st' : SelectStage Tid}
      (h : order.Perm handles) : Stays (.select handles timeout st) (.select order timeout' st')
  | chosen {handles : List Handle} {timeout : Timeout} {st : SelectStage Tid} {x : Handle}
      {tk : Token} (h : x ∈ handles) : Stays (.select handles timeout st) (.chosen x tk)
  | close {c : Nat} {d : Side} {st st' : CloseStage} : Stays (.close c d st) (.close c d st')

variable {kind : Nat → Kind T} {handles : List Handle} {timeout : Timeout} {st : SelectStage Tid}
  {f : Frame Tid T}

theorem finishWith_cases (kind : Nat → Kind T) (job : Job T) (tk : Token) :
    (∃ st, (finishWith kind job tk : Frame Tid T) = .finish job st) ∨
      ∃ out, (finishWith kind job tk : Frame Tid T) = .done out := by
  unfold finishWith
  split
  · exact .inl ⟨_, rfl⟩
  · split
    · exact .inr ⟨_, rfl⟩
    · exact .inl ⟨_, rfl⟩
  · split <;> exact .inl ⟨_, rfl⟩
  · exact .inr ⟨_, rfl⟩

theorem choose_stays {i : Nat} {tk : Token} (h : choose handles i tk = some f) :
    Stays (.select handles timeout st) f := by
  obtain ⟨x, hx, rfl⟩ := Option.map_eq_some_iff.mp h
  exact .chosen (List.mem_of_getElem? hx)

theorem loopStart_stays (timeout' : Timeout) :
    Stays (.select handles timeout st) (loopStart handles timeout' : Frame Tid T) :=
  .select (.refl _)

theorem nowStart_stays : Stays (.select handles timeout st) (nowStart handles : Frame Tid T) := by
  unfold nowStart
  split
  · exact .done
  · exact .select (.refl _)
  · exact .select (.refl _)

theorem roundOver_stays :
    Stays (.select handles timeout st) (roundOver handles timeout : Frame Tid T) := by
  unfold roundOver
  split
  · exact .panicked
  · exact loopStart_stays _
  · exact .select (.refl _)

theorem nextHandle_stays {i : Nat} {g : Nat → SelectStage Tid} {last : Frame Tid T}
    (h : Stays (.select handles timeout st) last) :
    Stays (.select handles timeout st) (nextHandle handles timeout i g last) := by
  unfold nextHandle
  split
  · exact .select (.refl _)
  · exact h

theorem retryResume_stays {i : Nat} {rst : RetryStage Tid} {r : Ret Tid T}
    (h : retryResume handles timeout i rst r = some f) : Stays (.select handles timeout st) f := by
  unfold retryResume at h
  split at h
  · exact choose_stays h
  · exact choose_stays h
  · cases h
    exact nextHandle_stays (.select (.refl _))
  · cases h
    exact .select (.refl _)
  · cases h
    exact .panicked
  · cases h
    exact .select (.refl _)
  · cases h
    exact .select (.refl _)
  · cases h
    exact .panicked
  · cases h
    exact .select (.refl _)
  · exact choose_stays h
  · cases h
    exact nextHandle_stays (.select (.refl _))
  · cases h

theorem plainResume_stays {job : Job T} {mode : Mode} {pst : PlainStage} {r : Ret Tid T}
    (h : plainResume kind job mode pst r = some f) : Stays (.plain job mode pst) f := by
  have waited : ∀ woken, Stays (.plain job mode pst) (plainWaited job mode woken : Frame Tid T) := by
    intro woken
    unfold plainWaited
    split <;> exact .plain
  unfold plainResume at h
  split at h
  · cases h
    rcases finishWith_cases kind job _ with ⟨st, hst⟩ | ⟨out, hout⟩
    · exact hst ▸ .plainFinish
    · exact hout ▸ .done
  · cases h
    unfold plainFailed
    split
    · exact .panicked
    · exact .done
    · split <;> exact .plain
  · cases h
    exact .plain
  · cases h
    exact .plain
  · cases h
    exact .plain
  · cases h
    exact .panicked
  · cases h
    exact waited _
  · cases h
    exact .plain
  · cases h
    exact .panicked
  · cases h
    exact waited _
  · cases h
    split
    · exact .done
    · exact .plain
  · cases h

theorem unselected_stays (sel : Selected Tid) (msg : Option T) : Stays f (unselected sel msg) := by
  unfold unselected
  split <;> exact .done

theorem zeroResume_stays {job : Job T} {mode : Mode} {zst : ZeroStage Tid} {r : Ret Tid T}
    (h : zeroResume kind job mode zst r = some f) : Stays (.zero job mode zst) f := by
  unfold zeroResume at h
  split at h
  · cases h
    rcases finishWith_cases kind job _ with ⟨st, hst⟩ | ⟨out, hout⟩
    · exact hst ▸ .zeroFinish
    · exact hout ▸ .done
  · cases h
    exact .done
  · cases h
    exact .zero
  · cases h
    exact .panicked
  · cases h
    exact .zero
  · cases h
    exact .zero
  · cases h
    exact .panicked
  · cases h
    split
    · exact .zero
    · exact unselected_stays _ _
  · cases h
    exact .panicked
  · cases h
    exact unselected_stays _ _
  · cases h
    split
    · exact .done
    · exact .zero
  · cases h
    exact .panicked
  · cases h
    exact .done
  · cases h

theorem finishResume_stays {job : Job T} {fst : FinishStage T} {r : Ret Tid T}
    (h : finishResume kind job fst r = some f) : Stays (.finish job fst) f := by
  unfold finishResume completed at h
  repeat' split at h
  all_goals cases h
  all_goals first | exact .done | exact .panicked | exact .finish

variable [DecidableEq Tid]

theorem selectedNow_stays (t : Tid) (sel : Selected Tid) :
    Stays (.select handles timeout st) (selectedNow t handles timeout sel : Frame Tid T) := by
  unfold selectedNow
  split
  · exact .panicked
  · split
    · exact .select (.refl _)
    · exact roundOver_stays
  · exact roundOver_stays

theorem selectResume_stays {t : Tid} {order : List Handle} {r : Ret Tid T}
    (h : selectResume t order handles timeout st r = some f) :
    Stays (.select handles timeout st) f := by
  unfold selectResume at h
  split at h
  · split at h <;> cases h
    exact .select ‹_›
  · exact choose_stays h
  · exact choose_stays h
  · exact choose_stays h
  · cases h
    exact nextHandle_stays (.select (.refl _))
  · exact retryResume_stays h
  · cases h
    exact .select (.refl _)
  · cases h
    exact .select (.refl _)
  · cases h
    exact .select (.refl _)
  · cases h
    split
    · exact nextHandle_stays (.select (.refl _))
    · exact .select (.refl _)
  · cases h
    exact nextHandle_stays (.select (.refl _))
  · cases h
    exact .select (.refl _)
  · cases h
    split
    · exact .select (.refl _)
    · exact selectedNow_stays t _
  · cases h
    exact roundOver_stays
  · cases h
    split
    · exact nowStart_stays
    · exact loopStart_stays _
  · split at h <;> cases h
    exact .select ‹_›
  · cases h
    split <;> exact .select (.refl _)
  · cases h
    refine nextHandle_stays ?_
    unfold probed
    split
    · exact .done
    · exact .select (.refl _)
  · cases h
    unfold rechecked
    repeat' split
    · exact .select (.refl _)
    · exact .select (.refl _)
    · exact .done
  · cases h
    split
    · exact .done
    · exact .select (.refl _)
  · cases h

/-- **A step of a body stays in its operation.** -/
theorem resume_stays {t : Tid} {order : List Handle} {g : Frame Tid T} {r : Ret Tid T}
    (h : f.resume kind t order r = some g) : Stays f g := by
  cases f with
  | plain job mode st => exact plainResume_stays h
  | zero job mode st => exact zeroResume_stays h
  | finish job st => exact finishResume_stays h
  | select handles timeout st => exact selectResume_stays h
  | timer c mode =>
    simp only [resume, timerResume] at h
    repeat' split at h
    all_goals cases h
    all_goals exact .done
  | close c d st =>
    simp only [resume, closeResume] at h
    repeat' split at h
    all_goals cases h
    all_goals first | exact .done | exact .close
  | done out => cases h
  | chosen x tk => cases h
  | panicked => cases h

theorem Next.stays {w : Shared Tid T} {t : Tid} {act : Act Tid T} {g : Frame Tid T} {pr pr' : Prog}
    (h : Next kind w t f pr act g pr') : Stays f g := by
  cases h with
  | more he => exact .same
  | ret he hr => exact resume_stays hr

end Frame

namespace Frame

/-- The body works on this side of this channel. (Timers have no senders to lose.) -/
def Works (c : Nat) (d : Side) : Frame Tid T → Prop
  | .plain job _ _ | .zero job _ _ | .finish job _ => job.chan = c ∧ job.side = d
  | .select handles _ _ => ∃ x ∈ handles, x.chan = c ∧ x.side = d
  | .chosen x _ => x.chan = c ∧ x.side = d
  | .done _ | .timer _ _ | .close _ _ _ | .panicked => False

/-- The send or receive the body is. -/
def job : Frame Tid T → Option (Job T)
  | .plain job _ _ | .zero job _ _ | .finish job _ => some job
  | _ => none

variable {f g : Frame Tid T} {c : Nat} {d : Side}

theorem Stays.works (h : Stays f g) (hg : g.Works c d) : f.Works c d := by
  cases h with
  | select h =>
    obtain ⟨x, hx, heq⟩ := hg
    exact ⟨x, h.mem_iff.mp hx, heq⟩
  | chosen h => exact ⟨_, h, hg⟩
  | done | panicked => exact hg.elim
  | _ => exact hg

theorem Stays.job (h : Stays f g) {j : Job T} (hg : g.job = some j) : f.job = some j := by
  cases h <;> first | exact hg | cases hg

theorem Stays.of_close (h : Stays f g) {st : CloseStage} (hg : g = .close c d st) :
    ∃ st', f = .close c d st' := by
  subst hg
  cases h with
  | same => exact ⟨_, rfl⟩
  | close => exact ⟨_, rfl⟩

theorem Works.not_over (h : f.Works c d) : f.ended = false := by
  cases f <;> first | rfl | exact h.elim

end Frame

theorem Frame.nowStart_works {handles : List Handle} {c : Nat} {d : Side}
    (h : (nowStart handles : Frame Tid T).Works c d) : ∃ x ∈ handles, x.chan = c ∧ x.side = d := by
  unfold nowStart at h
  split at h
  · exact h.elim
  · exact h
  · exact h

/-- An operation works on what it has borrowed. -/
theorem Op.frame_works {kind : Nat → Kind T} {op : Op T} {c : Nat} {d : Side}
    (h : (op.frame kind : Frame Tid T).Works c d) : (c, d) ∈ op.uses := by
  have handles : ∀ {handles : List Handle}, (∃ x ∈ handles, x.chan = c ∧ x.side = d) →
      (c, d) ∈ handles.map fun x => (x.chan, x.side) := by
    rintro handles ⟨x, hx, rfl, rfl⟩
    exact List.mem_map.mpr ⟨x, hx, rfl⟩
  unfold Op.frame at h
  split at h
  · rename_i job mode
    have plain : job.chan = c ∧ job.side = d → (c, d) ∈ [(job.chan, job.side)] := by
      rintro ⟨rfl, rfl⟩
      exact List.mem_singleton.mpr rfl
    split at h
    · exact plain h
    · exact plain h
    · exact plain h
    all_goals exact h.elim
  · exact h.elim
  · exact handles h
  · exact handles (Frame.nowStart_works h)
  · exact handles h

/-- The send or receive a body is, is the one that was asked for. -/
theorem Op.frame_job {kind : Nat → Kind T} {op : Op T} {j : Job T}
    (h : (op.frame kind : Frame Tid T).job = some j) : op.job = some j := by
  unfold Op.frame at h
  split at h
  · split at h <;> first | exact h | cases h
  · cases h
  · cases h
  · unfold Frame.nowStart at h
    split at h <;> cases h
  · cases h

theorem Op.frame_ne_close {kind : Nat → Kind T} {op : Op T} {c : Nat} {d : Side} {st : CloseStage} :
    (op.frame kind : Frame Tid T) ≠ .close c d st := by
  unfold Op.frame Frame.nowStart Frame.loopStart
  repeat' split
  all_goals simp

namespace Frame

theorem finishWith_works {kind : Nat → Kind T} {job : Job T} {tk : Token} {c : Nat} {d : Side}
    (h : (finishWith kind job tk : Frame Tid T).Works c d) : job.chan = c ∧ job.side = d := by
  rcases finishWith_cases kind job tk with ⟨st, hst⟩ | ⟨out, hout⟩
  · rwa [hst] at h
  · rw [hout] at h
    exact h.elim

theorem finishWith_job {kind : Nat → Kind T} {job j : Job T} {tk : Token}
    (h : (finishWith kind job tk : Frame Tid T).job = some j) : job = j := by
  rcases finishWith_cases kind job tk with ⟨st, hst⟩ | ⟨out, hout⟩
  · rw [hst] at h
    exact Option.some.inj h
  · rw [hout] at h
    cases h

end Frame

theorem World.lastDropped_eq {kind : Nat → Kind T} {c c' : Nat} {d d' : Side} {st : CloseStage}
    (h : (lastDropped kind c d : Frame Tid T) = .close c' d' st) : c' = c ∧ d' = d := by
  unfold lastDropped at h
  split at h <;> cases h <;> exact ⟨rfl, rfl⟩

theorem World.lastDropped_calm {kind : Nat → Kind T} {c : Nat} {d : Side} :
    (∀ c' d', ¬ (lastDropped kind c d : Frame Tid T).Works c' d') ∧
      (lastDropped kind c d : Frame Tid T).job = none := by
  unfold lastDropped
  split <;> exact ⟨fun _ _ => id, rfl⟩

namespace World

/-- Who is in an operation, and what it has borrowed. -/
structure Lent (w : World Tid T) : Prop where
  active : ∀ t, t ∈ w.active ↔ (w.thread t).frame.ended = false
  nodup : w.active.Nodup
  idle : ∀ t, (w.thread t).frame.ended = true → (w.thread t).uses = []
  lent : ∀ t x, x ∈ (w.thread t).uses → 0 < w.count x.1 x.2
  borrowed : ∀ t c d, (w.thread t).frame.Works c d → (c, d) ∈ (w.thread t).uses
  closing : ∀ t c d st, (w.thread t).frame = .close c d st → w.count c d = 0
  job : ∀ t j, (w.thread t).frame.job = some j → (w.thread t).job = some j

variable [DecidableEq Tid] {kind : Nat → Kind T} {w w' : World Tid T} {t : Tid} {act : Act Tid T}
  {th : Thread Tid T} {count : Nat → Side → Nat}

omit [DecidableEq Tid] in
theorem setCount_count (w : World Tid T) (c : Nat) (d : Side) (n : Nat) (c' : Nat) (d' : Side) :
    (w.setCount c d n).count c' d' = if c' = c ∧ d' = d then n else w.count c' d' := by
  by_cases hc : c' = c
  · subst hc
    by_cases hd : d' = d
    · subst hd
      simp [setCount]
    · simp [setCount, hd]
  · simp [setCount, hc]

namespace Turn

/-- What a thread has borrowed keeps a handle. -/
theorem count_pos (ht : Turn kind w t act th count) (hl : Lent w) {u : Tid} {x : Nat × Side}
    (hx : x ∈ (w.thread u).uses) : 0 < count x.1 x.2 := by
  have hpos := hl.lent u x hx
  cases ht with
  | drop hover hp hfree =>
    rename_i c d
    rw [setCount_count]
    split
    · rename_i heq
      obtain ⟨rfl, rfl⟩ := heq
      have hne : w.count x.1 x.2 ≠ 1 := by
        intro hone
        refine hfree hone ⟨u, (hl.active u).mpr (Bool.eq_false_of_not_eq_true fun ho => ?_), hx⟩
        rw [hl.idle u ho] at hx
        exact absurd hx List.not_mem_nil
      omega
    · exact hpos
  | _ => exact hpos

theorem uses_pos (ht : Turn kind w t act th count) (hl : Lent w) {x : Nat × Side}
    (hx : x ∈ th.uses) : 0 < count x.1 x.2 := by
  cases ht with
  | next hn => exact hl.lent t x hx
  | start hover huses => exact huses x hx
  | complete hf hs => exact hl.lent t x hx
  | drop hover hp hfree => exact absurd hx List.not_mem_nil

theorem borrowed (ht : Turn kind w t act th count) (hl : Lent w) {c : Nat} {d : Side}
    (hw : th.frame.Works c d) : (c, d) ∈ th.uses := by
  cases ht with
  | next hn => exact hl.borrowed t c d (hn.stays.works hw)
  | start hover huses => exact Op.frame_works hw
  | complete hf hs =>
    refine hl.borrowed t c d ?_
    obtain ⟨rfl, rfl⟩ := Frame.finishWith_works hw
    rw [hf]
    exact ⟨rfl, hs.symm⟩
  | drop hover hp hfree =>
    dsimp only at hw
    split at hw
    · exact absurd hw (lastDropped_calm.1 c d)
    · exact hw.elim

theorem count_zero (ht : Turn kind w t act th count) {c : Nat} {d : Side} (h : w.count c d = 0) :
    count c d = 0 := by
  cases ht with
  | drop hover hp hfree =>
    rw [setCount_count]
    split
    · rename_i heq
      obtain ⟨rfl, rfl⟩ := heq
      omega
    · exact h
  | _ => exact h

theorem closing (ht : Turn kind w t act th count) (hl : Lent w) {c : Nat} {d : Side}
    {st : CloseStage} (hf : th.frame = .close c d st) : count c d = 0 := by
  cases ht with
  | next hn =>
    obtain ⟨st', hst⟩ := hn.stays.of_close hf
    exact hl.closing t c d st' hst
  | start hover huses => exact absurd hf Op.frame_ne_close
  | complete hf' hs =>
    rename_i h tk msg
    rcases Frame.finishWith_cases kind ⟨h.chan, msg⟩ tk with ⟨st, hst⟩ | ⟨out, hout⟩
    · rw [show _ = Frame.finish _ st from hst] at hf
      cases hf
    · rw [show _ = Frame.done out from hout] at hf
      cases hf
  | drop hover hp hfree =>
    dsimp only at hf
    split at hf
    · rename_i hone
      obtain ⟨rfl, rfl⟩ := lastDropped_eq hf
      rw [setCount_count, if_pos ⟨rfl, rfl⟩, hone]
    · cases hf

theorem job (ht : Turn kind w t act th count) (hl : Lent w) {j : Job T}
    (hj : th.frame.job = some j) : th.job = some j := by
  cases ht with
  | next hn => exact hl.job t j (hn.stays.job hj)
  | start hover huses => exact Op.frame_job hj
  | complete hf hs => exact congrArg some (Frame.finishWith_job hj)
  | drop hover hp hfree =>
    dsimp only at hj
    split at hj
    · rw [lastDropped_calm.2] at hj
      cases hj
    · cases hj

end Turn

theorem After.active_iff (ha : After w w' t act th count) (hl : Lent w) :
    w'.active.Nodup ∧ ∀ u, u ∈ w'.active ↔ (w'.thread u).frame.ended = false := by
  have hnot : (w.thread t).frame.ended = true → t ∉ w.active := by
    intro ho hmem
    rw [(hl.active t).mp hmem] at ho
    cases ho
  have hother : ∀ u, u ≠ t → (u ∈ w'.active ↔ u ∈ w.active) := by
    intro u hu
    rw [ha.active]
    unfold activeAfter
    split
    · exact Iff.rfl
    · exact List.mem_cons.trans (or_iff_right hu)
    · exact List.mem_erase_of_ne hu
    · exact Iff.rfl
  refine ⟨?_, fun u => ?_⟩
  · rw [ha.active]
    unfold activeAfter
    split
    · exact hl.nodup
    · exact List.nodup_cons.mpr ⟨hnot ‹_›, hl.nodup⟩
    · exact hl.nodup.erase t
    · exact hl.nodup
  · by_cases hu : u = t
    · subst hu
      rw [ha.frame, ha.active]
      unfold activeAfter
      split
      · rename_i ho ho'
        simp only [ho', Bool.true_eq_false, iff_false]
        exact hnot ho
      · rename_i ho ho'
        simp only [ho', iff_true]
        exact List.mem_cons_self
      · rename_i ho ho'
        simp only [ho', Bool.true_eq_false, iff_false]
        exact hl.nodup.not_mem_erase
      · rename_i ho ho'
        simp only [ho', iff_true]
        exact (hl.active u).mpr ho
    · rw [hother u hu, ha.others hu]
      exact hl.active u

theorem Lent.after (hl : Lent w) (ht : Turn kind w t act th count) (ha : After w w' t act th count) :
    Lent w' := by
  obtain ⟨hnodup, hactive⟩ := ha.active_iff hl
  have hself : w'.thread t = th.settled := by rw [ha.thread, Function.update_self]
  refine ⟨hactive, hnodup, fun u ho => ?_, fun u x hx => ?_, fun u c d hw => ?_,
    fun u c d st hf => ?_, fun u j hj => ?_⟩ <;> by_cases hu : u = t
  · subst hu
    rw [hself, Thread.settled_frame] at ho
    rw [hself, Thread.settled_uses, if_pos ho]
  · rw [ha.others hu] at ho ⊢
    exact hl.idle u ho
  · subst hu
    rw [hself, Thread.settled_uses] at hx
    rw [ha.count]
    split at hx
    · exact absurd hx List.not_mem_nil
    · exact ht.uses_pos hl hx
  · rw [ha.others hu] at hx
    rw [ha.count]
    exact ht.count_pos hl hx
  · subst hu
    rw [hself, Thread.settled_frame] at hw
    rw [hself, Thread.settled_uses, if_neg (by simp [hw.not_over])]
    exact ht.borrowed hl hw
  · rw [ha.others hu] at hw ⊢
    exact hl.borrowed u c d hw
  · subst hu
    rw [hself, Thread.settled_frame] at hf
    rw [ha.count]
    exact ht.closing hl hf
  · rw [ha.others hu] at hf
    rw [ha.count]
    exact ht.count_zero (hl.closing u c d st hf)
  · subst hu
    rw [hself, Thread.settled_frame] at hj
    rw [hself, Thread.settled_job]
    exact ht.job hl hj
  · rw [ha.others hu] at hj ⊢
    exact hl.job u j hj

omit [DecidableEq Tid] in
theorem Lent.init : Lent (World.init kind : World Tid T) where
  active := fun t => by simp [World.init, Frame.ended]
  nodup := List.nodup_nil
  idle := fun t _ => rfl
  lent := fun t x hx => absurd hx List.not_mem_nil
  borrowed := fun t c d hw => hw.elim
  closing := fun t c d st hf => by cases hf
  job := fun t j hj => by cases hj

theorem Lent.step (hl : Lent w) {l : Label Tid T} (h : w.step kind l = some w') : Lent w' := by
  rcases step_cases h with ⟨t, act, th, count, ht, ha⟩ | ⟨c, d, hpos, rfl⟩ | ⟨now, -, rfl⟩
  · exact hl.after ht ha
  · refine ⟨hl.active, hl.nodup, hl.idle, fun u x hx => ?_, hl.borrowed, fun u c' d' st hf => ?_, hl.job⟩
    · rw [setCount_count]
      split
      · exact Nat.succ_pos _
      · exact hl.lent u x hx
    · have hzero := hl.closing u c' d' st hf
      rw [setCount_count, if_neg]
      · exact hzero
      · rintro ⟨rfl, rfl⟩
        omega
  · exact ⟨hl.active, hl.nodup, hl.idle, hl.lent, hl.borrowed, hl.closing, hl.job⟩

theorem lent_of_reachable (h : (system kind).Reachable w) : Lent w := by
  refine h.invariant ?_ fun _ _ _ _ hl hs => hl.step hs
  rintro _ rfl
  exact Lent.init

end World

end CrossbeamChannel
