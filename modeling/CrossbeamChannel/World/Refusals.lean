import CrossbeamChannel.World.Finality
import CrossbeamChannel.World.Selections

/-!
# Nobody gives up without a reason

An operation returns `Full`, `Empty` or `Timeout`, and a select finds nothing ready, only after a try
of the channel has failed while it ran. At that instant a buffered channel was full, or empty, and at
a zero channel nobody waited on the other side: `World.Unserved`. So every failure has its place in
the history of the channel, between the beginning and the return of the operation: `World.Reasoned`.

`Refused` is the part of the argument that the body carries along: having tried in vain and not having
begun another round. A blocking operation that times out has tried when it began; `run_select` has tried
every handle in the last round of its non-blocking form (`select.rs` 223-229). For a zero channel the
reason is about other threads, as a thread cannot pair with itself (`waker.rs` 88).
-/

namespace CrossbeamChannel

variable {Tid T : Type}

namespace Phase

variable {cap : Option Nat} {v v' : View} {p p' : Phase T} {k : BufferCall T} {r : Option (Answer T)}
  {d : Side}

/-- The call has found that there is nothing to be had on this side. -/
def Refused (d : Side) : Phase T → Prop
  | .refused d' => d' = d
  | .late | .gone => d = .recv
  | _ => False

theorem Drive.refused (h : Drive cap k v p v' p' r) (hp : p'.Refused d) :
    p.Refused d ∨ v.Unavailable cap d := by
  cases h with
  | enter he =>
    unfold Phase.enter at he
    split at he <;> cases he <;> exact hp.elim
  | answer ha => cases p <;> exact hp.elim
  | run hs =>
    cases hs with
    | stay | gone _ => exact .inl hp
    | full hfull =>
      obtain rfl : Side.send = d := hp
      exact .inr hfull
    | empty hempty =>
      obtain rfl : d = .recv := hp
      exact .inr hempty
    | refuse _ => exact .inl (Eq.symm hp)
    | take ht => rcases ht with rfl | rfl <;> exact hp.elim
    | _ => exact hp.elim

/-- A `start` that fails has found it. -/
theorem refused_of_answer {a : Answer T} (h : p.answer (.start d) = some a)
    (ha : (BufferCall.answered (.start d) a : Reply Tid T) = .ret .failed) (hfits : p.Fits (.start d)) :
    p.Refused d := by
  cases p <;> cases h <;> first | exact hfits | cases ha

end Phase

/-- The operation gives up. -/
def Outcome.Fails : Outcome T → Prop
  | .unavailable _ | .timeout _ | .notReady => True
  | _ => False

namespace Frame

variable [DecidableEq Tid] {kind : Nat → Kind T} {t : Tid} {order handles : List Handle}
  {f g : Frame Tid T} {c : Nat} {d : Side} {r : Ret Tid T} {job : Job T} {x : Handle}

/-- The operation has tried this side of the channel in vain. In the non-blocking round of a select that
    is for the handles of this round. -/
def Refused (c : Nat) (d : Side) : Frame Tid T → Prop
  | .plain job _ st => job.chan = c ∧ job.side = d ∧ st ≠ .attempt 0
  | .zero job _ st => job.chan = c ∧ job.side = d ∧ st ≠ .pair
  | .select handles _ (.probe i _) => ∃ x ∈ handles.take i, x.chan = c ∧ x.side = d
  -- Only a select without handles sleeps.
  | .select handles _ (.recheck _ _ _) | .select handles _ (.sleep _) =>
      ∃ x ∈ handles, x.chan = c ∧ x.side = d
  -- Nobody carries such an outcome this far.
  | .finish _ (.wakeOne out) | .finish _ (.setReady _ out) => out.Fails
  | _ => False

/-- With this result the try of this side of the channel has failed. -/
def Denied (f : Frame Tid T) (r : Ret Tid T) (c : Nat) (d : Side) : Prop :=
  (f.call = .start c d ∧ r = .failed) ∨
    ∃ job mode, f = .zero job mode .pair ∧ job.chan = c ∧ job.side = d ∧
      (r = .failed ∨ ∃ p, r = .queued p)

omit [DecidableEq Tid] in
theorem opFrame_not_refused (op : Op T) : ¬ (op.frame kind : Frame Tid T).Refused c d := by
  intro h
  unfold Op.frame nowStart loopStart at h
  repeat' split at h
  all_goals first
    | exact h.elim
    | exact h.2.2 rfl
    | (obtain ⟨x, hx, -⟩ := h; cases hx)

omit [DecidableEq Tid] in
theorem finishWith_not_refused {tk : Token} : ¬ (finishWith kind job tk : Frame Tid T).Refused c d := by
  unfold finishWith
  repeat' split
  all_goals exact id

omit [DecidableEq Tid] in
theorem finishWith_not_fails {tk : Token} {out : Outcome T}
    (h : (finishWith kind job tk : Frame Tid T) = .done out) : ¬ out.Fails := by
  unfold finishWith at h
  repeat' split at h
  all_goals
    cases h
    all_goals exact id

omit [DecidableEq Tid] in
/-- The next handle of a non-blocking round is reached by a failed try. -/
theorem denied_of_probe {timeout : Timeout} {i : Nat} {states : Option (List Nat)}
    (hx : x ∈ handles.take (i + 1)) :
    (Frame.select handles timeout (.probe i states) : Frame Tid T).Refused x.chan x.side ∨
      (Frame.select handles timeout (.probe i states) : Frame Tid T).Denied (.failed) x.chan x.side := by
  rw [List.take_add_one, List.mem_append] at hx
  rcases hx with hx | hx
  · exact .inl ⟨x, hx, rfl, rfl⟩
  · have hi : handles[i]? = some x := Option.mem_toList.mp hx
    exact .inr (.inl ⟨onHandle_eq hi, rfl⟩)

/-- The body of a select over these handles has tried this one in vain: in this round, or it returns. -/
def Vain (handles : List Handle) (x : Handle) (g : Frame Tid T) : Prop :=
  g.Refused x.chan x.side ∨ (g = .done .notReady ∧ x ∈ handles)

omit [DecidableEq Tid] in
theorem not_vain_of_select {order : List Handle} {timeout : Timeout} {st : SelectStage Tid}
    (h : ¬ (Frame.select order timeout st : Frame Tid T).Refused x.chan x.side) :
    ¬ (Frame.select order timeout st : Frame Tid T).Vain handles x := by
  rintro (hg | ⟨hg, -⟩)
  · exact h hg
  · cases hg

omit [DecidableEq Tid] in
theorem not_vain_nextHandle {timeout : Timeout} {i : Nat} {st : Nat → SelectStage Tid}
    {last : Frame Tid T}
    (hst : ¬ (Frame.select handles timeout (st (i + 1)) : Frame Tid T).Refused x.chan x.side)
    (hlast : ¬ last.Vain handles x) : ¬ (nextHandle handles timeout i st last).Vain handles x := by
  unfold nextHandle
  split
  · exact not_vain_of_select hst
  · exact hlast

omit [DecidableEq Tid] in
theorem not_vain_loopStart {timeout : Timeout} :
    ¬ (loopStart handles timeout : Frame Tid T).Vain handles x := by
  unfold loopStart
  split <;> exact not_vain_of_select id

omit [DecidableEq Tid] in
theorem not_vain_roundOver {timeout : Timeout} :
    ¬ (roundOver handles timeout : Frame Tid T).Vain handles x := by
  unfold roundOver
  split
  · rintro (hg | ⟨hg, -⟩)
    · exact hg
    · cases hg
  · exact not_vain_loopStart
  · exact not_vain_of_select id

omit [DecidableEq Tid] in
/-- A non-blocking round begins without having tried anything. -/
theorem not_vain_nowStart : ¬ (nowStart handles : Frame Tid T).Vain handles x := by
  unfold nowStart
  split
  · rintro (hg | ⟨-, hx⟩)
    · exact hg
    · cases hx
  · refine not_vain_of_select ?_
    rintro ⟨y, hy, -⟩
    cases hy
  · exact not_vain_of_select id

omit [DecidableEq Tid] in
theorem not_vain_choose {i : Nat} {tk : Token} (h : choose handles i tk = some g) :
    ¬ g.Vain handles x := by
  obtain ⟨y, -, rfl⟩ := Option.map_eq_some_iff.mp h
  rintro (hg | ⟨hg, -⟩)
  · exact hg
  · cases hg

omit [DecidableEq Tid] in
theorem not_vain_retry {timeout : Timeout} {i : Nat} {st : RetryStage Tid}
    (h : retryResume handles timeout i st r = some g) : ¬ g.Vain handles x := by
  unfold retryResume at h
  split at h
  · exact not_vain_choose h
  · exact not_vain_choose h
  · cases h
    exact not_vain_nextHandle id (not_vain_of_select id)
  · cases h
    exact not_vain_of_select id
  · cases h
    rintro (hg | ⟨hg, -⟩)
    · exact hg
    · cases hg
  · cases h
    exact not_vain_of_select id
  · cases h
    exact not_vain_of_select id
  · cases h
    rintro (hg | ⟨hg, -⟩)
    · exact hg
    · cases hg
  · cases h
    exact not_vain_of_select id
  · exact not_vain_choose h
  · cases h
    exact not_vain_nextHandle id (not_vain_of_select id)
  · cases h

/-- **In vain has a select tried a handle** only in this round, or by this try. -/
theorem refused_of_select {timeout : Timeout} {st : SelectStage Tid}
    (hres : (Frame.select handles timeout st : Frame Tid T).resume kind t order r = some g)
    (hg : g.Vain handles x) :
    (Frame.select handles timeout st : Frame Tid T).Refused x.chan x.side ∨
      (Frame.select handles timeout st : Frame Tid T).Denied r x.chan x.side := by
  simp only [resume] at hres
  unfold selectResume at hres
  split at hres
  · split at hres <;> cases hres
    exact absurd hg (not_vain_of_select id)
  · exact absurd hg (not_vain_choose hres)
  · exact absurd hg (not_vain_choose hres)
  · exact absurd hg (not_vain_choose hres)
  · cases hres
    exact absurd hg (not_vain_nextHandle id (not_vain_of_select id))
  · exact absurd hg (not_vain_retry hres)
  · cases hres
    exact absurd hg (not_vain_of_select id)
  · cases hres
    split at hg <;> exact absurd hg (not_vain_of_select id)
  · cases hres
    exact absurd hg (not_vain_of_select id)
  · cases hres
    split at hg
    · exact absurd hg (not_vain_nextHandle id (not_vain_of_select id))
    · exact absurd hg (not_vain_of_select id)
  · cases hres
    exact absurd hg (not_vain_nextHandle id (not_vain_of_select id))
  · cases hres
    exact absurd hg (not_vain_of_select id)
  · cases hres
    split at hg
    · exact absurd hg (not_vain_of_select id)
    · unfold selectedNow at hg
      repeat' split at hg
      · rcases hg with hg | ⟨hg, -⟩
        · exact hg.elim
        · cases hg
      · exact absurd hg (not_vain_of_select id)
      · exact absurd hg not_vain_roundOver
      · exact absurd hg not_vain_roundOver
  · cases hres
    exact absurd hg not_vain_roundOver
  · cases hres
    split at hg
    · exact absurd hg not_vain_nowStart
    · exact absurd hg not_vain_loopStart
  · split at hres <;> cases hres
    exact absurd hg (not_vain_of_select id)
  · cases hres
    split at hg
    · exact absurd hg (not_vain_of_select id)
    · refine absurd hg (not_vain_of_select ?_)
      rintro ⟨y, hy, -⟩
      cases hy
  · -- A try of a non-blocking round fails.
    rename_i i states
    cases hres
    unfold nextHandle at hg
    split at hg
    · rcases hg with ⟨y, hy, hc, hd⟩ | ⟨hg, -⟩
      · rw [← hc, ← hd]
        exact denied_of_probe hy
      · cases hg
    · rename_i hlast
      have hall : handles.take (i + 1) = handles := List.take_of_length_le (Nat.not_lt.mp hlast)
      have hmem : ∃ y ∈ handles, y.chan = x.chan ∧ y.side = x.side := by
        rcases hg with hg | ⟨-, hx⟩
        · cases states with
          | none => exact hg.elim
          | some states => exact hg
        · exact ⟨x, hx, rfl, rfl⟩
      obtain ⟨y, hy, hc, hd⟩ := hmem
      rw [← hc, ← hd]
      exact denied_of_probe (hall.symm ▸ hy)
  · cases hres
    unfold rechecked at hg
    repeat' split at hg
    · rcases hg with hg | ⟨hg, -⟩
      · exact .inl hg
      · cases hg
    · refine absurd hg (not_vain_of_select ?_)
      rintro ⟨y, hy, -⟩
      cases hy
    · rcases hg with hg | ⟨-, hx⟩
      · exact hg.elim
      · exact .inl ⟨x, hx, rfl, rfl⟩
  · cases hres
    split at hg
    · rcases hg with hg | ⟨-, hx⟩
      · exact hg.elim
      · exact .inl ⟨x, hx, rfl, rfl⟩
    · rcases hg with hg | ⟨hg, -⟩
      · exact .inl hg
      · cases hg
  · cases hres

/-- **A body learns that it is refused from a try that fails.** -/
theorem refused_of_resume (hres : f.resume kind t order r = some g) (hg : g.Refused c d) :
    f.Refused c d ∨ f.Denied r c d := by
  cases f with
  | plain job mode st =>
    simp only [resume] at hres
    unfold plainResume at hres
    split at hres <;> cases hres
    · exact absurd hg finishWith_not_refused
    · unfold plainFailed at hg
      repeat' split at hg
      all_goals first
        | exact hg.elim
        | (obtain ⟨rfl, rfl, -⟩ := hg; exact .inr (.inl ⟨rfl, rfl⟩))
    all_goals
      refine .inl ?_
      unfold plainWaited at *
      repeat' split at hg
      all_goals first
        | exact hg.elim
        | exact absurd rfl hg.2.2
        | exact ⟨hg.1, hg.2.1, by simp⟩
  | zero job mode st =>
    simp only [resume] at hres
    unfold zeroResume at hres
    split at hres <;> cases hres
    · exact absurd hg finishWith_not_refused
    · exact hg.elim
    · obtain ⟨rfl, rfl, -⟩ := hg
      exact .inr (.inr ⟨job, mode, rfl, rfl, rfl, .inr ⟨_, rfl⟩⟩)
    all_goals
      refine .inl ?_
      unfold unselected at *
      repeat' split at hg
      all_goals first
        | exact hg.elim
        | exact ⟨hg.1, hg.2.1, by simp⟩
  | timer c' mode =>
    simp only [resume] at hres
    unfold timerResume at hres
    repeat' split at hres
    all_goals
      cases hres
      all_goals exact hg.elim
  | finish job st =>
    simp only [resume] at hres
    unfold finishResume completed at hres
    repeat' split at hres
    all_goals
      cases hres
      all_goals exact hg.elim
  | close c' d' st =>
    simp only [resume] at hres
    unfold closeResume at hres
    repeat' split at hres
    all_goals
      cases hres
      all_goals exact hg.elim
  | done _ | chosen _ _ | panicked => cases hres
  | select handles timeout st => exact refused_of_select (x := ⟨c, d, 0, 0⟩) hres (.inl hg)

/-- A send or receive that returns so has been refused. -/
theorem refused_of_fails {out : Outcome T} (hres : f.resume kind t order r = some (.done out))
    (hfails : out.Fails) (hserves : f.Serves (some job)) (hf : f.Typed kind)
    (hk : (kind job.chan).Buffered ∨ (kind job.chan).IsZero) :
    f.Refused job.chan job.side ∨ f.Denied r job.chan job.side := by
  cases f with
  | plain job' mode st =>
    cases hserves
    simp only [resume] at hres
    unfold plainResume at hres
    split at hres
    · exact absurd hfails (finishWith_not_fails (Option.some.inj hres))
    · exact .inr (.inl ⟨rfl, rfl⟩)
    all_goals first
      | cases hres
      | (have hres := Option.some.inj hres
         unfold plainWaited at hres
         split at hres <;> cases hres
         done)
      | exact .inl ⟨rfl, rfl, by simp⟩
  | zero job' mode st =>
    cases hserves
    simp only [resume] at hres
    unfold zeroResume at hres
    split at hres
    · exact absurd hfails (finishWith_not_fails (Option.some.inj hres))
    · exact .inr (.inr ⟨job, mode, rfl, rfl, rfl, .inl rfl⟩)
    all_goals first
      | (cases hres; done)
      | exact .inl ⟨rfl, rfl, by simp⟩
  | timer c mode =>
    obtain rfl : job.chan = c := Option.some.inj hserves
    exact absurd hk (not_or.mpr hf)
  | finish job' st =>
    cases hserves
    simp only [resume] at hres
    unfold finishResume completed at hres
    repeat' split at hres
    all_goals
      cases hres
      all_goals first
        | exact hfails.elim
        | exact .inl hfails
  | select _ _ _ | close _ _ _ => cases hserves
  | done _ | chosen _ _ | panicked => cases hres

/-- A select that finds nothing ready has tried all its handles in vain. -/
theorem refused_of_notReady (hres : f.resume kind t order r = some (.done .notReady))
    (hx : ∀ handles timeout st, f = .select handles timeout st → x ∈ handles) :
    f.Refused x.chan x.side ∨ f.Denied r x.chan x.side := by
  cases f with
  | plain job' mode st =>
    simp only [resume] at hres
    unfold plainResume at hres
    split at hres
    · exact absurd trivial (finishWith_not_fails (Option.some.inj hres))
    · have hres := Option.some.inj hres
      unfold plainFailed at hres
      repeat' split at hres
      all_goals cases hres
    all_goals first
      | cases hres
      | (have hres := Option.some.inj hres
         unfold plainWaited at hres
         split at hres <;> cases hres)
  | zero job' mode st =>
    simp only [resume] at hres
    have told : ∀ {sel : Selected Tid} {m : Option T},
        (unselected sel m : Frame Tid T) ≠ .done .notReady := by
      intro sel m h
      unfold unselected at h
      split at h <;> cases h
    unfold zeroResume at hres
    split at hres
    · exact absurd trivial (finishWith_not_fails (Option.some.inj hres))
    all_goals first
      | cases hres
      | exact absurd (Option.some.inj hres) told
      | (have hres := Option.some.inj hres
         split at hres <;> first | exact absurd hres told | cases hres)
  | timer c mode =>
    simp only [resume] at hres
    unfold timerResume at hres
    repeat' split at hres
    all_goals cases hres
  | finish job' st =>
    simp only [resume] at hres
    unfold finishResume completed at hres
    repeat' split at hres
    all_goals
      cases hres
      all_goals exact .inl trivial
  | close c d st =>
    simp only [resume] at hres
    unfold closeResume at hres
    repeat' split at hres
    all_goals cases hres
  | select handles timeout st => exact refused_of_select hres (.inr ⟨rfl, hx handles timeout st rfl⟩)
  | done _ | chosen _ _ | panicked => cases hres

end Frame

namespace World

variable [DecidableEq Tid] {kind : Nat → Kind T} {w w' : World Tid T} {t : Tid} {act : Act Tid T}
  {th : Thread Tid T} {count : Nat → Side → Nat} {c : Nat} {d : Side} {a : Ident Tid}

/-- At this instant the thread cannot but be refused on this side of the channel. -/
structure Unserved (kind : Nat → Kind T) (w : World Tid T) (t : Tid) (c : Nat) (d : Side) : Prop where
  /-- The channel is full, or it is empty. -/
  buffered : (kind c).Buffered → (w.shared.buffer c).view.Unavailable (w.shared.buffer c).cap d
  /-- The channel is connected, and no other thread waits on the other side. -/
  zero : (kind c).IsZero → w.shared.isDisconnected c = false ∧
    ∀ e ∈ (w.shared.reg.waker c d.opposite).entries, e.owner ≠ t →
      (w.shared.reg.cx e.owner).select ≠ .waiting

/-- The operation is running, and has tried this side of the channel in vain. -/
def Refused (kind : Nat → Kind T) (w : World Tid T) (a : Ident Tid) (c : Nat) (d : Side) : Prop :=
  w.Running a ∧ (((kind c).Buffered ∧ ((w.shared.buffer c).phase a.thread).Refused d) ∨
    (w.thread a.thread).frame.Refused c d)

/-- A try of a zero channel that fails, or makes its operation wait. -/
theorem unserved_of_pair (hz : (kind c).IsZero) {call : Call T} {pr : Prog} {spurious : Bool}
    {offer : Option (Packet T)} {r : Ret Tid T} (hpairs : call.Pairs kind c d offer)
    (he : w.shared.exec t kind call pr spurious = some (act, .ret r))
    (hr : r = .failed ∨ ∃ p, r = .queued p) : w.Unserved kind t c d where
  buffered := fun hk => absurd hz hk.not_zero
  zero := by
    intro _
    have hpair := Shared.exec_pairs hpairs he
    unfold Shared.pair at hpair
    split at hpair
    · cases hpair
      rcases hr with hr | ⟨p, hr⟩ <;> cases hr
    · rename_i hnone
      split at hpair
      · cases hpair
        rcases hr with hr | ⟨p, hr⟩ <;> cases hr
      · rename_i hd
        exact ⟨Bool.eq_false_iff.mpr hd, Waker.wakeOne_none.mp hnone⟩

/-- **A try that fails** has been refused by the channel. -/
theorem unserved_of_denied (hs : Sound kind w) (htyped : (w.thread t).frame.Typed kind)
    (hk : (kind c).Buffered ∨ (kind c).IsZero) {spurious : Bool} {r : Ret Tid T}
    (he : w.shared.exec t kind (w.thread t).frame.call (w.thread t).prog spurious = some (act, .ret r))
    (hdenied : (w.thread t).frame.Denied r c d) :
    ((kind c).Buffered ∧ ((w.shared.buffer c).phase t).Refused d) ∨ w.Unserved kind t c d := by
  rcases hdenied with ⟨hcall, rfl⟩ | ⟨job, mode, hf, rfl, rfl, hr⟩
  · rcases hk with hk | hz
    · refine .inl ⟨hk, ?_⟩
      have hc : (w.thread t).frame.call.onBuffer kind (w.thread t).prog = some (c, .start d) := by
        rw [hcall]
        exact hk.starts
      obtain ⟨a, hdrives⟩ := Shared.exec_onBuffer hc he
      obtain ⟨spurious, b, hdrive, -⟩ := hdrives.drive
      cases a with
      | none =>
        obtain ⟨pr, hrep, -⟩ := hdrives.goes rfl
        cases hrep
      | some a =>
        have hanswer := (Buffer.drive_driven (hs.buffer c) hdrive).drive.answered
        exact Phase.refused_of_answer hanswer (hdrives.answers a rfl).symm (hs.fits hc)
    · exact .inr (unserved_of_pair hz (.inr ⟨hz, .inl ⟨hcall, rfl⟩⟩) he (.inl rfl))
  · rw [hf] at he htyped
    exact .inr (unserved_of_pair htyped (.inl rfl) he hr)

/-- A body that goes where only a failed try leads. -/
theorem refused_of_next (hx : Stepped kind w w' t act th count)
    (hk : (kind c).Buffered ∨ (kind c).IsZero)
    (hop : (w.thread t).ops = a.op) (ht : a.thread = t) {g : Frame Tid T} {pr' : Prog}
    (hn : Frame.Next kind w.shared t (w.thread t).frame (w.thread t).prog act g pr')
    (hmore : g = (w.thread t).frame → (w.thread t).frame.Refused c d)
    (hknows : ∀ order r, (w.thread t).frame.resume kind t order r = some g →
      (w.thread t).frame.Refused c d ∨ (w.thread t).frame.Denied r c d) :
    w.Refused kind a c d ∨ (w.Unserved kind a.thread c d ∧ w.Running a) := by
  subst ht
  have hrun : w.Running a := by
    refine ⟨hop, ?_⟩
    cases hended : (w.thread a.thread).frame.ended with
    | false => rfl
    | true => exact absurd hn (not_next_of_ended hended)
  generalize hfr : (w.thread a.thread).frame = f at hn
  cases hn with
  | more he => exact .inl ⟨hrun, .inr (hmore hfr.symm)⟩
  | ret he hres =>
    subst hfr
    rcases hknows _ _ hres with hf | hdenied
    · exact .inl ⟨hrun, .inr hf⟩
    · rcases unserved_of_denied hx.sound hx.typed hk he hdenied with hp | hno
      · exact .inl ⟨hrun, .inl hp⟩
      · exact .inr ⟨hno, hrun⟩

/-- **Who has tried in vain** has done so before, or does it now. -/
theorem Refused.before (h : w'.Refused kind a c d) (hk : (kind c).Buffered ∨ (kind c).IsZero)
    (hx : Stepped kind w w' t act th count) :
    w.Refused kind a c d ∨ (w.Unserved kind a.thread c d ∧ w.Running a) := by
  obtain ⟨⟨hop, hrunning⟩, hknows⟩ := h
  by_cases hu : a.thread = t
  · subst hu
    have still : act = .silent → w'.shared.buffer c = w.shared.buffer c := by
      rintro rfl
      rw [hx.after.shared]
      rfl
    have hturn := hx.turn
    have hops := hx.after.ops
    have hframe := hx.after.frame
    cases hturn with
    | next hn =>
      have hrun : w.Running a := by
        refine ⟨hops.symm.trans hop, ?_⟩
        cases hended : (w.thread a.thread).frame.ended with
        | false => rfl
        | true => exact absurd hn (not_next_of_ended hended)
      -- Either the phase tells of the refusal, or the place of the body does.
      rcases hknows with ⟨hb, hp⟩ | hf
      · rcases drive_next hx c with hsame | ⟨k, r, -, hdrive⟩
        · rw [hsame] at hp
          exact .inl ⟨hrun, .inl ⟨hb, hp⟩⟩
        · rcases hdrive.refused hp with hp | hfull
          · exact .inl ⟨hrun, .inl ⟨hb, hp⟩⟩
          · exact .inr ⟨⟨fun _ => hfull, fun hz => absurd hz hb.not_zero⟩, hrun⟩
      · rw [hframe] at hf
        exact refused_of_next hx hk hrun.1 rfl hn (fun heq => heq ▸ hf) fun order r hres =>
          Frame.refused_of_resume hres hf
    | start hover huses =>
      rcases hknows with ⟨-, hp⟩ | hf
      · rw [still rfl, idle_of_ended hx.sound hover c] at hp
        exact hp.elim
      · rw [hframe] at hf
        exact absurd hf (Frame.opFrame_not_refused _)
    | complete hfr hside =>
      rcases hknows with ⟨-, hp⟩ | hf
      · have hm := hx.sound.phase a.thread c
        rw [hfr] at hm
        rw [still rfl, show (w.shared.buffer c).phase a.thread = _ from hm] at hp
        split at hp
        · rename_i heq
          subst heq
          unfold Token.phase at hp
          repeat' split at hp
          all_goals exact hp.elim
        · exact hp.elim
      · rw [hframe] at hf
        exact absurd hf Frame.finishWith_not_refused
    | drop hover hpos hfree =>
      rcases hknows with ⟨-, hp⟩ | hf
      · rw [still rfl, idle_of_ended hx.sound hover c] at hp
        exact hp.elim
      · rw [hframe] at hf
        dsimp only at hf
        unfold lastDropped at hf
        repeat' split at hf
        all_goals exact hf.elim
  · rw [Running, hx.after.others hu] at *
    rw [hx.after.shared, (hx.turn.kept hx.sound hx.typed).others c _ hu] at hknows
    exact .inl ⟨⟨hop, hrunning⟩, hknows⟩

/-- An operation that returns so has just tried in vain, or does so now. -/
theorem refused_of_over (hx : Stepped kind w w' t act th count)
    (hk : (kind c).Buffered ∨ (kind c).IsZero)
    (ht : a.thread = t) (hop : (w'.thread t).ops = a.op) {out : Outcome T}
    (hdone : (w'.thread t).frame = .done out) (hfails : out.Fails)
    (hnext : (w'.thread t).job = (w.thread t).job → (w'.thread t).ops = (w.thread t).ops →
      ∀ order r, (w.thread t).frame.resume kind t order r = some (.done out) →
        (w.thread t).frame.Refused c d ∨ (w.thread t).frame.Denied r c d)
    (hstart : ∀ op : Op T, (op.frame kind : Frame Tid T) = .done out → (w'.thread t).job = op.job →
      (w'.thread t).ops ≠ (w.thread t).ops + 1) :
    w.Refused kind a c d ∨ (w.Unserved kind a.thread c d ∧ w.Running a) := by
  have hturn := hx.turn
  have hops := hx.after.ops
  rw [hx.after.frame] at hdone
  cases hturn with
  | next hn =>
    dsimp only at hdone hops
    subst hdone
    refine refused_of_next hx hk (hops.symm.trans hop) ht hn (fun heq => ?_) (hnext hx.after.job hops)
    exact absurd (by rw [← heq]; rfl) (call_of_next hn)
  | start hover huses => exact absurd hops (hstart _ hdone hx.after.job)
  | complete hf hside => exact absurd hfails (Frame.finishWith_not_fails hdone)
  | drop hover hpos hfree =>
    exfalso
    dsimp only at hdone
    unfold lastDropped at hdone
    repeat' split at hdone
    all_goals
      cases hdone
      all_goals exact hfails

/-- A select that has returned without a result had returned before, or does so now. -/
theorem vain_step {x y : World Tid T × List (List (Event Tid T))} {l : Label Tid T}
    (hr : (history kind).Reachable x) (hs : (history kind).step x l y) {handles : List Handle}
    (hpicks : .among a handles ∈ y.2.flatten) (hover : .over a .notReady ∈ y.2.flatten) :
    (.among a handles ∈ x.2.flatten ∧ .over a .notReady ∈ x.2.flatten) ∨
      (.among a handles ∈ x.2.flatten ∧ (y.1.thread a.thread).ops = a.op ∧
        (y.1.thread a.thread).frame = .done .notReady ∧
        ∃ act th count, Stepped kind x.1 y.1 a.thread act th count) := by
  obtain ⟨D, hc⟩ := chronicle_of_reachable hr
  rcases hc.page hr.forget hs.1 with ⟨t, act, th, count, D'', ds, ts, hp, hes⟩ | ⟨hno, -⟩
  · rw [flatten_of_step hs, hes] at hpicks hover
    rcases List.mem_append.mp hover with hold | hnew
    · rcases hp.among_cases hpicks with hpicks | ⟨-, -, rfl, -⟩
      · exact .inl ⟨hpicks, hold⟩
      · exact absurd (hp.attested.overs _ _ hold).1 (Nat.not_succ_le_self _)
    · obtain ⟨rfl, hdone⟩ := (hp.tells.overs a _).mp hnew
      rcases hp.among_cases hpicks with hpicks | ⟨-, -, -, -, timeout, st, hf⟩
      · exact .inr ⟨hpicks, rfl, hdone, act, th, count, hp.stepped⟩
      · cases hf.symm.trans hdone
  · rw [flatten_of_step hs, hno, List.append_nil] at hpicks hover
    exact .inl ⟨hpicks, hover⟩

section

variable {x : (history kind : Lib.System (World Tid T × List (List (Event Tid T))) _).Exec} {i j : Nat}

/-- While the operation was running there was an instant at which nothing was to be had for it. -/
def Foiled (x : (history kind : Lib.System (World Tid T × List (List (Event Tid T))) _).Exec) (j : Nat)
    (a : Ident Tid) (c : Nat) (d : Side) : Prop :=
  ∃ i ≤ j, (x.state i).1.Running a ∧ (x.state i).1.Unserved kind a.thread c d

/-- What a running operation has come to know was so at an instant while it was running. -/
theorem known_since {P Q : World Tid T → Prop} (hrunning : ∀ w, Q w → w.Running a)
    (hknown : ∀ {w w' t act th count}, Stepped kind w w' t act th count → Q w' →
      Q w ∨ (P w ∧ w.Running a))
    (hstill : ∀ w count now, Q { w with count, shared.clock := now } → Q w)
    (hj : j ≤ x.len) (h : Q (x.state j).1) :
    ∃ i ≤ j, (x.state i).1.Running a ∧ P (x.state i).1 := by
  have hsince := x.since (I := fun y => y.1.Running a) (P := fun y => P y.1)
    (Q := fun y => Q y.1) ?_ (fun _ _ h => hrunning _ h) ?_ hj h
  · obtain ⟨i, hi, hp, hrun⟩ := hsince
    exact ⟨i, hi, hrun i (Nat.le_refl i) hi, hp⟩
  · rintro ⟨w, h⟩ ⟨hw, -⟩ hq
    subst hw
    cases (hrunning _ hq).2
  · intro y l z hr hs hq
    rcases step_cases hs.1 with ⟨t, act, th, count, ht, ha⟩ | ⟨c', d', -, heq⟩ | ⟨now, -, heq⟩
    · exact hknown ⟨sound_of_reachable hr.forget, sound_of_reachable (hr.step hs).forget,
        aware_of_reachable hr.forget, typed_of_reachable hr.forget t, ht, ha⟩ hq
    · rw [heq] at hq
      exact .inl (hstill _ _ _ hq)
    · rw [heq] at hq
      exact .inl (hstill _ _ _ hq)

/-- **Whoever has tried in vain** had no chance at an instant of this operation. -/
theorem foiled_of_refused (hj : j ≤ x.len) (hk : (kind c).Buffered ∨ (kind c).IsZero)
    (h : (x.state j).1.Refused kind a c d) : Foiled x j a c d :=
  known_since (P := fun w => w.Unserved kind a.thread c d) (Q := fun w => w.Refused kind a c d)
    (fun _ h => h.1) (fun hx h => h.before hk hx) (fun _ _ _ h => h) hj h

theorem Foiled.mono (h : Foiled x i a c d) (hij : i ≤ j) : Foiled x j a c d := by
  obtain ⟨k, hk, hfoiled⟩ := h
  exact ⟨k, hk.trans hij, hfoiled⟩

/-- **Nobody gives up without a reason**, as the history of the run up to this instant tells. -/
structure Reasoned (x : (history kind : Lib.System (World Tid T × List (List (Event Tid T))) _).Exec)
    (j : Nat) : Prop where
  refused : ∀ a job out, .ask a job ∈ (x.state j).2.flatten → .over a out ∈ (x.state j).2.flatten →
    out.Fails → (kind job.chan).Buffered ∨ (kind job.chan).IsZero → Foiled x j a job.chan job.side
  notReady : ∀ a handles y, .among a handles ∈ (x.state j).2.flatten →
    .over a .notReady ∈ (x.state j).2.flatten → y ∈ handles →
      (kind y.chan).Buffered ∨ (kind y.chan).IsZero → Foiled x j a y.chan y.side

theorem failures_have_reasons
    (x : (history kind : Lib.System (World Tid T × List (List (Event Tid T))) _).Exec) {j : Nat}
    (hj : j ≤ x.len) : Reasoned x j := by
  induction j with
  | zero =>
    have hempty : (x.state 0).2 = [] := x.start.2
    constructor
    · intro a job out hask
      rw [hempty] at hask
      cases hask
    · intro a handles y hpicks
      rw [hempty] at hpicks
      cases hpicks
  | succ j ih =>
    have hlt : j < x.len := hj
    have ih := ih hlt.le
    obtain ⟨l, hs⟩ := x.next j hlt
    have hr := x.reachable hlt.le
    -- What has an instant in the run so far has one in the longer run. So only the last step is left.
    have lift : ∀ {a c d}, Foiled x j a c d → Foiled x (j + 1) a c d := fun h => h.mono (Nat.le_succ j)
    have foiled : ∀ {a c d}, (kind c).Buffered ∨ (kind c).IsZero →
        (x.state j).1.Refused kind a c d ∨
            ((x.state j).1.Unserved kind a.thread c d ∧ (x.state j).1.Running a) →
          Foiled x (j + 1) a c d := by
      rintro a c d hk (h | ⟨hno, hrun⟩)
      · exact lift (foiled_of_refused hlt.le hk h)
      · exact ⟨j, Nat.le_succ j, hrun, hno⟩
    constructor
    · intro a job out hask hover hfails hk
      rcases over_step hr hs hask hover with ⟨hask, hover⟩ | ⟨hop, hjob, hdone, act, th, count, hx⟩
      · exact lift (ih.refused a job out hask hover hfails hk)
      · refine foiled hk
          (refused_of_over hx hk rfl hop.symm hdone hfails (fun hsame _ order r hres => ?_) ?_)
        · have hserves := serves_of_reachable hr.forget a.thread
          rw [← hsame, hjob] at hserves
          exact Frame.refused_of_fails hres hfails hserves hx.typed hk
        · intro op hframe hjob'
          cases op with
          | plain job' mode =>
            simp only [Op.frame] at hframe
            split at hframe <;> cases hframe
          | select handles timeout => cases hjob.symm.trans hjob'
    · intro a handles y hpicks hover hy hk
      rcases vain_step hr hs hpicks hover with ⟨hpicks, hover⟩ | ⟨hpicks, hop, hdone, act, th, count, hx⟩
      · exact lift (ih.notReady a handles y hpicks hover hy hk)
      · have hcm := committed_of_reachable hr
        refine foiled hk (refused_of_over hx hk rfl hop hdone trivial (fun _ hsame order r hres => ?_) ?_)
        · refine Frame.refused_of_notReady hres fun handles' timeout st hf => ?_
          obtain ⟨handles'', hpicks', hperm⟩ := hcm.pool a.thread handles' timeout st hf
          have hident : (x.state j).1.ident a.thread = a := by
            rw [ident, ← hsame, hop]
          rw [hident] at hpicks'
          obtain rfl := hcm.sole a _ _ hpicks hpicks'
          exact hperm.mem_iff.mpr hy
        · intro op _ _ hnew
          have hle := hcm.begun a handles hpicks
          omega

end

/-- It returns with nothing. -/
def Event.fails : Event Tid T → Option (Ident Tid)
  | .over a (.unavailable _) | .over a (.timeout _) | .over a .notReady => some a
  | _ => none

/-- An unbounded channel and a zero channel. -/
def twoKinds : Nat → Kind Nat
  | 0 => .list
  | _ => .zero

/-- Thread 0 finds nobody to send 7 to, thread 1 finds nothing ready on either channel. -/
def inVain : List (Label Nat Nat) :=
  .start 0 (.plain ⟨1, some 7⟩ .nonblocking) :: .run 0 false [] ::
    .start 1 (.select [⟨0, .recv, 0, 0⟩, ⟨1, .recv, 1, 0⟩] .now) ::
      .run 1 false [⟨0, .recv, 0, 0⟩, ⟨1, .recv, 1, 0⟩] :: List.replicate 12 (.run 1 false [])

theorem failures_have_reasons_inVain :
    ∃ x : (history twoKinds : Lib.System (World Nat Nat × List (List (Event Nat Nat))) _).Exec,
      Reasoned x 16 ∧ (x.state 16).2.flatten.filterMap Event.fails = [⟨0, 1⟩, ⟨1, 1⟩] := by
  let x : (history twoKinds : Lib.System (World Nat Nat × List (List (Event Nat Nat))) _).Exec :=
    Lib.System.Exec.ofReplay (fun _ _ _ h => Lib.System.recorded_step (fun _ _ _ hs => hs) h)
      (World.init _, []) ⟨rfl, rfl⟩ inVain (by decide +kernel)
  have hlen : 16 ≤ x.len := by decide +kernel
  exact ⟨x, failures_have_reasons x hlen, by decide +kernel⟩

end World

end CrossbeamChannel
