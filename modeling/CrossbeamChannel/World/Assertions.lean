import CrossbeamChannel.World.Endless
import CrossbeamChannel.World.Tokens
import CrossbeamChannel.SyncWaker

/-!
# The internal assertions

The bodies unwrap what `unregister` returns and what they take out of a packet, and call
`unreachable!` where `wait_until` and `try_select` leave no such case. A thread that would fail one
of these is at `Frame.panicked`; no thread ever comes there: `World.never_panics`.

`Fails` lists the places: `unregister(oper).unwrap()` (`array.rs` 403 and 462, `list.rs` 433, `zero.rs`
153, 164, 230, 238, 336, 341, 406 and 410), `replace(None).unwrap()` (`zero.rs` 269, 276, 337, 342 and
416), `Selected::Waiting => unreachable!()` in all blocking phases and in `run_select`, `Timeout::Now`
there, and `assert!(self.start_send(token))` of the list flavor (`list.rs` 379-385). Each is ruled out by
what an invariant of an earlier module says of the place, so the proof is one case for each.
-/

namespace CrossbeamChannel

variable {Tid T : Type} [DecidableEq Tid]

namespace Frame

variable {kind : Nat → Kind T} {f g : Frame Tid T} {pr pr' : Prog} {t : Tid} {order : List Handle}
  {r : Ret Tid T}

/-! ## Where an assertion can fail -/

/-- A select that must not block does not. -/
def Prompt : Frame Tid T → Prop
  | .select _ .now .shuffleNow | .select _ .now (.snapshot _) | .select _ .now (.probe _ _)
  | .select _ .now (.recheck _ _ _) => True
  | .select _ .now _ => False
  | _ => True

omit [DecidableEq Tid] in
theorem nowStart_prompt (handles : List Handle) : (nowStart handles : Frame Tid T).Prompt := by
  unfold nowStart
  split <;> trivial

omit [DecidableEq Tid] in
theorem select_prompt {handles : List Handle} {timeout : Timeout} (h : timeout ≠ .now)
    (st : SelectStage Tid) : (select handles timeout st : Frame Tid T).Prompt := by
  cases timeout with
  | now => exact absurd rfl h
  | never | «at» when => trivial

omit [DecidableEq Tid] in
theorem choose_prompt {handles : List Handle} {i : Nat} {tk : Token}
    (h : choose handles i tk = some g) : g.Prompt := by
  obtain ⟨x, -, rfl⟩ := Option.map_eq_some_iff.mp h
  trivial

omit [DecidableEq Tid] in
theorem nextHandle_prompt {handles : List Handle} {timeout : Timeout} {i : Nat}
    {st : Nat → SelectStage Tid} {last : Frame Tid T}
    (hst : ∀ j, (select handles timeout (st j) : Frame Tid T).Prompt) (hl : last.Prompt) :
    (nextHandle handles timeout i st last).Prompt := by
  unfold nextHandle
  split
  · exact hst _
  · exact hl

theorem prompt_of_resume (hr : f.resume kind t order r = some g) (hf : f.Prompt) : g.Prompt := by
  cases f with
  | select handles timeout st =>
    by_cases hnow : timeout = .now
    · subst hnow
      simp only [resume] at hr
      cases st with
      | shuffleNow =>
        cases r <;> simp only [selectResume] at hr <;> try contradiction
        split at hr <;> cases hr
        trivial
      | snapshot states =>
        cases r <;> cases hr
        split <;> trivial
      | probe i states =>
        cases r <;> simp only [selectResume] at hr <;> try contradiction
        · exact choose_prompt hr
        · cases hr
          refine nextHandle_prompt (fun _ => trivial) ?_
          unfold probed
          split <;> trivial
      | recheck states current changed =>
        cases r <;> cases hr
        unfold rechecked
        repeat' split
        all_goals trivial
      | _ => exact hf.elim
    · have stays := fun hs st => @select_prompt Tid T hs timeout hnow st
      have ends : (roundOver handles timeout : Frame Tid T).Prompt := by
        unfold roundOver loopStart
        split <;> first | contradiction | trivial
      simp only [resume] at hr
      unfold selectResume at hr
      split at hr
      · split at hr <;> cases hr
        exact stays _ _
      · exact choose_prompt hr
      · exact choose_prompt hr
      · exact choose_prompt hr
      · cases hr
        exact nextHandle_prompt (fun _ => stays _ _) (stays _ _)
      · unfold retryResume at hr
        split at hr
        all_goals first
          | exact choose_prompt hr
          | contradiction
          | (cases hr
             first
               | exact stays _ _
               | exact nextHandle_prompt (fun _ => stays _ _) (stays _ _)
               | trivial)
      · cases hr
        exact stays _ _
      · cases hr
        split <;> exact stays _ _
      · cases hr
        exact stays _ _
      · cases hr
        split
        · exact nextHandle_prompt (fun _ => stays _ _) (stays _ _)
        · exact stays _ _
      · cases hr
        exact nextHandle_prompt (fun _ => stays _ _) (stays _ _)
      · cases hr
        exact stays _ _
      · cases hr
        split
        · exact stays _ _
        · unfold selectedNow
          repeat' split
          all_goals first | trivial | exact stays _ _
      · cases hr
        exact ends
      · cases hr
        split
        · exact nowStart_prompt _
        · exact stays _ _
      · split at hr <;> cases hr
        exact stays _ _
      · cases hr
        split <;> exact stays _ _
      · cases hr
        refine nextHandle_prompt (fun _ => stays _ _) ?_
        unfold probed
        split
        · trivial
        · exact stays _ _
      · cases hr
        unfold rechecked
        repeat' split
        all_goals first | trivial | exact stays _ _
      · cases hr
        split
        · trivial
        · exact stays _ _
      · cases hr
  | _ =>
    have hstays := resume_stays hr
    cases hstays <;> trivial

/-- At this place the body unwraps what `unregister` returns for this registration. -/
def Withdraws : Frame Tid T → Place → Prop
  | .plain job _ .unregister, x | .zero job _ (.withdraw _ _), x => x = ⟨job.chan, job.side, 0⟩
  | .select handles _ (.again i (.withdraw _ _)), x =>
      ∃ h, handles[i]? = some h ∧ x = ⟨h.chan, h.side, 0⟩
  | _, _ => False

/-- The places of the assertions, with the results they rule out. -/
inductive Fails (kind : Nat → Kind T) : Frame Tid T → Ret Tid T → Prop where
  /-- A list sender has not been given a slot. -/
  | refused {job : Job T} {mode : Mode} {n : Nat} (hk : kind job.chan = .list)
      (hside : job.side = .send) : Fails kind (.plain job mode (.attempt n)) .failed
  | waiting {f : Frame Tid T} (hf : (∃ job mode, f = .plain job mode .wait) ∨
      (∃ job mode p, f = .zero job mode (.wait p)) ∨
      ∃ handles timeout i p, f = .select handles timeout (.again i (.pause p))) :
      Fails kind f (.selected .waiting)
  | missing {f : Frame Tid T} (hf : (∃ job mode, f = .plain job mode .unregister) ∨
      (∃ job mode p sel, f = .zero job mode (.withdraw p sel)) ∨
      ∃ handles timeout i p sel, f = .select handles timeout (.again i (.withdraw p sel))) :
      Fails kind f (.removed none)
  | absent {f : Frame Tid T} (hf : (∃ job mode p sel, f = .zero job mode (.recover p sel)) ∨
      (∃ job mode p, f = .zero job mode (.takeMsg p)) ∨
      ∃ job p onStack, f = .finish job (.takeMsg p onStack)) :
      Fails kind f (.msg none)
  | unselected {handles : List Handle} {timeout : Timeout} {i count : Nat} {e : Option (Entry Tid)} :
      Fails kind (.select handles timeout (.unregister i count .waiting)) (.removed e)
  /-- A select that must not block has blocked. -/
  | blocked {f : Frame Tid T} {r : Ret Tid T} (hf : ¬ f.Prompt) : Fails kind f r

omit [DecidableEq Tid] in
theorem choose_ne_panicked {handles : List Handle} {i : Nat} {tk : Token} :
    (choose handles i tk : Option (Frame Tid T)) ≠ some .panicked := by
  intro h
  obtain ⟨x, -, hx⟩ := Option.map_eq_some_iff.mp h
  cases hx

omit [DecidableEq Tid] in
theorem nextHandle_ne_panicked {handles : List Handle} {timeout : Timeout} {i : Nat}
    {st : Nat → SelectStage Tid} {last : Frame Tid T} (hl : last ≠ .panicked) :
    nextHandle handles timeout i st last ≠ .panicked := by
  unfold nextHandle
  split
  · simp
  · exact hl

omit [DecidableEq Tid] in
theorem roundOver_ne_panicked {handles : List Handle} {timeout : Timeout} (h : timeout ≠ .now) :
    (roundOver handles timeout : Frame Tid T) ≠ .panicked := by
  cases timeout with
  | now => exact absurd rfl h
  | never | «at» when => simp [roundOver, loopStart]

/-- **An assertion fails only there.** -/
theorem fails_of_resume (hr : f.resume kind t order r = some .panicked) : f.Fails kind r := by
  cases f with
  | plain job mode st =>
    simp only [resume] at hr
    unfold plainResume plainFailed plainWaited finishWith at hr
    repeat' split at hr
    all_goals first
      | exact .refused ‹_› ‹_›
      | exact .waiting (.inl ⟨_, _, rfl⟩)
      | exact .missing (.inl ⟨_, _, rfl⟩)
      | cases hr
  | zero job mode st =>
    simp only [resume] at hr
    unfold zeroResume unselected finishWith at hr
    repeat' split at hr
    all_goals first
      | exact .waiting (.inr (.inl ⟨_, _, _, rfl⟩))
      | exact .missing (.inr (.inl ⟨_, _, _, _, rfl⟩))
      | exact .absent (.inl ⟨_, _, _, _, rfl⟩)
      | exact .absent (.inr (.inl ⟨_, _, _, rfl⟩))
      | cases hr
  | finish job st =>
    simp only [resume] at hr
    unfold finishResume completed at hr
    repeat' split at hr
    all_goals first
      | exact .absent (.inr (.inr ⟨_, _, _, rfl⟩))
      | cases hr
  | timer c mode =>
    simp only [resume] at hr
    unfold timerResume at hr
    repeat' split at hr
    all_goals cases hr
  | close c d st =>
    simp only [resume] at hr
    unfold closeResume at hr
    repeat' split at hr
    all_goals cases hr
  | select handles timeout st =>
    simp only [resume] at hr
    by_cases hf : (select handles timeout st : Frame Tid T).Prompt
    · have ends : ∀ {st'}, st = st' → ¬ (select handles .now st' : Frame Tid T).Prompt →
          (roundOver handles timeout : Frame Tid T) ≠ .panicked := by
        rintro st' rfl hno
        refine roundOver_ne_panicked ?_
        rintro rfl
        exact hno hf
      unfold selectResume at hr
      split at hr
      · split at hr <;> cases hr
      · exact absurd hr choose_ne_panicked
      · exact absurd hr choose_ne_panicked
      · exact absurd hr choose_ne_panicked
      · exact absurd (Option.some.inj hr) (nextHandle_ne_panicked (by simp))
      · unfold retryResume at hr
        split at hr
        all_goals first
          | exact absurd hr choose_ne_panicked
          | exact .waiting (.inr (.inr ⟨_, _, _, _, rfl⟩))
          | exact .missing (.inr (.inr ⟨_, _, _, _, _, rfl⟩))
          | exact absurd (Option.some.inj hr) (nextHandle_ne_panicked (by simp))
          | cases hr
      · cases hr
      · split at hr <;> cases hr
      · cases hr
      · split at hr
        · exact absurd (Option.some.inj hr) (nextHandle_ne_panicked (by simp))
        · cases hr
      · exact absurd (Option.some.inj hr) (nextHandle_ne_panicked (by simp))
      · cases hr
      · split at hr
        · cases hr
        · have hsel := Option.some.inj hr
          unfold selectedNow at hsel
          split at hsel
          · exact .unselected
          · split at hsel
            · cases hsel
            · exact absurd hsel (ends rfl id)
          · exact absurd hsel (ends rfl id)
      · exact absurd (Option.some.inj hr) (ends rfl id)
      · split at hr
        · have hnow := Option.some.inj hr
          unfold nowStart at hnow
          split at hnow <;> cases hnow
        · cases hr
      · split at hr <;> cases hr
      · split at hr <;> cases hr
      · refine absurd (Option.some.inj hr) (nextHandle_ne_panicked ?_)
        unfold probed
        split <;> simp
      · have hre := Option.some.inj hr
        unfold rechecked at hre
        repeat' split at hre
        all_goals cases hre
      · split at hr <;> cases hr
      · cases hr
    · exact .blocked hf
  | _ => cases hr

end Frame

namespace Frame

variable {kind : Nat → Kind T} {f g : Frame Tid T} {pr pr' : Prog} {t : Tid}

/-- An operation of a buffered channel waits in a queue of its channel. -/
def Waits (kind : Nat → Kind T) : Frame Tid T → Prop
  | .plain _ _ (.attempt _) => True
  | .plain job _ _ => (kind job.chan).Queues job.side
  | _ => True

omit [DecidableEq Tid] in
/-- Only a list sender never waits. -/
theorem queues_of_buffered {k : Kind T} {d : Side} (hk : k.Buffered) (h : k = .list → d ≠ .send) :
    k.Queues d := by
  cases k with
  | array => trivial
  | list =>
    cases d with
    | send => exact absurd rfl (h rfl)
    | recv => rfl
  | _ => exact hk.elim

theorem Next.waits {w : Shared Tid T} {act : Act Tid T} (hn : Next kind w t f pr act g pr')
    (hf : f.Typed kind) (hw : f.Waits kind) : g.Waits kind := by
  cases hn with
  | more he => exact hw
  | ret he hr =>
    cases f with
    | plain job mode st =>
      simp only [resume] at hr
      cases st with
      | attempt n =>
        rename_i r
        cases r with
        | token tk =>
          cases hr
          rcases finishWith_cases kind job tk with ⟨st, h⟩ | ⟨out, h⟩ <;> rw [h] <;> trivial
        | failed =>
          have hq : ¬ (kind job.chan = .list ∧ job.side = .send) → (kind job.chan).Queues job.side :=
            fun hno => queues_of_buffered hf fun hk hd => hno ⟨hk, hd⟩
          simp only [plainResume, plainFailed] at hr
          split at hr
          · cases hr
            trivial
          · cases hr
            trivial
          · rename_i hno
            split at hr <;> cases hr
            · trivial
            · exact hq fun h => hno h.1 h.2
        | _ => cases hr
      | _ =>
        have hstays := plainResume_stays hr
        cases hstays with
        | plain =>
          rename_i st'
          cases st' <;> trivial
        | _ => trivial
    | _ =>
      have hstays := resume_stays hr
      cases hstays <;> trivial

end Frame

namespace World

variable {kind : Nat → Kind T} {w w' : World Tid T} {t : Tid}

omit [DecidableEq Tid] in
theorem opFrame_orderly (op : Op T) :
    (op.frame kind : Frame Tid T).Prompt ∧ (op.frame kind : Frame Tid T).Waits kind := by
  cases op with
  | plain job mode =>
    simp only [Op.frame]
    split <;> exact ⟨trivial, trivial⟩
  | select handles timeout =>
    have waits : ∀ st, (Frame.select handles timeout st : Frame Tid T).Waits kind := fun _ => trivial
    cases timeout with
    | now =>
      cases handles with
      | nil => exact ⟨trivial, trivial⟩
      | cons x xs =>
        refine ⟨Frame.nowStart_prompt _, ?_⟩
        simp only [Op.frame, Frame.nowStart]
        split <;> trivial
    | never | «at» when => cases handles <;> exact ⟨trivial, trivial⟩

/-- Every operation is at a place where it may be. -/
theorem orderly_of_reachable (h : (system kind).Reachable w) :
    ∀ t, (w.thread t).frame.Prompt ∧ (w.thread t).frame.Waits kind := by
  refine h.invariant (P := fun w => ∀ t, (w.thread t).frame.Prompt ∧ (w.thread t).frame.Waits kind)
    ?_ fun w l w' hr ih hs => ?_
  · rintro _ rfl t
    exact ⟨trivial, trivial⟩
  · rcases step_cases hs with ⟨t, act, th, count, ht, ha⟩ | ⟨c, d, -, rfl⟩ | ⟨now, -, rfl⟩
    · intro u
      by_cases hu : u = t
      · subst hu
        rw [ha.frame]
        cases ht with
        | next hn =>
          refine ⟨?_, hn.waits (typed_of_reachable hr u) (ih u).2⟩
          cases hn with
          | more he => exact (ih u).1
          | ret he hr => exact Frame.prompt_of_resume hr (ih u).1
        | start hover huses => exact opFrame_orderly _
        | complete hframe hside =>
          rcases Frame.finishWith_cases kind ⟨_, _⟩ _ with ⟨st, h⟩ | ⟨out, h⟩ <;> rw [h] <;>
            exact ⟨trivial, trivial⟩
        | drop hover hpos hfree =>
          unfold lastDropped
          repeat' split
          all_goals exact ⟨trivial, trivial⟩
      · rw [ha.others hu]
        exact ih u
    · exact ih
    · exact ih

omit [DecidableEq Tid] in
/-- A channel without a capacity is never full. -/
theorem unrefused {k : BufferCall T} {v v' : View} {p p' : Phase T} {r : Option (Answer T)}
    (hd : Phase.Drive none k v p v' p' r) (hp : p ≠ .refused .send) : p' ≠ .refused .send := by
  cases hd with
  | enter he =>
    unfold Phase.enter at he
    split at he <;> cases he <;> simp
  | run hs =>
    cases hs with
    | stay => exact hp
    | take hp' => rcases hp' with rfl | rfl <;> simp
    | full hfull =>
      obtain ⟨n, hn, -⟩ := hfull
      cases hn
    | _ => simp
  | answer ha =>
    unfold Phase.leave
    split <;> simp

/-- A list sender is never refused. -/
theorem never_refused (h : (system kind).Reachable w) {c : Nat} (hk : kind c = .list) (t : Tid) :
    (w.shared.buffer c).phase t ≠ .refused .send := by
  suffices h : (w.shared.buffer c).cap = none ∧ ∀ t, (w.shared.buffer c).phase t ≠ .refused .send from
    h.2 t
  refine h.invariant (P := fun w => (w.shared.buffer c).cap = none ∧
    ∀ t, (w.shared.buffer c).phase t ≠ .refused .send) ?_ fun w l w' hr ih hs => ?_
  · rintro _ rfl
    have hinit : (World.init kind : World Tid T).shared.buffer c = .list .init := by
      simp only [World.init, Shared.init, hk, Buffer.init]
    rw [hinit]
    exact ⟨rfl, fun t h => by cases h⟩
  · rcases step_cases hs with ⟨t, act, th, count, ht, ha⟩ | ⟨c', d', -, rfl⟩ | ⟨now, -, rfl⟩
    · have hkept := ht.kept (sound_of_reachable hr) (typed_of_reachable hr t)
      rw [ha.shared]
      refine ⟨(hkept.cap c).trans ih.1, fun u => ?_⟩
      by_cases hu : u = t
      · subst hu
        cases ht with
        | next hn =>
          rcases hn.driven (sound_of_reachable hr).buffer c with hsame | ⟨k, r, -, hdrive, -⟩
          · rw [hsame]
            exact ih.2 u
          · rw [ih.1] at hdrive
            exact unrefused hdrive (ih.2 u)
        | start _ _ | complete _ _ | drop _ _ _ => exact ih.2 u
      · rw [hkept.others c u hu]
        exact ih.2 u
    · exact ih
    · exact ih

/-- **A list sender gets a slot** whenever it asks for one. -/
theorem not_failed (hr : (system kind).Reachable w) {c : Nat} (hk : kind c = .list)
    (hcall : (w.thread t).frame.call = .start c .send) {spurious : Bool} {act : Act Tid T} :
    w.shared.exec t kind (w.thread t).frame.call (w.thread t).prog spurious ≠
      some (act, .ret .failed) := by
  intro he
  have hs := sound_of_reachable hr
  have hon : (w.thread t).frame.call.onBuffer kind (w.thread t).prog = some (c, .start .send) := by
    rw [hcall]
    simp only [Call.onBuffer, hk, Kind.starts]
  obtain ⟨a, hdr⟩ := Shared.exec_onBuffer hon he
  obtain ⟨spurious', b, hdrive, -⟩ := hdr.drive
  have hfits := hs.fits hon
  have hnever := never_refused hr hk t
  cases a with
  | none =>
    obtain ⟨pr, hrep, -⟩ := hdr.goes rfl
    cases hrep
  | some a =>
    have hrep := hdr.answers a rfl
    have hanswer := (Buffer.drive_driven (hs.buffer c) hdrive).drive.answered
    generalize (w.shared.buffer c).phase t = p at hfits hnever hanswer
    cases p with
    | refused d =>
      obtain rfl : d = .send := hfits
      exact hnever rfl
    | granted d | null d =>
      cases hanswer
      cases hrep
    | _ => cases hanswer

/-- **Who is about to unwrap what `unregister` returns finds its entry**, and does not take the
    shortcut around the mutex. -/
theorem found_of_withdraws (hr : (system kind).Reachable w) {x : Place}
    (hf : (w.thread t).frame.Withdraws x) :
    (∃ e, (w.shared.reg.unregister x.chan x.side ⟨t, x.slot⟩).1 = some e) ∧
      w.shared.reg.len x.chan x.side ≠ 0 := by
  have hs := sound_of_reachable hr
  have haware := aware_of_reachable hr
  have horderly := orderly_of_reachable hr t
  have hknows := haware.knows t
  have hrelies := haware.relies t
  obtain ⟨hleft, hsel⟩ : (stakes kind w t).left x ∧
      ∀ op, (w.shared.reg.cx t).select ≠ .operation op := by
    rw [stakes]
    generalize hfr : (w.thread t).frame = f at hf horderly hknows hrelies
    unfold Frame.Withdraws at hf
    split at hf
    · subst hf
      exact ⟨⟨horderly.2, rfl⟩, hrelies.2⟩
    · subst hf
      exact ⟨rfl, hknows.2.2⟩
    · obtain ⟨y, hy, rfl⟩ := hf
      exact ⟨⟨y, hy, rfl⟩, hknows.2.2⟩
    · exact hf.elim
  obtain ⟨e, he, hoper⟩ := hs.books.present t x hleft (hsel _)
  refine ⟨Option.isSome_iff_exists.mp (List.find?_isSome.mpr ⟨e, he, by simpa using hoper⟩), ?_⟩
  rw [hs.books.len, Ne, List.length_eq_zero_iff]
  exact List.ne_nil_of_mem he

omit [DecidableEq Tid] in
theorem unregister_queued [DecidableEq Tid] {w : Shared Tid T} {c slot : Nat} {d : Side} {pr : Prog}
    (hk : (kind c).Buffered) (hq : (kind c).Queues d) :
    w.unregister t kind c d slot pr = w.unregisterSync t c d slot pr := by
  unfold Shared.unregister
  cases hc : kind c <;> rw [hc] at hk hq <;> first | rfl | exact hk.elim | skip
  cases d with
  | send => cases hq
  | recv => rfl

omit [DecidableEq Tid] in
/-- Whoever takes a message out of a packet finds one. -/
theorem full_of_grip {D : Ledger Tid T} (h : Accounts kind w D) {p : Nat}
    (hf : (∃ job mode sel, (w.thread t).frame = .zero job mode (.recover p sel)) ∨
      (∃ job mode, (w.thread t).frame = .zero job mode (.takeMsg p)) ∨
      ∃ job onStack, (w.thread t).frame = .finish job (.takeMsg p onStack)) :
    (w.shared.packet p).msg ≠ none := by
  have hgrip := h.grip t
  obtain ⟨x, y, hdeal, hnext⟩ : ∃ x y, D p = some x ∧ x.next .take = some y := by
    rcases hf with ⟨job, mode, sel, hf⟩ | ⟨job, mode, hf⟩ | ⟨job, onStack, hf⟩ <;> rw [hf] at hgrip
    · obtain ⟨x, hdeal, -, -, hpre, hst⟩ := hgrip
      exact ⟨x, _, hdeal, by simp [Lib.Deal.next, hst, hpre]; rfl⟩
    · obtain ⟨x, hdeal, -, -, -, -, hst⟩ := hgrip
      exact ⟨x, _, hdeal, by simp [Lib.Deal.next, hst]; rfl⟩
    · obtain ⟨x, -, hdeal, -, -, -, -, -, hst⟩ := hgrip
      exact ⟨x, _, hdeal, by simp [Lib.Deal.next, hst]; rfl⟩
  have hfull := ((h.shows p x hdeal).fits.full hnext).2
  intro hno
  rw [hno] at hfull
  cases hfull

/-- **No call returns what its caller does not expect.** -/
theorem not_fails (hr : (system kind).Reachable w) {spurious : Bool} {act : Act Tid T} {r : Ret Tid T}
    (he : w.shared.exec t kind (w.thread t).frame.call (w.thread t).prog spurious =
      some (act, .ret r)) : ¬ (w.thread t).frame.Fails kind r := by
  have hs := sound_of_reachable hr
  have haware := aware_of_reachable hr
  have htyped := typed_of_reachable hr t
  obtain ⟨D, hD⟩ := accounts_of_reachable hr
  have horderly := orderly_of_reachable hr t
  intro hfails
  generalize hf : (w.thread t).frame = f at hfails he htyped horderly
  cases hfails with
  | refused hk hside =>
    rename_i job mode n
    refine not_failed hr hk (t := t) ?_ (hf.symm ▸ he)
    rw [hf]
    exact congrArg (Call.start job.chan) hside
  | waiting hplace =>
    rcases hplace with ⟨job, mode, rfl⟩ | ⟨job, mode, p, rfl⟩ | ⟨handles, timeout, i, p, rfl⟩
    · exact (Shared.waitUntil_selected he).2 rfl
    · exact (Shared.waitUntil_selected he).2 rfl
    · exact (Shared.abort_selected (Option.some.inj he)).2 rfl
  | missing hplace =>
    -- The books have the entry: it was registered in this scope, and nobody has selected it.
    have withdraws : ∀ {c d}, (w.thread t).frame.Withdraws ⟨c, d, 0⟩ →
        w.shared.exec t kind (.withdraw c d) (w.thread t).prog spurious ≠
          some (act, .ret (.removed none)) := by
      intro c d hf he
      obtain ⟨⟨e, hfound⟩, -⟩ := found_of_withdraws hr hf
      obtain ⟨-, hrep⟩ := Prod.mk.inj (Option.some.inj he)
      rw [hfound] at hrep
      cases hrep
    rcases hplace with ⟨job, mode, rfl⟩ | ⟨job, mode, p, sel, rfl⟩ | ⟨handles, timeout, i, p, sel, rfl⟩
    · obtain ⟨⟨e, hfound⟩, hlen⟩ := found_of_withdraws hr
        (x := ⟨job.chan, job.side, 0⟩) (by rw [hf]; rfl)
      change some (w.shared.unregister t kind job.chan job.side 0 (w.thread t).prog) = _ at he
      rw [unregister_queued htyped horderly.2] at he
      unfold Shared.unregisterSync at he
      split at he
      · obtain ⟨-, hrep⟩ := Prod.mk.inj (Option.some.inj he)
        rw [hfound] at hrep
        cases hrep
      · obtain ⟨-, hrep⟩ := Prod.mk.inj (Option.some.inj he)
        rw [if_neg hlen] at hrep
        cases hrep
    · exact withdraws (by rw [hf]; rfl) he
    · obtain ⟨x, hxi, hexec⟩ := Frame.onHandle_exec he
      exact withdraws (by rw [hf]; exact ⟨x, hxi, rfl⟩) hexec
  | absent hplace =>
    -- The deal about the packet has the message in it at these places.
    have takes : ∀ {p}, (w.shared.packet p).msg ≠ none →
        w.shared.exec t kind (.takeMsg p) (w.thread t).prog spurious ≠ some (act, .ret (.msg none)) := by
      intro p hmsg he
      obtain ⟨-, hrep⟩ := Prod.mk.inj (Option.some.inj he)
      exact hmsg (Ret.msg.inj (Reply.ret.inj hrep))
    rcases hplace with ⟨job, mode, p, sel, rfl⟩ | ⟨job, mode, p, rfl⟩ | ⟨job, p, onStack, rfl⟩
    · exact takes (full_of_grip hD (.inl ⟨job, mode, sel, hf⟩)) he
    · exact takes (full_of_grip hD (.inr (.inl ⟨job, mode, hf⟩))) he
    · exact takes (full_of_grip hD (.inr (.inr ⟨job, onStack, hf⟩))) he
  | unselected =>
    have hknows := haware.knows t
    rw [hf] at hknows
    exact hknows.2 hknows.1
  | blocked hno => exact hno horderly.1

/-- **No assertion of a body ever fails.** -/
theorem never_panics (h : (system kind).Reachable w) (t : Tid) : (w.thread t).frame ≠ .panicked := by
  refine h.invariant (P := fun w => ∀ t, (w.thread t).frame ≠ .panicked) ?_
    (fun w l w' hr ih hs => ?_) t
  · rintro _ rfl t hf
    cases hf
  · rcases step_cases hs with ⟨t, act, th, count, ht, ha⟩ | ⟨c, d, -, rfl⟩ | ⟨now, -, rfl⟩
    · intro u
      by_cases hu : u = t
      · subst hu
        rw [ha.frame]
        cases ht with
        | next hn =>
          cases hn with
          | more he => exact ih u
          | ret he hres => exact fun hf => not_fails hr he (Frame.fails_of_resume (hres.trans (congrArg some hf)))
        | start hover huses =>
          unfold Op.frame Frame.nowStart Frame.loopStart
          repeat' split
          all_goals exact fun hf => by cases hf
        | complete hframe hside =>
          rcases Frame.finishWith_cases kind ⟨_, _⟩ _ with ⟨st, h⟩ | ⟨out, h⟩ <;> rw [h] <;>
            exact fun hf => by cases hf
        | drop hover hpos hfree =>
          unfold lastDropped
          repeat' split
          all_goals exact fun hf => by cases hf
      · rw [ha.others hu]
        exact ih u
    · exact ih
    · exact ih

/-- Whoever is woken to meet a sender or receiver of a zero channel has a packet, so `write` does
    not return the message. -/
theorem partner_of_reachable (hr : (system kind).Reachable w) {c : Nat} {d : Side} {e : Entry Tid}
    (hz : (kind c).IsZero) (he : (w.shared.reg.wakeOne c d t).1 = some e) :
    ∃ p, e.packet = some p := by
  obtain ⟨D, hD⟩ := accounts_of_reachable hr
  have hmem := (Waker.wakeOne_some (show ((w.shared.reg.waker c d).wakeOne w.shared.reg.cx t).1 =
    some e from he)).1
  obtain ⟨p, hp, -⟩ := hD.queued c d e hz hmem
  exact ⟨p, hp⟩

/-- Nobody is registered where no handle is left. -/
theorem empty_of_dropped (hr : (system kind).Reachable w) {c : Nat} {d : Side}
    (hcount : w.count c d = 0) :
    (w.shared.reg.waker c d).entries = [] ∧ w.shared.reg.len c d = 0 := by
  have hs := sound_of_reachable hr
  have hl := lent_of_reachable hr
  have hempty : (w.shared.reg.waker c d).entries = [] := by
    refine List.eq_nil_iff_forall_not_mem.mpr fun e he => ?_
    have hleft : (stakes kind w e.owner).left ⟨c, d, e.oper.slot⟩ := hs.books.listed c d e he
    have hpos := hl.lent _ _ (hl.borrowed _ c d (Frame.works_of_left hleft))
    dsimp only at hpos
    omega
  exact ⟨hempty, by rw [hs.books.len, hempty]; rfl⟩

/-! ## All of them together -/

/-- What the assertions rely on. -/
structure Asserted (kind : Nat → Kind T) (w : World Tid T) (tok : Tid → GuardedToken) : Prop where
  running : ∀ t, (w.thread t).frame ≠ .panicked
  /-- `unregister(oper).unwrap()` -/
  found : ∀ t x, (w.thread t).frame.Withdraws x →
    (∃ e, (w.shared.reg.unregister x.chan x.side ⟨t, x.slot⟩).1 = some e) ∧
      w.shared.reg.len x.chan x.side ≠ 0
  /-- `write(..).ok().unwrap()` -/
  partner : ∀ t c d e, (kind c).IsZero → (w.shared.reg.wakeOne c d t).1 = some e →
    ∃ p, e.packet = some p
  /-- `token.list.guard.take().unwrap()` -/
  guarded : ∀ t job d, kind job.chan = .list → (w.thread t).frame = .finish job .complete →
    (w.shared.buffer job.chan).phase t = .granted d ∨ (w.shared.buffer job.chan).phase t = .null d →
      (tok t).takeGuard ≠ none
  /-- The `debug_assert`s in `drop` of `Waker` and `SyncWaker`. -/
  dropped : ∀ c d, w.count c d = 0 →
    (w.shared.reg.waker c d).entries = [] ∧ w.shared.reg.len c d = 0

theorem asserted_of_reachable {x : World Tid T × (Tid → GuardedToken)}
    (h : (tokened kind).Reachable x) : Asserted kind x.1 x.2 := by
  have hr := reachable_of_tokened h
  refine ⟨never_panics hr, fun t x hf => found_of_withdraws hr hf,
    fun t c d e hz he => partner_of_reachable hr hz he, fun t job d hk hf hp => ?_,
    fun c d hcount => empty_of_dropped hr hcount⟩
  rcases hp with hp | hp
  · exact (hp ▸ tokens_ready h t job.chan hk).takeGuard (.inl rfl)
  · exact (hp ▸ tokens_ready h t job.chan hk).takeGuard (.inr rfl)

/-- The run without its tokens. -/
def untokened (x : (tokened kind : Lib.System (World Tid T × _) _).Exec) :
    (system kind : Lib.System (World Tid T) _).Exec where
  len := x.len
  state i := (x.state i).1
  start := congrArg Prod.fst x.start
  next i hi := (x.next i hi).imp fun _ hs => hs.1

/-- **No internal assertion ever fails**, in any run: not those that unwrap or call
`unreachable!` (a `send` or `recv` without a deadline never times out), and not those in `drop`.
The last part is about the look at the cached length outside the mutex, where registering and
storing the length are steps of their own. -/
theorem assertions_never_fire (x : (tokened kind : Lib.System (World Tid T × _) _).Exec)
    {Cx : Type} [DecidableEq Cx] {thread : Cx → Tid} {room : Lib.Room}
    (y : (SyncWaker.syncCalls thread room).Exec) :
    (∀ i ≤ x.len, Asserted kind (x.state i).1 (x.state i).2) ∧
    (∀ i j t job mode, mode.deadline = none →
      (x.state i).1.step kind (.start t (.plain job mode)) = some (x.state (i + 1)).1 →
      i < j → j ≤ x.len →
      ((x.state j).1.thread t).ops = ((x.state (i + 1)).1.thread t).ops →
      ∀ msg, ((x.state j).1.thread t).frame ≠ .done (.timeout msg)) ∧
    ∀ i j e, i ≤ j → j ≤ y.len → (y.state i).mutex = none →
      (∀ k, i ≤ k → k ≤ j → e ∈ (y.state k).inner.waker.entries.items) → 0 < (y.state j).len :=
  ⟨fun _ hi => asserted_of_reachable (x.reachable hi),
    fun _ _ _ _ _ hmode hstart hij hj hops msg =>
      no_timeout (x := untokened x) hmode hstart hij hj hops msg,
    fun _ _ _ hij hj hfree hq => SyncWaker.len_of_queued y hij hj hfree hq⟩

/-- The last sender of a zero channel leaves a waiting receiver, and a sender of a list channel
    gets a slot. -/
def leftAndSent : List (Label Nat Nat) :=
  [.start 0 (.plain ⟨0, none⟩ (.blocking none)), .run 0 false [], .drop 1 0 .send, .run 1 false [],
    .run 0 false [], .start 1 (.plain ⟨1, some 5⟩ (.blocking none))] ++
    List.replicate 6 (.run 1 false [])

theorem assertions_never_fire_leftAndSent :
    ∃ (x : (tokened fun c => if c = 0 then .zero else .list :
          Lib.System (World Nat Nat × _) (Label Nat Nat)).Exec)
      (y : (SyncWaker.syncCalls (id : Nat → Nat) ⟨id, Nat.le_refl⟩).Exec),
      Asserted (fun c => if c = 0 then .zero else .list) (x.state 12).1 (x.state 12).2 ∧
        ((x.state 12).1.thread 0).frame = .zero ⟨0, none⟩ (.blocking none) (.withdraw 0 .disconnected) ∧
        ((x.state 12).1.thread 1).frame = .finish ⟨1, some 5⟩ .complete ∧
        ((x.state 12).1.thread 1).frame ≠ .done (.timeout (some 5)) ∧
        (x.state 12).2 1 = ⟨true, true⟩ ∧ 0 < (y.state 5).len := by
  let kind : Nat → Kind Nat := fun c => if c = 0 then .zero else .list
  let x : (tokened kind : Lib.System (World Nat Nat × _) (Label Nat Nat)).Exec :=
    Lib.System.Exec.ofReplay (fun _ _ _ hs => tokened_step hs) (World.init kind, fun _ => .default)
      rfl leftAndSent (by decide +kernel)
  let y : (SyncWaker.syncCalls (id : Nat → Nat) ⟨id, Nat.le_refl⟩).Exec :=
    Lib.System.Exec.ofReplay (fun _ _ _ hs => hs) ⟨⟨.new, fun _ => .fresh, []⟩, none, 0, fun _ => .idle⟩
      ⟨rfl, rfl, rfl, rfl, fun _ => rfl⟩
      [.begin 0 (.register ⟨0, 0⟩ 0), .run 0, .run 0, .run 0, .run 0] (by decide +kernel)
  obtain ⟨hall, htimeout, hseen⟩ := assertions_never_fire x y
  refine ⟨x, y, hall 12 (by decide), rfl, rfl, ?_, rfl, ?_⟩
  · exact htimeout 5 12 1 ⟨1, some 5⟩ (.blocking none) rfl rfl (by decide) (by decide) rfl (some 5)
  · refine hseen 5 5 ⟨0, ⟨0, 0⟩, none⟩ (Nat.le_refl 5) (by decide) rfl fun k hk hk' => ?_
    obtain rfl : k = 5 := Nat.le_antisymm hk' hk
    exact List.mem_singleton_self _

end World

end CrossbeamChannel
