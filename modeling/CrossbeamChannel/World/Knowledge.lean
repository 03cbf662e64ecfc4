import CrossbeamChannel.World.Contexts

/-!
# What an operation knows of its context

Where an operation goes on with what it has read from its context, the context still says so:
`World.aware_of_reachable`. Another thread changes a context only while it is waiting, and only
by selecting it: `Shared.cx_others`.

In the source this is behind the `match sel` of the blocking phases (`array.rs` 400-406, `zero.rs`
333-350, `select.rs` 319-334): `sel` is read once and used after several more accesses. A decided context
stays as it is until its owner resets it, since every `try_select` is a compare-and-swap from `Waiting`.
-/

namespace CrossbeamChannel

variable {Tid T : Type} [DecidableEq Tid]

namespace Shared

variable {w : Shared Tid T} {t u : Tid} {act : Act Tid T}

/-- **What a step does to the context of another thread**: nothing, or it decides it. -/
theorem cx_others (hu : u ≠ t) :
    (w.apply t act).reg.cx u = w.reg.cx u ∨
      ((w.reg.cx u).select = .waiting ∧
        ((w.apply t act).reg.cx u = { w.reg.cx u with select := .disconnected } ∨
          ∃ c d e, act = .wakeOne c d ∧ (w.reg.wakeOne c d t).1 = some e ∧ e.owner = u ∧
            (w.apply t act).reg.cx u =
              ({ w.reg.cx u with select := .operation e.oper } : Context Tid).storePacket
                e.packet)) := by
  -- A sweep decides every waiting context of the queue in the same way.
  have swept : ∀ (r : Registry Tid) c d, (r.disconnect c d).cx u = r.cx u ∨
      ((r.cx u).select = .waiting ∧
        (r.disconnect c d).cx u = { r.cx u with select := .disconnected }) := by
    intro r c d
    simp only [Registry.disconnect, Waker.disconnect_apply]
    split
    · by_cases hw : (r.cx u).select = .waiting
      · exact .inr ⟨hw, Context.trySelect_waiting hw⟩
      · exact .inl (Context.trySelect_decided hw)
    · exact .inl rfl
  cases act with
  | reset | abort | queue _ _ _ => exact .inl (Function.update_of_ne hu _ _)
  | disconnect c d => exact (swept w.reg c d).imp_right fun h => ⟨h.1, .inl h.2⟩
  | disconnectZero c =>
    rcases swept w.reg c .send with h | ⟨hw, h⟩
    · rcases swept (w.reg.disconnect c .send) c .recv with h' | ⟨hw, h'⟩
      · exact .inl (h'.trans h)
      · rw [h] at hw h'
        exact .inr ⟨hw, .inl h'⟩
    · refine .inr ⟨hw, .inl ?_⟩
      rcases swept (w.reg.disconnect c .send) c .recv with h' | ⟨hw', -⟩
      · exact h'.trans h
      · rw [h] at hw'
        cases hw'
  | wakeOne c d =>
    cases he : (w.reg.wakeOne c d t).1 with
    | none =>
      left
      have hfound : ((w.reg.waker c d).wakeOne w.reg.cx t).1 = none := he
      simp only [apply, Registry.wakeOne, hfound, Waker.wakeContext_none]
    | some e =>
      by_cases howner : u = e.owner
      · subst howner
        have hw := (Waker.wakeOne_some (show ((w.reg.waker c d).wakeOne w.reg.cx t).1 = some e
          from he)).2.2
        refine .inr ⟨hw, .inr ⟨c, d, e, rfl, he, rfl, ?_⟩⟩
        simp only [apply, Registry.wakeOne_cx he, if_true]
      · left
        simp only [apply, Registry.wakeOne_cx he, if_neg howner]
  | _ => exact .inl rfl

/-- A context that is decided stays as it is, whatever the other threads do. -/
theorem cx_decided (hu : u ≠ t) (hne : (w.reg.cx u).select ≠ .waiting) :
    (w.apply t act).reg.cx u = w.reg.cx u :=
  (cx_others hu).resolve_right fun h => hne h.1

end Shared

namespace Frame

variable {kind : Nat → Kind T} {f g : Frame Tid T} {pr pr' : Prog} {t : Tid} {sel : Selected Tid}
  {order : List Handle} {r : Ret Tid T}

/-- What a thread relies on at this place: that its operation was not selected, or that it was. -/
def Relies (sel : Selected Tid) : Frame Tid T → Prop
  | .plain _ _ .unregister => sel ≠ .waiting ∧ ∀ op, sel ≠ .operation op
  | .select _ _ (.again _ .packet) => ∃ op, sel = .operation op
  | _ => True

/-- A blocking operation comes to its `unregister` with what `wait_until` has returned. -/
theorem unregister_of_resume {job : Job T} {mode : Mode}
    (hr : f.resume kind t order r = some (.plain job mode .unregister)) :
    f = .plain job mode .wait ∧
      ∃ sel, r = .selected sel ∧ sel ≠ .waiting ∧ ∀ op, sel ≠ .operation op := by
  obtain ⟨st, rfl⟩ : ∃ st, f = .plain job mode st := by
    have hstays := resume_stays hr
    cases hstays <;> exact ⟨_, rfl⟩
  simp only [resume] at hr
  unfold plainResume plainFailed plainWaited finishWith at hr
  repeat' split at hr
  all_goals try contradiction
  all_goals cases hr
  rename_i sel hwait hop
  exact ⟨rfl, sel, rfl, fun h => hwait (h ▸ rfl), fun op h => hop op (h ▸ rfl)⟩

/-- In the short pause of a handle, behind its registration. -/
def Pauses : Frame Tid T → Prop
  | .select _ _ (.again _ .first) => False
  | .select _ _ (.again _ _) => True
  | _ => False

omit [DecidableEq Tid] in
theorem nextHandle_not_pauses {handles : List Handle} {timeout : Timeout} {i : Nat}
    {st : Nat → SelectStage Tid} {last : Frame Tid T}
    (hst : ∀ j, ¬ (select handles timeout (st j) : Frame Tid T).Pauses) (hl : ¬ last.Pauses) :
    ¬ (nextHandle handles timeout i st last).Pauses := by
  unfold nextHandle
  split
  · exact hst _
  · exact hl

omit [DecidableEq Tid] in
theorem roundOver_not_pauses (handles : List Handle) (timeout : Timeout) :
    ¬ (roundOver handles timeout : Frame Tid T).Pauses := by
  unfold roundOver loopStart
  repeat' split
  all_goals exact id

omit [DecidableEq Tid] in
theorem choose_not_pauses {handles : List Handle} {i : Nat} {tk : Token}
    (h : choose handles i tk = some g) : ¬ g.Pauses := by
  obtain ⟨x, -, rfl⟩ := Option.map_eq_some_iff.mp h
  exact id

/-- The short pause is entered, and gone through, in the second round of tries. -/
theorem pauses_of_resume (hr : f.resume kind t order r = some g) (hg : g.Pauses) :
    ∃ handles timeout i st, f = .select handles timeout (.again i st) ∧
      retryResume handles timeout i st r = some g := by
  cases f with
  | select handles timeout st =>
    simp only [resume] at hr
    unfold selectResume at hr
    split at hr
    · split at hr <;> cases hr
      exact hg.elim
    · exact absurd hg (choose_not_pauses hr)
    · exact absurd hg (choose_not_pauses hr)
    · exact absurd hg (choose_not_pauses hr)
    · cases hr
      exact absurd hg (nextHandle_not_pauses (fun _ => id) id)
    · exact ⟨_, _, _, _, rfl, hr⟩
    · cases hr
      exact hg.elim
    · cases hr
      split at hg <;> exact hg.elim
    · cases hr
      exact hg.elim
    · cases hr
      split at hg
      · exact absurd hg (nextHandle_not_pauses (fun _ => id) id)
      · exact hg.elim
    · cases hr
      exact absurd hg (nextHandle_not_pauses (fun _ => id) id)
    · cases hr
      exact hg.elim
    · cases hr
      unfold selectedNow at hg
      repeat' split at hg
      all_goals first | exact hg.elim | exact absurd hg (roundOver_not_pauses _ _)
    · cases hr
      exact absurd hg (roundOver_not_pauses _ _)
    · cases hr
      unfold nowStart loopStart at hg
      repeat' split at hg
      all_goals exact hg.elim
    · split at hr <;> cases hr
      exact hg.elim
    · cases hr
      split at hg <;> exact hg.elim
    · cases hr
      refine absurd hg (nextHandle_not_pauses (fun _ => id) ?_)
      unfold probed
      split <;> exact id
    · cases hr
      unfold rechecked at hg
      repeat' split at hg
      all_goals exact hg.elim
    · cases hr
      split at hg <;> exact hg.elim
    · cases hr
  | _ =>
    have hstays := resume_stays hr
    cases hstays <;> exact hg.elim

/-- The short pause ends with an operation that was selected. -/
theorem packet_of_resume {handles : List Handle} {timeout : Timeout} {i : Nat}
    (hr : f.resume kind t order r = some (.select handles timeout (.again i .packet))) :
    (∃ p, f = .select handles timeout (.again i (.pause p))) ∧ ∃ op, r = .selected (.operation op) := by
  obtain ⟨handles', timeout', i', st, rfl, hretry⟩ := pauses_of_resume hr trivial
  unfold retryResume choose nextHandle at hretry
  repeat' split at hretry
  all_goals simp at hretry
  obtain ⟨rfl, rfl, rfl⟩ := hretry
  exact ⟨⟨_, rfl⟩, _, rfl⟩

omit [DecidableEq Tid] in
theorem Relies.of_waiting (h : f.Relies .waiting) (sel : Selected Tid) : f.Relies sel := by
  unfold Relies at h ⊢
  split at h
  · exact absurd rfl h.1
  · obtain ⟨op, hop⟩ := h
    cases hop
  · trivial

/-- **What a thread relies on after a step of its own.** -/
theorem Next.relies {w : Shared Tid T} {act : Act Tid T} (hn : Next kind w t f pr act g pr')
    (hrel : f.Relies (w.reg.cx t).select) : g.Relies ((w.apply t act).reg.cx t).select := by
  cases hn with
  | more he =>
    unfold Relies at hrel ⊢
    split
    · rename_i job mode
      obtain rfl := Shared.unregister_more (Option.some.inj he)
      exact hrel
    · obtain ⟨rfl, -⟩ := Prod.mk.inj (Option.some.inj he)
      exact hrel
    · trivial
  | ret he hr =>
    unfold Relies
    split
    · obtain ⟨rfl, sel, rfl, hne, hop⟩ := unregister_of_resume hr
      rw [(Shared.waitUntil_selected he).1]
      exact ⟨hne, hop⟩
    · obtain ⟨⟨p, rfl⟩, op, rfl⟩ := packet_of_resume hr
      exact ⟨op, (Shared.abort_selected (Option.some.inj he)).1⟩
    · trivial

end Frame

namespace World

variable {kind : Nat → Kind T} {w w' : World Tid T} {t : Tid} {act : Act Tid T} {th : Thread Tid T}
  {count : Nat → Side → Nat}

/-- Every context still says what its thread has read from it. -/
structure Aware (w : World Tid T) : Prop where
  knows : ∀ t, (w.thread t).frame.Knows t (w.shared.reg.cx t).select
  relies : ∀ t, (w.thread t).frame.Relies (w.shared.reg.cx t).select

/-- What a thread knows of its context after its turn. -/
theorem Turn.knows (ht : Turn kind w t act th count) (htyped : (w.thread t).frame.Typed kind)
    (hk : (w.thread t).frame.Knows t (w.shared.reg.cx t).select) :
    th.frame.Knows t ((w.shared.apply t act).reg.cx t).select := by
  rcases FineWorld.turn_blind (F := ⟨w, fun _ _ => none⟩) ht with
    ⟨g, pr, rfl, hn⟩ | ⟨-, -, hblind, -⟩
  · cases hcrit : (w.thread t).frame.call.critical kind (w.thread t).prog with
    | none => exact hn.knows hcrit hk
    | some s =>
      have hents := Frame.enters_of_critical htyped hcrit
      cases hn with
      | more he =>
        generalize (w.thread t).frame = f at hents
        cases hents <;> trivial
      | ret he hr => exact FineWorld.blind_of_enters hents hr _
  · exact hblind _

/-- A thread whose operation has just begun, or is to be completed, relies on nothing. -/
theorem Turn.relies (ht : Turn kind w t act th count)
    (hr : (w.thread t).frame.Relies (w.shared.reg.cx t).select) :
    th.frame.Relies ((w.shared.apply t act).reg.cx t).select := by
  cases ht with
  | next hn => exact hn.relies hr
  | start hover huses =>
    unfold Op.frame Frame.nowStart Frame.loopStart
    repeat' split
    all_goals trivial
  | complete hframe hside =>
    rcases Frame.finishWith_cases kind ⟨_, _⟩ _ with ⟨st, h⟩ | ⟨out, h⟩ <;> rw [h] <;> trivial
  | drop hover hpos hfree =>
    unfold lastDropped
    repeat' split
    all_goals trivial

theorem Aware.after (hw : Aware w) (htyped : (w.thread t).frame.Typed kind)
    (ht : Turn kind w t act th count) (ha : After w w' t act th count) : Aware w' := by
  have others : ∀ u, u ≠ t → (w.shared.reg.cx u).select = .waiting ∨
      (w'.shared.reg.cx u).select = (w.shared.reg.cx u).select := by
    intro u hu
    rw [or_iff_not_imp_left, ha.shared]
    intro hne
    rw [Shared.cx_decided hu hne]
  constructor
  · intro u
    by_cases hu : u = t
    · subst hu
      rw [ha.frame, ha.shared]
      exact ht.knows htyped (hw.knows u)
    · rw [ha.others hu]
      rcases others u hu with hwait | hsame
      · exact Frame.Knows.of_waiting (hwait ▸ hw.knows u) _
      · rw [hsame]
        exact hw.knows u
  · intro u
    by_cases hu : u = t
    · subst hu
      rw [ha.frame, ha.shared]
      exact ht.relies (hw.relies u)
    · rw [ha.others hu]
      rcases others u hu with hwait | hsame
      · exact Frame.Relies.of_waiting (hwait ▸ hw.relies u) _
      · rw [hsame]
        exact hw.relies u

/-- **What the operations have read from their contexts is still there.** -/
theorem aware_of_reachable (h : (system kind).Reachable w) : Aware w := by
  refine h.invariant (P := Aware) ?_ fun w l w' hr hw hs => ?_
  · rintro _ rfl
    exact ⟨fun _ => trivial, fun _ => trivial⟩
  · rcases step_cases hs with ⟨t, act, th, count, ht, ha⟩ | ⟨c, d, -, rfl⟩ | ⟨now, -, rfl⟩
    · exact hw.after (typed_of_reachable hr t) ht ha
    · exact ⟨hw.knows, hw.relies⟩
    · exact ⟨hw.knows, hw.relies⟩

end World

end CrossbeamChannel
