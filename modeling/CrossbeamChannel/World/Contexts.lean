import CrossbeamChannel.World.Packets

/-!
# One context for one operation

A thread uses one `Context` for all its operations. Whatever another thread does to it through a
queued entry, it does inside the `Context::with` in which the entry was registered:
`FineWorld.contexts_are_current`.

`blank` and `pending` of `Scopes` are the two ends of the argument. A context that is `Waiting` has no
packet, because `reset` clears both words (`context.rs` 81-84) and `store_packet` comes behind a
successful `try_select`. And an owner that is selected and not yet provided with its packet is at a place
it cannot leave. A selected entry without a packet needs no such care: `store_packet` skips a null packet
(`context.rs` 113-118), so what is left of the section does not touch the context.
-/

namespace CrossbeamChannel

variable {Tid T : Type} [DecidableEq Tid]

namespace FineWorld

variable {F F' : FineWorld Tid T} {kind : Nat → Kind T} {c : Nat} {d : Side} {e : Entry Tid} {t : Tid}
  {s : Critical T} {h : Holder Tid} {act : Act Tid T}

/-- The contexts agree with where their owners stand. -/
structure Scopes (kind : Nat → Kind T) (F : FineWorld Tid T) : Prop where
  knows : ∀ t, (F.world.thread t).frame.Knows t (F.world.shared.reg.cx t).select
  blank : ∀ t, (F.world.shared.reg.cx t).select = .waiting →
    (F.world.shared.reg.cx t).packet = none
  own : ∀ c d e p job mode q, F.Offered kind c d e → e.packet = some p →
    (F.world.thread e.owner).frame = .zero job mode (.wait q) → q = p
  /-- A thread that is about to get its packet waits for it. -/
  pending : ∀ c d e p, F.Pending kind c d e → e.packet = some p →
    (F.world.shared.reg.cx e.owner).select = .operation e.oper ∧
      (F.world.shared.reg.cx e.owner).packet = none ∧
      (F.world.thread e.owner).frame.Awaits kind ⟨c, d, e.oper.slot⟩ p (F.world.thread e.owner).prog

/-! ## Sections -/

omit [DecidableEq Tid] in
/-- The owner of an entry that is not selected has registered it. -/
theorem made_of_settled (hb : Books kind F) (he : e ∈ ((F.settled kind).waker c d).entries) :
    ((F.world.thread e.owner).frame.stake kind (F.world.thread e.owner).prog).made
      ⟨c, d, e.oper.slot⟩ :=
  (hb.books.stake e.owner).sub _ (hb.books.listed c d e he)

omit [DecidableEq Tid] in
/-- An access of a section, except for the store of a packet: it may decide contexts that wait. -/
theorem Scopes.section (hsc : Scopes kind F) (hb : Books kind F)
    (hthread : F'.world.thread = F.world.thread)
    (hcx : ∀ u, F'.world.shared.reg.cx u = F.world.shared.reg.cx u ∨
      ((F.world.shared.reg.cx u).select = .waiting ∧
        (F'.world.shared.reg.cx u).select ≠ .waiting))
    (hoff : ∀ c d e, F'.Offered kind c d e → F.Offered kind c d e)
    (hpend : ∀ c d e, F'.Pending kind c d e → F.Pending kind c d e ∨
      (e ∈ ((F.settled kind).waker c d).entries ∧
        (F.world.shared.reg.cx e.owner).select = .waiting ∧ F'.world.shared.reg.cx e.owner =
          { F.world.shared.reg.cx e.owner with select := .operation e.oper })) :
    Scopes kind F' where
  knows := by
    intro u
    rw [hthread]
    rcases hcx u with hsame | ⟨hwait, -⟩
    · rw [hsame]
      exact hsc.knows u
    · exact (hwait ▸ hsc.knows u).of_waiting _
  blank := by
    intro u hu
    rcases hcx u with hsame | ⟨-, hno⟩
    · rw [hsame] at hu ⊢
      exact hsc.blank u hu
    · exact absurd hu hno
  own := by
    intro c d e p job mode q ho hp hf
    rw [hthread] at hf
    exact hsc.own c d e p job mode q (hoff c d e ho) hp hf
  pending := by
    intro c d e p hp hpk
    rw [hthread]
    rcases hpend c d e hp with hold | ⟨he, hwait, hnew⟩
    · obtain ⟨hsel, hnull, hawaits⟩ := hsc.pending c d e p hold hpk
      have hsame : F'.world.shared.reg.cx e.owner = F.world.shared.reg.cx e.owner := by
        refine (hcx e.owner).resolve_right fun hwait => ?_
        rw [hsel] at hwait
        cases hwait.1
      rw [hsame]
      exact ⟨hsel, hnull, hawaits⟩
    · rw [hnew]
      exact ⟨rfl, hsc.blank _ hwait, .inl (made_of_settled hb he)⟩

omit [DecidableEq Tid] in
/-- Two threads are not about to provide packets to the same context. -/
theorem Scopes.pending_unique (hsc : Scopes kind F) (hb : Books kind F) (hp : Packets kind F)
    {c' : Nat} {d' : Side} {e' : Entry Tid} {p p' : Nat} (h : F.Pending kind c d e)
    (h' : F.Pending kind c' d' e') (hpk : e.packet = some p) (hpk' : e'.packet = some p')
    (hown : e.owner = e'.owner) : c = c' ∧ d = d' := by
  obtain ⟨hsel, -, ha⟩ := hsc.pending c d e p h hpk
  obtain ⟨hsel', -, ha'⟩ := hsc.pending c' d' e' p' h' hpk'
  have hoper : e.oper = e'.oper := by
    rw [hown, hsel'] at hsel
    exact (Selected.operation.inj hsel).symm
  rw [← hown] at ha'
  have mixed : ∀ {x job mode q}, ((F.world.thread e.owner).frame.stake kind
      (F.world.thread e.owner).prog).made x →
      (F.world.thread e.owner).frame = .zero job mode (.waitReady q) → False := by
    intro x job mode q hmade hf
    rw [hf] at hmade
    exact hmade
  rcases ha with ha | ⟨job, mode, ha⟩ <;> rcases ha' with ha' | ⟨job', mode', ha'⟩
  · have heq := (hb.books.stake e.owner).distinct _ _ ha ha' (congrArg Operation.slot hoper)
    exact ⟨congrArg Place.chan heq, congrArg Place.side heq⟩
  · exact (mixed ha ha').elim
  · exact (mixed ha' ha).elim
  · rw [ha] at ha'
    cases ha'
    have hsame := hp.unique c d e c' d' e' p (mem_of_offered (.inr h)) (mem_of_offered (.inr h')) hpk
      hpk'
    exact ⟨hsame.1, hsame.2.1⟩

/-- The packet of the selected entry is provided. -/
theorem Scopes.store (hsc : Scopes kind F) (hb : Books kind F) (hp : Packets kind F)
    {stage : Stage} {i : Nat} (hh : F.holder s.chan (mutexOf kind s.chan s.side) = some h)
    (hst : h.stage = .store i) (he : (F.entries s.chan h.side)[i]? = some e)
    (hstage : ∀ j, stage ≠ .store j)
    (hoff : ∀ c d e', ((F.setCx e.owner ((F.world.shared.reg.cx e.owner).storePacket
      e.packet)).hold kind s { h with stage := stage }).Offered kind c d e' →
        F.Offered kind c d e') :
    Scopes kind ((F.setCx e.owner ((F.world.shared.reg.cx e.owner).storePacket e.packet)).hold
      kind s { h with stage := stage }) := by
  have hside := hb.same_mutex hh
  have hpending : F.Pending kind s.chan h.side e := ⟨h, i, by rwa [hside], rfl, hst, he⟩
  generalize hF' : (F.setCx e.owner _).hold kind s _ = F' at hoff ⊢
  have hthread : F'.world.thread = F.world.thread := by rw [← hF']; rfl
  have hcx : F'.world.shared.reg.cx = Function.update F.world.shared.reg.cx e.owner
      ((F.world.shared.reg.cx e.owner).storePacket e.packet) := by rw [← hF']; rfl
  have hselect : ∀ u, (F'.world.shared.reg.cx u).select = (F.world.shared.reg.cx u).select := by
    intro u
    rw [hcx]
    by_cases hu : u = e.owner
    · subst hu
      rw [Function.update_self, Context.storePacket_select]
    · rw [Function.update_of_ne hu]
  have hpacket : ∀ u, (u = e.owner → e.packet = none) →
      F'.world.shared.reg.cx u = F.world.shared.reg.cx u := by
    intro u hu
    rw [hcx]
    by_cases hue : u = e.owner
    · subst hue
      rw [Function.update_self, hu rfl]
      rfl
    · rw [Function.update_of_ne hue]
  refine ⟨fun u => ?_, fun u hu => ?_, fun c d e' p job mode q ho hpk hf => ?_,
    fun c d e' p hpd hpk => ?_⟩
  · rw [hthread, hselect]
    exact hsc.knows u
  · rw [hselect] at hu
    rw [hpacket]
    · exact hsc.blank u hu
    · rintro rfl
      cases hpk : e.packet with
      | none => rfl
      | some p =>
        rw [(hsc.pending _ _ _ p hpending hpk).1] at hu
        cases hu
  · rw [hthread] at hf
    exact hsc.own c d e' p job mode q (hoff c d e' ho) hpk hf
  · have hold : F.Pending kind c d e' := by
      refine pending_of_holder (x := some { h with stage := stage }) (by rw [← hF']; rfl)
        (fun y j hy => ?_) (by rw [← hF']; rfl) hpd
      cases hy
      exact hstage j
    rw [hthread, hpacket]
    · exact hsc.pending c d e' p hold hpk
    · intro hown
      cases hpk' : e.packet with
      | none => rfl
      | some p' =>
        -- Otherwise it is the entry that has just been served.
        obtain ⟨rfl, rfl⟩ := hsc.pending_unique hb hp hold hpending hpk hpk' hown
        obtain ⟨y, j, hy, -, hstage', -⟩ := hpd
        rw [← hF', hside, FineWorld.hold, setHolder_holder] at hy
        cases hy
        exact absurd hstage' (hstage j)

omit [DecidableEq Tid] in
/-- A thread that is inside a section waits for nothing. -/
theorem not_awaits_of_enters {f : Frame Tid T} {pr : Prog} {x : Place} {p : Nat}
    (h : Frame.Enters kind f s) : ¬ f.Awaits kind x p pr := by
  rintro (hmade | ⟨job, mode, rfl⟩)
  · rw [h.calm pr] at hmade
    exact hmade
  · cases h

/-- The place a section leads to tells nothing about the context. -/
theorem blind_of_enters {f g : Frame Tid T} {order : List Handle} {r : Ret Tid T}
    (h : Frame.Enters kind f s) (hr : f.resume kind t order r = some g) : g.Blind t := by
  cases h with
  | zero => exact Frame.zeroResume_blind (by simp) hr
  | attempt hx hk | probe hx hk | again hx hk =>
    refine Frame.selectResume_blind ?_ hr
    trivial
  | finish =>
    cases r <;> cases hr
    exact fun _ => trivial
  | senders | receivers | close =>
    cases r <;> cases hr
    exact fun _ => trivial

/-- The end of a section, which changes no context but that of its thread. -/
theorem Scopes.leave (hsc : Scopes kind F) (hb : Books kind F) {g : Frame Tid T} {order : List Handle}
    {r : Ret Tid T} {u : Tid} (hents : Frame.Enters kind (F.world.thread u).frame s)
    (hr : (F.world.thread u).frame.resume kind u order r = some g)
    (hframe : (F'.world.thread u).frame = g)
    (hthread : ∀ v, v ≠ u → F'.world.thread v = F.world.thread v)
    (hcx : ∀ v, v ≠ u → F'.world.shared.reg.cx v = F.world.shared.reg.cx v)
    (hself : F'.world.shared.reg.cx u = F.world.shared.reg.cx u ∨
      F'.world.shared.reg.cx u = .fresh)
    (hoff : ∀ c d e, F'.Offered kind c d e → F.Offered kind c d e ∨ Added kind F F' c d e)
    (hpend : ∀ c d e, F'.Pending kind c d e → F.Pending kind c d e) : Scopes kind F' := by
  have hstake : ∀ pr x, ¬ ((F.world.thread u).frame.stake kind pr).made x := by
    intro pr x
    rw [hents.calm pr]
    exact id
  have hnot : ∀ c d e p, F.Pending kind c d e → e.packet = some p → e.owner ≠ u := by
    rintro c d e p hp hpk rfl
    exact not_awaits_of_enters hents (hsc.pending c d e p hp hpk).2.2
  refine ⟨fun v => ?_, fun v hv => ?_, fun c d e p job mode q ho hpk hf => ?_,
    fun c d e p hpd hpk => ?_⟩
  · by_cases hvu : v = u
    · subst hvu
      rw [hframe]
      exact blind_of_enters hents hr _
    · rw [hthread v hvu, hcx v hvu]
      exact hsc.knows v
  · by_cases hvu : v = u
    · subst hvu
      rcases hself with hsame | hfresh
      · rw [hsame] at hv ⊢
        exact hsc.blank v hv
      · rw [hfresh]
        rfl
    · rw [hcx v hvu] at hv ⊢
      exact hsc.blank v hv
  · rcases hoff c d e ho with hold | hadd
    · have hne : e.owner ≠ u := by
        rcases hold with hset | hp
        · rintro rfl
          exact hstake _ _ (made_of_settled hb hset)
        · exact hnot c d e p hp hpk
      rw [hthread _ hne] at hf
      exact hsc.own c d e p job mode q hold hpk hf
    · exact hadd.own p job mode q hpk hf
  · have hold := hpend c d e hpd
    have hne := hnot c d e p hold hpk
    rw [hthread _ hne, hcx _ hne]
    exact hsc.pending c d e p hold hpk

/-! ## Turns outside the sections -/

/-- A blocking operation comes to its wait from the section at its start. -/
theorem wait_of_next {w : Shared Tid T} {f : Frame Tid T} {pr pr' : Prog} {job : Job T} {mode : Mode}
    {q : Nat} (hn : Frame.Next kind w t f pr act (.zero job mode (.wait q)) pr')
    (hcrit : f.call.critical kind pr = none) : f = .zero job mode (.wait q) := by
  have hstays := hn.stays
  cases hn with
  | more he => rfl
  | ret he hr =>
    cases hstays with
    | same => rfl
    | zero =>
      rename_i r st
      cases st with
      | pair => cases hcrit
      | _ =>
        simp only [Frame.resume] at hr
        unfold Frame.zeroResume Frame.unselected at hr
        repeat' split at hr
        all_goals first | contradiction | cases hr

/-- A step outside the sections leaves the contexts of the other threads alone. -/
theorem cx_of_others {w : Shared Tid T} {u : Tid} (hplain : act.Plain) (hu : u ≠ t) :
    (w.apply t act).reg.cx u = w.reg.cx u := by
  cases act with
  | reset | abort => exact Function.update_of_ne hu _ _
  | wakeOne _ _ | disconnect _ _ | disconnectZero _ | queue _ _ _ => exact hplain.elim
  | _ => rfl

/-- A context that waits after a step of its owner is empty. -/
theorem blank_apply {w : Shared Tid T} (hplain : act.Plain)
    (hblank : (w.reg.cx t).select = .waiting → (w.reg.cx t).packet = none)
    (hw : ((w.apply t act).reg.cx t).select = .waiting) :
    ((w.apply t act).reg.cx t).packet = none := by
  cases act with
  | reset =>
    simp only [Shared.apply, Registry.reset, Function.update_self]
    rfl
  | abort =>
    simp only [Shared.apply, Registry.abort, Function.update_self] at hw
    exact absurd hw (Context.trySelect_ne_waiting (by simp))
  | wakeOne _ _ | disconnect _ _ | disconnectZero _ | queue _ _ _ => exact hplain.elim
  | _ => exact hblank hw

/-- A turn that begins an operation, or its completion, leads to a place from which nothing is
    awaited and nothing known. -/
theorem turn_blind {th : Thread Tid T} {count : Nat → Side → Nat}
    (ht : World.Turn kind F.world t act th count) :
    (∃ f pr, th = { F.world.thread t with frame := f, prog := pr } ∧
        Frame.Next kind F.world.shared t (F.world.thread t).frame (F.world.thread t).prog act f pr) ∨
      ((F.world.thread t).frame.inside = false ∧ act = .silent ∧ th.frame.Blind t ∧
        th.frame.inside = false) := by
  have ended : (F.world.thread t).frame.ended = true → (F.world.thread t).frame.inside = false := by
    intro h
    generalize (F.world.thread t).frame = f at h
    cases f <;> first | rfl | cases h
  cases ht with
  | next hn => exact .inl ⟨_, _, rfl, hn⟩
  | start hover huses =>
    rename_i op
    refine .inr ⟨ended hover, rfl, fun sel => ?_, ?_⟩
    · unfold Op.frame Frame.nowStart Frame.loopStart
      repeat' split
      all_goals trivial
    · unfold Op.frame Frame.nowStart Frame.loopStart
      repeat' split
      all_goals rfl
  | complete hframe hside =>
    exact .inr ⟨by rw [hframe]; rfl, rfl, Frame.finishWith_blind _ _, Frame.finishWith_inside _ _⟩
  | drop hover hpos hfree =>
    refine .inr ⟨ended hover, rfl, fun sel => ?_, ?_⟩
    · unfold World.lastDropped
      repeat' split
      all_goals trivial
    · unfold World.lastDropped
      repeat' split
      all_goals rfl

/-- A turn outside the sections. -/
theorem Scopes.turn {th : Thread Tid T} {count : Nat → Side → Nat} (hsc : Scopes kind F)
    (hb : Books kind F) (hp : Packets kind F) (ht : World.Turn kind F.world t act th count)
    (ha : World.After F.world F'.world t act th count) (hu : F.Unlocked kind t)
    (hh : F'.holder = F.holder) : Scopes kind F' := by
  obtain ⟨hplain, hon, -⟩ := turn_plain ht hu
  have hcareful := careful_turn hb ht ha hu hh
  have hpend : ∀ c d e, F'.Pending kind c d e → F.Pending kind c d e := by
    rintro c d e ⟨y, i, hy, hside, hstage, hi⟩
    rw [hh] at hy
    refine ⟨y, i, hy, hside, hstage, ?_⟩
    -- The queue is locked.
    have hsame : F'.entries c d = F.entries c d := by
      rw [FineWorld.entries, ha.shared]
      rcases queues_apply (w := F.world.shared) (t := t) hplain with hsame |
        ⟨c₀, d₀, hact, -, hothers⟩
      · exact hsame c d
      · refine hothers c d ?_
        rintro ⟨rfl, rfl⟩
        rw [hon c d hact] at hy
        cases hy
    rwa [hsame] at hi
  have hothers : ∀ v, v ≠ t → F'.world.thread v = F.world.thread v ∧
      F'.world.shared.reg.cx v = F.world.shared.reg.cx v := by
    intro v hv
    rw [ha.shared]
    exact ⟨ha.others hv, cx_of_others hplain hv⟩
  refine ⟨fun v => ?_, fun v hv => ?_, fun c d e p job mode q ho hpk hf => ?_,
    fun c d e p hpd hpk => ?_⟩
  · by_cases hvt : v = t
    · subst hvt
      rw [ha.frame, ha.shared]
      rcases turn_blind ht with ⟨f, pr, rfl, hn⟩ | ⟨-, -, hblind, -⟩
      · exact hn.knows hu.1 (hsc.knows v)
      · exact hblind _
    · rw [(hothers v hvt).1, (hothers v hvt).2]
      exact hsc.knows v
  · by_cases hvt : v = t
    · subst hvt
      rw [ha.shared] at hv ⊢
      exact blank_apply hplain (hsc.blank v) hv
    · rw [(hothers v hvt).2] at hv ⊢
      exact hsc.blank v hv
  · rcases hcareful.offered ho with hold | hadd
    · by_cases hvt : e.owner = t
      · rw [hvt, ha.frame] at hf
        rcases turn_blind ht with ⟨f, pr, rfl, hn⟩ | ⟨-, -, -, hno⟩
        · obtain rfl : f = .zero job mode (.wait q) := hf
          have hwas := wait_of_next hn hu.1
          rw [← hvt] at hwas
          exact hsc.own c d e p job mode q hold hpk hwas
        · rw [hf] at hno
          cases hno
      · rw [(hothers _ hvt).1] at hf
        exact hsc.own c d e p job mode q hold hpk hf
    · exact hadd.own p job mode q hpk hf
  · have hold := hpend c d e hpd
    obtain ⟨hsel, hnull, hawaits⟩ := hsc.pending c d e p hold hpk
    by_cases hvt : e.owner = t
    · obtain ⟨hno, hready⟩ := hp.secret c d e p (.inr hold) hpk
      have hz := (hp.zero c d e p (mem_of_offered (.inr hold)) hpk).1
      have hownq := fun job mode q => hsc.own c d e p job mode q (.inr hold) hpk
      have hoper : e.oper = Place.oper ⟨c, d, e.oper.slot⟩ t := by rw [← hvt]
      rw [hvt] at hsel hnull hawaits hownq ⊢
      rcases turn_blind ht with ⟨f, pr, rfl, hn⟩ | ⟨hout, -⟩
      · obtain ⟨hgo, hcx⟩ := hn.awaits hu.1 (hb.typed t) hz (hsc.knows t) (hsel.trans (by rw [← hoper]))
          hnull hready hownq hawaits
        rw [ha.frame, ha.prog, ha.shared, hcx]
        exact ⟨hsel, hnull, hgo⟩
      · rw [hawaits.inside] at hout
        cases hout
    · rw [(hothers _ hvt).1, (hothers _ hvt).2]
      exact ⟨hsel, hnull, hawaits⟩

omit [DecidableEq Tid] in
/-- An access that changes nobody's context. -/
theorem Scopes.idle {x : Option (Holder Tid)} (hsc : Scopes kind F) (hb : Books kind F)
    (hcareful : Careful kind F F') (hthread : F'.world.thread = F.world.thread)
    (hcx : F'.world.shared.reg.cx = F.world.shared.reg.cx)
    (hhold : F'.holder = (F.setHolder s.chan (mutexOf kind s.chan s.side) x).holder)
    (hx : ∀ y i, x = some y → y.stage ≠ .store i) (he : ∀ c d, F'.entries c d = F.entries c d) :
    Scopes kind F' := by
  refine hsc.section hb hthread (fun u => .inl (by rw [hcx])) (fun c d e ho => ?_)
    fun c d e hp => .inl (pending_of_holder hhold hx (he c d) hp)
  exact (hcareful.offered ho).resolve_right fun hadd => hadd.changed (he c d)

/-- **One access inside a section.** -/
theorem Scopes.inside (hsc : Scopes kind F) (hb : Books kind F) (hp : Packets kind F)
    (hs : (F.world.thread h.thread).frame.call.critical kind (F.world.thread h.thread).prog = some s)
    (hh : F.holder s.chan (mutexOf kind s.chan s.side) = some h) (hi : Inside kind F s h F') :
    Scopes kind F' := by
  have hcareful := careful_inside hb hp hs hh hi
  have hents := Frame.enters_of_critical (hb.typed h.thread) hs
  have hside := hb.same_mutex hh
  -- The end of a section.
  have leave : ∀ {F₁ : FineWorld Tid T} {order act r}, F₁.world.thread = F.world.thread →
      F₁.world.shared.reg.cx = F.world.shared.reg.cx → F₁.holder = F.holder →
      (act = .silent ∨ ∃ c d v, act = .queue c d v) →
      (∀ c d, ¬ (c = s.chan ∧ mutexOf kind c d = mutexOf kind s.chan s.side) →
        ((F₁.world.shared.apply h.thread act).reg.waker c d).entries = F.entries c d) →
      F₁.leave kind h.thread order s act r = some F' → Scopes kind F' := by
    intro F₁ order act r hthread hcx hholder hact hsame hl
    obtain ⟨g, hr, ha, hhold⟩ := leave_after (by rw [hthread]; exact hents.running) hl
    rw [hthread] at hr
    have hhold' : F'.holder = (F.setHolder s.chan (mutexOf kind s.chan s.side) none).holder := by
      rw [hhold]
      simp only [setHolder, hholder]
    refine hsc.leave hb hents hr (by rw [ha.frame]) (fun v hv => by rw [ha.others hv, hthread])
      (fun v hv => ?_) ?_ (fun c d e ho => hcareful.offered ho)
      fun c d e hpd => pending_of_holder hhold' (fun _ _ hy => by cases hy) ?_ hpd
    · rw [ha.shared]
      rcases hact with rfl | ⟨c, d, v', rfl⟩
      · exact congrFun hcx v
      · exact (Function.update_of_ne hv _ _).trans (congrFun hcx v)
    · rw [ha.shared]
      rcases hact with rfl | ⟨c, d, v', rfl⟩
      · exact .inl (congrFun hcx _)
      · exact .inr (Function.update_self _ _ _)
    · rw [FineWorld.entries, ha.shared]
      refine hsame c d ?_
      rintro ⟨rfl, hm⟩
      obtain ⟨y, j, hy, -⟩ := hpd
      rw [hhold', hm, setHolder_holder] at hy
      cases hy
  -- An access that decides the context of an entry.
  have decided : ∀ {e : Entry Tid} {sel : Selected Tid} {y : Holder Tid} (u : Tid), sel ≠ .waiting →
      ((F.setCx e.owner ((F.world.shared.reg.cx e.owner).trySelect sel)).hold kind s y).world.shared.reg.cx
          u = F.world.shared.reg.cx u ∨
        ((F.world.shared.reg.cx u).select = .waiting ∧
          (((F.setCx e.owner ((F.world.shared.reg.cx e.owner).trySelect sel)).hold kind s
            y).world.shared.reg.cx u).select ≠ .waiting) := by
    intro e sel y u hsel
    change Function.update F.world.shared.reg.cx e.owner _ u = _ ∨
      _ ∧ (Function.update F.world.shared.reg.cx e.owner _ u).select ≠ _
    by_cases hu : u = e.owner
    · subst hu
      rw [Function.update_self]
      by_cases hw : (F.world.shared.reg.cx e.owner).select = .waiting
      · exact .inr ⟨hw, Context.trySelect_ne_waiting hsel⟩
      · exact .inl (Context.trySelect_decided hw)
    · exact .inl (Function.update_of_ne hu _ _)
  cases hi with
  | pass hst he hno =>
    exact hsc.idle hb hcareful rfl rfl rfl (fun y j hy => by cases hy; simp) fun _ _ => rfl
  | unpark hst =>
    exact hsc.idle hb hcareful rfl rfl rfl (fun y j hy => by cases hy; simp) fun _ _ => rfl
  | flag hst =>
    exact hsc.idle hb hcareful rfl rfl rfl (fun y j hy => by cases hy; simp) fun _ _ => rfl
  | turn hst hz =>
    exact hsc.idle hb hcareful rfl rfl rfl (fun y j hy => by cases hy; simp) fun _ _ => rfl
  | tell hst he =>
    rename_i i e
    refine hsc.section hb rfl (fun u => decided u (by simp)) (fun c d e' ho => ?_)
      fun c d e' hpd => .inl ?_
    · exact (hcareful.offered ho).resolve_right fun hadd => hadd.changed rfl
    · refine pending_of_holder (x := some { h with stage := .tell (i + 1) }) rfl (fun y j hy => ?_)
        rfl hpd
      cases hy
      simp
  | select hst he hyes =>
    rename_i i e
    have hfree : F.taken kind s.chan h.side = none := by rw [hb.taken_self hh, hst]; rfl
    have hwait := (Waker.wakeable_iff.mp hyes).2
    refine hsc.section hb rfl (fun u => decided u (by simp)) (fun c d e' ho => ?_)
      fun c d e' hpd => ?_
    · exact (hcareful.offered ho).resolve_right fun hadd => hadd.changed rfl
    · rcases pending_select he hpd with hold | ⟨rfl, rfl, rfl⟩
      · exact .inl hold
      · refine .inr ⟨settled_of_free hfree (List.mem_of_getElem? he), hwait, ?_⟩
        change Function.update F.world.shared.reg.cx e'.owner _ e'.owner = _
        rw [Function.update_self, Context.trySelect_waiting hwait]
  | store hst he =>
    refine hsc.store hb hp hh hst he (by simp) fun c d e' ho => ?_
    exact (hcareful.offered ho).resolve_right fun hadd => hadd.changed rfl
  | remove hst he hl =>
    refine leave (by rfl) (by rfl) (by rfl) (.inl rfl) (fun c d hcd => ?_) hl
    have hne : ¬ (c = s.chan ∧ d = h.side) := by
      rintro ⟨rfl, rfl⟩
      exact hcd ⟨rfl, hside⟩
    simp only [Shared.apply, setReg, (Registry.setWaker_of_ne _ hne).1]
  | nobody hst he hl =>
    refine leave (by rfl) (by rfl) (by rfl) ?_ (fun c d hcd => ?_) hl
    · cases s with
      | pair c d offer =>
        simp only [Critical.nobody]
        split
        · exact .inl rfl
        · split
          · exact .inl rfl
          · exact .inr ⟨_, _, _, rfl⟩
      | _ => exact .inl rfl
    · cases s with
      | pair c₀ d₀ offer =>
        have hk := hents.zero_of_pair (hb.typed h.thread)
        have hne : ¬ (c = c₀ ∧ d = d₀) := by
          rintro ⟨rfl, rfl⟩
          exact hcd ⟨rfl, (mutexOf_zero hk).trans (mutexOf_zero hk).symm⟩
        simp only [Critical.nobody]
        split
        · rfl
        · split
          · rfl
          · simp only [Shared.apply, Registry.register, (Registry.setWaker_of_ne _ hne).1]
            rfl
      | _ => rfl
  | told hst hl => exact leave rfl rfl rfl (.inl rfl) (fun _ _ _ => rfl) hl

omit [DecidableEq Tid] in
theorem Scopes.init : Scopes kind (FineWorld.init kind : FineWorld Tid T) where
  knows := fun _ => trivial
  blank := fun _ _ => rfl
  own := fun _ _ _ _ _ _ _ ho => absurd (mem_of_offered ho) List.not_mem_nil
  pending := fun _ _ _ _ hp => absurd (mem_of_offered (.inr hp)) List.not_mem_nil

/-- **Every context is in the hands of the operation its owner is in.** -/
theorem scopes_reachable (h : (system kind).Reachable F) : Scopes kind F := by
  refine h.invariant ?_ fun F l F' hr hsc hs => ?_
  · rintro _ rfl
    exact Scopes.init
  · have hb := books_reachable hr
    have hp := packets_reachable hr
    rcases step_cases hs with ⟨t, act, th, count, ht, ha, hu, hh, -⟩ | ⟨t, s, -, hh, rfl⟩ |
      ⟨s, h, hs, hh, hi, -⟩ | ⟨c, d, rfl⟩ | ⟨now, rfl⟩
    · exact hsc.turn hb hp ht ha hu hh
    · refine hsc.idle hb (careful_enter hh) rfl rfl rfl (fun y j hy => ?_) fun _ _ => rfl
      cases hy
      cases s <;> simp [Critical.first]
    · exact hsc.inside hb hp hs hh hi
    · exact ⟨hsc.knows, hsc.blank, hsc.own, hsc.pending⟩
    · exact ⟨hsc.knows, hsc.blank, hsc.own, hsc.pending⟩

end FineWorld

end CrossbeamChannel
