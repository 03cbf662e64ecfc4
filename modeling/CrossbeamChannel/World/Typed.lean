import CrossbeamChannel.World.Handles

/-!
# Flavors and places

A body only ever comes to a place that belongs to the flavor of its channel, and a token is
one the flavor gives out.

In the source the flavor is a variant of `SenderFlavor` and `ReceiverFlavor` (`channel.rs`), and a call
goes to the methods of that variant; the token is a record that has a field for each flavor
(`select.rs` 21-28), of which only one is meaningful. Here it is one inductive type, and `Frame.Typed`
says which of its forms a body can have. It is an invariant rather than an index of `Frame`, so that a
place is a plain value and `resume` a total function.
-/

namespace CrossbeamChannel

variable {Tid T : Type}

namespace Kind

/-- The array and list flavors. -/
def Buffered : Kind T → Prop
  | .array _ _ | .list => True
  | _ => False

def IsZero : Kind T → Prop
  | .zero => True
  | _ => False

theorem IsZero.eq {k : Kind T} (h : k.IsZero) : k = .zero := by
  cases k <;> first | rfl | exact h.elim

theorem Buffered.not_zero {k : Kind T} (h : k.Buffered) : ¬ k.IsZero := by
  cases k <;> first | exact id | exact h.elim

end Kind

/-- The flavor gives out such tokens. -/
def Token.Suits : Token → Kind T → Prop
  | .slot, k => k.Buffered
  | .null, k => k.Buffered ∨ k.IsZero
  | .packet _, k => k.IsZero
  | .instant _, k => ¬ k.Buffered ∧ ¬ k.IsZero

namespace Frame

/-- The place belongs to the flavor of the channel. -/
def Typed (kind : Nat → Kind T) : Frame Tid T → Prop
  | .plain job _ _ => (kind job.chan).Buffered
  | .zero job _ _ => (kind job.chan).IsZero
  | .timer c _ => ¬ (kind c).Buffered ∧ ¬ (kind c).IsZero
  | .finish job .complete | .finish job (.wakeOne _) => (kind job.chan).Buffered
  | .finish job _ => (kind job.chan).IsZero
  | .select _ _ (.again _ .first) => True
  | .select handles _ (.again i _) => ∃ x, handles[i]? = some x ∧ (kind x.chan).IsZero
  | .chosen x tk => tk.Suits (kind x.chan)
  | .close c _ .zero => (kind c).IsZero
  | .close c _ _ => (kind c).Buffered
  | .select _ _ _ | .done _ | .panicked => True

end Frame

namespace Shared

variable [DecidableEq Tid] {w : Shared Tid T} {t : Tid} {kind : Nat → Kind T}
  {act : Act Tid T} {c : Nat} {d : Side} {pr : Prog} {spurious : Bool} {tk : Token}

theorem pair_token {offer : Option (Packet T)} (h : w.pair t c d offer = (act, .ret (.token tk)))
    {k : Kind T} (hk : k.IsZero) : tk.Suits k := by
  unfold pair at h
  split at h
  · cases h
    rename_i e he
    cases e.packet with
    | none => exact .inr hk
    | some p => exact hk
  · split at h
    · cases h
      exact .inr hk
    · split at h <;> cases h

theorem start_token (h : w.start t kind c d pr spurious = some (act, .ret (.token tk))) :
    tk.Suits (kind c) := by
  have driven : (kind c).Buffered →
      w.drive t c (.start d) .start spurious started = some (act, .ret (.token tk)) →
      tk.Suits (kind c) := by
    intro hb hd
    obtain ⟨b, a, -, -, hrep⟩ := drive_act hd
    cases a with
    | none => cases hrep
    | some a =>
      cases a <;> cases hrep
      · exact hb
      · exact .inl hb
  unfold start at h
  cases hk : kind c with
  | array ch built =>
    rw [hk] at h driven
    exact driven trivial h
  | list =>
    rw [hk] at h driven
    exact driven trivial h
  | zero =>
    rw [hk] at h
    exact pair_token (Option.some.inj h) trivial
  | after deliveryTime =>
    rw [hk] at h
    dsimp only [tryAfter] at h
    repeat' split at h
    all_goals cases h
    exact ⟨id, id⟩
  | tick firstTick duration =>
    rw [hk] at h
    dsimp only [tryTick] at h
    split at h <;> cases h
    exact ⟨id, id⟩
  | never =>
    rw [hk] at h
    cases h

theorem retry_token (h : w.retry t kind c d pr spurious = some (act, .ret (.token tk))) :
    tk.Suits (kind c) := by
  unfold retry at h
  split at h
  · rename_i hk
    exact pair_token (Option.some.inj h) (by rw [hk]; trivial)
  · exact start_token h

/-- Only a zero channel queues packets. -/
theorem retry_queued {p : Nat} (h : w.retry t kind c d pr spurious = some (act, .ret (.queued p))) :
    (kind c).IsZero := by
  unfold retry at h
  split at h
  · rename_i hk
    rw [hk]
    trivial
  · exact absurd rfl (start_reply h p)

omit [DecidableEq Tid] in
theorem waitPacket_token (h : w.waitPacket t = (act, .ret (.token tk))) :
    ∃ p, tk = .packet p ∧ (w.reg.cx t).packet = some p ∧ act = .silent := by
  simp only [waitPacket] at h
  split at h <;> cases h
  exact ⟨_, rfl, ‹_›, rfl⟩

theorem accept_token (h : w.accept t kind c d pr spurious = some (act, .ret (.token tk))) :
    tk.Suits (kind c) := by
  unfold accept at h
  split at h
  · rename_i hk
    rw [hk]
    obtain ⟨p, rfl, -⟩ := waitPacket_token (Option.some.inj h)
    trivial
  · exact start_token h

end Shared

namespace Frame

variable {kind : Nat → Kind T}

theorem finishWith_typed {job : Job T} {tk : Token} (h : tk.Suits (kind job.chan)) :
    (finishWith kind job tk : Frame Tid T).Typed kind := by
  unfold finishWith
  split
  · exact h
  · split
    · trivial
    · rename_i hk
      rcases h with h | h
      · exact h
      · exact absurd h.eq hk
  · split <;> exact h
  · trivial

theorem loopStart_typed (handles : List Handle) (timeout : Timeout) :
    (loopStart handles timeout : Frame Tid T).Typed kind := by
  unfold loopStart
  split <;> trivial

theorem nowStart_typed (handles : List Handle) : (nowStart handles : Frame Tid T).Typed kind := by
  unfold nowStart
  split <;> trivial

theorem roundOver_typed (handles : List Handle) (timeout : Timeout) :
    (roundOver handles timeout : Frame Tid T).Typed kind := by
  unfold roundOver
  split
  · trivial
  · exact loopStart_typed _ _
  · trivial

theorem nextHandle_typed {handles : List Handle} {timeout : Timeout} {i : Nat}
    {g : Nat → SelectStage Tid} {last : Frame Tid T}
    (hg : ∀ j, (select handles timeout (g j) : Frame Tid T).Typed kind) (hl : last.Typed kind) :
    (nextHandle handles timeout i g last).Typed kind := by
  unfold nextHandle
  split
  · exact hg _
  · exact hl

variable [DecidableEq Tid] {w : Shared Tid T} {t : Tid} {act : Act Tid T} {f g : Frame Tid T}
  {pr pr' : Prog}

theorem onHandle_exec {handles : List Handle} {i : Nat} {call : Handle → Call T} {spurious : Bool}
    {rep : Act Tid T × Reply Tid T}
    (h : w.exec t kind (onHandle handles i call) pr spurious = some rep) :
    ∃ x, handles[i]? = some x ∧ w.exec t kind (call x) pr spurious = some rep := by
  unfold onHandle at h
  split at h
  · exact ⟨_, ‹_›, h⟩
  · cases h

omit [DecidableEq Tid] in
theorem choose_typed {handles : List Handle} {i : Nat} {tk : Token} {x : Handle}
    (h : choose handles i tk = some g) (hx : handles[i]? = some x) (hs : tk.Suits (kind x.chan)) :
    g.Typed kind := by
  obtain ⟨y, hy, rfl⟩ := Option.map_eq_some_iff.mp h
  obtain rfl : x = y := Option.some.inj (hx.symm.trans hy)
  exact hs

omit [DecidableEq Tid] in
/-- A round of tries goes on with the next handle. -/
theorem next_typed (handles : List Handle) (timeout : Timeout) (i : Nat) :
    (nextHandle handles timeout i (.again · .first) (select handles timeout .reset) :
      Frame Tid T).Typed kind :=
  nextHandle_typed (fun _ => trivial) trivial

theorem Next.typed_plain {job : Job T} {mode : Mode} {st : PlainStage}
    (h : Next kind w t (.plain job mode st) pr act g pr') (hf : (kind job.chan).Buffered) :
    g.Typed kind := by
  have waited : ∀ woken, (plainWaited job mode woken : Frame Tid T).Typed kind := by
    intro woken
    unfold plainWaited
    split <;> exact hf
  cases h with
  | more he => exact hf
  | ret he hr =>
    simp only [resume, plainResume] at hr
    split at hr
    · cases hr
      exact finishWith_typed (Shared.start_token he)
    · cases hr
      unfold plainFailed
      split
      · trivial
      · trivial
      · split <;> exact hf
    · cases hr
      exact hf
    · cases hr
      exact hf
    · cases hr
      exact hf
    · cases hr
      trivial
    · cases hr
      exact waited _
    · cases hr
      exact hf
    · cases hr
      trivial
    · cases hr
      exact waited _
    · cases hr
      split
      · trivial
      · exact hf
    · cases hr

omit [DecidableEq Tid] in
theorem unselected_typed (sel : Selected Tid) (msg : Option T) : (unselected sel msg).Typed kind := by
  unfold unselected
  split <;> trivial

theorem Next.typed_zero {job : Job T} {mode : Mode} {st : ZeroStage Tid}
    (h : Next kind w t (.zero job mode st) pr act g pr') (hf : (kind job.chan).IsZero) :
    g.Typed kind := by
  cases h with
  | more he => exact hf
  | ret he hr =>
    simp only [resume, zeroResume] at hr
    split at hr
    · cases hr
      exact finishWith_typed (Shared.pair_token (Option.some.inj he) hf)
    · cases hr
      trivial
    · cases hr
      exact hf
    · cases hr
      trivial
    · cases hr
      exact hf
    · cases hr
      exact hf
    · cases hr
      trivial
    · cases hr
      split
      · exact hf
      · exact unselected_typed _ _
    · cases hr
      trivial
    · cases hr
      exact unselected_typed _ _
    · cases hr
      split
      · trivial
      · exact hf
    · cases hr
      trivial
    · cases hr
      trivial
    · cases hr

omit [DecidableEq Tid] in
theorem finishResume_typed {job : Job T} {st : FinishStage T} {r : Ret Tid T}
    (h : finishResume kind job st r = some g) (hf : (finish job st : Frame Tid T).Typed kind) :
    g.Typed kind := by
  unfold finishResume completed at h
  repeat' split at h
  all_goals cases h
  all_goals trivial

/-- The second round of tries comes to its pause only on zero channels. -/
theorem Next.typed_again {handles : List Handle} {timeout : Timeout} {i : Nat}
    {st : RetryStage Tid} (h : Next kind w t (.select handles timeout (.again i st)) pr act g pr')
    (hf : (select handles timeout (.again i st) : Frame Tid T).Typed kind) : g.Typed kind := by
  have typed : ∀ {st : RetryStage Tid}, (∃ x, handles[i]? = some x ∧ (kind x.chan).IsZero) →
      (select handles timeout (.again i st) : Frame Tid T).Typed kind := by
    intro st hx
    cases st <;> trivial
  cases h with
  | more he => exact hf
  | ret he hr =>
    simp only [resume, selectResume] at hr
    unfold retryResume at hr
    split at hr
    · obtain ⟨x, hx, he⟩ := onHandle_exec he
      exact choose_typed hr hx (Shared.retry_token he)
    · obtain ⟨x, hx, hk⟩ := hf
      obtain ⟨p, rfl, -⟩ := Shared.waitPacket_token (Option.some.inj he)
      exact choose_typed hr hx hk
    · cases hr
      exact next_typed _ _ _
    · cases hr
      obtain ⟨x, hx, he⟩ := onHandle_exec he
      exact typed ⟨x, hx, Shared.retry_queued he⟩
    · cases hr
      trivial
    · cases hr
      exact typed hf
    · cases hr
      exact typed hf
    · cases hr
      trivial
    · cases hr
      exact typed hf
    · obtain ⟨x, hx, hk⟩ := hf
      exact choose_typed hr hx (.inr hk)
    · cases hr
      exact next_typed _ _ _
    · cases hr

theorem Next.typed_select {handles : List Handle} {timeout : Timeout} {st : SelectStage Tid}
    (h : Next kind w t (.select handles timeout st) pr act g pr')
    (hf : (select handles timeout st : Frame Tid T).Typed kind) : g.Typed kind := by
  cases h with
  | more he => exact hf
  | ret he hr =>
    have hr' := hr
    simp only [resume] at hr
    unfold selectResume at hr
    split at hr
    · split at hr <;> cases hr
      trivial
    · obtain ⟨x, hx, he⟩ := onHandle_exec he
      exact choose_typed hr hx (Shared.start_token he)
    · obtain ⟨x, hx, he⟩ := onHandle_exec he
      exact choose_typed hr hx (Shared.accept_token he)
    · obtain ⟨x, hx, he⟩ := onHandle_exec he
      exact choose_typed hr hx (Shared.start_token he)
    · cases hr
      exact nextHandle_typed (fun _ => trivial) trivial
    · exact (Next.ret he hr').typed_again hf
    · cases hr
      trivial
    · cases hr
      split <;> trivial
    · cases hr
      trivial
    · cases hr
      split
      · exact nextHandle_typed (fun _ => trivial) trivial
      · trivial
    · cases hr
      exact nextHandle_typed (fun _ => trivial) trivial
    · cases hr
      trivial
    · cases hr
      split
      · trivial
      · unfold selectedNow
        split
        · trivial
        · split
          · trivial
          · exact roundOver_typed _ _
        · exact roundOver_typed _ _
    · cases hr
      exact roundOver_typed _ _
    · cases hr
      split
      · exact nowStart_typed _
      · exact loopStart_typed _ _
    · split at hr <;> cases hr
      trivial
    · cases hr
      split <;> trivial
    · cases hr
      refine nextHandle_typed (fun _ => trivial) ?_
      unfold probed
      split <;> trivial
    · cases hr
      unfold rechecked
      repeat' split
      all_goals trivial
    · cases hr
      split <;> trivial
    · cases hr

/-- **A step of a body keeps to the flavor of its channel.** -/
theorem Next.typed (h : Next kind w t f pr act g pr') (hf : f.Typed kind) : g.Typed kind := by
  cases f with
  | plain job mode st => exact h.typed_plain hf
  | zero job mode st => exact h.typed_zero hf
  | finish job st =>
    cases h with
    | more he => exact hf
    | ret he hr => exact finishResume_typed hr hf
  | select handles timeout st => exact h.typed_select hf
  | timer c mode =>
    cases h with
    | more he => exact hf
    | ret he hr =>
      simp only [resume, timerResume] at hr
      repeat' split at hr
      all_goals cases hr
      all_goals trivial
  | close c d st =>
    cases h with
    | more he => exact hf
    | ret he hr =>
      simp only [resume, closeResume] at hr
      repeat' split at hr
      all_goals cases hr
      all_goals trivial
  | done out => cases h with | more he => cases he | ret he => cases he
  | chosen x tk => cases h with | more he => cases he | ret he => cases he
  | panicked => cases h with | more he => cases he | ret he => cases he

end Frame

namespace World

variable [DecidableEq Tid] {kind : Nat → Kind T} {w w' : World Tid T}

omit [DecidableEq Tid] in
theorem opFrame_typed (op : Op T) : (op.frame kind : Frame Tid T).Typed kind := by
  cases op with
  | plain job mode =>
    simp only [Op.frame]
    cases hk : kind job.chan with
    | array _ _ | list | zero => simp only [Frame.Typed, hk, Kind.Buffered, Kind.IsZero]
    | after _ | tick _ _ | never =>
      simp only [Frame.Typed, hk, Kind.Buffered, Kind.IsZero, not_false_eq_true, and_self]
  | select handles timeout =>
    cases handles with
    | nil => cases timeout <;> trivial
    | cons x xs =>
      cases timeout with
      | now => exact Frame.nowStart_typed _
      | never | «at» when => exact Frame.loopStart_typed _ _

omit [DecidableEq Tid] in
theorem lastDropped_typed (c : Nat) (d : Side) :
    (lastDropped kind c d : Frame Tid T).Typed kind := by
  unfold lastDropped
  split <;> rename_i hk
  · change (kind c).Buffered
    rw [hk]
    trivial
  · change (kind c).Buffered
    rw [hk]
    trivial
  · change (kind c).IsZero
    rw [hk]
    trivial
  all_goals trivial

/-- After a turn a thread is at a place of its flavor. -/
theorem Turn.typed {t : Tid} {act : Act Tid T} {th : Thread Tid T} {count : Nat → Side → Nat}
    (ht : Turn kind w t act th count) (hf : (w.thread t).frame.Typed kind) : th.frame.Typed kind := by
  cases ht with
  | next hn => exact hn.typed hf
  | start hover huses => exact opFrame_typed _
  | complete hchosen hside =>
    rw [hchosen] at hf
    exact Frame.finishWith_typed hf
  | drop hover hpos hfree =>
    dsimp only
    split
    · exact lastDropped_typed _ _
    · trivial

/-- Every operation is at a place of its flavor. -/
theorem typed_of_reachable (h : (system kind).Reachable w) :
    ∀ t, (w.thread t).frame.Typed kind := by
  refine h.invariant (P := fun w => ∀ t, (w.thread t).frame.Typed kind) ?_ fun w l w' _ hw hs => ?_
  · rintro _ rfl t
    trivial
  · rcases step_cases hs with ⟨t, act, th, count, ht, ha⟩ | ⟨c, d, -, rfl⟩ | ⟨now, -, rfl⟩
    · intro u
      by_cases hu : u = t
      · subst hu
        rw [ha.frame]
        exact ht.typed (hw u)
      · rw [ha.others hu]
        exact hw u
    · exact hw
    · exact hw

end World

end CrossbeamChannel
