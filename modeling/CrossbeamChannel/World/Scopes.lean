import CrossbeamChannel.World.Disconnect
import CrossbeamChannel.World.SectionBooks

/-!
# Who stays inside `Context::with`

A thread whose operation has been selected, and whose packet has not been provided yet, cannot
leave `Context::with`: on its stack packet nobody sets `ready` before the section is over, and
for a packet on the heap it waits until it is provided: `Frame.Next.awaits`.

`Context::with` (`context.rs` 36-64) takes the context out of a thread-local cell and resets it, so a
context belongs to one scope at a time. `Frame.inside` says which places are in such a scope, `Knows` what
a body has read from its context there, in a local variable of the source (`sel`).
-/

namespace CrossbeamChannel

variable {Tid T : Type}

/-! ## Where a thread stands -/

namespace FinishStage

/-- The packet of the rendezvous that is being completed. -/
def packet : FinishStage T → Option Nat
  | .complete | .wakeOne _ => none
  | .storeMsg p | .setReady p _ | .loadOnStack p | .waitReady p | .takeMsg p _
  | .dropPacket p _ => some p

end FinishStage

namespace Frame

/-- Inside `Context::with`. -/
def inside : Frame Tid T → Bool
  | .plain _ _ .register | .plain _ _ .abort | .plain _ _ .wait | .plain _ _ .unregister => true
  | .zero _ _ .pair => false
  | .zero _ _ _ => true
  | .select _ _ (.again _ .first) => false
  | .select _ _ (.again _ _) | .select _ _ (.register _) | .select _ _ (.abort _)
  | .select _ _ (.selected _) | .select _ _ (.deadline _ _) | .select _ _ (.wait _)
  | .select _ _ (.unregister _ _ _) | .select _ _ (.accept _) => true
  | _ => false

/-- The thread has this packet as its token. -/
def Holds (p : Nat) : Frame Tid T → Prop
  | .chosen _ tk => tk = .packet p
  | .finish _ st => st.packet = some p
  | _ => False

/-- What a thread `t` at this place knows of its context. -/
def Knows (t : Tid) (sel : Selected Tid) : Frame Tid T → Prop
  | .zero _ _ (.withdraw _ sel') | .select _ _ (.again _ (.withdraw _ sel')) =>
      sel = sel' ∧ sel ≠ .waiting ∧ ∀ op, sel ≠ .operation op
  | .select _ _ (.unregister _ _ sel') => sel = sel' ∧ sel ≠ .waiting
  | .select _ _ (.accept i) => sel = .operation ⟨t, i + 1⟩
  | _ => True

/-- The thread waits for what follows the selection of its operation: it has registered it, or
    waits for the packet on its stack. -/
def Awaits (kind : Nat → Kind T) (x : Place) (p : Nat) (f : Frame Tid T) (pr : Prog) : Prop :=
  (f.stake kind pr).made x ∨ ∃ job mode, f = .zero job mode (.waitReady p)

variable {kind : Nat → Kind T} {f g : Frame Tid T} {pr pr' : Prog} {t : Tid} {x : Place} {p : Nat}

theorem Knows.of_waiting (h : f.Knows t .waiting) (sel : Selected Tid) : f.Knows t sel := by
  unfold Knows at h ⊢
  split at h
  · exact absurd rfl h.2.1
  · exact absurd rfl h.2.1
  · exact absurd rfl h.2
  · cases h
  · trivial

/-- Who has registered something is inside `Context::with`. -/
theorem inside_of_made (h : (f.stake kind pr).made x) : f.inside = true := by
  cases f with
  | plain job mode st => cases st <;> first | rfl | exact h.elim
  | zero job mode st => cases st <;> first | rfl | exact h.elim
  | select handles timeout st =>
    cases st with
    | again i st => cases st <;> first | rfl | exact h.elim
    | _ => first | rfl | exact h.elim
  | _ => exact h.elim

theorem Awaits.inside (h : f.Awaits kind x p pr) : f.inside = true := by
  rcases h with h | ⟨job, mode, rfl⟩
  · exact inside_of_made h
  · rfl

theorem finishWith_inside (job : Job T) (tk : Token) :
    (finishWith kind job tk : Frame Tid T).inside = false := by
  rcases @finishWith_cases Tid T kind job tk with ⟨st, h⟩ | ⟨out, h⟩ <;> rw [h] <;> rfl

theorem finishWith_holds {job : Job T} {tk : Token}
    (h : (finishWith kind job tk : Frame Tid T).Holds p) : tk = .packet p := by
  unfold finishWith at h
  split at h
  · cases h
  · split at h
    · exact h.elim
    · cases h
  · split at h <;> cases h <;> rfl
  · exact h.elim

theorem choose_holds {handles : List Handle} {i : Nat} {tk : Token}
    (hc : choose handles i tk = some g) (h : g.Holds p) : tk = .packet p := by
  obtain ⟨x, -, rfl⟩ := Option.map_eq_some_iff.mp hc
  exact h

theorem choose_inside {handles : List Handle} {i : Nat} {tk : Token}
    (hc : choose handles i tk = some g) : g.inside = false := by
  obtain ⟨x, -, rfl⟩ := Option.map_eq_some_iff.mp hc
  rfl

theorem nextHandle_inside {handles : List Handle} {timeout : Timeout} {i : Nat}
    {st : Nat → SelectStage Tid} {last : Frame Tid T}
    (hst : ∀ j, (select handles timeout (st j) : Frame Tid T).inside = false)
    (hl : last.inside = false) : (nextHandle handles timeout i st last).inside = false := by
  unfold nextHandle
  split
  · exact hst _
  · exact hl

theorem nextHandle_holds {handles : List Handle} {timeout : Timeout} {i : Nat}
    {st : Nat → SelectStage Tid} {last : Frame Tid T} (hl : ¬ last.Holds p) :
    ¬ (nextHandle handles timeout i st last).Holds p := by
  unfold nextHandle
  split
  · exact id
  · exact hl

theorem roundOver_holds {handles : List Handle} {timeout : Timeout} :
    ¬ (roundOver handles timeout : Frame Tid T).Holds p := by
  unfold roundOver loopStart
  split <;> exact id

variable [DecidableEq Tid] {order : List Handle} {r : Ret Tid T}

omit [DecidableEq Tid] in
theorem retryResume_holds {handles : List Handle} {timeout : Timeout} {i : Nat} {st : RetryStage Tid}
    {r : Ret Tid T} (hr : retryResume handles timeout i st r = some g) (h : g.Holds p) :
    r = .token (.packet p) := by
  have off : ¬ g.Holds p → r = .token (.packet p) := fun hno => absurd h hno
  unfold retryResume at hr
  split at hr
  · exact congrArg _ (choose_holds hr h)
  · exact congrArg _ (choose_holds hr h)
  · cases hr
    exact off (nextHandle_holds id)
  · cases hr
    exact off id
  · cases hr
    exact off id
  · cases hr
    exact off id
  · cases hr
    exact off id
  · cases hr
    exact off id
  · cases hr
    exact off id
  · cases choose_holds hr h
  · cases hr
    exact off (nextHandle_holds id)
  · cases hr

theorem selectResume_holds {handles : List Handle} {timeout : Timeout} {st : SelectStage Tid}
    (hr : selectResume t order handles timeout st r = some g) (h : g.Holds p) :
    r = .token (.packet p) := by
  have off : ¬ g.Holds p → r = .token (.packet p) := fun hno => absurd h hno
  unfold selectResume at hr
  split at hr
  · split at hr <;> cases hr
    exact off id
  · exact congrArg _ (choose_holds hr h)
  · exact congrArg _ (choose_holds hr h)
  · exact congrArg _ (choose_holds hr h)
  · cases hr
    exact off (nextHandle_holds id)
  · exact retryResume_holds hr h
  · cases hr
    exact off id
  · cases hr
    exact off id
  · cases hr
    exact off id
  · cases hr
    refine off ?_
    split
    · exact nextHandle_holds id
    · exact id
  · cases hr
    exact off (nextHandle_holds id)
  · cases hr
    exact off id
  · cases hr
    refine off ?_
    unfold selectedNow
    repeat' split
    all_goals first | exact id | exact roundOver_holds
  · cases hr
    exact off roundOver_holds
  · cases hr
    refine off ?_
    unfold nowStart loopStart
    repeat' split
    all_goals exact id
  · split at hr <;> cases hr
    exact off id
  · cases hr
    refine off ?_
    split <;> exact id
  · cases hr
    refine off (nextHandle_holds ?_)
    unfold probed
    split <;> exact id
  · cases hr
    refine off ?_
    unfold rechecked
    repeat' split
    all_goals exact id
  · cases hr
    refine off ?_
    split <;> exact id
  · cases hr

/-- A packet is a token of the body that received it from its call. -/
theorem resume_holds (hr : f.resume kind t order r = some g) (h : g.Holds p) :
    f.Holds p ∨ r = .token (.packet p) := by
  cases f with
  | plain job mode st =>
    simp only [resume] at hr
    unfold plainResume plainWaited plainFailed at hr
    split at hr
    · cases hr
      exact .inr (congrArg _ (finishWith_holds h))
    all_goals
      cases hr
      repeat' split at h
      all_goals exact h.elim
  | zero job mode st =>
    simp only [resume] at hr
    unfold zeroResume unselected at hr
    split at hr
    · cases hr
      exact .inr (congrArg _ (finishWith_holds h))
    all_goals
      cases hr
      repeat' split at h
      all_goals exact h.elim
  | timer c mode =>
    simp only [resume, timerResume] at hr
    repeat' split at hr
    all_goals cases hr
    all_goals exact h.elim
  | finish job st =>
    simp only [resume] at hr
    unfold finishResume completed at hr
    repeat' split at hr
    all_goals cases hr
    all_goals first | exact h.elim | exact .inl h
  | select handles timeout st => exact .inr (selectResume_holds hr h)
  | close c d st =>
    simp only [resume, closeResume] at hr
    repeat' split at hr
    all_goals cases hr
    all_goals exact h.elim
  | done _ | chosen _ _ | panicked => cases hr

omit [DecidableEq Tid] in
theorem opFrame_holds (op : Op T) : ¬ (op.frame kind : Frame Tid T).Holds p := by
  unfold Op.frame nowStart loopStart
  repeat' split
  all_goals exact id

omit [DecidableEq Tid] in
theorem drop_holds (n c : Nat) (d : Side) :
    ¬ (if n = 1 then World.lastDropped kind c d else .done .dropped : Frame Tid T).Holds p := by
  unfold World.lastDropped
  repeat' split
  all_goals exact id

/-- Outside the sections a packet comes from the thread's own context. -/
theorem token_source {w : Shared Tid T} {act : Act Tid T} {spurious : Bool} {call : Call T}
    (hcrit : call.critical kind pr = none)
    (h : w.exec t kind call pr spurious = some (act, .ret (.token (.packet p)))) :
    (w.reg.cx t).packet = some p := by
  have start : ∀ {c d}, kind c ≠ .zero → w.start t kind c d pr spurious =
      some (act, .ret (.token (.packet p))) → (w.reg.cx t).packet = some p :=
    fun hk hs => absurd (Kind.IsZero.eq (Shared.start_token hs)) hk
  -- Only `wait_packet` gives out an address outside the sections.
  have wait : w.waitPacket t = (act, .ret (.token (.packet p))) → (w.reg.cx t).packet = some p := by
    intro hw
    obtain ⟨q, hq, hcx, -⟩ := Shared.waitPacket_token hw
    cases hq
    exact hcx
  cases call with
  | start c d =>
    refine start (fun hk => ?_) h
    simp [Call.critical, hk] at hcrit
  | retry c d =>
    have hk : kind c ≠ .zero := fun hk => by simp [Call.critical, hk] at hcrit
    simp only [Shared.exec, Shared.retry] at h
    exact start hk h
  | accept c d =>
    simp only [Shared.exec, Shared.accept] at h
    split at h
    · exact wait (Option.some.inj h)
    · exact start ‹_› h
  | waitPacket => exact wait (Option.some.inj h)
  | pair c d offer | disconnectWaker c d | disconnectZero c => cases hcrit
  | write c msg | read c | setDisconnected c =>
    obtain ⟨b, a, -, -, hrep⟩ := Shared.drive_act h
    cases a <;> cases hrep
  | register c d slot =>
    have driven : ∀ {k : BufferCall T} {pr' : Prog} {f : Answer T → Reply Tid T},
        (∀ a tk, f a ≠ .ret (.token tk)) →
        w.drive t c k pr' spurious f = some (act, .ret (.token (.packet p))) → False := by
      intro k pr' f hf hd
      obtain ⟨b, a, -, -, hrep⟩ := Shared.drive_act hd
      cases a with
      | none => cases hrep
      | some a => exact hf a _ hrep.symm
    have hconn : ∀ a tk, (Shared.connected a : Reply Tid T) ≠ .ret (.token tk) := by
      intro a tk
      cases a <;> simp [Shared.connected]
    have hready : ∀ a tk, (Shared.unready a : Reply Tid T) ≠ .ret (.token tk) := by
      intro a tk
      unfold Shared.unready
      split <;> simp
    have buffer : w.registerBuffer t c d slot pr spurious = some (act, .ret (.token (.packet p))) →
        False := by
      intro hb
      unfold Shared.registerBuffer at hb
      split at hb
      · cases hb
      · exact driven hready hb
      · exact driven hconn hb
      · cases hb
    simp only [Shared.exec, Shared.register] at h
    split at h
    · exact (driven hconn h).elim
    · exact (buffer h).elim
    · exact (buffer h).elim
    · split at h <;> cases h
    all_goals cases h
  | unregister c d slot =>
    simp only [Shared.exec, Shared.unregister, Shared.unregisterSync] at h
    repeat' split at h
    all_goals cases h
  | wakeOne c d =>
    simp only [Shared.exec, Shared.wakeOneSync] at h
    repeat' split at h
    all_goals cases h
  | state c d =>
    simp only [Shared.exec, Shared.state] at h
    repeat' split at h
    all_goals cases h
  | waitUntil deadline =>
    simp only [Shared.exec, Shared.waitUntil, Shared.orSelected] at h
    repeat' split at h
    all_goals cases h
  | waitReady q =>
    simp only [Shared.exec] at h
    split at h <;> cases h
  | recvTimer c deadline =>
    simp only [Shared.exec, Shared.recvTimer, Shared.orExpired] at h
    repeat' split at h
    all_goals cases h
  | _ => cases h

/-- The calls that change the thread's own context. -/
theorem cx_of_exec {w : Shared Tid T} {act : Act Tid T} {rep : Reply Tid T} {spurious : Bool}
    {call : Call T} (hcrit : call.critical kind pr = none)
    (h : w.exec t kind call pr spurious = some (act, rep)) (hreset : call ≠ .reset)
    (habort : call ≠ .abort) (hwait : ∀ deadline, call ≠ .waitUntil deadline) :
    (w.apply t act).reg.cx = w.reg.cx := by
  have hplain := (Shared.exec_plain hcrit h).1
  have hexp := Shared.exec_explains h
  cases act with
  | reset => exact absurd hexp.1 hreset
  | abort =>
    rcases hexp.1 with h | ⟨deadline, h⟩
    · exact absurd h habort
    · exact absurd h (hwait deadline)
  | wakeOne _ _ | disconnect _ _ | disconnectZero _ | queue _ _ _ => exact hplain.elim
  | _ => rfl

/-- A thread at this place knows nothing of its context. -/
def Blind (t : Tid) (f : Frame Tid T) : Prop := ∀ sel, f.Knows t sel

omit [DecidableEq Tid] in
theorem finishWith_blind (job : Job T) (tk : Token) :
    (finishWith kind job tk : Frame Tid T).Blind t := by
  intro sel
  rcases @finishWith_cases Tid T kind job tk with ⟨st, h⟩ | ⟨out, h⟩ <;> rw [h] <;> trivial

omit [DecidableEq Tid] in
theorem choose_blind {handles : List Handle} {i : Nat} {tk : Token}
    (h : choose handles i tk = some g) : g.Blind t := by
  obtain ⟨x, -, rfl⟩ := Option.map_eq_some_iff.mp h
  exact fun _ => trivial

omit [DecidableEq Tid] in
theorem nextHandle_blind {handles : List Handle} {timeout : Timeout} {i : Nat}
    {st : Nat → SelectStage Tid} {last : Frame Tid T}
    (hst : ∀ j, (select handles timeout (st j) : Frame Tid T).Blind t) (hl : last.Blind t) :
    (nextHandle handles timeout i st last).Blind t := by
  unfold nextHandle
  split
  · exact hst _
  · exact hl

omit [DecidableEq Tid] in
theorem roundOver_blind (handles : List Handle) (timeout : Timeout) :
    (roundOver handles timeout : Frame Tid T).Blind t := by
  intro sel
  unfold roundOver loopStart
  repeat' split
  all_goals trivial

omit [DecidableEq Tid] in
theorem zeroResume_blind {job : Job T} {mode : Mode} {st : ZeroStage Tid}
    (hst : ∀ q, st ≠ .wait q) (hr : zeroResume kind job mode st r = some g) : g.Blind t := by
  intro sel
  unfold zeroResume unselected at hr
  split at hr
  · cases hr
    exact finishWith_blind _ _ sel
  · cases hr
    trivial
  · cases hr
    trivial
  · exact absurd rfl (hst _)
  · exact absurd rfl (hst _)
  · exact absurd rfl (hst _)
  all_goals
    cases hr
    repeat' split
    all_goals trivial

/-- The step at this place does not tell the thread about its context. -/
def Untold : SelectStage Tid → Prop
  | .again _ (.pause _) | .abort _ | .selected _ | .wait _ | .unregister _ _ _ => False
  | _ => True

/-- The rounds of tries, and the end of an attempt to block, leave a thread with no such
    knowledge. -/
theorem selectResume_blind {handles : List Handle} {timeout : Timeout} {st : SelectStage Tid}
    (hst : Untold st) (hr : (select handles timeout st).resume kind t order r = some g) :
    g.Blind t := by
  simp only [resume] at hr
  unfold selectResume at hr
  split at hr
  · split at hr <;> cases hr
    exact fun _ => trivial
  · exact choose_blind hr
  · exact choose_blind hr
  · exact choose_blind hr
  · cases hr
    exact nextHandle_blind (fun _ _ => trivial) fun _ => trivial
  · unfold retryResume at hr
    split at hr
    · exact choose_blind hr
    · exact choose_blind hr
    · cases hr
      exact nextHandle_blind (fun _ _ => trivial) fun _ => trivial
    · cases hr
      exact fun _ => trivial
    · exact hst.elim
    · exact hst.elim
    · exact hst.elim
    · cases hr
      exact fun _ => trivial
    · cases hr
      exact fun _ => trivial
    · exact choose_blind hr
    · cases hr
      exact nextHandle_blind (fun _ _ => trivial) fun _ => trivial
    · cases hr
  · cases hr
    exact fun _ => trivial
  · cases hr
    intro sel
    split <;> trivial
  · exact hst.elim
  · exact hst.elim
  · cases hr
    exact nextHandle_blind (fun _ _ => trivial) fun _ => trivial
  · exact hst.elim
  · exact hst.elim
  · cases hr
    exact roundOver_blind _ _
  · cases hr
    intro sel
    unfold nowStart loopStart
    repeat' split
    all_goals trivial
  · split at hr <;> cases hr
    exact fun _ => trivial
  · cases hr
    intro sel
    split <;> trivial
  · cases hr
    refine nextHandle_blind (fun _ _ => trivial) fun sel => ?_
    unfold probed
    split <;> trivial
  · cases hr
    intro sel
    unfold rechecked
    repeat' split
    all_goals trivial
  · cases hr
    intro sel
    split <;> trivial
  · cases hr

/-- What `run_select` knows of its context after a step. -/
theorem Next.knows_select {w : Shared Tid T} {act : Act Tid T} {handles : List Handle}
    {timeout : Timeout} {st : SelectStage Tid}
    (hn : Next kind w t (.select handles timeout st) pr act g pr')
    (hcrit : (select handles timeout st : Frame Tid T).call.critical kind pr = none)
    (hk : (select handles timeout st : Frame Tid T).Knows t (w.reg.cx t).select) :
    g.Knows t ((w.apply t act).reg.cx t).select := by
  -- A method of a handle leaves the context alone.
  have same : ∀ {spurious rep i} {m : Handle → Call T}, (onHandle handles i m).critical kind pr = none →
      w.exec t kind (onHandle handles i m) pr spurious = some (act, rep) → (∀ x, m x ≠ .reset) →
      (∀ x, m x ≠ .abort) → (∀ x deadline, m x ≠ .waitUntil deadline) →
      (w.apply t act).reg.cx = w.reg.cx := by
    intro spurious rep i m hcrit he hreset habort hwait
    obtain ⟨x, hx, he'⟩ := onHandle_exec he
    rw [onHandle, hx] at hcrit
    exact cx_of_exec hcrit he' (hreset x) (habort x) (hwait x)
  cases st with
  | again i rst =>
    cases rst with
    | pause q =>
      cases hn with
      | more he => cases he
      | ret he hr =>
        rename_i r
        cases r with
        | selected sel =>
          obtain ⟨hsel, hne⟩ := Shared.abort_selected (Option.some.inj he)
          cases sel <;> cases hr
          · trivial
          · exact ⟨hsel, by rw [hsel]; simp, by rw [hsel]; simp⟩
          · exact ⟨hsel, by rw [hsel]; simp, by rw [hsel]; simp⟩
          · trivial
        | _ => cases hr
    | withdraw q sel =>
      cases hn with
      | more he =>
        obtain ⟨x, -, he'⟩ := onHandle_exec he
        cases he'
      | ret he hr =>
        refine selectResume_blind ?_ hr _
        trivial
    | _ =>
      cases hn with
      | more he => trivial
      | ret he hr =>
        refine selectResume_blind ?_ hr _
        trivial
  | abort i =>
    cases hn with
    | more he => cases he
    | ret he hr =>
      rename_i r
      cases r with
      | selected sel =>
        cases hr
        obtain ⟨hsel, hne⟩ := Shared.abort_selected (Option.some.inj he)
        exact ⟨hsel, by rwa [hsel]⟩
      | _ => cases hr
  | selected i =>
    cases hn with
    | more he => cases he
    | ret he hr =>
      rename_i r
      cases r with
      | selected sel =>
        cases he
        cases hr
        split
        · refine nextHandle_blind (fun j sel => ?_) (fun sel => ?_) _
          · trivial
          · trivial
        · exact ⟨rfl, ‹_›⟩
      | _ => cases hr
  | wait deadline =>
    cases hn with
    | more he => trivial
    | ret he hr =>
      rename_i r
      cases r with
      | selected sel =>
        cases hr
        obtain ⟨hsel, hne⟩ := Shared.waitUntil_selected he
        exact ⟨hsel, by rwa [hsel]⟩
      | _ => cases hr
  | unregister i count sel =>
    obtain ⟨hsel, hne⟩ := hk
    cases hn with
    | more he =>
      rw [same hcrit he (by simp) (by simp) (by simp)]
      exact ⟨hsel, hne⟩
    | ret he hr =>
      rename_i r
      rw [same hcrit he (by simp) (by simp) (by simp), hsel]
      rw [hsel] at hne
      cases r with
      | removed e =>
        cases hr
        split
        · exact ⟨rfl, hne⟩
        · unfold selectedNow
          split
          · exact absurd rfl hne
          · split
            · rename_i op hop
              obtain ⟨ht, hpos, -⟩ := hop
              change Selected.operation op = .operation ⟨t, op.slot - 1 + 1⟩
              rw [Nat.sub_add_cancel hpos, ← ht]
            · exact roundOver_blind _ _ _
          · exact roundOver_blind _ _ _
      | _ => cases hr
  | accept i =>
    cases hn with
    | more he =>
      rw [same hcrit he (by simp) (by simp) (by simp)]
      exact hk
    | ret he hr =>
        refine selectResume_blind ?_ hr _
        trivial
  | _ =>
    cases hn with
    | more he => trivial
    | ret he hr =>
        refine selectResume_blind ?_ hr _
        trivial

/-- What a thread knows of its context after a step. -/
theorem Next.knows {w : Shared Tid T} {act : Act Tid T} (hn : Next kind w t f pr act g pr')
    (hcrit : f.call.critical kind pr = none) (hk : f.Knows t (w.reg.cx t).select) :
    g.Knows t ((w.apply t act).reg.cx t).select := by
  have hstays := hn.stays
  cases f with
  | zero job mode st =>
    cases st with
    | wait p =>
      cases hn with
      | more he => trivial
      | ret he hr =>
        rename_i r
        cases r with
        | selected sel =>
          obtain ⟨hsel, hne⟩ := Shared.waitUntil_selected he
          cases sel <;> cases hr
          · trivial
          · exact ⟨hsel, by rw [hsel]; simp, by rw [hsel]; simp⟩
          · exact ⟨hsel, by rw [hsel]; simp, by rw [hsel]; simp⟩
          · trivial
        | _ => cases hr
    | withdraw p sel =>
      cases hn with
      | more he => cases he
      | ret he hr => exact zeroResume_blind (by simp) hr _
    | _ =>
      cases hn with
      | more he => trivial
      | ret he hr => exact zeroResume_blind (by simp) hr _
  | select handles timeout st => exact hn.knows_select hcrit hk
  | _ => cases hstays <;> trivial

/-- No step of its own changes a context that is decided, but for the reset. -/
theorem cx_of_decided {w : Shared Tid T} {act : Act Tid T} {rep : Reply Tid T} {spurious : Bool}
    {call : Call T} (hcrit : call.critical kind pr = none)
    (h : w.exec t kind call pr spurious = some (act, rep)) (hreset : call ≠ .reset)
    (hne : (w.reg.cx t).select ≠ .waiting) : (w.apply t act).reg.cx = w.reg.cx := by
  have hplain := (Shared.exec_plain hcrit h).1
  have hexp := Shared.exec_explains h
  cases act with
  | reset => exact absurd hexp.1 hreset
  | abort =>
    simp only [Shared.apply, Registry.abort, Context.trySelect_decided hne, Function.update_eq_self]
  | wakeOne _ _ | disconnect _ _ | disconnectZero _ | queue _ _ _ => exact hplain.elim
  | _ => rfl

theorem accept_zero {w : Shared Tid T} {spurious : Bool} {h : Handle} (hz : (kind h.chan).IsZero) :
    w.exec t kind (.accept h.chan h.side) pr spurious = some (w.waitPacket t) := by
  simp only [Shared.exec, Shared.accept, hz.eq]

omit [DecidableEq Tid] in
theorem waitPacket_ne_failed {w : Shared Tid T} {act : Act Tid T} :
    w.waitPacket t ≠ (act, .ret .failed) := by
  unfold Shared.waitPacket
  split <;> simp

/-- `run_select` stays registered after it has been selected, until it has the packet or
    accepts. -/
theorem Next.stays_registered {w : Shared Tid T} {act : Act Tid T} {handles : List Handle}
    {timeout : Timeout} {st : SelectStage Tid}
    (hn : Next kind w t (.select handles timeout st) pr act g pr')
    (hk : (select handles timeout st : Frame Tid T).Knows t (w.reg.cx t).select)
    (hsel : (w.reg.cx t).select = .operation (x.oper t))
    (hmade : ((select handles timeout st : Frame Tid T).stake kind pr).made x)
    (hpacket : ∀ i, st ≠ .again i .packet) (haccept : ∀ i, st ≠ .accept i) :
    (g.stake kind pr').made x := by
  have hne : (w.reg.cx t).select ≠ .waiting := by rw [hsel]; simp
  cases st with
  | again i st =>
    cases st with
    | pause q =>
      cases hn with
      | more he => cases he
      | ret he hr =>
        obtain ⟨rfl, hrep⟩ := Prod.mk.inj (Option.some.inj he)
        rw [if_neg hne, hsel] at hrep
        cases hrep
        cases hr
        exact hmade
    | withdraw q sel => exact absurd hsel (hk.2.2 _)
    | packet => exact absurd rfl (hpacket i)
    | first | dropPacket _ _ => exact hmade.elim
  | register i =>
    have hup : UpTo kind handles (i + 1) x := by
      refine UpTo.mono ?_ hmade
      split <;> omega
    cases hn with
    | more he =>
      obtain ⟨h, hh, he'⟩ := onHandle_exec he
      change UpTo kind handles (if pr' = .start then i else i + 1) x
      split
      · rename_i hpr
        refine (UpTo.succ_iff.mp hup).resolve_right ?_
        rintro ⟨h', hh', hq, -⟩
        rw [hh] at hh'
        cases hh'
        exact Shared.register_more he' hq hpr
      · exact hup
    | ret he hr =>
      rename_i r
      cases r with
      | flag ok =>
        cases hr
        cases ok <;> exact hup
      | _ => cases hr
  | abort i =>
    cases hn with
    | more he => cases he
    | ret he hr =>
      rename_i r
      cases r with
      | selected sel =>
        cases hr
        exact hmade
      | _ => cases hr
  | selected i =>
    cases hn with
    | more he => cases he
    | ret he hr =>
      cases he
      cases hr
      rw [if_neg hne]
      exact hmade
  | deadline i acc =>
    cases hn with
    | more he => exact hmade
    | ret he hr =>
      rename_i r
      cases r with
      | instant y =>
        cases hr
        unfold nextHandle
        split <;> exact hmade
      | _ => cases hr
  | wait deadline =>
    cases hn with
    | more he => exact hmade
    | ret he hr =>
      rename_i r
      cases r with
      | selected sel =>
        cases hr
        exact hmade
      | _ => cases hr
  | unregister i count sel =>
    cases hn with
    | more he => exact hmade
    | ret he hr =>
      rename_i r
      cases r with
      | removed e =>
        cases hr
        split
        · exact hmade
        · rw [← hk.1, hsel]
          have hslot := UpTo.slot_pos hmade.full
          simp only [selectedNow]
          rw [if_pos ⟨trivial, hslot.1, hslot.2⟩]
          exact hmade.full
      | _ => cases hr
  | accept i => exact absurd rfl (haccept i)
  | _ => exact hmade.elim

/-- `run_select` goes on waiting for what follows the selection of its operation, until it leaves
    `Context::with`: on a zero channel, with the packet. -/
theorem Next.awaits_select {w : Shared Tid T} {act : Act Tid T} {handles : List Handle}
    {timeout : Timeout} {st : SelectStage Tid}
    (hn : Next kind w t (.select handles timeout st) pr act g pr')
    (hk : (select handles timeout st : Frame Tid T).Knows t (w.reg.cx t).select)
    (hsel : (w.reg.cx t).select = .operation (x.oper t))
    (hmade : ((select handles timeout st : Frame Tid T).stake kind pr).made x) :
    (g.stake kind pr').made x ∨ (g.Calm kind ∧ ((kind x.chan).IsZero → ∃ p h,
      (w.reg.cx t).packet = some p ∧ g = .chosen h (.packet p) ∧ h.chan = x.chan ∧
        h.side = x.side)) := by
  by_cases hpacket : ∃ i, st = .again i .packet
  · obtain ⟨i, rfl⟩ := hpacket
    cases hn with
    | more he => exact .inl hmade
    | ret he hr =>
      rename_i r
      cases r with
      | token tk =>
        obtain ⟨p, rfl, hp, -⟩ := Shared.waitPacket_token (Option.some.inj he)
        obtain ⟨h, hh, rfl⟩ := Option.map_eq_some_iff.mp hr
        obtain ⟨h', hh', rfl⟩ := hmade
        obtain rfl : h = h' := Option.some.inj (hh.symm.trans hh')
        exact .inr ⟨fun _ => rfl, fun _ => ⟨p, h, hp, rfl, rfl, rfl⟩⟩
      | _ => cases hr
  · by_cases haccept : ∃ i, st = .accept i
    · obtain ⟨i, rfl⟩ := haccept
      cases hn with
      | more he => exact .inl hmade
      | ret he hr =>
        right
        -- The selected operation is the one it accepts.
        obtain ⟨j, h, -, hj, -, rfl⟩ := hmade
        have heq : Selected.operation (Place.oper ⟨h.chan, h.side, j + 1⟩ t) = .operation ⟨t, i + 1⟩ :=
          hsel.symm.trans hk
        simp only [Selected.operation.injEq, Operation.mk.injEq, true_and, Nat.add_right_cancel_iff] at heq
        subst heq
        obtain ⟨h', hh', he'⟩ := onHandle_exec he
        obtain rfl : h = h' := Option.some.inj (hj.symm.trans hh')
        rename_i r
        cases r with
        | token tk =>
          refine ⟨choose_calm hr, fun hz => ?_⟩
          rw [accept_zero hz] at he'
          obtain ⟨p, rfl, hp, -⟩ := Shared.waitPacket_token (Option.some.inj he')
          obtain ⟨h', hh', rfl⟩ := Option.map_eq_some_iff.mp hr
          obtain rfl : h = h' := Option.some.inj (hj.symm.trans hh')
          exact ⟨p, h, hp, rfl, rfl, rfl⟩
        | failed =>
          cases hr
          refine ⟨roundOver_calm _ _, fun hz => ?_⟩
          rw [accept_zero hz] at he'
          exact absurd (Option.some.inj he') waitPacket_ne_failed
        | _ => cases hr
    · exact .inl (hn.stays_registered hk hsel hmade (fun i h => hpacket ⟨i, h⟩)
        fun i h => haccept ⟨i, h⟩)

/-- **A thread whose operation has been selected, and whose packet has not been provided yet,
    goes on waiting.** -/
theorem Next.awaits {w : Shared Tid T} {act : Act Tid T} (hn : Next kind w t f pr act g pr')
    (hcrit : f.call.critical kind pr = none) (hf : f.Typed kind) (hz : (kind x.chan).IsZero)
    (hk : f.Knows t (w.reg.cx t).select) (hsel : (w.reg.cx t).select = .operation (x.oper t))
    (hnull : (w.reg.cx t).packet = none) (hready : (w.packet p).ready = false)
    (hown : ∀ job mode q, f = .zero job mode (.wait q) → q = p) (ha : f.Awaits kind x p pr) :
    g.Awaits kind x p pr' ∧ (w.apply t act).reg.cx = w.reg.cx := by
  have hne : (w.reg.cx t).select ≠ .waiting := by rw [hsel]; simp
  -- Its context is decided, and it does not reset it from inside the scope.
  have hkeep : (w.apply t act).reg.cx = w.reg.cx := by
    obtain ⟨spurious, rep, he, -⟩ := hn.exec
    refine cx_of_decided hcrit he (fun hreset => ?_) hne
    have hcalm : f.Calm kind := calm_of_call (.inr (.inr (.inr hreset)))
    rcases ha with ha | ⟨job, mode, rfl⟩
    · rw [hcalm pr] at ha
      exact ha
    · cases hreset
  refine ⟨?_, hkeep⟩
  rcases ha with hmade | ⟨job, mode, rfl⟩
  · cases f with
    | plain job mode st =>
      have hx : Alone kind job.chan job.side x := by
        cases st <;> first | exact hmade.2 | exact hmade | exact hmade.elim
      obtain ⟨-, rfl⟩ := hx
      exact absurd hz (Kind.Buffered.not_zero hf)
    | zero job mode st =>
      cases st with
      | wait q =>
        obtain rfl := hown job mode q rfl
        cases hn with
        | more he => exact .inl hmade
        | ret he hr =>
          rename_i r
          cases r with
          | selected sel =>
            have hthat := (Shared.waitUntil_selected he).1
            rw [hkeep, hsel] at hthat
            subst hthat
            cases hr
            exact .inr ⟨job, mode, rfl⟩
          | _ => cases hr
      | withdraw q sel => exact absurd hsel (hk.2.2 _)
      | _ => exact hmade.elim
    | select handles timeout st =>
      refine .inl ((hn.awaits_select hk hsel hmade).resolve_right fun h => ?_)
      obtain ⟨p, -, hp, -⟩ := h.2 hz
      rw [hnull] at hp
      cases hp
    | _ => exact hmade.elim
  -- On its own stack it waits until the flag is set.
  · cases hn with
    | more he => exact .inr ⟨job, mode, rfl⟩
    | ret he hr => simp [call, zeroCall, Shared.exec, hready] at he

end Frame

end CrossbeamChannel
