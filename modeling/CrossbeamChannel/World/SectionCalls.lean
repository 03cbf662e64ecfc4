import CrossbeamChannel.World.Sections

/-!
# Around the sections

What the calls do outside the sections that are taken apart, where the bodies enter these
sections, and where they go from their ends.

`Registry.settle` leaves out the entries that a section has selected and has yet to remove. `register` and
`unregister` need the mutex of their queue, so when they run there is no such entry in it; all other calls
outside the sections look at contexts, or at the cached length. To them the state is as if these entries
had been removed already, and the steps of the coarse machine are reused, over the settled registry.
-/

namespace CrossbeamChannel

variable {Tid T : Type}

/-- The registry without the entries that have been selected and not removed yet. -/
def Registry.settle (taken : Nat → Side → Option Nat) (r : Registry Tid) : Registry Tid :=
  let q c d : Waker Tid :=
    match taken c d with
    | some i => { r.waker c d with entries := (r.waker c d).entries.eraseIdx i }
    | none => r.waker c d
  ⟨q, fun c d => (q c d).entries.length, r.cx⟩

namespace Registry

variable {r : Registry Tid} {taken : Nat → Side → Option Nat} {c : Nat} {d : Side}

theorem settle_waker (h : taken c d = none) : (r.settle taken).waker c d = r.waker c d := by
  simp only [settle, h]

theorem settle_taken {i : Nat} (h : taken c d = some i) :
    ((r.settle taken).waker c d).entries = (r.waker c d).entries.eraseIdx i := by
  simp only [settle, h]

theorem mem_settle {e : Entry Tid} (h : e ∈ ((r.settle taken).waker c d).entries) :
    e ∈ (r.waker c d).entries := by
  cases htk : taken c d with
  | none => rwa [settle_waker htk] at h
  | some i =>
    rw [settle_taken htk] at h
    exact List.mem_of_mem_eraseIdx h

theorem settle_count : ((r.settle taken).waker c d).registerCount = (r.waker c d).registerCount := by
  simp only [settle]
  split <;> rfl

/-- A settled registry is known by its queues and contexts. -/
theorem settle_ext {r' : Registry Tid} {taken' : Nat → Side → Option Nat} (hcx : r.cx = r'.cx)
    (hq : ∀ c d, (r.settle taken).waker c d = (r'.settle taken').waker c d) :
    r.settle taken = r'.settle taken' := by
  have hlen : ∀ c d, (r.settle taken).len c d = (r'.settle taken').len c d := by
    intro c d
    change ((r.settle taken).waker c d).entries.length = ((r'.settle taken').waker c d).entries.length
    rw [hq]
  simp only [settle, mk.injEq] at hq hlen ⊢
  exact ⟨funext fun c => funext fun d => hq c d, funext fun c => funext fun d => hlen c d, hcx⟩

theorem settle_setWaker {w : Waker Tid} (h : taken c d = none) :
    (r.setWaker c d w).settle taken = (r.settle taken).setWaker c d w := by
  have hq : ∀ c' d', ((r.setWaker c d w).settle taken).waker c' d' =
      ((r.settle taken).setWaker c d w).waker c' d' := by
    intro c' d'
    by_cases hcd : c' = c ∧ d' = d
    · obtain ⟨rfl, rfl⟩ := hcd
      rw [settle_waker h, (setWaker_self c' d' w).1, (setWaker_self c' d' w).1]
    · rw [(setWaker_of_ne w hcd).1]
      simp only [settle, (setWaker_of_ne w hcd).1]
  have hlen : ∀ c' d', ((r.setWaker c d w).settle taken).len c' d' =
      ((r.settle taken).setWaker c d w).len c' d' := by
    intro c' d'
    rw [setWaker_len (fun _ _ => rfl), ← hq]
    rfl
  simp only [settle, setWaker, mk.injEq] at hq hlen ⊢
  exact ⟨funext fun c' => funext fun d' => hq c' d', funext fun c' => funext fun d' => hlen c' d', trivial⟩

/-- Erasing an entry by its index. -/
theorem mem_eraseIdx {es : List (Entry Tid)} {i : Nat} {e x : Entry Tid}
    (hnodup : (es.map Entry.oper).Nodup) (he : es[i]? = some e) :
    x ∈ es.eraseIdx i ↔ x ∈ es ∧ x.oper ≠ e.oper := by
  obtain ⟨hi, rfl⟩ := List.getElem?_eq_some_iff.mp he
  have hinj : ∀ j (hj : j < es.length), es[j].oper = es[i].oper → j = i := by
    intro j hj heq
    have hj' : j < (es.map Entry.oper).length := by simpa using hj
    have hi' : i < (es.map Entry.oper).length := by simpa using hi
    have hsame : (es.map Entry.oper)[j] = (es.map Entry.oper)[i] := by simpa using heq
    exact hnodup.getElem_inj_iff.mp hsame
  rw [List.mem_eraseIdx_iff_getElem]
  constructor
  · rintro ⟨j, hj, hne, rfl⟩
    exact ⟨List.getElem_mem hj, fun heq => hne (hinj j hj heq)⟩
  · rintro ⟨hx, hne⟩
    obtain ⟨j, hj, rfl⟩ := List.getElem_of_mem hx
    exact ⟨j, hj, fun heq => hne (by subst heq; rfl), rfl⟩

variable [DecidableEq Tid] {taken' : Nat → Side → Option Nat} {st : Tid → Stake} {i : Nat} {e : Entry Tid}

/-- Selecting an entry takes it. -/
theorem Ok.take (h : (r.settle taken).Ok st) (hfree : taken c d = none)
    (he : (r.waker c d).entries[i]? = some e) (hwait : (r.cx e.owner).select = .waiting)
    (htake : ∀ c' d', taken' c' d' = if c' = c ∧ d' = d then some i else taken c' d') :
    (({ r with cx := Function.update r.cx e.owner ((r.cx e.owner).trySelect (.operation e.oper)) } :
      Registry Tid).settle taken').Ok st := by
  generalize hr' : ({ r with cx := _ } : Registry Tid) = r'
  have hwaker : r'.waker = r.waker := by rw [← hr']
  have hset := settle_waker (r := r) hfree
  have hnodup := h.nodup c d
  rw [hset] at hnodup
  have hown : ((r'.settle taken').waker c d).entries = (r.waker c d).entries.eraseIdx i := by
    rw [settle_taken (i := i) (by rw [htake, if_pos ⟨rfl, rfl⟩]), hwaker]
  have hsame : ∀ c' d', ¬ (c' = c ∧ d' = d) →
      (r'.settle taken').waker c' d' = (r.settle taken).waker c' d' := by
    intro c' d' hcd
    simp only [settle, hwaker, htake c' d', if_neg hcd]
  refine h.select (c := c) (d := d) (e := e) ?_ hwait ?_ ?_ (fun _ _ => rfl) ?_
  · rw [hset]
    exact List.mem_of_getElem? he
  · intro c' d' x
    by_cases hcd : c' = c ∧ d' = d
    · obtain ⟨rfl, rfl⟩ := hcd
      rw [hown, hset, mem_eraseIdx hnodup he]
      simp
    · rw [hsame c' d' hcd]
      simp [← and_assoc, hcd]
  · intro c' d'
    by_cases hcd : c' = c ∧ d' = d
    · obtain ⟨rfl, rfl⟩ := hcd
      rw [hown]
      exact hnodup.sublist ((List.eraseIdx_sublist _ _).map _)
    · rw [hsame c' d' hcd]
      exact h.nodup c' d'
  · intro u
    rw [← hr']
    change (Function.update r.cx e.owner _ u).select = if u = e.owner then _ else (r.cx u).select
    by_cases hu : u = e.owner
    · subst hu
      rw [Function.update_self, Context.trySelect_waiting hwait, if_pos rfl]
    · rw [Function.update_of_ne hu, if_neg hu]

omit [DecidableEq Tid] in
/-- Removing what is taken leaves the settled registry as it is. -/
theorem settle_remove (htaken : taken c d = some i)
    (hremove : ∀ c' d', taken' c' d' = if c' = c ∧ d' = d then none else taken c' d') :
    (r.setWaker c d { r.waker c d with entries := (r.waker c d).entries.eraseIdx i }).settle taken' =
      r.settle taken := by
  refine settle_ext rfl fun c' d' => ?_
  by_cases hcd : c' = c ∧ d' = d
  · obtain ⟨rfl, rfl⟩ := hcd
    rw [settle_waker (by rw [hremove, if_pos ⟨rfl, rfl⟩]), (setWaker_self c' d' _).1]
    simp only [settle, htaken]
  · simp only [settle, hremove c' d', if_neg hcd, (setWaker_of_ne _ hcd).1]

end Registry

/-! ## Steps outside the sections -/

/-- The queue a step changes. -/
def Act.on : Act Tid T → Option (Nat × Side)
  | .register c d _ | .unregister c d _ | .offer c d _ => some (c, d)
  | _ => none

/-- The calls that look at the cached length before they take the mutex. -/
def Call.Looks : Call T → Prop
  | .unregister _ _ _ | .wakeOne _ _ => True
  | _ => False

/-- Not one of the sections that are taken apart. -/
def Act.Plain : Act Tid T → Prop
  | .wakeOne _ _ | .disconnect _ _ | .disconnectZero _ | .queue _ _ _ => False
  | _ => True

namespace Shared

variable [DecidableEq Tid] {w : Shared Tid T} {t : Tid} {kind : Nat → Kind T} {call : Call T}
  {pr : Prog} {spurious : Bool} {act : Act Tid T} {rep : Reply Tid T} {c : Nat} {d : Side}

theorem drive_plain {k : BufferCall T} {f : Answer T → Reply Tid T}
    (h : w.drive t c k pr spurious f = some (act, rep)) : act.Plain ∧ act.on = none := by
  obtain ⟨b, a, -, rfl, -⟩ := drive_act h
  exact ⟨trivial, rfl⟩

theorem start_plain (hk : kind c ≠ .zero) (h : w.start t kind c d pr spurious = some (act, rep)) :
    act.Plain ∧ act.on = none := by
  unfold start at h
  split at h
  · exact drive_plain h
  · exact drive_plain h
  · exact absurd ‹_› hk
  · unfold tryAfter at h
    split at h <;> cases h <;> exact ⟨trivial, rfl⟩
  · unfold tryTick at h
    split at h <;> cases h <;> exact ⟨trivial, rfl⟩
  · cases h
    exact ⟨trivial, rfl⟩

/-- A step outside the sections changes a queue only under its mutex. -/
theorem exec_plain (hcrit : call.critical kind pr = none)
    (h : w.exec t kind call pr spurious = some (act, rep)) :
    act.Plain ∧ ∀ q, act.on = some q → call.locks kind pr = some q := by
  have off : act.Plain ∧ act.on = none →
      act.Plain ∧ ∀ q, act.on = some q → call.locks kind pr = some q := by
    rintro ⟨hplain, hon⟩
    exact ⟨hplain, fun q hq => by rw [hon] at hq; cases hq⟩
  cases call with
  | start c d =>
    refine off (start_plain (fun hk => ?_) h)
    simp [Call.critical, hk] at hcrit
  | retry c d =>
    have hk : kind c ≠ .zero := fun hk => by simp [Call.critical, hk] at hcrit
    simp only [exec, retry] at h
    exact off (start_plain hk h)
  | register c d slot =>
    simp only [exec, register] at h
    have buffer : w.registerBuffer t c d slot pr spurious = some (act, rep) →
        (pr = .start → (Call.register c d slot : Call T).locks kind pr = some (c, d)) →
        act.Plain ∧ ∀ q, act.on = some q → (Call.register c d slot : Call T).locks kind pr = some q := by
      intro hb hlocks
      unfold registerBuffer at hb
      split at hb
      · cases hb
        exact ⟨trivial, fun q hq => (hlocks rfl).trans hq⟩
      · exact off (drive_plain hb)
      · exact off (drive_plain hb)
      · cases hb
    cases hk : kind c with
    | array ch built =>
      rw [hk] at h
      exact buffer h fun hpr => by simp [Call.locks, hpr, hk]
    | list =>
      rw [hk] at h
      cases d with
      | send => exact off (drive_plain h)
      | recv => exact buffer h fun hpr => by simp [Call.locks, hpr, hk]
    | zero =>
      rw [hk] at h
      dsimp only at h
      split at h
      · rename_i hpr
        cases h
        exact ⟨trivial, fun q hq => by rw [← hq, hpr]; simp [Call.locks, hk, Act.on]⟩
      · cases h
    | after _ | tick _ _ | never =>
      rw [hk] at h
      cases h
      exact off ⟨trivial, rfl⟩
  | unregister c d slot =>
    simp only [exec, unregister, Option.some.injEq] at h
    have sync : w.unregisterSync t c d slot pr = (act, rep) →
        (pr = .locked → (Call.unregister c d slot : Call T).locks kind pr = some (c, d)) →
        act.Plain ∧ ∀ q, act.on = some q →
          (Call.unregister c d slot : Call T).locks kind pr = some q := by
      intro hu hlocks
      unfold unregisterSync at hu
      split at hu
      · cases hu
        exact ⟨trivial, fun q hq => (hlocks rfl).trans hq⟩
      · cases hu
        exact off ⟨trivial, rfl⟩
    cases hk : kind c with
    | array ch built =>
      rw [hk] at h
      exact sync h fun hpr => by simp [Call.locks, hpr, hk]
    | list =>
      rw [hk] at h
      cases d with
      | send =>
        cases h
        exact off ⟨trivial, rfl⟩
      | recv => exact sync h fun hpr => by simp [Call.locks, hpr, hk]
    | zero =>
      rw [hk] at h
      cases h
      exact ⟨trivial, fun q hq => by rw [← hq]; simp [Call.locks, hk, Act.on]⟩
    | after _ | tick _ _ | never =>
      rw [hk] at h
      cases h
      exact off ⟨trivial, rfl⟩
  | accept c d =>
    simp only [exec, accept] at h
    split at h
    · cases h
      exact off ⟨trivial, rfl⟩
    · exact off (start_plain ‹_› h)
  | wakeOne c d =>
    simp only [exec, wakeOneSync] at h
    split at h
    · cases hcrit
    · cases h
      exact off ⟨trivial, rfl⟩
  | write c msg | read c | setDisconnected c => exact off (drive_plain h)
  | pair c d offer | disconnectWaker c d | disconnectZero c => cases hcrit
  | waitUntil deadline =>
    simp only [exec, waitUntil] at h
    split at h <;> cases h <;> exact off ⟨trivial, rfl⟩
  | recvTimer c deadline =>
    simp only [exec, recvTimer] at h
    split at h
    case h_7 => split at h <;> cases h <;> exact off ⟨trivial, rfl⟩
    all_goals cases h <;> exact off ⟨trivial, rfl⟩
  | withdraw c d =>
    cases h
    exact ⟨trivial, fun q hq => hq⟩
  | none => cases h
  | _ =>
    cases h
    exact off ⟨trivial, rfl⟩

/-- The state with its registry settled. -/
def settle (w : Shared Tid T) (taken : Nat → Side → Option Nat) : Shared Tid T :=
  { w with reg := w.reg.settle taken }

variable {taken : Nat → Side → Option Nat}

theorem start_settle (hk : kind c ≠ .zero) :
    (w.settle taken).start t kind c d pr spurious = w.start t kind c d pr spurious := by
  unfold start
  split <;> first | rfl | exact absurd ‹_› hk

/-- A step outside the sections is the same with the registry settled, but for a look at a
    cached length that has yet to be updated. -/
theorem exec_settle (hcrit : call.critical kind pr = none)
    (hfree : ∀ c d, call.locks kind pr = some (c, d) →
      taken c d = none ∧ (kind c = .zero → taken c d.opposite = none))
    (hlen : ∀ c d, w.reg.len c d = (w.reg.waker c d).entries.length)
    (h : w.exec t kind call pr spurious = some (act, rep)) :
    (w.settle taken).exec t kind call pr spurious = some (act, rep) ∨
      (act = .silent ∧ rep = .more .locked ∧ call.Looks) := by
  -- The cached length counts the entries that are about to go. So a look may find the queue longer than
  -- the settled one, and takes the mutex in vain.
  have look : ∀ c d (r : Ret Tid T), call.Looks →
      (act, rep) = (.silent, if w.reg.len c d = 0 then .ret r else .more .locked) →
      (act, rep) = (.silent, if (w.settle taken).reg.len c d = 0 then .ret r else .more .locked) ∨
        (act = .silent ∧ rep = .more .locked ∧ call.Looks) := by
    intro c d r hlooks heq
    by_cases hz : w.reg.len c d = 0
    · have hsettled : (w.settle taken).reg.len c d = 0 := by
        refine List.length_eq_zero_iff.mpr (List.eq_nil_iff_forall_not_mem.mpr fun e he => ?_)
        rw [hlen, List.length_eq_zero_iff] at hz
        have hmem := Registry.mem_settle he
        rw [hz] at hmem
        exact List.not_mem_nil hmem
      rw [if_pos hz] at heq
      rw [if_pos hsettled]
      exact .inl heq
    · rw [if_neg hz] at heq
      exact .inr ⟨(Prod.mk.inj heq).1, (Prod.mk.inj heq).2, hlooks⟩
  cases call with
  | start c d =>
    refine .inl (Eq.trans (start_settle fun hk => ?_) h)
    simp [Call.critical, hk] at hcrit
  | retry c d =>
    have hk : kind c ≠ .zero := fun hk => by simp [Call.critical, hk] at hcrit
    simp only [exec, retry] at h ⊢
    exact .inl (Eq.trans (start_settle hk) h)
  | accept c d =>
    simp only [exec, accept] at h ⊢
    split at h
    · exact .inl h
    · exact .inl (Eq.trans (start_settle ‹_›) h)
  | register c d slot =>
    simp only [exec, register] at h ⊢
    cases hk : kind c with
    | zero =>
      rw [hk] at h
      dsimp only at h ⊢
      split at h
      · rename_i hpr
        subst hpr
        have hlocks := hfree c d (by simp [Call.locks, hk])
        rw [if_pos rfl, settle, Registry.settle_waker (hlocks.2 hk)]
        exact .inl h
      · cases h
    | list =>
      rw [hk] at h
      cases d <;> exact .inl h
    | _ =>
      rw [hk] at h
      exact .inl h
  | unregister c d slot =>
    simp only [exec, unregister, Option.some.injEq] at h ⊢
    have sync : w.unregisterSync t c d slot pr = (act, rep) →
        (pr = .locked → (Call.unregister c d slot : Call T).locks kind pr = some (c, d)) →
        (w.settle taken).unregisterSync t c d slot pr = (act, rep) ∨
          (act = .silent ∧ rep = .more .locked ∧ (Call.unregister c d slot : Call T).Looks) := by
      intro hu hlocks
      unfold unregisterSync at hu ⊢
      split at hu
      · have hset := Registry.settle_waker (r := w.reg) (hfree c d (hlocks rfl)).1
        simp only [settle, Registry.unregister, hset] at hu ⊢
        exact .inl hu
      · exact (look c d _ trivial hu.symm).imp_left Eq.symm
    cases hk : kind c with
    | array ch built =>
      rw [hk] at h
      exact sync h fun hpr => by simp [Call.locks, hpr, hk]
    | list =>
      rw [hk] at h
      cases d with
      | send => exact .inl h
      | recv => exact sync h fun hpr => by simp [Call.locks, hpr, hk]
    | zero =>
      rw [hk] at h
      have hset := Registry.settle_waker (r := w.reg) (hfree c d (by simp [Call.locks, hk])).1
      simp only [settle, Registry.unregister, hset] at h ⊢
      exact .inl h
    | _ =>
      rw [hk] at h
      exact .inl h
  | wakeOne c d =>
    simp only [exec, wakeOneSync, Option.some.injEq] at h ⊢
    split at h
    · cases hcrit
    · exact (look c d _ trivial h.symm).imp_left Eq.symm
  | withdraw c d =>
    have hset := Registry.settle_waker (r := w.reg) (hfree c d rfl).1
    simp only [exec, settle, Registry.unregister, hset] at h ⊢
    exact .inl h
  | state c d =>
    simp only [exec, state, settle, Registry.settle_count] at h ⊢
    exact .inl h
  | pair c d offer | disconnectWaker c d | disconnectZero c => cases hcrit
  | _ => exact .inl h

theorem apply_len (h : ∀ c d, w.reg.len c d = (w.reg.waker c d).entries.length) (act : Act Tid T)
    (c : Nat) (d : Side) :
    (w.apply t act).reg.len c d = ((w.apply t act).reg.waker c d).entries.length := by
  cases act with
  | register _ _ _ | unregister _ _ _ | offer _ _ _ | queue _ _ _ | wakeOne _ _ =>
    exact Registry.setWaker_len h _ _ _ _ _
  | _ => exact h c d

/-- The step with its effect on a settled registry. -/
theorem apply_settle (hplain : act.Plain) (hon : ∀ q, act.on = some q → taken q.1 q.2 = none) :
    (w.apply t act).settle taken = (w.settle taken).apply t act := by
  cases act with
  | register c d slot | unregister c d slot | offer c d slot =>
    have hfree := hon (c, d) rfl
    simp only [apply, settle, alloc, Registry.register, Registry.unregister,
      Registry.settle_setWaker hfree, Registry.settle_waker hfree]
  | wakeOne _ _ | disconnect _ _ | disconnectZero _ | queue _ _ _ => exact hplain.elim
  | _ => rfl

end Shared

/-! ## The ends of the sections -/

namespace Frame

variable {kind : Nat → Kind T} {f : Frame Tid T} {pr : Prog} {s : Critical T}

theorem onHandle_critical {handles : List Handle} {i : Nat} {call : Handle → Call T}
    (h : (onHandle handles i call).critical kind pr = some s) :
    ∃ x, handles[i]? = some x ∧ (call x).critical kind pr = some s := by
  unfold onHandle at h
  split at h
  · exact ⟨_, ‹_›, h⟩
  · cases h

/-- The places at which a thread is about to run a section. -/
inductive Enters (kind : Nat → Kind T) : Frame Tid T → Critical T → Prop where
  | zero {job : Job T} {mode : Mode} :
      Enters kind (.zero job mode .pair) (.pair job.chan job.side (offer job mode))
  | attempt {handles : List Handle} {timeout : Timeout} {i : Nat} {x : Handle}
      (hx : handles[i]? = some x) (hk : kind x.chan = .zero) :
      Enters kind (.select handles timeout (.attempt i)) (.pair x.chan x.side none)
  | probe {handles : List Handle} {timeout : Timeout} {i : Nat} {states : Option (List Nat)}
      {x : Handle} (hx : handles[i]? = some x) (hk : kind x.chan = .zero) :
      Enters kind (.select handles timeout (.probe i states)) (.pair x.chan x.side none)
  | again {handles : List Handle} {timeout : Timeout} {i : Nat} {x : Handle}
      (hx : handles[i]? = some x) (hk : kind x.chan = .zero) :
      Enters kind (.select handles timeout (.again i .first))
        (.pair x.chan x.side (some .emptyOnHeap))
  | finish {job : Job T} {out : Outcome T} :
      Enters kind (.finish job (.wakeOne out)) (.wakeOne job.chan job.side.opposite)
  | senders {c : Nat} {d : Side} : Enters kind (.close c d .senders) (.disconnectWaker c .send)
  | receivers {c : Nat} {d : Side} : Enters kind (.close c d .receivers) (.disconnectWaker c .recv)
  | close {c : Nat} {d : Side} : Enters kind (.close c d .zero) (.disconnectZero c)

theorem start_critical {c : Nat} {d : Side}
    (h : (Call.start c d : Call T).critical kind pr = some s) :
    kind c = .zero ∧ s = .pair c d none := by
  simp only [Call.critical] at h
  split at h
  · cases h
    exact ⟨‹_›, rfl⟩
  · cases h

theorem enters_of_critical (hf : f.Typed kind) (h : f.call.critical kind pr = some s) :
    Enters kind f s := by
  have timer : ∀ {c d}, ¬ (kind c).IsZero → (Call.start c d : Call T).critical kind pr ≠ some s := by
    intro c d hk hs
    rw [(start_critical hs).1] at hk
    exact hk trivial
  cases f with
  | plain job mode st =>
    cases st with
    | attempt n => exact absurd h (timer (Kind.Buffered.not_zero hf))
    | _ => cases h
  | zero job mode st =>
    cases st with
    | pair =>
      cases h
      exact .zero
    | _ => cases h
  | timer c mode =>
    cases mode with
    | nonblocking => exact absurd h (timer hf.2)
    | blocking deadline => cases h
  | finish job st =>
    cases st with
    | wakeOne out =>
      cases pr <;> cases h
      exact .finish
    | complete =>
      obtain ⟨c, msg⟩ := job
      cases msg <;> cases h
    | storeMsg p =>
      obtain ⟨c, msg⟩ := job
      cases msg <;> cases h
    | _ => cases h
  | select handles timeout st =>
    cases st with
    | attempt i =>
      obtain ⟨x, hx, hs⟩ := onHandle_critical h
      obtain ⟨hk, rfl⟩ := start_critical hs
      exact .attempt hx hk
    | probe i states =>
      obtain ⟨x, hx, hs⟩ := onHandle_critical h
      obtain ⟨hk, rfl⟩ := start_critical hs
      exact .probe hx hk
    | again i st =>
      cases st with
      | first =>
        obtain ⟨x, hx, hs⟩ := onHandle_critical h
        simp only [Call.critical] at hs
        split at hs
        · cases hs
          exact .again hx ‹_›
        · cases hs
      | withdraw p sel =>
        obtain ⟨x, hx, hs⟩ := onHandle_critical h
        cases hs
      | _ => cases h
    | register i | deadline i acc | unregister i count sel | accept i | snapshot states
    | recheck states current changed =>
      obtain ⟨x, hx, hs⟩ := onHandle_critical h
      cases hs
    | _ => cases h
  | close c d st =>
    cases st with
    | setDisconnected => cases h
    | senders =>
      cases h
      exact .senders
    | receivers =>
      cases h
      exact .receivers
    | zero =>
      cases h
      exact .close
  | done out | chosen x tk | panicked => cases h

theorem Enters.zero_of_pair {c : Nat} {d : Side} {offer : Option (Packet T)}
    (h : Enters kind f (.pair c d offer)) (hf : f.Typed kind) : kind c = .zero := by
  cases h with
  | zero => exact Kind.IsZero.eq hf
  | attempt hx hk | probe hx hk | again hx hk => exact hk

theorem Enters.calm (h : Enters kind f s) : f.Calm kind := by
  cases h <;> exact fun _ => rfl

theorem Enters.running (h : Enters kind f s) : f.ended = false := by
  cases h <;> rfl

/-- A look at a cached length changes nothing about what is registered. -/
theorem stake_of_looks (h : f.call.Looks) {pr' : Prog} : f.stake kind pr' = f.stake kind pr := by
  cases f with
  | plain job mode st => cases st <;> first | rfl | exact h.elim
  | zero job mode st => cases st <;> rfl
  | select handles timeout st =>
    cases st with
    | register i =>
      change (onHandle handles i fun x => .register x.chan x.side (i + 1)).Looks at h
      unfold onHandle at h
      split at h <;> exact h.elim
    | again i st => cases st <;> rfl
    | _ => rfl
  | _ => rfl

variable [DecidableEq Tid] {t : Tid} {order : List Handle} {r : Ret Tid T} {g : Frame Tid T}

/-- Where a body goes from the end of a section: it has registered nothing, or its packet. -/
theorem Enters.resume (h : Enters kind f s) (hr : f.resume kind t order r = some g) :
    ((∃ p, r = .queued p) ∧ ∃ c d offer, s = .pair c d offer ∧
        g.stake kind .start = .holding (· = ⟨c, d, 0⟩)) ∨
      ((∀ p, r ≠ .queued p) ∧ g.Calm kind) := by
  cases h with
  | zero =>
    cases r with
    | token tk =>
      cases hr
      exact .inr ⟨by simp, finishWith_calm _ _⟩
    | failed =>
      cases hr
      exact .inr ⟨by simp, fun _ => rfl⟩
    | queued p =>
      cases hr
      exact .inl ⟨⟨p, rfl⟩, _, _, _, rfl, rfl⟩
    | _ => cases hr
  | attempt hx hk =>
    cases r with
    | token tk => exact .inr ⟨by simp, choose_calm hr⟩
    | failed =>
      cases hr
      exact .inr ⟨by simp, nextHandle_calm (fun _ _ => rfl) fun _ => rfl⟩
    | _ => cases hr
  | probe hx hk =>
    cases r with
    | token tk => exact .inr ⟨by simp, choose_calm hr⟩
    | failed =>
      cases hr
      exact .inr ⟨by simp, nextHandle_calm (fun _ _ => rfl) (probed_calm _ _ _)⟩
    | _ => cases hr
  | again hx hk =>
    cases r with
    | token tk => exact .inr ⟨by simp, choose_calm hr⟩
    | failed =>
      cases hr
      exact .inr ⟨by simp, nextHandle_calm (fun _ _ => rfl) fun _ => rfl⟩
    | queued p =>
      cases hr
      refine .inl ⟨⟨p, rfl⟩, _, _, _, rfl, holding_congr fun y => ⟨?_, fun hy => ⟨_, hx, hy⟩⟩⟩
      rintro ⟨x', hx', hy⟩
      rw [hx] at hx'
      cases hx'
      exact hy
    | _ => cases hr
  | finish =>
    cases r with
    | unit =>
      cases hr
      exact .inr ⟨by simp, fun _ => rfl⟩
    | _ => cases hr
  | senders | receivers | close =>
    cases r with
    | unit =>
      cases hr
      exact .inr ⟨by simp, fun _ => rfl⟩
    | _ => cases hr

/-- A body keeps to the flavor of its channel at the end of a section. -/
theorem Enters.typed (h : Enters kind f s) (hf : f.Typed kind)
    (htk : ∀ tk, r = .token tk → tk = .null ∨ ∃ p, tk = .packet p)
    (hr : f.resume kind t order r = some g) : g.Typed kind := by
  have suits : ∀ {tk : Token} {k : Kind T}, r = .token tk → k = .zero → tk.Suits k := by
    rintro tk _ heq rfl
    rcases htk tk heq with rfl | ⟨p, rfl⟩
    · exact .inr trivial
    · trivial
  cases h with
  | zero =>
    cases r with
    | token tk =>
      cases hr
      exact finishWith_typed (suits rfl (Kind.IsZero.eq hf))
    | failed =>
      cases hr
      trivial
    | queued p =>
      cases hr
      exact hf
    | _ => cases hr
  | attempt hx hk =>
    cases r with
    | token tk => exact choose_typed hr hx (suits rfl hk)
    | failed =>
      cases hr
      exact nextHandle_typed (fun _ => trivial) trivial
    | _ => cases hr
  | probe hx hk =>
    cases r with
    | token tk => exact choose_typed hr hx (suits rfl hk)
    | failed =>
      cases hr
      refine nextHandle_typed (fun _ => trivial) ?_
      unfold probed
      split <;> trivial
    | _ => cases hr
  | again hx hk =>
    cases r with
    | token tk => exact choose_typed hr hx (suits rfl hk)
    | failed =>
      cases hr
      exact next_typed _ _ _
    | queued p =>
      cases hr
      exact ⟨_, hx, by rw [hk]; trivial⟩
    | _ => cases hr
  | finish =>
    cases r with
    | unit =>
      cases hr
      trivial
    | _ => cases hr
  | senders =>
    cases r with
    | unit =>
      cases hr
      exact hf
    | _ => cases hr
  | receivers | close =>
    cases r with
    | unit =>
      cases hr
      trivial
    | _ => cases hr

end Frame

end CrossbeamChannel
