import CrossbeamChannel.World.Call

/-!
# Who is queued where

Every entry in a waker was put there by a thread that is still inside the `Context::with` in
which it registered, and stays until the thread unregisters it or another thread selects it.
What a thread has registered is its `Stake`; `Registry.Ok` says that the stakes of the
threads and the contents of the wakers agree. The rules say how the operations on the
registry change both.

The state is that of `src/waker.rs` and of the `select` words of `src/context.rs`; no body of an
operation appears here. So `Registry.Ok` has to say by itself what a thread may rely on when it comes
back to the queue. `unregister(oper).unwrap()` (`array.rs` 403) is safe by `present`: an entry that has
not been taken back is queued, unless its operation was selected. And it finds the right entry by `hit`
and `nodup`: an operation is named by the address of a variable that only lives inside the same
`Context::with`, so no two entries carry one name. `made` and `left` are told apart because a selected
thread goes on to unregister the other handles of its select, and then accepts one of those it had made.
-/

namespace CrossbeamChannel

variable {Tid : Type}

/-- A registration: the queue, and the variable of the thread that names the operation. -/
structure Place where
  chan : Nat
  side : Side
  slot : Nat
  deriving DecidableEq

/-- The operation of thread `t` that the registration is for. -/
abbrev Place.oper (x : Place) (t : Tid) : Operation Tid := ⟨t, x.slot⟩

/-- What a thread has registered. -/
structure Stake where
  /-- The thread is inside `Context::with`. -/
  inside : Bool
  /-- What it has registered there. -/
  made : Place → Prop
  /-- What of it has not been unregistered yet. -/
  left : Place → Prop

/-- Outside `Context::with`. -/
def Stake.outside : Stake := ⟨false, fun _ => False, fun _ => False⟩

/-- Inside, with these registrations. -/
def Stake.holding (P : Place → Prop) : Stake := ⟨true, P, P⟩

structure Stake.Ok (s : Stake) : Prop where
  sub : ∀ x, s.left x → s.made x
  /-- Different registrations have different names. -/
  distinct : ∀ x y, s.made x → s.made y → x.slot = y.slot → x = y
  inside : ∀ x, s.left x → s.inside = true

/-- The wakers and contexts agree with the stakes of the threads. -/
structure Registry.Ok (r : Registry Tid) (st : Tid → Stake) : Prop where
  stake : ∀ t, (st t).Ok
  /-- An entry is a registration of its owner. -/
  listed : ∀ c d e, e ∈ (r.waker c d).entries → (st e.owner).left ⟨c, d, e.oper.slot⟩
  /-- A registration is queued unless it was selected. -/
  present : ∀ t x, (st t).left x → (r.cx t).select ≠ .operation (x.oper t) →
    ∃ e ∈ (r.waker x.chan x.side).entries, e.oper = x.oper t
  nodup : ∀ c d, ((r.waker c d).entries.map Entry.oper).Nodup
  /-- A selected operation was registered in the present `Context::with`. -/
  hit : ∀ t op, (r.cx t).select = .operation op → (st t).inside = true →
    op.thread = t ∧ ∃ x, (st t).made x ∧ x.slot = op.slot
  /-- The entry of a selected operation is gone. -/
  live : ∀ c d e, e ∈ (r.waker c d).entries → (r.cx e.owner).select ≠ .operation e.oper
  len : ∀ c d, r.len c d = (r.waker c d).entries.length

namespace Registry

variable {r : Registry Tid} {st : Tid → Stake} {t : Tid}

/-- No entry of thread `t` for this registration is queued. -/
def Gone (r : Registry Tid) (t : Tid) (x : Place) : Prop :=
  ∀ e ∈ (r.waker x.chan x.side).entries, e.oper ≠ x.oper t

/-- The only registration with a selected name is gone. -/
theorem Ok.gone_of_hit (h : r.Ok st) {x : Place} (hsel : (r.cx t).select = .operation (x.oper t)) :
    r.Gone t x := by
  intro e he heq
  have hne := h.live _ _ e he
  have howner : e.owner = t := by rw [Entry.owner, heq]
  rw [howner, heq] at hne
  exact hne hsel

theorem Ok.gone_of_empty (h : r.Ok st) {x : Place} (hlen : r.len x.chan x.side = 0) :
    r.Gone t x := by
  intro e he
  rw [h.len, List.length_eq_zero_iff] at hlen
  rw [hlen] at he
  exact absurd he List.not_mem_nil

variable [DecidableEq Tid]

/-- What thread `t` has registered shrinks to `s`, and what is left out is not queued. -/
theorem Ok.restake (h : r.Ok st) {s : Stake} (hs : s.Ok)
    (hleft : ∀ x, s.left x → (st t).left x)
    (hgone : ∀ x, (st t).left x → ¬ s.left x → r.Gone t x)
    (hmade : s.inside = true → (st t).inside = true ∧ ∀ x, (st t).made x → s.made x) :
    r.Ok (Function.update st t s) where
  stake := by
    intro u
    by_cases hut : u = t
    · subst hut
      rwa [Function.update_self]
    · rw [Function.update_of_ne hut]
      exact h.stake u
  listed := by
    intro c d e he
    have hold := h.listed c d e he
    by_cases hut : e.owner = t
    · rw [hut, Function.update_self]
      rw [hut] at hold
      by_contra hnot
      exact hgone _ hold hnot e he (by rw [Place.oper, ← hut])
    · rwa [Function.update_of_ne hut]
  present := by
    intro u x hx hsel
    by_cases hut : u = t
    · subst hut
      rw [Function.update_self] at hx
      exact h.present u x (hleft x hx) hsel
    · rw [Function.update_of_ne hut] at hx
      exact h.present u x hx hsel
  nodup := h.nodup
  hit := by
    intro u op hsel hin
    by_cases hut : u = t
    · subst hut
      rw [Function.update_self] at hin ⊢
      obtain ⟨hin', hsub⟩ := hmade hin
      obtain ⟨hth, x, hx, hslot⟩ := h.hit u op hsel hin'
      exact ⟨hth, x, hsub x hx, hslot⟩
    · rw [Function.update_of_ne hut] at hin ⊢
      exact h.hit u op hsel hin
  live := h.live
  len := h.len

/-- Entering `Context::with`: the context is fresh. -/
theorem Ok.reset (h : r.Ok st) (hleft : ∀ x, ¬ (st t).left x) :
    (r.reset t).Ok (Function.update st t (.holding fun _ => False)) := by
  have hnone : ∀ c d e, e ∈ (r.waker c d).entries → e.owner ≠ t := by
    intro c d e he hut
    have hx := h.listed c d e he
    rw [hut] at hx
    exact hleft _ hx
  refine ⟨fun u => ?_, fun c d e he => ?_, fun u x hx hsel => ?_, h.nodup, fun u op hsel hin => ?_,
    fun c d e he => ?_, h.len⟩
  · by_cases hut : u = t
    · subst hut
      rw [Function.update_self]
      exact ⟨fun x hx => hx, fun x y hx => hx.elim, fun x hx => hx.elim⟩
    · rw [Function.update_of_ne hut]
      exact h.stake u
  · rw [Function.update_of_ne (hnone c d e he)]
    exact h.listed c d e he
  · by_cases hut : u = t
    · subst hut
      rw [Function.update_self] at hx
      exact hx.elim
    · rw [Function.update_of_ne hut] at hx
      simp only [Registry.reset, Function.update_of_ne hut] at hsel
      exact h.present u x hx hsel
  · by_cases hut : u = t
    · subst hut
      simp [Registry.reset, Context.fresh] at hsel
    · rw [Function.update_of_ne hut] at hin ⊢
      simp only [Registry.reset, Function.update_of_ne hut] at hsel
      exact h.hit u op hsel hin
  · simp only [Registry.reset, Function.update_of_ne (hnone c d e he)]
    exact h.live c d e he

omit [DecidableEq Tid] in
@[simp] theorem setWaker_cx (c : Nat) (d : Side) (w : Waker Tid) : (r.setWaker c d w).cx = r.cx := rfl

omit [DecidableEq Tid] in
theorem setWaker_self (c : Nat) (d : Side) (w : Waker Tid) :
    (r.setWaker c d w).waker c d = w ∧ (r.setWaker c d w).len c d = w.entries.length := by
  simp [setWaker]

omit [DecidableEq Tid] in
theorem setWaker_of_ne {c c' : Nat} {d d' : Side} (w : Waker Tid) (h : ¬ (c' = c ∧ d' = d)) :
    (r.setWaker c d w).waker c' d' = r.waker c' d' ∧ (r.setWaker c d w).len c' d' = r.len c' d' := by
  by_cases hc : c' = c
  · subst hc
    have hd : d' ≠ d := fun hd => h ⟨rfl, hd⟩
    simp [setWaker, Function.update_of_ne hd]
  · simp [setWaker, Function.update_of_ne hc]

omit [DecidableEq Tid] in
/-- An entry of some queue after the queue of `c`, `d` has been changed to `w`. -/
theorem mem_setWaker {c c' : Nat} {d d' : Side} {w : Waker Tid} {e : Entry Tid} :
    e ∈ ((r.setWaker c d w).waker c' d').entries ↔
      (c' = c ∧ d' = d ∧ e ∈ w.entries) ∨ (¬ (c' = c ∧ d' = d) ∧ e ∈ (r.waker c' d').entries) := by
  by_cases heq : c' = c ∧ d' = d
  · obtain ⟨rfl, rfl⟩ := heq
    rw [(setWaker_self c' d' w).1]
    simp
  · rw [(setWaker_of_ne w heq).1]
    simp only [heq, not_false_eq_true, true_and, ← and_assoc, false_and, false_or]

omit [DecidableEq Tid] in
theorem setWaker_len (h : ∀ c d, r.len c d = (r.waker c d).entries.length) (c : Nat) (d : Side)
    (w : Waker Tid) (c' : Nat) (d' : Side) :
    (r.setWaker c d w).len c' d' = ((r.setWaker c d w).waker c' d').entries.length := by
  by_cases heq : c' = c ∧ d' = d
  · obtain ⟨rfl, rfl⟩ := heq
    rw [(setWaker_self c' d' w).1, (setWaker_self c' d' w).2]
  · rw [(setWaker_of_ne w heq).1, (setWaker_of_ne w heq).2]
    exact h c' d'

omit [DecidableEq Tid] in
theorem setWaker_nodup (h : ∀ c d, ((r.waker c d).entries.map Entry.oper).Nodup) {c : Nat} {d : Side}
    {w : Waker Tid} (hw : (w.entries.map Entry.oper).Nodup) (c' : Nat) (d' : Side) :
    (((r.setWaker c d w).waker c' d').entries.map Entry.oper).Nodup := by
  by_cases heq : c' = c ∧ d' = d
  · obtain ⟨rfl, rfl⟩ := heq
    rwa [(setWaker_self c' d' w).1]
  · rw [(setWaker_of_ne w heq).1]
    exact h c' d'

/-- A new registration, inside `Context::with` and under a new name. -/
theorem Ok.register (h : r.Ok st) {c : Nat} {d : Side} {slot : Nat} {packet : Option Nat}
    {s : Stake} (hin : (st t).inside = true) (hnew : ∀ x, (st t).made x → x.slot ≠ slot) (hs : s.Ok)
    (hleft : ∀ x, s.left x ↔ x = ⟨c, d, slot⟩ ∨ (st t).left x)
    (hmade : ∀ x, (st t).made x → s.made x) :
    (r.register c d ⟨⟨t, slot⟩, packet⟩).Ok (Function.update st t s) where
  stake := by
    intro u
    by_cases hut : u = t
    · subst hut
      rwa [Function.update_self]
    · rw [Function.update_of_ne hut]
      exact h.stake u
  listed := by
    intro c' d' e he
    -- An entry of the new registry is the new one, or an old one.
    have key : e = ⟨⟨t, slot⟩, packet⟩ ∧ c' = c ∧ d' = d ∨ e ∈ (r.waker c' d').entries := by
      rcases mem_setWaker.mp he with ⟨rfl, rfl, he⟩ | ⟨-, he⟩
      · rcases List.mem_append.mp he with he | he
        · exact .inr he
        · exact .inl ⟨List.mem_singleton.mp he, rfl, rfl⟩
      · exact .inr he
    rcases key with ⟨rfl, rfl, rfl⟩ | he
    · rw [Function.update_self]
      exact (hleft _).mpr (.inl rfl)
    · have hold := h.listed c' d' e he
      by_cases hut : e.owner = t
      · rw [hut] at hold
        rw [hut, Function.update_self]
        exact (hleft _).mpr (.inr hold)
      · rwa [Function.update_of_ne hut]
  present := by
    intro u x hx hsel
    have keep : (∃ e ∈ (r.waker x.chan x.side).entries, e.oper = x.oper u) →
        ∃ e ∈ ((r.register c d ⟨⟨t, slot⟩, packet⟩).waker x.chan x.side).entries,
          e.oper = x.oper u := by
      rintro ⟨e, he, heq⟩
      refine ⟨e, mem_setWaker.mpr ?_, heq⟩
      by_cases hcd : x.chan = c ∧ x.side = d
      · rw [hcd.1, hcd.2] at he
        exact .inl ⟨hcd.1, hcd.2, List.mem_append.mpr (.inl he)⟩
      · exact .inr ⟨hcd, he⟩
    by_cases hut : u = t
    · subst hut
      rw [Function.update_self] at hx
      rcases (hleft x).mp hx with rfl | hx
      · exact ⟨⟨⟨u, slot⟩, packet⟩, mem_setWaker.mpr
          (.inl ⟨rfl, rfl, List.mem_append.mpr (.inr (List.mem_singleton.mpr rfl))⟩), rfl⟩
      · exact keep (h.present u x hx hsel)
    · rw [Function.update_of_ne hut] at hx
      exact keep (h.present u x hx hsel)
  nodup := by
    refine setWaker_nodup h.nodup ?_
    simp only [Waker.register, List.map_append, List.map_cons, List.map_nil]
    refine List.Nodup.append (h.nodup c d) (List.nodup_singleton _) ?_
    -- The name is new: what the thread has queued is named by its other registrations.
    intro op hop hop'
    obtain rfl := List.mem_singleton.mp hop'
    obtain ⟨e, he, heq⟩ := List.mem_map.mp hop
    have hold := h.listed c d e he
    rw [show e.owner = t from congrArg Operation.thread heq] at hold
    exact hnew _ ((h.stake t).sub _ hold) (congrArg Operation.slot heq)
  hit := by
    intro u op hsel hin'
    by_cases hut : u = t
    · subst hut
      rw [Function.update_self]
      obtain ⟨hth, x, hx, hslot⟩ := h.hit u op hsel hin
      exact ⟨hth, x, hmade x hx, hslot⟩
    · rw [Function.update_of_ne hut] at hin' ⊢
      exact h.hit u op hsel hin'
  live := by
    intro c' d' e he hsel
    rcases mem_setWaker.mp he with ⟨rfl, rfl, he⟩ | ⟨-, he⟩
    · rcases List.mem_append.mp he with he | he
      · exact h.live _ _ e he hsel
      · obtain rfl := List.mem_singleton.mp he
        obtain ⟨-, x, hx, hslot⟩ := h.hit t _ hsel hin
        exact hnew x hx hslot
    · exact h.live _ _ e he hsel
  len := setWaker_len h.len c d _

omit [DecidableEq Tid] in
/-- Among entries with different operations, erasing the first match erases exactly it. -/
theorem mem_eraseP {es : List (Entry Tid)} {p : Entry Tid → Bool} {e x : Entry Tid}
    (hnodup : (es.map Entry.oper).Nodup) (he : es.find? p = some e) :
    x ∈ es.eraseP p ↔ x ∈ es ∧ x.oper ≠ e.oper := by
  induction es with
  | nil => simp at he
  | cons y ys ih =>
    obtain ⟨hy, hys⟩ := List.nodup_cons.mp hnodup
    rw [List.find?_cons] at he
    cases hp : p y with
    | true =>
      rw [hp] at he
      obtain rfl := Option.some.inj he
      rw [List.eraseP_cons_of_pos hp, List.mem_cons]
      constructor
      · intro hx
        exact ⟨.inr hx, fun heq => hy (heq ▸ List.mem_map_of_mem hx)⟩
      · rintro ⟨rfl | hx, hne⟩
        · exact absurd rfl hne
        · exact hx
    | false =>
      rw [hp] at he
      rw [List.eraseP_cons_of_neg (by simp [hp]), List.mem_cons, List.mem_cons, ih hys he]
      have hmem : e.oper ∈ ys.map Entry.oper := List.mem_map_of_mem (List.mem_of_find?_eq_some he)
      constructor
      · rintro (rfl | ⟨hx, hne⟩)
        · exact ⟨.inl rfl, fun heq => hy (heq ▸ hmem)⟩
        · exact ⟨.inr hx, hne⟩
      · rintro ⟨rfl | hx, hne⟩
        · exact .inl rfl
        · exact .inr ⟨hx, hne⟩

omit [DecidableEq Tid] in
theorem nodup_eraseP {es : List (Entry Tid)} (p : Entry Tid → Bool)
    (h : (es.map Entry.oper).Nodup) : ((es.eraseP p).map Entry.oper).Nodup :=
  h.sublist (List.eraseP_sublist.map _)

theorem mem_unregister (h : r.Ok st) {c : Nat} {d : Side} {op : Operation Tid} {e : Entry Tid} :
    e ∈ ((r.waker c d).unregister op).2.entries ↔ e ∈ (r.waker c d).entries ∧ e.oper ≠ op := by
  simp only [Waker.unregister]
  cases hf : (r.waker c d).entries.find? fun e => e.oper = op with
  | none =>
    rw [List.eraseP_of_forall_not (List.find?_eq_none.mp hf)]
    refine ⟨fun he => ⟨he, fun heq => ?_⟩, And.left⟩
    simpa [heq] using List.find?_eq_none.mp hf e he
  | some y =>
    have hy : y.oper = op := by simpa using List.find?_some hf
    rw [mem_eraseP (h.nodup c d) hf, hy]

/-- The thread takes one of its registrations back. -/
theorem Ok.unregister (h : r.Ok st) {c : Nat} {d : Side} {slot : Nat} {s : Stake} (hs : s.Ok)
    (hleft : ∀ x, s.left x ↔ (st t).left x ∧ x ≠ ⟨c, d, slot⟩)
    (hmade : s.inside = true → (st t).inside = true ∧ ∀ x, (st t).made x → s.made x) :
    (r.unregister c d ⟨t, slot⟩).2.Ok (Function.update st t s) := by
  have hentry : ∀ c' d' e, e ∈ ((r.unregister c d ⟨t, slot⟩).2.waker c' d').entries ↔
      e ∈ (r.waker c' d').entries ∧ ¬ (c' = c ∧ d' = d ∧ e.oper = ⟨t, slot⟩) := by
    intro c' d' e
    rw [Registry.unregister, mem_setWaker, mem_unregister h]
    constructor
    · rintro (⟨rfl, rfl, he, hne⟩ | ⟨hcd, he⟩)
      · exact ⟨he, fun hx => hne hx.2.2⟩
      · exact ⟨he, fun hx => hcd ⟨hx.1, hx.2.1⟩⟩
    · rintro ⟨he, hne⟩
      by_cases hcd : c' = c ∧ d' = d
      · obtain ⟨rfl, rfl⟩ := hcd
        exact .inl ⟨rfl, rfl, he, fun hop => hne ⟨rfl, rfl, hop⟩⟩
      · exact .inr ⟨hcd, he⟩
  refine ⟨fun u => ?_, fun c' d' e he => ?_, fun u x hx hsel => ?_,
    setWaker_nodup h.nodup (nodup_eraseP _ (h.nodup c d)), fun u op hsel hin => ?_,
    fun c' d' e he => h.live c' d' e ((hentry c' d' e).mp he).1, setWaker_len h.len c d _⟩
  · by_cases hut : u = t
    · subst hut
      rwa [Function.update_self]
    · rw [Function.update_of_ne hut]
      exact h.stake u
  · obtain ⟨he, hne⟩ := (hentry c' d' e).mp he
    have hold := h.listed c' d' e he
    by_cases hut : e.owner = t
    · rw [hut] at hold
      rw [hut, Function.update_self]
      refine (hleft _).mpr ⟨hold, fun heq => hne ?_⟩
      cases heq
      exact ⟨rfl, rfl, by rw [← hut]⟩
    · rwa [Function.update_of_ne hut]
  · have keep : (st u).left x → ¬ (x = ⟨c, d, slot⟩ ∧ u = t) →
        ∃ e ∈ ((r.unregister c d ⟨t, slot⟩).2.waker x.chan x.side).entries, e.oper = x.oper u := by
      intro hx hne
      obtain ⟨e, he, heq⟩ := h.present u x hx hsel
      refine ⟨e, (hentry _ _ e).mpr ⟨he, ?_⟩, heq⟩
      rintro ⟨hc, hd, hop⟩
      rw [heq] at hop
      cases hop
      exact hne ⟨by cases hc; cases hd; rfl, rfl⟩
    by_cases hut : u = t
    · subst hut
      rw [Function.update_self] at hx
      obtain ⟨hx, hne⟩ := (hleft x).mp hx
      exact keep hx fun hxu => hne hxu.1
    · rw [Function.update_of_ne hut] at hx
      exact keep hx fun hxu => hut hxu.2
  · by_cases hut : u = t
    · subst hut
      rw [Function.update_self] at hin ⊢
      obtain ⟨hin', hsub⟩ := hmade hin
      obtain ⟨hth, x, hx, hslot⟩ := h.hit u op hsel hin'
      exact ⟨hth, x, hsub x hx, hslot⟩
    · rw [Function.update_of_ne hut] at hin ⊢
      exact h.hit u op hsel hin

omit [DecidableEq Tid] in
/-- Contexts that were waiting are decided, but not for an operation. -/
theorem Ok.decide (h : r.Ok st) {cx : Tid → Context Tid}
    (hcx : ∀ u, (cx u).select = (r.cx u).select ∨
      (cx u).select = .aborted ∨ (cx u).select = .disconnected)
    (hold : ∀ u op, (r.cx u).select = .operation op → (cx u).select = (r.cx u).select) :
    ({ r with cx := cx } : Registry Tid).Ok st where
  stake := h.stake
  listed := h.listed
  present := by
    intro u x hx hsel
    refine h.present u x hx fun hop => hsel ?_
    rw [hold u _ hop, hop]
  nodup := h.nodup
  hit := by
    intro u op hsel
    rcases hcx u with hc | hc | hc
    · exact h.hit u op (hc ▸ hsel)
    · exact absurd (hc ▸ hsel) (by simp)
    · exact absurd (hc ▸ hsel) (by simp)
  live := by
    intro c d e he hsel
    rcases hcx e.owner with hc | hc | hc
    · exact h.live c d e he (hc ▸ hsel)
    · exact absurd (hc ▸ hsel) (by simp)
    · exact absurd (hc ▸ hsel) (by simp)
  len := h.len

/-- One context is decided, if it was waiting, but not for an operation. -/
theorem Ok.trySelect (h : r.Ok st) {sel : Selected Tid} (hsel : sel = .aborted ∨ sel = .disconnected) :
    ({ r with cx := Function.update r.cx t ((r.cx t).trySelect sel) } : Registry Tid).Ok st := by
  refine h.decide (fun u => ?_) fun u op hop => ?_
  · by_cases hut : u = t
    · subst hut
      rw [Function.update_self]
      by_cases hw : (r.cx u).select = .waiting
      · rw [Context.trySelect_waiting hw]
        exact .inr hsel
      · exact .inl (by rw [Context.trySelect_decided hw])
    · exact .inl (by rw [Function.update_of_ne hut])
  · by_cases hut : u = t
    · subst hut
      rw [Function.update_self, Context.trySelect_decided (by simp [hop])]
    · rw [Function.update_of_ne hut]

theorem Ok.abort (h : r.Ok st) : (r.abort t).Ok st := h.trySelect (.inl rfl)

theorem Ok.disconnect (h : r.Ok st) (c : Nat) (d : Side) : (r.disconnect c d).Ok st := by
  refine h.decide (fun u => ?_) fun u op hop => ?_
  · rw [Waker.disconnect_apply]
    split
    · by_cases hw : (r.cx u).select = .waiting
      · exact .inr (.inr (by rw [Context.trySelect_waiting hw]))
      · exact .inl (by rw [Context.trySelect_decided hw])
    · exact .inl rfl
  · rw [Waker.disconnect_apply]
    split
    · rw [Context.trySelect_decided (by simp [hop])]
    · rfl

theorem mem_wakeOne (h : r.Ok st) {c : Nat} {d : Side} {e : Entry Tid}
    (he : ((r.waker c d).wakeOne r.cx t).1 = some e) (c' : Nat) (d' : Side) (x : Entry Tid) :
    x ∈ ((r.wakeOne c d t).2.waker c' d').entries ↔
      x ∈ (r.waker c' d').entries ∧ ¬ (c' = c ∧ d' = d ∧ x.oper = e.oper) := by
  rw [Registry.wakeOne]
  change x ∈ ((r.setWaker c d ((r.waker c d).wakeOne r.cx t).2).waker c' d').entries ↔ _
  rw [mem_setWaker, show x ∈ ((r.waker c d).wakeOne r.cx t).2.entries ↔ _ from
    mem_eraseP (h.nodup c d) he]
  constructor
  · rintro (⟨rfl, rfl, hx, hne⟩ | ⟨hcd, hx⟩)
    · exact ⟨hx, fun h => hne h.2.2⟩
    · exact ⟨hx, fun h => hcd ⟨h.1, h.2.1⟩⟩
  · rintro ⟨hx, hne⟩
    by_cases hcd : c' = c ∧ d' = d
    · obtain ⟨rfl, rfl⟩ := hcd
      exact .inl ⟨rfl, rfl, hx, fun hop => hne ⟨rfl, rfl, hop⟩⟩
    · exact .inr ⟨hcd, hx⟩

/-- A `wake_one` that finds nobody changes nothing. -/
theorem Ok.wakeOne_none (h : r.Ok st) {c : Nat} {d : Side} (hnone : (r.wakeOne c d t).1 = none) :
    (r.wakeOne c d t).2 = r := by
  have hw : ((r.waker c d).wakeOne r.cx t).2 = r.waker c d := by
    rw [← show (⟨((r.waker c d).wakeOne r.cx t).2.entries, (r.waker c d).registerCount⟩ : Waker Tid) =
      ((r.waker c d).wakeOne r.cx t).2 from rfl, Waker.wakeOne_entries_none hnone]
  have hcx : Waker.wakeContext r.cx ((r.waker c d).wakeOne r.cx t).1 = r.cx := by
    rw [show ((r.waker c d).wakeOne r.cx t).1 = none from hnone, Waker.wakeContext_none]
  have hlen := h.len c d
  simp only [wakeOne, setWaker, hw, hcx, ← hlen, Function.update_eq_self]

/-- The context a `wake_one` has selected. -/
theorem wakeOne_cx {c : Nat} {d : Side} {e : Entry Tid} (he : (r.wakeOne c d t).1 = some e) (u : Tid) :
    (r.wakeOne c d t).2.cx u =
      if u = e.owner then ({ r.cx u with select := .operation e.oper } : Context Tid).storePacket e.packet
      else r.cx u := by
  have hw := (Waker.wakeOne_some (show ((r.waker c d).wakeOne r.cx t).1 = some e from he)).2.2
  rw [Registry.wakeOne]
  simp only [show ((r.waker c d).wakeOne r.cx t).1 = some e from he]
  split
  · rename_i hu
    subst hu
    rw [Waker.wakeContext_owner hw]
  · rename_i hu
    rw [Waker.wakeContext_of_ne hu]

theorem wakeOne_select {c : Nat} {d : Side} {e : Entry Tid} (he : (r.wakeOne c d t).1 = some e)
    (u : Tid) : ((r.wakeOne c d t).2.cx u).select =
      if u = e.owner then .operation e.oper else (r.cx u).select := by
  rw [wakeOne_cx he]
  split
  · rw [Context.storePacket_select]
  · rfl

/-- The queued operation of a waiting thread is selected, and its entry removed. -/
theorem Ok.select (h : r.Ok st) {r' : Registry Tid} {c : Nat} {d : Side} {e : Entry Tid}
    (hmem : e ∈ (r.waker c d).entries) (hwait : (r.cx e.owner).select = .waiting)
    (hentry : ∀ c' d' x, x ∈ (r'.waker c' d').entries ↔
      x ∈ (r.waker c' d').entries ∧ ¬ (c' = c ∧ d' = d ∧ x.oper = e.oper))
    (hnodup : ∀ c d, ((r'.waker c d).entries.map Entry.oper).Nodup)
    (hlen : ∀ c d, r'.len c d = (r'.waker c d).entries.length)
    (hcx : ∀ u, (r'.cx u).select = if u = e.owner then .operation e.oper else (r.cx u).select) :
    r'.Ok st := by
  have hplace := h.listed c d e hmem
  refine ⟨h.stake, fun c' d' x hx => h.listed c' d' x ((hentry c' d' x).mp hx).1,
    fun u x hx hsel => ?_, hnodup, fun u op hsel hin => ?_, fun c' d' x hx hsel => ?_, hlen⟩
  · rw [hcx] at hsel
    have hold : (r.cx u).select ≠ .operation (x.oper u) := by
      by_cases hu : u = e.owner
      · rw [hu, hwait]
        simp
      · rwa [if_neg hu] at hsel
    obtain ⟨y, hy, hop⟩ := h.present u x hx hold
    refine ⟨y, (hentry _ _ y).mpr ⟨hy, ?_⟩, hop⟩
    rintro ⟨-, -, heq⟩
    have hu : u = e.owner := by rw [Entry.owner, ← heq, hop]
    rw [if_pos hu, ← heq, hop] at hsel
    exact hsel rfl
  · rw [hcx] at hsel
    split at hsel
    · rename_i hu
      cases hsel
      exact ⟨hu.symm, _, (h.stake u).sub _ (hu ▸ hplace), rfl⟩
    · exact h.hit u op hsel hin
  · obtain ⟨hx, hne⟩ := (hentry c' d' x).mp hx
    rw [hcx] at hsel
    split at hsel
    · rename_i hu
      have hop : e.oper = x.oper := by injection hsel
      have hplace' := h.listed c' d' x hx
      rw [hu] at hplace'
      have hst := h.stake e.owner
      have heq := hst.distinct _ _ (hst.sub _ hplace') (hst.sub _ hplace) (by simp [hop])
      injection heq with hc hd
      exact hne ⟨hc, hd, hop.symm⟩
    · exact h.live c' d' x hx hsel

/-- **`wake_one` keeps the books**: the entry it removes is the one whose operation it
    selects. -/
theorem Ok.wakeOne (h : r.Ok st) (c : Nat) (d : Side) : (r.wakeOne c d t).2.Ok st := by
  cases he : (r.wakeOne c d t).1 with
  | none =>
    rw [h.wakeOne_none he]
    exact h
  | some e =>
    have hfind : ((r.waker c d).wakeOne r.cx t).1 = some e := he
    obtain ⟨hmem, -, hwait⟩ := Waker.wakeOne_some hfind
    exact h.select hmem hwait (mem_wakeOne h hfind)
      (setWaker_nodup h.nodup (nodup_eraseP _ (h.nodup c d))) (setWaker_len h.len c d _)
      (wakeOne_select he)

omit [DecidableEq Tid] in
/-- The packet in a context is not in the books. -/
theorem Ok.congr (h : r.Ok st) {r' : Registry Tid} (hw : r'.waker = r.waker) (hlen : r'.len = r.len)
    (hcx : ∀ u, (r'.cx u).select = (r.cx u).select) : r'.Ok st where
  stake := h.stake
  listed := by rw [hw]; exact h.listed
  present := by simp only [hw, hcx]; exact h.present
  nodup := by rw [hw]; exact h.nodup
  hit := by simp only [hcx]; exact h.hit
  live := by simp only [hw, hcx]; exact h.live
  len := by rw [hw, hlen]; exact h.len

end Registry

end CrossbeamChannel
