import CrossbeamChannel.World.Phases

/-!
# Where an effect comes from

What call of a thread has an effect on the shared state, and what the call learns from it:
`Shared.exec_explains`.

This turns `Shared.exec` around. A proof about, say, who can have set `received` of an `after` channel
starts from the effect, and would have to look through all calls of all flavors for it. With `Explains`
it has the one call, with its place in the source and its guard, for instance that a tick is taken only
when the clock has come to it (`tick.rs` 53-67). `Calls` leads further back, from a call to the places of
the bodies that make it.
-/

namespace CrossbeamChannel

variable {Tid T : Type} [DecidableEq Tid]

/-- The call is the section at the start of an operation of a zero channel. -/
def Call.Pairs (kind : Nat → Kind T) (c : Nat) (d : Side) (offer : Option (Packet T))
    (call : Call T) : Prop :=
  call = .pair c d offer ∨
    ((kind c).IsZero ∧ ((call = .start c d ∧ offer = Option.none) ∨
      (call = .retry c d ∧ offer = some .emptyOnHeap)))

/-- The call is a try of a handle of channel `c`. -/
def Call.Tries (c : Nat) (call : Call T) : Prop :=
  ∃ d, call = .start c d ∨ call = .retry c d ∨ call = .accept c d

namespace Shared

variable {w : Shared Tid T} {t : Tid} {kind : Nat → Kind T} {call : Call T} {pr : Prog}
  {act : Act Tid T} {rep : Reply Tid T} {spurious : Bool}

/-- The call whose step has this effect, and how it goes on. -/
def Explains (w : Shared Tid T) (t : Tid) (kind : Nat → Kind T) (call : Call T) (pr : Prog)
    (rep : Reply Tid T) : Act Tid T → Prop
  | .silent => True
  | .drive c k b a =>
      call.onBuffer kind pr = some (c, k) ∧ Drives w t kind call pr c k (.drive c k b a) rep a
  | .setReceived c =>
      (call.Tries c ∨ ∃ deadline, call = .recvTimer c deadline) ∧
      ∃ deliveryTime, kind c = .after deliveryTime ∧
        (w.received c = false → rep = .ret (.token (.instant deliveryTime))) ∧
        (w.received c = true → ∀ tk, rep ≠ .ret (.token tk))
  | .takeTick c duration =>
      (call.Tries c ∨ ∃ deadline, call = .recvTimer c deadline) ∧
      (∃ firstTick, kind c = .tick firstTick duration) ∧ (w.tick c).nextTick ≤ w.clock ∧
        rep = .ret (.token (.instant (w.tick c).nextTick))
  | .register c d slot =>
      call = .register c d slot ∧ pr = .start ∧ (kind c).Buffered ∧ rep = .more .checking
  | .unregister c d slot =>
      (call = .unregister c d slot ∨ (call = .withdraw c d ∧ slot = 0)) ∧
        rep = .ret (.removed (w.reg.unregister c d ⟨t, slot⟩).1)
  | .wakeOne c d =>
      (call = .wakeOne c d ∧ rep = .ret .unit) ∨
        ∃ offer e, call.Pairs kind c d.opposite offer ∧ (w.reg.wakeOne c d t).1 = some e ∧
          rep = .ret (.token ((e.packet.map .packet).getD .null))
  | .disconnect c d => call = .disconnectWaker c d ∧ rep = .ret .unit
  | .offer c d slot =>
      call = .register c d slot ∧ (kind c).IsZero ∧
        rep = .ret (.flag (!(w.reg.waker c d.opposite).canWakeOne w.reg.cx t && !w.isDisconnected c))
  | .queue c d v =>
      call.Pairs kind c d (some v) ∧ (w.reg.wakeOne c d.opposite t).1 = none ∧
        w.isDisconnected c = false ∧ rep = .ret (.queued w.fresh)
  | .disconnectZero c => call = .disconnectZero c ∧ w.isDisconnected c = false ∧ rep = .ret .unit
  | .reset => call = .reset ∧ rep = .ret .unit
  | .abort =>
      (call = .abort ∨ ∃ deadline, call = .waitUntil deadline) ∧
        rep = .ret (.selected
          (if (w.reg.cx t).select = .waiting then .aborted else (w.reg.cx t).select))
  | .setPacket p v =>
      (∃ msg, call = .storeMsg p msg ∧ v = { w.packet p with msg := some msg } ∧ rep = .ret .unit) ∨
      (call = .setReady p ∧ v = { w.packet p with ready := true } ∧ rep = .ret .unit) ∨
      (call = .takeMsg p ∧ v = { w.packet p with msg := none } ∧ rep = .ret (.msg (w.packet p).msg))

theorem pair_explains {c : Nat} {d : Side} {offer : Option (Packet T)}
    (hc : call.Pairs kind c d offer) (h : w.pair t c d offer = (act, rep)) :
    Explains w t kind call pr rep act := by
  unfold pair at h
  split at h
  · rename_i e he
    cases h
    exact .inr ⟨offer, e, by rwa [Side.opposite_opposite], he, rfl⟩
  · rename_i hnone
    split at h
    · cases h
      trivial
    · rename_i hd
      split at h
      · cases h
        trivial
      · cases h
        exact ⟨hc, hnone, Bool.eq_false_of_not_eq_true hd, rfl⟩

theorem start_explains {c : Nat} {d : Side} (hk : ¬ (kind c).Buffered)
    (hzero : (kind c).IsZero → call.Pairs kind c d none) (hcall : call.Tries c)
    (h : w.start t kind c d pr spurious = some (act, rep)) : Explains w t kind call pr rep act := by
  unfold start at h
  cases hkind : kind c with
  | array ch built | list =>
    rw [hkind] at hk
    exact absurd trivial hk
  | zero =>
    rw [hkind] at h
    exact pair_explains (hzero (by rw [hkind]; trivial)) (Option.some.inj h)
  | after deliveryTime =>
    rw [hkind] at h
    dsimp only [tryAfter] at h
    split at h
    · cases h
      trivial
    · cases h
      trivial
    · cases h
      refine ⟨.inl hcall, deliveryTime, hkind, fun hr => by simp [hr], fun hr tk => by simp [hr]⟩
    · cases h
  | tick firstTick duration =>
    rw [hkind] at h
    dsimp only [tryTick] at h
    split at h <;> cases h
    · exact ⟨.inl hcall, ⟨firstTick, hkind⟩, ‹_›, rfl⟩
    · trivial
  | never =>
    rw [hkind] at h
    cases h
    trivial

/-- **Where an effect comes from.** -/
theorem exec_explains (h : w.exec t kind call pr spurious = some (act, rep)) :
    Explains w t kind call pr rep act := by
  -- What a call does at a buffered channel is explained by the channel; all else is looked at here.
  cases hc : call.onBuffer kind pr with
  | some ck =>
    obtain ⟨c, k⟩ := ck
    obtain ⟨a, hd⟩ := exec_onBuffer hc h
    obtain ⟨spurious', b, hdrive, rfl⟩ := hd.drive
    exact ⟨hc, hd⟩
  | none =>
    cases call with
    | start c d =>
      exact start_explains (Kind.starts_none hc) (fun hk => .inr ⟨hk, .inl ⟨rfl, rfl⟩⟩) ⟨d, .inl rfl⟩ h
    | retry c d =>
      simp only [exec, retry] at h
      split at h
      · rename_i hk
        exact pair_explains (.inr ⟨by rw [hk]; trivial, .inr ⟨rfl, rfl⟩⟩) (Option.some.inj h)
      · rename_i hk
        exact start_explains (Kind.starts_none hc) (fun hz => absurd hz.eq hk) ⟨d, .inr (.inl rfl)⟩ h
    | accept c d =>
      simp only [exec, accept] at h
      split at h
      · cases h
        trivial
      · rename_i hk
        exact start_explains (Kind.starts_none hc) (fun hz => absurd hz.eq hk) ⟨d, .inr (.inr rfl)⟩ h
    | register c d slot =>
      -- Only the first of the two or three steps changes the queue.
      have buffer : (kind c).Buffered → w.registerBuffer t c d slot pr spurious = some (act, rep) →
          (pr.checks c d : Option (Nat × BufferCall T)) = none →
          Explains w t kind (.register c d slot) pr rep act := by
        intro hk hb hon
        cases pr <;> cases hon <;> cases hb
        exact ⟨rfl, rfl, hk, rfl⟩
      simp only [exec, Shared.register] at h
      simp only [Call.onBuffer] at hc
      cases hk : kind c with
      | array ch built =>
        rw [hk] at h hc
        exact buffer (by rw [hk]; trivial) h hc
      | list =>
        rw [hk] at h hc
        cases d with
        | send => cases hc
        | recv => exact buffer (by rw [hk]; trivial) h hc
      | zero =>
        rw [hk] at h
        dsimp only at h
        split at h <;> cases h
        exact ⟨rfl, by rw [hk]; trivial, rfl⟩
      | after _ | tick _ _ | never =>
        rw [hk] at h
        cases h
        trivial
    | unregister c d slot =>
      simp only [exec, Shared.unregister, unregisterSync] at h
      repeat' split at h
      all_goals cases h
      all_goals first | trivial | exact ⟨.inl rfl, rfl⟩
    | withdraw c d =>
      cases h
      exact ⟨.inr ⟨rfl, rfl⟩, rfl⟩
    | wakeOne c d =>
      simp only [exec, wakeOneSync] at h
      split at h <;> cases h
      · exact .inl ⟨rfl, rfl⟩
      · trivial
    | pair c d offer => exact pair_explains (.inl rfl) (Option.some.inj h)
    | disconnectWaker c d =>
      cases h
      exact ⟨rfl, rfl⟩
    | disconnectZero c =>
      simp only [exec] at h
      cases h
      split
      · trivial
      · exact ⟨rfl, Bool.eq_false_of_not_eq_true ‹_›, rfl⟩
    | storeMsg p msg =>
      cases h
      exact .inl ⟨msg, rfl, rfl, rfl⟩
    | setReady p =>
      cases h
      exact .inr (.inl ⟨rfl, rfl, rfl⟩)
    | takeMsg p =>
      cases h
      exact .inr (.inr ⟨rfl, rfl, rfl⟩)
    | reset =>
      cases h
      exact ⟨rfl, rfl⟩
    | abort =>
      cases h
      exact ⟨.inl rfl, rfl⟩
    | waitUntil deadline =>
      simp only [exec, waitUntil] at h
      split at h
      case h_6 =>
        cases h
        exact ⟨.inr ⟨deadline, rfl⟩, rfl⟩
      all_goals cases h
      all_goals trivial
    | recvTimer c deadline =>
      simp only [exec, recvTimer] at h
      split at h
      case h_3 deliveryTime hkind =>
        cases h
        exact ⟨.inr ⟨deadline, rfl⟩, deliveryTime, hkind, fun hr => by simp [hr], fun hr tk => by simp [hr]⟩
      case h_7 =>
        split at h <;> cases h
        · exact ⟨.inr ⟨deadline, rfl⟩, ⟨_, ‹_›⟩, ‹_›, rfl⟩
        · trivial
      all_goals cases h
      all_goals trivial
    | write _ _ | read _ | setDisconnected _ => cases hc
    | none => cases h
    | _ =>
      cases h
      trivial

end Shared

namespace Frame.Next

variable {kind : Nat → Kind T} {w : Shared Tid T} {t : Tid} {act : Act Tid T} {f g : Frame Tid T}
  {pr pr' : Prog}

/-- A step on a buffered channel drives it with the call the thread is in. -/
theorem drives (h : Next kind w t f pr act g pr') (hb : ∀ c, (w.buffer c).Ok) {c : Nat}
    {k : BufferCall T} (hc : f.call.onBuffer kind pr = some (c, k)) :
    ∃ r, Phase.Drive (w.buffer c).cap k (w.buffer c).view ((w.buffer c).phase t)
        ((w.apply t act).buffer c).view (((w.apply t act).buffer c).phase t) r ∧
      (r = none → g = f ∧ f.call.onBuffer kind pr' = some (c, k)) ∧
      ∀ a, r = some a → (∀ pr'', k.answered a = (.more pr'' : Reply Tid T) → g = f ∧ pr' = pr'') ∧
        ∀ r', k.answered a = (.ret r' : Reply Tid T) →
          pr' = .start ∧ ∃ order, f.resume kind t order r' = some g := by
  obtain ⟨spurious, rep, he, hmore, hret⟩ := h.exec
  obtain ⟨a, hd⟩ := Shared.exec_onBuffer hc he
  obtain ⟨spurious', b, hdrive, rfl⟩ := hd.drive
  refine ⟨a, ?_, fun ha => ?_, fun a' ha => ⟨fun pr'' hrep => ?_, fun r' hrep => ?_⟩⟩
  · simp only [Shared.apply, Function.update_self]
    exact (Buffer.drive_driven (hb c) hdrive).drive
  · obtain ⟨pr'', hrep, hpr⟩ := hd.goes ha
    obtain ⟨rfl, rfl⟩ := hmore _ hrep
    exact ⟨rfl, hpr⟩
  · exact hmore _ ((hd.answers a' ha).trans hrep)
  · exact hret _ ((hd.answers a' ha).trans hrep)

/-- A channel the call of a thread is not on stays as it is. -/
theorem undriven (h : Next kind w t f pr act g pr') {c : Nat}
    (hc : ∀ k, f.call.onBuffer kind pr ≠ some (c, k)) :
    (w.apply t act).buffer c = w.buffer c := by
  obtain ⟨spurious, rep, he, -⟩ := h.exec
  cases hf : f.call.onBuffer kind pr with
  | none => rw [Shared.exec_offBuffer hf he]
  | some ck =>
    obtain ⟨c', k⟩ := ck
    obtain ⟨a, hd⟩ := Shared.exec_onBuffer hf he
    obtain ⟨spurious', b, -, rfl⟩ := hd.drive
    have hcc : c ≠ c' := by
      rintro rfl
      exact hc k hf
    simp only [Shared.apply, Function.update_of_ne hcc]

/-- **What a step of a body does to a buffered channel**: nothing, or one step of the call the
    body makes there, with whose answer the body goes on. -/
theorem driven (h : Next kind w t f pr act g pr') (hb : ∀ c, (w.buffer c).Ok) (c : Nat) :
    (w.apply t act).buffer c = w.buffer c ∨
    ∃ k r, f.call.onBuffer kind pr = some (c, k) ∧
      Phase.Drive (w.buffer c).cap k (w.buffer c).view ((w.buffer c).phase t)
        ((w.apply t act).buffer c).view (((w.apply t act).buffer c).phase t) r ∧
      (r = none → g = f ∧ f.call.onBuffer kind pr' = some (c, k)) ∧
      ∀ a, r = some a → (∀ pr'', k.answered a = (.more pr'' : Reply Tid T) → g = f ∧ pr' = pr'') ∧
        ∀ r', k.answered a = (.ret r' : Reply Tid T) →
          pr' = .start ∧ ∃ order, f.resume kind t order r' = some g := by
  by_cases hc : ∃ k, f.call.onBuffer kind pr = some (c, k)
  · obtain ⟨k, hc⟩ := hc
    obtain ⟨r, hd⟩ := h.drives hb hc
    exact .inr ⟨k, r, hc, hd⟩
  · exact .inl (h.undriven fun k hk => hc ⟨k, hk⟩)

end Frame.Next

namespace Shared

variable {w : Shared Tid T} {t : Tid} {act : Act Tid T}

/-! ## What an effect does to the registry -/

/-- The entry a step puts into a queue. -/
def Enters (w : Shared Tid T) (t : Tid) (c : Nat) (d : Side) (e : Entry Tid) : Act Tid T → Prop
  | .register c' d' slot => c' = c ∧ d' = d ∧ e = ⟨⟨t, slot⟩, none⟩
  | .offer c' d' slot => c' = c ∧ d' = d ∧ e = ⟨⟨t, slot⟩, some w.fresh⟩
  | .queue c' d' _ => c' = c ∧ d' = d ∧ e = ⟨⟨t, 0⟩, some w.fresh⟩
  | _ => False

/-- The step makes the thread's own context `Waiting`. -/
def Renews : Act Tid T → Prop
  | .reset | .queue _ _ _ => True
  | _ => False

omit [DecidableEq Tid] in
theorem mem_register {r : Registry Tid} {c c' : Nat} {d d' : Side} {e e' : Entry Tid}
    (h : e ∈ ((r.register c' d' e').waker c d).entries) :
    e ∈ (r.waker c d).entries ∨ (c' = c ∧ d' = d ∧ e = e') := by
  rcases Registry.mem_setWaker.mp h with ⟨rfl, rfl, he⟩ | ⟨-, he⟩
  · rcases List.mem_append.mp he with he | he
    · exact .inl he
    · exact .inr ⟨rfl, rfl, List.mem_singleton.mp he⟩
  · exact .inl he

omit [DecidableEq Tid] in
theorem mem_setWaker_sub {r : Registry Tid} {c c' : Nat} {d d' : Side} {w : Waker Tid}
    {e : Entry Tid} (hw : ∀ e, e ∈ w.entries → e ∈ (r.waker c' d').entries)
    (h : e ∈ ((r.setWaker c' d' w).waker c d).entries) : e ∈ (r.waker c d).entries := by
  rcases Registry.mem_setWaker.mp h with ⟨rfl, rfl, he⟩ | ⟨-, he⟩
  · exact hw e he
  · exact he

/-- An entry found after a step was there before, or the step has put it there. -/
theorem mem_apply {c : Nat} {d : Side} {e : Entry Tid}
    (h : e ∈ ((w.apply t act).reg.waker c d).entries) :
    e ∈ (w.reg.waker c d).entries ∨ Enters w t c d e act := by
  cases act with
  | register c' d' slot => exact mem_register h
  | offer c' d' slot => exact mem_register h
  | queue c' d' v => exact mem_register (r := w.reg.reset t) h
  | unregister c' d' slot => exact .inl (mem_setWaker_sub (fun e he => List.mem_of_mem_eraseP he) h)
  | wakeOne c' d' => exact .inl (mem_setWaker_sub (fun e he => List.mem_of_mem_eraseP he) h)
  | _ => exact .inl h

/-- A context that is waiting after a step was waiting before, or the step has renewed it. -/
theorem waiting_apply {u : Tid} (h : ((w.apply t act).reg.cx u).select = .waiting) :
    (w.reg.cx u).select = .waiting ∨ (u = t ∧ Renews act) := by
  have disconnect : ∀ (r : Registry Tid) c d, ((r.disconnect c d).cx u).select = .waiting →
      (r.cx u).select = .waiting := by
    intro r c d h
    simp only [Registry.disconnect, Waker.disconnect_apply] at h
    split at h
    · exact absurd h (Context.trySelect_ne_waiting (by simp))
    · exact h
  have renew : ∀ r : Registry Tid, ((r.reset t).cx u).select = .waiting →
      (r.cx u).select = .waiting ∨ u = t := by
    intro r h
    by_cases hu : u = t
    · exact .inr hu
    · simp only [Registry.reset, Function.update_of_ne hu] at h
      exact .inl h
  cases act with
  | reset => exact (renew w.reg h).imp_right fun hu => ⟨hu, trivial⟩
  | queue c d v => exact (renew w.reg h).imp_right fun hu => ⟨hu, trivial⟩
  | wakeOne c d =>
    cases he : (w.reg.wakeOne c d t).1 with
    | none =>
      have hcx : (w.reg.wakeOne c d t).2.cx = w.reg.cx := by
        simp only [Registry.wakeOne, show ((w.reg.waker c d).wakeOne w.reg.cx t).1 = none from he,
          Waker.wakeContext_none]
      simp only [apply, hcx] at h
      exact .inl h
    | some e =>
      simp only [apply, Registry.wakeOne_select he] at h
      split at h
      · cases h
      · exact .inl h
  | disconnect c d => exact .inl (disconnect _ _ _ h)
  | disconnectZero c => exact .inl (disconnect _ _ _ (disconnect _ _ _ h))
  | abort =>
    left
    by_cases hu : u = t
    · subst hu
      simp only [apply, Registry.abort, Function.update_self] at h
      exact absurd h (Context.trySelect_ne_waiting (by simp))
    · simpa only [apply, Registry.abort, Function.update_of_ne hu] using h
  | _ => exact .inl h

end Shared

namespace World.After

variable {w w' : World Tid T} {t : Tid} {act : Act Tid T} {th : Thread Tid T}
  {count : Nat → Side → Nat}

/-- The other threads' entries were there before. -/
theorem mem_before (ha : After w w' t act th count) {c : Nat} {d : Side} {e : Entry Tid}
    (he : e ∈ (w'.shared.reg.waker c d).entries) (hne : e.owner ≠ t) :
    e ∈ (w.shared.reg.waker c d).entries := by
  rw [ha.shared] at he
  refine (Shared.mem_apply he).resolve_right fun henters => ?_
  cases act <;> first | exact henters.elim | (obtain ⟨-, -, rfl⟩ := henters; exact hne rfl)

/-- A thread that waits did so before, unless it is its own turn. -/
theorem waiting_before (ha : After w w' t act th count) {u : Tid}
    (hw : (w'.shared.reg.cx u).select = .waiting) (hne : u ≠ t) :
    (w.shared.reg.cx u).select = .waiting := by
  rw [ha.shared] at hw
  exact (Shared.waiting_apply hw).resolve_right fun h => hne h.1

end World.After

/-! ## Where a body makes which call -/

namespace Frame

variable {kind : Nat → Kind T} {f : Frame Tid T} {c : Nat} {d : Side}

/-- The places from which the call is made. -/
def Calls (f : Frame Tid T) : Call T → Prop
  | .start c d =>
      (∃ job mode n, f = .plain job mode (.attempt n) ∧ c = job.chan ∧ d = job.side) ∨
      (f = .timer c .nonblocking ∧ d = .recv) ∨
      ∃ handles timeout st i x, f = .select handles timeout st ∧ handles[i]? = some x ∧
        c = x.chan ∧ d = x.side ∧ (st = .attempt i ∨ ∃ states, st = .probe i states)
  | .retry c d =>
      ∃ handles timeout i x, f = .select handles timeout (.again i .first) ∧
        handles[i]? = some x ∧ c = x.chan ∧ d = x.side
  | .register c d slot =>
      (∃ job mode, f = .plain job mode .register ∧ c = job.chan ∧ d = job.side ∧ slot = 0) ∨
      ∃ handles timeout i x, f = .select handles timeout (.register i) ∧ handles[i]? = some x ∧
        c = x.chan ∧ d = x.side ∧ slot = i + 1
  | .unregister c d slot =>
      (∃ job mode, f = .plain job mode .unregister ∧ c = job.chan ∧ d = job.side ∧ slot = 0) ∨
      ∃ handles timeout i count sel x, f = .select handles timeout (.unregister i count sel) ∧
        handles[i]? = some x ∧ c = x.chan ∧ d = x.side ∧ slot = i + 1
  | .accept c d =>
      ∃ handles timeout i x, f = .select handles timeout (.accept i) ∧ handles[i]? = some x ∧
        c = x.chan ∧ d = x.side
  | .state c d =>
      ∃ handles timeout st i x, f = .select handles timeout st ∧ handles[i]? = some x ∧
        c = x.chan ∧ d = x.side ∧ ((∃ states, st = .snapshot states ∧ i = states.length) ∨
          ∃ states current changed, st = .recheck states current changed ∧ i = current.length)
  | .deadline c =>
      ∃ handles timeout i acc x, f = .select handles timeout (.deadline i acc) ∧
        handles[i]? = some x ∧ c = x.chan
  | .write c msg => f = .finish ⟨c, some msg⟩ .complete
  | .read c => f = .finish ⟨c, Option.none⟩ .complete
  | .wakeOne c d =>
      ∃ job out, f = .finish job (.wakeOne out) ∧ c = job.chan ∧ d = job.side.opposite
  | .setDisconnected c => ∃ d, f = .close c d .setDisconnected
  | .disconnectWaker c d =>
      (d = .send ∧ ∃ d', f = .close c d' .senders) ∨ (d = .recv ∧ ∃ d', f = .close c d' .receivers)
  | .pair c d offer =>
      ∃ job mode, f = .zero job mode .pair ∧ c = job.chan ∧ d = job.side ∧
        offer = Frame.offer job mode
  | .withdraw c d =>
      (∃ job mode p sel, f = .zero job mode (.withdraw p sel) ∧ c = job.chan ∧ d = job.side) ∨
      ∃ handles timeout i p sel x, f = .select handles timeout (.again i (.withdraw p sel)) ∧
        handles[i]? = some x ∧ c = x.chan ∧ d = x.side
  | .disconnectZero c => ∃ d, f = .close c d .zero
  | .storeMsg p msg => ∃ c, f = .finish ⟨c, some msg⟩ (.storeMsg p)
  | .setReady p => ∃ job out, f = .finish job (.setReady p out)
  | .loadOnStack p => ∃ job, f = .finish job (.loadOnStack p)
  | .waitReady p =>
      (∃ job mode, f = .zero job mode (.waitReady p)) ∨ ∃ job, f = .finish job (.waitReady p)
  | .takeMsg p =>
      (∃ job mode sel, f = .zero job mode (.recover p sel)) ∨
      (∃ job mode, f = .zero job mode (.takeMsg p)) ∨ ∃ job onStack, f = .finish job (.takeMsg p onStack)
  | .dropPacket p =>
      (∃ job msg, f = .finish job (.dropPacket p msg)) ∨
      ∃ handles timeout i sel, f = .select handles timeout (.again i (.dropPacket p sel))
  | .reset =>
      (∃ job mode, f = .plain job mode .reset) ∨ ∃ handles timeout, f = .select handles timeout .reset
  | .abort =>
      (∃ job mode, f = .plain job mode .abort) ∨
      (∃ handles timeout i, f = .select handles timeout (.abort i)) ∨
      ∃ handles timeout i p, f = .select handles timeout (.again i (.pause p))
  | .selected => ∃ handles timeout i, f = .select handles timeout (.selected i)
  | .waitUntil deadline =>
      (∃ job mode, f = .plain job mode .wait ∧ deadline = mode.deadline) ∨
      (∃ job mode p, f = .zero job mode (.wait p) ∧ deadline = mode.deadline) ∨
      ∃ handles timeout, f = .select handles timeout (.wait deadline)
  | .waitPacket => ∃ handles timeout i, f = .select handles timeout (.again i .packet)
  | .recvTimer c deadline => f = .timer c (.blocking deadline)
  | .none | .skip | .now => True

omit [DecidableEq Tid] in
theorem onHandle_calls {handles : List Handle} {i : Nat} {g : Handle → Call T}
    (h : ∀ x, handles[i]? = some x → f.Calls (g x)) : f.Calls (onHandle handles i g) := by
  unfold onHandle
  split
  · exact h _ ‹_›
  · trivial

omit [DecidableEq Tid] in
/-- **Where a body makes its call.** -/
theorem calls (f : Frame Tid T) : f.Calls f.call := by
  cases f with
  | plain job mode st =>
    cases st with
    | attempt n => exact .inl ⟨job, mode, n, rfl, rfl, rfl⟩
    | reset => exact .inl ⟨job, mode, rfl⟩
    | register => exact .inl ⟨job, mode, rfl, rfl, rfl, rfl⟩
    | abort => exact .inl ⟨job, mode, rfl⟩
    | wait => exact .inl ⟨job, mode, rfl, rfl⟩
    | unregister => exact .inl ⟨job, mode, rfl, rfl, rfl, rfl⟩
    | deadline woken => trivial
  | zero job mode st =>
    cases st with
    | pair => exact ⟨job, mode, rfl, rfl, rfl, rfl⟩
    | wait p => exact .inr (.inl ⟨job, mode, p, rfl, rfl⟩)
    | withdraw p sel => exact .inl ⟨job, mode, p, sel, rfl, rfl, rfl⟩
    | recover p sel => exact .inl ⟨job, mode, sel, rfl⟩
    | waitReady p => exact .inl ⟨job, mode, rfl⟩
    | takeMsg p => exact .inr (.inl ⟨job, mode, rfl⟩)
  | timer c mode =>
    cases mode with
    | nonblocking => exact .inr (.inl ⟨rfl, rfl⟩)
    | blocking deadline => exact rfl
  | finish job st =>
    obtain ⟨c, msg⟩ := job
    cases st with
    | complete => cases msg <;> exact rfl
    | wakeOne out => exact ⟨_, out, rfl, rfl, rfl⟩
    | storeMsg p =>
      cases msg with
      | none => trivial
      | some msg => exact ⟨c, rfl⟩
    | setReady p out => exact ⟨_, out, rfl⟩
    | loadOnStack p => exact ⟨_, rfl⟩
    | waitReady p => exact .inr ⟨_, rfl⟩
    | takeMsg p onStack => exact .inr (.inr ⟨_, onStack, rfl⟩)
    | dropPacket p msg => exact .inl ⟨_, msg, rfl⟩
  | select handles timeout st =>
    cases st with
    | attempt i =>
      exact onHandle_calls fun x hx => .inr (.inr ⟨_, _, _, i, x, rfl, hx, rfl, rfl, .inl rfl⟩)
    | probe i states =>
      exact onHandle_calls fun x hx => .inr (.inr ⟨_, _, _, i, x, rfl, hx, rfl, rfl, .inr ⟨states, rfl⟩⟩)
    | again i st =>
      cases st with
      | first => exact onHandle_calls fun x hx => ⟨_, _, i, x, rfl, hx, rfl, rfl⟩
      | pause p => exact .inr (.inr ⟨_, _, i, p, rfl⟩)
      | withdraw p sel => exact onHandle_calls fun x hx => .inr ⟨_, _, i, p, sel, x, rfl, hx, rfl, rfl⟩
      | dropPacket p sel => exact .inr ⟨_, _, i, sel, rfl⟩
      | packet => exact ⟨_, _, i, rfl⟩
    | reset => exact .inr ⟨_, _, rfl⟩
    | register i => exact onHandle_calls fun x hx => .inr ⟨_, _, i, x, rfl, hx, rfl, rfl, rfl⟩
    | abort i => exact .inr (.inl ⟨_, _, i, rfl⟩)
    | selected i => exact ⟨_, _, i, rfl⟩
    | deadline i acc => exact onHandle_calls fun x hx => ⟨_, _, i, acc, x, rfl, hx, rfl⟩
    | wait deadline => exact .inr (.inr ⟨_, _, rfl⟩)
    | unregister i count sel =>
      exact onHandle_calls fun x hx => .inr ⟨_, _, i, count, sel, x, rfl, hx, rfl, rfl, rfl⟩
    | accept i => exact onHandle_calls fun x hx => ⟨_, _, i, x, rfl, hx, rfl, rfl⟩
    | snapshot states =>
      exact onHandle_calls fun x hx => ⟨_, _, _, _, x, rfl, hx, rfl, rfl, .inl ⟨states, rfl, rfl⟩⟩
    | recheck states current changed =>
      exact onHandle_calls fun x hx =>
        ⟨_, _, _, _, x, rfl, hx, rfl, rfl, .inr ⟨states, current, changed, rfl, rfl⟩⟩
    | shuffle | shuffleNow | timeCheck _ | sleep _ => trivial
  | close c d st =>
    cases st with
    | setDisconnected => exact ⟨d, rfl⟩
    | senders => exact .inl ⟨rfl, d, rfl⟩
    | receivers => exact .inr ⟨rfl, d, rfl⟩
    | zero => exact ⟨d, rfl⟩
  | done _ | chosen _ _ | panicked => trivial

omit [DecidableEq Tid] in
theorem calls_of_eq {call : Call T} (h : f.call = call) : f.Calls call := h ▸ f.calls

omit [DecidableEq Tid] in
/-- Attempts, and the entry of `Context::with`, are made from outside it. -/
theorem calm_of_call (h : (∃ c d, f.call = .start c d) ∨ (∃ c d, f.call = .retry c d) ∨
    (∃ c d offer, f.call = .pair c d offer) ∨ f.call = .reset) : f.Calm kind := by
  intro pr
  rcases h with ⟨c, d, h⟩ | ⟨c, d, h⟩ | ⟨c, d, offer, h⟩ | h
  · rcases calls_of_eq h with ⟨job, mode, n, rfl, -⟩ | ⟨rfl, -⟩ |
      ⟨handles, timeout, st, i, x, rfl, -, -, -, rfl | ⟨states, rfl⟩⟩ <;> rfl
  · obtain ⟨handles, timeout, i, x, rfl, -⟩ := calls_of_eq h
    rfl
  · obtain ⟨job, mode, rfl, -⟩ := calls_of_eq h
    rfl
  · rcases calls_of_eq h with ⟨job, mode, rfl⟩ | ⟨handles, timeout, rfl⟩ <;> rfl

end Frame

end CrossbeamChannel
