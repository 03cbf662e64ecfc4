import CrossbeamChannel.World.Scopes

/-!
# The packets that are on offer

A packet of the zero flavor is on offer from its registration until `wake_one` provides it to
the context of its owner. Until then no thread knows its address but the one that holds the
mutex, so nobody sets its `ready` flag: `FineWorld.packets_reachable`.

A blocking operation waits for `ready` on its own stack (`zero.rs` 347 and 415), a short pause, or a
select that accepts, for the address in its context (`wait_packet`, `context.rs` 121-130). In both cases
the thread must not get away before the section that selected it is over with it. `Offered` covers the
time before the selection and the pending moment between `try_select` and `store_packet`; `Known` are the
threads that could set the flag. `Careful` collects what a step does about both, one clause for each
field of `Packets`, so that the invariant follows from it without looking at the step again.
-/

namespace CrossbeamChannel

variable {Tid T : Type}

namespace FineWorld

/-- `wake_one` has selected this entry and is about to provide its packet. -/
def Pending (kind : Nat → Kind T) (F : FineWorld Tid T) (c : Nat) (d : Side) (e : Entry Tid) :
    Prop :=
  ∃ h i, F.holder c (mutexOf kind c d) = some h ∧ h.side = d ∧ h.stage = .store i ∧
    (F.entries c d)[i]? = some e

/-- The entry is queued, and its packet has not been provided. -/
def Offered (kind : Nat → Kind T) (F : FineWorld Tid T) (c : Nat) (d : Side) (e : Entry Tid) :
    Prop :=
  e ∈ ((F.settled kind).waker c d).entries ∨ F.Pending kind c d e

/-- Some thread knows the address: it has it as its token, or in its context. -/
def Known (F : FineWorld Tid T) (p : Nat) : Prop :=
  ∃ t, (F.world.thread t).frame.Holds p ∨ (F.world.shared.reg.cx t).packet = some p

/-- The step from `F` to `F'` has put this entry into a queue. -/
structure Added (kind : Nat → Kind T) (F F' : FineWorld Tid T) (c : Nat) (d : Side)
    (e : Entry Tid) : Prop where
  free : F.taken kind c d = none
  free' : F'.taken kind c d = none
  pushed : F'.entries c d = F.entries c d ++ [e]
  others : ∀ c' d', ¬ (c' = c ∧ d' = d) → F'.entries c' d' = F.entries c' d'
  packet : ∀ p, e.packet = some p → (kind c).IsZero ∧ p = F.world.shared.fresh ∧
    F'.world.shared.fresh = F.world.shared.fresh + 1 ∧ (F'.world.shared.packet p).ready = false
  /-- A blocking operation waits with the packet it has queued. -/
  own : ∀ p job mode q, e.packet = some p →
    (F'.world.thread e.owner).frame = .zero job mode (.wait q) → q = p

/-- What a step does about packets. -/
structure Careful (kind : Nat → Kind T) (F F' : FineWorld Tid T) : Prop where
  fresh : F.world.shared.fresh ≤ F'.world.shared.fresh
  entries : (∀ c d, (F'.entries c d).Sublist (F.entries c d)) ∨ ∃ c d e, Added kind F F' c d e
  settled : ∀ c d e, e ∈ ((F'.settled kind).waker c d).entries →
    e ∈ ((F.settled kind).waker c d).entries ∨ Added kind F F' c d e
  pending : ∀ c d e, F'.Pending kind c d e → F.Offered kind c d e
  /-- An address becomes known when its packet is no more on offer. -/
  known : ∀ p, F'.Known p → F.Known p ∨
    ∃ c d e, e ∈ F.entries c d ∧ e.packet = some p ∧ ¬ F'.Offered kind c d e
  /-- Who sets a flag knows the address. -/
  ready : ∀ p, p < F.world.shared.fresh → ¬ F.Known p →
    (F.world.shared.packet p).ready = false → (F'.world.shared.packet p).ready = false

/-- The packets that are queued, and the ones that are known. -/
structure Packets (kind : Nat → Kind T) (F : FineWorld Tid T) : Prop where
  zero : ∀ c d e p, e ∈ F.entries c d → e.packet = some p →
    (kind c).IsZero ∧ p < F.world.shared.fresh
  unique : ∀ c d e c' d' e' p, e ∈ F.entries c d → e' ∈ F.entries c' d' → e.packet = some p →
    e'.packet = some p → c = c' ∧ d = d' ∧ e = e'
  nodup : ∀ c d, ((F.entries c d).map Entry.oper).Nodup
  known : ∀ p, F.Known p → p < F.world.shared.fresh
  secret : ∀ c d e p, F.Offered kind c d e → e.packet = some p →
    ¬ F.Known p ∧ (F.world.shared.packet p).ready = false

variable {F F' : FineWorld Tid T} {kind : Nat → Kind T} {c : Nat} {d : Side} {e : Entry Tid}

theorem mem_of_offered (h : F.Offered kind c d e) : e ∈ F.entries c d := by
  rcases h with h | ⟨hd, i, -, -, -, he⟩
  · exact Registry.mem_settle h
  · exact List.mem_of_getElem? he

/-- In a queue from which nothing is taken every entry is unselected. -/
theorem settled_of_free (h : F.taken kind c d = none) (he : e ∈ F.entries c d) :
    e ∈ ((F.settled kind).waker c d).entries := by
  rw [settled, Registry.settle_waker h]
  exact he

theorem settled_congr (ht : F'.taken kind c d = F.taken kind c d)
    (he : F'.entries c d = F.entries c d) :
    ((F'.settled kind).waker c d).entries = ((F.settled kind).waker c d).entries := by
  have hsame : (F'.world.shared.reg.waker c d).entries = (F.world.shared.reg.waker c d).entries := he
  simp only [settled]
  cases htk : F.taken kind c d with
  | none => rw [Registry.settle_waker htk, Registry.settle_waker (ht.trans htk), hsame]
  | some i => rw [Registry.settle_taken htk, Registry.settle_taken (ht.trans htk), hsame]

theorem pending_congr (hh : F'.holder = F.holder) (he : F'.entries c d = F.entries c d) :
    F'.Pending kind c d e ↔ F.Pending kind c d e := by
  simp only [Pending, hh, he]

theorem Added.not_mem (h : Added kind F F' c d e) (hb : Books kind F') : e ∉ F.entries c d := by
  intro he
  have hnodup := hb.books.nodup c d
  rw [settled, Registry.settle_waker h.free'] at hnodup
  have hnodup' : ((F'.entries c d).map Entry.oper).Nodup := hnodup
  rw [h.pushed, List.map_append, List.nodup_append] at hnodup'
  exact hnodup'.2.2 _ (List.mem_map_of_mem he) _ (by simp) rfl

theorem Added.mem {c' : Nat} {d' : Side} {e' : Entry Tid} (h : Added kind F F' c d e)
    (he : e' ∈ F'.entries c' d') : e' ∈ F.entries c' d' ∨ (c' = c ∧ d' = d ∧ e' = e) := by
  by_cases hcd : c' = c ∧ d' = d
  · obtain ⟨rfl, rfl⟩ := hcd
    rw [h.pushed] at he
    rcases List.mem_append.mp he with he | he
    · exact .inl he
    · exact .inr ⟨rfl, rfl, List.mem_singleton.mp he⟩
  · rw [h.others _ _ hcd] at he
    exact .inl he

theorem Careful.offered (h : Careful kind F F') {c : Nat} {d : Side} {e : Entry Tid}
    (ho : F'.Offered kind c d e) : F.Offered kind c d e ∨ Added kind F F' c d e := by
  rcases ho with hset | hp
  · exact (h.settled c d e hset).imp_left .inl
  · exact .inl (h.pending c d e hp)

/-- What is queued after a step. -/
theorem Careful.mem (h : Careful kind F F') {c : Nat} {d : Side} {e : Entry Tid}
    (he : e ∈ F'.entries c d) : e ∈ F.entries c d ∨ Added kind F F' c d e := by
  rcases h.entries with hsub | ⟨c₀, d₀, e₀, hadd⟩
  · exact .inl ((hsub c d).subset he)
  · rcases hadd.mem he with hold | ⟨rfl, rfl, rfl⟩
    · exact .inl hold
    · exact .inr hadd

theorem Added.changed (h : Added kind F F' c d e) : F'.entries c d ≠ F.entries c d := by
  rw [h.pushed]
  simp

/-- A step adds one entry at most. -/
theorem Added.eq {c' : Nat} {d' : Side} {e' : Entry Tid} (h : Added kind F F' c d e)
    (h' : Added kind F F' c' d' e') : c = c' ∧ d = d' ∧ e = e' := by
  by_cases hcd : c' = c ∧ d' = d
  · obtain ⟨rfl, rfl⟩ := hcd
    have heq := h.pushed.symm.trans h'.pushed
    exact ⟨rfl, rfl, List.singleton_injective (List.append_cancel_left heq)⟩
  · have heq := h'.pushed.symm.trans (h.others _ _ hcd)
    simp at heq

/-- **What a step about packets preserves.** -/
theorem Packets.step (hp : Packets kind F) (hb : Books kind F') (h : Careful kind F F') :
    Packets kind F' where
  zero := by
    intro c d e p he hpk
    rcases h.mem he with hold | hadd
    · exact ⟨(hp.zero c d e p hold hpk).1, Nat.lt_of_lt_of_le (hp.zero c d e p hold hpk).2 h.fresh⟩
    · obtain ⟨hz, rfl, hfresh, -⟩ := hadd.packet p hpk
      exact ⟨hz, by omega⟩
  unique := by
    intro c d e c' d' e' p he he' hpk hpk'
    rcases h.mem he with hold | hadd <;> rcases h.mem he' with hold' | hadd'
    · exact hp.unique c d e c' d' e' p hold hold' hpk hpk'
    · exact absurd (hadd'.packet p hpk').2.1 (Nat.ne_of_lt (hp.zero c d e p hold hpk).2)
    · exact absurd (hadd.packet p hpk).2.1 (Nat.ne_of_lt (hp.zero c' d' e' p hold' hpk').2)
    · exact hadd.eq hadd'
  nodup := by
    intro c d
    rcases h.entries with hsub | ⟨c₀, d₀, e₀, hadd⟩
    · exact (hp.nodup c d).sublist ((hsub c d).map _)
    · by_cases hcd : c = c₀ ∧ d = d₀
      · obtain ⟨rfl, rfl⟩ := hcd
        have hnodup := hb.books.nodup c d
        rwa [settled, Registry.settle_waker hadd.free'] at hnodup
      · rw [hadd.others _ _ hcd]
        exact hp.nodup c d
  known := by
    intro p hk
    rcases h.known p hk with hold | ⟨c, d, e, he, hpk, -⟩
    · exact Nat.lt_of_lt_of_le (hp.known p hold) h.fresh
    · exact Nat.lt_of_lt_of_le (hp.zero c d e p he hpk).2 h.fresh
  -- An entry that was on offer and still is has not been provided; a new one has a new address.
  secret := by
    intro c d e p ho hpk
    rcases h.offered ho with hold | hadd
    · obtain ⟨hsec, hready⟩ := hp.secret c d e p hold hpk
      have hmem := mem_of_offered hold
      refine ⟨fun hk => ?_, h.ready p (hp.zero c d e p hmem hpk).2 hsec hready⟩
      rcases h.known p hk with hk | ⟨c', d', e', he', hpk', hno⟩
      · exact hsec hk
      · obtain ⟨rfl, rfl, rfl⟩ := hp.unique c d e c' d' e' p hmem he' hpk hpk'
        exact hno ho
    · obtain ⟨-, rfl, -, hready⟩ := hadd.packet p hpk
      refine ⟨fun hk => ?_, hready⟩
      rcases h.known _ hk with hk | ⟨c', d', e', he', hpk', -⟩
      · exact Nat.lt_irrefl _ (hp.known _ hk)
      · exact Nat.lt_irrefl _ (hp.zero c' d' e' _ he' hpk').2

/-! ## Every step is careful -/

variable [DecidableEq Tid] {t : Tid} {act : Act Tid T} {s : Critical T} {h : Holder Tid}

/-- A step outside the sections leaves the queues as they are, but for the one it locks, which
    gets shorter, or gets a new entry. -/
theorem queues_apply {w : Shared Tid T} (hplain : act.Plain) :
    (∀ c d, ((w.apply t act).reg.waker c d).entries = (w.reg.waker c d).entries) ∨
      ∃ c d, act.on = some (c, d) ∧
        (((w.apply t act).reg.waker c d).entries.Sublist (w.reg.waker c d).entries ∨
          ∃ e, Shared.Enters w t c d e act ∧
            ((w.apply t act).reg.waker c d).entries = (w.reg.waker c d).entries ++ [e]) ∧
        ∀ c' d', ¬ (c' = c ∧ d' = d) →
          ((w.apply t act).reg.waker c' d').entries = (w.reg.waker c' d').entries := by
  have changed : ∀ {r : Registry Tid} {c d q}, r.waker = w.reg.waker → ∀ c' d',
      ¬ (c' = c ∧ d' = d) →
        ((r.setWaker c d q).waker c' d').entries = (w.reg.waker c' d').entries := by
    intro r c d q hr c' d' hcd
    rw [(Registry.setWaker_of_ne _ hcd).1, hr]
  cases act with
  | register c d slot | offer c d slot =>
    refine .inr ⟨c, d, rfl, .inr ⟨_, ⟨rfl, rfl, rfl⟩, ?_⟩, changed rfl⟩
    simp only [Shared.apply, Registry.register, (Registry.setWaker_self _ _ _).1]
    rfl
  | unregister c d slot =>
    refine .inr ⟨c, d, rfl, .inl ?_, changed rfl⟩
    simp only [Shared.apply, Registry.unregister, (Registry.setWaker_self _ _ _).1]
    exact List.eraseP_sublist
  | wakeOne _ _ | disconnect _ _ | disconnectZero _ | queue _ _ _ => exact hplain.elim
  | _ => exact .inl fun _ _ => rfl

/-- The packet that a step outside the sections puts up is a new one. -/
theorem packet_of_enters {w : Shared Tid T} {call : Call T} {pr : Prog} {rep : Reply Tid T}
    (hexp : Shared.Explains w t kind call pr rep act) (hplain : act.Plain)
    (he : Shared.Enters w t c d e act) {p : Nat} (hp : e.packet = some p) :
    (kind c).IsZero ∧ p = w.fresh ∧ (w.apply t act).fresh = w.fresh + 1 ∧
      ((w.apply t act).packet p).ready = false := by
  cases act with
  | register c' d' slot =>
    obtain ⟨-, -, rfl⟩ := he
    cases hp
  | offer c' d' slot =>
    obtain ⟨rfl, rfl, rfl⟩ := he
    cases hp
    refine ⟨hexp.2.1, rfl, rfl, ?_⟩
    simp only [Shared.apply, Shared.alloc, Function.update_self, Packet.emptyOnHeap]
  | queue _ _ _ => exact hplain.elim
  | _ => exact he.elim

/-- Only `run_select` puts up a packet outside the sections. -/
theorem not_wait_of_offer {w : Shared Tid T} {f g : Frame Tid T} {pr pr' : Prog} {slot : Nat}
    (hn : Frame.Next kind w t f pr (.offer c d slot) g pr') (hf : f.Typed kind) (job : Job T)
    (mode : Mode) (q : Nat) : g ≠ .zero job mode (.wait q) := by
  have hstays := hn.stays
  obtain ⟨spurious, rep, he, -⟩ := hn.exec
  obtain ⟨hcall, hz, -⟩ := Shared.exec_explains he
  rcases Frame.calls_of_eq hcall with ⟨job', mode', rfl, rfl, -⟩ |
    ⟨handles, timeout, i, x, rfl, -⟩
  · exact absurd hz (Kind.Buffered.not_zero hf)
  · rintro rfl
    cases hstays

/-- The flags after a step outside the sections. -/
theorem ready_apply {w : Shared Tid T} {f : Frame Tid T} {pr : Prog} {rep : Reply Tid T} {p : Nat}
    (hexp : Shared.Explains w t kind f.call pr rep act) (hplain : act.Plain) (hlt : p < w.fresh)
    (hno : ¬ f.Holds p) (hready : (w.packet p).ready = false) :
    ((w.apply t act).packet p).ready = false := by
  have alloc : ∀ v, ((w.alloc v).packet p).ready = false := by
    intro v
    simp only [Shared.alloc, Function.update_of_ne (Nat.ne_of_lt hlt), hready]
  cases act with
  | offer c d slot => exact alloc _
  | setPacket q v =>
    by_cases hpq : p = q
    · subst hpq
      simp only [Shared.apply, Function.update_self]
      rcases hexp with ⟨msg, -, rfl, -⟩ | ⟨hcall, -, -⟩ | ⟨-, rfl, -⟩
      · exact hready
      · obtain ⟨job, out, rfl⟩ := Frame.calls_of_eq hcall
        exact absurd rfl hno
      · exact hready
    · simpa only [Shared.apply, Function.update_of_ne hpq] using hready
  | wakeOne _ _ | disconnect _ _ | disconnectZero _ | queue _ _ _ => exact hplain.elim
  | _ => exact hready

/-- No step outside the sections provides a packet. -/
theorem packet_apply {w : Shared Tid T} (hplain : act.Plain) {u : Tid} {p : Nat}
    (h : ((w.apply t act).reg.cx u).packet = some p) : (w.reg.cx u).packet = some p := by
  have own : ∀ cx : Context Tid, (cx.packet = some p → (w.reg.cx t).packet = some p) →
      (Function.update w.reg.cx t cx u).packet = some p → (w.reg.cx u).packet = some p := by
    intro cx hcx h
    by_cases hu : u = t
    · subst hu
      rw [Function.update_self] at h
      exact hcx h
    · rwa [Function.update_of_ne hu] at h
  cases act with
  | reset => exact own _ (fun h => by cases h) h
  | abort =>
    refine own _ (fun h => ?_) h
    by_cases hw : (w.reg.cx t).select = .waiting
    · rwa [Context.trySelect_waiting hw] at h
    · rwa [Context.trySelect_decided hw] at h
  | wakeOne _ _ | disconnect _ _ | disconnectZero _ | queue _ _ _ => exact hplain.elim
  | _ => exact h

/-- Who knows an address after a turn outside the sections knew it before. -/
theorem known_turn {th : Thread Tid T} {count : Nat → Side → Nat}
    (ht : World.Turn kind F.world t act th count)
    (ha : World.After F.world F'.world t act th count) (hu : F.Unlocked kind t) (hplain : act.Plain)
    {p : Nat} (hk : F'.Known p) : F.Known p := by
  obtain ⟨u, hf | hcx⟩ := hk
  · by_cases hut : u = t
    · subst hut
      rw [ha.frame] at hf
      cases ht with
      | next hn =>
        cases hn with
        | more he => exact ⟨u, .inl hf⟩
        | ret he hr =>
          rcases Frame.resume_holds hr hf with hold | rfl
          · exact ⟨u, .inl hold⟩
          · exact ⟨u, .inr (Frame.token_source hu.1 he)⟩
      | start hover huses => exact absurd hf (Frame.opFrame_holds _)
      | complete hframe hside =>
        exact ⟨u, .inl (by rw [hframe]; exact Frame.finishWith_holds hf)⟩
      | drop hover hpos hfree => exact absurd hf (Frame.drop_holds _ _ _)
    · rw [ha.others hut] at hf
      exact ⟨u, .inl hf⟩
  · rw [ha.shared] at hcx
    exact ⟨u, .inr (packet_apply hplain hcx)⟩

/-- The effect of a turn outside the sections. -/
theorem turn_plain {th : Thread Tid T} {count : Nat → Side → Nat}
    (ht : World.Turn kind F.world t act th count) (hu : F.Unlocked kind t) :
    act.Plain ∧ (∀ c d, act.on = some (c, d) → F.holder c (mutexOf kind c d) = none) ∧
      ∃ pr rep, Shared.Explains F.world.shared t kind (F.world.thread t).frame.call pr rep act := by
  cases ht with
  | next hn =>
    obtain ⟨spurious, rep, he, -⟩ := hn.exec
    obtain ⟨hplain, hon⟩ := Shared.exec_plain hu.1 he
    exact ⟨hplain, fun c d hcd => hu.2 c d (hon _ hcd), _, rep, Shared.exec_explains he⟩
  | start _ _ | complete _ _ | drop _ _ _ =>
    exact ⟨trivial, fun c d hcd => (by cases hcd), .start, .more .start, trivial⟩

theorem careful_turn {th : Thread Tid T} {count : Nat → Side → Nat} (hb : Books kind F)
    (ht : World.Turn kind F.world t act th count)
    (ha : World.After F.world F'.world t act th count) (hu : F.Unlocked kind t)
    (hh : F'.holder = F.holder) : Careful kind F F' := by
  obtain ⟨hplain, hon, pr, rep, hexp⟩ := turn_plain ht hu
  have hentries : ∀ c d, F'.entries c d =
      ((F.world.shared.apply t act).reg.waker c d).entries := by
    intro c d
    rw [FineWorld.entries, ha.shared]
  have hq := queues_apply (t := t) (w := F.world.shared) hplain
  simp only [← hentries] at hq
  -- A new entry stands at the end of a queue that nobody works on.
  have added : ∀ c d e, act.on = some (c, d) → Shared.Enters F.world.shared t c d e act →
      F'.entries c d = F.entries c d ++ [e] →
      (∀ c' d', ¬ (c' = c ∧ d' = d) → F'.entries c' d' = F.entries c' d') →
      Added kind F F' c d e := by
    intro c d e hact he hpush hothers
    have hnone := hon c d hact
    refine ⟨taken_none hnone, taken_none (hh ▸ hnone), hpush, hothers, fun p hp => ?_,
      fun p job mode q hp hf => ?_⟩
    · rw [ha.shared]
      exact packet_of_enters hexp hplain he hp
    · cases act with
      | register c' d' slot =>
        obtain ⟨-, -, rfl⟩ := he
        cases hp
      | offer c' d' slot =>
        obtain ⟨-, -, rfl⟩ := he
        rw [ha.frame] at hf
        cases ht with
        | next hn => exact absurd hf (not_wait_of_offer hn (hb.typed t) job mode q)
      | queue _ _ _ => exact hplain.elim
      | _ => exact he.elim
  have htaken : F'.taken kind = F.taken kind := taken_congr hh
  refine ⟨?_, ?_, fun c d e hset => ?_, fun c d e hpd => ?_,
    fun p hk => .inl (known_turn ht ha hu hplain hk), fun p hlt hno hready => ?_⟩
  · rw [ha.shared]
    cases act <;> first | exact Nat.le_refl _ | exact Nat.le_succ _
  · rcases hq with hsame | ⟨c, d, hact, hsub | ⟨e, he, hpush⟩, hothers⟩
    · exact .inl fun c d => by rw [hsame]
    · refine .inl fun c' d' => ?_
      by_cases hcd : c' = c ∧ d' = d
      · obtain ⟨rfl, rfl⟩ := hcd
        exact hsub
      · rw [hothers _ _ hcd]
    · exact .inr ⟨c, d, e, added c d e hact he hpush hothers⟩
  · have same : F'.entries c d = F.entries c d →
        e ∈ ((F.settled kind).waker c d).entries ∨ Added kind F F' c d e := fun hsame =>
      .inl (settled_congr (congrFun (congrFun htaken c) d) hsame ▸ hset)
    rcases hq with hsame | ⟨c₀, d₀, hact, hchange, hothers⟩
    · exact same (hsame c d)
    · by_cases hcd : c = c₀ ∧ d = d₀
      · obtain ⟨rfl, rfl⟩ := hcd
        have hfree : F.taken kind c d = none := taken_none (hon c d hact)
        have hmem : e ∈ F'.entries c d := Registry.mem_settle hset
        rcases hchange with hsub | ⟨e', he', hpush⟩
        · exact .inl (settled_of_free hfree (hsub.subset hmem))
        · rw [hpush] at hmem
          rcases List.mem_append.mp hmem with hold | hnew
          · exact .inl (settled_of_free hfree hold)
          · obtain rfl := List.mem_singleton.mp hnew
            exact .inr (added c d e hact he' hpush hothers)
      · exact same (hothers _ _ hcd)
  · -- A queue with a pending entry is locked.
    refine .inr ((pending_congr hh ?_).mp hpd)
    obtain ⟨y, i, hy, -⟩ := hpd
    rcases hq with hsame | ⟨c₀, d₀, hact, -, hothers⟩
    · exact hsame c d
    · refine hothers c d ?_
      rintro ⟨rfl, rfl⟩
      rw [hh, hon c d hact] at hy
      cases hy
  · rw [ha.shared]
    exact ready_apply hexp hplain hlt (fun hf => hno ⟨t, .inl hf⟩) hready

/-! ### Inside a section -/

omit [DecidableEq Tid] in
theorem pending_of_holder {x : Option (Holder Tid)}
    (hhold : F'.holder = (F.setHolder s.chan (mutexOf kind s.chan s.side) x).holder)
    (hx : ∀ y i, x = some y → y.stage ≠ .store i)
    (he : F'.entries c d = F.entries c d) (hp : F'.Pending kind c d e) : F.Pending kind c d e := by
  obtain ⟨y, i, hy, hside, hstage, hi⟩ := hp
  rw [hhold] at hy
  rcases holder_setHolder hy with ⟨-, -, rfl⟩ | hold
  · exact absurd hstage (hx y i rfl)
  · exact ⟨y, i, hold, hside, hstage, he ▸ hi⟩

omit [DecidableEq Tid] in
/-- What is taken after a step inside a section that goes on at this stage. -/
theorem taken_stage (hb : Books kind F) {F₁ : FineWorld Tid T} {stage : Stage}
    (hh : F.holder s.chan (mutexOf kind s.chan s.side) = some h) (hholder : F₁.holder = F.holder)
    (hstage : stage.taken = h.stage.taken) :
    (F₁.hold kind s { h with stage := stage }).taken kind = F.taken kind := by
  funext c d
  rw [FineWorld.hold, hb.taken_update _ _ hh hholder fun y hy => by cases hy; rfl]
  split
  · rename_i hcd
    rw [hcd.1, hcd.2, hb.taken_self hh, ← hstage]
    rfl
  · rfl

omit [DecidableEq Tid] in
/-- The entry a section has taken is not offered, but for its store. -/
theorem not_offered_of_taken {i : Nat} (hnodup : ((F.entries c d).map Entry.oper).Nodup)
    (htaken : F.taken kind c d = some i) (he : (F.entries c d)[i]? = some e)
    (hno : ∀ y j, F.holder c (mutexOf kind c d) = some y → y.stage ≠ .store j) :
    ¬ F.Offered kind c d e := by
  rintro (hset | ⟨y, j, hy, -, hstage, -⟩)
  · rw [settled, Registry.settle_taken htaken] at hset
    exact ((Registry.mem_eraseIdx hnodup he).mp hset).2 rfl
  · exact hno y j hy hstage

omit [DecidableEq Tid] in
/-- An access that changes nothing about packets. -/
theorem Careful.idle {x : Option (Holder Tid)} (htaken : F'.taken kind = F.taken kind)
    (hhold : F'.holder = (F.setHolder s.chan (mutexOf kind s.chan s.side) x).holder)
    (hx : ∀ y i, x = some y → y.stage ≠ .store i) (he : ∀ c d, F'.entries c d = F.entries c d)
    (hfresh : F'.world.shared.fresh = F.world.shared.fresh)
    (hpacket : F'.world.shared.packet = F.world.shared.packet)
    (hknown : ∀ p, F'.Known p → F.Known p) : Careful kind F F' where
  fresh := Nat.le_of_eq hfresh.symm
  entries := .inl fun c d => by rw [he]
  settled := fun c d e hset => .inl (settled_congr (congrFun (congrFun htaken c) d) (he c d) ▸ hset)
  pending := fun c d e hp => .inr (pending_of_holder hhold hx (he c d) hp)
  known := fun p hk => .inl (hknown p hk)
  ready := fun p _ _ hready => by rwa [hpacket]

/-- A blocking operation waits with the packet it has queued. -/
theorem queued_wait {f g : Frame Tid T} {order : List Handle} {p q : Nat}
    {job : Job T} {mode : Mode} (h : Frame.Enters kind f s)
    (hr : f.resume kind t order (.queued p) = some g) (hg : g = .zero job mode (.wait q)) :
    q = p := by
  subst hg
  cases h <;> cases hr
  rfl

/-- The thread that leaves a section knows what it knew, and the packet it has found. -/
theorem known_leave {F₁ : FineWorld Tid T} {order : List Handle} {r : Ret Tid T} {p : Nat}
    (hrun : (F₁.world.thread t).frame.ended = false)
    (hl : F₁.leave kind t order s act r = some F')
    (hcx : ∀ u, ((F₁.world.shared.apply t act).reg.cx u).packet = some p →
      (F₁.world.shared.reg.cx u).packet = some p)
    (hk : F'.Known p) : F₁.Known p ∨ r = .token (.packet p) := by
  obtain ⟨f, hr, ha, -⟩ := leave_after hrun hl
  obtain ⟨u, hf | hu⟩ := hk
  · by_cases hut : u = t
    · subst hut
      rw [ha.frame] at hf
      exact (Frame.resume_holds hr hf).imp_left fun hold => ⟨u, .inl hold⟩
    · rw [ha.others hut] at hf
      exact .inl ⟨u, .inl hf⟩
  · rw [ha.shared] at hu
    exact .inl ⟨u, .inr (hcx u hu)⟩

omit [DecidableEq Tid] in
/-- The offers of the zero flavor are not ready. -/
theorem offer_unready {f : Frame Tid T} {c : Nat} {d : Side} {v : Packet T}
    (h : Frame.Enters kind f (.pair c d (some v))) : v.ready = false := by
  generalize hs : (Critical.pair c d (some v) : Critical T) = s at h
  cases h with
  | zero =>
    rename_i job mode
    obtain ⟨-, -, hv⟩ := Critical.pair.inj hs
    cases mode <;> cases hv
    rfl
  | again hx hk =>
    obtain ⟨-, -, hv⟩ := Critical.pair.inj hs
    cases hv
    rfl
  | attempt _ _ | probe _ _ => cases hs
  | finish | senders | receivers | close => cases hs

/-- The section that has found nobody ends, perhaps with an offer of its own. -/
theorem careful_nobody (hb : Books kind F) {order : List Handle} {i : Nat}
    (hs : (F.world.thread h.thread).frame.call.critical kind (F.world.thread h.thread).prog = some s)
    (hh : F.holder s.chan (mutexOf kind s.chan s.side) = some h) (hst : h.stage = .scan i)
    (hl : F.leave kind h.thread order s (s.nobody F.world.shared).1
      (s.nobody F.world.shared).2 = some F') : Careful kind F F' := by
  have hents := Frame.enters_of_critical (hb.typed h.thread) hs
  have htk : F'.taken kind = F.taken kind :=
    hb.taken_leave hh (by rw [hst]; rfl) (leave_holder hl)
  have hhold := leave_holder hl
  obtain ⟨f, hr, ha, -⟩ := leave_after hents.running hl
  have quiet : (s.nobody F.world.shared).1 = .silent →
      (∀ p, (s.nobody F.world.shared).2 ≠ .token (.packet p)) → Careful kind F F' := by
    intro hsilent htoken
    rw [hsilent] at hl ha
    refine .idle htk hhold (fun _ _ hy => by cases hy) (fun c d => ?_) ?_ ?_ fun p hk => ?_
    · rw [FineWorld.entries, ha.shared]
      rfl
    · rw [ha.shared]
      rfl
    · rw [ha.shared]
      rfl
    · exact (known_leave hents.running hl (fun _ hu => hu) hk).resolve_right (htoken p)
  cases s with
  | pair c d offer =>
    by_cases hd : F.world.shared.isDisconnected c = true
    · exact quiet (by simp [Critical.nobody, hd]) (by simp [Critical.nobody, hd])
    · cases offer with
      | none => exact quiet (by simp [Critical.nobody, hd]) (by simp [Critical.nobody, hd])
      | some v =>
        have hact : (Critical.nobody F.world.shared (.pair c d (some v))) =
            (.queue c d v, .queued F.world.shared.fresh) := by
          simp [Critical.nobody, hd]
        rw [hact] at hl ha
        have hk := hents.zero_of_pair (hb.typed h.thread)
        have hfree : F'.taken kind c d = none := by
          rw [taken_congr hhold, taken_setHolder, if_pos]
          · rfl
          · exact ⟨rfl, (mutexOf_zero hk).trans (mutexOf_zero hk).symm⟩
        have hadd : Added kind F F' c d ⟨⟨h.thread, 0⟩, some F.world.shared.fresh⟩ := by
          refine ⟨by rw [← htk]; exact hfree, hfree, ?_, fun c' d' hcd => ?_, fun p hp => ?_,
            fun p job mode q hp hf => ?_⟩
          · rw [FineWorld.entries, ha.shared]
            simp only [Shared.apply, Registry.register, (Registry.setWaker_self _ _ _).1]
            rfl
          · rw [FineWorld.entries, ha.shared]
            simp only [Shared.apply, Registry.register, (Registry.setWaker_of_ne _ hcd).1]
            rfl
          · cases hp
            refine ⟨by rw [hk]; trivial, rfl, by rw [ha.shared]; rfl, ?_⟩
            rw [ha.shared]
            simp only [Shared.apply, Shared.alloc, Function.update_self, offer_unready hents]
          · cases hp
            rw [ha.frame] at hf
            exact queued_wait hents (hact ▸ hr) hf
        refine ⟨?_, .inr ⟨c, d, _, hadd⟩, fun c' d' e hset => ?_, fun c' d' e hpd => ?_,
          fun p hknown => .inl ?_, fun p hlt hno hready => ?_⟩
        · rw [ha.shared]
          exact Nat.le_succ _
        · rcases hadd.mem (Registry.mem_settle hset) with hold | ⟨rfl, rfl, rfl⟩
          · by_cases hcd : c' = c ∧ d' = d
            · obtain ⟨rfl, rfl⟩ := hcd
              exact .inl (settled_of_free hadd.free hold)
            · rw [settled_congr (by rw [htk]) (hadd.others c' d' hcd)] at hset
              exact .inl hset
          · exact .inr hadd
        · by_cases hcd : c' = c ∧ d' = d
          · obtain ⟨rfl, rfl⟩ := hcd
            obtain ⟨y, j, hy, hside, hstage, -⟩ := hpd
            rw [taken_holder hy, if_pos hside, hstage] at hfree
            cases hfree
          · exact .inr (pending_of_holder hhold (fun _ _ hy => by cases hy)
              (hadd.others c' d' hcd) hpd)
        · refine (known_leave hents.running hl (fun u hu => ?_) hknown).resolve_right (by simp)
          simp only [Shared.apply, Registry.register, Registry.setWaker_cx, Registry.reset] at hu
          by_cases hut : u = h.thread
          · subst hut
            rw [Function.update_self] at hu
            cases hu
          · rwa [Function.update_of_ne hut] at hu
        · rw [ha.shared]
          simp only [Shared.apply, Shared.alloc, Function.update_of_ne (Nat.ne_of_lt hlt), hready]
  | _ => exact quiet rfl (by simp [Critical.nobody])

/-- The entry that is selected is pending. -/
theorem pending_select {u : Tid} {cx : Context Tid} {i : Nat} {e' : Entry Tid}
    (he : (F.entries s.chan h.side)[i]? = some e)
    (hp : ((F.setCx u cx).hold kind s { h with stage := .store i }).Pending kind c d e') :
    F.Pending kind c d e' ∨ (c = s.chan ∧ d = h.side ∧ e' = e) := by
  obtain ⟨y, j, hy, hys, hstage, hj⟩ := hp
  rcases holder_setHolder hy with ⟨rfl, -, hy'⟩ | hold
  · cases hy'
    cases hstage
    subst hys
    exact .inr ⟨rfl, rfl, Option.some.inj (hj.symm.trans he)⟩
  · exact .inl ⟨y, j, hold, hys, hstage, hj⟩

omit [DecidableEq Tid] in
@[simp] theorem setHolder_holder {x : Option (Holder Tid)} :
    (F.setHolder s.chan (mutexOf kind s.chan s.side) x).holder s.chan (mutexOf kind s.chan s.side) =
      x := by
  simp only [setHolder, Function.update_self]

/-- A context that is selected keeps its packet, so nobody gets to know one. -/
theorem known_setCx {u : Tid} {sel : Selected Tid} {y : Holder Tid} {p : Nat}
    (hk : ((F.setCx u ((F.world.shared.reg.cx u).trySelect sel)).hold kind s y).Known p) :
    F.Known p := by
  obtain ⟨v, hf | hv⟩ := hk
  · exact ⟨v, .inl hf⟩
  · refine ⟨v, .inr ?_⟩
    change (Function.update F.world.shared.reg.cx u _ v).packet = some p at hv
    by_cases huv : v = u
    · subst huv
      rw [Function.update_self] at hv
      by_cases hw : (F.world.shared.reg.cx v).select = .waiting
      · rwa [Context.trySelect_waiting hw] at hv
      · rwa [Context.trySelect_decided hw] at hv
    · rwa [Function.update_of_ne huv] at hv

/-- An operation is selected: its entry is pending now, and no more than that. -/
theorem careful_select (hb : Books kind F) {i : Nat}
    (hh : F.holder s.chan (mutexOf kind s.chan s.side) = some h) (hst : h.stage = .scan i)
    (he : (F.entries s.chan h.side)[i]? = some e) :
    Careful kind F ((F.setCx e.owner
      ((F.world.shared.reg.cx e.owner).trySelect (.operation e.oper))).hold kind s
        { h with stage := .store i }) := by
  have hself := hb.taken_self hh
  have hfree : F.taken kind s.chan h.side = none := by rw [hself, hst]; rfl
  refine ⟨Nat.le_refl _, .inl fun c d => List.Sublist.refl _, fun c d e' hset => .inl ?_,
    fun c d e' hpd => ?_, fun p hk => .inl (known_setCx hk), fun p _ _ hready => hready⟩
  · by_cases hcd : c = s.chan ∧ d = h.side
    · obtain ⟨rfl, rfl⟩ := hcd
      have hmem := Registry.mem_settle hset
      exact settled_of_free hfree hmem
    · rw [← settled_congr ?_ ?_]
      · exact hset
      · have htaken := hb.taken_update (c := c) (d := d)
          (F.setCx e.owner ((F.world.shared.reg.cx e.owner).trySelect (.operation e.oper)))
          (some ⟨h.thread, h.side, .store i⟩) hh rfl fun y hy => by cases hy; rfl
        rwa [if_neg hcd] at htaken
      · rfl
  · rcases pending_select he hpd with hold | ⟨rfl, rfl, rfl⟩
    · exact .inr hold
    · exact .inl (settled_of_free hfree (List.mem_of_getElem? he))

/-- The packet is provided to the context of its owner, and is on offer no more. -/
theorem careful_store (hb : Books kind F) (hp : Packets kind F) {i : Nat}
    (hh : F.holder s.chan (mutexOf kind s.chan s.side) = some h) (hst : h.stage = .store i)
    (he : (F.entries s.chan h.side)[i]? = some e) :
    Careful kind F ((F.setCx e.owner ((F.world.shared.reg.cx e.owner).storePacket e.packet)).hold
      kind s { h with stage := .unpark i }) := by
  have hside := hb.same_mutex hh
  have hself := hb.taken_self hh
  let F₁ := F.setCx e.owner ((F.world.shared.reg.cx e.owner).storePacket e.packet)
  have htaken : (F₁.hold kind s { h with stage := .unpark i }).taken kind = F.taken kind :=
    taken_stage hb hh rfl (by rw [hst]; rfl)
  refine ⟨Nat.le_refl _, .inl fun c d => List.Sublist.refl _, fun c d e' hset => .inl ?_,
    fun c d e' hpd => .inr ?_, fun p hk => ?_, fun p _ _ hready => hready⟩
  · rw [settled_congr (congrFun (congrFun htaken c) d) ?_] at hset
    · exact hset
    · rfl
  · refine pending_of_holder (x := some { h with stage := .unpark i }) rfl (fun y j hy => ?_) rfl hpd
    cases hy
    simp
  · obtain ⟨v, hf | hv⟩ := hk
    · exact .inl ⟨v, .inl hf⟩
    · by_cases hve : v = e.owner ∧ e.packet = some p
      · refine .inr ⟨s.chan, h.side, e, List.mem_of_getElem? he, hve.2, ?_⟩
        refine not_offered_of_taken (i := i) (hp.nodup s.chan h.side) ?_ he fun y j hy hstage => ?_
        · rw [htaken, hself, hst]
          rfl
        · rw [hside, FineWorld.hold, setHolder_holder] at hy
          cases hy
          cases hstage
      · refine .inl ⟨v, .inr ?_⟩
        change (Function.update F.world.shared.reg.cx e.owner _ v).packet = some p at hv
        by_cases hv' : v = e.owner
        · subst hv'
          rw [Function.update_self] at hv
          cases hpk : e.packet with
          | none => rwa [hpk] at hv
          | some q =>
            rw [hpk] at hv
            cases hv
            exact absurd ⟨rfl, hpk⟩ hve
        · rwa [Function.update_of_ne hv'] at hv

/-- At its end the section takes the entry out of the queue, and its owner learns the packet. -/
theorem careful_remove (hb : Books kind F) (hp : Packets kind F) {order : List Handle} {i : Nat}
    (hs : (F.world.thread h.thread).frame.call.critical kind (F.world.thread h.thread).prog = some s)
    (hh : F.holder s.chan (mutexOf kind s.chan s.side) = some h) (hst : h.stage = .remove i)
    (he : (F.entries s.chan h.side)[i]? = some e)
    (hl : (F.setReg (F.world.shared.reg.setWaker s.chan h.side
      { F.world.shared.reg.waker s.chan h.side with
        entries := (F.entries s.chan h.side).eraseIdx i })).leave kind h.thread order s .silent
          (s.found e) = some F') : Careful kind F F' := by
  have hside := hb.same_mutex hh
  have hself := hb.taken_self hh
  have hents := Frame.enters_of_critical (hb.typed h.thread) hs
  have hhold := leave_holder hl
  have hrun : ∀ r, ((F.setReg r).world.thread h.thread).frame.ended = false :=
    fun _ => hents.running
  obtain ⟨f, hr, ha, -⟩ := leave_after (hrun _) hl
  have htake : ∀ c d, F'.taken kind c d =
      if c = s.chan ∧ d = h.side then none else F.taken kind c d := by
    intro c d
    rw [taken_congr hhold]
    exact hb.taken_update _ _ hh rfl fun y hy => by cases hy
  have hset : F'.settled kind = F.settled kind := by
    rw [settled, ha.shared]
    exact Registry.settle_remove (hself.trans (by rw [hst]; rfl)) htake
  have hothers : ∀ c d, ¬ (c = s.chan ∧ d = h.side) → F'.entries c d = F.entries c d := by
    intro c d hcd
    rw [FineWorld.entries, ha.shared]
    simp only [Shared.apply, setReg, (Registry.setWaker_of_ne _ hcd).1]
  have hshared : F'.world.shared.fresh = F.world.shared.fresh ∧
      F'.world.shared.packet = F.world.shared.packet := by
    rw [ha.shared]
    exact ⟨rfl, rfl⟩
  refine ⟨Nat.le_of_eq hshared.1.symm, .inl fun c d => ?_, fun c d e' hx => .inl (hset ▸ hx),
    fun c d e' hpd => .inr ?_, fun p hk => ?_, fun p _ _ hready => by rwa [hshared.2]⟩
  · by_cases hcd : c = s.chan ∧ d = h.side
    · obtain ⟨rfl, rfl⟩ := hcd
      rw [FineWorld.entries, ha.shared]
      simp only [Shared.apply, setReg, (Registry.setWaker_self _ _ _).1]
      exact List.eraseIdx_sublist _ _
    · rw [hothers c d hcd]
  · refine pending_of_holder hhold (fun _ _ hy => by cases hy) (hothers c d ?_) hpd
    rintro ⟨rfl, rfl⟩
    obtain ⟨y, j, hy, -⟩ := hpd
    rw [hhold, hside, setHolder_holder] at hy
    cases hy
  · refine (known_leave (hrun _) hl (fun _ hu => hu) hk).imp_right fun hfound => ?_
    refine ⟨s.chan, h.side, e, List.mem_of_getElem? he, ?_, ?_⟩
    · cases s with
      | pair c d offer =>
        simp only [Critical.found, Ret.token.injEq] at hfound
        cases hpk : e.packet with
        | none =>
          rw [hpk] at hfound
          cases hfound
        | some q =>
          rw [hpk] at hfound
          cases hfound
          rfl
      | _ => cases hfound
    · rintro (ho | ⟨y, j, hy, -⟩)
      · rw [hset, settled, Registry.settle_taken (i := i) (hself.trans (by rw [hst]; rfl))] at ho
        exact ((Registry.mem_eraseIdx (hp.nodup s.chan h.side) he).mp ho).2 rfl
      · rw [hhold, hside, setHolder_holder] at hy
        cases hy

/-- **One access inside a section is careful.** -/
theorem careful_inside (hb : Books kind F) (hp : Packets kind F)
    (hs : (F.world.thread h.thread).frame.call.critical kind (F.world.thread h.thread).prog = some s)
    (hh : F.holder s.chan (mutexOf kind s.chan s.side) = some h) (hi : Inside kind F s h F') :
    Careful kind F F' := by
  have hside := hb.same_mutex hh
  have hself := hb.taken_self hh
  have hents := Frame.enters_of_critical (hb.typed h.thread) hs
  cases hi with
  | pass hst he hno =>
    exact .idle (taken_stage hb hh rfl (by rw [hst]; rfl)) rfl (fun y j hy => by cases hy; simp)
      (fun _ _ => rfl) rfl rfl fun _ hk => hk
  | unpark hst =>
    exact .idle (taken_stage hb hh rfl (by rw [hst]; rfl)) rfl (fun y j hy => by cases hy; simp)
      (fun _ _ => rfl) rfl rfl fun _ hk => hk
  | flag hst =>
    exact .idle (taken_stage hb hh rfl (by rw [hst]; rfl)) rfl (fun y j hy => by cases hy; simp)
      (fun _ _ => rfl) rfl rfl fun _ hk => hk
  | tell hst he =>
    exact .idle (taken_stage hb hh rfl (by rw [hst]; rfl)) rfl (fun y j hy => by cases hy; simp)
      (fun _ _ => rfl) rfl rfl fun _ hk => known_setCx hk
  | turn hst hz =>
    have hk : kind s.chan = .zero := by
      have htyped := hb.typed h.thread
      subst hz
      generalize (F.world.thread h.thread).frame = f at hents htyped
      cases hents
      exact Kind.IsZero.eq htyped
    refine .idle ?_ rfl (fun y j hy => by cases hy; simp) (fun _ _ => rfl) rfl rfl fun _ hk => hk
    funext c d
    rw [FineWorld.hold, taken_setHolder]
    split
    · rename_i hcm
      obtain ⟨rfl, hm⟩ := hcm
      rw [← hm] at hh
      rw [taken_holder hh, hst, ite_self]
      exact ite_self _
    · rfl
  | told hst hl =>
    obtain ⟨f, hr, ha, hhold⟩ := leave_after hents.running hl
    refine .idle (hb.taken_leave hh hst hhold) hhold (fun _ _ hy => by cases hy) (fun c d => ?_)
      ?_ ?_ fun p hk => ?_
    · rw [FineWorld.entries, ha.shared]
      rfl
    · rw [ha.shared]
      rfl
    · rw [ha.shared]
      rfl
    · exact (known_leave hents.running hl (fun _ hu => hu) hk).resolve_right (by simp)
  | nobody hst he hl => exact careful_nobody hb hs hh hst hl
  | select hst he hyes => exact careful_select hb hh hst he
  | store hst he => exact careful_store hb hp hh hst he
  | remove hst he hl => exact careful_remove hb hp hs hh hst he hl

omit [DecidableEq Tid] in
/-- A mutex is taken. -/
theorem careful_enter (hh : F.holder s.chan (mutexOf kind s.chan s.side) = none) :
    Careful kind F (F.hold kind s ⟨t, s.side, s.first⟩) := by
  refine .idle ?_ rfl (fun y j hy => ?_) (fun _ _ => rfl) rfl rfl fun _ hk => hk
  · funext c d
    rw [FineWorld.hold, taken_setHolder]
    split
    · rename_i hcm
      obtain ⟨rfl, hm⟩ := hcm
      rw [← hm] at hh
      rw [taken_none hh, Option.bind_some]
      cases s <;> exact ite_self _
    · rfl
  · cases hy
    cases s <;> simp [Critical.first]

/-- **Every step is careful.** -/
theorem careful_step {l : Label Tid T} (hb : Books kind F) (hp : Packets kind F)
    (hs : F.step kind l = some F') : Careful kind F F' := by
  have same : ∀ {F' : FineWorld Tid T}, F'.holder = F.holder → (∀ c d, F'.entries c d = F.entries c d) →
      F'.world.shared.fresh = F.world.shared.fresh →
      F'.world.shared.packet = F.world.shared.packet → (∀ p, F'.Known p → F.Known p) →
      Careful kind F F' := fun hh he hfresh hpacket hknown =>
    ⟨Nat.le_of_eq hfresh.symm, .inl fun c d => by rw [he],
      fun c d e hset =>
        .inl (settled_congr (congrFun (congrFun (taken_congr hh) c) d) (he c d) ▸ hset),
      fun c d e hp => .inr ((pending_congr hh (he c d)).mp hp), fun p hk => .inl (hknown p hk),
      fun p _ _ hready => by rwa [hpacket]⟩
  rcases step_cases hs with ⟨t, act, th, count, ht, ha, hu, hh, -⟩ | ⟨t, s, -, hh, rfl⟩ |
    ⟨s, h, hs, hh, hi, -⟩ | ⟨c, d, rfl⟩ | ⟨now, rfl⟩
  · exact careful_turn hb ht ha hu hh
  · exact careful_enter hh
  · exact careful_inside hb hp hs hh hi
  · exact same rfl (fun _ _ => rfl) rfl rfl fun _ hk => hk
  · exact same rfl (fun _ _ => rfl) rfl rfl fun _ hk => hk

omit [DecidableEq Tid] in
theorem Packets.init : Packets kind (FineWorld.init kind : FineWorld Tid T) where
  zero := fun c d e p he => absurd he List.not_mem_nil
  unique := fun c d e c' d' e' p he => absurd he List.not_mem_nil
  nodup := fun c d => List.nodup_nil
  known := fun p ⟨t, h⟩ => h.elim False.elim fun h => by cases h
  secret := fun c d e p ho => absurd (mem_of_offered ho) List.not_mem_nil

/-- **Nobody knows a packet that is on offer.** -/
theorem packets_reachable (h : (system kind).Reachable F) : Packets kind F := by
  refine h.invariant ?_ fun F l F' hr hp hs => ?_
  · rintro _ rfl
    exact Packets.init
  · exact hp.step (books_reachable (.step hr hs)) (careful_step (books_reachable hr) hp hs)

end FineWorld

end CrossbeamChannel
