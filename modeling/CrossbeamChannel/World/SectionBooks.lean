import CrossbeamChannel.World.SectionCalls

/-!
# The books while sections are under way

An entry that `wake_one` has selected stays queued until the end of the section, when its owner
may be in another operation already. Without these entries the registry is in order at every
access of every section: `FineWorld.books_reachable`.

`Books` is `Registry.Ok` of the settled registry. It cannot be stated of the registry as it is: `listed`
fails for an entry whose owner has left, `live` for one whose operation has been selected. The cached
`len` is that of the whole queue, though, as it is written under the mutex at the end of a section
(`waker.rs` 194-231), so it has a field of its own.
-/

namespace CrossbeamChannel

variable {Tid T : Type}

namespace FineWorld

/-- The entry of a queue that has been selected and not removed yet. -/
def taken (F : FineWorld Tid T) (kind : Nat → Kind T) (c : Nat) (d : Side) : Option Nat :=
  match F.holder c (mutexOf kind c d) with
  | some h => if h.side = d then h.stage.taken else none
  | none => none

/-- The registry without these entries. -/
def settled (F : FineWorld Tid T) (kind : Nat → Kind T) : Registry Tid :=
  F.world.shared.reg.settle (F.taken kind)

/-- The registry is in order, but for the entries that are about to be removed. -/
structure Books (kind : Nat → Kind T) (F : FineWorld Tid T) : Prop where
  books : (F.settled kind).Ok (F.world.stakes kind)
  len : ∀ c d, F.world.shared.reg.len c d = (F.entries c d).length
  typed : ∀ t, (F.world.thread t).frame.Typed kind
  /-- The mutex is the one of the queue its holder works on. -/
  side : ∀ c m h, F.holder c m = some h → mutexOf kind c h.side = m

variable {F F' : FineWorld Tid T} {kind : Nat → Kind T} {c : Nat} {d : Side} {s : Critical T}
  {h : Holder Tid}

theorem mutexOf_zero (hk : kind c = .zero) : mutexOf kind c d = .send := by
  simp only [mutexOf, hk]

theorem taken_none (hf : F.holder c (mutexOf kind c d) = none) : F.taken kind c d = none := by
  simp only [taken, hf]

theorem taken_holder (hh : F.holder c (mutexOf kind c d) = some h) :
    F.taken kind c d = if h.side = d then h.stage.taken else none := by
  simp only [taken, hh]

theorem taken_congr (hh : F'.holder = F.holder) : F'.taken kind = F.taken kind := by
  funext c d
  simp only [taken, hh]

/-- What is taken after the holder of the mutex of `s` has changed. -/
theorem taken_setHolder {x : Option (Holder Tid)} :
    (F.setHolder s.chan (mutexOf kind s.chan s.side) x).taken kind c d =
      if c = s.chan ∧ mutexOf kind c d = mutexOf kind s.chan s.side then
        x.bind fun h => if h.side = d then h.stage.taken else none
      else F.taken kind c d := by
  simp only [taken, setHolder]
  by_cases hc : c = s.chan
  · subst hc
    rw [Function.update_self]
    by_cases hm : mutexOf kind s.chan d = mutexOf kind s.chan s.side
    · rw [hm, Function.update_self, if_pos ⟨rfl, rfl⟩]
      cases x <;> rfl
    · rw [Function.update_of_ne hm, if_neg fun h => hm h.2]
  · rw [Function.update_of_ne hc, if_neg fun h => hc h.1]

variable [DecidableEq Tid]

/-- A turn outside the sections. -/
theorem Books.turn {t : Tid} {act : Act Tid T} {th : Thread Tid T} {count : Nat → Side → Nat}
    (hb : Books kind F) (ht : World.Turn kind F.world t act th count)
    (ha : World.After F.world F'.world t act th count) (hu : F.Unlocked kind t)
    (hh : F'.holder = F.holder) : Books kind F' := by
  have htaken : F'.taken kind = F.taken kind := taken_congr hh
  -- A thread outside every section comes to such a place.
  have calm : (F.world.thread t).frame.Calm kind → th.frame.Calm kind → act = .silent →
      (F'.settled kind).Ok (F'.world.stakes kind) := by
    rintro hf hg rfl
    have hout : F.world.stakes kind t = .outside := hf _
    rw [ha.stakes, hg, ← hout, Function.update_eq_self, settled, htaken, ha.shared]
    exact hb.books
  refine ⟨?_, ?_, fun u => ?_, fun c m h hm => hb.side c m h (hh ▸ hm)⟩
  · cases ht with
    | next hn =>
      rename_i f' pr'
      have hfree : ∀ c d, (F.world.thread t).frame.call.locks kind (F.world.thread t).prog = some (c, d) →
          F.taken kind c d = none ∧ (kind c = .zero → F.taken kind c d.opposite = none) := by
        intro c d hcd
        have hnone := hu.2 c d hcd
        refine ⟨taken_none hnone, fun hk => taken_none ?_⟩
        rwa [mutexOf_zero hk] at hnone ⊢
      -- The books are kept by the same step in the settled state.
      have key : Frame.Next kind (F.world.shared.settle (F.taken kind)) t (F.world.thread t).frame
          (F.world.thread t).prog act f' pr' → (act.Plain ∧ ∀ q, act.on = some q →
            (F.world.thread t).frame.call.locks kind (F.world.thread t).prog = some q) →
          (F'.settled kind).Ok (F'.world.stakes kind) := by
        rintro hn' ⟨hplain, hon⟩
        have hok := hn'.registry hb.books rfl
        rw [← Shared.apply_settle hplain fun q hq => (hfree q.1 q.2 (hon q hq)).1] at hok
        rw [ha.stakes, settled, htaken, ha.shared]
        exact hok
      cases hn with
      | more he =>
        have hplain := Shared.exec_plain hu.1 he
        rcases Shared.exec_settle hu.1 hfree hb.len he with he' | ⟨rfl, hrep, hlooks⟩
        · exact key (.more he') hplain
        · cases hrep
          rw [ha.stakes, settled, htaken, ha.shared]
          have hstake : (F.world.thread t).frame.stake kind .locked = F.world.stakes kind t :=
            Frame.stake_of_looks hlooks
          rw [hstake, Function.update_eq_self]
          exact hb.books
      | ret he hr =>
        have hplain := Shared.exec_plain hu.1 he
        rcases Shared.exec_settle hu.1 hfree hb.len he with he' | ⟨-, hrep, -⟩
        · exact key (.ret he' hr) hplain
        · cases hrep
    | start hover huses => exact calm (Frame.over_calm hover) (World.opFrame_calm _) rfl
    | complete hf hside =>
      exact calm (by rw [hf]; exact fun _ => rfl) (Frame.finishWith_calm _ _) rfl
    | drop hover hpos hfree =>
      refine calm (Frame.over_calm hover) ?_ rfl
      dsimp only
      split
      · exact (World.lastDropped_rests _ _).1
      · exact fun _ => rfl
  · simp only [FineWorld.entries, ha.shared]
    exact Shared.apply_len hb.len act
  · by_cases hut : u = t
    · subst hut
      rw [ha.frame]
      exact ht.typed (hb.typed u)
    · rw [ha.others hut]
      exact hb.typed u

omit [DecidableEq Tid] in
theorem Books.same_mutex (hb : Books kind F)
    (hh : F.holder s.chan (mutexOf kind s.chan s.side) = some h) :
    mutexOf kind s.chan h.side = mutexOf kind s.chan s.side := hb.side _ _ _ hh

omit [DecidableEq Tid] in
/-- What the holder of the mutex has taken. -/
theorem Books.taken_self (hb : Books kind F)
    (hh : F.holder s.chan (mutexOf kind s.chan s.side) = some h) :
    F.taken kind s.chan h.side = h.stage.taken := by
  rw [← hb.same_mutex hh] at hh
  rw [taken_holder hh, if_pos rfl]

omit [DecidableEq Tid] in
theorem holder_setHolder {x : Option (Holder Tid)} {c : Nat} {m : Side} {y : Holder Tid}
    (h : (F.setHolder s.chan (mutexOf kind s.chan s.side) x).holder c m = some y) :
    (c = s.chan ∧ m = mutexOf kind s.chan s.side ∧ x = some y) ∨ F.holder c m = some y := by
  simp only [setHolder] at h
  by_cases hc : c = s.chan
  · subst hc
    rw [Function.update_self] at h
    by_cases hm : m = mutexOf kind s.chan s.side
    · subst hm
      rw [Function.update_self] at h
      exact .inl ⟨rfl, rfl, h⟩
    · rw [Function.update_of_ne hm] at h
      exact .inr h
  · rw [Function.update_of_ne hc] at h
    exact .inr h

/-- The end of a section, in which the registry has changed to that of `F₁`. -/
theorem Books.leave {F₁ : FineWorld Tid T} {order : List Handle} {act : Act Tid T} {r : Ret Tid T}
    (hb : Books kind F)
    (hs : (F.world.thread h.thread).frame.call.critical kind (F.world.thread h.thread).prog = some s)
    (hthread : F₁.world.thread = F.world.thread) (hholder : F₁.holder = F.holder)
    (hok : (F₁.world.shared.reg.settle (F'.taken kind)).Ok (F.world.stakes kind))
    (hlen : ∀ c d, F₁.world.shared.reg.len c d = (F₁.entries c d).length)
    (hl : F₁.leave kind h.thread order s act r = some F')
    (hr : (act = .silent ∧ ∀ p, r ≠ .queued p) ∨
      ∃ c d v, act = .queue c d v ∧ (∃ p, r = .queued p) ∧ ∃ offer, s = .pair c d offer)
    (htk : ∀ tk, r = .token tk → tk = .null ∨ ∃ p, tk = .packet p) : Books kind F' := by
  have hents := Frame.enters_of_critical (hb.typed h.thread) hs
  obtain ⟨g, hg, ha, hhold⟩ := leave_after (by rw [hthread]; exact hents.running) hl
  rw [hthread] at hg
  have hout : F.world.stakes kind h.thread = .outside := hents.calm _
  have hstakes₁ : F₁.world.stakes kind = F.world.stakes kind := by
    funext u
    rw [World.stakes, World.stakes, hthread]
  refine ⟨?_, ?_, fun u => ?_, fun c m x hm => ?_⟩
  · rw [ha.stakes, hstakes₁, settled, ha.shared]
    rcases hents.resume hg with ⟨hq, c, d, offer, hs', hstake⟩ | ⟨hq, hcalm⟩
    · rcases hr with ⟨-, hno⟩ | ⟨c', d', v, rfl, -, offer', hs''⟩
      · obtain ⟨p, hp⟩ := hq
        exact absurd hp (hno p)
      -- The section ends with an offer: the entry goes behind those that are there.
      · subst hs''
        cases hs'
        have hk := hents.zero_of_pair (hb.typed h.thread)
        have hfree : F'.taken kind c d = none := by
          rw [taken_congr hhold, taken_setHolder, if_pos]
          · rfl
          · exact ⟨rfl, (mutexOf_zero hk).trans (mutexOf_zero hk).symm⟩
        have hqueue := Shared.queue_ok (w := F₁.world.shared.settle (F'.taken kind))
          (t := h.thread) (c := c) (d := d) hok (by rw [hout]; exact fun _ => id) v
        rw [hstake]
        simp only [Shared.apply, Shared.settle, Shared.alloc, Registry.register,
          Registry.settle_setWaker hfree] at hqueue ⊢
        rwa [show ((F₁.world.shared.reg.settle (F'.taken kind)).reset h.thread).waker c d =
          (F₁.world.shared.reg.reset h.thread).waker c d from Registry.settle_waker hfree] at hqueue
    · rcases hr with ⟨rfl, -⟩ | ⟨c', d', v, rfl, ⟨p, hp⟩, -⟩
      · rw [hcalm, ← hout, Function.update_eq_self]
        exact hok
      · exact absurd hp (hq p)
  · simp only [FineWorld.entries, ha.shared]
    exact Shared.apply_len hlen act
  · by_cases hut : u = h.thread
    · subst hut
      rw [ha.frame]
      exact hents.typed (hb.typed _) htk hg
    · rw [ha.others hut, hthread]
      exact hb.typed u
  · rw [hhold] at hm
    rcases holder_setHolder hm with ⟨-, -, heq⟩ | hold
    · cases heq
    · rw [hholder] at hold
      exact hb.side _ _ _ hold

omit [DecidableEq Tid] in
/-- A step inside a section, after which its thread still holds the mutex. -/
theorem Books.hold {F₁ : FineWorld Tid T} {h' : Holder Tid} (hb : Books kind F)
    (hthread : F₁.world.thread = F.world.thread) (hholder : F₁.holder = F.holder)
    (hok : (F₁.world.shared.reg.settle ((F₁.hold kind s h').taken kind)).Ok (F.world.stakes kind))
    (hlen : ∀ c d, F₁.world.shared.reg.len c d = (F₁.entries c d).length)
    (hside : mutexOf kind s.chan h'.side = mutexOf kind s.chan s.side) :
    Books kind (F₁.hold kind s h') := by
  have hstakes : F₁.world.stakes kind = F.world.stakes kind := by
    funext u
    rw [World.stakes, World.stakes, hthread]
  refine ⟨?_, hlen, fun t => ?_, fun c m x hm => ?_⟩
  · change ((F₁.hold kind s h').settled kind).Ok (F₁.world.stakes kind)
    rw [hstakes]
    exact hok
  · change (F₁.world.thread t).frame.Typed kind
    rw [hthread]
    exact hb.typed t
  · rcases holder_setHolder hm with ⟨rfl, rfl, heq⟩ | hold
    · cases heq
      exact hside
    · rw [hholder] at hold
      exact hb.side c m x hold

omit [DecidableEq Tid] in
/-- What is taken after a step inside a section, or at its end. -/
theorem Books.taken_update (hb : Books kind F) (F₁ : FineWorld Tid T) (x : Option (Holder Tid))
    (hh : F.holder s.chan (mutexOf kind s.chan s.side) = some h) (hholder : F₁.holder = F.holder)
    (hx : ∀ y, x = some y → y.side = h.side) :
    (F₁.setHolder s.chan (mutexOf kind s.chan s.side) x).taken kind c d =
      if c = s.chan ∧ d = h.side then x.bind fun y => y.stage.taken else F.taken kind c d := by
  have hside := hb.same_mutex hh
  rw [taken_setHolder, taken_congr hholder]
  by_cases hcd : c = s.chan ∧ d = h.side
  · obtain ⟨rfl, rfl⟩ := hcd
    rw [if_pos ⟨rfl, hside⟩, if_pos ⟨rfl, rfl⟩]
    cases x with
    | none => rfl
    | some y => simp only [Option.bind_some, hx y rfl, if_true]
  · rw [if_neg hcd]
    split
    · rename_i hcm
      obtain ⟨rfl, hm⟩ := hcm
      have hne : h.side ≠ d := fun heq => hcd ⟨rfl, heq.symm⟩
      rw [← hm] at hh
      rw [taken_holder hh, if_neg hne]
      cases x with
      | none => rfl
      | some y => rw [Option.bind_some, hx y rfl, if_neg hne]
    · rfl

omit [DecidableEq Tid] in
/-- An access after which the same entry is taken as before. -/
theorem Books.access {F₁ : FineWorld Tid T} {stage : Stage} (hb : Books kind F)
    (hh : F.holder s.chan (mutexOf kind s.chan s.side) = some h)
    (hthread : F₁.world.thread = F.world.thread) (hholder : F₁.holder = F.holder)
    (hstage : stage.taken = h.stage.taken)
    (hok : (F₁.world.shared.reg.settle (F.taken kind)).Ok (F.world.stakes kind))
    (hlen : ∀ c d, F₁.world.shared.reg.len c d = (F₁.entries c d).length) :
    Books kind (F₁.hold kind s { h with stage := stage }) := by
  have hside := hb.same_mutex hh
  refine hb.hold hthread hholder ?_ hlen hside
  have htaken : (F₁.hold kind s { h with stage := stage }).taken kind = F.taken kind := by
    funext c d
    rw [FineWorld.hold, hb.taken_update _ _ hh hholder fun y hy => by cases hy; rfl]
    split
    · rename_i hcd
      rw [hcd.1, hcd.2, hb.taken_self hh, ← hstage]
      rfl
    · rfl
  rw [htaken]
  exact hok

omit [DecidableEq Tid] in
/-- A section that has selected nobody comes to its end. -/
theorem Books.taken_leave (hb : Books kind F)
    (hh : F.holder s.chan (mutexOf kind s.chan s.side) = some h) (hstage : h.stage.taken = none)
    (hhold : F'.holder = (F.setHolder s.chan (mutexOf kind s.chan s.side) none).holder) :
    F'.taken kind = F.taken kind := by
  funext c d
  rw [taken_congr hhold, hb.taken_update _ _ hh rfl fun y hy => by cases hy]
  split
  · rename_i hcd
    rw [hcd.1, hcd.2, hb.taken_self hh, hstage]
    rfl
  · rfl

/-- **One access inside a section keeps the books.** -/
theorem Books.inside (hb : Books kind F)
    (hs : (F.world.thread h.thread).frame.call.critical kind (F.world.thread h.thread).prog = some s)
    (hh : F.holder s.chan (mutexOf kind s.chan s.side) = some h) (hi : Inside kind F s h F') :
    Books kind F' := by
  have hside := hb.same_mutex hh
  have hself := hb.taken_self hh
  cases hi with
  | pass hst he hno => exact hb.access hh rfl rfl (by rw [hst]; rfl) hb.books hb.len
  | select hst he hyes =>
    rename_i i e
    obtain ⟨hne, hwait⟩ := Waker.wakeable_iff.mp hyes
    -- From the selection on the entry is left out of the books.
    have hnone : F.taken kind s.chan h.side = none := by rw [hself, hst]; rfl
    refine hb.hold rfl rfl (hb.books.take hnone he hwait fun c d => ?_) hb.len hside
    refine hb.taken_update _ (some _) hh rfl fun y hy => ?_
    obtain rfl := Option.some.inj hy
    rfl
  | store hst he =>
    refine hb.access hh rfl rfl (by rw [hst]; rfl) ?_ hb.len
    refine hb.books.congr rfl rfl fun u => ?_
    rename_i i e
    simp only [Registry.settle, setCx, setReg, settled]
    by_cases hu : u = e.owner
    · subst hu
      rw [Function.update_self, Context.storePacket_select]
    · rw [Function.update_of_ne hu]
  | unpark hst => exact hb.access hh rfl rfl (by rw [hst]; rfl) hb.books hb.len
  | remove hst he hl =>
    rename_i i e order
    have hnot : ∀ tk, s.found e = .token tk → tk = .null ∨ ∃ p, tk = .packet p := by
      intro tk htk
      cases s with
      | pair c d offer =>
        cases htk
        cases e.packet with
        | none => exact .inl rfl
        | some p => exact .inr ⟨p, rfl⟩
      | _ => cases htk
    have hstay : ∀ p, s.found e ≠ .queued p := by cases s <;> simp [Critical.found]
    have htake : ∀ c d, F'.taken kind c d =
        if c = s.chan ∧ d = h.side then none else F.taken kind c d := by
      intro c d
      rw [taken_congr (leave_holder hl)]
      exact hb.taken_update _ _ hh rfl fun y hy => by cases hy
    have hremove := Registry.settle_remove (r := F.world.shared.reg) (hself.trans (by rw [hst]; rfl))
      htake
    refine hb.leave hs ?_ ?_ ?_ ?_ hl (.inl ⟨rfl, hstay⟩) hnot
    · rfl
    · rfl
    · exact hremove ▸ hb.books
    · exact Registry.setWaker_len hb.len _ _ _
  | nobody hst he hl =>
    have htk := hb.taken_leave hh (by rw [hst]; rfl) (leave_holder hl)
    refine hb.leave hs rfl rfl ?_ hb.len hl ?_ ?_
    · rw [htk]
      exact hb.books
    · cases s with
      | pair c d offer =>
        simp only [Critical.nobody]
        split
        · exact .inl ⟨rfl, by simp⟩
        · split
          · exact .inl ⟨rfl, by simp⟩
          · exact .inr ⟨c, d, _, rfl, ⟨_, rfl⟩, _, rfl⟩
      | _ => exact .inl ⟨rfl, by simp [Critical.nobody]⟩
    · intro tk htk
      cases s with
      | pair c d offer =>
        simp only [Critical.nobody] at htk
        split at htk
        · cases htk
          exact .inl rfl
        · split at htk <;> cases htk
      | _ => cases htk
  | flag hst => exact hb.access hh rfl rfl (by rw [hst]; rfl) hb.books hb.len
  | tell hst he =>
    refine hb.access hh rfl rfl (by rw [hst]; rfl) ?_ hb.len
    exact hb.books.trySelect (.inr rfl)
  | turn hst hz =>
    have hk : kind s.chan = .zero := by
      have hents := Frame.enters_of_critical (hb.typed h.thread) hs
      have htyped := hb.typed h.thread
      subst hz
      generalize (F.world.thread h.thread).frame = f at hents htyped
      cases hents
      exact Kind.IsZero.eq htyped
    refine hb.hold rfl rfl ?_ hb.len ((mutexOf_zero hk).trans (mutexOf_zero hk).symm)
    have htk : (F.hold kind s ⟨h.thread, .recv, .tell 0⟩).taken kind = F.taken kind := by
      funext c d
      rw [FineWorld.hold, taken_setHolder]
      split
      · rename_i hcm
        obtain ⟨rfl, hm⟩ := hcm
        rw [← hm] at hh
        rw [taken_holder hh, hst, ite_self]
        exact ite_self _
      · rfl
    rw [htk]
    exact hb.books
  | told hst hl =>
    have htk := hb.taken_leave hh hst (leave_holder hl)
    refine hb.leave hs rfl rfl ?_ hb.len hl (.inl ⟨rfl, by simp⟩) (by simp)
    rw [htk]
    exact hb.books

omit [DecidableEq Tid] in
/-- The mutex is taken. -/
theorem Books.enter {t : Tid} (hb : Books kind F)
    (hh : F.holder s.chan (mutexOf kind s.chan s.side) = none) :
    Books kind (F.hold kind s ⟨t, s.side, s.first⟩) := by
  refine hb.hold rfl rfl ?_ hb.len rfl
  have htk : (F.hold kind s ⟨t, s.side, s.first⟩).taken kind = F.taken kind := by
    funext c d
    rw [FineWorld.hold, taken_setHolder]
    split
    · rename_i hcm
      obtain ⟨rfl, hm⟩ := hcm
      rw [← hm] at hh
      rw [taken_none hh, Option.bind_some]
      split
      · cases s <;> rfl
      · rfl
    · rfl
  rw [htk]
  exact hb.books

omit [DecidableEq Tid] in
theorem Books.init : Books kind (FineWorld.init kind : FineWorld Tid T) where
  books := World.Sound.init.books
  len := fun _ _ => rfl
  typed := fun _ => trivial
  side := fun c m h hh => by cases hh

theorem Books.step {l : Label Tid T} (hb : Books kind F) (hs : F.step kind l = some F') :
    Books kind F' := by
  rcases step_cases hs with ⟨t, act, th, count, ht, ha, hu, hh, -⟩ | ⟨t, s, -, hh, rfl⟩ |
    ⟨s, h, hs, hh, hi, -⟩ | ⟨c, d, rfl⟩ | ⟨now, rfl⟩
  · exact hb.turn ht ha hu hh
  · exact hb.enter hh
  · exact hb.inside hs hh hi
  · exact ⟨hb.books, hb.len, hb.typed, hb.side⟩
  · exact ⟨hb.books, hb.len, hb.typed, hb.side⟩

/-- **The books are in order at every access of every section.** -/
theorem books_reachable (h : (system kind).Reachable F) : Books kind F := by
  refine h.invariant ?_ fun F l F' _ hb hs => hb.step hs
  rintro _ rfl
  exact Books.init

end FineWorld

end CrossbeamChannel
