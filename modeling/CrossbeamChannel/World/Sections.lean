import CrossbeamChannel.World.Phases

/-!
# The sections under the mutexes, taken apart

In `World.step` a section under a mutex is one step. Here the sections that act on the contexts
of other threads are run one access at a time: `wake_one` looks at the entries one by one,
selects an operation, provides the packet, wakes the thread and only then removes the entry,
and `disconnect` decides one context after another. A context is not protected by any mutex,
so its owner goes on as soon as it is decided, while the section is still under way.

All else is as before, except that a step that needs a mutex waits until nobody holds it.

The stages of a `Holder` are the lines of `Waker::wake_one` (`waker.rs` 82-111) and `Waker::disconnect`
(114-126): `scan` the comparison of the thread ids and `try_select`, `store` is `store_packet`, `unpark`
and `remove` the rest. In the zero flavor both wakers are under one mutex (`zero.rs` 72-81), and
`disconnect` sets the flag and sweeps both queues in one section (423-431); the buffered flavors have a
mutex for each `SyncWaker`. `mutexOf` says which.

What this model is for: an entry outlives its selection. Between `try_select` and `remove` the owner may
return, begin another operation and reset its context, and `store_packet` must not hit that one.
-/

namespace CrossbeamChannel

variable {Tid T : Type}

/-- How far the holder of a mutex has come. -/
inductive Stage where
  /-- `wake_one` looks at the `i`-th entry. -/
  | scan (i : Nat)
  /-- It has selected the `i`-th entry. -/
  | store (i : Nat)
  | unpark (i : Nat)
  | remove (i : Nat)
  /-- `disconnect` of the zero flavor looks at the flag. -/
  | flag
  /-- `disconnect` looks at the `i`-th entry. -/
  | tell (i : Nat)

/-- The entry `wake_one` has selected and not removed yet. -/
def Stage.taken : Stage → Option Nat
  | .store i | .unpark i | .remove i => some i
  | _ => none

/-- Who holds a mutex, and where it is in its section. -/
structure Holder (Tid : Type) where
  thread : Tid
  /-- The side of the queue it works on. -/
  side : Side
  stage : Stage

/-- The sections that act on the contexts of other threads. -/
inductive Critical (T : Type) where
  | wakeOne (c : Nat) (d : Side)
  /-- The section at the start of every operation of the zero flavor. -/
  | pair (c : Nat) (d : Side) (offer : Option (Packet T))
  | disconnectWaker (c : Nat) (d : Side)
  | disconnectZero (c : Nat)

namespace Critical

def chan : Critical T → Nat
  | .wakeOne c _ | .pair c _ _ | .disconnectWaker c _ | .disconnectZero c => c

/-- The queue the section begins with. -/
def side : Critical T → Side
  | .wakeOne _ d | .disconnectWaker _ d => d
  | .pair _ d _ => d.opposite
  | .disconnectZero _ => .send

def first : Critical T → Stage
  | .wakeOne _ _ | .pair _ _ _ => .scan 0
  | .disconnectWaker _ _ => .tell 0
  | .disconnectZero _ => .flag

/-- What the section returns when `wake_one` has found this entry. -/
def found (e : Entry Tid) : Critical T → Ret Tid T
  | .pair _ _ _ => .token ((e.packet.map .packet).getD .null)
  | _ => .unit

/-- What is done when `wake_one` has found nobody, and what the section returns. -/
def nobody (w : Shared Tid T) : Critical T → Act Tid T × Ret Tid T
  | .pair c d offer =>
      if w.isDisconnected c then (.silent, .token .null)
      else
        match offer with
        | none => (.silent, .failed)
        | some v => (.queue c d v, .queued w.fresh)
  | _ => (.silent, .unit)

end Critical

namespace Call

/-- The call is about to run such a section. -/
def critical (kind : Nat → Kind T) : Call T → Prog → Option (Critical T)
  | .wakeOne c d, .locked => some (.wakeOne c d)
  | .start c d, _ =>
      match kind c with
      | .zero => some (.pair c d .none)
      | _ => .none
  | .retry c d, _ =>
      match kind c with
      | .zero => some (.pair c d (some .emptyOnHeap))
      | _ => .none
  | .pair c d offer, _ => some (.pair c d offer)
  | .disconnectWaker c d, _ => some (.disconnectWaker c d)
  | .disconnectZero c, _ => some (.disconnectZero c)
  | _, _ => .none

/-- The queue whose mutex the next step of the call takes. -/
def locks (kind : Nat → Kind T) : Call T → Prog → Option (Nat × Side)
  | .register c d _, .start =>
      match kind c, d with
      | .array _ _, _ | .list, .recv | .zero, _ => some (c, d)
      | _, _ => .none
  | .unregister c d _, pr =>
      match kind c, d, pr with
      | .array _ _, _, .locked | .list, .recv, .locked | .zero, _, _ => some (c, d)
      | _, _, _ => .none
  | .withdraw c d, _ => some (c, d)
  | .state c d, _ =>
      match kind c with
      | .zero => some (c, d)
      | _ => .none
  | _, _ => .none

end Call

/-- The mutex around a queue: every `SyncWaker` has one, a zero channel has one for both. -/
def mutexOf (kind : Nat → Kind T) (c : Nat) (d : Side) : Side :=
  match kind c with
  | .zero => .send
  | _ => d

/-- The step is one of thread `t`. -/
def Label.Runs (l : Label Tid T) (t : Tid) : Prop := ∃ spurious order, l = .run t spurious order

/-- The whole system, and who is inside a section under which mutex. -/
structure FineWorld (Tid T : Type) where
  world : World Tid T
  holder : Nat → Side → Option (Holder Tid)

namespace FineWorld

def setHolder (F : FineWorld Tid T) (c : Nat) (m : Side) (h : Option (Holder Tid)) :
    FineWorld Tid T :=
  { F with holder := Function.update F.holder c (Function.update (F.holder c) m h) }

def setReg (F : FineWorld Tid T) (r : Registry Tid) : FineWorld Tid T :=
  { F with world := { F.world with shared := { F.world.shared with reg := r } } }

variable [DecidableEq Tid] (F : FineWorld Tid T) (kind : Nat → Kind T)

/-- One access to the context of another thread. -/
def setCx (t : Tid) (cx : Context Tid) : FineWorld Tid T :=
  F.setReg { F.world.shared.reg with cx := Function.update F.world.shared.reg.cx t cx }

/-- Thread `t` goes on with its section. -/
def hold (s : Critical T) (h : Holder Tid) : FineWorld Tid T :=
  F.setHolder s.chan (mutexOf kind s.chan s.side) (some h)

/-- The last access of the section: the mutex is unlocked, and the call returns. -/
def leave (t : Tid) (order : List Handle) (s : Critical T) (act : Act Tid T) (r : Ret Tid T) :
    Option (FineWorld Tid T) :=
  ((F.world.thread t).frame.resume kind t order r).map fun f =>
    { F with world := { F.world with shared := F.world.shared.apply t act }.put t f }.setHolder
      s.chan (mutexOf kind s.chan s.side) none

/-- One access of the thread that is inside the section `s`. -/
def advance (order : List Handle) (s : Critical T) (h : Holder Tid) : Option (FineWorld Tid T) :=
  let reg := F.world.shared.reg
  let q := reg.waker s.chan h.side
  match h.stage with
  | .scan i =>
      match q.entries[i]? with
      | some e =>
          if Waker.Wakeable reg.cx h.thread e then
            some ((F.setCx e.owner ((reg.cx e.owner).trySelect (.operation e.oper))).hold kind s
              { h with stage := .store i })
          else some (F.hold kind s { h with stage := .scan (i + 1) })
      | none =>
          -- The end of the loop. What `start_send` or `send` does next is under the same lock.
          F.leave kind h.thread order s (s.nobody F.world.shared).1 (s.nobody F.world.shared).2
  | .store i =>
      q.entries[i]?.map fun e =>
        (F.setCx e.owner ((reg.cx e.owner).storePacket e.packet)).hold kind s
          { h with stage := .unpark i }
  -- `unpark` changes nothing that is modelled, but it is an access of its own.
  | .unpark i => some (F.hold kind s { h with stage := .remove i })
  | .remove i =>
      q.entries[i]?.bind fun e =>
        (F.setReg (reg.setWaker s.chan h.side { q with entries := q.entries.eraseIdx i })).leave
          kind h.thread order s .silent (s.found e)
  | .flag =>
      if F.world.shared.isDisconnected s.chan then F.leave kind h.thread order s .silent .unit
      else
        let shared :=
          { F.world.shared with
            isDisconnected := Function.update F.world.shared.isDisconnected s.chan true }
        some ({ F with world := { F.world with shared := shared } }.hold kind s
          { h with stage := .tell 0 })
  | .tell i =>
      match q.entries[i]? with
      | some e =>
          some ((F.setCx e.owner ((reg.cx e.owner).trySelect .disconnected)).hold kind s
            { h with stage := .tell (i + 1) })
      | none =>
          match s, h.side with
          -- `zero.rs` 429: the queue of the receivers comes behind that of the senders.
          | .disconnectZero _, .send => some (F.hold kind s ⟨h.thread, .recv, .tell 0⟩)
          | _, _ => F.leave kind h.thread order s .silent .unit

/-- One atomic step of thread `t`. -/
def run (t : Tid) (spurious : Bool) (order : List Handle) : Option (FineWorld Tid T) :=
  let th := F.world.thread t
  match th.frame.call.critical kind th.prog with
  | some s =>
      match F.holder s.chan (mutexOf kind s.chan s.side) with
      -- Taking the mutex is a step, and the first access to a context another one.
      | none => some (F.hold kind s ⟨t, s.side, s.first⟩)
      | some h => if h.thread = t then F.advance kind order s h else none
  | none =>
      if ∀ q ∈ th.frame.call.locks kind th.prog, (F.holder q.1 (mutexOf kind q.1 q.2)).isNone then
        (F.world.run kind t spurious order).map fun w => { F with world := w }
      else none

def step : Label Tid T → Option (FineWorld Tid T)
  | .run t spurious order => F.run kind t spurious order
  | l => (F.world.step kind l).map fun w => { F with world := w }

def init : FineWorld Tid T := ⟨.init kind, fun _ _ => none⟩

/-- **The machine with its sections taken apart.** -/
def system : Lib.System (FineWorld Tid T) (Label Tid T) where
  init F := F = .init kind
  step F l F' := F.step kind l = some F'

/-! ## What one step does -/

variable {F F' : FineWorld Tid T} {kind : Nat → Kind T} {t : Tid}

/-- The entries of a queue. -/
abbrev entries (F : FineWorld Tid T) (c : Nat) (d : Side) : List (Entry Tid) :=
  (F.world.shared.reg.waker c d).entries

/-- The steps inside a section. -/
inductive Inside (kind : Nat → Kind T) (F : FineWorld Tid T) (s : Critical T) (h : Holder Tid) :
    FineWorld Tid T → Prop where
  | pass {i : Nat} {e : Entry Tid} (hs : h.stage = .scan i)
      (he : (F.entries s.chan h.side)[i]? = some e)
      (hno : Waker.Wakeable F.world.shared.reg.cx h.thread e = false) :
      Inside kind F s h (F.hold kind s { h with stage := .scan (i + 1) })
  | select {i : Nat} {e : Entry Tid} (hs : h.stage = .scan i)
      (he : (F.entries s.chan h.side)[i]? = some e)
      (hyes : Waker.Wakeable F.world.shared.reg.cx h.thread e = true) :
      Inside kind F s h
        ((F.setCx e.owner ((F.world.shared.reg.cx e.owner).trySelect (.operation e.oper))).hold
          kind s { h with stage := .store i })
  | store {i : Nat} {e : Entry Tid} (hs : h.stage = .store i)
      (he : (F.entries s.chan h.side)[i]? = some e) :
      Inside kind F s h
        ((F.setCx e.owner ((F.world.shared.reg.cx e.owner).storePacket e.packet)).hold
          kind s { h with stage := .unpark i })
  | unpark {i : Nat} (hs : h.stage = .unpark i) :
      Inside kind F s h (F.hold kind s { h with stage := .remove i })
  | remove {i : Nat} {e : Entry Tid} {order : List Handle} {F' : FineWorld Tid T}
      (hs : h.stage = .remove i) (he : (F.entries s.chan h.side)[i]? = some e)
      (hl : (F.setReg (F.world.shared.reg.setWaker s.chan h.side
        { F.world.shared.reg.waker s.chan h.side with
          entries := (F.entries s.chan h.side).eraseIdx i })).leave kind h.thread order s .silent
            (s.found e) = some F') : Inside kind F s h F'
  | nobody {i : Nat} {order : List Handle} {F' : FineWorld Tid T} (hs : h.stage = .scan i)
      (he : (F.entries s.chan h.side)[i]? = none)
      (hl : F.leave kind h.thread order s (s.nobody F.world.shared).1
        (s.nobody F.world.shared).2 = some F') : Inside kind F s h F'
  | flag (hs : h.stage = .flag) :
      Inside kind F s h
        (({ F with
            world := { F.world with
              shared := { F.world.shared with
                isDisconnected :=
                  Function.update F.world.shared.isDisconnected s.chan true } } } :
          FineWorld Tid T).hold kind s { h with stage := .tell 0 })
  | tell {i : Nat} {e : Entry Tid} (hs : h.stage = .tell i)
      (he : (F.entries s.chan h.side)[i]? = some e) :
      Inside kind F s h
        ((F.setCx e.owner ((F.world.shared.reg.cx e.owner).trySelect .disconnected)).hold
          kind s { h with stage := .tell (i + 1) })
  | turn {c : Nat} (hs : h.stage.taken = none) (hz : s = .disconnectZero c) :
      Inside kind F s h (F.hold kind s ⟨h.thread, .recv, .tell 0⟩)
  | told {order : List Handle} {F' : FineWorld Tid T} (hs : h.stage.taken = none)
      (hl : F.leave kind h.thread order s .silent .unit = some F') : Inside kind F s h F'

theorem advance_cases {order : List Handle} {s : Critical T} {h : Holder Tid}
    (ha : F.advance kind order s h = some F') : Inside kind F s h F' := by
  unfold advance at ha
  dsimp only at ha
  split at ha
  · rename_i i hs
    split at ha
    · split at ha
      · cases ha
        exact .select hs ‹_› ‹_›
      · cases ha
        rename_i hno
        exact .pass hs ‹_› (Bool.eq_false_of_not_eq_true hno)
    · exact .nobody hs ‹_› ha
  · obtain ⟨e, he, rfl⟩ := Option.map_eq_some_iff.mp ha
    exact .store ‹_› he
  · cases ha
    exact .unpark ‹_›
  · obtain ⟨e, he, hl⟩ := Option.bind_eq_some_iff.mp ha
    exact .remove ‹_› he hl
  · rename_i hs
    split at ha
    · exact .told (by rw [hs]; rfl) ha
    · cases ha
      exact .flag hs
  · rename_i i hs
    split at ha
    · cases ha
      exact .tell hs ‹_›
    · split at ha
      · cases ha
        exact .turn (by rw [hs]; rfl) rfl
      · exact .told (by rw [hs]; rfl) ha

/-- The call of thread `t` is not about to run a section, and nobody holds a mutex it needs. -/
def Unlocked (F : FineWorld Tid T) (kind : Nat → Kind T) (t : Tid) : Prop :=
  (F.world.thread t).frame.call.critical kind (F.world.thread t).prog = none ∧
    ∀ c d, (F.world.thread t).frame.call.locks kind (F.world.thread t).prog = some (c, d) →
      F.holder c (mutexOf kind c d) = none

omit [DecidableEq Tid] in
theorem unlocked_of_none (h : (F.world.thread t).frame.call = .none) : F.Unlocked kind t := by
  simp [Unlocked, h, Call.critical, Call.locks]

/-- **What one step of the machine does.** -/
theorem step_cases {l : Label Tid T} (h : F.step kind l = some F') :
    (∃ t act th count, World.Turn kind F.world t act th count ∧
        World.After F.world F'.world t act th count ∧ F.Unlocked kind t ∧ F'.holder = F.holder ∧
        (l.Runs t ∨ (F.world.thread t).frame.call = .none)) ∨
      (∃ t s, (F.world.thread t).frame.call.critical kind (F.world.thread t).prog = some s ∧
        F.holder s.chan (mutexOf kind s.chan s.side) = none ∧
        F' = F.hold kind s ⟨t, s.side, s.first⟩) ∨
      (∃ s h, (F.world.thread h.thread).frame.call.critical kind (F.world.thread h.thread).prog =
          some s ∧ F.holder s.chan (mutexOf kind s.chan s.side) = some h ∧ Inside kind F s h F' ∧
          l.Runs h.thread) ∨
      (∃ c d, F' = { F with world := F.world.setCount c d (F.world.count c d + 1) }) ∨
      (∃ now, F' =
        { F with world := { F.world with shared := { F.world.shared with clock := now } } }) := by
  cases l with
  | run t spurious order =>
    simp only [step, run] at h
    split at h
    · rename_i s hs
      split at h
      · cases h
        exact .inr (.inl ⟨t, s, hs, ‹_›, rfl⟩)
      · rename_i hd hhold
        split at h
        · rename_i ht
          subst ht
          exact .inr (.inr (.inl ⟨s, hd, hs, hhold, advance_cases h, spurious, order, rfl⟩))
        · cases h
    · rename_i hcrit
      split at h
      · rename_i hfree
        obtain ⟨w, hw, rfl⟩ := Option.map_eq_some_iff.mp h
        obtain ⟨act, f, pr, hn, ha⟩ := World.run_turn hw
        refine .inl ⟨t, act, _, _, .next hn, ha, ⟨hcrit, fun c d hcd => ?_⟩, rfl,
          .inl ⟨spurious, order, rfl⟩⟩
        simpa using hfree (c, d) hcd
      · cases h
  | start _ _ | complete _ _ | clone _ _ | drop _ _ _ | advance _ =>
    obtain ⟨w, hw, rfl⟩ := Option.map_eq_some_iff.mp h
    rcases World.other_cases hw (fun _ _ _ => by simp) with
      ⟨t, act, th, count, ht, ha, hnone, -⟩ | ⟨c, d, -, rfl, -⟩ | ⟨now, -, rfl, -⟩
    · exact .inl ⟨t, act, th, count, ht, ha, unlocked_of_none hnone, rfl, .inr hnone⟩
    · exact .inr (.inr (.inr (.inl ⟨c, d, rfl⟩)))
    · exact .inr (.inr (.inr (.inr ⟨now, rfl⟩)))

theorem leave_holder {order : List Handle} {s : Critical T} {act : Act Tid T} {r : Ret Tid T}
    (h : F.leave kind t order s act r = some F') :
    F'.holder = (F.setHolder s.chan (mutexOf kind s.chan s.side) none).holder := by
  obtain ⟨f, -, rfl⟩ := Option.map_eq_some_iff.mp h
  rfl

/-- The last step of a section. -/
theorem leave_after {order : List Handle} {s : Critical T} {act : Act Tid T} {r : Ret Tid T}
    (hrun : (F.world.thread t).frame.ended = false)
    (h : F.leave kind t order s act r = some F') :
    ∃ f, (F.world.thread t).frame.resume kind t order r = some f ∧
      World.After F.world F'.world t act { F.world.thread t with frame := f, prog := .start }
        F.world.count ∧
      F'.holder =
        (F.setHolder s.chan (mutexOf kind s.chan s.side) none).holder := by
  obtain ⟨f, hf, rfl⟩ := Option.map_eq_some_iff.mp h
  refine ⟨f, hf, ⟨World.put_shared _ _ _, World.put_thread _ _ _, World.put_count _ _ _, ?_⟩, rfl⟩
  simp only [setHolder, World.put, World.activeAfter, hrun]
  cases f.ended <;> rfl

end FineWorld

end CrossbeamChannel
