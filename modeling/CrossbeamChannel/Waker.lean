import Mathlib.Data.List.Nodup
import Mathlib.Logic.Function.Basic

/-!
# Contexts and wakers (`src/context.rs`, `src/waker.rs`)

A thread that wants to block puts entries into the queues of the channels it waits for. All
entries of one attempt share the thread's `Context`, whose `select` word decides, by one
compare-and-swap from `Waiting`, which event ends the attempt: an operation selected by
another thread, a disconnected channel, or the thread giving up.

A section under a `Waker`'s mutex is one step here. It reads and changes the queue, which
the mutex protects, and the `select` words, which it does not. But a section only ever acts
on the first entry whose context it finds `Waiting`, and a context it has passed over cannot
become `Waiting` again before its owner has unregistered, for which the owner needs the
mutex. So the section takes effect at its one successful compare-and-swap (or at its last
look, when there is none). `SyncWaker`'s look at the cached `len` before taking the mutex is
a step of its own.

`disconnect` does a compare-and-swap on every entry of the queue, and they are one step here as
well. Between two of them another thread may select or abort a context the sweep has yet to come
to; that is the same as if it had done so before the whole sweep, since the compare-and-swap of
the sweep then fails on it and does nothing. And it may go by a context the sweep has already
decided: that is the same as if it had come after the sweep. No thread can tell the two ends of
the sweep apart, for nobody looks at the contexts of two other threads without the mutex.
`World.Sections` runs these sections one access at a time, for what has to be said about the
inside of them.

`register_count` has no bound here; the code's wraps around. `SyncWaker.Refines` connects it to the
word of 64 bits in the model that has the deque, the index search and `maybe_shrink` as well.

`unpark` is left out: a parked thread may wake up at any moment.
-/

namespace CrossbeamChannel

/-- The two directions of a channel. -/
inductive Side where
  | send
  | recv
  deriving DecidableEq, Repr

/-- The side a partner stands on. -/
def Side.opposite : Side → Side
  | .send => .recv
  | .recv => .send

@[simp] theorem Side.opposite_opposite (d : Side) : d.opposite.opposite = d := by cases d <;> rfl

@[simp] theorem Side.opposite_ne (d : Side) : d.opposite ≠ d := by cases d <;> simp [opposite]

@[simp] theorem Side.ne_opposite (d : Side) : d ≠ d.opposite := by cases d <;> simp [opposite]

variable {Tid : Type}

/-- `Operation`: the address of a variable that is alive in one thread for the duration of
    the operation, hence that thread and the number of the variable in it. -/
structure Operation (Tid : Type) where
  thread : Tid
  slot : Nat
  deriving DecidableEq

/-- Current state of a select or a blocking operation. -/
inductive Selected (Tid : Type) where
  /-- Still waiting for an operation. -/
  | waiting
  /-- The attempt to block the current thread has been aborted. -/
  | aborted
  /-- A channel was disconnected. -/
  | disconnected
  /-- An operation became ready. -/
  | operation (op : Operation Tid)
  deriving DecidableEq

/-- The two words of a thread's context; `none` is the null packet. -/
structure Context (Tid : Type) where
  select : Selected Tid
  packet : Option Nat

/-- What `Context::reset` leaves behind. -/
def Context.fresh : Context Tid := ⟨.waiting, none⟩

/-- `try_select`: the context afterwards. -/
def Context.trySelect (cx : Context Tid) (sel : Selected Tid) : Context Tid :=
  match cx.select with
  | .waiting => { cx with select := sel }
  | _ => cx

/-- `store_packet` -/
def Context.storePacket (cx : Context Tid) (packet : Option Nat) : Context Tid :=
  match packet with
  | some p => { cx with packet := some p }
  | none => cx

/-- A thread blocked on a channel operation. Its context is that of the thread the operation
    belongs to. -/
structure Entry (Tid : Type) where
  oper : Operation Tid
  packet : Option Nat

/-- The thread whose context the entry holds. -/
abbrev Entry.owner (e : Entry Tid) : Tid := e.oper.thread

/-- A queue of threads blocked on channel operations. -/
structure Waker (Tid : Type) where
  entries : List (Entry Tid)
  /-- The number of calls to `register` and `register_with_packet`. -/
  registerCount : Nat

namespace Waker

def new : Waker Tid := ⟨[], 0⟩

/-- `register_with_packet`; `register` is the case of a null packet. -/
def register (w : Waker Tid) (e : Entry Tid) : Waker Tid :=
  ⟨w.entries ++ [e], w.registerCount + 1⟩

variable [DecidableEq Tid]

/-- `unregister`: the entry of the operation, if there is one, and the queue without it. -/
def unregister (w : Waker Tid) (op : Operation Tid) : Option (Entry Tid) × Waker Tid :=
  (w.entries.find? fun e => e.oper = op,
    { w with entries := w.entries.eraseP fun e => e.oper = op })

/-- Another thread's operation that is still waiting. -/
def Wakeable (cx : Tid → Context Tid) (me : Tid) (e : Entry Tid) : Bool :=
  e.owner ≠ me && (cx e.owner).select = .waiting

/-- The scan of `wake_one`: the first entry it can select, and the queue without it. -/
def wakeOne (w : Waker Tid) (cx : Tid → Context Tid) (me : Tid) :
    Option (Entry Tid) × Waker Tid :=
  (w.entries.find? (Wakeable cx me), { w with entries := w.entries.eraseP (Wakeable cx me) })

/-- What `wake_one` does to the contexts: select the entry's operation, provide its packet. -/
def wakeContext (cx : Tid → Context Tid) : Option (Entry Tid) → Tid → Context Tid
  | some e => Function.update cx e.owner
      (((cx e.owner).trySelect (.operation e.oper)).storePacket e.packet)
  | none => cx

/-- `can_wake_one` -/
def canWakeOne (w : Waker Tid) (cx : Tid → Context Tid) (me : Tid) : Bool :=
  w.entries.any (Wakeable cx me)

/-- `disconnect`: what it does to the contexts. The entries stay. -/
def disconnect (w : Waker Tid) (cx : Tid → Context Tid) : Tid → Context Tid :=
  w.entries.foldl (fun cx e => Function.update cx e.owner ((cx e.owner).trySelect .disconnected)) cx

end Waker

/-! ## What one call does -/

namespace Context

theorem trySelect_waiting {cx : Context Tid} {sel : Selected Tid} (h : cx.select = .waiting) :
    cx.trySelect sel = { cx with select := sel } := by
  simp only [trySelect, h]

theorem trySelect_decided {cx : Context Tid} {sel : Selected Tid} (h : cx.select ≠ .waiting) :
    cx.trySelect sel = cx := by
  unfold trySelect
  split
  · contradiction
  · rfl

theorem trySelect_ne_waiting {cx : Context Tid} {sel : Selected Tid} (h : sel ≠ .waiting) :
    (cx.trySelect sel).select ≠ .waiting := by
  by_cases hw : cx.select = .waiting
  · rw [trySelect_waiting hw]
    exact h
  · rw [trySelect_decided hw]
    exact hw

/-- Only the first event counts. -/
theorem trySelect_trySelect {sel : Selected Tid} (h : sel ≠ .waiting) (cx : Context Tid) :
    (cx.trySelect sel).trySelect sel = cx.trySelect sel :=
  trySelect_decided (trySelect_ne_waiting h)

@[simp] theorem storePacket_select (cx : Context Tid) (packet : Option Nat) :
    (cx.storePacket packet).select = cx.select := by
  cases packet <;> rfl

end Context

namespace Waker

variable [DecidableEq Tid] {w : Waker Tid} {cx : Tid → Context Tid} {me t : Tid} {e : Entry Tid}

theorem wakeable_iff : Wakeable cx me e = true ↔ e.owner ≠ me ∧ (cx e.owner).select = .waiting := by
  simp [Wakeable]

/-- `wake_one` finds nobody exactly when no other thread's operation is waiting. -/
theorem wakeOne_none :
    (w.wakeOne cx me).1 = none ↔
      ∀ e ∈ w.entries, e.owner ≠ me → (cx e.owner).select ≠ .waiting := by
  simp only [wakeOne, List.find?_eq_none, wakeable_iff, not_and, ne_eq]

/-- The entry `wake_one` finds was queued, belongs to another thread and was waiting. -/
theorem wakeOne_some (h : (w.wakeOne cx me).1 = some e) :
    e ∈ w.entries ∧ e.owner ≠ me ∧ (cx e.owner).select = .waiting :=
  ⟨List.mem_of_find?_eq_some h, wakeable_iff.mp (List.find?_some h)⟩

theorem canWakeOne_iff :
    w.canWakeOne cx me = true ↔ ∃ e ∈ w.entries, e.owner ≠ me ∧ (cx e.owner).select = .waiting := by
  simp only [canWakeOne, List.any_eq_true, wakeable_iff]

theorem wakeOne_entries_none (h : (w.wakeOne cx me).1 = none) :
    (w.wakeOne cx me).2.entries = w.entries :=
  List.eraseP_of_forall_not (List.find?_eq_none.mp h)

@[simp] theorem wakeContext_none : wakeContext cx none = cx := rfl

/-- The selected thread is told its operation and its packet. -/
theorem wakeContext_owner (h : (cx e.owner).select = .waiting) :
    wakeContext cx (some e) e.owner =
      ({ cx e.owner with select := .operation e.oper } : Context Tid).storePacket e.packet := by
  simp only [wakeContext, Function.update_self, Context.trySelect_waiting h]

theorem wakeContext_of_ne (h : t ≠ e.owner) : wakeContext cx (some e) t = cx t :=
  Function.update_of_ne h _ _

/-- Changing the value of every key in a list, by a change that made twice is made once. -/
theorem foldl_update_apply {α ι β : Type} [DecidableEq ι] (key : α → ι) {f : β → β}
    (hf : ∀ b, f (f b) = f b) (es : List α) (cx : ι → β) (t : ι) :
    es.foldl (fun cx e => Function.update cx (key e) (f (cx (key e)))) cx t =
      if ∃ e ∈ es, key e = t then f (cx t) else cx t := by
  induction es generalizing cx with
  | nil => simp
  | cons e es ih =>
    rw [List.foldl_cons, ih]
    by_cases he : key e = t
    · subst he
      simp only [Function.update_self, List.mem_cons, exists_eq_or_imp, true_or, if_true]
      split
      · exact hf _
      · rfl
    · simp only [Function.update_of_ne (Ne.symm he), List.mem_cons, exists_eq_or_imp, he,
        false_or]

/-- `disconnect` decides every waiting context it finds in the queue and no other. -/
theorem disconnect_apply :
    w.disconnect cx t =
      if ∃ e ∈ w.entries, e.owner = t then (cx t).trySelect .disconnected else cx t := by
  rw [disconnect]
  exact foldl_update_apply Entry.owner (f := fun cx => cx.trySelect .disconnected)
    (Context.trySelect_trySelect (by simp)) w.entries cx t

end Waker

end CrossbeamChannel
