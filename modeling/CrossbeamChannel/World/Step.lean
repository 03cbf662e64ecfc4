import CrossbeamChannel.World.Frame
import Mathlib.Data.List.Perm.Basic

/-!
# The machine

Any number of threads, any number of channels of any flavors, one atomic step at a time. A
thread that is in no operation may begin one on channels it has a live handle of; a thread
in an operation may take its next step; handles may be cloned and dropped
(`src/channel.rs`), and the clock may move.

Handles are counted, not named. That a handle is not dropped while an operation uses it,
which the borrow checker sees to, becomes: the last handle of a side may only be dropped
when no operation in progress uses that side.

`Label.drop` is `Drop` of `Sender` and `Receiver` (`channel.rs` 566-576 and 1010-1022): the count goes
down, and who takes it from one to zero runs `disconnect`, which is an operation of that thread like any
other. `Label.complete` is `SelectedOperation::send` and `recv` (`select.rs` 755-800). In between the
thread holds the token and does nothing else: the `SelectedOperation` borrows the `Select`. One that is
dropped instead panics (809-813), which is looked into on the machines of the flavors (`Unwind`).

Threads share no order beside that of the steps: every label may come next when its guard holds, so a
theorem about all reachable states, or all runs, is one about all interleavings.
-/

namespace CrossbeamChannel

variable {Tid T : Type}

/-- A thread: its operation, and how far the current call has come. -/
structure Thread (Tid T : Type) where
  frame : Frame Tid T
  prog : Prog
  /-- The sides of channels whose handles the operation borrows. -/
  uses : List (Nat × Side)
  /-- How many operations the thread has begun. -/
  ops : Nat
  /-- The send or receive it was last asked for: by the operation, or by the completion of a
      selected operation. -/
  job : Option (Job T)

/-- The whole system. -/
structure World (Tid T : Type) where
  shared : Shared Tid T
  /-- How many `Sender`s and `Receiver`s a channel has. -/
  count : Nat → Side → Nat
  thread : Tid → Thread Tid T
  /-- The threads that are in an operation. -/
  active : List Tid

/-- An operation a thread may begin. -/
inductive Op (T : Type) where
  | plain (job : Job T) (mode : Mode)
  /-- `run_select` on these handles, in the order earlier calls left them in. -/
  | select (handles : List Handle) (timeout : Timeout)

namespace Op

/-- The sides of channels whose handles the operation borrows. -/
def uses : Op T → List (Nat × Side)
  | .plain job _ => [(job.chan, job.side)]
  | .select handles _ => handles.map fun h => (h.chan, h.side)

/-- The send or receive the operation is. -/
def job : Op T → Option (Job T)
  | .plain job _ => some job
  | .select _ _ => none

/-- Where the operation begins. -/
def frame (kind : Nat → Kind T) : Op T → Frame Tid T
  | .plain job mode =>
      match kind job.chan with
      | .array _ _ | .list => .plain job mode (.attempt 0)
      | .zero => .zero job mode .pair
      | .after _ | .tick _ _ | .never => .timer job.chan mode
  | .select [] .now => .done .notReady
  | .select [] timeout => .select [] timeout (.sleep timeout.deadline)
  | .select handles .now => Frame.nowStart handles
  | .select handles timeout => Frame.loopStart handles timeout

end Op

/-- What may happen next. -/
inductive Label (Tid T : Type) where
  /-- Thread `t` begins an operation. -/
  | start (t : Tid) (op : Op T)
  /-- Thread `t` takes one atomic step. -/
  | run (t : Tid) (spurious : Bool) (order : List Handle)
  /-- Thread `t` completes the operation `run_select` returned: `SelectedOperation::send` with
      a message, or `SelectedOperation::recv`. -/
  | complete (t : Tid) (msg : Option T)
  | clone (c : Nat) (d : Side)
  /-- Thread `t` drops a handle. -/
  | drop (t : Tid) (c : Nat) (d : Side)
  | advance (now : Nat)

/-- Whose turn it is. -/
def Label.thread : Label Tid T → Option Tid
  | .start t _ | .run t _ _ | .complete t _ | .drop t _ _ => some t
  | .clone _ _ | .advance _ => none

namespace World

variable [DecidableEq Tid] (w : World Tid T)

/-- Thread `t` goes on with this frame, or is done. -/
def put (t : Tid) (f : Frame Tid T) : World Tid T :=
  let th := w.thread t
  if f.ended then
    { w with
      thread := Function.update w.thread t { th with frame := f, prog := .start, uses := [] }
      active := w.active.erase t }
  else
    { w with thread := Function.update w.thread t { th with frame := f, prog := .start } }

/-- Thread `t` begins an operation. -/
def begin (t : Tid) (f : Frame Tid T) (uses : List (Nat × Side)) (job : Option (Job T)) :
    World Tid T :=
  { w with
      thread := Function.update w.thread t ⟨f, .start, uses, (w.thread t).ops + 1, job⟩
      active := t :: w.active }.put t f

/-- Thread `t` completes the operation it has selected. -/
def complete (kind : Nat → Kind T) (t : Tid) (job : Job T) (tk : Token) : World Tid T :=
  { w with
    thread := Function.update w.thread t { w.thread t with job := some job } }.put t
      (.finishWith kind job tk)

/-- An operation in progress uses a handle of this side. -/
def InUse (c : Nat) (d : Side) : Prop := ∃ t ∈ w.active, (c, d) ∈ (w.thread t).uses

instance (c : Nat) (d : Side) : Decidable (w.InUse c d) :=
  inferInstanceAs (Decidable (∃ t ∈ w.active, (c, d) ∈ (w.thread t).uses))

/-- One atomic step of thread `t`. -/
def run (kind : Nat → Kind T) (t : Tid) (spurious : Bool) (order : List Handle) :
    Option (World Tid T) :=
  let th := w.thread t
  match w.shared.exec t kind th.frame.call th.prog spurious with
  | none => none
  -- The call goes on. The body stays where it is.
  | some (act, .more pr) =>
      some { w with
        shared := w.shared.apply t act
        thread := Function.update w.thread t { th with prog := pr } }
  | some (act, .ret r) =>
      (th.frame.resume kind t order r).map fun f =>
        { w with shared := w.shared.apply t act }.put t f

/-- Where the drop of the last handle of a side leads: to `disconnect`, except for timers. -/
def lastDropped (kind : Nat → Kind T) (c : Nat) (d : Side) : Frame Tid T :=
  match kind c with
  | .array _ _ | .list => .close c d .setDisconnected
  | .zero => .close c d .zero
  | .after _ | .tick _ _ | .never => .done .dropped

def setCount (c : Nat) (d : Side) (n : Nat) : World Tid T :=
  { w with count := Function.update w.count c (Function.update (w.count c) d n) }

/-- Dropping a handle: `fetch_sub`, and for the last one `disconnect`. -/
def drop (kind : Nat → Kind T) (t : Tid) (c : Nat) (d : Side) : World Tid T :=
  (w.setCount c d (w.count c d - 1)).begin t
    (if w.count c d = 1 then lastDropped kind c d else .done .dropped) [] none

def step (kind : Nat → Kind T) : Label Tid T → Option (World Tid T)
  | .start t op =>
      if (w.thread t).frame.ended ∧ ∀ x ∈ op.uses, 0 < w.count x.1 x.2 then
        some (w.begin t (op.frame kind) op.uses op.job)
      else none
  | .run t spurious order => w.run kind t spurious order
  | .complete t msg =>
      match (w.thread t).frame with
      | .chosen h tk =>
          if Job.side ⟨h.chan, msg⟩ = h.side then
            some (w.complete kind t ⟨h.chan, msg⟩ tk)
          else none
      | _ => none
  | .clone c d =>
      if 0 < w.count c d then some (w.setCount c d (w.count c d + 1)) else none
  | .drop t c d =>
      -- A handle that is not the last one may be dropped at any time: an operation in progress can be said
      -- to use one of the others.
      if (w.thread t).frame.ended ∧ 0 < w.count c d ∧ (w.count c d = 1 → ¬ w.InUse c d) then
        some (w.drop kind t c d)
      else none
  | .advance now =>
      -- `Instant` is monotonic, and nothing else is known of it.
      if w.shared.clock ≤ now then some { w with shared := { w.shared with clock := now } }
      else none

end World

/-! ## The start -/

/-- A new channel of the array or list flavor. -/
def Buffer.init (k : Kind T) : Buffer Tid T :=
  match k with
  | .array ch _ => .array (.init ch)
  | _ => .list .init

def Registry.init : Registry Tid := ⟨fun _ _ => .new, fun _ _ => 0, fun _ => .fresh⟩

def Shared.init (kind : Nat → Kind T) : Shared Tid T where
  buffer := fun c => .init (kind c)
  reg := .init
  isDisconnected := fun _ => false
  packet := fun _ => ⟨false, false, none⟩
  fresh := 0
  received := fun _ => false
  tick := fun c =>
    match kind c with
    | .tick firstTick _ => ⟨firstTick, 0⟩
    | _ => ⟨0, 0⟩
  clock := 0

/-- New channels, one sender and one receiver of each (of a timer: one receiver), and no
    operation begun. -/
def World.init (kind : Nat → Kind T) : World Tid T where
  shared := .init kind
  count := fun c d => if (kind c).HasSide d then 1 else 0
  thread := fun _ => ⟨.done .dropped, .start, [], 0, none⟩
  active := []

variable [DecidableEq Tid]

/-- **The machine**, for channels of these kinds. -/
def World.system (kind : Nat → Kind T) : Lib.System (World Tid T) (Label Tid T) where
  init w := w = World.init kind
  step w l w' := w.step kind l = some w'

/-- The state these labels lead to from the start. -/
def World.runs (kind : Nat → Kind T) (ls : List (Label Tid T)) : Option (World Tid T) :=
  Lib.System.replay (fun w l => w.step kind l) (World.init kind) ls

theorem World.reachable_of_runs {kind : Nat → Kind T} {ls : List (Label Tid T)} {w : World Tid T}
    (h : World.runs kind ls = some w) : (World.system kind).Reachable w :=
  Lib.System.Reachable.replay (fun _ _ _ hs => hs) (.init rfl) h

end CrossbeamChannel
