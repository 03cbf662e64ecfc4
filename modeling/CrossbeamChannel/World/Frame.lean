import CrossbeamChannel.World.Call

/-!
# The operations of a thread

What a thread does between its calls into shared state: the bodies of `send`, `recv`,
`try_send` and `try_recv` of the array, list and zero flavors, of `run_select`
(`src/select.rs`), of the completion of a selected operation, of `disconnect`, and of the
`recv` of a timer. A `Frame` is a place in one of these bodies: `Frame.call` names the call
that comes next and `Frame.resume` says where the body goes with its result. Both are pure;
everything shared happens inside the calls.

The order into which `run_select` shuffles its handles is an argument of `resume`.

## Where the stages stand in the source

* `PlainStage` is the loop of `send` and `recv` (`array.rs` 372-415 and 431-476, `list.rs` 401-447). The
  array's `send`, the array's `recv` and the list's `recv` are the same loop over different calls, so they
  are one body here. A list sender never leaves the first attempt.
* `ZeroStage` is `send` and `recv` of the zero flavor (`zero.rs` 303-352 and 374-420): pair up, or queue a
  packet that lives on the stack, wait, and then either wait for the packet or take it back.
* `FinishStage` is `write` and `read` (`array.rs` 260-275 and 342-357, `list.rs` 231-247 and 347-366,
  `zero.rs` 180-190 and 257-280). The wake-up behind them is a stage of its own, since another thread may
  be scheduled in between.
* `SelectStage` is `run_select` (`select.rs` 172-359), one stage for each of its loops: `shuffle` to
  `again` the rounds of tries (250-267), `reset` to `accept` the inside of `Context::with` (270-337),
  `timeCheck` what follows it (344-355), and `shuffleNow` to `recheck` the non-blocking form (200-246).
  `RetryStage` is the short pause of the zero flavor (`zero.rs` 135-175 and 212-252).
* `CloseStage` is `disconnect` (`array.rs` 509-514, `list.rs` 469-473, `zero.rs` 423-431).

A panic is a place too, `Frame.panicked`, that a body goes to where the source unwraps `None` or comes to
`unreachable!`. That no thread ever gets there is a theorem, and not built into the bodies.
-/

namespace CrossbeamChannel

variable {Tid T : Type}

/-- What an operation does on a channel that is not ready. -/
inductive Mode where
  /-- `try_send`, `try_recv` -/
  | nonblocking
  /-- `send`, `recv` and their timed forms -/
  | blocking (deadline : Option Nat)

def Mode.deadline : Mode → Option Nat
  | .nonblocking => none
  | .blocking deadline => deadline

/-- A send of `msg`, or a receive. -/
structure Job (T : Type) where
  chan : Nat
  msg : Option T

def Job.side (j : Job T) : Side :=
  match j.msg with
  | some _ => .send
  | none => .recv

/-- How an operation ends. A message is one received, or one given back. -/
inductive Outcome (T : Type) where
  | ok (msg : Option T)
  /-- The message of an `after` or `tick` channel. -/
  | okInstant (i : Nat)
  /-- `Full` or `Empty` -/
  | unavailable (msg : Option T)
  | timeout (msg : Option T)
  | disconnected (msg : Option T)
  /-- `run_select` returned `None`. -/
  | notReady
  /-- A handle was dropped. -/
  | dropped

/-- One of the handles `run_select` works on. -/
structure Handle where
  chan : Nat
  side : Side
  /-- The position at which the operation was added. -/
  index : Nat
  /-- The address of the `Sender` or `Receiver`. -/
  ptr : Nat
  deriving DecidableEq

inductive Timeout where
  | now
  | never
  | at (when : Nat)

def Timeout.deadline : Timeout → Option Nat
  | .at when => some when
  | _ => none

/-- `send` and `recv` of the array and list flavors. -/
inductive PlainStage where
  /-- The retry loop, with its `Backoff` counter. -/
  | attempt (n : Nat)
  | reset
  | register
  | abort
  | wait
  | unregister
  /-- The check of the deadline; `woken` if another thread had selected the operation. -/
  | deadline (woken : Bool)

/-- `send` and `recv` of the zero flavor, with the packet on the thread's stack. -/
inductive ZeroStage (Tid : Type) where
  | pair
  | wait (p : Nat)
  | withdraw (p : Nat) (sel : Selected Tid)
  /-- The sender takes its message back. -/
  | recover (p : Nat) (sel : Selected Tid)
  | waitReady (p : Nat)
  | takeMsg (p : Nat)

/-- `write` and `read`, with the token of the preceding attempt. -/
inductive FinishStage (T : Type) where
  -- array, list
  | complete
  | wakeOne (out : Outcome T)
  -- zero
  | storeMsg (p : Nat)
  | setReady (p : Nat) (out : Outcome T)
  | loadOnStack (p : Nat)
  | waitReady (p : Nat)
  | takeMsg (p : Nat) (onStack : Bool)
  | dropPacket (p : Nat) (msg : T)

/-- The short pause of the zero flavor. -/
inductive RetryStage (Tid : Type) where
  | first
  | pause (p : Nat)
  | withdraw (p : Nat) (sel : Selected Tid)
  | dropPacket (p : Nat) (sel : Selected Tid)
  | packet

/-- `run_select` -/
inductive SelectStage (Tid : Type) where
  | shuffle
  | attempt (i : Nat)
  | again (i : Nat) (st : RetryStage Tid)
  | reset
  | register (i : Nat)
  | abort (i : Nat)
  | selected (i : Nat)
  | deadline (i : Nat) (acc : Option Nat)
  | wait (deadline : Option Nat)
  | unregister (i count : Nat) (sel : Selected Tid)
  | accept (i : Nat)
  | timeCheck (when : Nat)
  -- `Timeout::Now`
  | shuffleNow
  | snapshot (states : List Nat)
  /-- `states` is `none` when there is at most one handle. -/
  | probe (i : Nat) (states : Option (List Nat))
  | recheck (states current : List Nat) (changed : Bool)
  -- no handles
  | sleep (until_ : Option Nat)

/-- `disconnect` -/
inductive CloseStage where
  | setDisconnected
  | senders
  | receivers
  | zero

/-- A place in the body of an operation. -/
inductive Frame (Tid T : Type) where
  | done (out : Outcome T)
  | plain (job : Job T) (mode : Mode) (st : PlainStage)
  | zero (job : Job T) (mode : Mode) (st : ZeroStage Tid)
  | timer (c : Nat) (mode : Mode)
  | finish (job : Job T) (st : FinishStage T)
  | select (handles : List Handle) (timeout : Timeout) (st : SelectStage Tid)
  /-- `run_select` returned `Some`; the operation has yet to be completed. -/
  | chosen (h : Handle) (tk : Token)
  /-- `disconnect`, called for the last handle of side `d`. -/
  | close (c : Nat) (d : Side) (st : CloseStage)
  | panicked

namespace Frame

/-- The operation has returned. -/
def ended : Frame Tid T → Bool
  | .done _ | .panicked => true
  | _ => false

/-! ## The calls -/

def plainCall (job : Job T) (mode : Mode) : PlainStage → Call T
  | .attempt _ => .start job.chan job.side
  | .reset => .reset
  | .register => .register job.chan job.side 0
  | .abort => .abort
  | .wait => .waitUntil mode.deadline
  | .unregister => .unregister job.chan job.side 0
  | .deadline _ => .now

/-- A blocking operation of the zero flavor offers a packet on its own stack. -/
def offer (job : Job T) : Mode → Option (Packet T)
  | .nonblocking => none
  | .blocking _ => some ⟨true, false, job.msg⟩

def zeroCall (job : Job T) (mode : Mode) : ZeroStage Tid → Call T
  | .pair => .pair job.chan job.side (offer job mode)
  | .wait _ => .waitUntil mode.deadline
  | .withdraw _ _ => .withdraw job.chan job.side
  | .recover p _ => .takeMsg p
  | .waitReady p => .waitReady p
  | .takeMsg p => .takeMsg p

def finishCall (job : Job T) : FinishStage T → Call T
  | .complete =>
      match job.msg with
      | some msg => .write job.chan msg
      | none => .read job.chan
  | .wakeOne _ => .wakeOne job.chan job.side.opposite
  | .storeMsg p =>
      match job.msg with
      | some msg => .storeMsg p msg
      | none => .none
  | .setReady p _ => .setReady p
  | .loadOnStack p => .loadOnStack p
  | .waitReady p => .waitReady p
  | .takeMsg p _ => .takeMsg p
  | .dropPacket p _ => .dropPacket p

/-- A call of a method of the `i`-th handle. -/
def onHandle (handles : List Handle) (i : Nat) (f : Handle → Call T) : Call T :=
  match handles[i]? with
  | some h => f h
  | none => .none

def selectCall (handles : List Handle) : SelectStage Tid → Call T
  | .shuffle | .shuffleNow => .skip
  | .attempt i | .probe i _ => onHandle handles i fun h => .start h.chan h.side
  | .again i .first => onHandle handles i fun h => .retry h.chan h.side
  | .again _ (.pause _) => .abort
  | .again i (.withdraw _ _) => onHandle handles i fun h => .withdraw h.chan h.side
  | .again _ (.dropPacket p _) => .dropPacket p
  | .again _ .packet => .waitPacket
  | .reset => .reset
  | .register i => onHandle handles i fun h => .register h.chan h.side (i + 1)
  | .abort _ => .abort
  | .selected _ => .selected
  | .deadline i _ => onHandle handles i fun h => .deadline h.chan
  | .wait deadline => .waitUntil deadline
  | .unregister i _ _ => onHandle handles i fun h => .unregister h.chan h.side (i + 1)
  | .accept i => onHandle handles i fun h => .accept h.chan h.side
  | .timeCheck _ | .sleep _ => .now
  | .snapshot states => onHandle handles states.length fun h => .state h.chan h.side
  | .recheck _ current _ => onHandle handles current.length fun h => .state h.chan h.side

def closeCall (c : Nat) : CloseStage → Call T
  | .setDisconnected => .setDisconnected c
  | .senders => .disconnectWaker c .send
  | .receivers => .disconnectWaker c .recv
  | .zero => .disconnectZero c

/-- The call that comes next. -/
def call : Frame Tid T → Call T
  | .plain job mode st => plainCall job mode st
  | .zero job mode st => zeroCall job mode st
  | .timer c .nonblocking => .start c .recv
  | .timer c (.blocking deadline) => .recvTimer c deadline
  | .finish job st => finishCall job st
  | .select handles _ st => selectCall handles st
  | .close c _ st => closeCall c st
  | .done _ | .chosen _ _ | .panicked => .none

/-! ## Where the bodies go -/

/-- `write` or `read` with this token. A null token of the zero flavor needs no step. -/
def finishWith (kind : Nat → Kind T) (job : Job T) : Token → Frame Tid T
  | .slot => .finish job .complete
  | .null =>
      match kind job.chan with
      | .zero => .done (.disconnected job.msg)
      | _ => .finish job .complete
  | .packet p =>
      match job.side with
      | .send => .finish job (.storeMsg p)
      | .recv => .finish job (.loadOnStack p)
  | .instant i => .done (.okInstant i)

/-- After the blocking phase: is there a deadline to check? -/
def plainWaited (job : Job T) (mode : Mode) (woken : Bool) : Frame Tid T :=
  if mode.deadline.isSome then .plain job mode (.deadline woken)
  else .plain job mode (.attempt 0)

/-- `start_send` or `start_recv` returned `false`. A list sender asserts that it does not. -/
def plainFailed (kind : Nat → Kind T) (job : Job T) (mode : Mode) (n : Nat) : Frame Tid T :=
  match kind job.chan, job.side, mode with
  | .list, .send, _ => .panicked
  | _, _, .nonblocking => .done (.unavailable job.msg)
  | _, _, .blocking _ =>
      if n < 10 then .plain job mode (.attempt (n + 1)) else .plain job mode .reset

def plainResume (kind : Nat → Kind T) (job : Job T) (mode : Mode) :
    PlainStage → Ret Tid T → Option (Frame Tid T)
  | .attempt _, .token tk => some (finishWith kind job tk)
  | .attempt n, .failed => some (plainFailed kind job mode n)
  | .reset, .unit => some (.plain job mode .register)
  | .register, .flag ok => some (.plain job mode (if ok then .wait else .abort))
  | .abort, .selected _ => some (.plain job mode .wait)
  | .wait, .selected .waiting => some .panicked
  -- `wake_one` has removed the entry of a selected operation, so there is nothing to unregister.
  | .wait, .selected (.operation _) => some (plainWaited job mode true)
  | .wait, .selected _ => some (.plain job mode .unregister)
  | .unregister, .removed none => some .panicked
  | .unregister, .removed (some _) => some (plainWaited job mode false)
  -- `array.rs` 409-413: no further attempt is made behind the deadline.
  | .deadline _, .nat now =>
      some (if mode.deadline.any (· ≤ now) then .done (.timeout job.msg)
        else .plain job mode (.attempt 0))
  | _, _ => none

/-- The error of an operation that was not selected. -/
def unselected (sel : Selected Tid) (msg : Option T) : Frame Tid T :=
  match sel with
  | .disconnected => .done (.disconnected msg)
  | _ => .done (.timeout msg)

def zeroResume (kind : Nat → Kind T) (job : Job T) (mode : Mode) :
    ZeroStage Tid → Ret Tid T → Option (Frame Tid T)
  | .pair, .token tk => some (finishWith kind job tk)
  | .pair, .failed => some (.done (.unavailable job.msg))
  -- The message is in the packet from here on, and is taken out again if the operation fails.
  | .pair, .queued p => some (.zero job mode (.wait p))
  | .wait _, .selected .waiting => some .panicked
  | .wait p, .selected (.operation _) => some (.zero job mode (.waitReady p))
  | .wait p, .selected sel => some (.zero job mode (.withdraw p sel))
  | .withdraw _ _, .removed none => some .panicked
  | .withdraw p sel, .removed (some _) =>
      some (match job.side with
        | .send => .zero job mode (.recover p sel)
        | .recv => unselected sel none)
  | .recover _ _, .msg none => some .panicked
  | .recover _ sel, .msg (some m) => some (unselected sel (some m))
  | .waitReady p, .unit =>
      some (match job.side with
        | .send => .done (.ok none)
        | .recv => .zero job mode (.takeMsg p))
  | .takeMsg _, .msg none => some .panicked
  | .takeMsg _, .msg (some m) => some (.done (.ok (some m)))
  | _, _ => none

/-- What follows `write` and `read` of a buffered channel: only the list flavor wakes nobody
    after a receive. -/
def completed (kind : Nat → Kind T) (job : Job T) : Answer T → Option (Frame Tid T)
  | .written => some (.finish job (.wakeOne (.ok none)))
  | .unsent msg => some (.done (.disconnected (some msg)))
  | .got msg =>
      match kind job.chan with
      | .list => some (.done (.ok msg))
      | _ => some (.finish job (.wakeOne (.ok msg)))
  | .unread => some (.done (.disconnected none))
  | _ => none

def finishResume (kind : Nat → Kind T) (job : Job T) :
    FinishStage T → Ret Tid T → Option (Frame Tid T)
  | .complete, .answer a => completed kind job a
  | .wakeOne out, .unit => some (.done out)
  | .storeMsg p, .unit => some (.finish job (.setReady p (.ok none)))
  | .setReady _ out, .unit => some (.done out)
  | .loadOnStack p, .flag true => some (.finish job (.takeMsg p true))
  | .loadOnStack p, .flag false => some (.finish job (.waitReady p))
  | .waitReady p, .unit => some (.finish job (.takeMsg p false))
  | .takeMsg _ _, .msg none => some .panicked
  -- A packet on a stack belongs to its sender, who waits for `ready`; one on the heap is freed here.
  | .takeMsg p true, .msg (some m) => some (.finish job (.setReady p (.ok (some m))))
  | .takeMsg p false, .msg (some m) => some (.finish job (.dropPacket p m))
  | .dropPacket _ m, .unit => some (.done (.ok (some m)))
  | _, _ => none

/-- The top of the loop of `run_select`. -/
def loopStart (handles : List Handle) (timeout : Timeout) : Frame Tid T :=
  .select handles timeout (if 2 ≤ handles.length then .shuffle else .attempt 0)

/-- `run_select` with `Timeout::Now`. -/
def nowStart (handles : List Handle) : Frame Tid T :=
  match handles with
  | [] => .done .notReady
  | [_] => .select handles .now (.probe 0 none)
  | _ => .select handles .now .shuffleNow

/-- After a round of the loop that fired nothing: has the timeout been reached? -/
def roundOver (handles : List Handle) (timeout : Timeout) : Frame Tid T :=
  match timeout with
  | .now => .panicked
  | .never => loopStart handles timeout
  | .at when => .select handles timeout (.timeCheck when)

/-- Everything is unregistered: accept the operation that was selected, if one was. -/
def selectedNow [DecidableEq Tid] (t : Tid) (handles : List Handle) (timeout : Timeout) :
    Selected Tid → Frame Tid T
  | .waiting => .panicked
  | .operation op =>
      -- The source compares the hooks of all handles with the selected one; the slot is the position.
      if op.thread = t ∧ 1 ≤ op.slot ∧ op.slot ≤ handles.length then
        .select handles timeout (.accept (op.slot - 1))
      else roundOver handles timeout
  | _ => roundOver handles timeout

/-- The earlier of two deadlines. -/
def earlier (x : Option Nat) : Option Nat → Option Nat
  | some y =>
      match x with
      | some x => some (min x y)
      | none => some y
  | none => x

/-- The next handle of a loop over all handles, or what follows the loop. -/
def nextHandle (handles : List Handle) (timeout : Timeout) (i : Nat) (f : Nat → SelectStage Tid)
    (last : Frame Tid T) : Frame Tid T :=
  if i + 1 < handles.length then .select handles timeout (f (i + 1)) else last

/-- A try of the `i`-th handle succeeded. -/
def choose (handles : List Handle) (i : Nat) (tk : Token) : Option (Frame Tid T) :=
  handles[i]?.map fun h => .chosen h tk

def retryResume (handles : List Handle) (timeout : Timeout) (i : Nat) :
    RetryStage Tid → Ret Tid T → Option (Frame Tid T)
  | .first, .token tk | .packet, .token tk => choose handles i tk
  | .first, .failed =>
      some (nextHandle handles timeout i (.again · .first) (.select handles timeout .reset))
  | .first, .queued p => some (.select handles timeout (.again i (.pause p)))
  | .pause _, .selected .waiting => some .panicked
  | .pause _, .selected (.operation _) => some (.select handles timeout (.again i .packet))
  | .pause p, .selected sel => some (.select handles timeout (.again i (.withdraw p sel)))
  | .withdraw _ _, .removed none => some .panicked
  | .withdraw p sel, .removed (some _) =>
      some (.select handles timeout (.again i (.dropPacket p sel)))
  -- `zero.rs` 158-160: a disconnection is a success of `retry`, with a null token.
  | .dropPacket _ .disconnected, .unit => choose handles i .null
  | .dropPacket _ _, .unit =>
      some (nextHandle handles timeout i (.again · .first) (.select handles timeout .reset))
  | _, _ => none

/-- After the last try of a non-blocking round. -/
def probed (handles : List Handle) (timeout : Timeout) : Option (List Nat) → Frame Tid T
  | none => .done .notReady
  | some states => .select handles timeout (.recheck states [] false)

/-- After one more state has been compared. -/
def rechecked (handles : List Handle) (timeout : Timeout) (states current : List Nat)
    (changed : Bool) : Frame Tid T :=
  if current.length < handles.length then
    .select handles timeout (.recheck states current changed)
  else if changed then .select handles timeout (.probe 0 (some current))
  else .done .notReady

def selectResume [DecidableEq Tid] (t : Tid) (order : List Handle) (handles : List Handle)
    (timeout : Timeout) : SelectStage Tid → Ret Tid T → Option (Frame Tid T)
  | .shuffle, .unit =>
      if order.Perm handles then some (.select order timeout (.attempt 0)) else none
  | .attempt i, .token tk | .accept i, .token tk | .probe i _, .token tk => choose handles i tk
  | .attempt i, .failed =>
      some (nextHandle handles timeout i .attempt (.select handles timeout (.again 0 .first)))
  | .again i st, r => retryResume handles timeout i st r
  | .reset, .unit => some (.select handles timeout (.register 0))
  | .register i, .flag ok => some (.select handles timeout (if ok then .selected i else .abort i))
  -- `registered_count` is `i + 1`: the handle that was ready has been registered as well.
  | .abort i, .selected sel => some (.select handles timeout (.unregister 0 (i + 1) sel))
  | .selected i, .selected sel =>
      some (if sel = .waiting then
          nextHandle handles timeout i .register
            (.select handles timeout (.deadline 0 timeout.deadline))
        else .select handles timeout (.unregister 0 (i + 1) sel))
  | .deadline i acc, .instant x =>
      some (nextHandle handles timeout i (.deadline · (earlier acc x))
        (.select handles timeout (.wait (earlier acc x))))
  | .wait _, .selected sel => some (.select handles timeout (.unregister 0 handles.length sel))
  | .unregister i count sel, .removed _ =>
      some (if i + 1 < count then .select handles timeout (.unregister (i + 1) count sel)
        else selectedNow t handles timeout sel)
  -- Another thread has been faster, and the loop goes on.
  | .accept _, .failed => some (roundOver handles timeout)
  | .timeCheck when, .nat now =>
      some (if when ≤ now then nowStart handles else loopStart handles timeout)
  | .shuffleNow, .unit =>
      if order.Perm handles then some (.select order timeout (.snapshot [])) else none
  | .snapshot states, .nat v =>
      some (if states.length + 1 < handles.length then
          .select handles timeout (.snapshot (states ++ [v]))
        else .select handles timeout (.probe 0 (some (states ++ [v]))))
  | .probe i states, .failed =>
      some (nextHandle handles timeout i (.probe · states) (probed handles timeout states))
  | .recheck states current changed, .nat v =>
      some (rechecked handles timeout states (current ++ [v])
        (changed || states[current.length]? != some v))
  | .sleep until_, .nat now =>
      some (if until_.any (· ≤ now) then .done .notReady
        else .select handles timeout (.sleep until_))
  | _, _ => none

/-- `disconnect`, behind the swap of the flag. -/
def closeResume (kind : Nat → Kind T) (c : Nat) (d : Side) :
    CloseStage → Ret Tid T → Option (Frame Tid T)
  -- The channel was disconnected already, by the other side.
  | .setDisconnected, .answer (.flag true) => some (.done .dropped)
  | .setDisconnected, .answer (.flag false) =>
      match kind c with
      | .list => some (.close c d .receivers)
      | _ => some (.close c d .senders)
  | .senders, .unit => some (.close c d .receivers)
  | .receivers, .unit => some (.done .dropped)
  | .zero, .unit => some (.done .dropped)
  | _, _ => none

def timerResume (mode : Mode) : Ret Tid T → Option (Frame Tid T)
  | .token (.instant i) => some (.done (.okInstant i))
  | .failed =>
      match mode with
      | .nonblocking => some (.done (.unavailable none))
      | .blocking _ => some (.done (.timeout none))
  | _ => none

/-- Where the body goes with the result of its call. -/
def resume [DecidableEq Tid] (kind : Nat → Kind T) (t : Tid) (order : List Handle)
    (f : Frame Tid T) (r : Ret Tid T) : Option (Frame Tid T) :=
  match f with
  | .plain job mode st => plainResume kind job mode st r
  | .zero job mode st => zeroResume kind job mode st r
  | .timer _ mode => timerResume mode r
  | .finish job st => finishResume kind job st r
  | .select handles timeout st => selectResume t order handles timeout st r
  | .close c d st => closeResume kind c d st r
  | .done _ | .chosen _ _ | .panicked => none

end Frame

end CrossbeamChannel
