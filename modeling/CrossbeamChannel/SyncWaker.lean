import CrossbeamChannel.Lib.Transition
import CrossbeamChannel.Lib.VecDeque
import CrossbeamChannel.Waker

/-!
# The queue of a waker (`src/waker.rs`)

`Waker` as its functions compute it: a deque that is searched and shifted by index, and rebuilt
when it is much too large. An entry holds a context, which is shared by all entries of an attempt
and belongs to one thread. Between two calls other wakers may have decided contexts, and their
owners may have reset them.

`SyncWaker` puts a mutex around it and a copy of the length beside it. The copy is read without
the mutex.

`Refines` connects this queue to the one the rest of the development uses.
-/

namespace CrossbeamChannel.SyncWaker

open Lib

variable {Tid Cx : Type}

/-- A thread blocked on a specific channel operation. -/
structure Entry (Tid Cx : Type) where
  context : Cx
  oper : Operation Tid
  /-- `none` is the null packet. -/
  packet : Option Nat

structure Waker (Tid Cx : Type) where
  entries : VecDeque (Entry Tid Cx)
  registerCount : BitVec 64

/-- Shrinks the queue if its capacity is much larger than length. -/
def maybeShrink (room : Room) (entries : VecDeque (Entry Tid Cx)) : VecDeque (Entry Tid Cx) :=
  if 32 < entries.capacity ∧ entries.items.length < entries.capacity / 4 then
    (VecDeque.withCapacity room (entries.capacity / 2)).extend room entries.items
  else entries

/-- What the contexts hold, and what the functions of a waker may do to them. -/
abbrev Contexts (Tid Cx : Type) := Cx → Context Tid

namespace Contexts

variable [DecidableEq Tid] [DecidableEq Cx]

/-- `try_select`, by compare-and-swap. `none`: an event was selected before. -/
def trySelect (cx : Contexts Tid Cx) (c : Cx) (sel : Selected Tid) : Option (Contexts Tid Cx) :=
  if (cx c).select = .waiting then some (Function.update cx c { cx c with select := sel }) else none

def storePacket (cx : Contexts Tid Cx) (c : Cx) (packet : Option Nat) : Contexts Tid Cx :=
  Function.update cx c ((cx c).storePacket packet)

end Contexts

namespace Waker

def new : Waker Tid Cx := ⟨.new, 0⟩

def registerWithPacket (room : Room) (w : Waker Tid Cx) (oper : Operation Tid)
    (packet : Option Nat) (context : Cx) : Waker Tid Cx :=
  ⟨w.entries.pushBack room ⟨context, oper, packet⟩, w.registerCount + 1⟩

def register (room : Room) (w : Waker Tid Cx) (oper : Operation Tid) (context : Cx) :
    Waker Tid Cx :=
  w.registerWithPacket room oper none context

variable [DecidableEq Tid] [DecidableEq Cx]

def unregister (room : Room) (w : Waker Tid Cx) (oper : Operation Tid) :
    Option (Entry Tid Cx) × Waker Tid Cx :=
  match w.entries.items.findIdx? fun entry => entry.oper = oper with
  | some i =>
      let (entry, entries) := w.entries.remove i
      (entry, { w with entries := maybeShrink room entries })
  | none => (none, w)

/-- `k` turns of the loop in `wake_one` from `i` on: the index of the first entry of another
    thread that `try_select` succeeds on, and the contexts then. -/
def scan (thread : Cx → Tid) (me : Tid) (cx : Contexts Tid Cx) (entries : List (Entry Tid Cx)) :
    Nat → Nat → Option (Nat × Contexts Tid Cx)
  | 0, _ => none
  | k + 1, i =>
      match entries[i]? with
      | none => none
      | some entry =>
          if thread entry.context ≠ me then
            match cx.trySelect entry.context (.operation entry.oper) with
            | some cx => some (i, cx.storePacket entry.context entry.packet)
            | none => scan thread me cx entries k (i + 1)
          else scan thread me cx entries k (i + 1)

def wakeOne (thread : Cx → Tid) (room : Room) (w : Waker Tid Cx) (cx : Contexts Tid Cx) (me : Tid) :
    Option (Entry Tid Cx) × Waker Tid Cx × Contexts Tid Cx :=
  match scan thread me cx w.entries.items w.entries.items.length 0 with
  | some (i, cx) =>
      let (entry, entries) := w.entries.remove i
      (entry, { w with entries := maybeShrink room entries }, cx)
  | none => (none, w, cx)

/-- What `disconnect` does to the contexts. The queue it leaves alone. -/
def disconnect (w : Waker Tid Cx) (cx : Contexts Tid Cx) : Contexts Tid Cx :=
  w.entries.items.foldl (fun cx entry => (cx.trySelect entry.context .disconnected).getD cx) cx

def canWakeOne (thread : Cx → Tid) (w : Waker Tid Cx) (cx : Contexts Tid Cx) (me : Tid) : Bool :=
  w.entries.items.any fun entry =>
    thread entry.context ≠ me && (cx entry.context).select = .waiting

def len (w : Waker Tid Cx) : Nat := w.entries.items.length

end Waker

/-! ## What one call does -/

@[simp] theorem items_maybeShrink (room : Room) (entries : VecDeque (Entry Tid Cx)) :
    (maybeShrink room entries).items = entries.items := by
  unfold maybeShrink
  split
  · exact (VecDeque.items_extend _ _ _).trans (List.nil_append _)
  · rfl

/-- What occurs in a list has a first occurrence. -/
theorem first_mem {α : Type} {p : α → Prop} {xs : List α} (h : ∃ x ∈ xs, p x) :
    ∃ l x r, xs = l ++ x :: r ∧ (∀ y ∈ l, ¬ p y) ∧ p x := by
  classical
  obtain ⟨x, hx, hp⟩ := h
  have hsome : (xs.find? fun x => p x).isSome := List.find?_isSome.mpr ⟨x, hx, by simpa using hp⟩
  obtain ⟨y, hy⟩ := Option.isSome_iff_exists.mp hsome
  obtain ⟨hpy, l, r, hsplit, hl⟩ := List.find?_eq_some_iff_append.mp hy
  exact ⟨l, y, r, hsplit, fun z hz => by simpa using hl z hz, by simpa using hpy⟩

namespace Waker

variable {thread : Cx → Tid} {room : Room} {w : Waker Tid Cx} {cx : Contexts Tid Cx} {me : Tid}

/-- The entry belongs to another thread and is still waiting. -/
def Wakeable (thread : Cx → Tid) (cx : Contexts Tid Cx) (me : Tid) (e : Entry Tid Cx) : Prop :=
  thread e.context ≠ me ∧ (cx e.context).select = .waiting

variable [DecidableEq Tid] [DecidableEq Cx]

omit [DecidableEq Cx] in
theorem canWakeOne_iff :
    w.canWakeOne thread cx me = true ↔ ∃ e ∈ w.entries.items, Wakeable thread cx me e := by
  simp [canWakeOne, Wakeable]

/-- The context of an entry that was woken: its operation, and its packet if it has one. -/
def woken (cx : Contexts Tid Cx) (e : Entry Tid Cx) : Contexts Tid Cx :=
  Function.update cx e.context
    (({ cx e.context with select := .operation e.oper } : Context Tid).storePacket e.packet)

/-- A turn of the scan that wakes nobody. -/
theorem scan_pass {l r : List (Entry Tid Cx)} {y : Entry Tid Cx}
    (hy : ¬ Wakeable thread cx me y) (k : Nat) :
    scan thread me cx (l ++ y :: r) (k + 1) l.length =
      scan thread me cx (l ++ [y] ++ r) k (l ++ [y]).length := by
  rw [List.append_assoc, List.singleton_append, List.length_append, List.length_singleton, scan,
    List.getElem?_append_right (Nat.le_refl _), Nat.sub_self, List.getElem?_cons_zero]
  dsimp only
  split
  · rename_i hme
    rw [Contexts.trySelect, if_neg fun hsel => hy ⟨hme, hsel⟩]
  · rfl

/-- The scan passes over everybody it cannot wake. -/
theorem scan_skip {l r : List (Entry Tid Cx)} (hr : ∀ e ∈ r, ¬ Wakeable thread cx me e) :
    scan thread me cx (l ++ r) r.length l.length = none := by
  induction r generalizing l with
  | nil => rfl
  | cons y r ih =>
    obtain ⟨hy, hr⟩ := List.forall_mem_cons.mp hr
    exact (scan_pass hy _).trans (ih hr)

/-- The scan stops at the first entry it can wake. -/
theorem scan_stop {l m r : List (Entry Tid Cx)} {e : Entry Tid Cx}
    (hm : ∀ y ∈ m, ¬ Wakeable thread cx me y) (he : Wakeable thread cx me e) :
    scan thread me cx (l ++ (m ++ e :: r)) (m ++ e :: r).length l.length =
      some ((l ++ m).length, woken cx e) := by
  induction m generalizing l with
  | nil =>
    rw [List.nil_append, List.length_cons, scan, List.getElem?_append_right (Nat.le_refl _),
      Nat.sub_self, List.getElem?_cons_zero]
    simp only [if_pos he.1, Contexts.trySelect, if_pos he.2, Contexts.storePacket, woken,
      Function.update_self, Function.update_idem, List.append_nil]
  | cons y m ih =>
    obtain ⟨hy, hm⟩ := List.forall_mem_cons.mp hm
    have hnext := ih (l := l ++ [y]) hm
    rw [List.append_assoc l [y] m, List.singleton_append] at hnext
    exact (scan_pass hy _).trans hnext

/-- Nobody to wake: nothing happens. -/
theorem wakeOne_nobody (room : Room) (h : ∀ e ∈ w.entries.items, ¬ Wakeable thread cx me e) :
    w.wakeOne thread room cx me = (none, w, cx) := by
  have hscan := scan_skip (l := []) h
  rw [List.nil_append, List.length_nil] at hscan
  rw [wakeOne, hscan]

/-- The first entry that can be woken is woken and taken out. -/
theorem wakeOne_first (room : Room) {l r : List (Entry Tid Cx)} {e : Entry Tid Cx}
    (hsplit : w.entries.items = l ++ e :: r) (hl : ∀ y ∈ l, ¬ Wakeable thread cx me y)
    (he : Wakeable thread cx me e) :
    ∃ w', w.wakeOne thread room cx me = (some e, w', woken cx e) ∧ w'.entries.items = l ++ r ∧
      w'.registerCount = w.registerCount := by
  have hscan := scan_stop (l := []) (r := r) hl he
  rw [List.nil_append, List.nil_append, List.length_nil, ← hsplit] at hscan
  obtain ⟨hentry, hitems⟩ := VecDeque.remove_middle hsplit
  refine ⟨{ w with entries := maybeShrink room (w.entries.remove l.length).2 }, ?_, ?_, rfl⟩
  · rw [wakeOne, hscan]
    simp only [hentry]
  · rw [items_maybeShrink, hitems]

theorem wakeOne_none_iff (room : Room) :
    (w.wakeOne thread room cx me).1 = none ↔ ∀ e ∈ w.entries.items, ¬ Wakeable thread cx me e := by
  constructor
  · intro hnone e he hwake
    obtain ⟨l, y, r, hsplit, hl, hy⟩ := first_mem (p := Wakeable thread cx me) ⟨e, he, hwake⟩
    obtain ⟨w', hrun, -, -⟩ := wakeOne_first room hsplit hl hy
    rw [hrun] at hnone
    cases hnone
  · intro h
    rw [wakeOne_nobody room h]

omit [DecidableEq Cx] in
/-- The first entry of the operation is taken out. -/
theorem unregister_first (room : Room) {oper : Operation Tid} {l r : List (Entry Tid Cx)}
    {e : Entry Tid Cx} (hsplit : w.entries.items = l ++ e :: r)
    (hl : ∀ y ∈ l, y.oper ≠ oper) (he : e.oper = oper) :
    ∃ w', w.unregister room oper = (some e, w') ∧ w'.entries.items = l ++ r ∧
      w'.registerCount = w.registerCount := by
  have hfind : w.entries.items.findIdx? (fun entry => entry.oper = oper) = some l.length := by
    have hnone : l.findIdx? (fun entry => entry.oper = oper) = none :=
      List.findIdx?_eq_none_iff.mpr fun y hy => by simpa using hl y hy
    rw [hsplit, List.findIdx?_append, hnone, List.findIdx?_cons]
    simp [he]
  obtain ⟨hentry, hitems⟩ := VecDeque.remove_middle hsplit
  refine ⟨{ w with entries := maybeShrink room (w.entries.remove l.length).2 }, ?_, ?_, rfl⟩
  · rw [unregister, hfind]
    simp only [hentry]
  · rw [items_maybeShrink, hitems]

omit [DecidableEq Cx] in
theorem unregister_absent (room : Room) {oper : Operation Tid}
    (h : ∀ e ∈ w.entries.items, e.oper ≠ oper) :
    w.unregister room oper = (none, w) := by
  have hnone : w.entries.items.findIdx? (fun entry => entry.oper = oper) = none :=
    List.findIdx?_eq_none_iff.mpr fun y hy => by simpa using h y hy
  rw [unregister, hnone]

/-- `disconnect` decides the waiting contexts in the queue and no other. -/
theorem disconnect_apply (c : Cx) :
    w.disconnect cx c =
      if ∃ e ∈ w.entries.items, e.context = c then (cx c).trySelect .disconnected else cx c := by
  have hone : ∀ (cx : Contexts Tid Cx) (e : Entry Tid Cx),
      (cx.trySelect e.context .disconnected).getD cx =
        Function.update cx e.context ((cx e.context).trySelect .disconnected) := by
    intro cx e
    rw [Contexts.trySelect]
    split
    · rename_i h
      rw [Option.getD_some, Context.trySelect_waiting h]
    · rename_i h
      rw [Option.getD_none, Context.trySelect_decided h, Function.update_eq_self]
  simp only [disconnect, hone]
  exact CrossbeamChannel.Waker.foldl_update_apply Entry.context
    (f := fun cx : Context Tid => cx.trySelect .disconnected)
    (Context.trySelect_trySelect (by simp)) w.entries.items cx c

theorem disconnect_ne_waiting {e : Entry Tid Cx} (he : e ∈ w.entries.items) :
    (w.disconnect cx e.context).select ≠ .waiting := by
  rw [disconnect_apply, if_pos ⟨e, he, rfl⟩]
  exact Context.trySelect_ne_waiting (by simp)

end Waker

/-! ## Calls by any threads, in any order -/

/-- A waker, the contexts, and the registrations so far, which are written along and never read. -/
structure State (Tid Cx : Type) where
  waker : Waker Tid Cx
  cx : Contexts Tid Cx
  registered : List (Entry Tid Cx)

inductive Call (Tid Cx : Type) where
  | register (oper : Operation Tid) (context : Cx)
  | registerWithPacket (oper : Operation Tid) (packet : Option Nat) (context : Cx)
  | unregister (oper : Operation Tid)
  | wakeOne
  | disconnect

variable [DecidableEq Tid] [DecidableEq Cx] (thread : Cx → Tid) (room : Room)

/-- One call by the thread `me`: the entry it returns, and what it leaves behind. -/
def State.call (s : State Tid Cx) (me : Tid) : Call Tid Cx → Option (Entry Tid Cx) × State Tid Cx
  | .register oper context =>
      (none, ⟨s.waker.register room oper context, s.cx, s.registered ++ [⟨context, oper, none⟩]⟩)
  | .registerWithPacket oper packet context =>
      (none, ⟨s.waker.registerWithPacket room oper packet context, s.cx,
        s.registered ++ [⟨context, oper, packet⟩]⟩)
  | .unregister oper =>
      let (entry, waker) := s.waker.unregister room oper
      (entry, { s with waker := waker })
  | .wakeOne =>
      let (entry, waker, cx) := s.waker.wakeOne thread room s.cx me
      (entry, { s with waker := waker, cx := cx })
  | .disconnect => (none, { s with cx := s.waker.disconnect s.cx })

/-- What happens next: a call, or a change of the contexts from elsewhere. -/
inductive Move (Tid Cx : Type) where
  | call (me : Tid) (c : Call Tid Cx)
  | elsewhere (cx : Contexts Tid Cx)

/-- One waker, called by any threads in any order. -/
def calls : System (State Tid Cx) (Move Tid Cx) where
  init s := s.waker = .new ∧ s.registered = []
  step s l s' := match l with
    | .call me c => (s.call thread room me c).2 = s'
    | .elsewhere cx => { s with cx := cx } = s'

/-- The laws of the queue, in one state. -/
structure Discipline (s : State Tid Cx) : Prop where
  /-- The entries stand in the order they were registered in. -/
  ordered : s.waker.entries.items.Sublist s.registered
  /-- `register` adds an entry without a packet at the end, and changes no context. -/
  registers : ∀ me oper context,
    (s.call thread room me (.register oper context)).2.waker.entries.items =
        s.waker.entries.items ++ [⟨context, oper, none⟩] ∧
      (s.call thread room me (.register oper context)).2.cx = s.cx
  /-- `register_with_packet` adds one with the packet. -/
  registersWithPacket : ∀ me oper packet context,
    (s.call thread room me (.registerWithPacket oper packet context)).2.waker.entries.items =
        s.waker.entries.items ++ [⟨context, oper, packet⟩] ∧
      (s.call thread room me (.registerWithPacket oper packet context)).2.cx = s.cx
  /-- `wake_one` selects, hands the packet to and removes the first entry it can wake, and
      changes no other context. -/
  wakes : ∀ me l e r, s.waker.entries.items = l ++ e :: r →
    (∀ y ∈ l, ¬ Waker.Wakeable thread s.cx me y) → Waker.Wakeable thread s.cx me e →
    ∃ s', s.call thread room me .wakeOne = (some e, s') ∧ s'.waker.entries.items = l ++ r ∧
      s'.cx e.context =
        ({ s.cx e.context with select := .operation e.oper } : Context Tid).storePacket e.packet ∧
      ∀ c, c ≠ e.context → s'.cx c = s.cx c
  /-- Where there is none, it returns `None` and changes nothing. -/
  sleeps : ∀ me, (∀ e ∈ s.waker.entries.items, ¬ Waker.Wakeable thread s.cx me e) →
    s.call thread room me .wakeOne = (none, s)
  /-- `can_wake_one` tells these cases apart. -/
  foretold : ∀ me, (s.call thread room me .wakeOne).1 = none ↔
    s.waker.canWakeOne thread s.cx me = false
  /-- `unregister` removes the first entry of the operation, and nothing else. -/
  unregisters : ∀ me oper l e r, s.waker.entries.items = l ++ e :: r →
    (∀ y ∈ l, y.oper ≠ oper) → e.oper = oper →
    ∃ s', s.call thread room me (.unregister oper) = (some e, s') ∧
      s'.waker.entries.items = l ++ r ∧ s'.cx = s.cx
  /-- Where there is none, it returns `None` and changes nothing. -/
  absent : ∀ me oper, (∀ e ∈ s.waker.entries.items, e.oper ≠ oper) →
    s.call thread room me (.unregister oper) = (none, s)
  /-- If the operations in the queue differ, that was the one entry of the operation. -/
  single : (s.waker.entries.items.map Entry.oper).Nodup → ∀ me oper,
    ∀ e ∈ (s.call thread room me (.unregister oper)).2.waker.entries.items, e.oper ≠ oper
  /-- `disconnect` leaves the entries alone and none of their contexts waiting. -/
  disconnects : ∀ me, (s.call thread room me .disconnect).2.waker = s.waker ∧
    (∀ e ∈ s.waker.entries.items,
      ((s.call thread room me .disconnect).2.cx e.context).select ≠ .waiting) ∧
    ∀ c, (s.cx c).select ≠ .waiting ∨ (∀ e ∈ s.waker.entries.items, e.context ≠ c) →
      (s.call thread room me .disconnect).2.cx c = s.cx c
  /-- `maybe_shrink` changes the capacity at most. -/
  shrinks : (maybeShrink room s.waker.entries).items = s.waker.entries.items

variable {thread room} {s s' : State Tid Cx}

/-- Every call adds one entry at the end, as it is registered, or takes entries out. -/
theorem call_entries (thread : Cx → Tid) (room : Room) (s : State Tid Cx) (me : Tid)
    (c : Call Tid Cx) :
    ∃ es, (s.call thread room me c).2.registered = s.registered ++ es ∧
      (s.call thread room me c).2.waker.entries.items.Sublist (s.waker.entries.items ++ es) := by
  cases c with
  | register oper context => exact ⟨_, rfl, .refl _⟩
  | registerWithPacket oper packet context => exact ⟨_, rfl, .refl _⟩
  | unregister oper =>
    refine ⟨[], (List.append_nil _).symm, ?_⟩
    rw [List.append_nil]
    by_cases h : ∃ e ∈ s.waker.entries.items, e.oper = oper
    · obtain ⟨l, e, r, hsplit, hl, he⟩ := first_mem h
      obtain ⟨w', hrun, hitems, -⟩ := Waker.unregister_first room hsplit hl he
      simp only [State.call, hrun, hitems]
      rw [hsplit]
      exact (List.sublist_cons_self e r).append_left l
    · have hrun := Waker.unregister_absent room fun e he hop => h ⟨e, he, hop⟩
      simp only [State.call, hrun]
      exact .refl _
  | wakeOne =>
    refine ⟨[], (List.append_nil _).symm, ?_⟩
    rw [List.append_nil]
    by_cases h : ∃ e ∈ s.waker.entries.items, Waker.Wakeable thread s.cx me e
    · obtain ⟨l, e, r, hsplit, hl, he⟩ := first_mem h
      obtain ⟨w', hrun, hitems, -⟩ := Waker.wakeOne_first room hsplit hl he
      simp only [State.call, hrun, hitems]
      rw [hsplit]
      exact (List.sublist_cons_self e r).append_left l
    · have hrun := Waker.wakeOne_nobody room fun e he hwake => h ⟨e, he, hwake⟩
      simp only [State.call, hrun]
      exact .refl _
  | disconnect => exact ⟨[], (List.append_nil _).symm, by simp [State.call]⟩

/-- The entries are always in registration order. -/
theorem ordered_reachable (h : (calls thread room).Reachable s) :
    s.waker.entries.items.Sublist s.registered := by
  refine h.invariant (P := fun s => s.waker.entries.items.Sublist s.registered) ?_ ?_
  · rintro s ⟨hw, -⟩
    rw [hw]
    exact List.nil_sublist _
  · intro s l s' _ ih hs
    cases l with
    | call me c =>
      obtain ⟨es, hreg, hsub⟩ := call_entries thread room s me c
      obtain rfl := hs
      rw [hreg]
      exact hsub.trans (ih.append_right es)
    | elsewhere cx =>
      obtain rfl := hs
      exact ih

theorem discipline (h : (calls thread room).Reachable s) : Discipline thread room s where
  ordered := ordered_reachable h
  registers _ _ _ := ⟨rfl, rfl⟩
  registersWithPacket _ _ _ _ := ⟨rfl, rfl⟩
  wakes me l e r hsplit hl he := by
    obtain ⟨w', hrun, hitems, -⟩ := Waker.wakeOne_first room hsplit hl he
    refine ⟨{ s with waker := w', cx := Waker.woken s.cx e }, ?_, hitems, ?_, fun c hc => ?_⟩
    · simp only [State.call, hrun]
    · exact Function.update_self _ _ _
    · exact Function.update_of_ne hc _ _
  sleeps me hnone := by simp only [State.call, Waker.wakeOne_nobody room hnone]
  foretold me := by
    refine (Waker.wakeOne_none_iff room).trans ?_
    rw [← Bool.not_eq_true, Waker.canWakeOne_iff]
    simp only [not_exists, not_and]
  unregisters me oper l e r hsplit hl he := by
    obtain ⟨w', hrun, hitems, -⟩ := Waker.unregister_first room hsplit hl he
    exact ⟨{ s with waker := w' }, by simp only [State.call, hrun], hitems, rfl⟩
  absent me oper hnone := by simp only [State.call, Waker.unregister_absent room hnone]
  single hnodup me oper e he := by
    by_cases h : ∃ e ∈ s.waker.entries.items, e.oper = oper
    · obtain ⟨l, y, r, hsplit, hl, hy⟩ := first_mem h
      obtain ⟨w', hrun, hitems, -⟩ := Waker.unregister_first room hsplit hl hy
      rw [hsplit, List.map_append, List.map_cons, List.nodup_middle] at hnodup
      simp only [State.call, hrun, hitems] at he
      rw [← hy]
      rintro heq
      refine (List.nodup_cons.mp hnodup).1 ?_
      rw [← List.map_append, ← heq]
      exact List.mem_map_of_mem he
    · have hrun := Waker.unregister_absent room fun e he hop => h ⟨e, he, hop⟩
      simp only [State.call, hrun] at he
      exact fun hop => h ⟨e, he, hop⟩
  disconnects me := by
    refine ⟨rfl, fun e he => Waker.disconnect_ne_waiting he, fun c hc => ?_⟩
    refine (Waker.disconnect_apply c).trans ?_
    split
    · rename_i hmem
      obtain ⟨e, he, rfl⟩ := hmem
      rcases hc with hsel | hc
      · exact Context.trySelect_decided hsel
      · exact absurd rfl (hc e he)
    · rfl
  shrinks := items_maybeShrink _ _

/-! ## The waker behind its mutex -/

/-- Where a thread stands in a function of `SyncWaker`. -/
inductive Pc (Tid Cx : Type) where
  | idle
  /-- Before the look at `len` that `unregister` and `wake_one` begin with. -/
  | look (c : Call Tid Cx)
  | lock (c : Call Tid Cx)
  | locked (c : Call Tid Cx)
  /-- The mutex is held, the length is to be stored. -/
  | store (entry : Option (Entry Tid Cx))
  | unlock (entry : Option (Entry Tid Cx))
  | done (entry : Option (Entry Tid Cx))

/-- The thread holds the mutex. -/
def Pc.Holds : Pc Tid Cx → Prop
  | .locked _ | .store _ | .unlock _ => True
  | .idle | .look _ | .lock _ | .done _ => False

/-- What a function of `SyncWaker` begins with. -/
def Pc.start : Call Tid Cx → Pc Tid Cx
  | .unregister oper => .look (.unregister oper)
  | .wakeOne => .look .wakeOne
  | .register oper context => .lock (.register oper context)
  | .registerWithPacket oper packet context => .lock (.registerWithPacket oper packet context)
  | .disconnect => .lock .disconnect

/-- `disconnect` does not store the length. -/
def Pc.after (entry : Option (Entry Tid Cx)) : Call Tid Cx → Pc Tid Cx
  | .disconnect => .unlock entry
  | _ => .store entry

structure Sync (Tid Cx : Type) where
  inner : State Tid Cx
  mutex : Option Tid
  len : Nat
  pc : Tid → Pc Tid Cx

inductive SyncMove (Tid Cx : Type) where
  | begin (t : Tid) (c : Call Tid Cx)
  | run (t : Tid)
  | elsewhere (cx : Contexts Tid Cx)

variable (thread room)

/-- The next atomic step of thread `t`. -/
def Sync.run (x : Sync Tid Cx) (t : Tid) : Option (Sync Tid Cx) :=
  let go (x : Sync Tid Cx) (pc : Pc Tid Cx) : Sync Tid Cx :=
    { x with pc := Function.update x.pc t pc }
  match x.pc t with
  | .look c => some (go x (if 0 < x.len then .lock c else .done none))
  | .lock c => if x.mutex = none then some (go { x with mutex := some t } (.locked c)) else none
  | .locked c =>
      let (entry, inner) := x.inner.call thread room t c
      some (go { x with inner := inner } (.after entry c))
  | .store entry => some (go { x with len := x.inner.waker.len } (.unlock entry))
  | .unlock entry => some (go { x with mutex := none } (.done entry))
  | .idle | .done _ => none

def Sync.step (x : Sync Tid Cx) : SyncMove Tid Cx → Option (Sync Tid Cx)
  | .begin t c =>
      match x.pc t with
      | .idle | .done _ => some { x with pc := Function.update x.pc t (.start c) }
      | _ => none
  | .run t => x.run thread room t
  | .elsewhere cx => some { x with inner := { x.inner with cx := cx } }

/-- Any threads in the functions of one `SyncWaker`, one atomic step at a time. -/
def syncCalls : System (Sync Tid Cx) (SyncMove Tid Cx) where
  init x := x.inner.waker = .new ∧ x.inner.registered = [] ∧ x.mutex = none ∧ x.len = 0 ∧
    ∀ t, x.pc t = .idle
  step x l x' := x.step thread room l = some x'

variable {thread room} {x x' : Sync Tid Cx}

/-- What a step does to the waker inside: nothing, one call, or a change from elsewhere. -/
theorem step_inner {l : SyncMove Tid Cx} (hs : x.step thread room l = some x') :
    x'.inner = x.inner ∨ ∃ m, (calls thread room).step x.inner m x'.inner := by
  cases l with
  | begin t c =>
    simp only [Sync.step] at hs
    split at hs
    · cases hs
      exact .inl rfl
    · cases hs
      exact .inl rfl
    · cases hs
  | run t =>
    simp only [Sync.step, Sync.run] at hs
    split at hs
    · cases hs
      exact .inl rfl
    · split at hs
      · cases hs
        exact .inl rfl
      · cases hs
    · rename_i c _
      cases hs
      exact .inr ⟨.call t c, rfl⟩
    · cases hs
      exact .inl rfl
    · cases hs
      exact .inl rfl
    · cases hs
    · cases hs
  | elsewhere cx =>
    cases hs
    exact .inr ⟨.elsewhere cx, rfl⟩

/-- Behind the mutex every waker only sees calls, one after the other. -/
theorem inner_reachable (h : (syncCalls thread room).Reachable x) :
    (calls thread room).Reachable x.inner := by
  induction h with
  | init h => exact .init ⟨h.1, h.2.1⟩
  | step _ hs ih =>
    rcases step_inner hs with heq | ⟨m, hm⟩
    · exact heq ▸ ih
    · exact .step ih hm

/-- Who holds the mutex stands behind it, and the length is right unless it is being stored. -/
structure Guarded (x : Sync Tid Cx) : Prop where
  held : ∀ t, (x.pc t).Holds → x.mutex = some t
  len : (∀ t entry, x.pc t ≠ .store entry) → x.len = x.inner.waker.len

omit [DecidableEq Cx] in
/-- A step of one thread that neither takes nor gives back the mutex. -/
theorem Guarded.keep (hg : Guarded x) {t : Tid} {pc : Pc Tid Cx} (hmutex : x'.mutex = x.mutex)
    (hpc : x'.pc = Function.update x.pc t pc) (hholds : pc.Holds → (x.pc t).Holds)
    (hlen : (∀ u entry, x'.pc u ≠ .store entry) → x'.len = x'.inner.waker.len) : Guarded x' := by
  refine ⟨fun u hu => ?_, hlen⟩
  rw [hmutex]
  by_cases hut : u = t
  · subst hut
    rw [hpc, Function.update_self] at hu
    exact hg.held u (hholds hu)
  · rw [hpc, Function.update_of_ne hut] at hu
    exact hg.held u hu

omit [DecidableEq Cx] in
/-- Nobody is storing, if nobody is once this thread has stepped on from elsewhere. -/
theorem not_storing {t : Tid} {pc : Pc Tid Cx} (hpc : x'.pc = Function.update x.pc t pc)
    (ht : ∀ entry, x.pc t ≠ .store entry) (h : ∀ u entry, x'.pc u ≠ .store entry) :
    ∀ u entry, x.pc u ≠ .store entry := by
  intro u entry
  by_cases hut : u = t
  · subst hut
    exact ht entry
  · have hu := h u entry
    rwa [hpc, Function.update_of_ne hut] at hu

theorem guarded_run (hg : Guarded x) {t : Tid} (hs : x.run thread room t = some x') :
    Guarded x' := by
  simp only [Sync.run] at hs
  split at hs
  · rename_i c hat
    cases hs
    have hoff : ∀ entry, x.pc t ≠ .store entry := fun entry => by simp [hat]
    refine hg.keep rfl rfl (fun h => ?_) fun h => hg.len (not_storing rfl hoff h)
    split at h <;> exact h.elim
  · rename_i c hat
    split at hs
    · rename_i hfree
      cases hs
      have hoff : ∀ entry, x.pc t ≠ .store entry := fun entry => by simp [hat]
      refine ⟨fun u hu => ?_, fun h => hg.len (not_storing rfl hoff h)⟩
      by_cases hut : u = t
      · rw [hut]
      · dsimp only at hu
        rw [Function.update_of_ne hut] at hu
        exact absurd ((hg.held u hu).symm.trans hfree) (Option.some_ne_none u)
    · cases hs
  · rename_i c hat
    cases hs
    have hoff : ∀ entry, x.pc t ≠ .store entry := fun entry => by simp [hat]
    refine hg.keep rfl rfl (fun _ => by rw [hat]; trivial) fun h => ?_
    -- Only `disconnect` goes on without storing, and it leaves the entries alone.
    cases c with
    | disconnect => exact hg.len (not_storing rfl hoff h)
    | _ => exact absurd (Function.update_self _ _ _) (h t _)
  · rename_i entry hat
    cases hs
    exact hg.keep rfl rfl (fun _ => by rw [hat]; trivial) fun _ => rfl
  · rename_i entry hat
    cases hs
    have hoff : ∀ entry, x.pc t ≠ .store entry := fun entry => by simp [hat]
    have hmine : x.mutex = some t := hg.held t (by rw [hat]; trivial)
    refine ⟨fun u hu => ?_, fun h => hg.len (not_storing rfl hoff h)⟩
    by_cases hut : u = t
    · subst hut
      dsimp only at hu
      rw [Function.update_self] at hu
      exact hu.elim
    · dsimp only at hu
      rw [Function.update_of_ne hut] at hu
      exact absurd (Option.some.inj ((hg.held u hu).symm.trans hmine)) hut
  · cases hs
  · cases hs

theorem guarded_step (hg : Guarded x) {l : SyncMove Tid Cx} (hs : x.step thread room l = some x') :
    Guarded x' := by
  cases l with
  | begin t c =>
    have hstart : ¬ (Pc.start c).Holds := by cases c <;> exact id
    simp only [Sync.step] at hs
    split at hs
    · rename_i hat
      cases hs
      have hoff : ∀ entry, x.pc t ≠ .store entry := fun entry => by simp [hat]
      exact hg.keep rfl rfl (fun h => absurd h hstart) fun h => hg.len (not_storing rfl hoff h)
    · rename_i entry hat
      cases hs
      have hoff : ∀ entry, x.pc t ≠ .store entry := fun entry => by simp [hat]
      exact hg.keep rfl rfl (fun h => absurd h hstart) fun h => hg.len (not_storing rfl hoff h)
    · cases hs
  | run t => exact guarded_run hg hs
  | elsewhere cx =>
    cases hs
    exact ⟨hg.held, hg.len⟩

theorem guarded_reachable (h : (syncCalls thread room).Reachable x) : Guarded x := by
  refine h.invariant (P := Guarded) ?_ fun _ _ _ _ hg hs => guarded_step hg hs
  rintro x ⟨hw, -, -, hlen, hidle⟩
  refine ⟨fun t ht => ?_, fun _ => ?_⟩
  · rw [hidle t] at ht
    exact ht.elim
  · rw [hlen, hw]
    rfl

/-- A step leaves the length as it is, or stores that of the queue. -/
theorem step_len {l : SyncMove Tid Cx} (hs : x.step thread room l = some x') :
    x'.len = x.len ∨ x'.len = x.inner.waker.len := by
  cases l with
  | begin t c =>
    simp only [Sync.step] at hs
    split at hs <;> cases hs <;> exact .inl rfl
  | run t =>
    simp only [Sync.step, Sync.run] at hs
    split at hs
    · cases hs
      exact .inl rfl
    · split at hs <;> cases hs
      exact .inl rfl
    · cases hs
      exact .inl rfl
    · cases hs
      exact .inr rfl
    · cases hs
      exact .inl rfl
    · cases hs
    · cases hs
  | elsewhere cx =>
    cases hs
    exact .inl rfl

/-- The length is stored under the mutex, which the owner of an entry gives back when it has
    registered: from then on an unlocked look does not miss the entry. -/
theorem len_of_queued (x : (syncCalls thread room).Exec) {i j : Nat} (hij : i ≤ j) (hj : j ≤ x.len)
    (hfree : (x.state i).mutex = none) {e : Entry Tid Cx}
    (hq : ∀ k, i ≤ k → k ≤ j → e ∈ (x.state k).inner.waker.entries.items) : 0 < (x.state j).len := by
  have counted : ∀ k, i ≤ k → k ≤ j → 0 < (x.state k).inner.waker.len := fun k hik hkj =>
    List.length_pos_of_mem (hq k hik hkj)
  have upTo : ∀ m, i ≤ m → m ≤ j → 0 < (x.state m).len := by
    intro m him
    induction m, him using Nat.le_induction with
    | base =>
      intro hmj
      have hg := guarded_reachable (x.reachable (show i ≤ x.len by omega))
      rw [hg.len fun t entry hat => ?_]
      · exact counted i (Nat.le_refl i) hij
      · have hheld := hg.held t (by rw [hat]; trivial)
        exact absurd (hheld.symm.trans hfree) (Option.some_ne_none t)
    | succ m him ih =>
      intro hmj
      obtain ⟨l, hl⟩ := x.next m (by omega)
      rcases step_len hl with hsame | hstored
      · rw [hsame]
        exact ih (by omega)
      · rw [hstored]
        exact counted m him (by omega)
  exact upTo j hij (Nat.le_refl j)

/-- **The queue discipline of a waker**, in every state that calls by any threads lead to, on the
waker of a zero channel and on the one behind the mutex of a `SyncWaker`; there the cached length
is the length of the queue whenever the mutex is free. -/
theorem waker_discipline (hs : (calls thread room).Reachable s)
    (hx : (syncCalls thread room).Reachable x) :
    Discipline thread room s ∧ Discipline thread room x.inner ∧
      (x.mutex = none → x.len = x.inner.waker.len) := by
  refine ⟨discipline hs, discipline (inner_reachable hx), fun hfree => ?_⟩
  refine (guarded_reachable hx).len fun t entry hat => ?_
  have hheld := (guarded_reachable hx).held t (by rw [hat]; trivial)
  exact absurd (hheld.symm.trans hfree) (Option.some_ne_none t)

/-- Both entries of thread 0 wait in one context, behind an entry of thread 1, which wakes. -/
def shared : List (Call Nat Nat) :=
  [.register ⟨1, 0⟩ 1, .registerWithPacket ⟨0, 0⟩ (some 7) 0, .register ⟨0, 1⟩ 0, .wakeOne]

/-- The same calls by thread 1, from the look at the length to the unlocking of the mutex. Only `wakeOne`
    looks first. -/
def sharedMoves : List (SyncMove Nat Nat) :=
  shared.flatMap fun c =>
    .begin 1 c :: List.replicate (match c with | .wakeOne => 5 | _ => 4) (.run 1)

theorem waker_discipline_shared :
    let room : Room := ⟨id, Nat.le_refl⟩
    ∃ (s : State Nat Nat) (x : Sync Nat Nat),
      (Discipline id room s ∧ Discipline id room x.inner ∧
        (x.mutex = none → x.len = x.inner.waker.len)) ∧
      s.waker.entries.items.map Entry.oper = [⟨1, 0⟩, ⟨0, 1⟩] ∧
      s.cx 0 = ⟨.operation ⟨0, 0⟩, some 7⟩ ∧
      x.inner.waker.entries.items.map Entry.oper = [⟨1, 0⟩, ⟨0, 1⟩] ∧ x.mutex = none ∧ x.len = 2 := by
  intro room
  let s₀ : State Nat Nat := ⟨.new, fun _ => .fresh, []⟩
  let x₀ : Sync Nat Nat := ⟨s₀, none, 0, fun _ => .idle⟩
  have hs : (SyncWaker.calls id room).Reachable
      (shared.foldl (fun s c => (s.call id room 1 c).2) s₀) := by
    refine .step (l := .call 1 .wakeOne) (.step (l := .call 1 (.register ⟨0, 1⟩ 0)) (.step
      (l := .call 1 (.registerWithPacket ⟨0, 0⟩ (some 7) 0)) (.step
      (l := .call 1 (.register ⟨1, 0⟩ 1)) (.init ⟨rfl, rfl⟩) rfl) rfl) rfl) rfl
  have hsome : (System.replay (Sync.step id room) x₀ sharedMoves).map
      (fun x => (x.inner.waker.entries.items.map Entry.oper, x.mutex, x.len)) =
        some ([⟨1, 0⟩, ⟨0, 1⟩], none, 2) := by decide +kernel
  obtain ⟨x, hrun, heq⟩ := Option.map_eq_some_iff.mp hsome
  have hx : (syncCalls id room).Reachable x :=
    .replay (fun _ _ _ h => h) (.init (s := x₀) ⟨rfl, rfl, rfl, rfl, fun _ => rfl⟩) hrun
  obtain ⟨hitems, hrest⟩ := Prod.mk.inj heq
  obtain ⟨hmutex, hlen⟩ := Prod.mk.inj hrest
  exact ⟨_, x, waker_discipline hs hx, by decide, rfl, hitems, hmutex, hlen⟩

/-! ## The queue the channels are verified with

There a context is named by the thread it belongs to, and the thread by the operation.
-/

/-- The entry without its context. -/
def Entry.blocked (e : Entry Tid Tid) : CrossbeamChannel.Entry Tid := ⟨e.oper, e.packet⟩

structure Refines (w : Waker Tid Tid) (v : CrossbeamChannel.Waker Tid) : Prop where
  entries : v.entries = w.entries.items.map Entry.blocked
  count : w.registerCount = BitVec.ofNat 64 v.registerCount
  owner : ∀ e ∈ w.entries.items, e.context = e.oper.thread

/-- Searching and removing behind everybody the search passes over. -/
theorem find_erase_first {α β : Type} {f : α → β} {q : β → Bool} {l r : List α} {x : α}
    (hl : ∀ y ∈ l, ¬ q (f y)) (hx : q (f x)) :
    ((l ++ x :: r).map f).find? q = some (f x) ∧
      ((l ++ x :: r).map f).eraseP q = (l ++ r).map f := by
  have hmap : ∀ y ∈ l.map f, ¬ q y := List.forall_mem_map.mpr hl
  rw [List.map_append, List.map_cons, List.map_append]
  constructor
  · rw [List.find?_append, List.find?_eq_none.mpr hmap, Option.none_or, List.find?_cons_of_pos hx]
  · rw [List.eraseP_append_right _ hmap, List.eraseP_cons_of_pos hx]

theorem find_erase_absent {α β : Type} {f : α → β} {q : β → Bool} (xs : List α)
    (h : ∀ y ∈ xs, ¬ q (f y)) : (xs.map f).find? q = none ∧ (xs.map f).eraseP q = xs.map f := by
  have hmap : ∀ y ∈ xs.map f, ¬ q y := List.forall_mem_map.mpr h
  exact ⟨List.find?_eq_none.mpr hmap, List.eraseP_of_forall_not hmap⟩

namespace Refines

variable {w : Waker Tid Tid} {v : CrossbeamChannel.Waker Tid} {cx : Contexts Tid Tid} {me : Tid}

omit [DecidableEq Tid] in
theorem new : Refines (Waker.new : Waker Tid Tid) .new :=
  ⟨rfl, rfl, by simp [Waker.new, VecDeque.new]⟩

omit [DecidableEq Tid] in
theorem register (h : Refines w v) (oper : Operation Tid) (packet : Option Nat) :
    Refines (w.registerWithPacket room oper packet oper.thread) (v.register ⟨oper, packet⟩) where
  entries := by
    simp [Waker.registerWithPacket, CrossbeamChannel.Waker.register, h.entries, Entry.blocked]
  count := by
    simp only [Waker.registerWithPacket, CrossbeamChannel.Waker.register, h.count]
    exact (BitVec.ofNat_add _ _).symm
  owner := by
    simp only [Waker.registerWithPacket, VecDeque.items_pushBack]
    exact List.forall_mem_append.mpr ⟨h.owner, List.forall_mem_singleton.mpr rfl⟩

omit [DecidableEq Tid] in
/-- Taking an entry out of both. -/
theorem take (h : Refines w v) {w' : Waker Tid Tid} {v' : CrossbeamChannel.Waker Tid}
    {l r : List (Entry Tid Tid)} {e : Entry Tid Tid} (hsplit : w.entries.items = l ++ e :: r)
    (hw' : w'.entries.items = l ++ r) (hv' : v'.entries = (l ++ r).map Entry.blocked)
    (hcount : w'.registerCount = w.registerCount) (hcount' : v'.registerCount = v.registerCount) :
    Refines w' v' where
  entries := by rw [hv', hw']
  count := by rw [hcount, hcount', h.count]
  owner e' he' := by
    refine h.owner e' ?_
    rw [hw'] at he'
    rw [hsplit]
    exact ((List.sublist_cons_self e r).append_left l).subset he'

theorem unregister (h : Refines w v) (oper : Operation Tid) :
    (w.unregister room oper).1.map Entry.blocked = (v.unregister oper).1 ∧
      Refines (w.unregister room oper).2 (v.unregister oper).2 := by
  by_cases hmem : ∃ e ∈ w.entries.items, e.oper = oper
  · obtain ⟨l, e, r, hsplit, hl, he⟩ := first_mem hmem
    obtain ⟨w', hrun, hitems, hcount⟩ := Waker.unregister_first room hsplit hl he
    obtain ⟨hfind, herase⟩ := find_erase_first (f := Entry.blocked) (r := r)
      (q := fun e => e.oper = oper) (fun y hy hq => hl y hy (of_decide_eq_true hq))
      (decide_eq_true he)
    rw [← hsplit, ← h.entries] at hfind herase
    simp only [hrun, CrossbeamChannel.Waker.unregister, hfind, herase]
    exact ⟨rfl, h.take hsplit hitems rfl hcount rfl⟩
  · have habsent : ∀ e ∈ w.entries.items, e.oper ≠ oper := fun e he hop => hmem ⟨e, he, hop⟩
    obtain ⟨hfind, herase⟩ := find_erase_absent (f := Entry.blocked) (q := fun e => e.oper = oper)
      w.entries.items fun y hy hq => habsent y hy (of_decide_eq_true hq)
    rw [← h.entries] at hfind herase
    simp only [Waker.unregister_absent room habsent, CrossbeamChannel.Waker.unregister, hfind,
      herase]
    exact ⟨rfl, h⟩

/-- An entry can be woken in the one queue exactly when it can in the other. -/
theorem wakeable (h : Refines w v) {e : Entry Tid Tid} (he : e ∈ w.entries.items) :
    CrossbeamChannel.Waker.Wakeable cx me e.blocked = true ↔ Waker.Wakeable id cx me e := by
  rw [CrossbeamChannel.Waker.wakeable_iff, Waker.Wakeable, h.owner e he]
  rfl

theorem wakeOne (h : Refines w v) :
    (w.wakeOne id room cx me).1.map Entry.blocked = (v.wakeOne cx me).1 ∧
      Refines (w.wakeOne id room cx me).2.1 (v.wakeOne cx me).2 ∧
      (w.wakeOne id room cx me).2.2 = CrossbeamChannel.Waker.wakeContext cx (v.wakeOne cx me).1 := by
  by_cases hmem : ∃ e ∈ w.entries.items, Waker.Wakeable id cx me e
  · obtain ⟨l, e, r, hsplit, hl, he⟩ := first_mem hmem
    have hel : e ∈ w.entries.items := by simp [hsplit]
    obtain ⟨w', hrun, hitems, hcount⟩ := Waker.wakeOne_first room hsplit hl he
    obtain ⟨hfind, herase⟩ := find_erase_first (f := Entry.blocked) (r := r)
      (q := CrossbeamChannel.Waker.Wakeable cx me)
      (fun y hy hq => hl y hy ((h.wakeable (by simp [hsplit, hy])).mp hq))
      ((h.wakeable hel).mpr he)
    rw [← hsplit, ← h.entries] at hfind herase
    simp only [hrun, CrossbeamChannel.Waker.wakeOne, hfind, herase]
    refine ⟨rfl, h.take hsplit hitems rfl hcount rfl, ?_⟩
    rw [Waker.woken, CrossbeamChannel.Waker.wakeContext, Context.trySelect_waiting]
    · rw [h.owner e hel]
      rfl
    · rw [← he.2, h.owner e hel]
      rfl
  · have habsent : ∀ e ∈ w.entries.items, ¬ Waker.Wakeable id cx me e :=
      fun e he hwake => hmem ⟨e, he, hwake⟩
    obtain ⟨hfind, herase⟩ := find_erase_absent (f := Entry.blocked)
      (q := CrossbeamChannel.Waker.Wakeable cx me) w.entries.items
      fun y hy hq => habsent y hy ((h.wakeable hy).mp hq)
    rw [← h.entries] at hfind herase
    simp only [Waker.wakeOne_nobody room habsent, CrossbeamChannel.Waker.wakeOne, hfind, herase]
    exact ⟨rfl, h, rfl⟩

theorem canWakeOne (h : Refines w v) : w.canWakeOne id cx me = v.canWakeOne cx me := by
  rw [Bool.eq_iff_iff, Waker.canWakeOne_iff, CrossbeamChannel.Waker.canWakeOne_iff, h.entries]
  simp only [List.mem_map, exists_exists_and_eq_and]
  refine exists_congr fun e => and_congr_right fun he => ?_
  exact (h.wakeable he).symm.trans CrossbeamChannel.Waker.wakeable_iff

theorem disconnect (h : Refines w v) : w.disconnect cx = v.disconnect cx := by
  funext t
  rw [Waker.disconnect_apply, CrossbeamChannel.Waker.disconnect_apply, h.entries]
  simp only [List.mem_map, exists_exists_and_eq_and]
  have hiff : (∃ e ∈ w.entries.items, e.context = t) ↔ ∃ e ∈ w.entries.items, e.blocked.owner = t :=
    exists_congr fun e => and_congr_right fun he => by rw [h.owner e he]; rfl
  simp only [hiff]

end Refines

end CrossbeamChannel.SyncWaker
