import CrossbeamChannel.Lib.Handover
import CrossbeamChannel.World.Knowledge

/-!
# The deals behind the packets

Each packet of a zero channel is the slot of one handover (`Lib.Deal`) between two operations: the
one that has offered it and the one that comes to it. The `Ledger` says which deal a packet is
part of. What an operation is going to do with a packet is its part in the deal: `Frame.Grip`; the
moves of the other party do not take it from it.

There are three kinds of packets (`zero.rs` 36-60): a blocking sender puts up one on its stack with its
message in it, a blocking receiver an empty one, and a select an empty one on the heap, for the short
pause and when it registers. In the first case the receiver empties the packet and sets `ready`; in the
second the sender fills it and sets `ready`, and its owner empties it; in the third it is the receiver
that empties it and frees it, whether or not it has put it up. `Lib.Deal` has one transition system for
all of them, by who owns the packet and who gives.

The ledger is a ghost: it keeps the deal about a packet also when the packet is gone. This makes "never
accessed after it was freed" a statement about stages.
-/

namespace CrossbeamChannel

variable {Tid T : Type}

/-- An operation of a thread, by its number. -/
structure Ident (Tid : Type) where
  thread : Tid
  op : Nat
  deriving DecidableEq

/-- One end of a handover: an operation of a thread, and its place in the queues. -/
structure Party (Tid : Type) where
  thread : Tid
  /-- The number of the operation. -/
  op : Nat
  place : Place

def Party.ident (a : Party Tid) : Ident Tid := ⟨a.thread, a.op⟩

/-- The deal about every packet there has been. -/
abbrev Ledger (Tid T : Type) := Nat → Option (Lib.Deal (Party Tid) T)

namespace Ledger

variable (D : Ledger Tid T) (t : Tid) (n p : Nat) (P : Lib.Deal (Party Tid) T → Prop)

def put (x : Lib.Deal (Party Tid) T) : Ledger Tid T := Function.update D p (some x)

/-- The packet belongs to the `n`-th operation of the thread. -/
def Owns : Prop := ∃ x, D p = some x ∧ x.owner.thread = t ∧ x.owner.op = n ∧ P x

/-- Its message is given by the `n`-th operation of the thread. -/
def Gives : Prop := ∃ x q, D p = some x ∧ x.giver = some q ∧ q.thread = t ∧ q.op = n ∧ P x

/-- Its message is taken by the `n`-th operation of the thread. -/
def Takes : Prop := ∃ x q, D p = some x ∧ x.taker = some q ∧ q.thread = t ∧ q.op = n ∧ P x

/-- The `n`-th operation of the thread, on side `d`, has come to the packet. -/
def Part : Side → Prop
  | .send => D.Gives t n p fun x => x.stage = .store
  | .recv => D.Takes t n p fun x => x.Awaited

end Ledger

namespace Frame

/-- `send` or `recv` of a zero channel: the packet it offers is on its stack. -/
def blocks : Frame Tid T → Bool
  | .zero _ _ _ => true
  | _ => false

/-- The packet that the thread has offered, and has not had an answer about. -/
def offers : Frame Tid T → Option Nat
  | .zero _ _ (.wait p) | .zero _ _ (.withdraw p _) | .select _ _ (.again _ (.pause p))
  | .select _ _ (.again _ (.withdraw p _)) => some p
  | _ => none

/-- What the `n`-th operation of the thread is about to do with a packet is its part. -/
def Grip (D : Ledger Tid T) (t : Tid) (n : Nat) : Frame Tid T → Prop
  | .zero _ _ (.recover p _) => D.Owns t n p fun x => x.prefilled = true ∧ x.stage = .withdrawn
  | .zero job _ (.waitReady p) =>
      D.Owns t n p fun x => x.kept = true ∧ (x.gives = true ↔ job.side = .send) ∧ x.Open
  | .zero _ _ (.takeMsg p) =>
      D.Owns t n p fun x => x.gives = false ∧ x.kept = true ∧ x.stage = .take
  | .finish _ (.storeMsg p) => D.Gives t n p fun x => x.stage = .store
  | .finish _ (.setReady p _) =>
      (D.Gives t n p fun x => x.prefilled = false ∧ x.stage = .publish) ∨
        D.Takes t n p fun x => x.prefilled = true ∧ x.stage = .publish
  | .finish _ (.loadOnStack p) => D.Takes t n p fun x => x.Awaited
  | .finish _ (.waitReady p) => D.Takes t n p fun x => x.kept = false ∧ x.Awaited
  | .finish _ (.takeMsg p onStack) =>
      D.Takes t n p fun x => x.kept = onStack ∧ x.Awaited ∧ x.stage = .take
  | .finish _ (.dropPacket p _) => D.Takes t n p fun x => x.stage = .free
  | .chosen h (.packet p) => D.Part t n p h.side
  | .select _ _ (.again _ (.dropPacket p _)) =>
      D.Owns t n p fun x => x.kept = false ∧ x.stage = .withdrawn
  | _ => True

/-- The packet that the next step of the thread accesses. -/
def touches : Frame Tid T → Option Nat
  | .zero _ _ (.recover p _) | .zero _ _ (.waitReady p) | .zero _ _ (.takeMsg p) => some p
  | .finish _ (.storeMsg p) | .finish _ (.setReady p _) | .finish _ (.loadOnStack p)
  | .finish _ (.waitReady p) | .finish _ (.takeMsg p _) | .finish _ (.dropPacket p _) => some p
  | .select _ _ (.again _ (.dropPacket p _)) => some p
  | _ => none

/-- The packet the thread has taken back, and is about to empty or to free. -/
def recalls : Frame Tid T → Option Nat
  | .zero _ _ (.recover p _) | .select _ _ (.again _ (.dropPacket p _)) => some p
  | _ => none

/-- The thread may come to a partner in its next step. -/
def Comes : Frame Tid T → Prop
  | .zero _ _ .pair | .select _ _ (.attempt _) | .select _ _ (.probe _ _)
  | .select _ _ (.again _ .first) => True
  | _ => False

/-- How an operation ends that has handed a message over. -/
def handed (msg : Option T) : Side → Outcome T
  | .send => .ok none
  | .recv => .ok msg

/-- The thread is on its way to hand the message over, in the packet. -/
def Carries (p c : Nat) (d : Side) (msg : Option T) : Frame Tid T → Prop
  | .zero job _ (.waitReady q) | .zero job _ (.takeMsg q) =>
      q = p ∧ job.chan = c ∧ job.side = d
  | .chosen h (.packet q) => q = p ∧ h.chan = c ∧ h.side = d
  | .finish job (.storeMsg q) => q = p ∧ job.chan = c ∧ job.side = d ∧ d = .send
  | .finish job (.loadOnStack q) | .finish job (.waitReady q) | .finish job (.takeMsg q _) =>
      q = p ∧ job.chan = c ∧ job.side = d ∧ d = .recv
  | .finish job (.setReady q out) => q = p ∧ job.chan = c ∧ job.side = d ∧ out = handed msg d
  | .finish job (.dropPacket q m) =>
      q = p ∧ job.chan = c ∧ job.side = d ∧ d = .recv ∧ msg = some m
  | _ => False

end Frame

namespace Ledger

variable {D D' : Ledger Tid T} {t u : Tid} {n p q : Nat} {P Q : Lib.Deal (Party Tid) T → Prop}
  {x y : Lib.Deal (Party Tid) T} {mv : Lib.Deal.Move (Party Tid) T} {a : Party Tid} {f : Frame Tid T}

@[simp] theorem put_self : D.put p x p = some x := Function.update_self _ _ _

theorem put_of_ne (h : q ≠ p) : D.put p x q = D q := Function.update_of_ne h _ _

/-! ## A ledger with one more deal -/

/-- Nothing is struck out. -/
def Extends (D D' : Ledger Tid T) : Prop := ∀ p x, D p = some x → D' p = some x

theorem extends_put (h : D p = none) : D.Extends (D.put p x) := by
  intro q y hq
  rw [put_of_ne]
  · exact hq
  · rintro rfl
    rw [h] at hq
    cases hq

theorem Owns.mono (h : D.Owns t n p P) (hD : D.Extends D') : D'.Owns t n p P := by
  obtain ⟨x, hx, h⟩ := h
  exact ⟨x, hD p x hx, h⟩

theorem Gives.mono (h : D.Gives t n p P) (hD : D.Extends D') : D'.Gives t n p P := by
  obtain ⟨x, q, hx, h⟩ := h
  exact ⟨x, q, hD p x hx, h⟩

theorem Takes.mono (h : D.Takes t n p P) (hD : D.Extends D') : D'.Takes t n p P := by
  obtain ⟨x, q, hx, h⟩ := h
  exact ⟨x, q, hD p x hx, h⟩

/-- New deals change nobody's part. -/
theorem grip_mono (h : f.Grip D t n) (hD : D.Extends D') : f.Grip D' t n := by
  unfold Frame.Grip at h ⊢
  split at h
  · exact h.mono hD
  · exact h.mono hD
  · exact h.mono hD
  · exact h.mono hD
  · exact h.imp (·.mono hD) (·.mono hD)
  · exact h.mono hD
  · exact h.mono hD
  · exact h.mono hD
  · exact h.mono hD
  · unfold Part at h ⊢
    split at h
    · exact h.mono hD
    · exact h.mono hD
  · exact h.mono hD
  · trivial

/-! ## A move of another thread -/

/-- Thread `t` makes this move about packet `p`. -/
structure Moves (D : Ledger Tid T) (t : Tid) (p : Nat) (x y : Lib.Deal (Party Tid) T) : Prop where
  deal : D p = some x
  next : ∃ mv a, x.next mv = some y ∧ x.actor mv = some a ∧ a.thread = t

theorem Owns.moved (h : D.Owns u n q P) (hm : D.Moves t p x y) (hu : u ≠ t)
    (hP : ∀ x y mv, P x → x.next mv = some y → x.actor mv ≠ some x.owner → P y) :
    (D.put p y).Owns u n q P := by
  obtain ⟨z, hz, hthread, hop, hPz⟩ := h
  by_cases hq : q = p
  · subst hq
    obtain rfl : x = z := Option.some.inj (hm.deal.symm.trans hz)
    obtain ⟨mv, a, hn, ha, hat⟩ := hm.next
    have howner := (Lib.Deal.next_static hn).1
    refine ⟨y, put_self, by rwa [howner], by rwa [howner], hP x y mv hPz hn fun heq => hu ?_⟩
    obtain rfl : a = x.owner := Option.some.inj (ha.symm.trans heq)
    exact hthread.symm.trans hat
  · exact ⟨z, (put_of_ne hq).trans hz, hthread, hop, hPz⟩

theorem Gives.moved (h : D.Gives u n q P) (hm : D.Moves t p x y) (hu : u ≠ t)
    (hoff : ∀ x, P x → x.stage ≠ .offered)
    (hP : ∀ x y mv, P x → x.next mv = some y → x.actor mv ≠ x.giver → P y) :
    (D.put p y).Gives u n q P := by
  obtain ⟨z, r, hz, hr, hthread, hop, hPz⟩ := h
  by_cases hq : q = p
  · subst hq
    obtain rfl : x = z := Option.some.inj (hm.deal.symm.trans hz)
    obtain ⟨mv, a, hn, ha, hat⟩ := hm.next
    refine ⟨y, r, put_self, (Lib.Deal.next_parties hn (hoff x hPz)).1.trans hr, hthread, hop,
      hP x y mv hPz hn fun heq => hu ?_⟩
    obtain rfl : a = r := Option.some.inj (ha.symm.trans (heq.trans hr))
    exact hthread.symm.trans hat
  · exact ⟨z, r, (put_of_ne hq).trans hz, hr, hthread, hop, hPz⟩

theorem Takes.moved (h : D.Takes u n q P) (hm : D.Moves t p x y) (hu : u ≠ t)
    (hoff : ∀ x, P x → x.stage ≠ .offered)
    (hP : ∀ x y mv, P x → x.next mv = some y → x.actor mv ≠ x.taker → P y) :
    (D.put p y).Takes u n q P := by
  obtain ⟨z, r, hz, hr, hthread, hop, hPz⟩ := h
  by_cases hq : q = p
  · subst hq
    obtain rfl : x = z := Option.some.inj (hm.deal.symm.trans hz)
    obtain ⟨mv, a, hn, ha, hat⟩ := hm.next
    refine ⟨y, r, put_self, (Lib.Deal.next_parties hn (hoff x hPz)).2.trans hr, hthread, hop,
      hP x y mv hPz hn fun heq => hu ?_⟩
    obtain rfl : a = r := Option.some.inj (ha.symm.trans (heq.trans hr))
    exact hthread.symm.trans hat
  · exact ⟨z, r, (put_of_ne hq).trans hz, hr, hthread, hop, hPz⟩

/-- **A move of another thread takes nobody's part from it.** -/
theorem grip_moved (h : f.Grip D u n) (hm : D.Moves t p x y) (hu : u ≠ t) :
    f.Grip (D.put p y) u n := by
  -- What only the party itself can go on from.
  have awaited : ∀ {q}, (D.Takes u n q fun x => x.Awaited) →
      (D.put p y).Takes u n q fun x => x.Awaited := fun h =>
    h.moved hm hu (fun _ ha => ha.not_offered) fun _ _ _ ha hn hne => ha.next hn hne
  have stored : ∀ {q}, (D.Gives u n q fun x => x.stage = .store) →
      (D.put p y).Gives u n q fun x => x.stage = .store := fun h =>
    h.moved hm hu (fun _ hst => by simp [hst]) fun _ _ _ hst hn hne =>
      absurd ((Lib.Deal.actor_of_next hn).1 hst) hne
  unfold Frame.Grip at h ⊢
  split at h
  · refine h.moved hm hu fun x y mv hx hn hne => ?_
    exact absurd ((Lib.Deal.actor_of_next hn).2.2.2 hx.2) hne
  · refine h.moved hm hu fun x y mv hx hn hne => ?_
    obtain ⟨-, hgives, hkept⟩ := Lib.Deal.next_static hn
    rw [hgives, hkept]
    exact ⟨hx.1, hx.2.1, hx.2.2.next hn hne⟩
  · refine h.moved hm hu fun x y mv hx hn hne => ?_
    refine absurd ((Lib.Deal.actor_of_next hn).2.2.1 (.inl hx.2.2)) fun heq => hne ?_
    rw [heq, Lib.Deal.taker, hx.1]
    rfl
  · exact stored h
  · refine h.imp (fun h => ?_) fun h => ?_
    · refine h.moved hm hu (fun x hx => by simp [hx.2]) fun x y mv hx hn hne => ?_
      refine absurd ((Lib.Deal.actor_of_next hn).2.1 hx.2) fun heq => hne ?_
      rw [heq, hx.1]
      rfl
    · refine h.moved hm hu (fun x hx => by simp [hx.2]) fun x y mv hx hn hne => ?_
      refine absurd ((Lib.Deal.actor_of_next hn).2.1 hx.2) fun heq => hne ?_
      rw [heq, hx.1]
      rfl
  · exact awaited h
  · refine h.moved hm hu (fun x hx => hx.2.not_offered) fun x y mv hx hn hne => ?_
    rw [(Lib.Deal.next_static hn).2.2]
    exact ⟨hx.1, hx.2.next hn hne⟩
  · refine h.moved hm hu (fun x hx => by simp [hx.2.2]) fun x y mv hx hn hne => ?_
    exact absurd ((Lib.Deal.actor_of_next hn).2.2.1 (.inl hx.2.2)) hne
  · refine h.moved hm hu (fun x hx => by simp [hx]) fun x y mv hx hn hne => ?_
    exact absurd ((Lib.Deal.actor_of_next hn).2.2.1 (.inr hx)) hne
  · unfold Part at h ⊢
    split at h
    · exact stored h
    · exact awaited h
  · refine h.moved hm hu fun x y mv hx hn hne => ?_
    exact absurd ((Lib.Deal.actor_of_next hn).2.2.2 hx.2) hne
  · trivial

/-- What a step of thread `t` does to the ledger. -/
inductive Step (D : Ledger Tid T) (t : Tid) : Ledger Tid T → Prop where
  | idle : Step D t D
  | enter {p : Nat} {x : Lib.Deal (Party Tid) T} (hnew : D p = none) : Step D t (D.put p x)
  | move {p : Nat} {x y : Lib.Deal (Party Tid) T} (hm : D.Moves t p x y) : Step D t (D.put p y)

theorem Step.grip (hs : D.Step t D') (h : f.Grip D u n) (hu : u ≠ t) : f.Grip D' u n := by
  cases hs with
  | idle => exact h
  | enter hnew => exact grip_mono h (extends_put hnew)
  | move hm => exact grip_moved h hm hu

/-- An operation that has a partner keeps its part in the deal. -/
theorem Step.owns {pl : Place} {k : Bool} (hs : D.Step t D')
    (h : D.Owns u n q fun x => x.owner.place = pl ∧ x.kept = k ∧ x.Open) (hu : u ≠ t) :
    D'.Owns u n q fun x => x.owner.place = pl ∧ x.kept = k ∧ x.Open := by
  cases hs with
  | idle => exact h
  | enter hnew => exact h.mono (extends_put hnew)
  | move hm =>
    refine h.moved hm hu fun x y mv hx hn hne => ?_
    obtain ⟨howner, -, hkept⟩ := Lib.Deal.next_static hn
    rw [howner, hkept]
    exact ⟨hx.1, hx.2.1, hx.2.2.next hn hne⟩

end Ledger

end CrossbeamChannel
