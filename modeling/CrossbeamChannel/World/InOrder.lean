import CrossbeamChannel.World.OneToOne
import CrossbeamChannel.World.Transfers

/-!
# Messages of buffered channels, in order

What the history of every run says of the sends and the receives of the buffered channels, those
that `select` performs included: `World.Transport`, proved in `World.transport_in_order`.

Order is the order of the positions, which is that of the compare-and-swaps on `tail` and on `head`; the
writes and reads of the slots come in any order. That an array channel never holds more than its capacity
is said by `room`: position `k` is taken by a send only after position `k - cap` has been taken by a
receive.
-/

namespace CrossbeamChannel

variable {Tid T : Type}

/-- What a list without repetitions is drawn from stands at one place. -/
theorem eq_of_nodup_filterMap {α β : Type} {f : α → Option β} {l : List α}
    (hn : (l.filterMap f).Nodup) {i j : Nat} {a b : α} {x : β} (hi : l[i]? = some a) (hj : l[j]? = some b)
    (ha : f a = some x) (hb : f b = some x) : i = j := by
  classical
  have hone := List.nodup_iff_count_le_one.mp hn x
  rw [List.count_filterMap] at hone
  exact eq_of_countP_le_one hone hi hj (by simp [ha]) (by simp [hb])

namespace World

/-- **A buffered channel passes messages on in order**, and each once. -/
structure Transport (kind : Nat → Kind T) (w : World Tid T) (h : List (Event Tid T)) : Prop where
  /-- The positions of a side are taken one after another, from 0 on. -/
  numbered : ∀ c d, ∃ n, h.filterMap (Event.position c d) = List.range n
  /-- An operation takes at most one position, of one channel. -/
  once : ∀ (i j : Nat) a c d k c' d' k', h[i]? = some (.take a c d k) →
    h[j]? = some (.take a c' d' k') → i = j
  /-- It takes it for what it has been asked for, before it returns. -/
  sides : ∀ a c d k j, .take a c d k ∈ h → .ask a j ∈ h →
    (kind c).Buffered ∧ j.chan = c ∧ j.side = d
  within : ∀ (i j : Nat) a c d k out, h[i]? = some (.take a c d k) → h[j]? = some (.over a out) → i < j
  /-- A receive claims what a send has reserved. -/
  later : ∀ (i : Nat) b c k, h[i]? = some (.take b c .recv k) →
    ∃ (j : Nat) (a : Ident Tid), j < i ∧ h[j]? = some (.take a c .send k)
  /-- A send goes into a slot that a receive has claimed the message of. -/
  room : ∀ (i : Nat) a c k ch built, kind c = .array ch built → ch.cap ≤ k →
    h[i]? = some (.take a c .send k) →
    ∃ (j : Nat) (b : Ident Tid), j < i ∧ h[j]? = some (.take b c .recv (k - ch.cap))
  sent : ∀ a c m out, (kind c).Buffered → .ask a ⟨c, some m⟩ ∈ h → .over a out ∈ h →
    (out = .ok none ∧ ∃ k, .take a c .send k ∈ h ∧
        ∀ b, .take b c .recv k ∈ h → .over b (.ok (some m)) ∈ h ∨ w.Running b) ∨
      (out.Refuses (some m) ∧ ∀ c d k, .take a c d k ∉ h)
  received : ∀ b c out, (kind c).Buffered → .ask b ⟨c, none⟩ ∈ h → .over b out ∈ h →
    (∃ a m k, out = .ok (some m) ∧ .take b c .recv k ∈ h ∧ .take a c .send k ∈ h ∧
        .ask a ⟨c, some m⟩ ∈ h) ∨
      (out.Refuses none ∧ ∀ c d k, .take b c d k ∉ h)
  /-- Whatever else an operation returns with, it has taken nothing. -/
  idle : ∀ a out, .over a out ∈ h → (∀ msg, out ≠ .ok msg) → ∀ c d k, .take a c d k ∉ h

variable {kind : Nat → Kind T} {w : World Tid T} {h : List (Event Tid T)} {a b : Ident Tid} {c k : Nat}
  {d : Side} {m : T} {out : Outcome T}

namespace Traded

/-- One operation takes a position. -/
theorem one_taker (ht : Traded kind w h) (ha : .take a c d k ∈ h) (hb : .take b c d k ∈ h) : a = b := by
  obtain ⟨i, hi⟩ := List.mem_iff_getElem?.mp ha
  obtain ⟨j, hj⟩ := List.mem_iff_getElem?.mp hb
  have hn : (h.filterMap (Event.position c d)).Nodup := by
    rw [ht.numbered]
    exact List.nodup_range
  obtain rfl := eq_of_nodup_filterMap (x := k) hn hi hj (by simp [Event.position]) (by simp [Event.position])
  exact (Event.take.inj (Option.some.inj (hi.symm.trans hj))).1

/-- Who has taken a position is running, or has returned with its message. -/
theorem settled (ht : Traded kind w h) (hs : Sound kind w) (he : .take a c d k ∈ h) :
    w.Running a ∨ ∃ m, .over a (Frame.handed (some m) d) ∈ h ∧ w.carried c k = some m := by
  cases ht.bears a c d k he with
  | holds hop hside _ => exact .inl ⟨hop.symm, hs.holder_running hside⟩
  | wakes hop hf _ _ _ => exact .inl ⟨hop.symm, by rw [hf]; rfl⟩
  | returned hover hput => exact .inr ⟨_, hover, hput⟩

/-- Who has returned has returned with the message of its position. -/
theorem handed_of_over (ht : Traded kind w h) (hs : Sound kind w) (ha : Attested w h)
    (he : .take a c d k ∈ h) (hover : .over a out ∈ h) :
    ∃ m, out = Frame.handed (some m) d ∧ w.carried c k = some m := by
  obtain ⟨m, hover', hput⟩ := (ht.settled hs he).resolve_left (ha.not_running hover)
  exact ⟨m, ha.last a _ _ hover hover', hput⟩

/-- What is at a position is what the send that has reserved it was asked to send. -/
theorem asked_of_carried (ht : Traded kind w h) (he : .take a c .send k ∈ h)
    (hput : w.carried c k = some m) : .ask a ⟨c, some m⟩ ∈ h := by
  obtain ⟨a', he', hask⟩ := ht.put c k m hput
  obtain rfl := ht.one_taker he he'
  exact hask

theorem sent (ht : Traded kind w h) (hs : Sound kind w) (ha : Attested w h) (hb : (kind c).Buffered)
    (hask : .ask a ⟨c, some m⟩ ∈ h) (hover : .over a out ∈ h) :
    (out = .ok none ∧ ∃ k, .take a c .send k ∈ h ∧
        ∀ b, .take b c .recv k ∈ h → .over b (.ok (some m)) ∈ h ∨ w.Running b) ∨
      (out.Refuses (some m) ∧ ∀ c d k, .take a c d k ∉ h) := by
  by_cases htook : ∃ c d k, .take a c d k ∈ h
  · obtain ⟨c', d, k, he⟩ := htook
    obtain ⟨rfl, rfl⟩ : c = c' ∧ Side.send = d := ht.sides a c' d k _ he hask
    obtain ⟨m', rfl, hput⟩ := ht.handed_of_over hs ha he hover
    obtain rfl : m = m' :=
      Option.some.inj (Job.mk.inj (ha.once a _ _ hask (ht.asked_of_carried he hput))).2
    refine .inl ⟨rfl, k, he, fun b hb => ?_⟩
    rcases ht.settled hs hb with hrun | ⟨m', hover', hput'⟩
    · exact .inr hrun
    · obtain rfl := Option.some.inj (hput.symm.trans hput')
      exact .inl hover'
  · have hnone : ∀ c d k, .take a c d k ∉ h := fun c d k he => htook ⟨c, d, k, he⟩
    exact .inr ⟨ht.fails a out _ hb hask hover hnone, hnone⟩

theorem received (ht : Traded kind w h) (hs : Sound kind w) (ha : Attested w h)
    (hk : (kind c).Buffered) (hask : .ask b ⟨c, none⟩ ∈ h) (hover : .over b out ∈ h) :
    (∃ a m k, out = .ok (some m) ∧ .take b c .recv k ∈ h ∧ .take a c .send k ∈ h ∧
        .ask a ⟨c, some m⟩ ∈ h) ∨
      (out.Refuses none ∧ ∀ c d k, .take b c d k ∉ h) := by
  by_cases htook : ∃ c d k, .take b c d k ∈ h
  · obtain ⟨c', d, k, he⟩ := htook
    obtain ⟨rfl, rfl⟩ : c = c' ∧ Side.recv = d := ht.sides b c' d k _ he hask
    obtain ⟨m, rfl, hput⟩ := ht.handed_of_over hs ha he hover
    obtain ⟨a, he', hask'⟩ := ht.put c k m hput
    exact .inl ⟨a, m, k, rfl, he, he', hask'⟩
  · have hnone : ∀ c d k, .take b c d k ∉ h := fun c d k he => htook ⟨c, d, k, he⟩
    exact .inr ⟨ht.fails b out _ hk hask hover hnone, hnone⟩

theorem idle (ht : Traded kind w h) (hs : Sound kind w) (ha : Attested w h) (hover : .over a out ∈ h)
    (hno : ∀ msg, out ≠ .ok msg) : .take a c d k ∉ h := by
  intro he
  obtain ⟨m, rfl, -⟩ := ht.handed_of_over hs ha he hover
  cases d with
  | send => exact hno _ rfl
  | recv => exact hno _ rfl

theorem transport (ht : Traded kind w h) (hs : Sound kind w) (ha : Attested w h)
    (hcap : ∀ c, (w.shared.buffer c).cap = (Buffer.init (kind c) : Buffer Tid T).cap) :
    Transport kind w h where
  numbered := fun c d => ⟨_, ht.numbered c d⟩
  once := fun _ _ _ _ _ _ _ _ _ hi hj => eq_of_nodup_filterMap ht.once hi hj rfl rfl
  sides := fun a c d k j he hask => ⟨ht.buffered a c d k he, ht.sides a c d k j he hask⟩
  within := ht.within
  later := ht.later
  room := by
    intro i a c k ch built hkind hle hi
    refine ht.room i a c k ch.cap ?_ hle hi
    rw [hcap, hkind]
    rfl
  sent := fun _ _ _ _ hb hask hover => ht.sent hs ha hb hask hover
  received := fun _ _ _ hb hask hover => ht.received hs ha hb hask hover
  idle := fun _ _ hover hno _ _ _ => ht.idle hs ha hover hno

end Traded

variable [DecidableEq Tid]

/-- The capacity of a channel is what it was built with. -/
theorem cap_of_reachable (hr : (system kind).Reachable w) (c : Nat) :
    (w.shared.buffer c).cap = (Buffer.init (kind c) : Buffer Tid T).cap := by
  refine hr.invariant (P := fun w => (w.shared.buffer c).cap = (Buffer.init (kind c) : Buffer Tid T).cap)
    ?_ fun w l w' hw ih hs => ?_
  · rintro _ rfl
    rfl
  · rcases step_cases hs with ⟨t, act, th, count, ht, ha⟩ | ⟨c, d, -, rfl⟩ | ⟨now, -, rfl⟩
    · rw [ha.shared]
      exact ((ht.kept (sound_of_reachable hw) (typed_of_reachable hw t)).cap c).trans ih
    · exact ih
    · exact ih

/-- **In every run a buffered channel passes its messages on in order**, each once, from the send it
    was asked of to the receive that returns it. -/
theorem transport_in_order {x : World Tid T × List (List (Event Tid T))}
    (hr : (history kind).Reachable x) : Transport kind x.1 x.2.flatten := by
  obtain ⟨D, hc⟩ := chronicle_of_reachable hr
  exact (traded_of_reachable hr).transport (sound_of_reachable hr.forget) hc.attested
    (cap_of_reachable hr.forget)

/-- Through a channel of one slot thread 0 sends 7, which thread 1 receives by a `select`, and then 8. -/
def passing : List (Label Nat Nat) :=
  .start 0 (.plain ⟨0, some 7⟩ .nonblocking) :: List.replicate 11 (.run 0 false []) ++
    .start 1 (.select [⟨0, .recv, 0, 0⟩] .never) :: List.replicate 5 (.run 1 false []) ++
      .complete 1 none :: List.replicate 5 (.run 1 false []) ++
        .start 0 (.plain ⟨0, some 8⟩ .nonblocking) :: List.replicate 11 (.run 0 false [])

theorem transport_in_order_passing :
    let kind : Nat → Kind Nat := fun _ => .array ArrayFlavor.oneSlot ⟨100, 1, rfl⟩
    ∃ x : World Nat Nat × List (List (Event Nat Nat)), (history kind).Reachable x ∧
      Transport kind x.1 x.2.flatten ∧
      x.2.flatten.filterMap (Event.position 0 .send) = [0, 1] ∧
      x.2.flatten.filterMap (Event.position 0 .recv) = [0] := by
  intro kind
  have hsome : (recount kind passing).map (fun x => (x.2.flatten.filterMap (Event.position 0 .send),
      x.2.flatten.filterMap (Event.position 0 .recv))) = some ([0, 1], [0]) := by decide +kernel
  obtain ⟨x, hx, heq⟩ := Option.map_eq_some_iff.mp hsome
  have hr := reachable_of_recount hx
  obtain ⟨hsend, hrecv⟩ := Prod.mk.inj heq
  exact ⟨x, hr, transport_in_order hr, hsend, hrecv⟩

end World

end CrossbeamChannel
