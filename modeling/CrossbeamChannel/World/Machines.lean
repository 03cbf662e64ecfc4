import CrossbeamChannel.Flavors.ArrayFifo
import CrossbeamChannel.Flavors.ListFifo
import CrossbeamChannel.World.Effects

/-!
# Every buffered channel runs by itself

What the flavors are proved to be, they are proved to be alone: one channel, and threads that make any
calls on it. In the whole system the threads come to a channel out of blocking operations and selects
over other channels too. But all they ever do to it are steps of its own machine
(`Buffer.moves_of_drive`), so what holds in every run of the machine holds of the channel in every run
of the system, and it is a FIFO queue there too: `World.Alone`.

This is a simulation, with the projection to one channel as its map; a step of the system that does not
touch the channel is no step of the machine. Nothing about the bodies is used here but that they reach a
buffered channel through `Shared.drive` only.
-/

namespace CrossbeamChannel

variable {Tid T : Type} [DecidableEq Tid]

namespace Buffer

/-- One step of the machine of the flavor. -/
inductive Moves : Buffer Tid T → Buffer Tid T → Prop where
  | array {s s' : ArrayFlavor.State Tid T} {l : ArrayFlavor.Label Tid T}
      (h : ArrayFlavor.program.step s l = some s') : Moves (.array s) (.array s')
  | list {s s' : ListFlavor.State Tid T} {l : ListFlavor.Label Tid T}
      (h : ListFlavor.program.step s l = some s') : Moves (.list s) (.list s')

variable {b b' : Buffer Tid T} {t : Tid} {k : BufferCall T} {spurious : Bool}

theorem moves_of_enter (h : b.enter t k = some b') : b.Moves b' := by
  cases b with
  | array s =>
    obtain ⟨s', hs, rfl⟩ := Option.map_eq_some_iff.mp h
    exact .array (l := .call t _) hs
  | list s =>
    obtain ⟨call, -, h⟩ := Option.bind_eq_some_iff.mp h
    obtain ⟨s', hs, rfl⟩ := Option.map_eq_some_iff.mp h
    exact .list (l := .call t call) hs

theorem moves_of_run (h : b.run t spurious = some b') : b.Moves b' := by
  cases b with
  | array s =>
    obtain ⟨s', hs, rfl⟩ := Option.map_eq_some_iff.mp h
    exact .array (l := .run t spurious) hs
  | list s =>
    obtain ⟨s', hs, rfl⟩ := Option.map_eq_some_iff.mp h
    exact .list (l := .run t spurious) hs

/-- Taking the result is a step when there is one to take. -/
theorem moves_of_leave (b : Buffer Tid T) (t : Tid) : b.leave t = b ∨ b.Moves (b.leave t) := by
  cases b with
  | array s =>
    cases hs : ArrayFlavor.program.enter s t .ret with
    | none => exact .inl (by simp only [leave, hs, Option.getD_none])
    | some s' =>
      refine .inr ?_
      simp only [leave, hs, Option.getD_some]
      exact .array (l := .call t .ret) hs
  | list s =>
    cases hs : ListFlavor.program.enter s t .ret with
    | none => exact .inl (by simp only [leave, hs, Option.getD_none])
    | some s' =>
      refine .inr ?_
      simp only [leave, hs, Option.getD_some]
      exact .list (l := .call t .ret) hs

/-- **All a body does to a channel** is a step of its machine. -/
theorem moves_of_drive {r : Option (Answer T)} (h : b.drive t k spurious = some (b', r)) :
    b' = b ∨ b.Moves b' := by
  unfold drive at h
  split at h
  · cases h
    exact moves_of_leave b t
  · split at h
    · cases h
      exact .inr (moves_of_enter ‹_›)
    · obtain ⟨b'', hrun, heq⟩ := Option.map_eq_some_iff.mp h
      cases heq
      exact .inr (moves_of_run hrun)

/-- The state of the array flavor's machine. -/
def arrayState (ch : ArrayFlavor.Channel T) : Buffer Tid T → ArrayFlavor.State Tid T
  | .array s => s
  | .list _ => .init ch

/-- The state of the list flavor's machine. -/
def listState : Buffer Tid T → ListFlavor.State Tid T
  | .list s => s
  | .array _ => .init

end Buffer

namespace World

variable {kind : Nat → Kind T} {w w' : World Tid T} {c : Nat}

/-- Every step of the system is a step of the machine of a channel, or none. -/
theorem moves_of_step {l : Label Tid T} (hs : w.step kind l = some w') (c : Nat) :
    w'.shared.buffer c = w.shared.buffer c ∨ (w.shared.buffer c).Moves (w'.shared.buffer c) := by
  rcases step_cases hs with ⟨t, act, th, count, ht, ha⟩ | ⟨c', d', -, rfl⟩ | ⟨now, -, rfl⟩
  · rw [ha.shared]
    cases ht with
    | next hn =>
      by_cases hc : ∃ k, (w.thread t).frame.call.onBuffer kind (w.thread t).prog = some (c, k)
      · obtain ⟨k, hc⟩ := hc
        obtain ⟨spurious, rep, he, -⟩ := hn.exec
        obtain ⟨a, hd⟩ := Shared.exec_onBuffer hc he
        obtain ⟨spurious', b, hdrive, rfl⟩ := hd.drive
        simp only [Shared.apply, Function.update_self]
        exact Buffer.moves_of_drive hdrive
      · exact .inl (hn.undriven fun k hk => hc ⟨k, hk⟩)
    | start _ _ | complete _ _ | drop _ _ _ => exact .inl rfl
  · exact .inl rfl
  · exact .inl rfl

/-- **Seen from one channel**, a run of the whole system is a run of the channel's own machine, whose
    states are these buffers, and a run of the queue that abstracts it. -/
structure Alone {σ ι : Type} (kind : Nat → Kind T) (c : Nat) (machine : Lib.System σ ι)
    (buffer : σ → Buffer Tid T) (state : Buffer Tid T → σ) (cap : Option Nat) (queue : σ → Lib.Fifo T) :
    Prop where
  is_buffer : ∀ w : World Tid T, (system kind).Reachable w →
    w.shared.buffer c = buffer (state (w.shared.buffer c))
  runs : Lib.Refines (system kind) machine fun w : World Tid T => state (w.shared.buffer c)
  fifo : Lib.Refines (system kind) (Lib.Fifo.system cap) fun w : World Tid T =>
    queue (state (w.shared.buffer c))
  in_order : ∀ w : World Tid T, (system kind).Reachable w →
    Lib.Fifo.Inv cap (queue (state (w.shared.buffer c)))

/-- For that a move of the buffer has to be a step of the machine. -/
theorem alone_of_moves {σ ι : Type} {machine : Lib.System σ ι} {buffer : σ → Buffer Tid T}
    {state : Buffer Tid T → σ} {cap : Option Nat} {queue : σ → Lib.Fifo T} {s₀ : σ}
    (hinit : Buffer.init (kind c) = buffer s₀) (h₀ : machine.init s₀)
    (hstate : ∀ s, state (buffer s) = s)
    (hmoves : ∀ s b', (buffer s).Moves b' → ∃ s' l, b' = buffer s' ∧ machine.step s l s')
    (hfifo : Lib.Refines machine (Lib.Fifo.system cap) queue) :
    Alone kind c machine buffer state cap queue := by
  have hbuffer : ∀ w : World Tid T, (system kind).Reachable w → ∃ s, w.shared.buffer c = buffer s := by
    intro w hr
    refine hr.invariant (P := fun w => ∃ s, w.shared.buffer c = buffer s) ?_ ?_
    · rintro _ rfl
      exact ⟨s₀, hinit⟩
    · rintro w l w' - ⟨s, hs⟩ hstep
      rcases moves_of_step hstep c with hsame | hm
      · exact ⟨s, hsame.trans hs⟩
      · obtain ⟨s', l, heq, -⟩ := hmoves s _ (hs ▸ hm)
        exact ⟨s', heq⟩
  have hruns : Lib.Refines (system kind) machine fun w : World Tid T => state (w.shared.buffer c) := by
    constructor
    · rintro _ rfl
      rw [show (World.init kind : World Tid T).shared.buffer c = _ from hinit, hstate]
      exact h₀
    · intro w l w' hr hstep
      rcases moves_of_step hstep c with hsame | hm
      · exact .inl (congrArg state hsame)
      · obtain ⟨s, hs⟩ := hbuffer w hr
        rw [hs] at hm ⊢
        obtain ⟨s', l, heq, hstep'⟩ := hmoves s _ hm
        rw [heq, hstate, hstate]
        exact .inr ⟨l, hstep'⟩
  have hqueue := hruns.trans hfifo
  refine ⟨fun w hr => ?_, hruns, hqueue, fun w hr => Lib.Fifo.inv_reachable (hqueue.reachable hr)⟩
  obtain ⟨s, hs⟩ := hbuffer w hr
  rw [hs, hstate]

/-- **Every buffered channel runs by itself**, whatever else its threads do. -/
theorem channels_run_alone (kind : Nat → Kind T) (c : Nat) :
    match kind c with
    | .array ch _ =>
        Alone kind c (ArrayFlavor.system ch : Lib.System (ArrayFlavor.State Tid T) _) .array
          (Buffer.arrayState ch) (some ch.cap) ArrayFlavor.State.queue ∧
        ∀ w : World Tid T, (system kind).Reachable w →
          ArrayFlavor.Exact ((w.shared.buffer c).arrayState ch)
    | .list =>
        Alone kind c (ListFlavor.system : Lib.System (ListFlavor.State Tid T) _) .list
          Buffer.listState none ListFlavor.State.queue ∧
        ∀ w : World Tid T, (system kind).Reachable w →
          ListFlavor.Exact (w.shared.buffer c).listState
    | _ => True := by
  cases hk : kind c with
  | array ch built =>
    obtain ⟨maxValue, cap, h⟩ := built
    have hcap : (ArrayFlavor.State.init ch : ArrayFlavor.State Tid T).chan.cap = cap :=
      ArrayFlavor.cap_reachable h (.init rfl)
    have halone : Alone kind c (ArrayFlavor.system ch : Lib.System (ArrayFlavor.State Tid T) _) .array
        (Buffer.arrayState ch) (some ch.cap) ArrayFlavor.State.queue := by
      refine alone_of_moves (by rw [hk]; rfl) rfl (fun _ => rfl) (fun s b' hm => ?_) ?_
      · cases hm with
        | array h => exact ⟨_, _, rfl, h⟩
      · rw [show ch.cap = cap from hcap]
        exact ArrayFlavor.refines_fifo h
    exact ⟨halone, fun w hr => (ArrayFlavor.inv_reachable h (halone.runs.reachable hr)).exact⟩
  | list =>
    have halone : Alone kind c (ListFlavor.system : Lib.System (ListFlavor.State Tid T) _) .list
        Buffer.listState none ListFlavor.State.queue := by
      refine alone_of_moves (by rw [hk]; rfl) rfl (fun _ => rfl) (fun s b' hm => ?_)
        ListFlavor.refines_fifo
      cases hm with
      | list h => exact ⟨_, _, rfl, h⟩
    exact ⟨halone, fun w hr => (ListFlavor.inv_reachable (halone.runs.reachable hr)).exact⟩
  | _ => trivial

end World

end CrossbeamChannel
