import CrossbeamChannel.Lib.Transition
import Mathlib.Logic.Function.Basic

/-!
# A FIFO queue with two-phase operations

What a channel is for, with no word about slots, stamps or blocks. Sending first *pushes* a
position and later fills it with its message; receiving first *pops* a position and later
takes the message out. The order of the queue is the order of the positions, so the `k`-th
pop always meets the `k`-th push. A capacity bounds how many positions may be outstanding.
-/

namespace CrossbeamChannel.Lib

/-- The queue: how many positions were pushed and popped, and what was filled in and taken
    out at each of them. -/
structure Fifo (T : Type) where
  sends : Nat
  recvs : Nat
  put : Nat → Option T
  got : Nat → Option T

namespace Fifo

variable {T : Type}

def empty : Fifo T := ⟨0, 0, fun _ => none, fun _ => none⟩

/-- Room for one more position. -/
def Room (cap : Option Nat) (q : Fifo T) : Prop :=
  ∀ n, cap = some n → q.sends < q.recvs + n

/-- The steps of the queue. -/
inductive Step (cap : Option Nat) : Fifo T → Fifo T → Prop where
  | silent (q : Fifo T) : Step cap q q
  | push {q : Fifo T} (room : q.Room cap) : Step cap q { q with sends := q.sends + 1 }
  | fill {q : Fifo T} {k : Nat} (m : T) (pushed : k < q.sends) (new : q.put k = none) :
      Step cap q { q with put := Function.update q.put k (some m) }
  | pop {q : Fifo T} (nonempty : q.recvs < q.sends) :
      Step cap q { q with recvs := q.recvs + 1 }
  | take {q : Fifo T} {k : Nat} (m : T) (popped : k < q.recvs) (filled : q.put k = some m)
      (new : q.got k = none) : Step cap q { q with got := Function.update q.got k (some m) }

/-- The queue as a transition system. -/
def system (cap : Option Nat) : System (Fifo T) Unit where
  init q := q = .empty
  step q _ q' := Step cap q q'

/-- **First in, first out.** -/
structure Inv (cap : Option Nat) (q : Fifo T) : Prop where
  /-- What a position yields is what was filled in there. -/
  fifo : ∀ k m, q.got k = some m → q.put k = some m
  le : q.recvs ≤ q.sends
  bound : ∀ n, cap = some n → q.sends ≤ q.recvs + n
  /-- Nothing is filled in before its push, nothing taken out before its pop. -/
  pushed : ∀ k m, q.put k = some m → k < q.sends
  popped : ∀ k m, q.got k = some m → k < q.recvs

theorem Inv.step {cap : Option Nat} {q q' : Fifo T} (hi : Inv cap q) (h : Step cap q q') :
    Inv cap q' := by
  cases h with
  | silent => exact hi
  | push room =>
    refine ⟨hi.fifo, Nat.le_succ_of_le hi.le, fun n hn => room n hn, fun k m hk => ?_,
      hi.popped⟩
    exact Nat.lt_succ_of_lt (hi.pushed k m hk)
  | @fill k m pushed new =>
    refine ⟨fun j x hj => ?_, hi.le, hi.bound, fun j x hj => ?_, hi.popped⟩
    · have hput := hi.fifo j x hj
      have hjk : j ≠ k := by
        rintro rfl
        rw [new] at hput
        exact absurd hput (by simp)
      simpa only [Function.update_of_ne hjk] using hput
    · by_cases hjk : j = k
      · exact hjk ▸ pushed
      · simp only [Function.update_of_ne hjk] at hj
        exact hi.pushed j x hj
  | pop nonempty =>
    exact ⟨hi.fifo, nonempty, fun n hn => by have := hi.bound n hn; simp only; omega,
      hi.pushed, fun k m hk => Nat.lt_succ_of_lt (hi.popped k m hk)⟩
  | @take k m popped filled new =>
    refine ⟨fun j x hj => ?_, hi.le, hi.bound, hi.pushed, fun j x hj => ?_⟩
    · by_cases hjk : j = k
      · subst hjk
        simp only [Function.update_self, Option.some.injEq] at hj
        exact hj ▸ filled
      · simp only [Function.update_of_ne hjk] at hj
        exact hi.fifo j x hj
    · by_cases hjk : j = k
      · exact hjk ▸ popped
      · simp only [Function.update_of_ne hjk] at hj
        exact hi.popped j x hj

theorem inv_reachable {cap : Option Nat} {q : Fifo T} (h : (system cap).Reachable q) :
    Inv cap q := by
  refine h.invariant (fun s hs => ?_) fun s l s' _ hi hstep => hi.step hstep
  obtain rfl := hs
  exact ⟨fun _ _ h => absurd h (by simp [empty]), Nat.le_refl _, fun _ _ => Nat.zero_le _,
    fun _ _ h => absurd h (by simp [empty]), fun _ _ h => absurd h (by simp [empty])⟩

end Fifo

/-! ## Refinement -/

/-- A machine refines another along a view when every step it takes from a reachable state
    shows as a step, or as no step at all. -/
structure Refines {σ ι τ κ : Type} (S : System σ ι) (A : System τ κ) (view : σ → τ) : Prop where
  init : ∀ s, S.init s → A.init (view s)
  step : ∀ s l s', S.Reachable s → S.step s l s' →
    view s' = view s ∨ ∃ l', A.step (view s) l' (view s')

theorem Refines.reachable {σ ι τ κ : Type} {S : System σ ι} {A : System τ κ} {view : σ → τ}
    (h : Refines S A view) {s : σ} (hs : S.Reachable s) : A.Reachable (view s) := by
  induction hs with
  | init hs => exact .init (h.init _ hs)
  | step hr hs ih =>
    rcases h.step _ _ _ hr hs with heq | ⟨l', hl⟩
    · rw [heq]; exact ih
    · exact .step ih hl

/-- Refinements compose. -/
theorem Refines.trans {σ ι τ κ ρ μ : Type} {S : System σ ι} {A : System τ κ} {B : System ρ μ}
    {view : σ → τ} {view' : τ → ρ} (h : Refines S A view) (h' : Refines A B view') :
    Refines S B fun s => view' (view s) where
  init := fun s hs => h'.init _ (h.init s hs)
  step := by
    intro s l s' hr hs
    rcases h.step s l s' hr hs with heq | ⟨l', hl⟩
    · exact .inl (congrArg view' heq)
    · exact h'.step _ _ _ (h.reachable hr) hl

end CrossbeamChannel.Lib
