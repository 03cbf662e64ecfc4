import CrossbeamChannel.Lib.Transition
import Mathlib.Tactic.ByContra

/-!
# Two counters read one after the other

Two numbers that only grow and never in the same step, the first never ahead of the second:
how much has gone out of something and how much has gone in. An observer that reads one and
later the other compares numbers of two different instants. Its answer is right all the same:
at some instant in between the two numbers were equal if and only if the answer says so
(`Counters.answer`).
-/

namespace CrossbeamChannel.Lib.System

variable {σ ι : Type} {S : System σ ι} {f g : σ → Nat}

/-- `f` and `g` only grow, never in the same step, and `f` is never ahead of `g`. -/
structure Counters (S : System σ ι) (f g : σ → Nat) : Prop where
  le : ∀ s, S.Reachable s → f s ≤ g s
  step : ∀ s l s', S.Reachable s → S.step s l s' →
    (f s' = f s ∧ g s ≤ g s') ∨ (f s ≤ f s' ∧ g s' = g s)

namespace Counters

variable (h : Counters S f g) (e : Exec S) {i j k : Nat}
include h

theorem mono (hij : i ≤ j) (hj : j ≤ e.len) :
    f (e.state i) ≤ f (e.state j) ∧ g (e.state i) ≤ g (e.state j) := by
  refine e.persists (Q := fun s => f (e.state i) ≤ f s ∧ g (e.state i) ≤ g s) ?_ hij hj
    ⟨Nat.le_refl _, Nat.le_refl _⟩
  intro s l s' hr hs hle
  rcases h.step s l s' hr hs with hstep | hstep <;> omega

/-- What is the same before and after is the same in between. -/
theorem still (hij : i ≤ j) (hjk : j ≤ k) (hk : k ≤ e.len) (heq : g (e.state i) = g (e.state k)) :
    g (e.state j) = g (e.state k) := by
  have hbefore := (h.mono e hij (by omega)).2
  have hafter := (h.mono e hjk hk).2
  omega

/-- If the readings agree, the two were equal at the second. -/
theorem meet (hij : i ≤ j) (hj : j ≤ e.len) (heq : f (e.state i) = g (e.state j)) :
    f (e.state j) = g (e.state j) := by
  have hmono := (h.mono e hij hj).1
  have hle := h.le _ (e.reachable hj)
  omega

/-- If the readings differ, there was an instant at which the two differed. -/
theorem differ (hij : i ≤ j) (hj : j ≤ e.len) (hne : f (e.state i) ≠ g (e.state j)) :
    ∃ k, i ≤ k ∧ k ≤ j ∧ f (e.state k) ≠ g (e.state k) := by
  by_contra hall
  have hsame : ∀ k, i ≤ k → k ≤ j → f (e.state k) = g (e.state k) := fun k hik hkj => by
    by_contra hk
    exact hall ⟨k, hik, hkj, hk⟩
  -- Two numbers that never move together cannot stay equal and move.
  have hstill : ∀ n, i + n ≤ j → f (e.state (i + n)) = f (e.state i) := by
    intro n
    induction n with
    | zero => exact fun _ => rfl
    | succ n ih =>
      intro hn
      obtain ⟨l, hl⟩ := e.next (i + n) (by omega)
      have hbefore := hsame (i + n) (by omega) (by omega)
      have hafter := hsame (i + n + 1) (by omega) (by omega)
      have hn' := ih (by omega)
      rcases h.step _ _ _ (e.reachable (by omega)) hl with hstep | hstep <;>
        simp only [← Nat.add_assoc] <;> omega
  have hend := hstill (j - i) (by omega)
  rw [Nat.add_sub_cancel' hij, hsame j hij (Nat.le_refl j)] at hend
  exact hne hend.symm

/-- **The answer of the observer is right at some instant between its two readings.** -/
theorem answer (hij : i ≤ j) (hj : j ≤ e.len) :
    ∃ k, i ≤ k ∧ k ≤ j ∧ (f (e.state k) = g (e.state k) ↔ f (e.state i) = g (e.state j)) := by
  by_cases heq : f (e.state i) = g (e.state j)
  · exact ⟨j, hij, Nat.le_refl j, iff_of_true (h.meet e hij hj heq) heq⟩
  · obtain ⟨k, hik, hkj, hk⟩ := h.differ e hij hj heq
    exact ⟨k, hik, hkj, iff_of_false hk heq⟩

end Counters

end CrossbeamChannel.Lib.System
