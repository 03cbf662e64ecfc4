import Mathlib.Data.Nat.Init
import Mathlib.Tactic.Basic

/-!
# Transition systems, executions and instants

The interleaving semantics every machine of this development is read through. A
`System` is a set of initial states and a labelled step relation. An *invariant* holds of
every reachable state (`Reachable.invariant`), and an *execution* (`Exec`) indexes the
states of one finite run by time, so that a statement may speak about **an instant during
a call**:

> if a thread is inside a call whose local state says "I have observed `P`", then `P` held
> at some earlier instant, and the thread has not left the call since.

`Exec.since` is that rule. Its premise is local: the only step that makes the observation
true is taken in a state where `P` holds.
-/

namespace CrossbeamChannel.Lib

/-- A labelled transition system. -/
structure System (σ ι : Type) where
  /-- The states a run may start in. -/
  init : σ → Prop
  /-- One step, with its label. -/
  step : σ → ι → σ → Prop

namespace System

variable {σ ι : Type} {S : System σ ι}

/-- The states some run reaches. -/
inductive Reachable (S : System σ ι) : σ → Prop where
  | init {s : σ} (h : S.init s) : Reachable S s
  | step {s s' : σ} {l : ι} (h : Reachable S s) (hs : S.step s l s') : Reachable S s'

/-- **The invariant rule.** What holds initially and is preserved by every step from a
    reachable state holds of every reachable state. -/
theorem Reachable.invariant {P : σ → Prop} (hinit : ∀ s, S.init s → P s)
    (hstep : ∀ s l s', S.Reachable s → P s → S.step s l s' → P s') {s : σ}
    (h : S.Reachable s) : P s := by
  induction h with
  | init h => exact hinit _ h
  | step h hs ih => exact hstep _ _ _ h ih hs

/-- One finite run, indexed by time. Only the states up to `len` matter. -/
structure Exec (S : System σ ι) where
  /-- How many steps the run takes. -/
  len : Nat
  /-- The state at each instant. -/
  state : Nat → σ
  start : S.init (state 0)
  next : ∀ i, i < len → ∃ l, S.step (state i) l (state (i + 1))

namespace Exec

variable (e : Exec S)

theorem reachable {i : Nat} (hi : i ≤ e.len) : S.Reachable (e.state i) := by
  induction i with
  | zero => exact .init e.start
  | succ i ih =>
    obtain ⟨_, hs⟩ := e.next i (by omega)
    exact .step (ih (by omega)) hs

/-- A property no step falsifies persists to every later instant. -/
theorem persists {Q : σ → Prop} (hQ : ∀ s l s', S.Reachable s → S.step s l s' → Q s → Q s')
    {i j : Nat} (hij : i ≤ j) (hj : j ≤ e.len) (hi : Q (e.state i)) : Q (e.state j) := by
  induction j with
  | zero => obtain rfl : i = 0 := by omega
            exact hi
  | succ j ih =>
    rcases Nat.lt_or_ge i (j + 1) with hlt | hge
    · obtain ⟨_, hs⟩ := e.next j (by omega)
      exact hQ _ _ _ (e.reachable (by omega)) hs (ih (by omega) (by omega))
    · obtain rfl : i = j + 1 := by omega
      exact hi

/-- **The event rule.** If a record only ever appears by a step at which `E`, then whenever it is
    there `E` happened, and the record has been there since. -/
theorem since_event {Q : σ → Prop} {E : Nat → Prop} (h0 : ¬ Q (e.state 0))
    (hstep : ∀ i < e.len, Q (e.state (i + 1)) → Q (e.state i) ∨ E i)
    {j : Nat} (hj : j ≤ e.len) (hs : Q (e.state j)) :
    ∃ i < j, E i ∧ ∀ m, i < m → m ≤ j → Q (e.state m) := by
  induction j with
  | zero => exact absurd hs h0
  | succ j ih =>
    rcases hstep j (by omega) hs with hold | hE
    · obtain ⟨i, hi, hEi, hQ⟩ := ih (by omega) hold
      refine ⟨i, by omega, hEi, fun m him hm => ?_⟩
      rcases Nat.lt_or_ge m (j + 1) with hlt | hge
      · exact hQ m him (by omega)
      · obtain rfl : m = j + 1 := by omega
        exact hs
    · refine ⟨j, by omega, hE, fun m hjm hm => ?_⟩
      obtain rfl : m = j + 1 := by omega
      exact hs

/-- **The instant rule.** `Q` is a thread's record that it observed `P` in the call it
    is in, `I` that it is in that call. If the record only ever appears by a step between two
    instants of the call at one of which `P` holds, then whenever it is there `P` held at an
    instant since which the thread has stayed in the call. -/
theorem since_at {I P Q : σ → Prop} (h0 : ¬ Q (e.state 0))
    (hin : ∀ i ≤ e.len, Q (e.state i) → I (e.state i))
    (hstep : ∀ i < e.len, Q (e.state (i + 1)) →
      Q (e.state i) ∨ (P (e.state i) ∧ I (e.state i)) ∨ P (e.state (i + 1)))
    {j : Nat} (hj : j ≤ e.len) (hs : Q (e.state j)) :
    ∃ k ≤ j, P (e.state k) ∧ ∀ m, k ≤ m → m ≤ j → I (e.state m) := by
  induction j with
  | zero => exact absurd hs h0
  | succ j ih =>
    have hlast := hin _ hj hs
    have hstay : ∀ k, (∀ m, k ≤ m → m ≤ j → I (e.state m)) →
        ∀ m, k ≤ m → m ≤ j + 1 → I (e.state m) := by
      intro k hk m hkm hm
      rcases Nat.lt_or_ge m (j + 1) with hlt | hge
      · exact hk m hkm (by omega)
      · obtain rfl : m = j + 1 := by omega
        exact hlast
    rcases hstep j (by omega) hs with hseen | ⟨hP, hI⟩ | hP
    · obtain ⟨k, hk, hPk, hIk⟩ := ih (by omega) hseen
      exact ⟨k, by omega, hPk, hstay k hIk⟩
    · refine ⟨j, by omega, hP, hstay j ?_⟩
      intro m hjm hm
      obtain rfl : m = j := by omega
      exact hI
    · refine ⟨j + 1, Nat.le_refl _, hP, fun m hkm hm => ?_⟩
      obtain rfl : m = j + 1 := by omega
      exact hlast

/-- The instant rule, for a record that every step of the machine keeps or observes. -/
theorem since {I P Q : σ → Prop} (h0 : ∀ s, S.init s → ¬ Q s)
    (hin : ∀ s, S.Reachable s → Q s → I s)
    (hstep : ∀ s l s', S.Reachable s → S.step s l s' → Q s' → Q s ∨ (P s ∧ I s))
    {j : Nat} (hj : j ≤ e.len) (hs : Q (e.state j)) :
    ∃ k, k ≤ j ∧ P (e.state k) ∧ ∀ m, k ≤ m → m ≤ j → I (e.state m) := by
  refine e.since_at (h0 _ e.start) (fun i hi => hin _ (e.reachable hi)) (fun i hi hq => ?_) hj hs
  obtain ⟨l, hl⟩ := e.next i hi
  exact (hstep _ _ _ (e.reachable (by omega)) hl hq).imp_right .inl

end Exec

/-! ## Recorded runs -/

variable {ε : Type}

/-- The machine that writes down what happens in its steps. -/
def recorded (S : System σ ι) (event : σ → ι → σ → Option ε) : System (σ × List ε) ι where
  init x := S.init x.1 ∧ x.2 = []
  step x l y := S.step x.1 l y.1 ∧ y.2 = x.2 ++ (event x.1 l y.1).toList

theorem Reachable.forget {event : σ → ι → σ → Option ε} {x : σ × List ε}
    (h : (S.recorded event).Reachable x) : S.Reachable x.1 := by
  induction h with
  | init h => exact .init h.1
  | step _ hs ih => exact .step ih hs.1

/-! ## Runs of executable machines -/

/-- Running an executable machine along a list of labels. -/
def replay (step : σ → ι → Option σ) : σ → List ι → Option σ
  | s, [] => some s
  | s, l :: ls => (step s l).bind fun s' => replay step s' ls

theorem replay_append (step : σ → ι → Option σ) (s : σ) (ls ls' : List ι) :
    replay step s (ls ++ ls') = (replay step s ls).bind fun s' => replay step s' ls' := by
  induction ls generalizing s with
  | nil => rfl
  | cons l ls ih =>
    simp only [List.cons_append, replay]
    cases step s l with
    | none => rfl
    | some s' => exact ih s'

/-- One step of an executable machine, written down. -/
def recordStep (step : σ → ι → Option σ) (event : σ → ι → σ → Option ε) (x : σ × List ε) (l : ι) :
    Option (σ × List ε) :=
  (step x.1 l).map fun s => (s, x.2 ++ (event x.1 l s).toList)

theorem recorded_step {step : σ → ι → Option σ} {event : σ → ι → σ → Option ε}
    (hstep : ∀ s l s', step s l = some s' → S.step s l s') {x y : σ × List ε} {l : ι}
    (h : recordStep step event x l = some y) : (S.recorded event).step x l y := by
  obtain ⟨s, hs, rfl⟩ := Option.map_eq_some_iff.mp h
  exact ⟨hstep _ _ _ hs, rfl⟩

/-- A replay from a reachable state ends in a reachable state. -/
theorem Reachable.replay {step : σ → ι → Option σ} (hstep : ∀ s l s', step s l = some s' → S.step s l s')
    {s s' : σ} (h : S.Reachable s) {ls : List ι} (hrun : System.replay step s ls = some s') :
    S.Reachable s' := by
  induction ls generalizing s with
  | nil =>
    cases hrun
    exact h
  | cons l ls ih =>
    obtain ⟨s₁, hone, hrest⟩ := Option.bind_eq_some_iff.mp hrun
    exact ih (.step h (hstep _ _ _ hone)) hrest

/-- A replay that gets to the end is an execution. -/
def Exec.ofReplay {step : σ → ι → Option σ} (hstep : ∀ s l s', step s l = some s' → S.step s l s')
    (s₀ : σ) (h₀ : S.init s₀) (ls : List ι) (hrun : (replay step s₀ ls).isSome) : Exec S where
  len := ls.length
  state i := (replay step s₀ (ls.take i)).getD s₀
  start := h₀
  next := by
    intro i hi
    refine ⟨ls[i], hstep _ _ _ ?_⟩
    have hsplit : ls = ls.take i ++ ls[i] :: ls.drop (i + 1) := by
      rw [List.getElem_cons_drop hi, List.take_append_drop]
    have hnext : ls.take (i + 1) = ls.take i ++ [ls[i]] := by
      rw [List.take_add_one, List.getElem?_eq_getElem hi]
      rfl
    rw [hsplit, replay_append] at hrun
    rw [hnext, replay_append]
    cases hpre : replay step s₀ (ls.take i) with
    | none => simp [hpre] at hrun
    | some s =>
      cases hone : step s ls[i] with
      | none => simp [hpre, replay, hone] at hrun
      | some s' => simp [replay, hone]

end System

end CrossbeamChannel.Lib
