import CrossbeamChannel.Lib.Threads

/-!
# Threads that give up what they hold

A panic that unwinds takes a thread out of what it was doing: nothing is tidied up, and the
thread, if it survives, starts again from nothing. It then begins a new *life*. The lives of
a thread are threads of the plain program, of which only the latest moves, so what is known
of every state of the program holds here too (`Lives.reachable`), and what a thread gave up
is still to be seen in its past lives (`Lives.past`).
-/

namespace CrossbeamChannel.Lib

/-- The object, every life of every thread, and the life each thread is in. -/
structure Lives (Tid C P H : Type) where
  all : Threads (Tid × Nat) C P H
  life : Tid → Nat

/-- Who moves, and how. -/
inductive LifeMove (Tid K : Type) where
  | call (t : Tid) (c : K)
  | run (t : Tid) (spurious : Bool)
  /-- The thread gives up what it holds. -/
  | unwind (t : Tid)

namespace Program

variable {Tid C P K E H : Type} [DecidableEq Tid] (p : Program (Tid × Nat) C P K E H)
  (gives : P → Bool)

/-- A thread moves in the life it is in; it may give up where `gives` says so. -/
def live (s : Lives Tid C P H) : LifeMove Tid K → Option (Lives Tid C P H)
  | .call t c => (p.enter s.all (t, s.life t) c).map fun all => { s with all := all }
  | .run t spurious => (p.run s.all (t, s.life t) spurious).map fun all => { s with all := all }
  | .unwind t =>
      if gives (s.all.pc (t, s.life t)) then
        some { s with life := Function.update s.life t (s.life t + 1) }
      else none

/-- The program with threads that may give up. -/
def lives (start : Threads (Tid × Nat) C P H) : System (Lives Tid C P H) (LifeMove Tid K) where
  init s := s = ⟨start, fun _ => 0⟩
  step s l s' := p.live gives s l = some s'

variable {p gives} {start : Threads (Tid × Nat) C P H} {s s' : Lives Tid C P H}

/-- A step is a step of the plain program by a thread in its present life, or the end of a
    life. -/
theorem live_cases {l : LifeMove Tid K} (h : p.live gives s l = some s') :
    (∃ t m, p.step s.all m = some s'.all ∧ s'.life = s.life ∧
      ∀ u, u ≠ (t, s.life t) → s'.all.pc u = s.all.pc u) ∨
      ∃ t, gives (s.all.pc (t, s.life t)) = true ∧ s'.all = s.all ∧
        s'.life = Function.update s.life t (s.life t + 1) := by
  cases l with
  | call t c =>
    obtain ⟨all, hall, rfl⟩ := Option.map_eq_some_iff.mp h
    obtain ⟨pc, -, rfl⟩ := enter_eq_some hall
    exact .inl ⟨t, .call (t, s.life t) c, hall, rfl, fun u hu => Function.update_of_ne hu _ _⟩
  | run t spurious =>
    obtain ⟨all, hall, rfl⟩ := Option.map_eq_some_iff.mp h
    obtain ⟨ch, pc, ev, -, rfl⟩ := run_eq_some hall
    exact .inl ⟨t, .run (t, s.life t) spurious, hall, rfl, fun u hu => Function.update_of_ne hu _ _⟩
  | unwind t =>
    simp only [live] at h
    split at h <;> cases h
    rename_i hgives
    exact .inr ⟨t, hgives, rfl, rfl⟩

/-- **Giving up is something a thread of the plain program may do**: it never moves again. -/
theorem Lives.reachable (h : (p.lives gives start).Reachable s) :
    (p.system start).Reachable s.all := by
  induction h with
  | init h =>
    obtain rfl := h
    exact .init rfl
  | step _ hs ih =>
    rcases live_cases hs with ⟨t, m, hm, -⟩ | ⟨t, -, hall, -⟩
    · exact .step ih hm
    · rw [hall]
      exact ih

/-- A past life ended where it gave up, and a life to come has not begun. -/
theorem Lives.past (h : (p.lives gives start).Reachable s) (t : Tid) (n : Nat) :
    (n < s.life t → gives (s.all.pc (t, n)) = true) ∧
      (s.life t < n → s.all.pc (t, n) = start.pc (t, n)) := by
  induction h with
  | init h =>
    obtain rfl := h
    exact ⟨fun h => absurd h (Nat.not_lt_zero n), fun _ => rfl⟩
  | @step s s' l _ hs ih =>
    rcases live_cases hs with ⟨u, m, -, hlife, hpc⟩ | ⟨u, hgives, hall, hlife⟩
    · rw [hlife]
      refine ⟨fun hn => ?_, fun hn => ?_⟩
      · rw [hpc (t, n) (by rintro ⟨rfl, rfl⟩; omega)]
        exact ih.1 hn
      · rw [hpc (t, n) (by rintro ⟨rfl, rfl⟩; omega)]
        exact ih.2 hn
    · rw [hall, hlife]
      rcases eq_or_ne t u with rfl | htu
      · rw [Function.update_self]
        refine ⟨fun hn => ?_, fun hn => ih.2 (by omega)⟩
        rcases Nat.lt_or_ge n (s.life t) with hlt | hge
        · exact ih.1 hlt
        · obtain rfl : n = s.life t := by omega
          exact hgives
      · rw [Function.update_of_ne htu]
        exact ih

end Program

end CrossbeamChannel.Lib
