import CrossbeamChannel.Lib.Transition
import Mathlib.Logic.Function.Basic

/-!
# Threads sharing an object

Any number of threads call the functions of one shared object and interleave one access to
its words at a time. A `Program` says what the functions are: how a thread at a program
counter enters a call, and what the one access does that the program counter names. The
history is written along and never read.
-/

namespace CrossbeamChannel.Lib

/-- The functions of an object with words `C`, program counters `P`, calls `K`, and a
    history `H` written from events `E`. -/
structure Program (Tid C P K E H : Type) where
  /-- Entering a call, or taking its result. -/
  call : P → K → Option P
  /-- One access to the shared words; the flag decides the accesses that may fail at will. -/
  access : C → Bool → P → Option (C × P × E)
  record : H → Tid → E → H

/-- The object, where every thread stands, and the history. -/
structure Threads (Tid C P H : Type) where
  chan : C
  pc : Tid → P
  hist : H

/-- Who moves, and how. -/
inductive Move (Tid K : Type) where
  | call (t : Tid) (c : K)
  | run (t : Tid) (spurious : Bool)

namespace Program

variable {Tid C P K E H : Type} [DecidableEq Tid] (p : Program Tid C P K E H)

/-- Thread `t` enters a call or takes its result. -/
def enter (s : Threads Tid C P H) (t : Tid) (c : K) : Option (Threads Tid C P H) :=
  (p.call (s.pc t) c).map fun pc => { s with pc := Function.update s.pc t pc }

/-- Thread `t` takes one atomic step of the call it is in. -/
def run (s : Threads Tid C P H) (t : Tid) (spurious : Bool) : Option (Threads Tid C P H) :=
  (p.access s.chan spurious (s.pc t)).map fun r =>
    { chan := r.1, pc := Function.update s.pc t r.2.1, hist := p.record s.hist t r.2.2 }

def step (s : Threads Tid C P H) : Move Tid K → Option (Threads Tid C P H)
  | .call t c => p.enter s t c
  | .run t spurious => p.run s t spurious

/-- Any number of threads, each making any calls in any order, one atomic step at a time. -/
def system (start : Threads Tid C P H) : System (Threads Tid C P H) (Move Tid K) where
  init s := s = start
  step s l s' := p.step s l = some s'

variable {p} {s s' : Threads Tid C P H}

theorem enter_eq_some {t : Tid} {c : K} (h : p.enter s t c = some s') :
    ∃ pc, p.call (s.pc t) c = some pc ∧ s' = { s with pc := Function.update s.pc t pc } := by
  obtain ⟨pc, hpc, rfl⟩ := Option.map_eq_some_iff.mp h
  exact ⟨pc, hpc, rfl⟩

theorem run_eq_some {t : Tid} {spurious : Bool} (h : p.run s t spurious = some s') :
    ∃ ch pc ev, p.access s.chan spurious (s.pc t) = some (ch, pc, ev) ∧
      s' = { chan := ch, pc := Function.update s.pc t pc, hist := p.record s.hist t ev } := by
  obtain ⟨⟨ch, pc, ev⟩, hpc, rfl⟩ := Option.map_eq_some_iff.mp h
  exact ⟨ch, pc, ev, hpc, rfl⟩

/-- How the program counter of one thread can change in one step. -/
theorem step_pc {l : Move Tid K} (hs : p.step s l = some s') (t : Tid) :
    s'.pc t = s.pc t ∨ (∃ c, p.call (s.pc t) c = some (s'.pc t)) ∨
      ∃ spurious ev, p.access s.chan spurious (s.pc t) = some (s'.chan, s'.pc t, ev) := by
  cases l with
  | call u c =>
    obtain ⟨pc, hpc, rfl⟩ := enter_eq_some hs
    by_cases htu : t = u
    · subst htu
      exact .inr (.inl ⟨c, by simpa only [Function.update_self] using hpc⟩)
    · exact .inl (Function.update_of_ne htu _ _)
  | run u spurious =>
    obtain ⟨ch, pc, ev, hrun, rfl⟩ := run_eq_some hs
    by_cases htu : t = u
    · subst htu
      exact .inr (.inr ⟨spurious, ev, by simpa only [Function.update_self] using hrun⟩)
    · exact .inl (Function.update_of_ne htu _ _)

/-- A property of the words that every access keeps is kept by every step. -/
theorem step_chan {Q : C → Prop}
    (hQ : ∀ ch spurious pc r, p.access ch spurious pc = some r → Q ch → Q r.1)
    {l : Move Tid K} (hs : p.step s l = some s') (hq : Q s.chan) : Q s'.chan := by
  cases l with
  | call u c =>
    obtain ⟨pc, -, rfl⟩ := enter_eq_some hs
    exact hq
  | run u spurious =>
    obtain ⟨ch, pc, ev, hrun, rfl⟩ := run_eq_some hs
    exact hQ _ _ _ _ hrun hq

/-- **Where a result comes from.** If a program counter is only reached by an access that is
    made inside the call, in a state where `Q` holds, then `Q` held at an instant since which
    the thread has not left the call. -/
theorem since {start : Threads Tid C P H} (e : (p.system start).Exec) {I : P → Prop}
    {Q : Threads Tid C P H → Prop} {q : P} {t : Tid} {j : Nat} (hj : j ≤ e.len)
    (hpc : (e.state j).pc t = q) (hin : I q) (hstart : start.pc t ≠ q)
    (hcall : ∀ pc c, p.call pc c ≠ some q)
    (hrun : ∀ s ch spurious ev, (p.system start).Reachable s →
      p.access s.chan spurious (s.pc t) = some (ch, q, ev) → Q s ∧ I (s.pc t)) :
    ∃ k ≤ j, Q (e.state k) ∧ ∀ m, k ≤ m → m ≤ j → I ((e.state m).pc t) := by
  refine e.since (I := fun s => I (s.pc t)) (P := Q) (Q := fun s => s.pc t = q) ?_ ?_ ?_ hj hpc
  · rintro s rfl
    exact hstart
  · intro s _ hs
    exact hs ▸ hin
  · intro s l s' hr hs hq
    rcases step_pc hs t with heq | ⟨c, hc⟩ | ⟨spurious, ev, haccess⟩
    · exact .inl (heq ▸ hq)
    · exact absurd (hq ▸ hc) (hcall _ _)
    · exact .inr (hrun s _ spurious ev hr (hq ▸ haccess))

end Program

end CrossbeamChannel.Lib
