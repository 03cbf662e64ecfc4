import CrossbeamChannel.Lib.Threads

/-!
# A thread that runs alone

The other threads have stopped, wherever they stand, and one thread goes on. `Alone` counts how
often it goes back to the top of its loop. `Alone.returns` is the rule for loops that have no
measure of their own: a bound on the turns that are left, which every turn uses up, and a measure
of the way to the end of the turn.
-/

namespace CrossbeamChannel.Lib.Program

variable {Tid C P K E H : Type} [DecidableEq Tid] {p : Program Tid C P K E H} {t : Tid}
  {restarts : Bool → P → P → Bool}

/-- Thread `t` alone gets from one state to another and goes back to the top of its loop `n`
    times. Only if `weak` accesses may fail at will. -/
inductive Alone (p : Program Tid C P K E H) (t : Tid) (restarts : Bool → P → P → Bool)
    (weak : Bool) : Threads Tid C P H → Nat → Threads Tid C P H → Prop where
  | refl {s : Threads Tid C P H} : Alone p t restarts weak s 0 s
  | step {s s₁ s' : Threads Tid C P H} {spurious : Bool} {n : Nat} (hweak : spurious = true → weak)
      (h : p.run s t spurious = some s₁) (rest : Alone p t restarts weak s₁ n s') :
      Alone p t restarts weak s ((restarts spurious (s.pc t) (s₁.pc t)).toNat + n) s'

section

variable (I : Threads Tid C P H → Prop) (left size : Threads Tid C P H → Nat) (Done : P → Prop)

/-- Every turn uses up one of the turns that are left. -/
theorem Alone.within {weak : Bool}
    (hstep : ∀ s spurious s₁, I s → p.run s t spurious = some s₁ →
      I s₁ ∧ (restarts spurious (s.pc t) (s₁.pc t)).toNat + left s₁ ≤ left s)
    {s s' : Threads Tid C P H} {n : Nat} (hrun : Alone p t restarts weak s n s') (h : I s) :
    I s' ∧ n + left s' ≤ left s := by
  induction hrun with
  | refl => exact ⟨h, by omega⟩
  | step _ hone _ ih =>
    obtain ⟨h₁, hle⟩ := hstep _ _ _ h hone
    obtain ⟨h', hle'⟩ := ih h₁
    exact ⟨h', by omega⟩

/-- **A thread that runs alone returns**, from wherever its accesses that failed at will have left
    it, and within the turns that were left. -/
theorem Alone.returns
    (hstep : ∀ s spurious s₁, I s → p.run s t spurious = some s₁ →
      I s₁ ∧ (restarts spurious (s.pc t) (s₁.pc t)).toNat + left s₁ ≤ left s)
    (hgo : ∀ s, I s → ¬ Done (s.pc t) → ∃ s₁, p.run s t false = some s₁ ∧ size s₁ < size s)
    {s s' : Threads Tid C P H} {n : Nat} (hrun : Alone p t restarts true s n s') (h : I s) :
    ∃ m s'', Alone p t restarts false s' m s'' ∧ Done (s''.pc t) ∧ n + m ≤ left s := by
  obtain ⟨h', hle⟩ := hrun.within I left hstep h
  have key : ∀ k s, size s < k → I s → ∃ m s'', Alone p t restarts false s m s'' ∧ Done (s''.pc t) := by
    intro k
    induction k with
    | zero => intro s hk; omega
    | succ k ih =>
      intro s hk hs
      by_cases hd : Done (s.pc t)
      · exact ⟨0, s, .refl, hd⟩
      · obtain ⟨s₁, hone, hlt⟩ := hgo s hs hd
        obtain ⟨m, s'', hrest, hdone⟩ := ih s₁ (by omega) (hstep _ _ _ hs hone).1
        exact ⟨_, s'', .step (fun hsp => absurd hsp (by simp)) hone hrest, hdone⟩
  obtain ⟨m, s'', hrest, hdone⟩ := key _ s' (Nat.lt_succ_self _) h'
  have hrest' := (hrest.within I left hstep h').2
  exact ⟨m, s'', hrest, hdone, by omega⟩

end

end CrossbeamChannel.Lib.Program
