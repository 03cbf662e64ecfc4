import Mathlib.Logic.Function.Basic

/-!
# Tickets: who has to finish what

Positions are handed out one by one and pass through stages. In some stages a position has
an *owner*, the one thread that must move it on, and that thread holds a *ticket* with the
number of the position. `Tickets` says that both sides agree: what a thread believes it
holds (`held`) is what its position shows, and a position in an owner's hands is held.

The rules are the things a step can do: leave the positions alone (`Tickets.keep`), or move
one position on (`Tickets.move`, `Tickets.advance`).
-/

namespace CrossbeamChannel.Lib

variable {Tid St : Type}

/-- Threads and positions agree on who holds what. -/
structure Tickets (owner : St → Option Tid) (stage : Nat → St) (ticket : Tid → Nat)
    (held : Tid → Option St) : Prop where
  /-- A thread finds its position where it left it. -/
  own : ∀ t st, held t = some st → stage (ticket t) = st
  /-- An owned position is held by its owner. -/
  owned : ∀ k t, owner (stage k) = some t → ticket t = k ∧ held t = some (stage k)
  /-- A thread only holds what is its own. -/
  proper : ∀ t st, held t = some st → owner st = some t

namespace Tickets

variable {owner : St → Option Tid} {stage : Nat → St} {ticket ticket' : Tid → Nat}
  {held held' : Tid → Option St}

/-- The position a thread holds is in the stage it believes, and the thread owns it. -/
theorem held_owner (h : Tickets owner stage ticket held) {t : Tid} {st : St}
    (ht : held t = some st) :
    stage (ticket t) = st ∧ owner (stage (ticket t)) = some t := by
  have hst := h.own t st ht
  exact ⟨hst, hst ▸ h.proper t st ht⟩

/-- Only a thread that holds nothing may get another ticket. -/
theorem keep (h : Tickets owner stage ticket held) (hheld : ∀ u, held' u = held u)
    (htick : ∀ u, held u ≠ none → ticket' u = ticket u) :
    Tickets owner stage ticket' held' where
  own := by
    intro t st ht
    rw [hheld] at ht
    rw [htick t (by simp [ht])]
    exact h.own t st ht
  owned := by
    intro k t hk
    obtain ⟨htk, hst⟩ := h.owned k t hk
    exact ⟨(htick t (by simp [hst])).trans htk, (hheld t).trans hst⟩
  proper := by
    intro t st ht
    exact h.proper t st ((hheld t).symm.trans ht)

/-- A position in somebody's hands is held by exactly one thread. -/
theorem holder (h : Tickets owner stage ticket held) {k : Nat} {t : Tid} {st : Tid → St}
    (hst : ∀ u, owner (st u) = some u) (hk : stage k = st t) :
    ∃! u, ticket u = k ∧ held u = some (st u) := by
  have how : owner (stage k) = some t := by rw [hk, hst]
  obtain ⟨htk, hheld⟩ := h.owned k t how
  refine ⟨t, ⟨htk, by rw [hheld, hk]⟩, ?_⟩
  rintro u ⟨huk, hu⟩
  have hown := h.own u _ hu
  rw [huk] at hown
  rw [hown, hst] at how
  exact Option.some.inj how

/-- Two threads never hold the same position. -/
theorem inj (h : Tickets owner stage ticket held) {t u : Tid} {st st' : St}
    (ht : held t = some st) (hu : held u = some st') (heq : ticket t = ticket u) : t = u := by
  have h1 := (h.held_owner ht).2
  have h2 := (h.held_owner hu).2
  rw [heq, h2] at h1
  exact (Option.some.inj h1).symm

variable [DecidableEq Tid]

/-- **One position moves on**, from the hands of `t` or from nobody's, into the hands of `t`
    or nobody's. -/
theorem move (h : Tickets owner stage ticket held) {t : Tid} {k : Nat} {st : St}
    (hheld : ∀ u, u ≠ t → held' u = held u)
    (hold : (owner (stage k) = some t ∧ ticket t = k) ∨ (owner (stage k) = none ∧ held t = none))
    (hnew : (owner st = some t ∧ held' t = some st) ∨ (owner st = none ∧ held' t = none)) :
    Tickets owner (Function.update stage k st) (Function.update ticket t k) held' where
  own := by
    intro u st' hu
    by_cases hut : u = t
    · subst hut
      rw [Function.update_self, Function.update_self]
      rcases hnew with ⟨-, hn⟩ | ⟨-, hn⟩ <;> rw [hn] at hu
      · exact Option.some.inj hu
      · exact absurd hu (by simp)
    · rw [hheld u hut] at hu
      obtain ⟨hst, how⟩ := h.held_owner hu
      have hne : ticket u ≠ k := by
        rintro rfl
        rcases hold with ⟨ho, -⟩ | ⟨ho, -⟩ <;> rw [how] at ho
        · exact hut (Option.some.inj ho)
        · exact absurd ho (by simp)
      rw [Function.update_of_ne hut, Function.update_of_ne hne]
      exact hst
  owned := by
    intro j u hj
    by_cases hjk : j = k
    · subst hjk
      rw [Function.update_self] at hj ⊢
      rcases hnew with ⟨hn, hp⟩ | ⟨hn, -⟩ <;> rw [hn] at hj
      · obtain rfl := Option.some.inj hj
        exact ⟨Function.update_self _ _ _, hp⟩
      · exact absurd hj (by simp)
    · rw [Function.update_of_ne hjk] at hj ⊢
      obtain ⟨htk, hst⟩ := h.owned j u hj
      have hut : u ≠ t := by
        rintro rfl
        rcases hold with ⟨-, ho⟩ | ⟨-, ho⟩
        · exact hjk (htk.symm.trans ho)
        · rw [ho] at hst
          exact absurd hst (by simp)
      rw [Function.update_of_ne hut]
      exact ⟨htk, (hheld u hut).trans hst⟩
  proper := by
    intro u st' hu
    by_cases hut : u = t
    · subst hut
      rcases hnew with ⟨ho, hn⟩ | ⟨-, hn⟩ <;> rw [hn] at hu
      · exact Option.some.inj hu ▸ ho
      · exact absurd hu (by simp)
    · exact h.proper u st' ((hheld u hut).symm.trans hu)

/-- The holder of a position moves it on and keeps its ticket. -/
theorem advance (h : Tickets owner stage ticket held) {t : Tid} {st : St}
    (hheld : ∀ u, u ≠ t → held' u = held u) (hold : owner (stage (ticket t)) = some t)
    (hnew : (owner st = some t ∧ held' t = some st) ∨ (owner st = none ∧ held' t = none)) :
    Tickets owner (Function.update stage (ticket t) st) ticket held' := by
  have hmove := h.move hheld (.inl ⟨hold, rfl⟩) hnew
  rwa [Function.update_eq_self] at hmove

end Tickets

end CrossbeamChannel.Lib
