import Mathlib.Data.Set.Card

/-!
# Units of work, and who is on them

`Covered n s`: for each of `n` units of work there is a member of `s` of its own. The rules say
how this is kept while units come and go and the members take turns: a member that leaves takes
a unit with it, or sees to it that another one joins; whoever brings a unit joins.
-/

namespace CrossbeamChannel.Lib

variable {α : Type}

/-- There are as many members of `s` as there are units. -/
def Covered (n : Nat) (s : Set α) : Prop := (n : ENat) ≤ s.encard

namespace Covered

variable {n : Nat} {s t : Set α} {a b : α}

theorem zero (s : Set α) : Covered 0 s := by
  simp [Covered]

theorem mono (h : Covered n s) (hst : s ⊆ t) : Covered n t :=
  le_trans h (Set.encard_le_encard hst)

/-- One member may leave when a unit goes. -/
theorem spend (h : Covered (n + 1) s) (hst : ∀ x ∈ s, x ≠ a → x ∈ t) : Covered n t := by
  have hsub : s \ {a} ⊆ t := by
    intro x hx
    exact hst x hx.1 hx.2
  have hle : (n : ENat) ≤ (s \ {a}).encard := by
    calc (n : ENat) = ((n + 1 : Nat) : ENat) - 1 := by norm_cast
      _ ≤ s.encard - 1 := tsub_le_tsub_right h 1
      _ ≤ (s \ {a}).encard := Set.encard_tsub_one_le_encard_sdiff_singleton s a
  exact mono hle hsub

/-- Who brings a unit joins. -/
theorem earn (h : Covered n s) (hst : s ⊆ t) (hs : a ∉ s) (ht : a ∈ t) : Covered (n + 1) t := by
  have hins : Covered (n + 1) (insert a s) := by
    simp only [Covered, Set.encard_insert_of_notMem hs, Nat.cast_add, Nat.cast_one]
    gcongr
    exact h
  exact hins.mono (Set.insert_subset ht hst)

/-- One member leaves, and another one joins. -/
theorem pass (h : Covered n s) (hst : ∀ x ∈ s, x ≠ a → x ∈ t) (hs : b ∉ s) (ht : b ∈ t) :
    Covered n t := by
  cases n with
  | zero => exact .zero t
  | succ n =>
    have hrest : Covered n (s \ {a}) := h.spend (a := a) fun x hx hxa => ⟨hx, hxa⟩
    exact hrest.earn (fun x hx => hst x hx.1 hx.2) (fun hb => hs hb.1) ht

/-- With nobody on the work there is none. -/
theorem eq_zero (h : Covered n s) (hs : ∀ x, x ∉ s) : n = 0 := by
  rw [Covered, Set.eq_empty_of_forall_notMem hs] at h
  simpa using h

end Covered

end CrossbeamChannel.Lib
