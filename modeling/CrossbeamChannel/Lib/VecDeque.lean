import Mathlib.Data.List.Basic

/-!
# A growing queue

A sequence of elements in an allocation that has room for at least as many. How much room an
allocation really has is up to the allocator.
-/

namespace CrossbeamChannel.Lib

/-- The room an allocation gets that is asked to hold so many elements: at least as much. -/
abbrev Room := { room : Nat → Nat // ∀ n, n ≤ room n }

structure VecDeque (α : Type) where
  items : List α
  capacity : Nat
  fits : items.length ≤ capacity

namespace VecDeque

variable {α : Type}

def new : VecDeque α := ⟨[], 0, Nat.le_refl _⟩

def withCapacity (room : Room) (n : Nat) : VecDeque α := ⟨[], room.1 n, Nat.zero_le _⟩

/-- Adds an element at the end, in a larger allocation if there is no room in this one. -/
def pushBack (room : Room) (d : VecDeque α) (x : α) : VecDeque α where
  items := d.items ++ [x]
  capacity := if d.items.length < d.capacity then d.capacity else room.1 (d.capacity + 1)
  fits := by
    rw [List.length_append, List.length_singleton]
    have hfits := d.fits
    have hroom := room.2 (d.capacity + 1)
    split <;> omega

def extend (room : Room) (d : VecDeque α) (xs : List α) : VecDeque α := xs.foldl (pushBack room) d

/-- Takes out the element at an index, if there is one. -/
def remove (d : VecDeque α) (i : Nat) : Option α × VecDeque α :=
  (d.items[i]?, ⟨d.items.eraseIdx i, d.capacity, Nat.le_trans (List.length_eraseIdx_le _ _) d.fits⟩)

@[simp] theorem items_pushBack (room : Room) (d : VecDeque α) (x : α) :
    (d.pushBack room x).items = d.items ++ [x] := rfl

@[simp] theorem items_extend (room : Room) (d : VecDeque α) (xs : List α) :
    (d.extend room xs).items = d.items ++ xs := by
  induction xs generalizing d with
  | nil => exact (List.append_nil _).symm
  | cons x xs ih =>
    rw [extend, List.foldl_cons]
    exact (ih _).trans (List.append_assoc _ _ _)

@[simp] theorem items_remove (d : VecDeque α) (i : Nat) :
    (d.remove i).2.items = d.items.eraseIdx i := rfl

/-- Taking an element out of the middle. -/
theorem remove_middle {d : VecDeque α} {l r : List α} {x : α} (h : d.items = l ++ x :: r) :
    (d.remove l.length).1 = some x ∧ (d.remove l.length).2.items = l ++ r := by
  constructor
  · simp [remove, h]
  · rw [items_remove, h, List.eraseIdx_append_of_length_le (Nat.le_refl _), Nat.sub_self,
      List.eraseIdx_cons_zero]

end VecDeque

end CrossbeamChannel.Lib
