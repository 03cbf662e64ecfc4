import Mathlib.Data.List.Induction
import Mathlib.Data.List.Perm.Basic

/-!
# Shuffling by swaps

A loop that swaps the `i`-th element of a list with one at or before it, for every `i`. The
position comes from a sequence of draws. Whatever is drawn, the elements stay the same; and if the
draws can hit every position, every order of the elements can come out.
-/

namespace CrossbeamChannel.Lib

variable {α G : Type}

/-- Swaps two elements, if both are there. -/
def swap (v : List α) (i j : Nat) : Option (List α) :=
  match v[i]?, v[j]? with
  | some x, some y => some ((v.set i y).set j x)
  | _, _ => none

/-- The swaps from position `i` on, one for each draw. -/
def swaps (pick : G → Nat → Nat) : Nat → List G → List α → Option (List α)
  | _, [], v => some v
  | i, x :: xs, v => (swap v i (pick x i)).bind fun v => swaps pick (i + 1) xs v

/-- A swap inside the list rearranges it. -/
theorem swap_perm {v : List α} {i j : Nat} (hi : i < v.length) (hj : j < v.length) :
    ∃ w, swap v i j = some w ∧ w.Perm v := by
  refine ⟨(v.set i v[j]).set j v[i], ?_, List.set_set_perm hi hj⟩
  simp only [swap, List.getElem?_eq_getElem hi, List.getElem?_eq_getElem hj]

/-- Swapping the element behind a list with one in it. -/
theorem swap_append (l m s : List α) (a b : α) :
    swap (l ++ b :: m ++ a :: s) (l ++ b :: m).length l.length = some (l ++ a :: m ++ b :: s) := by
  have hi : (l ++ b :: m ++ a :: s)[(l ++ b :: m).length]? = some a := by simp
  have hj : (l ++ b :: m ++ a :: s)[l.length]? = some b := by simp
  simp only [swap, hi, hj]
  simp

theorem swap_self (l s : List α) (a : α) :
    swap (l ++ a :: s) l.length l.length = some (l ++ a :: s) := by
  have hi : (l ++ a :: s)[l.length]? = some a := by simp
  simp only [swap, hi]
  simp

variable {pick : G → Nat → Nat}

/-- No swap leaves the list, and the elements stay the same. -/
theorem swaps_perm (hpick : ∀ x i, pick x i ≤ i) {i : Nat} {xs : List G} {v : List α}
    (hlen : i + xs.length ≤ v.length) : ∃ w, swaps pick i xs v = some w ∧ w.Perm v := by
  induction xs generalizing i v with
  | nil => exact ⟨v, rfl, .refl v⟩
  | cons x xs ih =>
    rw [List.length_cons] at hlen
    obtain ⟨v', hv', hperm⟩ := swap_perm (v := v) (i := i) (j := pick x i) (by omega)
      (Nat.lt_of_le_of_lt (hpick x i) (by omega))
    obtain ⟨w, hw, hperm'⟩ := ih (i := i + 1) (v := v') (by rw [hperm.length_eq]; omega)
    exact ⟨w, by rw [swaps, hv', Option.bind_some, hw], hperm'.trans hperm⟩

theorem swaps_append {i : Nat} {xs ys : List G} {v : List α} :
    swaps pick i (xs ++ ys) v = (swaps pick i xs v).bind (swaps pick (i + xs.length) ys) := by
  induction xs generalizing i v with
  | nil => rfl
  | cons x xs ih =>
    simp only [List.cons_append, swaps, Option.bind_assoc, List.length_cons, ih]
    simp only [Nat.add_assoc, Nat.add_comm 1]

/-- **Every order can come out**, if every position can be drawn; only such draws are needed. -/
theorem swaps_onto {P : G → Prop} (p : List α)
    (honto : ∀ i j, j ≤ i → i < p.length → ∃ x, P x ∧ pick x i = j) (s w : List α)
    (hw : w.Perm p) :
    ∃ xs : List G, xs.length = p.length - 1 ∧ (∀ x ∈ xs, P x) ∧
      swaps pick 1 xs (p ++ s) = some (w ++ s) := by
  induction p using List.reverseRecOn generalizing s w with
  | nil =>
    obtain rfl := hw.eq_nil
    exact ⟨[], rfl, by simp, rfl⟩
  | append_singleton p a ih =>
    cases hp : p with
    | nil =>
      subst hp
      obtain rfl := List.perm_singleton.mp hw
      exact ⟨[], rfl, by simp, rfl⟩
    | cons c p' =>
      rw [← hp]
      have hpos : 0 < p.length := by rw [hp]; exact Nat.succ_pos _
      have hlen : (p ++ [a]).length - 1 = p.length - 1 + 1 := by
        rw [List.length_append, List.length_singleton]
        omega
      -- The last swap brings `a` to its place, and what stood there to the end.
      have last : ∀ {w' : List α} {j : Nat}, w'.Perm p → j ≤ p.length →
          swap (w' ++ a :: s) p.length j = some (w ++ s) →
          ∃ xs : List G, xs.length = (p ++ [a]).length - 1 ∧ (∀ x ∈ xs, P x) ∧
            swaps pick 1 xs (p ++ [a] ++ s) = some (w ++ s) := by
        intro w' j hw' hj hswap
        obtain ⟨xs, hxs, hP, hrun⟩ := ih (fun i j hji hi => honto i j hji (by
          rw [List.length_append]
          omega)) (a :: s) w' hw'
        obtain ⟨x, hPx, hx⟩ := honto p.length j hj (by simp)
        refine ⟨xs ++ [x], by rw [hlen, List.length_append, hxs]; rfl, ?_, ?_⟩
        · exact List.forall_mem_append.mpr ⟨hP, List.forall_mem_singleton.mpr hPx⟩
        have hend : 1 + xs.length = p.length := by omega
        rw [swaps_append, List.append_assoc, List.singleton_append, hrun, Option.bind_some, hend,
          swaps, hx, hswap]
        rfl
      obtain ⟨l, m, rfl⟩ := List.append_of_mem (hw.symm.subset (by simp : a ∈ p ++ [a]))
      have hrest : (l ++ m).Perm p := by
        have hmid : (a :: (l ++ m)).Perm (a :: p) :=
          List.perm_middle.symm.trans (hw.trans (List.perm_append_singleton a p))
        exact hmid.cons_inv
      cases hm : m using List.reverseRecOn with
      | nil =>
        subst hm
        rw [List.append_nil] at hrest
        refine last hrest (Nat.le_refl _) ?_
        rw [← hrest.length_eq, swap_self, List.append_assoc]
        rfl
      | append_singleton m' b =>
        subst hm
        have hperm : (l ++ b :: m').Perm p := by
          refine List.Perm.trans ?_ hrest
          exact (List.perm_append_singleton b m').symm.append_left l
        refine last hperm (j := l.length) ?_ ?_
        · rw [← hperm.length_eq, List.length_append]
          omega
        · rw [← hperm.length_eq, swap_append]
          simp

end CrossbeamChannel.Lib
