import CrossbeamChannel.Lib.Swaps
import CrossbeamChannel.World.Frame
import Mathlib.Data.BitVec

/-!
# `shuffle` (`src/utils.rs`)

The Fisher-Yates loop `run_select` runs its handles through. The random words are those of the
32-bit Xorshift generator, whose state is a thread-local cell; the position to swap with is found
by a multiplication and a shift in place of a division.
-/

namespace CrossbeamChannel.Utils

open Lib

variable {α : Type}

/-- One round of Xorshift: the next state of the generator, which is also its output. -/
def xorshift (x : BitVec 32) : BitVec 32 :=
  let x := x ^^^ x <<< 13
  let x := x ^^^ x >>> 17
  x ^^^ x <<< 5

/-- `j`, for the word `x` and `n = i + 1`: `((x as u64).wrapping_mul(n as u64) >> 32) as u32`. -/
def pick (x : BitVec 32) (i : Nat) : Nat :=
  let n := BitVec.ofNat 64 (i + 1)
  (((x.setWidth 64 * n) >>> 32).setWidth 32).toNat

/-- `k` turns of the loop from `i` on, with the state of the generator. `none`: the swap panicked. -/
def shuffleLoop : Nat → Nat → List α → BitVec 32 → Option (List α × BitVec 32)
  | 0, _, v, rng => some (v, rng)
  | k + 1, i, v, rng =>
      let x := xorshift rng
      (swap v i (pick x i)).bind fun v => shuffleLoop k (i + 1) v x

/-- `shuffle`. There is no generator while the thread-local cell is gone, and then nothing moves. -/
def shuffle (v : List α) (rng : Option (BitVec 32)) : Option (List α × Option (BitVec 32)) :=
  if v.length ≤ 1 then some (v, rng)
  else match rng with
    | none => some (v, none)
    | some rng => (shuffleLoop (v.length - 1) 1 v rng).map fun (v, rng) => (v, some rng)

/-- The state of the generator on its first use. -/
def seed (random : BitVec 32) : BitVec 32 := random ||| 1

example : (shuffle [10, 20, 30, 40, 50] (some 1)).map Prod.fst = some [50, 10, 40, 20, 30] := by
  decide

/-! ## The generator

A word is not its own shift unless it is zero, so each of the three steps loses nothing.
-/

theorem eq_zero_of_shiftLeft {x : BitVec 32} {n : Nat} (hn : 0 < n) (h : x = x <<< n) : x = 0 := by
  have hbit : ∀ i, x.getLsbD i = false := by
    intro i
    induction i using Nat.strongRecOn with
    | ind i ih =>
      rw [h, BitVec.getLsbD_shiftLeft]
      by_cases hi : i < n
      · simp [hi]
      · rw [ih (i - n) (by omega), Bool.and_false]
  exact BitVec.eq_of_getLsbD_eq fun i _ => (hbit i).trans (by simp)

theorem eq_zero_of_ushiftRight {x : BitVec 32} {n : Nat} (hn : 0 < n) (h : x = x >>> n) :
    x = 0 := by
  have hval : x.toNat = x.toNat / 2 ^ n := by
    conv_lhs => rw [h, BitVec.toNat_ushiftRight, Nat.shiftRight_eq_div_pow]
  by_contra hx
  have hpos : 0 < x.toNat := Nat.pos_of_ne_zero fun h0 => hx (BitVec.eq_of_toNat_eq h0)
  have := Nat.div_lt_self hpos (Nat.one_lt_two_pow (n := n) (by omega))
  omega

/-- Adding a linear image that fixes zero only is injective. -/
theorem xor_injective {f : BitVec 32 → BitVec 32} (hf : ∀ x y, f (x ^^^ y) = f x ^^^ f y)
    (hfix : ∀ {x}, x = f x → x = 0) : Function.Injective fun x => x ^^^ f x := by
  intro x y h
  have hsum : (x ^^^ y) ^^^ f (x ^^^ y) = 0#32 :=
    calc (x ^^^ y) ^^^ f (x ^^^ y)
        = (x ^^^ f x) ^^^ (y ^^^ f y) := by rw [hf]; ac_rfl
      _ = 0#32 := BitVec.xor_eq_zero_iff.mpr h
  exact BitVec.xor_eq_zero_iff.mp (hfix (BitVec.xor_eq_zero_iff.mp hsum))

theorem shiftLeft_xor_injective {n : Nat} (hn : 0 < n) :
    Function.Injective fun x : BitVec 32 => x ^^^ x <<< n :=
  xor_injective (fun x y => BitVec.shiftLeft_xor_distrib x y n) (eq_zero_of_shiftLeft hn)

theorem ushiftRight_xor_injective {n : Nat} (hn : 0 < n) :
    Function.Injective fun x : BitVec 32 => x ^^^ x >>> n :=
  xor_injective (fun x y => BitVec.ushiftRight_xor_distrib x y n) (eq_zero_of_ushiftRight hn)

theorem xorshift_injective : Function.Injective xorshift :=
  (shiftLeft_xor_injective (by decide)).comp
    ((ushiftRight_xor_injective (by decide)).comp (shiftLeft_xor_injective (by decide)))

@[simp] theorem xorshift_zero : xorshift 0 = 0 := by decide

theorem xorshift_ne_zero {x : BitVec 32} (hx : x ≠ 0) : xorshift x ≠ 0 :=
  fun h => hx (xorshift_injective (h.trans xorshift_zero.symm))

/-- Every word but zero comes out of the generator in some state. -/
theorem xorshift_onto {y : BitVec 32} (hy : y ≠ 0) : ∃ x, x ≠ 0 ∧ xorshift x = y := by
  have : Finite (BitVec 32) := Finite.of_equiv _ BitVec.equivFin.symm.toEquiv
  obtain ⟨x, hx⟩ := Finite.surjective_of_injective xorshift_injective y
  refine ⟨x, ?_, hx⟩
  rintro rfl
  exact hy (hx.symm.trans xorshift_zero)

theorem seed_ne_zero (random : BitVec 32) : seed random ≠ 0 := by
  intro h
  have hbit := congrArg (·.getLsbD 0) h
  simp [seed] at hbit

/-! ## The position to swap with -/

theorem pick_eq (x : BitVec 32) (i : Nat) :
    pick x i = x.toNat * ((i + 1) % 2 ^ 64) % 2 ^ 64 / 2 ^ 32 % 2 ^ 32 := by
  have hx : x.toNat % 2 ^ 64 = x.toNat := Nat.mod_eq_of_lt (by omega)
  simp only [pick, BitVec.toNat_setWidth, BitVec.toNat_ushiftRight, BitVec.toNat_mul,
    BitVec.toNat_ofNat, Nat.shiftRight_eq_div_pow, hx]

/-- While the length fits a word, nothing wraps and nothing is cut off. -/
theorem pick_eq_div (x : BitVec 32) {i : Nat} (hi : i < 2 ^ 32) :
    pick x i = x.toNat * (i + 1) / 2 ^ 32 := by
  have hx : x.toNat < 2 ^ 32 := x.isLt
  have hmul : x.toNat * (i + 1) < 2 ^ 32 * 2 ^ 32 := Nat.mul_lt_mul_of_lt_of_le hx hi (by decide)
  rw [pick_eq, Nat.mod_eq_of_lt (by omega : i + 1 < 2 ^ 64),
    Nat.mod_eq_of_lt (by omega : x.toNat * (i + 1) < 2 ^ 64),
    Nat.mod_eq_of_lt (Nat.div_lt_of_lt_mul (by omega))]

/-- The position is at or before `i`, however long the slice is. -/
theorem pick_le (x : BitVec 32) (i : Nat) : pick x i ≤ i := by
  rcases Nat.lt_or_ge i (2 ^ 32) with hi | hi
  · rw [pick_eq_div x hi]
    have hlt : x.toNat * (i + 1) < 2 ^ 32 * (i + 1) :=
      Nat.mul_lt_mul_of_pos_right x.isLt (Nat.succ_pos i)
    exact Nat.lt_succ_iff.mp (Nat.div_lt_of_lt_mul hlt)
  · have hword : pick x i < 2 ^ 32 := BitVec.isLt _
    omega

/-- The words for the position `j` are those whose product lies in its window. -/
theorem pick_of_window {a i j : Nat} (hi : i < 2 ^ 32) (hj : j ≤ i)
    (hlow : j * 2 ^ 32 ≤ a * (i + 1)) (hhigh : a * (i + 1) < (j + 1) * 2 ^ 32) :
    a < 2 ^ 32 ∧ pick (BitVec.ofNat 32 a) i = j := by
  have ha : a < 2 ^ 32 := by
    refine Nat.lt_of_mul_lt_mul_right (a := i + 1) (Nat.lt_of_lt_of_le hhigh ?_)
    rw [Nat.mul_comm]
    exact Nat.mul_le_mul_left _ (Nat.succ_le_succ hj)
  refine ⟨ha, ?_⟩
  rw [pick_eq_div _ hi, BitVec.toNat_ofNat, Nat.mod_eq_of_lt ha]
  exact Nat.div_eq_of_lt_le hlow hhigh

theorem pick_onto {i j : Nat} (hi : i < 2 ^ 32) (hj : j ≤ i) : ∃ x, pick x i = j := by
  -- The first word of the window.
  let a := (j * 2 ^ 32 + i) / (i + 1)
  have hle : a * (i + 1) ≤ j * 2 ^ 32 + i := Nat.div_mul_le_self _ _
  have hlt : j * 2 ^ 32 + i < a * (i + 1) + (i + 1) := Nat.lt_div_mul_add (Nat.succ_pos i)
  exact ⟨_, (pick_of_window (a := a) hi hj (by omega) (by omega)).2⟩

/-- At the full length the position is the word itself, and only the zero word gives the first. -/
theorem pick_full (x : BitVec 32) : pick x (2 ^ 32 - 1) = x.toNat := by
  rw [pick_eq_div x (by decide)]
  exact Nat.mul_div_cancel _ (by decide)

/-- Below the full length, the zero word is not needed. -/
theorem pick_onto_ne_zero {i j : Nat} (hi : i + 1 < 2 ^ 32) (hj : j ≤ i) :
    ∃ x, x ≠ 0 ∧ pick x i = j := by
  let a := j * 2 ^ 32 / (i + 1) + 1
  have hle : j * 2 ^ 32 / (i + 1) * (i + 1) ≤ j * 2 ^ 32 := Nat.div_mul_le_self _ _
  have hlt : j * 2 ^ 32 < j * 2 ^ 32 / (i + 1) * (i + 1) + (i + 1) :=
    Nat.lt_div_mul_add (Nat.succ_pos i)
  have hmul : a * (i + 1) = j * 2 ^ 32 / (i + 1) * (i + 1) + (i + 1) := by
    rw [Nat.add_mul, Nat.one_mul]
  obtain ⟨ha, hpick⟩ := pick_of_window (a := a) (by omega) hj (by omega) (by omega)
  refine ⟨_, ?_, hpick⟩
  intro h
  have h0 := congrArg BitVec.toNat h
  rw [BitVec.toNat_ofNat, Nat.mod_eq_of_lt ha] at h0
  exact Nat.succ_ne_zero _ h0

/-! ## The loop -/

/-- The words the generator puts out from a state on. -/
def outputs : Nat → BitVec 32 → List (BitVec 32)
  | 0, _ => []
  | k + 1, rng => xorshift rng :: outputs k (xorshift rng)

@[simp] theorem length_outputs (k : Nat) (rng : BitVec 32) : (outputs k rng).length = k := by
  induction k generalizing rng with
  | zero => rfl
  | succ k ih => rw [outputs, List.length_cons, ih]

/-- The loop makes the swaps its words ask for. -/
theorem shuffleLoop_eq (k i : Nat) (v : List α) (rng : BitVec 32) :
    shuffleLoop k i v rng =
      (swaps pick i (outputs k rng) v).map fun w => (w, xorshift^[k] rng) := by
  induction k generalizing i v rng with
  | zero => rfl
  | succ k ih =>
    simp only [shuffleLoop, outputs, swaps, ih]
    rw [Option.map_bind]
    rfl

/-- A slice with fewer than two elements stays as it is, and so does the generator. -/
theorem shuffle_short {v : List α} (hv : v.length ≤ 1) (rng : Option (BitVec 32)) :
    shuffle v rng = some (v, rng) := if_pos hv

/-- Without the generator the slice stays as it is. -/
theorem shuffle_none (v : List α) : shuffle v none = some (v, none) := by
  rw [shuffle]
  exact ite_self _

theorem shuffle_some (v : List α) (rng : BitVec 32) :
    shuffle v (some rng) =
      (swaps pick 1 (outputs (v.length - 1) rng) v).map fun w =>
        (w, some (xorshift^[v.length - 1] rng)) := by
  by_cases hv : v.length ≤ 1
  · rw [shuffle_short hv, Nat.sub_eq_zero_of_le hv]
    rfl
  · rw [shuffle, if_neg hv, shuffleLoop_eq]
    exact Option.map_map _ _ _

theorem iterate_ne_zero {x : BitVec 32} (hx : x ≠ 0) (k : Nat) : xorshift^[k] x ≠ 0 := by
  induction k generalizing x with
  | zero => exact hx
  | succ k ih => exact ih (xorshift_ne_zero hx)

/-- Whatever the state of the generator, the elements come out in some order. -/
theorem shuffle_perm (v : List α) (rng : Option (BitVec 32)) :
    ∃ w rng', shuffle v rng = some (w, rng') ∧ w.Perm v := by
  cases rng with
  | none => exact ⟨v, .none, shuffle_none v, .refl v⟩
  | some x =>
    by_cases hv : v.length ≤ 1
    · exact ⟨v, some x, shuffle_short hv _, .refl v⟩
    · have hlen : 1 + (outputs (v.length - 1) x).length ≤ v.length := by
        rw [length_outputs]
        omega
      obtain ⟨w, hw, hperm⟩ := swaps_perm pick_le hlen
      exact ⟨w, _, by rw [shuffle_some, hw]; rfl, hperm⟩

/-- **`shuffle` is a safe permutation.** From any state of the generator but zero no swap leaves
the slice, the elements come out in some order, and no state or word on the way is zero. What comes
out is what the words of the generator lead to, swap by swap. Up to a length of `2 ^ 32` every order
comes out for some words; below it, for words of the generator. -/
theorem shuffle_is_a_safe_permutation (v : List α) (x : BitVec 32) (hx : x ≠ 0) :
    (∃ w y, shuffle v (some x) = some (w, some y) ∧ w.Perm v ∧ y ≠ 0) ∧
    shuffle v (some x) = (swaps pick 1 (outputs (v.length - 1) x) v).map
      (fun w => (w, some (xorshift^[v.length - 1] x))) ∧
    (∀ k, xorshift^[k] x ≠ 0 ∧ ∀ i, pick (xorshift^[k] x) i ≤ i) ∧
    (v.length ≤ 2 ^ 32 → ∀ w, w.Perm v → ∃ xs : List (BitVec 32),
      xs.length = v.length - 1 ∧ swaps pick 1 xs v = some w) ∧
    (v.length < 2 ^ 32 → ∀ w, w.Perm v → ∃ xs : List (BitVec 32),
      xs.length = v.length - 1 ∧ (∀ y ∈ xs, ∃ z, z ≠ 0 ∧ xorshift z = y) ∧
        swaps pick 1 xs v = some w) := by
  refine ⟨?_, shuffle_some v x, fun k => ⟨iterate_ne_zero hx k, pick_le _⟩, ?_, ?_⟩
  · obtain ⟨w, rng', hw, hperm⟩ := shuffle_perm v (some x)
    have hstate := hw
    rw [shuffle_some] at hstate
    obtain ⟨w', -, heq⟩ := Option.map_eq_some_iff.mp hstate
    obtain ⟨rfl, rfl⟩ := Prod.mk.inj heq
    exact ⟨_, _, hw, hperm, iterate_ne_zero hx _⟩
  · intro hlen w hw
    obtain ⟨xs, hxs, -, hrun⟩ := swaps_onto (P := fun _ => True) v (fun i j hj hi => by
      obtain ⟨y, hy⟩ := pick_onto (Nat.lt_of_lt_of_le hi hlen) hj
      exact ⟨y, trivial, hy⟩) [] w hw
    exact ⟨xs, hxs, by simpa only [List.append_nil] using hrun⟩
  · intro hlen w hw
    obtain ⟨xs, hxs, hP, hrun⟩ := swaps_onto (P := fun y => ∃ z, z ≠ 0 ∧ xorshift z = y) v
      (fun i j hj hi => by
        obtain ⟨y, hne, hy⟩ := pick_onto_ne_zero (by omega) hj
        exact ⟨y, xorshift_onto hne, hy⟩) [] w hw
    exact ⟨xs, hxs, hP, by simpa only [List.append_nil] using hrun⟩

/-- The handles of a select with three operations, shuffled by a fresh generator. -/
theorem shuffle_is_a_safe_permutation_three :
    seed 0 ≠ 0 ∧ ∃ w y, shuffle [10, 20, 30] (some (seed 0)) = some (w, some y) ∧
      w.Perm [10, 20, 30] ∧ y ≠ 0 :=
  ⟨by decide, (shuffle_is_a_safe_permutation [10, 20, 30] (seed 0) (by decide)).1⟩

/-! ## The shuffle of `run_select` -/

/-- What `shuffle` leaves the handles in is an order the select goes on with. -/
theorem shuffle_resumes {T Tid : Type} [DecidableEq Tid] (t : Tid) (handles : List Handle)
    (timeout : Timeout) (rng : Option (BitVec 32)) :
    ∃ order rng', shuffle handles rng = some (order, rng') ∧
      Frame.selectResume (T := T) t order handles timeout .shuffle .unit =
        some (.select order timeout (.attempt 0)) := by
  obtain ⟨order, rng', hrun, hperm⟩ := shuffle_perm handles rng
  exact ⟨order, rng', hrun, if_pos hperm⟩

end CrossbeamChannel.Utils
