import CrossbeamChannel.Flavors.ArrayStamp
import Mathlib.Tactic.SplitIfs

/-!
# Wrapping stamps of the array flavor

With `w`-bit words, the stamps of `CrossbeamChannel.Flavors.ArrayStamp` are known modulo
`2 ^ w` only. `with_capacity` leaves two bits for laps, so a word holds at least four laps,
and the stamps the code compares are never as far apart as that: they are equal modulo
`2 ^ w` only if they are equal (`Channel.Wrapping.near`).
-/

namespace CrossbeamChannel.ArrayFlavor

variable {T : Type}

/-- What every channel made by `with_capacity` with `w`-bit words is. -/
structure Channel.Wrapping (ch : Channel T) (w : Nat) : Prop where
  pos : 0 < ch.cap
  le : ch.cap ≤ ch.oneLap
  laps : ∃ e, ch.oneLap = 2 ^ e ∧ e + 2 ≤ w
  wrap : ch.wrap = some (2 ^ w)

theorem wrapping_withCapacity {w cap : Nat} {ch : Channel T}
    (h : Channel.withCapacity (2 ^ w - 1) (some (2 ^ w)) cap = some ch) : ch.Wrapping w := by
  unfold Channel.withCapacity at h
  split at h
  · split at h
    · rename_i hpos hlim
      obtain rfl := Option.some.inj h
      refine ⟨hpos, le_nextPowerOfTwo cap, ?_, rfl⟩
      obtain ⟨e, he⟩ := nextPowerOfTwo_pow cap
      refine ⟨e, he, ?_⟩
      -- The capacity is below `2 ^ (w - 2)`, and so is the power of two above it.
      have hw : 2 ≤ w := by
        by_contra hlt
        obtain rfl | rfl : w = 0 ∨ w = 1 := by omega
        · omega
        · omega
      have hsplit : 2 ^ w = 4 * 2 ^ (w - 2) := by
        rw [show 4 = 2 ^ 2 from rfl, ← Nat.pow_add, Nat.add_sub_cancel' hw]
      have hle := nextPowerOfTwo_le (n := cap) (e := w - 2) (by omega)
      rw [he] at hle
      have := (Nat.pow_le_pow_iff_right (by omega : 1 < 2)).mp hle
      omega
    · exact absurd h (by simp)
  · exact absurd h (by simp)

section

variable {cap L : Nat}

theorem tailStamp_add_cap (hc : 0 < cap) (j : Nat) :
    tailStamp cap L (j + cap) = tailStamp cap L j + 2 * L := by
  rw [← headStamp_add hc, ← tailStamp_add]
  omega

theorem tailStamp_succ_le (hc : 0 < cap) (hl : cap ≤ L) (j : Nat) :
    tailStamp cap L j ≤ tailStamp cap L (j + 1) := by
  have hj := Nat.div_add_mod j cap
  have hlt := Nat.mod_lt j hc
  unfold tailStamp pack
  by_cases h : j % cap + 1 < cap
  · have hd : (j + 1) / cap = j / cap := by
      rw [← hj, Nat.add_assoc, Nat.mul_add_div hc, Nat.mul_add_div hc, Nat.div_eq_of_lt h,
        Nat.div_eq_of_lt hlt]
    have hm : (j + 1) % cap = j % cap + 1 := by
      rw [← hj, Nat.add_assoc, Nat.mul_add_mod, Nat.mod_eq_of_lt h, hj]
    rw [hd, hm]
    omega
  · have hd : (j + 1) / cap = j / cap + 1 := by
      have hj1 : j + 1 = cap * (j / cap + 1) := by
        rw [Nat.mul_add, Nat.mul_one]
        omega
      rw [hj1, Nat.mul_div_cancel_left _ hc]
    rw [hd, Nat.mul_add, Nat.add_mul]
    omega

theorem tailStamp_le (hc : 0 < cap) (hl : cap ≤ L) (j n : Nat) :
    tailStamp cap L j ≤ tailStamp cap L (j + n) := by
  induction n with
  | zero => exact Nat.le_refl _
  | succ n ih => exact Nat.le_trans ih (tailStamp_succ_le hc hl (j + n))

/-- The tail stamps of one round are less than two laps apart. -/
theorem tailStamp_within (hc : 0 < cap) (hl : cap ≤ L) {r n : Nat} (hn : n ≤ cap) :
    tailStamp cap L (r + n) ≤ tailStamp cap L r + 2 * L := by
  have h := tailStamp_le hc hl (r + n) (cap - n)
  rw [show r + n + (cap - n) = r + cap by omega, tailStamp_add_cap hc] at h
  exact h

end

namespace Channel.Wrapping

variable {ch : Channel T} {w : Nat} (g : ch.Wrapping w)
include g

theorem four_laps : 4 * ch.oneLap ≤ 2 ^ w := by
  obtain ⟨e, he, hw⟩ := g.laps
  rw [he, show 4 = 2 ^ 2 from rfl, ← Nat.pow_add]
  exact Nat.pow_le_pow_right (by omega) (by omega)

theorem lap_pos : 0 < ch.oneLap := Nat.lt_of_lt_of_le g.pos g.le

theorem wrappingAdd_mod (a b : Nat) : ch.wrappingAdd (a % 2 ^ w) b = (a + b) % 2 ^ w := by
  simp [Channel.wrappingAdd, g.wrap]

omit g in
/-- Words that are less than a full wrap apart are equal only if the stamps are. -/
theorem near {x y : Nat} (hle : x ≤ y) (hlt : y < x + 2 ^ w) : x % 2 ^ w = y % 2 ^ w ↔ x = y := by
  constructor
  · intro h
    have hzero := Nat.sub_mod_eq_zero_of_mod_eq h.symm
    rw [Nat.mod_eq_of_lt (by omega)] at hzero
    omega
  · rintro rfl
    rfl

/-- The index of a word is that of the stamp. -/
theorem index_mod (x : Nat) : ch.index (x % 2 ^ w) = x % ch.oneLap := by
  obtain ⟨e, he, hw⟩ := g.laps
  unfold Channel.index
  rw [he, Nat.and_two_pow_sub_one_eq_mod, Nat.mod_mod_of_dvd]
  exact Nat.pow_dvd_pow 2 (by omega)

omit g in
theorem pack_mod {a i : Nat} (hi : i < ch.oneLap) : pack ch.oneLap a i % ch.oneLap = i := by
  unfold pack
  rw [Nat.mul_add_mod', Nat.mod_eq_of_lt hi]

theorem index_tail (k : Nat) : ch.index (tailStamp ch.cap ch.oneLap k % 2 ^ w) = k % ch.cap := by
  rw [g.index_mod]
  exact pack_mod (mod_cap_lt g.pos g.le k)

theorem index_head (k : Nat) : ch.index (headStamp ch.cap ch.oneLap k % 2 ^ w) = k % ch.cap := by
  rw [g.index_mod]
  exact pack_mod (mod_cap_lt g.pos g.le k)

/-- The number of a lap keeps its parity when it wraps. -/
theorem lap_parity (a : Nat) {i : Nat} (hi : i < ch.oneLap) :
    pack ch.oneLap a i % 2 ^ w / ch.oneLap % 2 = a % 2 := by
  obtain ⟨e, he, hw⟩ := g.laps
  have hsplit : 2 ^ w = ch.oneLap * 2 ^ (w - e) := by
    rw [he, ← Nat.pow_add, Nat.add_sub_cancel' (by omega)]
  have hdiv : pack ch.oneLap a i / ch.oneLap = a := by
    unfold pack
    rw [Nat.mul_comm, Nat.mul_add_div g.lap_pos, Nat.div_eq_of_lt hi, Nat.add_zero]
  rw [hsplit, Nat.mod_mul_right_div_self, hdiv]
  exact Nat.mod_mod_of_dvd _ (dvd_pow_self 2 (by omega))

/-- A word that is not at the last index of the buffer can be incremented. -/
theorem succ_lt {x : Nat} (h : ch.index (x % 2 ^ w) + 1 < ch.cap) : x % 2 ^ w + 1 < 2 ^ w := by
  obtain ⟨e, he, hw⟩ := g.laps
  have hsplit : 2 ^ w = ch.oneLap * 2 ^ (w - e) := by
    rw [he, ← Nat.pow_add, Nat.add_sub_cancel' (by omega)]
  have hindex : x % 2 ^ w % ch.oneLap = ch.index (x % 2 ^ w) := by
    rw [g.index_mod, he]
    exact Nat.mod_mod_of_dvd _ (Nat.pow_dvd_pow 2 (by omega))
  have hle := g.le
  have hlap : x % 2 ^ w / ch.oneLap < 2 ^ (w - e) := by
    rw [Nat.div_lt_iff_lt_mul g.lap_pos, Nat.mul_comm, ← hsplit]
    exact Nat.mod_lt x (Nat.two_pow_pos w)
  -- The next lap begins above the word.
  calc x % 2 ^ w + 1
      = ch.oneLap * (x % 2 ^ w / ch.oneLap) + (x % 2 ^ w % ch.oneLap + 1) := by
        rw [← Nat.add_assoc, Nat.div_add_mod]
    _ < ch.oneLap * (x % 2 ^ w / ch.oneLap + 1) := by
        rw [Nat.mul_succ, hindex]
        omega
    _ ≤ ch.oneLap * 2 ^ (w - e) := Nat.mul_le_mul_left _ hlap
    _ = 2 ^ w := hsplit.symm

/-- The next word is the next stamp. -/
theorem advance_mod (x : Nat) :
    ch.advance (x % 2 ^ w) = Channel.advance { ch with wrap := none } x % 2 ^ w := by
  have hindex : Channel.index { ch with wrap := none } x = ch.index (x % 2 ^ w) := by
    obtain ⟨e, he, -⟩ := g.laps
    rw [g.index_mod]
    unfold Channel.index
    rw [he, Nat.and_two_pow_sub_one_eq_mod]
  unfold Channel.advance
  rw [hindex]
  split
  · rw [← Nat.mod_add_mod, Nat.mod_eq_of_lt (g.succ_lt ‹_›)]
  · have hle : ch.index (x % 2 ^ w) ≤ x % 2 ^ w := by
      unfold Channel.index
      exact Nat.and_le_left
    have hlap : Channel.lap { ch with wrap := none } x =
        2 ^ w * (x / 2 ^ w) + ch.lap (x % 2 ^ w) := by
      unfold Channel.lap
      rw [hindex, ← Nat.add_sub_assoc hle, Nat.div_add_mod]
    rw [hlap]
    simp [Channel.wrappingAdd, Channel.wrappingMul, g.wrap, Nat.add_assoc]

theorem advance_tail (k : Nat) : ch.advance (tailStamp ch.cap ch.oneLap k % 2 ^ w) =
    tailStamp ch.cap ch.oneLap (k + 1) % 2 ^ w := by
  have hflat : Channel.Geometry { ch with wrap := none } :=
    ⟨g.pos, g.le, g.laps.imp fun e he => he.1, rfl⟩
  rw [g.advance_mod]
  exact congrArg (· % 2 ^ w) (hflat.advance_tailStamp k)

theorem advance_head (k : Nat) : ch.advance (headStamp ch.cap ch.oneLap k % 2 ^ w) =
    headStamp ch.cap ch.oneLap (k + 1) % 2 ^ w := by
  have hflat : Channel.Geometry { ch with wrap := none } :=
    ⟨g.pos, g.le, g.laps.imp fun e he => he.1, rfl⟩
  rw [g.advance_mod]
  exact congrArg (· % 2 ^ w) (hflat.advance_headStamp k)

/-! ## Comparisons -/

variable {r n : Nat}

/-- A slot that is free for position `r` does not look filled, and a filled one not free. -/
theorem tail_ne_head (r : Nat) : tailStamp ch.cap ch.oneLap r % 2 ^ w ≠
    headStamp ch.cap ch.oneLap r % 2 ^ w := by
  have hfour := g.four_laps
  have hpos := g.lap_pos
  rw [Ne, ← tailStamp_add, near (Nat.le_add_right _ _) (by omega)]
  omega

/-- A filled slot does not look free for the next round. -/
theorem head_ne_tail (r : Nat) : headStamp ch.cap ch.oneLap r % 2 ^ w ≠
    tailStamp ch.cap ch.oneLap (r + ch.cap) % 2 ^ w := by
  have hfour := g.four_laps
  have hpos := g.lap_pos
  rw [Ne, ← headStamp_add g.pos, near (Nat.le_add_right _ _) (by omega)]
  omega

/-- "The tail lags one lap behind the head": the channel is empty. -/
theorem empty_iff (hn : n ≤ ch.cap) :
    (tailStamp ch.cap ch.oneLap (r + n) + ch.oneLap) % 2 ^ w =
      headStamp ch.cap ch.oneLap r % 2 ^ w ↔ n = 0 := by
  have hfour := g.four_laps
  have hpos := g.lap_pos
  have hlow := tailStamp_le g.pos g.le (L := ch.oneLap) r n
  have hhigh := tailStamp_within g.pos g.le (L := ch.oneLap) (r := r) hn
  rw [← tailStamp_add, eq_comm, near (by omega) (by omega), Nat.add_right_cancel_iff,
    tailStamp_inj g.pos g.le]
  omega

/-- "The head lags one lap behind the tail": the channel is full. -/
theorem full_iff (hn : n ≤ ch.cap) :
    (headStamp ch.cap ch.oneLap r + ch.oneLap) % 2 ^ w =
      tailStamp ch.cap ch.oneLap (r + n) % 2 ^ w ↔ n = ch.cap := by
  have hfour := g.four_laps
  have hpos := g.lap_pos
  have hlow := tailStamp_le g.pos g.le (L := ch.oneLap) r n
  have hhigh := tailStamp_within g.pos g.le (L := ch.oneLap) (r := r) hn
  have hcap := tailStamp_add_cap (L := ch.oneLap) g.pos r
  rw [headStamp_add g.pos, eq_comm, near (by omega) (by omega), tailStamp_inj g.pos g.le]
  omega

/-- The distance between two words. -/
theorem lenOf_eq (hn : n ≤ ch.cap) :
    ch.lenOf (tailStamp ch.cap ch.oneLap (r + n) % 2 ^ w) (headStamp ch.cap ch.oneLap r % 2 ^ w) = n := by
  have hr := Nat.mod_lt r g.pos
  have hempty := g.empty_iff (r := r) hn
  have hmod := add_mod_cap g.pos (r := r) hn
  unfold Channel.lenOf
  rw [g.index_tail, g.index_head, g.wrappingAdd_mod, hmod]
  simp only [hempty]
  split_ifs <;> omega

end Channel.Wrapping

end CrossbeamChannel.ArrayFlavor
