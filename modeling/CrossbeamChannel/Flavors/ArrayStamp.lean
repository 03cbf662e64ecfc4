import CrossbeamChannel.Flavors.Array
import Mathlib.Tactic.Ring
import Mathlib.Data.Nat.Log

/-!
# Stamps of the array flavor

A stamp packs a lap and an index into one number. The `k`-th position of the channel is
pushed when the tail is `tailStamp k` (an even lap) and popped when the head is
`headStamp k` (the odd lap above it). Everything the code computes from stamps is read off
here once: `index`, `advance`, and the three comparisons that tell *free*, *filled*, *full*
and *empty* apart. All of it is for unbounded counters; every capacity is covered, power of
two or not.
-/

namespace CrossbeamChannel.ArrayFlavor

variable {T : Type}

theorem nextPowerOfTwo_pow (n : Nat) : ∃ e, nextPowerOfTwo n = 2 ^ e := by
  unfold nextPowerOfTwo
  split
  · exact ⟨0, rfl⟩
  · exact ⟨_, rfl⟩

theorem le_nextPowerOfTwo (n : Nat) : n ≤ nextPowerOfTwo n := by
  unfold nextPowerOfTwo
  split
  · assumption
  · have h := Nat.lt_log2_self (n := n - 1)
    omega

/-- `next_power_of_two` is the *smallest* such power. -/
theorem nextPowerOfTwo_le {n e : Nat} (h : n ≤ 2 ^ e) : nextPowerOfTwo n ≤ 2 ^ e := by
  unfold nextPowerOfTwo
  split
  · exact Nat.one_le_two_pow
  · rename_i hn
    apply Nat.pow_le_pow_right (by omega)
    have : (n - 1).log2 < e := (Nat.log2_lt (by omega)).mpr (by omega)
    omega

/-- A lap and an index, packed. -/
def pack (oneLap lap index : Nat) : Nat := lap * oneLap + index

theorem pack_inj {L a b i j : Nat} (hi : i < L) (hj : j < L) :
    pack L a i = pack L b j ↔ a = b ∧ i = j := by
  unfold pack
  constructor
  · intro h
    have hmod := congrArg (· % L) h
    have hdiv := congrArg (· / L) h
    have hL : 0 < L := by omega
    simp only [Nat.mul_add_mod', Nat.mod_eq_of_lt hi, Nat.mod_eq_of_lt hj] at hmod
    rw [Nat.mul_comm a, Nat.mul_comm b] at hdiv
    simp only [Nat.mul_add_div hL, Nat.div_eq_of_lt hi, Nat.div_eq_of_lt hj] at hdiv
    exact ⟨by omega, hmod⟩
  · rintro ⟨rfl, rfl⟩
    rfl

theorem pack_succ_lap (L a i : Nat) : pack L a i + L = pack L (a + 1) i := by
  unfold pack
  ring

/-- The stamp at which position `k` is pushed. -/
def tailStamp (cap oneLap k : Nat) : Nat := pack oneLap (2 * (k / cap)) (k % cap)

/-- The stamp at which position `k` is popped. -/
def headStamp (cap oneLap k : Nat) : Nat := pack oneLap (2 * (k / cap) + 1) (k % cap)

/-- What every channel made by `with_capacity` with unbounded counters is: the capacity is
    positive and fits one lap, and one lap is a power of two. -/
structure Channel.Geometry (ch : Channel T) : Prop where
  pos : 0 < ch.cap
  le : ch.cap ≤ ch.oneLap
  pow : ∃ e, ch.oneLap = 2 ^ e
  wrap : ch.wrap = none

theorem geometry_withCapacity {maxValue cap : Nat} {ch : Channel T}
    (h : Channel.withCapacity maxValue none cap = some ch) : ch.Geometry := by
  unfold Channel.withCapacity at h
  split at h
  · split at h
    · obtain rfl := Option.some.inj h
      exact ⟨by assumption, le_nextPowerOfTwo cap, nextPowerOfTwo_pow cap, rfl⟩
    · exact absurd h (by simp)
  · exact absurd h (by simp)

section

variable {cap L : Nat}

theorem tailStamp_add (j : Nat) : tailStamp cap L j + L = headStamp cap L j :=
  pack_succ_lap L _ _

theorem headStamp_add (hc : 0 < cap) (j : Nat) :
    headStamp cap L j + L = tailStamp cap L (j + cap) := by
  unfold headStamp tailStamp
  rw [pack_succ_lap, Nat.add_div_right _ hc, Nat.add_mod_right]
  rfl

theorem mod_cap_lt (hc : 0 < cap) (hl : cap ≤ L) (k : Nat) : k % cap < L :=
  Nat.lt_of_lt_of_le (Nat.mod_lt _ hc) hl

/-- The index of a position at most one round further on. -/
theorem add_mod_cap (hc : 0 < cap) {r n : Nat} (hn : n ≤ cap) :
    (r + n) % cap = if r % cap + n < cap then r % cap + n else r % cap + n - cap := by
  have hr := Nat.mod_lt r hc
  rw [← Nat.mod_add_mod]
  split
  · exact Nat.mod_eq_of_lt ‹_›
  · rw [Nat.mod_eq_sub_mod (Nat.le_of_not_lt ‹_›), Nat.mod_eq_of_lt (by omega)]

theorem tailStamp_inj (hc : 0 < cap) (hl : cap ≤ L) {j k : Nat} :
    tailStamp cap L j = tailStamp cap L k ↔ j = k := by
  unfold tailStamp
  rw [pack_inj (mod_cap_lt hc hl j) (mod_cap_lt hc hl k)]
  constructor
  · rintro ⟨hd, hm⟩
    have hq : j / cap = k / cap := by omega
    rw [← Nat.div_add_mod j cap, ← Nat.div_add_mod k cap, hq, hm]
  · rintro rfl
    exact ⟨rfl, rfl⟩

theorem headStamp_inj (hc : 0 < cap) (hl : cap ≤ L) {j k : Nat} :
    headStamp cap L j = headStamp cap L k ↔ j = k := by
  rw [← tailStamp_add, ← tailStamp_add, Nat.add_right_cancel_iff, tailStamp_inj hc hl]

/-- Laps of tail stamps are even and laps of head stamps odd. -/
theorem tailStamp_ne_headStamp (hc : 0 < cap) (hl : cap ≤ L) (j k : Nat) :
    tailStamp cap L j ≠ headStamp cap L k := by
  unfold tailStamp headStamp
  rw [Ne, pack_inj (mod_cap_lt hc hl j) (mod_cap_lt hc hl k)]
  omega

theorem headStamp_ne_tailStamp (hc : 0 < cap) (hl : cap ≤ L) (j k : Nat) :
    headStamp cap L j ≠ tailStamp cap L k := (tailStamp_ne_headStamp hc hl k j).symm

/-- "The head lags one lap behind the tail": the channel is full. -/
theorem headStamp_add_eq (hc : 0 < cap) (hl : cap ≤ L) {j k : Nat} :
    headStamp cap L j + L = tailStamp cap L k ↔ k = j + cap := by
  rw [headStamp_add hc, tailStamp_inj hc hl]
  exact eq_comm

/-- "The tail lags one lap behind the head": the channel is empty. -/
theorem tailStamp_add_eq (hc : 0 < cap) (hl : cap ≤ L) {j k : Nat} :
    tailStamp cap L j + L = headStamp cap L k ↔ j = k := by
  rw [tailStamp_add, headStamp_inj hc hl]

end

namespace Channel.Geometry

variable {ch : Channel T} (g : ch.Geometry)
include g

theorem wrappingAdd_eq (a b : Nat) : ch.wrappingAdd a b = a + b := by
  simp [Channel.wrappingAdd, g.wrap]

theorem wrappingMul_eq (a b : Nat) : ch.wrappingMul a b = a * b := by
  simp [Channel.wrappingMul, g.wrap]

theorem index_pack {a i : Nat} (hi : i < ch.oneLap) : ch.index (pack ch.oneLap a i) = i := by
  obtain ⟨e, he⟩ := g.pow
  unfold Channel.index pack
  rw [he] at hi ⊢
  rw [Nat.and_two_pow_sub_one_eq_mod, Nat.mul_add_mod', Nat.mod_eq_of_lt hi]

theorem index_tailStamp (k : Nat) : ch.index (tailStamp ch.cap ch.oneLap k) = k % ch.cap :=
  g.index_pack (mod_cap_lt g.pos g.le k)

theorem index_headStamp (k : Nat) : ch.index (headStamp ch.cap ch.oneLap k) = k % ch.cap :=
  g.index_pack (mod_cap_lt g.pos g.le k)

/-- One step forward within a lap, or two laps forward to index zero. -/
theorem advance_pack {a k : Nat} :
    ch.advance (pack ch.oneLap (2 * (k / ch.cap) + a) (k % ch.cap))
      = pack ch.oneLap (2 * ((k + 1) / ch.cap) + a) ((k + 1) % ch.cap) := by
  have hi := mod_cap_lt g.pos g.le k
  unfold Channel.advance Channel.lap
  rw [g.index_pack hi, g.wrappingAdd_eq, g.wrappingMul_eq]
  have hk := Nat.div_add_mod k ch.cap
  have hlt := Nat.mod_lt k g.pos
  split
  · rename_i h
    have hd : (k + 1) / ch.cap = k / ch.cap := by
      rw [← hk, Nat.add_assoc, Nat.mul_add_div g.pos, Nat.mul_add_div g.pos,
        Nat.div_eq_of_lt h, Nat.div_eq_of_lt hlt]
    have hm : (k + 1) % ch.cap = k % ch.cap + 1 := by
      rw [← hk, Nat.add_assoc, Nat.mul_add_mod, Nat.mod_eq_of_lt h, hk]
    rw [hd, hm]
    unfold pack
    omega
  · rename_i h
    have heq : k % ch.cap + 1 = ch.cap := by omega
    have hk1 : k + 1 = ch.cap * (k / ch.cap + 1) := by
      rw [Nat.mul_add, Nat.mul_one]
      omega
    have hd : (k + 1) / ch.cap = k / ch.cap + 1 := by
      rw [hk1, Nat.mul_div_cancel_left _ g.pos]
    have hm : (k + 1) % ch.cap = 0 := by rw [hk1, Nat.mul_mod_right]
    rw [hd, hm]
    unfold pack
    rw [Nat.add_sub_cancel]
    ring

theorem advance_tailStamp (k : Nat) :
    ch.advance (tailStamp ch.cap ch.oneLap k) = tailStamp ch.cap ch.oneLap (k + 1) :=
  g.advance_pack (a := 0)

theorem advance_headStamp (k : Nat) :
    ch.advance (headStamp ch.cap ch.oneLap k) = headStamp ch.cap ch.oneLap (k + 1) :=
  g.advance_pack (a := 1)

end Channel.Geometry

end CrossbeamChannel.ArrayFlavor
