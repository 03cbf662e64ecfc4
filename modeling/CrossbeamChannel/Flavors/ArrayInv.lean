import CrossbeamChannel.Lib.Tickets
import CrossbeamChannel.Flavors.ArrayStamp

/-!
# The invariant of the array flavor

Every position runs through its stages in order — vacant, reserved by a tail CAS, stored,
published, claimed by a head CAS, taken, released — and everything else is a function of
where the positions stand: `head` and `tail` count the claimed and the reserved ones, and a
slot shows the one *live* position that maps to it (`Live`, `view`). Half-done operations
are stages like any other, so any number of them may coexist.

What a thread has loaded may be stale, but only in one direction: `PcOk` says of each local
variable what stays true however far the other threads advance (`PcOk.mono`).
-/

namespace CrossbeamChannel.ArrayFlavor

variable {Tid T : Type}

/-! ## Stages in order -/

def Stage.rank : Stage Tid → Nat
  | .vacant => 0
  | .reserved _ => 1
  | .stored _ => 2
  | .published => 3
  | .claimed _ => 4
  | .taken _ => 5
  | .released => 6

/-- The thread that has to move the position on. -/
def Stage.owner : Stage Tid → Option Tid
  | .reserved t | .stored t | .claimed t | .taken t => some t
  | _ => none

@[simp] theorem Stage.rank_vacant : (Stage.vacant : Stage Tid).rank = 0 := rfl
@[simp] theorem Stage.rank_reserved (t : Tid) : (Stage.reserved t).rank = 1 := rfl
@[simp] theorem Stage.rank_stored (t : Tid) : (Stage.stored t).rank = 2 := rfl
@[simp] theorem Stage.rank_published : (Stage.published : Stage Tid).rank = 3 := rfl
@[simp] theorem Stage.rank_claimed (t : Tid) : (Stage.claimed t).rank = 4 := rfl
@[simp] theorem Stage.rank_taken (t : Tid) : (Stage.taken t).rank = 5 := rfl
@[simp] theorem Stage.rank_released : (Stage.released : Stage Tid).rank = 6 := rfl

/-- The stage the position of a thread's ticket must be in while the thread is at this pc
    and still has to move it on. -/
def Pc.stage (t : Tid) : Pc T → Option (Stage Tid)
  | .sent ⟨some _, _⟩ => some (.reserved t)
  | .writeMsg _ _ _ => some (.reserved t)
  | .writeStamp _ _ => some (.stored t)
  | .received ⟨some _, _⟩ => some (.claimed t)
  | .readMsg _ _ => some (.claimed t)
  | .readStamp _ _ _ => some (.taken t)
  | _ => none

namespace History

variable (h : History Tid T)

/-- How far the `k`-th position has come. -/
abbrev rankAt (k : Nat) : Nat := (h.stage k).rank

/-- The slot of `k` is, or was, ready for `k`: the previous round has been read out. -/
def Free (cap k : Nat) : Prop := k < cap ∨ h.rankAt (k - cap) = 6

/-- `k` is the position its slot shows. -/
def Live (cap k : Nat) : Prop := h.rankAt k ≠ 6 ∧ h.Free cap k

/-- What the slot of the live position `k` holds. -/
def view (cap oneLap k : Nat) : Slot T where
  stamp := if h.rankAt k < 3 then tailStamp cap oneLap k else headStamp cap oneLap k
  msg := if h.rankAt k = 2 ∨ h.rankAt k = 3 ∨ h.rankAt k = 4 then h.put k else none

/-- `h'` is what thread `t` may find after steps of other threads from `h`. -/
structure Le (t : Tid) (h h' : History Tid T) : Prop where
  sends : h.sends ≤ h'.sends
  recvs : h.recvs ≤ h'.recvs
  rank : ∀ k, h.rankAt k ≤ h'.rankAt k
  ticket : h'.ticket t = h.ticket t
  got : 5 ≤ h.rankAt (h.ticket t) → h'.got (h.ticket t) = h.got (h.ticket t)

theorem rank_le (k : Nat) : h.rankAt k ≤ 6 := by
  unfold rankAt
  cases h.stage k <;> simp [Stage.rank]

end History

/-- What a thread's local variables are known to satisfy, whatever the others do. -/
def PcOk (cap oneLap : Nat) (h : History Tid T) (t : Tid) : Pc T → Prop
  | .sendStamp tail | .sendHead tail | .fullHead tail =>
      ∃ k, k ≤ h.sends ∧ tail = tailStamp cap oneLap k
  | .sendCas tail stamp =>
      stamp = tail ∧ ∃ k, k ≤ h.sends ∧ tail = tailStamp cap oneLap k ∧ h.Free cap k
  | .sent ⟨some i, stamp⟩ | .writeMsg i stamp _ | .writeStamp i stamp =>
      i = h.ticket t % cap ∧ stamp = headStamp cap oneLap (h.ticket t)
  | .recvStamp head | .recvTail head | .emptyTail head =>
      ∃ k, k ≤ h.recvs ∧ head = headStamp cap oneLap k
  | .recvCas head stamp =>
      stamp = head ∧ ∃ k, k ≤ h.recvs ∧ head = headStamp cap oneLap k ∧ 3 ≤ h.rankAt k
  | .recvDisconnected head tail | .recvTailAgain head tail =>
      ∃ k, k ≤ h.recvs ∧ head = headStamp cap oneLap k ∧ tail = tailStamp cap oneLap k
  | .received ⟨some i, stamp⟩ | .readMsg i stamp =>
      i = h.ticket t % cap ∧ stamp = tailStamp cap oneLap (h.ticket t + cap)
  | .readStamp i stamp msg =>
      i = h.ticket t % cap ∧ stamp = tailStamp cap oneLap (h.ticket t + cap) ∧
        h.got (h.ticket t) = msg
  | .readOk msg => h.got (h.ticket t) = msg ∧ 5 ≤ h.rankAt (h.ticket t)
  | _ => True

theorem History.Free.mono {cap k : Nat} {t : Tid} {h h' : History Tid T} (hle : h.Le t h')
    (hf : h.Free cap k) : h'.Free cap k := by
  rcases hf with hf | hf
  · exact .inl hf
  · have h1 := hle.rank (k - cap)
    have h2 := h'.rank_le (k - cap)
    exact .inr (by omega)

/-- **Loaded values only go stale in the harmless direction.** -/
theorem PcOk.mono {cap oneLap : Nat} {t : Tid} {h h' : History Tid T} (hle : h.Le t h')
    {pc : Pc T} (hp : PcOk cap oneLap h t pc)
    (hown : ∀ st, pc.stage t = some st → h.stage (h.ticket t) = st) :
    PcOk cap oneLap h' t pc := by
  have hsends := hle.sends
  have hrecvs := hle.recvs
  have htick := hle.ticket
  cases pc with
  | sendStamp tail | sendHead tail | fullHead tail =>
    obtain ⟨k, hk, rfl⟩ := hp
    exact ⟨k, by omega, rfl⟩
  | sendCas tail stamp =>
    obtain ⟨rfl, k, hk, rfl, hf⟩ := hp
    exact ⟨rfl, k, by omega, rfl, hf.mono hle⟩
  | sent token =>
    obtain ⟨_ | i, stamp⟩ := token
    · trivial
    · simpa only [PcOk, htick] using hp
  | writeMsg i stamp msg | writeStamp i stamp | readMsg i stamp =>
    simpa only [PcOk, htick] using hp
  | recvStamp head | recvTail head | emptyTail head =>
    obtain ⟨k, hk, rfl⟩ := hp
    exact ⟨k, by omega, rfl⟩
  | recvCas head stamp =>
    obtain ⟨rfl, k, hk, rfl, hr⟩ := hp
    exact ⟨rfl, k, by omega, rfl, Nat.le_trans hr (hle.rank k)⟩
  | recvDisconnected head tail | recvTailAgain head tail =>
    obtain ⟨k, hk, rfl, rfl⟩ := hp
    exact ⟨k, by omega, rfl, rfl⟩
  | received token =>
    obtain ⟨_ | i, stamp⟩ := token
    · trivial
    · simpa only [PcOk, htick] using hp
  | readStamp i stamp msg =>
    obtain ⟨hi, hst, hg⟩ := hp
    have hrank : 5 ≤ h.rankAt (h.ticket t) := by
      rw [History.rankAt, hown _ rfl]
      exact Nat.le_refl 5
    exact ⟨by rw [htick]; exact hi, by rw [htick]; exact hst,
      by rw [htick, hle.got hrank]; exact hg⟩
  | readOk msg =>
    obtain ⟨hg, hr⟩ := hp
    exact ⟨by rw [htick, hle.got hr]; exact hg,
      by rw [htick]; exact Nat.le_trans hr (hle.rank _)⟩
  | _ => trivial

/-- **The invariant.** -/
structure Inv (s : State Tid T) : Prop where
  geo : s.chan.Geometry
  head : s.chan.head = headStamp s.chan.cap s.chan.oneLap s.hist.recvs
  tail : s.chan.tail = tailStamp s.chan.cap s.chan.oneLap s.hist.sends
  /-- The positions the tail has passed are the ones that are not vacant. -/
  sends : ∀ k, k < s.hist.sends ↔ 1 ≤ s.hist.rankAt k
  /-- The positions the head has passed are the claimed ones. -/
  recvs : ∀ k, k < s.hist.recvs ↔ 4 ≤ s.hist.rankAt k
  /-- A position is only reserved once the previous round of its slot was read out. -/
  free : ∀ k, k < s.hist.sends → s.hist.Free s.chan.cap k
  slot : ∀ k, s.hist.Live s.chan.cap k →
    s.chan.buffer (k % s.chan.cap) = s.hist.view s.chan.cap s.chan.oneLap k
  put : ∀ k, (s.hist.put k).isSome ↔ 2 ≤ s.hist.rankAt k
  got : ∀ k, s.hist.got k = if 5 ≤ s.hist.rankAt k then s.hist.put k else none
  /-- Every unfinished position is held by the thread that has to move it on. -/
  tickets : Lib.Tickets Stage.owner s.hist.stage s.hist.ticket fun t => (s.pc t).stage t
  pcs : ∀ t, PcOk s.chan.cap s.chan.oneLap s.hist t (s.pc t)

namespace Inv

variable {s : State Tid T}

theorem recvs_le_sends (hi : Inv s) : s.hist.recvs ≤ s.hist.sends := by
  by_contra hlt
  have h1 := (hi.recvs s.hist.sends).mp (by omega)
  have h2 := mt (hi.sends s.hist.sends).mpr (by omega)
  omega

theorem sends_le (hi : Inv s) : s.hist.sends ≤ s.hist.recvs + s.chan.cap := by
  by_contra hlt
  rcases hi.free (s.hist.sends - 1) (by omega) with hf | hf
  · omega
  · have := (hi.recvs (s.hist.sends - 1 - s.chan.cap)).mpr (by omega)
    omega

/-- Released positions are downward closed within a slot. -/
theorem released_sub (hi : Inv s) {k : Nat} (h6 : s.hist.rankAt k = 6) (n : Nat)
    (hn : n * s.chan.cap ≤ k) : s.hist.rankAt (k - n * s.chan.cap) = 6 := by
  induction n with
  | zero => simpa using h6
  | succ n ih =>
    rw [Nat.succ_mul] at hn ⊢
    have ih' := ih (by omega)
    have hlt : k - n * s.chan.cap < s.hist.sends := (hi.sends _).mpr (by omega)
    rcases hi.free _ hlt with hf | hf
    · omega
    · rwa [Nat.sub_sub] at hf

/-- A slot shows one position at a time. -/
theorem live_unique (hi : Inv s) {j k : Nat} (hj : s.hist.Live s.chan.cap j)
    (hk : s.hist.Live s.chan.cap k) (hmod : j % s.chan.cap = k % s.chan.cap) : j = k := by
  have key : ∀ {a b : Nat}, s.hist.Live s.chan.cap a → s.hist.Live s.chan.cap b →
      a % s.chan.cap = b % s.chan.cap → ¬ a < b := by
    intro a b ha hb hm hlt
    have hda := Nat.div_add_mod a s.chan.cap
    have hdb := Nat.div_add_mod b s.chan.cap
    have hq : a / s.chan.cap < b / s.chan.cap := by
      by_contra hge
      have := Nat.mul_le_mul_left s.chan.cap (show b / s.chan.cap ≤ a / s.chan.cap by omega)
      omega
    obtain ⟨n, hn⟩ := Nat.exists_eq_add_of_lt hq
    have hb' : b = a + n * s.chan.cap + s.chan.cap := by
      rw [← hdb, ← hda, hn, hm]
      ring
    rcases hb.2 with hf | hf
    · omega
    · have := hi.released_sub hf n (by omega)
      rw [show b - s.chan.cap - n * s.chan.cap = a by omega] at this
      exact ha.1 this
  rcases Nat.lt_trichotomy j k with hlt | rfl | hlt
  · exact absurd hlt (key hj hk hmod)
  · rfl
  · exact absurd hlt (key hk hj hmod.symm)

/-- The slot under the tail shows the next position to reserve, or the one a round before
    that has not been read out. -/
theorem live_at (hi : Inv s) {k : Nat} (hk : k ≤ s.hist.sends) (hne : s.hist.rankAt k ≠ 6) :
    s.hist.Live s.chan.cap k ∨
      (s.chan.cap ≤ k ∧ s.hist.Live s.chan.cap (k - s.chan.cap)) := by
  by_cases hf : s.hist.Free s.chan.cap k
  · exact .inl ⟨hne, hf⟩
  · have hnf : ¬ k < s.chan.cap ∧ s.hist.rankAt (k - s.chan.cap) ≠ 6 := by
      simpa [History.Free] using hf
    have := hi.geo.pos
    exact .inr ⟨by omega, hnf.2, hi.free _ (by omega)⟩

end Inv

end CrossbeamChannel.ArrayFlavor
