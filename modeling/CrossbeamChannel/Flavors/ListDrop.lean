import CrossbeamChannel.Flavors.ListReclaim
import Mathlib.Data.Finset.Prod
import Mathlib.Data.Fintype.Card
import Mathlib.Data.List.Range
import Mathlib.Logic.Relation
import Mathlib.Order.Interval.Finset.Nat

/-!
# Dropping a list channel

`drop` moves an index and a block side by side and relies on three facts that no single
function of the channel establishes: the end of a block has a next block, the last block is
the one `tail.block` points to, and no slot between head and tail is empty. They hold once
every send and every receive has completed: an end that stands at the last boundary of its
block has a thread inside `install_next_block` (`Edges`), and an unfinished slot has a thread
that holds its ticket (`Lib.Tickets`).
-/

namespace CrossbeamChannel.ListFlavor

variable {Tid T : Type}

/-! ## An end at the boundary of its block -/

/-- The thread reserved the last slot of block `b` and still has to move `tail.block`. -/
def Pc.leavesTail (b : Nat) : Pc T → Prop
  | .sendNext c (some _) | .sendBlockCas c _ (some _) => c = b
  | _ => False

/-- The thread claimed the last slot of block `b` and still has to move `head.block`. -/
def Pc.leavesHead (b : Nat) : Pc T → Prop
  | .recvNext c (some _) | .recvBlockCas c _ (some _) => c = b
  | _ => False

/-- Whoever exhausts a block moves the end on, and blocks are only linked when needed. -/
structure Edges (s : State Tid T) : Prop where
  tail : s.hist.sends = blockCap * (s.chan.tail.block + 1) →
    ∃ t, (s.pc t).leavesTail s.chan.tail.block
  head : s.hist.recvs = blockCap * (s.chan.head.block + 1) →
    ∃ t, (s.pc t).leavesHead s.chan.head.block
  fresh : blockCap * s.chan.fresh ≤ s.hist.sends + blockCap

@[simp] theorem linkNext_tail (ch : Channel T) (b : Nat) : (ch.linkNext b).1.tail = ch.tail := by
  simp only [Channel.linkNext]
  split <;> rfl

@[simp] theorem linkNext_head (ch : Channel T) (b : Nat) : (ch.linkNext b).1.head = ch.head := by
  simp only [Channel.linkNext]
  split <;> rfl

theorem linkNext_fresh (ch : Channel T) (b : Nat) :
    (ch.linkNext b).1.fresh = ch.fresh ∨
      ((ch.heap b).next = none ∧ (ch.linkNext b).1.fresh = ch.fresh + 1) := by
  simp only [Channel.linkNext]
  split
  · exact .inl rfl
  · rename_i hnext
    exact .inr ⟨hnext, rfl⟩

namespace Edges

variable {s : State Tid T}

section

variable [DecidableEq Tid] {t : Tid}

/-- The thread that has to move an end on is still there after a step that leaves the end
    alone. -/
theorem still {leaves : Pc T → Prop} {pc : Pc T} (hpc : leaves (s.pc t) → leaves pc)
    (h : ∃ u, leaves (s.pc u)) : ∃ u, leaves (Function.update s.pc t pc u) := by
  obtain ⟨u, hu⟩ := h
  refine ⟨u, ?_⟩
  rcases eq_or_ne u t with rfl | hut
  · rw [Function.update_self]
    exact hpc hu
  · rw [Function.update_of_ne hut]
    exact hu

theorem tail_run (he : Edges s) (hi : Inv s) {spurious : Bool} {s' : State Tid T}
    (h : program.run s t spurious = some s')
    (hfull : s'.hist.sends = blockCap * (s'.chan.tail.block + 1)) :
    ∃ u, (s'.pc u).leavesTail s'.chan.tail.block := by
  obtain ⟨ch, pc, ev, hstep, rfl⟩ := Lib.Program.run_eq_some h
  change s.chan.step spurious (s.pc t) = some (ch, pc, ev) at hstep
  simp only at hfull ⊢
  have hok := hi.pcs t
  cases hp : s.pc t with
  | sendCas b index offset =>
    rw [hp] at hstep hok
    rw [Channel.step] at hstep
    split at hstep <;> cases hstep
    · -- the slot that was reserved is the last one of the block
      rename_i hcas
      obtain ⟨hb, ho, hk⟩ : _ ∧ _ ∧ _ := hok
      have hsends := hi.ends.tailIndex
      have hlow := hi.ends.tailLow
      change s.hist.sends + 1 = blockCap * (s.chan.tail.block + 1) at hfull
      have heq : b = s.chan.tail.block := by
        unfold blockCap at *
        omega
      have hlast : offset + 1 = blockCap := by
        rw [← heq] at hfull
        unfold blockCap at *
        omega
      refine ⟨t, ?_⟩
      rw [Function.update_self, sendReserved, if_pos hlast]
      exact heq
    · exact still (by rw [hp]; exact False.elim) (he.tail hfull)
  | sendNext b slot =>
    rw [hp, Channel.step] at hstep
    cases hstep
    rw [linkNext_tail] at hfull ⊢
    refine still (fun h => ?_) (he.tail hfull)
    rw [hp] at h
    cases slot <;> exact h
  | sendBlockCas b next slot =>
    rw [hp] at hstep hok
    obtain ⟨hb, hsends, -, rfl, -⟩ : _ ∧ _ ∧ _ ∧ _ ∧ _ := hok
    cases hstep
    have hhigh := hi.ends.tailHigh
    rw [Inv.casTailBlock_eq] at hfull ⊢
    change s.hist.sends = blockCap * ((if s.chan.tail.block = b then b + 1 else s.chan.tail.block) + 1)
      at hfull
    change ∃ u, Pc.leavesTail (if s.chan.tail.block = b then b + 1 else s.chan.tail.block) _
    split at hfull
    · rename_i heq
      subst heq
      unfold blockCap at *
      omega
    · rename_i hne
      rw [if_neg hne]
      refine still (fun h => ?_) (he.tail hfull)
      rw [hp] at h
      cases slot
      · exact h
      · exact absurd (Eq.symm h) hne
  | recvNext b slot =>
    rw [hp, Channel.step] at hstep
    cases hstep
    rw [linkNext_tail] at hfull ⊢
    exact still (by rw [hp]; exact False.elim) (he.tail hfull)
  | recvBlockCas b next slot =>
    rw [hp, Channel.step] at hstep
    cases hstep
    rw [Inv.casHeadBlock_eq] at hfull ⊢
    exact still (by rw [hp]; exact False.elim) (he.tail hfull)
  | _ =>
    rw [hp] at hstep
    simp only [Channel.step] at hstep
    (repeat' split at hstep) <;> cases hstep <;>
      exact still (by rw [hp]; exact False.elim) (he.tail hfull)

theorem head_run (he : Edges s) (hi : Inv s) {spurious : Bool} {s' : State Tid T}
    (h : program.run s t spurious = some s')
    (hfull : s'.hist.recvs = blockCap * (s'.chan.head.block + 1)) :
    ∃ u, (s'.pc u).leavesHead s'.chan.head.block := by
  obtain ⟨ch, pc, ev, hstep, rfl⟩ := Lib.Program.run_eq_some h
  change s.chan.step spurious (s.pc t) = some (ch, pc, ev) at hstep
  simp only at hfull ⊢
  have hok := hi.pcs t
  cases hp : s.pc t with
  | recvCas b index offset =>
    rw [hp] at hstep hok
    rw [Channel.step] at hstep
    split at hstep <;> cases hstep
    · -- the slot that was claimed is the last one of the block
      rename_i hcas
      obtain ⟨hb, ho, hk, -⟩ : _ ∧ _ ∧ _ ∧ _ := hok
      have hrecvs := hi.ends.headIndex
      have hlow := hi.ends.headLow
      change s.hist.recvs + 1 = blockCap * (s.chan.head.block + 1) at hfull
      have heq : b = s.chan.head.block := by
        unfold blockCap at *
        omega
      have hlast : offset + 1 = blockCap := by
        rw [← heq] at hfull
        unfold blockCap at *
        omega
      refine ⟨t, ?_⟩
      rw [Function.update_self, recvClaimed, if_pos hlast]
      exact heq
    · exact still (by rw [hp]; exact False.elim) (he.head hfull)
  | recvNext b slot =>
    rw [hp, Channel.step] at hstep
    cases hstep
    rw [linkNext_head] at hfull ⊢
    refine still (fun h => ?_) (he.head hfull)
    rw [hp] at h
    cases slot <;> exact h
  | recvBlockCas b next slot =>
    rw [hp] at hstep hok
    obtain ⟨hb, hrecvs, -, rfl, -⟩ : _ ∧ _ ∧ _ ∧ _ ∧ _ := hok
    cases hstep
    have hhigh := hi.ends.headHigh
    rw [Inv.casHeadBlock_eq] at hfull ⊢
    change s.hist.recvs = blockCap * ((if s.chan.head.block = b then b + 1 else s.chan.head.block) + 1)
      at hfull
    change ∃ u, Pc.leavesHead (if s.chan.head.block = b then b + 1 else s.chan.head.block) _
    split at hfull
    · rename_i heq
      subst heq
      unfold blockCap at *
      omega
    · rename_i hne
      rw [if_neg hne]
      refine still (fun h => ?_) (he.head hfull)
      rw [hp] at h
      cases slot
      · exact h
      · exact absurd (Eq.symm h) hne
  | sendNext b slot =>
    rw [hp, Channel.step] at hstep
    cases hstep
    rw [linkNext_head] at hfull ⊢
    exact still (by rw [hp]; exact False.elim) (he.head hfull)
  | sendBlockCas b next slot =>
    rw [hp, Channel.step] at hstep
    cases hstep
    rw [Inv.casTailBlock_eq] at hfull ⊢
    exact still (by rw [hp]; exact False.elim) (he.head hfull)
  | _ =>
    rw [hp] at hstep
    simp only [Channel.step] at hstep
    (repeat' split at hstep) <;> cases hstep <;>
      exact still (by rw [hp]; exact False.elim) (he.head hfull)

omit [DecidableEq Tid] in
/-- Linking a block behind `b`, which is used up. -/
theorem fresh_link (he : Edges s) (hi : Inv s) {b : Nat} (hb : b < s.chan.fresh)
    (hfull : blockCap * (b + 1) ≤ s.hist.sends) :
    blockCap * (s.chan.linkNext b).1.fresh ≤ s.hist.sends + blockCap := by
  have hold := he.fresh
  rcases linkNext_fresh s.chan b with hsame | ⟨hnone, hgrown⟩
  · rwa [hsame]
  · -- only the last block has no next block
    have hlast : ¬ b + 1 < s.chan.fresh := by
      intro hlt
      rw [hi.chain.next b hb, if_pos hlt] at hnone
      cases hnone
    obtain hfresh : s.chan.fresh = b + 1 := by omega
    rw [hgrown, hfresh, Nat.mul_succ]
    omega

theorem fresh_run (he : Edges s) (hi : Inv s) {spurious : Bool} {s' : State Tid T}
    (h : program.run s t spurious = some s') :
    blockCap * s'.chan.fresh ≤ s'.hist.sends + blockCap := by
  obtain ⟨ch, pc, ev, hstep, rfl⟩ := Lib.Program.run_eq_some h
  change s.chan.step spurious (s.pc t) = some (ch, pc, ev) at hstep
  simp only
  have hok := hi.pcs t
  have hends := hi.ends
  cases hp : s.pc t with
  | sendCas b index offset =>
    rw [hp, Channel.step] at hstep
    split at hstep <;> cases hstep
    · exact Nat.le_trans he.fresh (Nat.add_le_add_right (Nat.le_succ _) _)
    · exact he.fresh
  | sendNext b slot =>
    rw [hp] at hstep hok
    cases hstep
    exact he.fresh_link hi (Nat.lt_of_le_of_lt hok.1 hi.chain.tailBlock) hok.2.1
  | sendBlockCas b next slot =>
    rw [hp, Channel.step] at hstep
    cases hstep
    rw [Inv.casTailBlock_eq]
    exact he.fresh
  | recvNext b slot =>
    rw [hp] at hstep hok
    cases hstep
    exact he.fresh_link hi (Nat.lt_of_le_of_lt hok.1 hi.chain.headBlock)
      (Nat.le_trans hok.2.1 hends.ordered)
  | recvBlockCas b next slot =>
    rw [hp, Channel.step] at hstep
    cases hstep
    rw [Inv.casHeadBlock_eq]
    exact he.fresh
  | _ =>
    rw [hp] at hstep
    simp only [Channel.step] at hstep
    (repeat' split at hstep) <;> cases hstep <;> exact he.fresh

theorem call (he : Edges s) {c : Call T} {s' : State Tid T}
    (h : program.enter s t c = some s') : Edges s' := by
  obtain ⟨pc, hpc, rfl⟩ := Lib.Program.enter_eq_some h
  change (s.pc t).call c = some pc at hpc
  have hout : ∀ b, ¬ (s.pc t).leavesTail b ∧ ¬ (s.pc t).leavesHead b := by
    intro b
    cases hp : s.pc t <;> rw [hp] at hpc <;>
      first | exact ⟨False.elim, False.elim⟩ | cases hpc
  exact ⟨fun hfull => still (fun hl => absurd hl (hout _).1) (he.tail hfull),
    fun hfull => still (fun hl => absurd hl (hout _).2) (he.head hfull), he.fresh⟩

end

end Edges

theorem edges_reachable [DecidableEq Tid] {s : State Tid T} (hs : system.Reachable s) :
    Edges s := by
  refine hs.invariant (fun s0 h0 => ?_) fun s0 l s1 hr he hstep => ?_
  · obtain rfl := h0
    exact ⟨nofun, nofun, Nat.le_refl _⟩
  · cases l with
    | call t c => exact he.call hstep
    | run t spurious =>
      have hi := inv_reachable hr
      exact ⟨he.tail_run hi hstep, he.head_run hi hstep, he.fresh_run hi hstep⟩

/-! ## When every call has completed -/

/-- The thread is outside every call, or a call has just returned. It holds no token. -/
def Pc.Done (pc : Pc T) : Prop := pc = .idle ∨ pc.call .ret = some .idle

/-- The thread is outside every call. -/
def Pc.isIdle : Pc T → Bool
  | .idle => true
  | _ => false

theorem Pc.eq_idle {pc : Pc T} (h : pc.isIdle = true) : pc = .idle := by
  cases pc with
  | idle => rfl
  | _ => cases h

/-- Every send and every receive has completed. -/
def Completed (s : State Tid T) : Prop := ∀ t, (s.pc t).Done

theorem Pc.Done.free {pc : Pc T} (h : pc.Done) (t : Tid) :
    pc.sendStage t = none ∧ pc.recvStage t = none ∧ ∀ b, ¬ pc.leavesTail b ∧ ¬ pc.leavesHead b := by
  rcases h with rfl | h
  · exact ⟨rfl, rfl, fun _ => ⟨False.elim, False.elim⟩⟩
  · unfold Pc.call at h
    split at h <;> cases h <;> exact ⟨rfl, rfl, fun _ => ⟨False.elim, False.elim⟩⟩

section

variable {s : State Tid T}

/-- Every message that was sent is ready. -/
theorem Inv.all_ready (hi : Inv s) (hc : Completed s) {k : Nat} (hk : k < s.hist.sends) :
    s.hist.sendRank k = 3 := by
  have hpos := (hi.stages.sends k).mp hk
  cases hst : s.hist.sendStage k with
  | ready => simp only [History.sendRank, hst, SendStage.rank_ready]
  | vacant => simp [History.sendRank, hst] at hpos
  | reserved t | stored t =>
    have howned := (hi.senders.owned k t (by rw [hst]; rfl)).2
    rw [((hc t).free t).1] at howned
    cases howned

/-- Every message that was claimed has been read. -/
theorem Inv.all_taken (hi : Inv s) (hc : Completed s) {k : Nat} (hk : k < s.hist.recvs) :
    s.hist.recvRank k = 2 := by
  have hpos := (hi.stages.recvs k).mp hk
  cases hst : s.hist.recvStage k with
  | taken => simp only [History.recvRank, hst, RecvStage.rank_taken]
  | vacant => simp [History.recvRank, hst] at hpos
  | claimed t =>
    have howned := (hi.receivers.owned k t (by rw [hst]; rfl)).2
    rw [((hc t).free t).2.1] at howned
    cases howned

/-- The message of an index is received exactly if a receive claimed the index. -/
theorem Inv.got_none_iff (hi : Inv s) (hc : Completed s) {k : Nat} (hk : k < s.hist.sends) :
    s.hist.got k = none ↔ s.hist.recvs ≤ k := by
  rw [hi.stages.got k]
  rcases Nat.lt_or_ge k s.hist.recvs with hlt | hge
  · rw [if_pos (hi.all_taken hc hlt)]
    have hput := (hi.stages.put k).mpr (by rw [hi.all_ready hc hk]; omega)
    exact iff_of_false (fun h => by simp [h] at hput) (by omega)
  · have h0 := mt (hi.stages.recvs k).mpr (by omega)
    exact iff_of_true (if_neg (by omega)) hge

/-- What the slots between head and tail hold. -/
theorem Inv.view_put (hi : Inv s) (hc : Completed s) {k : Nat} (hlow : s.hist.recvs ≤ k)
    (hk : k < s.hist.sends) :
    (s.hist.view k).msg = s.hist.put k ∧ (s.hist.put k).isSome := by
  have hready := hi.all_ready hc hk
  have hfree := mt (hi.stages.recvs k).mpr (by omega)
  exact ⟨if_pos ⟨by omega, by omega⟩, (hi.stages.put k).mpr (by omega)⟩

/-- When nobody has to move an end on, neither end stands at the end of its block, and the
    last block is the tail's. -/
theorem Edges.settled (he : Edges s) (hi : Inv s)
    (hq : ∀ t b, ¬ (s.pc t).leavesTail b ∧ ¬ (s.pc t).leavesHead b) :
    s.hist.recvs < blockCap * (s.chan.head.block + 1) ∧
      s.hist.sends < blockCap * (s.chan.tail.block + 1) ∧
      s.chan.fresh = s.chan.tail.block + 1 := by
  have htail : s.hist.sends ≠ blockCap * (s.chan.tail.block + 1) := fun h =>
    let ⟨t, ht⟩ := he.tail h
    (hq t _).1 ht
  have hhead : s.hist.recvs ≠ blockCap * (s.chan.head.block + 1) := fun h =>
    let ⟨t, ht⟩ := he.head h
    (hq t _).2 ht
  have h1 := hi.ends.headHigh
  have h2 := hi.ends.tailHigh
  have h3 := hi.chain.tailBlock
  have h4 := he.fresh
  refine ⟨by omega, by omega, ?_⟩
  unfold blockCap at *
  omega

/-! ## The loop -/

/-- Subtracting modulo `m`. -/
theorem offset_mod {m a k : Nat} (ha : a ≤ k) (hlt : k - a < m) :
    (k % m + m - a % m) % m = k - a := by
  obtain ⟨d, rfl⟩ := Nat.exists_eq_add_of_le ha
  have hm : 0 < m := by omega
  have hd : a + d - a = d := by omega
  rw [hd] at hlt ⊢
  have h1 := Nat.mod_lt a hm
  have hsplit : (a + d) % m = (a % m + d) % m := by rw [Nat.mod_add_mod]
  rw [hsplit]
  rcases Nat.lt_or_ge (a % m + d) m with h2 | h2
  · rw [Nat.mod_eq_of_lt h2, show a % m + d + m - a % m = d + m by omega, Nat.add_mod_right,
      Nat.mod_eq_of_lt hlt]
  · rw [Nat.mod_eq_sub_mod h2, Nat.mod_eq_of_lt (show a % m + d - m < m by omega),
      show a % m + d - m + m - a % m = d by omega, Nat.mod_eq_of_lt hlt]

/-- **The loop**, from index `k` in block `b` over the next `n` indices. -/
theorem dropLoop_eq {ch : Channel T} (hch : Chain ch) {m n : Nat} {f : Nat → Option T} {k b : Nat}
    (hm : blockCap ≤ m) (hn : n < m) (hlow : blockCap * b ≤ k) (hhigh : k < blockCap * (b + 1))
    (hend : k + n < blockCap * ch.fresh)
    (hf : ∀ c i, i < blockCap → k ≤ blockCap * c + i → blockCap * c + i < k + n →
      ((ch.heap c).slots i).msg = f (blockCap * c + i))
    {fuel : Nat} (hfuel : n ≤ fuel) (acc : Dropped T) :
    ch.dropLoop m ((k + n) % m) fuel (k % m) (some b) acc =
      some (some ((k + n) / blockCap), ⟨acc.msgs ++ (List.range' k n).map f,
        acc.freed ++ List.range' b ((k + n) / blockCap - b)⟩) := by
  induction n generalizing fuel k b acc with
  | zero =>
    have hb : k / blockCap = b := by
      rw [Nat.div_eq_iff (by decide)]
      unfold blockCap at *
      omega
    cases fuel <;>
      simp only [Channel.dropLoop, Nat.add_zero, if_true, hb, Nat.sub_self, List.range'_zero,
        List.map_nil, List.append_nil]
  | succ n ih =>
    obtain ⟨fuel, rfl⟩ : ∃ g, fuel = g + 1 := ⟨fuel - 1, by omega⟩
    have hne : k % m ≠ (k + (n + 1)) % m := by
      intro h
      have := Nat.sub_mod_eq_zero_of_mod_eq h.symm
      rw [show k + (n + 1) - k = n + 1 by omega, Nat.mod_eq_of_lt hn] at this
      omega
    have hb : b < ch.fresh := by
      unfold blockCap at *
      omega
    have hoff : (k % m + m - (ch.heap b).startIndex % m) % m = k - blockCap * b := by
      rw [hch.start b hb]
      exact offset_mod hlow (by unfold blockCap at *; omega)
    have hin : k - blockCap * b < blockCap := by
      unfold blockCap at *
      omega
    have hmsg : ((ch.heap b).slots (k - blockCap * b)).msg = f k := by
      have h := hf b (k - blockCap * b) hin (by omega) (by omega)
      rwa [show blockCap * b + (k - blockCap * b) = k by omega] at h
    have hnext : k + (n + 1) = k + 1 + n := by omega
    have hf' : ∀ c i, i < blockCap → k + 1 ≤ blockCap * c + i → blockCap * c + i < k + 1 + n →
        ((ch.heap c).slots i).msg = f (blockCap * c + i) := fun c i h1 h2 h3 =>
      hf c i h1 (by omega) (by omega)
    rw [Channel.dropLoop, if_neg hne]
    simp only [hoff, if_pos hin, hmsg]
    rw [Nat.mod_add_mod, hnext, List.range'_succ, List.map_cons]
    by_cases hlast : k - blockCap * b + 1 = blockCap
    · -- the block is used up: it is freed, and there is a next one
      have hk : k + 1 = blockCap * (b + 1) := by
        unfold blockCap at *
        omega
      have hlink : b + 1 < ch.fresh := by
        unfold blockCap at *
        omega
      have hge : b + 1 ≤ (k + 1 + n) / blockCap := by
        rw [Nat.le_div_iff_mul_le (by decide)]
        unfold blockCap at *
        omega
      rw [if_pos hlast, hch.next b hb, if_pos hlink,
        ih (by omega) (by omega) (by unfold blockCap at *; omega) (by omega) hf' (by omega)]
      obtain ⟨d, hd⟩ : ∃ d, (k + 1 + n) / blockCap - b = d + 1 :=
        ⟨(k + 1 + n) / blockCap - b - 1, by omega⟩
      rw [hd, show (k + 1 + n) / blockCap - (b + 1) = d by omega, List.range'_succ]
      simp only [List.append_assoc, List.singleton_append]
    · rw [if_neg hlast, ih (by omega) (by omega) (by unfold blockCap at *; omega) (by omega) hf'
        (by omega)]
      simp only [List.append_assoc, List.singleton_append]

/-! ## What `drop` does -/

/-- The blocks one gets to from `b` along `next`, `b` itself included. -/
def LinkedFrom (ch : Channel T) (b c : Nat) : Prop :=
  Relation.ReflTransGen (fun c d => (ch.heap c).next = some d) b c

theorem linkedFrom_iff {ch : Channel T} (hch : Chain ch) {b c : Nat} (hb : b < ch.fresh) :
    LinkedFrom ch b c ↔ b ≤ c ∧ c < ch.fresh := by
  constructor
  · intro h
    induction h with
    | refl => exact ⟨Nat.le_refl b, hb⟩
    | tail _ hnext ih =>
      rw [hch.next _ ih.2] at hnext
      split at hnext <;> cases hnext
      omega
  · rintro ⟨hle, hc⟩
    induction c, hle using Nat.le_induction with
    | base => exact .refl
    | succ c hle ih => exact .tail (ih (by omega)) (by rw [hch.next c (by omega), if_pos hc])

/-- An allocation: every slot of the blocks between the two ends has an address of its own
    among `2 ^ w`. -/
def Placed (ch : Channel T) (w : Nat) (address : Nat × Nat → Fin (2 ^ w)) : Prop :=
  Set.InjOn address
    (Finset.Icc ch.head.block ch.tail.block ×ˢ Finset.range blockCap : Finset (Nat × Nat))

/-- What is stored fits into the memory. -/
theorem Placed.fits {ch : Channel T} {w : Nat} {address : Nat × Nat → Fin (2 ^ w)}
    (h : Placed ch w address) : (ch.tail.block + 1 - ch.head.block) * blockCap ≤ 2 ^ w := by
  have hcard := Finset.card_le_card_of_injOn address (fun _ _ => Finset.mem_univ _) h
  rwa [Finset.card_product, Nat.card_Icc, Finset.card_range, Finset.card_univ,
    Fintype.card_fin] at hcard

/-- The first `n` blocks of 32 slots fit into 32 times as many addresses. -/
theorem placed_blocks {ch : Channel T} {w n : Nat} (hw : blockCap * n ≤ 2 ^ w) (htail : ch.tail.block < n) :
    Placed ch w fun x => Fin.ofNat (2 ^ w) (blockCap * x.1 + x.2) := by
  rintro ⟨b, i⟩ hb ⟨c, j⟩ hc heq
  simp only [Finset.coe_product, Finset.coe_Icc, Finset.coe_range, Set.mem_prod, Set.mem_Icc,
    Set.mem_Iio] at hb hc
  unfold blockCap at *
  have hij : (32 * b + i) % 2 ^ w = (32 * c + j) % 2 ^ w := congrArg Fin.val heq
  rw [Nat.mod_eq_of_lt (by omega), Nat.mod_eq_of_lt (by omega)] at hij
  rw [Prod.mk.injEq]
  omega

/-- The messages that were sent and not received, in the order of their indices. -/
def History.pending (h : History Tid T) : List (Option T) :=
  ((List.range h.sends).filter fun k => (h.got k).isNone).map h.put

theorem Inv.pending_eq (hi : Inv s) (hc : Completed s) :
    s.hist.pending =
      (List.range' s.hist.recvs (s.hist.sends - s.hist.recvs)).map s.hist.put := by
  have hle := hi.ends.ordered
  have hsplit : List.range s.hist.sends =
      List.range s.hist.recvs ++ List.range' s.hist.recvs (s.hist.sends - s.hist.recvs) := by
    have happend := List.range'_append_1 (s := 0) (m := s.hist.recvs)
      (n := s.hist.sends - s.hist.recvs)
    rw [Nat.zero_add, Nat.add_sub_cancel' hle] at happend
    rw [List.range_eq_range', List.range_eq_range', happend]
  rw [History.pending, hsplit, List.filter_append, List.filter_eq_nil_iff.mpr, List.nil_append,
    List.filter_eq_self.mpr]
  · intro k hk
    rw [List.mem_range'_1] at hk
    rw [Option.isNone_iff_eq_none]
    exact (hi.got_none_iff hc (by omega)).mpr hk.1
  · intro k hk
    rw [List.mem_range] at hk
    rw [Option.isNone_iff_eq_none, hi.got_none_iff hc (by omega)]
    omega

variable [DecidableEq Tid]

/-- What `drop` visits when nobody has to move an end on: every index between head and tail
    and every block between the two ends. -/
theorem drop_eq {w : Nat} {address : Nat × Nat → Fin (2 ^ w)} (hw : blockCap ∣ 2 ^ w)
    (hs : system.Reachable s) (hq : ∀ t b, ¬ (s.pc t).leavesTail b ∧ ¬ (s.pc t).leavesHead b)
    (hplaced : Placed s.chan w address) {fuel : Nat}
    (hfuel : s.hist.sends - s.hist.recvs ≤ fuel) :
    s.chan.head.block ≤ s.chan.tail.block ∧ s.chan.drop (2 ^ w) fuel =
      some ⟨(List.range' s.hist.recvs (s.hist.sends - s.hist.recvs)).map fun k =>
        (s.hist.view k).msg,
        List.range' s.chan.head.block (s.chan.tail.block + 1 - s.chan.head.block)⟩ := by
  have hi := inv_reachable hs
  obtain ⟨hhead, htail, hfresh⟩ := (edges_reachable hs).settled hi hq
  have hends := hi.ends
  have hfits := hplaced.fits
  have hcap := Nat.le_of_dvd (Nat.two_pow_pos w) hw
  obtain ⟨n, hn⟩ := Nat.exists_eq_add_of_le hends.ordered
  have hsub : s.hist.sends - s.hist.recvs = n := by omega
  rw [hsub] at hfuel ⊢
  have hblock : (s.hist.recvs + n) / blockCap = s.chan.tail.block := by
    have := hends.tailLow
    rw [Nat.div_eq_iff (by decide)]
    unfold blockCap at *
    omega
  have hheadle : s.chan.head.block ≤ s.chan.tail.block := by
    have := hends.headLow
    unfold blockCap at *
    omega
  refine ⟨hheadle, ?_⟩
  have hrun := dropLoop_eq hi.chain (f := fun k => (s.hist.view k).msg) hcap
    (show n < 2 ^ w by have := hends.headLow; unfold blockCap at *; omega) hends.headLow hhead
    (by rw [hfresh]; omega) ?_ hfuel ⟨[], []⟩
  · rw [hblock, ← hn] at hrun
    rw [Channel.drop, hends.tailIndex, hends.headIndex, hrun]
    simp only [Option.map_some, Option.toList_some, List.nil_append]
    rw [show s.chan.tail.block + 1 - s.chan.head.block =
        s.chan.tail.block - s.chan.head.block + 1 by omega, List.range'_1_concat,
      Nat.add_sub_cancel' hheadle]
  · intro c i hi' hlow hhigh
    have hcf : c < s.chan.fresh := by
      unfold blockCap at *
      omega
    rw [hi.slot c i hcf hi']

/-- **Dropping the channel frees everything once.** -/
theorem drop_frees_all {w : Nat} {address : Nat × Nat → Fin (2 ^ w)} (hw : blockCap ∣ 2 ^ w)
    (hs : system.Reachable s) (hc : Completed s) (hplaced : Placed s.chan w address) :
    ∃ d : Dropped T,
      (∀ fuel, s.hist.sends - s.hist.recvs ≤ fuel → s.chan.drop (2 ^ w) fuel = some d) ∧
      d.msgs = s.hist.pending ∧ (∀ msg ∈ d.msgs, msg.isSome) ∧
      d.freed.Nodup ∧ (∀ b, b ∈ d.freed ↔ LinkedFrom s.chan s.chan.head.block b) ∧
      d.freed.getLast? = some s.chan.tail.block ∧ ∀ b ∈ d.freed, b ∉ s.hist.destroyed := by
  have hi := inv_reachable hs
  have hq : ∀ t b, ¬ (s.pc t).leavesTail b ∧ ¬ (s.pc t).leavesHead b := fun t =>
    ((hc t).free t).2.2
  obtain ⟨-, -, hfresh⟩ := (edges_reachable hs).settled hi hq
  have hdrop := fun fuel (hfuel : s.hist.sends - s.hist.recvs ≤ fuel) =>
    drop_eq hw hs hq hplaced hfuel
  obtain ⟨hheadle, -⟩ := hdrop _ (Nat.le_refl _)
  refine ⟨_, fun fuel hfuel => (hdrop fuel hfuel).2, ?_, ?_, ?_, ?_, ?_, ?_⟩
  · rw [hi.pending_eq hc]
    refine List.map_congr_left fun k hk => ?_
    rw [List.mem_range'_1] at hk
    exact (hi.view_put hc hk.1 (by omega)).1
  · intro msg hmsg
    obtain ⟨k, hk, rfl⟩ := List.mem_map.mp hmsg
    rw [List.mem_range'_1] at hk
    obtain ⟨hview, hput⟩ := hi.view_put hc hk.1 (by omega)
    rwa [hview]
  · exact List.nodup_range'
  · intro b
    rw [List.mem_range'_1, linkedFrom_iff hi.chain hi.chain.headBlock]
    omega
  · rw [List.getLast?_range', if_neg (by omega)]
    exact congrArg some (by omega)
  · intro b hb hdead
    have := hi.retired.destroyed b hdead
    rw [List.mem_range'_1] at hb
    omega

end

/-- After 31 messages the 32nd fills the last slot of the first block, which installs the next one, and
    the 33rd goes there. -/
def acrossBlocks : List (Label Bool Nat) :=
  (List.replicate 31 (sendLabels ++ recvLabels)).flatten ++
    .call false .startSend :: List.replicate 6 (.run false false) ++
      [.call false (.write 8), .run false false, .run false false, .call false .ret] ++ sendLabels

theorem acrossBlocks_runs :
    (Lib.System.replay program.step (State.init : State Bool Nat) acrossBlocks).isSome := by
  decide +kernel

def acrossBlocksRun : (system : Lib.System (State Bool Nat) (Label Bool Nat)).Exec :=
  .ofReplay (fun _ _ _ (hs : program.step _ _ = some _) => hs) .init init_init acrossBlocks
    acrossBlocks_runs

/-- One message is left in the first block, and one in the second. -/
theorem drop_frees_all_acrossBlocks :
    ∃ d : Dropped Nat,
      (∀ fuel, 2 ≤ fuel → (acrossBlocksRun.state 578).chan.drop (2 ^ 6) fuel = some d) ∧
      d.msgs = [some 8, some 7] ∧ 0 ∈ d.freed ∧ d.freed.getLast? = some 1 := by
  have hends : (acrossBlocksRun.state 578).chan.head.block = 0 ∧
      (acrossBlocksRun.state 578).chan.tail.block = 1 := by decide +kernel
  have hcount : (acrossBlocksRun.state 578).hist.sends - (acrossBlocksRun.state 578).hist.recvs = 2 := by
    decide +kernel
  have hidle : ∀ t, ((acrossBlocksRun.state 578).pc t).isIdle = true := by decide +kernel
  have hdone : Completed (acrossBlocksRun.state 578) := fun t => .inl (Pc.eq_idle (hidle t))
  obtain ⟨d, hdrop, hmsgs, -, -, hfreed, hlast, -⟩ := drop_frees_all (w := 6) (by decide)
    (acrossBlocksRun.reachable (by decide +kernel)) hdone
    (placed_blocks (n := 2) (by decide) (by rw [hends.2]; decide))
  rw [hcount] at hdrop
  rw [hends.2] at hlast
  rw [hends.1] at hfreed
  refine ⟨d, hdrop, hmsgs.trans ?_, (hfreed 0).mpr .refl, hlast⟩
  decide +kernel

end CrossbeamChannel.ListFlavor
