import CrossbeamChannel.Flavors.ArraySequential
import CrossbeamChannel.Flavors.ArrayStep
import CrossbeamChannel.Flavors.ListReclaim
import CrossbeamChannel.Lib.Alone

/-!
# The reservation loops cannot get stuck

The loops of `start_send` and `start_recv` have no measure of their own: a turn that finds the
words in none of the expected shapes starts over. A thread that runs alone finds the words as the
others have left them, some of them half way.

In the list flavor an end may be exactly one block behind its index. Then one turn installs the
next block, and the next one reserves. In the array flavor a slot that is between two stamps makes
the loop wait for whoever has reserved it; if there is no such thread, one turn decides.
-/

namespace CrossbeamChannel

variable {Tid T : Type}

namespace ListFlavor

/-- The step goes back to the top of a loop, and not because a `compare_exchange_weak` failed
    spuriously. -/
def Pc.restarts (spurious : Bool) : Pc T → Pc T → Bool
  | .sendDisconnected, .sendBlock => false
  | .sendCas _ _ _, .sendBlock | .recvCas _ _ _, .recvBlock => !spurious
  | _, .sendBlock | _, .recvBlock => true
  | _, _ => false

/-- `start_send` or `start_recv` has returned. -/
def Pc.Returned : Pc T → Prop
  | .sent _ | .received _ | .empty => True
  | _ => False

/-- What a thread in `start_send` or `start_recv` has loaded is what the words still hold. -/
def Current (ch : Channel T) : Pc T → Prop
  | .sendDisconnected | .sendBlock | .recvBlock => True
  | .sendIndex b | .sendNext b none | .sendBlockCas b _ none => b = ch.tail.block
  | .sendCas b index _ => b = ch.tail.block ∧ index = ch.tail.index
  | .recvIndex b | .recvNext b none | .recvBlockCas b _ none => b = ch.head.block
  | .recvReady b index _ | .recvTail b index _ | .recvCas b index _ =>
      b = ch.head.block ∧ index = ch.head.index
  | .recvDisconnected b index _ tail | .recvTailAgain b index _ tail =>
      b = ch.head.block ∧ index = ch.head.index ∧ tail = ch.tail.index
  | .sendNext _ (some _) | .sendBlockCas _ _ (some _) | .sent _ | .recvNext _ (some _)
  | .recvBlockCas _ _ (some _) | .recvDestroy _ _ | .received _ | .empty => True
  | _ => False

/-- The index has left the block. -/
def Position.behind (p : Position) : Nat := if blockCap * (p.block + 1) ≤ p.index then 1 else 0

/-- How often the thread still has to start over. -/
def turnsLeft (ch : Channel T) : Pc T → Nat
  | .sendDisconnected | .sendBlock | .sendIndex _ => ch.tail.behind
  | .recvBlock | .recvIndex _ => ch.head.behind
  | .sendNext _ none | .sendBlockCas _ _ none | .recvNext _ none | .recvBlockCas _ _ none => 1
  | _ => 0

/-- How far it is to the end of the turn. -/
def Pc.wayLeft : Pc T → Nat
  | .sendDisconnected => 10
  | .sendBlock | .recvBlock => 9
  | .sendIndex _ | .recvIndex _ => 8
  | .recvReady _ _ _ => 7
  | .recvTail _ _ _ => 6
  | .recvDisconnected _ _ _ _ => 5
  | .sendCas _ _ _ | .recvCas _ _ _ | .recvTailAgain _ _ _ _ => 4
  | .sendNext _ _ | .recvNext _ _ => 3
  | .sendBlockCas _ _ _ | .recvBlockCas _ _ _ => 2
  | .recvDestroy _ _ => 1
  | _ => 0

/-- What a step of a thread that runs alone leaves. -/
structure Goes (ch : Channel T) (pc : Pc T) (spurious : Bool) (ch' : Channel T) (pc' : Pc T) :
    Prop where
  current : Current ch' pc'
  turns : (pc.restarts spurious pc').toNat + turnsLeft ch' pc' ≤ turnsLeft ch pc
  way : spurious = false → 10 * turnsLeft ch' pc' + pc'.wayLeft < 10 * turnsLeft ch pc + pc.wayLeft

theorem Position.behind_eq_zero {p : Position} (h : p.index < blockCap * (p.block + 1)) :
    p.behind = 0 := if_neg (by omega)

theorem Position.behind_eq_one {p : Position} (h : blockCap * (p.block + 1) ≤ p.index) :
    p.behind = 1 := if_pos h

variable {s : State Tid T} {t : Tid} {spurious : Bool} {ch' : Channel T} {pc pc' : Pc T}
  {ev : Event T}

/-- The block of the tail is read, and the index with it. -/
theorem sendBranch_goes (hi : Inv s) :
    Goes s.chan (.sendIndex s.chan.tail.block) spurious s.chan
      (sendBranch (s.chan.heap s.chan.tail.block) s.chan.tail.block s.chan.tail.index) := by
  have hstart := hi.chain.start _ hi.chain.tailBlock
  have hlow := hi.ends.tailLow
  have hhigh := hi.ends.tailHigh
  rw [← hi.ends.tailIndex] at hlow hhigh
  rw [Nat.mul_succ] at hhigh
  unfold sendBranch Block.offset
  rw [hstart, if_pos hlow]
  dsimp only
  split
  · exact ⟨⟨rfl, rfl⟩, Nat.zero_le _, fun _ => by simp only [turnsLeft, Pc.wayLeft]; omega⟩
  · rw [if_pos (by omega)]
    have hbehind : s.chan.tail.behind = 1 := Position.behind_eq_one (by rw [Nat.mul_succ]; omega)
    refine ⟨rfl, ?_, fun _ => ?_⟩
    · simp only [turnsLeft, hbehind, Pc.restarts, Bool.toNat_false]
      omega
    · simp only [turnsLeft, hbehind, Pc.wayLeft]
      omega

/-- The block of the head is read, and the index with it. -/
theorem recvBranch_goes (hi : Inv s) :
    Goes s.chan (.recvIndex s.chan.head.block) spurious s.chan
      (recvBranch (s.chan.heap s.chan.head.block) s.chan.head.block s.chan.head.index) := by
  have hstart := hi.chain.start _ hi.chain.headBlock
  have hlow := hi.ends.headLow
  have hhigh := hi.ends.headHigh
  rw [← hi.ends.headIndex] at hlow hhigh
  rw [Nat.mul_succ] at hhigh
  unfold recvBranch Block.offset
  rw [hstart, if_pos hlow]
  dsimp only
  split
  · exact ⟨⟨rfl, rfl⟩, Nat.zero_le _, fun _ => by simp only [turnsLeft, Pc.wayLeft]; omega⟩
  · rw [if_pos (by omega)]
    have hbehind : s.chan.head.behind = 1 := Position.behind_eq_one (by rw [Nat.mul_succ]; omega)
    refine ⟨rfl, ?_, fun _ => ?_⟩
    · simp only [turnsLeft, hbehind, Pc.restarts, Bool.toNat_false]
      omega
    · simp only [turnsLeft, hbehind, Pc.wayLeft]
      omega

/-- A step of a thread that runs alone in `start_send` or `start_recv`. -/
theorem goes (hi : Inv s) (hok : PcOk s t pc) (hc : Current s.chan pc)
    (h : s.chan.step spurious pc = some (ch', pc', ev)) : Goes s.chan pc spurious ch' pc' := by
  have htail := hi.ends.tailIndex
  have hhead := hi.ends.headIndex
  cases pc with
  | sendDisconnected =>
    simp only [Channel.step] at h
    split at h
    · cases h
      exact ⟨trivial, Nat.zero_le _, fun _ => by simp only [turnsLeft, Pc.wayLeft]; omega⟩
    · cases h
      exact ⟨trivial, by simp [Pc.restarts, turnsLeft], fun _ => by
        simp only [turnsLeft, Pc.wayLeft]; omega⟩
  | sendBlock =>
    cases h
    exact ⟨rfl, by simp [Pc.restarts, turnsLeft], fun _ => by
      simp only [turnsLeft, Pc.wayLeft]; omega⟩
  | sendIndex b =>
    cases h
    obtain rfl : b = s.chan.tail.block := hc
    exact sendBranch_goes hi
  | sendCas b index offset =>
    obtain ⟨rfl, rfl⟩ := hc
    obtain ⟨-, hlt, hindex⟩ := hok
    simp only [Channel.step, true_and] at h
    split at h
    · cases h
      unfold sendReserved
      split
      · exact ⟨trivial, Nat.zero_le _, fun _ => by simp [turnsLeft, Pc.wayLeft]⟩
      · exact ⟨trivial, Nat.zero_le _, fun _ => by simp [turnsLeft, Pc.wayLeft]⟩
    · rename_i hsp
      cases h
      -- The index lies in the block, so the next turn reserves.
      have hbehind : s.chan.tail.behind = 0 :=
        Position.behind_eq_zero (by rw [Nat.mul_succ]; omega)
      obtain rfl : spurious = true := by simpa using hsp
      exact ⟨trivial, by simp [Pc.restarts, turnsLeft, hbehind], fun hf => absurd hf (by simp)⟩
  | sendNext b slot =>
    cases h
    obtain ⟨hb, -, -⟩ := hok
    obtain ⟨-, hl⟩ := Inv.linkNext_spec hi.chain (Nat.lt_of_le_of_lt hb hi.chain.tailBlock)
    cases slot with
    | none =>
      refine ⟨?_, by simp [Pc.restarts, turnsLeft], fun _ => by simp [turnsLeft, Pc.wayLeft]⟩
      exact (hc : b = _).trans (congrArg Position.block hl.tail).symm
    | some offset =>
      exact ⟨trivial, by simp [Pc.restarts, turnsLeft], fun _ => by simp [turnsLeft, Pc.wayLeft]⟩
  | sendBlockCas b next slot =>
    cases h
    cases slot with
    | none =>
      obtain rfl : b = s.chan.tail.block := hc
      obtain ⟨-, -, -, rfl, -⟩ := hok
      have hhigh := hi.ends.tailHigh
      -- The block catches up with its index.
      have hbehind :
          (s.chan.casTailBlock s.chan.tail.block (s.chan.tail.block + 1)).tail.behind = 0 := by
        rw [Channel.casTailBlock, if_pos rfl]
        refine Position.behind_eq_zero ?_
        dsimp only
        rw [htail, Nat.mul_succ]
        have : 0 < blockCap := by decide
        omega
      refine ⟨trivial, ?_, fun _ => ?_⟩
      · simp [Pc.restarts, turnsLeft, sendInstalled, hbehind]
      · simp [turnsLeft, sendInstalled, hbehind, Pc.wayLeft]
    | some offset =>
      exact ⟨trivial, Nat.zero_le _, fun _ => by simp [turnsLeft, sendInstalled, Pc.wayLeft]⟩
  | recvBlock =>
    cases h
    exact ⟨rfl, by simp [Pc.restarts, turnsLeft], fun _ => by
      simp only [turnsLeft, Pc.wayLeft]; omega⟩
  | recvIndex b =>
    cases h
    obtain rfl : b = s.chan.head.block := hc
    exact recvBranch_goes hi
  | recvReady b index offset =>
    simp only [Channel.step] at h
    split at h
    · cases h
      exact ⟨hc, Nat.zero_le _, fun _ => by simp [turnsLeft, Pc.wayLeft]⟩
    · cases h
      exact ⟨hc, Nat.zero_le _, fun _ => by simp [turnsLeft, Pc.wayLeft]⟩
  | recvTail b index offset =>
    simp only [Channel.step] at h
    split at h
    · cases h
      exact ⟨⟨hc.1, hc.2, rfl⟩, Nat.zero_le _, fun _ => by simp [turnsLeft, Pc.wayLeft]⟩
    · cases h
      exact ⟨hc, Nat.zero_le _, fun _ => by simp [turnsLeft, Pc.wayLeft]⟩
  | recvDisconnected b index offset tail =>
    simp only [Channel.step] at h
    split at h
    · cases h
      exact ⟨hc, Nat.zero_le _, fun _ => by simp [turnsLeft, Pc.wayLeft]⟩
    · cases h
      exact ⟨trivial, Nat.zero_le _, fun _ => by simp [turnsLeft, Pc.wayLeft]⟩
  | recvTailAgain b index offset tail =>
    obtain ⟨-, -, rfl⟩ := hc
    simp only [Channel.step, if_true] at h
    cases h
    exact ⟨trivial, Nat.zero_le _, fun _ => by simp [turnsLeft, Pc.wayLeft]⟩
  | recvCas b index offset =>
    obtain ⟨rfl, rfl⟩ := hc
    obtain ⟨-, hlt, hindex, -⟩ := hok
    simp only [Channel.step, true_and] at h
    split at h
    · cases h
      unfold recvClaimed
      split
      · exact ⟨trivial, Nat.zero_le _, fun _ => by simp [turnsLeft, Pc.wayLeft]⟩
      · exact ⟨trivial, Nat.zero_le _, fun _ => by simp [turnsLeft, Pc.wayLeft]⟩
    · rename_i hsp
      cases h
      have hbehind : s.chan.head.behind = 0 :=
        Position.behind_eq_zero (by rw [Nat.mul_succ]; omega)
      obtain rfl : spurious = true := by simpa using hsp
      exact ⟨trivial, by simp [Pc.restarts, turnsLeft, hbehind], fun hf => absurd hf (by simp)⟩
  | recvNext b slot =>
    cases h
    obtain ⟨hb, -, -⟩ := hok
    obtain ⟨-, hl⟩ := Inv.linkNext_spec hi.chain (Nat.lt_of_le_of_lt hb hi.chain.headBlock)
    cases slot with
    | none =>
      refine ⟨?_, by simp [Pc.restarts, turnsLeft], fun _ => by simp [turnsLeft, Pc.wayLeft]⟩
      exact (hc : b = _).trans (congrArg Position.block hl.head).symm
    | some offset =>
      exact ⟨trivial, by simp [Pc.restarts, turnsLeft], fun _ => by simp [turnsLeft, Pc.wayLeft]⟩
  | recvBlockCas b next slot =>
    cases h
    cases slot with
    | none =>
      obtain rfl : b = s.chan.head.block := hc
      obtain ⟨-, -, -, rfl, -⟩ := hok
      have hhigh := hi.ends.headHigh
      have hbehind :
          (s.chan.casHeadBlock s.chan.head.block (s.chan.head.block + 1)).head.behind = 0 := by
        rw [Channel.casHeadBlock, if_pos rfl]
        refine Position.behind_eq_zero ?_
        dsimp only
        rw [hhead, Nat.mul_succ]
        have : 0 < blockCap := by decide
        omega
      refine ⟨trivial, ?_, fun _ => ?_⟩
      · simp [Pc.restarts, turnsLeft, recvInstalled, hbehind]
      · simp [turnsLeft, recvInstalled, hbehind, Pc.wayLeft]
    | some offset =>
      exact ⟨trivial, Nat.zero_le _, fun _ => by simp [turnsLeft, recvInstalled, Pc.wayLeft]⟩
  | recvDestroy b offset =>
    cases h
    exact ⟨trivial, Nat.zero_le _, fun _ => by simp [turnsLeft, Pc.wayLeft]⟩
  | sent token => cases h
  | received token => cases h
  | empty => cases h
  | _ => exact absurd hc id

/-- A thread that has not returned has a next step. -/
theorem step_exists (ch : Channel T) (hc : Current ch pc) (hr : ¬ pc.Returned) :
    ∃ ch' pc' ev, ch.step false pc = some (ch', pc', ev) := by
  cases pc with
  | sent token => exact absurd trivial hr
  | received token => exact absurd trivial hr
  | empty => exact absurd trivial hr
  | sendDisconnected | sendCas | recvReady | recvTail | recvDisconnected | recvTailAgain | recvCas =>
    simp only [Channel.step]
    split <;> exact ⟨_, _, _, rfl⟩
  | sendBlock | sendIndex | sendNext | sendBlockCas | recvBlock | recvIndex | recvNext
  | recvBlockCas | recvDestroy => exact ⟨_, _, _, rfl⟩
  | _ => exact absurd hc id

variable [DecidableEq Tid]

/-- Thread `t` runs alone. -/
abbrev Alone (t : Tid) (weak : Bool) : State Tid T → Nat → State Tid T → Prop :=
  Lib.Program.Alone program t Pc.restarts weak

/-- A thread at the top of either loop returns within the turn it begins and the one after it. -/
theorem returns_within (hr : system.Reachable s) (hc : Current s.chan (s.pc t)) {n : Nat}
    {s' : State Tid T} (hrun : Alone t true s n s') :
    ∃ m s'', Alone t false s' m s'' ∧ (s''.pc t).Returned ∧
      n + m ≤ turnsLeft s.chan (s.pc t) := by
  refine hrun.returns (fun s => system.Reachable s ∧ Current s.chan (s.pc t))
    (fun s => turnsLeft s.chan (s.pc t))
    (fun s => 10 * turnsLeft s.chan (s.pc t) + (s.pc t).wayLeft) Pc.Returned ?_ ?_ ⟨hr, hc⟩
  · rintro s spurious s₁ ⟨hr, hc⟩ hone
    have hr₁ : system.Reachable s₁ := .step (l := .run t spurious) hr hone
    obtain ⟨ch, pc, ev, hstep, rfl⟩ := Lib.Program.run_eq_some hone
    have hg := goes (inv_reachable hr) ((inv_reachable hr).pcs t) hc hstep
    refine ⟨⟨hr₁, ?_⟩, ?_⟩
    · simpa only [Function.update_self] using hg.current
    · simpa only [Function.update_self] using hg.turns
  · rintro s ⟨hr, hc⟩ hret
    obtain ⟨ch, pc, ev, hstep⟩ := step_exists s.chan hc hret
    have hg := goes (inv_reachable hr) ((inv_reachable hr).pcs t) hc hstep
    refine ⟨⟨ch, Function.update s.pc t pc, program.record s.hist t ev⟩, ?_, ?_⟩
    · rw [Lib.Program.run]
      exact congrArg (Option.map _) hstep
    · simpa only [Function.update_self] using hg.way rfl

/-- The beginning of `start_send` or `start_recv`, or the top of its loop. -/
def Pc.Begins (pc : Pc T) : Prop := pc = .sendDisconnected ∨ pc = .sendBlock ∨ pc = .recvBlock

omit [DecidableEq Tid] in
theorem call_startSend (h : pc.call .startSend = some pc') : pc' = .sendDisconnected := by
  unfold Pc.call at h
  split at h <;> cases h <;> first | rfl | contradiction

omit [DecidableEq Tid] in
theorem begins_spec (hb : pc.Begins) (ch : Channel T) : Current ch pc ∧ turnsLeft ch pc ≤ 1 := by
  have hbehind : ∀ p : Position, p.behind ≤ 1 := by
    intro p
    rw [Position.behind]
    split <;> omega
  obtain rfl | rfl | rfl := hb <;> exact ⟨trivial, hbehind _⟩

end ListFlavor

namespace ArrayFlavor

/-- `start_send` or `start_recv` has returned. -/
def Pc.Returned : Pc T → Prop
  | .sent _ | .full | .received _ | .empty => True
  | _ => False

/-- The beginning of `start_send` or `start_recv`, or the top of its loop. -/
def Pc.Begins (pc : Pc T) : Prop := pc = .sendDisconnected ∨ pc = .sendTail ∨ pc = .recvHead

/-- Every reservation has been completed by its `write` or its `read`. -/
def Completed (s : State Tid T) : Prop := ∀ k, (s.hist.stage k).owner = none

/-- What a thread in `start_send` or `start_recv` has loaded is what the words still hold, and
    the loop goes where it decides. -/
def Current (ch : Channel T) : Pc T → Prop
  | .sendDisconnected | .sendTail | .recvHead => True
  | .sendStamp tail | .sendCas tail _ => tail = ch.tail
  | .sendHead tail => ch.wrappingAdd ch.head ch.oneLap = tail
  | .recvStamp head | .recvCas head _ => head = ch.head
  | .recvTail head => ch.wrappingAdd ch.tail ch.oneLap = head
  | .recvDisconnected _ tail | .recvTailAgain _ tail => tail = ch.tail
  | _ => False

/-- How far it is to the end of the turn. -/
def Pc.wayLeft : Pc T → Nat
  | .sendDisconnected => 6
  | .sendTail | .recvHead => 5
  | .sendStamp _ | .recvStamp _ => 4
  | .recvTail _ => 3
  | .recvDisconnected _ _ => 2
  | .sendCas _ _ | .sendHead _ | .recvCas _ _ | .recvTailAgain _ _ => 1
  | _ => 0

variable {s : State Tid T} {t : Tid} {spurious : Bool} {ch' : Channel T} {pc pc' : Pc T}
  {ev : Event T}

/-- A completed position that the tail has passed is published or released. -/
theorem Completed.rank (hc : Completed s) {k : Nat} :
    s.hist.rankAt k = 0 ∨ s.hist.rankAt k = 3 ∨ s.hist.rankAt k = 6 := by
  have hk := hc k
  unfold History.rankAt
  cases hst : s.hist.stage k <;> simp_all [Stage.owner]

/-- The slot under the tail is free for it, or the channel is full. -/
theorem tail_slot (hi : Inv s) (hc : Completed s) :
    let stamp := (s.chan.buffer (s.chan.index s.chan.tail)).stamp
    s.chan.tail = stamp ∨ s.chan.wrappingAdd stamp s.chan.oneLap = s.chan.tail ∧
      s.chan.wrappingAdd s.chan.head s.chan.oneLap = s.chan.tail := by
  intro stamp
  have hvacant : s.hist.rankAt s.hist.sends = 0 := by
    have := mt (hi.sends s.hist.sends).mpr (by omega)
    omega
  have hstamp : stamp = (s.chan.buffer (s.hist.sends % s.chan.cap)).stamp := by
    rw [← hi.geo.index_tailStamp, ← hi.tail]
  rcases hi.live_at (Nat.le_refl _) (by omega) with hlive | ⟨hcap, hlive⟩
  · left
    rw [hstamp, hi.slot _ hlive, hi.tail, History.view, hvacant, if_pos (by omega)]
  · -- The position a round before has been published and not been claimed.
    have hrank : s.hist.rankAt (s.hist.sends - s.chan.cap) = 3 := by
      have hpos := hi.geo.pos
      have hsent := (hi.sends (s.hist.sends - s.chan.cap)).mp (by omega)
      have hnot := hlive.1
      rcases hc.rank (k := s.hist.sends - s.chan.cap) with h | h | h <;> omega
    have hrecvs : s.hist.recvs = s.hist.sends - s.chan.cap := by
      have hunclaimed := mt (hi.recvs (s.hist.sends - s.chan.cap)).mp (by omega)
      have hle := hi.sends_le
      omega
    have hmod : (s.hist.sends - s.chan.cap) % s.chan.cap = s.hist.sends % s.chan.cap := by
      rw [← Nat.add_mod_right, Nat.sub_add_cancel hcap]
    have hslot := hi.slot _ hlive
    rw [hmod] at hslot
    have hround : headStamp s.chan.cap s.chan.oneLap (s.hist.sends - s.chan.cap) + s.chan.oneLap =
        tailStamp s.chan.cap s.chan.oneLap s.hist.sends :=
      (headStamp_add_eq hi.geo.pos hi.geo.le).mpr (Nat.sub_add_cancel hcap).symm
    right
    rw [hi.geo.wrappingAdd_eq, hi.geo.wrappingAdd_eq, hstamp, hslot, hi.head, hi.tail, hrecvs,
      History.view, hrank, if_neg (by omega)]
    exact ⟨hround, hround⟩

/-- The slot under the head is ready for it, or the channel is empty. -/
theorem head_slot (hi : Inv s) (hc : Completed s) :
    let stamp := (s.chan.buffer (s.chan.index s.chan.head)).stamp
    s.chan.head = stamp ∨ s.chan.wrappingAdd stamp s.chan.oneLap = s.chan.head ∧
      s.chan.wrappingAdd s.chan.tail s.chan.oneLap = s.chan.head := by
  intro stamp
  have hunclaimed := mt (hi.recvs s.hist.recvs).mpr (by omega)
  have hstamp : stamp = (s.chan.buffer (s.hist.recvs % s.chan.cap)).stamp := by
    rw [← hi.geo.index_headStamp, ← hi.head]
  have hlive : s.hist.Live s.chan.cap s.hist.recvs := by
    rcases hi.live_at hi.recvs_le_sends (by omega) with hlive | ⟨hcap, hlive⟩
    · exact hlive
    · -- The position a round before was claimed, so it has been released.
      have hpos := hi.geo.pos
      have hclaimed := (hi.recvs (s.hist.recvs - s.chan.cap)).mp (by omega)
      have hnot := hlive.1
      rcases hc.rank (k := s.hist.recvs - s.chan.cap) with h | h | h <;> omega
  rw [hstamp, hi.slot _ hlive, History.view, hi.geo.wrappingAdd_eq, hi.geo.wrappingAdd_eq, hi.head,
    hi.tail]
  rcases hc.rank (k := s.hist.recvs) with h0 | h3 | h6
  · right
    have hsends : s.hist.sends = s.hist.recvs := by
      have hunsent := mt (hi.sends s.hist.recvs).mp (by omega)
      have hle := hi.recvs_le_sends
      omega
    rw [h0, if_pos (by omega), hsends]
    exact ⟨tailStamp_add _, tailStamp_add _⟩
  · left
    rw [h3, if_neg (by omega)]
  · omega

/-- A step of a thread that runs alone in `start_send` or `start_recv`, with every reservation
    completed. -/
theorem goes (hi : Inv s) (hc : Completed s) (hcur : Current s.chan pc)
    (h : s.chan.step spurious pc = some (ch', pc', ev)) :
    (pc'.Returned ∨ ev = .silent ∧ Current ch' pc') ∧ pc.restarts spurious pc' = false ∧
      (spurious = false → pc'.wayLeft < pc.wayLeft) := by
  cases pc with
  | sendDisconnected =>
    simp only [Channel.step] at h
    split at h
    · cases h
      exact ⟨.inl trivial, rfl, fun _ => by simp [Pc.wayLeft]⟩
    · cases h
      exact ⟨.inr ⟨rfl, trivial⟩, rfl, fun _ => by simp [Pc.wayLeft]⟩
  | sendTail =>
    cases h
    exact ⟨.inr ⟨rfl, rfl⟩, rfl, fun _ => by simp [Pc.wayLeft]⟩
  | sendStamp tail =>
    obtain rfl : tail = s.chan.tail := hcur
    simp only [Channel.step] at h
    rcases tail_slot hi hc with heq | ⟨hlag, hfull⟩
    · rw [if_pos heq] at h
      cases h
      exact ⟨.inr ⟨rfl, rfl⟩, rfl, fun _ => by simp [Pc.wayLeft]⟩
    · split at h
      · cases h
        exact ⟨.inr ⟨rfl, rfl⟩, rfl, fun _ => by simp [Pc.wayLeft]⟩
      · cases h
        exact ⟨.inr ⟨rfl, hfull⟩, rfl, fun _ => by simp [Pc.wayLeft]⟩
  | sendCas tail stamp =>
    obtain rfl : tail = s.chan.tail := hcur
    simp only [Channel.step, true_and] at h
    split at h
    · cases h
      exact ⟨.inl trivial, rfl, fun _ => by simp [Pc.wayLeft]⟩
    · rename_i hsp
      obtain rfl : spurious = true := by simpa using hsp
      cases h
      exact ⟨.inr ⟨rfl, trivial⟩, rfl, fun hf => absurd hf (by simp)⟩
  | sendHead tail =>
    simp only [Channel.step, if_pos (show s.chan.wrappingAdd s.chan.head _ = tail from hcur)] at h
    cases h
    exact ⟨.inl trivial, rfl, fun _ => by simp [Pc.wayLeft]⟩
  | recvHead =>
    cases h
    exact ⟨.inr ⟨rfl, rfl⟩, rfl, fun _ => by simp [Pc.wayLeft]⟩
  | recvStamp head =>
    obtain rfl : head = s.chan.head := hcur
    simp only [Channel.step] at h
    rcases head_slot hi hc with heq | ⟨hlag, hempty⟩
    · rw [if_pos heq] at h
      cases h
      exact ⟨.inr ⟨rfl, rfl⟩, rfl, fun _ => by simp [Pc.wayLeft]⟩
    · split at h
      · cases h
        exact ⟨.inr ⟨rfl, rfl⟩, rfl, fun _ => by simp [Pc.wayLeft]⟩
      · cases h
        exact ⟨.inr ⟨rfl, hempty⟩, rfl, fun _ => by simp [Pc.wayLeft]⟩
  | recvCas head stamp =>
    obtain rfl : head = s.chan.head := hcur
    simp only [Channel.step, true_and] at h
    split at h
    · cases h
      exact ⟨.inl trivial, rfl, fun _ => by simp [Pc.wayLeft]⟩
    · rename_i hsp
      obtain rfl : spurious = true := by simpa using hsp
      cases h
      exact ⟨.inr ⟨rfl, trivial⟩, rfl, fun hf => absurd hf (by simp)⟩
  | recvTail head =>
    simp only [Channel.step, if_pos (show s.chan.wrappingAdd s.chan.tail _ = head from hcur)] at h
    cases h
    exact ⟨.inr ⟨rfl, rfl⟩, rfl, fun _ => by simp [Pc.wayLeft]⟩
  | recvDisconnected head tail =>
    obtain rfl : tail = s.chan.tail := hcur
    simp only [Channel.step] at h
    split at h
    · cases h
      exact ⟨.inr ⟨rfl, rfl⟩, rfl, fun _ => by simp [Pc.wayLeft]⟩
    · cases h
      exact ⟨.inl trivial, rfl, fun _ => by simp [Pc.wayLeft]⟩
  | recvTailAgain head tail =>
    obtain rfl : tail = s.chan.tail := hcur
    simp only [Channel.step, if_true] at h
    cases h
    exact ⟨.inl trivial, rfl, fun _ => by simp [Pc.wayLeft]⟩
  | _ => exact absurd hcur id

/-- A thread that has not returned has a next step. -/
theorem step_exists (ch : Channel T) (hcur : Current ch pc) :
    ∃ ch' pc' ev, ch.step false pc = some (ch', pc', ev) := by
  cases pc with
  | sendDisconnected | sendCas | sendHead | recvCas | recvTail | recvDisconnected | recvTailAgain =>
    simp only [Channel.step]
    split <;> exact ⟨_, _, _, rfl⟩
  | sendStamp | recvStamp =>
    simp only [Channel.step]
    split
    · exact ⟨_, _, _, rfl⟩
    · split <;> exact ⟨_, _, _, rfl⟩
  | sendTail | recvHead => exact ⟨_, _, _, rfl⟩
  | _ => exact absurd hcur id

variable [DecidableEq Tid]

/-- Thread `t` runs alone. -/
abbrev Alone (t : Tid) (weak : Bool) : State Tid T → Nat → State Tid T → Prop :=
  Lib.Program.Alone program t Pc.restarts weak

/-- A thread that begins with every reservation completed returns within the turn it begins. -/
theorem returns_within {maxValue cap : Nat} {ch : Channel T}
    (h : Channel.withCapacity maxValue none cap = some ch) (hr : (system ch).Reachable s)
    (hc : Completed s) (hcur : Current s.chan (s.pc t)) {n : Nat} {s' : State Tid T}
    (hrun : Alone t true s n s') :
    ∃ m s'', Alone t false s' m s'' ∧ (s''.pc t).Returned ∧ n + m ≤ 0 := by
  refine hrun.returns (fun s => (system ch).Reachable s ∧
      ((s.pc t).Returned ∨ Completed s ∧ Current s.chan (s.pc t)))
    (fun _ => 0) (fun s => (s.pc t).wayLeft) Pc.Returned ?_ ?_ ⟨hr, .inr ⟨hc, hcur⟩⟩
  · rintro s spurious s₁ ⟨hr, hst⟩ hone
    have hr₁ : (system ch).Reachable s₁ := .step (l := .run t spurious) hr hone
    obtain ⟨ch₁, pc, ev, hstep, rfl⟩ := Lib.Program.run_eq_some hone
    rcases hst with hret | ⟨hc, hcur⟩
    · generalize s.pc t = at_ at hret hstep
      cases at_ <;> first | exact hret.elim | cases hstep
    · obtain ⟨hnext, hturn, -⟩ := goes (inv_reachable h hr) hc hcur hstep
      refine ⟨⟨hr₁, ?_⟩, ?_⟩
      · simp only [Function.update_self]
        exact hnext.imp_right fun ⟨hev, hcur'⟩ => ⟨by rw [hev]; exact hc, hcur'⟩
      · simp only [Function.update_self, hturn]
        exact Nat.le_refl 0
  · rintro s ⟨hr, hst⟩ hret
    obtain ⟨hc, hcur⟩ := hst.resolve_left hret
    obtain ⟨ch₁, pc, ev, hstep⟩ := step_exists s.chan hcur
    have hway := (goes (inv_reachable h hr) hc hcur hstep).2.2 rfl
    refine ⟨⟨ch₁, Function.update s.pc t pc, program.record s.hist t ev⟩, ?_, ?_⟩
    · rw [Lib.Program.run]
      exact congrArg (Option.map _) hstep
    · simpa only [Function.update_self] using hway

end ArrayFlavor

/-- **The reservation loops cannot get stuck.** A thread that begins `start_send` or `start_recv`
and runs alone, with as many spurious failures of its CASes as may be, goes on to return as soon
as they stop: in the list flavor from every reachable state, after starting over at most once; in
the array flavor, where every reservation has been completed, without starting over. -/
theorem reservation_loops_return [DecidableEq Tid] :
    (∀ {s : ListFlavor.State Tid T}, ListFlavor.system.Reachable s → ∀ t, (s.pc t).Begins →
      ∀ n s', ListFlavor.Alone t true s n s' →
        ∃ m s'', ListFlavor.Alone t false s' m s'' ∧ (s''.pc t).Returned ∧ n + m ≤ 1) ∧
    (∀ {maxValue cap : Nat} {ch : ArrayFlavor.Channel T},
      ArrayFlavor.Channel.withCapacity maxValue none cap = some ch →
      ∀ {s : ArrayFlavor.State Tid T}, (ArrayFlavor.system ch).Reachable s →
      ArrayFlavor.Completed s → ∀ t, (s.pc t).Begins → ∀ n s', ArrayFlavor.Alone t true s n s' →
        ∃ m s'', ArrayFlavor.Alone t false s' m s'' ∧ (s''.pc t).Returned ∧ n + m = 0) := by
  constructor
  · intro s hr t hb n s' hrun
    obtain ⟨hcur, hle⟩ := ListFlavor.begins_spec hb s.chan
    obtain ⟨m, s'', hrest, hret, hturns⟩ := ListFlavor.returns_within hr hcur hrun
    exact ⟨m, s'', hrest, hret, Nat.le_trans hturns hle⟩
  · intro maxValue cap ch h s hr hc t hb n s' hrun
    have hcur : ArrayFlavor.Current s.chan (s.pc t) := by
      obtain heq | heq | heq := hb <;> rw [heq] <;> trivial
    obtain ⟨m, s'', hrest, hret, hturns⟩ := ArrayFlavor.returns_within h hr hc hcur hrun
    exact ⟨m, s'', hrest, hret, Nat.le_zero.mp hturns⟩

open ListFlavor in
/-- A sender has reserved the last slot of a block and stopped; another one begins. -/
theorem reservation_loops_return_stalled :
    ∃ s : ListFlavor.State Bool Nat, s.chan.tail.behind = 1 ∧
      ∃ m s'', Alone true false s m s'' ∧ (s''.pc true).Returned ∧ 0 + m ≤ 1 := by
  have hreach : system.Reachable (lateSenderRun.state 563) :=
    lateSenderRun.reachable (by decide +kernel)
  have hcall : (program.enter (lateSenderRun.state 563) true .startSend).isSome := by
    decide +kernel
  have hbehind : (lateSenderRun.state 563).chan.tail.behind = 1 := by decide +kernel
  generalize lateSenderRun.state 563 = w at hreach hcall hbehind
  obtain ⟨s, hs⟩ := Option.isSome_iff_exists.mp hcall
  have hr : system.Reachable s := .step (l := .call true .startSend) hreach hs
  obtain ⟨pc, hpc, rfl⟩ := Lib.Program.enter_eq_some hs
  refine ⟨{ w with pc := Function.update w.pc true pc }, hbehind, ?_⟩
  refine reservation_loops_return.1 hr true (.inl ?_) 0 _ .refl
  simpa only [Function.update_self] using call_startSend hpc

end CrossbeamChannel
